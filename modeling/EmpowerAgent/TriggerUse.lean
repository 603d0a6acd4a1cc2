import EmpowerAgent.TriggerRuns

namespace EmpowerAgent

open Library.Proc (Protocol Obeys)

/-- The operations that give a procedure a trigger. -/
def Op.obtains : Op → Bool
  | .trigFindById _ | .trigAdd _ => true
  | _ => false

/-- What is left of a procedure may read a trigger before it gets another one,
so that it has the trigger from before. -/
inductive Holds {α : Type} (trig : Emtri) : Proc α → Prop
  | now {k : Unit → Proc α} : Holds trig (.call (.useTrig trig) k)
  | later {o : Op} {k : o.Res → Proc α} {r : o.Res} : o.obtains = false → Holds trig (k r) →
      Holds trig (.call o k)

def NetPc.Holds (trig : Emtri) : NetPc → Prop
  | .process p => EmpowerAgent.Holds trig p
  | _ => False

def SchPc.Holds (trig : Emtri) : SchPc → Prop
  | .perform _ _ p => EmpowerAgent.Holds trig p
  | _ => False

namespace Agent

def Holds (s : Agent) (trig : Emtri) : Prop := s.net.pc.Holds trig ∨ s.sch.Holds trig

/-- The next thing that one of the threads does is to read a trigger. -/
def Reads (s : Agent) (trig : Emtri) : Prop :=
  (∃ k, s.net.pc = .process (.call (.useTrig trig) k)) ∨
    ∃ task now k, s.sch = .perform task now (.call (.useTrig trig) k)

end Agent

/-- No trigger is removed that one of the threads holds. -/
def KeepsHeld (S : Setup) (s : Agent) (a : Act) : Prop :=
  ∀ trig s', s.Holds trig → (agent S).step s a = some s' → trig ∈ s.w.trig.ts →
    trig ∈ s'.w.trig.ts

section Procedures

variable {α τ : Type} {P : Protocol Op Op.Res τ} {post : τ → α → Prop} {f : τ → Option Emtri}
  {t : τ} {p : Proc α} {trig : Emtri}

theorem Holds.current (hread : ∀ t trig, P.allowed t (.useTrig trig) → f t = some trig)
    (hnext : ∀ t o r, o.obtains = false → f (P.next t o r) = f t)
    (h : Holds trig p) (hobeys : Obeys P post t p) : f t = some trig := by
  induction h generalizing t with
  | now => exact hread t trig hobeys.1
  | later ho _ ih =>
    rw [← hnext t _ _ ho]
    exact ih (hobeys.2 _)

theorem Holds.found {S : Setup} {task : Emtask} {t : JobPhase} {p : Proc Outcome}
    (h : Holds trig p) (hobeys : Obeys (jobProtocol S task) (JobPost S task) t p) :
    t.found = some trig := by
  refine Holds.current (f := JobPhase.found) ?_ ?_ h hobeys
  · exact fun _ _ hread ↦ allowed_read hread
  · intro t o r ho
    cases o with
    | trigFindById => cases ho
    | _ => rfl

theorem Holds.added {E : Emproto} {msg : Bytes} {t : HandlerPhase} {p : Proc ℤ}
    (h : Holds trig p) (hobeys : Obeys (handlerProtocol E msg) (HandlerPost E msg) t p) :
    t.added.head? = some trig := by
  refine Holds.current (f := fun t ↦ t.added.head?) ?_ ?_ h hobeys
  · exact fun _ _ hread ↦ hread
  · intro t o r ho
    rw [handler_next_added]
    rintro trig rfl
    cases ho

end Procedures

section Runs

variable {S : Setup} {s : Agent} {w w' : World} {trig : Emtri}

theorem SchMove.holds {pc pc' : SchPc} (hm : SchMove S pc w pc' w') (hwork : Working S w pc)
    (h : pc'.Holds trig) : pc.Holds trig ∨ trig ∈ w'.trig.ts := by
  cases hm with
  | clock => cases h.found (schedPerformJob_obeys _)
  | @op _ _ task now o k r he =>
    obtain ⟨t, hp⟩ := hwork
    cases ho : o.obtains with
    | false => exact .inl (.later ho h)
    | true =>
      have hcur := Holds.found h (hp.obeys.2 r)
      cases o with
      | trigFindById id =>
        cases he
        exact .inr (List.mem_of_find?_eq_some hcur)
      | trigAdd => cases allowed_op hp.obeys.1
      | _ => cases ho
  | _ => cases h

theorem NetMove.holds {E : Emproto} {t t' : NetThread} (hm : NetMove E t w t' w')
    (hserve : Serving E w t.pc) (h : t'.pc.Holds trig) : t.pc.Holds trig ∨ trig ∈ w'.trig.ts := by
  cases hm with
  | recvMessage => cases h.added (netProcessMessage_handles _)
  | @handler _ _ _ o k r he =>
    obtain ⟨msg, ph, hp⟩ := hserve
    cases ho : o.obtains with
    | false => exact .inl (.later ho h)
    | true =>
      have hcur := Holds.added h (hp.obeys.2 r)
      cases o with
      | trigAdd new =>
        cases he
        cases hcur
        exact .inr (List.mem_cons_self ..)
      | trigFindById => cases hp.obeys.1
      | _ => cases ho
  | again hpc | connectFail hpc => rcases hpc with rfl | rfl <;> cases h
  | _ => cases h

theorem Move.holds {s' : Agent} {a : Act} (hm : Move S s a s')
    (hserve : Serving S.proto s.w s.net.pc) (hwork : Working S s.w s.sch) (h : s'.Holds trig) :
    s.Holds trig ∨ trig ∈ s'.w.trig.ts := by
  cases hm with
  | net hm =>
    rcases h with h | h
    · exact (hm.holds hserve h).imp_left .inl
    · exact .inl (.inr h)
  | sched _ hm =>
    rcases h with h | h
    · exact .inl (.inl h)
    · exact (hm.holds hwork h).imp_left .inr
  | api => exact .inl h
  | release hm => cases hm <;> exact .inl h

theorem held_live (h : (agent S).Reach (KeepsHeld S) s) (hheld : s.Holds trig) :
    trig ∈ s.w.trig.ts := by
  revert trig
  refine h.invariant (I := fun s ↦ ∀ {trig}, s.Holds trig → trig ∈ s.w.trig.ts) ?_ ?_
  · intro trig hheld
    rcases hheld with hheld | hheld <;> cases hheld
  · intro s a s' hr hI hkeep hs trig hheld
    have hr := hr.reachable
    rcases (Agent.step_move hs).holds (.of_reachable hr) (.of_reachable hr) hheld with hold | hnew
    · exact hkeep trig s' hold hs (hI hold)
    · exact hnew

/-- As long as no trigger is removed under the thread that holds it, what a
thread reads is in the list. -/
theorem trigger_live_when_read (h : (agent S).Reach (KeepsHeld S) s) (hread : s.Reads trig) :
    trig ∈ s.w.trig.ts := by
  apply held_live h
  rcases hread with ⟨k, hpc⟩ | ⟨task, now, k, hpc⟩
  · left
    rw [hpc]
    exact Holds.now
  · right
    rw [hpc]
    exact Holds.now

def Agent.engaged (s : Agent) : Bool := match s.net.pc, s.sch with
  | .process _, _ => true
  | _, .perform _ _ _ => true
  | _, _ => false

def RemovesBetween (S : Setup) (s : Agent) (a : Act) : Prop :=
  s.engaged = true → ∀ s' ∈ (agent S).step s a, ∀ t ∈ s.w.trig.ts, t ∈ s'.w.trig.ts

instance (S : Setup) (s : Agent) (a : Act) : Decidable (RemovesBetween S s a) :=
  have : Decidable (∀ s' ∈ (agent S).step s a, ∀ t ∈ s.w.trig.ts, t ∈ s'.w.trig.ts) :=
    Option.decidableForallMem ((agent S).step s a)
  instDecidableForall

theorem RemovesBetween.keepsHeld {a : Act} (h : RemovesBetween S s a) : KeepsHeld S s a := by
  intro trig s' hheld hs ht
  refine h ?_ s' hs trig ht
  unfold Agent.engaged
  rcases hheld with hheld | hheld
  · cases hnet : s.net.pc with
    | process p => rfl
    | _ =>
      rw [hnet] at hheld
      cases hheld
  · cases hsch : s.sch with
    | perform task now p => cases s.net.pc <;> rfl
    | _ =>
      rw [hsch] at hheld
      cases hheld

def requestCell : List Act :=
  Sample.receive [0, 6, 2, 2, 1, 7] :: Sample.requestReport.tail

def skipHello : List Act :=
  [.sched .tick, .sched .tick, .sched (.time (Sample.after 1)), .sched .tick, .sched .tick]

def findTrigger : List Act := [.sched .tick, .sched (.time (Sample.after 1)), .sched .tick]

def deleteBetweenRun : List Act :=
  Sample.connect 3 ++ requestCell ++ [.api (.emDelTrigger 1) [.tick]] ++ requestCell ++
    skipHello ++ findTrigger ++ [.sched .tick, .sched .tick] ++ findTrigger

theorem trigger_live_when_read_second : ∃ s trig, (agent Sample.setup).Reach
    (KeepsHeld Sample.setup) s ∧ s.Reads trig ∧ trig.id = 2 ∧ trig ∈ s.w.trig.ts := by
  have hr := ((agent Sample.setup).reach_get (RemovesBetween Sample.setup) deleteBetweenRun
    (by decide +kernel)).mono fun _ _ _ h ↦ h.keepsHeld
  refine ⟨_, _, hr, .inr ⟨_, _, _, rfl⟩, rfl, ?_⟩
  exact trigger_live_when_read hr (.inr ⟨_, _, _, rfl⟩)

def deleteUnderRun : List Act :=
  Sample.connect 3 ++ requestCell ++ skipHello ++ findTrigger ++ [.api (.emDelTrigger 1) [.tick]]

theorem trigger_dead_when_read : ¬ ∀ s, (agent Sample.setup).Reachable s →
    ∀ trig, s.Reads trig → trig ∈ s.w.trig.ts := by
  intro h
  have hr := (agent Sample.setup).reach_get (fun _ _ ↦ True) deleteUnderRun (by decide +kernel)
  have hmem := h _ hr _ (.inr ⟨_, _, _, rfl⟩)
  revert hmem
  decide +kernel

end Runs

end EmpowerAgent
