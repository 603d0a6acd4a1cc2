import EmpowerAgent.Conduct

namespace EmpowerAgent

open Library.Proc (Obeys)

namespace Event

def wrote (k : ℕ) : Event → Option Bytes
  | .sent k' msg n => if k' = k then some (msg.take n) else none
  | _ => none

def messageOn (k : ℕ) : Event → Option Bytes
  | .sent k' msg _ => if k' = k then some msg else none
  | _ => none

def SendFits : Event → Prop
  | .sent _ msg n => n ≤ msg.length
  | _ => True

def Whole (k : ℕ) : Event → Prop
  | .sent k' msg n => k' = k → n = msg.length
  | _ => True

def OffSends (e : Event) : Prop := ∀ k, e.messageOn k = none

end Event

namespace World

/-- The bytes that a socket has accepted. -/
def wire (w : World) (k : ℕ) : Bytes := (w.hist.filterMap (Event.wrote k)).flatten

/-- The messages that the sends on a socket were given that did not fail. -/
def messages (w : World) (k : ℕ) : List Bytes := w.hist.filterMap (Event.messageOn k)

end World

/-- One call of `net_send`: on which socket, of what, and its answer. -/
structure SendCall where
  sock : ℕ
  msg : Bytes
  n : ℤ
  deriving DecidableEq, Repr

/-- What an observer notes of the sends: the one whose task has not returned
yet, and those before it, each with the outcome that its task returned. -/
structure WireLog where
  calling : Option SendCall
  returned : List (SendCall × Outcome)
  deriving DecidableEq, Repr

def noteWrite (s : Agent) (a : Act) (_ : Agent) (g : WireLog) : WireLog :=
  match s.sch, a with
  | .perform _ _ (.call (.netSend msg) _), .sched (.sent n) =>
    { g with calling := some ⟨s.w.socks, msg, n⟩ }
  | .perform _ _ (.pure op), .sched _ =>
    ⟨none, g.returned ++ g.calling.toList.map fun c ↦ (c, op)⟩
  | _, _ => g

def wireAgent (S : Setup) : Library.Machine (Agent × WireLog) Act :=
  (agent S).watch ⟨none, []⟩ noteWrite

/-- The messages taken for sent on a socket: those for which no network error
was returned, and one whose task has yet to return, if its send did not fail. -/
def WireLog.messages (g : WireLog) (k : ℕ) : List Bytes :=
  (g.returned.filter fun r ↦ r.1.sock = k ∧ r.2 ≠ .netError).map (·.1.msg) ++
    (g.calling.toList.filter fun c ↦ c.sock = k ∧ 0 ≤ c.n).map (·.msg)

/-- What was written on a socket is whole messages, and no outcome but a network
error is returned for a message of which a byte was not accepted. -/
structure WholeMessages (w : World) (g : WireLog) (k : ℕ) : Prop where
  stream : w.wire k = (g.messages k).flatten
  accepted : ∀ r ∈ g.returned, r.1.sock = k → r.2 ≠ .netError → r.1.n = r.1.msg.length

open Event

section Stream

variable {k : ℕ} {es : List Event}

theorem wrote_cons {e : Event} (he : e.SendFits) (k : ℕ) :
    (e.wrote k = none ∧ e.messageOn k = none ∧ e.Whole k) ∨
      ∃ msg n, e.wrote k = some (msg.take n) ∧ e.messageOn k = some msg ∧ n ≤ msg.length ∧
        (e.Whole k ↔ n = msg.length) := by
  cases e with
  | sent k' msg n =>
    by_cases hk : k' = k
    · exact .inr ⟨msg, n, by simp [wrote, hk], by simp [messageOn, hk], he, by simp [Whole, hk]⟩
    · exact .inl ⟨by simp [wrote, hk], by simp [messageOn, hk], by simp [Whole, hk]⟩
  | _ => exact .inl ⟨rfl, rfl, trivial⟩

theorem wire_length_le (h : ∀ e ∈ es, e.SendFits) :
    (es.filterMap (wrote k)).flatten.length ≤ (es.filterMap (messageOn k)).flatten.length := by
  induction es with
  | nil => exact Nat.le_refl _
  | cons e es ih =>
    have hrest := ih fun e he ↦ h e (List.mem_cons_of_mem _ he)
    rcases wrote_cons (h e (List.mem_cons_self ..)) k with ⟨hw, hm, _⟩ | ⟨msg, n, hw, hm, hn, _⟩
    · rwa [List.filterMap_cons_none hw, List.filterMap_cons_none hm]
    · rw [List.filterMap_cons_some hw, List.filterMap_cons_some hm]
      simp only [List.flatten_cons, List.length_append, List.length_take]
      omega

theorem wire_eq_iff (h : ∀ e ∈ es, e.SendFits) :
    (es.filterMap (wrote k)).flatten = (es.filterMap (messageOn k)).flatten ↔
      ∀ e ∈ es, e.Whole k := by
  induction es with
  | nil => simp
  | cons e es ih =>
    have hes : ∀ e ∈ es, e.SendFits := fun e he ↦ h e (List.mem_cons_of_mem _ he)
    rw [List.forall_mem_cons, ← ih hes]
    rcases wrote_cons (h e (List.mem_cons_self ..)) k with
      ⟨hw, hm, hwhole⟩ | ⟨msg, n, hw, hm, hn, hwhole⟩
    · rw [List.filterMap_cons_none hw, List.filterMap_cons_none hm]
      exact (and_iff_right hwhole).symm
    · rw [List.filterMap_cons_some hw, List.filterMap_cons_some hm, hwhole, List.flatten_cons,
        List.flatten_cons]
      constructor
      · intro heq
        -- what this send left out cannot be made up for by those after it
        have hle := wire_length_le (k := k) hes
        have hlen := congrArg List.length heq
        simp only [List.length_append, List.length_take] at hlen
        have hn : n = msg.length := by omega
        rw [hn, List.take_length] at heq
        exact ⟨hn, List.append_cancel_left heq⟩
      · intro hwhole
        obtain ⟨rfl, heq⟩ := hwhole
        rw [List.take_length, heq]

end Stream

section Sends

variable {w w' : World}

theorem sendFits_of_local {e : Event} (h : e.Local) : e.SendFits := by
  cases e <;> trivial

theorem sendFits_of_netMove {E : Emproto} {t t' : NetThread} (h : NetMove E t w t' w') :
    Extends SendFits w w' := by
  rcases h.records with hx | ⟨_, _, _, _, he⟩
  · refine hx.mono fun e he ↦ ?_
    cases e <;> trivial
  · exact he.extends.mono fun _ ↦ sendFits_of_local

theorem sendFits_of_move {S : Setup} {s s' : Agent} {a : Act} (h : Move S s a s') :
    Extends SendFits s.w s'.w := by
  cases h with
  | net hm => exact sendFits_of_netMove hm
  | sched _ hm => exact hm.extends.mono fun _ ↦ sendFits_of_local
  | api hr =>
    obtain ⟨_, hx⟩ := ApiCall.keeps (I := fun _ ↦ Extends SendFits s.w) hr (.silent rfl)
      fun _ _ _ _ _ _ he hx ↦ hx.trans (he.extends.mono fun _ ↦ sendFits_of_local)
    exact hx
  | release hm => cases hm <;> exact .silent rfl

theorem sendFits_of_reachable {S : Setup} {s : Agent} (h : (agent S).Reachable s) :
    ∀ e ∈ s.w.hist, e.SendFits := by
  refine h.invariant (I := fun s ↦ ∀ e ∈ s.w.hist, e.SendFits) nofun ?_
  intro s a s' _ hI _ hs e he
  obtain ⟨es, hes, hfit⟩ := sendFits_of_move (Agent.step_move hs)
  rw [hes, List.mem_append] at he
  exact he.elim (hI e) (hfit e)

theorem messages_of_extends (h : Extends OffSends w w') (k : ℕ) : w'.messages k = w.messages k :=
  (h.mono fun _ he ↦ he k).filterMap_eq

theorem Effect.offSends {o : Op} {r : o.Res} (h : Effect o w r w')
    (hsend : ∀ msg, o ≠ .netSend msg) : Extends OffSends w w' := by
  cases h with
  | sent => exact absurd rfl (hsend _)
  | accepted | trigAdd | callback => exact .event rfl fun _ ↦ rfl
  | _ => exact .silent rfl

theorem NetMove.offSends {E : Emproto} {t t' : NetThread} (hm : NetMove E t w t' w')
    (hh : Handling t.pc) : Extends OffSends w w' := by
  rcases hm.records with hx | ⟨o, k, r, hpc, he⟩
  · refine hx.mono fun e he ↦ ?_
    cases e <;> first | exact fun _ ↦ rfl | cases he
  · rw [hpc] at hh
    obtain ⟨own, hobeys⟩ := hh
    refine he.offSends ?_
    rintro msg rfl
    cases hobeys.1

theorem SchMove.offSends {S : Setup} {pc pc' : SchPc} (hm : SchMove S pc w pc' w')
    (hcall : ∀ task now msg k, pc ≠ .perform task now (.call (.netSend msg) k)) :
    Extends OffSends w w' := by
  rcases hm.records with hx | ⟨task, now, o, k, r, hpc, he⟩
  · refine hx.mono fun e he ↦ ?_
    cases e <;> first | exact fun _ ↦ rfl | cases he
  · refine he.offSends ?_
    rintro msg rfl
    exact hcall task now msg k hpc

theorem offSends_of_api {call : ApiCall} {answers : List Ans} {x : ℤ}
    (h : call.body.run exec answers w = some (x, w')) : Extends OffSends w w' := by
  obtain ⟨_, hx⟩ := ApiCall.keeps (I := fun _ ↦ Extends OffSends w) h (.silent rfl)
    fun _ _ _ _ _ ho he hx ↦ hx.trans (he.offSends (by rintro msg rfl; exact ho))
  exact hx

end Sends

section Outcomes

variable {S : Setup} {s s' : Agent} {a : Act} {g : WireLog} {w w' : World}

def SendPhase.Notes (calling : Option SendCall) : SendPhase → Prop
  | .before | .taken _ => calling = none
  | .after failed => ∃ c, calling = some c ∧ failed = decide (c.n < 0)

def SchPc.Notes (S : Setup) (calling : Option SendCall) : SchPc → Prop
  | .perform task _ p =>
    ∃ t, Obeys (jobProtocol S task) (JobPost S task) t p ∧ t.send.Notes calling
  | _ => calling = none

def SendCall.Accepted (c : SendCall) (w : World) : Prop :=
  0 ≤ c.n ∧ .sent c.sock c.msg c.n.toNat ∈ w.hist

structure WireInv (S : Setup) (s : Agent) (g : WireLog) : Prop where
  phase : s.sch.Notes S g.calling
  messages : ∀ k, s.w.messages k = g.messages k
  returned : ∀ r ∈ g.returned, r.2 ≠ .netError → r.1.Accepted s.w
  calling : ∀ c ∈ g.calling, 0 ≤ c.n → c.Accepted s.w

theorem SendCall.Accepted.mono {c : SendCall} {P : Event → Prop} (h : c.Accepted w)
    (hx : Extends P w w') : c.Accepted w' := ⟨h.1, hx.mem h.2⟩

theorem WireInv.frame (h : WireInv S s g) (hx : Extends OffSends s.w s'.w)
    (hphase : s'.sch.Notes S g.calling) : WireInv S s' g where
  phase := hphase
  messages k := (messages_of_extends hx k).trans (h.messages k)
  returned r hr hop := (h.returned r hr hop).mono hx
  calling c hc hn := (h.calling c hc hn).mono hx

theorem WireInv.call {task : Emtask} {now : Timespec} {msg : Bytes} {k : ℤ → Proc Outcome}
    {n : ℤ} (h : WireInv S s g) (hpc : s.sch = .perform task now (.call (.netSend msg) k))
    (he : Effect (.netSend msg) s.w n w') :
    WireInv S { s with sch := .perform task now (k n), w := w' }
      { g with calling := some ⟨s.w.socks, msg, n⟩ } := by
  obtain ⟨hphase, hmessages, hreturned, _⟩ := h
  rw [hpc] at hphase
  obtain ⟨t, hobeys, hnotes⟩ := hphase
  obtain ⟨seq, m, htaken, _⟩ := JobPhase.send_taken hobeys.1
  rw [htaken] at hnotes
  have hnone : g.calling = none := hnotes
  have hcalled : SchPc.Notes S (some ⟨s.w.socks, msg, n⟩) (.perform task now (k n)) :=
    ⟨_, hobeys.2 n, _, rfl, rfl⟩
  cases he with
  | sendFailed hneg =>
    refine ⟨hcalled, fun k ↦ ?_, hreturned, ?_⟩
    · have hnot : ¬ 0 ≤ n := by omega
      rw [hmessages]
      simp [WireLog.messages, hnone, hnot]
    · rintro c ⟨⟩ hpos
      exact absurd hneg (Int.not_lt.mpr hpos)
  | sent hpos =>
    have hx : Extends (fun _ ↦ True) s.w (s.w.log (.sent s.w.socks msg n.toNat)) :=
      .event rfl trivial
    refine ⟨hcalled, fun k ↦ ?_, fun r hr hop ↦ (hreturned r hr hop).mono hx, ?_⟩
    · have hold := hmessages k
      simp only [World.messages, WireLog.messages, hnone] at hold ⊢
      by_cases hk : s.w.socks = k <;> simp [World.log, messageOn, hold, hk, hpos]
    · rintro c ⟨⟩ _
      exact ⟨hpos, List.mem_append_right _ (List.mem_singleton_self _)⟩

theorem WireInv.returns {task : Emtask} {now : Timespec} {op : Outcome} (h : WireInv S s g)
    (hpc : s.sch = .perform task now (.pure op)) :
    WireInv S { s with sch := .settle task now op, w := s.w.log (.performed task.addr op) }
      ⟨none, g.returned ++ g.calling.toList.map fun c ↦ (c, op)⟩ := by
  obtain ⟨hphase, hmessages, hreturned, hcalling⟩ := h
  rw [hpc] at hphase
  obtain ⟨t, hpost, hnotes⟩ := hphase
  have hx : Extends OffSends s.w (s.w.log (.performed task.addr op)) := .log s.w _ fun _ ↦ rfl
  -- the outcome tells whether the call has failed
  have hcall (c : SendCall) (hc : g.calling = some c) : op = .netError ↔ c.n < 0 := by
    rw [hpost.failed]
    cases hsend : t.send with
    | before | taken =>
      rw [hsend, hc] at hnotes
      cases hnotes
    | after failed =>
      rw [hsend, hc] at hnotes
      obtain ⟨_, ⟨⟩, rfl⟩ := hnotes
      simp
  refine ⟨rfl, fun k ↦ ?_, fun r hr hop ↦ ?_, by simp⟩
  · rw [messages_of_extends hx, hmessages]
    cases hc : g.calling with
    | none => simp [WireLog.messages, hc]
    | some c =>
      have hiff := hcall c hc
      by_cases hn : c.n < 0
      · simp [WireLog.messages, hc, hiff.mpr hn, Int.not_le.mpr hn]
      · have hop : op ≠ .netError := fun h ↦ hn (hiff.mp h)
        by_cases hk : c.sock = k <;> simp [WireLog.messages, hc, hop, hk, Int.not_lt.mp hn]
  · rcases List.mem_append.mp hr with hr | hr
    · exact (hreturned r hr hop).mono hx
    · obtain ⟨c, hc, rfl⟩ := List.mem_map.mp hr
      have hc : g.calling = some c := Option.mem_toList.mp hc
      have hpos : 0 ≤ c.n := Int.not_lt.mp fun hn ↦ hop ((hcall c hc).mpr hn)
      exact (hcalling c hc hpos).mono hx

theorem SchPc.Notes.step {calling : Option SendCall} {pc pc' : SchPc} (h : pc.Notes S calling)
    (hm : SchMove S pc w pc' w')
    (hcall : ∀ task now msg k, pc ≠ .perform task now (.call (.netSend msg) k))
    (hreturn : ∀ task now op, pc ≠ .perform task now (.pure op)) : pc'.Notes S calling := by
  cases hm with
  | clock => exact ⟨.init, schedPerformJob_obeys _, h⟩
  | @op _ _ task now o k r he =>
    obtain ⟨t, hobeys, hnotes⟩ := h
    refine ⟨_, hobeys.2 r, ?_⟩
    cases o with
    | netSend msg => exact absurd rfl (hcall task now msg k)
    | netNextSeq =>
      rw [JobPhase.send_before hobeys.1 (by simp)] at hnotes
      exact hnotes
    | _ => exact hnotes
  | returned => exact absurd rfl (hreturn _ _ _)
  | _ => exact h

theorem WireInv.of_reachable {p : Agent × WireLog} (h : (wireAgent S).Reachable p) :
    WireInv S p.1 p.2 := by
  refine h.watched (I := WireInv S) (fun _ _ ↦ True) (fun _ _ _ ↦ trivial) ?_ ?_
  · exact ⟨rfl, fun _ ↦ rfl, by simp, by simp⟩
  intro s g a s' hr hI _ hs
  rcases Agent.sched_or hs with ⟨ans, pc, w, rfl, hstep, rfl⟩ | hother
  · by_cases hcall : ∃ task now msg k, s.sch = .perform task now (.call (.netSend msg) k)
    · obtain ⟨task, now, msg, k, hpc⟩ := hcall
      rw [hpc] at hstep
      obtain ⟨⟨n, w₁⟩, he, heq⟩ := Option.map_eq_some_iff.mp hstep
      cases heq
      obtain rfl := exec_netSend he
      simpa only [noteWrite, hpc] using hI.call hpc (exec_effect he)
    by_cases hreturn : ∃ task now op, s.sch = .perform task now (.pure op)
    · obtain ⟨task, now, op, hpc⟩ := hreturn
      rw [hpc] at hstep
      cases schedStep_move hstep
      simpa only [noteWrite, hpc] using hI.returns hpc
    simp only [not_exists] at hcall hreturn
    have hm := schedStep_move hstep
    have hsame : noteWrite s (.sched ans) { s with sch := pc, w } g = g := by
      unfold noteWrite
      split
      · exact absurd ‹_› (hcall _ _ _ _)
      · exact absurd ‹_› (hreturn _ _ _)
      · rfl
    rw [hsame]
    exact hI.frame (hm.offSends hcall) (hI.phase.step hm hcall hreturn)
  · have hsame : noteWrite s a s' g = g := by
      unfold noteWrite
      split
      · exact absurd rfl (hother _)
      · exact absurd rfl (hother _)
      · rfl
    rw [hsame]
    have hsched := hI.phase
    cases Agent.step_move hs with
    | net hm => exact hI.frame (hm.offSends (conduct hr).2) hsched
    | sched => exact absurd rfl (hother _)
    | api hrun => exact hI.frame (offSends_of_api hrun) hsched
    | release hm => cases hm <;> exact hI.frame (.silent rfl) hsched

/-- What is written on a socket is whole messages, of each of which all has been
accepted when no network error is returned for it, exactly when every send on
the socket that does not fail is accepted whole. -/
theorem wire_eq_messages_iff {p : Agent × WireLog} (h : (wireAgent S).Reachable p) (k : ℕ) :
    WholeMessages p.1.w p.2 k ↔ ∀ msg n, .sent k msg n ∈ p.1.w.hist → n = msg.length := by
  have hI := WireInv.of_reachable h
  have hfits := sendFits_of_reachable (h.unwatch fun _ _ ↦ id)
  have hiff : p.1.w.wire k = (p.2.messages k).flatten ↔ ∀ e ∈ p.1.w.hist, e.Whole k := by
    rw [← hI.messages]
    exact wire_eq_iff hfits
  constructor
  · intro hwhole msg n hmem
    exact hiff.mp hwhole.stream _ hmem rfl
  · intro hw
    refine ⟨hiff.mpr fun e hmem ↦ ?_, fun r hr hk hop ↦ ?_⟩
    · cases e with
      | sent k' msg n =>
        rintro rfl
        exact hw msg n hmem
      | _ => trivial
    · obtain ⟨hpos, hmem⟩ := hI.returned r hr hop
      have hlen := hw r.1.msg r.1.n.toNat (hk ▸ hmem)
      omega

def helloRun (n : ℤ) : List Act := Sample.connect 3 ++ Sample.performSend n

theorem wire_eq_messages_hello : ∃ p, (wireAgent Sample.setup).Reachable p ∧
    p.2.returned = [(⟨1, [0, 6, 1, 0, 0, 0], 6⟩, .reschedule)] ∧ WholeMessages p.1.w p.2 1 := by
  have hr := (wireAgent Sample.setup).reach_get (fun _ _ ↦ True) (helloRun 6) (by decide)
  refine ⟨_, hr, by decide, (wire_eq_messages_iff hr 1).mpr fun msg n hmem ↦ ?_⟩
  have hmem : .sent 1 msg n ∈ [Event.opened 3, .accepted 0, .sent 1 [0, 6, 1, 0, 0, 0] 6,
    .performed 0 .reschedule] := hmem
  simp only [List.mem_cons, reduceCtorEq, List.not_mem_nil, Event.sent.injEq, or_false,
    false_or] at hmem
  obtain ⟨_, rfl, rfl⟩ := hmem
  rfl

theorem wire_ne_messages : ¬ ∀ p, (wireAgent Sample.setup).Reachable p →
    ∀ k, (∀ r ∈ p.2.returned, r.1.sock = k → r.2 ≠ .netError) → WholeMessages p.1.w p.2 k := by
  intro h
  have hwhole := h _ ((wireAgent Sample.setup).reach_get (fun _ _ ↦ True) (helloRun 3)
    (by decide)) 1 (by decide)
  have heq := hwhole.stream
  revert heq
  decide

end Outcomes

end EmpowerAgent
