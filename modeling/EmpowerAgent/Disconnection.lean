import EmpowerAgent.TaskOwnership
import EmpowerAgent.Connection

namespace EmpowerAgent

open Library.Proc (Obeys)

variable {S : Setup} {s : Agent} {w w' : World}

theorem NetMove.hist_subset {E : Emproto} {t t' : NetThread} (hm : NetMove E t w t' w') :
    w.hist ⊆ w'.hist := by
  rcases hm.records with hx | ⟨_, _, _, _, he⟩
  · exact hx.subset
  · exact he.extends.subset

section Triggers

def Isolated (s : Agent) : Prop :=
  s.w.net.status = .connected → ∀ t ∈ s.w.trig.ts, .trigAdded s.w.conns t ∈ s.w.hist

/-- The triggers are gone before a connection is marked lost, and none is
added after. -/
def FlushedFirst (s : Agent) (a : Act) : Prop :=
  (s.disconnects a = true → s.w.net.status = .connected → s.w.trig.ts = []) ∧
    (s.addsTrigger a = true → s.w.net.status = .connected)

instance (s : Agent) (a : Act) : Decidable (FlushedFirst s a) := instDecidableAnd

structure IsolationInv (w : World) : Prop where
  current : w.net.status = .connected → ∀ t ∈ w.trig.ts, .trigAdded w.conns t ∈ w.hist
  flushed : w.net.status = .notConnected → w.trig.ts = []

theorem IsolationInv.shrink (h : IsolationInv w) (hc : w'.conns = w.conns)
    (hs : w'.net.status = w.net.status) (hts : w'.trig.ts ⊆ w.trig.ts)
    (hx : w.hist ⊆ w'.hist) : IsolationInv w' where
  current hs' t ht := by
    rw [hc]
    exact hx (h.current (hs ▸ hs') t (hts ht))
  flushed hs' := by
    have hnil := h.flushed (hs ▸ hs')
    exact List.subset_nil.mp (hnil ▸ hts)

theorem IsolationInv.of_nil (h : w.trig.ts = []) : IsolationInv w where
  current _ t ht := by
    rw [h] at ht
    cases ht
  flushed _ := h

theorem IsolationInv.empty (h : IsolationInv w)
    (hup : w.net.status = .connected → w.trig.ts = []) : w.trig.ts = [] := by
  cases hs : w.net.status with
  | notConnected => exact h.flushed hs
  | connected => exact hup hs

theorem IsolationInv.effect {o : Op} {r : o.Res} (h : IsolationInv w) (he : Effect o w r w')
    (hadd : ∀ trig, o = .trigAdd trig → w.net.status = .connected) : IsolationInv w' := by
  have hx := he.extends.subset
  have hc := he.conns
  have hs := he.status
  cases he with
  | @trigAdd _ trig =>
    have hconn := hadd trig rfl
    constructor
    · intro _ t ht
      rcases List.mem_cons.mp ht with rfl | ht
      · exact List.mem_append_right _ (List.mem_singleton_self _)
      · exact hx (h.current hconn t ht)
    · intro hs'
      cases hconn.symm.trans hs'
  | trigDelById => exact h.shrink hc hs (Trctx.trigDelById_subset _ _) hx
  | trigDelByInst => exact h.shrink hc hs (Trctx.trigDelByInst_subset _ _ _ _) hx
  | _ => exact h.shrink hc hs (List.Subset.refl _) hx

theorem IsolationInv.netMove {E : Emproto} {t t' : NetThread} (h : IsolationInv w)
    (hm : NetMove E t w t' w') (hconn : t.pc.Connecting → w.net.status = .notConnected)
    (hdown : t.pc = .down → w.net.status = .connected → w.trig.ts = [])
    (hadd : ∀ trig k, t.pc = .process (.call (.trigAdd trig) k) → w.net.status = .connected) :
    IsolationInv w' := by
  have hx := hm.hist_subset
  cases hm with
  -- until the status is stored it says not connected, so that no trigger is live
  | connectOk | store | undo => exact .of_nil (h.flushed (hconn trivial))
  | down => exact .of_nil (h.empty (hdown rfl))
  | handler he =>
    apply h.effect he
    intro trig ho
    subst ho
    exact hadd trig _ rfl
  | _ => exact h.shrink rfl rfl (List.Subset.refl _) hx

theorem IsolationInv.schMove {pc pc' : SchPc} (h : IsolationInv w) (hm : SchMove S pc w pc' w')
    (hperf : Performing pc) (hdown : pc = .down → w.net.status = .connected → w.trig.ts = []) :
    IsolationInv w' := by
  have hx := hm.extends.subset
  cases hm with
  | op he =>
    obtain ⟨failed, hobeys⟩ := hperf
    apply h.effect he
    intro trig ho
    subst ho
    cases hobeys.1
  | flush => exact .of_nil rfl
  | down => exact .of_nil (h.empty (hdown rfl))
  | alert =>
    split_ifs at hx ⊢
    · exact h.shrink rfl rfl (List.Subset.refl _) hx
    · exact h
  | _ => exact h.shrink rfl rfl (List.Subset.refl _) hx

theorem IsolationInv.of_reach (h : (agent S).Reach FlushedFirst s) : IsolationInv s.w := by
  refine h.invariant (I := fun s ↦ IsolationInv s.w) (.of_nil rfl) ?_
  intro s a s' hr hI hok hs
  obtain ⟨hdown, hadd⟩ := hok
  cases Agent.step_move hs with
  | net hm =>
    refine hI.netMove hm (connecting_status hr.reachable) ?_ ?_
    · intro hpc
      apply hdown
      simp only [Agent.disconnects, hpc]
    · intro trig k hpc
      apply hadd
      simp only [Agent.addsTrigger, hpc]
  | sched _ hm =>
    refine hI.schMove hm (conduct hr.reachable).1 ?_
    intro hpc
    apply hdown
    simp only [Agent.disconnects, hpc]
  | api hr =>
    obtain ⟨_, hw⟩ := ApiCall.keeps (I := fun _ ↦ IsolationInv) hr hI
      fun own o v r v' ho he hv ↦ hv.effect he fun trig ht ↦ by subst ht; cases ho
    exact hw
  | release hm =>
    cases hm with
    | flush => exact .of_nil rfl
    | _ => exact hI.shrink rfl rfl (List.Subset.refl _) (List.Subset.refl _)

/-- As long as no connection is marked lost with triggers live, those of one
connection never reach the next. -/
theorem triggers_isolated (h : (agent S).Reach FlushedFirst s) : Isolated s :=
  (IsolationInv.of_reach h).current

def flushedRun : List Act :=
  Sample.connect 3 ++ Sample.requestReport ++ Sample.performSend (-1) ++ Sample.dropConnection ++
    Sample.reset ++ Sample.connect 4 ++ Sample.requestReport

theorem triggers_isolated_flushed : ∃ s, (agent Sample.setup).Reach FlushedFirst s ∧
    s.w.net.status = .connected ∧ s.w.conns = 2 ∧ s.w.trig.ts.length = 1 ∧ Isolated s := by
  have hr := (agent Sample.setup).reach_get FlushedFirst flushedRun (by decide +kernel)
  exact ⟨_, hr, by decide +kernel, by decide +kernel, by decide +kernel, triggers_isolated hr⟩

def inheritRun : List Act :=
  Sample.connect 3 ++ Sample.requestReport ++ Sample.reset ++ Sample.connect 4

theorem triggers_not_isolated : ¬ ∀ s, (agent Sample.setup).Reachable s → Isolated s := by
  intro h
  have hr := (agent Sample.setup).reach_get (fun _ _ ↦ True) inheritRun (by decide +kernel)
  have hiso := h _ hr (by decide +kernel)
  revert hiso
  decide +kernel

end Triggers

section Hello

def Emtask.isHello (t : Emtask) : Bool := t.type = .hello

def World.hellos (w : World) (held : List Emtask) : ℕ :=
  w.sched.jobs.countP Emtask.isHello + w.sched.todo.countP Emtask.isHello +
    held.countP Emtask.isHello

/-- A connection is marked lost only when no Hello is left of it. -/
def HelloDropped (s : Agent) (a : Act) : Prop :=
  s.disconnects a = true → s.w.net.status = .connected → s.w.hellos s.sch.held = 0

instance (s : Agent) (a : Act) : Decidable (HelloDropped s a) := instDecidableForall

structure HelloInv (pc : NetPc) (w : World) (held : List Emtask) : Prop where
  once : w.hellos held ≤ 1
  none : w.net.status = .notConnected → pc ≠ .store → w.hellos held = 0

theorem Effect.hellos {o : Op} {r : o.Res} (he : Effect o w r w') (held : List Emtask)
    (ho : ∀ task, o = .schedAddTask task → task.type ≠ .hello) :
    w'.hellos held = w.hellos held := by
  cases he with
  | @accepted _ task =>
    have htype := ho task rfl
    simp [World.hellos, List.countP_append, Emtask.isHello, htype]
  | _ => rfl

theorem SchMove.hellos {pc pc' : SchPc} (hm : SchMove S pc w pc' w') (hperf : Performing pc) :
    w'.hellos pc'.held ≤ w.hellos pc.held := by
  cases hm with
  | op he =>
    obtain ⟨failed, hobeys⟩ := hperf
    apply Nat.le_of_eq
    apply he.hellos
    intro task ho
    subst ho
    cases hobeys.1
  | takeTask hjobs =>
    simp only [World.hellos, SchPc.held, hjobs, List.countP_cons, List.countP_nil]
    omega
  | later =>
    simp only [World.hellos, SchPc.held, List.countP_cons, List.countP_nil]
    omega
  | @again _ task now =>
    have htype (r : ℤ) :
        Emtask.isHello { task with issued := now, resch := r } = task.isHello := rfl
    simp only [World.hellos, SchPc.held, List.countP_cons, List.countP_nil, htype]
    omega
  | consumed =>
    simp only [World.hellos, SchPc.held, World.log, List.countP_nil]
    omega
  | netError | drain =>
    simp only [World.hellos, SchPc.held, List.countP_nil]
    omega
  | back =>
    simp only [World.hellos, SchPc.held, List.countP_append, List.countP_reverse, List.countP_nil]
    omega
  | alert => split_ifs <;> exact Nat.le_refl _
  | _ => exact Nat.le_refl _

theorem SchMove.pc_of_lost {pc pc' : SchPc} (hm : SchMove S pc w pc' w')
    (hs : w.net.status = .connected) (hs' : w'.net.status = .notConnected) : pc = .down := by
  cases hm with
  | down => rfl
  | op he => cases (he.status.trans hs).symm.trans hs'
  | alert => split_ifs at hs' <;> cases hs.symm.trans hs'
  | _ => cases hs.symm.trans hs'

theorem HelloInv.netMove {E : Emproto} {t t' : NetThread} {held : List Emtask}
    (h : HelloInv t.pc w held) (hm : NetMove E t w t' w') (hh : Handling t.pc)
    (hconn : t.pc.Connecting → w.net.status = .notConnected)
    (hdown : t.pc = .down → w.net.status = .connected → w.hellos held = 0) :
    HelloInv t'.pc w' held := by
  cases hm with
  | helloAdd now =>
    -- no Hello is left from an earlier connection: this one is the only one
    have hzero := h.none (hconn trivial) nofun
    constructor
    · simp only [World.hellos, List.countP_append, List.countP_cons, List.countP_nil] at hzero ⊢
      split_ifs <;> omega
    · intro _ hpc
      exact absurd rfl hpc
  | store => exact ⟨h.once, nofun⟩
  | undo =>
    have hzero := h.none (hconn trivial) nofun
    exact ⟨h.once, fun _ _ ↦ hzero⟩
  | down =>
    refine ⟨h.once, fun _ _ ↦ ?_⟩
    cases hs : w.net.status with
    | notConnected => exact h.none hs nofun
    | connected => exact hdown rfl hs
  | handler he =>
    obtain ⟨own, hobeys⟩ := hh
    have heq := he.hellos held fun task ht ↦ by subst ht; exact hobeys.1.2
    constructor
    · rw [heq]
      exact h.once
    · intro hs _
      rw [heq]
      exact h.none (he.status ▸ hs) nofun
  | _ => exact ⟨h.once, fun hs _ ↦ h.none hs nofun⟩

theorem HelloInv.of_reach (h : (agent S).Reach HelloDropped s) :
    HelloInv s.net.pc s.w s.sch.held := by
  refine h.invariant (I := fun s ↦ HelloInv s.net.pc s.w s.sch.held) ?_ ?_
  · exact ⟨Nat.zero_le _, fun _ _ ↦ rfl⟩
  · intro s a s' hr hI hdrop hs
    obtain ⟨hperf, hhandle⟩ := conduct hr.reachable
    cases Agent.step_move hs with
    | net hm =>
      refine hI.netMove hm hhandle (connecting_status hr.reachable) ?_
      intro hpc
      apply hdrop
      simp only [Agent.disconnects, hpc]
    | sched _ hm =>
      have hle := hm.hellos hperf
      refine ⟨Nat.le_trans hle hI.once, fun hs' hpc ↦ ?_⟩
      apply Nat.eq_zero_of_le_zero
      apply Nat.le_trans hle
      cases hs : s.w.net.status with
      | notConnected => exact Nat.le_of_eq (hI.none hs hpc)
      | connected =>
        have hpcd := hm.pc_of_lost hs hs'
        exact Nat.le_of_eq (hdrop (by simp only [Agent.disconnects, hpcd]) hs)
    | api hr =>
      obtain ⟨_, heq, hs'⟩ := ApiCall.keeps
        (I := fun _ v ↦ v.hellos s.sch.held = s.w.hellos s.sch.held ∧
          v.net.status = s.w.net.status) hr ⟨rfl, rfl⟩
        fun own o v r v' ho he hv ↦ by
          refine ⟨(he.hellos _ ?_).trans hv.1, he.status.trans hv.2⟩
          intro task ht
          subst ht
          exact ho.2
      exact ⟨heq ▸ hI.once, fun hs hpc ↦ heq ▸ hI.none (hs' ▸ hs) hpc⟩
    | release hm => cases hm <;> exact ⟨hI.once, hI.none⟩

/-- As long as no connection is marked lost with its Hello still queued, the
scheduler has one Hello at most. -/
theorem hello_unique (h : (agent S).Reach HelloDropped s) : s.w.hellos s.sch.held ≤ 1 :=
  (HelloInv.of_reach h).once

theorem hello_unique_flushed : ∃ s, (agent Sample.setup).Reach HelloDropped s ∧
    s.w.conns = 2 ∧ s.w.hellos s.sch.held ≤ 1 := by
  have hr := (agent Sample.setup).reach_get HelloDropped flushedRun (by decide +kernel)
  exact ⟨_, hr, by decide +kernel, hello_unique hr⟩

theorem hello_not_unique :
    ¬ ∀ s, (agent Sample.setup).Reachable s → s.w.hellos s.sch.held ≤ 1 := by
  intro h
  have hr := (agent Sample.setup).reach_get (fun _ _ ↦ True) inheritRun (by decide +kernel)
  have hle := h _ hr
  revert hle
  decide +kernel

end Hello

section Alerts

namespace Event

def alertOf : Event → Option ℕ
  | .callback c .disconnected => some c
  | _ => none

def lossOf : Event → Option ℕ
  | .lost c => some c
  | _ => none

end Event

namespace World

def alerts (w : World) : List ℕ := w.hist.filterMap Event.alertOf

def losses (w : World) : List ℕ := w.hist.filterMap Event.lossOf

end World

def Agent.losing (s : Agent) : List ℕ := match s.sch with | .down => [s.w.conns] | _ => []

/-- The path from a failed send to the end of its connection, on which tasks
and triggers are discarded and the wrapper is told. -/
def SchPc.Dropping : SchPc → Prop
  | .settle _ _ .netError | .flush | .alert | .down => True
  | _ => False

/-- Only the scheduler detects the loss of a connection, and no send fails
without one. -/
def LossBySend (s : Agent) (a : Act) : Prop :=
  (s.netDrops a = true → s.w.net.status = .notConnected) ∧
    (a.sendFails = true → s.w.net.status = .connected)

instance (s : Agent) (a : Act) : Decidable (LossBySend s a) := instDecidableAnd

def Event.OffLoss (e : Event) : Prop := e.alertOf = none ∧ e.lossOf = none

theorem alerts_of_extends (h : Extends Event.OffLoss w w') : w'.alerts = w.alerts :=
  (h.mono fun _ he ↦ he.1).filterMap_eq

theorem losses_of_extends (h : Extends Event.OffLoss w w') : w'.losses = w.losses :=
  (h.mono fun _ he ↦ he.2).filterMap_eq

theorem Effect.offLoss {o : Op} {r : o.Res} (he : Effect o w r w')
    (ho : o ≠ .callback .disconnected) : Extends Event.OffLoss w w' := by
  cases he with
  | @callback _ c =>
    apply Extends.event rfl
    cases c with
    | disconnected => exact absurd rfl ho
    | _ => exact ⟨rfl, rfl⟩
  | accepted | trigAdd | sent => exact .event rfl ⟨rfl, rfl⟩
  | _ => exact .silent rfl

theorem netNotConnected_offLoss (hs : w.net.status = .notConnected) :
    Extends Event.OffLoss w w.netNotConnected := by
  refine ⟨if 0 < w.net.sockfd then [.closed w.net.sockfd] else [], ?_, ?_⟩
  · simp [World.netNotConnected, hs]
  · intro e he
    split_ifs at he
    · exact List.mem_singleton.mp he ▸ ⟨rfl, rfl⟩
    · cases he

theorem netNotConnected_losses (hs : w.net.status = .connected) :
    w.netNotConnected.losses = w.losses ++ [w.conns] := by
  simp only [World.losses, World.netNotConnected, hs, ↓reduceIte, List.filterMap_append]
  split_ifs <;> simp [Event.lossOf]

theorem netNotConnected_alerts (w : World) : w.netNotConnected.alerts = w.alerts := by
  simp only [World.alerts, World.netNotConnected, List.filterMap_append]
  split_ifs <;> simp [Event.alertOf]

theorem NetMove.offLoss {E : Emproto} {t t' : NetThread} (hm : NetMove E t w t' w')
    (hh : Handling t.pc)
    (hs : t.pc = .undo ∨ t.pc = .down → w.net.status = .notConnected) :
    Extends Event.OffLoss w w' := by
  cases hm with
  | handler he =>
    obtain ⟨own, hobeys⟩ := hh
    apply he.offLoss
    rintro rfl
    cases hobeys.1
  | undo => exact netNotConnected_offLoss (hs (.inl rfl))
  | down => exact netNotConnected_offLoss (hs (.inr rfl))
  | recvMessage => refine .trans (.log w _ ?_) (.log _ _ ?_) <;> exact ⟨rfl, rfl⟩
  | socketOpen | helloAdd | recvMore | recvDrop | recvFail => exact .event rfl ⟨rfl, rfl⟩
  | _ => exact .silent rfl

def FailedUp (w : World) : SchPc → Prop
  | .perform _ _ p => ∃ failed, Obeys performProtocol PerformPost failed p ∧
      (failed = true → w.net.status = .connected)
  | .settle _ _ op => op = .netError → w.net.status = .connected
  | .flush | .alert | .down => w.net.status = .connected
  | _ => True

theorem FailedUp.mono {pc : SchPc} (h : FailedUp w pc)
    (hs : w.net.status = .connected → w'.net.status = .connected) : FailedUp w' pc := by
  cases pc with
  | perform task now p =>
    obtain ⟨failed, hobeys, hup⟩ := h
    exact ⟨failed, hobeys, fun hf ↦ hs (hup hf)⟩
  | settle => exact fun hop ↦ hs (h hop)
  | flush | alert | down => exact hs h
  | _ => trivial

theorem FailedUp.dropping {pc : SchPc} (h : FailedUp w pc) (hpc : pc.Dropping) :
    w.net.status = .connected := by
  cases pc with
  | settle task now op =>
    cases op with
    | netError => exact h rfl
    | _ => cases hpc
  | flush | alert | down => exact h
  | _ => cases hpc

theorem FailedUp.op {task : Emtask} {now : Timespec} {o : Op} {k : o.Res → Proc Outcome} {a : Ans}
    {r : o.Res} (h : FailedUp w (.perform task now (.call o k))) (hx : exec o a w = some (r, w'))
    (hfail : (Act.sched a).sendFails = true → w.net.status = .connected) :
    FailedUp w' (.perform task now (k r)) := by
  obtain ⟨failed, ⟨_, hnext⟩, hup⟩ := h
  refine ⟨_, hnext r, ?_⟩
  have he := exec_effect hx
  rw [he.status]
  cases he with
  | sendFailed hn =>
    intro _
    apply hfail
    cases a with
    | sent n =>
      simp only [exec, World.netSend] at hx
      split_ifs at hx with hneg hg
      · exact decide_eq_true hneg
      · simp only [Option.some.injEq, Prod.mk.injEq] at hx
        exact absurd (hx.1 ▸ hn) hneg
    | _ => cases hx
  | sent hn =>
    intro hf
    apply hup
    simpa [performProtocol, Int.not_lt.mpr hn] using hf
  | _ => exact hup

def Agent.Standing (s : Agent) : Prop :=
  s.w.net.status = .connected ∨ s.net.pc = .hello ∨ s.net.pc = .store

structure AlertInv (s : Agent) : Prop where
  told : s.w.alerts = s.w.losses ++ s.losing
  once : s.w.losses.Nodup
  bound : ∀ c ∈ s.w.losses, c ≤ s.w.conns
  fresh : s.Standing → s.w.conns ∉ s.w.losses
  failed : FailedUp s.w s.sch

theorem AlertInv.offLoss {s' : Agent} (h : AlertInv s) (hx : Extends Event.OffLoss s.w s'.w)
    (hc : s'.w.conns = s.w.conns) (hl : s'.losing = s.losing) (hf : FailedUp s'.w s'.sch)
    (hs : s'.Standing → s.Standing) : AlertInv s' where
  told := by rw [alerts_of_extends hx, losses_of_extends hx, hl, h.told]
  once := by
    rw [losses_of_extends hx]
    exact h.once
  bound := by
    rw [losses_of_extends hx, hc]
    exact h.bound
  fresh hs' := by
    rw [losses_of_extends hx, hc]
    exact h.fresh (hs hs')
  failed := hf

theorem losing_congr {s' : Agent} (hsch : s'.sch = s.sch) (hc : s'.w.conns = s.w.conns) :
    s'.losing = s.losing := by
  simp only [Agent.losing, hsch, hc]

theorem losing_of_notConnected (h : FailedUp s.w s.sch) (hs : s.w.net.status = .notConnected) :
    s.losing = [] := by
  unfold Agent.losing
  split
  · rename_i hsch
    rw [hsch] at h
    cases hs.symm.trans h
  · rfl

theorem AlertInv.connectOk (h : AlertInv s) (hs : s.w.net.status = .notConnected) (t : NetThread) :
    AlertInv { s with net := t, w := { s.w with conns := s.w.conns + 1 } } where
  told := by
    have hnil := losing_of_notConnected h.failed hs
    rw [losing_of_notConnected (s := { s with net := t, w := { s.w with conns := s.w.conns + 1 } })
      (h.failed.mono id) hs]
    exact hnil ▸ h.told
  once := h.once
  bound c hc := Nat.le_succ_of_le (h.bound c hc)
  fresh _ hc := Nat.not_succ_le_self _ (h.bound _ hc)
  failed := h.failed.mono id

theorem AlertInv.netMove {E : Emproto} {t : NetThread} (h : AlertInv s)
    (hm : NetMove E s.net s.w t w') (hh : Handling s.net.pc)
    (hconn : s.net.pc.Connecting → s.w.net.status = .notConnected)
    (hdown : s.net.pc = .down → s.w.net.status = .notConnected) :
    AlertInv { s with net := t, w := w' } := by
  have hlost : s.net.pc = .undo ∨ s.net.pc = .down → s.w.net.status = .notConnected := by
    intro hpc
    rcases hpc with hpc | hpc
    · exact hconn (hpc ▸ trivial)
    · exact hdown hpc
  have hx := hm.offLoss hh hlost
  obtain ⟨w, ⟨pc, e⟩, sch, rel⟩ := s
  have hstay {pc' : NetPc} (hs : w.net.status = .connected ∨ pc' = .hello ∨ pc' = .store)
      (hpc : pc' ≠ .hello) (hpc' : pc' ≠ .store) :
      w.net.status = .connected ∨ pc = .hello ∨ pc = .store := by
    rcases hs with hs | hs | hs
    · exact .inl hs
    · exact absurd hs hpc
    · exact absurd hs hpc'
  cases hm with
  | connectOk => exact h.connectOk (hconn trivial) _
  | helloAdd => exact h.offLoss hx rfl rfl (h.failed.mono id) fun _ ↦ .inr (.inl rfl)
  | store => exact h.offLoss hx rfl rfl (h.failed.mono fun _ ↦ rfl) fun _ ↦ .inr (.inr rfl)
  | undo | down =>
    have hs := hlost (by simp)
    refine h.offLoss hx rfl rfl (h.failed.mono fun hs' ↦ ?_) ?_
    · cases hs.symm.trans hs'
    · intro hs'
      rcases hs' with hs' | hs' | hs' <;> cases hs'
  | handler he =>
    refine h.offLoss hx he.conns (losing_congr rfl he.conns) (h.failed.mono ?_) ?_
    · exact fun hs ↦ he.status.trans hs
    · intro hs
      simp only [Agent.Standing, he.status] at hs
      exact hstay hs nofun nofun
  | again hpc | connectFail hpc =>
    refine h.offLoss hx rfl rfl (h.failed.mono id) ?_
    rcases hpc with rfl | rfl <;> exact fun hs ↦ hstay hs nofun nofun
  | _ => exact h.offLoss hx rfl rfl (h.failed.mono id) fun hs ↦ hstay hs nofun nofun

theorem AlertInv.alert (h : AlertInv s) (hsch : s.sch = .alert) :
    AlertInv { s with sch := .down, w := s.w.log (.callback s.w.conns .disconnected) } := by
  have hl : (s.w.log (.callback s.w.conns .disconnected)).losses = s.w.losses := by
    rw [World.losses, World.log, List.filterMap_append]
    exact List.append_nil _
  have ha : (s.w.log (.callback s.w.conns .disconnected)).alerts = s.w.alerts ++ [s.w.conns] :=
    List.filterMap_append
  have htold := h.told
  have hf := h.failed
  simp only [hsch, Agent.losing, List.append_nil] at htold hf
  refine ⟨?_, hl ▸ h.once, hl ▸ h.bound, fun hs ↦ hl ▸ h.fresh hs, hf⟩
  rw [ha, hl, htold]
  rfl

theorem AlertInv.down (h : AlertInv s) (hsch : s.sch = .down)
    (hconn : s.net.pc = .hello ∨ s.net.pc = .store → s.w.net.status = .notConnected) :
    AlertInv { s with sch := .loop, w := s.w.netNotConnected } := by
  have hs : s.w.net.status = .connected := by
    have hf := h.failed
    rw [hsch] at hf
    exact hf
  have hnew := h.fresh (.inl hs)
  constructor
  · have htold := h.told
    simp only [Agent.losing, hsch] at htold ⊢
    rw [netNotConnected_alerts, netNotConnected_losses hs, htold, List.append_nil]
  · rw [netNotConnected_losses hs, List.nodup_append]
    refine ⟨h.once, by simp, fun p hp q hq ↦ ?_⟩
    obtain rfl := List.mem_singleton.mp hq
    exact fun heq ↦ hnew (heq ▸ hp)
  · rw [netNotConnected_losses hs]
    intro c hc
    rcases List.mem_append.mp hc with hc | hc
    · exact h.bound c hc
    · exact Nat.le_of_eq (List.mem_singleton.mp hc)
  · intro hs'
    rcases hs' with hs' | hpc
    · cases hs'
    · cases hs.symm.trans (hconn hpc)
  · trivial

theorem AlertInv.sched {pc : SchPc} {a : Ans} (h : AlertInv s) (hd : S.ops.disconnected = true)
    (hstep : schedStep S s.sch a s.w = some (pc, w')) (hm : SchMove S s.sch s.w pc w')
    (hperf : Performing s.sch)
    (hconn : s.net.pc = .hello ∨ s.net.pc = .store → s.w.net.status = .notConnected)
    (hfail : (Act.sched a).sendFails = true → s.w.net.status = .connected) :
    AlertInv { s with sch := pc, w := w' } := by
  obtain ⟨w, net, sch, rel⟩ := s
  cases hm with
  | alert =>
    rw [if_pos hd]
    exact h.alert rfl
  | down => exact h.down rfl hconn
  | @op _ _ task now o k r he =>
    obtain ⟨⟨r', w₁⟩, hx, heq⟩ := Option.map_eq_some_iff.mp hstep
    have hf := h.failed.op hx hfail
    simp only [Prod.mk.injEq, SchPc.perform.injEq, true_and] at heq
    obtain ⟨hk, rfl⟩ := heq
    rw [hk] at hf
    have hoff : Extends Event.OffLoss w w₁ := by
      obtain ⟨failed, hobeys⟩ := hperf
      apply he.offLoss
      rintro rfl
      exact hobeys.1 rfl
    refine h.offLoss hoff he.conns rfl hf ?_
    intro hs
    simp only [Agent.Standing, he.status] at hs
    exact hs
  | returned =>
    obtain ⟨failed, hpost, hup⟩ := h.failed
    exact h.offLoss (.event rfl ⟨rfl, rfl⟩) rfl rfl (fun hop ↦ hup (hpost hop)) id
  | consumed => exact h.offLoss (.event rfl ⟨rfl, rfl⟩) rfl rfl trivial id
  | netError => exact h.offLoss (.freed rfl fun _ ↦ ⟨rfl, rfl⟩) rfl rfl (h.failed rfl) id
  | drain => exact h.offLoss (.freed rfl fun _ ↦ ⟨rfl, rfl⟩) rfl rfl trivial id
  | flush => exact h.offLoss (.silent rfl) rfl rfl h.failed id
  | clock =>
    exact h.offLoss (.silent rfl) rfl rfl ⟨false, schedPerformJob_performs S _ _, nofun⟩ id
  | _ => exact h.offLoss (.silent rfl) rfl rfl trivial id

theorem AlertInv.api {call : ApiCall} {answers : List Ans} {x : ℤ} (h : AlertInv s)
    (hr : call.body.run exec answers s.w = some (x, w')) : AlertInv { s with w := w' } := by
  obtain ⟨_, hx, hc, hs⟩ := ApiCall.keeps
    (I := fun _ v ↦ Extends Event.OffLoss s.w v ∧ v.conns = s.w.conns ∧
      v.net.status = s.w.net.status) hr ⟨.silent rfl, rfl, rfl⟩
    fun own o v r v' ho he hv ↦ by
      refine ⟨hv.1.trans (he.offLoss ?_), he.conns.trans hv.2.1, he.status.trans hv.2.2⟩
      rintro rfl
      exact ho
  refine h.offLoss hx hc (losing_congr rfl hc) (h.failed.mono hs.trans) ?_
  intro hst
  simp only [Agent.Standing, hs] at hst
  exact hst

theorem AlertInv.of_reach (hd : S.ops.disconnected = true) (h : (agent S).Reach LossBySend s) :
    AlertInv s := by
  refine h.invariant ?_ ?_
  · exact ⟨rfl, List.nodup_nil, nofun, nofun, trivial⟩
  · intro s a s' hr hI hok hs
    obtain ⟨hdrop, hfail⟩ := hok
    obtain ⟨hperf, hhandle⟩ := conduct hr.reachable
    have hconn := connecting_status hr.reachable
    cases Agent.step_move hs with
    | net hm =>
      refine hI.netMove hm hhandle hconn ?_
      intro hpc
      apply hdrop
      simp only [Agent.netDrops, hpc]
    | sched hstep hm =>
      refine hI.sched hd hstep hm hperf ?_ hfail
      intro hpc
      rcases hpc with hpc | hpc <;> exact hconn (hpc ▸ trivial)
    | api hr => exact hI.api hr
    | release hm =>
      cases hm <;> exact hI.offLoss (.silent rfl) rfl rfl (hI.failed.mono id) id

/-- Where only failed sends end connections, and only sends over a connection
fail, the wrapper is told once of each connection lost and of nothing else,
and nothing is discarded but on the loss of a connection. -/
theorem disconnected_once (hd : S.ops.disconnected = true) (h : (agent S).Reach LossBySend s) :
    s.w.alerts = s.w.losses ++ s.losing ∧ s.w.alerts.Nodup ∧
      (s.sch.Dropping → s.w.net.status = .connected) := by
  have hI := AlertInv.of_reach hd h
  refine ⟨hI.told, ?_, hI.failed.dropping⟩
  rw [hI.told, Agent.losing]
  split
  · rename_i hsch
    have hf := hI.failed
    rw [hsch] at hf
    have hnew := hI.fresh (.inl hf)
    rw [List.nodup_append]
    refine ⟨hI.once, by simp, fun p hp q hq ↦ ?_⟩
    obtain rfl := List.mem_singleton.mp hq
    exact fun heq ↦ hnew (heq ▸ hp)
  · rw [List.append_nil]
    exact hI.once

theorem disconnected_once_flushed : ∃ s, (agent Sample.setup).Reach LossBySend s ∧
    s.w.losses = [1] ∧ s.w.alerts = s.w.losses ++ s.losing := by
  have hr := (agent Sample.setup).reach_get LossBySend flushedRun (by decide +kernel)
  exact ⟨_, hr, by decide +kernel, (disconnected_once rfl hr).1⟩

def earlySendRun : List Act :=
  [Sample.emSend [0, 6, 0, 0, 0, 0]] ++ Sample.performSend (-1) ++ Sample.dropConnection

theorem disconnected_not_once : ¬ ∀ s, (agent Sample.setup).Reachable s →
    s.w.alerts = s.w.losses ++ s.losing := by
  intro h
  have hr := (agent Sample.setup).reach_get (fun _ _ ↦ True) earlySendRun (by decide +kernel)
  have htold := h _ hr
  revert htold
  decide +kernel

end Alerts

end EmpowerAgent
