import EmpowerAgent.Requests

namespace EmpowerAgent

open Emproto Proc
open Library.Keyed (eraseKeys_length_lt)
open Library.Proc (Ensures ensures_pure ensures_call exists_run)

variable (E : Emproto)

/-- A triggered message that has nothing to do: it adds no entries, or no
trigger has one of the keys that it names to be removed. -/
def Inert (msg : Bytes) (w : World) : Prop :=
  if E.eppTriggerOp msg = .add then addedKeys E msg = []
  else ∀ t ∈ w.trig.ts, t.key ∉ removedKeys E msg

instance (msg : Bytes) (w : World) : Decidable (Inert E msg w) := instDecidableIte

/-- One of the decoders that the handler of a triggered message uses fails;
an operation that the library does not define counts as such a failure. -/
def Malformed (msg : Bytes) : Prop :=
  match E.eppTriggerType msg with
  | .ueReport | .cellMeasure => (E.eppHead msg).ok = false ∨ E.eppTriggerOp msg = .other
  | .ueMeasure => (E.eppHead msg).ok = false ∨ E.eppTriggerOp msg = .other ∨
      (E.eppTriggerUemeasReq msg).ok = false
  | _ => False

structure NothingDone (w w' : World) : Prop where
  trig : w'.trig = w.trig
  sched : w'.sched = w.sched
  hist : w'.hist = w.hist

variable {E} {msg : Bytes} {w : World}

section Unchanged

theorem Trctx.delFirst_absent {ctx : Trctx} {p : Emtri → Bool} (h : ∀ t ∈ ctx.ts, p t = false) :
    ctx.delFirst p = (-1, ctx) := by
  refine if_neg ?_
  simpa using h

theorem trigDelByInst_absent {mod : UInt32} {type : ℤ} {inst : Int32}
    (h : ∀ t ∈ w.trig.ts, t.key ≠ (mod, type, inst)) :
    Ensures exec (fun _ ↦ True) (trigDelByInst mod.toInt32 type inst) w fun _ w' ↦ w' = w := by
  refine ensures_call fun a r w' _ he ↦ ensures_pure ?_
  cases exec_effect he
  rw [Trctx.trigDelByInst_eq, Trctx.delFirst_absent (by simpa using h)]

theorem ueMeasureDel_absent {mod : UInt32} {rrc : ℕ → UeMeasurement} (n : ℕ)
    (h : ∀ i < n, ∀ t ∈ w.trig.ts, t.key ≠ entryKey mod rrc i) :
    Ensures exec (fun _ ↦ True) (ueMeasureDel mod rrc n) w fun _ w' ↦ w' = w := by
  induction n with
  | zero => exact ensures_pure rfl
  | succ n ih =>
    refine (trigDelByInst_absent (h n (Nat.lt_succ_self n))).bind fun _ w' hw ↦ ?_
    rw [hw]
    exact ih fun i hi ↦ h i (Nat.lt_succ_of_lt hi)

theorem netTeReport_inert {addType remType : ℤ} {taskType : TaskType}
    (hop : E.eppTriggerOp msg ≠ .add)
    (h : ∀ t ∈ w.trig.ts, t.key ≠ (requester E msg, remType, 0)) :
    Ensures exec (fun _ ↦ True) (netTeReport E addType remType taskType msg) w fun _ w' ↦
      w' = w := by
  unfold netTeReport
  simp only [hop, if_false]
  exact trigDelByInst_absent h

theorem netTeUeMeasure_inert (htype : E.eppTriggerType msg = .ueMeasure) (h : Inert E msg w) :
    Ensures exec (fun _ ↦ True) (netTeUeMeasure E msg) w fun _ w' ↦ w' = w := by
  unfold netTeUeMeasure
  by_cases hop : E.eppTriggerOp msg = .add
  · -- without entries the loop is over at once
    simp only [Inert, if_pos hop, addedKeys, htype, measIds, List.map_eq_nil_iff,
      List.range_eq_nil] at h
    simp only [hop, ne_eq, not_true_eq_false, if_false, h]
    exact ensures_pure rfl
  · simp only [hop, ne_eq, not_false_eq_true, if_true]
    simp only [Inert, if_neg hop, removedKeys, htype, measIds, List.map_map] at h
    refine ueMeasureDel_absent _ fun i hi t ht hkey ↦ h t ht ?_
    exact List.mem_map.mpr ⟨i, List.mem_range.mpr hi, hkey.symm⟩

theorem netProcessTriggerEvent_inert (h : Inert E msg w) :
    Ensures exec (fun _ ↦ True) (netProcessTriggerEvent E msg) w fun _ w' ↦ w' = w := by
  have hreport {addType remType : ℤ} {taskType : TaskType}
      (hadd : addedKeys E msg = [(requester E msg, addType, 0)])
      (hrem : removedKeys E msg = [(requester E msg, remType, 0)]) :
      Ensures exec (fun _ ↦ True) (netTeReport E addType remType taskType msg) w fun _ w' ↦
        w' = w := by
    by_cases hop : E.eppTriggerOp msg = .add
    · rw [Inert, if_pos hop, hadd] at h
      cases h
    · rw [Inert, if_neg hop, hrem] at h
      exact netTeReport_inert hop fun t ht hkey ↦ h t ht (List.mem_singleton.mpr hkey)
  unfold netProcessTriggerEvent
  cases htype : E.eppTriggerType msg with
  | ueReport => exact hreport (by rw [addedKeys, htype]) (by rw [removedKeys, htype])
  | ueMeasure => exact netTeUeMeasure_inert htype h
  | cellMeasure => exact hreport (by rw [addedKeys, htype]) (by rw [removedKeys, htype])
  | _ => exact ensures_pure rfl

end Unchanged

section Changed

theorem changes_of_not_inert (h : ¬ Inert E msg w) :
    ∃ as x w', (netProcessTriggerEvent E msg).run exec as w = some (x, w') ∧
      w'.trig.ts ≠ w.trig.ts := by
  obtain ⟨as, x, w', has, hrun⟩ := exists_run exec_answers (netProcessTriggerEvent E msg) w
  refine ⟨as, x, w', hrun, fun hts ↦ ?_⟩
  have hlen := congrArg List.length hts
  by_cases hop : E.eppTriggerOp msg = .add
  · rw [Inert, if_pos hop] at h
    obtain ⟨new, hnew, hkeys⟩ := netProcessTriggerEvent_add_ensures hop w as x w' has hrun
    rw [hnew, List.length_append] at hlen
    have hnil : new = [] := List.length_eq_zero_iff.mp (by omega)
    exact h (by rw [← hkeys, hnil, List.map_nil])
  · rw [Inert, if_neg hop] at h
    simp only [not_forall, not_not] at h
    obtain ⟨t, ht, hkey⟩ := h
    rw [netProcessTriggerEvent_rem_ensures hop w as x w' has hrun] at hlen
    exact absurd hlen (Nat.ne_of_lt (eraseKeys_length_lt ht (List.mem_reverse.mpr hkey)))

/-- What leaves the triggers alone, and holds of a run that does nothing, holds
of every run exactly where the message has nothing to do. -/
theorem inert_iff {P : World → Prop} (hself : P w) (hP : ∀ w', P w' → w'.trig = w.trig) :
    (∀ as x w', (netProcessTriggerEvent E msg).run exec as w = some (x, w') → P w') ↔
      Inert E msg w := by
  refine ⟨fun h ↦ by_contra fun hnot ↦ ?_, fun h as x w' hrun ↦ ?_⟩
  · obtain ⟨as, x, w', hrun, hts⟩ := changes_of_not_inert hnot
    exact hts (congrArg Trctx.ts (hP w' (h as x w' hrun)))
  · rwa [netProcessTriggerEvent_inert h as x w' (fun _ _ ↦ trivial) hrun]

end Changed

section Requests

theorem netProcessSingleEvent_quiet (hdir : E.eppDir msg ≠ .req) :
    Ensures exec (fun _ ↦ True) (netProcessSingleEvent E msg) w fun _ w' ↦ w' = w := by
  unfold netProcessSingleEvent
  simp only [hdir, if_false]
  split <;> exact ensures_pure rfl

theorem netProcessSchedEvent_quiet (hdir : E.eppDir msg ≠ .req) :
    Ensures exec (fun _ ↦ True) (netProcessSchedEvent E msg) w fun _ w' ↦ w' = w := by
  unfold netProcessSchedEvent netScHello
  simp only [hdir, if_false]
  split
  · exact ensures_pure rfl
  · split_ifs <;> exact ensures_pure rfl
  · exact ensures_pure rfl
  · exact ensures_pure rfl

/-- A message that is no request changes neither triggers nor tasks, unless it
is a triggered one: its direction is not looked at, so that it has its effect. -/
theorem unrequested_unchanged_iff (hdir : E.eppDir msg ≠ .req) (w : World) :
    (∀ as x w', (netProcessMessage E msg).run exec as w = some (x, w') →
      w'.trig = w.trig ∧ w'.sched = w.sched) ↔ (E.eppMsgType msg = .trigger → Inert E msg w) := by
  have hquiet {p : Proc ℤ} (hp : Ensures exec (fun _ ↦ True) p w fun _ w' ↦ w' = w) :
      ∀ as x w', p.run exec as w = some (x, w') → w'.trig = w.trig ∧ w'.sched = w.sched := by
    intro as x w' hrun
    obtain rfl := hp as x w' (fun _ _ ↦ trivial) hrun
    exact ⟨rfl, rfl⟩
  unfold netProcessMessage
  cases htype : E.eppMsgType msg with
  | single => exact iff_of_true (hquiet (netProcessSingleEvent_quiet hdir)) (by simp)
  | schedule => exact iff_of_true (hquiet (netProcessSchedEvent_quiet hdir)) (by simp)
  | other => exact iff_of_true (hquiet (ensures_pure rfl)) (by simp)
  | trigger =>
    simp only [true_implies]
    exact inert_iff (P := fun w' ↦ w'.trig = w.trig ∧ w'.sched = w.sched) ⟨rfl, rfl⟩
      fun _ h ↦ h.1

def replies : Emproto := { Sample.proto with eppDir := fun _ ↦ .rep }

theorem unrequested_unchanged_absent : ∃ w',
    (netProcessMessage replies [0, 6, 2, 0, 0, 7]).run exec [.tick] Agent.start.w = some (-1, w') ∧
      w'.trig = Agent.start.w.trig ∧ w'.sched = Agent.start.w.sched := by
  have hdir : replies.eppDir [0, 6, 2, 0, 0, 7] ≠ .req := by decide
  have hkeeps := (unrequested_unchanged_iff hdir Agent.start.w).mpr fun _ ↦ by decide
  exact ⟨_, rfl, hkeeps [.tick] (-1) _ rfl⟩

def addAnswers : List Ans := [.ok true, .ok true, .tick, .tick, .ok true, .time ⟨0, 0⟩, .tick]

theorem reply_adds_trigger : ¬ ∀ (E : Emproto) (msg : Bytes) (w w' : World) (as : List Ans) (x : ℤ),
    E.eppDir msg ≠ .req → (netProcessMessage E msg).run exec as w = some (x, w') →
      w'.trig = w.trig ∧ w'.sched = w.sched := by
  intro h
  have hkeep := h replies [0, 6, 2, 0, 1, 7] Agent.start.w _ addAnswers 0 (by decide) rfl
  revert hkeep
  decide

end Requests

section Decoders

/-- The handlers do not look at whether the decoders succeed: a malformed
message does nothing exactly where what they left behind has nothing to do. -/
theorem malformed_unchanged_iff (_ : Malformed E msg) (w : World) :
    (∀ as x w', (netProcessTriggerEvent E msg).run exec as w = some (x, w') → NothingDone w w') ↔
      Inert E msg w :=
  inert_iff ⟨rfl, rfl, rfl⟩ fun _ h ↦ h.trig

def uemeasFails (n : ℤ) : Emproto :=
  { Sample.proto with eppTriggerUemeasReq := fun _ ↦ ⟨false, n, fun _ ↦ Sample.measurement 9⟩ }

def measureRequest : Bytes := [0, 8, 2, 1, 1, 7, 3, 5]

theorem malformed_unchanged_negative : ∃ w',
    (netProcessTriggerEvent (uemeasFails (-1)) measureRequest).run exec [] Agent.start.w =
      some (0, w') ∧ NothingDone Agent.start.w w' := by
  have hbad : Malformed (uemeasFails (-1)) measureRequest := .inr (.inr rfl)
  have hkeeps := (malformed_unchanged_iff hbad Agent.start.w).mpr (by decide)
  exact ⟨_, rfl, hkeeps [] 0 _ rfl⟩

theorem malformed_adds_trigger : ¬ ∀ (E : Emproto) (msg : Bytes) (w w' : World) (as : List Ans)
    (x : ℤ), Malformed E msg → (netProcessTriggerEvent E msg).run exec as w = some (x, w') →
      NothingDone w w' := by
  intro h
  have hdone := h (uemeasFails 1) measureRequest Agent.start.w _ addAnswers 0 (.inr (.inr rfl)) rfl
  have htrig := hdone.trig
  revert htrig
  decide

end Decoders

end EmpowerAgent
