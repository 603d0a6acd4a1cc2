import EmpowerAgent.Steps
import EmpowerAgent.Library.Keyed

namespace EmpowerAgent

open Emproto Proc
open Library.Keyed (eraseKey eraseKeys eraseKeys_append)
open Library.Proc (Ensures ensures_pure ensures_call exists_run)

def Allocates (a : Ans) : Prop := a ≠ .ok false

instance : DecidablePred Allocates := fun a ↦ inferInstanceAs (Decidable (a ≠ .ok false))

section Operations

variable {w w' : World} {a : Ans}

theorem exec_malloc {r : Option ℕ} (ha : Allocates a) (h : exec .malloc a w = some (r, w')) :
    ∃ addr, r = some addr ∧ w'.trig = w.trig := by
  have he := exec_effect h
  cases he with
  | malloc => exact ⟨w.heap, rfl, rfl⟩
  | mallocFail =>
    cases a with
    | ok b =>
      cases b with
      | false => exact absurd rfl ha
      | true => cases h
    | _ => cases h

theorem exec_answers (o : Op) (w : World) :
    ∃ a r w', Allocates a ∧ exec o a w = some (r, w') := by
  cases o with
  | malloc => exact ⟨.ok true, _, _, by simp [Allocates], rfl⟩
  | clockGettime => exact ⟨.time ⟨0, 0⟩, _, _, by simp [Allocates], rfl⟩
  | netSend msg => exact ⟨.sent (-1), _, _, by simp [Allocates], rfl⟩
  | _ => exact ⟨.tick, _, _, by simp [Allocates], rfl⟩

theorem trigAlloc_ensures (mod : UInt32) (type : ℤ) (inst : Int32) (msg : Bytes) (w : World) :
    Ensures exec Allocates (trigAlloc mod type inst msg) w fun r w' ↦
      ∃ t, r = some t ∧ t.key = (mod, type, inst) ∧ w'.trig = w.trig := by
  refine ensures_call fun a r w₁ ha h ↦ ?_
  obtain ⟨addr, rfl, ht₁⟩ := exec_malloc ha h
  refine ensures_call fun a r w₂ ha h ↦ ?_
  obtain ⟨buf, rfl, ht₂⟩ := exec_malloc ha h
  exact ensures_pure ⟨_, rfl, rfl, ht₂.trans ht₁⟩

theorem taskAlloc_ensures (type : TaskType) (interval res : ℤ) (trigger : Int32) (w : World) :
    Ensures exec Allocates (taskAlloc type interval res trigger none) w fun r w' ↦
      ∃ t, r = some t ∧ w'.trig = w.trig := by
  refine ensures_call fun a r w₁ ha h ↦ ?_
  obtain ⟨addr, rfl, ht⟩ := exec_malloc ha h
  exact ensures_pure ⟨_, rfl, ht⟩

theorem schedAddTask_ensures (task : Emtask) (w : World) :
    Ensures exec Allocates (schedAddTask task) w fun _ w' ↦ w'.trig = w.trig := by
  refine ensures_call fun a now w₁ _ h₁ ↦ ensures_call fun a r w₂ _ h₂ ↦ ensures_pure ?_
  have ht₁ : w₁.trig = w.trig := by cases exec_effect h₁; rfl
  have ht₂ : w₂.trig = w₁.trig := by cases exec_effect h₂ <;> rfl
  exact ht₂.trans ht₁

theorem trigDelByInst_ensures (mod : UInt32) (type : ℤ) (inst : Int32) (w : World) :
    Ensures exec Allocates (trigDelByInst mod.toInt32 type inst) w fun _ w' ↦
      w'.trig.ts = eraseKey Emtri.key (mod, type, inst) w.trig.ts := by
  refine ensures_call fun a r w' _ h ↦ ensures_pure ?_
  cases exec_effect h
  exact Trctx.trigDelByInst_ts _ _ _ _

end Operations

section Handlers

variable (E : Emproto)

def requester (msg : Bytes) : UInt32 := (E.eppHead msg).out.mod

def measIds (msg : Bytes) : List Int32 :=
  (List.range (E.eppTriggerUemeasReq msg).out.nofRrc.toNat).map fun i ↦
    UeMeasurement.inst ((E.eppTriggerUemeasReq msg).out.rrc i)

/-- The keys under which a request makes triggers. -/
def addedKeys (msg : Bytes) : List (UInt32 × ℤ × Int32) :=
  match E.eppTriggerType msg with
  | .ueReport => [(requester E msg, TrigType.ueRep.toInt, 0)]
  | .ueMeasure => (measIds E msg).map fun i ↦ (requester E msg, TrigType.ueMeas.toInt, i)
  | .cellMeasure => [(requester E msg, TaskType.cellMeasure.toInt, 0)]
  | _ => []

/-- The keys under which a request to remove looks for triggers. -/
def removedKeys (msg : Bytes) : List (UInt32 × ℤ × Int32) :=
  match E.eppTriggerType msg with
  | .ueReport => [(requester E msg, TrigType.ueRep.toInt, 0)]
  | .ueMeasure => (measIds E msg).map fun i ↦ (requester E msg, TrigType.ueMeas.toInt, i)
  | .cellMeasure => [(requester E msg, TrigType.macRep.toInt, 0)]
  | _ => []

variable {E} {msg : Bytes}

theorem netAddTrigger_ensures {mod : UInt32} {type : ℤ} {inst : Int32} {taskType : TaskType}
    {queued : Emtask → Proc ℤ} {w : World} {Q : ℤ → World → Prop}
    (h : ∀ t task w', t.key = (mod, type, inst) → w'.trig.ts = t :: w.trig.ts →
      Ensures exec Allocates (queued task) w' Q) :
    Ensures exec Allocates (netAddTrigger mod type inst msg taskType queued) w Q := by
  refine (trigAlloc_ensures mod type inst msg w).bind fun r w₁ h₁ ↦ ?_
  obtain ⟨t, rfl, hkey, hw₁⟩ := h₁
  refine ensures_call fun a id w₂ _ h₂ ↦ ensures_call fun a _ w₃ _ h₃ ↦ ?_
  cases exec_effect h₃
  cases exec_effect h₂
  refine (taskAlloc_ensures _ _ _ _ _).bind fun r w₄ h₄ ↦ ?_
  obtain ⟨task, rfl, hw₄⟩ := h₄
  refine h { t with id := w₁.trig.next } task w₄ hkey ?_
  rw [hw₄, ← hw₁]
  rfl

theorem netTeReport_add_ensures {addType remType : ℤ} {taskType : TaskType}
    (hop : E.eppTriggerOp msg = .add) (w : World) :
    Ensures exec Allocates (netTeReport E addType remType taskType msg) w fun _ w' ↦
      ∃ t, t.key = (requester E msg, addType, 0) ∧ w'.trig.ts = t :: w.trig.ts := by
  rw [netTeReport_eq, if_pos hop]
  refine netAddTrigger_ensures fun t task w₁ hkey hts ↦ ?_
  refine (schedAddTask_ensures task w₁).mono fun _ w₂ hw₂ ↦ ?_
  exact ⟨t, hkey, by rw [hw₂, hts]⟩

theorem netTeReport_rem_ensures {addType remType : ℤ} {taskType : TaskType}
    (hop : E.eppTriggerOp msg ≠ .add) (w : World) :
    Ensures exec Allocates (netTeReport E addType remType taskType msg) w fun _ w' ↦
      w'.trig.ts = eraseKey Emtri.key (requester E msg, remType, 0) w.trig.ts := by
  rw [netTeReport_eq, if_neg hop]
  exact trigDelByInst_ensures _ _ _ w

section Entries

variable (mod : UInt32) (rrc : ℕ → UeMeasurement)

def entryKey (i : ℕ) : UInt32 × ℤ × Int32 :=
  (mod, TrigType.ueMeas.toInt, UeMeasurement.inst (rrc i))

theorem ueMeasureAdd_ensures (n : ℕ) (w : World) :
    Ensures exec Allocates (ueMeasureAdd mod rrc msg n) w fun _ w' ↦
      ∃ new : List Emtri, w'.trig.ts = new ++ w.trig.ts ∧
        new.map Emtri.key = (List.range n).map (entryKey mod rrc) := by
  induction n generalizing w with
  | zero => exact ensures_pure ⟨[], rfl, rfl⟩
  | succ n ih =>
    rw [ueMeasureAdd_succ]
    refine netAddTrigger_ensures fun t task w₁ hkey hts ↦ ?_
    refine (schedAddTask_ensures task w₁).bind fun _ w₂ hw₂ ↦ ?_
    refine (ih w₂).mono fun _ w₃ h₃ ↦ ?_
    obtain ⟨new, hnew, hkeys⟩ := h₃
    -- the earlier entries come later, and so in front of this one
    refine ⟨new ++ [t], ?_, ?_⟩
    · rw [hnew, hw₂, hts, List.append_assoc]
      rfl
    · rw [List.map_append, hkeys, List.range_succ, List.map_append]
      simp only [List.map_cons, List.map_nil, hkey, entryKey]

theorem ueMeasureDel_ensures (n : ℕ) (w : World) :
    Ensures exec Allocates (ueMeasureDel mod rrc n) w fun _ w' ↦
      w'.trig.ts =
        eraseKeys Emtri.key ((List.range n).map (entryKey mod rrc)).reverse w.trig.ts := by
  induction n generalizing w with
  | zero => exact ensures_pure rfl
  | succ n ih =>
    refine (trigDelByInst_ensures _ _ _ w).bind fun _ w₁ h₁ ↦ ?_
    refine (ih w₁).mono fun _ w₂ h₂ ↦ ?_
    rw [h₂, h₁, List.range_succ, List.map_append, List.reverse_append]
    rfl

end Entries

theorem netTeUeMeasure_add_ensures (hop : E.eppTriggerOp msg = .add) (w : World) :
    Ensures exec Allocates (netTeUeMeasure E msg) w fun _ w' ↦
      ∃ new : List Emtri, w'.trig.ts = new ++ w.trig.ts ∧
        new.map Emtri.key =
          (measIds E msg).map fun i ↦ (requester E msg, TrigType.ueMeas.toInt, i) := by
  unfold netTeUeMeasure
  simp only [hop, ne_eq, not_true_eq_false, if_false]
  refine (ueMeasureAdd_ensures _ _ _ w).mono fun _ w' h ↦ ?_
  obtain ⟨new, hts, hkeys⟩ := h
  refine ⟨new, hts, ?_⟩
  rw [hkeys, measIds, List.map_map]
  rfl

theorem netTeUeMeasure_rem_ensures (hop : E.eppTriggerOp msg ≠ .add) (w : World) :
    Ensures exec Allocates (netTeUeMeasure E msg) w fun _ w' ↦
      w'.trig.ts = eraseKeys Emtri.key
        ((measIds E msg).map fun i ↦ (requester E msg, TrigType.ueMeas.toInt, i)).reverse
        w.trig.ts := by
  unfold netTeUeMeasure
  simp only [hop, ne_eq, not_false_eq_true, if_true]
  refine (ueMeasureDel_ensures _ _ _ w).mono fun _ w' h ↦ ?_
  rw [h, measIds, List.map_map]
  rfl

theorem netProcessTriggerEvent_add_ensures (hop : E.eppTriggerOp msg = .add) (w : World) :
    Ensures exec Allocates (netProcessTriggerEvent E msg) w fun _ w' ↦
      ∃ new : List Emtri, w'.trig.ts = new ++ w.trig.ts ∧
        new.map Emtri.key = addedKeys E msg := by
  have report : ∀ {addType remType taskType w},
      Ensures exec Allocates (netTeReport E addType remType taskType msg) w fun _ w' ↦
        ∃ new : List Emtri, w'.trig.ts = new ++ w.trig.ts ∧
          new.map Emtri.key = [(requester E msg, addType, 0)] := by
    intro addType remType taskType w
    refine (netTeReport_add_ensures hop w).mono fun _ w' h ↦ ?_
    obtain ⟨t, hkey, hts⟩ := h
    exact ⟨[t], hts, by rw [List.map_singleton, hkey]⟩
  unfold netProcessTriggerEvent addedKeys
  cases E.eppTriggerType msg with
  | ueReport => exact report
  | ueMeasure => exact netTeUeMeasure_add_ensures hop w
  | cellMeasure => exact report
  | _ => exact ensures_pure ⟨[], rfl, rfl⟩

theorem netProcessTriggerEvent_rem_ensures (hop : E.eppTriggerOp msg ≠ .add) (w : World) :
    Ensures exec Allocates (netProcessTriggerEvent E msg) w fun _ w' ↦
      w'.trig.ts = eraseKeys Emtri.key (removedKeys E msg).reverse w.trig.ts := by
  unfold netProcessTriggerEvent removedKeys
  cases E.eppTriggerType msg with
  | ueReport => exact netTeReport_rem_ensures hop w
  | ueMeasure => exact netTeUeMeasure_rem_ensures hop w
  | cellMeasure => exact netTeReport_rem_ensures hop w
  | _ => exact ensures_pure rfl

end Handlers

section Inverse

variable (E : Emproto)

/-- Two requests of one kind, from one module and with the same measurement
ids in any order, the first to add and the second to remove. -/
structure SameRequest (add rem : Bytes) : Prop where
  add_op : E.eppTriggerOp add = .add
  rem_op : E.eppTriggerOp rem = .rem
  type : E.eppTriggerType rem = E.eppTriggerType add
  module : requester E rem = requester E add
  ids : E.eppTriggerType add = .ueMeasure → (measIds E add).Perm (measIds E rem)

/-- A message is handled from one world to another, with the memory it asks for. -/
def Handles (msg : Bytes) (w w' : World) : Prop :=
  ∃ as x, (∀ a ∈ as, Allocates a) ∧
    (netProcessTriggerEvent E msg).run exec as w = some (x, w')

variable {E} {msg add rem : Bytes} {w w' : World}

theorem Handles.exists (msg : Bytes) (w : World) : ∃ w', Handles E msg w w' := by
  obtain ⟨as, x, w', has, hr⟩ := exists_run exec_answers (netProcessTriggerEvent E msg) w
  exact ⟨w', as, x, has, hr⟩

theorem Handles.puts (h : Handles E msg w w') (hop : E.eppTriggerOp msg = .add) :
    ∃ new : List Emtri, w'.trig.ts = new ++ w.trig.ts ∧
      new.map Emtri.key = addedKeys E msg := by
  obtain ⟨as, x, has, hr⟩ := h
  exact netProcessTriggerEvent_add_ensures hop w as x w' has hr

theorem Handles.erases (h : Handles E msg w w') (hop : E.eppTriggerOp msg ≠ .add) :
    w'.trig.ts = eraseKeys Emtri.key (removedKeys E msg).reverse w.trig.ts := by
  obtain ⟨as, x, has, hr⟩ := h
  exact netProcessTriggerEvent_rem_ensures hop w as x w' has hr

theorem SameRequest.keys_perm (h : SameRequest E add rem)
    (hkind : E.eppTriggerType add ≠ .cellMeasure) :
    (addedKeys E add).Perm (removedKeys E rem).reverse := by
  refine List.Perm.trans ?_ (List.reverse_perm _).symm
  unfold addedKeys removedKeys
  rw [h.type, h.module]
  cases htype : E.eppTriggerType add with
  | ueMeasure => exact (h.ids htype).map _
  | cellMeasure => exact absurd htype hkind
  | _ => rfl

theorem eraseKeys_cellMeasure (h : SameRequest E add rem)
    (hkind : E.eppTriggerType add = .cellMeasure) {t : Emtri} {ts : List Emtri}
    (hkey : t.key ∈ addedKeys E add) :
    t ∈ eraseKeys Emtri.key (removedKeys E rem).reverse (t :: ts) := by
  unfold addedKeys at hkey
  unfold removedKeys
  rw [hkind] at hkey
  rw [h.type, hkind, h.module]
  have hne : t.key ≠ (requester E add, TrigType.macRep.toInt, 0) := by
    rw [List.mem_singleton.mp hkey]
    simp [TaskType.toInt, TrigType.toInt]
  simp [eraseKeys, eraseKey, hne]

/-- A request to add can be handled and then the one to remove, and this
gives the live triggers back unless they are for cell measurements. -/
theorem requests_inverse_iff (h : SameRequest E add rem)
    (hfree : ∀ t ∈ w.trig.ts, t.key ∉ addedKeys E add) :
    (∃ w₁ w₂, Handles E add w w₁ ∧ Handles E rem w₁ w₂) ∧
      ∀ w₁ w₂, Handles E add w w₁ → Handles E rem w₁ w₂ →
        (w₂.trig.live = w.trig.live ↔ E.eppTriggerType add ≠ .cellMeasure) := by
  constructor
  · obtain ⟨w₁, h₁⟩ := Handles.exists (E := E) add w
    obtain ⟨w₂, h₂⟩ := Handles.exists (E := E) rem w₁
    exact ⟨w₁, w₂, h₁, h₂⟩
  intro w₁ w₂ hadd hrem
  obtain ⟨new, hts, hkeys⟩ := hadd.puts h.add_op
  have hts₂ := hrem.erases (by simp [h.rem_op])
  rw [hts] at hts₂
  constructor
  · intro hlive hkind
    -- the trigger just made is still there, though no trigger had its key before
    have hone : addedKeys E add = [(requester E add, TaskType.cellMeasure.toInt, 0)] := by
      simp only [addedKeys, hkind]
    obtain ⟨t, rfl, hkey⟩ : ∃ t, new = [t] ∧ t.key ∈ addedKeys E add := by
      rw [hone] at hkeys
      obtain ⟨t, rfl, hkey⟩ := List.map_eq_singleton_iff.mp hkeys
      exact ⟨t, rfl, hone ▸ List.mem_singleton.mpr hkey⟩
    have hin : t ∈ w₂.trig.live := by
      rw [Trctx.mem_live, hts₂]
      exact eraseKeys_cellMeasure h hkind hkey
    rw [hlive] at hin
    exact hfree t hin hkey
  · intro hkind
    rw [eraseKeys_append (hkeys ▸ h.keys_perm hkind)] at hts₂
    rw [Trctx.live, Trctx.live, hts₂]

def sharedCtx : Trctx := ⟨[⟨0, 1, TrigType.ueMeas.toInt, 9, 3, []⟩], 2⟩

/-- Two measurements are requested, and removed in the other order. -/
theorem requests_inverse_measure : ∃ w₁ w₂,
    Handles Sample.proto [0, 8, 2, 1, 1, 7, 3, 5] { Agent.start.w with trig := sharedCtx } w₁ ∧
    Handles Sample.proto [0, 8, 2, 1, 0, 7, 5, 3] w₁ w₂ ∧ w₂.trig.live = sharedCtx.live := by
  have hsame : SameRequest Sample.proto [0, 8, 2, 1, 1, 7, 3, 5] [0, 8, 2, 1, 0, 7, 5, 3] :=
    ⟨rfl, rfl, rfl, rfl, fun _ ↦ by decide⟩
  have hfree : ∀ t ∈ sharedCtx.ts,
      t.key ∉ addedKeys Sample.proto [0, 8, 2, 1, 1, 7, 3, 5] := by decide
  obtain ⟨⟨w₁, w₂, h₁, h₂⟩, hiff⟩ :=
    requests_inverse_iff (w := { Agent.start.w with trig := sharedCtx }) hsame hfree
  exact ⟨w₁, w₂, h₁, h₂, (hiff w₁ w₂ h₁ h₂).mpr (by decide)⟩

theorem requests_not_inverse : ¬ ∀ (E : Emproto) (add rem : Bytes) (w : World),
    SameRequest E add rem → (∀ t ∈ w.trig.ts, t.key ∉ addedKeys E add) →
    ∀ w₁ w₂, Handles E add w w₁ → Handles E rem w₁ w₂ → w₂.trig.live = w.trig.live := by
  intro h
  have hsame : SameRequest Sample.proto [0, 6, 2, 2, 1, 7] [0, 6, 2, 2, 0, 7] :=
    ⟨rfl, rfl, rfl, rfl, fun hkind ↦ nomatch hkind⟩
  have hlive := h _ _ _ Agent.start.w hsame (by decide) _ _
    ⟨[.ok true, .ok true, .tick, .tick, .ok true, .time ⟨0, 0⟩, .tick], 0, by decide, rfl⟩
    ⟨[.tick], -1, by decide, rfl⟩
  have hin := (Set.ext_iff.mp hlive _).mp (List.mem_cons_self ..)
  exact absurd hin (List.not_mem_nil)

end Inverse

end EmpowerAgent
