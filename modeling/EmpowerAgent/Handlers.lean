import EmpowerAgent.Requests

namespace EmpowerAgent

open Library.Proc (Protocol Obeys)
open Proc Emproto

variable (E : Emproto)

def requestedTask (msg : Bytes) : TaskType :=
  match E.eppMsgType msg with
  | .single =>
    match E.eppSingleType msg with
    | .ecap => .enbSetup
    | .handover => .ho
    | .ranSetup => .ranSetup
    | .ranSlice => .ranSlice
    | _ => .invalid
  | .schedule =>
    match E.eppScheduleType msg with
    | .cellMeasure => .cellMeasure
    | _ => .invalid
  | .trigger =>
    match E.eppTriggerType msg with
    | .ueReport => .ueReport
    | .ueMeasure => .ueMeasure
    | .cellMeasure => .cellMeasure
    | _ => .invalid
  | .other => .invalid

theorem requestedTask_ne (msg : Bytes) :
    requestedTask E msg ≠ .send ∧ requestedTask E msg ≠ .hello := by
  unfold requestedTask
  constructor <;> repeat' split
  all_goals exact nofun

/-- What a handler has done so far: the triggers it added and the tasks the
scheduler took, the latest first, and whether it got all it asked for. -/
structure HandlerPhase where
  added : List Emtri
  queued : List Emtask
  clean : Bool

def HandlerPhase.init : HandlerPhase := ⟨[], [], true⟩

/-- How a message is handled: triggers are added for its module and under its
keys, the last key first, and only the one added last is read or taken back. A
task stands for that trigger, or carries the message itself. -/
def handlerProtocol (msg : Bytes) : Protocol Op Op.Res HandlerPhase where
  allowed t o := match o with
    | .schedAddTask task => task.mod = 0 ∧ task.type = requestedTask E msg ∧
        if E.eppMsgType msg = .trigger then
          task.msg = none ∧ task.resch = 0 ∧ ∃ trig, t.added.head? = some trig ∧ task.trig = trig.id
        else task.msg = some msg ∧ task.trig = 0
    | .trigAdd trig => E.eppMsgType msg = .trigger ∧ E.eppTriggerOp msg = .add ∧
        trig.mod = requester E msg ∧ trig.msg = msg ∧
        trig.key :: t.added.map Emtri.key <:+ addedKeys E msg
    | .useTrig trig => t.added.head? = some trig
    | .trigDelById id => ∃ trig, t.added.head? = some trig ∧ id = trig.id
    | .trigDelByInst _ _ _ => E.eppTriggerOp msg ≠ .add
    | .malloc | .free _ | .clockGettime | .emlog _ => True
    | _ => False
  next t o r := match o, r with
    | .malloc, none => { t with clean := false }
    | .trigAdd trig, id => { t with added := { trig with id } :: t.added }
    | .schedAddTask task, (r : ℤ) =>
      if r = 0 then { t with queued := task :: t.queued } else { t with clean := false }
    | _, _ => t

/-- A request to add that got all it asked for has a trigger for each of its
keys, and a task for each trigger. -/
def HandlerPost (msg : Bytes) (t : HandlerPhase) (_ : ℤ) : Prop :=
  E.eppMsgType msg = .trigger → E.eppTriggerOp msg = .add → t.clean = true →
    t.added.map Emtri.key = addedKeys E msg ∧ t.queued.map Emtask.trig = t.added.map Emtri.id

section Procedures

variable {E} {msg : Bytes} {t : HandlerPhase}

theorem handler_next_added {o : Op} (r : o.Res) (ho : ∀ trig, o ≠ .trigAdd trig) :
    ((handlerProtocol E msg).next t o r).added = t.added := by
  cases o with
  | trigAdd trig => exact absurd rfl (ho trig)
  | malloc => cases r <;> rfl
  | schedAddTask task =>
    simp only [handlerProtocol]
    split_ifs <;> rfl
  | _ => rfl

def Allocated (t : HandlerPhase) (type : TaskType) (res : ℤ) (trigger : Int32)
    (body : Option Bytes) (t' : HandlerPhase) : Option Emtask → Prop
  | none => t' = { t with clean := false }
  | some task => t' = t ∧ task.mod = 0 ∧ task.type = type ∧ task.trig = trigger ∧
      task.msg = body ∧ task.resch = res

theorem taskAlloc_allocates (t : HandlerPhase) (type : TaskType) (interval res : ℤ)
    (trigger : Int32) (body : Option Bytes) :
    Obeys (handlerProtocol E msg) (Allocated t type res trigger body) t
      (taskAlloc type interval res trigger body) := by
  refine ⟨trivial, fun addr ↦ ?_⟩
  cases addr with
  | none => exact rfl
  | some addr =>
    cases body with
    | none => exact ⟨rfl, rfl, rfl, rfl, rfl, rfl⟩
    | some m =>
      refine ⟨trivial, fun buf ↦ ?_⟩
      cases buf with
      | none => exact ⟨trivial, fun _ ↦ rfl⟩
      | some buf => exact ⟨rfl, rfl, rfl, rfl, rfl, rfl⟩

theorem trigAlloc_allocates (t : HandlerPhase) (mod : UInt32) (type : ℤ) (inst : Int32)
    (body : Bytes) :
    Obeys (handlerProtocol E msg) (fun t' r ↦ match r with
      | none => t' = { t with clean := false }
      | some trig => t' = t ∧ trig.key = (mod, type, inst) ∧ trig.msg = body) t
      (trigAlloc mod type inst body) := by
  refine ⟨trivial, fun addr ↦ ?_⟩
  cases addr with
  | none => exact rfl
  | some addr =>
    refine ⟨trivial, fun buf ↦ ?_⟩
    cases buf with
    | none => exact ⟨trivial, fun _ ↦ rfl⟩
    | some buf => exact ⟨rfl, rfl, rfl⟩

theorem HandlerPost.unclean (h : t.clean = false) (x : ℤ) : HandlerPost E msg t x := by
  intro _ _ hclean
  cases h.symm.trans hclean

theorem HandlerPost.other (h : E.eppMsgType msg ≠ .trigger ∨ E.eppTriggerOp msg ≠ .add) (x : ℤ) :
    HandlerPost E msg t x := by
  intro htype hop _
  rcases h with h | h
  · exact absurd htype h
  · exact absurd hop h

theorem netQueueTask_handles {type : TaskType} (htype : type = requestedTask E msg)
    (hmsg : E.eppMsgType msg ≠ .trigger) (interval res : ℤ) : Obeys (handlerProtocol E msg)
      (HandlerPost E msg) .init (netQueueTask type interval res msg) := by
  refine (taskAlloc_allocates .init type interval res 0 (some msg)).bind fun t r h ↦ ?_
  cases r with
  | none => exact HandlerPost.other (.inl hmsg) _
  | some task =>
    obtain ⟨rfl, hmod, hty, htrig, hbody, _⟩ := h
    refine ⟨trivial, fun _ ↦ ⟨⟨hmod, hty.trans htype, ?_⟩, fun _ ↦ HandlerPost.other (.inl hmsg) _⟩⟩
    rw [if_neg hmsg]
    exact ⟨hbody, htrig⟩

theorem netAddTrigger_handles {mod : UInt32} {type : ℤ} {inst : Int32} {taskType : TaskType}
    {queued : Emtask → Proc ℤ} (hmsg : E.eppMsgType msg = .trigger)
    (hop : E.eppTriggerOp msg = .add) (hmod : mod = requester E msg)
    (hkeys : (mod, type, inst) :: t.added.map Emtri.key <:+ addedKeys E msg)
    (htype : taskType = requestedTask E msg)
    (hqueued : ∀ trig task, trig.key = (mod, type, inst) → task.trig = trig.id →
      (handlerProtocol E msg).allowed { t with added := trig :: t.added } (.schedAddTask task) →
      Obeys (handlerProtocol E msg) (HandlerPost E msg) { t with added := trig :: t.added }
        (queued task)) :
    Obeys (handlerProtocol E msg) (HandlerPost E msg) t
      (netAddTrigger mod type inst msg taskType queued) := by
  refine (trigAlloc_allocates t mod type inst msg).bind fun t' r h ↦ ?_
  cases r with
  | none =>
    obtain rfl := h
    exact ⟨trivial, fun _ ↦ HandlerPost.unclean rfl _⟩
  | some trig =>
    obtain ⟨rfl, hkey, hbody⟩ := h
    have hadd : (handlerProtocol E msg).allowed t' (.trigAdd trig) :=
      ⟨hmsg, hop, (congrArg Prod.fst hkey).trans hmod, hbody, by rwa [hkey]⟩
    refine ⟨hadd, fun id ↦ ⟨rfl, fun _ ↦ ?_⟩⟩
    refine (taskAlloc_allocates _ taskType 1 0 id none).bind fun t r h ↦ ?_
    cases r with
    | none =>
      obtain rfl := h
      refine ⟨trivial, fun _ ↦ ⟨rfl, fun _ ↦ ⟨⟨_, rfl, rfl⟩, fun _ ↦ ?_⟩⟩⟩
      exact HandlerPost.unclean rfl _
    | some task =>
      obtain ⟨rfl, hzero, hty, htrig, hnone, honce⟩ := h
      refine hqueued { trig with id } task hkey htrig ⟨hzero, hty.trans htype, ?_⟩
      rw [if_pos hmsg]
      exact ⟨hnone, honce, _, rfl, htrig⟩

theorem netTeReport_handles {addType remType : ℤ} {taskType : TaskType}
    (hmsg : E.eppMsgType msg = .trigger) (htype : taskType = requestedTask E msg)
    (hkeys : addedKeys E msg = [(requester E msg, addType, 0)]) :
    Obeys (handlerProtocol E msg) (HandlerPost E msg) .init
      (netTeReport E addType remType taskType msg) := by
  rw [netTeReport_eq]
  split_ifs with hop
  · have hsuffix : [(requester E msg, addType, 0)] <:+ addedKeys E msg := hkeys ▸ List.suffix_rfl
    refine netAddTrigger_handles hmsg hop rfl hsuffix htype fun trig task hkey htrig hallowed ↦ ?_
    refine ⟨trivial, fun now ↦ ⟨hallowed, fun r ↦ fun _ _ hclean ↦ ?_⟩⟩
    simp only [handlerProtocol] at hclean ⊢
    split_ifs at hclean ⊢
    refine ⟨?_, ?_⟩
    · rw [hkeys]
      exact congrArg (fun key ↦ [key]) hkey
    · simp [HandlerPhase.init, htrig]
  · exact ⟨hop, fun _ ↦ HandlerPost.other (.inr hop) _⟩

theorem ueMeasureDel_handles (hop : E.eppTriggerOp msg ≠ .add) (mod : UInt32)
    (rrc : ℕ → UeMeasurement) (n : ℕ) :
    Obeys (handlerProtocol E msg) (HandlerPost E msg) t (ueMeasureDel mod rrc n) := by
  induction n with
  | zero => exact HandlerPost.other (.inr hop) _
  | succ n ih => exact ⟨hop, fun _ ↦ ih⟩

theorem ueMeasureAdd_handles {rrc : ℕ → UeMeasurement} (hmsg : E.eppMsgType msg = .trigger)
    (hop : E.eppTriggerOp msg = .add) (htype : requestedTask E msg = .ueMeasure) (n : ℕ)
    (hkeys : (List.range n).map (entryKey (requester E msg) rrc) ++ t.added.map Emtri.key =
      addedKeys E msg)
    (hqueued : t.clean = true → t.queued.map Emtask.trig = t.added.map Emtri.id) :
    Obeys (handlerProtocol E msg) (HandlerPost E msg) t
      (ueMeasureAdd (requester E msg) rrc msg n) := by
  induction n generalizing t with
  | zero => exact fun _ _ hclean ↦ ⟨hkeys, hqueued hclean⟩
  | succ n ih =>
    rw [List.range_succ, List.map_append, List.append_assoc, List.map_singleton,
      List.singleton_append] at hkeys
    rw [ueMeasureAdd_succ]
    have hsuffix : entryKey (requester E msg) rrc n :: t.added.map Emtri.key <:+
        addedKeys E msg := by
      rw [← hkeys]
      exact List.suffix_append _ _
    refine netAddTrigger_handles hmsg hop rfl hsuffix htype.symm
      fun trig task hkey htrig hallowed ↦ ?_
    refine ⟨trivial, fun now ↦ ⟨hallowed, fun r ↦ ih ?_ ?_⟩⟩
    · simp only [handlerProtocol]
      split_ifs <;> rw [← hkeys, List.map_cons] <;> exact congrArg _ (congrArg₂ _ hkey rfl)
    · intro hclean
      simp only [handlerProtocol] at hclean ⊢
      split_ifs at hclean ⊢
      simp only [List.map_cons, htrig, hqueued hclean]

theorem netTeUeMeasure_handles (hmsg : E.eppMsgType msg = .trigger)
    (htype : E.eppTriggerType msg = .ueMeasure) :
    Obeys (handlerProtocol E msg) (HandlerPost E msg) .init (netTeUeMeasure E msg) := by
  unfold netTeUeMeasure
  dsimp only
  split_ifs with hop
  · exact ueMeasureDel_handles hop _ _ _
  · have hop : E.eppTriggerOp msg = .add := not_not.mp hop
    have hreq : requestedTask E msg = .ueMeasure := by simp only [requestedTask, hmsg, htype]
    refine ueMeasureAdd_handles hmsg hop hreq _ ?_ fun _ ↦ rfl
    simp only [HandlerPhase.init, List.map_nil, List.append_nil, addedKeys, htype, measIds,
      List.map_map]
    rfl

theorem netProcessTriggerEvent_handles (hmsg : E.eppMsgType msg = .trigger) :
    Obeys (handlerProtocol E msg) (HandlerPost E msg) .init (netProcessTriggerEvent E msg) := by
  have hother {x : ℤ} (h : addedKeys E msg = []) : HandlerPost E msg .init x :=
    fun _ _ _ ↦ ⟨h.symm, rfl⟩
  unfold netProcessTriggerEvent
  cases htype : E.eppTriggerType msg with
  | ueReport =>
    refine netTeReport_handles hmsg ?_ ?_
    · simp only [requestedTask, hmsg, htype]
    · simp only [addedKeys, htype]
  | ueMeasure => exact netTeUeMeasure_handles hmsg htype
  | cellMeasure =>
    refine netTeReport_handles hmsg ?_ ?_
    · simp only [requestedTask, hmsg, htype]
    · simp only [addedKeys, htype]
  | _ => exact hother (by simp only [addedKeys, htype])

theorem netProcessSingleEvent_handles (hmsg : E.eppMsgType msg = .single) :
    Obeys (handlerProtocol E msg) (HandlerPost E msg) .init (netProcessSingleEvent E msg) := by
  have hne : E.eppMsgType msg ≠ .trigger := by simp [hmsg]
  have hq {type : TaskType} (htype : type = requestedTask E msg) :
      Obeys (handlerProtocol E msg) (HandlerPost E msg) .init
        (if E.eppDir msg = .req then netQueueTask type 1 0 msg else return 0) := by
    split_ifs
    · exact netQueueTask_handles htype hne _ _
    · exact HandlerPost.other (.inl hne) _
  unfold netProcessSingleEvent
  cases htype : E.eppSingleType msg with
  | ecap | handover | ranSetup | ranSlice => exact hq (by simp only [requestedTask, hmsg, htype])
  | _ => exact HandlerPost.other (.inl hne) _

theorem netProcessSchedEvent_handles (hmsg : E.eppMsgType msg = .schedule) :
    Obeys (handlerProtocol E msg) (HandlerPost E msg) .init (netProcessSchedEvent E msg) := by
  have hne : E.eppMsgType msg ≠ .trigger := by simp [hmsg]
  unfold netProcessSchedEvent
  cases htype : E.eppScheduleType msg with
  | hello =>
    dsimp only
    split_ifs <;> exact HandlerPost.other (.inl hne) _
  | cellMeasure =>
    dsimp only
    split_ifs
    · exact netQueueTask_handles (by simp only [requestedTask, hmsg, htype]) hne _ _
    · exact HandlerPost.other (.inl hne) _
  | _ => exact HandlerPost.other (.inl hne) _

theorem netProcessMessage_handles (msg : Bytes) :
    Obeys (handlerProtocol E msg) (HandlerPost E msg) .init (netProcessMessage E msg) := by
  unfold netProcessMessage
  cases hmsg : E.eppMsgType msg with
  | single => exact netProcessSingleEvent_handles hmsg
  | schedule => exact netProcessSchedEvent_handles hmsg
  | trigger => exact netProcessTriggerEvent_handles hmsg
  | other => exact HandlerPost.other (.inl (by simp [hmsg])) _

end Procedures

end EmpowerAgent
