import EmpowerAgent.World

namespace EmpowerAgent

open Emproto Proc

variable (E : Emproto)

def netSchedTask (task : Emtask) : Proc ℤ := schedAddTask task

/-- A handler that does nothing but queue a task holding the message. -/
def netQueueTask (type : TaskType) (interval res : ℤ) (msg : Bytes) : Proc ℤ := do
  match ← taskAlloc type interval res 0 (some msg) with
  | none => return -1
  | some t => netSchedTask t

def netScHello (_ : Bytes) : Proc ℤ := return 0

def netSeEnbSetup (msg : Bytes) : Proc ℤ := netQueueTask .enbSetup 1 0 msg

def netSeHo (msg : Bytes) : Proc ℤ := netQueueTask .ho 1 0 msg

def netSeRans (msg : Bytes) : Proc ℤ := netQueueTask .ranSetup 1 0 msg

def netSeRanslice (msg : Bytes) : Proc ℤ := netQueueTask .ranSlice 1 0 msg

def netScCellMeasReport (msg : Bytes) : Proc ℤ :=
  netQueueTask .cellMeasure (E.eppSchedInterval msg) (-1) msg

/-- The measurement id of an entry, as the `int` that serves as instance. -/
def UeMeasurement.inst (m : UeMeasurement) : Int32 := Int32.ofNat m.measId.toNat

/-- The removal loop, from the last entry to the first. -/
def ueMeasureDel (mod : UInt32) (rrc : ℕ → UeMeasurement) : ℕ → Proc ℤ
  | 0 => return 0
  | n + 1 => do
    let _ ← trigDelByInst mod.toInt32 TrigType.ueMeas.toInt (UeMeasurement.inst (rrc n))
    ueMeasureDel mod rrc n

def ueMeasureAdd (mod : UInt32) (rrc : ℕ → UeMeasurement) (msg : Bytes) : ℕ → Proc ℤ
  | 0 => return 0
  | n + 1 => do
    match ← trigAlloc mod TrigType.ueMeas.toInt (UeMeasurement.inst (rrc n)) msg with
    | none => do
      emlog "Trigger creation failed!\n"
      return 0
    | some trig => do
      let id ← trigAdd trig
      useTrig { trig with id }
      match ← taskAlloc .ueMeasure 1 0 id none with
      | none => do
        emlog "Cannot create task!\n"
        useTrig { trig with id }
        let _ ← trigDelById id
        return 0
      | some task => do
        -- a task that is refused does not end the loop
        let _ ← netSchedTask task
        ueMeasureAdd mod rrc msg n

def netTeUeMeasure (msg : Bytes) : Proc ℤ :=
  let mod := (E.eppHead msg).out.mod
  let m := (E.eppTriggerUemeasReq msg).out
  if E.eppTriggerOp msg ≠ .add then ueMeasureDel mod m.rrc m.nofRrc.toNat
  else ueMeasureAdd mod m.rrc msg m.nofRrc.toNat

/-- The common body of the two handlers that make one trigger of instance 0:
`addType` is the type under which it is made, `remType` the one under which a
request to remove it looks. -/
def netTeReport (addType remType : ℤ) (taskType : TaskType) (msg : Bytes) : Proc ℤ :=
  let mod := (E.eppHead msg).out.mod
  if E.eppTriggerOp msg = .add then do
    match ← trigAlloc mod addType 0 msg with
    | none => do
      emlog "Trigger creation failed!\n"
      return 0
    | some t => do
      let id ← trigAdd t
      useTrig { t with id }
      match ← taskAlloc taskType 1 0 id none with
      | none => do
        emlog "Cannot create task!\n"
        useTrig { t with id }
        let _ ← trigDelById id
        return 0
      | some s => netSchedTask s
  else trigDelByInst mod.toInt32 remType 0

def netTeUeReport (msg : Bytes) : Proc ℤ :=
  netTeReport E TrigType.ueRep.toInt TrigType.ueRep.toInt .ueReport msg

def netTeCellMeasReport (msg : Bytes) : Proc ℤ :=
  netTeReport E TaskType.cellMeasure.toInt TrigType.macRep.toInt .cellMeasure msg

def netProcessSchedEvent (msg : Bytes) : Proc ℤ :=
  match E.eppScheduleType msg with
  | .invalid => return -1
  | .hello => if E.eppDir msg = .rep then netScHello msg else return 0
  | .cellMeasure => if E.eppDir msg = .req then netScCellMeasReport E msg else return 0
  | _ => return 0

def netProcessSingleEvent (msg : Bytes) : Proc ℤ :=
  match E.eppSingleType msg with
  | .invalid => return -1
  | .hello => return 0
  | .ecap => if E.eppDir msg = .req then netSeEnbSetup msg else return 0
  | .handover => if E.eppDir msg = .req then netSeHo msg else return 0
  | .ranSetup => if E.eppDir msg = .req then netSeRans msg else return 0
  | .ranSlice => if E.eppDir msg = .req then netSeRanslice msg else return 0
  | _ => return 0

def netProcessTriggerEvent (msg : Bytes) : Proc ℤ :=
  match E.eppTriggerType msg with
  | .invalid => return -1
  | .ueReport => netTeUeReport E msg
  | .ueMeasure => netTeUeMeasure E msg
  | .cellMeasure => netTeCellMeasReport E msg
  | _ => return 0

def netProcessMessage (msg : Bytes) : Proc ℤ :=
  match E.eppMsgType msg with
  | .single => netProcessSingleEvent E msg
  | .schedule => netProcessSchedEvent E msg
  | .trigger => netProcessTriggerEvent E msg
  | .other => return 0

/-- What the handlers that add triggers share: a trigger is made and added, and
a task for it, which is `queued`. -/
def netAddTrigger (mod : UInt32) (type : ℤ) (inst : Int32) (msg : Bytes) (taskType : TaskType)
    (queued : Emtask → Proc ℤ) : Proc ℤ := do
  match ← trigAlloc mod type inst msg with
  | none => do
    emlog "Trigger creation failed!\n"
    return 0
  | some trig => do
    let id ← trigAdd trig
    useTrig { trig with id }
    match ← taskAlloc taskType 1 0 id none with
    | none => do
      emlog "Cannot create task!\n"
      useTrig { trig with id }
      let _ ← trigDelById id
      return 0
    | some task => queued task

theorem ueMeasureAdd_succ (mod : UInt32) (rrc : ℕ → UeMeasurement) (msg : Bytes) (n : ℕ) :
    ueMeasureAdd mod rrc msg (n + 1) =
      netAddTrigger mod TrigType.ueMeas.toInt (UeMeasurement.inst (rrc n)) msg .ueMeasure
        (fun task ↦ schedAddTask task >>= fun _ ↦ ueMeasureAdd mod rrc msg n) := rfl

theorem netTeReport_eq (addType remType : ℤ) (taskType : TaskType) (msg : Bytes) :
    netTeReport E addType remType taskType msg =
      if E.eppTriggerOp msg = .add then
        netAddTrigger (E.eppHead msg).out.mod addType 0 msg taskType schedAddTask
      else trigDelByInst (E.eppHead msg).out.mod.toInt32 remType 0 := rfl

variable {E} {msg : Bytes}

theorem netProcessMessage_cases {motive : Proc ℤ → Prop} (hreturn : ∀ x, motive (return x))
    (hqueue : ∀ type interval res, type ≠ .hello → motive (netQueueTask type interval res msg))
    (hreport : ∀ addType remType type, type ≠ .hello →
      motive (netTeReport E addType remType type msg))
    (hmeasure : motive (netTeUeMeasure E msg)) : motive (netProcessMessage E msg) := by
  have hrequest (type : TaskType) (interval res : ℤ) (htype : type ≠ .hello) :
      motive (if E.eppDir msg = .req then netQueueTask type interval res msg else return 0) := by
    split_ifs
    · exact hqueue type interval res htype
    · exact hreturn 0
  unfold netProcessMessage
  cases E.eppMsgType msg with
  | single =>
    unfold netProcessSingleEvent
    cases E.eppSingleType msg with
    | ecap | handover | ranSetup | ranSlice => exact hrequest _ _ _ (by simp)
    | _ => exact hreturn _
  | schedule =>
    unfold netProcessSchedEvent
    cases E.eppScheduleType msg with
    | hello =>
      dsimp only
      split_ifs <;> exact hreturn 0
    | cellMeasure => exact hrequest _ _ _ (by simp)
    | _ => exact hreturn _
  | trigger =>
    unfold netProcessTriggerEvent
    cases E.eppTriggerType msg with
    | ueReport | cellMeasure => exact hreport _ _ _ (by simp)
    | ueMeasure => exact hmeasure
    | _ => exact hreturn _
  | other => exact hreturn 0

end EmpowerAgent
