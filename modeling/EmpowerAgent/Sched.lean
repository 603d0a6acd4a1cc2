import EmpowerAgent.World

namespace EmpowerAgent

open Emproto Proc

/-- What an agent is started with: the protocol library it is linked to, its
eNB id and the operations of its wrapper. -/
structure Setup where
  proto : Emproto
  enbId : UInt64
  ops : AgentOps

/-- The first `n` users of a description, written over those of an array. -/
def copyUsers (users : ℕ → UInt16) : ℕ → List UInt16 → List UInt16
  | 0, conf => conf
  | i + 1, conf => (copyUsers users i conf).set i (users i)

def schedToRANconf (usersMax : ℕ) (det : RanSliceDet) (conf : RanConf) : RanConf where
  nofUsers := det.nofUsers
  users := copyUsers det.users (min det.nofUsers.toNat usersMax) conf.users
  userSched := det.usched
  rbg := det.rbgs

def RanConf.zero (usersMax : ℕ) : RanConf := ⟨0, List.replicate usersMax 0, 0, 0⟩

variable (S : Setup)

def schedSendMsg (msg : Bytes) : Proc Outcome :=
  if emBufSize < msg.length then do
    emlog "Message too long, msg=%lu, limit=%d!\n"
    return .consumed
  else do
    let seq ← netNextSeq
    let sent ← netSend (S.proto.epfSeq msg seq)
    return if sent < 0 then .netError else .consumed

/-- The message of a task as a decoder gets it; a null one has no bytes. -/
def Emtask.bytes (task : Emtask) : Bytes := task.msg.getD []

def schedPerformSend (task : Emtask) : Proc Outcome := schedSendMsg S task.bytes

def schedPerformEnbSetup (task : Emtask) : Proc Outcome :=
  let head := S.proto.eppHead task.bytes
  if !head.ok then return .consumed
  else if S.ops.enbSetupRequest then do
    callback (.enbSetupRequest head.out.mod)
    return .consumed
  else return .consumed

def schedPerformHo (task : Emtask) : Proc Outcome :=
  let head := S.proto.eppHead task.bytes
  let req := S.proto.eppSingleHoReq task.bytes
  if !head.ok then return .consumed
  else if !req.ok then return .consumed
  else if S.ops.handoverUE then do
    callback (.handoverUE head.out.mod head.out.cell req.out)
    return .consumed
  else return .consumed

def ueMeasureEach (trig : Emtri) (rrc : ℕ → UeMeasurement) : ℕ → Proc Outcome
  | 0 => return .consumed
  | n + 1 => do
    useTrig trig
    callback (.ueMeasure trig.mod trig.id (rrc n))
    ueMeasureEach trig rrc n

def schedPerformUeMeasure (task : Emtask) : Proc Outcome :=
  if S.ops.ueMeasure then do
    match ← trigFindById task.trig with
    | none => do
      emlog "Trigger %d not found\n"
      return .consumed
    | some trig => do
      useTrig trig
      let m := S.proto.eppTriggerUemeasReq trig.msg
      if !m.ok then return .consumed
      else ueMeasureEach trig m.out.rrc m.out.nofRrc.toNat
  else return .consumed

def schedPerformCellMeas (task : Emtask) : Proc Outcome :=
  if S.ops.cellMeasure then
    if 0 < task.trig then do
      match ← trigFindById task.trig with
      | none => return .consumed
      | some trig => do
        useTrig trig
        let head := S.proto.eppHead trig.msg
        if !head.ok then return .consumed
        else do
          useTrig trig
          if !(S.proto.eppTriggerCellMeasReq trig.msg).ok then return .consumed
          else do
            useTrig trig
            callback (.cellMeasure head.out.cell trig.mod 0 trig.id)
            return .consumed
    else
      let head := S.proto.eppHead task.bytes
      let intv := S.proto.eppSchedCellMeasReq task.bytes
      if !head.ok then return .consumed
      else if !intv.ok then return .consumed
      else do
        callback (.cellMeasure head.out.cell head.out.mod intv.out (-1))
        return .consumed
  else return .consumed

def schedPerformUeReport (task : Emtask) : Proc Outcome :=
  if S.ops.ueReport then do
    callback (.ueReport task.mod task.trig)
    return .consumed
  else return .consumed

def schedPerformHello (task : Emtask) : Proc Outcome :=
  match S.proto.epfSchedHelloReq S.enbId task.elapse with
  | none => do
    emlog "Cannot parse Hello, error %d"
    return .consumed
  | some buf => schedSendMsg S buf

def schedPerformRanSetup (task : Emtask) : Proc Outcome :=
  if S.ops.setupRequest then do
    callback (.setupRequest (S.proto.eppHead task.bytes).out.mod)
    return .consumed
  else return .consumed

/-- One branch of the slice switch: nothing without the operation, nothing
when its decoder fails. -/
def ranSliceCall {α : Type} (defined : Bool) (req : Decoded α) (c : α → Callback) :
    Proc Outcome :=
  if defined && req.ok then do
    callback (c req.out)
    return .consumed
  else return .consumed

def schedPerformRanSlice (task : Emtask) : Proc Outcome :=
  let mod := (S.proto.eppHead task.bytes).out.mod
  let max := S.proto.epRanUsersMax
  match S.proto.eppSingleOp task.bytes with
  | .unspecified =>
    ranSliceCall S.ops.sliceRequest (S.proto.eppSingleRanSliceReq task.bytes)
      fun id ↦ .sliceRequest mod id
  | .add =>
    ranSliceCall S.ops.sliceAdd (S.proto.eppSingleRanSliceAdd task.bytes)
      fun req ↦ .sliceAdd mod req.1 (schedToRANconf max req.2 (.zero max))
  | .rem =>
    ranSliceCall S.ops.sliceRem (S.proto.eppSingleRanSliceRem task.bytes)
      fun id ↦ .sliceRem mod id
  | .set =>
    ranSliceCall S.ops.sliceConf (S.proto.eppSingleRanSliceSet task.bytes)
      fun req ↦ .sliceConf mod req.1 (schedToRANconf max req.2 (.zero max))
  | .other => return .consumed

def schedPerform (task : Emtask) : Proc Outcome :=
  match task.type with
  | .send => schedPerformSend S task
  | .hello => schedPerformHello S task
  | .enbSetup => schedPerformEnbSetup S task
  | .ueReport => schedPerformUeReport S task
  | .ueMeasure => schedPerformUeMeasure S task
  | .cellMeasure => schedPerformCellMeas S task
  | .ho => schedPerformHo S task
  | .ranSetup => schedPerformRanSetup S task
  | .ranSlice => schedPerformRanSlice S task
  | .invalid => return .consumed

def schedPerformJob (task : Emtask) (now : Timespec) : Proc Outcome :=
  if tsDiffToMs task.issued now < task.elapse then return .notElapsed
  else do
    let s ← schedPerform S task
    return if s = .consumed ∧ task.resch ≠ 0 then .reschedule else s

/-- The calls that pass the request of a message on, for the module that sent it. -/
inductive RequestCall (mod : UInt32) : Callback → Prop
  | enbSetupRequest : RequestCall mod (.enbSetupRequest mod)
  | handoverUE (cell : UInt16) (req : HoReq) : RequestCall mod (.handoverUE mod cell req)
  | setupRequest : RequestCall mod (.setupRequest mod)
  | sliceRequest (id : UInt64) : RequestCall mod (.sliceRequest mod id)
  | sliceAdd (id : UInt64) (conf : RanConf) : RequestCall mod (.sliceAdd mod id conf)
  | sliceRem (id : UInt64) : RequestCall mod (.sliceRem mod id)
  | sliceConf (id : UInt64) (conf : RanConf) : RequestCall mod (.sliceConf mod id conf)

variable {S} {task : Emtask}

theorem schedPerform_request {motive : Proc Outcome → Prop}
    (htype : task.type ∈ [TaskType.enbSetup, .ho, .ranSetup, .ranSlice])
    (hreturn : motive (return .consumed))
    (hcall : ∀ c, RequestCall (S.proto.eppHead task.bytes).out.mod c →
      motive (do callback c; return .consumed)) : motive (schedPerform S task) := by
  have hdefined (defined : Bool) {c : Callback}
      (hc : RequestCall (S.proto.eppHead task.bytes).out.mod c) :
      motive (if defined then (do callback c; return .consumed) else return .consumed) := by
    split_ifs
    · exact hcall c hc
    · exact hreturn
  have hguard (failed : Bool) {p : Proc Outcome} (hp : motive p) :
      motive (if failed then return .consumed else p) := by
    split_ifs
    · exact hreturn
    · exact hp
  unfold schedPerform
  cases htask : task.type with
  | enbSetup => exact hguard _ (hdefined _ .enbSetupRequest)
  | ho => exact hguard _ (hguard _ (hdefined _ (.handoverUE _ _)))
  | ranSetup => exact hdefined _ .setupRequest
  | ranSlice =>
    dsimp only
    unfold schedPerformRanSlice
    dsimp only
    cases S.proto.eppSingleOp task.bytes with
    | unspecified => exact hdefined _ (.sliceRequest _)
    | add => exact hdefined _ (.sliceAdd _ _)
    | rem => exact hdefined _ (.sliceRem _)
    | set => exact hdefined _ (.sliceConf _ _)
    | other => exact hreturn
  | _ => simp [htask] at htype

end EmpowerAgent
