import Mathlib.Data.Nat.Notation
import Mathlib.Data.Int.Notation

namespace EmpowerAgent

abbrev Bytes := List UInt8

/-- Size of the buffer in which received messages are collected. -/
def emBufSize : ℕ := 4096

namespace Emproto

inductive MsgType
  | single
  | schedule
  | trigger
  | other
  deriving DecidableEq, Repr

inductive ActType
  | invalid
  | hello
  | ecap
  | handover
  | ranSetup
  | ranSlice
  | ueReport
  | ueMeasure
  | cellMeasure
  | other
  deriving DecidableEq, Repr

inductive OpType
  | unspecified
  | add
  | rem
  | set
  | other
  deriving DecidableEq, Repr

inductive Dir
  | req
  | rep
  | other
  deriving DecidableEq, Repr

/-- What a decoder leaves behind: whether it succeeded, and its output
variables, which may hold anything when it did not. -/
structure Decoded (α : Type) where
  ok : Bool
  out : α
  deriving DecidableEq, Repr

structure Head where
  type : MsgType
  cell : UInt16
  mod : UInt32
  deriving DecidableEq, Repr

structure UeMeasurement where
  measId : UInt8
  rnti : UInt16
  earfcn : UInt16
  interval : UInt16
  maxCells : Int16
  maxMeas : Int16
  deriving DecidableEq, Repr

structure UeMeas where
  nofRrc : ℤ
  rrc : ℕ → UeMeasurement

structure HoReq where
  rnti : UInt16
  tenb : UInt64
  tcell : UInt16
  cause : UInt8
  deriving DecidableEq, Repr

structure RanSliceDet where
  nofUsers : ℤ
  users : ℕ → UInt16
  usched : ℤ
  rbgs : ℤ

end Emproto

open Emproto

/-- The external protocol library, as far as the agent uses it: decoders of a
received message, and the two encoders of outgoing ones. A header fits the
collecting buffer, and writing the sequence number keeps a message's size. -/
structure Emproto where
  epHeaderSize : ℕ
  epRanUsersMax : ℕ
  eppMsgLength : Bytes → ℤ
  eppMsgType : Bytes → MsgType
  eppSingleType : Bytes → ActType
  eppScheduleType : Bytes → ActType
  eppTriggerType : Bytes → ActType
  eppDir : Bytes → Dir
  eppSingleOp : Bytes → OpType
  eppTriggerOp : Bytes → OpType
  eppHead : Bytes → Decoded Head
  eppSchedInterval : Bytes → ℤ
  eppTriggerUemeasReq : Bytes → Decoded UeMeas
  eppTriggerCellMeasReq : Bytes → Decoded Unit
  eppSchedCellMeasReq : Bytes → Decoded Int32
  eppSingleHoReq : Bytes → Decoded HoReq
  eppSingleRanSliceReq : Bytes → Decoded UInt64
  eppSingleRanSliceAdd : Bytes → Decoded (UInt64 × RanSliceDet)
  eppSingleRanSliceRem : Bytes → Decoded UInt64
  eppSingleRanSliceSet : Bytes → Decoded (UInt64 × RanSliceDet)
  epfSeq : Bytes → UInt32 → Bytes
  epfSchedHelloReq : UInt64 → ℤ → Option Bytes
  header_pos : 0 < epHeaderSize
  header_fits : epHeaderSize ≤ emBufSize
  epfSeq_length : ∀ m n, (epfSeq m n).length = m.length

end EmpowerAgent
