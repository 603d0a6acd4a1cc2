import EmpowerAgent.Emproto
import Mathlib.Tactic.Common

namespace EmpowerAgent

inductive TaskType
  | invalid
  | send
  | hello
  | enbSetup
  | ueReport
  | ueMeasure
  | cellMeasure
  | ho
  | ranSetup
  | ranSlice
  deriving DecidableEq, Repr

def TaskType.toInt : TaskType → ℤ
  | .invalid => 0
  | .send => 1
  | .hello => 2
  | .enbSetup => 3
  | .ueReport => 4
  | .ueMeasure => 5
  | .cellMeasure => 6
  | .ho => 7
  | .ranSetup => 8
  | .ranSlice => 9

structure Timespec where
  tvSec : ℤ
  tvNsec : ℤ
  deriving DecidableEq, Repr

/-- Division truncates towards zero, as in C. -/
def tsDiffToMs (a b : Timespec) : ℤ :=
  (b.tvSec - a.tvSec) * 1000 + (b.tvNsec - a.tvNsec).tdiv 1000000

/-- A task. `addr` is the address at which it was allocated and stands for
its identity; a null message is `none`. -/
structure Emtask where
  addr : ℕ
  type : TaskType
  mod : UInt32
  msg : Option Bytes
  trig : Int32
  resch : ℤ
  issued : Timespec
  elapse : ℤ
  deriving DecidableEq, Repr

def Emtask.init (addr : ℕ) (type : TaskType) (interval res : ℤ) (trigger : Int32)
    (msg : Option Bytes) : Emtask where
  addr := addr
  type := type
  mod := 0
  msg := msg
  trig := trigger
  resch := res
  issued := ⟨0, 0⟩
  elapse := interval

/-- What performing a task asks the scheduler to do with it (`TASK_*`). -/
inductive Outcome
  | netError
  | consumed
  | notElapsed
  | reschedule
  deriving DecidableEq, Repr

end EmpowerAgent
