import EmpowerAgent.Triggers
import EmpowerAgent.Task
import EmpowerAgent.Library.Procedure

namespace EmpowerAgent

open Emproto

structure RanConf where
  nofUsers : ℤ
  users : List UInt16
  userSched : ℤ
  rbg : ℤ
  deriving DecidableEq, Repr

/-- A call of one of the wrapper's operations, with its arguments. -/
inductive Callback
  | disconnected
  | enbSetupRequest (mod : UInt32)
  | ueReport (mod : UInt32) (trigId : Int32)
  | ueMeasure (mod : UInt32) (trigId : Int32) (m : UeMeasurement)
  | handoverUE (mod : UInt32) (sourceCell : UInt16) (req : HoReq)
  | cellMeasure (cell : UInt16) (mod : UInt32) (interval trigId : Int32)
  | setupRequest (mod : UInt32)
  | sliceRequest (mod : UInt32) (slice : UInt64)
  | sliceAdd (mod : UInt32) (slice : UInt64) (det : RanConf)
  | sliceRem (mod : UInt32) (slice : UInt64)
  | sliceConf (mod : UInt32) (slice : UInt64) (conf : RanConf)
  deriving DecidableEq, Repr

structure AgentOps where
  disconnected : Bool
  enbSetupRequest : Bool
  ueReport : Bool
  ueMeasure : Bool
  handoverUE : Bool
  cellMeasure : Bool
  setupRequest : Bool
  sliceRequest : Bool
  sliceAdd : Bool
  sliceRem : Bool
  sliceConf : Bool
  deriving DecidableEq, Repr

inductive NetStatus
  | notConnected
  | connected
  deriving DecidableEq, Repr

structure Netctx where
  sockfd : ℤ
  stop : Bool
  status : NetStatus
  seq : UInt32
  deriving DecidableEq, Repr

structure Schctx where
  stop : Bool
  jobs : List Emtask
  todo : List Emtask
  deriving DecidableEq, Repr

/-- What an observer of the agent records. Nothing in the code reads it.
Connections and sockets are numbered in the order in which they come up. -/
inductive Event
  | accepted (task : ℕ)
  | freed (task : ℕ)
  | performed (task : ℕ) (op : Outcome)
  | trigAdded (conn : ℕ) (trig : Emtri)
  | callback (conn : ℕ) (c : Callback)
  | sent (sock : ℕ) (msg : Bytes) (n : ℕ)
  | opened (fd : ℤ)
  | closed (fd : ℤ)
  | lost (conn : ℕ)
  | received (conn : ℕ) (bytes : Bytes)
  | recvFailed (conn : ℕ)
  | handled (conn : ℕ) (msg : Bytes)
  deriving DecidableEq, Repr

/-- The memory that the threads of one agent share, with the next address
`malloc` hands out, the sockets and connections counted, and the record. -/
structure World where
  trig : Trctx
  net : Netctx
  sched : Schctx
  heap : ℕ
  socks : ℕ
  conns : ℕ
  hist : List Event
  deriving DecidableEq, Repr

namespace World

variable (w : World)

def log (e : Event) : World := { w with hist := w.hist ++ [e] }

@[simp] theorem log_conns (e : Event) : (w.log e).conns = w.conns := rfl

def schedAddTask (task : Emtask) : ℤ × World :=
  if w.sched.stop then (-1, w)
  else (0, { w with
    sched := { w.sched with jobs := w.sched.jobs ++ [task] }
    hist := w.hist ++ [.accepted task.addr] })

theorem schedAddTask_of_stop (h : w.sched.stop = true) (task : Emtask) :
    w.schedAddTask task = (-1, w) := if_pos h

theorem schedAddTask_of_run (h : w.sched.stop = false) (task : Emtask) :
    w.schedAddTask task = (0, { w with
      sched := { w.sched with jobs := w.sched.jobs ++ [task] }
      hist := w.hist ++ [.accepted task.addr] }) := if_neg (by simp [h])

def trigAdd (trig : Emtri) : Int32 × World :=
  ((w.trig.trigAdd trig).1, { w with
    trig := (w.trig.trigAdd trig).2
    hist := w.hist ++ [.trigAdded w.conns { trig with id := w.trig.next }] })

def netNextSeq : UInt32 × World :=
  (w.net.seq, { w with net := { w.net with seq := w.net.seq + 1 } })

/-- The socket answers `n`: an error, or the number of bytes it accepted. -/
def netSend (msg : Bytes) (n : ℤ) : Option (ℤ × World) :=
  if n < 0 then some (n, w)
  else if 0 ≤ w.net.sockfd ∧ n ≤ msg.length ∧ (0 < n ∨ msg.length = 0) then
    some (n, w.log (.sent w.socks msg n.toNat))
  else none

/-- Both threads run this without a lock. It is one step here, and its test,
close, store and clear are taken apart in `Parted`. -/
def netNotConnected : World :=
  { w with
    net := { w.net with
      sockfd := if 0 < w.net.sockfd then -1 else w.net.sockfd
      status := .notConnected
      seq := 0 }
    hist := w.hist ++ (if 0 < w.net.sockfd then [.closed w.net.sockfd] else []) ++
      (if w.net.status = .connected then [.lost w.conns] else []) }

end World

/-- The operations by which a procedure touches what threads share, each one
atomic: a library call, a callback, or a section under one lock. `useTrig`
stands where a field is read through the pointer to a trigger. -/
inductive Op
  | malloc
  | free (addr : ℕ)
  | clockGettime
  | schedAddTask (task : Emtask)
  | trigAdd (trig : Emtri)
  | trigDelById (id : Int32)
  | trigDelByInst (mod : Int32) (type : ℤ) (inst : Int32)
  | trigFindById (id : Int32)
  | useTrig (trig : Emtri)
  | netNextSeq
  | netSend (msg : Bytes)
  | callback (c : Callback)
  | emlog (text : String)

@[reducible] def Op.Res : Op → Type
  | .malloc => Option ℕ
  | .free _ => Unit
  | .clockGettime => Timespec
  | .schedAddTask _ => ℤ
  | .trigAdd _ => Int32
  | .trigDelById _ => ℤ
  | .trigDelByInst _ _ _ => ℤ
  | .trigFindById _ => Option Emtri
  | .useTrig _ => Unit
  | .netNextSeq => UInt32
  | .netSend _ => ℤ
  | .callback _ => Unit
  | .emlog _ => Unit

inductive Errno
  | none
  | eagain
  | ealready
  | enomem
  | other (n : ℕ)
  deriving DecidableEq, Repr

inductive RecvResult
  | data (bytes : Bytes)
  | closed
  | error (e : Errno)
  deriving DecidableEq, Repr

/-- What the environment answers to one step. -/
inductive Ans
  | tick
  | ok (b : Bool)
  | time (t : Timespec)
  | fd (n : ℤ)
  | connect (e : Option Errno)
  | recv (r : RecvResult)
  | sent (n : ℤ)
  | fails (e : Errno)
  deriving DecidableEq, Repr

def exec : Library.Proc.Exec Op Op.Res Ans World
  | .malloc, .ok true, w => some (some w.heap, { w with heap := w.heap + 1 })
  | .malloc, .ok false, w => some (none, w)
  -- what is given back is not handed out again
  | .free _, .tick, w => some ((), w)
  | .clockGettime, .time t, w => some (t, w)
  | .schedAddTask task, .tick, w => some (w.schedAddTask task)
  | .trigAdd trig, .tick, w => some (w.trigAdd trig)
  | .trigDelById id, .tick, w =>
    some ((w.trig.trigDelById id).1, { w with trig := (w.trig.trigDelById id).2 })
  | .trigDelByInst mod type inst, .tick, w =>
    some ((w.trig.trigDelByInst mod type inst).1,
      { w with trig := (w.trig.trigDelByInst mod type inst).2 })
  | .trigFindById id, .tick, w => some (w.trig.trigFindById id, w)
  | .useTrig _, .tick, w => some ((), w)
  | .netNextSeq, .tick, w => some w.netNextSeq
  | .netSend msg, .sent n, w => w.netSend msg n
  | .callback c, .tick, w => some ((), w.log (.callback w.conns c))
  | .emlog _, .tick, w => some ((), w)
  | _, _, _ => none

abbrev Proc := Library.Proc Op Op.Res

namespace Proc

def perform (o : Op) : Proc o.Res := Library.Proc.perform o

def malloc : Proc (Option ℕ) := perform .malloc

def free (addr : ℕ) : Proc Unit := perform (.free addr)

def trigAdd (trig : Emtri) : Proc Int32 := perform (.trigAdd trig)

def trigDelById (id : Int32) : Proc ℤ := perform (.trigDelById id)

def trigDelByInst (mod : Int32) (type : ℤ) (inst : Int32) : Proc ℤ :=
  perform (.trigDelByInst mod type inst)

def trigFindById (id : Int32) : Proc (Option Emtri) := perform (.trigFindById id)

def useTrig (trig : Emtri) : Proc Unit := perform (.useTrig trig)

def netNextSeq : Proc UInt32 := perform .netNextSeq

def netSend (msg : Bytes) : Proc ℤ := perform (.netSend msg)

def callback (c : Callback) : Proc Unit := perform (.callback c)

def emlog (text : String) : Proc Unit := perform (.emlog text)

def schedAddTask (task : Emtask) : Proc ℤ := do
  -- the time is read before the lock is taken
  let now ← perform .clockGettime
  perform (.schedAddTask { task with issued := now })

def taskAlloc (type : TaskType) (interval res : ℤ) (trigger : Int32) (msg : Option Bytes) :
    Proc (Option Emtask) := do
  match ← malloc with
  | none => return none
  | some addr =>
    match msg with
    | none => return some (.init addr type interval res trigger none)
    | some m =>
      match ← malloc with
      | none => do
        free addr
        return none
      | some _ => return some (.init addr type interval res trigger (some m))

def trigAlloc (mod : UInt32) (type : ℤ) (inst : Int32) (msg : Bytes) :
    Proc (Option Emtri) := do
  match ← malloc with
  | none => return none
  | some addr =>
    match ← malloc with
    | none => do
      free addr
      return none
    | some _ => return some { addr, id := 0, type, mod, inst, msg }

end Proc

end EmpowerAgent
