import EmpowerAgent.Sched
import EmpowerAgent.Net
import EmpowerAgent.Library.Machine

namespace EmpowerAgent

open Proc

/-- The two collecting loops of `net_loop`, for a header and for the rest of
a message whose length the header told. -/
inductive Phase
  | header
  | body (mlen : ℤ)
  deriving DecidableEq, Repr

/-- Where the network thread stands. The bytes collected so far are the first
`bread` bytes of its buffer. -/
inductive NetPc
  | next
  | socket
  | resolve
  | again
  | connect
  | hello
  | store
  | undo
  | poll (ph : Phase) (got : Bytes)
  | recv (ph : Phase) (got : Bytes)
  | process (p : Proc ℤ)
  | down
  | exit

structure NetThread where
  pc : NetPc
  errno : Errno

/-- Where the scheduler thread stands, in `sched_loop` or `sched_consume`. -/
inductive SchPc
  | loop
  | take
  | clock (task : Emtask)
  | perform (task : Emtask) (now : Timespec) (p : Proc Outcome)
  | settle (task : Emtask) (now : Timespec) (op : Outcome)
  | flush
  | alert
  | down
  | back
  | drain
  | exit

inductive RelPc
  | idle
  | joinSched
  | netStop
  | joinNet
  | flush
  | done
  deriving DecidableEq, Repr

inductive Collected
  | more (ph : Phase)
  | drop
  | message
  deriving DecidableEq, Repr

section Network

variable (E : Emproto)

def netCollectBody (mlen : ℤ) (got : Bytes) : Collected :=
  if (got.length : ℤ) < mlen then .more (.body mlen)
  else if (got.length : ℤ) ≠ mlen then .drop
  else .message

def netCollect : Phase → Bytes → Collected
  | .header, got =>
    if got.length < E.epHeaderSize then .more .header
    else if got.length ≠ E.epHeaderSize then .drop
    else netCollectBody (E.eppMsgLength got) got
  | .body mlen, got => netCollectBody mlen got

def netAsked : Phase → Bytes → ℕ
  | .header, got => E.epHeaderSize - got.length
  | .body mlen, got => (mlen - got.length).toNat

/-- The task that `net_connected` adds: Hello every two seconds, forever. -/
def helloTask (addr : ℕ) (now : Timespec) : Emtask :=
  { Emtask.init addr .hello 2000 (-1) 0 none with issued := now }

def netReceived (ph : Phase) (got bytes : Bytes) (w : World) : NetPc × World :=
  let w := w.log (.received w.conns bytes)
  match netCollect E ph (got ++ bytes) with
  | .more ph' => (.poll ph' (got ++ bytes), w)
  | .drop => (.down, w)
  | .message =>
    (.process (netProcessMessage E (got ++ bytes)), w.log (.handled w.conns (got ++ bytes)))

def netNoData (errno : Errno) (ph : Phase) (got : Bytes) (w : World) : NetThread × World :=
  -- the end of the stream leaves `errno` as it was, and only `errno` is looked at
  if errno = .eagain then (⟨.poll ph got, errno⟩, w)
  else (⟨.down, errno⟩, w.log (.recvFailed w.conns))

def netRecv (errno : Errno) (ph : Phase) (got : Bytes) (w : World) :
    RecvResult → Option (NetThread × World)
  | .data bytes =>
    if 0 ≤ w.net.sockfd ∧ 0 < bytes.length ∧ bytes.length ≤ netAsked E ph got then
      let r := netReceived E ph got bytes w
      some (⟨r.1, errno⟩, r.2)
    else none
  | .closed => if 0 ≤ w.net.sockfd then some (netNoData errno ph got w) else none
  | .error e => some (netNoData e ph got w)

def netSocket (errno : Errno) (w : World) : Ans → Option (NetThread × World)
  | .tick => if w.net.sockfd < 0 then none else some (⟨.resolve, errno⟩, w)
  | .fd n =>
    if w.net.sockfd < 0 ∧ 0 ≤ n then some (⟨.resolve, errno⟩, { w with
      net := { w.net with sockfd := n }
      socks := w.socks + 1
      hist := w.hist ++ [.opened n] })
    else none
  | .fails e =>
    if w.net.sockfd < 0 then some (⟨.next, e⟩, { w with net := { w.net with sockfd := -1 } })
    else none
  | _ => none

def netConnect (errno : Errno) (w : World) : Option Errno → Option (NetThread × World)
  | none =>
    if 0 ≤ w.net.sockfd then some (⟨.hello, errno⟩, { w with conns := w.conns + 1 }) else none
  | some e => some (⟨if e = .ealready then .again else .next, e⟩, w)

/-- The part of `net_connected` up to the queued task. -/
def netConnected (errno : Errno) (w : World) : Ans → Option (NetThread × World)
  -- the allocation fails, or it succeeds and the clock is read
  | .ok false => some (⟨.undo, .enomem⟩, w)
  | .time now =>
    let r := World.schedAddTask { w with heap := w.heap + 1 } (helloTask w.heap now)
    some (⟨if r.1 = 0 then .store else .undo, errno⟩, r.2)
  | _ => none

/-- Only the operation that fails in the library tells why. -/
def Op.errno : (o : Op) → o.Res → Errno → Errno
  | .malloc, none, _ => .enomem
  | _, _, e => e

def netStep (t : NetThread) (a : Ans) (w : World) : Option (NetThread × World) :=
  match t.pc, a with
  | .next, .tick =>
    match w.net.status with
    | .notConnected => some (⟨if w.net.stop then .exit else .socket, t.errno⟩, w)
    | .connected => some (⟨.poll .header [], t.errno⟩, w)
  | .socket, a => netSocket t.errno w a
  | .resolve, .ok true => some (⟨.again, t.errno⟩, w)
  | .resolve, .fails e => some (⟨.next, e⟩, w)
  | .again, .tick => some (⟨if w.net.stop then .next else .connect, t.errno⟩, w)
  | .connect, .connect e => netConnect t.errno w e
  -- the status is stored only after the Hello has been queued
  | .hello, a => netConnected t.errno w a
  | .store, .tick =>
    some (⟨.poll .header [], t.errno⟩, { w with net := { w.net with status := .connected } })
  | .undo, .tick => some (⟨.next, t.errno⟩, w.netNotConnected)
  | .poll ph got, .tick => some (⟨if w.net.stop then .exit else .recv ph got, t.errno⟩, w)
  -- a sleep that was broken off, or another call since `recv`, has left its error
  | .poll ph got, .fails e => some (⟨if w.net.stop then .exit else .recv ph got, e⟩, w)
  | .recv ph got, .recv r => netRecv E t.errno ph got w r
  | .process (.pure _), .tick => some (⟨.next, t.errno⟩, w)
  | .process (.call o k), a =>
    (exec o a w).map fun r ↦ (⟨.process (k r.1), o.errno r.1 t.errno⟩, r.2)
  | .down, .tick => some (⟨.next, t.errno⟩, w.netNotConnected)
  | _, _ => none

end Network

section Scheduler

variable (S : Setup)

/-- The critical section that follows the performing of a task. -/
def schedSettle (task : Emtask) (now : Timespec) (w : World) : Outcome → SchPc × World
  | .notElapsed =>
    (.take, { w with sched := { w.sched with todo := task :: w.sched.todo } })
  | .reschedule =>
    let task' := { task with
      issued := now
      resch := if 0 < task.resch then task.resch - 1 else task.resch }
    (.take, { w with sched := { w.sched with todo := task' :: w.sched.todo } })
  | .consumed => (.take, w.log (.freed task.addr))
  | .netError =>
    (.flush, { w with
      sched := { w.sched with jobs := [], todo := [] }
      hist := w.hist ++ (task :: (w.sched.todo ++ w.sched.jobs)).map (.freed ·.addr) })

def schedStep (pc : SchPc) (a : Ans) (w : World) : Option (SchPc × World) :=
  match pc, a with
  | .loop, .tick => some (if w.sched.stop then .drain else .take, w)
  | .take, .tick =>
    match w.sched.jobs with
    | [] => some (.back, w)
    | task :: jobs => some (.clock task, { w with sched := { w.sched with jobs } })
  | .clock task, .time now => some (.perform task now (schedPerformJob S task now), w)
  | .perform task now (.pure op), .tick =>
    some (.settle task now op, w.log (.performed task.addr op))
  | .perform task now (.call o k), a =>
    (exec o a w).map fun r ↦ (.perform task now (k r.1), r.2)
  | .settle task now op, .tick => some (schedSettle task now w op)
  | .flush, .tick => some (.alert, { w with trig := w.trig.trigFlush })
  -- the tasks are gone already; the triggers go next, and the connection last
  | .alert, .tick =>
    some (.down, if S.ops.disconnected then w.log (.callback w.conns .disconnected) else w)
  | .down, .tick => some (.loop, w.netNotConnected)
  | .back, .tick =>
    some (.loop, { w with sched :=
      { w.sched with jobs := w.sched.todo.reverse ++ w.sched.jobs, todo := [] } })
  | .drain, .tick =>
    some (.exit, { w with
      sched := { w.sched with jobs := [], todo := [] }
      hist := w.hist ++ (w.sched.todo ++ w.sched.jobs).map (.freed ·.addr) })
  | _, _ => none

end Scheduler

/-- The calls of the library that reach into an agent. -/
inductive ApiCall
  | emSend (msg : Bytes)
  | emHasTrigger (tid : Int32)
  | emDelTrigger (tid : Int32)
  deriving DecidableEq, Repr

def coreSend (msg : Bytes) : Proc ℤ := do
  match ← taskAlloc .send 1 0 0 (some msg) with
  | none => do
    emlog "Cannot create new SEND task\n"
    return -1
  | some task => schedAddTask task

def ApiCall.body : ApiCall → Proc ℤ
  | .emSend msg => if msg.length = 0 then return -1 else coreSend msg
  | .emHasTrigger tid => do
    let t ← trigFindById tid
    return if t.isSome then 1 else 0
  | .emDelTrigger tid => do
    let _ ← trigDelById tid
    return 0

/-- An agent that runs: its shared memory, its two threads, and the thread
that releases it. -/
structure Agent where
  w : World
  net : NetThread
  sch : SchPc
  rel : RelPc

inductive Act
  | net (a : Ans)
  | sched (a : Ans)
  | api (call : ApiCall) (answers : List Ans)
  | release
  deriving DecidableEq, Repr

namespace Agent

def start : Agent where
  w := {
    trig := ⟨[], 1⟩
    net := ⟨-1, false, .notConnected, 0⟩
    sched := ⟨false, [], []⟩
    heap := 0, socks := 0, conns := 0, hist := [] }
  net := ⟨.next, .none⟩
  sch := .loop
  rel := .idle

/-- `core_release_agent`, which waits for each thread it has told to stop. -/
def releaseStep (s : Agent) : Option Agent :=
  match s.rel, s.sch, s.net.pc with
  | .idle, _, _ => some { s with
      w := { s.w with sched := { s.w.sched with stop := true } }, rel := .joinSched }
  | .joinSched, .exit, _ => some { s with rel := .netStop }
  | .netStop, _, _ => some { s with
      w := { s.w with net := { s.w.net with stop := true } }, rel := .joinNet }
  | .joinNet, _, .exit => some { s with rel := .flush }
  | .flush, _, _ => some { s with
      w := { s.w with trig := s.w.trig.trigFlush }, rel := .done }
  | _, _, _ => none

def step (S : Setup) (s : Agent) : Act → Option Agent
  | .net a => (netStep S.proto s.net a s.w).map fun r ↦ { s with net := r.1, w := r.2 }
  | .sched a => (schedStep S s.sch a s.w).map fun r ↦ { s with sch := r.1, w := r.2 }
  -- a call holds the lock on all agents from its beginning to its end
  | .api call answers => (call.body.run exec answers s.w).map fun r ↦ { s with w := r.2 }
  | .release => s.releaseStep

end Agent

def agent (S : Setup) : Library.Machine Agent Act := ⟨Agent.start, Agent.step S⟩

namespace Sample

open Emproto

def byte (m : Bytes) (i : ℕ) : UInt8 := m.getD i 0

def measurement (id : UInt8) : UeMeasurement := ⟨id, 0, 0, 0, 0, 0⟩

/-- A protocol with a header of six bytes: the length in two, then the class
of message, its action, its operation and the module. The measurement ids of
a request are the bytes after the header. -/
def proto : Emproto where
  epHeaderSize := 6
  epRanUsersMax := 4
  eppMsgLength m := 256 * (byte m 0).toNat + (byte m 1).toNat
  eppMsgType m := match byte m 2 with | 0 => .single | 1 => .schedule | 2 => .trigger | _ => .other
  eppSingleType m := match byte m 3 with | 0 => .ecap | 1 => .handover | _ => .invalid
  eppScheduleType m := match byte m 3 with | 0 => .hello | 1 => .cellMeasure | _ => .invalid
  eppTriggerType m :=
    match byte m 3 with | 0 => .ueReport | 1 => .ueMeasure | 2 => .cellMeasure | _ => .invalid
  eppDir _ := .req
  eppSingleOp m := match byte m 4 with | 0 => .rem | 1 => .add | _ => .other
  eppTriggerOp m := match byte m 4 with | 0 => .rem | 1 => .add | _ => .other
  eppHead m := ⟨true, .trigger, 0, (byte m 5).toUInt32⟩
  eppSchedInterval _ := 1000
  eppTriggerUemeasReq m := ⟨true, (m.length : ℤ) - 6, fun i ↦ measurement (byte m (6 + i))⟩
  eppTriggerCellMeasReq _ := ⟨true, ()⟩
  eppSchedCellMeasReq _ := ⟨true, 0⟩
  eppSingleHoReq _ := ⟨false, 0, 0, 0, 0⟩
  eppSingleRanSliceReq _ := ⟨false, 0⟩
  eppSingleRanSliceAdd _ := ⟨false, 0, 0, fun _ ↦ 0, 0, 0⟩
  eppSingleRanSliceRem _ := ⟨false, 0⟩
  eppSingleRanSliceSet _ := ⟨false, 0, 0, fun _ ↦ 0, 0, 0⟩
  epfSeq m n := m.set 5 n.toUInt8
  epfSchedHelloReq _ _ := some [0, 6, 1, 0, 0, 0]
  header_pos := by decide
  header_fits := by decide
  epfSeq_length := by simp

def setup : Setup := ⟨proto, 1, true, true, true, true, true, true, true, true, true, true, true⟩

def after (ms : ℤ) : Timespec := ⟨0, 1000000 * ms⟩

def connect (fd : ℤ) : List Act :=
  [.net .tick, .net (.fd fd), .net (.ok true), .net .tick, .net (.connect none),
    .net (.time (after 0)), .net .tick, .net .tick]

def receive (bytes : Bytes) : Act := .net (.recv (.data bytes))

def reset : List Act := [.net (.recv (.error (.other 104))), .net .tick]

def requestReport : List Act :=
  [receive [0, 6, 2, 0, 1, 7], .net (.ok true), .net (.ok true), .net .tick, .net .tick,
    .net (.ok true), .net (.time (after 0)), .net .tick, .net .tick, .net .tick, .net .tick]

def performSend (n : ℤ) : List Act :=
  [.sched .tick, .sched .tick, .sched (.time (after 2000)), .sched .tick, .sched (.sent n),
    .sched .tick, .sched .tick]

def dropConnection : List Act := [.sched .tick, .sched .tick, .sched .tick]

def emSend (msg : Bytes) : Act :=
  .api (.emSend msg) [.ok true, .ok true, .time (after 0), .tick]

end Sample

end EmpowerAgent
