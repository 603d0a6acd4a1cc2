import EmpowerAgent.Threads
import EmpowerAgent.Registry
import EmpowerAgent.Library.Locks

namespace EmpowerAgent

open Library

/-- The locks of the library: two for the core, three for each agent. -/
inductive Lock
  | coreMain
  | coreAgents
  | sched (p : ℕ)
  | trig (p : ℕ)
  | net (p : ℕ)
  deriving DecidableEq, Repr

/-- The threads: those that call the library, and two for each agent. -/
inductive ThreadId
  | caller (n : ℕ)
  | sched (p : ℕ)
  | net (p : ℕ)
  deriving DecidableEq, Repr

/-- What `log_fd` is: null, an open file, or one that has been closed. -/
inductive LogFd
  | null
  | opened
  | closed
  deriving DecidableEq, Repr

/-- What is recorded of the log file: how `log_init` ended, what
`log_release` has done to it, and through what `log_message` has written. -/
inductive LogEvent
  | opened
  | failed
  | released
  | wrote (fd : LogFd)
  deriving DecidableEq, Repr

/-- A call on one agent, which is all that a callback may make. -/
inductive Query
  | emSend (enbId : UInt64) (msg : Bytes)
  | emHasTrigger (enbId : UInt64) (tid : Int32)
  | emDelTrigger (enbId : UInt64) (tid : Int32)
  | emIsConnected (enbId : UInt64)
  deriving DecidableEq, Repr

/-- The memory of the process: the core, the log, and that of each agent.
An agent is known by its address. -/
structure Memory where
  agents : List AgentRef
  corrupt : Bool
  coreInit : Bool
  logFd : LogFd
  logged : List LogEvent
  heap : ℕ
  worlds : ℕ → World

namespace World

variable (w : World)

def enqueue (task : Emtask) : World := { w with
  sched := { w.sched with jobs := w.sched.jobs ++ [task] }
  hist := w.hist ++ [.accepted task.addr] }

def stopSched : World := { w with sched := { w.sched with stop := true } }

def stopNet : World := { w with net := { w.net with stop := true } }

def flushTriggers : World := { w with trig := w.trig.trigFlush }

end World

namespace Memory

def start : Memory := ⟨[], false, false, .null, [], 0, fun _ ↦ Agent.start.w⟩

variable (m : Memory)

def setWorld (p : ℕ) (w : World) : Memory := { m with worlds := Function.update m.worlds p w }

theorem setWorld_self (p : ℕ) : m.setWorld p (m.worlds p) = m := by
  simp only [setWorld, Function.update_eq_self]

section Worlds

variable {p q : ℕ} {w w' : World}

theorem setWorld_worlds : (m.setWorld p w).worlds p = w := Function.update_self ..

theorem setWorld_worlds_of_ne (hq : q ≠ p) : (m.setWorld p w).worlds q = m.worlds q :=
  Function.update_of_ne hq ..

theorem setWorld_setWorld : (m.setWorld p w).setWorld p w' = m.setWorld p w' := by
  simp only [setWorld, Function.update_idem]

theorem setWorld_comm (hq : q ≠ p) :
    (m.setWorld q w).setWorld p w' = (m.setWorld p w').setWorld q w := by
  simp only [setWorld, Function.update_comm hq]

end Worlds

def coreInitialize (opens : Bool) : Memory :=
  if m.coreInit then m
  else { m with
    coreInit := true
    logFd := if opens then .opened else .null
    logged := m.logged ++ [if opens then .opened else .failed] }

/-- Both steps of `log_release`, one after the other, leave their mark. -/
def releaseLog (fd : LogFd) : Memory := { m with logFd := fd, logged := m.logged ++ [.released] }

def write : Memory := { m with logged := m.logged ++ [.wrote m.logFd] }

def takeFirst (bogus : ℕ) : ℕ × Memory :=
  match m.agents with
  | [] => (bogus, { m with corrupt := true })
  | a :: agents => (a.ptr, { m with agents })

end Memory

/-- What a thread does to the memory between two operations on locks. -/
inductive Access
  | op (p : ℕ) (o : Op)
  | stopped (p : ℕ)
  | listAddTail (p : ℕ) (task : Emtask)
  | triggers (p : ℕ)
  | status (p : ℕ)
  | net (p : ℕ) (t : NetThread)
  | sched (p : ℕ) (pc : SchPc)
  | stopSched (p : ℕ)
  | stopNet (p : ℕ)
  | trigFlush (p : ℕ)
  | malloc
  | pthreadCreate
  | coreInitialize
  | agents
  | agentsEmpty
  | listAdd (a : AgentRef)
  | listDel (a : AgentRef)
  | takeFirst
  | init
  | calls
  | write
  | logFd
  | fclose
  | clearLog

@[reducible] def Access.Res : Access → Type
  | .op _ o => o.Res
  | .stopped _ => Bool
  | .triggers _ => List Emtri
  | .status _ => ℤ
  | .net _ _ => NetThread
  | .sched _ _ => SchPc
  | .malloc => Option ℕ
  | .pthreadCreate => Bool
  | .agents => List AgentRef
  | .agentsEmpty => Bool
  | .takeFirst => ℕ
  | .init => ℤ
  | .calls => List Query
  | .logFd => Bool
  | .listAddTail _ _ | .stopSched _ | .stopNet _ | .trigFlush _ | .coreInitialize | .listAdd _
  | .listDel _ | .write | .fclose | .clearLog => Unit

/-- What the environment answers. Once the list of agents is corrupt, it
tells what is found there. -/
inductive SysAns
  | ans (a : Ans)
  | agents (as : List AgentRef)
  | calls (cs : List Query)
  | ptr (p : ℕ)
  deriving DecidableEq, Repr

namespace SysAns

variable {α : Type}

def tick (a : SysAns) (x : α) : Option α :=
  match a with
  | .ans .tick => some x
  | _ => none

theorem eq_of_tick {a : SysAns} {x y : α} (h : a.tick x = some y) : x = y := by
  unfold tick at h
  split at h <;> cases h
  rfl

def toAns : SysAns → Option Ans
  | .ans a => some a
  | _ => none

def toBool : SysAns → Option Bool
  | .ans (.ok b) => some b
  | _ => none

def toInt : SysAns → Option ℤ
  | .ans (.sent n) => some n
  | _ => none

def toAgents : SysAns → Option (List AgentRef)
  | .agents as => some as
  | _ => none

def toCalls : SysAns → Option (List Query)
  | .calls cs => some cs
  | _ => none

def toPtr : SysAns → Option ℕ
  | .ptr p => some p
  | _ => none

end SysAns

variable (S : ℕ → Setup)

def access : Library.Proc.Exec Access Access.Res SysAns Memory
  | .op p o, a, m =>
    (a.toAns.bind (exec o · (m.worlds p))).map fun r ↦ (r.1, m.setWorld p r.2)
  | .net p t, a, m =>
    (a.toAns.bind (netStep (S p).proto t · (m.worlds p))).map fun r ↦ (r.1, m.setWorld p r.2)
  | .sched p pc, a, m =>
    (a.toAns.bind (schedStep (S p) pc · (m.worlds p))).map fun r ↦ (r.1, m.setWorld p r.2)
  | .stopped p, a, m => a.tick ((m.worlds p).sched.stop, m)
  | .listAddTail p task, a, m => a.tick ((), m.setWorld p ((m.worlds p).enqueue task))
  | .triggers p, a, m => a.tick ((m.worlds p).trig.ts, m)
  | .status p, a, m => a.tick (if (m.worlds p).net.status = .connected then 1 else 0, m)
  | .stopSched p, a, m => a.tick ((), m.setWorld p (m.worlds p).stopSched)
  | .stopNet p, a, m => a.tick ((), m.setWorld p (m.worlds p).stopNet)
  | .trigFlush p, a, m => a.tick ((), m.setWorld p (m.worlds p).flushTriggers)
  | .malloc, a, m => a.toBool.map fun b ↦
      if b then (some m.heap, { m with heap := m.heap + 1 }) else (none, m)
  | .pthreadCreate, a, m => a.toBool.map fun b ↦ (b, m)
  | .coreInitialize, a, m => a.toBool.map fun opens ↦ ((), m.coreInitialize opens)
  | .agents, a, m =>
    (if m.corrupt then a.toAgents else a.tick m.agents).map fun as ↦ (as, m)
  | .agentsEmpty, a, m =>
    (if m.corrupt then a.toBool else a.tick m.agents.isEmpty).map fun b ↦ (b, m)
  | .listAdd r, a, m => a.tick ((), { m with agents := r :: m.agents })
  | .listDel r, a, m => a.tick ((), { m with agents := m.agents.erase r })
  | .takeFirst, a, m => a.toPtr.map m.takeFirst
  | .init, a, m => a.toInt.map fun ret ↦ (ret, m)
  | .calls, a, m => a.toCalls.map fun cs ↦ (cs, m)
  | .write, a, m => a.tick ((), m.write)
  | .logFd, a, m => a.tick (decide (m.logFd ≠ .null), m)
  -- a null stream is fatal here
  | .fclose, a, m => if m.logFd = .null then none else a.tick ((), m.releaseLog .closed)
  | .clearLog, a, m => a.tick ((), if m.logFd = .null then m else m.releaseLog .null)

abbrev Prog := Locks.Prog Lock ThreadId Access.Res

namespace Prog

def lock (l : Lock) : Prog Unit := Library.Proc.perform (Locks.Op.lock l)

def unlock (l : Lock) : Prog Unit := Library.Proc.perform (Locks.Op.unlock l)

def create (t : ThreadId) : Prog Unit := Library.Proc.perform (Locks.Op.create t)

def join (t : ThreadId) : Prog Unit := Library.Proc.perform (Locks.Op.join t)

def mem (i : Access) : Prog i.Res := Library.Proc.perform (Locks.Op.mem i)

/-- `log_message`, which writes twice. -/
def logMessage : Prog Unit := do
  mem .write
  mem .write

def logRelease : Prog Unit := do
  if ← mem .logFd then do
    mem .fclose
    mem .clearLog
  else return ()

/-- A critical section with one way out. -/
def locked (l : Lock) (i : Access) : Prog i.Res := do
  lock l
  let r ← mem i
  unlock l
  return r

def schedAddTask (p : ℕ) (task : Emtask) : Prog ℤ := do
  lock (.sched p)
  if ← mem (.stopped p) then do
    unlock (.sched p)
    return -1
  else do
    mem (.listAddTail p task)
    unlock (.sched p)
    return 0

/-- The two removals, each by its own test. -/
def trigDel (p : ℕ) (o : Op) (found : Emtri → Bool) (notFound : o.Res) : Prog o.Res := do
  lock (.trig p)
  if (← mem (.triggers p)).any found then do
    let r ← mem (.op p o)
    unlock (.trig p)
    return r
  else do
    unlock (.trig p)
    return notFound

def trigDelById (p : ℕ) (id : Int32) : Prog ℤ :=
  trigDel p (.trigDelById id) (fun t ↦ t.id == id) (-1)

def trigDelByInst (p : ℕ) (mod : Int32) (type : ℤ) (inst : Int32) : Prog ℤ :=
  trigDel p (.trigDelByInst mod type inst)
    (fun t ↦ t.type == type && t.mod == mod.toUInt32 && t.inst == inst) (-1)

def trigFind (p : ℕ) (found : Emtri → Bool) : Prog (Option Emtri) := do
  lock (.trig p)
  match (← mem (.triggers p)).find? found with
  | some t => do
    unlock (.trig p)
    return some t
  | none => do
    unlock (.trig p)
    return none

def trigFindById (p : ℕ) (id : Int32) : Prog (Option Emtri) := trigFind p fun t ↦ t.id == id

def trigFindByInst (p : ℕ) (mod : Int32) (type : ℤ) (inst : Int32) : Prog (Option Emtri) :=
  trigFind p fun t ↦ t.mod == mod.toUInt32 && t.type == type && t.inst == inst

def trigFlush (p : ℕ) : Prog Unit := locked (.trig p) (.trigFlush p)

/-- The operations of a procedure that works for the agent at `p`. -/
def section_ (p : ℕ) : (o : Op) → Prog o.Res
  | .schedAddTask task => schedAddTask p task
  | .trigAdd trig => locked (.trig p) (.op p (.trigAdd trig))
  | .trigDelById id => trigDelById p id
  | .trigDelByInst mod type inst => trigDelByInst p mod type inst
  | .trigFindById id => trigFindById p id
  | .netNextSeq => locked (.net p) (.op p .netNextSeq)
  | .emlog _ => logMessage
  | o => mem (.op p o)

/-- The calls that look for one agent, and what they do when they find it. -/
def withAgent (enbId : UInt64) (notFound : ℤ) (body : ℕ → Prog ℤ) : Prog ℤ := do
  lock .coreAgents
  match (← mem .agents).find? (·.enbId = enbId) with
  | none => do
    unlock .coreAgents
    return notFound
  | some a => do
    let s ← body a.ptr
    unlock .coreAgents
    return s

def query : Query → Prog ℤ
  | .emSend id msg => if msg.length = 0 then return -1
    else withAgent id (-1) fun p ↦ (coreSend msg).expand (section_ p)
  | .emHasTrigger id tid => withAgent id 0 fun p ↦ do
    let t ← trigFindById p tid
    return if t.isSome then 1 else 0
  | .emDelTrigger id tid => withAgent id 0 fun p ↦ do
    let _ ← trigDelById p tid
    return 0
  | .emIsConnected id => withAgent id 0 fun p ↦ mem (.status p)

def queries : List Query → Prog Unit
  | [] => return ()
  | q :: qs => do
    let _ ← query q
    queries qs

/-- The code of the wrapper, which may make any calls on agents, or none. -/
def wrapper : Prog Unit := do queries (← mem .calls)

/-- The operations of a thread of the agent at `p`. -/
def within (p : ℕ) : (o : Op) → Prog o.Res
  | .callback c => do
    mem (.op p (.callback c))
    wrapper
  | o => section_ p o

def schedStart (p : ℕ) : Prog ℤ := do
  if ← mem .pthreadCreate then do
    create (.sched p)
    return 0
  else do
    logMessage
    return -1

def netStart (p : ℕ) : Prog ℤ := do
  if ← mem .pthreadCreate then do
    create (.net p)
    return 0
  else do
    logMessage
    return -1

def schedStop (p : ℕ) : Prog Unit := do
  mem (.stopSched p)
  join (.sched p)

def netStop (p : ℕ) : Prog Unit := do
  mem (.stopNet p)
  join (.net p)

def coreReleaseAgent (p : ℕ) : Prog Unit := do
  schedStop p
  netStop p
  trigFlush p

def emTerminateAgent (enbId : UInt64) : Prog ℤ := do
  lock .coreAgents
  match (← mem .agents).find? (·.enbId = enbId) with
  | none => do
    unlock .coreAgents
    return 0
  | some a => do
    mem (.listDel a)
    unlock .coreAgents
    wrapper
    coreReleaseAgent a.ptr
    return 0

def startAgent (p : ℕ) (enbId : UInt64) : Prog ℤ := do
  if (← schedStart p) ≠ 0 then do
    logMessage
    coreReleaseAgent p
    return -1
  else if (← netStart p) ≠ 0 then do
    logMessage
    coreReleaseAgent p
    return -1
  else do
    wrapper
    let s ← mem .init
    if s < 0 then do
      coreReleaseAgent p
      return s
    else do
      locked .coreAgents (.listAdd ⟨p, enbId⟩)
      return 0

def emStart (enbId : UInt64) : Prog ℤ := do
  locked .coreMain .coreInitialize
  lock .coreAgents
  if (← mem .agents).any (·.enbId = enbId) then do
    unlock .coreAgents
    logMessage
    return -1
  else do
    unlock .coreAgents
    match ← mem .malloc with
    | none => return -1
    | some p => startAgent p enbId

/-- One round of the loop of `em_stop`, which tells whether there is another. -/
def emStop : Prog Bool := do
  -- the list is looked at without the lock
  if ← mem .agentsEmpty then do
    logMessage
    logRelease
    return false
  else do
    let p ← locked .coreAgents .takeFirst
    wrapper
    coreReleaseAgent p
    return true

def netConnected (p : ℕ) : Prog ℤ := do
  match ← (Proc.taskAlloc .hello 2000 (-1) 0 none).expand (section_ p) with
  | none => return -1
  | some h => (Proc.schedAddTask h).expand (section_ p)

end Prog

inductive Call
  | query (q : Query)
  | emStart (enbId : UInt64)
  | emTerminateAgent (enbId : UInt64)
  | emStop

inductive Point
  | call (c : Call)
  | net (p : ℕ) (t : NetThread)
  | sched (p : ℕ) (pc : SchPc)

namespace Prog

def call : Call → Prog (Option Point)
  | .query q => do
    let _ ← query q
    return none
  | .emStart id => do
    let _ ← emStart id
    return none
  | .emTerminateAgent id => do
    let _ ← emTerminateAgent id
    return none
  | .emStop => do return if ← emStop then some (.call .emStop) else none

/-- Whatever goes wrong in `net_connect_to_controller` is logged. -/
def netLog : NetPc → Prog Unit
  | .next => logMessage
  | _ => return ()

def net (p : ℕ) (t : NetThread) : Prog (Option Point) :=
  match t.pc with
  | .exit => return none
  | .socket | .resolve | .again | .connect => do
    let t' ← mem (.net p t)
    netLog t'.pc
    return some (.net p t')
  | .hello => do
    let s ← netConnected p
    return some (.net p ⟨if s = 0 then .store else .undo, t.errno⟩)
  | .process (.call o k) => do
    let r ← within p o
    return some (.net p ⟨.process (k r), t.errno⟩)
  | _ => return some (.net p (← mem (.net p t)))

def disconnected (p : ℕ) : Prog Unit :=
  if (S p).ops.disconnected then wrapper else return ()

def sched (p : ℕ) (pc : SchPc) : Prog (Option Point) :=
  match pc with
  | .exit => return none
  | .take | .settle _ _ _ | .back | .drain =>
    return some (.sched p (← locked (.sched p) (.sched p pc)))
  | .perform task now (.call o k) => do
    let r ← within p o
    return some (.sched p (.perform task now (k r)))
  | .flush => return some (.sched p (← locked (.trig p) (.sched p pc)))
  | .alert => do
    let pc' ← mem (.sched p pc)
    disconnected S p
    return some (.sched p pc')
  | _ => return some (.sched p (← mem (.sched p pc)))

def code : Point → Prog (Option Point)
  | .call c => call c
  | .net p t => net p t
  | .sched p pc => sched S p pc

end Prog

namespace ThreadId

def entry : ThreadId → Point
  | .caller _ => .call .emStop
  | .net p => .net p Agent.start.net
  | .sched p => .sched p Agent.start.sch

def callable : ThreadId → Point → Bool
  | .caller _, .call _ => true
  | _, _ => false

end ThreadId

/-- The whole process, with any number of callers and of agents. -/
def system : Locks.Program Lock ThreadId Access.Res SysAns Point Memory where
  code := Prog.code S
  entry := ThreadId.entry
  callable := ThreadId.callable
  exec := access S
  mem := .start

section Sections

/-- One thread alone, which finds every lock free. -/
def alone :
    Library.Proc.Exec (Locks.Op Lock ThreadId Access) (Locks.Op.Res Access.Res) SysAns Memory
  | .mem i, a, m => access S i a m
  | .lock _, _, m | .unlock _, _, m | .create _, _, m | .join _, _, m => some ((), m)

variable {S} {p : ℕ} {o : Op} {as : List SysAns} {a : SysAns} {m m' : Memory} {r : o.Res}

/-- The memory of one agent has gone through one operation. -/
def Performs (p : ℕ) (o : Op) (m : Memory) (r : o.Res) (m' : Memory) : Prop :=
  ∃ a w, exec o a (m.worlds p) = some (r, w) ∧ m'.worlds = Function.update m.worlds p w

theorem Performs.silent (h : exec o .tick (m.worlds p) = some (r, m.worlds p))
    (hm : m'.worlds = m.worlds) : Performs p o m r m' :=
  ⟨_, _, h, by rw [hm, Function.update_eq_self]⟩

theorem access_op (h : access S (.op p o) a m = some (r, m')) : Performs p o m r m' := by
  obtain ⟨⟨r, w⟩, he, heq⟩ := Option.map_eq_some_iff.mp h
  obtain ⟨a, _, he⟩ := Option.bind_eq_some_iff.mp he
  cases heq
  exact ⟨a, w, he, rfl⟩

theorem locked_run {l : Lock} {i : Access} {x : i.Res}
    (h : (Prog.locked l i).run (alone S) as m = some (x, m')) :
    ∃ a, access S i a m = some (x, m') := by
  obtain ⟨_, as, _, m₁, rfl, he, h⟩ := Library.Proc.run_call h
  cases he
  obtain ⟨a, as, r, m₂, rfl, he, h⟩ := Library.Proc.run_call h
  obtain ⟨_, as, _, m₃, rfl, he', h⟩ := Library.Proc.run_call h
  cases he'
  obtain ⟨rfl, rfl⟩ := Library.Proc.run_pure h
  exact ⟨a, he⟩

theorem mem_run {i : Access} {x : i.Res}
    (h : (Prog.mem i).run (alone S) as m = some (x, m')) : ∃ a, access S i a m = some (x, m') := by
  obtain ⟨a, as, r, m₁, rfl, he, h⟩ := Library.Proc.run_call h
  obtain ⟨rfl, rfl⟩ := Library.Proc.run_pure h
  exact ⟨a, he⟩

theorem unlock_run {α : Type} {l : Lock} {x y : α}
    (h : (do Prog.unlock l; return x : Prog α).run (alone S) as m = some (y, m')) :
    y = x ∧ m' = m := by
  obtain ⟨_, as, _, m₁, rfl, he, h⟩ := Library.Proc.run_call h
  cases he
  exact Library.Proc.run_pure h

theorem schedAddTask_performs {task : Emtask} {x : ℤ}
    (h : (Prog.schedAddTask p task).run (alone S) as m = some (x, m')) :
    Performs p (.schedAddTask task) m x m' := by
  obtain ⟨_, as, _, m₁, rfl, he, h⟩ := Library.Proc.run_call h
  cases he
  obtain ⟨a, as, b, m₂, rfl, he, h⟩ := Library.Proc.run_call h
  cases SysAns.eq_of_tick he
  dsimp only [Library.Proc.bind] at h
  split_ifs at h with hstop
  · obtain ⟨rfl, rfl⟩ := unlock_run h
    refine .silent ?_ rfl
    exact congrArg some (World.schedAddTask_of_stop _ hstop task)
  · obtain ⟨a, as, _, m₃, rfl, he, h⟩ := Library.Proc.run_call h
    cases SysAns.eq_of_tick he
    obtain ⟨rfl, rfl⟩ := unlock_run h
    refine ⟨.tick, _, congrArg some (World.schedAddTask_of_run _ ?_ task), rfl⟩
    simpa using hstop

theorem trigDel_performs {found : Emtri → Bool} {notFound : o.Res}
    (hnone : ∀ w : World, w.trig.ts.any found = false → exec o .tick w = some (notFound, w))
    (h : (Prog.trigDel p o found notFound).run (alone S) as m = some (r, m')) :
    Performs p o m r m' := by
  obtain ⟨_, as, _, m₁, rfl, he, h⟩ := Library.Proc.run_call h
  cases he
  obtain ⟨a, as, ts, m₂, rfl, he, h⟩ := Library.Proc.run_call h
  cases SysAns.eq_of_tick he
  dsimp only [Library.Proc.bind] at h
  split_ifs at h with hfound
  · obtain ⟨a, as, _, m₃, rfl, he, h⟩ := Library.Proc.run_call h
    obtain ⟨rfl, rfl⟩ := unlock_run h
    exact access_op (S := S) he
  · obtain ⟨rfl, rfl⟩ := unlock_run h
    exact .silent (hnone _ (by simpa using hfound)) rfl

theorem trigFindById_performs {id : Int32} {x : Option Emtri}
    (h : (Prog.trigFindById p id).run (alone S) as m = some (x, m')) :
    Performs p (.trigFindById id) m x m' := by
  obtain ⟨_, as, _, m₁, rfl, he, h⟩ := Library.Proc.run_call h
  cases he
  obtain ⟨a, as, ts, m₂, rfl, he, h⟩ := Library.Proc.run_call h
  cases SysAns.eq_of_tick he
  dsimp only [Library.Proc.bind] at h
  split at h
  all_goals
    obtain ⟨rfl, rfl⟩ := unlock_run h
    exact .silent (congrArg (fun t ↦ some (t, _)) ‹_›) rfl

theorem logMessage_run {u : Unit} (h : Prog.logMessage.run (alone S) as m = some (u, m')) :
    m'.worlds = m.worlds := by
  obtain ⟨_, as, _, m₁, rfl, he, h⟩ := Library.Proc.run_call h
  cases SysAns.eq_of_tick he
  obtain ⟨_, he⟩ := mem_run h
  cases SysAns.eq_of_tick he
  rfl

/-- A procedure's operations do in their critical sections, with nothing in
between, what they do in one step. -/
theorem section_performs (h : (Prog.section_ p o).run (alone S) as m = some (r, m')) :
    Performs p o m r m' := by
  cases o with
  | schedAddTask task => exact schedAddTask_performs h
  | trigAdd | netNextSeq =>
    obtain ⟨_, he⟩ := locked_run h
    exact access_op he
  | trigDelById id =>
    refine trigDel_performs (fun w hnone ↦ ?_) h
    simp [exec, Trctx.trigDelById, Trctx.delFirst, hnone]
  | trigDelByInst mod type inst =>
    refine trigDel_performs (fun w hnone ↦ ?_) h
    simp [exec, Trctx.trigDelByInst, Trctx.delFirst, hnone]
  | trigFindById id => exact trigFindById_performs h
  | emlog text => exact .silent rfl (logMessage_run h)
  | malloc | free | clockGettime | useTrig | netSend | callback =>
    obtain ⟨_, he⟩ := mem_run h
    exact access_op he

end Sections

end EmpowerAgent
