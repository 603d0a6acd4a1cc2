import EmpowerAgent.Emlist
import EmpowerAgent.Threads

namespace EmpowerAgent

open Library (Nodes)
open Emlist

/-- The list heads of an agent, and the `next` members of tasks and triggers by
which these are linked to them. -/
inductive Node
  | jobs
  | todo
  | ts
  | task (addr : ℕ)
  | trigger (addr : ℕ)
  | poison1
  | poison2
  deriving DecidableEq, Repr

instance : ListPoison Node := ⟨.poison1, .poison2⟩

/-- The memory of an agent with its lists as the code keeps them: what stands
at the addresses of tasks and triggers, and the pointers between them. -/
structure Linked where
  nodes : Nodes Node
  tasks : ℕ → Option Emtask
  triggers : ℕ → Option Emtri
  trigNext : Int32
  net : Netctx
  stop : Bool
  heap : ℕ
  socks : ℕ
  conns : ℕ
  hist : List Event

namespace Linked

variable (c : Linked)

def world (jobs todo : List Emtask) (ts : List Emtri) : World where
  trig := ⟨ts, c.trigNext⟩
  net := c.net
  sched := ⟨c.stop, jobs, todo⟩
  heap := c.heap
  socks := c.socks
  conns := c.conns
  hist := c.hist

def bare : World := c.world [] [] []

def put (w : World) : Linked :=
  { c with
    trigNext := w.trig.next
    net := w.net
    stop := w.sched.stop
    heap := w.heap
    socks := w.socks
    conns := w.conns
    hist := w.hist }

def taskAt : Node → Option Emtask
  | .task addr => c.tasks addr
  | _ => none

def triggerAt : Node → Option Emtri
  | .trigger addr => c.triggers addr
  | _ => none

/-- A task as its owner has filled it in, linked to nothing but itself. -/
def putTask (task : Emtask) : Linked :=
  { c with
    nodes := c.nodes.alloc (.task task.addr) (.task task.addr)
    tasks := Function.update c.tasks task.addr (some task) }

def putTrigger (trig : Emtri) : Linked :=
  { c with
    nodes := c.nodes.alloc (.trigger trig.addr) (.trigger trig.addr)
    triggers := Function.update c.triggers trig.addr (some trig) }

def taskFree (addr : ℕ) : Linked :=
  { c with
    nodes := c.nodes.free (.task addr)
    tasks := Function.update c.tasks addr none
    hist := c.hist ++ [.freed addr] }

def trigFree (addr : ℕ) : Linked :=
  { c with
    nodes := c.nodes.free (.trigger addr)
    triggers := Function.update c.triggers addr none }

/-- A walk visits no more entries than there are addresses. -/
def walk : ℕ := c.heap + 1

def schedAddTask (task : Emtask) : Option (ℤ × Linked) :=
  if c.stop then some (-1, c)
  else do
    let nodes ← listAddTail (c.putTask task).nodes (.task task.addr) .jobs
    return (0, { c.putTask task with nodes, hist := c.hist ++ [.accepted task.addr] })

def trigAdd (trig : Emtri) : Option (Int32 × Linked) := do
  let trig := { trig with id := c.trigNext }
  let nodes ← listAdd (c.putTrigger trig).nodes (.trigger trig.addr) .ts
  return (trig.id, { c.putTrigger trig with
    nodes
    trigNext := c.trigNext + 1
    hist := c.hist ++ [.trigAdded c.conns trig] })

/-- What `trig_del_by_id` and `trig_del_by_inst` do with each trigger. -/
def delBody (p : Emtri → Bool) (pos : Node) (c : Linked) : Option (Option ℤ × Linked) := do
  let t ← c.triggerAt pos
  if p t then
    let nodes ← listDel c.nodes pos
    return (some 0, { c with nodes }.trigFree t.addr)
  else return (none, c)

def delFirst (p : Emtri → Bool) : Option (ℤ × Linked) :=
  (listForEachEntrySafe nodes .ts (delBody p) c.walk c).map fun r ↦ (r.1.getD (-1), r.2)

def findBody (p : Emtri → Bool) (pos : Node) (c : Linked) : Option (Option Emtri × Linked) := do
  let t ← c.triggerAt pos
  return (if p t then some t else none, c)

def find (p : Emtri → Bool) : Option (Option Emtri × Linked) :=
  listForEachEntry nodes .ts (findBody p) c.walk c

def flushBody (pos : Node) (c : Linked) : Option (Option Unit × Linked) := do
  let t ← c.triggerAt pos
  let nodes ← listDel c.nodes pos
  return (none, { c with nodes }.trigFree t.addr)

def trigFlush : Option Linked :=
  (listForEachEntrySafe nodes .ts flushBody c.walk c).map (·.2)

def dumpBody (pos : Node) (c : Linked) : Option (Option Unit × Linked) := do
  let task ← c.taskAt pos
  let nodes ← listDel c.nodes pos
  return (none, { c with nodes }.taskFree task.addr)

/-- The loops that free all tasks of one list. -/
def dump (head : Node) : Option Linked :=
  (listForEachEntrySafe nodes head dumpBody c.walk c).map (·.2)

def moveBody (pos : Node) (c : Linked) : Option (Option Unit × Linked) := do
  let nodes ← listDel c.nodes pos
  let nodes ← listAdd nodes pos .jobs
  return (none, { c with nodes })

/-- The loop at the end of `sched_consume`. -/
def moveBack : Option Linked :=
  (listForEachEntrySafe nodes .todo moveBody c.walk c).map (·.2)

/-- The critical section in which `sched_consume` takes a task. -/
def take : Option (SchPc × Linked) := do
  if ← listEmpty c.nodes .jobs then return (.back, c)
  else
    let pos ← listFirstEntry c.nodes .jobs
    let task ← c.taskAt pos
    let nodes ← listDel c.nodes pos
    return (.clock task, { c with nodes })

def settle (task : Emtask) (now : Timespec) : Outcome → Option (SchPc × Linked)
  | .notElapsed => do
    let nodes ← listAdd c.nodes (.task task.addr) .todo
    return (.take, { c with nodes })
  | .reschedule => do
    let nodes ← listAdd c.nodes (.task task.addr) .todo
    let task' := { task with
      issued := now
      resch := if 0 < task.resch then task.resch - 1 else task.resch }
    return (.take, { c with nodes, tasks := Function.update c.tasks task.addr (some task') })
  | .consumed => some (.take, c.taskFree task.addr)
  | .netError => do
    let c ← (c.taskFree task.addr).dump .todo
    let c ← c.dump .jobs
    return (.flush, c)

def drain : Option (SchPc × Linked) := do
  let c ← c.dump .todo
  let c ← c.dump .jobs
  return (.exit, c)

/-- The operations over the pointers. One that works on no list does what it
does to the rest of the memory. -/
def exec : Library.Proc.Exec Op Op.Res Ans Linked
  | .schedAddTask task, .tick, c => c.schedAddTask task
  | .trigAdd trig, .tick, c => c.trigAdd trig
  | .trigDelById id, .tick, c => c.delFirst fun t ↦ t.id == id
  | .trigDelByInst mod type inst, .tick, c =>
    c.delFirst fun t ↦ t.type == type && t.mod == mod.toUInt32 && t.inst == inst
  | .trigFindById id, .tick, c => c.find fun t ↦ t.id == id
  | o, a, c => (EmpowerAgent.exec o a c.bare).map fun r ↦ (r.1, c.put r.2)

def netStep (E : Emproto) (t : NetThread) (a : Ans) (c : Linked) : Option (NetThread × Linked) :=
  match t.pc, a with
  | .hello, .time now =>
    (schedAddTask { c with heap := c.heap + 1 } (helloTask c.heap now)).map fun r ↦
      (⟨if r.1 = 0 then .store else .undo, t.errno⟩, r.2)
  | .process (.call o k), a =>
    (exec o a c).map fun r ↦ (⟨.process (k r.1), o.errno r.1 t.errno⟩, r.2)
  | _, a => (EmpowerAgent.netStep E t a c.bare).map fun r ↦ (r.1, c.put r.2)

def schedStep (S : Setup) (pc : SchPc) (a : Ans) (c : Linked) : Option (SchPc × Linked) :=
  match pc, a with
  | .take, .tick => c.take
  | .perform task now (.call o k), a => (exec o a c).map fun r ↦ (.perform task now (k r.1), r.2)
  | .settle task now op, .tick => c.settle task now op
  | .flush, .tick => c.trigFlush.map fun c ↦ (.alert, c)
  | .back, .tick => c.moveBack.map fun c ↦ (.loop, c)
  | .drain, .tick => c.drain
  | pc, a => (EmpowerAgent.schedStep S pc a c.bare).map fun r ↦ (r.1, c.put r.2)

end Linked

/-- An agent whose lists are rings of pointers. -/
structure LinkedAgent where
  w : Linked
  net : NetThread
  sch : SchPc
  rel : RelPc

namespace LinkedAgent

def releaseStep (s : LinkedAgent) : Option LinkedAgent :=
  match s.rel with
  | .flush => s.w.trigFlush.map fun w ↦ { s with w, rel := .done }
  | _ => (Agent.releaseStep ⟨s.w.bare, s.net, s.sch, s.rel⟩).map fun r ↦
      { s with w := s.w.put r.w, rel := r.rel }

def step (S : Setup) (s : LinkedAgent) : Act → Option LinkedAgent
  | .net a => (s.w.netStep S.proto s.net a).map fun r ↦ { s with net := r.1, w := r.2 }
  | .sched a => (s.w.schedStep S s.sch a).map fun r ↦ { s with sch := r.1, w := r.2 }
  | .api call answers => (call.body.run Linked.exec answers s.w).map fun r ↦ { s with w := r.2 }
  | .release => s.releaseStep

def start : LinkedAgent where
  w := {
    nodes := (((⟨fun _ ↦ none, fun _ ↦ none⟩ : Nodes Node).alloc .jobs .jobs).alloc .todo
      .todo).alloc .ts .ts
    tasks := fun _ ↦ none
    triggers := fun _ ↦ none
    trigNext := 1
    net := ⟨-1, false, .notConnected, 0⟩
    stop := false
    heap := 0, socks := 0, conns := 0, hist := [] }
  net := ⟨.next, .none⟩
  sch := .loop
  rel := .idle

end LinkedAgent

def linkedAgent (S : Setup) : Library.Machine LinkedAgent Act :=
  ⟨LinkedAgent.start, LinkedAgent.step S⟩

end EmpowerAgent
