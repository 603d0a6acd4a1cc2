import EmpowerAgent.System
import EmpowerAgent.TriggerRuns
import EmpowerAgent.TaskOwnership

namespace EmpowerAgent

open Emproto
open Library.Proc (Exec Ensures Along Protocol Obeys ensures_pure ensures_call)

/-- What a block of memory is allocated for, when it is for no message. -/
inductive Struct
  | emtask
  | emtri
  deriving DecidableEq, Repr

/-- The operations of a handler, in which queueing is one, and which tell what
the memory is for that they take and give back. -/
inductive CallOp
  | malloc (b : Struct)
  | free (b : Struct) (addr : ℕ)
  | schedAddTask (task : Emtask)
  | op (o : Op)

namespace CallOp

@[reducible] def Res : CallOp → Type
  | .malloc _ => Option ℕ
  | .free _ _ => Unit
  | .schedAddTask _ => ℤ
  | .op o => o.Res

def body : (c : CallOp) → Proc c.Res
  | .malloc _ => Proc.malloc
  | .free _ addr => Proc.free addr
  | .schedAddTask task => Proc.schedAddTask task
  | .op o => Proc.perform o

end CallOp

abbrev Handler := Library.Proc CallOp CallOp.Res

namespace Handler

open Library.Proc (expand_bind expand_perform)

variable (E : Emproto)

def malloc (b : Struct) : Handler (Option ℕ) := Library.Proc.perform (CallOp.malloc b)

def free (b : Struct) (addr : ℕ) : Handler Unit := Library.Proc.perform (CallOp.free b addr)

def schedAddTask (task : Emtask) : Handler ℤ := Library.Proc.perform (CallOp.schedAddTask task)

def op (o : Op) : Handler o.Res := Library.Proc.perform (CallOp.op o)

def taskAlloc (type : TaskType) (interval res : ℤ) (trigger : Int32) (msg : Option Bytes) :
    Handler (Option Emtask) := do
  match ← malloc .emtask with
  | none => return none
  | some addr =>
    match msg with
    | none => return some (.init addr type interval res trigger none)
    | some m =>
      match ← op .malloc with
      | none => do
        free .emtask addr
        return none
      | some _ => return some (.init addr type interval res trigger (some m))

/-- The struct of a task; the message that it may have goes before it. -/
def taskFree (task : Emtask) : Handler Unit := free .emtask task.addr

def trigAlloc (mod : UInt32) (type : ℤ) (inst : Int32) (msg : Bytes) :
    Handler (Option Emtri) := do
  match ← malloc .emtri with
  | none => return none
  | some addr =>
    match ← op .malloc with
    | none => do
      free .emtri addr
      return none
    | some _ => return some { addr, id := 0, type, mod, inst, msg }

def netConnected : Handler ℤ := do
  match ← taskAlloc .hello 2000 (-1) 0 none with
  | none => return -1
  | some h => do
    if (← schedAddTask h) ≠ 0 then do
      taskFree h
      return -1
    else return 0

def coreSend (msg : Bytes) : Handler ℤ := do
  match ← taskAlloc .send 1 0 0 (some msg) with
  | none => do
    op (.emlog "Cannot create new SEND task\n")
    return -1
  | some task => schedAddTask task

def netQueueTask (type : TaskType) (interval res : ℤ) (msg : Bytes) : Handler ℤ := do
  match ← taskAlloc type interval res 0 (some msg) with
  | none => return -1
  | some t => schedAddTask t

/-- A trigger is made and added, and a task for it, which is `queued`. -/
def netAddTrigger (mod : UInt32) (type : ℤ) (inst : Int32) (msg : Bytes) (taskType : TaskType)
    (queued : Emtask → Handler ℤ) : Handler ℤ := do
  match ← trigAlloc mod type inst msg with
  | none => do
    op (.emlog "Trigger creation failed!\n")
    return 0
  | some trig => do
    let id ← op (.trigAdd trig)
    op (.useTrig { trig with id })
    match ← taskAlloc taskType 1 0 id none with
    | none => do
      op (.emlog "Cannot create task!\n")
      op (.useTrig { trig with id })
      let _ ← op (.trigDelById id)
      return 0
    | some task => queued task

def ueMeasureDel (mod : UInt32) (rrc : ℕ → UeMeasurement) : ℕ → Handler ℤ
  | 0 => return 0
  | n + 1 => do
    let _ ← op (.trigDelByInst mod.toInt32 TrigType.ueMeas.toInt (UeMeasurement.inst (rrc n)))
    ueMeasureDel mod rrc n

def ueMeasureAdd (mod : UInt32) (rrc : ℕ → UeMeasurement) (msg : Bytes) : ℕ → Handler ℤ
  | 0 => return 0
  | n + 1 =>
    netAddTrigger mod TrigType.ueMeas.toInt (UeMeasurement.inst (rrc n)) msg .ueMeasure
      fun task ↦ do
        let _ ← schedAddTask task
        ueMeasureAdd mod rrc msg n

def netTeUeMeasure (msg : Bytes) : Handler ℤ :=
  let mod := (E.eppHead msg).out.mod
  let m := (E.eppTriggerUemeasReq msg).out
  if E.eppTriggerOp msg ≠ .add then ueMeasureDel mod m.rrc m.nofRrc.toNat
  else ueMeasureAdd mod m.rrc msg m.nofRrc.toNat

def netTeReport (addType remType : ℤ) (taskType : TaskType) (msg : Bytes) : Handler ℤ :=
  let mod := (E.eppHead msg).out.mod
  if E.eppTriggerOp msg = .add then netAddTrigger mod addType 0 msg taskType schedAddTask
  else op (.trigDelByInst mod.toInt32 remType 0)

def netProcessSchedEvent (msg : Bytes) : Handler ℤ :=
  match E.eppScheduleType msg with
  | .invalid => return -1
  | .hello => return 0
  | .cellMeasure =>
    if E.eppDir msg = .req then netQueueTask .cellMeasure (E.eppSchedInterval msg) (-1) msg
    else return 0
  | _ => return 0

def netProcessSingleEvent (msg : Bytes) : Handler ℤ :=
  let request (type : TaskType) : Handler ℤ :=
    if E.eppDir msg = .req then netQueueTask type 1 0 msg else return 0
  match E.eppSingleType msg with
  | .invalid => return -1
  | .hello => return 0
  | .ecap => request .enbSetup
  | .handover => request .ho
  | .ranSetup => request .ranSetup
  | .ranSlice => request .ranSlice
  | _ => return 0

def netProcessTriggerEvent (msg : Bytes) : Handler ℤ :=
  match E.eppTriggerType msg with
  | .invalid => return -1
  | .ueReport => netTeReport E TrigType.ueRep.toInt TrigType.ueRep.toInt .ueReport msg
  | .ueMeasure => netTeUeMeasure E msg
  | .cellMeasure =>
    netTeReport E TaskType.cellMeasure.toInt TrigType.macRep.toInt .cellMeasure msg
  | _ => return 0

def netProcessMessage (msg : Bytes) : Handler ℤ :=
  match E.eppMsgType msg with
  | .single => netProcessSingleEvent E msg
  | .schedule => netProcessSchedEvent E msg
  | .trigger => netProcessTriggerEvent E msg
  | .other => return 0

section Expansion

variable {E} {msg : Bytes}

theorem taskAlloc_expand (type : TaskType) (interval res : ℤ) (trigger : Int32)
    (body : Option Bytes) : (taskAlloc type interval res trigger body).expand CallOp.body =
      Proc.taskAlloc type interval res trigger body := by
  refine congrArg (Proc.malloc >>= ·) (funext fun addr ↦ ?_)
  cases addr with
  | none => rfl
  | some addr =>
    cases body with
    | none => rfl
    | some m =>
      refine congrArg (Proc.malloc >>= ·) (funext fun buf ↦ ?_)
      cases buf <;> rfl

theorem trigAlloc_expand (mod : UInt32) (type : ℤ) (inst : Int32) :
    (trigAlloc mod type inst msg).expand CallOp.body = Proc.trigAlloc mod type inst msg := by
  refine congrArg (Proc.malloc >>= ·) (funext fun addr ↦ ?_)
  cases addr with
  | none => rfl
  | some addr =>
    refine congrArg (Proc.malloc >>= ·) (funext fun buf ↦ ?_)
    cases buf <;> rfl

theorem coreSend_expand : (coreSend msg).expand CallOp.body = EmpowerAgent.coreSend msg := by
  rw [coreSend, expand_bind, taskAlloc_expand, EmpowerAgent.coreSend]
  refine congrArg _ (funext fun r ↦ ?_)
  cases r with
  | none => rfl
  | some task => exact expand_perform _

theorem netQueueTask_expand (type : TaskType) (interval res : ℤ) :
    (netQueueTask type interval res msg).expand CallOp.body =
      EmpowerAgent.netQueueTask type interval res msg := by
  rw [netQueueTask, expand_bind, taskAlloc_expand, EmpowerAgent.netQueueTask]
  refine congrArg _ (funext fun r ↦ ?_)
  cases r with
  | none => rfl
  | some task => exact expand_perform _

theorem netAddTrigger_expand {mod : UInt32} {type : ℤ} {inst : Int32} {taskType : TaskType}
    {queued : Emtask → Handler ℤ} {queued' : Emtask → Proc ℤ}
    (h : ∀ task, (queued task).expand CallOp.body = queued' task) :
    (netAddTrigger mod type inst msg taskType queued).expand CallOp.body =
      EmpowerAgent.netAddTrigger mod type inst msg taskType queued' := by
  rw [netAddTrigger, expand_bind, trigAlloc_expand, EmpowerAgent.netAddTrigger]
  refine congrArg _ (funext fun r ↦ ?_)
  cases r with
  | none => rfl
  | some trig =>
    refine congrArg (Proc.trigAdd trig >>= ·) (funext fun id ↦ ?_)
    refine congrArg (Proc.useTrig { trig with id } >>= ·) (funext fun _ ↦ ?_)
    refine (expand_bind (taskAlloc taskType 1 0 id none) _).trans ?_
    rw [taskAlloc_expand]
    refine congrArg _ (funext fun r ↦ ?_)
    cases r with
    | none => rfl
    | some task => exact h task

theorem ueMeasureDel_expand (mod : UInt32) (rrc : ℕ → UeMeasurement) (n : ℕ) :
    (ueMeasureDel mod rrc n).expand CallOp.body = EmpowerAgent.ueMeasureDel mod rrc n := by
  induction n with
  | zero => rfl
  | succ n ih => exact congrArg (Proc.trigDelByInst _ _ _ >>= ·) (funext fun _ ↦ ih)

theorem ueMeasureAdd_expand (mod : UInt32) (rrc : ℕ → UeMeasurement) (n : ℕ) :
    (ueMeasureAdd mod rrc msg n).expand CallOp.body = EmpowerAgent.ueMeasureAdd mod rrc msg n := by
  induction n with
  | zero => rfl
  | succ n ih =>
    refine netAddTrigger_expand fun task ↦ ?_
    rw [schedAddTask, expand_bind, expand_perform]
    exact congrArg _ (funext fun _ ↦ ih)

theorem netTeReport_expand (addType remType : ℤ) (taskType : TaskType) :
    (netTeReport E addType remType taskType msg).expand CallOp.body =
      EmpowerAgent.netTeReport E addType remType taskType msg := by
  unfold netTeReport EmpowerAgent.netTeReport
  dsimp only
  split_ifs
  · exact netAddTrigger_expand fun task ↦ expand_perform _
  · exact expand_perform _

theorem netTeUeMeasure_expand :
    (netTeUeMeasure E msg).expand CallOp.body = EmpowerAgent.netTeUeMeasure E msg := by
  unfold netTeUeMeasure EmpowerAgent.netTeUeMeasure
  dsimp only
  split_ifs
  · exact ueMeasureDel_expand ..
  · exact ueMeasureAdd_expand ..

theorem netProcessSingleEvent_expand : (netProcessSingleEvent E msg).expand CallOp.body =
    EmpowerAgent.netProcessSingleEvent E msg := by
  have hq (type : TaskType) :
      (if E.eppDir msg = .req then netQueueTask type 1 0 msg else return 0).expand CallOp.body =
        if E.eppDir msg = .req then EmpowerAgent.netQueueTask type 1 0 msg else return 0 := by
    split_ifs
    · exact netQueueTask_expand ..
    · rfl
  unfold netProcessSingleEvent EmpowerAgent.netProcessSingleEvent
  cases E.eppSingleType msg with
  | ecap | handover | ranSetup | ranSlice => exact hq _
  | _ => rfl

theorem netProcessSchedEvent_expand :
    (netProcessSchedEvent E msg).expand CallOp.body = EmpowerAgent.netProcessSchedEvent E msg := by
  unfold netProcessSchedEvent EmpowerAgent.netProcessSchedEvent
  cases E.eppScheduleType msg with
  | hello => exact (ite_self _).symm
  | cellMeasure =>
    dsimp only
    split_ifs
    · exact netQueueTask_expand ..
    · rfl
  | _ => rfl

theorem netProcessMessage_expand (E : Emproto) (msg : Bytes) :
    (netProcessMessage E msg).expand CallOp.body = EmpowerAgent.netProcessMessage E msg := by
  unfold netProcessMessage EmpowerAgent.netProcessMessage
  cases E.eppMsgType msg with
  | single => exact netProcessSingleEvent_expand
  | schedule => exact netProcessSchedEvent_expand
  | trigger =>
    unfold netProcessTriggerEvent EmpowerAgent.netProcessTriggerEvent
    dsimp only
    cases E.eppTriggerType msg with
    | ueReport | cellMeasure => exact netTeReport_expand ..
    | ueMeasure => exact netTeUeMeasure_expand
    | _ => rfl
  | other => rfl

end Expansion

end Handler

def Struct.put (k : Struct) (addr : ℕ) (f : Struct → List ℕ) : Struct → List ℕ :=
  fun k' ↦ if k' = k then addr :: f k' else f k'

/-- What an operation has done with the tasks and the triggers it allocated,
known by their addresses, and the triggers it added, the latest first, each
with the task that was offered to the scheduler for it. -/
structure Books where
  allocated : Struct → List ℕ
  freed : Struct → List ℕ
  accepted : List ℕ
  refused : List ℕ
  added : List (Emtri × Option ℕ)

namespace Books

def empty : Books := ⟨fun _ ↦ [], fun _ ↦ [], [], [], []⟩

/-- A task with the id of the trigger added last is offered for it. -/
def offerFor (id : Int32) (addr : ℕ) : List (Emtri × Option ℕ) → List (Emtri × Option ℕ)
  | (t, none) :: es => if t.id = id then (t, some addr) :: es else (t, none) :: es
  | es => es

def note (b : Books) : (c : CallOp) → c.Res → Books
  | .malloc k, some addr => { b with allocated := k.put addr b.allocated }
  | .free k addr, _ => { b with freed := k.put addr b.freed }
  | .schedAddTask task, (r : ℤ) =>
    let added := offerFor task.trig task.addr b.added
    if r = 0 then { b with accepted := task.addr :: b.accepted, added }
    else { b with refused := task.addr :: b.refused, added }
  | .op (.trigAdd trig), id => { b with added := ({ trig with id }, none) :: b.added }
  | _, _ => b

end Books

/-- What a call meets: whether the agent is told to stop before it, and the
answers to its operations. -/
structure CallAns where
  stops : Bool
  answers : List Ans
  deriving DecidableEq, Repr

def CallAns.before (a : CallAns) (w : World) : World := if a.stops then w.stopSched else w

structure CallState where
  w : World
  books : Books

def execCall : Exec CallOp CallOp.Res CallAns CallState := fun c a s ↦
  (c.body.run exec a.answers (a.before s.w)).map fun r ↦ (r.1, ⟨r.2, s.books.note c r.1⟩)

/-- What the library does with a message, received or to be sent. -/
inductive Operation
  | received (msg : Bytes)
  | emSend (msg : Bytes)
  deriving DecidableEq, Repr

namespace Operation

variable (E : Emproto)

def body : Operation → Proc ℤ
  | .received msg => netProcessMessage E msg
  | .emSend msg => (ApiCall.emSend msg).body

def calls : Operation → Handler ℤ
  | .received msg => Handler.netProcessMessage E msg
  | .emSend msg => if msg.length = 0 then return -1 else Handler.coreSend msg

theorem calls_expand (op : Operation) : (op.calls E).expand CallOp.body = op.body E := by
  cases op with
  | received msg => exact Handler.netProcessMessage_expand E msg
  | emSend msg =>
    simp only [calls, body, ApiCall.body]
    split_ifs
    · rfl
    · exact Handler.coreSend_expand

end Operation

/-- Nothing is left half done: each task allocated has been accepted or freed,
once, and each trigger added or freed; and a trigger added is live exactly
where its task was accepted. -/
structure NothingLeft (s : CallState) : Prop where
  tasks : ∀ n ∈ s.books.allocated .emtask,
    s.books.accepted.count n + (s.books.freed .emtask).count n = 1
  trigs : ∀ n ∈ s.books.allocated .emtri,
    (s.books.added.map (·.1.addr)).count n + (s.books.freed .emtri).count n = 1
  live : ∀ e ∈ s.books.added, e.1 ∈ s.w.trig.ts ↔ ∃ n ∈ e.2, n ∈ s.books.accepted

/-- `sched_add_task` is not called on a scheduler that is stopping. -/
def Unstopped (c : CallOp) (a : CallAns) (s : CallState) : Prop :=
  match c with
  | .schedAddTask _ => (a.before s.w).sched.stop = false
  | _ => True

instance (c : CallOp) (a : CallAns) (s : CallState) : Decidable (Unstopped c a s) :=
  match c with
  | .schedAddTask _ => inferInstanceAs (Decidable ((a.before s.w).sched.stop = false))
  | .malloc _ | .free _ _ | .op _ => inferInstanceAs (Decidable True)

section Calls

variable {w w' : World} {as : List Ans} {s s' : CallState} {a : CallAns}

@[simp] theorem CallAns.before_trig (a : CallAns) (w : World) : (a.before w).trig = w.trig := by
  unfold before
  split_ifs <;> rfl

@[simp] theorem CallAns.before_heap (a : CallAns) (w : World) : (a.before w).heap = w.heap := by
  unfold before
  split_ifs <;> rfl

theorem execCall_run {c : CallOp} {r : c.Res} (h : execCall c a s = some (r, s')) :
    c.body.run exec a.answers (a.before s.w) = some (r, s'.w) ∧ s'.books = s.books.note c r := by
  obtain ⟨⟨r, w⟩, hr, heq⟩ := Option.map_eq_some_iff.mp h
  cases heq
  exact ⟨hr, rfl⟩

theorem perform_effect {o : Op} {r : o.Res} (h : (Proc.perform o).run exec as w = some (r, w')) :
    Effect o w r w' := by
  obtain ⟨a, as, x, w₁, rfl, he, h⟩ := Library.Proc.run_call h
  obtain ⟨rfl, rfl⟩ := Library.Proc.run_pure h
  exact exec_effect he

theorem schedAddTask_run {task : Emtask} {r : ℤ}
    (h : (Proc.schedAddTask task).run exec as w = some (r, w')) :
    (r = 0 ↔ w.sched.stop = false) ∧ w'.trig = w.trig ∧ w'.heap = w.heap := by
  obtain ⟨a, as, now, w₁, rfl, he, h⟩ := Library.Proc.run_call h
  cases exec_effect he
  cases perform_effect h with
  | refused hstop => exact ⟨by simp [hstop], rfl, rfl⟩
  | accepted hstop => exact ⟨by simp [hstop], rfl, rfl⟩

end Calls

section Accounts

def Books.settled (b : Books) : Struct → List ℕ
  | .emtask => b.accepted ++ b.refused
  | .emtri => b.added.map (·.1.addr)

/-- What an operation still has in its hands: the tasks it has not offered to
the scheduler and the triggers it has not added, neither given back, and a
trigger for which it has not offered the task. -/
structure InHand (pending : Option Emtri) (held : Struct → List ℕ) (s : CallState) : Prop where
  balance : ∀ k n, (s.books.settled k).count n + (s.books.freed k).count n + (held k).count n =
    (s.books.allocated k).count n
  once : ∀ k, (s.books.allocated k).Nodup
  below : ∀ k, ∀ n ∈ s.books.allocated k, n < s.w.heap
  fresh : ∀ t ∈ s.w.trig.ts, t.addr < s.w.heap ∧ t.addr ∉ held .emtri
  added : ∀ e ∈ s.books.added, (e.1 ∈ s.w.trig.ts ↔ e.2.isSome ∨ pending = some e.1) ∧
    ∀ n ∈ e.2, n ∈ s.books.accepted ∨ n ∈ s.books.refused
  head : ∀ t ∈ pending, ∃ ts es, s.w.trig.ts = t :: ts ∧ s.books.added = (t, none) :: es ∧
    t ∉ ts ∧ ∀ e ∈ es, e.1 ≠ t

def nothing : Struct → List ℕ := fun _ ↦ []

variable {s s' : CallState} {pending : Option Emtri} {held : Struct → List ℕ} {k : Struct} {n : ℕ}

@[simp] theorem Struct.count_put (k k' : Struct) (addr m : ℕ) (f : Struct → List ℕ) :
    (k.put addr f k').count m = (f k').count m + if k' = k ∧ addr = m then 1 else 0 := by
  unfold put
  by_cases hk : k' = k <;> simp [hk, List.count_cons]

@[simp] theorem Struct.mem_put {k k' : Struct} {addr m : ℕ} {f : Struct → List ℕ} :
    m ∈ k.put addr f k' ↔ k' = k ∧ m = addr ∨ m ∈ f k' := by
  unfold put
  by_cases hk : k' = k <;> simp [hk]

theorem InHand.held_once (h : InHand pending (k.put n held) s) :
    n < s.w.heap ∧ n ∉ s.books.settled k ∧ n ∉ held k := by
  have hbal := h.balance k n
  have hone := List.nodup_iff_count_le_one.mp (h.once k) n
  simp only [Struct.count_put, and_self, if_true] at hbal
  refine ⟨h.below k n (List.count_pos_iff.mp (by omega)), ?_, ?_⟩
  · exact fun hmem ↦ absurd (List.count_pos_iff.mpr hmem) (by omega)
  · exact fun hmem ↦ absurd (List.count_pos_iff.mpr hmem) (by omega)

theorem InHand.same (h : InHand pending held s) (ht : s'.w.trig = s.w.trig)
    (hh : s.w.heap ≤ s'.w.heap) (hb : s'.books = s.books) : InHand pending held s' where
  balance := hb ▸ h.balance
  once := hb ▸ h.once
  below := hb ▸ fun k n hn ↦ Nat.lt_of_lt_of_le (h.below k n hn) hh
  fresh := ht ▸ fun t hm ↦ ⟨Nat.lt_of_lt_of_le (h.fresh t hm).1 hh, (h.fresh t hm).2⟩
  added := by
    rw [hb, ht]
    exact h.added
  head := by
    rw [hb, ht]
    exact h.head

theorem InHand.malloc (h : InHand pending held s) (ht : s'.w.trig = s.w.trig)
    (hh : s'.w.heap = s.w.heap + 1)
    (hb : s'.books = { s.books with allocated := k.put s.w.heap s.books.allocated }) :
    InHand pending (k.put s.w.heap held) s' := by
  have hsettled (k' : Struct) : s'.books.settled k' = s.books.settled k' := by
    rw [hb]
    cases k' <;> rfl
  refine ⟨fun k' m ↦ ?_, fun k' ↦ ?_, fun k' m hm ↦ ?_, fun t hmem ↦ ?_, ?_, ?_⟩
  · have hbal := h.balance k' m
    rw [hsettled]
    simp only [hb, Struct.count_put]
    omega
  · rw [hb]
    unfold Struct.put
    dsimp only
    split_ifs with hk
    · exact List.nodup_cons.mpr ⟨fun hm ↦ Nat.lt_irrefl _ (h.below k' _ hm), h.once k'⟩
    · exact h.once k'
  · rw [hb] at hm
    rcases Struct.mem_put.mp hm with ⟨_, rfl⟩ | hm
    · omega
    · exact hh ▸ Nat.lt_succ_of_lt (h.below k' m hm)
  · rw [ht] at hmem
    obtain ⟨hlt, hnot⟩ := h.fresh t hmem
    refine ⟨by omega, fun hput ↦ ?_⟩
    rcases Struct.mem_put.mp hput with ⟨_, heq⟩ | hput
    · omega
    · exact hnot hput
  · rw [hb, ht]
    exact h.added
  · rw [hb, ht]
    exact h.head

theorem InHand.free (h : InHand pending (k.put n held) s) (ht : s'.w.trig = s.w.trig)
    (hh : s'.w.heap = s.w.heap)
    (hb : s'.books = { s.books with freed := k.put n s.books.freed }) :
    InHand pending held s' := by
  have hsettled (k' : Struct) : s'.books.settled k' = s.books.settled k' := by
    rw [hb]
    cases k' <;> rfl
  refine ⟨fun k' m ↦ ?_, hb ▸ h.once, hb ▸ hh ▸ h.below, fun t hmem ↦ ?_, ?_, ?_⟩
  · have hbal := h.balance k' m
    rw [hsettled]
    simp only [hb, Struct.count_put] at hbal ⊢
    omega
  · rw [ht] at hmem
    obtain ⟨hlt, hnot⟩ := h.fresh t hmem
    exact ⟨hh ▸ hlt, fun hm ↦ hnot (Struct.mem_put.mpr (.inr hm))⟩
  · rw [hb, ht]
    exact h.added
  · rw [hb, ht]
    exact h.head

theorem InHand.trigAdd {trig : Emtri} (h : InHand none (Struct.put .emtri trig.addr held) s)
    (hw : s'.w = (s.w.trigAdd trig).2)
    (hb : s'.books = { s.books with
      added := ({ trig with id := s.w.trig.next }, none) :: s.books.added }) :
    InHand (some { trig with id := s.w.trig.next }) held s' := by
  have hts : s'.w.trig.ts = { trig with id := s.w.trig.next } :: s.w.trig.ts := by rw [hw]; rfl
  have hheap : s'.w.heap = s.w.heap := by rw [hw]; rfl
  obtain ⟨hlt, hunadded, hnot⟩ := h.held_once
  have hne {t : Emtri} (ht : t.addr ≠ trig.addr) : t ≠ { trig with id := s.w.trig.next } :=
    fun heq ↦ ht (by rw [heq])
  have hlive (t : Emtri) (hm : t ∈ s.w.trig.ts) : t.addr ≠ trig.addr :=
    fun heq ↦ (h.fresh t hm).2 (Struct.mem_put.mpr (.inl ⟨rfl, heq⟩))
  have hbefore (e : Emtri × Option ℕ) (he : e ∈ s.books.added) : e.1.addr ≠ trig.addr :=
    fun heq ↦ hunadded (heq ▸ List.mem_map_of_mem he)
  refine ⟨fun k m ↦ ?_, hb ▸ h.once, hb ▸ hheap ▸ h.below, ?_, ?_, ?_⟩
  · have hbal := h.balance k m
    rw [hb]
    cases k with
    | emtask => simpa [Books.settled] using hbal
    | emtri =>
      simp only [Books.settled, List.map_cons, List.count_cons, beq_iff_eq, Struct.count_put,
        true_and] at hbal ⊢
      omega
  · rw [hts, hheap]
    refine List.forall_mem_cons.mpr ⟨⟨hlt, hnot⟩, fun t hm ↦ ?_⟩
    obtain ⟨hold, hput⟩ := h.fresh t hm
    exact ⟨hold, fun hheld ↦ hput (Struct.mem_put.mpr (.inr hheld))⟩
  · rw [hb, hts]
    refine List.forall_mem_cons.mpr ⟨⟨by simp, by simp⟩, fun e he ↦ ?_⟩
    obtain ⟨hlive', htask⟩ := h.added e he
    have hother := hne (hbefore e he)
    refine ⟨?_, htask⟩
    simpa [hother, Ne.symm hother] using hlive'
  · rintro t ⟨⟩
    refine ⟨s.w.trig.ts, s.books.added, hts, by rw [hb], fun hm ↦ ?_, fun e he ↦ ?_⟩
    · exact hlive _ hm rfl
    · exact hne (hbefore e he)

theorem InHand.takeBack {t : Emtri} (h : InHand (some t) held s)
    (hw : s'.w = { s.w with trig := (s.w.trig.trigDelById t.id).2 }) (hb : s'.books = s.books) :
    InHand none held s' := by
  obtain ⟨ts, es, hts, hes, hnot, hother⟩ := h.head t rfl
  have hts' : s'.w.trig.ts = ts := by
    rw [hw]
    simp [Trctx.trigDelById, Trctx.delFirst_ts, hts]
  have hheap : s'.w.heap = s.w.heap := by rw [hw]
  refine ⟨hb ▸ h.balance, hb ▸ h.once, hb ▸ hheap ▸ h.below, ?_, ?_, by simp⟩
  · rw [hts', hheap]
    exact fun u hu ↦ h.fresh u (hts ▸ List.mem_cons_of_mem _ hu)
  · rw [hb, hts']
    intro e he
    obtain ⟨hlive, htask⟩ := h.added e he
    refine ⟨?_, htask⟩
    rw [hes] at he
    rcases List.mem_cons.mp he with rfl | he
    · simp [hnot]
    · have hne := hother e he
      simpa [hts, hne, Ne.symm hne] using hlive

theorem InHand.removed (h : InHand none held s) (hadded : s.books.added = [])
    (hsub : s'.w.trig.ts ⊆ s.w.trig.ts) (hheap : s'.w.heap = s.w.heap)
    (hb : s'.books = s.books) : InHand none held s' where
  balance := hb ▸ h.balance
  once := hb ▸ h.once
  below := hb ▸ hheap ▸ h.below
  fresh := hheap ▸ fun t ht ↦ h.fresh t (hsub ht)
  added := by
    rw [hb, hadded]
    exact List.forall_mem_nil _
  head := by simp

theorem InHand.offer {trigger : Int32} {accepted refused : List ℕ}
    (h : InHand pending (Struct.put .emtask n held) s) (ht : s'.w.trig = s.w.trig)
    (hh : s'.w.heap = s.w.heap)
    (hfor : pending = none ∧ s.books.added = [] ∨ ∃ t, pending = some t ∧ t.id = trigger)
    (hb : s'.books = { s.books with
      accepted, refused, added := Books.offerFor trigger n s.books.added })
    (hr : accepted = n :: s.books.accepted ∧ refused = s.books.refused ∨
      accepted = s.books.accepted ∧ refused = n :: s.books.refused) :
    InHand none held s' := by
  have hnow : n ∈ accepted ∨ n ∈ refused := by rcases hr with ⟨rfl, rfl⟩ | ⟨rfl, rfl⟩ <;> simp
  have hgrown (m : ℕ) (hm : m ∈ s.books.accepted ∨ m ∈ s.books.refused) :
      m ∈ accepted ∨ m ∈ refused := by
    rcases hr with ⟨rfl, rfl⟩ | ⟨rfl, rfl⟩
    · exact hm.imp_left (List.mem_cons_of_mem n)
    · exact hm.imp_right (List.mem_cons_of_mem n)
  have hcount (m : ℕ) : (accepted ++ refused).count m =
      (s.books.accepted ++ s.books.refused).count m + if n = m then 1 else 0 := by
    rcases hr with ⟨rfl, rfl⟩ | ⟨rfl, rfl⟩
    all_goals
      simp only [List.count_append, List.count_cons, beq_iff_eq]
      omega
  have hsame : (Books.offerFor trigger n s.books.added).map (·.1.addr) =
      s.books.added.map (·.1.addr) := by
    unfold Books.offerFor
    split
    · rename_i heq
      rw [heq]
      split_ifs <;> rfl
    · rfl
  refine ⟨fun k m ↦ ?_, hb ▸ h.once, hb ▸ hh ▸ h.below, ?_, ?_, by simp⟩
  · have hbal := h.balance k m
    rw [hb]
    cases k with
    | emtask =>
      simp only [Books.settled, hcount, Struct.count_put, true_and] at hbal ⊢
      omega
    | emtri => simpa [Books.settled, hsame] using hbal
  · rw [ht, hh]
    simpa using h.fresh
  · rw [hb, ht]
    rcases hfor with ⟨rfl, hnil⟩ | ⟨t, rfl, hid⟩
    · rw [hnil]
      exact List.forall_mem_nil _
    · obtain ⟨ts, es, hts, hes, hnot, hother⟩ := h.head t rfl
      have hc : Books.offerFor trigger n s.books.added = (t, some n) :: es := by
        rw [hes, Books.offerFor, if_pos hid]
      dsimp only
      rw [hc]
      refine List.forall_mem_cons.mpr ⟨⟨by simp [hts], ?_⟩, fun e he ↦ ?_⟩
      · rintro m ⟨⟩
        exact hnow
      · obtain ⟨hlive, htask⟩ := h.added e (hes ▸ List.mem_cons_of_mem _ he)
        refine ⟨?_, fun m hm ↦ hgrown m (htask m hm)⟩
        rw [hlive]
        have hne : some t ≠ some e.1 := fun heq ↦ hother e he (Option.some.inj heq).symm
        simp [hne]

end Accounts

section Handlers

variable {s s' : CallState} {pending : Option Emtri} {held : Struct → List ℕ} {a : CallAns}

abbrev Finishes (p : Handler ℤ) (s : CallState) : Prop :=
  Ensures execCall (fun _ ↦ True) p s fun _ s' ↦ InHand none nothing s'

theorem InHand.before (h : InHand pending held s) (a : CallAns) :
    InHand pending held ⟨a.before s.w, s.books⟩ :=
  h.same (a.before_trig s.w) (Nat.le_of_eq (a.before_heap s.w).symm) rfl

theorem execCall_op {o : Op} {r : o.Res} (h : execCall (.op o) a s = some (r, s')) :
    ∃ w', Effect o (a.before s.w) r w' ∧ s' = ⟨w', s.books.note (.op o) r⟩ := by
  obtain ⟨hr, hb⟩ := execCall_run h
  exact ⟨s'.w, perform_effect hr, by rw [← hb]⟩

theorem InHand.aside {o : Op} {r : o.Res} (h : InHand pending held s)
    (ho : (∃ text, o = .emlog text) ∨ (∃ trig, o = .useTrig trig) ∨ o = .malloc)
    (he : execCall (.op o) a s = some (r, s')) :
    InHand pending held s' ∧ s'.books.added = s.books.added := by
  obtain ⟨w', heff, rfl⟩ := execCall_op he
  have hv := h.before a
  generalize a.before s.w = w at heff hv
  rcases ho with ⟨text, rfl⟩ | ⟨trig, rfl⟩ | rfl
  · cases heff
    exact ⟨hv, rfl⟩
  · cases heff
    exact ⟨hv, rfl⟩
  · cases heff with
    | mallocFail => exact ⟨hv, rfl⟩
    | malloc => exact ⟨hv.same rfl (Nat.le_succ _) rfl, rfl⟩

theorem InHand.mallocs {k : Struct} {r : Option ℕ} (h : InHand pending held s)
    (he : execCall (.malloc k) a s = some (r, s')) : s'.books.added = s.books.added ∧
      match r with
      | none => InHand pending held s'
      | some n => InHand pending (k.put n held) s' := by
  obtain ⟨hr, hb⟩ := execCall_run he
  have heff : Effect .malloc (a.before s.w) r s'.w := perform_effect hr
  have hv := h.before a
  generalize a.before s.w = w at heff hv
  cases r with
  | none =>
    cases heff
    exact ⟨by rw [hb]; rfl, hv.same rfl (Nat.le_refl _) hb⟩
  | some n =>
    generalize hw : s'.w = w' at heff
    cases heff
    exact ⟨by rw [hb]; rfl, hv.malloc (by rw [hw]) (by rw [hw]) hb⟩

theorem InHand.frees {k : Struct} {n : ℕ} {r : Unit} (h : InHand pending (k.put n held) s)
    (he : execCall (.free k n) a s = some (r, s')) :
    InHand pending held s' ∧ s'.books.added = s.books.added := by
  obtain ⟨hr, hb⟩ := execCall_run he
  have heff : Effect (.free n) (a.before s.w) r s'.w := perform_effect hr
  have hv := h.before a
  generalize a.before s.w = w at heff hv
  generalize hw : s'.w = w' at heff
  cases heff
  exact ⟨hv.free (by rw [hw]) (by rw [hw]) hb, by rw [hb]; rfl⟩

theorem op_finishes {o : Op} {k : o.Res → Handler ℤ} (h : InHand pending held s)
    (ho : (∃ text, o = .emlog text) ∨ ∃ trig, o = .useTrig trig)
    (hk : ∀ r s', InHand pending held s' → s'.books.added = s.books.added → Finishes (k r) s') :
    Finishes (Handler.op o >>= k) s := by
  refine ensures_call fun a r s' _ he ↦ ?_
  obtain ⟨h', hadded⟩ := h.aside (ho.imp_right .inl) he
  exact hk r s' h' hadded

theorem schedAddTask_finishes {task : Emtask} {k : ℤ → Handler ℤ}
    (h : InHand pending (Struct.put .emtask task.addr held) s)
    (hfor : pending = none ∧ s.books.added = [] ∨ ∃ t, pending = some t ∧ t.id = task.trig)
    (hk : ∀ r s', InHand none held s' → Finishes (k r) s') :
    Finishes (Handler.schedAddTask task >>= k) s := by
  refine ensures_call fun a r s' _ he ↦ hk r s' ?_
  obtain ⟨hr, hb⟩ := execCall_run he
  obtain ⟨_, ht, hh⟩ := schedAddTask_run hr
  rw [CallAns.before_trig] at ht
  rw [CallAns.before_heap] at hh
  simp only [Books.note] at hb
  split_ifs at hb
  · exact h.offer ht hh hfor hb (.inl ⟨rfl, rfl⟩)
  · exact h.offer ht hh hfor hb (.inr ⟨rfl, rfl⟩)

theorem taskAlloc_ensures_inHand (type : TaskType) (interval res : ℤ) (trigger : Int32)
    (msg : Option Bytes) (h : InHand pending held s) : Ensures execCall (fun _ ↦ True)
      (Handler.taskAlloc type interval res trigger msg) s fun r s' ↦
        s'.books.added = s.books.added ∧ match r with
        | none => InHand pending held s'
        | some task =>
          task.trig = trigger ∧ InHand pending (Struct.put .emtask task.addr held) s' := by
  refine ensures_call fun a r s₁ _ he ↦ ?_
  obtain ⟨hadded, h₁⟩ := h.mallocs he
  cases r with
  | none => exact ensures_pure ⟨hadded, h₁⟩
  | some addr =>
    cases msg with
    | none => exact ensures_pure ⟨hadded, rfl, h₁⟩
    | some m =>
      refine ensures_call fun a r s₂ _ he ↦ ?_
      obtain ⟨h₂, hadded₂⟩ := h₁.aside (.inr (.inr rfl)) he
      cases r with
      | none =>
        refine ensures_call fun a _ s₃ _ he ↦ ensures_pure ?_
        obtain ⟨h₃, hadded₃⟩ := h₂.frees he
        exact ⟨hadded₃.trans (hadded₂.trans hadded), h₃⟩
      | some buf => exact ensures_pure ⟨hadded₂.trans hadded, rfl, h₂⟩

theorem trigAlloc_ensures_inHand (mod : UInt32) (type : ℤ) (inst : Int32) (msg : Bytes)
    (h : InHand pending held s) : Ensures execCall (fun _ ↦ True)
      (Handler.trigAlloc mod type inst msg) s fun r s' ↦ match r with
        | none => InHand pending held s'
        | some trig => InHand pending (Struct.put .emtri trig.addr held) s' := by
  refine ensures_call fun a r s₁ _ he ↦ ?_
  obtain ⟨_, h₁⟩ := h.mallocs he
  cases r with
  | none => exact ensures_pure h₁
  | some addr =>
    refine ensures_call fun a r s₂ _ he ↦ ?_
    obtain ⟨h₂, _⟩ := h₁.aside (.inr (.inr rfl)) he
    cases r with
    | none => exact ensures_call fun a _ s₃ _ he ↦ ensures_pure (h₂.frees he).1
    | some buf => exact ensures_pure h₂

theorem netQueueTask_finishes (type : TaskType) (interval res : ℤ) (msg : Bytes)
    (h : InHand none nothing s) (hadded : s.books.added = []) :
    Finishes (Handler.netQueueTask type interval res msg) s := by
  refine (taskAlloc_ensures_inHand type interval res 0 (some msg) h).bind fun r s₁ h₁ ↦ ?_
  obtain ⟨hsame, h₁⟩ := h₁
  cases r with
  | none => exact ensures_pure h₁
  | some task =>
    exact schedAddTask_finishes h₁.2 (.inl ⟨rfl, hsame.trans hadded⟩) fun _ _ h₂ ↦ ensures_pure h₂

theorem coreSend_finishes (msg : Bytes) (h : InHand none nothing s) (hadded : s.books.added = []) :
    Finishes (Handler.coreSend msg) s := by
  refine (taskAlloc_ensures_inHand .send 1 0 0 (some msg) h).bind fun r s₁ h₁ ↦ ?_
  obtain ⟨hsame, h₁⟩ := h₁
  cases r with
  | none => exact op_finishes h₁ (.inl ⟨_, rfl⟩) fun _ _ h₂ _ ↦ ensures_pure h₂
  | some task =>
    exact schedAddTask_finishes h₁.2 (.inl ⟨rfl, hsame.trans hadded⟩) fun _ _ h₂ ↦ ensures_pure h₂

theorem netAddTrigger_finishes {mod : UInt32} {type : ℤ} {inst : Int32} {msg : Bytes}
    {taskType : TaskType} {queued : Emtask → Handler ℤ} (h : InHand none nothing s)
    (hqueued : ∀ t task s', t.id = task.trig →
      InHand (some t) (Struct.put .emtask task.addr nothing) s' → Finishes (queued task) s') :
    Finishes (Handler.netAddTrigger mod type inst msg taskType queued) s := by
  refine (trigAlloc_ensures_inHand mod type inst msg h).bind fun r s₁ h₁ ↦ ?_
  cases r with
  | none => exact op_finishes h₁ (.inl ⟨_, rfl⟩) fun _ _ h₂ _ ↦ ensures_pure h₂
  | some trig =>
    refine ensures_call fun a id s₂ _ he ↦ ?_
    obtain ⟨w', heff, rfl⟩ := execCall_op he
    have hv := h₁.before a
    generalize a.before s₁.w = w at heff hv
    cases heff
    have h₂ : InHand (some { trig with id := w.trig.next }) nothing ⟨(w.trigAdd trig).2,
        { s₁.books with added := ({ trig with id := w.trig.next }, none) :: s₁.books.added }⟩ :=
      hv.trigAdd rfl rfl
    refine op_finishes h₂ (.inr ⟨_, rfl⟩) fun _ s₃ h₃ _ ↦ ?_
    refine (taskAlloc_ensures_inHand taskType 1 0 w.trig.next none h₃).bind fun r s₄ h₄ ↦ ?_
    obtain ⟨_, h₄⟩ := h₄
    cases r with
    | none =>
      refine op_finishes h₄ (.inl ⟨_, rfl⟩) fun _ s₅ h₅ _ ↦ ?_
      refine op_finishes h₅ (.inr ⟨_, rfl⟩) fun _ s₆ h₆ _ ↦ ?_
      refine ensures_call fun a _ s₇ _ he ↦ ?_
      obtain ⟨w', heff, rfl⟩ := execCall_op he
      have hv := h₆.before a
      generalize a.before s₆.w = w at heff hv
      cases heff
      exact ensures_pure (hv.takeBack rfl rfl)
    | some task => exact hqueued _ task s₄ h₄.1.symm h₄.2

theorem ueMeasureAdd_finishes (mod : UInt32) (rrc : ℕ → UeMeasurement) (msg : Bytes) (n : ℕ)
    (h : InHand none nothing s) : Finishes (Handler.ueMeasureAdd mod rrc msg n) s := by
  induction n generalizing s with
  | zero => exact ensures_pure h
  | succ n ih =>
    refine netAddTrigger_finishes h fun t task s' hid h' ↦ ?_
    -- whether the task is taken or refused, the loop goes on
    exact schedAddTask_finishes h' (.inr ⟨t, rfl, hid⟩) fun _ s'' h'' ↦ ih h''

theorem trigDelByInst_keeps {mod inst : Int32} {type : ℤ} {r : ℤ} (h : InHand none nothing s)
    (hadded : s.books.added = [])
    (he : execCall (.op (.trigDelByInst mod type inst)) a s = some (r, s')) :
    InHand none nothing s' ∧ s'.books.added = [] := by
  obtain ⟨w', heff, rfl⟩ := execCall_op he
  have hv := h.before a
  generalize a.before s.w = w at heff hv
  cases heff
  exact ⟨hv.removed hadded (Trctx.trigDelByInst_subset ..) rfl rfl, hadded⟩

theorem ueMeasureDel_finishes (mod : UInt32) (rrc : ℕ → UeMeasurement) (n : ℕ)
    (h : InHand none nothing s) (hadded : s.books.added = []) :
    Finishes (Handler.ueMeasureDel mod rrc n) s := by
  induction n generalizing s with
  | zero => exact ensures_pure h
  | succ n ih =>
    refine ensures_call fun a r s' _ he ↦ ?_
    obtain ⟨h', hadded'⟩ := trigDelByInst_keeps h hadded he
    exact ih h' hadded'

variable {E : Emproto} {msg : Bytes}

theorem netTeReport_finishes (addType remType : ℤ) (taskType : TaskType) (h : InHand none nothing s)
    (hadded : s.books.added = []) :
    Finishes (Handler.netTeReport E addType remType taskType msg) s := by
  unfold Handler.netTeReport
  dsimp only
  split_ifs
  · refine netAddTrigger_finishes h fun t task s' hid h' ↦ ?_
    exact schedAddTask_finishes h' (.inr ⟨t, rfl, hid⟩) fun _ s'' h'' ↦ ensures_pure h''
  · refine ensures_call fun a r s' _ he ↦ ensures_pure ?_
    exact (trigDelByInst_keeps h hadded he).1

theorem netProcessTriggerEvent_finishes (h : InHand none nothing s) (hadded : s.books.added = []) :
    Finishes (Handler.netProcessTriggerEvent E msg) s := by
  unfold Handler.netProcessTriggerEvent
  cases E.eppTriggerType msg with
  | ueReport | cellMeasure => exact netTeReport_finishes _ _ _ h hadded
  | ueMeasure =>
    unfold Handler.netTeUeMeasure
    dsimp only
    split_ifs
    · exact ueMeasureDel_finishes _ _ _ h hadded
    · exact ueMeasureAdd_finishes _ _ _ _ h
  | _ => exact ensures_pure h

theorem netProcessMessage_finishes (h : InHand none nothing s) (hadded : s.books.added = []) :
    Finishes (Handler.netProcessMessage E msg) s := by
  have hrequest (type : TaskType) (interval res : ℤ) : Finishes
      (if E.eppDir msg = .req then Handler.netQueueTask type interval res msg else return 0) s := by
    split_ifs
    · exact netQueueTask_finishes _ _ _ _ h hadded
    · exact ensures_pure h
  unfold Handler.netProcessMessage
  cases E.eppMsgType msg with
  | single =>
    unfold Handler.netProcessSingleEvent
    cases E.eppSingleType msg with
    | ecap | handover | ranSetup | ranSlice => exact hrequest _ _ _
    | _ => exact ensures_pure h
  | schedule =>
    unfold Handler.netProcessSchedEvent
    cases E.eppScheduleType msg with
    | cellMeasure => exact hrequest _ _ _
    | _ => exact ensures_pure h
  | trigger => exact netProcessTriggerEvent_finishes h hadded
  | other => exact ensures_pure h

theorem Operation.finishes (op : Operation) (h : InHand none nothing s)
    (hadded : s.books.added = []) : Finishes (op.calls E) s := by
  cases op with
  | received msg => exact netProcessMessage_finishes h hadded
  | emSend msg =>
    unfold calls
    dsimp only
    split_ifs
    · exact ensures_pure h
    · exact coreSend_finishes msg h hadded

end Handlers

section Addresses

variable {S : Setup} {s : Agent} {w w' : World} {own : List ℕ} {E : Emproto} {msg : Bytes}

def trigProtocol : Protocol Op Op.Res (List ℕ) where
  allowed own o := match o with
    | .trigAdd trig => trig.addr ∈ own
    | _ => True
  next own o r := match o, r with
    | .malloc, some addr => addr :: own
    | _, _ => own

theorem taskAlloc_owns (type : TaskType) (interval res : ℤ) (trigger : Int32) (msg : Option Bytes) :
    Obeys trigProtocol AnyPost own (Proc.taskAlloc type interval res trigger msg) := by
  refine ⟨trivial, fun addr ↦ ?_⟩
  cases addr with
  | none => trivial
  | some addr =>
    cases msg with
    | none => trivial
    | some m =>
      refine ⟨trivial, fun buf ↦ ?_⟩
      cases buf with
      | none => exact ⟨trivial, fun _ ↦ trivial⟩
      | some buf => trivial

theorem schedAddTask_owns (task : Emtask) :
    Obeys trigProtocol AnyPost own (Proc.schedAddTask task) :=
  ⟨trivial, fun _ ↦ ⟨trivial, fun _ ↦ trivial⟩⟩

theorem netQueueTask_owns (type : TaskType) (interval res : ℤ) (msg : Bytes) :
    Obeys trigProtocol AnyPost own (netQueueTask type interval res msg) := by
  refine (taskAlloc_owns type interval res 0 (some msg)).bind fun own r _ ↦ ?_
  cases r with
  | none => trivial
  | some task => exact schedAddTask_owns task

theorem netAddTrigger_owns {mod : UInt32} {type : ℤ} {inst : Int32} {taskType : TaskType}
    {queued : Emtask → Proc ℤ} (h : ∀ own task, Obeys trigProtocol AnyPost own (queued task)) :
    Obeys trigProtocol AnyPost own (netAddTrigger mod type inst msg taskType queued) := by
  refine ⟨trivial, fun addr ↦ ?_⟩
  cases addr with
  | none => exact ⟨trivial, fun _ ↦ trivial⟩
  | some addr =>
    refine ⟨trivial, fun buf ↦ ?_⟩
    cases buf with
    | none => exact ⟨trivial, fun _ ↦ ⟨trivial, fun _ ↦ trivial⟩⟩
    | some buf =>
      refine ⟨List.mem_cons_of_mem _ (List.mem_cons_self ..), fun id ↦ ⟨trivial, fun _ ↦ ?_⟩⟩
      refine (taskAlloc_owns taskType 1 0 id none).bind fun own r _ ↦ ?_
      cases r with
      | none => exact ⟨trivial, fun _ ↦ ⟨trivial, fun _ ↦ ⟨trivial, fun _ ↦ trivial⟩⟩⟩
      | some task => exact h own task

theorem netTeUeMeasure_owns : Obeys trigProtocol AnyPost own (netTeUeMeasure E msg) := by
  have hadd (mod : UInt32) (rrc : ℕ → UeMeasurement) (n : ℕ) :
      Obeys trigProtocol AnyPost own (ueMeasureAdd mod rrc msg n) := by
    induction n generalizing own with
    | zero => trivial
    | succ n ih =>
      rw [ueMeasureAdd_succ]
      exact netAddTrigger_owns fun own task ↦ (schedAddTask_owns task).bind fun _ _ _ ↦ ih
  have hdel (mod : UInt32) (rrc : ℕ → UeMeasurement) (n : ℕ) :
      Obeys trigProtocol AnyPost own (ueMeasureDel mod rrc n) := by
    induction n with
    | zero => trivial
    | succ n ih => exact ⟨trivial, fun _ ↦ ih⟩
  unfold netTeUeMeasure
  dsimp only
  split_ifs
  · exact hdel _ _ _
  · exact hadd _ _ _

theorem netProcessMessage_owns (E : Emproto) (msg : Bytes) :
    Obeys trigProtocol AnyPost own (netProcessMessage E msg) := by
  refine netProcessMessage_cases (fun _ ↦ trivial) ?_ ?_ netTeUeMeasure_owns
  · exact fun type interval res _ ↦ netQueueTask_owns type interval res msg
  · intro addType remType type _
    rw [netTeReport_eq]
    split_ifs
    · exact netAddTrigger_owns fun own task ↦ schedAddTask_owns task
    · exact ⟨trivial, fun _ ↦ trivial⟩

theorem NetMove.heap_le {t t' : NetThread} (h : NetMove E t w t' w') : w.heap ≤ w'.heap := by
  cases h with
  | handler he => exact he.heap_le
  | helloAdd | helloRefused => exact Nat.le_succ _
  | _ => exact Nat.le_refl _

theorem Move.heap_le {s' : Agent} {a : Act} (h : Move S s a s') (hr : (agent S).Reachable s) :
    s.w.heap ≤ s'.w.heap := by
  cases h with
  | net hm => exact hm.heap_le
  | sched _ hm => exact (hm.accepted (conduct hr).1).2
  | api hrun => exact ((TaskInv.of_reachable hr).books.api hrun).2.1
  | release hm => cases hm <;> exact Nat.le_refl _

def AddsInHeap (w : World) : NetPc → Prop
  | .process p => ∃ own, Obeys trigProtocol AnyPost own p ∧ ∀ n ∈ own, n < w.heap
  | _ => True

theorem AddsInHeap.grown {pc : NetPc} (h : AddsInHeap w pc) (hh : w.heap ≤ w'.heap) :
    AddsInHeap w' pc := by
  cases pc with
  | process p =>
    obtain ⟨own, hobeys, hown⟩ := h
    exact ⟨own, hobeys, fun n hn ↦ Nat.lt_of_lt_of_le (hown n hn) hh⟩
  | _ => trivial

theorem AddsInHeap.netMove {t t' : NetThread} (h : AddsInHeap w t.pc) (hm : NetMove E t w t' w') :
    AddsInHeap w' t'.pc := by
  have hh := hm.heap_le
  cases hm with
  | handler he =>
    obtain ⟨own, hobeys, hown⟩ := h
    refine ⟨_, hobeys.2 _, ?_⟩
    cases he with
    | malloc => exact List.forall_mem_cons.mpr ⟨Nat.lt_succ_self _, fun n hn ↦
        Nat.lt_succ_of_lt (hown n hn)⟩
    | _ => exact hown
  | recvMessage => exact ⟨[], netProcessMessage_owns E _, List.forall_mem_nil _⟩
  | again hpc | connectFail hpc => rcases hpc with rfl | rfl <;> trivial
  | _ => trivial

/-- Every trigger lies in the heap, so that what `malloc` hands out is none of them. -/
structure InHeap (s : Agent) : Prop where
  live : ∀ t ∈ s.w.trig.ts, t.addr < s.w.heap
  adds : AddsInHeap s.w s.net.pc

theorem InHeap.of_reachable (h : (agent S).Reachable s) : InHeap s := by
  refine h.invariant (I := InHeap) ⟨List.forall_mem_nil _, trivial⟩ ?_
  intro s a s' hr hI _ hs
  have hm := Agent.step_move hs
  have hh := hm.heap_le hr
  constructor
  · rcases hm.triggers (conduct hr).1 with hshrink | ⟨trig, k, _, hpc, _, hw, _⟩
    · exact fun t ht ↦ Nat.lt_of_lt_of_le (hI.live t (hshrink.ts.subset ht)) hh
    · have hadds := hI.adds
      rw [hpc] at hadds
      obtain ⟨own, hobeys, hown⟩ := hadds
      rw [hw]
      exact List.forall_mem_cons.mpr ⟨hown _ hobeys.1, hI.live⟩
  · cases hm with
    | net hm => exact hI.adds.netMove hm
    | sched | api => exact hI.adds.grown hh
    | release hm => cases hm <;> exact hI.adds.grown hh

end Addresses

section Results

variable {E : Emproto} {S : Setup} {s : Agent} {c : CallState} {as : List CallAns} {x : ℤ}

theorem InHand.start {w : World} (h : ∀ t ∈ w.trig.ts, t.addr < w.heap) :
    InHand none nothing ⟨w, .empty⟩ := by
  refine ⟨fun k n ↦ ?_, fun _ ↦ List.nodup_nil, fun _ ↦ List.forall_mem_nil _, fun t ht ↦ ?_,
    List.forall_mem_nil _, by simp⟩
  · cases k <;> rfl
  · exact ⟨h t ht, List.not_mem_nil⟩

theorem InHand.once_settled (h : InHand none nothing c) {k : Struct} {n : ℕ}
    (hn : n ∈ c.books.allocated k) :
    (c.books.settled k).count n + (c.books.freed k).count n = 1 := by
  rw [← List.count_eq_one_of_mem (h.once k) hn, ← h.balance k n]
  simp [nothing]

/-- With nothing in hand, nothing is left but the tasks that were refused. -/
theorem InHand.leaves_nothing (h : InHand none nothing c) :
    NothingLeft c ↔ c.books.refused = [] := by
  constructor
  · intro hleft
    refine List.eq_nil_iff_forall_not_mem.mpr fun n hn ↦ ?_
    have hcount := List.count_pos_iff.mpr hn
    have hbal := h.balance .emtask n
    simp only [Books.settled, List.count_append] at hbal
    have htask : n ∈ c.books.allocated .emtask := List.count_pos_iff.mp (by omega)
    have hone := h.once_settled htask
    have hsettled := hleft.tasks n htask
    simp only [Books.settled, List.count_append] at hone
    omega
  · intro hnil
    refine ⟨fun n hn ↦ ?_, fun n hn ↦ h.once_settled hn, fun e he ↦ ?_⟩
    · have hone := h.once_settled hn
      simpa only [Books.settled, hnil, List.append_nil] using hone
    · obtain ⟨hlive, htask⟩ := h.added e he
      rw [hlive]
      constructor
      · rintro (hsome | hpending)
        · obtain ⟨n, hn⟩ := Option.isSome_iff_exists.mp hsome
          refine ⟨n, hn, (htask n hn).resolve_right ?_⟩
          rw [hnil]
          exact List.not_mem_nil
        · cases hpending
      · rintro ⟨n, hn, _⟩
        exact .inl (Option.isSome_iff_exists.mpr ⟨n, hn⟩)

theorem refused_step (o : CallOp) (a : CallAns) (s : CallState) (r : o.Res) (s' : CallState)
    (h : execCall o a s = some (r, s')) :
    s'.books.refused = [] ↔ s.books.refused = [] ∧ Unstopped o a s := by
  obtain ⟨hr, hb⟩ := execCall_run h
  rw [hb]
  cases o with
  | schedAddTask task =>
    obtain ⟨hzero, _⟩ := schedAddTask_run hr
    simp only [Books.note, Unstopped, ← hzero]
    split_ifs with h0 <;> simp [h0]
  | malloc k => cases r <;> exact (and_iff_left trivial).symm
  | op o => cases o <;> exact (and_iff_left trivial).symm
  | free => exact (and_iff_left trivial).symm

/-- Whatever allocations fail on the way, an operation leaves nothing half done
exactly where no task of its own is refused: then the task is never freed. -/
theorem nothingLeft_iff (h : (agent S).Reachable s) (op : Operation)
    (hr : (op.calls E).run execCall as ⟨s.w, .empty⟩ = some (x, c)) :
    NothingLeft c ↔ (op.calls E).Along execCall Unstopped as ⟨s.w, .empty⟩ := by
  have hstart := InHand.start (InHeap.of_reachable h).live
  have hend := op.finishes (E := E) hstart rfl as x c (fun _ _ ↦ trivial) hr
  have hsteps := Library.Proc.along_iff (I := fun c ↦ c.books.refused = []) refused_step hr
  rw [hend.leaves_nothing, hsteps]
  exact and_iff_right rfl

theorem run_calls {α : Type} {p : Handler α} {as : List Ans} {w w' : World} {x : α}
    (h : (p.expand CallOp.body).run exec as w = some (x, w')) (b : Books) :
    ∃ cas b', (∀ a ∈ cas, a.stops = false) ∧ p.run execCall cas ⟨w, b⟩ = some (x, ⟨w', b'⟩) := by
  obtain ⟨ass, hr⟩ := Library.Proc.run_expand h
  clear h
  induction p generalizing ass w b with
  | pure y =>
    obtain ⟨rfl, rfl⟩ := Library.Proc.run_pure hr
    exact ⟨[], b, List.forall_mem_nil _, rfl⟩
  | call o k ih =>
    obtain ⟨as₁, ass, r, w₁, rfl, h₁, hr⟩ := Library.Proc.run_call hr
    obtain ⟨cas, b', hgo, hrest⟩ := ih r (b.note o r) ass hr
    refine ⟨⟨false, as₁⟩ :: cas, b', List.forall_mem_cons.mpr ⟨rfl, hgo⟩, ?_⟩
    have he : execCall o ⟨false, as₁⟩ ⟨w, b⟩ = some (r, ⟨w₁, b.note o r⟩) := by
      simp only [execCall, CallAns.before, Bool.false_eq_true, if_false, h₁, Option.map_some]
    simp only [Library.Proc.run, he, Option.bind_some, hrest]

theorem run_stop {α : Type} {p : Proc α} {as : List Ans} {w w' : World} {x : α}
    (h : p.run exec as w = some (x, w')) : w'.sched.stop = w.sched.stop := by
  induction p generalizing as w with
  | pure y =>
    obtain ⟨rfl, rfl⟩ := Library.Proc.run_pure h
    rfl
  | call o k ih =>
    obtain ⟨a, as, r, w₁, rfl, he, h⟩ := Library.Proc.run_call h
    exact (ih r h).trans (exec_effect he).stop

theorem along_of_running {α : Type} (p : Handler α) {cs : CallState}
    (hgo : ∀ a ∈ as, a.stops = false) (hrun : cs.w.sched.stop = false) :
    p.Along execCall Unstopped as cs := by
  induction p generalizing as cs with
  | pure y => trivial
  | call o k ih =>
    cases as with
    | nil => trivial
    | cons a as =>
      obtain ⟨ha, hgo⟩ := List.forall_mem_cons.mp hgo
      have hbefore : (a.before cs.w).sched.stop = false := by simpa [CallAns.before, ha] using hrun
      refine ⟨?_, fun r hr ↦ ih r.1 hgo ?_⟩
      · cases o with
        | schedAddTask task => exact hbefore
        | _ => trivial
      · obtain ⟨h, _⟩ := execCall_run hr
        exact (run_stop h).trans hbefore

/-- While the agent is not told to stop, nothing is ever left half done. -/
theorem nothingLeft_of_running (h : (agent S).Reachable s) (hrun : s.w.sched.stop = false)
    (op : Operation) {as : List Ans} {w' : World}
    (hr : (op.body E).run exec as s.w = some (x, w')) :
    ∃ cas b, (op.calls E).run execCall cas ⟨s.w, .empty⟩ = some (x, ⟨w', b⟩) ∧
      NothingLeft ⟨w', b⟩ := by
  rw [← op.calls_expand] at hr
  obtain ⟨cas, b, hgo, hcalls⟩ := run_calls hr .empty
  exact ⟨cas, b, hcalls, (nothingLeft_iff h op hcalls).mpr (along_of_running _ hgo hrun)⟩

theorem netConnected_leaves_nothing {w : World}
    (hr : Handler.netConnected.run execCall as ⟨w, .empty⟩ = some (x, c)) : NothingLeft c := by
  obtain ⟨a, as, r, s₁, rfl, he, hr⟩ := Library.Proc.run_call hr
  obtain ⟨_, hb⟩ := execCall_run he
  cases r with
  | none =>
    obtain ⟨rfl, rfl⟩ := Library.Proc.run_pure hr
    refine ⟨?_, ?_, ?_⟩ <;> rw [hb] <;> exact List.forall_mem_nil _
  | some addr =>
    obtain ⟨a, as, r, s₂, rfl, he, hr⟩ := Library.Proc.run_call hr
    obtain ⟨_, hb₂⟩ := execCall_run he
    dsimp only [Library.Proc.bind] at hr
    split_ifs at hr with hrefused
    · obtain ⟨a, as, _, s₃, rfl, he, hr⟩ := Library.Proc.run_call hr
      obtain ⟨_, hb₃⟩ := execCall_run he
      obtain ⟨rfl, rfl⟩ := Library.Proc.run_pure hr
      simp only [Books.note, hrefused, if_false] at hb₂ hb₃
      refine ⟨?_, ?_, ?_⟩ <;> rw [hb₃, hb₂, hb] <;>
        simp [Books.note, Books.offerFor, Books.empty, Struct.put, Emtask.init]
    · obtain ⟨rfl, rfl⟩ := Library.Proc.run_pure hr
      simp only [Books.note, not_not.mp hrefused, if_true] at hb₂
      refine ⟨?_, ?_, ?_⟩ <;> rw [hb₂, hb] <;>
        simp [Books.note, Books.offerFor, Books.empty, Struct.put, Emtask.init]

/-- A trigger is added, no memory is left for its task, and it is taken back. -/
def taskFails : List CallAns :=
  [⟨false, [.ok true]⟩, ⟨false, [.ok true]⟩, ⟨false, [.tick]⟩, ⟨false, [.tick]⟩,
    ⟨false, [.ok false]⟩, ⟨true, [.tick]⟩, ⟨false, [.tick]⟩, ⟨false, [.tick]⟩]

def reportCalls : Handler ℤ := (Operation.received [0, 6, 2, 0, 1, 7]).calls Sample.proto

theorem nothingLeft_iff_taskFails :
    (reportCalls.run execCall taskFails ⟨Agent.start.w, .empty⟩).isSome = true ∧
      ∀ x c, reportCalls.run execCall taskFails ⟨Agent.start.w, .empty⟩ = some (x, c) →
        NothingLeft c := by
  have h : (agent Sample.setup).Reachable Agent.start := .start
  refine ⟨by decide +kernel, fun x c hr ↦ ?_⟩
  exact (nothingLeft_iff h (.received [0, 6, 2, 0, 1, 7]) hr).mpr (by decide +kernel)

/-- A request for UE reports has been received, and is about to be handled. -/
def requestRun : List Act := Sample.connect 3 ++ [Sample.receive [0, 6, 2, 0, 1, 7]]

/-- The scheduler is told to stop before it is offered the task for the trigger. -/
def stopsMeanwhile : List CallAns :=
  [⟨false, [.ok true]⟩, ⟨false, [.ok true]⟩, ⟨false, [.tick]⟩, ⟨false, [.tick]⟩,
    ⟨false, [.ok true]⟩, ⟨true, [.time (Sample.after 0), .tick]⟩]

theorem refused_task_lost : ¬ ∀ (S : Setup) (s : Agent) (msg : Bytes) (as : List CallAns) (x : ℤ)
    (c : CallState), (agent S).Reachable s → s.net.pc = .process (netProcessMessage S.proto msg) →
      ((Operation.received msg).calls S.proto).run execCall as ⟨s.w, .empty⟩ = some (x, c) →
        NothingLeft c := by
  intro h
  have hr := (agent Sample.setup).reach_get (fun _ _ ↦ True) requestRun (by decide +kernel)
  have hleft := h Sample.setup _ [0, 6, 2, 0, 1, 7] stopsMeanwhile (-1) _ hr rfl rfl
  have htask := hleft.tasks 3
  revert htask
  decide +kernel

end Results

end EmpowerAgent
