import EmpowerAgent.Locking
import EmpowerAgent.Steps
import EmpowerAgent.Library.Guards

namespace EmpowerAgent

open Library
open Locks (Ignores)

/-- The two parts of an agent's memory that are used under a lock alone. -/
inductive Part
  | tasks
  | triggers
  deriving DecidableEq, Repr

namespace Part

def lock (p : ℕ) : Part → Lock
  | .tasks => .sched p
  | .triggers => .trig p

@[reducible] def Data : Part → Type
  | .tasks => List Emtask × List Emtask
  | .triggers => Trctx

def get : (c : Part) → World → c.Data
  | .tasks, w => (w.sched.jobs, w.sched.todo)
  | .triggers, w => w.trig

def put : (c : Part) → c.Data → World → World
  | .tasks, x, w => { w with sched := { w.sched with jobs := x.1, todo := x.2 } }
  | .triggers, x, w => { w with trig := x }

theorem get_put (c : Part) (x : c.Data) (w : World) : c.get (c.put x w) = x := by cases c <;> rfl

theorem put_get (c : Part) (w : World) : c.put (c.get w) w = w := by cases c <;> rfl

theorem put_net (c : Part) (x : c.Data) (w : World) : (c.put x w).net = w.net := by cases c <;> rfl

end Part

namespace Lock

/-- What a lock guards. A lost connection resets the sequence number without
the lock, so that nothing is left for the third lock of an agent. -/
@[reducible] def Data : Lock → Type
  | .coreMain => Bool
  | .coreAgents => List AgentRef
  | .sched _ => Part.tasks.Data
  | .trig _ => Part.triggers.Data
  | .net _ => Unit

def data : (l : Lock) → Memory → l.Data
  | .coreMain, m => m.coreInit
  | .coreAgents, m => m.agents
  | .sched p, m => Part.tasks.get (m.worlds p)
  | .trig p, m => Part.triggers.get (m.worlds p)
  | .net _, _ => ()

def put : (l : Lock) → l.Data → Memory → Memory
  | .coreMain, x, m => { m with coreInit := x }
  | .coreAgents, x, m => { m with agents := x }
  | .sched p, x, m => m.setWorld p (Part.tasks.put x (m.worlds p))
  | .trig p, x, m => m.setWorld p (Part.triggers.put x (m.worlds p))
  | .net _, _, m => m

theorem data_put (l : Lock) (x : l.Data) (m : Memory) : l.data (l.put x m) = x := by
  cases l with
  | sched p => simp [data, put, Memory.setWorld, Part.get_put]
  | trig p => simp [data, put, Memory.setWorld, Part.get_put]
  | _ => rfl

theorem put_logFd (l : Lock) (x : l.Data) (m : Memory) : (l.put x m).logFd = m.logFd := by
  cases l <;> rfl

theorem put_data (l : Lock) (m : Memory) : l.put (l.data m) m = m := by
  cases l with
  | sched p => simp [data, put, Memory.setWorld, Part.put_get]
  | trig p => simp [data, put, Memory.setWorld, Part.put_get]
  | _ => rfl

end Lock

def Op.guard (p : ℕ) : Op → Option Lock
  | .schedAddTask _ => some (.sched p)
  | .trigAdd _ | .trigDelById _ | .trigDelByInst _ _ _ | .trigFindById _ => some (.trig p)
  | .netNextSeq => some (.net p)
  | _ => none

def NetThread.guard (p : ℕ) : NetThread → Option Lock
  | ⟨.hello, _⟩ => some (.sched p)
  | ⟨.process (.call o _), _⟩ => o.guard p
  | _ => none

def SchPc.guard (p : ℕ) : SchPc → Option Lock
  | .take | .settle _ _ _ | .back | .drain => some (.sched p)
  | .perform _ _ (.call o _) => o.guard p
  | .flush => some (.trig p)
  | _ => none

/-- The lock under which the memory is accessed. The flags and the status are
used without one. -/
def Access.guard : Access → Option Lock
  | .op p o => o.guard p
  | .stopped p | .listAddTail p _ => some (.sched p)
  | .triggers p | .trigFlush p => some (.trig p)
  | .net p t => t.guard p
  | .sched p pc => pc.guard p
  | .coreInitialize => some .coreMain
  | .agents | .listAdd _ | .listDel _ | .takeFirst => some .coreAgents
  | _ => none

/-- The two looks that the code takes without the lock: `em_stop` looks whether
there are any agents, and a trigger that was found or added is read later on. -/
def Access.Stray : Access → Lock → Prop
  | .agentsEmpty, .coreAgents => True
  | .op p (.useTrig _), .trig q => p = q
  | _, _ => False

namespace Prog

abbrev Guarded {α : Type} (held : List Lock) (p : Prog α) : Prop :=
  Locks.Guarded Access.guard held p

abbrev Guards {α : Type} (p : Prog α) : Prop :=
  Locks.Guards Access.guard (fun _ _ ↦ True) [] p

variable {α β : Type} {post : List Lock → β → Prop} {held : List Lock} {l : Lock} {p : ℕ}

section Rules

theorem guarded_mem {i : Access} (hi : ∀ l, i.guard = some l → l ∈ held) :
    Guarded held (mem i) := ⟨hi, fun _ ↦ rfl⟩

theorem guarded_free {i : Access} (hi : i.guard = none) : Guarded held (mem i) := by
  refine guarded_mem fun l hl ↦ ?_
  rw [hi] at hl
  cases hl

theorem guarded_under {i : Access} (hi : i.guard = some l) (hl : l ∈ held) :
    Guarded held (mem i) := by
  refine guarded_mem fun l' hl' ↦ ?_
  cases hi.symm.trans hl'
  exact hl

theorem guards_unlock {f : Unit → Prog β} (hl : l ∉ held)
    (hf : Locks.Guards Access.guard post held (f ())) :
    Locks.Guards Access.guard post (l :: held) (unlock l >>= f) := by
  refine ⟨List.mem_cons_self .., fun _ ↦ ?_⟩
  change Locks.Guards Access.guard post ((l :: held).filter (· ≠ l)) (f ())
  rwa [Locks.filter_released hl]

theorem guarded_locked {i : Access} (hl : l ∉ held) (hi : i.guard = some l) :
    Guarded held (locked l i) := by
  refine ⟨trivial, fun _ ↦ ?_⟩
  refine (guarded_under hi (List.mem_cons_self ..)).bind fun r ↦ ?_
  exact guards_unlock hl rfl

theorem guarded_logMessage : Guarded held logMessage :=
  (guarded_free rfl).bind fun _ ↦ guarded_free rfl

end Rules

section Agents

theorem Core.not_mem {held : List Lock} (hc : Core held) (hl : 2 ≤ l.rank) : l ∉ held :=
  fun hmem ↦ Nat.not_lt.mpr hl (hc l hmem)

theorem schedAddTask_guarded (hc : Core held) (task : Emtask) :
    Guarded held (schedAddTask p task) := by
  have hl : Lock.sched p ∉ held := hc.not_mem (Nat.le_refl 2)
  refine ⟨trivial, fun _ ↦ ?_⟩
  refine (guarded_under (l := .sched p) rfl (List.mem_cons_self ..)).bind fun b ↦ ?_
  split_ifs
  · exact guards_unlock hl rfl
  · refine (guarded_under (l := .sched p) rfl (List.mem_cons_self ..)).bind fun _ ↦ ?_
    exact guards_unlock hl rfl

theorem trigDel_guarded (hc : Core held) {o : Op} (ho : o.guard p = some (.trig p))
    (found : Emtri → Bool) (notFound : o.Res) : Guarded held (trigDel p o found notFound) := by
  have hl : Lock.trig p ∉ held := hc.not_mem (Nat.le_refl 2)
  refine ⟨trivial, fun _ ↦ ?_⟩
  refine (guarded_under (l := .trig p) rfl (List.mem_cons_self ..)).bind fun ts ↦ ?_
  split_ifs
  · refine (guarded_under (i := .op p o) ho (List.mem_cons_self ..)).bind fun r ↦ ?_
    exact guards_unlock hl rfl
  · exact guards_unlock hl rfl

theorem trigFind_guarded (hc : Core held) (found : Emtri → Bool) :
    Guarded held (trigFind p found) := by
  have hl : Lock.trig p ∉ held := hc.not_mem (Nat.le_refl 2)
  refine ⟨trivial, fun _ ↦ ?_⟩
  refine (guarded_under (l := .trig p) rfl (List.mem_cons_self ..)).bind fun ts ↦ ?_
  split
  · exact guards_unlock hl rfl
  · exact guards_unlock hl rfl

theorem section_guarded (hc : Core held) (o : Op) : Guarded held (section_ p o) := by
  have hl {l : Lock} (h : 2 ≤ l.rank) : l ∉ held := hc.not_mem h
  cases o with
  | schedAddTask task => exact schedAddTask_guarded hc task
  | trigAdd trig => exact guarded_locked (hl (Nat.le_refl 2)) rfl
  | netNextSeq => exact guarded_locked (hl (Nat.le_refl 2)) rfl
  | trigDelById | trigDelByInst => exact trigDel_guarded hc rfl _ _
  | trigFindById => exact trigFind_guarded hc _
  | emlog => exact guarded_logMessage
  | _ => exact guarded_free rfl

theorem expand_guarded (hc : Core held) (q : EmpowerAgent.Proc α) :
    Guarded held (q.expand (section_ p)) :=
  Library.Proc.Obeys.expand (fun o ↦ section_guarded hc o) q

end Agents

section Core

theorem withAgent_guarded {body : ℕ → Prog ℤ} (hbody : ∀ p, Guarded [.coreAgents] (body p))
    (id : UInt64) (notFound : ℤ) : Guarded [] (withAgent id notFound body) := by
  have hl : Lock.coreAgents ∉ ([] : List Lock) := List.not_mem_nil
  refine ⟨trivial, fun _ ↦ ?_⟩
  refine (guarded_under (l := .coreAgents) rfl (List.mem_cons_self ..)).bind fun as ↦ ?_
  split
  · exact guards_unlock hl rfl
  · refine (hbody _).bind fun s ↦ ?_
    exact guards_unlock hl rfl

theorem query_guarded (q : Query) : Guarded [] (query q) := by
  have hc : Core [.coreAgents] := by simp [Core, Lock.rank]
  cases q with
  | emSend id msg =>
    simp only [query]
    split_ifs
    · rfl
    · exact withAgent_guarded (fun p ↦ expand_guarded hc _) ..
  | emHasTrigger id tid =>
    simp only [query]
    refine withAgent_guarded (fun p ↦ ?_) id 0
    exact (trigFind_guarded hc _).bind fun _ ↦ rfl
  | emDelTrigger id tid =>
    simp only [query]
    refine withAgent_guarded (fun p ↦ ?_) id 0
    exact (trigDel_guarded hc rfl _ _).bind fun _ ↦ rfl
  | emIsConnected id => exact withAgent_guarded (fun p ↦ guarded_free (i := .status p) rfl) id 0

theorem queries_guarded (qs : List Query) : Guarded [] (queries qs) := by
  induction qs with
  | nil => rfl
  | cons q qs ih => exact (query_guarded q).bind fun _ ↦ ih

theorem wrapper_guarded : Guarded [] wrapper :=
  (guarded_free rfl).bind fun qs ↦ queries_guarded qs

theorem within_guarded (o : Op) : Guarded [] (within p o) := by
  cases o with
  | callback c => exact (guarded_free rfl).bind fun _ ↦ wrapper_guarded
  | _ => exact section_guarded (p := p) (List.forall_mem_nil _) _

theorem netConnected_guarded : Guarded [] (netConnected p) := by
  refine (expand_guarded (List.forall_mem_nil _) _).bind fun h ↦ ?_
  cases h with
  | none => rfl
  | some h => exact expand_guarded (List.forall_mem_nil _) _

end Core

section Callers

theorem coreReleaseAgent_guarded : Guarded [] (coreReleaseAgent p) := by
  have hstop (i : Access) (hi : i.guard = none) (u : ThreadId) :
      Guarded [] (do let _ ← mem i; join u) :=
    (guarded_free hi).bind fun _ ↦ ⟨trivial, fun _ ↦ rfl⟩
  refine (hstop (.stopSched p) rfl (.sched p)).bind fun _ ↦ ?_
  refine (hstop (.stopNet p) rfl (.net p)).bind fun _ ↦ ?_
  exact guarded_locked List.not_mem_nil rfl

theorem emTerminateAgent_guarded (id : UInt64) : Guarded [] (emTerminateAgent id) := by
  have hl : Lock.coreAgents ∉ ([] : List Lock) := List.not_mem_nil
  refine ⟨trivial, fun _ ↦ ?_⟩
  refine (guarded_under (l := .coreAgents) rfl (List.mem_cons_self ..)).bind fun as ↦ ?_
  split
  · exact guards_unlock hl rfl
  · refine (guarded_under (l := .coreAgents) rfl (List.mem_cons_self ..)).bind fun _ ↦ ?_
    refine guards_unlock hl ?_
    refine wrapper_guarded.bind fun _ ↦ ?_
    exact coreReleaseAgent_guarded.bind fun _ ↦ rfl

theorem pthreadCreate_guarded {u : ThreadId} : Guarded [] (do
    if ← mem .pthreadCreate then do
      create u
      return 0
    else do
      logMessage
      return (-1 : ℤ)) := by
  refine (guarded_free rfl).bind fun b ↦ ?_
  split_ifs
  · exact ⟨trivial, fun _ ↦ rfl⟩
  · exact guarded_logMessage.bind fun _ ↦ rfl

theorem startAgent_guarded (id : UInt64) : Guarded [] (startAgent p id) := by
  have hrelease (ret : ℤ) : Guarded [] (do coreReleaseAgent p; return ret) :=
    coreReleaseAgent_guarded.bind fun _ ↦ rfl
  refine (pthreadCreate_guarded (u := .sched p)).bind fun s ↦ ?_
  split_ifs
  · exact guarded_logMessage.bind fun _ ↦ hrelease (-1)
  · refine (pthreadCreate_guarded (u := .net p)).bind fun s ↦ ?_
    split_ifs
    · exact guarded_logMessage.bind fun _ ↦ hrelease (-1)
    · refine wrapper_guarded.bind fun _ ↦ ?_
      refine (guarded_free rfl).bind fun ret ↦ ?_
      split_ifs
      · exact hrelease ret
      · exact (guarded_locked List.not_mem_nil rfl).bind fun _ ↦ rfl

theorem emStart_guarded (id : UInt64) : Guarded [] (emStart id) := by
  have hl : Lock.coreAgents ∉ ([] : List Lock) := List.not_mem_nil
  refine (guarded_locked List.not_mem_nil rfl).bind fun _ ↦ ?_
  refine ⟨trivial, fun _ ↦ ?_⟩
  refine (guarded_under (l := .coreAgents) rfl (List.mem_cons_self ..)).bind fun as ↦ ?_
  split_ifs
  · refine guards_unlock hl ?_
    exact guarded_logMessage.bind fun _ ↦ rfl
  · refine guards_unlock hl ?_
    refine (guarded_free rfl).bind fun p ↦ ?_
    cases p with
    | none => rfl
    | some p => exact startAgent_guarded id

theorem emStop_guarded : Guarded [] emStop := by
  have hrelease : Guarded [] logRelease := by
    refine (guarded_free rfl).bind fun b ↦ ?_
    split_ifs
    · exact (guarded_free rfl).bind fun _ ↦ guarded_free rfl
    · rfl
  refine (guarded_free rfl).bind fun empty ↦ ?_
  split_ifs
  · refine guarded_logMessage.bind fun _ ↦ ?_
    exact hrelease.bind fun _ ↦ rfl
  · refine (guarded_locked List.not_mem_nil rfl).bind fun p ↦ ?_
    refine wrapper_guarded.bind fun _ ↦ ?_
    exact coreReleaseAgent_guarded.bind fun _ ↦ rfl

end Callers

section Threads

theorem net_guards (nt : NetThread) : Guards (net p nt) := by
  have hfree (hi : (Access.net p nt).guard = none) :
      Guards (do return some (Point.net p (← mem (.net p nt)))) :=
    (guarded_free hi).bind fun t' ↦ trivial
  have hlogged (hi : (Access.net p nt).guard = none) :
      Guards (do let t' ← mem (.net p nt); netLog t'.pc; return some (Point.net p t')) := by
    refine (guarded_free hi).bind fun t' ↦ ?_
    refine Locks.Guarded.bind (p := netLog t'.pc) ?_ fun _ ↦ trivial
    cases t'.pc with
    | next => exact guarded_logMessage
    | _ => rfl
  rcases nt with ⟨pc, e⟩
  cases pc with
  | exit => trivial
  | socket | resolve | again | connect => exact hlogged rfl
  | hello => exact netConnected_guarded.bind fun s ↦ trivial
  | process h =>
    cases h with
    | pure x => exact hfree rfl
    | call o k => exact (within_guarded o).bind fun r ↦ trivial
  | _ => exact hfree rfl

theorem sched_guards (S : ℕ → Setup) (pc : SchPc) : Guards (sched S p pc) := by
  have hlocked {l : Lock} (hi : (Access.sched p pc).guard = some l) :
      Guards (do return some (Point.sched p (← locked l (.sched p pc)))) :=
    (guarded_locked List.not_mem_nil hi).bind fun pc' ↦ trivial
  have hfree (hi : (Access.sched p pc).guard = none) :
      Guards (do return some (Point.sched p (← mem (.sched p pc)))) :=
    (guarded_free hi).bind fun pc' ↦ trivial
  cases pc with
  | exit => trivial
  | take | settle | back | drain | flush => exact hlocked rfl
  | alert =>
    refine (guarded_free rfl).bind fun pc' ↦ ?_
    refine Locks.Guarded.bind (p := disconnected S p) ?_ fun _ ↦ trivial
    unfold disconnected
    split_ifs
    · exact wrapper_guarded
    · rfl
  | perform task now h =>
    cases h with
    | pure op => exact hfree rfl
    | call o k => exact (within_guarded o).bind fun r ↦ trivial
  | _ => exact hfree rfl

theorem call_guards (c : Call) : Guards (call c) := by
  cases c with
  | query q => exact (query_guarded q).bind fun _ ↦ trivial
  | emStart id => exact (emStart_guarded id).bind fun _ ↦ trivial
  | emTerminateAgent id => exact (emTerminateAgent_guarded id).bind fun _ ↦ trivial
  | emStop => exact emStop_guarded.bind fun _ ↦ trivial

end Threads

end Prog

theorem system_guarding (S : ℕ → Setup) : Locks.Guarding Access.guard (system S) := by
  intro pt
  cases pt with
  | call c => exact Prog.call_guards c
  | net p t => exact Prog.net_guards t
  | sched p pc => exact Prog.sched_guards S pc

section Frames

variable {p : ℕ} {c : Part}

theorem schedAddTask_ignores (task : Emtask) (x : Trctx) :
    Ignores (fun w ↦ some (w.schedAddTask task)) (Part.triggers.put x) := by
  refine .done fun w ↦ ?_
  cases hs : w.sched.stop <;> simp [World.schedAddTask, Part.put, hs]

theorem netSend_ignores (msg : Bytes) (n : ℤ) (x : c.Data) :
    Ignores (World.netSend · msg n) (c.put x) := by
  refine .ite (fun _ ↦ Iff.rfl) (.done fun _ ↦ rfl) ?_
  refine .ite (fun w ↦ by rw [c.put_net]) (.done fun w ↦ ?_) .fails
  cases c <;> rfl

theorem exec_ignores {o : Op} (ho : o.guard p ≠ some (c.lock p)) (a : Ans) (x : c.Data) :
    Ignores (exec o a) (c.put x) := by
  intro w
  cases o with
  | schedAddTask task =>
    cases c with
    | tasks => exact absurd rfl ho
    | triggers =>
      cases a with
      | tick => exact schedAddTask_ignores task x w
      | _ => rfl
  | trigAdd | trigDelById | trigDelByInst | trigFindById =>
    cases c with
    | tasks => cases a <;> rfl
    | triggers => exact absurd rfl ho
  | malloc =>
    cases a with
    | ok b => cases b <;> cases c <;> rfl
    | _ => rfl
  | netSend msg =>
    cases a with
    | sent n => exact netSend_ignores msg n x w
    | _ => rfl
  | _ => cases a <;> cases c <;> rfl

section Network

variable {E : Emproto} {e : Errno} {ph : Phase} {got : Bytes}

theorem netNoData_ignores (e : Errno) (x : c.Data) :
    Ignores (fun w ↦ some (netNoData e ph got w)) (c.put x) := by
  refine .done fun w ↦ ?_
  unfold netNoData
  split
  · rfl
  · cases c <;> rfl

theorem netReceived_put (bytes : Bytes) (x : c.Data) (w : World) :
    netReceived E ph got bytes (c.put x w) =
      ((netReceived E ph got bytes w).1, c.put x (netReceived E ph got bytes w).2) := by
  cases c
  all_goals
    unfold netReceived
    split <;> rfl

theorem netRecv_ignores (r : RecvResult) (x : c.Data) :
    Ignores (netRecv E e ph got · r) (c.put x) := by
  cases r with
  | data bytes =>
    refine .ite (fun w ↦ by rw [c.put_net]) (.done fun w ↦ ?_) .fails
    simp only [netReceived_put]
  | closed => exact .ite (fun w ↦ by rw [c.put_net]) (netNoData_ignores e x) .fails
  | error e' => exact netNoData_ignores e' x

theorem netSocket_ignores (a : Ans) (x : c.Data) : Ignores (netSocket e · a) (c.put x) := by
  cases a with
  | tick => exact .ite (fun w ↦ by rw [c.put_net]) .fails (.done fun w ↦ rfl)
  | fd n =>
    refine .ite (fun w ↦ by rw [c.put_net]) (.done fun w ↦ ?_) .fails
    cases c <;> rfl
  | fails e' =>
    refine .ite (fun w ↦ by rw [c.put_net]) (.done fun w ↦ ?_) .fails
    cases c <;> rfl
  | _ => exact .fails

theorem netConnect_ignores (r : Option Errno) (x : c.Data) :
    Ignores (netConnect e · r) (c.put x) := by
  cases r with
  | none =>
    refine .ite (fun w ↦ by rw [c.put_net]) (.done fun w ↦ ?_) .fails
    cases c <;> rfl
  | some e' => exact .done fun w ↦ rfl

theorem netConnected_ignores (a : Ans) (x : Trctx) :
    Ignores (netConnected e · a) (Part.triggers.put x) := by
  intro w
  cases a with
  | ok b => cases b <;> rfl
  | time now => cases hs : w.sched.stop <;> simp [netConnected, World.schedAddTask, Part.put, hs]
  | _ => rfl

theorem netStep_ignores {t : NetThread} (ht : t.guard p ≠ some (c.lock p)) (a : Ans)
    (x : c.Data) : Ignores (netStep E t a) (c.put x) := by
  intro w
  rcases t with ⟨pc, e⟩
  cases pc with
  | hello =>
    cases c with
    | tasks => exact absurd rfl ht
    | triggers => exact netConnected_ignores a x w
  | process h =>
    cases h with
    | pure y => cases a <;> cases c <;> rfl
    | call o k =>
      exact (exec_ignores ht a x).map (fun r ↦ (⟨.process (k r), o.errno r e⟩ : NetThread)) w
  | resolve =>
    cases a with
    | ok b => cases b <;> rfl
    | _ => rfl
  | next =>
    cases a with
    | tick =>
      simp only [netStep, c.put_net]
      split <;> rfl
    | _ => rfl
  | socket => exact netSocket_ignores a x w
  | connect =>
    cases a with
    | connect r => exact netConnect_ignores r x w
    | _ => rfl
  | recv ph got =>
    cases a with
    | recv r => exact netRecv_ignores r x w
    | _ => rfl
  | _ => cases a <;> cases c <;> rfl

end Network

theorem schedStep_ignores {S : Setup} {pc : SchPc} (hpc : pc.guard p ≠ some (c.lock p)) (a : Ans)
    (x : c.Data) : Ignores (schedStep S pc a) (c.put x) := by
  intro w
  cases pc with
  | take =>
    cases c with
    | tasks => exact absurd rfl hpc
    | triggers =>
      cases a with
      | tick =>
        simp only [schedStep, Part.put]
        split <;> rfl
      | _ => rfl
  | settle task now op =>
    cases c with
    | tasks => exact absurd rfl hpc
    | triggers => cases op <;> cases a <;> rfl
  | back | drain =>
    cases c with
    | tasks => exact absurd rfl hpc
    | triggers => cases a <;> rfl
  | flush =>
    cases c with
    | tasks => cases a <;> rfl
    | triggers => exact absurd rfl hpc
  | perform task now h =>
    cases h with
    | pure op => cases a <;> cases c <;> rfl
    | call o k => exact (exec_ignores hpc a x).map (fun r ↦ SchPc.perform task now (k r)) w
  | alert =>
    cases a with
    | tick =>
      cases c
      all_goals
        simp only [schedStep]
        split_ifs <;> rfl
    | _ => rfl
  | _ => cases a <;> cases c <;> rfl

section Worlds

variable {β : Type} {f : World → Option (β × World)}

def onWorld (p : ℕ) (f : World → Option (β × World)) (m : Memory) : Option (β × Memory) :=
  (f (m.worlds p)).map fun r ↦ (r.1, m.setWorld p r.2)

theorem onWorld_ignores_other {q : ℕ} (hq : q ≠ p) (g : World → World) :
    Ignores (onWorld p f) fun m ↦ m.setWorld q (g (m.worlds q)) := by
  intro m
  simp only [onWorld, m.setWorld_worlds_of_ne hq.symm, Option.map_map, Function.comp_def,
    Memory.setWorld_worlds_of_ne _ hq, m.setWorld_comm hq]

theorem onWorld_ignores_self {g : World → World} (hf : Ignores f g) :
    Ignores (onWorld p f) fun m ↦ m.setWorld p (g (m.worlds p)) := by
  intro m
  simp only [onWorld, Memory.setWorld_worlds, hf (m.worlds p), Option.map_map, Function.comp_def,
    Memory.setWorld_setWorld]

theorem onWorld_ignores {l : Lock}
    (hf : ∀ (c : Part) (y : c.Data), c.lock p = l → Ignores f (c.put y)) (x : l.Data) :
    Ignores (onWorld p f) (l.put x) := by
  cases l with
  | sched q =>
    by_cases hq : q = p
    · subst hq
      exact onWorld_ignores_self (hf .tasks x rfl)
    · exact onWorld_ignores_other hq _
  | trig q =>
    by_cases hq : q = p
    · subst hq
      exact onWorld_ignores_self (hf .triggers x rfl)
    · exact onWorld_ignores_other hq _
  | coreMain | coreAgents | net =>
    intro m
    simp only [onWorld, Option.map_map]
    rfl

end Worlds

section Answers

variable {β M : Type} {put : M → M} {a : SysAns}

theorem tick_ignores {g : M → β × M} (hg : ∀ m, g (put m) = ((g m).1, put (g m).2)) :
    Ignores (fun m ↦ a.tick (g m)) put := by
  intro m
  simp only [hg, SysAns.tick]
  split <;> rfl

theorem answered_ignores {f : Ans → M → Option (β × M)} (hf : ∀ ans, Ignores (f ans) put) :
    Ignores (fun m ↦ a.toAns.bind (f · m)) put := by
  intro m
  cases a.toAns with
  | none => rfl
  | some ans => exact hf ans m

theorem tick_onWorld (g : World → β × World) (m : Memory) :
    onWorld p (fun w ↦ a.tick (g w)) m =
      a.tick ((g (m.worlds p)).1, m.setWorld p (g (m.worlds p)).2) := by
  simp only [onWorld, SysAns.tick]
  split <;> rfl

end Answers

section Ticks

variable {β : Type} {l : Lock}

theorem tick_world_ignores (a : SysAns) (g : World → β × World) (x : l.Data)
    (hg : ∀ (c : Part) (y : c.Data), c.lock p = l → ∀ w,
      g (c.put y w) = ((g w).1, c.put y (g w).2)) :
    Ignores (fun m ↦ a.tick ((g (m.worlds p)).1, m.setWorld p (g (m.worlds p)).2)) (l.put x) := by
  have h := onWorld_ignores (fun c y hc ↦ tick_ignores (a := a) (hg c y hc)) x
  intro m
  simpa only [tick_onWorld] using h m

theorem tick_read_ignores (a : SysAns) (g : World → β) (x : l.Data)
    (hg : ∀ (c : Part) (y : c.Data), c.lock p = l → ∀ w, g (c.put y w) = g w) :
    Ignores (fun m ↦ a.tick (g (m.worlds p), m)) (l.put x) := by
  have h := tick_world_ignores a (fun w ↦ (g w, w)) x fun c y hc w ↦ by rw [hg c y hc w]
  simpa only [Memory.setWorld_self] using h

end Ticks

theorem access_ignores {S : ℕ → Setup} {i : Access} {l : Lock} (hi : i.guard ≠ some l)
    (hempty : l = .coreAgents → i ≠ .agentsEmpty) (a : SysAns) (x : l.Data) :
    Ignores (access S i a) (l.put x) := by
  cases i with
  | op p o =>
    refine onWorld_ignores (fun c y hc ↦ answered_ignores fun ans ↦ ?_) x
    exact exec_ignores (hc ▸ hi) ans y
  | net p t =>
    refine onWorld_ignores (fun c y hc ↦ answered_ignores fun ans ↦ ?_) x
    exact netStep_ignores (hc ▸ hi) ans y
  | sched p pc =>
    refine onWorld_ignores (fun c y hc ↦ answered_ignores fun ans ↦ ?_) x
    exact schedStep_ignores (hc ▸ hi) ans y
  | stopped p =>
    refine tick_read_ignores a (fun w ↦ w.sched.stop) x fun c y hc w ↦ ?_
    cases c <;> rfl
  | status p =>
    refine tick_read_ignores a (fun w ↦ if w.net.status = .connected then 1 else 0) x
      fun c y hc w ↦ ?_
    cases c <;> rfl
  | triggers p =>
    refine tick_read_ignores a (fun w ↦ w.trig.ts) x fun c y hc w ↦ ?_
    cases c with
    | tasks => rfl
    | triggers => exact absurd (congrArg some hc) hi
  | listAddTail p task =>
    refine tick_world_ignores a (fun w ↦ ((), w.enqueue task)) x fun c y hc w ↦ ?_
    cases c with
    | tasks => exact absurd (congrArg some hc) hi
    | triggers => rfl
  | trigFlush p =>
    refine tick_world_ignores a (fun w ↦ ((), w.flushTriggers)) x fun c y hc w ↦ ?_
    cases c with
    | tasks => rfl
    | triggers => exact absurd (congrArg some hc) hi
  | stopSched p =>
    refine tick_world_ignores a (fun w ↦ ((), w.stopSched)) x fun c y hc w ↦ ?_
    cases c <;> rfl
  | stopNet p =>
    refine tick_world_ignores a (fun w ↦ ((), w.stopNet)) x fun c y hc w ↦ ?_
    cases c <;> rfl
  | malloc =>
    refine Ignores.answer fun b m ↦ ?_
    cases b <;> cases l <;> rfl
  | pthreadCreate | init | calls =>
    exact Ignores.answer fun b m ↦ rfl
  | coreInitialize =>
    refine Ignores.answer fun b m ↦ ?_
    cases l with
    | coreMain => exact absurd rfl hi
    | _ => cases hm : m.coreInit <;> simp [Memory.coreInitialize, Lock.put, Memory.setWorld, hm]
  | agents =>
    intro m
    cases l with
    | coreAgents => exact absurd rfl hi
    | _ =>
      simp only [access, Option.map_map]
      rfl
  | agentsEmpty =>
    intro m
    cases l with
    | coreAgents => exact absurd rfl (hempty rfl)
    | _ =>
      simp only [access, Option.map_map]
      rfl
  | listAdd | listDel =>
    refine tick_ignores fun m ↦ ?_
    cases l with
    | coreAgents => exact absurd rfl hi
    | _ => rfl
  | takeFirst =>
    refine Ignores.answer fun b m ↦ ?_
    cases l with
    | coreAgents => exact absurd rfl hi
    | _ => cases hm : m.agents <;> simp [Memory.takeFirst, Lock.put, Memory.setWorld, hm]
  | write | logFd =>
    refine tick_ignores fun m ↦ ?_
    cases l <;> rfl
  | fclose =>
    refine .ite (fun m ↦ by rw [l.put_logFd]) .fails (tick_ignores fun m ↦ ?_)
    cases l <;> rfl
  | clearLog =>
    refine tick_ignores fun m ↦ ?_
    rw [l.put_logFd]
    split
    · rfl
    · cases l <;> rfl

theorem access_data {S : ℕ → Setup} {i : Access} {a : SysAns} {m m' : Memory} {r : i.Res}
    (h : access S i a m = some (r, m')) (l : Lock) : l.data m' = l.data m ∨ i.guard = some l := by
  by_cases hi : i.guard = some l
  · exact .inr hi
  left
  by_cases hempty : i = .agentsEmpty
  · subst hempty
    obtain ⟨_, _, heq⟩ := Option.map_eq_some_iff.mp h
    cases heq
    rfl
  · have hig := access_ignores (S := S) hi (fun _ ↦ hempty) a (l.data m)
    exact hig.get_eq (l.put_data m) l.data_put h

end Frames

/-- What a lock guards is in the hands of its owner alone: no one else is about
to read it (but for the two looks without the lock) or to change it, no one else
changes it, and from one step of the owner to its next it stays the same,
whatever all other threads do. -/
theorem lists_locked (S : ℕ → Setup) {s : Locks.State Lock ThreadId Access.Res Point Memory}
    (h : (system S).machine.Reachable s) (l : Lock) :
    (∀ t i k, s.threads t = .running (.call (.mem i) k) → s.owner l ≠ some t →
      ¬ i.Stray l → ∀ a x, Ignores (access S i a) (l.put x)) ∧
    (∀ lab s', (system S).machine.step s lab = some s' → l.data s'.mem = l.data s.mem ∨
      ∃ t a, lab = .step t a ∧ s.owner l = some t) ∧
    ∀ t s', s.owner l = some t →
      ((system S).machine.restart s).Reach (fun _ lab ↦ ∀ a, lab ≠ .step t a) s' →
      s'.owner l = some t ∧ l.data s'.mem = l.data s.mem := by
  have hP := system_guarding S
  refine ⟨fun t i k ht howner hstray a x ↦ ?_, fun lab s' hs ↦ ?_, fun t s' howner hr ↦ ?_⟩
  · have hi : i.guard ≠ some l := fun hi ↦ howner (hP.owns h ht hi)
    refine access_ignores hi ?_ a x
    rintro rfl rfl
    exact hstray trivial
  · exact hP.changes (fun i a m r m' he ↦ access_data he l) h hs
  · exact hP.stable (fun i a m r m' he ↦ access_data he l) h howner hr

/-- The network thread has the lock on the tasks when a third caller comes. -/
theorem lists_locked_waiting : ∃ s s',
    (system fun _ ↦ Sample.setup).machine.Reachable s ∧
    (system fun _ ↦ Sample.setup).machine.step s (.call (.caller 2) (.call (.emStart 2))) =
      some s' ∧ s'.owner (.sched 0) = some (.net 0) ∧
    Lock.data (.sched 0) s'.mem = Lock.data (.sched 0) s.mem := by
  obtain ⟨s, hr, howner, hsome⟩ : ∃ s, (system fun _ ↦ Sample.setup).machine.Reachable s ∧
      s.owner (.sched 0) = some (.net 0) ∧
      ((system fun _ ↦ Sample.setup).machine.step s
        (.call (.caller 2) (.call (.emStart 2)))).isSome := by
    refine ⟨_, (system fun _ ↦ Sample.setup).machine.reach_get (fun _ _ ↦ True)
      Sample.waitingRun (by decide +kernel), ?_, ?_⟩
    · decide +kernel
    · decide +kernel
  obtain ⟨s', hs⟩ := Option.isSome_iff_exists.mp hsome
  obtain ⟨_, _, hstable⟩ := lists_locked (fun _ ↦ Sample.setup) hr (.sched 0)
  refine ⟨s, s', hr, hs, hstable (.net 0) s' howner ?_⟩
  refine .step (s := s) (a := .call (.caller 2) (.call (.emStart 2))) .start ?_ hs
  intro a ha
  cases ha

end EmpowerAgent
