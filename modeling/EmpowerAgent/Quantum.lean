import EmpowerAgent.Lives
import EmpowerAgent.Requests

namespace EmpowerAgent

namespace Event

def performedTask : Event → Option (ℕ × Outcome)
  | .performed task op => some (task, op)
  | _ => none

end Event

/-- What `sched_perform_job` has returned, task by task. -/
def World.performed (w : World) : List (ℕ × Outcome) := w.hist.filterMap Event.performedTask

def SchPc.settling : SchPc → List (Emtask × Round)
  | .settle task now op => [(task, ⟨now, op⟩)]
  | _ => []

def performedAs (e : Emtask × Round) : ℕ × Outcome := (e.1.addr, e.2.op)

/-- What an observer notes of one call of `sched_consume`: the tasks that it
takes and how their rounds end, what other threads append before and after the
list is found empty, and whether it has been. -/
structure Quantum where
  taken : List Emtask
  rounds : List (Emtask × Round)
  early : List Emtask
  late : List Emtask
  ended : Bool

namespace Quantum

variable (q : Quantum)

def survivors : List Emtask := q.rounds.filterMap fun e ↦ e.1.settle e.2

def consumed : List ℕ := (q.rounds.filter (·.2.op = .consumed)).map (·.1.addr)

end Quantum

namespace Agent

variable (s : Agent)

def takes : Act → List Emtask
  | .sched _ => match s.sch with | .take => s.w.sched.jobs.head?.toList | _ => []
  | _ => []

def settles : Act → List (Emtask × Round)
  | .sched _ => match s.sch with | .settle task now op => [(task, ⟨now, op⟩)] | _ => []
  | _ => []

def findsNone : Act → Bool
  | .sched _ => match s.sch with | .take => s.w.sched.jobs.isEmpty | _ => false
  | _ => false

/-- The step is one of the quantum, and none that deals with a network error. -/
def inQuantum : Act → Bool
  | .sched _ => match s.sch with | .loop | .settle _ _ .netError => false | _ => true
  | _ => true

def line : List Emtask := s.w.sched.todo.reverse ++ s.sch.held ++ s.w.sched.jobs

end Agent

def noteQuantum (s : Agent) (a : Act) (s' : Agent) (q : Quantum) : Quantum where
  taken := q.taken ++ s.takes a
  rounds := q.rounds ++ s.settles a
  early := if q.ended then q.early else q.early ++ s.given s' a
  late := if q.ended then q.late ++ s.given s' a else q.late
  ended := q.ended || s.findsNone a

def quantum (S : Setup) (s : Agent) : Library.Machine (Agent × Quantum) Act :=
  ((agent S).restart s).watch ⟨[], [], [], [], false⟩ noteQuantum

def WithinQuantum (p : Agent × Quantum) (a : Act) : Prop := p.1.inQuantum a = true

instance (p : Agent × Quantum) (a : Act) : Decidable (WithinQuantum p a) :=
  inferInstanceAs (Decidable (_ = true))

section Notes

variable {S : Setup} {s₀ s s' : Agent} {q : Quantum} {w w' : World} {a : Act}

/-- Where the tasks are at each point of `sched_consume`. -/
def Placed (s₀ : Agent) (q : Quantum) (w : World) : SchPc → Prop
  | .take | .clock _ | .perform _ _ _ | .settle _ _ _ =>
    q.ended = false ∧ q.late = [] ∧ q.taken ++ w.sched.jobs = s₀.w.sched.jobs ++ q.early ∧
      w.sched.todo = q.survivors.reverse ++ s₀.w.sched.todo
  | .back => q.ended = true ∧ q.taken = s₀.w.sched.jobs ++ q.early ∧ w.sched.jobs = q.late ∧
      w.sched.todo = q.survivors.reverse ++ s₀.w.sched.todo
  | .loop => q.ended = true ∧ q.taken = s₀.w.sched.jobs ++ q.early ∧ w.sched.todo = [] ∧
      w.sched.jobs = s₀.w.sched.todo.reverse ++ q.survivors ++ q.late
  | _ => False

structure QuantumInv (s₀ : Agent) (pc : SchPc) (w : World) (q : Quantum) : Prop where
  taken : q.rounds.map (·.1) ++ pc.held = q.taken
  freed : w.freed = s₀.w.freed ++ q.consumed
  placed : Placed s₀ q w pc
  performing : Performing pc

theorem Move.appends (hm : Move S s a s') (ha : ∀ ans, a ≠ .sched ans) :
    s'.w.sched.jobs = s.w.sched.jobs ++ s.given s' a ∧ s'.w.sched.todo = s.w.sched.todo := by
  rcases hm.given ha with ⟨hi, hgiven⟩ | ⟨task, v, hi, hw, hgiven⟩
  · rw [hgiven, List.append_nil]
    exact ⟨hi.jobs, hi.todo⟩
  · rw [hgiven, hw]
    exact ⟨by rw [World.accept, hi.jobs], hi.todo⟩

theorem noteQuantum_outside (ha : ∀ ans, a ≠ .sched ans) : noteQuantum s a s' q =
    if q.ended then { q with late := q.late ++ s.given s' a }
    else { q with early := q.early ++ s.given s' a } := by
  have hnone : s.takes a = [] ∧ s.settles a = [] ∧ s.findsNone a = false := by
    cases a with
    | sched => exact absurd rfl (ha _)
    | _ => exact ⟨rfl, rfl, rfl⟩
  obtain ⟨htakes, hsettles, hfinds⟩ := hnone
  simp only [noteQuantum, htakes, hsettles, hfinds, List.append_nil, Bool.or_false]
  split_ifs <;> rfl

theorem Placed.appends {pc : SchPc} {new : List Emtask} (h : Placed s₀ q w pc)
    (hjobs : w'.sched.jobs = w.sched.jobs ++ new) (htodo : w'.sched.todo = w.sched.todo) :
    Placed s₀ (if q.ended then { q with late := q.late ++ new }
      else { q with early := q.early ++ new }) w' pc := by
  cases pc with
  | take | clock | perform | settle =>
    obtain ⟨hended, hlate, htaken, hleft⟩ := h
    rw [if_neg (by simp [hended])]
    refine ⟨hended, hlate, ?_, htodo.trans hleft⟩
    rw [hjobs, ← List.append_assoc, htaken, List.append_assoc]
  | back =>
    obtain ⟨hended, htaken, hlate, hleft⟩ := h
    rw [if_pos hended]
    exact ⟨hended, htaken, by rw [hjobs, hlate], htodo.trans hleft⟩
  | loop =>
    obtain ⟨hended, htaken, hnone, hlate⟩ := h
    rw [if_pos hended]
    refine ⟨hended, htaken, htodo.trans hnone, ?_⟩
    rw [hjobs, hlate, List.append_assoc]
    rfl
  | _ => exact h.elim

theorem QuantumInv.outside (h : QuantumInv s₀ s.sch s.w q) (hm : Move S s a s')
    (ha : ∀ ans, a ≠ .sched ans) : QuantumInv s₀ s'.sch s'.w (noteQuantum s a s' q) := by
  obtain ⟨hsch, hfreed⟩ := hm.unscheduled ha
  obtain ⟨hjobs, htodo⟩ := hm.appends ha
  rw [hsch, noteQuantum_outside ha]
  refine ⟨?_, ?_, h.placed.appends hjobs htodo, h.performing⟩
  · split_ifs <;> exact h.taken
  · rw [hfreed, h.freed]
    split_ifs <;> rfl

theorem QuantumInv.idle {pc pc' : SchPc} (h : QuantumInv s₀ pc w q) (hi : Idle w w')
    (hheld : pc'.held = pc.held) (hpc : Placed s₀ q w pc → Placed s₀ q w pc')
    (hperf : Performing pc') : QuantumInv s₀ pc' w' q where
  taken := by
    rw [hheld]
    exact h.taken
  freed := by rw [hi.freed, h.freed]
  placed := by
    have hplaced := hpc h.placed
    have hjobs := hi.jobs
    have htodo := hi.todo
    cases pc' <;> simp only [Placed, hjobs, htodo] at hplaced ⊢ <;> exact hplaced
  performing := hperf

theorem noteQuantum_sched (ans : Ans) : noteQuantum s (.sched ans) s' q =
    { q with
      taken := q.taken ++ s.takes (.sched ans)
      rounds := q.rounds ++ s.settles (.sched ans)
      ended := q.ended || s.findsNone (.sched ans) } := by
  simp only [noteQuantum, Agent.given, List.append_nil, ite_self]

theorem Quantum.survivors_round (e : Emtask × Round) :
    { q with rounds := q.rounds ++ [e] }.survivors = q.survivors ++ (e.1.settle e.2).toList := by
  cases he : e.1.settle e.2 <;> simp [Quantum.survivors, he]

theorem QuantumInv.settle {task : Emtask} {now : Timespec} {op : Outcome}
    (h : QuantumInv s₀ (.settle task now op) w q)
    (hjobs : w'.sched.jobs = w.sched.jobs)
    (htodo : w'.sched.todo = (task.settle ⟨now, op⟩).toList ++ w.sched.todo)
    (hfreed : w'.freed = w.freed ++ if op = .consumed then [task.addr] else []) :
    QuantumInv s₀ .take w' { q with rounds := q.rounds ++ [(task, ⟨now, op⟩)] } where
  taken := by
    have htaken := h.taken
    simp only [List.map_append, List.map_cons, List.map_nil, SchPc.held, List.append_nil]
      at htaken ⊢
    exact htaken
  freed := by
    rw [hfreed, h.freed]
    by_cases hop : op = .consumed <;> simp [Quantum.consumed, hop]
  placed := by
    obtain ⟨hended, hlate, htaken, htodo₀⟩ := h.placed
    refine ⟨hended, hlate, by rw [hjobs, htaken], ?_⟩
    rw [Quantum.survivors_round, htodo, htodo₀]
    cases task.settle ⟨now, op⟩ <;> simp
  performing := trivial

theorem QuantumInv.sched {ans : Ans} {pc : SchPc} (h : QuantumInv s₀ s.sch s.w q)
    (hm : SchMove S s.sch s.w pc w) (hok : s.inQuantum (.sched ans) = true) :
    QuantumInv s₀ pc w (noteQuantum s (.sched ans) s' q) := by
  rcases s with ⟨w₀, net, pc₀, rel⟩
  rw [noteQuantum_sched]
  simp only at h hm
  cases hm with
  | takeNone hjobs =>
    obtain ⟨hended, hlate, htaken, htodo⟩ := h.placed
    rw [hjobs, List.append_nil] at htaken
    refine ⟨?_, ?_, ?_, trivial⟩
    · simpa [Agent.takes, Agent.settles, hjobs, SchPc.held] using h.taken
    · simpa [Agent.settles, Quantum.consumed] using h.freed
    · refine ⟨?_, ?_, ?_, ?_⟩
      · simp [Agent.findsNone, hjobs]
      · simp [Agent.takes, hjobs, htaken]
      · rw [hjobs, hlate]
      · simpa [Agent.settles, Quantum.survivors] using htodo
  | @takeTask _ task jobs hjobs =>
    obtain ⟨hended, hlate, htaken, htodo⟩ := h.placed
    have htakes : (Agent.mk w₀ net .take rel).takes (.sched ans) = [task] := by
      simp [Agent.takes, hjobs]
    have hfinds : (Agent.mk w₀ net .take rel).findsNone (.sched ans) = false := by
      simp [Agent.findsNone, hjobs]
    have htaken' := h.taken
    rw [htakes, hfinds]
    simp only [Agent.settles, List.append_nil, Bool.or_false, SchPc.held] at htaken' ⊢
    refine ⟨?_, h.freed, ⟨hended, hlate, ?_, htodo⟩, trivial⟩
    · rw [htaken']
      rfl
    · rw [← htaken, hjobs, List.append_assoc, List.singleton_append]
  | clock =>
    simp only [Agent.takes, Agent.settles, Agent.findsNone, List.append_nil, Bool.or_false]
    refine h.idle ?_ rfl id ⟨false, schedPerformJob_performs S _ _⟩
    exact .silent rfl rfl (Nat.le_refl _) rfl
  | returned =>
    simp only [Agent.takes, Agent.settles, Agent.findsNone, List.append_nil, Bool.or_false]
    exact h.idle (.log _ _ ⟨rfl, rfl⟩) rfl id trivial
  | op he =>
    simp only [Agent.takes, Agent.settles, Agent.findsNone, List.append_nil, Bool.or_false]
    obtain ⟨failed, hobeys⟩ := h.performing
    exact h.idle (he.idle hobeys.1) rfl id ⟨_, hobeys.2 _⟩
  | later | again =>
    simp only [Agent.takes, Agent.settles, Agent.findsNone, List.append_nil, Bool.or_false]
    exact h.settle rfl rfl (List.append_nil _).symm
  | consumed =>
    simp only [Agent.takes, Agent.settles, Agent.findsNone, List.append_nil, Bool.or_false]
    exact h.settle rfl rfl (w₀.freed_log _)
  | back =>
    simp only [Agent.takes, Agent.settles, Agent.findsNone, List.append_nil, Bool.or_false]
    obtain ⟨hended, htaken, hlate, htodo⟩ := h.placed
    refine ⟨h.taken, h.freed, ⟨hended, htaken, rfl, ?_⟩, trivial⟩
    rw [htodo, hlate, List.reverse_append, List.reverse_reverse]
  | netError | loopDrain | loopTake => cases hok
  | flush | alert | down | drain => exact h.placed.elim

theorem QuantumInv.of_reach (hpc : s₀.sch = .take) {p : Agent × Quantum}
    (h : (quantum S s₀).Reach WithinQuantum p) : QuantumInv s₀ p.1.sch p.1.w p.2 := by
  refine h.watched (I := fun s q ↦ QuantumInv s₀ s.sch s.w q) (fun _ _ ↦ True)
    (fun _ _ _ ↦ trivial) ?_ ?_
  · simp only [Library.Machine.restart, hpc]
    exact ⟨rfl, by simp [Quantum.consumed], ⟨rfl, rfl, by simp, rfl⟩, trivial⟩
  intro s q a s' _ hI hok hs
  rcases Agent.sched_or hs with ⟨ans, pc, w, rfl, hstep, rfl⟩ | ha
  · exact hI.sched (schedStep_move hstep) hok
  · exact hI.outside (Agent.step_move hs) ha

end Notes

section Performed

variable {S : Setup} {s₀ s s' : Agent} {w w' : World}

theorem Effect.unperformed {o : Op} {r : o.Res} (he : Effect o w r w') :
    Extends (·.performedTask = none) w w' := by
  cases he with
  | accepted | trigAdd | sent | callback => exact .event rfl rfl
  | _ => exact .silent rfl

theorem NetMove.unperformed {E : Emproto} {t t' : NetThread} (hm : NetMove E t w t' w') :
    Extends (·.performedTask = none) w w' := by
  rcases hm.records with hx | ⟨_, _, _, _, he⟩
  · refine hx.mono fun e he ↦ ?_
    cases e <;> first | rfl | cases he
  · exact he.unperformed

theorem Move.unperformed {a : Act} (hm : Move S s a s') (ha : ∀ ans, a ≠ .sched ans) :
    Extends (·.performedTask = none) s.w s'.w := by
  cases hm with
  | sched => exact absurd rfl (ha _)
  | net hm => exact hm.unperformed
  | api hr =>
    obtain ⟨_, hx⟩ := ApiCall.keeps (I := fun _ ↦ Extends (·.performedTask = none) s.w) hr
      (.silent rfl) fun _ _ _ _ _ _ he hx ↦ hx.trans he.unperformed
    exact hx
  | release hm => cases hm <;> exact .silent rfl

theorem SchMove.performed {pc pc' : SchPc} (hm : SchMove S pc w pc' w') :
    w'.performed = w.performed ++ pc'.settling.map performedAs := by
  have hnone (hx : Extends (·.performedTask = none) w w') (hpc : pc'.settling = []) :
      w'.performed = w.performed ++ pc'.settling.map performedAs := by
    rw [hpc]
    exact hx.filterMap_eq.trans (List.append_nil _).symm
  cases hm with
  | returned => simp [World.performed, World.log, SchPc.settling, performedAs, Event.performedTask]
  | op he => exact hnone he.unperformed rfl
  | consumed => exact hnone (.event rfl rfl) rfl
  | netError | drain => exact hnone (.freed rfl fun _ ↦ rfl) rfl
  | alert =>
    refine hnone ?_ rfl
    split_ifs
    · exact .event rfl rfl
    · exact .silent rfl
  | down => exact hnone (.netNotConnected w (fun _ ↦ rfl) fun _ ↦ rfl) rfl
  | _ => exact hnone (.silent rfl) rfl

theorem Agent.settles_sched (ans : Ans) : s.settles (.sched ans) = s.sch.settling := by
  unfold Agent.settles SchPc.settling
  cases s.sch <;> rfl

/-- A round is what `sched_perform_job` returned, and the one that it returned
last may still have to be noted. -/
theorem performed_of_reach {ok : Agent × Quantum → Act → Prop} {p : Agent × Quantum}
    (hpc : s₀.sch = .take) (h : (quantum S s₀).Reach ok p) :
    p.1.w.performed = s₀.w.performed ++ (p.2.rounds ++ p.1.sch.settling).map performedAs := by
  refine h.watched (I := fun s q ↦ s.w.performed =
    s₀.w.performed ++ (q.rounds ++ s.sch.settling).map performedAs) (fun _ _ ↦ True)
    (fun _ _ _ ↦ trivial) ?_ ?_
  · change s₀.w.performed = s₀.w.performed ++ ([] ++ s₀.sch.settling).map performedAs
    rw [hpc]
    exact (List.append_nil _).symm
  intro s q a s' _ hI _ hs
  rcases Agent.sched_or hs with ⟨ans, pc, w, rfl, hstep, rfl⟩ | ha
  · rw [noteQuantum_sched, Agent.settles_sched, (schedStep_move hstep).performed, hI]
    simp only [List.map_append, List.append_assoc]
  · have hm : Move S s a s' := Agent.step_move hs
    have hsame : s'.w.performed = s.w.performed := (hm.unperformed ha).filterMap_eq
    rw [hsame, hI, (hm.unscheduled ha).1, noteQuantum_outside ha]
    split_ifs <;> rfl

end Performed

section Ending

variable {S : Setup} {s₀ s s' : Agent} {q : Quantum} {p p' : Agent × Quantum}

def Quantum.appended (q : Quantum) : ℕ := q.early.length + q.late.length

def SchPc.stage : SchPc → ℕ × Proc Outcome
  | .clock _ => (5, .pure .consumed)
  | .perform _ _ p => (4, p)
  | .settle _ _ _ => (3, .pure .consumed)
  | .take => (2, .pure .consumed)
  | .back => (1, .pure .consumed)
  | _ => (0, .pure .consumed)

def height (bound : ℕ) (p : Agent × Quantum) : ℕ × ℕ × Proc Outcome :=
  match p.1.sch with
  | .loop => (0, SchPc.loop.stage)
  | pc => (bound - p.2.appended + p.1.w.sched.jobs.length, pc.stage)

abbrev Below : ℕ × ℕ × Proc Outcome → ℕ × ℕ × Proc Outcome → Prop :=
  Prod.Lex (· < ·) (Prod.Lex (· < ·) Library.Proc.Rest)

theorem below_wf : WellFounded Below :=
  (Prod.lex ⟨_, Nat.lt_wfRel.wf⟩ (Prod.lex ⟨_, Nat.lt_wfRel.wf⟩ ⟨_, Library.Proc.Rest.wf⟩)).wf

theorem height_sched {bound : ℕ} {ans : Ans} {pc : SchPc} {w : World}
    (h : QuantumInv s₀ s.sch s.w q) (hm : SchMove S s.sch s.w pc w)
    (hok : s.inQuantum (.sched ans) = true) :
    Below (height bound ({ s with sch := pc, w }, noteQuantum s (.sched ans) s' q))
      (height bound (s, q)) := by
  rcases s with ⟨w₀, net, pc₀, rel⟩
  rw [noteQuantum_sched]
  simp only at h hm
  cases hm with
  | takeTask hjobs =>
    refine .left _ _ ?_
    simp only [Quantum.appended, hjobs, List.length_cons]
    omega
  | op he =>
    obtain ⟨failed, hobeys⟩ := h.performing
    have hjobs := (he.idle hobeys.1).jobs
    simp only [height, Quantum.appended, hjobs]
    exact .right _ (.right _ (.call _))
  | back =>
    simp only [height]
    by_cases hzero : bound - q.appended + w₀.sched.jobs.length = 0
    · rw [hzero]
      exact .right _ (.left _ _ (by decide))
    · exact .left _ _ (Nat.pos_of_ne_zero hzero)
  | takeNone | clock | returned | later | again | consumed =>
    exact .right _ (.left _ _ (by decide))
  | netError | loopDrain | loopTake => cases hok
  | flush | alert | down | drain => exact h.placed.elim

theorem height_outside {bound : ℕ} {a : Act} (hm : Move S s a s') (ha : ∀ ans, a ≠ .sched ans)
    (hle : (noteQuantum s a s' q).appended ≤ bound) :
    height bound (s', noteQuantum s a s' q) = height bound (s, q) := by
  have hsch := (hm.unscheduled ha).1
  have hjobs := (hm.appends ha).1
  have happ : (noteQuantum s a s' q).appended = q.appended + (s.given s' a).length := by
    rw [noteQuantum_outside ha]
    split_ifs <;> simp only [Quantum.appended, List.length_append] <;> omega
  have hleft : bound - (noteQuantum s a s' q).appended + s'.w.sched.jobs.length =
      bound - q.appended + s.w.sched.jobs.length := by
    rw [hjobs, List.length_append]
    omega
  unfold height
  simp only [hsch, hleft]

end Ending

section Order

variable {S : Setup} {s₀ s s' : Agent} {a : Act}

/-- Some tasks leave the line, the others keep their places in it, and new ones
come in at its end. -/
def Agent.Follows (s s' : Agent) : Prop :=
  ∃ l new, l.Sublist (addrs s.line) ∧ addrs s'.line = l ++ new

theorem Agent.Follows.of_sublist (h : (addrs s'.line).Sublist (addrs s.line)) : s.Follows s' :=
  ⟨_, [], h, (List.append_nil _).symm⟩

theorem Agent.Follows.of_append (new : List ℕ) (h : addrs s'.line = addrs s.line ++ new) :
    s.Follows s' :=
  ⟨_, new, List.Sublist.refl _, h⟩

theorem Agent.Follows.trans {s'' : Agent} (h : s.Follows s') (h' : s'.Follows s'') :
    s.Follows s'' := by
  obtain ⟨l, new, hl, heq⟩ := h
  obtain ⟨l', new', hl', heq'⟩ := h'
  rw [heq] at hl'
  obtain ⟨l₁, l₂, rfl, h₁, _⟩ := List.sublist_append_iff.mp hl'
  exact ⟨l₁, l₂ ++ new', h₁.trans hl, by rw [heq', List.append_assoc]⟩

theorem follows_sched {pc : SchPc} {w : World} (hm : SchMove S s.sch s.w pc w) :
    s.Follows { s with sch := pc, w } := by
  rcases s with ⟨w₀, net, pc₀, rel⟩
  simp only at hm ⊢
  cases hm with
  | takeTask hjobs => exact .of_sublist (by simp [Agent.line, SchPc.held, hjobs])
  | op he =>
    rcases he.tasks with hi | ⟨task, _, rfl⟩
    · exact .of_sublist (by simp [Agent.line, SchPc.held, hi.jobs, hi.todo])
    · exact .of_append [task.addr] (by simp [Agent.line, SchPc.held, World.accept])
  | netError | drain => exact .of_sublist (by simp [Agent.line, SchPc.held])
  | alert => split_ifs <;> exact .of_sublist (by simp [Agent.line, SchPc.held, World.log])
  | _ => exact .of_sublist (by simp [Agent.line, SchPc.held, World.log, World.netNotConnected])

theorem follows_of_reach (h : ((agent S).restart s₀).Reachable s) : s₀.Follows s := by
  refine h.invariant (I := s₀.Follows) (.of_sublist (List.Sublist.refl _)) ?_
  intro s a s' _ hI _ hs
  refine hI.trans ?_
  rcases Agent.sched_or hs with ⟨ans, pc, w, rfl, hstep, rfl⟩ | ha
  · exact follows_sched (schedStep_move hstep)
  · have hm : Move S s a s' := Agent.step_move hs
    obtain ⟨hjobs, htodo⟩ := hm.appends ha
    have hsch := (hm.unscheduled ha).1
    refine .of_append (addrs (s.given s' a)) ?_
    simp only [Agent.line, hjobs, htodo, hsch, addrs_append, List.append_assoc]

end Order

section Quanta

variable {S : Setup} {s₀ s : Agent} {q : Quantum} {p : Agent × Quantum}

theorem exec_progress (o : Op) (w : World) : ∃ ans r, exec o ans w = some r := by
  obtain ⟨ans, r, w', _, he⟩ := exec_answers o w
  exact ⟨ans, (r, w'), he⟩

theorem sched_progress (h : QuantumInv s₀ s.sch s.w q) (hloop : s.sch ≠ .loop) :
    ∃ ans r, schedStep S s.sch ans s.w = some r := by
  have hplaced := h.placed
  cases hpc : s.sch with
  | take =>
    refine ⟨.tick, ?_⟩
    cases hjobs : s.w.sched.jobs <;> simp [schedStep, hjobs]
  | clock task => exact ⟨.time ⟨0, 0⟩, _, rfl⟩
  | perform task now p =>
    cases p with
    | pure op => exact ⟨.tick, _, rfl⟩
    | call o k =>
      obtain ⟨ans, r, he⟩ := exec_progress o s.w
      exact ⟨ans, _, Option.map_eq_some_iff.mpr ⟨r, he, rfl⟩⟩
  | settle => exact ⟨.tick, _, rfl⟩
  | back => exact ⟨.tick, _, rfl⟩
  | loop => exact absurd hpc hloop
  | _ =>
    rw [hpc] at hplaced
    exact hplaced.elim

theorem height_step {bound : ℕ} {a : Act} {p' : Agent × Quantum} (hpc : s₀.sch = .take)
    (h : (quantum S s₀).Reach WithinQuantum p) (hok : WithinQuantum p a)
    (hs : (quantum S s₀).step p a = some p') (hle : p'.2.appended ≤ bound) :
    ((∃ ans, a = .sched ans) → Below (height bound p') (height bound p)) ∧
      ((¬ ∃ ans, a = .sched ans) → height bound p' = height bound p) := by
  rcases p with ⟨s, q⟩
  rcases p' with ⟨s', q'⟩
  obtain ⟨hstep, hnote⟩ := Library.Machine.watch_step hs
  dsimp only at hstep hnote hle
  subst hnote
  have hm : Move S s a s' := Agent.step_move hstep
  constructor
  · rintro ⟨ans, rfl⟩
    cases hm with
    | sched _ hm => exact height_sched (QuantumInv.of_reach hpc h) hm hok
  · exact fun ha ↦ height_outside hm (not_exists.mp ha) hle

/-- A quantum in which only so many tasks are appended does not go on forever. -/
theorem quantum_ends (hpc : s₀.sch = .take) {f : ℕ → Agent × Quantum} {as : ℕ → Act}
    (hrun : (quantum S s₀).Run WithinQuantum f as) {bound : ℕ}
    (hbound : ∀ n, (f n).2.appended ≤ bound) : ∃ n, ∀ m, n ≤ m → ¬ ∃ ans, as m = .sched ans := by
  have hheight (n : ℕ) := height_step hpc (hrun.reach n) (hrun.ok n) (hrun.step n) (hbound (n + 1))
  exact Library.Machine.descent_ends (f := fun n ↦ height bound (f n)) below_wf
    (fun n ↦ (hheight n).1) fun n ↦ (hheight n).2

/-- `sched_consume` comes to its end however many tasks are appended meanwhile,
and has then taken, in the order of the queue, each task that it found there
and each that came before it found the list empty; it has performed each of
them once, has freed those for which `sched_perform_job` returned that they are
consumed, and the others wait, in the order in which they were taken, before
those that came later. Over any number of quanta the tasks that are left keep
their order. -/
theorem quantum_spec (hpc : s₀.sch = .take) (htodo : s₀.w.sched.todo = []) :
    (∀ p, (quantum S s₀).Reach WithinQuantum p → p.1.sch = .loop →
      p.2.taken = s₀.w.sched.jobs ++ p.2.early ∧ p.2.rounds.map (·.1) = p.2.taken ∧
      p.1.w.performed = s₀.w.performed ++ p.2.rounds.map performedAs ∧
      p.1.w.freed = s₀.w.freed ++ p.2.consumed ∧ p.1.w.sched.todo = [] ∧
      p.1.w.sched.jobs = p.2.survivors ++ p.2.late) ∧
    (∀ p, (quantum S s₀).Reach WithinQuantum p → p.1.sch ≠ .loop →
      ∃ ans p', (quantum S s₀).step p (.sched ans) = some p') ∧
    (∀ f as bound, (quantum S s₀).Run WithinQuantum f as → (∀ n, (f n).2.appended ≤ bound) →
      ∃ n, ∀ m, n ≤ m → ¬ ∃ ans, as m = .sched ans) ∧
    ∀ s, ((agent S).restart s₀).Reachable s →
      ∃ l new, l.Sublist (addrs s₀.w.sched.jobs) ∧ addrs s.line = l ++ new := by
  refine ⟨fun p h hloop ↦ ?_, fun p h hloop ↦ ?_, fun f as bound hrun hbound ↦ ?_, fun s h ↦ ?_⟩
  · have hI := QuantumInv.of_reach hpc h
    rw [hloop] at hI
    obtain ⟨_, htaken, hdone, hjobs⟩ := hI.placed
    refine ⟨htaken, ?_, ?_, hI.freed, hdone, ?_⟩
    · simpa [SchPc.held] using hI.taken
    · simpa [hloop, SchPc.settling] using performed_of_reach hpc h
    · simpa [htodo] using hjobs
  · obtain ⟨ans, r, hr⟩ := sched_progress (QuantumInv.of_reach hpc h) hloop
    have hstep : (agent S).step p.1 (.sched ans) = some { p.1 with sch := r.1, w := r.2 } :=
      Option.map_eq_some_iff.mpr ⟨r, hr, rfl⟩
    exact ⟨ans, _, Option.map_eq_some_iff.mpr ⟨_, hstep, rfl⟩⟩
  · exact quantum_ends hpc hrun hbound
  · have hfollows := follows_of_reach h
    simpa [Agent.Follows, Agent.line, hpc, htodo, SchPc.held] using hfollows

def quantumStart (jobs : List Emtask) : Agent where
  w := { Agent.start.w with sched := ⟨false, jobs, []⟩ }
  net := Agent.start.net
  sch := .take
  rel := .idle

def quantumJobs : List Emtask :=
  [Emtask.init 0 .ueReport 1 0 1 none, Emtask.init 1 .hello 2000 (-1) 0 none]

def quantumRun : List Act :=
  [.sched .tick, .sched (.time (Sample.after 1)), .sched .tick, .sched .tick,
    Sample.emSend [0, 6, 0, 0, 0, 0], .sched .tick, .sched .tick,
    .sched (.time (Sample.after 1)), .sched .tick, .sched .tick, .sched .tick,
    .sched (.time (Sample.after 0)), .sched .tick, .sched .tick, .sched .tick,
    Sample.emSend [0, 6, 0, 0, 0, 1], .sched .tick]

theorem quantum_spec_run : ∃ p,
    (quantum Sample.setup (quantumStart quantumJobs)).Reach WithinQuantum p ∧
    p.1.sch = .loop ∧ p.2.survivors.length = 2 ∧ p.2.late.length = 1 ∧
    p.1.w.performed = p.2.rounds.map performedAs ∧ p.1.w.freed = [0] ∧
    p.1.w.sched.jobs = p.2.survivors ++ p.2.late := by
  have hr := (quantum Sample.setup (quantumStart quantumJobs)).reach_get WithinQuantum quantumRun
    (by decide +kernel)
  obtain ⟨hspec, _⟩ := @quantum_spec Sample.setup (quantumStart quantumJobs) rfl rfl
  obtain ⟨_, _, hperformed, _, _, hjobs⟩ := hspec _ hr (by rfl)
  exact ⟨_, hr, by rfl, by decide +kernel, by decide +kernel, hperformed, by decide +kernel, hjobs⟩

end Quanta

end EmpowerAgent
