import EmpowerAgent.Conduct

namespace EmpowerAgent

open Library.Proc (Obeys)

namespace Event

def acceptedTask : Event → Option ℕ
  | .accepted task => some task
  | _ => none

def freedTask : Event → Option ℕ
  | .freed task => some task
  | _ => none

def OffTasks (e : Event) : Prop := e.acceptedTask = none ∧ e.freedTask = none

end Event

namespace World

def accepted (w : World) : List ℕ := w.hist.filterMap Event.acceptedTask

def freed (w : World) : List ℕ := w.hist.filterMap Event.freedTask

end World

def addrs (ts : List Emtask) : List ℕ := ts.map (·.addr)

@[simp] theorem addrs_nil : addrs [] = [] := rfl

@[simp] theorem addrs_cons (t : Emtask) (ts : List Emtask) :
    addrs (t :: ts) = t.addr :: addrs ts := rfl

@[simp] theorem addrs_append (ts us : List Emtask) : addrs (ts ++ us) = addrs ts ++ addrs us :=
  List.map_append

@[simp] theorem addrs_reverse (ts : List Emtask) : addrs ts.reverse = (addrs ts).reverse :=
  List.map_reverse

/-- The single task in flight, between its removal from the queue and the
section that settles it. -/
def SchPc.held : SchPc → List Emtask
  | .clock task => [task]
  | .perform task _ _ => [task]
  | .settle task _ _ => [task]
  | _ => []

section Accounts

/-- How often a task stands in the four places where it may be. -/
def World.places (w : World) (held : List Emtask) (p : ℕ) : ℕ :=
  (addrs w.sched.jobs).count p + (addrs w.sched.todo).count p + (addrs held).count p +
    w.freed.count p

structure Accounted (held : List Emtask) (w : World) : Prop where
  balance : ∀ p, w.places held p = w.accepted.count p
  once : w.accepted.Nodup
  fresh : ∀ p ∈ w.accepted, p < w.heap

def Owned (own : List ℕ) (w : World) : Prop := ∀ p ∈ own, p < w.heap ∧ p ∉ w.accepted

def Grown (w w' : World) : Prop :=
  w.heap ≤ w'.heap ∧ ∀ p ∈ w'.accepted, p ∈ w.accepted ∨ w.heap ≤ p

/-- A step that moves no task. -/
structure Idle (w w' : World) : Prop where
  jobs : w'.sched.jobs = w.sched.jobs
  todo : w'.sched.todo = w.sched.todo
  heap : w.heap ≤ w'.heap
  hist : Extends Event.OffTasks w w'

variable {w w' : World} {held : List Emtask} {own : List ℕ}

theorem accepted_of_extends (h : Extends (·.acceptedTask = none) w w') :
    w'.accepted = w.accepted :=
  h.filterMap_eq

theorem Idle.accepted (h : Idle w w') : w'.accepted = w.accepted :=
  accepted_of_extends (h.hist.mono fun _ he ↦ he.1)

theorem Idle.freed (h : Idle w w') : w'.freed = w.freed :=
  (h.hist.mono fun _ he ↦ he.2).filterMap_eq

theorem Idle.grown (h : Idle w w') : Grown w w' :=
  ⟨h.heap, fun _ hp ↦ .inl (h.accepted ▸ hp)⟩

theorem Accounted.idle (h : Accounted held w) (hi : Idle w w') : Accounted held w' where
  balance p := by
    have hb := h.balance p
    simp only [World.places, hi.jobs, hi.todo, hi.freed, hi.accepted] at hb ⊢
    exact hb
  once := hi.accepted ▸ h.once
  fresh p hp := Nat.lt_of_lt_of_le (h.fresh p (hi.accepted ▸ hp)) hi.heap

theorem Owned.grown (h : Owned own w) (hg : Grown w w') : Owned own w' := by
  intro p hp
  obtain ⟨hlt, hnot⟩ := h p hp
  refine ⟨Nat.lt_of_lt_of_le hlt hg.1, fun hacc ↦ ?_⟩
  rcases hg.2 p hacc with hacc | hle
  · exact hnot hacc
  · omega

def World.accept (w : World) (task : Emtask) : World :=
  { w with
    sched := { w.sched with jobs := w.sched.jobs ++ [task] }
    hist := w.hist ++ [.accepted task.addr] }

theorem World.accepted_accept (w : World) (task : Emtask) :
    (w.accept task).accepted = w.accepted ++ [task.addr] := by
  simp [World.accepted, World.accept, Event.acceptedTask]

theorem World.freed_accept (w : World) (task : Emtask) : (w.accept task).freed = w.freed := by
  simp [World.freed, World.accept, Event.freedTask]

theorem World.freed_log (w : World) (addr : ℕ) :
    (w.log (.freed addr)).freed = w.freed ++ [addr] := by
  simp [World.freed, World.log, Event.freedTask]

theorem Accounted.accept (h : Accounted held w) (task : Emtask) (hlt : task.addr < w.heap)
    (hnew : task.addr ∉ w.accepted) : Accounted held (w.accept task) where
  balance p := by
    have hb := h.balance p
    simp only [World.places, World.accepted_accept, World.freed_accept, List.count_append] at hb ⊢
    simp only [World.accept, addrs_append, addrs_cons, addrs_nil, List.count_append]
    omega
  once := by
    rw [World.accepted_accept, List.nodup_append]
    refine ⟨h.once, by simp, fun p hp q hq ↦ ?_⟩
    obtain rfl := List.mem_singleton.mp hq
    exact fun heq ↦ hnew (heq ▸ hp)
  fresh p hp := by
    rw [World.accepted_accept, List.mem_append, List.mem_singleton] at hp
    rcases hp with hp | rfl
    · exact h.fresh p hp
    · exact hlt

end Accounts

section Steps

variable {w w' : World} {held : List Emtask} {own : List ℕ}

theorem Idle.silent (hj : w'.sched.jobs = w.sched.jobs) (ht : w'.sched.todo = w.sched.todo)
    (hp : w.heap ≤ w'.heap) (hh : w'.hist = w.hist) : Idle w w' := ⟨hj, ht, hp, .silent hh⟩

theorem Idle.event {e : Event} (hj : w'.sched.jobs = w.sched.jobs)
    (ht : w'.sched.todo = w.sched.todo) (hp : w.heap ≤ w'.heap) (hh : w'.hist = w.hist ++ [e])
    (he : e.OffTasks) : Idle w w' := ⟨hj, ht, hp, .event hh he⟩

theorem Idle.log (w : World) (e : Event) (he : e.OffTasks) : Idle w (w.log e) :=
  .event rfl rfl (Nat.le_refl _) rfl he

theorem Idle.netNotConnected (w : World) : Idle w w.netNotConnected :=
  ⟨rfl, rfl, Nat.le_refl _, .netNotConnected w (fun _ ↦ ⟨rfl, rfl⟩) fun _ ↦ ⟨rfl, rfl⟩⟩

theorem Effect.tasks {o : Op} {r : o.Res} (h : Effect o w r w') :
    Idle w w' ∨ ∃ task, o = .schedAddTask task ∧ w' = w.accept task := by
  have hh := h.heap_le
  cases h with
  | accepted => exact .inr ⟨_, rfl, rfl⟩
  | trigAdd | sent | callback => exact .inl (.event rfl rfl hh rfl ⟨rfl, rfl⟩)
  | _ => exact .inl (.silent rfl rfl hh rfl)

theorem Effect.idle {o : Op} {r : o.Res} {failed : Bool} (h : Effect o w r w')
    (ho : performProtocol.allowed failed o) : Idle w w' := by
  rcases h.tasks with hi | ⟨task, rfl, _⟩
  · exact hi
  · cases ho

theorem Owned.next {o : Op} {r : o.Res} {triggers : Bool} (h : Owned own w) (ha : Accounted held w)
    (he : Effect o w r w') (ho : (queueProtocol triggers).allowed own o) :
    Accounted held w' ∧ Owned ((queueProtocol triggers).next own o r) w' := by
  rcases he.tasks with hi | ⟨task, rfl, rfl⟩
  · refine ⟨ha.idle hi, ?_⟩
    have hown := h.grown hi.grown
    cases he with
    | malloc =>
      intro p hp
      rcases List.mem_cons.mp hp with rfl | hp
      · exact ⟨Nat.lt_succ_self _, fun hacc ↦ absurd (ha.fresh _ hacc) (Nat.lt_irrefl _)⟩
      · exact hown p hp
    | free | refused | accepted => exact fun p hp ↦ hown p (List.mem_filter.mp hp).1
    | _ => exact hown
  · obtain ⟨hmem, _⟩ := ho
    obtain ⟨hlt, hnew⟩ := h _ hmem
    refine ⟨ha.accept task hlt hnew, fun p hp ↦ ?_⟩
    obtain ⟨hp, hne⟩ := List.mem_filter.mp hp
    obtain ⟨hlt', hnew'⟩ := h p hp
    refine ⟨hlt', ?_⟩
    rw [World.accepted_accept, List.mem_append, List.mem_singleton]
    exact not_or.mpr ⟨hnew', by simpa using hne⟩

theorem filterMap_freed (ts : List Emtask) :
    (ts.map (Event.freed ·.addr)).filterMap Event.freedTask = addrs ts := by
  simp [List.filterMap_map, Function.comp_def, Event.freedTask, addrs]

theorem SchMove.accepted {S : Setup} {pc pc' : SchPc} (hm : SchMove S pc w pc' w')
    (hperf : Performing pc) : w'.accepted = w.accepted ∧ w.heap ≤ w'.heap := by
  cases hm with
  | op he =>
    obtain ⟨failed, hobeys⟩ := hperf
    have hi := he.idle hobeys.1
    exact ⟨hi.accepted, hi.heap⟩
  | returned | consumed => exact ⟨accepted_of_extends (.event rfl rfl), Nat.le_refl _⟩
  | netError | drain => exact ⟨accepted_of_extends (.freed rfl fun _ ↦ rfl), Nat.le_refl _⟩
  | alert =>
    split_ifs
    · exact ⟨accepted_of_extends (.event rfl rfl), Nat.le_refl _⟩
    · exact ⟨rfl, Nat.le_refl _⟩
  | down => exact ⟨(Idle.netNotConnected w).accepted, Nat.le_refl _⟩
  | _ => exact ⟨rfl, Nat.le_refl _⟩

theorem SchMove.freed {S : Setup} {pc pc' : SchPc} (hm : SchMove S pc w pc' w')
    (hperf : Performing pc) : w'.freed = w.freed ∨
      (∃ task now, pc = .settle task now .consumed ∧ pc' = .take ∧
        w'.freed = w.freed ++ [task.addr]) ∨
      (∃ task now, pc = .settle task now .netError) ∨ pc = .drain := by
  cases hm with
  | op he =>
    obtain ⟨failed, hobeys⟩ := hperf
    exact .inl (he.idle hobeys.1).freed
  | consumed => exact .inr (.inl ⟨_, _, rfl, rfl, w.freed_log _⟩)
  | netError => exact .inr (.inr (.inl ⟨_, _, rfl⟩))
  | drain => exact .inr (.inr (.inr rfl))
  | returned => exact .inl (Idle.log w _ ⟨rfl, rfl⟩).freed
  | alert =>
    split_ifs
    · exact .inl (Idle.log w _ ⟨rfl, rfl⟩).freed
    · exact .inl rfl
  | down => exact .inl (Idle.netNotConnected w).freed
  | _ => exact .inl rfl

theorem Accounted.move {held' : List Emtask} (h : Accounted held w)
    (hacc : w'.accepted = w.accepted) (hheap : w.heap ≤ w'.heap)
    (hp : ∀ p, w'.places held' p = w.places held p) : Accounted held' w' where
  balance p := by rw [hp, hacc, h.balance]
  once := hacc ▸ h.once
  fresh p hmem := Nat.lt_of_lt_of_le (h.fresh p (hacc ▸ hmem)) hheap

theorem Accounted.schMove {S : Setup} {pc pc' : SchPc} (h : Accounted pc.held w)
    (hperf : Performing pc) (hm : SchMove S pc w pc' w') : Accounted pc'.held w' := by
  obtain ⟨hacc, hheap⟩ := hm.accepted hperf
  cases hm with
  | op he =>
    obtain ⟨failed, hobeys⟩ := hperf
    exact h.idle (he.idle hobeys.1)
  | returned => exact h.idle (.log w _ ⟨rfl, rfl⟩)
  | alert =>
    split_ifs
    · exact h.idle (.log w _ ⟨rfl, rfl⟩)
    · exact h
  | down => exact h.idle (.netNotConnected w)
  | takeTask hjobs =>
    refine h.move hacc hheap fun p ↦ ?_
    simp only [World.places, SchPc.held, hjobs, addrs_cons, addrs_nil, List.count_cons,
      List.count_nil, World.freed]
    omega
  | later | again =>
    refine h.move hacc hheap fun p ↦ ?_
    simp only [World.places, SchPc.held, addrs_cons, addrs_nil, List.count_cons, List.count_nil,
      World.freed]
    omega
  | consumed =>
    refine h.move hacc hheap fun p ↦ ?_
    simp only [World.places, SchPc.held, addrs_cons, addrs_nil, List.count_cons, List.count_nil,
      World.freed, World.log, List.filterMap_append, List.count_append, Event.freedTask,
      List.filterMap_cons, List.filterMap_nil]
    omega
  | netError | drain =>
    refine h.move hacc hheap fun p ↦ ?_
    simp only [World.places, SchPc.held, addrs_cons, addrs_nil, addrs_append, List.count_cons,
      List.count_nil, World.freed, List.filterMap_append, filterMap_freed, List.count_append]
    omega
  | back =>
    refine h.move hacc hheap fun p ↦ ?_
    simp only [World.places, SchPc.held, addrs_nil, addrs_append, addrs_reverse, List.count_append,
      List.count_reverse, List.count_nil, World.freed]
    omega
  | _ => exact h.move hacc hheap fun _ ↦ rfl

end Steps

section Runs

variable {S : Setup} {s : Agent} {w w' : World}

def HandlerOwns (w : World) : NetPc → Prop
  | .process p => ∃ own, Obeys (queueProtocol true) AnyPost own p ∧ Owned own w
  | _ => True

theorem HandlerOwns.grown {pc : NetPc} (h : HandlerOwns w pc) (hg : Grown w w') :
    HandlerOwns w' pc := by
  cases pc with
  | process p =>
    obtain ⟨own, hobeys, hown⟩ := h
    exact ⟨own, hobeys, hown.grown hg⟩
  | _ => trivial

theorem Accounted.netMove {E : Emproto} {held : List Emtask} {t t' : NetThread}
    (h : Accounted held w) (hown : HandlerOwns w t.pc) (hm : NetMove E t w t' w') :
    Accounted held w' ∧ HandlerOwns w' t'.pc := by
  cases hm with
  | handler he =>
    obtain ⟨own, hobeys, hown⟩ := hown
    obtain ⟨hacc, hown⟩ := hown.next h he hobeys.1
    exact ⟨hacc, _, hobeys.2 _, hown⟩
  | helloAdd now =>
    have hheap : Accounted held { w with heap := w.heap + 1 } :=
      h.idle (.silent rfl rfl (Nat.le_succ _) rfl)
    have hnew : w.heap ∉ w.accepted := fun hacc ↦ absurd (h.fresh _ hacc) (Nat.lt_irrefl _)
    exact ⟨hheap.accept (helloTask w.heap now) (Nat.lt_succ_self _) hnew, trivial⟩
  | recvMessage =>
    refine ⟨?_, [], netProcessMessage_obeys E _, nofun⟩
    refine (h.idle (.log w _ ?_)).idle (.log _ _ ?_) <;> exact ⟨rfl, rfl⟩
  | helloRefused => exact ⟨h.idle (.silent rfl rfl (Nat.le_succ _) rfl), trivial⟩
  | socketOpen | recvMore | recvDrop | recvFail =>
    exact ⟨h.idle (.event rfl rfl (Nat.le_refl _) rfl ⟨rfl, rfl⟩), trivial⟩
  | again hpc | connectFail hpc => rcases hpc with rfl | rfl <;> exact ⟨h, trivial⟩
  | undo | down => exact ⟨h.idle (.netNotConnected w), trivial⟩
  | _ => exact ⟨h.idle (.silent rfl rfl (Nat.le_refl _) rfl), trivial⟩

structure CallInv (w₀ : World) (held : List Emtask) (own : List ℕ) (w : World) : Prop where
  books : Accounted held w
  owned : Owned own w
  since : ∀ p ∈ own, w₀.heap ≤ p
  grown : Grown w₀ w

theorem CallInv.step {w₀ : World} {held : List Emtask} {own : List ℕ} {o : Op} {r : o.Res}
    {triggers : Bool} (h : CallInv w₀ held own w)
    (ho : (queueProtocol triggers).allowed own o) (he : Effect o w r w') :
    CallInv w₀ held ((queueProtocol triggers).next own o r) w' := by
  obtain ⟨hacc, hown⟩ := h.owned.next h.books he ho
  have hheap : w₀.heap ≤ w'.heap := Nat.le_trans h.grown.1 he.heap_le
  refine ⟨hacc, hown, fun p hp ↦ ?_, hheap, fun p hp ↦ ?_⟩
  · cases he with
    | malloc =>
      rcases List.mem_cons.mp hp with rfl | hp
      · exact h.grown.1
      · exact h.since p hp
    | free | refused | accepted => exact h.since p (List.mem_filter.mp hp).1
    | _ => exact h.since p hp
  · rcases he.tasks with hi | ⟨task, rfl, rfl⟩
    · exact h.grown.2 p (hi.accepted ▸ hp)
    · rw [World.accepted_accept, List.mem_append, List.mem_singleton] at hp
      rcases hp with hp | rfl
      · exact h.grown.2 p hp
      · exact .inr (h.since _ ho.1)

theorem Accounted.api {held : List Emtask} {call : ApiCall} {answers : List Ans} {x : ℤ}
    (h : Accounted held w) (hr : call.body.run exec answers w = some (x, w')) :
    Accounted held w' ∧ Grown w w' := by
  have h₀ : CallInv w held [] w := ⟨h, nofun, nofun, Nat.le_refl _, fun _ ↦ .inl⟩
  obtain ⟨_, hc⟩ := ApiCall.keeps hr h₀ fun _ _ _ _ _ ho he hc ↦ hc.step ho he
  exact ⟨hc.books, hc.grown⟩

structure TaskInv (s : Agent) : Prop where
  books : Accounted s.sch.held s.w
  handler : HandlerOwns s.w s.net.pc

theorem TaskInv.of_reachable (h : (agent S).Reachable s) : TaskInv s := by
  refine h.invariant ?_ ?_
  · exact ⟨⟨fun _ ↦ rfl, List.nodup_nil, nofun⟩, trivial⟩
  · intro s a s' hr hI _ hs
    cases Agent.step_move hs with
    | net hm =>
      obtain ⟨hacc, hown⟩ := hI.books.netMove hI.handler hm
      exact ⟨hacc, hown⟩
    | sched _ hm =>
      have hperf := (conduct hr).1
      obtain ⟨hacc, hheap⟩ := hm.accepted hperf
      exact ⟨hI.books.schMove hperf hm, hI.handler.grown ⟨hheap, fun _ hp ↦ .inl (hacc ▸ hp)⟩⟩
    | api hr =>
      obtain ⟨hacc, hg⟩ := hI.books.api hr
      exact ⟨hacc, hI.handler.grown hg⟩
    | release hm =>
      cases hm <;> exact ⟨hI.books.idle (.silent rfl rfl (Nat.le_refl _) rfl),
        hI.handler.grown ⟨Nat.le_refl _, fun _ ↦ .inl⟩⟩

structure Steady (w w' : World) : Prop where
  stop : w'.sched.stop = w.sched.stop
  todo : w'.sched.todo = w.sched.todo
  jobs : w.sched.stop = true → w'.sched.jobs = w.sched.jobs

theorem Steady.refl (w : World) : Steady w w := ⟨rfl, rfl, fun _ ↦ rfl⟩

theorem Steady.trans {w'' : World} (h : Steady w w') (h' : Steady w' w'') : Steady w w'' :=
  ⟨h'.stop.trans h.stop, h'.todo.trans h.todo,
    fun hs ↦ (h'.jobs (h.stop.trans hs)).trans (h.jobs hs)⟩

theorem Effect.steady {o : Op} {r : o.Res} (h : Effect o w r w') : Steady w w' := by
  refine ⟨h.stop, h.todo, fun hs ↦ ?_⟩
  cases h with
  | accepted hs' => cases hs.symm.trans hs'
  | _ => rfl

theorem NetMove.steady {E : Emproto} {t t' : NetThread} (h : NetMove E t w t' w') :
    Steady w w' := by
  cases h with
  | handler he => exact he.steady
  | helloAdd _ hs' => exact ⟨rfl, rfl, fun hs ↦ by cases hs.symm.trans hs'⟩
  | _ => exact ⟨rfl, rfl, fun _ ↦ rfl⟩

def Drained (w : World) : SchPc → Prop
  | .drain => w.sched.stop = true
  | .exit => w.sched.stop = true ∧ w.sched.jobs = [] ∧ w.sched.todo = []
  | _ => True

theorem Drained.steady {pc : SchPc} (h : Drained w pc) (hw : Steady w w') : Drained w' pc := by
  cases pc with
  | drain => exact hw.stop.trans h
  | exit =>
    obtain ⟨hs, hj, ht⟩ := h
    exact ⟨hw.stop.trans hs, (hw.jobs hs).trans hj, hw.todo.trans ht⟩
  | _ => trivial

theorem Drained.schMove {pc pc' : SchPc} (h : Drained w pc) (hm : SchMove S pc w pc' w') :
    Drained w' pc' := by
  cases hm with
  | loopDrain hs => exact hs
  | drain => exact ⟨h, rfl, rfl⟩
  | _ => trivial

theorem Drained.of_reachable (h : (agent S).Reachable s) : Drained s.w s.sch := by
  refine h.invariant (I := fun s ↦ Drained s.w s.sch) ?_ ?_
  · trivial
  · intro s a s' _ hI _ hs
    cases Agent.step_move hs with
    | net hm => exact hI.steady hm.steady
    | sched _ hm => exact hI.schMove hm
    | api hr =>
      obtain ⟨_, hw⟩ := ApiCall.keeps (I := fun _ ↦ Steady s.w) hr (.refl s.w)
        fun _ _ _ _ _ _ he hw ↦ hw.trans he.steady
      exact hI.steady hw
    | release hm =>
      cases hm with
      | stopSched =>
        cases hsch : s.sch with
        | drain => trivial
        | exit =>
          rw [hsch] at hI
          exact ⟨rfl, hI.2⟩
        | _ => trivial
      | _ => exact hI.steady ⟨rfl, rfl, fun _ ↦ rfl⟩

/-- Every task accepted stands in exactly one place, so that one that has been
freed is in no list and not in flight; only accepted tasks are ever there; and
after its final drain the scheduler has none and refuses all. -/
theorem task_in_one_place (h : (agent S).Reachable s) :
    (∀ p, p ∈ s.w.accepted → (addrs s.w.sched.jobs).count p + (addrs s.w.sched.todo).count p +
      (addrs s.sch.held).count p + s.w.freed.count p = 1) ∧
    (∀ p, p ∉ s.w.accepted → p ∉ addrs s.w.sched.jobs ∧ p ∉ addrs s.w.sched.todo ∧
      p ∉ addrs s.sch.held ∧ p ∉ s.w.freed) ∧
    (s.sch = .exit → s.w.sched.jobs = [] ∧ s.w.sched.todo = [] ∧
      ∀ task, s.w.schedAddTask task = (-1, s.w)) := by
  have hb := (TaskInv.of_reachable h).books
  refine ⟨fun p hp ↦ ?_, fun p hp ↦ ?_, fun hx ↦ ?_⟩
  · have hone : s.w.accepted.count p = 1 := hb.once.count.trans (if_pos hp)
    exact (hb.balance p).trans hone
  · have hzero := (hb.balance p).trans (List.count_eq_zero_of_not_mem hp)
    simp only [World.places] at hzero
    refine ⟨?_, ?_, ?_, ?_⟩ <;> refine List.count_eq_zero.mp ?_ <;> omega
  · have hd := Drained.of_reachable h
    rw [hx] at hd
    obtain ⟨hs, hj, ht⟩ := hd
    exact ⟨hj, ht, s.w.schedAddTask_of_stop hs⟩

def stopRun : List Act :=
  Sample.connect 3 ++ [Sample.emSend [0, 6, 0, 0, 0, 0]] ++ Sample.performSend (-1) ++
    Sample.dropConnection ++ [.release, .sched .tick, .sched .tick]

theorem task_in_one_place_stopped : ∃ s, (agent Sample.setup).Reachable s ∧
    s.w.accepted = [0, 1] ∧ (addrs s.w.sched.jobs).count 1 + (addrs s.w.sched.todo).count 1 +
      (addrs s.sch.held).count 1 + s.w.freed.count 1 = 1 ∧ 2 ∉ s.w.freed ∧
    s.w.schedAddTask (helloTask 5 (Sample.after 0)) = (-1, s.w) := by
  have hr := (agent Sample.setup).reach_get (fun _ _ ↦ True) stopRun (by decide)
  obtain ⟨hone, hnone, hexit⟩ := task_in_one_place hr
  obtain ⟨_, _, hrefuse⟩ := hexit rfl
  exact ⟨_, hr, by decide, hone 1 (by decide), (hnone 2 (by decide)).2.2.2, hrefuse _⟩

end Runs

end EmpowerAgent
