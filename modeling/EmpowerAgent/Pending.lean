import EmpowerAgent.TaskOwnership

namespace EmpowerAgent

open Library.Proc (Ensures ensures_pure ensures_call)
open Proc

section Calls

inductive ApiMove : ApiCall → World → World → Prop
  | emSend {msg : Bytes} {w : World} {heap : ℕ} : w.heap ≤ heap →
      ApiMove (.emSend msg) w { w with heap }
  | emSendQueued {msg : Bytes} {w : World} {heap addr : ℕ} {now : Timespec} :
      w.heap ≤ addr → addr < heap → w.sched.stop = false →
      ApiMove (.emSend msg) w (World.accept { w with heap }
        { Emtask.init addr .send 1 0 0 (some msg) with issued := now })
  | emHasTrigger {tid : Int32} {w : World} : ApiMove (.emHasTrigger tid) w w
  | emDelTrigger {tid : Int32} {w : World} :
      ApiMove (.emDelTrigger tid) w { w with trig := (w.trig.trigDelById tid).2 }

variable {w w' : World}

theorem schedAddTask_ensures_accept (task : Emtask) (w : World) :
    Ensures exec (fun _ ↦ True) (schedAddTask task) w fun x w' ↦
      x = -1 ∧ w' = w ∨
        x = 0 ∧ w.sched.stop = false ∧ ∃ now, w' = w.accept { task with issued := now } := by
  refine ensures_call fun a now w₁ _ h₁ ↦ ?_
  cases exec_effect h₁
  refine ensures_call fun a r w₂ _ h₂ ↦ ensures_pure ?_
  cases exec_effect h₂ with
  | refused => exact .inl ⟨rfl, rfl⟩
  | accepted hs => exact .inr ⟨rfl, hs, now, rfl⟩

theorem coreSend_ensures (msg : Bytes) (w : World) :
    Ensures exec (fun _ ↦ True) (coreSend msg) w fun x w' ↦
      (x = -1 ∧ ∃ heap, w.heap ≤ heap ∧ w' = { w with heap }) ∨
        x = 0 ∧ ∃ heap addr now, w.heap ≤ addr ∧ addr < heap ∧ w.sched.stop = false ∧
          w' = World.accept { w with heap }
            { Emtask.init addr .send 1 0 0 (some msg) with issued := now } := by
  have hfail {heap : ℕ} (hle : w.heap ≤ heap) {Q : ℤ → World → Prop} : Ensures exec (fun _ ↦ True)
      (do emlog "Cannot create new SEND task\n"; return (-1 : ℤ)) { w with heap }
      fun x w' ↦ (x = -1 ∧ ∃ heap, w.heap ≤ heap ∧ w' = { w with heap }) ∨ Q x w' := by
    refine ensures_call fun a r w₁ _ h₁ ↦ ensures_pure ?_
    cases exec_effect h₁
    exact .inl ⟨rfl, heap, hle, rfl⟩
  refine ensures_call fun a r w₁ _ h₁ ↦ ?_
  cases exec_effect h₁ with
  | mallocFail => exact hfail (Nat.le_refl _)
  | malloc =>
    refine ensures_call fun a r w₂ _ h₂ ↦ ?_
    cases exec_effect h₂ with
    | mallocFail =>
      refine ensures_call fun a r w₃ _ h₃ ↦ ?_
      cases exec_effect h₃
      exact hfail (Nat.le_succ _)
    | malloc =>
      refine (schedAddTask_ensures_accept _ _).mono fun x w' h ↦ ?_
      rcases h with ⟨rfl, rfl⟩ | ⟨rfl, hs, now, rfl⟩
      · exact .inl ⟨rfl, _, Nat.le_add_right w.heap 2, rfl⟩
      · have hlt : w.heap < w.heap + 1 + 1 := by omega
        exact .inr ⟨rfl, _, _, now, Nat.le_refl _, hlt, hs, rfl⟩

theorem apiCall_move {call : ApiCall} {answers : List Ans} {x : ℤ}
    (h : call.body.run exec answers w = some (x, w')) : ApiMove call w w' := by
  have hensures : Ensures exec (fun _ ↦ True) call.body w fun _ w' ↦ ApiMove call w w' := by
    cases call with
    | emSend msg =>
      simp only [ApiCall.body]
      split_ifs
      · exact ensures_pure (.emSend (Nat.le_refl _))
      · refine (coreSend_ensures msg w).mono fun x w' h ↦ ?_
        rcases h with ⟨_, heap, hle, rfl⟩ | ⟨_, heap, addr, now, hle, hlt, hs, rfl⟩
        · exact .emSend hle
        · exact .emSendQueued hle hlt hs
    | emHasTrigger tid =>
      refine ensures_call fun a r w₁ _ h₁ ↦ ensures_pure ?_
      cases exec_effect h₁
      exact .emHasTrigger
    | emDelTrigger tid =>
      refine ensures_call fun a r w₁ _ h₁ ↦ ensures_pure ?_
      cases exec_effect h₁
      exact .emDelTrigger
  exact hensures answers x w' (fun _ _ ↦ trivial) h

end Calls

section Pending

def World.pending (w : World) (pc : SchPc) : List Emtask := pc.held ++ w.sched.todo ++ w.sched.jobs

def Agent.pending (s : Agent) : List Emtask := s.w.pending s.sch

/-- The same task, perhaps at another time of its life. One that is not to be
done again stays so. -/
structure Emtask.Same (t t' : Emtask) : Prop where
  addr : t'.addr = t.addr
  type : t'.type = t.type
  mod : t'.mod = t.mod
  msg : t'.msg = t.msg
  trig : t'.trig = t.trig
  resch : t.resch = 0 → t'.resch = 0

theorem Emtask.Same.refl (t : Emtask) : t.Same t := ⟨rfl, rfl, rfl, rfl, rfl, id⟩

theorem Emtask.Same.trans {t t' t'' : Emtask} (h : t.Same t') (h' : t'.Same t'') : t.Same t'' where
  addr := h'.addr.trans h.addr
  type := h'.type.trans h.type
  mod := h'.mod.trans h.mod
  msg := h'.msg.trans h.msg
  trig := h'.trig.trans h.trig
  resch hzero := h'.resch (h.resch hzero)

inductive Queues (s : Agent) : Act → Emtask → Prop
  | hello {a : Ans} {now : Timespec} : s.net.pc = .hello →
      Queues s (.net a) (helloTask s.w.heap now)
  | handler {a : Ans} {task : Emtask} {k : ℤ → Proc ℤ} :
      s.net.pc = .process (.call (.schedAddTask task) k) → Queues s (.net a) task
  | emSend {msg : Bytes} {answers : List Ans} {addr : ℕ} {now : Timespec} :
      Queues s (.api (.emSend msg) answers)
        { Emtask.init addr .send 1 0 0 (some msg) with issued := now }

variable {S : Setup} {s s' : Agent} {w w' : World} {task : Emtask}

theorem Queues.handed {ans : Ans} {new : Emtask} {k : ℤ → Proc ℤ} (h : Queues s (.net ans) task)
    (hpc : s.net.pc = .process (.call (.schedAddTask new) k)) : task = new := by
  cases h with
  | hello hpc' => cases hpc.symm.trans hpc'
  | handler hpc' =>
    cases hpc.symm.trans hpc'
    rfl

theorem World.mem_pending {pc : SchPc} : task ∈ w.pending pc ↔
    task ∈ pc.held ∨ task ∈ w.sched.todo ∨ task ∈ w.sched.jobs := by
  simp only [World.pending, List.mem_append, or_assoc]

theorem Idle.pending (h : Idle w w') (pc : SchPc) : w'.pending pc = w.pending pc := by
  rw [World.pending, World.pending, h.jobs, h.todo]

theorem mem_pending_accept {t : Emtask} {pc : SchPc} (h : task ∈ (w.accept t).pending pc) :
    task ∈ w.pending pc ∨ task = t := by
  simp only [World.mem_pending, World.accept, List.mem_append, List.mem_singleton] at h ⊢
  tauto

theorem SchMove.pending {pc pc' : SchPc} (hm : SchMove S pc w pc' w') (hperf : Performing pc)
    (h : task ∈ w'.pending pc') : ∃ t₀ ∈ w.pending pc, t₀.Same task := by
  have keep (h : task ∈ w.pending pc) : ∃ t₀ ∈ w.pending pc, t₀.Same task := ⟨task, h, .refl _⟩
  cases hm with
  | op he =>
    obtain ⟨failed, hobeys⟩ := hperf
    exact keep ((he.idle hobeys.1).pending _ ▸ h)
  | @again _ t now =>
    simp only [World.mem_pending, SchPc.held, List.not_mem_nil, List.mem_cons, false_or] at h
    rcases h with (rfl | h) | h
    · refine ⟨t, World.mem_pending.mpr (.inl (List.mem_singleton_self t)), ?_⟩
      exact ⟨rfl, rfl, rfl, rfl, rfl, fun hzero ↦ by simp [hzero]⟩
    · exact keep (World.mem_pending.mpr (.inr (.inl h)))
    · exact keep (World.mem_pending.mpr (.inr (.inr h)))
  | takeTask hjobs =>
    apply keep
    simp only [World.mem_pending, SchPc.held, hjobs, List.mem_cons, List.not_mem_nil] at h ⊢
    tauto
  | later =>
    apply keep
    simp only [World.mem_pending, SchPc.held, List.mem_cons, List.not_mem_nil] at h ⊢
    tauto
  | back =>
    apply keep
    simp only [World.mem_pending, SchPc.held, List.mem_append, List.mem_reverse,
      List.not_mem_nil] at h ⊢
    tauto
  | consumed =>
    apply keep
    simp only [World.mem_pending, SchPc.held, List.not_mem_nil, false_or] at h
    exact World.mem_pending.mpr (.inr h)
  | netError | drain => simp [World.mem_pending, SchPc.held] at h
  | alert => split_ifs at h <;> exact keep h
  | _ => exact keep h

theorem NetMove.tasks {E : Emproto} {t t' : NetThread} (hm : NetMove E t w t' w') :
    Idle w w' ∨ ∃ task v, Idle w v ∧ w' = v.accept task ∧
      ((∃ now, t.pc = .hello ∧ task = helloTask w.heap now) ∨
        ∃ k, t.pc = .process (.call (.schedAddTask task) k)) := by
  cases hm with
  | handler he =>
    rcases he.tasks with hi | ⟨task, rfl, rfl⟩
    · exact .inl hi
    · exact .inr ⟨task, w, .silent rfl rfl (Nat.le_refl _) rfl, rfl, .inr ⟨_, rfl⟩⟩
  | helloAdd now =>
    have hi : Idle w { w with heap := w.heap + 1 } := .silent rfl rfl (Nat.le_succ _) rfl
    exact .inr ⟨_, _, hi, rfl, .inl ⟨now, rfl, rfl⟩⟩
  | helloRefused => exact .inl (.silent rfl rfl (Nat.le_succ _) rfl)
  | socketOpen | recvMore | recvDrop | recvFail =>
    exact .inl (.event rfl rfl (Nat.le_refl _) rfl ⟨rfl, rfl⟩)
  | recvMessage =>
    refine .inl ⟨rfl, rfl, Nat.le_refl _, .trans (.log w _ ?_) (.log _ _ ?_)⟩ <;> exact ⟨rfl, rfl⟩
  | undo | down => exact .inl (.netNotConnected w)
  | _ => exact .inl (.silent rfl rfl (Nat.le_refl _) rfl)

theorem NetMove.pending {E : Emproto} {t t' : NetThread} (hm : NetMove E t w t' w') (pc : SchPc)
    (h : task ∈ w'.pending pc) : task ∈ w.pending pc ∨
      w'.accepted = w.accepted ++ [task.addr] ∧
        ((∃ now, t.pc = .hello ∧ task = helloTask w.heap now) ∨
          ∃ k, t.pc = .process (.call (.schedAddTask task) k)) := by
  rcases hm.tasks with hi | ⟨u, v, hi, rfl, hu⟩
  · exact .inl (hi.pending pc ▸ h)
  · rcases mem_pending_accept h with h | rfl
    · exact .inl (hi.pending pc ▸ h)
    · rw [World.accepted_accept, hi.accepted]
      exact .inr ⟨rfl, hu⟩

theorem Move.pending {a : Act} (hm : Move S s a s') (hperf : Performing s.sch)
    (h : task ∈ s'.pending) : (∃ t₀ ∈ s.pending, t₀.Same task) ∨
      Queues s a task ∧ s'.w.accepted = s.w.accepted ++ [task.addr] := by
  cases hm with
  | net hm =>
    rcases hm.pending _ h with h | ⟨hacc, ⟨now, hpc, rfl⟩ | ⟨k, hpc⟩⟩
    · exact .inl ⟨task, h, .refl _⟩
    · exact .inr ⟨.hello hpc, hacc⟩
    · exact .inr ⟨.handler hpc, hacc⟩
  | sched _ hm => exact .inl (hm.pending hperf h)
  | api hr =>
    cases apiCall_move hr with
    | @emSendQueued msg _ heap addr now hle hlt hs =>
      rcases mem_pending_accept h with h | rfl
      · exact .inl ⟨task, h, .refl _⟩
      · exact .inr ⟨.emSend, World.accepted_accept { s.w with heap } _⟩
    | _ => exact .inl ⟨task, h, .refl _⟩
  | release hm => cases hm <;> exact .inl ⟨task, h, .refl _⟩

/-- What is true of a task when it is queued, and then stays true, is true of
all tasks that wait. -/
theorem pending_induction {I : Agent → Emtask → Prop}
    (hqueue : ∀ s a task, (agent S).Reachable s → Queues s a task → I s task)
    (hkeep : ∀ s a s' t task, (agent S).Reachable s → Move S s a s' → t.Same task → I s t →
      I s' task)
    (h : (agent S).Reachable s) : ∀ task ∈ s.pending, I s task := by
  refine h.invariant (I := fun s ↦ ∀ task ∈ s.pending, I s task) (List.forall_mem_nil _) ?_
  intro s a s' hr hI _ hs task ht
  have hm := Agent.step_move hs
  rcases hm.pending (conduct hr).1 ht with ⟨t, ht, hsame⟩ | ⟨hq, _⟩
  · exact hkeep s a s' t task hr hm hsame (hI t ht)
  · exact hkeep s a s' task task hr hm (.refl _) (hqueue s a task hr hq)

theorem pending_accepted (h : (agent S).Reachable s) (ht : task ∈ s.pending) :
    task.addr ∈ s.w.accepted := by
  have hb := (TaskInv.of_reachable h).books.balance task.addr
  have hmem : 0 < (addrs s.pending).count task.addr :=
    List.count_pos_iff.mpr (List.mem_map_of_mem ht)
  rw [← List.count_pos_iff, ← hb]
  simp only [Agent.pending, World.pending, addrs_append, List.count_append] at hmem
  simp only [World.places]
  omega

theorem held_pending (h : task ∈ s.sch.held) : task ∈ s.pending := World.mem_pending.mpr (.inl h)

theorem performed_pending {now : Timespec} {p : Proc Outcome} (h : s.sch = .perform task now p) :
    task ∈ s.pending := by
  apply held_pending
  rw [h]
  exact List.mem_singleton_self task

theorem held_once (h : (agent S).Reachable s) (ht : task ∈ s.sch.held) :
    task.addr ∉ addrs (s.w.sched.todo ++ s.w.sched.jobs) ∧ task.addr ∉ s.w.freed := by
  have hb := (TaskInv.of_reachable h).books
  have hone := List.nodup_iff_count_le_one.mp hb.once task.addr
  have hheld : 0 < (addrs s.sch.held).count task.addr :=
    List.count_pos_iff.mpr (List.mem_map_of_mem ht)
  have hbal := hb.balance task.addr
  simp only [World.places] at hbal
  rw [addrs_append, ← List.count_eq_zero, ← List.count_eq_zero, List.count_append]
  omega

theorem held_not_freed (h : (agent S).Reachable s) (ht : task ∈ s.sch.held) :
    task.addr ∉ s.w.freed := (held_once h ht).2

theorem freed_accepted (h : (agent S).Reachable s) : s.w.freed ⊆ s.w.accepted := by
  intro addr hfreed
  have hbal := (TaskInv.of_reachable h).books.balance addr
  have hpos := List.count_pos_iff.mpr hfreed
  simp only [World.places] at hbal
  rw [← List.count_pos_iff]
  omega

theorem Move.unscheduled {a : Act} (hm : Move S s a s') (ha : ∀ ans, a ≠ .sched ans) :
    s'.sch = s.sch ∧ s'.w.freed = s.w.freed := by
  cases hm with
  | sched => exact absurd rfl (ha _)
  | net hm =>
    refine ⟨rfl, ?_⟩
    rcases hm.tasks with hi | ⟨task, v, hi, rfl, _⟩
    · exact hi.freed
    · exact (v.freed_accept task).trans hi.freed
  | api hr =>
    refine ⟨rfl, ?_⟩
    cases apiCall_move hr with
    | emSendQueued => exact World.freed_accept { s.w with heap := _ } _
    | _ => rfl
  | release hm => cases hm <;> exact ⟨rfl, rfl⟩

theorem Move.accepted_subset {a : Act} (hm : Move S s a s') (hperf : Performing s.sch) :
    s.w.accepted ⊆ s'.w.accepted := by
  cases hm with
  | net hm =>
    rcases hm.tasks with hi | ⟨task, v, hi, rfl, _⟩
    · exact hi.accepted ▸ List.Subset.refl _
    · rw [World.accepted_accept, hi.accepted]
      exact List.subset_append_left _ _
  | sched _ hm => exact (hm.accepted hperf).1 ▸ List.Subset.refl _
  | api hr =>
    cases apiCall_move hr with
    | emSendQueued =>
      rw [World.accepted_accept]
      exact List.subset_append_left _ _
    | _ => exact List.Subset.refl _
  | release hm => cases hm <;> exact List.Subset.refl _

theorem not_accepted_before (h : (agent S).Reachable s') {addr : ℕ}
    (hacc : s'.w.accepted = s.w.accepted ++ [addr]) : addr ∉ s.w.accepted := by
  have honce := (TaskInv.of_reachable h).books.once
  rw [hacc, List.nodup_append] at honce
  exact fun hmem ↦ honce.2.2 addr hmem addr (List.mem_singleton_self _) rfl

theorem accept_fresh (h : (agent S).Reachable s') (hw : s'.w = s.w.accept task) :
    task.addr ∉ s.w.accepted := by
  refine not_accepted_before h ?_
  rw [hw, World.accepted_accept]

end Pending

end EmpowerAgent
