import EmpowerAgent.Lives

namespace EmpowerAgent

def Round.due (r : Round) : Bool := r.op ≠ .notElapsed

namespace TaskLog

def runs (g : TaskLog) (addr : ℕ) : ℕ := (g.life addr).countP Round.due

end TaskLog

/-- No stop, and no network error dealt with. -/
def Unbroken (p : Agent × TaskLog) (a : Act) : Prop := a ≠ .release ∧ p.1.dumps a = false

instance (p : Agent × TaskLog) (a : Act) : Decidable (Unbroken p a) := instDecidableAnd

def Agent.PutsOff (s : Agent) (task : Emtask) : Act → Prop
  | .sched (.time now) => s.sch = .clock task ∧ tsDiffToMs task.issued now < task.elapse
  | .sched _ => ∃ now, s.sch = .perform task now (.pure .notElapsed) ∨
      s.sch = .settle task now .notElapsed
  | _ => False

section Credit

variable {Q : Emtask → Timespec → Prop} {g : TaskLog} {t₀ t : Emtask} {rs : List Round} {r : Round}

theorem countP_due_concat (rs : List Round) (r : Round) :
    (rs ++ [r]).countP Round.due = rs.countP Round.due + if r.op = .notElapsed then 0 else 1 := by
  rw [List.countP_append, List.countP_singleton]
  by_cases hop : r.op = .notElapsed <;> simp [Round.due, hop]

theorem Lived.credit (h : Lived Q t₀ rs t) :
    (0 ≤ t₀.resch → 0 ≤ t.resch ∧ (rs.countP Round.due : ℤ) + t.resch = t₀.resch) ∧
      (t₀.resch < 0 → t.resch = t₀.resch) := by
  induction h with
  | start => exact ⟨fun hn ↦ ⟨hn, by simp⟩, fun _ ↦ rfl⟩
  | @round t t' rs r _ _ htells hs ih =>
    obtain ⟨hpos, hneg⟩ := ih
    rw [countP_due_concat]
    unfold Emtask.settle at hs
    split at hs
    · rename_i hop
      cases hs
      simp only [hop, ↓reduceIte, Nat.add_zero]
      exact ⟨hpos, hneg⟩
    · rename_i hop
      cases hs
      have hne := htells.again hop
      simp only [hop, reduceCtorEq, ↓reduceIte]
      refine ⟨fun hn ↦ ?_, fun hn ↦ ?_⟩
      · obtain ⟨hr, hsum⟩ := hpos hn
        rw [if_pos (by omega)]
        push_cast
        omega
      · have hr := hneg hn
        rw [if_neg (by omega), hr]
    · cases hs
    · cases hs

theorem Back.last {now : Timespec} (h : Back Q g t ⟨now, .consumed⟩) (ht : t₀ ∈ g.accepted)
    (hnodup : (addrs g.accepted).Nodup) (haddr : t.addr = t₀.addr) :
    0 ≤ t₀.resch ∧ (g.runs t₀.addr : ℤ) = t₀.resch + 1 := by
  obtain ⟨rs, hrs, hlived, _, htells⟩ := h.lived ht hnodup haddr
  have hzero := htells.last rfl
  obtain ⟨hpos, hneg⟩ := hlived.credit
  have hn : 0 ≤ t₀.resch := by
    by_contra hn
    have hr := hneg (Int.not_le.mp hn)
    omega
  obtain ⟨_, hsum⟩ := hpos hn
  refine ⟨hn, ?_⟩
  rw [TaskLog.runs, hrs, countP_due_concat, if_neg (by simp)]
  push_cast
  omega

theorem Waiting.credit (h : Waiting Q g t) (ht : t₀ ∈ g.accepted)
    (hnodup : (addrs g.accepted).Nodup) (haddr : t.addr = t₀.addr) :
    (0 ≤ t₀.resch → 0 ≤ t.resch ∧ (g.runs t₀.addr : ℤ) + t.resch = t₀.resch) ∧
      (t₀.resch < 0 → t.resch = t₀.resch) := (h.lived ht hnodup haddr).credit

theorem Back.credit (h : Back Q g t r) (ht : t₀ ∈ g.accepted) (hnodup : (addrs g.accepted).Nodup)
    (haddr : t.addr = t₀.addr) :
    (0 ≤ t₀.resch → (g.runs t₀.addr : ℤ) ≤ t₀.resch + 1) ∧
      (t₀.resch < 0 → t.resch = t₀.resch) := by
  obtain ⟨rs, hrs, hlived, _⟩ := h.lived ht hnodup haddr
  obtain ⟨hpos, hneg⟩ := hlived.credit
  refine ⟨fun hn ↦ ?_, hneg⟩
  obtain ⟨hr, hsum⟩ := hpos hn
  rw [TaskLog.runs, hrs, countP_due_concat]
  split_ifs <;> push_cast <;> omega

theorem Flies.credit {pc : SchPc} (h : Flies Q g pc) (ht : t₀ ∈ g.accepted)
    (hnodup : (addrs g.accepted).Nodup) (hheld : t ∈ pc.held) (haddr : t.addr = t₀.addr) :
    (0 ≤ t₀.resch → (g.runs t₀.addr : ℤ) ≤ t₀.resch + 1) ∧
      (t₀.resch < 0 → t.resch = t₀.resch) := by
  have hwaits (hw : Waiting Q g t) : (0 ≤ t₀.resch → (g.runs t₀.addr : ℤ) ≤ t₀.resch + 1) ∧
      (t₀.resch < 0 → t.resch = t₀.resch) := by
    obtain ⟨hpos, hneg⟩ := hw.credit ht hnodup haddr
    refine ⟨fun hn ↦ ?_, hneg⟩
    have hsum := hpos hn
    omega
  cases pc with
  | clock task =>
    obtain rfl := List.mem_singleton.mp hheld
    exact hwaits h
  | perform task now p =>
    obtain rfl := List.mem_singleton.mp hheld
    exact hwaits h.1
  | settle task now op =>
    obtain rfl := List.mem_singleton.mp hheld
    exact Back.credit h ht hnodup haddr
  | _ => cases hheld

end Credit

section Runs

variable {Q : Emtask → Timespec → Prop} {S : Setup} {p : Agent × TaskLog} {t₀ : Emtask}

theorem not_dumped {ok : Agent × TaskLog → Act → Prop} (hok : ∀ p a, ok p a → p.1.dumps a = false)
    (h : (taskAgent S).Reach ok p) : p.2.dumped = false := by
  refine h.invariant (I := fun p ↦ p.2.dumped = false) rfl ?_
  rintro q a ⟨s', g'⟩ _ hI ha hs
  obtain ⟨_, hnote⟩ := Library.Machine.watch_step hs
  dsimp only at hnote ⊢
  rw [hnote]
  simp only [noteTasks, hI, hok q a ha, Bool.or_false]

theorem TaskLog.runs_of_rounds {g g' : TaskLog} {rs : List (ℕ × Round)}
    (h : g'.rounds = g.rounds ++ rs) (hrs : ∀ e ∈ rs, e.2.op = .notElapsed) (addr : ℕ) :
    g'.runs addr = g.runs addr := by
  have hnone : (Library.Keyed.recorded addr rs).countP Round.due = 0 := by
    refine List.countP_eq_zero.mpr fun r hr ↦ ?_
    obtain ⟨e, he, rfl⟩ := List.mem_map.mp hr
    simp [Round.due, hrs e (List.mem_filter.mp he).1]
  rw [runs, runs, life, life, h, Library.Keyed.recorded_append, List.countP_append, hnone,
    Nat.add_zero]

theorem PutsOff.kept {s s' : Agent} {a : Act} {task : Emtask} (hs : (agent S).step s a = some s')
    (h : s.PutsOff task a) : task ∈ s'.pending ∧ ∀ e ∈ s.rounds a, e.2.op = .notElapsed := by
  have hheld : task ∈ [task] := List.mem_singleton_self task
  cases a with
  | sched ans =>
    obtain ⟨⟨pc, w⟩, hstep, rfl⟩ := Option.map_eq_some_iff.mp hs
    have hround {now : Timespec} (hpc : s.sch = .perform task now (.pure .notElapsed) ∨
        s.sch = .settle task now .notElapsed) :
        task ∈ w.pending pc ∧ ∀ e ∈ s.rounds (.sched ans), e.2.op = .notElapsed := by
      simp only [Agent.rounds]
      rcases hpc with hpc | hpc <;> rw [hpc] at hstep ⊢
      · cases schedStep_move hstep
        exact ⟨World.mem_pending.mpr (.inl hheld), List.forall_mem_singleton.mpr rfl⟩
      · cases schedStep_move hstep
        exact ⟨World.mem_pending.mpr (.inr (.inl (List.mem_cons_self ..))),
          List.forall_mem_nil _⟩
    cases ans with
    | time now =>
      obtain ⟨hpc, _⟩ := h
      rw [hpc] at hstep
      cases schedStep_move hstep
      refine ⟨World.mem_pending.mpr (.inl hheld), ?_⟩
      simp only [Agent.rounds, hpc]
      exact List.forall_mem_nil _
    | _ =>
      obtain ⟨now, hpc⟩ := h
      exact hround hpc
  | _ => cases h

section Counts

variable {s : Agent} {g : TaskLog} {task : Emtask}

theorem LivesInv.freed_credit (h : LivesInv Q s.sch s.w g) (hr : (agent S).Reachable s)
    (hd : g.dumped = false) (ht : task ∈ g.accepted) (hf : task.addr ∈ s.w.freed) :
    0 ≤ task.resch ∧ (g.runs task.addr : ℤ) = task.resch + 1 := by
  have hnodup := h.nodup hr
  obtain ⟨t, haddr, ⟨now, hb⟩ | ⟨hdumped, _⟩⟩ := h.gone _ hf
  · exact hb.last ht hnodup haddr
  · cases hd.symm.trans hdumped

theorem LivesInv.counted (h : LivesInv Q s.sch s.w g) (hr : (agent S).Reachable s)
    (hd : g.dumped = false) (ht : task ∈ g.accepted) (hn : 0 ≤ task.resch) :
    (g.runs task.addr : ℤ) ≤ task.resch + 1 ∧
    (∀ t ∈ s.w.sched.todo ++ s.w.sched.jobs, t.addr = task.addr →
      g.runs task.addr + t.resch = task.resch) ∧
    (task.addr ∈ s.w.freed ↔
      g.runs task.addr = task.resch + 1 ∧ task.addr ∉ addrs s.sch.held) := by
  have hnodup := h.nodup hr
  have hlisted {t : Emtask} (hmem : t ∈ s.w.sched.todo ++ s.w.sched.jobs)
      (haddr : t.addr = task.addr) := ((h.waits t hmem).credit ht hnodup haddr).1 hn
  have hacc : task.addr ∈ s.w.accepted := by
    rw [← h.books]
    exact List.mem_map_of_mem ht
  have hplace := accepted_cases hr hacc
  refine ⟨?_, fun t hmem haddr ↦ (hlisted hmem haddr).2, ?_, ?_⟩
  · rcases hplace with ⟨t, hmem, haddr⟩ | ⟨t, hmem, haddr⟩ | hf
    · have hsum := hlisted hmem haddr
      omega
    · exact (h.flies.credit ht hnodup hmem haddr).1 hn
    · exact Int.le_of_eq (h.freed_credit hr hd ht hf).2
  · intro hf
    refine ⟨(h.freed_credit hr hd ht hf).2, fun hmem ↦ ?_⟩
    obtain ⟨t, hmem, haddr⟩ := List.mem_map.mp hmem
    exact held_not_freed hr hmem (haddr ▸ hf)
  · rintro ⟨hruns, hnot⟩
    rcases hplace with ⟨t, hmem, haddr⟩ | ⟨t, hmem, haddr⟩ | hf
    · have hsum := hlisted hmem haddr
      omega
    · exact absurd (List.mem_map.mpr ⟨t, hmem, haddr⟩) hnot
    · exact hf

theorem LivesInv.endless (h : LivesInv Q s.sch s.w g) (hr : (agent S).Reachable s)
    (hd : g.dumped = false) (ht : task ∈ g.accepted) (hn : task.resch < 0) :
    task.addr ∉ s.w.freed ∧ ∀ t ∈ s.pending, t.addr = task.addr → t.resch = task.resch := by
  have hnodup := h.nodup hr
  have hlisted {t : Emtask} (hmem : t ∈ s.w.sched.todo ++ s.w.sched.jobs)
      (haddr : t.addr = task.addr) := ((h.waits t hmem).credit ht hnodup haddr).2 hn
  refine ⟨fun hf ↦ absurd (h.freed_credit hr hd ht hf).1 (Int.not_le.mpr hn), ?_⟩
  intro t hmem haddr
  rw [Agent.pending, World.mem_pending] at hmem
  rcases hmem with hmem | hmem | hmem
  · exact (h.flies.credit ht hnodup hmem haddr).2 hn
  · exact hlisted (List.mem_append_left _ hmem) haddr
  · exact hlisted (List.mem_append_right _ hmem) haddr

end Counts

/-- In runs without a stop and without a network error a task that comes with
`n` credits is performed `n + 1` times and then freed, and one that comes with
a negative number of them is performed for ever. -/
theorem reschedule_count (h : (taskAgent S).Reach Unbroken p) :
    (∀ task ∈ p.2.accepted,
      (0 ≤ task.resch →
        (p.2.runs task.addr : ℤ) ≤ task.resch + 1 ∧
        (∀ t ∈ p.1.w.sched.todo ++ p.1.w.sched.jobs, t.addr = task.addr →
          p.2.runs task.addr + t.resch = task.resch) ∧
        (task.addr ∈ p.1.w.freed ↔
          p.2.runs task.addr = task.resch + 1 ∧ task.addr ∉ addrs p.1.sch.held)) ∧
      (task.resch < 0 → task.addr ∉ p.1.w.freed ∧
        ∀ t ∈ p.1.pending, t.addr = task.addr → t.resch = task.resch)) ∧
    ∀ a q task, (taskAgent S).step p a = some q → p.1.PutsOff task a →
      task ∈ q.1.pending ∧ ∀ addr, q.2.runs addr = p.2.runs addr := by
  have hI : LivesInv (fun _ _ ↦ True) p.1.sch p.1.w p.2 := .of_reach h fun _ _ _ _ _ _ ↦ trivial
  have hr : (agent S).Reachable p.1 := h.unwatch fun _ _ _ ↦ trivial
  have hdumped := not_dumped (fun _ _ hok ↦ hok.2) h
  refine ⟨fun task htask ↦ ?_, fun a q task hs hoff ↦ ?_⟩
  · exact ⟨hI.counted hr hdumped htask, hI.endless hr hdumped htask⟩
  · obtain ⟨hstep, hnote⟩ := Library.Machine.watch_step hs
    obtain ⟨hmem, hrounds⟩ := PutsOff.kept hstep hoff
    refine ⟨hmem, TaskLog.runs_of_rounds ?_ hrounds⟩
    rw [hnote]
    rfl

theorem reschedule_count_sent : ∃ p, (taskAgent Sample.setup).Reach Unbroken p ∧
    0 ∈ p.1.w.freed ∧ (p.2.runs 0 : ℤ) = 0 + 1 ∧ 4 ∉ p.1.w.freed := by
  have hr := (taskAgent Sample.setup).reach_get Unbroken sendBoth (by decide +kernel)
  obtain ⟨hcount, _⟩ := reschedule_count hr
  have hfreed : 0 ∈ ((taskAgent Sample.setup).runIf Unbroken (taskAgent Sample.setup).start
      sendBoth |>.get (by decide +kernel)).1.w.freed := by decide +kernel
  obtain ⟨hsend, _⟩ := hcount
    ⟨0, .send, 0, some [0, 6, 0, 0, 0, 1], 0, 0, Sample.after 0, 1⟩ (by decide +kernel)
  obtain ⟨_, hhello⟩ := hcount (helloTask 4 (Sample.after 0)) (by decide +kernel)
  exact ⟨_, hr, hfreed, ((hsend (by decide)).2.2.mp hfreed).1, (hhello (by decide)).1⟩

end Runs

end EmpowerAgent
