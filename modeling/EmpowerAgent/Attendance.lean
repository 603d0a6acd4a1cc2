import EmpowerAgent.Termination
import EmpowerAgent.Lives

namespace EmpowerAgent

open Library (LeadsTo)
open Library.Proc (Returns)

section Waiting

variable {S : Setup} {s s' : Agent} {w w' : World} {p : ℕ} {t : Emtask}

/-- How many tasks are taken before `p`. At the end of a quantum those that
were put off come in front of it. -/
def SchPc.ahead (w : World) (p : ℕ) : SchPc → ℕ
  | .back => w.sched.todo.length + (addrs w.sched.jobs).idxOf p
  | _ => (addrs w.sched.jobs).idxOf p

def SchPc.toTake : SchPc → ℕ × Proc Outcome
  | .clock _ => (9, .pure .consumed)
  | .perform _ _ p => (8, p)
  | .flush => (8, .pure .consumed)
  | .settle _ _ _ | .alert => (7, .pure .consumed)
  | .down | .back => (6, .pure .consumed)
  | .loop => (5, .pure .consumed)
  | .take => (4, .pure .consumed)
  | .drain => (3, .pure .consumed)
  | .exit => (2, .pure .consumed)

def Agent.waits (s : Agent) (p : ℕ) : ℕ × ℕ × Proc Outcome :=
  (s.sch.ahead s.w p, s.sch.toTake)

def Agent.Takes (s : Agent) (p : ℕ) : Prop := ∃ t, s.sch = .clock t ∧ t.addr = p

theorem freed_of_hist {ts : List Emtask} (h : w'.hist = w.hist ++ ts.map (.freed ·.addr))
    (hp : p ∈ addrs ts) : p ∈ w'.freed := by
  obtain ⟨t, ht, rfl⟩ := List.mem_map.mp hp
  refine List.mem_filterMap.mpr ⟨.freed t.addr, ?_, rfl⟩
  rw [h]
  exact List.mem_append_right _ (List.mem_map_of_mem ht)

theorem waits_sched {pc : SchPc} (hm : SchMove S s.sch s.w pc w) (hperf : Performing s.sch)
    (hapart : p ∉ addrs s.w.sched.todo) (hp : p ∈ addrs s.w.sched.jobs)
    (hstill : ¬ (Agent.Takes { s with sch := pc, w } p ∨ p ∈ w.freed)) :
    p ∈ addrs w.sched.jobs ∧ Below (Agent.waits { s with sch := pc, w } p) (s.waits p) := by
  rcases s with ⟨w₀, net, pc₀, rel⟩
  simp only at hm hperf hapart hp hstill ⊢
  cases hm with
  | loopDrain => exact ⟨hp, .right _ (.left _ _ (by decide))⟩
  | takeNone hjobs => simp [hjobs] at hp
  | @takeTask _ task jobs hjobs =>
    rw [hjobs, addrs_cons, List.mem_cons] at hp
    have hne : task.addr ≠ p := fun heq ↦ hstill (.inl ⟨task, rfl, heq⟩)
    refine ⟨hp.resolve_left (Ne.symm hne), .left _ _ ?_⟩
    simp [SchPc.ahead, hjobs, List.idxOf_cons_ne _ hne]
  | op he =>
    obtain ⟨failed, hobeys⟩ := hperf
    have hjobs := (he.idle hobeys.1).jobs
    refine ⟨hjobs ▸ hp, ?_⟩
    simp only [Agent.waits, SchPc.ahead, hjobs]
    exact .right _ (.right _ (.call _))
  | netError =>
    refine absurd (.inr (freed_of_hist rfl ?_)) hstill
    simp [hp]
  | drain =>
    refine absurd (.inr (freed_of_hist rfl ?_)) hstill
    simp [hp]
  | back =>
    refine ⟨by simp [hp], ?_⟩
    have hahead : (addrs (w₀.sched.todo.reverse ++ w₀.sched.jobs)).idxOf p =
        w₀.sched.todo.length + (addrs w₀.sched.jobs).idxOf p := by
      rw [addrs_append, List.idxOf_append_of_notMem (by simpa using hapart)]
      simp [addrs]
    simp only [Agent.waits, SchPc.ahead, hahead]
    exact .right _ (.left _ _ (by decide))
  | alert =>
    split_ifs
    · exact ⟨hp, .right _ (.left _ _ (by decide))⟩
    · exact ⟨hp, .right _ (.left _ _ (by decide))⟩
  | _ => exact ⟨hp, .right _ (.left _ _ (by decide))⟩

theorem waits_outside {a : Act} (hm : Move S s a s') (ha : ∀ ans, a ≠ .sched ans)
    (hp : p ∈ addrs s.w.sched.jobs) : p ∈ addrs s'.w.sched.jobs ∧ s'.waits p = s.waits p := by
  obtain ⟨hjobs, htodo⟩ := hm.appends ha
  have hsch := (hm.unscheduled ha).1
  have hidx : (addrs s'.w.sched.jobs).idxOf p = (addrs s.w.sched.jobs).idxOf p := by
    rw [hjobs, addrs_append, List.idxOf_append_of_mem hp]
  refine ⟨by rw [hjobs, addrs_append]; exact List.mem_append_left _ hp, ?_⟩
  simp only [Agent.waits, SchPc.ahead, hsch, htodo, hidx]

theorem apart_of_jobs (h : (agent S).Reachable s) (hp : p ∈ addrs s.w.sched.jobs) :
    p ∉ addrs s.w.sched.todo ∧ p ∉ s.w.freed ∧ p ∈ s.w.accepted := by
  have hb := (TaskInv.of_reachable h).books
  have hbal := hb.balance p
  have honce := List.nodup_iff_count_le_one.mp hb.once p
  have hpos := List.count_pos_iff.mpr hp
  simp only [World.places] at hbal
  rw [← List.count_eq_zero, ← List.count_eq_zero, ← List.count_pos_iff]
  omega

theorem pending_unique {t' : Emtask} (h : (agent S).Reachable s) (ht : t ∈ s.pending)
    (ht' : t' ∈ s.pending) (haddr : t.addr = t'.addr) : t = t' := by
  have hnodup : (addrs s.pending).Nodup := by
    refine List.nodup_iff_count_le_one.mpr fun p ↦ ?_
    have hb := (TaskInv.of_reachable h).books
    have hbal := hb.balance p
    have honce := List.nodup_iff_count_le_one.mp hb.once p
    simp only [World.places] at hbal
    simp only [Agent.pending, World.pending, addrs_append, List.count_append]
    omega
  exact List.inj_on_of_nodup_map hnodup ht ht' haddr

def Telling : SchPc → Prop
  | .perform task now p => Returns (task.Tells now) p
  | .settle task now op => task.Tells now op
  | _ => True

theorem Telling.of_reachable (h : (agent S).Reachable s) : Telling s.sch := by
  refine h.invariant (I := fun s ↦ Telling s.sch) ?_ ?_
  · trivial
  intro s a s' _ hI _ hs
  cases Agent.step_move hs with
  | sched _ hm =>
    rcases s with ⟨w, net, pc, rel⟩
    simp only at hm hI ⊢
    cases hm with
    | clock => exact schedPerformJob_returns S _ _
    | op => exact hI _
    | returned => exact hI
    | _ => trivial
  | release hm => cases hm <;> exact hI
  | _ => exact hI

def SchPc.Due (t : Emtask) (pc : SchPc) : Prop :=
  pc = .clock t ∨ ∃ now q, pc = .perform t now q ∧ t.elapse ≤ tsDiffToMs t.issued now

theorem due_sched {pc pc' : SchPc} {ans : Ans} (hs : schedStep S pc ans w = some (pc', w'))
    (hdue : pc.Due t) (hnow : ∀ now, ans = .time now → t.elapse ≤ tsDiffToMs t.issued now)
    (htells : Telling pc) : pc'.Due t ∧ Below (0, pc'.toTake) (0, pc.toTake) ∨
      ∃ now op, pc' = .settle t now op ∧ op ≠ .notElapsed := by
  rcases hdue with rfl | ⟨now, q, rfl, hlate⟩
  · cases ans with
    | time now =>
      cases hs
      exact .inl ⟨.inr ⟨now, _, rfl, hnow now rfl⟩, .right _ (.left _ _ (by decide))⟩
    | _ => cases hs
  · cases q with
    | pure op =>
      cases ans with
      | tick =>
        cases hs
        refine .inr ⟨now, op, rfl, fun hop ↦ ?_⟩
        have hlt := htells.later.mp hop
        omega
      | _ => cases hs
    | call o k =>
      obtain ⟨⟨r, w₁⟩, _, heq⟩ := Option.map_eq_some_iff.mp hs
      cases heq
      exact .inl ⟨.inr ⟨now, _, rfl, hlate⟩, .right _ (.right _ (.call _))⟩

def Swept (w : World) : SchPc → Prop
  | .loop | .flush | .alert | .down | .exit => w.sched.todo = []
  | _ => True

theorem Swept.of_reachable (h : (agent S).Reachable s) : Swept s.w s.sch := by
  refine h.invariant (I := fun s ↦ Swept s.w s.sch) ?_ ?_
  · rfl
  intro s a s' _ hI _ hs
  rcases Agent.sched_or hs with ⟨ans, pc, w, rfl, hstep, rfl⟩ | ha
  · have hm := schedStep_move hstep
    rcases s with ⟨w₀, net, pc₀, rel⟩
    simp only at hm hI ⊢
    cases hm with
    | netError | back | drain => rfl
    | flush | down => exact hI
    | alert => split_ifs <;> exact hI
    | _ => trivial
  · have hm := Agent.step_move hs
    have hsch := (hm.unscheduled ha).1
    have htodo := (hm.appends ha).2
    rw [hsch]
    cases hpc : s.sch <;> rw [hpc] at hI <;> first | trivial | exact htodo.trans hI

theorem pending_stays {a : Act} (hr : (agent S).Reachable s) (hs : (agent S).step s a = some s')
    (ht : t ∈ s.pending) : t ∈ s'.pending ∨ t.addr ∈ s'.w.freed ∨
      ∃ now, s.sch = .settle t now .reschedule := by
  rcases Agent.sched_or hs with ⟨ans, pc, w, rfl, hstep, rfl⟩ | ha
  · have hm := schedStep_move hstep
    have hperf := (conduct hr).1
    rcases s with ⟨w₀, net, pc₀, rel⟩
    simp only [Agent.pending, World.mem_pending] at hm hperf ht ⊢
    cases hm with
    | takeTask hjobs =>
      simp only [SchPc.held, hjobs, List.mem_cons, List.not_mem_nil] at ht ⊢
      tauto
    | op he =>
      obtain ⟨failed, hobeys⟩ := hperf
      have hi := he.idle hobeys.1
      rw [hi.jobs, hi.todo]
      exact .inl ht
    | later =>
      simp only [SchPc.held, List.mem_cons, List.not_mem_nil] at ht ⊢
      tauto
    | again =>
      simp only [SchPc.held, List.mem_cons, List.not_mem_nil, or_false] at ht ⊢
      rcases ht with rfl | ht
      · exact .inr (.inr ⟨_, rfl⟩)
      · tauto
    | consumed =>
      simp only [SchPc.held, List.mem_cons, List.not_mem_nil, or_false] at ht ⊢
      rcases ht with rfl | ht
      · exact .inr (.inl (by simp [World.freed_log]))
      · exact .inl (.inr ht)
    | netError =>
      refine .inr (.inl (freed_of_hist rfl (List.mem_map_of_mem ?_)))
      simp only [SchPc.held, List.mem_cons, List.mem_append, List.not_mem_nil, or_false] at ht ⊢
      tauto
    | drain =>
      refine .inr (.inl (freed_of_hist rfl (List.mem_map_of_mem ?_)))
      simp only [SchPc.held, List.mem_append, List.not_mem_nil, false_or] at ht ⊢
      tauto
    | back =>
      simp only [SchPc.held, List.mem_append, List.mem_reverse, List.not_mem_nil] at ht ⊢
      tauto
    | alert => split_ifs <;> exact .inl ht
    | _ => exact .inl ht
  · have hm := Agent.step_move hs
    obtain ⟨hjobs, htodo⟩ := hm.appends ha
    simp only [Agent.pending, World.mem_pending, hjobs, htodo, (hm.unscheduled ha).1,
      List.mem_append] at ht ⊢
    tauto

end Waiting

section Runs

variable {S : Setup} {f : ℕ → Agent} {as : ℕ → Act}

/-- The scheduler comes back from `sched_consume` again and again, or returns. -/
def QuantaEnd (f : ℕ → Agent) : Prop :=
  ∀ n, ∃ m, n ≤ m ∧ ((f m).sch = .loop ∨ (f m).sch = .exit)

/-- The clock that the scheduler reads passes every date. -/
def ClockPasses (as : ℕ → Act) : Prop :=
  ∀ ts ms, ∃ n, ∀ m now, n ≤ m → as m = .sched (.time now) → ms ≤ tsDiffToMs ts now

variable (hrun : (agent S).Run (fun _ _ ↦ True) f as) (hfair : (agent S).Fair OfSched f as)

include hrun hfair

theorem quanta_end {N : ℕ} (hquiet : ∀ n, N ≤ n → ¬ OfSched (as n) →
    (f (n + 1)).w.sched.jobs = (f n).w.sched.jobs) : QuantaEnd f := by
  have hleads : LeadsTo (fun n ↦ N ≤ n) fun n ↦ (f n).sch = .loop ∨ (f n).sch = .exit := by
    refine hfair.leadsTo below_wf (fun n ↦ (f n).sch.toExit (f n).w.sched.jobs.length)
      (fun n _ hn ↦ sched_enabled fun hexit ↦ hn (.inr hexit))
      fun n hn hout _ ↦ ⟨Nat.le_succ_of_le hn, ?_, fun ha ↦ ?_⟩
    · have hs := hrun.step n
      rintro ⟨ans, ha⟩
      rw [ha] at hs
      obtain ⟨⟨pc, w⟩, hstep, hnext⟩ := Option.map_eq_some_iff.mp hs
      rw [← hnext]
      exact (schedStep_move hstep).toExit (conduct (hrun.reach n)).1
        fun hloop ↦ absurd (.inl hloop) hout
    · have hsch := ((Agent.step_move (hrun.step n)).unscheduled (not_exists.mp ha)).1
      simp only [hsch, hquiet n hn ha]
  intro n
  obtain ⟨m, hm, hend⟩ := hleads (n + N) (Nat.le_add_left N n)
  exact ⟨m, by omega, hend⟩

/-- No task starves in the queue, however many others come: those that come
later are taken later. -/
theorem jobs_taken (p : ℕ) : LeadsTo (fun n ↦ p ∈ addrs (f n).w.sched.jobs)
    fun n ↦ (f n).Takes p ∨ p ∈ (f n).w.freed := by
  refine hfair.leadsTo below_wf (fun n ↦ (f n).waits p) (fun n hn _ ↦ ?_) fun n hn _ hstill ↦ ?_
  · refine sched_enabled fun hexit ↦ ?_
    have hd := Drained.of_reachable (hrun.reach n)
    rw [hexit] at hd
    simp [hd.2.1] at hn
  · have hs := hrun.step n
    rcases Agent.sched_or hs with ⟨ans, pc, w, ha, hstep, hnext⟩ | ha
    · rw [hnext] at hstill ⊢
      have hr := hrun.reach n
      obtain ⟨hp, hbelow⟩ := waits_sched (schedStep_move hstep) (conduct hr).1
        (apart_of_jobs hr hn).1 hn hstill
      exact ⟨hp, fun _ ↦ hbelow, fun hnot ↦ absurd ⟨ans, ha⟩ hnot⟩
    · obtain ⟨hp, hsame⟩ := waits_outside (Agent.step_move hs) ha hn
      exact ⟨hp, fun ⟨ans, hans⟩ ↦ absurd hans (ha ans), fun _ ↦ hsame⟩

def Agent.Performed (s : Agent) (t : Emtask) : Prop :=
  ∃ now op, s.sch = .settle t now op ∧ op ≠ .notElapsed

theorem due_performed {t : Emtask} {k : ℕ}
    (hdue : ∀ m now, k ≤ m → as m = .sched (.time now) → t.elapse ≤ tsDiffToMs t.issued now) :
    LeadsTo (fun n ↦ k ≤ n ∧ (f n).sch.Due t) fun n ↦ (f n).Performed t := by
  refine hfair.leadsTo below_wf (fun n ↦ (0, (f n).sch.toTake)) (fun n hn _ ↦ ?_)
    fun n hn _ hstill ↦ ?_
  · refine sched_enabled fun hexit ↦ ?_
    rcases hn.2 with hpc | ⟨now, q, hpc, _⟩ <;> rw [hexit] at hpc <;> cases hpc
  · have hs := hrun.step n
    rcases Agent.sched_or hs with ⟨ans, pc, w, ha, hstep, hnext⟩ | ha
    · have hnow (now : Timespec) (hans : ans = .time now) : t.elapse ≤ tsDiffToMs t.issued now :=
        hdue n now hn.1 (ha.trans (congrArg Act.sched hans))
      rw [hnext] at hstill ⊢
      rcases due_sched hstep hn.2 hnow (Telling.of_reachable (hrun.reach n)) with
        ⟨hdue', hbelow⟩ | ⟨now, op, hpc, hop⟩
      · exact ⟨⟨by omega, hdue'⟩, fun _ ↦ hbelow, fun hnot ↦ absurd ⟨ans, ha⟩ hnot⟩
      · exact absurd ⟨now, op, hpc, hop⟩ hstill
    · have hsch := ((Agent.step_move hs).unscheduled ha).1
      rw [hsch]
      exact ⟨⟨by omega, hn.2⟩, fun ⟨ans, hans⟩ ↦ absurd hans (ha ans), fun _ ↦ rfl⟩

variable (hquanta : QuantaEnd f) (hclock : ClockPasses as)

include hquanta hclock

/-- Whatever task the scheduler has, it performs it some time, or frees it. -/
theorem tasks_performed {n : ℕ} {t : Emtask} (ht : t ∈ (f n).pending) :
    ∃ m, n ≤ m ∧ ((f m).Performed t ∨ t.addr ∈ (f m).w.freed) := by
  by_contra hnever
  have hnot (m : ℕ) (hm : n ≤ m) : ¬ (f m).Performed t ∧ t.addr ∉ (f m).w.freed :=
    ⟨fun h ↦ hnever ⟨m, hm, .inl h⟩, fun h ↦ hnever ⟨m, hm, .inr h⟩⟩
  -- as long as it is neither performed nor freed it stays as it is
  have hpending (m : ℕ) (hm : n ≤ m) : t ∈ (f m).pending := by
    induction hm with
    | refl => exact ht
    | @step m hm ih =>
      rcases pending_stays (hrun.reach m) (hrun.step m) ih with h | h | ⟨now, h⟩
      · exact h
      · exact absurd h (hnot _ (Nat.le_succ_of_le hm)).2
      · exact absurd ⟨now, _, h, by simp⟩ (hnot m hm).1
  obtain ⟨k, hdue⟩ := hclock t.issued t.elapse
  obtain ⟨m, hm, hend⟩ := hquanta (n + k)
  -- at the end of a quantum it is in the queue, and is taken from there
  have hjobs : t.addr ∈ addrs (f m).w.sched.jobs := by
    have hmem := World.mem_pending.mp (hpending m (by omega))
    have hswept := Swept.of_reachable (hrun.reach m)
    rcases hend with hpc | hpc <;> rw [hpc] at hmem hswept <;>
      simp only [SchPc.held, show (f m).w.sched.todo = [] from hswept, List.not_mem_nil,
        false_or] at hmem <;> exact List.mem_map_of_mem hmem
  obtain ⟨m₁, hm₁, ⟨t', hpc, haddr⟩ | hfreed⟩ := jobs_taken hrun hfair t.addr m hjobs
  · have ht' : t' ∈ (f m₁).pending := held_pending (by rw [hpc]; exact List.mem_singleton_self _)
    obtain rfl := pending_unique (hrun.reach m₁) ht' (hpending m₁ (by omega)) haddr
    obtain ⟨m₂, hm₂, hperformed⟩ := due_performed hrun hfair hdue m₁ ⟨by omega, .inl hpc⟩
    exact (hnot m₂ (by omega)).1 hperformed
  · exact (hnot m₁ (by omega)).2 hfreed

omit hquanta hclock in
theorem performed_leads (t : Emtask) (hpos : 0 ≤ t.resch) : LeadsTo (fun n ↦ (f n).Performed t)
    fun n ↦ t.addr ∈ (f n).w.freed ∨
      ∃ t' ∈ (f n).pending, t'.addr = t.addr ∧ 0 ≤ t'.resch ∧ t'.resch < t.resch := by
  refine hfair.leadsTo below_wf (fun n ↦ (0, (f n).sch.toTake)) (fun n hn _ ↦ ?_)
    fun n hn _ hstill ↦ ?_
  · obtain ⟨now, op, hpc, _⟩ := hn
    exact sched_enabled (by simp [hpc])
  · obtain ⟨now, op, hpc, hop⟩ := hn
    have hs := hrun.step n
    have htells := Telling.of_reachable (hrun.reach n)
    rw [hpc] at htells
    rcases Agent.sched_or hs with ⟨ans, pc, w, ha, hstep, hnext⟩ | ha
    · have hm := schedStep_move hstep
      rw [hpc] at hm
      rw [hnext] at hstill
      refine absurd ?_ hstill
      cases hm with
      | later => exact absurd rfl hop
      | again =>
        have hresch : t.resch ≠ 0 := htells.again rfl
        refine .inr ⟨_, World.mem_pending.mpr (.inr (.inl (List.mem_cons_self ..))), rfl, ?_⟩
        dsimp only
        split_ifs <;> omega
      | consumed => exact .inl (by simp [World.freed_log])
      | netError => exact .inl (freed_of_hist rfl (List.mem_map_of_mem (List.mem_cons_self ..)))
    · have hsch := ((Agent.step_move hs).unscheduled ha).1
      rw [hsch]
      exact ⟨⟨now, op, hsch.trans hpc, hop⟩, fun ⟨ans, hans⟩ ↦ absurd hans (ha ans), fun _ ↦ rfl⟩

theorem tasks_freed {n : ℕ} {t : Emtask} (ht : t ∈ (f n).pending) (hpos : 0 ≤ t.resch) :
    ∃ m, n ≤ m ∧ t.addr ∈ (f m).w.freed := by
  obtain ⟨k, hk⟩ := Int.eq_ofNat_of_zero_le hpos
  induction k using Nat.strongRecOn generalizing n t with
  | _ k ih =>
    obtain ⟨m, hm, hperformed | hfreed⟩ := tasks_performed hrun hfair hquanta hclock ht
    · obtain ⟨m₁, hm₁, hfreed | ⟨t', ht', haddr, hpos', hlt⟩⟩ :=
        performed_leads hrun hfair t hpos m hperformed
      · exact ⟨m₁, by omega, hfreed⟩
      · obtain ⟨k', hk'⟩ := Int.eq_ofNat_of_zero_le hpos'
        obtain ⟨m₂, hm₂, hfreed⟩ := ih k' (by omega) ht' hpos' hk'
        exact ⟨m₂, by omega, haddr ▸ hfreed⟩
    · exact ⟨m, hm, hfreed⟩

omit hquanta hclock in
/-- A task that is queued is taken, however many others are queued after it; and
if each quantum comes to an end and the clock goes on, every task is performed
when it is due, again and again if it is to be repeated forever, and else until
it is freed. -/
theorem tasks_attended :
    (∀ p, LeadsTo (fun n ↦ p ∈ addrs (f n).w.sched.jobs)
      fun n ↦ (f n).Takes p ∨ p ∈ (f n).w.freed) ∧
    (QuantaEnd f → ClockPasses as → ∀ n, ∀ t ∈ (f n).pending,
      (∃ m, n ≤ m ∧ ((f m).Performed t ∨ t.addr ∈ (f m).w.freed)) ∧
      (0 ≤ t.resch → ∃ m, n ≤ m ∧ t.addr ∈ (f m).w.freed)) :=
  ⟨jobs_taken hrun hfair, fun hquanta hclock _ _ ht ↦
    ⟨tasks_performed hrun hfair hquanta hclock ht, tasks_freed hrun hfair hquanta hclock ht⟩⟩

end Runs

theorem ended_quanta {f : ℕ → Agent} {as : ℕ → Act} {s : Agent} {k : ℕ} (hsch : s.sch = .exit)
    (hidle : ∀ n, k ≤ n → f n = s ∧ as n = .api (.emHasTrigger 0) [.tick]) :
    QuantaEnd f ∧ ClockPasses as := by
  refine ⟨fun n ↦ ⟨n + k, Nat.le_add_right n k, .inr ?_⟩, fun ts ms ↦ ⟨k, fun m now hm hnow ↦ ?_⟩⟩
  · rw [(hidle _ (Nat.le_add_left k n)).1]
    exact hsch
  · rw [(hidle m hm).2] at hnow
    cases hnow

def releasedRun : List Act :=
  stopRun ++ [.release, .release, .net (.recv (.error .eagain)), .net .tick, .release, .release]

def released : Agent :=
  ((agent Sample.setup).runIf (fun _ _ ↦ True) Agent.start releasedRun).get (by decide)

def sentTask : Emtask := Emtask.init 1 .send 1 0 0 (some [0, 6, 0, 0, 0, 0])

theorem tasks_attended_sent : ∃ f as, (agent Sample.setup).Run (fun _ _ ↦ True) f as ∧
    LeadsTo (fun n ↦ 1 ∈ addrs (f n).w.sched.jobs) (fun n ↦ (f n).Takes 1 ∨ 1 ∈ (f n).w.freed) ∧
    sentTask ∈ (f 9).pending ∧ ∃ m, 9 ≤ m ∧ 1 ∈ (f m).w.freed := by
  obtain ⟨f, as, hrun, hfair, _, _, htake, hidle⟩ := exists_ended_run (s := released)
    (Option.some_get _).symm rfl rfl rfl
  have hpending : ((agent Sample.setup).runIf (fun _ _ ↦ True) Agent.start
      (releasedRun.take 9)).map (·.pending.contains sentTask) = some true := by decide
  rw [htake 9] at hpending
  have hsent : sentTask ∈ (f 9).pending := by simpa using hpending
  obtain ⟨hquanta, hclock⟩ := ended_quanta rfl hidle
  obtain ⟨hjobs, htasks⟩ := tasks_attended hrun hfair
  exact ⟨f, as, hrun, hjobs 1, hsent, (htasks hquanta hclock 9 sentTask hsent).2 (by decide)⟩

end EmpowerAgent
