import EmpowerAgent.TriggerRuns

namespace EmpowerAgent

section Left

variable {S : Setup} {s : Agent}

/-- Ids are left: the counter has not run over the positive numbers. -/
def IdsLeft (s : Agent) (a : Act) : Prop :=
  s.addsTrigger a = true → s.w.added.length < 2 ^ 31 - 1

instance (s : Agent) (a : Act) : Decidable (IdsLeft s a) := instDecidableForall

theorem added_length (h : (agent S).Reach IdsLeft s) : s.w.added.length ≤ 2 ^ 31 - 1 := by
  refine h.invariant (I := fun s ↦ s.w.added.length ≤ 2 ^ 31 - 1) (Nat.zero_le _) ?_
  intro s a s' hr hI hok hs
  have hr := hr.reachable
  rcases (Agent.step_move hs).triggers (conduct hr).1 with hshrink | ⟨trig, k, hadds, _, _, hw, _⟩
  · rw [hshrink.added]
    exact hI
  · have hlt := hok hadds
    rw [hw, World.added_trigAdd, List.length_append, List.length_singleton]
    omega

end Left

section Built

variable {S : Setup} {s : Agent} {w : World} {task : Emtask}

def Builds (w : World) (task : Emtask) : Prop :=
  task.msg = none → task.type ≠ .hello → ∃ trig ∈ w.added, trig.id = task.trig

theorem Builds.of_same {t : Emtask} (h : Builds w t) (hs : t.Same task) : Builds w task := by
  intro hmsg htype
  rw [hs.trig]
  exact h (hs.msg ▸ hmsg) (hs.type ▸ htype)

theorem Builds.of_queues {a : Act} (h : Queues s a task)
    (hserve : Serving S.proto s.w s.net.pc) : Builds s.w task := by
  cases h with
  | hello => exact fun _ htype ↦ absurd rfl htype
  | emSend => exact nofun
  | handler hpc =>
    rw [hpc] at hserve
    obtain ⟨msg, t, hp⟩ := hserve
    obtain ⟨_, _, hbody⟩ := hp.obeys.1
    intro hnone _
    split_ifs at hbody
    · obtain ⟨_, _, trig, hhead, htrig⟩ := hbody
      exact ⟨trig, (hp.added trig (List.mem_of_mem_head? hhead)).1, htrig.symm⟩
    · cases hnone.symm.trans hbody.1

theorem Builds.of_reachable (h : (agent S).Reachable s) : ∀ task ∈ s.pending, Builds s.w task := by
  refine pending_induction (I := fun s ↦ Builds s.w) ?_ ?_ h
  · exact fun s a task hr hq ↦ .of_queues hq (.of_reachable hr)
  · intro s a s' t task hr hm hsame hb hmsg htype
    obtain ⟨trig, hmem, hid⟩ := hb.of_same hsame hmsg htype
    exact ⟨trig, hm.added_subset (conduct hr).1 hmem, hid⟩

theorem schedPerformCellMeas_trig (hop : S.ops.cellMeasure = true) (hpos : 0 < task.trig) :
    ∃ k, schedPerformCellMeas S task = .call (.trigFindById task.trig) k := by
  unfold schedPerformCellMeas
  rw [if_pos hop, if_pos hpos]
  exact ⟨_, rfl⟩

/-- While ids are left, a trigger gets a positive id that no live trigger has,
and the tasks made for triggers are told by it from those with a message. -/
theorem trigger_ids_fresh (h : (agent S).Reach IdsLeft s) :
    (∀ trig k, s.net.pc = .process (.call (.trigAdd trig) k) → s.w.added.length < 2 ^ 31 - 1 →
      0 < (s.w.trigAdd trig).1 ∧ ∀ t ∈ s.w.trig.ts, t.id ≠ (s.w.trigAdd trig).1) ∧
    ∀ task ∈ s.pending, task.msg = none → task.type ≠ .hello →
      0 < task.trig ∧ (S.ops.cellMeasure = true →
        ∃ k, schedPerformCellMeas S task = .call (.trigFindById task.trig) k) := by
  have hnum := Numbering.of_reachable h.reachable
  have hlen := added_length h
  refine ⟨fun trig k _ hleft ↦ ?_, fun task ht hmsg htype ↦ ?_⟩
  · have hnext : (s.w.trigAdd trig).1 = Int32.ofNat (s.w.added.length + 1) := hnum.next
    rw [hnext]
    refine ⟨ofNat_pos (by omega) (by omega), fun t ht heq ↦ ?_⟩
    obtain ⟨i, hlt, hid⟩ := hnum.id (hnum.live ht)
    have hi := ofNat_injective (by omega) (by omega) (hid.symm.trans heq)
    omega
  · obtain ⟨trig, hmem, hid⟩ := Builds.of_reachable h.reachable task ht hmsg htype
    obtain ⟨i, hlt, hi⟩ := hnum.id hmem
    have hpos : 0 < task.trig := by
      rw [← hid, hi]
      exact ofNat_pos (by omega) (by omega)
    exact ⟨hpos, fun hop ↦ schedPerformCellMeas_trig hop hpos⟩

def secondRequest : List Act :=
  Sample.connect 3 ++ Sample.requestReport ++ Sample.requestReport.take 3

theorem trigger_ids_fresh_second : ∃ s, (agent Sample.setup).Reach IdsLeft s ∧
    s.w.trig.ts.length = 1 ∧ 0 < s.w.trig.next ∧ (∀ t ∈ s.w.trig.ts, t.id ≠ s.w.trig.next) ∧
    ∀ task ∈ s.pending, task.msg = none → task.type ≠ .hello → 0 < task.trig := by
  have hr := (agent Sample.setup).reach_get IdsLeft secondRequest (by decide +kernel)
  obtain ⟨hid, htask⟩ := trigger_ids_fresh hr
  obtain ⟨hpos, hne⟩ := hid _ _ rfl (by decide +kernel)
  exact ⟨_, hr, by decide +kernel, hpos, hne, fun task ht hmsg hty ↦ (htask task ht hmsg hty).1⟩

def waiting (ts : List Emtri) (next : Int32) (jobs : List Emtask) (heap : ℕ)
    (hist : List Event) : Agent where
  w := ⟨⟨ts, next⟩, ⟨3, false, .connected, 0⟩, ⟨false, jobs, []⟩, heap, 1, 1, hist⟩
  net := ⟨.recv .header [], .none⟩
  sch := .loop
  rel := .idle

theorem request_run (ts : List Emtri) (next : Int32) (jobs : List Emtask) (heap : ℕ)
    (hist : List Event) : ∃ ts' jobs' heap' hist',
    (agent Sample.setup).runIf (fun _ _ ↦ True) (waiting ts next jobs heap hist)
      Sample.requestReport = some (waiting ts' (next + 1) jobs' heap' hist') :=
  ⟨_, _, _, _, rfl⟩

theorem requests_reach (n : ℕ) : ∃ ts jobs heap hist,
    (agent Sample.setup).Reachable (waiting ts (Int32.ofNat (n + 1)) jobs heap hist) := by
  induction n with
  | zero =>
    have hr := (agent Sample.setup).reach_get (fun _ _ ↦ True) (Sample.connect 3) (by decide)
    exact ⟨_, _, _, _, hr⟩
  | succ n ih =>
    obtain ⟨ts, jobs, heap, hist, hr⟩ := ih
    obtain ⟨ts', jobs', heap', hist', hrun⟩ := request_run ts (Int32.ofNat (n + 1)) jobs heap hist
    rw [Int32.ofNat_add]
    exact ⟨ts', jobs', heap', hist', hr.runIf hrun⟩

theorem request_adds (ts : List Emtri) (next : Int32) (jobs : List Emtask) (heap : ℕ)
    (hist : List Event) : ∃ s trig k, (agent Sample.setup).runIf (fun _ _ ↦ True)
      (waiting ts next jobs heap hist) (Sample.requestReport.take 3) = some s ∧
      s.net.pc = .process (.call (.trigAdd trig) k) ∧ s.w.trig.next = next :=
  ⟨_, _, _, rfl, rfl, rfl⟩

/-- The controller asks for reports until the counter has run over. -/
theorem trigger_id_negative : ¬ ∀ s, (agent Sample.setup).Reachable s → ∀ trig k,
    s.net.pc = .process (.call (.trigAdd trig) k) → 0 < (s.w.trigAdd trig).1 := by
  intro h
  obtain ⟨ts, jobs, heap, hist, hr⟩ := requests_reach (2 ^ 31 - 1)
  obtain ⟨s, trig, k, hrun, hpc, hnext⟩ := request_adds ts _ jobs heap hist
  have hpos : 0 < s.w.trig.next := h s (hr.runIf hrun) trig k hpc
  rw [hnext] at hpos
  revert hpos
  decide

end Built

end EmpowerAgent
