import EmpowerAgent.Locking

namespace EmpowerAgent

open Library

/-- The file was opened by `em_start`, and no `em_stop` has got to releasing it. -/
def Memory.LogUp (m : Memory) : Prop := .opened ∈ m.logged ∧ .released ∉ m.logged

instance (m : Memory) : Decidable m.LogUp := instDecidableAnd

abbrev SystemState := Locks.State Lock ThreadId Access.Res Point Memory

abbrev SystemLabel := Locks.Label ThreadId SysAns Point

def writesLog (s : SystemState) : SystemLabel → Bool
  | .step t _ => match s.threads t with
    | .running (.call (.mem .write) _) => true
    | _ => false
  | .call _ _ => false

def LogsInTime (s : SystemState) (l : SystemLabel) : Prop := writesLog s l = true → s.mem.LogUp

instance (s : SystemState) (l : SystemLabel) : Decidable (LogsInTime s l) :=
  inferInstanceAs (Decidable (_ → _))

section Moves

variable {S : ℕ → Setup} {i : Access} {a : SysAns} {m m' : Memory} {r : i.Res}

/-- What one access does to the log. -/
inductive LogMove : Access → Memory → Memory → Prop
  | keep {i : Access} {m m' : Memory} : m'.coreInit = m.coreInit → m'.logFd = m.logFd →
      m'.logged = m.logged → LogMove i m m'
  | init {m : Memory} (opens : Bool) : LogMove .coreInitialize m (m.coreInitialize opens)
  | write {m : Memory} : LogMove .write m m.write
  | release {i : Access} {m : Memory} {fd : LogFd} : m.logFd ≠ .null → fd ≠ .opened →
      LogMove i m (m.releaseLog fd)

theorem access_log (h : access S i a m = some (r, m')) : LogMove i m m' := by
  cases i with
  | coreInitialize =>
    obtain ⟨opens, _, heq⟩ := Option.map_eq_some_iff.mp h
    cases heq
    exact .init opens
  | write =>
    cases SysAns.eq_of_tick h
    exact .write
  | clearLog =>
    cases SysAns.eq_of_tick h
    split_ifs with hnull
    · exact .keep rfl rfl rfl
    · exact .release hnull nofun
  | fclose =>
    simp only [access] at h
    split_ifs at h with hnull
    cases SysAns.eq_of_tick h
    exact .release hnull nofun
  | malloc =>
    obtain ⟨b, _, heq⟩ := Option.map_eq_some_iff.mp h
    cases b <;> cases heq
    all_goals exact .keep rfl rfl rfl
  | takeFirst =>
    obtain ⟨p, _, heq⟩ := Option.map_eq_some_iff.mp h
    unfold Memory.takeFirst at heq
    split at heq <;> cases heq
    all_goals exact .keep rfl rfl rfl
  | op | net | sched | agents | agentsEmpty | pthreadCreate | init | calls =>
    obtain ⟨x, _, heq⟩ := Option.map_eq_some_iff.mp h
    cases heq
    exact .keep rfl rfl rfl
  | _ =>
    cases SysAns.eq_of_tick h
    exact .keep rfl rfl rfl

end Moves

section Runs

variable {S : ℕ → Setup} {i : Access} {s : SystemState} {m m' : Memory}

/-- The file is opened once ever, by the call that finds the core not
initialized, and no other step makes `log_fd` an open file. -/
structure LogInv (m : Memory) : Prop where
  fresh : m.coreInit = false → m.logFd = .null ∧ .opened ∉ m.logged ∧ .released ∉ m.logged
  up : m.logFd = .opened ↔ m.LogUp

theorem LogInv.coreInitialize (h : LogInv m) (opens : Bool) : LogInv (m.coreInitialize opens) := by
  cases hinit : m.coreInit with
  | true =>
    rw [Memory.coreInitialize, if_pos hinit]
    exact h
  | false =>
    obtain ⟨_, hopened, hreleased⟩ := h.fresh hinit
    rw [Memory.coreInitialize, if_neg (by simp [hinit])]
    refine ⟨nofun, ?_⟩
    cases opens <;> simp [Memory.LogUp, hopened, hreleased]

theorem LogInv.release (h : LogInv m) {fd : LogFd} (hnull : m.logFd ≠ .null)
    (hfd : fd ≠ .opened) : LogInv (m.releaseLog fd) where
  fresh hfresh := absurd (h.fresh hfresh).1 hnull
  up := by simp [Memory.LogUp, Memory.releaseLog, hfd]

theorem LogInv.move (h : LogInv m) (hm : LogMove i m m') : LogInv m' := by
  cases hm with
  | keep hinit hfd hlogged =>
    refine ⟨fun hfresh ↦ ?_, ?_⟩
    · rw [hfd, hlogged]
      exact h.fresh (hinit ▸ hfresh)
    · rw [hfd, Memory.LogUp, hlogged]
      exact h.up
  | init opens => exact h.coreInitialize opens
  | write =>
    refine ⟨fun hfresh ↦ ?_, ?_⟩
    · simpa [Memory.write] using h.fresh hfresh
    · simpa [Memory.write, Memory.LogUp] using h.up
  | release hnull hfd => exact h.release hnull hfd

theorem LogInv.of_reachable (h : (system S).machine.Reachable s) : LogInv s.mem := by
  refine Locks.mem_invariant h ?_ ?_
  · exact ⟨fun _ ↦ by simp [system, Memory.start], by simp [system, Memory.start, Memory.LogUp]⟩
  · exact fun s t a i k r m _ hI _ _ he ↦ hI.move (access_log he)

theorem LogMove.wrote (hm : LogMove i m m') {fd : LogFd} (h : .wrote fd ∈ m'.logged) :
    .wrote fd ∈ m.logged ∨ i = .write ∧ fd = m.logFd := by
  cases hm with
  | keep _ _ hlogged => exact .inl (hlogged ▸ h)
  | init opens =>
    unfold Memory.coreInitialize at h
    split_ifs at h <;> simpa using h
  | write =>
    rcases List.mem_append.mp h with h | h
    · exact .inl h
    · exact .inr ⟨rfl, by simpa using h⟩
  | release => exact .inl (by simpa [Memory.releaseLog] using h)

/-- Where log statements are reached only after an `em_start` has opened the
file and before any `em_stop` releases it, nothing is written through a null
or closed `log_fd`; and `log_fd` is an open file at no other time. -/
theorem log_written_open (S : ℕ → Setup) :
    (∀ s, (system S).machine.Reach LogsInTime s →
      ∀ fd, .wrote fd ∈ s.mem.logged → fd = .opened) ∧
    ∀ s, (system S).machine.Reachable s → (s.mem.logFd = .opened ↔ s.mem.LogUp) := by
  refine ⟨fun s h ↦ ?_, fun s h ↦ (LogInv.of_reachable h).up⟩
  refine Locks.mem_invariant (J := fun m ↦ ∀ fd, .wrote fd ∈ m.logged → fd = .opened) h ?_ ?_
  · simp [system, Memory.start]
  intro s t a i k r m hr hI hok ht he fd hfd
  rcases (access_log he).wrote hfd with hold | ⟨rfl, rfl⟩
  · exact hI fd hold
  · refine (LogInv.of_reachable hr.reachable).up.mpr (hok ?_)
    simp [writesLog, ht]

def loggedRun : List SystemLabel :=
  Sample.startSystem ++ .call (.caller 1) (.call (.emStart 1)) ::
    (Sample.ticks (.caller 1) 1 ++ Sample.steps (.caller 1) [.ans (.ok true)] ++
      Sample.ticks (.caller 1) 6)

theorem log_written_open_refused : ∃ s,
    (system fun _ ↦ Sample.setup).machine.Reach LogsInTime s ∧ s.mem.logFd = .opened ∧
      s.mem.logged = [.opened, .wrote .opened, .wrote .opened] ∧
      ∀ fd, .wrote fd ∈ s.mem.logged → fd = .opened := by
  have hr := (system fun _ ↦ Sample.setup).machine.reach_get LogsInTime loggedRun
    (by decide +kernel)
  obtain ⟨hopen, _⟩ := log_written_open fun _ ↦ Sample.setup
  exact ⟨_, hr, by decide +kernel, by decide +kernel, hopen _ hr⟩

def stopFirstRun : List SystemLabel :=
  .call (.caller 0) (.call .emStop) :: Sample.ticks (.caller 0) 2

theorem log_written_null : ¬ ∀ s, (system fun _ ↦ Sample.setup).machine.Reachable s →
    ∀ fd, .wrote fd ∈ s.mem.logged → fd = .opened := by
  intro h
  have hr := (system fun _ ↦ Sample.setup).machine.reach_get (fun _ _ ↦ True) stopFirstRun
    (by decide +kernel)
  have hnull := h _ hr .null (by decide +kernel)
  cases hnull

end Runs

end EmpowerAgent
