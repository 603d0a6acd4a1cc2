import Mathlib.Tactic.Common

namespace EmpowerAgent.Library

variable {σ α : Type}

/-- A transition system. A label carries every choice the environment makes
in its step, so that a step is a partial function of state and label. -/
structure Machine (σ α : Type) where
  start : σ
  step : σ → α → Option σ

namespace Machine

/-- The states reached by runs each of whose steps meets `ok`. -/
inductive Reach (M : Machine σ α) (ok : σ → α → Prop) : σ → Prop
  | start : Reach M ok M.start
  | step {s s' : σ} {a : α} : Reach M ok s → ok s a → M.step s a = some s' → Reach M ok s'

abbrev Reachable (M : Machine σ α) : σ → Prop := M.Reach fun _ _ ↦ True

variable {M : Machine σ α} {ok : σ → α → Prop} {s : σ}

theorem Reach.reachable (h : M.Reach ok s) : M.Reachable s := by
  induction h with
  | start => exact .start
  | step _ _ hs ih => exact .step ih trivial hs

theorem Reach.mono {ok' : σ → α → Prop} (h : M.Reach ok s)
    (hok : ∀ s a, M.Reach ok s → ok s a → ok' s a) : M.Reach ok' s := by
  induction h with
  | start => exact .start
  | step hr ha hs ih => exact .step ih (hok _ _ hr ha) hs

/-- An invariant may be proved step by step, using that the states before
the step were themselves reached by such a run. -/
theorem Reach.invariant {I : σ → Prop} (h : M.Reach ok s) (h₀ : I M.start)
    (hstep : ∀ s a s', M.Reach ok s → I s → ok s a → M.step s a = some s' → I s') : I s := by
  induction h with
  | start => exact h₀
  | step hr hok hs ih => exact hstep _ _ _ hr ih hok hs

def runIf (M : Machine σ α) (ok : σ → α → Prop) [∀ s a, Decidable (ok s a)] :
    σ → List α → Option σ
  | s, [] => some s
  | s, a :: as => if ok s a then (M.step s a).bind fun s' ↦ M.runIf ok s' as else none

theorem Reach.runIf [∀ s a, Decidable (ok s a)] {as : List α} {s' : σ}
    (h : M.Reach ok s) (hr : M.runIf ok s as = some s') : M.Reach ok s' := by
  induction as generalizing s with
  | nil =>
    simp only [Machine.runIf, Option.some.injEq] at hr
    exact hr ▸ h
  | cons a as ih =>
    simp only [Machine.runIf] at hr
    split_ifs at hr with hok
    obtain ⟨t, ht, hr⟩ := Option.bind_eq_some_iff.mp hr
    exact ih (.step h hok ht) hr

theorem reach_get (M : Machine σ α) (ok : σ → α → Prop) [∀ s a, Decidable (ok s a)]
    (as : List α) (h : (M.runIf ok M.start as).isSome = true) :
    M.Reach ok ((M.runIf ok M.start as).get h) :=
  Reach.start.runIf (Option.eq_some_of_isSome h)

/-- Two machines that every step keeps in step, whatever has led there. -/
theorem runIf_rel {τ : Type} {N : Machine τ α} {R : σ → τ → Prop}
    (hstep : ∀ s t a, N.Reachable t → R s t → Option.Rel R (M.step s a) (N.step t a))
    {t : τ} (ht : N.Reachable t) (h : R s t) (as : List α) :
    Option.Rel R (M.runIf (fun _ _ ↦ True) s as) (N.runIf (fun _ _ ↦ True) t as) := by
  induction as generalizing s t with
  | nil => exact .some h
  | cons a as ih =>
    have hrel := hstep s t a ht h
    simp only [Machine.runIf, if_true]
    cases hs : M.step s a with
    | none =>
      rw [hs] at hrel
      generalize hn : N.step t a = g at hrel
      cases hrel
      exact .none
    | some s' =>
      rw [hs] at hrel
      generalize hn : N.step t a = g at hrel
      cases hrel with
      | some h' => exact ih (.step ht trivial hn) h'

/-- The same machine, going on from another state. -/
def restart (M : Machine σ α) (s : σ) : Machine σ α := { M with start := s }

theorem Reach.restart {s' : σ} (h : M.Reachable s) (h' : (M.restart s).Reach ok s') :
    M.Reachable s' := by
  induction h' with
  | start => exact h
  | step _ _ hs ih => exact .step ih trivial hs

theorem restart_step {s' : σ} {a : α} (hs : M.step s a = some s') :
    (M.restart s).Reachable s' :=
  .step (s := s) .start trivial hs

/-- A run without end. -/
structure Run (M : Machine σ α) (ok : σ → α → Prop) (f : ℕ → σ) (as : ℕ → α) : Prop where
  start : f 0 = M.start
  ok : ∀ n, ok (f n) (as n)
  step : ∀ n, M.step (f n) (as n) = some (f (n + 1))

theorem Run.reach {f : ℕ → σ} {as : ℕ → α} (h : M.Run ok f as) (n : ℕ) : M.Reach ok (f n) := by
  induction n with
  | zero => exact h.start ▸ .start
  | succ n ih => exact .step ih (h.ok n) (h.step n)

/-- Steps that each go down in a well-founded order come to an end, where the
others stay at the height where they are. -/
theorem descent_ends {β : Type} {r : β → β → Prop} (hr : WellFounded r) {f : ℕ → β}
    {down : ℕ → Prop} (hdown : ∀ n, down n → r (f (n + 1)) (f n))
    (hstay : ∀ n, ¬ down n → f (n + 1) = f n) : ∃ n, ∀ m, n ≤ m → ¬ down m := by
  have hfrom (x : β) : ∀ n, f n = x → ∃ n', ∀ m, n' ≤ m → ¬ down m := by
    induction x using hr.induction with
    | _ x ih =>
      intro n hn
      by_cases hlast : ∃ d, down (n + d)
      · obtain ⟨d, hd⟩ := hlast
        induction d generalizing n with
        | zero => exact ih _ (hn ▸ hdown n hd) (n + 1) rfl
        | succ d ihd =>
          by_cases hnow : down n
          · exact ih _ (hn ▸ hdown n hnow) (n + 1) rfl
          · have heq : n + 1 + d = n + (d + 1) := by omega
            exact ihd (n + 1) ((hstay n hnow).trans hn) (heq ▸ hd)
      · refine ⟨n, fun m hm hd ↦ hlast ⟨m - n, ?_⟩⟩
        rwa [Nat.add_sub_cancel' hm]
  exact hfrom (f 0) 0 rfl

section Watching

variable {γ : Type}

/-- A machine with an observer, who notes what it likes of each step and
whom no step can see. -/
def watch (M : Machine σ α) (g : γ) (note : σ → α → σ → γ → γ) : Machine (σ × γ) α where
  start := (M.start, g)
  step p a := (M.step p.1 a).map fun s' ↦ (s', note p.1 a s' p.2)

variable {g : γ} {note : σ → α → σ → γ → γ} {p p' : σ × γ} {a : α}

theorem watch_step (h : (M.watch g note).step p a = some p') :
    M.step p.1 a = some p'.1 ∧ p'.2 = note p.1 a p'.1 p.2 := by
  obtain ⟨s', hs, rfl⟩ := Option.map_eq_some_iff.mp h
  exact ⟨hs, rfl⟩

theorem Reach.unwatch {okw : σ × γ → α → Prop} (h : (M.watch g note).Reach okw p)
    (hok : ∀ p a, okw p a → ok p.1 a) : M.Reach ok p.1 := by
  induction h with
  | start => exact .start
  | step _ ha hs ih => exact .step ih (hok _ _ ha) (watch_step hs).1

/-- An invariant of the states and the notes together. -/
theorem Reach.watched {okw : σ × γ → α → Prop} {I : σ → γ → Prop} (ok' : σ → α → Prop)
    (h : (M.watch g note).Reach okw p) (hok : ∀ p a, okw p a → ok' p.1 a) (h₀ : I M.start g)
    (hstep : ∀ s g a s', M.Reach ok' s → I s g → okw (s, g) a → M.step s a = some s' →
      I s' (note s a s' g)) : I p.1 p.2 := by
  refine h.invariant (I := fun p ↦ I p.1 p.2) h₀ ?_
  intro p a p' hr hI ha hs
  obtain ⟨hstep', hnote⟩ := watch_step hs
  rw [hnote]
  exact hstep p.1 p.2 a p'.1 (hr.unwatch hok) hI ha hstep'

end Watching

end Machine

end EmpowerAgent.Library
