import EmpowerAgent.Library.Machine

namespace EmpowerAgent.Library

/-- From each moment at which `P` holds, one at which `Q` does is reached. -/
def LeadsTo (P Q : ℕ → Prop) : Prop := ∀ n, P n → ∃ m, n ≤ m ∧ Q m

theorem stable_le {R : ℕ → Prop} (hstable : ∀ n, R n → R (n + 1)) {n m : ℕ} (hle : n ≤ m)
    (hn : R n) : R m := by
  induction hle with
  | refl => exact hn
  | step _ ih => exact hstable _ ih

namespace LeadsTo

variable {P Q R : ℕ → Prop}

theorem trans (h : LeadsTo P Q) (h' : LeadsTo Q R) : LeadsTo P R := by
  intro n hn
  obtain ⟨m, hm, hQ⟩ := h n hn
  obtain ⟨k, hk, hR⟩ := h' m hQ
  exact ⟨k, Nat.le_trans hm hk, hR⟩

theorem keep (h : LeadsTo P Q) (hstable : ∀ n, P n → P (n + 1)) :
    LeadsTo P fun n ↦ P n ∧ Q n := by
  intro n hP
  obtain ⟨m, hm, hQ⟩ := h n hP
  exact ⟨m, hm, stable_le hstable hm hP, hQ⟩

end LeadsTo

namespace Machine

variable {σ α : Type} {M : Machine σ α} {ok : σ → α → Prop} {kind : α → Prop}
  {f : ℕ → σ} {as : ℕ → α}

def Enabled (M : Machine σ α) (kind : α → Prop) (s : σ) : Prop :=
  ∃ a s', kind a ∧ M.step s a = some s'

/-- If a step of this kind is possible from some time on, one is taken. -/
def Fair (M : Machine σ α) (kind : α → Prop) (f : ℕ → σ) (as : ℕ → α) : Prop :=
  ∀ n, (∀ m, n ≤ m → M.Enabled kind (f m)) → ∃ m, n ≤ m ∧ kind (as m)

theorem Fair.leadsTo {β : Type} {r : β → β → Prop} (hfair : M.Fair kind f as)
    (hr : WellFounded r) {P Q : ℕ → Prop} (rank : ℕ → β)
    (henabled : ∀ n, P n → ¬ Q n → M.Enabled kind (f n))
    (hstep : ∀ n, P n → ¬ Q n → ¬ Q (n + 1) → P (n + 1) ∧
      (kind (as n) → r (rank (n + 1)) (rank n)) ∧ (¬ kind (as n) → rank (n + 1) = rank n)) :
    LeadsTo P Q := by
  intro n hn
  by_contra hnever
  have hQ (m : ℕ) (hm : n ≤ m) : ¬ Q m := fun hQ ↦ hnever ⟨m, hm, hQ⟩
  have hP (k : ℕ) : P (n + k) := by
    induction k with
    | zero => exact hn
    | succ k ih => exact (hstep _ ih (hQ _ (by omega)) (hQ _ (by omega))).1
  have hdown (k : ℕ) := (hstep (n + k) (hP k) (hQ _ (by omega)) (hQ _ (by omega))).2
  have hends : ∃ k, ∀ d, k ≤ d → ¬ kind (as (n + d)) :=
    descent_ends (f := fun k ↦ rank (n + k)) hr (fun k ↦ (hdown k).1) fun k ↦ (hdown k).2
  obtain ⟨k, hk⟩ := hends
  have hstays (m : ℕ) (hm : n + k ≤ m) : M.Enabled kind (f m) := by
    obtain ⟨d, rfl⟩ : ∃ d, m = n + d := ⟨m - n, by omega⟩
    exact henabled _ (hP d) (hQ _ (by omega))
  obtain ⟨m, hm, hkind⟩ := hfair (n + k) hstays
  obtain ⟨d, rfl⟩ : ∃ d, m = n + d := ⟨m - n, by omega⟩
  exact hk d (by omega) hkind

section Building

def prepend {β : Type} (x : β) (f : ℕ → β) : ℕ → β
  | 0 => x
  | n + 1 => f n

/-- A finite run may be followed by a run without end. -/
theorem exists_run_after [∀ s a, Decidable (ok s a)] {s t : σ} {bs : List α}
    (hbs : M.runIf ok t bs = some s) (hrun : (M.restart s).Run ok f as) :
    ∃ f' as', (M.restart t).Run ok f' as' ∧
      (∀ n, n ≤ bs.length → M.runIf ok t (bs.take n) = some (f' n)) ∧
      ∀ n, f' (bs.length + n) = f n ∧ as' (bs.length + n) = as n := by
  induction bs generalizing t with
  | nil =>
    obtain rfl : t = s := Option.some.inj hbs
    refine ⟨f, as, hrun, fun n hn ↦ ?_, fun n ↦ ?_⟩
    · obtain rfl := Nat.le_zero.mp hn
      exact congrArg some hrun.start.symm
    · simp
  | cons b bs ih =>
    simp only [runIf] at hbs
    split_ifs at hbs with hb
    obtain ⟨u, hu, hbs⟩ := Option.bind_eq_some_iff.mp hbs
    obtain ⟨f', as', hrun', htake, hlater⟩ := ih hbs
    refine ⟨prepend t f', prepend b as', ⟨rfl, fun n ↦ ?_, fun n ↦ ?_⟩, fun n hn ↦ ?_, fun n ↦ ?_⟩
    · cases n with
      | zero => exact hb
      | succ n => exact hrun'.ok n
    · cases n with
      | zero => exact hu.trans (congrArg some hrun'.start.symm)
      | succ n => exact hrun'.step n
    · cases n with
      | zero => rfl
      | succ n =>
        rw [List.take_succ_cons, runIf, if_pos hb, hu]
        exact htake n (Nat.le_of_succ_le_succ hn)
    · rw [List.length_cons, Nat.add_right_comm]
      exact hlater n

theorem exists_run [∀ s a, Decidable (ok s a)] {s t : σ} {a : α} (hok : ok s a)
    (hs : M.step s a = some s) {bs : List α} (hbs : M.runIf ok t bs = some s) :
    ∃ f as, (M.restart t).Run ok f as ∧ (∀ n, M.runIf ok t (bs.take n) = some (f n)) ∧
      ∀ n, bs.length ≤ n → as n = a := by
  have hstays : (M.restart s).Run ok (fun _ ↦ s) (fun _ ↦ a) := ⟨rfl, fun _ ↦ hok, fun _ ↦ hs⟩
  obtain ⟨f, as, hrun, htake, hlater⟩ := exists_run_after hbs hstays
  refine ⟨f, as, hrun, fun n ↦ ?_, fun n hn ↦ ?_⟩
  · rcases Nat.le_total n bs.length with hn | hn
    · exact htake n hn
    · obtain ⟨k, rfl⟩ := Nat.exists_eq_add_of_le hn
      rw [List.take_of_length_le hn, hbs, (hlater k).1]
  · obtain ⟨k, rfl⟩ := Nat.exists_eq_add_of_le hn
    exact (hlater k).2

theorem exists_run_of {I : σ → Prop} {A : ℕ → σ → α → σ → Prop} (h : I M.start)
    (hnext : ∀ n s, I s → ∃ a s', M.step s a = some s' ∧ ok s a ∧ A n s a s' ∧ I s') :
    ∃ f as, M.Run ok f as ∧ ∀ n, A n (f n) (as n) (f (n + 1)) := by
  have hstep (n : ℕ) (s : { s // I s }) : ∃ r : α × { s // I s },
      M.step s r.1 = some r.2 ∧ ok s r.1 ∧ A n s r.1 r.2 := by
    obtain ⟨a, s', hs, hok, hA, hI⟩ := hnext n s s.2
    exact ⟨(a, ⟨s', hI⟩), hs, hok, hA⟩
  choose next hs hok hA using hstep
  let g : ℕ → { s // I s } := fun n ↦ n.rec ⟨M.start, h⟩ fun n s ↦ (next n s).2
  exact ⟨fun n ↦ (g n).1, fun n ↦ (next n (g n)).1, ⟨rfl, fun n ↦ hok n (g n), fun n ↦ hs n (g n)⟩,
    fun n ↦ hA n (g n)⟩

theorem fair_of_end {s : σ} {k : ℕ} (hend : ∀ n, k ≤ n → f n = s) (h : ¬ M.Enabled kind s) :
    M.Fair kind f as := by
  intro n hn
  have hle : n ≤ n + k := Nat.le_add_right n k
  have henabled := hn _ hle
  rw [hend _ (Nat.le_add_left k n)] at henabled
  exact absurd henabled h

end Building

end Machine

end EmpowerAgent.Library
