import Mathlib.Data.Nat.Find
import Mathlib.Logic.Function.Basic
import Mathlib.Tactic.Common

namespace EmpowerAgent.Library

variable {α : Type}

/-- A store that gives the numbers 1, 2, 3, ... to what is added to it, and
no number twice. -/
structure Numbered (α : Type) where
  count : ℕ
  entry : ℕ → Option α
  bound : ∀ n, (entry n).isSome → 0 < n ∧ n ≤ count

namespace Numbered

def empty : Numbered α := ⟨0, fun _ ↦ none, nofun⟩

variable (s : Numbered α)

def add (a : α) : Numbered α where
  count := s.count + 1
  entry := Function.update s.entry (s.count + 1) (some a)
  bound n hn := by
    by_cases h : n = s.count + 1
    · omega
    · rw [Function.update_of_ne h] at hn
      have hb := s.bound n hn
      omega

def remove (n : ℕ) : Numbered α where
  count := s.count
  entry := Function.update s.entry n none
  bound m hm := by
    by_cases h : m = n
    · simp [h] at hm
    · rw [Function.update_of_ne h] at hm
      exact s.bound m hm

def clear : Numbered α := ⟨s.count, fun _ ↦ none, nofun⟩

/-- The number of the latest entry that matches, which is 0 if there is none. -/
def newest (p : α → Bool) : ℕ := Nat.findGreatest (fun n ↦ (s.entry n).any p = true) s.count

def listed (f : ℕ → Option α) : ℕ → List α
  | 0 => []
  | n + 1 => (f (n + 1)).toList ++ listed f n

def items : List α := listed s.entry s.count

theorem add_entry (a : α) : (s.add a).entry = Function.update s.entry (s.count + 1) (some a) := rfl

theorem remove_entry (n : ℕ) : (s.remove n).entry = Function.update s.entry n none := rfl

theorem entry_zero : s.entry 0 = none := by
  by_contra h
  have hb := s.bound 0 (Option.isSome_iff_ne_none.mpr h)
  omega

section Listed

variable {f g : ℕ → Option α} {n : ℕ} {p : α → Bool}

theorem listed_congr (h : ∀ m, 0 < m → m ≤ n → f m = g m) : listed f n = listed g n := by
  induction n with
  | zero => rfl
  | succ n ih =>
    rw [listed, listed, h (n + 1) (by omega) (by omega)]
    rw [ih fun m hpos hm ↦ h m hpos (by omega)]

theorem find_listed (h₀ : f 0 = none) :
    (listed f n).find? p = f (Nat.findGreatest (fun m ↦ (f m).any p = true) n) := by
  induction n with
  | zero => simp [listed, h₀]
  | succ n ih =>
    rw [listed, Nat.findGreatest_succ]
    cases hf : f (n + 1) with
    | none => simpa using ih
    | some a => cases hp : p a <;> simp [hp, hf, ih]

theorem erase_listed :
    (listed f n).eraseP p =
      listed (Function.update f (Nat.findGreatest (fun m ↦ (f m).any p = true) n) none) n := by
  induction n with
  | zero => rfl
  | succ n ih =>
    have hother : ∀ m, m ≤ n → Function.update f m none (n + 1) = f (n + 1) :=
      fun m hm ↦ Function.update_of_ne (by omega) _ _
    have hle := hother _ (Nat.findGreatest_le (P := fun m ↦ (f m).any p = true) n)
    rw [listed, listed, Nat.findGreatest_succ]
    cases hf : f (n + 1) with
    | none =>
      rw [hf] at hle
      simp [hle, ih]
    | some a =>
      rw [hf] at hle
      cases hp : p a with
      | false => simp [hp, hle, ih]
      | true =>
        -- the latest entry itself goes, and those before it stay as they are
        have hkeep : listed f n = listed (Function.update f (n + 1) none) n :=
          listed_congr fun m _ hm ↦ (Function.update_of_ne (by omega) _ _).symm
        simp [hp, ← hkeep]

end Listed

section Items

variable (p : α → Bool)

theorem items_add (a : α) : (s.add a).items = a :: s.items := by
  have hold : listed (s.add a).entry s.count = listed s.entry s.count :=
    listed_congr fun m _ hm ↦ Function.update_of_ne (by omega) _ _
  rw [items, items, ← hold]
  simp only [add, listed, Function.update_self, Option.toList_some, List.singleton_append]

theorem items_clear : s.clear.items = [] := by
  have hnil (n : ℕ) : listed (fun _ ↦ (none : Option α)) n = [] := by
    induction n with
    | zero => rfl
    | succ n ih => simp [listed, ih]
  exact hnil s.count

theorem find_items : s.items.find? p = s.entry (s.newest p) := find_listed s.entry_zero

theorem any_items : s.items.any p = (s.entry (s.newest p)).isSome := by
  rw [← find_items, List.isSome_find?]

theorem erase_items : s.items.eraseP p = (s.remove (s.newest p)).items := erase_listed

variable {s p}

theorem entry_add {a b : α} {n : ℕ} (h : (s.add a).entry n = some b) :
    (n = s.count + 1 ∧ b = a) ∨ s.entry n = some b := by
  by_cases hn : n = s.count + 1
  · subst hn
    rw [add_entry, Function.update_self] at h
    exact .inl ⟨rfl, (Option.some.inj h).symm⟩
  · rw [add_entry, Function.update_of_ne hn] at h
    exact .inr h

theorem entry_remove {b : α} {m n : ℕ} (h : (s.remove m).entry n = some b) :
    s.entry n = some b := by
  by_cases hn : n = m
  · rw [remove_entry, hn, Function.update_self] at h
    cases h
  · rwa [remove_entry, Function.update_of_ne hn] at h

theorem newest_unique {k : ℕ} (h : ∀ n a, s.entry n = some a → (p a ↔ n = k)) :
    s.newest p = k ∨ s.entry (s.newest p) = none ∧ s.entry k = none := by
  cases hnew : s.entry (s.newest p) with
  | some b =>
    have hpos : s.newest p ≠ 0 := by
      intro hzero
      rw [hzero, s.entry_zero] at hnew
      cases hnew
    have hany : (s.entry (s.newest p)).any p = true := Nat.findGreatest_of_ne_zero rfl hpos
    rw [hnew] at hany
    exact .inl ((h _ _ hnew).mp hany)
  | none =>
    refine .inr ⟨rfl, Option.eq_none_iff_forall_ne_some.mpr fun a hk ↦ ?_⟩
    have hany : (s.entry k).any p = true := by
      rw [hk]
      exact (h k a hk).mpr rfl
    have hle := (s.bound k (by simp [hk])).2
    have hspec : (s.entry (s.newest p)).any p = true :=
      Nat.findGreatest_spec (P := fun n ↦ (s.entry n).any p = true) hle hany
    rw [hnew] at hspec
    cases hspec

end Items

end Numbered

end EmpowerAgent.Library
