import Mathlib.Tactic.Common
import Mathlib.Data.Nat.Notation
import Mathlib.Data.Int.Notation

namespace EmpowerAgent.Library

variable {α : Type}

/-- A length-prefixed format: the first `header` symbols of a frame tell the
length of the whole frame, header included. -/
structure Framing (α : Type) where
  header : ℕ
  header_pos : 0 < header
  length : List α → ℤ

namespace Framing

variable (F : Framing α)

structure Frame (m : List α) : Prop where
  header_le : F.header ≤ m.length
  length_eq : F.length (m.take F.header) = m.length

/-- A word that has not yet been seen to be a whole frame: it ends before
the header does, or before the length its header tells. -/
def Pending (p : List α) : Prop :=
  p.length < F.header ∨ (p.length : ℤ) < F.length (p.take F.header)

/-- A whole header that tells a length shorter than itself. -/
def Malformed (p : List α) : Prop :=
  F.header ≤ p.length ∧ F.length (p.take F.header) < F.header

def Open (p : List α) : Prop := ∀ m, F.Frame m → ¬ m <+: p

variable {F}

theorem Frame.ne_nil {m : List α} (h : F.Frame m) : m ≠ [] := by
  rintro rfl
  have := h.header_le
  have := F.header_pos
  simp only [List.length_nil] at *
  omega

theorem take_header_eq {m p : List α} (hm : F.header ≤ m.length) (h : m <+: p) :
    p.take F.header = m.take F.header := by
  obtain ⟨z, rfl⟩ := h
  exact List.take_append_of_le_length hm

theorem Pending.isOpen {p : List α} (h : F.Pending p) : F.Open p := by
  intro m hm hp
  have hlen := hp.length_le
  have hh := hm.header_le
  rcases h with h | h
  · omega
  · rw [take_header_eq hm.header_le hp, hm.length_eq] at h
    omega

theorem Malformed.isOpen {p : List α} (h : F.Malformed p) : F.Open p := by
  intro m hm hp
  have hlt := h.2
  rw [take_header_eq hm.header_le hp, hm.length_eq] at hlt
  have hh := hm.header_le
  omega

theorem open_nil : F.Open [] := by
  intro m hm hp
  exact hm.ne_nil (List.prefix_nil.mp hp)

/-- Frames form a prefix code. -/
theorem Frame.append_inj {m m' x y : List α} (hm : F.Frame m) (hm' : F.Frame m')
    (h : m ++ x = m' ++ y) : m = m' ∧ x = y := by
  have ht : m.take F.header = m'.take F.header := by
    rw [← take_header_eq hm.header_le (List.prefix_append m x), h,
      take_header_eq hm'.header_le (List.prefix_append m' y)]
  have hl : m.length = m'.length := by
    have h₁ := hm.length_eq
    rw [ht, hm'.length_eq] at h₁
    omega
  exact List.append_inj h hl

/-- A stream is cut into frames in one way only, what is left open included. -/
theorem cut_unique {fs gs : List (List α)} {p q : List α} (hf : ∀ m ∈ fs, F.Frame m)
    (hg : ∀ m ∈ gs, F.Frame m) (hp : F.Open p) (hq : F.Open q)
    (h : fs.flatten ++ p = gs.flatten ++ q) : fs = gs ∧ p = q := by
  induction fs generalizing gs with
  | nil =>
    cases gs with
    | nil => exact ⟨rfl, by simpa using h⟩
    | cons g gs =>
      refine absurd ?_ (hp g (hg g (List.mem_cons_self ..)))
      exact ⟨gs.flatten ++ q, by simpa [List.append_assoc] using h.symm⟩
  | cons f fs ih =>
    have hfm := hf f (List.mem_cons_self ..)
    cases gs with
    | nil =>
      refine absurd ?_ (hq f hfm)
      exact ⟨fs.flatten ++ p, by simpa [List.append_assoc] using h⟩
    | cons g gs =>
      simp only [List.flatten_cons, List.append_assoc] at h
      obtain ⟨rfl, hrest⟩ := hfm.append_inj (hg g (List.mem_cons_self ..)) h
      obtain ⟨rfl, hpq⟩ := ih (fun m hm ↦ hf m (List.mem_cons_of_mem _ hm))
        (fun m hm ↦ hg m (List.mem_cons_of_mem _ hm)) hrest
      exact ⟨rfl, hpq⟩

theorem cut_prefix {fs gs : List (List α)} {p : List α} (hf : ∀ m ∈ fs, F.Frame m)
    (hg : ∀ m ∈ gs, F.Frame m) (h : fs.flatten ++ p <+: gs.flatten) :
    ∃ hs, gs = fs ++ hs ∧ p <+: hs.flatten := by
  induction fs generalizing gs with
  | nil => exact ⟨gs, rfl, by simpa using h⟩
  | cons f fs ih =>
    obtain ⟨z, h⟩ := h
    have hfm := hf f (List.mem_cons_self ..)
    cases gs with
    | nil =>
      refine absurd ?_ (open_nil f hfm)
      exact ⟨fs.flatten ++ p ++ z, by simpa [List.append_assoc] using h⟩
    | cons g gs =>
      simp only [List.flatten_cons, List.append_assoc] at h
      obtain ⟨rfl, hrest⟩ := hfm.append_inj (hg g (List.mem_cons_self ..)) h
      obtain ⟨hs, rfl, hp⟩ := ih (fun m hm ↦ hf m (List.mem_cons_of_mem _ hm))
        (fun m hm ↦ hg m (List.mem_cons_of_mem _ hm)) ⟨z, by simpa using hrest⟩
      exact ⟨hs, rfl, hp⟩

theorem Malformed.not_prefix {p : List α} {fs : List (List α)} (h : F.Malformed p)
    (hf : ∀ m ∈ fs, F.Frame m) : ¬ p <+: fs.flatten := by
  intro hp
  cases fs with
  | nil =>
    obtain rfl := List.prefix_nil.mp hp
    have := h.1
    have := F.header_pos
    simp only [List.length_nil] at *
    omega
  | cons f fs =>
    have hfm := hf f (List.mem_cons_self ..)
    have ht : p.take F.header = f.take F.header := by
      rw [← take_header_eq h.1 hp, List.flatten_cons,
        take_header_eq hfm.header_le (List.prefix_append f fs.flatten)]
    have hlt := h.2
    have := hfm.header_le
    rw [ht, hfm.length_eq] at hlt
    omega

end Framing

end EmpowerAgent.Library
