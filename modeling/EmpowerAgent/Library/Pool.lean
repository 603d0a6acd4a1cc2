import EmpowerAgent.Library.Machine
import Mathlib.Data.List.Perm.Basic

namespace EmpowerAgent.Library

variable {C T R A β : Type}

/-- Any number of threads over one shared core. -/
structure Pool (C T : Type) where
  core : C
  threads : List T

namespace Pool

inductive Label (R A : Type)
  | call (r : R)
  | step (i : ℕ) (a : A)
  deriving DecidableEq, Repr

variable (enter : R → T) (step : T → A → C → Option (T × C))

def next (p : Pool C T) : Label R A → Option (Pool C T)
  | .call r => some { p with threads := p.threads ++ [enter r] }
  | .step i a => p.threads[i]?.bind fun t ↦ (step t a p.core).map fun r ↦
      ⟨r.2, p.threads.set i r.1⟩

def machine (c : C) : Machine (Pool C T) (Label R A) := ⟨⟨c, []⟩, next enter step⟩

variable {enter step} {p p' : Pool C T} {l : Label R A} {c : C}

theorem next_cases (h : (machine enter step c).step p l = some p') :
    (∃ r, l = .call r ∧ p' = { p with threads := p.threads ++ [enter r] }) ∨
      ∃ i a t t' d, l = .step i a ∧ p.threads[i]? = some t ∧ step t a p.core = some (t', d) ∧
        p' = ⟨d, p.threads.set i t'⟩ := by
  cases l with
  | call r =>
    cases h
    exact .inl ⟨r, rfl, rfl⟩
  | step i a =>
    obtain ⟨t, ht, h⟩ := Option.bind_eq_some_iff.mp h
    obtain ⟨⟨t', d⟩, hs, rfl⟩ := Option.map_eq_some_iff.mp h
    exact .inr ⟨i, a, t, t', d, rfl, ht, hs, rfl⟩

theorem invariant {ok : Pool C T → Label R A → Prop} {I : Pool C T → Prop}
    (h : (machine enter step c).Reach ok p) (h₀ : I ⟨c, []⟩)
    (hcall : ∀ p r, I p → I { p with threads := p.threads ++ [enter r] })
    (hstep : ∀ p i a t t' d, (machine enter step c).Reach ok p → I p → ok p (.step i a) →
      p.threads[i]? = some t → step t a p.core = some (t', d) → I ⟨d, p.threads.set i t'⟩) :
    I p := by
  refine h.invariant h₀ ?_
  intro p l p' hr hI hok hnext
  rcases next_cases hnext with ⟨r, rfl, rfl⟩ | ⟨i, a, t, t', d, rfl, ht, hs, rfl⟩
  · exact hcall p r hI
  · exact hstep p i a t t' d hr hI hok ht hs

section Holdings

variable (f : T → List β) (ts : List T) {t : T} (t' : T) {i : ℕ}

theorem count_holdings_set [BEq β] (h : ts[i]? = some t) (b : β) :
    ((ts.set i t').flatMap f).count b + (f t).count b =
      (ts.flatMap f).count b + (f t').count b := by
  induction ts generalizing i with
  | nil => cases h
  | cons u ts ih =>
    cases i with
    | zero =>
      obtain rfl : u = t := Option.some.inj h
      simp only [List.set_cons_zero, List.flatMap_cons, List.count_append]
      omega
    | succ i =>
      have hrest := ih h
      simp only [List.set_cons_succ, List.flatMap_cons, List.count_append]
      omega

theorem count_holdings_call [BEq β] (b : β) :
    ((ts ++ [t']).flatMap f).count b = (ts.flatMap f).count b + (f t').count b := by
  simp only [List.flatMap_append, List.flatMap_cons, List.flatMap_nil, List.append_nil,
    List.count_append]

variable {ts t'}

theorem mem_set_of_step {u : T} (h : ts[i]? = some t) (hu : u ∈ ts.set i t') :
    u = t' ∨ u ∈ ts.eraseIdx i := by
  have hlt := (List.getElem?_eq_some_iff.mp h).1
  have hperm := List.set_perm_cons_eraseIdx hlt t'
  exact List.mem_cons.mp (hperm.mem_iff.mp hu)

end Holdings

end Pool

end EmpowerAgent.Library
