import Mathlib.Tactic.Common

namespace EmpowerAgent.Library

/-- A procedure as the tree of the operations it performs: each operation
may return any of its results, and the procedure goes on from there. -/
inductive Proc (Op : Type) (Res : Op → Type) (α : Type) : Type
  | pure (a : α) : Proc Op Res α
  | call (o : Op) (k : Res o → Proc Op Res α) : Proc Op Res α

namespace Proc

variable {Op : Type} {Res : Op → Type} {α β γ : Type}

def bind : Proc Op Res α → (α → Proc Op Res β) → Proc Op Res β
  | .pure a, f => f a
  | .call o k, f => .call o fun r ↦ (k r).bind f

instance : Monad (Proc Op Res) where
  pure := Proc.pure
  bind := Proc.bind

def perform (o : Op) : Proc Op Res (Res o) := .call o .pure

def Returns (Q : α → Prop) : Proc Op Res α → Prop
  | .pure a => Q a
  | .call _ k => ∀ r, Returns Q (k r)

theorem Returns.bind {Q : α → Prop} {Q' : β → Prop} {p : Proc Op Res α} {f : α → Proc Op Res β}
    (h : Returns Q p) (hf : ∀ a, Q a → Returns Q' (f a)) : Returns Q' (p >>= f) := by
  induction p with
  | pure a => exact hf a h
  | call o k ih => exact fun r ↦ ih r (h r)

/-- What is left of a procedure after its next operation. -/
inductive Rest : Proc Op Res α → Proc Op Res α → Prop
  | call {o : Op} {k : Res o → Proc Op Res α} (r : Res o) : Rest (k r) (.call o k)

theorem Rest.wf : WellFounded (Rest : Proc Op Res α → Proc Op Res α → Prop) := by
  refine ⟨fun p ↦ ?_⟩
  induction p with
  | pure a =>
    constructor
    rintro q ⟨⟩
  | call o k ih =>
    constructor
    rintro q ⟨r⟩
    exact ih r

/-- Each operation done by a procedure over other operations. -/
def expand {Op' : Type} {Res' : Op' → Type} (f : (o : Op) → Proc Op' Res' (Res o)) :
    Proc Op Res α → Proc Op' Res' α
  | .pure a => .pure a
  | .call o k => (f o).bind fun r ↦ (k r).expand f

section Expansion

variable {Op' : Type} {Res' : Op' → Type} {f : (o : Op) → Proc Op' Res' (Res o)}

theorem bind_pure (p : Proc Op Res α) : p.bind .pure = p := by
  induction p with
  | pure a => rfl
  | call o k ih => exact congrArg (Proc.call o) (funext ih)

theorem expand_perform (o : Op) : (perform o).expand f = f o := bind_pure (f o)

theorem bind_bind (p : Proc Op Res α) (f : α → Proc Op Res β) (g : β → Proc Op Res γ) :
    (p.bind f).bind g = p.bind fun a ↦ (f a).bind g := by
  induction p with
  | pure a => rfl
  | call o k ih => exact congrArg (Proc.call o) (funext ih)

theorem expand_bind (p : Proc Op Res α) (k : α → Proc Op Res β) :
    (p >>= k).expand f = p.expand f >>= fun a ↦ (k a).expand f := by
  induction p with
  | pure a => rfl
  | call o k' ih =>
    refine Eq.trans ?_ (bind_bind (f o) _ _).symm
    exact congrArg ((f o).bind ·) (funext ih)

theorem expand_self (p : Proc Op Res α) : p.expand perform = p := by
  induction p with
  | pure a => rfl
  | call o k ih => exact congrArg (Proc.call o) (funext ih)

theorem expand_expand {Op'' : Type} {Res'' : Op'' → Type}
    {g : (o : Op') → Proc Op'' Res'' (Res' o)} (p : Proc Op Res α) :
    (p.expand f).expand g = p.expand fun o ↦ (f o).expand g := by
  induction p with
  | pure a => rfl
  | call o k ih =>
    refine (expand_bind (f o) _).trans ?_
    exact congrArg (((f o).expand g).bind ·) (funext ih)

end Expansion

section Protocols

variable {τ : Type}

/-- What a procedure may do as it goes: `allowed` is asked before each
operation, and `next` follows what its result tells. -/
structure Protocol (Op : Type) (Res : Op → Type) (τ : Type) where
  allowed : τ → Op → Prop
  next : τ → (o : Op) → Res o → τ

/-- Whatever the operations return, the procedure keeps to the protocol and
ends in a phase and with a result that meet `post`. -/
def Obeys (P : Protocol Op Res τ) (post : τ → α → Prop) : τ → Proc Op Res α → Prop
  | t, .pure a => post t a
  | t, .call o k => P.allowed t o ∧ ∀ r, Obeys P post (P.next t o r) (k r)

variable {P : Protocol Op Res τ} {post : τ → α → Prop} {t : τ}

@[simp] theorem obeys_pure (a : α) : Obeys P post t (.pure a) ↔ post t a := Iff.rfl

@[simp] theorem obeys_ret (a : α) :
    Obeys P post t (Pure.pure a : Proc Op Res α) ↔ post t a := Iff.rfl

@[simp] theorem obeys_call (o : Op) (k : Res o → Proc Op Res α) :
    Obeys P post t (.call o k) ↔ P.allowed t o ∧ ∀ r, Obeys P post (P.next t o r) (k r) :=
  Iff.rfl

theorem Obeys.bind {post' : τ → β → Prop} {p : Proc Op Res α} {f : α → Proc Op Res β}
    (h : Obeys P post t p) (hf : ∀ t a, post t a → Obeys P post' t (f a)) :
    Obeys P post' t (p >>= f) := by
  induction p generalizing t with
  | pure a => exact hf t a h
  | call o k ih => exact ⟨h.1, fun r ↦ ih r (h.2 r)⟩

theorem Obeys.and {post' : τ → α → Prop} {p : Proc Op Res α} (h : Obeys P post t p)
    (h' : Obeys P post' t p) : Obeys P (fun t a ↦ post t a ∧ post' t a) t p := by
  induction p generalizing t with
  | pure a => exact ⟨h, h'⟩
  | call o k ih => exact ⟨h.1, fun r ↦ ih r (h.2 r) (h'.2 r)⟩

theorem Obeys.expand {Op' : Type} {Res' : Op' → Type} {P' : Protocol Op' Res' τ}
    {f : (o : Op) → Proc Op' Res' (Res o)} (h : ∀ o, Obeys P' (fun t' _ ↦ t' = t) t (f o))
    (p : Proc Op Res α) : Obeys P' (fun t' _ ↦ t' = t) t (p.expand f) := by
  induction p with
  | pure a => rfl
  | call o k ih => exact (h o).bind fun t' r ht ↦ by subst ht; exact ih r

theorem Obeys.weaken {υ : Type} {Q : Protocol Op Res υ} {post' : υ → α → Prop} {f : τ → υ}
    {p : Proc Op Res α} (h : Obeys P post t p)
    (hallowed : ∀ t o, P.allowed t o → Q.allowed (f t) o)
    (hnext : ∀ t o r, P.allowed t o → f (P.next t o r) = Q.next (f t) o r)
    (hpost : ∀ t a, post t a → post' (f t) a) : Obeys Q post' (f t) p := by
  induction p generalizing t with
  | pure a => exact hpost t a h
  | call o k ih =>
    refine ⟨hallowed t o h.1, fun r ↦ ?_⟩
    rw [← hnext t o r h.1]
    exact ih r (h.2 r)

end Protocols

section Execution

variable {S A : Type}

/-- `exec o a s` performs `o` in `s` when the environment answers `a`; it is
`none` when `a` is not an answer that `o` can get there. -/
abbrev Exec (Op : Type) (Res : Op → Type) (A S : Type) :=
  (o : Op) → A → S → Option (Res o × S)

variable (exec : Exec Op Res A S)

/-- Perform a whole procedure with nothing in between, the environment
answering its operations in turn. -/
def run : Proc Op Res α → List A → S → Option (α × S)
  | .pure x, [], s => some (x, s)
  | .pure _, _ :: _, _ => none
  | .call _ _, [], _ => none
  | .call o k, a :: as, s => (exec o a s).bind fun r ↦ (k r.1).run as r.2

/-- Every run whose answers all meet `R` ends in `Q`. -/
def Ensures (R : A → Prop) (p : Proc Op Res α) (s : S) (Q : α → S → Prop) : Prop :=
  ∀ as x s', (∀ a ∈ as, R a) → p.run exec as s = some (x, s') → Q x s'

variable {exec} {R : A → Prop} {s : S}

theorem run_pure {x y : α} {as : List A} {s' : S}
    (h : (Proc.pure x : Proc Op Res α).run exec as s = some (y, s')) : y = x ∧ s' = s := by
  cases as with
  | nil => cases h; exact ⟨rfl, rfl⟩
  | cons a as => cases h

theorem run_call {o : Op} {k : Res o → Proc Op Res α} {as : List A} {x : α} {s' : S}
    (h : (Proc.call o k).run exec as s = some (x, s')) :
    ∃ a as' r s₁, as = a :: as' ∧ exec o a s = some (r, s₁) ∧
      (k r).run exec as' s₁ = some (x, s') := by
  cases as with
  | nil => cases h
  | cons a as =>
    obtain ⟨⟨r, s₁⟩, he, hr⟩ := Option.bind_eq_some_iff.mp h
    exact ⟨a, as, r, s₁, rfl, he, hr⟩

/-- Operations that a protocol allows and that keep an invariant keep it over
the whole run of a procedure that obeys the protocol. -/
theorem Obeys.run {τ : Type} {P : Protocol Op Res τ} {post : τ → α → Prop}
    {I : τ → S → Prop}
    (hstep : ∀ t o a s r s', P.allowed t o → I t s → exec o a s = some (r, s') →
      I (P.next t o r) s')
    {p : Proc Op Res α} {t : τ} {as : List A} {x : α} {s' : S} (h : Obeys P post t p)
    (hI : I t s) (hr : p.run exec as s = some (x, s')) : ∃ t', post t' x ∧ I t' s' := by
  induction p generalizing t as s with
  | pure y =>
    obtain ⟨rfl, rfl⟩ := run_pure hr
    exact ⟨t, h, hI⟩
  | call o k ih =>
    obtain ⟨a, as, r, s₁, rfl, he, hr⟩ := run_call hr
    exact ih r (h.2 r) (hstep t o a s r s₁ h.1 hI he) hr

theorem Obeys.run_rel {T τ : Type} {exec' : Exec Op Res A T} {P : Protocol Op Res τ}
    {post : τ → α → Prop} {I : τ → S → T → Prop}
    (hstep : ∀ t o a s u, P.allowed t o → I t s u →
      Option.Rel (fun r r' ↦ r.1 = r'.1 ∧ I (P.next t o r'.1) r.2 r'.2) (exec o a s) (exec' o a u))
    {p : Proc Op Res α} {t : τ} {u : T} (h : Obeys P post t p) (hI : I t s u) (as : List A) :
    Option.Rel (fun r r' ↦ r.1 = r'.1 ∧ ∃ t', post t' r'.1 ∧ I t' r.2 r'.2)
      (p.run exec as s) (p.run exec' as u) := by
  induction p generalizing t as s u with
  | pure x =>
    cases as with
    | nil => exact .some ⟨rfl, t, h, hI⟩
    | cons a as => exact .none
  | call o k ih =>
    cases as with
    | nil => exact .none
    | cons a as =>
      have hrel := hstep t o a s u h.1 hI
      simp only [Proc.run]
      generalize exec o a s = f, exec' o a u = g at hrel
      cases hrel with
      | none => exact .none
      | @some r r' hr =>
        obtain ⟨x, s'⟩ := r
        obtain ⟨y, u'⟩ := r'
        obtain ⟨rfl, hI'⟩ := hr
        exact ih x (h.2 x) hI' as

theorem Returns.run {Q : α → Prop} {p : Proc Op Res α} {as : List A} {x : α} {s' : S}
    (h : Returns Q p) (hr : p.run exec as s = some (x, s')) : Q x := by
  induction p generalizing as s with
  | pure y =>
    obtain ⟨rfl, rfl⟩ := run_pure hr
    exact h
  | call o k ih =>
    obtain ⟨a, as, r, s₁, rfl, he, hr⟩ := run_call hr
    exact ih r (h r) hr

theorem exists_run (h : ∀ o s, ∃ a r s', R a ∧ exec o a s = some (r, s'))
    (p : Proc Op Res α) (s : S) :
    ∃ as x s', (∀ a ∈ as, R a) ∧ p.run exec as s = some (x, s') := by
  induction p generalizing s with
  | pure x => exact ⟨[], x, s, List.forall_mem_nil _, rfl⟩
  | call o k ih =>
    obtain ⟨a, r, s₁, hR, he⟩ := h o s
    obtain ⟨as, x, s₂, has, hr⟩ := ih r s₁
    refine ⟨a :: as, x, s₂, List.forall_mem_cons.mpr ⟨hR, has⟩, ?_⟩
    simp only [run, he, Option.bind_some, hr]

theorem ensures_pure {x : α} {Q : α → S → Prop} (h : Q x s) :
    Ensures exec R (.pure x) s Q := by
  intro as y s' _ hr
  obtain ⟨rfl, rfl⟩ := run_pure hr
  exact h

theorem ensures_call {o : Op} {k : Res o → Proc Op Res α} {Q : α → S → Prop}
    (h : ∀ a r s', R a → exec o a s = some (r, s') → Ensures exec R (k r) s' Q) :
    Ensures exec R (.call o k) s Q := by
  intro as x s' hR hr
  obtain ⟨a, as, r, s₁, rfl, he, hr⟩ := run_call hr
  exact h a r s₁ (hR a (List.mem_cons_self ..)) he as x s'
    (fun b hb ↦ hR b (List.mem_cons_of_mem a hb)) hr

theorem run_bind {p : Proc Op Res α} {f : α → Proc Op Res β} {as : List A} {x : β} {s' : S}
    (h : (p >>= f).run exec as s = some (x, s')) :
    ∃ as₁ as₂ y s₁, as = as₁ ++ as₂ ∧ p.run exec as₁ s = some (y, s₁) ∧
      (f y).run exec as₂ s₁ = some (x, s') := by
  induction p generalizing as s with
  | pure y => exact ⟨[], as, y, s, rfl, rfl, h⟩
  | call o k ih =>
    obtain ⟨a, as, r, s₁, rfl, he, hr⟩ := run_call h
    obtain ⟨as₁, as₂, y, s₂, rfl, h₁, h₂⟩ := ih r hr
    refine ⟨a :: as₁, as₂, y, s₂, rfl, ?_, h₂⟩
    simp only [run, he, Option.bind_some, h₁]

theorem Ensures.bind {p : Proc Op Res α} {f : α → Proc Op Res β} {Q : α → S → Prop}
    {Q' : β → S → Prop} (h : Ensures exec R p s Q)
    (hf : ∀ x s', Q x s' → Ensures exec R (f x) s' Q') : Ensures exec R (p >>= f) s Q' := by
  intro as x s' hR hr
  obtain ⟨as₁, as₂, y, s₁, rfl, h₁, h₂⟩ := run_bind hr
  have hQ := h as₁ y s₁ (fun a ha ↦ hR a (List.mem_append_left _ ha)) h₁
  exact hf y s₁ hQ as₂ x s' (fun a ha ↦ hR a (List.mem_append_right _ ha)) h₂

theorem Ensures.mono {p : Proc Op Res α} {Q Q' : α → S → Prop} (h : Ensures exec R p s Q)
    (hQ : ∀ x s', Q x s' → Q' x s') : Ensures exec R p s Q' :=
  fun as x s' hR hr ↦ hQ x s' (h as x s' hR hr)

/-- A run of an expanded procedure is a run of the procedure itself, whose
operations are each run in turn. -/
theorem run_expand {Op' : Type} {Res' : Op' → Type} {f : (o : Op') → Proc Op Res (Res' o)}
    {p : Proc Op' Res' α} {as : List A} {x : α} {s' : S}
    (h : (p.expand f).run exec as s = some (x, s')) :
    ∃ ass, p.run (fun o as s ↦ (f o).run exec as s) ass s = some (x, s') := by
  induction p generalizing as s with
  | pure y =>
    obtain ⟨rfl, rfl⟩ := run_pure h
    exact ⟨[], rfl⟩
  | call o k ih =>
    obtain ⟨as₁, as₂, r, s₁, rfl, h₁, h₂⟩ := run_bind (p := f o) h
    obtain ⟨ass, hr⟩ := ih r h₂
    refine ⟨as₁ :: ass, ?_⟩
    simp only [run, h₁, Option.bind_some, hr]

variable (exec) in
/-- Every operation of a run meets `ok` in the state in which it is performed. -/
def Along (ok : Op → A → S → Prop) : Proc Op Res α → List A → S → Prop
  | .call o k, a :: as, s => ok o a s ∧ ∀ r ∈ exec o a s, (k r.1).Along ok as r.2
  | _, _, _ => True

instance decidableAlong {ok : Op → A → S → Prop} [∀ o a s, Decidable (ok o a s)] :
    (p : Proc Op Res α) → (as : List A) → (s : S) → Decidable (p.Along exec ok as s)
  | .pure _, _, _ => .isTrue trivial
  | .call _ _, [], _ => .isTrue trivial
  | .call o k, a :: as, s =>
    have (r : Res o × S) : Decidable ((k r.1).Along exec ok as r.2) := decidableAlong (k r.1) as r.2
    inferInstanceAs (Decidable (ok o a s ∧ ∀ r ∈ exec o a s, (k r.1).Along exec ok as r.2))

/-- What an operation keeps exactly where it meets `ok`, a run keeps exactly
where each of its operations does. -/
theorem along_iff {ok : Op → A → S → Prop} {I : S → Prop}
    (hstep : ∀ o a s r s', exec o a s = some (r, s') → (I s' ↔ I s ∧ ok o a s))
    {p : Proc Op Res α} {as : List A} {x : α} {s' : S} (hr : p.run exec as s = some (x, s')) :
    I s' ↔ I s ∧ p.Along exec ok as s := by
  induction p generalizing as s with
  | pure y =>
    obtain ⟨rfl, rfl⟩ := run_pure hr
    cases as <;> exact (and_iff_left trivial).symm
  | call o k ih =>
    obtain ⟨a, as, r, s₁, rfl, he, hr⟩ := run_call hr
    rw [ih r hr, hstep o a s r s₁ he, and_assoc]
    simp only [Along, he, Option.mem_some_iff, forall_eq']

end Execution

end Proc

end EmpowerAgent.Library
