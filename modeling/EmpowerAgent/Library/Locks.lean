import EmpowerAgent.Library.Machine
import EmpowerAgent.Library.Procedure
import Mathlib.Data.Int.Notation
import Mathlib.Logic.Function.Basic
import Mathlib.Logic.Relation

namespace EmpowerAgent.Library.Locks

variable {L T I A σ M α β : Type} {R : I → Type}

/-- What a thread does in one step: it takes or releases a lock, creates or
joins a thread, or works on the memory that the threads share. -/
inductive Op (L T I : Type)
  | lock (l : L)
  | unlock (l : L)
  | create (t : T)
  | join (t : T)
  | mem (i : I)

@[reducible] def Op.Res (R : I → Type) : Op L T I → Type
  | .mem i => R i
  | _ => Unit

abbrev Prog (L T : Type) (R : I → Type) (α : Type) := Proc (Op L T I) (Op.Res R) α

/-- A thread is absent until it is called or created, and `running` holds what
is left of the code that it runs. -/
inductive Thread (L T : Type) (R : I → Type) (σ : Type)
  | absent
  | running (p : Prog L T R (Option σ))
  | finished

/-- The code of all threads, in pieces: each piece ends with the point of the
code at which the thread goes on, or with none when the thread is done. -/
structure Program (L T : Type) (R : I → Type) (A σ M : Type) where
  code : σ → Prog L T R (Option σ)
  entry : T → σ
  callable : T → σ → Bool
  exec : Proc.Exec I R A M
  mem : M

structure State (L T : Type) (R : I → Type) (σ M : Type) where
  mem : M
  owner : L → Option T
  threads : T → Thread L T R σ

inductive Label (T A σ : Type)
  | call (t : T) (pt : σ)
  | step (t : T) (a : A)

section Steps

variable [DecidableEq L] [DecidableEq T] (P : Program L T R A σ M)

namespace State

variable (s : State L T R σ M)

def set (t : T) (th : Thread L T R σ) : State L T R σ M :=
  { s with threads := Function.update s.threads t th }

def own (l : L) (o : Option T) : State L T R σ M :=
  { s with owner := Function.update s.owner l o }

/-- One step of a thread that has `p` left to run. -/
def advance (t : T) (a : A) : Prog L T R (Option σ) → Option (State L T R σ M)
  | .pure none => some (s.set t .finished)
  | .pure (some pt) => some (s.set t (.running (P.code pt)))
  | .call (.lock l) k => match s.owner l with
    | none => some ((s.own l (some t)).set t (.running (k ())))
    | some _ => none
  | .call (.unlock l) k => some ((s.own l none).set t (.running (k ())))
  | .call (.create t') k => match s.threads t' with
    | .absent => some ((s.set t' (.running (P.code (P.entry t')))).set t (.running (k ())))
    | _ => none
  | .call (.join t') k => match s.threads t' with
    | .running _ => none
    | _ => some (s.set t (.running (k ())))
  | .call (.mem i) k => (P.exec i a s.mem).map fun r ↦
      ({ s with mem := r.2 }).set t (.running (k r.1))

def step : Label T A σ → Option (State L T R σ M)
  | .call t pt => match s.threads t with
    | .absent => if P.callable t pt then some (s.set t (.running (P.code pt))) else none
    | _ => none
  | .step t a => match s.threads t with
    | .running p => s.advance P t a p
    | _ => none

/-- The thread that has to move before this one can. -/
def blocker (t : T) : Option T :=
  match s.threads t with
  | .running (.call (.lock l) _) => s.owner l
  | .running (.call (.join t') _) => match s.threads t' with
    | .running _ => some t'
    | _ => none
  | _ => none

def Waits (t t' : T) : Prop := s.blocker t = some t'

omit [DecidableEq L] [DecidableEq T] in
theorem Waits.cases {t t' : T} (h : s.Waits t t') :
    (∃ l k, s.threads t = .running (.call (.lock l) k) ∧ s.owner l = some t') ∨
      ∃ k, s.threads t = .running (.call (.join t') k) := by
  unfold Waits blocker at h
  split at h
  · exact .inl ⟨_, _, ‹_›, h⟩
  · split at h
    · cases h
      exact .inr ⟨_, ‹_›⟩
    · cases h
  · cases h

end State

def Program.machine : Machine (State L T R σ M) (Label T A σ) where
  start := ⟨P.mem, fun _ ↦ none, fun _ ↦ .absent⟩
  step s := s.step P

end Steps

section Memory

variable [DecidableEq L] [DecidableEq T] {P : Program L T R A σ M} {s s' : State L T R σ M}
  {ok : State L T R σ M → Label T A σ → Prop}

theorem State.advance_mem {t : T} {a : A} {p : Prog L T R (Option σ)}
    (h : s.advance P t a p = some s') : s'.mem = s.mem ∨
      ∃ i k r, p = .call (.mem i) k ∧ P.exec i a s.mem = some (r, s'.mem) := by
  cases p with
  | pure next =>
    left
    cases next with
    | none =>
      cases h
      rfl
    | some pt =>
      cases h
      rfl
  | call o k =>
    cases o with
    | mem i =>
      obtain ⟨⟨r, m⟩, he, rfl⟩ := Option.map_eq_some_iff.mp h
      exact .inr ⟨i, k, r, rfl, he⟩
    | unlock l =>
      cases h
      exact .inl rfl
    | lock | create | join =>
      left
      simp only [State.advance] at h
      split at h <;> cases h
      all_goals rfl

theorem mem_invariant {J : M → Prop} (h : P.machine.Reach ok s) (h₀ : J P.mem)
    (hstep : ∀ s t a i k r m, P.machine.Reach ok s → J s.mem → ok s (.step t a) →
      s.threads t = .running (.call (.mem i) k) → P.exec i a s.mem = some (r, m) → J m) :
    J s.mem := by
  refine h.invariant (I := fun s ↦ J s.mem) h₀ ?_
  intro s l s' hr hI hok hs
  cases l with
  | call t pt =>
    simp only [Program.machine, State.step] at hs
    split at hs
    · split_ifs at hs
      cases hs
      exact hI
    · cases hs
  | step t a =>
    simp only [Program.machine, State.step] at hs
    split at hs
    · rename_i p ht
      rcases State.advance_mem hs with heq | ⟨i, k, r, rfl, he⟩
      · rwa [heq]
      · exact hstep s t a i k r s'.mem hr hI hok ht he
    · cases hs

end Memory

/-- The operations of a run of a procedure, and its result. -/
inductive Path : Prog L T R α → List (Op L T I) → α → Prop
  | pure (x : α) : Path (.pure x) [] x
  | call {o : Op L T I} {k : Op.Res R o → Prog L T R α} {ops : List (Op L T I)} {x : α}
      (r : Op.Res R o) : Path (k r) ops x → Path (.call o k) (o :: ops) x

/-- What a thread does on its way from one point of the code to another. -/
inductive Program.Route (P : Program L T R A σ M) : σ → List (Op L T I) → Option σ → Prop
  | piece {pt : σ} {ops : List (Op L T I)} {next : Option σ} : Path (P.code pt) ops next →
      P.Route pt ops next
  | cons {pt pt' : σ} {ops ops' : List (Op L T I)} {next : Option σ} :
      Path (P.code pt) ops (some pt') → P.Route pt' ops' next → P.Route pt (ops ++ ops') next

section Balance

variable [DecidableEq L]

def Op.on (l : L) : Op L T I → Bool
  | .lock l' | .unlock l' => l' = l
  | _ => false

/-- The operations on each lock are to take it and to release it in turn. -/
def Balanced (ops : List (Op L T I)) : Prop :=
  ∀ l, ∃ n, ops.filter (Op.on l) = (List.replicate n [Op.lock l, Op.unlock l]).flatten

theorem Balanced.append {ops ops' : List (Op L T I)} (h : Balanced ops) (h' : Balanced ops') :
    Balanced (ops ++ ops') := by
  intro l
  obtain ⟨n, hn⟩ := h l
  obtain ⟨n', hn'⟩ := h' l
  exact ⟨n + n', by rw [List.filter_append, hn, hn', ← List.flatten_append,
    List.replicate_append_replicate]⟩

end Balance

section Discipline

variable [DecidableEq L] (rank : L → ℕ) (level : T → ℕ) (fits : T → σ → Prop) (entry : T → σ)

/-- A thread takes a lock only if all those that it holds come before it, and
joins, holding none, only threads below its own level. -/
def discipline (t : T) : Proc.Protocol (Op L T I) (Op.Res R) (List L) where
  allowed held
    | .lock l => ∀ l' ∈ held, rank l' < rank l
    | .unlock l => l ∈ held
    | .create t' => fits t' (entry t')
    | .join t' => held = [] ∧ level t' < level t
    | .mem _ => True
  next held
    | .lock l, _ => l :: held
    | .unlock l, _ => held.filter (· ≠ l)
    | _, _ => held

def Settled (t : T) (held : List L) (next : Option σ) : Prop :=
  held = [] ∧ ∀ pt ∈ next, fits t pt

abbrev Keeps (post : List L → α → Prop) (t : T) (held : List L) (p : Prog L T R α) : Prop :=
  Proc.Obeys (discipline rank level fits entry t) post held p

variable {rank level fits entry} {t : T} {held : List L}

theorem Keeps.path {post : List L → α → Prop} {p : Prog L T R α} {ops : List (Op L T I)} {x : α}
    (h : Keeps rank level fits entry post t held p) (hpost : ∀ held x, post held x → held = [])
    (hp : Path p ops x) (l : L) :
    ∃ n, ops.filter (Op.on l) = (if l ∈ held then [.unlock l] else []) ++
      (List.replicate n [Op.lock l, Op.unlock l]).flatten := by
  induction hp generalizing held with
  | pure x =>
    obtain rfl := hpost held x h
    exact ⟨0, rfl⟩
  | @call o k ops x r _ ih =>
    obtain ⟨hallowed, hk⟩ := h
    obtain ⟨n, hn⟩ := ih (hk r)
    cases o with
    | lock l' =>
      by_cases hl : l' = l
      · subst hl
        have hnot : l' ∉ held := fun hmem ↦ Nat.lt_irrefl _ (hallowed l' hmem)
        refine ⟨n + 1, ?_⟩
        simp [Op.on, hn, hnot, discipline, List.replicate_succ]
      · refine ⟨n, ?_⟩
        simp [Op.on, hn, hl, Ne.symm hl, discipline]
    | unlock l' =>
      refine ⟨n, ?_⟩
      by_cases hl : l' = l
      · subst hl
        have hmem : l' ∈ held := hallowed
        simp [Op.on, hn, hmem, discipline]
      · simp [Op.on, hn, hl, Ne.symm hl, discipline]
    | create t' | join t' | mem i =>
      exact ⟨n, by simpa [List.filter_cons, Op.on, discipline] using hn⟩

theorem Keeps.balanced {post : List L → α → Prop} {p : Prog L T R α} {ops : List (Op L T I)}
    {x : α} (h : Keeps rank level fits entry post t [] p)
    (hpost : ∀ held x, post held x → held = []) (hp : Path p ops x) : Balanced ops := by
  intro l
  simpa using h.path hpost hp l

theorem Keeps.result {post : List L → α → Prop} {p : Prog L T R α} {ops : List (Op L T I)}
    {x : α} (h : Keeps rank level fits entry post t held p) (hp : Path p ops x) :
    ∃ held', post held' x := by
  induction hp generalizing held with
  | pure x => exact ⟨held, h⟩
  | call r _ ih => exact ih (h.2 r)

end Discipline

section Waiting

variable [DecidableEq L] [DecidableEq T] {rank : L → ℕ} {level : T → ℕ} {fits : T → σ → Prop}
  {P : Program L T R A σ M} {s s' : State L T R σ M} {t : T}

/-- All the code keeps to the order of the locks. -/
structure Disciplined (rank : L → ℕ) (level : T → ℕ) (fits : T → σ → Prop)
    (P : Program L T R A σ M) : Prop where
  code : ∀ t pt, fits t pt → Keeps rank level fits P.entry (Settled fits t) t [] (P.code pt)
  callable : ∀ t pt, P.callable t pt = true → fits t pt

def State.Holds (s : State L T R σ M) (t : T) (held : List L) : Prop :=
  ∀ l, s.owner l = some t ↔ l ∈ held

def Thread.Ordered (rank : L → ℕ) (level : T → ℕ) (fits : T → σ → Prop) (entry : T → σ) (t : T)
    (held : List L) : Thread L T R σ → Prop
  | .running p => Keeps rank level fits entry (Settled fits t) t held p
  | _ => held = []

def Ordered (rank : L → ℕ) (level : T → ℕ) (fits : T → σ → Prop) (entry : T → σ)
    (s : State L T R σ M) : Prop :=
  ∀ t, ∃ held, s.Holds t held ∧ (s.threads t).Ordered rank level fits entry t held

theorem Ordered.set (h : Ordered rank level fits P.entry s) {th : Thread L T R σ} (m : M)
    (ht : ∀ held, (s.threads t).Ordered rank level fits P.entry t held →
      th.Ordered rank level fits P.entry t held) :
    Ordered rank level fits P.entry (({ s with mem := m }).set t th) := by
  intro u
  obtain ⟨held, hheld, hord⟩ := h u
  refine ⟨held, hheld, ?_⟩
  by_cases hu : u = t
  · subst hu
    simpa [State.set] using ht held hord
  · simpa [State.set, hu] using hord

theorem Ordered.own (h : Ordered rank level fits P.entry s) {l : L} {o : Option T} {held : List L}
    {th : Thread L T R σ} (hl : ∀ u, u ≠ t → s.owner l ≠ some u) (ho : ∀ u, u ≠ t → o ≠ some u)
    (hheld : (s.own l o).Holds t held) (ht : th.Ordered rank level fits P.entry t held) :
    Ordered rank level fits P.entry ((s.own l o).set t th) := by
  intro u
  by_cases hu : u = t
  · subst hu
    exact ⟨held, hheld, by simpa [State.set] using ht⟩
  · obtain ⟨held', hheld', hord⟩ := h u
    refine ⟨held', fun l' ↦ ?_, by simpa [State.set, State.own, hu] using hord⟩
    by_cases hl' : l' = l
    · subst hl'
      have hnot : l' ∉ held' := fun hmem ↦ hl u hu ((hheld' l').mpr hmem)
      simp [State.set, State.own, hnot, ho u hu]
    · simpa [State.set, State.own, hl'] using hheld' l'

omit [DecidableEq T] in
theorem State.Holds.lock (h : s.Holds t held) (l : L) :
    (s.own l (some t)).Holds t (l :: held) := by
  intro l'
  by_cases hl : l' = l
  · simp [State.own, hl]
  · simpa [State.own, hl] using h l'

omit [DecidableEq T] in
theorem State.Holds.unlock (h : s.Holds t held) (l : L) :
    (s.own l none).Holds t (held.filter (· ≠ l)) := by
  intro l'
  by_cases hl : l' = l
  · simp [State.own, hl]
  · simpa [State.own, hl] using h l'

theorem Ordered.goOn {o : Op L T I} {k : Op.Res R o → Prog L T R (Option σ)}
    (h : Ordered rank level fits P.entry s) (ht : s.threads t = .running (.call o k))
    (r : Op.Res R o) (m : M)
    (hnext : ∀ held, (discipline rank level fits P.entry t).next held o r = held) :
    Ordered rank level fits P.entry (({ s with mem := m }).set t (.running (k r))) := by
  refine h.set m fun held hord ↦ ?_
  rw [ht] at hord
  have hrest := hord.2 r
  rw [hnext] at hrest
  exact hrest

theorem Ordered.settle {next : Option σ} (hP : Disciplined rank level fits P)
    (h : Ordered rank level fits P.entry s) (ht : s.threads t = .running (.pure next)) :
    Ordered rank level fits P.entry
      (s.set t (next.elim .finished fun pt ↦ .running (P.code pt))) := by
  refine h.set s.mem fun held hord ↦ ?_
  rw [ht] at hord
  obtain ⟨rfl, hfits⟩ := hord
  cases next with
  | none => exact rfl
  | some pt => exact hP.code t pt (hfits pt rfl)

theorem Ordered.create {t' : T} (hP : Disciplined rank level fits P)
    (h : Ordered rank level fits P.entry s) (habsent : s.threads t' = .absent)
    (hfits : fits t' (P.entry t')) :
    Ordered rank level fits P.entry (s.set t' (.running (P.code (P.entry t')))) := by
  refine h.set s.mem fun held hord ↦ ?_
  rw [habsent] at hord
  obtain rfl : held = [] := hord
  exact hP.code t' _ hfits

theorem Ordered.advance {a : A} {p : Prog L T R (Option σ)} (hP : Disciplined rank level fits P)
    (h : Ordered rank level fits P.entry s) (ht : s.threads t = .running p)
    (hs : s.advance P t a p = some s') : Ordered rank level fits P.entry s' := by
  obtain ⟨held, hheld, hkeeps⟩ := h t
  rw [ht] at hkeeps
  cases p with
  | pure next =>
    have hsettled := h.settle hP ht
    cases next <;> cases hs <;> exact hsettled
  | call o k =>
    obtain ⟨hallowed, hk⟩ := hkeeps
    cases o with
    | lock l =>
      simp only [State.advance] at hs
      split at hs
      · rename_i hfree
        cases hs
        exact h.own (by simp [hfree]) (fun u hu ↦ by simp [Ne.symm hu]) (hheld.lock l) (hk ())
      · cases hs
    | unlock l =>
      cases hs
      have howned : s.owner l = some t := (hheld l).mpr hallowed
      exact h.own (fun u hu ↦ by simp [howned, Ne.symm hu]) (by simp) (hheld.unlock l) (hk ())
    | create t' =>
      simp only [State.advance] at hs
      split at hs
      · rename_i habsent
        cases hs
        have hne : t ≠ t' := by
          rintro rfl
          rw [ht] at habsent
          cases habsent
        have ht' : (s.set t' (.running (P.code (P.entry t')))).threads t =
            .running (.call (.create t') k) := by simpa [State.set, hne] using ht
        exact (h.create hP habsent hallowed).goOn ht' () s.mem fun _ ↦ rfl
      · cases hs
    | join t' =>
      have hnext : s' = s.set t (.running (k ())) := by
        simp only [State.advance] at hs
        split at hs
        · cases hs
        · cases hs; rfl
      subst hnext
      exact h.goOn ht () s.mem fun _ ↦ rfl
    | mem i =>
      obtain ⟨⟨r, m⟩, he, rfl⟩ := Option.map_eq_some_iff.mp hs
      exact h.goOn ht r m fun _ ↦ rfl

omit [DecidableEq T] in
theorem Disciplined.balanced (hP : Disciplined rank level fits P) {pt : σ} {next : Option σ}
    {ops : List (Op L T I)} (hr : P.Route pt ops next) (ht : fits t pt) : Balanced ops := by
  induction hr with
  | piece hp => exact (hP.code t _ ht).balanced (fun _ _ h ↦ h.1) hp
  | cons hp _ ih =>
    have hkeeps := hP.code t _ ht
    obtain ⟨_, _, hfits⟩ := hkeeps.result hp
    exact (hkeeps.balanced (fun _ _ h ↦ h.1) hp).append (ih (hfits _ rfl))

theorem Ordered.of_reachable (hP : Disciplined rank level fits P)
    (h : P.machine.Reachable s) : Ordered rank level fits P.entry s := by
  refine h.invariant ?_ ?_
  · exact fun t ↦ ⟨[], fun l ↦ by simp [Program.machine], rfl⟩
  intro s l s' _ hI _ hs
  cases l with
  | call t pt =>
    simp only [Program.machine, State.step] at hs
    split at hs
    · rename_i habsent
      split_ifs at hs with hcall
      cases hs
      refine hI.set s.mem fun held hord ↦ ?_
      rw [habsent] at hord
      obtain rfl : held = [] := hord
      exact hP.code t pt (hP.callable t pt hcall)
    · cases hs
  | step t a =>
    simp only [Program.machine, State.step] at hs
    split at hs
    · exact hI.advance hP ‹_› hs
    · cases hs

def State.stage (rank : L → ℕ) (level : T → ℕ) (s : State L T R σ M) (t : T) : ℤ :=
  match s.threads t with
  | .running (.call (.lock l) _) => rank l
  | .running (.call (.join _) _) => -(level t : ℤ) - 1
  | _ => 0

omit [DecidableEq T] in
theorem Ordered.stage_lt (h : Ordered rank level fits P.entry s) {t' t'' : T}
    (hw : s.Waits t t') (hw' : s.Waits t' t'') :
    s.stage rank level t < s.stage rank level t' := by
  obtain ⟨held, hheld, hord⟩ := h t
  obtain ⟨held', hheld', hord'⟩ := h t'
  rcases hw.cases with ⟨l, k, ht, howner⟩ | ⟨k, ht⟩ <;> rw [ht] at hord <;>
    rcases hw'.cases with ⟨l', k', ht', _⟩ | ⟨k', ht'⟩ <;> rw [ht'] at hord'
  · -- the other thread holds the lock, so that the one it waits for comes later
    have hlt : rank l < rank l' := hord'.1 l ((hheld' l).mp howner)
    simp only [State.stage, ht, ht']
    omega
  · -- a thread that joins holds no lock
    obtain rfl : held' = [] := hord'.1.1
    cases (hheld' l).mp howner
  · simp only [State.stage, ht, ht']
    omega
  · have hlt : level t' < level t := hord.1.2
    simp only [State.stage, ht, ht']
    omega

omit [DecidableEq T] in
theorem Ordered.no_cycle (h : Ordered rank level fits P.entry s) (t : T) :
    ¬ Relation.TransGen s.Waits t t := by
  have hlt (u : T) (hu : Relation.TransGen s.Waits t u) (v : T) (hv : s.Waits u v) :
      s.stage rank level t < s.stage rank level u := by
    induction hu generalizing v with
    | single hw => exact h.stage_lt hw hv
    | tail _ hw ih => exact Int.lt_trans (ih _ hw) (h.stage_lt hw hv)
  intro hcycle
  obtain ⟨v, hv, _⟩ := Relation.TransGen.head'_iff.mp hcycle
  exact Int.lt_irrefl _ (hlt t hcycle v hv)

end Waiting

end EmpowerAgent.Library.Locks
