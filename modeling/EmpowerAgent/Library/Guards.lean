import EmpowerAgent.Library.Locks

namespace EmpowerAgent.Library.Locks

variable {L T I A σ M α β : Type} {R : I → Type} [DecidableEq L]

section Ignoring

variable {put : M → M}

/-- A step that neither reads nor changes what `put` writes. -/
def Ignores (f : M → Option (α × M)) (put : M → M) : Prop :=
  ∀ m, f (put m) = (f m).map fun r ↦ (r.1, put r.2)

theorem Ignores.map {f : M → Option (α × M)} (h : Ignores f put) (g : α → β) :
    Ignores (fun m ↦ (f m).map fun r ↦ (g r.1, r.2)) put := by
  intro m
  simp only [h m, Option.map_map, Function.comp_def]

theorem Ignores.fails : Ignores (fun _ ↦ (none : Option (α × M))) put := fun _ ↦ rfl

theorem Ignores.done {g : M → α × M} (hg : ∀ m, g (put m) = ((g m).1, put (g m).2)) :
    Ignores (fun m ↦ some (g m)) put := by
  intro m
  simp only [hg, Option.map_some]

theorem Ignores.ite {P : M → Prop} [DecidablePred P] {f g : M → Option (α × M)}
    (hP : ∀ m, P (put m) ↔ P m) (hf : Ignores f put) (hg : Ignores g put) :
    Ignores (fun m ↦ if P m then f m else g m) put := by
  intro m
  by_cases h : P m
  · simp only [hP, h, if_true, hf m]
  · simp only [hP, h, if_false, hg m]

theorem Ignores.answer {ans : Option β} {g : β → M → α × M}
    (hg : ∀ x m, g x (put m) = ((g x m).1, put (g x m).2)) :
    Ignores (fun m ↦ ans.map (g · m)) put := by
  cases ans with
  | none => exact .fails
  | some x => exact .done (hg x)

/-- What a step ignores, it leaves as it was. -/
theorem Ignores.get_eq {γ : Type} {get : M → γ} {put : γ → M → M} {f : M → Option (α × M)}
    {m m' : M} {r : α} (h : Ignores f (put (get m))) (hput : put (get m) m = m)
    (hget : ∀ x m, get (put x m) = x) (hf : f m = some (r, m')) : get m' = get m := by
  have hm := h m
  rw [hput, hf] at hm
  obtain ⟨_, hm⟩ := Prod.mk.inj (Option.some.inj hm)
  rw [hm, hget]

end Ignoring

section Protocol

variable (guard : I → Option L)

/-- A thread works on the memory only with the guard of the work in hand, and
releases only the locks that it holds. -/
def guarding : Proc.Protocol (Op L T I) (Op.Res R) (List L) where
  allowed held
    | .mem i => ∀ l, guard i = some l → l ∈ held
    | .unlock l => l ∈ held
    | _ => True
  next held
    | .lock l, _ => l :: held
    | .unlock l, _ => held.filter (· ≠ l)
    | _, _ => held

abbrev Guards (post : List L → α → Prop) (held : List L) (p : Prog L T R α) : Prop :=
  Proc.Obeys (guarding guard) post held p

abbrev Guarded (held : List L) (p : Prog L T R α) : Prop :=
  Guards guard (fun held' _ ↦ held' = held) held p

variable {guard} {post : List L → β → Prop} {held : List L} {l : L}

theorem Guarded.bind {p : Prog L T R α} {f : α → Prog L T R β} (h : Guarded guard held p)
    (hf : ∀ x, Guards guard post held (f x)) : Guards guard post held (p >>= f) :=
  Proc.Obeys.bind h fun held' x hheld ↦ by subst hheld; exact hf x

theorem filter_released (hl : l ∉ held) : (l :: held).filter (· ≠ l) = held := by
  rw [List.filter_cons_of_neg (by simp), List.filter_eq_self]
  rintro l' hmem
  have hne : l' ≠ l := fun heq ↦ hl (heq ▸ hmem)
  simpa using hne

end Protocol

section Owners

variable [DecidableEq T] {guard : I → Option L} {P : Program L T R A σ M}
  {s s' : State L T R σ M} {t : T}

/-- What is left of the code of the thread keeps to the locks that it owns. -/
def KeepsGuard (guard : I → Option L) (s : State L T R σ M) (t : T) : Prop :=
  ∀ p, s.threads t = .running p → ∃ held, (∀ l ∈ held, s.owner l = some t) ∧
    Guards guard (fun _ _ ↦ True) held p

/-- All the code keeps to the guards, and nothing is held between its pieces. -/
def Guarding (guard : I → Option L) (P : Program L T R A σ M) : Prop :=
  ∀ pt, Guards guard (fun _ _ ↦ True) [] (P.code pt)

omit [DecidableEq T] in
theorem KeepsGuard.fresh (hP : Guarding guard P) (pt : σ)
    (ht : s.threads t = .running (P.code pt)) : KeepsGuard guard s t := by
  intro p hp
  obtain rfl := Thread.running.inj (ht.symm.trans hp)
  exact ⟨[], by simp, hP pt⟩

omit [DecidableEq T] in
theorem KeepsGuard.aside (h : KeepsGuard guard s t) (hthread : s'.threads t = s.threads t)
    (howner : ∀ l, s.owner l = some t → s'.owner l = some t) : KeepsGuard guard s' t := by
  intro p hp
  obtain ⟨held, hheld, hp⟩ := h p (hthread.symm.trans hp)
  exact ⟨held, fun l hl ↦ howner l (hheld l hl), hp⟩

omit [DecidableEq T] in
theorem KeepsGuard.goOn {p : Prog L T R (Option σ)} {held : List L}
    (ht : s.threads t = .running p) (hheld : ∀ l ∈ held, s.owner l = some t)
    (hp : Guards guard (fun _ _ ↦ True) held p) : KeepsGuard guard s t := by
  intro q hq
  obtain rfl := Thread.running.inj (ht.symm.trans hq)
  exact ⟨held, hheld, hp⟩

theorem KeepsGuard.others {m : M} {th : Thread L T R σ} (h : ∀ u, KeepsGuard guard s u)
    (ht : KeepsGuard guard (({ s with mem := m }).set t th) t) (u : T) :
    KeepsGuard guard (({ s with mem := m }).set t th) u := by
  by_cases hu : u = t
  · exact hu ▸ ht
  · exact (h u).aside (Function.update_of_ne hu ..) fun _ hl ↦ hl

theorem KeepsGuard.lock {l : L} {held : List L} {q : Prog L T R (Option σ)}
    (h : ∀ u, KeepsGuard guard s u) (hfree : s.owner l = none)
    (hheld : ∀ l ∈ held, s.owner l = some t)
    (hq : Guards guard (fun _ _ ↦ True) (l :: held) q) (u : T) :
    KeepsGuard guard ((s.own l (some t)).set t (.running q)) u := by
  by_cases hu : u = t
  · subst hu
    refine .goOn (by simp [State.set]) (fun l' hl' ↦ ?_) hq
    by_cases hl : l' = l
    · simp [State.set, State.own, hl]
    · simpa [State.set, State.own, hl] using hheld l' (List.mem_of_ne_of_mem hl hl')
  · refine (h u).aside (Function.update_of_ne hu ..) fun l' howner ↦ ?_
    have hl : l' ≠ l := by
      rintro rfl
      rw [hfree] at howner
      cases howner
    simpa [State.set, State.own, hl] using howner

theorem KeepsGuard.unlock {l : L} {held : List L} {q : Prog L T R (Option σ)}
    (h : ∀ u, KeepsGuard guard s u) (howned : s.owner l = some t)
    (hheld : ∀ l ∈ held, s.owner l = some t)
    (hq : Guards guard (fun _ _ ↦ True) (held.filter (· ≠ l)) q) (u : T) :
    KeepsGuard guard ((s.own l none).set t (.running q)) u := by
  by_cases hu : u = t
  · subst hu
    refine .goOn (by simp [State.set]) (fun l' hl' ↦ ?_) hq
    obtain ⟨hmem, hl⟩ := List.mem_filter.mp hl'
    have hl : l' ≠ l := by simpa using hl
    simpa [State.set, State.own, hl] using hheld l' hmem
  · refine (h u).aside (Function.update_of_ne hu ..) fun l' howner ↦ ?_
    have hl : l' ≠ l := by
      rintro rfl
      exact hu (Option.some.inj (howner.symm.trans howned))
    simpa [State.set, State.own, hl] using howner

theorem KeepsGuard.advance {a : A} {p : Prog L T R (Option σ)} (hP : Guarding guard P)
    (h : ∀ u, KeepsGuard guard s u) (ht : s.threads t = .running p)
    (hs : s.advance P t a p = some s') (u : T) : KeepsGuard guard s' u := by
  obtain ⟨held, hheld, hp⟩ := h t p ht
  have hgo (m : M) (q : Prog L T R (Option σ)) (hq : Guards guard (fun _ _ ↦ True) held q)
      (u : T) : KeepsGuard guard (({ s with mem := m }).set t (.running q)) u :=
    .others h (.goOn (by simp [State.set]) hheld hq) u
  cases p with
  | pure next =>
    cases next with
    | none =>
      cases hs
      exact .others (m := s.mem) h (fun q hq ↦ by simp [State.set] at hq) u
    | some pt =>
      cases hs
      exact .others (m := s.mem) h (.fresh hP pt (by simp [State.set])) u
  | call o k =>
    obtain ⟨hallowed, hk⟩ := hp
    cases o with
    | lock l =>
      simp only [State.advance] at hs
      split at hs
      · rename_i hfree
        cases hs
        exact .lock h hfree hheld (hk ()) u
      · cases hs
    | unlock l =>
      cases hs
      exact .unlock h (hheld l hallowed) hheld (hk ()) u
    | create t' =>
      simp only [State.advance] at hs
      split at hs
      · rename_i habsent
        cases hs
        have hcreated (u : T) :
            KeepsGuard guard (s.set t' (.running (P.code (P.entry t')))) u :=
          .others (m := s.mem) h (.fresh hP (P.entry t') (by simp [State.set])) u
        exact .others (m := s.mem) hcreated (.goOn (by simp [State.set]) hheld (hk ())) u
      · cases hs
    | join t' =>
      simp only [State.advance] at hs
      split at hs
      · cases hs
      · cases hs
        exact hgo s.mem _ (hk ()) u
    | mem i =>
      obtain ⟨⟨r, m⟩, _, rfl⟩ := Option.map_eq_some_iff.mp hs
      exact hgo m _ (hk r) u

theorem KeepsGuard.of_reachable (hP : Guarding guard P) (h : P.machine.Reachable s) (u : T) :
    KeepsGuard guard s u := by
  revert u
  refine h.invariant (I := fun s ↦ ∀ u, KeepsGuard guard s u) ?_ ?_
  · intro u p hp
    cases hp
  intro s l s' _ hI _ hs
  cases l with
  | call t pt =>
    simp only [Program.machine, State.step] at hs
    split at hs
    · split_ifs at hs
      cases hs
      exact .others (m := s.mem) hI (.fresh hP pt (by simp [State.set]))
    · cases hs
  | step t a =>
    simp only [Program.machine, State.step] at hs
    split at hs
    · exact KeepsGuard.advance hP hI ‹_› hs
    · cases hs

theorem State.advance_owner {a : A} {p : Prog L T R (Option σ)}
    (h : s.advance P t a p = some s') : s'.owner = s.owner ∨
      (∃ l k, p = .call (.lock l) k ∧ s.owner l = none ∧
        s'.owner = Function.update s.owner l (some t)) ∨
      ∃ l k, p = .call (.unlock l) k ∧ s'.owner = Function.update s.owner l none := by
  cases p with
  | pure next =>
    left
    cases next with
    | none =>
      cases h
      rfl
    | some pt =>
      cases h
      rfl
  | call o k =>
    cases o with
    | lock l =>
      simp only [State.advance] at h
      split at h
      · cases h
        exact .inr (.inl ⟨l, k, rfl, ‹_›, rfl⟩)
      · cases h
    | unlock l =>
      cases h
      exact .inr (.inr ⟨l, k, rfl, rfl⟩)
    | create t' | join t' =>
      left
      simp only [State.advance] at h
      split at h <;> cases h
      all_goals rfl
    | mem i =>
      left
      obtain ⟨⟨r, m⟩, _, rfl⟩ := Option.map_eq_some_iff.mp h
      rfl

theorem Guarding.owns {l : L} (hP : Guarding guard P) (h : P.machine.Reachable s) {i : I}
    {k : R i → Prog L T R (Option σ)} (ht : s.threads t = .running (.call (.mem i) k))
    (hi : guard i = some l) : s.owner l = some t := by
  obtain ⟨held, hheld, hp⟩ := KeepsGuard.of_reachable hP h t _ ht
  exact hheld l (hp.1 l hi)

theorem Guarding.owner_aside {l : L} {lab : Label T A σ} (hP : Guarding guard P)
    (h : P.machine.Reachable s) (hs : P.machine.step s lab = some s') (howner : s.owner l = some t)
    (hlab : ∀ a, lab ≠ .step t a) : s'.owner l = some t := by
  cases lab with
  | call u pt =>
    simp only [Program.machine, State.step] at hs
    split at hs
    · split_ifs at hs
      cases hs
      exact howner
    · cases hs
  | step u a =>
    have hu : u ≠ t := fun heq ↦ hlab a (heq ▸ rfl)
    simp only [Program.machine, State.step] at hs
    split at hs
    · rename_i p ht
      rcases State.advance_owner hs with heq | ⟨l', k, rfl, hfree, heq⟩ | ⟨l', k, rfl, heq⟩
      · exact heq ▸ howner
      · have hl : l ≠ l' := by
          rintro rfl
          rw [hfree] at howner
          cases howner
        rw [heq, Function.update_of_ne hl]
        exact howner
      · obtain ⟨held, hheld, hp⟩ := KeepsGuard.of_reachable hP h u _ ht
        have hl : l ≠ l' := by
          rintro rfl
          exact hu (Option.some.inj ((hheld l hp.1).symm.trans howner))
        rw [heq, Function.update_of_ne hl]
        exact howner
    · cases hs

theorem step_mem {lab : Label T A σ} (hs : P.machine.step s lab = some s') : s'.mem = s.mem ∨
    ∃ t a i k r, lab = .step t a ∧ s.threads t = .running (.call (.mem i) k) ∧
      P.exec i a s.mem = some (r, s'.mem) := by
  cases lab with
  | call t pt =>
    simp only [Program.machine, State.step] at hs
    split at hs
    · split_ifs at hs
      cases hs
      exact .inl rfl
    · cases hs
  | step t a =>
    simp only [Program.machine, State.step] at hs
    split at hs
    · rename_i p ht
      rcases State.advance_mem hs with heq | ⟨i, k, r, rfl, he⟩
      · exact .inl heq
      · exact .inr ⟨t, a, i, k, r, rfl, ht, he⟩
    · cases hs

section Data

variable {γ : Type} {f : M → γ} {l : L}

/-- What only the work under a lock changes is changed by the owner of the lock alone. -/
theorem Guarding.changes (hP : Guarding guard P)
    (hframe : ∀ i a m r m', P.exec i a m = some (r, m') → f m' = f m ∨ guard i = some l)
    (h : P.machine.Reachable s) {lab : Label T A σ} (hs : P.machine.step s lab = some s') :
    f s'.mem = f s.mem ∨ ∃ t a, lab = .step t a ∧ s.owner l = some t := by
  rcases step_mem hs with heq | ⟨t, a, i, k, r, rfl, ht, he⟩
  · exact .inl (congrArg f heq)
  · rcases hframe i a _ r _ he with heq | hi
    · exact .inl heq
    · exact .inr ⟨t, a, rfl, hP.owns h ht hi⟩

/-- As long as the owner of the lock takes no step, the others leave it the
lock and what the lock guards. -/
theorem Guarding.stable (hP : Guarding guard P)
    (hframe : ∀ i a m r m', P.exec i a m = some (r, m') → f m' = f m ∨ guard i = some l)
    (h : P.machine.Reachable s) (howner : s.owner l = some t)
    (hr : (P.machine.restart s).Reach (fun _ lab ↦ ∀ a, lab ≠ .step t a) s') :
    s'.owner l = some t ∧ f s'.mem = f s.mem := by
  induction hr with
  | start => exact ⟨howner, rfl⟩
  | step hr hlab hs ih =>
    obtain ⟨howner, hsame⟩ := ih
    have hreach := h.restart hr
    refine ⟨hP.owner_aside hreach hs howner hlab, ?_⟩
    rcases hP.changes hframe hreach hs with heq | ⟨u, a, rfl, hu⟩
    · exact heq.trans hsame
    · cases howner.symm.trans hu
      exact absurd rfl (hlab a)

end Data

end Owners

end EmpowerAgent.Library.Locks
