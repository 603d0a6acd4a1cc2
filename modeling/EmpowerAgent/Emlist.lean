import EmpowerAgent.Library.Ring

namespace EmpowerAgent

open Library (Nodes)

/-- `LIST_POISON1` and `LIST_POISON2`. -/
class ListPoison (α : Type) where
  listPoison1 : α
  listPoison2 : α

namespace Emlist

-- a load or a store through a pointer to no node is a page fault, here `none`

open ListPoison

variable {α : Type} [DecidableEq α] (m : Nodes α)

def initListHead (list : α) : Option (Nodes α) := do
  let m ← m.setNext list list
  m.setPrev list list

/-- `__list_add`. -/
def listAddBetween (new prev next : α) : Option (Nodes α) := do
  let m ← m.setPrev next new
  let m ← m.setNext new next
  let m ← m.setPrev new prev
  m.setNext prev new

def listAdd (new head : α) : Option (Nodes α) := do
  listAddBetween m new head (← m.next head)

def listAddTail (new head : α) : Option (Nodes α) := do
  listAddBetween m new (← m.prev head) head

/-- `__list_del`. -/
def listDelBetween (prev next : α) : Option (Nodes α) := do
  let m ← m.setPrev next prev
  m.setNext prev next

/-- `__list_del_entry`. -/
def listDelEntry (entry : α) : Option (Nodes α) := do
  listDelBetween m (← m.prev entry) (← m.next entry)

def listDel [ListPoison α] (entry : α) : Option (Nodes α) := do
  let m ← listDelEntry m entry
  let m ← m.setNext entry listPoison1
  m.setPrev entry listPoison2

def listEmpty (head : α) : Option Bool := do
  return (← m.next head) == head

def listFirstEntry (ptr : α) : Option α := m.next ptr

section Loops

variable {σ β : Type} (mem : σ → Nodes α) (head : α) (body : α → σ → Option (Option β × σ))

/-- The loop of `list_for_each_entry`, whose body may leave it with a result.
The walk is given a number of steps, so that one without end has no result. -/
def forEachEntryFrom : ℕ → α → σ → Option (Option β × σ)
  | 0, _, _ => none
  | n + 1, pos, s =>
    if pos = head then some (none, s)
    else do
      match ← body pos s with
      | (some b, s) => return (some b, s)
      | (none, s) => forEachEntryFrom n (← (mem s).next pos) s

def listForEachEntry (n : ℕ) (s : σ) : Option (Option β × σ) := do
  forEachEntryFrom mem head body n (← (mem s).next head) s

/-- The loop of `list_for_each_entry_safe`: the entry after the current one,
`tmp`, is read before the body is run. -/
def forEachEntrySafeFrom : ℕ → α → α → σ → Option (Option β × σ)
  | 0, _, _, _ => none
  | n + 1, pos, tmp, s =>
    if pos = head then some (none, s)
    else do
      match ← body pos s with
      | (some b, s) => return (some b, s)
      | (none, s) => forEachEntrySafeFrom n tmp (← (mem s).next tmp) s

def listForEachEntrySafe (n : ℕ) (s : σ) : Option (Option β × σ) := do
  let pos ← (mem s).next head
  forEachEntrySafeFrom mem head body n pos (← (mem s).next pos) s

end Loops

section Changes

variable {m : Nodes α} {h new x prev next : α} {xs ys zs : List α}

theorem initListHead_alloc (v : α) : initListHead (m.alloc x v) x = some (m.alloc x x) := by
  have hx := Nodes.has_alloc (m := m) x v
  simp only [initListHead, Nodes.setNext_of_has hx, Option.bind_eq_bind, Option.bind_some,
    Nodes.setPrev_of_has (hx.update_next x x)]
  simp only [Nodes.alloc, Function.update_idem]

theorem listAddBetween_of_has (hnew : m.Has new) (hprev : m.Has prev) (hnext : m.Has next) :
    listAddBetween m new prev next = some ((m.link new next).link prev new) := by
  have hnew' := hnew.update_prev next new
  have hprev' := ((hprev.update_prev next new).update_next new next).update_prev new prev
  simp only [listAddBetween, Option.bind_eq_bind, Option.bind_some, Nodes.setPrev_of_has hnext,
    Nodes.setNext_of_has hnew', Nodes.setPrev_of_has (hnew'.update_next new next),
    Nodes.setNext_of_has hprev', Nodes.link]

theorem listDelBetween_of_has (hprev : m.Has prev) (hnext : m.Has next) :
    listDelBetween m prev next = some (m.link prev next) := by
  simp only [listDelBetween, Option.bind_eq_bind, Option.bind_some, Nodes.setPrev_of_has hnext,
    Nodes.setNext_of_has (hprev.update_prev next prev), Nodes.link]

theorem listAddBetween_spec (hr : m.Ring h (ys ++ zs)) (hhas : m.Has new)
    (hnew : new ∉ h :: (ys ++ zs)) :
    ∃ m', listAddBetween m new (ys.getLastD h) (zs.headD h) = some m' ∧
      m'.Ring h (ys ++ new :: zs) ∧ m.Within m' (new :: h :: (ys ++ zs)) := by
  have hprev : ys.getLastD h ∈ h :: (ys ++ zs) := by
    rw [← List.cons_append]
    exact List.mem_append_left _ (Nodes.last_mem h ys)
  have hnext : zs.headD h ∈ h :: (ys ++ zs) := by
    have hmem := Nodes.first_mem h zs
    rw [List.mem_cons] at hmem ⊢
    exact hmem.imp_right (List.mem_append_right _)
  refine ⟨_, listAddBetween_of_has hhas (hr.has hprev) (hr.has hnext), hr.insert hnew, ?_⟩
  refine .trans (Nodes.within_link ?_ ?_) (Nodes.within_link ?_ ?_)
  · exact List.mem_cons_self ..
  · exact List.mem_cons_of_mem _ hnext
  · exact List.mem_cons_of_mem _ hprev
  · exact List.mem_cons_self ..

theorem listAdd_spec (hr : m.Ring h xs) (hhas : m.Has new) (hnew : new ∉ h :: xs) :
    ∃ m', listAdd m new h = some m' ∧ m'.Ring h (new :: xs) ∧ m.Within m' (new :: h :: xs) := by
  have hr' : m.Ring h ([] ++ xs) := hr
  obtain ⟨m', hadd, hspec⟩ := listAddBetween_spec hr' hhas hnew
  refine ⟨m', ?_, hspec⟩
  rw [listAdd, hr.next_head]
  exact hadd

theorem listAddTail_spec (hr : m.Ring h xs) (hhas : m.Has new) (hnew : new ∉ h :: xs) :
    ∃ m', listAddTail m new h = some m' ∧ m'.Ring h (xs ++ [new]) ∧
      m.Within m' (new :: h :: xs) := by
  have hr' : m.Ring h (xs ++ []) := (List.append_nil xs).symm ▸ hr
  obtain ⟨m', hadd, hring, hw⟩ := listAddBetween_spec hr' hhas (by simpa using hnew)
  rw [List.append_nil] at hw
  refine ⟨m', ?_, hring, hw⟩
  rw [listAddTail, hr.prev_head]
  exact hadd

theorem listDelEntry_spec (hr : m.Ring h (ys ++ x :: zs)) :
    ∃ m', listDelEntry m x = some m' ∧ m'.Ring h (ys ++ zs) ∧
      m.Within m' (h :: (ys ++ x :: zs)) := by
  have hprev : ys.getLastD h ∈ h :: (ys ++ x :: zs) := by
    rw [← List.cons_append]
    exact List.mem_append_left _ (Nodes.last_mem h ys)
  have hnext : zs.headD h ∈ h :: (ys ++ x :: zs) := by
    have hmem := Nodes.first_mem h zs
    rw [List.mem_cons] at hmem ⊢
    exact hmem.imp_right fun hz ↦ List.mem_append_right _ (List.mem_cons_of_mem _ hz)
  refine ⟨_, ?_, hr.remove, Nodes.within_link hprev hnext⟩
  simp only [listDelEntry, hr.prev_mem, hr.next_mem, Option.bind_eq_bind, Option.bind_some]
  exact listDelBetween_of_has (hr.has hprev) (hr.has hnext)

theorem listDel_spec [ListPoison α] (hr : m.Ring h (ys ++ x :: zs)) :
    ∃ m', listDel m x = some m' ∧ m'.Ring h (ys ++ zs) ∧ m.Within m' (h :: (ys ++ x :: zs)) ∧
      m'.next x = some listPoison1 ∧ m'.prev x = some listPoison2 := by
  have hx : x ∈ h :: (ys ++ x :: zs) := by simp
  obtain ⟨m₁, hdel, hring, hw⟩ := listDelEntry_spec hr
  have hhas := hw.has x (hr.has hx)
  have hoff : x ∉ h :: (ys ++ zs) := by
    have hperm : List.Perm (h :: (ys ++ x :: zs)) (x :: h :: (ys ++ zs)) :=
      (List.perm_middle.cons h).trans (.swap ..)
    exact (List.nodup_cons.mp (hperm.nodup_iff.mp hr.nodup)).1
  refine ⟨⟨Function.update m₁.next x (some listPoison1), Function.update m₁.prev x
    (some listPoison2)⟩, ?_, ?_, ⟨?_, ?_, ?_⟩, by simp, by simp⟩
  · simp only [listDel, hdel, Option.bind_eq_bind, Option.bind_some, Nodes.setNext_of_has hhas,
      Nodes.setPrev_of_has (hhas.update_next x _)]
  · exact hring.frame (fun a ha ↦ Function.update_of_ne (ne_of_mem_of_not_mem ha hoff) ..)
      fun a ha ↦ Function.update_of_ne (ne_of_mem_of_not_mem ha hoff) ..
  · intro a ha
    have hne : a ≠ x := (ne_of_mem_of_not_mem hx ha).symm
    exact (Function.update_of_ne hne ..).trans (hw.next a ha)
  · intro a ha
    have hne : a ≠ x := (ne_of_mem_of_not_mem hx ha).symm
    exact (Function.update_of_ne hne ..).trans (hw.prev a ha)
  · exact fun a ha ↦ ((hw.has a ha).update_next x _).update_prev x _

theorem listEmpty_spec (hr : m.Ring h xs) : listEmpty m h = some xs.isEmpty := by
  simp only [listEmpty, hr.next_head, Option.bind_eq_bind, Option.bind_some]
  cases xs with
  | nil => simp
  | cons x xs =>
    have hne : x ≠ h := fun heq ↦ (List.nodup_cons.mp hr.nodup).1 (heq ▸ List.mem_cons_self ..)
    simp [hne]

omit [DecidableEq α] in
theorem listFirstEntry_spec (hr : m.Ring h (x :: xs)) : listFirstEntry m h = some x :=
  hr.next_head

end Changes

section Walks

variable {σ β : Type} {mem : σ → Nodes α} {h : α} {body : α → σ → Option (Option β × σ)}
  {xs ys zs : List α} {s : σ} {n : ℕ}

/-- What a search by a loop finds: the body leaves it at the first entry that
meets `p`, and does nothing before. -/
structure Searches (body : α → σ → Option (Option β × σ)) (p : α → Bool) (xs : List α) (s : σ) :
    Prop where
  pass : ∀ x ∈ xs, p x = false → body x s = some (none, s)
  leave : ∀ x ∈ xs, p x = true → ∃ b s', body x s = some (some b, s')

def searched (body : α → σ → Option (Option β × σ)) (s : σ) :
    Option α → Option (Option β × σ)
  | none => some (none, s)
  | some x => body x s

variable {p : α → Bool}

omit [DecidableEq α] in
theorem Searches.tail {x : α} (h : Searches body p (x :: xs) s) : Searches body p xs s :=
  ⟨fun y hy ↦ h.pass y (List.mem_cons_of_mem x hy),
    fun y hy ↦ h.leave y (List.mem_cons_of_mem x hy)⟩

theorem forEachEntryFrom_step {x : α} (hne : x ≠ h) : forEachEntryFrom mem h body (n + 1) x s =
    (body x s).bind fun r ↦ match r with
      | (some b, s) => some (some b, s)
      | (none, s) => ((mem s).next x).bind fun pos ↦ forEachEntryFrom mem h body n pos s :=
  if_neg hne

theorem forEachEntrySafeFrom_step {x tmp : α} (hne : x ≠ h) :
    forEachEntrySafeFrom mem h body (n + 1) x tmp s = (body x s).bind fun r ↦ match r with
      | (some b, s) => some (some b, s)
      | (none, s) => ((mem s).next tmp).bind fun tmp' ↦
          forEachEntrySafeFrom mem h body n tmp tmp' s :=
  if_neg hne

omit [DecidableEq α] in
theorem ne_head {m : Nodes α} {x : α} (hr : m.Ring h (ys ++ x :: zs)) : x ≠ h :=
  fun heq ↦ (List.nodup_cons.mp hr.nodup).1 (heq ▸ by simp)

theorem forEachEntryFrom_find (hr : (mem s).Ring h (ys ++ zs)) (hs : Searches body p zs s)
    (hn : zs.length < n) :
    forEachEntryFrom mem h body n (zs.headD h) s = searched body s (zs.find? p) := by
  induction zs generalizing ys n with
  | nil =>
    obtain ⟨n, rfl⟩ : ∃ k, n = k + 1 := ⟨n - 1, by simp at hn; omega⟩
    simp [forEachEntryFrom, searched]
  | cons x zs ih =>
    obtain ⟨n, rfl⟩ : ∃ k, n = k + 1 := ⟨n - 1, by omega⟩
    have hr' : (mem s).Ring h ((ys ++ [x]) ++ zs) := by simpa using hr
    rw [List.headD_cons, forEachEntryFrom_step (ne_head hr), List.find?_cons]
    cases hp : p x with
    | true =>
      obtain ⟨b, s', hbody⟩ := hs.leave x (List.mem_cons_self ..) hp
      simp [searched, hbody]
    | false =>
      simp only [hs.pass x (List.mem_cons_self ..) hp, Option.bind_some, hr.next_mem]
      exact ih hr' hs.tail (by simpa using hn)

/-- A loop over a ring visits its entries in order until it is left. -/
theorem listForEachEntry_find (hr : (mem s).Ring h xs) (hs : Searches body p xs s)
    (hn : xs.length < n) :
    listForEachEntry mem h body n s = searched body s (xs.find? p) := by
  simp only [listForEachEntry, hr.next_head, Option.bind_eq_bind, Option.bind_some]
  exact forEachEntryFrom_find (show (mem s).Ring h ([] ++ xs) from hr) hs hn

theorem forEachEntrySafeFrom_find {tmp : α} (hr : (mem s).Ring h (ys ++ zs))
    (hs : Searches body p zs s) (htmp : zs ≠ [] → tmp = zs.tail.headD h) (hn : zs.length < n) :
    forEachEntrySafeFrom mem h body n (zs.headD h) tmp s = searched body s (zs.find? p) := by
  induction zs generalizing ys n tmp with
  | nil =>
    obtain ⟨n, rfl⟩ : ∃ k, n = k + 1 := ⟨n - 1, by simp at hn; omega⟩
    simp [forEachEntrySafeFrom, searched]
  | cons x zs ih =>
    obtain ⟨n, rfl⟩ : ∃ k, n = k + 1 := ⟨n - 1, by omega⟩
    have hr' : (mem s).Ring h ((ys ++ [x]) ++ zs) := by simpa using hr
    obtain rfl := htmp (by simp)
    obtain ⟨tmp, hnext, htmp⟩ := hr'.next_first
    rw [List.headD_cons, List.tail_cons, forEachEntrySafeFrom_step (ne_head hr), List.find?_cons]
    cases hp : p x with
    | true =>
      obtain ⟨b, s', hbody⟩ := hs.leave x (List.mem_cons_self ..) hp
      simp [searched, hbody]
    | false =>
      simp only [hs.pass x (List.mem_cons_self ..) hp, Option.bind_some, hnext]
      exact ih hr' hs.tail htmp (by simpa using hn)

theorem listForEachEntrySafe_find (hr : (mem s).Ring h xs) (hs : Searches body p xs s)
    (hn : xs.length < n) :
    listForEachEntrySafe mem h body n s = searched body s (xs.find? p) := by
  have hr' : (mem s).Ring h ([] ++ xs) := hr
  obtain ⟨tmp, hnext, htmp⟩ := hr'.next_first
  simp only [listForEachEntrySafe, hr.next_head, Option.bind_eq_bind, Option.bind_some, hnext]
  exact forEachEntrySafeFrom_find hr' hs htmp hn

variable {I : List α → σ → Prop}

theorem forEachEntrySafeFrom_drain {tmp : α} (hring : ∀ xs s, I xs s → (mem s).Ring h xs)
    (hbody : ∀ x xs s, I (x :: xs) s → ∃ s', body x s = some (none, s') ∧ I xs s')
    (hI : I xs s) (htmp : xs ≠ [] → tmp = xs.tail.headD h) (hn : xs.length < n) :
    ∃ s', forEachEntrySafeFrom mem h body n (xs.headD h) tmp s = some (none, s') ∧ I [] s' := by
  induction xs generalizing s n tmp with
  | nil =>
    obtain ⟨n, rfl⟩ : ∃ k, n = k + 1 := ⟨n - 1, by simp at hn; omega⟩
    exact ⟨s, by simp [forEachEntrySafeFrom], hI⟩
  | cons x xs ih =>
    obtain ⟨n, rfl⟩ : ∃ k, n = k + 1 := ⟨n - 1, by omega⟩
    have hr : (mem s).Ring h ([] ++ x :: xs) := hring _ s hI
    obtain rfl := htmp (by simp)
    obtain ⟨s₁, hstep, hI₁⟩ := hbody x xs s hI
    have hr₁ : (mem s₁).Ring h ([] ++ xs) := hring _ s₁ hI₁
    obtain ⟨tmp, hnext, htmp⟩ := hr₁.next_first
    obtain ⟨s', hloop, hI'⟩ := ih hI₁ htmp (by simpa using hn)
    refine ⟨s', ?_, hI'⟩
    rw [List.headD_cons, List.tail_cons, forEachEntrySafeFrom_step (ne_head hr)]
    simp only [hstep, Option.bind_some, hnext]
    exact hloop

/-- A safe loop whose body takes the current entry out of the ring, and leaves
the entries after it, runs until the ring is empty. -/
theorem listForEachEntrySafe_drain (hring : ∀ xs s, I xs s → (mem s).Ring h xs)
    (hbody : ∀ x xs s, I (x :: xs) s → ∃ s', body x s = some (none, s') ∧ I xs s')
    (hI : I xs s) (hn : xs.length < n) :
    ∃ s', listForEachEntrySafe mem h body n s = some (none, s') ∧ I [] s' := by
  have hr : (mem s).Ring h xs := hring _ s hI
  have hr' : (mem s).Ring h ([] ++ xs) := hr
  obtain ⟨tmp, hnext, htmp⟩ := hr'.next_first
  simp only [listForEachEntrySafe, hr.next_head, Option.bind_eq_bind, Option.bind_some, hnext]
  exact forEachEntrySafeFrom_drain hring hbody hI htmp hn

end Walks

end Emlist

end EmpowerAgent
