import Mathlib.Data.List.Chain
import Mathlib.Logic.Function.Basic
import Mathlib.Tactic.Common

namespace EmpowerAgent.Library

/-- A memory of nodes with two pointers each. Where no node is allocated there
are none, so that a load or a store fails there. -/
@[ext] structure Nodes (α : Type) where
  next : α → Option α
  prev : α → Option α

namespace Nodes

variable {α : Type} [DecidableEq α]

section Memory

variable (m : Nodes α)

def Has (a : α) : Prop := (m.next a).isSome = true ∧ (m.prev a).isSome = true

def setNext (a b : α) : Option (Nodes α) :=
  if (m.next a).isSome then some { m with next := Function.update m.next a (some b) } else none

def setPrev (a b : α) : Option (Nodes α) :=
  if (m.prev a).isSome then some { m with prev := Function.update m.prev a (some b) } else none

def alloc (a v : α) : Nodes α where
  next := Function.update m.next a (some v)
  prev := Function.update m.prev a (some v)

def free (a : α) : Nodes α where
  next := Function.update m.next a none
  prev := Function.update m.prev a none

/-- Make `b` follow `a`: the one edit that all changes of a list consist of. -/
def link (a b : α) : Nodes α where
  next := Function.update m.next a (some b)
  prev := Function.update m.prev b (some a)

def Linked (a b : α) : Prop := m.next a = some b ∧ m.prev b = some a

/-- The nodes `xs` stand between the head `h` and itself again, in this order,
each once. -/
structure Ring (h : α) (xs : List α) : Prop where
  nodup : (h :: xs).Nodup
  chain : (h :: xs ++ [h]).IsChain m.Linked

variable {m} {a b c : α}

theorem setNext_of_has (h : m.Has a) (b : α) :
    m.setNext a b = some { m with next := Function.update m.next a (some b) } := if_pos h.1

theorem setPrev_of_has (h : m.Has a) (b : α) :
    m.setPrev a b = some { m with prev := Function.update m.prev a (some b) } := if_pos h.2

theorem Has.update_next (h : m.Has c) (a b : α) :
    ({ m with next := Function.update m.next a (some b) } : Nodes α).Has c := by
  refine ⟨?_, h.2⟩
  by_cases hc : c = a
  · simp [hc]
  · simpa [Function.update_of_ne hc] using h.1

theorem Has.update_prev (h : m.Has c) (a b : α) :
    ({ m with prev := Function.update m.prev a (some b) } : Nodes α).Has c := by
  refine ⟨h.1, ?_⟩
  by_cases hc : c = a
  · simp [hc]
  · simpa [Function.update_of_ne hc] using h.2

theorem Has.link (h : m.Has c) (a b : α) : (m.link a b).Has c :=
  (h.update_next a b).update_prev b a

theorem Has.alloc (h : m.Has c) (a v : α) : (m.alloc a v).Has c :=
  (h.update_next a v).update_prev a v

theorem has_alloc (a v : α) : (m.alloc a v).Has a := by simp [Has, Nodes.alloc]

theorem Has.free (h : m.Has c) (hne : c ≠ a) : (m.free a).Has c := by
  simpa [Has, Nodes.free, Function.update_of_ne hne] using h

@[simp] theorem link_next (a b : α) : (m.link a b).next a = some b := by simp [Nodes.link]

@[simp] theorem link_prev (a b : α) : (m.link a b).prev b = some a := by simp [Nodes.link]

theorem link_next_of_ne (h : c ≠ a) : (m.link a b).next c = m.next c := by
  simp [Nodes.link, Function.update_of_ne h]

theorem link_prev_of_ne (h : c ≠ b) : (m.link a b).prev c = m.prev c := by
  simp [Nodes.link, Function.update_of_ne h]

end Memory

section Chains

variable {m m' : Nodes α} {a b c h : α} {l xs ys zs : List α}

omit [DecidableEq α] in
theorem chain_frame (hl : l.IsChain m.Linked) (hn : ∀ a ∈ l.dropLast, m'.next a = m.next a)
    (hp : ∀ b ∈ l.tail, m'.prev b = m.prev b) : l.IsChain m'.Linked := by
  induction l with
  | nil => exact .nil
  | cons a l ih =>
    cases l with
    | nil => exact .singleton a
    | cons b l =>
      obtain ⟨hab, hl⟩ := List.isChain_cons_cons.mp hl
      refine .cons_cons ⟨?_, ?_⟩ (ih hl ?_ ?_)
      · rw [hn a (by simp)]
        exact hab.1
      · rw [hp b (by simp)]
        exact hab.2
      · exact fun c hc ↦ hn c (by simp [hc])
      · exact fun c hc ↦ hp c (List.mem_of_mem_tail hc)

theorem chain_link_off (hl : l.IsChain m.Linked) (ha : a ∉ l.dropLast) (hb : b ∉ l.tail) :
    l.IsChain (m.link a b).Linked := by
  refine chain_frame hl (fun c hc ↦ link_next_of_ne ?_) fun c hc ↦ link_prev_of_ne ?_
  · exact fun heq ↦ ha (heq ▸ hc)
  · exact fun heq ↦ hb (heq ▸ hc)

omit [DecidableEq α] in
theorem exists_last (a : α) (l : List α) : ∃ l₁, a :: l = l₁ ++ [l.getLastD a] := by
  induction l generalizing a with
  | nil => exact ⟨[], rfl⟩
  | cons b l ih =>
    obtain ⟨l₁, heq⟩ := ih b
    exact ⟨a :: l₁, by rw [heq]; simp⟩

omit [DecidableEq α] in
theorem exists_first (l : List α) (a : α) : ∃ l₂, l ++ [a] = l.headD a :: l₂ := by
  cases l with
  | nil => exact ⟨[], rfl⟩
  | cons b l => exact ⟨l ++ [a], rfl⟩

omit [DecidableEq α] in
theorem last_mem (a : α) (l : List α) : l.getLastD a ∈ a :: l := by
  obtain ⟨l₁, heq⟩ := exists_last a l
  rw [heq]
  exact List.mem_append_right _ (List.mem_singleton_self _)

omit [DecidableEq α] in
theorem first_mem (a : α) (l : List α) : l.headD a ∈ a :: l := by cases l <;> simp

theorem chain_join (h₁ : (h :: ys).IsChain m.Linked) (h₂ : (b :: l).IsChain m.Linked)
    (hnodup : (h :: ys).Nodup) (hdisjoint : ∀ a ∈ h :: ys, a ∉ (b :: l).dropLast)
    (hys : b ∉ ys) (hb : b ∉ l) :
    (h :: ys ++ b :: l).IsChain (m.link (ys.getLastD h) b).Linked := by
  obtain ⟨l₁, heq⟩ := exists_last h ys
  have hlast := last_mem h ys
  have h₁' := chain_link_off (a := ys.getLastD h) (b := b) h₁ (by
    rw [heq, List.dropLast_concat]
    rw [heq] at hnodup
    exact fun hmem ↦ (List.nodup_append.mp hnodup).2.2 _ hmem _ (List.mem_singleton_self _) rfl) hys
  have h₂' := chain_link_off (a := ys.getLastD h) h₂ (hdisjoint _ hlast) hb
  rw [heq] at h₁' ⊢
  rw [List.append_assoc]
  exact List.isChain_append_cons_cons.mpr ⟨h₁', ⟨link_next _ b, link_prev _ b⟩, h₂'⟩

end Chains

section Rings

variable {m m' : Nodes α} {a b h x new : α} {l xs ys zs : List α}

omit [DecidableEq α] in
theorem Ring.cut (hr : m.Ring h (ys ++ zs)) :
    (h :: ys).IsChain m.Linked ∧ (zs ++ [h]).IsChain m.Linked ∧
      m.Linked (ys.getLastD h) (zs.headD h) := by
  obtain ⟨l₁, h₁⟩ := exists_last h ys
  obtain ⟨l₂, h₂⟩ := exists_first zs h
  have hchain := hr.chain
  rw [← List.cons_append, List.append_assoc, h₁, h₂, List.append_assoc, List.singleton_append,
    List.isChain_append_cons_cons] at hchain
  rw [h₁, h₂]
  exact ⟨hchain.1, hchain.2.2, hchain.2.1⟩

omit [DecidableEq α] in
theorem nodup_turned (hnodup : (h :: (ys ++ zs)).Nodup) : (zs ++ [h]).Nodup := by
  refine (List.Perm.nodup_iff (List.perm_append_singleton h zs)).mpr ?_
  exact hnodup.sublist ((List.sublist_append_right ys zs).cons_cons h)

omit [DecidableEq α] in
theorem first_notMem (hnodup : (h :: (ys ++ zs)).Nodup) : zs.headD h ∉ ys := by
  rw [List.nodup_cons, List.nodup_append] at hnodup
  obtain ⟨hh, _, _, hdisjoint⟩ := hnodup
  cases zs with
  | nil => exact fun hmem ↦ hh (List.mem_append_left _ hmem)
  | cons z zs => exact fun hmem ↦ hdisjoint z hmem z (List.mem_cons_self ..) rfl

theorem Ring.close (hnodup : (h :: (ys ++ zs)).Nodup) (h₁ : (h :: ys).IsChain m.Linked)
    (h₂ : (zs ++ [h]).IsChain m.Linked) :
    (m.link (ys.getLastD h) (zs.headD h)).Ring h (ys ++ zs) := by
  refine ⟨hnodup, ?_⟩
  have hturned := nodup_turned hnodup
  have hys := first_notMem hnodup
  obtain ⟨l₂, heq⟩ := exists_first zs h
  rw [← List.cons_append, List.append_assoc, heq]
  rw [← List.cons_append, List.nodup_append] at hnodup
  obtain ⟨hleft, _, hdisjoint⟩ := hnodup
  rw [heq] at h₂ hturned
  refine chain_join h₁ h₂ hleft ?_ hys (List.nodup_cons.mp hturned).1
  rw [← heq, List.dropLast_concat]
  exact fun a ha hmem ↦ hdisjoint a ha a hmem rfl

omit [DecidableEq α] in
theorem ring_nil : m.Ring h [] ↔ m.next h = some h ∧ m.prev h = some h := by
  refine ⟨fun hr ↦ (List.isChain_cons_cons.mp hr.chain).1, fun hl ↦ ⟨by simp, ?_⟩⟩
  exact .cons_cons hl (.singleton h)

omit [DecidableEq α] in
theorem Ring.next_head (hr : m.Ring h xs) : m.next h = some (xs.headD h) := by
  have hr' : m.Ring h ([] ++ xs) := hr
  exact hr'.cut.2.2.1

omit [DecidableEq α] in
theorem Ring.prev_head (hr : m.Ring h xs) : m.prev h = some (xs.getLastD h) := by
  have hr' : m.Ring h (xs ++ []) := (List.append_nil xs).symm ▸ hr
  exact hr'.cut.2.2.2

omit [DecidableEq α] in
theorem Ring.next_mem (hr : m.Ring h (ys ++ x :: zs)) : m.next x = some (zs.headD h) := by
  have hr' : m.Ring h ((ys ++ [x]) ++ zs) := by simpa using hr
  simpa using hr'.cut.2.2.1

omit [DecidableEq α] in
theorem Ring.next_first (hr : m.Ring h (ys ++ zs)) :
    ∃ b, m.next (zs.headD h) = some b ∧ (zs ≠ [] → b = zs.tail.headD h) := by
  cases zs with
  | nil => exact ⟨_, hr.next_head, by simp⟩
  | cons x zs => exact ⟨_, hr.next_mem, fun _ ↦ rfl⟩

omit [DecidableEq α] in
theorem Ring.prev_mem (hr : m.Ring h (ys ++ x :: zs)) : m.prev x = some (ys.getLastD h) :=
  hr.cut.2.2.2

omit [DecidableEq α] in
theorem Ring.has (hr : m.Ring h xs) (ha : a ∈ h :: xs) : m.Has a := by
  rcases List.mem_cons.mp ha with rfl | ha
  · exact ⟨by simp [hr.next_head], by simp [hr.prev_head]⟩
  · obtain ⟨ys, zs, rfl⟩ := List.append_of_mem ha
    exact ⟨by simp [hr.next_mem], by simp [hr.prev_mem]⟩

omit [DecidableEq α] in
theorem Ring.frame (hr : m.Ring h xs) (hn : ∀ a ∈ h :: xs, m'.next a = m.next a)
    (hp : ∀ a ∈ h :: xs, m'.prev a = m.prev a) : m'.Ring h xs := by
  refine ⟨hr.nodup, chain_frame hr.chain (fun a ha ↦ hn a ?_) fun a ha ↦ hp a ?_⟩
  · rwa [List.dropLast_concat] at ha
  · rcases List.mem_append.mp ha with ha | ha
    · exact List.mem_cons_of_mem _ ha
    · exact List.mem_singleton.mp ha ▸ List.mem_cons_self ..

/-- Whatever the second memory changes lies within `l`, and what the first one
has allocated it still has. -/
structure Within (m m' : Nodes α) (l : List α) : Prop where
  next : ∀ a ∉ l, m'.next a = m.next a
  prev : ∀ a ∉ l, m'.prev a = m.prev a
  has : ∀ a, m.Has a → m'.Has a

omit [DecidableEq α] in
theorem Ring.within (hr : m.Ring h xs) (hw : m.Within m' l) (happart : ∀ a ∈ h :: xs, a ∉ l) :
    m'.Ring h xs :=
  hr.frame (fun a ha ↦ hw.next a (happart a ha)) fun a ha ↦ hw.prev a (happart a ha)

omit [DecidableEq α] in
theorem Within.trans {m'' : Nodes α} (hw : m.Within m' l) (hw' : m'.Within m'' l) :
    m.Within m'' l where
  next a ha := (hw'.next a ha).trans (hw.next a ha)
  prev a ha := (hw'.prev a ha).trans (hw.prev a ha)
  has a ha := hw'.has a (hw.has a ha)

theorem within_link (ha : a ∈ l) (hb : b ∈ l) : m.Within (m.link a b) l where
  next _ hc := link_next_of_ne (ne_of_mem_of_not_mem ha hc).symm
  prev _ hc := link_prev_of_ne (ne_of_mem_of_not_mem hb hc).symm
  has _ hc := hc.link a b

theorem Ring.free_off (hr : m.Ring h xs) (ha : a ∉ h :: xs) : (m.free a).Ring h xs :=
  hr.frame (fun _ hc ↦ Function.update_of_ne (ne_of_mem_of_not_mem hc ha) ..)
    fun _ hc ↦ Function.update_of_ne (ne_of_mem_of_not_mem hc ha) ..

theorem Ring.alloc_off {v : α} (hr : m.Ring h xs) (ha : a ∉ h :: xs) : (m.alloc a v).Ring h xs :=
  hr.frame (fun _ hc ↦ Function.update_of_ne (ne_of_mem_of_not_mem hc ha) ..)
    fun _ hc ↦ Function.update_of_ne (ne_of_mem_of_not_mem hc ha) ..

theorem Ring.remove (hr : m.Ring h (ys ++ x :: zs)) :
    (m.link (ys.getLastD h) (zs.headD h)).Ring h (ys ++ zs) := by
  have hnodup : (h :: (ys ++ zs)).Nodup :=
    hr.nodup.sublist (((List.sublist_cons_self x zs).append_left ys).cons_cons h)
  exact Ring.close hnodup hr.cut.1 hr.cut.2.1.tail

theorem Ring.insert (hr : m.Ring h (ys ++ zs)) (hnew : new ∉ h :: (ys ++ zs)) :
    ((m.link new (zs.headD h)).link (ys.getLastD h) new).Ring h (ys ++ new :: zs) := by
  obtain ⟨h₁, h₂, _⟩ := hr.cut
  have hturned := nodup_turned hr.nodup
  obtain ⟨l₂, heq⟩ := exists_first zs h
  have hnodup : (h :: (ys ++ new :: zs)).Nodup := by
    have hperm : List.Perm (h :: (ys ++ new :: zs)) (new :: h :: (ys ++ zs)) :=
      (List.perm_middle.cons h).trans (.swap ..)
    exact hperm.nodup_iff.mpr (List.nodup_cons.mpr ⟨hnew, hr.nodup⟩)
  refine Ring.close hnodup ?_ ?_
  · refine chain_link_off h₁ (fun hmem ↦ hnew ?_) (first_notMem hr.nodup)
    rw [← List.cons_append]
    exact List.mem_append_left _ (List.dropLast_subset _ hmem)
  · rw [List.cons_append, heq]
    rw [heq] at h₂ hturned
    refine chain_join (.singleton new) h₂ (by simp) ?_ List.not_mem_nil
      (List.nodup_cons.mp hturned).1
    rw [← heq, List.dropLast_concat]
    rintro a ha hmem
    rw [List.mem_singleton.mp ha] at hmem
    exact hnew (List.mem_cons_of_mem _ (List.mem_append_right _ hmem))

end Rings

end Nodes

end EmpowerAgent.Library
