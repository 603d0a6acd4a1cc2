import Mathlib.Data.List.Nodup
import Mathlib.Tactic.Common

namespace EmpowerAgent.Library.Keyed

variable {α κ : Type} [DecidableEq κ] (key : α → κ)

/-- Take out the first element with a key, if there is one. -/
def eraseKey (k : κ) (l : List α) : List α := l.eraseP (key · == k)

def eraseKeys (ks : List κ) (l : List α) : List α := ks.foldl (fun l k ↦ eraseKey key k l) l

variable {key}

theorem map_eraseKey (k : κ) (l : List α) : (eraseKey key k l).map key = (l.map key).erase k := by
  rw [List.erase_eq_eraseP', List.eraseP_map]
  rfl

theorem eraseKey_append_of_mem {k : κ} {new : List α} (h : k ∈ new.map key) (old : List α) :
    eraseKey key k (new ++ old) = eraseKey key k new ++ old := by
  obtain ⟨a, ha, hk⟩ := List.mem_map.mp h
  exact List.eraseP_append_left (p := (key · == k)) (beq_iff_eq.mpr hk) _ ha

theorem eraseKeys_append {new : List α} {ks : List κ} (hks : (new.map key).Perm ks)
    (old : List α) : eraseKeys key ks (new ++ old) = old := by
  induction ks generalizing new with
  | nil =>
    have hnil : new = [] := List.map_eq_nil_iff.mp hks.eq_nil
    rw [hnil]
    rfl
  | cons k ks ih =>
    have hk : k ∈ new.map key := hks.mem_iff.mpr (List.mem_cons_self ..)
    have hrest : ((eraseKey key k new).map key).Perm ks := by
      rw [map_eraseKey]
      simpa using hks.erase k
    rw [eraseKeys, List.foldl_cons, eraseKey_append_of_mem hk]
    exact ih hrest

theorem eraseKeys_sublist (ks : List κ) (l : List α) : (eraseKeys key ks l).Sublist l := by
  induction ks generalizing l with
  | nil => exact List.Sublist.refl l
  | cons k ks ih => exact (ih (eraseKey key k l)).trans List.eraseP_sublist

theorem eraseKeys_length_lt {ks : List κ} {l : List α} {a : α} (ha : a ∈ l) (hk : key a ∈ ks) :
    (eraseKeys key ks l).length < l.length := by
  induction ks generalizing l with
  | nil => cases hk
  | cons k ks ih =>
    by_cases hkey : ∃ b ∈ l, (key b == k) = true
    · obtain ⟨b, hb, hkey⟩ := hkey
      have hlen : (eraseKey key k l).length = l.length - 1 := List.length_eraseP_of_mem hb hkey
      have hpos : 0 < l.length := List.length_pos_of_mem hb
      have hle : (eraseKeys key ks (eraseKey key k l)).length ≤ (eraseKey key k l).length :=
        (eraseKeys_sublist ks _).length_le
      rw [eraseKeys, List.foldl_cons, ← eraseKeys]
      omega
    · have hnone : ∀ b ∈ l, ¬ (key b == k) = true := fun b hb h ↦ hkey ⟨b, hb, h⟩
      have hne : key a ≠ k := by simpa using hnone a ha
      rw [eraseKeys, List.foldl_cons, ← eraseKeys, eraseKey, List.eraseP_of_forall_not hnone]
      exact ih ha ((List.mem_cons.mp hk).resolve_left hne)

/-- Taking out the first element with a key takes out all of them where there
is at most one. -/
theorem eraseKey_eq_filter_iff (k : κ) (l : List α) :
    eraseKey key k l = l.filter (fun a ↦ key a ≠ k) ↔ (l.map key).count k ≤ 1 := by
  constructor
  · intro h
    have hcount := congrArg (fun l ↦ (l.map key).count k) h
    have hnone : ((l.filter fun a ↦ key a ≠ k).map key).count k = 0 := by
      refine List.count_eq_zero.mpr fun hmem ↦ ?_
      obtain ⟨a, ha, hk⟩ := List.mem_map.mp hmem
      simpa [hk] using (List.mem_filter.mp ha).2
    rw [map_eraseKey, List.count_erase_self, hnone] at hcount
    omega
  · intro h
    induction l with
    | nil => rfl
    | cons a l ih =>
      rw [List.map_cons, List.count_cons] at h
      by_cases hk : key a = k
      · have hrest : (l.map key).count k = 0 := by
          simp only [hk, beq_self_eq_true, if_true] at h
          omega
        have hkeep : l.filter (fun a ↦ key a ≠ k) = l := by
          refine List.filter_eq_self.mpr fun b hb ↦ ?_
          have hne : key b ≠ k := fun heq ↦
            List.count_eq_zero.mp hrest (List.mem_map.mpr ⟨b, hb, heq⟩)
          simpa using hne
        rw [eraseKey, List.eraseP_cons_of_pos (by simpa using hk),
          List.filter_cons_of_neg (by simpa using hk), hkeep]
      · have hrest : eraseKey key k l = l.filter (fun a ↦ key a ≠ k) := ih (by omega)
        rw [eraseKey, List.eraseP_cons_of_neg (by simpa using hk),
          List.filter_cons_of_pos (by simpa using hk), ← eraseKey, hrest]

section Unique

variable {l : List α}

theorem not_mem_eraseKey (h : (l.map key).Nodup) (k : κ) : k ∉ (eraseKey key k l).map key := by
  rw [map_eraseKey]
  exact h.not_mem_erase

theorem find_of_nodup (h : (l.map key).Nodup) {a : α} (ha : a ∈ l) :
    l.find? (fun b ↦ key b = key a) = some a := by
  cases hf : l.find? (fun b ↦ key b = key a) with
  | none => simpa using List.find?_eq_none.mp hf a ha
  | some b =>
    have hkey : key b = key a := by simpa using List.find?_some hf
    rw [List.inj_on_of_nodup_map h (List.mem_of_find?_eq_some hf) ha hkey]

end Unique

section Groups

variable {β : Type}

/-- What was recorded under a key. -/
def recorded (k : κ) (l : List (κ × β)) : List β := (l.filter (·.1 = k)).map Prod.snd

theorem recorded_append (k : κ) (l l' : List (κ × β)) :
    recorded k (l ++ l') = recorded k l ++ recorded k l' := by
  simp only [recorded, List.filter_append, List.map_append]

theorem mem_of_recorded {k : κ} {b : β} {l : List (κ × β)} (h : b ∈ recorded k l) : (k, b) ∈ l := by
  obtain ⟨e, he, rfl⟩ := List.mem_map.mp h
  obtain ⟨hmem, hkey⟩ := List.mem_filter.mp he
  exact of_decide_eq_true hkey ▸ hmem

theorem recorded_of_not_mem {k : κ} {l : List (κ × β)} (h : k ∉ l.map Prod.fst) :
    recorded k l = [] := by
  simp only [recorded, List.map_eq_nil_iff, List.filter_eq_nil_iff, decide_eq_true_eq]
  exact fun e he hk ↦ h (hk ▸ List.mem_map_of_mem he)

theorem recorded_filter {k : κ} {ks : List κ} (h : k ∈ ks) (l : List (κ × β)) :
    recorded k (l.filter fun e ↦ e.1 ∈ ks) = recorded k l := by
  rw [recorded, recorded, List.filter_filter]
  refine congrArg _ (List.filter_congr fun e _ ↦ ?_)
  by_cases he : e.1 = k <;> simp [he, h]

theorem perm_recorded {ks : List κ} (hks : ks.Nodup) {l : List (κ × β)}
    (h : ∀ e ∈ l, e.1 ∈ ks) : (l.map Prod.snd).Perm (ks.flatMap fun k ↦ recorded k l) := by
  induction ks generalizing l with
  | nil =>
    have hnil : l = [] := List.eq_nil_iff_forall_not_mem.mpr fun e he ↦ List.not_mem_nil (h e he)
    rw [hnil]
    exact .refl _
  | cons k ks ih =>
    obtain ⟨hk, hks⟩ := List.nodup_cons.mp hks
    have hrest : ∀ e ∈ l.filter (fun e ↦ !decide (e.1 = k)), e.1 ∈ ks := by
      intro e he
      obtain ⟨he, hne⟩ := List.mem_filter.mp he
      have hne : e.1 ≠ k := by simpa using hne
      exact (List.mem_cons.mp (h e he)).resolve_left hne
    have hsame : (ks.flatMap fun k' ↦ recorded k' (l.filter fun e ↦ !decide (e.1 = k))) =
        ks.flatMap fun k' ↦ recorded k' l := by
      refine List.flatMap_congr fun k' hk' ↦ ?_
      have hne : k' ≠ k := fun heq ↦ hk (heq ▸ hk')
      rw [recorded, recorded, List.filter_filter]
      refine congrArg _ (List.filter_congr fun e _ ↦ ?_)
      by_cases he : e.1 = k' <;> simp [he, hne]
    have hsplit := (List.filter_append_perm (fun e : κ × β ↦ decide (e.1 = k)) l).symm.map Prod.snd
    rw [List.map_append] at hsplit
    refine hsplit.trans ((ih hks hrest).append_left _ |>.trans ?_)
    rw [hsame]
    exact .refl _

end Groups

end EmpowerAgent.Library.Keyed
