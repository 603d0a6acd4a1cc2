import EmpowerAgent.Sched

namespace EmpowerAgent

open Emproto

/-- The list of users that the wrapper gets: it ends within the array, and
each entry before its end is the one of the description. -/
structure ListsUsers (usersMax : ℕ) (det : RanSliceDet) (conf : RanConf) : Prop where
  nonneg : 0 ≤ conf.nofUsers
  bound : conf.nofUsers ≤ usersMax
  users : ∀ i : ℕ, (i : ℤ) < conf.nofUsers → conf.users[i]? = some (det.users i)

variable (usersMax : ℕ) (det : RanSliceDet)

theorem copyUsers_length (users : ℕ → UInt16) (n : ℕ) (conf : List UInt16) :
    (copyUsers users n conf).length = conf.length := by
  induction n with
  | zero => rfl
  | succ n ih => rw [copyUsers, List.length_set, ih]

theorem copyUsers_getElem? (users : ℕ → UInt16) (n : ℕ) (conf : List UInt16) (i : ℕ) :
    (copyUsers users n conf)[i]? =
      if i < n ∧ i < conf.length then some (users i) else conf[i]? := by
  induction n with
  | zero => simp [copyUsers]
  | succ n ih =>
    rw [copyUsers, List.getElem?_set, ih, copyUsers_length]
    by_cases hn : n = i
    · subst hn
      by_cases hi : n < conf.length
      · simp [hi]
      · simp [hi]
    · have hlt : i < n + 1 ↔ i < n := by omega
      simp only [hn, if_false, hlt]

theorem schedToRANconf_users (i : ℕ) :
    (schedToRANconf usersMax det (.zero usersMax)).users[i]? =
      if i < usersMax then some (if (i : ℤ) < det.nofUsers then det.users i else 0) else none := by
  simp only [schedToRANconf, RanConf.zero, copyUsers_getElem?, List.length_replicate]
  by_cases hi : i < usersMax
  · have hcopied : i < min det.nofUsers.toNat usersMax ↔ (i : ℤ) < det.nofUsers := by omega
    simp only [hcopied, hi, and_true, if_true, List.getElem?_replicate]
    split_ifs <;> rfl
  · simp [hi]

variable {usersMax det} in
theorem schedToRANconf_lists (h : 0 ≤ det.nofUsers ∧ det.nofUsers ≤ usersMax) :
    ListsUsers usersMax det (schedToRANconf usersMax det (.zero usersMax)) := by
  obtain ⟨hnonneg, hbound⟩ := h
  refine ⟨hnonneg, hbound, fun i hi ↦ ?_⟩
  have hi : (i : ℤ) < det.nofUsers := hi
  rw [schedToRANconf_users, if_pos (by omega), if_pos hi]

/-- The number of users is passed on as it comes, whatever has been copied. -/
theorem lists_users_iff :
    ListsUsers usersMax det (schedToRANconf usersMax det (.zero usersMax)) ↔
      0 ≤ det.nofUsers ∧ det.nofUsers ≤ usersMax :=
  ⟨fun h ↦ ⟨h.nonneg, h.bound⟩, schedToRANconf_lists⟩

theorem users_beyond_array : ¬ ∀ (usersMax : ℕ) (det : RanSliceDet),
    ListsUsers usersMax det (schedToRANconf usersMax det (.zero usersMax)) := by
  intro h
  have hbound := (h 4 ⟨5, fun _ ↦ 7, 0, 0⟩).bound
  revert hbound
  decide

section Calls

variable {S : Setup} {task : Emtask}

def Callback.conf : Callback → Option RanConf
  | .sliceAdd _ _ conf | .sliceConf _ _ conf => some conf
  | _ => none

def Setup.sliceDet (S : Setup) (task : Emtask) : Option RanSliceDet :=
  match S.proto.eppSingleOp task.bytes with
  | .add => some (S.proto.eppSingleRanSliceAdd task.bytes).out.2
  | .set => some (S.proto.eppSingleRanSliceSet task.bytes).out.2
  | _ => none

theorem ranSliceCall_call {α : Type} {defined : Bool} {req : Decoded α} {c : α → Callback}
    {d : Callback} {k : Unit → Proc Outcome}
    (h : ranSliceCall defined req c = .call (.callback d) k) : d = c req.out := by
  unfold ranSliceCall at h
  split_ifs at h
  cases h
  rfl

/-- Whatever `slice_add` and `slice_conf` are called with lists its users
exactly where the description has no more of them than fit. -/
theorem slice_call_lists_users {c : Callback} {k : Unit → Proc Outcome} {conf : RanConf}
    (h : schedPerformRanSlice S task = .call (.callback c) k) (hc : c.conf = some conf) :
    ∃ det, S.sliceDet task = some det ∧ (ListsUsers S.proto.epRanUsersMax det conf ↔
      0 ≤ det.nofUsers ∧ det.nofUsers ≤ S.proto.epRanUsersMax) := by
  unfold schedPerformRanSlice at h
  unfold Setup.sliceDet
  cases hop : S.proto.eppSingleOp task.bytes with
  | add | set =>
    rw [hop] at h
    rw [ranSliceCall_call h] at hc
    cases hc
    exact ⟨_, rfl, fun h ↦ ⟨h.nonneg, h.bound⟩, schedToRANconf_lists⟩
  | unspecified | rem =>
    rw [hop] at h
    rw [ranSliceCall_call h] at hc
    cases hc
  | other =>
    rw [hop] at h
    cases h

end Calls

end EmpowerAgent
