import EmpowerAgent.Start

namespace EmpowerAgent

def cString (bs : Bytes) : Option Bytes :=
  if 0 ∈ bs then some (bs.takeWhile (· ≠ 0)) else none

/-- How the fields that are not the address are to be stored when the agent is
ready: as a context that the network thread may start with. -/
def NetLayout.initial (L : NetLayout) (ctrlPort : UInt16) (p : ℕ) (net : Netctx) :
    NetField → Bytes
  | .addr => []
  | .port => L.short ctrlPort
  | .sockfd => L.int net.sockfd
  | .stop => L.int (if net.stop then 1 else 0)
  | .status => L.int (if net.status = .connected then 1 else 0)
  | .seq => L.int net.seq.toNat
  | .buf => List.replicate (L.size .buf) 0
  | .thread => L.thread p
  | .lock => L.spinlock
  | .interval => L.int Start.netWaitTime

structure Addressed (L : NetLayout) (ctrlAddr : CString) (ctrlPort : UInt16) (p : ℕ) (b : Block) :
    Prop where
  addr : cString (b.field L .addr) = some ctrlAddr.bytes
  others : ∀ f, f ≠ .addr → b.field L f = L.initial ctrlPort p Agent.start.w.net f

section Bytes

variable {L : NetLayout} {b : Block} {f g : NetField} {bs : Bytes}

theorem Block.field_getElem? (i : ℕ) : (b.field L f)[i]? =
    if i < L.size f then some (b.bytes (L.offset f + i)) else none := by
  rw [field, List.getElem?_map]
  split_ifs with hi
  · rw [List.getElem?_range hi, Option.map_some]
  · rw [List.getElem?_eq_none (by simpa using hi), Option.map_none]

theorem Block.field_store_start (h : bs.length ≤ L.size f) :
    (b.store L f bs).field L f = bs ++ (b.field L f).drop bs.length := by
  refine List.ext_getElem? fun i ↦ ?_
  rw [field_getElem?, List.getElem?_append, List.getElem?_drop, field_getElem?]
  simp only [store]
  by_cases hi : i < bs.length
  · have hin : L.offset f ≤ L.offset f + i ∧ L.offset f + i < L.offset f + bs.length := by omega
    have hsub : L.offset f + i - L.offset f = i := by omega
    rw [if_pos (by omega), if_pos hin, if_pos hi, hsub, List.getD_eq_getElem?_getD,
      List.getElem?_eq_getElem hi, Option.getD_some]
  · have hout : ¬ (L.offset f ≤ L.offset f + i ∧ L.offset f + i < L.offset f + bs.length) := by
      omega
    have hadd : bs.length + (i - bs.length) = i := by omega
    rw [if_neg hout, if_neg hi, hadd]

theorem Block.field_store_other (hne : f ≠ g) (h : bs.length ≤ L.size f) :
    (b.store L f bs).field L g = b.field L g := by
  refine List.map_congr_left fun i hi ↦ if_neg ?_
  have hi := List.mem_range.mp hi
  rcases L.apart f g hne with hle | hle <;> omega

theorem Block.field_store (h : bs.length = L.size f) (g : NetField) :
    (b.store L f bs).field L g = if f = g then bs else b.field L g := by
  split_ifs with hfg
  · subst hfg
    have hdrop : (b.field L f).drop bs.length = [] := by simp [field, h]
    rw [field_store_start (Nat.le_of_eq h), hdrop, List.append_nil]
  · exact field_store_other hfg (Nat.le_of_eq h)

theorem Block.field_clear : (b.clear L).field L f = List.replicate (L.size f) 0 := by
  refine List.eq_replicate_iff.mpr ⟨by simp [field], fun c hc ↦ ?_⟩
  obtain ⟨i, hi, rfl⟩ := List.mem_map.mp hc
  have hi := List.mem_range.mp hi
  have hwithin := L.within f
  exact if_pos (by omega)

theorem int_zero_eq (hf : f ∈ [NetField.sockfd, .stop, .status, .seq, .interval]) :
    L.int 0 = List.replicate (L.size f) 0 :=
  List.eq_replicate_iff.mpr ⟨L.int_length 0 f hf, L.int_zero⟩

end Bytes

section Addresses

variable {L : NetLayout} {ctrlAddr : CString} {ctrlPort : UInt16} {p : ℕ} {b : Block}

def Block.ready (L : NetLayout) (ctrlAddr : CString) (ctrlPort : UInt16) (p : ℕ) (b : Block) :
    Block :=
  ((b.addressed L ctrlAddr ctrlPort).netReady L).store L .thread (L.thread p)

theorem Block.addressed_inside :
    (b.addressed L ctrlAddr ctrlPort).inside = (b.inside && ctrlAddr.bytes.length ≤ 16) := by
  rw [addressed, store_inside (L.short_length _)]
  simp only [store, clear, L.addr_size]

theorem Block.ready_field (f : NetField) : (b.ready L ctrlAddr ctrlPort p).field L f =
    if f = .addr ∨ f = .stop ∨ f = .status ∨ f = .seq ∨ f = .buf then
      ((b.clear L).store L .addr ctrlAddr.bytes).field L f
    else L.initial ctrlPort p Agent.start.w.net f := by
  rw [ready, field_store (L.thread_length p), netReady, field_store L.spinlock_length,
    field_store (L.int_length _ .sockfd (by decide)),
    field_store (L.int_length _ .interval (by decide)), addressed, field_store (L.short_length _)]
  cases f <;> rfl

theorem Block.ready_addr (h : ctrlAddr.bytes.length ≤ 16) :
    (b.ready L ctrlAddr ctrlPort p).field L .addr =
      ctrlAddr.bytes ++ List.replicate (16 - ctrlAddr.bytes.length) 0 := by
  rw [ready_field, if_pos (.inl rfl), field_store_start (by rw [L.addr_size]; exact h),
    field_clear, List.drop_replicate, L.addr_size]

theorem Block.ready_others (h : ctrlAddr.bytes.length ≤ 16) {f : NetField} (hf : f ≠ .addr) :
    (b.ready L ctrlAddr ctrlPort p).field L f = L.initial ctrlPort p Agent.start.w.net f := by
  rw [ready_field]
  split_ifs with hclear
  · rw [field_store_other (Ne.symm hf) (by rw [L.addr_size]; exact h), field_clear]
    rcases hclear with rfl | rfl | rfl | rfl | rfl
    · exact absurd rfl hf
    · exact (int_zero_eq (by decide)).symm
    · exact (int_zero_eq (by decide)).symm
    · exact (int_zero_eq (by decide)).symm
    · rfl
  · rfl

theorem cString_padded {n : ℕ} : cString (ctrlAddr.bytes ++ List.replicate n 0) =
    if n = 0 then none else some ctrlAddr.bytes := by
  have hmem := ctrlAddr.noNull
  have hgoes : ∀ c ∈ ctrlAddr.bytes, decide (c ≠ 0) = true :=
    fun c hc ↦ decide_eq_true (ne_of_mem_of_not_mem hc hmem)
  unfold cString
  cases n with
  | zero => simp [hmem]
  | succ n =>
    rw [if_pos (by simp), if_neg (Nat.succ_ne_zero n), List.takeWhile_append_of_pos hgoes]
    simp [List.replicate_succ]

theorem Block.ready_addressed (h : ctrlAddr.bytes.length ≤ 15) :
    Addressed L ctrlAddr ctrlPort p (b.ready L ctrlAddr ctrlPort p) where
  addr := by
    rw [ready_addr (by omega), cString_padded, if_neg (by omega)]
  others f hf := ready_others (by omega) hf

end Addresses

/-- No byte is stored outside the field of the address, and `em_start` fails or
leaves an agent that has its address. -/
def AddressKept (L : NetLayout) (ctrlAddr : CString) (ctrlPort : UInt16) (x : ℤ) (h : Host) :
    Prop :=
  h.block.inside = true ∧
    (x < 0 ∨ ∃ p, h.ledger.allocated = [p] ∧ Addressed L ctrlAddr ctrlPort p h.block)

namespace Sample

def starts : List SysAns :=
  startsThread true ++ ticked 5 ++ [.ans (.ok true)] ++ ticked 2 ++
    [.calls [], .ans (.sent 0)] ++ ticked 3

end Sample

section Results

variable (L : NetLayout) (ctrlAddr : CString)

theorem exists_started (ctrlPort : UInt16) : ∃ h, (Start.emStart L 1 ctrlAddr ctrlPort).run
    (execStart (fun _ ↦ Sample.setup) L) Sample.starts Sample.host = some (0, h) := ⟨_, rfl⟩

/-- The address is copied as long as it is, so that it has its place only with
its null byte: the copy is exact, and within its field, for up to 15 bytes. -/
theorem address_kept_iff : (∀ (S : ℕ → Setup) (enbId : UInt64) (ctrlPort : UInt16) (m : Memory)
    (bytes : ℕ → UInt8) (as : List SysAns) (x : ℤ) (h : Host),
      (Start.emStart L enbId ctrlAddr ctrlPort).run (execStart S L) as ⟨m, .empty, ⟨bytes, true⟩⟩ =
        some (x, h) → AddressKept L ctrlAddr ctrlPort x h) ↔ ctrlAddr.bytes.length ≤ 15 := by
  constructor
  · intro hkept
    obtain ⟨h, hr⟩ := exists_started L ctrlAddr 0
    obtain ⟨hinside, hneg | ⟨p, hp, haddr⟩⟩ := hkept _ _ _ _ _ _ _ _ hr
    · cases hneg
    · cases emStart_leads rfl _ _ _ (fun _ _ ↦ trivial) hr with
      | failed _ _ hneg => cases hneg
      | started q _ _ hblock =>
        have hfield := haddr.addr
        rw [hblock] at hinside hfield
        rw [Block.store_inside (L.thread_length q), Block.netReady_inside, Block.addressed_inside]
          at hinside
        obtain ⟨_, hfits⟩ := Bool.and_eq_true_iff.mp hinside
        have hfits : ctrlAddr.bytes.length ≤ 16 := of_decide_eq_true hfits
        by_contra hlong
        -- all of the field is taken, and the string does not end in it
        have hfull : 16 - ctrlAddr.bytes.length = 0 := by omega
        rw [← Block.ready, Block.ready_addr hfits, cString_padded, if_pos hfull] at hfield
        cases hfield
  · intro hlen S enbId ctrlPort m bytes as x h hr
    have hinside : ((⟨bytes, true⟩ : Block).addressed L ctrlAddr ctrlPort).inside = true := by
      rw [Block.addressed_inside]
      simpa using Nat.le_succ_of_le hlen
    cases emStart_leads rfl _ _ _ (fun _ _ ↦ trivial) hr with
    | refused _ _ hblock =>
      refine ⟨?_, .inl (by decide)⟩
      rw [hblock]
    | failed _ _ hneg _ _ hblock => exact ⟨hblock.trans hinside, .inl hneg⟩
    | started p _ hledger hblock =>
      refine ⟨?_, .inr ⟨p, ?_, ?_⟩⟩
      · rw [hblock, Block.store_inside (L.thread_length p), Block.netReady_inside, hinside]
      · rw [hledger]
        rfl
      · rw [hblock]
        exact Block.ready_addressed hlen

def longName : CString where
  bytes := [99, 111, 110, 116, 114, 111, 108, 108, 101, 114, 46, 111, 112, 101, 114, 97, 116, 111,
    114, 46, 101, 120, 97, 109, 112, 108, 101]
  noNull := by decide

/-- The end of the name comes to lie in `stop`, and the network thread ends at once. -/
theorem long_name_stops : ¬ ∀ (L : NetLayout) (ctrlAddr : CString) (S : ℕ → Setup) (enbId : UInt64)
    (ctrlPort : UInt16) (m : Memory) (bytes : ℕ → UInt8) (as : List SysAns) (x : ℤ) (h : Host),
      (Start.emStart L enbId ctrlAddr ctrlPort).run (execStart S L) as ⟨m, .empty, ⟨bytes, true⟩⟩ =
        some (x, h) → AddressKept L ctrlAddr ctrlPort x h := by
  intro hkept
  have hr : ∃ h, (Start.emStart Sample.layout 1 longName 0).run
      (execStart (fun _ ↦ Sample.setup) Sample.layout) Sample.starts Sample.host = some (0, h) ∧
      h.block.field Sample.layout .stop = [112, 108, 101, 0] := ⟨_, rfl, rfl⟩
  obtain ⟨h, hr, hstop⟩ := hr
  obtain ⟨_, hneg | ⟨p, _, haddr⟩⟩ := hkept _ _ _ _ _ _ _ _ _ _ hr
  · cases hneg
  · have hzero : h.block.field Sample.layout .stop = Sample.littleEndian 4 0 :=
      haddr.others .stop (by decide)
    rw [hstop] at hzero
    revert hzero
    decide

end Results

end EmpowerAgent
