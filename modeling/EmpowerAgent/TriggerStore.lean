import EmpowerAgent.Triggers
import EmpowerAgent.Library.Numbered
import Mathlib.Algebra.GroupWithZero.Nat

namespace EmpowerAgent

open Library

/-- The operations on a trigger context, with their arguments. A module is
the number that callers have and pass through an `int`. -/
inductive TrigOp
  | add (trig : Emtri)
  | delById (id : Int32)
  | delByInst (mod : UInt32) (type : ℤ) (inst : Int32)
  | findById (id : Int32)
  | findByInst (mod : UInt32) (type : ℤ) (inst : Int32)
  | flush
  deriving DecidableEq, Repr

inductive TrigRes
  | id (id : Int32)
  | status (n : ℤ)
  | trig (t : Option Emtri)
  | done
  deriving DecidableEq, Repr

namespace TrigOp

def run : TrigOp → Trctx → TrigRes × Trctx
  | add trig, ctx => (.id (ctx.trigAdd trig).1, (ctx.trigAdd trig).2)
  | delById id, ctx => (.status (ctx.trigDelById id).1, (ctx.trigDelById id).2)
  | delByInst mod type inst, ctx =>
    (.status (ctx.trigDelByInst mod.toInt32 type inst).1,
      (ctx.trigDelByInst mod.toInt32 type inst).2)
  | findById id, ctx => (.trig (ctx.trigFindById id), ctx)
  | findByInst mod type inst, ctx => (.trig (ctx.trigFindByInst mod.toInt32 type inst), ctx)
  | flush, ctx => (.done, ctx.trigFlush)

def number (id : Int32) : ℕ := id.toNatClampNeg

def refAdd (s : Numbered Emtri) (trig : Emtri) : Int32 × Numbered Emtri :=
  (Int32.ofNat (s.count + 1), s.add { trig with id := Int32.ofNat (s.count + 1) })

def refDel (s : Numbered Emtri) (n : ℕ) : ℤ × Numbered Emtri :=
  if (s.entry n).isSome then (0, s.remove n) else (-1, s)

/-- What the operations are for: the reference store numbers the triggers as
they are added, and a key means the latest live trigger that has it. -/
def ref : TrigOp → Numbered Emtri → TrigRes × Numbered Emtri
  | add trig, s => (.id (refAdd s trig).1, (refAdd s trig).2)
  | delById id, s => (.status (refDel s (number id)).1, (refDel s (number id)).2)
  | delByInst mod type inst, s =>
    let n := s.newest fun t ↦ t.key = (mod, type, inst)
    (.status (refDel s n).1, (refDel s n).2)
  | findById id, s => (.trig (s.entry (number id)), s)
  | findByInst mod type inst, s =>
    (.trig (s.entry (s.newest fun t ↦ t.key = (mod, type, inst))), s)
  | flush, s => (.done, s.clear)

def adds : TrigOp → ℕ
  | add _ => 1
  | _ => 0

def runAll {σ : Type} (step : TrigOp → σ → TrigRes × σ) : List TrigOp → σ → List TrigRes × σ
  | [], s => ([], s)
  | op :: ops, s => ((step op s).1 :: (runAll step ops (step op s).2).1,
      (runAll step ops (step op s).2).2)

end TrigOp

open TrigOp

theorem ofNat_eq_iff {n : ℕ} (hpos : 0 < n) (hlt : n < 2 ^ 31) (id : Int32) :
    Int32.ofNat n = id ↔ n = number id := by
  constructor
  · intro h
    rw [number, ← h, Int32.toNatClampNeg_ofNat_of_lt hlt]
  · intro h
    have hid : 0 ≤ id := by
      by_contra hneg
      have hneg := Int32.lt_iff_toInt_lt.mp (Int32.not_le.mp hneg)
      have hzero : number id = 0 := Int.toNat_of_nonpos (Int.le_of_lt hneg)
      omega
    rw [h, number, Int32.ofNat_toNatClampNeg id hid]

structure Lists (ctx : Trctx) (s : Numbered Emtri) : Prop where
  ts : ctx.ts = s.items
  next : ctx.next = Int32.ofNat (s.count + 1)
  ids : ∀ n t, s.entry n = some t → t.id = Int32.ofNat n

section Refinement

variable {ctx : Trctx} {s : Numbered Emtri}

theorem Lists.delFirst (h : Lists ctx s) (p : Emtri → Bool) :
    (ctx.delFirst p).1 = (refDel s (s.newest p)).1 ∧
      Lists (ctx.delFirst p).2 (refDel s (s.newest p)).2 := by
  unfold Trctx.delFirst refDel
  rw [h.ts, s.any_items]
  split_ifs
  · refine ⟨rfl, s.erase_items p, h.next, fun n t ht ↦ ?_⟩
    exact h.ids n t (Numbered.entry_remove ht)
  · exact ⟨rfl, h⟩

theorem refDel_absent {n : ℕ} (h : s.entry n = none) : refDel s n = (-1, s) := if_neg (by simp [h])

theorem Lists.number_iff (h : Lists ctx s) (hs : s.count < 2 ^ 31) (id : Int32) (n : ℕ) (t : Emtri)
    (ht : s.entry n = some t) : (t.id == id) = true ↔ n = number id := by
  have hb := s.bound n (by simp [ht])
  rw [beq_iff_eq, h.ids n t ht]
  exact ofNat_eq_iff hb.1 (by omega) id

theorem Lists.findById (h : Lists ctx s) (hs : s.count < 2 ^ 31) (id : Int32) :
    ctx.trigFindById id = s.entry (number id) := by
  rw [Trctx.trigFindById, h.ts, s.find_items]
  rcases Numbered.newest_unique (h.number_iff hs id) with heq | ⟨hnew, hnone⟩
  · rw [heq]
  · rw [hnew, hnone]

theorem Lists.delById (h : Lists ctx s) (hs : s.count < 2 ^ 31) (id : Int32) :
    (ctx.trigDelById id).1 = (refDel s (number id)).1 ∧
      Lists (ctx.trigDelById id).2 (refDel s (number id)).2 := by
  have hdel := h.delFirst fun t ↦ t.id == id
  rcases Numbered.newest_unique (h.number_iff hs id) with heq | ⟨hnew, hnone⟩
  · rwa [heq] at hdel
  · rw [refDel_absent hnew] at hdel
    rwa [refDel_absent hnone]

theorem Lists.add (h : Lists ctx s) (trig : Emtri) :
    (ctx.trigAdd trig).1 = (refAdd s trig).1 ∧ Lists (ctx.trigAdd trig).2 (refAdd s trig).2 := by
  refine ⟨h.next, ?_, ?_, fun n t ht ↦ ?_⟩
  · rw [refAdd, Numbered.items_add, ← h.ts, ← h.next]
    rfl
  · calc ctx.next + 1 = Int32.ofNat (s.count + 1) + Int32.ofNat 1 := by rw [h.next]; rfl
      _ = Int32.ofNat (s.count + 1 + 1) := (Int32.ofNat_add _ _).symm
  · rcases Numbered.entry_add ht with ⟨rfl, rfl⟩ | hold
    · rfl
    · exact h.ids n t hold

theorem Lists.flush (h : Lists ctx s) : Lists ctx.trigFlush s.clear :=
  ⟨s.items_clear.symm, h.next, fun _ _ ht ↦ by cases ht⟩

theorem Lists.step (h : Lists ctx s) (op : TrigOp) (hs : s.count < 2 ^ 31) :
    (op.run ctx).1 = (op.ref s).1 ∧ Lists (op.run ctx).2 (op.ref s).2 := by
  cases op with
  | add trig =>
    obtain ⟨hid, hlists⟩ := h.add trig
    exact ⟨congrArg TrigRes.id hid, hlists⟩
  | delById id =>
    obtain ⟨hres, hlists⟩ := h.delById hs id
    exact ⟨congrArg TrigRes.status hres, hlists⟩
  | delByInst mod type inst =>
    obtain ⟨hres, hlists⟩ := h.delFirst fun t ↦ t.key = (mod, type, inst)
    simp only [run, Trctx.trigDelByInst_eq]
    exact ⟨congrArg TrigRes.status hres, hlists⟩
  | findById id => exact ⟨congrArg TrigRes.trig (h.findById hs id), h⟩
  | findByInst mod type inst =>
    refine ⟨congrArg TrigRes.trig ?_, h⟩
    rw [Trctx.trigFindByInst_eq, h.ts, s.find_items]
  | flush => exact ⟨rfl, h.flush⟩

theorem count_ref (op : TrigOp) (s : Numbered Emtri) : (op.ref s).2.count = s.count + op.adds := by
  have hdel (n : ℕ) : (refDel s n).2.count = s.count := by
    unfold refDel
    split_ifs <;> rfl
  cases op with
  | delById id => exact hdel _
  | delByInst mod type inst => exact hdel _
  | _ => rfl

theorem Lists.runAll (ops : List TrigOp) (h : Lists ctx s)
    (hs : s.count + (ops.map adds).sum < 2 ^ 31) :
    (runAll run ops ctx).1 = (runAll ref ops s).1 ∧
      Lists (runAll run ops ctx).2 (runAll ref ops s).2 := by
  induction ops generalizing ctx s with
  | nil => exact ⟨rfl, h⟩
  | cons op ops ih =>
    rw [List.map_cons, List.sum_cons] at hs
    obtain ⟨hres, hlists⟩ := h.step op (by omega)
    have hcount := count_ref op s
    obtain ⟨hrest, hlast⟩ := ih hlists (by omega)
    exact ⟨congrArg₂ List.cons hres hrest, hlast⟩

/-- Until the ids run out, the context does what the reference store does. -/
theorem trig_store_refines (ops : List TrigOp) (h : (ops.map adds).sum < 2 ^ 31 - 1) :
    (runAll run ops ⟨[], 1⟩).1 = (runAll ref ops .empty).1 ∧
      (runAll run ops ⟨[], 1⟩).2.ts = (runAll ref ops .empty).2.items := by
  have hstart : Lists ⟨[], 1⟩ .empty := ⟨rfl, rfl, fun _ _ ht ↦ by cases ht⟩
  obtain ⟨hres, hlists⟩ := hstart.runAll ops (by simp only [Numbered.empty]; omega)
  exact ⟨hres, hlists.ts⟩

def flushedOps : List TrigOp :=
  let t : Emtri := ⟨0, 0, 1, 9, 3, []⟩
  [.add t, .add t, .delByInst 9 1 3, .findByInst 9 1 3, .flush, .add t, .delById 2]

theorem trig_store_refines_flushed : (flushedOps.map adds).sum < 2 ^ 31 - 1 ∧
    (runAll run flushedOps ⟨[], 1⟩).1 = (runAll ref flushedOps .empty).1 ∧
    (runAll run flushedOps ⟨[], 1⟩).2.ts = (runAll ref flushedOps .empty).2.items :=
  ⟨by decide, trig_store_refines flushedOps (by decide)⟩

end Refinement

end EmpowerAgent
