import EmpowerAgent.Emproto
import EmpowerAgent.Library.Keyed

namespace EmpowerAgent

inductive TrigType
  | ueRep
  | ueMeas
  | macRep
  deriving DecidableEq, Repr

def TrigType.toInt : TrigType → ℤ
  | .ueRep => 0
  | .ueMeas => 1
  | .macRep => 2

/-- A trigger. `addr` is the address at which it was allocated and stands for
its identity; `type` is the plain integer that the source stores. -/
structure Emtri where
  addr : ℕ
  id : Int32
  type : ℤ
  mod : UInt32
  inst : Int32
  msg : Bytes
  deriving DecidableEq, Repr

/-- The alternative key under which a trigger is searched and removed. -/
def Emtri.key (t : Emtri) : UInt32 × ℤ × Int32 := (t.mod, t.type, t.inst)

structure Trctx where
  ts : List Emtri
  next : Int32
  deriving DecidableEq, Repr

namespace Trctx

open Library.Keyed (eraseKey)

def live (ctx : Trctx) : Set Emtri := {t | t ∈ ctx.ts}

def trigAdd (ctx : Trctx) (trig : Emtri) : Int32 × Trctx :=
  (ctx.next, { ts := { trig with id := ctx.next } :: ctx.ts, next := ctx.next + 1 })

/-- Both removals walk the list and take out the first trigger that matches. -/
def delFirst (ctx : Trctx) (p : Emtri → Bool) : ℤ × Trctx :=
  if ctx.ts.any p then (0, { ctx with ts := ctx.ts.eraseP p }) else (-1, ctx)

def trigDelById (ctx : Trctx) (id : Int32) : ℤ × Trctx :=
  ctx.delFirst fun t ↦ t.id == id

def trigDelByInst (ctx : Trctx) (mod : Int32) (type : ℤ) (inst : Int32) : ℤ × Trctx :=
  -- the module comes in as an `int` and is compared as unsigned again
  ctx.delFirst fun t ↦ t.type == type && t.mod == mod.toUInt32 && t.inst == inst

def trigFindById (ctx : Trctx) (id : Int32) : Option Emtri :=
  ctx.ts.find? fun t ↦ t.id == id

def trigFindByInst (ctx : Trctx) (mod : Int32) (type : ℤ) (inst : Int32) : Option Emtri :=
  ctx.ts.find? fun t ↦ t.mod == mod.toUInt32 && t.type == type && t.inst == inst

def trigFlush (ctx : Trctx) : Trctx := { ctx with ts := [] }

variable (ctx : Trctx)

theorem mem_live {t : Emtri} : t ∈ ctx.live ↔ t ∈ ctx.ts := Iff.rfl

theorem delFirst_ts (p : Emtri → Bool) : (ctx.delFirst p).2.ts = ctx.ts.eraseP p := by
  unfold delFirst
  split_ifs with h
  · rfl
  · rw [List.eraseP_of_forall_not (by simpa using h)]

theorem delFirst_subset (p : Emtri → Bool) : (ctx.delFirst p).2.ts ⊆ ctx.ts := by
  rw [delFirst_ts]
  exact List.eraseP_subset

theorem trigDelById_subset (id : Int32) : (ctx.trigDelById id).2.ts ⊆ ctx.ts :=
  ctx.delFirst_subset _

theorem trigDelByInst_subset (mod : Int32) (type : ℤ) (inst : Int32) :
    (ctx.trigDelByInst mod type inst).2.ts ⊆ ctx.ts :=
  ctx.delFirst_subset _

theorem key_test (t : Emtri) (mod : UInt32) (type : ℤ) (inst : Int32) :
    (t.type == type && t.mod == mod.toInt32.toUInt32 && t.inst == inst) =
      decide (t.key = (mod, type, inst)) := by
  rw [UInt32.toUInt32_toInt32, Bool.eq_iff_iff]
  simp only [Bool.and_eq_true, beq_iff_eq, decide_eq_true_eq, Emtri.key, Prod.mk.injEq]
  tauto

theorem trigDelByInst_eq (mod : UInt32) (type : ℤ) (inst : Int32) :
    ctx.trigDelByInst mod.toInt32 type inst =
      ctx.delFirst fun t ↦ t.key = (mod, type, inst) := by
  rw [trigDelByInst]
  congr 1
  funext t
  exact key_test t mod type inst

theorem trigFindByInst_eq (mod : UInt32) (type : ℤ) (inst : Int32) :
    ctx.trigFindByInst mod.toInt32 type inst = ctx.ts.find? fun t ↦ t.key = (mod, type, inst) := by
  rw [trigFindByInst]
  congr 1
  funext t
  rw [← key_test, Bool.and_comm (t.type == type)]

theorem trigDelByInst_ts (mod : UInt32) (type : ℤ) (inst : Int32) :
    (ctx.trigDelByInst mod.toInt32 type inst).2.ts =
      eraseKey Emtri.key (mod, type, inst) ctx.ts := by
  rw [trigDelByInst_eq, delFirst_ts]
  rfl

end Trctx

end EmpowerAgent
