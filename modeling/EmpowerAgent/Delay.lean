import EmpowerAgent.Credits
import Mathlib.Data.List.Chain

namespace EmpowerAgent

open Library.Proc (Returns exists_run)

def Timespec.nanos (t : Timespec) : ℤ := t.tvSec * 1000000000 + t.tvNsec

/-- The nanoseconds of `b` borrow from the second, and as they are then divided
towards zero the time from `a` to `b` is rounded up, to just `ms` milliseconds. -/
def RoundsUp (a b : Timespec) (ms : ℤ) : Prop :=
  b.tvNsec < a.tvNsec ∧ ¬ 1000000 ∣ a.tvNsec - b.tvNsec ∧
    ms = (b.tvSec - a.tvSec) * 1000 - (a.tvNsec - b.tvNsec) / 1000000

instance (a b : Timespec) (ms : ℤ) : Decidable (RoundsUp a b ms) := instDecidableAnd

def Emtask.stamps (task : Emtask) (rs : List Round) : List Timespec :=
  task.issued :: (rs.filter Round.due).map (·.now)

def Late (ms : ℤ) (a b : Timespec) : Prop := ms * 1000000 ≤ b.nanos - a.nanos

instance (ms : ℤ) (a b : Timespec) : Decidable (Late ms a b) :=
  inferInstanceAs (Decidable (ms * 1000000 ≤ b.nanos - a.nanos))

/-- The clock is read for a task just when rounding makes it due. -/
def Agent.hurries (s : Agent) : Act → Bool
  | .sched (.time now) => match s.sch with
    | .clock task => 0 ≤ task.elapse && RoundsUp task.issued now task.elapse
    | _ => false
  | _ => false

def Unhurried (p : Agent × TaskLog) (a : Act) : Prop := p.1.hurries a = false

instance (p : Agent × TaskLog) (a : Act) : Decidable (Unhurried p a) :=
  inferInstanceAs (Decidable (_ = false))

def TimeForward (p : Agent × TaskLog) (a : Act) : Prop := ClockForward (p.1, ⟨[], [], p.2.clock⟩) a

instance (p : Agent × TaskLog) (a : Act) : Decidable (TimeForward p a) :=
  inferInstanceAs (Decidable (ClockForward _ a))

section Rounding

variable (a b : Timespec) (ms : ℤ)

/-- Without a borrow the division rounds down, and with one it rounds up. -/
theorem tsDiffToMs_eq : tsDiffToMs a b =
    if b.tvNsec < a.tvNsec then (b.tvSec - a.tvSec) * 1000 - (a.tvNsec - b.tvNsec) / 1000000
    else (b.tvSec - a.tvSec) * 1000 + (b.tvNsec - a.tvNsec) / 1000000 := by
  unfold tsDiffToMs
  split_ifs with hborrow
  · have hneg : b.tvNsec - a.tvNsec = -(a.tvNsec - b.tvNsec) := by omega
    rw [hneg, Int.neg_tdiv, Int.tdiv_eq_ediv_of_nonneg (by omega)]
    omega
  · rw [Int.tdiv_eq_ediv_of_nonneg (by omega)]

theorem late_iff : (ms ≤ tsDiffToMs a b → Late ms a b) ↔ ¬ RoundsUp a b ms := by
  rw [tsDiffToMs_eq]
  unfold Late RoundsUp Timespec.nanos
  split_ifs with hborrow
  · omega
  · omega

variable {Q : Emtask → Timespec → Prop} {t₀ t : Emtask} {rs : List Round} {r : Round}

theorem Emtask.stamps_concat (t₀ : Emtask) (rs : List Round) (r : Round) :
    t₀.stamps (rs ++ [r]) = t₀.stamps rs ++ if r.op = .notElapsed then [] else [r.now] := by
  rw [stamps, List.filter_append, List.map_append, ← List.cons_append]
  by_cases hop : r.op = .notElapsed <;> simp [stamps, Round.due, hop]

theorem Lived.late (hQ : ∀ t now, Q t now → 0 ≤ t.elapse → ¬ RoundsUp t.issued now t.elapse)
    (hpos : 0 ≤ t₀.elapse) (h : Lived Q t₀ rs t)
    (hstamps : (t₀.stamps rs).IsChain (Late t₀.elapse) ∧ t.issued ∈ (t₀.stamps rs).getLast?)
    (hq : Q t r.now) (htells : t.Tells r.now r.op) :
    (t₀.stamps (rs ++ [r])).IsChain (Late t₀.elapse) := by
  rw [Emtask.stamps_concat]
  split_ifs with hop
  · rw [List.append_nil]
    exact hstamps.1
  · obtain ⟨hchain, hlast⟩ := hstamps
    refine List.isChain_append.mpr ⟨hchain, .singleton _, fun x hx y hy ↦ ?_⟩
    obtain rfl := Option.mem_unique hx hlast
    obtain rfl : r.now = y := by simpa using hy
    have helapse := h.same.2
    rw [← helapse] at hpos ⊢
    refine (late_iff _ _ _).mpr (hQ t r.now hq hpos) (Int.not_lt.mp fun hlt ↦ ?_)
    exact hop (htells.later.mpr hlt)

theorem Lived.stamps (hQ : ∀ t now, Q t now → 0 ≤ t.elapse → ¬ RoundsUp t.issued now t.elapse)
    (hpos : 0 ≤ t₀.elapse) (h : Lived Q t₀ rs t) :
    (t₀.stamps rs).IsChain (Late t₀.elapse) ∧ t.issued ∈ (t₀.stamps rs).getLast? := by
  induction h with
  | start => exact ⟨.singleton _, rfl⟩
  | @round t t' rs r h hq htells hs ih =>
    refine ⟨h.late hQ hpos ih hq htells, ?_⟩
    rw [Emtask.stamps_concat]
    unfold Emtask.settle at hs
    split at hs
    · rename_i hop
      cases hs
      rw [if_pos hop, List.append_nil]
      exact ih.2
    · rename_i hop
      cases hs
      rw [if_neg (by simp [hop]), List.getLast?_concat]
      rfl
    · cases hs
    · cases hs

end Rounding

section Runs

variable {S : Setup} {p : Agent × TaskLog}

theorem job_late_iff (task : Emtask) (now : Timespec) :
    (∀ as w op w', (schedPerformJob S task now).run exec as w = some (op, w') →
      op ≠ .notElapsed → Late task.elapse task.issued now) ↔
      ¬ RoundsUp task.issued now task.elapse := by
  have hreturns := schedPerformJob_returns S task now
  rw [← late_iff]
  constructor
  · intro h hdue
    obtain ⟨as, op, w', _, hr⟩ := exists_run exec_answers
      (schedPerformJob S task now) Agent.start.w
    refine h as _ op w' hr fun hop ↦ ?_
    have hlt := (hreturns.run hr).later.mp hop
    omega
  · intro h as w op w' hr hop
    refine h (Int.not_lt.mp fun hlt ↦ hop ((hreturns.run hr).later.mpr hlt))

/-- Where the clock is never read for a task just when the rounding makes it
due, a task runs, and runs again, no sooner than its interval after it was queued
or performed before; and a job is put off until its interval has passed, unless
the time read is one of those. -/
theorem minimum_delay :
    (∀ (task : Emtask) (now : Timespec),
      (∀ as w op w', (schedPerformJob S task now).run exec as w = some (op, w') →
        op ≠ .notElapsed → Late task.elapse task.issued now) ↔
        ¬ RoundsUp task.issued now task.elapse) ∧
    ∀ p, (taskAgent S).Reach Unhurried p → ∀ task ∈ p.2.accepted, 0 ≤ task.elapse →
      (task.stamps (p.2.life task.addr)).IsChain (Late task.elapse) := by
  refine ⟨job_late_iff, fun p h task htask hpos ↦ ?_⟩
  have hI : LivesInv (fun t now ↦ 0 ≤ t.elapse → ¬ RoundsUp t.issued now t.elapse)
      p.1.sch p.1.w p.2 := by
    refine .of_reach h fun q t now _ hok hpc ht hround ↦ ?_
    simp [Unhurried, Agent.hurries, hpc, ht, hround] at hok
  have hr : (agent S).Reachable p.1 := h.unwatch fun _ _ _ ↦ trivial
  have hQ (t : Emtask) (now : Timespec)
      (hq : 0 ≤ t.elapse → ¬ RoundsUp t.issued now t.elapse) := hq
  obtain ⟨t, hlived | ⟨rs, r, hrs, hlived, hq, htells⟩⟩ := hI.life hr htask
  · exact (hlived.stamps hQ hpos).1
  · rw [hrs]
    exact hlived.late hQ hpos (hlived.stamps hQ hpos) hq htells

theorem minimum_delay_sent : ∃ p, (taskAgent Sample.setup).Reach Unhurried p ∧
    p.2.life 0 = [⟨Sample.after 2000, .consumed⟩] ∧
    [Sample.after 0, Sample.after 2000].IsChain (Late 1) := by
  have hr := (taskAgent Sample.setup).reach_get Unhurried sendBoth (by decide +kernel)
  obtain ⟨_, hruns⟩ := minimum_delay
  exact ⟨_, hr, by decide +kernel, hruns _ hr
    ⟨0, .send, 0, some [0, 6, 0, 0, 0, 1], 0, 0, Sample.after 0, 1⟩ (by decide +kernel) (by decide)⟩

def hastyRun : List Act :=
  [.api (.emSend [0, 6, 0, 0, 0, 0]) [.ok true, .ok true, .time ⟨0, 999999999⟩, .tick],
    .sched .tick, .sched .tick, .sched (.time ⟨1, 0⟩), .sched .tick, .sched (.sent (-1)),
    .sched .tick]

theorem delay_cut_short : ¬ ∀ p, (taskAgent Sample.setup).Reach TimeForward p →
    ∀ task ∈ p.2.accepted, 0 ≤ task.elapse →
      (task.stamps (p.2.life task.addr)).IsChain (Late task.elapse) := by
  intro h
  have hr := (taskAgent Sample.setup).reach_get TimeForward hastyRun (by decide +kernel)
  have hchain := h _ hr ⟨0, .send, 0, some [0, 6, 0, 0, 0, 0], 0, 0, ⟨0, 999999999⟩, 1⟩
    (by decide +kernel) (by decide)
  revert hchain
  decide +kernel

end Runs

end EmpowerAgent
