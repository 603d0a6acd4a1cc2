import EmpowerAgent.Library.Fairness
import EmpowerAgent.Delivery
import EmpowerAgent.Quantum

namespace EmpowerAgent

open Library (LeadsTo)

section Progress

variable {S : Setup} {s : Agent}

def OfSched (a : Act) : Prop := ∃ ans, a = .sched ans

def OfNet (a : Act) : Prop := ∃ ans, a = .net ans

def OfRelease (a : Act) : Prop := a = .release

theorem sched_enabled (h : s.sch ≠ .exit) : (agent S).Enabled OfSched s := by
  have hstep : ∃ ans r, schedStep S s.sch ans s.w = some r := by
    cases hpc : s.sch with
    | take =>
      refine ⟨.tick, ?_⟩
      cases hjobs : s.w.sched.jobs <;> simp [schedStep, hjobs]
    | clock task => exact ⟨.time ⟨0, 0⟩, _, rfl⟩
    | perform task now p =>
      cases p with
      | pure op => exact ⟨.tick, _, rfl⟩
      | call o k =>
        obtain ⟨ans, r, he⟩ := exec_progress o s.w
        exact ⟨ans, _, Option.map_eq_some_iff.mpr ⟨r, he, rfl⟩⟩
    | exit => exact absurd hpc h
    | _ => exact ⟨.tick, _, rfl⟩
  obtain ⟨ans, r, hr⟩ := hstep
  exact ⟨_, _, ⟨ans, rfl⟩, Option.map_eq_some_iff.mpr ⟨r, hr, rfl⟩⟩

theorem net_enabled (h : s.net.pc ≠ .exit) : (agent S).Enabled OfNet s := by
  have hstep : ∃ ans r, netStep S.proto s.net ans s.w = some r := by
    rcases s with ⟨w, ⟨pc, e⟩, sch, rel⟩
    cases pc with
    | next =>
      refine ⟨.tick, ?_⟩
      cases hs : w.net.status <;> simp [netStep, hs]
    | socket =>
      by_cases hfd : w.net.sockfd < 0
      · refine ⟨.fails .none, ?_⟩
        simp [netStep, netSocket, hfd]
      · refine ⟨.tick, ?_⟩
        simp [netStep, netSocket, hfd]
    | resolve => exact ⟨.ok true, _, rfl⟩
    | connect => exact ⟨.connect (some .none), _, rfl⟩
    | hello => exact ⟨.ok false, _, rfl⟩
    | recv ph got => exact ⟨.recv (.error .none), _, rfl⟩
    | process p =>
      cases p with
      | pure x => exact ⟨.tick, _, rfl⟩
      | call o k =>
        obtain ⟨ans, r, he⟩ := exec_progress o w
        exact ⟨ans, _, Option.map_eq_some_iff.mpr ⟨r, he, rfl⟩⟩
    | exit => exact absurd rfl h
    | _ => exact ⟨.tick, _, rfl⟩
  obtain ⟨ans, r, hr⟩ := hstep
  exact ⟨_, _, ⟨ans, rfl⟩, Option.map_eq_some_iff.mpr ⟨r, hr, rfl⟩⟩

end Progress

section Descent

variable {S : Setup} {E : Emproto} {w w' : World}

/-- How far the scheduler is from the end of its quantum, and then, once it has
been told to stop, from returning: it still takes every task of the list. -/
def SchPc.toExit (jobs : ℕ) : SchPc → ℕ × ℕ × Proc Outcome
  | .clock _ => (jobs + 1, 5, .pure .consumed)
  | .perform _ _ p => (jobs + 1, 4, p)
  | .settle _ _ _ => (jobs + 1, 3, .pure .consumed)
  | .take => (jobs + 1, 2, .pure .consumed)
  | .flush => (0, 6, .pure .consumed)
  | .alert => (0, 5, .pure .consumed)
  | .down | .back => (0, 4, .pure .consumed)
  | .loop => (0, 3, .pure .consumed)
  | .drain => (0, 2, .pure .consumed)
  | .exit => (0, 1, .pure .consumed)

theorem SchMove.toExit {pc pc' : SchPc} (hm : SchMove S pc w pc' w') (hperf : Performing pc)
    (hstop : pc = .loop → w.sched.stop = true) :
    Below (pc'.toExit w'.sched.jobs.length) (pc.toExit w.sched.jobs.length) := by
  cases hm with
  | loopTake hrun => cases (hstop rfl).symm.trans hrun
  | takeNone | netError => exact .left _ _ (Nat.succ_pos _)
  | takeTask hjobs =>
    refine .left _ _ ?_
    rw [hjobs]
    exact Nat.lt_succ_self _
  | op he =>
    obtain ⟨failed, hobeys⟩ := hperf
    rw [(he.idle hobeys.1).jobs]
    exact .right _ (.right _ (.call _))
  | _ => exact .right _ (.left _ _ (by decide))

def NetPc.toExit : NetPc → ℕ × Proc ℤ
  | .exit => (0, .pure 0)
  | .poll _ _ => (1, .pure 0)
  | .next => (2, .pure 0)
  | .again | .undo | .down | .store => (3, .pure 0)
  | .process p => (3, p)
  | .hello | .recv _ _ | .resolve => (4, .pure 0)
  | .connect | .socket => (5, .pure 0)

abbrev NetBelow : ℕ × Proc ℤ → ℕ × Proc ℤ → Prop := Prod.Lex (· < ·) Library.Proc.Rest

theorem netBelow_wf : WellFounded NetBelow :=
  (Prod.lex ⟨_, Nat.lt_wfRel.wf⟩ ⟨_, Library.Proc.Rest.wf⟩).wf

theorem NetMove.toExit {t t' : NetThread} {a : Ans} (hs : netStep E t a w = some (t', w'))
    (hstop : w.net.stop = true) : NetBelow t'.pc.toExit t.pc.toExit := by
  have hm := netStep_move hs
  cases hm with
  | nextSocket _ hrun => cases hstop.symm.trans hrun
  | pollRecv hrun => cases hstop.symm.trans hrun
  | again =>
    -- a stopped thread does not try the next address
    cases a with
    | tick =>
      simp only [netStep, hstop, if_true, Option.some.injEq] at hs
      cases hs
      exact .left _ _ (by decide)
    | _ => cases hs
  | resolveFail => exact .left _ _ (by decide)
  | connectFail hpc => rcases hpc with rfl | rfl <;> exact .left _ _ (by decide)
  | handler he => exact .right _ (.call _)
  | _ => exact .left _ _ (by decide)

end Descent

section Stops

variable {S : Setup} {E : Emproto} {s s' : Agent} {w w' : World}

theorem Effect.netStop {o : Op} {r : o.Res} (h : Effect o w r w') :
    w'.net.stop = w.net.stop := by
  cases h <;> rfl

theorem NetMove.netStop {t t' : NetThread} (hm : NetMove E t w t' w') :
    w'.net.stop = w.net.stop := by
  cases hm with
  | handler he => exact he.netStop
  | _ => rfl

theorem SchMove.netStop {pc pc' : SchPc} (hm : SchMove S pc w pc' w') :
    w'.net.stop = w.net.stop := by
  cases hm with
  | op he => exact he.netStop
  | alert => split_ifs <;> rfl
  | _ => rfl

/-- How many of its steps `core_release_agent` has made. -/
def RelPc.passed : RelPc → ℕ
  | .idle => 0
  | .joinSched => 1
  | .netStop => 2
  | .joinNet => 3
  | .flush => 4
  | .done => 5

theorem Move.passed {a : Act} (hm : Move S s a s') (ha : ¬ OfRelease a) : s'.rel = s.rel := by
  cases hm with
  | release => exact absurd rfl ha
  | _ => rfl

structure Stopping (k : ℕ) (s : Agent) : Prop where
  sched : 1 ≤ k → s.w.sched.stop = true
  schedExit : 2 ≤ k → s.sch = .exit
  net : 3 ≤ k → s.w.net.stop = true
  netExit : 4 ≤ k → s.net.pc = .exit
  flushed : 5 ≤ k → s.w.trig.ts = []

theorem NetMove.not_exit {t t' : NetThread} (hm : NetMove E t w t' w') : t.pc ≠ .exit := by
  cases hm <;> simp

theorem SchMove.not_exit {pc pc' : SchPc} (hm : SchMove S pc w pc' w') : pc ≠ .exit := by
  cases hm <;> simp

theorem exit_stays {a : Act} (hs : (agent S).step s a = some s') :
    (s.sch = .exit → s'.sch = .exit) ∧ (s.net.pc = .exit → s'.net.pc = .exit) := by
  cases Agent.step_move hs with
  | net hm => exact ⟨fun h ↦ h, fun h ↦ absurd h hm.not_exit⟩
  | sched _ hm => exact ⟨fun h ↦ absurd h hm.not_exit, fun h ↦ h⟩
  | api => exact ⟨fun h ↦ h, fun h ↦ h⟩
  | release hm => cases hm <;> exact ⟨fun h ↦ h, fun h ↦ h⟩

theorem Stopping.keep {k : ℕ} (h : Stopping k s)
    (hsched : s'.w.sched.stop = s.w.sched.stop) (hnet : s'.w.net.stop = s.w.net.stop)
    (hschExit : s.sch = .exit → s'.sch = .exit) (hnetExit : s.net.pc = .exit → s'.net.pc = .exit)
    (hts : s.net.pc = .exit → s'.w.trig.ts.Sublist s.w.trig.ts) : Stopping k s' where
  sched hk := hsched.trans (h.sched hk)
  schedExit hk := hschExit (h.schedExit hk)
  net hk := hnet.trans (h.net hk)
  netExit hk := hnetExit (h.netExit hk)
  flushed hk := by
    have hsub := hts (h.netExit (by omega))
    rw [h.flushed hk] at hsub
    exact List.sublist_nil.mp hsub

theorem Stopping.release (h : Stopping s.rel.passed s) (hs : s.releaseStep = some s') :
    Stopping s'.rel.passed s' := by
  rcases s with ⟨w, ⟨pc, e⟩, sch, rel⟩
  obtain ⟨hsched, hschExit, hnet, hnetExit, _⟩ := h
  dsimp only at hsched hschExit hnet hnetExit
  cases rel with
  | idle =>
    cases hs
    refine ⟨fun _ ↦ rfl, ?_, ?_, ?_, ?_⟩ <;> intro hk <;> simp [RelPc.passed] at hk
  | joinSched =>
    cases sch with
    | exit =>
      cases hs
      refine ⟨fun _ ↦ hsched (by decide), fun _ ↦ rfl, ?_, ?_, ?_⟩ <;> intro hk <;>
        simp [RelPc.passed] at hk
    | _ => cases hs
  | netStop =>
    cases hs
    refine ⟨fun _ ↦ hsched (by decide), fun _ ↦ hschExit (by decide), fun _ ↦ rfl, ?_, ?_⟩ <;>
      intro hk <;> simp [RelPc.passed] at hk
  | joinNet =>
    cases pc with
    | exit =>
      cases hs
      refine ⟨fun _ ↦ hsched (by decide), fun _ ↦ hschExit (by decide),
        fun _ ↦ hnet (by decide), fun _ ↦ rfl, ?_⟩
      intro hk
      simp [RelPc.passed] at hk
    | _ => cases hs
  | flush =>
    cases hs
    exact ⟨fun _ ↦ hsched (by decide), fun _ ↦ hschExit (by decide),
      fun _ ↦ hnet (by decide), fun _ ↦ hnetExit (by decide), fun _ ↦ rfl⟩
  | done => cases hs

theorem Stopping.of_reachable (h : (agent S).Reachable s) : Stopping s.rel.passed s := by
  refine h.invariant (I := fun s ↦ Stopping s.rel.passed s) ?_ ?_
  · refine ⟨?_, ?_, ?_, ?_, ?_⟩ <;> intro hk <;> cases hk
  intro s a s' hr hI _ hs
  have hm := Agent.step_move hs
  obtain ⟨hsch, hnet⟩ := exit_stays hs
  have hts (hexit : s.net.pc = .exit) : s'.w.trig.ts.Sublist s.w.trig.ts := by
    rcases hm.triggers (conduct hr).1 with hshrinks | ⟨trig, k, _, hpc, _⟩
    · exact hshrinks.ts
    · cases hexit.symm.trans hpc
  cases hm with
  | net hm => exact hI.keep hm.steady.stop hm.netStop hsch hnet hts
  | sched _ hm => exact hI.keep hm.stop hm.netStop hsch hnet hts
  | api hrun => cases apiCall_move hrun <;> exact hI.keep rfl rfl hsch hnet hts
  | release => exact hI.release hs

end Stops

section Ending

variable {S : Setup}

def Joinable (k : ℕ) (s : Agent) : Prop :=
  (k = 1 → s.sch = .exit) ∧ (k = 3 → s.net.pc = .exit)

theorem release_advances {s : Agent} {k : ℕ} (hk : s.rel.passed = k) (hlt : k < 5)
    (hready : Joinable k s) : ∃ s', (agent S).step s .release = some s' := by
  rcases s with ⟨w, ⟨pc, e⟩, sch, rel⟩
  obtain ⟨hsch, hnet⟩ := hready
  dsimp only at hsch hnet
  cases rel with
  | joinSched =>
    obtain rfl := hsch hk.symm
    exact ⟨_, rfl⟩
  | joinNet =>
    obtain rfl := hnet hk.symm
    exact ⟨_, rfl⟩
  | done =>
    simp only [RelPc.passed] at hk
    omega
  | _ => exact ⟨_, rfl⟩

theorem releaseStep_passed {s s' : Agent} (hs : s.releaseStep = some s') :
    s'.rel.passed = s.rel.passed + 1 := by
  obtain ⟨_, _, hnext⟩ := releaseStep_next hs
  rcases hnext with ⟨h, h'⟩ | ⟨h, _, h'⟩ | ⟨h, h'⟩ | ⟨h, _, h'⟩ | ⟨h, h'⟩ <;> rw [h, h'] <;> rfl

theorem passed_step {s s' : Agent} {a : Act} (hs : (agent S).step s a = some s') :
    s.rel.passed ≤ s'.rel.passed := by
  by_cases ha : OfRelease a
  · obtain rfl : a = .release := ha
    exact (releaseStep_passed hs).symm ▸ Nat.le_succ _
  · exact ((Agent.step_move hs).passed ha).symm ▸ Nat.le_refl _

theorem Move.jobs_stopped {s s' : Agent} {a : Act} (hm : Move S s a s')
    (ha : ∀ ans, a ≠ .sched ans) (hstop : s.w.sched.stop = true) :
    s'.w.sched.jobs = s.w.sched.jobs := by
  cases hm with
  | net hm => exact hm.steady.jobs hstop
  | sched => exact absurd rfl (ha _)
  | api hrun =>
    cases apiCall_move hrun with
    | emSendQueued _ _ hfree => cases hstop.symm.trans hfree
    | _ => rfl
  | release hm => cases hm <;> rfl

theorem Stopping.released {s : Agent} (h : (agent S).Reachable s) (hdone : s.rel = .done) :
    s.sch = .exit ∧ s.net.pc = .exit ∧ s.w.sched.jobs = [] ∧ s.w.sched.todo = [] ∧
      s.w.trig.ts = [] ∧ s.w.freed.Perm s.w.accepted := by
  have hI := Stopping.of_reachable h
  rw [hdone] at hI
  have hsch := hI.schedExit (by decide)
  have hd := Drained.of_reachable h
  rw [hsch] at hd
  obtain ⟨_, hjobs, htodo⟩ := hd
  refine ⟨hsch, hI.netExit (by decide), hjobs, htodo, hI.flushed (by decide), ?_⟩
  refine List.perm_iff_count.mpr fun p ↦ ?_
  have hb := (TaskInv.of_reachable h).books.balance p
  simpa [World.places, hsch, hjobs, htodo, SchPc.held] using hb

end Ending

section Runs

variable {S : Setup} {f : ℕ → Agent} {as : ℕ → Act} (hrun : (agent S).Run (fun _ _ ↦ True) f as)

include hrun

theorem sched_leaves (hfair : (agent S).Fair OfSched f as) :
    LeadsTo (fun n ↦ 1 ≤ (f n).rel.passed) fun n ↦ (f n).sch = .exit := by
  refine hfair.leadsTo below_wf (fun n ↦ (f n).sch.toExit (f n).w.sched.jobs.length)
    (fun n _ hn ↦ sched_enabled hn) fun n hn _ _ ↦ ?_
  have hs := hrun.step n
  have hstop := (Stopping.of_reachable (hrun.reach n)).sched hn
  refine ⟨Nat.le_trans hn (passed_step hs), ?_, fun ha ↦ ?_⟩
  · rintro ⟨ans, ha⟩
    rw [ha] at hs
    obtain ⟨⟨pc, w⟩, hstep, heq⟩ := Option.map_eq_some_iff.mp hs
    rw [← heq]
    exact (schedStep_move hstep).toExit (conduct (hrun.reach n)).1 fun _ ↦ hstop
  · have hm := Agent.step_move hs
    have ha' : ∀ ans, as n ≠ .sched ans := not_exists.mp ha
    simp only [(hm.unscheduled ha').1, hm.jobs_stopped ha' hstop]

theorem net_leaves (hfair : (agent S).Fair OfNet f as) :
    LeadsTo (fun n ↦ 3 ≤ (f n).rel.passed) fun n ↦ (f n).net.pc = .exit := by
  refine hfair.leadsTo netBelow_wf (fun n ↦ (f n).net.pc.toExit)
    (fun n _ hn ↦ net_enabled hn) fun n hn _ _ ↦ ?_
  have hs := hrun.step n
  have hstop := (Stopping.of_reachable (hrun.reach n)).net hn
  refine ⟨Nat.le_trans hn (passed_step hs), ?_, fun ha ↦ ?_⟩
  · rintro ⟨ans, ha⟩
    rw [ha] at hs
    obtain ⟨⟨t, w⟩, hstep, heq⟩ := Option.map_eq_some_iff.mp hs
    rw [← heq]
    exact NetMove.toExit hstep hstop
  · have hm := Agent.step_move hs
    generalize as n = a at hm ha
    generalize f (n + 1) = s' at hm
    cases hm with
    | net => exact absurd ⟨_, rfl⟩ ha
    | release hm => cases hm <;> rfl
    | _ => rfl

theorem release_goes_on (hfair : (agent S).Fair OfRelease f as) {k : ℕ} (hk : k < 5) :
    LeadsTo (fun n ↦ k ≤ (f n).rel.passed ∧ Joinable k (f n)) fun n ↦ k + 1 ≤ (f n).rel.passed := by
  refine hfair.leadsTo Nat.lt_wfRel.wf (fun _ ↦ 0) (fun n hn hlast ↦ ?_) fun n hn hlast hnext ↦ ?_
  · obtain ⟨s', hs⟩ := release_advances (S := S) (k := k) (s := f n) (by omega) hk hn.2
    exact ⟨.release, s', rfl, hs⟩
  · have hs := hrun.step n
    have hle := passed_step hs
    obtain ⟨hsch, hnet⟩ := exit_stays hs
    refine ⟨⟨by omega, fun h ↦ hsch (hn.2.1 h), fun h ↦ hnet (hn.2.2 h)⟩, fun ha ↦ ?_,
      fun _ ↦ rfl⟩
    obtain ha : as n = .release := ha
    rw [ha] at hs
    have hpassed := releaseStep_passed hs
    omega

/-- Whatever the threads were doing when the release of an agent began, and
however the network and the wrapper answer, it is done some time: both threads
have returned, and from then on every task that was ever accepted is freed, no
trigger is left and nothing is queued. -/
theorem release_ends (hsched : (agent S).Fair OfSched f as) (hnet : (agent S).Fair OfNet f as)
    (hrelease : (agent S).Fair OfRelease f as) {n : ℕ} (hbegun : (f n).rel ≠ .idle) :
    ∃ m, n ≤ m ∧ ∀ k, m ≤ k → (f k).rel = .done ∧ (f k).sch = .exit ∧ (f k).net.pc = .exit ∧
      (f k).w.sched.jobs = [] ∧ (f k).w.sched.todo = [] ∧ (f k).w.trig.ts = [] ∧
      (f k).w.freed.Perm (f k).w.accepted := by
  have hstable (k n : ℕ) (h : k ≤ (f n).rel.passed) : k ≤ (f (n + 1)).rel.passed :=
    Nat.le_trans h (passed_step (hrun.step n))
  have hgo {k : ℕ} := release_goes_on hrun hrelease (k := k)
  have h₁ := ((sched_leaves hrun hsched).keep (hstable 1)).trans fun n hn ↦
    hgo (by decide) n ⟨hn.1, fun _ ↦ hn.2, by simp⟩
  have h₂ := h₁.trans fun n hn ↦ hgo (by decide) n ⟨hn, by simp, by simp⟩
  have h₃ := (h₂.trans ((net_leaves hrun hnet).keep (hstable 3))).trans fun n hn ↦
    hgo (by decide) n ⟨hn.1, by simp, fun _ ↦ hn.2⟩
  have h₄ := h₃.trans fun n hn ↦ hgo (by decide) n ⟨hn, by simp, by simp⟩
  have hbegin : 1 ≤ (f n).rel.passed := by
    cases hrel : (f n).rel with
    | idle => exact absurd hrel hbegun
    | _ => simp [RelPc.passed]
  obtain ⟨m, hm, hpassed⟩ := h₄ n hbegin
  refine ⟨m, hm, fun k hk ↦ ?_⟩
  have hlast : 5 ≤ (f k).rel.passed := Library.stable_le (hstable 5) hk hpassed
  have hdone : (f k).rel = .done := by
    cases hrel : (f k).rel with
    | done => rfl
    | _ =>
      rw [hrel] at hlast
      simp [RelPc.passed] at hlast
  exact ⟨hdone, Stopping.released (hrun.reach k) hdone⟩

end Runs

theorem exists_ended_run {S : Setup} {s : Agent} {bs : List Act}
    (hbs : (agent S).runIf (fun _ _ ↦ True) Agent.start bs = some s) (hsch : s.sch = .exit)
    (hnet : s.net.pc = .exit) (hrel : s.rel = .done) :
    ∃ f as, (agent S).Run (fun _ _ ↦ True) f as ∧ (agent S).Fair OfSched f as ∧
      (agent S).Fair OfNet f as ∧ (agent S).Fair OfRelease f as ∧
      (∀ n, (agent S).runIf (fun _ _ ↦ True) Agent.start (bs.take n) = some (f n)) ∧
      ∀ n, bs.length ≤ n → f n = s ∧ as n = .api (.emHasTrigger 0) [.tick] := by
  obtain ⟨f, as, hrun, htake, hidle⟩ := Library.Machine.exists_run
    (a := .api (.emHasTrigger 0) [.tick]) trivial rfl hbs
  have hend (n : ℕ) (hn : bs.length ≤ n) : f n = s := by
    have hall := htake n
    rw [List.take_of_length_le hn, hbs] at hall
    exact (Option.some.inj hall).symm
  refine ⟨f, as, hrun, Library.Machine.fair_of_end hend ?_, Library.Machine.fair_of_end hend ?_,
    Library.Machine.fair_of_end hend ?_, htake, fun n hn ↦ ⟨hend n hn, hidle n hn⟩⟩
  · rintro ⟨_, s', ⟨ans, rfl⟩, hs⟩
    obtain ⟨_, hs, _⟩ := Option.map_eq_some_iff.mp hs
    rw [hsch] at hs
    cases ans <;> cases hs
  · rintro ⟨_, s', ⟨ans, rfl⟩, hs⟩
    obtain ⟨_, hs, _⟩ := Option.map_eq_some_iff.mp hs
    unfold netStep at hs
    rw [hnet] at hs
    cases ans <;> cases hs
  · rintro ⟨_, s', rfl, hs⟩
    have hs : s.releaseStep = some s' := hs
    unfold Agent.releaseStep at hs
    rw [hrel] at hs
    cases hs

/-- The release begins while the Hello and a report for a trigger are queued. -/
def drainedRun : List Act :=
  Sample.connect 3 ++ Sample.requestReport ++ [.release, .sched .tick, .sched .tick, .release,
    .release, .net (.recv (.error .eagain)), .net .tick, .release, .release]

def drained : Agent :=
  ((agent Sample.setup).runIf (fun _ _ ↦ True) Agent.start drainedRun).get (by decide)

theorem release_ends_drained : ∃ f as, (agent Sample.setup).Run (fun _ _ ↦ True) f as ∧
    (f 19).rel = .idle ∧ (f 20).rel = .joinSched ∧ addrs (f 20).w.sched.jobs = [0, 3] ∧
    (f 20).w.trig.ts.map Emtri.addr = [1] ∧
    ∃ m, 20 ≤ m ∧ ∀ k, m ≤ k → (f k).rel = .done ∧ (f k).sch = .exit ∧
      (f k).net.pc = .exit ∧ (f k).w.sched.jobs = [] ∧ (f k).w.sched.todo = [] ∧
      (f k).w.trig.ts = [] ∧ (f k).w.freed.Perm (f k).w.accepted := by
  obtain ⟨f, as, hrun, hsched, hnet, hrelease, htake, _⟩ := exists_ended_run (s := drained)
    (Option.some_get _).symm rfl rfl rfl
  have hbefore : ((agent Sample.setup).runIf (fun _ _ ↦ True) Agent.start
      (drainedRun.take 19)).map (·.rel) = some .idle := by decide
  have hbegun : ((agent Sample.setup).runIf (fun _ _ ↦ True) Agent.start (drainedRun.take 20)).map
      (fun s ↦ (s.rel, addrs s.w.sched.jobs, s.w.trig.ts.map Emtri.addr)) =
        some (.joinSched, [0, 3], [1]) := by decide
  rw [htake 19] at hbefore
  rw [htake 20] at hbegun
  simp only [Option.map_some, Option.some.injEq, Prod.mk.injEq] at hbefore hbegun
  obtain ⟨hrel, hjobs, hts⟩ := hbegun
  refine ⟨f, as, hrun, hbefore, hrel, hjobs, hts, release_ends hrun hsched hnet hrelease ?_⟩
  rw [hrel]
  simp

end EmpowerAgent
