import EmpowerAgent.KeepAlive
import EmpowerAgent.Responses

namespace EmpowerAgent

open Library (LeadsTo)
open Library.Proc (Obeys)

section Running

variable {S : Setup} {s s' : Agent} {w w' : World}

structure Running (s : Agent) : Prop where
  sched : s.w.sched.stop = false
  net : s.w.net.stop = false
  pc : s.net.pc ≠ .exit

theorem Running.of_reachable (h : (agent S).Reachable s) (hidle : s.rel = .idle) : Running s := by
  revert hidle
  refine h.invariant (I := fun s ↦ s.rel = .idle → Running s) ?_ ?_
  · exact fun _ ↦ ⟨rfl, rfl, by simp [agent, Agent.start]⟩
  intro s a s' hr hI _ hs hidle
  rcases s with ⟨w₀, t₀, sch, rel⟩
  cases Agent.step_move hs with
  | net hm =>
    obtain ⟨hsched, hnet, hpc⟩ := hI hidle
    refine ⟨hm.steady.stop.trans hsched, hm.netStop.trans hnet, fun hexit ↦ ?_⟩
    simp only at hm hnet hexit
    cases hm with
    | nextExit _ hstop | pollExit hstop => cases hnet.symm.trans hstop
    | again hor | connectFail hor => rcases hor with rfl | rfl <;> cases hexit
    | _ => cases hexit
  | sched _ hm =>
    obtain ⟨hsched, hnet, hpc⟩ := hI hidle
    exact ⟨hm.stop.trans hsched, hm.netStop.trans hnet, hpc⟩
  | api hrun =>
    obtain ⟨hsched, hnet, hpc⟩ := hI hidle
    cases apiCall_move hrun <;> exact ⟨hsched, hnet, hpc⟩
  | release hm => cases hm <;> cases hidle

end Running

section Healthy

variable (E : Emproto)

/-- What comes over a connection that does not fail. -/
def Arrives (ph : Phase) (got : Bytes) : RecvResult → Prop
  | .data bytes => (got ++ bytes).length ≤ emBufSize ∧ netCollect E ph (got ++ bytes) ≠ .drop
  | .closed => False
  | .error e => e = .eagain

/-- A step in which the network does what it is asked, no send fails, the
controller sends messages of the length that they declare and no longer than
the buffer, and memory for the Hello is found. What else is asked of a closed
descriptor fails. -/
def Healthy (s : Agent) : Act → Prop
  | .sched (.sent n) => 0 ≤ n
  | .net a =>
    match s.net.pc, a with
    | .socket, .fd n => 0 < n
    | .socket, .fails _ | .resolve, .fails _ => False
    | .connect, .connect e => if 0 ≤ s.w.net.sockfd then e = none else e ≠ some .ealready
    | .hello, .ok ok => ok = true
    | .recv ph got, .recv r =>
      if 0 ≤ s.w.net.sockfd then Arrives E ph got r else r ≠ .error .eagain
    | _, _ => True
  | _ => True

end Healthy

section Scheduler

variable {S : Setup} {s s' : Agent} {w w' : World} {pc pc' : SchPc}

def SchPc.Sound : SchPc → Prop
  | .perform _ _ p => Obeys performProtocol PerformPost false p
  | .settle _ _ op => op ≠ .netError
  | .flush | .alert | .down | .drain | .exit => False
  | _ => True

theorem SchPc.Sound.not_closing (h : pc.Sound) : ¬ pc.Closing := by
  intro hclosing
  cases pc with
  | flush | alert | down | exit => exact h
  | _ => exact hclosing

theorem SchPc.Sound.not_down (h : pc.Sound) : pc ≠ .down := by
  rintro rfl
  exact h.not_closing trivial

theorem SchPc.Sound.step {ans : Ans} (h : pc.Sound) (hs : schedStep S pc ans w = some (pc', w'))
    (hrun : w.sched.stop = false) (hsent : ∀ n, ans = .sent n → 0 ≤ n) : pc'.Sound := by
  by_cases hcall : ∃ task now o k, pc = .perform task now (.call o k)
  · obtain ⟨task, now, o, k, rfl⟩ := hcall
    obtain ⟨⟨r, w₁⟩, he, heq⟩ := Option.map_eq_some_iff.mp hs
    cases heq
    have hnext := h.2 r
    cases o with
    | netSend msg =>
      have hpos : 0 ≤ r := hsent r (exec_netSend he)
      have hsame : performProtocol.next false (.netSend msg) r = false :=
        decide_eq_false (Int.not_lt.mpr hpos)
      rw [hsame] at hnext
      exact hnext
    | _ => exact hnext
  · have hm := schedStep_move hs
    cases hm with
    | op => exact absurd ⟨_, _, _, _, rfl⟩ hcall
    | loopDrain hstop => cases hrun.symm.trans hstop
    | clock => exact schedPerformJob_performs S _ _
    | returned =>
      rintro rfl
      cases h rfl
    | netError => exact absurd rfl h
    | flush | alert | down | drain => cases h
    | _ => trivial

def SchPc.toSound : SchPc → ℕ × ℕ × Proc Outcome
  | .perform _ _ p => (0, 5, p)
  | .settle _ _ _ => (0, 4, .pure .consumed)
  | .flush => (0, 3, .pure .consumed)
  | .alert => (0, 2, .pure .consumed)
  | .down => (0, 1, .pure .consumed)
  | _ => (0, 0, .pure .consumed)

theorem sound_or_closer (hm : SchMove S pc w pc' w') (hrun : w.sched.stop = false)
    (hdrained : Drained w pc) : pc'.Sound ∨ Below pc'.toSound pc.toSound := by
  cases hm with
  | loopDrain hstop => cases hrun.symm.trans hstop
  | drain => cases hrun.symm.trans hdrained
  | clock => exact .inl (schedPerformJob_performs S _ _)
  | op => exact .inr (.right _ (.right _ (.call _)))
  | returned | netError | flush | alert => exact .inr (.right _ (.left _ _ (by decide)))
  | _ => exact .inl trivial

end Scheduler

section Network

variable {S : Setup} {s s' : Agent} {w w' : World}

def NetPc.Polling : NetPc → Prop
  | .poll _ _ | .recv _ _ | .process _ => True
  | _ => False

theorem polling_connected (h : (agent S).Reachable s) (hpc : s.net.pc.Polling)
    (hfd : 0 < s.w.net.sockfd) : s.w.net.status = .connected := by
  revert hpc hfd
  refine h.invariant (I := fun s ↦ s.net.pc.Polling → 0 < s.w.net.sockfd →
    s.w.net.status = .connected) ?_ ?_
  · intro hpc
    cases hpc
  intro s a s' hr hI _ hs hpc hfd
  rcases s with ⟨w₀, t₀, sch, rel⟩
  cases Agent.step_move hs with
  | net hm =>
    simp only at hm hpc hfd hI ⊢
    cases hm with
    | nextPoll hup => exact hup
    | store => rfl
    | handler he =>
      rw [he.sockfd] at hfd
      rw [he.status]
      exact hI trivial hfd
    | pollRecv | recvMore | recvMessage | recvRetry => exact hI trivial hfd
    | again hor | connectFail hor => rcases hor with rfl | rfl <;> cases hpc
    | _ => cases hpc
  | sched _ hm =>
    by_cases hdown : sch = .down
    · subst hdown
      cases hm
      simp only [World.netNotConnected] at hfd
      split_ifs at hfd <;> omega
    · obtain ⟨hsame, hstatus, _⟩ := hm.sockets hdown
      simp only [hsame] at hfd
      simp only [hstatus]
      exact hI hpc hfd
  | api hrun => cases apiCall_move hrun <;> exact hI hpc hfd
  | release hm => cases hm <;> exact hI hpc hfd

structure Agent.Up (s : Agent) : Prop where
  pc : s.net.pc = .next ∨ s.net.pc.Polling
  status : s.w.net.status = .connected
  file : 0 < s.w.net.sockfd

/-- How far the network thread is from serving a connection. On the way to one
whose descriptor has been closed it has to find that out first. -/
def NetPc.toUp (w : World) (pc : NetPc) : ℕ × Proc ℤ :=
  let closed := if 0 < w.net.sockfd then 0 else 20
  match pc with
  | .process p => (22, p)
  | .next => (if w.net.status = .connected then 21 else 10, .pure 0)
  | .poll _ _ => (19, .pure 0)
  | .recv _ _ => (18, .pure 0)
  | .down => (17, .pure 0)
  | .undo => (12, .pure 0)
  | .socket => (9, .pure 0)
  | .resolve => (closed + 8, .pure 0)
  | .again => (closed + 7, .pure 0)
  | .connect => (closed + 6, .pure 0)
  | .hello => (closed + 5, .pure 0)
  | .store => (closed + 4, .pure 0)
  | .exit => (0, .pure 0)

section Steps

variable {t t' : NetThread} {ans : Ans} {sch : SchPc} {rel : RelPc} {e : Errno} {ph : Phase}
  {got : Bytes}

theorem socket_opens (hs : netStep S.proto ⟨.socket, e⟩ ans w = some (t', w'))
    (hhealthy : Healthy S.proto ⟨w, ⟨.socket, e⟩, sch, rel⟩ (.net ans))
    (hzero : w.net.sockfd ≠ 0) : t'.pc = .resolve ∧ 0 < w'.net.sockfd := by
  have hs : netSocket e w ans = some (t', w') := hs
  cases ans with
  | tick =>
    simp only [netSocket] at hs
    split_ifs at hs with hclosed
    cases hs
    exact ⟨rfl, by omega⟩
  | fd n =>
    have hpos : 0 < n := hhealthy
    simp only [netSocket] at hs
    split_ifs at hs
    cases hs
    exact ⟨rfl, hpos⟩
  | fails e' => exact hhealthy.elim
  | _ => cases hs

theorem address_found (hs : netStep S.proto ⟨.resolve, e⟩ ans w = some (t', w'))
    (hhealthy : Healthy S.proto ⟨w, ⟨.resolve, e⟩, sch, rel⟩ (.net ans)) : t'.pc = .again := by
  cases ans with
  | ok found =>
    cases found <;> cases hs
    rfl
  | fails e' => exact hhealthy.elim
  | _ => cases hs

theorem again_connects (hs : netStep S.proto ⟨.again, e⟩ ans w = some (t', w'))
    (hrun : w.net.stop = false) : t'.pc = .connect := by
  cases ans with
  | tick =>
    simp only [netStep, hrun, Bool.false_eq_true, if_false, Option.some.injEq] at hs
    cases hs
    rfl
  | _ => cases hs

theorem connect_ends (hs : netStep S.proto ⟨.connect, e⟩ ans w = some (t', w'))
    (hhealthy : Healthy S.proto ⟨w, ⟨.connect, e⟩, sch, rel⟩ (.net ans)) :
    t'.pc = if 0 ≤ w.net.sockfd then .hello else .next := by
  cases ans with
  | connect r =>
    have hs : netConnect e w r = some (t', w') := hs
    simp only [Healthy] at hhealthy
    cases r with
    | none =>
      simp only [netConnect] at hs
      split_ifs at hs ⊢
      cases hs
      rfl
    | some e' =>
      split_ifs at hhealthy ⊢
      have hfailed : e' ≠ .ealready := fun h ↦ hhealthy (congrArg some h)
      simp only [netConnect, if_neg hfailed, Option.some.injEq] at hs
      cases hs
      rfl
  | _ => cases hs

theorem hello_queued (hs : netStep S.proto ⟨.hello, e⟩ ans w = some (t', w'))
    (hhealthy : Healthy S.proto ⟨w, ⟨.hello, e⟩, sch, rel⟩ (.net ans))
    (hrun : w.sched.stop = false) : t'.pc = .store := by
  have hs : netConnected e w ans = some (t', w') := hs
  cases ans with
  | ok found =>
    obtain rfl : found = true := hhealthy
    cases hs
  | time now =>
    simp only [netConnected] at hs
    rw [World.schedAddTask_of_run { w with heap := w.heap + 1 } hrun] at hs
    cases hs
    rfl
  | _ => cases hs

theorem recv_goes_on (hs : netStep S.proto ⟨.recv ph got, e⟩ ans w = some (t', w'))
    (hhealthy : Healthy S.proto ⟨w, ⟨.recv ph got, e⟩, sch, rel⟩ (.net ans))
    (hopen : 0 ≤ w.net.sockfd) : t'.pc ≠ .down := by
  cases ans with
  | recv r =>
    have hs : netRecv S.proto e ph got w r = some (t', w') := hs
    have hcomes : Arrives S.proto ph got r := by
      simp only [Healthy] at hhealthy
      rwa [if_pos hopen] at hhealthy
    cases r with
    | data bytes =>
      simp only [netRecv] at hs
      split_ifs at hs
      simp only [netReceived, Option.some.injEq] at hs
      cases hc : netCollect S.proto ph (got ++ bytes) with
      | drop => exact absurd hc hcomes.2
      | _ =>
        rw [hc] at hs
        cases hs
        simp
    | closed => exact hcomes.elim
    | error e' =>
      obtain rfl : e' = .eagain := hcomes
      cases hs
      simp
  | _ => cases hs

theorem recv_closed (hs : netStep S.proto ⟨.recv ph got, e⟩ ans w = some (t', w'))
    (hhealthy : Healthy S.proto ⟨w, ⟨.recv ph got, e⟩, sch, rel⟩ (.net ans))
    (hclosed : ¬ 0 ≤ w.net.sockfd) : t'.pc = .down := by
  cases ans with
  | recv r =>
    have hs : netRecv S.proto e ph got w r = some (t', w') := hs
    have hfails : r ≠ .error .eagain := by
      simp only [Healthy] at hhealthy
      rwa [if_neg hclosed] at hhealthy
    cases r with
    | data bytes => simp [netRecv, hclosed] at hs
    | closed => simp [netRecv, hclosed] at hs
    | error e' =>
      have hother : e' ≠ .eagain := fun h ↦ hfails (congrArg RecvResult.error h)
      simp only [netRecv, netNoData, if_neg hother, Option.some.injEq] at hs
      cases hs
      rfl
  | _ => cases hs

theorem Agent.Up.netStep (h : Agent.Up ⟨w, t, sch, rel⟩)
    (hs : netStep S.proto t ans w = some (t', w'))
    (hhealthy : Healthy S.proto ⟨w, t, sch, rel⟩ (.net ans)) (hrun : w.net.stop = false) :
    Agent.Up ⟨w', t', sch, rel⟩ := by
  obtain ⟨hpc, hup, hfd⟩ := h
  simp only at hpc hup hfd
  cases netStep_move hs with
  | nextExit hdown | nextSocket hdown => cases hup.symm.trans hdown
  | pollExit hstop => cases hrun.symm.trans hstop
  | nextPoll | pollRecv | recvMore | recvMessage | recvRetry => exact ⟨.inr trivial, hup, hfd⟩
  | recvDrop | recvFail => exact absurd rfl (recv_goes_on hs hhealthy (Int.le_of_lt hfd))
  | handler he => exact ⟨.inr trivial, he.status.trans hup, he.sockfd.symm ▸ hfd⟩
  | handled => exact ⟨.inl rfl, hup, hfd⟩
  | _ => rcases hpc with hpc | hpc <;> cases hpc

theorem toUp_next (w : World) : (NetPc.next.toUp w).1 ≤ 21 := by
  simp only [NetPc.toUp]
  split_ifs <;> decide

theorem closer_to_up (hs : EmpowerAgent.netStep S.proto t ans w = some (t', w'))
    (hhealthy : Healthy S.proto ⟨w, t, sch, rel⟩ (.net ans)) (hsched : w.sched.stop = false)
    (hnet : w.net.stop = false) (hzero : w.net.sockfd ≠ 0)
    (hpoll : t.pc.Polling → 0 < w.net.sockfd → w.net.status = .connected)
    (hdown : ¬ Agent.Up ⟨w, t, sch, rel⟩) :
    Agent.Up ⟨w', t', sch, rel⟩ ∨ NetBelow (t'.pc.toUp w') (t.pc.toUp w) := by
  cases netStep_move hs with
  | nextExit _ hstop | pollExit hstop | helloRefused hstop =>
    first | cases hnet.symm.trans hstop | cases hsched.symm.trans hstop
  | nextSocket hstatus | nextPoll hstatus =>
    refine .inr (.left _ _ ?_)
    simp [hstatus]
  | socketFail => cases (socket_opens hs hhealthy hzero).1
  | socketKeep | socketOpen =>
    refine .inr (.left _ _ ?_)
    simp [(socket_opens hs hhealthy hzero).2]
  | resolve => exact .inr (.left _ _ (Nat.lt_succ_self _))
  | resolveFail => cases address_found hs hhealthy
  | again =>
    obtain rfl := again_connects hs hnet
    exact .inr (.left _ _ (Nat.lt_succ_self _))
  | connectOk | helloAdd => exact .inr (.left _ _ (Nat.lt_succ_self _))
  | @connectFail _ _ _ pc hor =>
    -- it fails only where the scheduler has closed the descriptor
    have hend : pc = if 0 ≤ w.net.sockfd then .hello else .next := connect_ends hs hhealthy
    have hclosed : ¬ 0 ≤ w.net.sockfd := fun hopen ↦ by
      rw [if_pos hopen] at hend
      rcases hor with rfl | rfl <;> cases hend
    rw [if_neg hclosed] at hend
    subst hend
    refine .inr (.left _ _ (Nat.lt_of_le_of_lt (toUp_next w) ?_))
    simp [show ¬ 0 < w.net.sockfd by omega]
  | helloFail => cases hello_queued hs hhealthy hsched
  | store =>
    by_cases hopen : 0 < w.net.sockfd
    · exact .inl ⟨.inr trivial, rfl, hopen⟩
    · refine .inr (.left _ _ ?_)
      simp [hopen]
  | undo | down =>
    refine .inr (.left _ _ ?_)
    simp [World.netNotConnected]
  | pollRecv => exact .inr (.left _ _ (by decide))
  | recvMore | recvMessage | recvRetry =>
    have hopen : 0 ≤ w.net.sockfd := by
      by_contra hclosed
      cases recv_closed hs hhealthy hclosed
    have hfd : 0 < w.net.sockfd := by omega
    exact absurd ⟨.inr trivial, hpoll trivial hfd, hfd⟩ hdown
  | recvDrop | recvFail => exact .inr (.left _ _ (by decide))
  | handler he => exact .inr (.right _ (.call _))
  | handled => exact .inr (.left _ _ (Nat.lt_succ_of_le (toUp_next _)))

end Steps

end Network

section Frame

variable {S : Setup} {s s' : Agent} {a : Act}

theorem Move.unlinked (hm : Move S s a s') (ha : ¬ OfNet a) (hdown : s.sch ≠ .down) :
    s'.net = s.net ∧ s'.w.net.sockfd = s.w.net.sockfd ∧ s'.w.net.status = s.w.net.status := by
  cases hm with
  | net => exact absurd ⟨_, rfl⟩ ha
  | sched _ hm =>
    obtain ⟨hsame, hstatus, _⟩ := hm.sockets hdown
    exact ⟨rfl, hsame, hstatus⟩
  | api hrun => cases apiCall_move hrun <;> exact ⟨rfl, rfl, rfl⟩
  | release hm => cases hm <;> exact ⟨rfl, rfl, rfl⟩

theorem sockfd_step (hs : (agent S).step s a = some s') (ha : a ≠ .net (.fd 0))
    (h : s.w.net.sockfd ≠ 0) : s'.w.net.sockfd ≠ 0 := by
  have hdrop (w : World) (hw : w.net.sockfd ≠ 0) : w.netNotConnected.net.sockfd ≠ 0 := by
    simp only [World.netNotConnected]
    split_ifs <;> omega
  by_cases hdown : s.sch = .down ∧ ¬ OfNet a
  · rcases s with ⟨w, t, pc, rel⟩
    obtain ⟨rfl, hother⟩ := hdown
    cases Agent.step_move hs with
    | net => exact absurd ⟨_, rfl⟩ hother
    | sched _ hm =>
      cases hm
      exact hdrop w h
    | api hrun => cases apiCall_move hrun <;> exact h
    | release hm => cases hm <;> exact h
  by_cases hnet : OfNet a
  · obtain ⟨ans, rfl⟩ := hnet
    obtain ⟨⟨t, w⟩, hstep, rfl⟩ := Option.map_eq_some_iff.mp hs
    rcases s with ⟨w₀, t₀, pc, rel⟩
    dsimp only at h hstep ⊢
    cases netStep_move hstep with
    | socketFail => exact fun hzero ↦ by cases hzero
    | socketOpen hclosed =>
      intro hzero
      cases ans with
      | fd n =>
        simp only [netStep, netSocket] at hstep
        split_ifs at hstep
        have hfd : n = 0 :=
          (congrArg (·.net.sockfd) (Prod.mk.inj (Option.some.inj hstep)).2).trans hzero
        exact ha (congrArg (fun n ↦ Act.net (.fd n)) hfd)
      | _ => simp [netStep, netSocket, hclosed] at hstep
    | handler he => exact he.sockfd.symm ▸ h
    | undo | down => exact hdrop _ h
    | _ => exact h
  · have hframe := (Agent.step_move hs).unlinked hnet fun h ↦ hdown ⟨h, hnet⟩
    exact hframe.2.1.symm ▸ h

end Frame

section Runs

variable {S : Setup} {f : ℕ → Agent} {as : ℕ → Act} {N : ℕ}
  (hrun : (agent S).Run (fun _ _ ↦ True) f as) (hkept : ∀ n, as n ≠ .release)

include hrun hkept

theorem running (n : ℕ) : Running (f n) := by
  have hidle : (f n).rel = .idle := by
    induction n with
    | zero =>
      rw [hrun.start]
      rfl
    | succ n ih => exact ((Agent.step_move (hrun.step n)).passed (hkept n)).trans ih
  exact .of_reachable (hrun.reach n) hidle

theorem sched_on (n : ℕ) : (agent S).Enabled OfSched (f n) := by
  refine sched_enabled fun hexit ↦ ?_
  have hd := Drained.of_reachable (hrun.reach n)
  rw [hexit] at hd
  cases hd.1.symm.trans (running hrun hkept n).sched

variable (hhealthy : ∀ n, N ≤ n → Healthy S.proto (f n) (as n))

include hhealthy

theorem sound_next {n : ℕ} (hn : N ≤ n) (h : (f n).sch.Sound) : (f (n + 1)).sch.Sound := by
  have hs := hrun.step n
  rcases Agent.sched_or hs with ⟨ans, pc, w, ha, hstep, hnext⟩ | ha
  · have hok := hhealthy n hn
    rw [ha] at hok
    rw [hnext]
    refine h.step hstep (running hrun hkept n).sched fun k hk ↦ ?_
    rw [hk] at hok
    exact hok
  · rw [((Agent.step_move hs).unscheduled ha).1]
    exact h

theorem sound_some_time (hfair : (agent S).Fair OfSched f as) :
    ∃ M, N ≤ M ∧ ∀ n, M ≤ n → (f n).sch.Sound := by
  have hleads : LeadsTo (fun n ↦ N ≤ n) fun n ↦ (f n).sch.Sound := by
    refine hfair.leadsTo below_wf (fun n ↦ (f n).sch.toSound)
      (fun n _ _ ↦ sched_on hrun hkept n) fun n hn _ hnot ↦ ⟨Nat.le_succ_of_le hn, ?_, fun ha ↦ ?_⟩
    · have hs := hrun.step n
      have hdrained := Drained.of_reachable (hrun.reach n)
      rintro ⟨ans, ha⟩
      rw [ha] at hs
      obtain ⟨⟨pc, w⟩, hstep, hnext⟩ := Option.map_eq_some_iff.mp hs
      rw [← hnext] at hnot ⊢
      have hm := schedStep_move hstep
      exact (sound_or_closer hm (running hrun hkept n).sched hdrained).resolve_left hnot
    · have hsch := ((Agent.step_move (hrun.step n)).unscheduled (not_exists.mp ha)).1
      exact congrArg SchPc.toSound hsch
  obtain ⟨M, hM, hsound⟩ := hleads N (Nat.le_refl N)
  refine ⟨M, hM, fun n hn ↦ ?_⟩
  induction hn with
  | refl => exact hsound
  | @step n hn ih => exact sound_next hrun hkept hhealthy (Nat.le_trans hM hn) ih

variable (hfd : ∀ n, as n ≠ .net (.fd 0))

omit hkept hhealthy in
include hfd in
theorem sockfd_not_zero (n : ℕ) : (f n).w.net.sockfd ≠ 0 := by
  induction n with
  | zero =>
    rw [hrun.start]
    intro hstart
    cases hstart
  | succ n ih => exact sockfd_step (hrun.step n) (hfd n) ih

theorem up_next {n : ℕ} (hn : N ≤ n) (hsound : (f n).sch.Sound) (h : (f n).Up) :
    (f (n + 1)).Up := by
  have hs := hrun.step n
  rcases Agent.net_or hs with ⟨ans, t, w, ha, hstep, hnext⟩ | ha
  · have hok := hhealthy n hn
    rw [ha] at hok
    rw [hnext]
    exact Agent.Up.netStep h hstep hok (running hrun hkept n).net
  · obtain ⟨hnet, hsame, hstatus⟩ :=
      (Agent.step_move hs).unlinked (not_exists.mpr ha) hsound.not_down
    exact ⟨hnet ▸ h.pc, hstatus.trans h.status, hsame.symm ▸ h.file⟩

include hfd

/-- The network thread finds out what is lost and connects again. -/
theorem up_some_time (hsched : (agent S).Fair OfSched f as) (hnet : (agent S).Fair OfNet f as) :
    ∃ M, N ≤ M ∧ ∀ n, M ≤ n → (f n).Up ∧ (f n).sch.Sound := by
  obtain ⟨M, hM, hsound⟩ := sound_some_time hrun hkept hhealthy hsched
  have hleads : LeadsTo (fun n ↦ M ≤ n) fun n ↦ (f n).Up := by
    refine hnet.leadsTo netBelow_wf (fun n ↦ (f n).net.pc.toUp (f n).w)
      (fun n _ _ ↦ net_enabled (running hrun hkept n).pc)
      fun n hn hdown hnot ↦ ⟨Nat.le_succ_of_le hn, ?_, fun ha ↦ ?_⟩
    · have hs := hrun.step n
      have hok := hhealthy n (Nat.le_trans hM hn)
      have hrunning := running hrun hkept n
      have hpoll := polling_connected (hrun.reach n)
      rintro ⟨ans, ha⟩
      rw [ha] at hs hok
      obtain ⟨⟨t, w⟩, hstep, hnext⟩ := Option.map_eq_some_iff.mp hs
      rw [← hnext] at hnot ⊢
      exact (closer_to_up hstep hok hrunning.sched hrunning.net (sockfd_not_zero hrun hfd n)
        hpoll hdown).resolve_left hnot
    · obtain ⟨hnet, hsame, hstatus⟩ :=
        (Agent.step_move (hrun.step n)).unlinked ha (hsound n hn).not_down
      simp only [NetPc.toUp, hnet, hsame, hstatus]
  obtain ⟨K, hK, hup⟩ := hleads M (Nat.le_refl M)
  refine ⟨K, Nat.le_trans hM hK, fun n hn ↦ ⟨?_, hsound n (Nat.le_trans hK hn)⟩⟩
  induction hn with
  | refl => exact hup
  | @step n hn ih =>
    have hn := Nat.le_trans hK hn
    exact up_next hrun hkept hhealthy (Nat.le_trans hM hn) (hsound n hn) ih

omit hrun hkept hhealthy hfd in
theorem up_greets {s : Agent} (h : (agent S).Reachable s) (hup : s.Up) (hsound : s.sch.Sound) :
    s.Greets :=
  (greets_of_reachable h ⟨.inl hup.status, hup.file⟩).resolve_right hsound.not_closing

omit hkept hhealthy hfd in
theorem hello_sent (hsched : (agent S).Fair OfSched f as) (hquanta : QuantaEnd f)
    (hclock : ClockPasses as) {M : ℕ} (hup : ∀ n, M ≤ n → (f n).Up ∧ (f n).sch.Sound)
    {n : ℕ} (hn : M ≤ n) {buf : Bytes} (hbuf : S.proto.epfSchedHelloReq S.enbId 2000 = some buf)
    (hlen : buf.length ≤ emBufSize) : ∃ m, n ≤ m ∧ SentSince S (f n).w.hist buf (f m).w := by
  obtain ⟨k, hk, hend⟩ := hquanta n
  obtain ⟨hupk, hsound⟩ := hup k (by omega)
  have hloop : (f k).sch = .loop := hend.resolve_right fun hexit ↦ by
    rw [hexit] at hsound
    exact hsound
  obtain ⟨t, ht, htype, helapse, _⟩ := up_greets (hrun.reach k) hupk hsound
  have hqueued : t ∈ (f k).w.sched.todo ∨ t ∈ (f k).w.sched.jobs := by
    rw [Agent.pending, World.mem_pending, hloop] at ht
    exact ht.resolve_left List.not_mem_nil
  have hmail : t.mail S = some buf := by
    simp only [Emtask.mail, htype, helapse]
    exact hbuf
  have hattained : ∃ m, k ≤ m ∧
      (SentSince S (f k).w.hist buf (f m).w ∨ Thwarted (fun _ ↦ False) t (f m)) :=
    (mailService hmail hlen _).attained hrun hsched hquanta hclock (fun _ _ _ ↦ trivial) hqueued
  obtain ⟨m, hm, hsent | ⟨_, hlost⟩⟩ := hattained
  · exact ⟨m, by omega, hsent.earlier (hist_mono hrun hk)⟩
  · have hsound := (hup m (by omega)).2
    rcases hlost with hpc | ⟨task, now, hpc⟩ | hnone
    · rw [hpc] at hsound
      cases hsound
    · rw [hpc] at hsound
      exact absurd rfl hsound
    · cases hnone

/-- Whatever has gone wrong before, once the network does what it is asked the
agent is connected some time and stays so, with a Hello to keep it alive; and
if quanta end, the clock goes on and the Hello can be encoded and fits, it is
sent again and again. `net_not_connected` is one step of its thread here: in
pieces, its last store could come after the other thread has connected again. -/
theorem network_recovers (hsched : (agent S).Fair OfSched f as)
    (hnet : (agent S).Fair OfNet f as) : ∃ M, ∀ n, M ≤ n →
      (f n).w.net.status = .connected ∧ 0 < (f n).w.net.sockfd ∧ (f n).Greets ∧
      (QuantaEnd f → ClockPasses as → ∀ buf, S.proto.epfSchedHelloReq S.enbId 2000 = some buf →
        buf.length ≤ emBufSize → ∃ m, n ≤ m ∧ SentSince S (f n).w.hist buf (f m).w) := by
  obtain ⟨M, _, hup⟩ := up_some_time hrun hkept hhealthy hfd hsched hnet
  refine ⟨M, fun n hn ↦ ?_⟩
  obtain ⟨hupn, hsound⟩ := hup n hn
  exact ⟨hupn.status, hupn.file, up_greets (hrun.reach n) hupn hsound,
    fun hquanta hclock _ hbuf hlen ↦ hello_sent hrun hsched hquanta hclock hup hn hbuf hlen⟩

end Runs

section Turns

variable {S : Setup} {s : Agent} {w : World}

structure Listening (S : Setup) (s : Agent) : Prop where
  reach : (agent S).Reachable s
  idle : s.rel = .idle
  up : s.Up
  sound : s.sch.Sound
  silent (p : Proc ℤ) : s.net.pc ≠ .process p

def Turn (E : Emproto) (n : ℕ) (s : Agent) (a : Act) (s' : Agent) : Prop :=
  Healthy E s a ∧ (∀ now, a = .sched (.time now) → now = ⟨n, 0⟩) ∧ (n % 2 = 0 → OfSched a) ∧
    (n % 2 = 1 → OfNet a ∧ s'.w.sched.jobs = s.w.sched.jobs)

theorem exec_turn (o : Op) (n : ℕ) (hopen : 0 ≤ w.net.sockfd) : ∃ ans r, exec o ans w = some r ∧
    (∀ k, ans = .sent k → 0 ≤ k) ∧ ∀ now, ans = .time now → now = ⟨n, 0⟩ := by
  cases o with
  | malloc => exact ⟨.ok true, _, rfl, by simp, by simp⟩
  | clockGettime => exact ⟨.time ⟨n, 0⟩, _, rfl, by simp, by simp⟩
  | netSend msg =>
    have hsend : exec (.netSend msg) (.sent msg.length) w =
        some ((msg.length : ℤ), w.log (.sent w.socks msg msg.length)) := by
      simp only [exec, World.netSend]
      rw [if_neg (by omega), if_pos ⟨hopen, Int.le_refl _, by omega⟩, Int.toNat_natCast]
    exact ⟨.sent msg.length, _, hsend, by simp, by simp⟩
  | _ => exact ⟨.tick, _, rfl, by simp, by simp⟩

theorem sched_turn (h : Listening S s) (n : ℕ) : ∃ ans pc w,
    schedStep S s.sch ans s.w = some (pc, w) ∧ (∀ k, ans = .sent k → 0 ≤ k) ∧
    ∀ now, ans = .time now → now = ⟨n, 0⟩ := by
  have hsound := h.sound
  cases hpc : s.sch with
  | take =>
    refine ⟨.tick, ?_⟩
    cases hjobs : s.w.sched.jobs <;> simp [schedStep, hjobs]
  | clock task => exact ⟨.time ⟨n, 0⟩, _, _, rfl, by simp, by simp⟩
  | perform task now p =>
    cases p with
    | pure op => exact ⟨.tick, _, _, rfl, by simp, by simp⟩
    | call o k =>
      obtain ⟨ans, r, he, hans⟩ := exec_turn o n (Int.le_of_lt h.up.file)
      exact ⟨ans, _, _, Option.map_eq_some_iff.mpr ⟨r, he, rfl⟩, hans⟩
  | exit =>
    rw [hpc] at hsound
    cases hsound
  | _ => exact ⟨.tick, _, _, rfl, by simp, by simp⟩

theorem net_turn (h : Listening S s) : ∃ ans t, netStep S.proto s.net ans s.w = some (t, s.w) ∧
    ans ≠ .fd 0 ∧ Healthy S.proto s (.net ans) ∧ (t.pc = .next ∨ t.pc.Polling) ∧
    ∀ p, t.pc ≠ .process p := by
  have hrun := Running.of_reachable h.reach h.idle
  have hup := h.up.status
  have hfd := h.up.file
  have hpc := h.up.pc
  have hsilent := h.silent
  rcases s with ⟨w, ⟨pc, e⟩, sch, rel⟩
  simp only at hup hfd hpc hsilent
  cases pc with
  | next =>
    exact ⟨.tick, ⟨.poll .header [], e⟩, by simp [netStep, hup], by simp, trivial, .inr trivial,
      by simp⟩
  | poll ph got =>
    have hstop : w.net.stop = false := hrun.net
    exact ⟨.tick, ⟨.recv ph got, e⟩, by simp [netStep, hstop], by simp, trivial, .inr trivial,
      by simp⟩
  | recv ph got =>
    refine ⟨.recv (.error .eagain), ⟨.poll ph got, .eagain⟩, rfl, by simp, ?_, .inr trivial,
      by simp⟩
    simp only [Healthy]
    rw [if_pos (Int.le_of_lt hfd)]
    rfl
  | process p => exact absurd rfl (hsilent p)
  | _ => rcases hpc with hpc | hpc <;> cases hpc

theorem turn_next (n : ℕ) (h : Listening S s) : ∃ a s', (agent S).step s a = some s' ∧
    (a ≠ .release ∧ a ≠ .net (.fd 0)) ∧ Turn S.proto n s a s' ∧ Listening S s' := by
  rcases Nat.mod_two_eq_zero_or_one n with hn | hn
  · obtain ⟨ans, pc, w, hstep, hsent, hnow⟩ := sched_turn h n
    have hs : (agent S).step s (.sched ans) = some { s with sch := pc, w } :=
      Option.map_eq_some_iff.mpr ⟨_, hstep, rfl⟩
    have hhealthy : Healthy S.proto s (.sched ans) := by
      cases ans with
      | sent k => exact hsent k rfl
      | _ => trivial
    obtain ⟨_, hsame, hstatus⟩ :=
      (Agent.step_move hs).unlinked (by simp [OfNet]) h.sound.not_down
    refine ⟨.sched ans, _, hs, ⟨by simp, by simp⟩, ⟨hhealthy, ?_, fun _ ↦ ⟨ans, rfl⟩, by omega⟩,
      .step h.reach trivial hs, h.idle, ⟨h.up.pc, hstatus.trans h.up.status, ?_⟩,
      h.sound.step hstep (Running.of_reachable h.reach h.idle).sched hsent, h.silent⟩
    · rintro now ⟨⟩
      exact hnow now rfl
    · exact hsame.symm ▸ h.up.file
  · obtain ⟨ans, t, hstep, hzero, hhealthy, hpc, hsilent⟩ := net_turn h
    have hs : (agent S).step s (.net ans) = some { s with net := t } :=
      Option.map_eq_some_iff.mpr ⟨_, hstep, rfl⟩
    exact ⟨.net ans, _, hs, ⟨by simp, by simpa using hzero⟩, ⟨hhealthy, by simp, by omega,
      fun _ ↦ ⟨⟨ans, rfl⟩, rfl⟩⟩, .step h.reach trivial hs, h.idle,
      ⟨hpc, h.up.status, h.up.file⟩, h.sound, hsilent⟩

theorem exists_turns (h : Listening S s) {bs : List Act}
    (hbs : (agent S).runIf (fun _ a ↦ a ≠ .release ∧ a ≠ .net (.fd 0)) Agent.start bs = some s) :
    ∃ f as, (agent S).Run (fun _ a ↦ a ≠ .release ∧ a ≠ .net (.fd 0)) f as ∧
      (agent S).Fair OfSched f as ∧ (agent S).Fair OfNet f as ∧ QuantaEnd f ∧ ClockPasses as ∧
      ∀ n, bs.length ≤ n → Healthy S.proto (f n) (as n) := by
  obtain ⟨g, cs, hturns, hturn⟩ := Library.Machine.exists_run_of (M := (agent S).restart s)
    (I := Listening S) (A := Turn S.proto) h fun n _ h ↦ turn_next n h
  obtain ⟨f, as, hrun, _, hlater⟩ := Library.Machine.exists_run_after hbs hturns
  have hturn (n : ℕ) (hn : bs.length ≤ n) :
      Turn S.proto (n - bs.length) (f n) (as n) (f (n + 1)) := by
    obtain ⟨k, rfl⟩ := Nat.exists_eq_add_of_le hn
    rw [(hlater k).1, (hlater k).2, Nat.add_assoc, (hlater (k + 1)).1, Nat.add_sub_cancel_left]
    exact hturn k
  have hsched : (agent S).Fair OfSched f as := fun n _ ↦
    ⟨bs.length + 2 * n, by omega, (hturn _ (by omega)).2.2.1 (by omega)⟩
  have hnet : (agent S).Fair OfNet f as := fun n _ ↦
    ⟨bs.length + (2 * n + 1), by omega, ((hturn _ (by omega)).2.2.2 (by omega)).1⟩
  have hfree : (agent S).Run (fun _ _ ↦ True) f as := ⟨hrun.start, fun _ ↦ trivial, hrun.step⟩
  refine ⟨f, as, hrun, hsched, hnet, ?_, fun ts ms ↦ ?_, fun n hn ↦ (hturn n hn).1⟩
  · refine quanta_end hfree hsched (N := bs.length) fun n hn ha ↦ ?_
    obtain ⟨_, _, heven, hodd⟩ := hturn n hn
    exact (hodd (by by_contra hnot; exact ha (heven (by omega)))).2
  · refine ⟨bs.length + ts.tvSec.toNat + (ms - (0 - ts.tvNsec).tdiv 1000000).toNat,
      fun n now hn hnow ↦ ?_⟩
    obtain rfl := (hturn n (by omega)).2.1 now hnow
    simp only [tsDiffToMs]
    omega

theorem network_recovers_three : ∃ f as, (agent Sample.setup).Run (fun _ _ ↦ True) f as ∧
    ∃ M, ∀ n, M ≤ n → (f n).w.net.status = .connected ∧ 0 < (f n).w.net.sockfd ∧ (f n).Greets ∧
      ∃ m, n ≤ m ∧ SentSince Sample.setup (f n).w.hist [0, 6, 1, 0, 0, 0] (f m).w := by
  have hlistening : Listening Sample.setup connectedAgent := by
    refine ⟨(agent Sample.setup).reach_get _ _ _, rfl, ⟨.inr trivial, rfl, by decide⟩, trivial, ?_⟩
    intro p hp
    cases hp
  have hconnected : (agent Sample.setup).runIf (fun _ a ↦ a ≠ .release ∧ a ≠ .net (.fd 0))
      Agent.start (Sample.connect 3) = some connectedAgent := rfl
  obtain ⟨f, as, hrun, hsched, hnet, hquanta, hclock, hhealthy⟩ :=
    exists_turns hlistening hconnected
  have hfree : (agent Sample.setup).Run (fun _ _ ↦ True) f as :=
    ⟨hrun.start, fun _ ↦ trivial, hrun.step⟩
  obtain ⟨M, hM⟩ := network_recovers hfree (fun n ↦ (hrun.ok n).1) hhealthy
    (fun n ↦ (hrun.ok n).2) hsched hnet
  refine ⟨f, as, hfree, M, fun n hn ↦ ?_⟩
  obtain ⟨hup, hfd, hgreets, hsent⟩ := hM n hn
  exact ⟨hup, hfd, hgreets, hsent hquanta hclock _ rfl (by decide)⟩

end Turns

end EmpowerAgent
