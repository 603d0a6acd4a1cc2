import EmpowerAgent.Steps
import Mathlib.Data.List.Chain

namespace EmpowerAgent

/-- What an observer notes of the network thread: the results of `recv`, and
the calls of `net_not_connected`. -/
inductive PeerEvent
  | recv (r : RecvResult)
  | dropped
  deriving DecidableEq, Repr

namespace PeerEvent

/-- The peer has closed the connection, or there is none to receive from. -/
def Closes : PeerEvent → Prop
  | .recv .closed => True
  | .recv (.error e) => e ≠ .eagain
  | _ => False

def Retries (e : PeerEvent) : Prop := e = .recv (.error .eagain)

instance : DecidablePred Closes := fun e ↦ match e with
  | .recv .closed => inferInstanceAs (Decidable True)
  | .recv (.error e) => inferInstanceAs (Decidable (e ≠ .eagain))
  | .recv (.data _) | .dropped => inferInstanceAs (Decidable False)

instance : DecidablePred Retries := fun e ↦ inferInstanceAs (Decidable (e = _))

/-- A result that closes is followed by `net_not_connected`, and one that asks
to wait by the next `recv`. -/
def Follows (e e' : PeerEvent) : Prop := (e.Closes → e' = .dropped) ∧ (e.Retries → e' ≠ .dropped)

instance (e e' : PeerEvent) : Decidable (e.Follows e') := instDecidableAnd

end PeerEvent

namespace Agent

def peerEvents (s : Agent) : Act → List PeerEvent
  | .net (.recv r) => [.recv r]
  | .net _ => match s.net.pc with | .down | .undo => [.dropped] | _ => []
  | _ => []

/-- The peer closes when the last error was one to wait for. -/
def closesQuietly (s : Agent) : Act → Bool
  | .net (.recv .closed) => s.net.errno = .eagain
  | _ => false

end Agent

def peerAgent (S : Setup) : Library.Machine (Agent × List PeerEvent) Act :=
  (agent S).watch [] fun s a _ es ↦ es ++ s.peerEvents a

def ClosesAloud (p : Agent × List PeerEvent) (a : Act) : Prop := p.1.closesQuietly a = false

instance (p : Agent × List PeerEvent) (a : Act) : Decidable (ClosesAloud p a) :=
  inferInstanceAs (Decidable (_ = false))

def NetPc.Collecting : NetPc → Prop
  | .poll _ _ | .recv _ _ | .exit => True
  | _ => False

section Receiving

variable {E : Emproto} {t t' : NetThread} {w w' : World} {a : Ans}

theorem netNoData_cases (errno : Errno) (ph : Phase) (got : Bytes) (w : World) :
    (errno = .eagain ∧ (netNoData errno ph got w).1.pc = .poll ph got) ∨
      errno ≠ .eagain ∧ (netNoData errno ph got w).1.pc = .down := by
  unfold netNoData
  split_ifs with he
  · exact .inl ⟨he, rfl⟩
  · exact .inr ⟨he, rfl⟩

theorem netRecv_follows {errno : Errno} {ph : Phase} {got : Bytes} {r : RecvResult}
    (h : netRecv E errno ph got w r = some (t', w')) (hc : r = .closed → errno ≠ .eagain) :
    ((PeerEvent.recv r).Closes → t'.pc = .down) ∧
      ((PeerEvent.recv r).Retries → t'.pc = .poll ph got) := by
  cases r with
  | data bytes => exact ⟨fun hcl ↦ hcl.elim, fun hre ↦ by cases hre⟩
  | closed =>
    simp only [netRecv] at h
    split_ifs at h
    rcases netNoData_cases errno ph got w with ⟨he, _⟩ | ⟨_, hpc⟩
    · exact absurd he (hc rfl)
    · rw [Option.some.inj h] at hpc
      exact ⟨fun _ ↦ hpc, fun hre ↦ by cases hre⟩
  | error e =>
    simp only [netRecv] at h
    rcases netNoData_cases e ph got w with ⟨he, hpc⟩ | ⟨he, hpc⟩
    · rw [Option.some.inj h] at hpc
      exact ⟨fun hcl ↦ absurd he hcl, fun _ ↦ hpc⟩
    · rw [Option.some.inj h] at hpc
      exact ⟨fun _ ↦ hpc, fun hre ↦ absurd (by cases hre; rfl) he⟩

theorem recv_pc {r : RecvResult} (hs : netStep E t (.recv r) w = some (t', w')) :
    ∃ ph got, t.pc = .recv ph got := by
  rcases t with ⟨pc, errno⟩
  cases pc with
  | recv ph got => exact ⟨ph, got, rfl⟩
  | process p =>
    cases p with
    | pure x => cases hs
    | call o k =>
      obtain ⟨_, he, _⟩ := Option.map_eq_some_iff.mp hs
      cases o <;> cases he
  | _ => cases hs

end Receiving

section Runs

variable {S : Setup} {s s' : Agent} {es : List PeerEvent} {p : Agent × List PeerEvent} {a : Act}

/-- What the last event of the network thread says about where it stands. -/
structure PeerInv (pc : NetPc) (es : List PeerEvent) : Prop where
  chain : es.IsChain PeerEvent.Follows
  closes : ∀ e ∈ es.getLast?, e.Closes → pc = .down
  retries : ∀ e ∈ es.getLast?, e.Retries → pc.Collecting

theorem PeerInv.silent {pc pc' : NetPc} (h : PeerInv pc es) (hdown : pc ≠ .down)
    (hpc : pc.Collecting → pc'.Collecting) : PeerInv pc' es where
  chain := h.chain
  closes e he hc := absurd (h.closes e he hc) hdown
  retries e he hr := hpc (h.retries e he hr)

theorem PeerInv.dropped {pc : NetPc} (h : PeerInv pc es) (hpc : ¬ pc.Collecting) (pc' : NetPc) :
    PeerInv pc' (es ++ [.dropped]) where
  chain := by
    refine List.isChain_append.mpr ⟨h.chain, .singleton _, fun e he e' he' ↦ ?_⟩
    obtain rfl : .dropped = e' := by simpa using he'
    exact ⟨fun _ ↦ rfl, fun hr ↦ absurd (h.retries e he hr) hpc⟩
  closes e he hc := by
    obtain rfl : .dropped = e := by simpa using he
    exact hc.elim
  retries e he hr := by
    obtain rfl : .dropped = e := by simpa using he
    cases hr

theorem PeerInv.recv {pc pc' : NetPc} {r : RecvResult} (h : PeerInv pc es) (hpc : pc ≠ .down)
    (hcloses : (PeerEvent.recv r).Closes → pc' = .down)
    (hretries : (PeerEvent.recv r).Retries → pc'.Collecting) : PeerInv pc' (es ++ [.recv r]) where
  chain := by
    refine List.isChain_append.mpr ⟨h.chain, .singleton _, fun e he e' he' ↦ ?_⟩
    obtain rfl : .recv r = e' := by simpa using he'
    exact ⟨fun hc ↦ absurd (h.closes e he hc) hpc, fun _ ↦ nofun⟩
  closes e he hc := by
    obtain rfl : .recv r = e := by simpa using he
    exact hcloses hc
  retries e he hr := by
    obtain rfl : .recv r = e := by simpa using he
    exact hretries hr

theorem peerEvents_other {a : Ans} {t : NetThread} {w : World}
    (hs : netStep S.proto s.net a s.w = some (t, w)) (hrecv : ∀ ph got, s.net.pc ≠ .recv ph got)
    (hdown : s.net.pc ≠ .down) (hundo : s.net.pc ≠ .undo) : s.peerEvents (.net a) = [] := by
  cases a with
  | recv r =>
    obtain ⟨ph, got, hpc⟩ := recv_pc hs
    exact absurd hpc (hrecv ph got)
  | _ =>
    simp only [Agent.peerEvents]

theorem PeerInv.net {a : Ans} {t : NetThread} {w : World} (h : PeerInv s.net.pc es)
    (hok : s.closesQuietly (.net a) = false) (hs : netStep S.proto s.net a s.w = some (t, w)) :
    PeerInv t.pc (es ++ s.peerEvents (.net a)) := by
  rcases s with ⟨w₀, ⟨pc, errno⟩, sch, rel⟩
  have hm := netStep_move hs
  cases pc with
  | recv ph got =>
    cases a with
    | recv r =>
      have hc : r = .closed → errno ≠ .eagain := by
        rintro rfl
        simpa [Agent.closesQuietly] using hok
      obtain ⟨hcloses, hretries⟩ := netRecv_follows hs hc
      exact h.recv (by simp) hcloses fun hr ↦ by rw [hretries hr]; trivial
    | _ => cases hs
  | down =>
    cases a with
    | tick => cases hs; exact h.dropped id _
    | _ => cases hs
  | undo =>
    cases a with
    | tick => cases hs; exact h.dropped id _
    | _ => cases hs
  | _ =>
    rw [peerEvents_other hs (by simp) (by simp) (by simp), List.append_nil]
    refine h.silent (by simp) fun hc ↦ ?_
    cases hm <;> trivial

theorem PeerInv.of_reach (h : (peerAgent S).Reach ClosesAloud p) : PeerInv p.1.net.pc p.2 := by
  refine h.watched (I := fun s es ↦ PeerInv s.net.pc es) (fun _ _ ↦ True)
    (fun _ _ _ ↦ trivial) ?_ ?_
  · exact ⟨.nil, nofun, nofun⟩
  intro s es a s' _ hI hok hs
  rcases Agent.net_or hs with ⟨ans, t, w, rfl, hstep, rfl⟩ | ha
  · exact hI.net hok hstep
  · have hnone : s.peerEvents a = [] := by
      cases a with
      | net ans => exact absurd rfl (ha ans)
      | _ => rfl
    have hnet : s'.net = s.net := by
      cases Agent.step_move hs with
      | net => exact absurd rfl (ha _)
      | release hm => cases hm <;> rfl
      | _ => rfl
    rw [hnone, hnet, List.append_nil]
    exact hI

/-- Where the peer never closes a connection while the last error was one to
wait for, every result of `recv` that is 0 or another error is followed by
`net_not_connected` before `recv` is called again, and only one to wait for is
followed by another try. A close goes unnoticed exactly where it finds such an
error. -/
theorem closed_peer_detected :
    (∀ p, (peerAgent S).Reach ClosesAloud p → p.2.IsChain PeerEvent.Follows) ∧
    ∀ (t t' : NetThread) (w w' : World) (ph : Phase) (got : Bytes), t.pc = .recv ph got →
      netStep S.proto t (.recv .closed) w = some (t', w') →
      (t'.pc = .down ↔ t.errno ≠ .eagain) ∧ (t' = ⟨.poll ph got, t.errno⟩ ↔ t.errno = .eagain) := by
  refine ⟨fun p h ↦ (PeerInv.of_reach h).chain, fun t t' w w' ph got hpc hs ↦ ?_⟩
  rcases t with ⟨pc, errno⟩
  obtain rfl : pc = .recv ph got := hpc
  simp only [netStep, netRecv] at hs
  split_ifs at hs
  unfold netNoData at hs
  split_ifs at hs with he <;> cases hs <;> simp [he]

def resetRun : List Act :=
  Sample.connect 3 ++ [.net (.recv (.error .eagain)), .net .tick] ++ Sample.reset ++
    Sample.connect 4 ++ [.net (.recv .closed), .net .tick]

theorem closed_peer_detected_reset : ∃ p, (peerAgent Sample.setup).Reach ClosesAloud p ∧
    p.2.getLast? = some .dropped ∧ p.2.IsChain PeerEvent.Follows := by
  have hr := (peerAgent Sample.setup).reach_get ClosesAloud resetRun (by decide +kernel)
  obtain ⟨hchain, _⟩ := closed_peer_detected
  exact ⟨_, hr, by decide +kernel, hchain _ hr⟩

def quietRun : List Act :=
  Sample.connect 3 ++ [.net (.recv (.error .eagain)), .net .tick, .net (.recv .closed), .net .tick,
    .net (.recv .closed)]

theorem closed_peer_unnoticed : ¬ ∀ p, (peerAgent Sample.setup).Reachable p →
    p.2.IsChain PeerEvent.Follows := by
  intro h
  have hr := (peerAgent Sample.setup).reach_get (fun _ _ ↦ True) quietRun (by decide +kernel)
  have hchain := h _ hr
  revert hchain
  decide +kernel

end Runs

end EmpowerAgent
