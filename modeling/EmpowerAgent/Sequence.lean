import EmpowerAgent.Outgoing
import EmpowerAgent.Connection
import EmpowerAgent.TriggerRuns

namespace EmpowerAgent

open Library.Proc (Obeys)

namespace Agent

def opens (s : Agent) : Act → Bool
  | .net (.fd n) => match s.net.pc with | .socket => s.w.net.sockfd < 0 && 0 ≤ n | _ => false
  | _ => false

def sending (s : Agent) : Bool :=
  match s.sch with | .perform _ _ (.call (.netSend _) _) => true | _ => false

end Agent

/-- The counter is reset only with the socket closed, and a socket is opened
only where a number already taken was taken after the reset. -/
def NumberKept (s : Agent) (a : Act) : Prop :=
  (s.disconnects a = true → s.w.net.sockfd ≠ 0) ∧
    (s.opens a = true → s.sending = true → s.w.net.seq ≠ 0)

instance (s : Agent) (a : Act) : Decidable (NumberKept s a) := instDecidableAnd

section Counting

variable {w w' : World}

def World.sends (w : World) : ℕ := if 0 ≤ w.net.sockfd then (w.messages w.socks).length else 0

/-- The messages of each socket are numbered from 0, and the sockets to come
have none. -/
structure World.InOrder (E : Emproto) (w : World) : Prop where
  numbers : ∀ k i msg, (w.messages k)[i]? = some msg → ∃ m, msg = E.epfSeq m (.ofNat i)
  later : ∀ k, w.socks < k → w.messages k = []

/-- Where the counter stands, by how far a job has come with its sending. A
number taken is the next one, or the socket is gone that it was taken for. -/
def World.Counts (w : World) : SendPhase → Prop
  | .before | .after false => w.net.seq = .ofNat w.sends
  | .taken n => n = .ofNat w.sends ∧ w.net.seq = .ofNat (w.sends + 1) ∨
      w.net.sockfd < 0 ∧ w.net.seq = 0
  | .after true => True

structure Unsent (w w' : World) : Prop where
  net : (0 ≤ w'.net.sockfd ↔ 0 ≤ w.net.sockfd) ∧ w'.net.seq = w.net.seq
  socks : w'.socks = w.socks
  messages : ∀ k, w'.messages k = w.messages k

namespace Unsent

theorem of_extends (hn : (0 ≤ w'.net.sockfd ↔ 0 ≤ w.net.sockfd) ∧ w'.net.seq = w.net.seq)
    (hs : w'.socks = w.socks) (hx : Extends Event.OffSends w w') : Unsent w w' :=
  ⟨hn, hs, messages_of_extends hx⟩

theorem sends (h : Unsent w w') : w'.sends = w.sends := by
  simp only [World.sends, h.net.1, h.socks, h.messages]

theorem inOrder {E : Emproto} (h : Unsent w w') (ho : w.InOrder E) : w'.InOrder E where
  numbers k i msg := by
    rw [h.messages]
    exact ho.numbers k i msg
  later k := by
    rw [h.socks, h.messages]
    exact ho.later k

theorem counts (h : Unsent w w') {ph : SendPhase} (hc : w.Counts ph) : w'.Counts ph := by
  have hneg : w'.net.sockfd < 0 ↔ w.net.sockfd < 0 := by
    have hpos := h.net.1
    omega
  unfold World.Counts at hc ⊢
  simp only [h.net.2, h.sends, hneg]
  exact hc

end Unsent

theorem Effect.unsent {o : Op} {r : o.Res} (h : Effect o w r w') (hseq : o ≠ .netNextSeq)
    (hsend : ∀ msg, o ≠ .netSend msg) : Unsent w w' := by
  cases h with
  | netNextSeq => exact absurd rfl hseq
  | sent | sendFailed => exact absurd rfl (hsend _)
  | accepted | trigAdd | callback => exact .of_extends ⟨Iff.rfl, rfl⟩ rfl (.event rfl fun _ ↦ rfl)
  | _ => exact .of_extends ⟨Iff.rfl, rfl⟩ rfl (.silent rfl)

theorem messages_netNotConnected (w : World) (k : ℕ) :
    w.netNotConnected.messages k = w.messages k :=
  messages_of_extends (.netNotConnected w (fun _ _ ↦ rfl) fun _ _ ↦ rfl) k

theorem World.InOrder.netNotConnected {E : Emproto} (h : w.InOrder E) :
    w.netNotConnected.InOrder E where
  numbers k i msg := by
    rw [messages_netNotConnected]
    exact h.numbers k i msg
  later k hk := by
    rw [messages_netNotConnected]
    exact h.later k hk

theorem netNotConnected_sockfd (hfd : w.net.sockfd ≠ 0) : w.netNotConnected.net.sockfd < 0 := by
  simp only [World.netNotConnected]
  split_ifs <;> omega

theorem netNotConnected_sends (hfd : w.net.sockfd ≠ 0) : w.netNotConnected.sends = 0 := by
  have hneg := netNotConnected_sockfd hfd
  exact if_neg (by omega)

theorem World.Counts.netNotConnected {ph : SendPhase} (hfd : w.net.sockfd ≠ 0) :
    w.netNotConnected.Counts ph := by
  have hsends := netNotConnected_sends hfd
  cases ph with
  | before => exact congrArg UInt32.ofNat hsends.symm
  | taken n => exact .inr ⟨netNotConnected_sockfd hfd, rfl⟩
  | after failed =>
    cases failed with
    | false => exact congrArg UInt32.ofNat hsends.symm
    | true => trivial

def World.openSocket (w : World) (n : ℤ) : World :=
  { w with
    net := { w.net with sockfd := n }
    socks := w.socks + 1
    hist := w.hist ++ [.opened n] }

theorem messages_openSocket (w : World) (n : ℤ) (k : ℕ) :
    (w.openSocket n).messages k = w.messages k :=
  messages_of_extends (.event rfl fun _ ↦ rfl) k

theorem World.InOrder.openSocket {E : Emproto} (h : w.InOrder E) (n : ℤ) :
    (w.openSocket n).InOrder E where
  numbers k i msg := by
    rw [messages_openSocket]
    exact h.numbers k i msg
  later k hk := by
    rw [messages_openSocket]
    exact h.later k (Nat.lt_of_succ_lt hk)

theorem World.Counts.openSocket {E : Emproto} {ph : SendPhase} {n : ℤ} (h : w.Counts ph)
    (ho : w.InOrder E) (hfd : w.net.sockfd < 0)
    (hnew : ∀ r, ph = .taken r → w.net.seq ≠ 0) : (w.openSocket n).Counts ph := by
  have hsends : w.sends = 0 := if_neg (by omega)
  have hsends' : (w.openSocket n).sends = 0 := by
    have hnil : (w.openSocket n).messages (w.openSocket n).socks = [] := by
      rw [messages_openSocket]
      exact ho.later _ (Nat.lt_succ_self _)
    rw [World.sends, hnil]
    split_ifs <;> rfl
  have hseq : (w.openSocket n).net.seq = w.net.seq := rfl
  unfold World.Counts at h ⊢
  rw [hsends', hseq]
  rw [hsends] at h
  cases ph with
  | taken r =>
    rcases h with h | ⟨_, hzero⟩
    · exact .inl h
    · exact absurd hzero (hnew r rfl)
  | before => exact h
  | after failed => cases failed <;> exact h

theorem World.Counts.netNextSeq (h : w.Counts .before) :
    w.netNextSeq.2.Counts (.taken w.netNextSeq.1) := by
  refine .inl ⟨h, ?_⟩
  rw [UInt32.ofNat_add]
  exact congrArg (· + 1) h

theorem messages_sent (w : World) (msg : Bytes) (n k : ℕ) :
    (w.log (.sent w.socks msg n)).messages k =
      w.messages k ++ if w.socks = k then [msg] else [] := by
  simp only [World.messages, World.log, List.filterMap_append, Event.messageOn,
    List.filterMap_cons, List.filterMap_nil]
  split_ifs <;> rfl

theorem World.InOrder.sent {E : Emproto} (h : w.InOrder E) (hpos : 0 ≤ w.net.sockfd)
    (m : Bytes) (n : ℕ) :
    (w.log (.sent w.socks (E.epfSeq m (.ofNat w.sends)) n)).InOrder E := by
  have hsends : w.sends = (w.messages w.socks).length := if_pos hpos
  constructor
  · intro k i msg hmsg
    rw [messages_sent] at hmsg
    split_ifs at hmsg with hk
    · subst hk
      rcases Nat.lt_trichotomy i (w.messages w.socks).length with hlt | rfl | hgt
      · rw [List.getElem?_append_left hlt] at hmsg
        exact h.numbers _ i msg hmsg
      · rw [List.getElem?_concat_length, hsends] at hmsg
        exact ⟨m, (Option.some.inj hmsg).symm⟩
      · rw [List.getElem?_eq_none (by rw [List.length_append]; exact hgt)] at hmsg
        cases hmsg
    · rw [List.append_nil] at hmsg
      exact h.numbers k i msg hmsg
  · intro k hk
    have hne : w.socks ≠ k := Nat.ne_of_lt hk
    rw [messages_sent, if_neg hne, List.append_nil]
    exact h.later k hk

theorem World.Counts.sent {n : UInt32} (h : w.Counts (.taken n)) (hpos : 0 ≤ w.net.sockfd)
    (msg : Bytes) (len : ℕ) : n = .ofNat w.sends ∧
      (w.log (.sent w.socks msg len)).Counts (.after false) := by
  rcases h with ⟨hn, hseq⟩ | ⟨hneg, _⟩
  · refine ⟨hn, ?_⟩
    have hsends : (w.log (.sent w.socks msg len)).sends = w.sends + 1 := by
      have hw : w.sends = (w.messages w.socks).length := if_pos hpos
      have hw' : (w.log (.sent w.socks msg len)).sends =
          ((w.log (.sent w.socks msg len)).messages w.socks).length := if_pos hpos
      rw [hw', hw, messages_sent, if_pos rfl, List.length_append]
      rfl
    unfold World.Counts
    rw [hsends]
    exact hseq
  · omega

end Counting

section Runs

variable {S : Setup} {s : Agent} {w w' : World}

def SchPc.Counts (S : Setup) (w : World) : SchPc → Prop
  | .perform task _ p => ∃ t, Obeys (jobProtocol S task) (JobPost S task) t p ∧ w.Counts t.send
  | .settle _ _ .netError | .flush | .alert | .down => True
  | _ => w.Counts .before

def SchPc.Sending (pc : SchPc) : Prop :=
  ∃ task now msg k, pc = .perform task now (.call (.netSend msg) k)

theorem SchPc.Counts.frame {pc : SchPc} (h : pc.Counts S w)
    (hw : ∀ ph, (∀ n, ph = .taken n → pc.Sending) → w.Counts ph → w'.Counts ph) :
    pc.Counts S w' := by
  cases pc with
  | perform task now p =>
    obtain ⟨t, hobeys, hc⟩ := h
    refine ⟨t, hobeys, hw _ (fun n hn ↦ ?_) hc⟩
    obtain ⟨msg, k, rfl⟩ := sends_of_taken hn hobeys
    exact ⟨task, now, msg, k, rfl⟩
  | settle task now op =>
    cases op with
    | netError => trivial
    | _ => exact hw .before nofun h
  | flush | alert | down => trivial
  | _ => exact hw .before nofun h

structure SeqInv (S : Setup) (w : World) (pc : SchPc) : Prop where
  order : w.InOrder S.proto
  counts : pc.Counts S w

theorem SeqInv.unsent {pc : SchPc} (h : SeqInv S w pc) (hu : Unsent w w') : SeqInv S w' pc :=
  ⟨hu.inOrder h.order, h.counts.frame fun _ _ ↦ hu.counts⟩

theorem SeqInv.reset {pc : SchPc} (h : SeqInv S w pc) (hfd : w.net.sockfd ≠ 0) :
    SeqInv S w.netNotConnected pc :=
  ⟨h.order.netNotConnected, h.counts.frame fun _ _ _ ↦ .netNotConnected hfd⟩

theorem SeqInv.openSocket {pc : SchPc} (h : SeqInv S w pc) (n : ℤ) (hfd : w.net.sockfd < 0)
    (hnew : pc.Sending → w.net.seq ≠ 0) : SeqInv S (w.openSocket n) pc := by
  refine ⟨h.order.openSocket n, h.counts.frame fun ph hsend hc ↦ ?_⟩
  exact hc.openSocket h.order hfd fun r hr ↦ hnew (hsend r hr)

theorem SeqInv.netMove {E : Emproto} {t t' : NetThread} {pc : SchPc} (h : SeqInv S w pc)
    (hm : NetMove E t w t' w') (hh : Handling t.pc)
    (hreset : t.pc = .down ∨ t.pc = .undo → w.net.sockfd ≠ 0)
    (hopen : t.pc = .socket → w'.socks ≠ w.socks → pc.Sending → w.net.seq ≠ 0) :
    SeqInv S w' pc := by
  cases hm with
  | socketFail hneg =>
    have hsign : 0 ≤ (-1 : ℤ) ↔ 0 ≤ w.net.sockfd := by omega
    exact h.unsent (.of_extends ⟨hsign, rfl⟩ rfl (.silent rfl))
  | socketOpen hneg _ => exact h.openSocket _ hneg (hopen rfl (Nat.succ_ne_self _))
  | undo => exact h.reset (hreset (.inr rfl))
  | down => exact h.reset (hreset (.inl rfl))
  | handler he =>
    obtain ⟨own, hobeys⟩ := hh
    refine h.unsent (he.unsent ?_ ?_)
    · rintro rfl
      cases hobeys.1
    · rintro msg rfl
      cases hobeys.1
  | helloAdd | recvMore | recvDrop | recvFail =>
    exact h.unsent (.of_extends ⟨Iff.rfl, rfl⟩ rfl (.event rfl fun _ ↦ rfl))
  | recvMessage =>
    refine h.unsent (.of_extends ⟨Iff.rfl, rfl⟩ rfl (.trans (.log w _ ?_) (.log _ _ ?_))) <;>
      exact fun _ ↦ rfl
  | _ => exact h.unsent (.of_extends ⟨Iff.rfl, rfl⟩ rfl (.silent rfl))

theorem SeqInv.op {task : Emtask} {now : Timespec} {o : Op} {k : o.Res → Proc Outcome}
    {r : o.Res} (h : SeqInv S w (.perform task now (.call o k))) (he : Effect o w r w') :
    SeqInv S w' (.perform task now (k r)) := by
  obtain ⟨horder, t, hobeys, hc⟩ := h
  cases o with
  | netNextSeq =>
    cases he
    rw [JobPhase.send_before hobeys.1 (by simp)] at hc
    exact ⟨⟨horder.numbers, horder.later⟩, _, hobeys.2 _, hc.netNextSeq⟩
  | netSend msg =>
    obtain ⟨seq, m, hsend, rfl, _⟩ := JobPhase.send_taken hobeys.1
    rw [hsend] at hc
    refine ⟨?_, _, hobeys.2 r, ?_⟩
    · cases he with
      | sendFailed => exact horder
      | sent _ _ hpos =>
        rw [(hc.sent hpos [] 0).1]
        exact horder.sent hpos m _
    · cases he with
      | sendFailed hn =>
        simp only [jobProtocol, decide_eq_true hn]
        trivial
      | sent hn _ hpos =>
        simp only [jobProtocol, decide_eq_false (Int.not_lt.mpr hn)]
        exact (hc.sent hpos _ _).2
  | _ =>
    have hu : Unsent w w' := he.unsent (by simp) (by simp)
    exact ⟨hu.inOrder horder, _, hobeys.2 r, hu.counts hc⟩

theorem SeqInv.returned {task : Emtask} {now : Timespec} {op : Outcome}
    (h : SeqInv S w (.perform task now (.pure op))) : SeqInv S w (.settle task now op) := by
  obtain ⟨horder, t, hpost, hc⟩ := h
  refine ⟨horder, ?_⟩
  have hfailed := hpost.failed
  have hbefore : op ≠ .netError → w.Counts .before := by
    intro hop
    cases hsend : t.send with
    | before => rwa [hsend] at hc
    | taken n => exact absurd hsend (hpost.sent n)
    | after failed =>
      cases failed with
      | false => rwa [hsend] at hc
      | true => exact absurd (hfailed.mpr hsend) hop
  cases op with
  | netError => trivial
  | _ => exact hbefore nofun

def SchPc.Aside : SchPc → Prop
  | .perform _ _ _ | .down => False
  | _ => True

theorem SchMove.unsent {pc pc' : SchPc} (hm : SchMove S pc w pc' w') (hpc : pc.Aside) :
    Unsent w w' := by
  cases hm with
  | op | returned | down => cases hpc
  | consumed => exact .of_extends ⟨Iff.rfl, rfl⟩ rfl (.event rfl fun _ ↦ rfl)
  | netError | drain => exact .of_extends ⟨Iff.rfl, rfl⟩ rfl (.freed rfl fun _ _ ↦ rfl)
  | alert =>
    split_ifs
    · exact .of_extends ⟨Iff.rfl, rfl⟩ rfl (.event rfl fun _ ↦ rfl)
    · exact .of_extends ⟨Iff.rfl, rfl⟩ rfl (.silent rfl)
  | _ => exact .of_extends ⟨Iff.rfl, rfl⟩ rfl (.silent rfl)

theorem SeqInv.schMove {pc pc' : SchPc} (h : SeqInv S w pc) (hm : SchMove S pc w pc' w')
    (hreset : pc = .down → w.net.sockfd ≠ 0) : SeqInv S w' pc' := by
  have hkeep (hpc : pc.Aside) : SeqInv S w' pc := h.unsent (hm.unsent hpc)
  cases hm with
  | clock => exact ⟨h.order, .init, schedPerformJob_obeys _, h.counts⟩
  | op he => exact h.op he
  | @returned _ task _ op =>
    have hu : Unsent w (w.log (.performed task.addr op)) :=
      .of_extends ⟨Iff.rfl, rfl⟩ rfl (.event rfl fun _ ↦ rfl)
    exact (h.unsent hu).returned
  | down =>
    have hc : w.netNotConnected.Counts .before := .netNotConnected (hreset rfl)
    exact ⟨h.order.netNotConnected, hc⟩
  | netError | flush | alert => exact ⟨(hkeep trivial).order, trivial⟩
  | _ => exact ⟨(hkeep trivial).order, (hkeep trivial).counts⟩

theorem opens_of_step {a : Act} {s' : Agent} (h : (agent S).step s a = some s')
    (hpc : s.net.pc = .socket) (hsocks : s'.w.socks ≠ s.w.socks) (ha : ∃ ans, a = .net ans) :
    s.opens a = true := by
  obtain ⟨ans, rfl⟩ := ha
  obtain ⟨⟨t, w⟩, hs, rfl⟩ := Option.map_eq_some_iff.mp h
  have hs : netSocket s.net.errno s.w ans = some (t, w) := by
    unfold netStep at hs
    rwa [hpc] at hs
  cases ans with
  | fd n =>
    simp only [netSocket] at hs
    split_ifs at hs with hfd
    simp [Agent.opens, hpc, hfd]
  | tick | fails =>
    simp only [netSocket] at hs
    split_ifs at hs
    cases hs
    exact absurd rfl hsocks
  | _ => cases hs

theorem SeqInv.of_reach (h : (agent S).Reach NumberKept s) : SeqInv S s.w s.sch := by
  refine h.invariant (I := fun s ↦ SeqInv S s.w s.sch) ?_ ?_
  · exact ⟨⟨nofun, fun _ _ ↦ rfl⟩, rfl⟩
  intro s a s' hr hI hok hs
  obtain ⟨hreset, hopen⟩ := hok
  cases Agent.step_move hs with
  | net hm =>
    refine hI.netMove hm (conduct hr.reachable).2 ?_ ?_
    · intro hpc
      apply hreset
      rcases hpc with hpc | hpc <;> simp only [Agent.disconnects, hpc]
    · intro hpc hsocks hsend
      obtain ⟨task, now, msg, k, hsch⟩ := hsend
      refine hopen (opens_of_step hs hpc hsocks ⟨_, rfl⟩) ?_
      simp only [Agent.sending, hsch]
  | sched _ hm =>
    refine hI.schMove hm ?_
    intro hpc
    apply hreset
    simp only [Agent.disconnects, hpc]
  | api hr =>
    cases apiCall_move hr with
    | emSendQueued => exact hI.unsent (.of_extends ⟨Iff.rfl, rfl⟩ rfl (.event rfl fun _ ↦ rfl))
    | _ => exact hI.unsent (.of_extends ⟨Iff.rfl, rfl⟩ rfl (.silent rfl))
  | release hm =>
    cases hm <;> exact hI.unsent (.of_extends ⟨Iff.rfl, rfl⟩ rfl (.silent rfl))

/-- Where no number outlives its socket, the messages sent on a socket carry
the numbers 0, 1, 2, ..., modulo the width of the counter. -/
theorem sequence_numbers (h : (agent S).Reach NumberKept s) (k i : ℕ) (msg : Bytes)
    (hmsg : (s.w.messages k)[i]? = some msg) : ∃ m, msg = S.proto.epfSeq m (.ofNat i) :=
  (SeqInv.of_reach h).order.numbers k i msg hmsg

def twoMessagesRun : List Act :=
  Sample.connect 3 ++ [Sample.emSend [0, 6, 0, 0, 0, 9]] ++ Sample.performSend 6 ++
    (Sample.performSend 6).tail

theorem sequence_numbers_two : ∃ s msg, (agent Sample.setup).Reach NumberKept s ∧
    (s.w.messages 1)[1]? = some msg ∧ ∃ m, msg = Sample.proto.epfSeq m (.ofNat 1) := by
  have hr := (agent Sample.setup).reach_get NumberKept twoMessagesRun (by decide +kernel)
  exact ⟨_, [0, 6, 0, 0, 0, 1], hr, by decide +kernel,
    sequence_numbers hr 1 1 [0, 6, 0, 0, 0, 1] (by decide +kernel)⟩

def staleRun : List Act :=
  Sample.connect 3 ++ [Sample.emSend [0, 6, 0, 0, 0, 9]] ++ Sample.performSend 6 ++
    (Sample.performSend 6).tail.take 3 ++ Sample.reset ++ Sample.connect 4 ++ [.sched (.sent 6)]

theorem sequence_number_stale : ¬ ∀ s, (agent Sample.setup).Reachable s → ∀ k i msg,
    (s.w.messages k)[i]? = some msg → ∃ m, msg = Sample.proto.epfSeq m (.ofNat i) := by
  intro h
  have hr := (agent Sample.setup).reach_get (fun _ _ ↦ True) staleRun (by decide +kernel)
  obtain ⟨m, hm⟩ := h _ hr 2 0 [0, 6, 0, 0, 0, 1] (by decide +kernel)
  have hlast := congrArg (·[5]?) hm
  simp only [Sample.proto, List.getElem?_set] at hlast
  revert hlast
  split_ifs <;> decide

end Runs

end EmpowerAgent
