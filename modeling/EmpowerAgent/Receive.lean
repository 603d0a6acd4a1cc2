import EmpowerAgent.Connection
import EmpowerAgent.Library.Framing

namespace EmpowerAgent

open Library (Framing)

def Emproto.framing (E : Emproto) : Framing UInt8 := ⟨E.epHeaderSize, E.header_pos, E.eppMsgLength⟩

namespace Event

def receivedOn (c : ℕ) : Event → Option Bytes
  | .received c' bytes => if c' = c then some bytes else none
  | _ => none

def handledOn (c : ℕ) : Event → Option Bytes
  | .handled c' msg => if c' = c then some msg else none
  | _ => none

variable {c : ℕ} {e : Event}

theorem receivedOn_of_local (h : e.Local) : e.receivedOn c = none := by
  cases e <;> first | rfl | cases h

theorem handledOn_of_local (h : e.Local) : e.handledOn c = none := by
  cases e <;> first | rfl | cases h

end Event

namespace World

def received (w : World) (c : ℕ) : Bytes := (w.hist.filterMap (Event.receivedOn c)).flatten

def handled (w : World) (c : ℕ) : List Bytes := w.hist.filterMap (Event.handledOn c)

variable (w : World)

theorem received_log_received (c : ℕ) (bytes : Bytes) :
    (w.log (.received w.conns bytes)).received c =
      if w.conns = c then w.received c ++ bytes else w.received c := by
  simp only [received, log, List.filterMap_append, List.flatten_append]
  split_ifs with h <;> simp [Event.receivedOn, h]

theorem handled_log_received (c : ℕ) (bytes : Bytes) :
    (w.log (.received w.conns bytes)).handled c = w.handled c := by
  simp [handled, log, Event.handledOn]

theorem received_log_handled (c : ℕ) (msg : Bytes) :
    (w.log (.handled w.conns msg)).received c = w.received c := by
  simp [received, log, Event.receivedOn]

theorem handled_log_handled (c : ℕ) (msg : Bytes) :
    (w.log (.handled w.conns msg)).handled c =
      if w.conns = c then w.handled c ++ [msg] else w.handled c := by
  simp only [handled, log, List.filterMap_append]
  split_ifs with h <;> simp [Event.handledOn, h]

end World

section Quiet

variable {w w' : World}

theorem Quiet.received (h : Quiet w w') (c : ℕ) : w'.received c = w.received c :=
  congrArg List.flatten (h.hist.mono fun _ ↦ Event.receivedOn_of_local).filterMap_eq

theorem Quiet.handled (h : Quiet w w') (c : ℕ) : w'.handled c = w.handled c :=
  (h.hist.mono fun _ ↦ Event.handledOn_of_local).filterMap_eq

end Quiet

section Invariant

variable (E : Emproto)

/-- Where the collecting loops stand in the message they are reading. -/
def PhaseOk : Phase → Bytes → Prop
  | .header, got => got.length < E.epHeaderSize
  | .body mlen, got => E.epHeaderSize ≤ got.length ∧ (got.length : ℤ) < mlen ∧
      E.eppMsgLength (got.take E.epHeaderSize) = mlen

/-- What the place of the network thread tells of the bytes `p` that follow
the last message handled on the connection. -/
def RecvPc (w : World) (p : Bytes) : NetPc → Prop
  | .next => w.net.status = .connected → p = []
  | .socket | .resolve | .again | .connect => w.net.status = .notConnected
  | .hello | .store | .undo | .process _ => p = []
  | .poll ph got | .recv ph got => p = got ∧ PhaseOk E ph got
  | .down => .recvFailed w.conns ∈ w.hist ∨ E.framing.Malformed p
  | .exit => w.net.status = .notConnected ∨ ¬ E.framing.Malformed p

/-- The stream received on a connection is cut into the messages handled and
a rest that no message begins. Nothing is read beyond a malformed header. -/
structure Cut (c : ℕ) (w : World) (p : Bytes) : Prop where
  stream : w.received c = (w.handled c).flatten ++ p
  frames : ∀ m ∈ w.handled c, E.framing.Frame m
  rest : E.framing.Open p
  stopped : E.framing.Malformed p → p.length = E.epHeaderSize

def NoFuture (w : World) : Prop := ∀ c, w.conns < c → w.received c = [] ∧ w.handled c = []

structure RecvInv (pc : NetPc) (w : World) : Prop where
  future : NoFuture w
  cut : ∃ p, Cut E w.conns w p ∧ RecvPc E w p pc

variable {E} {ph ph' : Phase} {got bytes : Bytes}

theorem PhaseOk.pending (h : PhaseOk E ph got) : E.framing.Pending got := by
  cases ph with
  | header => exact .inl h
  | body mlen =>
    obtain ⟨_, hlt, hm⟩ := h
    exact .inr (by simpa only [Emproto.framing, hm] using hlt)

theorem PhaseOk.not_malformed (h : PhaseOk E ph got) : ¬ E.framing.Malformed got := by
  intro hbad
  obtain ⟨hle, hlt⟩ := hbad
  cases ph with
  | header => exact absurd hle (Nat.not_le_of_lt h)
  | body mlen =>
    obtain ⟨h₁, h₂, h₃⟩ := h
    simp only [Emproto.framing] at hlt
    omega

theorem PhaseOk.asked (h : PhaseOk E ph got) : 0 < netAsked E ph got := by
  cases ph with
  | header => exact Nat.sub_pos_of_lt h
  | body mlen =>
    have := h.2.1
    simp only [netAsked]
    omega

theorem collect_cases (h : PhaseOk E ph got) (hle : bytes.length ≤ netAsked E ph got) :
    (got ++ bytes).length < E.epHeaderSize ∧ netCollect E ph (got ++ bytes) = .more .header ∨
    E.epHeaderSize ≤ (got ++ bytes).length ∧
      ((got ++ bytes).length = E.epHeaderSize ∨ ((got ++ bytes).length : ℤ) ≤
        E.eppMsgLength ((got ++ bytes).take E.epHeaderSize)) ∧
      netCollect E ph (got ++ bytes) =
        netCollectBody (E.eppMsgLength ((got ++ bytes).take E.epHeaderSize)) (got ++ bytes) := by
  cases ph with
  | header =>
    have hlen : (got ++ bytes).length ≤ E.epHeaderSize := by
      have : got.length < E.epHeaderSize := h
      simp only [netAsked, List.length_append] at hle ⊢
      omega
    by_cases hlt : (got ++ bytes).length < E.epHeaderSize
    · exact .inl ⟨hlt, by simp only [netCollect, if_pos hlt]⟩
    · have heq : (got ++ bytes).length = E.epHeaderSize := by omega
      refine .inr ⟨by omega, .inl heq, ?_⟩
      rw [List.take_of_length_le (by omega)]
      simp [netCollect, heq]
  | body mlen =>
    obtain ⟨h₁, h₂, h₃⟩ := h
    have ht : (got ++ bytes).take E.epHeaderSize = got.take E.epHeaderSize :=
      List.take_append_of_le_length h₁
    refine .inr ⟨by simp only [List.length_append]; omega, .inr ?_, ?_⟩
    · rw [ht, h₃]
      simp only [netAsked, List.length_append] at hle ⊢
      omega
    · rw [ht, h₃]
      rfl

theorem netCollect_more (h : PhaseOk E ph got) (hle : bytes.length ≤ netAsked E ph got)
    (hc : netCollect E ph (got ++ bytes) = .more ph') : PhaseOk E ph' (got ++ bytes) := by
  rcases collect_cases h hle with ⟨hlt, he⟩ | ⟨hge, _, he⟩
  · rw [he] at hc
    cases hc
    exact hlt
  · rw [he] at hc
    unfold netCollectBody at hc
    split_ifs at hc with hlt
    cases hc
    exact ⟨hge, hlt, rfl⟩

theorem netCollect_drop (h : PhaseOk E ph got) (hle : bytes.length ≤ netAsked E ph got)
    (hc : netCollect E ph (got ++ bytes) = .drop) :
    E.framing.Malformed (got ++ bytes) ∧ (got ++ bytes).length = E.epHeaderSize := by
  rcases collect_cases h hle with ⟨_, he⟩ | ⟨hge, hm, he⟩
  · rw [he] at hc
    cases hc
  · rw [he] at hc
    unfold netCollectBody at hc
    split_ifs at hc with hlt hne
    have hlen : (got ++ bytes).length = E.epHeaderSize := by omega
    have hlt : E.eppMsgLength ((got ++ bytes).take E.epHeaderSize) < E.epHeaderSize := by omega
    exact ⟨⟨hge, hlt⟩, hlen⟩

theorem netCollect_message (h : PhaseOk E ph got) (hle : bytes.length ≤ netAsked E ph got)
    (hc : netCollect E ph (got ++ bytes) = .message) : E.framing.Frame (got ++ bytes) := by
  rcases collect_cases h hle with ⟨_, he⟩ | ⟨hge, _, he⟩
  · rw [he] at hc
    cases hc
  · rw [he] at hc
    unfold netCollectBody at hc
    split_ifs at hc with hlt heq
    exact ⟨hge, (not_not.mp heq).symm⟩

theorem cut_empty (E : Emproto) {c : ℕ} {w : World} (hr : w.received c = [])
    (hh : w.handled c = []) : Cut E c w [] where
  stream := by simp [hr, hh]
  frames := by simp [hh]
  rest := Library.Framing.open_nil
  stopped h := absurd h.1 (Nat.not_le_of_lt E.framing.header_pos)

section Preservation

variable {pc pc' : NetPc} {w w' : World}

theorem RecvPc.of_quiet {p : Bytes} (h : RecvPc E w p pc) (hq : Quiet w w') :
    RecvPc E w' p pc := by
  have hdown (hs : w.net.status = .notConnected) : w'.net.status = .notConnected := by
    cases hs' : w'.net.status with
    | notConnected => rfl
    | connected => rw [hq.status hs'] at hs; cases hs
  cases pc with
  | next => exact fun hs ↦ h (hq.status hs)
  | socket | resolve | again | connect => exact hdown h
  | exit => exact h.imp_left hdown
  | down =>
    simp only [RecvPc, hq.conns] at h ⊢
    exact h.imp_left hq.hist.mem
  | _ => exact h

theorem Cut.of_quiet {c : ℕ} {p : Bytes} (h : Cut E c w p) (hq : Quiet w w') :
    Cut E c w' p where
  stream := by rw [hq.received, hq.handled, h.stream]
  frames := by rw [hq.handled]; exact h.frames
  rest := h.rest
  stopped := h.stopped

theorem RecvInv.of_quiet (h : RecvInv E pc w) (hq : Quiet w w')
    (hpc : ∀ p, RecvPc E w p pc → RecvPc E w' p pc') : RecvInv E pc' w' where
  future c hc := by
    rw [hq.received, hq.handled]
    exact h.future c (hq.conns ▸ hc)
  cut := by
    obtain ⟨p, hp, hpp⟩ := h.cut
    rw [hq.conns]
    exact ⟨p, hp.of_quiet hq, hpc p hpp⟩

theorem RecvInv.frame (h : RecvInv E pc w) (hq : Quiet w w') : RecvInv E pc w' :=
  h.of_quiet hq fun _ hp ↦ hp.of_quiet hq

theorem Cut.received {p : Bytes} (h : Cut E w.conns w p) (hopen : E.framing.Open (p ++ bytes))
    (hstop : E.framing.Malformed (p ++ bytes) → (p ++ bytes).length = E.epHeaderSize) :
    Cut E w.conns (w.log (.received w.conns bytes)) (p ++ bytes) where
  stream := by
    rw [w.received_log_received, if_pos rfl, w.handled_log_received, h.stream, List.append_assoc]
  frames := by
    rw [w.handled_log_received]
    exact h.frames
  rest := hopen
  stopped := hstop

theorem Cut.message {p : Bytes} (h : Cut E w.conns w p) (hm : E.framing.Frame (p ++ bytes)) :
    Cut E w.conns
      ((w.log (.received w.conns bytes)).log (.handled w.conns (p ++ bytes))) [] where
  stream := by
    have hr := World.received_log_handled (w.log (.received w.conns bytes)) w.conns (p ++ bytes)
    have hh := World.handled_log_handled (w.log (.received w.conns bytes)) w.conns (p ++ bytes)
    simp only [World.log_conns, ↓reduceIte, w.received_log_received,
      w.handled_log_received] at hr hh
    rw [hr, hh, h.stream]
    simp
  frames := by
    have hh := World.handled_log_handled (w.log (.received w.conns bytes)) w.conns (p ++ bytes)
    simp only [World.log_conns, ↓reduceIte, w.handled_log_received] at hh
    rw [hh]
    intro m hmem
    rcases List.mem_append.mp hmem with hmem | hmem
    · exact h.frames m hmem
    · exact List.mem_singleton.mp hmem ▸ hm
  rest := Library.Framing.open_nil
  stopped hm := absurd hm.1 (Nat.not_le_of_lt E.framing.header_pos)

theorem NoFuture.received (h : NoFuture w) : NoFuture (w.log (.received w.conns bytes)) := by
  intro c hc
  have hne : w.conns ≠ c := Nat.ne_of_lt hc
  rw [w.received_log_received, if_neg hne, w.handled_log_received]
  exact h c hc

theorem NoFuture.handled {msg : Bytes} (h : NoFuture w) :
    NoFuture (w.log (.handled w.conns msg)) := by
  intro c hc
  have hne : w.conns ≠ c := Nat.ne_of_lt hc
  rw [w.received_log_handled, w.handled_log_handled, if_neg hne]
  exact h c hc

theorem NoFuture.connect (h : NoFuture w) : NoFuture { w with conns := w.conns + 1 } :=
  fun c hc ↦ h c (Nat.lt_of_succ_lt hc)

theorem RecvPc.idle {p : Bytes} (h : w.net.status = .notConnected) : RecvPc E w p .next := by
  intro hs
  rw [h] at hs
  cases hs

theorem RecvInv.start : RecvInv E .next Agent.start.w :=
  ⟨fun _ _ ↦ ⟨rfl, rfl⟩, [], cut_empty E rfl rfl, fun _ ↦ rfl⟩

theorem RecvInv.netMove {t t' : NetThread} (h : RecvInv E t.pc w) (hm : NetMove E t w t' w') :
    RecvInv E t'.pc w' := by
  obtain ⟨hf, p, hc, hp⟩ := id h
  cases hm with
  | nextExit hs => exact ⟨hf, p, hc, .inl hs⟩
  | nextSocket hs => exact ⟨hf, p, hc, hs⟩
  | nextPoll hs => exact ⟨hf, p, hc, hp hs, E.header_pos⟩
  | socketKeep => exact ⟨hf, p, hc, hp⟩
  | socketFail => exact h.of_quiet (.silent rfl rfl rfl) fun _ hs ↦ .idle hs
  | resolve => exact ⟨hf, p, hc, hp⟩
  | resolveFail => exact ⟨hf, p, hc, .idle hp⟩
  | socketOpen => exact h.of_quiet (.event rfl rfl rfl trivial) fun _ hs ↦ hs
  | again hpc | connectFail hpc =>
    rcases hpc with rfl | rfl
    · exact ⟨hf, p, hc, hp⟩
    · exact ⟨hf, p, hc, .idle hp⟩
  | connectOk =>
    -- the count moves on to a connection on which nothing has happened yet
    obtain ⟨hr, hh⟩ := hf (w.conns + 1) (Nat.lt_succ_self _)
    exact ⟨hf.connect, [], cut_empty E hr hh, rfl⟩
  | helloFail => exact ⟨hf, p, hc, hp⟩
  | helloRefused => exact h.of_quiet (.silent rfl rfl rfl) fun _ hp ↦ hp
  | helloAdd => exact h.of_quiet (.event rfl rfl rfl trivial) fun _ hp ↦ hp
  | store => exact ⟨hf, p, ⟨hc.stream, hc.frames, hc.rest, hc.stopped⟩, hp, E.header_pos⟩
  | undo | down => exact h.of_quiet (.netNotConnected w) fun _ _ ↦ .idle rfl
  | pollExit => exact ⟨hf, p, hc, .inr (hp.1 ▸ hp.2.not_malformed)⟩
  | pollRecv => exact ⟨hf, p, hc, hp⟩
  | recvMore _ _ hle hcol =>
    obtain ⟨rfl, hph⟩ := hp
    have hmore := netCollect_more hph hle hcol
    refine ⟨hf.received, _, hc.received hmore.pending.isOpen ?_, rfl, hmore⟩
    exact fun hm ↦ absurd hm hmore.not_malformed
  | recvDrop _ _ hle hcol =>
    obtain ⟨rfl, hph⟩ := hp
    obtain ⟨hm, hlen⟩ := netCollect_drop hph hle hcol
    exact ⟨hf.received, _, hc.received hm.isOpen fun _ ↦ hlen, .inr hm⟩
  | recvMessage _ _ hle hcol =>
    -- the bytes collected complete a frame, which moves from the rest to the messages
    obtain ⟨rfl, hph⟩ := hp
    exact ⟨hf.received.handled, [], hc.message (netCollect_message hph hle hcol), rfl⟩
  | recvRetry => exact ⟨hf, p, hc, hp⟩
  | recvFail =>
    refine h.of_quiet (.event rfl rfl rfl trivial) fun _ _ ↦ .inl ?_
    exact List.mem_append_right _ (List.mem_singleton_self _)
  | handler he => exact h.of_quiet (.of_effect he) fun _ hp ↦ hp
  | handled => exact ⟨hf, p, hc, fun _ ↦ hp⟩

theorem RecvInv.of_reachable {S : Setup} {s : Agent} (h : (agent S).Reachable s) :
    RecvInv S.proto s.net.pc s.w := by
  refine h.invariant (I := fun s ↦ RecvInv S.proto s.net.pc s.w) .start ?_
  intro s a s' _ hI _ hs
  cases Agent.step_move hs with
  | net hm => exact hI.netMove hm
  | sched _ hm => exact hI.frame (.of_schMove hm)
  | api hr => exact hI.frame (.of_api hr)
  | release hm =>
    have hnet : s'.net = s.net := by cases hm <;> rfl
    rw [hnet]
    exact hI.frame (.of_relMove hm)

end Preservation

end Invariant

section Buffer

variable (E : Emproto)

def RecvInBuffer (s : Agent) : Prop :=
  ∀ ph got, s.net.pc = .recv ph got → got.length + netAsked E ph got ≤ emBufSize

/-- A whole header in the buffer declares no more than the buffer holds. -/
def HeaderFits (s : Agent) : Prop :=
  ∀ ph got, s.net.pc = .recv ph got → E.epHeaderSize ≤ got.length →
    E.eppMsgLength (got.take E.epHeaderSize) ≤ emBufSize

/-- No header in the stream declares more than the buffer holds. -/
def StreamFits (stream : Bytes) : Prop :=
  ∀ (ms : List Bytes) (p : Bytes), (∀ m ∈ ms, E.framing.Frame m) → stream = ms.flatten ++ p →
    E.epHeaderSize ≤ p.length → E.eppMsgLength (p.take E.epHeaderSize) ≤ emBufSize

variable {S : Setup} {s : Agent}

theorem recvInBuffer_iff (h : (agent S).Reachable s) :
    RecvInBuffer S.proto s ↔ HeaderFits S.proto s := by
  obtain ⟨_, p, _, hp⟩ := RecvInv.of_reachable h
  constructor
  · intro hin ph got hpc hge
    rw [hpc] at hp
    have hb := hin ph got hpc
    cases ph with
    | header => exact absurd hge (Nat.not_le_of_lt hp.2)
    | body mlen =>
      obtain ⟨_, hlt, rfl⟩ := hp.2
      simp only [netAsked] at hb
      omega
  · intro hfit ph got hpc
    rw [hpc] at hp
    have hb := hfit ph got hpc
    cases ph with
    | header =>
      have hlt : got.length < S.proto.epHeaderSize := hp.2
      have := S.proto.header_fits
      simp only [netAsked]
      omega
    | body mlen =>
      obtain ⟨hge, hlt, rfl⟩ := hp.2
      have hm := hb hge
      simp only [netAsked]
      omega

theorem headerFits_of_stream (h : (agent S).Reachable s)
    (hfit : StreamFits S.proto (s.w.received s.w.conns)) : HeaderFits S.proto s := by
  obtain ⟨_, p, hc, hp⟩ := RecvInv.of_reachable h
  intro ph got hpc hge
  rw [hpc] at hp
  obtain ⟨rfl, _⟩ := hp
  exact hfit _ _ hc.frames hc.stream hge

/-- While the stream fits, every call of `recv` stays inside the buffer; and
one leaves it exactly when the header in the buffer declares too much. -/
theorem recv_in_buffer (h : (agent S).Reachable s) :
    (StreamFits S.proto (s.w.received s.w.conns) → RecvInBuffer S.proto s) ∧
      (RecvInBuffer S.proto s ↔ HeaderFits S.proto s) := by
  have hiff := recvInBuffer_iff h
  exact ⟨fun hfit ↦ hiff.mpr (headerFits_of_stream h hfit), hiff⟩

def partialRun : List Act :=
  Sample.connect 3 ++ [Sample.receive [0, 9, 0, 0], .net .tick, Sample.receive [0, 0], .net .tick,
    Sample.receive [7], .net .tick]

theorem recv_in_buffer_partial : ∃ s, (agent Sample.setup).Reachable s ∧
    s.net.pc = .recv (.body 9) [0, 9, 0, 0, 0, 0, 7] ∧ RecvInBuffer Sample.proto s := by
  have hr := (agent Sample.setup).reach_get (fun _ _ ↦ True) partialRun (by decide)
  refine ⟨_, hr, rfl, (recv_in_buffer hr).1 fun ms p hms hs _ ↦ ?_⟩
  have hs : [0, 9, 0, 0, 0, 0, 7] = ms.flatten ++ p := hs
  have hopen : Sample.proto.framing.Open [0, 9, 0, 0, 0, 0, 7] :=
    Library.Framing.Pending.isOpen (.inr (by decide))
  cases ms with
  | nil =>
    obtain rfl : [0, 9, 0, 0, 0, 0, 7] = p := hs
    decide
  | cons m ms =>
    refine absurd ⟨ms.flatten ++ p, ?_⟩ (hopen m (hms m (List.mem_cons_self ..)))
    rw [hs, List.flatten_cons, List.append_assoc]

def oversizeRun : List Act :=
  Sample.connect 3 ++ [Sample.receive [0x13, 0x88, 0, 0, 0, 0], .net .tick]

theorem recv_out_of_buffer :
    ¬ ∀ s, (agent Sample.setup).Reachable s → RecvInBuffer Sample.proto s := by
  intro h
  have hin := h _ ((agent Sample.setup).reach_get (fun _ _ ↦ True) oversizeRun (by decide))
    (.body 5000) [0x13, 0x88, 0, 0, 0, 0] rfl
  revert hin
  decide

end Buffer

section Delivery

/-- A message whose declared length is its length and fits the buffer. -/
structure Emproto.Message (E : Emproto) (m : Bytes) : Prop where
  frame : E.framing.Frame m
  fits : m.length ≤ emBufSize

variable {S : Setup} {s : Agent} {msgs : List Bytes}

theorem handled_in_order (h : (agent S).Reachable s) (hm : ∀ m ∈ msgs, S.proto.framing.Frame m)
    (hr : s.w.received s.w.conns <+: msgs.flatten) :
    s.w.handled s.w.conns <+: msgs ∧
      (.recvFailed s.w.conns ∉ s.w.hist → s.net.pc ≠ .down) := by
  obtain ⟨_, p, hc, hp⟩ := RecvInv.of_reachable h
  rw [hc.stream] at hr
  obtain ⟨rest, rfl, hrest⟩ := Library.Framing.cut_prefix hc.frames hm hr
  refine ⟨List.prefix_append .., fun hfail hpc ↦ ?_⟩
  rw [hpc] at hp
  rcases hp with hf | hbad
  · exact hfail hf
  · exact hbad.not_prefix (fun m hmem ↦ hm m (List.mem_append_right _ hmem)) hrest

theorem handled_eq {p : Bytes} (h : (agent S).Reachable s)
    (hm : ∀ m ∈ msgs, S.proto.framing.Frame m) (hp : S.proto.framing.Open p)
    (hr : s.w.received s.w.conns = msgs.flatten ++ p) : s.w.handled s.w.conns = msgs := by
  obtain ⟨_, q, hc, _⟩ := RecvInv.of_reachable h
  exact (Library.Framing.cut_unique hc.frames hm hc.rest hp (hc.stream.symm.trans hr)).1

theorem malformed_drops {p : Bytes} (h : (agent S).Reachable s)
    (hm : ∀ m ∈ msgs, S.proto.framing.Frame m) (hbad : S.proto.framing.Malformed p)
    (hr : s.w.received s.w.conns = msgs.flatten ++ p) :
    s.w.handled s.w.conns = msgs ∧ p.length = S.proto.epHeaderSize ∧
      (s.net.pc = .down ∨ s.w.net.status = .notConnected) := by
  refine ⟨handled_eq h hm hbad.isOpen hr, ?_⟩
  obtain ⟨_, q, hc, hpc⟩ := RecvInv.of_reachable h
  obtain ⟨_, rfl⟩ := Library.Framing.cut_unique hc.frames hm hc.rest hbad.isOpen
    (hc.stream.symm.trans hr)
  refine ⟨hc.stopped hbad, ?_⟩
  have hne : q ≠ [] := by
    rintro rfl
    exact absurd hbad.1 (Nat.not_le_of_lt S.proto.header_pos)
  cases hs : s.w.net.status with
  | notConnected => exact .inr rfl
  | connected =>
    refine .inl ?_
    generalize s.net.pc = pc at hpc
    cases pc with
    | down => rfl
    | next => exact absurd (hpc hs) hne
    | socket | resolve | again | connect => cases hs.symm.trans hpc
    | hello | store | undo | process => exact absurd hpc hne
    | poll | recv => exact absurd (hpc.1 ▸ hbad) hpc.2.not_malformed
    | exit =>
      rcases hpc with hpc | hpc
      · cases hs.symm.trans hpc
      · exact absurd hbad hpc

theorem recv_asks (h : (agent S).Reachable s) (ph : Phase) (got : Bytes)
    (hpc : s.net.pc = .recv ph got) : 0 < netAsked S.proto ph got := by
  obtain ⟨_, p, _, hp⟩ := RecvInv.of_reachable h
  rw [hpc] at hp
  exact hp.2.asked

/-- Whatever the chunks, the messages handled are those sent, in order: as
far as they have been received, and all once all have. A message too short to
hold its header ends the connection after those before it. -/
theorem messages_handled (h : (agent S).Reachable s) (hm : ∀ m ∈ msgs, S.proto.Message m) :
    (s.w.received s.w.conns <+: msgs.flatten → s.w.handled s.w.conns <+: msgs ∧
      (.recvFailed s.w.conns ∉ s.w.hist → s.net.pc ≠ .down)) ∧
    (s.w.received s.w.conns = msgs.flatten → s.w.handled s.w.conns = msgs) ∧
    (∀ ph got, s.net.pc = .recv ph got → 0 < netAsked S.proto ph got) ∧
    ∀ hdr rest, hdr.length = S.proto.epHeaderSize →
      S.proto.eppMsgLength hdr < S.proto.epHeaderSize →
      s.w.received s.w.conns = msgs.flatten ++ (hdr ++ rest) →
      s.w.handled s.w.conns = msgs ∧ rest = [] ∧
        (s.net.pc = .down ∨ s.w.net.status = .notConnected) := by
  have hf (m : Bytes) (hmem : m ∈ msgs) := (hm m hmem).frame
  refine ⟨handled_in_order h hf, ?_, recv_asks h, ?_⟩
  · intro hr
    refine handled_eq h hf Library.Framing.open_nil ?_
    rw [hr, List.append_nil]
  · intro hdr rest hlen hlt hr
    have hbad : S.proto.framing.Malformed (hdr ++ rest) := by
      refine ⟨?_, ?_⟩
      · rw [List.length_append, hlen]
        exact Nat.le_add_right _ _
      · simp only [Emproto.framing, ← hlen, List.take_left]
        exact hlen ▸ hlt
    obtain ⟨hh, hl, hd⟩ := malformed_drops h hf hbad hr
    refine ⟨hh, ?_, hd⟩
    rw [List.length_append, hlen] at hl
    exact List.eq_nil_of_length_eq_zero (by omega)

def chunkedRun : List Act :=
  Sample.connect 3 ++ [Sample.receive [0, 6, 3], .net .tick, .net (.recv (.error .eagain)),
    .net .tick, Sample.receive [0, 0, 0], .net .tick, .net .tick, .net .tick,
    Sample.receive [0, 7, 3, 0, 0, 0], .net .tick, Sample.receive [9], .net .tick, .net .tick,
    .net .tick, Sample.receive [0, 3, 0, 0, 0, 0]]

theorem messages_handled_chunked : ∃ s, (agent Sample.setup).Reachable s ∧
    s.w.handled 1 = [[0, 6, 3, 0, 0, 0], [0, 7, 3, 0, 0, 0, 9]] ∧
      (s.net.pc = .down ∨ s.w.net.status = .notConnected) := by
  have hr := (agent Sample.setup).reach_get (fun _ _ ↦ True) chunkedRun (by decide)
  have hm : ∀ m ∈ [[0, 6, 3, 0, 0, 0], [0, 7, 3, 0, 0, 0, 9]], Sample.proto.Message m := by
    intro m hmem
    simp only [List.mem_cons, List.not_mem_nil, or_false] at hmem
    rcases hmem with rfl | rfl <;> exact ⟨⟨by decide, by decide⟩, by decide⟩
  obtain ⟨_, _, _, hbad⟩ := messages_handled hr hm
  obtain ⟨hh, _, hd⟩ := hbad [0, 3, 0, 0, 0, 0] [] (by decide) (by decide) (by decide)
  exact ⟨_, hr, hh, hd⟩

end Delivery

end EmpowerAgent
