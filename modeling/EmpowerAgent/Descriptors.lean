import EmpowerAgent.Status

namespace EmpowerAgent

open Library (Machine)

/-- Where a thread stands in `net_not_connected`, which takes no lock. -/
inductive DropPc
  | test
  | close
  | store
  | clear
  deriving DecidableEq, Repr

namespace DropPc

variable (d : DropPc)

def closing : Bool := d = .close || d = .store

end DropPc

namespace World

variable (w : World)

/-- One step of `net_not_connected`, and where it leads; `none` is the return. -/
def netDrop : DropPc → Option DropPc × World
  | .test => (some (if 0 < w.net.sockfd then .close else .clear), w)
  -- there is nothing to close if the other thread has stored that meanwhile
  | .close => (some .store, if 0 ≤ w.net.sockfd then w.log (.closed w.net.sockfd) else w)
  | .store => (some .clear, { w with net := { w.net with sockfd := -1 } })
  | .clear => (none, { w with
      net := { w.net with status := .notConnected, seq := 0 }
      hist := w.hist ++ if w.net.status = .connected then [.lost w.conns] else [] })

end World

/-- An agent whose two threads interleave within `net_not_connected`, too. -/
structure Parted where
  agent : Agent
  net : DropPc
  sched : DropPc

namespace Parted

variable (S : Setup) (p : Parted)

def netDrops : Bool := match p.agent.net.pc with | .down | .undo => true | _ => false

def schedDrops : Bool := match p.agent.sch with | .down => true | _ => false

def netDrop : Parted :=
  let r := p.agent.w.netDrop p.net
  match r.1 with
  | some d => { p with agent := { p.agent with w := r.2 }, net := d }
  | none => { p with
      agent := { p.agent with net := ⟨.next, p.agent.net.errno⟩, w := r.2 }, net := .test }

def schedDrop : Parted :=
  let r := p.agent.w.netDrop p.sched
  match r.1 with
  | some d => { p with agent := { p.agent with w := r.2 }, sched := d }
  | none => { p with agent := { p.agent with sch := .loop, w := r.2 }, sched := .test }

def step : Act → Option Parted
  | .net .tick =>
    if p.netDrops then some p.netDrop
    else (p.agent.step S (.net .tick)).map fun s ↦ { p with agent := s }
  | .sched .tick =>
    if p.schedDrops then some p.schedDrop
    else (p.agent.step S (.sched .tick)).map fun s ↦ { p with agent := s }
  | a => (p.agent.step S a).map fun s ↦ { p with agent := s }

theorem netDrop_w : p.netDrop.agent.w = (p.agent.w.netDrop p.net).2 := by
  unfold netDrop
  dsimp only
  split <;> rfl

theorem schedDrop_w : p.schedDrop.agent.w = (p.agent.w.netDrop p.sched).2 := by
  unfold schedDrop
  dsimp only
  split <;> rfl

end Parted

def parted (S : Setup) : Machine Parted Act := ⟨⟨.start, .test, .test⟩, Parted.step S⟩

section Refinement

variable {S : Setup} {s s' : Agent} {p p' : Parted} {a : Act}

theorem drop_call {M : Machine Parted Act} {f : World → DropPc → Parted} {g : World → Parted}
    (hgo : ∀ w d d' w', w.netDrop d = (some d', w') → M.step (f w d) a = some (f w' d'))
    (hend : ∀ w w', w.netDrop .clear = (none, w') → M.step (f w .clear) a = some (g w'))
    (w : World) : (M.restart (f w .test)).Reachable (g w.netNotConnected) := by
  have hstart : (M.restart (f w .test)).Reachable (f w .test) := .start
  by_cases hfd : 0 < w.net.sockfd
  · have hclose : w.netDrop .close = (some .store, w.log (.closed w.net.sockfd)) := by
      simp [World.netDrop, Int.le_of_lt hfd]
    have htest := hstart.step trivial (hgo w .test .close w (by simp [World.netDrop, hfd]))
    have hstore := (htest.step trivial (hgo w .close .store _ hclose)).step trivial
      (hgo _ .store .clear _ rfl)
    have hclear := hstore.step trivial (hend _ _ rfl)
    have hw : w.netNotConnected = { w with
        net := ⟨-1, w.net.stop, .notConnected, 0⟩
        hist := w.hist ++ [.closed w.net.sockfd] ++
          if w.net.status = .connected then [.lost w.conns] else [] } := by
      simp only [World.netNotConnected, if_pos hfd]
    rw [hw]
    exact hclear
  · have hclear := (hstart.step trivial (hgo w .test .clear w (by simp [World.netDrop, hfd]))).step
      trivial (hend _ _ rfl)
    have hw : w.netNotConnected = { w with
        net := { w.net with status := .notConnected, seq := 0 }
        hist := w.hist ++ if w.net.status = .connected then [.lost w.conns] else [] } := by
      simp only [World.netNotConnected, if_neg hfd, List.append_nil]
    rw [hw]
    exact hclear

theorem netDrops_iff {p : Parted} :
    p.netDrops = true ↔ p.agent.net.pc = .down ∨ p.agent.net.pc = .undo := by
  unfold Parted.netDrops
  cases p.agent.net.pc <;> simp

theorem schedDrops_iff {p : Parted} : p.schedDrops = true ↔ p.agent.sch = .down := by
  unfold Parted.schedDrops
  cases p.agent.sch <;> simp

theorem parted_step {p : Parted} (hnet : a = .net .tick → p.netDrops = false)
    (hsched : a = .sched .tick → p.schedDrops = false) :
    (parted S).step p a = ((agent S).step p.agent a).map fun s ↦ { p with agent := s } := by
  cases a with
  | net ans =>
    cases ans with
    | tick => exact if_neg (by simp [hnet])
    | _ => rfl
  | sched ans =>
    cases ans with
    | tick => exact if_neg (by simp [hsched])
    | _ => rfl
  | _ => rfl

/-- A step of one of the calls, or one of the agent outside of them. -/
inductive PartedMove (S : Setup) (p : Parted) : Act → Parted → Prop
  | net : p.netDrops = true → PartedMove S p (.net .tick) p.netDrop
  | sched : p.schedDrops = true → PartedMove S p (.sched .tick) p.schedDrop
  | agent {a : Act} {s : Agent} : (a = .net .tick → p.netDrops = false) →
      (a = .sched .tick → p.schedDrops = false) → (agent S).step p.agent a = some s →
      PartedMove S p a { p with agent := s }

theorem parted_move (hs : (parted S).step p a = some p') : PartedMove S p a p' := by
  by_cases hnet : a = .net .tick ∧ p.netDrops = true
  · obtain ⟨rfl, hd⟩ := hnet
    obtain rfl : p.netDrop = p' := Option.some.inj ((if_pos hd).symm.trans hs)
    exact .net hd
  by_cases hsched : a = .sched .tick ∧ p.schedDrops = true
  · obtain ⟨rfl, hd⟩ := hsched
    obtain rfl : p.schedDrop = p' := Option.some.inj ((if_pos hd).symm.trans hs)
    exact .sched hd
  have hnet' (ha : a = .net .tick) : p.netDrops = false := by simpa [ha] using hnet
  have hsched' (ha : a = .sched .tick) : p.schedDrops = false := by simpa [ha] using hsched
  rw [parted_step hnet' hsched'] at hs
  obtain ⟨s, hstep, rfl⟩ := Option.map_eq_some_iff.mp hs
  exact .agent hnet' hsched' hstep

theorem parted_net_call (hpc : s.net.pc = .down ∨ s.net.pc = .undo) :
    ((parted S).restart ⟨s, .test, .test⟩).Reachable
      ⟨{ s with net := ⟨.next, s.net.errno⟩, w := s.w.netNotConnected }, .test, .test⟩ := by
  have hstep (w : World) (d : DropPc) : (parted S).step ⟨{ s with w }, d, .test⟩ (.net .tick) =
      some (⟨{ s with w }, d, .test⟩ : Parted).netDrop := if_pos (netDrops_iff.mpr hpc)
  refine drop_call (f := fun w d ↦ ⟨{ s with w }, d, .test⟩)
    (g := fun w ↦ ⟨{ s with net := ⟨.next, s.net.errno⟩, w }, .test, .test⟩) (a := .net .tick)
    (fun w d d' w' h ↦ ?_) (fun w w' h ↦ ?_) s.w
  · rw [hstep]
    simp only [Parted.netDrop, h]
  · rw [hstep]
    simp only [Parted.netDrop, h]

theorem parted_sched_call (hpc : s.sch = .down) :
    ((parted S).restart ⟨s, .test, .test⟩).Reachable
      ⟨{ s with sch := .loop, w := s.w.netNotConnected }, .test, .test⟩ := by
  have hstep (w : World) (d : DropPc) : (parted S).step ⟨{ s with w }, .test, d⟩ (.sched .tick) =
      some (⟨{ s with w }, .test, d⟩ : Parted).schedDrop := if_pos (schedDrops_iff.mpr hpc)
  refine drop_call (f := fun w d ↦ ⟨{ s with w }, .test, d⟩)
    (g := fun w ↦ ⟨{ s with sch := .loop, w }, .test, .test⟩) (a := .sched .tick)
    (fun w d d' w' h ↦ ?_) (fun w w' h ↦ ?_) s.w
  · rw [hstep]
    simp only [Parted.schedDrop, h]
  · rw [hstep]
    simp only [Parted.schedDrop, h]

theorem parted_of_step (hs : (agent S).step s a = some s') :
    ((parted S).restart ⟨s, .test, .test⟩).Reachable ⟨s', .test, .test⟩ := by
  by_cases hnet : a = .net .tick ∧ (s.net.pc = .down ∨ s.net.pc = .undo)
  · obtain ⟨rfl, hpc⟩ := hnet
    have heq : s' = { s with net := ⟨.next, s.net.errno⟩, w := s.w.netNotConnected } := by
      simp only [agent, Agent.step, netStep] at hs
      rcases hpc with hpc | hpc <;> rw [hpc] at hs <;> cases hs <;> rfl
    rw [heq]
    exact parted_net_call hpc
  by_cases hsched : a = .sched .tick ∧ s.sch = .down
  · obtain ⟨rfl, hpc⟩ := hsched
    have heq : s' = { s with sch := .loop, w := s.w.netNotConnected } := by
      simp only [agent, Agent.step, schedStep] at hs
      rw [hpc] at hs
      cases hs
      rfl
    rw [heq]
    exact parted_sched_call hpc
  have hstep : (parted S).step ⟨s, .test, .test⟩ a = some ⟨s', .test, .test⟩ := by
    rw [parted_step, hs]
    · rfl
    · exact fun ha ↦ Bool.eq_false_iff.mpr fun h ↦ hnet ⟨ha, netDrops_iff.mp h⟩
    · exact fun ha ↦ Bool.eq_false_iff.mpr fun h ↦ hsched ⟨ha, schedDrops_iff.mp h⟩
  exact Machine.restart_step hstep

/-- Each run of the agent is a run of it with the calls taken apart. -/
theorem parted_of_reachable (h : (agent S).Reachable s) :
    (parted S).Reachable ⟨s, .test, .test⟩ := by
  induction h with
  | start => exact .start
  | step _ _ hs ih => exact ih.restart (parted_of_step hs)

end Refinement

def Event.isFile : Event → Bool
  | .opened _ | .closed _ => true
  | _ => false

def World.descriptors (w : World) : List Event := w.hist.filter Event.isFile

/-- Each descriptor is opened and then closed, before there is another. -/
def Paired (es : List Event) : Prop :=
  ∃ fds : List ℤ, es = fds.flatMap fun n ↦ [.opened n, .closed n]

namespace Agent

variable (s : Agent)

def leaves : Act → Bool
  | .net _ => match s.net.pc with
    | .next => s.w.net.status = .notConnected && s.w.net.stop
    | .poll _ _ => s.w.net.stop
    | _ => false
  | _ => false

end Agent

namespace Parted

variable (p : Parted)

/-- A thread tests whether there is a descriptor while it may not: it is 0,
or the other thread is about to close it. -/
def misses : Act → Bool
  | .net .tick => p.netDrops && p.net = .test &&
      (p.agent.w.net.sockfd = 0 || 0 < p.agent.w.net.sockfd && p.sched.closing)
  | .sched .tick => p.schedDrops && p.sched = .test &&
      (p.agent.w.net.sockfd = 0 || 0 < p.agent.w.net.sockfd && p.net.closing)
  | _ => false

def gives : Act → Bool
  | .net .tick => p.netDrops &&
      (p.net = .store || p.net = .test && !decide (0 < p.agent.w.net.sockfd))
  | .sched .tick => p.schedDrops &&
      (p.sched = .store || p.sched = .test && !decide (0 < p.agent.w.net.sockfd))
  | _ => false

def attempts : Act → Bool
  | .net _ => match p.agent.net.pc with | .socket => true | _ => false
  | _ => false

end Parted

def noteGiven (p : Parted) (a : Act) (_ : Parted) (given : Bool) : Bool :=
  (given || p.gives a) && !p.attempts a

/-- The calls of `net_not_connected` find no descriptor 0, and no descriptor
that the other thread is closing; and the network thread leaves none open when
it ends. -/
def SocketsKept (p : Parted) (a : Act) : Prop :=
  p.misses a = false ∧ (p.agent.leaves a = true → p.agent.w.net.sockfd < 0)

instance (p : Parted) (a : Act) : Decidable (SocketsKept p a) := instDecidableAnd

section Ledger

variable {w w' : World}

theorem Event.OffFiles.not_file {e : Event} (h : e.OffFiles) : e.isFile = false := by
  cases e with
  | opened n => simpa [Event.files] using h []
  | closed n => simpa [Event.files] using h [n]
  | _ => rfl

theorem descriptors_of_extends (h : Extends Event.OffFiles w w') :
    w'.descriptors = w.descriptors := by
  obtain ⟨es, he, hes⟩ := h
  have hnil : es.filter Event.isFile = [] :=
    List.filter_eq_nil_iff.mpr fun e hm ↦ by simp [(hes e hm).not_file]
  rw [World.descriptors, World.descriptors, he, List.filter_append, hnil, List.append_nil]

/-- The descriptors but for the last are closed, and so is the last one, unless
it is the one in use. -/
def Kept (w : World) (closed : Bool) : Prop :=
  if closed = true ∨ w.net.sockfd < 0 then Paired w.descriptors
  else ∃ es, Paired es ∧ w.descriptors = es ++ [.opened w.net.sockfd]

theorem Kept.same {closed : Bool} (h : Kept w closed) (hfd : w'.net.sockfd = w.net.sockfd)
    (hx : Extends Event.OffFiles w w') : Kept w' closed := by
  unfold Kept at h ⊢
  rw [hfd, descriptors_of_extends hx]
  exact h

theorem Paired.append {es : List Event} (h : Paired es) (n : ℤ) :
    Paired (es ++ [.opened n, .closed n]) := by
  obtain ⟨fds, rfl⟩ := h
  exact ⟨fds ++ [n], by simp⟩

theorem Kept.opened {n : ℤ} (h : Kept w false) (hfd : w.net.sockfd < 0) (hn : 0 ≤ n)
    (hw : w'.hist = w.hist ++ [.opened n]) (hfd' : w'.net.sockfd = n) : Kept w' false := by
  unfold Kept at h ⊢
  rw [if_pos (.inr hfd)] at h
  rw [if_neg (by simp [hfd', hn]), hfd']
  exact ⟨_, h, by rw [World.descriptors, hw, List.filter_append]; rfl⟩

theorem Kept.closed (h : Kept w false) (hfd : 0 < w.net.sockfd) :
    Kept (w.log (.closed w.net.sockfd)) true := by
  unfold Kept at h ⊢
  rw [if_neg (by simp [Int.le_of_lt hfd])] at h
  obtain ⟨es, hes, heq⟩ := h
  rw [if_pos (.inl rfl)]
  have hlog : (w.log (.closed w.net.sockfd)).descriptors =
      es ++ [.opened w.net.sockfd, .closed w.net.sockfd] := by
    rw [World.descriptors, World.log, List.filter_append, ← World.descriptors, heq]
    simp [Event.isFile]
  rw [hlog]
  exact hes.append _

theorem Kept.stored (h : Kept w true) :
    Kept { w with net := { w.net with sockfd := -1 } } false := by
  unfold Kept at h ⊢
  rw [if_pos (.inl rfl)] at h
  rw [if_pos (.inr (by simp))]
  exact h

/-- What holds of two threads, wherever they stand in their calls. -/
structure DropInv (w : World) (d d' : DropPc) : Prop where
  kept : Kept w (d = .store || d' = .store)
  holds : d.closing = true ∨ d'.closing = true → 0 < w.net.sockfd
  apart : d.closing = true → d'.closing = false

variable {d d' : DropPc}

theorem DropInv.symm (h : DropInv w d d') : DropInv w d' d where
  kept := by
    rw [Bool.or_comm]
    exact h.kept
  holds hc := h.holds hc.symm
  apart hc := by
    by_contra hc'
    cases hc.symm.trans (h.apart (by simpa using hc'))

theorem DropInv.same (h : DropInv w d d') (hfd : w'.net.sockfd = w.net.sockfd)
    (hx : Extends Event.OffFiles w w') : DropInv w' d d' where
  kept := h.kept.same hfd hx
  holds := by
    rw [hfd]
    exact h.holds
  apart := h.apart

theorem DropInv.idle (h : DropInv w d d') (hfd : w.net.sockfd < 0) :
    d.closing = false ∧ d'.closing = false := by
  constructor
  · by_contra hc
    have hpos := h.holds (.inl (by simpa using hc))
    omega
  · by_contra hc
    have hpos := h.holds (.inr (by simpa using hc))
    omega

theorem store_eq_false (h : d.closing = false) : decide (d = .store) = false := by
  cases d with
  | store => cases h
  | _ => rfl

theorem netDrop_neg {r : Option DropPc} (hdrop : w.netDrop d = (r, w'))
    (h : d = .store ∨ w.net.sockfd < 0) : w'.net.sockfd < 0 := by
  obtain ⟨_, rfl⟩ := Prod.mk.inj hdrop
  cases d with
  | store => simp
  | close =>
    have hneg := h.resolve_left nofun
    rw [if_neg (Int.not_le.mpr hneg)]
    exact hneg
  | _ => exact h.resolve_left nofun

theorem DropInv.drop {r : Option DropPc} (h : DropInv w d d') (hdrop : w.netDrop d = (r, w'))
    (hok : d = .test → w.net.sockfd ≠ 0 ∧ (0 < w.net.sockfd → d'.closing = false)) :
    DropInv w' (r.getD .test) d' := by
  cases d with
  | test =>
    cases hdrop
    split_ifs with hpos
    · exact ⟨h.kept, fun _ ↦ hpos, fun _ ↦ (hok rfl).2 hpos⟩
    · exact ⟨h.kept, fun hc ↦ h.holds (.inr (hc.resolve_left nofun)), nofun⟩
  | close =>
    have hpos := h.holds (.inl rfl)
    have hother := h.apart rfl
    have hkept := h.kept
    rw [store_eq_false hother] at hkept
    have hw : w' = w.log (.closed w.net.sockfd) := by
      have hsnd := congrArg Prod.snd hdrop
      simpa [World.netDrop, Int.le_of_lt hpos] using hsnd.symm
    obtain rfl : r = some .store := (congrArg Prod.fst hdrop).symm
    subst hw
    exact ⟨hkept.closed hpos, fun _ ↦ hpos, fun _ ↦ hother⟩
  | store =>
    have hother := h.apart rfl
    have hkept := h.kept.stored
    cases hdrop
    refine ⟨?_, fun hc ↦ ?_, nofun⟩
    · rw [store_eq_false hother]
      exact hkept
    · cases hother.symm.trans (hc.resolve_left nofun)
  | clear =>
    obtain ⟨hr, hw⟩ := Prod.mk.inj hdrop
    have hx : Extends Event.OffFiles w w' := by
      rw [← hw]
      refine ⟨_, rfl, fun e he ↦ ?_⟩
      split_ifs at he
      · exact List.mem_singleton.mp he ▸ fun _ ↦ rfl
      · cases he
    have hfd : w'.net.sockfd = w.net.sockfd := by rw [← hw]
    have hsame := h.same hfd hx
    rw [← hr]
    exact ⟨hsame.kept, fun hc ↦ hsame.holds (.inr (hc.resolve_left nofun)), nofun⟩

end Ledger

section Runs

variable {S : Setup} {p p' : Parted} {s : Agent} {w w' : World} {a : Act}

theorem NetMove.sockets {E : Emproto} {t t' : NetThread} (hm : NetMove E t w t' w')
    (ht : t.pc ≠ .down ∧ t.pc ≠ .undo) :
    (w'.net.sockfd = w.net.sockfd ∧ Extends Event.OffFiles w w') ∨
      t.pc = .socket ∧ w.net.sockfd < 0 ∧ (w'.net.sockfd < 0 ∧ w'.hist = w.hist ∨
        ∃ n, 0 ≤ n ∧ w'.net.sockfd = n ∧ w'.hist = w.hist ++ [.opened n]) := by
  cases hm with
  | socketFail hfd => exact .inr ⟨rfl, hfd, .inl ⟨Int.negSucc_lt_zero 0, rfl⟩⟩
  | socketOpen hfd hn => exact .inr ⟨rfl, hfd, .inr ⟨_, hn, rfl, rfl⟩⟩
  | handler he => exact .inl ⟨he.sockfd, he.offFiles⟩
  | down => exact absurd rfl ht.1
  | undo => exact absurd rfl ht.2
  | helloAdd | recvMore | recvDrop | recvFail => exact .inl ⟨rfl, .event rfl fun _ ↦ rfl⟩
  | recvMessage =>
    refine .inl ⟨rfl, .trans (.log w _ ?_) (.log _ _ ?_)⟩ <;> exact fun _ ↦ rfl
  | _ => exact .inl ⟨rfl, .silent rfl⟩

theorem NetMove.exits {E : Emproto} {t t' : NetThread} (hm : NetMove E t w t' w')
    (hexit : t'.pc = .exit) : w' = w ∧ w.net.stop = true ∧
      (t.pc = .next ∧ w.net.status = .notConnected ∨ ∃ ph got, t.pc = .poll ph got) := by
  cases hm with
  | nextExit hs hstop => exact ⟨rfl, hstop, .inl ⟨rfl, hs⟩⟩
  | pollExit hstop => exact ⟨rfl, hstop, .inr ⟨_, _, rfl⟩⟩
  | again hpc | connectFail hpc => rcases hpc with rfl | rfl <;> cases hexit
  | _ => cases hexit

structure FilesInv (p : Parted) : Prop where
  drops : DropInv p.agent.w p.net p.sched
  netCall : p.net ≠ .test → p.netDrops = true
  schedCall : p.sched ≠ .test → p.schedDrops = true
  gone : p.agent.net.pc = .exit → p.agent.w.net.sockfd < 0
  joined : p.agent.rel = .flush ∨ p.agent.rel = .done → p.agent.net.pc = .exit

theorem leaves_of_exit {ans : Ans} {t : NetThread}
    (hs : netStep S.proto s.net ans s.w = some (t, w)) (hexit : t.pc = .exit) :
    w = s.w ∧ s.leaves (.net ans) = true := by
  obtain ⟨hw, hstop, hpc⟩ := (netStep_move hs).exits hexit
  refine ⟨hw, ?_⟩
  rcases hpc with ⟨hpc, hstatus⟩ | ⟨ph, got, hpc⟩ <;> simp [Agent.leaves, *]

theorem SocketsKept.net_test (hok : SocketsKept p (.net .tick)) (hd : p.netDrops = true)
    (ht : p.net = .test) : p.agent.w.net.sockfd ≠ 0 ∧
      (0 < p.agent.w.net.sockfd → p.sched.closing = false) := by
  simpa [Parted.misses, hd, ht] using hok.1

theorem SocketsKept.sched_test (hok : SocketsKept p (.sched .tick)) (hd : p.schedDrops = true)
    (ht : p.sched = .test) : p.agent.w.net.sockfd ≠ 0 ∧
      (0 < p.agent.w.net.sockfd → p.net.closing = false) := by
  simpa [Parted.misses, hd, ht] using hok.1

theorem netStep_outside {ans : Ans} {t : NetThread} (hnet : ans = .tick → p.netDrops = false)
    (hs : netStep S.proto p.agent.net ans p.agent.w = some (t, w)) :
    p.agent.net.pc ≠ .down ∧ p.agent.net.pc ≠ .undo := by
  refine not_or.mp fun hdown ↦ ?_
  unfold netStep at hs
  cases ans with
  | tick => cases (hnet rfl).symm.trans (netDrops_iff.mpr hdown)
  | _ => rcases hdown with hpc | hpc <;> rw [hpc] at hs <;> cases hs

theorem schedStep_outside {ans : Ans} {pc : SchPc} (hsched : ans = .tick → p.schedDrops = false)
    (hs : schedStep S p.agent.sch ans p.agent.w = some (pc, w)) : p.agent.sch ≠ .down := by
  intro hpc
  unfold schedStep at hs
  rw [hpc] at hs
  cases ans with
  | tick => cases (hsched rfl).symm.trans (schedDrops_iff.mpr hpc)
  | _ => cases hs

theorem FilesInv.netDrop (h : FilesInv p) (hok : SocketsKept p (.net .tick))
    (hd : p.netDrops = true) : FilesInv p.netDrop := by
  have hne : p.agent.net.pc ≠ .exit := by
    intro hexit
    rw [netDrops_iff, hexit] at hd
    rcases hd with hd | hd <;> cases hd
  unfold Parted.netDrop
  cases hr : p.agent.w.netDrop p.net with
  | mk r w =>
    have hdrop := h.drops.drop hr (hok.net_test hd)
    cases r with
    | some d =>
      exact ⟨hdrop, fun _ ↦ hd, h.schedCall, fun hexit ↦ absurd hexit hne, h.joined⟩
    | none =>
      refine ⟨hdrop, fun ht ↦ absurd rfl ht, h.schedCall, nofun, fun hrel ↦ ?_⟩
      exact absurd (h.joined hrel) hne

theorem FilesInv.schedDrop (h : FilesInv p) (hok : SocketsKept p (.sched .tick))
    (hd : p.schedDrops = true) : FilesInv p.schedDrop := by
  unfold Parted.schedDrop
  cases hr : p.agent.w.netDrop p.sched with
  | mk r w =>
    have hdrop := h.drops.symm.drop hr (hok.sched_test hd)
    have hneg (hexit : p.agent.net.pc = .exit) : w.net.sockfd < 0 :=
      netDrop_neg hr (.inr (h.gone hexit))
    cases r with
    | some d =>
      exact ⟨hdrop.symm, h.netCall, fun _ ↦ hd, hneg, h.joined⟩
    | none => exact ⟨hdrop.symm, h.netCall, fun ht ↦ absurd rfl ht, hneg, h.joined⟩

theorem DropInv.netMove {E : Emproto} {t t' : NetThread} {d : DropPc} (h : DropInv w .test d)
    (hm : NetMove E t w t' w') (ht : t.pc ≠ .down ∧ t.pc ≠ .undo) : DropInv w' .test d := by
  rcases hm.sockets ht with ⟨hfd, hx⟩ | ⟨_, hneg, hopen⟩
  · exact h.same hfd hx
  obtain ⟨_, hidle⟩ := h.idle hneg
  have hkept := h.kept
  rw [store_eq_false hidle] at hkept
  refine ⟨?_, fun hc ↦ ?_, nofun⟩
  · rw [store_eq_false hidle]
    rcases hopen with ⟨hneg', hhist⟩ | ⟨n, hn, hfd, hhist⟩
    · unfold Kept at hkept ⊢
      rw [if_pos (.inr hneg)] at hkept
      rw [if_pos (.inr hneg'), World.descriptors, hhist]
      exact hkept
    · exact hkept.opened hneg hn hhist hfd
  · cases hidle.symm.trans (hc.resolve_left nofun)

theorem filesInv_net {ans : Ans} {t : NetThread} (h : FilesInv p) (hok : SocketsKept p (.net ans))
    (hnet : ans = .tick → p.netDrops = false)
    (hs : netStep S.proto p.agent.net ans p.agent.w = some (t, w)) :
    FilesInv { p with agent := { p.agent with net := t, w := w } } := by
  have hpc := netStep_outside hnet hs
  have htest : p.net = .test := by
    by_contra hne
    rcases netDrops_iff.mp (h.netCall hne) with hpc' | hpc'
    · exact hpc.1 hpc'
    · exact hpc.2 hpc'
  have hm := netStep_move hs
  refine ⟨?_, fun hne ↦ absurd htest hne, h.schedCall, fun hexit ↦ ?_, fun hrel ↦ ?_⟩
  · have hdrops := h.drops
    rw [htest] at hdrops
    simp only [htest]
    exact hdrops.netMove hm hpc
  · obtain ⟨hw, hleaves⟩ := leaves_of_exit hs hexit
    exact hw ▸ hok.2 hleaves
  · have hexit := h.joined hrel
    unfold netStep at hs
    rw [hexit] at hs
    cases hs

theorem filesInv_sched {pc : SchPc} (h : FilesInv p) (hm : SchMove S p.agent.sch p.agent.w pc w)
    (hpc : p.agent.sch ≠ .down) :
    FilesInv { p with agent := { p.agent with sch := pc, w := w } } := by
  have htest : p.sched = .test := by
    by_contra hne
    exact hpc (schedDrops_iff.mp (h.schedCall hne))
  obtain ⟨hfd, _, hx⟩ := hm.sockets hpc
  exact ⟨h.drops.same hfd hx, h.netCall, fun hne ↦ absurd htest hne,
    fun hexit ↦ hfd ▸ h.gone hexit, h.joined⟩

theorem releaseStep_sockets {s s' : Agent} (hs : s.releaseStep = some s') :
    s'.w.net.sockfd = s.w.net.sockfd ∧ Extends Event.OffFiles s.w s'.w := by
  cases releaseStep_move hs <;> exact ⟨rfl, .silent rfl⟩

theorem ApiCall.sockets {call : ApiCall} {answers : List Ans} {x : ℤ}
    (hr : call.body.run exec answers w = some (x, w')) :
    w'.net.sockfd = w.net.sockfd ∧ Extends Event.OffFiles w w' := by
  obtain ⟨_, hsame⟩ := ApiCall.keeps (I := fun _ v ↦ v.net.sockfd = w.net.sockfd ∧
    Extends Event.OffFiles w v) hr ⟨rfl, .silent rfl⟩ fun _ _ _ _ _ _ he hv ↦
      ⟨he.sockfd.trans hv.1, hv.2.trans he.offFiles⟩
  exact hsame

theorem filesInv_release (h : FilesInv p) (hs : p.agent.releaseStep = some s) :
    FilesInv { p with agent := s } := by
  obtain ⟨hsch, hnet, hnext⟩ := releaseStep_next hs
  obtain ⟨hfd, hx⟩ := releaseStep_sockets hs
  refine ⟨h.drops.same hfd hx, ?_, ?_, fun hexit ↦ ?_, fun hrel ↦ ?_⟩
  · simpa only [Parted.netDrops, hnet] using h.netCall
  · simpa only [Parted.schedDrops, hsch] using h.schedCall
  · rw [hfd]
    exact h.gone (hnet ▸ hexit)
  · rw [hnet]
    rcases hnext with ⟨_, hrel'⟩ | ⟨_, _, hrel'⟩ | ⟨_, hrel'⟩ | ⟨_, hexit, _⟩ | ⟨hflush, _⟩
    · simp [hrel'] at hrel
    · simp [hrel'] at hrel
    · simp [hrel'] at hrel
    · exact hexit
    · exact h.joined (.inl hflush)

theorem filesInv_agent (h : FilesInv p) (hok : SocketsKept p a)
    (hnet : a = .net .tick → p.netDrops = false) (hsched : a = .sched .tick → p.schedDrops = false)
    (hs : (agent S).step p.agent a = some s) : FilesInv { p with agent := s } := by
  cases a with
  | net ans =>
    obtain ⟨⟨t, w⟩, hstep, rfl⟩ := Option.map_eq_some_iff.mp hs
    exact filesInv_net h hok (fun ha ↦ hnet (congrArg Act.net ha)) hstep
  | sched ans =>
    obtain ⟨⟨pc, w⟩, hstep, rfl⟩ := Option.map_eq_some_iff.mp hs
    have hpc := schedStep_outside (fun ha ↦ hsched (congrArg Act.sched ha)) hstep
    exact filesInv_sched h (schedStep_move hstep) hpc
  | api call answers =>
    obtain ⟨⟨x, w⟩, hr, rfl⟩ := Option.map_eq_some_iff.mp hs
    obtain ⟨hfd, hx⟩ := ApiCall.sockets hr
    exact ⟨h.drops.same hfd hx, h.netCall, h.schedCall, fun hexit ↦ hfd ▸ h.gone hexit, h.joined⟩
  | release => exact filesInv_release h hs

theorem FilesInv.step (h : FilesInv p) (hok : SocketsKept p a)
    (hs : (parted S).step p a = some p') : FilesInv p' := by
  cases parted_move hs with
  | net hd => exact h.netDrop hok hd
  | sched hd => exact h.schedDrop hok hd
  | agent hnet hsched hstep => exact filesInv_agent h hok hnet hsched hstep

theorem FilesInv.of_reach (h : (parted S).Reach SocketsKept p) : FilesInv p := by
  refine h.invariant ?_ fun p a p' _ hI hok hs ↦ hI.step hok hs
  refine ⟨⟨⟨[], rfl⟩, ?_, ?_⟩, ?_, ?_, ?_, ?_⟩
  all_goals simp [parted, DropPc.closing, Agent.start]

theorem descriptors_kept (h : FilesInv p) : ∃ es, Paired es ∧ (p.agent.w.descriptors = es ∨
    p.agent.w.descriptors = es ++ [.opened p.agent.w.net.sockfd]) := by
  have hkept := h.drops.kept
  unfold Kept at hkept
  split_ifs at hkept
  · exact ⟨_, hkept, .inl rfl⟩
  · obtain ⟨es, hes, heq⟩ := hkept
    exact ⟨es, hes, .inr heq⟩

theorem descriptors_paired (h : FilesInv p) (hrel : p.agent.rel = .done) :
    Paired p.agent.w.descriptors := by
  have hneg := h.gone (h.joined (.inr hrel))
  have hkept := h.drops.kept
  unfold Kept at hkept
  rwa [if_pos (.inr hneg)] at hkept

theorem gives_neg {d : DropPc} (hfd : d = .test → w.net.sockfd ≠ 0)
    (h : (decide (d = .store) || d = .test && !decide (0 < w.net.sockfd)) = true) :
    d = .store ∨ w.net.sockfd < 0 := by
  cases d with
  | store => exact .inl rfl
  | test =>
    have hne := hfd rfl
    have hle : w.net.sockfd ≤ 0 := by simpa using h
    exact .inr (by omega)
  | _ => cases h

theorem agent_sockfd (hnet : a = .net .tick → p.netDrops = false)
    (hsched : a = .sched .tick → p.schedDrops = false) (hattempt : p.attempts a = false)
    (hs : (agent S).step p.agent a = some s) : s.w.net.sockfd = p.agent.w.net.sockfd := by
  cases a with
  | net ans =>
    obtain ⟨⟨t, w⟩, hstep, rfl⟩ := Option.map_eq_some_iff.mp hs
    have hpc := netStep_outside (fun ha ↦ hnet (congrArg Act.net ha)) hstep
    rcases (netStep_move hstep).sockets hpc with ⟨hfd, _⟩ | ⟨hsocket, _⟩
    · exact hfd
    · simp [Parted.attempts, hsocket] at hattempt
  | sched ans =>
    obtain ⟨⟨pc, w⟩, hstep, rfl⟩ := Option.map_eq_some_iff.mp hs
    have hpc := schedStep_outside (fun ha ↦ hsched (congrArg Act.sched ha)) hstep
    exact ((schedStep_move hstep).sockets hpc).1
  | api call answers =>
    obtain ⟨⟨x, w⟩, hr, rfl⟩ := Option.map_eq_some_iff.mp hs
    exact (ApiCall.sockets hr).1
  | release => exact (releaseStep_sockets hs).1

theorem given_sockfd (hok : SocketsKept p a) (hs : (parted S).step p a = some p')
    (hgiven : p.gives a = true ∨ p.agent.w.net.sockfd < 0) (hattempt : p.attempts a = false) :
    p'.agent.w.net.sockfd < 0 := by
  cases parted_move hs with
  | net hd =>
    rw [Parted.netDrop_w]
    refine netDrop_neg rfl (hgiven.elim (fun hg ↦ ?_) .inr)
    refine gives_neg (fun ht ↦ (hok.net_test hd ht).1) ?_
    simpa only [Parted.gives, hd, Bool.true_and] using hg
  | sched hd =>
    rw [Parted.schedDrop_w]
    refine netDrop_neg rfl (hgiven.elim (fun hg ↦ ?_) .inr)
    refine gives_neg (fun ht ↦ (hok.sched_test hd ht).1) ?_
    simpa only [Parted.gives, hd, Bool.true_and] using hg
  | agent hnet hsched hstep =>
    rw [agent_sockfd hnet hsched hattempt hstep]
    refine hgiven.resolve_left fun hg ↦ ?_
    unfold Parted.gives at hg
    split at hg
    · simp [hnet rfl] at hg
    · simp [hsched rfl] at hg
    · cases hg

theorem attempt_opens {ans : Ans} (hs : (parted S).step p (.net ans) = some p')
    (hpc : p.agent.net.pc = .socket) (hneg : p.agent.w.net.sockfd < 0) :
    (∃ e, ans = .fails e ∧ p'.agent.w.net.sockfd = -1) ∨
      ∃ n, ans = .fd n ∧ 0 ≤ n ∧ p'.agent.w.net.sockfd = n ∧
        p'.agent.w.descriptors = p.agent.w.descriptors ++ [.opened n] := by
  have hnet : p.netDrops = false := by simp [Parted.netDrops, hpc]
  rw [parted_step (fun _ ↦ hnet) (by simp)] at hs
  obtain ⟨s, hstep, rfl⟩ := Option.map_eq_some_iff.mp hs
  obtain ⟨⟨t, w⟩, hmove, rfl⟩ := Option.map_eq_some_iff.mp hstep
  unfold netStep at hmove
  rw [hpc] at hmove
  cases ans with
  | fd n =>
    simp only [netSocket] at hmove
    split_ifs at hmove with hn
    cases hmove
    refine .inr ⟨n, rfl, hn.2, rfl, ?_⟩
    simp [World.descriptors, Event.isFile]
  | fails e =>
    simp only [netSocket, if_pos hneg] at hmove
    cases hmove
    exact .inl ⟨e, rfl, rfl⟩
  | tick =>
    simp only [netSocket, if_pos hneg] at hmove
    cases hmove
  | _ => cases hmove

def socketAgent (S : Setup) : Machine (Parted × Bool) Act := (parted S).watch false noteGiven

def SocketsKeptIn (q : Parted × Bool) (a : Act) : Prop := SocketsKept q.1 a

instance (q : Parted × Bool) (a : Act) : Decidable (SocketsKeptIn q a) := instDecidableAnd

theorem given_of_reach {q : Parted × Bool} (h : (socketAgent S).Reach SocketsKeptIn q)
    (hgiven : q.2 = true) : q.1.agent.w.net.sockfd < 0 := by
  revert hgiven
  refine h.watched (I := fun p g ↦ g = true → p.agent.w.net.sockfd < 0) SocketsKept
    (fun _ _ ↦ id) nofun ?_
  intro p g a p' _ hI hok hs hgiven
  obtain ⟨hg, hattempt⟩ := Bool.and_eq_true_iff.mp hgiven
  refine given_sockfd hok hs ?_ (by simpa using hattempt)
  rcases Bool.or_eq_true_iff.mp hg with hg | hg
  · exact .inr (hI hg)
  · exact .inl hg

/-- Where no call of `net_not_connected` finds descriptor 0, or one that the
other thread is about to close, and the network thread leaves no socket when
it ends, each descriptor is closed at most once at any time, and just once by
the return of `core_release_agent`; and no attempt to connect uses a socket
from before the last of these calls. -/
theorem descriptors_closed_once :
    (∀ q, (socketAgent S).Reach SocketsKeptIn q → ∃ es, Paired es ∧
      (q.1.agent.w.descriptors = es ∨
        q.1.agent.w.descriptors = es ++ [.opened q.1.agent.w.net.sockfd])) ∧
    (∀ q, (socketAgent S).Reach SocketsKeptIn q → q.1.agent.rel = .done →
      Paired q.1.agent.w.descriptors) ∧
    ∀ q ans q', (socketAgent S).Reach SocketsKeptIn q → q.2 = true →
      q.1.agent.net.pc = .socket → (socketAgent S).step q (.net ans) = some q' →
      (∃ e, ans = .fails e ∧ q'.1.agent.w.net.sockfd = -1) ∨
        ∃ n, ans = .fd n ∧ 0 ≤ n ∧ q'.1.agent.w.net.sockfd = n ∧
          q'.1.agent.w.descriptors = q.1.agent.w.descriptors ++ [.opened n] := by
  have hinv (q : Parted × Bool) (h : (socketAgent S).Reach SocketsKeptIn q) : FilesInv q.1 :=
    .of_reach (h.unwatch fun _ _ ↦ id)
  refine ⟨fun q h ↦ descriptors_kept (hinv q h), fun q h ↦ descriptors_paired (hinv q h),
    fun q ans q' h hgiven hpc hs ↦ ?_⟩
  exact attempt_opens (Machine.watch_step hs).1 hpc (given_of_reach h hgiven)

def reconnectRun : List Act :=
  Sample.connect 3 ++ [.net (.recv (.error (.other 104))), .net .tick, .net .tick, .net .tick,
    .net .tick] ++ Sample.connect 4 ++ Sample.performSend (-1) ++ List.replicate 6 (.sched .tick) ++
    [.net (.recv (.error (.other 104))), .net .tick, .net .tick, .release, .sched .tick,
      .sched .tick, .release, .release, .net .tick, .release, .release]

theorem descriptors_closed_once_reconnect : ∃ q,
    (socketAgent Sample.setup).Reach SocketsKeptIn q ∧ q.1.agent.rel = .done ∧
    q.1.agent.w.descriptors = [.opened 3, .closed 3, .opened 4, .closed 4] ∧
    Paired q.1.agent.w.descriptors := by
  have hr := (socketAgent Sample.setup).reach_get SocketsKeptIn reconnectRun (by decide +kernel)
  obtain ⟨_, hspec, _⟩ := @descriptors_closed_once Sample.setup
  exact ⟨_, hr, by decide +kernel, by decide +kernel, hspec _ hr (by decide +kernel)⟩

def releaseRun : List Act :=
  Sample.connect 3 ++ [.release, .sched .tick, .sched .tick, .release, .release,
    .net (.recv (.error .eagain)), .net .tick, .release, .release]

theorem descriptor_left_open : ¬ ∀ q, (socketAgent Sample.setup).Reachable q →
    q.1.agent.rel = .done → Paired q.1.agent.w.descriptors := by
  intro h
  have hr := (socketAgent Sample.setup).reach_get (fun _ _ ↦ True) releaseRun (by decide +kernel)
  obtain ⟨fds, hfds⟩ := h _ hr (by decide +kernel)
  have hopen : [Event.opened 3] = fds.flatMap fun n ↦ [.opened n, .closed n] :=
    Eq.trans (by decide +kernel) hfds
  cases fds with
  | nil => cases hopen
  | cons n fds => simp at hopen

end Runs

end EmpowerAgent
