import EmpowerAgent.Connection

namespace EmpowerAgent

def Event.files (fds : List ℤ) : Event → List ℤ
  | .opened n => n :: fds
  | .closed n => fds.erase n
  | _ => fds

def Event.OffFiles (e : Event) : Prop := ∀ fds, e.files fds = fds

def World.files (w : World) : List ℤ := w.hist.foldl Event.files []

namespace Agent

def emIsConnected (s : Agent) : ℤ := if s.w.net.status = .connected then 1 else 0

/-- The scheduler closes a socket that the network thread has connected and
not yet reported as connected. -/
def closesUnder (s : Agent) : Act → Bool
  | .sched _ => match s.sch, s.net.pc with
    | .down, .hello | .down, .store => 0 < s.w.net.sockfd
    | _, _ => false
  | _ => false

end Agent

def ClosedInTime (s : Agent) (a : Act) : Prop := s.closesUnder a = false

instance (s : Agent) (a : Act) : Decidable (ClosedInTime s a) :=
  inferInstanceAs (Decidable (s.closesUnder a = false))

section Descriptors

variable {w w' : World}

theorem files_of_extends (h : Extends Event.OffFiles w w') : w'.files = w.files := by
  obtain ⟨es, he, hes⟩ := h
  rw [World.files, World.files, he, List.foldl_append]
  generalize w.hist.foldl Event.files [] = fds
  clear he
  induction es with
  | nil => rfl
  | cons e es ih =>
    rw [List.foldl_cons, hes e (List.mem_cons_self ..) fds]
    exact ih fun e he ↦ hes e (List.mem_cons_of_mem _ he)

theorem Effect.sockfd {o : Op} {r : o.Res} (h : Effect o w r w') :
    w'.net.sockfd = w.net.sockfd := by cases h <;> rfl

theorem Effect.offFiles {o : Op} {r : o.Res} (h : Effect o w r w') :
    Extends Event.OffFiles w w' := by
  cases h with
  | accepted | trigAdd | sent | callback => exact .event rfl fun _ ↦ rfl
  | _ => exact .silent rfl

def World.HoldsFile (w : World) : Prop := 0 ≤ w.net.sockfd → w.net.sockfd ∈ w.files

theorem World.HoldsFile.keep (h : w.HoldsFile) (hfd : w'.net.sockfd = w.net.sockfd)
    (hx : Extends Event.OffFiles w w') : w'.HoldsFile := by
  intro hpos
  rw [hfd] at hpos ⊢
  rw [files_of_extends hx]
  exact h hpos

theorem World.HoldsFile.netNotConnected (h : w.HoldsFile) : w.netNotConnected.HoldsFile := by
  by_cases hfd : 0 < w.net.sockfd
  · intro hpos
    simp only [World.netNotConnected, hfd, ↓reduceIte] at hpos
    omega
  · refine h.keep (if_neg hfd) ?_
    refine ⟨_, List.append_assoc .., fun e he ↦ ?_⟩
    rw [if_neg hfd, List.nil_append] at he
    split_ifs at he
    · exact List.mem_singleton.mp he ▸ fun _ ↦ rfl
    · cases he

end Descriptors

section Runs

variable {S : Setup} {s : Agent} {w w' : World}

def NetPc.Connected : NetPc → Prop
  | .hello | .store => True
  | _ => False

structure SocketInv (pc : NetPc) (w : World) : Prop where
  file : w.HoldsFile
  up : w.net.status = .connected → 0 ≤ w.net.sockfd
  rising : pc.Connected → 0 ≤ w.net.sockfd

theorem SocketInv.keep {pc pc' : NetPc} (h : SocketInv pc w)
    (hfd : w'.net.sockfd = w.net.sockfd) (hx : Extends Event.OffFiles w w')
    (hs : w'.net.status = .connected → w.net.status = .connected ∨ pc.Connected)
    (hpc : pc'.Connected → pc.Connected) : SocketInv pc' w' where
  file := h.file.keep hfd hx
  up hs' := by
    rw [hfd]
    rcases hs hs' with hs | hs
    · exact h.up hs
    · exact h.rising hs
  rising hpc' := hfd ▸ h.rising (hpc hpc')

theorem SocketInv.netMove {E : Emproto} {t t' : NetThread} (h : SocketInv t.pc w)
    (hm : NetMove E t w t' w') (hconn : t.pc.Connecting → w.net.status = .notConnected) :
    SocketInv t'.pc w' := by
  cases hm with
  | connectOk hfd =>
    refine ⟨h.file, h.up, fun _ ↦ hfd⟩
  | socketFail =>
    have hs := hconn trivial
    refine ⟨fun hpos ↦ ?_, fun hs' ↦ ?_, nofun⟩
    · exact absurd hpos (by simp)
    · exact absurd (hs.symm.trans hs') nofun
  | socketOpen _ hn =>
    refine ⟨fun _ ↦ ?_, fun _ ↦ hn, nofun⟩
    simp only [World.files, List.foldl_append, List.foldl_cons, List.foldl_nil, Event.files]
    exact List.mem_cons_self ..
  | handler he => exact h.keep he.sockfd he.offFiles (fun hs ↦ .inl (he.status ▸ hs)) nofun
  | undo | down => exact ⟨h.file.netNotConnected, nofun, nofun⟩
  | helloAdd => exact h.keep rfl (.event rfl fun _ ↦ rfl) .inl fun _ ↦ trivial
  | store => exact h.keep rfl (.silent rfl) (fun _ ↦ .inr trivial) nofun
  | recvMore | recvDrop | recvFail => exact h.keep rfl (.event rfl fun _ ↦ rfl) .inl nofun
  | recvMessage =>
    refine h.keep rfl (.trans (.log w _ ?_) (.log _ _ ?_)) .inl nofun <;> exact fun _ ↦ rfl
  | again hpc | connectFail hpc =>
    refine h.keep rfl (.silent rfl) .inl fun hup ↦ ?_
    rcases hpc with rfl | rfl <;> cases hup
  | _ => exact h.keep rfl (.silent rfl) .inl nofun

theorem SchMove.sockets {pc pc' : SchPc} (hm : SchMove S pc w pc' w') (hpc : pc ≠ .down) :
    w'.net.sockfd = w.net.sockfd ∧ w'.net.status = w.net.status ∧
      Extends Event.OffFiles w w' := by
  cases hm with
  | down => exact absurd rfl hpc
  | op he => exact ⟨he.sockfd, he.status, he.offFiles⟩
  | returned | consumed => exact ⟨rfl, rfl, .event rfl fun _ ↦ rfl⟩
  | netError | drain => exact ⟨rfl, rfl, .freed rfl fun _ _ ↦ rfl⟩
  | alert =>
    split_ifs
    · exact ⟨rfl, rfl, .event rfl fun _ ↦ rfl⟩
    · exact ⟨rfl, rfl, .silent rfl⟩
  | _ => exact ⟨rfl, rfl, .silent rfl⟩

theorem SocketInv.schMove {npc : NetPc} {pc pc' : SchPc} (h : SocketInv npc w)
    (hm : SchMove S pc w pc' w') (hdown : pc = .down → npc.Connected → w.net.sockfd ≤ 0) :
    SocketInv npc w' := by
  by_cases hpc : pc = .down
  · subst hpc
    cases hm
    refine ⟨h.file.netNotConnected, nofun, fun hup ↦ ?_⟩
    have hle := hdown rfl hup
    simp only [World.netNotConnected, if_neg (Int.not_lt.mpr hle)]
    exact h.rising hup
  · obtain ⟨hfd, hstatus, hx⟩ := hm.sockets hpc
    exact h.keep hfd hx (fun hs ↦ .inl (hstatus ▸ hs)) id

theorem SocketInv.of_reach (h : (agent S).Reach ClosedInTime s) : SocketInv s.net.pc s.w := by
  refine h.invariant (I := fun s ↦ SocketInv s.net.pc s.w) ?_ ?_
  · exact ⟨nofun, nofun, nofun⟩
  intro s a s' hr hI hok hs
  cases Agent.step_move hs with
  | net hm => exact hI.netMove hm (connecting_status hr.reachable)
  | sched _ hm =>
    refine hI.schMove hm fun hpc hup ↦ ?_
    simp only [ClosedInTime, Agent.closesUnder, hpc] at hok
    cases hnet : s.net.pc with
    | hello | store =>
      rw [hnet] at hok
      simpa using hok
    | _ =>
      rw [hnet] at hup
      cases hup
  | api hr =>
    obtain ⟨_, hw⟩ := ApiCall.keeps (I := fun _ ↦ SocketInv s.net.pc) hr hI
      fun _ _ _ _ _ _ he hv ↦ hv.keep he.sockfd he.offFiles (fun hs ↦ .inl (he.status ▸ hs)) id
    exact hw
  | release hm => cases hm <;> exact hI.keep rfl (.silent rfl) .inl id

/-- Where the scheduler closes no socket between its connection and the
report of it, an agent that says it is connected has an open socket. -/
theorem connected_has_socket (h : (agent S).Reach ClosedInTime s) :
    (s.w.net.status = .connected → 0 ≤ s.w.net.sockfd ∧ s.w.net.sockfd ∈ s.w.files) ∧
      (s.emIsConnected = 1 → s.w.net.sockfd ≠ -1) := by
  have hI := SocketInv.of_reach h
  refine ⟨fun hs ↦ ⟨hI.up hs, hI.file (hI.up hs)⟩, fun hone ↦ ?_⟩
  have hs : s.w.net.status = .connected := by
    by_contra hs
    simp [Agent.emIsConnected, hs] at hone
  have hpos := hI.up hs
  omega

theorem connected_has_socket_up : ∃ s, (agent Sample.setup).Reach ClosedInTime s ∧
    s.emIsConnected = 1 ∧ s.w.net.sockfd = 3 ∧ 3 ∈ s.w.files := by
  have hr := (agent Sample.setup).reach_get ClosedInTime (Sample.connect 3) (by decide)
  obtain ⟨hup, _⟩ := connected_has_socket hr
  exact ⟨_, hr, by decide, by decide, (hup (by decide)).2⟩

def closeUnderRun : List Act :=
  [Sample.emSend [0, 6, 0, 0, 0, 0]] ++ Sample.performSend (-1) ++
    Sample.dropConnection.take 2 ++ (Sample.connect 3).take 6 ++ [.sched .tick, .net .tick]

theorem connected_without_socket : ¬ ∀ s, (agent Sample.setup).Reachable s →
    s.emIsConnected = 1 → s.w.net.sockfd ≠ -1 := by
  intro h
  have hr := (agent Sample.setup).reach_get (fun _ _ ↦ True) closeUnderRun (by decide +kernel)
  exact h _ hr (by decide +kernel) (by decide +kernel)

end Runs

end EmpowerAgent
