import EmpowerAgent.Threads

namespace EmpowerAgent

open Proc

/-- The record goes on with events that all meet `P`. -/
def Extends (P : Event → Prop) (w w' : World) : Prop :=
  ∃ es, w'.hist = w.hist ++ es ∧ ∀ e ∈ es, P e

namespace Extends

variable {P : Event → Prop} {w w' w'' : World}

theorem silent (h : w'.hist = w.hist) : Extends P w w' := ⟨[], by simp [h], by simp⟩

theorem event {e : Event} (h : w'.hist = w.hist ++ [e]) (he : P e) : Extends P w w' :=
  ⟨[e], h, by simpa using he⟩

theorem log (w : World) (e : Event) (he : P e) : Extends P w (w.log e) := .event rfl he

theorem mono {Q : Event → Prop} (h : Extends P w w') (hPQ : ∀ e, P e → Q e) :
    Extends Q w w' := by
  obtain ⟨es, he, hes⟩ := h
  exact ⟨es, he, fun e hm ↦ hPQ e (hes e hm)⟩

theorem trans (h : Extends P w w') (h' : Extends P w' w'') : Extends P w w'' := by
  obtain ⟨es, he, hes⟩ := h
  obtain ⟨es', he', hes'⟩ := h'
  refine ⟨es ++ es', by simp [he', he], fun e hm ↦ ?_⟩
  rcases List.mem_append.mp hm with hm | hm
  · exact hes e hm
  · exact hes' e hm

theorem mem (h : Extends P w w') {e : Event} (he : e ∈ w.hist) : e ∈ w'.hist := by
  obtain ⟨es, hes, _⟩ := h
  exact hes ▸ List.mem_append_left _ he

theorem subset (h : Extends P w w') : w.hist ⊆ w'.hist := fun _ he ↦ h.mem he

theorem filterMap_eq {β : Type} {f : Event → Option β} (h : Extends (f · = none) w w') :
    w'.hist.filterMap f = w.hist.filterMap f := by
  obtain ⟨es, he, hes⟩ := h
  rw [he, List.filterMap_append, List.filterMap_eq_nil_iff.mpr hes, List.append_nil]

theorem freed {ts : List Emtask} (h : w'.hist = w.hist ++ ts.map (.freed ·.addr))
    (hP : ∀ n, P (.freed n)) : Extends P w w' := by
  refine ⟨_, h, fun e he ↦ ?_⟩
  obtain ⟨t, _, rfl⟩ := List.mem_map.mp he
  exact hP t.addr

theorem netNotConnected (w : World) (hc : ∀ fd, P (.closed fd)) (hl : ∀ c, P (.lost c)) :
    Extends P w w.netNotConnected := by
  refine ⟨_, List.append_assoc .., fun e he ↦ ?_⟩
  rcases List.mem_append.mp he with he | he <;> split_ifs at he <;>
    simp only [List.mem_singleton, List.not_mem_nil] at he <;> subst he
  · exact hc _
  · exact hl _

end Extends

/-- An event of the threads other than the network thread: it tells of
nothing received, and of no more sent than was asked. -/
def Event.Local : Event → Prop
  | .received _ _ | .handled _ _ => False
  | .sent _ msg n => n ≤ msg.length
  | _ => True

/-- What one operation does: its result, and what becomes of the memory. -/
inductive Effect : (o : Op) → World → o.Res → World → Prop
  | mallocFail {w : World} : Effect .malloc w none w
  | malloc {w : World} : Effect .malloc w (some w.heap) { w with heap := w.heap + 1 }
  | free {w : World} {addr : ℕ} : Effect (.free addr) w () w
  | clockGettime {w : World} {now : Timespec} : Effect .clockGettime w now w
  | refused {w : World} {task : Emtask} : w.sched.stop = true →
      Effect (.schedAddTask task) w (-1 : ℤ) w
  | accepted {w : World} {task : Emtask} : w.sched.stop = false →
      Effect (.schedAddTask task) w (0 : ℤ) { w with
        sched := { w.sched with jobs := w.sched.jobs ++ [task] }
        hist := w.hist ++ [.accepted task.addr] }
  | trigAdd {w : World} {trig : Emtri} : Effect (.trigAdd trig) w w.trig.next (w.trigAdd trig).2
  | trigDelById {w : World} {id : Int32} :
      Effect (.trigDelById id) w (w.trig.trigDelById id).1
        { w with trig := (w.trig.trigDelById id).2 }
  | trigDelByInst {w : World} {mod : Int32} {type : ℤ} {inst : Int32} :
      Effect (.trigDelByInst mod type inst) w (w.trig.trigDelByInst mod type inst).1
        { w with trig := (w.trig.trigDelByInst mod type inst).2 }
  | trigFindById {w : World} {id : Int32} :
      Effect (.trigFindById id) w (w.trig.trigFindById id) w
  | useTrig {w : World} {trig : Emtri} : Effect (.useTrig trig) w () w
  | netNextSeq {w : World} : Effect .netNextSeq w w.net.seq w.netNextSeq.2
  | sendFailed {w : World} {msg : Bytes} {n : ℤ} : n < 0 → Effect (.netSend msg) w n w
  | sent {w : World} {msg : Bytes} {n : ℤ} : 0 ≤ n → n ≤ msg.length → 0 ≤ w.net.sockfd →
      (0 < n ∨ msg.length = 0) →
      Effect (.netSend msg) w n (w.log (.sent w.socks msg n.toNat))
  | callback {w : World} {c : Callback} :
      Effect (.callback c) w () (w.log (.callback w.conns c))
  | emlog {w : World} {text : String} : Effect (.emlog text) w () w

theorem exec_effect {o : Op} {a : Ans} {w w' : World} {r : o.Res}
    (h : exec o a w = some (r, w')) : Effect o w r w' := by
  unfold exec at h
  split at h
  · cases h; exact .malloc
  · cases h; exact .mallocFail
  · cases h; exact .free
  · cases h; exact .clockGettime
  · rename_i task
    cases hs : w.sched.stop with
    | true =>
      rw [World.schedAddTask_of_stop w hs] at h
      cases h; exact .refused hs
    | false =>
      rw [World.schedAddTask_of_run w hs] at h
      cases h; exact .accepted hs
  · cases h; exact .trigAdd
  · cases h; exact .trigDelById
  · cases h; exact .trigDelByInst
  · cases h; exact .trigFindById
  · cases h; exact .useTrig
  · cases h; exact .netNextSeq
  · simp only [World.netSend] at h
    split_ifs at h with hn hg
    · cases h; exact .sendFailed hn
    · cases h; exact .sent (by omega) hg.2.1 hg.1 hg.2.2
  · cases h; exact .callback
  · cases h; exact .emlog
  · cases h

theorem exec_netSend {msg : Bytes} {ans : Ans} {r : ℤ} {w w' : World}
    (h : exec (.netSend msg) ans w = some (r, w')) : ans = .sent r := by
  cases ans with
  | sent n =>
    simp only [exec, World.netSend] at h
    split_ifs at h <;> cases h <;> rfl
  | _ => cases h

section Frames

variable {o : Op} {w w' : World} {r : o.Res}

theorem Effect.conns (h : Effect o w r w') : w'.conns = w.conns := by cases h <;> rfl

theorem Effect.status (h : Effect o w r w') : w'.net.status = w.net.status := by
  cases h <;> rfl

theorem Effect.stop (h : Effect o w r w') : w'.sched.stop = w.sched.stop := by cases h <;> rfl

theorem Effect.todo (h : Effect o w r w') : w'.sched.todo = w.sched.todo := by cases h <;> rfl

theorem Effect.extends (h : Effect o w r w') : Extends Event.Local w w' := by
  cases h with
  | sent hn hle => exact .event rfl (show Int.toNat _ ≤ _ by omega)
  | accepted | trigAdd | callback => exact .event rfl trivial
  | _ => exact .silent rfl

theorem Effect.heap_le (h : Effect o w r w') : w.heap ≤ w'.heap := by
  cases h with
  | malloc => exact Nat.le_succ _
  | _ => exact Nat.le_refl _

end Frames

/-- What one step of the network thread does, guards included. -/
inductive NetMove (E : Emproto) : NetThread → World → NetThread → World → Prop
  | nextExit {e : Errno} {w : World} : w.net.status = .notConnected → w.net.stop = true →
      NetMove E ⟨.next, e⟩ w ⟨.exit, e⟩ w
  | nextSocket {e : Errno} {w : World} : w.net.status = .notConnected →
      w.net.stop = false →
      NetMove E ⟨.next, e⟩ w ⟨.socket, e⟩ w
  | nextPoll {e : Errno} {w : World} : w.net.status = .connected →
      NetMove E ⟨.next, e⟩ w ⟨.poll .header [], e⟩ w
  | socketKeep {e : Errno} {w : World} : 0 ≤ w.net.sockfd →
      NetMove E ⟨.socket, e⟩ w ⟨.resolve, e⟩ w
  | socketFail {e e' : Errno} {w : World} : w.net.sockfd < 0 →
      NetMove E ⟨.socket, e⟩ w ⟨.next, e'⟩ { w with net := { w.net with sockfd := -1 } }
  | socketOpen {e : Errno} {w : World} {n : ℤ} : w.net.sockfd < 0 → 0 ≤ n →
      NetMove E ⟨.socket, e⟩ w ⟨.resolve, e⟩ { w with
        net := { w.net with sockfd := n }
        socks := w.socks + 1
        hist := w.hist ++ [.opened n] }
  | resolve {e : Errno} {w : World} : NetMove E ⟨.resolve, e⟩ w ⟨.again, e⟩ w
  | resolveFail {e e' : Errno} {w : World} : NetMove E ⟨.resolve, e⟩ w ⟨.next, e'⟩ w
  | again {e : Errno} {w : World} {pc : NetPc} : pc = .connect ∨ pc = .next →
      NetMove E ⟨.again, e⟩ w ⟨pc, e⟩ w
  | connectOk {e : Errno} {w : World} : 0 ≤ w.net.sockfd →
      NetMove E ⟨.connect, e⟩ w ⟨.hello, e⟩ { w with conns := w.conns + 1 }
  | connectFail {e e' : Errno} {w : World} {pc : NetPc} : pc = .again ∨ pc = .next →
      NetMove E ⟨.connect, e⟩ w ⟨pc, e'⟩ w
  | helloFail {e : Errno} {w : World} : NetMove E ⟨.hello, e⟩ w ⟨.undo, .enomem⟩ w
  | helloRefused {e : Errno} {w : World} : w.sched.stop = true →
      NetMove E ⟨.hello, e⟩ w ⟨.undo, e⟩ { w with heap := w.heap + 1 }
  | helloAdd {e : Errno} {w : World} (now : Timespec) : w.sched.stop = false →
      NetMove E ⟨.hello, e⟩ w ⟨.store, e⟩ { w with
        heap := w.heap + 1
        sched := { w.sched with jobs := w.sched.jobs ++ [helloTask w.heap now] }
        hist := w.hist ++ [.accepted w.heap] }
  | store {e : Errno} {w : World} : NetMove E ⟨.store, e⟩ w ⟨.poll .header [], e⟩
      { w with net := { w.net with status := .connected } }
  | undo {e : Errno} {w : World} : NetMove E ⟨.undo, e⟩ w ⟨.next, e⟩ w.netNotConnected
  | pollExit {e e' : Errno} {w : World} {ph : Phase} {got : Bytes} : w.net.stop = true →
      NetMove E ⟨.poll ph got, e⟩ w ⟨.exit, e'⟩ w
  | pollRecv {e e' : Errno} {w : World} {ph : Phase} {got : Bytes} : w.net.stop = false →
      NetMove E ⟨.poll ph got, e⟩ w ⟨.recv ph got, e'⟩ w
  | recvMore {e : Errno} {w : World} {ph ph' : Phase} {got bytes : Bytes} :
      0 ≤ w.net.sockfd → 0 < bytes.length → bytes.length ≤ netAsked E ph got →
      netCollect E ph (got ++ bytes) = .more ph' →
      NetMove E ⟨.recv ph got, e⟩ w ⟨.poll ph' (got ++ bytes), e⟩
        (w.log (.received w.conns bytes))
  | recvDrop {e : Errno} {w : World} {ph : Phase} {got bytes : Bytes} :
      0 ≤ w.net.sockfd → 0 < bytes.length → bytes.length ≤ netAsked E ph got →
      netCollect E ph (got ++ bytes) = .drop →
      NetMove E ⟨.recv ph got, e⟩ w ⟨.down, e⟩ (w.log (.received w.conns bytes))
  | recvMessage {e : Errno} {w : World} {ph : Phase} {got bytes : Bytes} :
      0 ≤ w.net.sockfd → 0 < bytes.length → bytes.length ≤ netAsked E ph got →
      netCollect E ph (got ++ bytes) = .message →
      NetMove E ⟨.recv ph got, e⟩ w ⟨.process (netProcessMessage E (got ++ bytes)), e⟩
        ((w.log (.received w.conns bytes)).log (.handled w.conns (got ++ bytes)))
  | recvRetry {e e' : Errno} {w : World} {ph : Phase} {got : Bytes} : e' = .eagain →
      NetMove E ⟨.recv ph got, e⟩ w ⟨.poll ph got, e'⟩ w
  | recvFail {e e' : Errno} {w : World} {ph : Phase} {got : Bytes} : e' ≠ .eagain →
      NetMove E ⟨.recv ph got, e⟩ w ⟨.down, e'⟩ (w.log (.recvFailed w.conns))
  | handler {e : Errno} {w w' : World} {o : Op} {k : o.Res → Proc ℤ} {r : o.Res} :
      Effect o w r w' →
      NetMove E ⟨.process (.call o k), e⟩ w ⟨.process (k r), o.errno r e⟩ w'
  | handled {e : Errno} {w : World} {x : ℤ} :
      NetMove E ⟨.process (.pure x), e⟩ w ⟨.next, e⟩ w
  | down {e : Errno} {w : World} : NetMove E ⟨.down, e⟩ w ⟨.next, e⟩ w.netNotConnected

/-- What the network thread records, the operations of its handlers apart. -/
def Event.OfNet : Event → Prop
  | .accepted _ | .opened _ | .closed _ | .lost _ | .received _ _ | .recvFailed _
  | .handled _ _ => True
  | _ => False

section Network

variable {E : Emproto} {t t' : NetThread} {w w' : World} {a : Ans}

theorem NetMove.records (h : NetMove E t w t' w') : Extends Event.OfNet w w' ∨
    ∃ o k r, t.pc = .process (.call o k) ∧ Effect o w r w' := by
  cases h with
  | handler he => exact .inr ⟨_, _, _, rfl, he⟩
  | undo | down => exact .inl (.netNotConnected w (fun _ ↦ trivial) fun _ ↦ trivial)
  | recvMessage =>
    left
    refine .trans (.log w _ ?_) (.log _ _ ?_) <;> trivial
  | socketOpen | helloAdd | recvMore | recvDrop | recvFail => exact .inl (.event rfl trivial)
  | _ => exact .inl (.silent rfl)

theorem netNoData_move {e e' : Errno} {ph : Phase} {got : Bytes}
    (h : netNoData e' ph got w = (t', w')) : NetMove E ⟨.recv ph got, e⟩ w t' w' := by
  unfold netNoData at h
  split_ifs at h with he
  · cases h; exact .recvRetry he
  · cases h; exact .recvFail he

theorem netRecv_move {e : Errno} {ph : Phase} {got : Bytes} {r : RecvResult}
    (h : netRecv E e ph got w r = some (t', w')) : NetMove E ⟨.recv ph got, e⟩ w t' w' := by
  cases r with
  | data bytes =>
    simp only [netRecv] at h
    split_ifs at h with hg
    simp only [netReceived, Option.some.injEq] at h
    cases hc : netCollect E ph (got ++ bytes) with
    | more ph' => rw [hc] at h; cases h; exact .recvMore hg.1 hg.2.1 hg.2.2 hc
    | drop => rw [hc] at h; cases h; exact .recvDrop hg.1 hg.2.1 hg.2.2 hc
    | message => rw [hc] at h; cases h; exact .recvMessage hg.1 hg.2.1 hg.2.2 hc
  | closed =>
    simp only [netRecv] at h
    split_ifs at h
    exact netNoData_move (Option.some.inj h)
  | error e' => exact netNoData_move (Option.some.inj h)

theorem netSocket_move {e : Errno} (h : netSocket e w a = some (t', w')) :
    NetMove E ⟨.socket, e⟩ w t' w' := by
  cases a with
  | tick =>
    simp only [netSocket] at h
    split_ifs at h with hs
    cases h; exact .socketKeep (by omega)
  | fd n =>
    simp only [netSocket] at h
    split_ifs at h with hs
    cases h; exact .socketOpen hs.1 hs.2
  | fails e' =>
    simp only [netSocket] at h
    split_ifs at h with hs
    cases h; exact .socketFail hs
  | _ => cases h

theorem netConnect_move {e : Errno} {r : Option Errno} (h : netConnect e w r = some (t', w')) :
    NetMove E ⟨.connect, e⟩ w t' w' := by
  cases r with
  | none =>
    simp only [netConnect] at h
    split_ifs at h with hs
    cases h; exact .connectOk hs
  | some e' =>
    cases h
    refine .connectFail ?_
    split_ifs <;> simp

theorem netConnected_move {e : Errno} (h : netConnected e w a = some (t', w')) :
    NetMove E ⟨.hello, e⟩ w t' w' := by
  cases a with
  | ok b =>
    cases b
    · cases h; exact .helloFail
    · cases h
  | time now =>
    simp only [netConnected, Option.some.injEq] at h
    cases hs : w.sched.stop with
    | true =>
      rw [World.schedAddTask_of_stop { w with heap := w.heap + 1 } hs] at h
      cases h; exact .helloRefused hs
    | false =>
      rw [World.schedAddTask_of_run { w with heap := w.heap + 1 } hs] at h
      cases h; exact .helloAdd now hs
  | _ => cases h

theorem netStep_move (h : netStep E t a w = some (t', w')) : NetMove E t w t' w' := by
  rcases t with ⟨pc, e⟩
  unfold netStep at h
  split at h
  · rename_i hpc
    cases hpc
    split at h
    · rename_i hs
      cases h
      split_ifs with hstop
      · exact .nextExit hs hstop
      · exact .nextSocket hs (by simpa using hstop)
    · cases h; exact .nextPoll ‹_›
  · rename_i hpc; cases hpc; exact netSocket_move h
  · rename_i hpc; cases hpc; cases h; exact .resolve
  · rename_i hpc; cases hpc; cases h; exact .resolveFail
  · rename_i hpc
    cases hpc; cases h
    refine .again ?_
    split_ifs <;> simp
  · rename_i hpc; cases hpc; exact netConnect_move h
  · rename_i hpc; cases hpc; exact netConnected_move h
  · rename_i hpc; cases hpc; cases h; exact .store
  · rename_i hpc; cases hpc; cases h; exact .undo
  · rename_i hpc
    cases hpc; cases h
    split_ifs with hstop
    · exact .pollExit hstop
    · exact .pollRecv (by simpa using hstop)
  · rename_i hpc
    cases hpc; cases h
    split_ifs with hstop
    · exact .pollExit hstop
    · exact .pollRecv (by simpa using hstop)
  · rename_i hpc; cases hpc; exact netRecv_move h
  · rename_i hpc; cases hpc; cases h; exact .handled
  · rename_i hpc
    cases hpc
    obtain ⟨⟨r, w₁⟩, he, h⟩ := Option.map_eq_some_iff.mp h
    cases h; exact .handler (exec_effect he)
  · rename_i hpc; cases hpc; cases h; exact .down
  · cases h

end Network

/-- What one step of the scheduler thread does, guards included. -/
inductive SchMove (S : Setup) : SchPc → World → SchPc → World → Prop
  | loopDrain {w : World} : w.sched.stop = true → SchMove S .loop w .drain w
  | loopTake {w : World} : w.sched.stop = false → SchMove S .loop w .take w
  | takeNone {w : World} : w.sched.jobs = [] → SchMove S .take w .back w
  | takeTask {w : World} {task : Emtask} {jobs : List Emtask} : w.sched.jobs = task :: jobs →
      SchMove S .take w (.clock task) { w with sched := { w.sched with jobs } }
  | clock {w : World} {task : Emtask} {now : Timespec} :
      SchMove S (.clock task) w (.perform task now (schedPerformJob S task now)) w
  | op {w w' : World} {task : Emtask} {now : Timespec} {o : Op} {k : o.Res → Proc Outcome}
      {r : o.Res} : Effect o w r w' →
      SchMove S (.perform task now (.call o k)) w (.perform task now (k r)) w'
  | returned {w : World} {task : Emtask} {now : Timespec} {op : Outcome} :
      SchMove S (.perform task now (.pure op)) w (.settle task now op)
        (w.log (.performed task.addr op))
  | later {w : World} {task : Emtask} {now : Timespec} :
      SchMove S (.settle task now .notElapsed) w .take
        { w with sched := { w.sched with todo := task :: w.sched.todo } }
  | again {w : World} {task : Emtask} {now : Timespec} :
      SchMove S (.settle task now .reschedule) w .take { w with sched := { w.sched with
        todo := { task with
          issued := now
          resch := if 0 < task.resch then task.resch - 1 else task.resch } :: w.sched.todo } }
  | consumed {w : World} {task : Emtask} {now : Timespec} :
      SchMove S (.settle task now .consumed) w .take (w.log (.freed task.addr))
  | netError {w : World} {task : Emtask} {now : Timespec} :
      SchMove S (.settle task now .netError) w .flush { w with
        sched := { w.sched with jobs := [], todo := [] }
        hist := w.hist ++ (task :: (w.sched.todo ++ w.sched.jobs)).map (.freed ·.addr) }
  | flush {w : World} : SchMove S .flush w .alert { w with trig := w.trig.trigFlush }
  | alert {w : World} : SchMove S .alert w .down
      (if S.ops.disconnected then w.log (.callback w.conns .disconnected) else w)
  | down {w : World} : SchMove S .down w .loop w.netNotConnected
  | back {w : World} : SchMove S .back w .loop { w with sched :=
      { w.sched with jobs := w.sched.todo.reverse ++ w.sched.jobs, todo := [] } }
  | drain {w : World} : SchMove S .drain w .exit { w with
      sched := { w.sched with jobs := [], todo := [] }
      hist := w.hist ++ (w.sched.todo ++ w.sched.jobs).map (.freed ·.addr) }

/-- What the scheduler records, the operations of its jobs apart. -/
def Event.OfSched : Event → Prop
  | .performed _ _ | .freed _ | .closed _ | .lost _ | .callback _ .disconnected => True
  | _ => False

theorem SchMove.records {S : Setup} {pc pc' : SchPc} {w w' : World}
    (h : SchMove S pc w pc' w') : Extends Event.OfSched w w' ∨
      ∃ task now o k r, pc = .perform task now (.call o k) ∧ Effect o w r w' := by
  cases h with
  | op he => exact .inr ⟨_, _, _, _, _, rfl, he⟩
  | returned | consumed => exact .inl (.event rfl trivial)
  | netError | drain => exact .inl (.freed rfl fun _ ↦ trivial)
  | alert =>
    left
    split_ifs
    · exact .event rfl trivial
    · exact .silent rfl
  | down => exact .inl (.netNotConnected w (fun _ ↦ trivial) fun _ ↦ trivial)
  | _ => exact .inl (.silent rfl)

theorem SchMove.extends {S : Setup} {pc pc' : SchPc} {w w' : World}
    (h : SchMove S pc w pc' w') : Extends Event.Local w w' := by
  rcases h.records with hx | ⟨_, _, _, _, _, _, he⟩
  · refine hx.mono fun e he ↦ ?_
    cases e <;> trivial
  · exact he.extends

theorem schedStep_move {S : Setup} {pc pc' : SchPc} {a : Ans} {w w' : World}
    (h : schedStep S pc a w = some (pc', w')) : SchMove S pc w pc' w' := by
  unfold schedStep at h
  split at h
  · cases h
    split_ifs with hs
    · exact .loopDrain hs
    · exact .loopTake (by simpa using hs)
  · split at h
    · cases h; exact .takeNone ‹_›
    · cases h; exact .takeTask ‹_›
  · cases h; exact .clock
  · cases h; exact .returned
  · obtain ⟨⟨r, w₁⟩, he, h⟩ := Option.map_eq_some_iff.mp h
    cases h; exact .op (exec_effect he)
  · rename_i op
    cases op with
    | netError => cases h; exact .netError
    | consumed => cases h; exact .consumed
    | notElapsed => cases h; exact .later
    | reschedule => cases h; exact .again
  · cases h; exact .flush
  · cases h; exact .alert
  · cases h; exact .down
  · cases h; exact .back
  · cases h; exact .drain
  · cases h

inductive RelMove : Agent → Agent → Prop
  | stopSched {s : Agent} : s.rel = .idle → RelMove s { s with
      w := { s.w with sched := { s.w.sched with stop := true } }, rel := .joinSched }
  | schedJoined {s : Agent} : s.sch = .exit → RelMove s { s with rel := .netStop }
  | stopNet {s : Agent} : RelMove s { s with
      w := { s.w with net := { s.w.net with stop := true } }, rel := .joinNet }
  | netJoined {s : Agent} : s.net.pc = .exit → RelMove s { s with rel := .flush }
  | flush {s : Agent} : RelMove s { s with
      w := { s.w with trig := s.w.trig.trigFlush }, rel := .done }

theorem releaseStep_move {s s' : Agent} (h : s.releaseStep = some s') : RelMove s s' := by
  unfold Agent.releaseStep at h
  split at h
  · cases h; exact .stopSched ‹_›
  · cases h; exact .schedJoined ‹_›
  · cases h; exact .stopNet
  · cases h; exact .netJoined ‹_›
  · cases h; exact .flush
  · cases h

theorem releaseStep_next {s s' : Agent} (h : s.releaseStep = some s') :
    s'.sch = s.sch ∧ s'.net = s.net ∧ (s.rel = .idle ∧ s'.rel = .joinSched ∨
      s.rel = .joinSched ∧ s.sch = .exit ∧ s'.rel = .netStop ∨
      s.rel = .netStop ∧ s'.rel = .joinNet ∨
      s.rel = .joinNet ∧ s.net.pc = .exit ∧ s'.rel = .flush ∨
      s.rel = .flush ∧ s'.rel = .done) := by
  rcases s with ⟨w, ⟨pc, e⟩, sch, rel⟩
  cases rel with
  | idle | netStop | flush =>
    cases h
    simp
  | joinSched =>
    cases sch with
    | exit =>
      cases h
      simp
    | _ => cases h
  | joinNet =>
    cases pc with
    | exit =>
      cases h
      simp
    | _ => cases h
  | done => cases h

/-- What one step of the agent does: one of its threads moves, or a call of
the library runs from its beginning to its end. -/
inductive Move (S : Setup) : Agent → Act → Agent → Prop
  | net {s : Agent} {a : Ans} {t : NetThread} {w : World} :
      NetMove S.proto s.net s.w t w → Move S s (.net a) { s with net := t, w := w }
  | sched {s : Agent} {a : Ans} {pc : SchPc} {w : World} :
      schedStep S s.sch a s.w = some (pc, w) → SchMove S s.sch s.w pc w →
      Move S s (.sched a) { s with sch := pc, w := w }
  | api {s : Agent} {call : ApiCall} {answers : List Ans} {x : ℤ} {w : World} :
      call.body.run exec answers s.w = some (x, w) →
      Move S s (.api call answers) { s with w := w }
  | release {s s' : Agent} : RelMove s s' → Move S s .release s'

theorem Agent.step_move {S : Setup} {s s' : Agent} {a : Act} (h : (agent S).step s a = some s') :
    Move S s a s' := by
  simp only [agent, Agent.step] at h
  cases a with
  | net a =>
    obtain ⟨⟨t, w⟩, hs, rfl⟩ := Option.map_eq_some_iff.mp h
    exact .net (netStep_move hs)
  | sched a =>
    obtain ⟨⟨pc, w⟩, hs, rfl⟩ := Option.map_eq_some_iff.mp h
    exact .sched hs (schedStep_move hs)
  | api call answers =>
    obtain ⟨⟨x, w⟩, hs, rfl⟩ := Option.map_eq_some_iff.mp h
    exact .api hs
  | release => exact .release (releaseStep_move h)

theorem Agent.net_or {S : Setup} {s s' : Agent} {a : Act} (h : (agent S).step s a = some s') :
    (∃ ans t w, a = .net ans ∧ netStep S.proto s.net ans s.w = some (t, w) ∧
      s' = { s with net := t, w := w }) ∨ ∀ ans, a ≠ .net ans := by
  by_cases ha : ∃ ans, a = .net ans
  · obtain ⟨ans, rfl⟩ := ha
    obtain ⟨⟨t, w⟩, hs, rfl⟩ := Option.map_eq_some_iff.mp h
    exact .inl ⟨ans, t, w, rfl, hs, rfl⟩
  · exact .inr (not_exists.mp ha)

theorem Agent.sched_or {S : Setup} {s s' : Agent} {a : Act} (h : (agent S).step s a = some s') :
    (∃ ans pc w, a = .sched ans ∧ schedStep S s.sch ans s.w = some (pc, w) ∧
      s' = { s with sch := pc, w := w }) ∨ ∀ ans, a ≠ .sched ans := by
  by_cases ha : ∃ ans, a = .sched ans
  · obtain ⟨ans, rfl⟩ := ha
    obtain ⟨⟨pc, w⟩, hs, rfl⟩ := Option.map_eq_some_iff.mp h
    exact .inl ⟨ans, pc, w, rfl, hs, rfl⟩
  · exact .inr (not_exists.mp ha)

theorem Agent.handler_step {S : Setup} {s s' : Agent} {a : Ans} {o : Op} {k : o.Res → Proc ℤ}
    (h : (agent S).step s (.net a) = some s') (hpc : s.net.pc = .process (.call o k)) :
    ∃ r w, exec o a s.w = some (r, w) ∧
      s' = { s with net := ⟨.process (k r), o.errno r s.net.errno⟩, w := w } := by
  obtain ⟨⟨t, w⟩, hstep, rfl⟩ := Option.map_eq_some_iff.mp h
  unfold netStep at hstep
  rw [hpc] at hstep
  obtain ⟨⟨r, w⟩, he, heq⟩ := Option.map_eq_some_iff.mp hstep
  cases heq
  exact ⟨r, w, he, rfl⟩

theorem Agent.handler_done {S : Setup} {s s' : Agent} {a : Ans} {x : ℤ}
    (h : (agent S).step s (.net a) = some s') (hpc : s.net.pc = .process (.pure x)) :
    s' = { s with net := ⟨.next, s.net.errno⟩ } := by
  obtain ⟨⟨t, w⟩, hstep, rfl⟩ := Option.map_eq_some_iff.mp h
  unfold netStep at hstep
  rw [hpc] at hstep
  cases a with
  | tick => cases hstep; rfl
  | _ => cases hstep

end EmpowerAgent
