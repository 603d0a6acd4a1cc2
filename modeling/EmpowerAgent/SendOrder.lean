import EmpowerAgent.TriggerRuns

namespace EmpowerAgent

open Library.Proc (Obeys)

def Emtask.sends (t : Emtask) : Bool := t.type = .send && t.bytes.length ≤ emBufSize

theorem Emtask.sends_iff {t : Emtask} :
    t.sends = true ↔ t.type = .send ∧ t.bytes.length ≤ emBufSize := by
  simp [Emtask.sends]

/-- What an observer notes of the messages, by their tasks: the ones that
`em_send` queued, the ones handed to `net_send`, and the time read last. -/
structure SendLog where
  queued : List (ℕ × Bytes)
  handed : List (ℕ × Bytes)
  clock : Option Timespec

def Ans.reading : Ans → Option Timespec
  | .time t => some t
  | _ => none

def Act.readings : Act → List Timespec
  | .net a | .sched a => a.reading.toList
  | .api _ answers => answers.filterMap Ans.reading
  | .release => []

def SchPc.hands : SchPc → List (ℕ × Bytes)
  | .perform task _ (.call (.netSend _) _) =>
    if task.type = .send then [(task.addr, task.bytes)] else []
  | _ => []

namespace Agent

def queues (s s' : Agent) : Act → List (ℕ × Bytes)
  | .api (.emSend msg) _ => (s'.w.sched.jobs.drop s.w.sched.jobs.length).map (·.addr, msg)
  | _ => []

def hands (s : Agent) : Act → List (ℕ × Bytes)
  | .sched _ => s.sch.hands
  | _ => []

/-- The clock says that a message is due while one that was put off waits. -/
def overtakes (s : Agent) : Act → Bool
  | .sched (.time now) => match s.sch with
    | .clock task => task.sends && task.elapse ≤ tsDiffToMs task.issued now &&
        s.w.sched.todo.any (·.sends)
    | _ => false
  | _ => false

end Agent

def noteSends (s : Agent) (a : Act) (s' : Agent) (g : SendLog) : SendLog where
  queued := g.queued ++ s.queues s' a
  handed := g.handed ++ s.hands a
  clock := (g.clock.toList ++ a.readings).getLast?

def sendAgent (S : Setup) : Library.Machine (Agent × SendLog) Act :=
  (agent S).watch ⟨[], [], none⟩ noteSends

/-- The scheduler finds a message due only when it has put off none before it. -/
def InTurn (p : Agent × SendLog) (a : Act) : Prop := p.1.overtakes a = false

instance (p : Agent × SendLog) (a : Act) : Decidable (InTurn p a) :=
  inferInstanceAs (Decidable (_ = false))

def Timespec.Le (a b : Timespec) : Prop :=
  a.tvSec < b.tvSec ∨ a.tvSec = b.tvSec ∧ a.tvNsec ≤ b.tvNsec

instance (a b : Timespec) : Decidable (a.Le b) := instDecidableOr

def ClockForward (p : Agent × SendLog) (a : Act) : Prop :=
  (p.2.clock.toList ++ a.readings).IsChain Timespec.Le ∧
    ∀ t ∈ a.readings, 0 ≤ t.tvNsec ∧ t.tvNsec < 1000000000

instance (p : Agent × SendLog) (a : Act) : Decidable (ClockForward p a) := instDecidableAnd

section Lines

variable {g g' : SendLog} {ts us : List Emtask} {task : Emtask}

def entries (ts : List Emtask) : List (ℕ × Bytes) :=
  (ts.filter (·.sends)).map fun t ↦ (t.addr, t.bytes)

theorem entries_append (ts us : List Emtask) : entries (ts ++ us) = entries ts ++ entries us := by
  simp only [entries, List.filter_append, List.map_append]

theorem entries_singleton (h : task.sends = true) : entries [task] = [(task.addr, task.bytes)] := by
  simp [entries, h]

theorem entries_same {t t' : Emtask} (h : t.Same t') : entries [t'] = entries [t] := by
  have hsends : t'.sends = t.sends := by rw [Emtask.sends, Emtask.bytes, h.type, h.msg]; rfl
  cases hsend : t.sends with
  | false => simp [entries, hsends, hsend]
  | true => simp [entries, hsends, hsend, Emtask.bytes, h.addr, h.msg]

theorem entries_nil (h : ∀ t ∈ ts, t.sends = false) : entries ts = [] := by
  simp only [entries, List.map_eq_nil_iff, List.filter_eq_nil_iff]
  exact fun t ht ↦ by simp [h t ht]

theorem entries_sublist (h : us.Sublist ts) : (entries us).Sublist (entries ts) :=
  (h.filter _).map _

def InLine (g : SendLog) (ts : List Emtask) : Prop :=
  (g.handed ++ entries ts).Sublist g.queued

theorem InLine.mono (h : InLine g ts) (hsub : (entries us).Sublist (entries ts)) : InLine g us :=
  (List.Sublist.append_left hsub g.handed).trans h

theorem InLine.same (h : InLine g ts) (hq : g'.queued = g.queued) (hh : g'.handed = g.handed) :
    InLine g' ts := by
  rw [InLine, hq, hh]
  exact h

theorem InLine.skip (h : InLine g ts) (hsend : task.sends = false) : InLine g (ts ++ [task]) := by
  have hnil : entries [task] = [] := entries_nil (by simpa using hsend)
  apply h.mono
  rw [entries_append, hnil, List.append_nil]

theorem InLine.queue (h : InLine g ts) {msg : Bytes} (hmsg : task.msg = some msg)
    (hq : g'.queued = g.queued ++ [(task.addr, msg)]) (hh : g'.handed = g.handed) :
    InLine g' (ts ++ [task]) := by
  have hlast : (entries [task]).Sublist [(task.addr, msg)] := by
    cases hsend : task.sends with
    | false => simp [entries, hsend]
    | true => simp [entries_singleton hsend, Emtask.bytes, hmsg]
  rw [InLine, hq, hh, entries_append, ← List.append_assoc]
  exact h.append hlast

theorem InLine.hand (h : InLine g (ts ++ [task] ++ us)) (hsend : task.sends = true)
    (hnone : ∀ t ∈ ts, t.sends = false) (hq : g'.queued = g.queued)
    (hh : g'.handed = g.handed ++ [(task.addr, task.bytes)]) : InLine g' (ts ++ us) := by
  rw [InLine, entries_append, entries_append, entries_nil hnone, entries_singleton hsend] at h
  rw [InLine, hq, hh, entries_append, entries_nil hnone]
  simpa using h

def World.line (w : World) (held : List Emtask) : List Emtask :=
  w.sched.todo.reverse ++ held ++ w.sched.jobs

theorem World.line_idle {w w' : World} (h : Idle w w') (held : List Emtask) :
    w'.line held = w.line held := by
  rw [World.line, World.line, h.jobs, h.todo]

theorem World.line_accept (w : World) (task : Emtask) (held : List Emtask) :
    (w.accept task).line held = w.line held ++ [task] := by
  simp [World.line, World.accept]

end Lines

section Once

variable {S : Setup} {s : Agent} {E : Emproto}

theorem handler_not_send {task : Emtask} {k : ℤ → Proc ℤ} {w : World}
    (h : Serving E w (.process (.call (.schedAddTask task) k))) : task.type ≠ .send := by
  obtain ⟨msg, t, hp⟩ := h
  rw [hp.obeys.1.2.1]
  exact (requestedTask_ne E msg).1

theorem send_once (h : (agent S).Reachable s) :
    ∀ task ∈ s.pending, task.type = .send → task.resch = 0 := by
  refine pending_induction (I := fun _ task ↦ task.type = .send → task.resch = 0) ?_ ?_ h
  · intro s a task hr hq htype
    cases hq with
    | hello => cases htype
    | emSend => rfl
    | handler hpc =>
      have hserve := Serving.of_reachable hr
      rw [hpc] at hserve
      exact absurd htype (handler_not_send hserve)
  · exact fun s a s' t task _ _ hsame ht htype ↦ hsame.resch (ht (hsame.type ▸ htype))

end Once

section Runs

variable {S : Setup} {w w' : World} {g g' : SendLog}

def JobPhase.left (task : Emtask) (t : JobPhase) : List Emtask :=
  match t.send with
  | .after _ => []
  | _ => [task]

def Outcome.left (task : Emtask) : Outcome → List Emtask
  | .notElapsed | .reschedule => [task]
  | _ => []

def Ordered (S : Setup) (g : SendLog) (w : World) : SchPc → Prop
  | .clock task => InLine g (w.line [task])
  | .perform task _ p =>
    (task.sends = true → (∃ op, p = .pure op) ∨ ∀ t ∈ w.sched.todo, t.sends = false) ∧
      ∃ t, Obeys (jobProtocol S task) (JobPost S task) t p ∧ InLine g (w.line (t.left task))
  | .settle task _ op => InLine g (w.line (op.left task))
  | _ => InLine g (w.line [])

theorem Ordered.frame {pc : SchPc} (h : Ordered S g w pc) (htodo : w'.sched.todo = w.sched.todo)
    (hline : ∀ held, InLine g (w.line held) → InLine g' (w'.line held)) : Ordered S g' w' pc := by
  cases pc with
  | perform task now p =>
    obtain ⟨hturn, t, hobeys, hl⟩ := h
    exact ⟨htodo ▸ hturn, t, hobeys, hline _ hl⟩
  | _ => exact hline _ h

theorem Ordered.clock {task : Emtask} {now : Timespec} (h : InLine g (w.line [task]))
    (hturn : task.sends = true → ¬ tsDiffToMs task.issued now < task.elapse →
      ∀ t ∈ w.sched.todo, t.sends = false) :
    Ordered S g w (.perform task now (schedPerformJob S task now)) := by
  refine ⟨fun hsend ↦ ?_, .init, schedPerformJob_obeys now, h⟩
  by_cases hdue : tsDiffToMs task.issued now < task.elapse
  · exact .inl ⟨.notElapsed, if_pos hdue⟩
  · exact .inr (hturn hsend hdue)

theorem JobPhase.left_next {task : Emtask} {t : JobPhase} {o : Op} (r : o.Res)
    (hallowed : (jobProtocol S task).allowed t o) (ho : ∀ msg, o ≠ .netSend msg) :
    ((jobProtocol S task).next t o r).left task = t.left task := by
  have hsend := JobPhase.send_before hallowed ho
  cases o with
  | netSend msg => exact absurd rfl (ho msg)
  | netNextSeq => simp [JobPhase.left, jobProtocol, hsend]
  | _ => rfl

theorem Ordered.op {task : Emtask} {now : Timespec} {o : Op} {k : o.Res → Proc Outcome} {r : o.Res}
    (h : Ordered S g w (.perform task now (.call o k))) (he : Effect o w r w')
    (hperf : Performing (.perform task now (.call o k))) (hq : g'.queued = g.queued)
    (hh : g'.handed = g.handed ++ (SchPc.perform task now (.call o k)).hands) :
    Ordered S g' w' (.perform task now (k r)) := by
  obtain ⟨hturn, t, hobeys, hl⟩ := h
  obtain ⟨failed, hbehaves⟩ := hperf
  have hi := he.idle hbehaves.1
  have hnone : task.sends = true → ∀ t ∈ w.sched.todo, t.sends = false := by
    intro hsend
    rcases hturn hsend with ⟨op, hop⟩ | hnone
    · cases hop
    · exact hnone
  refine ⟨fun hsend ↦ .inr (by rw [hi.todo]; exact hnone hsend), _, hobeys.2 r, ?_⟩
  rw [World.line_idle hi]
  cases o with
  | netSend msg =>
    obtain ⟨n, m, hphase, _, hfits, hm⟩ := JobPhase.send_taken hobeys.1
    have hleft : t.left task = [task] := by simp [JobPhase.left, hphase]
    have hl : InLine g (w.sched.todo.reverse ++ [task] ++ w.sched.jobs) := hleft ▸ hl
    by_cases htype : task.type = .send
    · have hsend : task.sends = true := Emtask.sends_iff.mpr ⟨htype, hm htype ▸ hfits⟩
      have hgone : InLine g' (w.sched.todo.reverse ++ w.sched.jobs) := by
        refine hl.hand hsend ?_ hq (by simpa [SchPc.hands, htype] using hh)
        exact fun u hu ↦ hnone hsend u (List.mem_reverse.mp hu)
      simpa [World.line, JobPhase.left, jobProtocol] using hgone
    · have hl : InLine g' (w.line [task]) := hl.same hq (by simpa [SchPc.hands, htype] using hh)
      refine hl.mono (entries_sublist ?_)
      simp [World.line, JobPhase.left, jobProtocol]
  | _ =>
    rw [JobPhase.left_next r hobeys.1 (by simp)]
    exact hl.same hq (by simpa [SchPc.hands] using hh)

theorem Ordered.returned {task : Emtask} {now : Timespec} {op : Outcome}
    (h : Ordered S g w (.perform task now (.pure op)))
    (honce : task.type = .send → task.resch = 0) : InLine g (w.line (op.left task)) := by
  obtain ⟨_, t, hpost, hl⟩ := h
  have hpost : JobPost S task t op := hpost
  have hdrop : InLine g (w.line []) := by
    refine hl.mono (entries_sublist ?_)
    simp [World.line]
  cases op with
  | notElapsed =>
    have hinit := hpost.later rfl
    simpa [JobPhase.left, Outcome.left, JobPhase.init, hinit] using hl
  | reschedule =>
    have hother : task.sends = false := by
      have htype : task.type ≠ .send := fun htype ↦ hpost.again rfl (honce htype)
      simp [Emtask.sends, htype]
    refine hdrop.mono ?_
    simp [World.line, Outcome.left, entries, hother]
  | _ => exact hdrop

theorem Ordered.schMove {pc pc' : SchPc} (h : Ordered S g w pc) (hm : SchMove S pc w pc' w')
    (hperf : Performing pc) (honce : ∀ task ∈ w.pending pc, task.type = .send → task.resch = 0)
    (hq : g'.queued = g.queued) (hh : g'.handed = g.handed ++ pc.hands)
    (hturn : ∀ task now p, pc = .clock task → pc' = .perform task now p → task.sends = true →
      ¬ tsDiffToMs task.issued now < task.elapse → ∀ t ∈ w.sched.todo, t.sends = false) :
    Ordered S g' w' pc' := by
  have hkeep {ts us : List Emtask} (hnone : pc.hands = []) (hl : InLine g ts) (heq : us = ts) :
      InLine g' us := by
    rw [hnone, List.append_nil] at hh
    exact heq ▸ hl.same hq hh
  cases hm with
  | clock => exact .clock (hkeep rfl h rfl) (hturn _ _ _ rfl rfl)
  | op he => exact h.op he hperf hq hh
  | @returned _ task _ op =>
    have hl : InLine g (w.line (op.left task)) :=
      h.returned (honce task (World.mem_pending.mpr (.inl (List.mem_singleton_self task))))
    exact hkeep rfl hl rfl
  | takeTask hjobs =>
    refine hkeep rfl h ?_
    simp [World.line, hjobs]
  | later =>
    refine hkeep rfl h ?_
    simp [World.line, Outcome.left]
  | @again _ task now =>
    have hsame : entries [{ task with
        issued := now
        resch := if 0 < task.resch then task.resch - 1 else task.resch }] = entries [task] :=
      entries_same ⟨rfl, rfl, rfl, rfl, rfl, fun hzero ↦ by simp [hzero]⟩
    refine (hkeep rfl h rfl).mono ?_
    simp only [World.line, Outcome.left, List.reverse_cons, entries_append, hsame]
    simp [entries]
  | back =>
    refine hkeep rfl h ?_
    simp [World.line]
  | netError | drain =>
    refine (hkeep rfl h rfl).mono ?_
    simp [World.line, entries]
  | alert => split_ifs <;> exact hkeep rfl h rfl
  | _ => exact hkeep rfl h rfl

structure SendInv (S : Setup) (s : Agent) (g : SendLog) : Prop where
  order : Ordered S g s.w s.sch
  queued : (g.queued.map Prod.fst).Sublist s.w.accepted

theorem overtakes_of_clock {s : Agent} {a : Ans} {task : Emtask} {now : Timespec}
    {p : Proc Outcome} (hs : schedStep S s.sch a s.w = some (.perform task now p, w'))
    (hpc : s.sch = .clock task) (hsend : task.sends = true)
    (hdue : ¬ tsDiffToMs task.issued now < task.elapse) :
    s.overtakes (.sched a) = s.w.sched.todo.any (·.sends) := by
  rw [hpc] at hs
  cases a with
  | time t =>
    cases hs
    simp [Agent.overtakes, hpc, hsend, Int.not_lt.mp hdue]
  | _ => cases hs

theorem SendInv.same {s s' : Agent} (h : SendInv S s g) (hq : g'.queued = g.queued)
    (hh : g'.handed = g.handed) (hi : Idle s.w s'.w) (hsch : s'.sch = s.sch) : SendInv S s' g' where
  order := by
    rw [hsch]
    refine h.order.frame hi.todo fun held hl ↦ ?_
    rw [World.line_idle hi]
    exact hl.same hq hh
  queued := by
    rw [hq, hi.accepted]
    exact h.queued

theorem SendInv.skip {s s' : Agent} {v : World} {task : Emtask} (h : SendInv S s g)
    (hq : g'.queued = g.queued) (hh : g'.handed = g.handed) (hi : Idle s.w v)
    (hw : s'.w = v.accept task) (hsch : s'.sch = s.sch) (hother : task.sends = false) :
    SendInv S s' g' where
  order := by
    rw [hsch, hw]
    refine h.order.frame hi.todo fun held hl ↦ ?_
    rw [World.line_accept, World.line_idle hi]
    exact (hl.same hq hh).skip hother
  queued := by
    rw [hq, hw, World.accepted_accept, hi.accepted]
    exact h.queued.trans (List.sublist_append_left _ _)

theorem SendInv.of_reach {p : Agent × SendLog} (h : (sendAgent S).Reach InTurn p) :
    SendInv S p.1 p.2 := by
  refine h.watched (I := SendInv S) (fun _ _ ↦ True) (fun _ _ _ ↦ trivial) ?_ ?_
  · exact ⟨List.Sublist.refl _, List.Sublist.refl _⟩
  intro s g a s' hr hI hturn hs
  have hnil {l : List (ℕ × Bytes)} : l ++ [] = l := List.append_nil l
  have hperf := (conduct hr).1
  cases Agent.step_move hs with
  | net hm =>
    rcases hm.tasks with hi | ⟨task, v, hi, rfl, hwhence⟩
    · exact hI.same hnil hnil hi rfl
    · have hother : task.sends = false := by
        have htype : task.type ≠ .send := by
          rcases hwhence with ⟨now, _, rfl⟩ | ⟨k, hpc⟩
          · exact nofun
          · have hserve := Serving.of_reachable hr
            rw [hpc] at hserve
            exact handler_not_send hserve
        simp [Emtask.sends, htype]
      exact hI.skip hnil hnil hi rfl rfl hother
  | sched hstep hm =>
    refine ⟨hI.order.schMove hm hperf (send_once hr) hnil rfl ?_, ?_⟩
    · rintro task now p hpc rfl hsend hdue
      have hnone := (overtakes_of_clock hstep hpc hsend hdue).symm.trans hturn
      simpa using hnone
    · simp only [noteSends, Agent.queues, hnil, (hm.accepted hperf).1]
      exact hI.queued
  | api hr =>
    cases apiCall_move hr with
    | emSendQueued =>
      refine ⟨hI.order.frame rfl fun held hl ↦ ?_, ?_⟩
      · rw [World.line_accept]
        refine InLine.queue hl rfl ?_ hnil
        simp [noteSends, Agent.queues, World.accept]
      · simp only [noteSends, World.accepted_accept, List.map_append]
        refine hI.queued.append ?_
        simp [Agent.queues, World.accept]
    | emSend hle =>
      refine hI.same ?_ hnil (.silent rfl rfl hle rfl) rfl
      simp [noteSends, Agent.queues]
    | _ => exact hI.same hnil hnil (.silent rfl rfl (Nat.le_refl _) rfl) rfl
  | release hm =>
    cases hm <;> exact hI.same hnil hnil (.silent rfl rfl (Nat.le_refl _) rfl) rfl

theorem Ordered.inLine {pc : SchPc} (h : Ordered S g w pc) : ∃ ts, InLine g ts := by
  cases pc with
  | perform =>
    obtain ⟨_, _, _, hl⟩ := h
    exact ⟨_, hl⟩
  | _ => exact ⟨_, h⟩

/-- Where no message is found due while an earlier one waits that was put off
in the same round, the messages are handed to the socket in the order in which
they were queued, each of them once at most. -/
theorem sends_in_order {p : Agent × SendLog} (h : (sendAgent S).Reach InTurn p) :
    p.2.handed.Sublist p.2.queued ∧ (p.2.queued.map Prod.fst).Nodup := by
  have hI := SendInv.of_reach h
  have hr : (agent S).Reachable p.1 := h.unwatch fun _ _ _ ↦ trivial
  obtain ⟨ts, hl⟩ := hI.order.inLine
  exact ⟨(List.sublist_append_left _ (entries ts)).trans hl,
    (TaskInv.of_reachable hr).books.once.sublist hI.queued⟩

def queueTwo : List Act :=
  [Sample.emSend [0, 6, 0, 0, 0, 1], Sample.emSend [0, 6, 0, 0, 0, 2]] ++ Sample.connect 3

def sendBoth : List Act :=
  queueTwo ++ Sample.performSend 6 ++ (Sample.performSend 6).tail

theorem sends_in_order_two : ∃ p, (sendAgent Sample.setup).Reach InTurn p ∧
    p.2.handed = [(0, [0, 6, 0, 0, 0, 1]), (2, [0, 6, 0, 0, 0, 2])] ∧
    p.2.handed.Sublist p.2.queued := by
  have hr := (sendAgent Sample.setup).reach_get InTurn sendBoth (by decide +kernel)
  exact ⟨_, hr, by decide +kernel, (sends_in_order hr).1⟩

def overtakeRun : List Act :=
  queueTwo ++
    [.sched .tick, .sched .tick, .sched (.time ⟨0, 999999⟩), .sched .tick, .sched .tick] ++
    [.sched .tick, .sched (.time ⟨0, 1000000⟩), .sched .tick, .sched (.sent 6), .sched .tick,
      .sched .tick] ++
    [.sched .tick, .sched (.time ⟨0, 1000000⟩), .sched .tick, .sched .tick, .sched .tick,
      .sched .tick] ++
    [.sched .tick, .sched .tick, .sched (.time ⟨0, 2000000⟩), .sched .tick, .sched (.sent 6)]

theorem sends_overtaken : ¬ ∀ p, (sendAgent Sample.setup).Reach ClockForward p →
    p.2.handed.Sublist p.2.queued := by
  intro h
  have hr := (sendAgent Sample.setup).reach_get ClockForward overtakeRun (by decide +kernel)
  have hsub := h _ hr
  revert hsub
  decide +kernel

end Runs

end EmpowerAgent
