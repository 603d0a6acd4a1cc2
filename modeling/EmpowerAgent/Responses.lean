import EmpowerAgent.Provenance
import EmpowerAgent.Attendance

namespace EmpowerAgent

open Library.Proc (Protocol Obeys)

section Since

variable {w w' : World} {past : List Event} {cs cs' : List Callback}

/-- The wrapper has got all of these calls after `past`. -/
def CalledSince (past : List Event) (cs : List Callback) (w : World) : Prop :=
  ∃ es, w.hist = past ++ es ∧ ∀ c ∈ cs, ∃ conn, .callback conn c ∈ es

theorem CalledSince.none (h : past <+: w.hist) : CalledSince past [] w := by
  obtain ⟨es, hes⟩ := h
  exact ⟨es, hes.symm, List.forall_mem_nil _⟩

theorem CalledSince.mono (h : CalledSince past cs w) (hhist : w.hist <+: w'.hist)
    (hsub : cs' ⊆ cs) : CalledSince past cs' w' := by
  obtain ⟨es, hes, hcalls⟩ := h
  obtain ⟨new, hnew⟩ := hhist
  refine ⟨es ++ new, by rw [← hnew, hes, List.append_assoc], fun c hc ↦ ?_⟩
  obtain ⟨conn, hconn⟩ := hcalls c (hsub hc)
  exact ⟨conn, List.mem_append_left _ hconn⟩

theorem CalledSince.call {conn : ℕ} {c : Callback} (h : CalledSince past cs w)
    (hhist : w'.hist = w.hist ++ [.callback conn c]) : CalledSince past (cs ++ [c]) w' := by
  obtain ⟨es, hes, hcalls⟩ := h
  refine ⟨es ++ [.callback conn c], by rw [hhist, hes, List.append_assoc], fun d hd ↦ ?_⟩
  rcases List.mem_append.mp hd with hd | hd
  · obtain ⟨conn', hconn⟩ := hcalls d hd
    exact ⟨conn', List.mem_append_left _ hconn⟩
  · obtain rfl := List.mem_singleton.mp hd
    exact ⟨conn, List.mem_append_right _ (List.mem_singleton_self _)⟩

end Since

section Services

/-- What a task is there for: its procedure keeps to a protocol, `inv` tells of
each phase what has come about since `past`, and a procedure that has come to
its end has reached the goal. In the states before its steps `known` holds. -/
structure Service (S : Setup) (t : Emtask) (past : List Event) (known : World → Prop)
    (goal : World → Prop) where
  Phase : Type
  protocol : Protocol Op Op.Res Phase
  post : Phase → Outcome → Prop
  init : Phase
  inv : Phase → World → Prop
  obeys (now : Timespec) : Obeys protocol post init (schedPerformJob S t now)
  start {w : World} : past <+: w.hist → inv init w
  keep {ph : Phase} {w w' : World} : inv ph w → w.hist <+: w'.hist → inv ph w'
  step {ph : Phase} {o : Op} {r : o.Res} {w w' : World} : known w → protocol.allowed ph o →
    Effect o w r w' → w.hist <+: w'.hist → inv ph w → inv (protocol.next ph o r) w'
  done {ph : Phase} {op : Outcome} {w : World} : post ph op → op ≠ .notElapsed →
    op ≠ .netError → inv ph w → goal w
  stays {w w' : World} : goal w → w.hist <+: w'.hist → goal w'

variable {S : Setup} {s s' : Agent} {t : Emtask} {past : List Event} {known goal : World → Prop}
  {V : Service S t past known goal}

/-- What keeps a task that waits from being performed: a send that fails, the
end of the scheduler, or a loss that the task itself suffers. -/
def Thwarted (lost : World → Prop) (t : Emtask) (s : Agent) : Prop :=
  t ∈ s.pending ∧ (s.sch = .drain ∨ (∃ task now, s.sch = .settle task now .netError) ∨ lost s.w)

/-- How far a task has come with its service: it waits, it is being performed,
or it has been. -/
inductive Engaged (V : Service S t past known goal) (s : Agent) : Prop
  | waits : t ∈ s.w.sched.todo ∨ t ∈ s.w.sched.jobs → Engaged V s
  | taken : s.sch = .clock t → Engaged V s
  | works {now : Timespec} {p : Proc Outcome} {ph : V.Phase} : s.sch = .perform t now p →
      Obeys V.protocol V.post ph p → V.inv ph s.w → Engaged V s
  | settles {now : Timespec} {op : Outcome} : s.sch = .settle t now op →
      (op ≠ .notElapsed → op ≠ .netError → goal s.w) → Engaged V s

theorem Engaged.pending (h : Engaged V s) : t ∈ s.pending := by
  cases h with
  | waits h => exact World.mem_pending.mpr (.inr h)
  | works h => exact performed_pending h
  | taken h | settles h => exact held_pending (by rw [h]; exact List.mem_singleton_self t)

theorem Engaged.outside {a : Act} (h : Engaged V s) (hm : Move S s a s')
    (ha : ∀ ans, a ≠ .sched ans) (hhist : s.w.hist <+: s'.w.hist) : Engaged V s' := by
  obtain ⟨hjobs, htodo⟩ := hm.appends ha
  have hsch := (hm.unscheduled ha).1
  cases h with
  | waits h =>
    refine .waits ?_
    rw [hjobs, htodo, List.mem_append]
    exact h.imp_right .inl
  | taken hpc => exact .taken (hsch.trans hpc)
  | works hpc hobeys hinv => exact .works (hsch.trans hpc) hobeys (V.keep hinv hhist)
  | settles hpc hgoal =>
    exact .settles (hsch.trans hpc) fun hlater herror ↦ V.stays (hgoal hlater herror) hhist

theorem waits_or_taken {pc pc' : SchPc} {w w' : World} (hm : SchMove S pc w pc' w')
    (hperf : Performing pc) (h : t ∈ w.sched.todo ∨ t ∈ w.sched.jobs) (hdrain : pc ≠ .drain)
    (herror : ∀ task now, pc ≠ .settle task now .netError) :
    (t ∈ w'.sched.todo ∨ t ∈ w'.sched.jobs) ∨ pc' = .clock t := by
  cases hm with
  | drain => exact absurd rfl hdrain
  | netError => exact absurd rfl (herror _ _)
  | takeTask hjobs =>
    simp only [hjobs, List.mem_cons] at h
    rcases h with h | rfl | h
    · exact .inl (.inl h)
    · exact .inr rfl
    · exact .inl (.inr h)
  | op he =>
    obtain ⟨failed, hobeys⟩ := hperf
    have hi := he.idle hobeys.1
    rw [hi.jobs, hi.todo]
    exact .inl h
  | later | again => exact .inl (h.imp_left (List.mem_cons_of_mem _))
  | back =>
    refine .inl (.inr ?_)
    simpa only [List.mem_append, List.mem_reverse] using h
  | alert => split_ifs <;> exact .inl h
  | _ => exact .inl h

theorem Engaged.sched {pc pc' : SchPc} {w w' : World} {net : NetThread} {rel : RelPc}
    {lost : World → Prop} (h : Engaged V ⟨w, net, pc, rel⟩) (hm : SchMove S pc w pc' w')
    (hperf : Performing pc) (hhist : w.hist <+: w'.hist) (hpast : past <+: w.hist)
    (hknown : known w) (hnot : ¬ goal w) (hfree : ¬ Thwarted lost t ⟨w, net, pc, rel⟩) :
    Engaged V ⟨w', net, pc', rel⟩ := by
  have hthere := h.pending
  have herror (task : Emtask) (now : Timespec) : pc ≠ .settle task now .netError :=
    fun hpc ↦ hfree ⟨hthere, .inr (.inl ⟨task, now, hpc⟩)⟩
  cases h with
  | waits h =>
    rcases waits_or_taken hm hperf h (fun hpc ↦ hfree ⟨hthere, .inl hpc⟩) herror with h | h
    · exact .waits h
    · exact .taken h
  | taken hpc =>
    cases hpc
    cases hm with
    | clock => exact .works rfl (V.obeys _) (V.start hpast)
  | works hpc hobeys hinv =>
    cases hpc
    cases hm with
    | op he => exact .works rfl (hobeys.2 _) (V.step hknown hobeys.1 he hhist hinv)
    | returned =>
      exact .settles rfl fun hlater hsent ↦ V.done hobeys hlater hsent (V.keep hinv hhist)
  | settles hpc hgoal =>
    cases hpc
    cases hm with
    | later => exact .waits (.inl (List.mem_cons_self ..))
    | again | consumed => exact absurd (hgoal (by simp) (by simp)) hnot
    | netError => exact absurd rfl (herror _ _)

theorem pending_not_freed (h : (agent S).Reachable s) (ht : t ∈ s.pending) :
    t.addr ∉ s.w.freed := by
  have hb := (TaskInv.of_reachable h).books
  have hbal := hb.balance t.addr
  have honce := List.nodup_iff_count_le_one.mp hb.once t.addr
  have hmem : 0 < (addrs s.pending).count t.addr :=
    List.count_pos_iff.mpr (List.mem_map_of_mem ht)
  simp only [World.places] at hbal
  simp only [Agent.pending, World.pending, addrs_append, List.count_append] at hmem
  rw [← List.count_eq_zero]
  omega

variable {f : ℕ → Agent} {as : ℕ → Act} {n : ℕ}

theorem hist_mono (hrun : (agent S).Run (fun _ _ ↦ True) f as) {m : ℕ} (hle : n ≤ m) :
    (f n).w.hist <+: (f m).w.hist := by
  induction hle with
  | refl => exact List.prefix_rfl
  | @step m _ ih =>
    exact ih.trans ((Agent.step_move (hrun.step m)).hist_grows (conduct (hrun.reach m)).2)

/-- A task that is queued does its service some time, or is kept from it. -/
theorem Service.attained {lost : World → Prop}
    (V : Service S t (f n).w.hist known goal) (hrun : (agent S).Run (fun _ _ ↦ True) f as)
    (hfair : (agent S).Fair OfSched f as) (hquanta : QuantaEnd f) (hclock : ClockPasses as)
    (hknown : ∀ m, n ≤ m → ¬ lost (f m).w → known (f m).w)
    (ht : t ∈ (f n).w.sched.todo ∨ t ∈ (f n).w.sched.jobs) :
    ∃ m, n ≤ m ∧ (goal (f m).w ∨ Thwarted lost t (f m)) := by
  by_contra hnever
  have hnot (m : ℕ) (hm : n ≤ m) : ¬ goal (f m).w ∧ ¬ Thwarted lost t (f m) :=
    ⟨fun h ↦ hnever ⟨m, hm, .inl h⟩, fun h ↦ hnever ⟨m, hm, .inr h⟩⟩
  have hall (m : ℕ) (hm : n ≤ m) : Engaged V (f m) := by
    induction hm with
    | refl => exact .waits ht
    | @step m hm ih =>
      have hr := hrun.reach m
      have hs := hrun.step m
      have hhist := (Agent.step_move hs).hist_grows (conduct hr).2
      obtain ⟨hgoal, hfree⟩ := hnot m hm
      have hkept : ¬ lost (f m).w := fun hlost ↦ hfree ⟨ih.pending, .inr (.inr hlost)⟩
      rcases Agent.sched_or hs with ⟨ans, pc, w, _, hstep, hnext⟩ | ha
      · rw [hnext] at hhist ⊢
        exact ih.sched (schedStep_move hstep) (conduct hr).1 hhist (hist_mono hrun hm)
          (hknown m hm hkept) hgoal hfree
      · exact ih.outside (Agent.step_move hs) ha hhist
  have hpending := (hall n (Nat.le_refl n)).pending
  obtain ⟨m, hm, ⟨now, op, hpc, hop⟩ | hfreed⟩ :=
    tasks_performed hrun hfair hquanta hclock hpending
  · have hheld : t ∈ (f m).sch.held := by
      rw [hpc]
      exact List.mem_singleton_self t
    have honce := (held_once (hrun.reach m) hheld).1
    cases hall m hm with
    | waits h => exact honce (List.mem_map_of_mem (List.mem_append.mpr h))
    | taken h | works h => cases hpc.symm.trans h
    | settles h hgoal =>
      cases hpc.symm.trans h
      refine (hnot m hm).1 (hgoal hop ?_)
      rintro rfl
      exact (hnot m hm).2 ⟨(hall m hm).pending, .inr (.inl ⟨t, now, hpc⟩)⟩
  · exact pending_not_freed (hrun.reach m) (hall m hm).pending hfreed

end Services

section Answers

variable {S : Setup} {t : Emtask} {msg : Bytes} {past : List Event}

/-- The trigger of the message, where it is needed, has been deleted. -/
def TriggerGone (S : Setup) (t : Emtask) (msg : Bytes) (w : World) : Prop :=
  Searches msg S.proto ∧ w.trig.trigFindById t.trig = none

def answerService (hbears : Bears msg S.proto t) (past : List Event) :
    Service S t past
      (fun w ↦ Searches msg S.proto → ∃ trig, w.trig.trigFindById t.trig = some trig ∧
        StandsFor msg S.proto t.trig trig)
      (CalledSince past (S.calls msg t.trig)) where
  Phase := AnswerPhase
  protocol := answerProtocol S t msg
  post ph op := op ≠ .notElapsed → Complete S t msg ph
  init := .init
  inv ph w := CalledSince past ph.calls w ∧ ∀ r, ph.search = some r →
    ∃ trig, r = some trig ∧ StandsFor msg S.proto t.trig trig
  obeys := schedPerformJob_answers hbears
  start hpast := ⟨.none hpast, by simp [AnswerPhase.init]⟩
  keep hinv hhist := ⟨hinv.1.mono hhist (List.Subset.refl _), hinv.2⟩
  step {ph o r w w'} hknown hallowed he hhist hinv := by
    obtain ⟨hcalled, hsearch⟩ := hinv
    cases o with
    | trigFindById id =>
      cases he
      obtain ⟨rfl, hneeds⟩ := hallowed
      refine ⟨hcalled, ?_⟩
      rintro r ⟨⟩
      exact hknown hneeds
    | callback c =>
      cases he
      exact ⟨hcalled.call rfl, hsearch⟩
    | _ => exact ⟨hcalled.mono hhist (List.Subset.refl _), hsearch⟩
  done hpost hlater _ hinv := hinv.1.mono List.prefix_rfl (hpost hlater hinv.2)
  stays hgoal hhist := hgoal.mono hhist (List.Subset.refl _)

variable {f : ℕ → Agent} {as : ℕ → Act}

/-- Whatever was accepted of the controller is answered: each task but the
agent's own leads back to a request, and the wrapper gets the calls that the
agent makes of it, unless a send fails, the scheduler is stopped or the trigger
of the request is deleted while the task waits. The ids of triggers must not
run over. -/
theorem requests_answered (hrun : (agent S).Run (fun _ _ ↦ True) f as)
    (hfair : (agent S).Fair OfSched f as) (hquanta : QuantaEnd f) (hclock : ClockPasses as)
    (hids : ∀ n, (f n).w.added.length < 2 ^ 31) (n : ℕ) (t : Emtask)
    (ht : t ∈ (f n).w.sched.todo ∨ t ∈ (f n).w.sched.jobs) (hsend : t.type ≠ .send)
    (hhello : t.type ≠ .hello) : ∃ msg, Requested S.proto (f n).w msg t ∧ ∃ m, n ≤ m ∧
      (CalledSince (f n).w.hist (S.calls msg t.trig) (f m).w ∨
        Thwarted (TriggerGone S t msg) t (f m)) := by
  have hpending : t ∈ (f n).pending := World.mem_pending.mpr (.inr ht)
  obtain ⟨msg, hreq⟩ := requested_of_reachable (hrun.reach n) t hpending hsend hhello
  have hbears := hreq.bears (.of_reachable (hrun.reach n)) (hids n)
  refine ⟨msg, hreq, (answerService hbears _).attained hrun hfair hquanta hclock ?_ ht⟩
  intro m hm hkept hneeds
  have hadded : (f n).w.added ⊆ (f m).w.added :=
    ((hist_mono hrun hm).sublist.filterMap Event.addedTrigger).subset
  have hreq := hreq.mono (hist_mono hrun hm).subset hadded
  have hnum := Numbering.of_reachable (hrun.reach m)
  cases hfind : (f m).w.trig.trigFindById t.trig with
  | none => exact absurd ⟨hneeds, hfind⟩ hkept
  | some trig =>
    have hid : trig.id = t.trig := by simpa using List.find?_some hfind
    have hmem := hnum.live (List.mem_of_find?_eq_some hfind)
    exact ⟨trig, rfl, hreq.stands hnum (hids m) hmem hid⟩

def answeredRun : List Act :=
  answerRun cellRequest ++ List.replicate 4 (.sched .tick) ++ [.release, .sched .tick,
    .sched .tick, .release, .release, .net (.recv (.error .eagain)), .net .tick, .release, .release]

def answeredEnd : Agent :=
  ((agent Sample.setup).runIf (fun _ _ ↦ True) Agent.start answeredRun).get (by decide +kernel)

def cellTask : Emtask := Emtask.init 3 .cellMeasure 1 0 1 none

theorem requests_answered_cell : ∃ f as, (agent Sample.setup).Run (fun _ _ ↦ True) f as ∧
    ∃ msg, Requested Sample.proto (f 16).w msg cellTask ∧ ∃ m, 16 ≤ m ∧
      (CalledSince (f 16).w.hist (Sample.setup.calls msg cellTask.trig) (f m).w ∨
        Thwarted (TriggerGone Sample.setup cellTask msg) cellTask (f m)) := by
  obtain ⟨f, as, hrun, hfair, _, _, htake, hidle⟩ := exists_ended_run (s := answeredEnd)
    (Option.some_get _).symm rfl rfl (by decide +kernel)
  have hqueued : ((agent Sample.setup).runIf (fun _ _ ↦ True) Agent.start
      (answeredRun.take 16)).map (·.w.sched.jobs.contains cellTask) = some true := by decide +kernel
  rw [htake 16] at hqueued
  have hjobs : cellTask ∈ (f 16).w.sched.jobs := by simpa using hqueued
  obtain ⟨hquanta, hclock⟩ := ended_quanta rfl hidle
  have hids (n : ℕ) : (f n).w.added.length < 2 ^ 31 := by
    have hle := added_mono (hist_mono hrun (Nat.le_add_right n answeredRun.length))
    rw [(hidle _ (Nat.le_add_left _ _)).1] at hle
    exact Nat.lt_of_le_of_lt hle (by decide +kernel)
  exact ⟨f, as, hrun, requests_answered hrun hfair hquanta hclock hids 16 cellTask (.inr hjobs)
    (by decide) (by decide)⟩

end Answers

section Mail

variable {S : Setup} {t : Emtask} {buf : Bytes} {past : List Event} {w w' : World}

def Emtask.mail (S : Setup) (t : Emtask) : Option Bytes :=
  match t.type with
  | .send => some t.bytes
  | .hello => S.proto.epfSchedHelloReq S.enbId t.elapse
  | _ => none

/-- The socket has accepted the message, or its beginning, after `past`. -/
def SentSince (S : Setup) (past : List Event) (buf : Bytes) (w : World) : Prop :=
  ∃ es sock seq n, w.hist = past ++ es ∧ .sent sock (S.proto.epfSeq buf seq) n ∈ es

theorem SentSince.mono (h : SentSince S past buf w) (hhist : w.hist <+: w'.hist) :
    SentSince S past buf w' := by
  obtain ⟨es, sock, seq, n, hes, hsent⟩ := h
  obtain ⟨new, hnew⟩ := hhist
  exact ⟨es ++ new, sock, seq, n, by rw [← hnew, hes, List.append_assoc],
    List.mem_append_left _ hsent⟩

theorem SentSince.earlier {past' : List Event} (h : SentSince S past' buf w)
    (hpast : past <+: past') : SentSince S past buf w := by
  obtain ⟨es, sock, seq, n, hes, hsent⟩ := h
  obtain ⟨before, hbefore⟩ := hpast
  exact ⟨before ++ es, sock, seq, n, by rw [hes, ← hbefore, List.append_assoc],
    List.mem_append_right _ hsent⟩

theorem SentSince.sent {sock n : ℕ} {seq : UInt32} (hpast : past <+: w.hist)
    (hhist : w'.hist = w.hist ++ [.sent sock (S.proto.epfSeq buf seq) n]) :
    SentSince S past buf w' := by
  obtain ⟨es, hes⟩ := hpast
  exact ⟨es ++ [.sent sock (S.proto.epfSeq buf seq) n], sock, seq, n,
    by rw [hhist, ← hes, List.append_assoc], List.mem_append_right _ (List.mem_singleton_self _)⟩

def mailProtocol (S : Setup) (buf : Bytes) : Protocol Op Op.Res Bool where
  allowed _ o := match o with
    | .netSend msg => ∃ seq, msg = S.proto.epfSeq buf seq
    | _ => True
  next sent o r := match o, r with
    | .netSend _, n => decide ((0 : ℤ) ≤ n)
    | _, _ => sent

theorem schedSendMsg_mailed (hlen : buf.length ≤ emBufSize) : Obeys (mailProtocol S buf)
    (fun sent op ↦ op ≠ .netError → sent = true) false (schedSendMsg S buf) := by
  unfold schedSendMsg
  rw [if_neg (Nat.not_lt.mpr hlen)]
  refine ⟨trivial, fun seq ↦ ⟨⟨seq, rfl⟩, fun n hop ↦ ?_⟩⟩
  have hsent : ¬ n < (0 : ℤ) := by
    intro hneg
    simp [hneg] at hop
  exact decide_eq_true (Int.not_lt.mp hsent)

theorem schedPerformJob_mailed (hmail : t.mail S = some buf) (hlen : buf.length ≤ emBufSize)
    (now : Timespec) : Obeys (mailProtocol S buf)
      (fun sent op ↦ op ≠ .notElapsed → op ≠ .netError → sent = true) false
      (schedPerformJob S t now) := by
  have hperform : Obeys (mailProtocol S buf) (fun sent op ↦ op ≠ .netError → sent = true) false
      (schedPerform S t) := by
    unfold schedPerform
    unfold Emtask.mail at hmail
    cases htype : t.type with
    | send =>
      rw [htype] at hmail
      cases hmail
      exact schedSendMsg_mailed hlen
    | hello =>
      rw [htype] at hmail
      dsimp only at hmail ⊢
      unfold schedPerformHello
      rw [hmail]
      exact schedSendMsg_mailed hlen
    | _ =>
      rw [htype] at hmail
      cases hmail
  unfold schedPerformJob
  split_ifs
  · exact fun hop ↦ absurd rfl hop
  · refine hperform.bind fun sent op hsent _ hop ↦ hsent ?_
    rintro rfl
    simp at hop

def mailService (hmail : t.mail S = some buf) (hlen : buf.length ≤ emBufSize)
    (past : List Event) : Service S t past (fun _ ↦ True) (SentSince S past buf) where
  Phase := Bool
  protocol := mailProtocol S buf
  post sent op := op ≠ .notElapsed → op ≠ .netError → sent = true
  init := false
  inv sent w := past <+: w.hist ∧ (sent = true → SentSince S past buf w)
  obeys := schedPerformJob_mailed hmail hlen
  start hpast := ⟨hpast, by simp⟩
  keep hinv hhist := ⟨hinv.1.trans hhist, fun hsent ↦ (hinv.2 hsent).mono hhist⟩
  step {sent o r w w'} _ hallowed he hhist hinv := by
    refine ⟨hinv.1.trans hhist, ?_⟩
    cases o with
    | netSend msg =>
      obtain ⟨seq, rfl⟩ := hallowed
      intro haccepted
      cases he with
      | sendFailed hneg =>
        have hpos := of_decide_eq_true haccepted
        omega
      | sent => exact .sent hinv.1 rfl
    | _ => exact fun hsent ↦ (hinv.2 hsent).mono hhist
  done hpost hlater herror hinv := hinv.2 (hpost hlater herror)
  stays hgoal hhist := hgoal.mono hhist

variable {f : ℕ → Agent} {as : ℕ → Act}

/-- A message that was accepted, and the Hello, goes out some time with a
sequence number, unless a send fails or the scheduler is stopped before. -/
theorem mail_sent (hrun : (agent S).Run (fun _ _ ↦ True) f as)
    (hfair : (agent S).Fair OfSched f as) (hquanta : QuantaEnd f) (hclock : ClockPasses as)
    (n : ℕ) (t : Emtask) (ht : t ∈ (f n).w.sched.todo ∨ t ∈ (f n).w.sched.jobs)
    (hmail : t.mail S = some buf) (hlen : buf.length ≤ emBufSize) : ∃ m, n ≤ m ∧
      (SentSince S (f n).w.hist buf (f m).w ∨ Thwarted (fun _ ↦ False) t (f m)) :=
  (mailService hmail hlen _).attained hrun hfair hquanta hclock (fun _ _ _ ↦ trivial) ht

def mailedRun : List Act :=
  Sample.connect 3 ++ [Sample.emSend [0, 6, 0, 0, 0, 0]] ++ Sample.performSend 6 ++
    (Sample.performSend 6).tail ++ [.sched .tick, .sched .tick, .release, .sched .tick,
      .sched .tick, .release, .release, .net (.recv (.error .eagain)), .net .tick, .release,
      .release]

def mailedEnd : Agent :=
  ((agent Sample.setup).runIf (fun _ _ ↦ True) Agent.start mailedRun).get (by decide +kernel)

theorem mail_sent_first : ∃ f as, (agent Sample.setup).Run (fun _ _ ↦ True) f as ∧
    sentTask ∈ (f 9).w.sched.jobs ∧ ∃ m, 9 ≤ m ∧
      (SentSince Sample.setup (f 9).w.hist [0, 6, 0, 0, 0, 0] (f m).w ∨
        Thwarted (fun _ ↦ False) sentTask (f m)) := by
  obtain ⟨f, as, hrun, hfair, _, _, htake, hidle⟩ := exists_ended_run (s := mailedEnd)
    (Option.some_get _).symm rfl rfl (by decide +kernel)
  have hqueued : ((agent Sample.setup).runIf (fun _ _ ↦ True) Agent.start
      (mailedRun.take 9)).map (·.w.sched.jobs.contains sentTask) = some true := by decide +kernel
  rw [htake 9] at hqueued
  have hjobs : sentTask ∈ (f 9).w.sched.jobs := by simpa using hqueued
  obtain ⟨hquanta, hclock⟩ := ended_quanta rfl hidle
  exact ⟨f, as, hrun, hjobs, mail_sent hrun hfair hquanta hclock 9 sentTask (.inr hjobs) rfl
    (by decide)⟩

end Mail

end EmpowerAgent
