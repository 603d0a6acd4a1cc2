import EmpowerAgent.Lives

namespace EmpowerAgent

open Library.Proc (Obeys Ensures ensures_pure)
open Library.Keyed (recorded recorded_append recorded_of_not_mem mem_of_recorded)

/-- What an observer notes of the messages, by their tasks: those for which
`em_send` returned 0, and what `net_send` was called with. -/
structure MailLog where
  posted : List (ℕ × Bytes)
  handed : List (ℕ × Bytes)

def SchPc.mails : SchPc → List (ℕ × Bytes)
  | .perform task _ (.call (.netSend msg) _) => [(task.addr, msg)]
  | _ => []

namespace Agent

def posts (s s' : Agent) : Act → List (ℕ × Bytes)
  | .api (.emSend msg) answers =>
    if ((ApiCall.emSend msg).body.run exec answers s.w).any (·.1 = 0) then
      (s'.w.sched.jobs.drop s.w.sched.jobs.length).map (·.addr, msg)
    else []
  | _ => []

def mails (s : Agent) : Act → List (ℕ × Bytes)
  | .sched _ => s.sch.mails
  | _ => []

end Agent

def noteMail (s : Agent) (a : Act) (s' : Agent) (g : MailLog) : MailLog where
  posted := g.posted ++ s.posts s' a
  handed := g.handed ++ s.mails a

def mailAgent (S : Setup) : Library.Machine (Agent × MailLog) Act :=
  (agent S).watch ⟨[], []⟩ noteMail

/-- No send fails, and the agent is not stopped. -/
def SendsWork (_ : Agent × MailLog) (a : Act) : Prop := a.sendFails = false ∧ a ≠ .release

instance (p : Agent × MailLog) (a : Act) : Decidable (SendsWork p a) := instDecidableAnd

section Jobs

variable {S : Setup} {task : Emtask} {t : JobPhase}

def Mailed (t : JobPhase) (op : Outcome) : Prop :=
  op = .notElapsed ∨ ∃ failed, t.send = .after failed

theorem schedPerformJob_mails (hsends : task.sends = true) (now : Timespec) :
    Obeys (jobProtocol S task) Mailed .init (schedPerformJob S task now) := by
  obtain ⟨htype, hfits⟩ := Emtask.sends_iff.mp hsends
  unfold schedPerformJob
  split_ifs
  · exact .inl rfl
  · have hsent : Obeys (jobProtocol S task) (fun t _ ↦ ∃ failed, t.send = .after failed) .init
        (schedPerform S task) := by
      simp only [schedPerform, htype, schedPerformSend, schedSendMsg]
      rw [if_neg (Nat.not_lt.mpr hfits)]
      exact ⟨trivial, fun seq ↦ ⟨⟨_, rfl, hfits, fun _ ↦ rfl⟩, fun n ↦ ⟨_, rfl⟩⟩⟩
    exact hsent.bind fun t op h ↦ .inr h

end Jobs

section Calm

variable {S : Setup} {s : Agent}

def SchPc.Calm : SchPc → Prop
  | .perform _ _ p => Obeys performProtocol PerformPost false p
  | .settle _ _ op => op ≠ .netError
  | .flush | .alert | .down | .drain | .exit => False
  | _ => True

theorem SchPc.Calm.step {pc pc' : SchPc} {ans : Ans} {w w' : World} (h : pc.Calm)
    (hstop : w.sched.stop = false) (hs : schedStep S pc ans w = some (pc', w'))
    (hsent : ∀ n, ans = .sent n → 0 ≤ n) : pc'.Calm := by
  cases pc with
  | perform task now p =>
    cases p with
    | pure op =>
      cases schedStep_move hs
      exact fun hop ↦ by cases h hop
    | call o k =>
      obtain ⟨⟨r, w₁⟩, he, heq⟩ := Option.map_eq_some_iff.mp hs
      cases heq
      have hrest : Obeys performProtocol PerformPost (performProtocol.next false o r) (k r) := h.2 r
      cases o with
      | netSend msg =>
        have hn : decide (r < (0 : ℤ)) = false :=
          decide_eq_false (Int.not_lt.mpr (hsent r (exec_netSend he)))
        have hnext : performProtocol.next false (.netSend msg) r = false := hn
        rw [hnext] at hrest
        exact hrest
      | _ => exact hrest
  | clock task =>
    cases schedStep_move hs
    exact schedPerformJob_performs S _ _
  | settle task now op =>
    cases schedStep_move hs with
    | netError => exact absurd rfl h
    | _ => trivial
  | loop =>
    cases schedStep_move hs with
    | loopDrain hstop' => cases hstop.symm.trans hstop'
    | loopTake => trivial
  | take => cases schedStep_move hs <;> trivial
  | back => cases schedStep_move hs; trivial
  | _ => cases h

theorem SchMove.stop {pc pc' : SchPc} {w w' : World} (hm : SchMove S pc w pc' w') :
    w'.sched.stop = w.sched.stop := by
  cases hm with
  | op he => exact he.stop
  | alert => split_ifs <;> rfl
  | _ => rfl

theorem Move.stop {s' : Agent} {a : Act} (hm : Move S s a s') (ha : a ≠ .release) :
    s'.w.sched.stop = s.w.sched.stop := by
  cases hm with
  | net hm => exact hm.steady.stop
  | sched _ hm => exact hm.stop
  | api hr =>
    cases apiCall_move hr <;> rfl
  | release => exact absurd rfl ha

theorem calm (h : (agent S).Reach (fun _ a ↦ a.sendFails = false ∧ a ≠ .release) s) :
    s.w.sched.stop = false ∧ s.sch.Calm := by
  refine h.invariant (I := fun s ↦ s.w.sched.stop = false ∧ s.sch.Calm) ⟨rfl, trivial⟩ ?_
  intro s a s' hr hI hok hs
  obtain ⟨hstop, hcalm⟩ := hI
  have hm := Agent.step_move hs
  have hstop' : s'.w.sched.stop = false := (hm.stop hok.2).trans hstop
  rcases Agent.sched_or hs with ⟨ans, pc, w, rfl, hstep, rfl⟩ | ha
  · refine ⟨hstop', hcalm.step hstop hstep fun n hn ↦ ?_⟩
    rw [hn] at hok
    simpa [Act.sendFails] using hok.1
  · rw [(hm.unscheduled ha).1]
    exact ⟨hstop', hcalm⟩

end Calm

section Custody

variable {S : Setup} {g g' : MailLog} {w w' : World} {task t : Emtask} {pc pc' : SchPc}

def HandedOnce (S : Setup) (g : MailLog) (addr : ℕ) (msg : Bytes) : Prop :=
  ∃ seq, recorded addr g.handed = [S.proto.epfSeq msg seq]

def Unhanded (g : MailLog) (t : Emtask) : Prop := t.sends = true → recorded t.addr g.handed = []

def MailPhase (S : Setup) (g : MailLog) (task : Emtask) (t : JobPhase) : Prop :=
  match t.send with
  | .before | .taken _ => recorded task.addr g.handed = []
  | .after failed => failed = false ∧ HandedOnce S g task.addr task.bytes

def Mailing (S : Setup) (g : MailLog) : SchPc → Prop
  | .clock task => Unhanded g task
  | .perform task _ p => task.sends = true → ∃ t, Obeys (jobProtocol S task)
      (fun t op ↦ JobPost S task t op ∧ Mailed t op) t p ∧ MailPhase S g task t
  | .settle task _ op => task.sends = true → op = .notElapsed ∧ recorded task.addr g.handed = [] ∨
      op = .consumed ∧ HandedOnce S g task.addr task.bytes
  | _ => True

structure MailInv (S : Setup) (pc : SchPc) (w : World) (g : MailLog) : Prop where
  known : ∀ e ∈ g.handed, e.1 ∈ w.accepted
  posted : ∀ e ∈ g.posted, e.1 ∈ w.accepted ∧
    ∀ t ∈ w.pending pc, t.addr = e.1 → t.type = .send ∧ t.msg = some e.2
  waits : ∀ t ∈ w.sched.todo ++ w.sched.jobs, Unhanded g t
  flies : Mailing S g pc
  freed : ∀ e ∈ g.posted, e.2.length ≤ emBufSize → e.1 ∈ w.freed → HandedOnce S g e.1 e.2

theorem Mailing.same (h : Mailing S g pc) (hh : g'.handed = g.handed) : Mailing S g' pc := by
  cases pc with
  | clock | perform | settle =>
    simp only [Mailing, Unhanded, MailPhase, HandedOnce, hh] at h ⊢
    exact h
  | _ => trivial

theorem MailInv.same (h : MailInv S pc w g) (hp : g'.posted = g.posted)
    (hh : g'.handed = g.handed) : MailInv S pc w g' where
  known := hh ▸ h.known
  posted := hp ▸ h.posted
  waits := by
    simp only [Unhanded, hh]
    exact h.waits
  flies := h.flies.same hh
  freed := by
    simp only [HandedOnce, hh, hp]
    exact h.freed

theorem MailInv.move (h : MailInv S pc w g) (hacc : w'.accepted = w.accepted)
    (hpending : ∀ t ∈ w'.pending pc', ∃ t₀ ∈ w.pending pc, t₀.Same t)
    (hwaits : ∀ t ∈ w'.sched.todo ++ w'.sched.jobs, Unhanded g t) (hflies : Mailing S g pc')
    (hfreed : ∀ e ∈ g.posted, e.2.length ≤ emBufSize → e.1 ∈ w'.freed → HandedOnce S g e.1 e.2) :
    MailInv S pc' w' g where
  known e he := hacc ▸ h.known e he
  posted e he := by
    obtain ⟨hmem, hmsg⟩ := h.posted e he
    refine ⟨hacc ▸ hmem, fun t ht haddr ↦ ?_⟩
    obtain ⟨t₀, ht₀, hsame⟩ := hpending t ht
    rw [hsame.type, hsame.msg]
    exact hmsg t₀ ht₀ (hsame.addr.symm.trans haddr)
  waits := hwaits
  flies := hflies
  freed := hfreed

theorem MailInv.idle (h : MailInv S pc w g) (hi : Idle w w') : MailInv S pc w' g := by
  refine h.move hi.accepted (fun t ht ↦ ⟨t, hi.pending pc ▸ ht, .refl t⟩) ?_ h.flies ?_
  · rw [hi.todo, hi.jobs]
    exact h.waits
  · rw [hi.freed]
    exact h.freed

theorem MailInv.accept (h : MailInv S pc w g) (hnew : task.addr ∉ w.accepted)
    (hfreed : w.freed ⊆ w.accepted) (hpending : ∀ t ∈ w.pending pc, t.addr ∈ w.accepted)
    (hh : g'.handed = g.handed) {es : List (ℕ × Bytes)} (hp : g'.posted = g.posted ++ es)
    (hes : ∀ e ∈ es, e.1 = task.addr ∧ task.type = .send ∧ task.msg = some e.2) :
    MailInv S pc (w.accept task) g' where
  known := by
    rw [hh, World.accepted_accept]
    exact fun e he ↦ List.mem_append_left _ (h.known e he)
  posted e he := by
    rw [World.accepted_accept, List.mem_append, List.mem_singleton]
    rw [hp] at he
    rcases List.mem_append.mp he with he | he
    · obtain ⟨hmem, hmsg⟩ := h.posted e he
      refine ⟨.inl hmem, fun t ht haddr ↦ ?_⟩
      rcases mem_pending_accept ht with ht | rfl
      · exact hmsg t ht haddr
      · exact absurd (haddr ▸ hmem) hnew
    · obtain ⟨haddr, hmsg⟩ := hes e he
      refine ⟨.inr haddr, fun t ht heq ↦ ?_⟩
      rcases mem_pending_accept ht with ht | rfl
      · exact absurd (heq.trans haddr ▸ hpending t ht) hnew
      · exact hmsg
  waits t ht := by
    simp only [World.accept, ← List.append_assoc] at ht
    simp only [Unhanded, hh]
    rcases List.mem_append.mp ht with ht | ht
    · exact h.waits t ht
    · obtain rfl := List.mem_singleton.mp ht
      refine fun _ ↦ recorded_of_not_mem fun hmem ↦ hnew ?_
      obtain ⟨e, he, heq⟩ := List.mem_map.mp hmem
      exact heq ▸ h.known e he
  flies := h.flies.same hh
  freed e he hfits hf := by
    rw [World.freed_accept] at hf
    rw [hp] at he
    simp only [HandedOnce, hh]
    rcases List.mem_append.mp he with he | he
    · exact h.freed e he hfits hf
    · exact absurd (hfreed ((hes e he).1 ▸ hf)) hnew

theorem recorded_other {addr addr' : ℕ} {m : Bytes} (hh : g'.handed = g.handed ++ [(addr, m)])
    (hne : addr' ≠ addr) : recorded addr' g'.handed = recorded addr' g.handed := by
  have hnone : recorded addr' [(addr, m)] = [] := recorded_of_not_mem (by simpa using hne)
  rw [hh, recorded_append, hnone, List.append_nil]

theorem MailInv.hand (h : MailInv S pc w g) (hapart : Apart pc w) (htask : task ∈ pc.held)
    {m : Bytes} (hh : g'.handed = g.handed ++ [(task.addr, m)]) (hp : g'.posted = g.posted)
    (hheld : pc'.held = pc.held) (hflies : Mailing S g' pc') : MailInv S pc' w g' where
  known e he := by
    rw [hh] at he
    rcases List.mem_append.mp he with he | he
    · exact h.known e he
    · obtain rfl := List.mem_singleton.mp he
      exact hapart.accepted task htask
  posted := by
    rw [hp, World.pending, hheld]
    exact h.posted
  waits t ht := by
    rw [Unhanded, recorded_other hh (hapart.waits task htask t ht)]
    exact h.waits t ht
  flies := hflies
  freed e he hfits hf := by
    rw [hp] at he
    have hne : e.1 ≠ task.addr := fun heq ↦ hapart.freed task htask (heq ▸ hf)
    rw [HandedOnce, recorded_other hh hne]
    exact h.freed e he hfits hf

theorem MailPhase.before {t : JobPhase} (hsend : t.send = .before) :
    MailPhase S g task t ↔ recorded task.addr g.handed = [] := by
  rw [MailPhase, hsend]

theorem MailPhase.taken {t : JobPhase} {n : UInt32} (hsend : t.send = .taken n) :
    MailPhase S g task t ↔ recorded task.addr g.handed = [] := by
  rw [MailPhase, hsend]

theorem MailPhase.next {t : JobPhase} {o : Op} (r : o.Res) (h : MailPhase S g task t)
    (hallowed : (jobProtocol S task).allowed t o) (ho : ∀ msg, o ≠ .netSend msg) :
    MailPhase S g task ((jobProtocol S task).next t o r) := by
  have hsend := JobPhase.send_before hallowed ho
  have hnone := (MailPhase.before hsend).mp h
  cases o with
  | netSend msg => exact absurd rfl (ho msg)
  | netNextSeq =>
    have hnext : ((jobProtocol S task).next t .netNextSeq r).send = .taken r := rfl
    exact (MailPhase.taken hnext).mpr hnone
  | _ => exact (MailPhase.before (t := (jobProtocol S task).next t _ r) hsend).mpr hnone

theorem MailInv.op {now : Timespec} {o : Op} {k : o.Res → Proc Outcome} {r : o.Res} {ans : Ans}
    (h : MailInv S (.perform task now (.call o k)) w g)
    (hapart : Apart (.perform task now (.call o k)) w)
    (hperf : Performing (.perform task now (.call o k)))
    (he : exec o ans w = some (r, w')) (hsent : ∀ n, ans = .sent n → 0 ≤ n)
    (hp : g'.posted = g.posted)
    (hh : g'.handed = g.handed ++ (SchPc.perform task now (.call o k)).mails) :
    MailInv S (.perform task now (k r)) w' g' := by
  obtain ⟨failed, hbehaves⟩ := hperf
  have hi := (exec_effect he).idle hbehaves.1
  have htask : task ∈ (SchPc.perform task now (.call o k)).held := List.mem_singleton_self task
  cases o with
  | netSend msg =>
    refine MailInv.idle (h.hand hapart htask hh hp rfl fun hsends ↦ ?_) hi
    obtain ⟨t, hobeys, hphase⟩ := h.flies hsends
    obtain ⟨n, m, hsend, rfl, _, hm⟩ := JobPhase.send_taken hobeys.1
    have hn : decide (r < (0 : ℤ)) = false :=
      decide_eq_false (Int.not_lt.mpr (hsent r (exec_netSend he)))
    obtain ⟨htype, _⟩ := Emtask.sends_iff.mp hsends
    refine ⟨_, hobeys.2 r, hn, n, ?_⟩
    rw [hh, recorded_append, (MailPhase.taken hsend).mp hphase, hm htype]
    simp [SchPc.mails, recorded]
  | _ =>
    have hI := h.same hp (hh.trans (List.append_nil _))
    refine MailInv.idle (hI.move rfl (fun t ht ↦ ⟨t, ht, .refl t⟩) hI.waits (fun hsends ↦ ?_)
      hI.freed) hi
    obtain ⟨t, hobeys, hphase⟩ := hI.flies hsends
    exact ⟨_, hobeys.2 r, hphase.next r hobeys.1 (by simp)⟩

theorem Mailing.returned {now : Timespec} {op : Outcome}
    (h : Mailing S g (.perform task now (.pure op))) (hop : op ≠ .netError)
    (honce : task.type = .send → task.resch = 0) : Mailing S g (.settle task now op) := by
  intro hsends
  obtain ⟨t, ⟨hpost, hmailed⟩, hphase⟩ := h hsends
  obtain ⟨htype, _⟩ := Emtask.sends_iff.mp hsends
  cases op with
  | netError => exact absurd rfl hop
  | notElapsed =>
    rw [hpost.later rfl] at hphase
    exact .inl ⟨rfl, hphase⟩
  | reschedule => exact absurd (honce htype) (hpost.again rfl)
  | consumed =>
    obtain ⟨failed, hsend⟩ := hmailed.resolve_left (by simp)
    rw [MailPhase, hsend] at hphase
    exact .inr ⟨rfl, hphase.2⟩

theorem MailInv.consumed {now : Timespec} (h : MailInv S (.settle task now .consumed) w g) :
    MailInv S .take (w.log (.freed task.addr)) g := by
  have hm : SchMove S (.settle task now .consumed) w .take (w.log (.freed task.addr)) := .consumed
  refine h.move (accepted_of_extends (.event rfl rfl)) (fun t ht ↦ hm.pending trivial ht) h.waits
    trivial fun e he hfits hf ↦ ?_
  rw [World.freed_log] at hf
  rcases List.mem_append.mp hf with hf | hf
  · exact h.freed e he hfits hf
  · have haddr := List.mem_singleton.mp hf
    obtain ⟨htype, hmsg⟩ := (h.posted e he).2 task
      (World.mem_pending.mpr (.inl (List.mem_singleton_self task))) haddr.symm
    have hbytes : task.bytes = e.2 := by rw [Emtask.bytes, hmsg]; rfl
    have hsends := Emtask.sends_iff.mpr ⟨htype, hbytes.symm ▸ hfits⟩
    rcases h.flies hsends with ⟨hop, _⟩ | ⟨_, honce⟩
    · cases hop
    · rw [haddr, ← hbytes]
      exact honce

theorem MailInv.schMove {ans : Ans} (h : MailInv S pc w g)
    (hs : schedStep S pc ans w = some (pc', w')) (hapart : Apart pc w) (hperf : Performing pc)
    (hstop : w.sched.stop = false) (hcalm : pc.Calm) (hsent : ∀ n, ans = .sent n → 0 ≤ n)
    (honce : ∀ t ∈ w.pending pc, t.type = .send → t.resch = 0)
    (hp : g'.posted = g.posted) (hh : g'.handed = g.handed ++ pc.mails) :
    MailInv S pc' w' g' := by
  have hm := schedStep_move hs
  have hpending := fun t (ht : t ∈ w'.pending pc') ↦ hm.pending hperf ht
  have hsame (hnone : pc.mails = []) : MailInv S pc w g' :=
    h.same hp (hh.trans (by rw [hnone, List.append_nil]))
  cases hm with
  | op _ =>
    obtain ⟨⟨r, w₁⟩, he, heq⟩ := Option.map_eq_some_iff.mp hs
    obtain ⟨hpc', hw'⟩ := Prod.mk.inj heq
    rw [← hpc', ← hw']
    exact h.op hapart hperf he hsent hp hh
  | @returned _ task now op =>
    have hI := hsame rfl
    have hi : Idle w (w.log (.performed task.addr op)) := .log w _ ⟨rfl, rfl⟩
    have hop : op ≠ .netError := fun hop ↦ by cases hcalm hop
    have htask : task ∈ w.pending (.perform task now (.pure op)) :=
      World.mem_pending.mpr (.inl (List.mem_singleton_self task))
    refine MailInv.idle (hI.move rfl (fun t ht ↦ ⟨t, ht, .refl t⟩) hI.waits ?_ hI.freed) hi
    exact hI.flies.returned hop (honce task htask)
  | clock =>
    have hI := hsame rfl
    refine hI.move rfl hpending hI.waits (fun hsends ↦ ⟨.init, ?_, hI.flies hsends⟩) hI.freed
    exact (schedPerformJob_obeys _).and (schedPerformJob_mails hsends _)
  | takeTask hjobs =>
    have hI := hsame rfl
    have hwaits := hI.waits
    simp only [hjobs, List.mem_append, List.mem_cons] at hwaits
    refine hI.move rfl hpending (fun t ht ↦ hwaits t ?_) (hwaits _ (.inr (.inl rfl))) hI.freed
    rcases List.mem_append.mp ht with ht | ht
    · exact .inl ht
    · exact .inr (.inr ht)
  | @later _ task now =>
    have hI := hsame rfl
    have hback : Unhanded g' task := fun hsends ↦ by
      rcases hI.flies hsends with ⟨_, hnone⟩ | ⟨hop, _⟩
      · exact hnone
      · cases hop
    exact hI.move rfl hpending (List.forall_mem_cons.mpr ⟨hback, hI.waits⟩) trivial hI.freed
  | @again _ task now =>
    have hI := hsame rfl
    have hback : Unhanded g' { task with
        issued := now
        resch := if 0 < task.resch then task.resch - 1 else task.resch } := fun hsends ↦ by
      rcases hI.flies hsends with ⟨hop, _⟩ | ⟨hop, _⟩ <;> cases hop
    exact hI.move rfl hpending (List.forall_mem_cons.mpr ⟨hback, hI.waits⟩) trivial hI.freed
  | consumed => exact (hsame rfl).consumed
  | back =>
    have hI := hsame rfl
    refine hI.move rfl hpending (fun t ht ↦ hI.waits t ?_) trivial hI.freed
    simpa using ht
  | netError => exact absurd rfl hcalm
  | loopDrain hdrain => cases hstop.symm.trans hdrain
  | loopTake | takeNone =>
    have hI := hsame rfl
    exact hI.move rfl hpending hI.waits trivial hI.freed
  | flush | alert | down | drain => cases hcalm

end Custody

section Runs

variable {S : Setup} {s s' : Agent} {p : Agent × MailLog} {a : Act}

theorem emSend_run {msg : Bytes} {answers : List Ans} {x : ℤ} {w w' : World}
    (h : (ApiCall.emSend msg).body.run exec answers w = some (x, w')) :
    (x = -1 ∧ ∃ heap, w.heap ≤ heap ∧ w' = { w with heap }) ∨
      x = 0 ∧ ∃ heap addr now, w.heap ≤ addr ∧ addr < heap ∧ w.sched.stop = false ∧
        w' = World.accept { w with heap }
          { Emtask.init addr .send 1 0 0 (some msg) with issued := now } := by
  simp only [ApiCall.body] at h
  split_ifs at h
  · have hnone : Ensures exec (fun _ ↦ True) (.pure (-1)) w fun x w' ↦ x = -1 ∧ w' = w :=
      ensures_pure ⟨rfl, rfl⟩
    obtain ⟨rfl, rfl⟩ := hnone answers x w' (fun _ _ ↦ trivial) h
    exact .inl ⟨rfl, _, Nat.le_refl _, rfl⟩
  · exact coreSend_ensures msg w answers x w' (fun _ _ ↦ trivial) h

/-- A call of `em_send` that returns 0 has queued one task, with the message. -/
theorem emSend_queues {msg : Bytes} {answers : List Ans} {w w' : World}
    (h : (ApiCall.emSend msg).body.run exec answers w = some (0, w')) :
    ∃ task, w'.sched.jobs = w.sched.jobs ++ [task] ∧ w'.accepted = w.accepted ++ [task.addr] ∧
      task.type = .send ∧ task.msg = some msg := by
  rcases emSend_run h with ⟨hx, _⟩ | ⟨_, heap, addr, now, _, _, _, rfl⟩
  · cases hx
  · exact ⟨_, rfl, World.accepted_accept { w with heap } _, rfl, rfl⟩

theorem Move.posts (hm : Move S s a s') (ha : ∀ ans, a ≠ .sched ans) :
    (Idle s.w s'.w ∧ s.posts s' a = []) ∨ ∃ task v, Idle s.w v ∧ s'.w = v.accept task ∧
      ∀ e ∈ s.posts s' a, e.1 = task.addr ∧ task.type = .send ∧ task.msg = some e.2 := by
  have hother (hnone : s.posts s' a = []) : (Idle s.w s'.w ∧ s.posts s' a = []) ∨
      ∃ task v, Idle s.w v ∧ s'.w = v.accept task ∧
        ∀ e ∈ s.posts s' a, e.1 = task.addr ∧ task.type = .send ∧ task.msg = some e.2 := by
    rw [hnone]
    rcases hm.given ha with ⟨hi, _⟩ | ⟨task, v, hi, hw, _⟩
    · exact .inl ⟨hi, rfl⟩
    · exact .inr ⟨task, v, hi, hw, List.forall_mem_nil _⟩
  cases hm with
  | api hr =>
    rename_i call answers x w
    cases call with
    | emSend msg =>
      rcases emSend_run hr with ⟨rfl, heap, hle, rfl⟩ | ⟨rfl, heap, addr, now, hle, hlt, _, rfl⟩
      · exact .inl ⟨.silent rfl rfl hle rfl, by simp [Agent.posts, hr]⟩
      · have hi : Idle s.w { s.w with heap } :=
          .silent rfl rfl (Nat.le_trans hle (Nat.le_of_lt hlt)) rfl
        refine .inr ⟨_, _, hi, rfl, ?_⟩
        simp [Agent.posts, hr, World.accept, Emtask.init]
    | _ => exact hother rfl
  | sched => exact absurd rfl (ha _)
  | _ => exact hother rfl

theorem MailInv.outside {g : MailLog} (h : MailInv S s.sch s.w g) (hr : (agent S).Reachable s)
    (hr' : (agent S).Reachable s') (hm : Move S s a s') (ha : ∀ ans, a ≠ .sched ans) :
    MailInv S s'.sch s'.w (noteMail s a s' g) := by
  have hh : (noteMail s a s' g).handed = g.handed := by
    cases a with
    | sched => exact absurd rfl (ha _)
    | _ => exact List.append_nil _
  rw [(hm.unscheduled ha).1]
  rcases hm.posts ha with ⟨hi, hposts⟩ | ⟨task, v, hi, hw, hposts⟩
  · refine (h.idle hi).same ?_ hh
    simp only [noteMail, hposts, List.append_nil]
  · have hacc := hi.accepted
    rw [hw]
    refine (h.idle hi).accept ?_ ?_ ?_ hh rfl hposts
    · rw [hacc]
      refine not_accepted_before hr' ?_
      rw [hw, World.accepted_accept, hacc]
    · rw [hi.freed, hacc]
      exact freed_accepted hr
    · intro t ht
      rw [hi.pending] at ht
      rw [hacc]
      exact pending_accepted hr ht

theorem MailInv.of_reach (h : (mailAgent S).Reach SendsWork p) : MailInv S p.1.sch p.1.w p.2 := by
  refine h.watched (I := fun s g ↦ MailInv S s.sch s.w g)
    (fun _ (a : Act) ↦ a.sendFails = false ∧ a ≠ Act.release) (fun _ _ hok ↦ hok) ?_ ?_
  · exact ⟨List.forall_mem_nil _, List.forall_mem_nil _, List.forall_mem_nil _, trivial,
      List.forall_mem_nil _⟩
  intro s g a s' hr hI hok hs
  have hreach := hr.reachable
  have hm := Agent.step_move hs
  rcases Agent.sched_or hs with ⟨ans, pc, w, rfl, hstep, rfl⟩ | ha
  · obtain ⟨hstop, hcalm⟩ := calm hr
    refine hI.schMove hstep (.of_reachable hreach) (conduct hreach).1 hstop hcalm ?_
      (send_once hreach) (List.append_nil _) rfl
    rintro n rfl
    simpa [Act.sendFails] using hok.1
  · exact hI.outside hreach (.step hreach trivial hs) hm ha

def SchPc.Working (S : Setup) : SchPc → Prop
  | .perform task _ p => ∃ t, Obeys (jobProtocol S task) (JobPost S task) t p
  | _ => True

theorem SchPc.Working.step {pc pc' : SchPc} {w w' : World} (h : pc.Working S)
    (hm : SchMove S pc w pc' w') : pc'.Working S := by
  cases hm with
  | clock => exact ⟨.init, schedPerformJob_obeys _⟩
  | op =>
    obtain ⟨t, hobeys⟩ := h
    exact ⟨_, hobeys.2 _⟩
  | _ => trivial

theorem SchPc.Working.mails {pc : SchPc} (h : pc.Working S) :
    ∀ e ∈ pc.mails, e.2.length ≤ emBufSize := by
  intro e he
  unfold SchPc.mails at he
  split at he
  · obtain rfl := List.mem_singleton.mp he
    obtain ⟨t, hobeys⟩ := h
    obtain ⟨n, m, _, rfl, hfits, _⟩ := JobPhase.send_taken hobeys.1
    exact Nat.le_trans (Nat.le_of_eq (S.proto.epfSeq_length m n)) hfits
  · cases he

/-- `net_send` is called with no message of more than `emBufSize` bytes. -/
theorem handed_fits (h : (mailAgent S).Reach SendsWork p) :
    ∀ e ∈ p.2.handed, e.2.length ≤ emBufSize := by
  have hboth : p.1.sch.Working S ∧ ∀ e ∈ p.2.handed, e.2.length ≤ emBufSize := by
    refine h.watched
      (I := fun s g ↦ s.sch.Working S ∧ ∀ e ∈ g.handed, e.2.length ≤ emBufSize) (fun _ _ ↦ True)
      (fun _ _ _ ↦ trivial) ⟨trivial, List.forall_mem_nil _⟩ ?_
    intro s g a s' _ hI _ hs
    obtain ⟨hworking, hfits⟩ := hI
    rcases Agent.sched_or hs with ⟨ans, pc, w, rfl, hstep, rfl⟩ | ha
    · refine ⟨hworking.step (schedStep_move hstep), fun e he ↦ ?_⟩
      rcases List.mem_append.mp he with he | he
      · exact hfits e he
      · exact hworking.mails e he
    · have hm : Move S s a s' := Agent.step_move hs
      rw [(hm.unscheduled ha).1]
      refine ⟨hworking, fun e he ↦ hfits e ?_⟩
      cases a with
      | sched => exact absurd rfl (ha _)
      | _ => simpa [noteMail, Agent.mails] using he
  exact hboth.2

/-- A message for which `em_send` returned 0, which then has queued one task for
it, has been handed to `net_send` once by the time that task is freed, whole and
with nothing but its sequence number written, exactly when it is of at most
`emBufSize` bytes. -/
theorem accepted_messages_sent (h : (mailAgent S).Reach SendsWork p) :
    (∀ msg answers w', (ApiCall.emSend msg).body.run exec answers p.1.w = some (0, w') →
      ∃ task, w'.sched.jobs = p.1.w.sched.jobs ++ [task] ∧
        w'.accepted = p.1.w.accepted ++ [task.addr] ∧ task.type = .send ∧ task.msg = some msg) ∧
    ∀ e ∈ p.2.posted, e.1 ∈ p.1.w.freed →
      ((∃ seq, recorded e.1 p.2.handed = [S.proto.epfSeq e.2 seq] ∧
        (S.proto.epfSeq e.2 seq).length = e.2.length) ↔ e.2.length ≤ emBufSize) := by
  refine ⟨fun _ _ _ hr ↦ emSend_queues hr, fun e he hf ↦ ⟨?_, fun hfits ↦ ?_⟩⟩
  · rintro ⟨seq, hseq, hlen⟩
    have hmem : (e.1, S.proto.epfSeq e.2 seq) ∈ p.2.handed := by
      apply mem_of_recorded
      rw [hseq]
      exact List.mem_singleton_self _
    exact hlen ▸ handed_fits h _ hmem
  · obtain ⟨seq, hseq⟩ := (MailInv.of_reach h).freed e he hfits hf
    exact ⟨seq, hseq, S.proto.epfSeq_length _ _⟩

theorem accepted_messages_sent_two : ∃ p, (mailAgent Sample.setup).Reach SendsWork p ∧
    p.2.posted = [(0, [0, 6, 0, 0, 0, 1]), (2, [0, 6, 0, 0, 0, 2])] ∧
    ∃ seq, recorded 0 p.2.handed = [[0, 6, 0, 0, 0, 1].set 5 seq] := by
  have hr := (mailAgent Sample.setup).reach_get SendsWork sendBoth (by decide +kernel)
  obtain ⟨_, hsent⟩ := accepted_messages_sent hr
  obtain ⟨seq, hseq, _⟩ := (hsent (0, [0, 6, 0, 0, 0, 1]) (by decide +kernel)
    (by decide +kernel)).mpr (by decide)
  exact ⟨_, hr, by decide +kernel, seq.toUInt8, hseq⟩

def longMessage : Bytes := List.replicate 4097 0

def longRun : List Act :=
  [Sample.emSend longMessage, .sched .tick, .sched .tick, .sched (.time (Sample.after 2000)),
    .sched .tick, .sched .tick, .sched .tick]

theorem accepted_message_dropped : ¬ ∀ p, (mailAgent Sample.setup).Reach SendsWork p →
    ∀ e ∈ p.2.posted, e.1 ∈ p.1.w.freed →
      ∃ seq, recorded e.1 p.2.handed = [Sample.setup.proto.epfSeq e.2 seq] := by
  intro h
  have hr := (mailAgent Sample.setup).reach_get SendsWork longRun (by decide +kernel)
  obtain ⟨seq, hseq⟩ := h _ hr (0, longMessage) (by decide +kernel) (by decide +kernel)
  have hnone : recorded 0 ((mailAgent Sample.setup).runIf SendsWork
      (mailAgent Sample.setup).start longRun |>.get (by decide +kernel)).2.handed = [] := by
    decide +kernel
  cases hnone.symm.trans hseq

end Runs

end EmpowerAgent
