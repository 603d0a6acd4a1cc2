import EmpowerAgent.TriggerKeys

namespace EmpowerAgent

open Library.Proc (Obeys)

/-- What an observer notes of the requests: which task was queued for which
message, and which call the wrapper got from which task. -/
structure CallLog where
  causes : List (ℕ × Bytes)
  calls : List (ℕ × Callback)

def SchPc.calls : SchPc → List (ℕ × Callback)
  | .perform task _ (.call (.callback c) _) => [(task.addr, c)]
  | _ => []

namespace Agent

def enqueues (s : Agent) : Act → List Emtask
  | .net _ => match s.net.pc with
    | .process (.call (.schedAddTask task) _) => if s.w.sched.stop then [] else [task]
    | _ => []
  | _ => []

def causes (s : Agent) (a : Act) : List (ℕ × Bytes) :=
  (s.enqueues a).flatMap fun task ↦ s.w.handling.toList.map (task.addr, ·)

def calls (s : Agent) : Act → List (ℕ × Callback)
  | .sched _ => s.sch.calls
  | _ => []

end Agent

def noteCalls (s : Agent) (a : Act) (_ : Agent) (g : CallLog) : CallLog :=
  ⟨g.causes ++ s.causes a, g.calls ++ s.calls a⟩

def callAgent (S : Setup) : Library.Machine (Agent × CallLog) Act :=
  (agent S).watch ⟨[], []⟩ noteCalls

/-- The id that a trigger gets is in use neither by a live trigger nor by a
task for one, and a trigger for cell measurements gets a positive one. -/
def IdFree (s : Agent) (a : Act) : Prop :=
  ∀ trig ∈ s.adding a, (∀ t ∈ s.w.trig.ts, t.id ≠ s.w.trig.next) ∧
    (∀ task ∈ s.pending, task.msg = none → task.type ≠ .hello → task.trig ≠ s.w.trig.next) ∧
    (trig.type = TaskType.cellMeasure.toInt → 0 < s.w.trig.next)

instance (s : Agent) (a : Act) : Decidable (IdFree s a) := Option.decidableForallMem (s.adding a)

section Routes

variable {E : Emproto} {S : Setup} {ts : List Emtri} {msg : Bytes} {task : Emtask}

theorem requestedTask_of_trigger (h : E.eppMsgType msg = .trigger) :
    requestedTask E msg = .ueReport ∨ requestedTask E msg = .ueMeasure ∨
      requestedTask E msg = .cellMeasure ∨ requestedTask E msg = .invalid := by
  unfold requestedTask
  rw [h]
  dsimp only
  split <;> simp

theorem requestedTask_of_other (h : E.eppMsgType msg ≠ .trigger) :
    requestedTask E msg ≠ .ueReport ∧ requestedTask E msg ≠ .ueMeasure := by
  unfold requestedTask
  cases htype : E.eppMsgType msg with
  | trigger => exact absurd htype h
  | other => exact ⟨nofun, nofun⟩
  | single | schedule =>
    dsimp only
    constructor <;> split <;> exact nofun

/-- How a task leads back to the module of the message it was queued for: its
own field stays 0, it has the id of a trigger for that module, or the message. -/
structure Carries (E : Emproto) (ts : List Emtri) (msg : Bytes) (task : Emtask) : Prop where
  mod : task.mod = 0
  type : task.type = requestedTask E msg
  trig : E.eppMsgType msg = .trigger → task.msg = none ∧
    (∀ t ∈ ts, t.id = task.trig → t.mod = requester E msg) ∧
    (task.type = .cellMeasure → 0 < task.trig)
  body : E.eppMsgType msg ≠ .trigger → task.msg = some msg ∧ task.trig = 0

theorem Carries.module_of_trigger {found : Option Emtri} {m : UInt32}
    (h : Carries S.proto ts msg task) (htrig : S.proto.eppMsgType msg = .trigger)
    (hfound : ∀ trig, found = some trig → trig.mod = requester S.proto msg)
    (hm : jobModule S task found = some m) : m = requester S.proto msg ↔
      requestedTask S.proto msg ≠ .ueReport ∨ requester S.proto msg = 0 := by
  have htype := h.type
  have hmodule (hm : found.map (·.mod) = some m) : m = requester S.proto msg := by
    obtain ⟨trig, hf, rfl⟩ := Option.map_eq_some_iff.mp hm
    exact hfound trig hf
  unfold jobModule at hm
  rcases requestedTask_of_trigger htrig with hreq | hreq | hreq | hreq
  · rw [htype.trans hreq] at hm
    have hzero : m = 0 := (Option.some.inj hm).symm.trans h.mod
    rw [hreq, hzero]
    simp [eq_comm]
  · rw [htype.trans hreq] at hm
    rw [hreq, hmodule hm]
    simp
  · rw [htype.trans hreq] at hm
    have hpos := (h.trig htrig).2.2 (htype.trans hreq)
    simp only [if_pos hpos] at hm
    rw [hreq, hmodule hm]
    simp
  · rw [htype.trans hreq] at hm
    cases hm

theorem Carries.module_of_other {found : Option Emtri} {m : UInt32}
    (h : Carries S.proto ts msg task) (hother : S.proto.eppMsgType msg ≠ .trigger)
    (hm : jobModule S task found = some m) : m = requester S.proto msg := by
  obtain ⟨hmsg, hzero⟩ := h.body hother
  obtain ⟨hreport, hmeasure⟩ := requestedTask_of_other hother
  have hbytes : task.bytes = msg := by simp [Emtask.bytes, hmsg]
  unfold jobModule at hm
  rw [hzero] at hm
  rw [requester, ← hbytes]
  cases htype : task.type with
  | ueReport => exact absurd (h.type.symm.trans htype) hreport
  | ueMeasure => exact absurd (h.type.symm.trans htype) hmeasure
  | cellMeasure =>
    rw [htype] at hm
    simpa using hm.symm
  | send | hello | invalid =>
    rw [htype] at hm
    cases hm
  | _ =>
    rw [htype] at hm
    exact (Option.some.inj hm).symm

theorem Carries.module {found : Option Emtri} {m : UInt32} (h : Carries S.proto ts msg task)
    (hfound : S.proto.eppMsgType msg = .trigger →
      ∀ trig, found = some trig → trig.mod = requester S.proto msg)
    (hm : jobModule S task found = some m) : m = requester S.proto msg ↔
      requestedTask S.proto msg ≠ .ueReport ∨ requester S.proto msg = 0 := by
  by_cases htrig : S.proto.eppMsgType msg = .trigger
  · exact h.module_of_trigger htrig (hfound htrig) hm
  · obtain ⟨hreport, _⟩ := requestedTask_of_other htrig
    exact iff_of_true (h.module_of_other htrig hm) (.inl hreport)

end Routes

section Asking

variable {E : Emproto} {S : Setup} {s : Agent} {w w' : World} {msg : Bytes} {trig : Emtri}

structure Latest (E : Emproto) (ts : List Emtri) (msg : Bytes) (trig : Emtri) : Prop where
  only : ∀ t ∈ ts, t.id = trig.id → t.mod = requester E msg
  pos : requestedTask E msg = .cellMeasure → 0 < trig.id

theorem Latest.shrink (h : Latest E w.trig.ts msg trig) (hs : Shrinks w w') :
    Latest E w'.trig.ts msg trig := ⟨fun t ht ↦ h.only t (hs.ts.subset ht), h.pos⟩

theorem adds_cell {t : HandlerPhase} (h : (handlerProtocol E msg).allowed t (.trigAdd trig))
    (hreq : requestedTask E msg = .cellMeasure) : trig.type = TaskType.cellMeasure.toInt := by
  obtain ⟨hmsg, _, _, _, hkeys⟩ := h
  have hmem : trig.key ∈ addedKeys E msg := hkeys.subset (List.mem_cons_self ..)
  simp only [requestedTask, hmsg] at hreq
  cases htype : E.eppTriggerType msg with
  | cellMeasure =>
    simp only [addedKeys, htype, List.mem_singleton] at hmem
    exact congrArg (·.2.1) hmem
  | _ =>
    rw [htype] at hreq
    cases hreq

def Asking (E : Emproto) (w : World) : NetPc → Prop
  | .process p => ∃ msg t, Served E w msg t p ∧
      ∀ trig, t.added.head? = some trig → Latest E w.trig.ts msg trig
  | _ => True

theorem Asking.frame {pc : NetPc} (h : Asking E w pc) (hm : w'.handling = w.handling)
    (hs : Shrinks w w') : Asking E w' pc := by
  cases pc with
  | process p =>
    obtain ⟨msg, t, hp, hlatest⟩ := h
    refine ⟨msg, t, hp.frame hm (by rw [hs.added]; exact List.Subset.refl _), fun trig ht ↦ ?_⟩
    exact (hlatest trig ht).shrink hs
  | _ => trivial

theorem Asking.netMove {t t' : NetThread} (h : Asking E w t.pc) (hm : NetMove E t w t' w')
    (hfree : ∀ trig k, t.pc = .process (.call (.trigAdd trig) k) →
      (∀ u ∈ w.trig.ts, u.id ≠ w.trig.next) ∧
        (trig.type = TaskType.cellMeasure.toInt → 0 < w.trig.next)) : Asking E w' t'.pc := by
  cases hm with
  | recvMessage => exact ⟨_, .init, .start _ _, nofun⟩
  | handler he =>
    obtain ⟨msg, ph, hp, hlatest⟩ := h
    refine ⟨msg, _, hp.step he, ?_⟩
    rcases he.triggers with ⟨hs, ho⟩ | ⟨trig, rfl, rfl⟩
    · rw [handler_next_added _ ho]
      exact fun trig ht ↦ (hlatest trig ht).shrink hs
    · cases he
      obtain ⟨hunused, hpos⟩ := hfree trig _ rfl
      rintro _ ⟨⟩
      refine ⟨fun u hu hid ↦ ?_, fun hreq ↦ hpos (adds_cell hp.obeys.1 hreq)⟩
      rcases List.mem_cons.mp hu with rfl | hu
      · exact hp.obeys.1.2.2.1
      · exact absurd hid (hunused u hu)
  | again hpc | connectFail hpc => rcases hpc with rfl | rfl <;> trivial
  | _ => trivial

theorem Asking.of_reach (h : (agent S).Reach IdFree s) : Asking S.proto s.w s.net.pc := by
  refine h.invariant (I := fun s ↦ Asking S.proto s.w s.net.pc) ?_ ?_
  · trivial
  intro s a s' hr hI hfree hs
  have hm := Agent.step_move hs
  rcases Agent.net_or hs with ⟨ans, t, w, rfl, hstep, rfl⟩ | ha
  · refine hI.netMove (netStep_move hstep) fun trig k hpc ↦ ?_
    obtain ⟨hunused, _, hpos⟩ := hfree trig (by simp only [Agent.adding, hpc]; rfl)
    exact ⟨hunused, hpos⟩
  · obtain ⟨hnet, hmsg, hshrink⟩ := hm.aside (conduct hr.reachable).1 ha
    rw [hnet]
    exact hI.frame hmsg hshrink

end Asking

section Runs

variable {S : Setup} {s s' : Agent} {a : Act} {g : CallLog} {task : Emtask} {msg : Bytes}

theorem enqueues_step (hs : (agent S).step s a = some s') (h : task ∈ s.enqueues a) :
    ∃ k ans, a = .net ans ∧ s.net.pc = .process (.call (.schedAddTask task) k) ∧
      s'.w = s.w.accept task ∧ s'.sch = s.sch := by
  cases a with
  | net ans =>
    simp only [Agent.enqueues] at h
    split at h
    · rename_i new k hpc
      split_ifs at h with hstop
      · cases h
      obtain rfl := List.mem_singleton.mp h
      refine ⟨k, ans, rfl, hpc, ?_⟩
      obtain ⟨r, w, he, rfl⟩ := Agent.handler_step hs hpc
      cases exec_effect he with
      | refused hrefuse => exact absurd hrefuse hstop
      | accepted => exact ⟨rfl, rfl⟩
    · cases h
  | _ => cases h

theorem causes_step {addr : ℕ} (hs : (agent S).step s a = some s') (h : (addr, msg) ∈ s.causes a) :
    ∃ task k ans, a = .net ans ∧ s.net.pc = .process (.call (.schedAddTask task) k) ∧
      s.w.handling = some msg ∧ addr = task.addr ∧ s'.w = s.w.accept task := by
  obtain ⟨task, htask, hmem⟩ := List.mem_flatMap.mp h
  obtain ⟨m, hm, heq⟩ := List.mem_map.mp hmem
  cases heq
  obtain ⟨k, ans, ha, hpc, hw, _⟩ := enqueues_step hs htask
  exact ⟨task, k, ans, ha, hpc, Option.mem_toList.mp hm, rfl, hw⟩

/-- The module of a callback is that of the message, save that reports always
name module 0. -/
def Attributed (E : Emproto) (msg : Bytes) (c : Callback) : Prop :=
  c.mod = some (requester E msg) ↔ requestedTask E msg ≠ .ueReport ∨ requester E msg = 0

def Answering (S : Setup) (g : CallLog) : SchPc → Prop
  | .perform task _ p => ∃ t, Obeys (jobProtocol S task) (JobPost S task) t p ∧
      ∀ trig, t.found = some trig → ∀ msg, (task.addr, msg) ∈ g.causes →
        S.proto.eppMsgType msg = .trigger → trig.mod = requester S.proto msg
  | _ => True

structure Caused (S : Setup) (s : Agent) (g : CallLog) : Prop where
  known : ∀ addr msg, (addr, msg) ∈ g.causes → addr ∈ s.w.accepted
  called : ∀ addr c, (addr, c) ∈ g.calls → addr ∈ s.w.accepted
  carries : ∀ task ∈ s.pending, ∀ msg, (task.addr, msg) ∈ g.causes →
    Carries S.proto s.w.trig.ts msg task
  answering : Answering S g s.sch
  attributed : ∀ addr msg c, (addr, msg) ∈ g.causes → (addr, c) ∈ g.calls →
    Attributed S.proto msg c

theorem Carries.same {ts ts' : List Emtri} {t : Emtask} (h : Carries S.proto ts msg t)
    (hs : t.Same task) (hts : S.proto.eppMsgType msg = .trigger →
      ∀ u ∈ ts', u.id = t.trig → u.mod = requester S.proto msg) :
    Carries S.proto ts' msg task where
  mod := hs.mod.trans h.mod
  type := hs.type.trans h.type
  trig htrig := by
    obtain ⟨hmsg, _, hpos⟩ := h.trig htrig
    rw [hs.trig, hs.type, hs.msg]
    exact ⟨hmsg, hts htrig, hpos⟩
  body hother := by
    rw [hs.trig, hs.msg]
    exact h.body hother

theorem Carries.queued {w : World} {k : ℤ → Proc ℤ}
    (h : Asking S.proto w (.process (.call (.schedAddTask task) k)))
    (hmsg : w.handling = some msg) : Carries S.proto w.trig.ts msg task := by
  obtain ⟨m, t, hp, hlatest⟩ := h
  obtain rfl : m = msg := Option.some.inj (hp.message.symm.trans hmsg)
  obtain ⟨hmod, htype, hbody⟩ := hp.obeys.1
  refine ⟨hmod, htype, fun htrig ↦ ?_, fun hother ↦ ?_⟩
  · rw [if_pos htrig] at hbody
    obtain ⟨hnone, _, trig, hhead, hid⟩ := hbody
    have hl := hlatest trig hhead
    rw [hid]
    exact ⟨hnone, hl.only, fun hcell ↦ hl.pos (htype.symm.trans hcell)⟩
  · rwa [if_neg hother] at hbody

theorem pending_cause (hr : (agent S).Reachable s) (hs : (agent S).step s a = some s')
    (ht : task ∈ s.pending) (h : (task.addr, msg) ∈ g.causes ++ s.causes a) :
    (task.addr, msg) ∈ g.causes := by
  rcases List.mem_append.mp h with hold | hnew
  · exact hold
  · obtain ⟨new, _, _, _, _, _, haddr, hw⟩ := causes_step hs hnew
    have hfresh : new.addr ∉ s.w.accepted := accept_fresh (.step hr trivial hs) hw
    exact absurd (haddr ▸ pending_accepted hr ht) hfresh

theorem Caused.carries_step (h : Caused S s g) (hr : (agent S).Reach IdFree s)
    (hfree : IdFree s a) (hs : (agent S).step s a = some s') :
    ∀ task ∈ s'.pending, ∀ msg, (task.addr, msg) ∈ g.causes ++ s.causes a →
      Carries S.proto s'.w.trig.ts msg task := by
  intro task ht msg hcause
  have hm := Agent.step_move hs
  have hperf := (conduct hr.reachable).1
  have hr' : (agent S).Reachable s' := .step hr.reachable trivial hs
  rcases hm.pending hperf ht with ⟨t, ht, hsame⟩ | ⟨hq, hacc⟩
  · have hc := h.carries t ht msg (pending_cause hr.reachable hs ht (hsame.addr ▸ hcause))
    refine hc.same hsame fun htrig u hu hid ↦ ?_
    obtain ⟨hmsg, honly, _⟩ := hc.trig htrig
    rcases hm.triggers hperf with hshrink | ⟨trig, k, hadds, hpc, _, hw, _⟩
    · exact honly u (hshrink.ts.subset hu) hid
    · obtain ⟨_, hunused, _⟩ := hfree trig (adding_of_adds hadds hpc)
      rw [hw] at hu
      rcases List.mem_cons.mp hu with rfl | hu
      · have hhello : t.type ≠ .hello := hc.type ▸ (requestedTask_ne _ msg).2
        exact absurd hid.symm (hunused t ht hmsg hhello)
      · exact honly u hu hid
  · rcases List.mem_append.mp hcause with hold | hnew
    · exact absurd (h.known _ _ hold) (not_accepted_before hr' hacc)
    · obtain ⟨new, k, ans, rfl, hpc, hmsg, _, hw⟩ := causes_step hs hnew
      have hask := Asking.of_reach hr
      rw [hpc] at hask
      have hc : Carries S.proto s.w.trig.ts msg new := .queued hask hmsg
      rw [hw, hq.handed hpc]
      exact hc

theorem calls_step {addr : ℕ} {c : Callback} (h : (addr, c) ∈ s.calls a) :
    ∃ ans task now k, a = .sched ans ∧ addr = task.addr ∧
      s.sch = .perform task now (.call (.callback c) k) := by
  cases a with
  | sched ans =>
    simp only [Agent.calls, SchPc.calls] at h
    split at h
    · rename_i task now d k hpc
      cases List.mem_singleton.mp h
      exact ⟨ans, task, now, k, rfl, rfl, hpc⟩
    · cases h
  | _ => cases h

theorem Caused.answering_step (h : Caused S s g) (hr : (agent S).Reachable s)
    (hs : (agent S).step s a = some s') : Answering S (noteCalls s a s' g) s'.sch := by
  have hkeep {pc : SchPc} (hpc : s.sch = pc) : Answering S (noteCalls s a s' g) pc := by
    have ha := h.answering
    rw [hpc] at ha
    cases pc with
    | perform task now p =>
      obtain ⟨t, hobeys, hfound⟩ := ha
      have ht : task ∈ s.pending := performed_pending hpc
      exact ⟨t, hobeys, fun trig htrig msg hcause ↦
        hfound trig htrig msg (pending_cause hr hs ht hcause)⟩
    | _ => trivial
  cases Agent.step_move hs with
  | sched _ hm =>
    generalize hpc : s.sch = pc at hm
    cases hm with
    | clock => exact ⟨.init, schedPerformJob_obeys _, nofun⟩
    | @op _ _ task now o k r he =>
      obtain ⟨t, hobeys, hfound⟩ := hkeep hpc
      refine ⟨_, hobeys.2 r, ?_⟩
      cases o with
      | trigFindById id =>
        cases he
        intro trig hfind msg hcause htrig
        have hfind : s.w.trig.trigFindById id = some trig := hfind
        have hid : trig.id = task.trig := by
          rw [← allowed_find hobeys.1]
          simpa using List.find?_some hfind
        have ht : task ∈ s.pending := performed_pending hpc
        have hc := h.carries task ht msg (pending_cause hr hs ht hcause)
        exact (hc.trig htrig).2.1 trig (List.mem_of_find?_eq_some hfind) hid
      | _ => exact hfound
    | _ => trivial
  | release hm => cases hm <;> exact hkeep rfl
  | _ => exact hkeep rfl

theorem Caused.attributed_step (h : Caused S s g) (hr : (agent S).Reachable s)
    (hs : (agent S).step s a = some s') {addr : ℕ} {c : Callback}
    (hcause : (addr, msg) ∈ g.causes ++ s.causes a) (hcall : (addr, c) ∈ g.calls ++ s.calls a) :
    Attributed S.proto msg c := by
  rcases List.mem_append.mp hcause with hold | hnew
  · rcases List.mem_append.mp hcall with hcall | hcall
    · exact h.attributed addr msg c hold hcall
    · obtain ⟨ans, task, now, k, rfl, rfl, hpc⟩ := calls_step hcall
      have ht : task ∈ s.pending := performed_pending hpc
      have ha := h.answering
      rw [hpc] at ha
      obtain ⟨t, hobeys, hfound⟩ := ha
      obtain ⟨m, hm, hmodule⟩ := allowed_call hobeys.1
      have hiff := (h.carries task ht msg hold).module
        (fun htrig trig ht ↦ hfound trig ht msg hold htrig) hmodule
      rw [Attributed, hm, Option.some_inj]
      exact hiff
  · obtain ⟨new, _, ans, rfl, _, _, rfl, hw⟩ := causes_step hs hnew
    have hfresh := accept_fresh (.step hr trivial hs) hw
    rcases List.mem_append.mp hcall with hcall | hcall
    · exact absurd (h.called _ _ hcall) hfresh
    · cases hcall

theorem Caused.of_reach {p : Agent × CallLog}
    (h : (callAgent S).Reach (fun p a ↦ IdFree p.1 a) p) : Caused S p.1 p.2 := by
  refine h.watched (I := Caused S) IdFree (fun _ _ ↦ id) ?_ ?_
  · have hnil {α : Type} {x : α} {p : Prop} (h : x ∈ []) : p := absurd h List.not_mem_nil
    exact ⟨fun _ _ ↦ hnil, fun _ _ ↦ hnil, fun _ ↦ hnil, trivial, fun _ _ _ ↦ hnil⟩
  intro s g a s' hr hI hfree hs
  have hgrow := (Agent.step_move hs).accepted_subset (conduct hr.reachable).1
  refine ⟨?_, ?_, ?_, ?_, ?_⟩
  · intro addr msg hcause
    rcases List.mem_append.mp hcause with hold | hnew
    · exact hgrow (hI.known addr msg hold)
    · obtain ⟨new, _, _, _, _, _, rfl, hw⟩ := causes_step hs hnew
      rw [hw, World.accepted_accept]
      exact List.mem_append_right _ (List.mem_singleton_self _)
  · intro addr c hcall
    rcases List.mem_append.mp hcall with hold | hnew
    · exact hgrow (hI.called addr c hold)
    · obtain ⟨_, task, _, _, _, rfl, hpc⟩ := calls_step hnew
      exact hgrow (pending_accepted hr.reachable (performed_pending hpc))
  · exact hI.carries_step hr hfree hs
  · exact hI.answering_step hr.reachable hs
  · exact fun addr msg c hcause hcall ↦ hI.attributed_step hr.reachable hs hcause hcall

/-- While the ids of triggers are unmistakable, a callback that comes of a
message names the module of the message, unless the message asks for UE
reports: there it does so for module 0 only. -/
theorem module_attributed {p : Agent × CallLog}
    (h : (callAgent S).Reach (fun p a ↦ IdFree p.1 a) p) (task : ℕ) (msg : Bytes) (c : Callback)
    (hcause : (task, msg) ∈ p.2.causes) (hcall : (task, c) ∈ p.2.calls) :
    c.mod = some (requester S.proto msg) ↔
      requestedTask S.proto msg ≠ .ueReport ∨ requester S.proto msg = 0 :=
  (Caused.of_reach h).attributed task msg c hcause hcall

def answerRun (request : Bytes) : List Act :=
  Sample.connect 3 ++ Sample.receive request :: Sample.requestReport.tail ++
    Sample.performSend 6 ++ .sched .tick :: .sched (.time (Sample.after 2000)) ::
      List.replicate 5 (.sched .tick)

def cellRequest : Bytes := [0, 6, 2, 2, 1, 7]

theorem module_attributed_cell : ∃ p, (callAgent Sample.setup).Reach (fun p a ↦ IdFree p.1 a) p ∧
    (3, cellRequest) ∈ p.2.causes ∧ (3, .cellMeasure 0 7 0 1) ∈ p.2.calls ∧
    (Callback.cellMeasure 0 7 0 1).mod = some (requester Sample.proto cellRequest) := by
  have hr := (callAgent Sample.setup).reach_get (fun p a ↦ IdFree p.1 a) (answerRun cellRequest)
    (by decide +kernel)
  exact ⟨_, hr, by decide +kernel, by decide +kernel,
    (module_attributed hr 3 cellRequest (.cellMeasure 0 7 0 1) (by decide +kernel)
      (by decide +kernel)).mpr (.inl (by decide))⟩

def reportRequest : Bytes := [0, 6, 2, 0, 1, 7]

theorem report_module_lost : ¬ ∀ p, (callAgent Sample.setup).Reachable p → ∀ task msg c,
    (task, msg) ∈ p.2.causes → (task, c) ∈ p.2.calls →
      c.mod = some (requester Sample.proto msg) := by
  intro h
  have hr := (callAgent Sample.setup).reach_get (fun _ _ ↦ True) (answerRun reportRequest)
    (by decide +kernel)
  have hmod := h _ hr 3 reportRequest (.ueReport 0 1) (by decide +kernel) (by decide +kernel)
  revert hmod
  decide

end Runs

end EmpowerAgent
