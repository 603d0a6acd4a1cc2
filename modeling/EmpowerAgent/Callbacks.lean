import EmpowerAgent.Attribution
import EmpowerAgent.TriggerUse

namespace EmpowerAgent

open Library.Proc (Protocol Obeys)
open Proc Emproto

def Callback.trigId : Callback → Option Int32
  | .ueReport _ id | .ueMeasure _ id _ => some id
  | .cellMeasure _ _ _ id => if 0 < id then some id else none
  | _ => none

namespace Emtask

def triggered (task : Emtask) : Bool :=
  match task.type with
  | .ueReport | .ueMeasure => true
  | .cellMeasure => task.msg.isNone
  | _ => false

def due (task : Emtask) (now : Timespec) : Bool := task.elapse ≤ tsDiffToMs task.issued now

/-- A task for a trigger that calls the wrapper without a look at the trigger.
For a cell measurement this takes an id that is not positive, and decoders
that accept the message that the task does not have. -/
def unchecked (S : Setup) (task : Emtask) : Bool :=
  match task.type with
  | .ueReport => S.ops.ueReport
  | .cellMeasure => S.ops.cellMeasure && task.msg.isNone && task.trig ≤ 0 &&
      (S.proto.eppHead []).ok && (S.proto.eppSchedCellMeasReq []).ok
  | _ => false

end Emtask

def World.liveIds (w : World) : List Int32 := w.trig.ts.map (·.id)

/-- What an observer notes while a task is performed: the ids of the triggers
that were live at some moment since it began, and the calls made. -/
structure Observed where
  seen : List Int32
  calls : List Callback

def observe (s : Agent) (a : Act) (s' : Agent) (g : Observed) : Observed :=
  match s.sch, s'.sch with
  | .perform _ _ _, .perform _ _ _ =>
    ⟨g.seen ++ s'.w.liveIds, g.calls ++ (s.calls a).map Prod.snd⟩
  | _, .perform _ _ _ => ⟨s'.w.liveIds, []⟩
  | _, _ => g

def observedAgent (S : Setup) : Library.Machine (Agent × Observed) Act :=
  (agent S).watch ⟨[], []⟩ observe

def Agent.begins (s : Agent) : Act → Option Emtask
  | .sched (.time now) => match s.sch with
    | .clock task => if task.due now then some task else none
    | _ => none
  | _ => none

/-- A task that calls without a look at its trigger is found due only while
the trigger is live. -/
def FindsLive (S : Setup) (s : Agent) (a : Act) : Prop :=
  ∀ task ∈ s.begins a, task.unchecked S = true → (s.w.trig.trigFindById task.trig).isSome = true

instance (S : Setup) (s : Agent) (a : Act) : Decidable (FindsLive S s a) :=
  Option.decidableForallMem (s.begins a)

/-- The wrapper is called for a trigger only if the trigger was live since the
task began, and a task whose trigger was not is consumed without a call. -/
structure CallsLive (s : Agent) (g : Observed) : Prop where
  starts : ∀ addr c, (addr, c) ∈ s.sch.calls → ∀ id ∈ c.trigId, id ∈ g.seen
  gone : ∀ task now op, s.sch = .settle task now op → task.triggered = true →
    task.trig ∉ g.seen → g.calls = [] ∧ (op = .consumed ∨ op = .notElapsed)

section Procedures

/-- How a task calls back: when it is due, for the trigger that it has found,
or for the one that it is queued for if it does not search. -/
def liveProtocol (S : Setup) (task : Emtask) (now : Timespec) :
    Protocol Op Op.Res (Option Emtri) where
  allowed found o := match o with
    | .trigFindById id => id = task.trig
    | .callback c => task.due now = true ∧
        (∀ id ∈ c.trigId, id = (found.map (·.id)).getD task.trig) ∧
        (found = none → c.trigId ≠ none ∨ task.triggered = true → task.unchecked S = true)
    | _ => True
  next found o r := match o, r with
    | .trigFindById _, r => r
    | _, _ => found

structure LivePost (task : Emtask) (op : Outcome) : Prop where
  sends : op = .netError → task.triggered = false
  again : op = .reschedule → task.resch ≠ 0

abbrev CallsBack (S : Setup) (task : Emtask) (now : Timespec) (found : Option Emtri)
    (p : Proc Outcome) : Prop :=
  Obeys (liveProtocol S task now) (fun _ op ↦ LivePost task op) found p

variable {S : Setup} {task : Emtask} {now : Timespec} {found : Option Emtri}

theorem consumed_live : CallsBack S task now found (return .consumed) := by
  constructor <;> simp

theorem callback_live {c : Callback} (hdue : task.due now = true) (hc : c.trigId = none)
    (ht : task.triggered = false) :
    CallsBack S task now found (do callback c; return .consumed) := by
  refine ⟨⟨hdue, ?_, ?_⟩, fun _ ↦ consumed_live⟩
  · rw [hc]
    exact nofun
  · rintro _ (h | h)
    · exact absurd hc h
    · cases ht.symm.trans h

theorem schedSendMsg_live (ht : task.triggered = false) (msg : Bytes) :
    CallsBack S task now found (schedSendMsg S msg) := by
  unfold schedSendMsg
  split_ifs
  · exact ⟨trivial, fun _ ↦ consumed_live⟩
  · refine ⟨trivial, fun seq ↦ ⟨trivial, fun n ↦ ⟨fun _ ↦ ht, ?_⟩⟩⟩
    split_ifs <;> exact nofun

theorem schedPerformHello_live (ht : task.triggered = false) :
    CallsBack S task now found (schedPerformHello S task) := by
  unfold schedPerformHello
  split
  · exact ⟨trivial, fun _ ↦ consumed_live⟩
  · exact schedSendMsg_live ht _

theorem schedPerformUeReport_live (hdue : task.due now = true) (htype : task.type = .ueReport) :
    CallsBack S task now none (schedPerformUeReport S task) := by
  unfold schedPerformUeReport
  split_ifs with hop
  · refine ⟨⟨hdue, ?_, fun _ _ ↦ ?_⟩, fun _ ↦ consumed_live⟩
    · rintro id ⟨⟩
      rfl
    · simp only [Emtask.unchecked, htype, hop]
  · exact consumed_live

theorem found_call {trig : Emtri} {c : Callback} (hdue : task.due now = true)
    (hc : ∀ id ∈ c.trigId, id = trig.id) :
    (liveProtocol S task now).allowed (some trig) (.callback c) := ⟨hdue, hc, nofun⟩

theorem ueMeasureEach_live (hdue : task.due now = true) (trig : Emtri) (rrc : ℕ → UeMeasurement)
    (n : ℕ) : CallsBack S task now (some trig) (ueMeasureEach trig rrc n) := by
  induction n with
  | zero => exact consumed_live
  | succ n ih =>
    refine ⟨trivial, fun _ ↦ ⟨found_call hdue ?_, fun _ ↦ ih⟩⟩
    rintro id ⟨⟩
    rfl

theorem schedPerformUeMeasure_live (hdue : task.due now = true) :
    CallsBack S task now found (schedPerformUeMeasure S task) := by
  unfold schedPerformUeMeasure
  split_ifs
  · refine ⟨rfl, fun r ↦ ?_⟩
    cases r with
    | none => exact ⟨trivial, fun _ ↦ consumed_live⟩
    | some trig =>
      refine ⟨trivial, fun _ ↦ ?_⟩
      dsimp only
      split_ifs
      · exact consumed_live
      · exact ueMeasureEach_live hdue _ _ _
  · exact consumed_live

theorem schedPerformCellMeas_live (hdue : task.due now = true) (htype : task.type = .cellMeasure) :
    CallsBack S task now none (schedPerformCellMeas S task) := by
  unfold schedPerformCellMeas
  split_ifs with hop htrig
  · refine ⟨rfl, fun r ↦ ?_⟩
    cases r with
    | none => exact consumed_live
    | some trig =>
      refine ⟨trivial, fun _ ↦ ?_⟩
      dsimp only
      split_ifs
      · exact consumed_live
      · exact ⟨trivial, fun _ ↦ consumed_live⟩
      · refine ⟨trivial, fun _ ↦ ⟨trivial, fun _ ↦ ⟨found_call hdue ?_, fun _ ↦ consumed_live⟩⟩⟩
        intro id hid
        simp only [Callback.trigId] at hid
        split_ifs at hid
        · exact (Option.some.inj hid).symm
        · cases hid
  · dsimp only
    split_ifs with hhead hreq
    · exact consumed_live
    · exact consumed_live
    · refine ⟨⟨hdue, nofun, fun _ hfor ↦ ?_⟩, fun _ ↦ consumed_live⟩
      -- without a message of its own the task hands the decoders a null one
      rcases hfor with hfor | hfor
      · exact absurd rfl hfor
      · have hnone : task.msg = none := by
          simpa only [Emtask.triggered, htype, Option.isNone_iff_eq_none] using hfor
        simp only [Emtask.bytes, hnone, Option.getD_none, Bool.not_eq_true', Bool.not_eq_false]
          at hhead hreq
        have hle : task.trig ≤ 0 := Int32.not_lt.mp htrig
        simp [Emtask.unchecked, htype, hop, hnone, hle, hhead, hreq]
  · exact consumed_live

theorem schedPerform_live (hdue : task.due now = true) :
    CallsBack S task now none (schedPerform S task) := by
  cases htype : task.type with
  | enbSetup | ho | ranSetup | ranSlice =>
    have ht : task.triggered = false := by simp only [Emtask.triggered, htype]
    refine schedPerform_request (by simp [htype]) consumed_live fun c hc ↦ ?_
    refine callback_live hdue ?_ ht
    cases hc <;> rfl
  | send =>
    simp only [schedPerform, htype]
    exact schedSendMsg_live (by simp only [Emtask.triggered, htype]) _
  | hello =>
    simp only [schedPerform, htype]
    exact schedPerformHello_live (by simp only [Emtask.triggered, htype])
  | ueReport =>
    simp only [schedPerform, htype]
    exact schedPerformUeReport_live hdue htype
  | ueMeasure =>
    simp only [schedPerform, htype]
    exact schedPerformUeMeasure_live hdue
  | cellMeasure =>
    simp only [schedPerform, htype]
    exact schedPerformCellMeas_live hdue htype
  | invalid =>
    simp only [schedPerform, htype]
    exact consumed_live

theorem schedPerformJob_live (task : Emtask) (now : Timespec) :
    CallsBack S task now none (schedPerformJob S task now) := by
  unfold schedPerformJob
  split_ifs with hearly
  · constructor <;> simp
  · have hdue : task.due now = true := decide_eq_true (by omega)
    refine (schedPerform_live hdue).bind fun found op h ↦ ?_
    simp only [Library.Proc.obeys_ret]
    split_ifs with hresch
    · exact ⟨by simp, fun _ ↦ hresch.2⟩
    · exact h

end Procedures

section Runs

variable {S : Setup} {s s' : Agent} {a : Act} {g : Observed}

theorem triggered_once (h : (agent S).Reachable s) :
    ∀ task ∈ s.pending, task.triggered = true → task.resch = 0 := by
  refine pending_induction (I := fun _ task ↦ task.triggered = true → task.resch = 0) ?_ ?_ h
  · intro s a task hr hq ht
    cases hq with
    | hello => cases ht
    | emSend => rfl
    | handler hpc =>
      have hserve := Serving.of_reachable hr
      rw [hpc] at hserve
      obtain ⟨msg, t, hp⟩ := hserve
      obtain ⟨_, htype, hbody⟩ := hp.obeys.1
      by_cases htrig : S.proto.eppMsgType msg = .trigger
      · rw [if_pos htrig] at hbody
        exact hbody.2.1
      · rw [if_neg htrig] at hbody
        obtain ⟨hreport, hmeasure⟩ := requestedTask_of_other htrig
        rw [← htype] at hreport hmeasure
        unfold Emtask.triggered at ht
        split at ht
        · exact absurd ‹_› hreport
        · exact absurd ‹_› hmeasure
        · simp [hbody.1] at ht
        · cases ht
  · intro s a s' t task _ _ hsame hI ht
    refine hsame.resch (hI ?_)
    rwa [Emtask.triggered, ← hsame.type, ← hsame.msg]

structure Watched (S : Setup) (g : Observed) (task : Emtask) (now : Timespec)
    (found : Option Emtri) (p : Proc Outcome) : Prop where
  calls : CallsBack S task now found p
  found : ∀ trig, found = some trig → trig.id = task.trig ∧ task.trig ∈ g.seen
  late : task.due now = true → task.unchecked S = true → task.trig ∈ g.seen
  called : g.calls ≠ [] → task.triggered = true → task.trig ∈ g.seen

def Watches (S : Setup) (g : Observed) : SchPc → Prop
  | .perform task now p => ∃ found, Watched S g task now found p
  | .settle task _ op => LivePost task op ∧
      (g.calls ≠ [] → task.triggered = true → task.trig ∈ g.seen)
  | _ => True

theorem find_live {w : World} {id : Int32} {trig : Emtri} (h : w.trig.trigFindById id = some trig) :
    trig.id = id ∧ id ∈ w.liveIds := by
  have hid : trig.id = id := by simpa using List.find?_some h
  refine ⟨hid, ?_⟩
  rw [← hid]
  exact List.mem_map_of_mem (List.mem_of_find?_eq_some h)

theorem Watched.start {w : World} {task : Emtask} {now : Timespec}
    (hlive : task.due now = true → task.unchecked S = true →
      (w.trig.trigFindById task.trig).isSome = true) :
    Watched S ⟨w.liveIds, []⟩ task now none (schedPerformJob S task now) where
  calls := schedPerformJob_live task now
  found := nofun
  late hdue hun := by
    obtain ⟨trig, hfind⟩ := Option.isSome_iff_exists.mp (hlive hdue hun)
    exact (find_live hfind).2
  called h := absurd rfl h

theorem Watched.callback {task : Emtask} {now : Timespec} {found : Option Emtri}
    {c : Callback} {k : Unit → Proc Outcome}
    (h : Watched S g task now found (.call (.callback c) k)) :
    (∀ id ∈ c.trigId, id ∈ g.seen) ∧ (task.triggered = true → task.trig ∈ g.seen) := by
  obtain ⟨hdue, hid, hnone⟩ := h.calls.1
  cases found with
  | some trig =>
    obtain ⟨htrig, hseen⟩ := h.found trig rfl
    refine ⟨fun id hmem ↦ ?_, fun _ ↦ hseen⟩
    have heq : id = trig.id := hid id hmem
    rwa [heq, htrig]
  | none =>
    refine ⟨fun id hmem ↦ ?_, fun ht ↦ h.late hdue (hnone rfl (.inr ht))⟩
    have heq : id = task.trig := hid id hmem
    have hne : c.trigId ≠ none := Option.isSome_iff_ne_none.mp (Option.isSome_of_mem hmem)
    rw [heq]
    exact h.late hdue (hnone rfl (.inl hne))

theorem Watched.frame {w' : World} {task : Emtask} {now : Timespec} {found : Option Emtri}
    {p : Proc Outcome} (h : Watched S g task now found p) :
    Watched S ⟨g.seen ++ w'.liveIds, g.calls⟩ task now found p where
  calls := h.calls
  found trig ht := ⟨(h.found trig ht).1, List.mem_append_left _ (h.found trig ht).2⟩
  late hdue hun := List.mem_append_left _ (h.late hdue hun)
  called hcalls ht := List.mem_append_left _ (h.called hcalls ht)

def Op.calls : Op → List Callback
  | .callback c => [c]
  | _ => []

theorem Watched.step {w w' : World} {task : Emtask} {now : Timespec} {found : Option Emtri}
    {o : Op} {k : o.Res → Proc Outcome} {r : o.Res}
    (h : Watched S g task now found (.call o k)) (he : Effect o w r w') :
    Watched S ⟨g.seen ++ w'.liveIds, g.calls ++ o.calls⟩ task now
      ((liveProtocol S task now).next found o r) (k r) where
  calls := h.calls.2 r
  found trig ht := by
    cases o with
    | trigFindById id =>
      cases he
      have hfind : w.trig.trigFindById id = some trig := ht
      obtain ⟨hid, hmem⟩ := find_live hfind
      obtain rfl : id = task.trig := h.calls.1
      exact ⟨hid, List.mem_append_right _ hmem⟩
    | _ => exact ⟨(h.found trig ht).1, List.mem_append_left _ (h.found trig ht).2⟩
  late hdue hun := List.mem_append_left _ (h.late hdue hun)
  called hcalls ht := by
    cases o with
    | callback c => exact List.mem_append_left _ (h.callback.2 ht)
    | _ =>
      simp only [Op.calls, List.append_nil] at hcalls
      exact List.mem_append_left _ (h.called hcalls ht)

theorem observe_perform {task task' : Emtask} {now now' : Timespec} {p p' : Proc Outcome}
    (h : s.sch = .perform task now p) (h' : s'.sch = .perform task' now' p') :
    observe s a s' g = ⟨g.seen ++ s'.w.liveIds, g.calls ++ (s.calls a).map Prod.snd⟩ := by
  simp only [observe, h, h']

theorem observe_keep (h : ∀ task now p, s'.sch ≠ .perform task now p) :
    observe s a s' g = g := by
  unfold observe
  split
  · exact absurd ‹_› (h _ _ _)
  · exact absurd ‹_› (h _ _ _)
  · rfl

theorem calls_op {task : Emtask} {now : Timespec} {o : Op} {k : o.Res → Proc Outcome} {ans : Ans}
    (h : s.sch = .perform task now (.call o k)) :
    (s.calls (.sched ans)).map Prod.snd = o.calls := by
  simp only [Agent.calls, SchPc.calls, h]
  cases o <;> rfl

theorem Watches.aside (h : Watches S g s.sch) (hsch : s'.sch = s.sch)
    (hcalls : s.calls a = []) : Watches S (observe s a s' g) s'.sch := by
  rw [hsch]
  cases hpc : s.sch with
  | perform task now p =>
    rw [hpc] at h
    obtain ⟨found, hw⟩ := h
    rw [observe_perform hpc (hsch.trans hpc), hcalls, List.map_nil, List.append_nil]
    exact ⟨found, hw.frame⟩
  | settle task now op =>
    rw [hpc] at h
    rw [observe_keep (by simp [hsch, hpc])]
    exact h
  | _ => trivial

theorem Watches.sched {ans : Ans} (h : Watches S g s.sch) (hlive : FindsLive S s (.sched ans))
    (hs : (agent S).step s (.sched ans) = some s') :
    Watches S (observe s (.sched ans) s' g) s'.sch := by
  cases Agent.step_move hs with
  | sched hstep hm =>
    generalize hpc : s.sch = pc at hm h
    cases hm with
    | @clock _ task now =>
      have hans : ans = .time now := by
        rw [hpc] at hstep
        cases ans <;> cases hstep
        rfl
      subst hans
      rw [observe, hpc]
      refine ⟨none, .start fun hdue hun ↦ hlive task ?_ hun⟩
      simp [Agent.begins, hpc, hdue]
    | op he =>
      obtain ⟨found, hw⟩ := h
      rw [observe_perform hpc rfl, calls_op hpc]
      exact ⟨_, hw.step he⟩
    | returned =>
      obtain ⟨found, hw⟩ := h
      rw [observe_keep (by simp)]
      exact ⟨hw.calls, hw.called⟩
    | _ => trivial

theorem Watches.of_reach {p : Agent × Observed}
    (h : (observedAgent S).Reach (fun p a ↦ FindsLive S p.1 a) p) :
    Watches S p.2 p.1.sch := by
  refine h.watched (I := fun s g ↦ Watches S g s.sch) (FindsLive S) (fun _ _ ↦ id) ?_ ?_
  · trivial
  intro s g a s' _ hI hlive hs
  rcases Agent.sched_or hs with ⟨ans, _, _, rfl, _⟩ | ha
  · exact hI.sched hlive hs
  · have hcalls : s.calls a = [] := by
      cases a with
      | sched ans => exact absurd rfl (ha ans)
      | _ => rfl
    exact hI.aside ((Agent.step_move hs).unscheduled ha).1 hcalls

/-- Where no task that calls unasked is found due after its trigger has gone,
the wrapper hears only of triggers that were live meanwhile, and a task whose
trigger is gone is consumed without a call. -/
theorem callbacks_live {p : Agent × Observed}
    (h : (observedAgent S).Reach (fun p a ↦ FindsLive S p.1 a) p) : CallsLive p.1 p.2 := by
  have hw := Watches.of_reach h
  constructor
  · intro addr c hc
    cases hpc : p.1.sch with
    | perform task now q =>
      rw [hpc] at hw hc
      obtain ⟨found, hw⟩ := hw
      cases q with
      | pure op => cases hc
      | call o k =>
        cases o with
        | callback d =>
          cases List.mem_singleton.mp hc
          exact hw.callback.1
        | _ => cases hc
    | _ =>
      rw [hpc] at hc
      cases hc
  · intro task now op hpc ht hgone
    have hr : (agent S).Reachable p.1 := h.unwatch fun _ _ _ ↦ trivial
    have hheld : task ∈ p.1.sch.held := by
      rw [hpc]
      exact List.mem_singleton_self _
    have hpending : task ∈ p.1.pending := held_pending hheld
    have honce := triggered_once hr task hpending ht
    rw [hpc] at hw
    obtain ⟨hpost, hcalls⟩ := hw
    refine ⟨by_contra fun hne ↦ hgone (hcalls hne ht), ?_⟩
    cases op with
    | netError => cases ht.symm.trans (hpost.sends rfl)
    | reschedule => exact absurd honce (hpost.again rfl)
    | consumed => exact .inl rfl
    | notElapsed => exact .inr rfl

theorem unchecked_calls {task : Emtask} {now : Timespec} (hdue : task.due now = true)
    (hun : task.unchecked S = true) :
    ∃ c k, schedPerformJob S task now = .call (.callback c) k := by
  have hearly : ¬ tsDiffToMs task.issued now < task.elapse :=
    Int.not_lt.mpr (of_decide_eq_true hdue)
  rw [schedPerformJob, if_neg hearly, schedPerform]
  unfold Emtask.unchecked at hun
  split at hun
  · rename_i htype
    simp only [htype, schedPerformUeReport, hun, if_true]
    exact ⟨_, _, rfl⟩
  · rename_i htype
    simp only [Bool.and_eq_true, Option.isNone_iff_eq_none, decide_eq_true_eq] at hun
    obtain ⟨⟨⟨⟨hop, hmsg⟩, hle⟩, hhead⟩, hreq⟩ := hun
    have hbytes : task.bytes = [] := by rw [Emtask.bytes, hmsg, Option.getD_none]
    have hnot : ¬ 0 < task.trig := Int32.not_lt.mpr hle
    simp only [htype, schedPerformCellMeas, hop, hnot, hbytes, hhead, hreq, if_true, if_false]
    exact ⟨_, _, rfl⟩
  · cases hun

theorem begins_due {task : Emtask} (h : task ∈ s.begins a) :
    ∃ now, a = .sched (.time now) ∧ s.sch = .clock task ∧ task.due now = true := by
  unfold Agent.begins at h
  split at h
  · split at h
    · split_ifs at h with hdue
      · cases h
        exact ⟨_, rfl, ‹_›, hdue⟩
      · cases h
    · cases h
  · cases h

/-- The condition is exact: where a step does not meet it, the next thing that
the scheduler does is to call the wrapper, and the trigger was not live. -/
theorem found_late {p p' : Agent × Observed} (hlate : ¬ FindsLive S p.1 a)
    (hs : (observedAgent S).step p a = some p') :
    ∃ task now q, p'.1.sch = .perform task now q ∧ task.trig ∉ p'.2.seen ∧
      ∃ c, p'.1.sch.calls = [(task.addr, c)] := by
  obtain ⟨hstep, hnote⟩ := Library.Machine.watch_step hs
  simp only [FindsLive, not_forall] at hlate
  obtain ⟨task, hbegins, hun, hgone⟩ := hlate
  obtain ⟨now, rfl, hpc, hdue⟩ := begins_due hbegins
  obtain ⟨c, k, hjob⟩ := unchecked_calls hdue hun
  obtain ⟨⟨pc, w⟩, hmove, hp⟩ := Option.map_eq_some_iff.mp hstep
  rw [hpc] at hmove
  cases hmove
  have hsch : p'.1.sch = .perform task now (.call (.callback c) k) := by rw [← hp, ← hjob]
  have hseen : p'.2.seen = p.1.w.liveIds := by
    rw [hnote, observe, hpc, hsch, ← hp]
  refine ⟨task, now, _, hsch, ?_, c, by rw [hsch]; rfl⟩
  rw [hseen]
  intro hmem
  obtain ⟨t, ht, hid⟩ := List.mem_map.mp hmem
  refine hgone (List.find?_isSome.mpr ⟨t, ht, ?_⟩)
  simpa using hid

def findDue : List Act := [.sched .tick, .sched (.time (Sample.after 1))]

/-- The controller asks for cell measurements and then for UE reports, and the
wrapper deletes the first trigger before the tasks are found due. -/
def deleteFirstRun : List Act :=
  Sample.connect 3 ++ Sample.receive cellRequest :: Sample.requestReport.tail ++
    Sample.requestReport ++ [.api (.emDelTrigger 1) [.tick]] ++ skipHello ++ findDue ++
      [.sched .tick, .sched .tick, .sched .tick] ++ findDue

theorem callbacks_live_second : ∃ p, (observedAgent Sample.setup).Reach
    (fun p a ↦ FindsLive Sample.setup p.1 a) p ∧ p.1.sch.calls = [(6, .ueReport 0 2)] ∧
      (2 : Int32) ∈ p.2.seen := by
  have hr := (observedAgent Sample.setup).reach_get (fun p a ↦ FindsLive Sample.setup p.1 a)
    deleteFirstRun (by decide +kernel)
  refine ⟨_, hr, rfl, ?_⟩
  exact (callbacks_live hr).starts 6 (.ueReport 0 2) (List.mem_singleton_self _) 2 rfl

def deleteReportRun : List Act :=
  Sample.connect 3 ++ Sample.requestReport ++ [.api (.emDelTrigger 1) [.tick]] ++ skipHello ++
    findDue

theorem report_without_trigger : ¬ ∀ p, (observedAgent Sample.setup).Reachable p →
    CallsLive p.1 p.2 := by
  intro h
  have hr := (observedAgent Sample.setup).reach_get (fun _ _ ↦ True) deleteReportRun
    (by decide +kernel)
  have hseen := (h _ hr).starts 3 (.ueReport 0 1) (List.mem_singleton_self _) 1 rfl
  revert hseen
  decide +kernel

end Runs

end EmpowerAgent
