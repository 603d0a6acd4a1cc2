import EmpowerAgent.Sched

namespace EmpowerAgent

open Library.Proc (Protocol Obeys)
open Proc Emproto

def Callback.mod : Callback → Option UInt32
  | .disconnected => none
  | .enbSetupRequest mod | .ueReport mod _ | .ueMeasure mod _ _ | .handoverUE mod _ _
  | .cellMeasure _ mod _ _ | .setupRequest mod | .sliceRequest mod _ | .sliceAdd mod _ _
  | .sliceRem mod _ | .sliceConf mod _ _ => some mod

/-- How far a job has come with the one message that it may send. -/
inductive SendPhase
  | before
  | taken (seq : UInt32)
  | after (failed : Bool)
  deriving DecidableEq, Repr

/-- What a job has done so far: the trigger it found, if it has searched for
one, the callbacks it made, and its sending. -/
structure JobPhase where
  searched : Bool
  found : Option Emtri
  calls : List Callback
  send : SendPhase

def JobPhase.init : JobPhase := ⟨false, none, [], .before⟩

variable (S : Setup) (task : Emtask)

/-- The module that a job passes to the wrapper, by the way it gets there:
from the task, from the trigger, or from the header of the message. -/
def jobModule (found : Option Emtri) : Option UInt32 :=
  match task.type with
  | .ueReport => some task.mod
  | .ueMeasure => found.map (·.mod)
  | .cellMeasure =>
    if 0 < task.trig then found.map (·.mod) else some (S.proto.eppHead task.bytes).out.mod
  | .enbSetup | .ho | .ranSetup | .ranSlice => some (S.proto.eppHead task.bytes).out.mod
  | .send | .hello | .invalid => none

def measureCalls (E : Emproto) : Option Emtri → List Callback
  | none => []
  | some trig =>
    let m := E.eppTriggerUemeasReq trig.msg
    if m.ok then
      (List.range m.out.nofRrc.toNat).reverse.map fun i ↦ .ueMeasure trig.mod trig.id (m.out.rrc i)
    else []

/-- How the scheduler performs a task: it changes no list, reads the trigger
that it has found under the id of the task and no other, passes on one module,
and sends one message at most, as soon as it has taken the number for it. -/
def jobProtocol : Protocol Op Op.Res JobPhase where
  allowed t o := match t.send, o with
    | .before, .trigFindById id => id = task.trig
    | .before, .useTrig trig => t.found = some trig
    | .before, .callback c => ∃ m, c.mod = some m ∧ jobModule S task t.found = some m
    | .before, .netNextSeq | .before, .emlog _ => True
    | .taken n, .netSend msg => ∃ m, msg = S.proto.epfSeq m n ∧ m.length ≤ emBufSize ∧
        (task.type = .send → m = task.bytes)
    | _, _ => False
  next t o r := match o, r with
    | .trigFindById _, r => { t with searched := true, found := r }
    | .callback c, _ => { t with calls := t.calls ++ [c] }
    | .netNextSeq, n => { t with send := .taken n }
    | .netSend _, n => { t with send := .after (decide (n < (0 : ℤ))) }
    | _, _ => t

/-- A job that has taken a number has sent with it; a failed send, and nothing
else, is a network error; a job put off has done nothing, and one to be done
again has a credit; a measurement job has made all its calls. -/
structure JobPost (t : JobPhase) (op : Outcome) : Prop where
  sent : ∀ n, t.send ≠ .taken n
  failed : op = .netError ↔ t.send = .after true
  later : op = .notElapsed → t = .init
  again : op = .reschedule → task.resch ≠ 0
  measured : task.type = .ueMeasure → S.ops.ueMeasure = true → op ≠ .notElapsed →
    t.searched = true ∧ t.calls = measureCalls S.proto t.found

section Allowed

variable {S task} {t : JobPhase}

theorem JobPhase.send_before {o : Op} (h : (jobProtocol S task).allowed t o)
    (ho : ∀ msg, o ≠ .netSend msg) : t.send = .before := by
  rcases t with ⟨_, _, _, send⟩
  cases send with
  | before => rfl
  | taken n =>
    cases o with
    | netSend msg => exact absurd rfl (ho msg)
    | _ => cases h
  | after failed => cases h

theorem JobPhase.send_taken {msg : Bytes} (h : (jobProtocol S task).allowed t (.netSend msg)) :
    ∃ n m, t.send = .taken n ∧ msg = S.proto.epfSeq m n ∧ m.length ≤ emBufSize ∧
      (task.type = .send → m = task.bytes) := by
  rcases t with ⟨_, _, _, send⟩
  cases send with
  | taken n =>
    obtain ⟨m, hm⟩ := h
    exact ⟨n, m, rfl, hm⟩
  | _ => cases h

theorem allowed_find {id : Int32} (h : (jobProtocol S task).allowed t (.trigFindById id)) :
    id = task.trig := by
  have hsend := JobPhase.send_before h nofun
  simpa only [jobProtocol, hsend] using h

theorem allowed_read {trig : Emtri} (h : (jobProtocol S task).allowed t (.useTrig trig)) :
    t.found = some trig := by
  have hsend := JobPhase.send_before h nofun
  simpa only [jobProtocol, hsend] using h

theorem allowed_call {c : Callback} (h : (jobProtocol S task).allowed t (.callback c)) :
    ∃ m, c.mod = some m ∧ jobModule S task t.found = some m := by
  have hsend := JobPhase.send_before h nofun
  simpa only [jobProtocol, hsend] using h

theorem sends_of_taken {n : UInt32} {p : Proc Outcome} (hsend : t.send = .taken n)
    (h : Obeys (jobProtocol S task) (JobPost S task) t p) :
    ∃ msg k, p = .call (.netSend msg) k := by
  cases p with
  | pure op => exact absurd hsend (h.sent n)
  | call o k =>
    cases o with
    | netSend msg => exact ⟨msg, k, rfl⟩
    | _ => cases hsend.symm.trans (JobPhase.send_before h.1 nofun)

theorem allowed_op {o : Op} (h : (jobProtocol S task).allowed t o) : match o with
    | .trigFindById _ | .useTrig _ | .callback _ | .netNextSeq | .netSend _ | .emlog _ => True
    | _ => False := by
  rcases t with ⟨_, _, _, send⟩
  cases send <;> cases o <;> trivial

end Allowed

section Procedures

variable {S task} {t : JobPhase}

theorem consumed_obeys (hsend : t.send = .before) (htype : task.type ≠ .ueMeasure) :
    Obeys (jobProtocol S task) (JobPost S task) t (return Outcome.consumed) where
  sent n := by simp [hsend]
  failed := by simp [hsend]
  later := nofun
  again := nofun
  measured h := absurd h htype

theorem callback_obeys {c : Callback} {m : UInt32} (hc : c.mod = some m)
    (hm : jobModule S task t.found = some m) (hsend : t.send = .before)
    (htype : task.type ≠ .ueMeasure) :
    Obeys (jobProtocol S task) (JobPost S task) t (do callback c; return Outcome.consumed) := by
  refine ⟨?_, fun _ ↦ consumed_obeys hsend htype⟩
  simp only [jobProtocol, hsend]
  exact ⟨m, hc, hm⟩

theorem schedSendMsg_obeys (htype : task.type ≠ .ueMeasure) {msg : Bytes}
    (hmsg : task.type = .send → msg = task.bytes) :
    Obeys (jobProtocol S task) (JobPost S task) .init (schedSendMsg S msg) := by
  unfold schedSendMsg
  split_ifs with hlong
  · exact ⟨trivial, fun _ ↦ consumed_obeys rfl htype⟩
  · have hfits : msg.length ≤ emBufSize := Nat.le_of_not_lt hlong
    refine ⟨trivial, fun seq ↦ ⟨⟨msg, rfl, hfits, hmsg⟩, fun n ↦ ⟨nofun, ?_, ?_, ?_, ?_⟩⟩⟩
    · by_cases hn : n < (0 : ℤ) <;> simp [jobProtocol, hn]
    · split_ifs <;> exact nofun
    · split_ifs <;> exact nofun
    · exact fun h ↦ absurd h htype

theorem schedPerformUeReport_obeys (h : task.type = .ueReport) :
    Obeys (jobProtocol S task) (JobPost S task) .init (schedPerformUeReport S task) := by
  have htype : task.type ≠ .ueMeasure := by simp [h]
  unfold schedPerformUeReport
  split_ifs
  · exact callback_obeys rfl (by simp only [jobModule, h]) rfl htype
  · exact consumed_obeys rfl htype

theorem schedPerformHello_obeys (h : task.type = .hello) :
    Obeys (jobProtocol S task) (JobPost S task) .init (schedPerformHello S task) := by
  have htype : task.type ≠ .ueMeasure := by simp [h]
  unfold schedPerformHello
  split
  · exact ⟨trivial, fun _ ↦ consumed_obeys rfl htype⟩
  · exact schedSendMsg_obeys htype (by simp [h])

theorem schedPerformCellMeas_obeys (h : task.type = .cellMeasure) :
    Obeys (jobProtocol S task) (JobPost S task) .init (schedPerformCellMeas S task) := by
  have htype : task.type ≠ .ueMeasure := by simp [h]
  unfold schedPerformCellMeas
  split_ifs with hop htrig
  · refine ⟨rfl, fun r ↦ ?_⟩
    cases r with
    | none => exact consumed_obeys rfl htype
    | some trig =>
      refine ⟨rfl, fun _ ↦ ?_⟩
      dsimp only
      split_ifs
      · exact consumed_obeys rfl htype
      · exact ⟨rfl, fun _ ↦ consumed_obeys rfl htype⟩
      · refine ⟨rfl, fun _ ↦ ⟨rfl, fun _ ↦ callback_obeys rfl ?_ rfl htype⟩⟩
        simp only [jobModule, h, htrig, if_true]
        rfl
  · dsimp only
    split_ifs
    · exact consumed_obeys rfl htype
    · exact consumed_obeys rfl htype
    · exact callback_obeys rfl (by simp only [jobModule, h, htrig, if_false]) rfl htype
  · exact consumed_obeys rfl htype

theorem ueMeasureEach_obeys (h : task.type = .ueMeasure) (trig : Emtri)
    (rrc : ℕ → UeMeasurement) (n : ℕ) (hfound : t.found = some trig) (hsend : t.send = .before)
    (hsearched : t.searched = true)
    (hcalls : t.calls ++ (List.range n).reverse.map (fun i ↦ .ueMeasure trig.mod trig.id (rrc i)) =
      measureCalls S.proto (some trig)) :
    Obeys (jobProtocol S task) (JobPost S task) t (ueMeasureEach trig rrc n) := by
  induction n generalizing t with
  | zero =>
    refine ⟨by simp [hsend], by simp [hsend], nofun, nofun, fun _ _ _ ↦ ⟨hsearched, ?_⟩⟩
    rw [hfound, ← hcalls]
    simp
  | succ n ih =>
    refine ⟨?_, fun _ ↦ ⟨?_, fun _ ↦ ih hfound hsend hsearched ?_⟩⟩
    · simpa only [jobProtocol, hsend] using hfound
    · simp only [jobProtocol, hsend]
      exact ⟨trig.mod, rfl, by simp only [jobModule, h, hfound]; rfl⟩
    · rw [← hcalls, List.range_succ, List.reverse_append]
      simp [jobProtocol]

theorem schedPerformUeMeasure_obeys (h : task.type = .ueMeasure) :
    Obeys (jobProtocol S task) (JobPost S task) .init (schedPerformUeMeasure S task) := by
  unfold schedPerformUeMeasure
  split_ifs with hop
  · refine ⟨rfl, fun r ↦ ?_⟩
    cases r with
    | none =>
      refine ⟨trivial, fun _ ↦ ⟨nofun, ?_, nofun, nofun, fun _ _ _ ↦ ⟨rfl, rfl⟩⟩⟩
      simp [jobProtocol, JobPhase.init]
    | some trig =>
      refine ⟨rfl, fun _ ↦ ?_⟩
      dsimp only
      split_ifs with hok
      · refine ⟨nofun, by simp [jobProtocol, JobPhase.init], nofun, nofun, fun _ _ _ ↦ ⟨rfl, ?_⟩⟩
        simp only [Bool.not_eq_true'] at hok
        simp [measureCalls, hok, jobProtocol, JobPhase.init]
      · apply ueMeasureEach_obeys h _ _ _ rfl rfl rfl
        simp only [Bool.not_eq_true', Bool.not_eq_false] at hok
        simp [measureCalls, hok, jobProtocol, JobPhase.init]
  · exact ⟨nofun, by simp [JobPhase.init], nofun, nofun, fun _ hdef ↦ absurd hdef hop⟩

theorem schedPerform_obeys :
    Obeys (jobProtocol S task) (JobPost S task) .init (schedPerform S task) := by
  cases htype : task.type with
  | enbSetup | ho | ranSetup | ranSlice =>
    have hne : task.type ≠ .ueMeasure := by simp [htype]
    refine schedPerform_request (by simp [htype]) (consumed_obeys rfl hne) fun c hc ↦ ?_
    refine callback_obeys (m := (S.proto.eppHead task.bytes).out.mod) ?_ ?_ rfl hne
    · cases hc <;> rfl
    · simp only [jobModule, htype]
  | send =>
    simp only [schedPerform, htype]
    exact schedSendMsg_obeys (by simp [htype]) fun _ ↦ rfl
  | hello =>
    simp only [schedPerform, htype]
    exact schedPerformHello_obeys htype
  | ueReport =>
    simp only [schedPerform, htype]
    exact schedPerformUeReport_obeys htype
  | ueMeasure =>
    simp only [schedPerform, htype]
    exact schedPerformUeMeasure_obeys htype
  | cellMeasure =>
    simp only [schedPerform, htype]
    exact schedPerformCellMeas_obeys htype
  | invalid =>
    simp only [schedPerform, htype]
    exact consumed_obeys rfl (by simp [htype])

theorem schedPerformJob_obeys (now : Timespec) :
    Obeys (jobProtocol S task) (JobPost S task) .init (schedPerformJob S task now) := by
  unfold schedPerformJob
  split_ifs
  · exact ⟨by simp [JobPhase.init], by simp [JobPhase.init], fun _ ↦ rfl, by simp,
      fun _ _ hop ↦ absurd rfl hop⟩
  · refine schedPerform_obeys.bind fun t op h ↦ ?_
    simp only [Library.Proc.obeys_ret]
    split_ifs with hresch
    · refine ⟨h.sent, ?_, by simp, fun _ ↦ hresch.2, fun htype hdef _ ↦ h.measured htype hdef ?_⟩
      · rw [← h.failed, hresch.1]
        simp
      · simp [hresch.1]
    · exact h

end Procedures

end EmpowerAgent
