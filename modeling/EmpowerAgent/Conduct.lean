import EmpowerAgent.Steps
import EmpowerAgent.Jobs

namespace EmpowerAgent

open Library.Proc (Protocol Obeys)
open Proc Emproto

/-- How the procedures of the scheduler behave: they change no list, never
report a disconnection themselves, and tell of a network error only when a
send has failed, which is what the phase remembers. -/
def performProtocol : Protocol Op Op.Res Bool where
  allowed _ o := match o with
    | .trigFindById _ | .useTrig _ | .netNextSeq | .netSend _ | .emlog _ => True
    | .callback c => c ≠ .disconnected
    | _ => False
  next failed o r := match o, r with
    | .netSend _, n => failed || decide (n < (0 : ℤ))
    | _, _ => failed

def PerformPost (failed : Bool) (op : Outcome) : Prop := op = .netError → failed = true

/-- How the procedures of the network thread and of the callers behave: they
neither send nor call back, they add triggers only where `triggers` says so,
and what they queue or give back is their own, allocated and neither queued nor
given back before; a task that they queue is no Hello. -/
def queueProtocol (triggers : Bool) : Protocol Op Op.Res (List ℕ) where
  allowed own o := match o with
    | .free addr => addr ∈ own
    | .schedAddTask task => task.addr ∈ own ∧ task.type ≠ .hello
    | .trigAdd _ => triggers = true
    | .netNextSeq | .netSend _ | .callback _ => False
    | _ => True
  next own o r := match o, r with
    | .malloc, some addr => addr :: own
    | .free addr, _ => own.filter (· ≠ addr)
    | .schedAddTask task, _ => own.filter (· ≠ task.addr)
    | _, _ => own

def AnyPost {τ α : Type} (_ : τ) (_ : α) : Prop := True

section Performing

theorem schedPerformJob_performs (S : Setup) (task : Emtask) (now : Timespec) :
    Obeys performProtocol PerformPost false (schedPerformJob S task now) := by
  refine (schedPerformJob_obeys now : Obeys (jobProtocol S task) _ _ _).weaken
    (f := fun t ↦ decide (t.send = .after true)) ?_ ?_ ?_
  · intro t o h
    have hop := allowed_op h
    cases o with
    | callback c =>
      obtain ⟨m, hc, _⟩ := allowed_call h
      intro hd
      rw [hd] at hc
      cases hc
    | malloc | free | clockGettime | schedAddTask | trigAdd | trigDelById | trigDelByInst =>
      cases hop
    | _ => trivial
  · intro t o r h
    cases o with
    | netSend msg =>
      obtain ⟨n, _, hsend, _⟩ := JobPhase.send_taken h
      simp [jobProtocol, performProtocol, hsend]
    | netNextSeq =>
      have hsend := JobPhase.send_before h (by simp)
      simp [jobProtocol, performProtocol, hsend]
    | _ => rfl
  · intro t op h hop
    exact decide_eq_true (h.failed.mp hop)

end Performing

section Queueing

variable (E : Emproto) (own : List ℕ) {triggers : Bool}

def AllocPost (type : TaskType) (own : List ℕ) (r : Option Emtask) : Prop :=
  ∀ t, r = some t → t.addr ∈ own ∧ t.type = type

theorem taskAlloc_obeys (type : TaskType) (interval res : ℤ) (trigger : Int32)
    (msg : Option Bytes) : Obeys (queueProtocol triggers) (AllocPost type) own
      (taskAlloc type interval res trigger msg) := by
  refine ⟨trivial, fun addr ↦ ?_⟩
  cases addr with
  | none => exact fun _ ↦ nofun
  | some addr =>
    cases msg with
    | none =>
      rintro t ⟨⟩
      exact ⟨List.mem_cons_self .., rfl⟩
    | some m =>
      refine ⟨trivial, fun buf ↦ ?_⟩
      cases buf with
      | none => exact ⟨List.mem_cons_self .., fun _ _ ↦ nofun⟩
      | some buf =>
        rintro t ⟨⟩
        exact ⟨List.mem_cons_of_mem _ (List.mem_cons_self ..), rfl⟩

theorem trigAlloc_obeys (mod : UInt32) (type : ℤ) (inst : Int32) (msg : Bytes) :
    Obeys (queueProtocol true) AnyPost own (trigAlloc mod type inst msg) := by
  refine ⟨trivial, fun addr ↦ ?_⟩
  cases addr with
  | none => trivial
  | some addr =>
    refine ⟨trivial, fun buf ↦ ?_⟩
    cases buf with
    | none => exact ⟨List.mem_cons_self .., fun _ ↦ trivial⟩
    | some buf => trivial

variable {own}

theorem schedAddTask_obeys {task : Emtask} (haddr : task.addr ∈ own)
    (htype : task.type ≠ .hello) : Obeys (queueProtocol triggers) AnyPost own (schedAddTask task) :=
  ⟨trivial, fun _ ↦ ⟨⟨haddr, htype⟩, fun _ ↦ trivial⟩⟩

theorem netQueueTask_obeys {type : TaskType} (htype : type ≠ .hello) (interval res : ℤ)
    (msg : Bytes) :
    Obeys (queueProtocol triggers) AnyPost own (netQueueTask type interval res msg) := by
  refine (taskAlloc_obeys own type interval res 0 (some msg)).bind fun own r h ↦ ?_
  cases r with
  | none => trivial
  | some t =>
    obtain ⟨haddr, ht⟩ := h t rfl
    exact schedAddTask_obeys haddr (ht ▸ htype)

theorem ueMeasureDel_obeys (mod : UInt32) (rrc : ℕ → UeMeasurement) (n : ℕ) :
    Obeys (queueProtocol true) AnyPost own (ueMeasureDel mod rrc n) := by
  induction n with
  | zero => trivial
  | succ n ih => exact ⟨trivial, fun _ ↦ ih⟩

theorem netAddTrigger_obeys {mod : UInt32} {type : ℤ} {inst : Int32} {msg : Bytes}
    {taskType : TaskType} {queued : Emtask → Proc ℤ}
    (hqueued : ∀ own task, task.addr ∈ own → task.type = taskType →
      Obeys (queueProtocol true) AnyPost own (queued task)) :
    Obeys (queueProtocol true) AnyPost own (netAddTrigger mod type inst msg taskType queued) := by
  refine (trigAlloc_obeys own _ _ _ _).bind fun own r _ ↦ ?_
  cases r with
  | none => exact ⟨trivial, fun _ ↦ trivial⟩
  | some trig =>
    refine ⟨rfl, fun id ↦ ⟨trivial, fun _ ↦ ?_⟩⟩
    refine (taskAlloc_obeys _ taskType 1 0 id none).bind fun own r h ↦ ?_
    cases r with
    | none => exact ⟨trivial, fun _ ↦ ⟨trivial, fun _ ↦ ⟨trivial, fun _ ↦ trivial⟩⟩⟩
    | some task =>
      obtain ⟨haddr, ht⟩ := h task rfl
      exact hqueued own task haddr ht

theorem ueMeasureAdd_obeys (mod : UInt32) (rrc : ℕ → UeMeasurement) (msg : Bytes) (n : ℕ) :
    Obeys (queueProtocol true) AnyPost own (ueMeasureAdd mod rrc msg n) := by
  induction n generalizing own with
  | zero => trivial
  | succ n ih =>
    rw [ueMeasureAdd_succ]
    refine netAddTrigger_obeys fun own task haddr ht ↦ ?_
    exact (schedAddTask_obeys haddr (by rw [ht]; exact nofun)).bind fun _ _ _ ↦ ih

theorem netTeUeMeasure_obeys (msg : Bytes) :
    Obeys (queueProtocol true) AnyPost own (netTeUeMeasure E msg) := by
  unfold netTeUeMeasure
  dsimp only
  split_ifs
  · exact ueMeasureDel_obeys _ _ _
  · exact ueMeasureAdd_obeys _ _ _ _

theorem netTeReport_obeys (addType remType : ℤ) {taskType : TaskType}
    (htype : taskType ≠ .hello) (msg : Bytes) :
    Obeys (queueProtocol true) AnyPost own (netTeReport E addType remType taskType msg) := by
  rw [netTeReport_eq]
  split_ifs
  · exact netAddTrigger_obeys fun own task haddr ht ↦ schedAddTask_obeys haddr (ht ▸ htype)
  · exact ⟨trivial, fun _ ↦ trivial⟩

theorem netProcessMessage_obeys (msg : Bytes) :
    Obeys (queueProtocol true) AnyPost own (netProcessMessage E msg) := by
  refine netProcessMessage_cases (fun _ ↦ trivial) ?_ ?_ (netTeUeMeasure_obeys E msg)
  · exact fun type interval res htype ↦ netQueueTask_obeys htype interval res msg
  · exact fun addType remType type htype ↦ netTeReport_obeys E addType remType htype msg

theorem coreSend_obeys (msg : Bytes) : Obeys (queueProtocol false) AnyPost own (coreSend msg) := by
  refine (taskAlloc_obeys own .send 1 0 0 (some msg)).bind fun own r h ↦ ?_
  cases r with
  | none => exact ⟨trivial, fun _ ↦ trivial⟩
  | some task =>
    obtain ⟨haddr, ht⟩ := h task rfl
    exact schedAddTask_obeys haddr (by rw [ht]; exact nofun)

theorem apiCall_obeys (call : ApiCall) : Obeys (queueProtocol false) AnyPost own call.body := by
  cases call with
  | emSend msg =>
    simp only [ApiCall.body]
    split_ifs
    · trivial
    · exact coreSend_obeys msg
  | emHasTrigger tid => exact ⟨trivial, fun _ ↦ trivial⟩
  | emDelTrigger tid => exact ⟨trivial, fun _ ↦ trivial⟩

/-- What every operation allowed to a call keeps, the call keeps. -/
theorem ApiCall.keeps {I : List ℕ → World → Prop} {call : ApiCall} {answers : List Ans} {x : ℤ}
    {w w' : World} (h : call.body.run exec answers w = some (x, w')) (hI : I [] w)
    (hstep : ∀ own o v r v', (queueProtocol false).allowed own o → Effect o v r v' → I own v →
      I ((queueProtocol false).next own o r) v') : ∃ own, I own w' := by
  have hobeys : Obeys (queueProtocol false) AnyPost [] call.body := apiCall_obeys call
  obtain ⟨own, _, hI'⟩ := hobeys.run (I := I)
    (fun own o _ v r v' hallowed hv he ↦ hstep own o v r v' hallowed (exec_effect he) hv) hI h
  exact ⟨own, hI'⟩

end Queueing

section Runs

variable {S : Setup} {s : Agent}

def Performing : SchPc → Prop
  | .perform _ _ p => ∃ failed, Obeys performProtocol PerformPost failed p
  | _ => True

def Handling : NetPc → Prop
  | .process p => ∃ own, Obeys (queueProtocol true) AnyPost own p
  | _ => True

theorem Performing.step {pc pc' : SchPc} {w w' : World} (h : Performing pc)
    (hm : SchMove S pc w pc' w') : Performing pc' := by
  cases hm with
  | clock => exact ⟨false, schedPerformJob_performs S _ _⟩
  | op he =>
    obtain ⟨failed, hp⟩ := h
    exact ⟨_, hp.2 _⟩
  | _ => trivial

theorem Handling.step {E : Emproto} {t t' : NetThread} {w w' : World} (h : Handling t.pc)
    (hm : NetMove E t w t' w') : Handling t'.pc := by
  cases hm with
  | recvMessage => exact ⟨[], netProcessMessage_obeys E _⟩
  | handler he =>
    obtain ⟨own, hp⟩ := h
    exact ⟨_, hp.2 _⟩
  | again hpc | connectFail hpc => rcases hpc with rfl | rfl <;> trivial
  | _ => trivial

theorem conduct (h : (agent S).Reachable s) : Performing s.sch ∧ Handling s.net.pc := by
  refine h.invariant (I := fun s ↦ Performing s.sch ∧ Handling s.net.pc) ?_ ?_
  · exact ⟨trivial, trivial⟩
  · intro s a s' _ hI _ hs
    obtain ⟨hp, hh⟩ := hI
    cases Agent.step_move hs with
    | net hm => exact ⟨hp, hh.step hm⟩
    | sched _ hm => exact ⟨hp.step hm, hh⟩
    | api => exact ⟨hp, hh⟩
    | release hm => cases hm <;> exact ⟨hp, hh⟩

end Runs

end EmpowerAgent
