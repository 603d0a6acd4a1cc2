import EmpowerAgent.Attribution

namespace EmpowerAgent

open Library.Proc (Protocol Obeys)
open Proc Emproto

section Specification

/-- A call of an operation that the wrapper may leave undefined. -/
def asks (defined : Bool) (c : Callback) : List Callback := if defined then [c] else []

variable (S : Setup) (msg : Bytes)

def sliceCalls : List Callback :=
  let mod := requester S.proto msg
  let conf := fun det ↦ schedToRANconf S.proto.epRanUsersMax det (.zero S.proto.epRanUsersMax)
  match S.proto.eppSingleOp msg with
  | .unspecified =>
    let req := S.proto.eppSingleRanSliceReq msg
    asks (S.ops.sliceRequest && req.ok) (.sliceRequest mod req.out)
  | .add =>
    let req := S.proto.eppSingleRanSliceAdd msg
    asks (S.ops.sliceAdd && req.ok) (.sliceAdd mod req.out.1 (conf req.out.2))
  | .rem =>
    let req := S.proto.eppSingleRanSliceRem msg
    asks (S.ops.sliceRem && req.ok) (.sliceRem mod req.out)
  | .set =>
    let req := S.proto.eppSingleRanSliceSet msg
    asks (S.ops.sliceConf && req.ok) (.sliceConf mod req.out.1 (conf req.out.2))
  | .other => []

/-- The calls that the agent makes of a message for a task of some type, the
trigger that it may have had made being `id`: a report is asked for module 0,
and every measurement of the message under each of its triggers. -/
def requestCalls (id : Int32) : TaskType → List Callback
  | .enbSetup =>
    asks (S.ops.enbSetupRequest && (S.proto.eppHead msg).ok)
      (.enbSetupRequest (requester S.proto msg))
  | .ho =>
    let head := S.proto.eppHead msg
    let req := S.proto.eppSingleHoReq msg
    asks (S.ops.handoverUE && head.ok && req.ok)
      (.handoverUE (requester S.proto msg) head.out.cell req.out)
  | .ranSetup => asks S.ops.setupRequest (.setupRequest (requester S.proto msg))
  | .ranSlice => sliceCalls S msg
  | .ueReport => asks S.ops.ueReport (.ueReport 0 id)
  | .ueMeasure =>
    let m := S.proto.eppTriggerUemeasReq msg
    if S.ops.ueMeasure && m.ok then
      (List.range m.out.nofRrc.toNat).map fun i ↦
        .ueMeasure (requester S.proto msg) id (m.out.rrc i)
    else []
  | .cellMeasure =>
    let head := S.proto.eppHead msg
    let intv := S.proto.eppSchedCellMeasReq msg
    if S.proto.eppMsgType msg = .trigger then
      asks (S.ops.cellMeasure && head.ok && (S.proto.eppTriggerCellMeasReq msg).ok)
        (.cellMeasure head.out.cell (requester S.proto msg) 0 id)
    else
      asks (S.ops.cellMeasure && head.ok && intv.ok)
        (.cellMeasure head.out.cell (requester S.proto msg) intv.out (-1))
  | .send | .hello | .invalid => []

def Setup.calls (id : Int32) : List Callback := requestCalls S msg id (requestedTask S.proto msg)

variable (E : Emproto)

/-- The message is a request: one to add, where it is about triggers. -/
def IsRequest : Prop :=
  if E.eppMsgType msg = .trigger then E.eppTriggerOp msg = .add else E.eppDir msg = .req

/-- The trigger is one that was made for the message. -/
structure StandsFor (id : Int32) (trig : Emtri) : Prop where
  body : trig.msg = msg
  mod : trig.mod = requester E msg
  named : trig.id = id

/-- A task leads back to its message, which it holds unless it has a trigger. -/
structure Bears (task : Emtask) : Prop where
  mod : task.mod = 0
  type : task.type = requestedTask E msg
  trig : E.eppMsgType msg = .trigger → 0 < task.trig
  body : E.eppMsgType msg ≠ .trigger → task.bytes = msg ∧ task.trig = 0

def Searches : Prop := requestedTask E msg = .ueMeasure ∨
  requestedTask E msg = .cellMeasure ∧ E.eppMsgType msg = .trigger

end Specification

section Procedures

structure AnswerPhase where
  search : Option (Option Emtri)
  calls : List Callback

def AnswerPhase.init : AnswerPhase := ⟨none, []⟩

variable (S : Setup) (task : Emtask) (msg : Bytes)

/-- A task for a message makes none but the calls for that message, if what it
finds under its trigger's id is the trigger of the message. -/
def answerProtocol : Protocol Op Op.Res AnswerPhase where
  allowed t o := match o with
    | .trigFindById id => id = task.trig ∧ Searches msg S.proto
    | .callback c => (∀ trig, t.search = some (some trig) →
        StandsFor msg S.proto task.trig trig) → c ∈ S.calls msg task.trig
    | _ => True
  next t o r := match o, r with
    | .trigFindById _, r => { t with search := some r }
    | .callback c, _ => { t with calls := t.calls ++ [c] }
    | _, _ => t

def Complete (t : AnswerPhase) : Prop :=
  (∀ r, t.search = some r → ∃ trig, r = some trig ∧ StandsFor msg S.proto task.trig trig) →
    S.calls msg task.trig ⊆ t.calls

variable {S task msg} {t : AnswerPhase}

theorem nothing_answers (h : S.calls msg task.trig = []) : Obeys (answerProtocol S task msg)
    (fun t _ ↦ Complete S task msg t) t (return Outcome.consumed) := by
  intro _
  rw [h]
  exact List.nil_subset _

theorem call_answers {c : Callback} (h : S.calls msg task.trig = [c]) :
    Obeys (answerProtocol S task msg) (fun t _ ↦ Complete S task msg t) t
      (do callback c; return Outcome.consumed) := by
  refine ⟨fun _ ↦ by simp [h], fun _ _ ↦ ?_⟩
  rw [h]
  exact List.subset_append_right _ _

theorem ranSliceCall_answers {α : Type} {defined : Bool} {req : Decoded α} {c : α → Callback}
    (h : S.calls msg task.trig = asks (defined && req.ok) (c req.out)) :
    Obeys (answerProtocol S task msg) (fun t _ ↦ Complete S task msg t) t
      (ranSliceCall defined req c) := by
  unfold ranSliceCall
  split_ifs with hask
  · exact call_answers (h.trans (if_pos hask))
  · exact nothing_answers (h.trans (if_neg hask))

theorem schedPerformEnbSetup_answers (hbytes : task.bytes = msg)
    (hcalls : S.calls msg task.trig = requestCalls S msg task.trig .enbSetup) :
    Obeys (answerProtocol S task msg) (fun t _ ↦ Complete S task msg t) t
      (schedPerformEnbSetup S task) := by
  unfold schedPerformEnbSetup
  rw [hbytes]
  dsimp only
  split_ifs with hhead hop
  · exact nothing_answers (by simp_all [requestCalls, asks])
  · exact call_answers (by simp_all [requestCalls, asks, requester])
  · exact nothing_answers (by simp_all [requestCalls, asks])

theorem schedPerformHo_answers (hbytes : task.bytes = msg)
    (hcalls : S.calls msg task.trig = requestCalls S msg task.trig .ho) :
    Obeys (answerProtocol S task msg) (fun t _ ↦ Complete S task msg t) t
      (schedPerformHo S task) := by
  unfold schedPerformHo
  rw [hbytes]
  dsimp only
  split_ifs with hhead hreq hop
  · exact nothing_answers (by simp_all [requestCalls, asks])
  · exact nothing_answers (by simp_all [requestCalls, asks])
  · exact call_answers (by simp_all [requestCalls, asks, requester])
  · exact nothing_answers (by simp_all [requestCalls, asks])

theorem schedPerformRanSlice_answers (hbytes : task.bytes = msg)
    (hcalls : S.calls msg task.trig = requestCalls S msg task.trig .ranSlice) :
    Obeys (answerProtocol S task msg) (fun t _ ↦ Complete S task msg t) t
      (schedPerformRanSlice S task) := by
  unfold schedPerformRanSlice
  rw [hbytes]
  simp only [requestCalls, sliceCalls] at hcalls
  dsimp only
  cases hop : S.proto.eppSingleOp msg with
  | other => exact nothing_answers (by rw [hcalls, hop])
  | _ => exact ranSliceCall_answers (by rw [hcalls, hop]; rfl)

theorem Complete.of_found {trig : Emtri} (hfound : t.search = some (some trig))
    (h : StandsFor msg S.proto task.trig trig → S.calls msg task.trig ⊆ t.calls) :
    Complete S task msg t := by
  intro hfinds
  obtain ⟨trig', heq, hstands⟩ := hfinds _ hfound
  obtain rfl := Option.some.inj heq
  exact h hstands

theorem Complete.of_missed (hfound : t.search = some none) : Complete S task msg t := by
  intro hfinds
  obtain ⟨trig, htrig, _⟩ := hfinds _ hfound
  cases htrig

theorem ueMeasureEach_answers {trig : Emtri} {rrc : ℕ → UeMeasurement} (n : ℕ)
    (hfound : t.search = some (some trig))
    (hsound : StandsFor msg S.proto task.trig trig →
      ∀ i < n, .ueMeasure trig.mod trig.id (rrc i) ∈ S.calls msg task.trig)
    (hleft : StandsFor msg S.proto task.trig trig → ∀ c ∈ S.calls msg task.trig,
      c ∈ t.calls ∨ ∃ i < n, c = .ueMeasure trig.mod trig.id (rrc i)) :
    Obeys (answerProtocol S task msg) (fun t _ ↦ Complete S task msg t) t
      (ueMeasureEach trig rrc n) := by
  induction n generalizing t with
  | zero =>
    refine Complete.of_found hfound fun hstands c hc ↦ ?_
    exact (hleft hstands c hc).resolve_right (by simp)
  | succ n ih =>
    refine ⟨trivial, fun _ ↦ ⟨fun hfits ↦ ?_, fun _ ↦ ?_⟩⟩
    · exact hsound (hfits trig hfound) n (Nat.lt_succ_self n)
    · refine ih hfound (fun hstands i hi ↦ hsound hstands i (Nat.lt_succ_of_lt hi))
        fun hstands c hc ↦ ?_
      rcases hleft hstands c hc with h | ⟨i, hi, rfl⟩
      · exact .inl (List.mem_append_left _ h)
      · rcases Nat.lt_succ_iff_lt_or_eq.mp hi with hi | rfl
        · exact .inr ⟨i, hi, rfl⟩
        · exact .inl (List.mem_append_right _ (List.mem_singleton_self _))

theorem schedPerformUeMeasure_answers (htype : requestedTask S.proto msg = .ueMeasure) :
    Obeys (answerProtocol S task msg) (fun t _ ↦ Complete S task msg t) .init
      (schedPerformUeMeasure S task) := by
  have hsearch : Searches msg S.proto := .inl htype
  have hcalls : S.calls msg task.trig = requestCalls S msg task.trig .ueMeasure := by
    rw [Setup.calls, htype]
  unfold schedPerformUeMeasure
  split_ifs with hop
  · refine ⟨⟨rfl, hsearch⟩, fun r ↦ ?_⟩
    cases r with
    | none => exact ⟨trivial, fun _ ↦ .of_missed rfl⟩
    | some trig =>
      refine ⟨trivial, fun _ ↦ ?_⟩
      dsimp only
      split_ifs with hok
      · refine Complete.of_found (t := ⟨some (some trig), []⟩) rfl fun hstands ↦ ?_
        rw [hstands.body] at hok
        rw [hcalls]
        simp_all [requestCalls]
      · have hlist (hstands : StandsFor msg S.proto task.trig trig) : S.calls msg task.trig =
            (List.range (S.proto.eppTriggerUemeasReq trig.msg).out.nofRrc.toNat).map fun i ↦
              .ueMeasure trig.mod trig.id ((S.proto.eppTriggerUemeasReq trig.msg).out.rrc i) := by
          rw [hstands.body] at hok ⊢
          rw [hcalls, hstands.mod, hstands.named]
          simp_all [requestCalls]
        refine ueMeasureEach_answers (t := ⟨some (some trig), []⟩) _ rfl ?_ ?_
        · intro hstands i hi
          rw [hlist hstands]
          exact List.mem_map_of_mem (List.mem_range.mpr hi)
        · intro hstands c hc
          rw [hlist hstands] at hc
          obtain ⟨i, hi, rfl⟩ := List.mem_map.mp hc
          exact .inr ⟨i, List.mem_range.mp hi, rfl⟩
  · exact nothing_answers (by simp_all [requestCalls])

theorem schedPerformCellMeas_answers (hb : Bears msg S.proto task)
    (htype : requestedTask S.proto msg = .cellMeasure) :
    Obeys (answerProtocol S task msg) (fun t _ ↦ Complete S task msg t) .init
      (schedPerformCellMeas S task) := by
  have hcalls : S.calls msg task.trig = requestCalls S msg task.trig .cellMeasure := by
    rw [Setup.calls, htype]
  unfold schedPerformCellMeas
  by_cases htrig : S.proto.eppMsgType msg = .trigger
  · have hsearch : Searches msg S.proto := .inr ⟨htype, htrig⟩
    simp only [hb.trig htrig, if_true]
    split_ifs with hop
    · refine ⟨⟨rfl, hsearch⟩, fun r ↦ ?_⟩
      cases r with
      | none => exact .of_missed rfl
      | some trig =>
        refine ⟨trivial, fun _ ↦ ?_⟩
        dsimp only
        split_ifs with hhead hreq
        · refine Complete.of_found (t := ⟨some (some trig), []⟩) rfl fun hstands ↦ ?_
          rw [hstands.body] at hhead
          rw [hcalls]
          simp_all [requestCalls, asks]
        · refine ⟨trivial, fun _ ↦ ?_⟩
          refine Complete.of_found (t := ⟨some (some trig), []⟩) rfl fun hstands ↦ ?_
          rw [hstands.body] at hreq
          rw [hcalls]
          simp_all [requestCalls, asks]
        · have hone (hstands : StandsFor msg S.proto task.trig trig) : S.calls msg task.trig =
              [.cellMeasure (S.proto.eppHead trig.msg).out.cell trig.mod 0 trig.id] := by
            rw [hstands.body] at hhead hreq
            rw [hcalls, hstands.mod, hstands.named, hstands.body]
            simp_all [requestCalls, asks]
          refine ⟨trivial, fun _ ↦ ⟨trivial, fun _ ↦ ⟨fun hfits ↦ ?_, fun _ ↦ ?_⟩⟩⟩
          · rw [hone (hfits trig rfl)]
            exact List.mem_singleton_self _
          · refine Complete.of_found rfl fun hstands ↦ ?_
            rw [hone hstands]
            exact List.subset_append_right _ _
    · exact nothing_answers (by simp_all [requestCalls, asks])
  · obtain ⟨hbytes, hzero⟩ := hb.body htrig
    rw [hbytes]
    have hnot : ¬ (0 : Int32) < task.trig := by simp [hzero]
    dsimp only
    split_ifs with hop hhead hreq
    · exact nothing_answers (by simp_all [requestCalls, asks])
    · exact nothing_answers (by simp_all [requestCalls, asks])
    · exact call_answers (by simp_all [requestCalls, asks, requester])
    · exact nothing_answers (by simp_all [requestCalls, asks])

theorem schedPerform_answers (hb : Bears msg S.proto task) :
    Obeys (answerProtocol S task msg) (fun t _ ↦ Complete S task msg t) .init
      (schedPerform S task) := by
  have hcalls : S.calls msg task.trig = requestCalls S msg task.trig task.type := by
    rw [Setup.calls, hb.type]
  have hbody {type : TaskType} (htype : task.type = type)
      (h : type ∈ [TaskType.enbSetup, .ho, .ranSetup, .ranSlice]) : task.bytes = msg := by
    refine (hb.body fun htrig ↦ ?_).1
    rcases requestedTask_of_trigger htrig with hreq | hreq | hreq | hreq <;>
      simp [← htype, hb.type, hreq] at h
  unfold schedPerform
  cases htype : task.type with
  | enbSetup =>
    exact schedPerformEnbSetup_answers (hbody htype (by simp)) (by rw [hcalls, htype])
  | ho => exact schedPerformHo_answers (hbody htype (by simp)) (by rw [hcalls, htype])
  | ranSetup =>
    dsimp only
    unfold schedPerformRanSetup
    rw [hbody htype (by simp)]
    split_ifs with hop
    · exact call_answers (by simp [hcalls, htype, requestCalls, asks, hop, requester])
    · exact nothing_answers (by simp [hcalls, htype, requestCalls, asks, hop])
  | ranSlice => exact schedPerformRanSlice_answers (hbody htype (by simp)) (by rw [hcalls, htype])
  | ueReport =>
    dsimp only
    unfold schedPerformUeReport
    split_ifs with hop
    · exact call_answers (by simp [hcalls, htype, requestCalls, asks, hop, hb.mod])
    · exact nothing_answers (by simp [hcalls, htype, requestCalls, asks, hop])
  | ueMeasure => exact schedPerformUeMeasure_answers (hb.type.symm.trans htype)
  | cellMeasure => exact schedPerformCellMeas_answers hb (hb.type.symm.trans htype)
  | send => exact absurd (hb.type.symm.trans htype) (requestedTask_ne S.proto msg).1
  | hello => exact absurd (hb.type.symm.trans htype) (requestedTask_ne S.proto msg).2
  | invalid => exact nothing_answers (by rw [hcalls, htype]; rfl)

theorem schedPerformJob_answers (hb : Bears msg S.proto task) (now : Timespec) :
    Obeys (answerProtocol S task msg) (fun t op ↦ op ≠ .notElapsed → Complete S task msg t) .init
      (schedPerformJob S task now) := by
  unfold schedPerformJob
  split_ifs
  · exact fun hop ↦ absurd rfl hop
  · exact (schedPerform_answers hb).bind fun t op h _ ↦ h

end Procedures

section Calls

def Event.OffCalls (e : Event) : Prop := ∀ conn c, e ≠ .callback conn c

variable {E : Emproto} {S : Setup} {s s' : Agent} {w w' : World}

theorem Effect.calls {o : Op} {r : o.Res} (h : Effect o w r w') : Extends Event.OffCalls w w' ∨
    ∃ c, o = .callback c ∧ w'.hist = w.hist ++ [.callback w.conns c] := by
  cases h with
  | callback => exact .inr ⟨_, rfl, rfl⟩
  | accepted | sent | trigAdd => exact .inl (.event rfl (by simp [Event.OffCalls]))
  | _ => exact .inl (.silent rfl)

theorem NetMove.offCalls {t t' : NetThread} (hm : NetMove E t w t' w') (hhandles : Handling t.pc) :
    Extends Event.OffCalls w w' := by
  rcases hm.records with hx | ⟨o, k, r, hpc, he⟩
  · refine hx.mono fun e he conn c heq ↦ ?_
    subst heq
    exact he
  · rcases he.calls with hx | ⟨c, rfl, _⟩
    · exact hx
    · rw [hpc] at hhandles
      obtain ⟨own, hobeys⟩ := hhandles
      cases hobeys.1

theorem Move.calls {a : Act} (hm : Move S s a s') (hhandles : Handling s.net.pc) :
    Extends Event.OffCalls s.w s'.w ∨ ∃ conn c, s'.w.hist = s.w.hist ++ [.callback conn c] ∧
      (c = .disconnected ∧ S.ops.disconnected = true ∨
        ∃ task now k, s.sch = .perform task now (.call (.callback c) k)) := by
  cases hm with
  | net hm => exact .inl (hm.offCalls hhandles)
  | sched _ hm =>
    rcases s with ⟨w, net, pc, rel⟩
    simp only at hm ⊢
    cases hm with
    | op he =>
      rcases he.calls with hx | ⟨c, rfl, hhist⟩
      · exact .inl hx
      · exact .inr ⟨_, c, hhist, .inr ⟨_, _, _, rfl⟩⟩
    | alert =>
      split_ifs with hop
      · exact .inr ⟨_, _, rfl, .inl ⟨rfl, hop⟩⟩
      · exact .inl (.silent rfl)
    | returned | consumed => exact .inl (.event rfl (by simp [Event.OffCalls]))
    | netError | drain => exact .inl (.freed rfl (by simp [Event.OffCalls]))
    | down =>
      exact .inl (.netNotConnected w (by simp [Event.OffCalls]) (by simp [Event.OffCalls]))
    | _ => exact .inl (.silent rfl)
  | api hr =>
    cases apiCall_move hr with
    | emSendQueued => exact .inl (.event rfl (by simp [Event.OffCalls]))
    | _ => exact .inl (.silent rfl)
  | release hm => cases hm <;> exact .inl (.silent rfl)

theorem Move.hist_grows {a : Act} (hm : Move S s a s') (hhandles : Handling s.net.pc) :
    s.w.hist <+: s'.w.hist := by
  rcases hm.calls hhandles with ⟨es, hes, _⟩ | ⟨conn, c, hhist, _⟩
  · exact ⟨es, hes.symm⟩
  · exact ⟨_, hhist.symm⟩

theorem added_mono (h : w.hist <+: w'.hist) : w.added.length ≤ w'.added.length :=
  (h.sublist.filterMap Event.addedTrigger).length_le

theorem prefix_before {α : Type} {past l es : List α} {x : α} (h : past ++ [x] <+: l ++ es)
    (hx : x ∉ es) : past ++ [x] <+: l := by
  rcases List.prefix_or_prefix_of_prefix h (List.prefix_append l es) with hl | ⟨t, ht⟩
  · exact hl
  · rw [← ht, List.prefix_append_right_inj] at h
    rcases List.eq_nil_or_concat t with rfl | ⟨t, y, rfl⟩
    · exact ⟨[], by rw [List.append_nil, ← ht, List.append_nil]⟩
    · rw [List.concat_eq_append, ← List.append_assoc] at ht
      obtain rfl : y = x := by simpa using (List.append_inj' ht rfl).2
      exact absurd (h.subset (by simp)) hx

theorem Extends.past {past : List Event} {conn : ℕ} {c : Callback}
    (hx : Extends Event.OffCalls w w') (h : past ++ [.callback conn c] <+: w'.hist) :
    past ++ [.callback conn c] <+: w.hist := by
  obtain ⟨es, hes, hoff⟩ := hx
  rw [hes] at h
  exact prefix_before h fun hmem ↦ hoff _ hmem conn c rfl

end Calls

section Origins

variable {E : Emproto} {S : Setup} {s : Agent} {w w' : World} {task : Emtask} {msg : Bytes}

theorem handled_of_handling (h : w.handling = some msg) :
    ∃ conn, .handled conn msg ∈ w.hist := by
  obtain ⟨e, he, hmsg⟩ := List.mem_filterMap.mp (List.mem_of_getLast? h)
  cases e with
  | handled conn m =>
    obtain rfl : m = msg := Option.some.inj hmsg
    exact ⟨conn, he⟩
  | _ => cases hmsg

structure Asked (E : Emproto) (w : World) (trig : Emtri) : Prop where
  handled : ∃ conn, .handled conn trig.msg ∈ w.hist
  type : E.eppMsgType trig.msg = .trigger
  op : E.eppTriggerOp trig.msg = .add
  mod : trig.mod = requester E trig.msg

theorem Asked.mono {trig : Emtri} (h : Asked E w trig) (hsub : w.hist ⊆ w'.hist) :
    Asked E w' trig := by
  obtain ⟨conn, hconn⟩ := h.handled
  exact ⟨⟨conn, hsub hconn⟩, h.type, h.op, h.mod⟩

theorem asked_of_reachable (h : (agent S).Reachable s) : ∀ trig ∈ s.w.added,
    Asked S.proto s.w trig := by
  refine h.invariant (I := fun s ↦ ∀ trig ∈ s.w.added, Asked S.proto s.w trig) ?_ ?_
  · exact List.forall_mem_nil _
  intro s a s' hr hI _ hs trig ht
  have hm := Agent.step_move hs
  have hsub := (hm.hist_grows (conduct hr).2).subset
  rcases hm.triggers (conduct hr).1 with hshrink | ⟨new, k, _, hpc, _, hw, _⟩
  · rw [hshrink.added] at ht
    exact (hI trig ht).mono hsub
  · rw [hw, World.added_trigAdd] at ht
    rcases List.mem_append.mp ht with ht | ht
    · exact (hI trig ht).mono hsub
    · obtain rfl := List.mem_singleton.mp ht
      have hserve := Serving.of_reachable hr
      rw [hpc] at hserve
      obtain ⟨m, t, hp⟩ := hserve
      obtain ⟨htype, hop, hmod, hmsg, _⟩ := hp.obeys.1
      obtain ⟨conn, hconn⟩ := handled_of_handling hp.message
      subst hmsg
      exact ⟨⟨conn, hsub hconn⟩, htype, hop, hmod⟩

theorem netProcessMessage_unrequested (htype : E.eppMsgType msg ≠ .trigger)
    (hdir : E.eppDir msg ≠ .req) : ∃ x, netProcessMessage E msg = .pure x := by
  unfold netProcessMessage
  cases h : E.eppMsgType msg with
  | trigger => exact absurd h htype
  | other => exact ⟨_, rfl⟩
  | single =>
    simp only [netProcessSingleEvent, hdir, if_false]
    split <;> exact ⟨_, rfl⟩
  | schedule =>
    simp only [netProcessSchedEvent, netScHello, hdir, if_false]
    split
    · exact ⟨_, rfl⟩
    · split_ifs <;> exact ⟨_, rfl⟩
    · exact ⟨_, rfl⟩
    · exact ⟨_, rfl⟩

def Heeding (E : Emproto) (w : World) : NetPc → Prop
  | .process p => ∃ msg, w.handling = some msg ∧
      (E.eppMsgType msg ≠ .trigger → E.eppDir msg ≠ .req → ∃ x, p = .pure x)
  | _ => True

theorem Heeding.of_reachable (h : (agent S).Reachable s) : Heeding S.proto s.w s.net.pc := by
  refine h.invariant (I := fun s ↦ Heeding S.proto s.w s.net.pc) ?_ ?_
  · trivial
  intro s a s' hr hI _ hs
  have hm := Agent.step_move hs
  rcases Agent.net_or hs with ⟨ans, t, w, rfl, hstep, rfl⟩ | ha
  · have hnet := netStep_move hstep
    rcases s with ⟨w₀, net, sch, rel⟩
    simp only at hnet hI ⊢
    cases hnet with
    | recvMessage =>
      exact ⟨_, (Served.start (E := S.proto) _ _).message, netProcessMessage_unrequested⟩
    | handler he =>
      obtain ⟨msg, hmsg, hidle⟩ := hI
      refine ⟨msg, (handling_of_extends he.extends).trans hmsg, fun htype hdir ↦ ?_⟩
      obtain ⟨x, hx⟩ := hidle htype hdir
      cases hx
    | again hpc | connectFail hpc => rcases hpc with rfl | rfl <;> trivial
    | _ => trivial
  · obtain ⟨hnet, hmsg, _⟩ := hm.aside (conduct hr).1 ha
    rw [hnet]
    cases hpc : s.net.pc with
    | process p =>
      rw [hpc] at hI
      obtain ⟨msg, h, hidle⟩ := hI
      exact ⟨msg, hmsg.trans h, hidle⟩
    | _ => trivial

structure Requested (E : Emproto) (w : World) (msg : Bytes) (task : Emtask) : Prop where
  handled : ∃ conn, .handled conn msg ∈ w.hist
  request : IsRequest msg E
  mod : task.mod = 0
  type : task.type = requestedTask E msg
  body : E.eppMsgType msg ≠ .trigger → task.bytes = msg ∧ task.trig = 0
  trig : E.eppMsgType msg = .trigger → ∃ trig ∈ w.added, StandsFor msg E task.trig trig

theorem Requested.mono (h : Requested E w msg task) (hhist : w.hist ⊆ w'.hist)
    (hadded : w.added ⊆ w'.added) : Requested E w' msg task := by
  obtain ⟨conn, hconn⟩ := h.handled
  refine ⟨⟨conn, hhist hconn⟩, h.request, h.mod, h.type, h.body, fun htype ↦ ?_⟩
  obtain ⟨trig, ht, hstands⟩ := h.trig htype
  exact ⟨trig, hadded ht, hstands⟩

theorem Requested.same {t : Emtask} (h : Requested E w msg t) (hs : t.Same task) :
    Requested E w msg task := by
  have hbytes : task.bytes = t.bytes := by simp only [Emtask.bytes, hs.msg]
  refine ⟨h.handled, h.request, hs.mod.trans h.mod, hs.type.trans h.type, ?_, ?_⟩
  · rw [hbytes, hs.trig]
    exact h.body
  · rw [hs.trig]
    exact h.trig

theorem Requested.bears (h : Requested E w msg task) (hnum : Numbering w)
    (hids : w.added.length < 2 ^ 31) : Bears msg E task := by
  refine ⟨h.mod, h.type, fun htype ↦ ?_, h.body⟩
  obtain ⟨trig, ht, hstands⟩ := h.trig htype
  obtain ⟨i, hi, hid⟩ := hnum.id ht
  rw [← hstands.named, hid]
  exact ofNat_pos (Nat.succ_pos i) (by omega)

theorem Requested.queued {k : ℤ → Proc ℤ} (h : (agent S).Reachable s)
    (hpc : s.net.pc = .process (.call (.schedAddTask task) k)) :
    ∃ msg, Requested S.proto s.w msg task := by
  have hserve := Serving.of_reachable h
  have hheed := Heeding.of_reachable h
  rw [hpc] at hserve hheed
  obtain ⟨msg, t, hp⟩ := hserve
  obtain ⟨m, hm, hidle⟩ := hheed
  obtain rfl : m = msg := Option.some.inj (hm.symm.trans hp.message)
  obtain ⟨hmod, htype, hbody⟩ := hp.obeys.1
  by_cases htrig : S.proto.eppMsgType m = .trigger
  · rw [if_pos htrig] at hbody
    obtain ⟨_, _, trig, hhead, hid⟩ := hbody
    obtain ⟨hadded, hrequester, hmsg⟩ := hp.added trig (List.mem_of_head? hhead)
    have hop := (asked_of_reachable h trig hadded).op
    rw [hmsg] at hop
    refine ⟨m, handled_of_handling hp.message, (if_pos htrig).mpr hop, hmod, htype, ?_, ?_⟩
    · exact fun hnot ↦ absurd htrig hnot
    · exact fun _ ↦ ⟨trig, hadded, hmsg, hrequester, hid.symm⟩
  · rw [if_neg htrig] at hbody
    have hdir : S.proto.eppDir m = .req := by
      by_contra hdir
      obtain ⟨x, hx⟩ := hidle htrig hdir
      cases hx
    refine ⟨m, handled_of_handling hp.message, (if_neg htrig).mpr hdir, hmod, htype, ?_, ?_⟩
    · exact fun _ ↦ ⟨by simp [Emtask.bytes, hbody.1], hbody.2⟩
    · exact fun hnot ↦ absurd hnot htrig

theorem requested_of_reachable (h : (agent S).Reachable s) : ∀ task ∈ s.pending,
    task.type ≠ .send → task.type ≠ .hello → ∃ msg, Requested S.proto s.w msg task := by
  refine pending_induction (I := fun s task ↦ task.type ≠ .send → task.type ≠ .hello →
    ∃ msg, Requested S.proto s.w msg task) ?_ ?_ h
  · intro s a task hr hq hsend hhello
    cases hq with
    | hello => exact absurd rfl hhello
    | emSend => exact absurd rfl hsend
    | handler hpc => exact Requested.queued hr hpc
  · intro s a s' t task hr hm hsame hI hsend hhello
    obtain ⟨msg, hreq⟩ := hI (hsame.type ▸ hsend) (hsame.type ▸ hhello)
    have hsub := (hm.hist_grows (conduct hr).2).subset
    exact ⟨msg, (hreq.same hsame).mono hsub (hm.added_subset (conduct hr).1)⟩

end Origins

section Runs

variable {S : Setup} {s : Agent} {w w' : World}

def AnswersRequest (S : Setup) (w : World) : SchPc → Prop
  | .perform task _ p => task.type ≠ .send → task.type ≠ .hello →
      ∃ msg t, Requested S.proto w msg task ∧
        Obeys (answerProtocol S task msg)
          (fun t op ↦ op ≠ .notElapsed → Complete S task msg t) t p ∧
        ∀ trig, t.search = some (some trig) → trig ∈ w.added ∧ trig.id = task.trig
  | _ => True

theorem AnswersRequest.mono {pc : SchPc} (h : AnswersRequest S w pc) (hhist : w.hist ⊆ w'.hist)
    (hadded : w.added ⊆ w'.added) : AnswersRequest S w' pc := by
  cases pc with
  | perform task now p =>
    intro hsend hhello
    obtain ⟨msg, t, hreq, hobeys, hfound⟩ := h hsend hhello
    refine ⟨msg, t, hreq.mono hhist hadded, hobeys, fun trig ht ↦ ?_⟩
    obtain ⟨hmem, hid⟩ := hfound trig ht
    exact ⟨hadded hmem, hid⟩
  | _ => trivial

theorem found_step {task : Emtask} {msg : Bytes} {o : Op} {r : o.Res} {t : AnswerPhase}
    (hnum : Numbering w) (he : Effect o w r w')
    (hallowed : (answerProtocol S task msg).allowed t o)
    (hfound : ∀ trig, t.search = some (some trig) → trig ∈ w.added ∧ trig.id = task.trig) :
    ∀ trig, ((answerProtocol S task msg).next t o r).search = some (some trig) →
      trig ∈ w.added ∧ trig.id = task.trig := by
  cases o with
  | trigFindById id =>
    cases he
    intro trig ht
    have hfind : w.trig.trigFindById id = some trig := Option.some.inj ht
    obtain rfl : id = task.trig := hallowed.1
    exact ⟨hnum.live (List.mem_of_find?_eq_some hfind), by simpa using List.find?_some hfind⟩
  | _ => exact hfound

theorem AnswersRequest.of_reachable (h : (agent S).Reachable s)
    (hids : s.w.added.length < 2 ^ 31) : AnswersRequest S s.w s.sch := by
  refine h.invariant (I := fun s ↦ s.w.added.length < 2 ^ 31 → AnswersRequest S s.w s.sch) ?_ ?_
    hids
  · exact fun _ ↦ trivial
  intro s a s' hr hI _ hs hids
  have hm := Agent.step_move hs
  have hnum := Numbering.of_reachable hr
  have hhist := (hm.hist_grows (conduct hr).2).subset
  have hadded := hm.added_subset (conduct hr).1
  have hless := Nat.lt_of_le_of_lt (added_mono (hm.hist_grows (conduct hr).2)) hids
  have hI := hI hless
  rcases Agent.sched_or hs with ⟨ans, pc, w, rfl, hstep, rfl⟩ | ha
  · have hsch := schedStep_move hstep
    rcases s with ⟨w₀, net, pc₀, rel⟩
    simp only at hsch hI hhist hadded hnum ⊢
    cases hsch with
    | @clock _ task now =>
      intro hsend hhello
      have ht : task ∈ Agent.pending ⟨w, net, .clock task, rel⟩ :=
        held_pending (List.mem_singleton_self task)
      obtain ⟨msg, hreq⟩ := requested_of_reachable hr task ht hsend hhello
      exact ⟨msg, .init, hreq, schedPerformJob_answers (hreq.bears hnum hless) now, by
        simp [AnswerPhase.init]⟩
    | op he =>
      intro hsend hhello
      obtain ⟨msg, t, hreq, hobeys, hfound⟩ := hI hsend hhello
      refine ⟨msg, _, hreq.mono hhist hadded, hobeys.2 _, fun trig ht ↦ ?_⟩
      obtain ⟨hmem, hid⟩ := found_step hnum he hobeys.1 hfound trig ht
      exact ⟨hadded hmem, hid⟩
    | _ => trivial
  · rw [(hm.unscheduled ha).1]
    exact hI.mono hhist hadded

theorem Requested.stands {task : Emtask} {msg : Bytes} (h : Requested S.proto w msg task)
    (hnum : Numbering w) (hids : w.added.length < 2 ^ 31) {trig : Emtri} (hmem : trig ∈ w.added)
    (hid : trig.id = task.trig) : StandsFor msg S.proto task.trig trig := by
  have hlt {i : ℕ} {t : Emtri} (h : w.added[i]? = some t) : i < w.added.length :=
    (List.getElem?_eq_some_iff.mp h).1
  obtain ⟨i, hi⟩ := List.mem_iff_getElem?.mp hmem
  have hbound := hlt hi
  have hnumber := hnum.ids i trig hi
  by_cases htype : S.proto.eppMsgType msg = .trigger
  · obtain ⟨made, hmade, hstands⟩ := h.trig htype
    obtain ⟨j, hj⟩ := List.mem_iff_getElem?.mp hmade
    have hbound' := hlt hj
    have hij : i + 1 = j + 1 := by
      refine ofNat_injective (by omega) (by omega) ?_
      rw [← hnumber, ← hnum.ids j made hj, hid, hstands.named]
    obtain rfl : i = j := by omega
    obtain rfl : trig = made := Option.some.inj (hi.symm.trans hj)
    exact hstands
  · -- a task that holds its message has the id of no trigger
    have hpos : 0 < Int32.ofNat (i + 1) := ofNat_pos (Nat.succ_pos i) (by omega)
    rw [← hnumber, hid, (h.body htype).2] at hpos
    exact absurd hpos (by decide)

/-- Why the wrapper was called: to be told of a lost connection, or because this
is one of the calls for a message of the controller that was handled before. -/
def Answered (S : Setup) (past : List Event) (c : Callback) : Prop :=
  c = .disconnected ∧ S.ops.disconnected = true ∨
    ∃ conn msg id, .handled conn msg ∈ past ∧ IsRequest msg S.proto ∧ c ∈ S.calls msg id ∧
      (S.proto.eppMsgType msg = .trigger →
        ∃ conn trig, .trigAdded conn trig ∈ past ∧ StandsFor msg S.proto id trig)

theorem trigAdded_of_added {trig : Emtri} (h : trig ∈ w.added) :
    ∃ conn, .trigAdded conn trig ∈ w.hist := by
  obtain ⟨e, he, htrig⟩ := List.mem_filterMap.mp h
  cases e with
  | trigAdded conn t =>
    obtain rfl : t = trig := Option.some.inj htrig
    exact ⟨conn, he⟩
  | _ => cases htrig

theorem answered_call (h : (agent S).Reachable s) (hids : s.w.added.length < 2 ^ 31)
    {task : Emtask} {now : Timespec} {c : Callback} {k : Unit → Proc Outcome}
    (hpc : s.sch = .perform task now (.call (.callback c) k)) : Answered S s.w.hist c := by
  have hwork := Working.of_reachable h
  have hanswers := AnswersRequest.of_reachable h hids
  have hnum := Numbering.of_reachable h
  rw [hpc] at hwork hanswers
  obtain ⟨job, hjob⟩ := hwork
  obtain ⟨m, _, hmodule⟩ := allowed_call hjob.obeys.1
  have hsend : task.type ≠ .send := fun htype ↦ by simp [jobModule, htype] at hmodule
  have hhello : task.type ≠ .hello := fun htype ↦ by simp [jobModule, htype] at hmodule
  obtain ⟨msg, t, hreq, hobeys, hfound⟩ := hanswers hsend hhello
  obtain ⟨conn, hconn⟩ := hreq.handled
  refine .inr ⟨conn, msg, task.trig, hconn, hreq.request, hobeys.1 fun trig ht ↦ ?_, fun htype ↦ ?_⟩
  · obtain ⟨hmem, hid⟩ := hfound trig ht
    exact hreq.stands hnum hids hmem hid
  · obtain ⟨trig, hmem, hstands⟩ := hreq.trig htype
    obtain ⟨conn, hadded⟩ := trigAdded_of_added hmem
    exact ⟨conn, trig, hadded, hstands⟩

/-- While the ids of triggers have not run over, the wrapper gets no call, but
for lost connections, that the agent does not make of a request that it has
received and handled. -/
theorem callbacks_answer (h : (agent S).Reachable s) (hids : s.w.added.length < 2 ^ 31)
    {past : List Event} {conn : ℕ} {c : Callback}
    (hcall : past ++ [.callback conn c] <+: s.w.hist) : Answered S past c := by
  refine h.invariant (I := fun s ↦ s.w.added.length < 2 ^ 31 → ∀ past conn c,
    past ++ [.callback conn c] <+: s.w.hist → Answered S past c) ?_ ?_ hids past conn c hcall
  · intro _ past conn c hnil
    exact absurd (List.prefix_nil.mp hnil) (by simp)
  intro s a s' hr hI _ hs hids past conn c hcall
  have hm := Agent.step_move hs
  have hless := Nat.lt_of_le_of_lt (added_mono (hm.hist_grows (conduct hr).2)) hids
  rcases hm.calls (conduct hr).2 with hx | ⟨conn', c', hhist, hwhy⟩
  · exact hI hless past conn c (hx.past hcall)
  · rw [hhist, List.prefix_concat_iff] at hcall
    rcases hcall with heq | hold
    · obtain ⟨rfl, hlast⟩ := List.append_inj' heq rfl
      obtain ⟨rfl, rfl⟩ : conn = conn' ∧ c = c' := by simpa using hlast
      rcases hwhy with hlost | ⟨task, now, k, hpc⟩
      · exact .inl hlost
      · exact answered_call hr hless hpc
    · exact hI hless past conn c hold

def answeredCell : Agent :=
  ((agent Sample.setup).runIf (fun _ _ ↦ True) Agent.start (answerRun cellRequest)).get
    (by decide +kernel)

theorem callbacks_answer_cell : ∃ past,
    answeredCell.w.hist = past ++ [.callback 1 (.cellMeasure 0 7 0 1)] ∧
    Answered Sample.setup past (.cellMeasure 0 7 0 1) := by
  have hr : (agent Sample.setup).Reachable answeredCell := (agent Sample.setup).reach_get _ _ _
  have hlast : answeredCell.w.hist =
      answeredCell.w.hist.dropLast ++ [.callback 1 (.cellMeasure 0 7 0 1)] := by decide +kernel
  exact ⟨_, hlast, callbacks_answer hr (by decide +kernel) ⟨[], by rw [List.append_nil, ← hlast]⟩⟩

end Runs

end EmpowerAgent
