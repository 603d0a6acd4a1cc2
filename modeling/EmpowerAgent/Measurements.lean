import EmpowerAgent.Attribution

namespace EmpowerAgent

open Library.Proc (Obeys)
open Library.Keyed (recorded recorded_append recorded_of_not_mem recorded_filter perm_recorded)

/-- What an observer notes of one request: whether it is being handled, the
triggers and the tasks it has made, the latest first, and the calls that the
wrapper got from these tasks. -/
structure RequestLog where
  active : Bool
  added : List Emtri
  queued : List Emtask
  calls : List (ℕ × Callback)

namespace Agent

def handles (s : Agent) : Bool := match s.net.pc with | .process _ => true | _ => false

def adds (s : Agent) (a : Act) : List Emtri :=
  (s.adding a).toList.map fun trig ↦ { trig with id := s.w.trig.next }

end Agent

def noteRequest (s : Agent) (a : Act) (s' : Agent) (g : RequestLog) : RequestLog where
  active := g.active && s'.handles
  added := if g.active then s.adds a ++ g.added else g.added
  queued := if g.active then s.enqueues a ++ g.queued else g.queued
  calls := g.calls ++ (s.calls a).filter fun e ↦ e.1 ∈ addrs g.queued

def requestAgent (S : Setup) (s₀ : Agent) : Library.Machine (Agent × RequestLog) Act :=
  ((agent S).restart s₀).watch ⟨true, [], [], []⟩ noteRequest

def SchPc.failed : SchPc → Bool
  | .settle _ _ .netError => true
  | _ => false

/-- Nothing goes wrong with the request: what it allocates and queues succeeds,
its triggers stay and keep their ids to themselves, no send fails, and the
agent is not stopped. -/
def Undisturbed (S : Setup) (p : Agent × RequestLog) (a : Act) : Prop :=
  p.1.w.sched.stop = false ∧ p.1.sch.failed = false ∧
    (p.2.active = true → a ≠ .net (.ok false)) ∧
    (∀ _trig ∈ p.1.adding a, ∀ t ∈ p.1.w.trig.ts, t.id ≠ p.1.w.trig.next) ∧
    ∀ s' ∈ (agent S).step p.1 a, ∀ t ∈ p.2.added, t ∈ s'.w.trig.ts

instance (S : Setup) (p : Agent × RequestLog) (a : Act) : Decidable (Undisturbed S p a) :=
  have : Decidable (∀ _trig ∈ p.1.adding a, ∀ t ∈ p.1.w.trig.ts, t.id ≠ p.1.w.trig.next) :=
    Option.decidableForallMem (p.1.adding a)
  have : Decidable (∀ s' ∈ (agent S).step p.1 a, ∀ t ∈ p.2.added, t ∈ s'.w.trig.ts) :=
    Option.decidableForallMem ((agent S).step p.1 a)
  instDecidableAnd

section Calls

variable {E : Emproto} {msg : Bytes}

variable (E msg) in
def nofEntries : ℕ := (E.eppTriggerUemeasReq msg).out.nofRrc.toNat

variable (E msg) in
/-- One call for each entry, with the id of the trigger that was made for it. -/
def expectedCalls (added : List Emtri) : List Callback :=
  List.zipWith (fun trig i ↦ .ueMeasure (requester E msg) trig.id
    ((E.eppTriggerUemeasReq msg).out.rrc i)) added (List.range (nofEntries E msg))

variable (E msg) in
/-- The calls of one task: one for each entry, all with the task's own trigger. -/
def taskCalls (id : Int32) : List Callback :=
  (List.range (nofEntries E msg)).reverse.map fun i ↦
    .ueMeasure (requester E msg) id ((E.eppTriggerUemeasReq msg).out.rrc i)

theorem measureCalls_eq {trig : Emtri} (hmod : trig.mod = requester E msg) (hmsg : trig.msg = msg)
    (hok : (E.eppTriggerUemeasReq msg).ok = true) :
    measureCalls E (some trig) = taskCalls E msg trig.id := by
  simp only [measureCalls, taskCalls, nofEntries, hmod, hmsg, hok, if_true]

theorem addedKeys_length (htype : E.eppTriggerType msg = .ueMeasure) :
    (addedKeys E msg).length = nofEntries E msg := by
  simp [addedKeys, htype, measIds, nofEntries]

/-- The calls of all tasks are those expected if there are not two entries. -/
theorem taskCalls_perm {added : List Emtri} (hlen : added.length = nofEntries E msg) :
    ((added.map Emtri.id).flatMap (taskCalls E msg)).Perm (expectedCalls E msg added) ↔
      nofEntries E msg ≤ 1 := by
  have hcalls (id : Int32) : (taskCalls E msg id).length = nofEntries E msg := by
    simp [taskCalls]
  constructor
  · intro hperm
    have hl := hperm.length_eq
    simp only [List.length_flatMap, List.map_map, Function.comp_def, hcalls, List.map_const',
      List.sum_replicate_nat, hlen, expectedCalls, List.length_zipWith, List.length_range,
      Nat.min_self] at hl
    by_contra hmany
    have hlt : nofEntries E msg * 1 < nofEntries E msg * nofEntries E msg :=
      Nat.mul_lt_mul_of_pos_left (by omega) (by omega)
    omega
  · intro hfew
    rcases Nat.le_one_iff_eq_zero_or_eq_one.mp hfew with hn | hn
    · rw [hn, List.length_eq_zero_iff] at hlen
      rw [hlen]
      exact .refl _
    · rw [hn, List.length_eq_one_iff] at hlen
      obtain ⟨trig, rfl⟩ := hlen
      simp [taskCalls, expectedCalls, hn, List.range_succ]

end Calls

section Requesting

variable {S : Setup} {s s' : Agent} {a : Act} {g : RequestLog} {msg : Bytes}

def Requesting (E : Emproto) (msg : Bytes) (g : RequestLog) (pc : NetPc) : Prop :=
  if g.active = true then ∃ p, pc = .process p ∧
    Obeys (handlerProtocol E msg) (HandlerPost E msg) ⟨g.added, g.queued, true⟩ p
  else g.added.map Emtri.key = addedKeys E msg ∧ g.queued.map Emtask.trig = g.added.map Emtri.id

theorem request_next {ans : Ans} {o : Op} {k : o.Res → Proc ℤ} {r : o.Res} {w : World}
    {E : Emproto} (hpc : s.net.pc = .process (.call o k)) (he : exec o ans s.w = some (r, w))
    (hans : Allocates ans) (hstop : s.w.sched.stop = false) :
    (handlerProtocol E msg).next ⟨g.added, g.queued, true⟩ o r =
      ⟨s.adds (.net ans) ++ g.added, s.enqueues (.net ans) ++ g.queued, true⟩ := by
  simp only [Agent.adds, Agent.adding, Agent.enqueues, hpc]
  cases o with
  | malloc =>
    obtain ⟨addr, rfl, _⟩ := exec_malloc hans he
    rfl
  | schedAddTask task =>
    cases exec_effect he with
    | refused hs => cases hs.symm.trans hstop
    | accepted => simp [handlerProtocol, hstop]
  | trigAdd trig =>
    cases exec_effect he
    rfl
  | _ => rfl

theorem Requesting.step (h : Requesting S.proto msg g s.net.pc)
    (hs : (agent S).step s a = some s') (hperf : Performing s.sch) (hstop : s.w.sched.stop = false)
    (halloc : g.active = true → a ≠ .net (.ok false)) (htype : S.proto.eppMsgType msg = .trigger)
    (hop : S.proto.eppTriggerOp msg = .add) :
    Requesting S.proto msg (noteRequest s a s' g) s'.net.pc := by
  cases hactive : g.active with
  | false =>
    simp only [Requesting, noteRequest, hactive, Bool.false_and, Bool.false_eq_true,
      if_false] at h ⊢
    exact h
  | true =>
    simp only [Requesting, noteRequest, hactive, Bool.true_and, if_true] at h ⊢
    obtain ⟨p, hpc, hobeys⟩ := h
    cases a with
    | net ans =>
      cases p with
      | pure x =>
        obtain rfl := Agent.handler_done hs hpc
        simp only [Agent.handles, Agent.adds, Agent.adding, Agent.enqueues, hpc, Bool.false_eq_true,
          if_false]
        exact hobeys htype hop rfl
      | call o k =>
        obtain ⟨r, w, he, rfl⟩ := Agent.handler_step hs hpc
        have hnext : (handlerProtocol S.proto msg).next _ o r = _ :=
          request_next (g := g) hpc he (fun h ↦ halloc hactive (congrArg Act.net h)) hstop
        simp only [Agent.handles, if_true]
        refine ⟨_, rfl, ?_⟩
        rw [← hnext]
        exact hobeys.2 r
    | _ =>
      obtain ⟨hnet, _⟩ := (Agent.step_move hs).aside hperf (by simp)
      rw [hnet]
      simp only [Agent.handles, hnet, hpc, if_true]
      exact ⟨p, rfl, hobeys⟩

end Requesting

section Progress

variable {S : Setup} {w w' : World} {msg : Bytes} {task : Emtask} {made : List Callback}

def Waits (E : Emproto) (msg : Bytes) (made : List Callback) (task : Emtask) (w : World) : Prop :=
  made = if task.addr ∈ w.freed then taskCalls E msg task.trig else []

def Progress (S : Setup) (msg : Bytes) (made : List Callback) (task : Emtask) (w : World) :
    SchPc → Prop
  | .perform t _ p =>
    (t.addr = task.addr → ∃ ph, Obeys (jobProtocol S t) (JobPost S t) ph p ∧ ph.calls = made ∧
      (ph.searched = true → measureCalls S.proto ph.found = taskCalls S.proto msg task.trig)) ∧
    (t.addr ≠ task.addr → Waits S.proto msg made task w)
  | .settle t _ op =>
    (t.addr = task.addr → op ≠ .reschedule ∧
      made = if op = .notElapsed then [] else taskCalls S.proto msg task.trig) ∧
    (t.addr ≠ task.addr → Waits S.proto msg made task w)
  | _ => Waits S.proto msg made task w

theorem Waits.frame (h : Waits S.proto msg made task w)
    (hfreed : task.addr ∈ w'.freed ↔ task.addr ∈ w.freed) : Waits S.proto msg made task w' := by
  unfold Waits at h ⊢
  simp only [hfreed]
  exact h

theorem Progress.frame {pc : SchPc} (h : Progress S msg made task w pc)
    (hfreed : w'.freed = w.freed) : Progress S msg made task w' pc := by
  have hiff : task.addr ∈ w'.freed ↔ task.addr ∈ w.freed := by rw [hfreed]
  cases pc with
  | perform => exact ⟨h.1, fun hne ↦ (h.2 hne).frame hiff⟩
  | settle => exact ⟨h.1, fun hne ↦ (h.2 hne).frame hiff⟩
  | _ => exact Waits.frame h hiff

theorem Progress.op {t : Emtask} {now : Timespec} {o : Op} {k : o.Res → Proc Outcome} {r : o.Res}
    (h : Progress S msg made task w (.perform t now (.call o k))) (he : Effect o w r w')
    (hsame : t.addr = task.addr → task.Same t)
    (hfind : measureCalls S.proto (w.trig.trigFindById task.trig) =
      taskCalls S.proto msg task.trig) :
    Progress S msg (made ++ recorded task.addr (SchPc.perform t now (.call o k)).calls) task w
      (.perform t now (k r)) := by
  refine ⟨fun haddr ↦ ?_, fun hne ↦ ?_⟩
  · obtain ⟨ph, hobeys, hcalls, hfound⟩ := h.1 haddr
    refine ⟨_, hobeys.2 r, ?_, ?_⟩
    · cases o with
      | callback c => simp [jobProtocol, SchPc.calls, recorded, haddr, hcalls]
      | _ => simpa [jobProtocol, SchPc.calls, recorded] using hcalls
    · cases o with
      | trigFindById id =>
        obtain rfl : id = task.trig := (allowed_find hobeys.1).trans (hsame haddr).trig
        cases he
        exact fun _ ↦ hfind
      | _ => exact hfound
  · have hnone : recorded task.addr (SchPc.perform t now (.call o k)).calls = [] := by
      cases o <;> simp [SchPc.calls, recorded, hne]
    rw [hnone, List.append_nil]
    exact h.2 hne

theorem Progress.returned {t : Emtask} {now : Timespec} {op : Outcome}
    (h : Progress S msg made task w (.perform t now (.pure op)))
    (hsame : t.addr = task.addr → task.Same t) (htype : task.type = .ueMeasure)
    (honce : task.resch = 0) (hdef : S.ops.ueMeasure = true) :
    Progress S msg made task w (.settle t now op) := by
  refine ⟨fun haddr ↦ ?_, h.2⟩
  obtain ⟨ph, hpost, hcalls, hfound⟩ := h.1 haddr
  have hpost : JobPost S t ph op := hpost
  have hs := hsame haddr
  refine ⟨fun hop ↦ hpost.again hop (hs.resch honce), ?_⟩
  split_ifs with hop
  · rw [← hcalls, hpost.later hop]
    rfl
  · obtain ⟨hsearched, hmade⟩ := hpost.measured (hs.type.trans htype) hdef hop
    rw [← hcalls, hmade, hfound hsearched]

theorem Progress.settled {t : Emtask} {now : Timespec} {op : Outcome}
    (h : Progress S msg made task w (.settle t now op)) (hheld : t.addr ∉ w.freed)
    (hfreed : w'.freed = w.freed ++ if op = .consumed then [t.addr] else [])
    (hop : op ≠ .netError) : Waits S.proto msg made task w' := by
  by_cases haddr : t.addr = task.addr
  · obtain ⟨hagain, hmade⟩ := h.1 haddr
    rw [haddr] at hheld hfreed
    cases op with
    | netError => exact absurd rfl hop
    | reschedule => exact absurd rfl hagain
    | consumed =>
      rw [Waits, hfreed, if_pos (by simp)]
      exact hmade
    | notElapsed =>
      rw [Waits, hfreed, if_neg (by simpa using hheld)]
      exact hmade
  · refine (h.2 haddr).frame ?_
    rw [hfreed]
    split_ifs <;> simp [Ne.symm haddr]

theorem Progress.schMove {pc pc' : SchPc} (h : Progress S msg made task w pc)
    (hm : SchMove S pc w pc' w') (hperf : Performing pc) (hfail : pc.failed = false)
    (hdrain : pc ≠ .drain) (hheld : ∀ t ∈ pc.held, t.addr ∉ w.freed)
    (hsame : ∀ t ∈ pc.held, t.addr = task.addr → task.Same t) (htype : task.type = .ueMeasure)
    (honce : task.resch = 0) (hdef : S.ops.ueMeasure = true)
    (hfind : measureCalls S.proto (w.trig.trigFindById task.trig) =
      taskCalls S.proto msg task.trig) :
    Progress S msg (made ++ recorded task.addr pc.calls) task w' pc' := by
  have hone (t : Emtask) : t ∈ [t] := List.mem_singleton_self t
  have hquiet (hcalls : pc.calls = []) (hp : Progress S msg made task w' pc') :
      Progress S msg (made ++ recorded task.addr pc.calls) task w' pc' := by
    rw [hcalls]
    exact (List.append_nil made).symm ▸ hp
  rcases hm.freed hperf with hfreed | ⟨t, now, rfl, rfl, hfreed⟩ | ⟨t, now, rfl⟩ | rfl
  · have hwait (hw : Waits S.proto msg made task w) : Waits S.proto msg made task w' :=
      hw.frame (by rw [hfreed])
    cases hm with
    | @clock _ t now =>
      refine hquiet rfl ⟨fun haddr ↦ ⟨.init, schedPerformJob_obeys now, ?_,
        by simp [JobPhase.init]⟩, fun _ ↦ h⟩
      have hmade : made = if task.addr ∈ w.freed then taskCalls S.proto msg task.trig else [] := h
      rw [hmade, if_neg (haddr ▸ hheld t (hone t))]
      rfl
    | @op _ _ t now o k r he => exact (h.op he (hsame t (hone t)) hfind).frame hfreed
    | @returned _ t now op =>
      exact hquiet rfl ((h.returned (hsame t (hone t)) htype honce hdef).frame hfreed)
    | @later _ t now =>
      have hgone := h.settled (hheld t (hone t)) (by simpa using hfreed) (by simp)
      exact hquiet rfl hgone
    | @again _ t now =>
      have hgone := h.settled (hheld t (hone t)) (by simpa using hfreed) (by simp)
      exact hquiet rfl hgone
    | consumed => simp [World.freed_log] at hfreed
    | netError => cases hfail
    | _ => exact hquiet rfl (hwait h)
  · exact hquiet rfl (h.settled (hheld t (hone t)) (by simpa using hfreed) (by simp))
  · cases hfail
  · exact absurd rfl hdrain

end Progress

section Runs

variable {S : Setup} {s s' : Agent} {a : Act} {g : RequestLog} {msg : Bytes}

/-- The invariant of a request: its triggers and tasks belong to it and are
told by their ids and addresses, and the tasks have made the calls they should. -/
structure Made (S : Setup) (msg : Bytes) (s : Agent) (g : RequestLog) : Prop where
  requesting : Requesting S.proto msg g s.net.pc
  origin : ∀ trig ∈ g.added, trig.mod = requester S.proto msg ∧ trig.msg = msg
  live : ∀ trig ∈ g.added, trig ∈ s.w.trig.ts ∧ ∀ u ∈ s.w.trig.ts, u.id = trig.id → u = trig
  tasks : ∀ task ∈ g.queued, task.type = .ueMeasure ∧ task.resch = 0 ∧
    ∃ trig ∈ g.added, task.trig = trig.id
  accepted : ∀ task ∈ g.queued, task.addr ∈ s.w.accepted
  once : (addrs g.queued).Nodup
  same : ∀ t ∈ g.queued, ∀ task ∈ s.pending, task.addr = t.addr → t.Same task
  calls : ∀ e ∈ g.calls, e.1 ∈ addrs g.queued
  progress : ∀ task ∈ g.queued, Progress S msg (recorded task.addr g.calls) task s.w s.sch

theorem Made.find (h : Made S msg s g) (hok : (S.proto.eppTriggerUemeasReq msg).ok = true)
    {task : Emtask} (ht : task ∈ g.queued) :
    measureCalls S.proto (s.w.trig.trigFindById task.trig) = taskCalls S.proto msg task.trig := by
  obtain ⟨_, _, trig, htrig, hid⟩ := h.tasks task ht
  obtain ⟨hmem, honly⟩ := h.live trig htrig
  have hfind : s.w.trig.trigFindById task.trig = some trig := by
    cases hf : s.w.trig.trigFindById task.trig with
    | none => simpa [hid] using List.find?_eq_none.mp hf trig hmem
    | some u =>
      have hu : u.id = task.trig := by simpa using List.find?_some hf
      rw [honly u (List.mem_of_find?_eq_some hf) (hu.trans hid)]
  rw [hfind, hid]
  exact measureCalls_eq (h.origin trig htrig).1 (h.origin trig htrig).2 hok

theorem mem_adds {trig : Emtri} (h : trig ∈ s.adds a) :
    ∃ ans t k, a = .net ans ∧ s.net.pc = .process (.call (.trigAdd t) k) ∧
      trig = { t with id := s.w.trig.next } := by
  obtain ⟨t, ht, rfl⟩ := List.mem_map.mp h
  cases a with
  | net ans =>
    have ht := Option.mem_toList.mp ht
    simp only [Agent.adding] at ht
    split at ht
    · rename_i t' k hpc
      cases ht
      exact ⟨ans, t, k, rfl, hpc, rfl⟩
    · cases ht
  | _ => cases ht

theorem Made.allowed (h : Made S msg s g) (hactive : g.active = true) {o : Op}
    {k : o.Res → Proc ℤ} (hpc : s.net.pc = .process (.call o k)) :
    (handlerProtocol S.proto msg).allowed ⟨g.added, g.queued, true⟩ o := by
  have hreq := h.requesting
  simp only [Requesting, hactive, if_true] at hreq
  obtain ⟨p, hp, hobeys⟩ := hreq
  cases hpc.symm.trans hp
  exact hobeys.1

theorem Made.added_step (h : Made S msg s g) {trig : Emtri}
    (ht : trig ∈ (noteRequest s a s' g).added) :
    trig ∈ g.added ∨ ∃ ans t k, a = .net ans ∧ s.net.pc = .process (.call (.trigAdd t) k) ∧
      trig = { t with id := s.w.trig.next } ∧ t.mod = requester S.proto msg ∧ t.msg = msg := by
  simp only [noteRequest] at ht
  split_ifs at ht with hactive
  · rcases List.mem_append.mp ht with hnew | hold
    · obtain ⟨ans, t, k, rfl, hpc, rfl⟩ := mem_adds hnew
      obtain ⟨_, _, hmod, hmsg, _⟩ := h.allowed hactive hpc
      exact .inr ⟨ans, t, k, rfl, hpc, rfl, hmod, hmsg⟩
    · exact .inl hold
  · exact .inl ht

theorem Made.queued_step (h : Made S msg s g) (hs : (agent S).step s a = some s')
    {task : Emtask} (ht : task ∈ (noteRequest s a s' g).queued) : task ∈ g.queued ∨
      ∃ ans k, a = .net ans ∧ s.net.pc = .process (.call (.schedAddTask task) k) ∧
        s'.w = s.w.accept task ∧ s'.sch = s.sch ∧
        (handlerProtocol S.proto msg).allowed ⟨g.added, g.queued, true⟩ (.schedAddTask task) := by
  simp only [noteRequest] at ht
  split_ifs at ht with hactive
  · rcases List.mem_append.mp ht with hnew | hold
    · obtain ⟨k, ans, rfl, hpc, hw, hsch⟩ := enqueues_step hs hnew
      exact .inr ⟨ans, k, rfl, hpc, hw, hsch, h.allowed hactive hpc⟩
    · exact .inl hold
  · exact .inl ht

theorem Made.live_step (h : Made S msg s g) (hr : (agent S).Reachable s)
    (hs : (agent S).step s a = some s') (hok : Undisturbed S (s, g) a) {trig : Emtri}
    (ht : trig ∈ (noteRequest s a s' g).added) :
    trig ∈ s'.w.trig.ts ∧ ∀ u ∈ s'.w.trig.ts, u.id = trig.id → u = trig := by
  obtain ⟨_, _, _, hunused, hstay⟩ := hok
  rcases h.added_step ht with hold | ⟨ans, t, k, rfl, hpc, rfl, _⟩
  · obtain ⟨hmem, honly⟩ := h.live trig hold
    refine ⟨hstay s' hs trig hold, fun u hu hid ↦ ?_⟩
    rcases (Agent.step_move hs).triggers (conduct hr).1 with hshrink | ⟨t, k, hadds, hpc, _, hw, _⟩
    · exact honly u (hshrink.ts.subset hu) hid
    · rw [hw] at hu
      rcases List.mem_cons.mp hu with rfl | hu
      · exact absurd hid.symm (hunused t (adding_of_adds hadds hpc) trig hmem)
      · exact honly u hu hid
  · have hadding : s.adding (.net ans) = some t := by simp only [Agent.adding, hpc]
    obtain ⟨r, w, he, rfl⟩ := Agent.handler_step hs hpc
    cases exec_effect he
    refine ⟨List.mem_cons_self .., fun u hu hid ↦ ?_⟩
    rcases List.mem_cons.mp hu with rfl | hu
    · rfl
    · exact absurd hid (hunused t hadding u hu)

theorem Made.tasks_step (h : Made S msg s g) (hs : (agent S).step s a = some s')
    (hmsg : S.proto.eppMsgType msg = .trigger) (hreq : requestedTask S.proto msg = .ueMeasure)
    {task : Emtask} (ht : task ∈ (noteRequest s a s' g).queued) :
    task.type = .ueMeasure ∧ task.resch = 0 ∧
      ∃ trig ∈ (noteRequest s a s' g).added, task.trig = trig.id := by
  have hsub : g.added ⊆ (noteRequest s a s' g).added := by
    simp only [noteRequest]
    split_ifs
    · exact List.subset_append_right _ _
    · exact List.Subset.refl _
  rcases h.queued_step hs ht with hold | ⟨_, k, rfl, _, _, _, _, htype, hbody⟩
  · obtain ⟨htype, honce, trig, htrig, hid⟩ := h.tasks task hold
    exact ⟨htype, honce, trig, hsub htrig, hid⟩
  · rw [if_pos hmsg] at hbody
    obtain ⟨_, honce, trig, hhead, hid⟩ := hbody
    exact ⟨htype.trans hreq, honce, trig, hsub (List.mem_of_mem_head? hhead), hid⟩

theorem Made.new_task (h : Made S msg s g) (hr : (agent S).Reachable s)
    (hs : (agent S).step s a = some s') {task : Emtask}
    (ht : task ∈ (noteRequest s a s' g).queued) : task ∈ g.queued ∨
      task.addr ∉ s.w.accepted ∧ ∃ ans k, a = .net ans ∧
        s.net.pc = .process (.call (.schedAddTask task) k) ∧ s'.w = s.w.accept task ∧
        s'.sch = s.sch := by
  rcases h.queued_step hs ht with hold | ⟨ans, k, ha, hpc, hw, hsch, _⟩
  · exact .inl hold
  · exact .inr ⟨accept_fresh (.step hr trivial hs) hw, ans, k, ha, hpc, hw, hsch⟩

theorem Made.same_step (h : Made S msg s g) (hr : (agent S).Reachable s)
    (hs : (agent S).step s a = some s') {t task : Emtask}
    (ht : t ∈ (noteRequest s a s' g).queued) (htask : task ∈ s'.pending)
    (haddr : task.addr = t.addr) : t.Same task := by
  rcases (Agent.step_move hs).pending (conduct hr).1 htask with ⟨u, hu, hsame⟩ | ⟨hq, hacc⟩
  · rcases h.new_task hr hs ht with hold | ⟨hfresh, _⟩
    · exact (h.same t hold u hu (hsame.addr.symm.trans haddr)).trans hsame
    · rw [← haddr, hsame.addr] at hfresh
      exact absurd (pending_accepted hr hu) hfresh
  · rcases h.new_task hr hs ht with hold | ⟨_, ans, k, rfl, hpc, _⟩
    · have hfresh := not_accepted_before (.step hr trivial hs) hacc
      exact absurd (haddr ▸ h.accepted t hold) hfresh
    · exact hq.handed hpc ▸ .refl _

theorem Progress.fresh {pc : SchPc} {w : World} {task : Emtask}
    (hheld : ∀ t ∈ pc.held, t.addr ≠ task.addr) (hfreed : task.addr ∉ w.freed) :
    Progress S msg [] task w pc := by
  have hwait : Waits S.proto msg [] task w := (if_neg hfreed).symm
  cases pc with
  | perform t | settle t =>
    exact ⟨fun haddr ↦ absurd haddr (hheld t (List.mem_singleton_self t)), fun _ ↦ hwait⟩
  | _ => exact hwait

theorem Made.progress_step (h : Made S msg s g) (hr : (agent S).Reachable s)
    (hs : (agent S).step s a = some s') (hok : Undisturbed S (s, g) a)
    (hdecodes : (S.proto.eppTriggerUemeasReq msg).ok = true) (hdef : S.ops.ueMeasure = true)
    {task : Emtask} (ht : task ∈ (noteRequest s a s' g).queued) :
    Progress S msg (recorded task.addr (noteRequest s a s' g).calls) task s'.w s'.sch := by
  have hm := Agent.step_move hs
  have hone {t : Emtask} : t ∈ [t] := List.mem_singleton_self t
  rcases h.new_task hr hs ht with hold | ⟨hfresh, ans, k, rfl, hpc, hw, hsch⟩
  · have hmem : task.addr ∈ addrs g.queued := List.mem_map_of_mem hold
    obtain ⟨htype, honce, _⟩ := h.tasks task hold
    have hprogress := h.progress task hold
    simp only [noteRequest, recorded_append, recorded_filter hmem]
    cases a with
    | sched ans =>
      cases hm with
      | sched _ hm =>
        refine hprogress.schMove hm (conduct hr).1 hok.2.1 ?_ ?_ ?_ htype honce hdef
          (h.find hdecodes hold)
        · intro hdrain
          have hd := Drained.of_reachable hr
          rw [hdrain] at hd
          cases hok.1.symm.trans hd
        · exact fun t ht ↦ held_not_freed hr ht
        · exact fun t ht haddr ↦ h.same task hold t (held_pending ht) haddr
    | _ =>
      obtain ⟨hsch, hfreed⟩ := hm.unscheduled nofun
      have hnone : recorded task.addr g.calls ++ [] = recorded task.addr g.calls :=
        List.append_nil _
      rw [hsch]
      exact hnone.symm ▸ hprogress.frame hfreed
  · have hnone : recorded task.addr (noteRequest s (.net ans) s' g).calls = [] := by
      apply recorded_of_not_mem
      simp only [noteRequest, Agent.calls, List.filter_nil, List.append_nil]
      intro hmem
      obtain ⟨e, he, haddr⟩ := List.mem_map.mp hmem
      obtain ⟨t, ht, hta⟩ := List.mem_map.mp (h.calls e he)
      exact hfresh (haddr ▸ hta ▸ h.accepted t ht)
    rw [hnone, hsch, hw]
    refine .fresh (fun t ht haddr ↦ ?_) ?_
    · exact hfresh (haddr ▸ pending_accepted hr (held_pending ht))
    · rw [World.freed_accept]
      exact fun hfreed ↦ hfresh (freed_accepted hr hfreed)

theorem Made.once_step (h : Made S msg s g) (hr : (agent S).Reachable s)
    (hs : (agent S).step s a = some s') : (addrs (noteRequest s a s' g).queued).Nodup := by
  simp only [noteRequest]
  split_ifs with hactive
  · cases hnew : s.enqueues a with
    | nil => exact h.once
    | cons task rest =>
      have htask : task ∈ s.enqueues a := by
        rw [hnew]
        exact List.mem_cons_self ..
      obtain ⟨k, ans, rfl, hpc, hw, _⟩ := enqueues_step hs htask
      have hfresh := accept_fresh (.step hr trivial hs) hw
      have hrest : rest = [] := by
        simp only [Agent.enqueues, hpc] at hnew
        split_ifs at hnew
        exact (List.cons.inj hnew).2.symm
      rw [hrest]
      refine List.nodup_cons.mpr ⟨fun hmem ↦ ?_, h.once⟩
      obtain ⟨t, ht, haddr⟩ := List.mem_map.mp hmem
      have haddr : t.addr = task.addr := haddr
      exact hfresh (haddr ▸ h.accepted t ht)
  · exact h.once

structure MeasureRequest (E : Emproto) (msg : Bytes) : Prop where
  type : E.eppMsgType msg = .trigger
  action : E.eppTriggerType msg = .ueMeasure
  op : E.eppTriggerOp msg = .add
  decodes : (E.eppTriggerUemeasReq msg).ok = true

theorem Made.of_reach {s₀ : Agent} {p : Agent × RequestLog} (h₀ : (agent S).Reachable s₀)
    (hpc : s₀.net.pc = .process (netProcessMessage S.proto msg))
    (hmsg : MeasureRequest S.proto msg) (hdef : S.ops.ueMeasure = true)
    (h : (requestAgent S s₀).Reach (Undisturbed S) p) : Made S msg p.1 p.2 := by
  have hreq : requestedTask S.proto msg = .ueMeasure := by
    simp only [requestedTask, hmsg.type, hmsg.action]
  refine h.watched (I := Made S msg) (fun _ _ ↦ True) (fun _ _ _ ↦ trivial) ?_ ?_
  · have hnil {α : Type} {p : α → Prop} : ∀ x ∈ ([] : List α), p x := List.forall_mem_nil p
    refine ⟨?_, hnil, hnil, hnil, hnil, List.nodup_nil, hnil, hnil, hnil⟩
    simp only [Requesting, if_true]
    exact ⟨_, hpc, netProcessMessage_handles msg⟩
  intro s g a s' hr hI hok hs
  have hr : (agent S).Reachable s := Library.Machine.Reach.restart h₀ hr
  have hs : (agent S).step s a = some s' := hs
  have hperf := (conduct hr).1
  refine ⟨?_, ?_, ?_, ?_, ?_, ?_, ?_, ?_, ?_⟩
  · exact hI.requesting.step hs hperf hok.1 hok.2.2.1 hmsg.type hmsg.op
  · intro trig ht
    rcases hI.added_step ht with hold | ⟨_, _, _, _, _, rfl, hmod, hbody⟩
    · exact hI.origin trig hold
    · exact ⟨hmod, hbody⟩
  · exact fun trig ht ↦ hI.live_step hr hs hok ht
  · exact fun task ht ↦ hI.tasks_step hs hmsg.type hreq ht
  · intro task ht
    rcases hI.new_task hr hs ht with hold | ⟨_, _, _, _, _, hw, _⟩
    · exact (Agent.step_move hs).accepted_subset hperf (hI.accepted task hold)
    · rw [hw, World.accepted_accept]
      exact List.mem_append_right _ (List.mem_singleton_self _)
  · exact hI.once_step hr hs
  · exact fun t ht task htask haddr ↦ hI.same_step hr hs ht htask haddr
  · intro e he
    have hmem : e.1 ∈ addrs g.queued := by
      rcases List.mem_append.mp he with hold | hnew
      · exact hI.calls e hold
      · simpa using (List.mem_filter.mp hnew).2
    simp only [noteRequest]
    split_ifs
    · rw [addrs_append]
      exact List.mem_append_right _ hmem
    · exact hmem
  · exact fun task ht ↦ hI.progress_step hr hs hok hmsg.decodes hdef ht

theorem Progress.done {made : List Callback} {task : Emtask}
    (h : Progress S msg made task s.w s.sch) (hr : (agent S).Reachable s)
    (hfreed : task.addr ∈ s.w.freed) : made = taskCalls S.proto msg task.trig := by
  have hother (t : Emtask) (ht : t ∈ s.sch.held) : t.addr ≠ task.addr :=
    fun haddr ↦ held_not_freed hr ht (haddr ▸ hfreed)
  have hwait : Waits S.proto msg made task s.w := by
    cases hpc : s.sch with
    | perform t | settle t =>
      rw [hpc] at h hother
      exact h.2 (hother t (List.mem_singleton_self t))
    | _ =>
      rw [hpc] at h
      exact h
  exact hwait.trans (if_pos hfreed)

/-- A request with several entries has each of them measured for each of the
triggers, so that the callbacks are those that were asked for, each entry once
and for its own trigger, exactly if there are not two entries. -/
theorem measure_calls {s₀ : Agent} {p : Agent × RequestLog} (h₀ : (agent S).Reachable s₀)
    (hpc : s₀.net.pc = .process (netProcessMessage S.proto msg))
    (hmsg : MeasureRequest S.proto msg) (hdef : S.ops.ueMeasure = true)
    (h : (requestAgent S s₀).Reach (Undisturbed S) p) (hdone : p.2.active = false)
    (hfreed : ∀ task ∈ p.2.queued, task.addr ∈ p.1.w.freed) :
    p.2.added.map Emtri.key = addedKeys S.proto msg ∧
      ((p.2.calls.map Prod.snd).Perm (expectedCalls S.proto msg p.2.added) ↔
        nofEntries S.proto msg ≤ 1) := by
  have hrun : ((agent S).restart s₀).Reachable p.1 := h.unwatch fun _ _ _ ↦ trivial
  have hr : (agent S).Reachable p.1 := Library.Machine.Reach.restart h₀ hrun
  have hI := Made.of_reach h₀ hpc hmsg hdef h
  have hreq := hI.requesting
  simp only [Requesting, hdone, Bool.false_eq_true, if_false] at hreq
  obtain ⟨hkeys, hids⟩ := hreq
  have hlen : p.2.added.length = nofEntries S.proto msg := by
    rw [← addedKeys_length hmsg.action, ← hkeys, List.length_map]
  have hcalls : ((addrs p.2.queued).flatMap fun addr ↦ recorded addr p.2.calls) =
      (p.2.added.map Emtri.id).flatMap (taskCalls S.proto msg) := by
    rw [← hids, addrs, List.flatMap_map, List.flatMap_map]
    refine List.flatMap_congr fun task ht ↦ ?_
    exact (hI.progress task ht).done hr (hfreed task ht)
  have hperm := perm_recorded hI.once hI.calls
  rw [hcalls] at hperm
  refine ⟨hkeys, ?_⟩
  rw [hperm.congr_left]
  exact taskCalls_perm hlen

def askRun (head body : Bytes) : List Act :=
  Sample.connect 3 ++ [Sample.receive head, .net .tick, Sample.receive body]

def askedOne : Agent :=
  ((agent Sample.setup).runIf (fun _ _ ↦ True) (agent Sample.setup).start
    (askRun [0, 7, 2, 1, 1, 7] [5])).get (by decide +kernel)

def askedTwo : Agent :=
  ((agent Sample.setup).runIf (fun _ _ ↦ True) (agent Sample.setup).start
    (askRun [0, 8, 2, 1, 1, 7] [5, 6])).get (by decide +kernel)

def handleEntry : List Act :=
  [.net (.ok true), .net (.ok true), .net .tick, .net .tick, .net (.ok true),
    .net (.time (Sample.after 0)), .net .tick]

def performMeasure (calls : ℕ) : List Act :=
  [.sched .tick, .sched (.time (Sample.after 2000)), .sched .tick, .sched .tick] ++
    List.replicate (2 * calls) (.sched .tick) ++ [.sched .tick, .sched .tick]

def measureOne : List Act :=
  handleEntry ++ [.net .tick] ++ Sample.performSend 6 ++ performMeasure 1

theorem measure_calls_one : ∃ s₀ p, (agent Sample.setup).Reachable s₀ ∧
    (requestAgent Sample.setup s₀).Reach (Undisturbed Sample.setup) p ∧
    p.2.calls.map Prod.snd = [.ueMeasure 7 1 (Sample.measurement 5)] ∧
    (p.2.calls.map Prod.snd).Perm
      (expectedCalls Sample.proto [0, 7, 2, 1, 1, 7, 5] p.2.added) := by
  have h₀ : (agent Sample.setup).Reachable askedOne := (agent Sample.setup).reach_get _ _ _
  have h := (requestAgent Sample.setup askedOne).reach_get (Undisturbed Sample.setup) measureOne
    (by decide +kernel)
  have hcalls := measure_calls h₀ rfl ⟨rfl, rfl, rfl, rfl⟩ rfl h (by decide +kernel)
    (by decide +kernel)
  exact ⟨_, _, h₀, h, by decide +kernel, hcalls.2.mpr (by decide)⟩

def measureTwo : List Act :=
  handleEntry ++ handleEntry ++ [.net .tick] ++ Sample.performSend 6 ++ performMeasure 2 ++
    performMeasure 2

theorem measure_calls_squared : ¬ ∀ s₀ msg p, (agent Sample.setup).Reachable s₀ →
    s₀.net.pc = .process (netProcessMessage Sample.proto msg) →
    MeasureRequest Sample.proto msg →
    (requestAgent Sample.setup s₀).Reach (Undisturbed Sample.setup) p → p.2.active = false →
    (∀ task ∈ p.2.queued, task.addr ∈ p.1.w.freed) →
    (p.2.calls.map Prod.snd).Perm (expectedCalls Sample.proto msg p.2.added) := by
  intro hall
  have h₀ : (agent Sample.setup).Reachable askedTwo := (agent Sample.setup).reach_get _ _ _
  have h := (requestAgent Sample.setup askedTwo).reach_get (Undisturbed Sample.setup) measureTwo
    (by decide +kernel)
  have hperm := hall askedTwo [0, 8, 2, 1, 1, 7, 5, 6] _ h₀ rfl ⟨rfl, rfl, rfl, rfl⟩ h
    (by decide +kernel) (by decide +kernel)
  have hlen := hperm.length_eq
  revert hlen
  decide +kernel

end Runs

end EmpowerAgent
