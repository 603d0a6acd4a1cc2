import EmpowerAgent.TriggerRuns

namespace EmpowerAgent

open Library (Machine)
open Library.Proc (Obeys)

/-- What a wrapper may offer besides its answers to the controller. -/
structure Wrapper where
  init : Bool
  release : Bool

/-- Where `em_start` stands; `failed` stands for its error path. -/
inductive StartPc
  | schedStart
  | netStart
  | init
  | insert
  | failed
  | done
  deriving DecidableEq, Repr

/-- Where the call stands that ends the agent, `em_terminate_agent` or
`em_stop`: both take it off the list, tell the wrapper and release it. -/
inductive EndPc
  | idle
  | release
  | core
  deriving DecidableEq, Repr

/-- An agent with the calls that start and end it: which of its threads were
created, whether it is in `core_agents`, what `init` has returned and whether
the wrapper's `release` has been called. -/
structure Life where
  agent : Agent
  start : StartPc
  ends : EndPc
  schedUp : Bool
  netUp : Bool
  listed : Bool
  inited : Option ℤ
  released : Bool

inductive LifeAct
  | agent (a : Act)
  | start (ret : ℤ)
  | ends
  deriving DecidableEq, Repr

namespace Life

variable (W : Wrapper) (l : Life)

/-- One step of `em_start`, whose threads, and then `init`, answer `ret`. -/
def startStep (ret : ℤ) : Option Life :=
  match l.start with
  | .schedStart => some (if ret = 0 then { l with schedUp := true, start := .netStart }
      else { l with start := .failed })
  | .netStart => some (if ret = 0 then { l with netUp := true, start := .init }
      else { l with start := .failed })
  | .init => some (if W.init then
      { l with inited := some ret, start := if ret < 0 then .failed else .insert }
      else { l with start := .insert })
  | .insert => some { l with listed := true, start := .done }
  | _ => none

def endStep : Option Life :=
  match l.ends with
  | .idle => if l.listed then some { l with listed := false, ends := .release } else none
  | .release => some { l with released := W.release, ends := .core }
  | .core => none

/-- The threads run from their creation on, the calls of the library find an
agent on the list only, and `core_release_agent` is called from two places. -/
def enables : Act → Bool
  | .net _ => l.netUp
  | .sched _ => l.schedUp
  | .api _ _ => l.listed
  | .release => l.start = .failed || l.ends = .core

def step (S : Setup) : LifeAct → Option Life
  | .agent a => if l.enables a then (l.agent.step S a).map fun s ↦ { l with agent := s } else none
  | .start ret => l.startStep W ret
  | .ends => l.endStep W

/-- `init` has not refused, the agent is on the list, and `release` was not called. -/
structure Ready (W : Wrapper) (l : Life) : Prop where
  init : W.init = true → ∃ ret, l.inited = some ret ∧ 0 ≤ ret
  listed : l.listed = true
  released : l.released = false

end Life

def life (S : Setup) (W : Wrapper) : Machine Life LifeAct where
  start := ⟨.start, .schedStart, .idle, false, false, false, none, false⟩
  step l a := l.step W S a

/-- Made for a request of the controller, so that the wrapper may be called. -/
def Emtask.answers (task : Emtask) : Bool :=
  match task.type with
  | .send | .hello | .invalid => false
  | _ => true

namespace SchPc

def Starts (S : Setup) (c : Callback) : SchPc → Prop
  | .perform _ _ p => ∃ k, p = .call (.callback c) k
  | .alert => c = .disconnected ∧ S.ops.disconnected = true
  | _ => False

def calling (S : Setup) : SchPc → Bool
  | .perform task _ (.call _ _) => task.answers
  | .perform _ _ (.pure op) | .settle _ _ op => S.ops.disconnected && op = .netError
  | .flush | .alert => S.ops.disconnected
  | _ => false

end SchPc

/-- A request is found due, or a send fails. -/
def Agent.setsOut (S : Setup) (s : Agent) : Act → Bool
  | .sched (.time now) => match s.sch with
    | .clock task => task.answers && task.elapse ≤ tsDiffToMs task.issued now
    | _ => false
  | .sched (.sent n) => S.ops.disconnected && n < 0
  | _ => false

/-- A request is found due and a send fails only while the agent is on the
list, and it is taken off the list at no time in between. -/
def InLife (S : Setup) (l : Life) : LifeAct → Prop
  | .agent a => l.agent.setsOut S a = true → l.listed = true
  | .ends => l.listed = true → l.agent.sch.calling S = false
  | .start _ => True

instance (S : Setup) (l : Life) (a : LifeAct) : Decidable (InLife S l a) :=
  match a with
  | .agent a => inferInstanceAs (Decidable (l.agent.setsOut S a = true → l.listed = true))
  | .ends => inferInstanceAs (Decidable (l.listed = true → l.agent.sch.calling S = false))
  | .start _ => inferInstanceAs (Decidable True)

section Calling

variable {S : Setup} {s s' : Agent} {a : Act} {task : Emtask}

theorem answers_of_call {t : JobPhase} {c : Callback}
    (h : (jobProtocol S task).allowed t (.callback c)) : task.answers = true := by
  obtain ⟨m, _, hm⟩ := allowed_call h
  unfold jobModule at hm
  unfold Emtask.answers
  cases htype : task.type with
  | send | hello | invalid =>
    rw [htype] at hm
    cases hm
  | _ => rfl

theorem SchPc.Starts.calling {c : Callback} (h : s.sch.Starts S c) (hr : (agent S).Reachable s) :
    s.sch.calling S = true := by
  have hwork := Working.of_reachable hr
  cases hpc : s.sch with
  | perform task now p =>
    rw [hpc] at h hwork
    obtain ⟨k, rfl⟩ := h
    obtain ⟨t, hp⟩ := hwork
    exact answers_of_call hp.obeys.1
  | alert =>
    rw [hpc] at h
    exact h.2
  | _ =>
    rw [hpc] at h
    cases h

theorem calling_clock {now : Timespec}
    (h : (SchPc.perform task now (schedPerformJob S task now)).calling S = true) :
    (task.answers && task.elapse ≤ tsDiffToMs task.issued now) = true := by
  have hobeys : Obeys (jobProtocol S task) (JobPost S task) .init (schedPerformJob S task now) :=
    schedPerformJob_obeys now
  cases hp : schedPerformJob S task now with
  | pure op =>
    rw [hp] at h hobeys
    have hpost : JobPost S task .init op := hobeys
    obtain ⟨_, hop⟩ := Bool.and_eq_true_iff.mp h
    cases hpost.failed.mp (of_decide_eq_true hop)
  | call o k =>
    rw [hp] at h
    by_cases hdue : tsDiffToMs task.issued now < task.elapse
    · rw [schedPerformJob, if_pos hdue] at hp
      cases hp
    · have hanswers : task.answers = true := h
      simp [hanswers, Int.not_lt.mp hdue]

theorem calling_op {now : Timespec} {o : Op} {k : o.Res → Proc Outcome} {r : o.Res} {ans : Ans}
    {w w' : World} {t : JobPhase} (hp : Worked S w task t (.call o k))
    (he : exec o ans w = some (r, w'))
    (h : (SchPc.perform task now (k r)).calling S = true) :
    task.answers = true ∨ s.setsOut S (.sched ans) = true := by
  have hobeys := hp.obeys.2 r
  cases hk : k r with
  | call o' k' =>
    rw [hk] at h
    exact .inl h
  | pure op =>
    rw [hk] at h hobeys
    obtain ⟨hdef, hop⟩ := Bool.and_eq_true_iff.mp h
    have hpost : JobPost S task _ op := hobeys
    have hfailed := hpost.failed.mp (of_decide_eq_true hop)
    cases o with
    | netSend msg =>
      right
      obtain rfl := exec_netSend he
      have hneg : r < (0 : ℤ) := by simpa [jobProtocol] using hfailed
      simp [Agent.setsOut, hdef, hneg]
    | _ =>
      have hsend := JobPhase.send_before hp.obeys.1 (by simp)
      simp [jobProtocol, hsend] at hfailed

theorem calling_sched {ans : Ans} {pc : SchPc} {w : World} (hr : (agent S).Reachable s)
    (hstep : schedStep S s.sch ans s.w = some (pc, w)) (h : pc.calling S = true) :
    s.sch.calling S = true ∨ s.setsOut S (.sched ans) = true := by
  have hwork := Working.of_reachable hr
  cases hpc : s.sch with
  | clock task =>
    rw [hpc] at hstep
    cases ans with
    | time now =>
      cases hstep
      right
      simpa only [Agent.setsOut, hpc] using calling_clock h
    | _ => cases hstep
  | perform task now p =>
    rw [hpc] at hstep hwork
    obtain ⟨t, hp⟩ := hwork
    cases p with
    | pure op =>
      cases schedStep_move hstep
      exact .inl h
    | call o k =>
      obtain ⟨⟨r, w⟩, he, heq⟩ := Option.map_eq_some_iff.mp hstep
      cases heq
      exact calling_op hp he h
  | settle task now op =>
    rw [hpc] at hstep
    cases schedStep_move hstep with
    | netError => exact .inl (by simpa [SchPc.calling] using h)
    | _ => cases h
  | flush =>
    rw [hpc] at hstep
    cases schedStep_move hstep
    exact .inl h
  | _ =>
    rw [hpc] at hstep
    cases schedStep_move hstep <;> cases h

theorem calling_step (hr : (agent S).Reachable s) (hs : (agent S).step s a = some s')
    (h : s'.sch.calling S = true) : s.sch.calling S = true ∨ s.setsOut S a = true := by
  rcases Agent.sched_or hs with ⟨ans, pc, w, rfl, hstep, rfl⟩ | ha
  · exact calling_sched hr hstep h
  · obtain ⟨hsch, _⟩ := (Agent.step_move hs).unscheduled ha
    exact .inl (hsch ▸ h)

end Calling

section Lives

variable {S : Setup} {W : Wrapper} {l : Life}

theorem life_agent_step {l' : Life} {act : Act}
    (hs : (life S W).step l (.agent act) = some l') : l.enables act = true ∧
      ∃ s, (agent S).step l.agent act = some s ∧ l' = { l with agent := s } := by
  simp only [life, Life.step] at hs
  split_ifs at hs with hon
  obtain ⟨s, hstep, rfl⟩ := Option.map_eq_some_iff.mp hs
  exact ⟨hon, s, hstep, rfl⟩

/-- What `em_start` and the call that ends the agent have brought about. -/
structure LifeInv (S : Setup) (W : Wrapper) (l : Life) : Prop where
  agent : (agent S).Reachable l.agent
  calling : l.agent.sch.calling S = true → l.listed = true
  before : l.start ≠ .done → l.ends = .idle ∧ l.listed = false
  init : l.start = .insert ∨ l.start = .done → W.init = true → ∃ ret, l.inited = some ret ∧ 0 ≤ ret
  ended : l.listed = true → l.start = .done ∧ l.ends = .idle
  released : l.released = true → l.ends = .core

theorem LifeInv.starting {l' : Life} (h : LifeInv S W l) (hstart : l.start ≠ .done)
    (hstart' : l'.start ≠ .done) (hagent : l'.agent = l.agent) (hends : l'.ends = l.ends)
    (hlisted : l'.listed = l.listed) (hreleased : l'.released = l.released)
    (hinit : l'.start = .insert → W.init = true → ∃ ret, l'.inited = some ret ∧ 0 ≤ ret) :
    LifeInv S W l' where
  agent := hagent ▸ h.agent
  calling hc := by
    rw [hagent] at hc
    exact hlisted ▸ h.calling hc
  before _ := by
    rw [hends, hlisted]
    exact h.before hstart
  init hl := hinit (hl.resolve_right hstart')
  ended hl := by
    rw [hlisted, (h.before hstart).2] at hl
    cases hl
  released hr := by
    rw [hends]
    exact h.released (hreleased ▸ hr)

theorem LifeInv.startStep {l' : Life} {ret : ℤ} (h : LifeInv S W l)
    (hs : l.startStep W ret = some l') : LifeInv S W l' := by
  unfold Life.startStep at hs
  cases hstart : l.start with
  | schedStart | netStart =>
    rw [hstart] at hs
    have hne : l.start ≠ .done := by rw [hstart]; exact nofun
    cases hs
    split_ifs <;> exact h.starting hne nofun rfl rfl rfl rfl nofun
  | init =>
    rw [hstart] at hs
    have hne : l.start ≠ .done := by rw [hstart]; exact nofun
    cases hs
    split_ifs with hinit hneg
    · exact h.starting hne nofun rfl rfl rfl rfl nofun
    · exact h.starting hne nofun rfl rfl rfl rfl fun _ _ ↦ ⟨ret, rfl, Int.not_lt.mp hneg⟩
    · exact h.starting hne nofun rfl rfl rfl rfl fun _ hw ↦ absurd hw hinit
  | insert =>
    rw [hstart] at hs
    cases hs
    obtain ⟨hends, _⟩ := h.before (by rw [hstart]; exact nofun)
    exact ⟨h.agent, fun _ ↦ rfl, fun hne ↦ absurd rfl hne, fun _ ↦ h.init (.inl hstart),
      fun _ ↦ ⟨rfl, hends⟩, h.released⟩
  | failed | done =>
    rw [hstart] at hs
    cases hs

theorem LifeInv.endStep {l' : Life} (h : LifeInv S W l)
    (hquiet : l.listed = true → l.agent.sch.calling S = false) (hs : l.endStep W = some l') :
    LifeInv S W l' := by
  unfold Life.endStep at hs
  cases hends : l.ends with
  | idle =>
    rw [hends] at hs
    dsimp only at hs
    split_ifs at hs with hlisted
    cases hs
    have hdone := (h.ended hlisted).1
    refine ⟨h.agent, fun hc ↦ ?_, fun hne ↦ absurd hdone hne, h.init, nofun, fun hr ↦ ?_⟩
    · cases (hquiet hlisted).symm.trans hc
    · cases hends.symm.trans (h.released hr)
  | release =>
    rw [hends] at hs
    cases hs
    have hdone : l.start = .done := by
      by_contra hne
      cases hends.symm.trans (h.before hne).1
    refine ⟨h.agent, h.calling, fun hne ↦ absurd hdone hne, h.init, fun hl ↦ ?_, fun _ ↦ rfl⟩
    cases hends.symm.trans (h.ended hl).2
  | core =>
    rw [hends] at hs
    cases hs

theorem LifeInv.of_reach (h : (life S W).Reach (InLife S) l) : LifeInv S W l := by
  refine h.invariant ?_ ?_
  · exact ⟨.start, nofun, fun _ ↦ ⟨rfl, rfl⟩, by simp [life], nofun, nofun⟩
  intro l a l' _ hI hok hs
  cases a with
  | start ret => exact hI.startStep hs
  | ends => exact hI.endStep hok hs
  | agent a =>
    obtain ⟨_, s, hstep, rfl⟩ := life_agent_step hs
    refine ⟨.step hI.agent trivial hstep, fun hc ↦ ?_, hI.before, hI.init, hI.ended, hI.released⟩
    rcases calling_step hI.agent hstep hc with hc | hout
    · exact hI.calling hc
    · exact hok hout

/-- Where requests are performed and failed sends dealt with only while the
agent is on the list, every callback is started after `init` and before
`release`, and finds the agent on the list. -/
theorem callbacks_in_life (h : (life S W).Reach (InLife S) l) {c : Callback}
    (hc : l.agent.sch.Starts S c) : l.Ready W := by
  have hI := LifeInv.of_reach h
  have hlisted := hI.calling (hc.calling hI.agent)
  obtain ⟨hdone, hends⟩ := hI.ended hlisted
  refine ⟨hI.init (.inr hdone), hlisted, ?_⟩
  cases hreleased : l.released with
  | false => rfl
  | true => cases hends.symm.trans (hI.released hreleased)

def answering : List LifeAct :=
  (Sample.connect 3 ++ Sample.requestReport ++ Sample.performSend 6 ++
    [Act.sched .tick, .sched (.time (Sample.after 2000))]).map .agent

theorem callbacks_in_life_report : ∃ l,
    (life Sample.setup ⟨true, true⟩).Reach (InLife Sample.setup) l ∧
    l.agent.sch.Starts Sample.setup (.ueReport 0 1) ∧ l.Ready ⟨true, true⟩ := by
  have hr := (life Sample.setup ⟨true, true⟩).reach_get (InLife Sample.setup)
    (List.replicate 4 (.start 0) ++ answering) (by decide +kernel)
  exact ⟨_, hr, ⟨_, rfl⟩, callbacks_in_life hr ⟨_, rfl⟩⟩

/-- Both threads run, and `init` has not been called. -/
theorem callback_before_init : ¬ ∀ l, (life Sample.setup ⟨true, true⟩).Reachable l → ∀ c,
    l.agent.sch.Starts Sample.setup c → l.Ready ⟨true, true⟩ := by
  intro h
  have hr := (life Sample.setup ⟨true, true⟩).reach_get (fun _ _ ↦ True)
    (List.replicate 2 (.start 0) ++ answering) (by decide +kernel)
  obtain ⟨ret, hret, _⟩ := (h _ hr (.ueReport 0 1) ⟨_, rfl⟩).init rfl
  cases hret

end Lives

end EmpowerAgent
