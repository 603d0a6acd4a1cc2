import EmpowerAgent.Lifecycle

namespace EmpowerAgent

open Library (Machine)
open Library.Proc (Protocol Obeys)
open Proc Emproto

/-- What a procedure of the network thread has ready for the scheduler: the
memory of a task, and then the time at which it is issued. -/
inductive QueuePhase
  | idle
  | allocated
  | timed
  deriving DecidableEq, Repr

/-- The scheduler's lock is taken right after the clock has been read, and the
clock is read right after a successful allocation. -/
def queuePhases : Protocol Op Op.Res QueuePhase where
  allowed t o := match o with
    | .clockGettime => t = .allocated
    | .schedAddTask _ => t = .timed
    | _ => t ≠ .timed
  next _ o r := match o, r with
    | .malloc, some _ => .allocated
    | .clockGettime, _ => .timed
    | _, _ => .idle

def Left {α : Type} (t : QueuePhase) (_ : α) : Prop := t ≠ .timed

section Procedures

variable {E : Emproto} {t : QueuePhase}

theorem taskAlloc_phases (ht : t ≠ .timed) (type : TaskType) (interval res : ℤ) (trigger : Int32)
    (msg : Option Bytes) : Obeys queuePhases
      (fun t r ↦ t = if r.isSome then .allocated else .idle) t
      (taskAlloc type interval res trigger msg) := by
  refine ⟨ht, fun addr ↦ ?_⟩
  cases addr with
  | none => exact rfl
  | some addr =>
    cases msg with
    | none => exact rfl
    | some m =>
      refine ⟨by simp [queuePhases], fun buf ↦ ?_⟩
      cases buf with
      | none => exact ⟨by simp [queuePhases], fun _ ↦ rfl⟩
      | some buf => exact rfl

theorem trigAlloc_phases (ht : t ≠ .timed) (mod : UInt32) (type : ℤ) (inst : Int32) (msg : Bytes) :
    Obeys queuePhases Left t (trigAlloc mod type inst msg) := by
  refine ⟨ht, fun addr ↦ ?_⟩
  cases addr with
  | none => exact nofun
  | some addr =>
    refine ⟨by simp [queuePhases], fun buf ↦ ?_⟩
    cases buf with
    | none => exact ⟨by simp [queuePhases], fun _ ↦ nofun⟩
    | some buf => exact nofun

theorem schedAddTask_phases (task : Emtask) :
    Obeys queuePhases Left .allocated (schedAddTask task) :=
  ⟨rfl, fun _ ↦ ⟨rfl, fun _ ↦ nofun⟩⟩

theorem netQueueTask_phases (ht : t ≠ .timed) (type : TaskType) (interval res : ℤ) (msg : Bytes) :
    Obeys queuePhases Left t (netQueueTask type interval res msg) := by
  refine (taskAlloc_phases ht type interval res 0 (some msg)).bind fun t r h ↦ ?_
  subst h
  cases r with
  | none => exact nofun
  | some task => exact schedAddTask_phases task

theorem netAddTrigger_phases (ht : t ≠ .timed) {mod : UInt32} {type : ℤ} {inst : Int32}
    {msg : Bytes} {taskType : TaskType} {queued : Emtask → Proc ℤ}
    (hqueued : ∀ task, Obeys queuePhases Left .allocated (queued task)) :
    Obeys queuePhases Left t (netAddTrigger mod type inst msg taskType queued) := by
  have hidle : QueuePhase.idle ≠ .timed := nofun
  refine (trigAlloc_phases ht _ _ _ _).bind fun t r ht ↦ ?_
  cases r with
  | none => exact ⟨ht, fun _ ↦ nofun⟩
  | some trig =>
    refine ⟨ht, fun id ↦ ⟨hidle, fun _ ↦ ?_⟩⟩
    refine (taskAlloc_phases hidle taskType 1 0 id none).bind fun t r h ↦ ?_
    subst h
    cases r with
    | none => exact ⟨hidle, fun _ ↦ ⟨hidle, fun _ ↦ ⟨hidle, fun _ ↦ nofun⟩⟩⟩
    | some task => exact hqueued task

theorem netTeReport_phases (addType remType : ℤ) (taskType : TaskType) (msg : Bytes) :
    Obeys queuePhases Left .idle (netTeReport E addType remType taskType msg) := by
  have hidle : QueuePhase.idle ≠ .timed := nofun
  rw [netTeReport_eq]
  split_ifs
  · exact netAddTrigger_phases hidle schedAddTask_phases
  · exact ⟨hidle, fun _ ↦ hidle⟩

theorem ueMeasureDel_phases (ht : t ≠ .timed) (mod : UInt32) (rrc : ℕ → UeMeasurement) (n : ℕ) :
    Obeys queuePhases Left t (ueMeasureDel mod rrc n) := by
  induction n generalizing t with
  | zero => exact ht
  | succ n ih => exact ⟨ht, fun _ ↦ ih nofun⟩

theorem ueMeasureAdd_phases (ht : t ≠ .timed) (mod : UInt32) (rrc : ℕ → UeMeasurement)
    (msg : Bytes) (n : ℕ) : Obeys queuePhases Left t (ueMeasureAdd mod rrc msg n) := by
  induction n generalizing t with
  | zero => exact ht
  | succ n ih =>
    rw [ueMeasureAdd_succ]
    refine netAddTrigger_phases ht fun task ↦ ?_
    exact (schedAddTask_phases task).bind fun _ _ ht ↦ ih ht

theorem netProcessMessage_phases (msg : Bytes) :
    Obeys queuePhases Left .idle (netProcessMessage E msg) := by
  have hidle : QueuePhase.idle ≠ .timed := nofun
  refine netProcessMessage_cases (fun _ ↦ hidle) ?_ ?_ ?_
  · exact fun type interval res _ ↦ netQueueTask_phases hidle type interval res msg
  · exact fun addType remType type _ ↦ netTeReport_phases addType remType type msg
  · unfold netTeUeMeasure
    dsimp only
    split_ifs
    · exact ueMeasureDel_phases hidle _ _ _
    · exact ueMeasureAdd_phases hidle _ _ _ _

end Procedures

/-- The next thing that the procedure does is to read the time for a task, or
to take the scheduler's lock. -/
def Proc.queues {α : Type} : Proc α → Bool
  | .call .clockGettime _ | .call (.schedAddTask _) _ => true
  | _ => false

def NetPc.queues : NetPc → Bool
  | .process p => Proc.queues p
  | _ => false

namespace Agent

variable (s : Agent)

def allocates : Act → Bool
  | .net a => match s.net.pc, a with
    | .hello, .time _ => true
    | .process (.call .malloc k), .ok true => Proc.queues (k (some s.w.heap))
    | _, _ => false
  | _ => false

/-- The step locks the scheduler's spinlock, and reads or changes its lists. -/
def usesSched : Act → Bool
  | .net a => match s.net.pc, a with
    | .hello, .time _ => true
    | .process (.call (.schedAddTask _) _), _ => true
    | _, _ => false
  | .sched _ => match s.sch with
    | .take | .settle _ _ _ | .back | .drain => true
    | _ => false
  | .api (.emSend _) _ => true
  | _ => false

end Agent

def RelPc.lockGone : RelPc → Bool
  | .netStop | .joinNet | .flush | .done => true
  | _ => false

/-- The lock is destroyed while the network thread is about to take it, or
that thread gets the memory of a task when the lock has been destroyed. -/
def Life.queuesLate (l : Life) : LifeAct → Bool
  | .agent .release => l.agent.rel = .joinSched && l.agent.net.pc.queues
  | .agent a => l.agent.rel.lockGone && l.agent.allocates a
  | _ => false

def QueuedInTime (l : Life) (a : LifeAct) : Prop := l.queuesLate a = false

instance (l : Life) (a : LifeAct) : Decidable (QueuedInTime l a) :=
  inferInstanceAs (Decidable (_ = false))

def Life.strays (l : Life) : LifeAct → Bool
  | .agent a => l.agent.rel.lockGone && l.agent.usesSched a
  | _ => false

section Phases

variable {S : Setup} {s s' : Agent} {a : Ans}

def Phased : NetPc → Prop
  | .process p => ∃ t, Obeys queuePhases Left t p
  | _ => True

theorem Phased.step {E : Emproto} {t t' : NetThread} {w w' : World} (h : Phased t.pc)
    (hm : NetMove E t w t' w') : Phased t'.pc := by
  cases hm with
  | recvMessage => exact ⟨.idle, netProcessMessage_phases _⟩
  | handler he =>
    obtain ⟨t, hp⟩ := h
    exact ⟨_, hp.2 _⟩
  | again hpc | connectFail hpc => rcases hpc with rfl | rfl <;> trivial
  | _ => trivial

theorem phased (h : (agent S).Reachable s) : Phased s.net.pc := by
  refine h.invariant (I := fun s ↦ Phased s.net.pc) ?_ ?_
  · exact trivial
  intro s a s' _ hI _ hs
  cases Agent.step_move hs with
  | net hm => exact hI.step hm
  | sched | api => exact hI
  | release hm => cases hm <;> exact hI

theorem queues_of_idle {p : Proc ℤ} (h : Obeys queuePhases Left .idle p) :
    Proc.queues p = false := by
  cases p with
  | pure x => rfl
  | call o k =>
    cases o with
    | clockGettime | schedAddTask => cases h.1
    | _ => rfl

theorem NetMove.queues {E : Emproto} {t t' : NetThread} {w w' : World} (hm : NetMove E t w t' w')
    (ht : ∀ p, t.pc ≠ .process p) : t'.pc.queues = false := by
  cases hm with
  | recvMessage => exact queues_of_idle (netProcessMessage_phases _)
  | handler => exact absurd rfl (ht _)
  | again hpc | connectFail hpc => rcases hpc with rfl | rfl <;> rfl
  | _ => rfl

theorem queues_step (hr : (agent S).Reachable s) (hs : (agent S).step s (.net a) = some s')
    (hpc : s.net.pc.queues = false) (ha : s.allocates (.net a) = false) :
    s'.net.pc.queues = false := by
  have hp := phased hr
  rcases s with ⟨w, ⟨pc, e⟩, sch, rel⟩
  have hm : Move S ⟨w, ⟨pc, e⟩, sch, rel⟩ (.net a) s' := Agent.step_move hs
  cases pc with
  | process p =>
    cases p with
    | pure x =>
      rw [Agent.handler_done hs rfl]
      rfl
    | call o k =>
      obtain ⟨r, w', he, rfl⟩ := Agent.handler_step hs rfl
      obtain ⟨t, hallowed, hk⟩ := hp
      have hrest := hk r
      cases o with
      | clockGettime | schedAddTask => cases hpc
      | malloc =>
        cases r with
        | none => exact queues_of_idle hrest
        | some addr =>
          cases a with
          | ok b =>
            cases b <;> cases he
            exact ha
          | _ => cases he
      | _ => exact queues_of_idle hrest
  | _ =>
    cases hm with
    | net hm => exact hm.queues fun p ↦ nofun

end Phases

section Releases

variable {S : Setup} {W : Wrapper} {l l' : Life} {a : LifeAct}

structure TeardownInv (S : Setup) (l : Life) : Prop where
  agent : (agent S).Reachable l.agent
  before : l.start ≠ .done → l.ends = .idle ∧ l.listed = false
  ended : l.listed = true → l.start = .done ∧ l.ends = .idle
  began : l.agent.rel ≠ .idle → l.start = .failed ∨ l.ends = .core
  joined : l.agent.rel.lockGone = true → l.agent.sch = .exit
  netUp : l.netUp = false → l.agent.net.pc = .next

theorem TeardownInv.unlisted (h : TeardownInv S l) (hrel : l.agent.rel ≠ .idle) :
    l.listed = false := by
  cases hlisted : l.listed with
  | false => rfl
  | true =>
    obtain ⟨hstart, hends⟩ := h.ended hlisted
    rcases h.began hrel with hfailed | hcore
    · cases hstart.symm.trans hfailed
    · cases hends.symm.trans hcore

theorem TeardownInv.starting (h : TeardownInv S l) (hrel : l.agent.rel = .idle)
    (hagent : l'.agent = l.agent) (hends : l'.ends = .idle)
    (hlisted : l'.listed = true ↔ l'.start = .done) (hup : l'.netUp = false → l.netUp = false) :
    TeardownInv S l' where
  agent := hagent ▸ h.agent
  before hne := ⟨hends, by simpa using mt hlisted.mp hne⟩
  ended hl := ⟨hlisted.mp hl, hends⟩
  began hne := absurd (hagent ▸ hrel) hne
  joined := hagent ▸ h.joined
  netUp h' := hagent ▸ h.netUp (hup h')

theorem TeardownInv.startStep {ret : ℤ} (h : TeardownInv S l) (hs : l.startStep W ret = some l') :
    TeardownInv S l' := by
  have hidle (hstart : l.start ≠ .failed) (hne : l.start ≠ .done) : l.agent.rel = .idle := by
    by_contra hrel
    rcases h.began hrel with hfailed | hcore
    · exact hstart hfailed
    · cases (h.before hne).1.symm.trans hcore
  unfold Life.startStep at hs
  cases hstart : l.start with
  | schedStart | netStart | init =>
    rw [hstart] at hs
    obtain ⟨hends, hlisted⟩ := h.before (by simp [hstart])
    have hrel := hidle (by simp [hstart]) (by simp [hstart])
    cases hs
    split_ifs <;> exact h.starting hrel rfl hends (by simp [hlisted]) (by simp)
  | insert =>
    rw [hstart] at hs
    have hrel := hidle (by simp [hstart]) (by simp [hstart])
    obtain ⟨hends, _⟩ := h.before (by simp [hstart])
    cases hs
    exact h.starting hrel rfl hends (by simp) id
  | failed | done =>
    rw [hstart] at hs
    cases hs

theorem TeardownInv.endStep (h : TeardownInv S l) (hs : l.endStep W = some l') :
    TeardownInv S l' := by
  unfold Life.endStep at hs
  cases hends : l.ends with
  | idle =>
    rw [hends] at hs
    dsimp only at hs
    split_ifs at hs with hlisted
    cases hs
    obtain ⟨hstart, _⟩ := h.ended hlisted
    refine ⟨h.agent, fun hne ↦ absurd hstart hne, nofun, fun hrel ↦ ?_, h.joined, h.netUp⟩
    cases hlisted.symm.trans (h.unlisted hrel)
  | release =>
    rw [hends] at hs
    cases hs
    have hstart : l.start = .done := by
      by_contra hne
      cases hends.symm.trans (h.before hne).1
    refine ⟨h.agent, fun hne ↦ absurd hstart hne, fun hl ↦ ?_, fun _ ↦ .inr rfl, h.joined, h.netUp⟩
    cases hends.symm.trans (h.ended hl).2
  | core =>
    rw [hends] at hs
    cases hs

theorem releaseStep_gone {s s' : Agent} (hs : s.releaseStep = some s')
    (hgone : s'.rel.lockGone = true) : s'.sch = s.sch ∧ s'.net = s.net ∧
      (s.rel.lockGone = true ∨ s.rel = .joinSched ∧ s.sch = .exit) := by
  obtain ⟨hsch, hnet, hnext⟩ := releaseStep_next hs
  refine ⟨hsch, hnet, ?_⟩
  rcases hnext with ⟨_, hrel⟩ | ⟨hrel, hexit, _⟩ | ⟨hrel, _⟩ | ⟨hrel, _⟩ | ⟨hrel, _⟩
  · rw [hrel] at hgone
    cases hgone
  · exact .inr ⟨hrel, hexit⟩
  all_goals exact .inl (by rw [hrel]; rfl)

theorem releaseStep_destroys {s s' : Agent} (hs : s.releaseStep = some s')
    (hrel : s.rel = .joinSched) : s'.rel.lockGone = true ∧ s'.net = s.net := by
  obtain ⟨_, hnet, hnext⟩ := releaseStep_next hs
  simp only [hrel, reduceCtorEq, false_and, or_false, false_or, true_and] at hnext
  exact ⟨by rw [hnext.2]; rfl, hnet⟩

theorem teardownInv_agent {act : Act} {s : Agent} (h : TeardownInv S l)
    (hon : l.enables act = true) (hs : (agent S).step l.agent act = some s) :
    TeardownInv S { l with agent := s } := by
  have hm : Move S l.agent act s := Agent.step_move hs
  have hr : (agent S).Reachable s := .step h.agent trivial hs
  cases hm with
  | net hm =>
    refine ⟨hr, h.before, h.ended, h.began, h.joined, fun hup ↦ ?_⟩
    cases hup.symm.trans hon
  | sched _ hm =>
    refine ⟨hr, h.before, h.ended, h.began, fun hgone ↦ ?_, h.netUp⟩
    rw [h.joined hgone] at hm
    cases hm
  | api => exact ⟨hr, h.before, h.ended, h.began, h.joined, h.netUp⟩
  | release hm =>
    have hwhere : l.start = .failed ∨ l.ends = .core := by simpa [Life.enables] using hon
    refine ⟨hr, h.before, h.ended, fun _ ↦ hwhere, ?_, ?_⟩
    · intro hgone
      obtain ⟨hsch, _, hbefore | ⟨_, hexit⟩⟩ := releaseStep_gone hs hgone
      · exact hsch.trans (h.joined hbefore)
      · exact hsch.trans hexit
    · cases hm <;> exact h.netUp

theorem startStep_agent {ret : ℤ} (hs : l.startStep W ret = some l') : l'.agent = l.agent := by
  unfold Life.startStep at hs
  split at hs <;> cases hs <;> first | rfl | split_ifs <;> rfl

theorem endStep_agent (hs : l.endStep W = some l') : l'.agent = l.agent := by
  unfold Life.endStep at hs
  split at hs
  · split_ifs at hs
    cases hs
    rfl
  · cases hs
    rfl
  · cases hs

theorem TeardownInv.of_reachable (h : (life S W).Reachable l) : TeardownInv S l := by
  refine h.invariant ?_ ?_
  · exact ⟨.start, fun _ ↦ ⟨rfl, rfl⟩, nofun, fun hrel ↦ absurd rfl hrel, nofun, fun _ ↦ rfl⟩
  intro l a l' _ hI _ hs
  cases a with
  | start ret => exact hI.startStep hs
  | ends => exact hI.endStep hs
  | agent act =>
    obtain ⟨hon, s, hstep, rfl⟩ := life_agent_step hs
    exact teardownInv_agent hI hon hstep

theorem apart_of_reach (h : (life S W).Reach QueuedInTime l)
    (hgone : l.agent.rel.lockGone = true) : l.agent.net.pc.queues = false := by
  revert hgone
  refine h.invariant
    (I := fun l ↦ l.agent.rel.lockGone = true → l.agent.net.pc.queues = false) ?_ ?_
  · exact fun _ ↦ rfl
  intro l a l' hr hI hok hs hgone
  have hinv := TeardownInv.of_reachable hr.reachable
  cases a with
  | start ret => exact (startStep_agent hs) ▸ hI (startStep_agent hs ▸ hgone)
  | ends => exact (endStep_agent hs) ▸ hI (endStep_agent hs ▸ hgone)
  | agent act =>
    obtain ⟨hon, s, hstep, rfl⟩ := life_agent_step hs
    have hm : Move S l.agent act s := Agent.step_move hstep
    cases hm with
    | @net a _ _ _ =>
      have hgone' : l.agent.rel.lockGone = true := hgone
      have halloc : l.agent.allocates (.net a) = false := by
        simpa [QueuedInTime, Life.queuesLate, hgone'] using hok
      exact queues_step hinv.agent hstep (hI hgone) halloc
    | sched | api => exact hI hgone
    | release =>
      obtain ⟨_, hnet, hbefore | ⟨hrel, _⟩⟩ := releaseStep_gone hstep hgone
      · exact hnet ▸ hI hbefore
      · rw [hnet]
        simpa [QueuedInTime, Life.queuesLate, hrel] using hok

theorem uses_or_queues {s : Agent} {a : Ans} (h : s.usesSched (.net a) = true) :
    s.allocates (.net a) = true ∨ s.net.pc.queues = true := by
  unfold Agent.usesSched at h
  dsimp only at h
  split at h
  · rename_i hpc
    left
    simp only [Agent.allocates, hpc]
  · rename_i hpc
    right
    rw [hpc]
    rfl
  · cases h

theorem strays_eq_false (h : (life S W).Reach QueuedInTime l) (hok : QueuedInTime l a)
    (hs : (life S W).step l a = some l') : l.strays a = false := by
  cases a with
  | start | ends => rfl
  | agent act =>
    by_contra hstray
    obtain ⟨hgone, huses⟩ : l.agent.rel.lockGone = true ∧ l.agent.usesSched act = true := by
      simpa [Life.strays] using hstray
    have hI := TeardownInv.of_reachable h.reachable
    obtain ⟨hon, s, hstep, rfl⟩ := life_agent_step hs
    cases act with
    | net a =>
      rcases uses_or_queues huses with halloc | hqueues
      · simp [QueuedInTime, Life.queuesLate, hgone, halloc] at hok
      · cases (apart_of_reach h hgone).symm.trans hqueues
    | sched ans =>
      have hm : Move S l.agent (.sched ans) s := Agent.step_move hstep
      cases hm with
      | sched _ hm =>
        rw [hI.joined hgone] at hm
        cases hm
    | api =>
      have hrel : l.agent.rel ≠ .idle := by
        intro hidle
        rw [hidle] at hgone
        cases hgone
      cases (hI.unlisted hrel).symm.trans hon
    | release => cases huses

theorem handler_next {ans : Ans} {o : Op} {k : o.Res → Proc ℤ} {r : o.Res} {w : World}
    (hup : l.netUp = true) (hpc : l.agent.net.pc = .process (.call o k))
    (he : exec o ans l.agent.w = some (r, w)) :
    (life S W).step l (.agent (.net ans)) = some { l with
      agent := { l.agent with net := ⟨.process (k r), o.errno r l.agent.net.errno⟩, w := w } } := by
  have hstep : netStep S.proto l.agent.net ans l.agent.w =
      some (⟨.process (k r), o.errno r l.agent.net.errno⟩, w) := by
    unfold netStep
    rw [hpc]
    exact Option.map_eq_some_iff.mpr ⟨_, he, rfl⟩
  simp only [life, Life.step, Life.enables, hup, ↓reduceIte, Agent.step, hstep, Option.map_some]

theorem adds_strays {task : Emtask} {k : ℤ → Proc ℤ} (hup : l.netUp = true)
    (hgone : l.agent.rel.lockGone = true)
    (hpc : l.agent.net.pc = .process (.call (.schedAddTask task) k)) :
    ∃ b l', (life S W).step l b = some l' ∧ l.strays b = true := by
  refine ⟨.agent (.net .tick), _, handler_next hup hpc rfl, ?_⟩
  simp only [Life.strays, hgone, Agent.usesSched, hpc, Bool.and_self]

theorem queues_strays (h : (life S W).Reachable l) (hgone : l.agent.rel.lockGone = true)
    (hqueues : l.agent.net.pc.queues = true) : ∃ l₂ b l₃, ((life S W).restart l).Reachable l₂ ∧
      (life S W).step l₂ b = some l₃ ∧ l₂.strays b = true := by
  have hI := TeardownInv.of_reachable h
  have hphased := phased hI.agent
  have hup : l.netUp = true := by
    cases hup : l.netUp with
    | true => rfl
    | false =>
      rw [hI.netUp hup] at hqueues
      cases hqueues
  cases hpc : l.agent.net.pc with
  | process p =>
    rw [hpc] at hqueues hphased
    obtain ⟨t, hp⟩ := hphased
    cases p with
    | pure x => cases hqueues
    | call o k =>
      cases o with
      | schedAddTask task =>
        obtain ⟨b, l', hs, hstray⟩ := adds_strays hup hgone hpc
        exact ⟨l, b, l', .start, hs, hstray⟩
      | clockGettime =>
        have hclock : exec .clockGettime (.time ⟨0, 0⟩) l.agent.w = some (⟨0, 0⟩, l.agent.w) := rfl
        have hs := handler_next (S := S) (W := W) hup hpc hclock
        have hnext := hp.2 (⟨0, 0⟩ : Timespec)
        cases hk : k ⟨0, 0⟩ with
        | pure x =>
          rw [hk] at hnext
          exact absurd rfl hnext
        | call o' k' =>
          rw [hk] at hnext hs
          cases o' with
          | schedAddTask task =>
            obtain ⟨b, l', hs', hstray⟩ := adds_strays (l := { l with
              agent := { l.agent with
                net := ⟨.process (.call (.schedAddTask task) k'), l.agent.net.errno⟩ } })
              hup hgone rfl
            exact ⟨_, b, l', Machine.restart_step hs, hs', hstray⟩
          | clockGettime => cases hnext.1
          | _ => exact absurd rfl hnext.1
      | _ => cases hqueues
  | _ =>
    rw [hpc] at hqueues
    cases hqueues

theorem late_strays (h : (life S W).Reachable l) (hs : (life S W).step l a = some l')
    (hlate : l.queuesLate a = true) : ∃ l₂ b l₃, ((life S W).restart l).Reachable l₂ ∧
      (life S W).step l₂ b = some l₃ ∧ l₂.strays b = true := by
  have hnext (hgone : l'.agent.rel.lockGone = true) (hq : l'.agent.net.pc.queues = true) :
      ∃ l₂ b l₃, ((life S W).restart l).Reachable l₂ ∧
        (life S W).step l₂ b = some l₃ ∧ l₂.strays b = true := by
    obtain ⟨l₂, b, l₃, hr, hb⟩ := queues_strays (.step h trivial hs) hgone hq
    exact ⟨l₂, b, l₃, .restart (M := (life S W).restart l) (Machine.restart_step hs) hr, hb⟩
  cases a with
  | start | ends => cases hlate
  | agent act =>
    obtain ⟨-, s, hstep, rfl⟩ := life_agent_step hs
    cases act with
    | net a =>
      obtain ⟨hgone, halloc⟩ := Bool.and_eq_true_iff.mp hlate
      unfold Agent.allocates at halloc
      dsimp only at halloc
      split at halloc
      · rename_i hpc
        refine ⟨l, _, _, .start, hs, ?_⟩
        simp only [Life.strays, hgone, Agent.usesSched, hpc, Bool.and_self]
      · rename_i k hpc
        obtain ⟨r, w, he, rfl⟩ := Agent.handler_step hstep hpc
        cases he
        exact hnext hgone halloc
      · cases halloc
    | release =>
      obtain ⟨hrel, hq⟩ := Bool.and_eq_true_iff.mp hlate
      obtain ⟨hgone, hnet⟩ := releaseStep_destroys hstep (of_decide_eq_true hrel)
      exact hnext hgone (hnet ▸ hq)
    | sched | api =>
      simp [Life.queuesLate, Agent.allocates] at hlate

/-- No thread uses the scheduler when its lock has been destroyed, in runs in
which the network thread is not about to queue a task at that moment and gets
no memory for one later. In any other run it does, or comes to do so. -/
theorem lock_outlives_use :
    (∀ l a l', (life S W).Reach QueuedInTime l → QueuedInTime l a →
      (life S W).step l a = some l' → l.strays a = false) ∧
    ∀ l a l', (life S W).Reachable l → (life S W).step l a = some l' → ¬ QueuedInTime l a →
      ∃ l₂ b l₃, ((life S W).restart l).Reachable l₂ ∧ (life S W).step l₂ b = some l₃ ∧
        l₂.strays b = true := by
  refine ⟨fun l a l' h hok hs ↦ strays_eq_false h hok hs, fun l a l' h hs hlate ↦ ?_⟩
  exact late_strays h hs (by simpa [QueuedInTime] using hlate)

def stopSched : List LifeAct :=
  [.ends, .ends] ++ [Act.release, .sched .tick, .sched .tick, .release].map .agent

theorem lock_outlives_use_idle : ∃ l l',
    (life Sample.setup ⟨true, true⟩).Reach QueuedInTime l ∧ l.agent.rel.lockGone = true ∧
    (life Sample.setup ⟨true, true⟩).step l (.agent (.net .tick)) = some l' ∧
    l.strays (.agent (.net .tick)) = false := by
  have hr := (life Sample.setup ⟨true, true⟩).reach_get QueuedInTime
    (List.replicate 4 (.start 0) ++ ((Sample.connect 3).take 7).map .agent ++ stopSched)
    (by decide +kernel)
  have hstep (l : Life) (h : (life Sample.setup ⟨true, true⟩).Reach QueuedInTime l)
      (hgone : l.agent.rel.lockGone = true) (hok : QueuedInTime l (.agent (.net .tick)))
      (hs : ((life Sample.setup ⟨true, true⟩).step l (.agent (.net .tick))).isSome = true) :=
    lock_outlives_use.1 l _ _ h hok (Option.eq_some_of_isSome hs)
  exact ⟨_, _, hr, by decide +kernel, Option.eq_some_of_isSome (by decide +kernel),
    hstep _ hr (by decide +kernel) (by decide +kernel) (by decide +kernel)⟩

def lateRun : List LifeAct :=
  List.replicate 4 (.start 0) ++ ((Sample.connect 3).take 5).map .agent ++ stopSched

theorem lock_destroyed_early : ¬ ∀ l a l', (life Sample.setup ⟨true, true⟩).Reachable l →
    (life Sample.setup ⟨true, true⟩).step l a = some l' → l.strays a = false := by
  intro h
  have hr := (life Sample.setup ⟨true, true⟩).reach_get (fun _ _ ↦ True) lateRun
    (by decide +kernel)
  have hqueue (l : Life) (hr : (life Sample.setup ⟨true, true⟩).Reachable l)
      (hs : ((life Sample.setup ⟨true, true⟩).step l
        (.agent (.net (.time (Sample.after 0))))).isSome = true) :=
    h l _ _ hr (Option.eq_some_of_isSome hs)
  exact absurd (hqueue _ hr (by decide +kernel)) (by decide +kernel)

end Releases

end EmpowerAgent
