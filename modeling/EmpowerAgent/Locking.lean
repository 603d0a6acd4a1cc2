import EmpowerAgent.System

namespace EmpowerAgent

open Library

/-- The order of the locks: the core comes before the agents, of which no
thread ever holds two locks. -/
def Lock.rank : Lock → ℕ
  | .coreMain => 0
  | .coreAgents => 1
  | .sched _ | .trig _ | .net _ => 2

namespace ThreadId

/-- Callers join the threads of agents, which join none. -/
def level : ThreadId → ℕ
  | .caller _ => 1
  | .sched _ | .net _ => 0

def fits : ThreadId → Point → Prop
  | .caller _, .call _ | .net _, .net _ _ | .sched _, .sched _ _ => True
  | _, _ => False

end ThreadId

namespace Prog

abbrev Keeps {α : Type} (post : List Lock → α → Prop) (t : ThreadId) (held : List Lock)
    (p : Prog α) : Prop :=
  Locks.Keeps Lock.rank ThreadId.level ThreadId.fits ThreadId.entry post t held p

/-- The thread holds the same locks at the end as at the beginning. -/
abbrev Neutral {α : Type} (t : ThreadId) (held : List Lock) (p : Prog α) : Prop :=
  Keeps (fun held' _ ↦ held' = held) t held p

variable {α β : Type} {post : List Lock → β → Prop} {t : ThreadId} {held : List Lock} {l : Lock}

def Before (l : Lock) (held : List Lock) : Prop := ∀ l' ∈ held, l'.rank < l.rank

section Rules

theorem Neutral.bind {p : Prog α} {f : α → Prog β} (h : Neutral t held p)
    (hf : ∀ x, Keeps post t held (f x)) : Keeps post t held (p >>= f) :=
  Library.Proc.Obeys.bind h fun held' x hheld ↦ by subst hheld; exact hf x

theorem keeps_lock {f : Unit → Prog β} (hl : Before l held)
    (hf : Keeps post t (l :: held) (f ())) : Keeps post t held (lock l >>= f) :=
  ⟨hl, fun _ ↦ hf⟩

theorem keeps_unlock {f : Unit → Prog β} (hl : Before l held)
    (hf : Keeps post t held (f ())) : Keeps post t (l :: held) (unlock l >>= f) := by
  refine ⟨List.mem_cons_self .., fun _ ↦ ?_⟩
  have hnot : l ∉ held := fun hmem ↦ Nat.lt_irrefl _ (hl l hmem)
  have hheld : (l :: held).filter (· ≠ l) = held := by
    rw [List.filter_cons_of_neg (by simp), List.filter_eq_self]
    rintro l' hmem
    have hne : l' ≠ l := fun heq ↦ hnot (heq ▸ hmem)
    simpa using hne
  change Keeps post t ((l :: held).filter (· ≠ l)) (f ())
  rwa [hheld]

theorem neutral_mem (i : Access) : Neutral t held (mem i) := ⟨trivial, fun _ ↦ rfl⟩

theorem neutral_locked (hl : Before l held) (i : Access) : Neutral t held (locked l i) := by
  refine keeps_lock hl ?_
  refine (neutral_mem i).bind fun r ↦ ?_
  exact keeps_unlock hl rfl

theorem neutral_logMessage : Neutral t held logMessage :=
  (neutral_mem _).bind fun _ ↦ neutral_mem _

end Rules

section Agents

variable {p : ℕ}

def Core (held : List Lock) : Prop := ∀ l ∈ held, l.rank < 2

theorem schedAddTask_neutral (hc : Core held) (task : Emtask) :
    Neutral t held (schedAddTask p task) := by
  refine keeps_lock hc ?_
  refine (neutral_mem _).bind fun b ↦ ?_
  split_ifs
  · exact keeps_unlock hc rfl
  · refine (neutral_mem _).bind fun _ ↦ ?_
    exact keeps_unlock hc rfl

theorem trigDel_neutral (hc : Core held) (o : Op) (found : Emtri → Bool) (notFound : o.Res) :
    Neutral t held (trigDel p o found notFound) := by
  refine keeps_lock hc ?_
  refine (neutral_mem _).bind fun ts ↦ ?_
  split_ifs
  · refine (neutral_mem _).bind fun r ↦ ?_
    exact keeps_unlock hc rfl
  · exact keeps_unlock hc rfl

theorem trigFind_neutral (hc : Core held) (found : Emtri → Bool) :
    Neutral t held (trigFind p found) := by
  refine keeps_lock hc ?_
  refine (neutral_mem _).bind fun ts ↦ ?_
  split
  · exact keeps_unlock hc rfl
  · exact keeps_unlock hc rfl

theorem section_neutral (hc : Core held) (o : Op) : Neutral t held (section_ p o) := by
  cases o with
  | schedAddTask task => exact schedAddTask_neutral hc task
  | trigAdd trig => exact neutral_locked (l := .trig p) hc _
  | netNextSeq => exact neutral_locked (l := .net p) hc _
  | trigDelById | trigDelByInst => exact trigDel_neutral hc _ _ _
  | trigFindById => exact trigFind_neutral hc _
  | emlog => exact neutral_logMessage
  | _ => exact neutral_mem _

theorem expand_neutral (hc : Core held) (q : EmpowerAgent.Proc α) :
    Neutral t held (q.expand (section_ p)) :=
  Library.Proc.Obeys.expand (fun o ↦ section_neutral hc o) q

end Agents

section Core

variable {p : ℕ}

theorem withAgent_neutral {body : ℕ → Prog ℤ} (hbody : ∀ p, Neutral t [.coreAgents] (body p))
    (id : UInt64) (notFound : ℤ) : Neutral t [] (withAgent id notFound body) := by
  have hl : Before .coreAgents [] := List.forall_mem_nil _
  refine keeps_lock hl ?_
  refine (neutral_mem _).bind fun as ↦ ?_
  split
  · exact keeps_unlock hl rfl
  · refine (hbody _).bind fun s ↦ ?_
    exact keeps_unlock hl rfl

theorem query_neutral (q : Query) : Neutral t [] (query q) := by
  have hc : Core [.coreAgents] := by simp [Core, Lock.rank]
  cases q with
  | emSend id msg =>
    simp only [query]
    split_ifs
    · rfl
    · exact withAgent_neutral (fun p ↦ expand_neutral hc _) ..
  | emHasTrigger id tid =>
    simp only [query]
    refine withAgent_neutral (fun p ↦ ?_) id 0
    exact (trigFind_neutral hc _).bind fun _ ↦ rfl
  | emDelTrigger id tid =>
    simp only [query]
    refine withAgent_neutral (fun p ↦ ?_) id 0
    exact (trigDel_neutral hc _ _ _).bind fun _ ↦ rfl
  | emIsConnected id => exact withAgent_neutral (fun p ↦ neutral_mem (.status p)) id 0

theorem queries_neutral (qs : List Query) : Neutral t [] (queries qs) := by
  induction qs with
  | nil => rfl
  | cons q qs ih => exact (query_neutral q).bind fun _ ↦ ih

theorem wrapper_neutral : Neutral t [] wrapper := (neutral_mem _).bind fun qs ↦ queries_neutral qs

theorem within_neutral (o : Op) : Neutral t [] (within p o) := by
  cases o with
  | callback c => exact (neutral_mem _).bind fun _ ↦ wrapper_neutral
  | _ => exact section_neutral (p := p) (List.forall_mem_nil _) _

theorem netConnected_neutral : Neutral t [] (netConnected p) := by
  refine (expand_neutral (List.forall_mem_nil _) _).bind fun h ↦ ?_
  cases h with
  | none => rfl
  | some h => exact expand_neutral (List.forall_mem_nil _) _

end Core

section Callers

variable {p n : ℕ}

theorem coreReleaseAgent_neutral : Neutral (.caller n) [] (coreReleaseAgent p) := by
  have hjoin (u : ThreadId) (hu : u.level = 0) : Neutral (.caller n) [] (join u) :=
    ⟨⟨rfl, by rw [hu]; exact Nat.one_pos⟩, fun _ ↦ rfl⟩
  refine Neutral.bind ((neutral_mem _).bind fun _ ↦ hjoin (.sched p) rfl) fun _ ↦ ?_
  refine Neutral.bind ((neutral_mem _).bind fun _ ↦ hjoin (.net p) rfl) fun _ ↦ ?_
  exact neutral_locked (List.forall_mem_nil _) _

theorem emTerminateAgent_neutral (id : UInt64) : Neutral (.caller n) [] (emTerminateAgent id) := by
  have hl : Before .coreAgents [] := List.forall_mem_nil _
  refine keeps_lock hl ?_
  refine (neutral_mem _).bind fun as ↦ ?_
  split
  · exact keeps_unlock hl rfl
  · refine (neutral_mem _).bind fun _ ↦ ?_
    refine keeps_unlock hl ?_
    refine wrapper_neutral.bind fun _ ↦ ?_
    exact coreReleaseAgent_neutral.bind fun _ ↦ rfl

theorem pthreadCreate_neutral {u : ThreadId} (hu : u.fits u.entry) : Neutral (.caller n) [] (do
    if ← mem .pthreadCreate then do
      create u
      return 0
    else do
      logMessage
      return (-1 : ℤ)) := by
  refine (neutral_mem _).bind fun b ↦ ?_
  split_ifs
  · exact ⟨hu, fun _ ↦ rfl⟩
  · exact neutral_logMessage.bind fun _ ↦ rfl

theorem startAgent_neutral (id : UInt64) : Neutral (.caller n) [] (startAgent p id) := by
  refine (pthreadCreate_neutral (u := .sched p) trivial).bind fun s ↦ ?_
  split_ifs
  · refine neutral_logMessage.bind fun _ ↦ ?_
    exact coreReleaseAgent_neutral.bind fun _ ↦ rfl
  · refine (pthreadCreate_neutral (u := .net p) trivial).bind fun s ↦ ?_
    split_ifs
    · refine neutral_logMessage.bind fun _ ↦ ?_
      exact coreReleaseAgent_neutral.bind fun _ ↦ rfl
    · refine wrapper_neutral.bind fun _ ↦ ?_
      refine (neutral_mem _).bind fun ret ↦ ?_
      split_ifs
      · exact coreReleaseAgent_neutral.bind fun _ ↦ rfl
      · exact (neutral_locked (List.forall_mem_nil _) _).bind fun _ ↦ rfl

theorem emStart_neutral (id : UInt64) : Neutral (.caller n) [] (emStart id) := by
  have hl : Before .coreAgents [] := List.forall_mem_nil _
  refine (neutral_locked (List.forall_mem_nil _) _).bind fun _ ↦ ?_
  refine keeps_lock hl ?_
  refine (neutral_mem _).bind fun as ↦ ?_
  split_ifs
  · refine keeps_unlock hl ?_
    exact neutral_logMessage.bind fun _ ↦ rfl
  · refine keeps_unlock hl ?_
    refine (neutral_mem _).bind fun p ↦ ?_
    cases p with
    | none => rfl
    | some p => exact startAgent_neutral id

theorem logRelease_neutral : Neutral t [] logRelease := by
  refine (neutral_mem _).bind fun b ↦ ?_
  split_ifs
  · exact (neutral_mem _).bind fun _ ↦ neutral_mem _
  · rfl

theorem emStop_neutral : Neutral (.caller n) [] emStop := by
  refine (neutral_mem _).bind fun empty ↦ ?_
  split_ifs
  · refine neutral_logMessage.bind fun _ ↦ ?_
    exact logRelease_neutral.bind fun _ ↦ rfl
  · refine (neutral_locked (List.forall_mem_nil _) _).bind fun p ↦ ?_
    refine wrapper_neutral.bind fun _ ↦ ?_
    exact coreReleaseAgent_neutral.bind fun _ ↦ rfl

end Callers

section Threads

/-- The thread holds no lock between the pieces of its code. -/
abbrev Settles (t : ThreadId) (p : Prog (Option Point)) : Prop :=
  Keeps (Locks.Settled ThreadId.fits t) t [] p

variable {n p q : ℕ}

theorem net_settled (nt : NetThread) :
    Settles (.net q) (net p nt) := by
  have hstep : Settles (.net q) (do return some (Point.net p (← mem (.net p nt)))) :=
    (neutral_mem _).bind fun t' ↦ ⟨rfl, by simp [ThreadId.fits]⟩
  rcases nt with ⟨pc, e⟩
  cases pc with
  | exit => exact ⟨rfl, by simp⟩
  | socket | resolve | again | connect =>
    refine (neutral_mem _).bind fun t' ↦ ?_
    refine Neutral.bind (p := netLog t'.pc) ?_ fun _ ↦ ⟨rfl, by simp [ThreadId.fits]⟩
    cases t'.pc with
    | next => exact neutral_logMessage
    | _ => rfl
  | hello => exact netConnected_neutral.bind fun s ↦ ⟨rfl, by simp [ThreadId.fits]⟩
  | process h =>
    cases h with
    | pure x => exact hstep
    | call o k => exact (within_neutral o).bind fun r ↦ ⟨rfl, by simp [ThreadId.fits]⟩
  | _ => exact hstep

theorem sched_settled (S : ℕ → Setup) (pc : SchPc) :
    Settles (.sched q) (sched S p pc) := by
  have hlocked (l : Lock) : Settles (.sched q)
      (do return some (Point.sched p (← locked l (.sched p pc)))) :=
    (neutral_locked (List.forall_mem_nil _) _).bind fun pc' ↦ ⟨rfl, by simp [ThreadId.fits]⟩
  have hstep : Settles (.sched q) (do return some (Point.sched p (← mem (.sched p pc)))) :=
    (neutral_mem _).bind fun pc' ↦ ⟨rfl, by simp [ThreadId.fits]⟩
  cases pc with
  | exit => exact ⟨rfl, by simp⟩
  | take | settle | back | drain | flush => exact hlocked _
  | alert =>
    refine (neutral_mem _).bind fun pc' ↦ ?_
    refine Neutral.bind (p := disconnected S p) ?_ fun _ ↦ ⟨rfl, by simp [ThreadId.fits]⟩
    unfold disconnected
    split_ifs
    · exact wrapper_neutral
    · rfl
  | perform task now h =>
    cases h with
    | pure op => exact hstep
    | call o k => exact (within_neutral o).bind fun r ↦ ⟨rfl, by simp [ThreadId.fits]⟩
  | _ => exact hstep

theorem call_settled (c : Call) : Settles (.caller n) (call c) := by
  cases c with
  | query q => exact (query_neutral q).bind fun _ ↦ ⟨rfl, by simp⟩
  | emStart id => exact (emStart_neutral id).bind fun _ ↦ ⟨rfl, by simp⟩
  | emTerminateAgent id => exact (emTerminateAgent_neutral id).bind fun _ ↦ ⟨rfl, by simp⟩
  | emStop =>
    refine emStop_neutral.bind fun b ↦ ?_
    cases b
    · exact ⟨rfl, by simp⟩
    · exact ⟨rfl, by simp [ThreadId.fits]⟩

end Threads

end Prog

theorem Point.exists_fits (pt : Point) : ∃ t : ThreadId, t.fits pt := by
  cases pt with
  | call c => exact ⟨.caller 0, trivial⟩
  | net p t => exact ⟨.net p, trivial⟩
  | sched p pc => exact ⟨.sched p, trivial⟩

theorem system_disciplined (S : ℕ → Setup) :
    Locks.Disciplined Lock.rank ThreadId.level ThreadId.fits (system S) where
  code t pt hfits := by
    cases t <;> cases pt <;> try cases hfits
    · exact Prog.call_settled _
    · exact Prog.sched_settled S _
    · exact Prog.net_settled _
  callable t pt hcall := by
    cases t <;> cases pt <;> trivial

/-- No threads ever wait for each other in a cycle, and every operation
releases each lock that it takes, once, on each of its ways to a return. -/
theorem no_deadlock (S : ℕ → Setup) :
    (∀ s, (system S).machine.Reachable s → ∀ t, ¬ Relation.TransGen s.Waits t t) ∧
    (∀ pt ops next, (system S).Route pt ops next → Locks.Balanced ops) ∧
    (∀ p o ops r, Locks.Path (Prog.section_ p o) ops r → Locks.Balanced ops) ∧
    (∀ p o ops r, Locks.Path (Prog.within p o) ops r → Locks.Balanced ops) ∧
    (∀ p mod type inst ops r, Locks.Path (Prog.trigFindByInst p mod type inst) ops r →
      Locks.Balanced ops) ∧
    ∀ p ops r, Locks.Path (Prog.coreReleaseAgent p) ops r → Locks.Balanced ops := by
  refine ⟨fun s h t ↦ ?_, fun pt ops next hr ↦ ?_, fun p o ops r hp ↦ ?_, fun p o ops r hp ↦ ?_,
    fun p mod type inst ops r hp ↦ ?_, fun p ops r hp ↦ ?_⟩
  · exact (Locks.Ordered.of_reachable (system_disciplined S) h).no_cycle t
  · obtain ⟨t, ht⟩ := pt.exists_fits
    exact (system_disciplined S).balanced hr ht
  · exact (Prog.section_neutral (t := .caller 0) (List.forall_mem_nil _) o).balanced
      (fun _ _ h ↦ h) hp
  · exact (Prog.within_neutral (t := .caller 0) o).balanced (fun _ _ h ↦ h) hp
  · exact (Prog.trigFind_neutral (t := .caller 0) (List.forall_mem_nil _) _).balanced
      (fun _ _ h ↦ h) hp
  · exact (Prog.coreReleaseAgent_neutral (n := 0)).balanced (fun _ _ h ↦ h) hp

namespace Sample

def steps (t : ThreadId) (as : List SysAns) : List (Locks.Label ThreadId SysAns Point) :=
  as.map (.step t)

def ticks (t : ThreadId) (n : ℕ) : List (Locks.Label ThreadId SysAns Point) :=
  steps t (List.replicate n (.ans .tick))

def startSystem : List (Locks.Label ThreadId SysAns Point) :=
  .call (.caller 0) (.call (.emStart 1)) ::
    (ticks (.caller 0) 1 ++ steps (.caller 0) [.ans (.ok true)] ++ ticks (.caller 0) 4 ++
      steps (.caller 0) [.ans (.ok true), .ans (.ok true), .ans .tick, .ans (.ok true), .ans .tick,
        .calls [], .ans (.sent 0)] ++ ticks (.caller 0) 4)

/-- The network thread connects and takes the lock to queue the Hello; the
scheduler thread wants the same lock, and `em_terminate_agent` the end of it. -/
def waitingRun : List (Locks.Label ThreadId SysAns Point) :=
  startSystem ++ ticks (.net 0) 2 ++ steps (.net 0) [.ans (.fd 3), .ans .tick, .ans (.ok true),
    .ans .tick, .ans .tick, .ans .tick, .ans (.connect none), .ans .tick, .ans (.ok true),
    .ans (.time ⟨0, 0⟩), .ans .tick] ++ ticks (.sched 0) 2 ++
    .call (.caller 1) (.call (.emTerminateAgent 1)) :: ticks (.caller 1) 4 ++
    steps (.caller 1) [.calls [], .ans .tick]

end Sample

theorem no_deadlock_waiting : ∃ s, (system fun _ ↦ Sample.setup).machine.Reachable s ∧
    s.Waits (.caller 1) (.sched 0) ∧ s.Waits (.sched 0) (.net 0) ∧
    ¬ Relation.TransGen s.Waits (.caller 1) (.caller 1) := by
  have hr := (system fun _ ↦ Sample.setup).machine.reach_get (fun _ _ ↦ True) Sample.waitingRun
    (by decide +kernel)
  obtain ⟨hcycle, _⟩ := no_deadlock fun _ ↦ Sample.setup
  refine ⟨_, hr, ?_, ?_, hcycle _ hr _⟩
  · unfold Locks.State.Waits
    decide +kernel
  · unfold Locks.State.Waits
    decide +kernel

end EmpowerAgent
