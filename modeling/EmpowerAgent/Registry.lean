import EmpowerAgent.Library.Pool
import Mathlib.Data.Int.Notation
import Mathlib.Tactic.Common

namespace EmpowerAgent

open Library (Machine Pool)

/-- An agent as the core lists it: the address at which it was allocated,
which stands for its identity, and the eNB it serves. -/
structure AgentRef where
  ptr : ℕ
  enbId : UInt64
  deriving DecidableEq, Repr

/-- What is passed to `core_release_agent`. The first entry of an empty list
is no agent, but an address computed from that of the list itself. -/
inductive Victim
  | agent (ptr : ℕ)
  | bogus
  deriving DecidableEq, Repr

inductive Releaser
  | emStart
  | emTerminateAgent
  | emStop
  deriving DecidableEq, Repr

inductive Lookup
  | emSend
  | emHasTrigger
  | emDelTrigger
  | emIsConnected
  deriving DecidableEq, Repr

def Lookup.notFound : Lookup → ℤ
  | .emSend => -1
  | _ => 0

namespace Core

inductive Event
  | inserted (ptr : ℕ)
  | removed (ptr : ℕ)
  | released (by_ : Releaser) (victim : Victim)
  | used (ptr : ℕ)
  deriving DecidableEq, Repr

end Core

/-- The state behind `core_agents_lock`, with the next address `malloc` hands
out. `corrupt` means that the head of the list has been unlinked from itself,
after which nothing is known of what the list does. -/
structure Core where
  agents : List AgentRef
  corrupt : Bool
  heap : ℕ
  hist : List Core.Event
  deriving DecidableEq, Repr

/-- Where a call stands: before one of its sections under the lock, or
between two of them. -/
inductive CallPc
  | startCheck (enbId : UInt64)
  | startLaunch (enbId : UInt64)
  | startInsert (agent : AgentRef)
  | terminate (enbId : UInt64)
  | stopTest
  | stopTake
  | release (by_ : Releaser) (victim : Victim) (ret : ℤ)
  | lookup (f : Lookup) (enbId : UInt64)
  | done (ret : ℤ)
  deriving DecidableEq, Repr

inductive Request
  | emStart (enbId : UInt64)
  | emTerminateAgent (enbId : UInt64)
  | emStop
  | lookup (f : Lookup) (enbId : UInt64)
  deriving DecidableEq, Repr

/-- What the environment answers to a step of a call: `failed` stands for a
thread that could not be created, or for an `init` that refused. -/
inductive CoreAns
  | tick
  | noMemory
  | failed (ret : ℤ)
  | result (ret : ℤ)
  deriving DecidableEq, Repr

def Request.enter : Request → CallPc
  | .emStart id => .startCheck id
  | .emTerminateAgent id => .terminate id
  | .emStop => .stopTest
  | .lookup f id => .lookup f id

namespace Core

variable (c : Core)

def startCheck (id : UInt64) : CallPc :=
  if c.agents.any (·.enbId = id) then .done (-1) else .startLaunch id

/-- The allocation and the start of the threads, and `init`. -/
def startLaunch (id : UInt64) : CoreAns → Option (CallPc × Core)
  | .noMemory => some (.done (-1), c)
  | .failed ret =>
    if ret < 0 then some (.release .emStart (.agent c.heap) ret, { c with heap := c.heap + 1 })
    else none
  | .tick => some (.startInsert ⟨c.heap, id⟩, { c with heap := c.heap + 1 })
  | _ => none

def startInsert (a : AgentRef) : Core :=
  { c with agents := a :: c.agents, hist := c.hist ++ [.inserted a.ptr] }

def terminate (id : UInt64) : CallPc × Core :=
  match c.agents.find? (·.enbId = id) with
  | none => (.done 0, c)
  | some a => (.release .emTerminateAgent (.agent a.ptr) 0, { c with
      agents := c.agents.erase a, hist := c.hist ++ [.removed a.ptr] })

def stopTake : CallPc × Core :=
  match c.agents with
  -- the emptiness test was made outside the lock and is not repeated
  | [] => (.release .emStop .bogus 0, { c with corrupt := true })
  | a :: agents => (.release .emStop (.agent a.ptr) 0, { c with
      agents, hist := c.hist ++ [.removed a.ptr] })

def release (by_ : Releaser) (victim : Victim) (ret : ℤ) : CallPc × Core :=
  (if by_ = .emStop then .stopTest else .done ret,
    { c with hist := c.hist ++ [.released by_ victim] })

def lookup (f : Lookup) (id : UInt64) (ret : ℤ) : CallPc × Core :=
  match c.agents.find? (·.enbId = id) with
  | none => (.done f.notFound, c)
  | some a => (.done ret, { c with hist := c.hist ++ [.used a.ptr] })

end Core

def callStep (pc : CallPc) (ans : CoreAns) (c : Core) : Option (CallPc × Core) :=
  match pc, ans with
  -- these two do not touch the list; no other step goes on once it is corrupt
  | .startLaunch id, ans => c.startLaunch id ans
  | .release by_ victim ret, .tick => some (c.release by_ victim ret)
  | .startCheck id, .tick => if c.corrupt then none else some (c.startCheck id, c)
  | .startInsert a, .tick => if c.corrupt then none else some (.done 0, c.startInsert a)
  | .terminate id, .tick => if c.corrupt then none else some (c.terminate id)
  | .stopTest, .tick =>
    if c.corrupt then none else some (if c.agents = [] then .done 0 else .stopTake, c)
  | .stopTake, .tick => if c.corrupt then none else some c.stopTake
  | .lookup f id, .result ret => if c.corrupt then none else some (c.lookup f id ret)
  | _, _ => none

def registry : Machine (Pool Core CallPc) (Pool.Label Request CoreAns) :=
  Pool.machine Request.enter callStep ⟨[], false, 0, []⟩

/-- What one step of a call does, guards included. -/
inductive CallMove : CallPc → Core → CallPc → Core → Prop
  | startFound {c : Core} {id : UInt64} : id ∈ c.agents.map (·.enbId) →
      CallMove (.startCheck id) c (.done (-1)) c
  | startPass {c : Core} {id : UInt64} : id ∉ c.agents.map (·.enbId) →
      CallMove (.startCheck id) c (.startLaunch id) c
  | noMemory {c : Core} {id : UInt64} : CallMove (.startLaunch id) c (.done (-1)) c
  | startFailed {c : Core} {id : UInt64} {ret : ℤ} : ret < 0 →
      CallMove (.startLaunch id) c (.release .emStart (.agent c.heap) ret)
        { c with heap := c.heap + 1 }
  | launched {c : Core} {id : UInt64} :
      CallMove (.startLaunch id) c (.startInsert ⟨c.heap, id⟩) { c with heap := c.heap + 1 }
  | insert {c : Core} {a : AgentRef} : CallMove (.startInsert a) c (.done 0) (c.startInsert a)
  | terminateNone {c : Core} {id : UInt64} : CallMove (.terminate id) c (.done 0) c
  | terminate {c : Core} {id : UInt64} {a : AgentRef} : a ∈ c.agents → a.enbId = id →
      CallMove (.terminate id) c (.release .emTerminateAgent (.agent a.ptr) 0)
        { c with agents := c.agents.erase a, hist := c.hist ++ [.removed a.ptr] }
  | stopEmpty {c : Core} : CallMove .stopTest c (.done 0) c
  | stopSome {c : Core} : c.agents ≠ [] → CallMove .stopTest c .stopTake c
  | take {c : Core} {a : AgentRef} {agents : List AgentRef} : c.agents = a :: agents →
      CallMove .stopTake c (.release .emStop (.agent a.ptr) 0)
        { c with agents, hist := c.hist ++ [.removed a.ptr] }
  | takeBogus {c : Core} : c.agents = [] →
      CallMove .stopTake c (.release .emStop .bogus 0) { c with corrupt := true }
  | release {c : Core} {by_ : Releaser} {victim : Victim} {ret : ℤ} {pc : CallPc} :
      pc = .stopTest ∨ pc = .done ret → CallMove (.release by_ victim ret) c pc
        { c with hist := c.hist ++ [.released by_ victim] }
  | lookupNone {c : Core} {f : Lookup} {id : UInt64} :
      CallMove (.lookup f id) c (.done f.notFound) c
  | lookup {c : Core} {f : Lookup} {id : UInt64} {a : AgentRef} {ret : ℤ} : a ∈ c.agents →
      CallMove (.lookup f id) c (.done ret) { c with hist := c.hist ++ [.used a.ptr] }

section Moves

variable {pc' : CallPc} {c c' : Core}

theorem startLaunch_move {id : UInt64} {ans : CoreAns} (h : c.startLaunch id ans = some (pc', c')) :
    CallMove (.startLaunch id) c pc' c' := by
  cases ans with
  | tick => cases h; exact .launched
  | noMemory => cases h; exact .noMemory
  | failed ret =>
    simp only [Core.startLaunch] at h
    split_ifs at h with hret
    cases h; exact .startFailed hret
  | result ret => cases h

theorem startCheck_move (c : Core) (id : UInt64) :
    CallMove (.startCheck id) c (c.startCheck id) c := by
  by_cases hid : id ∈ c.agents.map (·.enbId)
  · rw [Core.startCheck, if_pos (by simpa using hid)]
    exact .startFound hid
  · rw [Core.startCheck, if_neg (by simpa using hid)]
    exact .startPass hid

theorem terminate_move {id : UInt64} (h : c.terminate id = (pc', c')) :
    CallMove (.terminate id) c pc' c' := by
  unfold Core.terminate at h
  split at h
  · cases h; exact .terminateNone
  · rename_i hfind
    cases h
    exact .terminate (List.mem_of_find?_eq_some hfind) (by simpa using List.find?_some hfind)

theorem stopTake_move (h : c.stopTake = (pc', c')) : CallMove .stopTake c pc' c' := by
  unfold Core.stopTake at h
  split at h
  · cases h; exact .takeBogus ‹_›
  · cases h; exact .take ‹_›

theorem lookup_move {f : Lookup} {id : UInt64} {ret : ℤ} (h : c.lookup f id ret = (pc', c')) :
    CallMove (.lookup f id) c pc' c' := by
  unfold Core.lookup at h
  split at h
  · cases h; exact .lookupNone
  · rename_i hfind
    cases h; exact .lookup (List.mem_of_find?_eq_some hfind)

theorem of_unless {α : Type} {b : Bool} {r x : α} (h : (if b then none else some r) = some x) :
    r = x := by
  split_ifs at h
  exact Option.some.inj h

theorem stopTest_move (h : (if c.agents = [] then .done 0 else .stopTake, c) = (pc', c')) :
    CallMove .stopTest c pc' c' := by
  split_ifs at h with hnil
  · cases h; exact .stopEmpty
  · cases h; exact .stopSome hnil

theorem callStep_move {pc : CallPc} {ans : CoreAns} (h : callStep pc ans c = some (pc', c')) :
    CallMove pc c pc' c' := by
  cases pc with
  | startLaunch id => exact startLaunch_move h
  | release by_ victim ret =>
    cases ans with
    | tick =>
      cases h
      refine .release ?_
      split_ifs <;> simp
    | _ => cases h
  | startCheck id =>
    cases ans with
    | tick => cases of_unless h; exact startCheck_move _ _
    | _ => cases h
  | startInsert a =>
    cases ans with
    | tick => cases of_unless h; exact .insert
    | _ => cases h
  | terminate id =>
    cases ans with
    | tick => exact terminate_move (of_unless h)
    | _ => cases h
  | stopTest =>
    cases ans with
    | tick => exact stopTest_move (of_unless h)
    | _ => cases h
  | stopTake =>
    cases ans with
    | tick => exact stopTake_move (of_unless h)
    | _ => cases h
  | lookup f id =>
    cases ans with
    | result ret => exact lookup_move (of_unless h)
    | _ => cases h
  | done ret => cases h

end Moves

abbrev Registry := Pool Core CallPc

section Ids

def CallPc.pendingIds : CallPc → List UInt64
  | .startLaunch id => [id]
  | .startInsert a => [a.enbId]
  | _ => []

def Core.ids (c : Core) : List UInt64 := c.agents.map (·.enbId)

def searches (s : Registry) : Pool.Label Request CoreAns → Option UInt64
  | .step i _ => match s.threads[i]? with | some (.startCheck id) => some id | _ => none
  | _ => none

/-- A search that finds nothing is made with no other call between its own
search and its insertion of the same eNB. -/
def StartsAlone (s : Registry) (l : Pool.Label Request CoreAns) : Prop :=
  ∀ id ∈ searches s l, id ∉ s.core.ids → id ∉ s.threads.flatMap CallPc.pendingIds

instance (s : Registry) (l : Pool.Label Request CoreAns) : Decidable (StartsAlone s l) :=
  Option.decidableForallMem (searches s l)

def IdInv (s : Registry) : Prop :=
  ∀ id, (s.threads.flatMap CallPc.pendingIds).count id + s.core.ids.count id ≤ 1

variable {s s' : Registry}

theorem CallMove.ids {pc pc' : CallPc} {c c' : Core} (h : CallMove pc c pc' c') (id : UInt64) :
    pc'.pendingIds.count id + c'.ids.count id ≤ pc.pendingIds.count id + c.ids.count id ∨
      pc = .startCheck id ∧ id ∉ c.ids ∧ pc' = .startLaunch id ∧ c' = c := by
  cases h with
  | @startPass _ id' hnot =>
    by_cases heq : id' = id
    · subst heq
      exact .inr ⟨rfl, hnot, rfl, rfl⟩
    · left
      simp [CallPc.pendingIds, heq]
  | insert =>
    left
    simp only [CallPc.pendingIds, Core.ids, Core.startInsert, List.map_cons, List.count_cons,
      List.count_nil]
    omega
  | @terminate _ _ a hmem =>
    left
    have hsub : ((c.agents.erase a).map (·.enbId)).Sublist (c.agents.map (·.enbId)) :=
      List.erase_sublist.map _
    have hle := hsub.count_le id
    simpa [CallPc.pendingIds, Core.ids] using hle
  | take hagents =>
    left
    simp [CallPc.pendingIds, Core.ids, hagents, List.count_cons]
  | release hpc =>
    left
    rcases hpc with rfl | rfl <;> exact Nat.le_refl _
  | _ =>
    left
    simp [CallPc.pendingIds, Core.ids]

theorem IdInv.of_reach (h : registry.Reach StartsAlone s) : IdInv s := by
  refine Pool.invariant h (fun _ ↦ Nat.zero_le _) ?_ ?_
  · intro s r hI id
    have hcall := Pool.count_holdings_call CallPc.pendingIds s.threads r.enter id
    have hnone : r.enter.pendingIds = [] := by cases r <;> rfl
    rw [hnone, List.count_nil] at hcall
    have hold := hI id
    simp only at hcall ⊢
    omega
  · intro s i a pc pc' c _ hI halone hpc hstep id
    have hset := Pool.count_holdings_set CallPc.pendingIds s.threads pc' hpc id
    have hold := hI id
    rcases (callStep_move hstep).ids id with hle | ⟨rfl, hnot, rfl, rfl⟩
    · simp only
      omega
    · -- the search found nothing, so the step is one that the condition speaks of
      have hsearch : id ∈ searches s (.step i a) := by simp [searches, hpc]
      have hfree := halone id hsearch hnot
      have hzero := List.count_eq_zero_of_not_mem hfree
      have hzero' := List.count_eq_zero_of_not_mem hnot
      simp only [CallPc.pendingIds, List.count_cons_self, List.count_nil] at hset ⊢
      omega

/-- Where no two calls start an agent for one eNB at a time, no eNB has two
agents. -/
theorem ids_unique (h : registry.Reach StartsAlone s) : s.core.ids.Nodup := by
  rw [List.nodup_iff_count]
  intro id
  have hle := IdInv.of_reach h id
  omega

def startRun : List (Pool.Label Request CoreAns) :=
  [.call (.emStart 1), .step 0 .tick, .step 0 .tick, .call (.emStart 2), .step 1 .tick,
    .step 0 .tick, .call (.emStart 1), .step 2 .tick, .step 1 .tick, .step 1 .tick]

theorem ids_unique_started : ∃ s, registry.Reach StartsAlone s ∧
    s.core.ids = [2, 1] ∧ s.core.ids.Nodup := by
  have hr := registry.reach_get StartsAlone startRun (by decide +kernel)
  exact ⟨_, hr, by decide +kernel, ids_unique hr⟩

def startTwiceRun : List (Pool.Label Request CoreAns) :=
  [.call (.emStart 1), .call (.emStart 1), .step 0 .tick, .step 1 .tick, .step 0 .tick,
    .step 1 .tick, .step 0 .tick, .step 1 .tick]

theorem ids_not_unique : ¬ ∀ s, registry.Reachable s → s.core.ids.Nodup := by
  intro h
  have hr := registry.reach_get (fun _ _ ↦ True) startTwiceRun (by decide +kernel)
  have hnodup := h _ hr
  revert hnodup
  decide +kernel

end Ids

end EmpowerAgent
