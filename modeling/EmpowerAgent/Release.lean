import EmpowerAgent.Registry

namespace EmpowerAgent

open Library (Pool)

namespace Victim

def ptrs : Victim → List ℕ
  | .agent ptr => [ptr]
  | .bogus => []

end Victim

namespace CallPc

def held : CallPc → List ℕ
  | .startInsert a => [a.ptr]
  | .release _ victim _ => victim.ptrs
  | _ => []

def unlisted : CallPc → List ℕ
  | .startInsert a => [a.ptr]
  | _ => []

def taken : CallPc → List ℕ
  | .release by_ victim _ => if by_ = .emStart then [] else victim.ptrs
  | _ => []

end CallPc

namespace Core

def Event.removedPtr : Event → Option ℕ
  | .removed ptr => some ptr
  | _ => none

def Event.releasedPtr : Event → Option ℕ
  | .released _ (.agent ptr) => some ptr
  | _ => none

def Event.releasedTaken : Event → Option ℕ
  | .released by_ (.agent ptr) => if by_ = .emStart then none else some ptr
  | _ => none

def removed (c : Core) : List ℕ := c.hist.filterMap Event.removedPtr

def released (c : Core) : List ℕ := c.hist.filterMap Event.releasedPtr

def ptrs (c : Core) : List ℕ := c.agents.map (·.ptr)

end Core

section Conservation

variable {pc pc' : CallPc} {c c' : Core} {s : Registry}

def unused (heap p : ℕ) : ℕ := if p < heap then 0 else 1

theorem ptrs_erase {a : AgentRef} (h : a ∈ c.agents) (p : ℕ) :
    ((c.agents.erase a).map (·.ptr)).count p + [a.ptr].count p = c.ptrs.count p := by
  have hperm := ((List.perm_cons_erase h).map (·.ptr)).count_eq p
  simp only [Core.ptrs, hperm, List.map_cons, List.count_cons, List.count_nil]
  omega

theorem filterMap_log {β : Type} (f : Core.Event → Option β) (es : List Core.Event)
    (e : Core.Event) : (es ++ [e]).filterMap f = es.filterMap f ++ (f e).toList := by
  rw [List.filterMap_append]
  cases h : f e <;> simp [h]

theorem CallMove.conserves (h : CallMove pc c pc' c') (p : ℕ) :
    pc'.held.count p + c'.ptrs.count p + c'.released.count p + unused c'.heap p =
      pc.held.count p + c.ptrs.count p + c.released.count p + unused c.heap p := by
  cases h with
  | startFailed | launched =>
    simp only [CallPc.held, Victim.ptrs, Core.ptrs, Core.released, unused, List.count_cons,
      List.count_nil, beq_iff_eq]
    split_ifs <;> omega
  | insert =>
    simp only [CallPc.held, Core.ptrs, Core.released, Core.startInsert, filterMap_log,
      Core.Event.releasedPtr, Option.toList_none, List.append_nil, List.map_cons, List.count_cons,
      List.count_nil]
    omega
  | terminate hmem =>
    have herase := ptrs_erase hmem p
    simp only [CallPc.held, Victim.ptrs, Core.ptrs, Core.released, filterMap_log,
      Core.Event.releasedPtr, Option.toList_none, List.append_nil, List.count_nil] at herase ⊢
    omega
  | take hagents =>
    simp only [CallPc.held, Victim.ptrs, Core.ptrs, Core.released, filterMap_log,
      Core.Event.releasedPtr, Option.toList_none, List.append_nil, hagents, List.map_cons,
      List.count_cons, List.count_nil]
    omega
  | @release _ by_ victim ret pc' hpc =>
    have hnone : pc'.held = [] := by rcases hpc with rfl | rfl <;> rfl
    have hlog : (Core.Event.released by_ victim).releasedPtr.toList = victim.ptrs := by
      cases victim <;> rfl
    rw [hnone]
    simp only [CallPc.held, Core.ptrs, Core.released, filterMap_log, hlog,
      List.count_append, List.count_nil]
    omega
  | lookup =>
    simp only [CallPc.held, Core.ptrs, Core.released, filterMap_log,
      Core.Event.releasedPtr, Option.toList_none, List.append_nil]
  | _ => rfl

theorem CallMove.takes (h : CallMove pc c pc' c') (p : ℕ) :
    pc'.taken.count p + (c'.hist.filterMap Core.Event.releasedTaken).count p +
        c.removed.count p =
      pc.taken.count p + (c.hist.filterMap Core.Event.releasedTaken).count p +
        c'.removed.count p := by
  cases h with
  | insert =>
    simp only [CallPc.taken, Core.removed, Core.startInsert, filterMap_log,
      Core.Event.releasedTaken, Core.Event.removedPtr, Option.toList_none, List.append_nil]
  | terminate | take =>
    simp only [CallPc.taken, Victim.ptrs, reduceCtorEq, ↓reduceIte, Core.removed, filterMap_log,
      Core.Event.releasedTaken, Core.Event.removedPtr, Option.toList_none, Option.toList_some,
      List.append_nil, List.count_append, List.count_nil]
    omega
  | @release _ by_ victim ret pc' hpc =>
    have hnone : pc'.taken = [] := by rcases hpc with rfl | rfl <;> rfl
    have hlog : (Core.Event.released by_ victim).releasedTaken.toList =
        if by_ = .emStart then [] else victim.ptrs := by
      cases victim <;> cases by_ <;> rfl
    rw [hnone]
    simp only [CallPc.taken, Core.removed, filterMap_log, hlog, Core.Event.removedPtr,
      Option.toList_none, List.append_nil, List.count_append, List.count_nil]
    omega
  | lookup =>
    simp only [CallPc.taken, Core.removed, filterMap_log, Core.Event.releasedTaken,
      Core.Event.removedPtr, Option.toList_none, List.append_nil]
  | _ => rfl

theorem CallMove.lists (h : CallMove pc c pc' c') (p : ℕ) :
    pc'.unlisted.count p + c'.ptrs.count p + c'.removed.count p + unused c'.heap p ≤
      pc.unlisted.count p + c.ptrs.count p + c.removed.count p + unused c.heap p := by
  cases h with
  | startFailed | launched =>
    simp only [CallPc.unlisted, Core.ptrs, Core.removed, unused, List.count_cons,
      List.count_nil, beq_iff_eq]
    split_ifs <;> omega
  | insert =>
    simp only [CallPc.unlisted, Core.ptrs, Core.removed, Core.startInsert, filterMap_log,
      Core.Event.removedPtr, Option.toList_none, List.append_nil, List.map_cons, List.count_cons,
      List.count_nil]
    omega
  | terminate hmem =>
    have herase := ptrs_erase hmem p
    simp only [CallPc.unlisted, Core.ptrs, Core.removed, filterMap_log, Core.Event.removedPtr,
      Option.toList_some, List.count_append, List.count_nil] at herase ⊢
    omega
  | take hagents =>
    simp only [CallPc.unlisted, Core.ptrs, Core.removed, filterMap_log, Core.Event.removedPtr,
      Option.toList_some, hagents, List.map_cons, List.count_append, List.count_cons,
      List.count_nil]
    omega
  | @release _ by_ victim ret pc' hpc =>
    have hnone : pc'.unlisted = [] := by rcases hpc with rfl | rfl <;> rfl
    rw [hnone]
    simp only [CallPc.unlisted, Core.ptrs, Core.removed, filterMap_log, Core.Event.removedPtr,
      Option.toList_none, List.append_nil]
    exact Nat.le_refl _
  | lookup =>
    simp only [CallPc.unlisted, Core.ptrs, Core.removed, filterMap_log, Core.Event.removedPtr,
      Option.toList_none, List.append_nil]
    exact Nat.le_refl _
  | _ => exact Nat.le_refl _

end Conservation

section Runs

variable {pc pc' : CallPc} {c c' : Core} {s s' : Registry} {l : Pool.Label Request CoreAns}

structure ReleaseInv (s : Registry) : Prop where
  places : ∀ p, (s.threads.flatMap CallPc.held).count p + s.core.ptrs.count p +
    s.core.released.count p + unused s.core.heap p = 1
  lists : ∀ p, (s.threads.flatMap CallPc.unlisted).count p + s.core.ptrs.count p +
    s.core.removed.count p + unused s.core.heap p ≤ 1
  takes : ∀ p, (s.threads.flatMap CallPc.taken).count p +
    (s.core.hist.filterMap Core.Event.releasedTaken).count p = s.core.removed.count p

theorem ReleaseInv.call (h : ReleaseInv s) (r : Request) :
    ReleaseInv { s with threads := s.threads ++ [r.enter] } := by
  have hheld : r.enter.held = [] := by cases r <;> rfl
  have hlist : r.enter.unlisted = [] := by cases r <;> rfl
  have htaken : r.enter.taken = [] := by cases r <;> rfl
  constructor <;> intro p
  · rw [Pool.count_holdings_call, hheld, List.count_nil]
    exact h.places p
  · rw [Pool.count_holdings_call, hlist, List.count_nil]
    exact h.lists p
  · rw [Pool.count_holdings_call, htaken, List.count_nil]
    exact h.takes p

theorem ReleaseInv.move {i : ℕ} (h : ReleaseInv s) (hpc : s.threads[i]? = some pc)
    (hm : CallMove pc s.core pc' c') : ReleaseInv ⟨c', s.threads.set i pc'⟩ := by
  constructor <;> intro p
  · have hset := Pool.count_holdings_set CallPc.held s.threads pc' hpc p
    have hold := h.places p
    have hnew := hm.conserves p
    simp only
    omega
  · have hset := Pool.count_holdings_set CallPc.unlisted s.threads pc' hpc p
    have hold := h.lists p
    have hnew := hm.lists p
    simp only
    omega
  · have hset := Pool.count_holdings_set CallPc.taken s.threads pc' hpc p
    have hold := h.takes p
    have hnew := hm.takes p
    simp only
    omega

theorem ReleaseInv.of_reachable (h : registry.Reachable s) : ReleaseInv s := by
  refine Pool.invariant h ?_ ?_ ?_
  · exact ⟨fun _ ↦ rfl, fun _ ↦ Nat.le_refl _, fun _ ↦ rfl⟩
  · exact fun s r hI ↦ hI.call r
  · intro s i a pc pc' c _ hI _ hpc hstep
    exact hI.move hpc (callStep_move hstep)

def UsedBefore (hist : List Core.Event) : Prop :=
  hist.Pairwise fun e e' ↦ ∀ by_ p, e = .released by_ (.agent p) → e' ≠ .used p

theorem CallMove.usedBefore (hm : CallMove pc c pc' c') (h : UsedBefore c.hist)
    (hlist : ∀ p, 0 < c.ptrs.count p → c.released.count p = 0) : UsedBefore c'.hist := by
  have hlog (e : Core.Event) (he : ∀ p, e ≠ .used p) : UsedBefore (c.hist ++ [e]) := by
    rw [UsedBefore, List.pairwise_append]
    refine ⟨h, List.pairwise_singleton _ _, fun e₁ _ e₂ he₂ by_ p _ ↦ ?_⟩
    exact List.mem_singleton.mp he₂ ▸ he p
  cases hm with
  | insert | terminate | take | release => exact hlog _ nofun
  | @lookup _ _ _ a _ hmem =>
    have hpos : 0 < c.ptrs.count a.ptr := List.count_pos_iff.mpr (List.mem_map_of_mem hmem)
    have hzero := hlist _ hpos
    rw [UsedBefore, List.pairwise_append]
    refine ⟨h, List.pairwise_singleton _ _, ?_⟩
    rintro e he e' he' by_ p rfl hused
    obtain rfl := List.mem_singleton.mp he'
    cases hused
    refine List.count_eq_zero.mp hzero ?_
    exact List.mem_filterMap.mpr ⟨_, he, rfl⟩
  | _ => exact h

theorem usedBefore_of_reachable (h : registry.Reachable s) : UsedBefore s.core.hist := by
  refine Pool.invariant (I := fun s ↦ UsedBefore s.core.hist) h ?_ ?_ ?_
  · exact List.Pairwise.nil
  · exact fun s r hI ↦ hI
  · intro s i a pc pc' c hr hI _ hpc hstep
    -- an agent in the list has not been released, as it stands in one place only
    refine (callStep_move hstep).usedBefore hI fun p hpos ↦ ?_
    have hp := (ReleaseInv.of_reachable hr.reachable).places p
    omega

def takesLast (s : Registry) : Pool.Label Request CoreAns → Option ℕ
  | .step i _ => match s.threads[i]? with
    | some .stopTake => if s.core.agents.length = 1 then some i else none
    | some (.terminate id) =>
      if s.core.agents.length = 1 ∧ id ∈ s.core.ids then some i else none
    | _ => none
  | .call _ => none

/-- The last agent is taken with no other `em_stop` between its test of the
list and its section. -/
def LastTakenAlone (s : Registry) (l : Pool.Label Request CoreAns) : Prop :=
  ∀ i ∈ takesLast s l, .stopTake ∉ s.threads.eraseIdx i

instance (s : Registry) (l : Pool.Label Request CoreAns) : Decidable (LastTakenAlone s l) :=
  Option.decidableForallMem (takesLast s l)

structure GuardInv (s : Registry) : Prop where
  waits : .stopTake ∈ s.threads → s.core.agents ≠ []
  victims : ∀ by_ ret, .release by_ .bogus ret ∉ s.threads
  record : ∀ by_, .released by_ .bogus ∉ s.core.hist

theorem CallMove.empties (hm : CallMove pc c pc' c') (hne : c.agents ≠ [])
    (hnil : c'.agents = []) : c.agents.length = 1 ∧
      (pc = .stopTake ∨ ∃ id ∈ c.ids, pc = .terminate id) := by
  cases hm with
  | insert => cases hnil
  | @terminate _ _ a hmem hid =>
    have hlen := congrArg List.length hnil
    simp only [List.length_erase_of_mem hmem, List.length_nil] at hlen
    have hpos := List.length_pos_iff.mpr hne
    refine ⟨by omega, .inr ⟨_, ?_, rfl⟩⟩
    exact hid ▸ List.mem_map_of_mem hmem
  | take hagents =>
    obtain rfl : _ = [] := hnil
    exact ⟨by rw [hagents]; rfl, .inl rfl⟩
  | takeBogus | startFound | startPass | noMemory | startFailed | launched | terminateNone |
    stopEmpty | stopSome | release | lookupNone | lookup => exact absurd hnil hne

theorem GuardInv.call (h : GuardInv s) (r : Request) :
    GuardInv { s with threads := s.threads ++ [r.enter] } := by
  refine ⟨fun hstop ↦ ?_, fun by_ ret hrel ↦ ?_, h.record⟩
  · rcases List.mem_append.mp hstop with hstop | hstop
    · exact h.waits hstop
    · cases r <;> cases List.mem_singleton.mp hstop
  · rcases List.mem_append.mp hrel with hrel | hrel
    · exact h.victims by_ ret hrel
    · cases r <;> cases List.mem_singleton.mp hrel

theorem GuardInv.move {i : ℕ} {a : CoreAns} (h : GuardInv s) (hpc : s.threads[i]? = some pc)
    (hm : CallMove pc s.core pc' c') (hlast : LastTakenAlone s (.step i a)) :
    GuardInv ⟨c', s.threads.set i pc'⟩ := by
  have hmem : pc ∈ s.threads := List.mem_of_getElem? hpc
  have hold {t : CallPc} (ht : t ∈ s.threads.eraseIdx i) : t ∈ s.threads :=
    List.mem_of_mem_eraseIdx ht
  constructor
  · intro hstop hnil
    rcases Pool.mem_set_of_step hpc hstop with rfl | hstop
    · cases hm with
      | stopSome hne => exact hne hnil
      | release hpc' => rcases hpc' with hpc' | hpc' <;> cases hpc'
    · -- a waiting call had an agent before the step, so that the step took the last one
      obtain ⟨hlen, hwho⟩ := hm.empties (h.waits (hold hstop)) hnil
      refine hlast i ?_ hstop
      rcases hwho with rfl | ⟨id, hid, rfl⟩
      · simp [takesLast, hpc, hlen]
      · simp [takesLast, hpc, hlen, hid]
  · intro by_ ret hrel
    rcases Pool.mem_set_of_step hpc hrel with rfl | hrel
    · cases hm with
      | takeBogus hnil => exact h.waits hmem hnil
      | release hpc' => rcases hpc' with hpc' | hpc' <;> cases hpc'
    · exact h.victims by_ ret (hold hrel)
  · intro by_ hrel
    cases hm with
    | insert | terminate | take | lookup =>
      rcases List.mem_append.mp hrel with hrel | hrel
      · exact h.record by_ hrel
      · cases List.mem_singleton.mp hrel
    | release =>
      rcases List.mem_append.mp hrel with hrel | hrel
      · exact h.record by_ hrel
      · cases List.mem_singleton.mp hrel
        exact h.victims _ _ hmem
    | _ => exact h.record by_ hrel

theorem GuardInv.of_reach (h : registry.Reach LastTakenAlone s) : GuardInv s := by
  refine Pool.invariant h ?_ ?_ ?_
  · exact ⟨nofun, nofun, nofun⟩
  · exact fun s r hI ↦ hI.call r
  · intro s i a pc pc' c _ hI hlast hpc hstep
    exact hI.move hpc (callStep_move hstep) hlast

/-- Where the last agent is never taken under the feet of an `em_stop`, what
is released has been taken from the list, once, and is used no more. -/
theorem released_once (h : registry.Reach LastTakenAlone s) :
    s.core.removed.Nodup ∧ s.core.released.Nodup ∧
      (∀ by_ victim, .released by_ victim ∈ s.core.hist → by_ ≠ .emStart →
        ∃ p, victim = .agent p ∧ .removed p ∈ s.core.hist) ∧
      UsedBefore s.core.hist := by
  have hI := ReleaseInv.of_reachable h.reachable
  refine ⟨?_, ?_, ?_, usedBefore_of_reachable h.reachable⟩
  · rw [List.nodup_iff_count]
    intro p
    have hp := hI.lists p
    omega
  · rw [List.nodup_iff_count]
    intro p
    have hp := hI.places p
    omega
  · intro by_ victim hrel hby
    cases victim with
    | bogus => exact absurd hrel ((GuardInv.of_reach h).record by_)
    | agent p =>
      have hmem : p ∈ s.core.hist.filterMap Core.Event.releasedTaken :=
        List.mem_filterMap.mpr ⟨_, hrel, if_neg hby⟩
      have hpos := List.count_pos_iff.mpr hmem
      have htakes := hI.takes p
      have hrem : p ∈ s.core.removed := List.count_pos_iff.mp (by omega)
      obtain ⟨e, he, hp⟩ := List.mem_filterMap.mp hrem
      cases e with
      | removed q =>
        obtain rfl : q = p := Option.some.inj hp
        exact ⟨q, rfl, he⟩
      | _ => cases hp

def stopBesideRun : List (Pool.Label Request CoreAns) :=
  [.call (.emStart 1), .step 0 .tick, .step 0 .tick, .step 0 .tick,
    .call (.emStart 2), .step 1 .tick, .step 1 .tick, .step 1 .tick,
    .call (.lookup .emSend 1), .step 2 (.result 0), .call .emStop, .step 3 .tick,
    .call (.emTerminateAgent 1), .step 4 .tick, .step 3 .tick, .step 4 .tick, .step 3 .tick,
    .step 3 .tick]

theorem released_once_stopped : ∃ s, registry.Reach LastTakenAlone s ∧
    s.core.released = [0, 1] ∧ s.core.removed.Nodup ∧ s.core.released.Nodup ∧
      UsedBefore s.core.hist := by
  have hr := registry.reach_get LastTakenAlone stopBesideRun (by decide +kernel)
  obtain ⟨hrem, hrel, _, hused⟩ := released_once hr
  exact ⟨_, hr, by decide +kernel, hrem, hrel, hused⟩

def stopTwiceRun : List (Pool.Label Request CoreAns) :=
  [.call (.emStart 1), .step 0 .tick, .step 0 .tick, .step 0 .tick, .call .emStop, .call .emStop,
    .step 1 .tick, .step 2 .tick, .step 1 .tick, .step 2 .tick, .step 2 .tick]

theorem bogus_released : ¬ ∀ s, registry.Reachable s → ∀ by_ victim,
    .released by_ victim ∈ s.core.hist → by_ ≠ .emStart →
      ∃ p, victim = .agent p ∧ .removed p ∈ s.core.hist := by
  intro h
  have hr := registry.reach_get (fun _ _ ↦ True) stopTwiceRun (by decide +kernel)
  obtain ⟨p, hp, _⟩ := h _ hr .emStop .bogus (by decide +kernel) nofun
  cases hp

end Runs

end EmpowerAgent
