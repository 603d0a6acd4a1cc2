import EmpowerAgent.System
import EmpowerAgent.Steps

namespace EmpowerAgent

open Library.Keyed (eraseKey eraseKey_eq_filter_iff find_of_nodup)

variable (S : ℕ → Setup)

/-- The agents have ids and addresses of their own. -/
structure Registered (m : Memory) : Prop where
  sound : m.corrupt = false
  ids : (m.agents.map (·.enbId)).Nodup
  ptrs : (m.agents.map (·.ptr)).Nodup

namespace Memory

variable (m : Memory)

def triggersOf (enbId : UInt64) : List Emtri :=
  match m.agents.find? (·.enbId = enbId) with
  | none => []
  | some a => (m.worlds a.ptr).trig.ts

def HasTrigger (enbId : UInt64) (tid : Int32) : Prop :=
  ∃ a ∈ m.agents, a.enbId = enbId ∧ ∃ t ∈ (m.worlds a.ptr).trig.ts, t.id = tid

/-- An agent has one live trigger with an id, and not several. -/
def HasOneTrigger (enbId : UInt64) (tid : Int32) : Prop :=
  ∃ a ∈ m.agents, a.enbId = enbId ∧ ((m.worlds a.ptr).trig.ts.map Emtri.id).count tid = 1

end Memory

/-- What `em_del_trigger` promises: its result tells whether there was such a
trigger, which alone is gone; `em_has_trigger` answers accordingly. -/
structure TellsTruth (m : Memory) (enbId : UInt64) (tid : Int32) (x : ℤ) (m' : Memory) : Prop where
  zero : x = 0 ↔ m.HasTrigger enbId tid
  negative : ¬ m.HasTrigger enbId tid → x < 0
  agents : m'.agents = m.agents
  triggers : ∀ a ∈ m.agents, (m'.worlds a.ptr).trig.ts =
    (m.worlds a.ptr).trig.ts.filter fun t ↦ ¬ (a.enbId = enbId ∧ t.id = tid)
  gone : ∀ as y n, (Prog.query (.emHasTrigger enbId tid)).run (alone S) as m' = some (y, n) → y = 0
  kept : ∀ enbId' tid', enbId' ≠ enbId ∨ tid' ≠ tid → ∀ as y n as' y' n',
    (Prog.query (.emHasTrigger enbId' tid')).run (alone S) as m = some (y, n) →
      (Prog.query (.emHasTrigger enbId' tid')).run (alone S) as' m' = some (y', n') → y' = y

variable {S} {m m' : Memory} {enbId : UInt64} {tid : Int32} {as : List SysAns} {x : ℤ}

section Calls

theorem withAgent_run {notFound : ℤ} {body : ℕ → Prog ℤ} (hm : m.corrupt = false)
    (h : (Prog.withAgent enbId notFound body).run (alone S) as m = some (x, m')) :
    (m.agents.find? (·.enbId = enbId) = none ∧ x = notFound ∧ m' = m) ∨
      ∃ a as, m.agents.find? (·.enbId = enbId) = some a ∧
        (body a.ptr).run (alone S) as m = some (x, m') := by
  obtain ⟨_, as, _, m₁, rfl, he, h⟩ := Library.Proc.run_call h
  cases he
  obtain ⟨a, as, agents, m₂, rfl, he, h⟩ := Library.Proc.run_call h
  simp only [alone, access, hm, Bool.false_eq_true, if_false] at he
  obtain ⟨agents, he, heq⟩ := Option.map_eq_some_iff.mp he
  cases SysAns.eq_of_tick he
  cases heq
  dsimp only [Library.Proc.bind] at h
  cases hfind : m.agents.find? (·.enbId = enbId) with
  | none =>
    rw [hfind] at h
    obtain ⟨rfl, rfl⟩ := unlock_run h
    exact .inl ⟨rfl, rfl, rfl⟩
  | some a =>
    rw [hfind] at h
    obtain ⟨as₁, as₂, y, m₃, rfl, hbody, h⟩ := Library.Proc.run_bind h
    obtain ⟨rfl, rfl⟩ := unlock_run h
    exact .inr ⟨a, as₁, rfl, hbody⟩

theorem trigFindById_run {p : ℕ} {r : Option Emtri}
    (h : (Prog.trigFindById p tid).run (alone S) as m = some (r, m')) :
    r = (m.worlds p).trig.trigFindById tid ∧ m' = m := by
  obtain ⟨_, as, _, m₁, rfl, he, h⟩ := Library.Proc.run_call h
  cases he
  obtain ⟨a, as, ts, m₂, rfl, he, h⟩ := Library.Proc.run_call h
  cases SysAns.eq_of_tick he
  dsimp only [Library.Proc.bind] at h
  split at h
  all_goals
    obtain ⟨rfl, rfl⟩ := unlock_run h
    exact ⟨(Eq.symm ‹_›), rfl⟩

theorem trigDelById_run {p : ℕ} {r : ℤ}
    (h : (Prog.trigDelById p tid).run (alone S) as m = some (r, m')) :
    m' = m.setWorld p { m.worlds p with trig := ((m.worlds p).trig.trigDelById tid).2 } := by
  obtain ⟨_, as, _, m₁, rfl, he, h⟩ := Library.Proc.run_call h
  cases he
  obtain ⟨a, as, ts, m₂, rfl, he, h⟩ := Library.Proc.run_call h
  cases SysAns.eq_of_tick he
  dsimp only [Library.Proc.bind] at h
  split_ifs at h with hfound
  · obtain ⟨a, as, _, m₃, rfl, he, h⟩ := Library.Proc.run_call h
    obtain ⟨rfl, rfl⟩ := unlock_run h
    obtain ⟨⟨r, w⟩, hbind, heq⟩ := Option.map_eq_some_iff.mp he
    obtain ⟨a, _, hexec⟩ := Option.bind_eq_some_iff.mp hbind
    cases exec_effect hexec
    cases heq
    rfl
  · have hnone : (m.worlds p).trig.trigDelById tid = (-1, (m.worlds p).trig) := by
      rw [Trctx.trigDelById, Trctx.delFirst, if_neg hfound]
    rw [hnone]
    obtain ⟨_, rfl⟩ := unlock_run h
    exact (Memory.setWorld_self _ p).symm

theorem emHasTrigger_run (hm : m.corrupt = false)
    (h : (Prog.query (.emHasTrigger enbId tid)).run (alone S) as m = some (x, m')) :
    x = if tid ∈ (m.triggersOf enbId).map Emtri.id then 1 else 0 := by
  have h : (Prog.withAgent enbId 0 fun p ↦ do
      let t ← Prog.trigFindById p tid
      return if t.isSome then 1 else 0).run (alone S) as m = some (x, m') := h
  rcases withAgent_run hm h with ⟨hfind, rfl, _⟩ | ⟨a, as, hfind, h⟩
  · simp [Memory.triggersOf, hfind]
  · obtain ⟨as₁, as₂, r, m₁, rfl, hr, h⟩ := Library.Proc.run_bind h
    obtain ⟨rfl, rfl⟩ := trigFindById_run hr
    obtain ⟨rfl, rfl⟩ := Library.Proc.run_pure h
    simp only [Memory.triggersOf, hfind, Trctx.trigFindById, List.find?_isSome, beq_iff_eq,
      List.mem_map]

theorem emDelTrigger_run (hm : m.corrupt = false)
    (h : (Prog.query (.emDelTrigger enbId tid)).run (alone S) as m = some (x, m')) :
    x = 0 ∧ (m.agents.find? (·.enbId = enbId) = none ∧ m' = m ∨
      ∃ a, m.agents.find? (·.enbId = enbId) = some a ∧ m' = m.setWorld a.ptr
        { m.worlds a.ptr with trig := ((m.worlds a.ptr).trig.trigDelById tid).2 }) := by
  have h : (Prog.withAgent enbId 0 fun p ↦ do
      let _ ← Prog.trigDelById p tid
      return 0).run (alone S) as m = some (x, m') := h
  rcases withAgent_run hm h with ⟨hfind, rfl, rfl⟩ | ⟨a, as, hfind, h⟩
  · exact ⟨rfl, .inl ⟨hfind, rfl⟩⟩
  · obtain ⟨as₁, as₂, r, m₁, rfl, hr, h⟩ := Library.Proc.run_bind h
    have hm₁ := trigDelById_run hr
    obtain ⟨rfl, rfl⟩ := Library.Proc.run_pure h
    exact ⟨rfl, .inr ⟨a, hfind, hm₁⟩⟩

end Calls

section Registry

theorem Registered.triggersOf (hm : Registered m) {a : AgentRef} (ha : a ∈ m.agents) :
    m.triggersOf a.enbId = (m.worlds a.ptr).trig.ts := by
  rw [Memory.triggersOf, find_of_nodup hm.ids ha]

theorem Registered.hasTrigger_iff (hm : Registered m) :
    m.HasTrigger enbId tid ↔ tid ∈ (m.triggersOf enbId).map Emtri.id := by
  constructor
  · rintro ⟨a, ha, rfl, t, ht, rfl⟩
    rw [hm.triggersOf ha]
    exact List.mem_map_of_mem ht
  · intro h
    cases hfind : m.agents.find? (·.enbId = enbId) with
    | none =>
      rw [Memory.triggersOf, hfind] at h
      cases h
    | some a =>
      rw [Memory.triggersOf, hfind] at h
      obtain ⟨t, ht, hid⟩ := List.mem_map.mp h
      exact ⟨a, List.mem_of_find?_eq_some hfind, by simpa using List.find?_some hfind, t, ht, hid⟩

structure Deletes (m : Memory) (enbId : UInt64) (tid : Int32) (m' : Memory) : Prop where
  sound : m'.corrupt = false
  agents : m'.agents = m.agents
  triggers : ∀ a ∈ m.agents, (m'.worlds a.ptr).trig.ts =
    if a.enbId = enbId then eraseKey Emtri.id tid (m.worlds a.ptr).trig.ts
    else (m.worlds a.ptr).trig.ts

theorem Registered.deletes (hm : Registered m)
    (h : (Prog.query (.emDelTrigger enbId tid)).run (alone S) as m = some (x, m')) :
    Deletes m enbId tid m' := by
  obtain ⟨_, ⟨hfind, rfl⟩ | ⟨a, hfind, rfl⟩⟩ := emDelTrigger_run hm.sound h
  · refine ⟨hm.sound, rfl, fun a ha ↦ (if_neg ?_).symm⟩
    simpa using List.find?_eq_none.mp hfind a ha
  · have ha := List.mem_of_find?_eq_some hfind
    have hid : a.enbId = enbId := by simpa using List.find?_some hfind
    refine ⟨hm.sound, rfl, fun b hb ↦ ?_⟩
    by_cases hptr : b.ptr = a.ptr
    · obtain rfl := List.inj_on_of_nodup_map hm.ptrs hb ha hptr
      simp only [if_pos hid, Memory.setWorld, Function.update_self, Trctx.trigDelById,
        Trctx.delFirst_ts]
      rfl
    · have hne : b.enbId ≠ enbId := fun heq ↦
        hptr (by rw [List.inj_on_of_nodup_map hm.ids hb ha (heq.trans hid.symm)])
      simp only [if_neg hne, Memory.setWorld, Function.update_of_ne hptr]

theorem Deletes.triggersOf (h : Deletes m enbId tid m') (enbId' : UInt64) :
    m'.triggersOf enbId' = if enbId' = enbId then eraseKey Emtri.id tid (m.triggersOf enbId')
      else m.triggersOf enbId' := by
  cases hfind : m.agents.find? (·.enbId = enbId') with
  | none =>
    simp only [Memory.triggersOf, h.agents, hfind]
    split_ifs <;> rfl
  | some a =>
    have hid : a.enbId = enbId' := by simpa using List.find?_some hfind
    simp only [Memory.triggersOf, h.agents, hfind]
    rw [h.triggers a (List.mem_of_find?_eq_some hfind), hid]

end Registry

section Truth

/-- The result is always zero, so that it is the truth only where an agent has
such a trigger; one removal is then enough where it has just one. -/
theorem del_trigger_truth_iff (hm : Registered m)
    (h : (Prog.query (.emDelTrigger enbId tid)).run (alone S) as m = some (x, m')) :
    TellsTruth S m enbId tid x m' ↔ m.HasOneTrigger enbId tid := by
  obtain ⟨rfl, _⟩ := emDelTrigger_run hm.sound h
  have hdel := hm.deletes h
  constructor
  · intro htruth
    obtain ⟨a, ha, hid, t, ht, htid⟩ := htruth.zero.mp rfl
    have hsome : tid ∈ (m.worlds a.ptr).trig.ts.map Emtri.id := htid ▸ List.mem_map_of_mem ht
    have hfilter := htruth.triggers a ha
    rw [hdel.triggers a ha, if_pos hid] at hfilter
    have honce := (eraseKey_eq_filter_iff tid (m.worlds a.ptr).trig.ts).mp (by
      rw [hfilter]
      simp only [hid, true_and])
    have hpos := List.count_pos_iff.mpr hsome
    exact ⟨a, ha, hid, by omega⟩
  · rintro ⟨a, ha, rfl, hcount⟩
    have hof := hm.triggersOf ha
    have hhas : m.HasTrigger a.enbId tid := by
      rw [hm.hasTrigger_iff, hof]
      exact List.count_pos_iff.mp (by omega)
    refine ⟨iff_of_true rfl hhas, fun hnot ↦ absurd hhas hnot, hdel.agents, fun b hb ↦ ?_, ?_, ?_⟩
    · rw [hdel.triggers b hb]
      split_ifs with hid
      · obtain rfl := List.inj_on_of_nodup_map hm.ids hb ha hid
        rw [(eraseKey_eq_filter_iff tid _).mpr (Nat.le_of_eq hcount)]
        simp
      · simp [hid]
    · intro as y n hy
      rw [emHasTrigger_run hdel.sound hy, hdel.triggersOf, if_pos rfl, hof,
        Library.Keyed.map_eraseKey, if_neg]
      rw [← List.count_pos_iff, List.count_erase_self, hcount]
      exact Nat.lt_irrefl 0
    · intro enbId' tid' hother as y n as' y' n' hy hy'
      have hmem : tid' ∈ (m'.triggersOf enbId').map Emtri.id ↔
          tid' ∈ (m.triggersOf enbId').map Emtri.id := by
        rw [hdel.triggersOf]
        split_ifs with hid
        · have hne : tid' ≠ tid := hother.resolve_left (not_not.mpr hid)
          rw [Library.Keyed.map_eraseKey, List.mem_erase_of_ne hne]
        · exact Iff.rfl
      rw [emHasTrigger_run hm.sound hy, emHasTrigger_run hdel.sound hy']
      simp only [hmem]

def twoAgents : Memory := { Memory.start with
  agents := [⟨0, 7⟩, ⟨1, 8⟩]
  worlds := fun _ ↦ (Agent.start.w.trigAdd ⟨0, 0, 0, 9, 0, []⟩).2 }

theorem twoAgents_registered : Registered twoAgents := ⟨rfl, by decide, by decide⟩

def findsBoth : List SysAns := List.replicate 7 (.ans .tick)

theorem del_trigger_truth_two :
    ((Prog.query (.emDelTrigger 8 1)).run (alone fun _ ↦ Sample.setup) findsBoth twoAgents).isSome ∧
      ∀ as x m', (Prog.query (.emDelTrigger 8 1)).run (alone fun _ ↦ Sample.setup) as twoAgents =
        some (x, m') → TellsTruth (fun _ ↦ Sample.setup) twoAgents 8 1 x m' := by
  refine ⟨by decide +kernel, fun as x m' h ↦ ?_⟩
  refine (del_trigger_truth_iff twoAgents_registered h).mpr ?_
  exact ⟨⟨1, 8⟩, by decide, rfl, by decide⟩

theorem del_trigger_no_agent : ¬ ∀ (S : ℕ → Setup) (m m' : Memory) (enbId : UInt64) (tid : Int32)
    (as : List SysAns) (x : ℤ), Registered m →
      (Prog.query (.emDelTrigger enbId tid)).run (alone S) as m = some (x, m') →
        TellsTruth S m enbId tid x m' := by
  intro h
  have hm : Registered .start := ⟨rfl, List.nodup_nil, List.nodup_nil⟩
  have htruth := h (fun _ ↦ Sample.setup) .start .start 7 1 (List.replicate 3 (.ans .tick)) 0 hm rfl
  obtain ⟨a, ha, _⟩ := htruth.zero.mp rfl
  cases ha

end Truth

end EmpowerAgent
