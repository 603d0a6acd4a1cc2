import EmpowerAgent.SendOrder
import EmpowerAgent.Library.Keyed

namespace EmpowerAgent

open Library.Proc (Returns)
open Library.Keyed (recorded recorded_append recorded_of_not_mem)
open Emproto

/-- What the outcome of a job tells of its task: it was put off because it was
not yet due, it comes again because it has a credit, or it has none left. -/
structure Emtask.Tells (task : Emtask) (now : Timespec) (op : Outcome) : Prop where
  later : op = .notElapsed ↔ tsDiffToMs task.issued now < task.elapse
  again : op = .reschedule → task.resch ≠ 0
  last : op = .consumed → task.resch = 0

section Outcomes

variable (S : Setup) (task : Emtask)

/-- A procedure that performs a task leaves it to its caller to put it off or
to reschedule it. -/
def Outcome.Final (op : Outcome) : Prop := op = .consumed ∨ op = .netError

theorem schedSendMsg_returns (msg : Bytes) : Returns Outcome.Final (schedSendMsg S msg) := by
  unfold schedSendMsg
  split_ifs
  · exact fun _ ↦ .inl rfl
  · refine fun seq n ↦ ?_
    change Outcome.Final (if n < 0 then .netError else .consumed)
    split_ifs
    · exact .inr rfl
    · exact .inl rfl

theorem ueMeasureEach_returns (trig : Emtri) (rrc : ℕ → UeMeasurement) (n : ℕ) :
    Returns Outcome.Final (ueMeasureEach trig rrc n) := by
  induction n with
  | zero => exact .inl rfl
  | succ n ih => exact fun _ _ ↦ ih

theorem schedPerformUeMeasure_returns : Returns Outcome.Final (schedPerformUeMeasure S task) := by
  unfold schedPerformUeMeasure
  split_ifs
  · intro found
    cases found with
    | none => exact fun _ ↦ .inl rfl
    | some trig =>
      intro _
      dsimp only
      split_ifs
      · exact .inl rfl
      · exact ueMeasureEach_returns trig _ _
  · exact .inl rfl

theorem schedPerformCellMeas_returns : Returns Outcome.Final (schedPerformCellMeas S task) := by
  unfold schedPerformCellMeas
  split_ifs
  · intro found
    cases found with
    | none => exact .inl rfl
    | some trig =>
      intro _
      dsimp only
      split_ifs
      · exact .inl rfl
      · exact fun _ ↦ .inl rfl
      · exact fun _ _ _ ↦ .inl rfl
  · dsimp only
    split_ifs
    · exact .inl rfl
    · exact .inl rfl
    · exact fun _ ↦ .inl rfl
  · exact .inl rfl

theorem schedPerform_returns : Returns Outcome.Final (schedPerform S task) := by
  cases htype : task.type with
  | enbSetup | ho | ranSetup | ranSlice =>
    exact schedPerform_request (by simp [htype]) (.inl rfl) fun c _ _ ↦ .inl rfl
  | send =>
    simp only [schedPerform, htype]
    exact schedSendMsg_returns S _
  | hello =>
    simp only [schedPerform, htype, schedPerformHello]
    split
    · exact fun _ ↦ .inl rfl
    · exact schedSendMsg_returns S _
  | ueReport =>
    simp only [schedPerform, htype, schedPerformUeReport]
    split_ifs
    · exact fun _ ↦ .inl rfl
    · exact .inl rfl
  | ueMeasure =>
    simp only [schedPerform, htype]
    exact schedPerformUeMeasure_returns S task
  | cellMeasure =>
    simp only [schedPerform, htype]
    exact schedPerformCellMeas_returns S task
  | invalid =>
    simp only [schedPerform, htype]
    exact .inl rfl

theorem schedPerformJob_returns (now : Timespec) :
    Returns (task.Tells now) (schedPerformJob S task now) := by
  unfold schedPerformJob
  split_ifs with hdue
  · exact ⟨iff_of_true rfl hdue, nofun, nofun⟩
  · refine (schedPerform_returns S task).bind fun op hop ↦ ?_
    change task.Tells now (if op = .consumed ∧ task.resch ≠ 0 then .reschedule else op)
    rcases hop with rfl | rfl
    · split_ifs with hresch
      · exact ⟨iff_of_false nofun hdue, fun _ ↦ hresch.2, nofun⟩
      · exact ⟨iff_of_false nofun hdue, nofun, fun _ ↦ by simpa using hresch⟩
    · rw [if_neg (by simp)]
      exact ⟨iff_of_false nofun hdue, nofun, nofun⟩

end Outcomes

structure Round where
  now : Timespec
  op : Outcome
  deriving DecidableEq, Repr

/-- What the scheduler keeps of a task after a round. -/
def Emtask.settle (task : Emtask) (r : Round) : Option Emtask :=
  match r.op with
  | .notElapsed => some task
  | .reschedule => some { task with
      issued := r.now
      resch := if 0 < task.resch then task.resch - 1 else task.resch }
  | .consumed | .netError => none

/-- The life of a task so far: what it was when it was accepted, its rounds,
each at a time that `Q` allows, and what it is now. -/
inductive Lived (Q : Emtask → Timespec → Prop) : Emtask → List Round → Emtask → Prop
  | start (task : Emtask) : Lived Q task [] task
  | round {t₀ t t' : Emtask} {rs : List Round} {r : Round} :
      Lived Q t₀ rs t → Q t r.now → t.Tells r.now r.op → t.settle r = some t' →
      Lived Q t₀ (rs ++ [r]) t'

section Lives

variable {Q : Emtask → Timespec → Prop} {t₀ t t' : Emtask} {rs : List Round} {r : Round}

theorem Emtask.settle_same (h : t.settle r = some t') :
    t.Same t' ∧ t'.elapse = t.elapse := by
  unfold Emtask.settle at h
  split at h
  · cases h
    exact ⟨.refl t, rfl⟩
  · cases h
    exact ⟨⟨rfl, rfl, rfl, rfl, rfl, fun hzero ↦ by simp [hzero]⟩, rfl⟩
  · cases h
  · cases h

theorem Lived.same (h : Lived Q t₀ rs t) : t₀.Same t ∧ t.elapse = t₀.elapse := by
  induction h with
  | start => exact ⟨.refl _, rfl⟩
  | round _ _ _ hs ih =>
    obtain ⟨hsame, helapse⟩ := Emtask.settle_same hs
    exact ⟨ih.1.trans hsame, helapse.trans ih.2⟩

end Lives

/-- What an observer notes of the tasks: what they were when the scheduler
accepted them, their rounds by address, the time read last, and whether the
scheduler has dumped its lists. -/
structure TaskLog where
  accepted : List Emtask
  rounds : List (ℕ × Round)
  clock : Option Timespec
  dumped : Bool

def TaskLog.life (g : TaskLog) (addr : ℕ) : List Round := recorded addr g.rounds

def SchPc.rounds : SchPc → List (ℕ × Round)
  | .perform task now (.pure op) => [(task.addr, ⟨now, op⟩)]
  | _ => []

def SchPc.dumps : SchPc → Bool
  | .settle _ _ .netError | .drain => true
  | _ => false

namespace Agent

def given (s s' : Agent) : Act → List Emtask
  | .sched _ => []
  | _ => s'.w.sched.jobs.drop s.w.sched.jobs.length

def rounds (s : Agent) : Act → List (ℕ × Round)
  | .sched _ => s.sch.rounds
  | _ => []

def dumps (s : Agent) : Act → Bool
  | .sched _ => s.sch.dumps
  | _ => false

end Agent

def noteTasks (s : Agent) (a : Act) (s' : Agent) (g : TaskLog) : TaskLog where
  accepted := g.accepted ++ s.given s' a
  rounds := g.rounds ++ s.rounds a
  clock := (g.clock.toList ++ a.readings).getLast?
  dumped := g.dumped || s.dumps a

def taskAgent (S : Setup) : Library.Machine (Agent × TaskLog) Act :=
  (agent S).watch ⟨[], [], none, false⟩ noteTasks

section Notes

variable {Q : Emtask → Timespec → Prop} {g g' : TaskLog} {t task : Emtask} {r : Round} {addr : ℕ}

def Waiting (Q : Emtask → Timespec → Prop) (g : TaskLog) (t : Emtask) : Prop :=
  ∃ t₀ ∈ g.accepted, Lived Q t₀ (g.life t.addr) t

def Back (Q : Emtask → Timespec → Prop) (g : TaskLog) (t : Emtask) (r : Round) : Prop :=
  ∃ t₀ ∈ g.accepted, ∃ rs, g.life t.addr = rs ++ [r] ∧ Lived Q t₀ rs t ∧ Q t r.now ∧
    t.Tells r.now r.op

def Flies (Q : Emtask → Timespec → Prop) (g : TaskLog) : SchPc → Prop
  | .clock task => Waiting Q g task
  | .perform task now p => Waiting Q g task ∧ Q task now ∧ Returns (task.Tells now) p
  | .settle task now op => Back Q g task ⟨now, op⟩
  | _ => True

def Gone (Q : Emtask → Timespec → Prop) (g : TaskLog) (addr : ℕ) : Prop :=
  ∃ t, t.addr = addr ∧ ((∃ now, Back Q g t ⟨now, .consumed⟩) ∨
    g.dumped = true ∧ (Waiting Q g t ∨ ∃ r, Back Q g t r))

theorem Waiting.mono (h : Waiting Q g t) (hacc : g.accepted ⊆ g'.accepted)
    (hlife : g'.life t.addr = g.life t.addr) : Waiting Q g' t := by
  obtain ⟨t₀, ht₀, hlived⟩ := h
  exact ⟨t₀, hacc ht₀, hlife ▸ hlived⟩

theorem Back.mono (h : Back Q g t r) (hacc : g.accepted ⊆ g'.accepted)
    (hlife : g'.life t.addr = g.life t.addr) : Back Q g' t r := by
  obtain ⟨t₀, ht₀, rs, hrs, hrest⟩ := h
  exact ⟨t₀, hacc ht₀, rs, hlife.trans hrs, hrest⟩

theorem Flies.mono {pc : SchPc} (h : Flies Q g pc) (hacc : g.accepted ⊆ g'.accepted)
    (hlife : ∀ t ∈ pc.held, g'.life t.addr = g.life t.addr) : Flies Q g' pc := by
  cases pc with
  | clock task => exact Waiting.mono h hacc (hlife task (List.mem_singleton_self task))
  | perform task now p =>
    obtain ⟨hw, hrest⟩ := h
    exact ⟨hw.mono hacc (hlife task (List.mem_singleton_self task)), hrest⟩
  | settle task now op => exact Back.mono h hacc (hlife task (List.mem_singleton_self task))
  | _ => trivial

theorem Gone.mono (h : Gone Q g addr) (hacc : g.accepted ⊆ g'.accepted)
    (hlife : g'.life addr = g.life addr) (hd : g.dumped = true → g'.dumped = true) :
    Gone Q g' addr := by
  obtain ⟨t, rfl, ⟨now, hb⟩ | ⟨hg, hw | ⟨r, hb⟩⟩⟩ := h
  · exact ⟨t, rfl, .inl ⟨now, hb.mono hacc hlife⟩⟩
  · exact ⟨t, rfl, .inr ⟨hd hg, .inl (hw.mono hacc hlife)⟩⟩
  · exact ⟨t, rfl, .inr ⟨hd hg, .inr ⟨r, hb.mono hacc hlife⟩⟩⟩

theorem TaskLog.life_same (h : g'.rounds = g.rounds) (addr : ℕ) : g'.life addr = g.life addr := by
  rw [life, life, h]

theorem TaskLog.life_other (h : g'.rounds = g.rounds ++ [(t.addr, r)]) (hne : addr ≠ t.addr) :
    g'.life addr = g.life addr := by
  have hnone : recorded addr [(t.addr, r)] = [] := recorded_of_not_mem (by simpa using hne)
  rw [life, life, h, recorded_append, hnone, List.append_nil]

theorem TaskLog.life_own (h : g'.rounds = g.rounds ++ [(t.addr, r)]) :
    g'.life t.addr = g.life t.addr ++ [r] := by
  rw [life, life, h, recorded_append]
  simp [recorded]

theorem Waiting.back (h : Waiting Q g t) (hq : Q t r.now) (htells : t.Tells r.now r.op)
    (hacc : g'.accepted = g.accepted) (hr : g'.rounds = g.rounds ++ [(t.addr, r)]) :
    Back Q g' t r := by
  obtain ⟨t₀, ht₀, hlived⟩ := h
  exact ⟨t₀, hacc ▸ ht₀, _, TaskLog.life_own hr, hlived, hq, htells⟩

theorem Back.waits (h : Back Q g task r) (hs : task.settle r = some t) : Waiting Q g t := by
  obtain ⟨t₀, ht₀, rs, hrs, hlived, hq, htells⟩ := h
  refine ⟨t₀, ht₀, ?_⟩
  rw [(Emtask.settle_same hs).1.addr, hrs]
  exact .round hlived hq htells hs

variable {t₀ : Emtask} (ht : t₀ ∈ g.accepted) (hnodup : (addrs g.accepted).Nodup)
  (haddr : t.addr = t₀.addr)
include ht hnodup haddr

theorem Waiting.lived (h : Waiting Q g t) : Lived Q t₀ (g.life t₀.addr) t := by
  obtain ⟨t₁, ht₁, hlived⟩ := h
  obtain rfl : t₁ = t₀ :=
    List.inj_on_of_nodup_map hnodup ht₁ ht (hlived.same.1.addr.symm.trans haddr)
  exact haddr ▸ hlived

theorem Back.lived (h : Back Q g t r) : ∃ rs, g.life t₀.addr = rs ++ [r] ∧ Lived Q t₀ rs t ∧
    Q t r.now ∧ t.Tells r.now r.op := by
  obtain ⟨t₁, ht₁, rs, hrs, hlived, hrest⟩ := h
  obtain rfl : t₁ = t₀ :=
    List.inj_on_of_nodup_map hnodup ht₁ ht (hlived.same.1.addr.symm.trans haddr)
  exact ⟨rs, haddr ▸ hrs, hlived, hrest⟩

end Notes

section Runs

variable {Q : Emtask → Timespec → Prop} {S : Setup} {s s' : Agent} {g g' : TaskLog}
  {t task : Emtask} {r : Round} {w w' : World} {a : Act}

structure LivesInv (Q : Emtask → Timespec → Prop) (pc : SchPc) (w : World) (g : TaskLog) :
    Prop where
  books : addrs g.accepted = w.accepted
  known : ∀ e ∈ g.rounds, e.1 ∈ w.accepted
  waits : ∀ t ∈ w.sched.todo ++ w.sched.jobs, Waiting Q g t
  flies : Flies Q g pc
  gone : ∀ addr ∈ w.freed, Gone Q g addr

theorem held_apart (h : (agent S).Reachable s) (ht : task ∈ s.sch.held)
    (hu : t ∈ s.w.sched.todo ++ s.w.sched.jobs) : t.addr ≠ task.addr := by
  intro heq
  apply (held_once h ht).1
  rw [← heq]
  exact List.mem_map_of_mem hu

theorem Move.given (hm : Move S s a s') (ha : ∀ ans, a ≠ .sched ans) :
    (Idle s.w s'.w ∧ s.given s' a = []) ∨
      ∃ task v, Idle s.w v ∧ s'.w = v.accept task ∧ s.given s' a = [task] := by
  have hnone {w : World} (hi : Idle s.w w) : w.sched.jobs.drop s.w.sched.jobs.length = [] := by
    rw [hi.jobs, List.drop_length]
  have hone {v : World} (hi : Idle s.w v) (task : Emtask) :
      (v.accept task).sched.jobs.drop s.w.sched.jobs.length = [task] := by
    simp [World.accept, hi.jobs]
  cases hm with
  | sched => exact absurd rfl (ha _)
  | net hm =>
    rcases hm.tasks with hi | ⟨task, v, hi, rfl, _⟩
    · exact .inl ⟨hi, hnone hi⟩
    · exact .inr ⟨task, v, hi, rfl, hone hi task⟩
  | api hr =>
    have hheap {heap : ℕ} (hle : s.w.heap ≤ heap) : Idle s.w { s.w with heap } :=
      .silent rfl rfl hle rfl
    cases apiCall_move hr with
    | emSend hle => exact .inl ⟨hheap hle, hnone (hheap hle)⟩
    | emSendQueued hle hlt =>
      have hi := hheap (Nat.le_trans hle (Nat.le_of_lt hlt))
      exact .inr ⟨_, _, hi, rfl, hone hi _⟩
    | emHasTrigger => exact .inl ⟨hheap (Nat.le_refl _), List.drop_length⟩
    | emDelTrigger =>
      exact .inl ⟨.silent rfl rfl (Nat.le_refl _) rfl, List.drop_length⟩
  | release hm =>
    have hi : Idle s.w s'.w := by
      cases hm <;> exact .silent rfl rfl (Nat.le_refl _) rfl
    exact .inl ⟨hi, hnone hi⟩

theorem LivesInv.idle {pc pc' : SchPc} (h : LivesInv Q pc w g) (hi : Idle w w')
    (hacc : g'.accepted = g.accepted) (hrounds : g'.rounds = g.rounds)
    (hd : g.dumped = true → g'.dumped = true) (hflies : Flies Q g pc → Flies Q g' pc') :
    LivesInv Q pc' w' g' where
  books := by rw [hacc, hi.accepted, h.books]
  known := by
    rw [hrounds, hi.accepted]
    exact h.known
  waits := by
    rw [hi.todo, hi.jobs]
    exact fun t ht ↦ (h.waits t ht).mono (hacc ▸ List.Subset.refl _)
      (TaskLog.life_same hrounds _)
  flies := hflies h.flies
  gone := by
    rw [hi.freed]
    exact fun addr haddr ↦ (h.gone addr haddr).mono (hacc ▸ List.Subset.refl _)
      (TaskLog.life_same hrounds _) hd

theorem LivesInv.accept {pc : SchPc} (h : LivesInv Q pc w g) (hnew : task.addr ∉ w.accepted)
    (hacc : g'.accepted = g.accepted ++ [task]) (hrounds : g'.rounds = g.rounds)
    (hd : g'.dumped = g.dumped) : LivesInv Q pc (w.accept task) g' where
  books := by rw [hacc, addrs_append, h.books, World.accepted_accept, addrs_cons, addrs_nil]
  known := by
    rw [hrounds, World.accepted_accept]
    exact fun e he ↦ List.mem_append_left _ (h.known e he)
  waits t ht := by
    have hsub : g.accepted ⊆ g'.accepted := hacc ▸ List.subset_append_left _ _
    simp only [World.accept, ← List.append_assoc] at ht
    rcases List.mem_append.mp ht with ht | ht
    · exact (h.waits t ht).mono hsub (TaskLog.life_same hrounds _)
    · obtain rfl := List.mem_singleton.mp ht
      have hlife : g'.life t.addr = [] := by
        rw [TaskLog.life, hrounds]
        refine recorded_of_not_mem fun hmem ↦ hnew ?_
        obtain ⟨e, he, heq⟩ := List.mem_map.mp hmem
        exact heq ▸ h.known e he
      refine ⟨t, hacc ▸ List.mem_append_right _ (List.mem_singleton_self t), ?_⟩
      rw [hlife]
      exact .start t
  flies := h.flies.mono (hacc ▸ List.subset_append_left _ _)
    fun t _ ↦ TaskLog.life_same hrounds _
  gone := by
    rw [World.freed_accept]
    exact fun addr haddr ↦ (h.gone addr haddr).mono (hacc ▸ List.subset_append_left _ _)
      (TaskLog.life_same hrounds _) fun hg ↦ hd.trans hg

theorem LivesInv.outside (h : LivesInv Q s.sch s.w g) (hr' : (agent S).Reachable s')
    (hm : Move S s a s') (ha : ∀ ans, a ≠ .sched ans) :
    LivesInv Q s'.sch s'.w (noteTasks s a s' g) := by
  have hsch := (hm.unscheduled ha).1
  have hquiet : s.rounds a = [] ∧ s.dumps a = false := by
    cases a with
    | sched => exact absurd rfl (ha _)
    | _ => exact ⟨rfl, rfl⟩
  have hrounds : (noteTasks s a s' g).rounds = g.rounds := by
    simp only [noteTasks, hquiet.1, List.append_nil]
  have hd : (noteTasks s a s' g).dumped = g.dumped := by
    simp only [noteTasks, hquiet.2, Bool.or_false]
  rw [hsch]
  rcases hm.given ha with ⟨hi, hgiven⟩ | ⟨task, v, hi, hw, hgiven⟩
  · have hacc : (noteTasks s a s' g).accepted = g.accepted := by
      simp only [noteTasks, hgiven, List.append_nil]
    refine h.idle hi hacc hrounds (fun hg ↦ hd.trans hg) fun hf ↦ ?_
    exact hf.mono (hacc ▸ List.Subset.refl _) fun t _ ↦ TaskLog.life_same hrounds _
  · have hv : LivesInv Q s.sch v g := h.idle hi rfl rfl id id
    rw [hw]
    refine hv.accept ?_ (by simp only [noteTasks, hgiven]) hrounds hd
    rw [hi.accepted]
    refine not_accepted_before hr' ?_
    rw [hw, World.accepted_accept, hi.accepted]

/-- What is known of the task in flight: it has been accepted, it is not freed,
and none of those that wait is the same. -/
structure Apart (pc : SchPc) (w : World) : Prop where
  accepted : ∀ t ∈ pc.held, t.addr ∈ w.accepted
  waits : ∀ t ∈ pc.held, ∀ u ∈ w.sched.todo ++ w.sched.jobs, u.addr ≠ t.addr
  freed : ∀ t ∈ pc.held, t.addr ∉ w.freed

theorem Apart.of_reachable (h : (agent S).Reachable s) : Apart s.sch s.w where
  accepted _ ht := pending_accepted h (held_pending ht)
  waits _ ht _ hu := held_apart h ht hu
  freed _ ht := held_not_freed h ht

theorem LivesInv.move {pc pc' : SchPc} (h : LivesInv Q pc w g) (hacc : w'.accepted = w.accepted)
    (hwaits : ∀ t ∈ w'.sched.todo ++ w'.sched.jobs, Waiting Q g t)
    (hflies : Flies Q g pc') (hgone : ∀ addr ∈ w'.freed, Gone Q g addr) :
    LivesInv Q pc' w' g where
  books := h.books.trans hacc.symm
  known e he := hacc ▸ h.known e he
  waits := hwaits
  flies := hflies
  gone := hgone

theorem LivesInv.returned {now : Timespec} {op : Outcome} (hapart : Apart (.clock task) w)
    (h : LivesInv Q (.perform task now (.pure op)) w g) (hacc : g'.accepted = g.accepted)
    (hrounds : g'.rounds = g.rounds ++ [(task.addr, ⟨now, op⟩)]) (hd : g'.dumped = g.dumped) :
    LivesInv Q (.settle task now op) (w.log (.performed task.addr op)) g' := by
  have hi : Idle w (w.log (.performed task.addr op)) := .log w _ ⟨rfl, rfl⟩
  have htask : task ∈ (SchPc.clock task).held := List.mem_singleton_self task
  have hsub : g.accepted ⊆ g'.accepted := hacc ▸ List.Subset.refl _
  obtain ⟨hw, hq, htells⟩ := h.flies
  refine ⟨by rw [hacc, hi.accepted, h.books], fun e he ↦ ?_, fun t ht ↦ ?_, ?_, fun addr haddr ↦ ?_⟩
  · rw [hi.accepted]
    rw [hrounds] at he
    rcases List.mem_append.mp he with he | he
    · exact h.known e he
    · obtain rfl := List.mem_singleton.mp he
      exact hapart.accepted task htask
  · rw [hi.todo, hi.jobs] at ht
    exact (h.waits t ht).mono hsub (TaskLog.life_other hrounds (hapart.waits task htask t ht))
  · exact Waiting.back (r := ⟨now, op⟩) hw hq htells hacc hrounds
  · rw [hi.freed] at haddr
    have hne : addr ≠ task.addr := fun heq ↦ hapart.freed task htask (heq ▸ haddr)
    exact (h.gone addr haddr).mono hsub (TaskLog.life_other hrounds hne) fun hg ↦ hd.trans hg

theorem LivesInv.dump {pc pc' : SchPc} {ts : List Emtask} (h : LivesInv Q pc w g)
    (hflies : Flies Q g' pc') (hacc : g'.accepted = g.accepted) (hrounds : g'.rounds = g.rounds)
    (hd : g'.dumped = true) (hts : ∀ t ∈ ts, Waiting Q g t ∨ ∃ r, Back Q g t r) :
    LivesInv Q pc' { w with
      sched := { w.sched with jobs := [], todo := [] }
      hist := w.hist ++ ts.map (.freed ·.addr) } g' := by
  have hsub : g.accepted ⊆ g'.accepted := hacc ▸ List.Subset.refl _
  have haccepted : World.accepted { w with
      sched := { w.sched with jobs := [], todo := [] }
      hist := w.hist ++ ts.map (.freed ·.addr) } = w.accepted :=
    accepted_of_extends (.freed rfl fun _ ↦ rfl)
  refine ⟨?_, ?_, List.forall_mem_nil _, hflies, fun addr haddr ↦ ?_⟩
  · rw [hacc, h.books, haccepted]
  · rw [hrounds, haccepted]
    exact h.known
  · simp only [World.freed, List.filterMap_append, filterMap_freed] at haddr
    rcases List.mem_append.mp haddr with haddr | haddr
    · exact (h.gone addr haddr).mono hsub (TaskLog.life_same hrounds _) fun _ ↦ hd
    · obtain ⟨t, ht, rfl⟩ := List.mem_map.mp haddr
      refine ⟨t, rfl, .inr ⟨hd, ?_⟩⟩
      rcases hts t ht with hw | ⟨r, hb⟩
      · exact .inl (hw.mono hsub (TaskLog.life_same hrounds _))
      · exact .inr ⟨r, hb.mono hsub (TaskLog.life_same hrounds _)⟩

theorem LivesInv.consumed {now : Timespec} (h : LivesInv Q (.settle task now .consumed) w g) :
    LivesInv Q .take (w.log (.freed task.addr)) g := by
  refine h.move (accepted_of_extends (.event rfl rfl)) h.waits trivial fun addr haddr ↦ ?_
  rw [World.freed_log] at haddr
  rcases List.mem_append.mp haddr with haddr | haddr
  · exact h.gone addr haddr
  · obtain rfl := List.mem_singleton.mp haddr
    exact ⟨task, rfl, .inl ⟨now, h.flies⟩⟩

theorem LivesInv.schMove {pc pc' : SchPc} (h : LivesInv Q pc w g) (hm : SchMove S pc w pc' w')
    (hapart : Apart pc w) (hperf : Performing pc)
    (hclock : ∀ task now p, pc = .clock task → pc' = .perform task now p → Q task now)
    (hacc : g'.accepted = g.accepted) (hrounds : g'.rounds = g.rounds ++ pc.rounds)
    (hd : g'.dumped = (g.dumped || pc.dumps)) : LivesInv Q pc' w' g' := by
  have hsame (hr : pc.rounds = []) (hn : pc.dumps = false) : LivesInv Q pc w g' := by
    rw [hr, List.append_nil] at hrounds
    rw [hn, Bool.or_false] at hd
    refine h.idle (.silent rfl rfl (Nat.le_refl _) rfl) hacc hrounds (fun hg ↦ hd.trans hg) ?_
    exact fun hf ↦ hf.mono (hacc ▸ List.Subset.refl _) fun t _ ↦ TaskLog.life_same hrounds _
  cases hm with
  | returned =>
    have hd' := hd.trans (Bool.or_false _)
    exact h.returned ⟨hapart.accepted, hapart.waits, hapart.freed⟩ hacc hrounds hd'
  | op he =>
    obtain ⟨failed, hobeys⟩ := hperf
    refine (hsame rfl rfl).idle (he.idle hobeys.1) rfl rfl id fun hf ↦ ?_
    exact ⟨hf.1, hf.2.1, hf.2.2 _⟩
  | clock =>
    have hI := hsame rfl rfl
    refine hI.move rfl hI.waits ?_ hI.gone
    exact ⟨hI.flies, hclock _ _ _ rfl rfl, schedPerformJob_returns S _ _⟩
  | takeTask hjobs =>
    have hI := hsame rfl rfl
    have hwaits := hI.waits
    simp only [hjobs, List.mem_append, List.mem_cons] at hwaits
    refine hI.move rfl (fun t ht ↦ hwaits t ?_) (hwaits _ (.inr (.inl rfl))) hI.gone
    rcases List.mem_append.mp ht with ht | ht
    · exact .inl ht
    · exact .inr (.inr ht)
  | later =>
    have hI := hsame rfl rfl
    have hback := Back.waits hI.flies rfl
    exact hI.move rfl (List.forall_mem_cons.mpr ⟨hback, hI.waits⟩) trivial hI.gone
  | again =>
    have hI := hsame rfl rfl
    have hback := Back.waits hI.flies rfl
    exact hI.move rfl (List.forall_mem_cons.mpr ⟨hback, hI.waits⟩) trivial hI.gone
  | consumed => exact (hsame rfl rfl).consumed
  | back =>
    have hI := hsame rfl rfl
    refine hI.move rfl (fun t ht ↦ hI.waits t ?_) trivial hI.gone
    simpa using ht
  | @netError _ task now =>
    have hrounds' := hrounds.trans (List.append_nil _)
    refine h.dump trivial hacc hrounds' (by simpa [SchPc.dumps] using hd) ?_
    exact List.forall_mem_cons.mpr ⟨.inr ⟨_, h.flies⟩, fun t ht ↦ .inl (h.waits t ht)⟩
  | drain =>
    have hrounds' := hrounds.trans (List.append_nil _)
    refine h.dump trivial hacc hrounds' (by simpa [SchPc.dumps] using hd) ?_
    exact fun t ht ↦ .inl (h.waits t ht)
  | alert =>
    split_ifs
    · exact (hsame rfl rfl).idle (.log w _ ⟨rfl, rfl⟩) rfl rfl id fun _ ↦ trivial
    · exact (hsame rfl rfl).idle (.silent rfl rfl (Nat.le_refl _) rfl) rfl rfl id fun _ ↦ trivial
  | down => exact (hsame rfl rfl).idle (.netNotConnected w) rfl rfl id fun _ ↦ trivial
  | _ =>
    refine (hsame rfl rfl).idle (.silent rfl rfl (Nat.le_refl _) rfl) rfl rfl id fun _ ↦ ?_
    trivial

theorem clock_reading {ans : Ans} {task : Emtask} {now : Timespec} {p : Proc Outcome}
    (hs : schedStep S (.clock task) ans w = some (.perform task now p, w')) : ans = .time now := by
  cases ans with
  | time t =>
    cases hs
    rfl
  | _ => cases hs

/-- Every task has lived through the rounds noted for it, each of them at a
time that `Q` allows if the steps allow no other. -/
theorem LivesInv.of_reach {ok : Agent × TaskLog → Act → Prop} {p : Agent × TaskLog}
    (h : (taskAgent S).Reach ok p)
    (hclock : ∀ q task now, (taskAgent S).Reach ok q → ok q (.sched (.time now)) →
      q.1.sch = .clock task → Q task now) : LivesInv Q p.1.sch p.1.w p.2 := by
  refine h.invariant (I := fun p ↦ LivesInv Q p.1.sch p.1.w p.2) ?_ ?_
  · exact ⟨rfl, List.forall_mem_nil _, List.forall_mem_nil _, trivial, List.forall_mem_nil _⟩
  rintro q a ⟨s', g'⟩ hr hI hok hs
  obtain ⟨hstep, hnote⟩ := Library.Machine.watch_step hs
  dsimp only at hstep hnote ⊢
  subst hnote
  have hreach : (agent S).Reachable q.1 := hr.unwatch fun _ _ _ ↦ trivial
  rcases Agent.sched_or hstep with ⟨ans, pc, w, rfl, hsched, rfl⟩ | ha
  · refine hI.schMove (schedStep_move hsched) (.of_reachable hreach) (conduct hreach).1 ?_
      (List.append_nil _) rfl rfl
    rintro task now p hpc rfl
    rw [hpc] at hsched
    obtain rfl := clock_reading hsched
    exact hclock q task now hr hok hpc
  · exact hI.outside (.step hreach trivial hstep) (Agent.step_move hstep) ha

theorem accepted_cases {s : Agent} (h : (agent S).Reachable s) {addr : ℕ}
    (hacc : addr ∈ s.w.accepted) :
    (∃ t ∈ s.w.sched.todo ++ s.w.sched.jobs, t.addr = addr) ∨ (∃ t ∈ s.sch.held, t.addr = addr) ∨
      addr ∈ s.w.freed := by
  have hbal := (TaskInv.of_reachable h).books.balance addr
  have hpos := List.count_pos_iff.mpr hacc
  simp only [World.places] at hbal
  have hcases : 0 < (addrs (s.w.sched.todo ++ s.w.sched.jobs)).count addr ∨
      0 < (addrs s.sch.held).count addr ∨ 0 < s.w.freed.count addr := by
    rw [addrs_append, List.count_append]
    omega
  rcases hcases with hc | hc | hc
  · exact .inl (List.mem_map.mp (List.count_pos_iff.mp hc))
  · exact .inr (.inl (List.mem_map.mp (List.count_pos_iff.mp hc)))
  · exact .inr (.inr (List.count_pos_iff.mp hc))

theorem LivesInv.nodup (h : LivesInv Q s.sch s.w g) (hr : (agent S).Reachable s) :
    (addrs g.accepted).Nodup := by
  rw [h.books]
  exact (TaskInv.of_reachable hr).books.once

theorem LivesInv.life (h : LivesInv Q s.sch s.w g) (hr : (agent S).Reachable s)
    (ht : task ∈ g.accepted) : ∃ t, Lived Q task (g.life task.addr) t ∨
      ∃ rs r, g.life task.addr = rs ++ [r] ∧ Lived Q task rs t ∧ Q t r.now ∧
        t.Tells r.now r.op := by
  have hnodup := h.nodup hr
  have hacc : task.addr ∈ s.w.accepted := by
    rw [← h.books]
    exact List.mem_map_of_mem ht
  have hwaits {t : Emtask} (haddr : t.addr = task.addr) (hw : Waiting Q g t) :=
    hw.lived ht hnodup haddr
  have hback {t : Emtask} {r : Round} (haddr : t.addr = task.addr) (hb : Back Q g t r) :
      ∃ rs r, g.life task.addr = rs ++ [r] ∧ Lived Q task rs t ∧ Q t r.now ∧
        t.Tells r.now r.op := by
    obtain ⟨rs, hrs⟩ := hb.lived ht hnodup haddr
    exact ⟨rs, r, hrs⟩
  rcases accepted_cases hr hacc with ⟨t, hmem, haddr⟩ | ⟨t, hmem, haddr⟩ | hfreed
  · exact ⟨t, .inl (hwaits haddr (h.waits t hmem))⟩
  · have hflies := h.flies
    cases hpc : s.sch with
    | clock u =>
      rw [hpc] at hmem hflies
      obtain rfl := List.mem_singleton.mp hmem
      exact ⟨t, .inl (hwaits haddr hflies)⟩
    | perform u now p =>
      rw [hpc] at hmem hflies
      obtain rfl := List.mem_singleton.mp hmem
      exact ⟨t, .inl (hwaits haddr hflies.1)⟩
    | settle u now op =>
      rw [hpc] at hmem hflies
      obtain rfl := List.mem_singleton.mp hmem
      exact ⟨t, .inr (hback haddr hflies)⟩
    | _ =>
      rw [hpc] at hmem
      cases hmem
  · obtain ⟨t, haddr, ⟨now, hb⟩ | ⟨_, hw | ⟨r, hb⟩⟩⟩ := h.gone _ hfreed
    · exact ⟨t, .inr (hback haddr hb)⟩
    · exact ⟨t, .inl (hwaits haddr hw)⟩
    · exact ⟨t, .inr (hback haddr hb)⟩

end Runs

end EmpowerAgent
