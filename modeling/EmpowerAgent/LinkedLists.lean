import EmpowerAgent.LinkedAgent
import EmpowerAgent.TaskOwnership
import Mathlib.Data.List.Find

namespace EmpowerAgent

open Library (Nodes)
open Library.Proc (Protocol Obeys)
open Emlist Proc

def Emtask.node (t : Emtask) : Node := .task t.addr

def Emtri.node (t : Emtri) : Node := .trigger t.addr

inductive Queue
  | jobs
  | todo
  deriving DecidableEq, Repr

def Queue.head : Queue → Node
  | .jobs => .jobs
  | .todo => .todo

namespace World

def queue (w : World) : Queue → List Emtask
  | .jobs => w.sched.jobs
  | .todo => w.sched.todo

def withQueue (w : World) (q : Queue) (l : List Emtask) : World :=
  match q with
  | .jobs => { w with sched := { w.sched with jobs := l } }
  | .todo => { w with sched := { w.sched with todo := l } }

def withTs (w : World) (ts : List Emtri) : World := { w with trig := { w.trig with ts } }

variable (w : World) (q : Queue) (l : List Emtask)

@[simp] theorem queue_withQueue : (w.withQueue q l).queue q = l := by cases q <;> rfl

theorem queue_withQueue_of_ne {q' : Queue} (h : q' ≠ q) :
    (w.withQueue q l).queue q' = w.queue q' := by
  cases q <;> cases q' <;> first | rfl | exact absurd rfl h

@[simp] theorem ts_withQueue : (w.withQueue q l).trig = w.trig := by cases q <;> rfl

@[simp] theorem heap_withQueue : (w.withQueue q l).heap = w.heap := by cases q <;> rfl

end World

section Places

/-- How often an address is that of something which a thread owns or holds, or
which stands in a list. -/
def World.standing (w : World) (own : List ℕ) (held : List Emtask) (p : ℕ) : ℕ :=
  own.count p + (addrs held).count p + (addrs (w.queue .jobs)).count p +
    (addrs (w.queue .todo)).count p + (w.trig.ts.map Emtri.addr).count p

structure Distinct (own : List ℕ) (held : List Emtask) (w : World) : Prop where
  once : ∀ p, w.standing own held p ≤ 1
  below : ∀ p, w.standing own held p ≠ 0 → p < w.heap

variable {own own' : List ℕ} {held held' l : List Emtask} {w w' : World} {q q' : Queue}
  {t : Emtask} {p : ℕ}

theorem Distinct.of_le (h : Distinct own held w) (hheap : w.heap ≤ w'.heap)
    (hle : ∀ p, w'.standing own' held' p ≤ w.standing own held p) : Distinct own' held' w' where
  once p := (hle p).trans (h.once p)
  below p hp := by
    have hlep := hle p
    exact Nat.lt_of_lt_of_le (h.below p (by omega)) hheap

theorem queue_standing (w : World) (own : List ℕ) (held : List Emtask) (q : Queue) (p : ℕ) :
    own.count p + (addrs held).count p + (addrs (w.queue q)).count p +
      (w.trig.ts.map Emtri.addr).count p ≤ w.standing own held p := by
  cases q <;> simp only [World.standing] <;> omega

theorem Distinct.queues (h : Distinct own held w) (hne : q ≠ q') (hp : p ∈ addrs (w.queue q)) :
    p ∉ addrs (w.queue q') := by
  intro hp'
  have hle := h.once p
  have hpos := List.count_pos_iff.mpr hp
  have hpos' := List.count_pos_iff.mpr hp'
  cases q <;> cases q' <;> first | exact hne rfl | simp only [World.standing] at hle; omega

theorem Distinct.held_queue (h : Distinct own held w) (hp : p ∈ addrs held) (q : Queue) :
    p ∉ addrs (w.queue q) := by
  intro hp'
  have hle := (queue_standing w own held q p).trans (h.once p)
  have hpos := List.count_pos_iff.mpr hp
  have hpos' := List.count_pos_iff.mpr hp'
  omega

theorem Distinct.own_off (h : Distinct own held w) (hp : p ∈ own) : p < w.heap ∧
    (∀ q, p ∉ addrs (w.queue q)) ∧ p ∉ addrs held ∧ p ∉ w.trig.ts.map Emtri.addr := by
  have hle := h.once p
  have hpos := List.count_pos_iff.mpr hp
  have hsum (q : Queue) := (queue_standing w own held q p).trans hle
  refine ⟨h.below p ?_, fun q hp' ↦ ?_, fun hp' ↦ ?_, fun hp' ↦ ?_⟩
  · simp only [World.standing]
    omega
  · have hpos' := List.count_pos_iff.mpr hp'
    have := hsum q
    omega
  · have hpos' := List.count_pos_iff.mpr hp'
    have := hsum .jobs
    omega
  · have hpos' := List.count_pos_iff.mpr hp'
    have := hsum .jobs
    omega

theorem Distinct.take (h : Distinct own held w) (hq : w.queue q = t :: l) :
    Distinct own (t :: held) (w.withQueue q l) := by
  refine h.of_le (by simp) fun p ↦ ?_
  cases q <;> simp only [World.queue] at hq <;>
    simp only [World.standing, World.queue, World.withQueue, hq, addrs_cons, List.count_cons] <;>
    omega

theorem Distinct.put (h : Distinct own (t :: held) w)
    (hl : ∀ p, (addrs l).count p = (addrs (t :: w.queue q)).count p) :
    Distinct own held (w.withQueue q l) := by
  refine h.of_le (by simp) fun p ↦ ?_
  have hlp := hl p
  cases q <;> simp only [World.standing, World.queue, World.withQueue, addrs_cons, List.count_cons]
    at hlp ⊢ <;> omega

theorem Distinct.drop (h : Distinct own (t :: held) w) : Distinct own held w := by
  refine h.of_le (Nat.le_refl _) fun p ↦ ?_
  simp only [World.standing, addrs_cons, List.count_cons]
  omega

theorem length_le_of_below {l : List ℕ} {n : ℕ} (hl : l.Nodup) (h : ∀ p ∈ l, p < n) :
    l.length ≤ n := by
  have hsub : l ⊆ List.range n := fun p hp ↦ List.mem_range.mpr (h p hp)
  simpa using List.Nodup.length_le_of_subset hl hsub

theorem Distinct.length_le {l : List ℕ} (h : Distinct own held w)
    (hl : ∀ p, l.count p ≤ w.standing own held p) : l.length ≤ w.heap := by
  refine length_le_of_below ?_ fun p hp ↦ h.below p ?_
  · exact List.nodup_iff_count_le_one.mpr fun p ↦ (hl p).trans (h.once p)
  · have hpos := List.count_pos_iff.mpr hp
    have hle := hl p
    omega

theorem Distinct.queue_length (h : Distinct own held w) (q : Queue) :
    (w.queue q).length ≤ w.heap := by
  have hlen := h.length_le (l := addrs (w.queue q)) fun p ↦ by
    have hsum := queue_standing w own held q p
    omega
  simpa [addrs] using hlen

theorem Distinct.ts_length (h : Distinct own held w) : w.trig.ts.length ≤ w.heap := by
  have hlen := h.length_le (l := w.trig.ts.map Emtri.addr) fun p ↦ by
    simp only [World.standing]
    omega
  simpa using hlen

end Places

section Representation

/-- The memory holds the lists of `w`, and the tasks `held` in none of them. -/
structure Represents (held : List Emtask) (c : Linked) (w : World) : Prop where
  rest : c.world w.sched.jobs w.sched.todo w.trig.ts = w
  queue : ∀ q, c.nodes.Ring q.head ((w.queue q).map Emtask.node)
  ts : c.nodes.Ring .ts (w.trig.ts.map Emtri.node)
  task : ∀ q, ∀ t ∈ w.queue q, c.tasks t.addr = some t
  trigger : ∀ t ∈ w.trig.ts, c.triggers t.addr = some t
  held : ∀ t ∈ held, c.nodes.Has t.node ∧ c.tasks t.addr = some t

variable {own : List ℕ} {held l : List Emtask} {c : Linked} {w : World} {q q' : Queue}
  {t : Emtask}

theorem task_mem_nodes {p : ℕ} {ts : List Emtask} :
    Node.task p ∈ ts.map Emtask.node ↔ p ∈ addrs ts := by
  simp [Emtask.node, addrs]

theorem task_mem_ring {p : ℕ} {ts : List Emtask} (q : Queue) :
    Node.task p ∈ q.head :: ts.map Emtask.node ↔ p ∈ addrs ts := by
  rw [List.mem_cons, task_mem_nodes]
  cases q <;> simp [Queue.head]

theorem Distinct.rings (h : Distinct own held w) (hne : q' ≠ q) :
    ∀ a ∈ q'.head :: (w.queue q').map Emtask.node, a ∉ q.head :: (w.queue q).map Emtask.node := by
  intro a ha hmem
  rcases List.mem_cons.mp ha with rfl | ha
  · cases q <;> cases q' <;> simp [Queue.head, Emtask.node] at hmem hne
  · obtain ⟨t, ht, rfl⟩ := List.mem_map.mp ha
    have hp : t.addr ∈ addrs (w.queue q') := List.mem_map_of_mem ht
    exact h.queues hne hp ((task_mem_ring q).mp hmem)

theorem trigger_rings (ts : List Emtri) {l : List Emtask} (q : Queue) :
    ∀ a ∈ Node.ts :: ts.map Emtri.node, a ∉ q.head :: l.map Emtask.node := by
  intro a ha hmem
  have hts : a = .ts ∨ ∃ p, a = .trigger p := by
    rcases List.mem_cons.mp ha with rfl | ha
    · exact .inl rfl
    · obtain ⟨t, _, rfl⟩ := List.mem_map.mp ha
      exact .inr ⟨t.addr, rfl⟩
  rcases List.mem_cons.mp hmem with rfl | hmem
  · rcases hts with heq | ⟨p, heq⟩ <;> cases q <;> cases heq
  · obtain ⟨t, _, rfl⟩ := List.mem_map.mp hmem
    rcases hts with heq | ⟨p, heq⟩ <;> cases heq

theorem Represents.setQueue (h : Represents held c w) (hd : Distinct own held w)
    {nodes : Nodes Node} {tasks : ℕ → Option Emtask} {held' : List Emtask} (extra : List Node)
    (hring : nodes.Ring q.head (l.map Emtask.node))
    (hw : c.nodes.Within nodes (extra ++ q.head :: (w.queue q).map Emtask.node))
    (hextra : ∀ a ∈ extra, ∃ p, a = .task p ∧ ∀ q' ≠ q, p ∉ addrs (w.queue q'))
    (htask : ∀ t ∈ l, tasks t.addr = some t)
    (hother : ∀ q' ≠ q, ∀ t ∈ w.queue q', tasks t.addr = some t)
    (hheld : ∀ t ∈ held', nodes.Has t.node ∧ tasks t.addr = some t) :
    Represents held' { c with nodes, tasks } (w.withQueue q l) where
  rest := by
    have hrest := h.rest
    cases q <;> simp only [Linked.world, World.withQueue] at hrest ⊢ <;> rw [← hrest]
  queue q' := by
    by_cases hne : q' = q
    · subst hne
      simpa using hring
    · rw [World.queue_withQueue_of_ne _ _ _ hne]
      refine (h.queue q').within hw fun a ha hmem ↦ ?_
      rcases List.mem_append.mp hmem with hmem | hmem
      · obtain ⟨p, rfl, hp⟩ := hextra a hmem
        exact hp q' hne ((task_mem_ring q').mp ha)
      · exact hd.rings hne a ha hmem
  ts := by
    rw [World.ts_withQueue]
    refine h.ts.within hw fun a ha hmem ↦ ?_
    rcases List.mem_append.mp hmem with hmem | hmem
    · obtain ⟨p, rfl, _⟩ := hextra a hmem
      simp [Emtri.node] at ha
    · exact trigger_rings _ q a ha hmem
  task q' := by
    by_cases hne : q' = q
    · subst hne
      simpa using htask
    · rw [World.queue_withQueue_of_ne _ _ _ hne]
      exact hother q' hne
  trigger := by
    rw [World.ts_withQueue]
    exact h.trigger
  held := hheld

theorem Represents.listDel (h : Represents held c w) (hd : Distinct own held w)
    (hq : w.queue q = t :: l) : ∃ nodes, Emlist.listDel c.nodes t.node = some nodes ∧
      Represents (t :: held) { c with nodes } (w.withQueue q l) := by
  have hring := h.queue q
  rw [hq, List.map_cons, ← List.nil_append (_ :: _)] at hring
  obtain ⟨nodes, hdel, hr, hw, hnext, hprev⟩ := Emlist.listDel_spec hring
  refine ⟨nodes, hdel, h.setQueue hd [] hr ?_ (by simp) ?_ ?_ ?_⟩
  · rw [hq]
    exact hw
  · exact fun t' ht ↦ h.task q t' (hq ▸ List.mem_cons_of_mem _ ht)
  · exact fun q' _ t' ht ↦ h.task q' t' ht
  · rintro t' ht
    rcases List.mem_cons.mp ht with rfl | ht
    · exact ⟨⟨by simp [hnext], by simp [hprev]⟩, h.task q _ (hq ▸ List.mem_cons_self ..)⟩
    · exact ⟨hw.has _ (h.held t' ht).1, (h.held t' ht).2⟩

theorem Represents.listAdd (h : Represents (t :: held) c w) (hd : Distinct own (t :: held) w) :
    ∃ nodes, Emlist.listAdd c.nodes t.node q.head = some nodes ∧
      Represents held { c with nodes } (w.withQueue q (t :: w.queue q)) := by
  have haddr : t.addr ∈ addrs (t :: held) := List.mem_cons_self ..
  have hoff (q' : Queue) : t.addr ∉ addrs (w.queue q') := hd.held_queue haddr q'
  have hnew : t.node ∉ q.head :: (w.queue q).map Emtask.node := fun hmem ↦
    hoff q ((task_mem_ring q).mp hmem)
  obtain ⟨hhas, htask⟩ := h.held t (List.mem_cons_self ..)
  obtain ⟨nodes, hadd, hr, hw⟩ := Emlist.listAdd_spec (h.queue q) hhas hnew
  refine ⟨nodes, hadd, h.setQueue hd [t.node] hr hw ?_ ?_ ?_ ?_⟩
  · intro a ha
    exact ⟨t.addr, List.mem_singleton.mp ha, fun q' _ ↦ hoff q'⟩
  · exact List.forall_mem_cons.mpr ⟨htask, h.task q⟩
  · exact fun q' _ ↦ h.task q'
  · intro t' ht
    obtain ⟨hhas', htask'⟩ := h.held t' (List.mem_cons_of_mem _ ht)
    exact ⟨hw.has _ hhas', htask'⟩

theorem Represents.listAddTail (h : Represents (t :: held) c w)
    (hd : Distinct own (t :: held) w) :
    ∃ nodes, Emlist.listAddTail c.nodes t.node q.head = some nodes ∧
      Represents held { c with nodes } (w.withQueue q (w.queue q ++ [t])) := by
  have haddr : t.addr ∈ addrs (t :: held) := List.mem_cons_self ..
  have hoff (q' : Queue) : t.addr ∉ addrs (w.queue q') := hd.held_queue haddr q'
  have hnew : t.node ∉ q.head :: (w.queue q).map Emtask.node := fun hmem ↦
    hoff q ((task_mem_ring q).mp hmem)
  obtain ⟨hhas, htask⟩ := h.held t (List.mem_cons_self ..)
  obtain ⟨nodes, hadd, hr, hw⟩ := Emlist.listAddTail_spec (h.queue q) hhas hnew
  refine ⟨nodes, hadd, h.setQueue hd [t.node] (by simpa using hr) hw ?_ ?_ ?_ ?_⟩
  · intro a ha
    exact ⟨t.addr, List.mem_singleton.mp ha, fun q' _ ↦ hoff q'⟩
  · intro t' ht
    rcases List.mem_append.mp ht with ht | ht
    · exact h.task q t' ht
    · exact List.mem_singleton.mp ht ▸ htask
  · exact fun q' _ ↦ h.task q'
  · intro t' ht
    obtain ⟨hhas', htask'⟩ := h.held t' (List.mem_cons_of_mem _ ht)
    exact ⟨hw.has _ hhas', htask'⟩

theorem Represents.taskFree (h : Represents (t :: held) c w) (hd : Distinct own (t :: held) w) :
    Represents held (c.taskFree t.addr) (w.log (.freed t.addr)) := by
  have haddr : t.addr ∈ addrs (t :: held) := List.mem_cons_self ..
  have hoff (q : Queue) : t.addr ∉ addrs (w.queue q) := hd.held_queue haddr q
  have hne {q : Queue} {t' : Emtask} (ht : t' ∈ w.queue q) : t'.addr ≠ t.addr := fun heq ↦
    hoff q (heq ▸ List.mem_map_of_mem ht)
  refine ⟨?_, fun q ↦ ?_, ?_, fun q t' ht ↦ ?_, h.trigger, fun t' ht ↦ ?_⟩
  · exact congrArg (World.log · (.freed t.addr)) h.rest
  · exact (h.queue q).free_off fun hmem ↦ hoff q ((task_mem_ring q).mp hmem)
  · exact h.ts.free_off (by simp [Emtri.node])
  · exact (Function.update_of_ne (hne ht) ..).trans (h.task q t' ht)
  · obtain ⟨hhas, htask⟩ := h.held t' (List.mem_cons_of_mem _ ht)
    have hheld : t'.addr ≠ t.addr := by
      intro heq
      have hle := hd.once t.addr
      have hpos : 0 < (addrs held).count t.addr := by
        rw [List.count_pos_iff, ← heq]
        exact List.mem_map_of_mem ht
      simp only [World.standing, addrs_cons, List.count_cons_self] at hle
      omega
    exact ⟨hhas.free (by simpa [Emtask.node] using hheld),
      (Function.update_of_ne hheld ..).trans htask⟩

theorem Represents.putTask (h : Represents held c w) (hqueue : ∀ q, t.addr ∉ addrs (w.queue q))
    (hheld : t.addr ∉ addrs held) : Represents (t :: held) (c.putTask t) w := by
  have hne {t' : Emtask} {ts : List Emtask} (hoff : t.addr ∉ addrs ts) (ht : t' ∈ ts) :
      t'.addr ≠ t.addr := fun heq ↦ hoff (heq ▸ List.mem_map_of_mem ht)
  refine ⟨h.rest, fun q ↦ ?_, ?_, fun q t' ht ↦ ?_, h.trigger, fun t' ht ↦ ?_⟩
  · exact (h.queue q).alloc_off fun hmem ↦ hqueue q ((task_mem_ring q).mp hmem)
  · exact h.ts.alloc_off (by simp [Emtri.node])
  · exact (Function.update_of_ne (hne (hqueue q) ht) ..).trans (h.task q t' ht)
  · rcases List.mem_cons.mp ht with rfl | ht
    · exact ⟨Nodes.has_alloc _ _, Function.update_self ..⟩
    · obtain ⟨hhas, htask⟩ := h.held t' ht
      exact ⟨hhas.alloc _ _, (Function.update_of_ne (hne hheld ht) ..).trans htask⟩

theorem Represents.setTask (t' : Emtask) (h : Represents (t :: held) c w)
    (hd : Distinct own (t :: held) w) (haddr : t'.addr = t.addr) : Represents (t' :: held)
      { c with tasks := Function.update c.tasks t.addr (some t') } w := by
  have hmem : t.addr ∈ addrs (t :: held) := List.mem_cons_self ..
  have hne {t'' : Emtask} {ts : List Emtask} (hoff : t.addr ∉ addrs ts) (ht : t'' ∈ ts) :
      t''.addr ≠ t.addr := fun heq ↦ hoff (heq ▸ List.mem_map_of_mem ht)
  have hheld : t.addr ∉ addrs held := by
    intro hin
    have hle := hd.once t.addr
    have hpos := List.count_pos_iff.mpr hin
    simp only [World.standing, addrs_cons, List.count_cons_self] at hle
    omega
  refine ⟨h.rest, h.queue, h.ts, fun q t'' ht ↦ ?_, h.trigger, fun t'' ht ↦ ?_⟩
  · exact (Function.update_of_ne (hne (hd.held_queue hmem q) ht) ..).trans (h.task q t'' ht)
  · rcases List.mem_cons.mp ht with rfl | ht
    · obtain ⟨hhas, _⟩ := h.held t (List.mem_cons_self ..)
      refine ⟨by rwa [Emtask.node, haddr], ?_⟩
      rw [haddr]
      exact Function.update_self ..
    · obtain ⟨hhas, htask⟩ := h.held t'' (List.mem_cons_of_mem _ ht)
      exact ⟨hhas, (Function.update_of_ne (hne hheld ht) ..).trans htask⟩

theorem Represents.put {w' : World} (h : Represents held c w)
    (hq : ∀ q, w'.queue q = w.queue q) (hts : w'.trig.ts = w.trig.ts) :
    Represents held (c.put w') w' where
  rest := rfl
  queue q := hq q ▸ h.queue q
  ts := hts ▸ h.ts
  task q := hq q ▸ h.task q
  trigger := hts ▸ h.trigger
  held := h.held

section Triggers

variable {trig : Emtri} {ys zs ts : List Emtri}

theorem Represents.setTs {nodes : Nodes Node} {triggers : ℕ → Option Emtri}
    (h : Represents held c w) (hring : nodes.Ring .ts (ts.map Emtri.node))
    (hqueue : ∀ (q : Queue) (l : List Emtask), c.nodes.Ring q.head (l.map Emtask.node) →
      nodes.Ring q.head (l.map Emtask.node))
    (htrig : ∀ t ∈ ts, triggers t.addr = some t)
    (hheld : ∀ t : Emtask, c.nodes.Has t.node → nodes.Has t.node) :
    Represents held { c with nodes, triggers } (w.withTs ts) where
  rest := by
    have hrest := h.rest
    simp only [Linked.world, World.withTs] at hrest ⊢
    rw [← hrest]
  queue q := hqueue q _ (h.queue q)
  ts := hring
  task := h.task
  trigger := htrig
  held t ht := ⟨hheld t (h.held t ht).1, (h.held t ht).2⟩

theorem trigger_node_inj {a b : Emtri} : a.node = b.node ↔ a.addr = b.addr := by
  simp [Emtri.node]

theorem Represents.delTrigger (h : Represents held c w) (hts : w.trig.ts = ys ++ trig :: zs) :
    ∃ nodes, Emlist.listDel c.nodes trig.node = some nodes ∧
      Represents held (Linked.trigFree { c with nodes } trig.addr) (w.withTs (ys ++ zs)) := by
  have hring := h.ts
  rw [hts, List.map_append, List.map_cons] at hring
  obtain ⟨nodes, hdel, hr, hw, _⟩ := Emlist.listDel_spec hring
  have hoff : trig.node ∉ Node.ts :: (ys ++ zs).map Emtri.node := by
    have hnodup := hring.nodup
    rw [List.map_append]
    have hperm : List.Perm (Node.ts :: (ys.map Emtri.node ++ trig.node :: zs.map Emtri.node))
        (trig.node :: Node.ts :: (ys.map Emtri.node ++ zs.map Emtri.node)) :=
      (List.perm_middle.cons _).trans (.swap ..)
    exact (List.nodup_cons.mp (hperm.nodup_iff.mp hnodup)).1
  rw [← List.map_append] at hr
  refine ⟨nodes, hdel, h.setTs (hr.free_off hoff) (fun q l hq ↦ ?_) (fun t ht ↦ ?_)
    fun t ht ↦ (hw.has _ ht).free (by simp [Emtask.node])⟩
  · refine (hq.within hw fun a ha hmem ↦ ?_).free_off ?_
    · rw [← List.map_cons, ← List.map_append] at hmem
      exact trigger_rings _ q a hmem ha
    · exact trigger_rings [trig] q _ (by simp [Emtri.node])
  · refine (Function.update_of_ne (fun heq ↦ hoff ?_) ..).trans (h.trigger t ?_)
    · rw [← trigger_node_inj.mpr heq]
      exact List.mem_cons_of_mem _ (List.mem_map_of_mem ht)
    · rw [hts]
      exact (List.sublist_cons_self trig zs).append_left ys |>.subset ht

theorem Represents.addTrigger (trig : Emtri) (h : Represents held c w)
    (hnew : trig.addr ∉ w.trig.ts.map Emtri.addr) :
    ∃ nodes, Emlist.listAdd (c.putTrigger trig).nodes trig.node .ts = some nodes ∧
      Represents held { c.putTrigger trig with nodes } (w.withTs (trig :: w.trig.ts)) := by
  have hoff : trig.node ∉ Node.ts :: w.trig.ts.map Emtri.node := by
    simp only [List.mem_cons, List.mem_map, not_or, not_exists, not_and]
    refine ⟨by simp [Emtri.node], fun t ht heq ↦ hnew ?_⟩
    exact trigger_node_inj.mp heq ▸ List.mem_map_of_mem ht
  have hring : (c.putTrigger trig).nodes.Ring .ts (w.trig.ts.map Emtri.node) := h.ts.alloc_off hoff
  obtain ⟨nodes, hadd, hr, hw⟩ := Emlist.listAdd_spec hring (Nodes.has_alloc _ _) hoff
  refine ⟨nodes, hadd, h.setTs hr (fun q l hq ↦ ?_) (fun t ht ↦ ?_)
    fun t ht ↦ hw.has _ (ht.alloc _ _)⟩
  · have hq' : (c.putTrigger trig).nodes.Ring q.head (l.map Emtask.node) :=
      hq.alloc_off (trigger_rings [trig] q _ (by simp [Emtri.node]))
    refine hq'.within hw fun a ha hmem ↦ ?_
    rcases List.mem_cons.mp hmem with rfl | hmem
    · exact trigger_rings [trig] q _ (by simp [Emtri.node]) ha
    · exact trigger_rings _ q a hmem ha
  · rcases List.mem_cons.mp ht with rfl | ht
    · exact Function.update_self ..
    · refine (Function.update_of_ne (fun heq ↦ hnew ?_) ..).trans (h.trigger t ht)
      exact heq ▸ List.mem_map_of_mem ht

end Triggers

theorem Represents.heap (h : Represents held c w) : c.heap = w.heap := congrArg World.heap h.rest

theorem Represents.stop (h : Represents held c w) : c.stop = w.sched.stop :=
  congrArg (·.sched.stop) h.rest

theorem mem_walk {α : Type} {ts : List α} (h : Represents held c w) (hlen : ts.length ≤ w.heap)
    (f : α → Node) : (ts.map f).length < c.walk := by
  rw [List.length_map, Linked.walk, h.heap]
  omega

def World.emptied (w : World) (q : Queue) (done left : List Emtask) : World :=
  { w.withQueue q left with hist := w.hist ++ done.map (.freed ·.addr) }

theorem Distinct.emptied {done left : List Emtask} (hd : Distinct own held w)
    (hq : w.queue q = done ++ left) : Distinct own held (w.emptied q done left) := by
  refine hd.of_le (by simp [World.emptied]) fun p ↦ ?_
  cases q <;> simp only [World.queue] at hq <;>
    simp only [World.standing, World.queue, World.emptied, World.withQueue, hq, addrs_append,
      List.count_append] <;> omega

theorem queue_emptied (done left : List Emtask) : (w.emptied q done left).queue q = left := by
  cases q <;> rfl

theorem Represents.dumpBody (h : Represents held c w) (hd : Distinct own held w)
    (hq : w.queue q = t :: l) : ∃ c', Linked.dumpBody t.node c = some (none, c') ∧
      Represents held c' ((w.withQueue q l).log (.freed t.addr)) := by
  obtain ⟨nodes, hdel, hc⟩ := h.listDel hd hq
  have htask : c.taskAt t.node = some t := h.task q t (hq ▸ List.mem_cons_self ..)
  refine ⟨_, ?_, hc.taskFree (hd.take hq)⟩
  simp only [Linked.dumpBody, htask, hdel, Option.bind_eq_bind, Option.bind_some]
  rfl

theorem Represents.dump (h : Represents held c w) (hd : Distinct own held w) (q : Queue) :
    ∃ c', c.dump q.head = some c' ∧ Represents held c' (w.emptied q (w.queue q) []) := by
  let I (xs : List Node) (c' : Linked) : Prop := ∃ done left, w.queue q = done ++ left ∧
    xs = left.map Emtask.node ∧ Represents held c' (w.emptied q done left)
  have hstart : I ((w.queue q).map Emtask.node) c := by
    refine ⟨[], w.queue q, rfl, rfl, ?_⟩
    have heq : w.emptied q [] (w.queue q) = w := by
      cases q <;> simp [World.emptied, World.withQueue, World.queue]
    rwa [heq]
  have hring (xs : List Node) (c' : Linked) (hI : I xs c') : c'.nodes.Ring q.head xs := by
    obtain ⟨done, left, _, rfl, hc⟩ := hI
    have hr := hc.queue q
    rwa [queue_emptied] at hr
  have hbody (x : Node) (xs : List Node) (c' : Linked) (hI : I (x :: xs) c') :
      ∃ c'', Linked.dumpBody x c' = some (none, c'') ∧ I xs c'' := by
    obtain ⟨done, left, hq, hxs, hc⟩ := hI
    obtain ⟨t, left, rfl, rfl, rfl⟩ := List.map_eq_cons_iff.mp hxs.symm
    obtain ⟨c'', hstep, hc''⟩ := hc.dumpBody (hd.emptied hq) (queue_emptied _ _)
    refine ⟨c'', hstep, done ++ [t], left, by simp [hq], rfl, ?_⟩
    have heq : ((w.emptied q done (t :: left)).withQueue q left).log (.freed t.addr) =
        w.emptied q (done ++ [t]) left := by
      cases q <;> simp [World.emptied, World.withQueue, World.log]
    rwa [heq] at hc''
  obtain ⟨c', hloop, done, left, hq, hnil, hc⟩ :=
    listForEachEntrySafe_drain hring hbody hstart (mem_walk h (hd.queue_length q) _)
  obtain rfl : left = [] := List.map_eq_nil_iff.mp hnil.symm
  rw [List.append_nil] at hq
  exact ⟨c', by rw [Linked.dump, hloop]; rfl, hq ▸ hc⟩

def World.movedBack (w : World) (done left : List Emtask) : World :=
  (w.withQueue .todo left).withQueue .jobs (done.reverse ++ w.queue .jobs)

theorem Distinct.movedBack {done left : List Emtask} (hd : Distinct own held w)
    (hq : w.queue .todo = done ++ left) : Distinct own held (w.movedBack done left) := by
  refine hd.of_le (Nat.le_refl _) fun p ↦ ?_
  simp only [World.queue] at hq
  simp only [World.standing, World.queue, World.movedBack, World.withQueue, hq, addrs_append,
    addrs_reverse, List.count_append, List.count_reverse]
  omega

theorem Represents.moveBody (h : Represents held c w) (hd : Distinct own held w)
    (hq : w.queue .todo = t :: l) : ∃ c', Linked.moveBody t.node c = some (none, c') ∧
      Represents held c' ((w.withQueue .todo l).withQueue .jobs (t :: w.queue .jobs)) := by
  obtain ⟨nodes, hdel, hc⟩ := h.listDel hd hq
  obtain ⟨nodes', hadd, hc'⟩ := hc.listAdd (q := .jobs) (hd.take hq)
  refine ⟨_, ?_, hc'⟩
  have hadd' : Emlist.listAdd nodes t.node .jobs = some nodes' := hadd
  simp only [Linked.moveBody, hdel, hadd', Option.bind_eq_bind, Option.bind_some]
  rfl

theorem Represents.moveBack (h : Represents held c w) (hd : Distinct own held w) :
    ∃ c', c.moveBack = some c' ∧ Represents held c' (w.movedBack (w.queue .todo) []) := by
  let I (xs : List Node) (c' : Linked) : Prop := ∃ done left, w.queue .todo = done ++ left ∧
    xs = left.map Emtask.node ∧ Represents held c' (w.movedBack done left)
  have hstart : I ((w.queue .todo).map Emtask.node) c := ⟨[], w.queue .todo, rfl, rfl, h⟩
  have hring (xs : List Node) (c' : Linked) (hI : I xs c') : c'.nodes.Ring .todo xs := by
    obtain ⟨done, left, _, rfl, hc⟩ := hI
    exact hc.queue .todo
  have hbody (x : Node) (xs : List Node) (c' : Linked) (hI : I (x :: xs) c') :
      ∃ c'', Linked.moveBody x c' = some (none, c'') ∧ I xs c'' := by
    obtain ⟨done, left, hq, hxs, hc⟩ := hI
    obtain ⟨t, left, rfl, rfl, rfl⟩ := List.map_eq_cons_iff.mp hxs.symm
    obtain ⟨c'', hstep, hc''⟩ := hc.moveBody (hd.movedBack hq) rfl
    refine ⟨c'', hstep, done ++ [t], left, by simp [hq], rfl, ?_⟩
    have heq : ((w.movedBack done (t :: left)).withQueue .todo left).withQueue .jobs
        (t :: (w.movedBack done (t :: left)).queue .jobs) = w.movedBack (done ++ [t]) left := by
      simp [World.movedBack, World.withQueue, World.queue]
    rwa [heq] at hc''
  obtain ⟨c', hloop, done, left, hq, hnil, hc⟩ :=
    listForEachEntrySafe_drain hring hbody hstart (mem_walk h (hd.queue_length .todo) _)
  obtain rfl : left = [] := List.map_eq_nil_iff.mp hnil.symm
  rw [List.append_nil] at hq
  exact ⟨c', by rw [Linked.moveBack, hloop]; rfl, hq ▸ hc⟩

section TriggerLoops

variable {p : Emtri → Bool} {trig : Emtri} {ts : List Emtri}

def Linked.meets (c : Linked) (p : Emtri → Bool) (a : Node) : Bool := (c.triggerAt a).any p

theorem Represents.triggerAt (h : Represents held c w) (ht : trig ∈ w.trig.ts) :
    c.triggerAt trig.node = some trig := h.trigger trig ht

theorem Represents.meets (h : Represents held c w) (ht : trig ∈ w.trig.ts) :
    c.meets p trig.node = p trig := by rw [Linked.meets, h.triggerAt ht, Option.any_some]

theorem Represents.find_nodes (h : Represents held c w) :
    (w.trig.ts.map Emtri.node).find? (c.meets p) = (w.trig.ts.find? p).map Emtri.node := by
  rw [List.find?_map]
  exact congrArg _ (List.find?_congr fun t ht ↦ h.meets ht)

theorem Represents.searches {β : Type} (h : Represents held c w)
    {body : Node → Linked → Option (Option β × Linked)}
    (hpass : ∀ t ∈ w.trig.ts, p t = false → body t.node c = some (none, c))
    (hleave : ∀ t ∈ w.trig.ts, p t = true → ∃ b c', body t.node c = some (some b, c')) :
    Searches body (c.meets p) (w.trig.ts.map Emtri.node) c := by
  constructor <;> simp only [List.forall_mem_map] <;> intro t ht hp <;> rw [h.meets ht] at hp
  · exact hpass t ht hp
  · exact hleave t ht hp

theorem Represents.find (h : Represents held c w) (hd : Distinct own held w) :
    c.find p = some (w.trig.ts.find? p, c) := by
  have hbody (t : Emtri) (ht : t ∈ w.trig.ts) :
      Linked.findBody p t.node c = some (if p t then some t else none, c) := by
    simp only [Linked.findBody, h.triggerAt ht, Option.bind_eq_bind, Option.bind_some]
    rfl
  have hs : Searches (Linked.findBody p) (c.meets p) (w.trig.ts.map Emtri.node) c := by
    refine h.searches (fun t ht hp ↦ ?_) fun t ht hp ↦ ⟨t, c, ?_⟩ <;> rw [hbody t ht, hp] <;> rfl
  have hloop := listForEachEntry_find h.ts hs (mem_walk h hd.ts_length _)
  rw [Linked.find, hloop, h.find_nodes]
  cases hfind : w.trig.ts.find? p with
  | none => rfl
  | some t =>
    have hp : p t = true := List.find?_some hfind
    rw [Option.map_some, searched, hbody t (List.mem_of_find?_eq_some hfind), hp]
    rfl

theorem eraseP_found (hfind : ts.find? p = some trig) :
    ∃ ys zs, ts = ys ++ trig :: zs ∧ ts.eraseP p = ys ++ zs ∧ ts.any p = true := by
  obtain ⟨hp, ys, zs, rfl, hys⟩ := List.find?_eq_some_iff_append.mp hfind
  refine ⟨ys, zs, rfl, ?_, by simp [hp]⟩
  rw [List.eraseP_append_right _ (fun t ht ↦ by simpa using hys t ht), List.eraseP_cons_of_pos hp]

theorem Represents.delBody {ys zs : List Emtri} (h : Represents held c w)
    (hts : w.trig.ts = ys ++ trig :: zs) (hp : p trig = true) :
    ∃ c', Linked.delBody p trig.node c = some (some 0, c') ∧
      Represents held c' (w.withTs (ys ++ zs)) := by
  obtain ⟨nodes, hdel, hc⟩ := h.delTrigger hts
  have ht := h.triggerAt (hts ▸ List.mem_append_right ys (List.mem_cons_self ..))
  refine ⟨_, ?_, hc⟩
  simp only [Linked.delBody, ht, hp, hdel, Option.bind_eq_bind, Option.bind_some]
  rfl

theorem Represents.delFirst (h : Represents held c w) (hd : Distinct own held w) :
    ∃ c', c.delFirst p = some ((w.trig.delFirst p).1, c') ∧
      Represents held c' { w with trig := (w.trig.delFirst p).2 } := by
  have hs : Searches (Linked.delBody p) (c.meets p) (w.trig.ts.map Emtri.node) c := by
    refine h.searches (fun t ht hp ↦ ?_) fun t ht hp ↦ ?_
    · simp only [Linked.delBody, h.triggerAt ht, hp, Option.bind_eq_bind, Option.bind_some]
      rfl
    · obtain ⟨ys, zs, hts⟩ := List.append_of_mem ht
      obtain ⟨c', hstep, _⟩ := h.delBody hts hp
      exact ⟨0, c', hstep⟩
  have hloop := listForEachEntrySafe_find h.ts hs (mem_walk h hd.ts_length _)
  rw [h.find_nodes] at hloop
  rw [Linked.delFirst, hloop, Trctx.delFirst]
  cases hfind : w.trig.ts.find? p with
  | none =>
    have hany : w.trig.ts.any p = false := by simpa using hfind
    rw [hany]
    exact ⟨c, rfl, h⟩
  | some t =>
    obtain ⟨ys, zs, hts, herase, hany⟩ := eraseP_found hfind
    obtain ⟨c', hstep, hc⟩ := h.delBody hts (List.find?_some hfind)
    rw [hany, herase]
    refine ⟨c', ?_, hc⟩
    rw [Option.map_some, searched, hstep]
    rfl

theorem Represents.flushBody (h : Represents held c w) (hts : w.trig.ts = trig :: ts) :
    ∃ c', Linked.flushBody trig.node c = some (none, c') ∧ Represents held c' (w.withTs ts) := by
  obtain ⟨nodes, hdel, hc⟩ := h.delTrigger (show w.trig.ts = [] ++ trig :: ts from hts)
  refine ⟨_, ?_, hc⟩
  have ht := h.triggerAt (hts ▸ List.mem_cons_self ..)
  simp only [Linked.flushBody, ht, hdel, Option.bind_eq_bind, Option.bind_some]
  rfl

theorem Represents.trigFlush (h : Represents held c w) (hd : Distinct own held w) :
    ∃ c', c.trigFlush = some c' ∧ Represents held c' { w with trig := w.trig.trigFlush } := by
  let I (xs : List Node) (c' : Linked) : Prop := ∃ ts, xs = ts.map Emtri.node ∧
    Represents held c' (w.withTs ts)
  have hstart : I (w.trig.ts.map Emtri.node) c := ⟨w.trig.ts, rfl, h⟩
  have hring (xs : List Node) (c' : Linked) (hI : I xs c') : c'.nodes.Ring .ts xs := by
    obtain ⟨ts, rfl, hc⟩ := hI
    exact hc.ts
  have hbody (x : Node) (xs : List Node) (c' : Linked) (hI : I (x :: xs) c') :
      ∃ c'', Linked.flushBody x c' = some (none, c'') ∧ I xs c'' := by
    obtain ⟨ts, hxs, hc⟩ := hI
    obtain ⟨t, ts, rfl, rfl, rfl⟩ := List.map_eq_cons_iff.mp hxs.symm
    obtain ⟨c'', hstep, hc''⟩ := hc.flushBody rfl
    exact ⟨c'', hstep, ts, rfl, hc''⟩
  obtain ⟨c', hloop, ts, hnil, hc⟩ :=
    listForEachEntrySafe_drain hring hbody hstart (mem_walk h hd.ts_length _)
  obtain rfl : ts = [] := List.map_eq_nil_iff.mp hnil.symm
  exact ⟨c', by rw [Linked.trigFlush, hloop]; rfl, hc⟩

end TriggerLoops

end Representation

end EmpowerAgent
