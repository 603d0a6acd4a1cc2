import EmpowerAgent.LinkedLists

namespace EmpowerAgent

open Library.Proc (Protocol Obeys)
open Emlist Proc Emproto

/-- What is given back, to the scheduler or to the trigger list has been
allocated and not been given away before: `own` are the addresses that are left. -/
def publishProtocol : Protocol Op Op.Res (List ℕ) where
  allowed own o := match o with
    | .free addr => addr ∈ own
    | .schedAddTask task => task.addr ∈ own
    | .trigAdd trig => trig.addr ∈ own
    | _ => True
  next own o r := match o, r with
    | .malloc, some addr => addr :: own
    | .free addr, _ => own.filter (· ≠ addr)
    | .schedAddTask task, _ => own.filter (· ≠ task.addr)
    | .trigAdd trig, _ => own.filter (· ≠ trig.addr)
    | _, _ => own

section Publishing

variable {own : List ℕ} {E : Emproto}

theorem taskAlloc_publishes (own : List ℕ) (type : TaskType) (interval res : ℤ) (trigger : Int32)
    (msg : Option Bytes) : Obeys publishProtocol (fun own r ↦ ∀ t, r = some t → t.addr ∈ own) own
      (taskAlloc type interval res trigger msg) := by
  refine ⟨trivial, fun addr ↦ ?_⟩
  cases addr with
  | none => exact fun _ h ↦ by cases h
  | some addr =>
    cases msg with
    | none =>
      rintro t ⟨⟩
      exact List.mem_cons_self ..
    | some m =>
      refine ⟨trivial, fun buf ↦ ?_⟩
      cases buf with
      | none => exact ⟨List.mem_cons_self .., fun _ _ h ↦ by cases h⟩
      | some buf =>
        rintro t ⟨⟩
        exact List.mem_cons_of_mem _ (List.mem_cons_self ..)

theorem trigAlloc_publishes (own : List ℕ) (mod : UInt32) (type : ℤ) (inst : Int32) (msg : Bytes) :
    Obeys publishProtocol (fun own r ↦ ∀ t, r = some t → t.addr ∈ own) own
      (trigAlloc mod type inst msg) := by
  refine ⟨trivial, fun addr ↦ ?_⟩
  cases addr with
  | none => exact fun _ h ↦ by cases h
  | some addr =>
    refine ⟨trivial, fun buf ↦ ?_⟩
    cases buf with
    | none => exact ⟨List.mem_cons_self .., fun _ _ h ↦ by cases h⟩
    | some buf =>
      rintro t ⟨⟩
      exact List.mem_cons_of_mem _ (List.mem_cons_self ..)

theorem schedAddTask_publishes {task : Emtask} (h : task.addr ∈ own) :
    Obeys publishProtocol AnyPost own (schedAddTask task) :=
  ⟨trivial, fun _ ↦ ⟨h, fun _ ↦ trivial⟩⟩

theorem netQueueTask_publishes (type : TaskType) (interval res : ℤ) (msg : Bytes) :
    Obeys publishProtocol AnyPost own (netQueueTask type interval res msg) := by
  refine (taskAlloc_publishes own type interval res 0 (some msg)).bind fun own r h ↦ ?_
  cases r with
  | none => trivial
  | some t => exact schedAddTask_publishes (h t rfl)

theorem netAddTrigger_publishes {mod : UInt32} {type : ℤ} {inst : Int32} {msg : Bytes}
    {taskType : TaskType} {queued : Emtask → Proc ℤ} (hqueued : ∀ own task, task.addr ∈ own →
      Obeys publishProtocol AnyPost own (queued task)) :
    Obeys publishProtocol AnyPost own (netAddTrigger mod type inst msg taskType queued) := by
  refine (trigAlloc_publishes own _ _ _ _).bind fun own r h ↦ ?_
  cases r with
  | none => exact ⟨trivial, fun _ ↦ trivial⟩
  | some trig =>
    refine ⟨h trig rfl, fun id ↦ ⟨trivial, fun _ ↦ ?_⟩⟩
    refine (taskAlloc_publishes _ taskType 1 0 id none).bind fun own r h ↦ ?_
    cases r with
    | none => exact ⟨trivial, fun _ ↦ ⟨trivial, fun _ ↦ ⟨trivial, fun _ ↦ trivial⟩⟩⟩
    | some task => exact hqueued own task (h task rfl)

theorem ueMeasureAdd_publishes (mod : UInt32) (rrc : ℕ → UeMeasurement) (msg : Bytes) (n : ℕ) :
    Obeys publishProtocol AnyPost own (ueMeasureAdd mod rrc msg n) := by
  induction n generalizing own with
  | zero => trivial
  | succ n ih =>
    rw [ueMeasureAdd_succ]
    exact netAddTrigger_publishes fun own task h ↦ (schedAddTask_publishes h).bind fun _ _ _ ↦ ih

theorem ueMeasureDel_publishes (mod : UInt32) (rrc : ℕ → UeMeasurement) (n : ℕ) :
    Obeys publishProtocol AnyPost own (ueMeasureDel mod rrc n) := by
  induction n with
  | zero => trivial
  | succ n ih => exact ⟨trivial, fun _ ↦ ih⟩

theorem netProcessMessage_publishes (msg : Bytes) :
    Obeys publishProtocol AnyPost own (netProcessMessage E msg) := by
  refine netProcessMessage_cases (fun _ ↦ trivial) ?_ ?_ ?_
  · exact fun type interval res _ ↦ netQueueTask_publishes type interval res msg
  · intro addType remType type _
    rw [netTeReport_eq]
    split_ifs
    · exact netAddTrigger_publishes fun own task h ↦ schedAddTask_publishes h
    · exact ⟨trivial, fun _ ↦ trivial⟩
  · unfold netTeUeMeasure
    dsimp only
    split_ifs
    · exact ueMeasureDel_publishes _ _ _
    · exact ueMeasureAdd_publishes _ _ _ _

theorem apiCall_publishes (call : ApiCall) : Obeys publishProtocol AnyPost own call.body := by
  cases call with
  | emSend msg =>
    simp only [ApiCall.body]
    split_ifs
    · trivial
    · refine (taskAlloc_publishes own .send 1 0 0 (some msg)).bind fun own r h ↦ ?_
      cases r with
      | none => exact ⟨trivial, fun _ ↦ trivial⟩
      | some task => exact schedAddTask_publishes (h task rfl)
  | emHasTrigger tid => exact ⟨trivial, fun _ ↦ trivial⟩
  | emDelTrigger tid => exact ⟨trivial, fun _ ↦ trivial⟩

end Publishing

section Steps

variable {own base : List ℕ} {held : List Emtask} {c : Linked} {w w' : World} {o : Op} {r : o.Res}
  {S : Setup}

theorem Distinct.settled {own' : List ℕ} {held' : List Emtask} (h : Distinct own held w)
    (hheap : w'.heap = w.heap) (hown : own' = own) (hheld : held' = held)
    (hq : ∀ q, w'.queue q = w.queue q) (hts : w'.trig.ts.Sublist w.trig.ts) :
    Distinct own' held' w' := by
  subst hown hheld
  refine h.of_le hheap.ge fun p ↦ ?_
  have hle := (hts.map Emtri.addr).count_le p
  simp only [World.standing, hq]
  omega

theorem count_filter_ne (l : List ℕ) (a p : ℕ) :
    (l.filter (· ≠ a)).count p = if p = a then 0 else l.count p := by
  split_ifs with h
  · subst h
    exact List.count_eq_zero_of_not_mem (by simp)
  · exact List.count_filter (by simpa using h)

theorem Distinct.publish (own : List ℕ) (h : Distinct (own ++ base) held w) (he : Effect o w r w')
    (ho : publishProtocol.allowed own o) :
    Distinct (publishProtocol.next own o r ++ base) held w' := by
  cases he with
  | malloc =>
    have hzero : w.standing (own ++ base) held w.heap = 0 := by
      by_contra hne
      exact absurd (h.below _ hne) (Nat.lt_irrefl _)
    have hcount (p : ℕ) :
        World.standing { w with heap := w.heap + 1 } (w.heap :: own ++ base) held p =
        w.standing (own ++ base) held p + if w.heap = p then 1 else 0 := by
      simp only [World.standing, World.queue, List.cons_append, List.count_cons, beq_iff_eq]
      omega
    refine ⟨fun p ↦ ?_, fun p hp ↦ ?_⟩
    · have hle := h.once p
      refine (hcount p).le.trans ?_
      split_ifs with hp
      · rw [← hp, hzero]
      · exact hle
    · have hp' := (hcount p).symm ▸ hp
      have hlt : w.standing (own ++ base) held p ≠ 0 → p < w.heap := h.below p
      show p < w.heap + 1
      split_ifs at hp' with heq
      · omega
      · exact Nat.lt_succ_of_lt (hlt (by omega))
  | @accepted _ task =>
    refine h.of_le (Nat.le_refl _) fun p ↦ ?_
    have hpos : 0 < own.count task.addr := List.count_pos_iff.mpr ho
    simp only [World.standing, World.queue, publishProtocol, List.count_append, count_filter_ne,
      addrs_append, addrs_cons, addrs_nil, List.count_cons, List.count_nil, beq_iff_eq]
    by_cases hp : p = task.addr
    · subst hp
      simp only [if_pos]
      omega
    · rw [if_neg hp, if_neg (Ne.symm hp)]
      omega
  | @refused _ task =>
    refine h.of_le (Nat.le_refl _) fun p ↦ ?_
    simp only [World.standing, publishProtocol, List.count_append, count_filter_ne]
    split_ifs <;> omega
  | @trigAdd _ trig =>
    refine h.of_le (Nat.le_refl _) fun p ↦ ?_
    have hpos : 0 < own.count trig.addr := List.count_pos_iff.mpr ho
    simp only [World.standing, World.queue, publishProtocol, List.count_append, count_filter_ne,
      World.trigAdd, Trctx.trigAdd, List.map_cons, List.count_cons, beq_iff_eq]
    by_cases hp : p = trig.addr
    · subst hp
      simp only [if_pos]
      omega
    · rw [if_neg hp, if_neg (Ne.symm hp)]
      omega
  | free =>
    refine h.of_le (Nat.le_refl _) fun p ↦ ?_
    simp only [World.standing, publishProtocol, List.count_append, count_filter_ne]
    split_ifs <;> omega
  | trigDelById | trigDelByInst =>
    refine h.settled rfl rfl rfl (fun _ ↦ rfl) ?_
    simp only [Trctx.trigDelById, Trctx.trigDelByInst, Trctx.delFirst_ts]
    exact List.eraseP_sublist
  | _ => exact h.settled rfl rfl rfl (fun _ ↦ rfl) (.refl _)

def World.bare (w : World) : World :=
  { w with
    trig := { w.trig with ts := [] }
    sched := { w.sched with jobs := [], todo := [] } }

theorem Represents.bare (h : Represents held c w) : c.bare = w.bare :=
  congrArg World.bare h.rest

def SameResult {β : Type} (held : β → List Emtask) (r : β × Linked) (r' : β × World) : Prop :=
  r.1 = r'.1 ∧ Represents (held r'.1) r.2 r'.2

theorem Represents.of_bare {β : Type} {f g : Option (β × World)} {held' : β → List Emtask}
    (h : Represents held c w) (hg : g = f.map fun r ↦ (r.1, r.2.bare))
    (hkeep : ∀ r ∈ f, (∀ q, r.2.queue q = w.queue q) ∧ r.2.trig.ts = w.trig.ts ∧ held' r.1 = held) :
    Option.Rel (SameResult held') (g.map fun r ↦ (r.1, c.put r.2)) f := by
  subst hg
  cases f with
  | none => exact .none
  | some r =>
    obtain ⟨hq, hts, hheld⟩ := hkeep r rfl
    refine .some ⟨rfl, ?_⟩
    rw [hheld]
    exact h.put hq hts

theorem rel_of_some {β : Type} {f : Option (β × Linked)} (held' : β → List Emtask) {x : β}
    {w' : World} (h : ∃ c', f = some (x, c') ∧ Represents (held' x) c' w') :
    Option.Rel (SameResult held') f (some (x, w')) := by
  obtain ⟨c', rfl, hc⟩ := h
  exact .some ⟨rfl, hc⟩

def Op.offLists : Op → Bool
  | .schedAddTask _ | .trigAdd _ | .trigDelById _ | .trigDelByInst _ _ _ | .trigFindById _ => false
  | _ => true

theorem exec_bare (ho : o.offLists = true) (a : Ans) :
    exec o a w.bare = (exec o a w).map fun r ↦ (r.1, r.2.bare) := by
  cases o with
  | netSend msg =>
    cases a with
    | sent n =>
      have hnet : w.bare.net = w.net := rfl
      simp only [exec, World.netSend, hnet]
      split_ifs <;> rfl
    | _ => rfl
  | malloc =>
    cases a with
    | ok b => cases b <;> rfl
    | _ => rfl
  | schedAddTask | trigAdd | trigDelById | trigDelByInst | trigFindById => cases ho
  | _ => cases a <;> rfl

theorem Effect.offLists (he : Effect o w r w') (ho : o.offLists = true) :
    (∀ q, w'.queue q = w.queue q) ∧ w'.trig.ts = w.trig.ts := by
  cases he with
  | accepted | refused | trigAdd | trigDelById | trigDelByInst | trigFindById => cases ho
  | _ => exact ⟨fun _ ↦ rfl, rfl⟩

theorem Represents.schedAddTask (task : Emtask) (h : Represents held c w)
    (hd : Distinct (own ++ base) held w) (ho : task.addr ∈ own) :
    ∃ c', c.schedAddTask task = some ((w.schedAddTask task).1, c') ∧
      Represents held c' (w.schedAddTask task).2 := by
  obtain ⟨_, hqueue, hheld, _⟩ := hd.own_off (List.mem_append_left base ho)
  cases hs : w.sched.stop with
  | true =>
    rw [World.schedAddTask_of_stop w hs]
    exact ⟨c, if_pos (h.stop.trans hs), h⟩
  | false =>
    rw [World.schedAddTask_of_run w hs]
    have hd' : Distinct [] (task :: held) w := by
      refine hd.of_le (Nat.le_refl _) fun p ↦ ?_
      have hpos : 0 < own.count task.addr := List.count_pos_iff.mpr ho
      simp only [World.standing, addrs_cons, List.count_cons, List.count_nil, List.count_append,
        beq_iff_eq]
      split_ifs with hp
      · subst hp
        omega
      · omega
    obtain ⟨nodes, hadd, hc⟩ := (h.putTask hqueue hheld).listAddTail (q := .jobs) hd'
    refine ⟨{ (c.putTask task) with nodes, hist := c.hist ++ [.accepted task.addr] }, ?_, ?_⟩
    · have hadd' : Emlist.listAddTail (c.putTask task).nodes (.task task.addr) .jobs =
          some nodes := hadd
      simp only [Linked.schedAddTask, h.stop, hs, Bool.false_eq_true, if_false, hadd',
        Option.bind_eq_bind, Option.bind_some]
      rfl
    · exact ⟨congrArg (World.log · (.accepted task.addr)) hc.rest, hc.queue, hc.ts, hc.task,
        hc.trigger, hc.held⟩

theorem Represents.trigAdd {trig : Emtri} (h : Represents held c w)
    (hd : Distinct (own ++ base) held w) (ho : trig.addr ∈ own) :
    ∃ c', c.trigAdd trig = some ((w.trigAdd trig).1, c') ∧
      Represents held c' (w.trigAdd trig).2 := by
  obtain ⟨_, _, _, hts⟩ := hd.own_off (List.mem_append_left base ho)
  have hnext : c.trigNext = w.trig.next := congrArg (·.trig.next) h.rest
  have hconns : c.conns = w.conns := congrArg World.conns h.rest
  obtain ⟨nodes, hadd, hc⟩ := h.addTrigger { trig with id := w.trig.next } hts
  refine ⟨{ (c.putTrigger { trig with id := w.trig.next }) with
    nodes
    trigNext := w.trig.next + 1
    hist := c.hist ++ [.trigAdded w.conns { trig with id := w.trig.next }] }, ?_, ?_⟩
  · have hadd' : Emlist.listAdd (c.putTrigger { trig with id := w.trig.next }).nodes
        (.trigger trig.addr) .ts = some nodes := hadd
    simp only [Linked.trigAdd, hnext, hconns, hadd', Option.bind_eq_bind, Option.bind_some]
    rfl
  · refine ⟨?_, hc.queue, hc.ts, hc.task, hc.trigger, hc.held⟩
    exact congrArg (fun v : World ↦ { v with
      trig := { v.trig with next := w.trig.next + 1 }
      hist := v.hist ++ [Event.trigAdded w.conns { trig with id := w.trig.next }] }) hc.rest

theorem exec_rel (h : Represents held c w) (hd : Distinct (own ++ base) held w)
    (ho : publishProtocol.allowed own o) (a : Ans) :
    Option.Rel (SameResult fun _ ↦ held) (Linked.exec o a c) (exec o a w) := by
  cases hlist : o.offLists with
  | true =>
    have hexec : Linked.exec o a c = (exec o a c.bare).map fun r ↦ (r.1, c.put r.2) := by
      cases o <;> first | rfl | cases hlist
    rw [hexec, h.bare]
    refine h.of_bare (exec_bare hlist a) fun r hr ↦ ?_
    obtain ⟨hq, hts⟩ := (exec_effect hr).offLists hlist
    exact ⟨hq, hts, rfl⟩
  | false =>
    cases o with
    | schedAddTask task =>
      cases a with
      | tick => exact rel_of_some _ (h.schedAddTask task hd ho)
      | _ => exact .none
    | trigAdd trig =>
      cases a with
      | tick => exact rel_of_some _ (h.trigAdd hd ho)
      | _ => exact .none
    | trigDelById id =>
      cases a with
      | tick => exact rel_of_some _ (h.delFirst hd)
      | _ => exact .none
    | trigDelByInst mod type inst =>
      cases a with
      | tick => exact rel_of_some _ (h.delFirst hd)
      | _ => exact .none
    | trigFindById id =>
      cases a with
      | tick => exact rel_of_some _ ⟨c, h.find hd, h⟩
      | _ => exact .none
    | _ => cases hlist

theorem netStep_bare {E : Emproto} {t : NetThread} {a : Ans} (hpc : t.pc ≠ .hello ∨
    ∀ now, a ≠ .time now) (hproc : ∀ o k, t.pc ≠ .process (.call o k)) :
    netStep E t a w.bare = (netStep E t a w).map fun r ↦ (r.1, r.2.bare) := by
  rcases t with ⟨pc, e⟩
  have hnet : w.bare.net = w.net := rfl
  cases pc with
  | next =>
    cases a with
    | tick =>
      simp only [netStep, hnet]
      cases w.net.status <;> rfl
    | _ => rfl
  | socket =>
    cases a with
    | tick | fd | fails =>
      simp only [netStep, netSocket, hnet]
      split_ifs <;> rfl
    | _ => rfl
  | connect =>
    cases a with
    | connect r =>
      cases r with
      | none =>
        simp only [netStep, netConnect, hnet]
        split_ifs <;> rfl
      | some e => rfl
    | _ => rfl
  | resolve =>
    cases a with
    | ok b => cases b <;> rfl
    | _ => rfl
  | hello =>
    cases a with
    | ok b => cases b <;> rfl
    | time now => exact absurd rfl (hpc.resolve_left (by simp) now)
    | _ => rfl
  | recv ph got =>
    cases a with
    | recv r =>
      cases r with
      | data bytes =>
        simp only [netStep, netRecv, netReceived, hnet]
        split_ifs
        · cases netCollect E ph (got ++ bytes) <;> rfl
        · rfl
      | closed =>
        simp only [netStep, netRecv, netNoData, hnet]
        split_ifs <;> rfl
      | error e =>
        simp only [netStep, netRecv, netNoData]
        split_ifs <;> rfl
    | _ => rfl
  | process p =>
    cases p with
    | pure x => cases a <;> rfl
    | call o k => exact absurd rfl (hproc o k)
  | _ => cases a <;> rfl

theorem NetMove.offLists {E : Emproto} {t t' : NetThread} (hm : NetMove E t w t' w')
    (hpc : t.pc ≠ .hello) (hproc : ∀ o k, t.pc ≠ .process (.call o k)) :
    (∀ q, w'.queue q = w.queue q) ∧ w'.trig.ts = w.trig.ts := by
  cases hm with
  | handler => exact absurd rfl (hproc _ _)
  | helloAdd => exact absurd rfl hpc
  | _ => exact ⟨fun _ ↦ rfl, rfl⟩

theorem rel_map {α α' β β' : Type} {R : α → β → Prop} {R' : α' → β' → Prop} {k : α → α'}
    {k' : β → β'} {f : Option α} {g : Option β} (h : Option.Rel R f g)
    (hk : ∀ x y, R x y → R' (k x) (k' y)) : Option.Rel R' (f.map k) (g.map k') := by
  cases h with
  | none => exact .none
  | some hr => exact .some (hk _ _ hr)

theorem SameResult.map {β β' : Type} {held' : β → List Emtask} {held'' : β' → List Emtask}
    (k : β → β') (hheld : ∀ x, held'' (k x) = held' x) {r : β × Linked} {r' : β × World}
    (h : SameResult held' r r') : SameResult held'' (k r.1, r.2) (k r'.1, r'.2) := by
  refine ⟨congrArg k h.1, ?_⟩
  rw [hheld]
  exact h.2

theorem netStep_rel {E : Emproto} {t : NetThread} (h : Represents held c w)
    (hd : Distinct own held w)
    (hpub : ∀ p, t.pc = .process p → Obeys publishProtocol AnyPost own p) (a : Ans) :
    Option.Rel (SameResult fun _ ↦ held) (c.netStep E t a) (netStep E t a w) := by
  have hd' : Distinct (own ++ []) held w := (List.append_nil own).symm ▸ hd
  by_cases hproc : ∃ o k, t.pc = .process (.call o k)
  · obtain ⟨o, k, hpc⟩ := hproc
    have hrel := exec_rel h hd' (hpub _ hpc).1 a
    have hnet : netStep E t a w =
        (exec o a w).map fun r ↦ (⟨.process (k r.1), o.errno r.1 t.errno⟩, r.2) := by
      simp only [netStep, hpc]
    have hlinked : c.netStep E t a =
        (Linked.exec o a c).map fun r ↦ (⟨.process (k r.1), o.errno r.1 t.errno⟩, r.2) := by
      simp only [Linked.netStep, hpc]
    rw [hnet, hlinked]
    exact rel_map hrel fun _ _ hr ↦
      hr.map (fun x ↦ NetThread.mk (.process (k x)) (o.errno x t.errno)) fun _ ↦ rfl
  · simp only [not_exists] at hproc
    by_cases hello : t.pc = .hello ∧ ∃ now, a = .time now
    · obtain ⟨hpc, now, rfl⟩ := hello
      have hnew : Distinct ([w.heap] ++ own) held { w with heap := w.heap + 1 } :=
        Distinct.publish [] hd .malloc trivial
      have hheap : Represents held { c with heap := c.heap + 1 } { w with heap := w.heap + 1 } :=
        ⟨congrArg (fun v : World ↦ { v with heap := v.heap + 1 }) h.rest, h.queue, h.ts, h.task,
          h.trigger, h.held⟩
      have hadd := hheap.schedAddTask (helloTask w.heap now) hnew (List.mem_singleton_self _)
      have hlinked : c.netStep E t (.time now) = (Linked.schedAddTask { c with heap := c.heap + 1 }
          (helloTask w.heap now)).map fun r ↦
            (⟨if r.1 = 0 then .store else .undo, t.errno⟩, r.2) := by
        simp only [Linked.netStep, hpc, h.heap]
      have hnet : netStep E t (.time now) w = (some (World.schedAddTask
          { w with heap := w.heap + 1 } (helloTask w.heap now))).map fun r ↦
            (⟨if r.1 = 0 then .store else .undo, t.errno⟩, r.2) := by
        simp only [netStep, hpc, netConnected]
        rfl
      rw [hlinked, hnet]
      exact rel_map (rel_of_some (fun _ ↦ held) hadd) fun _ _ hr ↦
        hr.map (fun x ↦ NetThread.mk (if x = 0 then .store else .undo) t.errno) fun _ ↦ rfl
    · have hlinked : c.netStep E t a =
          (netStep E t a c.bare).map fun r ↦ (r.1, c.put r.2) := by
        rcases t with ⟨pc, e⟩
        cases pc with
        | hello =>
          cases a with
          | time now => exact absurd ⟨rfl, now, rfl⟩ hello
          | _ => rfl
        | process p =>
          cases p with
          | pure x => rfl
          | call o k => exact absurd rfl (hproc o k)
        | _ => rfl
      rw [hlinked, h.bare]
      refine h.of_bare (netStep_bare ?_ hproc) fun r hr ↦ ?_
      · by_cases hpc : t.pc = .hello
        · exact .inr fun now ha ↦ hello ⟨hpc, now, ha⟩
        · exact .inl hpc
      · by_cases hpc : t.pc = .hello
        · have hconn : netConnected t.errno w a = some r := by
            simp only [netStep, hpc] at hr
            exact hr
          cases a with
          | ok b =>
            cases b <;> cases hconn
            exact ⟨fun _ ↦ rfl, rfl, rfl⟩
          | time now => exact absurd ⟨hpc, now, rfl⟩ hello
          | _ => cases hconn
        · obtain ⟨hq, hts⟩ := (netStep_move hr).offLists hpc hproc
          exact ⟨hq, hts, rfl⟩

def SchPc.offLists : SchPc → Bool
  | .take | .settle _ _ _ | .flush | .back | .drain | .perform _ _ (.call _ _) => false
  | _ => true

theorem schedStep_bare {pc : SchPc} (hoff : pc.offLists = true) (a : Ans) :
    schedStep S pc a w.bare = (schedStep S pc a w).map fun r ↦ (r.1, r.2.bare) := by
  cases pc with
  | alert =>
    cases a with
    | tick =>
      simp only [schedStep]
      split_ifs <;> rfl
    | _ => rfl
  | perform task now p =>
    cases p with
    | pure op => cases a <;> rfl
    | call o k => cases hoff
  | take | settle | flush | back | drain => cases hoff
  | _ => cases a <;> rfl

theorem SchMove.offLists {pc pc' : SchPc} (hm : SchMove S pc w pc' w') (hoff : pc.offLists = true) :
    (∀ q, w'.queue q = w.queue q) ∧ w'.trig.ts = w.trig.ts ∧ pc'.held = pc.held := by
  cases hm with
  | takeNone | takeTask | op | later | again | consumed | netError | flush | back | drain =>
    cases hoff
  | alert =>
    split_ifs
    · exact ⟨fun _ ↦ rfl, rfl, rfl⟩
    · exact ⟨fun _ ↦ rfl, rfl, rfl⟩
  | _ => exact ⟨fun _ ↦ rfl, rfl, rfl⟩

theorem performProtocol_publishes {failed : Bool} (own : List ℕ)
    (ho : performProtocol.allowed failed o) :
    publishProtocol.allowed own o ∧ ∀ r, publishProtocol.next own o r = own := by
  cases o with
  | malloc | free | schedAddTask | trigAdd => exact ho.elim
  | _ => exact ⟨trivial, fun _ ↦ rfl⟩

theorem Represents.take (h : Represents [] c w) (hd : Distinct own [] w) :
    Option.Rel (SameResult SchPc.held) c.take (schedStep S .take .tick w) := by
  have hring : c.nodes.Ring .jobs ((w.queue .jobs).map Emtask.node) := h.queue .jobs
  cases hjobs : w.sched.jobs with
  | nil =>
    have hempty : listEmpty c.nodes .jobs = some true := by
      rw [Emlist.listEmpty_spec hring, World.queue, hjobs]
      rfl
    simp only [schedStep, hjobs, Linked.take, hempty, Option.bind_eq_bind, Option.bind_some,
      if_true]
    exact .some ⟨rfl, h⟩
  | cons task jobs =>
    rw [World.queue, hjobs, List.map_cons] at hring
    have htask : c.taskAt task.node = some task :=
      h.task .jobs task (by rw [World.queue, hjobs]; exact List.mem_cons_self ..)
    obtain ⟨nodes, hdel, hc⟩ := h.listDel (q := .jobs) hd hjobs
    simp only [schedStep, hjobs, Linked.take, Emlist.listEmpty_spec hring, List.isEmpty_cons,
      Emlist.listFirstEntry_spec hring, htask, hdel, Option.bind_eq_bind, Option.bind_some,
      Bool.false_eq_true, if_false]
    exact .some ⟨rfl, hc⟩

theorem Represents.dumpAll (h : Represents held c w) (hd : Distinct own held w) :
    ∃ c₁ c₂, c.dump .todo = some c₁ ∧ c₁.dump .jobs = some c₂ ∧ Represents held c₂ { w with
      sched := { w.sched with jobs := [], todo := [] }
      hist := w.hist ++ (w.sched.todo ++ w.sched.jobs).map (.freed ·.addr) } := by
  obtain ⟨c₁, htodo, h₁⟩ := h.dump hd .todo
  obtain ⟨c₂, hjobs, h₂⟩ := h₁.dump (hd.emptied (List.append_nil _).symm) .jobs
  refine ⟨c₁, c₂, htodo, hjobs, ?_⟩
  simpa [World.emptied, World.withQueue, World.queue] using h₂

theorem Represents.settle {task : Emtask} (h : Represents [task] c w) (hd : Distinct own [task] w)
    (now : Timespec) (op : Outcome) : Option.Rel (SameResult SchPc.held)
      (c.settle task now op) (some (schedSettle task now w op)) := by
  cases op with
  | notElapsed =>
    obtain ⟨nodes, hadd, hc⟩ := h.listAdd (q := .todo) hd
    have hadd' : Emlist.listAdd c.nodes (.task task.addr) .todo = some nodes := hadd
    simp only [Linked.settle, hadd', Option.bind_eq_bind, Option.bind_some]
    exact .some ⟨rfl, hc⟩
  | reschedule =>
    let task' : Emtask := { task with
      issued := now
      resch := if 0 < task.resch then task.resch - 1 else task.resch }
    have hd' : Distinct own [task'] w := hd.of_le (Nat.le_refl _) fun _ ↦ Nat.le_refl _
    obtain ⟨nodes, hadd, hc⟩ := (h.setTask task' hd rfl).listAdd (q := .todo) hd'
    have hadd' : Emlist.listAdd c.nodes (.task task.addr) .todo = some nodes := hadd
    simp only [Linked.settle, hadd', Option.bind_eq_bind, Option.bind_some]
    exact .some ⟨rfl, hc⟩
  | consumed => exact .some ⟨rfl, h.taskFree hd⟩
  | netError =>
    have hd' : Distinct own [] (w.log (.freed task.addr)) :=
      hd.drop.settled rfl rfl rfl (fun _ ↦ rfl) (.refl _)
    obtain ⟨c₁, c₂, htodo, hjobs, hc⟩ := (h.taskFree hd).dumpAll hd'
    simp only [Linked.settle, htodo, hjobs, Option.bind_eq_bind, Option.bind_some]
    refine .some ⟨rfl, ?_⟩
    simpa [schedSettle, SchPc.held, World.log] using hc

/-- A step of the scheduler over the rings is its step over the lists. -/
theorem schedStep_rel {pc : SchPc} (h : Represents pc.held c w) (hd : Distinct own pc.held w)
    (hperf : Performing pc) (a : Ans) :
    Option.Rel (SameResult SchPc.held) (c.schedStep S pc a) (schedStep S pc a w) := by
  cases hoff : pc.offLists with
  | true =>
    have hlinked : c.schedStep S pc a =
        (schedStep S pc a c.bare).map fun r ↦ (r.1, c.put r.2) := by
      cases pc with
      | perform task now p =>
        cases p with
        | pure op => rfl
        | call o k => cases hoff
      | take | settle | flush | back | drain => cases hoff
      | _ => rfl
    rw [hlinked, h.bare]
    exact h.of_bare (schedStep_bare hoff a) fun r hr ↦ (schedStep_move hr).offLists hoff
  | false =>
    cases pc with
    | take =>
      cases a with
      | tick => exact h.take hd
      | _ => exact .none
    | perform task now p =>
      cases p with
      | pure op => cases hoff
      | call o k =>
        obtain ⟨failed, hallowed, _⟩ := hperf
        have hpub := (performProtocol_publishes [] hallowed).1
        exact rel_map (exec_rel h (show Distinct ([] ++ own) _ w from hd) hpub a) fun _ _ hr ↦
          hr.map (fun x ↦ SchPc.perform task now (k x)) fun _ ↦ rfl
    | settle task now op =>
      cases a with
      | tick => exact h.settle hd now op
      | _ => exact .none
    | flush =>
      cases a with
      | tick =>
        obtain ⟨c', hflush, hc⟩ := h.trigFlush hd
        simp only [Linked.schedStep, hflush, Option.map_some, schedStep]
        exact .some ⟨rfl, hc⟩
      | _ => exact .none
    | back =>
      cases a with
      | tick =>
        obtain ⟨c', hback, hc⟩ := h.moveBack hd
        simp only [Linked.schedStep, hback, Option.map_some, schedStep]
        exact .some ⟨rfl, hc⟩
      | _ => exact .none
    | drain =>
      cases a with
      | tick =>
        obtain ⟨c₁, c₂, htodo, hjobs, hc⟩ := h.dumpAll hd
        simp only [Linked.schedStep, Linked.drain, htodo, hjobs, Option.bind_eq_bind,
          Option.bind_some, schedStep]
        exact .some ⟨rfl, hc⟩
      | _ => exact .none
    | _ => cases hoff

def Publishing (own : List ℕ) : NetPc → Prop
  | .process p => Obeys publishProtocol AnyPost own p
  | _ => True

theorem Distinct.netMove {E : Emproto} {t t' : NetThread} (hd : Distinct own held w)
    (hpub : Publishing own t.pc) (hm : NetMove E t w t' w') :
    ∃ own', Distinct own' held w' ∧ Publishing own' t'.pc := by
  have hd' : Distinct (own ++ []) held w := (List.append_nil own).symm ▸ hd
  cases hm with
  | handler he =>
    have hnext := Distinct.publish _ hd' he hpub.1
    rw [List.append_nil] at hnext
    exact ⟨_, hnext, hpub.2 _⟩
  | helloRefused => exact ⟨own, hd.of_le (Nat.le_succ _) fun _ ↦ Nat.le_refl _, trivial⟩
  | helloAdd now hs =>
    have hnew := Distinct.publish [] hd .malloc trivial
    have hadd := Distinct.publish [w.heap] hnew (o := .schedAddTask (helloTask w.heap now))
      (.accepted hs) (List.mem_singleton_self _)
    exact ⟨own, hadd.of_le (Nat.le_refl _) fun p ↦ by
      simp [World.standing, publishProtocol, helloTask, Emtask.init], trivial⟩
  | recvMessage =>
    exact ⟨own, hd.settled rfl rfl rfl (fun _ ↦ rfl) (.refl _), netProcessMessage_publishes _⟩
  | again hpc | connectFail hpc =>
    rcases hpc with rfl | rfl <;> exact ⟨own, hd, trivial⟩
  | _ => exact ⟨own, hd.settled rfl rfl rfl (fun _ ↦ rfl) (.refl _), trivial⟩

theorem Distinct.schMove {pc pc' : SchPc} (hd : Distinct own pc.held w) (hperf : Performing pc)
    (hm : SchMove S pc w pc' w') : Distinct own pc'.held w' := by
  cases hm with
  | takeTask hjobs => exact hd.take (q := .jobs) hjobs
  | op he =>
    obtain ⟨failed, hallowed, _⟩ := hperf
    obtain ⟨hpub, hnext⟩ := performProtocol_publishes own hallowed
    have hd' : Distinct (own ++ []) _ w := (List.append_nil own).symm ▸ hd
    have hpublish := Distinct.publish _ hd' he hpub
    rwa [hnext, List.append_nil] at hpublish
  | later => exact hd.put (q := .todo) fun _ ↦ rfl
  | again => exact hd.put (q := .todo) fun _ ↦ rfl
  | consumed => exact hd.drop.settled rfl rfl rfl (fun _ ↦ rfl) (.refl _)
  | netError | drain | back =>
    refine hd.of_le (Nat.le_refl _) fun p ↦ ?_
    simp only [World.standing, World.queue, SchPc.held, addrs_nil, addrs_append, addrs_reverse,
      List.count_append, List.count_reverse, List.count_nil]
    omega
  | flush => exact hd.settled rfl rfl rfl (fun _ ↦ rfl) (List.nil_sublist _)
  | alert =>
    split_ifs
    · exact hd.settled rfl rfl rfl (fun _ ↦ rfl) (.refl _)
    · exact hd
  | _ => exact hd.settled rfl rfl rfl (fun _ ↦ rfl) (.refl _)

end Steps

section Runs

variable {S : Setup} {s : Agent} {c : LinkedAgent}

/-- Nothing stands in two places, and what the network thread still gives away
is its own. -/
def Owning (s : Agent) : Prop :=
  ∃ own, Distinct own s.sch.held s.w ∧ Publishing own s.net.pc

theorem Distinct.api {own : List ℕ} {held : List Emtask} {w w' : World} {call : ApiCall}
    {answers : List Ans} {x : ℤ} (hd : Distinct own held w)
    (hr : call.body.run exec answers w = some (x, w')) : Distinct own held w' := by
  have hpub : Obeys publishProtocol AnyPost [] call.body := apiCall_publishes call
  obtain ⟨own', _, hd'⟩ := hpub.run (I := fun own' w ↦ Distinct (own' ++ own) held w)
    (fun _ _ _ _ _ _ ho hI he ↦ Distinct.publish _ hI (exec_effect he) ho) hd hr
  refine hd'.of_le (Nat.le_refl _) fun p ↦ ?_
  simp only [World.standing, List.count_append]
  omega

theorem Distinct.relMove {own : List ℕ} {s' : Agent} (hd : Distinct own s.sch.held s.w)
    (hm : RelMove s s') : Distinct own s'.sch.held s'.w := by
  cases hm with
  | flush => exact hd.settled rfl rfl rfl (fun q ↦ by cases q <;> rfl) (List.nil_sublist _)
  | _ => exact hd.settled rfl rfl rfl (fun q ↦ by cases q <;> rfl) (.refl _)

theorem Owning.of_reachable (h : (agent S).Reachable s) : Owning s := by
  refine h.invariant ?_ ?_
  · exact ⟨[], ⟨fun _ ↦ Nat.zero_le 1, fun _ hp ↦ absurd rfl hp⟩, trivial⟩
  · intro s a s' hr hI _ hs
    obtain ⟨own, hd, hpub⟩ := hI
    cases Agent.step_move hs with
    | net hm => exact hd.netMove hpub hm
    | sched _ hm => exact ⟨own, hd.schMove (conduct hr).1 hm, hpub⟩
    | api hrun => exact ⟨own, hd.api hrun, hpub⟩
    | release hm => exact ⟨own, hd.relMove hm, by cases hm <;> exact hpub⟩

/-- The threads of both agents stand at the same places, and the memory of the
one holds the lists of the other. -/
structure LinkedAgent.Shows (c : LinkedAgent) (s : Agent) : Prop where
  net : c.net = s.net
  sch : c.sch = s.sch
  rel : c.rel = s.rel
  lists : Represents s.sch.held c.w s.w

namespace LinkedAgent

theorem start_shows : start.Shows Agent.start where
  net := rfl
  sch := rfl
  rel := rfl
  lists := by
    refine ⟨rfl, fun q ↦ ?_, ?_, fun q ↦ ?_, ?_, ?_⟩
    · cases q <;> exact Library.Nodes.ring_nil.mpr ⟨rfl, rfl⟩
    · exact Library.Nodes.ring_nil.mpr ⟨rfl, rfl⟩
    · cases q <;> exact List.forall_mem_nil _
    · exact List.forall_mem_nil _
    · exact List.forall_mem_nil _

theorem Shows.api {own : List ℕ} (h : c.Shows s) (hd : Distinct own s.sch.held s.w)
    (call : ApiCall) (answers : List Ans) :
    Option.Rel Shows ((linkedAgent S).step c (.api call answers))
      ((agent S).step s (.api call answers)) := by
  have hpub : Obeys publishProtocol AnyPost [] call.body := apiCall_publishes call
  let I (own' : List ℕ) (c : Linked) (w : World) : Prop :=
    Represents s.sch.held c w ∧ Distinct (own' ++ own) s.sch.held w
  have hstep (own' : List ℕ) (o : Op) (a : Ans) (c : Linked) (w : World)
      (ho : publishProtocol.allowed own' o) (hI : I own' c w) :
      Option.Rel (fun r r' ↦ r.1 = r'.1 ∧ I (publishProtocol.next own' o r'.1) r.2 r'.2)
        (Linked.exec o a c) (exec o a w) := by
    have hrel := exec_rel hI.1 hI.2 ho a
    generalize hexec : exec o a w = g at hrel
    generalize Linked.exec o a c = f at hrel
    cases hrel with
    | none => exact .none
    | some hr => exact .some ⟨hr.1, hr.2, Distinct.publish _ hI.2 (exec_effect hexec) ho⟩
  refine rel_map (hpub.run_rel hstep ⟨h.lists, hd⟩ answers) fun _ _ hr ↦ ?_
  obtain ⟨_, _, _, hlists, _⟩ := hr
  exact ⟨h.net, h.sch, h.rel, hlists⟩

theorem releaseStep_bare (hrel : s.rel ≠ .flush) :
    Agent.releaseStep { s with w := s.w.bare } =
      s.releaseStep.map fun s' ↦ { s' with w := s'.w.bare } := by
  rcases s with ⟨w, ⟨pc, e⟩, sch, rel⟩
  cases rel with
  | joinSched => cases sch <;> rfl
  | joinNet => cases pc <;> rfl
  | flush => exact absurd rfl hrel
  | _ => rfl

theorem releaseStep_offLists {s' : Agent} (h : s.releaseStep = some s') (hrel : s.rel ≠ .flush) :
    (∀ q, s'.w.queue q = s.w.queue q) ∧ s'.w.trig.ts = s.w.trig.ts := by
  have hm := releaseStep_move h
  cases hm with
  | flush =>
    obtain ⟨_, _, hnext⟩ := releaseStep_next h
    simp [hrel] at hnext
  | _ => exact ⟨fun q ↦ by cases q <;> rfl, rfl⟩

theorem Shows.release {own : List ℕ} (h : c.Shows s) (hd : Distinct own s.sch.held s.w) :
    Option.Rel Shows ((linkedAgent S).step c .release) ((agent S).step s .release) := by
  by_cases hflush : s.rel = .flush
  · obtain ⟨w, htrig, hw⟩ := h.lists.trigFlush hd
    have hlinked : (linkedAgent S).step c .release = some { c with w, rel := .done } := by
      simp only [linkedAgent, step, releaseStep, h.rel.trans hflush, htrig]
      rfl
    have hagent : (agent S).step s .release = some { s with
        w := { s.w with trig := s.w.trig.trigFlush }, rel := .done } := by
      simp only [agent, Agent.step, Agent.releaseStep, hflush]
    rw [hlinked, hagent]
    exact .some ⟨h.net, h.sch, rfl, hw⟩
  · have hlinked : (linkedAgent S).step c .release =
        (Agent.releaseStep { s with w := s.w.bare }).map fun r ↦
          { c with w := c.w.put r.w, rel := r.rel } := by
      have hrel : c.rel ≠ .flush := h.rel ▸ hflush
      simp only [linkedAgent, step, releaseStep, h.lists.bare, h.net, h.sch, ← h.rel]
    rw [hlinked, releaseStep_bare hflush, Option.map_map]
    simp only [agent, Agent.step]
    cases hs : s.releaseStep with
    | none => exact .none
    | some s' =>
      obtain ⟨hq, hts⟩ := releaseStep_offLists hs hflush
      obtain ⟨hsch, hnet, _⟩ := releaseStep_next hs
      refine .some ⟨h.net.trans hnet.symm, h.sch.trans hsch.symm, rfl, ?_⟩
      rw [hsch]
      exact h.lists.put hq hts

/-- One step of the agent over the rings is the step over the lists. -/
theorem Shows.step (hr : (agent S).Reachable s) (h : c.Shows s) (a : Act) :
    Option.Rel Shows ((linkedAgent S).step c a) ((agent S).step s a) := by
  obtain ⟨own, hd, hpub⟩ := Owning.of_reachable hr
  cases a with
  | net a =>
    have hpub' (p : Proc ℤ) (hp : s.net.pc = .process p) : Obeys publishProtocol AnyPost own p := by
      rw [hp] at hpub
      exact hpub
    have hlinked : (linkedAgent S).step c (.net a) = (c.w.netStep S.proto s.net a).map fun r ↦
        { c with net := r.1, w := r.2 } := by
      rw [← h.net]
      rfl
    rw [hlinked]
    exact rel_map (netStep_rel h.lists hd hpub' a) fun _ _ hr ↦ ⟨hr.1, h.sch, h.rel, hr.2⟩
  | sched a =>
    have hlinked : (linkedAgent S).step c (.sched a) = (c.w.schedStep S s.sch a).map fun r ↦
        { c with sch := r.1, w := r.2 } := by
      rw [← h.sch]
      rfl
    rw [hlinked]
    exact rel_map (schedStep_rel h.lists hd (conduct hr).1 a) fun _ _ hr ↦
      ⟨h.net, hr.1, h.rel, hr.2⟩
  | api call answers => exact h.api hd call answers
  | release => exact h.release hd

end LinkedAgent

/-- Every run over the rings is one over the lists and the other way round: the
two come to the same places, and what the pointers hold are the lists. -/
theorem linked_runs (S : Setup) (as : List Act) : Option.Rel LinkedAgent.Shows
    ((linkedAgent S).runIf (fun _ _ ↦ True) (linkedAgent S).start as)
    ((agent S).runIf (fun _ _ ↦ True) (agent S).start as) := by
  refine Library.Machine.runIf_rel (fun c s a hr h ↦ ?_) .start LinkedAgent.start_shows as
  exact LinkedAgent.Shows.step hr h a

theorem LinkedAgent.shows_of_reachable (h : (linkedAgent S).Reachable c) :
    ∃ s, (agent S).Reachable s ∧ c.Shows s := by
  refine h.invariant (I := fun c ↦ ∃ s, (agent S).Reachable s ∧ c.Shows s) ?_ ?_
  · exact ⟨_, .start, start_shows⟩
  · intro c a c' _ hI _ hs
    obtain ⟨s, hr, hshows⟩ := hI
    have hrel := hshows.step hr a
    rw [hs] at hrel
    generalize hstep : (agent S).step s a = g at hrel
    cases hrel with
    | some h' => exact ⟨_, .step hr trivial hstep, h'⟩

/-- Whatever the threads have done, the pointers make three rings, of which no
two share an entry, each entry is in the memory, and none has been freed. -/
theorem linked_lists_sound (h : (linkedAgent S).Reachable c) :
    ∃ (jobs todo : List Emtask) (ts : List Emtri),
      c.w.nodes.Ring .jobs (jobs.map Emtask.node) ∧
      c.w.nodes.Ring .todo (todo.map Emtask.node) ∧
      c.w.nodes.Ring .ts (ts.map Emtri.node) ∧
      (∀ t ∈ jobs ++ todo ++ c.sch.held, c.w.tasks t.addr = some t ∧
        .freed t.addr ∉ c.w.hist) ∧
      (∀ t ∈ ts, c.w.triggers t.addr = some t) ∧
      (addrs (jobs ++ todo ++ c.sch.held) ++ ts.map Emtri.addr).Nodup := by
  obtain ⟨s, hr, _, hsch, _, hlists⟩ := LinkedAgent.shows_of_reachable h
  obtain ⟨own, hd, _⟩ := Owning.of_reachable hr
  have hhist : c.w.hist = s.w.hist := congrArg World.hist hlists.rest
  rw [hsch, hhist]
  refine ⟨_, _, _, hlists.queue .jobs, hlists.queue .todo, hlists.ts, fun t ht ↦ ⟨?_, ?_⟩,
    hlists.trigger, ?_⟩
  · rcases List.mem_append.mp ht with ht | ht
    · rcases List.mem_append.mp ht with ht | ht
      · exact hlists.task .jobs t ht
      · exact hlists.task .todo t ht
    · exact (hlists.held t ht).2
  · intro hfreed
    have hb := (TaskInv.of_reachable hr).books
    have hle := hb.balance t.addr
    have honce := List.nodup_iff_count_le_one.mp hb.once t.addr
    have hmem : t.addr ∈ addrs (s.w.queue .jobs ++ s.w.queue .todo ++ s.sch.held) :=
      List.mem_map_of_mem ht
    have hpos := List.count_pos_iff.mpr hmem
    have hmem' : t.addr ∈ s.w.freed := List.mem_filterMap.mpr ⟨_, hfreed, rfl⟩
    have hpos' := List.count_pos_iff.mpr hmem'
    simp only [addrs_append, List.count_append, World.queue] at hpos
    simp only [World.places] at hle
    omega
  · refine List.nodup_iff_count_le_one.mpr fun p ↦ Nat.le_trans ?_ (hd.once p)
    simp only [World.standing, addrs_append, List.count_append]
    omega

theorem linked_lists_sound_reporting : ∃ c, (linkedAgent Sample.setup).Reachable c ∧
    c.w.nodes.next .jobs = some (.task 0) ∧ c.w.nodes.next (.task 0) = some (.task 3) ∧
    c.w.nodes.next .ts = some (.trigger 1) ∧
    ∃ (jobs todo : List Emtask) (ts : List Emtri),
      c.w.nodes.Ring .jobs (jobs.map Emtask.node) ∧
      c.w.nodes.Ring .todo (todo.map Emtask.node) ∧
      c.w.nodes.Ring .ts (ts.map Emtri.node) ∧
      (∀ t ∈ jobs ++ todo ++ c.sch.held, c.w.tasks t.addr = some t ∧
        .freed t.addr ∉ c.w.hist) ∧
      (∀ t ∈ ts, c.w.triggers t.addr = some t) ∧
      (addrs (jobs ++ todo ++ c.sch.held) ++ ts.map Emtri.addr).Nodup := by
  have hr := (linkedAgent Sample.setup).reach_get (fun _ _ ↦ True)
    (Sample.connect 3 ++ Sample.requestReport) (by decide)
  exact ⟨_, hr, by decide, by decide, by decide, linked_lists_sound hr⟩

end Runs

end EmpowerAgent
