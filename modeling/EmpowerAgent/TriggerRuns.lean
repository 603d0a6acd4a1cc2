import EmpowerAgent.Pending
import EmpowerAgent.Connection
import EmpowerAgent.Handlers
import Mathlib.Algebra.Group.Nat.Defs

namespace EmpowerAgent

open Library.Proc (Obeys)

namespace Event

def addedTrigger : Event → Option Emtri
  | .trigAdded _ trig => some trig
  | _ => none

def OffTriggers (e : Event) : Prop := e.addedTrigger = none

def handledMessage : Event → Option Bytes
  | .handled _ msg => some msg
  | _ => none

end Event

def World.added (w : World) : List Emtri := w.hist.filterMap Event.addedTrigger

def World.handling (w : World) : Option Bytes := (w.hist.filterMap Event.handledMessage).getLast?

section Changes

variable {w w' w'' : World}

structure Shrinks (w w' : World) : Prop where
  ts : w'.trig.ts.Sublist w.trig.ts
  next : w'.trig.next = w.trig.next
  added : w'.added = w.added

theorem added_of_extends (h : Extends Event.OffTriggers w w') : w'.added = w.added :=
  h.filterMap_eq

theorem World.added_trigAdd (w : World) (trig : Emtri) :
    (w.trigAdd trig).2.added = w.added ++ [{ trig with id := w.trig.next }] := by
  simp [World.added, World.trigAdd, Event.addedTrigger]

namespace Shrinks

theorem keep (ht : w'.trig = w.trig) (hx : Extends Event.OffTriggers w w') : Shrinks w w' :=
  ⟨ht ▸ List.Sublist.refl _, by rw [ht], added_of_extends hx⟩

theorem delFirst (w : World) (p : Emtri → Bool) :
    Shrinks w { w with trig := (w.trig.delFirst p).2 } where
  ts := by
    rw [Trctx.delFirst_ts]
    exact List.eraseP_sublist
  next := by
    unfold Trctx.delFirst
    split_ifs <;> rfl
  added := rfl

theorem flush (w : World) : Shrinks w { w with trig := w.trig.trigFlush } :=
  ⟨List.nil_sublist _, rfl, rfl⟩

theorem netNotConnected (w : World) : Shrinks w w.netNotConnected :=
  .keep rfl (.netNotConnected w (fun _ ↦ rfl) fun _ ↦ rfl)

end Shrinks

theorem Effect.triggers {o : Op} {r : o.Res} (h : Effect o w r w') :
    Shrinks w w' ∧ (∀ trig, o ≠ .trigAdd trig) ∨
      ∃ trig, o = .trigAdd trig ∧ w' = (w.trigAdd trig).2 := by
  cases h with
  | trigAdd => exact .inr ⟨_, rfl, rfl⟩
  | trigDelById => exact .inl ⟨.delFirst w _, nofun⟩
  | trigDelByInst => exact .inl ⟨.delFirst w _, nofun⟩
  | accepted | sent | callback => exact .inl ⟨.keep rfl (.event rfl rfl), nofun⟩
  | _ => exact .inl ⟨.keep rfl (.silent rfl), nofun⟩

theorem SchMove.shrinks {S : Setup} {pc pc' : SchPc} (hm : SchMove S pc w pc' w')
    (hperf : Performing pc) : Shrinks w w' := by
  cases hm with
  | op he =>
    obtain ⟨failed, hobeys⟩ := hperf
    rcases he.triggers with ⟨hs, _⟩ | ⟨trig, rfl, _⟩
    · exact hs
    · cases hobeys.1
  | flush => exact .flush w
  | down => exact .netNotConnected w
  | returned | consumed => exact .keep rfl (.event rfl rfl)
  | netError | drain => exact .keep rfl (.freed rfl fun _ ↦ rfl)
  | alert =>
    split_ifs
    · exact .keep rfl (.event rfl rfl)
    · exact .keep rfl (.silent rfl)
  | _ => exact .keep rfl (.silent rfl)

theorem NetMove.triggers {E : Emproto} {t t' : NetThread} (hm : NetMove E t w t' w') :
    Shrinks w w' ∨ ∃ trig k, t.pc = .process (.call (.trigAdd trig) k) ∧
      t'.pc = .process (k w.trig.next) ∧ w' = (w.trigAdd trig).2 := by
  cases hm with
  | handler he =>
    rcases he.triggers with ⟨hs, _⟩ | ⟨trig, rfl, rfl⟩
    · exact .inl hs
    · cases he
      exact .inr ⟨trig, _, rfl, rfl, rfl⟩
  | undo | down => exact .inl (.netNotConnected w)
  | socketOpen | helloAdd | recvMore | recvDrop | recvFail =>
    exact .inl (.keep rfl (.event rfl rfl))
  | recvMessage => refine .inl (.keep rfl (.trans (.log w _ ?_) (.log _ _ ?_))) <;> rfl
  | _ => exact .inl (.keep rfl (.silent rfl))

theorem Move.triggers {S : Setup} {s s' : Agent} {a : Act} (hm : Move S s a s')
    (hperf : Performing s.sch) : Shrinks s.w s'.w ∨
      ∃ trig k, s.addsTrigger a = true ∧ s.net.pc = .process (.call (.trigAdd trig) k) ∧
        s'.net.pc = .process (k s.w.trig.next) ∧ s'.w = (s.w.trigAdd trig).2 ∧ s'.sch = s.sch := by
  cases hm with
  | net hm =>
    rcases hm.triggers with hs | ⟨trig, k, hpc, hpc', hw⟩
    · exact .inl hs
    · refine .inr ⟨trig, k, ?_, hpc, hpc', hw, rfl⟩
      simp only [Agent.addsTrigger, hpc]
  | sched _ hm => exact .inl (hm.shrinks hperf)
  | api hr =>
    cases apiCall_move hr with
    | emDelTrigger => exact .inl (.delFirst s.w _)
    | emSendQueued => exact .inl (.keep rfl (.event rfl rfl))
    | _ => exact .inl (.keep rfl (.silent rfl))
  | release hm =>
    cases hm with
    | flush => exact .inl (.flush s.w)
    | _ => exact .inl (.keep rfl (.silent rfl))

theorem Move.added_subset {S : Setup} {s s' : Agent} {a : Act} (hm : Move S s a s')
    (hperf : Performing s.sch) : s.w.added ⊆ s'.w.added := by
  rcases hm.triggers hperf with hs | ⟨trig, k, _, _, _, hw, _⟩
  · rw [hs.added]
    exact List.Subset.refl _
  · rw [hw, World.added_trigAdd]
    exact List.subset_append_left _ _

end Changes

section Numbers

variable {S : Setup} {s : Agent} {w w' : World}

/-- The triggers are numbered as they are added, modulo the width of an id. -/
structure Numbering (w : World) : Prop where
  next : w.trig.next = Int32.ofNat (w.added.length + 1)
  ids : ∀ i trig, w.added[i]? = some trig → trig.id = Int32.ofNat (i + 1)
  live : w.trig.ts ⊆ w.added

theorem Numbering.id (h : Numbering w) {trig : Emtri} (ht : trig ∈ w.added) :
    ∃ i, i < w.added.length ∧ trig.id = Int32.ofNat (i + 1) := by
  obtain ⟨i, hi⟩ := List.mem_iff_getElem?.mp ht
  exact ⟨i, (List.getElem?_eq_some_iff.mp hi).1, h.ids i trig hi⟩

theorem Numbering.shrink (h : Numbering w) (hs : Shrinks w w') : Numbering w' where
  next := by rw [hs.next, hs.added, h.next]
  ids := by
    rw [hs.added]
    exact h.ids
  live := by
    rw [hs.added]
    exact fun t ht ↦ h.live (hs.ts.subset ht)

theorem Numbering.trigAdd (h : Numbering w) (trig : Emtri) : Numbering (w.trigAdd trig).2 where
  next := by
    rw [World.added_trigAdd, List.length_append, List.length_singleton, Int32.ofNat_add, ← h.next]
    rfl
  ids i t ht := by
    rw [World.added_trigAdd] at ht
    rcases Nat.lt_trichotomy i w.added.length with hlt | rfl | hgt
    · rw [List.getElem?_append_left hlt] at ht
      exact h.ids i t ht
    · rw [List.getElem?_concat_length] at ht
      cases ht
      exact h.next
    · have hle : (w.added ++ [{ trig with id := w.trig.next }]).length ≤ i := by
        rw [List.length_append]
        exact hgt
      rw [List.getElem?_eq_none hle] at ht
      cases ht
  live := by
    rw [World.added_trigAdd]
    intro t ht
    rcases List.mem_cons.mp ht with rfl | ht
    · exact List.mem_append_right _ (List.mem_singleton_self _)
    · exact List.mem_append_left _ (h.live ht)

theorem Numbering.of_reachable (h : (agent S).Reachable s) : Numbering s.w := by
  refine h.invariant (I := fun s ↦ Numbering s.w) ?_ ?_
  · exact ⟨rfl, nofun, List.Subset.refl _⟩
  · intro s a s' hr hI _ hs
    rcases (Agent.step_move hs).triggers (conduct hr).1 with hshrink | ⟨trig, k, _, _, _, hw, _⟩
    · exact hI.shrink hshrink
    · rw [hw]
      exact hI.trigAdd trig

theorem ofNat_pos {n : ℕ} (hpos : 0 < n) (hlt : n < 2 ^ 31) : 0 < Int32.ofNat n := by
  rw [Int32.lt_iff_toInt_lt, Int32.toInt_ofNat_of_lt hlt]
  exact Int.natCast_pos.mpr hpos

theorem ofNat_injective {m n : ℕ} (hm : m < 2 ^ 31) (hn : n < 2 ^ 31)
    (h : Int32.ofNat m = Int32.ofNat n) : m = n := by
  have hi := congrArg Int32.toNatClampNeg h
  rwa [Int32.toNatClampNeg_ofNat_of_lt hm, Int32.toNatClampNeg_ofNat_of_lt hn] at hi

end Numbers

section Serving

variable {E : Emproto} {S : Setup} {s : Agent} {w w' : World} {msg : Bytes} {t : HandlerPhase}

theorem handling_of_extends (h : Extends Event.Local w w') : w'.handling = w.handling := by
  have hnone (e : Event) (he : e.Local) : e.handledMessage = none := by
    cases e <;> first | rfl | cases he
  exact congrArg List.getLast? (h.mono hnone).filterMap_eq

theorem Move.aside {s' : Agent} {a : Act} (hm : Move S s a s') (hperf : Performing s.sch)
    (ha : ∀ ans, a ≠ .net ans) :
    s'.net = s.net ∧ s'.w.handling = s.w.handling ∧ Shrinks s.w s'.w := by
  cases hm with
  | net => exact absurd rfl (ha _)
  | sched _ hm => exact ⟨rfl, handling_of_extends hm.extends, hm.shrinks hperf⟩
  | api hr =>
    cases apiCall_move hr with
    | emDelTrigger => exact ⟨rfl, rfl, .delFirst s.w _⟩
    | emSendQueued =>
      refine ⟨rfl, handling_of_extends (.event rfl ?_), .keep rfl (.event rfl rfl)⟩
      trivial
    | _ => exact ⟨rfl, rfl, .keep rfl (.silent rfl)⟩
  | release hm =>
    cases hm with
    | flush => exact ⟨rfl, rfl, .flush s.w⟩
    | _ => exact ⟨rfl, rfl, .keep rfl (.silent rfl)⟩

structure Served (E : Emproto) (w : World) (msg : Bytes) (t : HandlerPhase) (p : Proc ℤ) :
    Prop where
  message : w.handling = some msg
  obeys : Obeys (handlerProtocol E msg) (HandlerPost E msg) t p
  added : ∀ trig ∈ t.added, trig ∈ w.added ∧ trig.mod = requester E msg ∧ trig.msg = msg

theorem Served.start (conn : ℕ) (msg : Bytes) :
    Served E (w.log (.handled conn msg)) msg .init (netProcessMessage E msg) where
  message := by simp [World.handling, World.log, Event.handledMessage]
  obeys := netProcessMessage_handles msg
  added := nofun

theorem Served.frame {p : Proc ℤ} (h : Served E w msg t p) (hm : w'.handling = w.handling)
    (ha : w.added ⊆ w'.added) : Served E w' msg t p :=
  ⟨hm ▸ h.message, h.obeys, fun trig ht ↦ ⟨ha (h.added trig ht).1, (h.added trig ht).2⟩⟩

theorem Served.step {o : Op} {k : o.Res → Proc ℤ} {r : o.Res} (h : Served E w msg t (.call o k))
    (he : Effect o w r w') : Served E w' msg ((handlerProtocol E msg).next t o r) (k r) where
  message := by rw [handling_of_extends he.extends, h.message]
  obeys := h.obeys.2 r
  added := by
    rcases he.triggers with ⟨hs, ho⟩ | ⟨trig, rfl, rfl⟩
    · rw [hs.added, handler_next_added r ho]
      exact h.added
    · cases he
      rw [World.added_trigAdd]
      intro u hu
      rcases List.mem_cons.mp hu with rfl | hu
      · obtain ⟨_, _, hmod, hmsg, _⟩ := h.obeys.1
        exact ⟨List.mem_append_right _ (List.mem_singleton_self _), hmod, hmsg⟩
      · exact ⟨List.mem_append_left _ (h.added u hu).1, (h.added u hu).2⟩

def Serving (E : Emproto) (w : World) : NetPc → Prop
  | .process p => ∃ msg t, Served E w msg t p
  | _ => True

theorem Serving.frame {pc : NetPc} (h : Serving E w pc) (hm : w'.handling = w.handling)
    (ha : w.added ⊆ w'.added) : Serving E w' pc := by
  cases pc with
  | process p =>
    obtain ⟨msg, t, hp⟩ := h
    exact ⟨msg, t, hp.frame hm ha⟩
  | _ => trivial

theorem Serving.netMove {t t' : NetThread} (h : Serving E w t.pc) (hm : NetMove E t w t' w') :
    Serving E w' t'.pc := by
  cases hm with
  | recvMessage => exact ⟨_, .init, .start _ _⟩
  | handler he =>
    obtain ⟨msg, t, hp⟩ := h
    exact ⟨msg, _, hp.step he⟩
  | again hpc | connectFail hpc => rcases hpc with rfl | rfl <;> trivial
  | _ => trivial

theorem Serving.of_reachable (h : (agent S).Reachable s) : Serving S.proto s.w s.net.pc := by
  refine h.invariant (I := fun s ↦ Serving S.proto s.w s.net.pc) ?_ ?_
  · trivial
  intro s a s' hr hI _ hs
  have hm := Agent.step_move hs
  have hperf := (conduct hr).1
  rcases Agent.net_or hs with ⟨ans, t, w, rfl, hstep, rfl⟩ | ha
  · exact hI.netMove (netStep_move hstep)
  · obtain ⟨hnet, hmsg, _⟩ := hm.aside hperf ha
    rw [hnet]
    exact hI.frame hmsg (hm.added_subset hperf)

end Serving

section Working

variable {S : Setup} {s : Agent} {w w' : World} {task : Emtask} {t : JobPhase}

structure Worked (S : Setup) (w : World) (task : Emtask) (t : JobPhase) (p : Proc Outcome) :
    Prop where
  obeys : Obeys (jobProtocol S task) (JobPost S task) t p
  found : ∀ trig, t.found = some trig → trig ∈ w.added ∧ trig.id = task.trig

theorem Worked.start (w : World) (task : Emtask) (now : Timespec) :
    Worked S w task .init (schedPerformJob S task now) := ⟨schedPerformJob_obeys now, nofun⟩

theorem Worked.frame {p : Proc Outcome} (h : Worked S w task t p) (ha : w.added ⊆ w'.added) :
    Worked S w' task t p :=
  ⟨h.obeys, fun trig ht ↦ ⟨ha (h.found trig ht).1, (h.found trig ht).2⟩⟩

theorem Worked.step {o : Op} {k : o.Res → Proc Outcome} {r : o.Res}
    (h : Worked S w task t (.call o k)) (he : Effect o w r w') (hnum : Numbering w) :
    Worked S w' task ((jobProtocol S task).next t o r) (k r) where
  obeys := h.obeys.2 r
  found trig ht := by
    have hallowed := h.obeys.1
    have hadded : w'.added = w.added := by
      rcases he.triggers with ⟨hs, _⟩ | ⟨trig, rfl, _⟩
      · exact hs.added
      · cases allowed_op hallowed
    rw [hadded]
    cases o with
    | trigFindById id =>
      cases he
      have hfind : w.trig.trigFindById id = some trig := ht
      have hid := allowed_find hallowed
      refine ⟨hnum.live (List.mem_of_find?_eq_some hfind), ?_⟩
      rw [← hid]
      simpa using List.find?_some hfind
    | _ => exact h.found trig ht

def Working (S : Setup) (w : World) : SchPc → Prop
  | .perform task _ p => ∃ t, Worked S w task t p
  | _ => True

theorem Working.frame {pc : SchPc} (h : Working S w pc) (ha : w.added ⊆ w'.added) :
    Working S w' pc := by
  cases pc with
  | perform task now p =>
    obtain ⟨t, hp⟩ := h
    exact ⟨t, hp.frame ha⟩
  | _ => trivial

theorem Working.schMove {pc pc' : SchPc} (h : Working S w pc) (hm : SchMove S pc w pc' w')
    (hnum : Numbering w) : Working S w' pc' := by
  cases hm with
  | clock => exact ⟨.init, .start w _ _⟩
  | op he =>
    obtain ⟨t, hp⟩ := h
    exact ⟨_, hp.step he hnum⟩
  | _ => trivial

theorem Working.of_reachable (h : (agent S).Reachable s) : Working S s.w s.sch := by
  refine h.invariant (I := fun s ↦ Working S s.w s.sch) ?_ ?_
  · trivial
  intro s a s' hr hI _ hs
  have hm := Agent.step_move hs
  have hadded := hm.added_subset (conduct hr).1
  cases hm with
  | sched _ hm => exact hI.schMove hm (.of_reachable hr)
  | release hm => cases hm <;> exact hI.frame hadded
  | _ => exact hI.frame hadded

end Working

end EmpowerAgent
