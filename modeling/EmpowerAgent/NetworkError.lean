import EmpowerAgent.Quantum
import EmpowerAgent.Disconnection
import EmpowerAgent.Status
import EmpowerAgent.Locking

namespace EmpowerAgent

namespace Event

def closedFile : Event → Option ℤ
  | .closed fd => some fd
  | _ => none

end Event

namespace World

variable (S : Setup) (w : World)

def closings : List ℤ := w.hist.filterMap Event.closedFile

def tellDisconnected : World :=
  if S.ops.disconnected then w.log (.callback w.conns .disconnected) else w

end World

def Agent.inCall (s : Agent) : Act → Bool
  | .sched _ => match s.sch with | .loop => false | _ => true
  | _ => false

/-- `sched_consume` goes on, and no other thread takes a step. -/
def Undivided (p : Agent × Quantum) (a : Act) : Prop := p.1.inCall a = true

instance (p : Agent × Quantum) (a : Act) : Decidable (Undivided p a) :=
  inferInstanceAs (Decidable (_ = true))

/-- The same, as long as there is no network error to deal with. -/
def Sound (p : Agent × Quantum) (a : Act) : Prop := Undivided p a ∧ WithinQuantum p a

section Before

variable {S : Setup} {s₀ s s' : Agent} {q : Quantum} {w w' : World} {p : Agent × Quantum}

/-- What the performing of tasks leaves as it was. -/
structure Spared (w w' : World) : Prop where
  sockfd : w'.net.sockfd = w.net.sockfd
  next : w'.trig.next = w.trig.next
  conns : w'.conns = w.conns
  closings : w'.closings = w.closings
  alerts : w'.alerts = w.alerts

theorem Spared.trans {w'' : World} (h : Spared w w') (h' : Spared w' w'') : Spared w w'' :=
  ⟨h'.sockfd.trans h.sockfd, h'.next.trans h.next, h'.conns.trans h.conns,
    h'.closings.trans h.closings, h'.alerts.trans h.alerts⟩

def Event.OffDrop (e : Event) : Prop := e.closedFile = none ∧ e.alertOf = none

theorem Spared.of_extends (hfd : w'.net.sockfd = w.net.sockfd) (hnext : w'.trig.next = w.trig.next)
    (hconns : w'.conns = w.conns) (hx : Extends Event.OffDrop w w') : Spared w w' :=
  ⟨hfd, hnext, hconns, (hx.mono fun _ he ↦ he.1).filterMap_eq,
    (hx.mono fun _ he ↦ he.2).filterMap_eq⟩

theorem Effect.spared {o : Op} {r : o.Res} {failed : Bool} (he : Effect o w r w')
    (ho : performProtocol.allowed failed o) : Spared w w' := by
  refine .of_extends he.sockfd ?_ he.conns ?_
  · cases he with
    | trigAdd | trigDelById | trigDelByInst => exact ho.elim
    | _ => rfl
  · cases he with
    | accepted | trigAdd => exact ho.elim
    | sent => exact .event rfl ⟨rfl, rfl⟩
    | @callback _ c =>
      refine .event rfl ⟨rfl, ?_⟩
      cases c with
      | disconnected => exact absurd rfl ho
      | _ => rfl
    | _ => exact .silent rfl

theorem SchMove.spared {pc pc' : SchPc} (hm : SchMove S pc w pc' w') (hperf : Performing pc)
    (halert : pc ≠ .alert) (hdown : pc ≠ .down) : Spared w w' := by
  cases hm with
  | op he =>
    obtain ⟨failed, hobeys⟩ := hperf
    exact he.spared hobeys.1
  | returned | consumed => exact .of_extends rfl rfl rfl (.event rfl ⟨rfl, rfl⟩)
  | netError | drain => exact .of_extends rfl rfl rfl (.freed rfl fun _ ↦ ⟨rfl, rfl⟩)
  | alert => exact absurd rfl halert
  | down => exact absurd rfl hdown
  | _ => exact .of_extends rfl rfl rfl (.silent rfl)

structure Calm (s₀ : Agent) (s : Agent) (q : Quantum) : Prop where
  spared : Spared s₀.w s.w
  sound : ∀ e ∈ q.rounds, e.2.op ≠ .netError
  early : q.early = []
  late : q.late = []

theorem undivided_sched {a : Act} (h : Undivided p a) :
    (∃ ans, a = .sched ans) ∧ p.1.sch ≠ .loop := by
  cases a with
  | sched ans =>
    refine ⟨⟨ans, rfl⟩, fun hloop ↦ ?_⟩
    simp [Undivided, Agent.inCall, hloop] at h
  | _ => cases h

theorem settling_sound {ans : Ans} (h : s.inQuantum (.sched ans) = true) :
    ∀ e ∈ s.sch.settling, e.2.op ≠ .netError := by
  intro e he hop
  cases hpc : s.sch with
  | settle task now op =>
    rw [hpc] at he
    obtain rfl := List.mem_singleton.mp he
    obtain rfl : op = .netError := hop
    simp [Agent.inQuantum, hpc] at h
  | _ =>
    rw [hpc] at he
    cases he

theorem Calm.of_reach (hpc : s₀.sch = .take) (h : (quantum S s₀).Reach Sound p) :
    Calm s₀ p.1 p.2 := by
  refine h.invariant (I := fun p ↦ Calm s₀ p.1 p.2) ?_ ?_
  · exact ⟨⟨rfl, rfl, rfl, rfl, rfl⟩, List.forall_mem_nil _, rfl, rfl⟩
  rintro p a ⟨s', q'⟩ hr hI ⟨hund, hok⟩ hs
  obtain ⟨⟨ans, rfl⟩, _⟩ := undivided_sched hund
  have hq := QuantumInv.of_reach hpc (hr.mono fun _ _ _ h ↦ h.2)
  obtain ⟨hstep, hnote⟩ := Library.Machine.watch_step hs
  dsimp only at hstep hnote ⊢
  subst hnote
  have hplaced := hq.placed
  have hm : Move S p.1 (.sched ans) s' := Agent.step_move hstep
  cases hm with
  | sched _ hm =>
    rw [noteQuantum_sched]
    refine ⟨hI.spared.trans (hm.spared hq.performing ?_ ?_), ?_, hI.early, hI.late⟩
    · intro hpc
      rw [hpc] at hplaced
      exact hplaced
    · intro hpc
      rw [hpc] at hplaced
      exact hplaced
    · rw [Agent.settles_sched]
      intro e he
      rcases List.mem_append.mp he with he | he
      · exact hI.sound e he
      · exact settling_sound hok e he

end Before

section After

variable {S : Setup} {s₀ s s' : Agent} {q : Quantum} {v w w' : World} {p p' : Agent × Quantum}

def Dropped (S : Setup) (v : World) : SchPc → World → Prop
  | .flush, w => w = v
  | .alert, w => w = v.flushTriggers
  | .down, w => w = v.flushTriggers.tellDisconnected S
  | .loop, w => w = (v.flushTriggers.tellDisconnected S).netNotConnected
  | _, _ => False

theorem Dropped.step {ans : Ans} {pc : SchPc} (h : Dropped S v s.sch s.w)
    (hm : SchMove S s.sch s.w pc w) (hloop : s.sch ≠ .loop) :
    Dropped S v pc w ∧ noteQuantum s (.sched ans) s' q = q := by
  rcases s with ⟨w₀, net, pc₀, rel⟩
  simp only at h hm hloop
  rw [noteQuantum_sched]
  cases hm with
  | flush | alert | down =>
    obtain rfl : w₀ = _ := h
    refine ⟨rfl, ?_⟩
    simp only [Agent.takes, Agent.settles, Agent.findsNone, List.append_nil, Bool.or_false]
  | loopDrain | loopTake => exact absurd rfl hloop
  | _ => exact h.elim

section Spared

variable {w₀ : World} (h : Spared w₀ w)
include h

end Spared

variable {task : Emtask} {now : Timespec}

end After

section Returns

variable {S : Setup} {s₀ : Agent} {p : Agent × Quantum}

end Returns

end EmpowerAgent
