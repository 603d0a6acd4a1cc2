import EmpowerAgent.Conduct

namespace EmpowerAgent

/-- A step that receives nothing and raises no connection. -/
structure Quiet (w w' : World) : Prop where
  conns : w'.conns = w.conns
  status : w'.net.status = .connected → w.net.status = .connected
  hist : Extends Event.Local w w'

namespace Quiet

variable {w w' w'' : World}

theorem silent (hc : w'.conns = w.conns) (hs : w'.net.status = w.net.status)
    (hh : w'.hist = w.hist) : Quiet w w' := ⟨hc, fun h ↦ hs ▸ h, .silent hh⟩

theorem event {e : Event} (hc : w'.conns = w.conns) (hs : w'.net.status = w.net.status)
    (hh : w'.hist = w.hist ++ [e]) (he : e.Local) : Quiet w w' :=
  ⟨hc, fun h ↦ hs ▸ h, .event hh he⟩

theorem refl (w : World) : Quiet w w := silent rfl rfl rfl

theorem trans (h : Quiet w w') (h' : Quiet w' w'') : Quiet w w'' :=
  ⟨h'.conns.trans h.conns, h.status ∘ h'.status, h.hist.trans h'.hist⟩

theorem netNotConnected (w : World) : Quiet w w.netNotConnected :=
  ⟨rfl, nofun, .netNotConnected w (fun _ ↦ trivial) fun _ ↦ trivial⟩

theorem of_effect {o : Op} {r : o.Res} (h : Effect o w r w') : Quiet w w' :=
  ⟨h.conns, fun hs ↦ h.status ▸ hs, h.extends⟩

theorem of_schMove {S : Setup} {pc pc' : SchPc} (h : SchMove S pc w pc' w') : Quiet w w' := by
  have hx := h.extends
  cases h with
  | op he => exact of_effect he
  | alert => split_ifs at hx ⊢ <;> exact ⟨rfl, id, hx⟩
  | down => exact ⟨rfl, nofun, hx⟩
  | _ => exact ⟨rfl, id, hx⟩

theorem of_api {call : ApiCall} {answers : List Ans} {x : ℤ}
    (h : call.body.run exec answers w = some (x, w')) : Quiet w w' := by
  obtain ⟨_, hq⟩ := ApiCall.keeps (I := fun _ ↦ Quiet w) h (refl w)
    fun _ _ _ _ _ _ he hq ↦ hq.trans (of_effect he)
  exact hq

theorem of_relMove {s s' : Agent} (h : RelMove s s') : Quiet s.w s'.w := by
  cases h <;> exact silent rfl rfl rfl

end Quiet

/-- The places of the network thread from its decision to connect until the
connection is stored as up, or given up. -/
def NetPc.Connecting : NetPc → Prop
  | .socket | .resolve | .again | .connect | .hello | .store | .undo => True
  | _ => False

section Status

variable {S : Setup} {s : Agent} {w w' : World}

theorem Quiet.notConnected (h : Quiet w w') (hs : w.net.status = .notConnected) :
    w'.net.status = .notConnected := by
  cases hs' : w'.net.status with
  | notConnected => rfl
  | connected => cases hs.symm.trans (h.status hs')

theorem NetMove.connecting {E : Emproto} {t t' : NetThread} (hm : NetMove E t w t' w')
    (h : t.pc.Connecting → w.net.status = .notConnected) (hc : t'.pc.Connecting) :
    w'.net.status = .notConnected := by
  cases hm with
  | nextSocket hs => exact hs
  | socketKeep | socketOpen | connectOk | helloFail | helloRefused | helloAdd => exact h trivial
  | resolve | again _ | connectFail _ => exact h trivial
  | _ => cases hc

theorem connecting_status (h : (agent S).Reachable s) (hc : s.net.pc.Connecting) :
    s.w.net.status = .notConnected := by
  revert hc
  refine h.invariant (I := fun s ↦ s.net.pc.Connecting → s.w.net.status = .notConnected) ?_ ?_
  · exact fun _ ↦ rfl
  · intro s a s' _ hI _ hs hc
    cases Agent.step_move hs with
    | net hm => exact hm.connecting hI hc
    | sched _ hm => exact (Quiet.of_schMove hm).notConnected (hI hc)
    | api hr => exact (Quiet.of_api hr).notConnected (hI hc)
    | release hm =>
      have hnet : s'.net = s.net := by cases hm <;> rfl
      exact (Quiet.of_relMove hm).notConnected (hI (hnet ▸ hc))

end Status

namespace Agent

variable (s : Agent)

def disconnects : Act → Bool
  | .net _ => match s.net.pc with | .down | .undo => true | _ => false
  | .sched _ => match s.sch with | .down => true | _ => false
  | _ => false

def netDrops : Act → Bool
  | .net _ => match s.net.pc with | .down => true | _ => false
  | _ => false

def addsTrigger : Act → Bool
  | .net _ => match s.net.pc with | .process (.call (.trigAdd _) _) => true | _ => false
  | _ => false

end Agent

def Act.sendFails : Act → Bool
  | .sched (.sent n) => n < 0
  | _ => false

end EmpowerAgent
