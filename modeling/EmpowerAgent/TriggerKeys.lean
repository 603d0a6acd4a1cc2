import EmpowerAgent.TriggerRuns

namespace EmpowerAgent

open Library.Keyed (eraseKey not_mem_eraseKey find_of_nodup)

namespace Agent

def adding (s : Agent) : Act → Option Emtri
  | .net _ => match s.net.pc with | .process (.call (.trigAdd trig) _) => some trig | _ => none
  | _ => none

end Agent

/-- A trigger is added only under a key that no live trigger has. -/
def KeyFree (s : Agent) (a : Act) : Prop :=
  ∀ trig ∈ s.adding a, ∀ t ∈ s.w.trig.ts, t.key ≠ trig.key

instance (s : Agent) (a : Act) : Decidable (KeyFree s a) := Option.decidableForallMem (s.adding a)

section Runs

variable {S : Setup} {s : Agent}

theorem adding_of_adds {a : Act} {trig : Emtri} {k : Int32 → Proc ℤ}
    (hadds : s.addsTrigger a = true) (hpc : s.net.pc = .process (.call (.trigAdd trig) k)) :
    s.adding a = some trig := by
  cases a with
  | net ans => simp only [Agent.adding, hpc]
  | _ => cases hadds

theorem keys_nodup (h : (agent S).Reach KeyFree s) : (s.w.trig.ts.map Emtri.key).Nodup := by
  refine h.invariant (I := fun s ↦ (s.w.trig.ts.map Emtri.key).Nodup) List.nodup_nil ?_
  intro s a s' hr hI hfree hs
  have hm := Agent.step_move hs
  rcases hm.triggers (conduct hr.reachable).1 with hshrink | ⟨trig, k, hadds, hpc, _, hw, _⟩
  · exact hI.sublist (hshrink.ts.map Emtri.key)
  · rw [hw]
    refine List.nodup_cons.mpr ⟨fun hmem ↦ ?_, hI⟩
    obtain ⟨t, ht, hkey⟩ := List.mem_map.mp hmem
    exact hfree trig (adding_of_adds hadds hpc) t ht hkey

/-- Where triggers are added under free keys only, a key means one live
trigger: it is found by its key, and one removal leaves none with it. -/
theorem keys_unique (h : (agent S).Reach KeyFree s) :
    (s.w.trig.ts.map Emtri.key).Nodup ∧
      (∀ t ∈ s.w.trig.ts, s.w.trig.trigFindByInst t.mod.toInt32 t.type t.inst = some t) ∧
      ∀ mod type inst, ∀ t ∈ (s.w.trig.trigDelByInst mod.toInt32 type inst).2.ts,
        t.key ≠ (mod, type, inst) := by
  have hnodup := keys_nodup h
  refine ⟨hnodup, fun t ht ↦ ?_, fun mod type inst t ht hkey ↦ ?_⟩
  · rw [Trctx.trigFindByInst_eq]
    exact find_of_nodup hnodup ht
  · rw [Trctx.trigDelByInst_ts] at ht
    exact not_mem_eraseKey hnodup _ (hkey ▸ List.mem_map_of_mem ht)

def twoKindsRun : List Act :=
  Sample.connect 3 ++ Sample.requestReport ++
    Sample.receive [0, 6, 2, 2, 1, 7] :: Sample.requestReport.tail

theorem keys_unique_kinds : ∃ s, (agent Sample.setup).Reach KeyFree s ∧
    s.w.trig.ts.length = 2 ∧ (s.w.trig.ts.map Emtri.key).Nodup ∧
      ∀ t ∈ s.w.trig.ts, s.w.trig.trigFindByInst t.mod.toInt32 t.type t.inst = some t := by
  have hr := (agent Sample.setup).reach_get KeyFree twoKindsRun (by decide +kernel)
  obtain ⟨hnodup, hfind, _⟩ := keys_unique hr
  exact ⟨_, hr, by decide +kernel, hnodup, hfind⟩

def twiceRun : List Act := Sample.connect 3 ++ Sample.requestReport ++ Sample.requestReport

theorem keys_not_unique : ¬ ∀ s, (agent Sample.setup).Reachable s →
    ∀ mod type inst, ∀ t ∈ (s.w.trig.trigDelByInst mod.toInt32 type inst).2.ts,
      t.key ≠ (mod, type, inst) := by
  intro h
  have hr := (agent Sample.setup).reach_get (fun _ _ ↦ True) twiceRun (by decide +kernel)
  have hone := h _ hr 7 0 0
  revert hone
  decide +kernel

end Runs

end EmpowerAgent
