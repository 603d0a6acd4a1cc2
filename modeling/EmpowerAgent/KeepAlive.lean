import EmpowerAgent.Attendance
import EmpowerAgent.Status

namespace EmpowerAgent

section Forever

variable {S : Setup} {s s' : Agent} {w w' : World} {t : Emtask}

/-- The scheduler is about to close the connection, or has returned. -/
def SchPc.Closing : SchPc → Prop
  | .flush | .alert | .down | .exit => True
  | _ => False

theorem SchMove.forever {pc pc' : SchPc} (hm : SchMove S pc w pc' w') (hperf : Performing pc)
    (htells : Telling pc) (ht : t ∈ w.pending pc) (hresch : t.resch < 0) :
    t ∈ w'.pending pc' ∨ ((∃ now, pc = .settle t now .reschedule) ∧
      ∃ t' ∈ w'.pending pc', t.Same t' ∧ t'.elapse = t.elapse ∧ t'.resch < 0) ∨
      pc' = .flush ∨ pc' = .exit := by
  simp only [World.mem_pending] at ht ⊢
  cases hm with
  | netError => exact .inr (.inr (.inl rfl))
  | drain => exact .inr (.inr (.inr rfl))
  | takeTask hjobs =>
    simp only [SchPc.held, hjobs, List.mem_cons, List.not_mem_nil] at ht ⊢
    tauto
  | op he =>
    obtain ⟨failed, hobeys⟩ := hperf
    have hi := he.idle hobeys.1
    rw [hi.jobs, hi.todo]
    exact .inl ht
  | later =>
    simp only [SchPc.held, List.mem_cons, List.not_mem_nil] at ht ⊢
    tauto
  | again =>
    simp only [SchPc.held, List.mem_cons, List.not_mem_nil, or_false] at ht ⊢
    rcases ht with rfl | ht | ht
    · refine .inr (.inl ⟨⟨_, rfl⟩, _, .inr (.inl (.inl rfl)), ⟨rfl, rfl, rfl, rfl, rfl, ?_⟩, rfl,
        ?_⟩)
      · intro hzero
        omega
      · dsimp only
        split_ifs <;> omega
    · exact .inl (.inr (.inl (.inr ht)))
    · exact .inl (.inr (.inr ht))
  | consumed =>
    simp only [SchPc.held, List.mem_cons, List.not_mem_nil, or_false] at ht ⊢
    rcases ht with rfl | ht
    · have hlast := htells.last rfl
      omega
    · exact .inl (.inr ht)
  | back =>
    simp only [SchPc.held, List.mem_append, List.mem_reverse, List.not_mem_nil] at ht ⊢
    tauto
  | alert => split_ifs <;> exact .inl ht
  | _ => exact .inl ht

theorem Move.pending_subset {a : Act} (hm : Move S s a s') (ha : ∀ ans, a ≠ .sched ans) :
    s.pending ⊆ s'.pending := by
  intro t ht
  obtain ⟨hjobs, htodo⟩ := hm.appends ha
  simp only [Agent.pending, World.mem_pending, hjobs, htodo, (hm.unscheduled ha).1,
    List.mem_append] at ht ⊢
  tauto

theorem forever_step {a : Act} (hr : (agent S).Reachable s) (hs : (agent S).step s a = some s')
    (ht : t ∈ s.pending) (hresch : t.resch < 0) :
    t ∈ s'.pending ∨ ((∃ now, s.sch = .settle t now .reschedule) ∧
      ∃ t' ∈ s'.pending, t.Same t' ∧ t'.elapse = t.elapse ∧ t'.resch < 0) ∨
      s'.sch = .flush ∨ s'.sch = .exit := by
  rcases Agent.sched_or hs with ⟨ans, pc, w, rfl, hstep, rfl⟩ | ha
  · exact (schedStep_move hstep).forever (conduct hr).1 (.of_reachable hr) ht hresch
  · exact .inl ((Agent.step_move hs).pending_subset ha ht)

end Forever

section Greeting

variable {S : Setup} {s s' : Agent} {w w' : World}

def Agent.Greets (s : Agent) : Prop :=
  ∃ t ∈ s.pending, t.type = .hello ∧ t.elapse = 2000 ∧ t.resch < 0

theorem Agent.Greets.step {a : Act} (h : s.Greets) (hr : (agent S).Reachable s)
    (hs : (agent S).step s a = some s') : s'.Greets ∨ s'.sch.Closing := by
  obtain ⟨t, ht, htype, helapse, hresch⟩ := h
  rcases forever_step hr hs ht hresch with h | ⟨_, t', h, hsame, helapse', hresch'⟩ | h | h
  · exact .inl ⟨t, h, htype, helapse, hresch⟩
  · exact .inl ⟨t', h, hsame.type.trans htype, helapse'.trans helapse, hresch'⟩
  · exact .inr (by rw [h]; trivial)
  · exact .inr (by rw [h]; trivial)

def Agent.Rises (s : Agent) : Prop :=
  (s.w.net.status = .connected ∨ s.net.pc = .store) ∧ 0 < s.w.net.sockfd

theorem rises_before {t t' : NetThread} {sch : SchPc} {rel : RelPc}
    (hm : NetMove S.proto t w t' w')
    (hconn : t.pc.Connecting → w.net.status = .notConnected)
    (h : Agent.Rises ⟨w', t', sch, rel⟩) :
    Agent.Rises ⟨w, t, sch, rel⟩ ∨ Agent.Greets ⟨w', t', sch, rel⟩ := by
  obtain ⟨hup, hfd⟩ := h
  simp only [Agent.Rises] at hup hfd ⊢
  cases hm with
  | helloAdd now =>
    refine .inr ⟨helloTask w.heap now, World.mem_pending.mpr (.inr (.inr ?_)), rfl, rfl, ?_⟩
    · exact List.mem_append_right _ (List.mem_singleton_self _)
    · simp [helloTask, Emtask.init]
  | store => exact .inl ⟨.inr rfl, hfd⟩
  | handler he =>
    rw [he.status] at hup
    rw [he.sockfd] at hfd
    exact .inl ⟨.inl (hup.resolve_right (by simp)), hfd⟩
  | socketFail | socketOpen =>
    have hs := hconn trivial
    simp [hs] at hup
  | undo | down => simp [World.netNotConnected] at hup
  | again hpc | connectFail hpc =>
    refine .inl ⟨.inl (hup.resolve_right ?_), hfd⟩
    rcases hpc with rfl | rfl <;> simp
  | _ => exact .inl ⟨.inl (hup.resolve_right (by simp)), hfd⟩

/-- A connection with a descriptor has a Hello that keeps it alive, or is being
closed. -/
theorem greets_of_reachable (h : (agent S).Reachable s) (hup : s.Rises) :
    s.Greets ∨ s.sch.Closing := by
  revert hup
  refine h.invariant (I := fun s ↦ s.Rises → s.Greets ∨ s.sch.Closing) ?_ ?_
  · rintro ⟨hup | hpc, _⟩
    · cases hup
    · cases hpc
  intro s a s' hr hI _ hs hup
  have hm := Agent.step_move hs
  rcases Agent.sched_or hs with ⟨ans, pc, w, rfl, hstep, rfl⟩ | ha
  · have hsch := schedStep_move hstep
    by_cases hdown : s.sch = .down
    · rcases s with ⟨w₀, net, pc₀, rel⟩
      obtain rfl : pc₀ = .down := hdown
      obtain ⟨_, hfd⟩ := hup
      cases hsch
      simp only [World.netNotConnected] at hfd
      split_ifs at hfd <;> omega
    · obtain ⟨hsame, hstatus, _⟩ := hsch.sockets hdown
      have hrises : s.Rises := ⟨hup.1.imp_left hstatus.symm.trans, hsame ▸ hup.2⟩
      rcases hI hrises with hgreets | hclosing
      · exact Agent.Greets.step hgreets hr hs
      · rcases s with ⟨w₀, net, pc₀, rel⟩
        simp only at hsch hclosing hdown ⊢
        cases hsch with
        | flush | alert => exact .inr trivial
        | down => exact absurd rfl hdown
        | _ => cases hclosing
  · have hsch := (hm.unscheduled ha).1
    have hkeep (hgreets : s.Greets) : s'.Greets := by
      obtain ⟨t, ht, hhello⟩ := hgreets
      exact ⟨t, hm.pending_subset ha ht, hhello⟩
    have hbefore : s.Rises ∨ s'.Greets := by
      cases hm with
      | net hm => exact rises_before hm (connecting_status hr) hup
      | sched => exact absurd rfl (ha _)
      | api hrun => cases apiCall_move hrun <;> exact .inl hup
      | release hm => cases hm <;> exact .inl hup
    rcases hbefore with hrises | hgreets
    · rw [hsch]
      exact (hI hrises).imp_left hkeep
    · exact .inl hgreets

theorem connection_greeted (h : (agent S).Reachable s) (hup : s.w.net.status = .connected)
    (hfd : 0 < s.w.net.sockfd) : s.Greets ∨ s.sch.Closing := greets_of_reachable h ⟨.inl hup, hfd⟩

def connectedAgent : Agent :=
  ((agent Sample.setup).runIf (fun _ _ ↦ True) Agent.start (Sample.connect 3)).get (by decide)

theorem connection_greeted_three : connectedAgent.w.net.status = .connected ∧
    connectedAgent.w.net.sockfd = 3 ∧ (connectedAgent.Greets ∨ connectedAgent.sch.Closing) := by
  have hr : (agent Sample.setup).Reachable connectedAgent := (agent Sample.setup).reach_get _ _ _
  exact ⟨rfl, rfl, connection_greeted hr rfl (by decide)⟩

end Greeting

end EmpowerAgent
