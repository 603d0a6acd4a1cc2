import EmpowerAgent.System

namespace EmpowerAgent

open Library.Proc (Exec Protocol Obeys Ensures ensures_call ensures_pure expand_bind)

/-- The fields of a network context, in their order. -/
inductive NetField
  | addr
  | port
  | sockfd
  | stop
  | status
  | seq
  | buf
  | thread
  | lock
  | interval
  deriving DecidableEq, Repr

/-- How a compiler lays a network context out, and represents what is stored
there: fields have bytes of their own, in a block of `extent` bytes. -/
structure NetLayout where
  offset : NetField → ℕ
  size : NetField → ℕ
  extent : ℕ
  short : UInt16 → Bytes
  int : ℤ → Bytes
  thread : ℕ → Bytes
  spinlock : Bytes
  addr_size : size .addr = 16
  apart : ∀ f g, f ≠ g → offset f + size f ≤ offset g ∨ offset g + size g ≤ offset f
  within : ∀ f, offset f + size f ≤ extent
  short_length : ∀ n, (short n).length = size .port
  int_length : ∀ n, ∀ f ∈ [NetField.sockfd, .stop, .status, .seq, .interval],
    (int n).length = size f
  int_zero : ∀ b ∈ int 0, b = 0
  thread_length : ∀ p, (thread p).length = size .thread
  spinlock_length : spinlock.length = size .lock

/-- A string of C: the bytes before its first null byte. -/
structure CString where
  bytes : Bytes
  noNull : 0 ∉ bytes

/-- The operations of `em_start`: those of the other programs, and what these
leave out, the life of the spinlocks and the memory of the new agent. -/
inductive StartOp
  | prog (o : Library.Locks.Op Lock ThreadId Access)
  | spinInit (l : Lock)
  | spinDestroy (l : Lock)
  | memset
  | store (f : NetField) (bs : Bytes)
  | free (p : ℕ)

namespace StartOp

@[reducible] def Res : StartOp → Type
  | .prog o => Library.Locks.Op.Res Access.Res o
  | _ => Unit

/-- The operation, as far as the other programs have it. -/
def erase : (o : StartOp) → Prog o.Res
  | .prog o => Library.Proc.perform o
  | .spinInit _ | .spinDestroy _ | .memset | .store _ _ | .free _ => return ()

end StartOp

abbrev Start := Library.Proc StartOp StartOp.Res

namespace Start

variable {α : Type}

def lift (p : Prog α) : Start α := p.expand fun o ↦ Library.Proc.perform (StartOp.prog o)

def spinInit (l : Lock) : Start Unit := Library.Proc.perform (StartOp.spinInit l)

def spinDestroy (l : Lock) : Start Unit := Library.Proc.perform (StartOp.spinDestroy l)

def memset : Start Unit := Library.Proc.perform StartOp.memset

def store (f : NetField) (bs : Bytes) : Start Unit := Library.Proc.perform (StartOp.store f bs)

def free (p : ℕ) : Start Unit := Library.Proc.perform (StartOp.free p)

/-- Time that the network thread waits in each loop, in milliseconds. -/
def netWaitTime : ℤ := 100

variable (L : NetLayout) (p : ℕ)

def schedStart : Start ℤ := do
  spinInit (.sched p)
  lift (Prog.schedStart p)

def netStart : Start ℤ := do
  store .interval (L.int netWaitTime)
  store .sockfd (L.int (-1))
  spinInit (.net p)
  store .lock L.spinlock
  if ← lift (Prog.mem .pthreadCreate) then do
    store .thread (L.thread p)
    lift (Prog.create (.net p))
    return 0
  else do
    lift Prog.logMessage
    return -1

def schedStop : Start Unit := do
  lift (Prog.schedStop p)
  spinDestroy (.sched p)

def netStop : Start Unit := do
  store .stop (L.int 1)
  lift (Prog.netStop p)
  spinDestroy (.net p)

def coreReleaseAgent : Start Unit := do
  schedStop p
  netStop L p
  lift (Prog.trigFlush p)
  free p

/-- The part of `em_start` that follows the allocation of the agent. -/
def startAgent (enbId : UInt64) (ctrlAddr : CString) (ctrlPort : UInt16) : Start ℤ := do
  memset
  -- as many bytes as the string has, without its null byte
  store .addr ctrlAddr.bytes
  store .port (L.short ctrlPort)
  spinInit (.trig p)
  if (← schedStart p) ≠ 0 then do
    lift Prog.logMessage
    coreReleaseAgent L p
    return -1
  else if (← netStart L p) ≠ 0 then do
    lift Prog.logMessage
    coreReleaseAgent L p
    return -1
  else do
    lift Prog.wrapper
    let s ← lift (Prog.mem .init)
    if s < 0 then do
      coreReleaseAgent L p
      return s
    else do
      lift (Prog.locked .coreAgents (.listAdd ⟨p, enbId⟩))
      return 0

def emStart (enbId : UInt64) (ctrlAddr : CString) (ctrlPort : UInt16) : Start ℤ := do
  lift (Prog.locked .coreMain .coreInitialize)
  lift (Prog.lock .coreAgents)
  if (← lift (Prog.mem .agents)).any (·.enbId = enbId) then do
    lift (Prog.unlock .coreAgents)
    lift Prog.logMessage
    return -1
  else do
    lift (Prog.unlock .coreAgents)
    match ← lift (Prog.mem .malloc) with
    | none => return -1
    | some p => startAgent L p enbId ctrlAddr ctrlPort

section Erasure

variable {L p} {enbId : UInt64} {ctrlAddr : CString} {ctrlPort : UInt16}

theorem lift_erase (q : Prog α) : (lift q).expand StartOp.erase = q := by
  rw [lift, Library.Proc.expand_expand]
  exact Library.Proc.expand_self q

theorem lift_bind_erase {β : Type} (q : Prog α) (k : α → Start β) :
    (lift q >>= k).expand StartOp.erase = q >>= fun a ↦ (k a).expand StartOp.erase := by
  rw [expand_bind, lift_erase]

theorem schedStart_erase : (schedStart p).expand StartOp.erase = Prog.schedStart p :=
  lift_erase _

theorem netStart_erase : (netStart L p).expand StartOp.erase = Prog.netStart p := by
  refine (lift_bind_erase _ _).trans (congrArg _ (funext fun created ↦ ?_))
  cases created
  · exact lift_bind_erase _ _
  · exact lift_bind_erase _ _

theorem schedStop_erase : (schedStop p).expand StartOp.erase = Prog.schedStop p := by
  rw [schedStop, expand_bind, lift_erase]
  exact Library.Proc.bind_pure _

theorem netStop_erase : (netStop L p).expand StartOp.erase = Prog.netStop p := by
  refine (lift_bind_erase _ _).trans ?_
  exact Library.Proc.bind_pure _

theorem coreReleaseAgent_erase :
    (coreReleaseAgent L p).expand StartOp.erase = Prog.coreReleaseAgent p := by
  rw [coreReleaseAgent, expand_bind, schedStop_erase]
  refine congrArg (Prog.schedStop p >>= ·) (funext fun _ ↦ ?_)
  rw [expand_bind, netStop_erase]
  refine congrArg (Prog.netStop p >>= ·) (funext fun _ ↦ ?_)
  rw [lift_bind_erase]
  exact Library.Proc.bind_pure _

theorem startAgent_erase :
    (startAgent L p enbId ctrlAddr ctrlPort).expand StartOp.erase = Prog.startAgent p enbId := by
  have hfail (x : ℤ) : (do coreReleaseAgent L p; return x : Start ℤ).expand StartOp.erase = (do
      Prog.coreReleaseAgent p
      return x) := by
    rw [expand_bind, coreReleaseAgent_erase]
    rfl
  have hlog : (do lift Prog.logMessage; coreReleaseAgent L p; return -1 : Start ℤ).expand
      StartOp.erase = (do
        Prog.logMessage
        Prog.coreReleaseAgent p
        return -1) := by
    rw [lift_bind_erase]
    exact congrArg _ (funext fun _ ↦ hfail (-1))
  refine (expand_bind (schedStart p) _).trans ?_
  rw [schedStart_erase, Prog.startAgent]
  refine congrArg _ (funext fun x ↦ ?_)
  split_ifs
  · exact hlog
  · rw [expand_bind, netStart_erase]
    refine congrArg _ (funext fun x ↦ ?_)
    split_ifs
    · exact hlog
    · rw [lift_bind_erase]
      refine congrArg _ (funext fun _ ↦ ?_)
      rw [lift_bind_erase]
      refine congrArg _ (funext fun s ↦ ?_)
      split_ifs
      · exact hfail s
      · exact lift_bind_erase _ _

/-- Without what it adds, `em_start` is the program that the other calls run beside. -/
theorem emStart_erase :
    (emStart L enbId ctrlAddr ctrlPort).expand StartOp.erase = Prog.emStart enbId := by
  rw [emStart, lift_bind_erase, Prog.emStart]
  refine congrArg _ (funext fun _ ↦ ?_)
  rw [lift_bind_erase]
  refine congrArg _ (funext fun _ ↦ ?_)
  rw [lift_bind_erase]
  refine congrArg _ (funext fun agents ↦ ?_)
  split_ifs
  · rw [lift_bind_erase]
    exact congrArg _ (funext fun _ ↦ lift_bind_erase _ _)
  · rw [lift_bind_erase]
    refine congrArg _ (funext fun _ ↦ ?_)
    rw [lift_bind_erase]
    refine congrArg _ (funext fun addr ↦ ?_)
    cases addr with
    | none => rfl
    | some p => exact startAgent_erase

end Erasure

end Start

/-- What has been done with threads, locks and agents, in its order. -/
structure Ledger where
  allocated : List ℕ
  created : List ThreadId
  joined : List ThreadId
  initialised : List Lock
  destroyed : List Lock
  flushed : List ℕ
  freed : List ℕ
  deriving DecidableEq, Repr

def Ledger.empty : Ledger := ⟨[], [], [], [], [], [], []⟩

def Ledger.note (l : Ledger) : (o : StartOp) → o.Res → Ledger
  | .prog (.mem .malloc), some p => { l with allocated := l.allocated ++ [p] }
  | .prog (.create t), _ => { l with created := l.created ++ [t] }
  | .prog (.join t), _ => { l with joined := l.joined ++ [t] }
  | .prog (.mem (.trigFlush p)), _ => { l with flushed := l.flushed ++ [p] }
  | .spinInit k, _ => { l with initialised := l.initialised ++ [k] }
  | .spinDestroy k, _ => { l with destroyed := l.destroyed ++ [k] }
  | .free p, _ => { l with freed := l.freed ++ [p] }
  | _, _ => l

/-- The bytes of the new agent from its network context on, and whether no
field has been given more bytes than it has. -/
structure Block where
  bytes : ℕ → UInt8
  inside : Bool

namespace Block

variable (L : NetLayout) (b : Block)

def clear : Block := { b with bytes := fun i ↦ if i < L.extent then 0 else b.bytes i }

def store (f : NetField) (bs : Bytes) : Block where
  bytes i := if L.offset f ≤ i ∧ i < L.offset f + bs.length then bs.getD (i - L.offset f) 0
    else b.bytes i
  inside := b.inside && bs.length ≤ L.size f

def field (f : NetField) : Bytes := (List.range (L.size f)).map fun i ↦ b.bytes (L.offset f + i)

/-- What `em_start` stores in the context itself. -/
def addressed (ctrlAddr : CString) (ctrlPort : UInt16) : Block :=
  ((b.clear L).store L .addr ctrlAddr.bytes).store L .port (L.short ctrlPort)

/-- What `net_start` stores before it creates its thread. -/
def netReady : Block :=
  ((b.store L .interval (L.int Start.netWaitTime)).store L .sockfd (L.int (-1))).store L .lock
    L.spinlock

end Block

structure Host where
  mem : Memory
  ledger : Ledger
  block : Block

variable (S : ℕ → Setup) (L : NetLayout)

/-- One thread alone runs `em_start`. -/
def execStart : Exec StartOp StartOp.Res SysAns Host
  | .prog o, a, h => (alone S o a h.mem).map fun r ↦
      (r.1, { h with mem := r.2, ledger := h.ledger.note (.prog o) r.1 })
  | .spinInit k, a, h => a.tick ((), { h with ledger := h.ledger.note (.spinInit k) () })
  | .spinDestroy k, a, h => a.tick ((), { h with ledger := h.ledger.note (.spinDestroy k) () })
  | .free p, a, h => a.tick ((), { h with ledger := h.ledger.note (.free p) () })
  | .memset, a, h => a.tick ((), { h with block := h.block.clear L })
  | .store f bs, a, h => a.tick ((), { h with block := h.block.store L f bs })

/-- Whatever is answered, the program ends in `Q`. -/
abbrev Leads {α : Type} (p : Start α) (h : Host) (Q : α → Host → Prop) : Prop :=
  Ensures (execStart S L) (fun _ ↦ True) p h Q

section Quiet

/-- Neither the list of agents nor anything in the ledger is touched. -/
def Access.quiet : Access → Bool
  | .listAdd _ | .listDel _ | .takeFirst | .malloc | .trigFlush _ => false
  | _ => true

def quietProtocol : Protocol (Library.Locks.Op Lock ThreadId Access)
    (Library.Locks.Op.Res Access.Res) Unit where
  allowed _ o := match o with
    | .create _ | .join _ => False
    | .mem i => i.quiet = true
    | _ => True
  next _ _ _ := ()

abbrev Prog.Calm {α : Type} (p : Prog α) : Prop :=
  Obeys quietProtocol (fun t _ ↦ t = ()) () p

namespace Prog

variable {α β : Type} {p : ℕ}

theorem Calm.bind {q : Prog α} {f : α → Prog β} (h : Calm q) (hf : ∀ x, Calm (f x)) :
    Calm (q >>= f) :=
  Library.Proc.Obeys.bind h fun _ x ht ↦ ht ▸ hf x

theorem calm_mem {i : Access} (hi : i.quiet = true) : Calm (mem i) := ⟨hi, fun _ ↦ rfl⟩

theorem calm_lock (l : Lock) : Calm (lock l) := ⟨trivial, fun _ ↦ rfl⟩

theorem calm_unlock (l : Lock) : Calm (unlock l) := ⟨trivial, fun _ ↦ rfl⟩

theorem calm_locked (l : Lock) {i : Access} (hi : i.quiet = true) : Calm (locked l i) :=
  (calm_lock l).bind fun _ ↦ (calm_mem hi).bind fun _ ↦ (calm_unlock l).bind fun _ ↦ rfl

theorem calm_logMessage : Calm logMessage := (calm_mem rfl).bind fun _ ↦ calm_mem rfl

theorem calm_section (o : Op) : Calm (section_ p o) := by
  have hdel (o : Op) (found : Emtri → Bool) (notFound : o.Res) :
      Calm (trigDel p o found notFound) := by
    refine (calm_lock _).bind fun _ ↦ (calm_mem rfl).bind fun ts ↦ ?_
    split_ifs
    · exact (calm_mem rfl).bind fun r ↦ (calm_unlock _).bind fun _ ↦ rfl
    · exact (calm_unlock _).bind fun _ ↦ rfl
  cases o with
  | schedAddTask task =>
    refine (calm_lock _).bind fun _ ↦ (calm_mem rfl).bind fun b ↦ ?_
    split_ifs
    · exact (calm_unlock _).bind fun _ ↦ rfl
    · exact (calm_mem rfl).bind fun _ ↦ (calm_unlock _).bind fun _ ↦ rfl
  | trigFindById id =>
    refine (calm_lock _).bind fun _ ↦ (calm_mem rfl).bind fun ts ↦ ?_
    split <;> exact (calm_unlock _).bind fun _ ↦ rfl
  | trigAdd | netNextSeq => exact calm_locked _ rfl
  | trigDelById | trigDelByInst => exact hdel _ _ _
  | emlog => exact calm_logMessage
  | _ => exact calm_mem rfl

theorem calm_withAgent {body : ℕ → Prog ℤ} (hbody : ∀ p, Calm (body p)) (id : UInt64)
    (notFound : ℤ) : Calm (withAgent id notFound body) := by
  refine (calm_lock _).bind fun _ ↦ (calm_mem rfl).bind fun as ↦ ?_
  split
  · exact (calm_unlock _).bind fun _ ↦ rfl
  · exact (hbody _).bind fun _ ↦ (calm_unlock _).bind fun _ ↦ rfl

theorem calm_query (q : Query) : Calm (query q) := by
  cases q with
  | emSend id msg =>
    simp only [query]
    split_ifs
    · rfl
    · refine calm_withAgent (fun p ↦ ?_) id (-1)
      exact Library.Proc.Obeys.expand (fun o ↦ calm_section o) _
  | emHasTrigger id tid =>
    simp only [query]
    refine calm_withAgent (fun p ↦ ?_) id 0
    exact (calm_section (.trigFindById tid)).bind fun _ ↦ rfl
  | emDelTrigger id tid =>
    simp only [query]
    refine calm_withAgent (fun p ↦ ?_) id 0
    exact (calm_section (.trigDelById tid)).bind fun _ ↦ rfl
  | emIsConnected id =>
    simp only [query]
    refine calm_withAgent (fun p ↦ ?_) id 0
    exact calm_mem rfl

theorem calm_wrapper : Calm wrapper := by
  refine (calm_mem rfl).bind fun qs ↦ ?_
  induction qs with
  | nil => rfl
  | cons q qs ih => exact (calm_query q).bind fun _ ↦ ih

end Prog

end Quiet

section Steps

variable {S L} {h h₁ h' : Host} {α β : Type} {p : ℕ} {l : Ledger} {b : Block}

/-- The ledger and the block have come to be `l` and `b`, and the list of
agents is as it was. -/
structure Host.To (h : Host) (l : Ledger) (b : Block) (h' : Host) : Prop where
  agents : h'.mem.agents = h.mem.agents
  ledger : h'.ledger = l
  block : h'.block = b

theorem Host.To.calm {h₂ : Host} (h₁to : h.To l b h₁) (h₂to : h₁.To h₁.ledger h₁.block h₂) :
    h.To l b h₂ where
  agents := h₂to.agents.trans h₁to.agents
  ledger := h₂to.ledger.trans h₁to.ledger
  block := h₂to.block.trans h₁to.block

theorem access_agents {i : Access} (hi : i.quiet = true) {a : SysAns} {m m' : Memory} {r : i.Res}
    (h : access S i a m = some (r, m')) : m'.agents = m.agents := by
  cases i with
  | listAdd | listDel | takeFirst | trigFlush => cases hi
  | op | net | sched | pthreadCreate | agents | agentsEmpty | init | calls =>
    obtain ⟨_, _, heq⟩ := Option.map_eq_some_iff.mp h
    cases heq
    rfl
  | malloc => cases hi
  | coreInitialize =>
    obtain ⟨opens, _, heq⟩ := Option.map_eq_some_iff.mp h
    cases heq
    unfold Memory.coreInitialize
    split_ifs <;> rfl
  | fclose =>
    simp only [access] at h
    split_ifs at h
    cases SysAns.eq_of_tick h
    rfl
  | clearLog =>
    cases SysAns.eq_of_tick h
    split_ifs <;> rfl
  | _ =>
    cases SysAns.eq_of_tick h
    rfl

theorem leads_own {o : StartOp} {k : o.Res → Start β} {x : o.Res} {Q : β → Host → Prop}
    (ho : ∀ a, execStart S L o a h = a.tick (x, h₁)) (hk : Leads S L (k x) h₁ Q) :
    Leads S L (Library.Proc.perform o >>= k) h Q := by
  refine ensures_call fun a r h' _ he ↦ ?_
  rw [ho] at he
  cases SysAns.eq_of_tick he
  exact hk

theorem note_quiet {o : Library.Locks.Op Lock ThreadId Access} {r : (StartOp.prog o).Res}
    (ho : quietProtocol.allowed () o) (l : Ledger) : l.note (.prog o) r = l := by
  cases o with
  | create | join => cases ho
  | mem i =>
    cases i with
    | malloc | trigFlush => cases ho
    | _ => rfl
  | _ => rfl

theorem alone_agents {o : Library.Locks.Op Lock ThreadId Access} {a : SysAns} {m m' : Memory}
    {r : Library.Locks.Op.Res Access.Res o} (ho : quietProtocol.allowed () o)
    (he : alone S o a m = some (r, m')) : m'.agents = m.agents := by
  cases o with
  | create | join => cases ho
  | mem i => exact access_agents ho he
  | lock | unlock =>
    cases he
    rfl

theorem leads_calm {q : Prog α} (hc : q.Calm) :
    Leads S L (Start.lift q) h fun _ h' ↦ h.To h.ledger h.block h' := by
  induction q generalizing h with
  | pure x => exact ensures_pure ⟨rfl, rfl, rfl⟩
  | call o k ih =>
    refine ensures_call fun a r h₁ _ he ↦ ?_
    obtain ⟨⟨r, m⟩, halone, heq⟩ := Option.map_eq_some_iff.mp he
    cases heq
    refine (ih r (hc.2 r)).mono fun x h' hto ↦ ?_
    exact ⟨hto.agents.trans (alone_agents hc.1 halone), hto.ledger.trans (note_quiet hc.1 _),
      hto.block⟩

theorem leads_prog {o : Library.Locks.Op Lock ThreadId Access} {k : (StartOp.prog o).Res → Start β}
    {Q : β → Host → Prop} (hk : ∀ a r m, alone S o a h.mem = some (r, m) →
      Leads S L (k r) { h with mem := m, ledger := h.ledger.note (.prog o) r } Q) :
    Leads S L (Start.lift (Library.Proc.perform o) >>= k) h Q := by
  refine ensures_call fun a r h' _ he ↦ ?_
  obtain ⟨⟨r, m⟩, halone, heq⟩ := Option.map_eq_some_iff.mp he
  cases heq
  exact hk a r m halone

theorem schedStart_leads : Leads S L (Start.schedStart p) h fun x h' ↦
    x = 0 ∧ h.To { h.ledger with
        created := h.ledger.created ++ [.sched p]
        initialised := h.ledger.initialised ++ [.sched p] } h.block h' ∨
      x = -1 ∧ h.To { h.ledger with initialised := h.ledger.initialised ++ [.sched p] }
        h.block h' := by
  refine leads_own (fun _ ↦ rfl) ?_
  refine leads_prog fun a created m he ↦ ?_
  obtain ⟨created, _, heq⟩ := Option.map_eq_some_iff.mp he
  cases heq
  cases created with
  | true =>
    refine leads_prog fun a _ m he ↦ ensures_pure ?_
    cases he
    exact .inl ⟨rfl, rfl, rfl, rfl⟩
  | false =>
    refine (leads_calm Prog.calm_logMessage).bind fun _ h' hto ↦ ensures_pure ?_
    exact .inr ⟨rfl, hto.agents, hto.ledger, hto.block⟩

theorem netStart_leads : Leads S L (Start.netStart L p) h fun x h' ↦
    x = 0 ∧ h.To { h.ledger with
        created := h.ledger.created ++ [.net p]
        initialised := h.ledger.initialised ++ [.net p] }
        ((h.block.netReady L).store L .thread (L.thread p)) h' ∨
      x = -1 ∧ h.To { h.ledger with initialised := h.ledger.initialised ++ [.net p] }
        (h.block.netReady L) h' := by
  refine leads_own (fun _ ↦ rfl) ?_
  refine leads_own (fun _ ↦ rfl) ?_
  refine leads_own (fun _ ↦ rfl) ?_
  refine leads_own (fun _ ↦ rfl) ?_
  refine leads_prog fun a created m he ↦ ?_
  obtain ⟨created, _, heq⟩ := Option.map_eq_some_iff.mp he
  cases heq
  cases created with
  | true =>
    refine leads_own (fun _ ↦ rfl) ?_
    refine leads_prog fun a _ m he ↦ ensures_pure ?_
    cases he
    exact .inl ⟨rfl, rfl, rfl, rfl⟩
  | false =>
    refine (leads_calm Prog.calm_logMessage).bind fun _ h' hto ↦ ensures_pure ?_
    exact .inr ⟨rfl, hto.agents, hto.ledger, hto.block⟩

def Ledger.release (l : Ledger) (p : ℕ) : Ledger := { l with
  joined := l.joined ++ [.sched p, .net p]
  destroyed := l.destroyed ++ [.sched p, .net p]
  flushed := l.flushed ++ [p]
  freed := l.freed ++ [p] }

theorem coreReleaseAgent_leads : Leads S L (Start.coreReleaseAgent L p) h fun _ h' ↦
    h.To (h.ledger.release p) (h.block.store L .stop (L.int 1)) h' := by
  -- the scheduler, and its lock
  refine leads_prog fun _ _ m₁ hstop ↦ ?_
  cases SysAns.eq_of_tick hstop
  refine leads_prog fun _ _ m₂ hjoin ↦ ?_
  cases hjoin
  refine leads_own (fun _ ↦ rfl) ?_
  -- the network thread, and its lock
  refine leads_own (fun _ ↦ rfl) ?_
  refine leads_prog fun _ _ m₃ hstop ↦ ?_
  cases SysAns.eq_of_tick hstop
  refine leads_prog fun _ _ m₄ hjoin ↦ ?_
  cases hjoin
  refine leads_own (fun _ ↦ rfl) ?_
  -- the triggers, and the memory
  refine leads_prog fun _ _ m₅ hlock ↦ ?_
  cases hlock
  refine leads_prog fun _ _ m₆ hflush ↦ ?_
  cases SysAns.eq_of_tick hflush
  refine leads_prog fun _ _ m₇ hunlock ↦ ?_
  cases hunlock
  refine leads_own (fun _ ↦ rfl) (ensures_pure ?_)
  refine ⟨rfl, ?_, rfl⟩
  simp only [Ledger.note, Ledger.release, List.append_assoc, List.cons_append, List.nil_append]

end Steps

/-- The points at which `em_start` can fail once the agent is allocated. -/
inductive StartFailure
  | schedStart
  | netStart
  | init
  deriving DecidableEq, Repr

def Ledger.failed (p : ℕ) : StartFailure → Ledger
  | .schedStart => ⟨[p], [], [.sched p, .net p], [.trig p, .sched p], [.sched p, .net p], [p], [p]⟩
  | .netStart => ⟨[p], [.sched p], [.sched p, .net p], [.trig p, .sched p, .net p],
      [.sched p, .net p], [p], [p]⟩
  | .init => ⟨[p], [.sched p, .net p], [.sched p, .net p], [.trig p, .sched p, .net p],
      [.sched p, .net p], [p], [p]⟩

def Ledger.started (p : ℕ) : Ledger :=
  ⟨[p], [.sched p, .net p], [], [.trig p, .sched p, .net p], [], [], []⟩

/-- How `em_start` can end: it refuses, having allocated nothing, or it fails
and releases the agent, or the agent is on the list. -/
inductive StartEnd (L : NetLayout) (enbId : UInt64) (ctrlAddr : CString) (ctrlPort : UInt16)
    (agents : List AgentRef) (b : Block) : ℤ → Host → Prop
  | refused {h : Host} : h.mem.agents = agents → h.ledger = .empty → h.block = b →
      StartEnd L enbId ctrlAddr ctrlPort agents b (-1) h
  | failed {x : ℤ} {h : Host} (p : ℕ) (f : StartFailure) : x < 0 → h.mem.agents = agents →
      h.ledger = .failed p f → h.block.inside = (b.addressed L ctrlAddr ctrlPort).inside →
      StartEnd L enbId ctrlAddr ctrlPort agents b x h
  | started {h : Host} (p : ℕ) : h.mem.agents = ⟨p, enbId⟩ :: agents → h.ledger = .started p →
      h.block = ((b.addressed L ctrlAddr ctrlPort).netReady L).store L .thread (L.thread p) →
      StartEnd L enbId ctrlAddr ctrlPort agents b 0 h

section Ends

variable {S : ℕ → Setup} {L : NetLayout} {enbId : UInt64} {ctrlAddr : CString} {ctrlPort : UInt16}
variable {h : Host} {m : Memory} {b : Block} {p : ℕ}

theorem Block.store_inside {f : NetField} {bs : Bytes} (hlen : bs.length = L.size f) (b : Block) :
    (b.store L f bs).inside = b.inside := by
  simp [Block.store, hlen]

theorem Block.netReady_inside (b : Block) : (b.netReady L).inside = b.inside := by
  rw [netReady, store_inside L.spinlock_length, store_inside (L.int_length _ _ (by decide)),
    store_inside (L.int_length _ _ (by decide))]

theorem Block.stop_inside (b : Block) : (b.store L .stop (L.int 1)).inside = b.inside :=
  store_inside (L.int_length _ _ (by decide)) b

theorem startAgent_leads (hl : h.ledger = { Ledger.empty with allocated := [p] }) :
    Leads S L (Start.startAgent L p enbId ctrlAddr ctrlPort) h
      (StartEnd L enbId ctrlAddr ctrlPort h.mem.agents h.block) := by
  refine leads_own (fun _ ↦ rfl) ?_
  refine leads_own (fun _ ↦ rfl) ?_
  refine leads_own (fun _ ↦ rfl) ?_
  refine leads_own (fun _ ↦ rfl) ?_
  refine schedStart_leads.bind fun x h₁ hsched ↦ ?_
  rcases hsched with ⟨rfl, h₁to⟩ | ⟨rfl, h₁to⟩
  · refine netStart_leads.bind fun x h₂ hnet ↦ ?_
    rcases hnet with ⟨rfl, h₂to⟩ | ⟨rfl, h₂to⟩
    · refine (leads_calm Prog.calm_wrapper).bind fun _ h₃ h₃to ↦ ?_
      refine (leads_calm (Prog.calm_mem rfl)).bind fun s h₄ h₄to ↦ ?_
      have hagents : h₄.mem.agents = h.mem.agents := by
        rw [h₄to.agents, h₃to.agents, h₂to.agents, h₁to.agents]
      have hledger : h₄.ledger = .started p := by
        rw [h₄to.ledger, h₃to.ledger, h₂to.ledger, h₁to.ledger, hl]
        rfl
      have hblock : h₄.block = ((h.block.addressed L ctrlAddr ctrlPort).netReady L).store L .thread
          (L.thread p) := by
        rw [h₄to.block, h₃to.block, h₂to.block, h₁to.block]
        rfl
      split_ifs with hneg
      · refine coreReleaseAgent_leads.bind fun _ h₅ h₅to ↦ ensures_pure ?_
        refine .failed p .init hneg (h₅to.agents.trans hagents) ?_ ?_
        · rw [h₅to.ledger, hledger]
          rfl
        · rw [h₅to.block, hblock, Block.stop_inside, Block.store_inside (L.thread_length p),
            Block.netReady_inside]
      · refine leads_prog fun _ _ m₅ hlock ↦ ?_
        cases hlock
        refine leads_prog fun _ _ m₆ hadd ↦ ?_
        cases SysAns.eq_of_tick hadd
        refine leads_prog fun _ _ m₇ hunlock ↦ ensures_pure ?_
        cases hunlock
        exact .started p (congrArg _ hagents) hledger hblock
    · refine (leads_calm Prog.calm_logMessage).bind fun _ h₃ h₃to ↦ ?_
      refine coreReleaseAgent_leads.bind fun _ h₄ h₄to ↦ ensures_pure ?_
      refine .failed p .netStart (by decide) ?_ ?_ ?_
      · rw [h₄to.agents, h₃to.agents, h₂to.agents, h₁to.agents]
      · rw [h₄to.ledger, h₃to.ledger, h₂to.ledger, h₁to.ledger, hl]
        rfl
      · rw [h₄to.block, h₃to.block, h₂to.block, h₁to.block, Block.stop_inside,
          Block.netReady_inside]
        rfl
  · refine (leads_calm Prog.calm_logMessage).bind fun _ h₃ h₃to ↦ ?_
    refine coreReleaseAgent_leads.bind fun _ h₄ h₄to ↦ ensures_pure ?_
    refine .failed p .schedStart (by decide) ?_ ?_ ?_
    · rw [h₄to.agents, h₃to.agents, h₁to.agents]
    · rw [h₄to.ledger, h₃to.ledger, h₁to.ledger, hl]
      rfl
    · rw [h₄to.block, h₃to.block, h₁to.block, Block.stop_inside]
      rfl

theorem emStart_leads (hl : h.ledger = .empty) :
    Leads S L (Start.emStart L enbId ctrlAddr ctrlPort) h
      (StartEnd L enbId ctrlAddr ctrlPort h.mem.agents h.block) := by
  refine (leads_calm (Prog.calm_locked _ rfl)).bind fun _ h₁ h₁to ↦ ?_
  refine (leads_calm (Prog.calm_lock _)).bind fun _ h₂ h₂to ↦ ?_
  refine (leads_calm (Prog.calm_mem rfl)).bind fun agents h₃ h₃to ↦ ?_
  have hto := (h₁to.calm h₂to).calm h₃to
  split_ifs
  · refine (leads_calm (Prog.calm_unlock _)).bind fun _ h₄ h₄to ↦ ?_
    refine (leads_calm Prog.calm_logMessage).bind fun _ h₅ h₅to ↦ ensures_pure ?_
    have hto := (hto.calm h₄to).calm h₅to
    exact .refused hto.agents (hto.ledger.trans hl) hto.block
  · refine (leads_calm (Prog.calm_unlock _)).bind fun _ h₄ h₄to ↦ ?_
    have hto := hto.calm h₄to
    refine leads_prog fun a addr m hmalloc ↦ ?_
    obtain ⟨got, _, heq⟩ := Option.map_eq_some_iff.mp hmalloc
    cases got with
    | false =>
      cases heq
      exact ensures_pure (.refused hto.agents (hto.ledger.trans hl) hto.block)
    | true =>
      cases heq
      have hl₅ : h₄.ledger.note (.prog (.mem .malloc)) (some h₄.mem.heap) =
          { Ledger.empty with allocated := [h₄.mem.heap] } := by
        rw [hto.ledger, hl]
        rfl
      refine (startAgent_leads hl₅).mono fun x h₅ hend ↦ ?_
      rw [← hto.agents, ← hto.block]
      exact hend

end Ends

/-- A failure that leaves nothing behind of the agent at `p`. -/
structure CleanFailure (agents : List AgentRef) (p : ℕ) (x : ℤ) (h : Host) : Prop where
  negative : x < 0
  agents : h.mem.agents = agents
  joined : h.ledger.joined.Perm h.ledger.created
  destroyed : h.ledger.destroyed.Perm h.ledger.initialised
  flushed : h.ledger.flushed = [p]
  freed : h.ledger.freed = [p]

namespace Sample

def littleEndian : ℕ → ℤ → Bytes
  | 0, _ => []
  | width + 1, n => UInt8.ofInt n :: littleEndian width (n / 256)

@[simp]
theorem littleEndian_length (width : ℕ) (n : ℤ) : (littleEndian width n).length = width := by
  induction width generalizing n with
  | zero => rfl
  | succ width ih => simp [littleEndian, ih]

theorem littleEndian_zero (width : ℕ) : ∀ b ∈ littleEndian width 0, b = 0 := by
  induction width with
  | zero => exact List.forall_mem_nil _
  | succ width ih => exact List.forall_mem_cons.mpr ⟨rfl, ih⟩

def layout : NetLayout where
  offset
    | .addr => 0 | .port => 16 | .sockfd => 20 | .stop => 24 | .status => 28 | .seq => 32
    | .buf => 36 | .thread => 4136 | .lock => 4144 | .interval => 4148
  size
    | .addr => 16 | .port => 2 | .buf => 4096 | .thread => 8 | _ => 4
  extent := 4152
  short n := littleEndian 2 n.toNat
  int := littleEndian 4
  thread p := littleEndian 8 p
  spinlock := [1, 0, 0, 0]
  addr_size := rfl
  apart f g h := by cases f <;> cases g <;> first | exact absurd rfl h | decide
  within f := by cases f <;> decide
  short_length n := littleEndian_length 2 _
  int_length n := by simp
  int_zero := littleEndian_zero 4
  thread_length p := littleEndian_length 8 _
  spinlock_length := rfl

def host : Host := ⟨.start, .empty, ⟨fun _ ↦ 7, true⟩⟩

def ticked (n : ℕ) : List SysAns := List.replicate n (.ans .tick)

def startsThread (created : Bool) : List SysAns :=
  [.ans .tick, .ans (.ok true)] ++ ticked 4 ++ [.ans (.ok true)] ++ ticked 5 ++ [.ans (.ok created)]

def localhost : CString := ⟨[49, 50, 55, 46, 48, 46, 48, 46, 49], by decide⟩

end Sample

section Failures

variable {S : ℕ → Setup} {L : NetLayout} {enbId : UInt64} {ctrlAddr : CString} {ctrlPort : UInt16}
variable {h : Host} {m : Memory} {b : Block} {p : ℕ} {as : List SysAns} {x : ℤ}

/-- What a failure does and leaves: the threads joined are those created only
where `init` has refused, and the lock of the triggers is never destroyed. -/
theorem start_failure_account
    (hr : (Start.emStart L enbId ctrlAddr ctrlPort).run (execStart S L) as ⟨m, .empty, b⟩ =
      some (x, h)) (hx : x ≠ 0) (hp : p ∈ h.ledger.allocated) :
    ∃ f, x < 0 ∧ h.mem.agents = m.agents ∧ h.ledger = .failed p f ∧
      (h.ledger.joined.Perm h.ledger.created ↔ f = .init) := by
  cases emStart_leads rfl as x h (fun _ _ ↦ trivial) hr with
  | refused _ hledger =>
    rw [hledger] at hp
    cases hp
  | started => exact absurd rfl hx
  | failed q f hneg hagents hledger =>
    have hq : p = q := by
      rw [hledger] at hp
      cases f <;> exact List.mem_singleton.mp hp
    subst hq
    refine ⟨f, hneg, hagents, hledger, ?_⟩
    rw [hledger]
    constructor
    · intro hperm
      have hlen := hperm.length_eq
      cases f with
      | init => rfl
      | _ => cases hlen
    · rintro rfl
      exact .refl _

/-- No failure after the allocation is clean: the lock of the triggers, which
is always initialised, is destroyed nowhere. -/
theorem start_failure_unclean
    (hr : (Start.emStart L enbId ctrlAddr ctrlPort).run (execStart S L) as ⟨m, .empty, b⟩ =
      some (x, h)) (hx : x ≠ 0) (hp : p ∈ h.ledger.allocated) :
    ¬ CleanFailure m.agents p x h := by
  intro hclean
  obtain ⟨f, _, _, hledger, _⟩ := start_failure_account hr hx hp
  have htrig : Lock.trig p ∈ h.ledger.destroyed := by
    rw [hclean.destroyed.mem_iff, hledger]
    cases f <;> exact List.mem_cons_self ..
  rw [hledger] at htrig
  cases f <;> simp [Ledger.failed] at htrig

def schedFails : List SysAns := Sample.startsThread false ++ Sample.ticked 15

def initRefuses : List SysAns := Sample.startsThread true ++ Sample.ticked 5 ++ [.ans (.ok true)] ++
  Sample.ticked 2 ++ [.calls [], .ans (.sent (-1))] ++ Sample.ticked 11

theorem start_failure_unclean_sched : ∃ h,
    (Start.emStart Sample.layout 1 Sample.localhost 4433).run
      (execStart (fun _ ↦ Sample.setup) Sample.layout) schedFails Sample.host = some (-1, h) ∧
    h.ledger = .failed 0 .schedStart ∧ ¬ CleanFailure [] 0 (-1) h := by
  have hr : ∃ h, (Start.emStart Sample.layout 1 Sample.localhost 4433).run
      (execStart (fun _ ↦ Sample.setup) Sample.layout) schedFails Sample.host = some (-1, h) ∧
      h.ledger = .failed 0 .schedStart := ⟨_, rfl, rfl⟩
  obtain ⟨h, hr, hledger⟩ := hr
  refine ⟨h, hr, hledger, start_failure_unclean hr (by decide) ?_⟩
  rw [hledger]
  decide

theorem start_failure_lock_left : ¬ ∀ (S : ℕ → Setup) (L : NetLayout) (enbId : UInt64)
    (ctrlAddr : CString) (ctrlPort : UInt16) (m : Memory) (b : Block) (as : List SysAns) (x : ℤ)
    (h : Host) (p : ℕ), (Start.emStart L enbId ctrlAddr ctrlPort).run (execStart S L) as
      ⟨m, .empty, b⟩ = some (x, h) → x ≠ 0 → p ∈ h.ledger.allocated →
        CleanFailure m.agents p x h := by
  intro hclean
  have hr : ∃ h, (Start.emStart Sample.layout 1 Sample.localhost 4433).run
      (execStart (fun _ ↦ Sample.setup) Sample.layout) initRefuses Sample.host = some (-1, h) ∧
      h.ledger = .failed 0 .init := ⟨_, rfl, rfl⟩
  obtain ⟨h, hr, hledger⟩ := hr
  have hmem : 0 ∈ h.ledger.allocated := by
    rw [hledger]
    decide
  have hperm := (hclean _ _ _ _ _ _ _ _ _ _ 0 hr (by decide) hmem).destroyed
  rw [hledger] at hperm
  revert hperm
  decide

end Failures

end EmpowerAgent
