import Fms.Lib.Run
import Fms.Queue

/-!
# The daemon

The queue thread and the agent threads as one step function. A step is what a thread does between
two points where the others can see it: the queue thread processes an ereport, puts an event to the
agents or deals with one entry of the repaired list; an agent takes an event from its ring, calls
its handler, gives the event up and puts the result on the repaired list; the administrator loads,
unloads and configures modules. A step that is not enabled (a full ring, the lock of the repaired
list held by the sweep, a crash) is `none`. Ereports wait for the queue thread in a queue that
nothing else reads, so an ereport is created in the step that takes it off.

Records and payloads are named by the counter `next`; `freed` are the payloads given to `free`.

* `step`: the step function, and `Step`, its inversion;
* **`step_cases`**: everything a step can do;
* `inflight`, `pending`: the events and the results that are on their way.
-/

namespace Fms

open CString Keyed

/-- Where the queue thread is: it has to put a fired fault and the event that fired it to the agents,
or the event alone, or it is in the sweep, past the entries `seen`. -/
inductive QueuePc where
  | idle
  | fire (pfault pevt : FmdEvent)
  | route (pevt : FmdEvent)
  | sweep (seen : List FmdEvent)
  deriving DecidableEq, Repr

/-- `fmd_t` with its threads. During a sweep `repaired` are the entries still ahead. -/
structure Daemon where
  esc : FmdEsc := {}
  listCase : List FmdCase := []
  agents : List Agent := []
  queue : QueuePc := .idle
  repaired : List FmdEvent := []
  next : ℕ := 0
  freed : List ℕ := []
  deriving DecidableEq, Repr

/-- The daemon as it starts. -/
def Daemon.boot (esc : FmdEsc) : Daemon := { esc := esc }

/-- `event_disp_dest`: `none` for an event that is not an ereport. -/
def eventDispDest (p : FmdEvent) : Option FmdEvent :=
  if strncmpEq p.evClass "ereport.".toList 8 then some { p with evFlag := .agentTolog } else none

/-- `atomic_dec(&pp_case->m_event_using)` -/
def atomicDec (pCase : Option ℕ) (listCase : List FmdCase) : List FmdCase :=
  modifyFirst (fun c => decide (some c.addr = pCase))
    (fun c => { c with mEventUsing := c.mEventUsing - 1 }) listCase

/-- The writes of `do_agent` and of the handlers to the event: its mode, and its type when there was
something to do. -/
def markHandled (mode : HandleMode) (evt : FmdEvent) : FmdEvent :=
  { evt with
    handleMode := mode
    eventType := if evt.evFlag = .agentTodo then .list else evt.eventType }

/-- The steps. -/
inductive Act where
  | ereport (nvl : Nvlist) (now : ℤ) (clk : Clock)
  | put
  | sweepBegin
  | sweepEntry (now : ℤ)
  | sweepEnd
  | take (i : ℕ)
  | handle (i : ℕ) (env : HandleEnv) (now : ℤ)
  | finish (i : ℕ)
  | result (i : ℕ)
  | load (ops : AgentOps) (listEclass : List CStr) (mode : HandleMode)
  | unload (i : ℕ)
  | config (i : ℕ) (mode : HandleMode)

/-- What the queue thread does next after an insertion. -/
def Added.queue (r : Added) : QueuePc :=
  match r.pfault with
  | some pfault => .fire pfault r.pevt
  | none => .route r.pevt

/-- `fmd_proc_event` on the ereport that `fmd_create_ereport` makes, up to `put_to_agents`. -/
def fmdProcEvent (nvl : Nvlist) (now : ℤ) (clk : Clock) (d : Daemon) : Daemon :=
  match eventDispDest (fmdCreateEreport d.next (d.next + 1) now nvl) with
  | none => { d with next := d.next + 4 }
  | some evt =>
    let r := fmdCaseInsert d.esc clk (d.next + 2) (d.next + 3) d.listCase evt
    { d with listCase := r.1, queue := r.2.queue, next := d.next + 4 }

/-- One entry of the sweep. -/
def sweepEntry (now : ℤ) (seen : List FmdEvent) (pevt : FmdEvent) (rest : List FmdEvent)
    (d : Daemon) : Daemon :=
  let r := queueDeleteEntry now d.listCase pevt
  { d with
    listCase := r.listCase
    repaired := rest
    queue := .sweep (if r.kept then seen ++ [pevt] else seen)
    freed := r.freed.toList ++ d.freed }

/-- The round of an agent thread in `do_agent`, and the administration of a module. -/
def agentStep (a : Agent) (d : Daemon) : Act → Option (Agent × Daemon)
  | .take _ =>
    match a.loaded, a.pc, a.ring with
    | true, .idle, evt :: ring => some ({ a with ring := ring, pc := .handling evt }, d)
    | _, _, _ => none
  | .handle _ env now =>
    match a.pc with
    | .handling evt =>
      (a.ops.evtHandle env d.next now { evt with handleMode := a.evtHandleMode }).map fun r =>
        ({ a with pc := .handled (markHandled a.evtHandleMode evt) r }, { d with next := d.next + 1 })
    | _ => none
  | .finish _ =>
    match a.pc with
    | .handled evt eresult =>
      some ({ a with pc := eresult.elim .idle .putting },
        if evt.evFlag ≠ .agentTodo then { d with listCase := atomicDec evt.pCase d.listCase } else d)
    | _ => none
  | .result _ =>
    match a.pc, d.queue with
    | .putting _, .sweep _ => none
    | .putting eresult, _ =>
      some ({ a with pc := .idle }, { d with repaired := agentRingPut d.repaired eresult })
    | _, _ => none
  | .unload _ => if a.loaded then some ({ a with ring := [], loaded := false }, d) else none
  | .config _ mode => if a.loaded then some ({ a with evtHandleMode := mode }, d) else none
  | _ => none

/-- A step of the agent at position `i`. -/
def agentAt (i : ℕ) (act : Act) (d : Daemon) : Option Daemon :=
  (d.agents[i]?).bind fun a =>
    (agentStep a d act).map fun r => { r.2 with agents := d.agents.set i r.1 }

/-- A step of the queue thread. -/
def queueStep (d : Daemon) : Act → QueuePc → Option Daemon
  | .ereport nvl now clk, .idle => some (fmdProcEvent nvl now clk d)
  | .put, .fire pfault pevt =>
    (putToAgents pfault d.agents).map fun agents => { d with agents := agents, queue := .route pevt }
  | .put, .route pevt =>
    (putToAgents pevt d.agents).map fun agents => { d with agents := agents, queue := .idle }
  | .sweepBegin, .idle => some { d with queue := .sweep [] }
  | .sweepEntry now, .sweep seen =>
    match d.repaired with
    | [] => none
    | pevt :: rest => some (sweepEntry now seen pevt rest d)
  | .sweepEnd, .sweep seen =>
    match d.repaired with
    | [] => some { d with repaired := seen, queue := .idle }
    | _ :: _ => none
  | _, _ => none

/-- The step function. -/
def step (act : Act) (d : Daemon) : Option Daemon :=
  match act with
  | .load ops listEclass mode =>
    some { d with agents := { ops := ops, listEclass := listEclass, evtHandleMode := mode } :: d.agents }
  | .take i | .handle i _ _ | .finish i | .result i | .unload i | .config i _ => agentAt i act d
  | _ => queueStep d act d.queue

/-! ## Events on their way -/

/-- The events the queue thread holds. -/
@[simp] def QueuePc.events : QueuePc → List FmdEvent
  | .fire pfault pevt => [pfault, pevt]
  | .route pevt => [pevt]
  | _ => []

/-- The fault the queue thread has fired and not put yet. -/
@[simp] def QueuePc.fault? : QueuePc → Option FmdEvent
  | .fire pfault _ => some pfault
  | _ => none

/-- The entries the sweep has passed. -/
@[simp] def QueuePc.seen : QueuePc → List FmdEvent
  | .sweep seen => seen
  | _ => []

/-- The event an agent thread holds. -/
@[simp] def AgentPc.events : AgentPc → List FmdEvent
  | .handling evt | .handled evt _ => [evt]
  | _ => []

/-- The result an agent thread holds. -/
@[simp] def AgentPc.results : AgentPc → List FmdEvent
  | .handled _ eresult => eresult.toList
  | .putting eresult => [eresult]
  | _ => []

def Agent.events (a : Agent) : List FmdEvent := a.ring ++ a.pc.events

def Agent.results (a : Agent) : List FmdEvent := a.pc.results

/-- The events that were sent to the agents and are not given up yet. -/
def Daemon.inflight (d : Daemon) : List FmdEvent := d.queue.events ++ d.agents.flatMap Agent.events

/-- The results on their way to the repaired list. -/
def Daemon.pending (d : Daemon) : List FmdEvent := d.agents.flatMap Agent.results

/-- `queue_repaired_list` -/
def Daemon.repairedList (d : Daemon) : List FmdEvent := d.queue.seen ++ d.repaired

/-! ## What a step can do -/

/-- The ereport of a module as `fmd_case_insert` has classified it. -/
def dispatched (d : Daemon) (nvl : Nvlist) (now : ℤ) : FmdEvent :=
  fmdCaseClassify d.esc
    { fmdCreateEreport d.next (d.next + 1) now nvl with evFlag := .agentTolog }

theorem dispatched_eq (d : Daemon) (nvl : Nvlist) (now : ℤ) : ∃ ty n t,
    dispatched d nvl now = { fmdCreateEreport d.next (d.next + 1) now nvl with
      evFlag := .agentTolog, eventType := ty, N := n, T := t } := by
  obtain ⟨ty, n, t, h⟩ := fmdCaseClassify_eq d.esc
    { fmdCreateEreport d.next (d.next + 1) now nvl with evFlag := .agentTolog }
  exact ⟨ty, n, t, h⟩

section Dispatched

variable (d : Daemon) (nvl : Nvlist) (now : ℤ)

@[simp] theorem dispatched_device : (dispatched d nvl now).device = nvl.device := by
  obtain ⟨ty, n, t, h⟩ := dispatched_eq d nvl now
  rw [h]
  rfl

@[simp] theorem dispatched_evtId : (dispatched d nvl now).evtId = nvl.evtId := by
  obtain ⟨ty, n, t, h⟩ := dispatched_eq d nvl now
  rw [h]
  rfl

@[simp] theorem dispatched_evClass : (dispatched d nvl now).evClass = nvl.value := by
  obtain ⟨ty, n, t, h⟩ := dispatched_eq d nvl now
  rw [h]
  rfl

@[simp] theorem dispatched_evFlag : (dispatched d nvl now).evFlag = .agentTolog := by
  obtain ⟨ty, n, t, h⟩ := dispatched_eq d nvl now
  rw [h]

@[simp] theorem dispatched_evCount : (dispatched d nvl now).evCount = 0 := by
  obtain ⟨ty, n, t, h⟩ := dispatched_eq d nvl now
  rw [h]
  rfl

@[simp] theorem dispatched_data :
    (dispatched d nvl now).data = if nvl.hasData then some (d.next + 1) else none := by
  obtain ⟨ty, n, t, h⟩ := dispatched_eq d nvl now
  rw [h]
  rfl

end Dispatched

/-- The decrement finds the listed case with the name, if there is one. -/
theorem atomicDec_cases (pCase : Option ℕ) (lc : List FmdCase) :
    (atomicDec pCase lc = lc ∧ ∀ c ∈ lc, some c.addr ≠ pCase) ∨
      ∃ l₁ c l₂, lc = l₁ ++ c :: l₂ ∧ some c.addr = pCase ∧
        atomicDec pCase lc = l₁ ++ { c with mEventUsing := c.mEventUsing - 1 } :: l₂ := by
  cases hf : lc.find? fun c => decide (some c.addr = pCase) with
  | none =>
    have hn := find?_none hf
    exact .inl ⟨modifyFirst_none _ hn, fun c hc => of_decide_eq_false (hn c hc)⟩
  | some c =>
    obtain ⟨hc, l₁, l₂, hl, hn⟩ := find?_split hf
    refine .inr ⟨l₁, c, l₂, hl, of_decide_eq_true hc, ?_⟩
    rw [hl]
    exact modifyFirst_split _ l₂ hn hc

/-- The event the queue thread has to put to the agents, and what it does next. -/
def QueuePc.puts : QueuePc → Option (FmdEvent × QueuePc)
  | .fire pfault pevt => some (pfault, .route pevt)
  | .route pevt => some (pevt, .idle)
  | _ => none

/-- The inversion of `step`. -/
inductive Step (d : Daemon) : Act → Daemon → Prop
  | lost {nvl : Nvlist} {now : ℤ} {clk : Clock} (idle : d.queue = .idle)
      (other : ¬ "ereport.".toList <+: nvl.value) :
      Step d (.ereport nvl now clk) { d with next := d.next + 4 }
  | inserted {nvl : Nvlist} {now : ℤ} {clk : Clock} {lc : List FmdCase} {r : Added}
      (idle : d.queue = .idle) (ereport : "ereport.".toList <+: nvl.value)
      (added : CaseAdded clk (d.next + 2) (d.next + 3) d.listCase (dispatched d nvl now) (lc, r)) :
      Step d (.ereport nvl now clk)
        { d with listCase := lc, queue := r.queue, next := d.next + 4 }
  | put {evt : FmdEvent} {queue : QueuePc} {agents : List Agent}
      (puts : d.queue.puts = some (evt, queue)) (routed : Routed d.agents evt agents) :
      Step d .put { d with agents := agents, queue := queue }
  | sweepBegin (idle : d.queue = .idle) : Step d .sweepBegin { d with queue := .sweep [] }
  | sweepEntry {now : ℤ} {seen : List FmdEvent} {pevt : FmdEvent} {rest : List FmdEvent}
      (queue : d.queue = .sweep seen) (entry : d.repaired = pevt :: rest) :
      Step d (.sweepEntry now) (sweepEntry now seen pevt rest d)
  | sweepEnd {seen : List FmdEvent} (queue : d.queue = .sweep seen) (done : d.repaired = []) :
      Step d .sweepEnd { d with repaired := seen, queue := .idle }
  | take {l₁ : List Agent} {a : Agent} {l₂ : List Agent} {evt : FmdEvent} {ring : List FmdEvent}
      (split : d.agents = l₁ ++ a :: l₂) (loaded : a.loaded = true) (pc : a.pc = .idle)
      (ring_eq : a.ring = evt :: ring) :
      Step d (.take l₁.length)
        { d with agents := l₁ ++ { a with ring := ring, pc := .handling evt } :: l₂ }
  | handle {l₁ : List Agent} {a : Agent} {l₂ : List Agent} {evt : FmdEvent}
      {r : Option FmdEvent} {env : HandleEnv} {now : ℤ} (split : d.agents = l₁ ++ a :: l₂)
      (pc : a.pc = .handling evt)
      (ret : a.ops.evtHandle env d.next now { evt with handleMode := a.evtHandleMode } = some r) :
      Step d (.handle l₁.length env now)
        { d with
          agents := l₁ ++ { a with pc := .handled (markHandled a.evtHandleMode evt) r } :: l₂
          next := d.next + 1 }
  | finish {l₁ : List Agent} {a : Agent} {l₂ : List Agent} {evt : FmdEvent}
      {r : Option FmdEvent} (split : d.agents = l₁ ++ a :: l₂) (pc : a.pc = .handled evt r) :
      Step d (.finish l₁.length)
        { d with
          agents := l₁ ++ { a with pc := r.elim .idle .putting } :: l₂
          listCase := if evt.evFlag ≠ .agentTodo then atomicDec evt.pCase d.listCase
            else d.listCase }
  | result {l₁ : List Agent} {a : Agent} {l₂ : List Agent} {r : FmdEvent}
      {repaired : List FmdEvent} (split : d.agents = l₁ ++ a :: l₂) (pc : a.pc = .putting r)
      (unlocked : ∀ seen, d.queue ≠ .sweep seen) (put : ResultPut d.repaired r repaired) :
      Step d (.result l₁.length)
        { d with agents := l₁ ++ { a with pc := .idle } :: l₂, repaired := repaired }
  | load {ops : AgentOps} {listEclass : List CStr} {mode : HandleMode} :
      Step d (.load ops listEclass mode)
        { d with
          agents := { ops := ops, listEclass := listEclass, evtHandleMode := mode } :: d.agents }
  | unload {l₁ : List Agent} {a : Agent} {l₂ : List Agent} (split : d.agents = l₁ ++ a :: l₂)
      (loaded : a.loaded = true) :
      Step d (.unload l₁.length)
        { d with agents := l₁ ++ { a with ring := [], loaded := false } :: l₂ }
  | config {l₁ : List Agent} {a : Agent} {l₂ : List Agent} {mode : HandleMode}
      (split : d.agents = l₁ ++ a :: l₂) (loaded : a.loaded = true) :
      Step d (.config l₁.length mode)
        { d with agents := l₁ ++ { a with evtHandleMode := mode } :: l₂ }

theorem strncmp_ereport {eclass : CStr} :
    strncmpEq eclass "ereport.".toList 8 = true ↔ "ereport.".toList <+: eclass :=
  strncmpEq_right

theorem eventDispDest_some {p evt : FmdEvent} (h : eventDispDest p = some evt) :
    "ereport.".toList <+: p.evClass ∧ evt = { p with evFlag := .agentTolog } := by
  unfold eventDispDest at h
  split_ifs at h with hp
  exact ⟨strncmp_ereport.mp hp, (Option.some.inj h).symm⟩

theorem fmdProcEvent_step (nvl : Nvlist) (now : ℤ) (clk : Clock) {d : Daemon}
    (idle : d.queue = .idle) : Step d (.ereport nvl now clk) (fmdProcEvent nvl now clk d) := by
  unfold fmdProcEvent
  cases he : eventDispDest (fmdCreateEreport d.next (d.next + 1) now nvl) with
  | none =>
    refine .lost idle fun hp => ?_
    unfold eventDispDest at he
    split_ifs at he with hc
    exact hc (strncmp_ereport.mpr hp)
  | some evt =>
    obtain ⟨hp, rfl⟩ := eventDispDest_some he
    exact .inserted idle hp (addCaseList_cases ..)

theorem agentAt_split {i : ℕ} {act : Act} {d d' : Daemon} (h : agentAt i act d = some d') :
    ∃ l₁ a l₂, d.agents = l₁ ++ a :: l₂ ∧ l₁.length = i ∧
      ∃ r, agentStep a d act = some r ∧ d' = { r.2 with agents := l₁ ++ r.1 :: l₂ } := by
  obtain ⟨a, ha, h⟩ := Option.bind_eq_some_iff.mp h
  obtain ⟨r, hr, rfl⟩ := Option.map_eq_some_iff.mp h
  obtain ⟨l₁, l₂, hl, hlen, hset⟩ := exists_getElem?_split ha
  exact ⟨l₁, a, l₂, hl, hlen, r, hr, by rw [hset]⟩

theorem agentAt_step {i : ℕ} {act : Act} {d d' : Daemon} (h : agentAt i act d = some d')
    (hi : act = .take i ∨ (∃ env now, act = .handle i env now) ∨ act = .finish i ∨
      act = .result i ∨ act = .unload i ∨ ∃ mode, act = .config i mode) : Step d act d' := by
  obtain ⟨l₁, a, l₂, hs, rfl, r, hr, rfl⟩ := agentAt_split h
  rcases hi with rfl | ⟨env, now, rfl⟩ | rfl | rfl | rfl | ⟨mode, rfl⟩
  · simp only [agentStep] at hr
    split at hr
    · rename_i evt ring hl hp hg
      cases hr
      exact .take hs hl hp hg
    · cases hr
  · simp only [agentStep] at hr
    split at hr
    · rename_i evt hp
      obtain ⟨ret, hret, rfl⟩ := Option.map_eq_some_iff.mp hr
      exact .handle hs hp hret
    · cases hr
  · simp only [agentStep] at hr
    split at hr
    · rename_i evt eresult hp
      cases hr
      have hst := Step.finish hs hp
      split_ifs at hst ⊢
      · exact hst
      · exact hst
    · cases hr
  · simp only [agentStep] at hr
    split at hr
    · cases hr
    · rename_i eresult hp hq
      cases hr
      exact .result hs hp hq (agentRingPut_cases ..)
    · cases hr
  · simp only [agentStep] at hr
    split_ifs at hr with hl
    cases hr
    exact .unload hs hl
  · simp only [agentStep] at hr
    split_ifs at hr with hl
    cases hr
    exact .config hs hl

theorem queueStep_step {act : Act} {d d' : Daemon} (h : queueStep d act d.queue = some d') :
    Step d act d' := by
  unfold queueStep at h
  split at h
  · rename_i hq
    cases h
    exact fmdProcEvent_step _ _ _ hq
  · rename_i hq
    obtain ⟨agents, hp, rfl⟩ := Option.map_eq_some_iff.mp h
    exact .put (by rw [hq]; rfl) (putToAgents_cases hp)
  · rename_i hq
    obtain ⟨agents, hp, rfl⟩ := Option.map_eq_some_iff.mp h
    exact .put (by rw [hq]; rfl) (putToAgents_cases hp)
  · rename_i hq
    cases h
    exact .sweepBegin hq
  · rename_i hq
    split at h
    · cases h
    · rename_i hr
      cases h
      exact .sweepEntry hq hr
  · rename_i hq
    split at h
    · rename_i hr
      cases h
      exact .sweepEnd hq hr
    · cases h
  · cases h

/-- **Everything a step can do.** -/
theorem step_cases {act : Act} {d d' : Daemon} (h : step act d = some d') : Step d act d' := by
  cases act with
  | ereport nvl now clk => exact queueStep_step h
  | put => exact queueStep_step h
  | sweepBegin => exact queueStep_step h
  | sweepEntry now => exact queueStep_step h
  | sweepEnd => exact queueStep_step h
  | load ops listEclass mode =>
    cases h
    exact .load
  | take i => exact agentAt_step h (.inl rfl)
  | handle i env now => exact agentAt_step h (.inr (.inl ⟨env, now, rfl⟩))
  | finish i => exact agentAt_step h (.inr (.inr (.inl rfl)))
  | result i => exact agentAt_step h (.inr (.inr (.inr (.inl rfl))))
  | unload i => exact agentAt_step h (.inr (.inr (.inr (.inr (.inl rfl)))))
  | config i mode => exact agentAt_step h (.inr (.inr (.inr (.inr (.inr ⟨mode, rfl⟩)))))

end Fms
