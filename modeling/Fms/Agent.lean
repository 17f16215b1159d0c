import Fms.Event
import Fms.Lib.Keyed

/-!
# Agents

The event handlers of the agent modules (agent.disk.c, cpumem_agent.c with evt_process.c,
trace_agent.c) and what an agent thread does with their results (lib evt_agent.c). A handler is
pure up to the machine it acts on: `HandleEnv` holds the answers of the kernel during one call. The
texts written to the log files are left out.

* `evtHandle_some`: the list event a handler returns is about the event it was given and shares its
  payload;
* **`evtHandle_result`**: the result 0 is what the disk agent reports for an ereport and the cpumem
  agent for a fault it has to leave to the user;
* `agentRingPut_cases`: a result is merged into an entry of the repaired list or appended.
-/

namespace Fms

open CString Keyed

/-- What the kernel answers while an event is handled. -/
structure HandleEnv where
  throttleReadDisk : Bool := false
  getprocid : Bool := false
  kfmCacheFlush : Bool := false
  cpuOffineOnCache : Bool := false
  doCpuOffline : Bool := false
  pageError : Bool := false
  memoryPageOffline : Bool := false
  deriving DecidableEq, Repr

/-! ## The disk agent -/

/-- `handle_disk_fault_event` -/
def handleDiskFaultEvent (env : HandleEnv) (e : FmdEvent) : AgentResult :=
  if (strstr "over-temperature".toList e.evClass).isSome then
    if env.throttleReadDisk && env.getprocid then .repairedSuccess else .repairedFailed
  else if (strstr "space-insufficient".toList e.evClass).isSome then .repairedSuccess
  else if (strstr "unhealthy".toList e.evClass).isSome then .repairedSuccess
  else .repairedFailed

/-- The result `disk_handle_event` reports: it makes a list event of every event, with the result 0
when there was nothing to do. -/
def diskHandleEvent (env : HandleEnv) (e : FmdEvent) : Option AgentResult :=
  if e.evFlag = .agentTodo then some (handleDiskFaultEvent env e) else some .none

/-! ## The cpumem agent -/

/-- `__handle_cache` -/
def handleCache (env : HandleEnv) (cpuAction : ℤ) (data : Option ℕ) : AgentResult :=
  if data = none then .repairedFailed
  else if cpuAction = 1 then if env.kfmCacheFlush then .repairedSuccess else .repairedFailed
  else if cpuAction = 2 then if env.cpuOffineOnCache then .isolatedSuccess else .isolatedFailed
  else .repairedFailed

/-- `evt_handle_qpi` -/
def evtHandleQpi (env : HandleEnv) (data : Option ℕ) : AgentResult :=
  if data = none then .repairedFailed
  else if env.doCpuOffline then .isolatedSuccess else .isolatedFailed

/-- `evt_handle_mempage` -/
def evtHandleMempage (env : HandleEnv) (data : Option ℕ) : AgentResult :=
  if data = none then .repairedFailed
  else if env.pageError then if env.memoryPageOffline then .isolatedSuccess else .isolatedFailed
  else .repairedFailed

/-- `cmea_evt_processing`: the first entry of `g_evt_handler` whose type starts the event type. -/
def cmeaEvtProcessing (env : HandleEnv) (evtType : CStr) (cpuAction : ℤ) (data : Option ℕ) :
    AgentResult :=
  if strncmpEq "cache".toList evtType 5 then handleCache env cpuAction data
  else if strncmpEq "tlb".toList evtType 3 then handleCache env cpuAction data
  else if strncmpEq "qpi".toList evtType 3 then evtHandleQpi env data
  else if strncmpEq "mempage".toList evtType 7 then evtHandleMempage env data
  else .repairedFailed

/-- `__handle_fault_event` of the cpumem agent. -/
def handleFaultEvent (env : HandleEnv) (e : FmdEvent) : AgentResult :=
  match strrchr '.' e.evClass with
  | none => .repairedFailed
  | some evtType => cmeaEvtProcessing env (evtType.drop 1) e.evRefs e.data

/-- The result `cpumem_handle_event` reports, `none` for an event it only logs. -/
def cpumemHandleEvent (env : HandleEnv) (e : FmdEvent) : Option AgentResult :=
  if e.evFlag = .agentTodo then
    let ret := if e.handleMode.code &&& HandleMode.auto.code ≠ 0 then handleFaultEvent env e else .none
    let ret := if e.handleMode = .manual then .repairedManual else ret
    some ret
  else none

/-! ## The trace agent -/

/-- The result `trace_handle_event` reports, `none` for an event it only logs. -/
def traceHandleEvent (e : FmdEvent) : Option AgentResult :=
  if e.evFlag = .agentTodo then some .isolatedSuccess else none

/-! ## Agent threads -/

/-- `mops->evt_handle` -/
inductive AgentOps where
  | disk
  | cpumem
  | trace
  deriving DecidableEq, Repr

def AgentOps.result (env : HandleEnv) (e : FmdEvent) : AgentOps → Option AgentResult
  | .disk => diskHandleEvent env e
  | .cpumem => cpumemHandleEvent env e
  | .trace => traceHandleEvent e

/-- A call of `mops->evt_handle`: `some none` is a null pointer, `none` a class without a dot. -/
def AgentOps.evtHandle (ops : AgentOps) (env : HandleEnv) (addr : ℕ) (now : ℤ) (e : FmdEvent) :
    Option (Option FmdEvent) :=
  match ops.result env e with
  | none => some none
  | some ret => (fmdCreateListevent addr now e ret).map some

/-- Where an agent thread is in the loop of `do_agent`: it handles an event, has the result of the
handler but has not given up the event yet, or is about to put the result on the repaired list. -/
inductive AgentPc where
  | idle
  | handling (evt : FmdEvent)
  | handled (evt : FmdEvent) (eresult : Option FmdEvent)
  | putting (eresult : FmdEvent)
  deriving DecidableEq, Repr

/-- `agent_module_t` and its thread. The ring of an unloaded module is gone; its thread still ends the
round it is in. -/
structure Agent where
  ops : AgentOps
  listEclass : List CStr
  evtHandleMode : HandleMode
  ring : List FmdEvent := []
  pc : AgentPc := .idle
  loaded : Bool := true
  deriving DecidableEq, Repr

/-- `RING_SIZE` -/
def ringSize : ℕ := 128

/-- The merge test of `agent_ring_put`; the names are compared over the length of the new one. -/
def sameResult (pevt pEvent : FmdEvent) : Bool :=
  strncmpEq pEvent.devName pevt.devName pevt.devName.length &&
    decide (pEvent.devId = pevt.devId) && decide (pEvent.evtId = pevt.evtId) &&
    decide (pEvent.agentResult = pevt.agentResult)

/-- What `agent_ring_put` writes to the entry it merges into. -/
def mergeResult (pevt pEvent : FmdEvent) : FmdEvent :=
  { pEvent with
    evCreate := pevt.evCreate
    evRefs := pevt.evRefs
    evCount := pEvent.evCount + 1 }

/-- `agent_ring_put` -/
def agentRingPut (repaired : List FmdEvent) (pevt : FmdEvent) : List FmdEvent :=
  match repaired.find? (sameResult pevt) with
  | some _ => modifyFirst (sameResult pevt) (mergeResult pevt) repaired
  | none => repaired ++ [{ pevt with evCount := 1 }]

/-! ## What the agents produce -/

theorem handleDiskFaultEvent_ne_none (env : HandleEnv) (e : FmdEvent) :
    handleDiskFaultEvent env e ≠ .none := by
  unfold handleDiskFaultEvent
  split_ifs <;> exact AgentResult.noConfusion

theorem handleCache_ne_none (env : HandleEnv) (cpuAction : ℤ) (data : Option ℕ) :
    handleCache env cpuAction data ≠ .none := by
  unfold handleCache
  split_ifs <;> exact AgentResult.noConfusion

theorem evtHandleQpi_ne_none (env : HandleEnv) (data : Option ℕ) :
    evtHandleQpi env data ≠ .none := by
  unfold evtHandleQpi
  split_ifs <;> exact AgentResult.noConfusion

theorem evtHandleMempage_ne_none (env : HandleEnv) (data : Option ℕ) :
    evtHandleMempage env data ≠ .none := by
  unfold evtHandleMempage
  split_ifs <;> exact AgentResult.noConfusion

theorem handleFaultEvent_ne_none (env : HandleEnv) (e : FmdEvent) :
    handleFaultEvent env e ≠ .none := by
  unfold handleFaultEvent cmeaEvtProcessing
  cases strrchr '.' e.evClass with
  | none => exact AgentResult.noConfusion
  | some evtType =>
    simp only
    split_ifs
    · exact handleCache_ne_none env e.evRefs e.data
    · exact handleCache_ne_none env e.evRefs e.data
    · exact evtHandleQpi_ne_none env e.data
    · exact evtHandleMempage_ne_none env e.data
    · exact AgentResult.noConfusion

variable {ops : AgentOps} {env : HandleEnv} {addr : ℕ} {now : ℤ} {e r : FmdEvent}

theorem evtHandle_cases (h : ops.evtHandle env addr now e = some (some r)) :
    ∃ ret, ops.result env e = some ret ∧ fmdCreateListevent addr now e ret = some r := by
  unfold AgentOps.evtHandle at h
  cases hr : ops.result env e with
  | none => simp [hr] at h
  | some ret =>
    rw [hr] at h
    obtain ⟨r', hr', he⟩ := Option.map_eq_some_iff.mp h
    exact ⟨ret, rfl, Option.some.inj he ▸ hr'⟩

theorem evtHandle_some (h : ops.evtHandle env addr now e = some (some r)) :
    r.device = e.device ∧ r.evtId = e.evtId ∧ r.data = e.data ∧ r.addr = addr := by
  obtain ⟨ret, -, hc⟩ := evtHandle_cases h
  obtain ⟨h1, h2, h3, -, h5⟩ := fmdCreateListevent_some hc
  exact ⟨h1, h2, h3, h5⟩

/-- **The result 0** is reported by the disk agent for every ereport it logs and by the cpumem agent
for a fault that the configuration leaves to the user. -/
theorem evtHandle_result (h : ops.evtHandle env addr now e = some (some r)) :
    r.agentResult = .none ↔
      e.evFlag ≠ .agentTodo ∨ (ops = .cpumem ∧ e.handleMode = .define) := by
  obtain ⟨ret, hr, hc⟩ := evtHandle_cases h
  rw [(fmdCreateListevent_some hc).2.2.2.1]
  by_cases hf : e.evFlag = .agentTodo
  · simp only [hf, ne_eq, not_true_eq_false, false_or]
    cases ops with
    | disk =>
      simp only [AgentOps.result, diskHandleEvent, if_pos hf, Option.some.injEq] at hr
      simpa [← hr] using handleDiskFaultEvent_ne_none env e
    | cpumem =>
      simp only [AgentOps.result, cpumemHandleEvent, if_pos hf, Option.some.injEq] at hr
      cases hm : e.handleMode with
      | manual => simp [← hr, hm]
      | auto => simpa [← hr, hm, HandleMode.code] using handleFaultEvent_ne_none env e
      | define => simp [← hr, hm, HandleMode.code]
    | trace =>
      simp only [AgentOps.result, traceHandleEvent, if_pos hf, Option.some.injEq] at hr
      simp [← hr]
  · simp only [ne_eq, hf, not_false_eq_true, true_or, iff_true]
    cases ops with
    | disk =>
      simp only [AgentOps.result, diskHandleEvent, if_neg hf, Option.some.injEq] at hr
      exact hr.symm
    | cpumem => simp [AgentOps.result, cpumemHandleEvent, hf] at hr
    | trace => simp [AgentOps.result, traceHandleEvent, hf] at hr

/-! ## The repaired list -/

/-- What putting a result on the list does. -/
inductive ResultPut (repaired : List FmdEvent) (pevt : FmdEvent) : List FmdEvent → Prop
  | merged (l₁ : List FmdEvent) (p : FmdEvent) (l₂ : List FmdEvent)
      (split : repaired = l₁ ++ p :: l₂) (same : sameResult pevt p = true) :
      ResultPut repaired pevt (l₁ ++ mergeResult pevt p :: l₂)
  | appended (new : ∀ p ∈ repaired, sameResult pevt p = false) :
      ResultPut repaired pevt (repaired ++ [{ pevt with evCount := 1 }])

theorem agentRingPut_cases (repaired : List FmdEvent) (pevt : FmdEvent) :
    ResultPut repaired pevt (agentRingPut repaired pevt) := by
  unfold agentRingPut
  cases hf : repaired.find? (sameResult pevt) with
  | some p =>
    obtain ⟨hp, l₁, l₂, hl, hn⟩ := find?_split hf
    simp only
    rw [hl, modifyFirst_split _ l₂ hn hp, ← hl]
    exact .merged l₁ p l₂ hl hp
  | none => exact .appended (find?_none hf)

end Fms
