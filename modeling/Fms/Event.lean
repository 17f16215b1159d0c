import Fms.Lib.CString

/-!
# Event records

`fmd_event_t` (include/fmd_event.h) and the two functions of lib/libfmd/fmd_event.c that build one:
an ereport from what a source module detected, and a list event from what an agent did.

Pointers are names of allocated blocks: `addr` is the record itself, `pCase` the case it was added
to and `data` the private payload, which copies of an event share. A record in a case list and the
same record in an agent ring are two copies with one `addr`: the case engine writes only the fields
`evCount` and `evLastOccur` of a stored event and the agents read neither.
-/

namespace Fms

open CString

/-- `agent_result`: what the agent did; `none` is the code 0, no action at all. -/
inductive AgentResult where
  | none
  | isolatedFailed
  | isolatedSuccess
  | repairedFailed
  | repairedSuccess
  | repairedManual
  deriving DecidableEq, Repr

/-- The `LIST_*` codes. -/
def AgentResult.code : AgentResult → ℕ
  | .none => 0
  | .isolatedFailed => 0x0101
  | .isolatedSuccess => 0x0102
  | .repairedFailed => 0x0103
  | .repairedSuccess => 0x0104
  | .repairedManual => 0x0105

/-- `LIST_RESULT_MASK` -/
def listResultMask : ℕ := 0x0001

/-- The two results that report a success. -/
def AgentResult.success : AgentResult → Bool
  | .isolatedSuccess | .repairedSuccess => true
  | _ => false

/-- `ev_flag`: `zero` until the event is dispatched. -/
inductive EvFlag where
  | zero
  | agentTodo
  | agentTolog
  | agentTolist
  deriving DecidableEq, Repr

/-- `event_type` -/
inductive EventType where
  | zero
  | report
  | serd
  | fault
  | list
  deriving DecidableEq, Repr

/-- `handle_mode` -/
inductive HandleMode where
  | manual
  | auto
  | define
  deriving DecidableEq, Repr

/-- The `EVENT_HANDLE_MODE_*` codes. -/
def HandleMode.code : HandleMode → ℕ
  | .manual => 0x0000
  | .auto => 0x0001
  | .define => 0x0002

/-- `fmd_event_t`; a fresh record is zero-filled. `ev_count` is an integer, which is right below 2^31. -/
structure FmdEvent where
  addr : ℕ
  devName : CStr
  devId : ℤ
  evtId : ℤ
  evClass : CStr
  eventType : EventType := .zero
  N : ℤ := 0
  T : ℤ := 0
  repairedN : ℤ := 0
  repairedT : ℤ := 0
  evCreate : ℤ := 0
  evLastOccur : ℤ := 0
  evCount : ℤ := 0
  evRefs : ℤ := 0
  evFlag : EvFlag := .zero
  agentResult : AgentResult := .none
  pCase : Option ℕ := none
  handleMode : HandleMode := .manual
  data : Option ℕ := none
  deriving DecidableEq, Repr

/-- What a source module posts: `nvlist_t`, with whether it carries a private payload. -/
structure Nvlist where
  name : CStr
  devId : ℤ
  value : CStr
  evtId : ℤ
  hasData : Bool := true
  deriving DecidableEq, Repr

/-- The device an event is about. -/
abbrev Device := CStr × ℤ

def FmdEvent.device (e : FmdEvent) : Device := (e.devName, e.devId)

def Nvlist.device (nvl : Nvlist) : Device := (nvl.name, nvl.devId)

/-- `REPAIRED_N` -/
def repairedN : ℤ := 10

/-- `REPAIRED_T` -/
def repairedT : ℤ := 120

/-- `fmd_create_ereport`, with the names of the new record and of its payload. -/
def fmdCreateEreport (addr payload : ℕ) (now : ℤ) (nvl : Nvlist) : FmdEvent where
  addr := addr
  devName := nvl.name
  devId := nvl.devId
  evtId := nvl.evtId
  evCreate := now
  evClass := nvl.value
  data := if nvl.hasData then some payload else none
  repairedN := repairedN
  repairedT := repairedT

/-- `fmd_create_listevent`; a class without a dot has no list class. -/
def fmdCreateListevent (addr : ℕ) (now : ℤ) (pevt : FmdEvent) (action : AgentResult) :
    Option FmdEvent :=
  (strchr '.' pevt.evClass).map fun p =>
    { addr := addr
      devName := pevt.devName
      evCreate := now
      evClass := "list".toList ++ p
      agentResult := action
      devId := pevt.devId
      evtId := pevt.evtId
      repairedN := pevt.repairedN
      repairedT := pevt.repairedT
      evRefs := pevt.evRefs
      data := pevt.data }

/-- A list event is about the event it was made from and shares its payload. -/
theorem fmdCreateListevent_some {addr : ℕ} {now : ℤ} {pevt r : FmdEvent} {action : AgentResult}
    (h : fmdCreateListevent addr now pevt action = some r) :
    r.device = pevt.device ∧ r.evtId = pevt.evtId ∧ r.data = pevt.data ∧
      r.agentResult = action ∧ r.addr = addr := by
  obtain ⟨p, -, rfl⟩ := Option.map_eq_some_iff.mp h
  exact ⟨rfl, rfl, rfl, rfl, rfl⟩

end Fms
