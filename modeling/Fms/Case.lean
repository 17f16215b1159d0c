import Fms.Event
import Fms.Lib.Keyed
import Fms.Lib.ListHead

/-!
# The case engine

lib/libcase/fmd_case.c over the rules of `fmd_esc_t` (include/fmd_esc.h): an ereport is classified
(`fmdCaseClassify`), added to the case of its device (`addCaseList`, `fmdEventAdd`) and may fire a
fault (`fmdCaseCanfire`, `fmdCaseFire`); a list event deletes a case or one of its events
(`fmdCaseFindAndDelete`). `fmdCaseInsert` is the part of `fmd_case_insert` before the events are
put to the agents. The writes to the event database are left out: no value returned here depends
on them.

* `fmdEventAdd_cases`, `addCaseList_cases`: what an insertion can do to a case and to the list;
* **`fmdCaseFindAndDelete_cases`**: everything a deletion can do to the list.
-/

namespace Fms

open CString Keyed ListHead

/-! ## Rules -/

/-- `fmd_fault_type_t` and `fmd_event_type_t` -/
structure FmdFaultType where
  eclass : CStr
  deriving DecidableEq, Repr

/-- `fmd_serd_type_t` -/
structure FmdSerdType where
  eclass : CStr
  N : UInt32
  T : UInt32
  deriving DecidableEq, Repr

/-- `fmd_esc_t`: the lists the case engine searches. -/
structure FmdEsc where
  listFault : List FmdFaultType := []
  listSerd : List FmdSerdType := []
  deriving DecidableEq, Repr

/-- The first fault rule that matches a class. -/
def FmdEsc.fault? (esc : FmdEsc) (eclass : CStr) : Option FmdFaultType :=
  esc.listFault.find? fun p => strncmpEq p.eclass eclass p.eclass.length

/-- The first engine rule that matches a class. -/
def FmdEsc.serd? (esc : FmdEsc) (eclass : CStr) : Option FmdSerdType :=
  esc.listSerd.find? fun p => strncmpEq p.eclass eclass p.eclass.length

/-- The threshold `N`, as the `int` the event receives. -/
def FmdSerdType.n (p : FmdSerdType) : ℤ := p.N.toInt32.toInt

theorem FmdSerdType.n_of_lt {p : FmdSerdType} (h : p.N.toNat < 2 ^ 31) : p.n = p.N.toNat := by
  change p.N.toBitVec.toInt = p.N.toBitVec.toNat
  have hlt : p.N.toBitVec.toNat < 2 ^ 31 := h
  rw [BitVec.toInt_eq_toNat_cond, if_pos (by omega)]

/-- The window `T`, as the `time_t` the event receives. -/
def FmdSerdType.t (p : FmdSerdType) : ℤ := p.T.toNat

/-- The loop of `fmd_case_insert` over the fault rules. -/
def faultRule (esc : FmdEsc) (pevt : FmdEvent) : FmdEvent :=
  match esc.fault? pevt.evClass with
  | some _ => { pevt with eventType := .fault }
  | none => pevt

/-- The loop of `fmd_case_insert` over the engine rules. -/
def serdRule (esc : FmdEsc) (pevt : FmdEvent) : FmdEvent :=
  match esc.serd? pevt.evClass with
  | some pserd => { pevt with N := pserd.n, T := pserd.t, eventType := .serd }
  | none => pevt

/-- The start of `fmd_case_insert`: an engine rule overrides a fault rule, an event under no rule is
a plain report. -/
def fmdCaseClassify (esc : FmdEsc) (pevt : FmdEvent) : FmdEvent :=
  let pevt := serdRule esc (faultRule esc pevt)
  if pevt.eventType = .zero then { pevt with eventType := .report } else pevt

/-! ## Cases -/

/-- `cs_flag` -/
inductive CsFlag where
  | create
  | fired
  | closed
  deriving DecidableEq, Repr

/-- `fmd_case_t`. Its counters are integers, which is right while each stays below 2^31. -/
structure FmdCase where
  addr : ℕ
  devName : CStr
  devId : ℤ
  lastEclass : CStr
  csFlag : CsFlag := .create
  csTotalCount : ℤ := 0
  csFireCounts : ℤ := 0
  csCreate : ℤ
  csFirstFire : ℤ := 0
  csLastFire : ℤ := 0
  mEventUsing : ℤ := 0
  csEvent : List FmdEvent := []
  deriving DecidableEq, Repr

def FmdCase.device (c : FmdCase) : Device := (c.devName, c.devId)

/-- The readings of `time(NULL)` during one insertion, in program order. -/
structure Clock where
  csCreate : ℤ
  evCreate : ℤ
  evLastOccur : ℤ
  canfire : ℤ
  firstFire : ℤ
  lastFire : ℤ
  create_le : csCreate ≤ evCreate
  occur_le : evCreate ≤ evLastOccur
  canfire_le : evLastOccur ≤ canfire
  first_le : canfire ≤ firstFire
  last_le : firstFire ≤ lastFire

/-- An insertion within one second. -/
def Clock.still (t : ℤ) : Clock := ⟨t, t, t, t, t, t, le_rfl, le_rfl, le_rfl, le_rfl, le_rfl⟩

theorem Clock.evCreate_le_canfire (clk : Clock) : clk.evCreate ≤ clk.canfire :=
  clk.occur_le.trans clk.canfire_le

/-- `fmd_case_create` -/
def fmdCaseCreate (clk : Clock) (addr : ℕ) (pevt : FmdEvent) : FmdCase where
  addr := addr
  devName := pevt.devName
  devId := pevt.devId
  lastEclass := pevt.evClass
  csFlag := .create
  csCreate := clk.csCreate

/-- `fmd_case_fire`, up to the call of `put_to_agents`: the case and the fault copy. -/
def fmdCaseFire (clk : Clock) (addr : ℕ) (pcase : FmdCase) (pevt : FmdEvent) :
    FmdCase × FmdEvent :=
  let pcase := if pcase.csFireCounts = 0
    then { pcase with csFirstFire := clk.firstFire, csLastFire := clk.lastFire }
    else { pcase with csLastFire := clk.lastFire }
  let pcase := { pcase with csFireCounts := pcase.csFireCounts + 1, csFlag := .fired }
  (pcase,
    { addr := addr
      devName := pevt.devName
      evClass := pevt.evClass
      devId := pevt.devId
      evtId := pevt.evtId
      data := pevt.data
      repairedN := pevt.repairedN
      repairedT := pevt.repairedT
      evFlag := .agentTodo
      eventType := .fault
      evRefs := pcase.csFireCounts })

/-- `fmd_case_canfire` -/
def fmdCaseCanfire (now : ℤ) (pevt : FmdEvent) : Bool :=
  pevt.eventType == .fault || (decide (pevt.N ≤ pevt.evCount) && decide (now - pevt.evCreate < pevt.T))

/-- What an insertion leaves: the case, the event as it goes to the agents, the fault if one fires. -/
structure Added where
  pcase : FmdCase
  pevt : FmdEvent
  pfault : Option FmdEvent
  deriving DecidableEq, Repr

/-- The merge test of `fmd_event_add`. -/
def sameEvtId (pevt : FmdEvent) (e : FmdEvent) : Bool := decide (e.evtId = pevt.evtId)

/-- What a hit does to the stored event. -/
def countHit (pevt : FmdEvent) (e : FmdEvent) : FmdEvent :=
  { e with evCount := e.evCount + 1, evLastOccur := pevt.evCreate }

/-- The end of `fmd_event_add`, with the event `pEvent` whose counter was raised. -/
def fmdEventCount (clk : Clock) (addr : ℕ) (pcase : FmdCase) (pevt pEvent : FmdEvent) : Added :=
  let pcase := { pcase with
    csTotalCount := pcase.csTotalCount + 1
    mEventUsing := pcase.mEventUsing + 1 }
  if fmdCaseCanfire clk.canfire pEvent then
    let r := fmdCaseFire clk addr pcase pevt
    ⟨r.1, pevt, some r.2⟩
  else ⟨pcase, pevt, none⟩

/-- `fmd_event_add`, with the name a fault copy would get. -/
def fmdEventAdd (clk : Clock) (addr : ℕ) (pcase : FmdCase) (pevt : FmdEvent) : Added :=
  let pevt := { pevt with pCase := some pcase.addr }
  match pcase.csEvent.find? (sameEvtId pevt) with
  | some pEvent =>
    fmdEventCount clk addr
      { pcase with csEvent := modifyFirst (sameEvtId pevt) (countHit pevt) pcase.csEvent } pevt
      (countHit pevt pEvent)
  | none =>
    let pevt := { pevt with
      evCount := pevt.evCount + 1
      evCreate := clk.evCreate
      evLastOccur := clk.evLastOccur }
    fmdEventCount clk addr
      { pcase with csEvent := pevt :: pcase.csEvent, lastEclass := pevt.evClass } pevt pevt

/-- The search of `add_case_list`. -/
def sameDevice (pevt : FmdEvent) (c : FmdCase) : Bool :=
  decide (c.devName = pevt.devName) && decide (c.devId = pevt.devId)

/-- `add_case_list`, with the names a fault copy and a new case would get. -/
def addCaseList (clk : Clock) (addr newCase : ℕ) (listCase : List FmdCase) (pevt : FmdEvent) :
    List FmdCase × Added :=
  match listCase.find? (sameDevice pevt) with
  | some pcase =>
    let r := fmdEventAdd clk addr pcase pevt
    (modifyFirst (sameDevice pevt) (fun _ => r.pcase) listCase, r)
  | none =>
    let r := fmdEventAdd clk addr (fmdCaseCreate clk newCase pevt) pevt
    (r.pcase :: listCase, r)

/-- `fmd_case_insert`, up to the call of `put_to_agents`. -/
def fmdCaseInsert (esc : FmdEsc) (clk : Clock) (addr newCase : ℕ) (listCase : List FmdCase)
    (pevt : FmdEvent) : List FmdCase × Added :=
  addCaseList clk addr newCase listCase (fmdCaseClassify esc pevt)

/-- `fmd_case_find_and_delete` from the case at the front of the list on; `ring` are the cases linked
in `fmd.list_case`. -/
def findAndDelete (ring : List ℕ) (pevt : FmdEvent) : List FmdCase → List FmdCase × ℤ
  | [] => ([], -1)
  | pcase :: rest =>
    let next := findAndDelete ring pevt rest
    if 0 < pcase.mEventUsing then (pcase :: next.1, next.2)
    else if sameDevice pevt pcase then
      if pevt.agentResult = .isolatedSuccess then (rest, 0)
      else if pcase.csEvent.any (sameEvtId pevt) then
        -- the emptiness test is made on the link of the case, not on its event list
        if listEmpty ring (.entry pcase.addr) then (rest, 0)
        else ({ pcase with csEvent := pcase.csEvent.eraseP (sameEvtId pevt) } :: rest, 0)
      else (pcase :: next.1, next.2)
    else (pcase :: next.1, next.2)

/-- `fmd_case_find_and_delete` -/
def fmdCaseFindAndDelete (pevt : FmdEvent) (listCase : List FmdCase) : List FmdCase × ℤ :=
  findAndDelete (listCase.map FmdCase.addr) pevt listCase

/-! ## Classification -/

theorem faultRule_eq (esc : FmdEsc) (pevt : FmdEvent) :
    ∃ ty, faultRule esc pevt = { pevt with eventType := ty } := by
  unfold faultRule
  cases esc.fault? pevt.evClass with
  | some p => exact ⟨_, rfl⟩
  | none => exact ⟨pevt.eventType, rfl⟩

theorem serdRule_eq (esc : FmdEsc) (pevt : FmdEvent) :
    ∃ ty n t, serdRule esc pevt = { pevt with eventType := ty, N := n, T := t } := by
  unfold serdRule
  cases esc.serd? pevt.evClass with
  | some p => exact ⟨_, _, _, rfl⟩
  | none => exact ⟨pevt.eventType, pevt.N, pevt.T, rfl⟩

theorem fmdCaseClassify_eq (esc : FmdEsc) (pevt : FmdEvent) :
    ∃ ty n t, fmdCaseClassify esc pevt = { pevt with eventType := ty, N := n, T := t } := by
  obtain ⟨ty, hf⟩ := faultRule_eq esc pevt
  obtain ⟨ty', n, t, hs⟩ := serdRule_eq esc { pevt with eventType := ty }
  rw [fmdCaseClassify, hf, hs]
  split_ifs
  · exact ⟨_, _, _, rfl⟩
  · exact ⟨_, _, _, rfl⟩

/-! ## Insertion -/

section Insert

variable (clk : Clock) (addr : ℕ) (pcase : FmdCase) (pevt : FmdEvent)

@[simp] theorem sameEvtId_iff {pevt e : FmdEvent} : sameEvtId pevt e = true ↔ e.evtId = pevt.evtId := by
  simp [sameEvtId]

@[simp] theorem sameDevice_iff {pevt : FmdEvent} {c : FmdCase} :
    sameDevice pevt c = true ↔ c.device = pevt.device := by
  simp [sameDevice, FmdCase.device, FmdEvent.device]

@[simp] theorem countHit_evtId (e : FmdEvent) : (countHit pevt e).evtId = e.evtId := rfl
@[simp] theorem countHit_device (e : FmdEvent) : (countHit pevt e).device = e.device := rfl
@[simp] theorem countHit_addr (e : FmdEvent) : (countHit pevt e).addr = e.addr := rfl
@[simp] theorem countHit_data (e : FmdEvent) : (countHit pevt e).data = e.data := rfl
@[simp] theorem countHit_evClass (e : FmdEvent) : (countHit pevt e).evClass = e.evClass := rfl

/-- A fault copy of `pevt`. -/
structure IsFaultOf (addr : ℕ) (pevt f : FmdEvent) : Prop where
  addr_eq : f.addr = addr
  flag : f.evFlag = .agentTodo
  pCase : f.pCase = none
  device : f.device = pevt.device
  evtId : f.evtId = pevt.evtId
  evClass : f.evClass = pevt.evClass
  data : f.data = pevt.data

theorem fmdCaseFire_snd : IsFaultOf addr pevt (fmdCaseFire clk addr pcase pevt).2 :=
  ⟨rfl, rfl, rfl, rfl, rfl, rfl, rfl⟩

theorem fmdCaseFire_fst :
    (fmdCaseFire clk addr pcase pevt).1.addr = pcase.addr ∧
    (fmdCaseFire clk addr pcase pevt).1.device = pcase.device ∧
    (fmdCaseFire clk addr pcase pevt).1.csEvent = pcase.csEvent ∧
    (fmdCaseFire clk addr pcase pevt).1.mEventUsing = pcase.mEventUsing := by
  unfold fmdCaseFire
  split_ifs
  · exact ⟨rfl, rfl, rfl, rfl⟩
  · exact ⟨rfl, rfl, rfl, rfl⟩

variable (pEvent : FmdEvent)

@[simp] theorem fmdEventCount_pevt : (fmdEventCount clk addr pcase pevt pEvent).pevt = pevt := by
  unfold fmdEventCount
  split_ifs <;> rfl

theorem fmdEventCount_pcase :
    (fmdEventCount clk addr pcase pevt pEvent).pcase.addr = pcase.addr ∧
    (fmdEventCount clk addr pcase pevt pEvent).pcase.device = pcase.device ∧
    (fmdEventCount clk addr pcase pevt pEvent).pcase.csEvent = pcase.csEvent ∧
    (fmdEventCount clk addr pcase pevt pEvent).pcase.mEventUsing = pcase.mEventUsing + 1 := by
  unfold fmdEventCount
  split_ifs
  · exact fmdCaseFire_fst clk addr _ pevt
  · exact ⟨rfl, rfl, rfl, rfl⟩

theorem fmdEventCount_pfault :
    (fmdEventCount clk addr pcase pevt pEvent).pfault.isSome = fmdCaseCanfire clk.canfire pEvent := by
  unfold fmdEventCount
  split_ifs with h
  · exact h.symm
  · exact (Bool.not_eq_true _).mp h |>.symm

theorem fmdEventCount_isFaultOf {f : FmdEvent}
    (h : (fmdEventCount clk addr pcase pevt pEvent).pfault = some f) : IsFaultOf addr pevt f := by
  unfold fmdEventCount at h
  split_ifs at h with hc
  · cases h
    exact fmdCaseFire_snd clk addr _ pevt

/-- The event as `fmd_event_add` stores it. -/
def storedEvent : FmdEvent :=
  { pevt with
    pCase := some pcase.addr
    evCount := pevt.evCount + 1
    evCreate := clk.evCreate
    evLastOccur := clk.evLastOccur }

theorem fmdEventAdd_hit {e : FmdEvent} (h : pcase.csEvent.find? (sameEvtId pevt) = some e) :
    fmdEventAdd clk addr pcase pevt = fmdEventCount clk addr
      { pcase with csEvent := modifyFirst (sameEvtId pevt) (countHit pevt) pcase.csEvent }
      { pevt with pCase := some pcase.addr } (countHit pevt e) := by
  have h' : pcase.csEvent.find? (sameEvtId { pevt with pCase := some pcase.addr }) = some e := h
  simp only [fmdEventAdd, h']
  rfl

theorem fmdEventAdd_stored (h : pcase.csEvent.find? (sameEvtId pevt) = none) :
    fmdEventAdd clk addr pcase pevt = fmdEventCount clk addr
      { pcase with
        csEvent := storedEvent clk pcase pevt :: pcase.csEvent
        lastEclass := pevt.evClass }
      (storedEvent clk pcase pevt) (storedEvent clk pcase pevt) := by
  have h' : pcase.csEvent.find? (sameEvtId { pevt with pCase := some pcase.addr }) = none := h
  simp only [fmdEventAdd, h']
  rfl

/-- What one insertion does to a case: the event is counted at the stored event with its `evt_id`, or
it is stored. -/
inductive EventAdded : Added → Prop
  | hit (l₁ : List FmdEvent) (e : FmdEvent) (l₂ : List FmdEvent) (r : Added)
      (split : pcase.csEvent = l₁ ++ e :: l₂) (same : e.evtId = pevt.evtId)
      (first : ∀ x ∈ l₁, x.evtId ≠ pevt.evtId)
      (csEvent : r.pcase.csEvent = l₁ ++ countHit pevt e :: l₂)
      (pevt_eq : r.pevt = { pevt with pCase := some pcase.addr })
      (fires : r.pfault.isSome = fmdCaseCanfire clk.canfire (countHit pevt e)) : EventAdded r
  | stored (r : Added) (fresh : ∀ x ∈ pcase.csEvent, x.evtId ≠ pevt.evtId)
      (csEvent : r.pcase.csEvent = storedEvent clk pcase pevt :: pcase.csEvent)
      (pevt_eq : r.pevt = storedEvent clk pcase pevt)
      (fires : r.pfault.isSome = fmdCaseCanfire clk.canfire (storedEvent clk pcase pevt)) :
      EventAdded r

theorem fmdEventAdd_cases : EventAdded clk pcase pevt (fmdEventAdd clk addr pcase pevt) := by
  have hid {x : FmdEvent} (h : sameEvtId pevt x = false) : x.evtId ≠ pevt.evtId := by
    rwa [sameEvtId, decide_eq_false_iff_not] at h
  cases hf : pcase.csEvent.find? (sameEvtId pevt) with
  | some e =>
    rw [fmdEventAdd_hit clk addr pcase pevt hf]
    obtain ⟨he, l₁, l₂, hl, hn⟩ := find?_split hf
    refine .hit l₁ e l₂ _ hl (sameEvtId_iff.mp he) (fun x hx => hid (hn x hx)) ?_ ?_ ?_
    · rw [(fmdEventCount_pcase ..).2.2.1]
      simp only [hl]
      exact modifyFirst_split _ l₂ hn he
    · exact fmdEventCount_pevt ..
    · exact fmdEventCount_pfault ..
  | none =>
    rw [fmdEventAdd_stored clk addr pcase pevt hf]
    refine .stored _ (fun x hx => hid (find?_none hf x hx)) ?_ ?_ ?_
    · exact (fmdEventCount_pcase ..).2.2.1
    · exact fmdEventCount_pevt ..
    · exact fmdEventCount_pfault ..

/-- The fields of the case an insertion does not touch, and the use counter. -/
theorem fmdEventAdd_pcase :
    (fmdEventAdd clk addr pcase pevt).pcase.addr = pcase.addr ∧
    (fmdEventAdd clk addr pcase pevt).pcase.device = pcase.device ∧
    (fmdEventAdd clk addr pcase pevt).pcase.mEventUsing = pcase.mEventUsing + 1 := by
  cases hf : pcase.csEvent.find? (sameEvtId pevt) with
  | some e =>
    rw [fmdEventAdd_hit clk addr pcase pevt hf]
    obtain ⟨h1, h2, -, h4⟩ := fmdEventCount_pcase clk addr _ _ _
    exact ⟨h1, h2, h4⟩
  | none =>
    rw [fmdEventAdd_stored clk addr pcase pevt hf]
    obtain ⟨h1, h2, -, h4⟩ := fmdEventCount_pcase clk addr _ _ _
    exact ⟨h1, h2, h4⟩

theorem fmdEventAdd_pevt :
    (fmdEventAdd clk addr pcase pevt).pevt.pCase = some pcase.addr ∧
    (fmdEventAdd clk addr pcase pevt).pevt.evFlag = pevt.evFlag ∧
    (fmdEventAdd clk addr pcase pevt).pevt.device = pevt.device ∧
    (fmdEventAdd clk addr pcase pevt).pevt.evtId = pevt.evtId ∧
    (fmdEventAdd clk addr pcase pevt).pevt.data = pevt.data ∧
    (fmdEventAdd clk addr pcase pevt).pevt.addr = pevt.addr := by
  cases fmdEventAdd_cases clk addr pcase pevt with
  | hit l₁ e l₂ r _ _ _ _ h _ => rw [h]; exact ⟨rfl, rfl, rfl, rfl, rfl, rfl⟩
  | stored r _ _ h _ => rw [h]; exact ⟨rfl, rfl, rfl, rfl, rfl, rfl⟩

theorem fmdEventAdd_isFaultOf {f : FmdEvent} (h : (fmdEventAdd clk addr pcase pevt).pfault = some f) :
    IsFaultOf addr pevt f := by
  cases hf : pcase.csEvent.find? (sameEvtId pevt) with
  | some e =>
    rw [fmdEventAdd_hit clk addr pcase pevt hf] at h
    obtain ⟨h1, h2, h3, h4, h5, h6, h7⟩ := fmdEventCount_isFaultOf _ _ _ _ _ h
    exact ⟨h1, h2, h3, h4, h5, h6, h7⟩
  | none =>
    rw [fmdEventAdd_stored clk addr pcase pevt hf] at h
    obtain ⟨h1, h2, h3, h4, h5, h6, h7⟩ := fmdEventCount_isFaultOf _ _ _ _ _ h
    exact ⟨h1, h2, h3, h4, h5, h6, h7⟩

end Insert

/-- What an insertion does to the list: the first case of the device takes the event, or a new case
at the head of the list does. -/
inductive CaseAdded (clk : Clock) (addr newCase : ℕ) (listCase : List FmdCase) (pevt : FmdEvent) :
    List FmdCase × Added → Prop
  | found (l₁ : List FmdCase) (c : FmdCase) (l₂ : List FmdCase) (split : listCase = l₁ ++ c :: l₂)
      (same : c.device = pevt.device) (first : ∀ x ∈ l₁, x.device ≠ pevt.device) :
      CaseAdded clk addr newCase listCase pevt
        (l₁ ++ (fmdEventAdd clk addr c pevt).pcase :: l₂, fmdEventAdd clk addr c pevt)
  | created (fresh : ∀ x ∈ listCase, x.device ≠ pevt.device) :
      CaseAdded clk addr newCase listCase pevt
        ((fmdEventAdd clk addr (fmdCaseCreate clk newCase pevt) pevt).pcase :: listCase,
          fmdEventAdd clk addr (fmdCaseCreate clk newCase pevt) pevt)

theorem addCaseList_cases (clk : Clock) (addr newCase : ℕ) (listCase : List FmdCase)
    (pevt : FmdEvent) :
    CaseAdded clk addr newCase listCase pevt (addCaseList clk addr newCase listCase pevt) := by
  have hdev : ∀ {x : FmdCase}, sameDevice pevt x = false → x.device ≠ pevt.device := fun h he => by
    rw [← Bool.not_eq_true, sameDevice_iff] at h
    exact h he
  unfold addCaseList
  cases hf : listCase.find? (sameDevice pevt) with
  | some c =>
    obtain ⟨hc, l₁, l₂, hl, hn⟩ := find?_split hf
    simp only
    rw [hl, modifyFirst_split _ l₂ hn hc, ← hl]
    exact .found l₁ c l₂ hl (sameDevice_iff.mp hc) fun x hx => hdev (hn x hx)
  | none => exact .created fun x hx => hdev (find?_none hf x hx)

/-! ## Deletion -/

/-- A listed case of the device of `pevt`. -/
def CaseOf (listCase : List FmdCase) (pevt : FmdEvent) (c : FmdCase) : Prop :=
  c ∈ listCase ∧ c.device = pevt.device

/-- A case that holds an event with the `evt_id` of `pevt`. -/
def FmdCase.Holds (pevt : FmdEvent) (c : FmdCase) : Prop := ∃ e ∈ c.csEvent, e.evtId = pevt.evtId

instance (pevt : FmdEvent) (c : FmdCase) : Decidable (c.Holds pevt) :=
  inferInstanceAs (Decidable (∃ e ∈ c.csEvent, e.evtId = pevt.evtId))

/-- What a deletion can do. -/
inductive Deleted (pevt : FmdEvent) (listCase : List FmdCase) : List FmdCase × ℤ → Prop
  | case (l₁ : List FmdCase) (c : FmdCase) (l₂ : List FmdCase) (split : listCase = l₁ ++ c :: l₂)
      (result : pevt.agentResult = .isolatedSuccess) (idle : c.mEventUsing ≤ 0)
      (same : c.device = pevt.device) : Deleted pevt listCase (l₁ ++ l₂, 0)
  | event (l₁ : List FmdCase) (c : FmdCase) (l₂ : List FmdCase) (split : listCase = l₁ ++ c :: l₂)
      (result : pevt.agentResult ≠ .isolatedSuccess) (idle : c.mEventUsing ≤ 0)
      (same : c.device = pevt.device) (holds : c.Holds pevt) :
      Deleted pevt listCase
        (l₁ ++ { c with csEvent := c.csEvent.eraseP (sameEvtId pevt) } :: l₂, 0)
  | nothing (none : ∀ c, CaseOf listCase pevt c → 0 < c.mEventUsing ∨
      (pevt.agentResult ≠ .isolatedSuccess ∧ ¬ c.Holds pevt)) : Deleted pevt listCase (listCase, -1)

theorem findAndDelete_cases (ring : List ℕ) (pevt : FmdEvent) (listCase : List FmdCase)
    (hring : ∀ c ∈ listCase, listEmpty ring (.entry c.addr) = false) :
    Deleted pevt listCase (findAndDelete ring pevt listCase) := by
  induction listCase with
  | nil => exact .nothing fun c hc => absurd hc.1 List.not_mem_nil
  | cons c rest ih =>
    -- the search passes `c` and goes on with the rest of the list
    have pass (hc : c.device = pevt.device → 0 < c.mEventUsing ∨
        (pevt.agentResult ≠ .isolatedSuccess ∧ ¬ c.Holds pevt)) :
        Deleted pevt (c :: rest) (c :: (findAndDelete ring pevt rest).1,
          (findAndDelete ring pevt rest).2) := by
      generalize findAndDelete ring pevt rest = r at ih
      cases ih fun x hx => hring x (List.mem_cons_of_mem _ hx) with
      | case l₁ d l₂ hs hr hi hd => exact .case (c :: l₁) d l₂ (by rw [hs]; rfl) hr hi hd
      | event l₁ d l₂ hs hr hi hd hh => exact .event (c :: l₁) d l₂ (by rw [hs]; rfl) hr hi hd hh
      | nothing hn =>
        refine .nothing fun d hd => ?_
        rcases List.mem_cons.mp hd.1 with rfl | hm
        · exact hc hd.2
        · exact hn d ⟨hm, hd.2⟩
    rw [findAndDelete]
    by_cases hbusy : 0 < c.mEventUsing
    · rw [if_pos hbusy]
      exact pass fun _ => .inl hbusy
    rw [if_neg hbusy]
    by_cases hdev : sameDevice pevt c = true
    · rw [if_pos hdev]
      by_cases hiso : pevt.agentResult = .isolatedSuccess
      · rw [if_pos hiso]
        exact .case [] c rest rfl hiso (not_lt.mp hbusy) (sameDevice_iff.mp hdev)
      rw [if_neg hiso]
      by_cases hany : c.csEvent.any (sameEvtId pevt) = true
      · rw [if_pos hany, hring c List.mem_cons_self, if_neg Bool.false_ne_true]
        refine .event [] c rest rfl hiso (not_lt.mp hbusy) (sameDevice_iff.mp hdev) ?_
        obtain ⟨e, he, hs⟩ := List.any_eq_true.mp hany
        exact ⟨e, he, sameEvtId_iff.mp hs⟩
      · rw [if_neg hany]
        refine pass fun _ => .inr ⟨hiso, fun ⟨e, he, hs⟩ => hany ?_⟩
        exact List.any_eq_true.mpr ⟨e, he, sameEvtId_iff.mpr hs⟩
    · rw [if_neg hdev]
      exact pass fun h => absurd (sameDevice_iff.mpr h) hdev

/-- **Everything a deletion can do**, on a list of distinct cases: take one idle case of the device
off the list (after a successful isolation), take one event out of one idle case of the device, or
nothing, when no case of the device is idle and holds the event. The case stays on the list when its
last event goes. -/
theorem fmdCaseFindAndDelete_cases {listCase : List FmdCase} (h : (listCase.map FmdCase.addr).Nodup)
    (pevt : FmdEvent) : Deleted pevt listCase (fmdCaseFindAndDelete pevt listCase) :=
  findAndDelete_cases _ pevt listCase fun _ hc => listEmpty_entry h (List.mem_map_of_mem hc)

end Fms
