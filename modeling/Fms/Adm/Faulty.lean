import Fms.Adm.Caselist
import Fms.Dict.Create

/-!
# What `fmsadm faulty` shows

src/tools/fmsadm/faulty.c: the case list of the daemon, and what the dictionary says about its classes.

* `faultParts`: device and class from the text of a section; `tchdbGet2`: a lookup by strings;
* `getCasesFromFmd`, `printFru`, `printCatalog`, `cmdFaulty`: the command, without the layout of its lines;
* `shownOf`: what it should show of an event, by the map of the dictionary;
* **`cmdFaulty_shows`**: with a dictionary made from texts and a case list that can be read, it shows
  exactly that.
-/

namespace Fms

open CString TextFile Paging

/-! ## The command -/

/-- The value with the NUL that `tchdbget` puts behind it, as a string. -/
def textOf (vbuf : List UInt8) : CStr := content (vbuf.map fun b => Char.ofNat b.toNat)

/-- An error that the library returns; the others are undefined. -/
def HdbFault.reported : HdbFault → Bool
  | .uninit | .null | .endless => false
  | _ => true

/-- `tchdbget2`, with NULL for an error. -/
def tchdbGet2 (fuel : ℕ) (hdb : Tchdb) (kstr : CStr) : Option (Option CStr) :=
  match tchdbGet fuel hdb (bytesOf kstr) with
  | .ok vbuf => some (some (textOf vbuf))
  | .error e => if e.reported then some none else none

/-- A string as `sprintf` and `printf` write it. -/
def strOf (s : Option CStr) : CStr := s.getD "(null)".toList

/-- `status_record_t`, without `resource` and `asru`, which nothing prints. -/
structure StatusRecord where
  severity : Option CStr
  msgid : Option CStr
  eclass : CStr
  fru : Option CStr
  lastOccur : BitVec 64
  state : CsFlag
  count : BitVec 32
  create : BitVec 64
  deriving DecidableEq

/-- `fru` and `class` from `fafc_fault`; without a colon they are parts of one name. -/
def faultParts (fault : CStr) : Option (Option CStr × CStr) :=
  match strtok ':' fault with
  | none => none
  | some (fru, rest) =>
    match strtok ':' rest with
    | some (eclass, _) => some (some fru, eclass)
    | none =>
      match strtok '.' fru with
      | none => some (some fru, fru)
      | some (_, rest) => some ((strtok '.' rest).map Prod.fst, fru)

/-- The body of the loop over `cs_list`; `key` has 32 characters. -/
def statusRecord (fuel : ℕ) (hdbdict : Tchdb) (aci : FmdAdmCaseinfo) : Option StatusRecord := do
  let parts ← faultParts aci.fafc.fafcFault
  let msgid ← tchdbGet2 fuel hdbdict parts.2
  let key ← store 32 (strOf msgid ++ ".severity".toList)
  let severity ← tchdbGet2 fuel hdbdict key
  some {
    severity := severity
    msgid := msgid
    eclass := parts.2
    fru := parts.1
    lastOccur := aci.fafc.fafcFire
    state := aci.fafc.fafcState
    count := aci.fafc.fafcCount
    create := aci.fafc.fafcCreate }

/-- `status_rec_list` after the loop: `list_add` puts a record in front. -/
def statusRecords (fuel : ℕ) (hdbdict : Tchdb) (csList : List FmdAdmCaseinfo) : Option (List StatusRecord) :=
  csList.foldlM (fun recs aci => (statusRecord fuel hdbdict aci).map (· :: recs)) []

/-- What the tool works with: the dictionary file, the object that opens it, and the daemon. -/
structure FaultyEnv where
  fuel : ℕ
  hdb : Tchdb
  dict : List UInt8
  env : AdmEnv
  fmd : Fmd
  rounds : ℕ

def FaultyEnv.openDict (e : FaultyEnv) : Except HdbFault Tchdb := tchdbOpen e.hdb ⟨false, false, false⟩ e.dict

/-- `get_cases_from_fmd`; `none` is `die`. For the repaired cases `fmd_adm_case_dbiter` iterates over a
database that it has not opened. -/
def getCasesFromFmd (e : FaultyEnv) (type : CStr) : Outcome (Option (ℤ × List StatusRecord)) :=
  match e.openDict with
  | .error err => if err.reported then .returned (some (-1, [])) else .undefined
  | .ok hdbdict =>
    if strncmpEq type "repaired".toList 8 then .returned (some (-1, []))
    else
      match fmdAdmCaseIter e.env e.fmd 1 e.rounds with
      | .running => .running
      | .undefined => .undefined
      | .returned (ret, csList) =>
        if ret ≠ 0 then .returned none
        else
          match statusRecords e.fuel hdbdict csList with
          | none => .undefined
          | some recs => .returned (some (0, recs))

/-- A record as `print_fru` leaves it. -/
def StatusRecord.dated (srp : StatusRecord) : StatusRecord :=
  if srp.lastOccur = 0 then { srp with lastOccur := srp.create } else srp

/-- A row of `print_fru`. -/
structure FruRow where
  fru : CStr
  lastOccur : BitVec 64
  eclass : CStr
  count : BitVec 32
  deriving DecidableEq

def printFru (recs : List StatusRecord) : List FruRow :=
  (recs.map StatusRecord.dated).map fun srp => ⟨strOf srp.fru, srp.lastOccur, srp.eclass, srp.count⟩

/-- The lines of `print_dict_info`. -/
def dictHeads : List CStr :=
  ["class".toList, "description".toList, "response".toList, "impact".toList, "action".toList]

/-- `print_dict_info_line`, with the value that it prints. -/
def printDictInfoLine (fuel : ℕ) (hdb : Option Tchdb) (msgid linehdr : CStr) : Option (CStr × Option CStr) := do
  let key ← store 32 (msgid ++ '.' :: linehdr)
  match hdb with
  | none => some (linehdr, none)
  | some hdb => do
    let cp ← tchdbGet2 fuel hdb key
    some (linehdr, cp)

/-- What `print_status_record` prints. -/
structure ShownRecord where
  lastOccur : BitVec 64
  msgid : CStr
  severity : CStr
  fru : Option CStr
  info : List (CStr × Option CStr)
  deriving DecidableEq

/-- `print_status_record` and `print_dict_info`, which opens the dictionary again. -/
def printStatusRecord (e : FaultyEnv) (srp : StatusRecord) : Option ShownRecord := do
  let hdb ← match e.openDict with
    | .ok hdb => some (some hdb)
    | .error err => if err.reported then some none else none
  let info ← dictHeads.mapM (printDictInfoLine e.fuel hdb (strOf srp.msgid))
  some ⟨srp.lastOccur, strOf srp.msgid, strOf srp.severity, srp.fru, info⟩

def StatusRecord.skipped (srp : StatusRecord) : Bool := strncmpEq srp.eclass "list".toList 4 || srp.msgid.isNone

/-- The second loop of `print_catalog`: the records that it prints. -/
def catalogLoop : ℤ → List StatusRecord → List StatusRecord
  | _, [] => []
  | max, srp :: recs =>
    if max > 0 then
      if srp.skipped then catalogLoop max recs else srp :: catalogLoop (max - 1) recs
    else []

def printCatalog (e : FaultyEnv) (maxDisplay : ℤ) (recs : List StatusRecord) : Option (List ShownRecord) :=
  (if maxDisplay = 0 then recs.filter fun srp => !srp.skipped
    else if maxDisplay > 0 then catalogLoop maxDisplay recs else []).mapM (printStatusRecord e)

/-- The options of the command, as `getopt` leaves them. -/
structure FaultyOpts where
  s : Bool
  v : Bool
  maxFault : ℤ
  type : Option CStr

structure FaultyOut where
  rt : ℤ
  rows : List FruRow := []
  catalog : List ShownRecord := []
  deriving DecidableEq

/-- `cmd_faulty` behind its options; `none` is `die`. -/
def cmdFaulty (e : FaultyEnv) (o : FaultyOpts) : Outcome (Option FaultyOut) :=
  match o.type with
  | none => .returned (some { rt := -1 })
  | some type =>
    if !strncmpEq type "repaired".toList 8 && !strncmpEq type "happenning".toList 10 then .returned (some { rt := -1 })
    else
      match getCasesFromFmd e type with
      | .running => .running
      | .undefined => .undefined
      | .returned none => .returned none
      | .returned (some (rt, recs)) =>
        let rows := if o.s then printFru recs else []
        let recs := if o.s then recs.map StatusRecord.dated else recs
        match if o.v then printCatalog e o.maxFault recs else some [] with
        | none => .undefined
        | some catalog => .returned (some ⟨rt, rows, catalog⟩)

/-! ## What it should show -/

/-- What the dictionary says of a string. -/
def lookup (m : KeyMap) (s : CStr) : Option CStr := (m (bytesOf s)).map textOf

/-- The device of an event, as `fafc_fault` has it. -/
def deviceText (ep : FmdEvent) : CStr :=
  if (strstr "disk".toList ep.evClass).isSome then ep.devName else ep.devName ++ fmtInt ep.devId

/-- The device and the class of an event can be told apart, and the class is not the line feed. -/
def Plain (ep : FmdEvent) : Prop :=
  deviceText ep ≠ [] ∧ ':' ∉ deviceText ep ∧ ep.evClass ≠ [] ∧ ':' ∉ ep.evClass ∧ bytesOf ep.evClass ≠ newline

instance (ep : FmdEvent) : Decidable (Plain ep) := inferInstanceAs (Decidable (_ ∧ _))

/-- The longest key that is built from the message of a class fits 32 characters. -/
def MsgidFits (m : KeyMap) (ep : FmdEvent) : Prop := ∀ id, lookup m ep.evClass = some id → id.length < 20

instance (m : KeyMap) (ep : FmdEvent) : Decidable (MsgidFits m ep) :=
  inferInstanceAs (Decidable (∀ id ∈ lookup m ep.evClass, id.length < 20))

/-- The time of an event; `print_fru` takes that of its first occurrence where there is no other. -/
def shownTime (s : Bool) (ep : FmdEvent) : BitVec 64 :=
  if s ∧ BitVec.ofInt 64 ep.evLastOccur = 0 then BitVec.ofInt 64 ep.evCreate else BitVec.ofInt 64 ep.evLastOccur

/-- What the catalogue has of an event: nothing without a message in the dictionary. -/
def shownOf (m : KeyMap) (s : Bool) (ep : FmdEvent) : Option ShownRecord :=
  if "list".toList <+: ep.evClass then none
  else
    (lookup m ep.evClass).map fun id =>
      { lastOccur := shownTime s ep
        msgid := id
        severity := strOf (lookup m (id ++ ".severity".toList))
        fru := some (deviceText ep)
        info := dictHeads.map fun linehdr => (linehdr, lookup m (id ++ '.' :: linehdr)) }

/-- The row of an event. -/
def rowOf (ep : FmdEvent) : FruRow := ⟨deviceText ep, shownTime true ep, ep.evClass, BitVec.ofInt 32 ep.evCount⟩

/-- The first `n` of a list, or all of it. -/
def upTo {α : Type} (n : ℤ) (l : List α) : List α := if n = 0 then l else l.take n.toNat

/-- What the command should make of the events of the daemon. -/
def faultyOut (m : KeyMap) (o : FaultyOpts) (l : List (CsFlag × FmdEvent)) : FaultyOut where
  rt := 0
  rows := if o.s then l.map fun p => rowOf p.2 else []
  catalog := if o.v then upTo o.maxFault (l.filterMap fun p => shownOf m o.s p.2) else []

/-! ## The records -/

section
variable {m : KeyMap} {fuel : ℕ} {h : Tchdb}

/-- Lookups in an open dictionary are those in a map, but for the heads of the texts. -/
def Answers (fuel : ℕ) (h : Tchdb) (m : KeyMap) : Prop :=
  ∀ s, bytesOf s ≠ newline → tchdbGet2 fuel h s = some (lookup m s)

theorem Wf.answers {trees : ℕ → RecTree} (hw : Wf h trees) (hfuel : maxSteps ≤ fuel)
    (hm : Mirrors m (contents h.toHdbLayout trees)) (hne : ∀ kbuf, m kbuf ≠ some []) : Answers fuel h m := fun s hs => by
  have hrnum := hw.rnum_le
  rw [maxSteps] at hfuel
  have hget := tchdbGet_spec hw (bytesOf s) (show h.rnum < fuel by omega)
  rw [hm _ hs] at hget
  rw [tchdbGet2, lookup, hget]
  cases hv : m (bytesOf s) with
  | none => rfl
  | some v =>
    have hfilled : filled v = v := if_neg fun h => hne _ (h ▸ hv)
    rw [Option.map_some, hfilled]
    rfl

theorem bytesOf_ne_newline {s : CStr} (hs : 1 < s.length) : bytesOf s ≠ newline := fun h => by
  have hlen : (bytesOf s).length = 1 := congrArg List.length h
  rw [bytesOf, List.length_map] at hlen
  omega

theorem faultParts_plain {ep : FmdEvent} (hp : Plain ep) : faultParts (faultText ep) = some (some (deviceText ep), ep.evClass) := by
  obtain ⟨hdev, hdc, hclass, hcc, -⟩ := hp
  have htext : faultText ep = deviceText ep ++ ':' :: ep.evClass := by
    rw [faultText, deviceText]
    split_ifs with hd
    · rfl
    · rfl
  rw [faultParts, htext, strtok_append hdc hdev]
  simp only [strtok_last hcc hclass]

/-- The record of an event. -/
def recordOf (m : KeyMap) (p : CsFlag × FmdEvent) : StatusRecord where
  severity := lookup m (strOf (lookup m p.2.evClass) ++ ".severity".toList)
  msgid := lookup m p.2.evClass
  eclass := p.2.evClass
  fru := some (deviceText p.2)
  lastOccur := BitVec.ofInt 64 p.2.evLastOccur
  state := p.1
  count := BitVec.ofInt 32 p.2.evCount
  create := BitVec.ofInt 64 p.2.evCreate

theorem length_strOf_lt {ep : FmdEvent} (hfit : MsgidFits m ep) : (strOf (lookup m ep.evClass)).length < 20 := by
  cases hid : lookup m ep.evClass with
  | none => decide
  | some id => exact hfit id hid

theorem statusRecord_event (hr : Answers fuel h m) {p : CsFlag × FmdEvent} (hp : Plain p.2) (hfit : MsgidFits m p.2) :
    statusRecord fuel h (caseinfoOf p) = some (recordOf m p) := by
  have hlen := length_strOf_lt hfit
  have hkey : store 32 (strOf (lookup m p.2.evClass) ++ ".severity".toList) =
      some (strOf (lookup m p.2.evClass) ++ ".severity".toList) := by
    refine store_fits ?_
    have htext : ".severity".toList.length = 9 := rfl
    rw [List.length_append, htext]
    omega
  have hparts : faultParts (caseinfoOf p).fafc.fafcFault = some (some (deviceText p.2), p.2.evClass) := faultParts_plain hp
  have hsev : bytesOf (strOf (lookup m p.2.evClass) ++ ".severity".toList) ≠ newline := by
    refine bytesOf_ne_newline ?_
    have htext : ".severity".toList.length = 9 := rfl
    rw [List.length_append, htext]
    omega
  rw [statusRecord, hparts, Option.bind_eq_bind, Option.bind_some, hr _ hp.2.2.2.2, Option.bind_eq_bind, Option.bind_some,
    hkey, Option.bind_eq_bind, Option.bind_some, hr _ hsev]
  rfl

theorem statusRecords_events (hr : Answers fuel h m) (l : List (CsFlag × FmdEvent)) (hp : ∀ p ∈ l, Plain p.2)
    (hfit : ∀ p ∈ l, MsgidFits m p.2) :
    statusRecords fuel h (l.map caseinfoOf).reverse = some (l.map (recordOf m)) := by
  rw [statusRecords, List.foldlM_reverse]
  induction l with
  | nil => rfl
  | cons p l ih =>
    have hrest := ih (fun q hq => hp q (List.mem_cons_of_mem _ hq)) fun q hq => hfit q (List.mem_cons_of_mem _ hq)
    rw [List.map_cons, List.foldrM_cons, hrest, Option.bind_eq_bind, Option.bind_some,
      statusRecord_event hr (hp p List.mem_cons_self) (hfit p List.mem_cons_self)]
    rfl

/-! ## The catalogue -/

/-- A record as the catalogue gets it. -/
def recordFor (m : KeyMap) (s : Bool) (p : CsFlag × FmdEvent) : StatusRecord :=
  { recordOf m p with lastOccur := shownTime s p.2 }

theorem dated_recordOf (m : KeyMap) (p : CsFlag × FmdEvent) : (recordOf m p).dated = recordFor m true p := by
  rw [StatusRecord.dated, recordFor, shownTime]
  simp only [true_and]
  split_ifs with hz hz'
  · rfl
  · exact absurd hz hz'
  · exact absurd ‹_› hz
  · rfl

theorem recordFor_false (m : KeyMap) (p : CsFlag × FmdEvent) : recordFor m false p = recordOf m p := by
  rw [recordFor, shownTime, if_neg fun h => Bool.false_ne_true h.1]
  rfl

theorem printFru_events (m : KeyMap) (l : List (CsFlag × FmdEvent)) :
    printFru (l.map (recordOf m)) = l.map fun p => rowOf p.2 := by
  rw [printFru, List.map_map, List.map_map]
  refine List.map_congr_left fun p _ => ?_
  show FruRow.mk (strOf (recordOf m p).dated.fru) _ _ _ = _
  rw [dated_recordOf]
  rfl

/-- What is printed of a record. -/
def shown (m : KeyMap) (srp : StatusRecord) : ShownRecord where
  lastOccur := srp.lastOccur
  msgid := strOf srp.msgid
  severity := strOf srp.severity
  fru := srp.fru
  info := dictHeads.map fun linehdr => (linehdr, lookup m (strOf srp.msgid ++ '.' :: linehdr))

theorem length_dictHeads {linehdr : CStr} (hl : linehdr ∈ dictHeads) : 0 < linehdr.length ∧ linehdr.length ≤ 11 := by
  revert linehdr
  decide

theorem printStatusRecord_spec {e : FaultyEnv} (hopen : e.openDict = .ok h) (hr : Answers e.fuel h m) {srp : StatusRecord}
    (hlen : (strOf srp.msgid).length < 20) : printStatusRecord e srp = some (shown m srp) := by
  have hlines : dictHeads.mapM (printDictInfoLine e.fuel (some h) (strOf srp.msgid)) =
      some (dictHeads.map fun linehdr => (linehdr, lookup m (strOf srp.msgid ++ '.' :: linehdr))) := by
    refine mapM_of_forall fun linehdr hl => ?_
    obtain ⟨hpos, hle⟩ := length_dictHeads hl
    have hkey : store 32 (strOf srp.msgid ++ '.' :: linehdr) = some (strOf srp.msgid ++ '.' :: linehdr) := by
      refine store_fits ?_
      rw [List.length_append, List.length_cons]
      omega
    have hline : bytesOf (strOf srp.msgid ++ '.' :: linehdr) ≠ newline := by
      refine bytesOf_ne_newline ?_
      rw [List.length_append, List.length_cons]
      omega
    rw [printDictInfoLine, hkey, Option.bind_eq_bind, Option.bind_some]
    show (tchdbGet2 e.fuel h (strOf srp.msgid ++ '.' :: linehdr) >>= _) = _
    rw [hr _ hline]
    rfl
  rw [printStatusRecord, hopen]
  show (dictHeads.mapM (printDictInfoLine e.fuel (some h) (strOf srp.msgid)) >>= _) = _
  rw [hlines]
  rfl

theorem catalogLoop_eq (max : ℤ) (recs : List StatusRecord) :
    catalogLoop max recs = (recs.filter fun srp => !srp.skipped).take max.toNat := by
  induction recs generalizing max with
  | nil => rw [catalogLoop, List.filter_nil, List.take_nil]
  | cons srp recs ih =>
    rw [catalogLoop, ih max, ih (max - 1), List.filter_cons]
    split_ifs with hpos hskip hkeep hkeep
    · rw [hskip] at hkeep
      exact absurd hkeep Bool.false_ne_true
    · rfl
    · obtain ⟨n, hn⟩ : ∃ n : ℕ, max = n + 1 := ⟨(max - 1).toNat, by omega⟩
      rw [hn, show ((n : ℤ) + 1 - 1).toNat = n by omega, show ((n : ℤ) + 1).toNat = n + 1 by omega, List.take_succ_cons]
    · simp only [Bool.not_eq_true] at hskip
      rw [hskip] at hkeep
      exact absurd rfl hkeep
    · rw [show max.toNat = 0 by omega, List.take_zero]
    · rw [show max.toNat = 0 by omega, List.take_zero]

theorem shownOf_eq (m : KeyMap) (s : Bool) (p : CsFlag × FmdEvent) :
    shownOf m s p.2 = if (recordFor m s p).skipped then none else some (shown m (recordFor m s p)) := by
  have hskip : (recordFor m s p).skipped = (strncmpEq p.2.evClass "list".toList 4 || (lookup m p.2.evClass).isNone) := rfl
  have hlist : strncmpEq p.2.evClass "list".toList 4 = true ↔ "list".toList <+: p.2.evClass := by
    have hlen : "list".toList.length = 4 := rfl
    rw [← hlen]
    exact strncmpEq_right
  rw [shownOf, hskip]
  by_cases hl : "list".toList <+: p.2.evClass
  · rw [if_pos hl, hlist.mpr hl]
    rfl
  · rw [if_neg hl, Bool.eq_false_iff.mpr fun h => hl (hlist.mp h), Bool.false_or]
    cases hid : lookup m p.2.evClass with
    | none => rfl
    | some id =>
      rw [Option.map_some, Option.isNone_some, if_neg Bool.false_ne_true]
      simp only [shown, recordFor, recordOf, hid, strOf, Option.getD_some]

theorem printCatalog_events {e : FaultyEnv} (hopen : e.openDict = .ok h) (hr : Answers e.fuel h m) (n : ℤ) (s : Bool)
    (l : List (CsFlag × FmdEvent)) (hfit : ∀ p ∈ l, MsgidFits m p.2) :
    printCatalog e n (l.map (recordFor m s)) = some (upTo n (l.filterMap fun p => shownOf m s p.2)) := by
  have hkept : ((l.map (recordFor m s)).filter fun srp => !srp.skipped).map (shown m) =
      l.filterMap fun p => shownOf m s p.2 := by
    induction l with
    | nil => rfl
    | cons p l ih =>
      have hrest := ih fun q hq => hfit q (List.mem_cons_of_mem _ hq)
      rw [List.map_cons, List.filter_cons, List.filterMap_cons, shownOf_eq, ← hrest]
      cases (recordFor m s p).skipped with
      | true => rfl
      | false => rfl
  have hrecs : (if n = 0 then (l.map (recordFor m s)).filter fun srp => !srp.skipped
      else if n > 0 then catalogLoop n (l.map (recordFor m s)) else []) =
      upTo n ((l.map (recordFor m s)).filter fun srp => !srp.skipped) := by
    rw [upTo, catalogLoop_eq]
    split_ifs with hz hpos
    · rfl
    · rfl
    · rw [show n.toNat = 0 by omega, List.take_zero]
  have hprint : ∀ srp ∈ upTo n ((l.map (recordFor m s)).filter fun srp => !srp.skipped),
      printStatusRecord e srp = some (shown m srp) := fun srp hsrp => by
    have hmem : srp ∈ l.map (recordFor m s) := by
      rw [upTo] at hsrp
      split_ifs at hsrp
      · exact List.mem_of_mem_filter hsrp
      · exact List.mem_of_mem_filter (List.mem_of_mem_take hsrp)
    obtain ⟨p, hp, rfl⟩ := List.mem_map.mp hmem
    exact printStatusRecord_spec hopen hr (length_strOf_lt (hfit p hp))
  rw [printCatalog, hrecs, mapM_of_forall hprint, ← hkept, upTo, upTo]
  split_ifs
  · rfl
  · rw [List.map_take]

/-! ## The command -/

/-- A type that is neither the repaired cases nor unknown. -/
def Happening (type : CStr) : Prop := "happenning".toList <+: type

theorem cmdFaulty_reads {e : FaultyEnv} (hopen : e.openDict = .ok h) (hr : Answers e.fuel h m) {o : FaultyOpts} {type : CStr}
    (htype : o.type = some type) (hhap : Happening type) (hl : Readable (e.fmd.events 1))
    (hrounds : (e.fmd.events 1).length / fafNum < e.rounds) (hp : ∀ p ∈ e.fmd.events 1, Plain p.2)
    (hfit : ∀ p ∈ e.fmd.events 1, MsgidFits m p.2) :
    cmdFaulty e o = .returned (some (faultyOut m o (e.fmd.events 1))) := by
  obtain ⟨rest, rfl⟩ := hhap
  have hiter : fmdAdmCaseIter e.env e.fmd 1 e.rounds = .returned (0, ((e.fmd.events 1).map caseinfoOf).reverse) :=
    caseIter_lossless e.env e.fmd (Or.inl rfl) hl _ (i := 0) (Nat.zero_add _).symm hrounds
  have hrecs := statusRecords_events hr (e.fmd.events 1) hp hfit
  have hrepaired : strncmpEq ("happenning".toList ++ rest) "repaired".toList 8 = false := rfl
  have hhappening : strncmpEq ("happenning".toList ++ rest) "happenning".toList 10 = true := rfl
  have hcases : getCasesFromFmd e ("happenning".toList ++ rest) = .returned (some (0, (e.fmd.events 1).map (recordOf m))) := by
    rw [getCasesFromFmd, hopen]
    simp only [hrepaired, hiter, hrecs]
    rfl
  have hdated : (if o.s then ((e.fmd.events 1).map (recordOf m)).map StatusRecord.dated else (e.fmd.events 1).map (recordOf m)) =
      (e.fmd.events 1).map (recordFor m o.s) := by
    cases o.s with
    | true =>
      rw [if_pos rfl, List.map_map]
      exact List.map_congr_left fun p _ => dated_recordOf m p
    | false =>
      rw [if_neg Bool.false_ne_true]
      exact List.map_congr_left fun p _ => (recordFor_false m p).symm
  rw [cmdFaulty, htype]
  simp only [hrepaired, hhappening, hcases, hdated, printFru_events]
  rw [faultyOut]
  cases o.v with
  | true =>
    simp only [if_true, printCatalog_events hopen hr o.maxFault o.s (e.fmd.events 1) hfit]
    rfl
  | false => rfl

end

/-- **From the texts of a dictionary to what an administrator sees**: for each event of the daemon its row,
and in the catalogue those whose class the texts give a message. -/
theorem cmdFaulty_shows {g : Tchdb} (hg : Creatable g) {fuel n : ℕ} (hfuel : maxSteps ≤ fuel) (items : List PoItem)
    (texts : List (List PoItem)) (hgood : ∀ t ∈ items :: texts, GoodText n t)
    (hfull : ∀ t ∈ items :: texts, ∀ i ∈ t, i.Full)
    (hroom : (createFile g).fsiz + ((items :: texts).map (poCost (createFile g).toHdbLayout)).sum ≤ 2 ^ 31)
    {fmd : Fmd} (hl : Readable (fmd.events 1)) (hp : ∀ p ∈ fmd.events 1, Plain p.2)
    (hfit : ∀ p ∈ fmd.events 1, MsgidFits ((items :: texts).foldl poApply fun _ => none) p.2) :
    ∃ dict, createDicts fuel n g ((items :: texts).map renderAll) = .ok dict ∧
      ∀ hdb env rounds, (fmd.events 1).length / fafNum < rounds → ∀ s v maxFault type, Happening type →
        cmdFaulty ⟨fuel, hdb, dict, env, fmd, rounds⟩ ⟨s, v, maxFault, some type⟩ =
          .returned (some (faultyOut ((items :: texts).foldl poApply fun _ => none) ⟨s, v, maxFault, some type⟩ (fmd.events 1))) := by
  obtain ⟨dict, hrun, h, trees, hd, rfl, hlayout, -, hm⟩ := createDicts_lies hg hfuel items texts hgood hroom
  refine ⟨h.file, hrun, fun hdb env rounds hrounds s v maxFault type hhap => ?_⟩
  obtain ⟨h₁, hopen, hop⟩ := tchdbOpen_disk hd hdb ⟨false, false, false⟩ rfl
  have hmirrors := mirrors_texts (items :: texts) mirrors_none
  rw [← hm, ← hlayout, ← hop.layout] at hmirrors
  have hr := hop.disk.wf.answers hfuel hmirrors (foldl_poApply_ne_nil (items :: texts) hfull fun _ => nofun)
  exact cmdFaulty_reads (e := ⟨fuel, hdb, h.file, env, fmd, rounds⟩) hopen hr rfl hhap hl hrounds hp hfit

/-- A case of a disk. -/
def diskCase : FmdCase where
  addr := 1
  devName := "/dev/sdb".toList
  devId := 0
  lastEclass := "ereport.disk.unhealthy".toList
  csFlag := .fired
  csCreate := 1
  csEvent := [{ diskRepair with evClass := "ereport.disk.unhealthy".toList, evCreate := 1, evCount := 3 }]

/-- The texts for it. -/
def diskTexts : List PoItem :=
  [.line "# disk".toList, .entry [] [], .entry "ereport.disk.unhealthy".toList "FMS-1".toList,
    .entry "FMS-1.severity".toList "major".toList]

theorem cmdFaulty_shows_disk :
    ∃ dict, createDicts maxSteps 10 tchdbNew ([diskTexts].map renderAll) = .ok dict ∧
      ∀ hdb env rounds, (Fmd.events { listCase := [diskCase] } 1).length / fafNum < rounds → ∀ s v maxFault type,
        Happening type →
        cmdFaulty ⟨maxSteps, hdb, dict, env, { listCase := [diskCase] }, rounds⟩ ⟨s, v, maxFault, some type⟩ =
          .returned (some (faultyOut ([diskTexts].foldl poApply fun _ => none) ⟨s, v, maxFault, some type⟩
            (Fmd.events { listCase := [diskCase] } 1))) :=
  cmdFaulty_shows creatable_tchdbNew le_rfl diskTexts [] (by decide) (by decide) (by decide)
    ⟨by decide, by decide, by decide⟩ (by decide) (by decide)

end Fms
