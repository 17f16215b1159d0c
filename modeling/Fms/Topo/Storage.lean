import Fms.Lib.DirWalk
import Fms.Lib.Hex
import Fms.Lib.ListHead
import Fms.Topo.Tree

/-!
# The block devices of a storage controller

lib/libtopo/storage.c: `fmd_scan_pci_storage` goes down from the directory of a controller through
its hosts, targets and logical units. A node is allocated for every entry of a target, and linked to
`list_storage` once for every block device of the unit.

* `fmdScanPciStorage`: the nested loops, on a ring of pointers;
* **`runs_storage`**: the scan, as a sequence of `StorageVisit`s;
* **`storageList_iff`**: when the list stays a ring with one entry for each device.
-/

namespace Fms

open CString ListHead

/-! ## The list and its nodes -/

/-- The numbers of a logical unit. -/
structure Lun where
  host : ℕ
  channel : ℕ
  target : ℕ
  lun : ℕ
  deriving DecidableEq

/-- `topo_storage_t`: the controller, the numbers and `storage_name`. -/
structure StorageNode where
  chassis : ℕ := 0
  hostbridge : ℕ := 0
  slot : ℕ := 0
  func : ℕ := 0
  id : Lun := ⟨0, 0, 0, 0⟩
  name : Option CStr := none

/-- `list_storage` and the nodes; those from `fresh` on are not allocated. -/
structure StorageState where
  ring : Links ℕ := Links.init
  node : ℕ → StorageNode := fun _ => {}
  fresh : ℕ := 0

namespace StorageState

variable (ppci : TopoPci) (st : StorageState)

/-- `malloc`, `memset` and the fields of the controller. -/
def alloc : StorageState :=
  { st with
    node := Function.update st.node st.fresh
      { chassis := ppci.chassis, hostbridge := ppci.hostbridge, slot := ppci.slot, func := ppci.func }
    fresh := st.fresh + 1 }

/-- `storage_host`, `storage_channel`, `storage_target` and `storage_lun` -/
def setId (pstr : ℕ) (id : Lun) : StorageState :=
  { st with node := Function.update st.node pstr { st.node pstr with id := id } }

/-- `storage_name` and `list_add`. -/
def link (pstr : ℕ) (name : CStr) : StorageState :=
  { st with
    node := Function.update st.node pstr { st.node pstr with name := some name }
    ring := st.ring.listAdd pstr }

end StorageState

/-! ## The directories -/

/-- A logical unit: the entries of its directory, and the names below them. -/
abbrev LunDir := List (Dirent (List CStr))

/-- An entry of a target: a unit, which the kernel names by its numbers, or something else. -/
inductive TargetEntry where
  | lun (id : Lun) (sub : Option LunDir)
  | other (name : CStr) (hname : ':' ∉ name)

/-- `%d:%d:%d:%llu` -/
def Lun.name (id : Lun) : CStr :=
  Nat.toDigits 10 id.host ++ ':' :: (Nat.toDigits 10 id.channel ++
    ':' :: (Nat.toDigits 10 id.target ++ ':' :: Nat.toDigits 10 id.lun))

def TargetEntry.name : TargetEntry → CStr
  | .lun id _ => id.name
  | .other name _ => name

def TargetEntry.sub : TargetEntry → Option LunDir
  | .lun _ sub => sub
  | .other _ _ => none

abbrev TargetDir := List TargetEntry
abbrev HostDir := List (Dirent TargetDir)
abbrev PciDir := List (Dirent HostDir)

/-- `dp->d_name[0] == '.'` -/
def isDot (name : CStr) : Bool := name.head? = some '.'

/-- `sprintf(.., "%s/%s", dir, name)` -/
def subPath (dir name : CStr) : CStr := dir ++ '/' :: name

/-! ## The scan -/

/-- `/sys/bus/pci/devices/xxxx:xx:xx.x/hostsX/targetX:X:X/X:X:X:X/block:sdx` -/
def scanBlock (dir3 : CStr) (pstr : ℕ) (e : Dirent (List CStr)) (st : StorageState) :
    Option (StorageState × Bool) :=
  if isDot e.name then some (st, true)
  else if strncmpEq e.name "block".toList 5 then
    if (strchr ':' e.name).isSome then some (st.link pstr (e.name.drop 6), true)
    else
      (store 100 (subPath dir3 e.name)).bind fun _ =>
        openDir (fun p4 st => if isDot p4 then some (st, true) else some (st.link pstr p4, true))
          e.sub st
  else some (st, true)

/-- `(uint8_t)strtol(token, NULL, 16)` -/
def readByte (token : CStr) : ℕ := (strtol16 token % 256).toNat

/-- `up[4]`, from the tokens of a name. -/
def lunOfTokens (tokens : List CStr) : Lun :=
  ⟨(tokens[0]?.map readByte).getD 0, (tokens[1]?.map readByte).getD 0,
    (tokens[2]?.map readByte).getD 0, (tokens[3]?.map readByte).getD 0⟩

/-- `/sys/bus/pci/devices/xxxx:xx:xx.x/hostsX/targetX:X:X/X:X:X:X` -/
def scanLun (ppci : TopoPci) (dir2 : CStr) (e : TargetEntry) (st : StorageState) :
    Option (StorageState × Bool) :=
  if isDot e.name then some (st, true)
  else
    let pstr := st.fresh
    (store 20 e.name).bind fun tmp =>
      if (strchr ':' e.name).isSome then
        -- up[4]
        if (strsepAll [':'] e.name).length ≤ 4 then
          (store 100 (subPath dir2 tmp)).bind fun dir3 =>
            openDir (scanBlock dir3 pstr) e.sub
              ((st.alloc ppci).setId pstr (lunOfTokens (strsepAll [':'] e.name)))
        else none
      else some (st.alloc ppci, true)

/-- `/sys/bus/pci/devices/xxxx:xx:xx.x/hostsx/targetx:x:x` -/
def scanTarget (ppci : TopoPci) (dir1 : CStr) (e : Dirent TargetDir) (st : StorageState) :
    Option (StorageState × Bool) :=
  if isDot e.name then some (st, true)
  else if strncmpEq e.name "target".toList 6 then
    (store 100 (subPath dir1 e.name)).bind fun dir2 => openDir (scanLun ppci dir2) e.sub st
  else some (st, true)

/-- `/sys/bus/pci/devices/xxxx:xx:xx.x/hostsx` -/
def scanHost (ppci : TopoPci) (dir : CStr) (e : Dirent HostDir) (st : StorageState) :
    Option (StorageState × Bool) :=
  if isDot e.name then some (st, true)
  else if strncmpEq e.name "host".toList 4 then
    (store 100 (subPath dir e.name)).bind fun dir1 => openDir (scanTarget ppci dir1) e.sub st
  else some (st, true)

/-- The directory of a controller. -/
def pciDir (ppci : TopoPci) : CStr :=
  "/sys/bus/pci/devices/".toList ++ (fmtHex 4 ppci.chassis ++ ':' :: (fmtHex 2 ppci.hostbridge ++
    ':' :: (fmtHex 2 ppci.slot ++ '.' :: fmtHex 1 ppci.func)))

/-- `fmd_scan_pci_storage`: `true` is `FMD_SUCCESS`, `false` is `OPENDIR_FAILED`. -/
def fmdScanPciStorage (ppci : TopoPci) (content : Option PciDir) (st : StorageState) :
    Option (StorageState × Bool) :=
  (store 100 (pciDir ppci)).bind fun dir => openDir (scanHost ppci dir) content st

/-! ## What a scan comes across -/

/-- An entry of a target for which a node is allocated: the numbers of a unit, and its block devices. -/
structure StorageVisit where
  id : Option Lun
  devices : List CStr

/-- The name of a block device in a directory `block`. -/
def nameWalk (p4 : CStr) : Walk CStr := if isDot p4 then {} else { items := [p4] }

/-- The names of the block devices that an entry of a unit gives. -/
def blockWalk (dir3 : CStr) (e : Dirent (List CStr)) : Walk CStr :=
  if isDot e.name then {}
  else if "block".toList <+: e.name then
    if ':' ∈ e.name then { items := [e.name.drop 6] }
    else (Walk.openWalk nameWalk e.sub).copy 100 (subPath dir3 e.name)
  else {}

/-- The visit of an entry of a target. -/
def lunWalk (dir2 : CStr) : TargetEntry → Walk StorageVisit
  | .lun id sub =>
    let w := Walk.openWalk (blockWalk (subPath dir2 id.name)) sub
    ({ w with items := [⟨some id, w.items⟩] } : Walk StorageVisit).copy 100 (subPath dir2 id.name)
      |>.copy 20 id.name
  | .other name _ =>
    if isDot name then {} else ({ items := [⟨none, []⟩] } : Walk StorageVisit).copy 20 name

def targetWalk (dir1 : CStr) (e : Dirent TargetDir) : Walk StorageVisit :=
  if isDot e.name then {}
  else if "target".toList <+: e.name then
    (Walk.openWalk (lunWalk (subPath dir1 e.name)) e.sub).copy 100 (subPath dir1 e.name)
  else {}

def hostWalk (dir : CStr) (e : Dirent HostDir) : Walk StorageVisit :=
  if isDot e.name then {}
  else if "host".toList <+: e.name then
    (Walk.openWalk (targetWalk (subPath dir e.name)) e.sub).copy 100 (subPath dir e.name)
  else {}

/-- The visits of a scan, in their order, up to a directory that cannot be opened. -/
def storageWalk (ppci : TopoPci) (content : Option PciDir) : Walk StorageVisit :=
  (Walk.openWalk (hostWalk (pciDir ppci)) content).copy 100 (pciDir ppci)

/-- The numbers as they are stored: the decimal digits are read as hexadecimal ones. -/
def Lun.stored (id : Lun) : Lun :=
  ⟨readByte (Nat.toDigits 10 id.host), readByte (Nat.toDigits 10 id.channel),
    readByte (Nat.toDigits 10 id.target), readByte (Nat.toDigits 10 id.lun)⟩

/-- The node of an entry of a target. -/
def visitStart (ppci : TopoPci) (st : StorageState) : Option Lun → StorageState
  | none => st.alloc ppci
  | some id => (st.alloc ppci).setId st.fresh id.stored

/-- What is done for one entry of a target. -/
def visitStep (ppci : TopoPci) (st : StorageState) (v : StorageVisit) : StorageState :=
  v.devices.foldl (·.link st.fresh ·) (visitStart ppci st v.id)

/-! ## The scan is its walk -/

variable {ppci : TopoPci}

theorem runs_entry {σ β : Type} {step : σ → β → σ} {name kind : CStr} {f : σ → Option (σ × Bool)}
    {w : Walk β} (h : Walk.Runs step f w) :
    Walk.Runs step
      (fun st =>
        if isDot name then some (st, true)
        else if strncmpEq name kind kind.length then f st
        else some (st, true))
      (if isDot name then {} else if kind <+: name then w else {}) := by
  by_cases hdot : isDot name
  · simp only [hdot, if_true]
    exact Walk.runs_none true
  by_cases hkind : kind <+: name
  · simp only [hdot, strncmpEq_right.mpr hkind, hkind, if_true]
    exact h
  · have hcmp : ¬ strncmpEq name kind kind.length = true := fun hc => hkind (strncmpEq_right.mp hc)
    simp only [hdot, hcmp, hkind, if_false]
    exact Walk.runs_none true

theorem runs_block (dir3 : CStr) (pstr : ℕ) (e : Dirent (List CStr)) :
    Walk.Runs (StorageState.link · pstr ·) (scanBlock dir3 pstr e) (blockWalk dir3 e) := by
  refine runs_entry ?_
  by_cases hcolon : ':' ∈ e.name
  · simp only [strchr_isSome.mpr hcolon, hcolon, if_true]
    exact Walk.runs_items [e.name.drop 6]
  · have hstr : ¬ (strchr ':' e.name).isSome = true := fun h => hcolon (strchr_isSome.mp h)
    simp only [hstr, hcolon, if_false]
    refine Walk.runs_copy (Walk.runs_openDir (fun p4 => ?_) e.sub)
    unfold nameWalk
    by_cases hd : isDot p4
    · simp only [hd, if_true]
      exact Walk.runs_none true
    · simp only [hd]
      exact Walk.runs_items [p4]

/-! ### The names of units -/

theorem isDot_name (id : Lun) : isDot id.name = false := by
  obtain ⟨c, cs, hc, hd⟩ := toDigits_cons id.host
  have hne : c ≠ '.' := by
    rintro rfl
    exact absurd hd (by decide)
  simp [isDot, Lun.name, hc, hne]

theorem colon_mem_name (id : Lun) : ':' ∈ id.name := by
  simp [Lun.name]

theorem strsepAll_name (id : Lun) : strsepAll [':'] id.name =
    [Nat.toDigits 10 id.host, Nat.toDigits 10 id.channel, Nat.toDigits 10 id.target,
      Nat.toDigits 10 id.lun] := by
  have hno : ∀ n, ∀ c ∈ Nat.toDigits 10 n, [':'].contains c = false := fun n c hc => by
    have hne : c ≠ ':' := by
      rintro rfl
      exact absurd (isDigit_of_mem_toDigits hc) (by decide)
    simp [hne]
  unfold strsepAll Lun.name
  rw [List.splitOnP_append_cons _ _ (by rfl), List.splitOnP_append_cons _ _ (by rfl),
    List.splitOnP_append_cons _ _ (by rfl)]
  simp only [List.splitOnP_eq_singleton (hno _)]
  rfl

theorem lunOfTokens_name (id : Lun) : lunOfTokens (strsepAll [':'] id.name) = id.stored := by
  rw [strsepAll_name]
  rfl

/-! ### Units, targets and hosts -/

theorem scanLun_lun (dir2 : CStr) (id : Lun) (sub : Option LunDir) :
    scanLun ppci dir2 (.lun id sub) = fun st =>
      (store 20 id.name).bind fun tmp => (store 100 (subPath dir2 tmp)).bind fun dir3 =>
        openDir (scanBlock dir3 st.fresh) sub ((st.alloc ppci).setId st.fresh id.stored) := by
  have hlen : (strsepAll [':'] id.name).length ≤ 4 := by
    rw [strsepAll_name]
    rfl
  funext st
  simp only [scanLun, TargetEntry.name, TargetEntry.sub, isDot_name,
    strchr_isSome.mpr (colon_mem_name id), hlen, lunOfTokens_name, if_true]
  rfl

theorem runs_lun (dir2 : CStr) (e : TargetEntry) :
    Walk.Runs (visitStep ppci) (scanLun ppci dir2 e) (lunWalk dir2 e) := by
  cases e with
  | lun id sub =>
    rw [scanLun_lun]
    exact Walk.runs_copy (Walk.runs_copy fun st =>
      Walk.runs_openDir (runs_block (subPath dir2 id.name) st.fresh) sub _)
  | other name hname =>
    have hstr : ¬ (strchr ':' name).isSome = true := fun h => hname (strchr_isSome.mp h)
    by_cases hdot : isDot name
    · intro st
      simp only [scanLun, lunWalk, TargetEntry.name, hdot, if_true]
      exact Walk.runs_none true st
    · have hone : Walk.Runs (visitStep ppci) (fun st => some (st.alloc ppci, true))
          ⟨[], [⟨none, []⟩], true⟩ :=
        Walk.runs_items ([⟨none, []⟩] : List StorageVisit)
      intro st
      simp only [scanLun, lunWalk, TargetEntry.name, hdot, hstr]
      exact Walk.runs_copy (f := fun _ st => some (st.alloc ppci, true)) hone st

theorem runs_target (dir1 : CStr) (e : Dirent TargetDir) :
    Walk.Runs (visitStep ppci) (scanTarget ppci dir1 e) (targetWalk dir1 e) :=
  runs_entry (Walk.runs_copy (Walk.runs_openDir (fun e => runs_lun _ e) e.sub))

theorem runs_host (dir : CStr) (e : Dirent HostDir) :
    Walk.Runs (visitStep ppci) (scanHost ppci dir e) (hostWalk dir e) :=
  runs_entry (Walk.runs_copy (Walk.runs_openDir (fun e => runs_target _ e) e.sub))

/-- **The scan is its walk.** -/
theorem runs_storage (content : Option PciDir) :
    Walk.Runs (visitStep ppci) (fmdScanPciStorage ppci content) (storageWalk ppci content) :=
  Walk.runs_copy (Walk.runs_openDir (fun e => runs_host _ e) content)

/-! ## One node, one device -/

/-- The name and the numbers of a node. -/
def StorageNode.entry (node : StorageNode) : Option CStr × Lun := (node.name, node.id)

/-- The numbers of the unit of a visit. -/
def StorageVisit.lun (v : StorageVisit) : Lun := v.id.getD ⟨0, 0, 0, 0⟩

/-- The block devices of a visit, with their own numbers. -/
def StorageVisit.found (v : StorageVisit) : List (Option CStr × Lun) :=
  v.devices.map fun name => (some name, v.lun)

/-- A ring of the nodes `l`, all of them allocated. -/
structure StorageRing (st : StorageState) (l : List ℕ) : Prop where
  ring : IsRing st.ring l
  allocated : ∀ a ∈ l, a < st.fresh

/-- The nodes `l` came to the ring of `st₀`, with the entries `es`. -/
structure StorageGood (st₀ : StorageState) (l₀ : List ℕ) (st : StorageState) (l : List ℕ)
    (es : List (Option CStr × Lun)) : Prop where
  ring : StorageRing st (l ++ l₀)
  entries : (l.map fun a => (st.node a).entry).Perm es
  old : ∀ a ∈ l₀, st.node a = st₀.node a

section
variable (st : StorageState) (id : Option Lun)

@[simp] theorem visitStart_ring : (visitStart ppci st id).ring = st.ring := by
  cases id <;> rfl

@[simp] theorem visitStart_fresh : (visitStart ppci st id).fresh = st.fresh + 1 := by
  cases id <;> rfl

theorem visitStart_node_of_ne {a : ℕ} (h : a ≠ st.fresh) :
    (visitStart ppci st id).node a = st.node a := by
  cases id <;> simp [visitStart, StorageState.alloc, StorageState.setId, h]

theorem visitStart_id : ((visitStart ppci st id).node st.fresh).id = (id.getD ⟨0, 0, 0, 0⟩).stored := by
  cases id with
  | none =>
    simp only [visitStart, StorageState.alloc, Function.update_self]
    rfl
  | some id => simp [visitStart, StorageState.alloc, StorageState.setId]

end

variable {st₀ st : StorageState} {l₀ l : List ℕ} {es : List (Option CStr × Lun)}

theorem StorageGood.entries_congr (h : StorageGood st₀ l₀ st l es) {st' : StorageState}
    (hnode : ∀ a < st.fresh, st'.node a = st.node a) :
    (l.map fun a => (st'.node a).entry).Perm es ∧ ∀ a ∈ l₀, st'.node a = st₀.node a := by
  have hmap : (l.map fun a => (st'.node a).entry) = l.map fun a => (st.node a).entry :=
    List.map_congr_left fun a ha => by
      rw [hnode a (h.ring.allocated a (List.mem_append_left l₀ ha))]
  refine ⟨hmap ▸ h.entries, fun a ha => ?_⟩
  rw [hnode a (h.ring.allocated a (List.mem_append_right l ha)), h.old a ha]

/-- A node that is allocated and not linked. -/
theorem StorageGood.start (h : StorageGood st₀ l₀ st l es) (id : Option Lun) :
    StorageGood st₀ l₀ (visitStart ppci st id) l es := by
  obtain ⟨hes, hold⟩ := h.entries_congr fun a ha => visitStart_node_of_ne st id ha.ne
  refine ⟨⟨?_, fun a ha => ?_⟩, hes, hold⟩
  · rw [visitStart_ring]
    exact h.ring.ring
  · rw [visitStart_fresh]
    exact (h.ring.allocated a ha).trans (Nat.lt_succ_self _)

theorem link_node_of_ne (st : StorageState) (name : CStr) {a pstr : ℕ} (ha : a ≠ pstr) :
    (st.link pstr name).node a = st.node a := Function.update_of_ne ha _ _

theorem link_entry (st : StorageState) (pstr : ℕ) (name : CStr) :
    ((st.link pstr name).node pstr).entry = (some name, (st.node pstr).id) := by
  simp only [StorageState.link, StorageNode.entry, Function.update_self]

theorem StorageGood.startLink (h : StorageGood st₀ l₀ st l es) (id : Option Lun) (name : CStr) :
    StorageGood st₀ l₀ ((visitStart ppci st id).link st.fresh name) (st.fresh :: l)
      (es ++ [(some name, (id.getD ⟨0, 0, 0, 0⟩).stored)]) := by
  have hnode : ∀ a < st.fresh,
      ((visitStart ppci st id).link st.fresh name).node a = st.node a := fun a ha => by
    rw [link_node_of_ne _ _ ha.ne, visitStart_node_of_ne st id ha.ne]
  obtain ⟨hes, hold⟩ := h.entries_congr hnode
  have hfresh : st.fresh ∉ l ++ l₀ := fun hmem => (h.ring.allocated _ hmem).false
  refine ⟨⟨?_, fun a ha => ?_⟩, ?_, hold⟩
  · rw [StorageState.link, visitStart_ring]
    exact h.ring.ring.listAdd hfresh
  · rw [StorageState.link, visitStart_fresh]
    rcases List.mem_cons.mp ha with rfl | ha
    · exact Nat.lt_succ_self _
    · exact (h.ring.allocated a ha).trans (Nat.lt_succ_self _)
  · rw [List.map_cons, link_entry, visitStart_id]
    exact (hes.cons _).trans (List.perm_append_singleton _ _).symm

/-- **A visit with one block device or none.** -/
theorem StorageGood.visit (ppci : TopoPci) (h : StorageGood st₀ l₀ st l es) {v : StorageVisit}
    (hv : v.devices.length ≤ 1) :
    ∃ l', StorageGood st₀ l₀ (visitStep ppci st v) l'
      (es ++ v.found.map fun e => (e.1, e.2.stored)) := by
  unfold visitStep StorageVisit.found
  match v.devices, hv with
  | [], _ =>
    refine ⟨l, ?_⟩
    rw [List.map_nil, List.map_nil, List.append_nil]
    exact h.start v.id
  | [name], _ => exact ⟨st.fresh :: l, h.startLink v.id name⟩

theorem StorageGood.visits (ppci : TopoPci) (h : StorageGood st₀ l₀ st l es) {vs : List StorageVisit}
    (hvs : ∀ v ∈ vs, v.devices.length ≤ 1) :
    ∃ l', StorageGood st₀ l₀ (vs.foldl (visitStep ppci) st) l'
      (es ++ (vs.flatMap StorageVisit.found).map fun e => (e.1, e.2.stored)) := by
  induction vs generalizing st l es with
  | nil =>
    refine ⟨l, ?_⟩
    rw [List.flatMap_nil, List.map_nil, List.append_nil]
    exact h
  | cons v vs ih =>
    rw [List.forall_mem_cons] at hvs
    obtain ⟨l', h'⟩ := h.visit ppci hvs.1
    rw [List.flatMap_cons, List.map_append, ← List.append_assoc]
    exact ih h' hvs.2

/-! ## One node, two devices -/

theorem foldl_link (pstr : ℕ) (names : List CStr) (st : StorageState) :
    (names.foldl (·.link pstr ·) st).ring = (Links.listAdd · pstr)^[names.length] st.ring ∧
      (names.foldl (·.link pstr ·) st).fresh = st.fresh := by
  induction names generalizing st with
  | nil => exact ⟨rfl, rfl⟩
  | cons name names ih => exact ih (st.link pstr name)

theorem visitStep_ring (st : StorageState) (v : StorageVisit) :
    (visitStep ppci st v).ring = (Links.listAdd · st.fresh)^[v.devices.length] st.ring := by
  rw [visitStep, (foldl_link _ _ _).1, visitStart_ring]

theorem visitStep_fresh (st : StorageState) (v : StorageVisit) :
    (visitStep ppci st v).fresh = st.fresh + 1 := by
  rw [visitStep, (foldl_link _ _ _).2, visitStart_fresh]

/-- The list does not close, for the allocated nodes. -/
def StorageBroken (st : StorageState) : Prop := Broken st.ring (· < st.fresh)

theorem storageBroken_visit (st : StorageState) {v : StorageVisit} (hv : 1 < v.devices.length) :
    StorageBroken (visitStep ppci st v) := by
  obtain ⟨k, hk⟩ := Nat.exists_eq_add_of_lt hv
  rw [StorageBroken, visitStep_ring, visitStep_fresh, hk,
    show 1 + k + 1 = (k + 1) + 1 by omega, Function.iterate_succ_apply']
  refine Broken.of_listAdd_first ?_ (Nat.lt_succ_self _)
  rw [Function.iterate_succ_apply']
  exact Links.listAdd_next_head _ _

theorem StorageBroken.visit (h : StorageBroken st) (v : StorageVisit) :
    StorageBroken (visitStep ppci st v) := by
  have hlt : ∀ c, c < st.fresh → c < st.fresh + 1 := fun c hc => hc.trans (Nat.lt_succ_self _)
  by_cases hv : 1 < v.devices.length
  · exact storageBroken_visit st hv
  rw [StorageBroken, visitStep_ring, visitStep_fresh]
  rcases Nat.le_one_iff_eq_zero_or_eq_one.mp (not_lt.mp hv) with h0 | h1
  · rw [h0]
    exact h.mono hlt
  · rw [h1]
    exact Broken.listAdd h (lt_irrefl _) hlt (Nat.lt_succ_self _)

theorem StorageBroken.visits (h : StorageBroken st) (vs : List StorageVisit) :
    StorageBroken (vs.foldl (visitStep ppci) st) := by
  induction vs generalizing st with
  | nil => exact h
  | cons v vs ih => exact ih (h.visit v)

/-- **Once a unit has two devices, the list does not close any more.** -/
theorem storageBroken_visits (st : StorageState) {vs : List StorageVisit} {v : StorageVisit}
    (hv : v ∈ vs) (hlen : 1 < v.devices.length) :
    StorageBroken (vs.foldl (visitStep ppci) st) := by
  obtain ⟨vs₁, vs₂, rfl⟩ := List.append_of_mem hv
  rw [List.foldl_append, List.foldl_cons]
  exact (storageBroken_visit _ hlen).visits vs₂

/-! ## Decimal numbers, read as hexadecimal ones -/

/-- The numbers of a unit are digits. -/
def Lun.OneDigit (id : Lun) : Prop := id.host < 10 ∧ id.channel < 10 ∧ id.target < 10 ∧ id.lun < 10

instance (id : Lun) : Decidable id.OneDigit :=
  inferInstanceAs (Decidable (id.host < 10 ∧ id.channel < 10 ∧ id.target < 10 ∧ id.lun < 10))

theorem Lun.stored_eq_iff {id : Lun} : id.stored = id ↔ id.OneDigit := by
  obtain ⟨host, channel, target, lun⟩ := id
  simp only [Lun.stored, Lun.OneDigit, Lun.mk.injEq, readByte, strtol16_toDigits_iff]

/-- `%d`, and back. -/
def reread (n : ℕ) : ℕ := readByte (Nat.toDigits 10 n)

theorem reread_lt (n : ℕ) : reread n < 256 := by
  unfold reread readByte
  omega

/-- The last two decimal digits, taken as hexadecimal ones. -/
def hexOfDecimal (n : ℕ) : ℕ := 16 * (n / 10 % 10) + n % 10

theorem reread_eq : ∀ n < 256, reread n = hexOfDecimal n := by
  decide +kernel

theorem iterate_hexOfDecimal_lt : ∀ n < 256, hexOfDecimal^[20] n < 10 := by
  decide +kernel

theorem iterate_reread_eq (k : ℕ) {n : ℕ} (hn : n < 256) : reread^[k] n = hexOfDecimal^[k] n := by
  induction k generalizing n with
  | zero => rfl
  | succ k ih =>
    rw [Function.iterate_succ_apply, Function.iterate_succ_apply, ← reread_eq n hn]
    exact ih (reread_lt n)

/-- **A number that is printed and read back time and again ends at a digit.** So the numbers of a
list that is only permuted by this are digits. -/
theorem lt_ten_of_perm_reread {S : List ℕ} (h : (S.map reread).Perm S) : ∀ n ∈ S, n < 10 := by
  have hiter : ∀ k, (S.map reread^[k]).Perm S := fun k => by
    induction k with
    | zero => simp
    | succ k ih =>
      rw [Function.iterate_succ, ← List.map_map]
      exact (h.map reread^[k]).trans ih
  intro n hn
  obtain ⟨m, -, rfl⟩ := List.mem_map.mp ((hiter 21).mem_iff.mpr hn)
  rw [Function.iterate_succ_apply, iterate_reread_eq 20 (reread_lt m)]
  exact iterate_hexOfDecimal_lt _ (reread_lt m)

/-! ## The list of a scan -/

/-- The block devices that a scan finds, with the numbers of their units. -/
def storageFound (ppci : TopoPci) (content : Option PciDir) : List (Option CStr × Lun) :=
  (storageWalk ppci content).items.flatMap StorageVisit.found

/-- After the scan the list is a ring, and the new nodes in front have the entries `es`. -/
def StorageListed (ppci : TopoPci) (content : Option PciDir) (st₀ : StorageState) (l₀ : List ℕ)
    (es : List (Option CStr × Lun)) : Prop :=
  ∃ st ok l, fmdScanPciStorage ppci content st₀ = some (st, ok) ∧ IsRing st.ring (l ++ l₀) ∧
    (l.map fun a => (st.node a).entry).Perm es ∧ ∀ a ∈ l₀, st.node a = st₀.node a

variable {content : Option PciDir}

theorem fmdScanPciStorage_eq (hfits : (storageWalk ppci content).Fits) (st₀ : StorageState) :
    fmdScanPciStorage ppci content st₀ =
      some ((storageWalk ppci content).items.foldl (visitStep ppci) st₀, (storageWalk ppci content).ok) := by
  rw [runs_storage, if_pos hfits]

theorem StorageListed.fits (h : StorageListed ppci content st₀ l₀ es) :
    (storageWalk ppci content).Fits ∧
      ∀ v ∈ (storageWalk ppci content).items, v.devices.length ≤ 1 := by
  obtain ⟨st, ok, l, hrun, hring, -⟩ := h
  have hfits : (storageWalk ppci content).Fits := by
    by_contra hno
    rw [runs_storage, if_neg hno] at hrun
    cases hrun
  refine ⟨hfits, fun v hv => ?_⟩
  by_contra hlen
  rw [fmdScanPciStorage_eq hfits] at hrun
  cases hrun
  exact (storageBroken_visits st₀ hv (not_le.mp hlen)).not_isRing _ hring

theorem StorageListed.perm {es' : List (Option CStr × Lun)}
    (h : StorageListed ppci content st₀ l₀ es) (h' : StorageListed ppci content st₀ l₀ es') :
    es.Perm es' := by
  obtain ⟨st, ok, l, hrun, hring, hes, -⟩ := h
  obtain ⟨st', ok', l', hrun', hring', hes', -⟩ := h'
  cases hrun.symm.trans hrun'
  have hl : l = l' := List.append_cancel_right (hring.linked.unique hring'.linked)
  subst hl
  exact hes.symm.trans hes'

theorem storageListed_stored (h : StorageRing st₀ l₀) (hfits : (storageWalk ppci content).Fits)
    (hone : ∀ v ∈ (storageWalk ppci content).items, v.devices.length ≤ 1) :
    StorageListed ppci content st₀ l₀
      ((storageFound ppci content).map fun e => (e.1, e.2.stored)) := by
  have hgood : StorageGood st₀ l₀ st₀ [] [] := ⟨h, List.Perm.refl _, fun _ _ => rfl⟩
  obtain ⟨l, hl⟩ := hgood.visits ppci hone
  exact ⟨_, _, l, fmdScanPciStorage_eq hfits st₀, hl.ring.ring, hl.entries, hl.old⟩

/-- Up to the base of the numbers, that is the condition. -/
theorem storageListed_stored_iff (h : StorageRing st₀ l₀) :
    StorageListed ppci content st₀ l₀
        ((storageFound ppci content).map fun e => (e.1, e.2.stored)) ↔
      (storageWalk ppci content).Fits ∧
        ∀ v ∈ (storageWalk ppci content).items, v.devices.length ≤ 1 :=
  ⟨StorageListed.fits, fun hfits => storageListed_stored h hfits.1 hfits.2⟩

theorem oneDigit_of_perm (h : (es.map fun e => (e.1, e.2.stored)).Perm es) :
    ∀ e ∈ es, e.2.OneDigit := by
  have hfield : ∀ f : Lun → ℕ, (∀ id, f id.stored = reread (f id)) → ∀ e ∈ es, f e.2 < 10 := by
    intro f hf e he
    refine lt_ten_of_perm_reread (S := es.map fun e => f e.2) ?_ _ (List.mem_map_of_mem he)
    have hmap := h.map fun e => f e.2
    rw [List.map_map] at hmap ⊢
    simpa only [Function.comp_def, hf] using hmap
  intro e he
  exact ⟨hfield Lun.host (fun _ => rfl) e he, hfield Lun.channel (fun _ => rfl) e he,
    hfield Lun.target (fun _ => rfl) e he, hfield Lun.lun (fun _ => rfl) e he⟩

theorem mem_storageFound {e : Option CStr × Lun} : e ∈ storageFound ppci content ↔
    ∃ v ∈ (storageWalk ppci content).items, ∃ name ∈ v.devices, (some name, v.lun) = e := by
  simp only [storageFound, List.mem_flatMap, StorageVisit.found, List.mem_map]

/-- **The list is a ring with an entry for each device found, if and only if no unit has two devices,
and the numbers of those with one are digits.** -/
theorem storageList_iff (h : StorageRing st₀ l₀) :
    StorageListed ppci content st₀ l₀ (storageFound ppci content) ↔
      (storageWalk ppci content).Fits ∧ ∀ v ∈ (storageWalk ppci content).items,
        v.devices.length ≤ 1 ∧ (v.devices ≠ [] → v.lun.OneDigit) := by
  constructor
  · intro hlisted
    obtain ⟨hfits, hone⟩ := hlisted.fits
    have hperm := (storageListed_stored h hfits hone).perm hlisted
    refine ⟨hfits, fun v hv => ⟨hone v hv, fun hne => ?_⟩⟩
    obtain ⟨name, hname⟩ := List.exists_mem_of_ne_nil _ hne
    exact oneDigit_of_perm hperm _ (mem_storageFound.mpr ⟨v, hv, name, hname, rfl⟩)
  · rintro ⟨hfits, hall⟩
    have hsame : (storageFound ppci content).map (fun e => (e.1, e.2.stored)) =
        storageFound ppci content := by
      refine (List.map_congr_left fun e he => ?_).trans (List.map_id _)
      obtain ⟨v, hv, name, hname, rfl⟩ := mem_storageFound.mp he
      rw [Lun.stored_eq_iff.mpr ((hall v hv).2 (List.ne_nil_of_mem hname))]
      rfl
    have hlisted := storageListed_stored h hfits fun v hv => (hall v hv).1
    rwa [hsame] at hlisted

def controller : TopoPci := ⟨0, 0, 0x1f, 2, 0, 0, 0, 0⟩

/-- A host with one target and one unit, and the names in its `block`. -/
def oneUnit (host : CStr) (id : Lun) (names : List CStr) : PciDir :=
  [⟨host, some [⟨"target0:0:0".toList, some [.lun id (some [⟨"block".toList, some names⟩])]⟩]⟩]

def twoDisks : PciDir := oneUnit "host0".toList ⟨0, 0, 0, 0⟩ ["sda".toList, "sdb".toList]

def tenthHost : PciDir := oneUnit "host10".toList ⟨10, 0, 0, 0⟩ ["sda".toList]

/-- A host with one unit, and one with three, the last of which has no disk. -/
def twoHosts : PciDir := oneUnit "host0".toList ⟨0, 0, 0, 0⟩ ["sda".toList] ++
  [⟨"host1".toList, some [⟨"target1:0:0".toList, some
    [.lun ⟨1, 0, 0, 0⟩ (some [⟨"block".toList, some ["sdb".toList]⟩]),
      .lun ⟨1, 0, 0, 1⟩ (some [⟨"block".toList, some ["sdc".toList]⟩]),
      .lun ⟨1, 0, 0, 2⟩ (some [])]⟩]⟩]

theorem storageRing_init : StorageRing {} [] := ⟨isRing_init, fun _ h => absurd h List.not_mem_nil⟩

theorem storageList_iff_twoHosts :
    StorageListed controller (some twoHosts) {} []
      [(some "sda".toList, ⟨0, 0, 0, 0⟩), (some "sdb".toList, ⟨1, 0, 0, 0⟩),
        (some "sdc".toList, ⟨1, 0, 0, 1⟩)] :=
  (storageList_iff storageRing_init).mpr (by decide +kernel)

/-- The second name in a directory `block` makes the node its own successor, and host 10 is stored
as 16. -/
theorem storageList_broken :
    ¬ StorageListed controller (some twoDisks) {} [] (storageFound controller (some twoDisks)) ∧
      ¬ StorageListed controller (some tenthHost) {} [] (storageFound controller (some tenthHost)) :=
  ⟨fun h => absurd h.fits.2 (by decide +kernel), fun h =>
    absurd ((storageListed_stored storageRing_init (by decide +kernel) (by decide +kernel)).perm h)
      (by decide +kernel)⟩

end Fms
