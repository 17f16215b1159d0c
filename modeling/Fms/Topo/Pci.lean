import Fms.Lib.Hex
import Fms.Lib.Smbios
import Fms.Topo.Tree

/-!
# The PCI functions of the topology

lib/libtopo/pci.c: `fmd_topo_walk_pci` takes the address of a function from the name of its directory
and its class from its configuration space; `fmd_topo_walk_subpci` moves the functions on the
secondary bus of a bridge to the bridge, in bit fields that are narrower than the addresses.

* `fmdTopoWalkPci`, `fmdTopoWalkSubpci`: the two walks, and `fmdTopoPci` over a whole directory;
* **`fmdTopoPci_functions`**: what is walked for a directory of functions;
* **`subpci_nodup_iff`**: when the entries stay distinct.
-/

namespace Fms

open CString Smbios

deriving instance DecidableEq for TopoPci

/-! ## Reading the functions -/

/-- `topoclass_t` -/
inductive Topoclass where
  | system | bridge | memory | processor | storage | disk | bus | network | display | input | power
  | generic
  deriving DecidableEq

/-- `get_conf_word`, in the 64 bytes that every user reads. -/
def getConfWord (config : List Byte) (pos : ℕ) : ℕ :=
  (config.getD pos 0).toNat + 256 * (config.getD (pos + 1) 0).toNat

/-- `PCI_CLASS_DEVICE` -/
def pciClassDevice : ℕ := 0x0a

/-- `PCI_SECONDARY_BUS` -/
def pciSecondaryBus : ℕ := 0x19

/-- `ppci->pci_topoclass` -/
def topoclassOf (dclass : ℕ) : Topoclass :=
  match dclass / 256 with
  | 0x01 => .storage
  | 0x02 => .network
  | 0x05 => .memory
  | 0x06 => .bridge
  | 0x03 => .display
  | 0x08 => .system
  | 0x09 => .input
  | 0x0b => .processor
  | _ => .generic

/-- `ppci->dev_icon` -/
def devIconOf (dclass : ℕ) : Option CStr :=
  if dclass = 0x0100 then some "scsi".toList
  else if dclass = 0x0101 then some "ide".toList
  else if dclass = 0x0600 then some "host".toList
  else if dclass = 0x0601 then some "isa".toList
  else if dclass = 0x0604 then some "pci".toList
  else none

/-- `list_pci` and `list_pci_bridge`, and the functions that went to `fmd_topo_walk_storage`; the
last one is first. -/
structure PciLists where
  listPci : List TopoPci := []
  listPciBridge : List TopoPci := []
  storage : List TopoPci := []

/-- `fmd_scan_pci_dev` -/
def fmdScanPciDev (config : List Byte) (ppci : TopoPci) (ptopo : PciLists) : PciLists :=
  let dclass := getConfWord config pciClassDevice
  let ppci :=
    if dclass = 0x0604 then
      { ppci with subdomain := 0, subbus := getConfWord config pciSecondaryBus % 256 }
    else ppci
  if devIconOf dclass = some "pci".toList then
    { ptopo with listPciBridge := ppci :: ptopo.listPciBridge }
  else if topoclassOf dclass = .storage then { ptopo with storage := ppci :: ptopo.storage }
  else { ptopo with listPci := ppci :: ptopo.listPci }

/-- `*ptr++ = (uint32_t)strtol(token, NULL, 16)`, for a token of the name, 0 without one. -/
def pciToken (tokens : List CStr) (i : ℕ) : ℕ :=
  (tokens[i]?.map fun token => (strtol16 token % 2 ^ 32).toNat).getD 0

/-- The entry before its class is known: `memset` and the fields of 8 and 4 bits. -/
def pciOfTokens (tokens : List CStr) : TopoPci :=
  ⟨pciToken tokens 0 % 256, pciToken tokens 1 % 256, pciToken tokens 2 % 256, pciToken tokens 3 % 16,
    0, 0, 0, 0⟩

/-- `fmd_topo_walk_pci`, where `config` is what is read of the file `config`, `none` if it cannot be
opened. No value: the name does not fit `filename[50]` or `p[4]`, or the path `devicepath[100]`. -/
def fmdTopoWalkPci (dir file : CStr) (config : Option (List Byte)) (ptopo : PciLists) :
    Option PciLists := do
  let filename ← store 50 file
  let _ ← store 100 (dir ++ '/' :: file ++ "/config".toList)
  let tokens := strsepAll [':', '.'] filename
  if tokens.length ≤ 4 then
    match config with
    | none => return ptopo
    | some config => return fmdScanPciDev config (pciOfTokens tokens) ptopo
  else none

/-! ## Bridges -/

/-- The body of the loops of `fmd_topo_walk_subpci`: the bridge takes the entry. The fields for what
is below the bridge have 3 and 2 bits. -/
def reparent (bpci spci : TopoPci) : TopoPci :=
  if spci.hostbridge = bpci.subbus ∧ spci.chassis = bpci.subdomain then
    { chassis := bpci.chassis, hostbridge := bpci.hostbridge, slot := bpci.slot, func := bpci.func,
      subdomain := bpci.subdomain, subbus := bpci.subbus,
      subslot := spci.slot % 8, subfunc := spci.func % 4 }
  else spci

/-- `fmd_topo_walk_subpci`: `list_pci` after all bridges. -/
def fmdTopoWalkSubpci (listPciBridge listPci : List TopoPci) : List TopoPci :=
  listPciBridge.foldl (fun l bpci => l.map (reparent bpci)) listPci

/-- What becomes of one entry. -/
def walkEntry (bridges : List TopoPci) (spci : TopoPci) : TopoPci :=
  bridges.foldl (fun s bpci => reparent bpci s) spci

/-- The entries do not see each other. -/
theorem fmdTopoWalkSubpci_eq (bridges l : List TopoPci) :
    fmdTopoWalkSubpci bridges l = l.map (walkEntry bridges) := by
  unfold fmdTopoWalkSubpci
  induction bridges generalizing l with
  | nil => exact (List.map_id l).symm
  | cons b bridges ih =>
    rw [List.foldl_cons, ih, List.map_map]
    rfl

/-! ## Addresses -/

/-- The address of a PCI function. -/
structure PciAddr where
  domain : ℕ
  bus : ℕ
  slot : ℕ
  func : ℕ
  domain_lt : domain < 2 ^ 32
  bus_lt : bus < 256
  slot_lt : slot < 32
  func_lt : func < 8
  deriving DecidableEq

/-- The name of its directory: `%04x:%02x:%02x.%d`. -/
def pciName (a : PciAddr) : CStr :=
  fmtHex 4 a.domain ++ ':' :: (fmtHex 2 a.bus ++ ':' :: (fmtHex 2 a.slot ++ '.' :: fmtHex 1 a.func))

/-- The entry of a function: the domain keeps 8 bits. -/
def addrEntry (a : PciAddr) : TopoPci := ⟨a.domain % 256, a.bus, a.slot, a.func, 0, 0, 0, 0⟩

theorem strsepAll_pciName (a : PciAddr) : strsepAll [':', '.'] (pciName a) =
    [fmtHex 4 a.domain, fmtHex 2 a.bus, fmtHex 2 a.slot, fmtHex 1 a.func] := by
  have hno : ∀ w n, ∀ c ∈ fmtHex w n, [':', '.'].contains c = false := fun w n c hc => by
    have h1 := hexVal_isSome_ne (x := ':') (hexVal_isSome_fmtHex hc) rfl
    have h2 := hexVal_isSome_ne (x := '.') (hexVal_isSome_fmtHex hc) rfl
    simp [h1, h2]
  unfold strsepAll pciName
  rw [List.splitOnP_append_cons _ _ (by rfl), List.splitOnP_append_cons _ _ (by rfl),
    List.splitOnP_append_cons _ _ (by rfl)]
  simp only [List.splitOnP_eq_singleton (hno _ _)]
  rfl

theorem pciToken_fmtHex {tokens : List CStr} {i w n : ℕ} (h : tokens[i]? = some (fmtHex w n))
    (hn : n < 2 ^ 32) : pciToken tokens i = n := by
  rw [pciToken, h, Option.map_some, Option.getD_some, strtol16_fmtHex w (by omega)]
  omega

theorem length_fmtHex_le {w n k : ℕ} (hk : 0 < k) (hw : w ≤ k) (h : n < 16 ^ k) :
    (fmtHex w n).length ≤ k := by
  have := (Nat.length_toDigits_le_iff (b := 16) (by omega) hk).mpr h
  simp only [fmtHex, List.length_append, List.length_replicate]
  omega

theorem pciName_length (a : PciAddr) : (pciName a).length ≤ 17 := by
  have h1 := length_fmtHex_le (w := 4) (k := 8) (by omega) (by omega) a.domain_lt
  have h2 := length_fmtHex_le (w := 2) (k := 2) (by omega) (by omega) a.bus_lt
  have h3 := length_fmtHex_le (w := 2) (k := 2) (n := a.slot) (by omega) (by omega) (by
    have := a.slot_lt
    omega)
  have h4 := length_fmtHex_le (w := 1) (k := 1) (n := a.func) (by omega) (by omega) (by
    have := a.func_lt
    omega)
  simp only [pciName, List.length_append, List.length_cons]
  omega

/-- **The entry of a function with its kernel name.** -/
theorem fmdTopoWalkPci_pciName {dir : CStr} (hdir : dir.length ≤ 70) (a : PciAddr)
    (config : List Byte) (ptopo : PciLists) :
    fmdTopoWalkPci dir (pciName a) (some config) ptopo =
      some (fmdScanPciDev config (addrEntry a) ptopo) := by
  have hlen := pciName_length a
  have htok : pciOfTokens [fmtHex 4 a.domain, fmtHex 2 a.bus, fmtHex 2 a.slot, fmtHex 1 a.func] =
      addrEntry a := by
    have h2 := a.bus_lt
    have h3 := a.slot_lt
    have h4 := a.func_lt
    rw [pciOfTokens, pciToken_fmtHex rfl a.domain_lt, pciToken_fmtHex rfl (by omega),
      pciToken_fmtHex rfl (by omega), pciToken_fmtHex rfl (by omega), addrEntry,
      Nat.mod_eq_of_lt h2, Nat.mod_eq_of_lt (by omega : a.slot < 256),
      Nat.mod_eq_of_lt (by omega : a.func < 16)]
  have hpath : (dir ++ '/' :: pciName a ++ "/config".toList).length < 100 := by
    simp only [List.length_append, List.length_cons]
    have : "/config".toList.length = 7 := rfl
    omega
  rw [fmdTopoWalkPci, store_fits (by omega : (pciName a).length < 50), store_fits hpath]
  simp only [Option.bind_eq_bind, Option.bind_some, strsepAll_pciName, htok]
  rfl

/-! ## Distinct entries -/

/-- A bridge with the number of its secondary bus. -/
structure PciBridge where
  addr : PciAddr
  secondary : ℕ
  secondary_lt : secondary < 256

/-- The entry of a bridge. -/
def bridgeEntry (b : PciBridge) : TopoPci := { addrEntry b.addr with subdomain := 0, subbus := b.secondary }

/-- `fmd_topo_pci`: the loop over the entries of the directory, each with what is read of its file
`config`, and the bridges. -/
def fmdTopoPci (dir : CStr) (dirents : List (CStr × Option (List Byte))) : Option (List TopoPci) :=
  (dirents.foldlM (fun ptopo d =>
    if d.1.head? = some '.' then some ptopo else fmdTopoWalkPci dir d.1 d.2 ptopo) {}).map
    fun ptopo => fmdTopoWalkSubpci ptopo.listPciBridge ptopo.listPci

/-- A function with its configuration space. -/
structure PciFunction where
  addr : PciAddr
  config : List Byte

/-- `dclass` -/
def PciFunction.dclass (f : PciFunction) : ℕ := getConfWord f.config pciClassDevice

def PciFunction.bridge (f : PciFunction) : PciBridge :=
  ⟨f.addr, getConfWord f.config pciSecondaryBus % 256, Nat.mod_lt _ (by omega)⟩

/-- The functions that are PCI bridges. -/
def pciBridges (functions : List PciFunction) : List PciBridge :=
  (functions.filter (·.dclass = 0x0604)).map (·.bridge)

/-- The functions that are neither PCI bridges nor storage controllers. -/
def pciDevices (functions : List PciFunction) : List PciAddr :=
  (functions.filter fun f => f.dclass ≠ 0x0604 ∧ f.dclass / 256 ≠ 1).map (·.addr)

theorem devIconOf_eq_pci {dclass : ℕ} : devIconOf dclass = some "pci".toList ↔ dclass = 0x0604 := by
  unfold devIconOf
  split_ifs with h1 h2 h3 h4 h5
  all_goals simp_all

theorem topoclassOf_eq_storage {dclass : ℕ} : topoclassOf dclass = .storage ↔ dclass / 256 = 1 := by
  unfold topoclassOf
  split <;> simp_all

theorem fmdScanPciDev_lists (f : PciFunction) (ptopo : PciLists) :
    (fmdScanPciDev f.config (addrEntry f.addr) ptopo).listPciBridge =
        (pciBridges [f]).map bridgeEntry ++ ptopo.listPciBridge ∧
      (fmdScanPciDev f.config (addrEntry f.addr) ptopo).listPci =
        (pciDevices [f]).map addrEntry ++ ptopo.listPci := by
  unfold fmdScanPciDev pciBridges pciDevices
  rw [← PciFunction.dclass]
  by_cases hb : f.dclass = 0x0604
  · simp only [hb, devIconOf_eq_pci, if_true]
    exact ⟨by simp [hb, bridgeEntry, PciFunction.bridge], by simp [hb]⟩
  · by_cases hs : f.dclass / 256 = 1
    · simp only [hb, hs, devIconOf_eq_pci, topoclassOf_eq_storage, if_false, if_true]
      exact ⟨by simp [hb], by simp [hs]⟩
    · simp only [hb, hs, devIconOf_eq_pci, topoclassOf_eq_storage, if_false]
      exact ⟨by simp [hb], by simp [hb, hs]⟩

theorem pciBridges_reverse_cons (f : PciFunction) (functions : List PciFunction) :
    (pciBridges (f :: functions)).reverse = (pciBridges functions).reverse ++ pciBridges [f] := by
  by_cases h : f.dclass = 0x0604
  · simp [pciBridges, h]
  · simp [pciBridges, h]

theorem pciDevices_reverse_cons (f : PciFunction) (functions : List PciFunction) :
    (pciDevices (f :: functions)).reverse = (pciDevices functions).reverse ++ pciDevices [f] := by
  by_cases hb : f.dclass = 0x0604
  · simp [pciDevices, hb]
  by_cases hs : f.dclass / 256 = 1
  · simp [pciDevices, hs]
  · simp [pciDevices, hb, hs]

theorem pciName_head (a : PciAddr) : (pciName a).head? ≠ some '.' := by
  intro h
  have hmem : '.' ∈ fmtHex 4 a.domain := by
    unfold pciName at h
    cases hf : fmtHex 4 a.domain with
    | nil => simp [hf] at h
    | cons c s =>
      rw [hf] at h
      exact Option.some.inj h ▸ List.mem_cons_self
  exact hexVal_isSome_ne (hexVal_isSome_fmtHex hmem) rfl rfl

/-- **The walk over the directory of the functions.** -/
theorem fmdTopoPci_functions {dir : CStr} (hdir : dir.length ≤ 70) (functions : List PciFunction) :
    fmdTopoPci dir (functions.map fun f => (pciName f.addr, some f.config)) =
      some (fmdTopoWalkSubpci ((pciBridges functions).reverse.map bridgeEntry)
        ((pciDevices functions).reverse.map addrEntry)) := by
  have hrun : ∀ ptopo : PciLists, ∃ ptopo' : PciLists,
      (functions.map fun f => (pciName f.addr, some f.config)).foldlM (fun ptopo d =>
        if d.1.head? = some '.' then some ptopo else fmdTopoWalkPci dir d.1 d.2 ptopo) ptopo =
          some ptopo' ∧
        ptopo'.listPciBridge = (pciBridges functions).reverse.map bridgeEntry ++ ptopo.listPciBridge ∧
        ptopo'.listPci = (pciDevices functions).reverse.map addrEntry ++ ptopo.listPci := by
    induction functions with
    | nil => exact fun ptopo => ⟨ptopo, rfl, rfl, rfl⟩
    | cons f functions ih =>
      intro ptopo
      obtain ⟨ptopo', hrun, hbridge, hdev⟩ := ih (fmdScanPciDev f.config (addrEntry f.addr) ptopo)
      obtain ⟨hb, hd⟩ := fmdScanPciDev_lists f ptopo
      refine ⟨ptopo', ?_, ?_, ?_⟩
      · rw [List.map_cons, List.foldlM_cons, if_neg (pciName_head f.addr),
          fmdTopoWalkPci_pciName hdir, ← hrun]
        rfl
      · rw [hbridge, hb, pciBridges_reverse_cons, List.map_append, List.append_assoc]
      · rw [hdev, hd, pciDevices_reverse_cons, List.map_append, List.append_assoc]
  obtain ⟨ptopo', hrun', hbridge, hdev⟩ := hrun {}
  rw [fmdTopoPci, hrun', Option.map_some, hbridge, hdev, List.append_nil, List.append_nil]

/-- The function `cur` lies on the secondary bus of the bridge, which is taken in domain 0. -/
def Behind (b : PciBridge) (cur : PciAddr) : Prop :=
  cur.domain % 256 = 0 ∧ cur.bus = b.secondary

instance (b : PciBridge) (cur : PciAddr) : Decidable (Behind b cur) :=
  inferInstanceAs (Decidable (_ ∧ _))

/-- The way up from a function through the bridges in the order of the list: the last bridge, with
the function or bridge next below it. -/
def lastHop : List PciBridge → PciAddr → Option (PciAddr × PciBridge) → Option (PciAddr × PciBridge)
  | [], _, hop => hop
  | b :: bridges, cur, hop =>
    if Behind b cur then lastHop bridges b.addr (some (cur, b)) else lastHop bridges cur hop

/-- Two addresses that no entry tells apart: their domains agree in 8 bits. -/
def SamePlace (a b : PciAddr) : Prop :=
  a.domain % 256 = b.domain % 256 ∧ a.bus = b.bus ∧ a.slot = b.slot ∧ a.func = b.func

/-- What the entry of `d` says when `hop` is the last bridge above it. -/
def placed (d : PciAddr) : Option (PciAddr × PciBridge) → TopoPci
  | none => addrEntry d
  | some (child, b) =>
    { bridgeEntry b with subslot := child.slot % 8, subfunc := child.func % 4 }

/-- The entry while `cur` is the place reached: the function, or the last bridge. -/
theorem walkEntry_lastHop (bridges : List PciBridge) {s : TopoPci} {cur : PciAddr}
    {hop : Option (PciAddr × PciBridge)} {d : PciAddr} (hs : s = placed d hop)
    (hcur : cur = (hop.map (·.2.addr)).getD d) :
    walkEntry (bridges.map bridgeEntry) s = placed d (lastHop bridges cur hop) := by
  induction bridges generalizing s cur hop with
  | nil => exact hs
  | cons b bridges ih =>
    have hplace : s.chassis = cur.domain % 256 ∧ s.hostbridge = cur.bus ∧ s.slot = cur.slot ∧
        s.func = cur.func := by
      rw [hs, hcur]
      cases hop with
      | none => exact ⟨rfl, rfl, rfl, rfl⟩
      | some hop => exact ⟨rfl, rfl, rfl, rfl⟩
    rw [List.map_cons, walkEntry, List.foldl_cons, ← walkEntry, lastHop]
    by_cases hb : Behind b cur
    · have hstep : reparent (bridgeEntry b) s = placed d (some (cur, b)) := by
        have hcond : s.hostbridge = (bridgeEntry b).subbus ∧ s.chassis = (bridgeEntry b).subdomain :=
          ⟨hplace.2.1.trans hb.2, hplace.1.trans hb.1⟩
        rw [reparent, if_pos hcond, hplace.2.2.1, hplace.2.2.2]
        rfl
      rw [if_pos hb]
      exact ih hstep rfl
    · have hstep : reparent (bridgeEntry b) s = s := by
        refine if_neg fun h => hb ⟨?_, ?_⟩
        · exact hplace.1.symm.trans h.2
        · exact hplace.2.1.symm.trans h.1
      rw [if_neg hb, hstep]
      exact ih hs hcur

/-- The places of two functions below their last bridges, if any, are one place. -/
def Collide (bridges : List PciBridge) (d e : PciAddr) : Prop :=
  match lastHop bridges d none, lastHop bridges e none with
  | none, none => SamePlace d e
  | some (c, b), some (c', b') =>
    SamePlace b.addr b'.addr ∧ b.secondary = b'.secondary ∧ c.slot % 8 = c'.slot % 8 ∧
      c.func % 4 = c'.func % 4
  -- the entry of a function below no bridge reads like the secondary bus 0, slot 0, function 0
  | none, some (c, b) =>
    SamePlace d b.addr ∧ b.secondary = 0 ∧ c.slot % 8 = 0 ∧ c.func % 4 = 0
  | some (c, b), none =>
    SamePlace e b.addr ∧ b.secondary = 0 ∧ c.slot % 8 = 0 ∧ c.func % 4 = 0

theorem placed_eq_iff (bridges : List PciBridge) (d e : PciAddr) :
    placed d (lastHop bridges d none) = placed e (lastHop bridges e none) ↔ Collide bridges d e := by
  unfold Collide
  rcases lastHop bridges d none with _ | ⟨c, b⟩ <;> rcases lastHop bridges e none with _ | ⟨c', b'⟩ <;>
    simp only [placed, addrEntry, bridgeEntry, SamePlace, TopoPci.mk.injEq]
  · tauto
  · constructor
    · rintro ⟨h1, h2, h3, h4, -, h6, h7, h8⟩
      exact ⟨⟨h1, h2, h3, h4⟩, h6.symm, h7.symm, h8.symm⟩
    · rintro ⟨⟨h1, h2, h3, h4⟩, h6, h7, h8⟩
      exact ⟨h1, h2, h3, h4, trivial, h6.symm, h7.symm, h8.symm⟩
  · constructor
    · rintro ⟨h1, h2, h3, h4, -, h6, h7, h8⟩
      exact ⟨⟨h1.symm, h2.symm, h3.symm, h4.symm⟩, h6, h7, h8⟩
    · rintro ⟨⟨h1, h2, h3, h4⟩, h6, h7, h8⟩
      exact ⟨h1.symm, h2.symm, h3.symm, h4.symm, trivial, h6, h7, h8⟩
  · tauto

/-- **The entries are distinct exactly when no two functions collide.** -/
theorem subpci_nodup_iff (bridges : List PciBridge) (devs : List PciAddr) :
    (fmdTopoWalkSubpci (bridges.map bridgeEntry) (devs.map addrEntry)).Nodup ↔
      devs.Pairwise fun d e => ¬ Collide bridges d e := by
  have hentry : ∀ d, walkEntry (bridges.map bridgeEntry) (addrEntry d) =
      placed d (lastHop bridges d none) := fun d =>
    walkEntry_lastHop bridges rfl rfl
  rw [fmdTopoWalkSubpci_eq, List.map_map, List.Nodup, List.pairwise_map]
  refine List.Pairwise.iff_of_mem fun _ _ => ?_
  simp only [Function.comp_apply, hentry]
  exact not_congr (placed_eq_iff bridges _ _)

/-- A bridge at 00:01.0 with the secondary bus 1. -/
def rootPort : PciBridge := ⟨⟨0, 0, 1, 0, by omega, by omega, by omega, by omega⟩, 1, by omega⟩

/-- The functions 01:00.0 and 01:00.4. -/
def twoFunctions : List PciAddr :=
  [⟨0, 1, 0, 0, by omega, by omega, by omega, by omega⟩,
    ⟨0, 1, 0, 4, by omega, by omega, by omega, by omega⟩]

/-- Of the function behind a bridge, 2 bits are kept. -/
theorem subpci_collision :
    ¬ ∀ (bridges : List PciBridge) (devs : List PciAddr), devs.Nodup →
      (fmdTopoWalkSubpci (bridges.map bridgeEntry) (devs.map addrEntry)).Nodup := by
  intro h
  exact absurd (h [rootPort] twoFunctions (by decide)) (by decide)

end Fms
