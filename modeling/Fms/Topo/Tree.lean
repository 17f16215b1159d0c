import Fms.Lib.CString
import Fms.Lib.Keyed

/-!
# The topology tree

lib/libtopo/topo_tree.c: `fmd_topo_tree` builds the tree of chassis, boards, sockets, cores, threads,
buses, slots, functions, memory controllers and DIMMs from the lists of processors, PCI devices and
memory ranges. Every level is searched for the node of an entry, which is made if it is missing.

* `Children`: a level, a pointer to its first node and a list;
* `Children.findOrCreate`: what the source does at each level, with `below` for the levels below;
* `cpuEntry`, `pciEntry`, `memEntry`: the bodies of the three loops;
* `fmdTopoTree`: the whole function.
-/

namespace Fms

open CString

/-! ## Nodes -/

/-- `TOPO_NODE_BOUND` -/
def topoNodeBound : ℕ := 0x0004

/-- `TOPO_NODE_LINKED` -/
def topoNodeLinked : ℕ := 0x0008

/-- `tnode_t` -/
structure Tnode where
  tnName : CStr := []
  tnValue : ℤ := 0
  tnState : ℕ := 0
  tnFflags : ℕ := 0

/-- The pointer to the first node that was made, which is tested against null only, and the list. -/
structure Children (α : Type) where
  head : Bool := false
  list : List α := []

/-- `thread_t` -/
structure Thread where
  tnode : Tnode

/-- `core_t` -/
structure Core where
  tnode : Tnode
  ht : Children Thread := {}

/-- `dimm_t` -/
structure Dimm where
  size : BitVec 64 := 0
  tnode : Tnode

/-- `memcontroller_t` -/
structure Memcontroller where
  tnode : Tnode
  dimm : Children Dimm := {}

/-- `chip_t` -/
structure Chip where
  tnode : Tnode
  core : Children Core := {}
  mctl : Children Memcontroller := {}

/-- `func_t`, with the type `β` of its secondary buses. -/
structure Func (β : Type) where
  tnode : Tnode
  hb : Children β := {}

/-- `slot_t` -/
structure Slot (β : Type) where
  tnode : Tnode
  func : Children (Func β) := {}

/-- `hostbridge_t` -/
structure Hostbridge (β : Type) where
  tnode : Tnode
  slot : Children (Slot β) := {}

/-- A secondary bus; no bus is put below it. -/
abbrev SubHostbridge : Type := Hostbridge Empty

/-- `motherboard_t` -/
structure Motherboard where
  tnode : Tnode
  chip : Children Chip := {}
  hb : Children (Hostbridge SubHostbridge) := {}

/-- `systemboard_t` -/
structure Systemboard where
  tnode : Tnode

/-- `chassis_t` -/
structure Chassis where
  tnode : Tnode
  mb : Option Motherboard := none
  sb : Option Systemboard := none

/-- `topo_tnode_alloc` -/
def topoTnodeAlloc : Tnode := { tnFflags := 1 }

/-- A node of `topo_tnode_alloc` with its name, linked. -/
def linkedTnode (name : String) : Tnode :=
  { topoTnodeAlloc with tnName := name.toList, tnState := topoNodeLinked }

/-- `topo_chassis_alloc` -/
def topoChassisAlloc : Chassis := { tnode := linkedTnode "chassis" }

/-- `topo_motherboard_alloc` -/
def topoMotherboardAlloc : Motherboard := { tnode := linkedTnode "motherboard" }

/-- `topo_chip_alloc` -/
def topoChipAlloc : Chip := { tnode := linkedTnode "chip" }

/-- `topo_core_alloc` -/
def topoCoreAlloc : Core := { tnode := linkedTnode "core" }

/-- `topo_mctl_alloc` -/
def topoMctlAlloc : Memcontroller := { tnode := linkedTnode "memory-controller" }

/-- `topo_dimm_alloc` -/
def topoDimmAlloc : Dimm := { tnode := linkedTnode "dimm" }

/-- `topo_thread_alloc` -/
def topoThreadAlloc : Thread := { tnode := linkedTnode "thread" }

/-- `topo_hostbridge_alloc` -/
def topoHostbridgeAlloc (β : Type) : Hostbridge β := { tnode := linkedTnode "hostbridge" }

/-- `topo_slot_alloc` -/
def topoSlotAlloc (β : Type) : Slot β := { tnode := linkedTnode "slot" }

/-- `topo_func_alloc` -/
def topoFuncAlloc (β : Type) : Func β := { tnode := linkedTnode "func" }

/-! ## Levels -/

variable {α : Type}

/-- The loop over a list for the first node with the value `k`, and the branch where there is none;
the code goes on `below` the node. -/
def findOrAdd (tnode : α → Tnode) (k : ℤ) (fresh : α) (below : α → α) (l : List α) : List α :=
  if l.any (fun a => (tnode a).tnValue == k) then
    Keyed.modifyFirst (fun a => (tnode a).tnValue == k) below l
  else below fresh :: l

/-- A level of the tree; `first` is made if the pointer is null, `next` if the list has no node with
the value `k`. -/
def Children.findOrCreate (tnode : α → Tnode) (k : ℤ) (first next : α) (below : α → α)
    (c : Children α) : Children α :=
  if c.head = false then { head := true, list := below first :: c.list }
  else { c with list := findOrAdd tnode k next below c.list }

/-- The loop over a list for the first node with the value `k`, where a missing node is an error. -/
def findThen (tnode : α → Tnode) (k : ℤ) (below : α → Option α) : List α → Option (List α)
  | [] => none
  | a :: l =>
    if (tnode a).tnValue = k then (below a).map fun b => b :: l
    else (findThen tnode k below l).map fun l => a :: l

/-! ## Processors -/

/-- `topo_cpu_t` -/
structure TopoCpu where
  processor : ℤ
  chassis : ℕ
  board : ℕ
  socket : ℕ
  core : ℕ

/-- thread -/
def cpuThread (pcpu : TopoCpu) (cop : Core) : Core :=
  let fresh : Thread := { topoThreadAlloc with tnode.tnValue := pcpu.processor }
  { cop with
    ht := cop.ht.findOrCreate Thread.tnode pcpu.processor fresh
      { fresh with tnode.tnState := topoNodeBound } id }

/-- core -/
def cpuCore (pcpu : TopoCpu) (chp : Chip) : Chip :=
  let fresh : Core := { topoCoreAlloc with tnode.tnValue := pcpu.core }
  { chp with core := chp.core.findOrCreate Core.tnode pcpu.core fresh fresh (cpuThread pcpu) }

/-- chip (socket) -/
def cpuChip (pcpu : TopoCpu) (mb : Motherboard) : Motherboard :=
  let fresh : Chip := { topoChipAlloc with tnode.tnValue := pcpu.socket }
  { mb with chip := mb.chip.findOrCreate Chip.tnode pcpu.socket fresh fresh (cpuCore pcpu) }

/-- board, and what is on it -/
def cpuBoard (pcpu : TopoCpu) (ccp : Chassis) : Chassis :=
  match ccp.mb with
  | none =>
    let mb : Motherboard := { topoMotherboardAlloc with tnode.tnValue := pcpu.board }
    { ccp with mb := some (cpuChip pcpu mb) }
  | some mb =>
    let sb := ccp.sb.getD { tnode := { linkedTnode "systemboard" with tnValue := 1 } }
    { ccp with mb := some (cpuChip pcpu mb), sb := some sb }

/-- The body of the loop over the processors. -/
def cpuEntry (root : List Chassis) (pcpu : TopoCpu) : List Chassis :=
  let fresh : Chassis := { topoChassisAlloc with tnode.tnValue := pcpu.chassis }
  if root.isEmpty then [cpuBoard pcpu fresh]
  else findOrAdd Chassis.tnode pcpu.chassis fresh (cpuBoard pcpu) root

/-! ## PCI devices -/

/-- `topo_pci_t` -/
structure TopoPci where
  chassis : ℕ
  hostbridge : ℕ
  slot : ℕ
  func : ℕ
  subdomain : ℕ
  subbus : ℕ
  subslot : ℕ
  subfunc : ℕ

/-- func, below a secondary bus -/
def pciSubfunc (ppci : TopoPci) (sslp : Slot Empty) : Slot Empty :=
  let fresh : Func Empty := { topoFuncAlloc Empty with tnode.tnValue := ppci.subfunc }
  { sslp with func := sslp.func.findOrCreate Func.tnode ppci.subfunc fresh fresh id }

/-- slot, below a secondary bus -/
def pciSubslot (ppci : TopoPci) (fhb : SubHostbridge) : SubHostbridge :=
  let fresh : Slot Empty := { topoSlotAlloc Empty with tnode.tnValue := ppci.subslot }
  { fhb with slot := fhb.slot.findOrCreate Slot.tnode ppci.subslot fresh fresh (pciSubfunc ppci) }

/-- subdomain -/
def pciSubdomain (ppci : TopoPci) (fcp : Func SubHostbridge) : Func SubHostbridge :=
  if ppci.subbus = 0 ∧ ppci.subdomain = 0 then fcp
  else
    let fresh : SubHostbridge := { topoHostbridgeAlloc Empty with tnode.tnValue := ppci.subbus }
    { fcp with hb := fcp.hb.findOrCreate Hostbridge.tnode ppci.subbus fresh fresh (pciSubslot ppci) }

/-- func -/
def pciFunc (ppci : TopoPci) (slp : Slot SubHostbridge) : Slot SubHostbridge :=
  let fresh : Func SubHostbridge := { topoFuncAlloc SubHostbridge with tnode.tnValue := ppci.func }
  { slp with func := slp.func.findOrCreate Func.tnode ppci.func fresh fresh (pciSubdomain ppci) }

/-- slot -/
def pciSlot (ppci : TopoPci) (hb : Hostbridge SubHostbridge) : Hostbridge SubHostbridge :=
  let fresh : Slot SubHostbridge := { topoSlotAlloc SubHostbridge with tnode.tnValue := ppci.slot }
  { hb with slot := hb.slot.findOrCreate Slot.tnode ppci.slot fresh fresh (pciFunc ppci) }

/-- hostbridge -/
def pciHostbridge (ppci : TopoPci) (mb : Motherboard) : Motherboard :=
  let fresh : Hostbridge SubHostbridge :=
    { topoHostbridgeAlloc SubHostbridge with tnode.tnValue := ppci.hostbridge }
  { mb with
    hb := mb.hb.findOrCreate Hostbridge.tnode ppci.hostbridge fresh fresh (pciSlot ppci) }

/-- The chassis that was found; `none` if it has no motherboard. -/
def pciChassis (ppci : TopoPci) (csp : Chassis) : Option Chassis :=
  csp.mb.map fun mb => { csp with mb := some (pciHostbridge ppci mb) }

/-- The body of the loop over the PCI devices; `none` for the return with −1. -/
def pciEntry (root : List Chassis) (ppci : TopoPci) : Option (List Chassis) :=
  findThen Chassis.tnode ppci.chassis (pciChassis ppci) root

/-! ## Memory -/

/-- `topo_mem_t` -/
structure TopoMem where
  start : BitVec 64
  «end» : BitVec 64
  chassis : ℕ
  socket : ℕ
  controller : ℕ
  dimm : ℕ

/-- dimm -/
def memDimm (pmem : TopoMem) (pmctl : Memcontroller) : Memcontroller :=
  let fresh : Dimm :=
    { topoDimmAlloc with tnode.tnValue := pmem.dimm, size := pmem.end - pmem.start }
  { pmctl with dimm := pmctl.dimm.findOrCreate Dimm.tnode pmem.dimm fresh fresh id }

/-- memory controller -/
def memController (pmem : TopoMem) (mchp : Chip) : Chip :=
  let fresh : Memcontroller := { topoMctlAlloc with tnode.tnValue := pmem.controller }
  { mchp with
    mctl := mchp.mctl.findOrCreate Memcontroller.tnode pmem.controller fresh fresh (memDimm pmem) }

/-- chip (socket); `none` if it is not found -/
def memChip (pmem : TopoMem) (mb : Motherboard) : Option Motherboard :=
  if mb.chip.head = false then none
  else
    (findThen Chip.tnode pmem.socket (fun mchp => some (memController pmem mchp)) mb.chip.list).map
      fun l => { mb with chip := { mb.chip with list := l } }

/-- The chassis that was found; `none` if it has no motherboard. -/
def memChassis (pmem : TopoMem) (mcsp : Chassis) : Option Chassis := do
  let mb ← mcsp.mb
  let mb ← memChip pmem mb
  return { mcsp with mb := some mb }

/-- The body of the loop over the memory ranges; `none` for the return with −1. -/
def memEntry (root : List Chassis) (pmem : TopoMem) : Option (List Chassis) :=
  findThen Chassis.tnode pmem.chassis (memChassis pmem) root

/-- `fmd_topo_tree`: the tree if it returns 0. -/
def fmdTopoTree (listCpu : List TopoCpu) (listPci : List TopoPci) (listMem : List TopoMem) :
    Option (List Chassis) := do
  let root := listCpu.foldl cpuEntry []
  let root ← listPci.foldlM pciEntry root
  listMem.foldlM memEntry root

end Fms
