import Fms.Lib.Filling
import Fms.Topo.Dmi
import Fms.Topo.Sockets

/-!
# The memory of the topology

lib/libtopo/dmi.c: `fmd_topo_walk_mem` gives every socket of every chassis a memory array, and each
of the devices that the array declares the next handle of the sorted memory devices, with which the
range of the DIMM is looked up. An index outside an array has no value: `none`.

* `fmdTopoWalkMem`: the whole walk;
* **`fmdTopoWalkMem_eq`**: its entries, one for each `MemJob`, as long as all indices are in bounds;
* **`isSome_fmdTopoWalkMem`**: when they are;
* **`dimmRanges_iff`**: when every DIMM has its own range.
-/

namespace Fms

open Smbios Filling

/-! ## The walk -/

/-- `comp`: the difference of two `uint64_t` as an `int`. -/
def comp (a b : ℕ) : ℤ := ((BitVec.ofNat 64 a - BitVec.ofNat 64 b).setWidth 32).toInt

/-- `qsort(.., comp)` -/
def handleSort (l : List ℕ) : List ℕ := l.mergeSort fun a b => decide (comp a b ≤ 0)

/-- `device_handle` -/
def deviceHandle (pdmi : DmiData) : List ℕ := handleSort (pdmi.deviceList.map (·.handle))

/-- `array_handle` -/
def arrayHandle (pdmi : DmiData) : List ℕ := handleSort (pdmi.arrayList.map (·.handle))

/-- The greatest chassis of a processor. -/
def maxChassis (cpus : List TopoCpu) : ℕ :=
  cpus.foldl (fun m pcpu => if cpuChassis pcpu > m then cpuChassis pcpu else m) 0

/-- `max_dimm`, of the array with the handle; the list is searched to its end. -/
def maxDimm (pdmi : DmiData) (handle : ℕ) : ℕ :=
  pdmi.arrayList.foldl (fun m dma => if handle = dma.handle then dma.devices else m) 0

/-- `start` and `end` of the device with the handle; the list is searched to its end. -/
def deviceRange (pdmi : DmiData) (handle : ℕ) : BitVec 64 × BitVec 64 :=
  pdmi.deviceAddrList.foldl (fun r a => if handle = a.deviceHandle then (a.start, a.end) else r)
    (0, 0)

/-- A DIMM that is to be entered: `i`, `socket[j]` and `k`. -/
structure MemJob where
  chassis : ℕ
  socket : ℕ
  dimm : ℕ

/-- The entry of a DIMM; `chassis`, `socket` and `dimm` have 8 bits. -/
def dimmEntry (pdmi : DmiData) (job : MemJob) (handle : ℕ) : TopoMem :=
  ⟨(deviceRange pdmi handle).1, (deviceRange pdmi handle).2, job.chassis % 256, job.socket % 256, 0,
    job.dimm % 256⟩

/-- `num`, and `list_mem` with the last entry first. -/
structure MemWalk where
  num : ℕ := 0
  listMem : List TopoMem := []

/-- The body of the loop over the DIMMs: `device_handle[num++]`. -/
def dimmStep (pdmi : DmiData) (st : MemWalk) (job : MemJob) : Option MemWalk :=
  (deviceHandle pdmi)[st.num]?.map fun handle =>
    ⟨st.num + 1, dimmEntry pdmi job handle :: st.listMem⟩

/-- `arr_index`: the socket if there is an array for each socket of each chassis. -/
def arrIndex (pdmi : DmiData) (cpus : List TopoCpu) (maxSocket i s : ℕ) : ℕ :=
  if pdmi.arrayList.length = maxSocket * (maxChassis cpus + 1) then s else i

/-- The body of the loop over the sockets, with the socket found at `j`. -/
def socketDimms (pdmi : DmiData) (cpus : List TopoCpu) (maxSocket i j s : ℕ) (st : MemWalk) :
    Option MemWalk :=
  (arrayHandle pdmi)[arrIndex pdmi cpus maxSocket i s]?.bind fun handle =>
    -- num_dimm[1024]
    if j < 1024 then
      (List.range (maxDimm pdmi handle)).foldlM (fun st k => dimmStep pdmi st ⟨i, s, k⟩) st
    else none

/-- The body of the loop over the chassis. -/
def chassisStep (pdmi : DmiData) (cpus : List TopoCpu) (st : MemWalk) (i : ℕ) : Option MemWalk :=
  (collectSockets cpus i).bind fun sk =>
    -- num_socket[1024]
    if i < 1024 then
      (List.range sk.maxSocket).foldlM (fun st j => sk.socket[j]?.bind fun s =>
        socketDimms pdmi cpus sk.maxSocket i j s st) st
    else none

/-- `fmd_topo_walk_mem`: what it adds to `list_mem`. -/
def fmdTopoWalkMem (pdmi : DmiData) (cpus : List TopoCpu) : Option (List TopoMem) :=
  ((List.range (maxChassis cpus + 1)).foldlM (chassisStep pdmi cpus) {}).map (·.listMem)

/-! ## The jobs of a walk -/

variable (pdmi : DmiData) (cpus : List TopoCpu)

/-- The index into `array_handle` for a socket that counts on the chassis `i`. -/
def jobIndex (i s : ℕ) : ℕ := arrIndex pdmi cpus (counted (chassisSockets cpus i)).length i s

/-- The devices declared by the array of a socket. -/
def declaredDimms (i s : ℕ) : ℕ :=
  ((arrayHandle pdmi)[jobIndex pdmi cpus i s]?.map (maxDimm pdmi)).getD 0

def socketJobs (i s : ℕ) : List MemJob := (List.range (declaredDimms pdmi cpus i s)).map (⟨i, s, ·⟩)

def chassisJobs (i : ℕ) : List MemJob :=
  (counted (chassisSockets cpus i)).flatMap (socketJobs pdmi cpus i)

def memJobs : List MemJob := (List.range (maxChassis cpus + 1)).flatMap (chassisJobs pdmi cpus)

/-- The devices declared for all sockets of all chassis. -/
def dimmTotal : ℕ :=
  ((List.range (maxChassis cpus + 1)).map fun i =>
    ((counted (chassisSockets cpus i)).map (declaredDimms pdmi cpus i)).sum).sum

theorem memJobs_length : (memJobs pdmi cpus).length = dimmTotal pdmi cpus := by
  simp only [memJobs, chassisJobs, socketJobs, dimmTotal, List.length_flatMap, List.length_map,
    List.length_range]

/-- The sockets of every chassis fit, there is an array for each of them, and there are as many
memory devices as these arrays declare. -/
structure WalkInBounds : Prop where
  sockets : ∀ i ∈ List.range (maxChassis cpus + 1), SocketsFit (chassisSockets cpus i)
  arrays : ∀ i ∈ List.range (maxChassis cpus + 1), ∀ s ∈ counted (chassisSockets cpus i),
    jobIndex pdmi cpus i s < pdmi.arrayList.length
  devices : dimmTotal pdmi cpus ≤ pdmi.deviceList.length

/-! ## Steps and runs -/

theorem length_deviceHandle : (deviceHandle pdmi).length = pdmi.deviceList.length := by
  rw [deviceHandle, handleSort, List.length_mergeSort, List.length_map]

theorem length_arrayHandle : (arrayHandle pdmi).length = pdmi.arrayList.length := by
  rw [arrayHandle, handleSort, List.length_mergeSort, List.length_map]

/-- The state when the jobs `J` are done. -/
def walkState (J : List MemJob) : MemWalk :=
  ⟨J.length, (List.zipWith (dimmEntry pdmi) J (deviceHandle pdmi)).reverse⟩

variable {pdmi cpus}

theorem dimmStep_walkState (J : List MemJob) (job : MemJob) :
    dimmStep pdmi (walkState pdmi J) job =
      if True ∧ J.length + [job].length ≤ (deviceHandle pdmi).length then
        some (walkState pdmi (J ++ [job]))
      else none := by
  unfold dimmStep
  change (deviceHandle pdmi)[J.length]?.map _ = _
  by_cases h : J.length < (deviceHandle pdmi).length
  · rw [if_pos ⟨trivial, h⟩, List.getElem?_eq_getElem h, Option.map_some, walkState, walkState,
      zipWith_snoc _ _ _ _ h, List.reverse_append, List.length_append]
    rfl
  · rw [if_neg fun hn => h hn.2, List.getElem?_eq_none (not_lt.mp h)]
    rfl

theorem socketDimms_walkState {J : List MemJob} (hJ : J.length ≤ (deviceHandle pdmi).length)
    (i s : ℕ) {j : ℕ} (hj : j < 1024) :
    socketDimms pdmi cpus (counted (chassisSockets cpus i)).length i j s (walkState pdmi J) =
      if jobIndex pdmi cpus i s < pdmi.arrayList.length ∧
          J.length + (socketJobs pdmi cpus i s).length ≤ (deviceHandle pdmi).length then
        some (walkState pdmi (J ++ socketJobs pdmi cpus i s))
      else none := by
  unfold socketDimms
  change (arrayHandle pdmi)[jobIndex pdmi cpus i s]?.bind _ = _
  by_cases hidx : jobIndex pdmi cpus i s < pdmi.arrayList.length
  · obtain ⟨handle, hh⟩ : ∃ h, (arrayHandle pdmi)[jobIndex pdmi cpus i s]? = some h :=
      ⟨_, List.getElem?_eq_getElem (by rwa [length_arrayHandle])⟩
    have hdecl : declaredDimms pdmi cpus i s = maxDimm pdmi handle := by
      rw [declaredDimms, hh]
      rfl
    have hrun := foldlM_filling (dimmStep pdmi) (walkState pdmi) (fun _ => True) (fun job => [job])
      (fun job (_ : job ∈ socketJobs pdmi cpus i s) J _ => dimmStep_walkState J job) hJ
    rw [socketJobs, hdecl, List.foldlM_map] at hrun
    rw [hh, Option.bind_some, if_pos hj, socketJobs, hdecl, hrun]
    refine if_congr ?_ ?_ rfl
    · simp [hidx]
    · simp
  · rw [List.getElem?_eq_none (by rw [length_arrayHandle]; omega), if_neg fun h => hidx h.1]
    rfl

theorem chassisStep_walkState {J : List MemJob} (hJ : J.length ≤ (deviceHandle pdmi).length) {i : ℕ}
    (hi : i < 1024) :
    chassisStep pdmi cpus (walkState pdmi J) i =
      if (SocketsFit (chassisSockets cpus i) ∧ ∀ s ∈ counted (chassisSockets cpus i),
            jobIndex pdmi cpus i s < pdmi.arrayList.length) ∧
          J.length + (chassisJobs pdmi cpus i).length ≤ (deviceHandle pdmi).length then
        some (walkState pdmi (J ++ chassisJobs pdmi cpus i))
      else none := by
  unfold chassisStep
  rw [collectSockets_eq]
  by_cases hfit : SocketsFit (chassisSockets cpus i)
  · have hlen : (counted (chassisSockets cpus i)).length ≤
        (socketLayout (counted (chassisSockets cpus i))).socket.length := by
      simp [socketLayout]
    have hj : ∀ (st : MemWalk) (s j : ℕ), j < (counted (chassisSockets cpus i)).length →
        socketDimms pdmi cpus (counted (chassisSockets cpus i)).length i j s st =
          socketDimms pdmi cpus (counted (chassisSockets cpus i)).length i 0 s st := by
      intro st s j hj
      have hj' : j < 1024 := by
        have := hfit.1
        omega
      simp only [socketDimms, if_pos hj', Nat.zero_lt_succ, if_true]
    have hloop := foldlM_range_getElem
      (fun st j s => socketDimms pdmi cpus (counted (chassisSockets cpus i)).length i j s st)
      (fun st s => socketDimms pdmi cpus (counted (chassisSockets cpus i)).length i 0 s st)
      hlen hj (walkState pdmi J)
    have htake : (socketLayout (counted (chassisSockets cpus i))).socket.take
        (counted (chassisSockets cpus i)).length = counted (chassisSockets cpus i) :=
      sockets_socketLayout _
    have hrun := foldlM_filling
      (fun st s => socketDimms pdmi cpus (counted (chassisSockets cpus i)).length i 0 s st)
      (walkState pdmi) (fun s => jobIndex pdmi cpus i s < pdmi.arrayList.length)
      (socketJobs pdmi cpus i) (fun s (_ : s ∈ counted (chassisSockets cpus i)) J hJ =>
        socketDimms_walkState hJ i s (by omega)) hJ
    rw [if_pos hfit, Option.bind_some, if_pos hi]
    rw [htake] at hloop
    refine hloop.trans (hrun.trans (if_congr ?_ rfl rfl))
    simp only [hfit, true_and, chassisJobs]
  · rw [if_neg hfit, if_neg fun h => hfit h.1.1]
    rfl

theorem maxChassis_lt (cpus : List TopoCpu) : maxChassis cpus < 256 := by
  unfold maxChassis
  induction cpus using List.reverseRecOn with
  | nil => simp
  | append_singleton cpus pcpu ih =>
    rw [List.foldl_append, List.foldl_cons, List.foldl_nil]
    split
    · exact Nat.mod_lt _ (by omega)
    · exact ih

instance : Decidable (WalkInBounds pdmi cpus) :=
  decidable_of_iff
    ((∀ i ∈ List.range (maxChassis cpus + 1), SocketsFit (chassisSockets cpus i) ∧
      ∀ s ∈ counted (chassisSockets cpus i), jobIndex pdmi cpus i s < pdmi.arrayList.length) ∧
      dimmTotal pdmi cpus ≤ pdmi.deviceList.length)
    ⟨fun h => ⟨fun i hi => (h.1 i hi).1, fun i hi => (h.1 i hi).2, h.2⟩,
      fun h => ⟨fun i hi => ⟨h.sockets i hi, h.arrays i hi⟩, h.devices⟩⟩

/-- **The walk: one entry for each declared device, with the handles in order.** -/
theorem fmdTopoWalkMem_eq (pdmi : DmiData) (cpus : List TopoCpu) :
    fmdTopoWalkMem pdmi cpus =
      if WalkInBounds pdmi cpus then
        some (List.zipWith (dimmEntry pdmi) (memJobs pdmi cpus) (deviceHandle pdmi)).reverse
      else none := by
  have hlt := maxChassis_lt cpus
  have hrun := foldlM_filling (chassisStep pdmi cpus) (walkState pdmi)
    (fun i => SocketsFit (chassisSockets cpus i) ∧ ∀ s ∈ counted (chassisSockets cpus i),
      jobIndex pdmi cpus i s < pdmi.arrayList.length)
    (chassisJobs pdmi cpus)
    (fun i (hi : i ∈ List.range (maxChassis cpus + 1)) J hJ => chassisStep_walkState hJ (by
      rw [List.mem_range] at hi
      omega))
    (J := []) (Nat.zero_le _)
  have hiff : ((∀ i ∈ List.range (maxChassis cpus + 1), SocketsFit (chassisSockets cpus i) ∧
      ∀ s ∈ counted (chassisSockets cpus i), jobIndex pdmi cpus i s < pdmi.arrayList.length) ∧
        ([] : List MemJob).length +
          ((List.range (maxChassis cpus + 1)).flatMap (chassisJobs pdmi cpus)).length ≤
            (deviceHandle pdmi).length) ↔ WalkInBounds pdmi cpus := by
    rw [← memJobs, memJobs_length, length_deviceHandle, List.length_nil, Nat.zero_add]
    exact ⟨fun h => ⟨fun i hi => (h.1 i hi).1, fun i hi => (h.1 i hi).2, h.2⟩,
      fun h => ⟨fun i hi => ⟨h.sockets i hi, h.arrays i hi⟩, h.devices⟩⟩
  have hinit : ({} : MemWalk) = walkState pdmi [] := rfl
  rw [fmdTopoWalkMem, hinit, hrun]
  by_cases h : WalkInBounds pdmi cpus
  · rw [if_pos h, if_pos (hiff.mpr h)]
    rfl
  · rw [if_neg h, if_neg fun h' => h (hiff.mp h')]
    rfl

/-- **Every index is in bounds exactly when the walk is.** -/
theorem isSome_fmdTopoWalkMem (pdmi : DmiData) (cpus : List TopoCpu) :
    (fmdTopoWalkMem pdmi cpus).isSome ↔ WalkInBounds pdmi cpus := by
  rw [fmdTopoWalkMem_eq]
  split
  · rename_i h
    simp [h]
  · rename_i h
    simp [h]

/-- An array of system memory for one device, and the device. -/
def oneDimm : List Struct :=
  [⟨16, 0x10, [3, 3, 3, 0, 0, 0x10, 0, 0xfe, 0xff, 1, 0], [], by decide⟩,
    ⟨17, 0x11, [0x10, 0, 0xfe, 0xff, 64, 0, 64, 0, 0, 4], [], by decide⟩]

/-- Two sockets of the chassis 0. -/
def twoSockets : List TopoCpu := [⟨0, 0, 0, 0, 0⟩, ⟨1, 0, 0, 1, 0⟩]

def oneDimmData : DmiData :=
  { arrayList := [⟨0x10, 1⟩], deviceList := [⟨0x11, 0x10, 1073741824⟩] }

theorem dmiTable_oneDimm : dmiTable (encode oneDimm) = some (some oneDimmData) := by
  rw [dmiTable_encode (by decide) (by decide)]
  rfl

theorem dimmTotal_oneDimm : dimmTotal oneDimmData twoSockets = 2 := by
  have harr : arrayHandle oneDimmData = [0x10] := by
    simp [arrayHandle, handleSort, oneDimmData]
  have hone : ∀ s, declaredDimms oneDimmData twoSockets 0 s = 1 := by
    intro s
    have hidx : jobIndex oneDimmData twoSockets 0 s = 0 := rfl
    rw [declaredDimms, hidx, harr]
    rfl
  change [([0, 1].map _).sum].sum = 2
  simp [hone]

/-- The device of the array is counted for both sockets. -/
theorem fmdTopoWalkMem_outOfBounds :
    ¬ ∀ table cpus pdmi, dmiTable (encode table) = some (some pdmi) →
      (fmdTopoWalkMem pdmi cpus).isSome := by
  intro h
  have hwalk := h oneDimm twoSockets oneDimmData dmiTable_oneDimm
  have hout : ¬ WalkInBounds oneDimmData twoSockets := fun hin => by
    have hdev := hin.devices
    rw [dimmTotal_oneDimm] at hdev
    exact absurd hdev (by decide)
  rw [fmdTopoWalkMem_eq, if_neg hout] at hwalk
  cases hwalk

/-! ## The ranges of the DIMMs -/

/-- The device of a mapped address. -/
def mappedHandle (s : Struct) : BitVec 16 := s.wordAt 12

/-- The range of a mapped address: unsigned, and scaled. -/
def mappedRange (s : Struct) : BitVec 64 × BitVec 64 :=
  dmiScale ((s.dwordAt 4).setWidth 64) ((s.dwordAt 8).setWidth 64)

/-- The range that is stored for a mapped address. -/
def storedRange (s : Struct) : BitVec 64 × BitVec 64 :=
  dmiScale ((s.dwordAt 4).signExtend 64) ((s.dwordAt 8).signExtend 64)

theorem dmiWord_formatted {s : Struct} {i : ℕ} (h : i + 1 < s.formatted.length) :
    dmiWord s.formatted i = some (s.wordAt i) := by
  rw [dmiWord, s.getElem?_formatted h, s.getElem?_formatted (by omega)]
  rfl

theorem dmiAddr_formatted {s : Struct} {i : ℕ} (h : i + 3 < s.formatted.length) :
    dmiAddr s.formatted i = some ((s.dwordAt i).signExtend 64) := by
  rw [dmiAddr, dmiWord_formatted (by omega), dmiWord_formatted (by omega)]
  rfl

theorem structDeviceMapAddr_eq {s : Struct} (hs : StructComplete s) (ht : s.type = 20) :
    structDeviceMapAddr s = some ⟨(s.handle.setWidth 8).toNat, (mappedHandle s).toNat,
      (s.byteAt 14).toNat, (storedRange s).1, (storedRange s).2, 0, 0⟩ := by
  have hlen : 15 ≤ s.formatted.length := by
    rw [StructComplete, ht] at hs
    exact hs
  rw [structDeviceMapAddr, if_pos ht, dmiDeviceMapAddr, dmiWord_formatted (by omega),
    s.getElem?_formatted (by omega), s.getElem?_formatted (i := 14) (by omega),
    dmiAddr_formatted (by omega), dmiAddr_formatted (by omega)]
  rfl

/-- The first mapped address of the table with a device handle. -/
def firstMapped (table : List Struct) (h : ℕ) : Option Struct :=
  table.find? fun s => s.type = 20 ∧ (mappedHandle s).toNat = h

/-- **The first mapped address in the order of the table gives the range.** -/
theorem deviceRange_addTable {table : List Struct} (hw : ∀ s ∈ table, StructComplete s) (h : ℕ) :
    deviceRange (({} : DmiData).addTable table) h =
      ((firstMapped table h).map storedRange).getD (0, 0) := by
  have hlast := foldl_last (fun a : DmiDeviceMapAddr => decide (h = a.deviceHandle))
    (fun a => (a.start, a.end)) (table.filterMap structDeviceMapAddr) (0, 0)
  have hlist : (({} : DmiData).addTable table).deviceAddrList =
      (table.filterMap structDeviceMapAddr).reverse := List.append_nil _
  simp only [decide_eq_true_eq] at hlast
  rw [deviceRange, hlist, hlast]
  clear hlast hlist
  congr 1
  induction table with
  | nil => rfl
  | cons s table ih =>
    rw [List.forall_mem_cons] at hw
    by_cases ht : s.type = 20
    · rw [List.filterMap_cons_some (structDeviceMapAddr_eq hw.1 ht), List.find?_cons, firstMapped,
        List.find?_cons]
      by_cases hh : (mappedHandle s).toNat = h
      · simp [ht, hh]
      · have hne : ¬ h = (mappedHandle s).toNat := fun h' => hh h'.symm
        simp only [hne, hh, and_false, decide_false]
        exact ih hw.2
    · have hnone : structDeviceMapAddr s = none := if_neg ht
      rw [List.filterMap_cons_none hnone, firstMapped, List.find?_cons]
      simp only [ht, false_and, decide_false]
      exact ih hw.2

/-! ### Signed and unsigned addresses -/

theorem toNat_signExtend_of_msb {x : BitVec 32} (h : x.msb = true) :
    (x.signExtend 64).toNat = 2 ^ 64 - 2 ^ 32 + x.toNat := by
  rw [BitVec.toNat_signExtend, if_pos h, BitVec.toNat_setWidth, Nat.mod_eq_of_lt (by omega)]
  omega

theorem toNat_mul_1024 (x : BitVec 64) : (x * 1024).toNat = x.toNat * 1024 % 2 ^ 64 := by
  rw [BitVec.toNat_mul]
  rfl

theorem dmiScale_setWidth_lt (x y : BitVec 32) :
    (dmiScale (x.setWidth 64) (y.setWidth 64)).1.toNat < 2 ^ 42 ∧
      (dmiScale (x.setWidth 64) (y.setWidth 64)).2.toNat < 2 ^ 42 := by
  have hx := x.isLt
  have hy := y.isLt
  unfold dmiScale
  split
  · simp only [toNat_mul_1024, BitVec.toNat_setWidth]
    constructor <;> omega
  · simp only [BitVec.toNat_setWidth]
    constructor <;> omega

/-- A negative address is stored as one near the top. -/
theorem dmiScale_signExtend_ge (x y : BitVec 32) :
    (x.msb = true → 2 ^ 63 ≤ (dmiScale (x.signExtend 64) (y.signExtend 64)).1.toNat) ∧
      (y.msb = true → 2 ^ 63 ≤ (dmiScale (x.signExtend 64) (y.signExtend 64)).2.toNat) := by
  have hx := x.isLt
  have hy := y.isLt
  have hmsb : ∀ z : BitVec 32, z.msb = true → 2 ^ 31 ≤ z.toNat := fun z hz => by
    rw [BitVec.msb_eq_decide] at hz
    simpa using hz
  unfold dmiScale
  split
  · constructor
    · intro h
      have := hmsb x h
      rw [toNat_mul_1024, toNat_signExtend_of_msb h]
      omega
    · intro h
      have := hmsb y h
      rw [toNat_mul_1024, toNat_signExtend_of_msb h]
      omega
  · constructor
    · intro h
      rw [toNat_signExtend_of_msb h]
      omega
    · intro h
      rw [toNat_signExtend_of_msb h]
      omega

/-- **A stored range is the unsigned one of a structure exactly when no sign bit was set.** -/
theorem storedRange_eq_iff (s a : Struct) :
    storedRange s = mappedRange a ↔
      (s.dwordAt 4).msb = false ∧ (s.dwordAt 8).msb = false ∧ mappedRange s = mappedRange a := by
  have hlow : (s.dwordAt 4).msb = false → (s.dwordAt 8).msb = false →
      storedRange s = mappedRange s := by
    intro h4 h8
    rw [storedRange, mappedRange, BitVec.signExtend_eq_setWidth_of_msb_false h4,
      BitVec.signExtend_eq_setWidth_of_msb_false h8]
  have hbound := dmiScale_setWidth_lt (a.dwordAt 4) (a.dwordAt 8)
  have hsign := dmiScale_signExtend_ge (s.dwordAt 4) (s.dwordAt 8)
  constructor
  · intro h
    rw [← mappedRange, ← h, storedRange] at hbound
    have h4 : (s.dwordAt 4).msb = false := by
      by_contra hne
      have := hsign.1 (by simpa using hne)
      omega
    have h8 : (s.dwordAt 8).msb = false := by
      by_contra hne
      have := hsign.2 (by simpa using hne)
      omega
    exact ⟨h4, h8, (hlow h4 h8).symm.trans h⟩
  · rintro ⟨h4, h8, h⟩
    exact (hlow h4 h8).trans h

/-! ### Every entry with its own range -/

/-- Structures that hold their fields, with different handles. -/
structure TableWellFormed (table : List Struct) : Prop where
  complete : ∀ s ∈ table, StructComplete s
  handles : (table.map (·.handle)).Nodup

/-- Every entry for a memory device `d`, one whose handle was stored for the place of the entry,
carries the range of each mapped address `a` of that device. The entries are counted as they are
created. -/
def RangesRight (table : List Struct) (pdmi : DmiData) (listMem : List TopoMem) : Prop :=
  ∀ (n : ℕ) (m : TopoMem) (h : ℕ), listMem.reverse[n]? = some m → (deviceHandle pdmi)[n]? = some h →
    ∀ d ∈ table, d.type = 17 → (d.handle.setWidth 8).toNat = h →
      ∀ a ∈ table, a.type = 20 → mappedHandle a = d.handle → (m.start, m.end) = mappedRange a

/-- The mapped address that is found for a handle of 8 bits has the range of `a`, and no address with
the sign bit; none is found only if the range of `a` is empty. -/
def RangeFound (table : List Struct) (h : ℕ) (a : Struct) : Prop :=
  match firstMapped table h with
  | some s => (s.dwordAt 4).msb = false ∧ (s.dwordAt 8).msb = false ∧ mappedRange s = mappedRange a
  | none => mappedRange a = (0, 0)

/-- The handles that are taken find the ranges of their devices. -/
def RangesFound (table : List Struct) (pdmi : DmiData) (cpus : List TopoCpu) : Prop :=
  ∀ h ∈ (deviceHandle pdmi).take (dimmTotal pdmi cpus),
    ∀ d ∈ table, d.type = 17 → (d.handle.setWidth 8).toNat = h →
      ∀ a ∈ table, a.type = 20 → mappedHandle a = d.handle → RangeFound table h a

theorem rangeFound_iff {table : List Struct} (hw : ∀ s ∈ table, StructComplete s) (h : ℕ)
    (a : Struct) :
    deviceRange (({} : DmiData).addTable table) h = mappedRange a ↔ RangeFound table h a := by
  rw [deviceRange_addTable hw, RangeFound]
  cases firstMapped table h with
  | none => exact eq_comm
  | some s => exact storedRange_eq_iff s a

theorem dmiTable_encode_eq_some {table : List Struct} (hw : ∀ s ∈ table, StructComplete s)
    {pdmi : DmiData} (hp : dmiTable (encode table) = some (some pdmi)) :
    pdmi = ({} : DmiData).addTable table := by
  have hne : table ≠ [] := by
    rintro rfl
    cases hp
  rw [dmiTable_encode hne hw] at hp
  exact (Option.some.inj (Option.some.inj hp)).symm

theorem getElem?_entries {n : ℕ} {m : TopoMem} {h : ℕ} (hh : (deviceHandle pdmi)[n]? = some h) :
    (List.zipWith (dimmEntry pdmi) (memJobs pdmi cpus) (deviceHandle pdmi))[n]? = some m ↔
      ∃ job, (memJobs pdmi cpus)[n]? = some job ∧ dimmEntry pdmi job h = m := by
  rw [List.getElem?_zipWith_eq_some]
  constructor
  · rintro ⟨job, h', hjob, hh', hm⟩
    rw [hh, Option.some_inj] at hh'
    exact ⟨job, hjob, hh' ▸ hm⟩
  · rintro ⟨job, hjob, hm⟩
    exact ⟨job, h, hjob, hh, hm⟩

theorem mem_take_iff {l : List ℕ} {k h : ℕ} : h ∈ l.take k ↔ ∃ n < k, l[n]? = some h := by
  rw [List.mem_iff_getElem?]
  refine exists_congr fun n => ?_
  rw [List.getElem?_take]
  split
  · rename_i hn
    simp [hn]
  · rename_i hn
    simp [hn]

/-- **The ranges are right exactly when the 8 bits of the handles that are taken find them.** -/
theorem dimmRanges_iff {table : List Struct} (hw : TableWellFormed table) {pdmi : DmiData}
    (hp : dmiTable (encode table) = some (some pdmi)) (cpus : List TopoCpu) :
    (∀ listMem, fmdTopoWalkMem pdmi cpus = some listMem → RangesRight table pdmi listMem) ↔
      (WalkInBounds pdmi cpus → RangesFound table pdmi cpus) := by
  obtain rfl := dmiTable_encode_eq_some hw.complete hp
  set pdmi := ({} : DmiData).addTable table
  rw [fmdTopoWalkMem_eq]
  by_cases hin : WalkInBounds pdmi cpus
  · rw [if_pos hin]
    constructor
    · intro hright _ h htake d hd ht hdh a ha hat hah
      obtain ⟨n, hn, hnh⟩ := mem_take_iff.mp htake
      obtain ⟨job, hjob⟩ : ∃ job, (memJobs pdmi cpus)[n]? = some job :=
        ⟨_, List.getElem?_eq_getElem (by rw [memJobs_length]; exact hn)⟩
      have hm := (getElem?_entries hnh).mpr ⟨job, hjob, rfl⟩
      rw [← rangeFound_iff hw.complete]
      exact hright _ rfl n _ h (by rw [List.reverse_reverse]; exact hm) hnh d hd ht hdh a ha hat hah
    · intro hfound listMem hmem n m h hm hh d hd ht hdh a ha hat hah
      rw [← Option.some.inj hmem, List.reverse_reverse] at hm
      obtain ⟨job, hjob, rfl⟩ := (getElem?_entries hh).mp hm
      have hn : n < dimmTotal pdmi cpus := by
        rw [← memJobs_length]
        exact (List.getElem?_eq_some_iff.mp hjob).1
      have htake : h ∈ (deviceHandle pdmi).take (dimmTotal pdmi cpus) :=
        mem_take_iff.mpr ⟨n, hn, hh⟩
      exact (rangeFound_iff hw.complete h a).mpr (hfound hin h htake d hd ht hdh a ha hat hah)
  · rw [if_neg hin]
    exact ⟨fun _ h => absurd h hin, fun _ _ h => by cases h⟩

/-- An array for one device, the device with the handle 0x1100, and its range of 4 GiB. -/
def wideHandle : List Struct :=
  [⟨16, 0x1000, [3, 3, 3, 0, 0, 0x40, 0, 0xfe, 0xff, 1, 0], [], by decide⟩,
    ⟨17, 0x1100, [0, 0x10, 0xfe, 0xff, 64, 0, 64, 0, 0, 0x10], [], by decide⟩,
    ⟨20, 0x1400, [0, 0, 0, 0, 0xff, 0xff, 0x3f, 0, 0, 0x11, 0, 0x13, 1, 0, 0], [], by decide⟩]

def wideHandleData : DmiData :=
  { arrayList := [⟨0, 1⟩], deviceList := [⟨0, 0x1000, 4294967296⟩],
    deviceAddrList := [⟨0, 0x1100, 0, 0, 0x3fffff, 0, 0⟩] }

/-- One socket of the chassis 0. -/
def oneSocket : List TopoCpu := [⟨0, 0, 0, 0, 0⟩]

theorem dmiTable_wideHandle : dmiTable (encode wideHandle) = some (some wideHandleData) := by
  rw [dmiTable_encode (by decide) (by decide)]
  rfl

theorem wideHandle_wellFormed : TableWellFormed wideHandle := ⟨by decide, by decide⟩

theorem dimmRanges_iff_wideHandle :
    (∀ listMem, fmdTopoWalkMem wideHandleData oneSocket = some listMem →
        RangesRight wideHandle wideHandleData listMem) ↔
      (WalkInBounds wideHandleData oneSocket →
        RangesFound wideHandle wideHandleData oneSocket) :=
  dimmRanges_iff wideHandle_wellFormed dmiTable_wideHandle oneSocket

theorem deviceHandle_wideHandle : deviceHandle wideHandleData = [0] := by
  simp [deviceHandle, handleSort, wideHandleData]

theorem fmdTopoWalkMem_wideHandle :
    fmdTopoWalkMem wideHandleData oneSocket = some [⟨0, 0, 0, 0, 0, 0⟩] := by
  have harr : arrayHandle wideHandleData = [0] := by
    simp [arrayHandle, handleSort, wideHandleData]
  have hone : declaredDimms wideHandleData oneSocket 0 0 = 1 := by
    have hidx : jobIndex wideHandleData oneSocket 0 0 = 0 := rfl
    rw [declaredDimms, hidx, harr]
    rfl
  have hjobs : memJobs wideHandleData oneSocket = [⟨0, 0, 0⟩] := by
    change [[0].flatMap (socketJobs wideHandleData oneSocket 0)].flatten = _
    simp [socketJobs, hone]
  have hin : WalkInBounds wideHandleData oneSocket := by
    refine ⟨by decide, by decide, ?_⟩
    rw [← memJobs_length, hjobs]
    decide
  rw [fmdTopoWalkMem_eq, if_pos hin, hjobs, deviceHandle_wideHandle]
  rfl

/-- The handle 0x1100 is stored as 0, which no mapped address names. -/
theorem dimmRanges_wideHandle :
    ¬ ∀ table, TableWellFormed table → ∀ pdmi, dmiTable (encode table) = some (some pdmi) →
      ∀ cpus listMem, fmdTopoWalkMem pdmi cpus = some listMem → RangesRight table pdmi listMem := by
  intro h
  have hright := h wideHandle wideHandle_wellFormed _ dmiTable_wideHandle oneSocket _
    fmdTopoWalkMem_wideHandle
  have hrange := hright 0 _ 0 rfl (by rw [deviceHandle_wideHandle]; rfl) wideHandle[1]
    (List.getElem_mem _) rfl rfl wideHandle[2] (List.getElem_mem _) rfl rfl
  exact absurd hrange (by decide)

end Fms
