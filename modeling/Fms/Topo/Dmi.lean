import Fms.Lib.Smbios

/-!
# Decoding the SMBIOS table

lib/libtopo/dmi.c: `dmi_table` copies `len` bytes of firmware memory and walks over the structures in
them. What the walk reads outside the copy has no value: `none`.

* `dmiStruct`: the fields that one structure adds to the lists;
* `dmiTable`: the whole walk; the lists hold the structures in the reverse order (`list_add`);
* **`dmiTable_isSome_iff`**: when every byte read lies inside the table;
* **`dmiTable_encode`**: what a table of complete structures is decoded to.
-/

namespace Fms

open Smbios

/-! ## The lists -/

/-- `dmi_processor_t` -/
structure DmiProcessor where
  handle : ℕ
  processorId : ℕ

/-- `dmi_mem_array_t` -/
structure DmiMemArray where
  handle : ℕ
  devices : ℕ

/-- `dmi_mem_device_t` -/
structure DmiMemDevice where
  handle : ℕ
  arrayHandle : ℕ
  size : ℕ := 0

/-- `dmi_array_map_addr_t` -/
structure DmiArrayMapAddr where
  handle : ℕ
  arrayHandle : ℕ
  start : BitVec 64
  «end» : BitVec 64
  extendedStart : BitVec 64 := 0
  extendedEnd : BitVec 64 := 0

/-- `dmi_device_map_addr_t` -/
structure DmiDeviceMapAddr where
  handle : ℕ
  deviceHandle : ℕ
  arrayAddrHandle : ℕ
  start : BitVec 64
  «end» : BitVec 64
  extendedStart : BitVec 64 := 0
  extendedEnd : BitVec 64 := 0

/-- `dmi_data_t` -/
structure DmiData where
  processorList : List DmiProcessor := []
  arrayList : List DmiMemArray := []
  deviceList : List DmiMemDevice := []
  arrayAddrList : List DmiArrayMapAddr := []
  deviceAddrList : List DmiDeviceMapAddr := []

/-! ## The fields of one structure -/

/-- `data[i + 1] << 8 | data[i]` -/
def dmiWord (data : List Byte) (i : ℕ) : Option (BitVec 16) := do
  let hi ← data[i + 1]?
  let lo ← data[i]?
  return word lo hi

/-- `(data[i] | data[i + 1] << 8) | (data[i + 2] | data[i + 3] << 8) << 16`. The bytes are promoted to
`int`, so the value is one of 32 bits with a sign, which the assignment to a `uint64_t` extends. -/
def dmiAddr (data : List Byte) (i : ℕ) : Option (BitVec 64) := do
  let lo ← dmiWord data i
  let hi ← dmiWord data (i + 2)
  return (hi ++ lo : BitVec 32).signExtend 64

/-- The range of a mapped address: fewer than 512 units are taken as megabytes. -/
def dmiScale (start stop : BitVec 64) : BitVec 64 × BitVec 64 :=
  if stop - start < 512 then (start * 1024, stop * 1024) else (start, stop)

/-- The size of a memory device, 0 if it is unknown. -/
def dmiSize (u : BitVec 16) : ℕ :=
  if u ≠ 0xffff then 1024 * (u &&& 0x7fff).toNat * (if u &&& 0x8000 ≠ 0 then 1 else 1024) else 0

/-- type 4 -/
def dmiProcessor (data : List Byte) : Option DmiProcessor := do
  let handle ← data[2]?
  let processorId ← data[8]?
  return ⟨handle.toNat, processorId.toNat⟩

/-- type 16, system memory -/
def dmiMemArray (data : List Byte) : Option DmiMemArray := do
  let handle ← data[2]?
  let devices ← data[13]?
  return ⟨handle.toNat, devices.toNat⟩

/-- type 17 -/
def dmiMemDevice (data : List Byte) : Option DmiMemDevice := do
  let handle ← data[2]?
  let arrayHandle ← dmiWord data 4
  let u ← dmiWord data 12
  return ⟨handle.toNat, arrayHandle.toNat, dmiSize u⟩

/-- type 19 -/
def dmiArrayMapAddr (data : List Byte) : Option DmiArrayMapAddr := do
  let handle ← data[2]?
  let arrayHandle ← dmiWord data 12
  let start ← dmiAddr data 4
  let stop ← dmiAddr data 8
  return ⟨handle.toNat, arrayHandle.toNat, (dmiScale start stop).1, (dmiScale start stop).2, 0, 0⟩

/-- type 20 -/
def dmiDeviceMapAddr (data : List Byte) : Option DmiDeviceMapAddr := do
  let handle ← data[2]?
  let deviceHandle ← dmiWord data 12
  let arrayAddrHandle ← data[14]?
  let start ← dmiAddr data 4
  let stop ← dmiAddr data 8
  return ⟨handle.toNat, deviceHandle.toNat, arrayAddrHandle.toNat,
    (dmiScale start stop).1, (dmiScale start stop).2, 0, 0⟩

/-- The body of the loop, up to the length: the structure at `data` is added to its list. -/
def dmiStruct (type : Byte) (data : List Byte) (pdmi : DmiData) : Option DmiData :=
  if type = 4 then
    (dmiProcessor data).map fun d => { pdmi with processorList := d :: pdmi.processorList }
  else if type = 16 then
    data[5]?.bind fun use =>
      if use = 3 then
        (dmiMemArray data).map fun d => { pdmi with arrayList := d :: pdmi.arrayList }
      else some pdmi
  else if type = 17 then
    (dmiMemDevice data).map fun d => { pdmi with deviceList := d :: pdmi.deviceList }
  else if type = 19 then
    (dmiArrayMapAddr data).map fun d => { pdmi with arrayAddrList := d :: pdmi.arrayAddrList }
  else if type = 20 then
    (dmiDeviceMapAddr data).map fun d => { pdmi with deviceAddrList := d :: pdmi.deviceAddrList }
  else some pdmi

/-! ## The walk -/

/-- The loop over the structures, with the bytes that are left. -/
def dmiWalk (data : List Byte) (pdmi : DmiData) : Option DmiData :=
  match data with
  | t :: length :: h₀ :: h₁ :: body =>
    -- incomplete structure, abort decoding
    if body.length + 4 < length.toNat then some pdmi
    else
      match dmiStruct t (t :: length :: h₀ :: h₁ :: body) pdmi,
        _h : skipStrings ((t :: length :: h₀ :: h₁ :: body).drop length.toNat) with
      | some pdmi, some rest => dmiWalk rest pdmi
      | _, _ => none
  | _ => some pdmi
termination_by data.length
decreasing_by
  have := skipStrings_length _h
  simp only [List.length_drop, List.length_cons] at this
  simp only [List.length_cons]
  omega

/-- `dmi_table` on the copy of the table: `none` when a byte outside is read, `some none` is NULL. -/
def dmiTable (buf : List Byte) : Option (Option DmiData) :=
  if buf.length = 0 then some none else (dmiWalk buf {}).map some

/-! ## What is read lies inside -/

variable {data : List Byte} {pdmi : DmiData}

theorem isSome_bind {α β : Type} {x : Option β} {f : β → Option α} {P : Prop}
    (h : ∀ b, (f b).isSome ↔ P) : (x.bind f).isSome ↔ x.isSome ∧ P := by
  cases x with
  | none => simp
  | some b => simpa using h b

theorem isSome_byte (i : ℕ) : (data[i]?).isSome ↔ i < data.length := by
  simp

theorem isSome_dmiWord (i : ℕ) : (dmiWord data i).isSome ↔ i + 1 < data.length := by
  have h : (dmiWord data i).isSome ↔ (data[i + 1]?).isSome ∧ (data[i]?).isSome ∧ True :=
    isSome_bind fun _ => isSome_bind fun _ => by simp
  rw [h, isSome_byte, isSome_byte, and_true]
  omega

theorem isSome_dmiAddr (i : ℕ) : (dmiAddr data i).isSome ↔ i + 3 < data.length := by
  have h : (dmiAddr data i).isSome ↔
      (dmiWord data i).isSome ∧ (dmiWord data (i + 2)).isSome ∧ True :=
    isSome_bind fun _ => isSome_bind fun _ => by simp
  rw [h, isSome_dmiWord, isSome_dmiWord, and_true]
  omega

theorem isSome_dmiProcessor : (dmiProcessor data).isSome ↔ 9 ≤ data.length := by
  have h : (dmiProcessor data).isSome ↔ (data[2]?).isSome ∧ (data[8]?).isSome ∧ True :=
    isSome_bind fun _ => isSome_bind fun _ => by simp
  rw [h, isSome_byte, isSome_byte, and_true]
  omega

theorem isSome_dmiMemArray : (dmiMemArray data).isSome ↔ 14 ≤ data.length := by
  have h : (dmiMemArray data).isSome ↔ (data[2]?).isSome ∧ (data[13]?).isSome ∧ True :=
    isSome_bind fun _ => isSome_bind fun _ => by simp
  rw [h, isSome_byte, isSome_byte, and_true]
  omega

theorem isSome_dmiMemDevice : (dmiMemDevice data).isSome ↔ 14 ≤ data.length := by
  have h : (dmiMemDevice data).isSome ↔
      (data[2]?).isSome ∧ (dmiWord data 4).isSome ∧ (dmiWord data 12).isSome ∧ True :=
    isSome_bind fun _ => isSome_bind fun _ => isSome_bind fun _ => by simp
  rw [h, isSome_byte, isSome_dmiWord, isSome_dmiWord, and_true]
  omega

theorem isSome_dmiArrayMapAddr : (dmiArrayMapAddr data).isSome ↔ 14 ≤ data.length := by
  have h : (dmiArrayMapAddr data).isSome ↔ (data[2]?).isSome ∧ (dmiWord data 12).isSome ∧
      (dmiAddr data 4).isSome ∧ (dmiAddr data 8).isSome ∧ True :=
    isSome_bind fun _ => isSome_bind fun _ => isSome_bind fun _ => isSome_bind fun _ => by simp
  rw [h, isSome_byte, isSome_dmiWord, isSome_dmiAddr, isSome_dmiAddr, and_true]
  omega

theorem isSome_dmiDeviceMapAddr : (dmiDeviceMapAddr data).isSome ↔ 15 ≤ data.length := by
  have h : (dmiDeviceMapAddr data).isSome ↔ (data[2]?).isSome ∧ (dmiWord data 12).isSome ∧
      (data[14]?).isSome ∧ (dmiAddr data 4).isSome ∧ (dmiAddr data 8).isSome ∧ True :=
    isSome_bind fun _ => isSome_bind fun _ => isSome_bind fun _ => isSome_bind fun _ =>
      isSome_bind fun _ => by simp
  rw [h, isSome_byte, isSome_dmiWord, isSome_byte, isSome_dmiAddr, isSome_dmiAddr, and_true]
  omega

/-- One more than the largest offset that is read of a structure. -/
def dmiReads (type : Byte) (data : List Byte) : ℕ :=
  if type = 4 then 9
  else if type = 16 then if data[5]? = some 3 then 14 else 6
  else if type = 17 ∨ type = 19 then 14
  else if type = 20 then 15
  else 4

theorem isSome_dmiStruct_array (h5 : data[5]?.isSome) :
    (data[5]?.bind fun use =>
      if use = 3 then
        (dmiMemArray data).map fun d => { pdmi with arrayList := d :: pdmi.arrayList }
      else some pdmi).isSome ↔ (data[5]? = some 3 → 14 ≤ data.length) := by
  obtain ⟨use, hu⟩ := Option.isSome_iff_exists.mp h5
  rw [hu, Option.bind_some]
  by_cases h : use = 3
  · rw [if_pos h, Option.isSome_map, isSome_dmiMemArray, h]
    simp
  · rw [if_neg h]
    exact ⟨fun _ h' => absurd (Option.some.inj h') h, fun _ => rfl⟩

/-- **The fields are read whatever the length byte of the structure says.** -/
theorem isSome_dmiStruct (type : Byte) (pdmi : DmiData) (h4 : 4 ≤ data.length) :
    (dmiStruct type data pdmi).isSome ↔ dmiReads type data ≤ data.length := by
  unfold dmiStruct dmiReads
  split
  · rw [Option.isSome_map, isSome_dmiProcessor]
  split
  · by_cases h5 : 5 < data.length
    · rw [isSome_dmiStruct_array (isSome_byte 5 |>.mpr h5)]
      split <;> rename_i h
      · exact ⟨fun hl => hl h, fun hl _ => hl⟩
      · exact ⟨fun _ => h5, fun _ h' => absurd h' h⟩
    · have hnone : data[5]? = none := List.getElem?_eq_none (not_lt.mp h5)
      simp only [hnone, Option.bind_none, Option.isSome_none, Bool.false_eq_true, false_iff]
      split <;> omega
  split
  · rename_i h17
    rw [Option.isSome_map, isSome_dmiMemDevice, if_pos (Or.inl h17)]
  rename_i h17
  split
  · rename_i h19
    rw [Option.isSome_map, isSome_dmiArrayMapAddr, if_pos (Or.inr h19)]
  rename_i h19
  rw [if_neg (not_or.mpr ⟨h17, h19⟩)]
  split
  · rw [Option.isSome_map, isSome_dmiDeviceMapAddr]
  · simpa using h4

/-! ## The walk stays inside -/

/-- A table that ends where the walk ends: structures whose fields lie inside the table, each with a
pair of NULs behind its formatted area, up to less than a header or a structure that is cut off. -/
inductive DmiBounded : List Byte → Prop where
  | header {data : List Byte} (h : data.length < 4) : DmiBounded data
  | incomplete {t length h₀ h₁ : Byte} {body : List Byte}
      (h : body.length + 4 < length.toNat) : DmiBounded (t :: length :: h₀ :: h₁ :: body)
  | struct {t length h₀ h₁ : Byte} {body formatted strs rest : List Byte}
      (hdata : t :: length :: h₀ :: h₁ :: body = formatted ++ (strs ++ 0 :: 0 :: rest))
      (hlength : formatted.length = length.toNat) (hstrs : NoPair strs)
      (hreads : dmiReads t (t :: length :: h₀ :: h₁ :: body) ≤ body.length + 4)
      (hrest : DmiBounded rest) : DmiBounded (t :: length :: h₀ :: h₁ :: body)

theorem dmiWalk_short {data : List Byte} (h : data.length < 4) : dmiWalk data pdmi = some pdmi := by
  match data, h with
  | [], _ => rw [dmiWalk]; simp
  | [_], _ => rw [dmiWalk]; simp
  | [_, _], _ => rw [dmiWalk]; simp
  | [_, _, _], _ => rw [dmiWalk]; simp

section
variable {t length h₀ h₁ : Byte} {body : List Byte}

theorem dmiWalk_incomplete (h : body.length + 4 < length.toNat) :
    dmiWalk (t :: length :: h₀ :: h₁ :: body) pdmi = some pdmi := by
  rw [dmiWalk, if_pos h]

theorem dmiWalk_struct (h : ¬ body.length + 4 < length.toNat) :
    dmiWalk (t :: length :: h₀ :: h₁ :: body) pdmi =
      (dmiStruct t (t :: length :: h₀ :: h₁ :: body) pdmi).bind fun pdmi =>
        (skipStrings ((t :: length :: h₀ :: h₁ :: body).drop length.toNat)).bind fun rest =>
          dmiWalk rest pdmi := by
  rw [dmiWalk, if_neg h]
  split
  · rename_i hs hr
    rw [hs, hr, Option.bind_some, Option.bind_some]
  · rename_i hno
    cases hs : dmiStruct t (t :: length :: h₀ :: h₁ :: body) pdmi with
    | none => rfl
    | some p =>
      cases hr : skipStrings ((t :: length :: h₀ :: h₁ :: body).drop length.toNat) with
      | none => rfl
      | some rest => exact absurd hr (hno p rest hs)

end

/-- A walk that reads no byte outside goes over a table that is bounded. -/
theorem dmiBounded_of_walk {data : List Byte} (h : (dmiWalk data pdmi).isSome) :
    DmiBounded data := by
  generalize hn : data.length = n
  induction n using Nat.strong_induction_on generalizing data pdmi with
  | _ n ih =>
    match data with
    | [] | [_] | [_, _] | [_, _, _] => exact .header (by simp)
    | t :: length :: h₀ :: h₁ :: body =>
      by_cases hl : body.length + 4 < length.toNat
      · exact .incomplete hl
      rw [dmiWalk_struct hl] at h
      have hreads : dmiReads t (t :: length :: h₀ :: h₁ :: body) ≤ body.length + 4 := by
        refine (isSome_dmiStruct t pdmi (by simp)).mp ?_
        exact Option.isSome_of_isSome_bind h
      obtain ⟨p, hp⟩ := Option.isSome_iff_exists.mp (Option.isSome_of_isSome_bind h)
      rw [hp, Option.bind_some] at h
      obtain ⟨rest, hr⟩ := Option.isSome_iff_exists.mp (Option.isSome_of_isSome_bind h)
      rw [hr, Option.bind_some] at h
      obtain ⟨strs, hdrop, hstrs⟩ := skipStrings_eq_some.mp hr
      have hdata : t :: length :: h₀ :: h₁ :: body =
          (t :: length :: h₀ :: h₁ :: body).take length.toNat ++ (strs ++ 0 :: 0 :: rest) := by
        rw [← hdrop, List.take_append_drop]
      refine .struct hdata ?_ hstrs hreads ?_
      · rw [List.length_take]
        simp only [List.length_cons]
        omega
      · have hlen := skipStrings_length hr
        simp only [List.length_drop, List.length_cons] at hlen hn
        exact ih rest.length (by omega) h rfl

/-- **The walk of a bounded table reads no byte outside.** -/
theorem isSome_dmiWalk {data : List Byte} (h : DmiBounded data) (pdmi : DmiData) :
    (dmiWalk data pdmi).isSome := by
  induction h generalizing pdmi with
  | header h => rw [dmiWalk_short h]; rfl
  | incomplete h => rw [dmiWalk_incomplete h]; rfl
  | @struct t length h₀ h₁ body formatted strs rest hdata hlength hstrs hreads _ ih =>
    have hlen := congrArg List.length hdata
    simp only [List.length_cons, List.length_append] at hlen
    rw [dmiWalk_struct (by omega)]
    obtain ⟨p, hp⟩ := Option.isSome_iff_exists.mp
      ((isSome_dmiStruct t pdmi (by simp)).mpr hreads)
    rw [hp, Option.bind_some, hdata, List.drop_left' hlength, skipStrings_of_noPair hstrs,
      Option.bind_some]
    exact ih p

/-- **Every byte read lies inside the table exactly when the table is bounded.** -/
theorem dmiTable_isSome_iff (buf : List Byte) : (dmiTable buf).isSome ↔ DmiBounded buf := by
  unfold dmiTable
  split
  · rename_i h0
    exact ⟨fun _ => .header (by omega), fun _ => rfl⟩
  · rw [Option.isSome_map]
    exact ⟨dmiBounded_of_walk, fun h => isSome_dmiWalk h {}⟩

/-- A header alone, of a Physical Memory Array: its use is looked for behind the table. -/
theorem dmiTable_header_alone : ¬ ∀ buf : List Byte, (dmiTable buf).isSome := by
  intro h
  have h16 := h [16, 4, 0, 0]
  rw [dmiTable, if_neg (by decide), Option.isSome_map, dmiWalk_struct (by decide)] at h16
  revert h16
  decide

/-! ## Tables of complete structures -/

theorem reads_dmiWord (i : ℕ) : Reads (dmiWord · i) :=
  (reads_byte _).bind fun _ => (reads_byte _).bind fun _ => reads_some _

theorem reads_dmiAddr (i : ℕ) : Reads (dmiAddr · i) :=
  (reads_dmiWord _).bind fun _ => (reads_dmiWord _).bind fun _ => reads_some _

theorem reads_dmiProcessor : Reads dmiProcessor :=
  (reads_byte _).bind fun _ => (reads_byte _).bind fun _ => reads_some _

theorem reads_dmiMemArray : Reads dmiMemArray :=
  (reads_byte _).bind fun _ => (reads_byte _).bind fun _ => reads_some _

theorem reads_dmiMemDevice : Reads dmiMemDevice :=
  (reads_byte _).bind fun _ => (reads_dmiWord _).bind fun _ => (reads_dmiWord _).bind fun _ =>
    reads_some _

theorem reads_dmiArrayMapAddr : Reads dmiArrayMapAddr :=
  (reads_byte _).bind fun _ => (reads_dmiWord _).bind fun _ => (reads_dmiAddr _).bind fun _ =>
    (reads_dmiAddr _).bind fun _ => reads_some _

theorem reads_dmiDeviceMapAddr : Reads dmiDeviceMapAddr :=
  (reads_byte _).bind fun _ => (reads_dmiWord _).bind fun _ => (reads_byte _).bind fun _ =>
    (reads_dmiAddr _).bind fun _ => (reads_dmiAddr _).bind fun _ => reads_some _

theorem reads_dmiStruct (type : Byte) (pdmi : DmiData) : Reads (dmiStruct type · pdmi) := by
  unfold dmiStruct
  split
  · exact reads_dmiProcessor.map _
  split
  · refine (reads_byte 5).bind fun use => ?_
    split
    · exact reads_dmiMemArray.map _
    · exact reads_some pdmi
  split
  · exact reads_dmiMemDevice.map _
  split
  · exact reads_dmiArrayMapAddr.map _
  split
  · exact reads_dmiDeviceMapAddr.map _
  · exact reads_some pdmi

/-- The fields that are read belong to the formatted area of the structure. -/
def StructComplete (s : Struct) : Prop := dmiReads s.type s.formatted ≤ s.formatted.length

instance : DecidablePred StructComplete := fun s =>
  inferInstanceAs (Decidable (dmiReads s.type s.formatted ≤ s.formatted.length))

/-- The processor that a structure describes. -/
def structProcessor (s : Struct) : Option DmiProcessor :=
  if s.type = 4 then dmiProcessor s.formatted else none

/-- The array of system memory that a structure describes. -/
def structMemArray (s : Struct) : Option DmiMemArray :=
  if s.type = 16 ∧ s.formatted[5]? = some 3 then dmiMemArray s.formatted else none

/-- The memory device that a structure describes. -/
def structMemDevice (s : Struct) : Option DmiMemDevice :=
  if s.type = 17 then dmiMemDevice s.formatted else none

/-- The range of an array that a structure describes. -/
def structArrayMapAddr (s : Struct) : Option DmiArrayMapAddr :=
  if s.type = 19 then dmiArrayMapAddr s.formatted else none

/-- The range of a memory device that a structure describes. -/
def structDeviceMapAddr (s : Struct) : Option DmiDeviceMapAddr :=
  if s.type = 20 then dmiDeviceMapAddr s.formatted else none

/-- The lists with the structures `table` before those of `pdmi`, the last one first. -/
def DmiData.addTable (table : List Struct) (pdmi : DmiData) : DmiData where
  processorList := (table.filterMap structProcessor).reverse ++ pdmi.processorList
  arrayList := (table.filterMap structMemArray).reverse ++ pdmi.arrayList
  deviceList := (table.filterMap structMemDevice).reverse ++ pdmi.deviceList
  arrayAddrList := (table.filterMap structArrayMapAddr).reverse ++ pdmi.arrayAddrList
  deviceAddrList := (table.filterMap structDeviceMapAddr).reverse ++ pdmi.deviceAddrList

theorem DmiData.addTable_cons (s : Struct) (table : List Struct) (pdmi : DmiData) :
    pdmi.addTable (s :: table) = (pdmi.addTable [s]).addTable table := by
  have hcons : ∀ {α : Type} (f : Struct → Option α) (l : List α),
      ((s :: table).filterMap f).reverse ++ l =
        (table.filterMap f).reverse ++ (([s].filterMap f).reverse ++ l) := by
    intro α f l
    rw [List.filterMap_cons]
    cases hf : f s <;> simp [hf]
  simp only [addTable, hcons]

theorem structFormatted_length (s : Struct) : 4 ≤ s.formatted.length := by
  simp [Struct.formatted]

theorem DmiData.addTable_singleton (s : Struct) (pdmi : DmiData) :
    pdmi.addTable [s] =
      { processorList := (structProcessor s).toList ++ pdmi.processorList
        arrayList := (structMemArray s).toList ++ pdmi.arrayList
        deviceList := (structMemDevice s).toList ++ pdmi.deviceList
        arrayAddrList := (structArrayMapAddr s).toList ++ pdmi.arrayAddrList
        deviceAddrList := (structDeviceMapAddr s).toList ++ pdmi.deviceAddrList } := by
  have hone : ∀ {α : Type} (f : Struct → Option α), ([s].filterMap f).reverse = (f s).toList := by
    intro α f
    cases hf : f s <;> simp [hf]
  simp only [addTable, hone]

/-- **What one structure adds.** -/
theorem dmiStruct_eq_addTable {s : Struct} {p : DmiData}
    (hp : dmiStruct s.type s.formatted pdmi = some p) : p = pdmi.addTable [s] := by
  rw [DmiData.addTable_singleton]
  simp only [structProcessor, structMemArray, structMemDevice, structArrayMapAddr,
    structDeviceMapAddr]
  unfold dmiStruct at hp
  split at hp
  · rename_i ht
    obtain ⟨d, hd, rfl⟩ := Option.map_eq_some_iff.mp hp
    simp [ht, hd]
  rename_i ht4
  split at hp
  · rename_i ht
    obtain ⟨use, hu, hp⟩ := Option.bind_eq_some_iff.mp hp
    split at hp
    · rename_i h3
      obtain ⟨d, hd, rfl⟩ := Option.map_eq_some_iff.mp hp
      simp [ht, hd, hu, h3]
    · rename_i h3
      obtain rfl := Option.some.inj hp
      have hno : ¬ (s.type = 16 ∧ s.formatted[5]? = some 3) :=
        fun h => h3 (Option.some.inj (hu ▸ h.2))
      rw [if_neg hno]
      simp [ht]
  rename_i ht16
  have hno : ¬ (s.type = 16 ∧ s.formatted[5]? = some 3) := fun h => ht16 h.1
  split at hp
  · rename_i ht
    obtain ⟨d, hd, rfl⟩ := Option.map_eq_some_iff.mp hp
    simp [ht, hd]
  rename_i ht17
  split at hp
  · rename_i ht
    obtain ⟨d, hd, rfl⟩ := Option.map_eq_some_iff.mp hp
    simp [ht, hd]
  rename_i ht19
  split at hp
  · rename_i ht
    obtain ⟨d, hd, rfl⟩ := Option.map_eq_some_iff.mp hp
    simp [ht, hd]
  · rename_i ht20
    obtain rfl := Option.some.inj hp
    rw [if_neg ht4, if_neg hno, if_neg ht17, if_neg ht19, if_neg ht20]
    rfl

theorem dmiStruct_formatted {s : Struct} (h : StructComplete s) (l : List Byte) :
    dmiStruct s.type (s.formatted ++ l) pdmi = some (pdmi.addTable [s]) := by
  obtain ⟨p, hp⟩ := Option.isSome_iff_exists.mp
    ((isSome_dmiStruct s.type pdmi (structFormatted_length s)).mpr h)
  rw [← dmiStruct_eq_addTable hp]
  exact reads_dmiStruct s.type pdmi hp l

theorem dmiWalk_encode {table : List Struct} (h : ∀ s ∈ table, StructComplete s) (pdmi : DmiData) :
    dmiWalk (encode table) pdmi = some (pdmi.addTable table) := by
  induction table generalizing pdmi with
  | nil => exact dmiWalk_short (by simp [encode])
  | cons s table ih =>
    have henc : encode (s :: table) = s.formatted ++ (s.area ++ encode table) := by
      rw [encode, List.flatMap_cons, List.append_assoc, encode]
    have hlen := s.formatted_length
    have hstep : dmiWalk (encode (s :: table)) pdmi =
        (dmiStruct s.type (encode (s :: table)) pdmi).bind fun pdmi =>
          (skipStrings ((encode (s :: table)).drop
            (BitVec.ofNat 8 (s.body.length + 4)).toNat)).bind fun rest => dmiWalk rest pdmi := by
      rw [henc]
      have hlong : ¬ (s.body ++ (s.area ++ encode table)).length + 4 <
          (BitVec.ofNat 8 (s.body.length + 4)).toNat := by
        rw [← hlen]
        simp only [Struct.formatted, List.length_append, List.length_cons]
        omega
      exact dmiWalk_struct hlong
    rw [hstep, henc, dmiStruct_formatted (h s List.mem_cons_self), Option.bind_some,
      List.drop_left' hlen, skipStrings_area, Option.bind_some,
      ih (fun s hs => h s (List.mem_cons_of_mem _ hs)), ← DmiData.addTable_cons]

/-- **The lists of a table of complete structures.** -/
theorem dmiTable_encode {table : List Struct} (hne : table ≠ [])
    (h : ∀ s ∈ table, StructComplete s) :
    dmiTable (encode table) = some (some (({} : DmiData).addTable table)) := by
  have hlen : (encode table).length ≠ 0 := by
    obtain ⟨s, l, rfl⟩ := List.exists_cons_of_ne_nil hne
    have := structFormatted_length s
    simp only [encode, List.flatMap_cons, List.length_append]
    omega
  rw [dmiTable, if_neg hlen, dmiWalk_encode h, Option.map_some]

end Fms
