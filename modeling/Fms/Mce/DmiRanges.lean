import Fms.Mce.DmiTable

/-!
# The mapped ranges of the memory devices

src/evt_modules/evtsrc/cpumem/dmi.c: the ranges of the table are sorted and checked once, and every
faulty address is looked up in them.

* `dmiGetMemdevAddr64`: the first and the last byte of a range, and `MemdevAddr.covers_iff`;
* **`dmiFindAddr_iff`**: when the lookup returns the devices of the ranges around an address;
* `cmpRange`: the order of the ranges, and **`cmpOrder_iff`**: when it is one;
* **`dmiSanity_iff`**: what the check of the sorted ranges and the locators means.
-/

namespace Fms

open Smbios

/-! ## Ranges -/

/-- `struct dmi_memdev_addr`; an entry shorter than 0x23 bytes has no 64-bit addresses. -/
structure MemdevAddr where
  length : Byte
  startAddr : BitVec 32
  endAddr : BitVec 32
  devHandle : BitVec 16
  startAddr64 : BitVec 64 := 0
  endAddr64 : BitVec 64 := 0
  deriving DecidableEq

/-- The fields of an entry. -/
def memdevAddr (e : DmiEntry) : Option MemdevAddr := do
  let length ← e[1]?
  let startAddr ← dwordIn e 4
  let endAddr ← dwordIn e 8
  let devHandle ← wordIn e 12
  if 0x23 ≤ length.toNat then
    let startAddr64 ← qwordIn e 19
    let endAddr64 ← qwordIn e 27
    return ⟨length, startAddr, endAddr, devHandle, startAddr64, endAddr64⟩
  else return ⟨length, startAddr, endAddr, devHandle, 0, 0⟩

/-- `(sa >> 2 << 12) + ((sa & 0x3) << 10)` -/
def unitAddr (sa : BitVec 64) : BitVec 64 := ((sa >>> 2) <<< 12) + ((sa &&& 0x3) <<< 10)

/-- `dmi_get_memdev_addr64` -/
def dmiGetMemdevAddr64 (mdev : MemdevAddr) : BitVec 64 × BitVec 64 :=
  let sa := mdev.startAddr.setWidth 64
  let ea := mdev.endAddr.setWidth 64
  if 0x23 ≤ mdev.length.toNat ∧ sa = 0xFFFFFFFF then (mdev.startAddr64, mdev.endAddr64)
  else (unitAddr sa, unitAddr ea + 0x3FF)

namespace MemdevAddr

variable (mdev : MemdevAddr) (addr : BitVec 64)

def first : BitVec 64 := (dmiGetMemdevAddr64 mdev).1

def last : BitVec 64 := (dmiGetMemdevAddr64 mdev).2

/-- The addresses of a range: kilobytes, or bytes in the extended encoding. -/
def Covers : Prop :=
  if 0x23 ≤ mdev.length.toNat ∧ mdev.startAddr = 0xFFFFFFFF then
    mdev.startAddr64.toNat ≤ addr.toNat ∧ addr.toNat < mdev.endAddr64.toNat + 1
  else mdev.startAddr.toNat * 1024 ≤ addr.toNat ∧ addr.toNat < (mdev.endAddr.toNat + 1) * 1024

instance : Decidable (mdev.Covers addr) := by
  unfold Covers
  infer_instance

end MemdevAddr

theorem unitAddr_toNat (a : BitVec 32) : (unitAddr (a.setWidth 64)).toNat = a.toNat * 1024 := by
  have ha := a.isLt
  have hand : (a.toNat &&& 3) = a.toNat % 4 := Nat.and_two_pow_sub_one_eq_mod a.toNat 2
  simp only [unitAddr, BitVec.toNat_add, BitVec.toNat_shiftLeft, BitVec.toNat_ushiftRight,
    BitVec.toNat_and, BitVec.toNat_setWidth, Nat.shiftLeft_eq, Nat.shiftRight_eq_div_pow]
  rw [Nat.mod_eq_of_lt (show a.toNat < 2 ^ 64 by omega), show (3 : BitVec 64).toNat = 3 from rfl,
    hand]
  omega

theorem MemdevAddr.extended_iff (mdev : MemdevAddr) :
    mdev.startAddr.setWidth 64 = (0xFFFFFFFF : BitVec 64) ↔ mdev.startAddr = 0xFFFFFFFF := by
  have ha := mdev.startAddr.isLt
  rw [← BitVec.toNat_inj, ← BitVec.toNat_inj, BitVec.toNat_setWidth,
    Nat.mod_eq_of_lt (show mdev.startAddr.toNat < 2 ^ 64 by omega)]
  rfl

/-- **The two ends of a range, both inside.** -/
theorem MemdevAddr.covers_iff {mdev : MemdevAddr} {addr : BitVec 64} :
    mdev.Covers addr ↔ mdev.first ≤ addr ∧ addr ≤ mdev.last := by
  have hs := unitAddr_toNat mdev.startAddr
  have he := unitAddr_toNat mdev.endAddr
  have hlt := mdev.endAddr.isLt
  simp only [Covers, first, last, dmiGetMemdevAddr64, extended_iff]
  split
  · simp only [BitVec.le_def, Nat.lt_succ_iff]
  · rw [BitVec.le_def, BitVec.le_def, BitVec.toNat_add, hs, he, show (0x3FF : BitVec 64).toNat = 0x3FF from rfl]
    omega

/-! ## The lookup -/

/-- `handle_to_entry` -/
abbrev HandleTable := Fin 0xffff → Option DmiEntry

/-- `handle_to_entry[handle]` -/
def HandleTable.at (handles : HandleTable) (handle : BitVec 16) : Option (Option DmiEntry) :=
  if h : handle.toNat < 0xffff then some (handles ⟨handle.toNat, h⟩) else none

/-- `dmi_find_addr` -/
def dmiFindAddr (handles : HandleTable) (addr : BitVec 64) : List MemdevAddr → Option (List DmiEntry)
  | [] => some []
  | da :: ranges =>
    if addr < (dmiGetMemdevAddr64 da).1 ∨ addr ≥ (dmiGetMemdevAddr64 da).2 then
      dmiFindAddr handles addr ranges
    else
      (handles.at da.devHandle).bind fun dev =>
        (dmiFindAddr handles addr ranges).map fun devs =>
          match dev with
          | some d => d :: devs
          | none => devs

/-- The memory device of a range that covers the address. -/
def deviceAt (handles : HandleTable) (addr : BitVec 64) (da : MemdevAddr) : Option DmiEntry :=
  if da.Covers addr then (handles.at da.devHandle).join else none

/-- The last byte of a range has no device, and the handles of the others are in the table. -/
def LookupExact (handles : HandleTable) (addr : BitVec 64) (da : MemdevAddr) : Prop :=
  da.Covers addr →
    (addr = da.last → (handles.at da.devHandle).join = none) ∧
      (addr ≠ da.last → da.devHandle ≠ 0xffff)

section
variable {handles : HandleTable} {addr : BitVec 64}

/-- What a range adds to `devs`. -/
def lookupStep (handles : HandleTable) (addr : BitVec 64) (da : MemdevAddr) :
    Option (Option DmiEntry) :=
  if da.Covers addr ∧ addr ≠ da.last then handles.at da.devHandle else some none

theorem dmiFindAddr_cons (da : MemdevAddr) (ranges : List MemdevAddr) :
    dmiFindAddr handles addr (da :: ranges) = (lookupStep handles addr da).bind fun dev =>
      (dmiFindAddr handles addr ranges).map (dev.toList ++ ·) := by
  have hiff : (addr < (dmiGetMemdevAddr64 da).1 ∨ addr ≥ (dmiGetMemdevAddr64 da).2) ↔
      ¬ (da.Covers addr ∧ addr ≠ da.last) := by
    rw [MemdevAddr.covers_iff, MemdevAddr.first, MemdevAddr.last, ne_eq, ← BitVec.toNat_inj,
      BitVec.le_def, BitVec.le_def, ge_iff_le, BitVec.le_def, BitVec.lt_def]
    omega
  rw [dmiFindAddr, lookupStep]
  by_cases h : da.Covers addr ∧ addr ≠ da.last
  · rw [if_neg (fun hno => hiff.mp hno h), if_pos h]
    congr 1
    funext dev
    cases dev <;> rfl
  · rw [if_pos (hiff.mpr h), if_neg h]
    cases dmiFindAddr handles addr ranges <;> rfl

theorem lookupStep_eq_some {da : MemdevAddr} {dev : Option DmiEntry}
    (h : lookupStep handles addr da = some dev) : dev = none ∨ dev = deviceAt handles addr da := by
  unfold lookupStep at h
  by_cases hin : da.Covers addr ∧ addr ≠ da.last
  · rw [if_pos hin] at h
    right
    rw [deviceAt, if_pos hin.1, h]
    rfl
  · rw [if_neg hin] at h
    exact .inl (Option.some_inj.mp h).symm

theorem HandleTable.at_isSome (handles : HandleTable) (handle : BitVec 16) :
    (handles.at handle).isSome ↔ handle ≠ 0xffff := by
  have hlt := handle.isLt
  rw [HandleTable.at, ne_eq, ← BitVec.toNat_inj, show (0xffff : BitVec 16).toNat = 0xffff from rfl]
  split
  · simp only [Option.isSome_some, true_iff]
    omega
  · simp only [Option.isSome_none, Bool.false_eq_true, false_iff, not_not]
    omega

theorem lookupStep_eq_iff {da : MemdevAddr} :
    lookupStep handles addr da = some (deviceAt handles addr da) ↔ LookupExact handles addr da := by
  unfold lookupStep deviceAt LookupExact
  by_cases hcov : da.Covers addr
  · by_cases hlast : addr = da.last
    · simp [hlast, eq_comm]
    · rw [if_pos ⟨hcov, hlast⟩, if_pos hcov, ← HandleTable.at_isSome handles]
      cases handles.at da.devHandle with
      | none => simp [hcov, hlast]
      | some dev => simp [hcov, hlast]
  · simp [hcov]

theorem filterMap_deviceAt_cons (da : MemdevAddr) (ranges : List MemdevAddr) :
    (da :: ranges).filterMap (deviceAt handles addr) =
      (deviceAt handles addr da).toList ++ ranges.filterMap (deviceAt handles addr) := by
  rw [List.filterMap_cons]
  cases deviceAt handles addr da <;> rfl

/-- The lookup may miss a device, but returns no other one. -/
theorem dmiFindAddr_sublist {ranges : List MemdevAddr} {devs : List DmiEntry}
    (h : dmiFindAddr handles addr ranges = some devs) :
    devs.Sublist (ranges.filterMap (deviceAt handles addr)) := by
  induction ranges generalizing devs with
  | nil =>
    cases h
    exact List.Sublist.refl _
  | cons da ranges ih =>
    rw [dmiFindAddr_cons] at h
    obtain ⟨dev, hdev, h⟩ := Option.bind_eq_some_iff.mp h
    obtain ⟨devs', hdevs', rfl⟩ := Option.map_eq_some_iff.mp h
    rw [filterMap_deviceAt_cons]
    rcases lookupStep_eq_some hdev with rfl | rfl
    · exact (ih hdevs').trans (List.sublist_append_right _ _)
    · exact (ih hdevs').append_left _

end

/-- **The lookup returns the devices of the ranges around the address, in their order, if and only if
it is not the last byte of a range with a device, and every handle is in the table.** -/
theorem dmiFindAddr_iff (handles : HandleTable) (addr : BitVec 64) (ranges : List MemdevAddr) :
    dmiFindAddr handles addr ranges = some (ranges.filterMap (deviceAt handles addr)) ↔
      ∀ da ∈ ranges, LookupExact handles addr da := by
  induction ranges with
  | nil => simp [dmiFindAddr]
  | cons da ranges ih =>
    rw [List.forall_mem_cons, ← ih, ← lookupStep_eq_iff, dmiFindAddr_cons, filterMap_deviceAt_cons]
    constructor
    · intro h
      obtain ⟨dev, hdev, h⟩ := Option.bind_eq_some_iff.mp h
      obtain ⟨devs, hdevs, h⟩ := Option.map_eq_some_iff.mp h
      have hsame : dev = deviceAt handles addr da := by
        rcases lookupStep_eq_some hdev with rfl | hsame
        · -- what is missing in front makes the result shorter
          have hlen := (dmiFindAddr_sublist hdevs).length_le
          have hfront := congrArg List.length h
          rw [List.length_append, List.length_append] at hfront
          refine (Option.toList_eq_nil_iff.mp (List.length_eq_zero_iff.mp ?_)).symm
          rw [Option.toList_none, List.length_nil] at hfront
          omega
        · exact hsame
      rw [hsame] at h hdev
      exact ⟨hdev, hdevs.trans (congrArg some (List.append_cancel_left h))⟩
    · rintro ⟨hstep, hrest⟩
      rw [hstep, Option.bind_some, hrest, Option.map_some]

/-- A range of one kilobyte. -/
def oneKilobyte (devHandle : BitVec 16) : MemdevAddr := ⟨35, 0, 0, devHandle, 0, 0⟩

theorem dmiFindAddr_lastByte :
    dmiFindAddr (fun _ => some []) 0x3ff [oneKilobyte 0x1100] ≠
      some ([oneKilobyte 0x1100].filterMap (deviceAt (fun _ => some []) 0x3ff)) := by
  decide

/-! ## The order of the ranges -/

/-- `cmp_range`, from the start of the one range and the end of the other. -/
def cmpStartEnd (asa bea : BitVec 64) : ℤ :=
  if asa.toInt < 0 ∧ bea.toInt > 0 then 1
  else if asa.toInt > 0 ∧ bea.toInt < 0 then -1
  else
    let res := (asa - bea).toInt
    if res > 0 then 1
    else if res < 0 then -1
    else 0

/-- `cmp_range` -/
def cmpRange (ap bp : MemdevAddr) : ℤ :=
  cmpStartEnd (dmiGetMemdevAddr64 ap).1 (dmiGetMemdevAddr64 bp).2

/-- When `cmp_range` gives -1. -/
def Below (x y : ℕ) : Prop :=
  x < y ∧ (x ≠ 0 ∨ y ≤ 2 ^ 63) ∨ 2 ^ 63 ≤ x ∧ y = 0

instance (x y : ℕ) : Decidable (Below x y) :=
  inferInstanceAs (Decidable (x < y ∧ (x ≠ 0 ∨ y ≤ 2 ^ 63) ∨ 2 ^ 63 ≤ x ∧ y = 0))

theorem cmpStartEnd_eq (x y : BitVec 64) :
    cmpStartEnd x y = if x.toNat = y.toNat then 0 else if Below x.toNat y.toNat then -1 else 1 := by
  have hx := x.isLt
  have hy := y.isLt
  simp only [cmpStartEnd, BitVec.toInt_eq_toNat_cond, BitVec.toNat_sub, Below]
  split_ifs <;> omega

/-- `cmp_range` on the ranges `rs`, as `qsort` asks for it. -/
structure CmpOrder (rs : List MemdevAddr) : Prop where
  antisymm : ∀ a ∈ rs, ∀ b ∈ rs, cmpRange a b = -cmpRange b a
  trans : ∀ a ∈ rs, ∀ b ∈ rs, ∀ c ∈ rs, cmpRange a b ≤ 0 → cmpRange b c ≤ 0 → cmpRange a c ≤ 0

/-- The ranges are single bytes. If one of them is at 0, none is at `2 ^ 63`, and the others are all
below it or all above it. -/
structure SingleBytes (rs : List MemdevAddr) : Prop where
  single : ∀ a ∈ rs, a.first = a.last
  half : ∀ a ∈ rs, a.first = 0 → ∀ b ∈ rs, b.first.toNat ≠ 2 ^ 63 ∧
    ∀ c ∈ rs, 0 < b.first.toNat → b.first.toNat < 2 ^ 63 → ¬ 2 ^ 63 < c.first.toNat

theorem cmpRange_eq (a b : MemdevAddr) : cmpRange a b =
    if a.first.toNat = b.last.toNat then 0 else if Below a.first.toNat b.last.toNat then -1 else 1 :=
  cmpStartEnd_eq a.first b.last

theorem cmpRange_le_zero {a b : MemdevAddr} : cmpRange a b ≤ 0 ↔
    a.first.toNat = b.last.toNat ∨ Below a.first.toNat b.last.toNat := by
  rw [cmpRange_eq]
  split_ifs with h h' <;> simp [*]

theorem cmpRange_self {a : MemdevAddr} : cmpRange a a = 0 ↔ a.first = a.last := by
  rw [cmpRange_eq, ← BitVec.toNat_inj]
  split_ifs with h h' <;> simp [h]

/-- Two ranges that share more than one byte come before each other. -/
theorem cmpRange_overlap {a b : MemdevAddr} (hab : a.first < b.last) (hba : b.first < a.last)
    (ha : 0 < a.first) (hb : 0 < b.first) : cmpRange a b = -1 ∧ cmpRange b a = -1 := by
  rw [BitVec.lt_def] at hab hba ha hb
  rw [cmpRange_eq, cmpRange_eq, if_neg hab.ne, if_neg hba.ne, if_pos (.inl ⟨hab, .inl ha.ne'⟩),
    if_pos (.inl ⟨hba, .inl hb.ne'⟩)]
  exact ⟨rfl, rfl⟩

theorem SingleBytes.of_cmpOrder {rs : List MemdevAddr} (h : CmpOrder rs) : SingleBytes rs := by
  have hsingle : ∀ a ∈ rs, a.first = a.last := fun a ha => by
    have := h.antisymm a ha a ha
    exact cmpRange_self.mp (by omega)
  refine ⟨hsingle, fun a ha h0 b hb => ⟨fun hmid => ?_, fun c hc hpos hlow hhigh => ?_⟩⟩
  · -- 0 and 2 ^ 63 come before each other
    have hab := h.antisymm a ha b hb
    rw [cmpRange_eq, cmpRange_eq, ← hsingle a ha, ← hsingle b hb, h0, hmid] at hab
    exact absurd hab (by decide)
  · -- c comes before 0, 0 before b, but b before c
    have hca : cmpRange c a ≤ 0 := by
      rw [cmpRange_le_zero, ← hsingle a ha, h0]
      exact .inr (.inr ⟨hhigh.le, rfl⟩)
    have hab : cmpRange a b ≤ 0 := by
      rw [cmpRange_le_zero, ← hsingle b hb, h0]
      exact .inr (.inl ⟨hpos, .inr hlow.le⟩)
    have hcb := cmpRange_le_zero.mp (h.trans c hc a ha b hb hca hab)
    rw [← hsingle b hb, Below] at hcb
    omega

theorem CmpOrder.of_key {rs : List MemdevAddr} {k : MemdevAddr → ℤ}
    (h : ∀ a ∈ rs, ∀ b ∈ rs,
      cmpRange a b = if k a = k b then 0 else if k a < k b then -1 else 1) : CmpOrder rs := by
  constructor
  · intro a ha b hb
    rw [h a ha b hb, h b hb a ha]
    split_ifs <;> omega
  · have hle : ∀ a ∈ rs, ∀ b ∈ rs, cmpRange a b ≤ 0 ↔ k a ≤ k b := fun a ha b hb => by
      rw [h a ha b hb]
      split_ifs <;> omega
    intro a ha b hb c hc hab hbc
    rw [hle a ha b hb] at hab
    rw [hle b hb c hc] at hbc
    rw [hle a ha c hc]
    exact hab.trans hbc

/-- The starts are compared with a sign when there is one at 0 and one above `2 ^ 63`, else without. -/
theorem SingleBytes.cmpOrder {rs : List MemdevAddr} (h : SingleBytes rs) : CmpOrder rs := by
  have hzero : ∀ a : MemdevAddr, a.first.toNat = 0 → a.first = 0 := fun a h0 =>
    BitVec.eq_of_toNat_eq h0
  by_cases hsigned : (∃ a ∈ rs, a.first = 0) ∧ ∃ c ∈ rs, 2 ^ 63 < c.first.toNat
  · obtain ⟨⟨a₀, ha₀, h0⟩, c₀, hc₀, hhigh⟩ := hsigned
    have hrange : ∀ b ∈ rs, b.first.toNat = 0 ∨ 2 ^ 63 < b.first.toNat := fun b hb => by
      have hmid := (h.half a₀ ha₀ h0 b hb).1
      have hpos := (h.half a₀ ha₀ h0 b hb).2 c₀ hc₀
      omega
    refine CmpOrder.of_key (k := fun a => a.first.toInt) fun a ha b hb => ?_
    have hra := hrange a ha
    have hrb := hrange b hb
    have hlt := a.first.isLt
    rw [cmpRange_eq, ← h.single b hb, BitVec.toInt_eq_toNat_cond, BitVec.toInt_eq_toNat_cond]
    unfold Below
    split_ifs <;> omega
  · refine CmpOrder.of_key (k := fun a => a.first.toNat) fun a ha b hb => ?_
    have hside : ∀ a ∈ rs, ∀ b ∈ rs, a.first.toNat = 0 → b.first.toNat < 2 ^ 63 := fun a ha b hb h0 => by
      have hmid := (h.half a ha (hzero a h0) b hb).1
      have hhigh : ¬ 2 ^ 63 < b.first.toNat := fun hhigh => hsigned ⟨⟨a, ha, hzero a h0⟩, b, hb, hhigh⟩
      omega
    have hab := hside a ha b hb
    have hba := hside b hb a ha
    rw [cmpRange_eq, ← h.single b hb]
    unfold Below
    split_ifs <;> omega

/-- **`cmp_range` is an order on single bytes only.** -/
theorem cmpOrder_iff {rs : List MemdevAddr} : CmpOrder rs ↔ SingleBytes rs :=
  ⟨SingleBytes.of_cmpOrder, SingleBytes.cmpOrder⟩

/-! ## The sanity check -/

/-- The locator of a memory device; `some none` is `NULL`. -/
def dmiLocator (dimm : DmiEntry) : Option (Option (List Byte)) :=
  dimm[16]?.bind fun number => dmiGetstring dimm number.toNat

/-- `dmi_ranges` and `dmi_dimms` -/
structure DmiLists where
  ranges : List MemdevAddr
  dimms : List DmiEntry
  deriving DecidableEq

/-- The ranges of a table, in its order. -/
def dmiRanges (loglevel : WrLoglevel) (t : DmiTable) : Option (List MemdevAddr) :=
  (dmiCollect loglevel dmiMemoryMappedAddr 14 t.numentries t.entries).bind fun r => r.mapM memdevAddr

/-- `collect_dmi_dimms`: the ranges, which `qsort` sorts, and the memory devices. -/
def collectDmiDimms (qsort : (MemdevAddr → MemdevAddr → ℤ) → List MemdevAddr → List MemdevAddr)
    (loglevel : WrLoglevel) (t : DmiTable) : Option DmiLists :=
  (dmiRanges loglevel t).bind fun ranges =>
    (dmiCollect loglevel dmiMemoryDevice 17 t.numentries t.entries).map fun dimms =>
      ⟨qsort cmpRange ranges, dimms⟩

/-- Do we have multiple ranges? Their number, less one; `none` is the return of 0. -/
def rangesLoop : List MemdevAddr → ℕ → Option ℕ
  | prev :: cur :: ranges, numranges =>
    if (dmiGetMemdevAddr64 cur).1 ≤ (dmiGetMemdevAddr64 prev).2 then none
    else
      rangesLoop (cur :: ranges)
        (if (dmiGetMemdevAddr64 cur).1 ≥ (dmiGetMemdevAddr64 prev).2 then numranges + 1 else numranges)
  | _, numranges => some numranges

/-- Is `loc` the locator of one of the entries? -/
def sameLocator (loc : List Byte) : List DmiEntry → Option Bool
  | [] => some false
  | dimm :: dimms =>
    -- strcmp(b, loc)
    (dmiLocator dimm).join.bind fun b => if b = loc then some true else sameLocator loc dimms

/-- Unique locators? `earlier` are those that are done. -/
def locatorsLoop (earlier : List DmiEntry) : List DmiEntry → Option Bool
  | [] => some true
  | dimm :: dimms =>
    (dmiLocator dimm).bind fun
      | none => some false
      | some loc =>
        (sameLocator loc earlier).bind fun same =>
          if same then some false else locatorsLoop (earlier ++ [dimm]) dimms

/-- `dmi_sanity_check` -/
def dmiSanityCheck (lists : DmiLists) : Option Bool :=
  if lists.ranges = [] then some false
  else
    match rangesLoop lists.ranges 0 with
    | none => some false
    | some numranges =>
      if numranges = 1 ∧ lists.dimms.length > 2 then some false
      else locatorsLoop [] lists.dimms

/-! ### What it means -/

/-- No address lies in two of the ranges. -/
def RangesDisjoint (rs : List MemdevAddr) : Prop :=
  rs.Pairwise fun a b => ∀ addr, ¬ (a.Covers addr ∧ b.Covers addr)

/-- The locators are there and pairwise different. -/
structure LocatorsDistinct (dimms : List DmiEntry) : Prop where
  present : ∀ dimm ∈ dimms, ∃ loc, dmiLocator dimm = some (some loc)
  distinct : (dimms.map dmiLocator).Nodup

theorem mem_sameLocator {loc : List Byte} {dimms : List DmiEntry}
    (h : sameLocator loc dimms = some false) : ∀ dimm ∈ dimms, dmiLocator dimm ≠ some (some loc) := by
  induction dimms with
  | nil => exact fun _ hd => absurd hd List.not_mem_nil
  | cons dimm dimms ih =>
    obtain ⟨b, hb, h⟩ := Option.bind_eq_some_iff.mp h
    by_cases hbl : b = loc
    · rw [if_pos hbl] at h
      cases h
    · rw [if_neg hbl] at h
      refine List.forall_mem_cons.mpr ⟨fun hloc => ?_, ih h⟩
      rw [hloc] at hb
      exact hbl (Option.some_inj.mp hb).symm

theorem locatorsLoop_eq_true {earlier dimms : List DmiEntry}
    (h : locatorsLoop earlier dimms = some true) (hearlier : (earlier.map dmiLocator).Nodup) :
    (∀ dimm ∈ dimms, ∃ loc, dmiLocator dimm = some (some loc)) ∧
      ((earlier ++ dimms).map dmiLocator).Nodup := by
  induction dimms generalizing earlier with
  | nil =>
    rw [List.append_nil]
    exact ⟨fun _ hd => absurd hd List.not_mem_nil, hearlier⟩
  | cons dimm dimms ih =>
    obtain ⟨res, hres, h⟩ := Option.bind_eq_some_iff.mp h
    cases res with
    | none => cases h
    | some loc =>
      obtain ⟨same, hsame, h⟩ := Option.bind_eq_some_iff.mp h
      cases same with
      | true => cases h
      | false =>
        have hnew : ((earlier ++ [dimm]).map dmiLocator).Nodup := by
          rw [List.map_append, List.nodup_append]
          refine ⟨hearlier, List.nodup_singleton _, ?_⟩
          intro x hx y hy
          obtain ⟨d, hd, rfl⟩ := List.mem_map.mp hx
          rw [List.map_singleton, List.mem_singleton] at hy
          rw [hy, hres]
          exact mem_sameLocator hsame d hd
        obtain ⟨hpresent, hnodup⟩ := ih h hnew
        rw [List.append_assoc, List.singleton_append] at hnodup
        exact ⟨List.forall_mem_cons.mpr ⟨⟨loc, hres⟩, hpresent⟩, hnodup⟩

/-- Each range begins behind the end of the one before it. -/
theorem rangesLoop_isChain {rs : List MemdevAddr} {n m : ℕ} (h : rangesLoop rs n = some m) :
    rs.IsChain fun a b => a.last < b.first := by
  induction rs, n using rangesLoop.induct with
  | case1 prev cur ranges n hle =>
    rw [rangesLoop, if_pos hle] at h
    cases h
  | case2 prev cur ranges n hle ih =>
    rw [rangesLoop, if_neg hle] at h
    exact List.isChain_cons_cons.mpr ⟨BitVec.not_le.mp hle, ih h⟩
  | case3 rs n hrs =>
    match rs with
    | [] => exact List.isChain_nil
    | [a] => exact List.isChain_singleton a
    | a :: b :: l => exact absurd rfl (hrs a b l)

theorem RangesDisjoint.of_isChain {rs : List MemdevAddr} (h : rs.IsChain fun a b => a.last < b.first)
    (hle : ∀ a ∈ rs, a.first ≤ a.last) : RangesDisjoint rs := by
  have hpair : rs.Pairwise fun a b => a.last < b.first := by
    induction rs with
    | nil => exact List.Pairwise.nil
    | cons a rs ih =>
      rw [List.forall_mem_cons] at hle
      have htail := ih h.tail hle.2
      refine List.pairwise_cons.mpr ⟨fun b hb => ?_, htail⟩
      cases rs with
      | nil => exact absurd hb List.not_mem_nil
      | cons c rs =>
        have hac : a.last < c.first := (List.isChain_cons_cons.mp h).1
        rcases List.mem_cons.mp hb with rfl | hb
        · exact hac
        · have hcc := (List.forall_mem_cons.mp hle.2).1
          have hcb := (List.pairwise_cons.mp htail).1 b hb
          rw [BitVec.lt_def] at *
          rw [BitVec.le_def] at hcc
          omega
  refine hpair.imp fun {a b} hab addr hboth => ?_
  have ha := (MemdevAddr.covers_iff.mp hboth.1).2
  have hb := (MemdevAddr.covers_iff.mp hboth.2).1
  rw [BitVec.lt_def] at hab
  rw [BitVec.le_def] at ha hb
  omega

theorem RangesDisjoint.perm {rs rs' : List MemdevAddr} (h : RangesDisjoint rs) (hperm : rs.Perm rs') :
    RangesDisjoint rs' :=
  (hperm.pairwise_iff fun hab addr hboth => hab addr hboth.symm).mp h

theorem dmiSanityCheck_eq_true {lists : DmiLists} (h : dmiSanityCheck lists = some true) :
    lists.ranges ≠ [] ∧ (lists.ranges.IsChain fun a b => a.last < b.first) ∧
      LocatorsDistinct lists.dimms := by
  unfold dmiSanityCheck at h
  by_cases hnil : lists.ranges = []
  · rw [if_pos hnil] at h
    cases h
  rw [if_neg hnil] at h
  cases hloop : rangesLoop lists.ranges 0 with
  | none =>
    rw [hloop] at h
    cases h
  | some numranges =>
    rw [hloop] at h
    dsimp only at h
    by_cases hfew : numranges = 1 ∧ lists.dimms.length > 2
    · rw [if_pos hfew] at h
      cases h
    · rw [if_neg hfew] at h
      obtain ⟨hpresent, hdistinct⟩ := locatorsLoop_eq_true h List.nodup_nil
      exact ⟨hnil, rangesLoop_isChain hloop, hpresent, hdistinct⟩

/-! ### The ranges of a table -/

theorem exists_memdevAddr {e : DmiEntry} {length : Byte} (h : Collected 14 e length) :
    ∃ mdev, memdevAddr e = some mdev := by
  have hlen := h.inside
  have hmin := h.long
  obtain ⟨startAddr, hs⟩ := exists_dwordIn (show 4 + 3 < e.length by omega)
  obtain ⟨endAddr, he⟩ := exists_dwordIn (show 8 + 3 < e.length by omega)
  obtain ⟨devHandle, hd⟩ := exists_wordIn (show 12 + 1 < e.length by omega)
  rw [memdevAddr, h.header, hs, he, hd]
  by_cases hext : 0x23 ≤ length.toNat
  · obtain ⟨startAddr64, hs64⟩ := exists_qwordIn (show 19 + 7 < e.length by omega)
    obtain ⟨endAddr64, he64⟩ := exists_qwordIn (show 27 + 7 < e.length by omega)
    exact ⟨⟨length, startAddr, endAddr, devHandle, startAddr64, endAddr64⟩, by
      simp [hext, hs64, he64]⟩
  · exact ⟨⟨length, startAddr, endAddr, devHandle, 0, 0⟩, by simp [hext]⟩

/-- **The ranges that are collected can be read.** -/
theorem exists_dmiRanges {loglevel : WrLoglevel} {t : DmiTable} {r : List DmiEntry}
    (h : dmiCollect loglevel dmiMemoryMappedAddr 14 t.numentries t.entries = some r) :
    ∃ rs, dmiRanges loglevel t = some rs := by
  have hread : ∀ l : List DmiEntry, (∀ e ∈ l, ∃ mdev, memdevAddr e = some mdev) →
      ∃ rs, l.mapM memdevAddr = some rs := by
    intro l hl
    induction l with
    | nil => exact ⟨[], rfl⟩
    | cons e l ih =>
      rw [List.forall_mem_cons] at hl
      obtain ⟨mdev, hmdev⟩ := hl.1
      obtain ⟨rs, hrs⟩ := ih hl.2
      exact ⟨mdev :: rs, by rw [List.mapM_cons, hmdev, hrs]; rfl⟩
  obtain ⟨rs, hrs⟩ := hread r fun e he => by
    obtain ⟨length, hlength⟩ := mem_dmiCollect h he
    exact exists_memdevAddr hlength
  exact ⟨rs, by rw [dmiRanges, h, Option.bind_some, hrs]⟩

section
variable {qsort : (MemdevAddr → MemdevAddr → ℤ) → List MemdevAddr → List MemdevAddr}
  {loglevel : WrLoglevel} {t : DmiTable} {rs : List MemdevAddr}

/-- After a sanity check that returns 1, no address lies in two ranges of the table, and the locators
are there and different. -/
def SanityMeans (qsort : (MemdevAddr → MemdevAddr → ℤ) → List MemdevAddr → List MemdevAddr)
    (loglevel : WrLoglevel) (t : DmiTable) : Prop :=
  ∀ rs lists, dmiRanges loglevel t = some rs → collectDmiDimms qsort loglevel t = some lists →
    dmiSanityCheck lists = some true → RangesDisjoint rs ∧ LocatorsDistinct lists.dimms

/-- **Without inverted ranges the check means what it guards**, whatever the order of the ranges. -/
theorem SanityMeans.of_le (hsort : ∀ cmp l, (qsort cmp l).Perm l) (hrs : dmiRanges loglevel t = some rs)
    (hle : ∀ a ∈ rs, a.first ≤ a.last) : SanityMeans qsort loglevel t := by
  intro rs' lists hrs' hlists hcheck
  obtain rfl := Option.some_inj.mp (hrs.symm.trans hrs')
  rw [collectDmiDimms, hrs, Option.bind_some] at hlists
  obtain ⟨dimms, -, rfl⟩ := Option.map_eq_some_iff.mp hlists
  obtain ⟨-, hchain, hlocators⟩ := dmiSanityCheck_eq_true hcheck
  have hperm := hsort cmpRange rs
  refine ⟨(RangesDisjoint.of_isChain hchain fun a ha => ?_).perm hperm, hlocators⟩
  exact hle a (hperm.mem_iff.mp ha)

/-- **The check means what it guards and `cmp_range` is an order, if and only if the ranges are single
bytes, which 0 does not mix up.** The first half needs no more than ranges that are not inverted. -/
theorem dmiSanity_iff (hsort : ∀ cmp l, (qsort cmp l).Perm l) (hrs : dmiRanges loglevel t = some rs) :
    (SanityMeans qsort loglevel t ∧ CmpOrder rs ↔ SingleBytes rs) ∧
      ((∀ a ∈ rs, a.first ≤ a.last) → SanityMeans qsort loglevel t) := by
  have hmeans := SanityMeans.of_le hsort hrs
  refine ⟨⟨fun h => cmpOrder_iff.mp h.2, fun h => ⟨hmeans fun a ha => ?_, cmpOrder_iff.mpr h⟩⟩, hmeans⟩
  rw [h.single a ha]
  exact BitVec.le_refl _

end

/-- `qsort`, on few elements. -/
def insertionQsort (cmp : MemdevAddr → MemdevAddr → ℤ) (l : List MemdevAddr) : List MemdevAddr :=
  l.insertionSort (cmp · · ≤ 0)

/-- A type 20 entry of 19 bytes, without strings. -/
def mappedAddr (start stop : Byte) : DmiEntry :=
  [20, 19, 0, 0x14, start, 0, 0, 0, stop, 0, 0, 0, 0, 0x11, 0, 0x13, 0, 0, 0, 0, 0]

/-- A type 17 entry of 17 bytes, with a locator of one character. -/
def memoryDevice (number locator : Byte) : DmiEntry :=
  [17, 17, number, 0x11, 0, 0, 0, 0, 0, 0, 0, 0, 1, 0, 0, 0, 1, locator, 0, 0]

def twoRanges : DmiTable :=
  ⟨mappedAddr 0x20 0x3f ++ memoryDevice 0 0x41 ++ mappedAddr 0 0x1f ++ memoryDevice 1 0x42, 4⟩

def invertedRange : DmiTable := ⟨mappedAddr 0 0x30 ++ mappedAddr 0x20 0x28 ++ mappedAddr 0x40 0x10, 3⟩

def unitRange (start stop : BitVec 32) : MemdevAddr := ⟨19, start, stop, 0x1100, 0, 0⟩

theorem dmiSanity_iff_twoRanges :
    (collectDmiDimms insertionQsort .normal twoRanges).bind dmiSanityCheck = some true ∧
      SanityMeans insertionQsort .normal twoRanges :=
  ⟨by decide +kernel, (dmiSanity_iff (fun _ l => List.perm_insertionSort _ l)
    (show dmiRanges .normal twoRanges = some [unitRange 0x20 0x3f, unitRange 0 0x1f] by decide +kernel)).2
    (by decide +kernel)⟩

/-- Sorted, the inverted range stands between two that overlap; and an ordinary range comes before
itself. -/
theorem dmiSanity_invertedRange :
    ¬ SanityMeans insertionQsort .normal invertedRange ∧ ¬ CmpOrder [unitRange 0 0x1f] := by
  constructor
  · intro h
    obtain ⟨hdisjoint, -⟩ := h [unitRange 0 0x30, unitRange 0x20 0x28, unitRange 0x40 0x10]
      ⟨[unitRange 0 0x30, unitRange 0x40 0x10, unitRange 0x20 0x28], []⟩
      (by decide +kernel) (by decide +kernel) (by decide +kernel)
    exact (List.pairwise_cons.mp hdisjoint).1 (unitRange 0x20 0x28) (by decide) 0x8000
      (by decide +kernel)
  · intro h
    have hself := h.antisymm (unitRange 0 0x1f) (by decide) (unitRange 0 0x1f) (by decide)
    exact absurd hself (by decide +kernel)

end Fms
