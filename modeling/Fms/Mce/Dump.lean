import Fms.Lib.Paging
import Fms.Event
import Fms.Mce.Decode

/-!
# The events of a machine-check record

`dump_mce` (evt_modules/evtsrc/cpumem/cpumem_evtsrc.c) makes an event of each message of the decoder.
The case engine tells events apart by the name of the device, its number `dev_id` and the number
`evt_id`, which is the `fid` that `dump_mce` puts together.

* `dumpMce`, `cpumemFmEventPost`: the events, and what the case engine sees of them;
* `Clash`: two faults that get one identity and different mnemonics, in terms of the two records;
* **`keysSeparate_iff`**: the events of two records with one identity have one mnemonic if and only
  if no faults of the records clash.
-/

namespace Fms

open CString

/-- `FMS_PATH_MAX` -/
def fmsPathMax : ℕ := 128

/-- `FMS_CPUMEM_FAULT_DESC_LEN` -/
def fmsCpumemFaultDescLen : ℕ := 1024

/-- `FMS_CPUMEM_UC` -/
def fmsCpumemUc : BitVec 64 := 2

/-- `FMS_CPUMEM_YELLOW` -/
def fmsCpumemYellow : BitVec 64 := 4

/-- `MCG_TES_P` -/
def mcgTesP : BitVec 64 := 1#64 <<< 11

/-- `offsetof(struct mce, cpuid)` -/
def offsetofCpuid : ℕ := 60

/-- `offsetof(struct mce, apicid)` -/
def offsetofApicid : ℕ := 76

/-- `CASE_INTEL_CPUS` -/
def caseIntelCpus : List Cputype :=
  [.p6old, .core2, .nehalem, .dunnington, .tulsa, .p4, .intel, .xeon75xx, .sandyBridgeEp,
    .sandyBridge, .ivyBridge, .ivyBridgeEpex, .haswell, .haswellEpex, .broadwell, .knightsLanding]

/-- `struct fms_cpumem`, without the memory device that the DMI tables name. -/
structure FmsCpumem where
  socketid : BitVec 32
  cpu : BitVec 32
  status : BitVec 64
  misc : BitVec 64
  addr : BitVec 64
  maddr : BitVec 64
  mcgstatus : BitVec 64
  ip : BitVec 64
  tsc : BitVec 64
  time : BitVec 64
  apicid : BitVec 32
  cpuid : BitVec 32
  mcgcap : BitVec 64
  mnemonic : CStr
  desc : CStr
  flags : BitVec 64
  cs : BitVec 8
  bank : BitVec 8
  cpuvendor : BitVec 8
  memCh : ℤ
  clevel : ℤ
  ctype : ℤ
  fname : CStr
  devId : BitVec 64
  fid : BitVec 64
  cputype : Cputype

/-- `addr & ~((u64)PAGE_SIZE-1)` -/
def pageAddr (addr : BitVec 64) : BitVec 64 := addr &&& ~~~((1#64 <<< 12) - 1)

/-- The body of the loop of `dump_mce`; `none` if a text is null. -/
def dumpMsg (cputype : Cputype) (m : Mce) (recordlen : ℕ) (mm : McMsg) : Option FmsCpumem := do
  let cpu : BitVec 64 := m.processor.setWidth 64
  let uc := m.status &&& mciStatusUc ≠ 0
  let track := (m.status >>> 53) &&& 3
  let yellow := (m.mcgcap = 0 ∨ m.mcgcap &&& mcgTesP ≠ 0) ∧ ¬ uc ∧ track = 2
  let page := mm.flags &&& fmsCpumemPageError ≠ 0
  let hasCpuid := offsetofCpuid ≤ recordlen ∧ m.cpuid ≠ 0
  let mnemonic ← mm.mnemonic
  let desc ← mm.desc
  return {
    socketid := if offsetofSocketid ≤ recordlen then m.socketid else 0
    cpu := cpu.setWidth 32
    status := m.status
    misc := m.misc
    addr := m.addr
    maddr := if page then pageAddr m.addr else 0
    mcgstatus := m.mcgstatus
    ip := m.ip
    tsc := m.tsc
    time := m.time
    apicid := if offsetofApicid ≤ recordlen then m.apicid else 0
    cpuid := if hasCpuid then m.cpuid else 0
    mcgcap := if offsetofCpuid ≤ recordlen ∧ m.mcgcap ≠ 0 then m.mcgcap else 0
    mnemonic := mnemonic.take (fmsPathMax - 1)
    desc := desc.take (fmsCpumemFaultDescLen - 1)
    flags := (if uc then fmsCpumemUc else 0) ||| (if yellow then fmsCpumemYellow else 0) |||
      (if page then fmsCpumemPageError else 0)
    cs := m.cs
    bank := m.bank
    cpuvendor := if hasCpuid then m.cpuvendor else 0
    memCh := mm.memCh
    clevel := mm.clevel
    ctype := mm.ctype
    fname := mm.name
    devId := if mm.name = "cpu".toList then cpu else 0
    fid := if page then pageAddr m.addr else mm.id ||| cpu <<< 32
    cputype }

/-- `dump_mce` on a zeroed message array; `none` if a null text is copied. -/
def dumpMce (cputype : Cputype) (m : Mce) (recordlen : ℕ) : Option (List FmsCpumem) :=
  let st : McMsgs := if cputype ∈ caseIntelCpus then decodeIntelMc m cputype recordlen {} else {}
  (List.range st.mmNum).mapM fun i => dumpMsg cputype m recordlen (st.mm i)

/-- `FM_EREPORT_CLASS` -/
def fmEreportClass : CStr := "ereport".toList

/-- `FM_FAULT_CLASS` -/
def fmFaultClass : CStr := "ereport".toList

/-- The text `fullclass` of `process_mcefd`. -/
def fullclass (cm : FmsCpumem) : CStr :=
  let cls := if cm.flags &&& fmsCpumemYellow = 0 then fmEreportClass else fmFaultClass
  (cls ++ ".cpu.".toList ++ cm.mnemonic).take (fmsPathMax - 1)

/-- `cpumem_fm_event_post` -/
def cpumemFmEventPost (cm : FmsCpumem) : Nvlist :=
  { name := cm.fname, devId := cm.devId.toNat, value := fullclass cm, evtId := cm.fid.toNat }

/-- What the case engine tells events apart by. -/
def Nvlist.key (nvl : Nvlist) : Device × ℤ := (nvl.device, nvl.evtId)

/-! ## Faults and events -/

/-- The error is uncorrected. -/
def Mce.uc (m : Mce) : Bool := decide (m.status &&& mciStatusUc ≠ 0)

/-- The mnemonic of the fault ends in its severity. -/
def Fault.graded : Fault → Bool
  | .high | .low | .page => false
  | _ => true

/-- `FMS_MCI_STATUS_UC`, of the severity. -/
def ucSuffix (uc : Bool) : CStr := if uc then "_uc".toList else "_ce".toList

theorem fmsMciStatusUc_eq (m : Mce) : fmsMciStatusUc m.status = ucSuffix m.uc := by
  unfold fmsMciStatusUc ucSuffix Mce.uc
  by_cases h : m.status &&& mciStatusUc ≠ 0
  · rw [if_pos h, decide_eq_true h, if_pos rfl]
  · rw [if_neg h, decide_eq_false h, if_neg Bool.false_ne_true]

/-- All faults. -/
def Fault.all : List Fault :=
  [.high, .low, .unit .pcu, .unit .qpi, .unit .mc, .cache, .tlb, .timer, .unclassified, .bus, .mem,
    .page] ++ (List.finRange 7).map .base

theorem Fault.mem_all (f : Fault) : f ∈ Fault.all := by
  cases f with
  | base no => exact List.mem_append_right _ (List.mem_map_of_mem (List.mem_finRange no))
  | unit u => cases u <;> exact List.mem_append_left _ (by decide)
  | _ => exact List.mem_append_left _ (by decide)

/-- The mnemonic tells faults apart, and the severities of a graded fault. -/
theorem mnemonic_eq_iff (f f' : Fault) (uc uc' : Bool) :
    f.mnemonic (ucSuffix uc) = f'.mnemonic (ucSuffix uc') ↔
      f = f' ∧ (f.graded = true → uc = uc') := by
  have hall : ∀ f ∈ Fault.all, ∀ f' ∈ Fault.all, ∀ uc uc' : Bool,
      f.mnemonic (ucSuffix uc) = f'.mnemonic (ucSuffix uc') ↔
        f = f' ∧ (f.graded = true → uc = uc') := by
    decide +kernel
  exact hall f f.mem_all f' f'.mem_all uc uc'

theorem length_mnemonic (f : Fault) (uc : Bool) :
    (f.mnemonic (ucSuffix uc)).length ≤ fmsPathMax - 1 := by
  have hall : ∀ f ∈ Fault.all, ∀ uc : Bool,
      (f.mnemonic (ucSuffix uc)).length ≤ fmsPathMax - 1 := by
    decide +kernel
  exact hall f f.mem_all uc

/-- The number `fid` of an event of the fault. -/
def Fault.fid (m : Mce) (f : Fault) : BitVec 64 :=
  if f = .page then pageAddr m.addr
  else BitVec.ofNat 64 (f.slot (mcaCode m.status)) ||| m.processor.setWidth 64 <<< 32

/-- The event is what `dump_mce` makes of the fault. -/
structure Dumped (m : Mce) (f : Fault) (e : FmsCpumem) : Prop where
  fname : e.fname = f.device
  devId : e.devId = if f.device = "cpu".toList then m.processor.setWidth 64 else 0
  fid : e.fid = f.fid m
  mnemonic : e.mnemonic = f.mnemonic (ucSuffix m.uc)

theorem dumpMsg_shows {m : Mce} {f : Fault} {mm : McMsg} (h : Shows m.status f mm)
    (cputype : Cputype) (recordlen : ℕ) :
    ∃ e, dumpMsg cputype m recordlen mm = some e ∧ Dumped m f e := by
  obtain ⟨desc, hdesc⟩ := Option.isSome_iff_exists.mp h.desc
  have hmnemonic := h.mnemonic
  rw [fmsMciStatusUc_eq] at hmnemonic
  unfold dumpMsg
  rw [hmnemonic, hdesc]
  refine ⟨_, rfl, h.name, ?_, ?_, List.take_of_length_le (length_mnemonic f m.uc)⟩
  · change (if mm.name = _ then _ else _) = _
    rw [h.name]
  · change (if _ ≠ _ then _ else mm.id ||| _) = _
    rw [Fault.fid, h.id]
    by_cases hpage : f = .page
    · rw [if_pos (h.page.mpr hpage), if_pos hpage]
    · rw [if_neg (mt h.page.mp hpage), if_neg hpage]

/-- The faults of a record whose events are posted. -/
def reported (cputype : Cputype) (m : Mce) : List Fault :=
  if cputype ∈ caseIntelCpus ∧ (m.bank = mceThermalBank ∨ ¬ mcaHole (mcaCode m.status)) then
    faultsOf cputype m
  else []

theorem reported_of_not_intel {cputype : Cputype} (h : cputype ∉ caseIntelCpus) (m : Mce) :
    reported cputype m = [] := if_neg fun h' => h h'.1

/-- **The events of a record are those of its faults**, unless a null text is copied. -/
theorem dumpMce_spec (cputype : Cputype) (m : Mce) (recordlen : ℕ) :
    dumpMce cputype m recordlen = none ∧ reported cputype m = [] ∨
      ∃ es, dumpMce cputype m recordlen = some es ∧
        (∀ e ∈ es, ∃ f ∈ reported cputype m, Dumped m f e) ∧
        ∀ f ∈ reported cputype m, ∃ e ∈ es, Dumped m f e := by
  unfold dumpMce
  by_cases hintel : cputype ∈ caseIntelCpus
  · by_cases hhole : m.bank = mceThermalBank ∨ ¬ mcaHole (mcaCode m.status)
    · right
      obtain ⟨-, hmsgs, hfaults⟩ := decodeIntelMc_shows m cputype recordlen hhole
      have hreported : reported cputype m = faultsOf cputype m := if_pos ⟨hintel, hhole⟩
      rw [if_pos hintel, hreported]
      have hsome : ∀ i ∈ List.range (decodeIntelMc m cputype recordlen {}).mmNum,
          (dumpMsg cputype m recordlen ((decodeIntelMc m cputype recordlen {}).mm i)).isSome := by
        intro i hi
        obtain ⟨f, -, hshows⟩ := hmsgs i (List.mem_range.mp hi)
        obtain ⟨e, he, -⟩ := dumpMsg_shows hshows cputype recordlen
        rw [he]
        rfl
      obtain ⟨es, hes⟩ := Option.isSome_iff_exists.mp (Paging.isSome_mapM hsome)
      refine ⟨es, hes, fun e he => ?_, fun f hf => ?_⟩
      · obtain ⟨i, hi, hdump⟩ := (Paging.mem_of_mapM hes e).mp he
        obtain ⟨f, hf, hshows⟩ := hmsgs i (List.mem_range.mp hi)
        obtain ⟨e', he', hdumped⟩ := dumpMsg_shows hshows cputype recordlen
        rw [hdump, Option.some_inj] at he'
        exact ⟨f, hf, he' ▸ hdumped⟩
      · obtain ⟨i, hi, hshows⟩ := hfaults f hf
        obtain ⟨e, he, hdumped⟩ := dumpMsg_shows hshows cputype recordlen
        exact ⟨e, (Paging.mem_of_mapM hes e).mpr ⟨i, List.mem_range.mpr hi, he⟩, hdumped⟩
    · left
      obtain ⟨hbank, hcode⟩ := not_or.mp hhole
      obtain ⟨i, hi, hempty⟩ := decodeIntelMc_hole hbank (not_not.mp hcode) cputype recordlen
      rw [if_pos hintel]
      refine ⟨Paging.mapM_of_exists ⟨i, List.mem_range.mpr hi, ?_⟩, if_neg fun h => hhole h.2⟩
      rw [hempty]
      rfl
  · right
    rw [if_neg hintel, reported_of_not_intel hintel]
    exact ⟨[], rfl, fun e he => absurd he List.not_mem_nil, fun f hf => absurd hf List.not_mem_nil⟩

/-! ## Identities -/

theorem slot_lt (code : ℕ) (f : Fault) : f.slot code < 16 := by
  cases f with
  | cache | tlb => exact Nat.mod_lt code (by decide)
  | bus => exact (Nat.mod_lt code (by decide)).trans (by decide : 4 < 16)
  | high => exact (by decide : 1 < 16)
  | _ => exact (by decide : 0 < 16)

theorem toNat_slot_or {slot : ℕ} (hslot : slot < 2 ^ 32) (cpu : BitVec 32) :
    (BitVec.ofNat 64 slot ||| cpu.setWidth 64 <<< 32).toNat = cpu.toNat * 2 ^ 32 + slot := by
  have hcpu := cpu.isLt
  rw [BitVec.toNat_or, BitVec.toNat_ofNat, BitVec.toNat_shiftLeft, BitVec.toNat_setWidth,
    Nat.mod_eq_of_lt (hslot.trans (by decide)), Nat.mod_eq_of_lt (hcpu.trans (by decide)),
    Nat.mod_eq_of_lt (by rw [Nat.shiftLeft_eq]; omega), Nat.or_comm,
    ← Nat.shiftLeft_add_eq_or_of_lt hslot, Nat.shiftLeft_eq]

theorem fid_eq_iff {m m' : Mce} {f f' : Fault} (hf : f ≠ .page) (hf' : f' ≠ .page) :
    f.fid m = f'.fid m' ↔ m.processor = m'.processor ∧
      f.slot (mcaCode m.status) = f'.slot (mcaCode m'.status) := by
  have hslot := slot_lt (mcaCode m.status) f
  have hslot' := slot_lt (mcaCode m'.status) f'
  rw [Fault.fid, Fault.fid, if_neg hf, if_neg hf', ← BitVec.toNat_inj,
    toNat_slot_or (hslot.trans (by decide)), toNat_slot_or (hslot'.trans (by decide)),
    ← BitVec.toNat_inj]
  omega

theorem device_cases (f : Fault) :
    f.device = "cpu".toList ∨ f.device = "memory".toList ∧ (f = .mem ∨ f = .page) := by
  cases f with
  | mem => exact .inr ⟨rfl, .inl rfl⟩
  | page => exact .inr ⟨rfl, .inr rfl⟩
  | _ => exact .inl rfl

/-- Two faults with one identity and different mnemonics. -/
inductive Clash (m m' : Mce) : Fault → Fault → Prop
  /-- different faults of a processor with one slot -/
  | kind {f f' : Fault} : f.device = "cpu".toList → f'.device = "cpu".toList →
      m.processor = m'.processor → f.slot (mcaCode m.status) = f'.slot (mcaCode m'.status) →
      f ≠ f' → Clash m m' f f'
  /-- one graded fault, corrected in one record and uncorrected in the other -/
  | severity {f : Fault} : f.graded = true → m.processor = m'.processor →
      f.slot (mcaCode m.status) = f.slot (mcaCode m'.status) → m.uc ≠ m'.uc → Clash m m' f f
  /-- the address of the page is the number of the processor, shifted -/
  | memPage : m.processor.setWidth 64 <<< 32 = pageAddr m'.addr → Clash m m' .mem .page
  | pageMem : pageAddr m.addr = m'.processor.setWidth 64 <<< 32 → Clash m m' .page .mem

theorem fid_mem (m : Mce) : Fault.mem.fid m = m.processor.setWidth 64 <<< 32 := by
  rw [Fault.fid, if_neg Fault.noConfusion]
  exact BitVec.zero_or

/-- Two faults clash if their events have one key and different mnemonics. -/
theorem clash_iff {m m' : Mce} {f f' : Fault} {e e' : FmsCpumem} (he : Dumped m f e)
    (he' : Dumped m' f' e') : Clash m m' f f' ↔
      (cpumemFmEventPost e).key = (cpumemFmEventPost e').key ∧ e.mnemonic ≠ e'.mnemonic := by
  have hkey : (cpumemFmEventPost e).key = (cpumemFmEventPost e').key ↔
      e.fname = e'.fname ∧ e.devId = e'.devId ∧ e.fid = e'.fid := by
    simp only [Nvlist.key, Nvlist.device, cpumemFmEventPost, Prod.mk.injEq, Nat.cast_inj,
      BitVec.toNat_inj, and_assoc]
  rw [hkey, he.fname, he'.fname, he.devId, he'.devId, he.fid, he'.fid, he.mnemonic, he'.mnemonic,
    Ne, mnemonic_eq_iff]
  constructor
  · intro h
    cases h with
    | kind hdev hdev' hcpu hslot hne =>
      have hpage : f ≠ .page := fun h => absurd (h ▸ hdev) (by decide)
      have hpage' : f' ≠ .page := fun h => absurd (h ▸ hdev') (by decide)
      rw [hdev, hdev', if_pos rfl, if_pos rfl, hcpu, fid_eq_iff hpage hpage']
      exact ⟨⟨rfl, rfl, hcpu, hslot⟩, fun h => hne h.1⟩
    | severity hgraded hcpu hslot huc =>
      have hpage : f ≠ .page := fun h => absurd (h ▸ hgraded) (by decide)
      rw [hcpu, fid_eq_iff hpage hpage]
      exact ⟨⟨rfl, rfl, hcpu, hslot⟩, fun h => huc (h.2 hgraded)⟩
    | memPage haddr =>
      refine ⟨⟨rfl, rfl, ?_⟩, fun h => Fault.noConfusion h.1⟩
      exact (fid_mem m).trans haddr
    | pageMem haddr =>
      refine ⟨⟨rfl, rfl, ?_⟩, fun h => Fault.noConfusion h.1⟩
      exact haddr.trans (fid_mem m').symm
  · rintro ⟨⟨hdev, -, hfid⟩, hne⟩
    by_cases hpage : f = .page
    · subst hpage
      rcases device_cases f' with hcpu | ⟨-, rfl | rfl⟩
      · rw [hcpu] at hdev
        exact absurd hdev (by decide)
      · exact .pageMem (hfid.trans (fid_mem m'))
      · exact absurd ⟨rfl, fun h => absurd h (by decide)⟩ hne
    by_cases hpage' : f' = .page
    · subst hpage'
      rcases device_cases f with hcpu | ⟨-, rfl | rfl⟩
      · rw [hcpu] at hdev
        exact absurd hdev (by decide)
      · exact .memPage ((fid_mem m).symm.trans hfid)
      · exact absurd rfl hpage
    obtain ⟨hcpu, hslot⟩ := (fid_eq_iff hpage hpage').mp hfid
    by_cases hff : f = f'
    · subst hff
      obtain ⟨hgraded, huc⟩ : f.graded = true ∧ m.uc ≠ m'.uc := by simpa using hne
      exact .severity hgraded hcpu hslot huc
    · rcases device_cases f with hd | ⟨hd, rfl | rfl⟩
      · exact .kind hd (hdev ▸ hd) hcpu hslot hff
      · rcases device_cases f' with hd' | ⟨-, rfl | rfl⟩
        · rw [hd, hd'] at hdev
          exact absurd hdev (by decide)
        · exact absurd rfl hff
        · exact absurd rfl hpage'
      · exact absurd rfl hpage

/-- Events of two records with one key have one mnemonic. -/
def KeysSeparate (es es' : Option (List FmsCpumem)) : Prop :=
  ∀ l ∈ es, ∀ l' ∈ es', ∀ e ∈ l, ∀ e' ∈ l',
    (cpumemFmEventPost e).key = (cpumemFmEventPost e').key → e.mnemonic = e'.mnemonic

/-- **The identities of two records separate their faults** if and only if no fault of one clashes
with a fault of the other. -/
theorem keysSeparate_iff (cputype cputype' : Cputype) (m m' : Mce) (recordlen recordlen' : ℕ) :
    KeysSeparate (dumpMce cputype m recordlen) (dumpMce cputype' m' recordlen') ↔
      ∀ f ∈ reported cputype m, ∀ f' ∈ reported cputype' m', ¬ Clash m m' f f' := by
  rcases dumpMce_spec cputype m recordlen with ⟨hnone, hempty⟩ | ⟨es, hes, hevents, hfaults⟩
  · rw [hnone, hempty]
    exact iff_of_true (fun l hl => absurd hl (by simp)) (by simp)
  rcases dumpMce_spec cputype' m' recordlen' with ⟨hnone, hempty⟩ | ⟨es', hes', hevents', hfaults'⟩
  · rw [hnone, hempty]
    exact iff_of_true (fun l _ l' hl' => absurd hl' (by simp)) (by simp)
  constructor
  · intro h f hf f' hf' hclash
    obtain ⟨e, he, hdumped⟩ := hfaults f hf
    obtain ⟨e', he', hdumped'⟩ := hfaults' f' hf'
    obtain ⟨hkey, hne⟩ := (clash_iff hdumped hdumped').mp hclash
    exact hne (h es hes es' hes' e he e' he' hkey)
  · intro h l hl l' hl' e he e' he' hkey
    rw [hes, Option.mem_some_iff] at hl
    rw [hes', Option.mem_some_iff] at hl'
    subst hl hl'
    obtain ⟨f, hf, hdumped⟩ := hevents e he
    obtain ⟨f', hf', hdumped'⟩ := hevents' e' he'
    by_contra hne
    exact h f hf f' hf' ((clash_iff hdumped hdumped').mpr ⟨hkey, hne⟩)

/-- A TLB error and a cache error of one processor. -/
theorem keysSeparate_fails :
    ¬ KeysSeparate (dumpMce .broadwell { status := 0x9000000000000010, cpu := 3 } 88)
      (dumpMce .broadwell { status := 0x9000000000000100, cpu := 3 } 88) :=
  fun h => absurd (h _ rfl _ rfl _ List.mem_cons_self _ List.mem_cons_self (by decide)) (by decide)

end Fms
