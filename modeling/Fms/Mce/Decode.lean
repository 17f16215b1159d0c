import Mathlib.Tactic.IntervalCases
import Fms.Mce.Haswell

/-!
# Decoding a machine-check record

evt_modules/evtsrc/cpumem/p4.c: `decode_mca` decides on the low 16 bits of the status word which
error is reported, and `decode_intel_mc` puts the messages of the model-specific tables before it.

* `mcaFault`, `faultsOf`: the faults that a record reports, by ranges of the error code;
* `mcaHole`: the error codes for which `decode_mca` counts a message that it does not write;
* **`decodeComplete_iff`**: all messages of a record are complete if and only if the record is
  thermal or its error code is in no hole.
-/

namespace Fms

open CString

/-- `MCE_THERMAL_BANK` -/
def mceThermalBank : BitVec 8 := 128

/-- `FMS_CPUMEM_PAGE_ERROR` -/
def fmsCpumemPageError : BitVec 64 := 1

/-- `enum cputype` -/
inductive Cputype where
  | generic
  | p6old
  | core2
  | k8
  | p4
  | nehalem
  | dunnington
  | tulsa
  | intel
  | xeon75xx
  | sandyBridge
  | sandyBridgeEp
  | ivyBridge
  | ivyBridgeEpex
  | haswell
  | haswellEpex
  | broadwell
  | knightsLanding
  | atom
  deriving DecidableEq

/-- `struct mce` -/
structure Mce where
  status : BitVec 64 := 0
  misc : BitVec 64 := 0
  addr : BitVec 64 := 0
  mcgstatus : BitVec 64 := 0
  ip : BitVec 64 := 0
  tsc : BitVec 64 := 0
  time : BitVec 64 := 0
  cpuvendor : BitVec 8 := 0
  cpuid : BitVec 32 := 0
  cs : BitVec 8 := 0
  bank : BitVec 8 := 0
  cpu : BitVec 8 := 0
  extcpu : BitVec 32 := 0
  socketid : BitVec 32 := 0
  apicid : BitVec 32 := 0
  mcgcap : BitVec 64 := 0

/-- `offsetof(struct mce, socketid)` -/
def offsetofSocketid : ℕ := 72

/-- The processor of a record: `extcpu`, or the obsolete `cpu` if it is zero. -/
def Mce.processor (log : Mce) : BitVec 32 := if log.extcpu ≠ 0 then log.extcpu else log.cpu.setWidth 32

/-! ## Texts -/

/-- A text of a table, `"UNKNOWN"` behind its end. -/
def tableStr (table : List String) (i : ℕ) : CStr := (table.getD i "UNKNOWN").toList

/-- `get_TT_str` -/
def getTTStr : ℕ → CStr := tableStr ["Instruction", "Data", "Generic", "Unknown"]

/-- `get_LL_str` -/
def getLLStr : ℕ → CStr := tableStr ["Level-0", "Level-1", "Level-2", "Level-3"]

/-- `get_RRRR_str` -/
def getRRRRStr : ℕ → CStr :=
  tableStr ["Generic", "Read", "Write", "Data-Read", "Data-Write", "Instruction-Fetch", "Prefetch",
    "Eviction", "Snoop"]

/-- `get_PP_str` -/
def getPPStr : ℕ → CStr :=
  tableStr ["Local-CPU-originated-request", "Responed-to-request", "Observed-error-as-third-party",
    "Generic"]

/-- `get_T_str` -/
def getTStr : ℕ → CStr := tableStr ["Request-did-not-timeout", "Request-timed-out"]

/-- `get_II_str` -/
def getIIStr : ℕ → CStr := tableStr ["Memory-access", "Reserved", "IO", "Other-transaction"]

/-- `msg` of `decode_mca` -/
def mcaTexts : List String :=
  ["No Error", "Unclassified", "Microcode ROM parity error", "External error", "FRC error",
    "Internal parity error", "SMM Handler Code Access Violation"]

/-- `msg` of `fms_decode_base_mca` -/
def fmsMcaTexts : List String :=
  ["none", "unclassified", "mrom_parity", "external", "frc", "internal_parity", "smm_hcav"]

/-- `mmm_mnemonic` -/
def mmmMnemonic : List String := ["GEN", "RD", "WR", "AC", "MS", "RES5", "RES6", "RES7"]

/-- `mmm_desc` -/
def mmmDesc : List String :=
  ["Generic undefined request", "Memory read error", "Memory write error", "Address/Command error",
    "Memory scrubbing error", "Reserved 5", "Reserved 6", "Reserved 7"]

/-! ## The decoder -/

/-- `fms_decode_base_mca` -/
def fmsDecodeBaseMca (no : ℕ) (status : BitVec 64) (m : McMsg) : McMsg :=
  if fmsMcaTexts.length ≤ no then m
  else
    { m with
      mnemonic := some (tableStr fmsMcaTexts no ++ fmsMciStatusUc status)
      name := "cpu".toList }

/-- `decode_memory_controller` -/
def decodeMemoryController (mca : BitVec 32) (status : BitVec 64) (m : McMsg) : McMsg :=
  let unspecified := mca &&& 0xf = 0xf
  let channel := if unspecified then "unspecified".toList else fmtInt (mca &&& 0xf).toNat
  let request := ((mca >>> 4) &&& 7).toNat
  let m :=
    { m with
      desc := some ("MEMORY CONTROLLER ".toList ++ tableStr mmmMnemonic request ++
        "_CHANNEL".toList ++ channel ++ "_ERR; ".toList ++ tableStr mmmDesc request)
      name := "memory".toList
      memCh := if unspecified then -1 else (mca &&& 0xf).toNat }
  if status &&& mciStatusAddrv ≠ 0 ∧ status &&& mciStatusUc = 0 then
    { m with flags := m.flags ||| fmsCpumemPageError, mnemonic := some "mempage".toList }
  else { m with mnemonic := some ("mem".toList ++ fmsMciStatusUc status) }

/-- `test_prefix` -/
def testPrefix (nr : ℕ) (value : BitVec 32) : Bool := value >>> nr == 1

/-- The error code `mca`, without the filtering bit. -/
def mcaOf (status : BitVec 64) : BitVec 32 :=
  let mca := (status &&& 0xffff).setWidth 32
  if mca &&& (1#32 <<< 12) ≠ 0 then mca &&& ~~~(1#32 <<< 12) else mca

/-- What `decode_mca` appends to the description of an error that a root port reported. -/
def ioMcaText (misc : BitVec 64) : CStr :=
  "; IO MCA reported by root port ".toList ++ fmtHex 0 (extract misc 32 39).toNat ++ ':' ::
    fmtHex 2 (extract misc 24 31).toNat ++ ':' :: fmtHex 2 (extract misc 19 23).toNat ++ '.' ::
    fmtHex 0 (extract misc 16 18).toNat

/-- The branches of `decode_mca`, on the message `mm[mn]`. -/
def mcaMsg (status misc : BitVec 64) (cpu socket : ℤ) (mca : BitVec 32) (m : McMsg) : McMsg :=
  let uc := fmsMciStatusUc status
  let level := getLLStr (mca &&& 0x3).toNat
  if mca.toNat < mcaTexts.length then
    fmsDecodeBaseMca mca.toNat status { m with desc := some (tableStr mcaTexts mca.toNat) }
  else if mca >>> 2 = 3 then
    { m with
      mnemonic := some ("cache".toList ++ uc)
      desc := some (level ++ " Generic cache hierarchy error".toList)
      clevel := (mca &&& 3).toNat
      ctype := -1
      name := "cpu".toList
      id := ((mca &&& 3) ||| 0xC).setWidth 64 }
  else if testPrefix 4 mca then
    let typenum := ((mca &&& 0xc) >>> 2).toNat
    { m with
      mnemonic := some ("tlb".toList ++ uc)
      desc := some (getTTStr typenum ++ " TLB ".toList ++ level ++ " Error".toList)
      clevel := (mca &&& 0x3).toNat
      ctype := typenum
      name := "cpu".toList
      id := (mca &&& (0xc ||| 0x3)).setWidth 64 }
  else if testPrefix 8 mca then
    let typenum := ((mca &&& 0xc) >>> 2).toNat
    let rrrr := getRRRRStr ((mca &&& 0xF0) >>> 4).toNat
    { m with
      mnemonic := some ("cache".toList ++ uc)
      desc := some (getTTStr typenum ++ " CACHE ".toList ++ level ++ ' ' :: rrrr ++ " Error".toList)
      clevel := (mca &&& 0x3).toNat
      ctype := typenum
      name := "cpu".toList
      id := (mca &&& (0xc ||| 0x3)).setWidth 64 }
  else if testPrefix 10 mca then
    if mca = 0x400 then
      { m with
        mnemonic := some ("internal_timer".toList ++ uc)
        desc := some "Internal Timer error".toList
        name := "cpu".toList }
    else
      { m with
        mnemonic := some ("internal_unclassified".toList ++ uc)
        desc := some ("Internal unclassified error: ".toList ++ fmtHex 0 (mca &&& 0xffff).toNat)
        name := "cpu".toList }
  else if testPrefix 11 mca then
    let pp := getPPStr ((mca &&& 0x600) >>> 9).toNat
    let rrrr := getRRRRStr ((mca &&& 0xF0) >>> 4).toNat
    let ii := getIIStr ((mca &&& 0xc) >>> 2).toNat
    let timeout := getTStr ((mca &&& 0x100) >>> 8).toNat
    let desc := "BUS error: ".toList ++ fmtInt socket ++ ' ' :: fmtInt cpu ++ ' ' :: level ++
      ' ' :: pp ++ ' ' :: rrrr ++ ' ' :: ii ++ ' ' :: timeout
    let ioMca := status &&& mciStatusMiscv ≠ 0 ∧ status &&& 0xefff = 0x0e0b
    { m with
      mnemonic := some ("bus".toList ++ uc)
      desc := some (if ioMca then desc ++ ioMcaText misc else desc)
      name := "cpu".toList
      id := (mca &&& 0x3).setWidth 64 }
  else if testPrefix 7 mca then decodeMemoryController mca status m
  -- the text for an unknown error is made only if `mm` is null; else the pointer `mm` is moved back,
  -- which nothing reads any more
  else m

/-- `decode_mca` -/
def decodeMca (status misc : BitVec 64) (cpu socket : ℤ) (st : McMsgs) : McMsgs × ℤ :=
  let mca := mcaOf status
  if mca = 0 then (st, -1)
  else if mceMsgMaxnum ≤ st.mmNum then (st, -1)
  else
    let st := st.write st.mmNum (mcaMsg status misc cpu socket mca (st.mm st.mmNum))
    ({ st with mmNum := st.mmNum + 1 }, 0)

/-- `decode_mci` -/
def decodeMci (status misc : BitVec 64) (cpu socket : ℤ) (st : McMsgs) : McMsgs × ℤ :=
  decodeMca status misc cpu socket st

/-- `decode_thermal`; the name and the id go to the first message. -/
def decodeThermal (log : Mce) (cpu : ℤ) (st : McMsgs) : McMsgs :=
  let mn := st.mmNum
  if mceMsgMaxnum ≤ mn then st
  else
    let st := st.write 0 { st.mm 0 with name := "cpu".toList }
    let before := "Processor ".toList ++ fmtInt cpu
    let st :=
      if log.status &&& 1 ≠ 0 then
        let st := st.write mn
          { st.mm mn with
            mnemonic := some "tmp_high".toList
            desc := some (before ++ " heated above trip temperature. Throttling enabled.".toList) }
        st.write 0 { st.mm 0 with id := 1 }
      else
        st.write mn
          { st.mm mn with
            mnemonic := some "tmp_low".toList
            desc := some (before ++ " below trip temperature. Throttling disabled.".toList) }
    { st with mmNum := mn + 1 }

/-- `decode_intel_mc` -/
def decodeIntelMc (log : Mce) (cputype : Cputype) (size : ℕ) (st : McMsgs) : McMsgs :=
  let socket := if offsetofSocketid < size then log.socketid.toInt else -1
  let cpu := log.processor.toInt
  if log.bank = mceThermalBank then decodeThermal log cpu st
  else
    let st := if cputype = .haswellEpex then hswDecodeModel log.bank.toNat log.status st else st
    (decodeMci log.status log.misc cpu socket st).1

/-! ## Faults -/

/-- The faults that messages report. -/
inductive Fault where
  | high
  | low
  | unit (u : HswUnit)
  | base (no : Fin 7)
  | cache
  | tlb
  | timer
  | unclassified
  | bus
  | mem
  | page
  deriving DecidableEq

/-- The name of the device at fault. -/
def Fault.device : Fault → CStr
  | .mem | .page => "memory".toList
  | _ => "cpu".toList

/-- The mnemonic of a fault; `uc` is the severity that most of them end in. -/
def Fault.mnemonic (uc : CStr) : Fault → CStr
  | .high => "tmp_high".toList
  | .low => "tmp_low".toList
  | .unit u => u.type ++ uc
  | .base no => tableStr fmsMcaTexts no ++ uc
  | .cache => "cache".toList ++ uc
  | .tlb => "tlb".toList ++ uc
  | .timer => "internal_timer".toList ++ uc
  | .unclassified => "internal_unclassified".toList ++ uc
  | .bus => "bus".toList ++ uc
  | .mem => "mem".toList ++ uc
  | .page => "mempage".toList

/-- The error code: the low 16 bits of the status without the filtering bit 12. -/
def mcaCode (status : BitVec 64) : ℕ := 2 ^ 13 * (status.toNat / 2 ^ 13 % 8) + status.toNat % 2 ^ 12

/-- The number that tells faults of one processor apart. -/
def Fault.slot (code : ℕ) : Fault → ℕ
  | .high => 1
  | .cache | .tlb => code % 16
  | .bus => code % 4
  | _ => 0

/-- The fault of a memory controller: a page, if the error is corrected and its address is known. -/
def memFault (status : BitVec 64) : Fault :=
  if status &&& mciStatusAddrv ≠ 0 ∧ status &&& mciStatusUc = 0 then .page else .mem

/-- The error codes from 7 on, by ranges. -/
def codeRanges (status : BitVec 64) : List (ℕ × ℕ × Fault) :=
  [(12, 16, .cache), (16, 32, .tlb), (128, 256, memFault status), (256, 512, .cache),
    (1024, 1025, .timer), (1025, 2048, .unclassified), (2048, 4096, .bus)]

/-- The fault of an error code. -/
def codeFault (status : BitVec 64) (code : ℕ) : Option Fault :=
  if 0 < code ∧ code < 7 then some (.base (Fin.ofNat 7 code))
  else
    let range := (codeRanges status).find? fun r => decide (r.1 ≤ code) && decide (code < r.2.1)
    range.map fun r => r.2.2

/-- The fault that `decode_mca` reports. -/
def mcaFault (status : BitVec 64) : Option Fault := codeFault status (mcaCode status)

/-- The error codes without a fault, zero apart. -/
def mcaHole (code : ℕ) : Prop :=
  7 ≤ code ∧ code < 12 ∨ 32 ≤ code ∧ code < 128 ∨ 512 ≤ code ∧ code < 1024 ∨ 4096 ≤ code

instance (code : ℕ) : Decidable (mcaHole code) :=
  inferInstanceAs (Decidable (_ ∨ _ ∨ _ ∨ _))

/-- The unit that the model-specific decoder reports. -/
def modelUnit (cputype : Cputype) (log : Mce) : Option HswUnit :=
  if cputype = .haswellEpex then hswUnit log.bank.toNat log.status else none

/-- The faults of a record. -/
def faultsOf (cputype : Cputype) (log : Mce) : List Fault :=
  if log.bank = mceThermalBank then [if log.status &&& 1 ≠ 0 then .high else .low]
  else ((modelUnit cputype log).map Fault.unit).toList ++ (mcaFault log.status).toList

/-- The message reports the fault, and is complete. -/
structure Shows (status : BitVec 64) (f : Fault) (m : McMsg) : Prop where
  name : m.name = f.device
  mnemonic : m.mnemonic = some (f.mnemonic (fmsMciStatusUc status))
  desc : m.desc.isSome = true
  id : m.id = BitVec.ofNat 64 (f.slot (mcaCode status))
  page : m.flags &&& fmsCpumemPageError ≠ 0 ↔ f = .page

/-! ## The error code -/

theorem testBit_mcaCode (status : BitVec 64) (i : ℕ) : (mcaCode status).testBit i =
    (status.getLsbD i && decide (i < 16 ∧ i ≠ 12)) := by
  have hlow : status.toNat % 2 ^ 12 < 2 ^ 13 := by omega
  rw [mcaCode, Nat.testBit_two_pow_mul_add _ hlow, Nat.testBit_mod_two_pow,
    show (8 : ℕ) = 2 ^ 3 from rfl, Nat.testBit_mod_two_pow, Nat.testBit_div_two_pow]
  split_ifs with hi
  · rw [BitVec.testBit_toNat]
    rcases lt_or_eq_of_le (Nat.le_of_lt_succ hi) with hlt | rfl
    · simp [hlt, hlt.ne, hlt.trans (show 12 < 16 by decide)]
    · simp
  · rw [BitVec.testBit_toNat, Nat.sub_add_cancel (by omega), Bool.and_comm]
    congr 1
    exact decide_eq_decide.mpr (by omega)

theorem getLsbD_mcaOf (status : BitVec 64) (i : ℕ) : (mcaOf status).getLsbD i =
    (status.getLsbD i && decide (i < 16 ∧ i ≠ 12)) := by
  unfold mcaOf
  extract_lets mca
  have hword (j : ℕ) : mca.getLsbD j = (status.getLsbD j && decide (j < 16)) := by
    change ((status &&& 0xffff).setWidth 32).getLsbD j = _
    have hmask : (0xffff : BitVec 64).getLsbD j = decide (j < 16) :=
      Nat.testBit_two_pow_sub_one 16 j
    rw [BitVec.getLsbD_setWidth, BitVec.getLsbD_and, hmask]
    by_cases hj : j < 16
    · simp [hj, hj.trans (show 16 < 32 by decide)]
    · simp [hj]
  split_ifs with h
  · have hbit : (1#32 <<< 12).getLsbD i = decide (12 = i) := BitVec.getLsbD_twoPow 12 i
    rw [BitVec.getLsbD_and, hword, BitVec.getLsbD_not, hbit]
    by_cases hi : i < 16
    · simp [hi, hi.trans (show 16 < 32 by decide), eq_comm]
    · simp [hi]
  · -- the filtering bit is off
    rw [hword]
    by_cases hi : i = 12
    · have hoff := congrArg (fun v => v.getLsbD 12) (not_not.mp h)
      simp only [BitVec.getLsbD_and] at hoff
      rw [hword] at hoff
      subst hi
      simpa using hoff
    · simp [hi]

theorem toNat_mcaOf (status : BitVec 64) : (mcaOf status).toNat = mcaCode status := by
  refine Nat.eq_of_testBit_eq fun i => ?_
  rw [BitVec.testBit_toNat, getLsbD_mcaOf, testBit_mcaCode]
theorem testPrefix_iff (nr : ℕ) (value : BitVec 32) :
    testPrefix nr value = true ↔ 2 ^ nr ≤ value.toNat ∧ value.toNat < 2 * 2 ^ nr := by
  have hpos : 0 < 2 ^ nr := Nat.two_pow_pos nr
  rw [testPrefix, beq_iff_eq, ← BitVec.toNat_inj, BitVec.toNat_ushiftRight, Nat.shiftRight_eq_div_pow]
  change _ = 1 ↔ _
  rw [Nat.div_eq_iff hpos]
  omega

theorem shift_two_iff (value : BitVec 32) :
    value >>> 2 = 3 ↔ 12 ≤ value.toNat ∧ value.toNat < 16 := by
  rw [← BitVec.toNat_inj, BitVec.toNat_ushiftRight, Nat.shiftRight_eq_div_pow]
  change _ = 3 ↔ _
  omega

theorem setWidth_low (k : ℕ) (mask value : BitVec 32) (hmask : mask.toNat = 2 ^ k - 1) :
    (value &&& mask).setWidth 64 = BitVec.ofNat 64 (value.toNat % 2 ^ k) := by
  have hle : value.toNat % 2 ^ k ≤ value.toNat := Nat.mod_le _ _
  refine BitVec.eq_of_toNat_eq ?_
  rw [BitVec.toNat_setWidth, BitVec.toNat_and, hmask, Nat.and_two_pow_sub_one_eq_mod,
    BitVec.toNat_ofNat]

/-! ## A message -/

theorem mcaMsg_hole {status : BitVec 64} (misc : BitVec 64) (cpu socket : ℤ) (m : McMsg)
    (h : mcaHole (mcaCode status)) : mcaMsg status misc cpu socket (mcaOf status) m = m := by
  unfold mcaHole at h
  have hlen : mcaTexts.length = 7 := rfl
  simp only [mcaMsg, testPrefix_iff, shift_two_iff, toNat_mcaOf, hlen]
  rw [if_neg (by omega), if_neg (by omega), if_neg (by omega), if_neg (by omega), if_neg (by omega),
    if_neg (by omega), if_neg (by omega)]

theorem noPageError : ¬ ((0 : BitVec 64) &&& fmsCpumemPageError ≠ 0) := by decide




/-- The error codes of a fault. -/
inductive McaRange (status : BitVec 64) (code : ℕ) : Fault → Prop
  | base : 0 < code → code < 7 → McaRange status code (.base (Fin.ofNat 7 code))
  | generic : 12 ≤ code → code < 16 → McaRange status code .cache
  | tlb : 16 ≤ code → code < 32 → McaRange status code .tlb
  | mem : 128 ≤ code → code < 256 → McaRange status code (memFault status)
  | cache : 256 ≤ code → code < 512 → McaRange status code .cache
  | timer : 1024 ≤ code → code < 1025 → McaRange status code .timer
  | unclassified : 1025 ≤ code → code < 2048 → McaRange status code .unclassified
  | bus : 2048 ≤ code → code < 4096 → McaRange status code .bus

theorem McaRange.of_codeFault {status : BitVec 64} {code : ℕ} {f : Fault}
    (h : codeFault status code = some f) : McaRange status code f := by
  unfold codeFault at h
  by_cases hbase : 0 < code ∧ code < 7
  · rw [if_pos hbase, Option.some_inj] at h
    exact h ▸ .base hbase.1 hbase.2
  · rw [if_neg hbase] at h
    obtain ⟨r, hfind, rfl⟩ := Option.map_eq_some_iff.mp h
    have hin := List.find?_some hfind
    rw [Bool.and_eq_true, decide_eq_true_iff, decide_eq_true_iff] at hin
    have hmem := List.mem_of_find?_eq_some hfind
    simp only [codeRanges, List.mem_cons, List.not_mem_nil, or_false] at hmem
    rcases hmem with rfl | rfl | rfl | rfl | rfl | rfl | rfl
    exacts [.generic hin.1 hin.2, .tlb hin.1 hin.2, .mem hin.1 hin.2, .cache hin.1 hin.2,
      .timer hin.1 hin.2, .unclassified hin.1 hin.2, .bus hin.1 hin.2]

theorem codeFault_eq_none {status : BitVec 64} {code : ℕ} (h : codeFault status code = none) :
    code = 0 ∨ mcaHole code := by
  unfold codeFault at h
  by_cases hbase : 0 < code ∧ code < 7
  · rw [if_pos hbase] at h
    cases h
  · rw [if_neg hbase, Option.map_eq_none_iff, List.find?_eq_none] at h
    simp only [codeRanges, List.forall_mem_cons, Bool.and_eq_true, decide_eq_true_iff] at h
    unfold mcaHole
    omega

theorem generic_id {mca : BitVec 32} (hge : 12 ≤ mca.toNat) (hlt : mca.toNat < 16) :
    ((mca &&& 3) ||| 0xC).setWidth 64 = BitVec.ofNat 64 (mca.toNat % 16) := by
  obtain ⟨n, hn⟩ : ∃ n, mca.toNat = n := ⟨_, rfl⟩
  have hmca : mca = BitVec.ofNat 32 n := by rw [← hn, BitVec.ofNat_toNat, BitVec.setWidth_eq]
  rw [hn] at hge hlt ⊢
  subst hmca
  interval_cases n <;> rfl

theorem decodeMemoryController_shows (mca : BitVec 32) (status : BitVec 64) :
    Shows status (memFault status) (decodeMemoryController mca status {}) := by
  unfold memFault decodeMemoryController
  by_cases hpage : status &&& mciStatusAddrv ≠ 0 ∧ status &&& mciStatusUc = 0
  · have hflag : (0 ||| fmsCpumemPageError) &&& fmsCpumemPageError ≠ 0 := by decide
    rw [if_pos hpage, if_pos hpage]
    exact ⟨rfl, rfl, rfl, rfl, iff_of_true hflag rfl⟩
  · rw [if_neg hpage, if_neg hpage]
    exact ⟨rfl, rfl, rfl, rfl, iff_of_false noPageError Fault.noConfusion⟩

theorem fmsDecodeBaseMca_shows {status : BitVec 64} {code : ℕ} (hlt : code < 7) (desc : CStr) :
    Shows status (.base (Fin.ofNat 7 code)) (fmsDecodeBaseMca code status { desc := some desc }) := by
  have hno : (Fin.ofNat 7 code : ℕ) = code := Nat.mod_eq_of_lt hlt
  have hlen : ¬ fmsMcaTexts.length ≤ code := not_le.mpr hlt
  rw [fmsDecodeBaseMca, if_neg hlen]
  refine ⟨rfl, ?_, rfl, rfl, iff_of_false noPageError Fault.noConfusion⟩
  change _ = some (tableStr fmsMcaTexts (Fin.ofNat 7 code : ℕ) ++ fmsMciStatusUc status)
  rw [hno]

/-- **Each branch of `decode_mca`** makes a complete message of its fault. -/
theorem mcaMsg_shows {status : BitVec 64} {f : Fault} (misc : BitVec 64) (cpu socket : ℤ)
    (h : mcaFault status = some f) :
    Shows status f (mcaMsg status misc cpu socket (mcaOf status) {}) := by
  have hlen : mcaTexts.length = 7 := rfl
  have hlow : (mcaOf status &&& (0xc ||| 0x3)).setWidth 64 =
      BitVec.ofNat 64 (mcaCode status % 16) := by
    rw [← toNat_mcaOf]
    exact setWidth_low 4 _ _ rfl
  have hlevel : (mcaOf status &&& 0x3).setWidth 64 = BitVec.ofNat 64 (mcaCode status % 4) := by
    rw [← toNat_mcaOf]
    exact setWidth_low 2 _ _ rfl
  have htimer : mcaOf status = 0x400 ↔ mcaCode status = 1024 := by
    rw [← BitVec.toNat_inj, toNat_mcaOf]
    rfl
  simp only [mcaMsg, testPrefix_iff, shift_two_iff, toNat_mcaOf, hlen, htimer]
  cases McaRange.of_codeFault h with
  | base hpos hlt =>
    rw [if_pos hlt]
    exact fmsDecodeBaseMca_shows hlt _
  | generic hge hlt =>
    rw [if_neg (by omega), if_pos (by omega)]
    refine ⟨rfl, rfl, rfl, ?_, iff_of_false noPageError Fault.noConfusion⟩
    rw [← toNat_mcaOf] at hge hlt
    exact (generic_id hge hlt).trans (by rw [toNat_mcaOf]; rfl)
  | tlb hge hlt =>
    rw [if_neg (by omega), if_neg (by omega), if_pos (by omega)]
    exact ⟨rfl, rfl, rfl, hlow, iff_of_false noPageError Fault.noConfusion⟩
  | mem hge hlt =>
    rw [if_neg (by omega), if_neg (by omega), if_neg (by omega), if_neg (by omega),
      if_neg (by omega), if_neg (by omega), if_pos (by omega)]
    exact decodeMemoryController_shows _ status
  | cache hge hlt =>
    rw [if_neg (by omega), if_neg (by omega), if_neg (by omega), if_pos (by omega)]
    exact ⟨rfl, rfl, rfl, hlow, iff_of_false noPageError Fault.noConfusion⟩
  | timer hge hlt =>
    rw [if_neg (by omega), if_neg (by omega), if_neg (by omega), if_neg (by omega),
      if_pos (by omega), if_pos (by omega)]
    exact ⟨rfl, rfl, rfl, rfl, iff_of_false noPageError Fault.noConfusion⟩
  | unclassified hge hlt =>
    rw [if_neg (by omega), if_neg (by omega), if_neg (by omega), if_neg (by omega),
      if_pos (by omega), if_neg (by omega)]
    exact ⟨rfl, rfl, rfl, rfl, iff_of_false noPageError Fault.noConfusion⟩
  | bus hge hlt =>
    rw [if_neg (by omega), if_neg (by omega), if_neg (by omega), if_neg (by omega),
      if_neg (by omega), if_pos (by omega)]
    exact ⟨rfl, rfl, rfl, hlevel, iff_of_false noPageError Fault.noConfusion⟩

/-! ## A record -/

theorem decodeMca_added (status misc : BitVec 64) (cpu socket : ℤ) {st : McMsgs} (hz : st.Zeroed)
    (hroom : st.mmNum < mceMsgMaxnum) :
    let st' := (decodeMca status misc cpu socket st).1
    if mcaCode status = 0 then st' = st
    else MsgsAdded st st' 1 ∧
      st'.mm st.mmNum = mcaMsg status misc cpu socket (mcaOf status) {} := by
  have hzero : mcaOf status = 0 ↔ mcaCode status = 0 := by
    rw [← BitVec.toNat_inj, toNat_mcaOf]
    rfl
  simp only [decodeMca, hzero]
  by_cases hcode : mcaCode status = 0
  · rw [if_pos hcode, if_pos hcode]
  · rw [if_neg hcode, if_neg hcode, if_neg (not_le.mpr hroom), hz _ le_rfl]
    refine ⟨⟨rfl, fun i hi => ?_, fun i hi => ?_⟩, Function.update_self ..⟩
    · exact Function.update_of_ne hi.ne _ _
    · exact (Function.update_of_ne (Nat.lt_of_succ_le hi).ne' _ _).trans
        (hz i (Nat.le_of_succ_le hi))

theorem decodeThermal_shows (log : Mce) (cpu : ℤ) :
    (decodeThermal log cpu {}).mmNum = 1 ∧
      Shows log.status (if log.status &&& 1 ≠ 0 then .high else .low)
        ((decodeThermal log cpu {}).mm 0) := by
  have hroom : ¬ mceMsgMaxnum ≤ 0 := by decide
  unfold decodeThermal
  by_cases hhigh : log.status &&& 1 ≠ 0
  · simp only [if_pos hhigh, if_neg hroom, McMsgs.write, Function.update_self]
    exact ⟨trivial, rfl, rfl, rfl, rfl, iff_of_false noPageError Fault.noConfusion⟩
  · simp only [if_neg hhigh, if_neg hroom, McMsgs.write, Function.update_self]
    exact ⟨trivial, rfl, rfl, rfl, rfl, iff_of_false noPageError Fault.noConfusion⟩

/-- The model-specific messages of a record. -/
def modelMsgs (cputype : Cputype) (log : Mce) : McMsgs :=
  if cputype = .haswellEpex then hswDecodeModel log.bank.toNat log.status {} else {}

theorem modelMsgs_shows (cputype : Cputype) (log : Mce) :
    (modelMsgs cputype log).Zeroed ∧ (modelMsgs cputype log).mmNum ≤ 10 ∧
      (∀ i < (modelMsgs cputype log).mmNum, ∃ u ∈ modelUnit cputype log,
        Shows log.status (.unit u) ((modelMsgs cputype log).mm i)) ∧
      ∀ u ∈ modelUnit cputype log, 0 < (modelMsgs cputype log).mmNum := by
  unfold modelMsgs modelUnit
  by_cases hhsw : cputype = .haswellEpex
  · rw [if_pos hhsw, if_pos hhsw]
    have hz : McMsgs.Zeroed {} := fun i _ => rfl
    obtain ⟨n, hn, hadded, hpos, hmsg⟩ :=
      hswDecodeModel_added log.bank.toNat log.status hz (by decide)
    have hnum : (hswDecodeModel log.bank.toNat log.status {}).mmNum = n :=
      hadded.num.trans (Nat.zero_add n)
    refine ⟨hadded.zeroed, hnum.trans_le hn, fun i hi => ?_, fun u hu => ?_⟩
    · obtain ⟨u, hu⟩ := Option.isSome_iff_exists.mp (hpos.mp (by omega))
      obtain ⟨s, hs⟩ := (hmsg u hu).msg i (Nat.zero_le i) hi
      rw [hs]
      exact ⟨u, hu, rfl, rfl, rfl, rfl, iff_of_false noPageError Fault.noConfusion⟩
    · rw [hnum]
      exact hpos.mpr (Option.isSome_iff_exists.mpr ⟨u, hu⟩)
  · rw [if_neg hhsw, if_neg hhsw]
    exact ⟨fun i _ => rfl, Nat.zero_le _, fun i hi => absurd hi (Nat.not_lt_zero i),
      fun u hu => by cases hu⟩

theorem faultsOf_thermal {cputype : Cputype} {log : Mce} (hbank : log.bank = mceThermalBank) :
    faultsOf cputype log = [if log.status &&& 1 ≠ 0 then .high else .low] := if_pos hbank

theorem mem_faultsOf {cputype : Cputype} {log : Mce} (hbank : log.bank ≠ mceThermalBank) {f : Fault} :
    f ∈ faultsOf cputype log ↔
      (∃ u ∈ modelUnit cputype log, .unit u = f) ∨ mcaFault log.status = some f := by
  rw [faultsOf, if_neg hbank, List.mem_append, Option.mem_toList, Option.mem_toList,
    Option.map_eq_some_iff]
  rfl

theorem decodeIntelMc_thermal {log : Mce} (hbank : log.bank = mceThermalBank) (cputype : Cputype)
    (size : ℕ) :
    let st := decodeIntelMc log cputype size {}
    st.mmNum ≤ 11 ∧
      (∀ i < st.mmNum, ∃ f, f ∈ faultsOf cputype log ∧ Shows log.status f (st.mm i)) ∧
      ∀ f ∈ faultsOf cputype log, ∃ i < st.mmNum, Shows log.status f (st.mm i) := by
  extract_lets st
  obtain ⟨hnum, hshows⟩ := decodeThermal_shows log log.processor.toInt
  have hst : st = decodeThermal log log.processor.toInt {} := if_pos hbank
  rw [hst, faultsOf_thermal hbank, hnum]
  refine ⟨by decide, fun i hi => ?_, fun f hf => ⟨0, Nat.one_pos, ?_⟩⟩
  · obtain rfl := Nat.lt_one_iff.mp hi
    exact ⟨_, List.mem_singleton_self _, hshows⟩
  · rw [List.mem_singleton.mp hf]
    exact hshows

theorem decodeIntelMc_eq {log : Mce} (hbank : log.bank ≠ mceThermalBank) (cputype : Cputype)
    (size : ℕ) : decodeIntelMc log cputype size {} =
      (decodeMca log.status log.misc log.processor.toInt
        (if offsetofSocketid < size then log.socketid.toInt else -1) (modelMsgs cputype log)).1 := by
  simp only [decodeIntelMc, decodeMci, modelMsgs, if_neg hbank]

/-- **The messages of a record are its faults**, if its error code is in no hole. -/
theorem decodeIntelMc_shows (log : Mce) (cputype : Cputype) (size : ℕ)
    (h : log.bank = mceThermalBank ∨ ¬ mcaHole (mcaCode log.status)) :
    let st := decodeIntelMc log cputype size {}
    st.mmNum ≤ 11 ∧
      (∀ i < st.mmNum, ∃ f, f ∈ faultsOf cputype log ∧ Shows log.status f (st.mm i)) ∧
      ∀ f ∈ faultsOf cputype log, ∃ i < st.mmNum, Shows log.status f (st.mm i) := by
  by_cases hbank : log.bank = mceThermalBank
  · exact decodeIntelMc_thermal hbank cputype size
  extract_lets st
  have hhole := h.resolve_left hbank
  have hst := decodeIntelMc_eq hbank cputype size
  obtain ⟨hz, hnum, hunits, hpos⟩ := modelMsgs_shows cputype log
  have hroom : (modelMsgs cputype log).mmNum < mceMsgMaxnum := lt_of_le_of_lt hnum (by decide)
  have hadded := decodeMca_added log.status log.misc log.processor.toInt
    (if offsetofSocketid < size then log.socketid.toInt else -1) hz hroom
  rw [← hst] at hadded
  have hunit (u : HswUnit) (hu : u ∈ modelUnit cputype log) :
      Shows log.status (.unit u) ((modelMsgs cputype log).mm 0) := by
    obtain ⟨u', hu', hshows⟩ := hunits 0 (hpos u hu)
    exact Option.mem_unique hu' hu ▸ hshows
  by_cases hcode : mcaCode log.status = 0
  · rw [if_pos hcode] at hadded
    change st = modelMsgs cputype log at hadded
    have hnone : mcaFault log.status = none := by rw [mcaFault, hcode]; rfl
    rw [hadded]
    refine ⟨hnum.trans (by decide), fun i hi => ?_, fun f hf => ?_⟩
    · obtain ⟨u, hu, hshows⟩ := hunits i hi
      exact ⟨_, (mem_faultsOf hbank).mpr (.inl ⟨u, hu, rfl⟩), hshows⟩
    · obtain ⟨u, hu, rfl⟩ | hf := (mem_faultsOf hbank).mp hf
      · exact ⟨0, hpos u hu, hunit u hu⟩
      · rw [hnone] at hf
        cases hf
  · rw [if_neg hcode] at hadded
    obtain ⟨⟨hcount, hold, -⟩, hlast⟩ := hadded
    change st.mmNum = _ at hcount
    obtain ⟨f, hf⟩ : ∃ f, mcaFault log.status = some f := by
      refine Option.ne_none_iff_exists'.mp fun hnone => ?_
      exact (codeFault_eq_none hnone).elim hcode hhole
    have hshows : Shows log.status f (st.mm (modelMsgs cputype log).mmNum) := by
      rw [show st.mm _ = _ from hlast]
      exact mcaMsg_shows log.misc _ _ hf
    refine ⟨by omega, fun i hi => ?_, fun f' hf' => ?_⟩
    · rcases Nat.lt_or_eq_of_le (Nat.le_of_lt_succ (hcount ▸ hi)) with hlt | rfl
      · obtain ⟨u, hu, hshows⟩ := hunits i hlt
        refine ⟨_, (mem_faultsOf hbank).mpr (.inl ⟨u, hu, rfl⟩), ?_⟩
        rw [show st.mm i = _ from hold i hlt]
        exact hshows
      · exact ⟨f, (mem_faultsOf hbank).mpr (.inr hf), hshows⟩
    · obtain ⟨u, hu, rfl⟩ | hf' := (mem_faultsOf hbank).mp hf'
      · refine ⟨0, by omega, ?_⟩
        rw [show st.mm 0 = _ from hold 0 (hpos u hu)]
        exact hunit u hu
      · rw [hf, Option.some_inj] at hf'
        exact ⟨_, by omega, hf' ▸ hshows⟩

/-- In a hole the last message is counted and not written. -/
theorem decodeIntelMc_hole {log : Mce} (hbank : log.bank ≠ mceThermalBank)
    (h : mcaHole (mcaCode log.status)) (cputype : Cputype) (size : ℕ) :
    ∃ i < (decodeIntelMc log cputype size {}).mmNum, (decodeIntelMc log cputype size {}).mm i = {} := by
  have hcode : mcaCode log.status ≠ 0 := by
    intro h0
    rw [h0] at h
    exact absurd h (by decide)
  obtain ⟨hz, hnum, -, -⟩ := modelMsgs_shows cputype log
  have hadded := decodeMca_added log.status log.misc log.processor.toInt
    (if offsetofSocketid < size then log.socketid.toInt else -1) hz
    (lt_of_le_of_lt hnum (by decide))
  rw [← decodeIntelMc_eq hbank cputype size, if_neg hcode] at hadded
  obtain ⟨⟨hcount, -, -⟩, hlast⟩ := hadded
  rw [mcaMsg_hole _ _ _ _ h] at hlast
  exact ⟨(modelMsgs cputype log).mmNum, by omega, hlast⟩

/-! ## Completeness -/

/-- The message has both texts and a device. -/
structure McMsg.Complete (m : McMsg) : Prop where
  mnemonic : m.mnemonic.isSome = true
  desc : m.desc.isSome = true
  name : m.name ≠ []

/-- All counted messages are complete, and the array is not overrun. -/
def McMsgs.Complete (st : McMsgs) : Prop :=
  (∀ i < st.mmNum, (st.mm i).Complete) ∧ st.mmNum ≤ mceMsgMaxnum

theorem Fault.device_ne_nil (f : Fault) : f.device ≠ [] := by
  cases f <;> exact List.cons_ne_nil _ _

theorem Shows.complete {status : BitVec 64} {f : Fault} {m : McMsg} (h : Shows status f m) :
    m.Complete :=
  ⟨h.mnemonic ▸ rfl, h.desc, h.name ▸ f.device_ne_nil⟩

/-- **A record is decoded to complete messages** if and only if it is thermal or its error code is in
no hole of `decode_mca`. -/
theorem decodeComplete_iff (log : Mce) (cputype : Cputype) (size : ℕ) :
    (decodeIntelMc log cputype size {}).Complete ↔
      log.bank = mceThermalBank ∨ ¬ mcaHole (mcaCode log.status) := by
  constructor
  · intro hcomplete
    by_contra hnot
    obtain ⟨hbank, hhole⟩ := not_or.mp hnot
    obtain ⟨i, hi, hempty⟩ := decodeIntelMc_hole hbank (not_not.mp hhole) cputype size
    have hname := (hcomplete.1 i hi).name
    rw [hempty] at hname
    exact hname rfl
  · intro h
    obtain ⟨hnum, hmsgs, -⟩ := decodeIntelMc_shows log cputype size h
    refine ⟨fun i hi => ?_, hnum.trans (by decide)⟩
    obtain ⟨f, -, hshows⟩ := hmsgs i hi
    exact hshows.complete

/-- A valid, enabled error with the code `0x0200`. -/
theorem decodeComplete_fails :
    ¬ (decodeIntelMc { status := 0x9000000000000200 } .broadwell 88 {}).Complete :=
  fun h => (h.1 0 (by decide)).name (by decide)

end Fms
