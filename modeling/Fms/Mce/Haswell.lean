import Fms.Mce.Bitfield

/-!
# The model-specific errors of a Haswell server

evt_modules/evtsrc/cpumem/haswell.c decodes the status words of the banks of the power control unit,
of the QPI links and of the memory controllers with its tables, before the general decoder adds its
own message.

* `hswDecodeModel`: the messages it makes;
* **`hswDecodeModel_added`**: they are complete, there are at most ten of them, and all are of one
  unit, which the bank decides.
-/

namespace Fms

open CString

/-! ## Tables -/

/-- `fms_pcu_1` -/
def fmsPcu1 : List (ℕ × String) :=
  [(0x00, "pcu_none"), (0x09, "pcu_mmct"), (0x0D, "pcu_mifsst"), (0x0E, "pcu_mcust"),
    (0x13, "pcu_mdtt"), (0x15, "pcu_mdcrat"), (0x1E, "pcu_mvimlfim"), (0x25, "pcu_msct"),
    (0x29, "pcu_mvvmlfs"), (0x2B, "pcu_mpwhcd"), (0x2C, "pcu_mpwhcu"), (0x39, "pcu_mpwhcus"),
    (0x44, "pcu_mcvf"), (0x45, "pcu_mimn"), (0x46, "pcu_mvrdf"), (0x47, "pcu_memnpc"),
    (0x48, "pcu_msrrimf"), (0x49, "pcu_mswrvmf"), (0x4B, "pcu_mbvtd0"), (0x4C, "pcu_mbvtd1"),
    (0x4D, "pcu_mbvtd2"), (0x4E, "pcu_mbvtd3"), (0x4F, "pcu_msce"), (0x52, "pcu_mfcovf"),
    (0x53, "pcu_mfcocf"), (0x57, "pcu_msprf"), (0x58, "pcu_msirf"), (0x59, "pcu_msarf"),
    (0x60, "pcu_miprep"), (0x61, "pcu_mipreq"), (0x62, "pcu_miprsq"), (0x63, "pcu_miprsp"),
    (0x64, "pcu_mipsc"), (0x67, "pcu_mhirbat"), (0x68, "pcu_mirst"), (0x69, "pcu_mhfcd"),
    (0x6A, "pcu_mmpct"), (0x70, "pcu_mwtps"), (0x71, "pcu_mwtpcm"), (0x72, "pcu_mwtpsm"),
    (0x7C, "pcu_mbrcis"), (0x7D, "pcu_mmtota"), (0x81, "pcu_mrdtth")]

/-- `pcu_1` -/
def pcu1 : List (ℕ × String) :=
  [(0x00, "No Error"), (0x09, "MC_MESSAGE_CHANNEL_TIMEOUT"),
    (0x0D, "MC_IMC_FORCE_SR_S3_TIMEOUT"), (0x0E, "MC_CPD_UNCPD_SD_TIMEOUT"),
    (0x13, "MC_DMI_TRAINING_TIMEOUT"), (0x15, "MC_DMI_CPU_RESET_ACK_TIMEOUT"),
    (0x1E, "MC_VR_ICC_MAX_LT_FUSED_ICC_MAX"), (0x25, "MC_SVID_COMMAN_TIMEOUT"),
    (0x29, "MC_VR_VOUT_MAC_LT_FUSED_SVID"), (0x2B, "MC_PKGC_WATCHDOG_HANG_CBZ_DOWN"),
    (0x2C, "MC_PKGC_WATCHDOG_HANG_CBZ_UP"), (0x39, "MC_PKGC_WATCHDOG_HANG_C3_UP_SF"),
    (0x44, "MC_CRITICAL_VR_FAILED"), (0x45, "MC_ICC_MAX_NOTSUPPORTED"),
    (0x46, "MC_VID_RAMP_DOWN_FAILED"), (0x47, "MC_EXCL_MODE_NO_PMREQ_CMP"),
    (0x48, "MC_SVID_READ_REG_ICC_MAX_FAILED"), (0x49, "MC_SVID_WRITE_REG_VOUT_MAX_FAILED"),
    (0x4B, "MC_BOOT_VID_TIMEOUT_DRAM_0"), (0x4C, "MC_BOOT_VID_TIMEOUT_DRAM_1"),
    (0x4D, "MC_BOOT_VID_TIMEOUT_DRAM_2"), (0x4E, "MC_BOOT_VID_TIMEOUT_DRAM_3"),
    (0x4F, "MC_SVID_COMMAND_ERROR"), (0x52, "MC_FIVR_CATAS_OVERVOL_FAULT"),
    (0x53, "MC_FIVR_CATAS_OVERCUR_FAULT"), (0x57, "MC_SVID_PKGC_REQUEST_FAILED"),
    (0x58, "MC_SVID_IMON_REQUEST_FAILED"), (0x59, "MC_SVID_ALERT_REQUEST_FAILED"),
    (0x60, "MC_INVALID_PKGS_REQ_PCH"), (0x61, "MC_INVALID_PKGS_REQ_QPI"),
    (0x62, "MC_INVALID_PKGS_RSP_QPI"), (0x63, "MC_INVALID_PKGS_RSP_PCH"),
    (0x64, "MC_INVALID_PKG_STATE_CONFIG"), (0x67, "MC_HA_IMC_RW_BLOCK_ACK_TIMEOUT"),
    (0x68, "MC_IMC_RW_SMBUS_TIMEOUT"), (0x69, "MC_HA_FAILSTS_CHANGE_DETECTED"),
    (0x6A, "MC_MSGCH_PMREQ_CMP_TIMEOUT"), (0x70, "MC_WATCHDOG_TIMEOUT_PKGC_SLAVE"),
    (0x71, "MC_WATCHDOG_TIMEOUT_PKGC_MASTER"), (0x72, "MC_WATCHDOG_TIMEOUT_PKGS_MASTER"),
    (0x7C, "MC_BIOS_RST_CPL_INVALID_SEQ"), (0x7D, "MC_MORE_THAN_ONE_TXT_AGENT"),
    (0x81, "MC_RECOVERABLE_DIE_THERMAL_TOO_HOT")]

/-- `fms_qpi` -/
def fmsQpi : List (ℕ × String) :=
  [(0x02, "qpi_plddba"), (0x03, "qpi_pldlbr"), (0x10, "qpi_lldcefr"), (0x11, "qpi_relasoce"),
    (0x12, "qpi_uoup"), (0x13, "qpi_llce"), (0x15, "qpi_ruuv"), (0x20, "qpi_pldqir"),
    (0x21, "qpi_lfdsh"), (0x22, "qpi_pdir"), (0x23, "qpi_lfcf"), (0x30, "qpi_rdcea"),
    (0x31, "qpi_rdcew")]

/-- `qpi` -/
def qpiTable : List (ℕ × String) :=
  [(0x02, "Intel QPI physical layer detected drift buffer alarm"),
    (0x03, "Intel QPI physical layer detected latency buffer rollover"),
    (0x10, "Intel QPI link layer detected control error from R3QPI"),
    (0x11, "Rx entered LLR abort state on CRC error"), (0x12, "Unsupported or undefined packet"),
    (0x13, "Intel QPI link layer control error"), (0x15, "RBT used un-initialized value"),
    (0x20, "Intel QPI physical layer detected a QPI in-band reset but aborted initialization"),
    (0x21, "Link failover data self healing"),
    (0x22, "Phy detected in-band reset (no width change)"),
    (0x23, "Link failover clock failover"),
    (0x30, "Rx detected CRC error - successful LLR after Phy re-init"),
    (0x31, "Rx detected CRC error - successful LLR wihout Phy re-init")]

/-- `fms_pcu_mc4` -/
def fmsPcuMc4 : List Field := [field 24 fmsPcu1]

/-- `pcu_mc4` -/
def pcuMc4 : List Field := [field 24 pcu1]

/-- `fms_qpi_mc` -/
def fmsQpiMc : List Field := [field 16 fmsQpi]

/-- `qpi_mc` -/
def qpiMc : List Field := [field 16 qpiTable]

/-- `fms_memctrl_mc9` -/
def fmsMemctrlMc9 : List Field :=
  [sbitfield 16 "mc_d3addr_parity",
    sbitfield 17 "mc_uha_wd",
    sbitfield 18 "mc_uha_dbe",
    sbitfield 19 "mc_cps",
    sbitfield 20 "mc_ups",
    sbitfield 21 "mc_cspare",
    sbitfield 22 "mc_uspare",
    sbitfield 23 "mc_memrd",
    sbitfield 24 "mc_wdb_parity",
    sbitfield 25 "mc_d4caddr_parity"]

/-- `memctrl_mc9` -/
def memctrlMc9 : List Field :=
  [sbitfield 16 "DDR3 address parity error",
    sbitfield 17 "Uncorrected HA write data error",
    sbitfield 18 "Uncorrected HA data byte enable error",
    sbitfield 19 "Corrected patrol scrub error",
    sbitfield 20 "Uncorrected patrol scrub error",
    sbitfield 21 "Corrected spare error",
    sbitfield 22 "Uncorrected spare error",
    sbitfield 23 "Corrected memory read error",
    sbitfield 24 "iMC write data buffer parity error",
    sbitfield 25 "DDR4 command address parity error"]

/-! ## Decoding -/

/-- The text before a description of the power control unit. -/
def pcuBuf (status : BitVec 64) : CStr :=
  let code := extract status 0 15 &&& ~~~(1#64 <<< 12)
  let buf :=
    if code = 0x402 ∨ code = 0x403 then "Internal errors ".toList
    else if code = 0x406 then "Intel TXT errors ".toList
    else if code = 0x407 then "Other UBOX Internal errors ".toList
    else []
  if extract status 16 19 ≠ 0 then buf ++ "PCU internal error ".toList else buf

/-- `hsw_decode_model` -/
def hswDecodeModel (bank : ℕ) (status : BitVec 64) (st : McMsgs) : McMsgs :=
  if bank = 4 then
    let buf := pcuBuf status
    decodeBitfield status pcuMc4 buf [] false
      (decodeBitfield status fmsPcuMc4 buf "pcu".toList true st)
  else if bank = 5 ∨ bank = 20 ∨ bank = 21 then
    decodeBitfield status qpiMc [] [] false
      (decodeBitfield status fmsQpiMc [] "qpi".toList true st)
  else if 9 ≤ bank ∧ bank ≤ 16 then
    decodeBitfield status memctrlMc9 [] [] false
      (decodeBitfield status fmsMemctrlMc9 [] "mc".toList true st)
  else st

/-- A unit whose bank has tables. -/
inductive HswUnit where
  | pcu
  | qpi
  | mc
  deriving DecidableEq

/-- The `type` that the mnemonics of a unit begin with. -/
def HswUnit.type : HswUnit → CStr
  | .pcu => "pcu".toList
  | .qpi => "qpi".toList
  | .mc => "mc".toList

/-- The unit of a bank, if the status has anything to report there. -/
def hswUnit (bank : ℕ) (status : BitVec 64) : Option HswUnit :=
  if bank = 4 then some .pcu
  else if bank = 5 ∨ bank = 20 ∨ bank = 21 then
    if extract status 16 21 ≠ 0 then some .qpi else none
  else if 9 ≤ bank ∧ bank ≤ 16 then
    if extract status 16 25 ≠ 0 then some .mc else none
  else none

theorem pcu_shown (status : BitVec 64) : fmsPcuMc4.countP (Field.shown status) = 1 := by
  have hshown : (field 24 fmsPcu1).shown status = true :=
    (Field.shown_iff status (field_stringlen_pos _ _)).mpr (.inr (by decide))
  simp [fmsPcuMc4, hshown]

theorem qpi_shown (status : BitVec 64) :
    0 < fmsQpiMc.countP (Field.shown status) ↔ extract status 16 21 ≠ 0 := by
  have hfield : (field 16 fmsQpi).shown status = false ↔ extract status 16 21 = 0 := by
    rw [extract_eq_zero_iff status (by decide)]
    exact Field.shown_eq_false_iff status (field_stringlen_pos _ _) (by decide) (by decide)
  rw [Ne, ← hfield, List.countP_pos_iff]
  simp [fmsQpiMc]

theorem memctrl_shown (status : BitVec 64) :
    0 < fmsMemctrlMc9.countP (Field.shown status) ↔ extract status 16 25 ≠ 0 := by
  have hnone : (∀ f ∈ fmsMemctrlMc9, f.shown status = false) ↔ extract status 16 25 = 0 := by
    rw [extract_eq_zero_iff status (by decide)]
    simp only [fmsMemctrlMc9, List.forall_mem_cons, sbitfield_shown]
    constructor
    · rintro ⟨h0, h1, h2, h3, h4, h5, h6, h7, h8, h9, -⟩ i hi
      interval_cases i <;> assumption
    · intro h
      exact ⟨h 0 (by decide), h 1 (by decide), h 2 (by decide), h 3 (by decide), h 4 (by decide),
        h 5 (by decide), h 6 (by decide), h 7 (by decide), h 8 (by decide), h 9 (by decide),
        fun f hf => absurd hf List.not_mem_nil⟩
  rw [Ne, ← hnone, List.countP_pos_iff]
  push Not
  simp

/-! ## The messages of a bank -/

/-- The messages of kind `type` that two passes over the tables of a bank make. -/
structure BankMsgs (status : BitVec 64) (type : CStr) (st st' : McMsgs) (n : ℕ) : Prop
    extends MsgsAdded st st' n where
  msg : ∀ i, st.mmNum ≤ i → i < st'.mmNum → ∃ s, st'.mm i =
    { name := "cpu".toList, mnemonic := some (type ++ fmsMciStatusUc status), desc := some s }

/-- The tables of a bank are decoded twice. -/
theorem bankMsgs_twice (status : BitVec 64) {fields fields' : List Field} (buf type : CStr)
    {st : McMsgs} (hz : st.Zeroed) (hlen : ∀ f ∈ fields, 0 < f.stringlen)
    (hshape : fields.map Field.shape = fields'.map Field.shape)
    (hroom : st.mmNum + fields.length ≤ mceMsgMaxnum) :
    BankMsgs status type st (decodeBitfield status fields' buf [] false
      (decodeBitfield status fields buf type true st)) (fields.countP (Field.shown status)) := by
  have hlength : fields'.length = fields.length := by
    have h := congrArg List.length hshape
    rw [List.length_map, List.length_map] at h
    exact h.symm
  obtain ⟨hadded, hmsg⟩ := decodeBitfield_twice buf type hz rfl
    (countP_shown_congr status hshape hlen).symm hroom (hlength ▸ hroom)
  exact ⟨hadded, hmsg⟩

theorem pcu_shape : fmsPcuMc4.map Field.shape = pcuMc4.map Field.shape := by
  rw [fmsPcuMc4, pcuMc4, List.map_singleton, List.map_singleton]
  decide +kernel

theorem qpi_shape : fmsQpiMc.map Field.shape = qpiMc.map Field.shape := by
  rw [fmsQpiMc, qpiMc, List.map_singleton, List.map_singleton]
  decide +kernel

theorem memctrl_shape : fmsMemctrlMc9.map Field.shape = memctrlMc9.map Field.shape := rfl

theorem BankMsgs.ite {status : BitVec 64} {unit : HswUnit} {st st' : McMsgs} {n : ℕ} {cond : Prop}
    [Decidable cond] (h : BankMsgs status unit.type st st' n) (hcond : 0 < n ↔ cond) :
    (0 < n ↔ (if cond then some unit else none).isSome) ∧
      ∀ u ∈ if cond then some unit else none, BankMsgs status u.type st st' n := by
  split_ifs with hc
  · exact ⟨iff_of_true (hcond.mpr hc) rfl, fun u hu => Option.some.inj hu ▸ h⟩
  · exact ⟨iff_of_false (mt hcond.mp hc) Bool.false_ne_true, fun u hu => absurd hu (by simp)⟩

/-- **The bank messages are complete**, of one unit, and at most ten. -/
theorem hswDecodeModel_added (bank : ℕ) (status : BitVec 64) {st : McMsgs} (hz : st.Zeroed)
    (hroom : st.mmNum + 10 ≤ mceMsgMaxnum) :
    ∃ n ≤ 10, MsgsAdded st (hswDecodeModel bank status st) n ∧
      (0 < n ↔ (hswUnit bank status).isSome) ∧
      ∀ u ∈ hswUnit bank status, BankMsgs status u.type st (hswDecodeModel bank status st) n := by
  have hone : st.mmNum + 1 ≤ mceMsgMaxnum := (Nat.add_le_add_left (by decide) _).trans hroom
  unfold hswDecodeModel hswUnit
  by_cases hpcu : bank = 4
  · rw [if_pos hpcu, if_pos hpcu]
    have hlen : ∀ f ∈ fmsPcuMc4, 0 < f.stringlen :=
      List.forall_mem_singleton.mpr (field_stringlen_pos _ _)
    have h := bankMsgs_twice status (pcuBuf status) HswUnit.pcu.type hz hlen pcu_shape hone
    rw [pcu_shown] at h
    exact ⟨1, by decide, h.toMsgsAdded, by simp, fun u hu => Option.some.inj hu ▸ h⟩
  rw [if_neg hpcu, if_neg hpcu]
  by_cases hqpi : bank = 5 ∨ bank = 20 ∨ bank = 21
  · rw [if_pos hqpi, if_pos hqpi]
    have hlen : ∀ f ∈ fmsQpiMc, 0 < f.stringlen :=
      List.forall_mem_singleton.mpr (field_stringlen_pos _ _)
    have h := bankMsgs_twice status [] HswUnit.qpi.type hz hlen qpi_shape hone
    have hle : fmsQpiMc.countP (Field.shown status) ≤ 1 := List.countP_le_length
    exact ⟨_, hle.trans (by decide), h.toMsgsAdded, h.ite (qpi_shown status)⟩
  rw [if_neg hqpi, if_neg hqpi]
  by_cases hmc : 9 ≤ bank ∧ bank ≤ 16
  · rw [if_pos hmc, if_pos hmc]
    have hlen : ∀ f ∈ fmsMemctrlMc9, 0 < f.stringlen := List.forall_mem_iff_getElem.mpr (by decide)
    have h := bankMsgs_twice status [] HswUnit.mc.type hz hlen memctrl_shape hroom
    exact ⟨_, List.countP_le_length, h.toMsgsAdded, h.ite (memctrl_shown status)⟩
  · rw [if_neg hmc, if_neg hmc]
    exact ⟨0, Nat.zero_le _, ⟨rfl, fun i _ => rfl, hz⟩, by simp, fun u hu => absurd hu (by simp)⟩

end Fms
