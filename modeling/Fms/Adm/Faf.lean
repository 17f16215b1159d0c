import Fms.Case
import Fms.Lib.Paging

/-!
# The lists the administrator reads

The messages of include/fmd_fmadm.h, and the two answers of evt_modules/evtsrc/adm/evtsrc.adm.c that
are lists: `fmdGetCaselist` for a window of the events, after `fmdResvCaselist` has counted them,
and `fmdGetModlist`. `none` is undefined behaviour: a counter or a buffer overflows.

* `Fmd.events`: the events of a case list, in the order in which both loops go through them;
* **`fmdGetCaselist_page`**: the answer to a request for a page is the header and the sections of
  the events of that page.
-/

namespace Fms

open CString Paging

/-- `FAF_NUM` -/
def fafNum : ℕ := 20

/-- The integers below it, from `-intBound` on, are the values of an `int`. -/
def intBound : ℤ := 2 ^ 31

/-! ## Messages -/

/-- `faf_hdr_t` -/
structure FafHdr where
  fafhCmd : CStr
  fafhHdrsize : ℕ
  fafhSecnum : ℕ
  fafhMsgsz : ℕ
  deriving DecidableEq, Repr

/-- `faf_case_t`: the fields that are written. The codes `FAF_CASE_*` are those of `cs_flag`. -/
structure FafCase where
  fafcFault : CStr := []
  fafcState : CsFlag := .create
  fafcCount : BitVec 32 := 0
  fafcCreate : BitVec 64 := 0
  fafcFire : BitVec 64 := 0
  deriving DecidableEq, Repr

/-- `faf_module_t` -/
structure FafModule where
  modVers : ℤ
  modInterval : ℤ
  modName : CStr
  deriving DecidableEq, Repr

/-- A message on the queue: a text, or a header with its sections. -/
inductive Message where
  | text (s : CStr)
  | caseList (hdr : FafHdr) (sections : List FafCase)
  | modList (hdr : FafHdr) (sections : List FafModule)
  deriving DecidableEq, Repr

/-- The message read as a C string: a header starts with its command. -/
def Message.cstr : Message → CStr
  | .text s => s
  | .caseList hdr _ => hdr.fafhCmd
  | .modList hdr _ => hdr.fafhCmd

/-- The length given to `mq_send`. -/
def Message.size : Message → ℕ
  | .text s => s.length
  | .caseList hdr _ => hdr.fafhMsgsz
  | .modList hdr _ => hdr.fafhMsgsz

/-- `fafh_secnum` of the message read as a header. The buffer is zero behind a short text; what a
longer one has there is no section number. -/
def Message.secnum : Message → Option ℕ
  | .text s => if s.length ≤ 36 then some 0 else none
  | .caseList hdr _ => some hdr.fafhSecnum
  | .modList hdr _ => some hdr.fafhSecnum

/-- The header of a list with sections of `size` bytes; `acl_secs` is a `uint8_t`. -/
def fafHdr (cmd : CStr) (size secs : ℕ) : FafHdr where
  fafhCmd := cmd
  fafhHdrsize := 48
  fafhSecnum := secs % 2 ^ 8
  fafhMsgsz := secs * size + 48

/-! ## The daemon -/

/-- `fmd_module_t`, as far as the administrator sees it. -/
structure FmdModule where
  modName : CStr
  modVers : ℤ := 0
  modInterval : ℤ := 0
  deriving DecidableEq, Repr

/-- The lists of `fmd_t` that the administrator reads. -/
structure Fmd where
  listCase : List FmdCase := []
  listRepaired : List FmdEvent := []
  fmdModule : List FmdModule := []
  deriving DecidableEq, Repr

/-- `fmd_resv_caselist`: the number of events in the window. -/
def fmdResvCaselist (fmd : Fmd) (num index : ℤ) : Option ℕ :=
  let count := windowStep intBound num fafNum fun (n : ℕ) (_ : FmdEvent) => some (n + 1)
  let st :=
    if index = 1 then
      fmd.listCase.foldlM (fun st cp => cp.csEvent.foldlM count st) (0, 0)
    else
      fmd.listRepaired.foldlM count (0, 0)
  st.map Prod.snd

/-- The text of `fafc_fault`. -/
def faultText (ep : FmdEvent) : CStr :=
  if (strstr "disk".toList ep.evClass).isSome then ep.devName ++ ':' :: ep.evClass
  else ep.devName ++ fmtInt ep.devId ++ ':' :: ep.evClass

/-- The section of an event whose case has the flag `state`; `fafc_fault` has 128 characters. -/
def fafCase (state : CsFlag) (ep : FmdEvent) : Option FafCase :=
  (store 128 (faultText ep)).map fun fault =>
    { fafcFault := fault
      fafcState := state
      fafcCount := BitVec.ofInt 32 ep.evCount
      fafcCreate := BitVec.ofInt 64 ep.evCreate
      fafcFire := BitVec.ofInt 64 ep.evLastOccur }

/-- `fmd_get_caselist`; `fafc_state` is not written for an entry of the repaired list. -/
def fmdGetCaselist (fmd : Fmd) (num index : ℤ) : Option Message :=
  (fmdResvCaselist fmd num index).bind fun caseNum =>
    let aclBuf : List FafCase := List.replicate caseNum {}
    let put := fun state => windowStep intBound num fafNum (putStep (fafCase state))
    let st :=
      if index = 1 then
        fmd.listCase.foldlM (fun st cp => cp.csEvent.foldlM (put cp.csFlag) st) (0, (aclBuf, 0))
      else
        fmd.listRepaired.foldlM (put .create) (0, (aclBuf, 0))
    st.map fun st => .caseList (fafHdr "GET CASELIST".toList 176 caseNum) st.2.1

/-- `fmd_get_modlist`; `fmd_resv_modlist` counts the same list. -/
def fmdGetModlist (fmd : Fmd) : Message :=
  .modList (fafHdr "GET MODLIST".toList 136 fmd.fmdModule.length)
    (fmd.fmdModule.map fun mp => ⟨mp.modVers, mp.modInterval, mp.modName.take 127⟩)

/-! ## What a page contains -/

/-- The events of a case list, each with the flag of its case. -/
def Fmd.events (fmd : Fmd) (index : ℤ) : List (CsFlag × FmdEvent) :=
  if index = 1 then fmd.listCase.flatMap fun cp => cp.csEvent.map fun ep => (cp.csFlag, ep)
  else fmd.listRepaired.map fun ep => (.create, ep)

/-- A loop over the cases and their events, or over the repaired list, is a loop over the events. -/
theorem foldlM_events {σ : Type} (fmd : Fmd) (index : ℤ) (f : CsFlag → σ → FmdEvent → Option σ)
    (s : σ) :
    (if index = 1 then fmd.listCase.foldlM (fun s cp => cp.csEvent.foldlM (f cp.csFlag) s) s
      else fmd.listRepaired.foldlM (f .create) s) =
      (fmd.events index).foldlM (fun s p => f p.1 s p.2) s := by
  unfold Fmd.events
  split_ifs
  · rw [foldlM_flatMap]
    simp only [List.foldlM_map]
  · rw [List.foldlM_map]

/-- The counters of both loops stay in range: there are not too many events, and the end of the
window is an `int` if it is computed. -/
def CountersFit (n : ℕ) (num : ℤ) : Prop :=
  (n : ℤ) < intBound ∧ (num < n → num + fafNum < intBound)

instance (n : ℕ) (num : ℤ) : Decidable (CountersFit n num) :=
  inferInstanceAs (Decidable (_ ∧ _))

theorem foldlM_counters {β : Type} {α : Type} (l : List α) (num : ℤ) (f : β → α → Option β) (b : β) :
    l.foldlM (windowStep intBound num fafNum f) (0, b) =
      if CountersFit l.length num then
        ((window num (num + fafNum) 0 l).foldlM f b).map fun b' => ((l.length : ℤ), b')
      else none := by
  rw [foldlM_windowStep l (by decide)]
  simp only [zero_add]
  refine if_congr ?_ rfl rfl
  refine and_congr_right fun _ => ⟨fun h hlt => ?_, fun h _ => h⟩
  rcases eq_or_ne l [] with rfl | hne
  · -- a window that starts before an empty list
    rw [List.length_nil] at hlt
    unfold intBound fafNum
    omega
  · exact h hne hlt

theorem foldlM_page {β : Type} {α : Type} (l : List α) (i : ℕ) (f : β → α → Option β) (b : β) :
    l.foldlM (windowStep intBound ((fafNum * i : ℕ) : ℤ) fafNum f) (0, b) =
      if CountersFit l.length (fafNum * i : ℕ) then
        ((page fafNum i l).foldlM f b).map fun b' => ((l.length : ℤ), b')
      else none := by
  rw [foldlM_counters, window_eq_page]

theorem fmdResvCaselist_page (fmd : Fmd) (i : ℕ) (index : ℤ) :
    fmdResvCaselist fmd (fafNum * i : ℕ) index =
      if CountersFit (fmd.events index).length (fafNum * i : ℕ) then
        some (page fafNum i (fmd.events index)).length
      else none := by
  have h := foldlM_events fmd index
    (fun _ => windowStep intBound ((fafNum * i : ℕ) : ℤ) fafNum fun (n : ℕ) _ => some (n + 1)) (0, 0)
  have hp := foldlM_page (fmd.events index) i (fun (n : ℕ) (_ : CsFlag × FmdEvent) => some (n + 1)) 0
  rw [foldlM_count, Nat.zero_add] at hp
  unfold fmdResvCaselist
  simp only [h]
  refine (congrArg (Option.map Prod.snd) hp).trans ?_
  split_ifs <;> rfl

/-- **The answer to a request for a page.** -/
theorem fmdGetCaselist_page (fmd : Fmd) (i : ℕ) (index : ℤ) :
    fmdGetCaselist fmd (fafNum * i : ℕ) index =
      if CountersFit (fmd.events index).length (fafNum * i : ℕ) then
        ((page fafNum i (fmd.events index)).mapM fun p => fafCase p.1 p.2).map fun cs =>
          .caseList (fafHdr "GET CASELIST".toList 176 cs.length) cs
      else none := by
  set l := fmd.events index with hl
  unfold fmdGetCaselist
  rw [fmdResvCaselist_page, ← hl]
  by_cases hfit : CountersFit l.length (fafNum * i : ℕ)
  · have h := foldlM_events fmd index
      (fun state => windowStep intBound ((fafNum * i : ℕ) : ℤ) fafNum (putStep (fafCase state)))
      (0, (List.replicate (page fafNum i l).length {}, 0))
    have hp := foldlM_page l i (putStep fun p : CsFlag × FmdEvent => fafCase p.1 p.2)
      (List.replicate (page fafNum i l).length {}, 0)
    have hput := foldlM_putStep (fun p : CsFlag × FmdEvent => fafCase p.1 p.2) {} (page fafNum i l) []
    rw [List.nil_append, List.length_nil] at hput
    rw [if_pos hfit, hput] at hp
    rw [if_pos hfit, if_pos hfit, Option.bind_some]
    simp only [h]
    refine (congrArg (Option.map _) hp).trans ?_
    cases hm : (page fafNum i l).mapM fun p => fafCase p.1 p.2 with
    | none => rfl
    | some cs =>
      rw [← length_of_mapM hm]
      rfl
  · rw [if_neg hfit, if_neg hfit, Option.bind_none]

end Fms
