import Fms.Adm.Client

/-!
# Reading the case list page by page

`fmd_adm_case_iter` of lib/libadm/fmd_adm.c against an unchanging daemon: it asks for pages of
`fafNum` events until a page is not full, and takes an empty page for an error.

* `fmdAdmGetList_page`: the reply to the request for a page, through the text of the command, the
  dispatch and the two loops of the daemon;
* `caseIter_page`: one round of the client;
* `caseIter_lossless`, `caseIter_returned`: what the rounds from a page on do, by induction on the
  pages left and on the rounds;
* **`caselistLossless_iff`**: the list is read without loss exactly when its last page is neither
  empty nor full, the counters do not overflow and the texts fit.
-/

namespace Fms

open CString Paging

/-! ## The loop -/

/-- How a call ends: with a value, in undefined behaviour, or not within the given rounds. -/
inductive Outcome (ρ : Type) where
  | returned (r : ρ)
  | undefined
  | running
  deriving DecidableEq, Repr

/-- `fmd_adm_get_list` when it gets its reply. -/
def fmdAdmGetList (env : AdmEnv) (fmd : Fmd) (cmd : CStr) : Option Message :=
  (admProbe env fmd (.text cmd)).map Prod.fst

/-- The loop of `fmd_adm_case_iter`: the value it returns, and `cs_list` afterwards. -/
def caseIterLoop (env : AdmEnv) (fmd : Fmd) (type : ℤ) :
    ℕ → ℤ → ℤ → List FmdAdmCaseinfo → Outcome (ℤ × List FmdAdmCaseinfo)
  | rounds, num, index, csList =>
    if (0 < num ∧ index = 0) ∨ num = fafNum then
      match rounds with
      | 0 => .running
      | rounds + 1 =>
        let cmd := (Request.getCaselist (fafNum * index) type).encode
        match (cmd.bind (fmdAdmGetList env fmd)).bind (fmdAdmGetCaseinfo csList) with
        | none => .undefined
        | some (num, csList) =>
          if num < 0 then .returned (-1, csList)
          else caseIterLoop env fmd type rounds num (index + 1) csList
    else .returned (0, csList)

/-- `fmd_adm_case_iter`, on the empty `cs_list` that `fmd_adm_open` makes. -/
def fmdAdmCaseIter (env : AdmEnv) (fmd : Fmd) (type : ℤ) (rounds : ℕ) :
    Outcome (ℤ × List FmdAdmCaseinfo) :=
  caseIterLoop env fmd type rounds 20 0 []

/-! ## A page -/

/-- The section of an event, for a text that fits. -/
def sectionOf (p : CsFlag × FmdEvent) : FafCase where
  fafcFault := faultText p.2
  fafcState := p.1
  fafcCount := BitVec.ofInt 32 p.2.evCount
  fafcCreate := BitVec.ofInt 64 p.2.evCreate
  fafcFire := BitVec.ofInt 64 p.2.evLastOccur

/-- The caseinfo that an event should have in `cs_list`. -/
def caseinfoOf (p : CsFlag × FmdEvent) : FmdAdmCaseinfo := ⟨faultText p.2, sectionOf p⟩

/-- The text of an event fits `fafc_fault`. -/
def TextFits (p : CsFlag × FmdEvent) : Prop := (faultText p.2).length < 128

instance (p : CsFlag × FmdEvent) : Decidable (TextFits p) :=
  inferInstanceAs (Decidable (_ < _))

theorem fafCase_fits {p : CsFlag × FmdEvent} (h : TextFits p) :
    fafCase p.1 p.2 = some (sectionOf p) := by
  rw [fafCase, store_fits h]
  rfl

theorem fafCase_overflow {p : CsFlag × FmdEvent} (h : ¬ TextFits p) : fafCase p.1 p.2 = none := by
  rw [fafCase, store_overflow h]
  rfl

/-- The two types of list that the tools ask for. -/
def CaseType (type : ℤ) : Prop := type = 1 ∨ type = 2

theorem CaseType.int {type : ℤ} (h : CaseType type) : -intBound ≤ type ∧ type < intBound := by
  rcases h with rfl | rfl <;> decide

theorem CaseType.length_fmtInt {type : ℤ} (h : CaseType type) : (fmtInt type).length = 1 := by
  rcases h with rfl | rfl <;> rfl

theorem encode_page {type : ℤ} (ht : CaseType type) {i : ℕ} (hi : fafNum * i < 2 ^ 31) :
    (Request.getCaselist (fafNum * i) type).encode =
      some ("GET CASELIST:".toList ++ fmtInt ((fafNum * i : ℕ) : ℤ) ++ ':' :: fmtInt type) := by
  have hlen := length_fmtInt_natCast (k := 10) (by omega) (hi.trans (by decide))
  have htext : "GET CASELIST:".toList.length = 13 := rfl
  rw [Request.encode, ← Nat.cast_mul]
  refine store_eq_some.mpr ⟨?_, rfl⟩
  rw [List.length_append, List.length_append, List.length_cons, ht.length_fmtInt]
  omega

/-- **The reply to the request for a page.** -/
theorem fmdAdmGetList_page (env : AdmEnv) (fmd : Fmd) {type : ℤ} (ht : CaseType type) {i : ℕ}
    (hi : fafNum * i < 2 ^ 31) :
    (Request.getCaselist (fafNum * i) type).encode.bind (fmdAdmGetList env fmd) =
      fmdGetCaselist fmd (fafNum * i : ℕ) type := by
  have hint : -intBound ≤ ((fafNum * i : ℕ) : ℤ) ∧ ((fafNum * i : ℕ) : ℤ) < intBound := by
    unfold intBound
    omega
  rw [encode_page ht hi, Option.bind_some, fmdAdmGetList, admProbe, Message.cstr,
    dispatch_getCaselist hint ht.int, Option.bind_some, admExecute, Option.map_map]
  exact Option.map_id'

theorem fmdAdmGetCaseinfo_page (csList : List FmdAdmCaseinfo) {l : List (CsFlag × FmdEvent)}
    (hl : l.length ≤ fafNum) :
    fmdAdmGetCaseinfo csList
        (.caseList (fafHdr "GET CASELIST".toList 176 (l.map sectionOf).length) (l.map sectionOf)) =
      some (if l = [] then -1 else (l.length : ℤ), (l.map caseinfoOf).reverse ++ csList) := by
  cases l with
  | nil => rfl
  | cons p l =>
    have hmod : ((p :: l).map sectionOf).length % 2 ^ 8 = l.length + 1 := by
      rw [List.length_map, Nat.mod_eq_of_lt (hl.trans_lt (by decide)), List.length_cons]
    have htake : ((p :: l).map sectionOf).take (l.length + 1) = (p :: l).map sectionOf :=
      List.take_of_length_le (by simp)
    have hle : l.length + 1 ≤ ((p :: l).map sectionOf).length := by simp
    unfold fmdAdmGetCaseinfo
    simp only [Message.secnum, fafHdr, hmod, if_pos hle, htake, List.foldl_flip_cons_eq_append,
      List.map_map, if_neg (List.cons_ne_nil p l)]
    rfl

theorem countersFit_iff (n i : ℕ) :
    CountersFit n (fafNum * i : ℕ) ↔ n < 2 ^ 31 ∧ (fafNum * i < n → fafNum * (i + 1) < 2 ^ 31) := by
  unfold CountersFit intBound fafNum
  rw [Nat.cast_lt]
  exact and_congr (by omega) (imp_congr_right fun _ => by omega)

/-- **One round of the client.** -/
theorem caseIter_page (env : AdmEnv) (fmd : Fmd) {type : ℤ} (ht : CaseType type) {i : ℕ}
    (hi : fafNum * i < 2 ^ 31) (rounds : ℕ) (csList : List FmdAdmCaseinfo) :
    caseIterLoop env fmd type (rounds + 1) 20 i csList =
      if CountersFit (fmd.events type).length (fafNum * i : ℕ) ∧
          ∀ p ∈ page fafNum i (fmd.events type), TextFits p then
        if page fafNum i (fmd.events type) = [] then .returned (-1, csList)
        else
          caseIterLoop env fmd type rounds (page fafNum i (fmd.events type)).length (i + 1 : ℕ)
            (((page fafNum i (fmd.events type)).map caseinfoOf).reverse ++ csList)
      else .undefined := by
  set l := page fafNum i (fmd.events type) with hl
  have hlen : l.length ≤ fafNum := by
    rw [hl, length_page]
    exact min_le_left _ _
  rw [caseIterLoop, if_pos (.inr rfl)]
  simp only
  rw [fmdAdmGetList_page env fmd ht hi, fmdGetCaselist_page, ← hl]
  by_cases hfit : CountersFit (fmd.events type).length (fafNum * i : ℕ)
  · rw [if_pos hfit]
    by_cases htext : ∀ p ∈ l, TextFits p
    · rw [mapM_of_forall fun p hp => fafCase_fits (htext p hp), if_pos ⟨hfit, htext⟩,
        Option.map_some, Option.bind_some, fmdAdmGetCaseinfo_page csList hlen]
      by_cases hnil : l = []
      · rw [if_pos hnil, if_pos hnil, hnil]
        rfl
      · simp only [if_neg hnil, if_neg (show ¬ (l.length : ℤ) < 0 by omega), Nat.cast_succ]
    · rw [if_neg fun h => htext h.2]
      push Not at htext
      obtain ⟨p, hp, hover⟩ := htext
      rw [mapM_of_exists ⟨p, hp, fafCase_overflow hover⟩]
      rfl
  · rw [if_neg hfit, if_neg fun h => hfit h.1]
    rfl

/-! ## All pages -/

theorem caseIterLoop_last (env : AdmEnv) (fmd : Fmd) (type : ℤ) (rounds : ℕ) {num : ℤ} (i : ℕ)
    (csList : List FmdAdmCaseinfo) (hnum : num ≠ fafNum) :
    caseIterLoop env fmd type rounds num (i + 1 : ℕ) csList = .returned (0, csList) := by
  unfold caseIterLoop
  rw [if_neg]
  rintro (⟨-, h⟩ | h)
  · omega
  · exact hnum h

/-- The list can be read without loss. -/
structure Readable (l : List (CsFlag × FmdEvent)) : Prop where
  partial_page : l.length % fafNum ≠ 0
  counters : l.length < 2 ^ 31 - 8
  texts : ∀ p ∈ l, TextFits p

theorem Readable.countersFit {l : List (CsFlag × FmdEvent)} (h : Readable l) (i : ℕ) :
    CountersFit l.length (fafNum * i : ℕ) := by
  have hc := h.counters
  rw [countersFit_iff]
  unfold fafNum
  omega

/-- `cs_list` after the pages before the `i`-th. -/
def readBefore (l : List (CsFlag × FmdEvent)) (i : ℕ) : List FmdAdmCaseinfo :=
  ((l.take (fafNum * i)).map caseinfoOf).reverse

theorem readBefore_succ (l : List (CsFlag × FmdEvent)) (i : ℕ) :
    ((page fafNum i l).map caseinfoOf).reverse ++ readBefore l i = readBefore l (i + 1) := by
  rw [readBefore, readBefore, ← List.reverse_append, ← List.map_append, take_append_page]

theorem caseIter_readable (env : AdmEnv) (fmd : Fmd) {type : ℤ} (ht : CaseType type)
    (h : Readable (fmd.events type)) {i : ℕ} (hi : i ≤ (fmd.events type).length / fafNum)
    (rounds : ℕ) :
    caseIterLoop env fmd type (rounds + 1) 20 i (readBefore (fmd.events type) i) =
      caseIterLoop env fmd type rounds (page fafNum i (fmd.events type)).length (i + 1 : ℕ)
        (readBefore (fmd.events type) (i + 1)) := by
  have hc := h.counters
  have hi' : fafNum * i ≤ (fmd.events type).length :=
    (Nat.mul_le_mul_left fafNum hi).trans (Nat.mul_div_le _ _)
  have hne : page fafNum i (fmd.events type) ≠ [] := by
    intro hnil
    have hlen := length_page fafNum i (fmd.events type)
    have hp := h.partial_page
    rw [hnil, List.length_nil] at hlen
    unfold fafNum at hlen hp hi'
    omega
  rw [caseIter_page env fmd ht (by omega) rounds, if_neg hne, readBefore_succ,
    if_pos ⟨h.countersFit i, fun p hm => h.texts p (mem_of_mem_page hm)⟩]

theorem caseIter_lossless (env : AdmEnv) (fmd : Fmd) {type : ℤ} (ht : CaseType type)
    (h : Readable (fmd.events type)) (k : ℕ) {i rounds : ℕ}
    (hk : (fmd.events type).length / fafNum = i + k) (hr : k < rounds) :
    caseIterLoop env fmd type rounds 20 i (readBefore (fmd.events type) i) =
      .returned (0, ((fmd.events type).map caseinfoOf).reverse) := by
  have hp := h.partial_page
  induction k generalizing i rounds with
  | zero =>
    obtain ⟨rounds, rfl⟩ : ∃ r, rounds = r + 1 := ⟨rounds - 1, by omega⟩
    have hlen := length_page fafNum i (fmd.events type)
    rw [caseIter_readable env fmd ht h (by omega), caseIterLoop_last, readBefore,
      List.take_of_length_le]
    · unfold fafNum at hk ⊢
      omega
    · unfold fafNum at hk hlen hp ⊢
      omega
  | succ k ih =>
    obtain ⟨rounds, rfl⟩ : ∃ r, rounds = r + 1 := ⟨rounds - 1, by omega⟩
    have hfull : (page fafNum i (fmd.events type)).length = 20 := by
      rw [length_page]
      unfold fafNum at hk ⊢
      omega
    rw [caseIter_readable env fmd ht h (by omega), hfull]
    exact ih (by omega) (by omega)

/-- A call that returns 0 has read its last page: from the `i`-th page on, by induction on the
rounds. -/
theorem caseIter_returned (env : AdmEnv) (fmd : Fmd) {type : ℤ} (ht : CaseType type) (rounds : ℕ)
    {i : ℕ} (hi : fafNum * i < 2 ^ 31) {csList csList' : List FmdAdmCaseinfo}
    (h : caseIterLoop env fmd type rounds 20 i csList = .returned (0, csList')) :
    (fmd.events type).length % fafNum ≠ 0 ∧ (fmd.events type).length < 2 ^ 31 - 8 ∧
      ∀ p ∈ (fmd.events type).drop (fafNum * i), TextFits p := by
  induction rounds generalizing i csList with
  | zero =>
    rw [caseIterLoop, if_pos (.inr rfl)] at h
    cases h
  | succ rounds ih =>
    have hlen := length_page fafNum i (fmd.events type)
    have hsplit : (fmd.events type).drop (fafNum * i) =
        page fafNum i (fmd.events type) ++ (fmd.events type).drop (fafNum * (i + 1)) := by
      rw [page, Nat.mul_succ, ← List.drop_drop, List.take_append_drop]
    rw [caseIter_page env fmd ht hi rounds] at h
    split_ifs at h with hfit hnil
    · cases h
    · obtain ⟨hcount, htext⟩ := hfit
      have hpos : 0 < (page fafNum i (fmd.events type)).length :=
        List.length_pos_iff.mpr hnil
      rw [countersFit_iff] at hcount
      by_cases hfull : (page fafNum i (fmd.events type)).length = fafNum
      · rw [hfull] at h
        obtain ⟨h1, h2, h3⟩ := ih (hcount.2 (by omega)) h
        refine ⟨h1, h2, fun p hm => ?_⟩
        rw [hsplit] at hm
        exact (List.mem_append.mp hm).elim (htext p) (h3 p)
      · refine ⟨?_, ?_, fun p hm => ?_⟩
        · unfold fafNum at *
          omega
        · unfold fafNum at *
          omega
        · rw [hsplit, List.drop_of_length_le, List.append_nil] at hm
          · exact htext p hm
          · unfold fafNum at *
            omega

/-- Paging is lossless: the call returns 0, however many rounds it is given from some number on, and
`cs_list` has one caseinfo for each event. -/
def CaselistLossless (env : AdmEnv) (fmd : Fmd) (type : ℤ) : Prop :=
  ∃ csList, csList.Perm ((fmd.events type).map caseinfoOf) ∧
    ∃ enough, ∀ rounds ≥ enough, fmdAdmCaseIter env fmd type rounds = .returned (0, csList)

theorem CaselistLossless.readable {env : AdmEnv} {fmd : Fmd} {type : ℤ} (ht : CaseType type)
    (h : CaselistLossless env fmd type) : Readable (fmd.events type) := by
  obtain ⟨csList, -, enough, h⟩ := h
  have hret := caseIter_returned env fmd ht enough (i := 0) (by decide) (h enough le_rfl)
  exact ⟨hret.1, hret.2.1, hret.2.2⟩

theorem Readable.lossless {fmd : Fmd} {type : ℤ} (h : Readable (fmd.events type))
    (ht : CaseType type) (env : AdmEnv) : CaselistLossless env fmd type := by
  refine ⟨_, List.reverse_perm _, (fmd.events type).length / fafNum + 1, ?_⟩
  intro rounds hr
  exact caseIter_lossless env fmd ht h _ (i := 0) (Nat.zero_add _).symm (by omega)

/-- **The case list is read without loss exactly when its last page is neither empty nor full, the
counters do not overflow and the texts fit.** -/
theorem caselistLossless_iff (env : AdmEnv) (fmd : Fmd) (type : ℤ) (ht : type = 1 ∨ type = 2) :
    CaselistLossless env fmd type ↔ Readable (fmd.events type) :=
  ⟨fun h => h.readable ht, fun h => h.lossless ht env⟩

/-- The repair of a disk, as the repaired list has it. -/
def diskRepair : FmdEvent where
  addr := 5
  devName := "/dev/sdb".toList
  devId := 0
  evtId := 2
  evClass := "list.disk.unhealthy".toList
  agentResult := .repairedSuccess

/-- Repairs of a disk with different numbers. -/
def diskRepairs (n : ℕ) : List FmdEvent := (List.range n).map fun i => { diskRepair with evtId := i }

/-- Two full pages and a third one. -/
theorem caselistLossless_iff_threePages :
    CaselistLossless .inert { listRepaired := diskRepairs 43 } 2 :=
  (caselistLossless_iff .inert _ 2 (.inr rfl)).mpr ⟨by decide, by decide, by decide +kernel⟩

/-- Without any event the call returns -1; 20 repairs are not read without loss either. -/
theorem caselistLossless_fails :
    fmdAdmCaseIter .inert {} 1 1 = .returned (-1, []) ∧ ¬ CaselistLossless .inert {} 1 ∧
      ¬ CaselistLossless .inert { listRepaired := diskRepairs 20 } 2 := by
  refine ⟨by decide, ?_, ?_⟩
  · intro h
    exact (h.readable (.inl rfl)).partial_page rfl
  · intro h
    exact (h.readable (.inr rfl)).partial_page rfl

end Fms
