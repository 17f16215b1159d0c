import Fms.Adm.Faf
import Fms.Agent
import Fms.Lib.Run

/-!
# The two passes over the repaired list

For a request of type 2 `fmd_resv_caselist` counts the entries of the window and `fmd_get_caselist`
goes through the list again to write them, each under the lock of the list, which is free in between.
The agents put their results whenever the lock is free.

* `fillCaselist`: the second pass, and `fmdGetCaselist_repaired`: both passes without interruption;
* `fill_inside_iff`: the second pass stays in the buffer exactly if it writes no more sections than
  were counted;
* **`fillRight_iff`**: it writes what was counted exactly in the runs in which no entry was appended
  inside the window between the two passes.
-/

namespace Fms

open CString Paging Run

/-! ## The passes -/

/-- The second pass of `fmd_get_caselist` over the repaired list, on a buffer of `caseNum` sections:
the sections, and how many were written. -/
def fillCaselist (listRepaired : List FmdEvent) (num : ℤ) (caseNum : ℕ) :
    Option (List FafCase × ℕ) :=
  (listRepaired.foldlM (windowStep intBound num fafNum (putStep (fafCase .create)))
    (0, (List.replicate caseNum {}, 0))).map Prod.snd

theorem fmdGetCaselist_repaired (fmd : Fmd) (num : ℤ) : fmdGetCaselist fmd num 2 =
    (fmdResvCaselist fmd num 2).bind fun caseNum =>
      (fillCaselist fmd.listRepaired num caseNum).map fun st =>
        .caseList (fafHdr "GET CASELIST".toList 176 caseNum) st.1 := by
  simp only [fmdGetCaselist, fillCaselist, Option.map_map]
  rfl

/-- How many sections the second pass writes, whatever the size of the buffer. -/
def sectionsWritten (listRepaired : List FmdEvent) (num : ℤ) : Option ℕ :=
  (listRepaired.foldlM (windowStep intBound num fafNum fun (cnt : ℕ) (_ : FmdEvent) => some (cnt + 1))
    (0, 0)).map Prod.snd

/-- The first pass over the repaired list. -/
def resvCaselist (listRepaired : List FmdEvent) (num : ℤ) : Option ℕ :=
  fmdResvCaselist { listRepaired := listRepaired } num 2

/-- The number of entries in the window, in a list of a given length. -/
def windowCount (n : ℕ) (num : ℤ) : ℕ := (min (n : ℤ) (num + fafNum) - max 0 num).toNat

theorem length_window_eq (l : List FmdEvent) (num : ℤ) :
    (window num (num + fafNum) 0 l).length = windowCount l.length num := by
  have hle : num ≤ num + fafNum := by
    unfold fafNum
    omega
  have h := length_window hle 0 l
  unfold windowCount
  omega

theorem sectionsWritten_eq (l : List FmdEvent) (num : ℤ) : sectionsWritten l num =
    if CountersFit l.length num then some (windowCount l.length num) else none := by
  rw [sectionsWritten, foldlM_counters, foldlM_count, Nat.zero_add, length_window_eq]
  split_ifs <;> rfl

theorem resvCaselist_eq (l : List FmdEvent) (num : ℤ) : resvCaselist l num = sectionsWritten l num :=
  rfl

/-- **The writes stay in the buffer** exactly if no more sections are written than were counted. -/
theorem fill_inside_iff {l : List FmdEvent} {num : ℤ} (caseNum : ℕ) (hfit : CountersFit l.length num)
    (htext : ∀ ep ∈ window num (num + fafNum) 0 l, (fafCase .create ep).isSome) :
    (fillCaselist l num caseNum).isSome = true ↔ windowCount l.length num ≤ caseNum := by
  rw [fillCaselist, foldlM_counters, if_pos hfit, Option.map_map, Option.isSome_map,
    foldlM_putStep_isSome htext, List.length_replicate, Nat.zero_add, length_window_eq]
  refine or_iff_right_of_imp fun hnil => ?_
  rw [← length_window_eq, hnil]
  exact Nat.zero_le _

/-- A list that has grown from `n` to `n'` entries has as many in the window as before, exactly if it
has not grown, or only past the end of the window, or not beyond its start. -/
theorem windowCount_eq_iff {n n' : ℕ} (num : ℤ) (h : n ≤ n') :
    windowCount n' num = windowCount n num ↔ n' = n ∨ num + fafNum ≤ n ∨ n' ≤ num := by
  unfold windowCount fafNum
  omega

theorem windowCount_le (n : ℕ) (num : ℤ) : windowCount n num ≤ fafNum := by
  unfold windowCount
  omega

/-! ## Requests and puts -/

/-- A request between its two passes: the page offset, what was counted (`none` if a counter has
overflowed), and the length of the list at that time. -/
structure Reserved where
  num : ℤ
  caseNum : Option ℕ
  listed : ℕ

/-- The repaired list and the thread that answers requests. -/
structure CaselistRace where
  listRepaired : List FmdEvent := []
  reserved : Option Reserved := none

/-- An agent puts a result; the first pass of a request; its second pass. -/
inductive RaceAct where
  | put (pevt : FmdEvent)
  | resv (num : ℤ)
  | fill

/-- The step function. -/
def raceStep : RaceAct → CaselistRace → Option CaselistRace
  | .put pevt, s => some { s with listRepaired := agentRingPut s.listRepaired pevt }
  | .resv num, s =>
    match s.reserved with
    | none =>
      let r : Reserved := ⟨num, resvCaselist s.listRepaired num, s.listRepaired.length⟩
      some { s with reserved := some r }
    | some _ => none
  | .fill, s =>
    match s.reserved with
    | some _ => some { s with reserved := none }
    | none => none

/-- The second pass writes no more sections than were counted, and the header tells how many. -/
def FillRight (listRepaired : List FmdEvent) (r : Reserved) : Prop :=
  ∃ caseNum secs, r.caseNum = some caseNum ∧ sectionsWritten listRepaired r.num = some secs ∧
    secs ≤ caseNum ∧ (fafHdr "GET CASELIST".toList 176 caseNum).fafhSecnum = secs ∧
    (fafHdr "GET CASELIST".toList 176 caseNum).fafhMsgsz = secs * 176 + 48

/-- Since the first pass no entry was appended inside the window, and the counters of the second stay
in range. -/
def WindowKept (listRepaired : List FmdEvent) (r : Reserved) : Prop :=
  CountersFit listRepaired.length r.num ∧ (listRepaired.length = r.listed ∨
    r.num + fafNum ≤ r.listed ∨ (listRepaired.length : ℤ) ≤ r.num)

/-- A property of the second pass. -/
def AtFill (P : List FmdEvent → Reserved → Prop) (act : RaceAct) (s _ : CaselistRace) : Prop :=
  ∀ r, act = .fill → s.reserved = some r → P s.listRepaired r

/-- A request that is between its passes has counted the list as it was then. -/
def ReservedOk (s : CaselistRace) : Prop :=
  ∀ r, s.reserved = some r → r.listed ≤ s.listRepaired.length ∧
    r.caseNum = if CountersFit r.listed r.num then some (windowCount r.listed r.num) else none

theorem length_agentRingPut (repaired : List FmdEvent) (pevt : FmdEvent) :
    repaired.length ≤ (agentRingPut repaired pevt).length := by
  generalize hr : agentRingPut repaired pevt = r
  cases hr ▸ agentRingPut_cases repaired pevt with
  | merged l₁ p l₂ hs _ =>
    rw [hs]
    simp
  | appended _ => simp

theorem reservedOk_step {act : RaceAct} {s s' : CaselistRace} (h : ReservedOk s)
    (hst : raceStep act s = some s') : ReservedOk s' := by
  cases act with
  | put pevt =>
    cases hst
    intro r hr
    obtain ⟨hle, hcount⟩ := h r hr
    exact ⟨hle.trans (length_agentRingPut s.listRepaired pevt), hcount⟩
  | resv num =>
    simp only [raceStep] at hst
    split at hst
    · cases hst
      rintro r ⟨⟩
      exact ⟨le_rfl, (resvCaselist_eq _ _).trans (sectionsWritten_eq _ _)⟩
    · cases hst
  | fill =>
    simp only [raceStep] at hst
    split at hst
    · cases hst
      exact fun _ hr => absurd hr nofun
    · cases hst

theorem fillRight_iff_windowKept {s : CaselistRace} (h : ReservedOk s) {r : Reserved}
    (hr : s.reserved = some r) : FillRight s.listRepaired r ↔ WindowKept s.listRepaired r := by
  obtain ⟨hle, hcount⟩ := h r hr
  unfold FillRight WindowKept
  rw [hcount, sectionsWritten_eq]
  by_cases hfit : CountersFit s.listRepaired.length r.num
  · have hfit' : CountersFit r.listed r.num := by
      unfold CountersFit at hfit ⊢
      omega
    have h20 := windowCount_le r.listed r.num
    rw [if_pos hfit, if_pos hfit', ← windowCount_eq_iff r.num hle]
    unfold fafNum at h20
    constructor
    · rintro ⟨caseNum, secs, ⟨⟩, ⟨⟩, -, -, hsz⟩
      simp only [fafHdr] at hsz
      exact ⟨hfit, by omega⟩
    · rintro ⟨-, heq⟩
      refine ⟨_, _, rfl, rfl, heq.le, ?_, ?_⟩
      · simp only [fafHdr]
        omega
      · simp only [fafHdr]
        omega
  · rw [if_neg hfit]
    simp [hfit]

/-- **What is written is what was counted** exactly in the runs in which, between the two passes of a
request, no entry is appended inside its window and the counters stay in range. -/
theorem fillRight_iff (as : List RaceAct) : EveryStep raceStep (AtFill FillRight) as {} ↔
    EveryStep raceStep (AtFill WindowKept) as {} := by
  refine everyStep_congr (I := ReservedOk) (fun _ _ _ h _ hst => reservedOk_step h hst)
    (fun act s s' h _ => ?_) as (fun _ hr => absurd hr nofun)
  exact forall_congr' fun r => imp_congr_right fun _ => forall_congr' fun hr =>
    fillRight_iff_windowKept h hr

/-- The first result is put between the two passes: a section is written behind a buffer of none. -/
theorem fillRight_fails : ¬ ∀ as : List RaceAct, EveryStep raceStep (AtFill FillRight) as {} := by
  intro h
  let pevt : FmdEvent :=
    { addr := 0, devName := "/dev/sdb".toList, devId := 0, evtId := 2,
      evClass := "list.disk.unhealthy".toList, agentResult := .repairedSuccess }
  have hfill := h [.resv 0, .put pevt, .fill] [.resv 0, .put pevt] .fill _ _ List.prefix_rfl rfl rfl
  obtain ⟨caseNum, secs, hcase, hsecs, hle, -⟩ := hfill _ rfl rfl
  cases hcase
  cases hsecs
  exact absurd hle (by decide)

end Fms
