import Fms.CaseMap
import Fms.Flow

/-!
# What an isolation is good for

`queue_delete_proc` deletes the case of a device that an agent has isolated, and leaves the entry on
the repaired list: the lines that would take it off are commented out. The entry then deletes every
later case of the device.

* `caseGone_iff`: a case is deleted by an entry that reports an isolation, and by no other;
* `isolated_stays`: such an entry never leaves the list;
* **`consumedOnce_iff`**: an entry deletes no case created after it was processed, unless an agent has
  put the result again, exactly in the runs whose sweep does not come to a spent entry.
-/

namespace Fms

open Keyed Run

/-! ## Deleted cases -/

/-- The case with that name is on the case list. -/
def CaseListed (k : ℕ) (d : Daemon) : Prop := ∃ c ∈ d.listCase, c.addr = k

instance (k : ℕ) (d : Daemon) : Decidable (CaseListed k d) :=
  inferInstanceAs (Decidable (∃ c ∈ d.listCase, c.addr = k))

/-- The sweep comes to an entry of the repaired list. -/
def SweepsTo (pevt : FmdEvent) : Act → Daemon → Prop
  | .sweepEntry _, d => d.repaired.head? = some pevt
  | _, _ => False

theorem added_addrs {clk : Clock} {addr newCase : ℕ} {lc : List FmdCase} {pevt : FmdEvent}
    {r : List FmdCase × Added} (h : CaseAdded clk addr newCase lc pevt r) :
    lc.map FmdCase.addr ⊆ r.1.map FmdCase.addr := by
  cases h with
  | found l₁ c l₂ hs _ _ =>
    subst hs
    rw [map_replace (fmdEventAdd_pcase clk addr c pevt).1]
    exact List.Subset.refl _
  | created _ => exact List.subset_cons_self _ _

theorem atomicDec_addrs (pCase : Option ℕ) (lc : List FmdCase) :
    (atomicDec pCase lc).map FmdCase.addr = lc.map FmdCase.addr := by
  rcases atomicDec_cases pCase lc with ⟨he, -⟩ | ⟨l₁, c, l₂, hs, -, he⟩
  · rw [he]
  · rw [he, hs]
    exact map_replace rfl

theorem caseListed_iff {k : ℕ} {d : Daemon} : CaseListed k d ↔ k ∈ d.listCase.map FmdCase.addr :=
  List.mem_map.symm

theorem deleted_addrs {n : ℕ} {lc : List FmdCase} {pevt : FmdEvent} {r : List FmdCase × ℤ} {k : ℕ}
    (h : StoreOk n lc) (hd : Deleted pevt lc r) :
    (k ∈ lc.map FmdCase.addr ∧ k ∉ r.1.map FmdCase.addr) ↔ pevt.agentResult = .isolatedSuccess ∧
      ∃ c ∈ lc, c.addr = k ∧ c.device = pevt.device ∧ c.mEventUsing ≤ 0 := by
  cases hd with
  | case l₁ c l₂ hs hres hidle hdev =>
    have hc : c ∈ lc := mem_of_split hs
    constructor
    · rintro ⟨hk, hk'⟩
      refine ⟨hres, c, hc, ?_, hdev, hidle⟩
      rw [hs] at hk
      simp only [List.map_append, List.map_cons, List.mem_append, List.mem_cons] at hk hk'
      tauto
    · rintro ⟨-, x, hx, rfl, hxd, -⟩
      refine ⟨List.mem_map_of_mem hx, fun hm => ?_⟩
      obtain rfl := h.case_unique hx hc (hxd.trans hdev.symm)
      obtain ⟨y, hy, hya⟩ := List.mem_map.mp hm
      exact key_ne_of_split (hs ▸ h.addrs) y hy hya
  | event l₁ c l₂ hs hres _ _ _ =>
    have hmap : (l₁ ++ { c with csEvent := c.csEvent.eraseP (sameEvtId pevt) } :: l₂).map
        FmdCase.addr = lc.map FmdCase.addr := by
      rw [hs]
      exact map_replace rfl
    rw [hmap]
    exact iff_of_false (fun h' => h'.2 h'.1) fun h' => hres h'.1
  | nothing hno =>
    refine iff_of_false (fun h' => h'.2 h'.1) ?_
    rintro ⟨hres, x, hx, -, hxd, hidle⟩
    rcases hno x ⟨hx, hxd⟩ with hbusy | ⟨hne, -⟩
    · exact absurd hidle (not_le.mpr hbusy)
    · exact hne hres

/-- **A case goes** when the sweep comes to an entry that reports the isolation of its device while it
is idle, and in no other way. -/
theorem caseGone_iff {act : Act} {d d' : Daemon} {k : ℕ} (h : d.StoreOk) (hst : Step d act d') :
    (CaseListed k d ∧ ¬ CaseListed k d') ↔ ∃ pevt, SweepsTo pevt act d ∧
      pevt.agentResult = .isolatedSuccess ∧
      ∃ c ∈ d.listCase, c.addr = k ∧ c.device = pevt.device ∧ c.mEventUsing ≤ 0 := by
  have hkeep (hs : d.listCase.map FmdCase.addr ⊆ d'.listCase.map FmdCase.addr)
      (hact : ∀ pevt, ¬ SweepsTo pevt act d) : (CaseListed k d ∧ ¬ CaseListed k d') ↔
        ∃ pevt, SweepsTo pevt act d ∧ pevt.agentResult = .isolatedSuccess ∧
          ∃ c ∈ d.listCase, c.addr = k ∧ c.device = pevt.device ∧ c.mEventUsing ≤ 0 := by
    refine iff_of_false (fun h' => ?_) fun ⟨pevt, hp, _⟩ => hact pevt hp
    rw [caseListed_iff, caseListed_iff] at h'
    exact h'.2 (hs h'.1)
  cases hst with
  | inserted _ _ ha => exact hkeep (added_addrs ha) fun _ => id
  | @sweepEntry now seen pevt rest hq hr =>
    simp only [SweepsTo, hr, List.head?_cons, Option.some.injEq, exists_eq_left', caseListed_iff]
    have hdel := deleted_addrs (k := k) h (fmdCaseFindAndDelete_cases h.addrs pevt)
    simp only [sweepEntry]
    generalize hs : queueDeleteEntry now d.listCase pevt = s
    cases hs ▸ queueDeleteEntry_cases now d.listCase pevt with
    | skipped hl => exact iff_of_false (fun h' => h'.2 h'.1) fun h' => hl (.inr (.inl h'.1))
    | released _ _ => exact hdel
    | failed _ _ => exact hdel
    | isolated _ => exact hdel
    | removed _ _ => exact hdel
  | @finish l₁ a l₂ evt r _ _ =>
    refine hkeep ?_ fun _ => id
    simp only
    split_ifs
    · rw [atomicDec_addrs]
      exact List.Subset.refl _
    · exact List.Subset.refl _
  | _ => exact hkeep (List.Subset.refl _) fun _ => id

/-! ## Entries -/

/-- **An entry that reports an isolation never leaves the list.** -/
theorem isolated_stays {act : Act} {d d' : Daemon} (hst : Step d act d') {p : FmdEvent}
    (hp : p ∈ d.repairedList) (hres : p.agentResult = .isolatedSuccess) :
    ∃ p' ∈ d'.repairedList, p'.addr = p.addr ∧ p'.device = p.device ∧
      p'.agentResult = .isolatedSuccess := by
  have hsame (h : p ∈ d'.repairedList) : ∃ p' ∈ d'.repairedList, p'.addr = p.addr ∧
      p'.device = p.device ∧ p'.agentResult = .isolatedSuccess := ⟨p, h, rfl, rfl, hres⟩
  rw [mem_repairedList] at hp
  simp only [mem_repairedList] at hsame ⊢
  cases hst with
  | inserted idle _ _ =>
    rw [idle] at hp
    exact hsame (.inr (hp.resolve_left List.not_mem_nil))
  | put hputs _ =>
    rw [(puts_seen hputs).1] at hp
    exact hsame (.inr (hp.resolve_left List.not_mem_nil))
  | sweepBegin idle =>
    rw [idle] at hp
    exact hsame (.inr (hp.resolve_left List.not_mem_nil))
  | @sweepEntry now seen pevt rest hq hr =>
    rw [hq, hr] at hp
    refine hsame ?_
    simp only [sweepEntry, QueuePc.seen]
    rcases hp with hp | hp
    · refine .inl ?_
      split_ifs
      · exact List.mem_append_left _ hp
      · exact hp
    · rcases List.mem_cons.mp hp with rfl | hp
      · have hkept : (queueDeleteEntry now d.listCase p).kept = true := by
          generalize hs : queueDeleteEntry now d.listCase p = s
          cases hs ▸ queueDeleteEntry_cases now d.listCase p with
          | released hf _ => rw [hf] at hres; cases hres
          | removed hn _ => rcases hn with hn | hn <;> (rw [hn] at hres; cases hres)
          | _ => rfl
        rw [if_pos hkept]
        exact .inl (List.mem_append_right _ (List.mem_singleton_self p))
      · exact .inr hp
  | sweepEnd hq hr =>
    rw [hq, hr] at hp
    exact hsame (.inr (hp.resolve_right List.not_mem_nil))
  | @result l₁ a l₂ r repaired _ _ _ hput =>
    rcases hp with hp | hp
    · exact hsame (.inl hp)
    · cases hput with
      | merged m₁ q m₂ hm _ =>
        rw [hm] at hp
        rcases List.mem_append.mp hp with hp | hp
        · exact hsame (.inr (List.mem_append_left _ hp))
        · rcases List.mem_cons.mp hp with rfl | hp
          · exact ⟨mergeResult r p, .inr (mem_of_split rfl), rfl, rfl, hres⟩
          · exact hsame (.inr (List.mem_append_right _ (List.mem_cons_of_mem _ hp)))
      | appended _ => exact hsame (.inr (List.mem_append_left _ hp))
  | _ => exact hsame hp

/-- The name of the entry a result is put into: the one it is merged with, or a new one. -/
def putEntry (repaired : List FmdEvent) (r : FmdEvent) : ℕ :=
  match repaired.find? (sameResult r) with
  | some p => p.addr
  | none => r.addr

/-- An agent puts a result about the device of an entry into that entry. -/
def PutsInto (pevt : FmdEvent) (act : Act) (d : Daemon) : Prop :=
  ∃ i a r, act = .result i ∧ d.agents[i]? = some a ∧ a.pc = .putting r ∧
    r.device = pevt.device ∧ putEntry d.repaired r = pevt.addr

/-- The sweep processes an entry as the report of an isolation. -/
def Processes (pevt : FmdEvent) (act : Act) (d : Daemon) : Prop :=
  ∃ q, SweepsTo q act d ∧ q.addr = pevt.addr ∧ q.agentResult = .isolatedSuccess

/-! ## Runs -/

/-- A case that the sweep deletes on account of an entry is older than the first time the entry was
processed, or an agent has put a result into the entry since the case was created. -/
def ConsumedOnce (esc : FmdEsc) (as : List Act) : Prop :=
  ∀ pre act d d' k pevt, pre ++ [act] <+: as → exec step pre (Daemon.boot esc) = some d →
    step act d = some d' → CaseListed k d → ¬ CaseListed k d' → SweepsTo pevt act d →
    ∃ before rest, pre = before ++ rest ∧ Since step (CaseListed k) (Daemon.boot esc) before rest ∧
      (Occurs step (Processes pevt) (Daemon.boot esc) [] before →
        Occurs step (PutsInto pevt) (Daemon.boot esc) before rest)

/-- After `pre`, the sweep comes to a spent entry: it reports an isolation, an idle case of the device
is listed, and the entry was processed before the case was created and not put again since. -/
def SpentEntry (esc : FmdEsc) (pre : List Act) (act : Act) (d : Daemon) : Prop :=
  ∃ pevt, SweepsTo pevt act d ∧ pevt.agentResult = .isolatedSuccess ∧
    ∃ c ∈ d.listCase, c.device = pevt.device ∧ c.mEventUsing ≤ 0 ∧
      ∃ before rest, pre = before ++ rest ∧
        Since step (CaseListed c.addr) (Daemon.boot esc) before rest ∧
        Occurs step (Processes pevt) (Daemon.boot esc) [] before ∧
        ¬ Occurs step (PutsInto pevt) (Daemon.boot esc) before rest

theorem not_caseListed_boot (k : ℕ) (esc : FmdEsc) : ¬ CaseListed k (Daemon.boot esc) :=
  fun ⟨_, hc, _⟩ => List.not_mem_nil hc

/-- **An isolation is consumed once** in exactly the runs whose sweep never comes to a spent entry. -/
theorem consumedOnce_iff (esc : FmdEsc) (as : List Act) : ConsumedOnce esc as ↔
    ∀ pre act d d', pre ++ [act] <+: as → exec step pre (Daemon.boot esc) = some d →
      step act d = some d' → ¬ SpentEntry esc pre act d := by
  have hok : ∀ pre act d, pre ++ [act] <+: as → exec step pre (Daemon.boot esc) = some d →
      d.StoreOk := fun pre act d hp he =>
    exec_invariant (I := Daemon.StoreOk) (fun _ _ _ h hst => storeOk_step h (step_cases hst)) as
      (storeOk_boot esc) pre d ((List.prefix_append _ _).trans hp) he
  constructor
  · rintro h pre act d d' hp he hst
      ⟨pevt, hsw, hres, c, hc, hdev, hidle, before, rest, hpre, hs, hproc, hno⟩
    obtain ⟨hin, hout⟩ := (caseGone_iff (hok pre act d hp he) (step_cases hst)).mpr
      ⟨pevt, hsw, hres, c, hc, rfl, hdev, hidle⟩
    obtain ⟨before', rest', hpre', hs', hput⟩ := h pre act d d' _ pevt hp he hst hin hout hsw
    obtain ⟨rfl, rfl⟩ := hs.unique hs' (hpre.symm.trans hpre')
    exact hno (hput hproc)
  · intro h pre act d d' k pevt hp he hst hin hout hsw
    obtain ⟨q, hq, hres, c, hc, rfl, hdev, hidle⟩ :=
      (caseGone_iff (hok pre act d hp he) (step_cases hst)).mp ⟨hin, hout⟩
    obtain ⟨before, rest, hpre, hs⟩ := exists_since (not_caseListed_boot c.addr esc) he hin
    obtain rfl : q = pevt := by
      cases act with
      | sweepEntry now => exact Option.some.inj (hq.symm.trans hsw)
      | _ => exact hq.elim
    refine ⟨before, rest, hpre, hs, fun hproc => ?_⟩
    by_contra hno
    exact h pre act d d' hp he hst
      ⟨q, hsw, hres, c, hc, hdev, hidle, before, rest, hpre, hs, hproc, hno⟩

/-- The trace agent isolates a processor and the sweep deletes its case; the processor comes back and
reports something else, which the next sweep deletes too. -/
theorem consumedOnce_fails : ¬ ∀ (esc : FmdEsc) (as : List Act), ConsumedOnce esc as := by
  intro h
  let esc : FmdEsc := { listFault := [⟨"ereport.trace.fault".toList⟩] }
  let fault : Nvlist := ⟨"cpu".toList, 0, "ereport.trace.fault".toList, 2, true⟩
  let other : Nvlist := ⟨"cpu".toList, 0, "ereport.trace.other".toList, 3, true⟩
  let before : List Act := [.load .trace ["ereport.trace.*".toList] .auto, .ereport fault 0 (.still 0),
    .put, .put, .take 0, .handle 0 {} 0, .finish 0, .result 0, .take 0, .handle 0 {} 0, .finish 0,
    .sweepBegin, .sweepEntry 0, .sweepEnd]
  let rest : List Act := [.ereport other 60 (.still 60), .put, .take 0, .handle 0 {} 60, .finish 0,
    .sweepBegin]
  have hs : Since step (CaseListed 9) (Daemon.boot esc) before rest := by
    refine since_of_forall ⟨_, rfl, ?_⟩ ?_
    · decide
    · decide
  have hrun : ∃ d ∈ exec step (before ++ rest) (Daemon.boot esc), ∃ d' ∈ step (.sweepEntry 80) d,
      ∃ pevt ∈ d.repaired.head?, pevt.addr = 4 ∧ CaseListed 9 d ∧ ¬ CaseListed 9 d' := by
    decide
  obtain ⟨d, hd, d', hst, pevt, hp, ha, hin, hout⟩ := hrun
  have hfirst : ∃ t ∈ exec step (before.take 12) (Daemon.boot esc), ∃ q ∈ t.repaired.head?,
      q.addr = 4 ∧ q.agentResult = .isolatedSuccess := by
    decide
  obtain ⟨t, ht, q, hq, hqa, hres⟩ := hfirst
  have hproc : Occurs step (Processes pevt) (Daemon.boot esc) [] before :=
    ⟨before.take 12, .sweepEntry 0, t, ⟨[.sweepEnd], rfl⟩, ht, q, hq, hqa.trans ha.symm, hres⟩
  obtain ⟨before', rest', hpre, hs', hput⟩ := h esc (before ++ rest ++ [.sweepEntry 80])
    (before ++ rest) (.sweepEntry 80) d d' 9 pevt List.prefix_rfl hd hst hin hout hp
  obtain ⟨rfl, rfl⟩ := hs.unique hs' hpre
  obtain ⟨mid, act, t, hmid, -, i, a, r, rfl, -⟩ := hput hproc
  -- no agent puts a result while the new case is listed
  have hmem : Act.result i ∈ rest :=
    hmid.subset (List.mem_append_right _ (List.mem_singleton_self _))
  simp [rest] at hmem

/-- **Once isolated, always reported**: when an entry of the repaired list reports an isolation, an entry for the
same event and device does so in every later state, whatever happens. -/
theorem isolated_run (esc : FmdEsc) (as : List Act) : Always step (fun d =>
    ∀ p ∈ d.repairedList, p.agentResult = .isolatedSuccess → ∀ bs, Always step (fun d' =>
      ∃ p' ∈ d'.repairedList, p'.addr = p.addr ∧ p'.device = p.device ∧ p'.agentResult = .isolatedSuccess) bs d)
    as (Daemon.boot esc) := by
  intro pre d _ _ p hp hres bs
  refine exec_invariant (fun act d' d'' h hst => ?_) bs ⟨p, hp, rfl, rfl, hres⟩
  obtain ⟨p', hp', haddr, hdev, hres'⟩ := h
  obtain ⟨p'', hp'', haddr', hdev', hres''⟩ := isolated_stays (step_cases hst) hp' hres'
  exact ⟨p'', hp'', haddr'.trans haddr, hdev'.trans hdev, hres''⟩

end Fms
