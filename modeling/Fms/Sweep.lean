import Fms.Store

/-!
# What the sweep removes from the case list

`queue_delete_proc` looks entries of the repaired list up in the case list. Three properties of it
are compared here with what the code does, each with the exact condition under which they agree:

* **`removesRightly_iff`**: only entries that report a success remove events. The sweep also looks up
  entries that report a failed isolation (the call stands in the condition) and entries with the
  result 0, which the mask does not find;
* **`effectDone_iff`**: a repair that leaves the list has had its effect. The return code of the
  search, which is the same for a busy case and for no case, is ignored;
* **`noEmptyCase_iff`**: no listed case is empty. The test behind it is made on the wrong list.
-/

namespace Fms

open Keyed Run

/-- An idle case of the device that holds the event an entry is about. -/
def IdleHolder (listCase : List FmdCase) (pevt : FmdEvent) : Prop :=
  ∃ c ∈ listCase, c.device = pevt.device ∧ c.mEventUsing ≤ 0 ∧ c.Holds pevt

/-- A busy case of the device that holds the event an entry is about. -/
def BusyHolder (listCase : List FmdCase) (pevt : FmdEvent) : Prop :=
  ∃ c ∈ listCase, c.device = pevt.device ∧ 0 < c.mEventUsing ∧ c.Holds pevt

/-! ## One deletion -/

/-- The list holds, in the case with this name, an event with this `evt_id`. -/
def Stores (listCase : List FmdCase) (addr : ℕ) (evtId : ℤ) : Prop :=
  ∃ c ∈ listCase, c.addr = addr ∧ ∃ e ∈ c.csEvent, e.evtId = evtId

instance (listCase : List FmdCase) (addr : ℕ) (evtId : ℤ) :
    Decidable (Stores listCase addr evtId) :=
  inferInstanceAs (Decidable (∃ c ∈ listCase, c.addr = addr ∧ ∃ e ∈ c.csEvent, e.evtId = evtId))

/-- Some event is in a case before and not after. -/
def Removes (listCase listCase' : List FmdCase) : Prop :=
  ∃ addr evtId, Stores listCase addr evtId ∧ ¬ Stores listCase' addr evtId

theorem not_removes_self (listCase : List FmdCase) : ¬ Removes listCase listCase :=
  fun ⟨_, _, h, h'⟩ => h' h

section Deletion

variable {n : ℕ} {lc : List FmdCase} {pevt : FmdEvent} {r : List FmdCase × ℤ}

/-- Unless a device was isolated, a deletion removes something exactly when it finds an idle case that
holds the event. -/
theorem removes_iff (h : StoreOk n lc) (hd : Deleted pevt lc r)
    (hr : pevt.agentResult ≠ .isolatedSuccess) : Removes lc r.1 ↔ IdleHolder lc pevt := by
  cases hd with
  | case _ _ _ _ hres _ _ => exact absurd hres hr
  | event l₁ c l₂ hs _ hidle hdev hholds =>
    have hc : c ∈ lc := mem_of_split hs
    refine iff_of_true ⟨c.addr, pevt.evtId, ⟨c, hc, rfl, hholds⟩, ?_⟩ ⟨c, hc, hdev, hidle, hholds⟩
    rintro ⟨x, hx, ha, hxe⟩
    rcases mem_middle.mp hx with rfl | hx
    · exact (h.cases c hc).not_holds_eraseP pevt hxe
    · exact key_ne_of_split (hs ▸ h.addrs) x hx ha
  | nothing hno =>
    refine iff_of_false (not_removes_self lc) ?_
    rintro ⟨c, hc, hdev, hidle, hholds⟩
    rcases hno c ⟨hc, hdev⟩ with hbusy | ⟨-, hnot⟩
    · exact absurd hidle (not_le.mpr hbusy)
    · exact hnot hholds

/-- Unless a device was isolated, the event is still there after a deletion exactly when a busy case
holds it. -/
theorem holds_after_iff (h : StoreOk n lc) (hd : Deleted pevt lc r)
    (hr : pevt.agentResult ≠ .isolatedSuccess) :
    (∃ c ∈ r.1, c.device = pevt.device ∧ c.Holds pevt) ↔ BusyHolder lc pevt := by
  cases hd with
  | case _ _ _ _ hres _ _ => exact absurd hres hr
  | event l₁ c l₂ hs _ hidle hdev _ =>
    have hc : c ∈ lc := mem_of_split hs
    refine iff_of_false ?_ ?_
    · rintro ⟨x, hx, hxd, hxe⟩
      rcases mem_middle.mp hx with rfl | hx
      · exact (h.cases c hc).not_holds_eraseP pevt hxe
      · exact key_ne_of_split (hs ▸ h.devices) x hx (hxd.trans hdev.symm)
    · rintro ⟨x, hx, hxd, hbusy, -⟩
      rw [h.case_unique hx hc (hxd.trans hdev.symm)] at hbusy
      exact absurd hidle (not_le.mpr hbusy)
  | nothing hno =>
    refine ⟨fun ⟨c, hc, hdev, hholds⟩ => ?_, fun ⟨c, hc, hdev, _, hholds⟩ => ⟨c, hc, hdev, hholds⟩⟩
    rcases hno c ⟨hc, hdev⟩ with hbusy | ⟨-, hnot⟩
    · exact ⟨c, hc, hdev, hbusy, hholds⟩
    · exact absurd hholds hnot

end Deletion

/-! ## Removals -/

/-- An event that leaves a case during the sweep does so on account of an entry that reports a
success. -/
def RemovesRightly : Act → Daemon → Daemon → Prop
  | .sweepEntry _, d, d' => Removes d.listCase d'.listCase →
      ∃ pevt, d.repaired.head? = some pevt ∧ pevt.agentResult.success = true
  | _, _, _ => True

/-- The sweep comes to an entry that reports a failed isolation, or to one with the result 0 that is
due, while an idle case holds the event. -/
def RemovesUnrepaired : Act → Daemon → Prop
  | .sweepEntry now, d => ∃ pevt, d.repaired.head? = some pevt ∧
      (pevt.agentResult = .isolatedFailed ∨ pevt.agentResult = .none ∧ Due now pevt) ∧
      IdleHolder d.listCase pevt
  | _, _ => False

theorem removesRightly_step {act : Act} {d d' : Daemon} (h : d.StoreOk) (hst : Step d act d') :
    RemovesRightly act d d' ↔ ¬ RemovesUnrepaired act d := by
  cases hst with
  | @sweepEntry now seen pevt rest hq hr =>
    have hd := fmdCaseFindAndDelete_cases h.addrs pevt
    simp only [RemovesRightly, RemovesUnrepaired, hr, List.head?_cons, Option.some.injEq,
      exists_eq_left', sweepEntry]
    generalize hs : queueDeleteEntry now d.listCase pevt = s
    cases hs ▸ queueDeleteEntry_cases now d.listCase pevt with
    | skipped hl =>
      refine iff_of_true (fun h' => absurd h' (not_removes_self _)) ?_
      rintro ⟨hf | ⟨hn, hdue⟩, -⟩
      · exact hl (.inl hf)
      · exact hl (.inr (.inr ⟨.inl hn, hdue⟩))
    | released hf _ =>
      rw [removes_iff h hd (by rw [hf]; decide)]
      simp [hf, AgentResult.success]
    | failed hf _ =>
      rw [removes_iff h hd (by rw [hf]; decide)]
      simp [hf, AgentResult.success]
    | isolated hi => simp [hi, AgentResult.success]
    | removed hn hdue =>
      rcases hn with hn | hn
      · rw [removes_iff h hd (by rw [hn]; decide)]
        simp [hn, AgentResult.success, hdue]
      · simp [hn, AgentResult.success]
  | _ => exact iff_of_true trivial id

/-- **Only successes remove events** in exactly the runs whose sweep never comes to a failed
isolation, or to a due entry with the result 0, while an idle case holds the event. -/
theorem removesRightly_iff (esc : FmdEsc) (as : List Act) :
    EveryStep step RemovesRightly as (Daemon.boot esc) ↔
      EveryStep step (fun act d _ => ¬ RemovesUnrepaired act d) as (Daemon.boot esc) :=
  everyStep_congr (I := Daemon.StoreOk) (fun _ _ _ h _ hst => storeOk_step h (step_cases hst))
    (fun _ _ _ h hst => removesRightly_step h (step_cases hst)) as (storeOk_boot esc)

/-- The disk agent logs an ereport; two minutes later the log entry takes the event out of its case. -/
theorem removesRightly_fails : ¬ ∀ (esc : FmdEsc) (as : List Act),
    EveryStep step RemovesRightly as (Daemon.boot esc) := by
  intro h
  let nvl : Nvlist := ⟨"/dev/sdb".toList, 0, "ereport.disk.badblocks".toList, 0, true⟩
  let as : List Act := [.load .disk ["ereport.disk.*".toList] .auto, .ereport nvl 0 (.still 0), .put,
    .take 0, .handle 0 {} 0, .finish 0, .result 0, .sweepBegin]
  have hrun : ∃ d d', exec step as (Daemon.boot {}) = some d ∧ step (.sweepEntry 120) d = some d' ∧
      Stores d.listCase 3 0 ∧ ¬ Stores d'.listCase 3 0 ∧
      d.repaired.head?.all (fun pevt => !pevt.agentResult.success) = true := by
    refine ⟨_, _, rfl, rfl, ?_⟩
    decide
  obtain ⟨d, d', hd, hst, hin, hout, hres⟩ := hrun
  obtain ⟨pevt, hp, hsucc⟩ := h {} (as ++ [.sweepEntry 120]) as _ d d' List.prefix_rfl hd hst
    ⟨3, 0, hin, hout⟩
  rw [hp] at hres
  simp [hsucc] at hres

/-! ## Effects -/

/-- A repair that leaves the list during the sweep has had its effect: no case of the device holds the
event any more. While a case holds it the entry stays. -/
def EffectDone : Act → Daemon → Daemon → Prop
  | .sweepEntry _, d, d' => ∀ pevt, d.repaired.head? = some pevt →
      pevt.agentResult = .repairedSuccess → d'.repairedList.length < d.repairedList.length →
      ¬ ∃ c ∈ d'.listCase, c.device = pevt.device ∧ c.Holds pevt
  | _, _, _ => True

/-- The sweep comes to a repair that is due while a busy case holds the event. -/
def LosesEffect : Act → Daemon → Prop
  | .sweepEntry now, d => ∃ pevt, d.repaired.head? = some pevt ∧
      pevt.agentResult = .repairedSuccess ∧ Due now pevt ∧ BusyHolder d.listCase pevt
  | _, _ => False

theorem effectDone_step {act : Act} {d d' : Daemon} (h : d.StoreOk) (hst : Step d act d') :
    EffectDone act d d' ↔ ¬ LosesEffect act d := by
  cases hst with
  | @sweepEntry now seen pevt rest hq hr =>
    have hd := fmdCaseFindAndDelete_cases h.addrs pevt
    simp only [EffectDone, LosesEffect, hr, List.head?_cons, Option.some.injEq, exists_eq_left',
      forall_eq', sweepEntry, Daemon.repairedList, hq, QueuePc.seen]
    generalize hs : queueDeleteEntry now d.listCase pevt = s
    cases hs ▸ queueDeleteEntry_cases now d.listCase pevt with
    | skipped hl =>
      refine iff_of_true (fun _ hlen => absurd hlen (by simp)) ?_
      rintro ⟨hn, hdue, -⟩
      exact hl (.inr (.inr ⟨.inr hn, hdue⟩))
    | released hf _ => simp [hf]
    | failed hf _ => simp [hf]
    | isolated hi => simp [hi]
    | removed hn hdue =>
      rcases hn with hn | hn
      · simp [hn]
      · rw [holds_after_iff h hd (by rw [hn]; decide)]
        simp [hn, hdue]
  | _ => exact iff_of_true trivial id

/-- **A repair that leaves the list has had its effect** in exactly the runs whose sweep never comes
to a due repair while a busy case holds the event. -/
theorem effectDone_iff (esc : FmdEsc) (as : List Act) :
    EveryStep step EffectDone as (Daemon.boot esc) ↔
      EveryStep step (fun act d _ => ¬ LosesEffect act d) as (Daemon.boot esc) :=
  everyStep_congr (I := Daemon.StoreOk) (fun _ _ _ h _ hst => storeOk_step h (step_cases hst))
    (fun _ _ _ h hst => effectDone_step h (step_cases hst)) as (storeOk_boot esc)

/-- The disk agent has repaired a fault, but still has the ereport in its ring when the sweep comes to
the repair: the entry goes and the event stays. -/
theorem effectDone_fails : ¬ ∀ (esc : FmdEsc) (as : List Act),
    EveryStep step EffectDone as (Daemon.boot esc) := by
  intro h
  let esc : FmdEsc := { listFault := [⟨"ereport.disk.unhealthy".toList⟩] }
  let nvl : Nvlist := ⟨"/dev/sdb".toList, 0, "ereport.disk.unhealthy".toList, 2, true⟩
  let as : List Act := [.load .disk ["ereport.disk.*".toList] .auto, .ereport nvl 0 (.still 0), .put,
    .put, .take 0, .handle 0 {} 0, .finish 0, .result 0, .sweepBegin]
  have hrun : ∃ d d' pevt, exec step as (Daemon.boot esc) = some d ∧
      step (.sweepEntry 120) d = some d' ∧ d.repaired.head? = some pevt ∧
      pevt.agentResult = .repairedSuccess ∧ d'.repairedList.length < d.repairedList.length ∧
      ∃ c ∈ d'.listCase, c.device = pevt.device ∧ c.Holds pevt := by
    refine ⟨_, _, _, rfl, rfl, rfl, ?_⟩
    decide
  obtain ⟨d, d', pevt, hd, hst, hp, hres, hlen, hc⟩ := hrun
  exact h esc (as ++ [.sweepEntry 120]) as _ d d' List.prefix_rfl hd hst pevt hp hres hlen hc

/-! ## Empty cases -/

/-- Every listed case has an event. -/
def NoEmptyCase (d : Daemon) : Prop := ∀ c ∈ d.listCase, c.csEvent ≠ []

/-- The sweep looks up an entry that takes the only event out of an idle case. -/
def EmptiesCase : Act → Daemon → Prop
  | .sweepEntry now, d => ∃ pevt, d.repaired.head? = some pevt ∧ Looked now pevt ∧
      pevt.agentResult ≠ .isolatedSuccess ∧ ∃ c ∈ d.listCase, c.device = pevt.device ∧
        c.mEventUsing ≤ 0 ∧ c.csEvent.map FmdEvent.evtId = [pevt.evtId]
  | _, _ => False

theorem added_ne_nil (clk : Clock) (addr : ℕ) (c : FmdCase) (pevt : FmdEvent) :
    (fmdEventAdd clk addr c pevt).pcase.csEvent ≠ [] := by
  cases fmdEventAdd_cases clk addr c pevt with
  | hit l₁ e l₂ _ _ _ _ hev _ _ =>
    rw [hev]
    simp
  | stored _ _ hev _ _ =>
    rw [hev]
    exact List.cons_ne_nil _ _

theorem eraseP_eq_nil_iff {c : FmdCase} {pevt : FmdEvent} (hh : c.Holds pevt) :
    c.csEvent.eraseP (sameEvtId pevt) = [] ↔ c.csEvent.map FmdEvent.evtId = [pevt.evtId] := by
  obtain ⟨e, he, hid⟩ := hh
  constructor
  · intro hnil
    cases hf : c.csEvent.find? (sameEvtId pevt) with
    | none => exact absurd (find?_none hf e he) (by simp [hid])
    | some x =>
      obtain ⟨hx, l₁, l₂, hl, hn⟩ := find?_split hf
      rw [hl, eraseP_split l₂ hn hx, List.append_eq_nil_iff] at hnil
      rw [hl, hnil.1, hnil.2]
      simpa using hx
  · intro hone
    obtain ⟨x, hx, hxe⟩ := List.map_eq_singleton_iff.mp hone
    rw [hx, List.eraseP_cons_of_pos (by simpa using hxe)]

theorem deleted_ne_nil {n : ℕ} {lc : List FmdCase} {pevt : FmdEvent} {r : List FmdCase × ℤ}
    (h : StoreOk n lc) (hne : ∀ c ∈ lc, c.csEvent ≠ []) (hd : Deleted pevt lc r) :
    (∀ c ∈ r.1, c.csEvent ≠ []) ↔ ¬ (pevt.agentResult ≠ .isolatedSuccess ∧
      ∃ c ∈ lc, c.device = pevt.device ∧ c.mEventUsing ≤ 0 ∧
        c.csEvent.map FmdEvent.evtId = [pevt.evtId]) := by
  cases hd with
  | case l₁ c l₂ hs hres _ _ =>
    refine iff_of_true (fun x hx => hne x ?_) fun h' => h'.1 hres
    subst hs
    exact mem_middle.mpr (.inr hx)
  | event l₁ c l₂ hs hres hidle hdev hholds =>
    subst hs
    have hc : c ∈ l₁ ++ c :: l₂ := mem_of_split rfl
    have hne' : (∀ x ∈ l₁ ++ { c with csEvent := c.csEvent.eraseP (sameEvtId pevt) } :: l₂,
        x.csEvent ≠ []) ↔ c.csEvent.eraseP (sameEvtId pevt) ≠ [] := by
      refine ⟨fun h' => h' _ (mem_of_split rfl), fun h' x hx => ?_⟩
      rcases mem_of_replace rfl hx with rfl | hx
      · exact h'
      · exact hne x hx
    rw [hne', Ne, eraseP_eq_nil_iff hholds, not_iff_not]
    refine ⟨fun hone => ⟨hres, c, hc, hdev, hidle, hone⟩, ?_⟩
    rintro ⟨-, x, hx, hxd, -, hone⟩
    rwa [h.case_unique hx hc (hxd.trans hdev.symm)] at hone
  | nothing hno =>
    refine iff_of_true hne ?_
    rintro ⟨hres, c, hc, hdev, hidle, hone⟩
    rcases hno c ⟨hc, hdev⟩ with hbusy | ⟨-, hnot⟩
    · exact absurd hidle (not_le.mpr hbusy)
    · obtain ⟨e, he, hid⟩ := List.map_eq_singleton_iff.mp hone
      exact hnot ⟨e, by rw [he]; exact List.mem_singleton_self e, hid⟩

theorem noEmptyCase_step {act : Act} {d d' : Daemon} (h : d.StoreOk) (hne : NoEmptyCase d)
    (hst : Step d act d') : NoEmptyCase d' ↔ ¬ EmptiesCase act d := by
  cases hst with
  | inserted _ _ ha =>
    refine iff_of_true (fun x hx => ?_) id
    cases ha with
    | found l₁ c l₂ hs _ _ =>
      rcases mem_of_replace hs hx with rfl | hx
      · exact added_ne_nil _ _ _ _
      · exact hne x hx
    | created _ =>
      rcases List.mem_cons.mp hx with rfl | hx
      · exact added_ne_nil _ _ _ _
      · exact hne x hx
  | @sweepEntry now seen pevt rest hq hr =>
    have hdel := deleted_ne_nil h hne (fmdCaseFindAndDelete_cases h.addrs pevt)
    simp only [NoEmptyCase, EmptiesCase, hr, List.head?_cons, Option.some.injEq, exists_eq_left',
      sweepEntry]
    generalize hs : queueDeleteEntry now d.listCase pevt = s
    cases hs ▸ queueDeleteEntry_cases now d.listCase pevt with
    | skipped hl => exact iff_of_true hne fun h' => hl h'.1
    | released hf _ =>
      rw [hdel]
      simp [Looked, hf]
    | failed hf _ =>
      rw [hdel]
      simp [Looked, hf]
    | isolated hi =>
      rw [hdel]
      simp [hi]
    | removed hn hdue =>
      rw [hdel]
      simp [Looked, hn, hdue]
  | @finish l₁ a l₂ evt r hs hpc =>
    refine iff_of_true (fun x hx => ?_) id
    simp only at hx
    split_ifs at hx
    · rcases atomicDec_cases evt.pCase d.listCase with ⟨he, -⟩ | ⟨m₁, c, m₂, hm, -, he⟩
      · exact hne x (he ▸ hx)
      · rw [he] at hx
        rcases mem_of_replace hm hx with rfl | hx
        · exact hne c (mem_of_split hm)
        · exact hne x hx
    · exact hne x hx
  | _ => exact iff_of_true hne id

/-- **No listed case is empty** in exactly the runs whose sweep never takes the only event out of a
case: the case stays on the list then, since `list_empty` is asked about its link. -/
theorem noEmptyCase_iff (esc : FmdEsc) (as : List Act) :
    Always step NoEmptyCase as (Daemon.boot esc) ↔
      EveryStep step (fun act d _ => ¬ EmptiesCase act d) as (Daemon.boot esc) :=
  always_iff_everyStep (I := Daemon.StoreOk) (fun _ _ _ h hst => storeOk_step h (step_cases hst))
    (fun _ _ _ h hne hst => noEmptyCase_step h hne (step_cases hst)) as (storeOk_boot esc)
    fun _ hc => absurd hc List.not_mem_nil

/-- The repair of the only fault of a device leaves an empty case on the list. -/
theorem noEmptyCase_fails : ¬ ∀ (esc : FmdEsc) (as : List Act),
    Always step NoEmptyCase as (Daemon.boot esc) := by
  intro h
  let esc : FmdEsc := { listFault := [⟨"ereport.disk.unhealthy".toList⟩] }
  let nvl : Nvlist := ⟨"/dev/sdb".toList, 0, "ereport.disk.unhealthy".toList, 2, true⟩
  let as : List Act := [.load .disk ["ereport.disk.*".toList] .auto, .ereport nvl 0 (.still 0), .put,
    .put, .take 0, .handle 0 {} 0, .finish 0, .result 0, .take 0, .handle 0 {} 0, .finish 0,
    .result 0, .sweepBegin, .sweepEntry 120]
  have hrun : ∃ d, exec step as (Daemon.boot esc) = some d ∧ ∃ c ∈ d.listCase, c.csEvent = [] := by
    refine ⟨_, rfl, ?_⟩
    decide
  obtain ⟨d, hd, c, hc, hnil⟩ := hrun
  exact h esc as as d List.prefix_rfl hd c hc hnil

end Fms
