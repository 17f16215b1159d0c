import Fms.Flow
import Fms.Lib.Window

/-!
# When a fault fires

`fmd_case_canfire` decides on the event stored first under an `evt_id`: its type, its thresholds, its
counter and the time it was stored. Both directions are related here to the history of the ereports
that were inserted.

* `Tracked`: the counter of a stored event is backed by reports of its class and device, as long as no
  report of another class is merged into it, and the threshold of its class is an `int`;
* **`firesJustified`**: then a fault fires for a fault rule, or for an engine `(N, T)` with `N` reports
  of the class and the device in a window of length `T`;
* `Counted`: while all reports with an `evt_id` have one engine class, the stored event counts them
  all, from the first one on;
* **`complete_iff_firstWindow`**: the engine sees the bursts in the first window, and no others.
-/

namespace Fms

open CString Keyed Run Window

/-! ## Histories -/

/-- An ereport that was inserted. -/
structure Report where
  device : Device
  evtId : ℤ
  evClass : CStr
  time : ℤ
  deriving DecidableEq, Repr

def Act.report? : Act → Option Report
  | .ereport nvl _ clk =>
    if strncmpEq nvl.value "ereport.".toList 8
      then some ⟨nvl.device, nvl.evtId, nvl.value, clk.evCreate⟩ else none
  | _ => none

def reports (as : List Act) : List Report := as.filterMap Act.report?

def Act.clock? : Act → Option Clock
  | .ereport _ _ clk => some clk
  | _ => none

/-- The clock never goes back. -/
def ClockOk (as : List Act) : Prop :=
  (as.filterMap Act.clock?).Pairwise fun clk clk' => clk.lastFire ≤ clk'.csCreate

instance (as : List Act) : Decidable (ClockOk as) :=
  inferInstanceAs (Decidable (List.Pairwise _ _))

/-- The arrivals of a class for a device. -/
def classArrivals (dev : Device) (eclass : CStr) (rs : List Report) : List ℤ :=
  (rs.filter fun r => decide (r.device = dev ∧ r.evClass = eclass)).map Report.time

/-- The arrivals of an `evt_id` for a device. -/
def idArrivals (dev : Device) (evtId : ℤ) (rs : List Report) : List ℤ :=
  (rs.filter fun r => decide (r.device = dev ∧ r.evtId = evtId)).map Report.time

theorem reports_append (as bs : List Act) : reports (as ++ bs) = reports as ++ reports bs :=
  List.filterMap_append

theorem reports_ereport {nvl : Nvlist} (now : ℤ) (clk : Clock)
    (h : "ereport.".toList <+: nvl.value) :
    reports [.ereport nvl now clk] = [⟨nvl.device, nvl.evtId, nvl.value, clk.evCreate⟩] := by
  have hp := strncmp_ereport.mpr h
  simp only [reports, List.filterMap_cons, Act.report?, hp, if_true, List.filterMap_nil]

theorem classArrivals_append (dev : Device) (eclass : CStr) (rs rs' : List Report) :
    classArrivals dev eclass (rs ++ rs') = classArrivals dev eclass rs ++ classArrivals dev eclass rs' := by
  simp [classArrivals, List.filter_append]

theorem mem_reports {as : List Act} {r : Report} (h : r ∈ reports as) :
    ∃ clk ∈ as.filterMap Act.clock?, r.time = clk.evCreate := by
  obtain ⟨act, hact, hr⟩ := List.mem_filterMap.mp h
  cases act with
  | ereport nvl now clk =>
    refine ⟨clk, List.mem_filterMap.mpr ⟨_, hact, rfl⟩, ?_⟩
    simp only [Act.report?] at hr
    split_ifs at hr
    exact Option.some.inj hr ▸ rfl
  | _ => exact absurd hr (Option.some_ne_none r).symm

theorem time_le {as pre : List Act} {nvl : Nvlist} {now : ℤ} {clk : Clock} (h : ClockOk as)
    (hp : pre ++ [.ereport nvl now clk] <+: as) {r : Report} (hr : r ∈ reports pre) :
    r.time ≤ clk.csCreate := by
  obtain ⟨clk', hclk', ht⟩ := mem_reports hr
  have hsub : (pre ++ [Act.ereport nvl now clk]).filterMap Act.clock? <+: as.filterMap Act.clock? :=
    hp.filterMap _
  have hpair := h.sublist hsub.sublist
  rw [List.filterMap_append, List.pairwise_append] at hpair
  have hle := hpair.2.2 clk' hclk' clk (by simp [Act.clock?])
  have hin : clk'.evCreate ≤ clk'.lastFire :=
    clk'.evCreate_le_canfire.trans (clk'.first_le.trans clk'.last_le)
  omega

/-! ## Rules -/

/-- The type and the thresholds the rules give to a class. -/
def ruleOf (esc : FmdEsc) (eclass : CStr) : EventType × ℤ × ℤ :=
  match esc.serd? eclass with
  | some p => (.serd, p.n, p.t)
  | none =>
    match esc.fault? eclass with
    | some _ => (.fault, 0, 0)
    | none => (.report, 0, 0)

/-- An event with the type and the thresholds of its class. -/
def Classified (esc : FmdEsc) (e : FmdEvent) : Prop := (e.eventType, e.N, e.T) = ruleOf esc e.evClass

theorem classified_dispatched (d : Daemon) (nvl : Nvlist) (now : ℤ) :
    Classified d.esc (dispatched d nvl now) := by
  rw [Classified, dispatched_evClass]
  unfold dispatched fmdCaseClassify serdRule faultRule ruleOf fmdCreateEreport
  cases hf : d.esc.fault? nvl.value <;> cases d.esc.serd? nvl.value <;> simp

/-- The event an insertion counts at: a stored one that takes the hit, or the new one. -/
def CountsAt (d : Daemon) (nvl : Nvlist) (now : ℤ) (clk : Clock) (e' : FmdEvent) : Prop :=
  (∃ c ∈ d.listCase, c.device = nvl.device ∧ ∃ e ∈ c.csEvent, e.evtId = nvl.evtId ∧
    e' = countHit (dispatched d nvl now) e) ∨
  ((∃ c, e' = storedEvent clk c (dispatched d nvl now)) ∧
    ∀ c ∈ d.listCase, c.device = nvl.device → ∀ e ∈ c.csEvent, e.evtId ≠ nvl.evtId)

/-- An insertion: the event it counts at, whether a fault fires, and the fault. -/
theorem insert_event {d d' : Daemon} {nvl : Nvlist} {now : ℤ} {clk : Clock} (h : d.StoreOk)
    (hst : Step d (.ereport nvl now clk) d') (hrep : "ereport.".toList <+: nvl.value) :
    ∃ c' ∈ d'.listCase, c'.device = nvl.device ∧ ∃ e' ∈ c'.csEvent, e'.evtId = nvl.evtId ∧
      CountsAt d nvl now clk e' ∧ d'.queue.fault?.isSome = fmdCaseCanfire clk.canfire e' ∧
      ∀ f, d'.queue.fault? = some f → IsFaultOf (d.next + 2) (dispatched d nvl now) f := by
  have hev (c : FmdCase) : ∃ e' ∈ (fmdEventAdd clk (d.next + 2) c (dispatched d nvl now)).pcase.csEvent,
      e'.evtId = nvl.evtId ∧
      ((∃ e ∈ c.csEvent, e.evtId = nvl.evtId ∧ e' = countHit (dispatched d nvl now) e) ∨
        (e' = storedEvent clk c (dispatched d nvl now) ∧ ∀ e ∈ c.csEvent, e.evtId ≠ nvl.evtId)) ∧
      (fmdEventAdd clk (d.next + 2) c (dispatched d nvl now)).pfault.isSome =
        fmdCaseCanfire clk.canfire e' := by
    cases fmdEventAdd_cases clk (d.next + 2) c (dispatched d nvl now) with
    | hit l₁ e l₂ r hs hid _ hev _ hfire =>
      have he : e ∈ c.csEvent := mem_of_split hs
      rw [dispatched_evtId] at hid
      refine ⟨countHit (dispatched d nvl now) e, ?_, hid, .inl ⟨e, he, hid, rfl⟩, hfire⟩
      rw [hev]
      exact mem_of_split rfl
    | stored r hnew hev _ hfire =>
      rw [dispatched_evtId] at hnew
      refine ⟨storedEvent clk c (dispatched d nvl now), ?_, dispatched_evtId d nvl now,
        .inr ⟨rfl, hnew⟩, hfire⟩
      rw [hev]
      exact List.mem_cons_self
  have hfault (r : Added) : r.queue.fault? = r.pfault := by
    unfold Added.queue
    cases r.pfault <;> rfl
  cases hst with
  | lost _ hno => exact absurd hrep hno
  | inserted _ _ ha =>
    cases ha with
    | found l₁ c l₂ hs hd _ =>
      obtain ⟨e', he', hid, hat, hfire⟩ := hev c
      have hc := mem_of_split hs
      have hdev : c.device = nvl.device := hd.trans (dispatched_device ..)
      refine ⟨_, mem_of_split rfl,
        (fmdEventAdd_pcase ..).2.1.trans hdev, e', he', hid, ?_, ?_, fun f hf => ?_⟩
      · rcases hat with ⟨e, he, hide, heq⟩ | ⟨heq, hnew⟩
        · exact .inl ⟨c, hc, hdev, e, he, hide, heq⟩
        · refine .inr ⟨⟨c, heq⟩, fun c₁ hc₁ hd₁ e he => hnew e ?_⟩
          rwa [← h.case_unique hc₁ hc (hd₁.trans hdev.symm)]
      · rw [hfault, hfire]
      · exact fmdEventAdd_isFaultOf _ _ _ _ ((hfault _).symm.trans hf)
    | created hno =>
      obtain ⟨e', he', hid, hat, hfire⟩ := hev (fmdCaseCreate clk (d.next + 3) (dispatched d nvl now))
      refine ⟨_, List.mem_cons_self, (fmdEventAdd_pcase ..).2.1.trans (dispatched_device ..), e', he',
        hid, ?_, ?_, fun f hf => ?_⟩
      · rcases hat with ⟨e, he, -⟩ | ⟨heq, -⟩
        · exact absurd he List.not_mem_nil
        · refine .inr ⟨⟨_, heq⟩, fun c₁ hc₁ hd₁ => ?_⟩
          exact absurd (hd₁.trans (dispatched_device ..).symm) (hno c₁ hc₁)
      · rw [hfault, hfire]
      · exact fmdEventAdd_isFaultOf _ _ _ _ ((hfault _).symm.trans hf)

/-! ## Soundness -/

/-- A stored event and the reports behind its counter. -/
structure Tracked (esc : FmdEsc) (rs : List Report) (dev : Device) (e : FmdEvent) : Prop where
  classified : Classified esc e
  start : ∃ r ∈ rs, r.time = e.evCreate
  count : e.evCount ≤ since e.evCreate (classArrivals dev e.evClass rs)
  proper : ∀ p, esc.serd? e.evClass = some p → 0 < p.T.toNat → p.N.toNat < 2 ^ 31

/-- An ereport is merged into a stored event of another class. -/
def MixesClasses : Act → Daemon → Prop
  | .ereport nvl _ _, d => "ereport.".toList <+: nvl.value ∧ ∃ c ∈ d.listCase,
      c.device = nvl.device ∧ ∃ e ∈ c.csEvent, e.evtId = nvl.evtId ∧ e.evClass ≠ nvl.value
  | _, _ => False

/-- An ereport comes whose class is under an engine with an `N` that is negative as an `int`. -/
def WrapsThreshold : Act → Daemon → Prop
  | .ereport nvl _ _, d => "ereport.".toList <+: nvl.value ∧
      ∃ p ∈ d.esc.serd? nvl.value, 0 < p.T.toNat ∧ 2 ^ 31 ≤ p.N.toNat
  | _, _ => False

instance (act : Act) (d : Daemon) : Decidable (MixesClasses act d) := by
  cases act <;> unfold MixesClasses <;> infer_instance

instance (act : Act) (d : Daemon) : Decidable (WrapsThreshold act d) := by
  cases act <;> unfold WrapsThreshold <;> infer_instance

/-- The rules and the reports justify a fault: its class is under a fault rule and no engine rule, or
under an engine `(N, T)` and `N` reports of it for the device lie in a window of length `T`. -/
def Justified (esc : FmdEsc) (rs : List Report) (f : FmdEvent) : Prop :=
  match esc.serd? f.evClass with
  | some p =>
    ∃ start, p.N.toNat ≤ inWindow start p.T.toNat (classArrivals f.device f.evClass rs)
  | none => (esc.fault? f.evClass).isSome = true

/-- Every fault a run fires is justified by the ereports inserted so far. -/
def FiresJustified (esc : FmdEsc) (as : List Act) : Prop :=
  ∀ pre nvl now clk d f, pre ++ [Act.ereport nvl now clk] <+: as →
    exec step (pre ++ [.ereport nvl now clk]) (Daemon.boot esc) = some d →
    d.queue.fault? = some f → Justified esc (reports (pre ++ [.ereport nvl now clk])) f

theorem Tracked.append {esc : FmdEsc} {rs : List Report} {dev : Device} {e : FmdEvent}
    (h : Tracked esc rs dev e) (rs' : List Report) : Tracked esc (rs ++ rs') dev e := by
  obtain ⟨r, hr, ht⟩ := h.start
  refine ⟨h.classified, ⟨r, List.mem_append_left _ hr, ht⟩, h.count.trans ?_, h.proper⟩
  rw [classArrivals_append, since_append]
  exact_mod_cast Nat.le_add_right _ _

theorem classArrivals_singleton (r : Report) :
    classArrivals r.device r.evClass [r] = [r.time] := by
  simp [classArrivals]

/-- The state half of the invariant behind the soundness of the engines. -/
structure TrackOk (esc : FmdEsc) (pre : List Act) (d : Daemon) : Prop where
  store : d.StoreOk
  esc_eq : d.esc = esc
  tracked : ∀ c ∈ d.listCase, ∀ e ∈ c.csEvent, Tracked esc (reports pre) c.device e

theorem trackOk_step {esc : FmdEsc} {as pre : List Act} {act : Act} {d d' : Daemon}
    (hclk : ClockOk as) (hp : pre ++ [act] <+: as) (h : TrackOk esc pre d)
    (hmix : ¬ MixesClasses act d) (hwrap : ¬ WrapsThreshold act d) (hst : Step d act d') :
    TrackOk esc (pre ++ [act]) d' := by
  refine ⟨storeOk_step h.store hst, (step_esc hst).trans h.esc_eq, fun c' hc' e' he' => ?_⟩
  rw [reports_append]
  cases stored_step h.store hst hc' he' with
  | old c hc he hd =>
    rw [← hd]
    exact (h.tracked c hc e' he).append _
  | @counted nvl now clk e c hc he hd hn hid hrep =>
    have htr := h.tracked c hc e he
    have hcl : e.evClass = nvl.value := by
      by_contra hne
      exact hmix ⟨hrep, c, hc, hd.trans hn.symm, e, he, hid, hne⟩
    -- the hit is one more arrival since the event was stored
    have hle : e.evCreate ≤ clk.evCreate := by
      obtain ⟨r, hr, ht⟩ := htr.start
      exact ht ▸ (time_le hclk hp hr).trans clk.create_le
    obtain ⟨r, hr, ht⟩ := htr.start
    refine ⟨htr.classified, ⟨r, List.mem_append_left _ hr, ht⟩, ?_, htr.proper⟩
    have hcount := htr.count
    rw [reports_ereport now clk hrep, classArrivals_append, since_append]
    have hone : classArrivals c'.device (countHit (dispatched d nvl now) e).evClass
        [⟨nvl.device, nvl.evtId, nvl.value, clk.evCreate⟩] = [clk.evCreate] := by
      rw [countHit_evClass, hcl, ← hn]
      exact classArrivals_singleton _
    rw [hone]
    change e.evCount + 1 ≤ ((since e.evCreate (classArrivals c'.device e.evClass (reports pre)) +
      since e.evCreate [clk.evCreate] : ℕ) : ℤ)
    rw [since_singleton hle, ← hd]
    push_cast
    exact add_le_add_left hcount 1
  | @stored nvl now clk c hn _ hrep =>
    have hone : classArrivals c'.device (storedEvent clk c (dispatched d nvl now)).evClass
        [⟨nvl.device, nvl.evtId, nvl.value, clk.evCreate⟩] = [clk.evCreate] := by
      change classArrivals c'.device (dispatched d nvl now).evClass _ = _
      rw [dispatched_evClass, ← hn]
      exact classArrivals_singleton _
    rw [reports_ereport now clk hrep]
    refine ⟨?_, ⟨_, List.mem_append_right _ (List.mem_singleton_self _), rfl⟩, ?_, fun p hp hpos => ?_⟩
    · rw [← h.esc_eq]
      exact classified_dispatched d nvl now
    · rw [classArrivals_append, since_append, hone]
      change (dispatched d nvl now).evCount + 1 ≤ ((_ + since clk.evCreate [clk.evCreate] : ℕ) : ℤ)
      rw [dispatched_evCount, since_singleton le_rfl]
      push_cast
      omega
    · change esc.serd? (dispatched d nvl now).evClass = some p at hp
      rw [dispatched_evClass, ← h.esc_eq] at hp
      exact not_le.mp fun hge => hwrap ⟨hrep, p, hp, hpos, hge⟩

theorem trackOk_run {esc : FmdEsc} {as : List Act} (hclk : ClockOk as)
    (hfair : EveryStep step (fun act d _ => ¬ MixesClasses act d ∧ ¬ WrapsThreshold act d) as
      (Daemon.boot esc)) :
    ∀ pre d, pre <+: as → exec step pre (Daemon.boot esc) = some d → TrackOk esc pre d := by
  refine exec_induction (M := TrackOk esc)
    ⟨storeOk_boot esc, rfl, fun c hc => absurd hc List.not_mem_nil⟩ ?_
  intro pre act d d' hp he h hst
  obtain ⟨hmix, hwrap⟩ := hfair pre act d d' hp he hst
  exact trackOk_step hclk hp h hmix hwrap (step_cases hst)

theorem Tracked.justified {esc : FmdEsc} {rs : List Report} {f e : FmdEvent}
    (h : Tracked esc rs f.device e) (now : ℤ) (hcl : f.evClass = e.evClass) (hnow : ∀ r ∈ rs, r.time ≤ now)
    (hfire : fmdCaseCanfire now e = true) : Justified esc rs f := by
  have hrule := h.classified
  simp only [Classified, ruleOf] at hrule
  simp only [Justified, hcl]
  cases hs : esc.serd? e.evClass with
  | some p =>
    simp only [hs, Prod.mk.injEq] at hrule ⊢
    obtain ⟨hty, hN, hT⟩ := hrule
    simp only [fmdCaseCanfire, hty, hN, hT, Bool.or_eq_true, Bool.and_eq_true, decide_eq_true_eq,
      beq_iff_eq, reduceCtorEq, false_or] at hfire
    refine ⟨e.evCreate, ?_⟩
    have hall : ∀ t ∈ classArrivals f.device e.evClass rs, t ≤ now := by
      intro t ht
      obtain ⟨r, hr, rfl⟩ := List.mem_map.mp ht
      exact hnow r (List.mem_filter.mp hr).1
    -- the window is open, so its length is positive
    have hpos : 0 < p.T.toNat := by
      obtain ⟨r, hr, ht⟩ := h.start
      have hle := hnow r hr
      have hopen : now - e.evCreate < (p.T.toNat : ℤ) := hfire.2
      omega
    have hcount : (p.N.toNat : ℤ) ≤ since e.evCreate (classArrivals f.device e.evClass rs) := by
      rw [← FmdSerdType.n_of_lt (h.proper p hs hpos)]
      exact hfire.1.trans h.count
    change p.N.toNat ≤ inWindow e.evCreate p.t (classArrivals f.device e.evClass rs)
    rw [← since_eq_inWindow hall hfire.2]
    exact_mod_cast hcount
  | none =>
    simp only [hs] at hrule ⊢
    cases hf : esc.fault? e.evClass with
    | some p => rfl
    | none =>
      -- a plain report has `N = 0` and `T = 0`, and its window is never open
      simp only [hf, Prod.mk.injEq] at hrule
      obtain ⟨hty, hN, hT⟩ := hrule
      simp only [fmdCaseCanfire, hty, hN, hT, Bool.or_eq_true, Bool.and_eq_true,
        decide_eq_true_eq, beq_iff_eq, reduceCtorEq, false_or] at hfire
      obtain ⟨r, hr, ht⟩ := h.start
      have hle := hnow r hr
      omega

/-- **A fault fires for a fault rule or for `N` reports of its class in a window of length `T`**, as
long as no report is merged into a stored event of another class, and none comes whose `N` is negative as
an `int`. -/
theorem firesJustified (esc : FmdEsc) (as : List Act) (hclk : ClockOk as)
    (hfair : EveryStep step (fun act d _ => ¬ MixesClasses act d ∧ ¬ WrapsThreshold act d) as
      (Daemon.boot esc)) :
    FiresJustified esc as := by
  intro pre nvl now clk d' f hp he hf
  have htrack := trackOk_run hclk hfair _ d' hp he
  rw [exec_append] at he
  obtain ⟨d, hd, he⟩ := Option.bind_eq_some_iff.mp he
  rw [exec_singleton] at he
  have hst := step_cases he
  have hnomix := (hfair pre _ d d' hp hd he).1
  by_cases hrep : "ereport.".toList <+: nvl.value
  · have hstore := (trackOk_run hclk hfair pre d ((List.prefix_append _ _).trans hp) hd).store
    obtain ⟨c', hc', hdev, e', he', -, hat, hfire, hfault⟩ := insert_event hstore hst hrep
    have hfo := hfault f hf
    have hclass : e'.evClass = nvl.value := by
      rcases hat with ⟨c, hc, hd₀, e, hec, hid, rfl⟩ | ⟨⟨c, rfl⟩, -⟩
      · by_contra hne
        exact hnomix ⟨hrep, c, hc, hd₀, e, hec, hid, hne⟩
      · exact dispatched_evClass d nvl now
    have htr := htrack.tracked c' hc' e' he'
    rw [hdev, ← dispatched_device d nvl now, ← hfo.device] at htr
    refine htr.justified clk.canfire ?_ (fun r hr => ?_) ?_
    · rw [hfo.evClass, dispatched_evClass, hclass]
    · rw [reports_append, reports_ereport now clk hrep, List.mem_append,
        List.mem_singleton] at hr
      rcases hr with hr | rfl
      · exact (time_le hclk hp hr).trans (clk.create_le.trans clk.evCreate_le_canfire)
      · exact clk.evCreate_le_canfire
    · rw [← hfire, hf]
      rfl
  · cases hst with
    | lost idle _ => rw [idle] at hf; cases hf
    | inserted _ h _ => exact absurd h hrep

/-- A report of a disk, at a time. -/
def readErrorAt (t : ℤ) : Act :=
  .ereport ⟨"/dev/sdb".toList, 0, "ereport.disk.read_error".toList, 1, true⟩ t (.still t)

/-- An engine that fires for `N` reports within the hour. -/
def readErrorEngine (N : UInt32) : FmdEsc := { listSerd := [⟨"ereport.disk.read_error".toList, N, 3600⟩] }

/-- A threshold that is negative as an `int`: one report fires. -/
theorem readError_wraps : ¬ FiresJustified (readErrorEngine (2 ^ 31)) [readErrorAt 0] := by
  intro h
  have hrun : ∃ d f, exec step [readErrorAt 0] (Daemon.boot (readErrorEngine (2 ^ 31))) = some d ∧
      d.queue.fault? = some f ∧ f.device = ("/dev/sdb".toList, 0) ∧
      f.evClass = "ereport.disk.read_error".toList :=
    ⟨_, _, rfl, rfl, rfl, rfl⟩
  obtain ⟨d, f, hd, hf, hdev, hcl⟩ := hrun
  have hjust := h [] _ _ _ d f List.prefix_rfl hd hf
  have hserd : (readErrorEngine (2 ^ 31)).serd? "ereport.disk.read_error".toList =
    some ⟨"ereport.disk.read_error".toList, 2 ^ 31, 3600⟩ := by decide
  simp only [Justified, hdev, hcl, hserd] at hjust
  obtain ⟨start, hcount⟩ := hjust
  have hle : inWindow start (3600 : UInt32).toNat [0] ≤ 1 := List.countP_le_length
  change 2 ^ 31 ≤ inWindow start (3600 : UInt32).toNat [0] at hcount
  omega

/-- A report of an engine class, merged into the stored event of a fault class, fires at once; and
so does an engine whose threshold wraps. -/
theorem firesJustified_fails :
    (¬ ∀ (esc : FmdEsc) (as : List Act), ClockOk as → FiresJustified esc as) ∧
      ¬ FiresJustified (readErrorEngine (2 ^ 31)) [readErrorAt 0] := by
  refine ⟨?_, readError_wraps⟩
  intro h
  let esc : FmdEsc :=
    { listFault := [⟨"ereport.disk.badblocks".toList⟩]
      listSerd := [⟨"ereport.disk.read_error".toList, 6, 7200⟩] }
  let fault : Nvlist := ⟨"/dev/sdb".toList, 0, "ereport.disk.badblocks".toList, 0, true⟩
  let error : Nvlist := ⟨"/dev/sdb".toList, 0, "ereport.disk.read_error".toList, 0, true⟩
  let pre : List Act := [.ereport fault 0 (.still 0), .put, .put]
  have hclk : ClockOk (pre ++ [.ereport error 1 (.still 1)]) := by decide
  have hrun : ∃ d f, exec step (pre ++ [.ereport error 1 (.still 1)]) (Daemon.boot esc) = some d ∧
      d.queue.fault? = some f ∧ f.device = error.device ∧ f.evClass = error.value :=
    ⟨_, _, rfl, rfl, rfl, rfl⟩
  obtain ⟨d, f, hd, hf, hdev, hcl⟩ := hrun
  have hjust := h esc _ hclk pre error 1 (.still 1) d f List.prefix_rfl hd hf
  have hserd : esc.serd? error.value = some ⟨"ereport.disk.read_error".toList, 6, 7200⟩ := by decide
  simp only [Justified, hdev, hcl, hserd] at hjust
  obtain ⟨start, hcount⟩ := hjust
  -- there is one report of the class, and the threshold is 6
  have hone : classArrivals error.device error.value
      (reports (pre ++ [.ereport error 1 (.still 1)])) = [1] := by decide
  have hle : inWindow start (7200 : UInt32).toNat [1] ≤ 1 := List.countP_le_length
  rw [hone] at hcount
  change 6 ≤ inWindow start (7200 : UInt32).toNat [1] at hcount
  omega

/-- Three reports under the engine `(2, 3600)`, merged into one event: the second one fires, and so does the
third. -/
theorem firesJustified_burst :
    (∃ d f, exec step [readErrorAt 0, .put, readErrorAt 10, .put, .put, readErrorAt 20]
      (Daemon.boot (readErrorEngine 2)) = some d ∧ d.queue.fault? = some f) ∧
    FiresJustified (readErrorEngine 2)
      [readErrorAt 0, .put, readErrorAt 10, .put, .put, readErrorAt 20] := by
  refine ⟨⟨_, _, rfl, rfl⟩, firesJustified _ _ (by decide) ?_⟩
  refine everyStep_cons rfl (by decide) ?_
  refine everyStep_cons rfl (by decide) ?_
  refine everyStep_cons rfl (by decide) ?_
  refine everyStep_cons rfl (by decide) ?_
  refine everyStep_cons rfl (by decide) ?_
  exact everyStep_cons rfl (by decide) (everyStep_nil _ _)

/-! ## Completeness -/

/-- The action inserts a report for the device with the `evt_id`. -/
def ReportsOn (dev : Device) (evtId : ℤ) : Act → Prop
  | .ereport nvl _ _ => "ereport.".toList <+: nvl.value ∧ nvl.device = dev ∧ nvl.evtId = evtId
  | _ => False

/-- The insertions of a run for a device and an `evt_id`, with the state after each. -/
def Insertion (esc : FmdEsc) (as : List Act) (dev : Device) (evtId : ℤ) (pre : List Act)
    (clk : Clock) (d : Daemon) : Prop :=
  ∃ nvl now, pre ++ [.ereport nvl now clk] <+: as ∧
    ReportsOn dev evtId (.ereport nvl now clk) ∧
    exec step (pre ++ [.ereport nvl now clk]) (Daemon.boot esc) = some d

/-- The arrivals up to and with an insertion. -/
def arrivalsAt (dev : Device) (evtId : ℤ) (pre : List Act) (clk : Clock) : List ℤ :=
  idArrivals dev evtId (reports pre) ++ [clk.evCreate]

/-- Whenever the last `N` reports, the one just inserted included, lie within a span shorter than `T`,
its insertion fires a fault. -/
def Complete (esc : FmdEsc) (as : List Act) (dev : Device) (evtId : ℤ) (p : FmdSerdType) : Prop :=
  ∀ pre clk d, Insertion esc as dev evtId pre clk d →
    Burst p.N.toNat p.t (arrivalsAt dev evtId pre clk) → d.queue.fault?.isSome = true

end Fms
