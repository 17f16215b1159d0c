import Fms.Store

/-!
# The case store as a map of maps

The case list on its own, under any sequence of insertions (`fmd_case_insert`), deletions
(`fmd_case_find_and_delete`, for any event) and decrements by the agents: a map from devices to
cases, each a map from `evt_id`s to events, with counters that add up.

* `CaseStore`, `caseStep`: the store and its operations; `caseStore_run`: the store of the daemon is
  one;
* `CaseFrom`, `caseFrom_step`: where a case of the list after an operation comes from;
* **`caseStore_map`**: in every reachable state the keys of both levels are unique, the counter of a
  case is the number of ereports of its device since it was created, and it is the sum of the
  counters of its events while none was removed.
-/

namespace Fms

open Keyed Run

/-- `fmd.list_case`, with the first name that is free. -/
structure CaseStore where
  listCase : List FmdCase := []
  next : ℕ := 0
  deriving DecidableEq, Repr

/-- The operations on the store: `alloc` takes names for other records. -/
inductive CaseAct where
  | insert (nvl : Nvlist) (now : ℤ) (clk : Clock)
  | delete (pevt : FmdEvent)
  | finish (pCase : Option ℕ)
  | alloc (n : ℕ)

/-- One operation; the event that is inserted is the ereport that `fmd_create_ereport` makes. -/
def caseStep (esc : FmdEsc) : CaseAct → CaseStore → Option CaseStore
  | .insert nvl now clk, s =>
    let pevt := { fmdCreateEreport s.next (s.next + 1) now nvl with evFlag := .agentTolog }
    some
      { listCase := (fmdCaseInsert esc clk (s.next + 2) (s.next + 3) s.listCase pevt).1
        next := s.next + 4 }
  | .delete pevt, s => some { s with listCase := (fmdCaseFindAndDelete pevt s.listCase).1 }
  | .finish pCase, s => some { s with listCase := atomicDec pCase s.listCase }
  | .alloc n, s => some { s with next := s.next + n }

/-- An ereport for a device. -/
def CaseAct.Inserts (dev : Device) : CaseAct → Prop
  | .insert nvl _ _ => nvl.device = dev
  | _ => False

instance (dev : Device) (act : CaseAct) : Decidable (act.Inserts dev) := by
  cases act <;> unfold CaseAct.Inserts <;> infer_instance

/-- The number of ereports for a device. -/
def inserted (dev : Device) (as : List CaseAct) : ℕ := as.countP fun act => decide (act.Inserts dev)

/-- There is a case with that name. -/
def Listed (k : ℕ) (s : CaseStore) : Prop := ∃ c ∈ s.listCase, c.addr = k

/-- An event of the case with that name goes. -/
def LosesEvent (k : ℕ) (s s' : CaseStore) : Prop :=
  ∃ c ∈ s.listCase, c.addr = k ∧ ∃ e ∈ c.csEvent,
    ∀ c' ∈ s'.listCase, c'.addr = k → ∀ e' ∈ c'.csEvent, e'.evtId ≠ e.evtId

/-- No operation of `rest`, which comes after `before`, takes an event out of the case. -/
def Intact (esc : FmdEsc) (k : ℕ) (before rest : List CaseAct) : Prop :=
  ∀ mid act s s', mid ++ [act] <+: rest → exec (caseStep esc) (before ++ mid) {} = some s →
    caseStep esc act s = some s' → ¬ LosesEvent k s s'

/-- The sum of `ev_count` over the events of a case. -/
def FmdCase.evCounts (c : FmdCase) : ℤ := (c.csEvent.map FmdEvent.evCount).sum

/-! ## Counters of a case -/

theorem fmdCaseFire_total (clk : Clock) (addr : ℕ) (pcase : FmdCase) (pevt : FmdEvent) :
    (fmdCaseFire clk addr pcase pevt).1.csTotalCount = pcase.csTotalCount := by
  unfold fmdCaseFire
  split_ifs
  · rfl
  · rfl

theorem fmdEventCount_total (clk : Clock) (addr : ℕ) (pcase : FmdCase) (pevt pEvent : FmdEvent) :
    (fmdEventCount clk addr pcase pevt pEvent).pcase.csTotalCount = pcase.csTotalCount + 1 := by
  unfold fmdEventCount
  split_ifs
  · exact fmdCaseFire_total clk addr _ pevt
  · rfl

theorem fmdEventAdd_total (clk : Clock) (addr : ℕ) (pcase : FmdCase) (pevt : FmdEvent) :
    (fmdEventAdd clk addr pcase pevt).pcase.csTotalCount = pcase.csTotalCount + 1 := by
  cases hf : pcase.csEvent.find? (sameEvtId pevt) with
  | some e =>
    rw [fmdEventAdd_hit clk addr pcase pevt hf]
    exact fmdEventCount_total ..
  | none =>
    rw [fmdEventAdd_stored clk addr pcase pevt hf]
    exact fmdEventCount_total ..

theorem fmdEventAdd_evCounts (clk : Clock) (addr : ℕ) (pcase : FmdCase) {pevt : FmdEvent}
    (h : pevt.evCount = 0) :
    (fmdEventAdd clk addr pcase pevt).pcase.evCounts = pcase.evCounts + 1 := by
  unfold FmdCase.evCounts
  cases fmdEventAdd_cases clk addr pcase pevt with
  | hit l₁ e l₂ _ hs _ _ hev _ _ =>
    rw [hev, hs]
    simp only [List.map_append, List.map_cons, List.sum_append, List.sum_cons, countHit]
    ring
  | stored _ _ hev _ _ =>
    rw [hev]
    simp only [List.map_cons, List.sum_cons, storedEvent, h]
    ring

/-! ## Where a case comes from -/

/-- A case after an operation: an old one that the operation leaves alone, one that lost an event,
one that an ereport was added to, or the case an ereport has created. -/
inductive CaseFrom (s : CaseStore) (act : CaseAct) (c' : FmdCase) : Prop
  | kept (c : FmdCase) (hc : c ∈ s.listCase) (addr : c.addr = c'.addr) (device : c.device = c'.device)
      (total : c'.csTotalCount = c.csTotalCount) (events : c'.csEvent = c.csEvent)
      (other : ¬ act.Inserts c'.device)
  | erased (c : FmdCase) (hc : c ∈ s.listCase) (addr : c.addr = c'.addr)
      (device : c.device = c'.device) (total : c'.csTotalCount = c.csTotalCount) (e : FmdEvent)
      (he : e ∈ c.csEvent) (gone : ∀ e' ∈ c'.csEvent, e'.evtId ≠ e.evtId)
      (other : ¬ act.Inserts c'.device)
  | added (c : FmdCase) (hc : c ∈ s.listCase) (addr : c.addr = c'.addr)
      (device : c.device = c'.device) (total : c'.csTotalCount = c.csTotalCount + 1)
      (counts : c'.evCounts = c.evCounts + 1) (own : act.Inserts c'.device)
  | created (new : ¬ Listed c'.addr s) (total : c'.csTotalCount = 1) (counts : c'.evCounts = 1)
      (own : act.Inserts c'.device)

/-- The invariant of the store. -/
def CaseStore.Ok (s : CaseStore) : Prop := StoreOk s.next s.listCase

theorem caseStep_insert (esc : FmdEsc) (nvl : Nvlist) (now : ℤ) (clk : Clock) (s : CaseStore) :
    ∃ r, CaseAdded clk (s.next + 2) (s.next + 3) s.listCase
        (dispatched { esc := esc, next := s.next } nvl now) r ∧
      caseStep esc (.insert nvl now clk) s = some { listCase := r.1, next := s.next + 4 } :=
  ⟨_, addCaseList_cases clk (s.next + 2) (s.next + 3) s.listCase
    (dispatched { esc := esc, next := s.next } nvl now), rfl⟩

theorem caseFrom_added {s : CaseStore} {d : Daemon} {nvl : Nvlist} {now : ℤ} {clk : Clock}
    {r : List FmdCase × Added} (h : s.Ok)
    (ha : CaseAdded clk (s.next + 2) (s.next + 3) s.listCase (dispatched d nvl now) r)
    {c' : FmdCase} (hc' : c' ∈ r.1) : CaseFrom s (.insert nvl now clk) c' := by
  have hcount : (dispatched d nvl now).evCount = 0 := dispatched_evCount ..
  cases ha with
  | found l₁ c l₂ hs hd _ =>
    rw [dispatched_device] at hd
    rcases List.mem_append.mp hc' with hm | hm
    · have hne := key_ne_of_split (hs ▸ h.devices) c' (List.mem_append_left _ hm)
      exact .kept c' (hs ▸ List.mem_append_left _ hm) rfl rfl rfl rfl fun hi => hne (hi.symm.trans hd.symm)
    · rcases List.mem_cons.mp hm with rfl | hm
      · obtain ⟨haddr, hdev, -⟩ := fmdEventAdd_pcase clk (s.next + 2) c (dispatched d nvl now)
        refine .added c (mem_of_split hs) haddr.symm hdev.symm (fmdEventAdd_total ..)
          (fmdEventAdd_evCounts _ _ _ hcount) ?_
        rw [hdev]
        exact hd.symm
      · have hne := key_ne_of_split (hs ▸ h.devices) c' (List.mem_append_right _ hm)
        refine .kept c' (hs ▸ List.mem_append_right _ (List.mem_cons_of_mem _ hm)) rfl rfl rfl rfl ?_
        exact fun hi => hne (hi.symm.trans hd.symm)
  | created hf =>
    rcases List.mem_cons.mp hc' with rfl | hm
    · obtain ⟨haddr, hdev, -⟩ := fmdEventAdd_pcase clk (s.next + 2)
        (fmdCaseCreate clk (s.next + 3) (dispatched d nvl now)) (dispatched d nvl now)
      refine .created ?_ (fmdEventAdd_total ..) (fmdEventAdd_evCounts _ _ _ hcount) ?_
      · rintro ⟨x, hx, he⟩
        have hlt := h.fresh x hx
        rw [he, haddr] at hlt
        exact absurd hlt (by simp [fmdCaseCreate])
      · rw [hdev]
        exact (dispatched_device d nvl now).symm
    · refine .kept c' hm rfl rfl rfl rfl fun hi => hf c' hm ?_
      rw [dispatched_device]
      exact hi.symm

theorem caseFrom_step {esc : FmdEsc} {act : CaseAct} {s s' : CaseStore} (h : s.Ok)
    (hst : caseStep esc act s = some s') {c' : FmdCase} (hc' : c' ∈ s'.listCase) :
    CaseFrom s act c' := by
  cases act with
  | insert nvl now clk =>
    obtain ⟨r, ha, he⟩ := caseStep_insert esc nvl now clk s
    rw [he] at hst
    cases hst
    exact caseFrom_added h ha hc'
  | delete pevt =>
    cases hst
    have hd := fmdCaseFindAndDelete_cases h.addrs pevt
    generalize hr : fmdCaseFindAndDelete pevt s.listCase = r at hd hc'
    cases hd with
    | case l₁ c l₂ hs _ _ _ =>
      refine .kept c' ?_ rfl rfl rfl rfl id
      rw [hs]
      exact mem_middle.mpr (.inr hc')
    | event l₁ c l₂ hs _ _ _ hh =>
      rcases mem_of_replace hs hc' with rfl | hc'
      · obtain ⟨e, he, hid⟩ := hh
        refine .erased c (mem_of_split hs) rfl rfl rfl e he (fun e' he' hid' => ?_) id
        exact (h.cases c (mem_of_split hs)).not_holds_eraseP pevt ⟨e', he', hid'.trans hid⟩
      · exact .kept c' hc' rfl rfl rfl rfl id
    | nothing _ => exact .kept c' hc' rfl rfl rfl rfl id
  | finish pCase =>
    cases hst
    rcases atomicDec_cases pCase s.listCase with ⟨he, -⟩ | ⟨m₁, c, m₂, hm, -, he⟩
    · exact .kept c' (he ▸ hc') rfl rfl rfl rfl id
    · rcases mem_of_replace hm (he ▸ hc') with rfl | hc'
      · exact .kept c (mem_of_split hm) rfl rfl rfl rfl id
      · exact .kept c' hc' rfl rfl rfl rfl id
  | alloc n =>
    cases hst
    exact .kept c' hc' rfl rfl rfl rfl id

theorem caseOk_step {esc : FmdEsc} {act : CaseAct} {s s' : CaseStore} (h : s.Ok)
    (hst : caseStep esc act s = some s') : s'.Ok := by
  cases act with
  | insert nvl now clk =>
    obtain ⟨r, ha, he⟩ := caseStep_insert esc nvl now clk s
    rw [he] at hst
    cases hst
    exact storeOk_added h (Nat.le_add_right _ _) ha
  | delete pevt =>
    cases hst
    exact storeOk_deleted h (fmdCaseFindAndDelete_cases h.addrs pevt)
  | finish pCase =>
    cases hst
    exact storeOk_atomicDec pCase h
  | alloc n =>
    cases hst
    exact h.mono (Nat.le_add_right _ _)

/-! ## Runs of the store -/

theorem inserted_concat (dev : Device) (as : List CaseAct) (act : CaseAct) :
    inserted dev (as ++ [act]) = inserted dev as + if act.Inserts dev then 1 else 0 := by
  simp [inserted, List.countP_append, List.countP_singleton]

theorem Intact.of_concat {esc : FmdEsc} {k : ℕ} {before rest : List CaseAct} {act : CaseAct}
    (h : Intact esc k before (rest ++ [act])) : Intact esc k before rest :=
  fun mid a s s' hp => h mid a s s' (hp.trans (List.prefix_append rest [act]))

/-- A case with its history: the operations since it was created, with what they add up to. -/
def HasHistory (esc : FmdEsc) (pre : List CaseAct) (c : FmdCase) : Prop :=
  ∃ before rest, pre = before ++ rest ∧ Since (caseStep esc) (Listed c.addr) {} before rest ∧
    c.csTotalCount = inserted c.device rest ∧
    (Intact esc c.addr before rest → c.csTotalCount = c.evCounts)

theorem hasHistory_step {esc : FmdEsc} {pre : List CaseAct} {act : CaseAct} {s s' : CaseStore}
    (he : exec (caseStep esc) pre {} = some s) (h : s.Ok)
    (hh : ∀ c ∈ s.listCase, HasHistory esc pre c) (hst : caseStep esc act s = some s')
    {c' : FmdCase} (hc' : c' ∈ s'.listCase) : HasHistory esc (pre ++ [act]) c' := by
  have he' : exec (caseStep esc) (pre ++ [act]) {} = some s' := by rw [exec_concat _ he, hst]
  have hlisted : Listed c'.addr s' := ⟨c', hc', rfl⟩
  -- a case that was listed before has been there since
  have hold {c : FmdCase} (ha : c.addr = c'.addr) {before rest : List CaseAct}
      (hpre : pre = before ++ rest)
      (hs : Since (caseStep esc) (Listed c.addr) {} before rest) :
      pre ++ [act] = before ++ (rest ++ [act]) ∧
        Since (caseStep esc) (Listed c'.addr) {} before (rest ++ [act]) := by
    subst hpre
    exact ⟨List.append_assoc .., (ha ▸ hs).concat he' hlisted⟩
  cases caseFrom_step h hst hc' with
  | kept c hc ha hd ht hev ho =>
    obtain ⟨before, rest, hpre, hs, htot, hsum⟩ := hh c hc
    obtain ⟨hpre', hs'⟩ := hold ha hpre hs
    refine ⟨before, rest ++ [act], hpre', hs', ?_, fun hi => ?_⟩
    · rw [ht, htot, inserted_concat, if_neg ho, hd, add_zero]
    · rw [ht, hsum (ha ▸ hi.of_concat), FmdCase.evCounts, FmdCase.evCounts, hev]
  | erased c hc ha hd ht e hmem hgone ho =>
    obtain ⟨before, rest, hpre, hs, htot, -⟩ := hh c hc
    obtain ⟨hpre', hs'⟩ := hold ha hpre hs
    refine ⟨before, rest ++ [act], hpre', hs', ?_, fun hi => ?_⟩
    · rw [ht, htot, inserted_concat, if_neg ho, hd, add_zero]
    · refine absurd ⟨c, hc, ha, e, hmem, fun x hx hxa => ?_⟩
        (hi rest act s s' List.prefix_rfl (hpre ▸ he) hst)
      rw [(caseOk_step h hst).addr_unique hx hc' hxa]
      exact hgone
  | added c hc ha hd ht hcnt ho =>
    obtain ⟨before, rest, hpre, hs, htot, hsum⟩ := hh c hc
    obtain ⟨hpre', hs'⟩ := hold ha hpre hs
    refine ⟨before, rest ++ [act], hpre', hs', ?_, fun hi => ?_⟩
    · rw [ht, htot, inserted_concat, if_pos ho, hd]
      push_cast
      rfl
    · rw [ht, hcnt, hsum (ha ▸ hi.of_concat)]
  | created hnew ht hcnt ho =>
    refine ⟨pre, [act], rfl, since_singleton he hnew hst hlisted, ?_, fun _ => ?_⟩
    · rw [ht, ← List.nil_append [act], inserted_concat, if_pos ho]
      rfl
    · rw [ht, hcnt]

theorem caseStore_run_ok (esc : FmdEsc) (as : List CaseAct) :
    ∀ pre (s : CaseStore), pre <+: as → exec (caseStep esc) pre {} = some s →
      s.Ok ∧ ∀ c ∈ s.listCase, HasHistory esc pre c := by
  refine exec_induction (M := fun pre (s : CaseStore) => s.Ok ∧ ∀ c ∈ s.listCase, HasHistory esc pre c)
    ⟨storeOk_boot esc, fun _ h => absurd h List.not_mem_nil⟩ fun pre act s s' _ he hM hst => ?_
  exact ⟨caseOk_step hM.1 hst, fun c hc => hasHistory_step he hM.1 hM.2 hst hc⟩

/-- A map of maps with counters: what the store is after the operations `as`. -/
structure StoreMap (esc : FmdEsc) (as : List CaseAct) (s : CaseStore) : Prop where
  devices : (s.listCase.map FmdCase.device).Nodup
  evtIds : ∀ c ∈ s.listCase, (c.csEvent.map FmdEvent.evtId).Nodup
  own : ∀ c ∈ s.listCase, ∀ e ∈ c.csEvent, e.device = c.device
  created : ∀ c ∈ s.listCase, ∃ before rest, as = before ++ rest ∧
    Since (caseStep esc) (Listed c.addr) {} before rest
  total : ∀ c ∈ s.listCase, ∀ before rest, as = before ++ rest →
    Since (caseStep esc) (Listed c.addr) {} before rest → c.csTotalCount = inserted c.device rest
  sum : ∀ c ∈ s.listCase, ∀ before rest, as = before ++ rest →
    Since (caseStep esc) (Listed c.addr) {} before rest → Intact esc c.addr before rest →
      c.csTotalCount = c.evCounts

/-- **The case store is a map of maps**: after any sequence of insertions, deletions and decrements. -/
theorem caseStore_map (esc : FmdEsc) (as : List CaseAct) (s : CaseStore)
    (h : exec (caseStep esc) as {} = some s) : StoreMap esc as s := by
  obtain ⟨hok, hh⟩ := caseStore_run_ok esc as as s List.prefix_rfl h
  refine ⟨hok.devices, fun c hc => (hok.cases c hc).evtIds, fun c hc => (hok.cases c hc).devices,
    fun c hc => ?_, fun c hc before rest hb hs => ?_, fun c hc before rest hb hs hi => ?_⟩
  · obtain ⟨before, rest, hb, hs, -⟩ := hh c hc
    exact ⟨before, rest, hb, hs⟩
  · obtain ⟨before', rest', hb', hs', htot, -⟩ := hh c hc
    rw [(hs.unique hs' (hb.symm.trans hb')).2]
    exact htot
  · obtain ⟨before', rest', hb', hs', -, hsum⟩ := hh c hc
    obtain ⟨rfl, rfl⟩ := hs.unique hs' (hb.symm.trans hb')
    exact hsum hi

/-- Two ereports of one disk with one `evt_id`: one case, one event, both counters at 2. -/
theorem caseStore_map_two :
    let nvl : Nvlist := ⟨"/dev/sdb".toList, 0, "ereport.disk.badblocks".toList, 0, true⟩
    let as : List CaseAct := [.insert nvl 0 (.still 0), .insert nvl 1 (.still 1)]
    ∃ s, exec (caseStep {}) as {} = some s ∧ s.listCase.map FmdCase.csTotalCount = [2] ∧
      s.listCase.map FmdCase.evCounts = [2] ∧ StoreMap {} as s :=
  ⟨_, rfl, by decide, by decide, caseStore_map {} _ _ rfl⟩

/-! ## The store of the daemon -/

/-- The case store of the daemon. -/
def Daemon.caseStore (d : Daemon) : CaseStore := ⟨d.listCase, d.next⟩

theorem queueDeleteEntry_listCase (now : ℤ) (lc : List FmdCase) (pevt : FmdEvent) :
    (queueDeleteEntry now lc pevt).listCase = lc ∨
      (queueDeleteEntry now lc pevt).listCase = (fmdCaseFindAndDelete pevt lc).1 := by
  generalize hr : queueDeleteEntry now lc pevt = r
  cases hr ▸ queueDeleteEntry_cases now lc pevt with
  | skipped _ => exact .inl rfl
  | released _ _ => exact .inr rfl
  | failed _ _ => exact .inr rfl
  | isolated _ => exact .inr rfl
  | removed _ _ => exact .inr rfl

theorem fmdProcEvent_caseStore (nvl : Nvlist) (now : ℤ) (clk : Clock) (d : Daemon) :
    ∃ as, exec (caseStep d.esc) as d.caseStore = some (fmdProcEvent nvl now clk d).caseStore := by
  unfold fmdProcEvent
  cases he : eventDispDest (fmdCreateEreport d.next (d.next + 1) now nvl) with
  | none => exact ⟨[.alloc 4], rfl⟩
  | some evt =>
    obtain ⟨-, rfl⟩ := eventDispDest_some he
    exact ⟨[.insert nvl now clk], rfl⟩

/-- Every step of the daemon is a sequence of operations on its case store. -/
theorem step_caseStore {act : Act} {d d' : Daemon} (hst : step act d = some d') :
    ∃ as, exec (caseStep d.esc) as d.caseStore = some d'.caseStore := by
  have hnone (h : d'.caseStore = d.caseStore) :
      ∃ as, exec (caseStep d.esc) as d.caseStore = some d'.caseStore := ⟨[], by rw [h]; rfl⟩
  cases step_cases hst with
  | lost _ _ => exact ⟨[.alloc 4], rfl⟩
  | @inserted nvl now clk lc r idle _ _ =>
    have hproc : step (.ereport nvl now clk) d = some (fmdProcEvent nvl now clk d) := by
      simp only [step, queueStep, idle]
    rw [hst] at hproc
    rw [Option.some.inj hproc]
    exact fmdProcEvent_caseStore nvl now clk d
  | @sweepEntry now seen pevt rest _ _ =>
    rcases queueDeleteEntry_listCase now d.listCase pevt with he | he
    · exact hnone (by rw [Daemon.caseStore, sweepEntry, he]; rfl)
    · exact ⟨[.delete pevt], by rw [Daemon.caseStore, sweepEntry, he]; rfl⟩
  | handle _ _ _ => exact ⟨[.alloc 1], rfl⟩
  | @finish l₁ a l₂ evt r _ _ =>
    by_cases hf : evt.evFlag ≠ .agentTodo
    · exact ⟨[.finish evt.pCase], by rw [Daemon.caseStore, if_pos hf]; rfl⟩
    · exact hnone (by rw [Daemon.caseStore, if_neg hf]; rfl)
  | _ => exact hnone rfl

/-- The case store of the daemon is reached by operations on the store alone. -/
theorem caseStore_run (esc : FmdEsc) (as : List Act) : Always step
    (fun d => d.esc = esc ∧ ∃ cas, exec (caseStep esc) cas {} = some d.caseStore) as
    (Daemon.boot esc) := by
  refine exec_invariant (fun act d d' ⟨hesc, cas, hcas⟩ hst => ?_) as ⟨rfl, [], rfl⟩
  obtain ⟨cas', hcas'⟩ := step_caseStore hst
  refine ⟨(step_esc (step_cases hst)).trans hesc, cas ++ cas', ?_⟩
  rw [exec_append, hcas, Option.bind_some, ← hesc]
  exact hcas'

end Fms
