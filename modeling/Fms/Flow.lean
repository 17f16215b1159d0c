import Fms.Store

/-!
# Where events come from

Events move from the queue thread through the rings into the hands of the agents, results from there
to the repaired list. Each lemma here says where an event that is somewhere after a step was before.

* `StoredFrom`, **`stored_step`**: the events in the cases, and `listCase_step` for the cases;
* `InflightFrom`, **`inflight_step`**: the events in flight;
* `PendingFrom`, **`pending_step`**: the results in the hands of the agents;
* `EntryFrom`, **`repairedList_step`**: the entries of the repaired list.
-/

namespace Fms

open Keyed

theorem mem_inflight {d : Daemon} {e : FmdEvent} :
    e ∈ d.inflight ↔ e ∈ d.queue.events ∨ ∃ a ∈ d.agents, e ∈ a.events := by
  rw [Daemon.inflight, List.mem_append, List.mem_flatMap]

theorem mem_pending {d : Daemon} {e : FmdEvent} :
    e ∈ d.pending ↔ ∃ a ∈ d.agents, e ∈ a.results := by
  rw [Daemon.pending, List.mem_flatMap]

theorem mem_repairedList {d : Daemon} {e : FmdEvent} :
    e ∈ d.repairedList ↔ e ∈ d.queue.seen ∨ e ∈ d.repaired := by
  rw [Daemon.repairedList, List.mem_append]

theorem puts_events {q q' : QueuePc} {evt : FmdEvent} (h : q.puts = some (evt, q')) :
    q.events = evt :: q'.events := by
  cases q <;> simp only [QueuePc.puts, reduceCtorEq, Option.some.injEq, Prod.mk.injEq] at h <;>
    obtain ⟨rfl, rfl⟩ := h <;> rfl

theorem puts_seen {q q' : QueuePc} {evt : FmdEvent} (h : q.puts = some (evt, q')) :
    q.seen = [] ∧ q'.seen = [] := by
  cases q <;> simp only [QueuePc.puts, reduceCtorEq, Option.some.injEq, Prod.mk.injEq] at h <;>
    obtain ⟨rfl, rfl⟩ := h <;> exact ⟨rfl, rfl⟩

theorem mem_added_events {r : Added} {e : FmdEvent} (h : e ∈ r.queue.events) :
    e = r.pevt ∨ r.pfault = some e := by
  unfold Added.queue at h
  cases hf : r.pfault with
  | none => exact .inl (by simpa [hf] using h)
  | some f =>
    simp only [hf, QueuePc.events, List.mem_cons, List.not_mem_nil, or_false] at h
    exact h.elim (fun h => .inr (by rw [h])) .inl

theorem added_seen (r : Added) : r.queue.seen = [] := by
  unfold Added.queue
  cases r.pfault <;> rfl

/-! ## Cases and stored events -/

/-- An event in a case of a device after a step was in a case of the device before, perhaps without
the last hit, or it is the ereport of an insertion. -/
inductive StoredFrom (d : Daemon) (dev : Device) : Act → FmdEvent → Prop
  | old {act : Act} {e : FmdEvent} (c : FmdCase) (hc : c ∈ d.listCase) (he : e ∈ c.csEvent)
      (hd : c.device = dev) : StoredFrom d dev act e
  | counted {nvl : Nvlist} {now : ℤ} {clk : Clock} {e : FmdEvent} (c : FmdCase)
      (hc : c ∈ d.listCase) (he : e ∈ c.csEvent) (hd : c.device = dev) (hn : nvl.device = dev)
      (hid : e.evtId = nvl.evtId) (ereport : "ereport.".toList <+: nvl.value) :
      StoredFrom d dev (.ereport nvl now clk) (countHit (dispatched d nvl now) e)
  | stored {nvl : Nvlist} {now : ℤ} {clk : Clock} (c : FmdCase) (hn : nvl.device = dev)
      (new : ∀ c' ∈ d.listCase, c'.device = dev → ∀ e ∈ c'.csEvent, e.evtId ≠ nvl.evtId)
      (ereport : "ereport.".toList <+: nvl.value) :
      StoredFrom d dev (.ereport nvl now clk) (storedEvent clk c (dispatched d nvl now))

/-- The cases keep their names and devices; a new case has a new name. -/
theorem listCase_step {act : Act} {d d' : Daemon} {c' : FmdCase} (h : d.StoreOk)
    (hst : Step d act d') (hc' : c' ∈ d'.listCase) :
    (∃ c ∈ d.listCase, c.addr = c'.addr ∧ c.device = c'.device) ∨ ∃ nvl now clk,
      act = .ereport nvl now clk ∧ c'.addr = d.next + 3 ∧ c'.device = nvl.device := by
  cases hst with
  | inserted _ _ ha =>
    cases ha with
    | found l₁ c l₂ hs _ _ =>
      rcases mem_of_replace hs hc' with rfl | hc'
      · obtain ⟨haddr, hdev, -⟩ := fmdEventAdd_pcase _ _ c _
        exact .inl ⟨c, mem_of_split hs, haddr.symm, hdev.symm⟩
      · exact .inl ⟨c', hc', rfl, rfl⟩
    | created _ =>
      rcases List.mem_cons.mp hc' with rfl | hc'
      · obtain ⟨haddr, hdev, -⟩ := fmdEventAdd_pcase _ _ _ _
        exact .inr ⟨_, _, _, rfl, haddr, hdev.trans (dispatched_device ..)⟩
      · exact .inl ⟨c', hc', rfl, rfl⟩
  | @sweepEntry now seen pevt rest _ _ =>
    change c' ∈ (queueDeleteEntry now d.listCase pevt).listCase at hc'
    rcases queueDeleteEntry_deleted h now pevt with he | ⟨hd, he⟩
    · exact .inl ⟨c', he ▸ hc', rfl, rfl⟩
    · rw [he] at hc'
      cases hd' : fmdCaseFindAndDelete pevt d.listCase with
      | mk lc ret =>
        rw [hd'] at hd hc'
        cases hd with
        | case l₁ c l₂ hs _ _ _ =>
          refine .inl ⟨c', ?_, rfl, rfl⟩
          rw [hs]
          exact mem_middle.mpr (.inr hc')
        | event l₁ c l₂ hs _ _ _ _ =>
          rcases mem_of_replace hs hc' with rfl | hc'
          · exact .inl ⟨c, mem_of_split hs, rfl, rfl⟩
          · exact .inl ⟨c', hc', rfl, rfl⟩
        | nothing _ => exact .inl ⟨c', hc', rfl, rfl⟩
  | @finish l₁ a l₂ evt r _ _ =>
    simp only at hc'
    split_ifs at hc'
    · rcases atomicDec_cases evt.pCase d.listCase with ⟨he, -⟩ | ⟨m₁, c, m₂, hm, -, he⟩
      · exact .inl ⟨c', he ▸ hc', rfl, rfl⟩
      · rcases mem_of_replace hm (he ▸ hc') with rfl | hc'
        · exact .inl ⟨c, mem_of_split hm, rfl, rfl⟩
        · exact .inl ⟨c', hc', rfl, rfl⟩
    · exact .inl ⟨c', hc', rfl, rfl⟩
  | _ => exact .inl ⟨c', hc', rfl, rfl⟩

theorem stored_added {clk : Clock} {addr : ℕ} {c : FmdCase} {pevt e : FmdEvent}
    (he : e ∈ (fmdEventAdd clk addr c pevt).pcase.csEvent) :
    e ∈ c.csEvent ∨ (∃ x ∈ c.csEvent, x.evtId = pevt.evtId ∧ e = countHit pevt x) ∨
      (e = storedEvent clk c pevt ∧ ∀ x ∈ c.csEvent, x.evtId ≠ pevt.evtId) := by
  cases fmdEventAdd_cases clk addr c pevt with
  | hit l₁ x l₂ _ hs hid _ hev _ _ =>
    rw [hev] at he
    rcases mem_of_replace hs he with rfl | he
    · exact .inr (.inl ⟨x, mem_of_split hs, hid, rfl⟩)
    · exact .inl he
  | stored _ hnew hev _ _ =>
    rw [hev] at he
    rcases List.mem_cons.mp he with rfl | he
    · exact .inr (.inr ⟨rfl, hnew⟩)
    · exact .inl he

theorem stored_step {act : Act} {d d' : Daemon} {c' : FmdCase} {e : FmdEvent} (h : d.StoreOk)
    (hst : Step d act d') (hc' : c' ∈ d'.listCase) (he : e ∈ c'.csEvent) :
    StoredFrom d c'.device act e := by
  cases hst with
  | @inserted nvl now clk lc r _ hrep ha =>
    cases ha with
    | found l₁ c l₂ hs hd _ =>
      have hc := mem_of_split hs
      rcases mem_of_replace hs hc' with rfl | hc'
      · have hdev := (fmdEventAdd_pcase clk (d.next + 2) c (dispatched d nvl now)).2.1
        have hn : nvl.device = c.device := (hd.trans (dispatched_device ..)).symm
        rw [hdev]
        rcases stored_added he with he | ⟨x, hx, hid, rfl⟩ | ⟨rfl, hnew⟩
        · exact .old c hc he rfl
        · exact .counted c hc hx rfl hn (hid.trans (dispatched_evtId ..)) hrep
        · refine .stored c hn (fun c₁ hc₁ hd₁ x hx => ?_) hrep
          rw [← dispatched_evtId d nvl now]
          exact hnew x (h.case_unique hc₁ hc hd₁ ▸ hx)
      · exact .old c' hc' he rfl
    | created hf =>
      rcases List.mem_cons.mp hc' with rfl | hc'
      · have hdev := (fmdEventAdd_pcase clk (d.next + 2)
          (fmdCaseCreate clk (d.next + 3) (dispatched d nvl now)) (dispatched d nvl now)).2.1
        have hn : nvl.device = (fmdCaseCreate clk (d.next + 3) (dispatched d nvl now)).device :=
          (dispatched_device d nvl now).symm
        rw [hdev]
        rcases stored_added he with he | ⟨x, hx, -, rfl⟩ | ⟨rfl, -⟩
        · exact absurd he List.not_mem_nil
        · exact absurd hx List.not_mem_nil
        · exact .stored _ hn (fun c₁ hc₁ hd₁ => absurd hd₁ (hf c₁ hc₁)) hrep
      · exact .old c' hc' he rfl
  | @sweepEntry now seen pevt rest _ _ =>
    change c' ∈ (queueDeleteEntry now d.listCase pevt).listCase at hc'
    rcases queueDeleteEntry_deleted h now pevt with heq | ⟨hd, heq⟩
    · exact .old c' (heq ▸ hc') he rfl
    · rw [heq] at hc'
      cases hd' : fmdCaseFindAndDelete pevt d.listCase with
      | mk lc ret =>
        rw [hd'] at hd hc'
        cases hd with
        | case l₁ c l₂ hs _ _ _ =>
          refine .old c' ?_ he rfl
          rw [hs]
          exact mem_middle.mpr (.inr hc')
        | event l₁ c l₂ hs _ _ _ _ =>
          rcases mem_of_replace hs hc' with rfl | hc'
          · exact .old c (mem_of_split hs) (List.mem_of_mem_eraseP he) rfl
          · exact .old c' hc' he rfl
        | nothing _ => exact .old c' hc' he rfl
  | @finish l₁ a l₂ evt r _ _ =>
    simp only at hc'
    split_ifs at hc'
    · rcases atomicDec_cases evt.pCase d.listCase with ⟨heq, -⟩ | ⟨m₁, c, m₂, hm, -, heq⟩
      · exact .old c' (heq ▸ hc') he rfl
      · rcases mem_of_replace hm (heq ▸ hc') with rfl | hc'
        · exact .old c (mem_of_split hm) he rfl
        · exact .old c' hc' he rfl
    · exact .old c' hc' he rfl
  | _ => exact .old c' hc' he rfl

/-! ## Events in flight -/

/-- An event in flight after a step was in flight before, perhaps without the marks of its handler,
or it is the ereport or the fault of an insertion. -/
inductive InflightFrom (d : Daemon) : Act → FmdEvent → Prop
  | old {act : Act} {e : FmdEvent} (h : e ∈ d.inflight) : InflightFrom d act e
  | marked {act : Act} {e : FmdEvent} (mode : HandleMode) (h : e ∈ d.inflight) :
      InflightFrom d act (markHandled mode e)
  | report {nvl : Nvlist} {now : ℤ} {clk : Clock} (c : FmdCase) (hd : c.device = nvl.device)
      (hc : c ∈ d.listCase ∨ c.addr = d.next + 3) :
      InflightFrom d (.ereport nvl now clk)
        (fmdEventAdd clk (d.next + 2) c (dispatched d nvl now)).pevt
  | fault {nvl : Nvlist} {now : ℤ} {clk : Clock} {f : FmdEvent} (c : FmdCase)
      (h : (fmdEventAdd clk (d.next + 2) c (dispatched d nvl now)).pfault = some f) :
      InflightFrom d (.ereport nvl now clk) f

theorem inflight_agent {d d' : Daemon} {act : Act} {l₁ l₂ : List Agent} {a a' : Agent}
    {e : FmdEvent} (he : e ∈ d'.inflight) (hs : d.agents = l₁ ++ a :: l₂)
    (hs' : d'.agents = l₁ ++ a' :: l₂) (hq : ∀ x ∈ d'.queue.events, x ∈ d.inflight)
    (ha : e ∈ a'.events → InflightFrom d act e) : InflightFrom d act e := by
  rcases mem_inflight.mp he with he | ⟨x, hx, he⟩
  · exact .old (hq e he)
  · rcases mem_of_replace hs (hs' ▸ hx) with rfl | hx
    · exact ha he
    · exact .old (mem_inflight.mpr (.inr ⟨x, hx, he⟩))

theorem inflight_step {act : Act} {d d' : Daemon} {e : FmdEvent} (hst : Step d act d')
    (he : e ∈ d'.inflight) : InflightFrom d act e := by
  have hqueue {x : FmdEvent} (hx : x ∈ d.queue.events) : x ∈ d.inflight :=
    mem_inflight.mpr (.inl hx)
  have hold {a : Agent} {l₁ l₂ : List Agent} {x : FmdEvent} (hs : d.agents = l₁ ++ a :: l₂)
      (hx : x ∈ a.events) : x ∈ d.inflight := mem_inflight.mpr (.inr ⟨a, mem_of_split hs, hx⟩)
  cases hst with
  | lost _ _ => exact .old he
  | inserted _ _ ha =>
    rcases mem_inflight.mp he with he | he
    · cases ha with
      | found l₁ c l₂ hs hd _ =>
        rcases mem_added_events he with rfl | hf
        · exact .report c (hd.trans (dispatched_device ..)) (.inl (mem_of_split hs))
        · exact .fault c hf
      | created _ =>
        rcases mem_added_events he with rfl | hf
        · exact .report _ (dispatched_device ..) (.inr rfl)
        · exact .fault _ hf
    · exact .old (mem_inflight.mpr (.inr he))
  | put hputs hr =>
    have hev := puts_events hputs
    rename_i evt queue agents
    have hrest {x : FmdEvent} (hx : x ∈ queue.events) : x ∈ d.inflight :=
      hqueue (hev ▸ List.mem_cons_of_mem _ hx)
    cases hr with
    | delivered l₁ a l₂ hs _ _ =>
      refine inflight_agent he hs rfl (fun x hx => hrest hx) (fun hx => ?_)
      simp only [Agent.events, List.append_assoc, List.singleton_append, List.mem_append,
        List.mem_cons] at hx
      rcases hx with hx | rfl | hx
      · exact .old (hold hs (List.mem_append_left _ hx))
      · exact .old (hqueue (by rw [hev]; exact List.mem_cons_self))
      · exact .old (hold hs (List.mem_append_right _ hx))
    | dropped _ =>
      rcases mem_inflight.mp he with he | he
      · exact .old (hrest he)
      · exact .old (mem_inflight.mpr (.inr he))
  | sweepBegin _ => exact .old (mem_inflight.mpr (.inr (by simpa [mem_inflight] using he)))
  | sweepEntry _ _ =>
    exact .old (mem_inflight.mpr (.inr (by simpa [mem_inflight, sweepEntry] using he)))
  | sweepEnd _ _ => exact .old (mem_inflight.mpr (.inr (by simpa [mem_inflight] using he)))
  | take hs _ hpc hring =>
    refine inflight_agent he hs rfl (fun x hx => hqueue hx) (fun hx => ?_)
    refine .old (hold hs ?_)
    simp only [Agent.events, hring, AgentPc.events, List.mem_append, List.mem_cons,
      List.not_mem_nil, or_false] at hx ⊢
    tauto
  | handle hs hpc _ =>
    refine inflight_agent he hs rfl (fun x hx => hqueue hx) (fun hx => ?_)
    rcases List.mem_append.mp hx with hx | hx
    · exact .old (hold hs (List.mem_append_left _ hx))
    · rw [AgentPc.events, List.mem_singleton] at hx
      rw [hx]
      exact .marked _ (hold hs (List.mem_append_right _ (by simp [hpc])))
  | @finish l₁ a l₂ evt r hs hpc =>
    refine inflight_agent he hs rfl (fun x hx => hqueue hx) (fun hx => ?_)
    refine .old (hold hs (List.mem_append_left _ ?_))
    cases r <;> simpa [Agent.events] using hx
  | result hs _ _ _ =>
    refine inflight_agent he hs rfl (fun x hx => hqueue hx) (fun hx => ?_)
    exact .old (hold hs (List.mem_append_left _ (by simpa [Agent.events] using hx)))
  | load =>
    rcases mem_inflight.mp he with he | ⟨x, hx, he⟩
    · exact .old (hqueue he)
    · rcases List.mem_cons.mp hx with rfl | hx
      · exact absurd he (by simp [Agent.events])
      · exact .old (mem_inflight.mpr (.inr ⟨x, hx, he⟩))
  | unload hs _ =>
    refine inflight_agent he hs rfl (fun x hx => hqueue hx) (fun hx => ?_)
    exact .old (hold hs (List.mem_append_right _ (by simpa [Agent.events] using hx)))
  | config hs _ => exact inflight_agent he hs rfl (fun x hx => hqueue hx) (fun hx => .old (hold hs hx))

/-! ## Results -/

/-- A result in the hands of an agent was there before, or its handler has just made it. -/
inductive PendingFrom (d : Daemon) : FmdEvent → Prop
  | old {r : FmdEvent} (h : r ∈ d.pending) : PendingFrom d r
  | made {r : FmdEvent} (a : Agent) (evt : FmdEvent) (env : HandleEnv) (now : ℤ)
      (ha : a ∈ d.agents) (pc : a.pc = .handling evt)
      (ret : a.ops.evtHandle env d.next now { evt with handleMode := a.evtHandleMode } =
        some (some r)) : PendingFrom d r

theorem pending_agent {d d' : Daemon} {l₁ l₂ : List Agent} {a a' : Agent} {r : FmdEvent}
    (he : r ∈ d'.pending) (hs : d.agents = l₁ ++ a :: l₂) (hs' : d'.agents = l₁ ++ a' :: l₂)
    (ha : r ∈ a'.results → PendingFrom d r) : PendingFrom d r := by
  obtain ⟨x, hx, he⟩ := mem_pending.mp he
  rcases mem_of_replace hs (hs' ▸ hx) with rfl | hx
  · exact ha he
  · exact .old (mem_pending.mpr ⟨x, hx, he⟩)

theorem pending_step {act : Act} {d d' : Daemon} {r : FmdEvent} (hst : Step d act d')
    (hr : r ∈ d'.pending) : PendingFrom d r := by
  have hold {a : Agent} {l₁ l₂ : List Agent} {x : FmdEvent} (hs : d.agents = l₁ ++ a :: l₂)
      (hx : x ∈ a.results) : PendingFrom d x := .old (mem_pending.mpr ⟨a, mem_of_split hs, hx⟩)
  cases hst with
  | put _ hro =>
    cases hro with
    | delivered l₁ a l₂ hs _ _ => exact pending_agent hr hs rfl (fun hx => hold hs hx)
    | dropped _ => exact .old hr
  | take hs _ hpc _ => exact pending_agent hr hs rfl (fun hx => by simp [Agent.results] at hx)
  | @handle l₁ a l₂ evt ret env now hs hpc hret =>
    refine pending_agent hr hs rfl (fun hx => ?_)
    cases ret with
    | none => simp [Agent.results] at hx
    | some r' =>
      have he : r = r' := by simpa [Agent.results] using hx
      exact .made a evt env now (mem_of_split hs) hpc (he ▸ hret)
  | @finish l₁ a l₂ evt ret hs hpc =>
    refine pending_agent hr hs rfl (fun hx => hold hs ?_)
    cases ret with
    | none => simp [Agent.results] at hx
    | some r' => simpa [Agent.results, hpc] using hx
  | result hs hpc _ _ => exact pending_agent hr hs rfl (fun hx => by simp [Agent.results] at hx)
  | load =>
    obtain ⟨x, hx, he⟩ := mem_pending.mp hr
    rcases List.mem_cons.mp hx with rfl | hx
    · exact absurd he (by simp [Agent.results])
    · exact .old (mem_pending.mpr ⟨x, hx, he⟩)
  | unload hs _ => exact pending_agent hr hs rfl (fun hx => hold hs hx)
  | config hs _ => exact pending_agent hr hs rfl (fun hx => hold hs hx)
  | lost _ _ => exact .old hr
  | inserted _ _ _ => exact .old hr
  | sweepBegin _ => exact .old hr
  | sweepEntry _ _ => exact .old hr
  | sweepEnd _ _ => exact .old hr

/-! ## Entries -/

/-- An entry of the repaired list was there before, perhaps with older times and counts, or it is the
result an agent has just put. -/
inductive EntryFrom (d : Daemon) : FmdEvent → Prop
  | old {e : FmdEvent} (h : e ∈ d.repairedList) : EntryFrom d e
  | merged {r e : FmdEvent} (h : e ∈ d.repairedList) : EntryFrom d (mergeResult r e)
  | put {r : FmdEvent} (a : Agent) (ha : a ∈ d.agents) (pc : a.pc = .putting r) :
      EntryFrom d { r with evCount := 1 }

theorem repairedList_step {act : Act} {d d' : Daemon} {e : FmdEvent} (hst : Step d act d')
    (he : e ∈ d'.repairedList) : EntryFrom d e := by
  cases hst with
  | inserted idle _ ha =>
    rw [mem_repairedList] at he
    rcases he with he | he
    · simp only [added_seen, List.not_mem_nil] at he
    · exact .old (mem_repairedList.mpr (.inr he))
  | put hputs hro =>
    rw [mem_repairedList] at he
    rcases he with he | he
    · simp only [(puts_seen hputs).2, List.not_mem_nil] at he
    · exact .old (mem_repairedList.mpr (.inr he))
  | sweepBegin idle => exact .old (mem_repairedList.mpr (.inr (by simpa [mem_repairedList] using he)))
  | @sweepEntry now seen pevt rest hq hr =>
    refine .old ?_
    rw [mem_repairedList] at he ⊢
    rw [hq, hr]
    rcases he with he | he
    · simp only [sweepEntry, QueuePc.seen] at he
      split_ifs at he
      · rcases List.mem_append.mp he with he | he
        · exact .inl he
        · exact .inr (List.mem_singleton.mp he ▸ List.mem_cons_self)
      · exact .inl he
    · exact .inr (List.mem_cons_of_mem _ he)
  | sweepEnd hq hr =>
    refine .old (mem_repairedList.mpr (.inl ?_))
    rw [hq]
    simpa [mem_repairedList] using he
  | @result l₁ a l₂ r repaired hs hpc hq hput =>
    rw [mem_repairedList] at he
    rcases he with he | he
    · exact .old (mem_repairedList.mpr (.inl he))
    · cases hput with
      | merged m₁ p m₂ hm hsame =>
        have hmem {x : FmdEvent} (hx : x ∈ m₁ ++ p :: m₂) : x ∈ d.repairedList :=
          mem_repairedList.mpr (.inr (hm ▸ hx))
        rcases List.mem_append.mp he with he | he
        · exact .old (hmem (List.mem_append_left _ he))
        · rcases List.mem_cons.mp he with rfl | he
          · exact .merged (hmem (mem_of_split rfl))
          · exact .old (hmem (List.mem_append_right _ (List.mem_cons_of_mem _ he)))
      | appended _ =>
        rcases List.mem_append.mp he with he | he
        · exact .old (mem_repairedList.mpr (.inr he))
        · rw [List.mem_singleton.mp he]
          exact .put a (mem_of_split hs) hpc
  | lost _ _ => exact .old he
  | take _ _ _ _ => exact .old he
  | handle _ _ _ => exact .old he
  | finish _ _ => exact .old he
  | load => exact .old he
  | unload _ _ => exact .old he
  | config _ _ => exact .old he

end Fms
