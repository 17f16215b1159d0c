import Fms.Payload

/-!
# What a deletion releases

`fmd_case_find_and_delete` gives cases and event records to `free`. The guard on `m_event_using` is
all that keeps it from a case that an agent still has an ereport of, or from that ereport.

* `released`: the blocks a deletion frees, and `released_perm`: those that leave the case list;
* `NamesOk`: a record that is both stored and in flight is an ereport of the device of its case;
* **`releaseSafe_run`**: in every run, a deletion frees nothing that is in flight, and an agent only
  decrements the counter of a listed case.
-/

namespace Fms

open Keyed Run ListHead

/-- What `fmd_case_find_and_delete` gives to `free`, by name: the cases and the event records. -/
structure Released where
  cases : List ℕ := []
  events : List ℕ := []
  deriving DecidableEq, Repr

/-- The calls of `def_free` in `fmd_case_find_and_delete`, from the case at the front of the list on;
`ring` are the cases linked in `fmd.list_case`. -/
def releasedFrom (ring : List ℕ) (pevt : FmdEvent) : List FmdCase → Released
  | [] => {}
  | pcase :: rest =>
    if 0 < pcase.mEventUsing then releasedFrom ring pevt rest
    else if sameDevice pevt pcase then
      if pevt.agentResult = .isolatedSuccess then
        { cases := [pcase.addr], events := pcase.csEvent.map FmdEvent.addr }
      else
        match pcase.csEvent.find? (sameEvtId pevt) with
        | some pEvent =>
          { cases := if listEmpty ring (.entry pcase.addr) then [pcase.addr] else []
            events := [pEvent.addr] }
        | none => releasedFrom ring pevt rest
    else releasedFrom ring pevt rest

/-- The blocks `fmd_case_find_and_delete` frees. -/
def released (pevt : FmdEvent) (listCase : List FmdCase) : Released :=
  releasedFrom (listCase.map FmdCase.addr) pevt listCase

/-- The event records of a case list. -/
def recordNames (listCase : List FmdCase) : List ℕ :=
  listCase.flatMap fun c => c.csEvent.map FmdEvent.addr

/-- A deletion frees only an idle case, or records of an idle case. -/
theorem releasedFrom_idle (ring : List ℕ) (pevt : FmdEvent) (listCase : List FmdCase) :
    (∀ k ∈ (releasedFrom ring pevt listCase).cases,
      ∃ c ∈ listCase, c.mEventUsing ≤ 0 ∧ c.addr = k) ∧
    ∀ k ∈ (releasedFrom ring pevt listCase).events,
      ∃ c ∈ listCase, c.mEventUsing ≤ 0 ∧ ∃ e ∈ c.csEvent, e.addr = k := by
  induction listCase with
  | nil => simp [releasedFrom]
  | cons c rest ih =>
    -- what the search frees further down is of a case further down
    have pass : (∀ k ∈ (releasedFrom ring pevt rest).cases,
        ∃ x ∈ c :: rest, x.mEventUsing ≤ 0 ∧ x.addr = k) ∧
        ∀ k ∈ (releasedFrom ring pevt rest).events,
          ∃ x ∈ c :: rest, x.mEventUsing ≤ 0 ∧ ∃ e ∈ x.csEvent, e.addr = k :=
      ⟨fun k hk => (ih.1 k hk).imp fun _ hx => ⟨List.mem_cons_of_mem _ hx.1, hx.2⟩,
        fun k hk => (ih.2 k hk).imp fun _ hx => ⟨List.mem_cons_of_mem _ hx.1, hx.2⟩⟩
    rw [releasedFrom]
    by_cases hbusy : 0 < c.mEventUsing
    · rw [if_pos hbusy]
      exact pass
    have hidle := not_lt.mp hbusy
    rw [if_neg hbusy]
    by_cases hdev : sameDevice pevt c = true
    · rw [if_pos hdev]
      by_cases hiso : pevt.agentResult = .isolatedSuccess
      · rw [if_pos hiso]
        refine ⟨fun k hk => ?_, fun k hk => ?_⟩
        · exact ⟨c, List.mem_cons_self, hidle, (List.mem_singleton.mp hk).symm⟩
        · obtain ⟨e, he, hk⟩ := List.mem_map.mp hk
          exact ⟨c, List.mem_cons_self, hidle, e, he, hk⟩
      rw [if_neg hiso]
      cases hf : c.csEvent.find? (sameEvtId pevt) with
      | none => exact pass
      | some e =>
        refine ⟨fun k hk => ?_, fun k hk => ?_⟩
        · have hk : k = c.addr := by
            by_contra hne
            split_ifs at hk
            · exact hne (List.mem_singleton.mp hk)
            · exact List.not_mem_nil hk
          exact ⟨c, List.mem_cons_self, hidle, hk.symm⟩
        · have hk := List.mem_singleton.mp hk
          exact ⟨c, List.mem_cons_self, hidle, e, List.mem_of_find?_eq_some hf, hk.symm⟩
    · rw [if_neg hdev]
      exact pass

/-- The cases and the records a deletion frees are those that leave the list. -/
theorem releasedFrom_perm (ring : List ℕ) (pevt : FmdEvent) (listCase : List FmdCase)
    (hring : ∀ c ∈ listCase, listEmpty ring (.entry c.addr) = false) :
    (listCase.map FmdCase.addr).Perm ((releasedFrom ring pevt listCase).cases ++
      (findAndDelete ring pevt listCase).1.map FmdCase.addr) ∧
    (recordNames listCase).Perm ((releasedFrom ring pevt listCase).events ++
      recordNames (findAndDelete ring pevt listCase).1) := by
  induction listCase with
  | nil => simp [releasedFrom, findAndDelete, recordNames]
  | cons c rest ih =>
    obtain ⟨ihc, ihe⟩ := ih fun x hx => hring x (List.mem_cons_of_mem _ hx)
    have pass : ((c :: rest).map FmdCase.addr).Perm ((releasedFrom ring pevt rest).cases ++
        (c :: (findAndDelete ring pevt rest).1).map FmdCase.addr) ∧
        (recordNames (c :: rest)).Perm ((releasedFrom ring pevt rest).events ++
          recordNames (c :: (findAndDelete ring pevt rest).1)) := by
      refine ⟨?_, ?_⟩
      · rw [List.map_cons, List.map_cons]
        exact (ihc.cons _).trans List.perm_middle.symm
      · rw [recordNames, recordNames, List.flatMap_cons, List.flatMap_cons]
        exact (ihe.append_left _).trans (List.perm_append_comm_assoc ..)
    rw [releasedFrom, findAndDelete]
    by_cases hbusy : 0 < c.mEventUsing
    · rw [if_pos hbusy, if_pos hbusy]
      exact pass
    rw [if_neg hbusy, if_neg hbusy]
    by_cases hdev : sameDevice pevt c = true
    · rw [if_pos hdev, if_pos hdev]
      by_cases hiso : pevt.agentResult = .isolatedSuccess
      · rw [if_pos hiso, if_pos hiso]
        exact ⟨List.Perm.refl _, by simp [recordNames]⟩
      rw [if_neg hiso, if_neg hiso, hring c List.mem_cons_self]
      cases hf : c.csEvent.find? (sameEvtId pevt) with
      | none =>
        have hany : ¬ c.csEvent.any (sameEvtId pevt) = true := by
          rw [List.any_eq_true]
          rintro ⟨e, he, hs⟩
          rw [find?_none hf e he] at hs
          exact Bool.false_ne_true hs
        rw [if_neg hany]
        exact pass
      | some e =>
        obtain ⟨he, l₁, l₂, hl, hn⟩ := find?_split hf
        have hany : c.csEvent.any (sameEvtId pevt) = true :=
          List.any_eq_true.mpr ⟨e, mem_of_split hl, he⟩
        rw [if_pos hany]
        refine ⟨List.Perm.refl _, ?_⟩
        simp only [Bool.false_eq_true, if_false, recordNames, List.flatMap_cons, hl,
          eraseP_split l₂ hn he, List.map_append, List.map_cons, List.append_assoc,
          List.singleton_append]
        exact List.perm_middle
    · rw [if_neg hdev, if_neg hdev]
      exact pass

/-- **What a deletion frees is what leaves the case list**, on a list of distinct cases. -/
theorem released_perm {listCase : List FmdCase} (h : (listCase.map FmdCase.addr).Nodup)
    (pevt : FmdEvent) :
    (listCase.map FmdCase.addr).Perm ((released pevt listCase).cases ++
      (fmdCaseFindAndDelete pevt listCase).1.map FmdCase.addr) ∧
    (recordNames listCase).Perm ((released pevt listCase).events ++
      recordNames (fmdCaseFindAndDelete pevt listCase).1) :=
  releasedFrom_perm _ pevt listCase fun _ hc => listEmpty_entry h (List.mem_map_of_mem hc)

/-! ## The names of the records -/

/-- The names of the records: all below `next`, and a record that is stored and in flight at once is
an ereport of the device of its case. -/
structure NamesOk (d : Daemon) : Prop where
  inflight_lt : ∀ e ∈ d.inflight, e.addr < d.next
  stored_lt : ∀ c ∈ d.listCase, ∀ e ∈ c.csEvent, e.addr < d.next
  same : ∀ e ∈ d.inflight, ∀ c ∈ d.listCase, ∀ x ∈ c.csEvent, x.addr = e.addr →
    e.evFlag ≠ .agentTodo ∧ e.device = c.device

theorem dispatched_addr (d : Daemon) (nvl : Nvlist) (now : ℤ) :
    (dispatched d nvl now).addr = d.next := by
  obtain ⟨ty, n, t, h⟩ := dispatched_eq d nvl now
  rw [h]
  rfl

theorem StoredFrom.addr {d : Daemon} {dev : Device} {act : Act} {e : FmdEvent}
    (h : StoredFrom d dev act e) :
    (∃ c ∈ d.listCase, c.device = dev ∧ ∃ x ∈ c.csEvent, x.addr = e.addr) ∨
      ∃ nvl now clk, act = .ereport nvl now clk ∧ nvl.device = dev ∧ e.addr = d.next := by
  cases h with
  | old c hc he hd => exact .inl ⟨c, hc, hd, e, he, rfl⟩
  | counted c hc he hd _ _ _ => exact .inl ⟨c, hc, hd, _, he, rfl⟩
  | stored c hn _ _ => exact .inr ⟨_, _, _, rfl, hn, dispatched_addr ..⟩

theorem InflightFrom.addr {d : Daemon} {act : Act} {e : FmdEvent} (h : InflightFrom d act e) :
    (∃ x ∈ d.inflight, x.addr = e.addr ∧ x.evFlag = e.evFlag ∧ x.device = e.device) ∨
      ∃ nvl now clk, act = .ereport nvl now clk ∧
        (e.addr = d.next ∧ e.evFlag ≠ .agentTodo ∧ e.device = nvl.device ∨ e.addr = d.next + 2) := by
  cases h with
  | old he => exact .inl ⟨e, he, rfl, rfl, rfl⟩
  | marked mode he => exact .inl ⟨_, he, rfl, rfl, rfl⟩
  | @report nvl now clk c _ _ =>
    obtain ⟨-, hflag, hdev, -, -, haddr⟩ :=
      fmdEventAdd_pevt clk (d.next + 2) c (dispatched d nvl now)
    refine .inr ⟨nvl, now, clk, rfl, .inl ⟨haddr.trans (dispatched_addr ..), ?_, ?_⟩⟩
    · rw [hflag, dispatched_evFlag]
      exact EvFlag.noConfusion
    · rw [hdev, dispatched_device]
  | fault c hf => exact .inr ⟨_, _, _, rfl, .inr (fmdEventAdd_isFaultOf _ _ _ _ hf).addr_eq⟩

theorem namesOk_step {act : Act} {d d' : Daemon} (hstore : d.StoreOk) (h : NamesOk d)
    (hst : Step d act d') : NamesOk d' := by
  have hnext := next_le hst
  refine ⟨fun e he => ?_, fun c hc e he => ?_, fun e he c hc x hx hname => ?_⟩
  · rcases (inflight_step hst he).addr with ⟨x, hx, ha, -⟩ | ⟨nvl, now, clk, rfl, hnew⟩
    · exact ha ▸ (h.inflight_lt x hx).trans_le hnext
    · rw [next_ereport hst]
      omega
  · rcases (stored_step hstore hst hc he).addr with ⟨c₀, hc₀, -, x, hx, ha⟩ | ⟨_, _, _, rfl, -, ha⟩
    · exact ha ▸ (h.stored_lt c₀ hc₀ x hx).trans_le hnext
    · rw [next_ereport hst]
      omega
  · rcases (stored_step hstore hst hc hx).addr with ⟨c₀, hc₀, hd₀, y, hy, hya⟩ |
      ⟨nvl, now, clk, rfl, hn, hnew⟩
    · have hlt := h.stored_lt c₀ hc₀ y hy
      rcases (inflight_step hst he).addr with ⟨z, hz, hza, hzf, hzd⟩ | ⟨_, _, _, rfl, hnew⟩
      · rw [← hzf, ← hzd, ← hd₀]
        exact h.same z hz c₀ hc₀ y hy (hya.trans (hname.trans hza.symm))
      · omega
    · rcases (inflight_step hst he).addr with ⟨z, hz, hza, -⟩ | ⟨nvl', now', clk', hact, hnew'⟩
      · have hlt := h.inflight_lt z hz
        omega
      · cases hact
        rcases hnew' with ⟨-, hf, hd⟩ | ha
        · exact ⟨hf, hd.trans hn⟩
        · omega

theorem namesOk_boot (esc : FmdEsc) : NamesOk (Daemon.boot esc) where
  inflight_lt := fun _ h => by cases h
  stored_lt := fun _ h => by cases h
  same := fun _ h => by cases h

/-! ## Release safety -/

/-- No deletion can free a case or a record that an event in flight needs. -/
def ReleaseSafe (d : Daemon) : Prop :=
  ∀ pevt : FmdEvent, ∀ e ∈ d.inflight,
    (∀ k ∈ (released pevt d.listCase).cases, e.pCase ≠ some k) ∧
    ∀ k ∈ (released pevt d.listCase).events, e.addr ≠ k

/-- The counter an agent is about to decrement is that of a listed case. -/
def DecrementsListed (d : Daemon) : Prop :=
  ∀ a ∈ d.agents, ∀ evt r, a.pc = .handled evt r → evt.evFlag ≠ .agentTodo →
    ∃ c ∈ d.listCase, evt.pCase = some c.addr

/-- A fault in flight has no case. -/
def FaultsHomeless (d : Daemon) : Prop :=
  ∀ e ∈ d.inflight, e.evFlag = .agentTodo → e.pCase = none

theorem faultsHomeless_step {act : Act} {d d' : Daemon} (h : FaultsHomeless d)
    (hst : Step d act d') : FaultsHomeless d' := by
  intro e he hf
  cases inflight_step hst he with
  | old he => exact h e he hf
  | @marked _ x mode hx => exact h x hx hf
  | fault c hfault => exact (fmdEventAdd_isFaultOf _ _ _ _ hfault).pCase
  | @report nvl now clk c _ _ =>
    rw [(fmdEventAdd_pevt ..).2.1, dispatched_evFlag] at hf
    cases hf

theorem releaseSafe_of {d : Daemon} (h : PayloadOk d) (hn : NamesOk d) (hf : FaultsHomeless d) :
    ReleaseSafe d := by
  have hstore := h.count.store
  intro pevt e he
  obtain ⟨hcases, hevents⟩ := releasedFrom_idle (d.listCase.map FmdCase.addr) pevt d.listCase
  refine ⟨fun k hk hp => ?_, fun k hk ha => ?_⟩
  · obtain ⟨c, hc, hidle, rfl⟩ := hcases k hk
    by_cases hflag : e.evFlag = .agentTodo
    · rw [hf e he hflag] at hp
      cases hp
    · obtain ⟨c₀, hc₀, hp₀, hbusy⟩ := h.count.busy he hflag
      have hsame := hstore.addr_unique hc₀ hc (Option.some.inj (hp₀.symm.trans hp))
      rw [hsame] at hbusy
      omega
  · obtain ⟨c, hc, hidle, x, hx, rfl⟩ := hevents k hk
    obtain ⟨hflag, hdev⟩ := hn.same e he c hc x hx ha.symm
    -- the case the ereport counts for is the one that stores it
    obtain ⟨c₀, hc₀, hp₀, hbusy⟩ := h.count.busy he hflag
    have hdev₀ := h.home e he hflag c₀ hc₀ hp₀
    have hsame := hstore.case_unique hc₀ hc (hdev₀.trans hdev)
    rw [hsame] at hbusy
    omega

theorem decrementsListed_of {d : Daemon} (h : CountOk d) : DecrementsListed d := by
  intro a ha evt r hpc hf
  have he : evt ∈ d.inflight := by
    refine mem_inflight.mpr (.inr ⟨a, ha, List.mem_append_right _ ?_⟩)
    rw [hpc]
    exact List.mem_singleton_self evt
  obtain ⟨c, hc, hp, -⟩ := h.busy he hf
  exact ⟨c, hc, hp⟩

/-- **Release safety**: in every run, whatever entry the sweep comes to, `fmd_case_find_and_delete`
frees no case and no record of an event in flight, so the counter `do_agent` decrements is always
that of a listed case. This is of runs in which fewer than 2^31 ereports, lost ones included, are
counted in one case at a time. -/
theorem releaseSafe_run (esc : FmdEsc) (as : List Act) :
    Always step (fun d => ReleaseSafe d ∧ DecrementsListed d) as (Daemon.boot esc) := by
  have hinv : Always step (fun d => PayloadOk d ∧ NamesOk d ∧ FaultsHomeless d) as
      (Daemon.boot esc) := by
    refine exec_invariant (fun act d d' ⟨hp, hn, hf⟩ hst => ?_) as
      ⟨payloadOk_boot esc, namesOk_boot esc, fun _ h => by cases h⟩
    have hst := step_cases hst
    exact ⟨payloadOk_step hp hst, namesOk_step hp.count.store hn hst, faultsHomeless_step hf hst⟩
  intro pre d hpre he
  obtain ⟨hp, hn, hf⟩ := hinv pre d hpre he
  exact ⟨releaseSafe_of hp hn hf, decrementsListed_of hp.count⟩

/-- **What a deletion frees is what leaves the case list**, in every state of every run and for every event
that it may be asked to look for. -/
theorem released_run (esc : FmdEsc) (as : List Act) : Always step (fun d => ∀ pevt,
    (d.listCase.map FmdCase.addr).Perm ((released pevt d.listCase).cases ++
      (fmdCaseFindAndDelete pevt d.listCase).1.map FmdCase.addr) ∧
    (recordNames d.listCase).Perm ((released pevt d.listCase).events ++
      recordNames (fmdCaseFindAndDelete pevt d.listCase).1)) as (Daemon.boot esc) := by
  intro pre d hpre hexec pevt
  exact released_perm (countOk_run esc as pre d hpre hexec).store.addrs pevt

end Fms
