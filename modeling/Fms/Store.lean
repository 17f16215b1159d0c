import Fms.Daemon

/-!
# The case list

What the case list looks like in every reachable state, whatever the threads do: one case for a
device, distinct `evt_id`s within a case, and only events of the device of the case.

* `StoreOk`: the invariant, over the case list and the name counter;
* `storeOk_added`, `storeOk_deleted`, `storeOk_atomicDec`: the three operations on the list keep it;
* **`storeOk_step`**: every step keeps it.
-/

namespace Fms

open Keyed

/-- The events of one case. -/
structure CaseOk (c : FmdCase) : Prop where
  evtIds : (c.csEvent.map FmdEvent.evtId).Nodup
  devices : ∀ e ∈ c.csEvent, e.device = c.device

/-- The case list, with all names below `next`. -/
structure StoreOk (next : ℕ) (listCase : List FmdCase) : Prop where
  addrs : (listCase.map FmdCase.addr).Nodup
  devices : (listCase.map FmdCase.device).Nodup
  fresh : ∀ c ∈ listCase, c.addr < next
  cases : ∀ c ∈ listCase, CaseOk c

theorem StoreOk.mono {m n : ℕ} {lc : List FmdCase} (h : StoreOk m lc) (hmn : m ≤ n) :
    StoreOk n lc :=
  ⟨h.addrs, h.devices, fun c hc => (h.fresh c hc).trans_le hmn, h.cases⟩

theorem StoreOk.case_unique {n : ℕ} {lc : List FmdCase} (h : StoreOk n lc) {c c' : FmdCase}
    (hc : c ∈ lc) (hc' : c' ∈ lc) (he : c.device = c'.device) : c = c' :=
  eq_of_key h.devices hc hc' he

theorem StoreOk.addr_unique {n : ℕ} {lc : List FmdCase} (h : StoreOk n lc) {c c' : FmdCase}
    (hc : c ∈ lc) (hc' : c' ∈ lc) (he : c.addr = c'.addr) : c = c' :=
  eq_of_key h.addrs hc hc' he

theorem StoreOk.replace {n : ℕ} {l₁ l₂ : List FmdCase} {c c' : FmdCase}
    (h : StoreOk n (l₁ ++ c :: l₂)) (ha : c'.addr = c.addr) (hd : c'.device = c.device)
    (hc : CaseOk c') : StoreOk n (l₁ ++ c' :: l₂) := by
  refine ⟨map_replace ha ▸ h.addrs, map_replace hd ▸ h.devices, fun x hx => ?_, fun x hx => ?_⟩
  · rcases mem_of_replace rfl hx with rfl | hx
    · rw [ha]
      exact h.fresh c (mem_of_split rfl)
    · exact h.fresh x hx
  · rcases mem_of_replace rfl hx with rfl | hx
    · exact hc
    · exact h.cases x hx

theorem StoreOk.remove {n : ℕ} {l₁ l₂ : List FmdCase} {c : FmdCase}
    (h : StoreOk n (l₁ ++ c :: l₂)) : StoreOk n (l₁ ++ l₂) := by
  have hsub : l₁ ++ l₂ ⊆ l₁ ++ c :: l₂ := fun x hx => mem_middle.mpr (.inr hx)
  exact ⟨nodup_remove h.addrs, nodup_remove h.devices, fun x hx => h.fresh x (hsub hx),
    fun x hx => h.cases x (hsub hx)⟩

/-! ## Insertion -/

theorem caseOk_added (clk : Clock) (addr : ℕ) {c : FmdCase} {pevt : FmdEvent} (h : CaseOk c)
    (hd : c.device = pevt.device) : CaseOk (fmdEventAdd clk addr c pevt).pcase := by
  have hdev : (fmdEventAdd clk addr c pevt).pcase.device = c.device :=
    (fmdEventAdd_pcase clk addr c pevt).2.1
  generalize hr : fmdEventAdd clk addr c pevt = r at hdev
  cases hr ▸ fmdEventAdd_cases clk addr c pevt with
  | hit l₁ e l₂ _ hs _ _ hev _ _ =>
    refine ⟨?_, fun x hx => ?_⟩
    · rw [hev, map_replace (countHit_evtId pevt e), ← hs]
      exact h.evtIds
    · rw [hdev]
      rw [hev] at hx
      rcases List.mem_append.mp hx with hx | hx
      · exact h.devices x (hs ▸ List.mem_append_left _ hx)
      · rcases List.mem_cons.mp hx with rfl | hx
        · exact h.devices e (mem_of_split hs)
        · exact h.devices x (hs ▸ List.mem_append_right _ (List.mem_cons_of_mem _ hx))
  | stored _ hf hev _ _ =>
    refine ⟨?_, fun x hx => ?_⟩
    · rw [hev, List.map_cons, List.nodup_cons]
      refine ⟨fun hm => ?_, h.evtIds⟩
      obtain ⟨x, hx, he⟩ := List.mem_map.mp hm
      exact hf x hx he
    · rw [hdev]
      rw [hev] at hx
      rcases List.mem_cons.mp hx with rfl | hx
      · exact hd.symm
      · exact h.devices x hx

theorem caseOk_created (clk : Clock) (addr : ℕ) (pevt : FmdEvent) :
    CaseOk (fmdCaseCreate clk addr pevt) :=
  ⟨List.nodup_nil, fun _ hx => absurd hx List.not_mem_nil⟩

theorem storeOk_added {clk : Clock} {addr newCase n : ℕ} {lc : List FmdCase} {pevt : FmdEvent}
    {r : List FmdCase × Added} (h : StoreOk n lc) (hn : n ≤ newCase)
    (ha : CaseAdded clk addr newCase lc pevt r) : StoreOk (newCase + 1) r.1 := by
  cases ha with
  | found l₁ c l₂ hs hd _ =>
    subst hs
    obtain ⟨haddr, hdev, -⟩ := fmdEventAdd_pcase clk addr c pevt
    have hc := h.cases c (mem_of_split rfl)
    exact (h.mono (hn.trans (Nat.le_succ _))).replace haddr hdev (caseOk_added clk addr hc hd)
  | created hf =>
    obtain ⟨haddr, hdev, -⟩ := fmdEventAdd_pcase clk addr (fmdCaseCreate clk newCase pevt) pevt
    have hnew : (fmdEventAdd clk addr (fmdCaseCreate clk newCase pevt) pevt).pcase.addr = newCase :=
      haddr
    refine ⟨?_, ?_, fun x hx => ?_, fun x hx => ?_⟩
    · rw [List.map_cons, List.nodup_cons, hnew]
      refine ⟨fun hm => ?_, h.addrs⟩
      obtain ⟨x, hx, he⟩ := List.mem_map.mp hm
      exact absurd (h.fresh x hx) (by omega)
    · rw [List.map_cons, List.nodup_cons, hdev]
      refine ⟨fun hm => ?_, h.devices⟩
      obtain ⟨x, hx, he⟩ := List.mem_map.mp hm
      exact hf x hx he
    · rcases List.mem_cons.mp hx with rfl | hx
      · rw [hnew]
        exact Nat.lt_succ_self _
      · exact (h.fresh x hx).trans_le (hn.trans (Nat.le_succ _))
    · rcases List.mem_cons.mp hx with rfl | hx
      · exact caseOk_added clk addr (caseOk_created clk newCase pevt) rfl
      · exact h.cases x hx

/-! ## Deletion and counting -/

theorem caseOk_eraseP {c : FmdCase} (h : CaseOk c) (p : FmdEvent → Bool) :
    CaseOk { c with csEvent := c.csEvent.eraseP p } :=
  ⟨h.evtIds.sublist (List.eraseP_sublist.map _), fun x hx => h.devices x (List.mem_of_mem_eraseP hx)⟩

/-- The event a deletion takes out of a case was the only one with its `evt_id`. -/
theorem CaseOk.not_holds_eraseP {c : FmdCase} (h : CaseOk c) (pevt : FmdEvent) :
    ¬ FmdCase.Holds pevt { c with csEvent := c.csEvent.eraseP (sameEvtId pevt) } := by
  rintro ⟨e, he, hid⟩
  cases hf : c.csEvent.find? (sameEvtId pevt) with
  | none => exact absurd (find?_none hf e (List.mem_of_mem_eraseP he)) (by simp [hid])
  | some x =>
    obtain ⟨hx, l₁, l₂, hl, hn⟩ := find?_split hf
    change e ∈ c.csEvent.eraseP (sameEvtId pevt) at he
    rw [hl, eraseP_split l₂ hn hx] at he
    have hkeys := h.evtIds
    rw [hl] at hkeys
    exact key_ne_of_split hkeys e he (hid.trans (sameEvtId_iff.mp hx).symm)

theorem storeOk_deleted {n : ℕ} {lc : List FmdCase} {pevt : FmdEvent} {r : List FmdCase × ℤ}
    (h : StoreOk n lc) (hd : Deleted pevt lc r) : StoreOk n r.1 := by
  cases hd with
  | case l₁ c l₂ hs _ _ _ =>
    subst hs
    exact h.remove
  | event l₁ c l₂ hs _ _ _ _ =>
    subst hs
    have hc := h.cases c (mem_of_split rfl)
    exact h.replace rfl rfl (caseOk_eraseP hc _)
  | nothing _ => exact h

theorem storeOk_atomicDec {n : ℕ} {lc : List FmdCase} (pCase : Option ℕ) (h : StoreOk n lc) :
    StoreOk n (atomicDec pCase lc) := by
  rcases atomicDec_cases pCase lc with ⟨he, -⟩ | ⟨l₁, c, l₂, hs, -, he⟩
  · rw [he]
    exact h
  · rw [he]
    subst hs
    have hc := h.cases c (mem_of_split rfl)
    exact h.replace rfl rfl ⟨hc.evtIds, hc.devices⟩

/-! ## Steps -/

/-- One entry of the sweep searches the case list at most once. -/
theorem queueDeleteEntry_deleted {n : ℕ} {lc : List FmdCase} (h : StoreOk n lc) (now : ℤ)
    (pevt : FmdEvent) : (queueDeleteEntry now lc pevt).listCase = lc ∨
      Deleted pevt lc (fmdCaseFindAndDelete pevt lc) ∧
        (queueDeleteEntry now lc pevt).listCase = (fmdCaseFindAndDelete pevt lc).1 := by
  have hd := fmdCaseFindAndDelete_cases h.addrs pevt
  generalize hr : queueDeleteEntry now lc pevt = r
  cases hr ▸ queueDeleteEntry_cases now lc pevt with
  | skipped _ => exact .inl rfl
  | released _ _ => exact .inr ⟨hd, rfl⟩
  | failed _ _ => exact .inr ⟨hd, rfl⟩
  | isolated _ => exact .inr ⟨hd, rfl⟩
  | removed _ _ => exact .inr ⟨hd, rfl⟩

theorem step_esc {act : Act} {d d' : Daemon} (hst : Step d act d') : d'.esc = d.esc := by
  cases hst with
  | _ => rfl

/-- The invariant of the case list of a daemon. -/
def Daemon.StoreOk (d : Daemon) : Prop := Fms.StoreOk d.next d.listCase

theorem storeOk_boot (esc : FmdEsc) : (Daemon.boot esc).StoreOk :=
  ⟨List.nodup_nil, List.nodup_nil, fun _ h => absurd h List.not_mem_nil,
    fun _ h => absurd h List.not_mem_nil⟩

/-- **Every step keeps the case list in order.** -/
theorem storeOk_step {act : Act} {d d' : Daemon} (h : d.StoreOk) (hst : Step d act d') :
    d'.StoreOk := by
  unfold Daemon.StoreOk at h ⊢
  cases hst with
  | lost _ _ => exact h.mono (Nat.le_add_right _ _)
  | inserted _ _ ha => exact storeOk_added h (Nat.le_add_right _ _) ha
  | sweepEntry _ _ =>
    rename_i now seen pevt rest _ _
    change Fms.StoreOk d.next (queueDeleteEntry now d.listCase pevt).listCase
    rcases queueDeleteEntry_deleted h now pevt with he | ⟨hd, he⟩
    · rw [he]
      exact h
    · rw [he]
      exact storeOk_deleted h hd
  | handle _ _ _ => exact h.mono (Nat.le_succ _)
  | finish _ _ =>
    simp only
    split_ifs
    · exact storeOk_atomicDec _ h
    · exact h
  | put _ _ => exact h
  | sweepBegin _ => exact h
  | sweepEnd _ _ => exact h
  | take _ _ _ _ => exact h
  | result _ _ _ _ => exact h
  | load => exact h
  | unload _ _ => exact h
  | config _ _ => exact h

end Fms
