import Fms.Flow

/-!
# The repaired list as a map

`agent_ring_put` is meant to keep one entry for each device, `evt_id` and result, with the number of
times it was reported. It compares the device names over the length of the new one, so that a result
for `/dev/sda1` is merged into an entry of `/dev/sda10`.

* `RepairedMap`, `resultStep`: the list under puts and removals, with the counts it should have;
  `repairedList_run`: the list of the daemon is one;
* `KeyedMap.beside`: the entries beside one, from which `put_merged`, `put_appended` and `remove_keeps`;
* `put_own`, `put_other`: what a put does, if the first entry it matches is of its key, and if not;
* **`keyedMap_iff`**: the list is the map of the counts, and a put keeps the other entries, exactly
  in the runs in which no put comes to an entry of a device with a longer name first.
-/

namespace Fms

open CString Keyed Run

/-- The key of a result: device, `evt_id` and `agent_result`. -/
abbrev ResultKey := Device × ℤ × AgentResult

def FmdEvent.key (e : FmdEvent) : ResultKey := (e.device, e.evtId, e.agentResult)

/-- The operations on the repaired list: an agent puts a result, the sweep removes an entry. -/
inductive ResultAct where
  | put (pevt : FmdEvent)
  | remove (i : ℕ)

/-- The repaired list, with the number of puts of each key since it was last removed. -/
structure RepairedMap where
  repaired : List FmdEvent := []
  puts : ResultKey → ℕ := fun _ => 0

/-- One operation: the list changes as in the source, the counts as they should. -/
def resultStep : ResultAct → RepairedMap → Option RepairedMap
  | .put pevt, s => some
    { repaired := agentRingPut s.repaired pevt
      puts := Function.update s.puts pevt.key (s.puts pevt.key + 1) }
  | .remove i, s => (s.repaired[i]?).map fun e =>
    { repaired := s.repaired.eraseIdx i
      puts := Function.update s.puts e.key 0 }

/-- The list is the map of the counts. -/
structure KeyedMap (s : RepairedMap) : Prop where
  unique : (s.repaired.map FmdEvent.key).Nodup
  present : ∀ k, 0 < s.puts k → ∃ e ∈ s.repaired, e.key = k
  counts : ∀ e ∈ s.repaired, 0 < s.puts e.key ∧ e.evCount = s.puts e.key

/-- A put changes no entry of another key. -/
def PutKeepsOthers : ResultAct → RepairedMap → RepairedMap → Prop
  | .put pevt, s, s' => ∀ e, e.key ≠ pevt.key → (e ∈ s'.repaired ↔ e ∈ s.repaired)
  | .remove _, _, _ => True

/-- The put comes first to an entry of the same id, `evt_id` and result, whose device has another
name that starts with the name of its own device. -/
def MergesOther : ResultAct → RepairedMap → Prop
  | .put pevt, s => ∃ p, s.repaired.find? (sameResult pevt) = some p ∧ p.devName ≠ pevt.devName
  | .remove _, _ => False

/-! ## Matching -/

/-- A matching entry agrees with the result but for the rest of its name. -/
theorem sameResult_iff {pevt p : FmdEvent} : sameResult pevt p = true ↔
    pevt.devName <+: p.devName ∧ p.devId = pevt.devId ∧ p.evtId = pevt.evtId ∧
      p.agentResult = pevt.agentResult := by
  simp [sameResult, strncmpEq_right, and_assoc]

theorem sameResult_of_key {pevt p : FmdEvent} (h : p.key = pevt.key) : sameResult pevt p = true := by
  simp only [FmdEvent.key, FmdEvent.device, Prod.mk.injEq] at h
  obtain ⟨⟨hn, hi⟩, he, hr⟩ := h
  exact sameResult_iff.mpr ⟨hn ▸ List.prefix_rfl, hi, he, hr⟩

theorem key_eq_iff {pevt p : FmdEvent} (h : sameResult pevt p = true) :
    p.key = pevt.key ↔ p.devName = pevt.devName := by
  obtain ⟨-, hi, he, hr⟩ := sameResult_iff.mp h
  simp [FmdEvent.key, FmdEvent.device, hi, he, hr]

@[simp] theorem mergeResult_key (pevt p : FmdEvent) : (mergeResult pevt p).key = p.key := rfl

/-! ## Puts -/

/-- What a put does to the list: the first matching entry takes it, or it is appended. -/
theorem agentRingPut_first (repaired : List FmdEvent) (pevt : FmdEvent) :
    (∃ l₁ p l₂, repaired.find? (sameResult pevt) = some p ∧ repaired = l₁ ++ p :: l₂ ∧
      sameResult pevt p = true ∧ agentRingPut repaired pevt = l₁ ++ mergeResult pevt p :: l₂) ∨
    repaired.find? (sameResult pevt) = none ∧ (∀ p ∈ repaired, p.key ≠ pevt.key) ∧
      agentRingPut repaired pevt = repaired ++ [{ pevt with evCount := 1 }] := by
  unfold agentRingPut
  cases hf : repaired.find? (sameResult pevt) with
  | some p =>
    obtain ⟨hp, l₁, l₂, hl, hn⟩ := find?_split hf
    refine .inl ⟨l₁, p, l₂, rfl, hl, hp, ?_⟩
    simp only [hl, modifyFirst_split _ l₂ hn hp]
  | none =>
    refine .inr ⟨rfl, fun p hp hk => ?_, rfl⟩
    have hno := find?_none hf p hp
    rw [sameResult_of_key hk] at hno
    cases hno

theorem KeyedMap.beside {s : RepairedMap} (hm : KeyedMap s) {l₁ l₂ : List FmdEvent} {p : FmdEvent}
    (hl : s.repaired = l₁ ++ p :: l₂) :
    (∀ k ≠ p.key, 0 < s.puts k → ∃ x ∈ l₁ ++ l₂, x.key = k) ∧
      ∀ x ∈ l₁ ++ l₂, x.key ≠ p.key ∧ 0 < s.puts x.key ∧ x.evCount = s.puts x.key := by
  refine ⟨fun k hkp hk => ?_, fun x hx => ⟨key_ne_of_split (hl ▸ hm.unique) x hx, ?_⟩⟩
  · obtain ⟨x, hx, rfl⟩ := hm.present k hk
    rw [hl, mem_middle] at hx
    exact ⟨x, hx.resolve_left fun hxp => hkp (hxp ▸ rfl), rfl⟩
  · exact hm.counts x (hl ▸ mem_middle.mpr (Or.inr hx))

theorem put_merged {s : RepairedMap} {pevt p : FmdEvent} {l₁ l₂ : List FmdEvent} (hm : KeyedMap s)
    (hl : s.repaired = l₁ ++ p :: l₂) (hkey : p.key = pevt.key)
    (he : agentRingPut s.repaired pevt = l₁ ++ mergeResult pevt p :: l₂) :
    KeyedMap ⟨agentRingPut s.repaired pevt, Function.update s.puts pevt.key (s.puts pevt.key + 1)⟩ := by
  obtain ⟨hpresent, hcounts⟩ := hm.beside hl
  refine ⟨?_, fun k hk => ?_, fun e hmem => ?_⟩
  · rw [he, map_replace (mergeResult_key pevt p), ← hl]
    exact hm.unique
  · rw [he]
    by_cases hkk : k = pevt.key
    · exact ⟨mergeResult pevt p, by simp, hkey.trans hkk.symm⟩
    · change 0 < Function.update s.puts pevt.key _ k at hk
      rw [Function.update_of_ne hkk] at hk
      obtain ⟨x, hx, hxk⟩ := hpresent k (hkey ▸ hkk) hk
      exact ⟨x, mem_middle.mpr (Or.inr hx), hxk⟩
  · rw [he, mem_middle] at hmem
    rcases hmem with rfl | hx
    · rw [mergeResult_key, hkey]
      change 0 < Function.update s.puts pevt.key (s.puts pevt.key + 1) pevt.key ∧
        p.evCount + 1 = (Function.update s.puts pevt.key (s.puts pevt.key + 1) pevt.key : ℕ)
      rw [Function.update_self, (hm.counts p (mem_of_split hl)).2, hkey]
      exact ⟨Nat.succ_pos _, (Nat.cast_succ _).symm⟩
    · obtain ⟨hne, hcount⟩ := hcounts e hx
      change 0 < Function.update s.puts pevt.key _ e.key ∧
        e.evCount = (Function.update s.puts pevt.key _ e.key : ℕ)
      rw [Function.update_of_ne (hkey ▸ hne)]
      exact hcount

theorem put_appended {s : RepairedMap} {pevt : FmdEvent} (hm : KeyedMap s)
    (hno : ∀ p ∈ s.repaired, p.key ≠ pevt.key)
    (he : agentRingPut s.repaired pevt = s.repaired ++ [{ pevt with evCount := 1 }]) :
    KeyedMap ⟨agentRingPut s.repaired pevt, Function.update s.puts pevt.key (s.puts pevt.key + 1)⟩ := by
  have hzero : s.puts pevt.key = 0 := by
    by_contra hne
    obtain ⟨x, hx, hk⟩ := hm.present _ (Nat.pos_of_ne_zero hne)
    exact hno x hx hk
  refine ⟨?_, fun k hk => ?_, fun e hmem => ?_⟩
  · rw [he, List.map_append, List.nodup_append]
    refine ⟨hm.unique, List.nodup_singleton _, fun a ha b hb => ?_⟩
    obtain ⟨x, hx, rfl⟩ := List.mem_map.mp ha
    rw [List.mem_singleton.mp hb]
    exact hno x hx
  · rw [he]
    by_cases hkk : k = pevt.key
    · exact ⟨{ pevt with evCount := 1 }, by simp, hkk.symm⟩
    · change 0 < Function.update s.puts pevt.key _ k at hk
      rw [Function.update_of_ne hkk] at hk
      obtain ⟨x, hx, hxk⟩ := hm.present k hk
      exact ⟨x, List.mem_append_left _ hx, hxk⟩
  · rw [he] at hmem
    rcases List.mem_append.mp hmem with hx | hx
    · change 0 < Function.update s.puts pevt.key _ e.key ∧
        e.evCount = (Function.update s.puts pevt.key _ e.key : ℕ)
      rw [Function.update_of_ne (hno e hx)]
      exact hm.counts e hx
    · rw [List.mem_singleton.mp hx]
      change 0 < Function.update s.puts pevt.key (s.puts pevt.key + 1) pevt.key ∧
        1 = ((Function.update s.puts pevt.key (s.puts pevt.key + 1) pevt.key : ℕ) : ℤ)
      rw [Function.update_self, hzero]
      exact ⟨Nat.one_pos, rfl⟩

/-- A put that does not merge into another key's entry keeps the map, and the other entries. -/
theorem put_own {s s' : RepairedMap} {pevt : FmdEvent} (h : ¬ MergesOther (.put pevt) s)
    (hst : resultStep (.put pevt) s = some s') :
    (KeyedMap s → KeyedMap s') ∧ PutKeepsOthers (.put pevt) s s' := by
  cases hst
  rcases agentRingPut_first s.repaired pevt with ⟨l₁, p, l₂, hf, hl, hp, he⟩ | ⟨-, hno, he⟩
  · have hname : p.devName = pevt.devName := by
      by_contra hne
      exact h ⟨p, hf, hne⟩
    have hkey : p.key = pevt.key := (key_eq_iff hp).mpr hname
    refine ⟨fun hm => put_merged hm hl hkey he, fun e hne => ?_⟩
    change e ∈ agentRingPut s.repaired pevt ↔ e ∈ s.repaired
    have hne₁ : e ≠ mergeResult pevt p := fun hx => hne (by rw [hx, mergeResult_key, hkey])
    have hne₂ : e ≠ p := fun hx => hne (hx ▸ hkey)
    rw [he, hl, mem_middle, mem_middle, or_iff_right hne₁, or_iff_right hne₂]
  · refine ⟨fun hm => put_appended hm hno he, fun e hne => ?_⟩
    change e ∈ agentRingPut s.repaired pevt ↔ e ∈ s.repaired
    have hne₁ : e ≠ { pevt with evCount := 1 } := fun hx => hne (by rw [hx]; rfl)
    rw [he]
    simp [hne₁]

/-- A put that merges into another key's entry breaks the map: that entry counts a put too many. -/
theorem put_other {s s' : RepairedMap} {pevt : FmdEvent} (h : MergesOther (.put pevt) s)
    (hst : resultStep (.put pevt) s = some s') (hm : KeyedMap s) : ¬ KeyedMap s' := by
  cases hst
  obtain ⟨q, hq, hne⟩ := h
  rcases agentRingPut_first s.repaired pevt with ⟨l₁, p, l₂, hf, hl, hp, he⟩ | ⟨hf, -⟩
  · rw [hq] at hf
    cases hf
    intro hm'
    have hmem : mergeResult pevt q ∈ agentRingPut s.repaired pevt := by
      rw [he]
      exact mem_of_split rfl
    have hkey : q.key ≠ pevt.key := fun hk => hne ((key_eq_iff hp).mp hk)
    have hc : q.evCount + 1 = Function.update s.puts pevt.key (s.puts pevt.key + 1) q.key :=
      (hm'.counts _ hmem).2
    rw [Function.update_of_ne hkey, (hm.counts q (mem_of_split hl)).2] at hc
    omega
  · rw [hq] at hf
    cases hf

/-! ## Removals -/

theorem remove_keeps {s s' : RepairedMap} {i : ℕ} (hm : KeyedMap s)
    (hst : resultStep (.remove i) s = some s') : KeyedMap s' := by
  obtain ⟨p, hp, rfl⟩ := Option.map_eq_some_iff.mp hst
  obtain ⟨l₁, l₂, hl, rfl, -⟩ := exists_getElem?_split hp
  have herase : s.repaired.eraseIdx l₁.length = l₁ ++ l₂ := by
    rw [hl, List.eraseIdx_append_of_length_le le_rfl, Nat.sub_self]
    rfl
  obtain ⟨hpresent, hcounts⟩ := hm.beside hl
  refine ⟨?_, fun k hk => ?_, fun e hmem => ?_⟩
  · rw [herase]
    exact nodup_remove (hl ▸ hm.unique)
  · change 0 < Function.update s.puts p.key 0 k at hk
    rw [herase]
    by_cases hkk : k = p.key
    · rw [hkk, Function.update_self] at hk
      exact absurd hk (lt_irrefl 0)
    · rw [Function.update_of_ne hkk] at hk
      exact hpresent k hkk hk
  · rw [herase] at hmem
    obtain ⟨hne, hcount⟩ := hcounts e hmem
    change 0 < Function.update s.puts p.key 0 e.key ∧
      e.evCount = (Function.update s.puts p.key 0 e.key : ℕ)
    rw [Function.update_of_ne hne]
    exact hcount

/-! ## Runs -/

/-- **The repaired list is a map exactly as long as every put comes to an entry of its own key**, or
to none: no put comes first to an entry of a device whose name goes on after its own. The counts are
those of the code while a key has fewer than 2^31 puts. -/
theorem keyedMap_iff (as : List ResultAct) :
    (Always resultStep KeyedMap as {} ∧ EveryStep resultStep PutKeepsOthers as {}) ↔
      EveryStep resultStep (fun act s _ => ¬ MergesOther act s) as {} := by
  have hiff : Always resultStep KeyedMap as {} ↔
      EveryStep resultStep (fun act s _ => ¬ MergesOther act s) as {} := by
    refine always_iff_everyStep (I := fun _ => True) (fun _ _ _ _ _ => trivial)
      (fun act s s' _ hm hst => ?_) as trivial ⟨List.nodup_nil, ?_, ?_⟩
    · cases act with
      | put pevt =>
        exact ⟨fun hm' hbad => put_other hbad hst hm hm', fun hgood => (put_own hgood hst).1 hm⟩
      | remove i => exact iff_of_true (remove_keeps hm hst) id
    · exact fun k hk => absurd hk (lt_irrefl 0)
    · exact fun e he => absurd he List.not_mem_nil
  refine ⟨fun h => hiff.mp h.1, fun h => ⟨hiff.mpr h, ?_⟩⟩
  intro pre act s s' hp he hst
  cases act with
  | put pevt => exact (put_own (h pre _ s s' hp he hst) hst).2
  | remove i => trivial

/-- The result of a disk agent for a partition, as it is put on the list. -/
def partitionResult (devName : String) : FmdEvent :=
  { addr := 0, devName := devName.toList, devId := 0, evtId := 2,
    evClass := "list.disk.unhealthy".toList, agentResult := .repairedSuccess }

/-- The repair of partition 1 is counted as a second repair of partition 10. -/
theorem keyedMap_fails : ¬ ∀ as : List ResultAct,
    Always resultStep KeyedMap as {} ∧ EveryStep resultStep PutKeepsOthers as {} := by
  intro h
  let as : List ResultAct :=
    [.put (partitionResult "/dev/sda10"), .put (partitionResult "/dev/sda1")]
  have hrun : ∃ s, exec resultStep as {} = some s ∧
      0 < s.puts (partitionResult "/dev/sda1").key ∧
      ∀ e ∈ s.repaired, e.key ≠ (partitionResult "/dev/sda1").key := by
    refine ⟨_, rfl, ?_⟩
    decide
  obtain ⟨s, hs, hpos, hno⟩ := hrun
  obtain ⟨e, he, hk⟩ := ((h as).1 as s List.prefix_rfl hs).present _ hpos
  exact hno e he hk

/-! ## The repaired list of the daemon -/

theorem result_put {i : ℕ} {d d' : Daemon} (hst : step (.result i) d = some d') :
    ∃ r, d.queue.seen = [] ∧ d'.queue = d.queue ∧ d'.repaired = agentRingPut d.repaired r := by
  obtain ⟨l₁, a, l₂, -, -, r, hr, rfl⟩ := agentAt_split hst
  simp only [agentStep] at hr
  split at hr
  · cases hr
  · rename_i eresult _ hq
    cases hr
    refine ⟨eresult, ?_, rfl, rfl⟩
    cases hd : d.queue with
    | sweep seen => exact absurd hd (hq seen)
    | _ => rfl
  · cases hr

/-- Every step of the daemon is a sequence of operations on its repaired list. -/
theorem step_repairedList {act : Act} {d d' : Daemon} (hst : step act d = some d')
    (puts : ResultKey → ℕ) : ∃ as puts',
      exec resultStep as ⟨d.repairedList, puts⟩ = some ⟨d'.repairedList, puts'⟩ := by
  have hnone (h : d'.repairedList = d.repairedList) : ∃ as puts',
      exec resultStep as ⟨d.repairedList, puts⟩ = some ⟨d'.repairedList, puts'⟩ :=
    ⟨[], puts, by rw [h]; rfl⟩
  cases step_cases hst with
  | inserted idle _ _ =>
    refine hnone ?_
    rw [Daemon.repairedList, Daemon.repairedList, idle, added_seen]
    rfl
  | put hputs _ =>
    refine hnone ?_
    rw [Daemon.repairedList, Daemon.repairedList, (puts_seen hputs).1, (puts_seen hputs).2]
  | sweepBegin idle =>
    refine hnone ?_
    rw [Daemon.repairedList, Daemon.repairedList, idle]
    rfl
  | @sweepEntry now seen pevt rest hq hr =>
    have hbefore : d.repairedList = seen ++ pevt :: rest := by
      rw [Daemon.repairedList, hq, hr]
      rfl
    have hafter : (sweepEntry now seen pevt rest d).repairedList =
        (if (queueDeleteEntry now d.listCase pevt).kept then seen ++ [pevt] else seen) ++ rest := rfl
    by_cases hk : (queueDeleteEntry now d.listCase pevt).kept = true
    · refine hnone ?_
      rw [hbefore, hafter, if_pos hk, List.append_assoc]
      rfl
    · refine ⟨[.remove seen.length], Function.update puts pevt.key 0, ?_⟩
      rw [hbefore, hafter, if_neg hk]
      simp [resultStep, List.eraseIdx_append_of_length_le]
  | sweepEnd hq hr =>
    refine hnone ?_
    rw [Daemon.repairedList, Daemon.repairedList, hq, hr, List.append_nil]
    rfl
  | result _ _ _ _ =>
    obtain ⟨r, hseen, hqueue, hput⟩ := result_put hst
    refine ⟨[.put r], Function.update puts r.key (puts r.key + 1), ?_⟩
    rw [Daemon.repairedList, Daemon.repairedList, hqueue, hput, hseen]
    rfl
  | _ => exact hnone rfl

/-- The repaired list of the daemon is reached by puts and removals alone. -/
theorem repairedList_run (esc : FmdEsc) (as : List Act) : Always step
    (fun d => ∃ ras puts, exec resultStep ras {} = some ⟨d.repairedList, puts⟩) as
    (Daemon.boot esc) := by
  refine exec_invariant (fun act d d' ⟨ras, puts, hras⟩ hst => ?_) as ⟨[], _, rfl⟩
  obtain ⟨ras', puts', hras'⟩ := step_repairedList hst puts
  refine ⟨ras ++ ras', puts', ?_⟩
  rw [exec_append, hras, Option.bind_some]
  exact hras'

end Fms
