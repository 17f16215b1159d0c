import Fms.Queue

/-!
# What routing is for

A subscription names a class of events, or all classes that start like it: `fmd_sub_matches` compares
the two strings from their first dots on. `putToAgents` gives an event to the first agent of
`list_agent` that has a matching subscription; while its ring is full the queue thread waits.

* `SubMatches`: what a subscription stands for;
* `fmdSubMatches_spec`: the comparison of pointers and lengths decides it;
* **`putToAgents_routes`**: an event goes to the first agent that wants it, and to no other.
-/

namespace Fms

open CString

/-- The text from the first dot on. -/
def fromDot (s : CStr) : CStr := s.dropWhile (· != '.')

/-- A subscription matches a class: it ends in `.*` and the class starts like it, or both are one. The
texts in front of the first dots play no part. -/
def SubMatches (eclass sub : CStr) : Prop :=
  (∃ p, fromDot sub = p ++ ".*".toList ∧ p <+: fromDot eclass) ∨ fromDot sub = fromDot eclass

theorem strrchr_fromDot (s : CStr) : strrchr '.' (fromDot s) = strrchr '.' s := by
  induction s with
  | nil => rfl
  | cons x s ih =>
    by_cases hx : x = '.'
    · simp [fromDot, hx]
    · have hdrop : fromDot (x :: s) = fromDot s := by simp [fromDot, hx]
      rw [hdrop, ih, strrchr, if_neg hx, Option.or_none]

theorem mem_fromDot {s : CStr} (h : '.' ∈ s) : '.' ∈ fromDot s := by
  by_contra hn
  exact strrchr_eq_none.mp ((strrchr_fromDot s).symm.trans (strrchr_eq_none.mpr hn)) h

/-- **`fmd_sub_matches` decides whether a subscription matches.** -/
theorem fmdSubMatches_spec {eclass sub : CStr} (hclass : '.' ∈ eclass) (hsub : '.' ∈ sub) :
    ∃ m, fmdSubMatches eclass sub = some m ∧ (m = true ↔ SubMatches eclass sub) := by
  obtain ⟨q, r, hq, hr⟩ := exists_last_of_mem (mem_fromDot hsub)
  have hlast : strrchr '.' sub = some ('.' :: r) := by
    rw [← strrchr_fromDot, hq, strrchr_append hr]
  have hsize : (fromDot sub).length - ('.' :: r).length = q.length := by
    rw [hq, List.length_append, Nat.add_sub_cancel]
  rw [fmdSubMatches, strchr_of_mem hsub, strchr_of_mem hclass, hlast]
  simp only [Option.bind_some, Option.map_some, Option.some.injEq, exists_eq_left']
  change (if _ then strncmpEq (fromDot eclass) (fromDot sub) ((fromDot sub).length - _)
    else decide (fromDot eclass = fromDot sub)) = true ↔ _
  rw [hsize]
  by_cases hstar : '.' :: r = ".*".toList
  · rw [if_pos hstar]
    have hpre : strncmpEq (fromDot eclass) (fromDot sub) q.length = true ↔ q <+: fromDot eclass := by
      rw [strncmpEq, hq, List.take_left, beq_iff_eq, List.prefix_iff_eq_take]
      exact eq_comm
    rw [hpre]
    constructor
    · exact fun h => .inl ⟨q, by rw [hq, hstar], h⟩
    · rintro (⟨p, hp, h⟩ | heq)
      · rw [hq, hstar] at hp
        exact List.append_cancel_right hp ▸ h
      · rw [← heq, hq]
        exact List.prefix_append q _
  · rw [if_neg hstar, decide_eq_true_iff]
    constructor
    · exact fun h => .inr h.symm
    · rintro (⟨p, hp, -⟩ | heq)
      · have hlast' : strrchr '.' (fromDot sub) = some ".*".toList := by
          rw [hp]
          exact strrchr_append (t := ['*']) (by decide) p
        rw [strrchr_fromDot, hlast] at hlast'
        exact absurd (Option.some.inj hlast') hstar
      · exact heq.symm

/-! ## Agents -/

/-- The agent is on `list_agent` and has a matching subscription. -/
def Subscribed (eclass : CStr) (a : Agent) : Prop :=
  a.loaded = true ∧ ∃ sub ∈ a.listEclass, SubMatches eclass sub

theorem listEclassMatches_spec {eclass : CStr} (hclass : '.' ∈ eclass) {subs : List CStr}
    (hsubs : ∀ sub ∈ subs, '.' ∈ sub) :
    ∃ m, listEclassMatches eclass subs = some m ∧ (m = true ↔ ∃ sub ∈ subs, SubMatches eclass sub) := by
  induction subs with
  | nil => exact ⟨false, rfl, by simp⟩
  | cons si rest ih =>
    obtain ⟨m, hm, hiff⟩ := fmdSubMatches_spec hclass (hsubs si List.mem_cons_self)
    obtain ⟨m', hm', hiff'⟩ := ih fun sub hs => hsubs sub (List.mem_cons_of_mem si hs)
    rw [listEclassMatches, hm, Option.bind_some]
    cases m with
    | true => exact ⟨true, rfl, iff_of_true rfl ⟨si, List.mem_cons_self, hiff.mp rfl⟩⟩
    | false =>
      have hno : ¬ SubMatches eclass si := fun h => Bool.false_ne_true (hiff.mpr h)
      refine ⟨m', hm', hiff'.trans ?_⟩
      simp [hno]

theorem wants_spec {eclass : CStr} (hclass : '.' ∈ eclass) {a : Agent}
    (hsubs : ∀ sub ∈ a.listEclass, '.' ∈ sub) :
    ∃ m, a.wants eclass = some m ∧ (m = true ↔ Subscribed eclass a) := by
  unfold Agent.wants Subscribed
  cases a.loaded with
  | false => exact ⟨false, rfl, by simp⟩
  | true =>
    obtain ⟨m, hm, hiff⟩ := listEclassMatches_spec hclass hsubs
    exact ⟨m, hm, by simpa using hiff⟩

/-- Where an event goes: to the first agent that wants it, once its ring has room, or nowhere. -/
inductive Routes (evt : FmdEvent) (agents : List Agent) : Option (List Agent) → Prop
  | delivered (l₁ : List Agent) (a : Agent) (l₂ : List Agent) (split : agents = l₁ ++ a :: l₂)
      (first : ∀ b ∈ l₁, ¬ Subscribed evt.evClass b) (wants : Subscribed evt.evClass a)
      (room : a.ring.length < ringSize) :
      Routes evt agents (some (l₁ ++ { a with ring := a.ring ++ [evt] } :: l₂))
  | waiting (l₁ : List Agent) (a : Agent) (l₂ : List Agent) (split : agents = l₁ ++ a :: l₂)
      (first : ∀ b ∈ l₁, ¬ Subscribed evt.evClass b) (wants : Subscribed evt.evClass a)
      (full : ringSize ≤ a.ring.length) : Routes evt agents none
  | dropped (unwanted : ∀ a ∈ agents, ¬ Subscribed evt.evClass a) : Routes evt agents (some agents)

/-- **An event goes to the first agent that wants it, and to no other.** -/
theorem putToAgents_routes (evt : FmdEvent) (agents : List Agent) (hclass : '.' ∈ evt.evClass)
    (hsubs : ∀ a ∈ agents, ∀ sub ∈ a.listEclass, '.' ∈ sub) :
    Routes evt agents (putToAgents evt agents) := by
  induction agents with
  | nil => exact .dropped fun a ha => absurd ha List.not_mem_nil
  | cons a rest ih =>
    obtain ⟨m, hm, hiff⟩ := wants_spec hclass (hsubs a List.mem_cons_self)
    have ih := ih fun b hb => hsubs b (List.mem_cons_of_mem a hb)
    rw [putToAgents, hm, Option.bind_some]
    cases m with
    | true =>
      by_cases hroom : a.ring.length < ringSize
      · rw [if_pos rfl, if_pos hroom]
        exact .delivered [] a rest rfl (by simp) (hiff.mp rfl) hroom
      · rw [if_pos rfl, if_neg hroom]
        exact .waiting [] a rest rfl (by simp) (hiff.mp rfl) (not_lt.mp hroom)
    | false =>
      have hno : ¬ Subscribed evt.evClass a := fun h => Bool.false_ne_true (hiff.mpr h)
      rw [if_neg Bool.false_ne_true]
      cases hp : putToAgents evt rest with
      | none =>
        rw [hp] at ih
        cases ih with
        | waiting l₁ b l₂ hs hfirst hwants hfull =>
          refine .waiting (a :: l₁) b l₂ (by rw [hs]; rfl) ?_ hwants hfull
          exact List.forall_mem_cons.mpr ⟨hno, hfirst⟩
      | some agents' =>
        rw [hp] at ih
        cases ih with
        | delivered l₁ b l₂ hs hfirst hwants hroom =>
          refine .delivered (a :: l₁) b l₂ (by rw [hs]; rfl) ?_ hwants hroom
          exact List.forall_mem_cons.mpr ⟨hno, hfirst⟩
        | dropped hun => exact .dropped (List.forall_mem_cons.mpr ⟨hno, hun⟩)

theorem putToAgents_routes_disk :
    let evt : FmdEvent :=
      { addr := 0, devName := "/dev/sda".toList, devId := 0, evtId := 2,
        evClass := "ereport.disk.unhealthy".toList }
    let agents : List Agent :=
      [⟨.cpumem, ["event.cpu.cache.*".toList, "event.cpu.bus.*".toList], .auto, [], .idle, true⟩,
        ⟨.disk, ["event.disk.unhealthy.*".toList], .auto, [], .idle, true⟩]
    Routes evt agents (putToAgents evt agents) :=
  putToAgents_routes _ _ (by decide) (by decide)

end Fms
