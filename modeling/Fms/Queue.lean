import Fms.Agent
import Fms.Case

/-!
# Routing and the repaired list

The two jobs of the queue thread (fms/fmd_queue.c) besides the case engine: `putToAgents` routes an
event to the first agent with a matching subscription, `queueDeleteEntry` is what the periodic sweep
`queue_delete_proc` does with one entry of the repaired list.

* `putToAgents_cases`: an event lands in exactly one ring, or no agent wants it and it is dropped;
* **`queueDeleteEntry_cases`**: everything the sweep can do with an entry.
-/

namespace Fms

open CString

/-! ## Routing -/

/-- `fmd_sub_matches`; `none` is a null pointer dereference. -/
def fmdSubMatches (eclass sub : CStr) : Option Bool :=
  (strchr '.' sub).bind fun pSubHead =>
  (strchr '.' eclass).bind fun pClassHead =>
  (strrchr '.' sub).map fun p =>
    let size := pSubHead.length - p.length
    if p = ".*".toList then strncmpEq pClassHead pSubHead size else decide (pClassHead = pSubHead)

/-- The loop of `put_to_agents` over the subscriptions of one module. -/
def listEclassMatches (eclass : CStr) : List CStr → Option Bool
  | [] => some false
  | si :: rest =>
    (fmdSubMatches eclass si).bind fun m => if m then some true else listEclassMatches eclass rest

/-- Whether the module is in `list_agent` and subscribes to a class. -/
def Agent.wants (eclass : CStr) (a : Agent) : Option Bool :=
  if a.loaded then listEclassMatches eclass a.listEclass else some false

/-- `put_to_agents`, with `put_to_agent`; `none` while the ring of the agent is full. -/
def putToAgents (evt : FmdEvent) : List Agent → Option (List Agent)
  | [] => some []
  | pmodule :: rest =>
    (pmodule.wants evt.evClass).bind fun m =>
      if m then
        if pmodule.ring.length < ringSize then
          some ({ pmodule with ring := pmodule.ring ++ [evt] } :: rest)
        else none
      else (putToAgents evt rest).map (pmodule :: ·)

/-- No loaded agent subscribes to the class of the event. -/
def Unwanted (agents : List Agent) (evt : FmdEvent) : Prop :=
  ∀ a ∈ agents, a.wants evt.evClass = some false

instance (agents : List Agent) (evt : FmdEvent) : Decidable (Unwanted agents evt) :=
  inferInstanceAs (Decidable (∀ a ∈ agents, a.wants evt.evClass = some false))

/-- What routing an event does to the agents. -/
inductive Routed (agents : List Agent) (evt : FmdEvent) : List Agent → Prop
  | delivered (l₁ : List Agent) (a : Agent) (l₂ : List Agent) (split : agents = l₁ ++ a :: l₂)
      (loaded : a.loaded = true) (wants : a.wants evt.evClass = some true) :
      Routed agents evt (l₁ ++ { a with ring := a.ring ++ [evt] } :: l₂)
  | dropped (unwanted : Unwanted agents evt) : Routed agents evt agents

theorem putToAgents_cases {evt : FmdEvent} {agents agents' : List Agent}
    (h : putToAgents evt agents = some agents') : Routed agents evt agents' := by
  induction agents generalizing agents' with
  | nil =>
    cases h
    exact .dropped fun a ha => absurd ha List.not_mem_nil
  | cons a rest ih =>
    obtain ⟨m, hm, h⟩ := Option.bind_eq_some_iff.mp h
    cases m with
    | true =>
      simp only [if_true] at h
      split_ifs at h
      cases h
      have hl : a.loaded = true := by
        by_contra hn
        simp [Agent.wants, hn] at hm
      exact .delivered [] a rest rfl hl hm
    | false =>
      simp only [Bool.false_eq_true, if_false] at h
      obtain ⟨r, hr, rfl⟩ := Option.map_eq_some_iff.mp h
      cases ih hr with
      | delivered l₁ b l₂ hs hl hw =>
        rw [hs]
        exact .delivered (a :: l₁) b l₂ rfl hl hw
      | dropped hu =>
        refine .dropped fun b hb => ?_
        rcases List.mem_cons.mp hb with rfl | hb
        · exact hm
        · exact hu b hb

theorem not_unwanted_of_wants {agents l₁ l₂ : List Agent} {a : Agent} {evt : FmdEvent}
    (hs : agents = l₁ ++ a :: l₂) (hw : a.wants evt.evClass = some true) :
    ¬ Unwanted agents evt := fun h => by
  have hf := h a (by rw [hs]; exact List.mem_append_right l₁ List.mem_cons_self)
  rw [hf] at hw
  exact absurd (Option.some.inj hw) Bool.false_ne_true

/-! ## The sweep -/

/-- The time and count test of `queue_delete_proc`. -/
def Due (now : ℤ) (pevt : FmdEvent) : Prop :=
  pevt.repairedT ≤ now - pevt.evCreate ∧ pevt.evRefs < pevt.repairedN

instance (now : ℤ) (pevt : FmdEvent) : Decidable (Due now pevt) :=
  inferInstanceAs (Decidable (_ ∧ _))

/-- What the sweep leaves of an entry: the case list, whether the entry stays on the repaired list,
and the payload it released. -/
structure Swept where
  listCase : List FmdCase
  kept : Bool
  freed : Option ℕ
  deriving DecidableEq, Repr

/-- The body of the loop of `queue_delete_proc`. -/
def queueDeleteEntry (now : ℤ) (listCase : List FmdCase) (pevt : FmdEvent) : Swept :=
  if pevt.agentResult.code &&& listResultMask ≠ 0 then
    if pevt.agentResult = .isolatedFailed then
      let r := fmdCaseFindAndDelete pevt listCase
      if r.2 ≠ 0 then ⟨r.1, false, pevt.data⟩ else ⟨r.1, true, none⟩
    else ⟨listCase, true, none⟩
  else if pevt.agentResult = .isolatedSuccess then
    ⟨(fmdCaseFindAndDelete pevt listCase).1, true, none⟩
  else if Due now pevt then
    ⟨(fmdCaseFindAndDelete pevt listCase).1, false, none⟩
  else ⟨listCase, true, none⟩

/-- The mask finds every failed or manual result, and neither a success nor the result 0. -/
theorem code_land_mask (r : AgentResult) :
    r.code &&& listResultMask ≠ 0 ↔ r ≠ .none ∧ r.success = false := by
  cases r <;> decide

/-- The entries the sweep looks up in the case list. -/
def Looked (now : ℤ) (pevt : FmdEvent) : Prop :=
  pevt.agentResult = .isolatedFailed ∨ pevt.agentResult = .isolatedSuccess ∨
    ((pevt.agentResult = .none ∨ pevt.agentResult = .repairedSuccess) ∧ Due now pevt)

instance (now : ℤ) (pevt : FmdEvent) : Decidable (Looked now pevt) :=
  inferInstanceAs (Decidable (_ ∨ _ ∨ _))

/-- What the sweep does with an entry: nothing, or one search of the case list, whose return code
only matters after a failed isolation. -/
inductive EntrySwept (now : ℤ) (listCase : List FmdCase) (pevt : FmdEvent) : Swept → Prop
  | skipped (h : ¬ Looked now pevt) : EntrySwept now listCase pevt ⟨listCase, true, none⟩
  | released (h : pevt.agentResult = .isolatedFailed)
      (ret : (fmdCaseFindAndDelete pevt listCase).2 ≠ 0) :
      EntrySwept now listCase pevt ⟨(fmdCaseFindAndDelete pevt listCase).1, false, pevt.data⟩
  | failed (h : pevt.agentResult = .isolatedFailed)
      (ret : (fmdCaseFindAndDelete pevt listCase).2 = 0) :
      EntrySwept now listCase pevt ⟨(fmdCaseFindAndDelete pevt listCase).1, true, none⟩
  | isolated (h : pevt.agentResult = .isolatedSuccess) :
      EntrySwept now listCase pevt ⟨(fmdCaseFindAndDelete pevt listCase).1, true, none⟩
  | removed (h : pevt.agentResult = .none ∨ pevt.agentResult = .repairedSuccess)
      (due : Due now pevt) :
      EntrySwept now listCase pevt ⟨(fmdCaseFindAndDelete pevt listCase).1, false, none⟩

theorem queueDeleteEntry_cases (now : ℤ) (listCase : List FmdCase) (pevt : FmdEvent) :
    EntrySwept now listCase pevt (queueDeleteEntry now listCase pevt) := by
  unfold queueDeleteEntry
  simp only [code_land_mask]
  cases hr : pevt.agentResult with
  | none =>
    by_cases hd : Due now pevt
    · simpa [hd] using EntrySwept.removed (.inl hr) hd
    · simpa [hd] using EntrySwept.skipped (by simpa [Looked, hr] using hd)
  | isolatedFailed =>
    by_cases hz : (fmdCaseFindAndDelete pevt listCase).2 = 0
    · simpa [AgentResult.success, hz] using EntrySwept.failed hr hz
    · simpa [AgentResult.success, hz] using EntrySwept.released hr hz
  | isolatedSuccess => simpa [AgentResult.success] using EntrySwept.isolated hr
  | repairedFailed =>
    simpa [AgentResult.success] using EntrySwept.skipped (by simp [Looked, hr])
  | repairedSuccess =>
    by_cases hd : Due now pevt
    · simpa [AgentResult.success, hd] using EntrySwept.removed (.inr hr) hd
    · simpa [AgentResult.success, hd] using EntrySwept.skipped (by simpa [Looked, hr] using hd)
  | repairedManual =>
    simpa [AgentResult.success] using EntrySwept.skipped (by simp [Looked, hr])

end Fms
