import Fms.Counter
import Fms.Sweep
import Fms.Lib.Shared

/-!
# The payloads of events

An ereport, the fault copy it fires and the list events the agents make of both refer to one payload
(`data`). The sweep gives it to `free` in one place, when an isolation has failed and the search of
the case list returns -1: it takes that code for "no such case", but a busy case has it too.

* `Daemon.records`: the live records, `PayloadsSafe`: none of them has a released payload;
* `PayloadOk`: the invariant. The fault and its results form one line (`faultTokens`), so an entry that
  reports a failed isolation is the last record of its line; what else may have its payload is the
  ereport, in its case or on its way, and the log entries made of the ereport;
* **`payloadsSafe_iff`**: released payloads and live records stay apart in exactly the runs that
  release no payload still held by the ereport of a busy case or by a log entry.
-/

namespace Fms

open Keyed Run Shared Tokens

/-- The live records: events in cases, in flight, results of the agents and repaired-list entries. -/
def Daemon.records (d : Daemon) : List FmdEvent :=
  d.listCase.flatMap FmdCase.csEvent ++ (d.inflight ++ (d.pending ++ d.repairedList))

/-- Released payloads and payloads of live records are disjoint. -/
def PayloadsSafe (d : Daemon) : Prop := ∀ p ∈ d.freed, ∀ e ∈ d.records, e.data ≠ some p

/-- An ereport of the case has the payload: stored in the case, or on its way to an agent. -/
def CaseHas (d : Daemon) (c : FmdCase) (data : Option ℕ) : Prop :=
  (∃ e ∈ c.csEvent, e.data = data) ∨
    ∃ e ∈ d.inflight, e.evFlag ≠ .agentTodo ∧ e.pCase = some c.addr ∧ e.data = data

/-- A list event with the result 0 has the payload. -/
def LogHas (d : Daemon) (data : Option ℕ) : Prop :=
  ∃ r ∈ d.pending ++ d.repairedList, r.agentResult = .none ∧ r.data = data

/-- The sweep comes to a failed isolation with a payload, finds no idle case that holds the event, and
a busy case of the device or a log entry still has the payload. -/
def ReleasesShared : Act → Daemon → Prop
  | .sweepEntry _, d => ∃ pevt, d.repaired.head? = some pevt ∧ pevt.agentResult = .isolatedFailed ∧
      pevt.data ≠ none ∧ ¬ IdleHolder d.listCase pevt ∧
      ((∃ c ∈ d.listCase, c.device = pevt.device ∧ 0 < c.mEventUsing ∧ CaseHas d c pevt.data) ∨
        LogHas d pevt.data)
  | _, _ => False

/-! ## References -/

theorem mem_records {d : Daemon} {e : FmdEvent} : e ∈ d.records ↔
    (∃ c ∈ d.listCase, e ∈ c.csEvent) ∨ e ∈ d.inflight ∨ e ∈ d.pending ∨ e ∈ d.repairedList := by
  simp only [Daemon.records, List.mem_append, List.mem_flatMap]

/-- What a payload is about. -/
abbrev Tag := Device × ℤ

def FmdEvent.tag (e : FmdEvent) : Tag := (e.device, e.evtId)

/-- Two records with one payload and one tag. -/
def SameRef (e e' : FmdEvent) : Prop := e.data = e'.data ∧ e.tag = e'.tag

theorem SameRef.rfl {e : FmdEvent} : SameRef e e := ⟨Eq.refl _, Eq.refl _⟩

/-- The live references and the released payloads. -/
def Daemon.shared (d : Daemon) : State ℕ Tag where
  refs := {r | ∃ e ∈ d.records, e.data = some r.1 ∧ e.tag = r.2}
  freed := {p | p ∈ d.freed}

theorem safe_shared (d : Daemon) : Safe d.shared ↔ PayloadsSafe d := by
  constructor
  · exact fun h p hp e he hd => h p e.tag ⟨e, he, hd, rfl⟩ hp
  · rintro h p t ⟨e, he, hd, -⟩ hp
    exact h p hp e he hd

/-- Where the reference of a live record was before a step: in another live record, or it is the
reference of the ereport of an insertion. -/
def RefFrom (d : Daemon) (act : Act) (e : FmdEvent) : Prop :=
  (∃ e₀ ∈ d.records, SameRef e e₀) ∨
    ∃ nvl now clk, act = .ereport nvl now clk ∧ SameRef e (dispatched d nvl now)

theorem refFrom_inflight {d : Daemon} {act : Act} {e : FmdEvent} (h : InflightFrom d act e) :
    RefFrom d act e := by
  have hrec {x : FmdEvent} (hx : x ∈ d.inflight) : x ∈ d.records := mem_records.mpr (.inr (.inl hx))
  cases h with
  | old h => exact .inl ⟨e, hrec h, .rfl⟩
  | @marked _ x mode h => exact .inl ⟨x, hrec h, rfl, rfl⟩
  | report c _ _ =>
    obtain ⟨-, -, hdev, hid, hdata, -⟩ := fmdEventAdd_pevt _ (d.next + 2) c (dispatched d _ _)
    exact .inr ⟨_, _, _, rfl, hdata, Prod.ext hdev hid⟩
  | fault c hf =>
    obtain ⟨-, -, -, hdev, hid, -, hdata⟩ := fmdEventAdd_isFaultOf _ _ _ _ hf
    exact .inr ⟨_, _, _, rfl, hdata, Prod.ext hdev hid⟩

theorem refFrom_step {act : Act} {d d' : Daemon} {e : FmdEvent} (h : d.StoreOk)
    (hst : Step d act d') (he : e ∈ d'.records) : RefFrom d act e := by
  rcases mem_records.mp he with ⟨c, hc, he⟩ | he | he | he
  · cases stored_step h hst hc he with
    | old c hc he _ => exact .inl ⟨e, mem_records.mpr (.inl ⟨c, hc, he⟩), .rfl⟩
    | @counted _ _ _ x c hc hx _ _ _ _ =>
      exact .inl ⟨x, mem_records.mpr (.inl ⟨c, hc, hx⟩), rfl, rfl⟩
    | stored c _ _ _ => exact .inr ⟨_, _, _, rfl, rfl, rfl⟩
  · exact refFrom_inflight (inflight_step hst he)
  · cases pending_step hst he with
    | old he => exact .inl ⟨e, mem_records.mpr (.inr (.inr (.inl he))), .rfl⟩
    | made a evt env now ha hpc hret =>
      obtain ⟨hdev, hid, hdata, -⟩ := evtHandle_some hret
      have hevt : evt ∈ d.inflight := mem_inflight.mpr
        (.inr ⟨a, ha, List.mem_append_right _ (by rw [hpc]; exact List.mem_singleton_self evt)⟩)
      exact .inl ⟨evt, mem_records.mpr (.inr (.inl hevt)), hdata, Prod.ext hdev hid⟩
  · cases repairedList_step hst he with
    | old he => exact .inl ⟨e, mem_records.mpr (.inr (.inr (.inr he))), .rfl⟩
    | @merged r x hx => exact .inl ⟨x, mem_records.mpr (.inr (.inr (.inr hx))), rfl, rfl⟩
    | @put r a ha hpc =>
      have hr : r ∈ d.pending := mem_pending.mpr ⟨a, ha, by simp [Agent.results, hpc]⟩
      exact .inl ⟨r, mem_records.mpr (.inr (.inr (.inl hr))), rfl, rfl⟩

/-! ## The line of a fault -/

/-- The payload of a fault copy. -/
def faultToken (e : FmdEvent) : Option ℕ := if e.evFlag = .agentTodo then e.data else none

/-- The payload of a result that reports more than a log entry. -/
def outcomeToken (r : FmdEvent) : Option ℕ := if r.agentResult ≠ .none then r.data else none

/-- The result an agent thread is about to put on the repaired list. -/
def Agent.posting (a : Agent) : List FmdEvent :=
  match a.pc with
  | .putting r => [r]
  | _ => []

/-- The fault copies in flight and their results, each once. -/
def faultTokens (d : Daemon) : Multiset ℕ :=
  tokens faultToken d.inflight +
    (tokens outcomeToken (d.agents.flatMap Agent.posting) + tokens outcomeToken d.repairedList)

/-- The token an insertion may add. -/
def newToken (d : Daemon) : Act → Multiset ℕ
  | .ereport nvl now _ => ((dispatched d nvl now).data.toList : List ℕ)
  | _ => 0

theorem faultTokens_agents {d : Daemon} {l₁ l₂ : List Agent} {a : Agent}
    (h : d.agents = l₁ ++ a :: l₂) : faultTokens d =
      tokens faultToken a.events + tokens outcomeToken a.posting +
        (tokens faultToken d.queue.events + tokens outcomeToken d.repairedList +
          tokens faultToken ((l₁ ++ l₂).flatMap Agent.events) +
          tokens outcomeToken ((l₁ ++ l₂).flatMap Agent.posting)) := by
  rw [faultTokens, Daemon.inflight, tokens_append, tokens_flatMap faultToken Agent.events h,
    tokens_flatMap outcomeToken Agent.posting h]
  abel

theorem faultTokens_agent_le {d d' : Daemon} {l₁ l₂ : List Agent} {a a' : Agent}
    (hs : d.agents = l₁ ++ a :: l₂) (hs' : d'.agents = l₁ ++ a' :: l₂)
    (hq : d'.queue = d.queue) (hr : d'.repaired = d.repaired)
    (h : tokens faultToken a'.events + tokens outcomeToken a'.posting ≤
      tokens faultToken a.events + tokens outcomeToken a.posting) :
    faultTokens d' ≤ faultTokens d := by
  rw [faultTokens_agents hs, faultTokens_agents hs', Daemon.repairedList, Daemon.repairedList, hq,
    hr]
  exact add_le_add h le_rfl

theorem tokens_added (clk : Clock) (addr : ℕ) (c : FmdCase) {pevt : FmdEvent}
    (hf : pevt.evFlag ≠ .agentTodo) :
    tokens faultToken (fmdEventAdd clk addr c pevt).queue.events ≤ (pevt.data.toList : List ℕ) := by
  have hnone : faultToken (fmdEventAdd clk addr c pevt).pevt = none := by
    rw [faultToken, (fmdEventAdd_pevt ..).2.1, if_neg hf]
  unfold Added.queue
  cases hfa : (fmdEventAdd clk addr c pevt).pfault with
  | none => exact (tokens_none hnone).trans_le zero_le
  | some f =>
    rw [QueuePc.events, tokens_cons, tokens_none hnone, add_zero]
    have hdata := (fmdEventAdd_isFaultOf clk addr c pevt hfa).data
    cases hp : pevt.data with
    | none =>
      refine (tokens_none ?_).le
      rw [faultToken, hdata, hp]
      exact ite_self _
    | some p =>
      refine (tokens_some ?_).le
      rw [faultToken, hdata, hp, if_pos (fmdEventAdd_isFaultOf clk addr c pevt hfa).flag]

/-- The handlers report on the events they were given, and nothing but a log entry on an ereport. -/
def HandledOk (d : Daemon) : Prop := ∀ a ∈ d.agents, ∀ evt r, a.pc = .handled evt (some r) →
  r.data = evt.data ∧ (evt.evFlag ≠ .agentTodo → r.agentResult = .none)

/-- The fault copy gives its token to its result. -/
theorem outcomeToken_le {evt r : FmdEvent} (hdata : r.data = evt.data)
    (hlog : evt.evFlag ≠ .agentTodo → r.agentResult = .none) :
    tokens outcomeToken [r] ≤ tokens faultToken [evt] := by
  by_cases hf : evt.evFlag = .agentTodo
  · by_cases hn : r.agentResult = .none
    · exact (tokens_none (by simp [outcomeToken, hn])).trans_le zero_le
    · refine le_of_eq ?_
      cases hp : evt.data with
      | none => rw [tokens_none (by simp [outcomeToken, hdata, hp]),
          tokens_none (by simp [faultToken, hp])]
      | some p => rw [tokens_some (by rw [outcomeToken, if_pos hn, hdata, hp]),
          tokens_some (by rw [faultToken, if_pos hf, hp])]
  · exact (tokens_none (by simp [outcomeToken, hlog hf])).trans_le zero_le

theorem outcomeTokens_put {repaired l : List FmdEvent} {r : FmdEvent} (hput : ResultPut repaired r l) :
    tokens outcomeToken l ≤ tokens outcomeToken [r] + tokens outcomeToken repaired := by
  cases hput with
  | merged m₁ p m₂ hm _ =>
    have hmerge : outcomeToken (mergeResult r p) = outcomeToken p := rfl
    rw [hm, tokens_append, tokens_append, tokens_cons, tokens_cons _ p m₂, tokens_congr hmerge]
    exact Multiset.le_add_left _ _
  | appended _ =>
    have hcount : outcomeToken { r with evCount := 1 } = outcomeToken r := rfl
    rw [tokens_append, tokens_congr hcount, add_comm]

/-- **A step adds no token except the fault of an insertion.** -/
theorem faultTokens_step {act : Act} {d d' : Daemon} (hh : HandledOk d) (hst : Step d act d') :
    faultTokens d' ≤ newToken d act + faultTokens d := by
  have hle {m : Multiset ℕ} (h : faultTokens d' ≤ faultTokens d) :
      faultTokens d' ≤ m + faultTokens d := h.trans (Multiset.le_add_left _ _)
  cases hst with
  | lost _ _ => exact hle le_rfl
  | @inserted nvl now clk lc r idle _ ha =>
    have hflag : (dispatched d nvl now).evFlag ≠ .agentTodo := by simp
    have hr : tokens faultToken r.queue.events ≤
        ((dispatched d nvl now).data.toList : List ℕ) := by
      cases ha with
      | found l₁ c l₂ _ _ _ => exact tokens_added clk _ c hflag
      | created _ => exact tokens_added clk _ _ hflag
    have hev : d.queue.events = [] := by rw [idle]; rfl
    have hseen : d.queue.seen = [] := by rw [idle]; rfl
    simp only [faultTokens, Daemon.inflight, Daemon.repairedList, added_seen, hev, hseen,
      tokens_append, tokens_nil, zero_add]
    rw [add_assoc]
    exact add_le_add hr le_rfl
  | @put evt queue agents hputs hr =>
    have hev := puts_events hputs
    obtain ⟨hseen, hseen'⟩ := puts_seen hputs
    refine hle ?_
    cases hr with
    | delivered l₁ a l₂ hs _ _ =>
      rw [faultTokens_agents hs,
        faultTokens_agents (d := { d with queue := queue, agents := _ }) rfl]
      simp only [Agent.events, Agent.posting, Daemon.repairedList, hev, hseen, hseen', tokens_append,
        tokens_cons _ evt queue.events]
      refine le_of_eq ?_
      abel
    | dropped _ =>
      simp only [faultTokens, Daemon.inflight, Daemon.repairedList, hev, hseen, hseen',
        tokens_append, tokens_cons _ evt queue.events]
      refine add_le_add (add_le_add ?_ le_rfl) le_rfl
      exact Multiset.le_add_left _ _
  | sweepBegin idle =>
    refine hle (le_of_eq ?_)
    simp [faultTokens, Daemon.inflight, Daemon.repairedList, idle]
  | @sweepEntry now seen pevt rest hq hr =>
    refine hle ?_
    simp only [faultTokens, Daemon.inflight, Daemon.repairedList, sweepEntry, hq, hr,
      QueuePc.events, QueuePc.seen, tokens_append]
    refine add_le_add le_rfl (add_le_add le_rfl ?_)
    rw [tokens_cons _ pevt rest]
    split_ifs
    · rw [tokens_append]
      exact (add_assoc _ _ _).le
    · exact add_le_add le_rfl (Multiset.le_add_left _ _)
  | sweepEnd hq hr =>
    refine hle (le_of_eq ?_)
    simp [faultTokens, Daemon.inflight, Daemon.repairedList, hq, hr]
  | @take l₁ a l₂ evt ring hs _ hpc hring =>
    refine hle (faultTokens_agent_le hs rfl rfl rfl (le_of_eq ?_))
    simp only [Agent.events, Agent.posting, hpc, hring, AgentPc.events, tokens_append, tokens_nil,
      tokens_cons _ evt ring, add_zero]
    exact add_comm _ _
  | @handle l₁ a l₂ evt r env now hs hpc _ =>
    refine hle (faultTokens_agent_le hs rfl rfl rfl (le_of_eq ?_))
    have hmark : faultToken (markHandled a.evtHandleMode evt) = faultToken evt := rfl
    simp only [Agent.events, Agent.posting, hpc, AgentPc.events, tokens_append]
    rw [tokens_congr hmark]
  | @finish l₁ a l₂ evt r hs hpc =>
    refine hle (faultTokens_agent_le hs rfl rfl rfl ?_)
    cases r with
    | none => simp [Agent.events, Agent.posting, hpc]
    | some r =>
      obtain ⟨hdata, hlog⟩ := hh a (mem_of_split hs) evt r hpc
      simpa [Agent.events, Agent.posting, hpc] using outcomeToken_le hdata hlog
  | @result l₁ a l₂ r repaired hs hpc _ hput =>
    refine hle ?_
    have hrep := outcomeTokens_put hput
    rw [faultTokens_agents hs,
      faultTokens_agents (d := { d with agents := _, repaired := repaired }) rfl]
    simp only [Agent.events, Agent.posting, Daemon.repairedList, hpc, AgentPc.events, tokens_append,
      tokens_nil, add_zero]
    calc _ ≤ tokens faultToken a.ring + (tokens faultToken d.queue.events +
          (tokens outcomeToken d.queue.seen +
            (tokens outcomeToken [r] + tokens outcomeToken d.repaired)) +
          tokens faultToken ((l₁ ++ l₂).flatMap Agent.events) +
          tokens outcomeToken ((l₁ ++ l₂).flatMap Agent.posting)) := by gcongr
      _ = _ := by abel
  | load =>
    refine hle (le_of_eq ?_)
    simp [faultTokens, Daemon.inflight, Daemon.repairedList, Agent.events, Agent.posting]
  | @unload l₁ a l₂ hs _ =>
    refine hle (faultTokens_agent_le hs rfl rfl rfl ?_)
    simp only [Agent.events, Agent.posting, tokens_append, tokens_nil, zero_add]
    exact add_le_add (Multiset.le_add_left _ _) le_rfl
  | @config l₁ a l₂ mode hs _ => exact hle (faultTokens_agent_le hs rfl rfl rfl le_rfl)

/-! ## The invariant -/

/-- What holds of the payloads in every run. -/
structure PayloadOk (d : Daemon) : Prop where
  count : CountOk d
  home : ∀ e ∈ d.inflight, e.evFlag ≠ .agentTodo → ∀ c ∈ d.listCase, e.pCase = some c.addr →
    c.device = e.device
  fresh : ∀ e ∈ d.records, ∀ p, e.data = some p → p < d.next
  freed : ∀ p ∈ d.freed, p < d.next
  tagged : Tagged d.shared
  line : (faultTokens d).Nodup
  handled : HandledOk d

theorem handledOk_step {act : Act} {d d' : Daemon} (h : HandledOk d) (hst : Step d act d') :
    HandledOk d' := by
  have hold {l₁ l₂ : List Agent} {a a' : Agent} (hs : d.agents = l₁ ++ a :: l₂)
      (ha : ∀ evt r, a'.pc = .handled evt (some r) →
        r.data = evt.data ∧ (evt.evFlag ≠ .agentTodo → r.agentResult = .none)) :
      ∀ x ∈ l₁ ++ a' :: l₂, ∀ evt r, x.pc = .handled evt (some r) →
        r.data = evt.data ∧ (evt.evFlag ≠ .agentTodo → r.agentResult = .none) := by
    intro x hx
    rcases mem_of_replace hs hx with rfl | hx
    · exact ha
    · exact h x hx
  cases hst with
  | put _ hr =>
    cases hr with
    | delivered l₁ a l₂ hs _ _ => exact hold hs (h a (mem_of_split hs))
    | dropped _ => exact h
  | take hs _ _ _ => exact hold hs fun _ _ hpc => AgentPc.noConfusion hpc
  | @handle l₁ a l₂ evt ret env now hs _ hret =>
    refine hold hs fun e r hpc => ?_
    obtain ⟨rfl, rfl⟩ := AgentPc.handled.inj hpc
    refine ⟨(evtHandle_some hret).2.2.1, fun hf => ?_⟩
    exact (evtHandle_result hret).mpr (.inl hf)
  | @finish l₁ a l₂ evt ret hs _ =>
    refine hold hs fun e r hpc => ?_
    cases ret <;> exact AgentPc.noConfusion hpc
  | result hs _ _ _ => exact hold hs fun _ _ hpc => AgentPc.noConfusion hpc
  | load =>
    intro a ha evt r hpc
    rcases List.mem_cons.mp ha with rfl | ha
    · exact AgentPc.noConfusion hpc
    · exact h a ha evt r hpc
  | @unload l₁ a l₂ hs _ => exact hold hs (h a (mem_of_split hs))
  | @config l₁ a l₂ mode hs _ => exact hold hs (h a (mem_of_split hs))
  | _ => exact h

theorem next_le {act : Act} {d d' : Daemon} (hst : Step d act d') : d.next ≤ d'.next := by
  cases hst with
  | lost _ _ => exact Nat.le_add_right _ _
  | inserted _ _ _ => exact Nat.le_add_right _ _
  | handle _ _ _ => exact Nat.le_succ _
  | _ => exact le_rfl

theorem next_ereport {nvl : Nvlist} {now : ℤ} {clk : Clock} {d d' : Daemon}
    (hst : Step d (.ereport nvl now clk) d') : d'.next = d.next + 4 := by
  cases hst <;> rfl

theorem dispatched_data_eq {d : Daemon} {nvl : Nvlist} {now : ℤ} {p : ℕ}
    (h : (dispatched d nvl now).data = some p) : p = d.next + 1 := by
  rw [dispatched_data] at h
  split_ifs at h
  exact (Option.some.inj h).symm

theorem mem_faultTokens {d : Daemon} {p : ℕ} (h : p ∈ faultTokens d) :
    ∃ e ∈ d.records, e.data = some p := by
  simp only [faultTokens, Multiset.mem_add, mem_tokens] at h
  have hdata {e : FmdEvent} {b : Prop} [Decidable b] (he : (if b then e.data else none) = some p) :
      e.data = some p := by
    split_ifs at he
    exact he
  rcases h with ⟨e, he, hp⟩ | ⟨e, he, hp⟩ | ⟨e, he, hp⟩
  · exact ⟨e, mem_records.mpr (.inr (.inl he)), hdata hp⟩
  · obtain ⟨a, ha, hea⟩ := List.mem_flatMap.mp he
    have hres : e ∈ a.results := by
      unfold Agent.posting at hea
      split at hea
      · rename_i r hpc
        simpa [Agent.results, hpc] using hea
      · exact absurd hea List.not_mem_nil
    exact ⟨e, mem_records.mpr (.inr (.inr (.inl (mem_pending.mpr ⟨a, ha, hres⟩)))), hdata hp⟩
  · exact ⟨e, mem_records.mpr (.inr (.inr (.inr he))), hdata hp⟩

/-- The payload a step releases. -/
def Releases : Act → Daemon → ℕ → Prop
  | .sweepEntry _, d, p => ∃ pevt, d.repaired.head? = some pevt ∧
      pevt.agentResult = .isolatedFailed ∧ pevt.data = some p ∧ ¬ IdleHolder d.listCase pevt
  | _, _, _ => False

/-- After a failed isolation the search returns 0 exactly when an idle case holds the event. -/
theorem findAndDelete_ret {n : ℕ} {lc : List FmdCase} {pevt : FmdEvent} (h : StoreOk n lc)
    (hr : pevt.agentResult ≠ .isolatedSuccess) :
    (fmdCaseFindAndDelete pevt lc).2 = 0 ↔ IdleHolder lc pevt := by
  have hd := fmdCaseFindAndDelete_cases h.addrs pevt
  generalize fmdCaseFindAndDelete pevt lc = r at hd
  cases hd with
  | case _ _ _ _ hres _ _ => exact absurd hres hr
  | event l₁ c l₂ hs _ hidle hdev hholds =>
    exact iff_of_true rfl ⟨c, mem_of_split hs, hdev, hidle, hholds⟩
  | nothing hno =>
    refine iff_of_false (Int.negSucc_ne_zero 0) ?_
    rintro ⟨c, hc, hdev, hidle, hholds⟩
    rcases hno c ⟨hc, hdev⟩ with hbusy | ⟨-, hnot⟩
    · exact absurd hidle (not_le.mpr hbusy)
    · exact hnot hholds

theorem refs_step {act : Act} {d d' : Daemon} (h : d.StoreOk) (hst : Step d act d') {r : ℕ × Tag}
    (hr : r ∈ d'.shared.refs) : r ∈ d.shared.refs ∨ ∃ nvl now clk, act = .ereport nvl now clk ∧
      r = (d.next + 1, (dispatched d nvl now).tag) := by
  obtain ⟨e, he, hd, ht⟩ := hr
  rcases refFrom_step h hst he with ⟨e₀, he₀, hdata, htag⟩ | ⟨nvl, now, clk, rfl, hdata, htag⟩
  · exact .inl ⟨e₀, he₀, hdata ▸ hd, htag ▸ ht⟩
  · refine .inr ⟨nvl, now, clk, rfl, Prod.ext ?_ ?_⟩
    · exact dispatched_data_eq (hdata ▸ hd)
    · exact ht.symm.trans htag

/-- The payload one entry of the sweep gives to `free`. -/
theorem queueDeleteEntry_freed {n : ℕ} {lc : List FmdCase} (h : StoreOk n lc) (now : ℤ)
    (pevt : FmdEvent) (p : ℕ) : (queueDeleteEntry now lc pevt).freed = some p ↔
      pevt.agentResult = .isolatedFailed ∧ pevt.data = some p ∧ ¬ IdleHolder lc pevt := by
  have hno {P : Prop} (hP : ¬ P) : (none : Option ℕ) = some p ↔ P :=
    iff_of_false (Option.some_ne_none p).symm hP
  generalize hs : queueDeleteEntry now lc pevt = s
  cases hs ▸ queueDeleteEntry_cases now lc pevt with
  | skipped hl => exact hno fun h' => hl (.inl h'.1)
  | released hf hret =>
    rw [Ne, findAndDelete_ret h (by rw [hf]; decide)] at hret
    exact ⟨fun hp => ⟨hf, hp, hret⟩, fun h' => h'.2.1⟩
  | failed hf hret =>
    rw [findAndDelete_ret h (by rw [hf]; decide)] at hret
    exact hno fun h' => h'.2.2 hret
  | isolated hi => exact hno fun h' => AgentResult.noConfusion (hi.symm.trans h'.1)
  | removed hn _ =>
    refine hno fun h' => ?_
    rcases hn with hn | hn
    · exact AgentResult.noConfusion (hn.symm.trans h'.1)
    · exact AgentResult.noConfusion (hn.symm.trans h'.1)

/-- A step of the daemon as an operation on shared blocks. -/
theorem shared_step {act : Act} {d d' : Daemon} (h : PayloadOk d) (hst : Step d act d') :
    ∃ o, Shared.Step d.shared d'.shared o ∧ ∀ p, o = some p ↔ Releases act d p := by
  have hstore := h.count.store
  have hrefs := fun {r} => refs_step hstore hst (r := r)
  have hmove (hact : ∀ nvl now clk, act ≠ .ereport nvl now clk) : d'.shared.refs ⊆ d.shared.refs := by
    intro r hr
    rcases hrefs hr with hr | ⟨nvl, now, clk, he, -⟩
    · exact hr
    · exact absurd he (hact nvl now clk)
  have hno {p : ℕ} (hp : ¬ Releases act d p) : (none : Option ℕ) = some p ↔ Releases act d p :=
    iff_of_false (Option.some_ne_none p).symm hp
  cases act with
  | ereport nvl now clk =>
    refine ⟨none, .alloc (d.next + 1) (dispatched d nvl now).tag ?_ ?_ ?_ ?_, fun p => hno id⟩
    · rintro t ⟨e, he, hd, -⟩
      have hlt := h.fresh e he _ hd
      simp only at hlt
      omega
    · intro hp
      have hlt := h.freed _ hp
      omega
    · intro r hr
      rcases hrefs hr with hr | ⟨nvl', now', clk', he, hr⟩
      · exact .inr hr
      · cases he
        exact .inl hr
    · cases hst with
      | lost _ _ => rfl
      | inserted _ _ _ => rfl
  | sweepEntry now =>
    cases hst with
    | @sweepEntry _ seen pevt rest hq hr =>
      have hfreed := queueDeleteEntry_freed hstore now pevt
      have hmv := hmove fun _ _ _ he => Act.noConfusion he
      refine ⟨(queueDeleteEntry now d.listCase pevt).freed, ?_, fun p => ?_⟩
      · cases hp : (queueDeleteEntry now d.listCase pevt).freed with
        | none => exact .move hmv (by simp [Daemon.shared, sweepEntry, hp])
        | some p =>
          refine .free p hmv (Set.ext fun x => ?_)
          simp [Daemon.shared, sweepEntry, hp]
      · rw [hfreed]
        simp only [Releases, hr, List.head?_cons, Option.some.injEq, exists_eq_left']
  | _ =>
    refine ⟨none, .move (hmove fun _ _ _ he => Act.noConfusion he) ?_, fun p => hno id⟩
    cases hst
    all_goals rfl

theorem home_step {act : Act} {d d' : Daemon} (h : PayloadOk d) (hst : Step d act d') :
    ∀ e ∈ d'.inflight, e.evFlag ≠ .agentTodo → ∀ c ∈ d'.listCase, e.pCase = some c.addr →
      c.device = e.device := by
  have hstore := h.count.store
  -- a case with a name listed before was listed before, with the same device
  have hcase {c c₀ : FmdCase} (hc : c ∈ d'.listCase) (hc₀ : c₀ ∈ d.listCase)
      (ha : c₀.addr = c.addr) : c.device = c₀.device := by
    rcases listCase_step hstore hst hc with ⟨c₁, hc₁, ha₁, hd₁⟩ | ⟨_, _, _, -, hnew, -⟩
    · rw [← hd₁, hstore.addr_unique hc₁ hc₀ (ha₁.trans ha.symm)]
    · have hlt := hstore.fresh c₀ hc₀
      omega
  have hold {x : FmdEvent} (hx : x ∈ d.inflight) (hf : x.evFlag ≠ .agentTodo) {c : FmdCase}
      (hc : c ∈ d'.listCase) (hp : x.pCase = some c.addr) : c.device = x.device := by
    obtain ⟨c₀, hc₀, hp₀, -⟩ := h.count.busy hx hf
    have haddr : c₀.addr = c.addr := Option.some.inj (hp₀.symm.trans hp)
    exact (hcase hc hc₀ haddr).trans (h.home x hx hf c₀ hc₀ hp₀)
  intro e he hf c hc hp
  cases inflight_step hst he with
  | old he => exact hold he hf hc hp
  | @marked _ x mode hx => exact hold hx hf hc hp
  | fault c₀ hfault => exact absurd (fmdEventAdd_isFaultOf _ _ _ _ hfault).flag hf
  | @report nvl now clk c₀ hd₀ hc₀ =>
    obtain ⟨hp₀, -, hdev, -⟩ := fmdEventAdd_pevt clk (d.next + 2) c₀ (dispatched d nvl now)
    have haddr : c₀.addr = c.addr := Option.some.inj (hp₀.symm.trans hp)
    rw [hdev, dispatched_device]
    rcases hc₀ with hc₀ | hnew
    · exact (hcase hc hc₀ haddr).trans hd₀
    · rcases listCase_step hstore hst hc with ⟨c₁, hc₁, ha₁, -⟩ | ⟨_, _, _, he, -, hd⟩
      · have hlt := hstore.fresh c₁ hc₁
        omega
      · cases he
        exact hd

theorem payloadOk_step {act : Act} {d d' : Daemon} (h : PayloadOk d) (hst : Step d act d') :
    PayloadOk d' := by
  obtain ⟨o, hsh, ho⟩ := shared_step h hst
  have hnext := next_le hst
  refine ⟨countOk_step h.count hst, home_step h hst, fun e he p hp => ?_, fun p hp => ?_,
    tagged_step h.tagged hsh, ?_, handledOk_step h.handled hst⟩
  · have href : (p, e.tag) ∈ d'.shared.refs := ⟨e, he, hp, rfl⟩
    rcases refs_step h.count.store hst href with ⟨x, hx, hxp, -⟩ | ⟨nvl, now, clk, rfl, hr⟩
    · exact (h.fresh x hx p hxp).trans_le hnext
    · rw [next_ereport hst, (Prod.mk.inj hr).1]
      omega
  · have hfreed : p ∈ d'.shared.freed := hp
    cases hsh with
    | move _ hf =>
      rw [hf] at hfreed
      exact (h.freed p hfreed).trans_le hnext
    | alloc _ _ _ _ _ hf =>
      rw [hf] at hfreed
      exact (h.freed p hfreed).trans_le hnext
    | free k _ hf =>
      rw [hf] at hfreed
      rcases hfreed with rfl | hfreed
      · have hrel := (ho p).mp rfl
        unfold Releases at hrel
        split at hrel
        · obtain ⟨pevt, hhead, -, hdata, -⟩ := hrel
          have hmem : pevt ∈ d.records := mem_records.mpr
            (.inr (.inr (.inr (mem_repairedList.mpr (.inr (List.mem_of_mem_head? hhead))))))
          exact (h.fresh pevt hmem p hdata).trans_le hnext
        · exact absurd hrel id
      · exact (h.freed p hfreed).trans_le hnext
  · refine Multiset.nodup_of_le (faultTokens_step h.handled hst) (Multiset.nodup_add.mpr ⟨?_, h.line, ?_⟩)
    · unfold newToken
      split
      · rename_i nvl now _
        cases (dispatched d nvl now).data with
        | none => exact List.nodup_nil
        | some p => exact List.nodup_singleton p
      · exact Multiset.nodup_zero
    · refine Multiset.disjoint_left.mpr fun {p} hp hp' => ?_
      obtain ⟨e, he, hd⟩ := mem_faultTokens hp'
      have hlt := h.fresh e he p hd
      unfold newToken at hp
      split at hp
      · have heq := dispatched_data_eq (Option.mem_toList.mp (Multiset.mem_coe.mp hp))
        omega
      · exact Multiset.notMem_zero p hp

theorem payloadOk_boot (esc : FmdEsc) : PayloadOk (Daemon.boot esc) where
  count := countOk_boot esc
  home := fun _ h => by cases h
  fresh := fun _ h => by cases h
  freed := fun _ h => by cases h
  tagged := fun _ _ _ ⟨_, h, _⟩ => by cases h
  line := Multiset.nodup_zero
  handled := fun _ h => by cases h

/-! ## Releases -/

/-- The entry a payload is released with is the last record of its fault. -/
theorem outcome_unique {d : Daemon} (h : PayloadOk d) {seen rest : List FmdEvent}
    {pevt : FmdEvent} {p : ℕ} (hq : d.queue = .sweep seen) (hr : d.repaired = pevt :: rest)
    (hres : pevt.agentResult ≠ .none) (hp : pevt.data = some p) :
    p ∉ tokens faultToken d.inflight ∧ p ∉ tokens outcomeToken (d.agents.flatMap Agent.posting) ∧
      p ∉ tokens outcomeToken (seen ++ rest) := by
  have hone : tokens outcomeToken [pevt] = {p} :=
    tokens_some (by rw [outcomeToken, if_pos hres, hp])
  have hline : faultTokens d = {p} + (tokens faultToken d.inflight +
      (tokens outcomeToken (d.agents.flatMap Agent.posting) +
        tokens outcomeToken (seen ++ rest))) := by
    rw [faultTokens, Daemon.repairedList, hq, hr, QueuePc.seen, tokens_append, tokens_append,
      tokens_cons _ pevt rest, hone]
    abel
  have hnd := h.line
  rw [hline, Multiset.singleton_add, Multiset.nodup_cons] at hnd
  simpa only [Multiset.mem_add, not_or] using hnd.1

theorem mem_records_released {now : ℤ} {d : Daemon} {seen rest : List FmdEvent} {pevt e : FmdEvent} {p : ℕ}
    (h : d.StoreOk) (hq : d.queue = .sweep seen) (hres : pevt.agentResult = .isolatedFailed)
    (hp : pevt.data = some p) (hidle : ¬ IdleHolder d.listCase pevt) :
    e ∈ (sweepEntry now seen pevt rest d).records ↔
      (∃ c ∈ d.listCase, e ∈ c.csEvent) ∨ e ∈ d.inflight ∨ e ∈ d.pending ∨ e ∈ seen ++ rest := by
  have hfreed := (queueDeleteEntry_freed h now pevt p).mpr ⟨hres, hp, hidle⟩
  have hd := fmdCaseFindAndDelete_cases h.addrs pevt
  have hret : (fmdCaseFindAndDelete pevt d.listCase).2 = 0 ↔ IdleHolder d.listCase pevt :=
    findAndDelete_ret h (by rw [hres]; decide)
  generalize hs : queueDeleteEntry now d.listCase pevt = s at hfreed
  have hlc : s.listCase = d.listCase ∧ s.kept = false := by
    cases hs ▸ queueDeleteEntry_cases now d.listCase pevt with
    | released _ _ =>
      refine ⟨?_, rfl⟩
      generalize fmdCaseFindAndDelete pevt d.listCase = r at hd hret
      cases hd with
      | case _ _ _ _ hiso _ _ => rw [hres] at hiso; cases hiso
      | event _ _ _ _ _ _ _ _ => exact absurd (hret.mp rfl) hidle
      | nothing _ => rfl
    | skipped _ => cases hfreed
    | failed _ _ => cases hfreed
    | isolated _ => cases hfreed
    | removed _ _ => cases hfreed
  rw [mem_records]
  simp only [sweepEntry, hs, hlc, Daemon.inflight, Daemon.pending, Daemon.repairedList, hq,
    QueuePc.events, QueuePc.seen, Bool.false_eq_true, if_false]

/-- A result that is more than a log entry is that of a fault copy, which the agent still has, or it is
about to be put. -/
theorem pending_token {d : Daemon} {e : FmdEvent} {p : ℕ} (h : PayloadOk d) (he : e ∈ d.pending)
    (hd : e.data = some p) (hne : e.agentResult ≠ .none) :
    p ∈ tokens faultToken d.inflight ∨ p ∈ tokens outcomeToken (d.agents.flatMap Agent.posting) := by
  obtain ⟨a, ha, hea⟩ := mem_pending.mp he
  cases hpc : a.pc with
  | idle => simp [Agent.results, hpc] at hea
  | handling evt => simp [Agent.results, hpc] at hea
  | handled evt r =>
    cases r with
    | none => simp [Agent.results, hpc] at hea
    | some r =>
      have her : e = r := by simpa [Agent.results, hpc] using hea
      obtain ⟨hdata, hlog⟩ := h.handled a ha evt r hpc
      have hevt : evt ∈ d.inflight := mem_inflight.mpr
        (.inr ⟨a, ha, List.mem_append_right _ (by rw [hpc]; exact List.mem_singleton_self evt)⟩)
      have hf : evt.evFlag = .agentTodo := by
        by_contra hf
        exact hne (her ▸ hlog hf)
      refine .inl (mem_tokens.mpr ⟨evt, hevt, ?_⟩)
      rw [faultToken, if_pos hf, ← hdata, ← her, hd]
  | putting r =>
    have her : e = r := by simpa [Agent.results, hpc] using hea
    refine .inr (mem_tokens.mpr ⟨e, List.mem_flatMap.mpr ⟨a, ha, ?_⟩, ?_⟩)
    · simp [Agent.posting, hpc, her]
    · rw [outcomeToken, if_pos hne, hd]

/-- **What still has a released payload**: an ereport of a busy case of the device, or a log entry. -/
theorem released_shared {now : ℤ} {d : Daemon} {seen rest : List FmdEvent} {pevt : FmdEvent} {p : ℕ}
    (h : PayloadOk d) (hq : d.queue = .sweep seen) (hr : d.repaired = pevt :: rest)
    (hres : pevt.agentResult = .isolatedFailed) (hp : pevt.data = some p)
    (hidle : ¬ IdleHolder d.listCase pevt) :
    (∃ e ∈ (sweepEntry now seen pevt rest d).records, e.data = some p) ↔
      (∃ c ∈ d.listCase, c.device = pevt.device ∧ 0 < c.mEventUsing ∧ CaseHas d c pevt.data) ∨
        LogHas d pevt.data := by
  have hstore := h.count.store
  have hnone : pevt.agentResult ≠ .none := by rw [hres]; decide
  obtain ⟨hin, hpost, hlist⟩ := outcome_unique h hq hr hnone hp
  have hentry : pevt ∈ d.records := mem_records.mpr (.inr (.inr (.inr (mem_repairedList.mpr
    (.inr (by rw [hr]; exact List.mem_cons_self))))))
  have hafter {e : FmdEvent} : e ∈ (sweepEntry now seen pevt rest d).records ↔ _ :=
    mem_records_released hstore hq hres hp hidle
  -- a record with the payload is about the same event
  have htag {e : FmdEvent} (he : e ∈ d.records) (hd : e.data = some p) : e.tag = pevt.tag :=
    h.tagged p _ _ ⟨e, he, hd, rfl⟩ ⟨pevt, hentry, hp, rfl⟩
  constructor
  · rintro ⟨e, he, hd⟩
    rcases hafter.mp he with ⟨c, hc, hec⟩ | he | he | he
    · have ht := htag (mem_records.mpr (.inl ⟨c, hc, hec⟩)) hd
      have hdev : c.device = pevt.device :=
        ((hstore.cases c hc).devices e hec).symm.trans (congrArg Prod.fst ht)
      refine .inl ⟨c, hc, hdev, ?_, .inl ⟨e, hec, hd.trans hp.symm⟩⟩
      by_contra hbusy
      exact hidle ⟨c, hc, hdev, not_lt.mp hbusy, e, hec, congrArg Prod.snd ht⟩
    · by_cases hf : e.evFlag = .agentTodo
      · exact absurd (mem_tokens.mpr ⟨e, he, by rw [faultToken, if_pos hf, hd]⟩) hin
      · obtain ⟨c, hc, hpc, hbusy⟩ := h.count.busy he hf
        have ht := htag (mem_records.mpr (.inr (.inl he))) hd
        have hdev := (h.home e he hf c hc hpc).trans (congrArg Prod.fst ht)
        exact .inl ⟨c, hc, hdev, hbusy, .inr ⟨e, he, hf, hpc, hd.trans hp.symm⟩⟩
    · refine .inr ⟨e, List.mem_append_left _ he, ?_, hd.trans hp.symm⟩
      by_contra hne
      exact (pending_token h he hd hne).elim hin hpost
    · refine .inr ⟨e, List.mem_append_right _ ?_, ?_, hd.trans hp.symm⟩
      · rw [mem_repairedList, hq, hr]
        exact (List.mem_append.mp he).imp id (List.mem_cons_of_mem _)
      · by_contra hne
        exact hlist (mem_tokens.mpr ⟨e, he, by rw [outcomeToken, if_pos hne, hd]⟩)
  · rintro (⟨c, hc, -, -, ⟨e, he, hd⟩ | ⟨e, he, -, -, hd⟩⟩ | ⟨e, he, hlog, hd⟩)
    · exact ⟨e, hafter.mpr (.inl ⟨c, hc, he⟩), hd.trans hp⟩
    · exact ⟨e, hafter.mpr (.inr (.inl he)), hd.trans hp⟩
    · refine ⟨e, hafter.mpr ?_, hd.trans hp⟩
      rcases List.mem_append.mp he with he | he
      · exact .inr (.inr (.inl he))
      · refine .inr (.inr (.inr ?_))
        rw [mem_repairedList, hq, hr] at he
        rcases he with he | he
        · exact List.mem_append_left _ he
        · rcases List.mem_cons.mp he with rfl | he
          · exact absurd hlog hnone
          · exact List.mem_append_right _ he

theorem payloadsSafe_step {act : Act} {d d' : Daemon} (h : PayloadOk d) (hs : PayloadsSafe d)
    (hst : Step d act d') : PayloadsSafe d' ↔ ¬ ReleasesShared act d := by
  obtain ⟨o, hsh, ho⟩ := shared_step h hst
  rw [← safe_shared, safe_step ((safe_shared d).mpr hs) hsh]
  have hiff {p : ℕ} (hrel : Releases act d p) :
      (∃ tag, (p, tag) ∈ d'.shared.refs) ↔ ReleasesShared act d := by
    have hrefs : (∃ tag, (p, tag) ∈ d'.shared.refs) ↔ ∃ e ∈ d'.records, e.data = some p :=
      ⟨fun ⟨_, e, he, hd, _⟩ => ⟨e, he, hd⟩, fun ⟨e, he, hd⟩ => ⟨e.tag, e, he, hd, rfl⟩⟩
    rw [hrefs]
    cases hst with
    | sweepEntry hq hr =>
      obtain ⟨pevt, hhead, hres, hp, hidle⟩ := hrel
      rw [hr, List.head?_cons, Option.some.injEq] at hhead
      subst hhead
      rw [released_shared h hq hr hres hp hidle]
      simp [ReleasesShared, hr, hres, hp, hidle]
    | _ => exact absurd hrel id
  constructor
  · intro hsafe hshared
    have hrel : ∃ p, Releases act d p := by
      unfold ReleasesShared at hshared
      split at hshared
      · obtain ⟨pevt, hhead, hres, hdata, hidle, -⟩ := hshared
        obtain ⟨p, hp⟩ := Option.ne_none_iff_exists'.mp hdata
        exact ⟨p, pevt, hhead, hres, hp, hidle⟩
      · exact absurd hshared id
    obtain ⟨p, hrel⟩ := hrel
    obtain ⟨tag, hmem⟩ := (hiff hrel).mpr hshared
    exact hsafe p ((ho p).mpr hrel) tag hmem
  · intro hno p hp tag hmem
    exact hno ((hiff ((ho p).mp hp)).mp ⟨tag, hmem⟩)

/-- **Released payloads and live records stay apart** in exactly the runs that release no payload
which an ereport of a busy case, or a log entry, still has. -/
theorem payloadsSafe_iff (esc : FmdEsc) (as : List Act) :
    Always step PayloadsSafe as (Daemon.boot esc) ↔
      EveryStep step (fun act d _ => ¬ ReleasesShared act d) as (Daemon.boot esc) :=
  always_iff_everyStep (I := PayloadOk) (fun _ _ _ h hst => payloadOk_step h (step_cases hst))
    (fun _ _ _ h hs hst => payloadsSafe_step h hs (step_cases hst)) as (payloadOk_boot esc)
    fun _ hp => absurd hp List.not_mem_nil

/-- The isolation of a cpu has failed while its ereport is still in the ring: the sweep takes the busy
case for no case and frees the payload of the ereport. -/
theorem payloadsSafe_fails : ¬ ∀ (esc : FmdEsc) (as : List Act),
    Always step PayloadsSafe as (Daemon.boot esc) := by
  intro h
  let esc : FmdEsc := { listFault := [⟨"ereport.cpu.qpi".toList⟩] }
  let nvl : Nvlist := ⟨"cpu".toList, 0, "ereport.cpu.qpi_ue".toList, 1, true⟩
  let as : List Act := [.load .cpumem ["ereport.cpu.*".toList] .auto, .ereport nvl 0 (.still 0), .put,
    .put, .take 0, .handle 0 {} 0, .finish 0, .result 0, .sweepBegin, .sweepEntry 0]
  have hrun : ∃ d, exec step as (Daemon.boot esc) = some d ∧
      ∃ p ∈ d.freed, ∃ e ∈ d.records, e.data = some p := by
    refine ⟨_, rfl, ?_⟩
    decide
  obtain ⟨d, hd, p, hp, e, he, hdata⟩ := hrun
  exact h esc as as d List.prefix_rfl hd p hp e he hdata

end Fms
