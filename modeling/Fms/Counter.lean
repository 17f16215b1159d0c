import Fms.Lib.RefCount
import Fms.Lib.Tokens
import Fms.Flow

/-!
# The use counter of a case

`m_event_using` as a reference count: the cases are the objects, the ereports in flight the
references. An insertion acquires, the agent thread that gives an event up releases, a deletion
destroys an idle case. Two steps leak: an ereport that no agent wants is dropped with its count, and
so are the ereports in the ring of a module that is unloaded.

* `step_refs`: every step of the daemon is a sequence of reference-counting operations, with a leak
  exactly when `Leaks`;
* `countOk_step`: no counter is ever below the number of ereports in flight;
* **`accounted_iff`**: the counters are exact in every state of a run exactly when no step leaks.
-/

namespace Fms

open Keyed RefCount Run Tokens

/-- The case an ereport counts for; a fault copy counts for none. -/
def reportCase (e : FmdEvent) : Option ℕ := if e.evFlag ≠ .agentTodo then e.pCase else none

/-- The ereports in flight of a case. -/
def Daemon.users (d : Daemon) (c : FmdCase) : ℕ :=
  d.inflight.countP fun e => decide (e.evFlag ≠ .agentTodo ∧ e.pCase = some c.addr)

/-- Every use counter is the number of ereports in flight of its case. -/
def Accounted (d : Daemon) : Prop := ∀ c ∈ d.listCase, c.mEventUsing = d.users c

/-- The steps that drop an ereport: it is put and no agent wants it, or it is in the ring of a module
that is unloaded. -/
def Leaks : Act → Daemon → Prop
  | .put, d => ∃ evt queue, d.queue.puts = some (evt, queue) ∧ evt.evFlag ≠ .agentTodo ∧
      Unwanted d.agents evt
  | .unload i, d => ∃ a, d.agents[i]? = some a ∧ ∃ e ∈ a.ring, e.evFlag ≠ .agentTodo
  | _, _ => False

/-! ## The daemon as a reference count -/

def objOf (c : FmdCase) : ℕ × ℤ := (c.addr, c.mEventUsing)

/-- The case list and the ereports in flight. -/
def Daemon.refs (d : Daemon) : State ℕ := ⟨d.listCase.map objOf, tokens reportCase d.inflight⟩

theorem reportCase_eq_some {e : FmdEvent} {k : ℕ} :
    reportCase e = some k ↔ e.evFlag ≠ .agentTodo ∧ e.pCase = some k := by
  by_cases h : e.evFlag = .agentTodo <;> simp [reportCase, h]

theorem count_users (d : Daemon) (c : FmdCase) :
    (tokens reportCase d.inflight).count c.addr = d.users c := by
  simp only [count_tokens, reportCase_eq_some, Daemon.users]

theorem exact_refs (d : Daemon) : Exact d.refs ↔ Accounted d := by
  constructor
  · intro h c hc
    rw [← count_users]
    exact h c.addr c.mEventUsing (List.mem_map_of_mem (f := objOf) hc)
  · intro h k n hm
    obtain ⟨c, hc, he⟩ := List.mem_map.mp hm
    cases he
    change c.mEventUsing = ((tokens reportCase d.inflight).count c.addr : ℤ)
    rw [count_users]
    exact h c hc

/-- The counter half of the invariant: no counter is too low, and an ereport in flight has a case. -/
structure CountOk (d : Daemon) : Prop where
  store : d.StoreOk
  sound : Sound d.refs
  pCase : ∀ e ∈ d.inflight, e.evFlag ≠ .agentTodo → e.pCase ≠ none

/-! ## Events in flight -/

theorem inflight_agents {d : Daemon} {l₁ l₂ : List Agent} {a : Agent}
    (h : d.agents = l₁ ++ a :: l₂) : tokens reportCase d.inflight =
      tokens reportCase a.events + (tokens reportCase d.queue.events +
        tokens reportCase ((l₁ ++ l₂).flatMap Agent.events)) := by
  rw [Daemon.inflight, tokens_append, tokens_flatMap reportCase Agent.events h]
  abel

theorem inflight_same {d d' : Daemon} {l₁ l₂ : List Agent} {a a' : Agent}
    (h : d.agents = l₁ ++ a :: l₂) (h' : d'.agents = l₁ ++ a' :: l₂) (hq : d'.queue = d.queue)
    (he : tokens reportCase a'.events = tokens reportCase a.events) :
    tokens reportCase d'.inflight = tokens reportCase d.inflight := by
  rw [inflight_agents h, inflight_agents h', hq, he]

/-- An insertion puts one ereport of the case on its way. -/
theorem inflight_added (clk : Clock) (addr : ℕ) (c : FmdCase) {pevt : FmdEvent}
    (hf : pevt.evFlag ≠ .agentTodo) :
    tokens reportCase (fmdEventAdd clk addr c pevt).queue.events = {c.addr} := by
  obtain ⟨hp, hfl, -⟩ := fmdEventAdd_pevt clk addr c pevt
  have hone : tokens reportCase [(fmdEventAdd clk addr c pevt).pevt] = {c.addr} := by
    exact tokens_some (by rw [reportCase, hfl, if_pos hf, hp])
  unfold Added.queue
  cases hfa : (fmdEventAdd clk addr c pevt).pfault with
  | none => exact hone
  | some f =>
    have hfault : reportCase f = none := by
      rw [reportCase, if_neg (not_not.mpr (fmdEventAdd_isFaultOf clk addr c pevt hfa).flag)]
    rw [QueuePc.events, tokens_cons, hone, tokens_none hfault, zero_add]

@[simp] theorem reportCase_markHandled (mode : HandleMode) (e : FmdEvent) :
    reportCase (markHandled mode e) = reportCase e := rfl

/-! ## Steps as operations -/

section Ops

variable {d d' : Daemon} {l₁ l₂ : List FmdCase} {c c' : FmdCase}

theorem steps_same (hl : d'.listCase.map objOf = d.listCase.map objOf)
    (hh : tokens reportCase d'.inflight = tokens reportCase d.inflight) : Steps d.refs [] d'.refs := by
  have he : d'.refs = d.refs := by rw [Daemon.refs, Daemon.refs, hl, hh]
  rw [he]
  exact .nil

theorem steps_acquire (hd : d.listCase = l₁ ++ c :: l₂) (hd' : d'.listCase = l₁ ++ c' :: l₂)
    (ha : c'.addr = c.addr) (hm : c'.mEventUsing = c.mEventUsing + 1)
    (hh : tokens reportCase d'.inflight = {c.addr} + tokens reportCase d.inflight) :
    Steps d.refs [.acquire c.addr] d'.refs := by
  have h : RefCount.Step
      ⟨l₁.map objOf ++ (c.addr, c.mEventUsing) :: l₂.map objOf, tokens reportCase d.inflight⟩
      (.acquire c.addr) _ := .acquire
  rw [Daemon.refs, Daemon.refs, hd, hd', hh, List.map_append, List.map_append, List.map_cons,
    List.map_cons, Multiset.singleton_add, objOf, objOf, ha, hm]
  exact .single h

theorem steps_release (hd : d.listCase = l₁ ++ c :: l₂) (hd' : d'.listCase = l₁ ++ c' :: l₂)
    (ha : c'.addr = c.addr) (hm : c'.mEventUsing = c.mEventUsing - 1)
    (hh : tokens reportCase d.inflight = {c.addr} + tokens reportCase d'.inflight) :
    Steps d.refs [.release c.addr] d'.refs := by
  have h : RefCount.Step ⟨l₁.map objOf ++ (c.addr, c.mEventUsing) :: l₂.map objOf,
      c.addr ::ₘ tokens reportCase d'.inflight⟩ (.release c.addr) _ := .release
  rw [Daemon.refs, Daemon.refs, hd, hd', hh, List.map_append, List.map_append, List.map_cons,
    List.map_cons, Multiset.singleton_add, objOf, objOf, ha, hm]
  exact .single h

theorem steps_destroy (hd : d.listCase = l₁ ++ c :: l₂) (hd' : d'.listCase = l₁ ++ l₂)
    (hm : c.mEventUsing ≤ 0) (hh : tokens reportCase d'.inflight = tokens reportCase d.inflight) :
    Steps d.refs [.destroy c.addr] d'.refs := by
  have h : RefCount.Step
      ⟨l₁.map objOf ++ (c.addr, c.mEventUsing) :: l₂.map objOf, tokens reportCase d.inflight⟩
      (.destroy c.addr) _ := .destroy hm
  rw [Daemon.refs, Daemon.refs, hd, hd', hh, List.map_append, List.map_append, List.map_cons, objOf]
  exact .single h

theorem steps_create_acquire (hfresh : ∀ x ∈ d.listCase, x.addr ≠ c.addr)
    (hd' : d'.listCase = c :: d.listCase) (hm : c.mEventUsing = 1)
    (hh : tokens reportCase d'.inflight = {c.addr} + tokens reportCase d.inflight) :
    Steps d.refs [.create c.addr, .acquire c.addr] d'.refs := by
  have hc : RefCount.Step d.refs (.create c.addr)
      ⟨(c.addr, 0) :: d.listCase.map objOf, tokens reportCase d.inflight⟩ := by
    refine RefCount.Step.create fun hk => ?_
    obtain ⟨p, hp, he⟩ := List.mem_map.mp hk
    obtain ⟨x, hx, rfl⟩ := List.mem_map.mp hp
    exact hfresh x hx he
  have ha : RefCount.Step ⟨[] ++ (c.addr, 0) :: d.listCase.map objOf, tokens reportCase d.inflight⟩
      (.acquire c.addr) _ := .acquire
  have hr : d'.refs = ⟨[] ++ (c.addr, 0 + 1) :: d.listCase.map objOf,
      c.addr ::ₘ tokens reportCase d.inflight⟩ := by
    rw [Daemon.refs, hd', hh, List.map_cons, objOf, hm, Multiset.singleton_add]
    rfl
  rw [hr]
  exact .cons hc (.single ha)

theorem steps_leaks {l : List FmdEvent} (hl : d'.listCase = d.listCase)
    (hh : tokens reportCase d.inflight = tokens reportCase l + tokens reportCase d'.inflight) :
    Steps d.refs ((l.filterMap reportCase).map .leak) d'.refs := by
  rw [Daemon.refs, Daemon.refs, hl, hh]
  exact steps_leak _ _ _

end Ops

theorem filterMap_reportCase_eq_nil {l : List FmdEvent}
    (h : ∀ e ∈ l, e.evFlag ≠ .agentTodo → e.pCase ≠ none) :
    l.filterMap reportCase = [] ↔ ¬ ∃ e ∈ l, e.evFlag ≠ .agentTodo := by
  rw [List.filterMap_eq_nil_iff]
  push Not
  refine forall₂_congr fun e he => ?_
  by_cases hf : e.evFlag = .agentTodo
  · simp [reportCase, hf]
  · simpa [reportCase, hf] using h e he hf

/-- What the daemon drops is leaked, if an ereport is in it. -/
theorem dropped_refs {d d' : Daemon} (h : CountOk d) {l : List FmdEvent}
    (hsub : ∀ e ∈ l, e ∈ d.inflight)
    (hh : tokens reportCase d.inflight = tokens reportCase l + tokens reportCase d'.inflight)
    (hl : d'.listCase = d.listCase) :
    ∃ ops, Steps d.refs ops d'.refs ∧
      ((∀ op ∈ ops, ¬ op.isLeak) ↔ ¬ ∃ e ∈ l, e.evFlag ≠ .agentTodo) := by
  refine ⟨_, steps_leaks hl hh, ?_⟩
  rw [forall_leak, filterMap_reportCase_eq_nil fun e he => h.pCase e (hsub e he)]

/-- An event that is given up releases the case of an ereport. -/
theorem givenUp_refs {d d' : Daemon} (h : CountOk d) {evt : FmdEvent} (hev : evt ∈ d.inflight)
    (hh : tokens reportCase d.inflight = tokens reportCase [evt] + tokens reportCase d'.inflight)
    (hl : d'.listCase = if evt.evFlag ≠ .agentTodo then atomicDec evt.pCase d.listCase
      else d.listCase) :
    ∃ ops, Steps d.refs ops d'.refs ∧ ∀ op ∈ ops, ¬ op.isLeak := by
  by_cases hf : evt.evFlag = .agentTodo
  · have hzero : tokens reportCase [evt] = 0 :=
      tokens_none (by rw [reportCase, if_neg (not_not.mpr hf)])
    rw [hzero, zero_add] at hh
    rw [if_neg (not_not.mpr hf)] at hl
    exact ⟨[], steps_same (by rw [hl]) hh.symm, by simp⟩
  · obtain ⟨k, hk⟩ := Option.ne_none_iff_exists'.mp (h.pCase evt hev hf)
    have hone : tokens reportCase [evt] = {k} :=
      tokens_some (by rw [reportCase, if_pos hf, hk])
    have hmem : k ∈ (d.listCase.map objOf).map Prod.fst := by
      refine h.sound.held_mem k ?_
      change k ∈ tokens reportCase d.inflight
      rw [hh, hone]
      exact Multiset.mem_add.mpr (.inl (Multiset.mem_singleton_self k))
    rcases atomicDec_cases evt.pCase d.listCase with ⟨-, hno⟩ | ⟨m₁, c, m₂, hm, hc, he⟩
    · obtain ⟨p, hp, rfl⟩ := List.mem_map.mp hmem
      obtain ⟨c, hc, rfl⟩ := List.mem_map.mp hp
      exact absurd hk.symm (hno c hc)
    · rw [hk, Option.some.injEq] at hc
      subst hc
      rw [hone] at hh
      exact ⟨_, steps_release hm (hl.trans ((if_pos hf).trans he)) rfl rfl hh, by simp [Op.isLeak]⟩

/-- **Every step is a sequence of reference-counting operations**, and it leaks exactly when it drops
an ereport. -/
theorem step_refs {act : Act} {d d' : Daemon} (h : CountOk d) (hst : Step d act d') :
    ∃ ops, Steps d.refs ops d'.refs ∧ ((∀ op ∈ ops, ¬ op.isLeak) ↔ ¬ Leaks act d) := by
  cases hst with
  | lost _ _ => exact ⟨[], steps_same rfl rfl, by simp [Leaks]⟩
  | @inserted nvl now clk lc r idle _ ha =>
    have hflag : (dispatched d nvl now).evFlag ≠ .agentTodo := by simp
    have hq : d.queue.events = [] := by rw [idle]; rfl
    generalize hp : (lc, r) = p at ha
    cases ha with
    | found l₁ c l₂ hs hd hf =>
      cases hp
      obtain ⟨ha, -, hm⟩ := fmdEventAdd_pcase clk (d.next + 2) c (dispatched d nvl now)
      refine ⟨_, steps_acquire hs rfl ha hm ?_, by simp [Op.isLeak, Leaks]⟩
      simp only [Daemon.inflight, tokens_append, inflight_added _ _ _ hflag, hq,
        tokens_nil, zero_add]
    | created hf =>
      cases hp
      obtain ⟨ha, -, hm⟩ := fmdEventAdd_pcase clk (d.next + 2)
        (fmdCaseCreate clk (d.next + 3) (dispatched d nvl now)) (dispatched d nvl now)
      refine ⟨_, steps_create_acquire (fun x hx he => ?_) rfl hm ?_, by simp [Op.isLeak, Leaks]⟩
      · have hlt := h.store.fresh x hx
        rw [he, ha] at hlt
        exact absurd hlt (by simp [fmdCaseCreate])
      · simp only [Daemon.inflight, tokens_append, inflight_added _ _ _ hflag, hq,
          tokens_nil, zero_add, ha]
  | @put evt queue agents hputs hr =>
    have hev := puts_events hputs
    cases hr with
    | delivered l₁ a l₂ hs hl hw =>
      refine ⟨[], steps_same rfl ?_, ?_⟩
      · rw [inflight_agents hs, inflight_agents (d := { d with queue := queue, agents := _ }) rfl]
        simp only [hev, tokens_cons _ evt queue.events, Agent.events, tokens_append]
        abel
      · simp only [List.not_mem_nil, false_imp_iff, implies_true, true_iff]
        rintro ⟨e, q, he, -, hu⟩
        rw [hputs] at he
        cases he
        exact not_unwanted_of_wants hs hw hu
    | dropped hu =>
      have hh : tokens reportCase d.inflight = tokens reportCase [evt] +
          tokens reportCase ({ d with queue := queue } : Daemon).inflight := by
        rw [← tokens_append, Daemon.inflight, Daemon.inflight, hev]
        rfl
      have hsub : ∀ e ∈ [evt], e ∈ d.inflight := by
        intro e he
        refine List.mem_append_left _ ?_
        rw [hev, List.mem_singleton.mp he]
        exact List.mem_cons_self
      obtain ⟨ops, hops, hleak⟩ := dropped_refs h hsub hh rfl
      exact ⟨ops, hops, hleak.trans (by simp [Leaks, hputs, hu])⟩
  | sweepBegin idle =>
    refine ⟨[], steps_same rfl ?_, by simp [Leaks]⟩
    simp [Daemon.inflight, idle]
  | @sweepEntry now seen pevt rest hq hr =>
    have hin : tokens reportCase (sweepEntry now seen pevt rest d).inflight = tokens reportCase d.inflight := by
      simp [Daemon.inflight, sweepEntry, hq]
    rcases queueDeleteEntry_deleted h.store now pevt with he | ⟨hd, he⟩
    · exact ⟨[], steps_same (by rw [sweepEntry, he]) hin, by simp [Leaks]⟩
    · generalize fmdCaseFindAndDelete pevt d.listCase = r at hd he
      cases hd with
      | case l₁ c l₂ hs _ hidle _ =>
        exact ⟨_, steps_destroy hs he hidle hin, by simp [Op.isLeak, Leaks]⟩
      | event l₁ c l₂ hs _ _ _ _ =>
        refine ⟨[], steps_same ?_ hin, by simp [Leaks]⟩
        rw [sweepEntry, he, hs, List.map_append, List.map_append, List.map_cons, List.map_cons]
        rfl
      | nothing _ => exact ⟨[], steps_same (by rw [sweepEntry, he]) hin, by simp [Leaks]⟩
  | sweepEnd hq hr =>
    refine ⟨[], steps_same rfl ?_, by simp [Leaks]⟩
    simp [Daemon.inflight, hq]
  | @take l₁ a l₂ evt ring hs _ hpc hring =>
    refine ⟨[], steps_same rfl (inflight_same hs rfl rfl ?_), by simp [Leaks]⟩
    simp only [Agent.events, hpc, hring, AgentPc.events, tokens_append, tokens_nil,
      tokens_cons _ evt ring, add_zero]
    exact add_comm _ _
  | @handle l₁ a l₂ evt r env now hs hpc _ =>
    refine ⟨[], steps_same rfl (inflight_same hs rfl rfl ?_), by simp [Leaks]⟩
    simp only [Agent.events, hpc, AgentPc.events, tokens_append]
    rw [tokens_congr (reportCase_markHandled _ evt)]
  | @finish l₁ a l₂ evt r hs hpc =>
    -- what is left of the references once the agent has given the event up
    have hev : evt ∈ d.inflight := by
      refine List.mem_append_right _ ?_
      rw [hs]
      exact List.mem_flatMap.mpr ⟨a, by simp, List.mem_append_right _ (by simp [hpc])⟩
    have hnew : ({ a with pc := r.elim .idle .putting } : Agent).events = a.ring := by
      cases r <;> simp [Agent.events]
    have hh (lc : List FmdCase) : tokens reportCase d.inflight = tokens reportCase [evt] + tokens reportCase
        ({ d with
          agents := l₁ ++ { a with pc := r.elim .idle .putting } :: l₂
          listCase := lc } : Daemon).inflight := by
      rw [inflight_agents hs, inflight_agents (d := { d with listCase := lc, agents := _ }) rfl,
        hnew, Agent.events, hpc, AgentPc.events, tokens_append]
      abel
    obtain ⟨ops, hops, hleak⟩ := givenUp_refs h hev (hh _) rfl
    exact ⟨ops, hops, iff_of_true hleak (by simp [Leaks])⟩
  | @result l₁ a l₂ r repaired hs hpc _ _ =>
    refine ⟨[], steps_same rfl (inflight_same hs rfl rfl ?_), by simp [Leaks]⟩
    simp [Agent.events, hpc]
  | load =>
    refine ⟨[], steps_same rfl ?_, by simp [Leaks]⟩
    simp [Daemon.inflight, Agent.events]
  | @unload l₁ a l₂ hs _ =>
    have hh : tokens reportCase d.inflight = tokens reportCase a.ring + tokens reportCase
        ({ d with agents := l₁ ++ { a with ring := [], loaded := false } :: l₂ } : Daemon).inflight := by
      rw [inflight_agents hs, inflight_agents (d := { d with agents := _ }) rfl]
      simp only [Agent.events, tokens_append, tokens_nil, zero_add, add_assoc]
    have hsub : ∀ e ∈ a.ring, e ∈ d.inflight := by
      intro e he
      refine List.mem_append_right _ ?_
      rw [hs]
      exact List.mem_flatMap.mpr ⟨a, by simp, List.mem_append_left _ he⟩
    obtain ⟨ops, hops, hleak⟩ := dropped_refs h hsub hh rfl
    exact ⟨ops, hops, hleak.trans (by simp [Leaks, hs])⟩
  | @config l₁ a l₂ mode hs _ =>
    exact ⟨[], steps_same rfl (inflight_same hs rfl rfl rfl), by simp [Leaks]⟩

/-! ## Runs -/

theorem countOk_step {act : Act} {d d' : Daemon} (h : CountOk d) (hst : Step d act d') :
    CountOk d' := by
  obtain ⟨ops, hops, -⟩ := step_refs h hst
  refine ⟨storeOk_step h.store hst, sound_steps h.sound hops, fun e he hf => ?_⟩
  cases inflight_step hst he with
  | old he => exact h.pCase e he hf
  | @marked _ e mode hm => exact h.pCase e hm hf
  | report c _ _ =>
    rw [(fmdEventAdd_pevt ..).1]
    exact Option.some_ne_none _
  | fault c hfault => exact absurd (fmdEventAdd_isFaultOf _ _ _ _ hfault).flag hf

theorem countOk_boot (esc : FmdEsc) : CountOk (Daemon.boot esc) where
  store := storeOk_boot esc
  sound := ⟨List.nodup_nil, fun _ h => absurd h (Multiset.notMem_zero _), fun _ _ h => by cases h⟩
  pCase := fun _ h => by cases h

theorem countOk_run (esc : FmdEsc) (as : List Act) : Always step CountOk as (Daemon.boot esc) :=
  exec_invariant (fun _ _ _ h hst => countOk_step h (step_cases hst)) as (countOk_boot esc)

/-- In every run, leaks or not, an ereport in flight has a listed case, and that case is busy. -/
theorem CountOk.busy {d : Daemon} (h : CountOk d) {e : FmdEvent} (he : e ∈ d.inflight)
    (hf : e.evFlag ≠ .agentTodo) :
    ∃ c ∈ d.listCase, e.pCase = some c.addr ∧ 0 < c.mEventUsing := by
  obtain ⟨k, hk⟩ := Option.ne_none_iff_exists'.mp (h.pCase e he hf)
  have hmem : k ∈ tokens reportCase d.inflight := by
    exact mem_tokens.mpr ⟨e, he, reportCase_eq_some.mpr ⟨hf, hk⟩⟩
  obtain ⟨p, hp, rfl⟩ := List.mem_map.mp (h.sound.held_mem k hmem)
  obtain ⟨c, hc, rfl⟩ := List.mem_map.mp hp
  have hle := h.sound.le c.addr c.mEventUsing hp
  have hpos := Multiset.count_pos.mpr hmem
  change ((tokens reportCase d.inflight).count c.addr : ℤ) ≤ c.mEventUsing at hle
  change 0 < (tokens reportCase d.inflight).count c.addr at hpos
  exact ⟨c, hc, hk, by omega⟩

/-- **The use counters are exact exactly in the runs that drop no ereport**: every ereport that is put
finds an agent, and no module is unloaded with an ereport in its ring. -/
theorem accounted_iff (esc : FmdEsc) (as : List Act) :
    Always step Accounted as (Daemon.boot esc) ↔
      EveryStep step (fun act d _ => ¬ Leaks act d) as (Daemon.boot esc) := by
  refine always_iff_everyStep (I := CountOk) (fun _ _ _ h hst => countOk_step h (step_cases hst))
    (fun act d d' h hacc hst => ?_) as (countOk_boot esc) fun c hc => absurd hc List.not_mem_nil
  obtain ⟨ops, hops, hleak⟩ := step_refs h (step_cases hst)
  rw [← exact_refs, exact_steps h.sound hops, hleak, exact_refs]
  exact and_iff_right hacc

/-- An ereport that no agent wants leaves the counter of its case at 1 with nothing in flight. -/
theorem accounted_fails : ¬ ∀ (esc : FmdEsc) (as : List Act),
    Always step Accounted as (Daemon.boot esc) := by
  intro h
  let nvl : Nvlist := ⟨"disk".toList, 0, "ereport.disk.badblocks".toList, 0, true⟩
  have hrun : ∃ d, exec step [.ereport nvl 0 (.still 0), .put] (Daemon.boot {}) = some d ∧
      ∃ c ∈ d.listCase, c.mEventUsing ≠ d.users c := by
    refine ⟨_, rfl, ?_⟩
    decide
  obtain ⟨d, hd, c, hc, hne⟩ := hrun
  exact hne (h {} _ _ d List.prefix_rfl hd c hc)

/-- **A case is not freed under its ereports**: in every run, leaks or not, the counter of a case is at least
the number of the ereports in flight that use it, and the case of every one of them is listed and busy. This is of
runs in which fewer than 2^31 ereports, lost ones included, are counted in one case at a time. -/
theorem users_run (esc : FmdEsc) (as : List Act) : Always step (fun d =>
    (∀ c ∈ d.listCase, (d.users c : ℤ) ≤ c.mEventUsing) ∧
      ∀ e ∈ d.inflight, e.evFlag ≠ .agentTodo → ∃ c ∈ d.listCase, e.pCase = some c.addr ∧ 0 < c.mEventUsing)
    as (Daemon.boot esc) := by
  intro pre d hpre hexec
  have h := countOk_run esc as pre d hpre hexec
  refine ⟨fun c hc => ?_, fun e he hf => h.busy he hf⟩
  rw [← count_users]
  exact h.sound.le c.addr c.mEventUsing (List.mem_map_of_mem hc)

end Fms
