import Mathlib

/-!
# Runs of a partial step function

`exec step as s` performs the actions `as` one after the other; `none` is a run whose next action
is not enabled (a blocked thread, a crash). A property of states is followed along all prefixes of
a run (`Always`), a property of steps along all enabled steps (`EveryStep`).

* `exec_induction`: prefix induction, with the actions performed so far as a history;
* `exec_invariant`, `exec_invariant_of`: an invariant of every step, or of every step allowed by a
  condition on the run;
* **`always_iff_everyStep`**: if a good step is one that keeps `Q`, a run stays in `Q` exactly when
  all its steps are good;
* `trace`: what is observed of the steps of a run, with **`exec_trace`**: a step function that simulates
  another one step by step performs what is observed of its runs;
* `Since`: the last part of a run, in which a property has held without a break, with
  `exists_since` and `Since.unique`.
-/

namespace Run

variable {σ α : Type} (step : α → σ → Option σ)

/-- Perform a list of actions. -/
def exec : List α → σ → Option σ
  | [], s => some s
  | a :: as, s => (step a s).bind (exec as)

@[simp] theorem exec_nil (s : σ) : exec step [] s = some s := rfl

@[simp] theorem exec_cons (a : α) (as : List α) (s : σ) :
    exec step (a :: as) s = (step a s).bind (exec step as) := rfl

theorem exec_singleton (a : α) (s : σ) : exec step [a] s = step a s := by
  rw [exec_cons]
  cases step a s <;> rfl

theorem exec_append (as bs : List α) (s : σ) :
    exec step (as ++ bs) s = (exec step as s).bind (exec step bs) := by
  induction as generalizing s with
  | nil => rfl
  | cons a as ih =>
    simp only [List.cons_append, exec_cons]
    cases step a s with
    | none => rfl
    | some t => exact ih t

theorem exec_concat {as : List α} {a : α} {s t : σ} (hs : exec step as s = some t) :
    exec step (as ++ [a]) s = step a t := by
  rw [exec_append, hs, Option.bind_some, exec_singleton]

/-- Every state met along a run, the first one included. -/
def Always (Q : σ → Prop) (as : List α) (s : σ) : Prop :=
  ∀ pre t, pre <+: as → exec step pre s = some t → Q t

/-- Every enabled step along a run. -/
def EveryStep (P : α → σ → σ → Prop) (as : List α) (s : σ) : Prop :=
  ∀ pre a t t', pre ++ [a] <+: as → exec step pre s = some t → step a t = some t' → P a t t'

variable {step}

theorem everyStep_nil (P : α → σ → σ → Prop) (s : σ) : EveryStep step P [] s := by
  intro pre a t t' hp
  exact absurd (List.prefix_nil.mp hp) (by simp)

theorem everyStep_cons {P : α → σ → σ → Prop} {a : α} {as : List α} {s t : σ}
    (hst : step a s = some t) (hP : P a s t) (h : EveryStep step P as t) :
    EveryStep step P (a :: as) s := by
  intro pre b u u' hp he hb
  cases pre with
  | nil =>
    cases he
    obtain rfl : b = a := (List.cons_prefix_cons.mp hp).1
    rw [hst] at hb
    exact Option.some.inj hb ▸ hP
  | cons c pre =>
    obtain ⟨rfl, hp'⟩ := List.cons_prefix_cons.mp hp
    rw [exec_cons, hst, Option.bind_some] at he
    exact h pre b u u' hp' he hb

/-- **Prefix induction.** `M pre t` relates the actions performed so far to the state reached. -/
theorem exec_induction {M : List α → σ → Prop} {as : List α} {s : σ} (h0 : M [] s)
    (hstep : ∀ pre a t t', pre ++ [a] <+: as → exec step pre s = some t → M pre t →
      step a t = some t' → M (pre ++ [a]) t') :
    ∀ pre t, pre <+: as → exec step pre s = some t → M pre t := by
  intro pre
  induction pre using List.reverseRecOn with
  | nil =>
    intro t _ he
    cases he
    exact h0
  | append_singleton pre a ih =>
    intro t hp he
    rw [exec_append] at he
    obtain ⟨u, hu, hu'⟩ := Option.bind_eq_some_iff.mp he
    have hpre : pre <+: as := (List.prefix_append pre [a]).trans hp
    exact hstep pre a u t hp hu (ih u hpre hu) (by rwa [exec_singleton] at hu')

/-- An invariant of the allowed steps holds in every state of a run made of allowed steps. -/
theorem exec_invariant_of {I : σ → Prop} {P : α → σ → σ → Prop} {as : List α} {s : σ} (h0 : I s)
    (hP : EveryStep step P as s)
    (hI : ∀ a t t', I t → P a t t' → step a t = some t' → I t') : Always step I as s := by
  refine exec_induction (M := fun _ t => I t) h0 fun pre a t t' hp he ht hst => ?_
  exact hI a t t' ht (hP pre a t t' hp he hst) hst

/-- An invariant of every step holds in every state of every run. -/
theorem exec_invariant {I : σ → Prop} (hI : ∀ a t t', I t → step a t = some t' → I t')
    (as : List α) {s : σ} (h0 : I s) : Always step I as s :=
  exec_invariant_of (P := fun _ _ _ => True) h0 (fun _ _ _ _ _ _ _ => trivial)
    fun a t t' ht _ hst => hI a t t' ht hst

/-- Two properties of steps agree along runs, if they agree from every state of an invariant that
steps with these properties keep. -/
theorem everyStep_congr {I : σ → Prop} {P Q : α → σ → σ → Prop}
    (hI : ∀ a t t', I t → P a t t' → step a t = some t' → I t')
    (h : ∀ a t t', I t → step a t = some t' → (P a t t' ↔ Q a t t'))
    (as : List α) {s : σ} (h0 : I s) : EveryStep step P as s ↔ EveryStep step Q as s := by
  have hpre : ∀ {pre : List α} {a : α}, pre ++ [a] <+: as → pre <+: as :=
    fun hp => (List.prefix_append _ _).trans hp
  constructor
  · intro hP pre a t t' hp he hst
    have hall := exec_invariant_of h0 hP hI
    exact (h a t t' (hall pre t (hpre hp) he) hst).mp (hP pre a t t' hp he hst)
  · intro hQ pre a t t' hp he hst
    have hall := exec_invariant_of h0 hQ fun a t t' ht hq hst =>
      hI a t t' ht ((h a t t' ht hst).mpr hq) hst
    exact (h a t t' (hall pre t (hpre hp) he) hst).mpr (hQ pre a t t' hp he hst)

/-- **A run stays in `Q` exactly when all its steps are good**, if from a state in `Q` (and in the
invariant) the good steps are those that lead to a state in `Q`. -/
theorem always_iff_everyStep {I Q : σ → Prop} {P : α → σ → σ → Prop}
    (hI : ∀ a t t', I t → step a t = some t' → I t')
    (hQ : ∀ a t t', I t → Q t → step a t = some t' → (Q t' ↔ P a t t'))
    (as : List α) {s : σ} (h0 : I s) (hq0 : Q s) :
    Always step Q as s ↔ EveryStep step P as s := by
  have hall := exec_invariant hI as h0
  constructor
  · intro hA pre a t t' hp he hst
    have hpre : pre <+: as := (List.prefix_append _ _).trans hp
    refine (hQ a t t' (hall pre t hpre he) (hA pre t hpre he) hst).mp ?_
    exact hA (pre ++ [a]) t' hp (by rw [exec_concat step he, hst])
  · intro hE
    have h : Always step (fun t => I t ∧ Q t) as s := by
      refine exec_invariant_of ⟨h0, hq0⟩ hE fun a t t' ht hP hst => ?_
      exact ⟨hI a t t' ht.1 hst, (hQ a t t' ht.1 ht.2 hst).mpr hP⟩
    exact fun pre t hp he => (h pre t hp he).2

/-! ## Traces -/

variable (step) in
/-- What is observed of the steps of a run, each from its action and the state before it. -/
def trace {β : Type} (obs : α → σ → List β) : List α → σ → List β
  | [], _ => []
  | a :: as, s => obs a s ++ (step a s).elim [] (trace obs as)

theorem trace_append {β : Type} (obs : α → σ → List β) {as : List α} {s t : σ}
    (he : exec step as s = some t) (bs : List α) :
    trace step obs (as ++ bs) s = trace step obs as s ++ trace step obs bs t := by
  induction as generalizing s with
  | nil =>
    cases he
    rfl
  | cons a as ih =>
    obtain ⟨u, hu, he⟩ := Option.bind_eq_some_iff.mp he
    simp only [List.cons_append, trace, hu, Option.elim_some]
    rw [ih he, List.append_assoc]

/-- **Forward simulation**: each step is matched by the observed ones of the other system, and so is each
run. -/
theorem exec_trace {β τ : Type} {obs : α → σ → List β} {step' : β → τ → Option τ} {R : σ → τ → Prop}
    (hR : ∀ a s t u, R s u → step a s = some t → ∃ u', exec step' (obs a s) u = some u' ∧ R t u')
    {as : List α} {s t : σ} {u : τ} (h : R s u) (he : exec step as s = some t) :
    ∃ u', exec step' (trace step obs as s) u = some u' ∧ R t u' := by
  induction as generalizing s u with
  | nil =>
    cases he
    exact ⟨u, rfl, h⟩
  | cons a as ih =>
    obtain ⟨s', hs', he⟩ := Option.bind_eq_some_iff.mp he
    obtain ⟨u', hu', hR'⟩ := hR a s s' u h hs'
    obtain ⟨u'', hu'', hR''⟩ := ih hR' he
    refine ⟨u'', ?_, hR''⟩
    rw [trace, hs', Option.elim_some, exec_append, hu', Option.bind_some, hu'']

/-! ## Since -/

variable (step) in
/-- After `before` the property does not hold; in every state after that, along `rest`, it does. -/
structure Since (P : σ → Prop) (s : σ) (before rest : List α) : Prop where
  start : ∃ t, exec step before s = some t ∧ ¬ P t
  holds : ∀ mid t, mid ≠ [] → mid <+: rest → exec step (before ++ mid) s = some t → P t

theorem since_singleton {P : σ → Prop} {s t t' : σ} {before : List α} {a : α}
    (he : exec step before s = some t) (hP : ¬ P t) (hst : step a t = some t') (hP' : P t') :
    Since step P s before [a] := by
  refine ⟨⟨t, he, hP⟩, fun mid u hne hp hu => ?_⟩
  have hmid : mid = [a] := by
    rcases List.prefix_cons_iff.mp hp with h | ⟨l, rfl, h⟩
    · exact absurd h hne
    · rw [List.prefix_nil.mp h]
  rw [hmid, exec_concat step he, hst] at hu
  exact Option.some.inj hu ▸ hP'

theorem Since.concat {P : σ → Prop} {s t' : σ} {before rest : List α} {a : α}
    (h : Since step P s before rest) (he : exec step (before ++ rest ++ [a]) s = some t')
    (hP : P t') : Since step P s before (rest ++ [a]) := by
  refine ⟨h.start, fun mid u hne hp hu => ?_⟩
  rcases List.prefix_concat_iff.mp hp with rfl | hp
  · rw [← List.append_assoc, he] at hu
    exact Option.some.inj hu ▸ hP
  · exact h.holds mid u hne hp hu

theorem since_of_forall {P : σ → Prop} {s : σ} {before rest : List α}
    (hstart : ∃ t, exec step before s = some t ∧ ¬ P t)
    (h : ∀ n < rest.length, ∀ t ∈ exec step (before ++ rest.take (n + 1)) s, P t) :
    Since step P s before rest := by
  refine ⟨hstart, fun mid t hne hp ht => ?_⟩
  have hpos : 0 < mid.length := List.length_pos_of_ne_nil hne
  have hmid : rest.take (mid.length - 1 + 1) = mid := by
    rw [Nat.sub_add_cancel hpos]
    exact (List.prefix_iff_eq_take.mp hp).symm
  refine h (mid.length - 1) ?_ t (by rw [hmid]; exact ht)
  have hle := hp.length_le
  omega

/-- A property that did not hold at first and does now has held since some point. -/
theorem exists_since {P : σ → Prop} {s t : σ} {as : List α} (h0 : ¬ P s)
    (he : exec step as s = some t) (ht : P t) :
    ∃ before rest, as = before ++ rest ∧ Since step P s before rest := by
  refine exec_induction (M := fun pre t => P t → ∃ before rest, pre = before ++ rest ∧
    Since step P s before rest) (fun h => absurd h h0) ?_ as t List.prefix_rfl he ht
  intro pre a u u' _ hu ih hst hu'
  by_cases hP : P u
  · obtain ⟨before, rest, rfl, hs⟩ := ih hP
    refine ⟨before, rest ++ [a], List.append_assoc .., hs.concat ?_ hu'⟩
    rw [exec_concat step hu, hst]
  · exact ⟨pre, [a], rfl, since_singleton hu hP hst hu'⟩

theorem Since.unique {P : σ → Prop} {s : σ} {b b' r r' : List α} (h : Since step P s b r)
    (h' : Since step P s b' r') (he : b ++ r = b' ++ r') : b = b' ∧ r = r' := by
  -- the later of the two points is no later, since the property holds after the earlier one
  have hle {b b' r : List α} (h : Since step P s b r) (h' : ∃ t, exec step b' s = some t ∧ ¬ P t)
      (hb : b <+: b') (hb' : b' <+: b ++ r) : b = b' := by
    obtain ⟨mid, rfl⟩ := hb
    obtain ⟨t, ht, hn⟩ := h'
    by_contra hne
    refine hn (h.holds mid t (fun hm => hne ?_) ((List.prefix_append_right_inj b).mp hb') ht)
    rw [hm, List.append_nil]
  have hbb : b = b' := by
    rcases List.prefix_or_prefix_of_prefix (List.prefix_append b r)
      (he ▸ List.prefix_append b' r') with hb | hb
    · exact hle h h'.start hb (he ▸ List.prefix_append b' r')
    · exact (hle h' h.start hb (he ▸ List.prefix_append b r)).symm
  exact ⟨hbb, List.append_cancel_left (hbb ▸ he)⟩

variable (step) in
/-- Some step along `rest`, after `before`, has the property. -/
def Occurs (P : α → σ → Prop) (s : σ) (before rest : List α) : Prop :=
  ∃ mid a t, mid ++ [a] <+: rest ∧ exec step (before ++ mid) s = some t ∧ P a t

end Run
