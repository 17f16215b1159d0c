import Mathlib.Computability.Language

/-!
# Scanners by table

A scanner has rules, regular expressions over classes of characters. Its table goes from state to
state with every character, and at the longest text that some rule matches it takes the first of the
rules that match it.

* `Rx`, `Rx.lang`: a rule, and its texts;
* `Rx.residues`: what a rule can have left after one character; finitely many expressions, so that a
  table can be checked against its rules;
* **`Table.accepts_iff`**: a table that passes the check accepts for a rule what the rule matches;
* `longest`: the loop over the table, which keeps the last state that accepts;
* **`longest_eq_some`**: what it finds is the longest text that is accepted.
-/

namespace Lex

open Computability

/-! ## Rules -/

/-- A regular expression over the classes `κ` of characters. -/
inductive Rx (κ : Type) where
  | eps
  | cls (k : κ)
  | seq (r s : Rx κ)
  | alt (r s : Rx κ)
  | star (r : Rx κ)
  deriving DecidableEq

section
variable {α κ : Type}

/-- One or more. -/
def Rx.plus (r : Rx κ) : Rx κ := .seq r (.star r)

/-- The characters of a class, as texts. -/
def oneOf (p : α → Prop) : Language α := {w | ∃ c, p c ∧ w = [c]}

/-- The texts of an expression. -/
def Rx.lang (mem : κ → α → Bool) : Rx κ → Language α
  | .eps => 1
  | .cls k => oneOf fun c => mem k c = true
  | .seq r s => r.lang mem * s.lang mem
  | .alt r s => r.lang mem + s.lang mem
  | .star r => (r.lang mem)∗

/-- The empty text is one of them. -/
def Rx.nullable : Rx κ → Bool
  | .eps => true
  | .cls _ => false
  | .seq r s => r.nullable && s.nullable
  | .alt r s => r.nullable || s.nullable
  | .star _ => true

/-- What can be left of an expression after a character. -/
def Rx.residues (mem : κ → α → Bool) (c : α) : Rx κ → List (Rx κ)
  | .eps => []
  | .cls k => if mem k c then [.eps] else []
  | .seq r s => (r.residues mem c).map (.seq · s) ++ if r.nullable then s.residues mem c else []
  | .alt r s => r.residues mem c ++ s.residues mem c
  | .star r => (r.residues mem c).map (.seq · (.star r))

theorem mem_oneOf {p : α → Prop} {w : List α} : w ∈ oneOf p ↔ ∃ c, p c ∧ w = [c] := Iff.rfl

theorem of_mem_kstar_oneOf {p : α → Prop} {w : List α} (h : w ∈ (oneOf p)∗) : ∀ c ∈ w, p c := by
  obtain ⟨ws, rfl, hws⟩ := Language.mem_kstar.mp h
  intro c hc
  obtain ⟨v, hv, hcv⟩ := List.mem_flatten.mp hc
  obtain ⟨d, hd, rfl⟩ := mem_oneOf.mp (hws v hv)
  exact List.mem_singleton.mp hcv ▸ hd

theorem nil_mem_lang {mem : κ → α → Bool} {r : Rx κ} : [] ∈ r.lang mem ↔ r.nullable = true := by
  induction r with
  | eps => exact iff_of_true Language.nil_mem_one rfl
  | cls k =>
    refine iff_of_false ?_ Bool.false_ne_true
    rintro ⟨c, -, h⟩
    exact List.cons_ne_nil _ _ h.symm
  | seq r s ihr ihs =>
    rw [Rx.lang, Rx.nullable, Bool.and_eq_true, ← ihr, ← ihs, Language.mem_mul]
    constructor
    · rintro ⟨u, hu, v, hv, h⟩
      obtain ⟨rfl, rfl⟩ := List.append_eq_nil_iff.mp h
      exact ⟨hu, hv⟩
    · rintro ⟨hu, hv⟩
      exact ⟨[], hu, [], hv, rfl⟩
  | alt r s ihr ihs => rw [Rx.lang, Rx.nullable, Bool.or_eq_true, ← ihr, ← ihs, Language.mem_add]
  | star r _ => exact iff_of_true (Language.nil_mem_kstar _) rfl

theorem cons_mem_mul {l m : Language α} {c : α} {w : List α} :
    c :: w ∈ l * m ↔ (∃ u v, c :: u ∈ l ∧ v ∈ m ∧ u ++ v = w) ∨ ([] ∈ l ∧ c :: w ∈ m) := by
  rw [Language.mem_mul]
  constructor
  · rintro ⟨u, hu, v, hv, h⟩
    cases u with
    | nil => exact Or.inr ⟨hu, h ▸ hv⟩
    | cons d u =>
      obtain ⟨rfl, huv⟩ := List.cons.inj h
      exact Or.inl ⟨u, v, hu, hv, huv⟩
  · rintro (⟨u, v, hu, hv, rfl⟩ | ⟨hnil, hw⟩)
    · exact ⟨c :: u, hu, v, hv, rfl⟩
    · exact ⟨[], hnil, c :: w, hw, rfl⟩

theorem cons_mem_kstar {l : Language α} {c : α} {w : List α} :
    c :: w ∈ l∗ ↔ ∃ u v, c :: u ∈ l ∧ v ∈ l∗ ∧ u ++ v = w := by
  rw [Language.mem_kstar_iff_exists_nonempty]
  constructor
  · rintro ⟨us, h, hus⟩
    cases us with
    | nil => exact absurd h (List.cons_ne_nil c w)
    | cons u us =>
      obtain ⟨hu, hne⟩ := hus u List.mem_cons_self
      cases u with
      | nil => exact absurd rfl hne
      | cons d u =>
        obtain ⟨rfl, hw⟩ := List.cons.inj h
        exact ⟨u, us.flatten, hu, Language.join_mem_kstar fun y hy => (hus y (List.mem_cons_of_mem _ hy)).1, hw.symm⟩
  · rintro ⟨u, v, hu, hv, rfl⟩
    obtain ⟨vs, rfl, hvs⟩ := Language.mem_kstar_iff_exists_nonempty.mp hv
    refine ⟨(c :: u) :: vs, rfl, fun y hy => ?_⟩
    obtain rfl | hy := List.mem_cons.mp hy
    · exact ⟨hu, List.cons_ne_nil _ _⟩
    · exact hvs y hy

/-- **The residues say what may follow a character.** -/
theorem cons_mem_lang {mem : κ → α → Bool} {r : Rx κ} {c : α} {w : List α} :
    c :: w ∈ r.lang mem ↔ ∃ s ∈ r.residues mem c, w ∈ s.lang mem := by
  induction r generalizing w with
  | eps =>
    refine iff_of_false (List.cons_ne_nil c w) ?_
    rintro ⟨s, hs, -⟩
    exact List.not_mem_nil hs
  | cls k =>
    rw [Rx.lang, Rx.residues, mem_oneOf]
    constructor
    · rintro ⟨d, hd, h⟩
      obtain ⟨rfl, rfl⟩ := List.cons.inj h
      rw [if_pos hd]
      exact ⟨.eps, List.mem_singleton_self _, Language.nil_mem_one⟩
    · rintro ⟨s, hs, hw⟩
      split_ifs at hs with hc
      · obtain rfl := List.mem_singleton.mp hs
        obtain rfl : w = [] := hw
        exact ⟨c, hc, rfl⟩
      · exact absurd hs List.not_mem_nil
  | seq r s ihr ihs =>
    have hleft (w : List α) : (∃ u v, c :: u ∈ r.lang mem ∧ v ∈ s.lang mem ∧ u ++ v = w) ↔
        ∃ t ∈ (r.residues mem c).map (Rx.seq · s), w ∈ t.lang mem := by
      simp only [List.mem_map, exists_exists_and_eq_and, Rx.lang, Language.mem_mul, ihr]
      constructor
      · rintro ⟨u, v, ⟨t, ht, hu⟩, hv, h⟩
        exact ⟨t, ht, u, hu, v, hv, h⟩
      · rintro ⟨t, ht, u, hu, v, hv, h⟩
        exact ⟨u, v, ⟨t, ht, hu⟩, hv, h⟩
    rw [Rx.lang, cons_mem_mul, hleft, nil_mem_lang, ihs, Rx.residues]
    cases r.nullable with
    | true => simp only [true_and, if_true, List.mem_append, or_and_right, exists_or]
    | false => simp
  | alt r s ihr ihs =>
    rw [Rx.lang, Language.mem_add, ihr, ihs, Rx.residues]
    simp only [List.mem_append, or_and_right, exists_or]
  | star r ih =>
    rw [Rx.lang, cons_mem_kstar]
    simp only [Rx.residues, List.mem_map, exists_exists_and_eq_and, Rx.lang, Language.mem_mul, ih]
    constructor
    · rintro ⟨u, v, ⟨t, ht, hu⟩, hv, h⟩
      exact ⟨t, ht, u, hu, v, hv, h⟩
    · rintro ⟨t, ht, u, hu, v, hv, h⟩
      exact ⟨u, v, ⟨t, ht, hu⟩, hv, h⟩

end

/-! ## Tables -/

/-- Where the characters lead, if anywhere; `none` is a jam. -/
def run {σ α : Type} (step : σ → α → Option σ) : σ → List α → Option σ
  | q, [] => some q
  | q, c :: w => (step q c).bind fun q' => run step q' w

section
variable {σ α κ ρ : Type} {step : σ → α → Option σ} {mem : κ → α → Bool}

/-- What is left of the rules after a character. -/
def after (mem : κ → α → Bool) (c : α) (items : List (ρ × Rx κ)) : List (ρ × Rx κ) :=
  items.flatMap fun p => (p.2.residues mem c).map (p.1, ·)

theorem residues_congr {mem' : κ → α → Bool} {c d : α} (h : ∀ k, mem k c = mem' k d) (r : Rx κ) :
    r.residues mem c = r.residues mem' d := by
  induction r with
  | eps => rfl
  | cls k => rw [Rx.residues, Rx.residues, h]
  | seq r s ihr ihs => rw [Rx.residues, Rx.residues, ihr, ihs]
  | alt r s ihr ihs => rw [Rx.residues, Rx.residues, ihr, ihs]
  | star r ih => rw [Rx.residues, Rx.residues, ih]

theorem after_congr {mem' : κ → α → Bool} {c d : α} (h : ∀ k, mem k c = mem' k d) (items : List (ρ × Rx κ)) :
    after mem c items = after mem' d items := by
  simp only [after, residues_congr h]

theorem mem_after {c : α} {items : List (ρ × Rx κ)} {i : ρ} {s : Rx κ} :
    (i, s) ∈ after mem c items ↔ ∃ r, (i, r) ∈ items ∧ s ∈ r.residues mem c := by
  rw [after, List.mem_flatMap]
  constructor
  · rintro ⟨⟨j, r⟩, hr, hs⟩
    obtain ⟨t, ht, h⟩ := List.mem_map.mp hs
    obtain ⟨rfl, rfl⟩ := Prod.mk.inj h
    exact ⟨r, hr, ht⟩
  · rintro ⟨r, hr, hs⟩
    exact ⟨(i, r), hr, List.mem_map.mpr ⟨s, hs, rfl⟩⟩

/-- A table whose states stand for what is left of the rules. -/
structure Table (step : σ → α → Option σ) (mem : κ → α → Bool) (P : σ → Prop) (items : σ → List (ρ × Rx κ)) : Prop where
  jam : ∀ q c, P q → step q c = none → after mem c (items q) = []
  go : ∀ q c q', P q → step q c = some q' → P q' ∧ ∀ p, p ∈ after mem c (items q) ↔ p ∈ items q'

/-- **A checked table accepts what its rules match.** -/
theorem Table.accepts_iff {P : σ → Prop} {items : σ → List (ρ × Rx κ)} (h : Table step mem P items) {q : σ} (hq : P q)
    (i : ρ) (w : List α) :
    (∃ q', run step q w = some q' ∧ ∃ r, (i, r) ∈ items q' ∧ r.nullable = true) ↔
      ∃ r, (i, r) ∈ items q ∧ w ∈ r.lang mem := by
  induction w generalizing q with
  | nil => simp only [run, Option.some.injEq, exists_eq_left', nil_mem_lang]
  | cons c w ih =>
    have hsplit : (∃ r, (i, r) ∈ items q ∧ c :: w ∈ r.lang mem) ↔ ∃ s, (i, s) ∈ after mem c (items q) ∧ w ∈ s.lang mem := by
      simp only [cons_mem_lang, mem_after]
      constructor
      · rintro ⟨r, hr, s, hs, hw⟩
        exact ⟨s, ⟨r, hr, hs⟩, hw⟩
      · rintro ⟨s, ⟨r, hr, hs⟩, hw⟩
        exact ⟨r, hr, s, hs, hw⟩
    rw [hsplit, run]
    cases hst : step q c with
    | none =>
      rw [h.jam q c hq hst]
      simp
    | some q' =>
      obtain ⟨hq', hitems⟩ := h.go q c q' hq hst
      simp only [hitems]
      exact ih hq'

end

/-! ## The longest text -/

section
variable {σ α ρ : Type} (step : σ → α → Option σ) (accept : σ → Option ρ)

/-- The rule for a text, in a state. -/
def labelOf (q : σ) (w : List α) : Option ρ := (run step q w).bind accept

/-- The loop of a scanner, with the last rule that was accepted and what was behind its text. -/
def longest (q : σ) (last : Option (ρ × List α)) : List α → Option (ρ × List α)
  | [] => (accept q).elim last fun i => some (i, [])
  | c :: s =>
    let last := (accept q).elim last fun i => some (i, c :: s)
    match step q c with
    | none => last
    | some q' => longest q' last s

theorem labelOf_nil (q : σ) : labelOf step accept q ([] : List α) = accept q := rfl

theorem labelOf_cons (q : σ) (c : α) (w : List α) :
    labelOf step accept q (c :: w) = (step q c).bind fun q' => labelOf step accept q' w := by
  rw [labelOf, run]
  cases step q c with
  | none => rfl
  | some q' => rfl

/-- `w` is the longest prefix of a text that is accepted, by the rule `i`. -/
structure IsLongest (q : σ) (w s : List α) (i : ρ) : Prop where
  rule : labelOf step accept q w = some i
  last : ∀ v, v ≠ [] → v <+: s → labelOf step accept q (w ++ v) = none

variable {step accept}

theorem longest_of_end {q : σ} {i : ρ} (hi : accept q = some i) (hend : ∀ c, step q c = none) (last : Option (ρ × List α))
    (s : List α) : longest step accept q last s = some (i, s) := by
  cases s with
  | nil => rw [longest, hi, Option.elim_some]
  | cons c s => rw [longest, hend, hi, Option.elim_some]

theorem longest_none {q : σ} {s : List α} (h : ∀ v, v <+: s → labelOf step accept q v = none) (last : Option (ρ × List α)) :
    longest step accept q last s = last := by
  induction s generalizing q last with
  | nil =>
    have hnil := h [] (List.prefix_refl _)
    rw [labelOf_nil] at hnil
    rw [longest, hnil, Option.elim_none]
  | cons c s ih =>
    have hnil := h [] List.nil_prefix
    rw [labelOf_nil] at hnil
    rw [longest, hnil, Option.elim_none]
    cases hst : step q c with
    | none => rfl
    | some q' =>
      refine ih (fun v hv => ?_) last
      have hv' := h (c :: v) (List.cons_prefix_cons.mpr ⟨rfl, hv⟩)
      rwa [labelOf_cons, hst] at hv'

theorem longest_of_isLongest {q : σ} {w s : List α} {i : ρ} (h : IsLongest step accept q w s i)
    (last : Option (ρ × List α)) : longest step accept q last (w ++ s) = some (i, s) := by
  induction w generalizing q last with
  | nil =>
    have hrule := h.rule
    rw [labelOf_nil] at hrule
    cases s with
    | nil => rw [List.append_nil, longest, hrule, Option.elim_some]
    | cons c s =>
      rw [List.nil_append, longest, hrule, Option.elim_some]
      cases hst : step q c with
      | none => rfl
      | some q' =>
        refine longest_none (fun v hv => ?_) _
        have hv' := h.last (c :: v) (List.cons_ne_nil _ _) (List.cons_prefix_cons.mpr ⟨rfl, hv⟩)
        rwa [List.nil_append, labelOf_cons, hst] at hv'
  | cons c w ih =>
    have hrule := h.rule
    rw [labelOf_cons] at hrule
    cases hst : step q c with
    | none =>
      rw [hst] at hrule
      exact absurd hrule (Option.some_ne_none i).symm
    | some q' =>
      rw [hst] at hrule
      rw [List.cons_append, longest, hst]
      refine ih ⟨hrule, fun v hne hv => ?_⟩ _
      have hv' := h.last v hne hv
      rwa [List.cons_append, labelOf_cons, hst] at hv'

/-- A text of which some prefix is accepted has a longest one. -/
theorem exists_isLongest {q : σ} {s : List α} (h : ∃ v, v <+: s ∧ labelOf step accept q v ≠ none) :
    ∃ w rest i, w ++ rest = s ∧ IsLongest step accept q w rest i := by
  induction s generalizing q with
  | nil =>
    obtain ⟨v, hv, hne⟩ := h
    obtain rfl := List.prefix_nil.mp hv
    obtain ⟨i, hi⟩ := Option.ne_none_iff_exists'.mp hne
    exact ⟨[], [], i, rfl, hi, fun v hne hv => absurd (List.prefix_nil.mp hv) hne⟩
  | cons c s ih =>
    by_cases hmore : ∃ v, v <+: s ∧ labelOf step accept q (c :: v) ≠ none
    · obtain ⟨v, hv, hne⟩ := hmore
      cases hst : step q c with
      | none =>
        rw [labelOf_cons, hst] at hne
        exact absurd rfl hne
      | some q' =>
        rw [labelOf_cons, hst] at hne
        obtain ⟨w, rest, i, rfl, hlong⟩ := ih ⟨v, hv, hne⟩
        refine ⟨c :: w, rest, i, rfl, ?_, fun v hne hv => ?_⟩
        · rw [labelOf_cons, hst]
          exact hlong.rule
        · rw [List.cons_append, labelOf_cons, hst]
          exact hlong.last v hne hv
    · have hnone (v : List α) (hne : v ≠ []) (hv : v <+: c :: s) : labelOf step accept q v = none := by
        cases v with
        | nil => exact absurd rfl hne
        | cons d v =>
          obtain ⟨rfl, hvs⟩ := List.cons_prefix_cons.mp hv
          by_contra hc
          exact hmore ⟨v, hvs, hc⟩
      obtain ⟨v, hv, hne⟩ := h
      obtain rfl : v = [] := by
        by_contra hc
        exact hne (hnone v hc hv)
      obtain ⟨i, hi⟩ := Option.ne_none_iff_exists'.mp hne
      exact ⟨[], c :: s, i, rfl, hi, hnone⟩

/-- **The loop finds the longest text that is accepted**, if there is one. -/
theorem longest_eq_some {q : σ} {s rest : List α} {i : ρ} :
    longest step accept q none s = some (i, rest) ↔ ∃ w, w ++ rest = s ∧ IsLongest step accept q w rest i := by
  constructor
  · intro h
    have hex : ∃ v, v <+: s ∧ labelOf step accept q v ≠ none := by
      by_contra hc
      rw [longest_none (fun v hv => by_contra fun hne => hc ⟨v, hv, hne⟩)] at h
      exact absurd h (Option.some_ne_none _).symm
    obtain ⟨w, rest', j, rfl, hlong⟩ := exists_isLongest hex
    rw [longest_of_isLongest hlong] at h
    obtain ⟨rfl, rfl⟩ := Prod.mk.inj (Option.some.inj h)
    exact ⟨w, rfl, hlong⟩
  · rintro ⟨w, rfl, hlong⟩
    exact longest_of_isLongest hlong none

end

end Lex
