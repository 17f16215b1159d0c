import Mathlib

/-!
# Patterns with an open end

A pattern is a string, or a string with anything behind it. Two patterns overlap when some string
matches both.

* **`exists_matches_iff`**: overlap is a comparison of the stems;
* **`comparable_terminated`**: with an end marker behind the closed patterns, it is a comparison over
  the common length.
-/

namespace PrefixPattern

variable {α : Type}

/-- A stem, and whether anything may follow it. -/
structure Pattern (α : Type) where
  stem : List α
  isOpen : Bool

namespace Pattern

variable (p q : Pattern α)

def Matches (s : List α) : Prop := if p.isOpen then p.stem <+: s else p.stem = s

/-- What two overlapping patterns have in common. -/
def Overlap : Prop :=
  match p.isOpen, q.isOpen with
  | true, true => p.stem <+: q.stem ∨ q.stem <+: p.stem
  | true, false => p.stem <+: q.stem
  | false, true => q.stem <+: p.stem
  | false, false => p.stem = q.stem

/-- The stem, with the end marker `e` if nothing may follow. -/
def terminated (e : α) : List α := if p.isOpen then p.stem else p.stem ++ [e]

end Pattern

open Pattern

/-- One of the strings starts the other. -/
def Comparable (a b : List α) : Prop := a <+: b ∨ b <+: a

theorem comparable_append_left {h a b : List α} : Comparable (h ++ a) (h ++ b) ↔ Comparable a b := by
  rw [Comparable, Comparable, List.prefix_append_right_inj, List.prefix_append_right_inj]

/-- Over the common length the strings are the same. -/
theorem comparable_iff_take {a b : List α} :
    Comparable a b ↔ a.take (min a.length b.length) = b.take (min a.length b.length) := by
  unfold Comparable
  rcases Nat.le_total a.length b.length with h | h
  · rw [Nat.min_eq_left h, List.take_length, ← List.prefix_iff_eq_take]
    constructor
    · rintro (hab | hba)
      · exact hab
      · exact (hba.eq_of_length (le_antisymm hba.length_le h)) ▸ List.prefix_rfl
    · exact Or.inl
  · rw [Nat.min_eq_right h, List.take_length]
    constructor
    · rintro (hab | hba)
      · have heq := hab.eq_of_length (le_antisymm hab.length_le h)
        rw [heq, List.take_length]
      · exact (List.prefix_iff_eq_take.mp hba).symm
    · intro heq
      exact Or.inr (heq ▸ List.take_prefix _ _)

/-- **Two patterns overlap where a string matches both.** -/
theorem exists_matches_iff (p q : Pattern α) : (∃ s, p.Matches s ∧ q.Matches s) ↔ p.Overlap q := by
  obtain ⟨a, pOpen⟩ := p
  obtain ⟨b, qOpen⟩ := q
  cases pOpen <;> cases qOpen <;> simp only [Matches, Overlap, Bool.false_eq_true, if_false, if_true]
  · constructor
    · rintro ⟨s, rfl, rfl⟩
      rfl
    · rintro rfl
      exact ⟨a, rfl, rfl⟩
  · exact exists_eq_left'
  · constructor
    · rintro ⟨s, h, rfl⟩
      exact h
    · exact fun h => ⟨b, h, rfl⟩
  · constructor
    · rintro ⟨s, ha, hb⟩
      exact List.prefix_or_prefix_of_prefix ha hb
    · rintro (h | h)
      · exact ⟨b, h, List.prefix_rfl⟩
      · exact ⟨a, List.prefix_rfl, h⟩

/-- A string without the marker is only started by a marked string if it is not. -/
theorem prefix_marked {e : α} {a b : List α} (ha : e ∉ a) : a <+: b ++ [e] ↔ a <+: b := by
  constructor
  · intro h
    rcases List.prefix_concat_iff.mp h with rfl | h
    · exact absurd (List.mem_append_right b (List.mem_singleton_self e)) ha
    · exact h
  · exact fun h => h.trans (List.prefix_append b [e])

theorem not_prefix_of_marked {e : α} {a b : List α} (hb : e ∉ b) : ¬ a ++ [e] <+: b := by
  intro h
  exact hb (h.subset (List.mem_append_right a (List.mem_singleton_self e)))

theorem marked_prefix_marked {e : α} {a b : List α} (hb : e ∉ b) : a ++ [e] <+: b ++ [e] ↔ a = b := by
  constructor
  · intro h
    rcases List.prefix_concat_iff.mp h with h | h
    · exact List.append_cancel_right h
    · exact absurd h (not_prefix_of_marked hb)
  · rintro rfl
    exact List.prefix_rfl

/-- **Two patterns overlap where their stems, with the marker behind the closed ones, are the same
over the common length.** -/
theorem comparable_terminated {e : α} {p q : Pattern α} (hp : e ∉ p.stem) (hq : e ∉ q.stem) :
    Comparable (p.terminated e) (q.terminated e) ↔ p.Overlap q := by
  obtain ⟨a, pOpen⟩ := p
  obtain ⟨b, qOpen⟩ := q
  cases pOpen <;> cases qOpen <;>
    simp only [Comparable, terminated, Overlap, Bool.false_eq_true, if_false, if_true]
  · rw [marked_prefix_marked hq, marked_prefix_marked hp, eq_comm (a := b), or_self]
  · rw [or_iff_right (not_prefix_of_marked hq), prefix_marked hq]
  · rw [or_iff_left (not_prefix_of_marked hp), prefix_marked hp]

end PrefixPattern
