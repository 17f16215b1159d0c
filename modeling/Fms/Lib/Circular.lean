import Mathlib.Algebra.Order.BigOperators.Group.List
import Mathlib.Data.List.Range
import Mathlib.Data.Nat.ModEq
import Mathlib.Logic.Function.Basic
import Mathlib.Tactic.Linarith

/-!
# Circular buffers and threads

The `count` items from `front` on in an array of `n` whose positions wrap around, and sums over the
threads of a system, by which an invariant counts how many of them are in a section.

* `contents_store`, `contents_succ`, `contents_pop`: a store beside the items, one item more at the
  rear, one item less at the front;
* `weight`: the sum of a weight over the threads, and `eq_or_weight_eq_zero`: in a critical section a
  thread is alone.
-/

namespace Circular

variable {α : Type}

/-- The items, from the front on. -/
def contents (n : ℕ) (item : ℕ → α) (front count : ℕ) : List α :=
  (List.range count).map fun i => item ((front + i) % n)

variable {n : ℕ} {item : ℕ → α} {front count : ℕ}

@[simp] theorem length_contents : (contents n item front count).length = count := by
  simp [contents]

theorem slot_ne {i j : ℕ} (hij : i < j) (hj : j < n) : (front + i) % n ≠ (front + j) % n := by
  intro h
  have hmod : i ≡ j [MOD n] := Nat.ModEq.add_left_cancel' front h
  have heq := Nat.ModEq.eq_of_lt_of_lt hmod (hij.trans hj) hj
  omega

theorem contents_store (a : α) (h : count < n) :
    contents n (Function.update item ((front + count) % n) a) front count =
      contents n item front count := by
  refine List.map_congr_left fun i hi => ?_
  exact Function.update_of_ne (slot_ne (List.mem_range.mp hi) h) _ _

theorem contents_succ : contents n item front (count + 1) =
    contents n item front count ++ [item ((front + count) % n)] := by
  simp [contents, List.range_succ]

theorem contents_pop (h : front < n) : contents n item front (count + 1) =
    item front :: contents n item ((front + 1) % n) count := by
  simp only [contents, List.range_succ_eq_map, List.map_cons, List.map_map, Nat.add_zero,
    Nat.mod_eq_of_lt h]
  congr 1
  refine List.map_congr_left fun i _ => ?_
  simp only [Function.comp_apply, Nat.mod_add_mod]
  rw [Nat.succ_eq_add_one, Nat.add_comm i 1, ← Nat.add_assoc]

/-! ## Threads -/

variable {τ : Type} {w : τ → ℕ}

/-- The sum of a weight over the threads. -/
def weight (w : τ → ℕ) (l : List τ) : ℕ := (l.map w).sum

@[simp] theorem weight_split (l₁ l₂ : List τ) (t : τ) :
    weight w (l₁ ++ t :: l₂) = weight w l₁ + w t + weight w l₂ := by
  simp [weight, Nat.add_assoc]

theorem weight_replicate {t : τ} (k : ℕ) (h : w t = 0) : weight w (List.replicate k t) = 0 := by
  simp [weight, h]

theorem le_weight {l : List τ} {t : τ} (h : t ∈ l) : w t ≤ weight w l := by
  obtain ⟨l₁, l₂, rfl⟩ := List.append_of_mem h
  rw [weight_split]
  omega

theorem weight_eq_zero {l : List τ} (h : ∀ t ∈ l, w t = 0) : weight w l = 0 := by
  rw [weight, List.sum_eq_zero_iff]
  intro x hx
  obtain ⟨t, ht, rfl⟩ := List.mem_map.mp hx
  exact h t ht

theorem exists_of_weight_pos {l : List τ} (h : 0 < weight w l) : ∃ t ∈ l, 0 < w t := by
  by_contra hno
  have hzero : weight w l = 0 := weight_eq_zero fun t ht => by
    by_contra hne
    exact hno ⟨t, ht, Nat.pos_of_ne_zero hne⟩
  omega

theorem weight_le {w' : τ → ℕ} (h : ∀ t, w t ≤ w' t) (l : List τ) : weight w l ≤ weight w' l :=
  List.sum_le_sum fun t _ => h t

theorem eq_or_weight_eq_zero {l₁ l₂ : List τ} {t t' x : τ} {c : ℕ}
    (h : weight w (l₁ ++ t :: l₂) ≤ c) (ht : w t = c) (hx : x ∈ l₁ ++ t' :: l₂) :
    x = t' ∨ w x = 0 := by
  rw [weight_split, ht] at h
  rcases List.mem_append.mp hx with hx | hx
  · have hle := le_weight (w := w) hx
    exact .inr (by omega)
  · rcases List.mem_cons.mp hx with rfl | hx
    · exact .inl rfl
    · have hle := le_weight (w := w) hx
      exact .inr (by omega)

end Circular
