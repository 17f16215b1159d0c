import Mathlib.Data.List.Induction
import Mathlib.Data.Option.Basic
import Mathlib.Logic.Function.Basic

/-!
# Parameters that keep their values

A record of parameters that is used again and again: each use sets some parameters and leaves the
others as the uses before it have left them.

* `overlay`: the parameters after a sequence of uses;
* `overlay_eq_init_iff`: a parameter is as it was at first exactly if no use has set it;
* **`overlay_fresh_iff`**: a use finds the parameters as it would find them fresh exactly if those it
  does not set were never set.
-/

namespace Overlay

variable {α ι β : Type}

/-- The parameters after the uses `as`. -/
def overlay (sets : α → ι → Option β) (init : ι → β) (as : List α) : ι → β :=
  as.foldl (fun s a i => (sets a i).getD (s i)) init

variable {sets : α → ι → Option β} {init : ι → β}

@[simp] theorem overlay_nil : overlay sets init [] = init := rfl

theorem overlay_concat (as : List α) (a : α) (i : ι) :
    overlay sets init (as ++ [a]) i = (sets a i).getD (overlay sets init as i) := by
  simp [overlay]

/-- **A parameter is as it was at first** exactly if no use has set it, for a parameter that no use
sets back. -/
theorem overlay_eq_init_iff {i : ι} (h : ∀ a, sets a i ≠ some (init i)) (as : List α) :
    overlay sets init as i = init i ↔ ∀ a ∈ as, sets a i = none := by
  induction as using List.reverseRecOn with
  | nil => simp
  | append_singleton as a ih =>
    rw [overlay_concat]
    cases hs : sets a i with
    | some v =>
      refine iff_of_false (fun hv => h a ?_) fun hall => ?_
      · rw [hs]
        exact congrArg some hv
      · rw [hall a (by simp)] at hs
        cases hs
    | none =>
      rw [Option.getD_none, ih]
      refine ⟨fun hall b hb => ?_, fun hall b hb => hall b (List.mem_append_left _ hb)⟩
      rcases List.mem_append.mp hb with hb | hb
      · exact hall b hb
      · rw [List.mem_singleton.mp hb]
        exact hs

/-- **A use finds fresh parameters** exactly if the ones it does not set were never set. -/
theorem overlay_fresh_iff {a : α} (as : List α)
    (h : ∀ i, sets a i = none → ∀ b, sets b i ≠ some (init i)) :
    overlay sets init (as ++ [a]) = overlay sets init [a] ↔
      ∀ i, sets a i = none → ∀ b ∈ as, sets b i = none := by
  have hone (i : ι) : overlay sets init [a] i = (sets a i).getD (init i) :=
    overlay_concat [] a i
  rw [funext_iff]
  refine forall_congr' fun i => ?_
  rw [overlay_concat, hone]
  cases hs : sets a i with
  | some v => simp
  | none =>
    rw [Option.getD_none, Option.getD_none, overlay_eq_init_iff (h i hs)]
    simp

end Overlay
