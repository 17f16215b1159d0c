import Mathlib

/-!
# Tokens carried by a list

Records that wait in queues may carry a token: the name of what they count for or own. `tokens f l` is
the multiset of the tokens of the records in `l`, so that moving a record between queues is an
equation between sums.

* `tokens_append`, `tokens_cons`, `tokens_flatMap`: the token count of a queue from its parts;
* `mem_tokens`: a token is there exactly when a record that carries it is.
-/

namespace Tokens

variable {α β κ : Type} (f : α → Option κ)

/-- The tokens of the records in a list. -/
def tokens (l : List α) : Multiset κ := (l.filterMap f : List κ)

@[simp] theorem tokens_nil : tokens f [] = 0 := rfl

@[simp] theorem tokens_append (l₁ l₂ : List α) :
    tokens f (l₁ ++ l₂) = tokens f l₁ + tokens f l₂ := by
  simp [tokens, List.filterMap_append]

theorem tokens_cons (a : α) (l : List α) : tokens f (a :: l) = tokens f [a] + tokens f l := by
  rw [← tokens_append, List.singleton_append]

theorem tokens_flatMap (g : β → List α) {l l₁ l₂ : List β} {b : β} (h : l = l₁ ++ b :: l₂) :
    tokens f (l.flatMap g) = tokens f (g b) + tokens f ((l₁ ++ l₂).flatMap g) := by
  simp only [h, List.flatMap_append, List.flatMap_cons, tokens_append]
  abel

variable {f}

theorem tokens_some {a : α} {k : κ} (h : f a = some k) : tokens f [a] = {k} := by
  simp [tokens, h]

theorem tokens_none {a : α} (h : f a = none) : tokens f [a] = 0 := by
  simp [tokens, h]

theorem tokens_congr {a b : α} (h : f a = f b) : tokens f [a] = tokens f [b] := by
  cases hb : f b with
  | none => rw [tokens_none hb, tokens_none (h.trans hb)]
  | some k => rw [tokens_some hb, tokens_some (h.trans hb)]

theorem mem_tokens {l : List α} {k : κ} : k ∈ tokens f l ↔ ∃ a ∈ l, f a = some k := by
  rw [tokens, Multiset.mem_coe, List.mem_filterMap]

theorem count_tokens [DecidableEq κ] (l : List α) (k : κ) :
    (tokens f l).count k = l.countP fun a => decide (f a = some k) := by
  rw [tokens, Multiset.coe_count, List.count, List.countP_filterMap]
  refine List.countP_congr fun a _ => ?_
  cases f a <;> simp

end Tokens
