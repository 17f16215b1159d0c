import Mathlib

/-!
# Filling a table of limited size

A loop hands out the places of a table in order: each turn takes as many places as it has items, and
fails when the table is full. `St J` is the state when the items `J` have taken the first places.

* **`foldlM_filling`**: the loop succeeds exactly when all items of all turns fit;
* `zipWith_snoc`: the item of the next place;
* `foldlM_range_getElem`: a loop over indices of a list is a loop over its elements;
* `foldl_last`: a search that keeps the last hit of a reversed list finds the first one of the list.
-/

namespace Filling

variable {σ α β γ : Type}

/-- **All turns fit, or the loop fails.** -/
theorem foldlM_filling (step : σ → α → Option σ) (St : List β → σ) (P : α → Prop)
    [DecidablePred P] (g : α → List β) {N : ℕ} {l : List α}
    (hstep : ∀ x ∈ l, ∀ J : List β, J.length ≤ N → step (St J) x =
      if P x ∧ J.length + (g x).length ≤ N then some (St (J ++ g x)) else none)
    {J : List β} (hJ : J.length ≤ N) :
    l.foldlM step (St J) =
      if (∀ x ∈ l, P x) ∧ J.length + (l.flatMap g).length ≤ N then some (St (J ++ l.flatMap g))
      else none := by
  induction l generalizing J with
  | nil => simp [hJ]
  | cons a l ih =>
    rw [List.foldlM_cons, hstep a List.mem_cons_self J hJ]
    simp only [List.forall_mem_cons, List.flatMap_cons, List.length_append]
    by_cases ha : P a ∧ J.length + (g a).length ≤ N
    · rw [if_pos ha, Option.bind_eq_bind, Option.bind_some,
        ih (fun x hx => hstep x (List.mem_cons_of_mem a hx)) (by simpa using ha.2)]
      rw [List.length_append, List.append_assoc]
      refine if_congr ?_ rfl rfl
      constructor
      · rintro ⟨hl, hN⟩
        exact ⟨⟨ha.1, hl⟩, by omega⟩
      · rintro ⟨⟨-, hl⟩, hN⟩
        exact ⟨hl, by omega⟩
    · rw [if_neg ha, if_neg]
      · rfl
      · rintro ⟨⟨h1, -⟩, hN⟩
        exact ha ⟨h1, by omega⟩

theorem zipWith_snoc (f : α → β → γ) (J : List α) (x : α) (D : List β) (h : J.length < D.length) :
    List.zipWith f (J ++ [x]) D = List.zipWith f J D ++ [f x D[J.length]] := by
  induction J generalizing D with
  | nil =>
    obtain ⟨d, D, rfl⟩ := List.exists_cons_of_length_pos h
    simp
  | cons a J ih =>
    obtain ⟨d, D, rfl⟩ := List.exists_cons_of_length_pos (Nat.zero_lt_of_lt h)
    simp only [List.length_cons, Nat.add_lt_add_iff_right] at h
    simpa using ih D h

theorem foldlM_range_getElem (f : σ → ℕ → α → Option σ) (f' : σ → α → Option σ) {l : List α} {n : ℕ}
    (hn : n ≤ l.length) (hf : ∀ st a, ∀ j < n, f st j a = f' st a) (st : σ) :
    (List.range n).foldlM (fun st j => l[j]?.bind (f st j)) st = (l.take n).foldlM f' st := by
  induction n with
  | zero => rfl
  | succ n ih =>
    have hlt : n < l.length := hn
    have hlast : l[n]? = some l[n] := List.getElem?_eq_getElem hlt
    rw [List.range_succ, List.foldlM_append, ih (by omega) fun st a j hj => hf st a j (by omega),
      ← List.take_append_getElem hn, List.foldlM_append]
    congr 1
    funext st'
    simp only [List.foldlM_cons, List.foldlM_nil, bind_pure, hlast, Option.bind_some]
    exact hf st' _ n n.lt_succ_self

theorem foldl_last (p : α → Bool) (f : α → β) (l : List α) (b : β) :
    l.reverse.foldl (fun r a => if p a then f a else r) b = ((l.find? p).map f).getD b := by
  induction l with
  | nil => rfl
  | cons a l ih =>
    rw [List.reverse_cons, List.foldl_append, ih, List.find?_cons]
    cases h : p a <;> simp [h]

end Filling
