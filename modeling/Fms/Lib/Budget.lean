import Mathlib

/-!
# Runs with replies, within a budget

A program answers one request after the other, and may fail; a specification answers them as well, and
does not fail. Every request has a cost.

* `run`, `spec`: the states and the replies of both;
* **`run_refines`**: if a state with enough left of the budget answers one request as the specification
  does, and keeps what is left, then a run whose requests cost no more than the budget has the replies
  of the specification.
-/

namespace Budget

variable {σ τ α ρ ε : Type}

def run (step : σ → α → Except ε (σ × ρ)) : σ → List α → Except ε (σ × List ρ)
  | s, [] => .ok (s, [])
  | s, a :: as => do
    let r ← step s a
    let rs ← run step r.1 as
    .ok (rs.1, r.2 :: rs.2)

def spec (apply : τ → α → τ × ρ) : τ → List α → τ × List ρ
  | t, [] => (t, [])
  | t, a :: as => ((spec apply (apply t a).1 as).1, (apply t a).2 :: (spec apply (apply t a).1 as).2)

def total (cost : α → ℕ) (as : List α) : ℕ := (as.map cost).sum

@[simp] theorem total_nil (cost : α → ℕ) : total cost [] = 0 := rfl

@[simp] theorem total_cons (cost : α → ℕ) (a : α) (as : List α) : total cost (a :: as) = cost a + total cost as := rfl

/-- A run with a result has one for its first request and for the others. -/
theorem run_cons_ok {step : σ → α → Except ε (σ × ρ)} {s s' : σ} {a : α} {as : List α} {rs : List ρ}
    (h : run step s (a :: as) = .ok (s', rs)) :
    ∃ s₁ r rs', step s a = .ok (s₁, r) ∧ run step s₁ as = .ok (s', rs') ∧ rs = r :: rs' := by
  rw [run] at h
  cases hfirst : step s a with
  | error e =>
    rw [hfirst] at h
    cases h
  | ok p =>
    rw [hfirst] at h
    change (run step p.1 as >>= _) = _ at h
    cases hrest : run step p.1 as with
    | error e =>
      rw [hrest] at h
      cases h
    | ok q =>
      rw [hrest] at h
      cases h
      exact ⟨p.1, p.2, q.2, rfl, hrest, rfl⟩

theorem run_refines {step : σ → α → Except ε (σ × ρ)} {apply : τ → α → τ × ρ} {cost : α → ℕ} {R : ℕ → σ → τ → Prop}
    (hstep : ∀ a n s t, R (cost a + n) s t → ∃ s', step s a = .ok (s', (apply t a).2) ∧ R n s' (apply t a).1)
    (as : List α) (n : ℕ) (s : σ) (t : τ) (hR : R (total cost as + n) s t) :
    ∃ s', run step s as = .ok (s', (spec apply t as).2) ∧ R n s' (spec apply t as).1 := by
  induction as generalizing s t with
  | nil =>
    rw [total_nil, Nat.zero_add] at hR
    exact ⟨s, rfl, hR⟩
  | cons a as ih =>
    rw [total_cons, Nat.add_assoc] at hR
    obtain ⟨s₁, hs₁, hR₁⟩ := hstep a _ s t hR
    obtain ⟨s₂, hs₂, hR₂⟩ := ih s₁ (apply t a).1 hR₁
    refine ⟨s₂, ?_, hR₂⟩
    show (step s a >>= _) = _
    rw [hs₁]
    show (run step s₁ as >>= _) = _
    rw [hs₂]
    rfl

end Budget
