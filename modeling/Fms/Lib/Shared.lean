import Mathlib

/-!
# Blocks with shared references

Blocks of memory that several records refer to. A reference carries a tag, what the block is about,
which is copied with it. Blocks are allocated under fresh names; references are copied, moved and
dropped; a block is freed by one of its holders.

* `Safe`: no freed block is referred to;
* `Tagged`: all references to a block carry the same tag;
* `tagged_step`: tags stay unique under every operation;
* **`safe_step`**: safety is kept by every operation except a `free` of a block that another record
  still refers to.
-/

namespace Shared

variable {κ τ : Type}

/-- The references with their tags, and the freed blocks. -/
structure State (κ τ : Type) where
  refs : Set (κ × τ)
  freed : Set κ

/-- No record refers to a freed block. -/
def Safe (s : State κ τ) : Prop := ∀ k t, (k, t) ∈ s.refs → k ∉ s.freed

/-- The references to a block agree on its tag. -/
def Tagged (s : State κ τ) : Prop := ∀ k t t', (k, t) ∈ s.refs → (k, t') ∈ s.refs → t = t'

/-- One operation; `free` names the block it frees. -/
inductive Step (s t : State κ τ) : Option κ → Prop
  | move (refs : t.refs ⊆ s.refs) (freed : t.freed = s.freed) : Step s t none
  | alloc (k : κ) (tag : τ) (fresh : ∀ tag', (k, tag') ∉ s.refs) (unused : k ∉ s.freed)
      (refs : t.refs ⊆ insert (k, tag) s.refs) (freed : t.freed = s.freed) : Step s t none
  | free (k : κ) (refs : t.refs ⊆ s.refs) (freed : t.freed = insert k s.freed) : Step s t (some k)

theorem tagged_step {s t : State κ τ} {o : Option κ} (hs : Tagged s) (h : Step s t o) :
    Tagged t := by
  intro k x y hx hy
  cases h with
  | move refs _ => exact hs k x y (refs hx) (refs hy)
  | alloc k' tag fresh _ refs _ =>
    rcases refs hx with hx | hx <;> rcases refs hy with hy | hy
    · exact (Prod.mk.inj hx).2.trans (Prod.mk.inj hy).2.symm
    · exact absurd ((Prod.mk.inj hx).1 ▸ hy) (fresh y)
    · exact absurd ((Prod.mk.inj hy).1 ▸ hx) (fresh x)
    · exact hs k x y hx hy
  | free k' refs _ => exact hs k x y (refs hx) (refs hy)

/-- **Safety is lost exactly by freeing a block that is still referred to.** -/
theorem safe_step {s t : State κ τ} {o : Option κ} (hs : Safe s) (h : Step s t o) :
    Safe t ↔ ∀ k, o = some k → ∀ tag, (k, tag) ∉ t.refs := by
  cases h with
  | move refs freed =>
    refine iff_of_true (fun k x hx => ?_) fun k hk => absurd hk (Option.some_ne_none k).symm
    rw [freed]
    exact hs k x (refs hx)
  | alloc k' tag _ unused refs freed =>
    refine iff_of_true (fun k x hx => ?_) fun k hk => absurd hk (Option.some_ne_none k).symm
    rw [freed]
    rcases refs hx with hx | hx
    · exact (Prod.mk.inj hx).1 ▸ unused
    · exact hs k x hx
  | free k' refs freed =>
    constructor
    · rintro ht k hk x hx
      cases hk
      exact ht k' x hx (freed ▸ Set.mem_insert k' _)
    · intro hno k x hx hk
      rw [freed] at hk
      rcases hk with rfl | hk
      · exact hno k rfl x hx
      · exact hs k x (refs hx) hk

end Shared
