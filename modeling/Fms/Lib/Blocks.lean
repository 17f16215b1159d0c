import Mathlib

/-!
# Blocks that partition a range

* `Partition lo hi bs`: the blocks are not empty, lie in the range, do not overlap, and cover it;
* `Partition.split`, `Partition.join`, `Partition.extend`: how the blocks may change;
* **`Partition.exists_chain`**: the blocks one after the other, each where the last one ended.
-/

namespace Blocks

structure Block where
  off : ℕ
  len : ℕ
  deriving DecidableEq

/-- The blocks have no byte in common. -/
def Block.Apart (a b : Block) : Prop := a.off + a.len ≤ b.off ∨ b.off + b.len ≤ a.off

theorem Block.Apart.symm {a b : Block} (h : a.Apart b) : b.Apart a := Or.symm h

structure Partition (lo hi : ℕ) (bs : List Block) : Prop where
  apart : bs.Pairwise Block.Apart
  inside : ∀ b ∈ bs, lo ≤ b.off ∧ 0 < b.len ∧ b.off + b.len ≤ hi
  cover : ∀ x, lo ≤ x → x < hi → ∃ b ∈ bs, b.off ≤ x ∧ x < b.off + b.len

variable {lo hi : ℕ} {a b : Block} {bs cs : List Block}

theorem partition_nil (lo : ℕ) : Partition lo lo [] :=
  ⟨List.Pairwise.nil, fun _ h => absurd h List.not_mem_nil, fun _ h h' => absurd h (Nat.not_le_of_lt h')⟩

namespace Partition

theorem perm (h : Partition lo hi bs) (hp : bs.Perm cs) : Partition lo hi cs where
  apart := (hp.pairwise_iff fun {_ _} => Block.Apart.symm).mp h.apart
  inside := fun b hb => h.inside b (hp.mem_iff.mpr hb)
  cover := fun x hlo hhi => by
    obtain ⟨b, hb, hx⟩ := h.cover x hlo hhi
    exact ⟨b, hp.mem_iff.mp hb, hx⟩

theorem apart_of_cons (h : Partition lo hi (a :: bs)) (hb : b ∈ bs) : a.Apart b :=
  (List.pairwise_cons.mp h.apart).1 b hb

theorem split {off m n : ℕ} (h : Partition lo hi (⟨off, m + n⟩ :: bs)) (hm : 0 < m) (hn : 0 < n) :
    Partition lo hi (⟨off, m⟩ :: ⟨off + m, n⟩ :: bs) := by
  obtain ⟨hall, hrest⟩ := List.pairwise_cons.mp h.apart
  have hin := h.inside _ List.mem_cons_self
  refine ⟨?_, ?_, ?_⟩
  · refine List.pairwise_cons.mpr ⟨fun b hb => ?_, List.pairwise_cons.mpr ⟨fun b hb => ?_, hrest⟩⟩
    · rcases List.mem_cons.mp hb with rfl | hb
      · exact Or.inl le_rfl
      · rcases hall b hb with hle | hle
        · exact Or.inl (show off + m ≤ b.off by simp only at hle; omega)
        · exact Or.inr hle
    · rcases hall b hb with hle | hle
      · exact Or.inl (show off + m + n ≤ b.off by simp only at hle; omega)
      · exact Or.inr (show b.off + b.len ≤ off + m by simp only at hle; omega)
  · intro b hb
    simp only at hin
    rcases List.mem_cons.mp hb with rfl | hb
    · exact ⟨hin.1, hm, show off + m ≤ hi by omega⟩
    · rcases List.mem_cons.mp hb with rfl | hb
      · exact ⟨show lo ≤ off + m by omega, hn, show off + m + n ≤ hi by omega⟩
      · exact h.inside b (List.mem_cons_of_mem _ hb)
  · intro x hlo hhi
    obtain ⟨b, hb, hx, hx'⟩ := h.cover x hlo hhi
    rcases List.mem_cons.mp hb with rfl | hb
    · rcases Nat.lt_or_ge x (off + m) with hlt | hge
      · exact ⟨⟨off, m⟩, List.mem_cons_self, hx, hlt⟩
      · exact ⟨⟨off + m, n⟩, List.mem_cons_of_mem _ List.mem_cons_self, hge,
          show x < off + m + n by simp only at hx'; omega⟩
    · exact ⟨b, List.mem_cons_of_mem _ (List.mem_cons_of_mem _ hb), hx, hx'⟩

theorem join {off m n : ℕ} (h : Partition lo hi (⟨off, m⟩ :: ⟨off + m, n⟩ :: bs)) :
    Partition lo hi (⟨off, m + n⟩ :: bs) := by
  obtain ⟨hfst, htail⟩ := List.pairwise_cons.mp h.apart
  obtain ⟨hsnd, hrest⟩ := List.pairwise_cons.mp htail
  have h1 := h.inside _ List.mem_cons_self
  have h2 := h.inside _ (List.mem_cons_of_mem _ List.mem_cons_self)
  simp only at h1 h2
  refine ⟨List.pairwise_cons.mpr ⟨fun b hb => ?_, hrest⟩, ?_, ?_⟩
  · have hb' := h.inside b (List.mem_cons_of_mem _ (List.mem_cons_of_mem _ hb))
    have ha := hfst b (List.mem_cons_of_mem _ hb)
    have hc := hsnd b hb
    simp only [Block.Apart] at ha hc ⊢
    omega
  · intro b hb
    rcases List.mem_cons.mp hb with rfl | hb
    · exact ⟨h1.1, show 0 < m + n by omega, show off + (m + n) ≤ hi by omega⟩
    · exact h.inside b (List.mem_cons_of_mem _ (List.mem_cons_of_mem _ hb))
  · intro x hlo hhi
    obtain ⟨b, hb, hx, hx'⟩ := h.cover x hlo hhi
    rcases List.mem_cons.mp hb with rfl | hb
    · exact ⟨⟨off, m + n⟩, List.mem_cons_self, hx, show x < off + (m + n) by simp only at hx'; omega⟩
    · rcases List.mem_cons.mp hb with rfl | hb
      · exact ⟨⟨off, m + n⟩, List.mem_cons_self, show off ≤ x by simp only at hx; omega,
          show x < off + (m + n) by simp only at hx'; omega⟩
      · exact ⟨b, List.mem_cons_of_mem _ hb, hx, hx'⟩

theorem extend {n : ℕ} (h : Partition lo hi bs) (hlo : lo ≤ hi) (hn : 0 < n) :
    Partition lo (hi + n) (⟨hi, n⟩ :: bs) := by
  refine ⟨List.pairwise_cons.mpr ⟨fun b hb => Or.inr (h.inside b hb).2.2, h.apart⟩, ?_, ?_⟩
  · intro b hb
    rcases List.mem_cons.mp hb with rfl | hb
    · exact ⟨hlo, hn, le_rfl⟩
    · obtain ⟨h1, h2, h3⟩ := h.inside b hb
      exact ⟨h1, h2, h3.trans (Nat.le_add_right _ _)⟩
  · intro x hx hx'
    rcases Nat.lt_or_ge x hi with hlt | hge
    · obtain ⟨b, hb, hcov⟩ := h.cover x hx hlt
      exact ⟨b, List.mem_cons_of_mem _ hb, hcov⟩
    · exact ⟨⟨hi, n⟩, List.mem_cons_self, hge, hx'⟩

theorem exists_first (h : Partition lo hi bs) (hlt : lo < hi) : ∃ b ∈ bs, b.off = lo := by
  obtain ⟨b, hb, hle, -⟩ := h.cover lo le_rfl hlt
  exact ⟨b, hb, le_antisymm hle (h.inside b hb).1⟩

theorem tail {len : ℕ} (h : Partition lo hi (⟨lo, len⟩ :: bs)) : Partition (lo + len) hi bs := by
  obtain ⟨hall, hrest⟩ := List.pairwise_cons.mp h.apart
  refine ⟨hrest, fun b hb => ?_, fun x hx hx' => ?_⟩
  · have hb' := h.inside b (List.mem_cons_of_mem _ hb)
    have hap := hall b hb
    simp only [Block.Apart] at hap
    omega
  · obtain ⟨b, hb, hle, hlt⟩ := h.cover x (by omega) hx'
    rcases List.mem_cons.mp hb with rfl | hb
    · simp only at hlt
      omega
    · exact ⟨b, hb, hle, hlt⟩

end Partition

/-- Blocks one after the other, from `lo` to `hi`. -/
def Chain : ℕ → List Block → ℕ → Prop
  | lo, [], hi => lo = hi
  | lo, b :: bs, hi => b.off = lo ∧ 0 < b.len ∧ Chain (lo + b.len) bs hi

theorem Chain.le (h : Chain lo bs hi) : lo ≤ hi := by
  induction bs generalizing lo with
  | nil => exact h.le
  | cons b bs ih =>
    obtain ⟨-, -, hrest⟩ := h
    exact (Nat.le_add_right _ _).trans (ih hrest)

theorem Partition.exists_chain (h : Partition lo hi bs) (hle : lo ≤ hi) :
    ∃ cs, cs.Perm bs ∧ Chain lo cs hi := by
  induction hn : bs.length generalizing lo bs with
  | zero =>
    rw [List.length_eq_zero_iff] at hn
    subst hn
    refine ⟨[], List.Perm.refl _, ?_⟩
    rcases Nat.lt_or_ge lo hi with hlt | hge
    · obtain ⟨b, hb, -⟩ := h.exists_first hlt
      exact absurd hb List.not_mem_nil
    · exact le_antisymm hle hge
  | succ n ih =>
    have hlt : lo < hi := by
      obtain ⟨b, hb⟩ := List.exists_mem_of_length_pos (show 0 < bs.length by omega)
      have := h.inside b hb
      omega
    obtain ⟨b, hb, hoff⟩ := h.exists_first hlt
    have hperm : bs.Perm (b :: bs.erase b) := List.perm_cons_erase hb
    have hcons : Partition lo hi (⟨lo, b.len⟩ :: bs.erase b) := hoff ▸ h.perm hperm
    have hin := h.inside b hb
    obtain ⟨cs, hcs, hchain⟩ := ih hcons.tail (by omega) (by rw [List.length_erase_of_mem hb, hn]; rfl)
    exact ⟨b :: cs, (hcs.cons b).trans hperm.symm, hoff, hin.2.1, hchain⟩

end Blocks
