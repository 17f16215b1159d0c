import Mathlib

/-!
# Sorting by a heap from position 0

The children of position `k` are at `2k` and `2k + 1`; position 0 is its own first child, and the
only other one is 1.

* `siftDown`, `heapify`, `drain`, `heapSort`: the sort, in a vector with swaps inside its bounds;
* `Heap key a b top`: the parents from `b` on are not below their children;
* **`heap_siftDown`**: a parent moved down leaves a heap, by what holds of every other parent;
* **`sorted_drain`**: the largest ones taken out one after the other are in order;
* **`sort_perm`**, **`sort_pairwise`**: the sorted list is a permutation, and in order.
-/

namespace HeapSort

variable {α : Type} {n : ℕ} (key : α → ℕ)

/-- The larger child of `mybot`. -/
def child (a : Vector α n) (mybot top : Fin n) (h : 2 * mybot.val ≤ top) : Fin n :=
  if h' : 2 * mybot.val < top then
    if key (a.get ⟨2 * mybot + 1, by omega⟩) > key (a.get ⟨2 * mybot, by omega⟩) then
      ⟨2 * mybot + 1, by omega⟩
    else ⟨2 * mybot, by omega⟩
  else ⟨2 * mybot, by omega⟩

theorem child_cases (a : Vector α n) {mybot top : Fin n} (h : 2 * mybot.val ≤ top) :
    (child key a mybot top h).val = 2 * mybot ∨
      (child key a mybot top h).val = 2 * mybot + 1 ∧ 2 * mybot.val < top := by
  unfold child
  split_ifs with h1 h2
  · exact Or.inr ⟨rfl, h1⟩
  · exact Or.inl rfl
  · exact Or.inl rfl

theorem child_le (a : Vector α n) {mybot top : Fin n} (h : 2 * mybot.val ≤ top) :
    child key a mybot top h ≤ top := by
  rw [Fin.le_def]
  rcases child_cases key a h with hc | ⟨hc, hlt⟩ <;> omega

theorem child_div (a : Vector α n) {mybot top : Fin n} (h : 2 * mybot.val ≤ top) :
    (child key a mybot top h).val / 2 = mybot := by
  rcases child_cases key a h with hc | ⟨hc, -⟩ <;> omega

theorem le_child (a : Vector α n) {mybot top c : Fin n} (h : 2 * mybot.val ≤ top) (hc : c.val / 2 = mybot)
    (htop : c ≤ top) : key (a.get c) ≤ key (a.get (child key a mybot top h)) := by
  have hcases : c.val = 2 * mybot ∨ c.val = 2 * mybot + 1 := by omega
  rw [Fin.le_def] at htop
  unfold child
  split_ifs with h1 h2
  · rcases hcases with hc | hc
    · rw [show c = ⟨2 * mybot, by omega⟩ from Fin.ext hc]
      exact h2.le
    · rw [show c = ⟨2 * mybot + 1, by omega⟩ from Fin.ext hc]
  · rcases hcases with hc | hc
    · rw [show c = ⟨2 * mybot, by omega⟩ from Fin.ext hc]
    · rw [show c = ⟨2 * mybot + 1, by omega⟩ from Fin.ext hc]
      exact not_lt.mp h2
  · rw [show c = ⟨2 * mybot, by omega⟩ from Fin.ext (show c.val = 2 * mybot.val by omega)]

theorem lt_child (a : Vector α n) {mybot top : Fin n} (h : 2 * mybot.val ≤ top)
    (hkey : ¬ key (a.get mybot) ≥ key (a.get (child key a mybot top h))) :
    mybot < child key a mybot top h := by
  rw [Fin.lt_def]
  rcases child_cases key a h with hc | ⟨hc, -⟩
  · rcases Nat.eq_zero_or_pos mybot.val with h0 | hpos
    · exact absurd (by rw [show child key a mybot top h = mybot from Fin.ext (by omega)]) hkey
    · omega
  · omega

/-- The loop that moves what is at `mybot` down, as long as a child is larger. -/
def siftDown (a : Vector α n) (mybot top : Fin n) : Vector α n :=
  if h : 2 * mybot.val ≤ top then
    if hkey : key (a.get mybot) ≥ key (a.get (child key a mybot top h)) then a
    else siftDown (a.swap mybot (child key a mybot top h)) (child key a mybot top h) top
  else a
termination_by top.val - mybot
decreasing_by
  have := lt_child key a h hkey
  have := child_le key a h
  omega

/-- The first loop: every parent below `bottom` is moved down, the last one first. -/
def heapify (a : Vector α n) (top : Fin n) : (bottom : ℕ) → bottom ≤ n → Vector α n
  | 0, _ => a
  | bottom + 1, h => heapify (siftDown key a ⟨bottom, h⟩ top) top bottom (Nat.le_of_succ_le h)

/-- The second loop: the first one is swapped behind the others, and its place filled from them. -/
def drain (a : Vector α n) : (top : ℕ) → top < n → Vector α n
  | 0, _ => a
  | top + 1, h =>
    drain (siftDown key (a.swap 0 (top + 1) (by omega) h) ⟨0, by omega⟩ ⟨top, by omega⟩) top (by omega)

def heapSort (a : Vector α n) : Vector α n :=
  if h : n = 0 then a
  else drain key (heapify key a ⟨n - 1, by omega⟩ ((n - 1) / 2 + 1) (by omega)) (n - 1) (by omega)

/-- The sort of a list. -/
def sort (l : List α) : List α := (heapSort key (⟨l.toArray, rfl⟩ : Vector α l.length)).toList

/-! ## Permutations -/

section perm
variable {key}

theorem siftDown_perm (a : Vector α n) (mybot top : Fin n) : (siftDown key a mybot top).Perm a := by
  induction a, mybot using siftDown.induct key top with
  | case1 a mybot h hkey => rw [siftDown, dif_pos h, dif_pos hkey]
  | case2 a mybot h hkey ih =>
    rw [siftDown, dif_pos h, dif_neg hkey]
    exact ih.trans (Vector.swap_perm _ _)
  | case3 a mybot h => rw [siftDown, dif_neg h]

theorem heapify_perm (top : Fin n) (bottom : ℕ) (h : bottom ≤ n) (a : Vector α n) :
    (heapify key a top bottom h).Perm a := by
  induction bottom generalizing a with
  | zero => exact Vector.Perm.rfl
  | succ bottom ih => exact (ih (Nat.le_of_succ_le h) _).trans (siftDown_perm _ _ _)

theorem drain_perm (top : ℕ) (h : top < n) (a : Vector α n) : (drain key a top h).Perm a := by
  induction top generalizing a with
  | zero => exact Vector.Perm.rfl
  | succ top ih =>
    exact (ih (by omega) _).trans ((siftDown_perm _ _ _).trans (Vector.swap_perm _ _))

theorem heapSort_perm (a : Vector α n) : (heapSort key a).Perm a := by
  unfold heapSort
  split_ifs with h
  · exact Vector.Perm.rfl
  · exact (drain_perm _ _ _).trans (heapify_perm _ _ _ _)

theorem sort_perm (l : List α) : (sort key l).Perm l :=
  (heapSort_perm (⟨l.toArray, rfl⟩ : Vector α l.length)).toList

end perm

/-! ## Order -/

/-- No parent from `b` on has a smaller key than its child. -/
def Heap (a : Vector α n) (b top : ℕ) : Prop :=
  ∀ p c : Fin n, c.val / 2 = p → 0 < c.val → c ≤ top → b ≤ p → key (a.get c) ≤ key (a.get p)

/-- What moving down from `m` needs: every other parent is in order, and the children of `m` are not
above its own parent. -/
structure HeapBut (a : Vector α n) (b top : ℕ) (m : Fin n) : Prop where
  other : ∀ p c : Fin n, c.val / 2 = p → 0 < c.val → c ≤ top → b ≤ p → p ≠ m →
    key (a.get c) ≤ key (a.get p)
  grand : ∀ p c : Fin n, c.val / 2 = m → m.val / 2 = p → 0 < m.val → c ≤ top → b ≤ p →
    key (a.get c) ≤ key (a.get p)

variable {key} {a : Vector α n} {b : ℕ}

theorem get_swap (i j k : Fin n) :
    (a.swap i j).get k = if k = i then a.get j else if k = j then a.get i else a.get k := by
  simp only [Vector.get_eq_getElem, Vector.getElem_swap, Fin.ext_iff]

/-- What is at `m` swapped with its larger child `i`: only `i` may be out of order now. -/
theorem HeapBut.swap {m i : Fin n} {top : ℕ} (h : HeapBut key a b top m) (hb : b ≤ m) (hlt : m < i)
    (hdiv : i.val / 2 = m) (hle : key (a.get m) ≤ key (a.get i)) (htop : i.val ≤ top)
    (hmax : ∀ c : Fin n, c.val / 2 = m → c ≤ top → key (a.get c) ≤ key (a.get i)) :
    HeapBut key (a.swap m i) b top i := by
  rw [Fin.lt_def] at hlt
  have hchild : ∀ p c : Fin n, c.val / 2 = p → 0 < c.val → c ≤ top → b ≤ p → p ≠ i →
      key ((a.swap m i).get c) ≤ key ((a.swap m i).get p) := by
    intro p c hp hpos hc hbp hpi
    rcases eq_or_ne p m with hpm | hpm
    · subst hpm
      have hcm : c ≠ p := fun he => by subst he; omega
      rw [get_swap p i p, if_pos rfl, get_swap, if_neg hcm]
      split_ifs with hci
      · exact hle
      · exact hmax c hp hc
    · have hci : c ≠ i := fun he => hpm (Fin.ext (by subst he; omega))
      rw [get_swap _ _ p, if_neg hpm, if_neg hpi, get_swap]
      split_ifs with hcm
      · subst hcm
        exact h.grand p i hdiv hp hpos htop hbp
      · exact h.other p c hp hpos hc hbp hpm
  refine ⟨hchild, ?_⟩
  intro p c hc hp _ hctop _
  obtain rfl : p = m := Fin.ext (by omega)
  have hcm : c ≠ p := fun he => by subst he; omega
  have hci : c ≠ i := fun he => by subst he; omega
  rw [get_swap, if_neg hcm, if_neg hci, get_swap, if_pos rfl]
  exact h.other i c hc (by omega) hctop (by omega) (fun he => by subst he; omega)

theorem HeapBut.heap {m : Fin n} {top : ℕ} (h : HeapBut key a b top m)
    (hm : ∀ c : Fin n, c.val / 2 = m → c ≤ top → key (a.get c) ≤ key (a.get m)) : Heap key a b top := by
  intro p c hp hpos hc hbp
  rcases eq_or_ne p m with rfl | hpm
  · exact hm c hp hc
  · exact h.other p c hp hpos hc hbp hpm

theorem heap_siftDown {m top : Fin n} (hb : b ≤ m) (h : HeapBut key a b top m) :
    Heap key (siftDown key a m top) b top := by
  induction a, m using siftDown.induct key top with
  | case1 a m hm hkey =>
    rw [siftDown, dif_pos hm, dif_pos hkey]
    exact h.heap fun c hc htop => (le_child key a hm hc htop).trans hkey
  | case2 a m hm hkey ih =>
    rw [siftDown, dif_pos hm, dif_neg hkey]
    have hlt := lt_child key a hm hkey
    have hswap := h.swap hb hlt (child_div key a hm) (not_le.mp hkey).le (child_le key a hm)
      fun c hc htop => le_child key a hm hc htop
    exact ih (hb.trans (Fin.le_def.mp hlt.le)) hswap
  | case3 a m hm =>
    rw [siftDown, dif_neg hm]
    exact h.heap fun c hc htop => absurd htop (by omega)

theorem heapBut_of_heap {m : Fin n} {top : ℕ} (h : Heap key a (m + 1) top) : HeapBut key a m top m := by
  constructor
  · intro p c hp hpos hc hb hpm
    have : p.val ≠ m.val := fun he => hpm (Fin.ext he)
    exact h p c hp hpos hc (by omega)
  · intro p c _ hp hpos _ hb
    omega

theorem heap_heapify (top : Fin n) (bottom : ℕ) (h : bottom ≤ n) (ha : Heap key a bottom top) :
    Heap key (heapify key a top bottom h) 0 top := by
  induction bottom generalizing a with
  | zero => exact ha
  | succ bottom ih => exact ih _ (heap_siftDown le_rfl (heapBut_of_heap (m := ⟨bottom, h⟩) ha))

theorem Heap.le_first {top : ℕ} (h : Heap key a 0 top) (c z : Fin n) (hz : z.val = 0) (hc : c ≤ top) :
    key (a.get c) ≤ key (a.get z) := by
  induction hk : c.val using Nat.strong_induction_on generalizing c with
  | _ k ih =>
    rcases Nat.eq_zero_or_pos c.val with h0 | hpos
    · rw [show c = z from Fin.ext (by omega)]
    · have hparent := h ⟨c / 2, by omega⟩ c rfl hpos hc (Nat.zero_le _)
      exact hparent.trans (ih (c / 2) (by omega) ⟨c / 2, by omega⟩ (show c.val / 2 ≤ top by omega) rfl)

/-! ## What stays where it is -/

theorem get_siftDown_of_lt {m top j : Fin n} (hm : m ≤ top) (hj : top < j) :
    (siftDown key a m top).get j = a.get j := by
  induction a, m using siftDown.induct key top with
  | case1 a m h hkey => rw [siftDown, dif_pos h, dif_pos hkey]
  | case2 a m h hkey ih =>
    have hle := child_le key a h
    rw [siftDown, dif_pos h, dif_neg hkey, ih hle, get_swap, if_neg (hm.trans_lt hj).ne',
      if_neg (hle.trans_lt hj).ne']
  | case3 a m h => rw [siftDown, dif_neg h]

theorem exists_get_siftDown {m top j : Fin n} (hm : m ≤ top) (hj : j ≤ top) :
    ∃ k ≤ top, (siftDown key a m top).get j = a.get k := by
  induction a, m using siftDown.induct key top with
  | case1 a m h hkey => exact ⟨j, hj, by rw [siftDown, dif_pos h, dif_pos hkey]⟩
  | case2 a m h hkey ih =>
    have hle := child_le key a h
    obtain ⟨k, hk, heq⟩ := ih hle
    rw [siftDown, dif_pos h, dif_neg hkey, heq, get_swap]
    split_ifs
    · exact ⟨_, hle, rfl⟩
    · exact ⟨_, hm, rfl⟩
    · exact ⟨_, hk, rfl⟩
  | case3 a m h => exact ⟨j, hj, by rw [siftDown, dif_neg h]⟩

/-! ## Sorted -/

/-- Behind `top` everything is in order, and nothing in front is above it. -/
def SortedFrom (key : α → ℕ) (a : Vector α n) (top : ℕ) : Prop :=
  ∀ i j : Fin n, i < j → top < j.val → key (a.get i) ≤ key (a.get j)

theorem sortedFrom_step {top : ℕ} (h : top + 1 < n) (hh : Heap key a 0 (top + 1))
    (hs : SortedFrom key a (top + 1)) :
    Heap key (siftDown key (a.swap 0 (top + 1)) ⟨0, by omega⟩ ⟨top, by omega⟩) 0 top ∧
      SortedFrom key (siftDown key (a.swap 0 (top + 1)) ⟨0, by omega⟩ ⟨top, by omega⟩) top := by
  let z : Fin n := ⟨0, by omega⟩
  let t : Fin n := ⟨top + 1, h⟩
  have hget : ∀ k : Fin n, (a.swap 0 (top + 1)).get k =
      if k = z then a.get t else if k = t then a.get z else a.get k := get_swap z t
  have hfirst : ∀ c : Fin n, c ≤ t → key (a.get c) ≤ key (a.get z) := fun c hc => hh.le_first c z rfl hc
  constructor
  · refine heap_siftDown le_rfl ⟨?_, fun _ _ _ _ hpos _ _ => absurd hpos (lt_irrefl 0)⟩
    intro p c hp hpos hc _ hpz
    have hct : c.val ≤ top := hc
    rw [hget, hget, if_neg hpz, if_neg (fun he : c = z => by subst he; exact lt_irrefl 0 hpos),
      if_neg (fun he : c = t => by subst he; exact absurd hct (by simp [t])),
      if_neg (fun he : p = t => by subst he; simp only [t] at hp; omega)]
    exact hh p c hp hpos (by omega) (Nat.zero_le _)
  · have hswap : ∀ k j : Fin n, k < j → top < j.val →
        key ((a.swap 0 (top + 1)).get k) ≤ key ((a.swap 0 (top + 1)).get j) := by
      intro k j hkj hj
      have hjz : j ≠ z := fun he => by subst he; exact absurd hj (Nat.not_lt_zero _)
      rw [Fin.lt_def] at hkj
      rw [hget j, if_neg hjz, hget k]
      rcases eq_or_ne j t with hjt | hjt
      · subst hjt
        rw [if_pos rfl, if_neg (fun he : k = t => by subst he; exact lt_irrefl _ hkj)]
        split_ifs
        · exact hfirst t le_rfl
        · exact hfirst k (Fin.le_def.mpr hkj.le)
      · have hlt : top + 1 < j.val := by
          have : j.val ≠ top + 1 := fun he => hjt (Fin.ext he)
          omega
        rw [if_neg hjt]
        split_ifs
        · exact hs t j hlt hlt
        · exact hs z j (by rw [Fin.lt_def]; exact Nat.zero_lt_of_lt hj) hlt
        · exact hs k j hkj hlt
    intro i j hij hj
    rw [get_siftDown_of_lt (j := j) (Fin.le_def.mpr (Nat.zero_le _)) hj]
    rcases Nat.lt_or_ge top i with hi | hi
    · rw [get_siftDown_of_lt (j := i) (Fin.le_def.mpr (Nat.zero_le _)) hi]
      exact hswap i j hij hj
    · obtain ⟨k, hk, heq⟩ : ∃ k ≤ (⟨top, by omega⟩ : Fin n),
          (siftDown key (a.swap 0 (top + 1)) ⟨0, by omega⟩ ⟨top, by omega⟩).get i = (a.swap 0 (top + 1)).get k :=
        exists_get_siftDown (Fin.le_def.mpr (Nat.zero_le _)) (Fin.le_def.mpr hi)
      rw [heq]
      exact hswap k j (Fin.lt_def.mpr (lt_of_le_of_lt (Fin.le_def.mp hk) hj)) hj

theorem sorted_drain (top : ℕ) (h : top < n) (hh : Heap key a 0 top) (hs : SortedFrom key a top) :
    SortedFrom key (drain key a top h) 0 := by
  induction top generalizing a with
  | zero => exact hs
  | succ top ih =>
    obtain ⟨hheap, hsorted⟩ := sortedFrom_step h hh hs
    exact ih (by omega) hheap hsorted

theorem heapSort_sorted (a : Vector α n) (i j : Fin n) (hij : i < j) :
    key ((heapSort key a).get i) ≤ key ((heapSort key a).get j) := by
  have hn : n ≠ 0 := fun h => by subst h; exact i.elim0
  have hpos : 0 < j.val := Nat.zero_lt_of_lt (Fin.lt_def.mp hij)
  have hstart : Heap key a ((n - 1) / 2 + 1) (n - 1) := fun p c hp _ hc hb => by omega
  unfold heapSort
  rw [dif_neg hn]
  refine sorted_drain (n - 1) (by omega) ?_ ?_ i j hij hpos
  · exact heap_heapify ⟨n - 1, by omega⟩ _ _ hstart
  · intro i j _ hj
    omega

/-- The list comes out in order. -/
theorem sort_pairwise (l : List α) : (sort key l).Pairwise fun x y => key x ≤ key y := by
  rw [List.pairwise_iff_getElem]
  intro i j hi hj hij
  have hlen : (sort key l).length = l.length := Vector.length_toList
  exact heapSort_sorted (⟨l.toArray, rfl⟩ : Vector α l.length) ⟨i, hlen ▸ hi⟩ ⟨j, hlen ▸ hj⟩ hij

end HeapSort
