import Mathlib

/-!
# Reading a list page by page

`page size i l` is the `i`-th page of `l`; the pages before it are `l.take (size * i)`. A server
finds the page by numbering the elements in a machine integer (`windowStep`), and writes it to a
buffer that it has reserved before (`putStep`).

* `take_append_page`: what is read after one more page;
* **`foldlM_windowStep`**: the numbering loop visits exactly the window, unless a number overflows;
* **`foldlM_putStep`**: as many elements as were reserved fill the buffer.
-/

namespace Paging

variable {α β γ : Type*}

/-! ## Pages -/

/-- The `i`-th page. -/
def page (size i : ℕ) (l : List α) : List α := (l.drop (size * i)).take size

theorem length_page (size i : ℕ) (l : List α) :
    (page size i l).length = min size (l.length - size * i) := by
  rw [page, List.length_take, List.length_drop]

theorem take_append_page (size i : ℕ) (l : List α) :
    l.take (size * i) ++ page size i l = l.take (size * (i + 1)) := by
  rw [page, Nat.mul_succ, List.take_add]

theorem mem_of_mem_page {size i : ℕ} {l : List α} {a : α} (h : a ∈ page size i l) : a ∈ l :=
  List.mem_of_mem_drop (List.mem_of_mem_take h)

/-! ## The window of a numbering loop -/

/-- The elements whose number, counted on from `tmp`, is in `(lo, hi]`. -/
def window (lo hi : ℤ) : ℤ → List α → List α
  | _, [] => []
  | tmp, a :: l =>
    if lo < tmp + 1 ∧ tmp + 1 ≤ hi then a :: window lo hi (tmp + 1) l else window lo hi (tmp + 1) l

theorem window_inside {lo size t : ℕ} (l : List α) (ht : lo ≤ t) :
    window (lo : ℤ) ((lo : ℤ) + size) t l = l.take (lo + size - t) := by
  induction l generalizing t with
  | nil => simp [window]
  | cons a l ih =>
    have h := ih (t := t + 1) (by omega)
    rw [Nat.cast_succ] at h
    rw [window, h]
    split_ifs with hw
    · rw [show lo + size - t = lo + size - (t + 1) + 1 by omega, List.take_succ_cons]
    · rw [show lo + size - t = 0 by omega, show lo + size - (t + 1) = 0 by omega]
      rfl

theorem window_before {lo size t : ℕ} (l : List α) (ht : t ≤ lo) :
    window (lo : ℤ) ((lo : ℤ) + size) t l = (l.drop (lo - t)).take size := by
  induction l generalizing t with
  | nil => simp [window]
  | cons a l ih =>
    rcases ht.eq_or_lt with rfl | hlt
    · rw [window_inside _ le_rfl, Nat.sub_self, List.drop_zero, Nat.add_sub_cancel_left]
    · have h := ih (t := t + 1) (by omega)
      rw [Nat.cast_succ] at h
      rw [window, if_neg (by omega), h, show lo - t = lo - (t + 1) + 1 by omega,
        List.drop_succ_cons]

theorem window_eq_page (size i : ℕ) (l : List α) :
    window ((size * i : ℕ) : ℤ) ((size * i : ℕ) + size) 0 l = page size i l :=
  window_before l (Nat.zero_le _)

theorem length_window {lo hi : ℤ} (h : lo ≤ hi) (tmp : ℤ) (l : List α) :
    ((window lo hi tmp l).length : ℤ) =
      max 0 (min (tmp + l.length) hi - max tmp lo) := by
  induction l generalizing tmp with
  | nil =>
    simp only [window, List.length_nil]
    omega
  | cons a l ih =>
    have hrec := ih (tmp + 1)
    rw [window]
    split_ifs with hw
    · rw [List.length_cons, List.length_cons]
      push_cast at hrec ⊢
      omega
    · rw [List.length_cons]
      push_cast at hrec ⊢
      omega

/-- One round of a loop that numbers the elements in an integer below `bound` and does `f` with
those in the window; the end of the window is computed only for a number past its start. -/
def windowStep (bound lo size : ℤ) (f : β → α → Option β) (st : ℤ × β) (a : α) :
    Option (ℤ × β) :=
  if bound ≤ st.1 + 1 ∨ (lo < st.1 + 1 ∧ bound ≤ lo + size) then none
  else if lo < st.1 + 1 ∧ st.1 + 1 ≤ lo + size then (f st.2 a).map fun b => (st.1 + 1, b)
  else some (st.1 + 1, st.2)

/-- **The loop visits the window**, unless a number overflows. -/
theorem foldlM_windowStep {bound lo size : ℤ} {f : β → α → Option β} (l : List α) {tmp : ℤ}
    (htmp : tmp < bound) (b : β) :
    l.foldlM (windowStep bound lo size f) (tmp, b) =
      if tmp + l.length < bound ∧ (l ≠ [] → lo < tmp + l.length → lo + size < bound) then
        ((window lo (lo + size) tmp l).foldlM f b).map fun b' => (tmp + l.length, b')
      else none := by
  induction l generalizing tmp b with
  | nil =>
    rw [if_pos ⟨by simpa using htmp, fun h => absurd rfl h⟩]
    simp [window]
  | cons a l ih =>
    rw [List.foldlM_cons, windowStep, window]
    by_cases hover : bound ≤ tmp + 1 ∨ (lo < tmp + 1 ∧ bound ≤ lo + size)
    · rw [if_pos hover, if_neg]
      · rfl
      · rintro ⟨h1, h2⟩
        rw [List.length_cons] at h1 h2
        push_cast at h1 h2
        have := h2 (List.cons_ne_nil a l)
        omega
    · have hlen : tmp + 1 + (l.length : ℤ) = tmp + ((a :: l).length : ℤ) := by
        rw [List.length_cons]
        push_cast
        ring
      have hcond : (tmp + 1 + (l.length : ℤ) < bound ∧
          (l ≠ [] → lo < tmp + 1 + (l.length : ℤ) → lo + size < bound)) ↔
          (tmp + ((a :: l).length : ℤ) < bound ∧
            (a :: l ≠ [] → lo < tmp + ((a :: l).length : ℤ) → lo + size < bound)) := by
        rw [hlen]
        refine and_congr_right fun _ => ⟨fun h _ hlo => ?_, fun h _ => h (List.cons_ne_nil a l)⟩
        rcases eq_or_ne l [] with rfl | hne
        · rw [List.length_singleton] at hlo
          push_cast at hlo
          omega
        · exact h hne hlo
      rw [if_neg hover]
      split_ifs with hw hc hc
      · rw [List.foldlM_cons]
        cases f b a with
        | none => rfl
        | some b' =>
          simp only [Option.map_some, Option.bind_eq_bind, Option.bind_some]
          rw [ih (by omega), if_pos (hcond.mpr hc), hlen]
      · cases f b a with
        | none => rfl
        | some b' =>
          simp only [Option.map_some, Option.bind_eq_bind, Option.bind_some]
          rw [ih (by omega), if_neg fun h => hc (hcond.mp h)]
      · simp only [Option.bind_eq_bind, Option.bind_some]
        rw [ih (by omega), if_pos (hcond.mpr hc), hlen]
      · simp only [Option.bind_eq_bind, Option.bind_some]
        rw [ih (by omega), if_neg fun h => hc (hcond.mp h)]

theorem foldlM_count (l : List α) (n : ℕ) :
    l.foldlM (fun n _ => some (n + 1)) n = some (n + l.length) := by
  induction l generalizing n with
  | nil => rfl
  | cons a l ih =>
    rw [List.foldlM_cons, Option.bind_eq_bind, Option.bind_some, ih, List.length_cons,
      Nat.add_right_comm, Nat.add_assoc]

theorem foldlM_flatMap (g : α → List β) (f : γ → β → Option γ) (l : List α) (c : γ) :
    (l.flatMap g).foldlM f c = l.foldlM (fun c a => (g a).foldlM f c) c := by
  induction l generalizing c with
  | nil => rfl
  | cons a l ih =>
    rw [List.flatMap_cons, List.foldlM_append, List.foldlM_cons]
    exact congrArg _ (funext fun c' => ih c')

/-! ## Filling a reserved buffer -/

/-- Write the next element to the buffer, at the position counted so far. -/
def putStep (mk : α → Option γ) (st : List γ × ℕ) (a : α) : Option (List γ × ℕ) :=
  (mk a).bind fun c => if st.2 < st.1.length then some (st.1.set st.2 c, st.2 + 1) else none

/-- **As many elements as were reserved fill the buffer.** -/
theorem foldlM_putStep (mk : α → Option γ) (z : γ) (l : List α) (before : List γ) :
    l.foldlM (putStep mk) (before ++ List.replicate l.length z, before.length) =
      (l.mapM mk).map fun cs => (before ++ cs, before.length + cs.length) := by
  induction l generalizing before with
  | nil => simp
  | cons a l ih =>
    rw [List.foldlM_cons, List.mapM_cons, putStep]
    cases mk a with
    | none => rfl
    | some c =>
      have hset : (before ++ List.replicate (a :: l).length z).set before.length c =
          (before ++ [c]) ++ List.replicate l.length z := by
        rw [List.length_cons, List.replicate_succ, List.set_append_right _ _ le_rfl, Nat.sub_self,
          List.set_cons_zero, List.append_assoc]
        rfl
      have hlt : before.length < (before ++ List.replicate (a :: l).length z).length := by
        simp
      have h := ih (before ++ [c])
      rw [List.length_append, List.length_singleton] at h
      simp only [Option.bind_some, if_pos hlt, hset, Option.bind_eq_bind]
      rw [h]
      cases l.mapM mk with
      | none => rfl
      | some cs => simp [Nat.add_assoc, Nat.add_comm 1]

/-- The writes stay in the buffer exactly if there is room for all. -/
theorem foldlM_putStep_isSome {mk : α → Option γ} {l : List α} {buf : List γ} {k : ℕ}
    (hmk : ∀ a ∈ l, (mk a).isSome) :
    (l.foldlM (putStep mk) (buf, k)).isSome = true ↔ l = [] ∨ k + l.length ≤ buf.length := by
  induction l generalizing buf k with
  | nil => simp
  | cons a l ih =>
    obtain ⟨c, hc⟩ := Option.isSome_iff_exists.mp (hmk a List.mem_cons_self)
    rw [List.foldlM_cons, putStep, hc, Option.bind_some]
    by_cases hlt : k < buf.length
    · rw [if_pos hlt, Option.bind_eq_bind, Option.bind_some,
        ih fun b hb => hmk b (List.mem_cons_of_mem _ hb), List.length_set, List.length_cons]
      cases l with
      | nil => simpa using hlt
      | cons b l =>
        simp only [List.length_cons, reduceCtorEq, false_or]
        omega
    · rw [if_neg hlt]
      simp only [Option.bind_eq_bind, Option.bind_none, Option.isSome_none, Bool.false_eq_true,
        List.length_cons, reduceCtorEq, false_or, false_iff]
      omega

theorem mapM_of_forall {mk : α → Option γ} {f : α → γ} {l : List α}
    (h : ∀ a ∈ l, mk a = some (f a)) : l.mapM mk = some (l.map f) := by
  induction l with
  | nil => rfl
  | cons a l ih =>
    rw [List.mapM_cons, h a List.mem_cons_self, ih fun b hb => h b (List.mem_cons_of_mem _ hb)]
    rfl

theorem mapM_of_exists {mk : α → Option γ} {l : List α} (h : ∃ a ∈ l, mk a = none) :
    l.mapM mk = none := by
  obtain ⟨a, ha, hmk⟩ := h
  induction l with
  | nil => cases ha
  | cons b l ih =>
    rw [List.mapM_cons]
    rcases List.mem_cons.mp ha with rfl | ha
    · rw [hmk]
      rfl
    · rw [ih ha]
      cases mk b <;> rfl

theorem isSome_mapM {mk : α → Option γ} {l : List α} (h : ∀ a ∈ l, (mk a).isSome = true) :
    (l.mapM mk).isSome = true := by
  induction l with
  | nil => rfl
  | cons a l ih =>
    obtain ⟨c, hc⟩ := Option.isSome_iff_exists.mp (h a List.mem_cons_self)
    obtain ⟨cs, hcs⟩ := Option.isSome_iff_exists.mp (ih fun b hb => h b (List.mem_cons_of_mem _ hb))
    rw [List.mapM_cons, hc, hcs]
    rfl

theorem mem_of_mapM {mk : α → Option γ} {l : List α} {cs : List γ} (h : l.mapM mk = some cs)
    (c : γ) : c ∈ cs ↔ ∃ a ∈ l, mk a = some c := by
  induction l generalizing cs with
  | nil =>
    cases h
    simp
  | cons a l ih =>
    rw [List.mapM_cons] at h
    obtain ⟨c', hc', h⟩ := Option.bind_eq_some_iff.mp h
    obtain ⟨cs', hcs', h⟩ := Option.bind_eq_some_iff.mp h
    cases h
    rw [List.mem_cons, ih hcs', List.exists_mem_cons_iff, hc', Option.some_inj, eq_comm]

theorem length_of_mapM {mk : α → Option γ} {l : List α} {cs : List γ} (h : l.mapM mk = some cs) :
    cs.length = l.length := by
  induction l generalizing cs with
  | nil =>
    cases h
    rfl
  | cons a l ih =>
    rw [List.mapM_cons] at h
    obtain ⟨c, -, h⟩ := Option.bind_eq_some_iff.mp h
    obtain ⟨cs', hcs, h⟩ := Option.bind_eq_some_iff.mp h
    cases h
    rw [List.length_cons, List.length_cons, ih hcs]

end Paging
