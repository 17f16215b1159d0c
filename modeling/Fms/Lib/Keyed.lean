import Mathlib

/-!
# Lists searched by key

Linked lists that are searched for the first entry with a given property, changed there, and kept
free of entries with the same key.

* `modifyFirst`: change the first entry with a property, with `modifyFirst_split`;
* `find?_split`: a successful search cuts the list at the entry found;
* `mem_of_split`, `mem_of_replace`: the entries of a list that was cut, and changed where it was cut;
* `eq_of_key`, `key_ne_of_split`: with distinct keys, an entry is determined by its key;
* `exists_getElem?_split`: an entry given by its position, and the list with that position replaced.
-/

namespace Keyed

variable {α κ : Type}

/-- Change the first entry with property `p`. -/
def modifyFirst (p : α → Bool) (f : α → α) : List α → List α
  | [] => []
  | x :: xs => if p x then f x :: xs else x :: modifyFirst p f xs

theorem modifyFirst_split {p : α → Bool} (f : α → α) {l₁ : List α} {a : α} (l₂ : List α)
    (h : ∀ x ∈ l₁, p x = false) (ha : p a = true) :
    modifyFirst p f (l₁ ++ a :: l₂) = l₁ ++ f a :: l₂ := by
  induction l₁ with
  | nil => simp [modifyFirst, ha]
  | cons x l₁ ih =>
    have hx : p x = false := h x List.mem_cons_self
    rw [List.cons_append, modifyFirst, hx, if_neg Bool.false_ne_true,
      ih fun y hy => h y (List.mem_cons_of_mem _ hy), List.cons_append]

theorem modifyFirst_none {p : α → Bool} (f : α → α) {l : List α} (h : ∀ x ∈ l, p x = false) :
    modifyFirst p f l = l := by
  induction l with
  | nil => rfl
  | cons x l ih =>
    rw [modifyFirst, h x List.mem_cons_self, if_neg Bool.false_ne_true,
      ih fun y hy => h y (List.mem_cons_of_mem _ hy)]

theorem find?_split {p : α → Bool} {l : List α} {a : α} (h : l.find? p = some a) :
    p a = true ∧ ∃ l₁ l₂, l = l₁ ++ a :: l₂ ∧ ∀ x ∈ l₁, p x = false := by
  obtain ⟨ha, l₁, l₂, hl, hn⟩ := List.find?_eq_some_iff_append.mp h
  exact ⟨ha, l₁, l₂, hl, fun x hx => by simpa using hn x hx⟩

theorem find?_none {p : α → Bool} {l : List α} (h : l.find? p = none) : ∀ x ∈ l, p x = false :=
  fun x hx => by simpa using List.find?_eq_none.mp h x hx

theorem eraseP_split {p : α → Bool} {l₁ : List α} {a : α} (l₂ : List α)
    (h : ∀ x ∈ l₁, p x = false) (ha : p a = true) : (l₁ ++ a :: l₂).eraseP p = l₁ ++ l₂ := by
  rw [List.eraseP_append_right _ fun x hx => by simp [h x hx], List.eraseP_cons_of_pos ha]

/-! ## Membership -/

theorem mem_of_split {l l₁ l₂ : List α} {a : α} (hs : l = l₁ ++ a :: l₂) : a ∈ l :=
  hs ▸ List.mem_append_right _ List.mem_cons_self

theorem mem_middle {l₁ l₂ : List α} {a x : α} : x ∈ l₁ ++ a :: l₂ ↔ x = a ∨ x ∈ l₁ ++ l₂ := by
  rw [List.perm_middle.mem_iff, List.mem_cons]

theorem mem_of_replace {l l₁ l₂ : List α} {a b x : α} (hs : l = l₁ ++ a :: l₂)
    (hx : x ∈ l₁ ++ b :: l₂) : x = b ∨ x ∈ l := by
  subst hs
  rcases List.mem_append.mp hx with hx | hx
  · exact .inr (List.mem_append_left _ hx)
  · rcases List.mem_cons.mp hx with hx | hx
    · exact .inl hx
    · exact .inr (List.mem_append_right _ (List.mem_cons_of_mem _ hx))

/-! ## Distinct keys -/

theorem eq_of_key {key : α → κ} {l : List α} (hl : (l.map key).Nodup) {a b : α} (ha : a ∈ l)
    (hb : b ∈ l) (h : key a = key b) : a = b :=
  List.inj_on_of_nodup_map hl ha hb h

theorem key_ne_of_split {key : α → κ} {l₁ l₂ : List α} {a : α}
    (hl : ((l₁ ++ a :: l₂).map key).Nodup) : ∀ x ∈ l₁ ++ l₂, key x ≠ key a := by
  have hp : (l₁ ++ a :: l₂).Perm (a :: (l₁ ++ l₂)) := List.perm_middle
  have h := (hp.map key).nodup_iff.mp hl
  rw [List.map_cons, List.nodup_cons] at h
  exact fun x hx he => h.1 (he ▸ List.mem_map_of_mem hx)

/-- Changing an entry without its key keeps the keys distinct. -/
theorem map_replace {key : α → κ} {l₁ l₂ : List α} {a b : α} (h : key b = key a) :
    (l₁ ++ b :: l₂).map key = (l₁ ++ a :: l₂).map key := by
  simp [h]

theorem nodup_remove {key : α → κ} {l₁ l₂ : List α} {a : α}
    (hl : ((l₁ ++ a :: l₂).map key).Nodup) : ((l₁ ++ l₂).map key).Nodup :=
  hl.sublist (List.Sublist.map key (List.Sublist.append_left (List.sublist_cons_self a l₂) l₁))

/-! ## Positions -/

theorem exists_getElem?_split {l : List α} {i : ℕ} {a : α} (h : l[i]? = some a) :
    ∃ l₁ l₂, l = l₁ ++ a :: l₂ ∧ l₁.length = i ∧ ∀ b, l.set i b = l₁ ++ b :: l₂ := by
  obtain ⟨hi, ha⟩ := List.getElem?_eq_some_iff.mp h
  refine ⟨l.take i, l.drop (i + 1), ?_, ?_, fun b => ?_⟩
  · rw [← ha, ← List.drop_eq_getElem_cons hi, List.take_append_drop]
  · rw [List.length_take, Nat.min_eq_left hi.le]
  · exact List.set_eq_take_append_cons_drop.trans (if_pos hi)

end Keyed
