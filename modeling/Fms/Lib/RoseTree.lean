import Mathlib

/-!
# Forests as sets of paths

Finite trees with labels whose siblings are kept in lists. A forest whose siblings have distinct labels
is a trie: it is determined, up to the order of siblings, by the label paths from its roots.

* `HasPath`: the paths from a root to a node;
* `Distinct`: siblings have distinct labels, at every level;
* `Reordered`: two forests that differ in the order of siblings, at every level;
* **`reordered_of_hasPath_iff`**: two distinct forests with the same paths are equal up to that order;
* `Grown`: the paths of one key, and all that lead to them, were added; with a rule for a change of
  one tree (`Grown.replace`) and for a new tree (`Grown.cons`).
-/

/-- A tree with labels. -/
inductive RoseTree (L : Type*) where
  | node (label : L) (children : List (RoseTree L))

namespace RoseTree

variable {L : Type*}

def label : RoseTree L → L
  | node l _ => l

def children : RoseTree L → List (RoseTree L)
  | node _ ts => ts

/-- The labels from a root of the forest down to a node. -/
def HasPath : List (RoseTree L) → List L → Prop
  | _, [] => False
  | F, l :: p => ∃ t ∈ F, t.label = l ∧ (p = [] ∨ HasPath t.children p)

/-- Siblings have distinct labels, at every level. -/
inductive Distinct : List (RoseTree L) → Prop
  | mk {F : List (RoseTree L)} : (F.map label).Nodup → (∀ t ∈ F, Distinct t.children) → Distinct F

/-- The forests differ in the order of siblings, at every level. -/
inductive Reordered : List (RoseTree L) → List (RoseTree L) → Prop
  | nil : Reordered [] []
  | cons {t u : RoseTree L} {F G₁ G₂ : List (RoseTree L)} : t.label = u.label →
      Reordered t.children u.children → Reordered F (G₁ ++ G₂) → Reordered (t :: F) (G₁ ++ u :: G₂)

/-! ## Paths -/

theorem not_hasPath_nil (p : List L) : ¬ HasPath [] p := by
  cases p with
  | nil => exact id
  | cons l p =>
    rintro ⟨t, ht, -⟩
    cases ht

theorem hasPath_append (F G : List (RoseTree L)) (p : List L) :
    HasPath (F ++ G) p ↔ HasPath F p ∨ HasPath G p := by
  cases p with
  | nil => exact (or_self_iff).symm
  | cons l p =>
    constructor
    · rintro ⟨t, ht, hl⟩
      rcases List.mem_append.mp ht with ht | ht
      · exact .inl ⟨t, ht, hl⟩
      · exact .inr ⟨t, ht, hl⟩
    · rintro (⟨t, ht, hl⟩ | ⟨t, ht, hl⟩)
      · exact ⟨t, List.mem_append_left _ ht, hl⟩
      · exact ⟨t, List.mem_append_right _ ht, hl⟩

theorem hasPath_cons (t : RoseTree L) (F : List (RoseTree L)) (p : List L) :
    HasPath (t :: F) p ↔ HasPath [t] p ∨ HasPath F p := hasPath_append [t] F p

theorem hasPath_singleton (t : RoseTree L) (l : L) (p : List L) :
    HasPath [t] (l :: p) ↔ t.label = l ∧ (p = [] ∨ HasPath t.children p) := by
  constructor
  · rintro ⟨u, hu, h⟩
    rwa [List.mem_singleton.mp hu] at h
  · exact fun h => ⟨t, List.mem_singleton_self t, h⟩

theorem hasPath_middle (G₁ G₂ : List (RoseTree L)) (u : RoseTree L) (p : List L) :
    HasPath (G₁ ++ u :: G₂) p ↔ HasPath (u :: (G₁ ++ G₂)) p := by
  rw [hasPath_append, hasPath_cons u G₂, hasPath_cons u (G₁ ++ G₂), hasPath_append]
  exact or_left_comm

theorem hasPath_below {t : RoseTree L} {F : List (RoseTree L)} (h : t.label ∉ F.map label)
    {p : List L} (hp : p ≠ []) : HasPath (t :: F) (t.label :: p) ↔ HasPath t.children p := by
  rw [hasPath_cons, hasPath_singleton, or_iff_left]
  · rw [and_iff_right rfl, or_iff_right hp]
  · rintro ⟨u, hu, hl, -⟩
    exact h (hl ▸ List.mem_map_of_mem hu)

theorem hasPath_other {t : RoseTree L} {F : List (RoseTree L)} (h : t.label ∉ F.map label)
    (p : List L) : HasPath F p ↔ HasPath (t :: F) p ∧ p.head? ≠ some t.label := by
  cases p with
  | nil => exact iff_of_false id fun h' => h'.1
  | cons l p =>
    rw [hasPath_cons, hasPath_singleton, List.head?_cons, Ne, Option.some_inj]
    constructor
    · intro hF
      refine ⟨.inr hF, ?_⟩
      rintro rfl
      obtain ⟨u, hu, hl, -⟩ := hF
      exact h (hl ▸ List.mem_map_of_mem hu)
    · rintro ⟨⟨hl, -⟩ | hF, hne⟩
      · exact absurd hl.symm hne
      · exact hF

/-! ## Distinct siblings -/

theorem Distinct.nodup {F : List (RoseTree L)} (h : Distinct F) : (F.map label).Nodup := by
  cases h
  assumption

theorem Distinct.children {F : List (RoseTree L)} (h : Distinct F) :
    ∀ t ∈ F, Distinct t.children := by
  cases h
  assumption

theorem distinct_nil : Distinct ([] : List (RoseTree L)) :=
  .mk List.nodup_nil fun _ ht => absurd ht List.not_mem_nil

theorem distinct_cons {t : RoseTree L} {F : List (RoseTree L)} :
    Distinct (t :: F) ↔ t.label ∉ F.map label ∧ Distinct t.children ∧ Distinct F := by
  constructor
  · intro h
    have hn := h.nodup
    rw [List.map_cons, List.nodup_cons] at hn
    exact ⟨hn.1, h.children t List.mem_cons_self,
      .mk hn.2 fun u hu => h.children u (List.mem_cons_of_mem _ hu)⟩
  · rintro ⟨hl, ht, hF⟩
    refine .mk (List.nodup_cons.mpr ⟨hl, hF.nodup⟩) fun u hu => ?_
    rcases List.mem_cons.mp hu with rfl | hu
    · exact ht
    · exact hF.children u hu

theorem Distinct.append {F G : List (RoseTree L)} (hF : Distinct F) (hG : Distinct G)
    (h : ∀ t ∈ F, ∀ u ∈ G, t.label ≠ u.label) : Distinct (F ++ G) := by
  induction F with
  | nil => exact hG
  | cons t F ih =>
    obtain ⟨hl, ht, hF⟩ := distinct_cons.mp hF
    refine distinct_cons.mpr ⟨?_, ht, ih hF fun t' ht' => h t' (List.mem_cons_of_mem _ ht')⟩
    change t.label ∉ (F ++ G).map label
    rw [List.map_append, List.mem_append, not_or]
    refine ⟨hl, fun hmem => ?_⟩
    obtain ⟨u, hu, hlu⟩ := List.mem_map.mp hmem
    exact h t List.mem_cons_self u hu hlu.symm

theorem distinct_middle {G₁ G₂ : List (RoseTree L)} {u : RoseTree L} :
    Distinct (G₁ ++ u :: G₂) ↔ Distinct (u :: (G₁ ++ G₂)) := by
  have hperm : (G₁ ++ u :: G₂).Perm (u :: (G₁ ++ G₂)) := List.perm_middle
  constructor
  · intro h
    exact .mk ((hperm.map label).nodup_iff.mp h.nodup) fun t ht => h.children t (hperm.mem_iff.mpr ht)
  · intro h
    exact .mk ((hperm.map label).nodup_iff.mpr h.nodup) fun t ht => h.children t (hperm.mem_iff.mp ht)

/-! ## Forests with the same paths -/

theorem eq_nil_of_forall_not_hasPath {F : List (RoseTree L)} (h : ∀ p, ¬ HasPath F p) : F = [] := by
  cases F with
  | nil => rfl
  | cons t F => exact absurd ⟨t, List.mem_cons_self, rfl, .inl rfl⟩ (h [t.label])

/-- **A forest with distinct siblings is determined by its paths**, up to the order of siblings. -/
theorem reordered_of_hasPath_iff {F G : List (RoseTree L)} (hF : Distinct F) (hG : Distinct G)
    (h : ∀ p, HasPath F p ↔ HasPath G p) : Reordered F G := by
  induction hn : sizeOf F using Nat.strong_induction_on generalizing F G with
  | _ n ih =>
    cases F with
    | nil =>
      rw [eq_nil_of_forall_not_hasPath fun p hp => not_hasPath_nil p ((h p).mpr hp)]
      exact .nil
    | cons t F =>
      have hsize : sizeOf t.children < n ∧ sizeOf F < n := by
        cases t
        simp only [List.cons.sizeOf_spec, node.sizeOf_spec] at hn
        simp only [children]
        omega
      -- the tree with the same label, wherever it stands
      obtain ⟨u, hu, hlu, -⟩ := (h [t.label]).mp ⟨t, List.mem_cons_self, rfl, .inl rfl⟩
      obtain ⟨G₁, G₂, rfl⟩ := List.append_of_mem hu
      obtain ⟨hlF, hts, hF⟩ := distinct_cons.mp hF
      obtain ⟨hlG, hus, hG⟩ := distinct_cons.mp (distinct_middle.mp hG)
      have hiff (p : List L) : HasPath (t :: F) p ↔ HasPath (u :: (G₁ ++ G₂)) p :=
        (h p).trans (hasPath_middle G₁ G₂ u p)
      refine .cons hlu.symm (ih _ hsize.1 hts hus (fun p => ?_) rfl)
        (ih _ hsize.2 hF hG (fun p => ?_) rfl)
      · rcases eq_or_ne p [] with rfl | hp
        · exact Iff.rfl
        · rw [← hasPath_below hlF hp, hiff, ← hasPath_below hlG hp, hlu]
      · rw [hasPath_other hlF, hiff, hasPath_other hlG, hlu]

/-! ## Growth by a key -/

/-- The non-empty prefixes of `key` were added to the paths. -/
def Grown (F F' : List (RoseTree L)) (key : List L) : Prop :=
  ∀ p, HasPath F' p ↔ HasPath F p ∨ p ≠ [] ∧ p <+: key

theorem Grown.refl (F : List (RoseTree L)) : Grown F F [] := by
  intro p
  rw [List.prefix_nil]
  exact (or_iff_left fun h => h.1 h.2).symm

theorem Grown.append_right {F F' : List (RoseTree L)} {key : List L} (h : Grown F F' key)
    (G : List (RoseTree L)) : Grown (F ++ G) (F' ++ G) key := by
  intro p
  rw [hasPath_append, hasPath_append, h p]
  exact or_right_comm

theorem Grown.append_left {F F' : List (RoseTree L)} {key : List L} (h : Grown F F' key)
    (G : List (RoseTree L)) : Grown (G ++ F) (G ++ F') key := by
  intro p
  rw [hasPath_append, hasPath_append, h p, or_assoc]

theorem Grown.cons {t : RoseTree L} {key : List L} (h : Grown [] t.children key)
    (F : List (RoseTree L)) : Grown F (t :: F) (t.label :: key) := by
  intro p
  rw [hasPath_cons, or_comm]
  refine or_congr_right ?_
  cases p with
  | nil => exact iff_of_false id fun h => h.1 rfl
  | cons l p =>
    rw [hasPath_singleton, h p, or_iff_right (not_hasPath_nil p), List.cons_prefix_cons,
      and_iff_right (List.cons_ne_nil l p), eq_comm]
    refine and_congr_right fun _ => ?_
    rcases eq_or_ne p [] with rfl | hp
    · exact iff_of_true (.inl rfl) List.nil_prefix
    · rw [or_iff_right hp, and_iff_right hp]

theorem Grown.replace {t t' : RoseTree L} {key : List L} (hl : t'.label = t.label)
    (h : Grown t.children t'.children key) (F₁ F₂ : List (RoseTree L)) :
    Grown (F₁ ++ t :: F₂) (F₁ ++ t' :: F₂) (t.label :: key) := by
  have hone : Grown [t] [t'] (t.label :: key) := by
    intro p
    cases p with
    | nil => exact iff_of_false id fun h => h.elim id fun h => h.1 rfl
    | cons l p =>
      rw [hasPath_singleton, hasPath_singleton, h p, hl, List.cons_prefix_cons,
        and_iff_right (List.cons_ne_nil l p), eq_comm (a := l), ← and_or_left]
      refine and_congr_right fun _ => ?_
      rcases eq_or_ne p [] with rfl | hp
      · exact iff_of_true (.inl rfl) (.inl (.inl rfl))
      · rw [and_iff_right hp, or_assoc]
  exact (hone.append_right F₂).append_left F₁

end RoseTree
