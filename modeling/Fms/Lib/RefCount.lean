import Mathlib

/-!
# Reference counting

Objects with a counter, and references to them. An object may be destroyed while its counter is not
positive; a reference is given up by decrementing the counter, or leaks: it is dropped and the
counter stays.

* `Sound`: every reference is to an object, and no counter is below the number of references;
* `Exact`: every counter is the number of references;
* `sound_steps`: soundness is kept by every operation, leaks included;
* **`exact_steps`**: the counters are exact exactly as long as nothing leaks: a leak is never repaired.
-/

namespace RefCount

variable {κ : Type}

/-- The objects with their counters, and the references. -/
structure State (κ : Type) where
  objs : List (κ × ℤ)
  held : Multiset κ

/-- The operations. -/
inductive Op (κ : Type) where
  | create (k : κ)
  | acquire (k : κ)
  | release (k : κ)
  | destroy (k : κ)
  | leak (k : κ)

def Op.isLeak : Op κ → Prop
  | .leak _ => True
  | _ => False

/-- One operation. -/
inductive Step : State κ → Op κ → State κ → Prop
  | create {objs : List (κ × ℤ)} {held : Multiset κ} {k : κ} (fresh : k ∉ objs.map Prod.fst) :
      Step ⟨objs, held⟩ (.create k) ⟨(k, 0) :: objs, held⟩
  | acquire {l₁ l₂ : List (κ × ℤ)} {held : Multiset κ} {k : κ} {n : ℤ} :
      Step ⟨l₁ ++ (k, n) :: l₂, held⟩ (.acquire k) ⟨l₁ ++ (k, n + 1) :: l₂, k ::ₘ held⟩
  | release {l₁ l₂ : List (κ × ℤ)} {held : Multiset κ} {k : κ} {n : ℤ} :
      Step ⟨l₁ ++ (k, n) :: l₂, k ::ₘ held⟩ (.release k) ⟨l₁ ++ (k, n - 1) :: l₂, held⟩
  | destroy {l₁ l₂ : List (κ × ℤ)} {held : Multiset κ} {k : κ} {n : ℤ} (idle : n ≤ 0) :
      Step ⟨l₁ ++ (k, n) :: l₂, held⟩ (.destroy k) ⟨l₁ ++ l₂, held⟩
  | leak {objs : List (κ × ℤ)} {held : Multiset κ} {k : κ} :
      Step ⟨objs, k ::ₘ held⟩ (.leak k) ⟨objs, held⟩

/-- A sequence of operations. -/
inductive Steps : State κ → List (Op κ) → State κ → Prop
  | nil {s : State κ} : Steps s [] s
  | cons {s t u : State κ} {op : Op κ} {ops : List (Op κ)} (head : Step s op t)
      (tail : Steps t ops u) : Steps s (op :: ops) u

theorem Steps.single {s t : State κ} {op : Op κ} (h : Step s op t) : Steps s [op] t := .cons h .nil

theorem steps_leak (objs : List (κ × ℤ)) (ks : List κ) (held : Multiset κ) :
    Steps ⟨objs, ↑ks + held⟩ (ks.map .leak) ⟨objs, held⟩ := by
  induction ks with
  | nil => exact (zero_add held).symm ▸ .nil
  | cons k ks ih =>
    have hs : ((k :: ks : List κ) : Multiset κ) + held = k ::ₘ (↑ks + held) := by
      rw [← Multiset.cons_coe, Multiset.cons_add]
    rw [hs]
    exact .cons .leak ih

theorem forall_leak {ks : List κ} : (∀ op ∈ ks.map Op.leak, ¬ op.isLeak) ↔ ks = [] := by
  cases ks <;> simp [Op.isLeak]

variable [DecidableEq κ]

/-- No counter is too low. -/
structure Sound (s : State κ) : Prop where
  nodup : (s.objs.map Prod.fst).Nodup
  held_mem : ∀ k ∈ s.held, k ∈ s.objs.map Prod.fst
  le : ∀ k n, (k, n) ∈ s.objs → (s.held.count k : ℤ) ≤ n

/-- Every counter is right. -/
def Exact (s : State κ) : Prop := ∀ k n, (k, n) ∈ s.objs → n = s.held.count k

/-! ## Objects -/

omit [DecidableEq κ] in
theorem mem_split {l₁ l₂ : List (κ × ℤ)} {k k' : κ} {n n' : ℤ} :
    (k', n') ∈ l₁ ++ (k, n) :: l₂ ↔ (k' = k ∧ n' = n) ∨ (k', n') ∈ l₁ ++ l₂ := by
  simp only [List.mem_append, List.mem_cons, Prod.mk.injEq]
  tauto

omit [DecidableEq κ] in
theorem ne_of_mem_split {l₁ l₂ : List (κ × ℤ)} {k k' : κ} {n n' : ℤ}
    (h : ((l₁ ++ (k, n) :: l₂).map Prod.fst).Nodup) (hm : (k', n') ∈ l₁ ++ l₂) : k' ≠ k := by
  have hp : ((k, n) :: (l₁ ++ l₂)).Perm (l₁ ++ (k, n) :: l₂) := List.perm_middle.symm
  have hn := ((hp.map Prod.fst).nodup_iff).mpr h
  rw [List.map_cons, List.nodup_cons] at hn
  rintro rfl
  exact hn.1 (List.mem_map.mpr ⟨(k', n'), hm, rfl⟩)

omit [DecidableEq κ] in
theorem map_fst_split (l₁ l₂ : List (κ × ℤ)) (k : κ) (n m : ℤ) :
    (l₁ ++ (k, n) :: l₂).map Prod.fst = (l₁ ++ (k, m) :: l₂).map Prod.fst := by simp

omit [DecidableEq κ] in
theorem mem_fst_split {l₁ l₂ : List (κ × ℤ)} {k k' : κ} {n : ℤ} :
    k' ∈ (l₁ ++ (k, n) :: l₂).map Prod.fst ↔ k' = k ∨ k' ∈ (l₁ ++ l₂).map Prod.fst := by
  simp only [List.map_append, List.map_cons, List.mem_append, List.mem_cons]
  tauto

/-! ## Soundness -/

theorem sound_cons_iff {l₁ l₂ : List (κ × ℤ)} {held : Multiset κ} {k : κ} (n : ℤ) :
    Sound ⟨l₁ ++ (k, n + 1) :: l₂, k ::ₘ held⟩ ↔ Sound ⟨l₁ ++ (k, n) :: l₂, held⟩ := by
  refine ⟨fun hs => ?_, fun hs => ?_⟩
  · refine ⟨map_fst_split l₁ l₂ k (n + 1) n ▸ hs.nodup, ?_, ?_⟩
    · intro x hx
      rw [mem_fst_split]
      exact mem_fst_split.mp (hs.held_mem x (Multiset.mem_cons_of_mem hx))
    · intro x m hx
      rcases mem_split.mp hx with ⟨rfl, rfl⟩ | hx
      · have hle := hs.le x (m + 1) (mem_split.mpr (.inl ⟨rfl, rfl⟩))
        rw [Multiset.count_cons_self] at hle
        push_cast at hle
        exact add_le_add_iff_right 1 |>.mp hle
      · have hle := hs.le x m (mem_split.mpr (.inr hx))
        rwa [Multiset.count_cons_of_ne (ne_of_mem_split hs.nodup hx)] at hle
  · refine ⟨map_fst_split l₁ l₂ k n (n + 1) ▸ hs.nodup, ?_, ?_⟩
    · intro x hx
      rw [mem_fst_split]
      rcases Multiset.mem_cons.mp hx with rfl | hx
      · exact .inl rfl
      · exact mem_fst_split.mp (hs.held_mem x hx)
    · intro x m hx
      rcases mem_split.mp hx with ⟨rfl, rfl⟩ | hx
      · have hle := hs.le x n (mem_split.mpr (.inl ⟨rfl, rfl⟩))
        rw [Multiset.count_cons_self]
        push_cast
        exact add_le_add_left hle 1
      · have hle := hs.le x m (mem_split.mpr (.inr hx))
        rwa [Multiset.count_cons_of_ne (ne_of_mem_split hs.nodup hx)]

theorem sound_step {s t : State κ} {op : Op κ} (hs : Sound s) (h : Step s op t) : Sound t := by
  cases h with
  | create fresh =>
    rename_i objs held k
    refine ⟨?_, ?_, ?_⟩
    · rw [List.map_cons, List.nodup_cons]
      exact ⟨fresh, hs.nodup⟩
    · exact fun x hx => List.mem_cons_of_mem _ (hs.held_mem x hx)
    · intro x n hx
      rcases List.mem_cons.mp hx with he | hx
      · cases he
        have h0 : held.count k = 0 := Multiset.count_eq_zero.mpr fun hm => fresh (hs.held_mem k hm)
        exact_mod_cast h0.le
      · exact hs.le x n hx
  | acquire => exact (sound_cons_iff _).mpr hs
  | @release l₁ l₂ held k n => exact (sound_cons_iff (n - 1)).mp ((sub_add_cancel n 1).symm ▸ hs)
  | destroy idle =>
    rename_i l₁ l₂ held k n
    have hk : k ∉ held := fun hm => by
      have hle : (held.count k : ℤ) ≤ n := hs.le k n (mem_split.mpr (.inl ⟨rfl, rfl⟩))
      have hpos := Multiset.count_pos.mpr hm
      omega
    refine ⟨?_, ?_, ?_⟩
    · refine hs.nodup.sublist (List.Sublist.map _ ?_)
      exact List.Sublist.append_left (List.sublist_cons_self _ l₂) l₁
    · intro x hx
      rcases mem_fst_split.mp (hs.held_mem x hx) with rfl | hm
      · exact absurd hx hk
      · exact hm
    · exact fun x m hx => hs.le x m (mem_split.mpr (.inr hx))
  | leak =>
    rename_i objs held k
    refine ⟨hs.nodup, fun x hx => hs.held_mem x (Multiset.mem_cons_of_mem hx), ?_⟩
    intro x n hx
    have hle : ((k ::ₘ held).count x : ℤ) ≤ n := hs.le x n hx
    have hc := Multiset.count_le_of_le x (Multiset.le_cons_self held k)
    exact (Int.ofNat_le.mpr hc).trans hle

theorem sound_steps {s t : State κ} {ops : List (Op κ)} (hs : Sound s) (h : Steps s ops t) :
    Sound t := by
  induction h with
  | nil => exact hs
  | cons head _ ih => exact ih (sound_step hs head)

/-! ## Exactness -/

theorem exact_cons_iff {l₁ l₂ : List (κ × ℤ)} {held : Multiset κ} {k : κ} (n : ℤ)
    (hnd : ((l₁ ++ (k, n) :: l₂).map Prod.fst).Nodup) :
    Exact ⟨l₁ ++ (k, n + 1) :: l₂, k ::ₘ held⟩ ↔ Exact ⟨l₁ ++ (k, n) :: l₂, held⟩ := by
  simp only [Exact, mem_split]
  refine ⟨?_, ?_⟩
  · rintro he k' m (⟨rfl, rfl⟩ | hm)
    · have := he k' (m + 1) (.inl ⟨rfl, rfl⟩)
      rw [Multiset.count_cons_self] at this
      push_cast at this
      exact add_right_cancel this
    · have := he k' m (.inr hm)
      rwa [Multiset.count_cons_of_ne (ne_of_mem_split hnd hm)] at this
  · rintro he k' m (⟨rfl, rfl⟩ | hm)
    · rw [Multiset.count_cons_self, he k' n (.inl ⟨rfl, rfl⟩)]
      push_cast
      rfl
    · rw [Multiset.count_cons_of_ne (ne_of_mem_split hnd hm)]
      exact he k' m (.inr hm)

/-- An operation keeps the counters right if it is no leak, and none makes them right again. -/
theorem exact_step {s t : State κ} {op : Op κ} (hs : Sound s) (h : Step s op t) :
    Exact t ↔ Exact s ∧ ¬ op.isLeak := by
  cases h with
  | create fresh =>
    rename_i objs held k
    have h0 : held.count k = 0 := Multiset.count_eq_zero.mpr fun hm => fresh (hs.held_mem k hm)
    simp only [Exact, List.mem_cons, Prod.mk.injEq, Op.isLeak, not_false_eq_true, and_true]
    refine ⟨fun he k' n hm => he k' n (.inr hm), ?_⟩
    rintro he k' n (⟨rfl, rfl⟩ | hm)
    · rw [h0, Nat.cast_zero]
    · exact he k' n hm
  | acquire =>
    simp only [exact_cons_iff _ hs.nodup, Op.isLeak, not_false_eq_true, and_true]
  | @release l₁ l₂ held k n =>
    rw [← exact_cons_iff (n - 1) (map_fst_split l₁ l₂ k n (n - 1) ▸ hs.nodup), sub_add_cancel]
    simp only [Op.isLeak, not_false_eq_true, and_true]
  | destroy idle =>
    rename_i l₁ l₂ held k n
    simp only [Exact, mem_split, Op.isLeak, not_false_eq_true, and_true]
    refine ⟨?_, fun he k' m hm => he k' m (.inr hm)⟩
    rintro he k' m (⟨rfl, rfl⟩ | hm)
    · -- an object that may be destroyed has no references
      have hle := hs.le k' m (mem_split.mpr (.inl ⟨rfl, rfl⟩))
      exact le_antisymm (idle.trans (Int.natCast_nonneg _)) hle
    · exact he k' m hm
  | leak =>
    rename_i objs held k
    simp only [Op.isLeak, not_true_eq_false, and_false, iff_false]
    intro he
    obtain ⟨⟨k', n⟩, hm, rfl⟩ := List.mem_map.mp (hs.held_mem k (Multiset.mem_cons_self k held))
    have hle := hs.le k' n hm
    have heq := he k' n hm
    rw [Multiset.count_cons_self] at hle
    push_cast at hle
    change n = (held.count k' : ℤ) at heq
    omega

/-- **The counters stay exact exactly as long as nothing leaks.** -/
theorem exact_steps {s t : State κ} {ops : List (Op κ)} (hs : Sound s) (h : Steps s ops t) :
    Exact t ↔ Exact s ∧ ∀ op ∈ ops, ¬ op.isLeak := by
  induction h with
  | nil => simp
  | cons head _ ih =>
    rw [ih (sound_step hs head), exact_step hs head, List.forall_mem_cons, and_assoc]

end RefCount
