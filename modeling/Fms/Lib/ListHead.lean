import Mathlib

/-!
# Rings of linked nodes

An intrusive doubly linked list is a ring through its head: the head is a node like the entries, and
`list_empty(node)` compares `node->next` with `node` without knowing whether `node` is the head. The
ring of the entries `l` is given by the successor function `next l`.

* **`listEmpty_entry`**: on a linked entry `list_empty` is false, whatever the list holds;
* `Links`: the pointers themselves, and `Links.listAdd`, the four assignments of `list_add`;
* **`IsRing.listAdd`**: a node that is not in the ring gets in front;
* **`Broken.of_listAdd_first`**: the first node of a ring, added again, points to itself, and the ring
  does not close any more, whatever is added later (`Broken.listAdd`, `Broken.not_isRing`).
-/

namespace ListHead

variable {κ : Type}

/-- A node of a ring: the head, or an entry. -/
inductive Node (κ : Type) where
  | head
  | entry (a : κ)
  deriving DecidableEq

variable [DecidableEq κ]

/-- `node->next` in the ring of the entries `l`. -/
def next (l : List κ) : Node κ → Node κ
  | .head => l.head?.elim .head .entry
  | .entry a => (l.dropWhile (· ≠ a)).tail.head?.elim .head .entry

/-- `list_empty(node)`: the node is its own successor. -/
def listEmpty (l : List κ) (n : Node κ) : Bool := decide (next l n = n)

/-- **A linked entry is never its own successor.** -/
theorem listEmpty_entry {l : List κ} {a : κ} (hl : l.Nodup) (ha : a ∈ l) :
    listEmpty l (.entry a) = false := by
  obtain ⟨l₁, l₂, rfl⟩ := List.append_of_mem ha
  have h1 : a ∉ l₁ := fun h => (List.disjoint_of_nodup_append hl) h List.mem_cons_self
  have h2 : a ∉ l₂ := (List.nodup_cons.mp (List.Nodup.of_append_right hl)).1
  have hdrop : (l₁ ++ a :: l₂).dropWhile (· ≠ a) = a :: l₂ := by
    rw [List.dropWhile_append_of_pos]
    · simp
    · intro x hx
      simpa using fun h : x = a => h1 (h ▸ hx)
  rw [listEmpty, decide_eq_false_iff_not, next, hdrop, List.tail_cons]
  cases l₂ with
  | nil => simp
  | cons b l₂ =>
    simp only [List.mem_cons, not_or] at h2
    simpa using Ne.symm h2.1

/-! ## Pointers -/

omit [DecidableEq κ] in
theorem head_ne_entry (a : κ) : Node.head ≠ .entry a := by
  intro h
  cases h

omit [DecidableEq κ] in
theorem entry_ne_head (a : κ) : Node.entry a ≠ .head := (head_ne_entry a).symm

/-- `next` and `prev` of the nodes. -/
structure Links (κ : Type) where
  next : Node κ → Node κ
  prev : Node κ → Node κ

namespace Links

/-- `INIT_LIST_HEAD`, for every node. -/
def init : Links κ := ⟨id, id⟩

/-- `list_add(a, head)`: the assignments of `__list_add(a, head, head->next)` in their order. -/
def listAdd (r : Links κ) (a : κ) : Links κ :=
  let next := r.next .head
  let prev₁ := Function.update r.prev next (.entry a)
  let next₁ := Function.update r.next (.entry a) next
  let prev₂ := Function.update prev₁ (.entry a) .head
  ⟨Function.update next₁ .head (.entry a), prev₂⟩

variable (r : Links κ) (a : κ)

@[simp] theorem listAdd_next_head : (r.listAdd a).next .head = .entry a := by
  simp [listAdd]

theorem listAdd_next_self : (r.listAdd a).next (.entry a) = r.next .head := by
  simp [listAdd, Function.update_of_ne]

@[simp] theorem listAdd_prev_self : (r.listAdd a).prev (.entry a) = .head := by
  simp [listAdd]

variable {r a}

theorem listAdd_next_of_ne {x : Node κ} (h : x ≠ .head) (h' : x ≠ .entry a) :
    (r.listAdd a).next x = r.next x := by
  simp [listAdd, h, h']

theorem listAdd_prev_next (h : r.next .head ≠ .entry a) :
    (r.listAdd a).prev (r.next .head) = .entry a := by
  simp [listAdd, h]

theorem listAdd_prev_of_ne {x : Node κ} (h : x ≠ r.next .head) (h' : x ≠ .entry a) :
    (r.listAdd a).prev x = r.prev x := by
  simp [listAdd, h, h']

end Links

/-- From `x` on, the entries `l` follow one another up to the head, in both directions. -/
def Linked (r : Links κ) : Node κ → List κ → Prop
  | x, [] => r.next x = .head ∧ r.prev .head = x
  | x, a :: l => r.next x = .entry a ∧ r.prev (.entry a) = x ∧ Linked r (.entry a) l

/-- The entries `l`, each once, are a ring with the head. -/
structure IsRing (r : Links κ) (l : List κ) : Prop where
  nodup : l.Nodup
  linked : Linked r .head l

omit [DecidableEq κ] in
theorem isRing_init : IsRing (Links.init : Links κ) [] := ⟨List.nodup_nil, rfl, rfl⟩

omit [DecidableEq κ] in
theorem Linked.congr {r r' : Links κ} {x : Node κ} {l : List κ} (h : Linked r x l)
    (hx : r'.next x = r.next x) (hnext : ∀ a ∈ l, r'.next (.entry a) = r.next (.entry a))
    (hprev : ∀ a ∈ l, r'.prev (.entry a) = r.prev (.entry a)) (hhead : r'.prev .head = r.prev .head) :
    Linked r' x l := by
  induction l generalizing x with
  | nil => exact ⟨hx.trans h.1, hhead.trans h.2⟩
  | cons a l ih =>
    rw [List.forall_mem_cons] at hnext hprev
    exact ⟨hx.trans h.1, hprev.1.trans h.2.1, ih h.2.2 hnext.1 hnext.2 hprev.2⟩

/-- **A new node gets in front.** -/
theorem IsRing.listAdd {r : Links κ} {l : List κ} {a : κ} (h : IsRing r l) (ha : a ∉ l) :
    IsRing (r.listAdd a) (a :: l) := by
  refine ⟨List.nodup_cons.mpr ⟨ha, h.nodup⟩, r.listAdd_next_head a, r.listAdd_prev_self a, ?_⟩
  have hself := r.listAdd_next_self a
  cases l with
  | nil =>
    have hhead : r.next .head = .head := h.linked.1
    refine ⟨hself.trans hhead, ?_⟩
    have := Links.listAdd_prev_next (r := r) (a := a) (by rw [hhead]; exact head_ne_entry a)
    rwa [hhead] at this
  | cons b l =>
    obtain ⟨hnb, hpb, hbl⟩ := h.linked
    rw [List.mem_cons, not_or] at ha
    have hbne : Node.entry b ≠ .entry a := fun hba => ha.1 (Node.entry.inj hba).symm
    refine ⟨hself.trans hnb, ?_, hbl.congr ?_ (fun c hc => ?_) (fun c hc => ?_) ?_⟩
    · rw [← hnb]
      exact Links.listAdd_prev_next (hnb ▸ hbne)
    · exact Links.listAdd_next_of_ne (entry_ne_head b) hbne
    · exact Links.listAdd_next_of_ne (entry_ne_head c) fun hca => ha.2 (Node.entry.inj hca ▸ hc)
    · refine Links.listAdd_prev_of_ne (fun hcb => ?_) fun hca => ha.2 (Node.entry.inj hca ▸ hc)
      rw [hnb] at hcb
      exact (List.nodup_cons.mp h.nodup).1 (Node.entry.inj hcb ▸ hc)
    · exact Links.listAdd_prev_of_ne (hnb ▸ head_ne_entry b) (head_ne_entry a)

omit [DecidableEq κ] in
theorem Linked.unique {r : Links κ} {x : Node κ} {l l' : List κ} (h : Linked r x l)
    (h' : Linked r x l') : l = l' := by
  induction l generalizing x l' with
  | nil =>
    cases l' with
    | nil => rfl
    | cons b l' => exact absurd (h.1.symm.trans h'.1) (head_ne_entry b)
  | cons a l ih =>
    cases l' with
    | nil => exact absurd (h'.1.symm.trans h.1) (head_ne_entry a)
    | cons b l' =>
      obtain rfl := Node.entry.inj (h.1.symm.trans h'.1)
      rw [ih h.2.2 h'.2.2]

/-! ## Rings that do not close -/

/-- From `x` on, `next` leads over the entries `l` to the entry `a`. -/
def Path (r : Links κ) : Node κ → List κ → κ → Prop
  | x, [], a => r.next x = .entry a
  | x, b :: l, a => r.next x = .entry b ∧ Path r (.entry b) l a

/-- `next` leads over nodes of `S` to one that is its own successor. -/
def Broken (r : Links κ) (S : κ → Prop) : Prop :=
  ∃ l a, Path r .head l a ∧ r.next (.entry a) = .entry a ∧ ∀ c ∈ a :: l, S c

omit [DecidableEq κ] in
theorem Linked.not_self {r : Links κ} {x : Node κ} {l l' : List κ} {a : κ} (h : Linked r x l)
    (hl : l.Nodup) (hp : Path r x l' a) : r.next (.entry a) ≠ .entry a := by
  induction l' generalizing x l with
  | nil =>
    cases l with
    | nil => exact absurd (h.1.symm.trans hp) (head_ne_entry a)
    | cons b l =>
      obtain rfl := Node.entry.inj (h.1.symm.trans hp)
      cases l with
      | nil =>
        rw [h.2.2.1]
        exact head_ne_entry b
      | cons c l =>
        intro hself
        have hcb : c = b := Node.entry.inj (h.2.2.1.symm.trans hself)
        exact (List.nodup_cons.mp hl).1 (hcb ▸ List.mem_cons_self)
  | cons c l' ih =>
    cases l with
    | nil => exact absurd (h.1.symm.trans hp.1) (head_ne_entry c)
    | cons b l =>
      obtain rfl := Node.entry.inj (h.1.symm.trans hp.1)
      exact ih h.2.2 (List.nodup_cons.mp hl).2 hp.2

omit [DecidableEq κ] in
/-- **Such pointers are no ring.** -/
theorem Broken.not_isRing {r : Links κ} {S : κ → Prop} (h : Broken r S) (l : List κ) :
    ¬ IsRing r l := by
  obtain ⟨l', a, hp, hself, -⟩ := h
  exact fun hr => hr.linked.not_self hr.nodup hp hself

theorem Path.listAdd {r : Links κ} {x : Node κ} {l : List κ} {a b : κ} (h : Path r x l a)
    (hx : x ≠ .head) (hxb : x ≠ .entry b) (hl : b ∉ l) : Path (r.listAdd b) x l a := by
  induction l generalizing x with
  | nil => exact (Links.listAdd_next_of_ne hx hxb).trans h
  | cons c l ih =>
    rw [List.mem_cons, not_or] at hl
    exact ⟨(Links.listAdd_next_of_ne hx hxb).trans h.1,
      ih h.2 (entry_ne_head c) (fun hcb => hl.1 (Node.entry.inj hcb).symm) hl.2⟩

theorem Broken.listAdd {r : Links κ} {S S' : κ → Prop} {b : κ} (h : Broken r S) (hb : ¬ S b)
    (hS : ∀ c, S c → S' c) (hSb : S' b) : Broken (r.listAdd b) S' := by
  obtain ⟨l, a, hp, hself, hmem⟩ := h
  rw [List.forall_mem_cons] at hmem
  have hab : Node.entry a ≠ .entry b := fun hab => hb (Node.entry.inj hab ▸ hmem.1)
  have hbl : b ∉ l := fun hbl => hb (hmem.2 b hbl)
  refine ⟨b :: l, a, ⟨r.listAdd_next_head b, ?_⟩,
    (Links.listAdd_next_of_ne (entry_ne_head a) hab).trans hself, fun c hc => ?_⟩
  · cases l with
    | nil => exact (r.listAdd_next_self b).trans hp
    | cons c l =>
      rw [List.mem_cons, not_or] at hbl
      exact ⟨(r.listAdd_next_self b).trans hp.1,
        hp.2.listAdd (entry_ne_head c) (fun hcb => hbl.1 (Node.entry.inj hcb).symm) hbl.2⟩
  · rcases List.mem_cons.mp hc with rfl | hc
    · exact hS _ hmem.1
    · rcases List.mem_cons.mp hc with rfl | hc
      · exact hSb
      · exact hS _ (hmem.2 c hc)

/-- **The first node, added again, is its own successor.** -/
theorem Broken.of_listAdd_first {r : Links κ} {S : κ → Prop} {a : κ} (h : r.next .head = .entry a)
    (ha : S a) : Broken (r.listAdd a) S :=
  ⟨[], a, r.listAdd_next_head a, (r.listAdd_next_self a).trans h, by simpa using ha⟩

omit [DecidableEq κ] in
theorem Broken.mono {r : Links κ} {S S' : κ → Prop} (h : Broken r S) (hS : ∀ c, S c → S' c) :
    Broken r S' := by
  obtain ⟨l, a, hp, hself, hmem⟩ := h
  exact ⟨l, a, hp, hself, fun c hc => hS c (hmem c hc)⟩

end ListHead
