import Mathlib

/-!
# Search trees whose nodes are at addresses

A tree over the keys of an order, the larger ones to the left, with the address of each node. No node
is at address 0; it stands for the empty tree.

* `PTree.entries`: the nodes from the largest to the smallest;
* `Way`: the way down to a place, and what lies beside it; `descend`, `toRight`: two ways down;
* `PTree.Stored`, `Way.Stored`: the nodes, as they are found at their addresses;
* **`stored_plug`**, **`Way.Stored.relink`**: a stored tree is a stored path with a stored tree at its
  end, and one pointer decides which;
* `find`, **`find_middle`**: what is found under a key in the entries.
-/

namespace SearchTree

variable {κ ν : Type}

inductive PTree (κ ν : Type) where
  | nil
  | node (left : PTree κ ν) (p : ℕ) (key : κ) (val : ν) (right : PTree κ ν)

/-- A node without its subtrees. -/
structure Entry (κ ν : Type) where
  p : ℕ
  key : κ
  val : ν

namespace PTree

def root : PTree κ ν → ℕ
  | nil => 0
  | node _ p _ _ _ => p

def entries : PTree κ ν → List (Entry κ ν)
  | nil => []
  | node left p key val right => left.entries ++ ⟨p, key, val⟩ :: right.entries

@[simp] theorem entries_nil : (nil : PTree κ ν).entries = [] := rfl

end PTree

/-- The way from the root down to a place. -/
inductive Way (κ ν : Type) where
  | top
  | left (up : Way κ ν) (p : ℕ) (key : κ) (val : ν) (right : PTree κ ν)
  | right (up : Way κ ν) (left : PTree κ ν) (p : ℕ) (key : κ) (val : ν)

/-- The pointer to a place. -/
inductive Slot where
  | top
  | left (p : ℕ)
  | right (p : ℕ)

namespace Way

def slot : Way κ ν → Slot
  | top => .top
  | left _ p _ _ _ => .left p
  | right _ _ p _ _ => .right p

def plug : Way κ ν → PTree κ ν → PTree κ ν
  | top, t => t
  | left up p key val r, t => up.plug (.node t p key val r)
  | right up l p key val, t => up.plug (.node l p key val t)

/-- The entries above the place. -/
def before : Way κ ν → List (Entry κ ν)
  | top => []
  | left up _ _ _ _ => up.before
  | right up l p key val => up.before ++ (l.entries ++ [⟨p, key, val⟩])

/-- The entries below the place. -/
def after : Way κ ν → List (Entry κ ν)
  | top => []
  | left up p key val r => ⟨p, key, val⟩ :: r.entries ++ up.after
  | right up _ _ _ _ => up.after

theorem entries_plug (c : Way κ ν) (t : PTree κ ν) : (c.plug t).entries = c.before ++ t.entries ++ c.after := by
  induction c generalizing t with
  | top => simp [plug, before, after]
  | left up p key val r ih => simp [plug, ih, before, after, PTree.entries]
  | right up l p key val ih => simp [plug, ih, before, after, PTree.entries]

theorem root_plug {c : Way κ ν} (h : c.slot ≠ .top) (t t' : PTree κ ν) : (c.plug t).root = (c.plug t').root := by
  induction c generalizing t t' with
  | top => exact absurd rfl h
  | left up p key val r ih =>
    cases up with
    | top => rfl
    | left _ _ _ _ _ => exact ih Slot.noConfusion _ _
    | right _ _ _ _ _ => exact ih Slot.noConfusion _ _
  | right up l p key val ih =>
    cases up with
    | top => rfl
    | left _ _ _ _ _ => exact ih Slot.noConfusion _ _
    | right _ _ _ _ _ => exact ih Slot.noConfusion _ _

end Way

/-! ## Ways down -/

/-- Down to where a key is, or would be. -/
def descend (cmp : κ → κ → Ordering) (k : κ) : Way κ ν → PTree κ ν → Way κ ν × PTree κ ν
  | c, .nil => (c, .nil)
  | c, .node l p key val r =>
    match cmp k key with
    | .gt => descend cmp k (.left c p key val r) l
    | .lt => descend cmp k (.right c l p key val) r
    | .eq => (c, .node l p key val r)

/-- Down to the right as far as possible. -/
def toRight : Way κ ν → PTree κ ν → Way κ ν
  | c, .nil => c
  | c, .node l p key val r => toRight (.right c l p key val) r

theorem toRight_plug (c : Way κ ν) (t : PTree κ ν) : (toRight c t).plug .nil = c.plug t := by
  induction t generalizing c with
  | nil => rfl
  | node l p key val r _ ihr => exact ihr _

theorem after_toRight (c : Way κ ν) (t : PTree κ ν) : (toRight c t).after = c.after := by
  induction t generalizing c with
  | nil => rfl
  | node l p key val r _ ihr => exact ihr _

theorem before_toRight (c : Way κ ν) (t : PTree κ ν) : (toRight c t).before = c.before ++ t.entries := by
  induction t generalizing c with
  | nil => simp [toRight]
  | node l p key val r _ ihr => simp [toRight, ihr, Way.before, PTree.entries]

theorem slot_toRight_ne_top {t : PTree κ ν} (ht : t ≠ .nil) (c : Way κ ν) : (toRight c t).slot ≠ .top := by
  induction t generalizing c with
  | nil => exact absurd rfl ht
  | node l p key val r _ ihr =>
    cases r with
    | nil => exact Slot.noConfusion
    | node _ _ _ _ _ => exact ihr (by simp) _

/-! ## Nodes at their addresses -/

/-- What is found at an address: the left pointer, key and value, and the right pointer. -/
abbrev Cells (κ ν : Type) := ℕ → ℕ → κ → ν → ℕ → Prop

def PTree.Stored (At : Cells κ ν) : PTree κ ν → Prop
  | nil => True
  | node l p key val r => p ≠ 0 ∧ At p l.root key val r.root ∧ l.Stored At ∧ r.Stored At

/-- The nodes of a path and beside it, with `q` as the pointer to its end. -/
def Way.Stored (At : Cells κ ν) : Way κ ν → ℕ → Prop
  | top, _ => True
  | left up p key val r, q => p ≠ 0 ∧ At p q key val r.root ∧ r.Stored At ∧ up.Stored At p
  | right up l p key val, q => p ≠ 0 ∧ At p l.root key val q ∧ l.Stored At ∧ up.Stored At p

def Way.entries (c : Way κ ν) : List (Entry κ ν) := c.before ++ c.after

section stored
variable {At At' : Cells κ ν}

theorem stored_plug (c : Way κ ν) (t : PTree κ ν) :
    (c.plug t).Stored At ↔ c.Stored At t.root ∧ t.Stored At := by
  induction c generalizing t with
  | top => exact (and_iff_right trivial).symm
  | left up p key val r ih =>
    simp only [Way.plug, ih, Way.Stored, PTree.Stored, PTree.root]
    tauto
  | right up l p key val ih =>
    simp only [Way.plug, ih, Way.Stored, PTree.Stored, PTree.root]
    tauto

/-- The node of an entry is found the same way. -/
def Kept (At At' : Cells κ ν) (e : Entry κ ν) : Prop :=
  ∀ l r, At e.p l e.key e.val r → At' e.p l e.key e.val r

theorem PTree.Stored.exists_at {t : PTree κ ν} (h : t.Stored At) {e : Entry κ ν} (he : e ∈ t.entries) :
    ∃ l r, At e.p l e.key e.val r := by
  induction t with
  | nil => exact absurd he List.not_mem_nil
  | node l p key val r ihl ihr =>
    obtain ⟨-, hat, hl, hr⟩ := h
    rcases List.mem_append.mp he with he | he
    · exact ihl hl he
    · rcases List.mem_cons.mp he with rfl | he
      · exact ⟨_, _, hat⟩
      · exact ihr hr he

theorem PTree.Stored.frame {t : PTree κ ν} (h : t.Stored At) (hk : ∀ e ∈ t.entries, Kept At At' e) :
    t.Stored At' := by
  induction t with
  | nil => trivial
  | node l p key val r ihl ihr =>
    obtain ⟨hp, hat, hl, hr⟩ := h
    simp only [PTree.entries, List.forall_mem_append, List.forall_mem_cons] at hk
    obtain ⟨hkl, hkp, hkr⟩ := hk
    exact ⟨hp, hkp _ _ hat, ihl hl hkl, ihr hr hkr⟩

theorem Way.Stored.frame {c : Way κ ν} {q : ℕ} (h : c.Stored At q) (hk : ∀ e ∈ c.entries, Kept At At' e) :
    c.Stored At' q := by
  induction c generalizing q with
  | top => trivial
  | left up p key val r ih =>
    obtain ⟨hp, hat, hr, hup⟩ := h
    simp only [Way.entries, Way.before, Way.after, List.forall_mem_append, List.cons_append,
      List.forall_mem_cons] at hk
    obtain ⟨hb, hkp, hkr, ha⟩ := hk
    exact ⟨hp, hkp _ _ hat, hr.frame hkr, ih hup (List.forall_mem_append.mpr ⟨hb, ha⟩)⟩
  | right up l p key val ih =>
    obtain ⟨hp, hat, hl, hup⟩ := h
    simp only [Way.entries, Way.before, Way.after, List.forall_mem_append, List.forall_mem_singleton] at hk
    obtain ⟨⟨hb, hkl, hkp⟩, ha⟩ := hk
    exact ⟨hp, hkp _ _ hat, hl.frame hkl, ih hup (List.forall_mem_append.mpr ⟨hb, ha⟩)⟩

/-- The pointer in a slot is changed to `q`, and the rest of its node is not. -/
def Slot.Relinked (At At' : Cells κ ν) (q : ℕ) : Slot → Prop
  | top => True
  | left p => ∀ l key val r, At p l key val r → At' p q key val r
  | right p => ∀ l key val r, At p l key val r → At' p l key val q

def Slot.owner : Slot → Option ℕ
  | top => none
  | left p => some p
  | right p => some p

theorem Way.entries_left (up : Way κ ν) (p : ℕ) (key : κ) (val : ν) (r : PTree κ ν) :
    (left up p key val r).entries.Perm (⟨p, key, val⟩ :: (r.entries ++ up.entries)) := by
  simp only [Way.entries, Way.before, Way.after, List.cons_append]
  refine List.perm_middle.trans (List.Perm.cons _ ?_)
  rw [← List.append_assoc, ← List.append_assoc]
  exact List.perm_append_comm.append_right _

theorem Way.entries_right (up : Way κ ν) (l : PTree κ ν) (p : ℕ) (key : κ) (val : ν) :
    (right up l p key val).entries.Perm (⟨p, key, val⟩ :: (l.entries ++ up.entries)) := by
  simp only [Way.entries, Way.before, Way.after, List.append_assoc, List.cons_append, List.nil_append]
  rw [← List.append_assoc]
  refine List.perm_middle.trans (List.Perm.cons _ ?_)
  rw [← List.append_assoc l.entries]
  exact List.perm_append_comm.append_right _

theorem Way.exists_owner {c : Way κ ν} (h : c.slot ≠ .top) : ∃ e ∈ c.entries, c.slot.owner = some e.p := by
  cases c with
  | top => exact absurd rfl h
  | left up p key val r =>
    exact ⟨_, (Way.entries_left up p key val r).mem_iff.mpr List.mem_cons_self, rfl⟩
  | right up l p key val =>
    exact ⟨_, (Way.entries_right up l p key val).mem_iff.mpr List.mem_cons_self, rfl⟩

theorem ne_of_nodup {e x : Entry κ ν} {es : List (Entry κ ν)} (hd : ((e :: es).map Entry.p).Nodup)
    (hx : x ∈ es) : some x.p ≠ some e.p := fun h =>
  (List.nodup_cons.mp hd).1 (Option.some.inj h ▸ List.mem_map_of_mem hx)

theorem Way.Stored.relink {c : Way κ ν} {q q' : ℕ} (h : c.Stored At q)
    (hd : (c.entries.map Entry.p).Nodup) (hs : c.slot.Relinked At At' q')
    (hk : ∀ e ∈ c.entries, some e.p ≠ c.slot.owner → Kept At At' e) : c.Stored At' q' := by
  cases c with
  | top => trivial
  | left up p key val r =>
    obtain ⟨hp, hat, hr, hup⟩ := h
    have hperm := Way.entries_left up p key val r
    have hrest : ∀ e ∈ r.entries ++ up.entries, Kept At At' e := fun e he =>
      hk e (hperm.mem_iff.mpr (List.mem_cons_of_mem _ he))
        (ne_of_nodup (e := ⟨p, key, val⟩) ((hperm.map _).nodup_iff.mp hd) he)
    exact ⟨hp, hs _ _ _ _ hat, hr.frame fun e he => hrest e (List.mem_append_left _ he),
      hup.frame fun e he => hrest e (List.mem_append_right _ he)⟩
  | right up l p key val =>
    obtain ⟨hp, hat, hl, hup⟩ := h
    have hperm := Way.entries_right up l p key val
    have hrest : ∀ e ∈ l.entries ++ up.entries, Kept At At' e := fun e he =>
      hk e (hperm.mem_iff.mpr (List.mem_cons_of_mem _ he))
        (ne_of_nodup (e := ⟨p, key, val⟩) ((hperm.map _).nodup_iff.mp hd) he)
    exact ⟨hp, hs _ _ _ _ hat, hl.frame fun e he => hrest e (List.mem_append_left _ he),
      hup.frame fun e he => hrest e (List.mem_append_right _ he)⟩

end stored

/-! ## Order -/

section order
variable (cmp : κ → κ → Ordering)

/-- The keys from the largest to the smallest. -/
def Sorted (es : List (Entry κ ν)) : Prop := es.Pairwise fun a b => cmp a.key b.key = .gt

def find (k : κ) (es : List (Entry κ ν)) : Option ν :=
  (es.find? fun e => cmp k e.key == .eq).map Entry.val

/-- The key lies between what is before the place and what is after it. -/
def Way.Between (k : κ) (c : Way κ ν) : Prop :=
  (∀ e ∈ c.before, cmp k e.key = .lt) ∧ ∀ e ∈ c.after, cmp k e.key = .gt

theorem between_top (k : κ) : (Way.top : Way κ ν).Between cmp k :=
  ⟨fun _ h => absurd h List.not_mem_nil, fun _ h => absurd h List.not_mem_nil⟩

variable {cmp}

theorem descend_plug (k : κ) (c : Way κ ν) (t : PTree κ ν) :
    (descend cmp k c t).1.plug (descend cmp k c t).2 = c.plug t := by
  induction t generalizing c with
  | nil => rfl
  | node l p key val r ihl ihr =>
    rw [descend]
    split
    · exact ihl _
    · exact ihr _
    · rfl

theorem descend_cases (k : κ) (c : Way κ ν) (t : PTree κ ν) :
    (descend cmp k c t).2 = .nil ∨
      ∃ l p key val r, (descend cmp k c t).2 = .node l p key val r ∧ cmp k key = .eq := by
  induction t generalizing c with
  | nil => exact Or.inl rfl
  | node l p key val r ihl ihr =>
    rw [descend]
    split
    · exact ihl _
    · exact ihr _
    · rename_i heq
      exact Or.inr ⟨l, p, key, val, r, rfl, heq⟩

/-! ## What is found under a key -/

variable {as bs : List (Entry κ ν)} {e : Entry κ ν}

theorem sorted_middle : Sorted cmp (as ++ e :: bs) ↔
    Sorted cmp (as ++ bs) ∧ (∀ a ∈ as, cmp a.key e.key = .gt) ∧ ∀ b ∈ bs, cmp e.key b.key = .gt := by
  simp only [Sorted, List.pairwise_append, List.pairwise_cons, List.forall_mem_cons]
  constructor
  · rintro ⟨ha, ⟨he, hb⟩, hab⟩
    exact ⟨⟨ha, hb, fun a h => (hab a h).2⟩, fun a h => (hab a h).1, he⟩
  · rintro ⟨⟨ha, hb, hab⟩, hae, he⟩
    exact ⟨ha, ⟨he, hb⟩, fun a h => ⟨hae a h, hab a h⟩⟩

theorem mem_of_find {k : κ} {v : ν} {es : List (Entry κ ν)} (h : find cmp k es = some v) :
    ∃ e ∈ es, cmp k e.key = .eq ∧ e.val = v := by
  obtain ⟨e, hfind, rfl⟩ := Option.map_eq_some_iff.mp h
  exact ⟨e, List.mem_of_find?_eq_some hfind, by simpa using List.find?_some hfind, rfl⟩

theorem find_of_forall {k : κ} {es : List (Entry κ ν)} (h : ∀ e ∈ es, cmp k e.key ≠ .eq) :
    find cmp k es = none := by
  rw [find, List.find?_eq_none.mpr fun e he => by simpa using h e he, Option.map_none]

variable [Std.TransCmp cmp]

theorem descend_between {k : κ} {c : Way κ ν} {t : PTree κ ν} (hs : Sorted cmp (c.plug t).entries)
    (hc : c.Between cmp k) : (descend cmp k c t).1.Between cmp k := by
  induction t generalizing c with
  | nil => exact hc
  | node l p key val r ihl ihr =>
    have hents : Sorted cmp (c.before ++ (l.entries ++ ⟨p, key, val⟩ :: r.entries) ++ c.after) := by
      rw [← PTree.entries, ← Way.entries_plug]
      exact hs
    rw [descend]
    obtain ⟨hsl, hsr, hlr⟩ := List.pairwise_append.mp (List.pairwise_append.mp
      (List.pairwise_append.mp hents).1).2.1
    split
    · rename_i hgt
      refine ihl hs ⟨hc.1, fun e he => ?_⟩
      simp only [Way.after, List.cons_append, List.mem_cons, List.mem_append] at he
      rcases he with rfl | he | he
      · exact hgt
      · exact Std.TransCmp.gt_trans hgt ((List.pairwise_cons.mp hsr).1 e he)
      · exact hc.2 e he
    · rename_i hlt
      refine ihr hs ⟨fun e he => ?_, hc.2⟩
      simp only [Way.before, List.mem_append, List.mem_singleton] at he
      rcases he with he | he | rfl
      · exact hc.1 e he
      · have := hlr e he _ List.mem_cons_self
        exact Std.TransCmp.lt_trans hlt (Std.OrientedCmp.gt_iff_lt.mp this)
      · exact hlt
    · exact hc

theorem find_middle (hs : Sorted cmp (as ++ e :: bs)) (k : κ) :
    find cmp k (as ++ e :: bs) = if cmp k e.key = .eq then some e.val else find cmp k (as ++ bs) := by
  obtain ⟨-, hae, -⟩ := sorted_middle.mp hs
  simp only [find, List.find?_append, List.find?_cons]
  split_ifs with h
  · have has : as.find? (fun a => cmp k a.key == .eq) = none := by
      refine List.find?_eq_none.mpr fun a ha => ?_
      rw [beq_iff_eq, Std.TransCmp.congr_left h]
      intro heq
      have := hae a ha
      rw [Std.OrientedCmp.eq_comm.mp heq] at this
      exact absurd this (by decide)
    rw [has, h]
    rfl
  · rw [beq_eq_false_iff_ne.mpr h]

end order

end SearchTree
