import Fms.Dict.Write

/-!
# The trees of a file

* `Forest h trees`: every bucket points to its tree, every node is where its parent points to, and the
  nodes are the blocks in use;
* `Loose`: the trees of a file while the pointer to a subtree of one is about to be set;
* **`slot_write`**: setting a pointer in a record changes that pointer and nothing else;
* **`Forest.loose`**, **`Loose.replace`**, **`Loose.link`**: a subtree is taken, replaced by what is
  written somewhere else, and linked again.
-/

namespace Fms

open Bytes Blocks SearchTree

def blockOf (g : HdbLayout) (e : Entry Key Body) : Block := ⟨e.p, nodeLen g e.key e.val⟩

/-- The entries of the trees of the first `n` buckets. -/
def allEntries (n : ℕ) (trees : ℕ → RecTree) : List (Entry Key Body) :=
  (List.range n).flatMap fun b => (trees b).entries

/-- The entries of all trees but one. -/
def elsewhere (n : ℕ) (trees : ℕ → RecTree) (bidx : ℕ) : List (Entry Key Body) :=
  ((List.range n).erase bidx).flatMap fun b => (trees b).entries

theorem allEntries_perm {n bidx : ℕ} (h : bidx < n) (trees : ℕ → RecTree) :
    (allEntries n trees).Perm ((trees bidx).entries ++ elsewhere n trees bidx) :=
  (List.perm_cons_erase (List.mem_range.mpr h)).flatMap_right _

theorem allEntries_update {n bidx : ℕ} (h : bidx < n) (trees : ℕ → RecTree) (t : RecTree) :
    (allEntries n (Function.update trees bidx t)).Perm (t.entries ++ elsewhere n trees bidx) := by
  refine (allEntries_perm h _).trans ?_
  rw [Function.update_self]
  have hsame : elsewhere n (Function.update trees bidx t) bidx = elsewhere n trees bidx := by
    refine List.flatMap_congr fun b hb => ?_
    have hne : b ≠ bidx := (List.Nodup.mem_erase_iff List.nodup_range).mp hb |>.1
    rw [Function.update_of_ne hne]
  rw [hsame]

theorem mem_elsewhere {n bidx : ℕ} {trees : ℕ → RecTree} {e : Entry Key Body} :
    e ∈ elsewhere n trees bidx ↔ ∃ b < n, b ≠ bidx ∧ e ∈ (trees b).entries := by
  simp only [elsewhere, List.mem_flatMap, List.Nodup.mem_erase_iff List.nodup_range, List.mem_range]
  constructor
  · rintro ⟨b, ⟨hne, hlt⟩, he⟩
    exact ⟨b, hlt, hne, he⟩
  · rintro ⟨b, hlt, hne, he⟩
    exact ⟨b, ⟨hne, hlt⟩, he⟩

/-- The nodes are the blocks in use. -/
def Holding (h : Tchdb) (es : List (Entry Key Body)) : Prop :=
  ∃ lost, Space h (es.map (blockOf h.toHdbLayout)) lost

/-- A bucket points to the root of a tree. -/
def Bucket (h : Tchdb) (bidx root : ℕ) : Prop :=
  Holds h.file (hdbHeadSiz + bidx * h.besiz) (ptr h.toHdbLayout root)

structure Forest (h : Tchdb) (trees : ℕ → RecTree) : Prop where
  space : Holding h (allEntries h.bnum trees)
  buckets : ∀ b < h.bnum, Bucket h b (trees b).root
  stored : ∀ b < h.bnum, (trees b).Stored (NodeAt h)

/-- The tree of `bidx` is the way `c`, with `q` as the pointer at its end, and `t` is to be put there. -/
structure Loose (h : Tchdb) (trees : ℕ → RecTree) (bidx : ℕ) (c : Way Key Body) (q : ℕ) (t : RecTree) : Prop where
  lt : bidx < h.bnum
  space : Holding h (t.entries ++ (c.entries ++ elsewhere h.bnum trees bidx))
  buckets : ∀ b < h.bnum, b ≠ bidx → Bucket h b (trees b).root
  bucket : c.slot ≠ .top → Bucket h bidx (c.plug .nil).root
  stored : ∀ b < h.bnum, b ≠ bidx → (trees b).Stored (NodeAt h)
  way : c.Stored (NodeAt h) q
  sub : t.Stored (NodeAt h)

section
variable {h h' : Tchdb} {trees : ℕ → RecTree} {bidx q : ℕ} {c : Way Key Body} {t t' : RecTree}
  {es : List (Entry Key Body)}

theorem Holding.perm {es' : List (Entry Key Body)} (hs : Holding h es) (hp : es.Perm es') : Holding h es' := by
  obtain ⟨lost, hs⟩ := hs
  exact ⟨lost, { hs with blocks := hs.blocks.perm_live (hp.map _) }⟩

theorem entries_plug_perm (c : Way Key Body) (t : RecTree) : (c.plug t).entries.Perm (t.entries ++ c.entries) := by
  rw [Way.entries_plug, Way.entries, ← List.append_assoc]
  exact List.perm_append_comm.append_right _

theorem Forest.loose (hf : Forest h trees) (hlt : bidx < h.bnum) (ht : trees bidx = c.plug t) :
    Loose h trees bidx c t.root t := by
  have hst := hf.stored bidx hlt
  rw [ht, stored_plug] at hst
  refine ⟨hlt, ?_, fun b hb _ => hf.buckets b hb, fun hne => ?_, fun b hb _ => hf.stored b hb, hst.1, hst.2⟩
  · refine hf.space.perm ((allEntries_perm hlt trees).trans ?_)
    rw [ht, ← List.append_assoc]
    exact (entries_plug_perm c t).append_right _
  · have := hf.buckets bidx hlt
    rwa [ht, Way.root_plug hne t .nil] at this

theorem NodeAt.congr {p l r : ℕ} {key : Key} {b : Body} (hn : NodeAt h p l key b r)
    (hlayout : h'.toHdbLayout = h.toHdbLayout)
    (heq : ∀ i, p ≤ i → i < p + nodeLen h.toHdbLayout key b → h'.file[i]? = h.file[i]?) : NodeAt h' p l key b r := by
  obtain ⟨hholds, hl, hr, hfit⟩ := hn
  rw [← hlayout] at hl hr hfit
  refine ⟨?_, hl, hr, hfit⟩
  rw [hlayout]
  refine hholds.congr fun i hi hi' => heq i hi ?_
  have := length_nodeBytes (g := h.toHdbLayout) l key b r
  omega

/-- The blocks of the entries are as they were. -/
def SameBlocks (h h' : Tchdb) (es : List (Entry Key Body)) : Prop :=
  ∀ e ∈ es, ∀ i, e.p ≤ i → i < e.p + nodeLen h.toHdbLayout e.key e.val → h'.file[i]? = h.file[i]?

theorem SameBlocks.kept (hs : SameBlocks h h' es) (hlayout : h'.toHdbLayout = h.toHdbLayout) {e : Entry Key Body}
    (he : e ∈ es) : Kept (NodeAt h) (NodeAt h') e := fun _ _ hn => hn.congr hlayout (hs e he)

theorem Bucket.congr {root : ℕ} (hb : Bucket h bidx root) (hlayout : h'.toHdbLayout = h.toHdbLayout)
    (heq : ∀ i, hdbHeadSiz + bidx * h.besiz ≤ i → i < hdbHeadSiz + (bidx + 1) * h.besiz → h'.file[i]? = h.file[i]?) :
    Bucket h' bidx root := by
  rw [Bucket, hlayout]
  refine Holds.congr hb fun i hi hi' => heq i hi ?_
  rw [length_ptr] at hi'
  rw [Nat.succ_mul]
  omega

theorem Space.bucket_le {live : List Block} {lost : List Hdbfb} (hs : Space h live lost) {b : ℕ} (hb : b < h.bnum) :
    hdbHeadSiz + (b + 1) * h.besiz ≤ h.frec := by
  have := hs.front
  have hle : (b + 1) * h.besiz ≤ h.bnum * h.besiz := Nat.mul_le_mul_right _ hb
  rw [HdbLayout.msiz] at this
  omega

theorem Loose.replace (hl : Loose h trees bidx c q t) (hlayout : h'.toHdbLayout = h.toHdbLayout)
    (hfront : ∀ i, hdbHeadSiz ≤ i → i < h.frec → h'.file[i]? = h.file[i]?)
    (hblocks : SameBlocks h h' (c.entries ++ elsewhere h.bnum trees bidx))
    (hspace : Holding h' (t'.entries ++ (c.entries ++ elsewhere h.bnum trees bidx))) (hsub : t'.Stored (NodeAt h')) :
    Loose h' trees bidx c q t' := by
  obtain ⟨lost, hs⟩ := hl.space
  have hbucket : ∀ {b root}, b < h.bnum → Bucket h b root → Bucket h' b root := fun hb hbu =>
    hbu.congr hlayout fun i hi hi' => hfront i (by omega) (hi'.trans_le (hs.bucket_le hb))
  have hkept : ∀ e ∈ c.entries ++ elsewhere h.bnum trees bidx, Kept (NodeAt h) (NodeAt h') e := fun e he =>
    hblocks.kept hlayout he
  refine ⟨?_, ?_, ?_, fun hne => hbucket hl.lt (hl.bucket hne), ?_, ?_, hsub⟩
  · rw [hlayout]
    exact hl.lt
  · rw [hlayout]
    exact hspace
  · rw [hlayout]
    exact fun b hb hne => hbucket hb (hl.buckets b hb hne)
  · rw [hlayout]
    exact fun b hb hne => (hl.stored b hb hne).frame fun e he =>
      hkept e (List.mem_append_right _ (mem_elsewhere.mpr ⟨b, hb, hne, he⟩))
  · exact hl.way.frame fun e he => hkept e (List.mem_append_left _ he)

/-! ## Setting a pointer -/

theorem Holding.nodup (hs : Holding h es) : (es.map Entry.p).Nodup := by
  obtain ⟨lost, hs⟩ := hs
  have hpart := (List.pairwise_append.mp hs.blocks.part.apart).1
  rw [List.pairwise_map] at hpart
  rw [List.Nodup, List.pairwise_map]
  refine hpart.imp_of_mem fun {a b} ha hb hab heq => ?_
  have h1 := hs.blocks.part.inside (blockOf h.toHdbLayout a) (List.mem_append_left _ (List.mem_map_of_mem ha))
  have h2 := hs.blocks.part.inside (blockOf h.toHdbLayout b) (List.mem_append_left _ (List.mem_map_of_mem hb))
  simp only [Block.Apart, blockOf] at hab h1 h2
  omega

theorem Holding.inFile (hs : Holding h es) : InFile h es := fun e he => by
  obtain ⟨lost, hs⟩ := hs
  exact (hs.blocks.part.inside (blockOf h.toHdbLayout e) (List.mem_append_left _ (List.mem_map_of_mem he))).2.2

theorem Holding.goodPtr (hs : Holding h es) {e : Entry Key Body} (he : e ∈ es) : GoodPtr h.toHdbLayout e.p := by
  obtain ⟨lost, hs⟩ := hs
  have hmem : blockOf h.toHdbLayout e ∈ es.map (blockOf h.toHdbLayout) := List.mem_map_of_mem he
  have hin := hs.blocks.part.inside _ (List.mem_append_left _ hmem)
  have hsmall := hs.small
  refine ⟨(hs.blocks.aligned _ (List.mem_append_left _ hmem)).1, ?_⟩
  simp only [blockOf] at hin
  omega

theorem goodPtr_root (hs : Holding h es) (ht : ∀ e ∈ t.entries, e ∈ es) : GoodPtr h.toHdbLayout t.root := by
  cases t with
  | nil => exact ⟨dvd_zero _, by norm_num [PTree.root]⟩
  | node l p key val r => exact hs.goodPtr (ht ⟨p, key, val⟩ (by simp [PTree.entries]))

theorem relinked_write {s : Slot} (hq : GoodPtr h.toHdbLayout q) :
    s.Relinked (NodeAt h) (NodeAt (h.write (entoffOf h.toHdbLayout s) (ptr h.toHdbLayout q))) q := by
  have hlen : ∀ q, (ptr h.toHdbLayout q).length = h.besiz := fun _ => length_ptr _
  cases s with
  | top => trivial
  | left p =>
    intro l key b r hn
    have hbytes : ∀ l, nodeBytes h.toHdbLayout l key b r =
        [hdbMagicRec, UInt8.ofNat (tcrechash key).toNat] ++ ptr h.toHdbLayout l ++
          (ptr h.toHdbLayout r ++ (leBytes 2 b.psiz ++ recSizes key.length b.vbuf.length) ++ (key ++ b.vbuf)) :=
      fun l => by simp [nodeBytes, headBytes, leBytes]
    have hle := hn.holds.le_length (by simp [nodeBytes])
    refine ⟨?_, hq, hn.right, hn.fits⟩
    have hholds := hn.holds
    rw [hbytes] at hholds hle
    show Holds _ p (nodeBytes h.toHdbLayout q key b r)
    rw [hbytes]
    refine hholds.writeAt_inside ((hlen q).trans (hlen l).symm) ?_
    simp only [List.length_append, List.length_cons, List.length_nil] at hle ⊢
    omega
  | right p =>
    intro l key b r hn
    have hbytes : ∀ r, nodeBytes h.toHdbLayout l key b r =
        ([hdbMagicRec, UInt8.ofNat (tcrechash key).toNat] ++ ptr h.toHdbLayout l) ++ ptr h.toHdbLayout r ++
          ((leBytes 2 b.psiz ++ recSizes key.length b.vbuf.length) ++ (key ++ b.vbuf)) :=
      fun r => by simp [nodeBytes, headBytes, leBytes]
    have hle := hn.holds.le_length (by simp [nodeBytes])
    refine ⟨?_, hn.left, hq, hn.fits⟩
    have hholds := hn.holds
    rw [hbytes] at hholds hle
    show Holds _ p (nodeBytes h.toHdbLayout l key b q)
    rw [hbytes]
    have hoff : entoffOf h.toHdbLayout (.right p) =
        p + ([hdbMagicRec, UInt8.ofNat (tcrechash key).toNat] ++ ptr h.toHdbLayout l).length := by
      rw [List.length_append, hlen]
      show p + 2 + h.besiz = p + (2 + h.besiz)
      omega
    rw [Tchdb.write, hoff]
    refine hholds.writeAt_inside ((hlen q).trans (hlen r).symm) ?_
    simp only [List.length_append, List.length_cons, List.length_nil] at hle ⊢
    omega

/-- Setting a pointer of a record leaves the other records and the front of the file. -/
theorem slot_write {s : Slot} {e : Entry Key Body} (hs : Holding h es) (he : e ∈ es) (hown : s.owner = some e.p)
    (q : ℕ) : Holding (h.write (entoffOf h.toHdbLayout s) (ptr h.toHdbLayout q)) es ∧
      (∀ i, i < h.frec → (h.write (entoffOf h.toHdbLayout s) (ptr h.toHdbLayout q)).file[i]? = h.file[i]?) ∧
      ∀ x ∈ es, some x.p ≠ s.owner → ∀ i, x.p ≤ i → i < x.p + nodeLen h.toHdbLayout x.key x.val →
        (h.write (entoffOf h.toHdbLayout s) (ptr h.toHdbLayout q)).file[i]? = h.file[i]? := by
  obtain ⟨lost, hs⟩ := hs
  obtain ⟨es₁, es₂, rfl⟩ := List.append_of_mem he
  have hperm : ((es₁ ++ e :: es₂).map (blockOf h.toHdbLayout)).Perm
      (blockOf h.toHdbLayout e :: (es₁ ++ es₂).map (blockOf h.toHdbLayout)) := List.perm_middle.map _
  have hs' : Space h (⟨e.p, nodeLen h.toHdbLayout e.key e.val⟩ :: (es₁ ++ es₂).map (blockOf h.toHdbLayout)) lost :=
    { hs with blocks := hs.blocks.perm_live hperm }
  have hcell : e.p ≤ entoffOf h.toHdbLayout s ∧
      entoffOf h.toHdbLayout s + (ptr h.toHdbLayout q).length ≤ e.p + nodeLen h.toHdbLayout e.key e.val := by
    have hsize : 2 + h.besiz + h.besiz ≤ nodeLen h.toHdbLayout e.key e.val := by
      rw [nodeLen, recHsiz]
      omega
    rw [length_ptr]
    cases s with
    | top => exact absurd hown (by simp [Slot.owner])
    | left p =>
      obtain rfl : p = e.p := Option.some.inj hown
      simp only [entoffOf]
      omega
    | right p =>
      obtain rfl : p = e.p := Option.some.inj hown
      simp only [entoffOf]
      omega
  obtain ⟨hspace, hagree⟩ := hs'.writeLive _ hcell.1 hcell.2
  refine ⟨⟨lost, { hspace with blocks := hspace.blocks.perm_live hperm.symm }⟩, hagree.front, fun x hx hne => ?_⟩
  rcases List.mem_cons.mp (List.perm_middle.mem_iff.mp hx) with rfl | hx
  · exact absurd hown.symm hne
  · exact hagree.blocks (blockOf h.toHdbLayout x) (List.mem_map_of_mem hx)

/-- Nothing is changed by a link but what it points from. -/
structure Relinked (h h' : Tchdb) : Prop where
  layout : h'.toHdbLayout = h.toHdbLayout
  flags : h'.flags = h.flags
  rnum : h'.rnum = h.rnum
  fsiz : h'.fsiz = h.fsiz
  head : ∀ i, i < hdbHeadSiz → h'.file[i]? = h.file[i]?

theorem Loose.linkBucket (hl : Loose h trees bidx .top q t) :
    Forest (tchdbSetbucket h bidx t.root) (Function.update trees bidx t) ∧ Relinked h (tchdbSetbucket h bidx t.root) := by
  obtain ⟨lost, hs⟩ := hl.space
  have hlen := hs.len
  have hstart := hs.start
  have hcell := hs.bucket_le hl.lt
  rw [Nat.succ_mul] at hcell
  have hle : hdbHeadSiz + bidx * h.besiz ≤ h.file.length := by omega
  have hget : ∀ i, i < hdbHeadSiz + bidx * h.besiz ∨ hdbHeadSiz + (bidx + 1) * h.besiz ≤ i →
      (tchdbSetbucket h bidx t.root).file[i]? = h.file[i]? := fun i hi => by
    rw [Nat.succ_mul] at hi
    rw [tchdbSetbucket, Tchdb.write, getElem?_writeAt hle, length_leBytes]
    split_ifs <;> first | rfl | omega
  have hrest : ∀ es : List (Entry Key Body), (∀ e ∈ es, e ∈ t.entries ++ (Way.top.entries ++ elsewhere h.bnum trees bidx)) →
      SameBlocks h (tchdbSetbucket h bidx t.root) es := fun es hes e he i hi _ => by
    have hin := hs.blocks.part.inside _ (List.mem_append_left _ (List.mem_map_of_mem (hes e he)))
    simp only [blockOf] at hin
    exact hget i (Or.inr (by rw [Nat.succ_mul]; omega))
  refine ⟨⟨?_, fun b hb => ?_, fun b hb => ?_⟩, rfl, rfl, rfl, rfl, fun i hi => hget i (Or.inl (by omega))⟩
  · have hspace : Holding (tchdbSetbucket h bidx t.root) (t.entries ++ elsewhere h.bnum trees bidx) :=
      ⟨lost, hs.writeFront _ (by rw [length_leBytes]; omega)⟩
    exact hspace.perm (allEntries_update hl.lt trees t).symm
  · rcases eq_or_ne b bidx with rfl | hne
    · rw [Function.update_self]
      exact holds_writeAt hle _
    · rw [Function.update_of_ne hne]
      refine (hl.buckets b hb hne).congr rfl fun i hi hi' => hget i ?_
      rcases Nat.lt_or_gt_of_ne hne with hlt | hgt
      · have := Nat.mul_le_mul_right h.besiz (Nat.succ_le_of_lt hlt)
        exact Or.inl (hi'.trans_le (Nat.add_le_add_left this _))
      · have := Nat.mul_le_mul_right h.besiz (Nat.succ_le_of_lt hgt)
        exact Or.inr (le_trans (Nat.add_le_add_left this _) hi)
  · rcases eq_or_ne b bidx with rfl | hne
    · rw [Function.update_self]
      have hsame := hrest t.entries fun e he => List.mem_append_left _ he
      exact hl.sub.frame fun e he => hsame.kept rfl he
    · rw [Function.update_of_ne hne]
      have hsame := hrest (elsewhere h.bnum trees bidx) fun e he => List.mem_append_right _ (List.mem_append_right _ he)
      exact (hl.stored b hb hne).frame fun e he => hsame.kept rfl (mem_elsewhere.mpr ⟨b, hb, hne, he⟩)

theorem Loose.linkSlot (hl : Loose h trees bidx c q t) (hne : c.slot ≠ .top) :
    Forest (h.write (entoffOf h.toHdbLayout c.slot) (ptr h.toHdbLayout t.root)) (Function.update trees bidx (c.plug t)) ∧
      Relinked h (h.write (entoffOf h.toHdbLayout c.slot) (ptr h.toHdbLayout t.root)) := by
  obtain ⟨e, he, hown⟩ := Way.exists_owner hne
  have hnodup := hl.space.nodup
  obtain ⟨hspace, hfront, hblocks⟩ := slot_write hl.space
    (List.mem_append_right _ (List.mem_append_left _ he)) hown t.root
  have hgood : GoodPtr h.toHdbLayout t.root := goodPtr_root hl.space fun e he => List.mem_append_left _ he
  set h' := h.write (entoffOf h.toHdbLayout c.slot) (ptr h.toHdbLayout t.root) with hdef
  obtain ⟨lost, hs⟩ := hl.space
  have hfrec := hs.le_frec
  have hkept : ∀ x ∈ t.entries ++ (c.entries ++ elsewhere h.bnum trees bidx), some x.p ≠ c.slot.owner →
      Kept (NodeAt h) (NodeAt h') x := fun x hx hxne _ _ hn => hn.congr rfl (hblocks x hx hxne)
  have hapart : ∀ x ∈ t.entries ++ elsewhere h.bnum trees bidx, some x.p ≠ c.slot.owner := by
    intro x hx heq
    rw [hown] at heq
    have hp : x.p = e.p := Option.some.inj heq
    rw [List.map_append, List.map_append] at hnodup
    rcases List.mem_append.mp hx with hx | hx
    · exact (List.nodup_append.mp hnodup).2.2 _ (List.mem_map_of_mem hx) _
        (List.mem_append_left _ (List.mem_map_of_mem he)) hp
    · exact (List.nodup_append.mp (List.nodup_append.mp hnodup).2.1).2.2 _ (List.mem_map_of_mem he) _
        (List.mem_map_of_mem hx) hp.symm
  have hbucket : ∀ {b root}, b < h.bnum → Bucket h b root → Bucket h' b root := fun hb hbu =>
    hbu.congr rfl fun i hi hi' => hfront i (hi'.trans_le (hs.bucket_le hb))
  refine ⟨⟨?_, fun b hb => ?_, fun b hb => ?_⟩, rfl, rfl, rfl, rfl, fun i hi => hfront i (by rw [hdbHeadSiz] at hi; omega)⟩
  · refine hspace.perm (List.Perm.trans ?_ (allEntries_update hl.lt trees (c.plug t)).symm)
    rw [← List.append_assoc]
    exact (entries_plug_perm c t).symm.append_right _
  · rcases eq_or_ne b bidx with rfl | hb'
    · rw [Function.update_self, Way.root_plug hne t .nil]
      exact hbucket hb (hl.bucket hne)
    · rw [Function.update_of_ne hb']
      exact hbucket hb (hl.buckets b hb hb')
  · rcases eq_or_ne b bidx with rfl | hb'
    · rw [Function.update_self, stored_plug]
      constructor
      · refine hl.way.relink ?_ (relinked_write hgood) fun x hx hxne =>
          hkept x (List.mem_append_right _ (List.mem_append_left _ hx)) hxne
        rw [List.map_append, List.map_append] at hnodup
        exact (List.nodup_append.mp (List.nodup_append.mp hnodup).2.1).1
      · exact hl.sub.frame fun x hx => hkept x (List.mem_append_left _ hx) (hapart x (List.mem_append_left _ hx))
    · rw [Function.update_of_ne hb']
      refine (hl.stored b hb hb').frame fun x hx => ?_
      have hmem : x ∈ elsewhere h.bnum trees bidx := mem_elsewhere.mpr ⟨b, hb, hb', hx⟩
      exact hkept x (List.mem_append_right _ (List.mem_append_right _ hmem)) (hapart x (List.mem_append_right _ hmem))

/-- The subtree is linked where its place is. -/
theorem Loose.link (hl : Loose h trees bidx c q t) :
    Forest (linkRec h bidx (entoffOf h.toHdbLayout c.slot) t.root) (Function.update trees bidx (c.plug t)) ∧
      Relinked h (linkRec h bidx (entoffOf h.toHdbLayout c.slot) t.root) := by
  cases c with
  | top => exact hl.linkBucket
  | left up p key val r =>
    have hpos : entoffOf h.toHdbLayout (Way.left up p key val r).slot > 0 := by
      show p + 2 > 0
      omega
    rw [linkRec, if_pos hpos]
    exact hl.linkSlot Slot.noConfusion
  | right up l p key val =>
    have hpos : entoffOf h.toHdbLayout (Way.right up l p key val).slot > 0 := by
      show p + 2 + h.besiz > 0
      omega
    rw [linkRec, if_pos hpos]
    exact hl.linkSlot Slot.noConfusion

end

end Fms
