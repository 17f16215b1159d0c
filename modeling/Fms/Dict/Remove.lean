import Fms.Dict.Refine

/-!
# Removing a record

* **`tchdbLast_tree`**: going to the right as far as possible, in the tree that is stored there;
* **`removeChildren_spec`**: what takes the place of a record has the entries of both of its children;
* **`tchdbOut_spec`**: the map without a key.
-/

namespace Fms

open Bytes Blocks SearchTree

section
variable {h h' : Tchdb} {trees : ℕ → RecTree} {key : Key} {fuel : ℕ} {es : List (Entry Key Body)} {l r : RecTree}

theorem tchdbLast_tree (hlen : h.file.length = h.fsiz) (t : RecTree) (hst : t.Stored (NodeAt h))
    (hin : InFile h t.entries) (c : Way Key Body) (rec : Tchrec) (hright : rec.right = t.root)
    (hslot : t = .nil → c.slot = .right rec.off) {fuel : ℕ} (hfuel : t.entries.length < fuel) :
    ∃ last, tchdbLast h fuel rec = .ok last ∧ (toRight c t).slot = .right last.off := by
  induction t generalizing c rec fuel with
  | nil =>
    obtain ⟨fuel, rfl⟩ := Nat.exists_eq_succ_of_ne_zero (Nat.ne_of_gt (Nat.zero_lt_of_lt hfuel))
    refine ⟨rec, ?_, hslot rfl⟩
    rw [tchdbLast, hright, PTree.root, if_neg (lt_irrefl 0)]
  | node l p k b r _ ihr =>
    obtain ⟨fuel, rfl⟩ := Nat.exists_eq_succ_of_ne_zero (Nat.ne_of_gt (Nat.zero_lt_of_lt hfuel))
    obtain ⟨hp, hat, -, hr⟩ := hst
    simp only [PTree.entries, InFile, List.forall_mem_append, List.forall_mem_cons] at hin
    obtain ⟨-, hinp, hinr⟩ := hin
    rw [PTree.entries, List.length_append, List.length_cons] at hfuel
    have hp' : rec.right = p := hright
    obtain ⟨kbuf, vbuf, hread, -, -⟩ := tchdbReadRec_node hat hinp hlen { rec with off := rec.right } hp'
    have hstep : tchdbLast h (fuel + 1) rec =
        tchdbLast h fuel (nodeRec h.toHdbLayout p l.root k b r.root kbuf vbuf) := by
      rw [tchdbLast, if_pos (by rw [hp']; exact Nat.pos_of_ne_zero hp), hread, ok_bind]
    rw [hstep]
    exact ihr hr hinr (.right c l p k b) _ rfl (fun _ => rfl) (by omega)

/-- The tree that takes the place of a node: the right subtree at the right end of the left one. -/
def joined (l r : RecTree) : RecTree := (toRight .top l).plug r

theorem entries_joined (l r : RecTree) : (joined l r).entries = l.entries ++ r.entries := by
  rw [joined, Way.entries_plug, before_toRight, after_toRight, Way.before, Way.after, List.nil_append, List.append_nil]

theorem joined_nil (l : RecTree) : joined l .nil = l := toRight_plug .top l

/-- The two subtrees are one, and the other blocks and the front of the file are as they were. -/
structure Joined (h h' : Tchdb) (l r : RecTree) (es : List (Entry Key Body)) : Prop where
  layout : h'.toHdbLayout = h.toHdbLayout
  flags : h'.flags = h.flags
  rnum : h'.rnum = h.rnum
  fsiz : h'.fsiz = h.fsiz
  front : ∀ i, i < h.frec → h'.file[i]? = h.file[i]?
  blocks : SameBlocks h h' es
  space : Holding h' ((joined l r).entries ++ es)
  stored : (joined l r).Stored (NodeAt h')

theorem Joined.refl (hs : Holding h ((joined l r).entries ++ es)) (hst : (joined l r).Stored (NodeAt h)) :
    Joined h h l r es :=
  ⟨rfl, rfl, rfl, rfl, fun _ _ => rfl, fun _ _ _ _ _ => rfl, hs, hst⟩

theorem root_pos {t : RecTree} (hst : t.Stored (NodeAt h)) (hne : t ≠ .nil) : 0 < t.root := by
  cases t with
  | nil => exact absurd rfl hne
  | node _ _ _ _ _ => exact Nat.pos_of_ne_zero hst.1

theorem joined_write (hs : Holding h (l.entries ++ r.entries ++ es)) (hl : l.Stored (NodeAt h))
    (hr : r.Stored (NodeAt h)) (hne : l ≠ .nil) :
    Joined h (h.write (entoffOf h.toHdbLayout (toRight .top l).slot) (ptr h.toHdbLayout r.root)) l r es := by
  have hentries : (toRight .top l).entries = l.entries := by
    rw [Way.entries, before_toRight, after_toRight, Way.before, Way.after, List.nil_append, List.append_nil]
  have hway : (toRight .top l).Stored (NodeAt h) 0 := by
    refine ((stored_plug _ .nil).mp ?_).1
    rw [toRight_plug]
    exact hl
  obtain ⟨e, he, hown⟩ := Way.exists_owner (slot_toRight_ne_top hne .top)
  rw [hentries] at he
  have hnodup := hs.nodup
  rw [List.append_assoc, List.map_append] at hnodup
  obtain ⟨hnodupl, -, hapart⟩ := List.nodup_append.mp hnodup
  obtain ⟨hspace, hfront, hblocks⟩ := slot_write hs (List.mem_append_left _ (List.mem_append_left _ he)) hown r.root
  have hrest : ∀ x ∈ r.entries ++ es, some x.p ≠ (toRight .top l).slot.owner := fun x hx heq => by
    rw [hown] at heq
    exact hapart _ (List.mem_map_of_mem he) _ (List.mem_map_of_mem hx) (Option.some.inj heq).symm
  have hgood : GoodPtr h.toHdbLayout r.root :=
    goodPtr_root hs fun x hx => List.mem_append_left _ (List.mem_append_right _ hx)
  have hkept : ∀ x ∈ l.entries ++ r.entries ++ es, some x.p ≠ (toRight .top l).slot.owner →
      Kept (NodeAt h) (NodeAt (h.write (entoffOf h.toHdbLayout (toRight .top l).slot) (ptr h.toHdbLayout r.root))) x :=
    fun x hx hne _ _ hn => hn.congr rfl (hblocks x hx hne)
  refine ⟨rfl, rfl, rfl, rfl, hfront, fun x hx => ?_, ?_, (stored_plug _ _).mpr ⟨?_, ?_⟩⟩
  · exact hblocks x (List.mem_append_right _ hx) (hrest x (List.mem_append_right _ hx))
  · rw [entries_joined]
    exact hspace
  · refine hway.relink (by rwa [hentries]) (relinked_write hgood) fun x hx => ?_
    rw [hentries] at hx
    exact hkept x (List.mem_append_left _ (List.mem_append_left _ hx))
  · exact hr.frame fun x hx => hkept x (List.mem_append_left _ (List.mem_append_right _ hx))
      (hrest x (List.mem_append_left _ hx))

theorem removeChildren_spec (hs : Holding h (l.entries ++ r.entries ++ es)) (hl : l.Stored (NodeAt h))
    (hr : r.Stored (NodeAt h)) (rec : Tchrec) (hleft : rec.left = l.root) (hright : rec.right = r.root)
    (hfuel : l.entries.length < fuel) :
    ∃ h', removeChildren fuel h rec = .ok (h', (joined l r).root) ∧ Joined h h' l r es := by
  have hlen : h.file.length = h.fsiz := hs.elim fun _ hs => hs.len
  have hhold : Holding h ((joined l r).entries ++ es) := by
    rw [entries_joined]
    exact hs
  rw [removeChildren, hleft, hright]
  rcases eq_or_ne l .nil with rfl | hnl
  · rw [PTree.root, if_neg (fun hc => absurd hc.1 (lt_irrefl 0))]
    rcases eq_or_ne r .nil with rfl | hnr
    · rw [PTree.root, if_neg (fun hc => absurd hc.2 (lt_irrefl 0)), if_pos Nat.one_pos]
      exact ⟨h, rfl, Joined.refl hhold hr⟩
    · rw [if_pos ⟨Nat.one_pos, root_pos hr hnr⟩]
      exact ⟨h, rfl, Joined.refl hhold hr⟩
  have hposl := root_pos hl hnl
  rcases eq_or_ne r .nil with rfl | hnr
  · rw [if_pos ⟨hposl, Nat.one_pos⟩]
    refine ⟨h, ?_, Joined.refl hhold ?_⟩
    · rw [joined_nil]
    · rw [joined_nil]
      exact hl
  have hposr := root_pos hr hnr
  rw [if_neg (by omega), if_neg (by omega), if_neg (by omega)]
  obtain ⟨last, hlast, hslot⟩ := tchdbLast_tree hlen l hl
    (fun e he => hs.inFile e (List.mem_append_left _ (List.mem_append_left _ he))) .top
    { rec with left := l.root, right := l.root }
    rfl (fun he => absurd he hnl) hfuel
  have hroot : (joined l r).root = l.root := by
    rw [joined, Way.root_plug (slot_toRight_ne_top hnl .top) r .nil, toRight_plug]
    rfl
  rw [hlast, ok_bind, hroot]
  have hjoin := joined_write hs hl hr hnl
  rw [hslot] at hjoin
  have hsmall : last.off + 2 + h.besiz < 2 ^ 32 := by
    obtain ⟨e, he, hown⟩ := Way.exists_owner (slot_toRight_ne_top hnl .top)
    rw [hslot] at hown
    rw [Way.entries, before_toRight, after_toRight, Way.before, Way.after, List.nil_append, List.append_nil] at he
    have hgood := (hs.goodPtr (List.mem_append_left _ (List.mem_append_left _ he))).2
    rw [← Option.some.inj hown] at hgood
    rcases besiz_cases h.toHdbLayout with hb | hb <;> omega
  have hoff : (if h.large then last.off + 2 + h.besiz else (last.off + 2 + h.besiz) % 2 ^ 32) =
      entoffOf h.toHdbLayout (.right last.off) := by
    rw [Nat.mod_eq_of_lt hsmall, ite_self]
    rfl
  refine ⟨_, ?_, hjoin⟩
  rw [← hoff]

/-! ## Removing -/

/-- What removing a record does to a database. -/
structure Removed (h h' : Tchdb) (trees trees' : ℕ → RecTree) (key : Key) : Prop where
  wf : Wf h' trees'
  layout : h'.toHdbLayout = h.toHdbLayout
  flags : h'.flags = h.flags
  fsiz : h'.fsiz = h.fsiz
  contents : ∀ k, contents h.toHdbLayout trees' k = if k = key then none else contents h.toHdbLayout trees k

theorem find_removed {as bs : List (Entry Key Body)} {e : Entry Key Body} (hs : Sorted keyCmp (as ++ e :: bs)) (k : Key) :
    find keyCmp k (as ++ bs) = if k = e.key then none else find keyCmp k (as ++ e :: bs) := by
  rw [find_middle hs]
  simp only [keyCmp_eq]
  split_ifs with hk
  · obtain ⟨-, hleft, hright⟩ := sorted_middle.mp hs
    refine find_of_forall fun a ha heq => ?_
    rw [keyCmp_eq] at heq
    rcases List.mem_append.mp ha with ha | ha
    · have := hleft a ha
      rw [← heq, hk, keyCmp_eq.mpr rfl] at this
      exact Ordering.noConfusion this
    · have := hright a ha
      rw [← heq, hk, keyCmp_eq.mpr rfl] at this
      exact Ordering.noConfusion this
  · rfl

theorem out_present (hw : Wf h trees) {c : Way Key Body} {p : ℕ} {b : Body} {vbuf : Option (List UInt8)}
    (ht : trees (tchdbBidx h.toHdbLayout key) = c.plug (.node l p key b r)) (hfuel : h.rnum < fuel)
    (hsearch : tchdbSearch fuel h key =
      .ok (some (nodeRec h.toHdbLayout p l.root key b r.root (some key) vbuf), entoffOf h.toHdbLayout c.slot)) :
    ∃ h' trees', tchdbOut fuel h key = .ok h' ∧ Removed h h' trees trees' key := by
  have hb := hw.bidx_lt key
  have hloose := hw.forest.loose hb ht
  obtain ⟨lost, hs⟩ := hloose.space
  set rest := c.entries ++ elsewhere h.bnum trees (tchdbBidx h.toHdbLayout key) with hrest
  have hperm : ((PTree.node l p key b r).entries ++ rest).Perm (⟨p, key, b⟩ :: (l.entries ++ r.entries ++ rest)) :=
    List.perm_middle.append_right _
  have hspace : Space h (⟨p, nodeLen h.toHdbLayout key b⟩ :: (l.entries ++ r.entries ++ rest).map
      (blockOf h.toHdbLayout)) lost :=
    { hs with blocks := hs.blocks.perm_live (hperm.map _) }
  have hsize : 5 ≤ nodeLen h.toHdbLayout key b := by
    have := le_recHsiz (g := h.toHdbLayout) key.length b.vbuf.length
    rw [nodeLen]
    omega
  obtain ⟨lost₁, hs₁, hagree, hfsiz⟩ := hspace.release hsize
  have hsame : SameBlocks h (tchdbFbpInsert (tchdbWritefb h p (nodeLen h.toHdbLayout key b)) p (nodeLen h.toHdbLayout key b))
      (l.entries ++ r.entries ++ rest) := fun e he => hagree.blocks _ (List.mem_map_of_mem he)
  rw [tchdbOut, hsearch, ok_bind]
  simp only [nodeRec]
  generalize tchdbFbpInsert (tchdbWritefb h p (nodeLen h.toHdbLayout key b)) p (nodeLen h.toHdbLayout key b) = h₁
    at hs₁ hagree hfsiz hsame ⊢
  have hhold : Holding h₁ (l.entries ++ r.entries ++ rest) := by
    refine ⟨lost₁, ?_⟩
    rw [hagree.layout]
    exact hs₁
  obtain ⟨-, -, hsl, hsr⟩ := hloose.sub
  have hlen : l.entries.length < fuel := by
    have := hw.length_le hb
    rw [ht, entries_plug_node] at this
    simp only [List.length_append, List.length_cons] at this
    omega
  obtain ⟨h₂, hremove, hjoin⟩ := removeChildren_spec (r := r) hhold
    (hsl.frame fun e he => hsame.kept hagree.layout (List.mem_append_left _ (List.mem_append_left _ he)))
    (hsr.frame fun e he => hsame.kept hagree.layout (List.mem_append_left _ (List.mem_append_right _ he)))
    (nodeRec h.toHdbLayout p l.root key b r.root (some key) vbuf) rfl rfl hlen
  have hloose₂ : Loose h₂ trees (tchdbBidx h.toHdbLayout key) c p (joined l r) := by
    refine hloose.replace (hjoin.layout.trans hagree.layout) (fun i _ hi => ?_) (fun e he i hi hi' => ?_) hjoin.space hjoin.stored
    · rw [hjoin.front i (by rwa [hagree.layout]), hagree.front i hi]
    · rw [hjoin.blocks e he i hi (by rwa [hagree.layout]), hsame e (List.mem_append_right _ he) i hi hi']
  obtain ⟨hforest, hlinked⟩ := hloose₂.link
  have hlayout₂ : h₂.toHdbLayout = h.toHdbLayout := hjoin.layout.trans hagree.layout
  rw [hlayout₂] at hforest hlinked
  simp only [nodeRec] at hremove
  rw [hremove, ok_bind]
  dsimp only
  generalize linkRec h₂ (tchdbBidx h.toHdbLayout key) (entoffOf h.toHdbLayout c.slot) (joined l r).root = h₃
    at hforest hlinked ⊢
  have hlayout : h₃.toHdbLayout = h.toHdbLayout := hlinked.layout.trans hlayout₂
  have hrnum : h₃.rnum = h.rnum := hlinked.rnum.trans (hjoin.rnum.trans hagree.rnum)
  have hfsiz₃ : h₃.fsiz = h.fsiz := hlinked.fsiz.trans (hjoin.fsiz.trans hfsiz)
  have hold := entries_plug_node c l p key b r
  have hnew : (c.plug (joined l r)).entries = (c.before ++ l.entries) ++ (r.entries ++ c.after) := by
    rw [Way.entries_plug, entries_joined]
    simp only [List.append_assoc]
  have hbefore := hw.sorted _ hb
  rw [ht, hold] at hbefore
  refine ⟨setRnum h₃ (h₃.rnum - 1), Function.update trees (tchdbBidx h.toHdbLayout key) (c.plug (joined l r)), rfl, ?_,
    hlayout, ?_, hfsiz₃, contents_update (x := none) fun k => ?_⟩
  · refine hw.update hlayout (hforest.setRnum _) ?_ (fun e he => ?_) ?_ ?_
    · rw [hnew]
      exact (sorted_middle.mp hbefore).1
    · rw [hnew] at he
      refine Or.inr ⟨e, ?_, rfl⟩
      rw [ht, hold]
      exact List.perm_middle.mem_iff.mpr (List.mem_cons_of_mem _ he)
    · show h₃.rnum - 1 = _
      rw [hrnum, hw.count, (allEntries_perm hb trees).length_eq, ht, hold, hnew]
      simp only [List.length_append, List.length_cons]
      omega
    · have hfrec := hs.le_frec
      have hhead : Head h₂ := hw.head.congr hlayout₂ (hjoin.flags.trans hagree.flags) (hjoin.rnum.trans hagree.rnum)
          (hjoin.fsiz.trans hfsiz) fun i hi => by
        rw [hdbHeadSiz] at hi
        rw [hjoin.front i (by rw [hagree.layout]; omega), hagree.front i (by omega)]
      obtain ⟨lost₃, hs₃⟩ := hforest.space
      exact (hlinked.headOf hhead).setRnum hs₃ _
  · exact hlinked.flags.trans (hjoin.flags.trans hagree.flags)
  · rw [hnew, ht, hold]
    exact find_removed hbefore k

theorem tchdbOut_spec (hw : Wf h trees) (key : Key) (hfuel : h.rnum < fuel) :
    match contents h.toHdbLayout trees key with
    | none => tchdbOut fuel h key = .error .tcenorec
    | some _ => ∃ h' trees', tchdbOut fuel h key = .ok h' ∧ Removed h h' trees trees' key := by
  obtain ⟨r, hsearch, hfound⟩ := hw.search key hfuel
  have hsorted := hw.sorted _ (hw.bidx_lt key)
  have hparted := parted key hsorted
  rw [contents]
  generalize (descend keyCmp key .top (trees (tchdbBidx h.toHdbLayout key))).1 = c at hfound hparted
  generalize (descend keyCmp key .top (trees (tchdbBidx h.toHdbLayout key))).2 = t at hfound hparted
  cases hparted with
  | absent ht hc =>
    cases hfound
    rw [ht, find_absent hc]
    show tchdbOut fuel h key = _
    rw [tchdbOut, hsearch]
    rfl
  | present ht =>
    rw [ht] at hsorted
    rw [ht, find_present hsorted, if_pos rfl]
    cases hfound
    exact out_present hw ht hfuel hsearch

end

end Fms
