import Fms.Dict.Forest

/-!
# A dictionary file is a finite map

* `Wf h trees`: the invariant of an open database, with the trees that are stored in it;
* `contents`: the map that the trees stand for;
* **`tchdbGet_spec`**, **`tchdbPutimpl_spec`**, **`tchdbOut_spec`**: what the operations return, and
  what they do to the map.
-/

namespace Fms

open Bytes Blocks SearchTree

/-- The header is what the database would write there. -/
def Head (h : Tchdb) : Prop := Holds h.file 0 (tcdumpmeta h)

/-- An open database: the trees of its buckets, each with the keys of its bucket in order. -/
structure Wf (h : Tchdb) (trees : ℕ → RecTree) : Prop where
  bnum : 0 < h.bnum
  forest : Forest h trees
  sorted : ∀ b < h.bnum, Sorted keyCmp (trees b).entries
  home : ∀ b < h.bnum, ∀ e ∈ (trees b).entries, tchdbBidx h.toHdbLayout e.key = b
  count : h.rnum = (allEntries h.bnum trees).length
  head : Head h

/-- What is stored under a key. -/
def contents (g : HdbLayout) (trees : ℕ → RecTree) (k : Key) : Option (List UInt8) :=
  (find keyCmp k (trees (tchdbBidx g k)).entries).map Body.vbuf

section
variable {h h' : Tchdb} {trees : ℕ → RecTree} {key : Key} {v : List UInt8} {fuel : ℕ}

theorem Wf.bidx_lt (hw : Wf h trees) (k : Key) : tchdbBidx h.toHdbLayout k < h.bnum := Nat.mod_lt _ hw.bnum

theorem Bucket.read {b : ℕ} {t : RecTree} (hb : Bucket h b t.root) (hgood : GoodPtr h.toHdbLayout t.root) :
    tchdbGetbucket h b = t.root := by
  have hread := hb.readAt_eq
  rw [length_ptr] at hread
  rw [tchdbGetbucket, hread, ptr, ofLeBytes_leBytes, hgood.read]

theorem Wf.length_le (hw : Wf h trees) {b : ℕ} (hb : b < h.bnum) : (trees b).entries.length ≤ h.rnum := by
  rw [hw.count, (allEntries_perm hb trees).length_eq, List.length_append]
  exact Nat.le_add_right _ _

/-- The way down from the bucket of a key is that of its tree. -/
theorem Wf.search (hw : Wf h trees) (key : Key) (hfuel : h.rnum < fuel) :
    ∃ r, tchdbSearch fuel h key = .ok r ∧
      FoundAt h.toHdbLayout (descend keyCmp key .top (trees (tchdbBidx h.toHdbLayout key))).1
        (descend keyCmp key .top (trees (tchdbBidx h.toHdbLayout key))).2 r := by
  have hb := hw.bidx_lt key
  have hmem : ∀ e ∈ (trees (tchdbBidx h.toHdbLayout key)).entries, e ∈ allEntries h.bnum trees := fun e he =>
    (allEntries_perm hb trees).mem_iff.mpr (List.mem_append_left _ he)
  rw [tchdbSearch, (hw.forest.buckets _ hb).read (goodPtr_root hw.forest.space hmem)]
  have hlen : h.file.length = h.fsiz := hw.forest.space.elim fun _ hs => hs.len
  exact tchdbFind_tree hlen _ (hw.forest.stored _ hb) (fun e he => hw.forest.space.inFile e (hmem e he)) .top default
    ((hw.length_le hb).trans_lt hfuel)

theorem entries_plug_node (c : Way Key Body) (l : RecTree) (p : ℕ) (k : Key) (b : Body) (r : RecTree) :
    (c.plug (.node l p k b r)).entries = (c.before ++ l.entries) ++ ⟨p, k, b⟩ :: (r.entries ++ c.after) := by
  rw [Way.entries_plug, PTree.entries]
  simp only [List.append_assoc, List.cons_append]

/-- A tree by the way down to a key: either the key is not in it, or it is in the node at the end. -/
inductive Parted (key : Key) (t : RecTree) : Way Key Body → RecTree → Prop
  | absent {c : Way Key Body} (ht : t = c.plug .nil) (hc : c.Between keyCmp key) : Parted key t c .nil
  | present {c : Way Key Body} {l r : RecTree} {p : ℕ} {b : Body} (ht : t = c.plug (.node l p key b r)) :
      Parted key t c (.node l p key b r)

theorem parted (key : Key) {t : RecTree} (hs : Sorted keyCmp t.entries) :
    Parted key t (descend keyCmp key .top t).1 (descend keyCmp key .top t).2 := by
  have hplug : (descend keyCmp key .top t).1.plug (descend keyCmp key .top t).2 = t := descend_plug key .top t
  have hbetween : (descend keyCmp key .top t).1.Between keyCmp key :=
    descend_between (c := .top) (t := t) hs (between_top keyCmp key)
  have hcases : (descend keyCmp key .top t).2 = .nil ∨
      ∃ l p k b r, (descend keyCmp key .top t).2 = .node l p k b r ∧ keyCmp key k = .eq := descend_cases key .top t
  rcases hcases with hnil | ⟨l, p, k, b, r, hnode, heq⟩
  · rw [hnil] at hplug ⊢
    exact .absent hplug.symm hbetween
  · obtain rfl := keyCmp_eq.mp heq
    rw [hnode] at hplug ⊢
    exact .present hplug.symm

theorem find_absent {c : Way Key Body} (hc : c.Between keyCmp key) : find keyCmp key (c.plug .nil).entries = none := by
  refine find_of_forall fun e he => ?_
  rw [Way.entries_plug, PTree.entries_nil, List.append_nil] at he
  rcases List.mem_append.mp he with he | he
  · rw [hc.1 e he]
    exact Ordering.noConfusion
  · rw [hc.2 e he]
    exact Ordering.noConfusion

theorem find_present {c : Way Key Body} {l r : RecTree} {p : ℕ} {b : Body}
    (hs : Sorted keyCmp (c.plug (.node l p key b r)).entries) (k : Key) :
    find keyCmp k (c.plug (.node l p key b r)).entries =
      if k = key then some b else find keyCmp k ((c.before ++ l.entries) ++ (r.entries ++ c.after)) := by
  rw [entries_plug_node] at hs ⊢
  rw [find_middle hs]
  simp only [keyCmp_eq]

/-! ## Looking up -/

theorem tchdbGet_spec (hw : Wf h trees) (key : Key) (hfuel : h.rnum < fuel) :
    tchdbGet fuel h key =
      match contents h.toHdbLayout trees key with
      | none => .error .tcenorec
      | some v => .ok v := by
  have hb := hw.bidx_lt key
  obtain ⟨r, hsearch, hfound⟩ := hw.search key hfuel
  have hsorted := hw.sorted _ hb
  have hparted := parted key hsorted
  rw [tchdbGet, hsearch, ok_bind, contents]
  generalize (descend keyCmp key .top (trees (tchdbBidx h.toHdbLayout key))).1 = c at hfound hparted
  generalize (descend keyCmp key .top (trees (tchdbBidx h.toHdbLayout key))).2 = t at hfound hparted
  cases hparted with
  | absent ht hc =>
    cases hfound
    rw [ht, find_absent hc]
    rfl
  | @present l r p b ht =>
    have hst := hw.forest.stored _ hb
    rw [ht] at hsorted hst
    obtain ⟨-, hat, -, -⟩ := ((stored_plug c _).mp hst).2
    have hin := hw.forest.space.inFile ⟨p, key, b⟩ ((allEntries_perm hb trees).mem_iff.mpr
      (List.mem_append_left _ (by rw [ht, entries_plug_node]; simp)))
    have hlen : h.file.length = h.fsiz := hw.forest.space.elim fun _ hs => hs.len
    rw [ht, find_present hsorted, if_pos rfl]
    cases hfound with
    | some hv =>
      rcases hv with rfl | rfl
      · rfl
      · show (tchdbReadRecBody h _ >>= _) = _
        rw [tchdbReadRecBody_node hat (by rw [hlen]; exact hin), ok_bind]
        rfl

/-! ## The header -/

theorem Space.setRnum {live : List Block} {lost : List Hdbfb} (hs : Space h live lost) (n : ℕ) :
    Space (Fms.setRnum h n) live lost := by
  have hs' : Space { h with rnum := n } live lost :=
    hs.withBlocks rfl rfl rfl le_rfl ⟨hs.blocks.part, hs.blocks.aligned, hs.blocks.free⟩
  have hfrec := hs.le_frec
  exact hs'.writeFront _ (by rw [length_leBytes]; show 48 + 8 ≤ h.frec; omega)

theorem getElem?_setRnum {live : List Block} {lost : List Hdbfb} (hs : Space h live lost) (n : ℕ) {i : ℕ}
    (hi : i < 48 ∨ 56 ≤ i) : (Fms.setRnum h n).file[i]? = h.file[i]? := by
  have hfrec := hs.le_frec
  have hstart := hs.start
  have hlen := hs.len
  show (writeAt h.file 48 (leBytes 8 n))[i]? = h.file[i]?
  rw [getElem?_writeAt (by omega), length_leBytes]
  split_ifs <;> first | rfl | omega

theorem Forest.setRnum (hf : Forest h trees) (n : ℕ) : Forest (Fms.setRnum h n) trees := by
  obtain ⟨lost, hs⟩ := hf.space
  refine ⟨⟨lost, hs.setRnum n⟩, fun b hb => (hf.buckets b hb).congr rfl fun i hi _ => ?_, fun b hb => ?_⟩
  · exact getElem?_setRnum hs n (Or.inr (by rw [hdbHeadSiz] at hi; omega))
  · refine (hf.stored b hb).frame fun e he _ _ hn => hn.congr rfl fun i hi _ => ?_
    have hmem := (allEntries_perm hb trees).mem_iff.mpr (List.mem_append_left _ he)
    have hin := hs.blocks.part.inside _ (List.mem_append_left _ (List.mem_map_of_mem hmem))
    have hfrec := hs.le_frec
    simp only [blockOf] at hin
    exact getElem?_setRnum hs n (Or.inr (by omega))

theorem head_iff : Head h ↔ Holds h.file 0 (metaFront h.toHdbLayout h.flags) ∧ Holds h.file 48 (leBytes 8 h.rnum) ∧
    Holds h.file 56 (leBytes 8 h.fsiz) ∧ Holds h.file 64 (leBytes 8 h.frec ++ List.replicate 56 0) := by
  have happ : tcdumpmeta h = metaFront h.toHdbLayout h.flags ++ (leBytes 8 h.rnum ++ (leBytes 8 h.fsiz ++
      (leBytes 8 h.frec ++ List.replicate 56 0))) := by
    rw [tcdumpmeta]
    simp only [List.append_assoc]
  rw [Head, happ, holds_append, length_metaFront, holds_append, length_leBytes, holds_append, length_leBytes]

theorem Head.congr (hh : Head h) (hlayout : h'.toHdbLayout = h.toHdbLayout) (hflags : h'.flags = h.flags)
    (hrnum : h'.rnum = h.rnum) (hfsiz : h'.fsiz = h.fsiz)
    (hfront : ∀ i, i < hdbHeadSiz → h'.file[i]? = h.file[i]?) : Head h' := by
  have hmeta : tcdumpmeta h' = tcdumpmeta h := by
    rw [tcdumpmeta, tcdumpmeta, hlayout, hflags, hrnum, hfsiz]
  rw [Head, hmeta]
  refine Holds.congr hh fun i _ hi' => hfront i ?_
  rwa [length_tcdumpmeta, Nat.zero_add] at hi'

theorem Relinked.headOf (hl : Relinked h h') (hh : Head h) : Head h' :=
  hh.congr hl.layout hl.flags hl.rnum hl.fsiz hl.head

theorem Head.setRnum {live : List Block} {lost : List Hdbfb} (hs : Space h live lost) (hh : Head h) (n : ℕ) :
    Head (Fms.setRnum h n) := by
  have hle : 48 ≤ h.file.length := by
    have := hs.le_frec
    have := hs.start
    have := hs.len
    omega
  obtain ⟨hfront, -, hfsiz, hfrec⟩ := head_iff.mp hh
  refine head_iff.mpr ⟨hfront.congr fun i _ hi' => ?_, holds_writeAt hle _, hfsiz.congr fun i hi _ => ?_,
    hfrec.congr fun i hi _ => ?_⟩
  · rw [length_metaFront, Nat.zero_add] at hi'
    exact getElem?_setRnum hs n (Or.inl hi')
  · exact getElem?_setRnum hs n (Or.inr hi)
  · exact getElem?_setRnum hs n (Or.inr (by omega))

/-! ## What changes in the map -/

theorem contents_update {g : HdbLayout} {t' : RecTree} {x : Option Body}
    (hfind : ∀ k, find keyCmp k t'.entries = if k = key then x else find keyCmp k (trees (tchdbBidx g key)).entries)
    (k : Key) : contents g (Function.update trees (tchdbBidx g key) t') k =
      if k = key then x.map Body.vbuf else contents g trees k := by
  rw [contents, contents]
  rcases eq_or_ne (tchdbBidx g k) (tchdbBidx g key) with heq | hne
  · rw [heq, Function.update_self, hfind]
    split_ifs <;> rfl
  · rw [Function.update_of_ne hne, if_neg (fun he => hne (congrArg _ he))]

theorem Wf.update (hw : Wf h trees) {t' : RecTree} (hlayout : h'.toHdbLayout = h.toHdbLayout)
    (hf : Forest h' (Function.update trees (tchdbBidx h.toHdbLayout key) t')) (hs : Sorted keyCmp t'.entries)
    (hhome : ∀ e ∈ t'.entries, e.key = key ∨ ∃ e' ∈ (trees (tchdbBidx h.toHdbLayout key)).entries, e'.key = e.key)
    (hcount : h'.rnum = t'.entries.length + (elsewhere h.bnum trees (tchdbBidx h.toHdbLayout key)).length)
    (hhead : Head h') : Wf h' (Function.update trees (tchdbBidx h.toHdbLayout key) t') := by
  have hb := hw.bidx_lt key
  refine ⟨?_, hf, fun b hb' => ?_, fun b hb' e he => ?_, ?_, hhead⟩
  · rw [hlayout]
    exact hw.bnum
  · rw [hlayout] at hb'
    rcases eq_or_ne b (tchdbBidx h.toHdbLayout key) with rfl | hne
    · rwa [Function.update_self]
    · rw [Function.update_of_ne hne]
      exact hw.sorted b hb'
  · rw [hlayout] at hb' ⊢
    rcases eq_or_ne b (tchdbBidx h.toHdbLayout key) with rfl | hne
    · rw [Function.update_self] at he
      rcases hhome e he with heq | ⟨e', he', heq⟩
      · rw [heq]
      · rw [← heq]
        exact hw.home _ hb e' he'
    · rw [Function.update_of_ne hne] at he
      exact hw.home b hb' e he
  · rw [hcount, hlayout, (allEntries_update hb trees t').length_eq, List.length_append]

/-! ## Storing -/

/-- There is room for a record at the end of the file, by what the code takes as its size. -/
def Room (h : Tchdb) (key : Key) (v : List UInt8) : Prop :=
  h.fsiz + (hdbMaxHsiz + key.length + v.length) + h.align ≤ 2 ^ 31

theorem need_le (g : HdbLayout) (key : Key) (v : List UInt8) : need g key v ≤ 30 + key.length + v.length := by
  have := recHsiz_le (g := g) key.length v.length
  rw [need]
  omega

/-- What has been written is the node of a subtree, with subtrees that were there before. -/
theorem Written.loose {bidx q : ℕ} {c : Way Key Body} {t l r : RecTree} {off psiz : ℕ}
    (hl : Loose h trees bidx c q t)
    (hw : Written h h' ((l.entries ++ r.entries ++ (c.entries ++ elsewhere h.bnum trees bidx)).map
      (blockOf h.toHdbLayout)) off l.root key ⟨psiz, v⟩ r.root)
    (hsl : l.Stored (NodeAt h)) (hsr : r.Stored (NodeAt h))
    (hmem : ∀ e ∈ l.entries ++ r.entries, e ∈ t.entries) :
    Loose h' trees bidx c q (.node l off key ⟨psiz, v⟩ r) := by
  obtain ⟨lost, hs⟩ := hw.space
  have hlayout := hw.layout
  have hsame : ∀ es : List (Entry Key Body),
      (∀ e ∈ es, e ∈ l.entries ++ r.entries ++ (c.entries ++ elsewhere h.bnum trees bidx)) → SameBlocks h h' es :=
    fun es hes e he => hw.blocks _ (List.mem_map_of_mem (hes e he))
  have hkept : ∀ {t₁ : RecTree}, t₁.Stored (NodeAt h) → (∀ e ∈ t₁.entries, e ∈ l.entries ++ r.entries) →
      t₁.Stored (NodeAt h') := fun hst hin =>
    hst.frame fun e he => (hsame [e] fun x hx => by
      obtain rfl := List.mem_singleton.mp hx
      exact List.mem_append_left _ (hin x he)).kept hlayout List.mem_cons_self
  have hgood : ∀ {t₁ : RecTree}, (∀ e ∈ t₁.entries, e ∈ l.entries ++ r.entries) → GoodPtr h'.toHdbLayout t₁.root := by
    intro t₁ hin
    rw [hlayout]
    exact goodPtr_root hl.space fun e he => List.mem_append_left _ (hmem e (hin e he))
  have hin := hs.blocks.part.inside _ List.mem_cons_self
  have hsmall := hs.small
  have hfrec := hs.le_frec
  simp only at hin
  have hspace : Holding h' ((PTree.node l off key ⟨psiz, v⟩ r).entries ++ (c.entries ++ elsewhere h.bnum trees bidx)) := by
    have hhold : Holding h' (⟨off, key, ⟨psiz, v⟩⟩ ::
        (l.entries ++ r.entries ++ (c.entries ++ elsewhere h.bnum trees bidx))) := by
      refine ⟨lost, ?_⟩
      rw [hlayout]
      exact hs
    exact hhold.perm (List.perm_middle.symm.append_right _)
  refine hl.replace hlayout (fun i hi hi' => hw.front i hi' (Or.inr (by rw [hdbHeadSiz] at hi; omega)))
    (hsame _ fun e he => List.mem_append_right _ he) hspace ⟨by omega, ?_, ?_, ?_⟩
  · refine ⟨?_, hgood fun e he => List.mem_append_left _ he, hgood fun e he => List.mem_append_right _ he, ?_⟩
    · rw [hlayout]
      exact hw.node
    · rw [hlayout]
      exact ⟨hw.psiz, by omega⟩
  · exact hkept hsl fun e he => List.mem_append_left _ he
  · exact hkept hsr fun e he => List.mem_append_right _ he

theorem Written.headOf {live : List Block} {off l r : ℕ} {b : Body} (hwr : Written h h' live off l key b r)
    (hfrec : 128 ≤ h.frec) (hh : Head h) : Head h' := by
  obtain ⟨hfront, hrnum, hfsiz, hrest⟩ := head_iff.mp hh
  refine head_iff.mpr ⟨?_, ?_, hwr.head hfsiz, ?_⟩
  · rw [hwr.layout, hwr.flags]
    refine hfront.congr fun i _ hi' => ?_
    rw [length_metaFront] at hi'
    exact hwr.front i (by omega) (Or.inl (by omega))
  · rw [hwr.rnum]
    refine hrnum.congr fun i _ hi' => ?_
    rw [length_leBytes] at hi'
    exact hwr.front i (by omega) (Or.inl hi')
  · rw [hwr.layout]
    refine hrest.congr fun i hi hi' => ?_
    rw [List.length_append, length_leBytes, List.length_replicate] at hi'
    exact hwr.front i (by omega) (Or.inr hi)

/-- What storing a record does to a database. -/
structure Stored (h h' : Tchdb) (trees trees' : ℕ → RecTree) (key : Key) (v : List UInt8) : Prop where
  wf : Wf h' trees'
  layout : h'.toHdbLayout = h.toHdbLayout
  flags : h'.flags = h.flags
  fsiz : h'.fsiz ≤ h.fsiz + (hdbMaxHsiz + key.length + v.length) + h.align
  contents : ∀ k, contents h.toHdbLayout trees' k = if k = key then some v else contents h.toHdbLayout trees k

/-- A record has been written and linked, with `t'` as the tree of its bucket. -/
structure Put (h h' : Tchdb) (trees : ℕ → RecTree) (key : Key) (v : List UInt8) (t' : RecTree) : Prop where
  forest : Forest h' (Function.update trees (tchdbBidx h.toHdbLayout key) t')
  head : Head h'
  layout : h'.toHdbLayout = h.toHdbLayout
  flags : h'.flags = h.flags
  rnum : h'.rnum = h.rnum
  fsiz : h'.fsiz ≤ h.fsiz + (hdbMaxHsiz + key.length + v.length) + h.align

theorem Wf.place (hw : Wf h trees) {c : Way Key Body} {q : ℕ} {t l r : RecTree} {h₁ : Tchdb}
    (rec : Tchrec) (hroom : Room h key v) (hloose : Loose h trees (tchdbBidx h.toHdbLayout key) c q t) (hsl : l.Stored (NodeAt h))
    (hsr : r.Stored (NodeAt h)) (hmem : ∀ e ∈ l.entries ++ r.entries, e ∈ t.entries)
    (hagree : Agree h h₁ ((l.entries ++ r.entries ++
      (c.entries ++ elsewhere h.bnum trees (tchdbBidx h.toHdbLayout key))).map (blockOf h.toHdbLayout)))
    (hfsiz : h₁.fsiz = h.fsiz)
    (hplace : Place h₁ rec ((l.entries ++ r.entries ++
      (c.entries ++ elsewhere h.bnum trees (tchdbBidx h.toHdbLayout key))).map (blockOf h.toHdbLayout)))
    (hput : IsPut rec l.root key v r.root) (fuel : ℕ) :
    ∃ h' off psiz, tchdbWriteRec (tchdbBidx h.toHdbLayout key) (entoffOf h.toHdbLayout c.slot) (fuel + 2) h₁ rec = .ok h' ∧
      Put h h' trees key v (c.plug (.node l off key ⟨psiz, v⟩ r)) := by
  have hneed := need_le h.toHdbLayout key v
  rw [Room, hdbMaxHsiz] at hroom
  obtain ⟨lost, hs⟩ := hloose.space
  obtain ⟨h₂, off, psiz, heq, hwr⟩ := writeRec_spec (tchdbBidx h.toHdbLayout key) (entoffOf h.toHdbLayout c.slot) fuel
    hplace hput (by rw [hagree.layout, hfsiz]; omega)
  have hwr := hagree.written hfsiz hs.le_frec hwr
  obtain ⟨hforest, hlinked⟩ := (Written.loose hloose hwr hsl hsr hmem).link
  rw [hwr.layout] at hforest hlinked
  refine ⟨_, off, psiz, heq, hforest, hlinked.headOf (hwr.headOf hs.le_frec hw.head), hlinked.layout.trans hwr.layout,
    hlinked.flags.trans hwr.flags, hlinked.rnum.trans hwr.rnum, hlinked.fsiz.trans_le (hwr.fsiz.trans ?_)⟩
  rw [hdbMaxHsiz]
  simp only
  omega

/-- A key that is not there gets a record of its own. -/
theorem put_absent (hw : Wf h trees) (hroom : Room h key v) {c : Way Key Body}
    (ht : trees (tchdbBidx h.toHdbLayout key) = c.plug .nil) (hc : c.Between keyCmp key)
    (hsearch : tchdbSearch (fuel + 2) h key = .ok (none, entoffOf h.toHdbLayout c.slot)) :
    ∃ h' trees', tchdbPutimpl (fuel + 2) h key v = .ok h' ∧ Stored h h' trees trees' key v := by
  have hb := hw.bidx_lt key
  have halign : 0 < h.align := Nat.two_pow_pos _
  have hroom' := hroom
  rw [Room, hdbMaxHsiz] at hroom'
  have hloose := hw.forest.loose hb ht
  obtain ⟨lost, hs⟩ := hloose.space
  have hmod : (hdbMaxHsiz + key.length + v.length) % 2 ^ 32 = 32 + key.length + v.length :=
    Nat.mod_eq_of_lt (by rw [hdbMaxHsiz]; omega)
  obtain ⟨hagree, hfsiz, -, hfound⟩ := hs.search
    { (default : Tchrec) with rsiz := 32 + key.length + v.length } (by simp only; omega) (Or.inr (by simp only; omega)) (by simp only; omega)
  rw [tchdbPutimpl, hsearch, ok_bind]
  simp only [hmod]
  generalize (tchdbFbpSearch h { (default : Tchrec) with rsiz := 32 + key.length + v.length }).1 = h₁ at hagree hfsiz hfound ⊢
  generalize (tchdbFbpSearch h { (default : Tchrec) with rsiz := 32 + key.length + v.length }).2 = rec₁ at hfound ⊢
  have hplace : Place h₁ { rec₁ with
      hash := tcrechash key, left := 0, right := 0, ksiz := key.length, vsiz := v.length, psiz := 0
      kbuf := some key, vbuf := some v }
      ((PTree.nil.entries ++ (c.entries ++ elsewhere h.bnum trees (tchdbBidx h.toHdbLayout key))).map
        (blockOf h.toHdbLayout)) := by
    rcases hfound with ⟨hsiz, hoff, hspace⟩ | ⟨hsiz, hspace⟩
    · exact Or.inl ⟨hsiz, hoff.trans hfsiz.symm, hspace⟩
    · exact Or.inr ⟨le_trans (show 5 ≤ 32 + key.length + v.length by omega) hsiz, hspace⟩
  obtain ⟨h', off, psiz, heq, hput⟩ := hw.place (l := .nil) (r := .nil) _ hroom hloose trivial trivial (fun _ he => he)
    hagree hfsiz hplace ⟨rfl, rfl, rfl, rfl, rfl, rfl, rfl⟩ fuel
  have hold : (trees (tchdbBidx h.toHdbLayout key)).entries = c.before ++ c.after := by
    rw [ht, Way.entries_plug, PTree.entries_nil, List.append_nil]
  have hnew : (c.plug (.node .nil off key ⟨psiz, v⟩ .nil)).entries = c.before ++ ⟨off, key, ⟨psiz, v⟩⟩ :: c.after := by
    rw [entries_plug_node, PTree.entries_nil, List.append_nil, List.nil_append]
  have hsorted : Sorted keyCmp (c.plug (.node .nil off key ⟨psiz, v⟩ .nil)).entries := by
    have hbefore := hw.sorted _ hb
    rw [hold] at hbefore
    rw [hnew]
    exact sorted_middle.mpr ⟨hbefore, fun a ha => Std.OrientedCmp.gt_iff_lt.mpr (hc.1 a ha), hc.2⟩
  obtain ⟨lost', hs'⟩ := hput.forest.space
  refine ⟨setRnum h' (h'.rnum + 1), Function.update trees (tchdbBidx h.toHdbLayout key)
    (c.plug (.node .nil off key ⟨psiz, v⟩ .nil)), by rw [heq]; rfl, ?_, hput.layout, hput.flags, hput.fsiz,
    contents_update (x := some ⟨psiz, v⟩) fun k => ?_⟩
  · refine hw.update hput.layout (hput.forest.setRnum _) hsorted (fun e he => ?_) ?_ ?_
    · rw [hnew] at he
      rcases List.mem_cons.mp (List.perm_middle.mem_iff.mp he) with rfl | he
      · exact Or.inl rfl
      · exact Or.inr ⟨e, by rwa [hold], rfl⟩
    · show h'.rnum + 1 = _
      rw [hput.rnum, hw.count, (allEntries_perm hb trees).length_eq, hold, hnew]
      simp only [List.length_append, List.length_cons]
      omega
    · exact hput.head.setRnum hs' _
  · rw [hnew] at hsorted ⊢
    rw [find_middle hsorted, hold]
    simp only [keyCmp_eq]

/-- The record of a key that is there is written anew, with its children. -/
theorem put_present (hw : Wf h trees) (hroom : Room h key v) {c : Way Key Body} {l r : RecTree} {p : ℕ} {b : Body}
    {vbuf : Option (List UInt8)} (ht : trees (tchdbBidx h.toHdbLayout key) = c.plug (.node l p key b r))
    (hsearch : tchdbSearch (fuel + 2) h key =
      .ok (some (nodeRec h.toHdbLayout p l.root key b r.root (some key) vbuf), entoffOf h.toHdbLayout c.slot)) :
    ∃ h' trees', tchdbPutimpl (fuel + 2) h key v = .ok h' ∧ Stored h h' trees trees' key v := by
  have hb := hw.bidx_lt key
  have hloose := hw.forest.loose hb ht
  obtain ⟨lost, hs⟩ := hloose.space
  rw [tchdbPutimpl, hsearch, ok_bind]
  have hperm : ((PTree.node l p key b r).entries ++
      (c.entries ++ elsewhere h.bnum trees (tchdbBidx h.toHdbLayout key))).Perm
      (⟨p, key, b⟩ :: (l.entries ++ r.entries ++ (c.entries ++ elsewhere h.bnum trees (tchdbBidx h.toHdbLayout key)))) :=
    List.perm_middle.append_right _
  have hspace : Space h (⟨p, nodeLen h.toHdbLayout key b⟩ ::
      (l.entries ++ r.entries ++ (c.entries ++ elsewhere h.bnum trees (tchdbBidx h.toHdbLayout key))).map
        (blockOf h.toHdbLayout)) lost :=
    { hs with blocks := hs.blocks.perm_live (hperm.map _) }
  have hsize : 5 ≤ nodeLen h.toHdbLayout key b := by
    have := le_recHsiz (g := h.toHdbLayout) key.length b.vbuf.length
    rw [nodeLen]
    omega
  obtain ⟨-, -, hsl, hsr⟩ := hloose.sub
  obtain ⟨h', off, psiz, heq, hput⟩ := hw.place (l := l) (r := r)
    { nodeRec h.toHdbLayout p l.root key b r.root (some key) vbuf with
      ksiz := key.length, vsiz := v.length, kbuf := some key, vbuf := some v }
    hroom hloose hsl hsr (fun e he => List.perm_middle.mem_iff.mpr (List.mem_cons_of_mem _ he))
    ⟨rfl, rfl, rfl, fun _ _ => rfl, fun _ _ _ _ _ => rfl⟩ rfl (Or.inr ⟨hsize, lost, hspace⟩)
    ⟨rfl, rfl, rfl, rfl, rfl, rfl, rfl⟩ fuel
  have hold := entries_plug_node c l p key b r
  have hnew := entries_plug_node c l off key ⟨psiz, v⟩ r
  have hbefore := hw.sorted _ hb
  rw [ht] at hbefore
  have hsorted : Sorted keyCmp (c.plug (.node l off key ⟨psiz, v⟩ r)).entries := by
    rw [hold] at hbefore
    obtain ⟨hrest, hleft, hright⟩ := sorted_middle.mp hbefore
    rw [hnew]
    exact sorted_middle.mpr ⟨hrest, hleft, hright⟩
  refine ⟨h', Function.update trees (tchdbBidx h.toHdbLayout key) (c.plug (.node l off key ⟨psiz, v⟩ r)), heq, ?_,
    hput.layout, hput.flags, hput.fsiz, contents_update (x := some ⟨psiz, v⟩) fun k => ?_⟩
  · refine hw.update hput.layout hput.forest hsorted (fun e he => ?_) ?_ hput.head
    · rw [hnew] at he
      rcases List.mem_cons.mp (List.perm_middle.mem_iff.mp he) with rfl | he
      · exact Or.inl rfl
      · refine Or.inr ⟨e, ?_, rfl⟩
        rw [ht, hold]
        exact List.perm_middle.mem_iff.mpr (List.mem_cons_of_mem _ he)
    · rw [hput.rnum, hw.count, (allEntries_perm hb trees).length_eq, ht, hold, hnew]
      simp only [List.length_append, List.length_cons]
  · rw [find_present hsorted, ht, find_present hbefore]
    split_ifs <;> rfl

theorem tchdbPutimpl_spec (hw : Wf h trees) (hroom : Room h key v) (hfuel : h.rnum + 2 ≤ fuel) :
    ∃ h' trees', tchdbPutimpl fuel h key v = .ok h' ∧ Stored h h' trees trees' key v := by
  obtain ⟨fuel, rfl⟩ := Nat.exists_eq_add_of_le' ((Nat.le_add_left 2 h.rnum).trans hfuel)
  obtain ⟨r, hsearch, hfound⟩ := hw.search key (show h.rnum < fuel + 2 by omega)
  have hparted := parted key (hw.sorted _ (hw.bidx_lt key))
  generalize (descend keyCmp key .top (trees (tchdbBidx h.toHdbLayout key))).1 = c at hfound hparted
  generalize (descend keyCmp key .top (trees (tchdbBidx h.toHdbLayout key))).2 = t at hfound hparted
  cases hparted with
  | absent ht hc =>
    cases hfound
    exact put_absent hw hroom ht hc hsearch
  | present ht =>
    cases hfound
    exact put_present hw hroom ht hsearch

end

end Fms
