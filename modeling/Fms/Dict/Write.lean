import Fms.Dict.Store

/-!
# Where a record is written

`tchdbwriterec` puts a record where it was, into the free block behind it as well, into another block
of the pool, or behind the last record; and whichever it is, it leaves every other record alone.

* `IsPut`: a record as it is handed over to be written;
* `Written`: what has become of the file up to the pointer to the record;
* **`writeRec_spec`**: with room at the end of the file, a record is written.
-/

namespace Fms

open Bytes Blocks

/-- A record to be written, with these children. -/
structure IsPut (rec : Tchrec) (l : ℕ) (key : Key) (v : List UInt8) (r : ℕ) : Prop where
  hash : rec.hash = tcrechash key
  left : rec.left = l
  right : rec.right = r
  ksiz : rec.ksiz = key.length
  vsiz : rec.vsiz = v.length
  kbuf : rec.kbuf = some key
  vbuf : rec.vbuf = some v

/-- The size of a record without padding. -/
def need (g : HdbLayout) (key : Key) (v : List UInt8) : ℕ := recHsiz g key.length v.length + key.length + v.length

/-- The record is in the file, in a block of its own, and no other block in use is changed, nor what is
in front of the first record, but for the size of the file. -/
structure Written (h h' : Tchdb) (live : List Block) (off l : ℕ) (key : Key) (b : Body) (r : ℕ) : Prop where
  layout : h'.toHdbLayout = h.toHdbLayout
  flags : h'.flags = h.flags
  rnum : h'.rnum = h.rnum
  space : ∃ lost, Space h' (⟨off, nodeLen h.toHdbLayout key b⟩ :: live) lost
  node : Holds h'.file off (nodeBytes h.toHdbLayout l key b r)
  psiz : b.psiz < 2 ^ 16
  front : ∀ i, i < h.frec → (i < 56 ∨ 64 ≤ i) → h'.file[i]? = h.file[i]?
  head : Holds h.file 56 (leBytes 8 h.fsiz) → Holds h'.file 56 (leBytes 8 h'.fsiz)
  blocks : ∀ b ∈ live, ∀ i, b.off ≤ i → i < b.off + b.len → h'.file[i]? = h.file[i]?
  fsiz : h'.fsiz ≤ h.fsiz + need h.toHdbLayout key b.vbuf + h.align

variable {h : Tchdb} {live : List Block} {lost : List Hdbfb} {rec : Tchrec} {l r : ℕ} {key : Key} {v : List UInt8}

theorem nodeLen_eq (g : HdbLayout) (key : Key) (v : List UInt8) (psiz : ℕ) :
    nodeLen g key ⟨psiz, v⟩ = need g key v + psiz := rfl

theorem IsPut.recBytes (hp : IsPut rec l key v r) (g : HdbLayout) :
    Fms.recBytes g rec = nodeBytes g l key ⟨rec.psiz, v⟩ r ++ List.replicate (rec.rsiz - need g key v) 0 := by
  have hlen : (nodeBytes g l key ⟨rec.psiz, v⟩ r).length = need g key v :=
    Nat.add_right_cancel (length_nodeBytes (g := g) l key ⟨rec.psiz, v⟩ r)
  rw [← hlen]
  simp only [Fms.recBytes, hp.hash, hp.left, hp.right, hp.ksiz, hp.vsiz, hp.kbuf, hp.vbuf, Option.getD_some, nodeBytes]

theorem Space.writeLive {off n o : ℕ} (hs : Space h (⟨off, n⟩ :: live) lost) (bs : List UInt8) (ho : off ≤ o)
    (hin : o + bs.length ≤ off + n) :
    Space (h.write o bs) (⟨off, n⟩ :: live) lost ∧ Agree h (h.write o bs) live := by
  have hblock := hs.blocks.part.inside ⟨off, n⟩ List.mem_cons_self
  simp only at hblock
  have hlen := hs.len
  have hle : o ≤ h.file.length := by omega
  have hfree : FreeBlocks (h.write o bs) (⟨off, n⟩ :: live) (h.fbpool ++ lost) := hs.blocks.write hle fun fb hfb => by
    have := hs.blocks.part.apart_of_cons (List.mem_append_right _ (List.mem_map_of_mem hfb))
    simp only [Block.Apart, Hdbfb.block] at this
    omega
  have hget : ∀ i, i < off ∨ off + n ≤ i → (h.write o bs).file[i]? = h.file[i]? := fun i hi => by
    rw [Tchdb.write, getElem?_writeAt hle]
    split_ifs <;> first | rfl | omega
  refine ⟨hs.withBlocks rfl rfl ?_ le_rfl hfree, rfl, rfl, rfl, fun i hi => hget i (by omega), fun b hb i hi hi' => ?_⟩
  · rw [Tchdb.write, length_writeAt hle]
    omega
  · have := hs.blocks.part.apart_of_cons (List.mem_append_left _ hb)
    simp only [Block.Apart] at this
    exact hget i (by omega)

theorem Space.writeRec {off psiz : ℕ} (hs : Space h (⟨off, need h.toHdbLayout key v + psiz⟩ :: live) lost)
    (hput : IsPut rec l key v r) (hoff : rec.off = off) (hsiz : rec.rsiz = need h.toHdbLayout key v + psiz)
    (hpsiz : rec.psiz = psiz) (hlt : psiz < 2 ^ 16) :
    Written h (writeBody h h.fsiz rec) live off l key ⟨psiz, v⟩ r := by
  subst hoff hpsiz
  have hlen : (Fms.recBytes h.toHdbLayout rec).length = rec.rsiz := by
    have := length_nodeBytes (g := h.toHdbLayout) l key ⟨rec.psiz, v⟩ r
    rw [hput.recBytes, List.length_append, List.length_replicate]
    rw [nodeLen_eq] at this
    simp only at this
    omega
  have hin := hs.blocks.part.inside _ List.mem_cons_self
  simp only at hin
  obtain ⟨hspace, hagree⟩ := hs.writeLive (Fms.recBytes h.toHdbLayout rec) (le_refl rec.off) (by omega)
  have hbody : writeBody h h.fsiz rec = h.write rec.off (Fms.recBytes h.toHdbLayout rec) :=
    if_neg (not_not.mpr rfl)
  rw [hbody]
  have hfront := hs.front
  rw [HdbLayout.msiz, hdbHeadSiz] at hfront
  refine ⟨rfl, rfl, rfl, ⟨lost, hspace⟩, ?_, hlt, fun i hi _ => hagree.front i hi, fun hh => ?_, hagree.blocks, ?_⟩
  · have hle : rec.off ≤ h.file.length := by rw [hs.len]; omega
    rw [Tchdb.write, hput.recBytes]
    exact (holds_append.mp (holds_writeAt hle _)).1
  · refine hh.congr fun i hi hi' => hagree.front i ?_
    rw [length_leBytes] at hi'
    omega
  · exact (Nat.le_add_right _ _).trans (Nat.le_add_right _ _)

theorem Space.append {n : ℕ} {bs : List UInt8} (hs : Space h live lost) (hn : bs.length = n) (hpos : 0 < n)
    (hdvd : h.align ∣ n) (hroom : h.fsiz + n ≤ 2 ^ 31) :
    Space ({ h with fsiz := h.fsiz + n }.write h.fsiz bs) (⟨h.fsiz, n⟩ :: live) lost where
  apow := hs.apow
  pool := hs.pool
  len := by
    rw [Tchdb.write, length_writeAt hs.len.ge, hn, hs.len]
    exact max_eq_right (Nat.le_add_right _ _)
  small := hroom
  front := hs.front
  start := hs.start.trans (Nat.le_add_right _ _)
  frecAligned := hs.frecAligned
  fsizAligned := dvd_add hs.fsizAligned hdvd
  blocks :=
    { part := hs.blocks.part.extend hs.start hpos
      aligned := fun b hb => by
        rcases List.mem_cons.mp hb with rfl | hb
        · exact ⟨hs.fsizAligned, hdvd⟩
        · exact hs.blocks.aligned b hb
      free := fun fb hfb => (hs.blocks.free fb hfb).congr fun i _ hi' => by
        have := (hs.blocks.inside_free hfb).2.2
        rw [Tchdb.write, getElem?_writeAt hs.len.ge, if_pos (by omega)] }

theorem Space.writeFront {o : ℕ} (hs : Space h live lost) (bs : List UInt8) (hin : o + bs.length ≤ h.frec) :
    Space (h.write o bs) live lost := by
  have hle : o ≤ h.file.length := by
    have := hs.start
    rw [hs.len]
    omega
  refine hs.withBlocks rfl rfl ?_ le_rfl (hs.blocks.write hle fun fb hfb => ?_)
  · have := hs.start
    have := hs.len
    rw [Tchdb.write, length_writeAt hle]
    omega
  · exact Or.inl (hin.trans (hs.blocks.inside_free hfb).1)

theorem need_pos (g : HdbLayout) (key : Key) (v : List UInt8) : 12 ≤ need g key v := by
  have := le_recHsiz (g := g) key.length v.length
  rw [need]
  omega

theorem Space.appendRec {psiz : ℕ} (hs : Space h live lost) (rec : Tchrec) (hput : IsPut rec l key v r) (hoff : rec.off = h.fsiz)
    (hsiz : rec.rsiz = need h.toHdbLayout key v + psiz) (hpsiz : rec.psiz = psiz) (hlt : psiz < h.align)
    (hdvd : h.align ∣ need h.toHdbLayout key v + psiz)
    (hroom : h.fsiz + (need h.toHdbLayout key v + psiz) ≤ 2 ^ 31) :
    Written h (writeBody { h with fsiz := h.fsiz + (need h.toHdbLayout key v + psiz) } h.fsiz rec) live h.fsiz l
      key ⟨psiz, v⟩ r := by
  subst hpsiz
  have hneed := need_pos h.toHdbLayout key v
  have hlen : (Fms.recBytes h.toHdbLayout rec).length = need h.toHdbLayout key v + rec.psiz := by
    have := length_nodeBytes (g := h.toHdbLayout) l key ⟨rec.psiz, v⟩ r
    rw [nodeLen_eq] at this
    rw [hput.recBytes, List.length_append, List.length_replicate]
    simp only at this
    omega
  have hspace := hs.append hlen (by omega) hdvd hroom
  have hfront := hs.front
  have hstart := hs.start
  rw [HdbLayout.msiz, hdbHeadSiz] at hfront
  have halign : h.align ≤ 2 ^ 6 := Nat.pow_le_pow_right (by norm_num) hs.apow
  have hbody : writeBody { h with fsiz := h.fsiz + (need h.toHdbLayout key v + rec.psiz) } h.fsiz rec =
      ({ h with fsiz := h.fsiz + (need h.toHdbLayout key v + rec.psiz) }.write h.fsiz
        (Fms.recBytes h.toHdbLayout rec)).write 56 (leBytes 8 (h.fsiz + (need h.toHdbLayout key v + rec.psiz))) := by
    rw [writeBody, hoff]
    exact if_pos (show h.fsiz + (need h.toHdbLayout key v + rec.psiz) ≠ h.fsiz by omega)
  rw [hbody]
  have hspace' := hspace.writeFront (o := 56) (leBytes 8 (h.fsiz + (need h.toHdbLayout key v + rec.psiz)))
    (by rw [length_leBytes]; show 56 + 8 ≤ h.frec; omega)
  have hget : ∀ i, i < 56 ∨ 64 ≤ i → i < h.fsiz →
      (writeAt (writeAt h.file h.fsiz (Fms.recBytes h.toHdbLayout rec)) 56
        (leBytes 8 (h.fsiz + (need h.toHdbLayout key v + rec.psiz))))[i]? = h.file[i]? := fun i hi hi' => by
    rw [getElem?_writeAt (by rw [length_writeAt hs.len.ge, hs.len]; omega), length_leBytes,
      getElem?_writeAt hs.len.ge]
    split_ifs <;> first | rfl | omega
  refine ⟨rfl, rfl, rfl, ⟨lost, hspace'⟩, ?_, ?_, fun i hi hi' => hget i hi' (by omega), fun _ => ?_, ?_, ?_⟩
  · have hnode : Holds (writeAt h.file h.fsiz (Fms.recBytes h.toHdbLayout rec)) h.fsiz
        (nodeBytes h.toHdbLayout l key ⟨rec.psiz, v⟩ r) := by
      rw [hput.recBytes]
      exact (holds_append.mp (holds_writeAt hs.len.ge _)).1
    refine hnode.writeAt_disjoint ?_ (Or.inl (by rw [length_leBytes]; omega))
    rw [length_writeAt hs.len.ge, hs.len]
    omega
  · show rec.psiz < 2 ^ 16
    omega
  · exact holds_writeAt (by rw [Tchdb.write, length_writeAt hs.len.ge, hs.len]; omega) _
  · intro b hb i hi hi'
    have := hs.blocks.part.inside b (List.mem_append_left _ hb)
    exact hget i (by omega) (by omega)
  · show h.fsiz + (need h.toHdbLayout key v + rec.psiz) ≤ h.fsiz + need h.toHdbLayout key v + h.align
    omega

/-! ## Written, wherever there is room -/

theorem Agree.written {h₀ h₁ h' : Tchdb} {off : ℕ} {b : Body} (ha : Agree h₀ h₁ live) (hfsiz : h₁.fsiz = h₀.fsiz)
    (hfrec : 128 ≤ h₀.frec) (hw : Written h₁ h' live off l key b r) : Written h₀ h' live off l key b r := by
  obtain ⟨hlayout, hflags, hrnum, hspace, hnode, hpsiz, hfront, hhead, hblocks, hsize⟩ := hw
  rw [ha.layout] at hspace hnode hsize hfront
  refine ⟨hlayout.trans ha.layout, hflags.trans ha.flags, hrnum.trans ha.rnum, hspace, hnode, hpsiz, ?_, ?_, ?_, ?_⟩
  · exact fun i hi hi' => (hfront i hi hi').trans (ha.front i hi)
  · intro hh
    refine hhead (hfsiz ▸ hh.congr fun i hi hi' => ha.front i ?_)
    rw [length_leBytes] at hi'
    omega
  · exact fun b hb i hi hi' => (hblocks b hb i hi hi').trans (ha.blocks b hb i hi hi')
  · rw [← hfsiz]
    exact hsize

theorem Space.le_frec (hs : Space h live lost) : 128 ≤ h.frec := by
  have := hs.front
  rw [HdbLayout.msiz, hdbHeadSiz] at this
  omega

theorem IsPut.placed (hp : IsPut rec l key v r) {off rsiz psiz : ℕ} :
    IsPut { rec with off := off, rsiz := rsiz, psiz := psiz } l key v r :=
  ⟨hp.hash, hp.left, hp.right, hp.ksiz, hp.vsiz, hp.kbuf, hp.vbuf⟩

theorem IsPut.size (hp : IsPut rec l key v r) (g : HdbLayout) :
    recHsiz g rec.ksiz rec.vsiz + rec.ksiz + rec.vsiz = need g key v := by
  rw [hp.ksiz, hp.vsiz]
  rfl

theorem Space.release {off n : ℕ} (hs : Space h (⟨off, n⟩ :: live) lost) (hn : 5 ≤ n) :
    ∃ lost', Space (tchdbFbpInsert (tchdbWritefb h off n) off n) live lost' ∧
      Agree h (tchdbFbpInsert (tchdbWritefb h off n) off n) live ∧
      (tchdbFbpInsert (tchdbWritefb h off n) off n).fsiz = h.fsiz := by
  have hin := hs.blocks.part.inside ⟨off, n⟩ List.mem_cons_self
  simp only at hin
  have hsmall := hs.small
  have hlen := hs.len
  obtain ⟨-, hagree⟩ := hs.writeLive (hdbMagicFb :: leBytes 4 n) (le_refl off)
    (by rw [List.length_cons, length_leBytes]; omega)
  have hfree := hs.blocks.release hn (by omega) (by omega)
  have hspace : Space (tchdbWritefb h off n) live (⟨off, n⟩ :: lost) := by
    refine hs.withBlocks rfl rfl ?_ le_rfl (hfree.perm List.perm_middle.symm)
    rw [tchdbWritefb, Tchdb.write, length_writeAt (by omega), List.length_cons, length_leBytes]
    omega
  obtain ⟨lost', hs'⟩ := hspace.insert
  have hpool := Space.poolOnly_insert (tchdbWritefb h off n) off n
  refine ⟨lost', hs', hagree.trans (hpool.agree live), ?_⟩
  obtain ⟨pool, mis, heq⟩ := hpool
  rw [heq]
  rfl

theorem Space.divideRec {n : ℕ} (hs : Space h (⟨rec.off, rec.rsiz⟩ :: live) lost) (hpos : 0 < n)
    (hn : n + 2 ^ 16 ≤ rec.rsiz) : ∃ psiz lost', psiz < h.align ∧ h.align ∣ n + psiz ∧
      (Fms.divideRec h rec n).2 = { rec with rsiz := n + psiz, psiz := psiz } ∧
      (Fms.divideRec h rec n).1.fsiz = h.fsiz ∧
      Space (Fms.divideRec h rec n).1 (⟨rec.off, n + psiz⟩ :: live) lost' ∧ Agree h (Fms.divideRec h rec n).1 live := by
  have hdvd := Space.align_dvd_pad { h with fsiz := rec.off + n }
  have hlt := Space.padsize_lt { h with fsiz := rec.off + n }
  have halign : h.align ≤ 2 ^ 6 := Nat.pow_le_pow_right (by norm_num) hs.apow
  rw [Fms.divideRec]
  generalize tchdbPadsize { h with fsiz := rec.off + n } = psiz at hdvd hlt
  have hdvd' : h.align ∣ n + psiz :=
    (Nat.dvd_add_right (hs.blocks.aligned ⟨rec.off, rec.rsiz⟩ List.mem_cons_self).1).mp (by rwa [← Nat.add_assoc])
  have hlt' : psiz < h.align := hlt
  have hspace : Space h (⟨rec.off, n + psiz + (rec.rsiz - n - psiz)⟩ :: live) lost := by
    rwa [show n + psiz + (rec.rsiz - n - psiz) = rec.rsiz by omega]
  have hsplit : Space h (⟨rec.off + n + psiz, rec.rsiz - n - psiz⟩ :: ⟨rec.off, n + psiz⟩ :: live) lost := by
    have := hspace.blocks.splitLive (m := rec.rsiz - n - psiz) (by omega) (by omega) hdvd'
    rw [Nat.add_assoc]
    exact { hspace with blocks := this.perm_live (List.Perm.swap _ _ _) }
  obtain ⟨lost', hs', hagree, hfsiz⟩ := hsplit.release (by omega)
  refine ⟨psiz, lost', hlt, hdvd', ?_, hfsiz, hs', ?_⟩
  · rw [show rec.off + n + psiz - rec.off = n + psiz by omega]
  · exact ⟨hagree.layout, hagree.flags, hagree.rnum, hagree.front, fun b hb => hagree.blocks b (List.mem_cons_of_mem _ hb)⟩

theorem writeRec_reuse (bidx entoff fuel : ℕ) (hs : Space h (⟨rec.off, rec.rsiz⟩ :: live) lost)
    (hput : IsPut rec l key v r) (hge : need h.toHdbLayout key v ≤ rec.rsiz) :
    ∃ h' psiz, tchdbWriteRec bidx entoff (fuel + 1) h rec = .ok (linkRec h' bidx entoff rec.off) ∧
      Written h h' live rec.off l key ⟨psiz, v⟩ r := by
  have hneed := need_pos h.toHdbLayout key v
  rw [tchdbWriteRec, hput.size, if_neg (by omega), if_neg (by omega)]
  split_ifs with hbig
  · obtain ⟨psiz, lost', hlt, hdvd, hrec, hfsiz, hspace, hagree⟩ :=
      hs.divideRec (n := need h.toHdbLayout key v) (by omega) (by omega)
    have halign : h.align ≤ 2 ^ 6 := Nat.pow_le_pow_right (by norm_num) hs.apow
    refine ⟨_, psiz, rfl, hagree.written hfsiz hs.le_frec (Space.writeRec (show Space _ _ lost' from ?_) ?_ ?_ ?_ ?_ (by omega))⟩
    · rw [hagree.layout]
      exact hspace
    · rw [hrec]
      exact hput.placed
    · rw [hrec]
    · rw [hrec, hagree.layout]
    · rw [hrec]
  · refine ⟨_, rec.rsiz - need h.toHdbLayout key v, rfl, ?_⟩
    refine Space.writeRec (show Space _ _ lost from ?_) hput.placed rfl ?_ rfl (by omega)
    · rw [Nat.add_sub_cancel' hge]
      exact hs
    · exact (Nat.add_sub_cancel' hge).symm

theorem writeRec_append (bidx entoff fuel : ℕ) (hs : Space h live lost) (hput : IsPut rec l key v r)
    (hsiz : rec.rsiz = 0) (hoff : rec.off = h.fsiz) (hroom : h.fsiz + need h.toHdbLayout key v + h.align ≤ 2 ^ 31) :
    ∃ h' psiz, tchdbWriteRec bidx entoff (fuel + 1) h rec = .ok (linkRec h' bidx entoff rec.off) ∧
      Written h h' live rec.off l key ⟨psiz, v⟩ r := by
  have hdvd := Space.align_dvd_pad { h with fsiz := h.fsiz + need h.toHdbLayout key v }
  have hlt := Space.padsize_lt { h with fsiz := h.fsiz + need h.toHdbLayout key v }
  rw [tchdbWriteRec, hput.size, if_pos (by omega)]
  dsimp only
  generalize tchdbPadsize { h with fsiz := h.fsiz + need h.toHdbLayout key v } = psiz at hdvd hlt
  have hlt' : psiz < h.align := hlt
  have hdvd' : h.align ∣ need h.toHdbLayout key v + psiz :=
    (Nat.dvd_add_right hs.fsizAligned).mp (by rwa [← Nat.add_assoc])
  have hw := hs.appendRec { rec with rsiz := need h.toHdbLayout key v + psiz, psiz := psiz } hput.placed hoff
    rfl rfl hlt' hdvd' (by omega)
  rw [← Nat.add_assoc] at hw
  exact ⟨_, psiz, rfl, (congrArg (fun o => Written h _ live o l key ⟨psiz, v⟩ r) hoff).mpr hw⟩

theorem le_need (g : HdbLayout) (hlt : need g key v < 2 ^ 31) : 14 ≤ need g key v := by
  have hpos : ∀ n, n < 2 ^ 31 → 0 < (setVnumbuf 32 n).length := fun n hn => by
    rw [setVnumbuf, Nat.mod_eq_of_lt (hn.trans (by norm_num)), if_pos hn]
    exact Varnum.length_encode_pos n
  rw [need, recHsiz, recSizes, List.length_append] at hlt ⊢
  have := hpos key.length (by omega)
  have := hpos v.length (by omega)
  rcases besiz_cases g with hb | hb <;> omega

/-- Where a record may be written: at the end of the file, or in a block that is its own. -/
def Place (h : Tchdb) (rec : Tchrec) (live : List Block) : Prop :=
  (rec.rsiz = 0 ∧ rec.off = h.fsiz ∧ ∃ lost, Space h live lost) ∨
    (5 ≤ rec.rsiz ∧ ∃ lost, Space h (⟨rec.off, rec.rsiz⟩ :: live) lost)

/-- With room at the end of the file, a record is written in two calls at most. -/
theorem writeRec_spec (bidx entoff fuel : ℕ) (hplace : Place h rec live) (hput : IsPut rec l key v r)
    (hroom : h.fsiz + need h.toHdbLayout key v + h.align ≤ 2 ^ 31) :
    ∃ h' off psiz, tchdbWriteRec bidx entoff (fuel + 2) h rec = .ok (linkRec h' bidx entoff off) ∧
      Written h h' live off l key ⟨psiz, v⟩ r := by
  rcases hplace with ⟨hsiz, hoff, lost, hs⟩ | ⟨hmin, lost, hs⟩
  · obtain ⟨h', psiz, heq, hw⟩ := writeRec_append bidx entoff (fuel + 1) hs hput hsiz hoff hroom
    exact ⟨h', rec.off, psiz, heq, hw⟩
  rcases Nat.lt_or_ge rec.rsiz (need h.toHdbLayout key v) with hlt | hge
  · have hin := hs.blocks.part.inside _ List.mem_cons_self
    have hdvd := (hs.blocks.aligned _ List.mem_cons_self).2
    have halignPos : 0 < h.align := Nat.two_pow_pos _
    have halign : h.align ≤ rec.rsiz := Nat.le_of_dvd hin.2.1 hdvd
    have hneed : 14 ≤ need h.toHdbLayout key v := le_need h.toHdbLayout (by omega)
    rw [tchdbWriteRec, hput.size, if_neg (by simp only at hin; omega), if_pos hlt]
    cases hsplice : tchdbFbpSplice h rec (need h.toHdbLayout key v) with
    | some q =>
      obtain ⟨h₁, rec₁⟩ := q
      obtain ⟨hs₁, hagree, hfsiz, hrec, hge⟩ := hs.splice hsplice
      have hput₁ : IsPut rec₁ l key v r := by
        rw [hrec]
        exact hput.placed
      have hoff : rec₁.off = rec.off := by rw [hrec]
      rw [← hoff] at hs₁
      obtain ⟨h', psiz, heq, hw⟩ := writeRec_reuse bidx entoff fuel hs₁ hput₁ (by rw [hagree.layout]; exact hge)
      exact ⟨h', rec₁.off, psiz, heq, hagree.written hfsiz hs.le_frec hw⟩
    | none =>
      obtain ⟨lost₁, hs₁, hagree₁, hfsiz₁⟩ := hs.release (by omega)
      dsimp only
      set h₁ := tchdbFbpInsert (tchdbWritefb h rec.off rec.rsiz) rec.off rec.rsiz
      have hlayout₁ := hagree₁.layout
      obtain ⟨hagree₂, hfsiz₂, hsame, hroom₂⟩ := hs₁.search { rec with rsiz := need h.toHdbLayout key v }
        hneed (Or.inl (by rw [hlayout₁]; exact halign.trans hlt.le)) (show need h.toHdbLayout key v < 2 ^ 31 by omega)
      set h₂ := (tchdbFbpSearch h₁ { rec with rsiz := need h.toHdbLayout key v }).1
      set rec₂ := (tchdbFbpSearch h₁ { rec with rsiz := need h.toHdbLayout key v }).2
      have hput₂ : IsPut rec₂ l key v r := by
        rw [hsame]
        exact hput.placed
      have hlayout₂ : h₂.toHdbLayout = h.toHdbLayout := hagree₂.layout.trans hlayout₁
      have hfsiz : h₂.fsiz = h.fsiz := hfsiz₂.trans hfsiz₁
      have hagree := hagree₁.trans hagree₂
      rcases hroom₂ with ⟨hsiz, hoff, lost₂, hs₂⟩ | ⟨hge, lost₂, hs₂⟩
      · obtain ⟨h', psiz, heq, hw⟩ := writeRec_append bidx entoff fuel hs₂ hput₂ hsiz (hoff.trans hfsiz₂.symm)
          (by rw [hlayout₂, hfsiz]; exact hroom)
        exact ⟨h', rec₂.off, psiz, heq, hagree.written hfsiz hs.le_frec hw⟩
      · obtain ⟨h', psiz, heq, hw⟩ := writeRec_reuse bidx entoff fuel hs₂ hput₂ (by rw [hlayout₂]; exact hge)
        exact ⟨h', rec₂.off, psiz, heq, hagree.written hfsiz hs.le_frec hw⟩
  · obtain ⟨h', psiz, heq, hw⟩ := writeRec_reuse bidx entoff (fuel + 1) hs hput hge
    exact ⟨h', rec.off, psiz, heq, hw⟩

end Fms
