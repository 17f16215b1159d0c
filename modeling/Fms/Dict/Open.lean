import Fms.Dict.Remove
import Fms.Dict.SaveLoad

/-!
# Opening and closing a database

* `tchdbOpen`, `tchdbClose`: a new file, an existing one, and one that was never closed;
* `Disk h trees`: a database whose file can be opened as one with these trees;
* **`tchdbOpen_disk`**, **`tchdbClose_disk`**, **`tchdbOpen_new`**: what is opened has the map of its
  file, what is closed can be opened, and a new file has no keys;
* **`tchdbOpen_closed`**: the pool that a writer gets from a closed file.
-/

namespace Fms

open Bytes Blocks SearchTree

/-- The flag of a database that is open. -/
def hdbFopen : UInt8 := 1

def tchdbSetflag (h : Tchdb) (flag : UInt8) (sign : Bool) : Tchdb :=
  let fp := h.file.getD 33 0
  let fp := if sign then fp ||| flag else fp &&& ~~~flag
  { h with flags := fp.toNat }.write 33 [fp]

/-- The flags of `tchdbopen` that this library is called with; `HDBOCREAT` is for the file system. -/
structure Omode where
  writer : Bool
  trunc : Bool
  nolck : Bool
  deriving DecidableEq, Repr

/-- A file that is empty gets a header, buckets without records and a pool without blocks. -/
def createFile (h : Tchdb) : Tchdb :=
  let fsiz := hdbHeadSiz + h.besiz * h.bnum + h.fbpsiz
  let fsiz := fsiz + tchdbPadsize { h with fsiz := fsiz }
  let h := { h with fsiz := fsiz, frec := fsiz }
  { h with file := tcdumpmeta h ++ List.replicate (fsiz - hdbHeadSiz) 0 }

/-- What is checked of the header of a file. -/
def metaFails (h : Tchdb) : Prop :=
  h.file.take hdbMagicNum.length ≠ hdbMagicNum ∨ (h.type ≠ 0 ∧ h.type ≠ 1) ∨ h.frec < hdbHeadSiz + h.fbpsiz ∨
    h.frec > h.fsiz ∨ h.file.length ≠ h.fsiz

instance (h : Tchdb) : Decidable (metaFails h) := inferInstanceAs (Decidable (_ ∨ _))

/-- The pool of a writer, if the file was closed. -/
def loadPool (h : Tchdb) (writer : Bool) : Except HdbFault Tchdb :=
  if writer && h.flags % 2 = 0 then tchdbLoadfbp h else .ok h

/-- The file that is opened: the one at the path, or a new one. -/
def prepareFile (h : Tchdb) (omode : Omode) (file : List UInt8) : Tchdb :=
  let file := if omode.writer && omode.trunc then [] else file
  if omode.writer && file.length < 1 then createFile h else { h with file := file }

/-- What is done with a file that is there. -/
def openFile (h : Tchdb) (writer nolck : Bool) : Except HdbFault Tchdb :=
  if h.file.length < hdbHeadSiz then .error .tceread
  else
    let h := tcloadmeta h (readAt h.file 0 hdbHeadSiz)
    if !nolck && metaFails h then .error .tcemeta
    else do
      let h ← loadPool { h with fbpool := [], fbpmis := 0 } writer
      .ok (if writer then tchdbSetflag h hdbFopen true else h)

/-- `tchdbopen`, of an object that is not open and the file at the path. -/
def tchdbOpen (h : Tchdb) (omode : Omode) (file : List UInt8) : Except HdbFault Tchdb :=
  openFile (prepareFile h omode file) omode.writer omode.nolck

/-- `tchdbclose`, with what `tchdbmemsync` writes. -/
def tchdbClose (h : Tchdb) (writer : Bool) : Tchdb :=
  if writer then
    let h := tchdbSetflag (tchdbSavefbp h) hdbFopen false
    h.write 0 (tcdumpmeta h)
  else h

/-! ## The invariant of a database that is opened or closed -/

section
variable {h h' : Tchdb} {trees : ℕ → RecTree} {live : List Block} {lost lost' : List Hdbfb}

/-- Nothing behind the header is changed but the region of the pool. -/
structure FrontOnly (h h' : Tchdb) : Prop where
  layout : h'.toHdbLayout = h.toHdbLayout
  fsiz : h'.fsiz = h.fsiz
  len : h'.file.length = h.file.length
  buckets : ∀ i, hdbHeadSiz ≤ i → i < h.msiz → h'.file[i]? = h.file[i]?
  records : ∀ i, h.frec ≤ i → h'.file[i]? = h.file[i]?

theorem Space.frontOnly (hs : Space h live lost) (hf : FrontOnly h h')
    (hpool : (h.fbpool ++ lost).Perm (h'.fbpool ++ lost')) (hle : h'.fbpool.length ≤ h.fbpool.length) :
    Space h' live lost' := by
  have hblocks := hs.blocks.perm hpool
  refine hs.withBlocks hf.layout hf.fsiz hf.len hle ⟨?_, ?_, fun fb hfb => ?_⟩
  · rw [hf.layout, hf.fsiz]
    exact hblocks.part
  · rw [hf.layout]
    exact hblocks.aligned
  · exact (hblocks.free fb hfb).congr fun i hi _ => hf.records i ((hblocks.inside_free hfb).1.trans hi)

theorem Wf.frontOnly (hw : Wf h trees) (hf : FrontOnly h h') (hrnum : h'.rnum = h.rnum) (hhead : Head h')
    (hspace : Holding h' (allEntries h.bnum trees)) : Wf h' trees := by
  have hbnum : h'.bnum = h.bnum := congrArg HdbLayout.bnum hf.layout
  refine ⟨?_, ⟨?_, fun b hb => ?_, fun b hb => ?_⟩, fun b hb => ?_, fun b hb e he => ?_, ?_, hhead⟩
  · rw [hbnum]
    exact hw.bnum
  · rw [hbnum]
    exact hspace
  · rw [hbnum] at hb
    refine (hw.forest.buckets b hb).congr hf.layout fun i hi hi' => hf.buckets i (by omega) (hi'.trans_le ?_)
    exact Nat.add_le_add_left (Nat.mul_le_mul_right _ hb) _
  · rw [hbnum] at hb
    refine (hw.forest.stored b hb).frame fun e he _ _ hn => hn.congr hf.layout fun i hi _ => ?_
    obtain ⟨lost, hs⟩ := hw.forest.space
    have hmem := (allEntries_perm hb trees).mem_iff.mpr (List.mem_append_left _ he)
    have hin := hs.blocks.part.inside _ (List.mem_append_left _ (List.mem_map_of_mem hmem))
    exact hf.records i (hin.1.trans hi)
  · rw [hbnum] at hb
    exact hw.sorted b hb
  · rw [hbnum] at hb
    rw [hf.layout]
    exact hw.home b hb e he
  · rw [hrnum, hbnum]
    exact hw.count

/-- What the code takes for granted of a header that it has checked: the type, the only option that
it sets, and flags of one byte. -/
structure MetaSound (h : Tchdb) : Prop where
  type : h.type ≤ 1
  opts : h.opts ≤ 1
  flags : h.flags < 2 ^ 8

/-- A pool in the order in which it is saved. -/
structure SavedPool (h : Tchdb) (live : List Block) (pool : List Hdbfb) : Prop where
  region : Holds h.file h.msiz (savedPool h.toHdbLayout pool)
  ascending : pool.Pairwise fun a b => a.off < b.off
  space : ∃ lost, Space { h with fbpool := pool } live lost

/-- A database whose file has these trees: if it does not say that it is open, it has a pool as well. -/
structure Disk (h : Tchdb) (trees : ℕ → RecTree) : Prop where
  wf : Wf h trees
  sound : MetaSound h
  pool : h.flags % 2 = 1 ∨ ∃ pool, SavedPool h ((allEntries h.bnum trees).map (blockOf h.toHdbLayout)) pool

theorem Wf.rnum_le (hw : Wf h trees) : h.rnum ≤ 2 ^ 31 := by
  have hnodup := hw.forest.space.nodup
  obtain ⟨lost, hs⟩ := hw.forest.space
  have hsub : ((allEntries h.bnum trees).map Entry.p).toFinset ⊆ Finset.range (2 ^ 31) := fun p hp => by
    obtain ⟨e, he, rfl⟩ := List.mem_map.mp (List.mem_toFinset.mp hp)
    have hin := hs.blocks.part.inside _ (List.mem_append_left _ (List.mem_map_of_mem he))
    have hsmall := hs.small
    simp only [blockOf] at hin
    exact Finset.mem_range.mpr (by omega)
  have hcard := Finset.card_le_card hsub
  rwa [List.toFinset_card_of_nodup hnodup, List.length_map, Finset.card_range, ← hw.count] at hcard

theorem Wf.metaFits (hw : Wf h trees) (hs : MetaSound h) : h.MetaFits := by
  have hrnum := hw.rnum_le
  obtain ⟨lost, hspace⟩ := hw.forest.space
  have hfront := hspace.front
  have hstart := hspace.start
  have hsmall := hspace.small
  have hapow := hspace.apow
  have hbesiz : h.bnum ≤ h.bnum * h.besiz := Nat.le_mul_of_pos_right _ (by
    rcases besiz_cases h.toHdbLayout with hb | hb <;> omega)
  have hfpow : h.fpow < 2 ^ h.fpow := Nat.lt_two_pow_self
  rw [HdbLayout.msiz, HdbLayout.fbpsiz, HdbLayout.fbpmax] at hfront
  refine ⟨by have := hs.type; omega, hs.flags, by omega, ?_, by have := hs.opts; omega, by omega, by omega, by omega, by omega⟩
  rcases Nat.lt_or_ge h.fpow 30 with hlt | hge
  · omega
  · have : 2 ^ 30 ≤ 2 ^ h.fpow := Nat.pow_le_pow_right (by norm_num) hge
    omega

/-! ## The flag -/

theorem holds_flags {f : List UInt8} {g : HdbLayout} {flags : ℕ} (hh : Holds f 0 (metaFront g flags)) :
    f.getD 33 0 = UInt8.ofNat flags := by
  rw [metaFront] at hh
  simp only [holds_append] at hh
  obtain ⟨⟨⟨-, ⟨⟨⟨-, hflags⟩, -⟩, -⟩, -⟩, -⟩, -⟩ := hh
  have hbyte : f[33]? = some (UInt8.ofNat flags) := by
    simpa [headText, hdbMagicNum, leBytes] using hflags 0 (by simp)
  rw [List.getD_eq_getElem?_getD, hbyte, Option.getD_some]

theorem metaFront_flags (g : HdbLayout) : ∃ as cs, as.length = 33 ∧
    ∀ flags, metaFront g flags = as ++ leBytes 1 flags ++ cs := by
  refine ⟨headText ++ List.replicate (32 - headText.length) 0 ++ leBytes 1 g.type,
    leBytes 1 g.apow ++ leBytes 1 g.fpow ++ leBytes 1 g.opts ++ List.replicate 3 0 ++ leBytes 8 g.bnum, ?_, fun flags => ?_⟩
  · simp [headText, hdbMagicNum]
  · simp only [metaFront, List.append_assoc]

/-- The flags after a change of one of them. -/
def newFlags (flags : ℕ) (flag : UInt8) (sign : Bool) : ℕ :=
  (if sign then UInt8.ofNat flags ||| flag else UInt8.ofNat flags &&& ~~~flag).toNat

theorem newFlags_lt (flags : ℕ) (flag : UInt8) (sign : Bool) : newFlags flags flag sign < 2 ^ 8 := UInt8.toNat_lt _

theorem newFlags_open (flags : ℕ) : newFlags flags hdbFopen true % 2 = 1 ∧ newFlags flags hdbFopen false % 2 = 0 := by
  constructor
  · show (UInt8.ofNat flags ||| hdbFopen).toNat % 2 = 1
    rw [UInt8.toNat_or, Nat.or_mod_two_eq_one]
    exact Or.inr rfl
  · show (UInt8.ofNat flags &&& ~~~hdbFopen).toNat % 2 = 0
    rw [UInt8.toNat_and]
    have hand := Nat.and_mod_two_eq_one (a := (UInt8.ofNat flags).toNat) (b := (~~~hdbFopen).toNat)
    have hzero : (~~~hdbFopen).toNat % 2 = 0 := rfl
    omega

theorem tchdbSetflag_spec (hh : Head h) (hlen : hdbHeadSiz ≤ h.file.length) (flag : UInt8) (sign : Bool) :
    (tchdbSetflag h flag sign).flags = newFlags h.flags flag sign ∧ Head (tchdbSetflag h flag sign) ∧
      (tchdbSetflag h flag sign).file.length = h.file.length ∧
      ∀ i, hdbHeadSiz ≤ i → (tchdbSetflag h flag sign).file[i]? = h.file[i]? := by
  obtain ⟨hfront, hrnum, hfsiz, hfrec⟩ := head_iff.mp hh
  have hset : tchdbSetflag h flag sign =
      { h with flags := newFlags h.flags flag sign }.write 33 (leBytes 1 (newFlags h.flags flag sign)) := by
    rw [tchdbSetflag, holds_flags hfront]
    show _ = Tchdb.write _ 33 [UInt8.ofNat (newFlags h.flags flag sign)]
    rw [newFlags, UInt8.ofNat_toNat]
  rw [hdbHeadSiz] at hlen
  have hle : 33 ≤ h.file.length := by omega
  rw [hset]
  refine ⟨rfl, ?_, ?_, fun i hi => ?_⟩
  · obtain ⟨as, cs, hlen33, heq⟩ := metaFront_flags h.toHdbLayout
    have hkeep : ∀ {off : ℕ} {bs : List UInt8}, 34 ≤ off → Holds h.file off bs →
        Holds (writeAt h.file 33 (leBytes 1 (newFlags h.flags flag sign))) off bs := fun hoff hb =>
      hb.writeAt_disjoint (by omega) (Or.inl (by rw [length_leBytes]; omega))
    refine head_iff.mpr ⟨?_, hkeep (by norm_num) hrnum, hkeep (by norm_num) hfsiz, hkeep (by norm_num) hfrec⟩
    rw [heq] at hfront
    show Holds _ 0 (metaFront h.toHdbLayout (newFlags h.flags flag sign))
    rw [heq]
    have hwrite : Holds (writeAt h.file (0 + as.length) (leBytes 1 (newFlags h.flags flag sign))) 0
        (as ++ leBytes 1 (newFlags h.flags flag sign) ++ cs) := hfront.writeAt_inside rfl (by omega)
    rwa [hlen33] at hwrite
  · show (writeAt h.file 33 _).length = h.file.length
    rw [length_writeAt hle, length_leBytes]
    omega
  · show (writeAt h.file 33 _)[i]? = h.file[i]?
    rw [hdbHeadSiz] at hi
    rw [getElem?_writeAt hle, length_leBytes, if_neg (by omega), if_neg (by omega)]

/-! ## Opening a file that is there -/

theorem Wf.not_metaFails (hw : Wf h trees) (hs : MetaSound h) : ¬ metaFails h := by
  obtain ⟨lost, hspace⟩ := hw.forest.space
  have hfront := hspace.front
  have hstart := hspace.start
  have htype := hs.type
  rw [HdbLayout.msiz] at hfront
  have hmagic : h.file.take hdbMagicNum.length = hdbMagicNum := by
    have htext := (head_iff.mp hw.head).1
    rw [metaFront, headText] at htext
    simp only [List.append_assoc] at htext
    exact (holds_append.mp htext).1.readAt_eq
  rintro (hne | hne | hlt | hgt | hlen)
  · exact hne hmagic
  · omega
  · omega
  · omega
  · exact hlen hspace.len

/-- The database of a file, with what the object had before as its iterator. -/
def reopened (h g : Tchdb) (pool : List Hdbfb) : Tchdb := { h with iter := g.iter, fbpool := pool, fbpmis := 0 }

theorem tchdbLoadfbp_saved {pool : List Hdbfb} (g : Tchdb) (hlen : h.msiz + h.fbpsiz ≤ h.file.length)
    (hp : SavedPool h live pool) : ∃ k, tchdbLoadfbp (reopened h g []) = .ok (reopened h g (pool.take k)) ∧
      (pool.length * 10 + 18 ≤ h.fbpsiz → pool.take k = pool) := by
  obtain ⟨lost, hs⟩ := hp.space
  have hsav : ∀ fb ∈ pool, fb.Savable h.apow := fun fb hfb => (hs.savable hfb).1
  have hpos : ∀ fb ∈ pool, 0 < fb.off / 2 ^ h.apow := fun fb hfb => (hs.savable hfb).2
  have hread := hp.region.readAt (length_savedPool hsav hp.ascending hpos)
  obtain ⟨k, hload, -, hall⟩ := loadLoop_saveLoop pool hsav hp.ascending 0 hpos ((h.fbpsiz : ℤ) - 18) (n := h.fbpmax) hs.pool
    (0 :: readAt h.file (h.msiz + (savedPool h.toHdbLayout pool).length) (h.fbpsiz - (savedPool h.toHdbLayout pool).length))
  refine ⟨k, ?_, fun hroom => hall (by omega)⟩
  rw [Nat.zero_mul] at hload
  have hregion : readAt (reopened h g []).file h.msiz h.fbpsiz = saveLoop h.apow ((h.fbpsiz : ℤ) - 18) 0 pool ++
      0 :: 0 :: readAt h.file (h.msiz + (savedPool h.toHdbLayout pool).length)
        (h.fbpsiz - (savedPool h.toHdbLayout pool).length) := by
    refine hread.trans ?_
    rw [savedPool, List.append_assoc]
    rfl
  have hin : ¬ (reopened h g []).file.length < (reopened h g []).msiz + (reopened h g []).fbpsiz := not_lt.mpr hlen
  have hload' : loadLoop (reopened h g []).apow (reopened h g []).fbpmax 0
      (readAt (reopened h g []).file (reopened h g []).msiz (reopened h g []).fbpsiz) = some (pool.take k) := by
    rw [← hload, ← hregion]
    rfl
  rw [tchdbLoadfbp, if_neg hin, hload']
  rfl

theorem SavedPool.reopened {pool : List Hdbfb} (g : Tchdb) (hp : SavedPool h live pool) (k : ℕ) :
    ∃ lost, Space (Fms.reopened h g (pool.take k)) live lost := by
  obtain ⟨lost, hs⟩ := hp.space
  have hblocks := hs.blocks
  rw [← List.take_append_drop k pool, List.append_assoc] at hblocks
  have hle : (pool.take k).length ≤ h.fbpmax := by
    rw [List.length_take]
    exact (min_le_right _ _).trans hs.pool
  exact ⟨pool.drop k ++ lost, hs.apow, hle, hs.len, hs.small, hs.front, hs.start, hs.frecAligned, hs.fsizAligned,
    hblocks.part, hblocks.aligned, hblocks.free⟩

/-- What an opened database has of the file. -/
structure Opened (h h' : Tchdb) (trees : ℕ → RecTree) (writer : Bool) : Prop where
  disk : Disk h' trees
  layout : h'.toHdbLayout = h.toHdbLayout
  fsiz : h'.fsiz = h.fsiz
  rnum : h'.rnum = h.rnum
  flag : writer → h'.flags % 2 = 1

theorem FrontOnly.reopened (h g : Tchdb) (pool : List Hdbfb) : FrontOnly h (Fms.reopened h g pool) :=
  ⟨rfl, rfl, rfl, fun _ _ _ => rfl, fun _ _ => rfl⟩

theorem Wf.setflag (hw : Wf h trees) (flag : UInt8) (sign : Bool) :
    Wf (tchdbSetflag h flag sign) trees ∧ (tchdbSetflag h flag sign).flags = newFlags h.flags flag sign := by
  obtain ⟨lost, hs⟩ := hw.forest.space
  have hfrec := hs.le_frec
  have hstart := hs.start
  have hlen : hdbHeadSiz ≤ h.file.length := by
    rw [hs.len]
    exact hfrec.trans hstart
  obtain ⟨hflags, hhead, hlength, hrest⟩ := tchdbSetflag_spec hw.head hlen flag sign
  have hfront : FrontOnly h (tchdbSetflag h flag sign) :=
    ⟨rfl, rfl, hlength, fun i hi _ => hrest i hi, fun i hi => hrest i (hfrec.trans hi)⟩
  exact ⟨hw.frontOnly hfront rfl hhead ⟨lost, hs.frontOnly hfront (List.Perm.refl _) le_rfl⟩, hflags⟩

/-- The header of a file is read and accepted; what is left is the pool and the flag. -/
theorem tchdbOpen_eq (hw : Wf h trees) (hsound : MetaSound h) (g : Tchdb) (omode : Omode)
    (hkeep : (omode.writer && omode.trunc) = false) :
    tchdbOpen g omode h.file = loadPool (reopened h g []) omode.writer >>= fun h =>
      .ok (if omode.writer then tchdbSetflag h hdbFopen true else h) := by
  obtain ⟨lost, hs⟩ := hw.forest.space
  have hlen := hs.len
  have hstart := hs.start
  have hfrec := hs.le_frec
  have hhead : readAt h.file 0 hdbHeadSiz = tcdumpmeta h := by
    have := Holds.readAt_eq hw.head
    rwa [length_tcdumpmeta] at this
  have hload : tcloadmeta { g with file := h.file } (readAt h.file 0 hdbHeadSiz) =
      { h with iter := g.iter, fbpool := g.fbpool, fbpmis := g.fbpmis } := by
    rw [hhead, tcloadmeta_of_holds (hw.metaFits hsound) (fun i _ => by rw [Nat.zero_add])]
  have hfails : ¬ metaFails { h with iter := g.iter, fbpool := g.fbpool, fbpmis := g.fbpmis } := hw.not_metaFails hsound
  have hnew : (omode.writer && decide (h.file.length < 1)) = false := by
    rw [decide_eq_false (by omega), Bool.and_false]
  have hprep : prepareFile g omode h.file = { g with file := h.file } := by
    rw [prepareFile]
    simp only [hkeep, hnew, Bool.false_eq_true, if_false]
  rw [tchdbOpen, hprep, openFile, if_neg (show ¬ h.file.length < hdbHeadSiz by rw [hdbHeadSiz]; omega), hload]
  dsimp only
  rw [if_neg (by rw [decide_eq_false hfails, Bool.and_false]; exact Bool.false_ne_true)]
  rfl

theorem tchdbOpen_disk (hd : Disk h trees) (g : Tchdb) (omode : Omode) (hkeep : (omode.writer && omode.trunc) = false) :
    ∃ h', tchdbOpen g omode h.file = .ok h' ∧ Opened h h' trees omode.writer := by
  obtain ⟨hw, hsound, hpool⟩ := hd
  obtain ⟨lost, hs⟩ := hw.forest.space
  have hlen := hs.len
  have hstart := hs.start
  have hfront := hs.front
  obtain ⟨pool, hpoolEq, lost', hs'⟩ : ∃ pool, loadPool (reopened h g []) omode.writer = .ok (reopened h g pool) ∧
      ∃ lost', Space (reopened h g pool) ((allEntries h.bnum trees).map (blockOf h.toHdbLayout)) lost' := by
    rw [loadPool]
    split_ifs with hc
    · have hflags : h.flags % 2 = 0 := of_decide_eq_true (Bool.and_eq_true_iff.mp hc).2
      obtain ⟨pool, hp⟩ := hpool.resolve_left (by omega)
      obtain ⟨k, hload, -⟩ := tchdbLoadfbp_saved g (by omega) hp
      exact ⟨_, hload, hp.reopened g k⟩
    · exact ⟨[], rfl, h.fbpool ++ lost, hs.frontOnly (.reopened h g []) (List.Perm.refl _) (Nat.zero_le _)⟩
  have hw' : Wf (reopened h g pool) trees := hw.frontOnly (.reopened h g pool) rfl hw.head ⟨lost', hs'⟩
  refine ⟨if omode.writer then tchdbSetflag (reopened h g pool) hdbFopen true else reopened h g pool, ?_, ?_⟩
  · rw [tchdbOpen_eq hw hsound g omode hkeep, hpoolEq]
    rfl
  · cases omode.writer with
    | true =>
      obtain ⟨hset, hflags⟩ := hw'.setflag hdbFopen true
      have hflag : (tchdbSetflag (reopened h g pool) hdbFopen true).flags % 2 = 1 := by
        rw [hflags]
        exact (newFlags_open _).1
      have hlt : (tchdbSetflag (reopened h g pool) hdbFopen true).flags < 2 ^ 8 := by
        rw [hflags]
        exact newFlags_lt _ _ _
      exact ⟨⟨hset, ⟨hsound.type, hsound.opts, hlt⟩, Or.inl hflag⟩, rfl, rfl, rfl, fun _ => hflag⟩
    | false =>
      refine ⟨⟨hw', ⟨hsound.type, hsound.opts, hsound.flags⟩, hpool.imp_right ?_⟩, rfl, rfl, rfl, fun h => Bool.noConfusion h⟩
      rintro ⟨pool', hp⟩
      refine ⟨pool', hp.region, hp.ascending, ?_⟩
      obtain ⟨l, hsp⟩ := hp.space
      exact ⟨l, hsp.frontOnly ⟨rfl, rfl, rfl, fun _ _ _ => rfl, fun _ _ => rfl⟩ (List.Perm.refl _) le_rfl⟩

/-! ## Closing -/

theorem FrontOnly.of_head (hs : Space h live lost) (hlayout : h'.toHdbLayout = h.toHdbLayout) (hfsiz : h'.fsiz = h.fsiz)
    (hlen : h'.file.length = h.file.length) (hrest : ∀ i, hdbHeadSiz ≤ i → h'.file[i]? = h.file[i]?) : FrontOnly h h' :=
  ⟨hlayout, hfsiz, hlen, fun i hi _ => hrest i hi, fun i hi => hrest i (hs.le_frec.trans hi)⟩

/-- The pool is saved, in an order in which it can be read. -/
theorem tchdbSavefbp_spec (hw : Wf h trees) : Wf (tchdbSavefbp h) trees ∧
    Holds (tchdbSavefbp h).file h.msiz (savedPool h.toHdbLayout (tchdbSavefbp h).fbpool) ∧
    ((tchdbSavefbp h).fbpool.Pairwise fun a b => a.off < b.off) ∧
    (tchdbSavefbp h).toHdbLayout = h.toHdbLayout ∧ (tchdbSavefbp h).fsiz = h.fsiz ∧ (tchdbSavefbp h).flags = h.flags := by
  obtain ⟨lost, hs⟩ := hw.forest.space
  obtain ⟨hs₁, hsorted⟩ := hs.order
  have hasc := hs₁.ascending hsorted
  obtain ⟨pool, mis, heq⟩ := poolOnly_order h
  have hsave : tchdbSavefbp h = (orderFbp h).write (orderFbp h).msiz
      (savedPool (orderFbp h).toHdbLayout (orderFbp h).fbpool) := rfl
  rw [heq] at hs₁ hasc hsave
  have hregion := length_savedPool (g := h.toHdbLayout) (fun fb hfb => (hs₁.savable hfb).1) hasc
    fun fb hfb => (hs₁.savable hfb).2
  have hfront := hs.front
  have hstart := hs.start
  have hlen := hs.len
  have hmsiz : hdbHeadSiz ≤ h.msiz := Nat.le_add_right _ _
  have hle : h.msiz ≤ h.file.length := by omega
  have hspace := hs₁.writeFront (o := h.msiz) (savedPool h.toHdbLayout pool) (by show _ ≤ h.frec; simp only at hregion; omega)
  have hget : ∀ i, i < h.msiz ∨ h.frec ≤ i →
      (writeAt h.file h.msiz (savedPool h.toHdbLayout pool))[i]? = h.file[i]? := fun i hi => by
    simp only at hregion
    rw [getElem?_writeAt hle]
    split_ifs <;> first | rfl | omega
  have hfo : FrontOnly h (tchdbSavefbp h) := by
    rw [hsave]
    refine ⟨rfl, rfl, ?_, fun i _ hi => hget i (Or.inl hi), fun i hi => hget i (Or.inr hi)⟩
    exact hspace.len.trans hs.len.symm
  have hhead : Head (tchdbSavefbp h) := by
    rw [hsave]
    exact hw.head.congr rfl rfl rfl rfl fun i hi => hget i (Or.inl (hi.trans_le hmsiz))
  refine ⟨hw.frontOnly hfo (by rw [hsave]; rfl) hhead ⟨lost, ?_⟩, ?_, ?_, hfo.layout, hfo.fsiz, by rw [hsave]; rfl⟩
  · rw [hsave]
    exact hspace
  · rw [hsave]
    exact holds_writeAt hle _
  · rw [hsave]
    exact hasc

/-- What a closed file has, and the pool that is saved in it. -/
structure Closed (h h' : Tchdb) (trees : ℕ → RecTree) : Prop where
  wf : Wf h' trees
  sound : MetaSound h'
  layout : h'.toHdbLayout = h.toHdbLayout
  fsiz : h'.fsiz = h.fsiz
  flag : h'.flags % 2 = 0
  saved : SavedPool h' ((allEntries h'.bnum trees).map (blockOf h'.toHdbLayout)) (orderFbp h).fbpool

theorem tchdbClose_closed (hw : Wf h trees) (hs : MetaSound h) : Closed h (tchdbClose h true) trees := by
  obtain ⟨hw₂, hregion, hasc, hlayout, hfsiz, -⟩ := tchdbSavefbp_spec hw
  obtain ⟨hw₃, hflags⟩ := hw₂.setflag hdbFopen false
  have hclose : tchdbClose h true = (tchdbSetflag (tchdbSavefbp h) hdbFopen false).write 0
      (tcdumpmeta (tchdbSetflag (tchdbSavefbp h) hdbFopen false)) := rfl
  obtain ⟨lost₂, hs₂⟩ := hw₂.forest.space
  have hlen₂ : hdbHeadSiz ≤ (tchdbSavefbp h).file.length := by
    rw [hs₂.len]
    exact hs₂.le_frec.trans hs₂.start
  obtain ⟨-, -, hlen₃, hrest₃⟩ := tchdbSetflag_spec hw₂.head hlen₂ hdbFopen false
  have hlayout₃ : (tchdbSetflag (tchdbSavefbp h) hdbFopen false).toHdbLayout = h.toHdbLayout := hlayout
  have hfsiz₃ : (tchdbSetflag (tchdbSavefbp h) hdbFopen false).fsiz = h.fsiz := hfsiz
  have hpool₃ : (tchdbSetflag (tchdbSavefbp h) hdbFopen false).fbpool = (orderFbp h).fbpool := rfl
  generalize tchdbSetflag (tchdbSavefbp h) hdbFopen false = h₃ at hw₃ hflags hclose hlen₃ hrest₃ hlayout₃ hfsiz₃ hpool₃
  rw [hclose]
  obtain ⟨lost, hs₃⟩ := hw₃.forest.space
  have hrest : ∀ i, hdbHeadSiz ≤ i → (writeAt h₃.file 0 (tcdumpmeta h₃))[i]? = h₃.file[i]? := fun i hi => by
    rw [getElem?_writeAt (Nat.zero_le _), length_tcdumpmeta, if_neg (Nat.not_lt_zero _), if_neg (by omega)]
  have hlen : (writeAt h₃.file 0 (tcdumpmeta h₃)).length = h₃.file.length := by
    rw [length_writeAt (Nat.zero_le _), length_tcdumpmeta, Nat.zero_add]
    exact max_eq_left (hlen₂.trans_eq hlen₃.symm)
  have hfo : FrontOnly h₃ (h₃.write 0 (tcdumpmeta h₃)) := .of_head hs₃ rfl rfl hlen hrest
  have hs₄ : Space (h₃.write 0 (tcdumpmeta h₃)) ((allEntries h₃.bnum trees).map (blockOf h₃.toHdbLayout)) lost :=
    hs₃.frontOnly hfo (List.Perm.refl _) le_rfl
  have hw₄ : Wf (h₃.write 0 (tcdumpmeta h₃)) trees :=
    hw₃.frontOnly hfo rfl (holds_writeAt (Nat.zero_le _) _) ⟨lost, hs₄⟩
  refine ⟨hw₄, ⟨?_, ?_, ?_⟩, hlayout₃, hfsiz₃, ?_, ?_, hasc, lost, ?_⟩
  · show h₃.type ≤ 1
    rw [hlayout₃]
    exact hs.type
  · show h₃.opts ≤ 1
    rw [hlayout₃]
    exact hs.opts
  · show h₃.flags < 2 ^ 8
    rw [hflags]
    exact newFlags_lt _ _ _
  · show h₃.flags % 2 = 0
    rw [hflags]
    exact (newFlags_open _).2
  · show Holds (writeAt h₃.file 0 (tcdumpmeta h₃)) h₃.msiz (savedPool h₃.toHdbLayout _)
    rw [hlayout₃]
    refine hregion.congr fun i hi _ => ?_
    have hi' : hdbHeadSiz ≤ i := (Nat.le_add_right _ _).trans hi
    rw [hrest i hi', hrest₃ i hi']
  · rw [← hpool₃]
    exact hs₄

theorem tchdbClose_disk (hw : Wf h trees) (hs : MetaSound h) : Disk (tchdbClose h true) trees ∧
    (tchdbClose h true).toHdbLayout = h.toHdbLayout ∧ (tchdbClose h true).fsiz = h.fsiz := by
  have hc := tchdbClose_closed hw hs
  exact ⟨⟨hc.wf, hc.sound, Or.inr ⟨_, hc.saved⟩⟩, hc.layout, hc.fsiz⟩

/-- A writer that opens a closed file has the first blocks of the pool again, all of them if they fit. -/
theorem tchdbOpen_closed (hw : Wf h trees) (hs : MetaSound h) (g : Tchdb) (nolck : Bool) :
    ∃ h' k, tchdbOpen g ⟨true, false, nolck⟩ (tchdbClose h true).file = .ok h' ∧
      h'.fbpool = (orderFbp h).fbpool.take k ∧
      ((orderFbp h).fbpool.length * 10 + 18 ≤ h.fbpsiz → h'.fbpool = (orderFbp h).fbpool) := by
  have hc := tchdbClose_closed hw hs
  obtain ⟨lost, hspace⟩ := hc.wf.forest.space
  have hfront := hspace.front
  have hstart := hspace.start
  have hlen := hspace.len
  obtain ⟨k, hload, hall⟩ := tchdbLoadfbp_saved g (by omega) hc.saved
  have hflag : (reopened (tchdbClose h true) g []).flags % 2 = 0 := hc.flag
  refine ⟨tchdbSetflag (reopened (tchdbClose h true) g ((orderFbp h).fbpool.take k)) hdbFopen true, k, ?_, rfl, fun hroom => ?_⟩
  · rw [tchdbOpen_eq hc.wf hc.sound g _ rfl, loadPool, hflag]
    show (tchdbLoadfbp _ >>= _) = _
    rw [hload]
    rfl
  · rw [hc.layout] at hall
    exact hall hroom

/-! ## A new file -/

/-- An object that a file can be made with. -/
structure Creatable (g : Tchdb) : Prop where
  sound : MetaSound g
  bnum : 0 < g.bnum
  apow : g.apow ≤ 6
  rnum : g.rnum = 0
  room : hdbHeadSiz + g.besiz * g.bnum + g.fbpsiz + g.align ≤ 2 ^ 31

/-- `tchdbnew`, with what `tchdbclear` sets. -/
def tchdbNew : Tchdb where
  type := 0
  bnum := 16381
  apow := 4
  fpow := 10
  opts := 0
  frec := 0
  file := []
  flags := 0
  rnum := 0
  fsiz := 0
  iter := 0
  fbpool := []
  fbpmis := 0

theorem creatable_tchdbNew : Creatable tchdbNew :=
  ⟨⟨by decide, by decide, by decide⟩, by decide, by decide, rfl, by decide⟩

variable {g : Tchdb}

theorem createFile_fsiz (g : Tchdb) : (createFile g).fsiz < hdbHeadSiz + g.besiz * g.bnum + g.fbpsiz + g.align ∧
    hdbHeadSiz + g.besiz * g.bnum + g.fbpsiz ≤ (createFile g).fsiz ∧ g.align ∣ (createFile g).fsiz := by
  have hlt := Space.padsize_lt { g with fsiz := hdbHeadSiz + g.besiz * g.bnum + g.fbpsiz }
  have hdvd := Space.align_dvd_pad { g with fsiz := hdbHeadSiz + g.besiz * g.bnum + g.fbpsiz }
  exact ⟨Nat.add_lt_add_left hlt _, Nat.le_add_right _ _, hdvd⟩

theorem holds_zeros {f : List UInt8} {off n : ℕ} (hz : ∀ i, off ≤ i → i < off + n → f[i]? = some 0) :
    Holds f off (List.replicate n 0) := fun i hi => by
  rw [List.length_replicate] at hi
  rw [hz (off + i) (by omega) (by omega), List.getElem?_replicate, if_pos hi]

theorem ptr_zero (g : HdbLayout) : ptr g 0 = List.replicate g.besiz 0 := by
  have hzeros : ∀ w, leBytes w 0 = List.replicate w 0 := fun w => by
    induction w with
    | zero => rfl
    | succ w ih =>
      rw [leBytes, Nat.zero_div, ih]
      rfl
  rw [ptr, Nat.zero_div, hzeros]

/-- The database of a new file. -/
def created (g : Tchdb) : Tchdb := { createFile g with fbpool := [] }

theorem allEntries_nil (n : ℕ) : allEntries n (fun _ => .nil) = [] := List.flatMap_eq_nil_iff.mpr fun _ _ => rfl

theorem created_disk (hg : Creatable g) : Disk (created g) fun _ => .nil := by
  obtain ⟨hlt, hge, hdvd⟩ := createFile_fsiz g
  have hroom := hg.room
  have hlen : (createFile g).file.length = (createFile g).fsiz := by
    show (tcdumpmeta _ ++ List.replicate ((createFile g).fsiz - hdbHeadSiz) 0).length = _
    rw [List.length_append, length_tcdumpmeta, List.length_replicate]
    omega
  have hzero : ∀ i, hdbHeadSiz ≤ i → i < (createFile g).fsiz → (createFile g).file[i]? = some 0 := fun i hi hi' => by
    show (tcdumpmeta _ ++ List.replicate ((createFile g).fsiz - hdbHeadSiz) 0)[i]? = some 0
    rw [List.getElem?_append_right (by rwa [length_tcdumpmeta]), length_tcdumpmeta, List.getElem?_replicate,
      if_pos (by omega)]
  have hfpos : 64 ≤ g.fbpsiz := Nat.le_add_right _ _
  have hmul : g.bnum * g.besiz = g.besiz * g.bnum := Nat.mul_comm _ _
  have hspace : Space (created g) ((allEntries (created g).bnum fun _ => .nil).map (blockOf (created g).toHdbLayout)) [] := by
    rw [allEntries_nil]
    refine ⟨hg.apow, Nat.zero_le _, hlen, ?_, ?_, le_rfl, hdvd, hdvd, partition_nil _, fun b hb => absurd hb List.not_mem_nil,
      fun b hb => absurd hb List.not_mem_nil⟩
    · show (createFile g).fsiz ≤ 2 ^ 31
      omega
    · show hdbHeadSiz + g.bnum * g.besiz + g.fbpsiz ≤ (createFile g).fsiz
      omega
  have hhead : Head (created g) :=
    (holds_append.mp (fun i _ => by rw [Nat.zero_add]; rfl :
      Holds (createFile g).file 0 (tcdumpmeta _ ++ List.replicate ((createFile g).fsiz - hdbHeadSiz) 0))).1
  refine ⟨⟨hg.bnum, ⟨⟨[], hspace⟩, fun b hb => ?_, fun _ _ => trivial⟩, fun _ _ => List.Pairwise.nil,
    fun _ _ e he => absurd he List.not_mem_nil, ?_, hhead⟩, ⟨hg.sound.type, hg.sound.opts, hg.sound.flags⟩,
    Or.inr ⟨[], ?_, List.Pairwise.nil, [], hspace⟩⟩
  · have hcell : (b + 1) * g.besiz ≤ g.bnum * g.besiz := Nat.mul_le_mul_right _ hb
    rw [Nat.succ_mul] at hcell
    show Holds (createFile g).file (hdbHeadSiz + b * g.besiz) (ptr g.toHdbLayout 0)
    rw [ptr_zero]
    exact holds_zeros fun i hi hi' => hzero i (by omega) (by omega)
  · rw [allEntries_nil]
    exact hg.rnum
  · show Holds (createFile g).file (hdbHeadSiz + g.bnum * g.besiz) (List.replicate 2 0)
    exact holds_zeros fun i hi hi' => hzero i (by omega) (by omega)

/-- A file that is made is one that is there from then on. -/
theorem tchdbOpen_create (g : Tchdb) (omode : Omode) (file : List UInt8) (hw : omode.writer = true)
    (hnew : omode.trunc = true ∨ file = []) :
    tchdbOpen g omode file = tchdbOpen g { omode with trunc := false } (createFile g).file := by
  have hlen : hdbHeadSiz ≤ (createFile g).file.length := by
    show hdbHeadSiz ≤ (tcdumpmeta _ ++ List.replicate ((createFile g).fsiz - hdbHeadSiz) 0).length
    rw [List.length_append, length_tcdumpmeta]
    exact Nat.le_add_right _ _
  have hempty : (if omode.writer && omode.trunc then [] else file) = [] := by
    rcases hnew with ht | hf
    · rw [hw, ht]
      rfl
    · rw [hf, ite_self]
  have hold : (omode.writer && decide ((createFile g).file.length < 1)) = false := by
    rw [hdbHeadSiz] at hlen
    rw [decide_eq_false (by omega), Bool.and_false]
  have hmake : prepareFile g omode file = createFile g := by
    have hshort : (omode.writer && decide (([] : List UInt8).length < 1)) = true := by
      rw [hw]
      rfl
    rw [prepareFile, hempty]
    exact if_pos hshort
  have hkeep : prepareFile g { omode with trunc := false } (createFile g).file = { g with file := (createFile g).file } := by
    simp only [prepareFile, Bool.and_false, Bool.false_eq_true, if_false, hold]
  rw [tchdbOpen, tchdbOpen, hmake, hkeep]
  rfl

theorem tchdbOpen_new (hg : Creatable g) (omode : Omode) (file : List UInt8) (hw : omode.writer = true)
    (hnew : omode.trunc = true ∨ file = []) :
    ∃ h', tchdbOpen g omode file = .ok h' ∧ Opened (createFile g) h' (fun _ => .nil) true := by
  rw [tchdbOpen_create g omode file hw hnew]
  obtain ⟨h', heq, hopen⟩ := tchdbOpen_disk (created_disk hg) g { omode with trunc := false } (Bool.and_false _)
  refine ⟨h', heq, ?_⟩
  obtain ⟨hdisk, hlayout, hfsiz, hrnum, hflag⟩ := hopen
  exact ⟨hdisk, hlayout, hfsiz, hrnum, fun _ => hflag hw⟩

end

end Fms
