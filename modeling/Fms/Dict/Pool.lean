import Fms.Dict.Record
import Fms.Lib.Blocks
import Fms.Lib.HeapSort

/-!
# The pool of free blocks

src/lib/libdict/tchdb.c: where a record is written, and what becomes of the room that it leaves.

* `tchdbFbpMerge`, `tchdbFbpInsert`, `tchdbFbpSearch`, `tchdbFbpSplice`: the pool;
* `FreeRun`: room in the file that is free, by the headers in it;
* `Space h live lost`: the blocks in use, those of the pool and those that the pool has lost are a
  partition of the file behind its first record;
* **`Space.insert`**, **`Space.search`**, **`Space.splice`**: the pool keeps it.
-/

namespace Fms

open Bytes Blocks

/-- `tchdbwritefb` -/
def tchdbWritefb (h : Tchdb) (off rsiz : ℕ) : Tchdb := h.write off (hdbMagicFb :: leBytes 4 rsiz)

def tcfbpsortbyoff (fbpool : List Hdbfb) : List Hdbfb := HeapSort.sort Hdbfb.off fbpool

def tcfbpsortbyrsiz (fbpool : List Hdbfb) : List Hdbfb := HeapSort.sort Hdbfb.rsiz fbpool

/-- The loop of `tchdbfbpmerge`. A block that is merged into the one before it gets an offset of 0, and
is not merged with the next one. -/
def mergeLoop : List Hdbfb → List Hdbfb
  | [] => []
  | [last] => if last.off > 0 then [last] else []
  | cur :: next :: rest =>
    if cur.off > 0 then
      if cur.off + cur.rsiz = next.off then
        { cur with rsiz := (cur.rsiz + next.rsiz) % 2 ^ 32 } :: mergeLoop ({ next with off := 0 } :: rest)
      else cur :: mergeLoop (next :: rest)
    else mergeLoop (next :: rest)
termination_by l => l.length

def tchdbFbpMerge (h : Tchdb) : Tchdb :=
  let pool := mergeLoop (tcfbpsortbyoff h.fbpool)
  { h with fbpool := pool, fbpmis := if pool.length < h.fbpool.length then 0 else pool.length * -2 }

/-- Merged, and sorted by size. -/
def tchdbFbpSortMerge (h : Tchdb) : Tchdb :=
  let h := tchdbFbpMerge h
  { h with fbpool := tcfbpsortbyrsiz h.fbpool }

/-- Room in the pool: it is merged, and if that is not enough the first ones are dropped. -/
def tchdbFbpReduce (h : Tchdb) : Tchdb :=
  let h := tchdbFbpSortMerge h
  let h := if h.fbpool.length ≥ h.fbpmax then { h with fbpool := h.fbpool.drop (h.fbpmax / 4 + 1) } else h
  { h with fbpmis := 0 }

def tchdbFbpInsert (h : Tchdb) (off rsiz : ℕ) : Tchdb :=
  if h.fpow < 1 then h
  else
    let h := if h.fbpool.length ≥ h.fbpmax then tchdbFbpReduce h else h
    { h with fbpool := h.fbpool ++ [⟨off, rsiz⟩] }

/-- The last one in front: what is left behind a place of the pool when the last one is moved there. -/
def lastFirst (l : List Hdbfb) : List Hdbfb := l.getLast?.toList ++ l.dropLast

/-- The first free block that a condition holds of, what is before it and what is behind it. -/
def scan (p : Hdbfb → Bool) : List Hdbfb → Option (List Hdbfb × Hdbfb × List Hdbfb)
  | [] => none
  | pv :: rest => if p pv then some ([], pv, rest) else (scan p rest).map fun r => (pv :: r.1, r.2)

/-- `tchdbfbpsearch`: where a record of `rec.rsiz` bytes goes; a size of 0 is the end of the file. -/
def tchdbFbpSearch (h : Tchdb) (rec : Tchrec) : Tchdb × Tchrec :=
  if h.fbpool.length < 1 then (h, { rec with off := h.fsiz, rsiz := 0 })
  else
    match scan (fun pv => pv.rsiz > rec.rsiz) h.fbpool with
    | some (l₁, pv, l₂) =>
      if pv.rsiz > rec.rsiz * 2 % 2 ^ 32 then
        let psiz := tchdbPadsize { h with fsiz := pv.off + rec.rsiz }
        let noff := pv.off + rec.rsiz + psiz
        let rsiz := noff - pv.off
        (tchdbWritefb { h with fbpool := l₁ ++ ⟨noff, pv.rsiz - rsiz⟩ :: l₂ } noff (pv.rsiz - rsiz),
          { rec with off := pv.off, rsiz := rsiz })
      else ({ h with fbpool := l₁ ++ lastFirst l₂ }, { rec with off := pv.off, rsiz := pv.rsiz })
    | none =>
      let h := { h with fbpmis := h.fbpmis + 1 }
      (if h.fbpmis ≥ 256 then tchdbFbpSortMerge h else h, { rec with off := h.fsiz, rsiz := 0 })

/-- `tchdbfbpsplice`: the free block behind the record, if it is there and large enough with it. -/
def tchdbFbpSplice (h : Tchdb) (rec : Tchrec) (nsiz : ℕ) : Option (Tchdb × Tchrec) :=
  (scan (fun pv => pv.off = rec.off + rec.rsiz ∧ (rec.rsiz + pv.rsiz) % 2 ^ 32 ≥ nsiz) h.fbpool).map
    fun (l₁, pv, l₂) =>
      ({ h with fbpool := l₁ ++ lastFirst l₂, iter := if h.iter = pv.off then h.iter + pv.rsiz else h.iter },
        { rec with rsiz := (rec.rsiz + pv.rsiz) % 2 ^ 32 })

/-! ## Lists of free blocks -/

theorem lastFirst_perm (l : List Hdbfb) : (lastFirst l).Perm l := by
  rcases List.eq_nil_or_concat l with rfl | ⟨l, x, rfl⟩
  · exact List.Perm.refl _
  · rw [lastFirst, List.concat_eq_append, List.getLast?_concat, List.dropLast_concat]
    exact List.perm_append_comm

theorem scan_eq_some {p : Hdbfb → Bool} {l l₁ l₂ : List Hdbfb} {pv : Hdbfb} (hs : scan p l = some (l₁, pv, l₂)) :
    l = l₁ ++ pv :: l₂ ∧ p pv = true := by
  induction l generalizing l₁ with
  | nil => exact absurd hs (by simp [scan])
  | cons x l ih =>
    rw [scan] at hs
    split_ifs at hs with hx
    · cases hs
      exact ⟨rfl, hx⟩
    · obtain ⟨⟨m, y, n⟩, hm, heq⟩ := Option.map_eq_some_iff.mp hs
      cases heq
      obtain ⟨rfl, hp⟩ := ih hm
      exact ⟨rfl, hp⟩

theorem perm_of_scan {p : Hdbfb → Bool} {l l₁ l₂ : List Hdbfb} {pv : Hdbfb} (hs : scan p l = some (l₁, pv, l₂)) :
    l.Perm (pv :: (l₁ ++ lastFirst l₂)) := by
  obtain ⟨rfl, -⟩ := scan_eq_some hs
  exact List.perm_middle.trans (((lastFirst_perm l₂).symm.append_left l₁).cons pv)

/-! ## Free room -/

/-- Room that is free: one header after the other, each of the room up to the next one. -/
inductive FreeRun (f : List UInt8) : ℕ → ℕ → Prop
  | nil (off : ℕ) : FreeRun f off 0
  | cons {off n m : ℕ} (head : Holds f off (hdbMagicFb :: leBytes 4 n)) (hn : 5 ≤ n) (hlt : n < 2 ^ 32)
      (rest : FreeRun f (off + n) m) : FreeRun f off (n + m)

theorem FreeRun.append {f : List UInt8} {off n m : ℕ} (h : FreeRun f off n) (h' : FreeRun f (off + n) m) :
    FreeRun f off (n + m) := by
  induction h with
  | nil off => rwa [Nat.zero_add]
  | cons head hn hlt _ ih =>
    rw [Nat.add_assoc]
    exact .cons head hn hlt (ih (by rwa [Nat.add_assoc]))

theorem FreeRun.congr {f f' : List UInt8} {off n : ℕ} (h : FreeRun f off n)
    (heq : ∀ i, off ≤ i → i < off + n → f'[i]? = f[i]?) : FreeRun f' off n := by
  induction h with
  | nil off => exact .nil off
  | @cons off n m head hn hlt _ ih =>
    refine .cons (head.congr fun i hi hi' => heq i hi ?_) hn hlt (ih fun i hi hi' => heq i (by omega) (by omega))
    rw [List.length_cons, length_leBytes] at hi'
    omega

theorem freeRun_writefb {h : Tchdb} {off n : ℕ} (hle : off ≤ h.file.length) (hn : 5 ≤ n) (hlt : n < 2 ^ 32) :
    FreeRun (tchdbWritefb h off n).file off n :=
  .cons (m := 0) (holds_writeAt hle _) hn hlt (.nil _)

def Hdbfb.block (fb : Hdbfb) : Block := ⟨fb.off, fb.rsiz⟩

/-- The file behind its first record: blocks in use, and free ones. -/
structure FreeBlocks (h : Tchdb) (live : List Block) (fs : List Hdbfb) : Prop where
  part : Partition h.frec h.fsiz (live ++ fs.map Hdbfb.block)
  aligned : ∀ b ∈ live ++ fs.map Hdbfb.block, h.align ∣ b.off ∧ h.align ∣ b.len
  free : ∀ fb ∈ fs, FreeRun h.file fb.off fb.rsiz

/-- The room of a database: the blocks in use, those of the pool, and those that are lost. -/
structure Space (h : Tchdb) (live : List Block) (lost : List Hdbfb) : Prop where
  apow : h.apow ≤ 6
  pool : h.fbpool.length ≤ h.fbpmax
  len : h.file.length = h.fsiz
  small : h.fsiz ≤ 2 ^ 31
  front : h.msiz + h.fbpsiz ≤ h.frec
  start : h.frec ≤ h.fsiz
  frecAligned : h.align ∣ h.frec
  fsizAligned : h.align ∣ h.fsiz
  blocks : FreeBlocks h live (h.fbpool ++ lost)

namespace FreeBlocks
variable {h : Tchdb} {live : List Block} {fs fs' : List Hdbfb}

theorem perm (hb : FreeBlocks h live fs) (hp : fs.Perm fs') : FreeBlocks h live fs' where
  part := hb.part.perm ((hp.map _).append_left _)
  aligned := fun b hb' => hb.aligned b (((hp.map _).append_left _).mem_iff.mpr hb')
  free := fun fb hfb => hb.free fb (hp.mem_iff.mpr hfb)

theorem perm_live {live' : List Block} (hb : FreeBlocks h live fs) (hp : live.Perm live') :
    FreeBlocks h live' fs where
  part := hb.part.perm (hp.append_right _)
  aligned := fun b hb' => hb.aligned b ((hp.append_right _).mem_iff.mpr hb')
  free := hb.free

theorem take {off n : ℕ} (hb : FreeBlocks h live (⟨off, n⟩ :: fs)) : FreeBlocks h (⟨off, n⟩ :: live) fs where
  part := hb.part.perm List.perm_middle
  aligned := fun b hb' => hb.aligned b (List.perm_middle.mem_iff.mpr hb')
  free := fun fb hfb => hb.free fb (List.mem_cons_of_mem _ hfb)

theorem join {off m n : ℕ} (hb : FreeBlocks h live (⟨off, m⟩ :: ⟨off + m, n⟩ :: fs)) :
    FreeBlocks h live (⟨off, m + n⟩ :: fs) := by
  have hp : (live ++ (⟨off, m⟩ :: ⟨off + m, n⟩ :: fs).map Hdbfb.block).Perm
      (⟨off, m⟩ :: ⟨off + m, n⟩ :: (live ++ fs.map Hdbfb.block)) :=
    List.perm_middle.trans (List.perm_middle.cons _)
  have halign := fun b hb' => hb.aligned b (hp.mem_iff.mpr hb')
  refine ⟨(hb.part.perm hp).join.perm List.perm_middle.symm, fun b hb' => ?_, fun fb hfb => ?_⟩
  · rcases List.mem_cons.mp (List.perm_middle.mem_iff.mp hb') with rfl | hb'
    · have h1 := halign ⟨off, m⟩ List.mem_cons_self
      have h2 := halign ⟨off + m, n⟩ (List.mem_cons_of_mem _ List.mem_cons_self)
      exact ⟨h1.1, dvd_add h1.2 h2.2⟩
    · exact halign b (List.mem_cons_of_mem _ (List.mem_cons_of_mem _ hb'))
  · rcases List.mem_cons.mp hfb with rfl | hfb
    · exact (hb.free ⟨off, m⟩ List.mem_cons_self).append
        (hb.free ⟨off + m, n⟩ (List.mem_cons_of_mem _ List.mem_cons_self))
    · exact hb.free fb (List.mem_cons_of_mem _ (List.mem_cons_of_mem _ hfb))

theorem splitLive {off n m : ℕ} (hb : FreeBlocks h (⟨off, n + m⟩ :: live) fs) (hn : 0 < n) (hm : 0 < m)
    (hdvd : h.align ∣ n) : FreeBlocks h (⟨off, n⟩ :: ⟨off + n, m⟩ :: live) fs where
  part := hb.part.split hn hm
  aligned := fun b hb' => by
    have hall := hb.aligned ⟨off, n + m⟩ List.mem_cons_self
    rcases List.mem_cons.mp hb' with rfl | hb'
    · exact ⟨hall.1, hdvd⟩
    · rcases List.mem_cons.mp hb' with rfl | hb'
      · exact ⟨dvd_add hall.1 hdvd, (Nat.dvd_add_right hdvd).mp hall.2⟩
      · exact hb.aligned b (List.mem_cons_of_mem _ hb')
  free := hb.free

theorem joinLive {off n m : ℕ} (hb : FreeBlocks h (⟨off, n⟩ :: ⟨off + n, m⟩ :: live) fs) :
    FreeBlocks h (⟨off, n + m⟩ :: live) fs where
  part := hb.part.join
  aligned := fun b hb' => by
    rcases List.mem_cons.mp hb' with rfl | hb'
    · have h1 := hb.aligned ⟨off, n⟩ List.mem_cons_self
      have h2 := hb.aligned ⟨off + n, m⟩ (List.mem_cons_of_mem _ List.mem_cons_self)
      exact ⟨h1.1, dvd_add h1.2 h2.2⟩
    · exact hb.aligned b (List.mem_cons_of_mem _ (List.mem_cons_of_mem _ hb'))
  free := hb.free

theorem write (hb : FreeBlocks h live fs) {o : ℕ} {bs : List UInt8} (hle : o ≤ h.file.length)
    (hd : ∀ fb ∈ fs, o + bs.length ≤ fb.off ∨ fb.off + fb.rsiz ≤ o) : FreeBlocks (h.write o bs) live fs where
  part := hb.part
  aligned := hb.aligned
  free := fun fb hfb => (hb.free fb hfb).congr fun i hi hi' => by
    have := hd fb hfb
    rw [Tchdb.write, getElem?_writeAt hle]
    split_ifs <;> first | rfl | omega

theorem release {off n : ℕ} (hb : FreeBlocks h (⟨off, n⟩ :: live) fs) (hn : 5 ≤ n) (hlt : n < 2 ^ 32)
    (hle : off ≤ h.file.length) : FreeBlocks (tchdbWritefb h off n) live (⟨off, n⟩ :: fs) := by
  have hapart : ∀ fb ∈ fs, off + 5 ≤ fb.off ∨ fb.off + fb.rsiz ≤ off := fun fb hfb => by
    have := hb.part.apart_of_cons (List.mem_append_right _ (List.mem_map_of_mem hfb))
    simp only [Block.Apart, Hdbfb.block] at this
    omega
  have hw : FreeBlocks (tchdbWritefb h off n) (⟨off, n⟩ :: live) fs :=
    hb.write hle (by simpa using hapart)
  refine ⟨hw.part.perm List.perm_middle.symm, fun b hb' => hw.aligned b (List.perm_middle.mem_iff.mp hb'), ?_⟩
  intro fb hfb
  rcases List.mem_cons.mp hfb with rfl | hfb
  · exact freeRun_writefb hle hn hlt
  · exact hw.free fb hfb

theorem inside_free (hb : FreeBlocks h live fs) {fb : Hdbfb} (hfb : fb ∈ fs) :
    h.frec ≤ fb.off ∧ 0 < fb.rsiz ∧ fb.off + fb.rsiz ≤ h.fsiz :=
  hb.part.inside fb.block (List.mem_append_right _ (List.mem_map_of_mem hfb))

end FreeBlocks

/-! ## Merging -/

theorem mergeLoop_marked (rsiz : ℕ) (rest : List Hdbfb) : mergeLoop (⟨0, rsiz⟩ :: rest) = mergeLoop rest := by
  cases rest with
  | nil => simp [mergeLoop]
  | cons next rest => rw [mergeLoop, if_neg (lt_irrefl 0)]

theorem length_mergeLoop_le (l : List Hdbfb) : (mergeLoop l).length ≤ l.length := by
  induction l using mergeLoop.induct with
  | case1 => simp [mergeLoop]
  | case2 last hpos => rw [mergeLoop, if_pos hpos]
  | case3 last hpos =>
    rw [mergeLoop, if_neg hpos]
    exact Nat.zero_le _
  | case4 cur next rest hpos heq ih =>
    rw [mergeLoop, if_pos hpos, if_pos heq]
    exact Nat.succ_le_succ ih
  | case5 cur next rest hpos heq ih =>
    rw [mergeLoop, if_pos hpos, if_neg heq]
    exact Nat.succ_le_succ ih
  | case6 cur next rest hpos ih =>
    rw [mergeLoop, if_neg hpos]
    exact Nat.le_succ_of_le ih

/-- What is merged are the same free bytes. -/
theorem FreeBlocks.mergeLoop {h : Tchdb} {live : List Block} (hpos : 0 < h.frec) (hsmall : h.fsiz ≤ 2 ^ 31)
    (l acc : List Hdbfb) (hb : FreeBlocks h live (l ++ acc)) : FreeBlocks h live (Fms.mergeLoop l ++ acc) := by
  induction hn : l.length using Nat.strong_induction_on generalizing l acc with
  | _ n ih =>
    have hoff : ∀ fb ∈ l, 0 < fb.off := fun fb hfb =>
      hpos.trans_le (hb.inside_free (List.mem_append_left _ hfb)).1
    match l, hn with
    | [], _ => simpa [Fms.mergeLoop] using hb
    | [last], _ =>
      rw [Fms.mergeLoop, if_pos (hoff last List.mem_cons_self)]
      exact hb
    | cur :: next :: rest, hn =>
      subst hn
      rw [Fms.mergeLoop, if_pos (hoff cur List.mem_cons_self)]
      split_ifs with heq
      · have hin := hb.inside_free (List.mem_append_left _ (List.mem_cons_of_mem _ List.mem_cons_self))
        have hjoin : FreeBlocks h live (⟨cur.off, cur.rsiz + next.rsiz⟩ :: (rest ++ acc)) := by
          refine FreeBlocks.join ?_
          rw [heq]
          exact hb
        rw [mergeLoop_marked, Nat.mod_eq_of_lt (by rw [← heq] at hin; omega), List.cons_append]
        have := ih rest.length (by simp only [List.length_cons]; omega) rest
          (⟨cur.off, cur.rsiz + next.rsiz⟩ :: acc) (hjoin.perm List.perm_middle.symm) rfl
        exact this.perm List.perm_middle
      · have := ih (next :: rest).length (by simp only [List.length_cons]; omega) (next :: rest) (cur :: acc)
          (hb.perm List.perm_middle.symm) rfl
        exact this.perm List.perm_middle

/-! ## The pool keeps the room -/

/-- Nothing but the pool is changed. -/
def PoolOnly (h h' : Tchdb) : Prop := ∃ pool mis, h' = { h with fbpool := pool, fbpmis := mis }

/-- Nothing that is in use is changed: neither what is in front of the first record nor these blocks. -/
structure Agree (h h' : Tchdb) (live : List Block) : Prop where
  layout : h'.toHdbLayout = h.toHdbLayout
  flags : h'.flags = h.flags
  rnum : h'.rnum = h.rnum
  front : ∀ i, i < h.frec → h'.file[i]? = h.file[i]?
  blocks : ∀ b ∈ live, ∀ i, b.off ≤ i → i < b.off + b.len → h'.file[i]? = h.file[i]?

theorem PoolOnly.agree {h h' : Tchdb} (hp : PoolOnly h h') (live : List Block) : Agree h h' live := by
  obtain ⟨pool, mis, rfl⟩ := hp
  exact ⟨rfl, rfl, rfl, fun _ _ => rfl, fun _ _ _ _ _ => rfl⟩

theorem Agree.trans {h h' h'' : Tchdb} {live : List Block} (ha : Agree h h' live) (hb : Agree h' h'' live) :
    Agree h h'' live where
  layout := hb.layout.trans ha.layout
  flags := hb.flags.trans ha.flags
  rnum := hb.rnum.trans ha.rnum
  front := fun i hi => (hb.front i (by rw [ha.layout]; exact hi)).trans (ha.front i hi)
  blocks := fun b hb' i hi hi' => (hb.blocks b hb' i hi hi').trans (ha.blocks b hb' i hi hi')

namespace Space
variable {h : Tchdb} {live : List Block} {lost : List Hdbfb}

theorem frec_pos (hs : Space h live lost) : 0 < h.frec := by
  have := hs.front
  rw [HdbLayout.msiz, hdbHeadSiz] at this
  omega

theorem withPool (hs : Space h live lost) {pool lost' : List Hdbfb} (mis : ℤ)
    (hb : FreeBlocks h live (pool ++ lost')) (hp : pool.length ≤ h.fbpmax) :
    Space { h with fbpool := pool, fbpmis := mis } live lost' :=
  ⟨hs.apow, hp, hs.len, hs.small, hs.front, hs.start, hs.frecAligned, hs.fsizAligned,
    ⟨hb.part, hb.aligned, hb.free⟩⟩

theorem permLost (hs : Space h live lost) {lost' : List Hdbfb} (hp : lost.Perm lost') : Space h live lost' :=
  { hs with blocks := hs.blocks.perm (hp.append_left _) }

theorem merge (hs : Space h live lost) : Space (tchdbFbpMerge h) live lost := by
  have hoff : FreeBlocks h live (tcfbpsortbyoff h.fbpool ++ lost) :=
    hs.blocks.perm ((HeapSort.sort_perm _).symm.append_right lost)
  have hlen : (mergeLoop (tcfbpsortbyoff h.fbpool)).length ≤ h.fbpmax :=
    ((length_mergeLoop_le _).trans_eq (HeapSort.sort_perm _).length_eq).trans hs.pool
  exact hs.withPool _ (hoff.mergeLoop hs.frec_pos hs.small) hlen

theorem sortMerge (hs : Space h live lost) : Space (tchdbFbpSortMerge h) live lost :=
  hs.merge.withPool _ (hs.merge.blocks.perm ((HeapSort.sort_perm _).symm.append_right lost))
    ((HeapSort.sort_perm _).length_eq.trans_le hs.merge.pool)

theorem poolOnly_sortMerge (h : Tchdb) : PoolOnly h (tchdbFbpSortMerge h) := ⟨_, _, rfl⟩

theorem reduce (hs : Space h live lost) :
    ∃ dropped, Space (tchdbFbpReduce h) live (dropped ++ lost) ∧ (tchdbFbpReduce h).fbpool.length < h.fbpmax := by
  have hpos : 0 < h.fbpmax := Nat.two_pow_pos _
  have hmax : (tchdbFbpSortMerge h).fbpmax = h.fbpmax := rfl
  rw [tchdbFbpReduce]
  split_ifs with hge
  · have hperm : ((tchdbFbpSortMerge h).fbpool ++ lost).Perm
        ((tchdbFbpSortMerge h).fbpool.drop (h.fbpmax / 4 + 1) ++
          ((tchdbFbpSortMerge h).fbpool.take (h.fbpmax / 4 + 1) ++ lost)) := by
      rw [← List.append_assoc]
      refine List.Perm.append_right lost ?_
      conv_lhs => rw [← List.take_append_drop (h.fbpmax / 4 + 1) (tchdbFbpSortMerge h).fbpool]
      exact List.perm_append_comm
    have hlen : ((tchdbFbpSortMerge h).fbpool.drop (h.fbpmax / 4 + 1)).length < h.fbpmax := by
      have := hs.sortMerge.pool
      rw [List.length_drop]
      omega
    exact ⟨_, hs.sortMerge.withPool 0 (hs.sortMerge.blocks.perm hperm) hlen.le, hlen⟩
  · exact ⟨[], hs.sortMerge.withPool 0 hs.sortMerge.blocks hs.sortMerge.pool, not_le.mp hge⟩

theorem poolOnly_reduce (h : Tchdb) : PoolOnly h (tchdbFbpReduce h) := by
  rw [tchdbFbpReduce]
  split_ifs <;> exact ⟨_, _, rfl⟩

theorem insert {off rsiz : ℕ} (hs : Space h live (⟨off, rsiz⟩ :: lost)) :
    ∃ lost', Space (tchdbFbpInsert h off rsiz) live lost' := by
  have hadd : ∀ {k : Tchdb} {l : List Hdbfb}, Space k live (⟨off, rsiz⟩ :: l) → k.fbpool.length < k.fbpmax →
      Space { k with fbpool := k.fbpool ++ [⟨off, rsiz⟩] } live l := fun hk hlt =>
    hk.withPool _ (by rw [List.append_assoc]; exact hk.blocks) (by rw [List.length_append]; exact hlt)
  rw [tchdbFbpInsert]
  split_ifs with hpow hge
  · exact ⟨_, hs⟩
  · obtain ⟨dropped, hs', hlt⟩ := hs.reduce
    exact ⟨_, hadd (hs'.permLost List.perm_middle) (hlt.trans_eq (by
      obtain ⟨pool, mis, heq⟩ := poolOnly_reduce h
      rw [heq]))⟩
  · exact ⟨lost, hadd hs (not_le.mp hge)⟩

theorem poolOnly_insert (h : Tchdb) (off rsiz : ℕ) : PoolOnly h (tchdbFbpInsert h off rsiz) := by
  rw [tchdbFbpInsert]
  split_ifs
  · exact ⟨_, _, rfl⟩
  · obtain ⟨pool, mis, heq⟩ := poolOnly_reduce h
    exact ⟨_, _, by rw [heq]⟩
  · exact ⟨_, _, rfl⟩

theorem withBlocks (hs : Space h live lost) {h' : Tchdb} {live' : List Block} {lost' : List Hdbfb}
    (hlayout : h'.toHdbLayout = h.toHdbLayout) (hfsiz : h'.fsiz = h.fsiz) (hlen : h'.file.length = h.file.length)
    (hpool : h'.fbpool.length ≤ h.fbpool.length) (hb : FreeBlocks h' live' (h'.fbpool ++ lost')) :
    Space h' live' lost' where
  apow := hlayout ▸ hs.apow
  pool := hlayout ▸ hpool.trans hs.pool
  len := hlen.trans (hs.len.trans hfsiz.symm)
  small := hfsiz ▸ hs.small
  front := hlayout ▸ hs.front
  start := by rw [hlayout, hfsiz]; exact hs.start
  frecAligned := hlayout ▸ hs.frecAligned
  fsizAligned := by rw [hlayout, hfsiz]; exact hs.fsizAligned
  blocks := hb

theorem align_dvd_pad (h : Tchdb) : h.align ∣ h.fsiz + tchdbPadsize h := by
  have hpos : 0 < h.align := Nat.two_pow_pos _
  have hmod := Nat.mod_lt h.fsiz hpos
  rw [tchdbPadsize]
  split_ifs with hdiff
  · refine ⟨h.fsiz / h.align + 1, ?_⟩
    have := Nat.div_add_mod h.fsiz h.align
    rw [Nat.mul_add]
    omega
  · exact Nat.dvd_of_mod_eq_zero (by rw [Nat.add_zero]; omega)

theorem padsize_lt (h : Tchdb) : tchdbPadsize h < h.align := by
  have hpos : 0 < h.align := Nat.two_pow_pos _
  rw [tchdbPadsize]
  split_ifs <;> omega

/-- A block that is more than twice as large is divided, and both parts have room for their headers. -/
theorem divide_room {a off n len pad : ℕ} (ha : a ≤ 6) (hoff : 2 ^ a ∣ off) (hlen : 2 ^ a ∣ len)
    (hpad : 2 ^ a ∣ off + n + pad) (hlt : pad < 2 ^ a) (hn : 14 ≤ n) (hbig : 2 ^ a ≤ n ∨ 32 ≤ n) (h2 : 2 * n < len) :
    2 ^ a ∣ n + pad ∧ n + pad + 5 ≤ len := by
  have hdvd : 2 ^ a ∣ n + pad := (Nat.dvd_add_right hoff).mp (by rwa [← Nat.add_assoc])
  refine ⟨hdvd, ?_⟩
  interval_cases a <;> omega

theorem takeBlock (hs : Space h live lost) {pv : Hdbfb} {rest : List Hdbfb} (hp : h.fbpool.Perm (pv :: rest)) :
    FreeBlocks h (pv.block :: live) (rest ++ lost) :=
  (hs.blocks.perm (hp.append_right lost)).take

/-- A block of the pool divided: the front is in use from now on, and the rest stays in the pool. -/
theorem divide (hs : Space h live lost) {l₁ l₂ : List Hdbfb} {pv : Hdbfb} (hpool : h.fbpool = l₁ ++ pv :: l₂)
    {m : ℕ} (hdvd : h.align ∣ m) (hpos : 0 < m) (hm : m + 5 ≤ pv.rsiz) :
    Space (tchdbWritefb { h with fbpool := l₁ ++ ⟨pv.off + m, pv.rsiz - m⟩ :: l₂ } (pv.off + m) (pv.rsiz - m))
        (⟨pv.off, m⟩ :: live) lost ∧
      Agree h (tchdbWritefb { h with fbpool := l₁ ++ ⟨pv.off + m, pv.rsiz - m⟩ :: l₂ } (pv.off + m) (pv.rsiz - m))
        live := by
  have hmem : pv ∈ h.fbpool ++ lost := by simp [hpool]
  have hin := hs.blocks.inside_free hmem
  have hsmall := hs.small
  have hle : pv.off + m + 5 ≤ h.file.length := by rw [hs.len]; omega
  have hwrite : (writeAt h.file (pv.off + m) (hdbMagicFb :: leBytes 4 (pv.rsiz - m))).length = h.file.length := by
    rw [length_writeAt (by omega), List.length_cons, length_leBytes]
    omega
  have htake : FreeBlocks h (⟨pv.off, m + (pv.rsiz - m)⟩ :: live) (l₁ ++ l₂ ++ lost) := by
    rw [Nat.add_sub_cancel' (by omega)]
    exact hs.takeBlock (hpool ▸ List.perm_middle)
  have hsplit := (htake.splitLive hpos (by omega) hdvd).perm_live (List.Perm.swap _ _ _)
  have hrelease := hsplit.release (by omega) (by omega) (by omega)
  constructor
  · refine hs.withBlocks rfl rfl hwrite (by simp [tchdbWritefb, Tchdb.write, hpool]) ?_
    have hperm : (⟨pv.off + m, pv.rsiz - m⟩ :: (l₁ ++ l₂ ++ lost)).Perm
        (l₁ ++ ⟨pv.off + m, pv.rsiz - m⟩ :: l₂ ++ lost) := by
      rw [List.append_assoc, List.append_assoc]
      exact List.perm_middle.symm
    have hblocks := hrelease.perm hperm
    exact ⟨hblocks.part, hblocks.aligned, hblocks.free⟩
  · have hget : ∀ i, i < pv.off + m ∨ pv.off + pv.rsiz ≤ i →
        (writeAt h.file (pv.off + m) (hdbMagicFb :: leBytes 4 (pv.rsiz - m)))[i]? = h.file[i]? := by
      intro i hi
      rw [getElem?_writeAt (by omega), List.length_cons, length_leBytes]
      split_ifs <;> first | rfl | omega
    refine ⟨rfl, rfl, rfl, fun i hi => hget i (Or.inl (by omega)), fun b hb i hi hi' => hget i ?_⟩
    have hapart := htake.part.apart_of_cons (List.mem_append_left _ hb)
    simp only [Block.Apart] at hapart
    omega

/-- What a search for room of `rec.rsiz` bytes finds: the end of the file, or a block of the pool that is
in use from now on. -/
structure Found (h h' : Tchdb) (rec rec' : Tchrec) (live : List Block) : Prop where
  agree : Agree h h' live
  fsiz : h'.fsiz = h.fsiz
  same : rec' = { rec with off := rec'.off, rsiz := rec'.rsiz }
  room : (rec'.rsiz = 0 ∧ rec'.off = h.fsiz ∧ ∃ lost', Space h' live lost') ∨
    (rec.rsiz ≤ rec'.rsiz ∧ ∃ lost', Space h' (⟨rec'.off, rec'.rsiz⟩ :: live) lost')

theorem search (hs : Space h live lost) (rec : Tchrec) (hn : 14 ≤ rec.rsiz) (hbig : h.align ≤ rec.rsiz ∨ 32 ≤ rec.rsiz)
    (hlt : rec.rsiz < 2 ^ 31) :
    Found h (tchdbFbpSearch h rec).1 rec (tchdbFbpSearch h rec).2 live := by
  rw [tchdbFbpSearch]
  split_ifs with hempty
  · exact ⟨PoolOnly.agree ⟨_, _, rfl⟩ live, rfl, rfl, Or.inl ⟨rfl, rfl, lost, hs⟩⟩
  · split
    · rename_i l₁ pv l₂ hscan
      obtain ⟨hpool, hp⟩ := scan_eq_some hscan
      have hgt : rec.rsiz < pv.rsiz := of_decide_eq_true hp
      have hin := hs.blocks.aligned pv.block (by simp [hpool])
      split_ifs with hdiv
      · rw [Nat.mod_eq_of_lt (by omega)] at hdiv
        have hdvd := align_dvd_pad { h with fsiz := pv.off + rec.rsiz }
        have hpadlt := padsize_lt { h with fsiz := pv.off + rec.rsiz }
        generalize tchdbPadsize { h with fsiz := pv.off + rec.rsiz } = pad at hdvd hpadlt
        obtain ⟨hdvd, hroom⟩ := divide_room hs.apow hin.1 hin.2 hdvd hpadlt hn hbig
          (show 2 * rec.rsiz < pv.rsiz by omega)
        obtain ⟨hspace, hagree⟩ := hs.divide hpool hdvd (by omega) hroom
        dsimp only
        rw [show pv.off + rec.rsiz + pad - pv.off = rec.rsiz + pad by omega, Nat.add_assoc]
        exact ⟨hagree, rfl, rfl, Or.inr ⟨Nat.le_add_right _ _, lost, hspace⟩⟩
      · have htake := hs.takeBlock (perm_of_scan hscan)
        have hspace : Space { h with fbpool := l₁ ++ lastFirst l₂ } (pv.block :: live) lost :=
          hs.withBlocks rfl rfl rfl
            ((Nat.le_succ _).trans_eq (perm_of_scan hscan).length_eq.symm) ⟨htake.part, htake.aligned, htake.free⟩
        exact ⟨PoolOnly.agree ⟨_, _, rfl⟩ live, rfl, rfl, Or.inr ⟨hgt.le, lost, hspace⟩⟩
    · have hspace : Space { h with fbpmis := h.fbpmis + 1 } live lost := hs.withPool _ hs.blocks hs.pool
      dsimp only
      split_ifs
      · exact ⟨(PoolOnly.agree ⟨_, _, rfl⟩ live).trans ((poolOnly_sortMerge _).agree live), rfl, rfl,
          Or.inl ⟨rfl, rfl, lost, hspace.sortMerge⟩⟩
      · exact ⟨PoolOnly.agree ⟨_, _, rfl⟩ live, rfl, rfl, Or.inl ⟨rfl, rfl, lost, hspace⟩⟩

theorem splice {rec rec' : Tchrec} {h' : Tchdb} {nsiz : ℕ} (hs : Space h (⟨rec.off, rec.rsiz⟩ :: live) lost)
    (hsplice : tchdbFbpSplice h rec nsiz = some (h', rec')) :
    Space h' (⟨rec.off, rec'.rsiz⟩ :: live) lost ∧ Agree h h' live ∧ h'.fsiz = h.fsiz ∧
      rec' = { rec with rsiz := rec'.rsiz } ∧ nsiz ≤ rec'.rsiz := by
  obtain ⟨⟨l₁, pv, l₂⟩, hscan, heq⟩ := Option.map_eq_some_iff.mp hsplice
  cases heq
  obtain ⟨hpool, hp⟩ := scan_eq_some hscan
  obtain ⟨hoff, hsiz⟩ := of_decide_eq_true hp
  have hmem : pv ∈ h.fbpool ++ lost := by simp [hpool]
  have hin := hs.blocks.inside_free hmem
  have hsmall := hs.small
  have hmod : (rec.rsiz + pv.rsiz) % 2 ^ 32 = rec.rsiz + pv.rsiz := Nat.mod_eq_of_lt (by omega)
  have htake := (hs.takeBlock (perm_of_scan hscan)).perm_live (List.Perm.swap _ _ _)
  rw [show pv.block = ⟨rec.off + rec.rsiz, pv.rsiz⟩ by rw [← hoff]; rfl] at htake
  have hjoin := htake.joinLive
  rw [← hmod] at hjoin
  refine ⟨hs.withBlocks rfl rfl rfl ?_ ⟨hjoin.part, hjoin.aligned, hjoin.free⟩, ?_, rfl, rfl, hsiz⟩
  · exact (Nat.le_succ _).trans_eq (perm_of_scan hscan).length_eq.symm
  · exact ⟨rfl, rfl, rfl, fun _ _ => rfl, fun _ _ _ _ _ => rfl⟩

end Space

end Fms
