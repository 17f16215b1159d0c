import Fms.Dict.Write

/-!
# The pool in its region of the file

* `tchdbSavefbp`, `tchdbLoadfbp`: writing the pool, and reading it;
* **`loadLoop_saveLoop`**: what is saved of a pool in order is read back, and it is all that fits;
* **`length_savedPool`**: it stays in its region;
* `Space.order`, `Space.ascending`, `Space.savable`: the pool of a database is one that can be saved.
-/

namespace Fms

open Bytes Blocks SearchTree

/-- The loop of `tchdbsavefbp`, with the room that is left and the offset of the block before, in units
of the alignment. -/
def saveLoop (apow : ℕ) : ℤ → ℕ → List Hdbfb → List UInt8
  | _, _, [] => []
  | bsiz, base, cur :: rest =>
    if bsiz > 0 then
      let noff := cur.off / 2 ^ apow
      let bs := setVnumbuf 64 ((noff + (2 ^ 64 - base)) % 2 ^ 64) ++ setVnumbuf 32 (cur.rsiz / 2 ^ apow)
      bs ++ saveLoop apow (bsiz - bs.length) noff rest
    else []

/-- The bytes of the pool; 18 is what the code keeps free for the last block and the end. -/
def savedPool (g : HdbLayout) (pool : List Hdbfb) : List UInt8 := saveLoop g.apow ((g.fbpsiz : ℤ) - 18) 0 pool ++ [0, 0]

/-- The pool in the order it is saved in. -/
def orderFbp (h : Tchdb) : Tchdb :=
  if h.fbpool.length > h.fbpmax / 2 then tchdbFbpMerge h
  else if h.fbpool.length > 1 then { h with fbpool := tcfbpsortbyoff h.fbpool } else h

def tchdbSavefbp (h : Tchdb) : Tchdb :=
  let h := orderFbp h
  h.write h.msiz (savedPool h.toHdbLayout h.fbpool)

/-- The loop of `tchdbloadfbp`, with how many blocks the pool has room for. -/
def loadLoop (apow : ℕ) : ℕ → ℕ → List UInt8 → Option (List Hdbfb)
  | 0, _, _ => some []
  | n + 1, base, rp =>
    match rp with
    | [] => none
    | b :: _ =>
      if b = 0 then some []
      else do
        let (llnum, step) ← readVnumbuf 64 rp
        let base := (base + llnum * 2 ^ apow) % 2 ^ 64
        let rp := rp.drop step
        let (lnum, step) ← readVnumbuf 32 rp
        let rest ← loadLoop apow n base (rp.drop step)
        some (⟨base, lnum * 2 ^ apow % 2 ^ 32⟩ :: rest)

def tchdbLoadfbp (h : Tchdb) : Except HdbFault Tchdb :=
  if h.file.length < h.msiz + h.fbpsiz then .error .tceread
  else
    match loadLoop h.apow h.fbpmax 0 (readAt h.file h.msiz h.fbpsiz) with
    | none => .error .uninit
    | some pool => .ok { h with fbpool := pool }

/-! ## Saving and loading the pool -/

/-- A free block that is not cut when it is saved. -/
structure Hdbfb.Savable (apow : ℕ) (fb : Hdbfb) : Prop where
  off : 2 ^ apow ∣ fb.off
  rsiz : 2 ^ apow ∣ fb.rsiz
  pos : 0 < fb.rsiz
  lt : fb.off + fb.rsiz ≤ 2 ^ 31

theorem setVnumbuf_eq {w n : ℕ} (h : n < 2 ^ (w - 1)) : setVnumbuf w n = Varnum.encode n := by
  have hlt : n < 2 ^ w := h.trans_le (Nat.pow_le_pow_right (by norm_num) (Nat.sub_le w 1))
  rw [setVnumbuf, Nat.mod_eq_of_lt hlt, if_pos h]

theorem length_setVnumbuf_small {w n : ℕ} (hw : 32 ≤ w) (h : n < 2 ^ 31) : (setVnumbuf w n).length ≤ 5 := by
  have hlt : n < 2 ^ (w - 1) := h.trans_le (Nat.pow_le_pow_right (by norm_num) (by omega))
  rw [setVnumbuf_eq hlt]
  exact Varnum.length_encode_le (k := 4) (h.trans (by norm_num))

theorem Hdbfb.Savable.step {apow base : ℕ} {fb : Hdbfb} (hs : fb.Savable apow) (hbase : base < fb.off / 2 ^ apow) :
    (fb.off / 2 ^ apow + (2 ^ 64 - base)) % 2 ^ 64 = fb.off / 2 ^ apow - base ∧
      fb.off / 2 ^ apow - base < 2 ^ 31 ∧ fb.rsiz / 2 ^ apow < 2 ^ 31 := by
  have hpos := hs.pos
  have hlt := hs.lt
  have hoff : fb.off / 2 ^ apow ≤ fb.off := Nat.div_le_self _ _
  have hrsiz : fb.rsiz / 2 ^ apow ≤ fb.rsiz := Nat.div_le_self _ _
  omega

theorem setVnumbuf_ne_nul {n : ℕ} (h : 0 < n) (hlt : n < 2 ^ 31) : ∃ b bs, setVnumbuf 64 n = b :: bs ∧ b ≠ 0 := by
  rw [setVnumbuf_eq (w := 64) (hlt.trans (by norm_num))]
  obtain ⟨b, bs, heq⟩ := List.exists_cons_of_length_pos (Varnum.length_encode_pos n)
  refine ⟨b, bs, heq, fun hb => ?_⟩
  have hhead : (Varnum.encode n).head? = some 0 := by rw [heq, hb, List.head?_cons]
  exact absurd (Varnum.head?_encode.mp hhead) h.ne'

theorem loadLoop_step (apow n base : ℕ) {d r : ℕ} (hpos : 0 < d) (hd : d < 2 ^ 31) (hr : r < 2 ^ 31) (rest : List UInt8) :
    loadLoop apow (n + 1) base (setVnumbuf 64 d ++ (setVnumbuf 32 r ++ rest)) =
      (loadLoop apow n ((base + d * 2 ^ apow) % 2 ^ 64) rest).map
        (⟨(base + d * 2 ^ apow) % 2 ^ 64, r * 2 ^ apow % 2 ^ 32⟩ :: ·) := by
  obtain ⟨b, bs, hcons, hb⟩ := setVnumbuf_ne_nul hpos hd
  have hread : readVnumbuf 64 (b :: (bs ++ (setVnumbuf 32 r ++ rest))) = some (d, (b :: bs).length) := by
    have := readVnumbuf_setVnumbuf (w := 64) (hd.trans (by norm_num)) (setVnumbuf 32 r ++ rest)
    rwa [hcons] at this
  have hdrop : (b :: (bs ++ (setVnumbuf 32 r ++ rest))).drop (b :: bs).length = setVnumbuf 32 r ++ rest :=
    List.drop_left
  rw [hcons, List.cons_append, loadLoop, if_neg hb, hread]
  simp only [Option.bind_eq_bind, Option.bind_some, hdrop, readVnumbuf_setVnumbuf (w := 32) hr, List.drop_left]
  cases loadLoop apow n ((base + d * 2 ^ apow) % 2 ^ 64) rest with
  | none => rfl
  | some pool => rfl

/-- The first blocks of the pool are read back, all of them if there is room; and what is written does
not get longer than the room by more than one block. -/
theorem loadLoop_saveLoop {apow : ℕ} (l : List Hdbfb) (hs : ∀ fb ∈ l, fb.Savable apow)
    (hasc : l.Pairwise fun a b => a.off < b.off) (base : ℕ) (hbase : ∀ fb ∈ l, base < fb.off / 2 ^ apow) (bsiz : ℤ) {n : ℕ}
    (hn : l.length ≤ n) (rest : List UInt8) :
    ∃ k, loadLoop apow n (base * 2 ^ apow) (saveLoop apow bsiz base l ++ 0 :: rest) = some (l.take k) ∧
      ((saveLoop apow bsiz base l).length : ℤ) ≤ (if 0 < bsiz then bsiz + 9 else 0) ∧ ((l.length : ℤ) * 10 ≤ bsiz → l.take k = l) := by
  have hstop : ∀ n base, loadLoop apow n base (0 :: rest) = some [] := fun n base => by
    cases n with
    | zero => rfl
    | succ n => rw [loadLoop, if_pos rfl]
  induction l generalizing base bsiz n with
  | nil =>
    refine ⟨0, hstop _ _, ?_, fun _ => rfl⟩
    rw [saveLoop, List.length_nil]
    split_ifs <;> omega
  | cons cur l ih =>
    rcases lt_or_ge 0 bsiz with hpos | hle
    swap
    · refine ⟨0, ?_, ?_, fun h => ?_⟩
      · rw [saveLoop, if_neg (by omega)]
        exact hstop _ _
      · rw [saveLoop, if_neg (by omega), if_neg (by omega), List.length_nil]
        rfl
      · rw [List.length_cons] at h
        omega
    obtain ⟨m, rfl⟩ : ∃ m, n = m + 1 := ⟨n - 1, by rw [List.length_cons] at hn; omega⟩
    have hcur := hs cur List.mem_cons_self
    have hlt := hbase cur List.mem_cons_self
    obtain ⟨hmod, hd, hr⟩ := hcur.step hlt
    obtain ⟨hhead, htail⟩ := List.pairwise_cons.mp hasc
    have hoff : cur.off / 2 ^ apow * 2 ^ apow = cur.off := Nat.div_mul_cancel hcur.off
    have hsiz : cur.rsiz / 2 ^ apow * 2 ^ apow = cur.rsiz := Nat.div_mul_cancel hcur.rsiz
    have hcurLt := hcur.lt
    have hcurPos := hcur.pos
    have hl1 := length_setVnumbuf_small (w := 64) (by norm_num) hd
    have hl2 := length_setVnumbuf_small (w := 32) le_rfl hr
    obtain ⟨k, hload, hlen, hall⟩ := ih (fun fb hfb => hs fb (List.mem_cons_of_mem _ hfb)) htail (cur.off / 2 ^ apow)
      (fun fb hfb => Nat.div_lt_div_of_lt_of_dvd (hs fb (List.mem_cons_of_mem _ hfb)).off (hhead fb hfb))
      (bsiz - (setVnumbuf 64 (cur.off / 2 ^ apow - base) ++ setVnumbuf 32 (cur.rsiz / 2 ^ apow)).length)
      (Nat.le_of_succ_le_succ hn)
    have hsave : saveLoop apow bsiz base (cur :: l) =
        setVnumbuf 64 (cur.off / 2 ^ apow - base) ++ (setVnumbuf 32 (cur.rsiz / 2 ^ apow) ++
          saveLoop apow (bsiz - (setVnumbuf 64 (cur.off / 2 ^ apow - base) ++
            setVnumbuf 32 (cur.rsiz / 2 ^ apow)).length) (cur.off / 2 ^ apow) l) := by
      rw [saveLoop, if_pos hpos]
      dsimp only
      rw [hmod, List.append_assoc]
    rw [hsave]
    generalize saveLoop apow (bsiz - (setVnumbuf 64 (cur.off / 2 ^ apow - base) ++
      setVnumbuf 32 (cur.rsiz / 2 ^ apow)).length) (cur.off / 2 ^ apow) l = tail at hload hlen ⊢
    rw [List.length_append] at hlen hall
    refine ⟨k + 1, ?_, ?_, fun h => ?_⟩
    · have hnext : (base * 2 ^ apow + (cur.off / 2 ^ apow - base) * 2 ^ apow) % 2 ^ 64 = cur.off := by
        rw [← Nat.add_mul, Nat.add_sub_cancel' hlt.le, hoff]
        omega
      rw [List.append_assoc, List.append_assoc, loadLoop_step apow m _ (by omega) hd hr, hnext, ← hoff, hload, hoff, hsiz,
        Nat.mod_eq_of_lt (by omega)]
      rfl
    · rw [List.length_append, List.length_append]
      rw [if_pos hpos]
      push_cast at hlen ⊢
      split_ifs at hlen <;> omega
    · rw [List.length_cons] at h
      rw [List.take_succ_cons, hall (by push_cast at h ⊢; omega)]

theorem length_savedPool {g : HdbLayout} {pool : List Hdbfb} (hs : ∀ fb ∈ pool, fb.Savable g.apow)
    (hasc : pool.Pairwise fun a b => a.off < b.off) (hpos : ∀ fb ∈ pool, 0 < fb.off / 2 ^ g.apow) :
    (savedPool g pool).length ≤ g.fbpsiz := by
  obtain ⟨-, -, hlen, -⟩ := loadLoop_saveLoop pool hs hasc 0 hpos ((g.fbpsiz : ℤ) - 18) le_rfl []
  have hsize : 64 ≤ g.fbpsiz := Nat.le_add_right _ _
  rw [savedPool, List.length_append]
  rw [if_pos (by omega)] at hlen
  simp only [List.length_cons, List.length_nil]
  omega

/-! ## The order of the pool -/

section
variable {h h' : Tchdb} {trees : ℕ → RecTree} {live : List Block} {lost : List Hdbfb}

theorem mergeLoop_sublist (l : List Hdbfb) : ((mergeLoop l).map Hdbfb.off).Sublist (l.map Hdbfb.off) := by
  induction hn : l.length using Nat.strong_induction_on generalizing l with
  | _ n ih =>
    match l, hn with
    | [], _ =>
      rw [mergeLoop]
    | [last], _ =>
      rw [mergeLoop]
      split_ifs
      · exact List.Sublist.refl _
      · exact List.nil_sublist _
    | cur :: next :: rest, hn =>
      subst hn
      rw [mergeLoop]
      split_ifs with hpos heq
      · rw [mergeLoop_marked]
        exact ((ih rest.length (by simp only [List.length_cons]; omega) rest rfl).cons _).cons_cons _
      · exact (ih (next :: rest).length (by simp only [List.length_cons]; omega) (next :: rest) rfl).cons_cons _
      · exact (ih (next :: rest).length (by simp only [List.length_cons]; omega) (next :: rest) rfl).cons _

theorem sorted_byoff (l : List Hdbfb) : ((tcfbpsortbyoff l).map Hdbfb.off).Pairwise (· ≤ ·) :=
  List.pairwise_map.mpr (HeapSort.sort_pairwise l)

theorem poolOnly_order (h : Tchdb) : PoolOnly h (orderFbp h) := by
  rw [orderFbp]
  split_ifs <;> exact ⟨_, _, rfl⟩

theorem Space.order (hs : Space h live lost) :
    Space (orderFbp h) live lost ∧ ((orderFbp h).fbpool.map Hdbfb.off).Pairwise (· ≤ ·) := by
  rw [orderFbp]
  split_ifs with hmany hmore
  · exact ⟨hs.merge, (sorted_byoff h.fbpool).sublist (mergeLoop_sublist _)⟩
  · refine ⟨hs.withPool h.fbpmis (hs.blocks.perm ((HeapSort.sort_perm _).symm.append_right lost)) ?_, sorted_byoff h.fbpool⟩
    exact (HeapSort.sort_perm _).length_eq.trans_le hs.pool
  · refine ⟨hs, ?_⟩
    match h.fbpool, hmore with
    | [], _ => exact List.Pairwise.nil
    | [_], _ => exact List.pairwise_singleton _ _
    | _ :: _ :: _, hmore => exact absurd (by simp) hmore

/-- The blocks of a pool do not overlap, so that in order they are one behind the other. -/
theorem Space.ascending (hs : Space h live lost) (hsorted : (h.fbpool.map Hdbfb.off).Pairwise (· ≤ ·)) :
    h.fbpool.Pairwise fun a b => a.off < b.off := by
  have hapart := (List.pairwise_append.mp hs.blocks.part.apart).2.1
  rw [List.map_append] at hapart
  have hpool := (List.pairwise_append.mp hapart).1
  rw [List.pairwise_map] at hpool hsorted
  refine (hpool.and hsorted).imp_of_mem fun {a b} ha hb hab => ?_
  have h1 := hs.blocks.inside_free (List.mem_append_left lost ha)
  have h2 := hs.blocks.inside_free (List.mem_append_left lost hb)
  obtain ⟨hab, hle⟩ := hab
  simp only [Block.Apart, Hdbfb.block] at hab
  omega

theorem Space.savable (hs : Space h live lost) {fb : Hdbfb} (hfb : fb ∈ h.fbpool) :
    fb.Savable h.apow ∧ 0 < fb.off / 2 ^ h.apow := by
  have hmem := List.mem_append_left lost hfb
  have hin := hs.blocks.inside_free hmem
  have haligned := hs.blocks.aligned fb.block (List.mem_append_right _ (List.mem_map_of_mem hmem))
  have hsmall := hs.small
  have hfrec := hs.le_frec
  have hpow : 2 ^ h.apow ≤ 2 ^ 6 := Nat.pow_le_pow_right (by norm_num) hs.apow
  exact ⟨⟨haligned.1, haligned.2, hin.2.1, by omega⟩, Nat.div_pos (by omega) (Nat.two_pow_pos _)⟩

end

end Fms
