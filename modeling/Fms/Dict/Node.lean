import Fms.Dict.Record
import Fms.Lib.SearchTree

/-!
# The record of a key

* `nodeBytes`: the bytes of a record, which `tchdbwriterec` writes;
* `NodeAt`: a record at an address of the file, with the children it points to;
* **`tchdbReadRec_node`**: it is read back, with as much of its body as the first read gets;
* **`tchdbReadRecBody_node`**: the rest of its body;
* `keyCmp`: the order of the records below a bucket, which is one on keys.
-/

namespace Fms

open Bytes SearchTree

abbrev Key := List UInt8

/-- What a record has beside its key and its children. -/
structure Body where
  psiz : ℕ
  vbuf : List UInt8
  deriving DecidableEq

abbrev RecTree := PTree Key Body

section
variable (g : HdbLayout)

/-- A pointer to a record, in a record or a bucket. -/
def ptr (q : ℕ) : List UInt8 := leBytes g.besiz (q / g.align)

def recSizes (ksiz vsiz : ℕ) : List UInt8 := setVnumbuf 32 ksiz ++ setVnumbuf 32 vsiz

/-- The size of what is in front of the key. -/
def recHsiz (ksiz vsiz : ℕ) : ℕ := 2 + g.besiz + g.besiz + 2 + (recSizes ksiz vsiz).length

/-- What is in front of the key, behind the magic number. -/
def headBytes (hash : UInt8) (l r psiz ksiz vsiz : ℕ) : List UInt8 :=
  leBytes 1 hash.toNat ++ (ptr g l ++ (ptr g r ++ (leBytes 2 psiz ++ recSizes ksiz vsiz)))

/-- A record without its padding. -/
def nodeBytes (l : ℕ) (key : Key) (b : Body) (r : ℕ) : List UInt8 :=
  (hdbMagicRec :: headBytes g (tcrechash key) l r b.psiz key.length b.vbuf.length) ++ (key ++ b.vbuf)

/-- The size of a record, with its padding. -/
def nodeLen (key : Key) (b : Body) : ℕ :=
  recHsiz g key.length b.vbuf.length + key.length + b.vbuf.length + b.psiz

/-- A record as it is read. -/
def nodeRec (p l : ℕ) (key : Key) (b : Body) (r : ℕ) (kbuf vbuf : Option (List UInt8)) : Tchrec where
  off := p
  rsiz := nodeLen g key b
  magic := hdbMagicRec
  hash := tcrechash key
  left := l
  right := r
  ksiz := key.length
  vsiz := b.vbuf.length
  psiz := b.psiz
  kbuf := kbuf
  vbuf := vbuf
  boff := p + recHsiz g key.length b.vbuf.length

/-- A pointer that is not cut when it is written. -/
def GoodPtr (q : ℕ) : Prop := g.align ∣ q ∧ q < 2 ^ 31

/-- Sizes that are not cut when they are written. -/
def RecFits (key : Key) (b : Body) : Prop := b.psiz < 2 ^ 16 ∧ nodeLen g key b < 2 ^ 31

end

/-- The record at `p`. -/
structure NodeAt (h : Tchdb) (p l : ℕ) (key : Key) (b : Body) (r : ℕ) : Prop where
  holds : Holds h.file p (nodeBytes h.toHdbLayout l key b r)
  left : GoodPtr h.toHdbLayout l
  right : GoodPtr h.toHdbLayout r
  fits : RecFits h.toHdbLayout key b

variable {g : HdbLayout} {h : Tchdb}

theorem length_setVnumbuf_le (n : ℕ) : (setVnumbuf 32 n).length ≤ 5 := by
  unfold setVnumbuf
  split_ifs with hn
  · exact Varnum.length_encode_le (k := 4) (hn.trans (by norm_num))
  · exact Nat.zero_le _

@[simp] theorem length_ptr (q : ℕ) : (ptr g q).length = g.besiz := length_leBytes _ _

theorem length_headBytes (hash : UInt8) (l r psiz ksiz vsiz : ℕ) :
    (headBytes g hash l r psiz ksiz vsiz).length + 1 = recHsiz g ksiz vsiz := by
  simp only [headBytes, recHsiz, List.length_append, length_leBytes, length_ptr]
  omega

theorem length_nodeBytes (l : ℕ) (key : Key) (b : Body) (r : ℕ) :
    (nodeBytes g l key b r).length + b.psiz = nodeLen g key b := by
  have := length_headBytes (g := g) (tcrechash key) l r b.psiz key.length b.vbuf.length
  simp only [nodeBytes, nodeLen, List.length_append, List.length_cons]
  omega

theorem besiz_cases (g : HdbLayout) : g.besiz = 4 ∨ g.besiz = 8 := by
  unfold HdbLayout.besiz
  split_ifs
  · exact Or.inr rfl
  · exact Or.inl rfl

theorem recHsiz_le (ksiz vsiz : ℕ) : recHsiz g ksiz vsiz ≤ 30 := by
  have hk := length_setVnumbuf_le ksiz
  have hv := length_setVnumbuf_le vsiz
  rw [recHsiz, recSizes, List.length_append]
  rcases besiz_cases g with hb | hb <;> omega

theorem le_recHsiz (ksiz vsiz : ℕ) : 12 ≤ recHsiz g ksiz vsiz := by
  rw [recHsiz]
  rcases besiz_cases g with hb | hb <;> omega

theorem le_runit (g : HdbLayout) : 48 ≤ g.runit := by
  rw [HdbLayout.runit]
  omega

/-! ## Reading a record -/

theorem readLe_leBytes (w n : ℕ) (rest : List UInt8) : readLe w (leBytes w n ++ rest) = some (n % 256 ^ w, rest) := by
  rw [readLe, if_neg (by simp), List.take_left' (length_leBytes w n), List.drop_left' (length_leBytes w n),
    ofLeBytes_leBytes]

theorem readVnum_setVnumbuf {n : ℕ} (hn : n < 2 ^ 31) (rest : List UInt8) :
    readVnum (setVnumbuf 32 n ++ rest) = some (n, rest) := by
  rw [readVnum, readVnumbuf_setVnumbuf hn, Option.map_some, List.drop_left]

theorem GoodPtr.read {q : ℕ} (hq : GoodPtr g q) : q / g.align % 256 ^ g.besiz * g.align % 2 ^ 64 = q := by
  obtain ⟨hdvd, hlt⟩ := hq
  have hle : q / g.align ≤ q := Nat.div_le_self _ _
  have hpow : (2 : ℕ) ^ 31 ≤ 256 ^ g.besiz := by
    rcases besiz_cases g with hb | hb <;> rw [hb] <;> norm_num
  rw [Nat.mod_eq_of_lt (by omega : q / g.align < 256 ^ g.besiz), Nat.div_mul_cancel hdvd,
    Nat.mod_eq_of_lt (hlt.trans (by norm_num))]

theorem readHeader_headBytes {p l r : ℕ} {key : Key} {b : Body} (hl : GoodPtr g l) (hr : GoodPtr g r)
    (hfit : RecFits g key b) (rest : List UInt8) :
    readHeader g p (headBytes g (tcrechash key) l r b.psiz key.length b.vbuf.length ++ rest) =
      some (nodeRec g p l key b r
        (if rest.length ≥ key.length then some (rest.take key.length) else none)
        (if rest.length ≥ key.length + b.vbuf.length then some ((rest.drop key.length).take b.vbuf.length)
          else none)) := by
  obtain ⟨hpsiz, hlen⟩ := hfit
  have hk : key.length < 2 ^ 31 := by rw [nodeLen] at hlen; omega
  have hv : b.vbuf.length < 2 ^ 31 := by rw [nodeLen] at hlen; omega
  have hhash : UInt8.ofNat ((tcrechash key).toNat % 256 ^ 1) = tcrechash key := by
    rw [pow_one, Nat.mod_eq_of_lt (tcrechash key).toNat_lt, UInt8.ofNat_toNat]
  have hlen' : (recHsiz g key.length b.vbuf.length + key.length + b.vbuf.length + b.psiz) % 2 ^ 32 =
      nodeLen g key b := Nat.mod_eq_of_lt (hlen.trans (by norm_num))
  simp only [readHeader, headBytes, ptr, recSizes, List.append_assoc, readLe_leBytes, readVnum_setVnumbuf hk,
    readVnum_setVnumbuf hv, Option.bind_eq_bind, Option.bind_some, Option.pure_def]
  have hsizes : (setVnumbuf 32 key.length ++ (setVnumbuf 32 b.vbuf.length ++ rest)).length - rest.length =
      (recSizes key.length b.vbuf.length).length := by
    simp only [recSizes, List.length_append]
    omega
  rw [hsizes, hhash, hl.read, hr.read, Nat.mod_eq_of_lt (show b.psiz < 256 ^ 2 from hpsiz), ← recHsiz, hlen']
  rfl

/-- The node read with as much of its body as there is behind the header in the first read. -/
theorem tchdbReadRec_node {p l r : ℕ} {key : Key} {b : Body} (hat : NodeAt h p l key b r)
    (hend : p + nodeLen h.toHdbLayout key b ≤ h.fsiz) (hlen : h.file.length = h.fsiz) (rec : Tchrec) (hoff : rec.off = p) :
    ∃ kbuf vbuf, tchdbReadRec h rec = .ok (nodeRec h.toHdbLayout p l key b r kbuf vbuf) ∧
      (kbuf = some key ∨ kbuf = none) ∧ (vbuf = some b.vbuf ∨ vbuf = none) := by
  subst hoff
  have hhsiz := le_recHsiz (g := h.toHdbLayout) key.length b.vbuf.length
  have hhsiz' := recHsiz_le (g := h.toHdbLayout) key.length b.vbuf.length
  have hrunit := le_runit h.toHdbLayout
  have hsize : nodeLen h.toHdbLayout key b = recHsiz h.toHdbLayout key.length b.vbuf.length + key.length + b.vbuf.length + b.psiz := rfl
  have hhead := length_headBytes (g := h.toHdbLayout) (tcrechash key) l r b.psiz key.length b.vbuf.length
  set head := headBytes h.toHdbLayout (tcrechash key) l r b.psiz key.length b.vbuf.length with hheadDef
  obtain ⟨hholds, hl, hr, hfit⟩ := hat
  obtain ⟨hfront, hbody⟩ := holds_append.mp hholds
  obtain ⟨hkey, hval⟩ := holds_append.mp hbody
  set n := min (h.fsiz - rec.off) h.runit with hn
  have hread : readAt h.file rec.off n =
      hdbMagicRec :: (head ++ readAt h.file (rec.off + (hdbMagicRec :: head).length) (n - (hdbMagicRec :: head).length)) := by
    rw [hfront.readAt (by rw [← hheadDef, List.length_cons]; omega)]
    rfl
  rw [tchdbReadRec]
  simp only [← hn]
  rw [if_neg (by omega), if_neg (by omega), hread]
  set rest := readAt h.file (rec.off + (hdbMagicRec :: head).length) (n - (hdbMagicRec :: head).length) with hrest
  have hrestLen : rest.length ≤ n - (hdbMagicRec :: head).length := by
    rw [hrest, length_readAt]
    exact min_le_left _ _
  refine ⟨if rest.length ≥ key.length then some (rest.take key.length) else none,
    if rest.length ≥ key.length + b.vbuf.length then some ((rest.drop key.length).take b.vbuf.length) else none,
    ?_, ?_, ?_⟩
  · have hne : hdbMagicRec ≠ hdbMagicFb := by decide
    simp only [if_neg hne, ne_eq, not_true, if_false, hheadDef, readHeader_headBytes hl hr hfit]
  · split_ifs with hge
    · exact Or.inl (by rw [hrest, hkey.readAt (by omega), List.take_left])
    · exact Or.inr rfl
  · split_ifs with hge
    · refine Or.inl (congrArg some ?_)
      rw [hrest, hbody.readAt (by rw [List.length_append]; omega), List.append_assoc, List.drop_left, List.take_left]
    · exact Or.inr rfl

theorem tchdbReadRecBody_node {p l r : ℕ} {key : Key} {b : Body} {kbuf vbuf : Option (List UInt8)}
    (hat : NodeAt h p l key b r) (hend : p + nodeLen h.toHdbLayout key b ≤ h.file.length) :
    tchdbReadRecBody h (nodeRec h.toHdbLayout p l key b r kbuf vbuf) = .ok (nodeRec h.toHdbLayout p l key b r (some key) (some b.vbuf)) := by
  have hhead := length_headBytes (g := h.toHdbLayout) (tcrechash key) l r b.psiz key.length b.vbuf.length
  obtain ⟨-, hbody⟩ := holds_append.mp hat.holds
  rw [List.length_cons, hhead] at hbody
  obtain ⟨hkey, hval⟩ := holds_append.mp hbody
  have hsize : nodeLen h.toHdbLayout key b = recHsiz h.toHdbLayout key.length b.vbuf.length + key.length + b.vbuf.length + b.psiz := rfl
  have hin : ¬ h.file.length < p + recHsiz h.toHdbLayout key.length b.vbuf.length + (key.length + b.vbuf.length) := by omega
  have hbuf : tchdbReadRecBody h (nodeRec h.toHdbLayout p l key b r kbuf vbuf) = .ok (nodeRec h.toHdbLayout p l key b r
      (some (readAt h.file (p + recHsiz h.toHdbLayout key.length b.vbuf.length) key.length))
      (some (readAt h.file (p + recHsiz h.toHdbLayout key.length b.vbuf.length + key.length) b.vbuf.length))) := if_neg hin
  rw [hbuf, hkey.readAt_eq, hval.readAt_eq]

/-! ## The order of the keys -/

/-- The order below a bucket: the second hash value first. -/
def keyCmp (a b : Key) : Ordering := (compare (tcrechash a) (tcrechash b)).then (tcreckeycmp a b)

instance : Std.TransCmp keyCmp :=
  inferInstanceAs (Std.TransCmp (compareLex (compareOn tcrechash)
    (compareLex (compareOn List.length) (compare : Key → Key → Ordering))))

theorem keyCmp_eq {a b : Key} : keyCmp a b = .eq ↔ a = b := by
  constructor
  · intro heq
    rw [keyCmp, tcreckeycmp, Ordering.then_eq_eq, Ordering.then_eq_eq] at heq
    exact Std.LawfulEqCmp.eq_of_compare heq.2.2
  · rintro rfl
    exact Std.ReflCmp.compare_self

end Fms
