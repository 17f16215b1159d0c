import Fms.Lib.Bytes
import Fms.Lib.Varnum

/-!
# The records of a dictionary file

src/lib/libdict/tchdb.c: the database that the dictionaries of messages are in. A file has a header,
an array of buckets, a region for the pool of free blocks, and records and free blocks one after the
other. A bucket is the root of a tree of records. A reading or a writing of the file itself does not
fail here, but for a reading behind its end.

* `Tchdb`, `Tchrec`, `Hdbfb`: a database, a record as it is read or written, a free block;
* `tchdbBidx`, `tcrechash`, `tcreckeycmp`: where a key belongs;
* `setVnumbuf`, `readVnumbuf`: the numbers of variable length, and **`readVnumbuf_setVnumbuf`**;
* `tcdumpmeta`, `tcloadmeta`: the header, and **`tcloadmeta_of_holds`**;
* `tchdbReadRec`, `tchdbReadRecBody`: reading a record.
-/

namespace Fms

open Bytes

/-- `HDBFB`, with `fbpool` as the list of the first `fbpnum` ones. -/
structure Hdbfb where
  off : ℕ
  rsiz : ℕ
  deriving DecidableEq, Repr, Inhabited

/-- `TCHREC`. A pointer into a buffer is what is there. -/
structure Tchrec where
  off : ℕ
  rsiz : ℕ
  magic : UInt8
  hash : UInt8
  left : ℕ
  right : ℕ
  ksiz : ℕ
  vsiz : ℕ
  psiz : ℕ
  kbuf : Option (List UInt8)
  vbuf : Option (List UInt8)
  boff : ℕ
  deriving DecidableEq, Repr, Inhabited

/-- The fields of `TCHDB` that do not change while a database is open. -/
structure HdbLayout where
  type : ℕ
  bnum : ℕ
  apow : ℕ
  fpow : ℕ
  opts : ℕ
  frec : ℕ
  deriving DecidableEq, Repr

/-- `TCHDB`, with the file that is open and mapped. -/
structure Tchdb extends HdbLayout where
  file : List UInt8
  flags : ℕ
  rnum : ℕ
  fsiz : ℕ
  iter : ℕ
  fbpool : List Hdbfb
  fbpmis : ℤ
  deriving DecidableEq, Repr

/-- Why an operation has no result: an error of the database, or an end that the code does not have:
it reads what was never written to a buffer, copies from a null pointer, or follows pointers without
end. -/
inductive HdbFault where
  | tceinvalid
  | tcemeta
  | tcerhead
  | tceread
  | tcenorec
  | uninit
  | null
  | endless
  deriving DecidableEq, Repr

def hdbHeadSiz : ℕ := 128
def hdbMaxHsiz : ℕ := 32
def hdbMagicRec : UInt8 := 0xc8
def hdbMagicFb : UInt8 := 0xb0

namespace HdbLayout
variable (g : HdbLayout)

/-- `opts & HDBTLARGE` -/
def large : Bool := g.opts % 2 = 1

/-- The size of a bucket and of the pointers in a record. -/
def besiz : ℕ := if g.large then 8 else 4

def align : ℕ := 2 ^ g.apow

/-- The size of a first read of a record. -/
def runit : ℕ := min (max g.align 48) 8192

def fbpmax : ℕ := 2 ^ g.fpow

def fbpsiz : ℕ := 64 + g.fbpmax * 4

def msiz : ℕ := hdbHeadSiz + g.bnum * g.besiz

end HdbLayout

/-- `tcseekwrite`, and writing to the map -/
def Tchdb.write (h : Tchdb) (off : ℕ) (bs : List UInt8) : Tchdb := { h with file := writeAt h.file off bs }

/-- `tchdbpadsize` -/
def tchdbPadsize (h : Tchdb) : ℕ :=
  let diff := h.fsiz % h.align
  if diff > 0 then h.align - diff else 0

def tchdbBidx (g : HdbLayout) (kbuf : List UInt8) : ℕ :=
  kbuf.foldl (fun hash b => (hash * 37 + b.toNat) % 2 ^ 64) kbuf.length % g.bnum

/-- The second hash value, from the last byte to the first. -/
def tcrechash (kbuf : List UInt8) : UInt8 :=
  UInt8.ofNat (kbuf.foldr (fun b hash => (hash * 31 + b.toNat) % 2 ^ 32) kbuf.length)

/-- A longer key is larger; of the same length, it is `memcmp`. -/
def tcreckeycmp (abuf bbuf : List UInt8) : Ordering :=
  (compare abuf.length bbuf.length).then (compare abuf bbuf)

def tchdbGetbucket (h : Tchdb) (bidx : ℕ) : ℕ :=
  ofLeBytes (readAt h.file (hdbHeadSiz + bidx * h.besiz) h.besiz) * h.align % 2 ^ 64

def tchdbSetbucket (h : Tchdb) (bidx off : ℕ) : Tchdb :=
  h.write (hdbHeadSiz + bidx * h.besiz) (leBytes h.besiz (off / h.align))

/-! ## Numbers of variable length -/

/-- `TC_SETVNUMBUF` (of 32 bits) and `TC_SETVNUMBUF64`: of a number that is negative as a signed one
nothing is written. -/
def setVnumbuf (w num : ℕ) : List UInt8 :=
  if num % 2 ^ w < 2 ^ (w - 1) then Varnum.encode (num % 2 ^ w) else []

/-- The loop of `TC_READVNUMBUF` and `TC_READVNUMBUF64`: the number so far, the weight of the next
group, and how many bytes are read. -/
def readVnumLoop (w num base i : ℕ) : List UInt8 → Option (ℕ × ℕ)
  | [] => none
  | b :: bs =>
    if b.toNat < 128 then some ((num + b.toNat * base) % 2 ^ w, i + 1)
    else readVnumLoop w ((num + base * (255 - b.toNat)) % 2 ^ w) (base * 128 % 2 ^ w) (i + 1) bs

/-- The number, and how many bytes it has. -/
def readVnumbuf (w : ℕ) (buf : List UInt8) : Option (ℕ × ℕ) := readVnumLoop w 0 1 0 buf

theorem readVnumLoop_encode (w n num base i : ℕ) (rest : List UInt8) :
    readVnumLoop w num base i (Varnum.encode n ++ rest) =
      some ((num + n * base) % 2 ^ w, i + (Varnum.encode n).length) := by
  induction n using Nat.strong_induction_on generalizing num base i with
  | _ n ih =>
    rcases Nat.lt_or_ge n 128 with hn | hn
    · rw [Varnum.encode_of_lt hn, List.singleton_append, readVnumLoop, Varnum.toNat_last hn, if_pos hn,
        List.length_singleton]
    · have hmod : n % 128 < 128 := Nat.mod_lt n (by norm_num)
      have hsum : (num + base * (n % 128)) % 2 ^ w + n / 128 * (base * 128 % 2 ^ w) ≡ num + n * base [MOD 2 ^ w] := by
        calc (num + base * (n % 128)) % 2 ^ w + n / 128 * (base * 128 % 2 ^ w)
            ≡ num + base * (n % 128) + n / 128 * (base * 128) [MOD 2 ^ w] :=
              (Nat.mod_modEq _ _).add ((Nat.mod_modEq _ _).mul_left _)
          _ = num + (n % 128 + 128 * (n / 128)) * base := by ring
          _ = num + n * base := by rw [Nat.mod_add_div]
      rw [Varnum.encode_of_le hn, List.cons_append, readVnumLoop, Varnum.toNat_group, if_neg (by omega),
        show 255 - (255 - n % 128) = n % 128 by omega, ih (n / 128) (by omega), List.length_cons]
      exact congrArg some (Prod.ext hsum (by omega))

theorem readVnumbuf_setVnumbuf {w n : ℕ} (h : n < 2 ^ (w - 1)) (rest : List UInt8) :
    readVnumbuf w (setVnumbuf w n ++ rest) = some (n, (setVnumbuf w n).length) := by
  have hlt : n < 2 ^ w := h.trans_le (Nat.pow_le_pow_right (by norm_num) (Nat.sub_le w 1))
  rw [setVnumbuf, Nat.mod_eq_of_lt hlt, if_pos h, readVnumbuf, readVnumLoop_encode, Nat.zero_add, Nat.mul_one,
    Nat.mod_eq_of_lt hlt, Nat.zero_add]

/-! ## The header -/

/-- `HDBMAGICNUM`, and what `sprintf` puts behind it with `_TC_FORMATVER` and `_TC_LIBVER` -/
def hdbMagicNum : List UInt8 := [73, 110, 115, 112, 117, 114, 9, 105, 45, 100, 98]

def headText : List UInt8 := hdbMagicNum ++ [10, 48, 46, 49, 58, 49, 48, 51, 10]

/-- The header up to the number of records. -/
def metaFront (g : HdbLayout) (flags : ℕ) : List UInt8 :=
  headText ++ List.replicate (32 - headText.length) 0 ++
    (leBytes 1 g.type ++ leBytes 1 flags ++ leBytes 1 g.apow ++ leBytes 1 g.fpow ++ leBytes 1 g.opts) ++
    List.replicate 3 0 ++ leBytes 8 g.bnum

/-- The 128 bytes of the header. -/
def tcdumpmeta (h : Tchdb) : List UInt8 :=
  metaFront h.toHdbLayout h.flags ++ leBytes 8 h.rnum ++ leBytes 8 h.fsiz ++ leBytes 8 h.frec ++ List.replicate 56 0

def tcloadmeta (h : Tchdb) (hbuf : List UInt8) : Tchdb :=
  { h with
    type := ofLeBytes (readAt hbuf 32 1)
    flags := ofLeBytes (readAt hbuf 33 1)
    apow := ofLeBytes (readAt hbuf 34 1)
    fpow := ofLeBytes (readAt hbuf 35 1)
    opts := ofLeBytes (readAt hbuf 36 1)
    bnum := ofLeBytes (readAt hbuf 40 8)
    rnum := ofLeBytes (readAt hbuf 48 8)
    fsiz := ofLeBytes (readAt hbuf 56 8)
    frec := ofLeBytes (readAt hbuf 64 8) }

/-- The fields of the header, each of the size it is written in. -/
structure Tchdb.MetaFits (h : Tchdb) : Prop where
  type : h.type < 2 ^ 8
  flags : h.flags < 2 ^ 8
  apow : h.apow < 2 ^ 8
  fpow : h.fpow < 2 ^ 8
  opts : h.opts < 2 ^ 8
  bnum : h.bnum < 2 ^ 64
  rnum : h.rnum < 2 ^ 64
  fsiz : h.fsiz < 2 ^ 64
  frec : h.frec < 2 ^ 64

@[simp] theorem length_metaFront (g : HdbLayout) (flags : ℕ) : (metaFront g flags).length = 48 := by
  simp [metaFront, headText, hdbMagicNum]

@[simp] theorem length_tcdumpmeta (h : Tchdb) : (tcdumpmeta h).length = hdbHeadSiz := by
  simp [tcdumpmeta, hdbHeadSiz]

theorem tcloadmeta_of_holds {h : Tchdb} (hfit : h.MetaFits) {hbuf : List UInt8}
    (hh : Holds hbuf 0 (tcdumpmeta h)) (g : Tchdb) :
    tcloadmeta g hbuf = { g with
      toHdbLayout := h.toHdbLayout, flags := h.flags, rnum := h.rnum, fsiz := h.fsiz } := by
  simp only [tcdumpmeta, metaFront, holds_append, List.length_append, length_leBytes, List.length_replicate, headText,
    hdbMagicNum, List.length_cons, List.length_nil, Nat.reduceAdd, Nat.reduceSub, Nat.zero_add] at hh
  obtain ⟨⟨⟨⟨⟨⟨⟨-, ⟨⟨⟨htype, hflags⟩, hapow⟩, hfpow⟩, hopts⟩, -⟩, hbnum⟩, hrnum⟩, hfsiz⟩, hfrec⟩, -⟩ := hh
  rw [tcloadmeta, htype.ofLeBytes hfit.type, hflags.ofLeBytes hfit.flags, hapow.ofLeBytes hfit.apow,
    hfpow.ofLeBytes hfit.fpow, hopts.ofLeBytes hfit.opts, hbnum.ofLeBytes hfit.bnum,
    hrnum.ofLeBytes hfit.rnum, hfsiz.ofLeBytes hfit.fsiz, hfrec.ofLeBytes hfit.frec]

/-! ## Reading a record -/

/-- A number of `w` bytes read from the front. -/
def readLe (w : ℕ) (rp : List UInt8) : Option (ℕ × List UInt8) :=
  if rp.length < w then none else some (ofLeBytes (rp.take w), rp.drop w)

/-- A number of variable length read from the front. -/
def readVnum (rp : List UInt8) : Option (ℕ × List UInt8) :=
  (readVnumbuf 32 rp).map fun r => (r.1, rp.drop r.2)

/-- What follows the magic number of a record: its fields, and the bytes of its body that are there. -/
def readHeader (g : HdbLayout) (off : ℕ) (rp : List UInt8) : Option Tchrec := do
  let (hash, rp) ← readLe 1 rp
  let (left, rp) ← readLe g.besiz rp
  let (right, rp) ← readLe g.besiz rp
  let (psiz, rp) ← readLe 2 rp
  let start := rp
  let (ksiz, rp) ← readVnum rp
  let (vsiz, rp) ← readVnum rp
  let hsiz := 2 + g.besiz + g.besiz + 2 + (start.length - rp.length)
  return {
    off := off, magic := hdbMagicRec, hash := UInt8.ofNat hash, left := left * g.align % 2 ^ 64
    right := right * g.align % 2 ^ 64, psiz := psiz, ksiz := ksiz, vsiz := vsiz
    rsiz := (hsiz + ksiz + vsiz + psiz) % 2 ^ 32, boff := off + hsiz
    kbuf := if rp.length ≥ ksiz then some (rp.take ksiz) else none
    vbuf := if rp.length ≥ ksiz + vsiz then some ((rp.drop ksiz).take vsiz) else none }

/-- `tchdbreadrec`, of the record at `rec.off`. Of a free block only the size is set. -/
def tchdbReadRec (h : Tchdb) (rec : Tchrec) : Except HdbFault Tchrec :=
  let rsiz := min (h.fsiz - rec.off) h.runit
  if rsiz < 5 then .error .tcerhead
  else if h.file.length < rec.off + rsiz then .error .tceread
  else
    match readAt h.file rec.off rsiz with
    | [] => .error .tceread
    | magic :: rp =>
      if magic = hdbMagicFb then .ok { rec with magic := magic, rsiz := ofLeBytes (rp.take 4) }
      else if magic ≠ hdbMagicRec then .error .tcerhead
      else
        match readHeader h.toHdbLayout rec.off rp with
        | none => .error .uninit
        | some rec => .ok rec

/-- `tchdbreadrecbody` -/
def tchdbReadRecBody (h : Tchdb) (rec : Tchrec) : Except HdbFault Tchrec :=
  if h.file.length < rec.boff + (rec.ksiz + rec.vsiz) then .error .tceread
  else
    .ok { rec with
      kbuf := some (readAt h.file rec.boff rec.ksiz)
      vbuf := some (readAt h.file (rec.boff + rec.ksiz) rec.vsiz) }

end Fms
