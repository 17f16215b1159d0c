import Fms.Dict.Node
import Fms.Dict.Pool

/-!
# Looking up, storing and removing a record

src/lib/libdict/tchdb.c. The loops that follow pointers have a bound on their steps here; a database
that follows them further has the fault `endless`.

* `tchdbFind`: the way down that looking up, storing and removing share, with the place of the pointer
  that was followed last;
* `tchdbWriteRec`: writing a record to its old place, to free room, or behind the last one;
* `tchdbGet`, `tchdbPutimpl`, `tchdbOut`: the operations on an open database;
* **`tchdbFind_tree`**: below a bucket, the way down is that of the tree which is stored there.
-/

namespace Fms

open Bytes SearchTree

/-- The offset of the pointer in a slot; 0 stands for the bucket. -/
def entoffOf (g : HdbLayout) : Slot → ℕ
  | .top => 0
  | .left p => p + 2
  | .right p => p + 2 + g.besiz

/-- The body of a record is read if the buffer that is asked for is not there yet. -/
def needBody (h : Tchdb) (rec : Tchrec) (buf : Option (List UInt8)) : Except HdbFault Tchrec :=
  if buf.isNone then tchdbReadRecBody h rec else .ok rec

/-- The loop of `tchdbget`, `tchdbputimpl` and `tchdbout`: the record of the key, if there is one, and
`entoff`. Its key is in `kbuf`. -/
def tchdbFind (h : Tchdb) (kbuf : Key) (hash : UInt8) :
    ℕ → Tchrec → ℕ → ℕ → Except HdbFault (Option Tchrec × ℕ)
  | 0, _, _, _ => .error .endless
  | fuel + 1, rec, off, entoff =>
    if off = 0 then .ok (none, entoff)
    else do
      let rec ← tchdbReadRec h { rec with off := off }
      match compare hash rec.hash with
      | .gt => tchdbFind h kbuf hash fuel rec rec.left (rec.off + 2)
      | .lt => tchdbFind h kbuf hash fuel rec rec.right (rec.off + 2 + h.besiz)
      | .eq =>
        let rec ← needBody h rec rec.kbuf
        match tcreckeycmp kbuf (rec.kbuf.getD []) with
        | .gt => tchdbFind h kbuf hash fuel rec rec.left (rec.off + 2)
        | .lt => tchdbFind h kbuf hash fuel rec rec.right (rec.off + 2 + h.besiz)
        | .eq => .ok (some rec, entoff)

/-- The way down from the bucket of a key. -/
def tchdbSearch (fuel : ℕ) (h : Tchdb) (kbuf : Key) : Except HdbFault (Option Tchrec × ℕ) :=
  tchdbFind h kbuf (tcrechash kbuf) fuel default (tchdbGetbucket h (tchdbBidx h.toHdbLayout kbuf)) 0

def tchdbGet (fuel : ℕ) (h : Tchdb) (kbuf : Key) : Except HdbFault (List UInt8) := do
  let (found, _) ← tchdbSearch fuel h kbuf
  match found with
  | none => .error .tcenorec
  | some rec =>
    let rec ← needBody h rec rec.vbuf
    .ok (rec.vbuf.getD [])

/-! ## Writing a record -/

/-- The pointer to a record: in the record above it, or in its bucket. -/
def linkRec (h : Tchdb) (bidx entoff off : ℕ) : Tchdb :=
  if entoff > 0 then h.write entoff (ptr h.toHdbLayout off) else tchdbSetbucket h bidx off

/-- The bytes of a record, with its padding. -/
def recBytes (g : HdbLayout) (rec : Tchrec) : List UInt8 :=
  let bs := (hdbMagicRec :: headBytes g rec.hash rec.left rec.right rec.psiz rec.ksiz rec.vsiz) ++
    (rec.kbuf.getD [] ++ rec.vbuf.getD [])
  bs ++ List.replicate (rec.rsiz - bs.length) 0

/-- The end of `tchdbwriterec`, up to the pointer; `ofsiz` is the size of the file before. -/
def writeBody (h : Tchdb) (ofsiz : ℕ) (rec : Tchrec) : Tchdb :=
  let h := h.write rec.off (recBytes h.toHdbLayout rec)
  if h.fsiz ≠ ofsiz then h.write 56 (leBytes 8 h.fsiz) else h

/-- A record that is put into more room than its padding can take up: the rest is free. -/
def divideRec (h : Tchdb) (rec : Tchrec) (rsiz : ℕ) : Tchdb × Tchrec :=
  let psiz := tchdbPadsize { h with fsiz := rec.off + rsiz }
  let noff := rec.off + rsiz + psiz
  let nsiz := rec.rsiz - rsiz - psiz
  (tchdbFbpInsert (tchdbWritefb h noff nsiz) noff nsiz, { rec with rsiz := noff - rec.off, psiz := psiz })

/-- `tchdbwriterec`, with how often it may call itself. -/
def tchdbWriteRec (bidx entoff : ℕ) : ℕ → Tchdb → Tchrec → Except HdbFault Tchdb
  | 0, _, _ => .error .endless
  | fuel + 1, h, rec =>
    let rsiz := recHsiz h.toHdbLayout rec.ksiz rec.vsiz + rec.ksiz + rec.vsiz
    if rec.rsiz < 1 then
      let h' := { h with fsiz := h.fsiz + rsiz }
      let psiz := tchdbPadsize h'
      let h' := writeBody { h' with fsiz := h'.fsiz + psiz } h.fsiz { rec with rsiz := rsiz + psiz, psiz := psiz }
      .ok (linkRec h' bidx entoff rec.off)
    else if rsiz > rec.rsiz then
      match tchdbFbpSplice h rec rsiz with
      | some (h, rec) => tchdbWriteRec bidx entoff fuel h rec
      | none =>
        let h := tchdbFbpInsert (tchdbWritefb h rec.off rec.rsiz) rec.off rec.rsiz
        let r := tchdbFbpSearch h { rec with rsiz := rsiz }
        tchdbWriteRec bidx entoff fuel r.1 r.2
    else
      let r := if rec.rsiz - rsiz > 2 ^ 16 - 1 then divideRec h rec rsiz
        else (h, { rec with psiz := rec.rsiz - rsiz })
      .ok (linkRec (writeBody r.1 r.1.fsiz r.2) bidx entoff rec.off)

/-- The number of records, in the header too. -/
def setRnum (h : Tchdb) (rnum : ℕ) : Tchdb := { h with rnum := rnum }.write 48 (leBytes 8 rnum)

/-- `tchdbputimpl`, which is only called to overwrite. -/
def tchdbPutimpl (fuel : ℕ) (h : Tchdb) (kbuf : Key) (vbuf : List UInt8) : Except HdbFault Tchdb := do
  let bidx := tchdbBidx h.toHdbLayout kbuf
  let (found, entoff) ← tchdbSearch fuel h kbuf
  match found with
  | some rec =>
    tchdbWriteRec bidx entoff fuel h
      { rec with ksiz := kbuf.length, vsiz := vbuf.length, kbuf := some kbuf, vbuf := some vbuf }
  | none =>
    let (h, rec) := tchdbFbpSearch h
      { (default : Tchrec) with rsiz := (hdbMaxHsiz + kbuf.length + vbuf.length) % 2 ^ 32 }
    let h ← tchdbWriteRec bidx entoff fuel h
      { rec with
        hash := tcrechash kbuf, left := 0, right := 0, ksiz := kbuf.length, vsiz := vbuf.length, psiz := 0
        kbuf := some kbuf, vbuf := some vbuf }
    .ok (setRnum h (h.rnum + 1))

/-! ## Removing a record -/

/-- The loop that goes to the right as far as possible. -/
def tchdbLast (h : Tchdb) : ℕ → Tchrec → Except HdbFault Tchrec
  | 0, _ => .error .endless
  | fuel + 1, rec =>
    if rec.right > 0 then do
      let rec ← tchdbReadRec h { rec with off := rec.right }
      tchdbLast h fuel rec
    else .ok rec

/-- What takes the place of a record: with two children, the left one, and the right one is put below
the last record of the left one. With 32-bit pointers the offset of that pointer has 32 bits as well. -/
def removeChildren (fuel : ℕ) (h : Tchdb) (rec : Tchrec) : Except HdbFault (Tchdb × ℕ) :=
  if rec.left > 0 ∧ rec.right < 1 then .ok (h, rec.left)
  else if rec.left < 1 ∧ rec.right > 0 then .ok (h, rec.right)
  else if rec.left < 1 then .ok (h, 0)
  else do
    let last ← tchdbLast h fuel { rec with right := rec.left }
    let toff := last.off + 2 + h.besiz
    .ok (h.write (if h.large then toff else toff % 2 ^ 32) (ptr h.toHdbLayout rec.right), rec.left)

def tchdbOut (fuel : ℕ) (h : Tchdb) (kbuf : Key) : Except HdbFault Tchdb := do
  let bidx := tchdbBidx h.toHdbLayout kbuf
  let (found, entoff) ← tchdbSearch fuel h kbuf
  match found with
  | none => .error .tcenorec
  | some rec =>
    let h := tchdbFbpInsert (tchdbWritefb h rec.off rec.rsiz) rec.off rec.rsiz
    let (h, child) ← removeChildren fuel h rec
    let h := linkRec h bidx entoff child
    .ok (setRnum h (h.rnum - 1))

/-! ## The way down -/

section find
variable {h : Tchdb} {key : Key}

/-- The nodes of a tree lie in the file. -/
def InFile (h : Tchdb) (es : List (Entry Key Body)) : Prop :=
  ∀ e ∈ es, e.p + nodeLen h.toHdbLayout e.key e.val ≤ h.fsiz

/-- What the loop finds, by the place in the tree where it ends. -/
inductive FoundAt (g : HdbLayout) (c : Way Key Body) : RecTree → Option Tchrec × ℕ → Prop
  | none : FoundAt g c .nil (none, entoffOf g c.slot)
  | some {l r : RecTree} {p : ℕ} {k : Key} {b : Body} {vbuf : Option (List UInt8)}
      (hv : vbuf = some b.vbuf ∨ vbuf = none) :
      FoundAt g c (.node l p k b r) (some (nodeRec g p l.root k b r.root (some k) vbuf), entoffOf g c.slot)

theorem ok_bind {α β : Type} (a : α) (f : α → Except HdbFault β) : (Except.ok a >>= f) = f a := rfl

theorem needBody_node {p l r : ℕ} {k : Key} {b : Body} {kbuf vbuf : Option (List UInt8)}
    (hlen : h.file.length = h.fsiz) (hat : NodeAt h p l k b r) (hin : p + nodeLen h.toHdbLayout k b ≤ h.fsiz)
    (hk : kbuf = some k ∨ kbuf = none) (hv : vbuf = some b.vbuf ∨ vbuf = none) :
    ∃ vbuf', needBody h (nodeRec h.toHdbLayout p l k b r kbuf vbuf) kbuf =
      .ok (nodeRec h.toHdbLayout p l k b r (some k) vbuf') ∧ (vbuf' = some b.vbuf ∨ vbuf' = none) := by
  rcases hk with rfl | rfl
  · exact ⟨vbuf, rfl, hv⟩
  · exact ⟨_, tchdbReadRecBody_node hat (by rw [hlen]; exact hin), Or.inl rfl⟩

/-- One step of the loop, at the record of a node. -/
theorem tchdbFind_node (key : Key) {p l r : ℕ} {k : Key} {b : Body} (hlen : h.file.length = h.fsiz) (hp : p ≠ 0)
    (hat : NodeAt h p l k b r) (hin : p + nodeLen h.toHdbLayout k b ≤ h.fsiz) (fuel : ℕ) (rec : Tchrec) (entoff : ℕ) :
    ∃ rec', tchdbFind h key (tcrechash key) (fuel + 1) rec p entoff =
      (match keyCmp key k with
      | .gt => tchdbFind h key (tcrechash key) fuel rec' l (p + 2)
      | .lt => tchdbFind h key (tcrechash key) fuel rec' r (p + 2 + h.besiz)
      | .eq => .ok (some rec', entoff)) ∧
    (keyCmp key k = .eq → ∃ vbuf, rec' = nodeRec h.toHdbLayout p l k b r (some k) vbuf ∧
      (vbuf = some b.vbuf ∨ vbuf = none)) := by
  obtain ⟨kbuf, vbuf, hread, hk, hv⟩ := tchdbReadRec_node hat hin hlen { rec with off := p } rfl
  obtain ⟨vbuf', hbody, hv'⟩ := needBody_node hlen hat hin hk hv
  have hcmp : keyCmp key k = (compare (tcrechash key) (tcrechash k)).then (tcreckeycmp key k) := rfl
  have hhash : (nodeRec h.toHdbLayout p l k b r kbuf vbuf).hash = tcrechash k := rfl
  rw [tchdbFind, if_neg hp, hread, ok_bind, hhash]
  cases hh : compare (tcrechash key) (tcrechash k) with
  | lt =>
    rw [hh] at hcmp
    exact ⟨_, by rw [hcmp]; rfl, fun he => Ordering.noConfusion (hcmp.symm.trans he)⟩
  | gt =>
    rw [hh] at hcmp
    exact ⟨_, by rw [hcmp]; rfl, fun he => Ordering.noConfusion (hcmp.symm.trans he)⟩
  | eq =>
    rw [hh] at hcmp
    refine ⟨nodeRec h.toHdbLayout p l k b r (some k) vbuf', ?_, fun _ => ⟨vbuf', rfl, hv'⟩⟩
    show (needBody h (nodeRec h.toHdbLayout p l k b r kbuf vbuf) kbuf >>= _) = _
    rw [hbody, ok_bind, hcmp]
    rfl

theorem tchdbFind_tree (hlen : h.file.length = h.fsiz) (t : RecTree) (hst : t.Stored (NodeAt h))
    (hin : InFile h t.entries) (c : Way Key Body) (rec : Tchrec) {fuel : ℕ} (hfuel : t.entries.length < fuel) :
    ∃ r, tchdbFind h key (tcrechash key) fuel rec t.root (entoffOf h.toHdbLayout c.slot) = .ok r ∧
      FoundAt h.toHdbLayout (descend keyCmp key c t).1 (descend keyCmp key c t).2 r := by
  induction t generalizing c rec fuel with
  | nil =>
    obtain ⟨fuel, rfl⟩ := Nat.exists_eq_succ_of_ne_zero (Nat.ne_of_gt (Nat.zero_lt_of_lt hfuel))
    exact ⟨_, if_pos rfl, .none⟩
  | node l p k b r ihl ihr =>
    obtain ⟨fuel, rfl⟩ := Nat.exists_eq_succ_of_ne_zero (Nat.ne_of_gt (Nat.zero_lt_of_lt hfuel))
    obtain ⟨hp, hat, hl, hr⟩ := hst
    simp only [PTree.entries, InFile, List.forall_mem_append, List.forall_mem_cons] at hin
    obtain ⟨hinl, hinp, hinr⟩ := hin
    rw [PTree.entries, List.length_append, List.length_cons] at hfuel
    obtain ⟨rec', hstep, heq⟩ :=
      tchdbFind_node key hlen hp hat hinp fuel rec (entoffOf h.toHdbLayout c.slot)
    rw [show (PTree.node l p k b r).root = p from rfl, hstep, descend]
    cases hcmp : keyCmp key k with
    | gt => exact ihl hl hinl (.left c p k b r) rec' (by omega)
    | lt => exact ihr hr hinr (.right c l p k b) rec' (by omega)
    | eq =>
      obtain ⟨vbuf, rfl, hv⟩ := heq hcmp
      exact ⟨_, rfl, .some hv⟩

end find

end Fms
