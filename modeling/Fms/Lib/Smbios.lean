import Mathlib

/-!
# Tables of SMBIOS structures

A table is a sequence of structures: a header of four bytes (type, length, handle), the rest of the
formatted area, and an area of strings, each ended by a NUL and all of them by another one. Without
strings the area is two NULs.

* **`skipStrings_area`**: behind the formatted area, the next pair of NULs ends the structure;
* **`skipStrings_eq_some`**: what the search for the pair finds, in any sequence of bytes;
* `wordIn`, `dwordIn`, `qwordIn`: the numbers in a sequence of bytes;
* `Reads`: functions that read from the front of some bytes, and how they compose;
* `encode`: the bytes of a table.
-/

namespace Smbios

abbrev Byte := BitVec 8

/-- Two bytes, the low one first. -/
def word (lo hi : Byte) : BitVec 16 := hi ++ lo

/-! ## Numbers in a sequence of bytes -/

def wordIn (bytes : List Byte) (i : ℕ) : Option (BitVec 16) := do
  let lo ← bytes[i]?
  let hi ← bytes[i + 1]?
  return word lo hi

def dwordIn (bytes : List Byte) (i : ℕ) : Option (BitVec 32) := do
  let lo ← wordIn bytes i
  let hi ← wordIn bytes (i + 2)
  return hi ++ lo

def qwordIn (bytes : List Byte) (i : ℕ) : Option (BitVec 64) := do
  let lo ← dwordIn bytes i
  let hi ← dwordIn bytes (i + 4)
  return hi ++ lo

section
variable {bytes : List Byte} {i : ℕ}

theorem exists_byteIn (h : i < bytes.length) : ∃ b, bytes[i]? = some b :=
  ⟨bytes[i], List.getElem?_eq_getElem h⟩

theorem exists_wordIn (h : i + 1 < bytes.length) : ∃ w, wordIn bytes i = some w := by
  obtain ⟨lo, hlo⟩ := exists_byteIn (Nat.lt_of_succ_lt h)
  obtain ⟨hi, hhi⟩ := exists_byteIn h
  exact ⟨word lo hi, by rw [wordIn, hlo, hhi]; rfl⟩

theorem wordIn_of_length_le (h : bytes.length ≤ i + 1) : wordIn bytes i = none := by
  rw [wordIn, List.getElem?_eq_none h]
  cases bytes[i]? <;> rfl

theorem exists_dwordIn (h : i + 3 < bytes.length) : ∃ w, dwordIn bytes i = some w := by
  obtain ⟨lo, hlo⟩ := exists_wordIn (show i + 1 < bytes.length by omega)
  obtain ⟨hi, hhi⟩ := exists_wordIn (show i + 2 + 1 < bytes.length from h)
  exact ⟨hi ++ lo, by rw [dwordIn, hlo, hhi]; rfl⟩

theorem exists_qwordIn (h : i + 7 < bytes.length) : ∃ w, qwordIn bytes i = some w := by
  obtain ⟨lo, hlo⟩ := exists_dwordIn (show i + 3 < bytes.length by omega)
  obtain ⟨hi, hhi⟩ := exists_dwordIn (show i + 4 + 3 < bytes.length from h)
  exact ⟨hi ++ lo, by rw [qwordIn, hlo, hhi]; rfl⟩

end

/-! ## Reading -/

/-- `f` reads from the front: what it finds, it finds with more bytes behind. -/
def Reads {α : Type} (f : List Byte → Option α) : Prop :=
  ∀ ⦃bytes : List Byte⦄ ⦃x : α⦄, f bytes = some x → ∀ l, f (bytes ++ l) = some x

section
variable {α β : Type} {f : List Byte → Option α}

theorem reads_some (x : α) : Reads fun _ => some x := fun _ _ h _ => h

theorem reads_byte (i : ℕ) : Reads fun bytes => bytes[i]? := by
  intro bytes x h l
  obtain ⟨hi, -⟩ := List.getElem?_eq_some_iff.mp h
  exact (List.getElem?_append_left hi).trans h

theorem Reads.bind (hf : Reads f) {g : List Byte → α → Option β} (hg : ∀ a, Reads (g · a)) :
    Reads fun bytes => (f bytes).bind (g bytes) := by
  intro bytes x h l
  obtain ⟨a, ha, h⟩ := Option.bind_eq_some_iff.mp h
  dsimp only
  rw [hf ha l, Option.bind_some]
  exact hg a h l

theorem Reads.map (hf : Reads f) (g : α → β) : Reads fun bytes => (f bytes).map g := by
  intro bytes x h l
  obtain ⟨a, ha, rfl⟩ := Option.map_eq_some_iff.mp h
  dsimp only
  rw [hf ha l, Option.map_some]

end

/-! ## The pair of NULs -/

/-- Goes to the byte behind the first pair of NULs; `none` when the bytes end first. -/
def skipStrings : List Byte → Option (List Byte)
  | a :: b :: l => if a = 0 ∧ b = 0 then some l else skipStrings (b :: l)
  | _ => none

theorem skipStrings_nonzero {a : Byte} (ha : a ≠ 0) (l : List Byte) :
    skipStrings (a :: l) = skipStrings l := by
  cases l with
  | nil => rfl
  | cons b l => rw [skipStrings, if_neg (fun h => ha h.1)]

theorem skipStrings_append {s : List Byte} (hs : 0 ∉ s) (l : List Byte) :
    skipStrings (s ++ l) = skipStrings l := by
  induction s with
  | nil => rfl
  | cons a s ih =>
    rw [List.mem_cons, not_or] at hs
    rw [List.cons_append, skipStrings_nonzero (Ne.symm hs.1), ih hs.2]

/-- The bytes `strs` hold no pair of NULs, and make none with a NUL behind them. -/
def NoPair (strs : List Byte) : Prop := ¬ [0, 0] <:+: strs ++ [0]

theorem noPair_cons {a b : Byte} {l : List Byte} (h : ¬ (a = 0 ∧ b = 0)) :
    NoPair (a :: b :: l) ↔ NoPair (b :: l) := by
  unfold NoPair
  rw [List.cons_append, List.infix_cons_iff, not_or, and_iff_right_iff_imp]
  rintro - ⟨t, ht⟩
  simp only [List.cons_append, List.nil_append, List.cons.injEq] at ht
  exact h ⟨ht.1.symm, ht.2.1.symm⟩

theorem noPair_nil : NoPair [] := by
  simp [NoPair, List.infix_cons_iff]

theorem noPair_singleton {a : Byte} (h : a ≠ 0) : NoPair [a] := by
  simpa [NoPair, List.infix_cons_iff] using Ne.symm h

theorem skipStrings_of_noPair {strs : List Byte} (h : NoPair strs) (rest : List Byte) :
    skipStrings (strs ++ 0 :: 0 :: rest) = some rest := by
  induction strs with
  | nil => rfl
  | cons a strs ih =>
    cases strs with
    | nil =>
      have ha : a ≠ 0 := by
        rintro rfl
        exact h ⟨[], [], rfl⟩
      exact skipStrings_nonzero ha (0 :: 0 :: rest)
    | cons b strs =>
      have hab : ¬ (a = 0 ∧ b = 0) := by
        rintro ⟨rfl, rfl⟩
        exact h ⟨[], strs ++ [0], rfl⟩
      rw [List.cons_append, List.cons_append, skipStrings, if_neg hab]
      exact ih ((noPair_cons hab).mp h)

theorem noPair_of_skipStrings {l rest : List Byte} (h : skipStrings l = some rest) :
    ∃ strs, l = strs ++ 0 :: 0 :: rest ∧ NoPair strs := by
  induction l using skipStrings.induct with
  | case1 a b l hab =>
    rw [skipStrings, if_pos hab, Option.some_inj] at h
    exact ⟨[], by rw [hab.1, hab.2, h, List.nil_append], noPair_nil⟩
  | case2 a b l hab ih =>
    rw [skipStrings, if_neg hab] at h
    obtain ⟨strs, hl, hs⟩ := ih h
    refine ⟨a :: strs, by rw [hl, List.cons_append], ?_⟩
    cases strs with
    | nil =>
      have hb : b = 0 := (List.cons.inj hl).1
      exact noPair_singleton fun ha => hab ⟨ha, hb⟩
    | cons c strs =>
      have hb : b = c := (List.cons.inj hl).1
      exact (noPair_cons (hb ▸ hab)).mpr hs
  | case3 l hl =>
    rw [skipStrings] at h
    · cases h
    · exact hl

/-- **The search stops behind the first pair of NULs.** -/
theorem skipStrings_eq_some {l rest : List Byte} :
    skipStrings l = some rest ↔ ∃ strs, l = strs ++ 0 :: 0 :: rest ∧ NoPair strs := by
  constructor
  · exact noPair_of_skipStrings
  · rintro ⟨strs, rfl, hs⟩
    exact skipStrings_of_noPair hs rest

theorem skipStrings_length {l rest : List Byte} (h : skipStrings l = some rest) :
    rest.length + 2 ≤ l.length := by
  obtain ⟨strs, rfl, -⟩ := skipStrings_eq_some.mp h
  simp only [List.length_append, List.length_cons]
  omega

/-! ## Structures -/

/-- A string behind a structure: not empty, without a NUL. -/
structure Str where
  bytes : List Byte
  ne_nil : bytes ≠ []
  nonzero : 0 ∉ bytes

/-- A structure of a table, whose length fits its length byte. -/
structure Struct where
  type : Byte
  handle : BitVec 16
  body : List Byte
  strings : List Str
  short : body.length + 4 < 256

namespace Struct

variable (s : Struct)

/-- The formatted area. -/
def formatted : List Byte :=
  s.type :: BitVec.ofNat 8 (s.body.length + 4) :: s.handle.setWidth 8 ::
    (s.handle >>> 8).setWidth 8 :: s.body

/-- The strings and the NUL behind them. -/
def area : List Byte :=
  match s.strings with
  | [] => [0, 0]
  | l => l.flatMap (fun x => x.bytes ++ [0]) ++ [0]

/-- A byte of the formatted area; 0 behind it. -/
def byteAt (i : ℕ) : Byte := s.formatted.getD i 0

def wordAt (i : ℕ) : BitVec 16 := word (s.byteAt i) (s.byteAt (i + 1))

def dwordAt (i : ℕ) : BitVec 32 := s.wordAt (i + 2) ++ s.wordAt i

theorem getElem?_formatted {i : ℕ} (h : i < s.formatted.length) :
    s.formatted[i]? = some (s.byteAt i) := by
  rw [byteAt, List.getElem?_eq_getElem h, List.getD_eq_getElem _ _ h]

theorem formatted_length : s.formatted.length = (BitVec.ofNat 8 (s.body.length + 4)).toNat := by
  have hs := s.short
  rw [BitVec.toNat_ofNat, Nat.mod_eq_of_lt (by omega)]
  rfl

end Struct

theorem skipStrings_str (x : Str) (l : List Byte) :
    skipStrings (x.bytes ++ l) = skipStrings l := skipStrings_append x.nonzero l

/-- Behind the NUL of one string, the first byte of the next one is no NUL. -/
theorem skipStrings_strings (x : Str) (l : List Str) (rest : List Byte) :
    skipStrings ((x :: l).flatMap (fun x => x.bytes ++ [0]) ++ 0 :: rest) = some rest := by
  induction l generalizing x with
  | nil =>
    rw [List.flatMap_singleton, List.append_assoc, skipStrings_str]
    rfl
  | cons y l ih =>
    rw [List.flatMap_cons, List.append_assoc, List.append_assoc, skipStrings_str]
    rw [← ih y]
    obtain ⟨b, bs, hb⟩ := List.exists_cons_of_ne_nil y.ne_nil
    have hb0 : b ≠ 0 := by
      rintro rfl
      exact y.nonzero (hb ▸ List.mem_cons_self)
    rw [List.flatMap_cons, hb]
    exact if_neg fun h => hb0 h.2

/-- **The pair of NULs ends the strings of a structure.** -/
theorem skipStrings_area (s : Struct) (rest : List Byte) :
    skipStrings (s.area ++ rest) = some rest := by
  unfold Struct.area
  cases s.strings with
  | nil => rfl
  | cons x l =>
    rw [List.append_assoc]
    exact skipStrings_strings x l rest

/-- The bytes of a table. -/
def encode (table : List Struct) : List Byte := table.flatMap fun s => s.formatted ++ s.area

end Smbios
