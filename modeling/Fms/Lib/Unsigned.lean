import Fms.Lib.Hex

/-!
# Unsigned numbers in C strings

`strtoul(s, NULL, 16)` and the conversion `%u` of `sscanf`: behind blanks a sign, whose minus is
taken modulo `2^64`, and digits; a number that is too large is `ULONG_MAX`.

* **`strtoul16_digits`**: hexadecimal digits are read up to what follows them;
* **`scanUnsigned_toDigits`**: what `%u` prints is read back.
-/

namespace CString

/-- A number as an `unsigned long` of 64 bits. -/
def ulong (neg : Bool) (n : ℕ) : BitVec 64 :=
  if n < 2 ^ 64 then (if neg then -BitVec.ofNat 64 n else BitVec.ofNat 64 n) else BitVec.allOnes 64

/-- Whether there is a minus behind the blanks, and what follows the sign. -/
def signOf (s : CStr) : Bool × CStr :=
  match s.dropWhile isSpace with
  | '-' :: r => (true, r)
  | '+' :: r => (false, r)
  | r => (false, r)

/-- `strtoul(s, NULL, 16)` -/
def strtoul16 (s : CStr) : BitVec 64 := ulong (signOf s).1 (hexNumber 0 (hexBody (signOf s).2))

/-- The conversion `%u`, which needs a digit. -/
def scanUnsigned (s : CStr) : Option (BitVec 32) :=
  if (signOf s).2.head?.any Char.isDigit then
    some ((ulong (signOf s).1 (atoiDigits (signOf s).2)).setWidth 32)
  else none

theorem signOf_cons {c : Char} (hspace : isSpace c = false) (hm : c ≠ '-') (hp : c ≠ '+') (s : CStr) :
    signOf (c :: s) = (false, c :: s) := by
  have hdrop : (c :: s).dropWhile isSpace = c :: s := by
    rw [List.dropWhile_cons_of_neg]
    simp [hspace]
  rw [signOf, hdrop]
  split
  · rename_i heq
    exact absurd (List.cons.inj heq).1 hm
  · rename_i heq
    exact absurd (List.cons.inj heq).1 hp
  · rfl

/-! ## Hexadecimal digits -/

section
variable {g rest : CStr}

theorem hexNumber_stop (hg : ∀ c ∈ g, (hexVal c).isSome) (hrest : ∀ c ∈ rest.head?, hexVal c = none) :
    hexNumber 0 (g ++ rest) = hexNumber 0 g := by
  rw [hexNumber_append hg]
  cases rest with
  | nil => rfl
  | cons c rest => rw [hexNumber, hrest c rfl, Option.elim_none]

/-- Digits without `0x` in front are taken as they are. -/
theorem hexBody_stop (hg : ∀ c ∈ g, (hexVal c).isSome) (hne : g ≠ [])
    (hrest : ∀ c ∈ rest.head?, c ≠ 'x' ∧ c ≠ 'X') : hexBody (g ++ rest) = g ++ rest := by
  unfold hexBody
  split
  · rename_i x c s heq
    rw [heq, if_neg]
    rintro ⟨hx, -⟩
    cases g with
    | nil => exact hne rfl
    | cons d g =>
      rw [List.cons_append, List.cons.injEq] at heq
      cases g with
      | nil =>
        have hmem : x ∈ rest.head? := by
          rw [← List.nil_append rest, heq.2]
          rfl
        exact hx.elim (hrest x hmem).1 (hrest x hmem).2
      | cons y g =>
        have hy : (hexVal x).isSome := by
          rw [← (List.cons.inj heq.2).1]
          exact hg y (by simp)
        exact hx.elim (hexVal_isSome_ne hy rfl) (hexVal_isSome_ne hy rfl)
  · rfl

/-- **`strtoul` reads the digits in front.** -/
theorem strtoul16_digits (hg : ∀ c ∈ g, (hexVal c).isSome) (hne : g ≠ [])
    (hrest : ∀ c ∈ rest.head?, hexVal c = none ∧ c ≠ 'x' ∧ c ≠ 'X') (hlt : hexNumber 0 g < 2 ^ 64) :
    strtoul16 (g ++ rest) = BitVec.ofNat 64 (hexNumber 0 g) := by
  have hsign : signOf (g ++ rest) = (false, g ++ rest) := by
    cases g with
    | nil => exact absurd rfl hne
    | cons c g =>
      have hc := hg c List.mem_cons_self
      exact signOf_cons (isSpace_of_hexVal hc) (hexVal_isSome_ne hc rfl) (hexVal_isSome_ne hc rfl) _
  rw [strtoul16, hsign, hexBody_stop hg hne fun c hc => (hrest c hc).2,
    hexNumber_stop hg fun c hc => (hrest c hc).1, ulong, if_pos hlt]
  rfl

end

/-! ## Decimal digits -/

/-- **What `%u` prints is read back.** -/
theorem scanUnsigned_toDigits {n : ℕ} (h : n < 2 ^ 32) :
    scanUnsigned (Nat.toDigits 10 n) = some (BitVec.ofNat 32 n) := by
  obtain ⟨c, cs, hcs, hc⟩ := toDigits_cons n
  have hm : c ≠ '-' := by
    rintro rfl
    cases hc
  have hp : c ≠ '+' := by
    rintro rfl
    cases hc
  have hsign := signOf_cons (isSpace_of_isDigit hc) hm hp cs
  rw [scanUnsigned, hcs, hsign]
  dsimp only
  rw [List.head?_cons, Option.any_some, if_pos hc, ← hcs, atoiDigits_toDigits, ulong,
    if_pos (show n < 2 ^ 64 by omega)]
  simp

end CString
