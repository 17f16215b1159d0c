import Fms.Lib.CString

/-!
# Hexadecimal numbers in C strings

`strsep` with a set of delimiters cuts a string at each of them; `strtol(s, NULL, 16)` reads the
hexadecimal digits at the front, behind blanks, a sign and `0x`.

* **`strtol16_fmtHex`**: what `%x` prints is read back;
* **`strtol16_toDigits_iff`**: what `%d` prints is read back into a byte only if it is one digit.
-/

namespace CString

/-- The tokens that `strsep` returns until the string is used up. -/
def strsepAll (delims : List Char) (s : CStr) : List CStr := s.splitOnP (delims.contains ·)

/-- The value of a hexadecimal digit. -/
def hexVal (c : Char) : Option ℕ :=
  if c.isDigit then some (c.toNat - '0'.toNat)
  else if 'a' ≤ c ∧ c ≤ 'f' then some (c.toNat - 'a'.toNat + 10)
  else if 'A' ≤ c ∧ c ≤ 'F' then some (c.toNat - 'A'.toNat + 10)
  else none

/-- The number of the digits in front, behind those with the value `n`. -/
def hexNumber (n : ℕ) : CStr → ℕ
  | [] => n
  | c :: s => (hexVal c).elim n fun d => hexNumber (n * 16 + d) s

/-- The digits behind `0x`. -/
def hexBody : CStr → CStr
  | '0' :: x :: c :: s => if (x = 'x' ∨ x = 'X') ∧ (hexVal c).isSome then c :: s else '0' :: x :: c :: s
  | s => s

/-- `strtol(s, NULL, 16)`, with a `long` of 64 bits. -/
def strtol16 (s : CStr) : ℤ :=
  match s.dropWhile isSpace with
  | '-' :: r => max (-(hexNumber 0 (hexBody r) : ℤ)) (-2 ^ 63)
  | '+' :: r => min (hexNumber 0 (hexBody r) : ℤ) (2 ^ 63 - 1)
  | r => min (hexNumber 0 (hexBody r) : ℤ) (2 ^ 63 - 1)

/-! ## Digits -/

theorem hexVal_digitChar {d : ℕ} (h : d < 16) : hexVal d.digitChar = some d := by
  interval_cases d <;> rfl

theorem hexNumber_append {s : CStr} (hs : ∀ c ∈ s, (hexVal c).isSome) (n : ℕ) (t : CStr) :
    hexNumber n (s ++ t) = hexNumber (hexNumber n s) t := by
  induction s generalizing n with
  | nil => rfl
  | cons c s ih =>
    rw [List.forall_mem_cons] at hs
    obtain ⟨d, hd⟩ := Option.isSome_iff_exists.mp hs.1
    rw [List.cons_append, hexNumber, hexNumber, hd]
    exact ih hs.2 _

theorem hexVal_isSome_of_mem {b n : ℕ} (hb : 1 < b) (hb16 : b ≤ 16) {c : Char}
    (h : c ∈ Nat.toDigits b n) : (hexVal c).isSome := by
  induction n using Nat.strong_induction_on with
  | _ n ih =>
    rw [Nat.toDigits_eq_if hb] at h
    split at h
    · rw [List.mem_singleton.mp h, hexVal_digitChar (by omega)]
      rfl
    · rename_i hn
      rcases List.mem_append.mp h with h | h
      · exact ih (n / b) (Nat.div_lt_self (by omega) hb) h
      · have := Nat.mod_lt n (show 0 < b by omega)
        rw [List.mem_singleton.mp h, hexVal_digitChar (by omega)]
        rfl

theorem hexNumber_toDigits (n : ℕ) : hexNumber 0 (Nat.toDigits 16 n) = n := by
  induction n using Nat.strong_induction_on with
  | _ n ih =>
    rw [Nat.toDigits_eq_if (by omega)]
    split
    · rename_i hn
      rw [hexNumber, hexVal_digitChar hn]
      exact Nat.zero_add n
    · rename_i hn
      rw [hexNumber_append (fun c hc => hexVal_isSome_of_mem (by omega) le_rfl hc),
        ih (n / 16) (Nat.div_lt_self (by omega) (by omega)), hexNumber,
        hexVal_digitChar (Nat.mod_lt n (by omega))]
      exact Nat.div_add_mod' n 16

theorem hexNumber_zeros (k : ℕ) (s : CStr) : hexNumber 0 (List.replicate k '0' ++ s) = hexNumber 0 s := by
  induction k with
  | zero => rfl
  | succ k ih => exact ih

/-! ## Strings of digits -/

theorem hexVal_isSome_ne {c x : Char} (h : (hexVal c).isSome) (hx : hexVal x = none) : c ≠ x := by
  rintro rfl
  rw [hx] at h
  cases h

theorem isSpace_of_hexVal {c : Char} (h : (hexVal c).isSome) : isSpace c = false := by
  simp only [isSpace, Bool.or_eq_false_iff, decide_eq_false_iff_not]
  refine ⟨⟨⟨⟨⟨?_, ?_⟩, ?_⟩, ?_⟩, ?_⟩, ?_⟩ <;> exact hexVal_isSome_ne h rfl

theorem hexBody_eq {s : CStr} (hs : ∀ c ∈ s, (hexVal c).isSome) : hexBody s = s := by
  unfold hexBody
  split
  · rename_i x c s
    have hx : (hexVal x).isSome := hs x (by simp)
    rw [if_neg]
    rintro ⟨h | h, -⟩
    · exact hexVal_isSome_ne hx rfl h
    · exact hexVal_isSome_ne hx rfl h
  · rfl

theorem strtol16_digits {s : CStr} (hs : ∀ c ∈ s, (hexVal c).isSome) :
    strtol16 s = min (hexNumber 0 s : ℤ) (2 ^ 63 - 1) := by
  have hdrop : s.dropWhile isSpace = s := by
    cases s with
    | nil => rfl
    | cons c s =>
      rw [List.dropWhile_cons_of_neg]
      simpa using isSpace_of_hexVal (hs c List.mem_cons_self)
  rw [strtol16, hdrop]
  split
  · exact absurd rfl (hexVal_isSome_ne (hs '-' List.mem_cons_self) rfl)
  · exact absurd rfl (hexVal_isSome_ne (hs '+' List.mem_cons_self) rfl)
  · rw [hexBody_eq hs]

theorem hexVal_isSome_fmtHex {w n : ℕ} {c : Char} (h : c ∈ fmtHex w n) : (hexVal c).isSome := by
  rcases List.mem_append.mp h with h | h
  · rw [List.eq_of_mem_replicate h]
    rfl
  · exact hexVal_isSome_of_mem (by omega) le_rfl h

/-- **What `%x` prints is read back.** -/
theorem strtol16_fmtHex (w : ℕ) {n : ℕ} (hn : n < 2 ^ 63) : strtol16 (fmtHex w n) = n := by
  rw [strtol16_digits fun c hc => hexVal_isSome_fmtHex hc, fmtHex, hexNumber_zeros,
    hexNumber_toDigits]
  omega

theorem hexNumber_decimal : ∀ n < 256,
    hexNumber 0 (Nat.toDigits 10 n) < 4096 ∧ (hexNumber 0 (Nat.toDigits 10 n) % 256 = n ↔ n < 10) := by
  decide +kernel

/-- **A decimal number is read back into a byte only if it has one digit.** -/
theorem strtol16_toDigits_iff (n : ℕ) : (strtol16 (Nat.toDigits 10 n) % 256).toNat = n ↔ n < 10 := by
  by_cases hn : n < 256
  · obtain ⟨hlt, hiff⟩ := hexNumber_decimal n hn
    rw [strtol16_digits fun c hc => hexVal_isSome_of_mem (by omega) (by omega) hc, ← hiff]
    omega
  · omega

end CString
