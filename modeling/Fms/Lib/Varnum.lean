import Mathlib

/-!
# Numbers of variable length

A number in groups of seven bits, the low group first. A group that is followed by another one is
stored as its complement to 255, so that its byte is not below 128.

* `encode`, `decode`: writing a number, and reading one from the front of some bytes;
* **`decode_encode`**: the number is read back, whatever follows it;
* `length_encode_le`, `head?_encode`: how long a number gets, and that only 0 starts with a NUL.
-/

namespace Varnum

def encode (n : ℕ) : List UInt8 :=
  if n < 128 then [UInt8.ofNat n] else UInt8.ofNat (255 - n % 128) :: encode (n / 128)

/-- The number, and the bytes behind it. -/
def decode : List UInt8 → Option (ℕ × List UInt8)
  | [] => none
  | b :: bs =>
    if b.toNat < 128 then some (b.toNat, bs)
    else (decode bs).map fun r => (255 - b.toNat + 128 * r.1, r.2)

theorem encode_of_lt {n : ℕ} (h : n < 128) : encode n = [UInt8.ofNat n] := by
  rw [encode, if_pos h]

theorem encode_of_le {n : ℕ} (h : 128 ≤ n) :
    encode n = UInt8.ofNat (255 - n % 128) :: encode (n / 128) := by
  rw [encode, if_neg (Nat.not_lt.mpr h)]

theorem toNat_last {n : ℕ} (h : n < 128) : (UInt8.ofNat n).toNat = n := by
  rw [UInt8.toNat_ofNat']
  omega

theorem toNat_group (n : ℕ) : (UInt8.ofNat (255 - n % 128)).toNat = 255 - n % 128 := by
  rw [UInt8.toNat_ofNat']
  omega

theorem decode_encode (n : ℕ) (bs : List UInt8) : decode (encode n ++ bs) = some (n, bs) := by
  induction n using Nat.strong_induction_on with
  | _ n ih =>
    rcases Nat.lt_or_ge n 128 with h | h
    · rw [encode_of_lt h, List.singleton_append, decode, toNat_last h, if_pos h]
    · have hmod : n % 128 < 128 := Nat.mod_lt n (by norm_num)
      rw [encode_of_le h, List.cons_append, decode, toNat_group, if_neg (by omega), ih (n / 128) (by omega)]
      show some (255 - (255 - n % 128) + 128 * (n / 128), bs) = some (n, bs)
      rw [show 255 - (255 - n % 128) + 128 * (n / 128) = n by omega]

theorem length_encode_pos (n : ℕ) : 0 < (encode n).length := by
  rw [encode]
  split_ifs <;> simp

theorem length_encode_le {k n : ℕ} (h : n < 128 ^ (k + 1)) : (encode n).length ≤ k + 1 := by
  induction k generalizing n with
  | zero => rw [encode_of_lt (by simpa using h), List.length_singleton]
  | succ k ih =>
    rcases Nat.lt_or_ge n 128 with h' | h'
    · rw [encode_of_lt h', List.length_singleton]
      omega
    · rw [encode_of_le h', List.length_cons]
      have := ih (n := n / 128) (Nat.div_lt_of_lt_mul (by rwa [← pow_succ']))
      omega

/-- Only 0 starts with a NUL. -/
theorem head?_encode {n : ℕ} : (encode n).head? = some 0 ↔ n = 0 := by
  have hne : ∀ m, m < 256 → (UInt8.ofNat m = 0 ↔ m = 0) := fun m hm => by
    rw [← UInt8.toNat_inj, UInt8.toNat_ofNat']
    show m % 2 ^ 8 = 0 ↔ m = 0
    omega
  rcases Nat.lt_or_ge n 128 with h | h
  · rw [encode_of_lt h, List.head?_cons, Option.some_inj, hne n (by omega)]
  · rw [encode_of_le h, List.head?_cons, Option.some_inj, hne _ (by omega)]
    omega

end Varnum
