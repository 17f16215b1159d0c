import Mathlib

/-!
# Files of bytes

* `readAt`, `writeAt`: reading and writing a file at an offset;
* `Holds f off bs`: the file has the bytes `bs` from `off` on;
* **`Holds.writeAt_disjoint`**, **`holds_writeAt`**: what a write leaves, and what it puts there;
* `leBytes`, `ofLeBytes`: numbers in a fixed number of bytes, the low one first.
-/

namespace Bytes

/-- At most `n` bytes from `off` on. -/
def readAt (f : List UInt8) (off n : ℕ) : List UInt8 := (f.drop off).take n

/-- Bytes written at `off`; a gap behind the end is filled with zeros. -/
def writeAt (f : List UInt8) (off : ℕ) (bs : List UInt8) : List UInt8 :=
  f.take off ++ List.replicate (off - f.length) 0 ++ bs ++ f.drop (off + bs.length)

def Holds (f : List UInt8) (off : ℕ) (bs : List UInt8) : Prop :=
  ∀ i, i < bs.length → f[off + i]? = bs[i]?

variable {f bs cs : List UInt8} {off n : ℕ}

theorem getElem?_writeAt (h : off ≤ f.length) (i : ℕ) :
    (writeAt f off bs)[i]? =
      if i < off then f[i]? else if i < off + bs.length then bs[i - off]? else f[i]? := by
  have hlen : (f.take off).length = off := List.length_take_of_le h
  rw [writeAt, Nat.sub_eq_zero_of_le h, List.replicate_zero, List.append_nil, List.append_assoc]
  split_ifs with h1 h2
  · rw [List.getElem?_append_left (by omega), List.getElem?_take_of_lt h1]
  · rw [List.getElem?_append_right (by omega), hlen, List.getElem?_append_left (by omega)]
  · rw [List.getElem?_append_right (by omega), hlen, List.getElem?_append_right (by omega),
      List.getElem?_drop]
    congr 1
    omega

theorem length_writeAt (h : off ≤ f.length) :
    (writeAt f off bs).length = max f.length (off + bs.length) := by
  simp only [writeAt, List.length_append, List.length_take, List.length_replicate, List.length_drop]
  omega

@[simp] theorem writeAt_nil (h : off ≤ f.length) : writeAt f off [] = f := by
  simp [writeAt, Nat.sub_eq_zero_of_le h]

/-! ## What a file has at an offset -/

theorem holds_append : Holds f off (bs ++ cs) ↔ Holds f off bs ∧ Holds f (off + bs.length) cs := by
  constructor
  · refine fun h => ⟨fun i hi => ?_, fun i hi => ?_⟩
    · rw [h i (by rw [List.length_append]; omega), List.getElem?_append_left hi]
    · have := h (bs.length + i) (by rw [List.length_append]; omega)
      rwa [← Nat.add_assoc, List.getElem?_append_right (by omega), Nat.add_sub_cancel_left] at this
  · rintro ⟨hb, hc⟩ i hi
    rw [List.length_append] at hi
    rcases Nat.lt_or_ge i bs.length with hlt | hge
    · rw [hb i hlt, List.getElem?_append_left hlt]
    · have := hc (i - bs.length) (by omega)
      rwa [show off + bs.length + (i - bs.length) = off + i by omega,
        ← List.getElem?_append_right hge] at this

theorem Holds.le_length (h : Holds f off bs) (hne : bs ≠ []) : off + bs.length ≤ f.length := by
  have hpos : 0 < bs.length := List.length_pos_of_ne_nil hne
  have hlast := h (bs.length - 1) (by omega)
  rw [List.getElem?_eq_getElem (show bs.length - 1 < bs.length by omega)] at hlast
  have := (List.getElem?_eq_some_iff.mp hlast).1
  omega

theorem Holds.congr {g : List UInt8} (h : Holds f off bs)
    (heq : ∀ i, off ≤ i → i < off + bs.length → g[i]? = f[i]?) : Holds g off bs :=
  fun i hi => (heq (off + i) (by omega) (by omega)).trans (h i hi)

theorem holds_writeAt (h : off ≤ f.length) (bs : List UInt8) : Holds (writeAt f off bs) off bs := by
  intro i hi
  rw [getElem?_writeAt h, if_neg (by omega), if_pos (by omega), Nat.add_sub_cancel_left]

theorem Holds.writeAt_disjoint {off' : ℕ} (h : Holds f off bs) (hle : off' ≤ f.length)
    (hd : off' + cs.length ≤ off ∨ off + bs.length ≤ off') : Holds (writeAt f off' cs) off bs := by
  refine h.congr fun i hi hi' => ?_
  rw [getElem?_writeAt hle]
  split_ifs with h1 h2
  · rfl
  · omega
  · rfl

theorem Holds.writeAt_inside {as bs' : List UInt8} (h : Holds f off (as ++ bs ++ cs))
    (hlen : bs'.length = bs.length) (hle : off + as.length ≤ f.length) :
    Holds (writeAt f (off + as.length) bs') off (as ++ bs' ++ cs) := by
  rw [holds_append, holds_append] at h ⊢
  obtain ⟨⟨ha, -⟩, hc⟩ := h
  refine ⟨⟨ha.writeAt_disjoint hle (Or.inr le_rfl), holds_writeAt hle bs'⟩, ?_⟩
  rw [List.length_append, hlen, ← List.length_append]
  exact hc.writeAt_disjoint hle (Or.inl (by rw [List.length_append]; omega))

theorem length_readAt (f : List UInt8) (off n : ℕ) : (readAt f off n).length = min n (f.length - off) := by
  rw [readAt, List.length_take, List.length_drop]

theorem Holds.readAt (h : Holds f off bs) (hn : bs.length ≤ n) :
    readAt f off n = bs ++ readAt f (off + bs.length) (n - bs.length) := by
  refine List.ext_getElem? fun i => ?_
  rcases Nat.lt_or_ge i bs.length with hlt | hge
  · rw [Bytes.readAt, List.getElem?_append_left hlt, List.getElem?_take_of_lt (by omega), List.getElem?_drop,
      h i hlt]
  · rw [List.getElem?_append_right hge, Bytes.readAt, Bytes.readAt]
    rcases Nat.lt_or_ge i n with hin | hin
    · rw [List.getElem?_take_of_lt hin, List.getElem?_take_of_lt (by omega), List.getElem?_drop,
        List.getElem?_drop]
      congr 1
      omega
    · rw [List.getElem?_eq_none (by rw [List.length_take]; omega),
        List.getElem?_eq_none (by rw [List.length_take]; omega)]

theorem Holds.readAt_eq (h : Holds f off bs) : Bytes.readAt f off bs.length = bs := by
  rw [h.readAt le_rfl, Nat.sub_self, Bytes.readAt, List.take_zero, List.append_nil]

/-! ## Numbers, the low byte first -/

def leBytes : ℕ → ℕ → List UInt8
  | 0, _ => []
  | w + 1, n => UInt8.ofNat n :: leBytes w (n / 256)

def ofLeBytes : List UInt8 → ℕ
  | [] => 0
  | b :: bs => b.toNat + 256 * ofLeBytes bs

@[simp] theorem length_leBytes (w n : ℕ) : (leBytes w n).length = w := by
  induction w generalizing n with
  | zero => rfl
  | succ w ih => rw [leBytes, List.length_cons, ih]

theorem ofLeBytes_leBytes (w n : ℕ) : ofLeBytes (leBytes w n) = n % 256 ^ w := by
  induction w generalizing n with
  | zero => rw [leBytes, ofLeBytes, pow_zero, Nat.mod_one]
  | succ w ih =>
    rw [leBytes, ofLeBytes, ih, UInt8.toNat_ofNat', pow_succ' 256 w, Nat.mod_mul]

theorem ofLeBytes_of_lt {w n : ℕ} (h : n < 256 ^ w) : ofLeBytes (leBytes w n) = n := by
  rw [ofLeBytes_leBytes, Nat.mod_eq_of_lt h]

theorem Holds.ofLeBytes {w m : ℕ} (h : Holds f off (leBytes w m)) (hm : m < 256 ^ w) :
    ofLeBytes (Bytes.readAt f off w) = m := by
  have := h.readAt_eq
  rw [length_leBytes] at this
  rw [this, ofLeBytes_of_lt hm]

end Bytes
