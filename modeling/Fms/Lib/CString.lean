import Mathlib

/-!
# C strings

A C string is the list of its characters up to the terminating NUL. A pointer into a string is the
suffix it points to and a null pointer is `none`, so that `strchr`, `strrchr` and `strstr` return
optional suffixes.

* comparison: `strncmpEq`, with `strncmpEq_left` and `strncmpEq_right`: comparing over the length of one
  of the strings is a prefix test;
* search: `strchr`, `strrchr`, `strstr`;
* buffers: `store`;
* splitting: `strtok` with its saved position;
* numbers: `atoi` and the conversion `%d`, with **`atoi_fmtInt`**: `atoi` reads back what `%d`
  printed.
-/

namespace CString

/-- The characters of a C string. -/
abbrev CStr := List Char

/-- `strncmp(a, b, n) == 0`. -/
def strncmpEq (a b : CStr) (n : ℕ) : Bool := a.take n == b.take n

theorem strncmpEq_right {p s : CStr} : strncmpEq s p p.length = true ↔ p <+: s := by
  simp only [strncmpEq, List.take_length, beq_iff_eq]
  rw [List.prefix_iff_eq_take]
  exact eq_comm

theorem strncmpEq_left {p s : CStr} : strncmpEq p s p.length = true ↔ p <+: s := by
  rw [strncmpEq, List.take_length, beq_iff_eq, List.prefix_iff_eq_take]

theorem prefix_exclusive {k k' s : CStr} (h : ¬ k <+: k') (h' : ¬ k' <+: k) (hs : k <+: s) : ¬ k' <+: s := by
  intro hs'
  rcases List.prefix_or_prefix_of_prefix hs hs' with hp | hp
  · exact h hp
  · exact h' hp

/-! ## Searching -/

/-- `strchr(s, c)`. -/
def strchr (c : Char) : CStr → Option CStr
  | [] => none
  | x :: xs => if x = c then some (x :: xs) else strchr c xs

/-- `strrchr(s, c)`. -/
def strrchr (c : Char) : CStr → Option CStr
  | [] => none
  | x :: xs => (strrchr c xs).or (if x = c then some (x :: xs) else none)

/-- `strstr(s, needle)`. -/
def strstr (needle : CStr) : CStr → Option CStr
  | [] => if needle = [] then some [] else none
  | x :: xs => if needle.isPrefixOf (x :: xs) then some (x :: xs) else strstr needle xs

theorem strchr_append_cons {c : Char} {s : CStr} (hs : c ∉ s) (t : CStr) :
    strchr c (s ++ c :: t) = some (c :: t) := by
  induction s with
  | nil => simp [strchr]
  | cons x s ih =>
    simp only [List.mem_cons, not_or] at hs
    rw [List.cons_append, strchr, if_neg (Ne.symm hs.1), ih hs.2]

theorem strchr_of_mem {c : Char} {s : CStr} (h : c ∈ s) :
    strchr c s = some (s.dropWhile (· != c)) := by
  induction s with
  | nil => exact absurd h List.not_mem_nil
  | cons x s ih =>
    by_cases hx : x = c
    · simp [strchr, hx]
    · have hs : c ∈ s := (List.mem_cons.mp h).resolve_left (Ne.symm hx)
      rw [strchr, if_neg hx, ih hs]
      simp [hx]

theorem strchr_isSome {ch : Char} {s : CStr} : (strchr ch s).isSome ↔ ch ∈ s := by
  constructor
  · intro h
    by_contra hn
    induction s with
    | nil => exact absurd h Bool.false_ne_true
    | cons x s ih =>
      simp only [List.mem_cons, not_or] at hn
      rw [strchr, if_neg (Ne.symm hn.1)] at h
      exact ih h hn.2
  · exact fun h => by rw [strchr_of_mem h]; rfl

theorem strrchr_eq_none {c : Char} {s : CStr} : strrchr c s = none ↔ c ∉ s := by
  induction s with
  | nil => simp [strrchr]
  | cons x s ih =>
    rw [strrchr, Option.or_eq_none_iff, ih, List.mem_cons, not_or, and_comm]
    refine and_congr_left fun _ => ?_
    by_cases hx : x = c
    · simp [hx]
    · simp [hx, Ne.symm hx]

theorem strrchr_append {c : Char} {t : CStr} (ht : c ∉ t) (s : CStr) :
    strrchr c (s ++ c :: t) = some (c :: t) := by
  induction s with
  | nil => simp [strrchr, strrchr_eq_none.mpr ht]
  | cons x s ih => rw [List.cons_append, strrchr, ih, Option.some_or]

theorem exists_last_of_mem {c : Char} {s : CStr} (h : c ∈ s) : ∃ r t, s = r ++ c :: t ∧ c ∉ t := by
  obtain ⟨t, r, hs, ht⟩ := List.eq_append_cons_of_mem (List.mem_reverse.mpr h)
  refine ⟨r.reverse, t.reverse, ?_, by simpa using ht⟩
  rw [← List.reverse_reverse s, hs]
  simp

theorem strstr_isSome {needle s : CStr} : (strstr needle s).isSome ↔ needle <:+: s := by
  induction s with
  | nil => simp [strstr]
  | cons x s ih =>
    rw [strstr, List.infix_cons_iff, ← List.isPrefixOf_iff_prefix]
    by_cases h : needle.isPrefixOf (x :: s)
    · simp [h]
    · rw [if_neg h, ih, or_iff_right h]

theorem strstr_eq_some {needle s t : CStr} (h : strstr needle s = some t) : needle <+: t ∧ t <:+ s := by
  induction s with
  | nil =>
    rw [strstr] at h
    split at h
    case isTrue hnil =>
      cases h
      exact ⟨hnil ▸ List.nil_prefix, List.suffix_refl _⟩
    case isFalse => cases h
  | cons x s ih =>
    rw [strstr] at h
    split at h
    case isTrue hpre =>
      cases h
      exact ⟨List.isPrefixOf_iff_prefix.mp hpre, List.suffix_refl _⟩
    case isFalse =>
      obtain ⟨hpre, hsuf⟩ := ih h
      exact ⟨hpre, hsuf.trans (List.suffix_cons x s)⟩

/-- A string is found behind characters that it does not start with. -/
theorem strstr_skip {n : Char} {s : CStr} (hs : n ∉ s) (needle t : CStr) :
    strstr (n :: needle) (s ++ t) = strstr (n :: needle) t := by
  induction s with
  | nil => rfl
  | cons x s ih =>
    rw [List.mem_cons, not_or] at hs
    have hno : ¬ (n :: needle).isPrefixOf (x :: (s ++ t)) = true := by
      rw [List.isPrefixOf_iff_prefix, List.cons_prefix_cons]
      exact fun h => hs.1 h.1
    rw [List.cons_append, strstr, if_neg hno, ih hs.2]

theorem strstr_append (n : Char) (needle t : CStr) :
    strstr (n :: needle) (n :: needle ++ t) = some (n :: needle ++ t) := by
  have hpre : (n :: needle).isPrefixOf (n :: (needle ++ t)) = true :=
    List.isPrefixOf_iff_prefix.mpr (List.prefix_append (n :: needle) t)
  rw [List.cons_append, strstr, if_pos hpre]

theorem strstr_singleton (c : Char) (s : CStr) : strstr [c] s = strchr c s := by
  induction s with
  | nil => rfl
  | cons x s ih =>
    rw [strstr, strchr, ih]
    by_cases h : x = c
    · simp [h, List.isPrefixOf]
    · simp [h, Ne.symm h, List.isPrefixOf]

/-! ## Buffers -/

/-- What `sprintf` and `strcpy` leave in a buffer of `size` characters, if the text fits. -/
def store (size : ℕ) (s : CStr) : Option CStr := if s.length < size then some s else none

theorem store_fits {size : ℕ} {s : CStr} (h : s.length < size) : store size s = some s := if_pos h

theorem store_overflow {size : ℕ} {s : CStr} (h : ¬ s.length < size) : store size s = none :=
  if_neg h

theorem store_eq_some {size : ℕ} {s t : CStr} : store size s = some t ↔ s.length < size ∧ s = t := by
  unfold store
  split_ifs with h <;> simp [h]

theorem store_isNone {size : ℕ} {s : CStr} : (store size s).isNone = true ↔ ¬ s.length < size := by
  unfold store
  split_ifs with h <;> simp [h]

/-! ## Splitting -/

/-- `strtok`: the next token of the text at the saved position, and the new saved position. -/
def strtok (delim : Char) (s : CStr) : Option (CStr × CStr) :=
  match s.dropWhile (· == delim) with
  | [] => none
  | x :: xs => some ((x :: xs).takeWhile (· != delim), ((x :: xs).dropWhile (· != delim)).drop 1)

theorem takeWhile_append_delim {d : Char} {s : CStr} (hs : d ∉ s) (t : CStr) :
    (s ++ d :: t).takeWhile (· != d) = s := by
  induction s with
  | nil => simp
  | cons x s ih =>
    simp only [List.mem_cons, not_or] at hs
    simp [Ne.symm hs.1, ih hs.2]

theorem takeWhile_append_left {d : Char} {k : CStr} (hk : d ∉ k) (y : CStr) :
    (k ++ y).takeWhile (· != d) = k ++ y.takeWhile (· != d) :=
  List.takeWhile_append_of_pos fun _ hc => bne_iff_ne.mpr fun h => hk (h ▸ hc)

/-- A keyword stands in front of a text exactly if it does so in front of what precedes `d`. -/
theorem prefix_takeWhile_iff {d : Char} {k s : CStr} (hk : d ∉ k) :
    k <+: s.takeWhile (· != d) ↔ k <+: s := by
  refine ⟨fun h => h.trans (List.takeWhile_prefix _), ?_⟩
  rintro ⟨y, rfl⟩
  rw [takeWhile_append_left hk]
  exact List.prefix_append _ _

theorem dropWhile_append_delim {d : Char} {s : CStr} (hs : d ∉ s) (t : CStr) :
    (s ++ d :: t).dropWhile (· != d) = d :: t := by
  induction s with
  | nil => simp
  | cons x s ih =>
    simp only [List.mem_cons, not_or] at hs
    simp [Ne.symm hs.1, ih hs.2]

theorem takeWhile_no_delim {d : Char} {s : CStr} (hs : d ∉ s) : s.takeWhile (· != d) = s := by
  rw [List.takeWhile_eq_self_iff]
  intro x hx
  have hne : x ≠ d := fun h => hs (h ▸ hx)
  simpa using hne

theorem dropWhile_no_delim {d : Char} {s : CStr} (hs : d ∉ s) : s.dropWhile (· != d) = [] := by
  rw [List.dropWhile_eq_nil_iff]
  intro x hx
  have hne : x ≠ d := fun h => hs (h ▸ hx)
  simpa using hne

theorem dropWhile_beq_of_not_mem {d : Char} {s t : CStr} (hs : d ∉ s) (hne : s ≠ []) :
    (s ++ t).dropWhile (· == d) = s ++ t := by
  obtain ⟨x, s, rfl⟩ := List.exists_cons_of_ne_nil hne
  simp only [List.mem_cons, not_or] at hs
  simp [Ne.symm hs.1]

/-- The first token of a text that starts with one. -/
theorem strtok_append {d : Char} {s : CStr} (hs : d ∉ s) (hne : s ≠ []) (t : CStr) :
    strtok d (s ++ d :: t) = some (s, t) := by
  have h := dropWhile_beq_of_not_mem (t := d :: t) hs hne
  have h1 := takeWhile_append_delim hs t
  have h2 := dropWhile_append_delim hs t
  obtain ⟨x, s, rfl⟩ := List.exists_cons_of_ne_nil hne
  rw [List.cons_append] at h h1 h2
  rw [List.cons_append, strtok, h]
  simp only [h1, h2, List.drop_succ_cons, List.drop_zero]

theorem strtok_last {d : Char} {s : CStr} (hs : d ∉ s) (hne : s ≠ []) :
    strtok d s = some (s, []) := by
  have h := dropWhile_beq_of_not_mem (t := []) hs hne
  have h1 := takeWhile_no_delim hs
  have h2 := dropWhile_no_delim hs
  obtain ⟨x, s, rfl⟩ := List.exists_cons_of_ne_nil hne
  rw [List.append_nil] at h
  rw [strtok, h]
  simp only [h1, h2, List.drop_nil]

/-! ## Numbers -/

/-- The values of an `int`. -/
def IsInt (z : ℤ) : Prop := -2 ^ 31 ≤ z ∧ z < 2 ^ 31

instance (z : ℤ) : Decidable (IsInt z) := inferInstanceAs (Decidable (_ ∧ _))

/-- `isspace` -/
def isSpace (c : Char) : Bool :=
  c = ' ' || c = '\t' || c = '\n' || c = '\x0b' || c = '\x0c' || c = '\r'

/-- The value of the leading digits. -/
def atoiDigits (s : CStr) : ℕ := Nat.ofDigitChars 10 (s.takeWhile Char.isDigit) 0

/-- `atoi(s)`, for values that fit an `int`. -/
def atoi (s : CStr) : ℤ :=
  match s.dropWhile isSpace with
  | '-' :: r => -(atoiDigits r : ℤ)
  | '+' :: r => atoiDigits r
  | r => atoiDigits r

/-- `atoi(s)`, for every value: the `int` of what `strtol` reads, which stops at `LONG_MIN` and `LONG_MAX`. -/
def atoiWrap (s : CStr) : ℤ := (BitVec.ofInt 32 (max (-2 ^ 63) (min (atoi s) (2 ^ 63 - 1)))).toInt

/-- The text `%d` and `%ld` print. -/
def fmtInt (z : ℤ) : CStr :=
  if z < 0 then '-' :: Nat.toDigits 10 z.natAbs else Nat.toDigits 10 z.natAbs

/-- The text `%x` prints, padded with zeros to a width. -/
def fmtHex (width n : ℕ) : CStr :=
  List.replicate (width - (Nat.toDigits 16 n).length) '0' ++ Nat.toDigits 16 n

theorem isDigit_of_mem_toDigits {n : ℕ} {c : Char} (h : c ∈ Nat.toDigits 10 n) :
    c.isDigit = true := Nat.isDigit_of_mem_toDigits (by omega) (by omega) h

theorem atoiDigits_toDigits (n : ℕ) : atoiDigits (Nat.toDigits 10 n) = n := by
  rw [atoiDigits, List.takeWhile_eq_self_iff.mpr fun c hc => isDigit_of_mem_toDigits hc]
  exact Nat.ofDigitChars_ten_toDigits

theorem not_isDigit_of_mem {c : Char} (h : c ∈ [':', '-', '+', ' ', '\t', '\n', '\x0b', '\x0c', '\r']) :
    c.isDigit = false := by
  simp only [List.mem_cons, List.not_mem_nil, or_false] at h
  rcases h with rfl | rfl | rfl | rfl | rfl | rfl | rfl | rfl | rfl <;> rfl

theorem isSpace_of_isDigit {c : Char} (hd : c.isDigit = true) : isSpace c = false := by
  by_contra hs
  have hm : c ∈ [':', '-', '+', ' ', '\t', '\n', '\x0b', '\x0c', '\r'] := by
    simp only [isSpace, Bool.or_eq_true, decide_eq_true_eq, Bool.not_eq_false] at hs
    simp only [List.mem_cons, List.not_mem_nil, or_false]
    tauto
  rw [not_isDigit_of_mem hm] at hd
  exact Bool.noConfusion hd

theorem toDigits_cons (n : ℕ) : ∃ c cs, Nat.toDigits 10 n = c :: cs ∧ c.isDigit = true := by
  obtain ⟨c, cs, h⟩ := List.exists_cons_of_ne_nil (Nat.toDigits_ne_nil (n := n) (b := 10))
  exact ⟨c, cs, h, isDigit_of_mem_toDigits (h ▸ List.mem_cons_self)⟩

theorem colon_not_mem_fmtInt (z : ℤ) : ':' ∉ fmtInt z := by
  have h : ':' ∉ Nat.toDigits 10 z.natAbs := fun h => by
    have := isDigit_of_mem_toDigits h
    exact absurd this (by decide)
  unfold fmtInt
  split_ifs
  · simpa using h
  · exact h

theorem fmtInt_ne_nil (z : ℤ) : fmtInt z ≠ [] := by
  unfold fmtInt
  split_ifs
  · simp
  · exact Nat.toDigits_ne_nil

theorem length_fmtInt_natCast {n k : ℕ} (hk : 0 < k) (h : n < 10 ^ k) :
    (fmtInt n).length ≤ k := by
  rw [fmtInt, if_neg (by omega), Int.natAbs_natCast]
  exact (Nat.length_toDigits_le_iff (by omega) hk).mpr h

theorem fmtInt_natCast (n : ℕ) : fmtInt n = Nat.toDigits 10 n := by
  rw [fmtInt, if_neg (by omega), Int.natAbs_natCast]

/-- Behind a number, `atoi` does not read what starts with no digit. -/
theorem atoiDigits_append {y : CStr} (hy : ∀ c ∈ y.head?, c.isDigit = false) (s : CStr) :
    atoiDigits (s ++ y) = atoiDigits s := by
  have h : (s ++ y).takeWhile Char.isDigit = s.takeWhile Char.isDigit := by
    induction s with
    | nil =>
      cases y with
      | nil => rfl
      | cons c y => simp [hy c rfl]
    | cons x s ih =>
      by_cases hx : x.isDigit
      · rw [List.cons_append, List.takeWhile_cons_of_pos hx, List.takeWhile_cons_of_pos hx, ih]
      · rw [List.cons_append, List.takeWhile_cons_of_neg hx, List.takeWhile_cons_of_neg hx]
  rw [atoiDigits, h]
  rfl

theorem atoi_append {s y : CStr} (hs : s.dropWhile isSpace ≠ [])
    (hy : ∀ c ∈ y.head?, c.isDigit = false) : atoi (s ++ y) = atoi s := by
  have hdrop : (s ++ y).dropWhile isSpace = s.dropWhile isSpace ++ y := by
    rw [List.dropWhile_append, if_neg (by simpa using hs)]
  unfold atoi
  rw [hdrop]
  obtain ⟨x, r, hr⟩ := List.exists_cons_of_ne_nil hs
  rw [hr, List.cons_append]
  by_cases hminus : x = '-'
  · subst hminus
    simp only [atoiDigits_append hy]
  · by_cases hplus : x = '+'
    · subst hplus
      simp only [atoiDigits_append hy]
    · have h := atoiDigits_append hy (x :: r)
      rw [List.cons_append] at h
      split <;> simp_all

theorem atoi_blank {s : CStr} (hs : s.dropWhile isSpace = []) (y : CStr) : atoi (s ++ y) = atoi y := by
  have hdrop : (s ++ y).dropWhile isSpace = y.dropWhile isSpace := by
    rw [List.dropWhile_append, if_pos (by simpa using hs)]
  unfold atoi
  rw [hdrop]

theorem atoi_of_isDigit {s : CStr} (hs : ∀ c ∈ s.head?, c.isDigit = true) : atoi s = atoiDigits s := by
  cases s with
  | nil => rfl
  | cons c cs =>
    have hd : c.isDigit = true := hs c rfl
    have hdrop : (c :: cs).dropWhile isSpace = c :: cs := by
      rw [List.dropWhile_cons_of_neg (Bool.eq_false_iff.mp (isSpace_of_isDigit hd))]
    have hm : c ≠ '-' ∧ c ≠ '+' :=
      ⟨fun e => by subst e; exact absurd hd (by decide), fun e => by subst e; exact absurd hd (by decide)⟩
    unfold atoi
    rw [hdrop]
    split
    · rename_i he; exact absurd (List.cons.inj he).1 hm.1
    · rename_i he; exact absurd (List.cons.inj he).1 hm.2
    · rfl

theorem atoiWrap_of_isDigit {s : CStr} (hs : ∀ c ∈ s, c.isDigit = true) :
    atoiWrap s = (min (Nat.ofDigitChars 10 s 0 : ℤ) (2 ^ 63 - 1)).bmod (2 ^ 32) := by
  have hatoi : atoi s = Nat.ofDigitChars 10 s 0 := by
    rw [atoi_of_isDigit fun c hc => hs c (List.mem_of_mem_head? hc), atoiDigits, List.takeWhile_eq_self_iff.mpr hs]
  rw [atoiWrap, BitVec.toInt_ofInt, hatoi, max_eq_right (by omega)]

/-- **`atoi` reads back what `%d` printed.** -/
theorem atoi_fmtInt (z : ℤ) : atoi (fmtInt z) = z := by
  unfold fmtInt
  split_ifs with hz
  · have h : ('-' :: Nat.toDigits 10 z.natAbs).dropWhile isSpace =
        '-' :: Nat.toDigits 10 z.natAbs := rfl
    simp only [atoi, h, atoiDigits_toDigits]
    omega
  · obtain ⟨c, cs, hc, hd⟩ := toDigits_cons z.natAbs
    have hhead : ∀ x ∈ (Nat.toDigits 10 z.natAbs).head?, x.isDigit = true := by
      intro x hx
      rw [hc] at hx
      obtain rfl := Option.some.inj hx
      exact hd
    rw [atoi_of_isDigit hhead, atoiDigits_toDigits]
    omega

end CString
