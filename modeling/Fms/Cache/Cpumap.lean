import Fms.Lib.Unsigned

/-!
# The CPUs that share a cache

src/evt_modules/evtagent/cpumem/cache.c: a `shared_cpu_map` of sysfs is read into words of 32 bits.
The length of the words is found by a scan of the digits from the front, the words themselves by a
search for the commas from the end.

* `cpumapLen`, `parseCpumap`, `readCpuMap`: the code; a word behind the buffer is `none`;
* `mapBytes`: the length as a sum over the runs of digits, with `cpumapLen_eq`;
* **`readCpuMap_isSome`**: when the words fit;
* `CpuMap`: a well-formed map, with the number whose bits are its CPUs;
* **`CpuMap.readCpuMap_testBit`**: the bits that are read from it.
-/

namespace Fms

open CString

/-- `struct cache`, with the words of `cpumap`. -/
structure Cache where
  level : BitVec 32 := 0
  type : BitVec 32 := 0
  cpumap : List (BitVec 32) := []
  cpumaplen : ℕ := 0
  deriving DecidableEq

def bitsPerInt : ℕ := 32

/-- `round_up`, to a power of two -/
def roundUp (x y : ℕ) : ℕ := (x + y - 1) / y * y

/-- What a run of `width` digits adds to `len`. -/
def runBytes (width : ℕ) : ℕ := roundUp (width * 4 % 2 ^ 32) bitsPerInt / 8

/-- The loop of `cpumap_len`. The NUL that ends the string ends a run as well. -/
def cpumapLenFrom : CStr → ℕ → ℕ → ℕ
  | [], len, width => (len + runBytes width) % 2 ^ 32
  | c :: s, len, width =>
    if (hexVal c).isSome then cpumapLenFrom s len (width + 1)
    else cpumapLenFrom s ((len + runBytes width) % 2 ^ 32) 0

/-- `cpumap_len` -/
def cpumapLen (s : CStr) : ℕ := cpumapLenFrom s 0 0

/-- `buf[c] = word` -/
def putWord (buf : List (BitVec 32)) (c : ℕ) (word : BitVec 32) : Option (List (BitVec 32)) :=
  if c < buf.length then some (buf.set c word) else none

/-- The word at `s`, up to the next comma. -/
def wordAt (s : CStr) : BitVec 32 := (strtoul16 s).setWidth 32

/-- The loop of `parse_cpumap`. In front of `s` there is `before`, the nearest character first, where
`memrchr` looks for a comma. -/
def parseFrom : CStr → CStr → ℕ → List (BitVec 32) → Option (List (BitVec 32))
  | [], s, c, buf => putWord buf c (wordAt s)
  | x :: before, s, c, buf =>
    if x = ',' then (putWord buf c (wordAt s)).bind (parseFrom before (',' :: s) (c + 1))
    else parseFrom before (x :: s) c buf

/-- `parse_cpumap` -/
def parseCpumap (map : CStr) (buf : List (BitVec 32)) : Option (List (BitVec 32)) :=
  parseFrom map.reverse [] 0 buf

/-- `read_cpu_map`, with the text of the field. -/
def readCpuMap (c : Cache) (map : CStr) : Option Cache :=
  (parseCpumap map (List.replicate (cpumapLen map / 4) 0)).map fun buf =>
    { c with cpumap := buf, cpumaplen := cpumapLen map }

/-- `test_bit` -/
def testBit (i : ℕ) (a : List (BitVec 32)) : Option Bool :=
  a[i / bitsPerInt]?.map fun word => word &&& ((1 : BitVec 32) <<< (i % bitsPerInt)) != 0

/-! ## The length -/

/-- Four bytes for each eight digits begun of a run, in 32 bits. -/
def mapBytes (s : CStr) : ℕ :=
  ((s.splitOnP fun c => !(hexVal c).isSome).map fun run => 4 * ((4 * run.length % 2 ^ 32 + 31) / 32)).sum %
    2 ^ 32

theorem runBytes_eq (width : ℕ) : runBytes width = 4 * ((4 * width % 2 ^ 32 + 31) / 32) := by
  unfold runBytes roundUp bitsPerInt
  omega

theorem cpumapLenFrom_eq (s : CStr) (len width : ℕ) {run : CStr} {runs : List CStr}
    (h : s.splitOnP (fun c => !(hexVal c).isSome) = run :: runs) :
    cpumapLenFrom s len width =
      (len + runBytes (width + run.length) + (runs.map fun r => runBytes r.length).sum) % 2 ^ 32 := by
  induction s generalizing len width run runs with
  | nil =>
    cases h
    rfl
  | cons c s ih =>
    obtain ⟨run', runs', h'⟩ := List.exists_cons_of_ne_nil (List.splitOnP_ne_nil (fun c => !(hexVal c).isSome) s)
    rw [List.splitOnP_cons_eq_if_modifyHead, h'] at h
    rw [cpumapLenFrom]
    by_cases hc : (hexVal c).isSome
    · simp only [hc, Bool.not_true, Bool.false_eq_true, if_false, List.modifyHead_cons,
        List.cons.injEq] at h
      rw [if_pos hc, ih len (width + 1) h', ← h.1, ← h.2, List.length_cons, Nat.add_right_comm width 1,
        Nat.add_assoc width]
    · simp only [hc, Bool.not_false, if_true, List.cons.injEq] at h
      rw [if_neg hc, ih _ 0 h', ← h.1, ← h.2, List.map_cons, List.sum_cons, Nat.zero_add, List.length_nil,
        Nat.add_assoc, Nat.mod_add_mod, Nat.add_zero]

theorem cpumapLen_eq (s : CStr) : cpumapLen s = mapBytes s := by
  obtain ⟨run, runs, h⟩ := List.exists_cons_of_ne_nil (List.splitOnP_ne_nil (fun c => !(hexVal c).isSome) s)
  rw [cpumapLen, cpumapLenFrom_eq s 0 0 h, mapBytes, h, List.map_cons, List.sum_cons]
  simp only [runBytes_eq, Nat.zero_add]

theorem four_dvd_mapBytes (s : CStr) : 4 ∣ mapBytes s := by
  refine (Nat.dvd_mod_iff (by decide)).mpr (List.dvd_sum ?_)
  intro n hn
  obtain ⟨run, -, rfl⟩ := List.mem_map.mp hn
  exact Nat.dvd_mul_right 4 _

/-! ## The words -/

/-- The words, from the last to the first. -/
def wordsFrom : CStr → CStr → List (BitVec 32)
  | [], s => [wordAt s]
  | x :: before, s =>
    if x = ',' then wordAt s :: wordsFrom before (',' :: s) else wordsFrom before (x :: s)

theorem wordsFrom_length (before s : CStr) : (wordsFrom before s).length = before.count ',' + 1 := by
  induction before generalizing s with
  | nil => rfl
  | cons x before ih =>
    rw [wordsFrom]
    by_cases hx : x = ','
    · rw [if_pos hx, List.length_cons, ih, hx, List.count_cons_self]
    · rw [if_neg hx, ih, List.count_cons_of_ne hx]

theorem parseFrom_eq (before s : CStr) (c : ℕ) (buf : List (BitVec 32)) :
    parseFrom before s c buf =
      if c + (wordsFrom before s).length ≤ buf.length then
        some (buf.take c ++ wordsFrom before s ++ buf.drop (c + (wordsFrom before s).length))
      else none := by
  induction before generalizing s c buf with
  | nil =>
    rw [parseFrom, putWord, wordsFrom, List.length_singleton]
    by_cases h : c < buf.length
    · rw [if_pos h, if_pos (Nat.succ_le_of_lt h), List.set_eq_take_append_cons_drop, if_pos h,
        List.append_assoc, List.singleton_append]
    · rw [if_neg h, if_neg (by omega)]
  | cons x before ih =>
    rw [parseFrom, wordsFrom]
    by_cases hx : x = ','
    · rw [if_pos hx, if_pos hx, List.length_cons, putWord]
      by_cases h : c < buf.length
      · rw [if_pos h, Option.bind_some, ih, List.length_set]
        have hlen : c + 1 + (wordsFrom before (',' :: s)).length =
          c + ((wordsFrom before (',' :: s)).length + 1) := by omega
        have htake : (buf.set c (wordAt s)).take (c + 1) = buf.take c ++ [wordAt s] := by
          rw [List.set_eq_take_append_cons_drop, if_pos h, List.take_append]
          simp [List.length_take, Nat.min_eq_left (Nat.le_of_lt h)]
        rw [hlen, htake, List.drop_set_of_lt (by omega),
          List.append_cons (buf.take c) (wordAt s) (wordsFrom before (',' :: s))]
      · rw [if_neg h, if_neg (by omega), Option.bind_none]
    · rw [if_neg hx, if_neg hx, ih]

theorem parseCpumap_eq (map : CStr) (buf : List (BitVec 32)) :
    parseCpumap map buf =
      if map.count ',' + 1 ≤ buf.length then
        some (wordsFrom map.reverse [] ++ buf.drop (map.count ',' + 1))
      else none := by
  rw [parseCpumap, parseFrom_eq, wordsFrom_length, List.count_reverse, Nat.zero_add, List.take_zero,
    List.nil_append]

/-- **The words fit where there are at least as many begun eights of digits as commas, and one.** -/
theorem readCpuMap_isSome (c : Cache) (map : CStr) :
    (readCpuMap c map).isSome ↔ 4 * (map.count ',' + 1) ≤ mapBytes map := by
  obtain ⟨k, hk⟩ := four_dvd_mapBytes map
  rw [readCpuMap, Option.isSome_map, parseCpumap_eq, List.length_replicate, cpumapLen_eq, hk,
    Nat.mul_div_cancel_left k (by decide)]
  split
  · simp only [Option.isSome_some, true_iff]
    omega
  · simp only [Option.isSome_none, Bool.false_eq_true, false_iff]
    omega

theorem readCpuMap_length {c c' : Cache} {map : CStr} (h : readCpuMap c map = some c') :
    32 * c'.cpumap.length = 8 * mapBytes map ∧ c'.cpumaplen = mapBytes map := by
  obtain ⟨k, hk⟩ := four_dvd_mapBytes map
  obtain ⟨buf, hbuf, rfl⟩ := Option.map_eq_some_iff.mp h
  rw [parseCpumap_eq] at hbuf
  split at hbuf
  case isTrue hle =>
    cases hbuf
    rw [List.length_replicate, cpumapLen_eq, hk, Nat.mul_div_cancel_left k (by decide)] at hle
    refine ⟨?_, cpumapLen_eq map⟩
    simp only [List.length_append, wordsFrom_length, List.count_reverse, List.length_drop,
      List.length_replicate, cpumapLen_eq, hk, Nat.mul_div_cancel_left k (show 0 < 4 by decide)]
    omega
  case isFalse => cases hbuf

/-! ## Well-formed maps -/

/-- A map of groups of hexadecimal digits, the most significant one first, each of 32 bits at most. -/
structure CpuMap where
  groups : List CStr
  ne_nil : groups ≠ []
  digits : ∀ g ∈ groups, g ≠ [] ∧ ∀ c ∈ g, (hexVal c).isSome
  short : ∀ g ∈ groups, hexNumber 0 g < 2 ^ 32

namespace CpuMap

variable (m : CpuMap)

/-- The groups with commas in between. -/
def text : CStr := [','].intercalate m.groups

/-- The groups as one number. -/
def number : ℕ := Nat.ofDigits (2 ^ 32) (m.groups.reverse.map (hexNumber 0))

/-- CPU `i` is bit `i` of the number. -/
def cpus : List ℕ := (List.range (32 * m.groups.length)).filter m.number.testBit

end CpuMap

theorem intercalate_concat {gs : List CStr} (hne : gs ≠ []) (g : CStr) :
    [','].intercalate (gs ++ [g]) = [','].intercalate gs ++ ',' :: g := by
  induction gs with
  | nil => exact absurd rfl hne
  | cons x gs ih =>
    cases gs with
    | nil => simp [List.intercalate]
    | cons y gs =>
      rw [List.cons_append, List.cons_append, List.intercalate_cons_cons, ← List.cons_append,
        ih (List.cons_ne_nil y gs), List.intercalate_cons_cons]
      simp only [List.append_assoc]

theorem wordsFrom_append {g : CStr} (hg : ∀ c ∈ g, c ≠ ',') (before s : CStr) :
    wordsFrom (g ++ before) s = wordsFrom before (g.reverse ++ s) := by
  induction g generalizing s with
  | nil => rfl
  | cons c g ih =>
    rw [List.forall_mem_cons] at hg
    rw [List.cons_append, wordsFrom, if_neg hg.1, ih hg.2, List.reverse_cons, List.append_assoc,
      List.singleton_append]

theorem wordAt_group {g rest : CStr} (hg : g ≠ [] ∧ ∀ c ∈ g, (hexVal c).isSome)
    (hshort : hexNumber 0 g < 2 ^ 32) (hrest : ∀ c ∈ rest.head?, c = ',') :
    wordAt (g ++ rest) = BitVec.ofNat 32 (hexNumber 0 g) := by
  have hstop : ∀ c ∈ rest.head?, hexVal c = none ∧ c ≠ 'x' ∧ c ≠ 'X' := by
    intro c hc
    rw [hrest c hc]
    decide
  rw [wordAt, strtoul16_digits hg.2 hg.1 hstop (by omega), BitVec.setWidth_ofNat_of_le (by decide)]

theorem wordsFrom_groups {gs : List CStr} (hne : gs ≠ [])
    (hg : ∀ g ∈ gs, g ≠ [] ∧ ∀ c ∈ g, (hexVal c).isSome) (hshort : ∀ g ∈ gs, hexNumber 0 g < 2 ^ 32)
    {rest : CStr} (hrest : ∀ c ∈ rest.head?, c = ',') :
    wordsFrom ([','].intercalate gs).reverse rest =
      (gs.map fun g => BitVec.ofNat 32 (hexNumber 0 g)).reverse := by
  induction gs using List.reverseRecOn generalizing rest with
  | nil => exact absurd rfl hne
  | append_singleton gs g ih =>
    have hlast : g ∈ gs ++ [g] := by simp
    have hcomma : ∀ c ∈ g.reverse, c ≠ ',' := fun c hc =>
      hexVal_isSome_ne ((hg g hlast).2 c (List.mem_reverse.mp hc)) rfl
    have hword := wordAt_group (hg g hlast) (hshort g hlast) hrest
    by_cases hgs : gs = []
    · rw [hgs, List.nil_append, List.intercalate_singleton, ← List.append_nil g.reverse,
        wordsFrom_append hcomma, List.reverse_reverse, wordsFrom, hword]
      rfl
    · have hnext : ∀ c ∈ (',' :: (g ++ rest)).head?, c = ',' := by simp
      have ih' := ih hgs (fun x hx => hg x (List.mem_append_left _ hx))
        (fun x hx => hshort x (List.mem_append_left _ hx)) hnext
      rw [intercalate_concat hgs, List.reverse_append, List.reverse_cons, List.append_assoc,
        wordsFrom_append hcomma, List.reverse_reverse, List.singleton_append, wordsFrom, if_pos rfl, hword,
        ih', List.map_append, List.reverse_append]
      rfl

theorem cpumapLenFrom_append {g : CStr} (hg : ∀ c ∈ g, (hexVal c).isSome) (s : CStr) (len width : ℕ) :
    cpumapLenFrom (g ++ s) len width = cpumapLenFrom s len (width + g.length) := by
  induction g generalizing width with
  | nil => rfl
  | cons c g ih =>
    rw [List.forall_mem_cons] at hg
    rw [List.cons_append, cpumapLenFrom, if_pos hg.1, ih hg.2, List.length_cons, Nat.add_right_comm,
      Nat.add_assoc]

theorem cpumapLenFrom_text {gs : List CStr} (hne : gs ≠ []) (hg : ∀ g ∈ gs, ∀ c ∈ g, (hexVal c).isSome)
    (len : ℕ) :
    cpumapLenFrom ([','].intercalate gs) len 0 = (len + (gs.map fun g => runBytes g.length).sum) % 2 ^ 32 := by
  induction gs generalizing len with
  | nil => exact absurd rfl hne
  | cons g gs ih =>
    rw [List.forall_mem_cons] at hg
    cases gs with
    | nil =>
      rw [List.intercalate_singleton, ← List.append_nil g, cpumapLenFrom_append hg.1, Nat.zero_add]
      simp [cpumapLenFrom]
    | cons g' gs =>
      have hsum : ((g :: g' :: gs).map fun g => runBytes g.length).sum =
        runBytes g.length + ((g' :: gs).map fun g => runBytes g.length).sum := rfl
      rw [List.intercalate_cons_cons, List.append_assoc, cpumapLenFrom_append hg.1, Nat.zero_add,
        List.singleton_append, cpumapLenFrom, if_neg (by decide), ih (List.cons_ne_nil g' gs) hg.2, hsum,
        Nat.mod_add_mod, Nat.add_assoc]

theorem sum_runBytes {gs : List CStr} (hne : gs ≠ []) (hg : ∀ g ∈ gs, g ≠ []) :
    (gs.map fun g => runBytes g.length).sum ≤ 4 * ([','].intercalate gs).length ∧
      (([','].intercalate gs).length < 2 ^ 26 → 4 * gs.length ≤ (gs.map fun g => runBytes g.length).sum) := by
  induction gs with
  | nil => exact absurd rfl hne
  | cons g gs ih =>
    rw [List.forall_mem_cons] at hg
    have hpos := List.length_pos_iff.mpr hg.1
    have hrun := runBytes_eq g.length
    cases gs with
    | nil =>
      rw [List.intercalate_singleton, List.map_singleton, List.sum_singleton, List.length_singleton, hrun]
      omega
    | cons g' gs =>
      obtain ⟨hle, hge⟩ := ih (List.cons_ne_nil g' gs) hg.2
      rw [List.intercalate_cons_cons, List.map_cons, List.sum_cons, List.length_append, List.length_append,
        List.length_singleton, List.length_cons, hrun]
      omega

/-- **Bit `i` of digits of 32 bits is bit `i % 32` of digit `i / 32`.** -/
theorem testBit_ofDigits {l : List ℕ} (hl : ∀ d ∈ l, d < 2 ^ 32) (i : ℕ) :
    (Nat.ofDigits (2 ^ 32) l).testBit i = (l.getD (i / 32) 0).testBit (i % 32) := by
  induction l generalizing i with
  | nil => simp
  | cons d l ih =>
    rw [List.forall_mem_cons] at hl
    rw [Nat.ofDigits_cons, Nat.add_comm, Nat.testBit_two_pow_mul_add _ hl.1]
    by_cases hi : i < 32
    · rw [if_pos hi, Nat.div_eq_of_lt hi, Nat.mod_eq_of_lt hi]
      rfl
    · rw [if_neg hi, ih hl.2, show i / 32 = (i - 32) / 32 + 1 by omega,
        show i % 32 = (i - 32) % 32 by omega]
      rfl

theorem testBit_getD (i : ℕ) (a : List (BitVec 32)) :
    testBit i a = some true ↔ (a.getD (i / 32) 0).getLsbD (i % 32) = true := by
  have hi : i % 32 < 32 := Nat.mod_lt i (by decide)
  unfold testBit bitsPerInt
  rw [List.getD_eq_getElem?_getD]
  cases a[i / 32]? with
  | none => simp
  | some word =>
    rw [Option.map_some, Option.some_inj, Option.getD_some, bne_iff_ne,
      show (1 : BitVec 32) <<< (i % 32) = BitVec.twoPow 32 (i % 32) from (BitVec.twoPow_eq 32 _).symm,
      BitVec.and_twoPow]
    cases hbit : word.getLsbD (i % 32) with
    | false => simp
    | true =>
      have hne : BitVec.twoPow 32 (i % 32) ≠ 0 := by
        intro h
        have := congrArg (·.getLsbD (i % 32)) h
        simp [hi] at this
      simpa using hne

namespace CpuMap

variable (m : CpuMap)

theorem digits_short : ∀ d ∈ m.groups.reverse.map (hexNumber 0), d < 2 ^ 32 := by
  intro d hd
  obtain ⟨g, hg, rfl⟩ := List.mem_map.mp hd
  exact m.short g (List.mem_reverse.mp hg)

theorem mem_cpus {i : ℕ} : i ∈ m.cpus ↔ m.number.testBit i = true := by
  rw [cpus, List.mem_filter, List.mem_range, and_iff_right_iff_imp]
  intro h
  by_contra hge
  have hlen : (m.groups.reverse.map (hexNumber 0)).length ≤ i / 32 := by
    rw [List.length_map, List.length_reverse]
    omega
  rw [number, testBit_ofDigits m.digits_short, List.getD_eq_default _ _ hlen, Nat.zero_testBit] at h
  cases h

theorem count_text : m.text.count ',' + 1 = m.groups.length := by
  have hend : ∀ c ∈ ([] : CStr).head?, c = ',' := by simp
  have hwords := congrArg List.length (wordsFrom_groups m.ne_nil m.digits m.short hend)
  rw [wordsFrom_length, List.count_reverse, List.length_reverse, List.length_map] at hwords
  exact hwords

/-- A map has a word for each group, and no more bytes than four for each character. -/
theorem mapBytes_bounds (h : m.text.length < 2 ^ 26) :
    mapBytes m.text < 2 ^ 28 ∧ 4 * m.groups.length ≤ mapBytes m.text := by
  obtain ⟨hle, hge⟩ := sum_runBytes m.ne_nil fun g hg => (m.digits g hg).1
  have hlen := cpumapLenFrom_text m.ne_nil (fun g hg => (m.digits g hg).2) 0
  rw [← cpumapLen_eq, cpumapLen, text, hlen]
  unfold text at h
  omega

/-- The words of a map are its digits, and NULs behind them. -/
theorem readCpuMap_words {c c' : Cache} (h : readCpuMap c m.text = some c') :
    ∃ k, c'.cpumap = (m.groups.reverse.map (hexNumber 0)).map (BitVec.ofNat 32) ++ List.replicate k 0 := by
  obtain ⟨buf, hbuf, rfl⟩ := Option.map_eq_some_iff.mp h
  rw [parseCpumap_eq] at hbuf
  split at hbuf
  · cases hbuf
    have hend : ∀ c ∈ ([] : CStr).head?, c = ',' := by simp
    have hwords := wordsFrom_groups m.ne_nil m.digits m.short hend
    refine ⟨cpumapLen m.text / 4 - (m.text.count ',' + 1), ?_⟩
    rw [List.drop_replicate, text, hwords, List.map_map, List.map_reverse]
    rfl
  · cases hbuf

/-- **Bit `i` is set when CPU `i` is in the map.** -/
theorem readCpuMap_testBit {c c' : Cache} (h : readCpuMap c m.text = some c') (i : ℕ) :
    testBit i c'.cpumap = some true ↔ m.number.testBit i = true := by
  obtain ⟨k, hk⟩ := m.readCpuMap_words h
  have hword : ((c'.cpumap.getD (i / 32) 0).getLsbD (i % 32)) =
      ((m.groups.reverse.map (hexNumber 0)).getD (i / 32) 0).testBit (i % 32) := by
    rw [hk, List.getD_eq_getElem?_getD, List.getElem?_append, List.length_map, List.getD_eq_getElem?_getD]
    split
    case isTrue hlt =>
      rw [List.getElem?_map]
      cases hd : (m.groups.reverse.map (hexNumber 0))[i / 32]? with
      | none => simp
      | some d =>
        rw [Option.map_some, Option.getD_some, Option.getD_some, BitVec.getLsbD_ofNat]
        simp [Nat.mod_lt]
    case isFalse hge =>
      rw [List.getElem?_eq_none (not_lt.mp hge), List.getElem?_replicate]
      split <;> simp
  rw [testBit_getD, hword, number, testBit_ofDigits m.digits_short]

end CpuMap

end Fms
