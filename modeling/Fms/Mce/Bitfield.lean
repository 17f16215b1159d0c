import Fms.Lib.CString

/-!
# Messages of the machine-check decoder

The message array that the decoders fill (`struct mc_msg`) and evt_modules/evtsrc/cpumem/bitfield.c,
which decodes fields of the status word with tables of texts. The tables are decoded twice, for the
mnemonics and for the descriptions, and the second pass alone counts the messages.

* `decodeBitfield`: one pass;
* `Field.shown`: the fields that make a message, in either pass;
* **`decodeBitfield_twice`**: if the two tables show the same fields, the two passes together make
  complete messages, at the end of the array.
-/

namespace Fms

open CString

/-- `MCE_MSG_MAXNUM` -/
def mceMsgMaxnum : ℕ := 64

/-- `struct mc_msg`; a zeroed message has no texts and an empty name. -/
structure McMsg where
  name : CStr := []
  id : BitVec 64 := 0
  mnemonic : Option CStr := none
  desc : Option CStr := none
  memCh : ℤ := 0
  clevel : ℤ := 0
  ctype : ℤ := 0
  flags : BitVec 64 := 0

/-- The array `mm` and the counter `mm_num`. -/
structure McMsgs where
  mm : ℕ → McMsg := fun _ => {}
  mmNum : ℕ := 0

/-- A write to `mm[i]`. -/
def McMsgs.write (st : McMsgs) (i : ℕ) (m : McMsg) : McMsgs :=
  { st with mm := Function.update st.mm i m }

/-- `MCI_STATUS_UC` -/
def mciStatusUc : BitVec 64 := 1#64 <<< 61

/-- `MCI_STATUS_MISCV` -/
def mciStatusMiscv : BitVec 64 := 1#64 <<< 59

/-- `MCI_STATUS_ADDRV` -/
def mciStatusAddrv : BitVec 64 := 1#64 <<< 58

/-- `FMS_MCI_STATUS_UC` -/
def fmsMciStatusUc (status : BitVec 64) : CStr :=
  if status &&& mciStatusUc ≠ 0 then "_uc".toList else "_ce".toList

/-- `EXTRACT` -/
def extract (v : BitVec 64) (a b : ℕ) : BitVec 64 := (v >>> a) &&& ((1#64 <<< (1 + (b - a))) - 1)

/-! ## Fields -/

/-- `struct field`: the first bit, the table of texts and its length. -/
structure Field where
  startBit : ℕ
  str : ℕ → Option CStr
  stringlen : ℕ

/-- A table with designated initializers. -/
def designated (l : List (ℕ × String)) (i : ℕ) : Option CStr := (l.lookup i).map String.toList

/-- `NELE` of a table with designated initializers. -/
def nele (l : List (ℕ × String)) : ℕ := (l.map Prod.fst).foldr max 0 + 1

/-- `FIELD` -/
def field (startBit : ℕ) (table : List (ℕ × String)) : Field := ⟨startBit, designated table, nele table⟩

/-- `SBITFIELD` -/
def sbitfield (startBit : ℕ) (string : String) : Field := ⟨startBit, designated [(1, string)], 2⟩

/-- The loop of `bitmask`; a 64-bit mask is full after 63 rounds. -/
def bitmaskLoop : ℕ → ℕ → ℕ → ℕ
  | 0, mask, _ => mask
  | rounds + 1, mask, i => if mask < i then bitmaskLoop rounds (mask <<< 1 ||| 1) i else mask

/-- `bitmask` -/
def bitmask (i : ℕ) : ℕ := bitmaskLoop 63 1 i

/-- The value `v` of a field in the status word. -/
def Field.value (f : Field) (status : BitVec 64) : ℕ :=
  (status >>> f.startBit).toNat &&& bitmask (f.stringlen - 1)

/-- The text `s` of a field, `none` if the loop goes on to the next field. -/
def Field.text (f : Field) (status : BitVec 64) (isMnemonic : Bool) : Option CStr :=
  let v := f.value status
  match if v < f.stringlen then f.str v else none with
  | some s => some s
  | none =>
    if v = 0 then none
    else if isMnemonic then some "unknown".toList
    else some ('<' :: fmtInt f.startBit ++ ':' :: fmtHex 0 v ++ ['>'])

/-- What the loop writes to a message. -/
def fieldMsg (status : BitVec 64) (buf type : CStr) (isMnemonic : Bool) (s : CStr) (m : McMsg) :
    McMsg :=
  if isMnemonic then
    { m with mnemonic := some (type ++ fmsMciStatusUc status), name := "cpu".toList }
  else { m with desc := some (buf ++ s) }

/-- The loop of `decode_bitfield`, with the messages and `mn`. -/
def bitfieldLoop (status : BitVec 64) (buf type : CStr) (isMnemonic : Bool) :
    List Field → (ℕ → McMsg) → ℕ → (ℕ → McMsg) × ℕ
  | [], mm, mn => (mm, mn)
  | f :: fields, mm, mn =>
    match f.text status isMnemonic with
    | none => bitfieldLoop status buf type isMnemonic fields mm mn
    | some s =>
      if mceMsgMaxnum ≤ mn then (mm, mn)
      else
        let mm := Function.update mm mn (fieldMsg status buf type isMnemonic s (mm mn))
        bitfieldLoop status buf type isMnemonic fields mm (mn + 1)

/-- `decode_bitfield`; a missing `buf` or `type` is empty. -/
def decodeBitfield (status : BitVec 64) (fields : List Field) (buf type : CStr) (isMnemonic : Bool)
    (st : McMsgs) : McMsgs :=
  let r := bitfieldLoop status buf type isMnemonic fields st.mm st.mmNum
  { mm := r.1, mmNum := if isMnemonic then st.mmNum else r.2 }

/-! ## Bits of the status word -/

theorem and_two_pow_sub_one_eq_zero_iff (x k : ℕ) :
    x &&& (2 ^ k - 1) = 0 ↔ ∀ i < k, x.testBit i = false := by
  rw [Nat.and_two_pow_sub_one_eq_mod]
  constructor
  · intro h i hi
    have hbit := Nat.testBit_mod_two_pow x k i
    rw [h, Nat.zero_testBit, decide_eq_true hi, Bool.true_and] at hbit
    exact hbit.symm
  · intro h
    refine Nat.eq_of_testBit_eq fun i => ?_
    rw [Nat.testBit_mod_two_pow, Nat.zero_testBit]
    by_cases hi : i < k
    · rw [h i hi, Bool.and_false]
    · rw [decide_eq_false hi, Bool.false_and]

theorem extract_eq_zero_iff (v : BitVec 64) {a b : ℕ} (h : 1 + (b - a) < 64) :
    extract v a b = 0 ↔ ∀ i < 1 + (b - a), v.getLsbD (a + i) = false := by
  have hmask : ((1#64 <<< (1 + (b - a))) - 1#64).toNat = 2 ^ (1 + (b - a)) - 1 := by
    have hlt : 2 ^ (1 + (b - a)) < 2 ^ 64 := Nat.pow_lt_pow_right (by omega) h
    have hpos : 0 < 2 ^ (1 + (b - a)) := Nat.two_pow_pos _
    rw [BitVec.toNat_sub, BitVec.toNat_shiftLeft]
    simp only [BitVec.toNat_ofNat, Nat.shiftLeft_eq]
    generalize 2 ^ (1 + (b - a)) = p at *
    omega
  have hzero : extract v a b = 0 ↔ (v >>> a).toNat &&& (2 ^ (1 + (b - a)) - 1) = 0 := by
    rw [extract, ← BitVec.toNat_inj, BitVec.toNat_and]
    change _ &&& ((1#64 <<< (1 + (b - a))) - 1#64).toNat = 0 ↔ _
    rw [hmask]
  rw [hzero, and_two_pow_sub_one_eq_zero_iff]
  simp only [BitVec.testBit_toNat, BitVec.getLsbD_ushiftRight]

theorem Field.value_eq_zero_iff {f : Field} {k : ℕ} (status : BitVec 64)
    (hmask : bitmask (f.stringlen - 1) = 2 ^ k - 1) :
    f.value status = 0 ↔ ∀ i < k, status.getLsbD (f.startBit + i) = false := by
  rw [Field.value, hmask, and_two_pow_sub_one_eq_zero_iff]
  simp only [BitVec.testBit_toNat, BitVec.getLsbD_ushiftRight]

/-! ## One pass -/

/-- The field makes a message. -/
def Field.shown (status : BitVec 64) (f : Field) : Bool := (f.text status true).isSome

theorem Field.text_isSome (f : Field) (status : BitVec 64) (isMnemonic : Bool) :
    (f.text status isMnemonic).isSome = f.shown status := by
  unfold Field.shown Field.text
  simp only
  split
  · rfl
  · split_ifs <;> rfl

/-- A field is shown unless its value is zero and the table has no text for it. -/
theorem Field.shown_iff {f : Field} (status : BitVec 64) (hlen : 0 < f.stringlen) :
    f.shown status = true ↔ f.value status ≠ 0 ∨ f.str 0 ≠ none := by
  unfold Field.shown Field.text
  simp only
  by_cases hv : f.value status = 0
  · simp only [hv, if_pos hlen]
    cases f.str 0 <;> simp
  · split
    · simp [hv]
    · simp [hv]

theorem Field.shown_eq_false_iff {f : Field} {k : ℕ} (status : BitVec 64) (hlen : 0 < f.stringlen)
    (hmask : bitmask (f.stringlen - 1) = 2 ^ k - 1) (hnone : f.str 0 = none) :
    f.shown status = false ↔ ∀ i < k, status.getLsbD (f.startBit + i) = false := by
  rw [← Field.value_eq_zero_iff status hmask, ← Bool.not_eq_true, Field.shown_iff status hlen]
  simp [hnone]

theorem field_stringlen_pos (startBit : ℕ) (table : List (ℕ × String)) :
    0 < (field startBit table).stringlen := Nat.succ_pos _

theorem sbitfield_shown (status : BitVec 64) (startBit : ℕ) (string : String) :
    (sbitfield startBit string).shown status = false ↔ status.getLsbD startBit = false := by
  rw [Field.shown_eq_false_iff (k := 1) status (Nat.succ_pos _) rfl rfl]
  simp [sbitfield]

/-- What decides whether a field is shown: its place in the word and whether zero has a text. -/
def Field.shape (f : Field) : ℕ × ℕ × Bool := (f.startBit, f.stringlen, (f.str 0).isNone)

theorem countP_shown_congr {fields fields' : List Field} (status : BitVec 64)
    (hshape : fields.map Field.shape = fields'.map Field.shape)
    (hlen : ∀ f ∈ fields, 0 < f.stringlen) :
    fields.countP (Field.shown status) = fields'.countP (Field.shown status) := by
  induction fields generalizing fields' with
  | nil => rw [List.map_eq_nil_iff.mp hshape.symm]
  | cons f fields ih =>
    cases fields' with
    | nil => cases hshape
    | cons f' fields' =>
      rw [List.map_cons, List.map_cons, List.cons.injEq] at hshape
      obtain ⟨hf, htail⟩ := hshape
      simp only [Field.shape, Prod.mk.injEq] at hf
      obtain ⟨hbit, hsize, hnone⟩ := hf
      have hpos := hlen f List.mem_cons_self
      have hvalue : f.value status = f'.value status := by
        rw [Field.value, Field.value, hbit, hsize]
      have hstr : f.str 0 ≠ none ↔ f'.str 0 ≠ none := by
        rw [Ne, Ne, ← Option.isNone_iff_eq_none, ← Option.isNone_iff_eq_none, hnone]
      have hshown : f.shown status = f'.shown status := by
        rw [Bool.eq_iff_iff, Field.shown_iff status hpos, Field.shown_iff status (hsize ▸ hpos),
          hvalue, hstr]
      rw [List.countP_cons, List.countP_cons, hshown,
        ih htail fun x hx => hlen x (List.mem_cons_of_mem _ hx)]

/-- The messages of a pass: one for each field shown, from `mn` on. -/
theorem bitfieldLoop_spec (status : BitVec 64) (buf type : CStr) (isMnemonic : Bool)
    (fields : List Field) (mm : ℕ → McMsg) (mn : ℕ) (hroom : mn + fields.length ≤ mceMsgMaxnum) :
    (bitfieldLoop status buf type isMnemonic fields mm mn).2 =
        mn + fields.countP (Field.shown status) ∧
      ∀ i, if mn ≤ i ∧ i < mn + fields.countP (Field.shown status) then
          ∃ s, (bitfieldLoop status buf type isMnemonic fields mm mn).1 i =
            fieldMsg status buf type isMnemonic s (mm i)
        else (bitfieldLoop status buf type isMnemonic fields mm mn).1 i = mm i := by
  induction fields generalizing mm mn with
  | nil =>
    refine ⟨rfl, fun i => ?_⟩
    rw [if_neg (by simp)]
    rfl
  | cons f fields ih =>
    rw [List.length_cons] at hroom
    have hshown := f.text_isSome status isMnemonic
    unfold bitfieldLoop
    cases ht : f.text status isMnemonic with
    | none =>
      rw [ht] at hshown
      rw [List.countP_cons_of_neg (by rw [← hshown]; exact Bool.false_ne_true)]
      exact ih mm mn (by omega)
    | some s =>
      rw [ht] at hshown
      rw [List.countP_cons_of_pos hshown.symm]
      simp only [if_neg (show ¬ mceMsgMaxnum ≤ mn by omega)]
      obtain ⟨hnum, hmm⟩ := ih
        (Function.update mm mn (fieldMsg status buf type isMnemonic s (mm mn))) (mn + 1) (by omega)
      refine ⟨by rw [hnum]; omega, fun i => ?_⟩
      have hi := hmm i
      rcases lt_trichotomy i mn with hlt | rfl | hgt
      · rw [if_neg (by omega), Function.update_of_ne hlt.ne] at hi
        rw [if_neg (by omega)]
        exact hi
      · rw [if_neg (by omega), Function.update_self] at hi
        rw [if_pos (by omega)]
        exact ⟨s, hi⟩
      · rw [Function.update_of_ne hgt.ne'] at hi
        by_cases hk : i < mn + (fields.countP (Field.shown status) + 1)
        · rw [if_pos (by omega)] at hi
          rw [if_pos (by omega)]
          exact hi
        · rw [if_neg (by omega)] at hi
          rw [if_neg (by omega)]
          exact hi

/-! ## Two passes -/

/-- What is behind the counted messages is zero. -/
def McMsgs.Zeroed (st : McMsgs) : Prop := ∀ i, st.mmNum ≤ i → st.mm i = {}

/-- `n` messages were added to the array, and what is behind them is zero. -/
structure MsgsAdded (st st' : McMsgs) (n : ℕ) : Prop where
  num : st'.mmNum = st.mmNum + n
  old : ∀ i < st.mmNum, st'.mm i = st.mm i
  zeroed : st'.Zeroed

/-- **Two passes over tables that show the same fields** make complete messages. -/
theorem decodeBitfield_twice {status : BitVec 64} {fields fields' : List Field}
    (buf type : CStr) {st : McMsgs} (hz : st.Zeroed) {n : ℕ}
    (hn : fields.countP (Field.shown status) = n) (hn' : fields'.countP (Field.shown status) = n)
    (hroom : st.mmNum + fields.length ≤ mceMsgMaxnum)
    (hroom' : st.mmNum + fields'.length ≤ mceMsgMaxnum) :
    let st' := decodeBitfield status fields' buf [] false
      (decodeBitfield status fields buf type true st)
    MsgsAdded st st' n ∧ ∀ i, st.mmNum ≤ i → i < st'.mmNum → ∃ s, st'.mm i =
      { name := "cpu".toList, mnemonic := some (type ++ fmsMciStatusUc status), desc := some s } := by
  obtain ⟨-, hmm⟩ := bitfieldLoop_spec status buf type true fields st.mm st.mmNum hroom
  obtain ⟨hnum, hmm'⟩ := bitfieldLoop_spec status buf [] false fields'
    (bitfieldLoop status buf type true fields st.mm st.mmNum).1 st.mmNum hroom'
  rw [hn] at hmm
  rw [hn'] at hnum hmm'
  have hout {i : ℕ} (hi : ¬ (st.mmNum ≤ i ∧ i < st.mmNum + n)) :
      (decodeBitfield status fields' buf [] false
        (decodeBitfield status fields buf type true st)).mm i = st.mm i := by
    have h := hmm i
    have h' := hmm' i
    rw [if_neg hi] at h h'
    exact h'.trans h
  refine ⟨⟨hnum, fun i hi => hout (by omega), fun i hi => ?_⟩, fun i hi hi' => ?_⟩
  · have hi' : st.mmNum + n ≤ i := hnum ▸ hi
    rw [hout (by omega), hz i (by omega)]
  · have hin : st.mmNum ≤ i ∧ i < st.mmNum + n := ⟨hi, hnum ▸ hi'⟩
    have h := hmm i
    have h' := hmm' i
    rw [if_pos hin] at h h'
    obtain ⟨s, hs⟩ := h
    obtain ⟨s', hs'⟩ := h'
    refine ⟨buf ++ s', hs'.trans ?_⟩
    rw [hs, hz i hi]
    rfl

end Fms
