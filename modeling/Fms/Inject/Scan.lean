import Fms.Lib.CString
import Fms.Lib.Lex

/-!
# The scanner of the injection scripts

tools/fmsinject: `fminject.l` has the rules, lex.yy.c the tables that flex made of them and the loop
over the tables. The file is in the buffer as a whole; what the actions print is left out.

* `yyNext`, `yyMatch`, `yylex`: the tables, the loop and the actions;
* `ScanRule`, `ScanRule.rx`: the rules of fminject.l;
* `Scans`: a text cut at the longest matches of the rules, the first of them where there are several;
* **`scanTokens_scans`**: the tables do what the rules say.
-/

namespace Fms

open CString Lex

/-! ## The tables -/

/-- `yy_accept` -/
def yyAccept (q : ℕ) : ℕ :=
  [0, 0, 0, 8, 6, 1, 7, 5, 6, 6, 6, 1, 0, 2, 0, 0, 0, 0, 2, 4, 0, 2, 0, 0, 0, 0, 0, 3, 0].getD q 0

/-- `yy_ec`; all bytes from 128 on are of the class 1. -/
def yyEc (n : ℕ) : ℕ :=
  [0, 1, 1, 1, 1, 1, 1, 1, 1, 2, 3, 1, 1, 1, 1, 1, 1, 1, 1, 1, 1, 1, 1, 1, 1, 1, 1, 1, 1, 1, 1, 1,
    2, 1, 1, 1, 1, 1, 1, 1, 1, 1, 4, 1, 5, 6, 7, 8, 9, 9, 9, 9, 9, 9, 9, 9, 9, 9, 1, 1, 1, 10, 1, 1,
    1, 6, 6, 6, 6, 6, 6, 6, 6, 6, 6, 6, 6, 6, 11, 6, 6, 6, 6, 6, 6, 6, 6, 6, 6, 6, 6, 1, 1, 1, 1, 6,
    1, 6, 6, 6, 6, 12, 6, 6, 6, 6, 6, 6, 6, 6, 6, 13, 14, 6, 15, 6, 16, 6, 6, 6, 6, 6, 6, 1, 1, 1, 1, 1].getD n 1

/-- `yy_meta` -/
def yyMeta (c : ℕ) : ℕ := [0, 1, 1, 2, 1, 1, 3, 1, 4, 3, 1, 3, 3, 3, 3, 3, 3].getD c 0

/-- `yy_base` -/
def yyBase (q : ℕ) : ℕ :=
  [0, 0, 10, 44, 45, 41, 45, 45, 2, 32, 26, 38, 35, 0, 29, 25, 32, 12, 0, 26, 20, 45, 18, 4, 1, 2, 0, 0, 45,
    22, 26, 29, 1].getD q 0

/-- `yy_def` -/
def yyDef (q : ℕ) : ℕ :=
  [0, 29, 29, 28, 28, 28, 28, 28, 28, 28, 28, 28, 30, 31, 28, 28, 30, 30, 31, 28, 28, 28, 28, 28, 28, 28, 32, 32, 0,
    28, 28, 28, 28].getD q 0

/-- `yy_nxt` -/
def yyNxt (i : ℕ) : ℕ :=
  [0, 28, 5, 6, 27, 7, 12, 26, 8, 26, 13, 9, 5, 6, 28, 7, 17, 25, 8, 24, 21, 9, 10, 4, 4, 4, 4, 16, 16, 16, 18,
    23, 18, 18, 22, 19, 17, 20, 19, 17, 11, 15, 14, 11, 28, 3, 28, 28, 28, 28, 28, 28, 28, 28, 28, 28, 28, 28, 28,
    28, 28, 28].getD i 0

/-- `yy_chk` -/
def yyChk (i : ℕ) : ℕ :=
  [0, 0, 1, 1, 32, 1, 8, 27, 1, 25, 8, 1, 2, 2, 0, 2, 17, 24, 2, 23, 17, 2, 2, 29, 29, 29, 29, 30, 30, 30, 31,
    22, 31, 31, 20, 19, 16, 15, 14, 12, 11, 10, 9, 5, 3, 28, 28, 28, 28, 28, 28, 28, 28, 28, 28, 28, 28, 28, 28,
    28, 28, 28].getD i 0

/-! ## The scanner -/

/-- `yy_ec[YY_SC_TO_UI(*yy_cp)]`; the class 0 is that of the end of the buffer, and a NUL of the file
goes with the class 1 (`yy_try_NUL_trans`). -/
def yyClass (c : Char) : ℕ := if c = '\x00' then 1 else yyEc c.toNat

/-- The loop over `yy_def`, for `n` rounds at most, and the entry of `yy_nxt`. -/
def yyChase : ℕ → ℕ → ℕ → ℕ
  | 0, _, _ => 0
  | n + 1, q, c =>
    if yyChk (yyBase q + c) = q then yyNxt (yyBase q + c)
    else yyChase n (yyDef q) (if 29 ≤ yyDef q then yyMeta c else c)

/-- The next state; `yy_def` is shorter than 33 steps. -/
def yyNext (q c : ℕ) : ℕ := yyChase 33 q c

/-- `yy_match` and `yy_find_action`, from a state and what was last accepted: the action, and the text
behind `yytext`. At the end of the buffer the scanner goes on from the state before it. -/
def yyMatch (q : ℕ) (last : Option (ℕ × CStr)) : CStr → Option (ℕ × CStr)
  | [] => if yyAccept q ≠ 0 then some (yyAccept q, []) else last
  | c :: s =>
    let last := if yyAccept q ≠ 0 then some (yyAccept q, c :: s) else last
    let q' := yyNext q (yyClass c)
    if yyBase q' = 45 then
      if yyAccept q' ≠ 0 then some (yyAccept q', s) else last
    else yyMatch q' last s

/-- What `yylex` returns, with its `yylval`. -/
inductive Token where
  | comma
  | count (intval : ℤ)
  | eclass (strval : CStr)
  deriving DecidableEq

/-- `repval` -/
def repval (str : CStr) : ℤ := atoiWrap (((strchr '=' str).getD []).drop 1)

/-- The actions that return. -/
def yyAction (act : ℕ) (yytext : CStr) : Option Token :=
  match act with
  | 3 => some (.eclass yytext)
  | 4 => some (.count (repval yytext))
  | 5 => some .comma
  | _ => none

/-- `yy_start` and `YY_AT_BOL` -/
def yyStart (atBol : Bool) : ℕ := if atBol then 2 else 1

/-- `yylex`, with `yy_at_bol` and what there is of the file; `none` is the end of it. -/
def yylex : ℕ → Bool → CStr → Option Token × Bool × CStr
  | 0, atBol, s => (none, atBol, s)
  | _ + 1, atBol, [] => (none, atBol, [])
  | n + 1, atBol, c :: s =>
    match yyMatch (yyStart atBol) none (c :: s) with
    | none => (none, atBol, [])
    | some (act, rest) =>
      let yytext := (c :: s).take ((c :: s).length - rest.length)
      let atBol := decide (yytext.getLast? = some '\n')
      match yyAction act yytext with
      | some t => (some t, atBol, rest)
      | none => yylex n atBol rest

/-- The calls of `yylex` up to the end of the file. -/
def lexAll : ℕ → Bool → CStr → List Token
  | 0, _, _ => []
  | n + 1, atBol, s =>
    match yylex (s.length + 1) atBol s with
    | (none, _, _) => []
    | (some t, atBol, rest) => t :: lexAll n atBol rest

/-- The tokens of a file. -/
def scanTokens (s : CStr) : List Token := lexAll (s.length + 1) true s

/-! ## The rules -/

/-- The classes of characters in the rules. -/
inductive CharClass where
  | blank | notNewline | notSlash | name | digit | all
  | slash | star | comma | dot | equals | capitalN | e | r | p | o | t
  deriving DecidableEq

/-- The characters of a class. -/
def CharClass.has : CharClass → Char → Bool
  | .blank, c => c = ' ' || c = '\t'
  | .notNewline, c => c ≠ '\n'
  | .notSlash, c => c ≠ '/'
  | .name, c => c.isAlpha || c.isDigit || c = '-' || c = '_'
  | .digit, c => c.isDigit
  | .all, _ => true
  | .slash, c => c = '/'
  | .star, c => c = '*'
  | .comma, c => c = ','
  | .dot, c => c = '.'
  | .equals, c => c = '='
  | .capitalN, c => c = 'N'
  | .e, c => c = 'e'
  | .r, c => c = 'r'
  | .p, c => c = 'p'
  | .o, c => c = 'o'
  | .t, c => c = 't'

/-- The rules of fminject.l, and that of flex for a character that none of them takes. -/
inductive ScanRule where
  | ws | comment | evtclass | repetition | comma | other | echo
  deriving DecidableEq

/-- Classes one after the other, and something behind them. -/
def inRow (ks : List CharClass) (r : Rx CharClass) : Rx CharClass := ks.foldr (fun k r => .seq (.cls k) r) r

/-- The expression of a rule; `evtclass` is for the beginning of a line. -/
def ScanRule.rx : ScanRule → Rx CharClass
  | .ws => .plus (.cls .blank)
  | .comment => .alt (inRow [.slash, .slash] (.star (.cls .notNewline)))
      (inRow [.slash, .star] (.seq (.star (.cls .notSlash)) (inRow [.star] (.cls .slash))))
  | .evtclass => inRow [.e, .r, .e, .p, .o, .r, .t] (.plus (inRow [.dot] (.plus (.cls .name))))
  | .repetition => inRow [.capitalN, .equals] (.plus (.cls .digit))
  | .comma => .cls .comma
  | .other => .cls .notNewline
  | .echo => .cls .all

/-- The rules that are tried, in their order. -/
def scanRules (atBol : Bool) : List ScanRule :=
  [.ws, .comment] ++ (if atBol then [.evtclass] else []) ++ [.repetition, .comma, .other, .echo]

/-- The number of a rule. -/
def ScanRule.act : ScanRule → ℕ
  | .ws => 1
  | .comment => 2
  | .evtclass => 3
  | .repetition => 4
  | .comma => 5
  | .other => 6
  | .echo => 7

/-- The texts of a rule. -/
def ScanRule.lang (i : ScanRule) : Language Char := i.rx.lang CharClass.has

/-- `i` is the first rule for a text. -/
def Takes (atBol : Bool) (i : ScanRule) (w : CStr) : Prop :=
  i ∈ scanRules atBol ∧ w ∈ i.lang ∧ ∀ j ∈ scanRules atBol, j.act < i.act → w ∉ j.lang

/-- `w` is the longest match in front of `s`, and `i` is its rule. -/
structure Picks (atBol : Bool) (w s : CStr) (i : ScanRule) : Prop where
  takes : Takes atBol i w
  longest : ∀ v, v ≠ [] → v <+: s → ∀ j ∈ scanRules atBol, w ++ v ∉ j.lang

/-- A text is cut at its longest match, and so on behind it. -/
inductive Scans : Bool → CStr → List (ScanRule × CStr) → Prop
  | nil (atBol : Bool) : Scans atBol [] []
  | cons {atBol : Bool} {w s : CStr} {i : ScanRule} {ts : List (ScanRule × CStr)} (hp : Picks atBol w s i)
      (hrest : Scans (decide (w.getLast? = some '\n')) s ts) : Scans atBol (w ++ s) ((i, w) :: ts)

/-- What the parser gets of a match. -/
def ScanRule.token (p : ScanRule × CStr) : Option Token := yyAction p.1.act p.2

/-! ## The tables are right -/

/-- A character of each class of `yy_ec`. -/
def classChar (k : ℕ) : Char :=
  ['\x00', '\x01', ' ', '\n', '*', ',', 'a', '.', '/', '0', '=', 'N', 'e', 'o', 'p', 'r', 't'].getD k 'a'

/-- All of them. -/
def charClasses : List CharClass :=
  [.blank, .notNewline, .notSlash, .name, .digit, .all, .slash, .star, .comma, .dot, .equals, .capitalN, .e, .r, .p,
    .o, .t]

theorem mem_charClasses (k : CharClass) : k ∈ charClasses := by
  cases k <;> decide

theorem has_ascii : ∀ n < 128, ∀ k ∈ charClasses,
    k.has (Char.ofNat n) = k.has (classChar (yyClass (Char.ofNat n))) := by
  decide +kernel

theorem yyClass_of_le {c : Char} (hc : 128 ≤ c.toNat) : yyClass c = 1 := by
  rw [yyClass, if_neg (fun h => by rw [h] at hc; exact absurd hc (by decide)), yyEc, List.getD_eq_default]
  exact hc

theorem has_classChar (k : CharClass) (c : Char) : k.has c = k.has (classChar (yyClass c)) := by
  by_cases hc : c.toNat < 128
  · have h := has_ascii c.toNat hc k (mem_charClasses k)
    rwa [Char.ofNat_toNat] at h
  · rw [not_lt] at hc
    have hne {d : Char} (hd : d.toNat < 128) : decide (c = d) = false := by
      refine decide_eq_false ?_
      rintro rfl
      omega
    have habove {d : Char} (hd : d.toNat < 128) : decide (c.val ≤ d.val) = false := by
      refine decide_eq_false fun h => ?_
      have : c.toNat ≤ d.toNat := UInt32.le_iff_toNat_le.mp h
      omega
    have hdigit : c.isDigit = false := by rw [Char.isDigit, habove (by decide), Bool.and_false]
    have hlower : c.isLower = false := by rw [Char.isLower, habove (by decide), Bool.and_false]
    have hupper : c.isUpper = false := by rw [Char.isUpper, Bool.decide_and, habove (by decide), Bool.and_false]
    rw [yyClass_of_le hc]
    cases k with
    | all => rfl
    | digit => exact hdigit
    | name =>
      rw [CharClass.has, Char.isAlpha, hupper, hlower, hdigit, hne (by decide), hne (by decide)]
      rfl
    | blank =>
      rw [CharClass.has, hne (by decide), hne (by decide)]
      rfl
    | notNewline | notSlash =>
      rw [CharClass.has, decide_not, hne (by decide)]
      rfl
    | slash | star | comma | dot | equals | capitalN | e | r | p | o | t => exact hne (by decide)

theorem class_ascii : ∀ n < 128, yyClass (Char.ofNat n) ∈ List.range' 1 16 := by
  decide +kernel

theorem yyClass_mem (c : Char) : yyClass c ∈ List.range' 1 16 := by
  by_cases hc : c.toNat < 128
  · have h := class_ascii c.toNat hc
    rwa [Char.ofNat_toNat] at h
  · rw [yyClass_of_le (not_lt.mp hc)]
    decide

/-- A text that leads to each state, from the start of a line or not. -/
def accessText (q : ℕ) : Bool × CStr :=
  ([(false, ""), (false, ""), (true, ""), (false, ""), (false, "="), (false, " "), (false, "\n"), (false, ","), (false, "/"),
    (false, "N"), (true, "e"), (false, "  "), (false, "/*"), (false, "//"), (false, "N="), (true, "er"), (false, "/* "),
    (false, "/**"), (false, "// "), (false, "N=0"), (true, "ere"), (false, "/**/"), (true, "erep"), (true, "erepo"),
    (true, "erepor"), (true, "ereport"), (true, "ereport."), (true, "ereport.a")].map fun p => (p.1, p.2.toList)).getD q (false, [])

/-- What is left of the rules in a state. -/
def itemsAt (q : ℕ) : List (ScanRule × Rx CharClass) :=
  (accessText q).2.foldl (fun items c => after CharClass.has c items) ((scanRules (accessText q).1).map fun i => (i, i.rx))

/-- The states of the table, but for that behind the end of the buffer and the jam. -/
def scanStates : List ℕ := (List.range 28).filter fun q => q ≠ 0 ∧ q ≠ 3

/-- The next state for a class, if it is not the jam. -/
def yyStep (q k : ℕ) : Option ℕ := if yyNext q k = 28 then none else some (yyNext q k)

theorem table_jam : ∀ q ∈ scanStates, ∀ k ∈ List.range' 1 16, yyStep q k = none →
    after CharClass.has (classChar k) (itemsAt q) = [] := by
  decide +kernel

theorem table_go : ∀ q ∈ scanStates, ∀ k ∈ List.range' 1 16, ∀ q' ∈ yyStep q k, q' ∈ scanStates ∧
    after CharClass.has (classChar k) (itemsAt q) ⊆ itemsAt q' ∧
      itemsAt q' ⊆ after CharClass.has (classChar k) (itemsAt q) := by
  decide +kernel

theorem after_classChar (c : Char) (items : List (ScanRule × Rx CharClass)) :
    after CharClass.has c items = after CharClass.has (classChar (yyClass c)) items :=
  after_congr (fun k => has_classChar k c) items

/-- The table stands for what is left of the rules. -/
theorem scanTable : Table (fun q c => yyStep q (yyClass c)) CharClass.has (· ∈ scanStates) itemsAt where
  jam := by
    intro q c hq hst
    rw [after_classChar]
    exact table_jam q hq _ (yyClass_mem c) hst
  go := by
    intro q c q' hq hst
    obtain ⟨hq', hsub, hsup⟩ := table_go q hq _ (yyClass_mem c) q' hst
    rw [after_classChar]
    exact ⟨hq', fun p => ⟨fun hp => hsub hp, fun hp => hsup hp⟩⟩

/-- The rule that a state accepts. -/
def yyRule (q : ℕ) : Option ScanRule := (scanRules true).find? fun i => i.act = yyAccept q

/-- A rule of which nothing has to follow. -/
def LiveRule (q : ℕ) (i : ScanRule) : Prop := ∃ p ∈ itemsAt q, p.1 = i ∧ p.2.nullable = true

instance (q : ℕ) (i : ScanRule) : Decidable (LiveRule q i) := by unfold LiveRule; infer_instance

theorem yyRule_some : ∀ q ∈ scanStates, ∀ i ∈ scanRules true,
    yyRule q = some i ↔ LiveRule q i ∧ ∀ j ∈ scanRules true, j.act < i.act → ¬ LiveRule q j := by
  decide +kernel

theorem yyRule_none : ∀ q ∈ scanStates, yyRule q = none → ∀ j ∈ scanRules true, ¬ LiveRule q j := by
  decide +kernel

theorem yyAccept_of_rule : ∀ q ∈ scanStates, yyAccept q = ((yyRule q).map ScanRule.act).getD 0 := by
  decide +kernel

theorem act_inj {i j : ScanRule} (h : i.act = j.act) : i = j := by
  cases i <;> cases j <;> first | rfl | exact absurd h (by decide)

theorem scanRules_mem (i : ScanRule) : i ∈ scanRules true := by
  cases i <;> decide

theorem act_ne_zero (i : ScanRule) : i.act ≠ 0 := by
  cases i <;> decide

theorem start_items (atBol : Bool) : yyStart atBol ∈ scanStates ∧
    ∀ i r, (i, r) ∈ itemsAt (yyStart atBol) ↔ i ∈ scanRules atBol ∧ r = i.rx := by
  have hitems : itemsAt (yyStart atBol) = (scanRules atBol).map fun i => (i, i.rx) := by
    cases atBol <;> rfl
  refine ⟨by cases atBol <;> decide, fun i r => ?_⟩
  rw [hitems, List.mem_map]
  constructor
  · rintro ⟨j, hj, h⟩
    obtain ⟨rfl, rfl⟩ := Prod.mk.inj h
    exact ⟨hj, rfl⟩
  · rintro ⟨hi, rfl⟩
    exact ⟨i, hi, rfl⟩

/-- The rule of the table for a text. -/
def tableRule (atBol : Bool) (w : CStr) : Option ScanRule :=
  labelOf (fun q c => yyStep q (yyClass c)) yyRule (yyStart atBol) w

theorem run_mem {q q' : ℕ} {w : CStr} (hq : q ∈ scanStates) (h : run (fun q c => yyStep q (yyClass c)) q w = some q') :
    q' ∈ scanStates := by
  induction w generalizing q with
  | nil => exact Option.some.inj h ▸ hq
  | cons c w ih =>
    obtain ⟨q₁, hst, h⟩ := Option.bind_eq_some_iff.mp h
    exact ih (table_go q hq _ (yyClass_mem c) q₁ hst).1 h

theorem live_iff {atBol : Bool} {q' : ℕ} {w : CStr} {i : ScanRule}
    (h : run (fun q c => yyStep q (yyClass c)) (yyStart atBol) w = some q') :
    LiveRule q' i ↔ i ∈ scanRules atBol ∧ w ∈ i.lang := by
  obtain ⟨hstart, hitems⟩ := start_items atBol
  have hacc := scanTable.accepts_iff hstart i w
  simp only [h, Option.some.injEq, exists_eq_left', hitems] at hacc
  constructor
  · rintro ⟨⟨j, r⟩, hr, rfl, hnull⟩
    obtain ⟨r', ⟨hi, rfl⟩, hw⟩ := hacc.mp ⟨r, hr, hnull⟩
    exact ⟨hi, hw⟩
  · rintro ⟨hi, hw⟩
    obtain ⟨r, hr, hnull⟩ := hacc.mpr ⟨i.rx, ⟨hi, rfl⟩, hw⟩
    exact ⟨(i, r), hr, rfl, hnull⟩

theorem not_mem_lang_of_jam {atBol : Bool} {w : CStr} {i : ScanRule}
    (h : run (fun q c => yyStep q (yyClass c)) (yyStart atBol) w = none) (hi : i ∈ scanRules atBol) : w ∉ i.lang := by
  intro hw
  obtain ⟨hstart, hitems⟩ := start_items atBol
  obtain ⟨q', hq', -⟩ := (scanTable.accepts_iff hstart i w).mpr ⟨i.rx, (hitems i i.rx).mpr ⟨hi, rfl⟩, hw⟩
  rw [h] at hq'
  exact Option.some_ne_none q' hq'.symm

/-- **The table has the first rule for a text.** -/
theorem tableRule_some {atBol : Bool} {w : CStr} {i : ScanRule} : tableRule atBol w = some i ↔ Takes atBol i w := by
  rw [tableRule, labelOf]
  cases h : run (fun q c => yyStep q (yyClass c)) (yyStart atBol) w with
  | none =>
    refine iff_of_false (Option.some_ne_none i).symm ?_
    rintro ⟨hi, hw, -⟩
    exact not_mem_lang_of_jam h hi hw
  | some q' =>
    have hlive (j : ScanRule) := live_iff (i := j) h
    rw [Option.bind_some, yyRule_some q' (run_mem (start_items atBol).1 h) i (scanRules_mem i)]
    constructor
    · rintro ⟨hi, hfirst⟩
      obtain ⟨hmem, hw⟩ := (hlive i).mp hi
      exact ⟨hmem, hw, fun j hj hlt hw' => hfirst j (scanRules_mem j) hlt ((hlive j).mpr ⟨hj, hw'⟩)⟩
    · rintro ⟨hmem, hw, hfirst⟩
      refine ⟨(hlive i).mpr ⟨hmem, hw⟩, fun j _ hlt hj => ?_⟩
      obtain ⟨hj, hw'⟩ := (hlive j).mp hj
      exact hfirst j hj hlt hw'

theorem tableRule_none {atBol : Bool} {w : CStr} : tableRule atBol w = none ↔ ∀ j ∈ scanRules atBol, w ∉ j.lang := by
  rw [tableRule, labelOf]
  cases h : run (fun q c => yyStep q (yyClass c)) (yyStart atBol) w with
  | none =>
    exact iff_of_true rfl fun j hj => not_mem_lang_of_jam h hj
  | some q' =>
    have hq' := run_mem (start_items atBol).1 h
    rw [Option.bind_some]
    constructor
    · intro hnone j hj hw
      exact yyRule_none q' hq' hnone j (scanRules_mem j) ((live_iff h).mpr ⟨hj, hw⟩)
    · intro hno
      by_contra hne
      obtain ⟨i, hi⟩ := Option.ne_none_iff_exists'.mp hne
      obtain ⟨hlive, -⟩ := (yyRule_some q' hq' i (scanRules_mem i)).mp hi
      obtain ⟨hmem, hw⟩ := (live_iff h).mp hlive
      exact hno i hmem hw

/-! ## The loop -/

theorem states_base : ∀ q ∈ scanStates, yyBase q = 45 → yyRule q ≠ none ∧ ∀ k ∈ List.range' 1 16, yyStep q k = none := by
  decide +kernel

/-- What the rules have accepted, by the numbers of their actions. -/
def actedOf (p : ScanRule × CStr) : ℕ × CStr := (p.1.act, p.2)

theorem acted_elim {q : ℕ} (hq : q ∈ scanStates) (last : Option (ScanRule × CStr)) (s : CStr) :
    (if yyAccept q ≠ 0 then some (yyAccept q, s) else last.map actedOf) =
      ((yyRule q).elim last fun i => some (i, s)).map actedOf := by
  rw [yyAccept_of_rule q hq]
  cases yyRule q with
  | none => rfl
  | some i => exact if_pos (act_ne_zero i)

/-- **The loop finds the longest match.** -/
theorem yyMatch_eq {q : ℕ} (hq : q ∈ scanStates) (last : Option (ScanRule × CStr)) (s : CStr) :
    yyMatch q (last.map actedOf) s = (longest (fun q c => yyStep q (yyClass c)) yyRule q last s).map actedOf := by
  induction s generalizing q last with
  | nil => exact acted_elim hq last []
  | cons c s ih =>
    rw [yyMatch, longest, acted_elim hq last (c :: s)]
    by_cases hjam : yyNext q (yyClass c) = 28
    · have hst : yyStep q (yyClass c) = none := if_pos hjam
      rw [hst, hjam]
      rfl
    · have hst : yyStep q (yyClass c) = some (yyNext q (yyClass c)) := if_neg hjam
      have hq' := (table_go q hq _ (yyClass_mem c) _ hst).1
      rw [hst]
      simp only
      split_ifs with hbase hacc
      · obtain ⟨hrule, hend⟩ := states_base _ hq' hbase
        obtain ⟨i, hi⟩ := Option.ne_none_iff_exists'.mp hrule
        have hend' (d : Char) : yyStep (yyNext q (yyClass c)) (yyClass d) = none := hend _ (yyClass_mem d)
        rw [longest_of_end hi hend', yyAccept_of_rule _ hq', hi]
        rfl
      · refine absurd ?_ (states_base _ hq' hbase).1
        rw [not_not, yyAccept_of_rule _ hq'] at hacc
        cases hi : yyRule (yyNext q (yyClass c)) with
        | none => rfl
        | some i =>
          rw [hi] at hacc
          exact absurd hacc (act_ne_zero i)
      · exact ih hq' _

theorem picks_iff {atBol : Bool} {w s : CStr} {i : ScanRule} :
    Picks atBol w s i ↔ IsLongest (fun q c => yyStep q (yyClass c)) yyRule (yyStart atBol) w s i := by
  constructor
  · intro h
    exact ⟨tableRule_some.mpr h.takes, fun v hne hv => tableRule_none.mpr (h.longest v hne hv)⟩
  · intro h
    exact ⟨tableRule_some.mp h.rule, fun v hne hv => tableRule_none.mp (h.last v hne hv)⟩

theorem yyMatch_eq_some {atBol : Bool} {s rest : CStr} {act : ℕ} :
    yyMatch (yyStart atBol) none s = some (act, rest) ↔ ∃ w i, w ++ rest = s ∧ i.act = act ∧ Picks atBol w rest i := by
  have heq := yyMatch_eq (start_items atBol).1 none s
  rw [Option.map_none] at heq
  rw [heq, Option.map_eq_some_iff]
  constructor
  · rintro ⟨⟨i, rest'⟩, h, hact⟩
    obtain ⟨rfl, rfl⟩ := Prod.mk.inj hact
    obtain ⟨w, hw, hlong⟩ := longest_eq_some.mp h
    exact ⟨w, i, hw, rfl, picks_iff.mpr hlong⟩
  · rintro ⟨w, i, hw, rfl, hp⟩
    exact ⟨(i, rest), longest_eq_some.mpr ⟨w, hw, picks_iff.mp hp⟩, rfl⟩

theorem nil_not_mem_lang (i : ScanRule) : [] ∉ i.lang := by
  rw [ScanRule.lang, nil_mem_lang]
  cases i <;> exact Bool.false_ne_true

theorem Picks.ne_nil {atBol : Bool} {w s : CStr} {i : ScanRule} (h : Picks atBol w s i) : w ≠ [] := by
  rintro rfl
  exact nil_not_mem_lang i h.takes.2.1

theorem exists_picks (atBol : Bool) (c : Char) (s : CStr) : ∃ w rest i, w ++ rest = c :: s ∧ Picks atBol w rest i := by
  have hecho : [c] ∈ ScanRule.echo.lang := ⟨c, rfl, rfl⟩
  have hmem : ScanRule.echo ∈ scanRules atBol := by cases atBol <;> decide
  have hsome : ∃ v, v <+: c :: s ∧ labelOf (fun q c => yyStep q (yyClass c)) yyRule (yyStart atBol) v ≠ none :=
    ⟨[c], List.cons_prefix_cons.mpr ⟨rfl, List.nil_prefix⟩, fun h => tableRule_none.mp h _ hmem hecho⟩
  obtain ⟨w, rest, i, hw, hlong⟩ := exists_isLongest hsome
  exact ⟨w, rest, i, hw, picks_iff.mpr hlong⟩

theorem Picks.unique {atBol : Bool} {w w' s s' : CStr} {i i' : ScanRule} (h : Picks atBol w s i) (h' : Picks atBol w' s' i')
    (heq : w ++ s = w' ++ s') : w = w' ∧ s = s' ∧ i = i' := by
  have hm := yyMatch_eq_some.mpr ⟨w, i, rfl, rfl, h⟩
  have hm' := yyMatch_eq_some.mpr ⟨w', i', rfl, rfl, h'⟩
  rw [heq, hm'] at hm
  obtain ⟨hact, rfl⟩ := Prod.mk.inj (Option.some.inj hm)
  exact ⟨List.append_cancel_right heq, rfl, (act_inj hact).symm⟩

/-! ## The file -/

theorem exists_scans (atBol : Bool) (s : CStr) : ∃ ts, Scans atBol s ts := by
  induction hn : s.length using Nat.strong_induction_on generalizing atBol s with
  | _ n ih =>
    cases s with
    | nil => exact ⟨[], .nil atBol⟩
    | cons c s =>
      obtain ⟨w, rest, i, hw, hp⟩ := exists_picks atBol c s
      have hlen : rest.length < n := by
        rw [← hn, ← hw, List.length_append]
        exact Nat.lt_add_of_pos_left (List.length_pos_of_ne_nil hp.ne_nil)
      obtain ⟨ts, hts⟩ := ih _ hlen _ rest rfl
      exact ⟨(i, w) :: ts, hw ▸ .cons hp hts⟩

theorem Scans.unique {atBol : Bool} {s : CStr} {ts ts' : List (ScanRule × CStr)} (h : Scans atBol s ts)
    (h' : Scans atBol s ts') : ts = ts' := by
  induction h generalizing ts' with
  | nil atBol =>
    generalize hs : ([] : CStr) = s at h'
    cases h' with
    | nil => rfl
    | cons hp _ => exact absurd (List.append_eq_nil_iff.mp hs.symm).1 hp.ne_nil
  | @cons atBol w s i ts hp _ ih =>
    generalize hs : w ++ s = s' at h'
    cases h' with
    | nil => exact absurd (List.append_eq_nil_iff.mp hs).1 hp.ne_nil
    | cons hp' hrest' =>
      obtain ⟨rfl, rfl, rfl⟩ := hp.unique hp' hs
      rw [ih hrest']

/-- One call of `yylex` goes over the matches without a token. -/
theorem yylex_scans {atBol : Bool} {s : CStr} {ts : List (ScanRule × CStr)} (h : Scans atBol s ts) {n : ℕ} (hn : s.length < n) :
    match ts.filterMap ScanRule.token with
    | [] => (yylex n atBol s).1 = none
    | t :: toks => ∃ atBol' rest ts', yylex n atBol s = (some t, atBol', rest) ∧ Scans atBol' rest ts' ∧
        ts'.filterMap ScanRule.token = toks ∧ rest.length < s.length := by
  induction h generalizing n with
  | nil atBol =>
    obtain ⟨n, rfl⟩ := Nat.exists_eq_succ_of_ne_zero (Nat.ne_of_gt (Nat.zero_lt_of_lt hn))
    rfl
  | @cons atBol w s i ts hp hrest ih =>
    obtain ⟨n, rfl⟩ := Nat.exists_eq_succ_of_ne_zero (Nat.ne_of_gt (Nat.zero_lt_of_lt hn))
    obtain ⟨c, w, rfl⟩ := List.exists_cons_of_ne_nil hp.ne_nil
    have hmatch := yyMatch_eq_some.mpr ⟨c :: w, i, rfl, rfl, hp⟩
    have htext : ((c :: w) ++ s).take (((c :: w) ++ s).length - s.length) = c :: w := by
      rw [List.length_append, Nat.add_sub_cancel, List.take_left']
      rfl
    have hlex : yylex (n + 1) atBol ((c :: w) ++ s) =
        match yyAction i.act (c :: w) with
        | some t => (some t, decide ((c :: w).getLast? = some '\n'), s)
        | none => yylex n (decide ((c :: w).getLast? = some '\n')) s := by
      rw [List.cons_append] at hmatch htext ⊢
      rw [yylex, hmatch]
      simp only [htext]
    rw [hlex, List.filterMap_cons, ScanRule.token]
    have hlt : s.length < ((c :: w) ++ s).length := by
      rw [List.length_append, List.length_cons]
      omega
    cases hact : yyAction i.act (c :: w) with
    | some t => exact ⟨_, s, ts, rfl, hrest, rfl, hlt⟩
    | none =>
      have hih := ih (show s.length < n by omega)
      simp only
      split at hih
      · exact hih
      · obtain ⟨atBol', rest, ts', h1, h2, h3, h4⟩ := hih
        exact ⟨atBol', rest, ts', h1, h2, h3, h4.trans hlt⟩

theorem lexAll_scans {atBol : Bool} {s : CStr} {ts : List (ScanRule × CStr)} (h : Scans atBol s ts) {n : ℕ} (hn : s.length < n) :
    lexAll n atBol s = ts.filterMap ScanRule.token := by
  induction n generalizing atBol s ts with
  | zero => exact absurd hn (Nat.not_lt_zero _)
  | succ n ih =>
    have hlex := yylex_scans h (Nat.lt_succ_self s.length)
    rw [lexAll]
    split at hlex
    · next heq =>
      rw [heq]
      cases hy : yylex (s.length + 1) atBol s with
      | mk t p =>
        rw [hy] at hlex
        obtain rfl : t = none := hlex
        rfl
    · next t toks heq =>
      obtain ⟨atBol', rest, ts', hy, hscans, hrest, hlt⟩ := hlex
      rw [hy, heq]
      simp only
      rw [ih hscans (by omega), hrest]

/-! ## Counts -/

theorem Scans.mem_lang {atBol : Bool} {s : CStr} {ts : List (ScanRule × CStr)} (h : Scans atBol s ts) :
    ∀ p ∈ ts, p.2 ∈ p.1.lang := by
  induction h with
  | nil atBol => exact fun p hp => absurd hp List.not_mem_nil
  | cons hp _ ih => exact List.forall_mem_cons.mpr ⟨hp.takes.2.1, ih⟩

theorem exists_digits {w : CStr} (h : w ∈ ScanRule.repetition.lang) :
    ∃ ds, w = 'N' :: '=' :: ds ∧ ∀ c ∈ ds, c.isDigit = true := by
  obtain ⟨_, ⟨n, hn, rfl⟩, u, hu, rfl⟩ := Language.mem_mul.mp h
  obtain ⟨_, ⟨e, he, rfl⟩, v, hv, rfl⟩ := Language.mem_mul.mp hu
  obtain ⟨_, ⟨d, hd, rfl⟩, ds, hstar, rfl⟩ := Language.mem_mul.mp hv
  obtain rfl : n = 'N' := of_decide_eq_true hn
  obtain rfl : e = '=' := of_decide_eq_true he
  exact ⟨d :: ds, rfl, List.forall_mem_cons.mpr ⟨hd, of_mem_kstar_oneOf hstar⟩⟩

/-- **The tables cut a file as the rules say**: there is one way to cut it, and the parser gets its tokens. -/
theorem scanTokens_scans (s : CStr) : ∃ ts, Scans true s ts ∧ (∀ ts', Scans true s ts' → ts' = ts) ∧
    scanTokens s = ts.filterMap ScanRule.token := by
  obtain ⟨ts, hts⟩ := exists_scans true s
  exact ⟨ts, hts, fun ts' h => h.unique hts, lexAll_scans hts (Nat.lt_succ_self _)⟩

end Fms
