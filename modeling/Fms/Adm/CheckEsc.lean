import Fms.Esc.Print

/-!
# Subscriptions of the rules file

src/tools/fmsadm/config.c: before a subscription is added to an agent, `check_esc` looks for its class
in the rules file of the agent. Each line is compared from its first dot on.

* `checkEsc`, `checkSubLegal`: the code; a path that does not fit its buffer has no result;
* `Requested`: what should be accepted, and `Shown`: what is;
* **`checkEsc_line`**: the code decides `Shown`;
* `Legible`, `CutOff`, `Resembled`: how the lines and the strings that are read from them differ, with
  `requested_iff` and `shown_iff`;
* **`checkEscRight_iff`**: when the code decides `Requested`;
* **`checkEscRight_iff_of_fits`**, **`checkEscRight_wildcard`**: the same for lines that fit the buffer;
* **`declaredClasses_printFile`**: the classes that are declared, in a file of printed rules.
-/

namespace Fms

open CString TextFile

/-- The size of the buffers for a line. -/
def lineLen : ℕ := 256

/-- The name of the rules file: the module up to its underscore. -/
def escPath (modName : CStr) : Option CStr :=
  (strtok '_' modName).bind fun tok => store 50 ("/usr/lib/fms/escdir/".toList ++ tok.1 ++ ".esc".toList)

/-- `check_sub_legal` -/
def checkSubLegal : Option CStr → ℤ
  | none => -1
  | some sub => if ' ' ∈ sub then -1 else 0

/-- `n - 3` of an `int`, as the `size_t` of `strncmp`. -/
def lessThree (n : ℕ) : ℕ := if 3 ≤ n then n - 3 else 2 ^ 64 + n - 3

/-- The body of the loop of `check_esc`. The `if` before the second length ends with a semicolon. -/
def escExists (subclass escbuf : CStr) : Bool :=
  (strstr ".".toList (content escbuf)).any fun escclass =>
    strncmpEq subclass escclass (lessThree subclass.length)

/-- `check_esc`, with the files that can be opened. -/
def checkEsc (fs : CStr → Option CStr) (sub modName : CStr) : Option ℤ :=
  (escPath modName).map fun escfile =>
    match fs escfile with
    | none => -1
    | some esc =>
      match strstr "subscribe:".toList sub with
      | none => -1
      | some subhead =>
        if ((sub.drop 3).take (sub.length - subhead.length - 3)).any (· != ' ') then -1
        else if strncmpEq (subhead.drop 10) "event".toList 5 = false then -1
        else
          let subclass := strstr ".".toList sub
          if checkSubLegal subclass ≠ 0 then -1
          else if (fgetsAll lineLen esc).any (escExists (subclass.getD [])) then 0 else -1

/-- **The form of what is accepted.** -/
theorem checkEsc_form {fs : CStr → Option CStr} {sub modName : CStr} (h : checkEsc fs sub modName = some 0) :
    ∃ subhead, strstr "subscribe:".toList sub = some subhead ∧
      (∀ c ∈ (sub.drop 3).take (sub.length - subhead.length - 3), c = ' ') ∧
      "event".toList <+: subhead.drop 10 ∧
      ∃ subclass, strstr ".".toList sub = some subclass ∧ ' ' ∉ subclass := by
  obtain ⟨escfile, -, h⟩ := Option.map_eq_some_iff.mp h
  split at h
  · exact absurd h (by decide)
  split at h
  · exact absurd h (by decide)
  next subhead hhead =>
    split at h
    · exact absurd h (by decide)
    next hblanks =>
      split at h
      · exact absurd h (by decide)
      next hevent =>
        dsimp only at h
        split at h
        · exact absurd h (by decide)
        next hlegal =>
          refine ⟨subhead, hhead, by simpa using hblanks, strncmpEq_right.mp (by simpa using hevent), ?_⟩
          cases hclass : strstr ".".toList sub with
          | none =>
            rw [hclass] at hlegal
            exact absurd (by decide) hlegal
          | some subclass =>
            refine ⟨subclass, rfl, fun hblank => ?_⟩
            rw [hclass, checkSubLegal, if_pos hblank] at hlegal
            exact absurd (by decide) hlegal

/-! ## Requests -/

/-- The class of a request that is entered as a line. -/
structure SubRequest where
  x : CStr
  oneLine : '\n' ∉ x
  noNul : '\x00' ∉ x

def SubRequest.line (r : SubRequest) : CStr := "add subscribe:event.".toList ++ r.x ++ ['\n']

/-- What is behind the first dot. -/
def behindDot (s : CStr) : Option CStr := (strchr '.' s).map (List.drop 1)

/-- The words that declare a class. -/
def escKeywords : List CStr := ["event ".toList, "engine ".toList, "fault ".toList]

/-- The word behind the keyword, up to a blank or a brace. -/
def declaredName (l : CStr) : Option CStr :=
  (escKeywords.find? fun k => k.isPrefixOf l).map fun k =>
    (l.drop k.length).takeWhile fun c => !isSpace c && c != '{'

/-- The classes that a rules file declares, each without what is in front of its first dot. -/
def declaredClasses (esc : CStr) : List CStr :=
  (rawLines esc).filterMap fun l => (declaredName l).bind behindDot

/-- A class is declared; of a class that ends with `.*`, one is declared that starts with the rest. -/
def Requested (esc x : CStr) : Prop :=
  if ".*".toList <:+ x then ∃ c ∈ declaredClasses esc, x.take (x.length - 2) <+: c
  else x ∈ declaredClasses esc

instance (esc x : CStr) : Decidable (Requested esc x) := by
  unfold Requested
  infer_instance

/-- A string has, behind its first dot, all of the class but its last two characters; for no class at
all, it has nothing but the newline there. -/
def ShowsClass (x buf : CStr) : Prop :=
  ∃ rest ∈ behindDot (content buf), if x = [] then rest = ['\n'] else x.take (x.length - 2) <+: rest

def Shown (esc x : CStr) : Prop := ∃ buf ∈ fgetsAll lineLen esc, ShowsClass x buf

/-- The request is accepted if it should be, for any module whose rules file it is. -/
def CheckEscRight (esc : CStr) (r : SubRequest) : Prop :=
  ∀ fs modName path, escPath modName = some path → fs path = some esc →
    (checkEsc fs r.line modName = some 0 ↔ ' ' ∉ r.x ∧ Requested esc r.x)

/-! ## What is compared -/

theorem strstr_dot (s : CStr) : strstr ".".toList s = strchr '.' s := strstr_singleton '.' s

theorem strchr_eq_some {c : Char} {s t : CStr} (h : strchr c s = some t) : ∃ u, t = c :: u := by
  induction s with
  | nil => cases h
  | cons x s ih =>
    rw [strchr] at h
    split at h
    case isTrue hx =>
      cases h
      exact ⟨s, by rw [hx]⟩
    case isFalse => exact ih h

theorem strncmpEq_cons (c : Char) (a b : CStr) (n : ℕ) :
    strncmpEq (c :: a) (c :: b) (n + 1) = strncmpEq a b n := by
  simp [strncmpEq]

theorem strncmpEq_take {a b : CStr} {n : ℕ} (h : n ≤ a.length) :
    strncmpEq a b n = true ↔ a.take n <+: b := by
  rw [strncmpEq, beq_iff_eq, List.prefix_iff_eq_take, List.length_take, Nat.min_eq_left h]

theorem strncmpEq_comm (a b : CStr) (n : ℕ) : strncmpEq a b n = strncmpEq b a n := BEq.comm

theorem strncmpEq_beyond {a b : CStr} {n : ℕ} (h : a.length < n) : strncmpEq a b n = true ↔ a = b := by
  rw [strncmpEq, beq_iff_eq, List.take_of_length_le h.le]
  constructor
  · intro heq
    have hlen := congrArg List.length heq
    rw [List.length_take] at hlen
    rwa [List.take_of_length_le (by omega)] at heq
  · rintro rfl
    rw [List.take_of_length_le h.le]

theorem strncmpEq_class {x rest : CStr} :
    strncmpEq ('.' :: (x ++ ['\n'])) ('.' :: rest) (lessThree (x.length + 2)) = true ↔
      if x = [] then rest = ['\n'] else x.take (x.length - 2) <+: rest := by
  by_cases hx : x = []
  · rw [if_pos hx, hx, strncmpEq_beyond (by decide)]
    constructor
    · intro h
      exact (List.cons.inj h).2.symm
    · rintro rfl
      rfl
  · have hpos := List.length_pos_iff.mpr hx
    rw [if_neg hx]
    by_cases hone : x.length = 1
    · rw [hone]
      exact iff_of_true rfl List.nil_prefix
    · obtain ⟨k, hk⟩ : ∃ k, x.length = k + 2 := ⟨x.length - 2, by omega⟩
      rw [hk, show lessThree (k + 2 + 2) = k + 1 by simp [lessThree], strncmpEq_cons, Nat.add_sub_cancel,
        strncmpEq_take (by rw [List.length_append]; omega), List.take_append_of_le_length (by omega)]

theorem escExists_iff {x buf : CStr} :
    escExists ('.' :: (x ++ ['\n'])) buf = true ↔ ShowsClass x buf := by
  have hlen : ('.' :: (x ++ ['\n'])).length = x.length + 2 := by simp
  rw [escExists, strstr_dot, hlen, ShowsClass, behindDot]
  cases h : strchr '.' (content buf) with
  | none => simp
  | some escclass =>
    obtain ⟨rest, rfl⟩ := strchr_eq_some h
    simp only [Option.any_some, Option.map_some, Option.mem_def, Option.some.injEq, exists_eq_left',
      List.drop_succ_cons, List.drop_zero]
    exact strncmpEq_class

namespace SubRequest

variable (r : SubRequest)

theorem strstr_line_subscribe :
    strstr "subscribe:".toList r.line = some ("subscribe:event.".toList ++ r.x ++ ['\n']) := by
  have hskip := strstr_skip (show 's' ∉ "add ".toList by decide) "ubscribe:".toList
    ("subscribe:event.".toList ++ r.x ++ ['\n'])
  exact hskip.trans (strstr_append 's' "ubscribe:".toList ("event.".toList ++ r.x ++ ['\n']))

theorem strstr_line_dot : strstr ".".toList r.line = some ('.' :: (r.x ++ ['\n'])) := rfl

theorem line_between :
    (r.line.drop 3).take (r.line.length - ("subscribe:event.".toList ++ r.x ++ ['\n']).length - 3) = [' '] := by
  have hline : r.line = "add ".toList ++ ("subscribe:event.".toList ++ r.x ++ ['\n']) := rfl
  generalize "subscribe:event.".toList ++ r.x ++ ['\n'] = head at hline
  have hlen : r.line.length - head.length - 3 = 1 := by
    rw [hline, List.length_append, Nat.add_sub_cancel]
    rfl
  rw [hlen, hline]
  rfl

end SubRequest

/-- **What the code accepts.** -/
theorem checkEsc_line {fs : CStr → Option CStr} {modName path esc : CStr} (hpath : escPath modName = some path)
    (hfs : fs path = some esc) (r : SubRequest) :
    checkEsc fs r.line modName = some 0 ↔ ' ' ∉ r.x ∧ Shown esc r.x := by
  have hhead : strncmpEq (("subscribe:event.".toList ++ r.x ++ ['\n']).drop 10) "event".toList 5 = true :=
    strncmpEq_right.mpr ⟨'.' :: (r.x ++ ['\n']), rfl⟩
  have hblank : ' ' ∈ '.' :: (r.x ++ ['\n']) ↔ ' ' ∈ r.x := by simp
  rw [checkEsc, hpath, Option.map_some, hfs]
  dsimp only
  rw [r.strstr_line_subscribe]
  dsimp only
  rw [r.line_between, if_neg (by decide), if_neg (by rw [hhead]; decide), r.strstr_line_dot, checkSubLegal,
    Option.getD_some, Option.some_inj]
  by_cases hx : ' ' ∈ r.x
  · rw [if_pos (by rw [if_pos (hblank.mpr hx)]; decide)]
    exact iff_of_false (by decide) fun h => h.1 hx
  · have hshown : (fgetsAll lineLen esc).any (escExists ('.' :: (r.x ++ ['\n']))) = true ↔ Shown esc r.x := by
      rw [List.any_eq_true]
      exact exists_congr fun buf => and_congr_right fun _ => escExists_iff
    rw [if_neg (by rw [if_neg (mt hblank.mp hx)]; decide), and_iff_right hx, ← hshown]
    split
    case isTrue h => exact iff_of_true rfl h
    case isFalse h => exact iff_of_false (by decide) h

/-! ## Lines and strings -/

/-- The class is asked for: literally, or it starts with what is in front of `.*`. -/
def AnswersClass (x c : CStr) : Prop := if ".*".toList <:+ x then x.take (x.length - 2) <+: c else c = x

/-- A line declares a class that is asked for. -/
def DeclaresFor (x l : CStr) : Prop := ∃ c ∈ (declaredName l).bind behindDot, AnswersClass x c

/-- What the buffer takes of a line. -/
def firstString (l : CStr) : CStr := l.take (lineLen - 1)

/-- Of a line that declares it, the first string shows the class. -/
def Legible (esc x : CStr) : Prop :=
  ∃ l ∈ rawLines esc, DeclaresFor x l ∧ ShowsClass x (firstString l)

/-- Of a line that declares it, the first string ends too early. -/
def CutOff (esc x : CStr) : Prop :=
  ∃ l ∈ rawLines esc, DeclaresFor x l ∧ ¬ ShowsClass x (firstString l)

/-- A string shows the class that is not the beginning of a declaration of it: of another line, or of a
comment, or a later piece of a long line. -/
def Resembled (esc x : CStr) : Prop :=
  ∃ buf ∈ fgetsAll lineLen esc, ShowsClass x buf ∧
    ∀ l ∈ rawLines esc, DeclaresFor x l → buf ≠ firstString l

theorem requested_iff {esc x : CStr} : Requested esc x ↔ Legible esc x ∨ CutOff esc x := by
  have hdecl : Requested esc x ↔ ∃ l ∈ rawLines esc, DeclaresFor x l := by
    simp only [Requested, declaredClasses, List.mem_filterMap, DeclaresFor, AnswersClass, Option.mem_def]
    split
    · constructor
      · rintro ⟨c, ⟨l, hl, hc⟩, hpre⟩
        exact ⟨l, hl, c, hc, hpre⟩
      · rintro ⟨l, hl, c, hc, hpre⟩
        exact ⟨c, ⟨l, hl, hc⟩, hpre⟩
    · exact exists_congr fun l => and_congr_right fun _ => by simp
  rw [hdecl]
  constructor
  · rintro ⟨l, hl, hfor⟩
    by_cases hshow : ShowsClass x (firstString l)
    · exact .inl ⟨l, hl, hfor, hshow⟩
    · exact .inr ⟨l, hl, hfor, hshow⟩
  · rintro (⟨l, hl, hfor, -⟩ | ⟨l, hl, hfor, -⟩) <;> exact ⟨l, hl, hfor⟩

theorem shown_iff {esc x : CStr} : Shown esc x ↔ Legible esc x ∨ Resembled esc x := by
  constructor
  · rintro ⟨buf, hbuf, hshow⟩
    by_cases hfirst : ∃ l ∈ rawLines esc, DeclaresFor x l ∧ buf = firstString l
    · obtain ⟨l, hl, hfor, rfl⟩ := hfirst
      exact .inl ⟨l, hl, hfor, hshow⟩
    · exact .inr ⟨buf, hbuf, hshow, fun l hl hfor heq => hfirst ⟨l, hl, hfor, heq⟩⟩
  · rintro (⟨l, hl, -, hshow⟩ | ⟨buf, hbuf, hshow, -⟩)
    · exact ⟨firstString l, take_mem_fgetsAll (by decide) hl, hshow⟩
    · exact ⟨buf, hbuf, hshow⟩

/-- **A request is judged right if it has a blank, or a declaration of its class can be read; and else
if the class is neither declared nor does anything look like it, or both by accident.** -/
theorem checkEscRight_iff (esc : CStr) (r : SubRequest) :
    CheckEscRight esc r ↔ ' ' ∈ r.x ∨ Legible esc r.x ∨
      (¬ CutOff esc r.x ∧ ¬ Resembled esc r.x) ∨ (CutOff esc r.x ∧ Resembled esc r.x) := by
  have hcases : (Shown esc r.x ↔ Requested esc r.x) ↔ Legible esc r.x ∨
      (¬ CutOff esc r.x ∧ ¬ Resembled esc r.x) ∨ (CutOff esc r.x ∧ Resembled esc r.x) := by
    rw [shown_iff, requested_iff]
    tauto
  rw [← hcases]
  constructor
  · intro h
    by_cases hx : ' ' ∈ r.x
    · exact Or.inl hx
    · have hright := h (fun _ => some esc) "cpumem_agent".toList _ rfl rfl
      have hcode := @checkEsc_line (fun _ => some esc) "cpumem_agent".toList _ esc rfl rfl r
      rw [hcode, and_iff_right hx, and_iff_right hx] at hright
      exact Or.inr hright
  · intro h fs modName path hpath hfs
    rw [checkEsc_line hpath hfs]
    rcases h with hx | h
    · exact iff_of_false (fun h => h.1 hx) fun h => h.1 hx
    · rw [h]

/-! ## Plain files -/

theorem behindDot_skip {s : CStr} (hs : '.' ∉ s) (t : CStr) : behindDot (s ++ t) = behindDot t := by
  rw [behindDot, behindDot, ← strstr_singleton, strstr_skip hs [] t, strstr_singleton]

theorem behindDot_append {s c : CStr} (h : behindDot s = some c) (t : CStr) :
    behindDot (s ++ t) = some (c ++ t) := by
  induction s with
  | nil => cases h
  | cons x s ih =>
    by_cases hx : x = '.'
    · simp only [behindDot, strchr, if_pos hx, Option.map_some, List.drop_succ_cons, List.drop_zero,
        Option.some.injEq] at h
      simp [behindDot, strchr, hx, h]
    · simp only [behindDot, strchr, if_neg hx] at h
      simpa only [behindDot, List.cons_append, strchr, if_neg hx] using ih h

theorem declaredName_eq_some {l name : CStr} (h : declaredName l = some name) :
    ∃ k ∈ escKeywords, ∃ tail, l = k ++ (name ++ tail) := by
  obtain ⟨k, hk, rfl⟩ := Option.map_eq_some_iff.mp h
  have hpre : k.isPrefixOf l = true := by simpa using List.find?_some hk
  obtain ⟨t, rfl⟩ := List.isPrefixOf_iff_prefix.mp hpre
  refine ⟨k, List.mem_of_find?_eq_some hk, t.dropWhile fun c => !isSpace c && c != '{', ?_⟩
  rw [List.drop_left, List.takeWhile_append_dropWhile]

theorem dot_not_mem_keyword : ∀ k ∈ escKeywords, '.' ∉ k := by decide

theorem content_rawLine {text l : CStr} (hnul : '\x00' ∉ text) (hl : l ∈ rawLines text) : content l = l :=
  content_of_not_mem (not_mem_rawLines hnul l hl)

/-- **A declaration that fits the buffer can be read.** -/
theorem showsClass_of_fits {x l : CStr} (hfits : Fits lineLen l) (hnul : '\x00' ∉ l) (hx : x ≠ [])
    (h : DeclaresFor x l) : ShowsClass x (firstString l) := by
  obtain ⟨c, hc, hanswers⟩ := h
  obtain ⟨name, hname, hdot⟩ := Option.bind_eq_some_iff.mp hc
  obtain ⟨k, hk, tail, rfl⟩ := declaredName_eq_some hname
  have hpre : x.take (x.length - 2) <+: c := by
    unfold AnswersClass at hanswers
    split at hanswers
    · exact hanswers
    · rw [hanswers]
      exact List.take_prefix _ x
  have hall : firstString (k ++ (name ++ tail)) = k ++ (name ++ tail) :=
    List.take_of_length_le (Nat.le_sub_one_of_lt hfits)
  refine ⟨c ++ tail, ?_, ?_⟩
  · rw [hall, content_of_not_mem hnul, behindDot_skip (dot_not_mem_keyword k hk)]
    exact behindDot_append hdot tail
  · rw [if_neg hx]
    exact hpre.trans (List.prefix_append c tail)

/-- A class is cut off in a line that is too long for the buffer, or has a NUL. -/
theorem CutOff.exists_long {esc x : CStr} (h : CutOff esc x) (hx : x ≠ []) :
    ∃ l ∈ rawLines esc, ¬ Fits lineLen l ∨ '\x00' ∈ l := by
  obtain ⟨l, hl, hfor, hno⟩ := h
  refine ⟨l, hl, ?_⟩
  by_contra hboth
  obtain ⟨hfits, hnul⟩ := not_or.mp hboth
  exact hno (showsClass_of_fits (not_not.mp hfits) hnul hx hfor)

section
variable {esc : CStr} (hfits : ∀ l ∈ rawLines esc, Fits lineLen l) (hnul : '\x00' ∉ esc)
include hfits hnul

theorem not_cutOff_of_fits {x : CStr} (hx : x ≠ []) : ¬ CutOff esc x := by
  intro h
  obtain ⟨l, hl, hlong | hl0⟩ := h.exists_long hx
  · exact hlong (hfits l hl)
  · exact not_mem_rawLines hnul l hl hl0

/-- **For lines that fit the buffer only a class that is not declared is judged wrong: one that is
declared but for its last two characters.** -/
theorem checkEscRight_iff_of_fits {r : SubRequest} (hx : r.x ≠ []) :
    CheckEscRight esc r ↔ ' ' ∈ r.x ∨ Requested esc r.x ∨ ¬ Shown esc r.x := by
  have hcut := not_cutOff_of_fits hfits hnul hx
  rw [checkEscRight_iff, requested_iff, shown_iff]
  tauto

end

/-- Every dot is in the name of a declaration or behind it, and a blank or the end of the line is
behind the name. -/
def PlainEsc (esc : CStr) : Prop :=
  ∀ l ∈ rawLines esc, '.' ∈ l → ∃ k ∈ escKeywords, ∃ name tail, l = k ++ (name ++ tail) ∧
    declaredName l = some name ∧ '.' ∈ name ∧ ∀ c ∈ tail.head?, c = ' ' ∨ c = '\n'

theorem prefix_of_prefix_append {y c t : CStr} (h : y <+: c ++ t) (ht : ∀ a ∈ t.head?, a ∉ y) : y <+: c := by
  rcases List.prefix_or_prefix_of_prefix h (List.prefix_append c t) with hyc | ⟨z, rfl⟩
  · exact hyc
  · rw [List.prefix_append_right_inj] at h
    cases z with
    | nil =>
      rw [List.append_nil]
    | cons a z =>
      obtain ⟨u, rfl⟩ := h
      exact absurd (List.mem_append_right c List.mem_cons_self) (ht a rfl)

/-- **In a plain file a class with a wildcard is judged right.** -/
theorem checkEscRight_wildcard {esc : CStr} (hfits : ∀ l ∈ rawLines esc, Fits lineLen l)
    (hnul : '\x00' ∉ esc) (hplain : PlainEsc esc) {r : SubRequest} (hstar : ".*".toList <:+ r.x) :
    CheckEscRight esc r := by
  have hx : r.x ≠ [] := by
    rintro hx
    rw [hx] at hstar
    exact absurd (List.suffix_nil.mp hstar) (by decide)
  rw [checkEscRight_iff_of_fits hfits hnul hx]
  by_cases hblank : ' ' ∈ r.x
  · exact Or.inl hblank
  refine Or.inr (or_iff_not_imp_right.mpr fun hshown => ?_)
  obtain ⟨buf, hbuf, rest, hrest, hpre⟩ := not_not.mp hshown
  rw [if_neg hx] at hpre
  rw [fgetsAll_of_fits hfits] at hbuf
  rw [content_rawLine hnul hbuf] at hrest
  have hdot : '.' ∈ buf := by
    obtain ⟨t, ht, -⟩ := Option.map_eq_some_iff.mp hrest
    exact strchr_isSome.mp (by rw [ht]; rfl)
  obtain ⟨k, hk, name, tail, rfl, hname, hdotName, htail⟩ := hplain buf hbuf hdot
  obtain ⟨t, ht⟩ := Option.isSome_iff_exists.mp (strchr_isSome.mpr hdotName)
  have hclass : behindDot name = some (t.drop 1) := by rw [behindDot, ht, Option.map_some]
  rw [behindDot_skip (dot_not_mem_keyword k hk), behindDot_append hclass tail, Option.mem_some_iff] at hrest
  rw [Requested, if_pos hstar]
  refine ⟨t.drop 1, List.mem_filterMap.mpr ⟨_, hbuf, by rw [hname, Option.bind_some, hclass]⟩, ?_⟩
  rw [← hrest] at hpre
  refine prefix_of_prefix_append hpre fun a ha hmem => ?_
  have hax : a ∈ r.x := List.mem_of_mem_take hmem
  rcases htail a ha with rfl | rfl
  · exact hblank hax
  · exact r.oneLine hax

/-! ## Printed files -/

def EscDecl.eclass : EscDecl → CStr
  | .event c | .fault c | .engine c _ _ => c

def EscText.eclass : EscText → Option CStr
  | .decl d => some d.eclass
  | .other _ => none

/-- The name of a class is one word. -/
def IsWord (c : CStr) : Prop := ∀ x ∈ c, isSpace x = false ∧ x ≠ '\x7b'

theorem takeWhile_word {c t : CStr} (hc : IsWord c) (ht : ∀ x ∈ t.head?, isSpace x = true) :
    (c ++ t).takeWhile (fun x => !isSpace x && x != '\x7b') = c := by
  have hword : ∀ x ∈ c, (!isSpace x && x != '\x7b') = true := by
    intro x hx
    obtain ⟨hspace, hbrace⟩ := hc x hx
    simp [hspace, hbrace]
  rw [List.takeWhile_append_of_pos hword]
  cases t with
  | nil => exact List.append_nil c
  | cons x t =>
    have hx : isSpace x = true := ht x rfl
    rw [List.takeWhile_cons_of_neg (by simp [hx]), List.append_nil]

theorem declaredName_keyword {k c t : CStr} (hk : k ∈ escKeywords) (hc : IsWord c)
    (ht : ∀ x ∈ t.head?, isSpace x = true) : declaredName (k ++ (c ++ t)) = some c := by
  have hfind : escKeywords.find? (fun k' => k'.isPrefixOf (k ++ (c ++ t))) = some k := by
    simp only [escKeywords, List.mem_cons, List.not_mem_nil, or_false] at hk
    rcases hk with rfl | rfl | rfl <;> rfl
  rw [declaredName, hfind, Option.map_some, List.drop_left, takeWhile_word hc ht]

theorem declaredName_print {d : EscDecl} (hd : IsWord d.eclass) :
    declaredName (d.print ++ ['\n']) = some d.eclass := by
  have hline : ∀ x ∈ ['\n'].head?, isSpace x = true := fun x hx => Option.some_inj.mp hx ▸ rfl
  have hnumbers (n t : ℕ) : ∀ x ∈ (printNumbers n t ++ ['\n']).head?, isSpace x = true :=
    fun x hx => Option.some_inj.mp hx ▸ rfl
  cases d with
  | event c => exact declaredName_keyword (k := "event ".toList) (by decide) hd hline
  | fault c => exact declaredName_keyword (k := "fault ".toList) (by decide) hd hline
  | engine c n t =>
    have h := declaredName_keyword (k := "engine ".toList) (by decide) hd (hnumbers n t)
    rw [← List.append_assoc, ← List.append_assoc] at h
    rw [EscDecl.print.eq_def]
    dsimp only
    rw [← List.append_assoc]
    exact h

theorem declaredName_other {s : CStr} (h : IsOther s) : declaredName (s ++ ['\n']) = none := by
  have hno : ∀ k ∈ escKeywords, ¬ k <+: s ++ ['\n'] := by
    intro k hk hpre
    have hline : '\n' ∉ k := (show ∀ k ∈ escKeywords, '\n' ∉ k by decide) k hk
    have hs : k <+: s := prefix_of_prefix_append hpre fun a ha => Option.some_inj.mp ha ▸ hline
    simp only [escKeywords, List.mem_cons, List.not_mem_nil, or_false] at hk
    rcases hk with rfl | rfl | rfl
    · exact h.1 hs
    · exact h.2.1 hs
    · exact h.2.2 hs
  rw [declaredName, List.find?_eq_none.mpr fun k hk => by simpa using hno k hk, Option.map_none]

theorem printFile_true (ls : List EscText) :
    printFile true ls = (ls.map fun l => l.print ++ ['\n']).flatten := by
  rw [printFile, withEnds_true, List.flatMap_map]
  rfl

/-- **The classes that a printed file declares are those of its declarations.** -/
theorem declaredClasses_printFile {ls : List EscText} (hls : ∀ l ∈ ls, l.Printable)
    (hwords : ∀ l ∈ ls, ∀ c ∈ l.eclass, IsWord c) :
    declaredClasses (printFile true ls) = ls.filterMap fun l => l.eclass.bind behindDot := by
  have hraw : rawLines (printFile true ls) = ls.map fun l => l.print ++ ['\n'] := by
    have hterm : ∀ x ∈ ls.map fun l => l.print ++ ['\n'], Terminated x := by
      intro x hx
      obtain ⟨l, hl, rfl⟩ := List.mem_map.mp hx
      exact ⟨l.print, (hls l hl).newline_not_mem, rfl⟩
    have hflat := rawLines_flatten hterm []
    rwa [List.append_nil, ← printFile_true, show rawLines [] = [] from rfl, List.append_nil] at hflat
  have hline : ∀ l ∈ ls, declaredName (l.print ++ ['\n']) = l.eclass := by
    intro l hl
    cases l with
    | decl d => exact declaredName_print (hwords _ hl d.eclass rfl)
    | other s => exact declaredName_other (hls _ hl).2
  rw [declaredClasses, hraw, List.filterMap_map]
  exact List.filterMap_congr fun l hl => congrArg (·.bind behindDot) (hline l hl)

/-- A class that is not declared, but for its last two characters. -/
theorem checkEscRight_misspelt :
    ¬ CheckEscRight "event ereport.cpu.cache_ce\n".toList ⟨"cpu.cache_xy".toList, by decide, by decide⟩ := by
  intro h
  have hright := h (fun _ => some "event ereport.cpu.cache_ce\n".toList) "cpumem_agent".toList _ rfl rfl
  exact absurd (hright.mp (by decide +kernel)) (by decide +kernel)

end Fms
