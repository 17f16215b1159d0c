import Fms.Lib.CString

/-!
# Text files

A file is the list of its characters. Its `rawLines` are its lines with their newlines, `lines` what
stands between the newlines, and `fgetsAll` are the strings that `fgets` reads from it one after the
other: a line with its newline, or a piece of a line that is too long for the buffer.

* `exists_rawLines`: a file is some terminated lines and a rest without newline;
* `fgetsAll_cons`: the strings are those of a loop around `fgets`;
* **`fgetsAll_of_fits`**: lines that fit the buffer are read one by one;
* **`take_mem_fgetsAll`**: of any line the beginning is read.
-/

namespace TextFile

open CString

/-! ## Lines -/

/-- One more character in front of the first string. -/
def addFront (c : Char) : List CStr → List CStr
  | [] => [[c]]
  | p :: ps => (c :: p) :: ps

/-- The lines of a file, without their newlines; a last line need not be terminated. -/
def lines : CStr → List CStr
  | [] => []
  | c :: s => if c = '\n' then [] :: lines s else addFront c (lines s)

/-- The lines of a file, with their newlines. -/
def rawLines : CStr → List CStr
  | [] => []
  | c :: s => if c = '\n' then [c] :: rawLines s else addFront c (rawLines s)

/-- The line without its newline. -/
def chomp (l : CStr) : CStr := l.takeWhile (· != '\n')

/-- A line with its newline. -/
def Terminated (l : CStr) : Prop := ∃ x, '\n' ∉ x ∧ l = x ++ ['\n']

theorem lines_eq_map_chomp (s : CStr) : lines s = (rawLines s).map chomp := by
  induction s with
  | nil => rfl
  | cons c s ih =>
    rw [lines, rawLines]
    by_cases hc : c = '\n'
    · rw [if_pos hc, if_pos hc, List.map_cons, ih, hc]
      rfl
    · rw [if_neg hc, if_neg hc, ih]
      cases rawLines s <;> simp [addFront, chomp, hc]

theorem rawLines_line {l : CStr} (hl : '\n' ∉ l) (s : CStr) :
    rawLines (l ++ '\n' :: s) = (l ++ ['\n']) :: rawLines s := by
  induction l with
  | nil => rfl
  | cons x l ih =>
    simp only [List.mem_cons, not_or] at hl
    rw [List.cons_append, rawLines, if_neg (Ne.symm hl.1), ih hl.2]
    rfl

theorem rawLines_last {t : CStr} (ht : '\n' ∉ t) : rawLines t = if t = [] then [] else [t] := by
  induction t with
  | nil => rfl
  | cons x t ih =>
    simp only [List.mem_cons, not_or] at ht
    rw [rawLines, if_neg (Ne.symm ht.1), ih ht.2, if_neg (List.cons_ne_nil x t)]
    by_cases h : t = []
    · rw [if_pos h, h]
      rfl
    · rw [if_neg h]
      rfl

theorem rawLines_flatten {ls : List CStr} (hls : ∀ l ∈ ls, Terminated l) (s : CStr) :
    rawLines (ls.flatten ++ s) = ls ++ rawLines s := by
  induction ls with
  | nil => rfl
  | cons l ls ih =>
    obtain ⟨x, hx, rfl⟩ := hls l List.mem_cons_self
    rw [List.flatten_cons, List.append_assoc, List.append_assoc, List.singleton_append, rawLines_line hx,
      ih fun l' hl' => hls l' (List.mem_cons_of_mem _ hl')]
    rfl

theorem rawLines_terminated {l : CStr} (hl : Terminated l) : rawLines l = [l] := by
  obtain ⟨x, hx, rfl⟩ := hl
  exact rawLines_line hx []

theorem exists_rawLines (s : CStr) :
    ∃ (ls : List CStr) (t : CStr), s = ls.flatten ++ t ∧ (∀ l ∈ ls, Terminated l) ∧ '\n' ∉ t := by
  induction s with
  | nil => exact ⟨[], [], rfl, by simp, by simp⟩
  | cons c s ih =>
    obtain ⟨ls, t, rfl, hls, ht⟩ := ih
    by_cases hc : c = '\n'
    · exact ⟨['\n'] :: ls, t, by rw [hc]; rfl, List.forall_mem_cons.mpr ⟨⟨[], by simp, rfl⟩, hls⟩, ht⟩
    · cases ls with
      | nil => exact ⟨[], c :: t, rfl, by simp, by simp [Ne.symm hc, ht]⟩
      | cons l ls =>
        obtain ⟨⟨x, hx, rfl⟩, hls'⟩ := List.forall_mem_cons.mp hls
        refine ⟨((c :: x) ++ ['\n']) :: ls, t, by simp, ?_, ht⟩
        exact List.forall_mem_cons.mpr ⟨⟨c :: x, by simp [Ne.symm hc, hx], rfl⟩, hls'⟩

theorem rest_eq_nil_iff {ls : List CStr} {t : CStr} (hls : ∀ l ∈ ls, Terminated l) (ht : '\n' ∉ t) :
    t = [] ↔ ls.flatten ++ t = [] ∨ (ls.flatten ++ t).getLast? = some '\n' := by
  constructor
  · rintro rfl
    rw [List.append_nil]
    rcases ls.eq_nil_or_concat with rfl | ⟨ls, l, rfl⟩
    · exact .inl rfl
    · obtain ⟨x, -, rfl⟩ := hls l (by simp)
      right
      rw [List.concat_eq_append, List.flatten_append, List.flatten_singleton, ← List.append_assoc,
        List.getLast?_concat]
  · rintro (h | h)
    · exact (List.append_eq_nil_iff.mp h).2
    · by_contra hne
      rw [List.getLast?_append_of_ne_nil _ hne] at h
      exact ht (List.mem_of_mem_getLast? h)

theorem rawLine_cases {s l : CStr} (hl : l ∈ rawLines s) : Terminated l ∨ '\n' ∉ l := by
  obtain ⟨ls, t, rfl, hls, ht⟩ := exists_rawLines s
  rw [rawLines_flatten hls, rawLines_last ht] at hl
  rcases List.mem_append.mp hl with hl | hl
  · exact .inl (hls l hl)
  · split_ifs at hl with h
    · exact absurd hl List.not_mem_nil
    · exact .inr (List.mem_singleton.mp hl ▸ ht)

theorem flatten_rawLines (s : CStr) : (rawLines s).flatten = s := by
  obtain ⟨ls, t, rfl, hls, ht⟩ := exists_rawLines s
  rw [rawLines_flatten hls, rawLines_last ht, List.flatten_append]
  split_ifs with h
  · rw [h]
    rfl
  · simp

theorem not_mem_rawLines {s : CStr} {c : Char} (h : c ∉ s) : ∀ l ∈ rawLines s, c ∉ l := by
  intro l hl hmem
  have hc : c ∈ (rawLines s).flatten := List.mem_flatten.mpr ⟨l, hl, hmem⟩
  rw [flatten_rawLines] at hc
  exact h hc

/-! ## Reading -/

/-- `fgets`, for a buffer with room for so many characters: what it reads, and what is left. -/
def fgets : ℕ → CStr → CStr × CStr
  | 0, s => ([], s)
  | _ + 1, [] => ([], [])
  | room + 1, c :: s =>
    if c = '\n' then ([c], s) else (c :: (fgets room s).1, (fgets room s).2)

/-- The strings read with a buffer of `size` characters, the first one with room for `room` more than
its first character. -/
def fgetsFrom (size : ℕ) : ℕ → CStr → List CStr
  | _, [] => []
  | room, c :: s =>
    if c = '\n' ∨ room = 0 then [c] :: fgetsFrom size (size - 2) s
    else addFront c (fgetsFrom size (room - 1) s)

/-- What a loop `while (fgets(buf, size, f))` reads. -/
def fgetsAll (size : ℕ) (s : CStr) : List CStr := fgetsFrom size (size - 2) s

theorem fgetsFrom_cons (size room : ℕ) (c : Char) (s : CStr) :
    fgetsFrom size room (c :: s) =
      (fgets (room + 1) (c :: s)).1 :: fgetsAll size (fgets (room + 1) (c :: s)).2 := by
  induction s generalizing room c with
  | nil =>
    by_cases hc : c = '\n' ∨ room = 0
    · rcases hc with rfl | rfl <;> simp [fgetsFrom, fgets, fgetsAll]
    · obtain ⟨hc, hr⟩ := not_or.mp hc
      obtain ⟨room, rfl⟩ := Nat.exists_eq_succ_of_ne_zero hr
      simp [fgetsFrom, fgets, fgetsAll, addFront]
  | cons d s ih =>
    by_cases hc : c = '\n'
    · simp [fgetsFrom, fgets, fgetsAll, hc]
    · cases room with
      | zero => simp [fgetsFrom, fgets, fgetsAll, hc]
      | succ room =>
        have hstep : fgets (room + 1 + 1) (c :: d :: s) =
            (c :: (fgets (room + 1) (d :: s)).1, (fgets (room + 1) (d :: s)).2) := if_neg hc
        rw [fgetsFrom, if_neg (by simp [hc]), Nat.add_sub_cancel, ih room d, addFront, hstep]

theorem fgetsAll_cons {size : ℕ} (hsize : 2 ≤ size) (c : Char) (s : CStr) :
    fgetsAll size (c :: s) =
      (fgets (size - 1) (c :: s)).1 :: fgetsAll size (fgets (size - 1) (c :: s)).2 := by
  rw [fgetsAll, fgetsFrom_cons, show size - 2 + 1 = size - 1 by omega]

theorem fgetsFrom_line {size room : ℕ} {l : CStr} (hl : '\n' ∉ l) (hroom : l.length ≤ room) (s : CStr) :
    fgetsFrom size room (l ++ '\n' :: s) = (l ++ ['\n']) :: fgetsAll size s := by
  induction l generalizing room with
  | nil => simp [fgetsFrom, fgetsAll]
  | cons x l ih =>
    simp only [List.mem_cons, not_or] at hl
    rw [List.length_cons] at hroom
    rw [List.cons_append, fgetsFrom, if_neg (by simp [Ne.symm hl.1]; omega), ih hl.2 (by omega)]
    rfl

theorem fgetsFrom_last {size room : ℕ} {t : CStr} (ht : '\n' ∉ t) (hroom : t.length ≤ room + 1) :
    fgetsFrom size room t = if t = [] then [] else [t] := by
  induction t generalizing room with
  | nil => rfl
  | cons x t ih =>
    simp only [List.mem_cons, not_or] at ht
    rw [List.length_cons] at hroom
    rw [if_neg (List.cons_ne_nil x t), fgetsFrom]
    by_cases hz : room = 0
    · have hnil : t = [] := List.length_eq_zero_iff.mp (by omega)
      rw [if_pos (.inr hz), hnil]
      rfl
    · rw [if_neg (by simp [Ne.symm ht.1, hz]), ih ht.2 (by omega)]
      by_cases h : t = []
      · rw [if_pos h, h]
        rfl
      · rw [if_neg h]
        rfl

/-- A line, with its newline if it has one, fits a buffer. -/
def Fits (size : ℕ) (l : CStr) : Prop := l.length < size

instance (size : ℕ) (l : CStr) : Decidable (Fits size l) := inferInstanceAs (Decidable (_ < _))

theorem fgetsAll_line {size : ℕ} {l : CStr} (hl : '\n' ∉ l) (hfits : Fits size (l ++ ['\n'])) (s : CStr) :
    fgetsAll size (l ++ '\n' :: s) = (l ++ ['\n']) :: fgetsAll size s := by
  rw [Fits, List.length_append, List.length_singleton] at hfits
  exact fgetsFrom_line hl (by omega) s

theorem fgetsAll_last {size : ℕ} {t : CStr} (ht : '\n' ∉ t) (hfits : Fits size t) :
    fgetsAll size t = if t = [] then [] else [t] := by
  unfold Fits at hfits
  exact fgetsFrom_last ht (by omega)

/-- **Lines that fit the buffer are read one by one.** -/
theorem fgetsAll_of_fits {size : ℕ} {s : CStr} (hfits : ∀ l ∈ rawLines s, Fits size l) :
    fgetsAll size s = rawLines s := by
  obtain ⟨ls, t, rfl, hls, ht⟩ := exists_rawLines s
  induction ls with
  | nil =>
    change fgetsAll size t = rawLines t
    rw [rawLines_last ht]
    by_cases h : t = []
    · rw [h]
      rfl
    · have hraw : rawLines t = [t] := (rawLines_last ht).trans (if_neg h)
      rw [fgetsAll_last ht (hfits t (hraw ▸ List.mem_singleton_self t))]
  | cons l ls ih =>
    obtain ⟨⟨x, hx, rfl⟩, hls'⟩ := List.forall_mem_cons.mp hls
    rw [List.flatten_cons, List.append_assoc, List.append_assoc, List.singleton_append, rawLines_line hx]
      at hfits ⊢
    rw [fgetsAll_line hx (hfits _ List.mem_cons_self),
      ih (fun l' hl' => hfits l' (List.mem_cons_of_mem _ hl')) hls']

theorem addFront_eq_cons {c : Char} {l : CStr} {ls ps : List CStr} (h : addFront c ps = l :: ls) :
    ∃ p, l = c :: p ∧ (ps = p :: ls ∨ ps = [] ∧ p = [] ∧ ls = []) := by
  cases ps with
  | nil =>
    cases h
    exact ⟨[], rfl, .inr ⟨rfl, rfl, rfl⟩⟩
  | cons p ps =>
    cases h
    exact ⟨p, rfl, .inl rfl⟩

/-- The first string of a file is its first line, as far as there is room, and the other lines begin with
a string each. -/
theorem fgetsFrom_rawLines {size : ℕ} (hsize : 2 ≤ size) {s l : CStr} {ls : List CStr}
    (h : rawLines s = l :: ls) (room : ℕ) :
    ∃ ps, fgetsFrom size room s = l.take (room + 1) :: ps ∧ ∀ l' ∈ ls, l'.take (size - 1) ∈ ps := by
  induction s generalizing l ls room with
  | nil => cases h
  | cons c s ih =>
    rw [rawLines] at h
    rw [fgetsFrom]
    by_cases hc : c = '\n'
    · rw [if_pos hc] at h
      rw [if_pos (.inl hc)]
      cases h
      rw [List.take_succ_cons, List.take_nil]
      refine ⟨_, rfl, fun l' hl' => ?_⟩
      cases hs : rawLines s with
      | nil =>
        rw [hs] at hl'
        exact absurd hl' List.not_mem_nil
      | cons l₁ ls₁ =>
        obtain ⟨ps, heq, hmem⟩ := ih hs (size - 2)
        rw [hs] at hl'
        rw [heq, show size - 2 + 1 = size - 1 by omega]
        rcases List.mem_cons.mp hl' with rfl | hl'
        · exact List.mem_cons_self
        · exact List.mem_cons_of_mem _ (hmem l' hl')
    · rw [if_neg hc] at h
      obtain ⟨p, rfl, hs | ⟨hs, rfl, rfl⟩⟩ := addFront_eq_cons h
      · by_cases hroom : room = 0
        · obtain ⟨ps, heq, hmem⟩ := ih hs (size - 2)
          rw [if_pos (.inr hroom), hroom, heq]
          exact ⟨_, rfl, fun l' hl' => List.mem_cons_of_mem _ (hmem l' hl')⟩
        · obtain ⟨ps, heq, hmem⟩ := ih hs (room - 1)
          rw [if_neg (not_or.mpr ⟨hc, hroom⟩), heq, Nat.sub_add_cancel (Nat.pos_of_ne_zero hroom)]
          exact ⟨ps, rfl, hmem⟩
      · obtain rfl : s = [] := by rw [← flatten_rawLines s, hs]; rfl
        refine ⟨[], ?_, fun l' hl' => absurd hl' List.not_mem_nil⟩
        rw [List.take_succ_cons, List.take_nil]
        split <;> rfl

/-- **Each line begins with a string that is read**, of as many characters as the buffer takes. -/
theorem take_mem_fgetsAll {size : ℕ} (hsize : 2 ≤ size) {s l : CStr} (hl : l ∈ rawLines s) :
    l.take (size - 1) ∈ fgetsAll size s := by
  cases hs : rawLines s with
  | nil =>
    rw [hs] at hl
    exact absurd hl List.not_mem_nil
  | cons l₁ ls₁ =>
    obtain ⟨ps, heq, hmem⟩ := fgetsFrom_rawLines hsize hs (size - 2)
    rw [hs] at hl
    rw [fgetsAll, heq, show size - 2 + 1 = size - 1 by omega]
    rcases List.mem_cons.mp hl with rfl | hl
    · exact List.mem_cons_self
    · exact List.mem_cons_of_mem _ (hmem l hl)

/-! ## Strings in a buffer -/

/-- The string in a buffer: what stands before the first NUL. -/
def content (buf : CStr) : CStr := buf.takeWhile (· != '\x00')

theorem content_of_not_mem {buf : CStr} (h : '\x00' ∉ buf) : content buf = buf := takeWhile_no_delim h

theorem not_mem_content (buf : CStr) : '\x00' ∉ content buf := by
  intro h
  simpa using List.mem_takeWhile_imp h

theorem prefix_content (buf : CStr) : content buf <+: buf := List.takeWhile_prefix _

theorem content_append_nul (s t : CStr) : content (s ++ '\x00' :: t) = content s := by
  induction s with
  | nil => rfl
  | cons c s ih =>
    unfold content at *
    rw [List.cons_append, List.takeWhile_cons, List.takeWhile_cons, ih]

theorem content_drop {buf : CStr} {n : ℕ} (h : n ≤ (content buf).length) :
    content (buf.drop n) = (content buf).drop n := by
  induction n generalizing buf with
  | zero => rfl
  | succ n ih =>
    cases buf with
    | nil => rfl
    | cons c buf =>
      unfold content at *
      rw [List.takeWhile_cons] at h ⊢
      split at h
      case isTrue hc =>
        rw [if_pos hc, List.drop_succ_cons, List.drop_succ_cons]
        exact ih (Nat.le_of_succ_le_succ h)
      case isFalse => exact absurd h (Nat.not_succ_le_zero n)

/-- `buf[strlen(buf) - 1] = 0`; with an empty string it writes in front of the buffer. -/
def chop (buf : CStr) : Option CStr :=
  if content buf = [] then none else some (content buf).dropLast

theorem chop_line {l : CStr} (h : '\x00' ∉ l) : chop (l ++ ['\n']) = some l := by
  have hc : content (l ++ ['\n']) = l ++ ['\n'] :=
    content_of_not_mem (by simp [h])
  rw [chop, hc, if_neg (by simp), List.dropLast_concat]

theorem chop_last {l : CStr} (h : '\x00' ∉ l) (hne : l ≠ []) : chop l = some l.dropLast := by
  rw [chop, content_of_not_mem h, if_neg hne]

/-! ## Pieces of a file -/

/-- A string with a newline at its end, if anywhere. -/
def Piece (l : CStr) : Prop := '\n' ∉ l.dropLast

theorem piece_of_isPrefix {a l : CStr} (h : a <+: l) (hl : Piece l) : Piece a := by
  obtain ⟨t, rfl⟩ := h
  intro hmem
  cases t with
  | nil =>
    rw [List.append_nil] at hl
    exact hl hmem
  | cons c t =>
    apply hl
    rw [List.dropLast_append_of_ne_nil (List.cons_ne_nil c t)]
    exact List.mem_append_left _ (List.mem_of_mem_dropLast hmem)

theorem piece_of_isSuffix {a l : CStr} (h : a <:+ l) (hl : Piece l) : Piece a := by
  obtain ⟨t, rfl⟩ := h
  intro hmem
  have hne : a ≠ [] := by
    rintro rfl
    exact List.not_mem_nil hmem
  apply hl
  rw [List.dropLast_append_of_ne_nil hne]
  exact List.mem_append_right _ hmem

theorem piece_append {a l : CStr} (ha : '\n' ∉ a) (hl : Piece l) : Piece (a ++ l) := by
  cases l with
  | nil =>
    rw [List.append_nil]
    exact fun hmem => ha (List.mem_of_mem_dropLast hmem)
  | cons c l =>
    rw [Piece, List.dropLast_append_of_ne_nil (List.cons_ne_nil c l)]
    exact List.not_mem_append ha hl

theorem piece_cases {l : CStr} (h : Piece l) : Terminated l ∨ '\n' ∉ l := by
  rcases l.eq_nil_or_concat with rfl | ⟨x, c, rfl⟩
  · exact .inr List.not_mem_nil
  · rw [Piece, List.concat_eq_append, List.dropLast_concat] at h
    by_cases hc : c = '\n'
    · exact .inl ⟨x, h, by rw [List.concat_eq_append, hc]⟩
    · refine .inr ?_
      rw [List.concat_eq_append]
      exact List.not_mem_append h (by simpa using Ne.symm hc)

theorem piece_of_not_mem {l : CStr} (h : '\n' ∉ l) : Piece l := fun hmem => h (List.mem_of_mem_dropLast hmem)

theorem forall_addFront {c : Char} {ls : List CStr} (hc : c ≠ '\n') (h : ∀ l ∈ ls, Piece l ∧ l ≠ []) :
    ∀ l ∈ addFront c ls, Piece l ∧ l ≠ [] := by
  have hc' : '\n' ∉ [c] := by simpa using Ne.symm hc
  cases ls with
  | nil =>
    intro l hl
    rw [addFront, List.mem_singleton] at hl
    rw [hl]
    exact ⟨piece_of_not_mem hc', List.cons_ne_nil _ _⟩
  | cons p ps =>
    rw [List.forall_mem_cons] at h
    rw [addFront, List.forall_mem_cons]
    exact ⟨⟨piece_append hc' h.1.1, List.cons_ne_nil _ _⟩, h.2⟩

theorem fgetsAll_piece {size : ℕ} {s : CStr} : ∀ l ∈ fgetsAll size s, Piece l ∧ l ≠ [] := by
  have hfrom : ∀ room, ∀ l ∈ fgetsFrom size room s, Piece l ∧ l ≠ [] := by
    induction s with
    | nil => simp [fgetsFrom]
    | cons c s ih =>
      intro room
      rw [fgetsFrom]
      split
      · rw [List.forall_mem_cons]
        exact ⟨⟨List.not_mem_nil, List.cons_ne_nil _ _⟩, ih _⟩
      case isFalse h => exact forall_addFront (not_or.mp h).1 (ih _)
  exact hfrom _

theorem rawLines_piece (s : CStr) : ∀ l ∈ rawLines s, Piece l ∧ l ≠ [] := by
  induction s with
  | nil => simp [rawLines]
  | cons c s ih =>
    rw [rawLines]
    split
    · rw [List.forall_mem_cons]
      exact ⟨⟨List.not_mem_nil, List.cons_ne_nil _ _⟩, ih⟩
    case isFalse h => exact forall_addFront h ih

theorem lines_length_append {w : CStr} (hw : '\n' ∉ w) (s : CStr) :
    (lines (w ++ s)).length ≤ max 1 (lines s).length := by
  induction w with
  | nil => exact le_max_right _ _
  | cons c w ih =>
    rw [List.mem_cons, not_or] at hw
    have hle := ih hw.2
    rw [List.cons_append, lines, if_neg (Ne.symm hw.1)]
    cases h : lines (w ++ s) with
    | nil => exact le_max_left _ _
    | cons p ps =>
      rw [h] at hle
      exact hle

theorem lines_terminated_append {x : CStr} (hx : '\n' ∉ x) (s : CStr) :
    lines (x ++ ['\n'] ++ s) = x :: lines s := by
  rw [lines_eq_map_chomp, lines_eq_map_chomp, List.append_assoc, List.singleton_append, rawLines_line hx]
  exact congrArg (· :: _) (takeWhile_append_delim hx [])

/-- **Pieces make a line each at most, and all of them only if each but the last has its newline.** -/
theorem lines_length_flatten {ls : List CStr} (h : ∀ l ∈ ls, Piece l) :
    (lines ls.flatten).length ≤ ls.length ∧
      ((lines ls.flatten).length = ls.length → ∀ l ∈ ls.dropLast, Terminated l) := by
  induction ls with
  | nil => exact ⟨le_rfl, fun _ l hl => absurd hl List.not_mem_nil⟩
  | cons w ls ih =>
    rw [List.forall_mem_cons] at h
    obtain ⟨hle, hall⟩ := ih h.2
    rw [List.flatten_cons, List.length_cons]
    rcases piece_cases h.1 with ⟨x, hx, rfl⟩ | hw
    · rw [lines_terminated_append hx, List.length_cons]
      refine ⟨Nat.succ_le_succ hle, fun heq => ?_⟩
      cases ls with
      | nil => exact fun l hl => absurd hl List.not_mem_nil
      | cons y ls =>
        rw [List.dropLast_cons_of_ne_nil (List.cons_ne_nil y ls), List.forall_mem_cons]
        exact ⟨⟨x, hx, rfl⟩, hall (Nat.succ.inj heq)⟩
    · have happ := lines_length_append hw ls.flatten
      refine ⟨by omega, fun heq => ?_⟩
      have hnil : ls = [] := List.length_eq_zero_iff.mp (by omega)
      rw [hnil]
      exact fun l hl => absurd hl List.not_mem_nil

theorem lines_flatten {ls : List CStr} (h : ∀ l ∈ ls, Piece l ∧ l ≠ []) (hall : ∀ l ∈ ls.dropLast, Terminated l) :
    lines ls.flatten = ls.map chomp := by
  rcases ls.eq_nil_or_concat with rfl | ⟨init, t, rfl⟩
  · rfl
  · rw [List.concat_eq_append] at h hall ⊢
    rw [List.dropLast_concat] at hall
    obtain ⟨hpiece, hne⟩ := h t (List.mem_append_right _ (List.mem_singleton_self t))
    have hlast : rawLines t = [t] := by
      rcases piece_cases hpiece with ht | ht
      · exact rawLines_terminated ht
      · rw [rawLines_last ht, if_neg hne]
    rw [lines_eq_map_chomp, List.flatten_append, List.flatten_singleton, rawLines_flatten hall, hlast]

end TextFile
