import Fms.Adm.CheckSubRep

/-!
# The editor of an agent's subscriptions

src/tools/fmsadm/config.c: `fmd_add_agent_conf` shows the lines of the .conf file that mention a
subscription, one after the other, reads for each of them what is to be done, and writes the file
anew.

* `fmdAddAgentConf`: the code; a text that does not fit its buffer has no result;
* `edited`: what the answers make of the lines;
* `AllAnswered`: every line is shown and answered, up to a `quit`;
* **`written_edited`**: what the code writes, beside what it should write;
* **`editRight_iff`**: when the new file is what the answers make of the old one, with
  **`editRight_of_lines`** for a file and answers that are lines.
-/

namespace Fms

open CString TextFile

/-- `PATH_MAX` -/
def pathMax : ℕ := 4096

/-- What an answer asks for. -/
inductive Answer where
  /-- An accepted subscription, with what is behind its colon. -/
  | add (text : CStr)
  | del
  | quit
  | next
  /-- The end of the input. -/
  | eof
  deriving DecidableEq

section
variable (check : CStr → Option Bool)

/-- The tests of an answer: `none` where the question is asked again. `check` stands for `check_esc` and
`check_sub_rep`. -/
def classify (buff : CStr) : Option (Option Answer) :=
  if strncmpEq buff "add".toList 3 then
    (check buff).map fun ok =>
      if ok then some (.add (((strstr ":".toList buff).getD []).drop 1)) else none
  else if strncmpEq buff "del".toList 3 ∧ buff.length = 4 then some (some .del)
  else if strncmpEq buff "quit".toList 4 ∧ buff.length = 5 then some (some .quit)
  else if strncmpEq buff "\n".toList 1 then some (some .next)
  else some none

/-- The loop `while (std)`: the answer that ends it, and the answers behind. -/
def prompt : List CStr → Option (Answer × List CStr)
  | [] => some (.eof, [])
  | buff :: answers =>
    (classify check (content buff)).bind fun
      | none => prompt answers
      | some a => some (a, answers)

/-- `sprintf(buffer, "%s..", buffer, ..)` -/
def putText (buffer s : CStr) : Option CStr := store pathMax (buffer ++ s)

/-- `strstr(buf, "subscribe") != NULL` -/
def mentions (buf : CStr) : Bool := (strstr "subscribe".toList (content buf)).isSome

/-- The loop over the lines: from `ready` on they are copied. -/
def editLoop : List CStr → List CStr → Bool → CStr → Option CStr
  | [], _, _, buffer => some buffer
  | buf :: bufs, answers, true, buffer =>
    (putText buffer (content buf)).bind (editLoop bufs answers true)
  | buf :: bufs, answers, false, buffer =>
    if mentions buf = false then editLoop bufs answers false buffer
    else
      (prompt check answers).bind fun
        | (.add text, answers) =>
          (putText buffer (content buf)).bind fun buffer =>
            (putText buffer (subscribe ++ text)).bind (editLoop bufs answers false)
        | (.del, answers) => editLoop bufs answers false buffer
        | (.quit, answers) => (putText buffer (content buf)).bind (editLoop bufs answers true)
        | (.next, answers) => (putText buffer (content buf)).bind (editLoop bufs answers false)
        | (.eof, answers) => editLoop bufs answers false buffer

end

/-- `check_esc(buff, mod_name) == 0` and `check_sub_rep(buff, mod_name) == 0` -/
def checkAdd (fs : CStr → Option CStr) (modName buff : CStr) : Option Bool :=
  (checkEsc fs buff modName).bind fun esc =>
    if esc = 0 then (checkSubRep fs buff modName).map fun rep => rep = 0 else some false

/-- `fmd_add_agent_conf`: what it returns, and the files behind it. -/
def fmdAddAgentConf (fs : CStr → Option CStr) (writable : CStr → Bool) (stdin modName : CStr) :
    Option (ℤ × (CStr → Option CStr)) :=
  (confPath modName).bind fun filename =>
    if (strstr "agent".toList modName).isSome = false then some (-1, fs)
    else
      match fs filename with
      | none => some (-1, fs)
      | some conf =>
        (editLoop (checkAdd fs modName) (fgetsAll lineLen conf) (fgetsAll lineLen stdin) false []).map
          fun buffer =>
            if writable filename = false then (-1, fs)
            else (0, Function.update fs filename (some buffer))

/-! ## What the answers make of the lines -/

section
variable (check : CStr → Option Bool)

/-- The lines of the new file: those of the old one in their order, without the ones that are deleted,
and with the accepted subscriptions. -/
def edited : List CStr → List CStr → Option (List CStr)
  | [], _ => some []
  | l :: ls, answers =>
    if mentions l = false then (edited ls answers).map (l :: ·)
    else
      (prompt check answers).bind fun
        | (.add text, answers) => (edited ls answers).map fun ls' => l :: (subscribe ++ text) :: ls'
        | (.del, answers) => edited ls answers
        | (.next, answers) => (edited ls answers).map (l :: ·)
        | (.quit, _) | (.eof, _) => some (l :: ls)

/-- Every line is shown and gets an answer, up to the one that is answered by `quit`. -/
def AllAnswered : List CStr → List CStr → Prop
  | [], _ => True
  | l :: ls, answers =>
    mentions l = true ∧
      match prompt check answers with
      | none | some (.eof, _) => False
      | some (.quit, _) => True
      | some (_, answers) => AllAnswered ls answers

/-- The strings that the code writes one after the other. -/
def written : List CStr → List CStr → Option (List CStr)
  | [], _ => some []
  | l :: ls, answers =>
    if mentions l = false then written ls answers
    else
      (prompt check answers).bind fun
        | (.add text, answers) =>
          (written ls answers).map fun ls' => content l :: (subscribe ++ text) :: ls'
        | (.del, answers) => written ls answers
        | (.next, answers) => (written ls answers).map (content l :: ·)
        | (.quit, _) => some ((l :: ls).map content)
        | (.eof, _) => some []

end

/-- A run of the editor on a file: the lines fit their buffer, and what the answers make of them fits
the buffer for the file. -/
structure EditSession where
  fs : CStr → Option CStr
  writable : CStr → Bool
  stdin : CStr
  modName : CStr
  path : CStr
  conf : CStr
  path_eq : confPath modName = some path
  agent : "agent".toList <:+: modName
  opened : fs path = some conf
  canWrite : writable path = true
  fits : ∀ l ∈ rawLines conf, Fits lineLen l
  room : ∀ ls ∈ edited (checkAdd fs modName) (rawLines conf) (fgetsAll lineLen stdin),
    ls.flatten.length < pathMax

namespace EditSession

variable (s : EditSession)

/-- The lines of the new file as they should be. -/
def expected : Option (List CStr) :=
  edited (checkAdd s.fs s.modName) (rawLines s.conf) (fgetsAll lineLen s.stdin)

/-- The file has the lines that the answers make of it, and every other file is what it was. -/
def EditRight : Prop :=
  ∃ fs', fmdAddAgentConf s.fs s.writable s.stdin s.modName = some (0, fs') ∧
    (∀ p ≠ s.path, fs' p = s.fs p) ∧
    ∃ out, fs' s.path = some out ∧ s.expected.map (List.map chomp) = some (lines out)

end EditSession

/-! ## What the code writes -/

theorem store_bind_store (n : ℕ) (a t : CStr) :
    ((store n a).bind fun b => store n (b ++ t)) = store n (a ++ t) := by
  by_cases h : a.length < n
  · rw [store_fits h, Option.bind_some]
  · have hlong : ¬ (a ++ t).length < n := by
      rw [List.length_append]
      omega
    rw [store_overflow h, store_overflow hlong, Option.bind_none]

section
variable {check : CStr → Option Bool}

theorem classify_ne_eof {buff : CStr} : classify check buff ≠ some (some .eof) := by
  unfold classify
  split
  · cases check buff with
    | none => simp
    | some ok => cases ok <;> simp
  · split_ifs <;> simp

theorem classify_add {buff text : CStr} (h : classify check buff = some (some (.add text))) :
    check buff = some true ∧ text = ((strstr ":".toList buff).getD []).drop 1 := by
  unfold classify at h
  split at h
  · obtain ⟨ok, hok, h⟩ := Option.map_eq_some_iff.mp h
    split at h
    case isTrue htrue =>
      cases h
      exact ⟨htrue ▸ hok, rfl⟩
    case isFalse => cases h
  · split_ifs at h <;> cases h

theorem strstr_colon_eq (s : CStr) : strstr ":".toList s = strchr ':' s := strstr_singleton ':' s

theorem classify_suffix {buff text : CStr} (h : classify check buff = some (some (.add text))) : text <:+ buff := by
  obtain ⟨-, rfl⟩ := classify_add h
  rw [strstr_colon_eq]
  by_cases hmem : ':' ∈ buff
  · rw [strchr_of_mem hmem]
    exact (List.drop_suffix 1 _).trans (List.dropWhile_suffix _)
  · rw [Option.not_isSome_iff_eq_none.mp (mt strchr_isSome.mp hmem)]
    exact List.nil_suffix

theorem prompt_spec {answers rest : List CStr} {a : Answer} (h : prompt check answers = some (a, rest)) :
    rest <:+ answers ∧
      ((a = .eof ∧ rest = []) ∨ ∃ buff ∈ answers, classify check (content buff) = some (some a)) := by
  induction answers with
  | nil =>
    cases h
    exact ⟨List.suffix_refl _, Or.inl ⟨rfl, rfl⟩⟩
  | cons buff answers ih =>
    obtain ⟨r, hr, h⟩ := Option.bind_eq_some_iff.mp h
    cases r with
    | none =>
      obtain ⟨hrest, hcases⟩ := ih h
      refine ⟨hrest.trans (List.suffix_cons buff answers), hcases.imp_right ?_⟩
      rintro ⟨b, hb, hclass⟩
      exact ⟨b, List.mem_cons_of_mem buff hb, hclass⟩
    | some a' =>
      cases h
      exact ⟨List.suffix_cons buff _, Or.inr ⟨buff, List.mem_cons_self, hr⟩⟩

theorem prompt_eof {answers rest : List CStr} (h : prompt check answers = some (.eof, rest)) : rest = [] := by
  rcases (prompt_spec h).2 with ⟨-, hrest⟩ | ⟨buff, -, hclass⟩
  · exact hrest
  · exact absurd hclass classify_ne_eof

theorem prompt_add {answers rest : List CStr} {text : CStr} (h : prompt check answers = some (.add text, rest)) :
    ∃ buff ∈ answers, classify check (content buff) = some (some (.add text)) := by
  rcases (prompt_spec h).2 with ⟨hadd, -⟩ | hclass
  · cases hadd
  · exact hclass

/-- Some strings are appended one after the other. -/
def putAll (buffer : CStr) (ls : List CStr) : Option CStr := store pathMax (buffer ++ ls.flatten)

theorem putText_bind_putAll (buffer l : CStr) (ls : List CStr) :
    ((putText buffer l).bind fun buffer => putAll buffer ls) = putAll buffer (l :: ls) := by
  rw [putAll, List.flatten_cons, ← List.append_assoc]
  exact store_bind_store pathMax (buffer ++ l) ls.flatten

theorem putAll_nil {buffer : CStr} (h : buffer.length < pathMax) : putAll buffer [] = some buffer := by
  rw [putAll, List.flatten_nil, List.append_nil, store_fits h]

theorem putText_bind {buffer l : CStr} {f : CStr → Option CStr} {r : Option (List CStr)}
    (h : ∀ buffer : CStr, buffer.length < pathMax → f buffer = r.bind (putAll buffer)) :
    (putText buffer l).bind f = (r.map (l :: ·)).bind (putAll buffer) := by
  have hf : (putText buffer l).bind f = (putText buffer l).bind fun buffer => r.bind (putAll buffer) := by
    cases hput : putText buffer l with
    | none => rfl
    | some buffer' =>
      obtain ⟨hfits, rfl⟩ := store_eq_some.mp hput
      exact h _ hfits
  rw [hf]
  cases r with
  | none => cases putText buffer l <;> rfl
  | some ls => exact putText_bind_putAll buffer l ls

theorem editLoop_ready (bufs answers : List CStr) {buffer : CStr} (h : buffer.length < pathMax) :
    editLoop check bufs answers true buffer = putAll buffer (bufs.map content) := by
  induction bufs generalizing buffer with
  | nil => exact (putAll_nil h).symm
  | cons buf bufs ih =>
    rw [editLoop]
    exact putText_bind (r := some (bufs.map content)) fun buffer hb => ih hb

theorem editLoop_eof (bufs : List CStr) (buffer : CStr) :
    editLoop check bufs [] false buffer = some buffer := by
  induction bufs with
  | nil => rfl
  | cons buf bufs ih =>
    rw [editLoop]
    split
    · exact ih
    · exact ih

/-- **The buffer behind the loop.** -/
theorem editLoop_eq (bufs answers : List CStr) {buffer : CStr} (h : buffer.length < pathMax) :
    editLoop check bufs answers false buffer = (written check bufs answers).bind (putAll buffer) := by
  induction bufs generalizing answers buffer with
  | nil => exact (putAll_nil h).symm
  | cons buf bufs ih =>
    rw [editLoop, written]
    split
    · exact ih answers h
    · rw [Option.bind_assoc]
      cases hprompt : prompt check answers with
      | none => rfl
      | some r =>
        obtain ⟨a, answers'⟩ := r
        cases a with
        | add text =>
          have hadd := @putText_bind buffer (content buf) (fun buffer =>
            (putText buffer (subscribe ++ text)).bind (editLoop check bufs answers' false))
            ((written check bufs answers').map ((subscribe ++ text) :: ·))
            fun buffer _ => putText_bind fun buffer hb => ih answers' hb
          rw [Option.map_map] at hadd
          exact hadd
        | del => exact ih answers' h
        | next => exact putText_bind fun buffer hb => ih answers' hb
        | quit =>
          exact putText_bind (r := some (bufs.map content)) fun buffer hb => editLoop_ready bufs answers' hb
        | eof =>
          rw [prompt_eof hprompt]
          exact (editLoop_eof bufs buffer).trans (putAll_nil h).symm

/-! ## What the code writes, beside what it should -/

/-- The strings are lines or pieces of lines. -/
def Pieces (ls : List CStr) : Prop := ∀ l ∈ ls, Piece l ∧ l ≠ []

theorem Pieces.suffix {ls ls' : List CStr} (h : Pieces ls) (hs : ls' <:+ ls) : Pieces ls' :=
  fun l hl => h l (hs.subset hl)

theorem pieces_cons {l : CStr} {ls : List CStr} : Pieces (l :: ls) ↔ (Piece l ∧ l ≠ []) ∧ Pieces ls :=
  List.forall_mem_cons

theorem piece_content {l : CStr} (h : Piece l) : Piece (content l) := piece_of_isPrefix (prefix_content l) h

/-- What is written has no more strings than what should be, and as many only if `P`; then it is the
same, up to what is behind a NUL. -/
structure Beside (P : Prop) (w e : List CStr) : Prop where
  written : ∀ l ∈ w, Piece l
  pieces : Pieces e
  le : w.length ≤ e.length
  complete : w.length = e.length → P
  same : P → w = e.map content

/-- The code writes nothing exactly if there is nothing that it should write. -/
inductive Outputs (P : Prop) : Option (List CStr) → Option (List CStr) → Prop
  | undefined (h : ¬ P) : Outputs P none none
  | beside {w e : List CStr} (h : Beside P w e) : Outputs P (some w) (some e)

section
variable {P Q : Prop} {w e : Option (List CStr)} {l : CStr}

theorem Outputs.keep (hl : Piece l ∧ l ≠ []) (h : Outputs P w e) :
    Outputs P (w.map (content l :: ·)) (e.map (l :: ·)) := by
  cases h with
  | undefined hP => exact .undefined hP
  | beside h =>
    refine .beside ⟨?_, pieces_cons.mpr ⟨hl, h.pieces⟩, Nat.succ_le_succ h.le, ?_, ?_⟩
    · exact List.forall_mem_cons.mpr ⟨piece_content hl.1, h.written⟩
    · exact fun heq => h.complete (Nat.succ.inj heq)
    · intro hP
      rw [h.same hP, List.map_cons]

theorem Outputs.lose (hl : Piece l ∧ l ≠ []) (hQ : ¬ Q) (h : Outputs P w e) :
    Outputs Q w (e.map (l :: ·)) := by
  cases h with
  | undefined => exact .undefined hQ
  | beside h =>
    have hle := h.le
    refine .beside ⟨h.written, pieces_cons.mpr ⟨hl, h.pieces⟩, Nat.le_succ_of_le hle, ?_, ?_⟩
    · intro heq
      rw [List.length_cons] at heq
      omega
    · exact fun hq => absurd hq hQ

end

theorem beside_content {ls : List CStr} (h : Pieces ls) : Beside True (ls.map content) ls where
  written := by
    intro x hx
    obtain ⟨l, hl, rfl⟩ := List.mem_map.mp hx
    exact piece_content (h l hl).1
  pieces := h
  le := (List.length_map content).le
  complete _ := trivial
  same _ := rfl

theorem beside_nil {l : CStr} {ls : List CStr} (h : Pieces (l :: ls)) : Beside False [] (l :: ls) where
  written := by simp
  pieces := h
  le := Nat.zero_le _
  complete heq := by cases heq
  same := False.elim

theorem subscribe_text {answers : List CStr} (hans : Pieces answers) {text : CStr}
    (h : ∃ buff ∈ answers, classify check (content buff) = some (some (.add text))) :
    (Piece (subscribe ++ text) ∧ subscribe ++ text ≠ []) ∧
      content (subscribe ++ text) = subscribe ++ text := by
  obtain ⟨buff, hbuff, hclass⟩ := h
  have htext : text <:+ content buff := classify_suffix hclass
  have hpiece : Piece text := piece_of_isSuffix htext (piece_content (hans buff hbuff).1)
  have hnul : '\x00' ∉ text := fun hmem => not_mem_content buff (htext.subset hmem)
  refine ⟨⟨piece_append (by decide) hpiece, List.append_ne_nil_of_left_ne_nil (by decide) _⟩, ?_⟩
  exact content_of_not_mem (List.not_mem_append (by decide) hnul)

/-- **The code writes what the answers make of the lines, but for the lines that are not shown or not
answered.** -/
theorem written_edited {ls answers : List CStr} (hls : Pieces ls) (hans : Pieces answers) :
    Outputs (AllAnswered check ls answers) (written check ls answers) (edited check ls answers) := by
  induction ls generalizing answers with
  | nil => exact .beside ⟨by simp, by simp [Pieces], le_rfl, fun _ => trivial, fun _ => rfl⟩
  | cons l ls ih =>
    obtain ⟨hl, hls'⟩ := pieces_cons.mp hls
    rw [written, edited, AllAnswered]
    by_cases hmention : mentions l = false
    · rw [if_pos hmention, if_pos hmention]
      exact (ih hls' hans).lose hl (by simp [hmention])
    · have hshown : mentions l = true := by simpa using hmention
      rw [if_neg hmention, if_neg hmention]
      simp only [hshown, true_and]
      cases hprompt : prompt check answers with
      | none => exact .undefined id
      | some r =>
        obtain ⟨a, answers'⟩ := r
        have ih' := ih hls' (hans.suffix (prompt_spec hprompt).1)
        cases a with
        | add text =>
          obtain ⟨hsub, hsame⟩ := subscribe_text hans (prompt_add hprompt)
          have hboth := (ih'.keep hsub).keep hl
          rw [hsame, Option.map_map, Option.map_map] at hboth
          exact hboth
        | del => exact ih'
        | next => exact ih'.keep hl
        | quit => exact .beside (beside_content hls)
        | eof => exact .beside (beside_nil hls)

end

/-! ## When the file is right -/

theorem piece_eq_chomp {l : CStr} (h : Piece l) : l = chomp l ∨ l = chomp l ++ ['\n'] := by
  rcases piece_cases h with ⟨x, hx, rfl⟩ | hl
  · right
    rw [show chomp (x ++ ['\n']) = x from takeWhile_append_delim hx []]
  · left
    exact (takeWhile_no_delim hl).symm

theorem nul_mem_chomp {l : CStr} (h : Piece l) (hnul : '\x00' ∈ l) : '\x00' ∈ chomp l := by
  rcases piece_eq_chomp h with heq | heq
  · exact heq ▸ hnul
  · rw [heq, List.mem_append] at hnul
    exact hnul.resolve_right (by decide)

theorem not_mem_map_content (ls : List CStr) : '\x00' ∉ (ls.map content).flatten := by
  intro h
  obtain ⟨x, hx, hmem⟩ := List.mem_flatten.mp h
  obtain ⟨l, -, rfl⟩ := List.mem_map.mp hx
  exact not_mem_content l hmem

theorem not_mem_lines {t : CStr} {c : Char} (h : c ∉ t) : ∀ l ∈ lines t, c ∉ l := by
  intro l hl hmem
  rw [lines_eq_map_chomp] at hl
  obtain ⟨raw, hraw, rfl⟩ := List.mem_map.mp hl
  have hc : c ∈ raw := (List.takeWhile_prefix _).subset hmem
  exact not_mem_rawLines h raw hraw hc

theorem map_content_eq {ls : List CStr} (h : ∀ l ∈ ls, '\x00' ∉ l) : ls.map content = ls := by
  calc
    ls.map content = ls.map id := List.map_congr_left fun l hl => content_of_not_mem (h l hl)
    _ = ls := List.map_id ls

/-- The lines of the new file are strings without NUL, and each but the last ends with a newline. -/
def Clean (e : List CStr) : Prop :=
  (∀ l ∈ e, '\x00' ∉ l) ∧ ∀ l ∈ e.dropLast, Terminated l

/-- **The strings that are written have the lines that they should have.** -/
theorem lines_written {w e : List CStr} {P : Prop} (hbeside : Beside P w e) :
    lines w.flatten = e.map chomp ↔ P ∧ Clean e := by
  constructor
  · intro h
    obtain ⟨hle, hterm⟩ := lines_length_flatten hbeside.written
    have hlen := congrArg List.length h
    rw [List.length_map] at hlen
    have hwe : w.length = e.length := le_antisymm hbeside.le (hlen ▸ hle)
    have hP : P := hbeside.complete hwe
    have hsame : w = e.map content := hbeside.same hP
    have hnul : ∀ l ∈ e, '\x00' ∉ l := by
      intro l hl hmem
      have hline : chomp l ∈ lines w.flatten := h ▸ List.mem_map_of_mem hl
      have hno : '\x00' ∉ w.flatten := hsame ▸ not_mem_map_content e
      exact not_mem_lines hno _ hline (nul_mem_chomp (hbeside.pieces l hl).1 hmem)
    have hwords : w = e := hsame.trans (map_content_eq hnul)
    exact ⟨hP, hnul, hwords ▸ hterm (hlen.trans hwe.symm)⟩
  · rintro ⟨hP, hnul, hterm⟩
    have hwords : w = e := (hbeside.same hP).trans (map_content_eq hnul)
    rw [hwords]
    exact lines_flatten hbeside.pieces hterm

/-! ## Lines that are kept -/

/-- A line with its newline and without a NUL. -/
def CleanLine (l : CStr) : Prop := Terminated l ∧ '\x00' ∉ l

theorem clean_of_lines {e : List CStr} (h : ∀ l ∈ e, CleanLine l) : Clean e :=
  ⟨fun l hl => (h l hl).2, fun l hl => (h l (List.mem_of_mem_dropLast hl)).1⟩

theorem cleanLine_accepted {fs : CStr → Option CStr} {modName buff text : CStr} (hbuff : CleanLine buff)
    (h : classify (checkAdd fs modName) (content buff) = some (some (.add text))) :
    CleanLine (subscribe ++ text) := by
  obtain ⟨⟨x, hx, rfl⟩, hnul⟩ := hbuff
  rw [content_of_not_mem hnul] at h
  obtain ⟨hok, rfl⟩ := classify_add h
  obtain ⟨esc, hesc, hrep⟩ := Option.bind_eq_some_iff.mp hok
  have hzero : esc = 0 := by
    by_contra hne
    rw [if_neg hne] at hrep
    cases hrep
  rw [hzero] at hesc
  obtain ⟨subhead, hhead, -⟩ := checkEsc_form hesc
  have hcolon : ':' ∈ x := by
    obtain ⟨hpre, hsuf⟩ := strstr_eq_some hhead
    have hmem : ':' ∈ subhead := hpre.subset (by decide +kernel)
    have hmem' : ':' ∈ x ++ ['\n'] := hsuf.subset hmem
    rw [List.mem_append] at hmem'
    exact hmem'.resolve_right (by decide)
  obtain ⟨front, t, rfl, hfront⟩ := List.eq_append_cons_of_mem hcolon
  have htext : ((strstr ":".toList (front ++ ':' :: t ++ ['\n'])).getD []).drop 1 = t ++ ['\n'] := by
    rw [strstr_colon_eq, List.append_assoc, List.cons_append, strchr_append_cons hfront]
    rfl
  have ht : t ++ ['\n'] <:+ front ++ ':' :: t ++ ['\n'] :=
    ⟨front ++ [':'], by rw [List.append_assoc, List.append_assoc]; rfl⟩
  have hnewline : '\n' ∉ t := fun hmem => hx (List.mem_append_right _ (List.mem_cons_of_mem _ hmem))
  rw [htext]
  refine ⟨⟨subscribe ++ t, List.not_mem_append (by decide) hnewline, (List.append_assoc _ _ _).symm⟩, ?_⟩
  exact List.not_mem_append (by decide) fun hmem => hnul (ht.subset hmem)

theorem edited_cleanLine {check : CStr → Option Bool} {ls answers e : List CStr}
    (hls : ∀ l ∈ ls, CleanLine l)
    (hadd : ∀ buff ∈ answers, ∀ text, classify check (content buff) = some (some (.add text)) →
      CleanLine (subscribe ++ text))
    (h : edited check ls answers = some e) : ∀ l ∈ e, CleanLine l := by
  induction ls generalizing answers e with
  | nil =>
    cases h
    simp
  | cons l ls ih =>
    obtain ⟨hl, hls'⟩ := List.forall_mem_cons.mp hls
    rw [edited] at h
    split at h
    · obtain ⟨e', he', rfl⟩ := Option.map_eq_some_iff.mp h
      exact List.forall_mem_cons.mpr ⟨hl, ih hls' hadd he'⟩
    · obtain ⟨⟨a, answers'⟩, hprompt, h⟩ := Option.bind_eq_some_iff.mp h
      have hsuffix : answers' <:+ answers := (prompt_spec hprompt).1
      have ih' {e' : List CStr} (he' : edited check ls answers' = some e') : ∀ l ∈ e', CleanLine l :=
        ih hls' (fun buff hbuff => hadd buff (hsuffix.subset hbuff)) he'
      cases a with
      | add text =>
        obtain ⟨e', he', rfl⟩ := Option.map_eq_some_iff.mp h
        obtain ⟨buff, hbuff, hclass⟩ := prompt_add hprompt
        rw [List.forall_mem_cons, List.forall_mem_cons]
        exact ⟨hl, hadd buff hbuff text hclass, ih' he'⟩
      | del => exact ih' h
      | next =>
        obtain ⟨e', he', rfl⟩ := Option.map_eq_some_iff.mp h
        exact List.forall_mem_cons.mpr ⟨hl, ih' he'⟩
      | quit =>
        cases h
        exact hls
      | eof =>
        cases h
        exact hls

namespace EditSession

variable (s : EditSession)

theorem agent_isSome : (strstr "agent".toList s.modName).isSome = true := strstr_isSome.mpr s.agent

/-- **What the code writes.** -/
theorem fmdAddAgentConf_eq :
    fmdAddAgentConf s.fs s.writable s.stdin s.modName =
      ((written (checkAdd s.fs s.modName) (rawLines s.conf) (fgetsAll lineLen s.stdin)).bind
        (putAll [])).map fun buffer => (0, Function.update s.fs s.path (some buffer)) := by
  have hbuffer : ([] : CStr).length < pathMax := by decide
  rw [fmdAddAgentConf, s.path_eq, Option.bind_some, s.agent_isSome, if_neg (by decide), s.opened]
  dsimp only
  rw [editLoop_eq _ _ hbuffer, fgetsAll_of_fits s.fits, s.canWrite]
  rfl

/-- **The file is what the answers make of it exactly if every line up to the one that is answered by
`quit` is shown and answered, and the strings that are written are lines.** -/
theorem editRight_iff (s : EditSession) :
    s.EditRight ↔
      AllAnswered (checkAdd s.fs s.modName) (rawLines s.conf) (fgetsAll lineLen s.stdin) ∧
        ∀ e ∈ s.expected, Clean e := by
  have hls : Pieces (rawLines s.conf) := rawLines_piece s.conf
  have hans : Pieces (fgetsAll lineLen s.stdin) := fgetsAll_piece
  have hcode := s.fmdAddAgentConf_eq
  have houtputs := @written_edited (checkAdd s.fs s.modName) _ _ hls hans
  generalize written (checkAdd s.fs s.modName) (rawLines s.conf) (fgetsAll lineLen s.stdin) = w
    at hcode houtputs
  generalize he : edited (checkAdd s.fs s.modName) (rawLines s.conf) (fgetsAll lineLen s.stdin) = e
    at houtputs
  cases houtputs with
  | undefined hincomplete =>
    refine iff_of_false ?_ fun h => hincomplete h.1
    rintro ⟨fs', hrun, -⟩
    rw [hcode] at hrun
    cases hrun
  | @beside w e hbeside =>
    have hexpected : s.expected = some e := he
    have hlines := lines_written hbeside
    rw [Option.bind_some, putAll, List.nil_append] at hcode
    constructor
    · rintro ⟨fs', hrun, -, out, hout, hright⟩
      rw [hcode] at hrun
      obtain ⟨buffer, hstore, heq⟩ := Option.map_eq_some_iff.mp hrun
      obtain ⟨-, rfl⟩ := store_eq_some.mp hstore
      obtain rfl := (Prod.mk.inj heq).2
      rw [Function.update_self, Option.some_inj] at hout
      rw [hexpected, Option.map_some, Option.some_inj, ← hout] at hright
      obtain ⟨hcomplete, hclean⟩ := hlines.mp hright.symm
      refine ⟨hcomplete, fun e' he' => ?_⟩
      rw [hexpected, Option.mem_some_iff] at he'
      exact he' ▸ hclean
    · rintro ⟨hcomplete, hclean⟩
      have hclean' : Clean e := hclean e hexpected
      have hwords : w = e := (hbeside.same hcomplete).trans (map_content_eq hclean'.1)
      have hfit : w.flatten.length < pathMax := hwords ▸ s.room e hexpected
      rw [store_fits hfit] at hcode
      refine ⟨_, hcode, fun p hp => Function.update_of_ne hp _ _, w.flatten, Function.update_self _ _ _, ?_⟩
      rw [hexpected, Option.map_some, hlines.mpr ⟨hcomplete, hclean'⟩]

/-- **If the file and the input are lines, only lines that are not shown or not answered are lost.** -/
theorem editRight_of_lines (s : EditSession) (hconf : ∀ l ∈ rawLines s.conf, CleanLine l)
    (hstdin : ∀ l ∈ rawLines s.stdin, CleanLine l ∧ Fits lineLen l) :
    s.EditRight ↔ AllAnswered (checkAdd s.fs s.modName) (rawLines s.conf) (fgetsAll lineLen s.stdin) := by
  have hanswers : fgetsAll lineLen s.stdin = rawLines s.stdin :=
    fgetsAll_of_fits fun l hl => (hstdin l hl).2
  rw [editRight_iff]
  refine and_iff_left_of_imp fun _ e he => clean_of_lines ?_
  refine edited_cleanLine hconf (fun buff hbuff text hclass => ?_) he
  rw [hanswers] at hbuff
  exact cleanLine_accepted (hstdin buff hbuff).1 hclass

/-- **Without any input only the empty file is kept.** -/
theorem editRight_noInput (s : EditSession) (h : s.stdin = []) : s.EditRight ↔ s.conf = [] := by
  have hanswers : fgetsAll lineLen s.stdin = [] := by rw [h]; rfl
  rw [editRight_iff, hanswers]
  constructor
  · rintro ⟨hall, -⟩
    have hflat := flatten_rawLines s.conf
    cases hlines : rawLines s.conf with
    | nil =>
      rw [hlines] at hflat
      exact hflat.symm
    | cons l ls =>
      rw [hlines] at hall
      exact hall.2.elim
  · intro hconf
    have hlines : rawLines s.conf = [] := by rw [hconf]; rfl
    have hexpected : s.expected = some [] := by rw [expected, hlines]; rfl
    rw [hlines]
    refine ⟨trivial, fun e he => ?_⟩
    rw [hexpected, Option.mem_some_iff] at he
    subst he
    exact ⟨by simp, by simp⟩

/-- A comment in front of the first subscription, and `quit` for an answer. -/
def comment : EditSession where
  fs path :=
    if path = "/usr/lib/fms/plugins/cpumem_agent.conf".toList then some "# cpu\nsubscribe event.cpu.x\n".toList
    else none
  writable _ := true
  stdin := "quit\n".toList
  modName := "cpumem_agent".toList
  path := "/usr/lib/fms/plugins/cpumem_agent.conf".toList
  conf := "# cpu\nsubscribe event.cpu.x\n".toList
  path_eq := by decide +kernel
  agent := ⟨"cpumem_".toList, [], rfl⟩
  opened := if_pos rfl
  canWrite := rfl
  fits := by decide +kernel
  room := by decide +kernel

/-- The comment is lost. -/
theorem editRight_comment : ¬ comment.EditRight := by
  rintro ⟨fs', hrun, -, out, hout, hright⟩
  have hcode : (fmdAddAgentConf comment.fs comment.writable comment.stdin comment.modName).bind
      (fun r => r.2 comment.path) = some "subscribe event.cpu.x\n".toList := by decide +kernel
  rw [hrun, Option.bind_some] at hcode
  dsimp only at hcode
  rw [hout, Option.some_inj] at hcode
  have hexpected : comment.expected.map (List.map chomp) =
      some ["# cpu".toList, "subscribe event.cpu.x".toList] := by decide +kernel
  rw [hexpected, hcode, Option.some_inj] at hright
  exact absurd hright (by decide +kernel)

end EditSession

end Fms
