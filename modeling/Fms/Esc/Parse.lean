import Fms.Case
import Fms.Lib.TextFile

/-!
# The rules files

lib/libesc/esc_main.c: `escParsefile` reads a file of declarations line by line and adds a rule to the
lists of `fmd_esc_t` for each of them. `none` is an access outside a buffer or through the null pointer
of a failed search.

An arithmetic overflow of an `int` has no defined result: `ovf` says what the machine makes of it.

* `EscEntry`, `EscLists.listAdd`: what a declaration adds, and where;
* `LineSafe`: the lines that the parser can take;
* **`escParsefile_safe_iff`**: a file is read without a fault if and only if it can take all its lines.
-/

namespace Fms

open CString TextFile

/-- `CLASS_PATH` -/
def classPath : ℕ := 64

/-! ## Lists -/

/-- The lists of `fmd_esc_t`. -/
structure EscLists extends FmdEsc where
  listEvent : List FmdFaultType := []
  deriving DecidableEq, Repr

/-- What a declaration adds to one of the lists. -/
inductive EscEntry where
  | event (etype : FmdFaultType)
  | serd (serdtype : FmdSerdType)
  | fault (etype : FmdFaultType)
  deriving DecidableEq, Repr

/-- `list_add`, to the list of the entry. -/
def EscLists.listAdd (pesc : EscLists) : EscEntry → EscLists
  | .event etype => { pesc with listEvent := etype :: pesc.listEvent }
  | .serd serdtype => { pesc with listSerd := serdtype :: pesc.listSerd }
  | .fault etype => { pesc with listFault := etype :: pesc.listFault }

/-- What some lines add, in the order of the lines. -/
def EscLists.addAll (pesc : EscLists) (entries : List (Option EscEntry)) : EscLists :=
  entries.foldl (fun pesc entry => entry.elim pesc pesc.listAdd) pesc

/-! ## Declarations -/

/-- The value of an `int` expression. -/
def cInt (ovf : ℤ → ℤ) (z : ℤ) : ℤ := if IsInt z then z else ovf z

/-- `esc_build_event` -/
def escBuildEvent (eclass : CStr) : Option EscEntry :=
  if classPath < eclass.length then none else some (.event ⟨eclass⟩)

/-- `esc_build_engine`. The length given to `strncpy` is a `size_t`: it is enormous if the brace comes
first. -/
def escBuildEngine (ovf : ℤ → ℤ) (eclass : CStr) : Option EscEntry :=
  (strchr '=' eclass).bind fun n =>
  (strrchr '=' eclass).bind fun t =>
  (strstr "\x7b".toList eclass).bind fun p =>
    let length := eclass.length - p.length
    if length = 0 ∨ classPath < length - 1 then none
    else some (.serd
      { eclass := eclass.take (length - 1)
        N := .ofInt (cInt ovf (atoi (n.drop 1)))
        T := .ofInt (cInt ovf (cInt ovf (cInt ovf (atoi (t.drop 1)) * 60) * 60)) })

/-- `esc_build_fault` -/
def escBuildFault (eclass : CStr) : Option EscEntry :=
  if classPath < eclass.length then none else some (.fault ⟨eclass⟩)

/-- The body of the loop of `esc_parsefile`. -/
def escLine (ovf : ℤ → ℤ) (buf : CStr) : Option (Option EscEntry) :=
  (chop buf).bind fun buf =>
    if strncmpEq buf "event ".toList 6 then (escBuildEvent (buf.drop 6)).map some
    else if strncmpEq buf "engine ".toList 7 then
      ((store 64 (buf.drop 7)).bind (escBuildEngine ovf)).map some
    else if strncmpEq buf "fault ".toList 6 then
      ((store 64 (buf.drop 6)).bind escBuildFault).map some
    else some none

/-- `esc_parsefile`, for a file that can be opened. -/
def escParsefile (ovf : ℤ → ℤ) (file : CStr) (pesc : EscLists) : Option EscLists :=
  (fgetsAll 128 file).foldlM (fun pesc buf => (escLine ovf buf).map fun entry =>
    entry.elim pesc pesc.listAdd) pesc

/-- The names that `esc_parsedir` does not skip. -/
def isEscFile (name : CStr) : Bool :=
  name.head? != some '.' && strrchr '.' name == some ".esc".toList

/-- `esc_parsedir`, with the files in the order of `readdir`. -/
def escParsedir (ovf : ℤ → ℤ) (dir : List (CStr × CStr)) (pesc : EscLists) : Option EscLists :=
  (dir.filter fun file => isEscFile file.1).foldlM (fun pesc file => escParsefile ovf file.2 pesc) pesc

theorem foldlM_escLine {ovf : ℤ → ℤ} {bufs : List CStr} {pesc r : EscLists} :
    bufs.foldlM (fun pesc buf => (escLine ovf buf).map fun entry => entry.elim pesc pesc.listAdd) pesc =
        some r ↔
      (∀ buf ∈ bufs, (escLine ovf buf).isSome) ∧
        pesc.addAll (bufs.map fun buf => (escLine ovf buf).join) = r := by
  induction bufs generalizing pesc with
  | nil => simp [EscLists.addAll]
  | cons buf bufs ih =>
    rw [List.foldlM_cons]
    cases hline : escLine ovf buf with
    | none => simp [hline]
    | some entry =>
      simp only [Option.map_some, Option.bind_eq_bind, Option.bind_some, ih, List.forall_mem_cons, hline,
        Option.isSome_some, true_and, List.map_cons]
      rfl

/-- A file is the lines in it: each of them is defined by itself, and adds its entry. -/
theorem escParsefile_eq_some {ovf : ℤ → ℤ} {file : CStr} {pesc r : EscLists} :
    escParsefile ovf file pesc = some r ↔
      (∀ buf ∈ fgetsAll 128 file, (escLine ovf buf).isSome) ∧
        pesc.addAll ((fgetsAll 128 file).map fun buf => (escLine ovf buf).join) = r :=
  foldlM_escLine

/-! ## Lines -/

section Keywords

variable {ovf : ℤ → ℤ} {buf c : CStr}

theorem escLine_none (h : chop buf = none) : escLine ovf buf = none := by
  rw [escLine, h]
  rfl

theorem escLine_event (h : chop buf = some ("event ".toList ++ c)) :
    escLine ovf buf = (escBuildEvent c).map some := by
  rw [escLine, h]
  rfl

theorem escLine_engine (h : chop buf = some ("engine ".toList ++ c)) :
    escLine ovf buf = ((store 64 c).bind (escBuildEngine ovf)).map some := by
  rw [escLine, h]
  rfl

theorem escLine_fault (h : chop buf = some ("fault ".toList ++ c)) :
    escLine ovf buf = ((store 64 c).bind escBuildFault).map some := by
  rw [escLine, h]
  rfl

/-- The line is no declaration. -/
def IsOther (line : CStr) : Prop :=
  ¬ "event ".toList <+: line ∧ ¬ "engine ".toList <+: line ∧ ¬ "fault ".toList <+: line

instance (line : CStr) : Decidable (IsOther line) := inferInstanceAs (Decidable (_ ∧ _))

theorem escLine_other {line : CStr} (h : chop buf = some line) (hother : IsOther line) :
    escLine ovf buf = some none := by
  have hevent : ¬ strncmpEq line "event ".toList 6 = true := mt strncmpEq_right.mp hother.1
  have hengine : ¬ strncmpEq line "engine ".toList 7 = true := mt strncmpEq_right.mp hother.2.1
  have hfault : ¬ strncmpEq line "fault ".toList 6 = true := mt strncmpEq_right.mp hother.2.2
  rw [escLine, h, Option.bind_some, if_neg hevent, if_neg hengine, if_neg hfault]

theorem escBuildEvent_eq_some {e : EscEntry} :
    escBuildEvent c = some e ↔ c.length ≤ 64 ∧ e = .event ⟨c⟩ := by
  rw [escBuildEvent, classPath]
  by_cases h : c.length ≤ 64
  · rw [if_neg (not_lt.mpr h), Option.some.injEq, and_iff_right h]
    exact eq_comm
  · rw [if_pos (not_le.mp h)]
    exact iff_of_false (Option.some_ne_none e).symm fun h' => h h'.1

theorem escBuildFault_eq_some {e : EscEntry} :
    (store 64 c).bind escBuildFault = some e ↔ c.length < 64 ∧ e = .fault ⟨c⟩ := by
  by_cases h : c.length < 64
  · have hle : ¬ classPath < c.length := not_lt.mpr h.le
    rw [store_fits h, Option.bind_some, escBuildFault, if_neg hle, Option.some.injEq, and_iff_right h]
    exact eq_comm
  · rw [store_overflow h]
    exact iff_of_false (Option.some_ne_none e).symm fun h' => h h'.1

end Keywords

theorem line_cases (line : CStr) :
    (∃ c, line = "event ".toList ++ c) ∨ (∃ c, line = "engine ".toList ++ c) ∨
      (∃ c, line = "fault ".toList ++ c) ∨ IsOther line := by
  by_cases hevent : "event ".toList <+: line
  · exact .inl (hevent.imp fun c hc => hc.symm)
  by_cases hengine : "engine ".toList <+: line
  · exact .inr (.inl (hengine.imp fun c hc => hc.symm))
  by_cases hfault : "fault ".toList <+: line
  · exact .inr (.inr (.inl (hfault.imp fun c hc => hc.symm)))
  · exact .inr (.inr (.inr ⟨hevent, hengine, hfault⟩))

/-- The text of an engine has a number, and a brace that is not its first character. -/
def EngineSafe (c : CStr) : Prop := '=' ∈ c ∧ '{' ∈ c ∧ c.head? ≠ some '{'

/-- The line can be taken: it does not start with NUL, its class fits, and an engine has what the parser
looks for. -/
def LineSafe (buf : CStr) : Prop :=
  ∃ line, chop buf = some line ∧
    (∀ c, line = "event ".toList ++ c → c.length ≤ 64) ∧
    (∀ c, line = "engine ".toList ++ c → c.length < 64 ∧ EngineSafe c) ∧
    ∀ c, line = "fault ".toList ++ c → c.length < 64

theorem escBuildEngine_isSome {ovf : ℤ → ℤ} {c : CStr} (hlen : c.length < 64) :
    (escBuildEngine ovf c).isSome ↔ EngineSafe c := by
  unfold escBuildEngine EngineSafe
  by_cases heq : '=' ∈ c
  · obtain ⟨r, t, hr, ht⟩ := exists_last_of_mem heq
    rw [strchr_of_mem heq, show strrchr '=' c = _ from hr ▸ strrchr_append ht r,
      show "\x7b".toList = ['{'] from rfl, strstr_singleton]
    by_cases hbrace : '{' ∈ c
    · rw [strchr_of_mem hbrace]
      simp only [Option.bind_some, heq, hbrace, true_and]
      have hlength : c.length - (c.dropWhile (· != '{')).length = 0 ↔ c.head? = some '{' := by
        cases c with
        | nil => exact absurd hbrace List.not_mem_nil
        | cons x c =>
          by_cases hx : x = '{'
          · simp [hx]
          · have hdrop := (List.dropWhile_suffix (l := c) (· != '{')).length_le
            simp [hx]
            omega
      have hle : ¬ classPath < c.length - (c.dropWhile (· != '{')).length - 1 := by
        unfold classPath
        omega
      by_cases hhead : c.head? = some '{'
      · rw [if_pos (.inl (hlength.mpr hhead))]
        exact iff_of_false Bool.false_ne_true (not_not.mpr hhead)
      · rw [if_neg (not_or.mpr ⟨mt hlength.mp hhead, hle⟩)]
        exact iff_of_true rfl hhead
    · rw [Option.not_isSome_iff_eq_none.mp (mt strchr_isSome.mp hbrace)]
      exact iff_of_false Bool.false_ne_true fun h => hbrace h.2.1
  · rw [Option.not_isSome_iff_eq_none.mp (mt strchr_isSome.mp heq)]
    exact iff_of_false Bool.false_ne_true fun h => heq h.1

theorem forall_rest_of_not {k line : CStr} {p : CStr → Prop} (h : ¬ k <+: line) :
    ∀ c, line = k ++ c → p c := fun c hc => absurd ⟨c, hc.symm⟩ h

theorem forall_rest_iff {k c : CStr} {p : CStr → Prop} : (∀ c', k ++ c = k ++ c' → p c') ↔ p c := by simp

/-- **A line is treated without a fault if and only if the parser can take it.** -/
theorem escLine_isSome (ovf : ℤ → ℤ) (buf : CStr) : (escLine ovf buf).isSome ↔ LineSafe buf := by
  cases hchop : chop buf with
  | none =>
    rw [escLine_none hchop]
    exact iff_of_false Bool.false_ne_true fun ⟨line, h, _⟩ => by simp [hchop] at h
  | some line =>
    have hsafe : LineSafe buf ↔ (∀ c, line = "event ".toList ++ c → c.length ≤ 64) ∧
        (∀ c, line = "engine ".toList ++ c → c.length < 64 ∧ EngineSafe c) ∧
          ∀ c, line = "fault ".toList ++ c → c.length < 64 := by
      simp [LineSafe, hchop]
    rw [hsafe]
    rcases line_cases line with ⟨c, rfl⟩ | ⟨c, rfl⟩ | ⟨c, rfl⟩ | hother
    · have hkey := List.prefix_append "event ".toList c
      have hengine : ¬ "engine ".toList <+: "event ".toList ++ c :=
        prefix_exclusive (by decide) (by decide) hkey
      have hfault : ¬ "fault ".toList <+: "event ".toList ++ c :=
        prefix_exclusive (by decide) (by decide) hkey
      rw [escLine_event hchop, Option.isSome_map, forall_rest_iff,
        and_iff_left ⟨forall_rest_of_not hengine, forall_rest_of_not hfault⟩, Option.isSome_iff_exists]
      simp only [escBuildEvent_eq_some, exists_and_left, exists_eq, and_true]
    · have hkey := List.prefix_append "engine ".toList c
      have hevent : ¬ "event ".toList <+: "engine ".toList ++ c :=
        prefix_exclusive (by decide) (by decide) hkey
      have hfault : ¬ "fault ".toList <+: "engine ".toList ++ c :=
        prefix_exclusive (by decide) (by decide) hkey
      rw [escLine_engine hchop, Option.isSome_map, forall_rest_iff, and_iff_right (forall_rest_of_not hevent),
        and_iff_left (forall_rest_of_not hfault)]
      by_cases h : c.length < 64
      · rw [store_fits h, Option.bind_some, escBuildEngine_isSome h, and_iff_right h]
      · rw [store_overflow h]
        exact iff_of_false Bool.false_ne_true fun h' => h h'.1
    · have hkey := List.prefix_append "fault ".toList c
      have hevent : ¬ "event ".toList <+: "fault ".toList ++ c :=
        prefix_exclusive (by decide) (by decide) hkey
      have hengine : ¬ "engine ".toList <+: "fault ".toList ++ c :=
        prefix_exclusive (by decide) (by decide) hkey
      rw [escLine_fault hchop, Option.isSome_map, forall_rest_iff, and_iff_right (forall_rest_of_not hevent),
        and_iff_right (forall_rest_of_not hengine), Option.isSome_iff_exists]
      simp only [escBuildFault_eq_some, exists_and_left, exists_eq, and_true]
    · rw [escLine_other hchop hother]
      exact iff_of_true rfl ⟨forall_rest_of_not hother.1, forall_rest_of_not hother.2.1,
        forall_rest_of_not hother.2.2⟩

/-- **A file is read without a fault if and only if the parser can take all its lines.** -/
theorem escParsefile_safe_iff (ovf : ℤ → ℤ) (file : CStr) (pesc : EscLists) :
    (escParsefile ovf file pesc).isSome ↔ ∀ buf ∈ fgetsAll 128 file, LineSafe buf := by
  rw [Option.isSome_iff_exists]
  simp only [escParsefile_eq_some, escLine_isSome]
  exact ⟨fun ⟨_, h, _⟩ => h, fun h => ⟨_, h, rfl⟩⟩

/-- An engine without its numbers. -/
theorem escParsefile_unsafe : ¬ ∀ (ovf : ℤ → ℤ) (file : CStr) (pesc : EscLists),
    (escParsefile ovf file pesc).isSome :=
  fun h => absurd (h id "engine ereport.cpu.cache_ce\n".toList {}) (by decide)

end Fms
