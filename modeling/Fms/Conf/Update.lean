import Fms.Event
import Fms.Lib.TextFile

/-!
# The settings of an agent

evt_modules/evtlib/evt_agent.c: `parse_config` reads the file _mod.conf of an agent, `update_conf` sets
a directive in it and in `agent_modconfs_t`. It copies the file line by line to a temporary file, which
takes the place of the old one at the end.

* `updateConf`: the exits of `update_conf`, by what fails; the message about an unknown directive and a
  stream that is closed twice are undefined;
* `copyLine_eq`: a turn of the copy loop;
* `copyConf_legal`, `copyConf_illegal`: what the loop leaves for a legal and for an illegal value;
* `updateConf_opened`: what a call does with a file that is opened;
* **`updateConf_atomic_iff`**: when a call that fails leaves everything as it was.
-/

namespace Fms

open CString TextFile

/-- `MAXLINE` -/
def maxline : ℕ := 1024

/-- `WHITESPACE` -/
def isWhite (c : Char) : Bool := " \t\n\r\x0c".toList.contains c

/-- `DELIMS` -/
def isDelim (c : Char) : Bool := ",: \t\n\r\x0c".toList.contains c

/-- `AGENT_KEY_EVT_HANDLE_MODE` -/
def agentKeyEvtHandleMode : CStr := "event_handle_mode".toList

/-- The table `mode` of `set_evt_handle_mode`. -/
def modeOf (option : CStr) : Option HandleMode :=
  if option = "manual".toList then some .manual
  else if option = "auto".toList then some .auto
  else if option = "define".toList then some .define
  else none

/-- `set_evt_handle_mode`: what it returns, and the mode afterwards. -/
def setEvtHandleMode (mode : HandleMode) (option : CStr) : ℤ × HandleMode :=
  match modeOf option with
  | some v => (0, v)
  | none => (-1, mode)

theorem setEvtHandleMode_some {option : CStr} {v : HandleMode} (hv : modeOf option = some v)
    (mode : HandleMode) : setEvtHandleMode mode option = (0, v) := by
  rw [setEvtHandleMode, hv]

theorem setEvtHandleMode_none {option : CStr} (hv : modeOf option = none) (mode : HandleMode) :
    setEvtHandleMode mode option = (-1, mode) := by
  rw [setEvtHandleMode, hv]

/-- `get_directive`: the function that sets the directive. -/
def getDirective (name : CStr) : Option (HandleMode → CStr → ℤ × HandleMode) :=
  if name = agentKeyEvtHandleMode then some setEvtHandleMode else none

/-! ## Reading -/

/-- The body of the loop of `parse_config`, with `errcount` and the mode. -/
def configLine (acc : ℕ × HandleMode) (buf : CStr) : ℕ × HandleMode :=
  let bp := ((content buf).dropWhile isWhite).takeWhile (· != '#')
  if bp = [] then acc
  else match getDirective (bp.takeWhile (!isWhite ·)) with
    | none => (acc.1 + 1, acc.2)
    | some setFunc =>
      let bp := (bp.dropWhile (!isWhite ·)).dropWhile isDelim
      if bp = [] then acc
      else
        let r := setFunc acc.2 (bp.takeWhile (!isDelim ·))
        (if r.1 = 0 then acc.1 else acc.1 + 1, r.2)

/-- `parse_config`: what it returns, and the mode afterwards; `none` is a file that does not exist. -/
def parseConfig (cfgfile : Option CStr) (mode : HandleMode) : ℤ × HandleMode :=
  match cfgfile with
  | none => (0, mode)
  | some file =>
    let acc := (fgetsAll maxline file).foldl configLine (0, mode)
    (if acc.1 = 0 then 0 else -1, acc.2)

/-! ## Writing -/

/-- The calls of `update_conf` that can fail, and what of a text reaches the disk: `fprintf` and
`fclose` are not checked. -/
structure UpdateEnv where
  openRead : Bool
  create : Bool
  mkstemp : Bool
  fdopen : Bool
  written : CStr → CStr
  rename : Bool

/-- The configuration file, if it exists, and `agent_modconfs_t`. -/
structure ConfState where
  file : Option CStr
  mode : HandleMode
  deriving DecidableEq, Repr

/-- The outcome of `update_conf`: a value, or undefined behaviour. -/
inductive UpdateResult where
  | ret (r : ℤ) (s : ConfState)
  | undefined (s : ConfState)
  deriving DecidableEq, Repr

/-- The variables of the copy loop: the mode, the text of `ftmp` and `direct_update`. -/
structure Copy where
  mode : HandleMode
  ftmp : CStr := []
  directUpdate : ℕ := 0
  deriving DecidableEq, Repr

/-- The line that sets a directive. -/
def directLine (direct value : CStr) : CStr := direct ++ ' ' :: (value ++ ['\n'])

/-- The directive is set and its line is written; an error is the exit `out`. -/
def Copy.set (setFunc : HandleMode → CStr → ℤ × HandleMode) (direct value : CStr) (c : Copy) :
    Except HandleMode Copy :=
  let r := setFunc c.mode value
  if r.1 ≠ 0 then .error r.2
  else .ok ⟨r.2, c.ftmp ++ directLine direct value, c.directUpdate + 1⟩

/-- The body of the copy loop. -/
def copyLine (setFunc : HandleMode → CStr → ℤ × HandleMode) (direct value : CStr) (c : Copy) (buf : CStr) :
    Except HandleMode Copy :=
  let bp := (content buf).dropWhile isWhite
  if bp.head? = some '#' ∨ bp = [] then .ok { c with ftmp := c.ftmp ++ content buf }
  else if bp.takeWhile (!isWhite ·) = direct then c.set setFunc direct value
  else .ok { c with ftmp := c.ftmp ++ content buf }

/-- The copy loop, and the line at the end if the directive was not there. -/
def copyConf (setFunc : HandleMode → CStr → ℤ × HandleMode) (direct value : CStr) (mode : HandleMode)
    (file : CStr) : Except HandleMode Copy :=
  ((fgetsAll maxline file).foldlM (copyLine setFunc direct value) { mode := mode }).bind fun c =>
    if c.directUpdate = 0 then c.set setFunc direct value else .ok c

/-- The file that is read: a new one if there is none. -/
def openConf (env : UpdateEnv) : Option CStr → Option CStr
  | some file => if env.openRead then some file else none
  | none => if env.create then some [] else none

/-- The name of the temporary file. -/
def tmpFile (cfgfile : CStr) : CStr := cfgfile ++ "XXXXXX".toList

/-- `update_conf` -/
def updateConf (env : UpdateEnv) (cfgfile direct value : CStr) (s : ConfState) : UpdateResult :=
  match getDirective direct with
  -- `wr_log` formats the local array `directive`, which nothing has been stored in
  | none => .undefined s
  | some setFunc =>
    match openConf env s.file with
    | none => .ret (-1) s
    | some file =>
      -- the name of the temporary file overflows its buffer
      if (store maxline (tmpFile cfgfile)).isNone then .undefined { s with file := some file }
      else if !env.mkstemp || !env.fdopen then .ret (-1) { s with file := some file }
      else match copyConf setFunc direct value s.mode file with
        | .error mode => .ret (-1) ⟨some file, mode⟩
        | .ok c =>
          if env.rename then .ret 0 ⟨some (env.written c.ftmp), c.mode⟩
          -- both streams are closed a second time
          else .undefined ⟨some file, c.mode⟩

/-! ## The copy loop -/

/-- The line of a directive, as the copy loop sees it. -/
def IsDirective (direct l : CStr) : Prop :=
  ((content l).dropWhile isWhite).takeWhile (!isWhite ·) = direct

instance (direct l : CStr) : Decidable (IsDirective direct l) := inferInstanceAs (Decidable (_ = _))

/-- What the loop writes for a line. -/
def copied (value l : CStr) : CStr :=
  if IsDirective agentKeyEvtHandleMode l then directLine agentKeyEvtHandleMode value else content l

section Copying

variable {value : CStr} {v : HandleMode}

theorem set_legal (hv : modeOf value = some v) (c : Copy) :
    c.set setEvtHandleMode agentKeyEvtHandleMode value =
      .ok ⟨v, c.ftmp ++ directLine agentKeyEvtHandleMode value, c.directUpdate + 1⟩ := by
  rw [Copy.set, setEvtHandleMode_some hv]
  rfl

theorem set_illegal (hv : modeOf value = none) (c : Copy) :
    c.set setEvtHandleMode agentKeyEvtHandleMode value = .error c.mode := by
  rw [Copy.set, setEvtHandleMode_none hv]
  rfl

theorem copyLine_eq (value : CStr) (c : Copy) (l : CStr) :
    copyLine setEvtHandleMode agentKeyEvtHandleMode value c l =
      if IsDirective agentKeyEvtHandleMode l then c.set setEvtHandleMode agentKeyEvtHandleMode value
      else .ok { c with ftmp := c.ftmp ++ content l } := by
  rw [copyLine]
  by_cases hskip : ((content l).dropWhile isWhite).head? = some '#' ∨ (content l).dropWhile isWhite = []
  · have hno : ¬ IsDirective agentKeyEvtHandleMode l := by
      unfold IsDirective
      rcases hskip with h | h
      · obtain ⟨r, hr⟩ := List.head?_eq_some_iff.mp h
        rw [hr, List.takeWhile_cons_of_pos (by decide)]
        intro heq
        exact absurd (congrArg List.head? heq) (by rw [List.head?_cons]; decide)
      · rw [h]
        decide
    rw [if_pos hskip, if_neg hno]
  · rw [if_neg hskip]
    rfl

theorem foldlM_copyLine_legal (hv : modeOf value = some v) (bufs : List CStr) (c : Copy) :
    bufs.foldlM (copyLine setEvtHandleMode agentKeyEvtHandleMode value) c =
      .ok ⟨if ∃ l ∈ bufs, IsDirective agentKeyEvtHandleMode l then v else c.mode,
        c.ftmp ++ bufs.flatMap (copied value),
        c.directUpdate + bufs.countP (IsDirective agentKeyEvtHandleMode ·)⟩ := by
  induction bufs generalizing c with
  | nil => simp [pure, Except.pure]
  | cons l bufs ih =>
    rw [List.foldlM_cons, copyLine_eq, set_legal hv]
    by_cases hl : IsDirective agentKeyEvtHandleMode l
    · rw [if_pos hl]
      change bufs.foldlM _ _ = _
      rw [ih]
      simp [hl, copied]
      omega
    · rw [if_neg hl]
      change bufs.foldlM _ _ = _
      rw [ih]
      simp [hl, copied]

/-- The loop with an illegal value ends at the first line of the directive, and the mode is kept. -/
theorem foldlM_copyLine_illegal (hv : modeOf value = none) (bufs : List CStr) (c : Copy) :
    bufs.foldlM (copyLine setEvtHandleMode agentKeyEvtHandleMode value) c = .error c.mode ∨
      ∃ ftmp, bufs.foldlM (copyLine setEvtHandleMode agentKeyEvtHandleMode value) c =
        .ok { c with ftmp := ftmp } := by
  induction bufs generalizing c with
  | nil => exact .inr ⟨c.ftmp, rfl⟩
  | cons l bufs ih =>
    rw [List.foldlM_cons, copyLine_eq, set_illegal hv]
    by_cases hl : IsDirective agentKeyEvtHandleMode l
    · rw [if_pos hl]
      exact .inl rfl
    · rw [if_neg hl]
      exact ih { c with ftmp := c.ftmp ++ content l }

/-- The text that takes the place of the old one. -/
def newConf (value file : CStr) : CStr :=
  (fgetsAll maxline file).flatMap (copied value) ++
    if ∃ l ∈ fgetsAll maxline file, IsDirective agentKeyEvtHandleMode l then []
    else directLine agentKeyEvtHandleMode value

theorem copyConf_legal (hv : modeOf value = some v) (mode : HandleMode) (file : CStr) :
    ∃ n, copyConf setEvtHandleMode agentKeyEvtHandleMode value mode file =
      .ok ⟨v, newConf value file, n⟩ := by
  rw [copyConf, foldlM_copyLine_legal hv, newConf]
  by_cases hany : ∃ l ∈ fgetsAll maxline file, IsDirective agentKeyEvtHandleMode l
  · have hcount : ¬ 0 + (fgetsAll maxline file).countP (IsDirective agentKeyEvtHandleMode ·) = 0 := by
      rw [Nat.zero_add, List.countP_eq_zero]
      simpa using hany
    rw [if_pos hany, if_pos hany, List.append_nil]
    exact ⟨_, if_neg hcount⟩
  · have hcount : 0 + (fgetsAll maxline file).countP (IsDirective agentKeyEvtHandleMode ·) = 0 := by
      rw [Nat.zero_add, List.countP_eq_zero]
      simpa using hany
    rw [if_neg hany, if_neg hany]
    exact ⟨_, (if_pos hcount).trans (set_legal hv _)⟩

theorem copyConf_illegal (hv : modeOf value = none) (mode : HandleMode) (file : CStr) :
    copyConf setEvtHandleMode agentKeyEvtHandleMode value mode file = .error mode := by
  rw [copyConf]
  rcases foldlM_copyLine_illegal hv (fgetsAll maxline file) { mode := mode } with h | ⟨ftmp, h⟩
  · rw [h]
    rfl
  · rw [h]
    exact set_illegal hv _

theorem updateConf_unopened {env : UpdateEnv} {s : ConfState} (hopen : openConf env s.file = none)
    (cfgfile value : CStr) : updateConf env cfgfile agentKeyEvtHandleMode value s = .ret (-1) s := by
  have hget : getDirective agentKeyEvtHandleMode = some setEvtHandleMode := rfl
  rw [updateConf, hget]
  simp only [hopen]

/-- **A call for a file that is opened**: the exits, in the order of the calls. -/
theorem updateConf_opened {env : UpdateEnv} {s : ConfState} {file : CStr}
    (hopen : openConf env s.file = some file) (cfgfile value : CStr) :
    updateConf env cfgfile agentKeyEvtHandleMode value s =
      if (tmpFile cfgfile).length < maxline then
        if env.mkstemp && env.fdopen then
          (modeOf value).elim (.ret (-1) ⟨some file, s.mode⟩) fun v =>
            if env.rename then .ret 0 ⟨some (env.written (newConf value file)), v⟩
            else .undefined ⟨some file, v⟩
        else .ret (-1) ⟨some file, s.mode⟩
      else .undefined ⟨some file, s.mode⟩ := by
  have hget : getDirective agentKeyEvtHandleMode = some setEvtHandleMode := rfl
  rw [updateConf, hget]
  simp only [hopen]
  by_cases hname : (tmpFile cfgfile).length < maxline
  · rw [if_neg (mt store_isNone.mp (not_not.mpr hname)), if_pos hname]
    cases htmp : env.mkstemp && env.fdopen with
    | false =>
      have hexit : (!env.mkstemp || !env.fdopen) = true := by rw [← Bool.not_and, htmp]; rfl
      rw [if_pos hexit, if_neg Bool.false_ne_true]
    | true =>
      have hexit : ¬ (!env.mkstemp || !env.fdopen) = true := by rw [← Bool.not_and, htmp]; decide
      rw [if_neg hexit, if_pos rfl]
      cases hv : modeOf value with
      | none =>
        rw [copyConf_illegal hv]
        rfl
      | some v =>
        obtain ⟨n, hcopy⟩ := copyConf_legal hv s.mode file
        rw [hcopy]
        rfl
  · rw [if_pos (store_isNone.mpr hname), if_neg hname]

theorem updateConf_legal (hv : modeOf value = some v) (env : UpdateEnv) {cfgfile : CStr}
    (hname : (tmpFile cfgfile).length < maxline) (file : CStr) (mode : HandleMode) :
    updateConf env cfgfile agentKeyEvtHandleMode value ⟨some file, mode⟩ =
      if env.openRead && env.mkstemp && env.fdopen then
        if env.rename then .ret 0 ⟨some (env.written (newConf value file)), v⟩
        else .undefined ⟨some file, v⟩
      else .ret (-1) ⟨some file, mode⟩ := by
  cases hread : env.openRead with
  | false =>
    have hopen : openConf env (some file) = none := by rw [openConf, hread]; rfl
    exact updateConf_unopened hopen cfgfile value
  | true =>
    have hopen : openConf env (some file) = some file := by rw [openConf, hread]; rfl
    rw [updateConf_opened hopen, if_pos hname, hv]
    rfl

theorem updateConf_overflow (env : UpdateEnv) {cfgfile : CStr}
    (hname : ¬ (tmpFile cfgfile).length < maxline) (file : CStr) (mode : HandleMode) :
    updateConf env cfgfile agentKeyEvtHandleMode value ⟨some file, mode⟩ =
      if env.openRead then .undefined ⟨some file, mode⟩ else .ret (-1) ⟨some file, mode⟩ := by
  cases hread : env.openRead with
  | false =>
    have hopen : openConf env (some file) = none := by rw [openConf, hread]; rfl
    exact updateConf_unopened hopen cfgfile value
  | true =>
    have hopen : openConf env (some file) = some file := by rw [openConf, hread]; rfl
    rw [updateConf_opened hopen, if_neg hname]
    rfl

end Copying

/-! ## Failures -/

/-- A call that returns -1 has changed neither the file nor the mode. -/
def Atomic (env : UpdateEnv) (cfgfile direct value : CStr) (s : ConfState) : Prop :=
  match updateConf env cfgfile direct value s with
  | .ret r s' => r = -1 → s' = s
  | .undefined _ => False

/-- The directive is the one there is, and if the file is opened, the name of the temporary file fits its
buffer and the new text, if it is complete, takes the place of the old one; if it is not complete, there
was a file. -/
def CommitSafe (env : UpdateEnv) (cfgfile direct value : CStr) (s : ConfState) : Prop :=
  direct = agentKeyEvtHandleMode ∧ ((openConf env s.file).isSome →
    (tmpFile cfgfile).length < maxline ∧
      if env.mkstemp ∧ env.fdopen ∧ (modeOf value).isSome then env.rename else s.file.isSome)

theorem openConf_kept {env : UpdateEnv} {s : ConfState} {file : CStr} (hopen : openConf env s.file = some file)
    (h : s.file.isSome) : (⟨some file, s.mode⟩ : ConfState) = s := by
  obtain ⟨old, mode⟩ := s
  obtain ⟨old, rfl⟩ := Option.isSome_iff_exists.mp h
  rw [openConf] at hopen
  split_ifs at hopen
  rw [← hopen]

/-- **A call that fails leaves everything as it was if and only if its directive is known, what is complete
can be committed, and otherwise no file was created.** -/
theorem updateConf_atomic_iff (env : UpdateEnv) (cfgfile direct value : CStr) (s : ConfState) :
    Atomic env cfgfile direct value s ↔ CommitSafe env cfgfile direct value s := by
  unfold Atomic CommitSafe
  by_cases hdirect : direct = agentKeyEvtHandleMode
  · subst hdirect
    cases hopen : openConf env s.file with
    | none =>
      rw [updateConf_unopened hopen]
      exact iff_of_true (fun _ => rfl) ⟨rfl, fun h => absurd h Bool.false_ne_true⟩
    | some file =>
      rw [updateConf_opened hopen]
      have hkept : ((-1 : ℤ) = -1 → (⟨some file, s.mode⟩ : ConfState) = s) ↔ s.file.isSome = true := by
        rw [forall_prop_of_true rfl]
        constructor
        · intro h
          rw [← h]
          rfl
        · exact openConf_kept hopen
      simp only [Option.isSome_some, forall_const, true_and]
      by_cases hname : (tmpFile cfgfile).length < maxline
      · rw [if_pos hname, and_iff_right hname]
        cases htmp : env.mkstemp && env.fdopen with
        | false =>
          have hno : ¬ (env.mkstemp = true ∧ env.fdopen = true ∧ (modeOf value).isSome = true) := by
            intro h
            rw [h.1, h.2.1] at htmp
            cases htmp
          rw [if_neg Bool.false_ne_true, if_neg hno]
          exact hkept
        | true =>
          obtain ⟨hmkstemp, hfdopen⟩ := Bool.and_eq_true_iff.mp htmp
          rw [if_pos rfl]
          cases modeOf value with
          | none =>
            rw [if_neg fun h => Bool.false_ne_true h.2.2]
            exact hkept
          | some v =>
            rw [if_pos ⟨hmkstemp, hfdopen, rfl⟩, Option.elim_some]
            cases env.rename with
            | true => exact iff_of_true (fun h => absurd h (by decide)) rfl
            | false => exact iff_of_false id Bool.false_ne_true
      · rw [if_neg hname]
        exact iff_of_false id fun h => hname h.1
  · have hget : getDirective direct = none := if_neg hdirect
    rw [updateConf, hget]
    exact iff_of_false id fun h => hdirect h.1

/-- If there is no file and the temporary one cannot be made, an empty file is left. -/
theorem updateConf_not_atomic : ¬ ∀ env cfgfile direct value s, Atomic env cfgfile direct value s := by
  intro h
  have hcall := h ⟨true, true, false, true, id, true⟩ "/usr/lib/fms/plugins/disk_agent_mod.conf".toList
    agentKeyEvtHandleMode "manual".toList ⟨none, .auto⟩
  exact absurd (hcall rfl) (by decide)

end Fms
