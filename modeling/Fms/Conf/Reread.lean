import Fms.Conf.Update

/-!
# A file that was updated is read again

`update_conf` and `parse_config` take a line apart by different rules: the writer also takes a line for one
that sets the directive if there is no value on it. What the writer puts at the end of a file goes to its
last line, if that has no newline.

* `SetsDirective`, `configLine_kept`: a line that is accepted sets the directive, or sets nothing;
* `rawLines_newConf`: the lines of the new file;
* **`updateConf_reread_iff`**: when the new file has the value, and all other lines of the old one.
-/

namespace Fms

open CString TextFile

/-- A line that sets the directive, as `parse_config` reads it: there is a value behind the word. -/
def SetsDirective (l : CStr) : Prop :=
  let bp := ((content l).dropWhile isWhite).takeWhile (· != '#')
  bp.takeWhile (!isWhite ·) = agentKeyEvtHandleMode ∧ (bp.dropWhile (!isWhite ·)).dropWhile isDelim ≠ []

instance (l : CStr) : Decidable (SetsDirective l) := inferInstanceAs (Decidable (_ ∧ _))

/-- A call that returns 0 leaves a file that says `v`, with the lines of the old one that do not set the
directive. -/
def UpdateRight (value : CStr) (v : HandleMode) (file : CStr) : Prop :=
  ∀ (env : UpdateEnv) (cfgfile : CStr) (mode : HandleMode) (s : ConfState),
    (∀ text, env.written text = text) →
    updateConf env cfgfile agentKeyEvtHandleMode value ⟨some file, mode⟩ = .ret 0 s →
    ∃ new, s.file = some new ∧ (∀ m, parseConfig (some new) m = (0, v)) ∧
      ((rawLines file).filter (¬ SetsDirective ·)).Sublist (rawLines new)

/-- The lines that are copied have no NUL, and the line that is appended starts on a line of its own. -/
def CopySafe (file : CStr) : Prop :=
  (∀ l ∈ rawLines file, ¬ IsDirective agentKeyEvtHandleMode l → '\x00' ∉ l) ∧
    (file = [] ∨ file.getLast? = some '\n' ∨ ∃ l ∈ rawLines file, IsDirective agentKeyEvtHandleMode l)

instance (file : CStr) : Decidable (CopySafe file) := inferInstanceAs (Decidable (_ ∧ _))

/-- The lines that are not copied set the directive. -/
def UpdateSafe (file : CStr) : Prop :=
  CopySafe file ∧ ∀ l ∈ rawLines file, IsDirective agentKeyEvtHandleMode l → SetsDirective l

instance (file : CStr) : Decidable (UpdateSafe file) := inferInstanceAs (Decidable (_ ∧ _))

/-! ## Lines -/

/-- A line does nothing, is an error, or sets a mode. -/
theorem configLine_cases (buf : CStr) :
    (∀ acc, configLine acc buf = acc) ∨ (∀ acc, configLine acc buf = (acc.1 + 1, acc.2)) ∨
      ∃ v, ∀ acc, configLine acc buf = (acc.1, v) := by
  unfold configLine getDirective
  dsimp only
  by_cases hbp : ((content buf).dropWhile isWhite).takeWhile (· != '#') = []
  · exact .inl fun acc => if_pos hbp
  generalize ((content buf).dropWhile isWhite).takeWhile (· != '#') = bp at hbp
  by_cases hkey : bp.takeWhile (!isWhite ·) = agentKeyEvtHandleMode
  · simp only [if_neg hbp, if_pos hkey]
    by_cases hopt : (bp.dropWhile (!isWhite ·)).dropWhile isDelim = []
    · exact .inl fun acc => if_pos hopt
    · simp only [if_neg hopt]
      generalize ((bp.dropWhile (!isWhite ·)).dropWhile isDelim).takeWhile (!isDelim ·) = option
      cases hv : modeOf option with
      | none =>
        refine .inr (.inl fun acc => ?_)
        rw [setEvtHandleMode_none hv]
        rfl
      | some v =>
        refine .inr (.inr ⟨v, fun acc => ?_⟩)
        rw [setEvtHandleMode_some hv]
        rfl
  · refine .inr (.inl fun acc => ?_)
    simp only [if_neg hbp, if_neg hkey]

/-- A line that is no error. -/
def Accepted (buf : CStr) : Prop := ∀ acc, (configLine acc buf).1 = acc.1

theorem foldl_configLine_accepted (bufs : List CStr) (acc : ℕ × HandleMode) :
    acc.1 ≤ (bufs.foldl configLine acc).1 ∧
      ((bufs.foldl configLine acc).1 = acc.1 → ∀ buf ∈ bufs, Accepted buf) := by
  induction bufs generalizing acc with
  | nil => exact ⟨le_rfl, fun _ buf hbuf => absurd hbuf List.not_mem_nil⟩
  | cons buf bufs ih =>
    obtain ⟨hle, hall⟩ := ih (configLine acc buf)
    rw [List.foldl_cons]
    rcases configLine_cases buf with h | h | ⟨v, h⟩
    · rw [h acc] at hle hall ⊢
      exact ⟨hle, fun heq => List.forall_mem_cons.mpr ⟨fun acc' => by rw [h acc'], hall heq⟩⟩
    · rw [h acc] at hle ⊢
      exact ⟨by omega, fun heq => by omega⟩
    · rw [h acc] at hle hall ⊢
      exact ⟨hle, fun heq => List.forall_mem_cons.mpr ⟨fun acc' => by rw [h acc'], hall heq⟩⟩

/-- A line that sets the directive is one for the writer: a comment would leave no value. -/
theorem SetsDirective.isDirective {l : CStr} (h : SetsDirective l) : IsDirective agentKeyEvtHandleMode l := by
  obtain ⟨hkey, hvalue⟩ := h
  have hsplit := List.takeWhile_append_dropWhile (p := (· != '#')) (l := (content l).dropWhile isWhite)
  rw [IsDirective, ← hsplit, List.takeWhile_append]
  generalize ((content l).dropWhile isWhite).takeWhile (· != '#') = bp at hkey hvalue ⊢
  have hlen : (bp.takeWhile (!isWhite ·)).length ≠ bp.length := by
    intro heq
    have hword : bp.takeWhile (!isWhite ·) = bp := (List.takeWhile_prefix _).eq_of_length heq
    rw [List.dropWhile_eq_nil_iff.mpr (List.takeWhile_eq_self_iff.mp hword)] at hvalue
    exact hvalue rfl
  rw [if_neg hlen]
  exact hkey

theorem configLine_kept {buf : CStr} (hacc : Accepted buf) (hno : ¬ SetsDirective buf)
    (acc : ℕ × HandleMode) : configLine acc buf = acc := by
  have hfst := hacc acc
  unfold SetsDirective at hno
  unfold configLine getDirective at hfst ⊢
  dsimp only at hno hfst ⊢
  generalize ((content buf).dropWhile isWhite).takeWhile (· != '#') = bp at hno hfst ⊢
  by_cases hbp : bp = []
  · exact if_pos hbp
  by_cases hkey : bp.takeWhile (!isWhite ·) = agentKeyEvtHandleMode
  · have hdrop : (bp.dropWhile (!isWhite ·)).dropWhile isDelim = [] := by
      by_contra hvalue
      exact hno ⟨hkey, hvalue⟩
    simp only [if_neg hbp, if_pos hkey]
    exact if_pos hdrop
  · simp only [if_neg hbp, if_neg hkey] at hfst
    omega

theorem modeOf_cases {value : CStr} {v : HandleMode} (hv : modeOf value = some v) :
    (value = "manual".toList ∧ v = .manual) ∨ (value = "auto".toList ∧ v = .auto) ∨
      (value = "define".toList ∧ v = .define) := by
  unfold modeOf at hv
  split_ifs at hv with h1 h2 h3
  · exact .inl ⟨h1, (Option.some.inj hv).symm⟩
  · exact .inr (.inl ⟨h2, (Option.some.inj hv).symm⟩)
  · exact .inr (.inr ⟨h3, (Option.some.inj hv).symm⟩)

theorem configLine_directLine {value : CStr} {v : HandleMode} (hv : modeOf value = some v)
    (acc : ℕ × HandleMode) : configLine acc (directLine agentKeyEvtHandleMode value) = (acc.1, v) := by
  obtain ⟨n, m⟩ := acc
  rcases modeOf_cases hv with ⟨rfl, rfl⟩ | ⟨rfl, rfl⟩ | ⟨rfl, rfl⟩ <;> rfl

/-! ## The new file -/

/-- What stands in the new file for a line that has no NUL. -/
def replaced (value l : CStr) : CStr :=
  if IsDirective agentKeyEvtHandleMode l then directLine agentKeyEvtHandleMode value else l

theorem terminated_directLine {value : CStr} {v : HandleMode} (hv : modeOf value = some v) :
    Terminated (directLine agentKeyEvtHandleMode value) := by
  refine ⟨agentKeyEvtHandleMode ++ ' ' :: value, ?_, by simp [directLine]⟩
  rcases modeOf_cases hv with ⟨rfl, -⟩ | ⟨rfl, -⟩ | ⟨rfl, -⟩ <;> decide

theorem copied_eq_replaced {value l : CStr} (h : ¬ IsDirective agentKeyEvtHandleMode l → '\x00' ∉ l) :
    copied value l = replaced value l := by
  unfold copied replaced
  by_cases hl : IsDirective agentKeyEvtHandleMode l
  · rw [if_pos hl, if_pos hl]
  · rw [if_neg hl, if_neg hl, content_of_not_mem (h hl)]

/-- The line that is appended, if no line was set. -/
def appended (value file : CStr) : CStr :=
  if ∃ l ∈ rawLines file, IsDirective agentKeyEvtHandleMode l then []
  else directLine agentKeyEvtHandleMode value

theorem newConf_eq {value file : CStr} (hfits : ∀ l ∈ rawLines file, Fits maxline l)
    (hnul : ∀ l ∈ rawLines file, ¬ IsDirective agentKeyEvtHandleMode l → '\x00' ∉ l) :
    newConf value file = ((rawLines file).map (replaced value)).flatten ++ appended value file := by
  rw [newConf, fgetsAll_of_fits hfits, List.flatMap_def,
    List.map_congr_left fun l hl => copied_eq_replaced (hnul l hl)]
  rfl

/-- **The lines of the new file are those of the old one, with the directive set.** -/
theorem rawLines_newConf {value file : CStr} {v : HandleMode} (hv : modeOf value = some v)
    (hfits : ∀ l ∈ rawLines file, Fits maxline l) (hsafe : CopySafe file) :
    rawLines (newConf value file) =
      (rawLines file).map (replaced value) ++ rawLines (appended value file) := by
  rw [newConf_eq hfits hsafe.1]
  have hline := terminated_directLine hv
  obtain ⟨ls, t, hfile, hls, ht⟩ := exists_rawLines file
  have hrep : ∀ l ∈ ls.map (replaced value), Terminated l := by
    intro l hl
    obtain ⟨l', hl', rfl⟩ := List.mem_map.mp hl
    unfold replaced
    split_ifs
    · exact hline
    · exact hls l' hl'
  have hraw : rawLines file = ls ++ if t = [] then [] else [t] := by
    rw [hfile, rawLines_flatten hls, rawLines_last ht]
  by_cases hnil : t = []
  · rw [if_pos hnil, List.append_nil] at hraw
    rw [hraw, rawLines_flatten hrep]
  · -- the last line is not terminated, so that one of the lines is set
    have hany : ∃ l ∈ rawLines file, IsDirective agentKeyEvtHandleMode l := by
      have hno := mt (rest_eq_nil_iff hls ht).mpr hnil
      rw [← hfile] at hno
      exact ((or_assoc.mpr hsafe.2).resolve_left hno)
    have happ : appended value file = [] := if_pos hany
    have hrest : rawLines (replaced value t) = [replaced value t] := by
      unfold replaced
      split_ifs
      · exact rawLines_terminated hline
      · exact (rawLines_last ht).trans (if_neg hnil)
    rw [if_neg hnil] at hraw
    rw [happ, hraw, List.map_append, List.flatten_append, List.map_singleton, List.flatten_singleton,
      List.append_nil, rawLines_flatten hrep, hrest]
    exact (List.append_nil _).symm

theorem updateConf_ret_zero {env : UpdateEnv} {cfgfile value file : CStr} {v : HandleMode}
    (hv : modeOf value = some v) {mode : HandleMode} {s : ConfState}
    (h : updateConf env cfgfile agentKeyEvtHandleMode value ⟨some file, mode⟩ = .ret 0 s) :
    s.file = some (env.written (newConf value file)) := by
  by_cases hname : (tmpFile cfgfile).length < maxline
  · rw [updateConf_legal hv env hname] at h
    split_ifs at h
    · cases h
      rfl
    · cases h
  · rw [updateConf_overflow env hname] at h
    split_ifs at h
    cases h

theorem foldl_configLine_set {v : HandleMode} {bufs : List CStr}
    (hset : ∀ l ∈ bufs, IsDirective agentKeyEvtHandleMode l → ∀ acc, configLine acc l = (acc.1, v))
    (hkept : ∀ l ∈ bufs, ¬ IsDirective agentKeyEvtHandleMode l → ∀ acc, configLine acc l = acc)
    (acc : ℕ × HandleMode) :
    bufs.foldl configLine acc =
      (acc.1, if ∃ l ∈ bufs, IsDirective agentKeyEvtHandleMode l then v else acc.2) := by
  induction bufs generalizing acc with
  | nil => simp
  | cons l bufs ih =>
    have ih := ih (fun l' hl' => hset l' (List.mem_cons_of_mem l hl'))
      fun l' hl' => hkept l' (List.mem_cons_of_mem l hl')
    rw [List.foldl_cons, ih]
    by_cases hl : IsDirective agentKeyEvtHandleMode l
    · rw [hset l List.mem_cons_self hl acc]
      simp [hl]
    · rw [hkept l List.mem_cons_self hl acc]
      simp [hl]

theorem setsDirective_directLine {value : CStr} {v : HandleMode} (hv : modeOf value = some v) :
    SetsDirective (directLine agentKeyEvtHandleMode value) := by
  rcases modeOf_cases hv with ⟨rfl, -⟩ | ⟨rfl, -⟩ | ⟨rfl, -⟩ <;> decide

theorem mem_rawLines_newConf {value file : CStr} {v : HandleMode} (hv : modeOf value = some v)
    (hfits : ∀ l ∈ rawLines file, Fits maxline l) (hsafe : CopySafe file) {l : CStr}
    (hl : l ∈ rawLines (newConf value file)) :
    l = directLine agentKeyEvtHandleMode value ∨
      l ∈ rawLines file ∧ ¬ IsDirective agentKeyEvtHandleMode l := by
  rw [rawLines_newConf hv hfits hsafe] at hl
  rcases List.mem_append.mp hl with hl | hl
  · obtain ⟨l', hl', rfl⟩ := List.mem_map.mp hl
    unfold replaced
    split_ifs with hd
    · exact .inl rfl
    · exact .inr ⟨hl', hd⟩
  · unfold appended at hl
    split_ifs at hl
    · exact absurd hl List.not_mem_nil
    · rw [rawLines_terminated (terminated_directLine hv)] at hl
      exact .inl (List.mem_singleton.mp hl)

theorem directLine_mem {value file : CStr} {v : HandleMode} (hv : modeOf value = some v)
    (hfits : ∀ l ∈ rawLines file, Fits maxline l) (hsafe : CopySafe file) :
    directLine agentKeyEvtHandleMode value ∈ rawLines (newConf value file) := by
  rw [rawLines_newConf hv hfits hsafe, List.mem_append]
  by_cases hany : ∃ l ∈ rawLines file, IsDirective agentKeyEvtHandleMode l
  · obtain ⟨l, hl, hd⟩ := hany
    exact .inl (List.mem_map.mpr ⟨l, hl, if_pos hd⟩)
  · right
    rw [appended, if_neg hany, rawLines_terminated (terminated_directLine hv)]
    exact List.mem_singleton_self _

/-- **The new file says the value.** -/
theorem parseConfig_newConf {value file : CStr} {v : HandleMode} (hv : modeOf value = some v)
    (hfits : ∀ l ∈ rawLines file, Fits maxline l) (hsafe : CopySafe file)
    (hacc : ∀ l ∈ rawLines file, Accepted l) (m : HandleMode) :
    parseConfig (some (newConf value file)) m = (0, v) := by
  have hlines {l : CStr} (hl : l ∈ rawLines (newConf value file)) := mem_rawLines_newConf hv hfits hsafe hl
  have hdirect := (setsDirective_directLine hv).isDirective
  have hread : fgetsAll maxline (newConf value file) = rawLines (newConf value file) := by
    refine fgetsAll_of_fits fun l hl => ?_
    rcases hlines hl with rfl | ⟨hl, -⟩
    · rcases modeOf_cases hv with ⟨rfl, -⟩ | ⟨rfl, -⟩ | ⟨rfl, -⟩ <;> decide
    · exact hfits l hl
  have hset : ∀ l ∈ rawLines (newConf value file), IsDirective agentKeyEvtHandleMode l →
      ∀ acc, configLine acc l = (acc.1, v) := by
    intro l hl hd
    rcases hlines hl with rfl | ⟨-, hno⟩
    · exact configLine_directLine hv
    · exact absurd hd hno
  have hkept : ∀ l ∈ rawLines (newConf value file), ¬ IsDirective agentKeyEvtHandleMode l →
      ∀ acc, configLine acc l = acc := by
    intro l hl hno
    rcases hlines hl with rfl | ⟨hl, -⟩
    · exact absurd hdirect hno
    · exact configLine_kept (hacc l hl) (mt SetsDirective.isDirective hno)
  have hfold := foldl_configLine_set hset hkept (0, m)
  rw [if_pos ⟨_, directLine_mem hv hfits hsafe, hdirect⟩] at hfold
  rw [parseConfig, hread, hfold]
  rfl

/-! ## The law -/

theorem filter_sublist_map (value : CStr) (ls : List CStr) :
    (ls.filter (¬ IsDirective agentKeyEvtHandleMode ·)).Sublist (ls.map (replaced value)) := by
  induction ls with
  | nil => exact List.Sublist.slnil
  | cons l ls ih =>
    by_cases hl : IsDirective agentKeyEvtHandleMode l
    · rw [List.filter_cons_of_neg (by simpa using hl)]
      exact ih.trans (List.sublist_cons_self _ _)
    · rw [List.filter_cons_of_pos (by simpa using hl), List.map_cons, replaced, if_neg hl]
      exact ih.cons_cons l

theorem nul_not_mem_newConf {value : CStr} {v : HandleMode} (hv : modeOf value = some v) (file : CStr) :
    '\x00' ∉ newConf value file := by
  have hline : '\x00' ∉ directLine agentKeyEvtHandleMode value := by
    rcases modeOf_cases hv with ⟨rfl, -⟩ | ⟨rfl, -⟩ | ⟨rfl, -⟩ <;> decide
  unfold newConf
  refine List.not_mem_append (fun h => ?_) ?_
  · obtain ⟨l, -, hl⟩ := List.mem_flatMap.mp h
    unfold copied at hl
    split_ifs at hl
    · exact hline hl
    · exact not_mem_content l hl
  · split_ifs
    · exact List.not_mem_nil
    · exact hline

/-- Where nothing is set, the line that is appended goes to a last line without newline. -/
theorem rawLines_newConf_merged {value file : CStr} {v : HandleMode} (hv : modeOf value = some v)
    (hfits : ∀ l ∈ rawLines file, Fits maxline l)
    (hnul : ∀ l ∈ rawLines file, ¬ IsDirective agentKeyEvtHandleMode l → '\x00' ∉ l)
    (hnone : ¬ ∃ l ∈ rawLines file, IsDirective agentKeyEvtHandleMode l) {ls : List CStr} {t : CStr}
    (hfile : file = ls.flatten ++ t) (hls : ∀ l ∈ ls, Terminated l) (ht : '\n' ∉ t) :
    rawLines (newConf value file) = ls ++ [t ++ directLine agentKeyEvtHandleMode value] := by
  have hsame : (rawLines file).map (replaced value) = rawLines file :=
    (List.map_congr_left fun l hl => if_neg fun hd => hnone ⟨l, hl, hd⟩).trans (List.map_id _)
  rw [newConf_eq hfits hnul, hsame, flatten_rawLines, appended, if_neg hnone, hfile, List.append_assoc,
    rawLines_flatten hls]
  obtain ⟨x, hx, hline⟩ := terminated_directLine hv
  have hmerged : Terminated (t ++ directLine agentKeyEvtHandleMode value) :=
    ⟨t ++ x, List.not_mem_append ht hx, by rw [hline, List.append_assoc]⟩
  rw [rawLines_terminated hmerged]

/-- **The new file has the value, and all lines of the old one that do not set it, if and only if the lines
that are copied have no NUL, the line that is appended starts on a line of its own, and the lines that are
not copied have a value.** -/
theorem updateConf_reread_iff (value : CStr) (v : HandleMode) (hv : modeOf value = some v) (file : CStr)
    (hfits : ∀ l ∈ rawLines file, Fits maxline l) (m : HandleMode)
    (hparse : (parseConfig (some file) m).1 = 0) : UpdateRight value v file ↔ UpdateSafe file := by
  constructor
  · intro h
    obtain ⟨new, hnew, -, hsub⟩ := h ⟨true, true, true, true, id, true⟩ [] .auto _ (fun _ => rfl)
      (updateConf_legal hv _ (by decide) file .auto)
    obtain rfl : new = newConf value file := (Option.some.inj hnew).symm
    have hkept (l : CStr) (hl : l ∈ rawLines file) (hno : ¬ SetsDirective l) :
        l ∈ rawLines (newConf value file) :=
      hsub.subset (List.mem_filter.mpr ⟨hl, by simpa using hno⟩)
    have hnul : ∀ l ∈ rawLines file, ¬ IsDirective agentKeyEvtHandleMode l → '\x00' ∉ l := by
      intro l hl hno hmem
      have hl' := hkept l hl (mt SetsDirective.isDirective hno)
      exact not_mem_rawLines (nul_not_mem_newConf hv file) l hl' hmem
    have hcopy : CopySafe file := by
      refine ⟨hnul, ?_⟩
      rw [← or_assoc, or_iff_not_imp_right]
      intro hnone
      obtain ⟨ls, t, hfile, hls, ht⟩ := exists_rawLines file
      rw [hfile, ← rest_eq_nil_iff hls ht]
      by_contra hnil
      have hold : rawLines file = ls ++ [t] := by
        rw [hfile, rawLines_flatten hls, rawLines_last ht, if_neg hnil]
      have hall : (rawLines file).filter (¬ SetsDirective ·) = rawLines file :=
        List.filter_eq_self.mpr fun l hl => by
          simpa using fun hd : SetsDirective l => hnone ⟨l, hl, hd.isDirective⟩
      rw [hall, hold, rawLines_newConf_merged hv hfits hnul hnone hfile hls ht] at hsub
      have heq := List.append_cancel_left (hsub.eq_of_length (by simp))
      have hlen := congrArg List.length (List.cons.inj heq).1
      rw [List.length_append] at hlen
      have hpos : 0 < (directLine agentKeyEvtHandleMode value).length :=
        List.length_pos_iff.mpr (List.cons_ne_nil _ _)
      omega
    refine ⟨hcopy, fun l hl hd => ?_⟩
    -- a line without a value would be lost
    by_contra hno
    rcases mem_rawLines_newConf hv hfits hcopy (hkept l hl hno) with rfl | ⟨-, hnd⟩
    · exact hno (setsDirective_directLine hv)
    · exact hnd hd
  · rintro ⟨hcopy, hset⟩ env cfgfile mode s hwritten hret
    have hlines : ∀ l ∈ rawLines file, Accepted l := by
      rw [parseConfig, fgetsAll_of_fits hfits] at hparse
      refine (foldl_configLine_accepted (rawLines file) (0, m)).2 ?_
      by_contra hne
      rw [if_neg hne] at hparse
      exact absurd hparse (show (-1 : ℤ) ≠ 0 by decide)
    have hfilter : (rawLines file).filter (¬ SetsDirective ·) =
        (rawLines file).filter (¬ IsDirective agentKeyEvtHandleMode ·) := by
      refine List.filter_congr fun l hl => ?_
      have hiff : SetsDirective l ↔ IsDirective agentKeyEvtHandleMode l := ⟨fun h => h.isDirective, hset l hl⟩
      simp only [hiff]
    refine ⟨newConf value file, ?_, parseConfig_newConf hv hfits hcopy hlines, ?_⟩
    · rw [updateConf_ret_zero hv hret, hwritten]
    · rw [hfilter, rawLines_newConf hv hfits hcopy]
      exact (filter_sublist_map value _).trans (List.sublist_append_left _ _)

theorem updateConf_reread_manual :
    UpdateRight "manual".toList .manual "# mode\n event_handle_mode auto # default".toList :=
  (updateConf_reread_iff _ _ (by decide) _ (by decide) .define (by decide)).mpr (by decide)

/-- The line that is appended goes to a comment. -/
theorem updateConf_reread_fails : ¬ ∀ value v, modeOf value = some v → ∀ file,
    (∀ l ∈ rawLines file, Fits maxline l) → ∀ m, (parseConfig (some file) m).1 = 0 →
    UpdateRight value v file := by
  intro h
  have hright := h "manual".toList .manual rfl "# mode".toList (by decide) .auto (by decide)
  obtain ⟨new, hnew, hparse, -⟩ := hright ⟨true, true, true, true, id, true⟩
    "/usr/lib/fms/plugins/disk_agent_mod.conf".toList .auto _ (fun _ => rfl)
    (updateConf_legal rfl _ (by decide) _ _)
  obtain rfl := Option.some.inj hnew
  exact absurd (hparse .auto) (by decide)

end Fms
