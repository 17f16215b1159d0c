import Fms.Adm.CheckEsc
import Fms.Conf.Subscribe
import Fms.Lib.PrefixPattern
import Fms.Routing

/-!
# Subscriptions that an agent has already

src/tools/fmsadm/config.c: `check_sub_rep` compares a new subscription with every line of the agent's
.conf file that mentions one, over their common length. The daemon matches events with what
`agent_module_conf` has read from the file.

* `checkSubRep`: the code; what is read behind the buffer has no value;
* `AddRequest`: the requests, with **`exists_addRequest`**: every line that `check_esc` accepts is one;
* `dotPattern`: a subscription as the daemon sees it, with **`exists_fmdSubMatches_iff`**;
* `Hits`: a string that compares equal, and `PlainSub`: a line that tool and daemon read alike;
* **`checkSubRepRight_iff`**: when the request is rejected for the events that are matched twice;
* **`checkSubRepRight_of_plain`**: it is so for plain files.
-/

namespace Fms

open CString TextFile PrefixPattern

def confPath (modName : CStr) : Option CStr :=
  store 50 ("/usr/lib/fms/plugins/".toList ++ modName ++ ".conf".toList)

/-- An `int` as the `size_t` of `strncmp`. -/
def asSize (n : ℤ) : ℕ := if 0 ≤ n then n.toNat else (2 ^ 64 + n).toNat

/-- The length of a text behind the keyword: three less where a star is in the string. -/
def subLength (s text : CStr) : ℤ := (text.length : ℤ) - if '*' ∈ s then 3 else 0

/-- The comparison of `check_sub_rep`, with the text at `rep + 10`. -/
def sameSub (tmp rep text : CStr) : Bool :=
  strncmpEq (tmp.drop 10) text
    (asSize (if subLength tmp (tmp.drop 10) > subLength rep text then subLength rep text
      else subLength tmp (tmp.drop 10)))

/-- `fgets` into a buffer: behind the NUL of the string stays what was there. -/
def readInto (buf s : CStr) : CStr := s ++ '\x00' :: buf.drop (s.length + 1)

/-- `rep + 10`, for a word of nine characters; `none` is behind the buffer. -/
def behindWord (buf rep : CStr) : Option CStr :=
  if (content buf).length - rep.length + 10 < lineLen then
    some (content (buf.drop ((content buf).length - rep.length + 10)))
  else none

/-- The loop of `check_sub_rep`, with its buffer. -/
def checkSubRepLoop (tmp : CStr) : CStr → List CStr → Option ℤ
  | _, [] => some 0
  | buf, s :: strings =>
    let buf := readInto buf s
    match strstr "subscribe".toList (content buf) with
    | none => checkSubRepLoop tmp buf strings
    | some rep =>
      (behindWord buf rep).bind fun text =>
        if sameSub tmp rep text then some (-1) else checkSubRepLoop tmp buf strings

/-- `check_sub_rep`, with the files that can be opened. -/
def checkSubRep (fs : CStr → Option CStr) (sub modName : CStr) : Option ℤ :=
  (confPath modName).bind fun modfile =>
    match fs modfile with
    | none => some (-1)
    | some conf =>
      match strstr "subscribe:".toList sub with
      | none => some (-1)
      | some tmp => checkSubRepLoop tmp (List.replicate lineLen '\x00') (fgetsAll lineLen conf)

/-! ## Requests -/

/-- A line that `check_esc` may accept. -/
structure AddRequest where
  blanks : ℕ
  sub : CStr
  event : "event".toList <+: sub
  dot : '.' ∈ sub
  legal : ' ' ∉ fromDot sub
  oneLine : '\n' ∉ sub
  noNul : '\x00' ∉ sub

namespace AddRequest

variable (r : AddRequest)

def line : CStr := "add".toList ++ List.replicate r.blanks ' ' ++ ("subscribe:".toList ++ (r.sub ++ ['\n']))

end AddRequest

theorem fromDot_append {s : CStr} (h : '.' ∈ s) (t : CStr) : fromDot (s ++ t) = fromDot s ++ t := by
  rw [fromDot, List.dropWhile_append, if_neg]
  · rfl
  · intro hnil
    rw [List.isEmpty_iff, List.dropWhile_eq_nil_iff] at hnil
    exact absurd (hnil '.' h) (by decide)

theorem line_split {x front rest : CStr} (h : front ++ ("subscribe:".toList ++ rest) = x ++ ['\n']) :
    ∃ sub, rest = sub ++ ['\n'] ∧ x = front ++ ("subscribe:".toList ++ sub) := by
  rcases rest.eq_nil_or_concat with rfl | ⟨sub, c, rfl⟩
  · have hlast := congrArg List.getLast? h
    rw [List.append_nil, List.getLast?_concat, List.getLast?_append_of_ne_nil _ (by decide)] at hlast
    exact absurd hlast (by decide +kernel)
  · rw [List.concat_eq_append, ← List.append_assoc, ← List.append_assoc] at h
    obtain ⟨hx, hc⟩ := List.append_inj' h rfl
    refine ⟨sub, ?_, ?_⟩
    · rw [List.concat_eq_append, hc]
    · rw [← hx, List.append_assoc]

theorem add_prefix {front s : CStr} (h : "add".toList <+: front ++ ("subscribe:".toList ++ s)) :
    "add".toList <+: front := by
  rcases List.prefix_or_prefix_of_prefix h (List.prefix_append front _) with hpre | ⟨u, hu⟩
  · exact hpre
  · rw [← hu, List.prefix_append_right_inj] at h
    cases u with
    | nil =>
      rw [← hu, List.append_nil]
    | cons c u =>
      have hs : c = 's' := (List.cons_prefix_cons.mp h).1
      have hmem : 's' ∈ "add".toList := hu ▸ List.mem_append_right front (hs ▸ List.mem_cons_self)
      exact absurd hmem (by decide)

/-- **Every line that `check_esc` accepts is such a request.** -/
theorem exists_addRequest {fs : CStr → Option CStr} {x modName : CStr} (hline : '\n' ∉ x) (hnul : '\x00' ∉ x)
    (hadd : "add".toList <+: x) (h : checkEsc fs (x ++ ['\n']) modName = some 0) :
    ∃ r : AddRequest, r.line = x ++ ['\n'] := by
  obtain ⟨subhead, hhead, hblanks, hevent, subclass, hclass, hlegal⟩ := checkEsc_form h
  obtain ⟨⟨rest, rfl⟩, front, hfront⟩ := strstr_eq_some hhead
  obtain ⟨sub, rfl, rfl⟩ := line_split hfront
  obtain ⟨b, rfl⟩ := add_prefix hadd
  generalize hkey : "subscribe:".toList = key at *
  have hten : key.length = 10 := by
    rw [← hkey]
    decide +kernel
  have hnewline : '\n' ∉ sub := fun hmem => hline (List.mem_append_right _ (List.mem_append_right key hmem))
  have hzero : '\x00' ∉ sub := fun hmem => hnul (List.mem_append_right _ (List.mem_append_right key hmem))
  have hb : b = List.replicate b.length ' ' := by
    generalize key ++ (sub ++ ['\n']) = tail at hfront hblanks
    have hlen : ("add".toList ++ b ++ tail).length - tail.length - 3 = b.length := by
      rw [List.length_append, Nat.add_sub_cancel, List.length_append]
      exact Nat.add_sub_cancel_left 3 b.length
    have hdrop : ("add".toList ++ b ++ tail).drop 3 = b ++ tail := rfl
    rw [← hfront, hlen, hdrop, List.take_left] at hblanks
    exact List.eq_replicate_of_mem hblanks
  have hstart : "event".toList <+: sub := by
    rw [List.drop_left' hten] at hevent
    refine prefix_of_prefix_append hevent fun a ha => ?_
    rw [← Option.some_inj.mp ha]
    decide
  have hfrontDot : '.' ∉ "add".toList ++ b ++ key := by
    refine List.not_mem_append (List.not_mem_append (by decide) ?_) (hkey ▸ by decide +kernel)
    rw [hb]
    exact fun hmem => absurd (List.eq_of_mem_replicate hmem) (by decide)
  rw [← hfront, ← List.append_assoc, strstr_dot, ← strstr_singleton, strstr_skip hfrontDot,
    strstr_singleton] at hclass
  have hdot : '.' ∈ sub := by
    have hmem : '.' ∈ sub ++ ['\n'] := strchr_isSome.mp (by rw [hclass]; rfl)
    rw [List.mem_append] at hmem
    exact hmem.resolve_right (by decide)
  have hblank : ' ' ∉ fromDot sub := by
    rw [strchr_of_mem (List.mem_append_left _ hdot), Option.some_inj] at hclass
    have hfrom : fromDot (sub ++ ['\n']) = subclass := hclass
    rw [fromDot_append hdot] at hfrom
    exact fun hmem => hlegal (hfrom ▸ List.mem_append_left _ hmem)
  refine ⟨⟨b.length, sub, hstart, hdot, hblank, hnewline, hzero⟩, ?_⟩
  rw [AddRequest.line, ← hb, hkey, ← hfront]

/-! ## What the daemon matches -/

/-- A subscription from its first dot on. -/
def dotPattern (sub : CStr) : Pattern Char :=
  if ".*".toList <:+ fromDot sub then ⟨(fromDot sub).take ((fromDot sub).length - 2), true⟩
  else ⟨fromDot sub, false⟩

/-- An event class is matched by the new subscription and by one that the daemon has read. -/
def Doubled (conf sub : CStr) : Prop :=
  ∃ eclass, fmdSubMatches eclass sub = some true ∧
    ∃ old ∈ (agentModuleConf (some conf)).2, fmdSubMatches eclass old = some true

/-- `check_sub_rep` rejects what would match an event twice, for any module whose .conf file it is. -/
def CheckSubRepRight (conf : CStr) (r : AddRequest) : Prop :=
  ∀ fs modName path, confPath modName = some path → fs path = some conf →
    ∃ ret, checkSubRep fs r.line modName = some ret ∧ (ret = -1 ↔ Doubled conf r.sub)

theorem dotPattern_matches {eclass sub : CStr} :
    (dotPattern sub).Matches (fromDot eclass) ↔ SubMatches eclass sub := by
  unfold dotPattern SubMatches Pattern.Matches
  by_cases h : ".*".toList <:+ fromDot sub
  · rw [if_pos h, if_pos rfl]
    obtain ⟨q, hq⟩ := h
    have htake : (fromDot sub).take ((fromDot sub).length - 2) = q := by
      rw [← hq, List.length_append]
      exact List.take_left
    dsimp only
    rw [htake]
    constructor
    · exact fun hpre => Or.inl ⟨q, hq.symm, hpre⟩
    · rintro (⟨p, hp, hpre⟩ | heq)
      · rw [← hq] at hp
        exact List.append_cancel_right hp ▸ hpre
      · rw [← heq, ← hq]
        exact List.prefix_append q _
  · rw [if_neg h, if_neg Bool.false_ne_true]
    constructor
    · exact Or.inr
    · rintro (⟨p, hp, -⟩ | heq)
      · exact absurd ⟨p, hp.symm⟩ h
      · exact heq

theorem fmdSubMatches_iff {eclass sub : CStr} :
    fmdSubMatches eclass sub = some true ↔
      '.' ∈ eclass ∧ '.' ∈ sub ∧ (dotPattern sub).Matches (fromDot eclass) := by
  rw [dotPattern_matches]
  constructor
  · intro h
    obtain ⟨t, ht, h'⟩ := Option.bind_eq_some_iff.mp h
    obtain ⟨t', ht', -⟩ := Option.bind_eq_some_iff.mp h'
    have hsub : '.' ∈ sub := strchr_isSome.mp (by rw [ht]; rfl)
    have hclass : '.' ∈ eclass := strchr_isSome.mp (by rw [ht']; rfl)
    obtain ⟨m, hm, hiff⟩ := fmdSubMatches_spec hclass hsub
    rw [hm, Option.some_inj] at h
    exact ⟨hclass, hsub, hiff.mp h⟩
  · rintro ⟨hclass, hsub, hmatch⟩
    obtain ⟨m, hm, hiff⟩ := fmdSubMatches_spec hclass hsub
    rw [hm, hiff.mpr hmatch]

theorem fromDot_eq_cons {s : CStr} (h : '.' ∈ s) : ∃ t, fromDot s = '.' :: t := by
  have hchr := strchr_of_mem h
  exact strchr_eq_some hchr

theorem head_append_fromDot (s : CStr) : s.takeWhile (· != '.') ++ fromDot s = s :=
  List.takeWhile_append_dropWhile

theorem dotPattern_matches_dot {sub s : CStr} (hsub : '.' ∈ sub) (h : (dotPattern sub).Matches s)
    (hs : ∀ t, s ≠ '.' :: t) : (dotPattern sub).Matches ['.'] := by
  obtain ⟨t, ht⟩ := fromDot_eq_cons hsub
  unfold dotPattern Pattern.Matches at h ⊢
  split
  case isTrue hstar =>
    rw [if_pos hstar, if_pos rfl] at h
    rw [if_pos rfl]
    dsimp only at h ⊢
    generalize (fromDot sub).length - 2 = n at h
    cases n with
    | zero => exact List.nil_prefix
    | succ n =>
      rw [ht, List.take_succ_cons] at h
      obtain ⟨u, rfl⟩ := h
      exact absurd rfl (hs _)
  case isFalse hstar =>
    rw [if_neg hstar, if_neg Bool.false_ne_true] at h
    exact absurd (h.symm.trans ht) (hs t)

/-- **Two subscriptions match a common event where their patterns overlap.** -/
theorem exists_fmdSubMatches_iff {sub old : CStr} :
    (∃ eclass, fmdSubMatches eclass sub = some true ∧ fmdSubMatches eclass old = some true) ↔
      '.' ∈ sub ∧ '.' ∈ old ∧ (dotPattern sub).Overlap (dotPattern old) := by
  simp only [fmdSubMatches_iff]
  constructor
  · rintro ⟨eclass, ⟨-, hsub, h⟩, -, hold, h'⟩
    exact ⟨hsub, hold, (exists_matches_iff _ _).mp ⟨_, h, h'⟩⟩
  · rintro ⟨hsub, hold, hover⟩
    obtain ⟨s, h, h'⟩ := (exists_matches_iff _ _).mpr hover
    by_cases hs : ∃ t, s = '.' :: t
    · obtain ⟨t, rfl⟩ := hs
      exact ⟨'.' :: t, ⟨List.mem_cons_self, hsub, h⟩, List.mem_cons_self, hold, h'⟩
    · have hs' : ∀ t, s ≠ '.' :: t := fun t ht => hs ⟨t, ht⟩
      exact ⟨['.'], ⟨List.mem_cons_self, hsub, dotPattern_matches_dot hsub h hs'⟩, List.mem_cons_self, hold,
        dotPattern_matches_dot hold h' hs'⟩

/-- A subscription that the daemon reads overlaps the new one. -/
def Overlaps (conf sub : CStr) : Prop :=
  ∃ old ∈ (agentModuleConf (some conf)).2, '.' ∈ old ∧ (dotPattern sub).Overlap (dotPattern old)

theorem doubled_iff (conf : CStr) (r : AddRequest) : Doubled conf r.sub ↔ Overlaps conf r.sub := by
  constructor
  · rintro ⟨eclass, h, old, hold, h'⟩
    obtain ⟨-, hdot, hover⟩ := exists_fmdSubMatches_iff.mp ⟨eclass, h, h'⟩
    exact ⟨old, hold, hdot, hover⟩
  · rintro ⟨old, hold, hdot, hover⟩
    obtain ⟨eclass, h, h'⟩ := exists_fmdSubMatches_iff.mpr ⟨r.dot, hdot, hover⟩
    exact ⟨eclass, h, old, hold, h'⟩

/-! ## What the code compares -/

/-- The text behind the keyword that is compared: without its last three characters where a star is in
the string, if it has as many. -/
def comparedText (rep text : CStr) : Option CStr :=
  if '*' ∈ rep then
    if 3 ≤ text.length then some (text.take (text.length - 3)) else none
  else some text

/-- The text of the new subscription that is compared. -/
def AddRequest.text (r : AddRequest) : CStr :=
  if '*' ∈ r.sub then r.sub.take (r.sub.length - 2) else r.sub ++ ['\n']

/-- The string in the buffer ends with the word, and there the buffer ends too. -/
def Breaks (buf : CStr) : Prop :=
  ∃ rep ∈ strstr "subscribe".toList (content buf), behindWord buf rep = none

/-- The string in the buffer mentions a subscription, and the new one is the same over the common
length. -/
def Hits (r : AddRequest) (buf : CStr) : Prop :=
  ∃ rep ∈ strstr "subscribe".toList (content buf), ∃ text ∈ behindWord buf rep,
    ∃ t ∈ comparedText rep text, Comparable r.text t

/-- The buffer after each string. -/
def buffers : CStr → List CStr → List CStr
  | _, [] => []
  | buf, s :: strings => readInto buf s :: buffers (readInto buf s) strings

/-- No string breaks off with the buffer before one hits. -/
def InBounds (r : AddRequest) : List CStr → Prop
  | [] => True
  | buf :: bufs => Hits r buf ∨ ¬ Breaks buf ∧ InBounds r bufs

theorem comparedText_length {rep text t : CStr} (h : comparedText rep text = some t) :
    subLength rep text = t.length ∧ t = text.take t.length := by
  unfold comparedText at h
  unfold subLength
  split at h
  case isTrue hstar =>
    rw [if_pos hstar]
    split at h
    case isTrue hlen =>
      cases h
      refine ⟨?_, ?_⟩
      · rw [List.length_take]
        omega
      · rw [List.length_take, Nat.min_eq_left (by omega)]
    case isFalse => cases h
  case isFalse hstar =>
    cases h
    rw [if_neg hstar, List.take_length]
    exact ⟨Int.sub_zero _, rfl⟩

theorem comparedText_eq_none {rep text : CStr} (h : comparedText rep text = none) :
    text.length < 3 ∧ subLength rep text = (text.length : ℤ) - 3 := by
  unfold comparedText at h
  split at h
  case isTrue hstar =>
    split at h
    case isTrue => cases h
    case isFalse hlen => exact ⟨not_le.mp hlen, by rw [subLength, if_pos hstar]⟩
  case isFalse => cases h

theorem sameSub_of_text {tmp rep text a b : CStr} (ha : comparedText tmp (tmp.drop 10) = some a)
    (hb : comparedText rep text = some b) : sameSub tmp rep text = true ↔ Comparable a b := by
  obtain ⟨hla, hta⟩ := comparedText_length ha
  obtain ⟨hlb, htb⟩ := comparedText_length hb
  have hsize : asSize (if subLength tmp (tmp.drop 10) > subLength rep text then subLength rep text
      else subLength tmp (tmp.drop 10)) = min a.length b.length := by
    rw [hla, hlb, asSize]
    split_ifs <;> omega
  have htake : ∀ {t u : CStr}, t = u.take t.length → ∀ n, n ≤ t.length → u.take n = t.take n := by
    intro t u heq n hn
    calc
      u.take n = (u.take t.length).take n := by rw [List.take_take, Nat.min_eq_left hn]
      _ = t.take n := by rw [← heq]
  rw [sameSub, hsize, strncmpEq, beq_iff_eq, comparable_iff_take, htake hta _ (Nat.min_le_left _ _),
    htake htb _ (Nat.min_le_right _ _)]

theorem star_mem_append {key : CStr} (h : '*' ∉ key) (s : CStr) : '*' ∈ key ++ (s ++ ['\n']) ↔ '*' ∈ s := by
  rw [List.mem_append, or_iff_right h, List.mem_append, or_iff_left (by decide)]

namespace AddRequest

variable (r : AddRequest)

/-- `tmp` -/
def tmp : CStr := "subscribe:".toList ++ (r.sub ++ ['\n'])

theorem drop_tmp : r.tmp.drop 10 = r.sub ++ ['\n'] := by
  have hlen : "subscribe:".toList.length = 10 := by decide +kernel
  exact List.drop_left' hlen

theorem strstr_line : strstr "subscribe:".toList r.line = some r.tmp := by
  have hskip : 's' ∉ "add".toList ++ List.replicate r.blanks ' ' := by
    rw [List.mem_append, not_or]
    refine ⟨by decide, fun h => ?_⟩
    exact absurd (List.eq_of_mem_replicate h) (by decide)
  rw [line]
  exact (strstr_skip hskip _ _).trans (strstr_append 's' "ubscribe:".toList (r.sub ++ ['\n']))

theorem six_le_length : 6 ≤ r.sub.length := by
  obtain ⟨t, ht⟩ := r.event
  have hdot := r.dot
  rw [← ht] at hdot ⊢
  have hne : t ≠ [] := by
    rintro rfl
    exact absurd hdot (by decide)
  have := List.length_pos_iff.mpr hne
  rw [List.length_append]
  change 6 ≤ 5 + t.length
  omega

theorem comparedText_tmp : comparedText r.tmp (r.tmp.drop 10) = some r.text := by
  have hdrop := r.drop_tmp
  have hstar : '*' ∈ r.tmp ↔ '*' ∈ r.sub := star_mem_append (by decide +kernel) r.sub
  have hlen := r.six_le_length
  rw [comparedText, hdrop, List.length_append, List.length_singleton, text]
  simp only [hstar]
  split
  · rw [if_pos (by omega), List.take_append_of_le_length (by omega)]
    rfl
  · rfl

end AddRequest

theorem sameSub_iff (r : AddRequest) (rep text : CStr) :
    sameSub r.tmp rep text = true ↔ ∃ t ∈ comparedText rep text, Comparable r.text t := by
  cases h : comparedText rep text with
  | some t =>
    rw [sameSub_of_text r.comparedText_tmp h]
    simp
  | none =>
    refine iff_of_false ?_ (by simp)
    obtain ⟨hshort, hneg⟩ := comparedText_eq_none h
    have hpos := (comparedText_length r.comparedText_tmp).1
    -- the difference is negative, and enormous as a `size_t`
    have hsize : text.length < asSize (if subLength r.tmp (r.tmp.drop 10) > subLength rep text
        then subLength rep text else subLength r.tmp (r.tmp.drop 10)) := by
      rw [if_pos (by omega), asSize, if_neg (by omega)]
      omega
    intro hsame
    rw [sameSub, strncmpEq_comm, strncmpEq_beyond hsize, r.drop_tmp] at hsame
    have hlen := congrArg List.length hsame
    have hsix := r.six_le_length
    rw [List.length_append] at hlen
    omega

/-! ## The loop -/

section
variable {r : AddRequest} {buf rep : CStr}

theorem hits_of_rep {text : CStr} (hrep : strstr "subscribe".toList (content buf) = some rep)
    (htext : behindWord buf rep = some text) : Hits r buf ↔ sameSub r.tmp rep text = true := by
  rw [sameSub_iff, Hits, hrep]
  simp [htext]

theorem breaks_of_rep (hrep : strstr "subscribe".toList (content buf) = some rep) :
    Breaks buf ↔ behindWord buf rep = none := by
  rw [Breaks, hrep]
  simp

theorem not_hits_of_breaks (h : Breaks buf) : ¬ Hits r buf := by
  rintro ⟨rep, hrep, text, htext, -⟩
  rw [(breaks_of_rep hrep).mp h] at htext
  exact absurd htext (Option.not_mem_none text)

theorem no_rep (hrep : strstr "subscribe".toList (content buf) = none) : ¬ Hits r buf ∧ ¬ Breaks buf := by
  rw [Hits, Breaks, hrep]
  simp

end

/-- **What the loop returns.** -/
theorem checkSubRepLoop_spec (r : AddRequest) (buf : CStr) (strings : List CStr) :
    (checkSubRepLoop r.tmp buf strings = some (-1) ↔
        InBounds r (buffers buf strings) ∧ ∃ b ∈ buffers buf strings, Hits r b) ∧
      (checkSubRepLoop r.tmp buf strings = some 0 ↔
        InBounds r (buffers buf strings) ∧ ∀ b ∈ buffers buf strings, ¬ Hits r b) ∧
      ∀ ret ∈ checkSubRepLoop r.tmp buf strings, ret = -1 ∨ ret = 0 := by
  induction strings generalizing buf with
  | nil => simp [checkSubRepLoop, buffers, InBounds]
  | cons s strings ih =>
    rw [checkSubRepLoop, buffers, InBounds, List.forall_mem_cons, List.exists_mem_cons_iff]
    have ih := ih (readInto buf s)
    cases hrep : strstr "subscribe".toList (content (readInto buf s)) with
    | none =>
      obtain ⟨hhit, hbreak⟩ := no_rep (r := r) hrep
      simpa [hhit, hbreak] using ih
    | some rep =>
      dsimp only
      cases htext : behindWord (readInto buf s) rep with
      | none =>
        have hbreak := (breaks_of_rep hrep).mpr htext
        simp [hbreak, not_hits_of_breaks (r := r) hbreak]
      | some text =>
        have hhits := hits_of_rep (r := r) hrep htext
        have hnot : ¬ Breaks (readInto buf s) := fun h => by
          rw [(breaks_of_rep hrep).mp h] at htext
          cases htext
        rw [Option.bind_some]
        by_cases hsame : sameSub r.tmp rep text = true
        · rw [if_pos hsame]
          simp [hhits.mpr hsame]
        · have hhit : ¬ Hits r (readInto buf s) := fun h => hsame (hhits.mp h)
          rw [if_neg hsame]
          simpa [hhit, hnot] using ih

/-- The buffer of `check_sub_rep`, after each string of the file. -/
def toolBuffers (conf : CStr) : List CStr := buffers (List.replicate lineLen '\x00') (fgetsAll lineLen conf)

theorem checkSubRep_line {fs : CStr → Option CStr} {modName path conf : CStr}
    (hpath : confPath modName = some path) (hfs : fs path = some conf) (r : AddRequest) :
    checkSubRep fs r.line modName =
      checkSubRepLoop r.tmp (List.replicate lineLen '\x00') (fgetsAll lineLen conf) := by
  rw [checkSubRep, hpath, Option.bind_some, hfs]
  dsimp only
  rw [r.strstr_line]

/-- The request is judged right if the tool stays in its buffer, and a string hits exactly if a
subscription of the daemon overlaps. -/
theorem checkSubRepRight_iff_hits (conf : CStr) (r : AddRequest) :
    CheckSubRepRight conf r ↔ InBounds r (toolBuffers conf) ∧
      ((∃ buf ∈ toolBuffers conf, Hits r buf) ↔ Overlaps conf r.sub) := by
  obtain ⟨hreject, haccept, hret⟩ :=
    checkSubRepLoop_spec r (List.replicate lineLen '\x00') (fgetsAll lineLen conf)
  rw [← toolBuffers] at hreject haccept
  constructor
  · intro h
    obtain ⟨ret, hcode, hiff⟩ := h (fun _ => some conf) "cpumem_agent".toList _ rfl rfl
    have hline := @checkSubRep_line (fun _ => some conf) "cpumem_agent".toList _ conf rfl rfl r
    rw [hline] at hcode
    rw [doubled_iff] at hiff
    rcases hret ret hcode with rfl | rfl
    · obtain ⟨hin, hhit⟩ := hreject.mp hcode
      exact ⟨hin, iff_of_true hhit (hiff.mp rfl)⟩
    · obtain ⟨hin, hnone⟩ := haccept.mp hcode
      refine ⟨hin, iff_of_false ?_ (mt hiff.mpr (by decide))⟩
      rintro ⟨buf, hbuf, hhit⟩
      exact hnone buf hbuf hhit
  · rintro ⟨hin, hiff⟩ fs modName path hpath hfs
    rw [checkSubRep_line hpath hfs]
    by_cases hover : Overlaps conf r.sub
    · exact ⟨-1, hreject.mpr ⟨hin, hiff.mpr hover⟩, iff_of_true rfl ((doubled_iff conf r).mpr hover)⟩
    · refine ⟨0, haccept.mpr ⟨hin, fun buf hbuf hhit => hover (hiff.mp ⟨buf, hbuf, hhit⟩)⟩, ?_⟩
      exact iff_of_false (by decide) (mt (doubled_iff conf r).mp hover)

/-! ## Buffers -/

theorem content_readInto (buf s : CStr) : content (readInto buf s) = content s := content_append_nul s _

theorem mem_buffers {b buf : CStr} {strings : List CStr} (h : b ∈ buffers buf strings) :
    ∃ s ∈ strings, content b = content s := by
  induction strings generalizing buf with
  | nil => exact absurd h List.not_mem_nil
  | cons s strings ih =>
    rcases List.mem_cons.mp h with rfl | h
    · exact ⟨s, List.mem_cons_self, content_readInto buf s⟩
    · obtain ⟨s', hs', heq⟩ := ih h
      exact ⟨s', List.mem_cons_of_mem s hs', heq⟩

theorem exists_buffer {s : CStr} {strings : List CStr} (h : s ∈ strings) (buf : CStr) :
    ∃ b ∈ buffers buf strings, content b = content s := by
  induction strings generalizing buf with
  | nil => exact absurd h List.not_mem_nil
  | cons s' strings ih =>
    rw [buffers]
    rcases List.mem_cons.mp h with rfl | h
    · exact ⟨_, List.mem_cons_self, content_readInto buf s⟩
    · obtain ⟨b, hb, heq⟩ := ih h (readInto buf s')
      exact ⟨b, List.mem_cons_of_mem _ hb, heq⟩

/-! ## Plain files -/

/-- The only star is that of a `.*` at the end. -/
def StarAtEnd (s : CStr) : Prop := ∃ u, '*' ∉ u ∧ (s = u ∨ s = u ++ ".*".toList)

/-- What is in front of the first dot. -/
def head (s : CStr) : CStr := s.takeWhile (· != '.')

/-- A line does not mention the word, or it is a subscription with the same head as the new one. -/
def PlainLine (sub l : CStr) : Prop :=
  ¬ "subscribe".toList <:+: l ∨
    ∃ old, l = subscribe ++ (old ++ ['\n']) ∧ '\n' ∉ old ∧ '.' ∈ old ∧ StarAtEnd old ∧ head old = head sub

theorem text_of_starAtEnd {s : CStr} (hdot : '.' ∈ s) (h : StarAtEnd s) :
    (if '*' ∈ s then s.take (s.length - 2) else s ++ ['\n']) = head s ++ (dotPattern s).terminated '\n' := by
  have hsplit := head_append_fromDot s
  obtain ⟨u, hu, heq | heq⟩ := h
  · have hno : ¬ ".*".toList <:+ fromDot s := by
      intro hsuf
      have hmem : '*' ∈ fromDot s := hsuf.subset (by decide)
      exact hu (heq ▸ (List.dropWhile_suffix _).subset hmem)
    rw [if_neg (heq ▸ hu), dotPattern, if_neg hno, Pattern.terminated, if_neg Bool.false_ne_true,
      ← List.append_assoc, head, hsplit]
  · have hstar : '*' ∈ s := by
      rw [heq]
      exact List.mem_append_right u (by decide)
    have hsuf : ".*".toList <:+ fromDot s := by
      obtain ⟨t, ht⟩ := fromDot_eq_cons hdot
      rcases List.suffix_or_suffix_of_suffix (show ".*".toList <:+ s from ⟨u, heq.symm⟩)
        (show fromDot s <:+ s from List.dropWhile_suffix _) with hs | hs
      · exact hs
      · -- the first dot is that of the end
        rw [ht] at hs ⊢
        have hcases : ∀ x : CStr, '.' :: x <:+ ".*".toList → '.' :: x = ".*".toList := by
          intro x hx
          rcases List.suffix_cons_iff.mp hx with h | h
          · exact h
          · rcases List.suffix_cons_iff.mp h with h | h
            · exact absurd (List.cons.inj h).1 (by decide)
            · exact absurd (List.suffix_nil.mp h) (List.cons_ne_nil _ _)
        rw [hcases t hs]
    obtain ⟨q, hq⟩ := hsuf
    have htake : (fromDot s).take ((fromDot s).length - 2) = q := by
      rw [← hq, List.length_append]
      exact List.take_left
    have htakeS : s.take (s.length - 2) = u := by
      rw [heq, List.length_append]
      exact List.take_left
    rw [if_pos hstar, dotPattern, if_pos ⟨q, hq⟩, Pattern.terminated, if_pos rfl, htake, htakeS]
    have hends : (head s ++ q) ++ ".*".toList = u ++ ".*".toList := by
      rw [List.append_assoc, hq]
      exact hsplit.trans heq
    exact (List.append_cancel_right hends).symm

theorem newline_not_mem_stem {s : CStr} (h : '\n' ∉ s) : '\n' ∉ (dotPattern s).stem := by
  have hdot : '\n' ∉ fromDot s := fun hmem => h ((List.dropWhile_suffix _).subset hmem)
  unfold dotPattern
  split
  · exact fun hmem => hdot (List.mem_of_mem_take hmem)
  · exact hdot

/-- A subscription of the file that the tool and the daemon read alike. -/
structure PlainSub (conf sub old : CStr) : Prop where
  line : subscribe ++ (old ++ ['\n']) ∈ rawLines conf
  fits : Fits nameLen (subscribe ++ (old ++ ['\n']))
  noNul : '\x00' ∉ subscribe ++ (old ++ ['\n'])
  dot : '.' ∈ old
  starSub : StarAtEnd sub
  starOld : StarAtEnd old
  head : head old = head sub

def IsPlain (conf sub l : CStr) : Prop := ∃ old, l = subscribe ++ (old ++ ['\n']) ∧ PlainSub conf sub old

/-- One of them overlaps the new one. -/
def PlainDouble (conf sub : CStr) : Prop :=
  ∃ old, PlainSub conf sub old ∧ (dotPattern sub).Overlap (dotPattern old)

/-- The daemon reads a subscription that overlaps from another string: a line with another head or
another star, a last line without a newline, a piece of a line that is too long. -/
def OtherOverlap (conf sub : CStr) : Prop :=
  ∃ l ∈ fgetsAll nameLen conf, ¬ IsPlain conf sub l ∧
    ∃ old ∈ confLine l, '.' ∈ old ∧ (dotPattern sub).Overlap (dotPattern old)

/-- Another string hits: one of those, or one that mentions a subscription somewhere. -/
def OtherHits (conf : CStr) (r : AddRequest) : Prop :=
  ∃ buf ∈ toolBuffers conf, ¬ IsPlain conf r.sub (content buf) ∧ Hits r buf

section
variable {conf sub old buf : CStr} {r : AddRequest}

theorem confLine_plain (hnul : '\x00' ∉ subscribe ++ (old ++ ['\n'])) :
    confLine (subscribe ++ (old ++ ['\n'])) = some old := by
  have hold : '\x00' ∉ old ++ ['\n'] := fun h => hnul (List.mem_append_right _ h)
  rw [confLine_subscribe, content_of_not_mem hold, List.dropLast_concat]

theorem strstr_plain (hbuf : content buf = subscribe ++ (old ++ ['\n'])) :
    strstr "subscribe".toList (content buf) = some (subscribe ++ (old ++ ['\n'])) := by
  rw [hbuf]
  exact strstr_append 's' "ubscribe".toList (' ' :: (old ++ ['\n']))

theorem behindWord_plain (hbuf : content buf = subscribe ++ (old ++ ['\n'])) :
    behindWord buf (subscribe ++ (old ++ ['\n'])) = some (old ++ ['\n']) := by
  have hten : subscribe.length = 10 := by decide +kernel
  have hle : 10 ≤ (content buf).length := by
    rw [hbuf, List.length_append]
    omega
  rw [behindWord, hbuf, Nat.sub_self, Nat.zero_add, if_pos (by decide), content_drop hle, hbuf,
    List.drop_left' hten]

theorem not_breaks_plain (hbuf : content buf = subscribe ++ (old ++ ['\n'])) : ¬ Breaks buf := by
  rw [breaks_of_rep (strstr_plain hbuf), behindWord_plain hbuf]
  exact Option.some_ne_none _

/-- **A plain subscription hits where it overlaps.** -/
theorem hits_plain (hbuf : content buf = subscribe ++ (old ++ ['\n'])) (h : PlainSub conf r.sub old) :
    Hits r buf ↔ (dotPattern r.sub).Overlap (dotPattern old) := by
  have hmem : '*' ∈ subscribe ++ (old ++ ['\n']) ↔ '*' ∈ old := star_mem_append (by decide +kernel) old
  have hline : '\n' ∉ old := by
    intro hold
    have hpiece : Piece (subscribe ++ (old ++ ['\n'])) := (rawLines_piece conf _ h.line).1
    rw [Piece, ← List.append_assoc, List.dropLast_concat] at hpiece
    exact hpiece (List.mem_append_right _ hold)
  have htwo : 2 ≤ old.length ∨ '*' ∉ old := by
    obtain ⟨u, hu, rfl | rfl⟩ := h.starOld
    · exact Or.inr hu
    · left
      rw [List.length_append]
      exact Nat.le_add_left 2 _
  have htext : comparedText (subscribe ++ (old ++ ['\n'])) (old ++ ['\n']) =
      some (head old ++ (dotPattern old).terminated '\n') := by
    rw [← text_of_starAtEnd h.dot h.starOld, comparedText]
    simp only [hmem, List.length_append, List.length_singleton]
    split
    case isTrue hs =>
      have hle := htwo.resolve_right (not_not.mpr hs)
      rw [if_pos (by omega), List.take_append_of_le_length (by omega)]
      rfl
    case isFalse => rfl
  have hnew : r.text = head r.sub ++ (dotPattern r.sub).terminated '\n' :=
    text_of_starAtEnd r.dot h.starSub
  rw [← comparable_terminated (newline_not_mem_stem r.oneLine) (newline_not_mem_stem hline), Hits,
    strstr_plain hbuf]
  simp only [Option.mem_some_iff, exists_eq_left', behindWord_plain hbuf, htext, hnew, h.head,
    comparable_append_left]

theorem mem_agentModuleConf :
    old ∈ (agentModuleConf (some conf)).2 ↔ ∃ l ∈ fgetsAll nameLen conf, confLine l = some old := by
  change old ∈ (fgetsAll nameLen conf).foldl _ [] ↔ _
  rw [foldl_confLine, List.append_nil, List.mem_reverse, List.mem_filterMap]

theorem PlainSub.mem_fgetsAll (h : PlainSub conf sub old) {size : ℕ} (hsize : nameLen ≤ size) :
    subscribe ++ (old ++ ['\n']) ∈ fgetsAll size conf := by
  have hlen : (subscribe ++ (old ++ ['\n'])).length ≤ size - 1 :=
    Nat.le_sub_one_of_lt (lt_of_lt_of_le h.fits hsize)
  have htake := take_mem_fgetsAll (show 2 ≤ size from le_trans (by decide) hsize) h.line
  rwa [List.take_of_length_le hlen] at htake

theorem overlaps_iff : Overlaps conf sub ↔ PlainDouble conf sub ∨ OtherOverlap conf sub := by
  constructor
  · rintro ⟨old, hmem, hdot, hover⟩
    obtain ⟨l, hl, hconf⟩ := mem_agentModuleConf.mp hmem
    by_cases hplain : IsPlain conf sub l
    · obtain ⟨old', rfl, h⟩ := hplain
      obtain rfl := Option.some_inj.mp ((confLine_plain h.noNul).symm.trans hconf)
      exact .inl ⟨old', h, hover⟩
    · exact .inr ⟨l, hl, hplain, old, hconf, hdot, hover⟩
  · rintro (⟨old, h, hover⟩ | ⟨l, hl, -, old, hconf, hdot, hover⟩)
    · have hl := h.mem_fgetsAll le_rfl
      exact ⟨old, mem_agentModuleConf.mpr ⟨_, hl, confLine_plain h.noNul⟩, h.dot, hover⟩
    · exact ⟨old, mem_agentModuleConf.mpr ⟨l, hl, hconf⟩, hdot, hover⟩

theorem exists_hits_iff :
    (∃ buf ∈ toolBuffers conf, Hits r buf) ↔ PlainDouble conf r.sub ∨ OtherHits conf r := by
  constructor
  · rintro ⟨buf, hbuf, hhit⟩
    by_cases hplain : IsPlain conf r.sub (content buf)
    · obtain ⟨old, heq, h⟩ := hplain
      exact .inl ⟨old, h, (hits_plain heq h).mp hhit⟩
    · exact .inr ⟨buf, hbuf, hplain, hhit⟩
  · rintro (⟨old, h, hover⟩ | ⟨buf, hbuf, -, hhit⟩)
    · obtain ⟨buf, hbuf, heq⟩ := exists_buffer (h.mem_fgetsAll (show nameLen ≤ lineLen by decide))
        (List.replicate lineLen '\x00')
      rw [content_of_not_mem h.noNul] at heq
      exact ⟨buf, hbuf, (hits_plain heq h).mpr hover⟩
    · exact ⟨buf, hbuf, hhit⟩

end

/-- **The request is judged right if and only if the tool stays in its buffer, and a plain subscription
overlaps it; or of the other strings none hits and none is read as one that overlaps, or both by
accident.** -/
theorem checkSubRepRight_iff (conf : CStr) (r : AddRequest) :
    CheckSubRepRight conf r ↔ InBounds r (toolBuffers conf) ∧
      (PlainDouble conf r.sub ∨ (¬ OtherHits conf r ∧ ¬ OtherOverlap conf r.sub) ∨
        (OtherHits conf r ∧ OtherOverlap conf r.sub)) := by
  rw [checkSubRepRight_iff_hits, overlaps_iff, exists_hits_iff]
  tauto

theorem inBounds_of_forall {r : AddRequest} {bufs : List CStr} (h : ∀ buf ∈ bufs, ¬ Breaks buf) :
    InBounds r bufs := by
  induction bufs with
  | nil => trivial
  | cons buf bufs ih =>
    rw [List.forall_mem_cons] at h
    exact .inr ⟨h.1, ih h.2⟩

/-- **In a file of plain lines the request is judged right.** -/
theorem checkSubRepRight_of_plain {conf : CStr} {r : AddRequest} (hfits : ∀ l ∈ rawLines conf, Fits nameLen l)
    (hnul : '\x00' ∉ conf) (hplain : ∀ l ∈ rawLines conf, PlainLine r.sub l) (hstar : StarAtEnd r.sub) :
    CheckSubRepRight conf r := by
  have hlong : ∀ l ∈ rawLines conf, Fits lineLen l := fun l hl => lt_trans (hfits l hl) (by decide)
  have hcases : ∀ l ∈ rawLines conf, ¬ "subscribe".toList <:+: l ∨ IsPlain conf r.sub l := by
    intro l hl
    rcases hplain l hl with hno | ⟨old, rfl, -, hdot, hold, hhead⟩
    · exact .inl hno
    · exact .inr ⟨old, rfl, hl, hfits _ hl, not_mem_rawLines hnul _ hl, hdot, hstar, hold, hhead⟩
  -- a buffer holds a line
  have hbuf : ∀ buf ∈ toolBuffers conf,
      strstr "subscribe".toList (content buf) = none ∨ IsPlain conf r.sub (content buf) := by
    intro buf hbuf
    obtain ⟨l, hl, heq⟩ := mem_buffers hbuf
    rw [fgetsAll_of_fits hlong] at hl
    rw [heq, content_rawLine hnul hl]
    refine (hcases l hl).imp_left fun hno => ?_
    rw [← Option.not_isSome_iff_eq_none]
    exact mt strstr_isSome.mp hno
  rw [checkSubRepRight_iff]
  refine ⟨inBounds_of_forall fun buf hmem => ?_, .inr (.inl ⟨?_, ?_⟩)⟩
  · rcases hbuf buf hmem with hno | ⟨old, heq, -⟩
    · exact (no_rep (r := r) hno).2
    · exact not_breaks_plain heq
  · rintro ⟨buf, hmem, hother, hhit⟩
    exact (no_rep ((hbuf buf hmem).resolve_right hother)).1 hhit
  · rintro ⟨l, hl, hother, old, hconf, -⟩
    rw [fgetsAll_of_fits hfits] at hl
    have hno := (hcases l hl).resolve_right hother
    have hsub : ¬ subscribe <+: l := fun h => hno (List.IsInfix.trans ⟨[], [' '], rfl⟩ h.isInfix)
    rw [confLine_none hsub] at hconf
    exact absurd hconf (Option.not_mem_none old)

/-- A comment that mentions a subscription. -/
theorem checkSubRepRight_comment : ¬ CheckSubRepRight "#subscribe event.cpu.mem\n".toList
    ⟨1, "event.cpu.mem".toList, by decide +kernel, by decide, by decide, by decide, by decide⟩ := by
  intro h
  obtain ⟨ret, hcode, hiff⟩ :=
    h (fun _ => some "#subscribe event.cpu.mem\n".toList) "cpumem_agent".toList _ rfl rfl
  have hreject : checkSubRep (fun _ => some "#subscribe event.cpu.mem\n".toList)
      "add subscribe:event.cpu.mem\n".toList "cpumem_agent".toList = some (-1) := by decide +kernel
  have hret : ret = -1 := Option.some.inj (hcode.symm.trans hreject)
  obtain ⟨eclass, -, old, hold, -⟩ := hiff.mp hret
  have hnone : (agentModuleConf (some "#subscribe event.cpu.mem\n".toList)).2 = [] := by decide +kernel
  rw [hnone] at hold
  exact absurd hold List.not_mem_nil

end Fms
