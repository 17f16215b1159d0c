import Fms.Dict.Session
import Fms.Lib.TextFile

/-!
# A dictionary made from a text

src/lib/libdict/create_dict/create_dict.c: a line that starts with `msgid` and the line behind it are a
key and a value, each between double quotes.

* `getstr`, `poLoop`, `createDict`: the program;
* `PoItem`, `render`: texts by their items; `PoItem.message`: what an item says;
* `PoItem.call`: the call for an item; **`poLoop_render`**: the calls for a text are those of its items;
* **`createDicts_refines`**: what a dictionary has under a key is the last value that its texts give it.
-/

namespace Fms

open CString TextFile

def bufsiz : ℕ := 8192

/-- The bytes of a string. -/
def bytesOf (s : CStr) : Key := s.map fun c => UInt8.ofNat c.toNat

/-- The second token, and what is left of the string in the buffer. -/
def getstr (buf : CStr) : Option CStr × CStr :=
  match strtok '"' buf with
  | none => (none, buf)
  | some (tok, rest) => ((strtok '"' rest).map Prod.fst, buf.takeWhile (· == '"') ++ tok)

/-- The text that is left, whether its end was met, and the string in `str`. -/
structure PoFile where
  text : CStr
  eof : Bool
  str : Option CStr

/-- `fgets(str, BUFSIZ, fd_po)` -/
def PoFile.next (f : PoFile) : PoFile :=
  match f.text with
  | [] => { f with eof := true }
  | c :: text =>
    let r := fgets (bufsiz - 1) (c :: text)
    { text := r.2, eof := decide (r.1.length < bufsiz - 1) && decide (r.1.getLast? ≠ some '\n'), str := some (content r.1) }

/-- A pair of lines, from the first one on. -/
def poEntry (fuel : ℕ) (h : Tchdb) (f : PoFile) (str : CStr) : Except HdbFault (Tchdb × PoFile) :=
  match getstr str with
  | (none, _) => .error .null
  | (some key, str) =>
    let f := PoFile.next { f with str := some str }
    match getstr (f.str.getD []) with
    | (none, _) => .error .null
    | (some value, str) => do
      let h ← tchdbPutimpl fuel h (bytesOf key) (bytesOf value)
      .ok (h, { f with str := some str })

/-- The loop of `main`, with how many turns it may have. -/
def poLoop (fuel : ℕ) : ℕ → Tchdb → PoFile → Except HdbFault Tchdb
  | 0, _, _ => .error .endless
  | n + 1, h, f =>
    if f.eof then .ok h
    else
      let f := f.next
      match f.str with
      | none => .error .uninit
      | some str =>
        if strncmpEq str "msgid".toList 5 then do
          let r ← poEntry fuel h f str
          poLoop fuel n r.1 r.2
        else poLoop fuel n h f

def createDict (fuel n : ℕ) (g : Tchdb) (file : List UInt8) (text : CStr) : Except HdbFault (List UInt8) := do
  let h ← tchdbOpen g ⟨true, false, false⟩ file
  let h ← poLoop fuel n h ⟨text, false, none⟩
  .ok (tchdbClose h true).file

/-! ## Texts by their items -/

/-- A line by itself, or a pair of lines. -/
inductive PoItem where
  | line (l : CStr)
  | entry (key value : CStr)

/-- The word `w`, and `s` in quotes. -/
def quoteLine (w s : CStr) : CStr := w ++ '"' :: (s ++ ['"'])

def PoItem.render : PoItem → CStr
  | line l => l ++ ['\n']
  | entry key value => quoteLine "msgid ".toList key ++ '\n' :: (quoteLine "msgstr ".toList value ++ ['\n'])

/-- What an item says. The entry without a key is the head of a text, and no message. -/
def PoItem.message : PoItem → Option (Key × List UInt8)
  | line _ => none
  | entry key value => if key = [] then none else some (bytesOf key, bytesOf value)

/-- A text without quotes that fits its line. -/
def Quotable (s : CStr) : Prop := '"' ∉ s ∧ '\n' ∉ s ∧ '\x00' ∉ s ∧ s.length + 10 < bufsiz

/-- A line by itself is empty, a comment or a text in quotes. -/
def PoItem.Good : PoItem → Prop
  | line l => '\n' ∉ l ∧ '\x00' ∉ l ∧ l.length + 1 < bufsiz ∧ (l = [] ∨ l.head? = some '#' ∨ l.head? = some '"')
  | entry key value => Quotable key ∧ Quotable value

/-- A text in quotes by itself goes on with the one in front of it. -/
def PoItem.Continues : PoItem → Prop
  | line l => l.head? = some '"'
  | entry _ _ => False

/-- The head of a text, and what goes on with it. -/
def PoItem.OfHead : PoItem → Prop
  | line l => l.head? = some '"'
  | entry key _ => key = []

/-- A message has a text. -/
def PoItem.Full : PoItem → Prop
  | line _ => True
  | entry key value => key ≠ [] → value ≠ []

instance (i : PoItem) : Decidable i.Good := by
  unfold PoItem.Good Quotable
  cases i <;> infer_instance

instance (i j : PoItem) : Decidable (j.Continues → i.OfHead) := by
  unfold PoItem.Continues PoItem.OfHead
  cases i <;> cases j <;> infer_instance

instance (i : PoItem) : Decidable i.Full := by
  unfold PoItem.Full
  cases i <;> infer_instance

/-- Of an empty text between quotes the tool takes the end of the line. -/
def quoted (s : CStr) : CStr := if s = [] then ['\n'] else s

def PoItem.call : PoItem → Option DbOp
  | line _ => none
  | entry key value => some (.put (bytesOf (quoted key)) (bytesOf (quoted value)))

theorem fgets_line {l : CStr} (hl : '\n' ∉ l) {room : ℕ} (hroom : l.length < room) (s : CStr) :
    fgets room (l ++ '\n' :: s) = (l ++ ['\n'], s) := by
  induction l generalizing room with
  | nil =>
    obtain ⟨room, rfl⟩ := Nat.exists_eq_succ_of_ne_zero (Nat.ne_of_gt hroom)
    rfl
  | cons c l ih =>
    obtain ⟨room, rfl⟩ := Nat.exists_eq_succ_of_ne_zero (Nat.ne_of_gt (Nat.zero_lt_of_lt hroom))
    simp only [List.mem_cons, not_or] at hl
    rw [List.length_cons] at hroom
    rw [List.cons_append, fgets, if_neg (Ne.symm hl.1), ih hl.2 (Nat.lt_of_succ_lt_succ hroom)]
    rfl

theorem next_line {l : CStr} (hl : '\n' ∉ l) (hnul : '\x00' ∉ l) (hroom : l.length + 1 < bufsiz) (s : CStr) (eof : Bool)
    (str : Option CStr) : PoFile.next ⟨l ++ '\n' :: s, eof, str⟩ = ⟨s, false, some (l ++ ['\n'])⟩ := by
  have hread : fgets (bufsiz - 1) (l ++ '\n' :: s) = _ := fgets_line hl (by omega) s
  have hcontent : content (l ++ ['\n']) = l ++ ['\n'] := content_of_not_mem (by simp [hnul])
  obtain ⟨c, t, hcons⟩ : ∃ c t, l ++ '\n' :: s = c :: t := List.exists_cons_of_ne_nil (by simp)
  rw [PoFile.next]
  simp only
  rw [hcons] at hread ⊢
  simp only [hread, hcontent, List.getLast?_concat, ne_eq, not_true, decide_false, Bool.and_false]

theorem next_quoteLine {w v : CStr} (hv : Quotable v) (hw : '\n' ∉ w) (hw0 : '\x00' ∉ w) (hlen : w.length ≤ 7) (s : CStr)
    (eof : Bool) (str : Option CStr) :
    PoFile.next ⟨quoteLine w v ++ '\n' :: s, eof, str⟩ = ⟨s, false, some (w ++ '"' :: (v ++ ['"', '\n']))⟩ := by
  obtain ⟨-, hn, h0, hl⟩ := hv
  have hline : quoteLine w v ++ ['\n'] = w ++ '"' :: (v ++ ['"', '\n']) := by simp [quoteLine]
  rw [← hline]
  refine next_line ?_ ?_ ?_ s eof str
  · simp [quoteLine, hw, hn]
  · simp [quoteLine, hw0, h0]
  · simp only [quoteLine, List.length_append, List.length_cons, List.length_nil]
    omega

theorem getstr_quoted {w s : CStr} (hw : '"' ∉ w) (hne : w ≠ []) (hs : '"' ∉ s) :
    getstr (w ++ '"' :: (s ++ ['"', '\n'])) = (some (quoted s), w) := by
  have hfst : strtok '"' (w ++ '"' :: (s ++ ['"', '\n'])) = some (w, s ++ ['"', '\n']) := strtok_append hw hne _
  have hnone : (w ++ '"' :: (s ++ ['"', '\n'])).takeWhile (· == '"') = [] := by
    obtain ⟨c, w, rfl⟩ := List.exists_cons_of_ne_nil hne
    simp only [List.mem_cons, not_or] at hw
    simp [Ne.symm hw.1]
  rw [getstr, hfst]
  simp only [hnone, List.nil_append]
  rw [quoted]
  split_ifs with h
  · subst h
    rfl
  · rw [strtok_append hs h]
    rfl

/-! ## The loop -/

theorem strncmpEq_msgid {t : CStr} : strncmpEq t "msgid".toList 5 = true ↔ "msgid".toList <+: t := by
  have hlen : "msgid".toList.length = 5 := rfl
  rw [← hlen]
  exact strncmpEq_right

theorem not_msgid_line {l : CStr} (hl : (PoItem.line l).Good) : ¬ "msgid".toList <+: l ++ ['\n'] := by
  rintro ⟨t, ht⟩
  cases l with
  | nil => cases ht
  | cons c l =>
    obtain rfl : 'm' = c := (List.cons.inj ht).1
    rcases hl.2.2.2 with h | h | h <;> cases h

section
variable {fuel n : ℕ} {h : Tchdb} {str : Option CStr} {s : CStr}

theorem poLoop_end {t : CStr} (ht : ¬ "msgid".toList <+: t) : poLoop fuel (n + 2) h ⟨[], false, some t⟩ = .ok h := by
  have hnext : PoFile.next ⟨[], false, some t⟩ = ⟨[], true, some t⟩ := rfl
  have hnot : ¬ strncmpEq t "msgid".toList 5 = true := fun he => ht (strncmpEq_msgid.mp he)
  rw [poLoop, if_neg Bool.false_ne_true, hnext]
  simp only
  rw [if_neg hnot, poLoop, if_pos rfl]

theorem poLoop_line {l : CStr} (hl : (PoItem.line l).Good) :
    poLoop fuel (n + 1) h ⟨(PoItem.line l).render ++ s, false, str⟩ = poLoop fuel n h ⟨s, false, some (l ++ ['\n'])⟩ := by
  have hnext : PoFile.next ⟨(PoItem.line l).render ++ s, false, str⟩ = ⟨s, false, some (l ++ ['\n'])⟩ := by
    rw [PoItem.render, List.append_assoc, List.singleton_append]
    exact next_line hl.1 hl.2.1 hl.2.2.1 s false str
  have hnot : ¬ strncmpEq (l ++ ['\n']) "msgid".toList 5 = true :=
    fun he => not_msgid_line hl (strncmpEq_msgid.mp he)
  rw [poLoop, if_neg Bool.false_ne_true, hnext]
  simp only
  rw [if_neg hnot]

theorem poLoop_entry {key value : CStr} (hg : (PoItem.entry key value).Good) :
    poLoop fuel (n + 1) h ⟨(PoItem.entry key value).render ++ s, false, str⟩ =
      (tchdbPutimpl fuel h (bytesOf (quoted key)) (bytesOf (quoted value)) >>= fun h =>
        poLoop fuel n h ⟨s, false, some "msgstr ".toList⟩) := by
  obtain ⟨hk, hv⟩ := hg
  have hkey : PoFile.next ⟨(PoItem.entry key value).render ++ s, false, str⟩ =
      ⟨quoteLine "msgstr ".toList value ++ '\n' :: s, false, some ("msgid ".toList ++ '"' :: (key ++ ['"', '\n']))⟩ := by
    rw [PoItem.render, List.append_assoc, List.cons_append, List.append_assoc, List.singleton_append]
    exact next_quoteLine hk (by decide) (by decide) (by decide) _ false str
  have hvalue : ∀ t, PoFile.next ⟨quoteLine "msgstr ".toList value ++ '\n' :: s, false, t⟩ =
      ⟨s, false, some ("msgstr ".toList ++ '"' :: (value ++ ['"', '\n']))⟩ :=
    next_quoteLine hv (by decide) (by decide) (by decide) s false
  have hmsgid : strncmpEq ("msgid ".toList ++ '"' :: (key ++ ['"', '\n'])) "msgid".toList 5 = true :=
    strncmpEq_msgid.mpr ⟨' ' :: '"' :: (key ++ ['"', '\n']), rfl⟩
  have hentry : poEntry fuel h
      ⟨quoteLine "msgstr ".toList value ++ '\n' :: s, false, some ("msgid ".toList ++ '"' :: (key ++ ['"', '\n']))⟩
      ("msgid ".toList ++ '"' :: (key ++ ['"', '\n'])) =
      (tchdbPutimpl fuel h (bytesOf (quoted key)) (bytesOf (quoted value)) >>= fun h =>
        .ok (h, ⟨s, false, some "msgstr ".toList⟩)) := by
    rw [poEntry, getstr_quoted (w := "msgid ".toList) (by decide) (by decide) hk.1]
    simp only [hvalue, Option.getD_some]
    rw [getstr_quoted (w := "msgstr ".toList) (by decide) (by decide) hv.1]
  rw [poLoop, if_neg Bool.false_ne_true, hkey]
  simp only
  rw [if_pos hmsgid, hentry]
  cases tchdbPutimpl fuel h (bytesOf (quoted key)) (bytesOf (quoted value)) with
  | error e => rfl
  | ok h => rfl

end

/-- The calls for a text. -/
theorem poLoop_render {fuel n : ℕ} {h : Tchdb} {str : Option CStr} (items : List PoItem) (hg : ∀ i ∈ items, i.Good)
    (hstr : items = [] → ∃ t, str = some t ∧ ¬ "msgid".toList <+: t) (hn : items.length + 2 ≤ n) {h' : Tchdb}
    {rs : List DbReply} (hrun : Budget.run (dbStep fuel) h (items.filterMap PoItem.call) = .ok (h', rs)) :
    poLoop fuel n h ⟨(items.map PoItem.render).flatten, false, str⟩ = .ok h' := by
  induction items generalizing n h str rs with
  | nil =>
    obtain ⟨t, rfl, ht⟩ := hstr rfl
    obtain ⟨n, rfl⟩ := Nat.exists_eq_add_of_le' hn
    obtain rfl : h = h' := congrArg Prod.fst (Except.ok.inj hrun)
    exact poLoop_end ht
  | cons i items ih =>
    obtain ⟨n, rfl⟩ := Nat.exists_eq_succ_of_ne_zero (show n ≠ 0 by omega)
    rw [List.length_cons] at hn
    have hgi := hg i List.mem_cons_self
    have hgs : ∀ j ∈ items, j.Good := fun j hj => hg j (List.mem_cons_of_mem _ hj)
    rw [List.map_cons, List.flatten_cons]
    cases i with
    | line l =>
      rw [Nat.succ_eq_add_one, poLoop_line hgi]
      exact ih hgs (fun _ => ⟨_, rfl, not_msgid_line hgi⟩) (by omega) hrun
    | entry key value =>
      rw [Nat.succ_eq_add_one, poLoop_entry hgi]
      have hcons : Budget.run (dbStep fuel) h
          (DbOp.put (bytesOf (quoted key)) (bytesOf (quoted value)) :: items.filterMap PoItem.call) = .ok (h', rs) := hrun
      obtain ⟨h₁, r, rs', hstep, hrest, -⟩ := Budget.run_cons_ok hcons
      rw [dbStep] at hstep
      cases hput : tchdbPutimpl fuel h (bytesOf (quoted key)) (bytesOf (quoted value)) with
      | error e =>
        rw [hput] at hstep
        cases hstep
      | ok h₂ =>
        rw [hput] at hstep
        cases hstep
        exact ih hgs (fun _ => ⟨_, rfl, by decide⟩) (by omega) hrest

/-! ## Dictionaries -/

/-- The text of some items. -/
def renderAll (items : List PoItem) : CStr := (items.map PoItem.render).flatten

/-- What can be asked of the items of a text, for a tool that reads it in `n` turns. The messages are on one line
each: only the head goes on. -/
def GoodText (n : ℕ) (items : List PoItem) : Prop :=
  items ≠ [] ∧ items.length + 2 ≤ n ∧ (∀ i ∈ items, i.Good) ∧ items.IsChain fun i j => j.Continues → i.OfHead

instance (n : ℕ) (items : List PoItem) : Decidable (GoodText n items) := inferInstanceAs (Decidable (_ ∧ _))

def poCost (g : HdbLayout) (items : List PoItem) : ℕ := Budget.total (DbOp.cost g) (items.filterMap PoItem.call)

/-- The messages of a text, put into a map. -/
def poApply (m : KeyMap) (items : List PoItem) : KeyMap :=
  (items.filterMap PoItem.message).foldl (fun m p => Function.update m p.1 (some p.2)) m

/-- The calls for a text, made on a map. -/
def poCalls (m : KeyMap) (items : List PoItem) : KeyMap :=
  (Budget.spec DbOp.apply m (items.filterMap PoItem.call)).1

/-- The key under which the tool puts the heads of the texts. -/
def newline : Key := bytesOf ['\n']

/-- A text as the tool puts it. -/
def filled (vbuf : List UInt8) : List UInt8 := if vbuf = [] then newline else vbuf

/-- `m'` has what `m` has, but for the heads. -/
def Mirrors (m m' : KeyMap) : Prop := ∀ kbuf, kbuf ≠ newline → m' kbuf = (m kbuf).map filled

theorem bytesOf_ne_nil {s : CStr} (hs : s ≠ []) : bytesOf s ≠ [] := fun h => hs (List.map_eq_nil_iff.mp h)

theorem bytesOf_quoted (s : CStr) : bytesOf (quoted s) = filled (bytesOf s) := by
  rw [quoted, filled]
  by_cases hs : s = []
  · rw [if_pos hs, if_pos (by rw [hs]; rfl)]
    rfl
  · rw [if_neg hs, if_neg (bytesOf_ne_nil hs)]

theorem Mirrors.item {m m' : KeyMap} (h : Mirrors m m') (i : PoItem) (items : List PoItem) :
    ∃ m₁ m₁', Mirrors m₁ m₁' ∧ poApply m (i :: items) = poApply m₁ items ∧ poCalls m' (i :: items) = poCalls m₁' items := by
  cases i with
  | line l => exact ⟨m, m', h, rfl, rfl⟩
  | entry key value =>
    by_cases hk : key = []
    · subst hk
      refine ⟨m, Function.update m' newline (some (bytesOf (quoted value))), fun kbuf hne => ?_, rfl, rfl⟩
      rw [Function.update_of_ne hne]
      exact h kbuf hne
    · have happly : poApply m (.entry key value :: items) =
          poApply (Function.update m (bytesOf key) (some (bytesOf value))) items := by
        have hmsg : (PoItem.entry key value).message = some (bytesOf key, bytesOf value) := if_neg hk
        rw [poApply, List.filterMap_cons_some hmsg]
        rfl
      have hcalls : poCalls m' (.entry key value :: items) =
          poCalls (Function.update m' (bytesOf key) (some (filled (bytesOf value)))) items := by
        rw [← bytesOf_quoted, show bytesOf key = bytesOf (quoted key) by rw [quoted, if_neg hk]]
        rfl
      refine ⟨_, _, fun kbuf hne => ?_, happly, hcalls⟩
      by_cases heq : kbuf = bytesOf key
      · rw [heq, Function.update_self, Function.update_self, Option.map_some]
      · rw [Function.update_of_ne heq, Function.update_of_ne heq]
        exact h kbuf hne

theorem Mirrors.text {m m' : KeyMap} (h : Mirrors m m') (items : List PoItem) :
    Mirrors (poApply m items) (poCalls m' items) := by
  induction items generalizing m m' with
  | nil => exact h
  | cons i items ih =>
    obtain ⟨m₁, m₁', h₁, happly, hcalls⟩ := h.item i items
    rw [happly, hcalls]
    exact ih h₁

theorem mirrors_texts (texts : List (List PoItem)) {m m' : KeyMap} (h : Mirrors m m') :
    Mirrors (texts.foldl poApply m) (texts.foldl poCalls m') := by
  induction texts generalizing m m' with
  | nil => exact h
  | cons items texts ih => exact ih (h.text items)

theorem mirrors_none : Mirrors (fun _ => none) fun _ => none := fun _ _ => rfl

/-- Texts whose messages are not empty give no empty value. -/
theorem foldl_poApply_ne_nil (texts : List (List PoItem)) (hfull : ∀ t ∈ texts, ∀ i ∈ t, i.Full) {m : KeyMap}
    (hm : ∀ kbuf, m kbuf ≠ some []) (kbuf : Key) : texts.foldl poApply m kbuf ≠ some [] := by
  induction texts generalizing m with
  | nil => exact hm kbuf
  | cons items texts ih =>
    refine ih (fun t ht => hfull t (List.mem_cons_of_mem _ ht)) ?_
    have hitems := hfull items List.mem_cons_self
    rw [poApply]
    refine List.foldlRecOn (motive := fun m : KeyMap => ∀ kbuf, m kbuf ≠ some []) _ _ hm fun m hm p hp kbuf => ?_
    obtain ⟨i, hi, hmsg⟩ := List.mem_filterMap.mp hp
    cases i with
    | line l => cases hmsg
    | entry key value =>
      obtain ⟨hk, hp⟩ := Option.ite_none_left_eq_some.mp hmsg
      obtain rfl := Option.some.inj hp
      by_cases heq : kbuf = bytesOf key
      · rw [heq, Function.update_self]
        exact fun h => bytesOf_ne_nil (hitems _ hi hk) (Option.some.inj h)
      · rw [Function.update_of_ne heq]
        exact hm kbuf

theorem createDict_lies {g : Tchdb} {fuel n : ℕ} (hfuel : maxSteps ≤ fuel) {l : HdbLayout} {items : List PoItem}
    (hgood : GoodText n items) {room : ℕ} {file : List UInt8} {m : KeyMap} (hl : Lies l (poCost l items + room) file m) :
    ∃ file', createDict fuel n g file (renderAll items) = .ok file' ∧ Lies l room file' (poCalls m items) := by
  obtain ⟨hne, hn, hgood, -⟩ := hgood
  obtain ⟨h, trees, hd, rfl, rfl, hroom, rfl⟩ := hl
  obtain ⟨h₁, hopen, hop⟩ := tchdbOpen_disk hd g ⟨true, false, false⟩ rfl
  have hc : Carries h.toHdbLayout (poCost h.toHdbLayout items + room) h₁ (contents h.toHdbLayout trees) :=
    ⟨hop.layout, hop.flag rfl, hop.disk.sound, by rw [hop.fsiz]; exact hroom, trees, hop.disk.wf, rfl⟩
  obtain ⟨h₂, hrun, hlayout, -, hsound, hroom₂, trees₂, hw, hm⟩ :=
    Budget.run_refines (dbStep_refines hfuel) (items.filterMap PoItem.call) room h₁ _ hc
  have hloop := poLoop_render items hgood (show items = [] → ∃ t, none = some t ∧ _ from fun h => absurd h hne) hn hrun
  have hcreate : createDict fuel n g h.file (renderAll items) = .ok (tchdbClose h₂ true).file := by
    rw [createDict, hopen]
    show (poLoop fuel n h₁ ⟨(items.map PoItem.render).flatten, false, none⟩ >>= _) = _
    rw [hloop]
    rfl
  obtain ⟨hdisk, hl, hf⟩ := tchdbClose_disk hw hsound
  exact ⟨_, hcreate, tchdbClose h₂ true, trees₂, hdisk, rfl, hl.trans hlayout, by rw [hf]; exact hroom₂, hm⟩

/-- One text after the other, from a file that is not there yet. -/
def createDicts (fuel n : ℕ) (g : Tchdb) (texts : List CStr) : Except HdbFault (List UInt8) :=
  texts.foldlM (createDict fuel n g) []

theorem foldlM_createDict_lies {g : Tchdb} {fuel n : ℕ} (hfuel : maxSteps ≤ fuel) {l : HdbLayout} (texts : List (List PoItem))
    (hgood : ∀ items ∈ texts, GoodText n items) {room : ℕ} {file : List UInt8} {m : KeyMap}
    (hl : Lies l ((texts.map (poCost l)).sum + room) file m) :
    ∃ file', (texts.map renderAll).foldlM (createDict fuel n g) file = .ok file' ∧ Lies l room file' (texts.foldl poCalls m) := by
  induction texts generalizing file m with
  | nil =>
    rw [List.map_nil, List.sum_nil, Nat.zero_add] at hl
    exact ⟨file, rfl, hl⟩
  | cons items texts ih =>
    rw [List.map_cons, List.sum_cons, Nat.add_assoc] at hl
    obtain ⟨file₁, hcreate, hl₁⟩ := createDict_lies hfuel (hgood items List.mem_cons_self) hl (g := g)
    obtain ⟨file₂, hrest, hl₂⟩ := ih (fun t ht => hgood t (List.mem_cons_of_mem _ ht)) hl₁
    refine ⟨file₂, ?_, hl₂⟩
    rw [List.map_cons, List.foldlM_cons, hcreate]
    exact hrest

theorem createDicts_lies {g : Tchdb} (hg : Creatable g) {fuel n : ℕ} (hfuel : maxSteps ≤ fuel) (items : List PoItem)
    (texts : List (List PoItem)) (hgood : ∀ t ∈ items :: texts, GoodText n t)
    (hroom : (createFile g).fsiz + ((items :: texts).map (poCost (createFile g).toHdbLayout)).sum ≤ 2 ^ 31) :
    ∃ file, createDicts fuel n g ((items :: texts).map renderAll) = .ok file ∧
      Lies (createFile g).toHdbLayout 0 file ((items :: texts).foldl poCalls fun _ => none) := by
  have hcreated : Lies (createFile g).toHdbLayout (((items :: texts).map (poCost (createFile g).toHdbLayout)).sum + 0)
      (createFile g).file fun _ => none := created_lies hg hroom
  obtain ⟨file, hrun, hl⟩ := foldlM_createDict_lies hfuel (items :: texts) hgood (g := g) hcreated
  refine ⟨file, ?_, hl⟩
  have hfirst : createDict fuel n g [] (renderAll items) = createDict fuel n g (createFile g).file (renderAll items) := by
    rw [createDict, createDict, tchdbOpen_create g ⟨true, false, false⟩ [] rfl (Or.inr rfl)]
  rw [List.map_cons, List.foldlM_cons] at hrun
  rw [createDicts, List.map_cons, List.foldlM_cons, hfirst]
  exact hrun

/-- **What a dictionary has under a key is the last value that the texts give it**, and a line feed where that is
empty. The one key besides is the line feed, with the heads of the texts. -/
theorem createDicts_refines {g : Tchdb} (hg : Creatable g) {fuel n : ℕ} (hfuel : maxSteps ≤ fuel) (items : List PoItem)
    (texts : List (List PoItem)) (hgood : ∀ t ∈ items :: texts, GoodText n t)
    (hroom : (createFile g).fsiz + ((items :: texts).map (poCost (createFile g).toHdbLayout)).sum ≤ 2 ^ 31) :
    ∃ file, createDicts fuel n g ((items :: texts).map renderAll) = .ok file ∧
      ∀ nolck kbuf, kbuf ≠ newline →
        dbRead fuel g nolck file kbuf = .ok (((items :: texts).foldl poApply (fun _ => none) kbuf).map filled) := by
  obtain ⟨file, hrun, hl⟩ := createDicts_lies hg hfuel items texts hgood hroom
  refine ⟨file, hrun, fun nolck kbuf hne => ?_⟩
  rw [dbRead_lies hfuel hl nolck kbuf, mirrors_texts (items :: texts) mirrors_none kbuf hne]

/-- Two texts for one class, with the head of a text. -/
def headedTexts : List (List PoItem) :=
  [[.line "# disk".toList, .entry [] [], .line "\"Language: en\"".toList, .line [],
      .entry "ereport.disk".toList "FMS-1".toList, .entry "FMS-1.action".toList []],
    [.entry "ereport.disk".toList "FMS-2".toList]]

theorem createDicts_refines_headed :
    ∃ file, createDicts maxSteps 10 tchdbNew (headedTexts.map renderAll) = .ok file ∧
      ∀ nolck kbuf, kbuf ≠ newline →
        dbRead maxSteps tchdbNew nolck file kbuf = .ok ((headedTexts.foldl poApply (fun _ => none) kbuf).map filled) :=
  createDicts_refines creatable_tchdbNew le_rfl _ _ (by decide) (by decide)

end Fms
