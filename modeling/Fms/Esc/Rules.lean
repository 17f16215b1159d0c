import Fms.Esc.Parse

/-!
# Rules in any order

The rules files are read in the order of the directory, each rule goes to the front of its list, and
`fmd_case_insert` takes the first rule whose class starts the class of the event. So the rule that was
loaded last wins.

* `loaded`: the lists after some declarations have been loaded;
* `classType`: the type of a class, which does not depend on the order;
* `escParsedir_loaded`, `dirEntries_perm`: the files of a directory, in any order;
* `serd?_loaded`: the engine rule that is found;
* **`classify_loaded`**: what depends on the order of the rules, and when.
-/

namespace Fms

open CString TextFile

/-- The lists after the declarations have been loaded one after the other. -/
def loaded (entries : List EscEntry) : EscLists := EscLists.addAll {} (entries.map some)

def EscEntry.engine? : EscEntry → Option FmdSerdType
  | .serd p => some p
  | .event _ | .fault _ => none

def EscEntry.fault? : EscEntry → Option FmdFaultType
  | .fault p => some p
  | .event _ | .serd _ => none

/-- The class name of a rule. -/
def EscEntry.eclass : EscEntry → CStr
  | .event p | .fault p => p.eclass
  | .serd p => p.eclass

def engines (entries : List EscEntry) : List FmdSerdType := entries.filterMap EscEntry.engine?

def faults (entries : List EscEntry) : List FmdFaultType := entries.filterMap EscEntry.fault?

/-- The type of a class: an engine rule overrides a fault rule. -/
def classType (entries : List EscEntry) (eclass : CStr) : EventType :=
  if ∃ p ∈ engines entries, p.eclass <+: eclass then .serd
  else if ∃ p ∈ faults entries, p.eclass <+: eclass then .fault
  else .report

/-! ## The lists -/

theorem addAll_lists (pesc : EscLists) (entries : List EscEntry) :
    (pesc.addAll (entries.map some)).listSerd = (engines entries).reverse ++ pesc.listSerd ∧
      (pesc.addAll (entries.map some)).listFault = (faults entries).reverse ++ pesc.listFault := by
  induction entries generalizing pesc with
  | nil => exact ⟨rfl, rfl⟩
  | cons entry entries ih =>
    obtain ⟨hserd, hfault⟩ := ih (pesc.listAdd entry)
    change ((pesc.listAdd entry).addAll (entries.map some)).listSerd = _ ∧
      ((pesc.listAdd entry).addAll (entries.map some)).listFault = _
    rw [hserd, hfault]
    cases entry <;>
      simp [engines, faults, EscLists.listAdd, EscEntry.engine?, EscEntry.fault?, List.filterMap_cons]

theorem listSerd_loaded (entries : List EscEntry) : (loaded entries).listSerd = (engines entries).reverse :=
  (addAll_lists {} entries).1.trans (List.append_nil _)

theorem listFault_loaded (entries : List EscEntry) :
    (loaded entries).listFault = (faults entries).reverse :=
  (addAll_lists {} entries).2.trans (List.append_nil _)

/-! ## Directories -/

/-- The declarations in the rules files of a directory. -/
def dirEntries (ovf : ℤ → ℤ) (dir : List (CStr × CStr)) : List EscEntry :=
  (dir.filter fun file => isEscFile file.1).flatMap fun file =>
    (fgetsAll 128 file.2).filterMap fun buf => (escLine ovf buf).join

theorem addAll_filterMap {α : Type} (f : α → Option EscEntry) (xs : List α) (pesc : EscLists) :
    pesc.addAll (xs.map f) = pesc.addAll ((xs.filterMap f).map some) := by
  induction xs generalizing pesc with
  | nil => rfl
  | cons x xs ih =>
    rw [List.map_cons, List.filterMap_cons]
    cases hx : f x with
    | none => exact ih pesc
    | some entry => exact ih (pesc.listAdd entry)

theorem foldlM_escParsefile {ovf : ℤ → ℤ} {files : List (CStr × CStr)} {pesc r : EscLists}
    (h : files.foldlM (fun pesc file => escParsefile ovf file.2 pesc) pesc = some r) :
    r = pesc.addAll ((files.flatMap fun file =>
      (fgetsAll 128 file.2).filterMap fun buf => (escLine ovf buf).join).map some) := by
  induction files generalizing pesc with
  | nil =>
    cases h
    rfl
  | cons file files ih =>
    obtain ⟨pesc₁, hfile, h⟩ := Option.bind_eq_some_iff.mp h
    obtain ⟨-, hadd⟩ := escParsefile_eq_some.mp hfile
    have hfirst := addAll_filterMap (fun buf => (escLine ovf buf).join) (fgetsAll 128 file.2) pesc
    rw [ih h, ← hadd, hfirst, List.flatMap_cons, List.map_append]
    exact List.foldl_append.symm

/-- **A directory that is read is the declarations in it, one after the other.** -/
theorem escParsedir_loaded {ovf : ℤ → ℤ} {dir : List (CStr × CStr)} {r : EscLists}
    (h : escParsedir ovf dir {} = some r) : r = loaded (dirEntries ovf dir) :=
  foldlM_escParsefile h

theorem dirEntries_perm (ovf : ℤ → ℤ) {dir dir' : List (CStr × CStr)} (h : dir'.Perm dir) :
    (dirEntries ovf dir').Perm (dirEntries ovf dir) :=
  (h.filter _).flatMap_right _

/-! ## Matches -/

theorem serd?_loaded {entries : List EscEntry} {eclass : CStr} {p : FmdSerdType}
    (h : (loaded entries).serd? eclass = some p) : p ∈ engines entries ∧ p.eclass <+: eclass := by
  rw [FmdEsc.serd?, listSerd_loaded] at h
  have hmatch : strncmpEq p.eclass eclass p.eclass.length = true :=
    List.find?_some (p := fun p : FmdSerdType => strncmpEq p.eclass eclass p.eclass.length) h
  exact ⟨List.mem_reverse.mp (List.mem_of_find?_eq_some h), strncmpEq_left.mp hmatch⟩

theorem serd?_loaded_eq_none {entries : List EscEntry} {eclass : CStr} :
    (loaded entries).serd? eclass = none ↔ ∀ p ∈ engines entries, ¬ p.eclass <+: eclass := by
  rw [FmdEsc.serd?, listSerd_loaded, List.find?_eq_none]
  simp [strncmpEq_left]

theorem fault?_loaded_eq_none {entries : List EscEntry} {eclass : CStr} :
    (loaded entries).fault? eclass = none ↔ ∀ p ∈ faults entries, ¬ p.eclass <+: eclass := by
  rw [FmdEsc.fault?, listFault_loaded, List.find?_eq_none]
  simp [strncmpEq_left]

/-- The rule that was loaded last is found. -/
theorem serd?_loaded_last {entries : List EscEntry} {eclass : CStr} {l₁ l₂ : List FmdSerdType} {p : FmdSerdType}
    (hsplit : engines entries = l₁ ++ p :: l₂) (hp : p.eclass <+: eclass)
    (hlast : ∀ q ∈ l₂, ¬ q.eclass <+: eclass) : (loaded entries).serd? eclass = some p := by
  rw [FmdEsc.serd?, listSerd_loaded, hsplit, List.find?_eq_some_iff_append]
  refine ⟨strncmpEq_left.mpr hp, l₂.reverse, l₁.reverse, by simp, fun q hq => ?_⟩
  rw [Bool.eq_false_iff.mpr (mt strncmpEq_left.mp (hlast q (List.mem_reverse.mp hq)))]
  rfl

/-- Every rule that matches is found in some order. -/
theorem exists_perm_serd? {entries : List EscEntry} {eclass : CStr} {p : FmdSerdType}
    (hp : p ∈ engines entries) (hmatch : p.eclass <+: eclass) :
    ∃ entries', entries'.Perm entries ∧ (loaded entries').serd? eclass = some p := by
  obtain ⟨entry, hentry, heq⟩ := List.mem_filterMap.mp hp
  refine ⟨entries.erase entry ++ [entry], ?_, ?_⟩
  · exact (List.perm_append_singleton _ _).trans (List.perm_cons_erase hentry).symm
  · have hsplit : engines (entries.erase entry ++ [entry]) = engines (entries.erase entry) ++ [p] := by
      rw [engines, List.filterMap_append, List.filterMap_cons_some heq]
      rfl
    exact serd?_loaded_last hsplit hmatch fun q hq => absurd hq List.not_mem_nil

/-! ## Classification -/

theorem classify_serd {esc : FmdEsc} {pevt : FmdEvent} {p : FmdSerdType}
    (h : esc.serd? pevt.evClass = some p) :
    (fmdCaseClassify esc pevt).eventType = .serd ∧ (fmdCaseClassify esc pevt).N = p.n ∧
      (fmdCaseClassify esc pevt).T = p.t := by
  obtain ⟨ty, hf⟩ := faultRule_eq esc pevt
  have hserd : serdRule esc { pevt with eventType := ty } =
      { pevt with eventType := .serd, N := p.n, T := p.t } := by
    have hfound : esc.serd? ({ pevt with eventType := ty } : FmdEvent).evClass = some p := h
    rw [serdRule, hfound]
  rw [fmdCaseClassify, hf, hserd]
  exact ⟨rfl, rfl, rfl⟩

theorem classify_none {esc : FmdEsc} {pevt : FmdEvent} (hfresh : pevt.eventType = .zero)
    (h : esc.serd? pevt.evClass = none) :
    (fmdCaseClassify esc pevt).eventType = (if (esc.fault? pevt.evClass).isSome then .fault else .report) ∧
      (fmdCaseClassify esc pevt).N = pevt.N ∧ (fmdCaseClassify esc pevt).T = pevt.T := by
  obtain ⟨ty, hf⟩ := faultRule_eq esc pevt
  have hserd : serdRule esc { pevt with eventType := ty } = { pevt with eventType := ty } := by
    have hfound : esc.serd? ({ pevt with eventType := ty } : FmdEvent).evClass = none := h
    rw [serdRule, hfound]
  have hty : ty = if (esc.fault? pevt.evClass).isSome then .fault else .zero := by
    have heq := congrArg FmdEvent.eventType hf
    rw [faultRule] at heq
    cases hfault : esc.fault? pevt.evClass with
    | none =>
      rw [hfault] at heq
      exact heq.symm.trans hfresh
    | some p =>
      rw [hfault] at heq
      exact heq.symm
  rw [fmdCaseClassify, hf, hserd, hty]
  cases (esc.fault? pevt.evClass).isSome <;> exact ⟨rfl, rfl, rfl⟩

theorem eventType_loaded (entries : List EscEntry) {pevt : FmdEvent} (hfresh : pevt.eventType = .zero) :
    (fmdCaseClassify (loaded entries).toFmdEsc pevt).eventType = classType entries pevt.evClass := by
  rw [classType]
  cases h : (loaded entries).serd? pevt.evClass with
  | some p => rw [(classify_serd h).1, if_pos ⟨p, serd?_loaded h⟩]
  | none =>
    have hserd : ¬ ∃ p ∈ engines entries, p.eclass <+: pevt.evClass := fun ⟨p, hp, hmatch⟩ =>
      serd?_loaded_eq_none.mp h p hp hmatch
    rw [(classify_none hfresh h).1, if_neg hserd]
    cases hf : (loaded entries).fault? pevt.evClass with
    | none =>
      have hfault : ¬ ∃ p ∈ faults entries, p.eclass <+: pevt.evClass := fun ⟨p, hp, hmatch⟩ =>
        fault?_loaded_eq_none.mp hf p hp hmatch
      rw [if_neg hfault]
      rfl
    | some p =>
      have hfault : ∃ p ∈ faults entries, p.eclass <+: pevt.evClass := by
        by_contra hno
        have hnone := fault?_loaded_eq_none.mpr fun p hp hmatch => hno ⟨p, hp, hmatch⟩
        rw [hnone] at hf
        cases hf
      rw [if_pos hfault]
      rfl

theorem classType_perm {entries entries' : List EscEntry} (h : entries'.Perm entries) (eclass : CStr) :
    classType entries' eclass = classType entries eclass := by
  have hengines (p : FmdSerdType) : p ∈ engines entries' ↔ p ∈ engines entries :=
    (h.filterMap _).mem_iff
  have hfaults (p : FmdFaultType) : p ∈ faults entries' ↔ p ∈ faults entries :=
    (h.filterMap _).mem_iff
  simp only [classType, hengines, hfaults]

/-- An event after the rules have been loaded in that order and `fmd_case_insert` has classified it. -/
def classified (entries : List EscEntry) (pevt : FmdEvent) : FmdEvent :=
  fmdCaseClassify (loaded entries).toFmdEsc pevt

/-- An event has the thresholds of a rule. -/
def HasThresholds (pevt : FmdEvent) (p : FmdSerdType) : Prop := pevt.N = p.n ∧ pevt.T = p.t

section Order

variable {entries : List EscEntry} {pevt : FmdEvent}

theorem exists_thresholds {p : FmdSerdType} (hp : p ∈ engines entries) (hmatch : p.eclass <+: pevt.evClass) :
    ∃ q ∈ engines entries, q.eclass <+: pevt.evClass ∧ HasThresholds (classified entries pevt) q := by
  cases h : (loaded entries).serd? pevt.evClass with
  | none => exact absurd hmatch (serd?_loaded_eq_none.mp h p hp)
  | some q =>
    obtain ⟨hq, hmatch'⟩ := serd?_loaded h
    exact ⟨q, hq, hmatch', (classify_serd h).2⟩

/-- A rule that names the class gives the thresholds in every order exactly if all rules that match have
its thresholds. -/
theorem thresholds_iff {p : FmdSerdType} (hp : p ∈ engines entries) (hmatch : p.eclass <+: pevt.evClass) :
    (∀ entries', entries'.Perm entries → HasThresholds (classified entries' pevt) p) ↔
      ∀ q ∈ engines entries, q.eclass <+: pevt.evClass → q.n = p.n ∧ q.t = p.t := by
  constructor
  · intro h q hq hmatch'
    obtain ⟨entries', hperm, hfound⟩ := exists_perm_serd? hq hmatch'
    obtain ⟨-, hn, ht⟩ := classify_serd hfound
    obtain ⟨hn', ht'⟩ := h entries' hperm
    exact ⟨hn.symm.trans hn', ht.symm.trans ht'⟩
  · intro h entries' hperm
    have hp' : p ∈ engines entries' := (hperm.filterMap _).mem_iff.mpr hp
    obtain ⟨q, hq, hmatch', hn, ht⟩ := exists_thresholds hp' hmatch
    obtain ⟨hn', ht'⟩ := h q ((hperm.filterMap _).mem_iff.mp hq) hmatch'
    exact ⟨hn.trans hn', ht.trans ht'⟩

theorem thresholds_perm_iff (hfresh : pevt.eventType = .zero) :
    (∀ entries', entries'.Perm entries → (classified entries' pevt).N = (classified entries pevt).N ∧
        (classified entries' pevt).T = (classified entries pevt).T) ↔
      ∀ p ∈ engines entries, ∀ q ∈ engines entries, p.eclass <+: pevt.evClass → q.eclass <+: pevt.evClass →
        p.n = q.n ∧ p.t = q.t := by
  constructor
  · intro h p hp q hq hmatch hmatch'
    obtain ⟨entries₁, hperm₁, hfound₁⟩ := exists_perm_serd? hp hmatch
    obtain ⟨entries₂, hperm₂, hfound₂⟩ := exists_perm_serd? hq hmatch'
    obtain ⟨-, hn₁, ht₁⟩ := classify_serd hfound₁
    obtain ⟨-, hn₂, ht₂⟩ := classify_serd hfound₂
    obtain ⟨hn, ht⟩ := h entries₁ hperm₁
    obtain ⟨hn', ht'⟩ := h entries₂ hperm₂
    exact ⟨hn₁.symm.trans (hn.trans (hn'.symm.trans hn₂)), ht₁.symm.trans (ht.trans (ht'.symm.trans ht₂))⟩
  · intro h entries' hperm
    cases hfound : (loaded entries).serd? pevt.evClass with
    | some p =>
      obtain ⟨hp, hmatch⟩ := serd?_loaded hfound
      obtain ⟨-, hn, ht⟩ := classify_serd hfound
      have hall := (thresholds_iff hp hmatch).mpr fun q hq hmatch' => h q hq p hp hmatch' hmatch
      obtain ⟨hn', ht'⟩ := hall entries' hperm
      exact ⟨hn'.trans hn.symm, ht'.trans ht.symm⟩
    | none =>
      have hnone : (loaded entries').serd? pevt.evClass = none :=
        serd?_loaded_eq_none.mpr fun p hp =>
          serd?_loaded_eq_none.mp hfound p ((hperm.filterMap _).mem_iff.mp hp)
      obtain ⟨-, hn, ht⟩ := classify_none hfresh hfound
      obtain ⟨-, hn', ht'⟩ := classify_none hfresh hnone
      exact ⟨hn'.trans hn.symm, ht'.trans ht.symm⟩

end Order

/-- **The type of a class does not depend on the order of the rules; its thresholds are those of the rule
that was loaded last among those that match.** So the rule that names the class gives them in every order,
and they are the same in every order, exactly if all rules that match agree. -/
theorem classify_loaded (entries : List EscEntry) (addr payload : ℕ) (now : ℤ) (nvl : Nvlist) :
    let pevt := fmdCreateEreport addr payload now nvl
    (∀ entries', entries'.Perm entries →
      (classified entries' pevt).eventType = classType entries nvl.value ∧
      ∀ l₁ p l₂, engines entries' = l₁ ++ p :: l₂ → p.eclass <+: nvl.value →
        (∀ q ∈ l₂, ¬ q.eclass <+: nvl.value) → HasThresholds (classified entries' pevt) p) ∧
    (∀ p ∈ engines entries, p.eclass = nvl.value → classType entries nvl.value = .serd ∧
      ((∀ entries', entries'.Perm entries → HasThresholds (classified entries' pevt) p) ↔
        ∀ q ∈ engines entries, q.eclass <+: nvl.value → q.n = p.n ∧ q.t = p.t)) ∧
    ((∀ entries', entries'.Perm entries → (classified entries' pevt).N = (classified entries pevt).N ∧
        (classified entries' pevt).T = (classified entries pevt).T) ↔
      ∀ p ∈ engines entries, ∀ q ∈ engines entries, p.eclass <+: nvl.value → q.eclass <+: nvl.value →
        p.n = q.n ∧ p.t = q.t) := by
  intro pevt
  refine ⟨fun entries' hperm => ⟨?_, fun l₁ p l₂ hsplit hmatch hlast => ?_⟩,
    fun p hp heq => ⟨?_, ?_⟩, thresholds_perm_iff rfl⟩
  · exact (eventType_loaded entries' rfl).trans (classType_perm hperm _)
  · exact (classify_serd (serd?_loaded_last hsplit hmatch hlast)).2
  · exact if_pos ⟨p, hp, heq ▸ List.prefix_rfl⟩
  · exact thresholds_iff hp (show p.eclass <+: pevt.evClass from heq ▸ List.prefix_rfl)

/-- The rule that names the class loses to one for a shorter name that was loaded after it. -/
theorem classify_not_exact : ¬ ∀ (entries : List EscEntry) (addr payload : ℕ) (now : ℤ) (nvl : Nvlist),
    (entries.map EscEntry.eclass).Nodup → ∀ p ∈ engines entries, p.eclass = nvl.value →
    HasThresholds (classified entries (fmdCreateEreport addr payload now nvl)) p := by
  intro h
  have hexact := h
    [.serd ⟨"ereport.cpu.cache_ce".toList, 6, 3600⟩, .serd ⟨"ereport.cpu.cache".toList, 3, 259200⟩] 0 1 0
    ⟨"cpu".toList, 0, "ereport.cpu.cache_ce".toList, 0, false⟩ (by decide)
    ⟨"ereport.cpu.cache_ce".toList, 6, 3600⟩ (by decide) rfl
  unfold HasThresholds at hexact
  exact absurd hexact (by decide)

end Fms
