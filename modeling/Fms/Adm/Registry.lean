import Fms.Adm.Probe
import Fms.Conf.Update

/-!
# The module that a request names

`evt_unload_module` (evtsrc.adm.c) compares as many characters of the request as the file name of a
module has, and `free_module` tells the kind of a module by its path. `agent_module_update_conf`
(evt_agent.c) takes the first module whose path contains the request.

* `unloadLoop_eq_some`, `updateFirst_of_split`: what the loops over the modules do;
* `UnloadExact`, `UpdateExact`: what the two functions are for;
* **`namedOnly_iff`**: when they act on the named module only.
-/

namespace Fms

open CString TextFile

/-! ## Modules -/

/-- A module is an `evtsrc_module_t` or an `agent_module_t` with its settings. -/
inductive ModKind where
  | source
  | agent (evtHandleMode : HandleMode)
  deriving DecidableEq, Repr

/-- A module on the list `fmd_module`. -/
structure LoadedModule extends FmdModule where
  kind : ModKind
  deriving DecidableEq, Repr

def ModKind.isAgent : ModKind → Bool
  | .source => false
  | .agent _ => true

/-- The module with another setting. -/
def LoadedModule.setMode (mode : HandleMode) (mp : LoadedModule) : LoadedModule :=
  { mp with kind := .agent mode }

/-- `strstr(s, needle) != NULL` -/
def contains (needle s : CStr) : Bool := (strstr needle s).isSome

/-- `free_module` takes the module for what it is. -/
def freesRight (mp : LoadedModule) : Bool := contains "agent".toList mp.modName == mp.kind.isAgent

namespace Registry

/-- The loop of `evt_unload_module`; `none` is a path without a slash, or a module that is freed as one of
the other kind. -/
def unloadLoop (tmp : CStr) : ℤ → List LoadedModule → Option (ℤ × List LoadedModule)
  | ret, [] => some (ret, [])
  | ret, mp :: rest =>
    if (strrchr '/' mp.modName).isNone then none
    else if unloads tmp mp.toFmdModule then
      if freesRight mp then unloadLoop tmp 0 rest else none
    else (unloadLoop tmp ret rest).map fun r => (r.1, mp :: r.2)

/-- `evt_unload_module` -/
def evtUnloadModule (modules : List LoadedModule) (module : CStr) : Option (ℤ × List LoadedModule) :=
  unloadLoop (moduleName module) (-1) modules

/-- The modules can be walked through, and those that are unloaded are freed as what they are. -/
def UnloadDefined (tmp : CStr) (mp : LoadedModule) : Prop :=
  (strrchr '/' mp.modName).isSome ∧ (unloads tmp mp.toFmdModule → freesRight mp)

theorem unloadLoop_eq_some {tmp : CStr} {ret : ℤ} {modules : List LoadedModule}
    {r : ℤ × List LoadedModule} :
    unloadLoop tmp ret modules = some r ↔ (∀ mp ∈ modules, UnloadDefined tmp mp) ∧
      r = (if modules.any fun mp => unloads tmp mp.toFmdModule then 0 else ret,
        modules.filter fun mp => !unloads tmp mp.toFmdModule) := by
  induction modules generalizing ret r with
  | nil => simp [unloadLoop, eq_comm]
  | cons mp rest ih =>
    rw [unloadLoop, List.forall_mem_cons]
    cases hslash : strrchr '/' mp.modName with
    | none => simp [UnloadDefined, hslash]
    | some p =>
      rw [Option.isNone_some, if_neg Bool.false_ne_true]
      cases hu : unloads tmp mp.toFmdModule with
      | true =>
        rw [if_pos rfl]
        cases hfree : freesRight mp with
        | true =>
          rw [if_pos rfl, ih]
          simp [UnloadDefined, hslash, hfree, hu]
        | false => simp [UnloadDefined, hu, hfree]
      | false =>
        rw [if_neg Bool.false_ne_true]
        constructor
        · intro h
          obtain ⟨r', hr', rfl⟩ := Option.map_eq_some_iff.mp h
          obtain ⟨hall, rfl⟩ := ih.mp hr'
          exact ⟨⟨⟨by rw [hslash]; rfl, fun h => absurd (hu.symm.trans h) Bool.false_ne_true⟩, hall⟩,
            by simp [hu]⟩
        · rintro ⟨⟨-, hall⟩, rfl⟩
          refine Option.map_eq_some_iff.mpr ⟨_, ih.mpr ⟨hall, rfl⟩, ?_⟩
          simp [hu]

/-- Where the modules are freed as what they are, this is the function without kinds. -/
theorem evtUnloadModule_toFmdModule {modules : List LoadedModule} {module : CStr}
    {r : ℤ × List LoadedModule} (h : evtUnloadModule modules module = some r) (fmd : Fmd)
    (hfmd : fmd.fmdModule = modules.map LoadedModule.toFmdModule) :
    Fms.evtUnloadModule fmd module =
      some (decide (r.1 = 0), { fmd with fmdModule := r.2.map LoadedModule.toFmdModule }) := by
  obtain ⟨hall, rfl⟩ := unloadLoop_eq_some.mp h
  have hslash : (fmd.fmdModule.all fun mp => (strrchr '/' mp.modName).isSome) = true := by
    rw [hfmd, List.all_map, List.all_eq_true]
    exact fun mp hmp => (hall mp hmp).1
  rw [Fms.evtUnloadModule, if_pos hslash, hfmd, List.any_map, List.filter_map]
  congr 2
  by_cases hany : (modules.any fun mp => unloads (moduleName module) mp.toFmdModule) = true
  · rw [if_pos hany]
    exact hany
  · rw [if_neg hany]
    exact Bool.eq_false_iff.mpr hany

/-- `evt_unload_module` unloads exactly the modules with the file name of the request. -/
def UnloadExact (modules : List LoadedModule) (module : CStr) : Prop :=
  evtUnloadModule modules module =
    some (if ∃ mp ∈ modules, moduleName mp.modName = moduleName module then 0 else -1,
      modules.filter fun mp => moduleName mp.modName != moduleName module)

/-- All paths have a slash, no other file name starts the one of the request, and the modules that have
it are freed as what they are. -/
structure UnloadSafe (modules : List LoadedModule) (module : CStr) : Prop where
  slash : ∀ mp ∈ modules, (strrchr '/' mp.modName).isSome
  others : ∀ mp ∈ modules, moduleName mp.modName <+: moduleName module →
    moduleName mp.modName = moduleName module
  kind : ∀ mp ∈ modules, moduleName mp.modName = moduleName module → freesRight mp

/-- **Exactly the named modules are unloaded if and only if the names can be told apart.** -/
theorem unloadExact_iff (modules : List LoadedModule) (module : CStr) :
    UnloadExact modules module ↔ UnloadSafe modules module := by
  unfold UnloadExact evtUnloadModule
  rw [unloadLoop_eq_some]
  constructor
  · rintro ⟨hall, heq⟩
    have hfilter := (Prod.mk.inj heq).2
    have hothers : ∀ mp ∈ modules, moduleName mp.modName <+: moduleName module →
        moduleName mp.modName = moduleName module := by
      intro mp hmp hpre
      by_contra hne
      have hkept : mp ∈ modules.filter fun mp => moduleName mp.modName != moduleName module :=
        List.mem_filter.mpr ⟨hmp, bne_iff_ne.mpr hne⟩
      rw [hfilter] at hkept
      have hno := (List.mem_filter.mp hkept).2
      rw [unloads_iff.mpr hpre] at hno
      exact Bool.false_ne_true hno
    refine ⟨fun mp hmp => (hall mp hmp).1, hothers, fun mp hmp heq => ?_⟩
    exact (hall mp hmp).2 (unloads_of_eq heq)
  · intro h
    have hsame : ∀ mp ∈ modules, unloads (moduleName module) mp.toFmdModule =
        (moduleName mp.modName == moduleName module) := by
      intro mp hmp
      rw [Bool.eq_iff_iff, beq_iff_eq]
      exact ⟨fun hu => h.others mp hmp (unloads_iff.mp hu), unloads_of_eq⟩
    refine ⟨fun mp hmp => ⟨h.slash mp hmp, fun hu => h.kind mp hmp ?_⟩, ?_⟩
    · exact h.others mp hmp (unloads_iff.mp hu)
    · have hany : (modules.any fun mp => unloads (moduleName module) mp.toFmdModule) = true ↔
          ∃ mp ∈ modules, moduleName mp.modName = moduleName module := by
        rw [List.any_eq_true]
        refine exists_congr fun mp => and_congr_right fun hmp => ?_
        rw [hsame mp hmp, beq_iff_eq]
      simp only [hany]
      congr 1
      refine List.filter_congr fun mp hmp => ?_
      rw [hsame mp hmp]
      rfl

/-! ## Settings -/

/-- The configuration files of the agents. -/
abbrev Files := CStr → Option CStr

/-- The path of the configuration file, in a buffer of `MAXLINE`. -/
def confName (confPath : Option CStr) (modName path : CStr) : Option CStr :=
  match confPath with
  | some dir => store maxline (dir ++ '/' :: (modName ++ "_mod.conf".toList))
  | none => (strrchr '.' path).bind fun pdot =>
    store maxline (path.take (path.length - pdot.length) ++ "_mod.conf".toList)

/-- `update_conf` for the file of that name: what it returns, and the mode and the files afterwards. -/
def updateAt (env : UpdateEnv) (direct value : CStr) (files : Files) (cfgfile : CStr) (mode : HandleMode) :
    Option (ℤ × HandleMode × Files) :=
  match updateConf env cfgfile direct value ⟨files cfgfile, mode⟩ with
  | .ret r s => some (r, s.mode, Function.update files cfgfile s.file)
  | .undefined _ => none

section Update

variable (env : UpdateEnv) (direct value : CStr) (confPath : Option CStr) (modName : CStr) (files : Files)

/-- What `agent_module_update_conf` does with the module it has found; a source module has no settings
where those of an agent would be. -/
def updateModule (mp : LoadedModule) : Option (ℤ × LoadedModule × Files) :=
  match mp.kind with
  | .source => none
  | .agent mode => (confName confPath modName mp.modName).bind fun cfgfile =>
    (updateAt env direct value files cfgfile mode).map fun r =>
      (if r.1 = 0 then 0 else -1, mp.setMode r.2.1, r.2.2)

/-- `fmd_get_module_by_name`, and what is done with the module. -/
def updateFirst : List LoadedModule → Option (ℤ × List LoadedModule × Files)
  | [] => some (-1, [], files)
  | mp :: rest =>
    if contains modName mp.modName then
      (updateModule env direct value confPath modName files mp).map fun r => (r.1, r.2.1 :: rest, r.2.2)
    else (updateFirst rest).map fun r => (r.1, mp :: r.2.1, r.2.2)

/-- `agent_module_update_conf` -/
def agentModuleUpdateConf (modules : List LoadedModule) : Option (ℤ × List LoadedModule × Files) :=
  if contains "agent".toList modName then updateFirst env direct value confPath modName files modules
  else some (-1, modules, files)

theorem updateFirst_of_none {modules : List LoadedModule}
    (h : ∀ mp ∈ modules, ¬ contains modName mp.modName) :
    updateFirst env direct value confPath modName files modules = some (-1, modules, files) := by
  induction modules with
  | nil => rfl
  | cons mp rest ih =>
    rw [updateFirst, if_neg (h mp List.mem_cons_self), ih fun mp' hmp' => h mp' (List.mem_cons_of_mem mp hmp')]
    rfl

theorem updateFirst_of_split {l₁ : List LoadedModule} {mp : LoadedModule} {l₂ : List LoadedModule}
    (h₁ : ∀ mp' ∈ l₁, ¬ contains modName mp'.modName) (h : contains modName mp.modName) :
    updateFirst env direct value confPath modName files (l₁ ++ mp :: l₂) =
      (updateModule env direct value confPath modName files mp).map fun r =>
        (r.1, l₁ ++ r.2.1 :: l₂, r.2.2) := by
  induction l₁ with
  | nil => rw [List.nil_append, updateFirst, if_pos h]; rfl
  | cons mp' l₁ ih =>
    rw [List.cons_append, updateFirst, if_neg (h₁ mp' List.mem_cons_self),
      ih fun mp'' hmp'' => h₁ mp'' (List.mem_cons_of_mem mp' hmp''), Option.map_map]
    rfl

end Update

theorem exists_first {p : LoadedModule → Bool} {modules : List LoadedModule}
    (h : ∃ mp ∈ modules, p mp) :
    ∃ l₁ mp l₂, modules = l₁ ++ mp :: l₂ ∧ p mp ∧ ∀ mp' ∈ l₁, ¬ p mp' := by
  obtain ⟨mp, hmp⟩ := Option.isSome_iff_exists.mp (List.find?_isSome.mpr h)
  obtain ⟨hp, l₁, l₂, heq, hl₁⟩ := List.find?_eq_some_iff_append.mp hmp
  exact ⟨l₁, mp, l₂, heq, hp, fun mp' hmp' => by simpa using hl₁ mp' hmp'⟩

/-- The agent modules that a request names. -/
def IsTarget (modName : CStr) (mp : LoadedModule) : Prop :=
  mp.kind.isAgent ∧ moduleName mp.modName = modName ++ ".so".toList

instance (modName : CStr) (mp : LoadedModule) : Decidable (IsTarget modName mp) :=
  inferInstanceAs (Decidable (_ ∧ _))

/-- `agent_module_update_conf` updates the settings of exactly the agent module that is named, with a
configuration file whose name leaves room for that of the temporary file, and returns -1 if there is
none. -/
structure UpdateExact (confPath : Option CStr) (modules : List LoadedModule) (modName : CStr) : Prop where
  absent : (∀ mp ∈ modules, ¬ IsTarget modName mp) → ∀ env direct value files,
    agentModuleUpdateConf env direct value confPath modName files modules = some (-1, modules, files)
  present : ∀ mp ∈ modules, ∀ mode, mp.kind = .agent mode → IsTarget modName mp →
    ∃ cfgfile, confName confPath modName mp.modName = some cfgfile ∧ (tmpFile cfgfile).length < maxline ∧
      ∀ env direct value files,
        agentModuleUpdateConf env direct value confPath modName files modules =
          (updateAt env direct value files cfgfile mode).map fun r =>
            (if r.1 = 0 then 0 else -1,
              modules.map fun mp' => if IsTarget modName mp' then mp'.setMode r.2.1 else mp', r.2.2)

/-- There is no such module, and the request does not say `agent` or is in no path; or the module is the
only one, the request says `agent`, and no module in front of it has it in its path. -/
def UpdateSafeFor (confPath : Option CStr) (modules : List LoadedModule) (modName : CStr) : Prop :=
  ((∀ mp ∈ modules, ¬ IsTarget modName mp) ∧
    (contains "agent".toList modName → ∀ mp ∈ modules, ¬ contains modName mp.modName)) ∨
  ∃ l₁ mp l₂, modules = l₁ ++ mp :: l₂ ∧ IsTarget modName mp ∧ contains "agent".toList modName ∧
    (∀ mp' ∈ l₁, ¬ contains modName mp'.modName) ∧ (∀ mp' ∈ l₂, ¬ IsTarget modName mp') ∧
    ∃ cfgfile, confName confPath modName mp.modName = some cfgfile ∧ (tmpFile cfgfile).length < maxline

theorem moduleName_suffix (path : CStr) : moduleName path <:+ path := by
  unfold moduleName
  by_cases h : '/' ∈ path
  · obtain ⟨r, t, rfl, ht⟩ := exists_last_of_mem h
    rw [strrchr_append ht]
    exact ⟨r ++ ['/'], by simp⟩
  · rw [strrchr_eq_none.mpr h]

theorem IsTarget.contains {modName : CStr} {mp : LoadedModule} (h : IsTarget modName mp) :
    contains modName mp.modName = true := by
  refine strstr_isSome.mpr ?_
  have hpre : modName <+: moduleName mp.modName := h.2 ▸ List.prefix_append _ _
  exact hpre.isInfix.trans (moduleName_suffix mp.modName).isInfix

theorem IsTarget.exists_mode {modName : CStr} {mp : LoadedModule} (h : IsTarget modName mp) :
    ∃ mode, mp.kind = .agent mode := by
  cases hk : mp.kind with
  | source =>
    have hagent := h.1
    rw [hk] at hagent
    exact absurd hagent Bool.false_ne_true
  | agent mode => exact ⟨mode, rfl⟩

/-- An environment in which every call succeeds. -/
def goodEnv : UpdateEnv := ⟨true, true, true, true, id, true⟩

theorem modeOf_manual : modeOf "manual".toList = some .manual := rfl

section Good

variable {value : CStr} {v : HandleMode} {confPath : Option CStr} {modName : CStr}

theorem updateAt_good (hv : modeOf value = some v) (cfgfile : CStr) (mode : HandleMode) :
    updateAt goodEnv agentKeyEvtHandleMode value (fun _ => some []) cfgfile mode = none ∨
      ∃ files, updateAt goodEnv agentKeyEvtHandleMode value (fun _ => some []) cfgfile mode =
        some (0, v, files) := by
  unfold updateAt
  by_cases hname : (tmpFile cfgfile).length < maxline
  · rw [updateConf_legal hv goodEnv hname]
    exact .inr ⟨_, rfl⟩
  · rw [updateConf_overflow goodEnv hname]
    exact .inl rfl

theorem updateModule_good (confPath : Option CStr) (modName : CStr) (hv : modeOf value = some v)
    (mp : LoadedModule) :
    updateModule goodEnv agentKeyEvtHandleMode value confPath modName (fun _ => some []) mp = none ∨
      ∃ files, updateModule goodEnv agentKeyEvtHandleMode value confPath modName (fun _ => some []) mp =
        some (0, mp.setMode v, files) := by
  unfold updateModule
  cases mp.kind with
  | source => exact .inl rfl
  | agent mode =>
    cases confName confPath modName mp.modName with
    | none => exact .inl rfl
    | some cfgfile =>
      rcases updateAt_good hv cfgfile mode with h | ⟨files, h⟩
      · exact .inl (by simp only [Option.bind_some, h, Option.map_none])
      · exact .inr ⟨files, by simp only [Option.bind_some, h, Option.map_some, if_true]⟩

theorem setMode_ne (mp : LoadedModule) : ¬ ∀ value v, modeOf value = some v → mp.setMode v = mp := by
  intro h
  have hmanual := h "manual".toList .manual rfl
  have hauto := h "auto".toList .auto rfl
  have hkind := congrArg LoadedModule.kind (hmanual.trans hauto.symm)
  cases hkind

/-- What a request for a module does if every call succeeds. -/
theorem UpdateExact.good {modules : List LoadedModule} (h : UpdateExact confPath modules modName)
    {mp : LoadedModule} (hmp : mp ∈ modules) (ht : IsTarget modName mp) (hv : modeOf value = some v) :
    ∃ files, agentModuleUpdateConf goodEnv agentKeyEvtHandleMode value confPath modName (fun _ => some [])
        modules =
      some (0, modules.map fun mp' => if IsTarget modName mp' then mp'.setMode v else mp', files) := by
  obtain ⟨mode, hk⟩ := ht.exists_mode
  obtain ⟨cfgfile, -, hname, hall⟩ := h.present mp hmp mode hk ht
  refine ⟨Function.update (fun _ => some []) cfgfile (some (newConf value [])), ?_⟩
  rw [hall, updateAt, updateConf_legal hv goodEnv hname]
  rfl

end Good

theorem UpdateExact.others {confPath : Option CStr} {modName : CStr} {l₁ : List LoadedModule}
    {mp : LoadedModule} {l₂ : List LoadedModule} (h : UpdateExact confPath (l₁ ++ mp :: l₂) modName)
    (hagent : contains "agent".toList modName) (h₁ : ∀ mp' ∈ l₁, ¬ contains modName mp'.modName)
    (hc : contains modName mp.modName) {mp₀ : LoadedModule} (hmp₀ : mp₀ ∈ l₁ ++ mp :: l₂)
    (ht : IsTarget modName mp₀) : IsTarget modName mp ∧ ∀ mp' ∈ l₂, ¬ IsTarget modName mp' := by
  have hlists : ∀ value v, modeOf value = some v →
      mp.setMode v = (if IsTarget modName mp then mp.setMode v else mp) ∧
        ∀ mp' ∈ l₂, (if IsTarget modName mp' then mp'.setMode v else mp') = mp' := by
    intro value v hv
    obtain ⟨files, hgood⟩ := h.good hmp₀ ht hv
    rw [agentModuleUpdateConf, if_pos hagent, updateFirst_of_split _ _ _ _ _ _ h₁ hc] at hgood
    rcases updateModule_good confPath modName hv mp with hup | ⟨files', hup⟩
    · rw [hup] at hgood
      cases hgood
    · rw [hup, Option.map_some, List.map_append, List.map_cons] at hgood
      have hmodules := (Prod.mk.inj (Prod.mk.inj (Option.some.inj hgood)).2).1
      obtain ⟨-, htail⟩ := List.append_inj hmodules (by rw [List.length_map])
      obtain ⟨hhead, htail⟩ := List.cons.inj htail
      refine ⟨hhead, fun mp' hmp' => ?_⟩
      exact List.map_inj_left.mp (htail.symm.trans (List.map_id l₂).symm) mp' hmp'
  constructor
  · by_contra hno
    exact setMode_ne mp fun value v hv => (hlists value v hv).1.trans (if_neg hno)
  · intro mp' hmp' ht'
    exact setMode_ne mp' fun value v hv => (if_pos ht').symm.trans ((hlists value v hv).2 mp' hmp')

theorem UpdateExact.exists_target {confPath : Option CStr} {modName : CStr} {l₁ : List LoadedModule}
    {mp : LoadedModule} {l₂ : List LoadedModule} (h : UpdateExact confPath (l₁ ++ mp :: l₂) modName)
    (hagent : contains "agent".toList modName) (h₁ : ∀ mp' ∈ l₁, ¬ contains modName mp'.modName)
    (hc : contains modName mp.modName) : ∃ mp₀ ∈ l₁ ++ mp :: l₂, IsTarget modName mp₀ := by
  by_contra htarget
  have hcode := h.absent (fun mp' hmp' ht => htarget ⟨mp', hmp', ht⟩) goodEnv agentKeyEvtHandleMode
    "manual".toList fun _ => some []
  rw [agentModuleUpdateConf, if_pos hagent, updateFirst_of_split _ _ _ _ _ _ h₁ hc] at hcode
  rcases updateModule_good confPath modName modeOf_manual mp with hup | ⟨files, hup⟩
  · rw [hup] at hcode
    cases hcode
  · rw [hup] at hcode
    exact absurd (Prod.mk.inj (Option.some.inj hcode)).1 (show (0 : ℤ) ≠ -1 by decide)

theorem map_others {modName : CStr} {modules : List LoadedModule}
    (h : ∀ mp ∈ modules, ¬ IsTarget modName mp) (mode : HandleMode) :
    (modules.map fun mp => if IsTarget modName mp then mp.setMode mode else mp) = modules :=
  (List.map_congr_left fun mp hmp => if_neg (h mp hmp)).trans (List.map_id modules)

/-- **Exactly the named agent is updated if and only if the request leads to it first.** -/
theorem updateExact_iff (confPath : Option CStr) (modules : List LoadedModule) (modName : CStr) :
    UpdateExact confPath modules modName ↔ UpdateSafeFor confPath modules modName := by
  constructor
  · intro h
    by_cases hagent : contains "agent".toList modName
    · by_cases hfound : ∃ mp ∈ modules, contains modName mp.modName
      · obtain ⟨l₁, mp, l₂, rfl, hc, h₁⟩ := exists_first hfound
        obtain ⟨mp₀, hmp₀, ht₀⟩ := h.exists_target hagent h₁ hc
        obtain ⟨ht, h₂⟩ := h.others hagent h₁ hc hmp₀ ht₀
        obtain ⟨mode, hk⟩ := ht.exists_mode
        obtain ⟨cfgfile, hcfg, hname, -⟩ := h.present mp (by simp) mode hk ht
        exact .inr ⟨l₁, mp, l₂, rfl, ht, hagent, h₁, h₂, cfgfile, hcfg, hname⟩
      · refine .inl ⟨fun mp hmp ht => hfound ⟨mp, hmp, ht.contains⟩, fun _ mp hmp hc => ?_⟩
        exact hfound ⟨mp, hmp, hc⟩
    · refine .inl ⟨fun mp hmp ht => ?_, fun h => absurd h hagent⟩
      obtain ⟨files, hgood⟩ := h.good hmp ht modeOf_manual
      rw [agentModuleUpdateConf, if_neg hagent] at hgood
      exact absurd (Prod.mk.inj (Option.some.inj hgood)).1 (show (-1 : ℤ) ≠ 0 by decide)
  · rintro (⟨hnone, hcontains⟩ | ⟨l₁, mp, l₂, rfl, ht, hagent, h₁, h₂, cfgfile, hcfg, hname⟩)
    · refine ⟨fun _ env direct value files => ?_, fun mp hmp _ _ ht => absurd ht (hnone mp hmp)⟩
      unfold agentModuleUpdateConf
      split_ifs with hagent
      · exact updateFirst_of_none _ _ _ _ _ _ (hcontains hagent)
      · rfl
    · refine ⟨fun hnone => absurd ht (hnone mp (by simp)), fun mp' hmp' mode hk ht' => ?_⟩
      obtain rfl : mp' = mp := by
        rcases List.mem_append.mp hmp' with hl | hl
        · exact absurd ht'.contains (h₁ mp' hl)
        · exact (List.mem_cons.mp hl).resolve_right fun hl => h₂ mp' hl ht'
      refine ⟨cfgfile, hcfg, hname, fun env direct value files => ?_⟩
      have hkept : ∀ mp' ∈ l₁, ¬ IsTarget modName mp' := fun mp' hmp' ht' => h₁ mp' hmp' ht'.contains
      rw [agentModuleUpdateConf, if_pos hagent, updateFirst_of_split _ _ _ _ _ _ h₁ ht.contains,
        updateModule, hk]
      simp only [hcfg, Option.bind_some, Option.map_map, List.map_append, List.map_cons, map_others hkept,
        map_others h₂, if_pos ht]
      rfl

/-- The two functions act on the named module only. -/
structure NamedOnly (confPath : Option CStr) (modules : List LoadedModule) (request : CStr) : Prop where
  unload : UnloadExact modules request
  update : UpdateExact confPath modules request

/-- **The functions act on the named module only if and only if the names can be told apart by the way they
are compared.** -/
theorem namedOnly_iff (confPath : Option CStr) (modules : List LoadedModule) (request : CStr) :
    NamedOnly confPath modules request ↔
      UnloadSafe modules request ∧ UpdateSafeFor confPath modules request :=
  ⟨fun h => ⟨(unloadExact_iff _ _).mp h.unload, (updateExact_iff _ _ _).mp h.update⟩,
    fun h => ⟨(unloadExact_iff _ _).mpr h.1, (updateExact_iff _ _ _).mpr h.2⟩⟩

/-- A request for another module unloads the one whose file name starts it. -/
theorem namedOnly_fails : ¬ ∀ confPath modules request, NamedOnly confPath modules request := by
  intro h
  let mp : LoadedModule := ⟨{ modName := "/usr/lib/fms/plugins/disk_agent.so".toList }, .agent .auto⟩
  have hunload := (h none [mp] "disk_agent.so.1".toList).unload
  unfold UnloadExact at hunload
  exact absurd hunload (by decide)

end Registry

end Fms
