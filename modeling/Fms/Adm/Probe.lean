import Fms.Adm.Faf

/-!
# The administration source of the daemon

`adm_probe` of evt_modules/evtsrc/adm/evtsrc.adm.c, between its `mq_receive` and its `mq_send`:
`admDispatch` finds the command in the message, `admExecute` runs it and builds the reply. `none` is
a crash: a null pointer or an overflow.

* `evtLoadModule`, `evtUnloadModule`: the handlers, with what they do to the modules;
* `CarriedOut`: what each command is for;
* `unloads_exact_iff`: when the modules that go are those with the file name of the request;
* **`admExecute_carriedOut`**: a legal command whose reply does not say "failed" was carried out, if no
  other module takes the place of the one to unload.
-/

namespace Fms

open CString

/-- What the daemon learns from outside: `initModule` is what `fmd_init_module` makes of a file (the
interval of the module, if it can be opened and initialised), `updateConf` is
`agent_module_update_conf`, which rewrites a configuration file. -/
structure AdmEnv where
  initModule : CStr → Option ℤ
  updateConf : Fmd → CStr → CStr → Option Fmd

/-! ## Modules -/

/-- `check_mod_load`: no module has that name. -/
def checkModLoad (fmd : Fmd) (path : CStr) : Bool := fmd.fmdModule.all fun mp => mp.modName != path

/-- The loop at the end of `evt_load_module`: a module that is not a library gets the name of this
one. -/
def nameModule (mp : FmdModule) : FmdModule :=
  if (strstr ".so".toList mp.modName).isNone then
    { mp with modName := "/usr/lib/fms/plugins/adm_src.so".toList }
  else mp

/-- `evt_load_module`: whether it returns 0, and the daemon afterwards. -/
def evtLoadModule (env : AdmEnv) (fmd : Fmd) (path : CStr) : Bool × Fmd :=
  if checkModLoad fmd path then
    match env.initModule path with
    | none => (false, fmd)
    | some interval =>
      (true, { fmd with
        fmdModule := ({ modName := path, modInterval := interval } :: fmd.fmdModule).map nameModule })
  else (false, fmd)

/-- The name after the last slash, as `evt_unload_module` takes it from its argument. -/
def moduleName (module : CStr) : CStr :=
  match strrchr '/' module with
  | some p => p.drop 1
  | none => module

/-- `strncmp(tmpmodule, tmp, len) == 0` for the file name of a module. -/
def unloads (tmp : CStr) (mp : FmdModule) : Bool :=
  strncmpEq (moduleName mp.modName) tmp (moduleName mp.modName).length

/-- `evt_unload_module`: whether it returns 0, and the daemon afterwards. A module whose name has no
slash crashes it. -/
def evtUnloadModule (fmd : Fmd) (module : CStr) : Option (Bool × Fmd) :=
  if fmd.fmdModule.all fun mp => (strrchr '/' mp.modName).isSome then
    some (fmd.fmdModule.any (unloads (moduleName module)),
      { fmd with fmdModule := fmd.fmdModule.filter fun mp => !unloads (moduleName module) mp })
  else none

/-! ## Dispatch -/

/-- What `adm_probe` does with a message. -/
inductive Command where
  | getCaselist (num index : ℤ)
  | load (path : CStr)
  | update (module mode : CStr)
  | unload (module : CStr)
  | getModlist
  | illegal (buf : CStr)
  deriving DecidableEq, Repr

/-- `atoi` of a text whose value is an `int`. -/
def atoiInt (s : CStr) : Option ℤ :=
  if -intBound ≤ atoi s ∧ atoi s < intBound then some (atoi s) else none

/-- The chain of comparisons in `adm_probe`, with the arguments that each branch reads. -/
def admDispatch (buf : CStr) : Option Command :=
  if strncmpEq buf "GET CASELIST".toList 12 then do
    let (_, saved) ← strtok ':' buf
    let (tmp, saved) ← strtok ':' saved
    let (tmp1, _) ← strtok ':' saved
    return .getCaselist (← atoiInt tmp) (← atoiInt tmp1)
  else if strncmpEq buf "LOAD".toList 4 then do
    let path ← strstr ":".toList buf
    return .load (path.drop 1)
  else if strncmpEq buf "UPDATE".toList 6 then do
    let (_, saved) ← strtok ':' buf
    let (module, saved) ← strtok ':' saved
    let (mode, _) ← strtok ':' saved
    return .update (module.drop 1) (mode.drop 1)
  else if strncmpEq buf "UNLOAD".toList 6 then do
    let module ← strstr ":".toList buf
    return .unload (module.drop 1)
  else if strncmpEq buf "GET MODLIST".toList 11 then
    return .getModlist
  else
    return .illegal buf

/-! ## Execution -/

/-- The two texts of a handler. -/
def replyText (ok : Bool) (successed failed : String) : Message :=
  .text (if ok then successed else failed).toList

/-- The branches of `adm_probe`: the reply and the daemon afterwards. -/
def admExecute (env : AdmEnv) (fmd : Fmd) : Command → Option (Message × Fmd)
  | .getCaselist num index => (fmdGetCaselist fmd num index).map fun reply => (reply, fmd)
  | .load path =>
    let (ok, fmd) := evtLoadModule env fmd path
    some (replyText ok "load successed " "load failed ", fmd)
  | .update module mode =>
    match env.updateConf fmd module mode with
    | some fmd => some (replyText true "undate successed " "update failed ", fmd)
    | none => some (replyText false "undate successed " "update failed ", fmd)
  | .unload module =>
    (evtUnloadModule fmd module).map fun (ok, fmd) =>
      (replyText ok "unload successed " "unload failed ", fmd)
  | .getModlist => some (fmdGetModlist fmd, fmd)
  | .illegal buf => (store 128 (buf ++ " is illegal cmd ".toList)).map fun ret => (.text ret, fmd)

/-- `adm_probe`, from the message it has received to the one it sends. -/
def admProbe (env : AdmEnv) (fmd : Fmd) (buf : Message) : Option (Message × Fmd) :=
  (admDispatch buf.cstr).bind (admExecute env fmd)

/-! ## What the commands are for -/

/-- A command has been carried out: its list is in the reply, or the daemon has changed as it says. -/
def CarriedOut (env : AdmEnv) (fmd fmd' : Fmd) (reply : Message) : Command → Prop
  | .getCaselist num index => fmdGetCaselist fmd num index = some reply ∧ fmd' = fmd
  | .load path =>
    (∀ mp ∈ fmd.fmdModule, mp.modName ≠ path) ∧ ∃ interval, env.initModule path = some interval ∧
      fmd'.fmdModule =
        ({ modName := path, modInterval := interval } :: fmd.fmdModule).map nameModule
  | .update module mode => env.updateConf fmd module mode = some fmd'
  | .unload module =>
    (∃ mp ∈ fmd.fmdModule, moduleName mp.modName = moduleName module) ∧
      fmd'.fmdModule = fmd.fmdModule.filter fun mp => moduleName mp.modName != moduleName module
  | .getModlist => reply = fmdGetModlist fmd ∧ fmd' = fmd
  | .illegal _ => False

/-- No other file name starts the one that is to be unloaded. -/
def NamedApart (fmd : Fmd) (module : CStr) : Prop :=
  ∀ mp ∈ fmd.fmdModule, moduleName mp.modName <+: moduleName module →
    moduleName mp.modName = moduleName module

instance (fmd : Fmd) (module : CStr) : Decidable (NamedApart fmd module) :=
  inferInstanceAs (Decidable (∀ _ ∈ _, _))

theorem unloads_iff {tmp : CStr} {mp : FmdModule} : unloads tmp mp = true ↔ moduleName mp.modName <+: tmp := by
  rw [unloads, strncmpEq_left]

theorem unloads_of_eq {module : CStr} {mp : FmdModule} (h : moduleName mp.modName = moduleName module) :
    unloads (moduleName module) mp = true :=
  unloads_iff.mpr (h ▸ List.prefix_rfl)

theorem unloads_exact_iff {fmd : Fmd} {module : CStr} :
    (fmd.fmdModule.filter fun mp => !unloads (moduleName module) mp) =
      (fmd.fmdModule.filter fun mp => moduleName mp.modName != moduleName module) ↔
        NamedApart fmd module := by
  constructor
  · intro heq mp hmp hpre
    by_contra hne
    have hkept : mp ∈ fmd.fmdModule.filter fun mp => moduleName mp.modName != moduleName module :=
      List.mem_filter.mpr ⟨hmp, bne_iff_ne.mpr hne⟩
    rw [← heq] at hkept
    have hno := (List.mem_filter.mp hkept).2
    rw [unloads_iff.mpr hpre] at hno
    exact Bool.false_ne_true hno
  · intro h
    refine List.filter_congr fun mp hmp => ?_
    have hsame : unloads (moduleName module) mp = (moduleName mp.modName == moduleName module) := by
      rw [Bool.eq_iff_iff, beq_iff_eq]
      exact ⟨fun hu => h mp hmp (unloads_iff.mp hu), unloads_of_eq⟩
    rw [hsame]
    rfl

theorem evtLoadModule_true {env : AdmEnv} {fmd fmd' : Fmd} {path : CStr}
    (h : evtLoadModule env fmd path = (true, fmd')) (reply : Message) :
    CarriedOut env fmd fmd' reply (.load path) := by
  unfold evtLoadModule at h
  split_ifs at h with hc
  · cases hi : env.initModule path with
    | none =>
      rw [hi] at h
      cases h
    | some interval =>
      rw [hi] at h
      cases h
      refine ⟨?_, interval, hi, rfl⟩
      intro mp hm
      simpa using List.all_eq_true.mp hc mp hm
  · cases h

theorem evtUnloadModule_true {env : AdmEnv} {fmd fmd' : Fmd} {module : CStr}
    (h : evtUnloadModule fmd module = some (true, fmd')) (hapart : NamedApart fmd module) (reply : Message) :
    CarriedOut env fmd fmd' reply (.unload module) := by
  unfold evtUnloadModule at h
  split_ifs at h with hs
  obtain ⟨hany, hfmd⟩ := Prod.mk.inj (Option.some.inj h)
  obtain ⟨mp, hmp, hu⟩ := List.any_eq_true.mp hany
  refine ⟨⟨mp, hmp, hapart mp hmp (unloads_iff.mp hu)⟩, ?_⟩
  rw [← hfmd]
  exact unloads_exact_iff.mpr hapart

/-- A reply that says "failed". -/
def Message.failed (m : Message) : Bool := (strstr "failed".toList m.cstr).isSome

/-- **A legal command whose reply does not say "failed" was carried out**, if no other module is taken for
the one to unload. -/
theorem admExecute_carriedOut {env : AdmEnv} {fmd fmd' : Fmd} {c : Command} {reply : Message}
    (h : admExecute env fmd c = some (reply, fmd')) (hlegal : ∀ buf, c ≠ .illegal buf)
    (hapart : ∀ module, c = .unload module → NamedApart fmd module)
    (hf : reply.failed = false) : CarriedOut env fmd fmd' reply c := by
  cases c with
  | getCaselist num index =>
    obtain ⟨m, hm, he⟩ := Option.map_eq_some_iff.mp h
    cases he
    exact ⟨hm, rfl⟩
  | load path =>
    rcases hl : evtLoadModule env fmd path with ⟨ok, fmd₁⟩
    simp only [admExecute, hl] at h
    cases ok with
    | true =>
      cases h
      exact evtLoadModule_true hl _
    | false =>
      cases h
      exact absurd hf (by decide)
  | update module mode =>
    cases hu : env.updateConf fmd module mode with
    | some fmd₁ =>
      simp only [admExecute, hu] at h
      cases h
      exact hu
    | none =>
      simp only [admExecute, hu] at h
      cases h
      exact absurd hf (by decide)
  | unload module =>
    obtain ⟨⟨ok, fmd₁⟩, hu, he⟩ := Option.map_eq_some_iff.mp h
    cases ok with
    | true =>
      cases he
      exact evtUnloadModule_true hu (hapart module rfl) _
    | false =>
      cases he
      exact absurd hf (by decide)
  | getModlist =>
    cases h
    exact ⟨rfl, rfl⟩
  | illegal buf => exact absurd rfl (hlegal buf)

end Fms
