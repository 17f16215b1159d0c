import Fms.Adm.Probe

/-!
# The client library

lib/libadm/fmd_adm.c: `Request.encode` is the command each call of the library writes to its buffer,
`Request.ret` what the call makes of the reply. A command of the client and a branch of `adm_probe`
agree if the branch is the one meant, has the client's arguments, and the call returns 0 only if the
daemon carried the command out.

* `dispatch_*`: the branch that `adm_probe` takes for each command;
* `Request.Agrees`: the command is not the one of `fmd_adm_config_module`, and no other module is taken
  for the one to unload;
* **`agreement_iff`**: these are the commands that agree.
-/

namespace Fms

open CString

/-! ## The calls -/

/-- The commands that the library builds. -/
inductive Request where
  | getCaselist (offset type : ℤ)
  | getModlist
  | load (path : CStr)
  | unload (path : CStr)
  | config (module mode : CStr)
  deriving DecidableEq, Repr

/-- The text that is sent; `none` is an overflow of `cmd`. -/
def Request.encode : Request → Option CStr
  | .getCaselist offset type =>
    store 32 ("GET CASELIST:".toList ++ fmtInt offset ++ ':' :: fmtInt type)
  | .getModlist => some "GET MODLIST".toList
  | .load path => store 128 ("LOAD:".toList ++ path)
  | .unload path => store 128 ("UNLOAD:".toList ++ path)
  | .config module mode => store 128 ("CONFIG:".toList ++ module ++ ':' :: mode)

/-- `fmd_adm_caseinfo_t` -/
structure FmdAdmCaseinfo where
  aciFru : CStr
  fafc : FafCase
  deriving DecidableEq, Repr

/-- `fmd_adm_get_caseinfo`: its value, and `cs_list` afterwards. A section number that is not that of
a case list makes it read what is not there. -/
def fmdAdmGetCaseinfo (csList : List FmdAdmCaseinfo) (adm_buf : Message) :
    Option (ℤ × List FmdAdmCaseinfo) :=
  match adm_buf.secnum, adm_buf with
  | none, _ => none
  | some 0, _ => some (-1, csList)
  | some (n + 1), .caseList _ sections =>
    if n + 1 ≤ sections.length then
      some ((n + 1 : ℕ), (sections.take (n + 1)).foldl (fun l fafc => ⟨fafc.fafcFault, fafc⟩ :: l) csList)
    else none
  | some _, _ => none

/-- `fmd_adm_get_modinfo`: its value, and `mod_list` afterwards. -/
def fmdAdmGetModinfo (modList : List FafModule) (adm_buf : Message) :
    Option (ℤ × List FafModule) :=
  match adm_buf.secnum, adm_buf with
  | none, _ => none
  | some 0, _ => some (-1, modList)
  | some (n + 1), .modList _ sections =>
    if n + 1 ≤ sections.length then
      some (0, (sections.take (n + 1)).foldl (fun l fafm => fafm :: l) modList)
    else none
  | some _, _ => none

/-- The end of the calls on a module: -1 if the reply has `own` in it or says "failed". -/
def moduleRet (own : CStr) (adm_buf : Message) : ℤ :=
  if (strstr own adm_buf.cstr).isSome then -1
  else if adm_buf.failed then -1
  else 0

/-- `fmd_adm_load_module` after `fmd_adm_get_list`. -/
def fmdAdmLoadModule (adm_buf : Message) : ℤ := moduleRet "LOAD:".toList adm_buf

/-- `fmd_adm_unload_module` after `fmd_adm_get_list`. -/
def fmdAdmUnloadModule (adm_buf : Message) : ℤ := moduleRet "UNLOAD:".toList adm_buf

/-- `fmd_adm_config_module` after `fmd_adm_get_list`. -/
def fmdAdmConfigModule (adm_buf : Message) : ℤ := moduleRet "UNLOAD:".toList adm_buf

/-- What the call returns for a reply. For one page of `fmd_adm_case_iter` it is -1 if the call ends
there with an error and 0 if it goes on. -/
def Request.ret (adm_buf : Message) : Request → Option ℤ
  | .getCaselist _ _ => (fmdAdmGetCaseinfo [] adm_buf).map fun r => if r.1 < 0 then -1 else 0
  | .getModlist => (fmdAdmGetModinfo [] adm_buf).map Prod.fst
  | .load _ => some (fmdAdmLoadModule adm_buf)
  | .unload _ => some (fmdAdmUnloadModule adm_buf)
  | .config _ _ => some (fmdAdmConfigModule adm_buf)

/-! ## Agreement -/

/-- The command that is meant; `module_update_conf` configures a module. -/
def Request.command : Request → Command
  | .getCaselist offset type => .getCaselist offset type
  | .getModlist => .getModlist
  | .load path => .load path
  | .unload path => .unload path
  | .config module mode => .update module mode

/-- The texts among the arguments. -/
def Request.texts : Request → List CStr
  | .load path | .unload path => [path]
  | .config module mode => [module, mode]
  | _ => []

/-- The integers among the arguments. -/
def Request.ints : Request → List ℤ
  | .getCaselist offset type => [offset, type]
  | _ => []

/-- The arguments are free of ':', are C values and fit the buffers. -/
structure Request.WellFormed (r : Request) : Prop where
  colonFree : ∀ s ∈ r.texts, ':' ∉ s
  ints : ∀ z ∈ r.ints, -intBound ≤ z ∧ z < intBound
  fits : r.encode.isSome

/-- The client and the daemon agree on a command. -/
structure Agreement (env : AdmEnv) (fmd : Fmd) (r : Request) : Prop where
  dispatch : ∀ cmd, r.encode = some cmd → admDispatch cmd = some r.command
  carried : ∀ fmd' cmd reply, r.encode = some cmd →
    admProbe env fmd (.text cmd) = some (reply, fmd') → r.ret reply = some 0 →
    CarriedOut env fmd fmd' reply r.command

/-- When they do. A daemon that has a module without a slash in its path answers no request to unload. -/
def Request.Agrees (fmd : Fmd) : Request → Prop
  | .unload path =>
    (∀ mp ∈ fmd.fmdModule, (strrchr '/' mp.modName).isSome) → NamedApart fmd path
  | .config _ _ => False
  | _ => True

theorem atoiInt_fmtInt {z : ℤ} (h : -intBound ≤ z ∧ z < intBound) :
    atoiInt (fmtInt z) = some z := by
  unfold atoiInt
  rw [atoi_fmtInt, if_pos h]

theorem dispatch_getCaselist {offset type : ℤ} (ho : -intBound ≤ offset ∧ offset < intBound)
    (ht : -intBound ≤ type ∧ type < intBound) :
    admDispatch ("GET CASELIST:".toList ++ fmtInt offset ++ ':' :: fmtInt type) =
      some (.getCaselist offset type) := by
  have h0 : strtok ':' ("GET CASELIST:".toList ++ fmtInt offset ++ ':' :: fmtInt type) =
      some ("GET CASELIST".toList, fmtInt offset ++ ':' :: fmtInt type) := by
    rw [List.append_assoc]
    exact strtok_append (s := "GET CASELIST".toList) (by decide) (by decide) _
  have h1 := strtok_append (colon_not_mem_fmtInt offset) (fmtInt_ne_nil offset) (fmtInt type)
  have h2 := strtok_last (colon_not_mem_fmtInt type) (fmtInt_ne_nil type)
  unfold admDispatch
  rw [if_pos (by rfl)]
  simp only [h0, h1, h2, Option.bind_eq_bind, Option.bind_some, atoiInt_fmtInt ho,
    atoiInt_fmtInt ht]
  rfl

theorem strstr_colon {s : CStr} (hs : ':' ∉ s) (t : CStr) :
    strstr ":".toList (s ++ ':' :: t) = some (':' :: t) := by
  rw [show ":".toList = [':'] from rfl, strstr_singleton, strchr_append_cons hs]

theorem dispatch_load (path : CStr) :
    admDispatch ("LOAD:".toList ++ path) = some (.load path) := by
  have h : strstr ":".toList ("LOAD:".toList ++ path) = some (':' :: path) :=
    strstr_colon (s := "LOAD".toList) (by decide) path
  unfold admDispatch
  rw [if_neg (by exact Bool.false_ne_true), if_pos (by rfl), h]
  rfl

theorem dispatch_unload (path : CStr) :
    admDispatch ("UNLOAD:".toList ++ path) = some (.unload path) := by
  have h : strstr ":".toList ("UNLOAD:".toList ++ path) = some (':' :: path) :=
    strstr_colon (s := "UNLOAD".toList) (by decide) path
  unfold admDispatch
  rw [if_neg (by exact Bool.false_ne_true), if_neg (by exact Bool.false_ne_true),
    if_neg (by exact Bool.false_ne_true), if_pos (by rfl), h]
  rfl

theorem dispatch_getModlist : admDispatch "GET MODLIST".toList = some .getModlist := by decide

/-- No branch of `adm_probe` is for the command that `fmd_adm_config_module` builds. -/
theorem dispatch_config (module mode : CStr) :
    admDispatch ("CONFIG:".toList ++ module ++ ':' :: mode) =
      some (.illegal ("CONFIG:".toList ++ module ++ ':' :: mode)) := by
  unfold admDispatch
  rw [if_neg (by exact Bool.false_ne_true), if_neg (by exact Bool.false_ne_true),
    if_neg (by exact Bool.false_ne_true), if_neg (by exact Bool.false_ne_true),
    if_neg (by exact Bool.false_ne_true)]
  rfl

theorem moduleRet_zero {own : CStr} {m : Message} (h : moduleRet own m = 0) : m.failed = false := by
  unfold moduleRet at h
  split_ifs at h with h1 h2
  exact Bool.eq_false_iff.mpr h2

/-- A command agrees if it is dispatched to its branch and a good value means a good execution. -/
theorem agreement_of_dispatch {env : AdmEnv} {fmd : Fmd} {r : Request}
    (hd : ∀ cmd, r.encode = some cmd → admDispatch cmd = some r.command)
    (hc : ∀ fmd' reply, admExecute env fmd r.command = some (reply, fmd') →
      r.ret reply = some 0 → CarriedOut env fmd fmd' reply r.command) : Agreement env fmd r := by
  refine ⟨hd, ?_⟩
  intro fmd' cmd reply he hp hr
  rw [admProbe, Message.cstr, hd cmd he, Option.bind_some] at hp
  exact hc fmd' reply hp hr

theorem not_agreement_config {env : AdmEnv} {fmd : Fmd} {module mode : CStr}
    (hfits : (Request.config module mode).encode.isSome) : ¬ Agreement env fmd (.config module mode) := by
  intro hag
  obtain ⟨cmd, hcmd⟩ := Option.isSome_iff_exists.mp hfits
  have hd := hag.dispatch cmd hcmd
  obtain ⟨-, rfl⟩ := store_eq_some.mp hcmd
  rw [dispatch_config] at hd
  cases hd

theorem unload_answered {fmd : Fmd} (hslash : ∀ mp ∈ fmd.fmdModule, (strrchr '/' mp.modName).isSome)
    (env : AdmEnv) (path : CStr) :
    admExecute env fmd (.unload path) =
      some (replyText (fmd.fmdModule.any (unloads (moduleName path))) "unload successed " "unload failed ",
        { fmd with fmdModule := fmd.fmdModule.filter fun mp => !unloads (moduleName path) mp }) := by
  have hall : (fmd.fmdModule.all fun mp => (strrchr '/' mp.modName).isSome) = true :=
    List.all_eq_true.mpr hslash
  rw [admExecute, evtUnloadModule, if_pos hall]
  rfl

theorem Agreement.namedApart {env : AdmEnv} {fmd : Fmd} {path : CStr} (hag : Agreement env fmd (.unload path))
    (hfits : (Request.unload path).encode.isSome)
    (hslash : ∀ mp ∈ fmd.fmdModule, (strrchr '/' mp.modName).isSome) : NamedApart fmd path := by
  by_cases hany : fmd.fmdModule.any (unloads (moduleName path)) = true
  · obtain ⟨cmd, hcmd⟩ := Option.isSome_iff_exists.mp hfits
    have hx := unload_answered hslash env path
    rw [hany] at hx
    have hprobe : admProbe env fmd (.text cmd) = some (replyText true "unload successed " "unload failed ",
        { fmd with fmdModule := fmd.fmdModule.filter fun mp => !unloads (moduleName path) mp }) := by
      rw [admProbe, Message.cstr, hag.dispatch cmd hcmd, Option.bind_some]
      exact hx
    exact unloads_exact_iff.mp (hag.carried _ cmd _ hcmd hprobe rfl).2
  · intro mp hmp hpre
    exact absurd (List.any_eq_true.mpr ⟨mp, hmp, unloads_iff.mpr hpre⟩) hany

/-- **The client and the daemon agree on all commands but the one of `fmd_adm_config_module` and those that
unload another module than the one they name.** -/
theorem agreement_iff (env : AdmEnv) (fmd : Fmd) (r : Request) (h : r.WellFormed) :
    Agreement env fmd r ↔ r.Agrees fmd := by
  cases r with
  | getCaselist offset type =>
    refine iff_of_true (agreement_of_dispatch ?_ ?_) trivial
    · intro cmd he
      obtain ⟨-, rfl⟩ := store_eq_some.mp he
      exact dispatch_getCaselist (h.ints offset (by simp [Request.ints]))
        (h.ints type (by simp [Request.ints]))
    · intro fmd' reply hx _
      obtain ⟨m, hm, hx⟩ := Option.map_eq_some_iff.mp hx
      cases hx
      exact ⟨hm, rfl⟩
  | getModlist =>
    refine iff_of_true (agreement_of_dispatch ?_ ?_) trivial
    · intro cmd he
      cases he
      exact dispatch_getModlist
    · intro fmd' reply hx _
      cases hx
      exact ⟨rfl, rfl⟩
  | load path =>
    refine iff_of_true (agreement_of_dispatch ?_ ?_) trivial
    · intro cmd he
      obtain ⟨-, rfl⟩ := store_eq_some.mp he
      exact dispatch_load path
    · intro fmd' reply hx hr
      exact admExecute_carriedOut hx (fun _ => nofun) (fun _ => nofun) (moduleRet_zero (Option.some.inj hr))
  | unload path =>
    refine ⟨fun hag hslash => hag.namedApart h.fits hslash, fun hag => agreement_of_dispatch ?_ ?_⟩
    · intro cmd he
      obtain ⟨-, rfl⟩ := store_eq_some.mp he
      exact dispatch_unload path
    · intro fmd' reply hx hr
      have hslash : ∀ mp ∈ fmd.fmdModule, (strrchr '/' mp.modName).isSome := by
        obtain ⟨r, hr, -⟩ := Option.map_eq_some_iff.mp hx
        rw [evtUnloadModule] at hr
        split_ifs at hr with hs
        exact List.all_eq_true.mp hs
      refine admExecute_carriedOut hx (fun _ => nofun) ?_ (moduleRet_zero (Option.some.inj hr))
      rintro module heq
      cases heq
      exact hag hslash
  | config module mode => exact iff_of_false (not_agreement_config h.fits) id

/-- A daemon that loads and configures nothing. -/
def AdmEnv.inert : AdmEnv where
  initModule := fun _ => none
  updateConf := fun _ _ _ => none

/-- A daemon with two agents. -/
def twoAgents : Fmd where
  fmdModule := [⟨"/usr/lib/fms/plugins/cpumem_agent.so".toList, 0, 0⟩,
    ⟨"/usr/lib/fms/plugins/disk_agent.so".toList, 0, 0⟩]

theorem agreement_iff_unload :
    Agreement .inert twoAgents (.unload "/usr/lib/fms/plugins/disk_agent.so".toList) ∧
      ∃ reply, admProbe .inert twoAgents (.text "UNLOAD:/usr/lib/fms/plugins/disk_agent.so".toList) =
        some (reply, { fmdModule := [⟨"/usr/lib/fms/plugins/cpumem_agent.so".toList, 0, 0⟩] }) ∧
          (Request.unload "/usr/lib/fms/plugins/disk_agent.so".toList).ret reply = some 0 :=
  ⟨(agreement_iff .inert twoAgents _ ⟨by decide, by decide, by decide⟩).mpr fun _ => by decide,
    .text "unload successed ".toList, by decide, by decide⟩

/-- Setting the mode of an agent: the daemon finds the command illegal, changes nothing, and the
call returns 0. Unloading a module that is not there: the daemon frees another one, and the call returns
0. -/
theorem agreement_fails :
    (¬ ∀ env fmd (r : Request), r.WellFormed → Agreement env fmd r) ∧
      (Request.config "cpumem_agent".toList "auto".toList).WellFormed ∧
      (∀ env fmd, ∃ reply,
        admProbe env fmd (.text "CONFIG:cpumem_agent:auto".toList) = some (reply, fmd) ∧
          (Request.config "cpumem_agent".toList "auto".toList).ret reply = some 0) ∧
      (Request.unload "disk_agent.so.1".toList).WellFormed ∧
      ∀ env, ∃ reply,
        admProbe env { fmdModule := [⟨"/usr/lib/fms/plugins/disk_agent.so".toList, 0, 0⟩] }
          (.text "UNLOAD:disk_agent.so.1".toList) = some (reply, {}) ∧
          (Request.unload "disk_agent.so.1".toList).ret reply = some 0 := by
  have hconfig : (Request.config "cpumem_agent".toList "auto".toList).WellFormed :=
    ⟨by decide, by decide, by decide⟩
  refine ⟨?_, hconfig, ?_, ⟨by decide, by decide, by decide⟩, ?_⟩
  · intro h
    exact not_agreement_config hconfig.fits (h .inert {} _ hconfig)
  · intro env fmd
    exact ⟨.text "CONFIG:cpumem_agent:auto is illegal cmd ".toList, rfl, by decide⟩
  · intro env
    exact ⟨.text "unload successed ".toList, rfl, by decide⟩

end Fms
