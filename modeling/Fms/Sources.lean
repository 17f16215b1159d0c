import Fms.Daemon
import Fms.EvRecord
import Fms.Lib.TextFile
import Fms.Mce.Dump

/-!
# The events of the source modules

The source modules (evt_modules/evtsrc) name the device of an ereport in their own ways: the disk module
by the path that `df` prints, the module for machine checks by `cpu` or `memory`, the modules for tests by
fixed names. `ras_events_handle` looks for the table of an ereport by the start of the device name.

* `Source.probe`: the events of a module; `none` is an access outside a buffer;
* `storeHandler?`, `rasEventsHandle_eq`: the handler that a name selects;
* `Recorded`: an ereport is stored in the table of the device that its class names;
* **`recorded_iff`**: which ereports are recorded.
-/

namespace Fms

open CString TextFile

/-! ## Disks -/

/-- `LINE_MAX` of `<limits.h>` -/
def lineMax : ℕ := 2048

/-- What `disk_probe` learns from outside: the output of the two pipes, if they can be opened, the checks,
and the characters that follow the variable `n` on the stack. -/
structure DiskEnv where
  df : Option CStr
  boot : Option CStr
  diskSpaceCheck : CStr → ℤ
  diskUnhealthyCheck : CStr → ℤ
  diskTemperatureCheck : CStr → ℤ
  behind : CStr

/-- `disk_fm_event_post` -/
def diskFmEventPost (head : List Nvlist) (evtId : ℤ) (fullclass path : CStr) : Option (List Nvlist) :=
  (store 32 path).bind fun name =>
    (store 128 fullclass).map fun value => ⟨name, 0, value, evtId, true⟩ :: head

/-- The path of a partition without its number: a last digit is cut. -/
def cutNumber (behind fullpath : CStr) : Option CStr :=
  fullpath.getLast?.map fun n =>
    let nn := atoi (n :: behind)
    if 1 ≤ nn ∧ nn ≤ 9 then fullpath.dropLast else fullpath

/-- An event of the class if the check says so. -/
def diskCheck (fires : Bool) (evtId : ℤ) (name fullpath : CStr) (head : List Nvlist) : Option (List Nvlist) :=
  if fires then diskFmEventPost head evtId (fmEreportClass ++ name) fullpath else some head

/-- The body of the loop of `disk_probe`. -/
def diskLine (env : DiskEnv) (bootdev : CStr) (head : List Nvlist) (buff : CStr) : Option (List Nvlist) :=
  ((chop buff).bind (store 64)).bind fun fullpath =>
  (diskCheck (env.diskSpaceCheck fullpath = 1 ∧ fullpath ≠ bootdev) 1 ".disk.space-insufficient".toList
    fullpath head).bind fun head =>
  (cutNumber env.behind fullpath).bind fun fullpath =>
  (diskCheck (env.diskUnhealthyCheck fullpath ≠ 0) 2 ".disk.unhealthy".toList fullpath head).bind fun head =>
  diskCheck (env.diskTemperatureCheck fullpath ≠ 0) 3 ".disk.over-temperature".toList fullpath head

/-- The device of the boot partition. -/
def bootDevice (boot : CStr) : Option CStr :=
  match fgetsAll lineMax boot with
  | [] => some []
  | buff :: _ => (chop buff).bind (store 64)

/-- `disk_probe`; without a pipe there are no events. -/
def diskProbe (env : DiskEnv) : Option (List Nvlist) :=
  match env.df, env.boot with
  | some df, some boot => (bootDevice boot).bind fun bootdev =>
    (fgetsAll lineMax df).foldlM (diskLine env bootdev) []
  | _, _ => some []

/-! ## Processors, memory and tests -/

/-- `process_mcefd`, on the records that were read. -/
def processMcefd (cputype : Cputype) (recordlen : ℕ) (mces : List Mce) : Option (List Nvlist) :=
  (mces.mapM fun m => dumpMce cputype m recordlen).map fun fcs =>
    (fcs.flatten.map cpumemFmEventPost).reverse

/-- `trace_probe` -/
def traceProbe : List Nvlist :=
  [⟨"cpu".toList, 0x02, "ereport.cpu.bus_ue".toList, 0x22, true⟩,
    ⟨"sdb".toList, 0x02, "ereport.disk.badblocks".toList, 0x22, true⟩,
    ⟨"cpu".toList, 0x02, "ereport.cpu.cache_ce".toList, 0x11, true⟩]

/-- `INJECT_DISKNAME` -/
def injectDiskname : CStr := "/dev/sdb".toList

/-- The `evt_id` of a class that is injected. -/
def injectEvtId (buff : CStr) : ℤ :=
  if buff = "ereport.disk.unhealthy".toList then 1
  else if buff = "ereport.disk.space-insufficient".toList then 2
  else if buff = "ereport.disk.over-temperature".toList then 3
  else 0

/-- `inject_probe`, with the message if there is one. -/
def injectProbe : Option CStr → Option (List Nvlist)
  | none => some []
  | some buff => (store 128 buff).map fun value => [⟨injectDiskname, 0, value, injectEvtId buff, true⟩]

/-- A source module and what it finds. -/
inductive Source where
  | disk (env : DiskEnv)
  | cpumem (cputype : Cputype) (recordlen : ℕ) (mces : List Mce)
  | trace
  | inject (message : Option CStr)

/-- `evt_probe` -/
def Source.probe : Source → Option (List Nvlist)
  | .disk env => diskProbe env
  | .cpumem cputype recordlen mces => processMcefd cputype recordlen mces
  | .trace => some traceProbe
  | .inject message => injectProbe message

/-- `evt_handle`: the events that become ereports. -/
def evtHandle (head : List Nvlist) : List Nvlist := head.filter fun nvl => nvl.value ≠ []

/-! ## Tables -/

/-- The handler that a device name selects. -/
def storeHandler? (name : CStr) : Option StoreHandler :=
  if strncmpEq "cpu".toList name 3 then some .cpu
  else if strncmpEq "mem".toList name 3 then some .mem
  else if strncmpEq "disk".toList name 4 then some .disk
  else none

theorem rasEventsHandle_eq (env : RecordEnv) (event : FmdEvent) (priv : Sqlite3Priv) :
    rasEventsHandle env event priv =
      match storeHandler? event.devName with
      | some h => rasStoreEvent h env event priv
      | none => priv := by
  unfold rasEventsHandle storeHandler? gStoreHandler
  rw [List.find?_cons, List.find?_cons, List.find?_cons, List.find?_nil]
  change (match (match strncmpEq "cpu".toList event.devName 3 with
    | true => some ("cpu".toList, rasStoreCpuEvent)
    | false => match strncmpEq "mem".toList event.devName 3 with
      | true => some ("mem".toList, rasStoreMemEvent)
      | false => match strncmpEq "disk".toList event.devName 4 with
        | true => some ("disk".toList, rasStoreDiskEvent)
        | false => none) with
    | some p => p.2 env event priv
    | none => priv) = _
  cases strncmpEq "cpu".toList event.devName 3 with
  | true => rfl
  | false =>
    cases strncmpEq "mem".toList event.devName 3 with
    | true => rfl
    | false => cases strncmpEq "disk".toList event.devName 4 <;> rfl

/-- The device that a class names. -/
def classKind (eclass : CStr) : Option StoreHandler :=
  if "ereport.disk.".toList.isPrefixOf eclass then some .disk
  else if "ereport.cpu.mem".toList.isPrefixOf eclass then some .mem
  else if "ereport.cpu.".toList.isPrefixOf eclass then some .cpu
  else none

/-- The ereport goes to the handler for the device that its class names. -/
def Recorded (event : FmdEvent) : Prop :=
  ∃ h, classKind event.evClass = some h ∧
    ∀ env priv, rasEventsHandle env event priv = rasStoreEvent h env event priv

theorem rasStoreEvent_opendb (h : StoreHandler) (env : RecordEnv) (event : FmdEvent) :
    (rasStoreEvent h env event (rasEventOpendb fun _ => true)).db.map Prod.fst = [h.tab.name] := by
  have hstmt : (rasEventOpendb fun _ => true).stmt h = some (rasPrepareStmt h.tab) := rfl
  rw [rasStoreEvent, hstmt]
  change [(bindEvent env event (rasPrepareStmt h.tab)).table.name] = _
  rw [bindEvent_table]
  rfl

theorem tab_name_inj {h h' : StoreHandler} (heq : h.tab.name = h'.tab.name) : h = h' := by
  cases h <;> cases h' <;> first | rfl | exact absurd heq (by decide)

/-- An ereport is recorded exactly if the name of its device selects the handler for its class. -/
theorem recorded_iff_handler {event : FmdEvent} :
    Recorded event ↔ ∃ h, classKind event.evClass = some h ∧ storeHandler? event.devName = some h := by
  refine exists_congr fun h => and_congr_right fun _ => ?_
  simp only [rasEventsHandle_eq]
  constructor
  · intro hall
    let env : RecordEnv := ⟨fun _ => [], fun _ => []⟩
    have hrow := rasStoreEvent_opendb h env event
    rw [← hall env (rasEventOpendb fun _ => true)] at hrow
    cases hname : storeHandler? event.devName with
    | none =>
      rw [hname] at hrow
      exact absurd hrow (List.cons_ne_nil _ _).symm
    | some h' =>
      rw [hname] at hrow
      change (rasStoreEvent h' env event (rasEventOpendb fun _ => true)).db.map Prod.fst = _ at hrow
      rw [rasStoreEvent_opendb] at hrow
      rw [tab_name_inj (List.cons.inj hrow).1]
  · intro hname env priv
    rw [hname]

theorem storeHandler?_disk {name : CStr} :
    storeHandler? name = some .disk ↔ "disk".toList <+: name := by
  have hdisk : strncmpEq "disk".toList name 4 = true ↔ "disk".toList <+: name := strncmpEq_left
  have hcpu : strncmpEq "cpu".toList name 3 = true ↔ "cpu".toList <+: name := strncmpEq_left
  have hmem : strncmpEq "mem".toList name 3 = true ↔ "mem".toList <+: name := strncmpEq_left
  unfold storeHandler?
  constructor
  · intro h
    by_contra hno
    rw [if_neg (mt hdisk.mp hno)] at h
    split_ifs at h <;> cases h
  · intro h
    have hno : ¬ "cpu".toList <+: name := prefix_exclusive (by decide) (by decide) h
    have hno' : ¬ "mem".toList <+: name := prefix_exclusive (by decide) (by decide) h
    rw [if_neg (mt hcpu.mp hno), if_neg (mt hmem.mp hno'), if_pos (hdisk.mpr h)]

/-! ## Which ereports are recorded -/

theorem recorded_dispatched {d : Daemon} {nvl : Nvlist} {now : ℤ} :
    Recorded (dispatched d nvl now) ↔
      ∃ h, classKind nvl.value = some h ∧ storeHandler? nvl.name = some h := by
  have hname : (dispatched d nvl now).devName = nvl.name := congrArg Prod.fst (dispatched_device d nvl now)
  rw [recorded_iff_handler, dispatched_evClass, hname]

/-- The events of `disk_probe` are of the classes of disks. -/
def IsDiskEvent (nvl : Nvlist) : Prop := classKind nvl.value = some .disk

theorem diskCheck_events {fires : Bool} {evtId : ℤ} {name fullpath : CStr} {head head' : List Nvlist}
    (hname : classKind (fmEreportClass ++ name) = some .disk)
    (h : diskCheck fires evtId name fullpath head = some head') (hhead : ∀ nvl ∈ head, IsDiskEvent nvl) :
    ∀ nvl ∈ head', IsDiskEvent nvl := by
  unfold diskCheck at h
  split_ifs at h
  · obtain ⟨path, hpath, h⟩ := Option.bind_eq_some_iff.mp h
    obtain ⟨value, hvalue, rfl⟩ := Option.map_eq_some_iff.mp h
    obtain ⟨-, rfl⟩ := store_eq_some.mp hvalue
    exact List.forall_mem_cons.mpr ⟨hname, hhead⟩
  · cases h
    exact hhead

theorem diskLine_events {env : DiskEnv} {bootdev buff : CStr} {head head' : List Nvlist}
    (h : diskLine env bootdev head buff = some head') (hhead : ∀ nvl ∈ head, IsDiskEvent nvl) :
    ∀ nvl ∈ head', IsDiskEvent nvl := by
  obtain ⟨fullpath, -, h⟩ := Option.bind_eq_some_iff.mp h
  obtain ⟨head₁, h₁, h⟩ := Option.bind_eq_some_iff.mp h
  obtain ⟨path, -, h⟩ := Option.bind_eq_some_iff.mp h
  obtain ⟨head₂, h₂, h₃⟩ := Option.bind_eq_some_iff.mp h
  exact diskCheck_events rfl h₃ (diskCheck_events rfl h₂ (diskCheck_events rfl h₁ hhead))

theorem foldlM_diskLine_events {env : DiskEnv} {bootdev : CStr} {bufs : List CStr} {head head' : List Nvlist}
    (h : bufs.foldlM (diskLine env bootdev) head = some head') (hhead : ∀ nvl ∈ head, IsDiskEvent nvl) :
    ∀ nvl ∈ head', IsDiskEvent nvl := by
  induction bufs generalizing head with
  | nil =>
    cases h
    exact hhead
  | cons buf bufs ih =>
    obtain ⟨head₁, h₁, h⟩ := Option.bind_eq_some_iff.mp h
    exact ih h (diskLine_events h₁ hhead)

theorem diskProbe_events {env : DiskEnv} {head : List Nvlist} (h : diskProbe env = some head) :
    ∀ nvl ∈ head, IsDiskEvent nvl := by
  unfold diskProbe at h
  cases hdf : env.df with
  | none =>
    rw [hdf] at h
    cases h
    exact fun nvl hnvl => absurd hnvl List.not_mem_nil
  | some df =>
    cases hboot : env.boot with
    | none =>
      rw [hdf, hboot] at h
      cases h
      exact fun nvl hnvl => absurd hnvl List.not_mem_nil
    | some boot =>
      rw [hdf, hboot] at h
      obtain ⟨bootdev, -, h⟩ := Option.bind_eq_some_iff.mp h
      exact foldlM_diskLine_events h fun nvl hnvl => absurd hnvl List.not_mem_nil

theorem classKind_dumped {m : Mce} {f : Fault} {e : FmsCpumem} (h : Dumped m f e) :
    ∃ k, classKind (cpumemFmEventPost e).value = some k ∧
      storeHandler? (cpumemFmEventPost e).name = some k := by
  have hall : ∀ f ∈ Fault.all, ∀ uc : Bool,
      classKind ((fmEreportClass ++ ".cpu.".toList ++ f.mnemonic (ucSuffix uc)).take (fmsPathMax - 1)) =
        storeHandler? f.device ∧ (storeHandler? f.device).isSome := by
    decide +kernel
  have hvalue : (cpumemFmEventPost e).value =
      (fmEreportClass ++ ".cpu.".toList ++ e.mnemonic).take (fmsPathMax - 1) := by
    change fullclass e = _
    unfold fullclass
    split_ifs <;> rfl
  rw [hvalue, h.mnemonic]
  change ∃ k, _ ∧ storeHandler? e.fname = some k
  obtain ⟨hkind, hsome⟩ := hall f f.mem_all m.uc
  obtain ⟨k, hk⟩ := Option.isSome_iff_exists.mp hsome
  rw [h.fname]
  exact ⟨k, hkind.trans hk, hk⟩

theorem processMcefd_events {cputype : Cputype} {recordlen : ℕ} {mces : List Mce} {head : List Nvlist}
    (h : processMcefd cputype recordlen mces = some head) {nvl : Nvlist} (hnvl : nvl ∈ head) :
    ∃ k, classKind nvl.value = some k ∧ storeHandler? nvl.name = some k := by
  obtain ⟨fcs, hfcs, rfl⟩ := Option.map_eq_some_iff.mp h
  obtain ⟨e, he, rfl⟩ := List.mem_map.mp (List.mem_reverse.mp hnvl)
  obtain ⟨es, hes, he⟩ := List.mem_flatten.mp he
  obtain ⟨m, -, hm⟩ := (Paging.mem_of_mapM hfcs es).mp hes
  rcases dumpMce_spec cputype m recordlen with ⟨hnone, -⟩ | ⟨es', hes', hdumped, -⟩
  · rw [hnone] at hm
    cases hm
  · obtain rfl := Option.some.inj (hm.symm.trans hes')
    obtain ⟨f, -, hf⟩ := hdumped e he
    exact classKind_dumped hf

/-- The events whose names the store handlers know: those of the processors and of memory, and a disk
whose path happens to start with `disk`. -/
def Source.Known : Source → Nvlist → Prop
  | .disk _, nvl => "disk".toList <+: nvl.name
  | .cpumem .., _ => True
  | .trace, nvl => nvl.name = "cpu".toList
  | .inject _, _ => False

/-- **An ereport is recorded in the table of its device if and only if it is about a processor or memory,
or about a disk whose path starts with `disk`.** -/
theorem recorded_iff (src : Source) (head : List Nvlist) (hprobe : src.probe = some head) (nvl : Nvlist)
    (hnvl : nvl ∈ evtHandle head) (d : Daemon) (now : ℤ) :
    Recorded (dispatched d nvl now) ↔ src.Known nvl := by
  rw [recorded_dispatched]
  have hmem : nvl ∈ head := (List.mem_filter.mp hnvl).1
  cases src with
  | disk env =>
    have hclass : classKind nvl.value = some .disk := diskProbe_events hprobe nvl hmem
    rw [hclass]
    simp only [Option.some.injEq, exists_eq_left']
    exact storeHandler?_disk
  | cpumem cputype recordlen mces => exact iff_of_true (processMcefd_events hprobe hmem) trivial
  | trace =>
    cases hprobe
    simp only [traceProbe, List.mem_cons, List.not_mem_nil, or_false] at hmem
    rcases hmem with rfl | rfl | rfl
    · exact iff_of_true ⟨.cpu, rfl, rfl⟩ rfl
    · have hname : "sdb".toList ≠ "cpu".toList := by decide
      exact iff_of_false (fun ⟨_, _, h⟩ => nomatch h) hname
    · exact iff_of_true ⟨.cpu, rfl, rfl⟩ rfl
  | inject message =>
    have hname : nvl.name = injectDiskname := by
      cases message with
      | none =>
        cases hprobe
        exact absurd hmem List.not_mem_nil
      | some buff =>
        obtain ⟨value, -, rfl⟩ := Option.map_eq_some_iff.mp hprobe
        rw [List.mem_singleton.mp hmem]
    refine iff_of_false (fun ⟨_, _, h⟩ => ?_) id
    rw [hname] at h
    exact nomatch h

theorem recorded_cache :
    Recorded (dispatched (.boot {}) ⟨"cpu".toList, 2, "ereport.cpu.cache_ce".toList, 0x11, true⟩ 0) :=
  (recorded_iff .trace traceProbe rfl _ (by decide) (.boot {}) 0).mpr rfl

/-- An unhealthy disk `/dev/sda` is in no table. -/
theorem recorded_fails : ¬ ∀ (src : Source) (head : List Nvlist), src.probe = some head →
    ∀ nvl ∈ evtHandle head, ∀ d now, Recorded (dispatched d nvl now) := by
  intro h
  have hrecorded := h (.disk ⟨some "/dev/sda\n".toList, some [], fun _ => 0, fun _ => 1, fun _ => 0, []⟩) _ rfl
    ⟨"/dev/sda".toList, 0, "ereport.disk.unhealthy".toList, 2, true⟩ (by decide) (.boot {}) 0
  obtain ⟨_, _, hname⟩ := recorded_dispatched.mp hrecorded
  exact nomatch hname

end Fms
