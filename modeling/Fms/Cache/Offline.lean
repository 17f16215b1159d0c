import Fms.Cache.Caches

/-!
# CPUs taken offline for a cache

src/evt_modules/evtagent/cpumem/evt_process.c: for a faulty cache, every CPU that shares it is taken
offline, and the others are tried where one fails.

* `Host`: what the kernel answers;
* `doCpuOffline`, `cpuOffineOnCache`: the code, with the calls that were made;
* `offlineLoop_attempts`: the loop calls for the CPUs of the mask, and returns 0 if all succeed;
* `CpumapFits`: what is asked of a `shared_cpu_map`, with `cpumapFits_of_short`;
* **`cpumapExact_iff`**: when the map of a cache is read and used as it is written.
-/

namespace Fms

open CString

/-- The files that the module reads and writes. -/
structure Host (σ : Type) where
  /-- The lines of `/proc/cpuinfo`, unless it cannot be opened. -/
  cpuinfo : σ → Option (List CStr)
  /-- `sysfs_available` -/
  available : CStr → σ → Bool
  /-- `sysfs_write` -/
  write : CStr → CStr → σ → ℤ × σ

/-- `sscanf(line, "processor : %u\n", &u) == 1` -/
def scanProcessor (line : CStr) : Option (BitVec 32) :=
  if "processor".toList <+: line then
    match (line.drop 9).dropWhile isSpace with
    | ':' :: s => scanUnsigned s
    | _ => none
  else none

/-- What a call left: its return value, the CPUs that `do_cpu_offline` was called for with its return
values, and the state of the host. -/
structure OfflineRun (σ : Type) where
  ret : ℤ
  calls : List (ℕ × ℤ)
  st : σ

section
variable {σ : Type} (host : Host σ)

/-- `is_cpu_offline` -/
def isCpuOffline (cpu : BitVec 32) (st : σ) : Bool :=
  match host.cpuinfo st with
  | none => false
  | some lines => !lines.any fun line => scanProcessor line = some cpu

def onlineFile (cpu : BitVec 32) : CStr :=
  "/sys/devices/system/cpu/cpu".toList ++ fmtInt cpu.toInt ++ "/online".toList

/-- `do_cpu_offline` -/
def doCpuOffline (cpu : BitVec 32) (st : σ) : ℤ × σ :=
  if isCpuOffline host cpu st then (0, st)
  else if host.available (onlineFile cpu) st = false then (-1, st)
  else
    let r := host.write (onlineFile cpu) "0".toList st
    (if r.1 > 0 then 0 else -1, r.2)

/-- The loop of `cpu_offine_on_cache` over some bits of the mask. -/
def offlineLoop (cpumask : List (BitVec 32)) : List ℕ → OfflineRun σ → Access (OfflineRun σ)
  | [], run => .done run
  | i :: is, run =>
    match testBit i cpumask with
    | none => .outOfBounds
    | some false => offlineLoop cpumask is run
    | some true =>
      let r := doCpuOffline host (BitVec.ofNat 32 i) run.st
      offlineLoop cpumask is ⟨if r.1 = 0 then run.ret else -1, run.calls ++ [(i, r.1)], r.2⟩

/-- `cpumasklen * 8`, an `int` -/
def maskBits (cpumasklen : ℕ) : ℤ := (BitVec.ofNat 32 (cpumasklen * 8)).toInt

/-- `cpu_offine_on_cache`, with the table behind it. -/
def cpuOffineOnCache (q : CacheRequest) (caches : Caches) (st : σ) : Access (Caches × OfflineRun σ) :=
  (cacheToCpus q caches).bind fun
    | (caches, some c) =>
      (offlineLoop host c.cpumap (List.range (maskBits c.cpumaplen).toNat) ⟨0, [], st⟩).bind fun run =>
        .done (caches, run)
    | (caches, none) =>
      let r := doCpuOffline host q.cpu st
      .done (caches, ⟨r.1, [(q.cpu.toNat, r.1)], r.2⟩)

end

/-- What the run has done for the bits `is`. -/
structure Attempts {σ : Type} (cpumask : List (BitVec 32)) (is : List ℕ) (run : OfflineRun σ) : Prop where
  calls : run.calls.map Prod.fst = is.filter fun i => testBit i cpumask = some true
  ret : run.ret = 0 ↔ ∀ call ∈ run.calls, call.2 = 0

/-- The words of the map stay inside their bytes. For a well-formed map they have the bits of its
CPUs, and when a request finds the cache, these are the CPUs that are tried. -/
def CpumapExact (map : CStr) : Prop :=
  ∀ c₀ : Cache, ∃ c, readCpuMap c₀ map = some c ∧ ∀ m : CpuMap, m.text = map →
    (∀ i, testBit i c.cpumap = some true ↔ i ∈ m.cpus) ∧
    ∀ (σ : Type) (host : Host σ) (q : CacheRequest) (caches caches' : Caches) (st : σ),
      cacheToCpus q caches = .done (caches', some c) →
      ∃ run, cpuOffineOnCache host q caches st = .done (caches', run) ∧
        run.calls.map Prod.fst = m.cpus ∧ (run.ret = 0 ↔ ∀ call ∈ run.calls, call.2 = 0)

/-- The runs of digits have a word for each part between the commas; and the bits of a well-formed
map are counted by an `int`. -/
def CpumapFits (map : CStr) : Prop :=
  4 * (map.count ',' + 1) ≤ mapBytes map ∧
    ∀ m : CpuMap, m.text = map → ∀ i ∈ m.cpus, (i : ℤ) < maskBits (mapBytes map)

/-! ## The loop -/

section
variable {σ : Type} (host : Host σ) {cpumask : List (BitVec 32)}

theorem testBit_isSome {i : ℕ} (h : i < 32 * cpumask.length) : (testBit i cpumask).isSome := by
  rw [testBit, Option.isSome_map, bitsPerInt, List.getElem?_eq_getElem (by omega)]
  rfl

theorem offlineLoop_cons {i : ℕ} (hi : i < 32 * cpumask.length) {run : OfflineRun σ} {done : List ℕ}
    (h : Attempts cpumask done run) (is : List ℕ) :
    ∃ run', offlineLoop host cpumask (i :: is) run = offlineLoop host cpumask is run' ∧
      Attempts cpumask (done ++ [i]) run' := by
  obtain ⟨set, hset⟩ := Option.isSome_iff_exists.mp (testBit_isSome hi)
  cases set with
  | false =>
    refine ⟨run, by rw [offlineLoop, hset], ?_, h.ret⟩
    rw [h.calls, List.filter_append]
    simp [hset]
  | true =>
    refine ⟨_, by rw [offlineLoop, hset], ?_, ?_⟩
    · rw [List.map_append, h.calls, List.filter_append]
      simp [hset]
    · have hret := h.ret
      dsimp only
      rw [List.forall_mem_append, List.forall_mem_singleton, ← hret]
      split
      case isTrue hr => exact (and_iff_left hr).symm
      case isFalse hr => exact iff_of_false (by decide) fun h => hr h.2

/-- **The loop calls for the CPUs of the mask in order, and returns 0 if all calls do.** -/
theorem offlineLoop_attempts {is : List ℕ} (his : ∀ i ∈ is, i < 32 * cpumask.length)
    {run : OfflineRun σ} {done : List ℕ} (h : Attempts cpumask done run) :
    ∃ run', offlineLoop host cpumask is run = .done run' ∧ Attempts cpumask (done ++ is) run' := by
  induction is generalizing run done with
  | nil => exact ⟨run, rfl, by rwa [List.append_nil]⟩
  | cons i is ih =>
    rw [List.forall_mem_cons] at his
    obtain ⟨run₁, hrun₁, h₁⟩ := offlineLoop_cons host his.1 h is
    obtain ⟨run', hrun', h'⟩ := ih his.2 h₁
    refine ⟨run', hrun₁.trans hrun', ?_⟩
    rwa [List.append_assoc, List.singleton_append] at h'

end

/-! ## A map and its cache -/

theorem maskBits_le (cpumasklen : ℕ) : (maskBits cpumasklen).toNat ≤ 8 * cpumasklen := by
  have hmod := Nat.mod_le (cpumasklen * 8) (2 ^ 32)
  have hint := BitVec.toInt_eq_toNat_cond (BitVec.ofNat 32 (cpumasklen * 8))
  rw [maskBits, hint, BitVec.toNat_ofNat]
  split <;> omega

theorem maskBits_of_lt {cpumasklen : ℕ} (h : cpumasklen < 2 ^ 28) :
    maskBits cpumasklen = (8 * cpumasklen : ℕ) := by
  have hint := BitVec.toInt_eq_toNat_cond (BitVec.ofNat 32 (cpumasklen * 8))
  rw [BitVec.toNat_ofNat, Nat.mod_eq_of_lt (by omega), if_pos (by omega)] at hint
  rw [maskBits, hint, Nat.mul_comm]

theorem filter_range_of_lt {p : ℕ → Bool} {a b : ℕ} (ha : ∀ i, p i = true → i < a) (hab : a ≤ b) :
    (List.range b).filter p = (List.range a).filter p := by
  obtain ⟨k, rfl⟩ := Nat.exists_eq_add_of_le hab
  have hnil : ((List.range k).map (a + ·)).filter p = [] := by
    rw [List.filter_eq_nil_iff]
    intro i hi hp
    obtain ⟨j, -, rfl⟩ := List.mem_map.mp hi
    exact absurd (ha _ hp) (by omega)
  rw [List.range_add, List.filter_append, hnil, List.append_nil]

theorem filter_range_eq {p : ℕ → Bool} {a b : ℕ} (ha : ∀ i, p i = true → i < a)
    (hb : ∀ i, p i = true → i < b) : (List.range a).filter p = (List.range b).filter p := by
  rcases Nat.le_total a b with h | h
  · exact (filter_range_of_lt ha h).symm
  · exact filter_range_of_lt hb h

namespace CpuMap

variable (m : CpuMap) {c₀ c : Cache}

theorem testBit_iff (hread : readCpuMap c₀ m.text = some c) (i : ℕ) :
    testBit i c.cpumap = some true ↔ i ∈ m.cpus :=
  (m.readCpuMap_testBit hread i).trans m.mem_cpus.symm

theorem cpuOffine_found {σ : Type} (host : Host σ) {q : CacheRequest} {caches caches' : Caches} (st : σ)
    (hread : readCpuMap c₀ m.text = some c) (hfound : cacheToCpus q caches = .done (caches', some c)) :
    ∃ run, cpuOffineOnCache host q caches st = .done (caches', run) ∧
      run.calls.map Prod.fst = (List.range (maskBits (mapBytes m.text)).toNat).filter m.number.testBit ∧
      (run.ret = 0 ↔ ∀ call ∈ run.calls, call.2 = 0) := by
  obtain ⟨hlen, hbytes⟩ := readCpuMap_length hread
  have hin : ∀ i ∈ List.range (maskBits c.cpumaplen).toNat, i < 32 * c.cpumap.length := by
    intro i hi
    have hle := maskBits_le (mapBytes m.text)
    rw [hbytes, List.mem_range] at hi
    omega
  have hnone : Attempts c.cpumap [] (⟨0, [], st⟩ : OfflineRun σ) := ⟨rfl, by simp⟩
  obtain ⟨run, hrun, hattempts⟩ := offlineLoop_attempts host hin hnone
  refine ⟨run, ?_, ?_, hattempts.ret⟩
  · rw [cpuOffineOnCache, hfound, Access.bind]
    dsimp only
    rw [hrun, Access.bind]
  · rw [hattempts.calls, List.nil_append, hbytes]
    apply List.filter_congr
    intro i _
    rw [Bool.eq_iff_iff, decide_eq_true_iff]
    exact m.readCpuMap_testBit hread i

end CpuMap

/-- **A well-formed map of any usual length is read and used as it is written.** -/
theorem CpuMap.cpumapFits_of_short (m : CpuMap) (h : m.text.length < 2 ^ 26) : CpumapFits m.text := by
  obtain ⟨hle, hge⟩ := m.mapBytes_bounds h
  have hcount := m.count_text
  refine ⟨by omega, ?_⟩
  intro m' heq i hi
  have hcount' := m'.count_text
  rw [CpuMap.cpus, List.mem_filter, List.mem_range] at hi
  rw [heq] at hcount'
  rw [maskBits_of_lt (by omega)]
  omega

theorem cacheToCpus_single (c : Cache) :
    cacheToCpus ⟨0, c.level, c.type, none, none⟩ [some [c]] = .done ([some [c]], some c) := by
  simp [cacheToCpus, Access.bind, cpuMissing, cacheAt, findCache]

/-- **A map is read into its bytes, and used as it is written, where the words of its parts fit in
those of its digits, and only there.** -/
theorem cpumapExact_iff (map : CStr) : CpumapExact map ↔ CpumapFits map := by
  constructor
  · intro h
    obtain ⟨c, hread, hexact⟩ := h {}
    have hfits := (readCpuMap_isSome {} map).mp (by rw [hread]; rfl)
    refine ⟨hfits, ?_⟩
    rintro m rfl i hi
    let host : Host Unit := ⟨fun _ => none, fun _ _ => false, fun _ _ st => (0, st)⟩
    obtain ⟨run, hrun, hcalls, -⟩ := (hexact m rfl).2 Unit host _ _ _ () (cacheToCpus_single c)
    obtain ⟨run', hrun', hcalls', -⟩ := m.cpuOffine_found host () hread (cacheToCpus_single c)
    rw [hrun] at hrun'
    cases hrun'
    rw [← hcalls, hcalls', List.mem_filter, List.mem_range] at hi
    omega
  · rintro ⟨hfits, hbits⟩ c₀
    obtain ⟨c, hread⟩ := Option.isSome_iff_exists.mp ((readCpuMap_isSome c₀ map).mpr hfits)
    refine ⟨c, hread, ?_⟩
    rintro m rfl
    refine ⟨m.testBit_iff hread, ?_⟩
    intro σ host q caches caches' st hfound
    obtain ⟨run, hrun, hcalls, hret⟩ := m.cpuOffine_found host st hread hfound
    refine ⟨run, hrun, ?_, hret⟩
    rw [hcalls, CpuMap.cpus]
    apply filter_range_eq
    · intro i hi
      have := hbits m rfl i (m.mem_cpus.mpr hi)
      omega
    · intro i hi
      have := m.mem_cpus.mpr hi
      rw [CpuMap.cpus, List.mem_filter, List.mem_range] at this
      exact this.1

/-- The text that is read when there is no file gets a word, but no bytes. -/
theorem cpumapExact_empty : ¬ CpumapExact [] := by
  intro h
  obtain ⟨c, hread, -⟩ := h {}
  have hnone : readCpuMap {} [] = none := by decide
  rw [hnone] at hread
  cases hread

end Fms
