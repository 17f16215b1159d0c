import Fms.Cache.Cpumap
import Fms.Lib.Paging

/-!
# The table of caches

src/evt_modules/evtagent/cpumem/cache.c: the caches of a CPU are at its number in a table that grows
by doubling while the `cpuN` directories are listed, in whatever order.

* `moreCpus`, `readCaches`, `cacheToCpus`: the code, with an end for an access behind the table;
* `cacheRun`: requests one after the other, with what is listed when they read the directories;
* `Access.Holds`: an access stays inside, with the rule for one after another;
* `GrowsEnough`: what is asked of a listing;
* **`cachesSafe_iff`**: when no run leaves the table, and each table is that of a listing.
-/

namespace Fms

open CString

/-- The fields of an `indexN` directory. -/
structure IndexDir where
  type : CStr
  level : CStr
  sharedCpuMap : CStr

def typeMap : List (CStr × BitVec 32) :=
  [("Instruction".toList, 0), ("Data".toList, 1), ("Unified".toList, 2)]

/-- `read_field_map` -/
def readFieldMap (val : CStr) : BitVec 32 := (typeMap.lookup val).getD (-1)

/-- `read_field_num` -/
def readFieldNum (val : CStr) : BitVec 32 := (scanUnsigned val).getD 0

def readIndex (dir : IndexDir) : Option Cache :=
  readCpuMap { level := readFieldNum dir.level, type := readFieldMap dir.type } dir.sharedCpuMap

def minIndex : ℕ := 4

/-- The links of a `cache` directory beyond its own two are its directories. -/
def numIndex (nlink : ℕ) : ℕ := if nlink < 2 then minIndex else nlink - 2

/-- The caches of a CPU. What ends them, a cache without `cpumap`, is the end of the list. -/
def readRow (nlink : ℕ) (index : ℕ → IndexDir) : Option (List Cache) :=
  (List.range (numIndex nlink)).mapM fun i => readIndex (index i)

/-- An entry of the directory of the CPUs, with the caches of its `cache` directory, if there is one. -/
structure CpuDir where
  name : CStr
  cache : Option (List Cache)

/-- `sscanf(de->d_name, "cpu%u", &cpu) == 1`, and `stat` -/
def CpuDir.row (de : CpuDir) : Option (BitVec 32 × List Cache) :=
  if "cpu".toList <+: de.name then
    (scanUnsigned (de.name.drop 3)).bind fun cpu => de.cache.map fun row => (cpu, row)
  else none

/-- `caches`; with a `cachelen` of 0 it is `NULL`. -/
abbrev Caches := List (Option (List Cache))

/-- How an access to the table ends. -/
inductive Access (α : Type) where
  | done (a : α)
  | abort
  | outOfBounds
  deriving DecidableEq

def Access.bind {α β : Type} (x : Access α) (f : α → Access β) : Access β :=
  match x with
  | .done a => f a
  | .abort => .abort
  | .outOfBounds => .outOfBounds

def minCpus : ℕ := 8

/-- `more_cpus`. The length is 0 or a power of two, which only wraps to 0; of no bytes `realloc` gives
`NULL`. -/
def moreCpus (caches : Caches) : Access Caches :=
  let cachelen := (if caches.length = 0 then minCpus / 2 else caches.length) * 2 % 2 ^ 32
  if cachelen = 0 then .abort
  else .done (caches ++ List.replicate (cachelen - caches.length) none)

/-- `caches[cpu] = row` -/
def putRow (cpu : BitVec 32) (row : List Cache) (caches : Caches) : Access Caches :=
  if cpu.toNat < caches.length then .done (caches.set cpu.toNat (some row)) else .outOfBounds

/-- One entry of the loop of `read_caches`. -/
def storeRow (r : BitVec 32 × List Cache) (caches : Caches) : Access Caches :=
  (if caches.length ≤ r.1.toNat then moreCpus caches else .done caches).bind (putRow r.1 r.2)

def storeRows : List (BitVec 32 × List Cache) → Caches → Access Caches
  | [], caches => .done caches
  | r :: rows, caches => (storeRow r caches).bind (storeRows rows)

/-- `read_caches`, with what is listed; it fails when the directory cannot be opened. -/
def readCaches (cpus : Option (List CpuDir)) (caches : Caches) : Access (Option Caches) :=
  match cpus with
  | none => .done none
  | some dirs => (storeRows (dirs.filterMap CpuDir.row) caches).bind fun caches => .done (some caches)

/-- `caches[cpu]` -/
def cacheAt (caches : Caches) (cpu : BitVec 32) : Access (Option (List Cache)) :=
  match caches[cpu.toNat]? with
  | some row => .done row
  | none => .outOfBounds

/-- `cpu >= cachelen || !caches[cpu]` -/
def cpuMissing (caches : Caches) (cpu : BitVec 32) : Access Bool :=
  if caches.length ≤ cpu.toNat then .done true
  else (cacheAt caches cpu).bind fun row => .done row.isNone

/-- The loop at the end of `cache_to_cpus`. -/
def findCache (caches : Caches) (cpu level type : BitVec 32) : Access (Option Cache) :=
  if caches.length ≤ cpu.toNat then .done none
  else (cacheAt caches cpu).bind fun row =>
    .done ((row.getD []).find? fun c => c.level = level ∧ c.type = type)

/-- A call of `cache_to_cpus`. The directories are listed for the first table and again for a CPU
that is not in it. -/
structure CacheRequest where
  cpu : BitVec 32
  level : BitVec 32
  type : BitVec 32
  first : Option (List CpuDir)
  again : Option (List CpuDir)

/-- `cache_to_cpus`: the table behind it, and the cache unless it returns -1. Each return before the
last loop leaves no table. -/
def cacheToCpus (q : CacheRequest) (caches : Caches) : Access (Caches × Option Cache) :=
  (if caches = [] then readCaches q.first [] else .done (some caches)).bind fun
    | none => .done ([], none)
    | some caches =>
      if caches = [] then .done ([], none)
      else (cpuMissing caches q.cpu).bind fun missing =>
        (if missing then readCaches q.again [] else .done (some caches)).bind fun
          | none => .done ([], none)
          | some caches => (findCache caches q.cpu q.level q.type).bind fun c => .done (caches, c)

/-- A call of the module: a request, or `caches_release` at its end. -/
inductive CacheCall where
  | cacheToCpus (q : CacheRequest)
  | release

def CacheCall.step : CacheCall → Caches → Access Caches
  | .cacheToCpus q, caches => (Fms.cacheToCpus q caches).bind fun r => .done r.1
  | .release, _ => .done []

/-- The table after some calls. -/
def cacheRun : List CacheCall → Caches → Access Caches
  | [], caches => .done caches
  | call :: calls, caches => (call.step caches).bind (cacheRun calls)

theorem Access.bind_eq_done {α β : Type} {x : Access α} {f : α → Access β} {b : β} :
    x.bind f = .done b ↔ ∃ a, x = .done a ∧ f a = .done b := by
  cases x <;> simp [Access.bind]

/-- The access stays inside, and `P` holds of what it leaves. -/
def Access.Holds {α : Type} (x : Access α) (P : α → Prop) : Prop :=
  match x with
  | .done a => P a
  | .abort => True
  | .outOfBounds => False

theorem Access.Holds.bind {α β : Type} {x : Access α} {f : α → Access β} {P : α → Prop} {Q : β → Prop}
    (h : x.Holds P) (hf : ∀ a, P a → (f a).Holds Q) : (x.bind f).Holds Q := by
  cases x with
  | done a => exact hf a h
  | abort => trivial
  | outOfBounds => exact h

/-! ## What is asked of a listing -/

/-- The listings that a call may read. -/
def CacheCall.Lists (L : Set (List CpuDir)) : CacheCall → Prop
  | .cacheToCpus q => ∀ dirs ∈ q.first.toList ++ q.again.toList, dirs ∈ L
  | .release => True

/-- The CPUs with caches, in the order of the listing. -/
def cpuNumbers (dirs : List CpuDir) : List ℕ := (dirs.filterMap CpuDir.row).map fun r => r.1.toNat

/-- A number is below `bound`, or below the double of the table that has a place for an earlier one.
From `2^31` on there is no table. -/
def GrowsFrom (bound : ℕ) (cpus : List ℕ) : Prop :=
  ∀ ⦃pre cpu post⦄, cpus = pre ++ cpu :: post → (∀ p ∈ pre, p < 2 ^ 31) →
    cpu < bound ∨ ∃ p ∈ pre, cpu < 2 ^ (Nat.log2 (max p 7) + 2)

/-- The first CPU has a place in the first table. -/
def GrowsEnough (dirs : List CpuDir) : Prop := GrowsFrom minCpus (cpuNumbers dirs)

/-- The caches that were listed last for a CPU. -/
def listedRow (rows : List (BitVec 32 × List Cache)) (k : ℕ) : Option (List Cache) :=
  (rows.reverse.find? fun r => r.1.toNat = k).map Prod.snd

/-- Each entry of the table is what was listed for it, or `NULL`. -/
def TableOf (dirs : List CpuDir) (caches : Caches) : Prop :=
  ∀ k, caches.getD k none = listedRow (dirs.filterMap CpuDir.row) k

/-- There is no table, or it is that of a listing. -/
def TableIn (L : Set (List CpuDir)) (caches : Caches) : Prop :=
  caches = [] ∨ ∃ dirs ∈ L, TableOf dirs caches

/-- In no run from the start an access leaves the table, and each table is that of a listing. -/
def CachesSafe (L : Set (List CpuDir)) : Prop :=
  ∀ calls : List CacheCall, (∀ call ∈ calls, call.Lists L) → (cacheRun calls []).Holds (TableIn L)

theorem growsFrom_nil (bound : ℕ) : GrowsFrom bound [] := by
  intro pre cpu post h
  cases pre <;> cases h

theorem growsFrom_cons {bound cpu : ℕ} {cpus : List ℕ} (hcpu : cpu < 2 ^ 31) :
    GrowsFrom bound (cpu :: cpus) ↔
      cpu < bound ∧ GrowsFrom (max bound (2 ^ (Nat.log2 (max cpu 7) + 2))) cpus := by
  constructor
  · intro h
    refine ⟨?_, ?_⟩
    · rcases h (show cpu :: cpus = [] ++ cpu :: cpus from rfl) (by simp) with h | ⟨p, hp, -⟩
      · exact h
      · exact absurd hp List.not_mem_nil
    · intro pre c post heq hpre
      have hpre' : ∀ p ∈ cpu :: pre, p < 2 ^ 31 := List.forall_mem_cons.mpr ⟨hcpu, hpre⟩
      have hsplit : cpu :: cpus = (cpu :: pre) ++ c :: post := by rw [heq, List.cons_append]
      rcases h hsplit hpre' with hlt | ⟨p, hp, hlt⟩
      · exact Or.inl (lt_max_of_lt_left hlt)
      · rcases List.mem_cons.mp hp with rfl | hp
        · exact Or.inl (lt_max_of_lt_right hlt)
        · exact Or.inr ⟨p, hp, hlt⟩
  · rintro ⟨hlt, h⟩ pre c post heq hpre
    cases pre with
    | nil =>
      rw [List.nil_append, List.cons.injEq] at heq
      exact Or.inl (heq.1 ▸ hlt)
    | cons p pre =>
      rw [List.cons_append, List.cons.injEq] at heq
      obtain ⟨rfl, heq⟩ := heq
      rcases h heq (List.forall_mem_cons.mp hpre).2 with h | ⟨p, hp, h⟩
      · rcases lt_max_iff.mp h with h | h
        · exact Or.inl h
        · exact Or.inr ⟨cpu, List.mem_cons_self, h⟩
      · exact Or.inr ⟨p, List.mem_cons_of_mem _ hp, h⟩

theorem growsFrom_cons_of_le {bound cpu : ℕ} (hcpu : 2 ^ 31 ≤ cpu) (hlt : cpu < bound) (cpus : List ℕ) :
    GrowsFrom bound (cpu :: cpus) := by
  intro pre c post heq hpre
  cases pre with
  | nil =>
    rw [List.nil_append, List.cons.injEq] at heq
    exact Or.inl (heq.1 ▸ hlt)
  | cons p pre =>
    rw [List.cons_append, List.cons.injEq] at heq
    exact absurd (heq.1 ▸ (List.forall_mem_cons.mp hpre).1) (not_lt.mpr hcpu)

/-- A listing where each number is at most one above an earlier one. -/
theorem growsFrom_of_steps {cpus : List ℕ}
    (h : ∀ ⦃pre cpu post⦄, cpus = pre ++ cpu :: post → cpu = 0 ∨ ∃ p ∈ pre, cpu ≤ p + 1) :
    GrowsFrom minCpus cpus := by
  intro pre cpu post heq _
  rcases h heq with rfl | ⟨p, hp, hle⟩
  · exact Or.inl (by decide)
  · refine Or.inr ⟨p, hp, ?_⟩
    have hlog := Nat.lt_log2_self (n := max p 7)
    rw [pow_succ]
    omega

theorem row_cpu {n : ℕ} (h : n < 2 ^ 32) (row : List Cache) :
    CpuDir.row ⟨"cpu".toList ++ Nat.toDigits 10 n, some row⟩ = some (BitVec.ofNat 32 n, row) := by
  have hdrop : ("cpu".toList ++ Nat.toDigits 10 n).drop 3 = Nat.toDigits 10 n := rfl
  rw [CpuDir.row, if_pos (List.prefix_append _ _), hdrop, scanUnsigned_toDigits h, Option.bind_some,
    Option.map_some]

/-- The directories of the CPUs below `n` in their order. -/
def ascending (n : ℕ) (row : ℕ → List Cache) : List CpuDir :=
  (List.range n).map fun i => ⟨"cpu".toList ++ Nat.toDigits 10 i, some (row i)⟩

theorem cpuNumbers_ascending {n : ℕ} (h : n ≤ 2 ^ 32) (row : ℕ → List Cache) :
    cpuNumbers (ascending n row) = List.range n := by
  have hrow : ∀ i ∈ List.range n, CpuDir.row ⟨"cpu".toList ++ Nat.toDigits 10 i, some (row i)⟩ =
      some (BitVec.ofNat 32 i, row i) := by
    intro i hi
    have hlt := List.mem_range.mp hi
    exact row_cpu (by omega) (row i)
  have hrows : (ascending n row).filterMap CpuDir.row = (List.range n).map fun i => (BitVec.ofNat 32 i, row i) := by
    rw [ascending, List.filterMap_map, ← List.filterMap_eq_map]
    exact List.filterMap_congr hrow
  have hnat : ∀ i ∈ List.range n, (BitVec.ofNat 32 i).toNat = i := by
    intro i hi
    have hlt := List.mem_range.mp hi
    exact Nat.mod_eq_of_lt (by omega)
  calc
    cpuNumbers (ascending n row) = (List.range n).map fun i => (BitVec.ofNat 32 i).toNat := by
      rw [cpuNumbers, hrows, List.map_map]
      rfl
    _ = (List.range n).map id := List.map_congr_left hnat
    _ = List.range n := List.map_id _

/-- **In their order the CPUs are all stored.** -/
theorem growsEnough_ascending {n : ℕ} (h : n ≤ 2 ^ 32) (row : ℕ → List Cache) :
    GrowsEnough (ascending n row) := by
  rw [GrowsEnough, cpuNumbers_ascending h]
  refine growsFrom_of_steps fun pre cpu post heq => ?_
  have hlen : pre.length < n := by
    have hlen := congrArg List.length heq
    rw [List.length_range, List.length_append, List.length_cons] at hlen
    omega
  have hcpu : cpu = pre.length := by
    have hget : (List.range n)[pre.length]? = some cpu := by simp [heq]
    rw [List.getElem?_range hlen, Option.some_inj] at hget
    exact hget.symm
  have hpre : pre = List.range pre.length := by
    calc
      pre = (List.range n).take pre.length := by rw [heq, List.take_left]
      _ = List.range pre.length := by rw [List.take_range, Nat.min_eq_left hlen.le]
  cases cpu with
  | zero => exact Or.inl rfl
  | succ p =>
    refine Or.inr ⟨p, ?_, le_rfl⟩
    rw [hpre, List.mem_range]
    omega

/-! ## One row -/

/-- The lengths of the table. -/
def Sized (n : ℕ) : Prop := n = 0 ∨ ∃ e, 3 ≤ e ∧ e ≤ 31 ∧ n = 2 ^ e

/-- The length after the next growth. -/
def reach (n : ℕ) : ℕ := if n = 0 then minCpus else n * 2

theorem reach_grow {n cpu : ℕ} (h : Sized n) (hcpu : cpu < reach n) (hlt : cpu < 2 ^ 31) :
    Sized (if n ≤ cpu then reach n else n) ∧
      reach (if n ≤ cpu then reach n else n) = max (reach n) (2 ^ (Nat.log2 (max cpu 7) + 2)) := by
  have hne : max cpu 7 ≠ 0 := by omega
  rcases h with rfl | ⟨e, he, he31, rfl⟩
  · have h8 : cpu < 8 := hcpu
    rw [if_pos (Nat.zero_le cpu), max_eq_right (show cpu ≤ 7 by omega)]
    exact ⟨Or.inr ⟨3, by decide, by decide, rfl⟩, by decide⟩
  · have hpow : 2 ^ 3 ≤ 2 ^ e := Nat.pow_le_pow_right (by decide) he
    have hreach : reach (2 ^ e) = 2 ^ (e + 1) := by
      rw [reach, if_neg (by positivity), pow_succ]
    rw [hreach] at hcpu ⊢
    by_cases hle : 2 ^ e ≤ cpu
    · have he30 : e < 31 := (Nat.pow_lt_pow_iff_right (by decide)).mp (lt_of_le_of_lt hle hlt)
      have hlog : Nat.log2 (max cpu 7) = e := by
        rw [max_eq_left (by omega)]
        exact (Nat.log2_eq_iff (by omega)).mpr ⟨hle, hcpu⟩
      rw [if_pos hle, hlog]
      refine ⟨Or.inr ⟨e + 1, by omega, by omega, rfl⟩, ?_⟩
      rw [max_eq_right (Nat.pow_le_pow_right (by decide) (by omega)), reach, if_neg (by positivity), ← pow_succ]
    · have hlog : Nat.log2 (max cpu 7) < e := (Nat.log2_lt hne).mpr (by omega)
      rw [if_neg hle, hreach, max_eq_left (Nat.pow_le_pow_right (by decide) (by omega))]
      exact ⟨Or.inr ⟨e, he, he31, rfl⟩, rfl⟩

theorem sized_last {n cpu : ℕ} (h : Sized n) (hcpu : cpu < reach n) (hle : 2 ^ 31 ≤ cpu) : n = 2 ^ 31 := by
  rcases h with rfl | ⟨e, -, he, rfl⟩
  · have h8 : cpu < 8 := hcpu
    omega
  · have hpos : 2 ^ e ≠ 0 := by positivity
    rw [reach, if_neg hpos] at hcpu
    by_cases h31 : e = 31
    · rw [h31]
    · have h30 : 2 ^ e ≤ 2 ^ 30 := Nat.pow_le_pow_right (by decide) (by omega)
      omega

section
variable {caches caches' : Caches} {r : BitVec 32 × List Cache}

theorem moreCpus_sized (h : Sized caches.length) :
    moreCpus caches =
      if caches.length = 2 ^ 31 then .abort
      else .done (caches ++ List.replicate (reach caches.length - caches.length) none) := by
  unfold moreCpus
  rcases h with h | ⟨e, he, he31, h⟩
  · rw [h]
    rfl
  · have hpos : 2 ^ e ≠ 0 := by positivity
    rw [h, if_neg hpos, reach, if_neg hpos]
    by_cases h31 : e = 31
    · rw [h31]
      rfl
    · have hlt : 2 ^ e ≤ 2 ^ 30 := Nat.pow_le_pow_right (by decide) (by omega)
      have hmod : 2 ^ e * 2 % 2 ^ 32 = 2 ^ e * 2 := Nat.mod_eq_of_lt (by omega)
      dsimp only
      rw [hmod, if_neg (by omega), if_neg (by omega)]

theorem length_grown (h : caches.length ≤ reach caches.length) :
    (caches ++ List.replicate (reach caches.length - caches.length) none).length = reach caches.length := by
  rw [List.length_append, List.length_replicate]
  omega

theorem le_reach (n : ℕ) : n ≤ reach n := by
  unfold reach
  split <;> omega

theorem storeRow_sized (h : Sized caches.length) (r : BitVec 32 × List Cache) :
    storeRow r caches =
      if r.1.toNat < caches.length then .done (caches.set r.1.toNat (some r.2))
      else if caches.length = 2 ^ 31 then .abort
      else if r.1.toNat < reach caches.length then
        .done ((caches ++ List.replicate (reach caches.length - caches.length) none).set r.1.toNat (some r.2))
      else .outOfBounds := by
  unfold storeRow
  by_cases hlt : r.1.toNat < caches.length
  · rw [if_neg (not_le.mpr hlt), if_pos hlt, Access.bind, putRow, if_pos hlt]
  · rw [if_pos (not_lt.mp hlt), if_neg hlt, moreCpus_sized h]
    split
    · rfl
    · rw [Access.bind, putRow, length_grown (le_reach _)]

theorem moreCpus_done (h : moreCpus caches = .done caches') : ∃ n, caches' = caches ++ List.replicate n none := by
  unfold moreCpus at h
  generalize (if caches.length = 0 then minCpus / 2 else caches.length) * 2 % 2 ^ 32 = cachelen at h
  dsimp only at h
  split at h
  · cases h
  · cases h
    exact ⟨_, rfl⟩

theorem storeRow_done (h : storeRow r caches = .done caches') :
    ∃ n, r.1.toNat < (caches ++ List.replicate n none).length ∧
      caches' = (caches ++ List.replicate n none).set r.1.toNat (some r.2) := by
  obtain ⟨grown, hgrown, hput⟩ := Access.bind_eq_done.mp h
  have hn : ∃ n, grown = caches ++ List.replicate n none := by
    split at hgrown
    · exact moreCpus_done hgrown
    · cases hgrown
      exact ⟨0, (List.append_nil _).symm⟩
  obtain ⟨n, rfl⟩ := hn
  refine ⟨n, ?_⟩
  unfold putRow at hput
  split at hput
  case isTrue hlt =>
    cases hput
    exact ⟨hlt, rfl⟩
  case isFalse => cases hput

/-- **Every other entry stays what it was.** -/
theorem storeRow_getD (h : storeRow r caches = .done caches') (k : ℕ) :
    caches'.getD k none = if r.1.toNat = k then some r.2 else caches.getD k none := by
  obtain ⟨n, hlt, rfl⟩ := storeRow_done h
  rw [List.getD_eq_getElem?_getD, List.getElem?_set]
  split
  · rfl
  · rw [List.getElem?_append, List.getD_eq_getElem?_getD]
    split
    · rfl
    case isFalse hk =>
      rw [List.getElem?_eq_none (not_lt.mp hk), List.getElem?_replicate]
      split <;> rfl

end

/-! ## A listing -/

theorem storeRows_getD {rows : List (BitVec 32 × List Cache)} {caches caches' : Caches}
    (h : storeRows rows caches = .done caches') (k : ℕ) :
    caches'.getD k none = (listedRow rows k).or (caches.getD k none) := by
  induction rows generalizing caches with
  | nil =>
    cases h
    rfl
  | cons r rows ih =>
    obtain ⟨caches₁, hr, h⟩ := Access.bind_eq_done.mp h
    rw [ih h, storeRow_getD hr, listedRow, listedRow, List.reverse_cons, List.find?_append]
    cases rows.reverse.find? fun r => r.1.toNat = k with
    | some r' => rfl
    | none =>
      by_cases hk : r.1.toNat = k
      · simp [hk]
      · simp [hk]

/-- The rows are stored in the table, or the process ends, where the listing is as `GrowsFrom` asks. -/
theorem storeRows_inBounds (rows : List (BitVec 32 × List Cache)) {caches : Caches}
    (h : Sized caches.length) :
    storeRows rows caches ≠ .outOfBounds ↔
      GrowsFrom (reach caches.length) (rows.map fun r => r.1.toNat) := by
  induction rows generalizing caches with
  | nil => exact iff_of_true (by simp [storeRows]) (growsFrom_nil _)
  | cons r rows ih =>
    have hstep := storeRow_sized h r
    rw [storeRows, List.map_cons]
    by_cases hreach : r.1.toNat < reach caches.length
    · by_cases h31 : r.1.toNat < 2 ^ 31
      · obtain ⟨hsized, hgrow⟩ := reach_grow h hreach h31
        rw [growsFrom_cons h31, ← hgrow, and_iff_right hreach]
        by_cases hlt : r.1.toNat < caches.length
        · rw [if_pos hlt] at hstep
          rw [if_neg (not_le.mpr hlt)] at hsized ⊢
          rw [hstep, Access.bind, ih (by rwa [List.length_set]), List.length_set]
        · have hne : caches.length ≠ 2 ^ 31 := by omega
          rw [if_neg hlt, if_neg hne, if_pos hreach] at hstep
          rw [if_pos (not_lt.mp hlt)] at hsized ⊢
          have hlen := length_grown (le_reach caches.length)
          rw [hstep, Access.bind, ih (by rwa [List.length_set, hlen]), List.length_set, hlen]
      · have hlast := sized_last h hreach (not_lt.mp h31)
        rw [if_neg (by omega), if_pos hlast] at hstep
        rw [hstep]
        exact iff_of_true (by simp [Access.bind]) (growsFrom_cons_of_le (not_lt.mp h31) hreach _)
    · have hle := le_reach caches.length
      have hne : caches.length ≠ 2 ^ 31 := by
        intro heq
        have hlt := r.1.isLt
        rw [heq, reach, if_neg (by decide)] at hreach
        omega
      rw [if_neg (by omega), if_neg hne, if_neg hreach] at hstep
      rw [hstep]
      refine iff_of_false (by simp [Access.bind]) ?_
      intro hgrows
      rcases hgrows (List.nil_append _).symm (by simp) with h | ⟨p, hp, -⟩
      · exact hreach h
      · exact absurd hp List.not_mem_nil

theorem readCaches_holds {dirs : List CpuDir} (h : GrowsEnough dirs) :
    (readCaches (some dirs) []).Holds fun r => ∀ caches ∈ r, TableOf dirs caches := by
  have hne := (storeRows_inBounds (dirs.filterMap CpuDir.row) (Or.inl List.length_nil)).mpr h
  rw [readCaches]
  cases hrows : storeRows (dirs.filterMap CpuDir.row) [] with
  | abort => trivial
  | outOfBounds => exact absurd hrows hne
  | done caches =>
    rintro _ ⟨⟩ k
    rw [storeRows_getD hrows, List.getD_nil, Option.or_none]

theorem growsEnough_of_readCaches {dirs : List CpuDir} (h : readCaches (some dirs) [] ≠ .outOfBounds) :
    GrowsEnough dirs := by
  refine (storeRows_inBounds (dirs.filterMap CpuDir.row) (Or.inl List.length_nil)).mp ?_
  intro heq
  rw [readCaches, heq] at h
  exact h rfl

/-! ## Requests -/

theorem cacheAt_holds {caches : Caches} {cpu : BitVec 32} (h : ¬ caches.length ≤ cpu.toNat) :
    (cacheAt caches cpu).Holds fun _ => True := by
  rw [cacheAt, List.getElem?_eq_getElem (not_le.mp h)]
  trivial

theorem cpuMissing_holds (caches : Caches) (cpu : BitVec 32) :
    (cpuMissing caches cpu).Holds fun _ => True := by
  unfold cpuMissing
  split
  · trivial
  · exact (cacheAt_holds (by assumption)).bind fun _ _ => trivial

theorem findCache_holds (caches : Caches) (cpu level type : BitVec 32) :
    (findCache caches cpu level type).Holds fun _ => True := by
  unfold findCache
  split
  · trivial
  · exact (cacheAt_holds (by assumption)).bind fun _ _ => trivial

/-- **A cache that is found was read from an `indexN` directory of the listing.** -/
theorem findCache_index {dirs : List CpuDir} {caches : Caches} {cpu level type : BitVec 32} {c : Cache}
    (hdirs : ∀ d ∈ dirs, ∀ row ∈ d.cache, ∃ nlink index, readRow nlink index = some row)
    (htable : TableOf dirs caches) (h : findCache caches cpu level type = .done (some c)) :
    c.level = level ∧ c.type = type ∧ ∃ dir, readIndex dir = some c := by
  unfold findCache at h
  split at h
  · cases h
  obtain ⟨entry, hentry, h⟩ := Access.bind_eq_done.mp h
  simp only [Access.done.injEq] at h
  have hc : c ∈ entry.getD [] := List.mem_of_find?_eq_some h
  have hfound : c.level = level ∧ c.type = type := by simpa using List.find?_some h
  refine ⟨hfound.1, hfound.2, ?_⟩
  have hget : caches[cpu.toNat]? = some entry := by
    unfold cacheAt at hentry
    split at hentry
    case h_1 row hrow =>
      cases hentry
      exact hrow
    case h_2 => cases hentry
  have hrow := htable cpu.toNat
  rw [List.getD_eq_getElem?_getD, hget, Option.getD_some] at hrow
  cases entry with
  | none => exact absurd hc List.not_mem_nil
  | some row =>
    obtain ⟨r, hr, rfl⟩ := Option.map_eq_some_iff.mp hrow.symm
    obtain ⟨d, hd, hdr⟩ := List.mem_filterMap.mp (List.mem_reverse.mp (List.mem_of_find?_eq_some hr))
    have hcache : d.cache = some r.2 := by
      unfold CpuDir.row at hdr
      split at hdr
      · obtain ⟨_, _, hmap⟩ := Option.bind_eq_some_iff.mp hdr
        obtain ⟨row, hcache, rfl⟩ := Option.map_eq_some_iff.mp hmap
        exact hcache
      · cases hdr
    obtain ⟨nlink, index, hread⟩ := hdirs d hd r.2 hcache
    obtain ⟨i, -, hi⟩ := (Paging.mem_of_mapM hread c).mp hc
    exact ⟨index i, hi⟩

section
variable {L : Set (List CpuDir)}

theorem readCaches_tableIn (hL : ∀ dirs ∈ L, GrowsEnough dirs) {cpus : Option (List CpuDir)}
    (hcpus : ∀ dirs ∈ cpus.toList, dirs ∈ L) :
    (readCaches cpus []).Holds fun r => ∀ caches ∈ r, TableIn L caches := by
  cases cpus with
  | none =>
    rintro _ ⟨⟩
  | some dirs =>
    have hdirs : dirs ∈ L := hcpus dirs (by simp)
    have h := readCaches_holds (hL dirs hdirs)
    cases hread : readCaches (some dirs) [] with
    | abort => trivial
    | outOfBounds =>
      rw [hread] at h
      exact h
    | done r =>
      rw [hread] at h
      intro caches hcaches
      exact Or.inr ⟨dirs, hdirs, h caches hcaches⟩

theorem cacheToCpus_holds (hL : ∀ dirs ∈ L, GrowsEnough dirs) {q : CacheRequest}
    (hq : (CacheCall.cacheToCpus q).Lists L) {caches : Caches} (h : TableIn L caches) :
    (cacheToCpus q caches).Holds fun r => TableIn L r.1 := by
  have hfirst : ∀ dirs ∈ q.first.toList, dirs ∈ L := fun dirs hd => hq dirs (List.mem_append_left _ hd)
  have hagain : ∀ dirs ∈ q.again.toList, dirs ∈ L := fun dirs hd => hq dirs (List.mem_append_right _ hd)
  have hload : (if caches = [] then readCaches q.first [] else .done (some caches)).Holds fun r =>
      ∀ caches ∈ r, TableIn L caches := by
    split
    · exact readCaches_tableIn hL hfirst
    · rintro _ ⟨⟩
      exact h
  refine hload.bind fun r hr => ?_
  cases r with
  | none => exact Or.inl rfl
  | some caches₁ =>
    dsimp only
    split
    · exact Or.inl rfl
    · refine (cpuMissing_holds caches₁ q.cpu).bind fun missing _ => ?_
      have hagain' : (if missing then readCaches q.again [] else .done (some caches₁)).Holds fun r =>
          ∀ caches ∈ r, TableIn L caches := by
        split
        · exact readCaches_tableIn hL hagain
        · exact hr
      refine hagain'.bind fun r hr => ?_
      cases r with
      | none => exact Or.inl rfl
      | some caches₂ =>
        refine (findCache_holds caches₂ q.cpu q.level q.type).bind fun c _ => ?_
        exact hr caches₂ rfl

theorem cacheCall_step_holds (hL : ∀ dirs ∈ L, GrowsEnough dirs) {call : CacheCall} (hcall : call.Lists L)
    {caches : Caches} (h : TableIn L caches) : (call.step caches).Holds (TableIn L) := by
  cases call with
  | cacheToCpus q => exact (cacheToCpus_holds hL hcall h).bind fun r hr => hr
  | release => exact Or.inl rfl

theorem cacheRun_holds (hL : ∀ dirs ∈ L, GrowsEnough dirs) {calls : List CacheCall}
    (hcalls : ∀ call ∈ calls, call.Lists L) {caches : Caches} (h : TableIn L caches) :
    (cacheRun calls caches).Holds (TableIn L) := by
  induction calls generalizing caches with
  | nil => exact h
  | cons call calls ih =>
    rw [List.forall_mem_cons] at hcalls
    exact (cacheCall_step_holds hL hcalls.1 h).bind fun caches' h' => ih hcalls.2 h'

/-- **No run leaves the table where each listing names the CPUs in an order in which one doubling is
enough, and only there.** -/
theorem cachesSafe_iff (L : Set (List CpuDir)) : CachesSafe L ↔ ∀ dirs ∈ L, GrowsEnough dirs := by
  constructor
  · intro h dirs hdirs
    apply growsEnough_of_readCaches
    intro hread
    have hrun := h [.cacheToCpus ⟨0, 0, 0, some dirs, none⟩] (by simpa [CacheCall.Lists] using hdirs)
    rw [cacheRun, CacheCall.step, cacheToCpus, if_pos rfl, hread] at hrun
    exact hrun
  · intro h calls hcalls
    exact cacheRun_holds h hcalls (Or.inl rfl)

/-- CPU 16 is listed before any other. -/
theorem cachesSafe_highFirst :
    ¬ ∀ L : Set (List CpuDir), CachesSafe L := by
  intro h
  have hrun := h {[⟨"cpu16".toList, some []⟩]}
    [.cacheToCpus ⟨16, 1, 1, some [⟨"cpu16".toList, some []⟩], none⟩] (by simp [CacheCall.Lists])
  exact hrun

end

end Fms
