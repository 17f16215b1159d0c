import Fms.Lib.Smbios

/-!
# The SMBIOS table of the memory event source

src/evt_modules/evtsrc/cpumem/dmi.c goes through the mapped table entry by entry. A pointer to an
entry is what the table holds from there on, and what is read behind the table has no value: `none`.

* `wrLog`: the arguments of a message are read only when its level is enabled (include/logging.h);
* `checkEntry`: the entry is not truncated, and where the next one begins;
* `dmiCollect`: the entries of a type that are long enough;
* `dmiGetstring`: a string of an entry (src/evt_modules/evtlib/cpumem.c);
* **`mem_dmiCollect`**: what is known of a collected entry.
-/

namespace Fms

open Smbios

/-- `wr_loglevel_t` -/
inductive WrLoglevel where
  | none
  | critical
  | error
  | warning
  | normal
  | debug
  deriving DecidableEq, Repr

instance : LE WrLoglevel := ⟨fun a b => a.ctorIdx ≤ b.ctorIdx⟩

instance (a b : WrLoglevel) : Decidable (a ≤ b) := inferInstanceAs (Decidable (a.ctorIdx ≤ b.ctorIdx))

@[simp] theorem WrLoglevel.debug_le {loglevel : WrLoglevel} : .debug ≤ loglevel ↔ loglevel = .debug := by
  cases loglevel <;> decide

/-- `wr_log`, with what its arguments read. -/
def wrLog {α : Type} (loglevel levl : WrLoglevel) (args : Option α) : Option Unit :=
  if levl ≤ loglevel then args.map fun _ => () else some ()

theorem wrLog_some {α : Type} (loglevel levl : WrLoglevel) (args : α) :
    wrLog loglevel levl (some args) = some () := by
  unfold wrLog
  split <;> rfl

/-- `struct dmi_entry *` -/
abbrev DmiEntry := List Byte

/-- `entries`, up to `dmi_length`, and `numentries`. -/
structure DmiTable where
  entries : DmiEntry
  numentries : ℕ

def dmiMemoryDevice : Byte := 17

def dmiMemoryMappedAddr : Byte := 20

/-- `check_entry`: `some none` is the return of 0. The search for the pair of NULs leaves `s` inside
the table, so `next` is not `NULL`. -/
def checkEntry (loglevel : WrLoglevel) (e : DmiEntry) : Option (Option DmiEntry) :=
  e[1]?.bind fun length =>
    match skipStrings (e.drop length.toNat) with
    | some next => some (some next)
    -- "handle %x length %d truncated"
    | none => (wrLog loglevel .debug (wordIn e 2)).map fun _ => none

/-- What `dmi_collect` asks of an entry. -/
def dmiWanted (loglevel : WrLoglevel) (type : Byte) (minsize : ℕ) (e : DmiEntry) : Option Bool :=
  e[0]?.bind fun t =>
    if t ≠ type then some false
    else
      e[1]?.bind fun length =>
        -- "hnd %x size %d expected %d"
        if length.toNat < minsize then (wrLog loglevel .debug (wordIn e 2)).map fun _ => false
        else if type = dmiMemoryDevice then
          (wordIn e 12).bind fun size =>
            -- "entry %x disabled"
            if size = 0 then (wrLog loglevel .debug (wordIn e 2)).map fun _ => false else some true
        else some true

/-- `dmi_collect`, from the entry `e` on. -/
def dmiCollect (loglevel : WrLoglevel) (type : Byte) (minsize : ℕ) : ℕ → DmiEntry → Option (List DmiEntry)
  | 0, _ => some []
  | i + 1, e =>
    (checkEntry loglevel e).bind fun
      | none => some []
      | some next =>
        (dmiWanted loglevel type minsize e).bind fun wanted =>
          (dmiCollect loglevel type minsize i next).map fun r => if wanted then e :: r else r

/-! ## Strings -/

/-- The string at a pointer, and what is behind its NUL. -/
def stringAt : List Byte → Option (List Byte × List Byte)
  | [] => none
  | c :: s => if c = 0 then some ([], s) else (stringAt s).map fun r => (c :: r.1, r.2)

/-- The loop of `dmi_getstring`, with `number + 1` to go; `some none` is `NULL`. -/
def getstringLoop : ℕ → List Byte → Option (Option (List Byte))
  | 0, s => (stringAt s).map fun r => some r.1
  | number + 1, s =>
    (stringAt s).bind fun r =>
      r.2[0]?.bind fun c => if c = 0 then some none else getstringLoop number r.2

/-- `dmi_getstring` -/
def dmiGetstring (e : DmiEntry) (number : ℕ) : Option (Option (List Byte)) :=
  e[1]?.bind fun length =>
    match number with
    | 0 => some (some [])
    | number + 1 => getstringLoop number (e.drop length.toNat)

/-! ## The entries that are collected -/

section
variable {loglevel : WrLoglevel}

theorem checkEntry_eq_some {e next : DmiEntry} (h : checkEntry loglevel e = some (some next)) :
    ∃ length, e[1]? = some length ∧ skipStrings (e.drop length.toNat) = some next := by
  obtain ⟨length, hlength, h⟩ := Option.bind_eq_some_iff.mp h
  refine ⟨length, hlength, ?_⟩
  cases hskip : skipStrings (e.drop length.toNat) with
  | none =>
    rw [hskip] at h
    obtain ⟨-, -, h⟩ := Option.map_eq_some_iff.mp h
    cases h
  | some rest =>
    rw [hskip] at h
    exact Option.some_inj.mp h

/-- An entry of the loop that is taken has its length inside the table, with two bytes behind it. -/
structure Collected (minsize : ℕ) (e : DmiEntry) (length : Byte) : Prop where
  header : e[1]? = some length
  long : minsize ≤ length.toNat
  inside : length.toNat + 2 ≤ e.length

theorem dmiWanted_long {type : Byte} {minsize : ℕ} {e : DmiEntry} {length : Byte}
    (h : dmiWanted loglevel type minsize e = some true) (hlength : e[1]? = some length) :
    minsize ≤ length.toNat := by
  by_contra hlt
  obtain ⟨t, -, h⟩ := Option.bind_eq_some_iff.mp h
  by_cases ht : t ≠ type
  · rw [if_pos ht] at h
    cases h
  · rw [if_neg ht, hlength, Option.bind_some, if_pos (not_le.mp hlt)] at h
    obtain ⟨-, -, h⟩ := Option.map_eq_some_iff.mp h
    cases h

theorem collected_of_wanted {type : Byte} {minsize : ℕ} {e next : DmiEntry}
    (hcheck : checkEntry loglevel e = some (some next)) (hwanted : dmiWanted loglevel type minsize e = some true) :
    ∃ length, Collected minsize e length := by
  obtain ⟨length, hlength, hskip⟩ := checkEntry_eq_some hcheck
  have hlen := skipStrings_length hskip
  rw [List.length_drop] at hlen
  exact ⟨length, hlength, dmiWanted_long hwanted hlength, by omega⟩

/-- **A collected entry has the bytes of `minsize`.** -/
theorem mem_dmiCollect {type : Byte} {minsize i : ℕ} {e d : DmiEntry} {r : List DmiEntry}
    (h : dmiCollect loglevel type minsize i e = some r) (hd : d ∈ r) : ∃ length, Collected minsize d length := by
  induction i generalizing e r with
  | zero =>
    cases h
    exact absurd hd List.not_mem_nil
  | succ i ih =>
    obtain ⟨res, hcheck, h⟩ := Option.bind_eq_some_iff.mp h
    cases res with
    | none =>
      cases h
      exact absurd hd List.not_mem_nil
    | some next =>
      obtain ⟨wanted, hwanted, h⟩ := Option.bind_eq_some_iff.mp h
      obtain ⟨r', hr', rfl⟩ := Option.map_eq_some_iff.mp h
      cases wanted with
      | false => exact ih hr' hd
      | true =>
        rcases List.mem_cons.mp hd with rfl | hd
        · exact collected_of_wanted hcheck hwanted
        · exact ih hr' hd

end

end Fms
