import Fms.Mce.DmiRanges

/-!
# The walk through the SMBIOS table

src/evt_modules/evtsrc/cpumem/dmi.c: `fill_handles` enters every structure of the table at its
handle, and `collect_dmi_dimms` collects those of four types. What is read behind the table, or
entered behind the handles, has no value.

* `DmiTable.reached`: the places the walk comes to, from the entries and their strings alone;
* **`DmiTable.walk_inside_iff`**: when the whole walk stays inside;
* `fillHandles_at`: a handle that is entered leads to an entry with that handle.
-/

namespace Fms

open Smbios

def dmiMemoryArray : Byte := 16

def dmiMemoryArrayAddr : Byte := 19

/-- `handle_to_entry[handle] = e` -/
def HandleTable.set (handles : HandleTable) (handle : BitVec 16) (e : DmiEntry) : Option HandleTable :=
  if h : handle.toNat < 0xffff then some (Function.update handles ⟨handle.toNat, h⟩ (some e)) else none

/-- `fill_handles`, from the entry `e` on. -/
def fillHandles (loglevel : WrLoglevel) : ℕ → DmiEntry → HandleTable → Option HandleTable
  | 0, _, handles => some handles
  | i + 1, e, handles =>
    (checkEntry loglevel e).bind fun
      | none => some handles
      | some next =>
        (wordIn e 2).bind fun handle => (handles.set handle e).bind (fillHandles loglevel i next)

/-- The types and sizes of `collect_dmi_dimms`: up to `dev_handle`, `device_locator`, `location` and
`array_handle`. -/
def dmiCollects : List (Byte × ℕ) :=
  [(dmiMemoryMappedAddr, 14), (dmiMemoryDevice, 17), (dmiMemoryArray, 5), (dmiMemoryArrayAddr, 14)]

/-! ## The places the walk comes to -/

/-- What is behind the strings of an entry, when they end inside the table. -/
def DmiEntry.behind (e : DmiEntry) : Option DmiEntry :=
  e[1]?.bind fun length => skipStrings (e.drop length.toNat)

/-- The entry and what follows it, `numentries` at most. -/
def reachedFrom : ℕ → DmiEntry → List DmiEntry
  | 0, _ => []
  | i + 1, e => e :: (DmiEntry.behind e).elim [] (reachedFrom i)

/-- The length is inside the table. When the strings end there too, the handle is inside and one of the
table of handles; the message about a truncated entry has the handle in it. -/
structure DmiEntry.Sound (loglevel : WrLoglevel) (e : DmiEntry) : Prop where
  length : 2 ≤ e.length
  handle : (DmiEntry.behind e).isSome ∨ loglevel = .debug → 4 ≤ e.length
  entered : (DmiEntry.behind e).isSome → wordIn e 2 ≠ some 0xffff

namespace DmiTable

variable (loglevel : WrLoglevel) (t : DmiTable)

def handles : Option HandleTable := fillHandles loglevel t.numentries t.entries fun _ => none

def reached : List DmiEntry := reachedFrom t.numentries t.entries

/-- `fill_handles` and each `dmi_collect` stay inside the table and the handles. -/
def WalkInside : Prop :=
  (t.handles loglevel).isSome ∧ ∀ c ∈ dmiCollects, (dmiCollect loglevel c.1 c.2 t.numentries t.entries).isSome

end DmiTable

/-! ## One entry -/

section
variable {loglevel : WrLoglevel} {e next : DmiEntry}

theorem checkEntry_of_behind (h : DmiEntry.behind e = some next) : checkEntry loglevel e = some (some next) := by
  obtain ⟨length, hlength, hskip⟩ := Option.bind_eq_some_iff.mp h
  rw [checkEntry, hlength, Option.bind_some, hskip]

theorem behind_of_checkEntry (h : checkEntry loglevel e = some (some next)) : DmiEntry.behind e = some next := by
  obtain ⟨length, hlength, hskip⟩ := checkEntry_eq_some h
  rw [DmiEntry.behind, hlength, Option.bind_some, hskip]

/-- What a truncated entry is read for. -/
theorem checkEntry_truncated (h : DmiEntry.behind e = none) :
    checkEntry loglevel e =
      if 2 ≤ e.length ∧ (loglevel = .debug → 4 ≤ e.length) then some none else none := by
  by_cases htwo : 2 ≤ e.length
  · obtain ⟨length, hlength⟩ := exists_byteIn (show 1 < e.length by omega)
    rw [DmiEntry.behind, hlength, Option.bind_some] at h
    rw [checkEntry, hlength, Option.bind_some, h]
    dsimp only
    by_cases hlevel : loglevel = .debug
    · rw [wrLog, if_pos (WrLoglevel.debug_le.mpr hlevel)]
      by_cases hfour : 4 ≤ e.length
      · obtain ⟨handle, hhandle⟩ := exists_wordIn (show 2 + 1 < e.length by omega)
        rw [hhandle, if_pos ⟨htwo, fun _ => hfour⟩]
        rfl
      · rw [wordIn_of_length_le (show e.length ≤ 2 + 1 by omega), if_neg fun h => hfour (h.2 hlevel)]
        rfl
    · rw [wrLog, if_neg (mt WrLoglevel.debug_le.mp hlevel), if_pos ⟨htwo, fun h => absurd h hlevel⟩]
      rfl
  · rw [checkEntry, List.getElem?_eq_none (by omega), if_neg fun h => htwo h.1]
    rfl

theorem HandleTable.set_isSome (handles : HandleTable) (handle : BitVec 16) (e : DmiEntry) :
    (handles.set handle e).isSome ↔ handle ≠ 0xffff := by
  have hlt := handle.isLt
  unfold HandleTable.set
  rw [ne_eq, ← BitVec.toNat_inj, show (0xffff : BitVec 16).toNat = 0xffff from rfl]
  split
  · simp only [Option.isSome_some, true_iff]
    omega
  · simp only [Option.isSome_none, Bool.false_eq_true, false_iff]
    omega

theorem dmiWanted_isSome {c : Byte × ℕ} (hc : c ∈ dmiCollects) (h : 4 ≤ e.length)
    (hnext : DmiEntry.behind e = some next) : (dmiWanted loglevel c.1 c.2 e).isSome := by
  obtain ⟨length, hlength, hskip⟩ := Option.bind_eq_some_iff.mp hnext
  have hlen := skipStrings_length hskip
  rw [List.length_drop] at hlen
  obtain ⟨type, htype⟩ := exists_byteIn (show 0 < e.length by omega)
  obtain ⟨handle, hhandle⟩ := exists_wordIn (show 2 + 1 < e.length by omega)
  have hsize : ∀ c ∈ dmiCollects, c.1 = dmiMemoryDevice → 14 ≤ c.2 := by decide
  rw [dmiWanted, htype, Option.bind_some, hlength, Option.bind_some, hhandle, wrLog_some]
  split_ifs with h1 h2 h3
  · rfl
  · rfl
  · have := hsize c hc h3
    obtain ⟨size, hsize⟩ := exists_wordIn (show 12 + 1 < e.length by omega)
    rw [hsize, Option.bind_some]
    split <;> rfl
  · rfl

end

/-! ## The walk -/

theorem fillHandles_isSome (loglevel : WrLoglevel) (i : ℕ) (e : DmiEntry) (handles : HandleTable) :
    (fillHandles loglevel i e handles).isSome ↔ ∀ d ∈ reachedFrom i e, DmiEntry.Sound loglevel d := by
  induction i generalizing e handles with
  | zero => simp [fillHandles, reachedFrom]
  | succ i ih =>
    rw [fillHandles, reachedFrom, List.forall_mem_cons]
    cases hnext : DmiEntry.behind e with
    | none =>
      have hsound : DmiEntry.Sound loglevel e ↔ 2 ≤ e.length ∧ (loglevel = .debug → 4 ≤ e.length) := by
        constructor
        · exact fun h => ⟨h.length, fun hlevel => h.handle (.inr hlevel)⟩
        · intro h
          refine ⟨h.1, fun hread => h.2 (hread.resolve_left ?_), fun hbehind => ?_⟩
          · rw [hnext]
            exact Bool.false_ne_true
          · rw [hnext] at hbehind
            cases hbehind
      rw [checkEntry_truncated hnext, hsound]
      split
      case isTrue h => exact iff_of_true rfl ⟨h, fun _ hd => absurd hd List.not_mem_nil⟩
      case isFalse h => exact iff_of_false Bool.false_ne_true fun hall => h hall.1
    | some next =>
      have hbehind : (DmiEntry.behind e).isSome := by
        rw [hnext]
        rfl
      rw [checkEntry_of_behind hnext, Option.bind_some, Option.elim_some]
      dsimp only
      by_cases hlen : 4 ≤ e.length
      · obtain ⟨handle, hhandle⟩ := exists_wordIn (show 2 + 1 < e.length by omega)
        have hsound : DmiEntry.Sound loglevel e ↔ (handles.set handle e).isSome := by
          rw [handles.set_isSome]
          constructor
          · intro h heq
            exact h.entered hbehind (heq ▸ hhandle)
          · intro hne
            refine ⟨by omega, fun _ => hlen, fun _ h => hne ?_⟩
            exact Option.some_inj.mp (hhandle.symm.trans h)
        rw [hhandle, Option.bind_some, hsound]
        cases handles.set handle e with
        | none => exact iff_of_false Bool.false_ne_true fun h => Bool.false_ne_true h.1
        | some handles' => exact (ih next handles').trans (and_iff_right rfl).symm
      · rw [wordIn_of_length_le (show e.length ≤ 2 + 1 by omega)]
        exact iff_of_false Bool.false_ne_true fun h => hlen (h.1.handle (.inl hbehind))

theorem dmiCollect_isSome {loglevel : WrLoglevel} {c : Byte × ℕ} (hc : c ∈ dmiCollects) {i : ℕ}
    {e : DmiEntry} (h : ∀ d ∈ reachedFrom i e, DmiEntry.Sound loglevel d) :
    (dmiCollect loglevel c.1 c.2 i e).isSome := by
  induction i generalizing e with
  | zero => rfl
  | succ i ih =>
    rw [reachedFrom, List.forall_mem_cons] at h
    obtain ⟨hsound, h⟩ := h
    rw [dmiCollect]
    cases hnext : DmiEntry.behind e with
    | none =>
      rw [checkEntry_truncated hnext, if_pos ⟨hsound.length, fun hlevel => hsound.handle (.inr hlevel)⟩]
      rfl
    | some next =>
      have hlen : 4 ≤ e.length := hsound.handle (.inl (by rw [hnext]; rfl))
      rw [hnext, Option.elim_some] at h
      have hsome : (dmiWanted loglevel c.1 c.2 e).isSome := dmiWanted_isSome hc hlen hnext
      obtain ⟨wanted, hwanted⟩ := Option.isSome_iff_exists.mp hsome
      rw [checkEntry_of_behind hnext, Option.bind_some]
      dsimp only
      rw [hwanted, Option.bind_some, Option.isSome_map]
      exact ih h

theorem HandleTable.set_eq_some {handles handles' : HandleTable} {handle : BitVec 16} {e : DmiEntry}
    (h : handles.set handle e = some handles') (k : Fin 0xffff) :
    handles' k = if k.val = handle.toNat then some e else handles k := by
  unfold HandleTable.set at h
  split at h
  · cases h
    simp only [Function.update_apply, Fin.ext_iff]
  · cases h

/-- **A handle leads to an entry of the table that has it.** -/
theorem fillHandles_at {loglevel : WrLoglevel} {i : ℕ} {e d : DmiEntry} {handles handles' : HandleTable} {k : Fin 0xffff}
    (h : fillHandles loglevel i e handles = some handles') (hd : handles' k = some d) :
    handles k = some d ∨ d ∈ reachedFrom i e ∧ wordIn d 2 = some (BitVec.ofNat 16 k) := by
  induction i generalizing e handles with
  | zero =>
    cases h
    exact Or.inl hd
  | succ i ih =>
    obtain ⟨res, hcheck, h⟩ := Option.bind_eq_some_iff.mp h
    cases res with
    | none =>
      cases h
      exact Or.inl hd
    | some next =>
      obtain ⟨handle, hhandle, h⟩ := Option.bind_eq_some_iff.mp h
      obtain ⟨handles₁, hset, h⟩ := Option.bind_eq_some_iff.mp h
      rw [reachedFrom, behind_of_checkEntry hcheck, Option.elim_some]
      rcases ih h with h | ⟨hmem, hword⟩
      · rw [HandleTable.set_eq_some hset] at h
        by_cases hk : k.val = handle.toNat
        · rw [if_pos hk, Option.some_inj] at h
          refine Or.inr ⟨h ▸ List.mem_cons_self, ?_⟩
          rw [← h, hhandle, hk, BitVec.ofNat_toNat, BitVec.setWidth_eq]
        · rw [if_neg hk] at h
          exact Or.inl h
      · exact Or.inr ⟨List.mem_cons_of_mem e hmem, hword⟩

namespace DmiTable

/-- **The walk stays inside where every entry it comes to has its length inside the table, a complete one
also its handle, which is not 0xffff, and at the debug level all of them their handle.** -/
theorem walk_inside_iff (loglevel : WrLoglevel) (t : DmiTable) :
    t.WalkInside loglevel ↔ ∀ d ∈ t.reached, DmiEntry.Sound loglevel d := by
  constructor
  · intro h
    exact (fillHandles_isSome _ _ _ _).mp h.1
  · intro h
    exact ⟨(fillHandles_isSome _ _ _ _).mpr h, fun c hc => dmiCollect_isSome hc h⟩

/-- One structure that is cut behind its length is read inside the table, but not for the message. -/
example : (⟨[127, 4, 0], 1⟩ : DmiTable).WalkInside .normal ∧
    ¬ (⟨[127, 4, 0], 1⟩ : DmiTable).WalkInside .debug := by
  constructor
  · exact ⟨by decide, by decide⟩
  · exact fun h => absurd h.1 (by decide)

/-- One structure with the handle that SMBIOS keeps for the end of a list. -/
theorem walk_outside : ¬ (⟨[127, 4, 0xff, 0xff, 0, 0], 1⟩ : DmiTable).WalkInside .normal := by
  rintro ⟨h, -⟩
  exact absurd h (by decide)

end DmiTable

end Fms
