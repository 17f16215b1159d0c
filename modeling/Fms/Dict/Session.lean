import Fms.Dict.Open
import Fms.Lib.Budget

/-!
# Sessions with a database

* `DbOp`, `dbStep`: the calls on an open database; `DbOp.apply`: the same on a map;
* `Carries`: an open database as a map, with room for what is still to come;
* **`dbStep_refines`**: one call on it;
* `DbSession`, `dbHistory`: the file is opened by a writer, and closed or left as it is, again and again;
* **`dbHistory_refines`**: the replies of all sessions are those of one map, and readers see that map;
* `dbRun`: a run on one open database, and **`dbRun_carries`**.
-/

namespace Fms

open Bytes Blocks SearchTree

inductive DbOp where
  | put (kbuf : Key) (vbuf : List UInt8)
  | out (kbuf : Key)
  | get (kbuf : Key)
  deriving DecidableEq

/-- What `tchdbput` and `tchdbout` return, and what `tchdbget` returns. -/
inductive DbReply where
  | done (ok : Bool)
  | found (vbuf : Option (List UInt8))
  deriving DecidableEq

/-- A call of a writer; a missing record is no fault of the database. -/
def dbStep (fuel : ℕ) (h : Tchdb) : DbOp → Except HdbFault (Tchdb × DbReply)
  | .put kbuf vbuf =>
    match tchdbPutimpl fuel h kbuf vbuf with
    | .ok h => .ok (h, .done true)
    | .error e => .error e
  | .out kbuf =>
    match tchdbOut fuel h kbuf with
    | .ok h => .ok (h, .done true)
    | .error .tcenorec => .ok (h, .done false)
    | .error e => .error e
  | .get kbuf =>
    match tchdbGet fuel h kbuf with
    | .ok vbuf => .ok (h, .found (some vbuf))
    | .error .tcenorec => .ok (h, .found none)
    | .error e => .error e

abbrev KeyMap := Key → Option (List UInt8)

def DbOp.apply (m : KeyMap) : DbOp → KeyMap × DbReply
  | put kbuf vbuf => (Function.update m kbuf (some vbuf), .done true)
  | out kbuf => (Function.update m kbuf none, .done (m kbuf).isSome)
  | get kbuf => (m, .found (m kbuf))

/-- By how much a call may make the file larger. -/
def DbOp.cost (g : HdbLayout) : DbOp → ℕ
  | put kbuf vbuf => hdbMaxHsiz + kbuf.length + vbuf.length + g.align
  | out _ => 0
  | get _ => 0

/-- An open database of the layout `g` that has the map `m` and room for `n` bytes more. -/
def Carries (g : HdbLayout) (n : ℕ) (h : Tchdb) (m : KeyMap) : Prop :=
  h.toHdbLayout = g ∧ h.flags % 2 = 1 ∧ MetaSound h ∧ h.fsiz + n ≤ 2 ^ 31 ∧ ∃ trees, Wf h trees ∧ contents g trees = m

theorem MetaSound.congr {h h' : Tchdb} (hs : MetaSound h) (hlayout : h'.toHdbLayout = h.toHdbLayout) (hflags : h'.flags = h.flags) :
    MetaSound h' := by
  refine ⟨?_, ?_, ?_⟩
  · rw [hlayout]
    exact hs.type
  · rw [hlayout]
    exact hs.opts
  · rw [hflags]
    exact hs.flags

/-- More steps than any database has records. -/
def maxSteps : ℕ := 2 ^ 31 + 2

theorem dbStep_refines {g : HdbLayout} {fuel : ℕ} (hfuel : maxSteps ≤ fuel) (a : DbOp) (n : ℕ) (h : Tchdb) (m : KeyMap)
    (hc : Carries g (a.cost g + n) h m) : ∃ h', dbStep fuel h a = .ok (h', (a.apply m).2) ∧ Carries g n h' (a.apply m).1 := by
  obtain ⟨rfl, hopen, hsound, hroom, trees, hw, rfl⟩ := hc
  have hrnum := hw.rnum_le
  rw [maxSteps] at hfuel
  cases a with
  | put kbuf vbuf =>
    rw [DbOp.cost] at hroom
    obtain ⟨h', trees', heq, hst⟩ := tchdbPutimpl_spec hw
      (show Room h kbuf vbuf by rw [Room]; omega) (show h.rnum + 2 ≤ fuel by omega)
    refine ⟨h', by rw [dbStep, heq]; rfl, hst.layout, ?_, hsound.congr hst.layout hst.flags, ?_, trees', hst.wf, ?_⟩
    · rw [hst.flags]
      exact hopen
    · have := hst.fsiz
      omega
    · funext k
      rw [hst.contents]
      exact (Function.update_apply _ _ _ _).symm
  | out kbuf =>
    rw [DbOp.cost, Nat.zero_add] at hroom
    have hout := tchdbOut_spec hw kbuf (show h.rnum < fuel by omega)
    cases hm : contents h.toHdbLayout trees kbuf with
    | none =>
      rw [hm] at hout
      refine ⟨h, ?_, rfl, hopen, hsound, hroom, trees, hw, ?_⟩
      · show (match tchdbOut fuel h kbuf with | .ok h => _ | .error .tcenorec => _ | .error e => _) = _
        rw [hout, DbOp.apply, hm]
        rfl
      · rw [DbOp.apply, ← hm, Function.update_eq_self]
    | some vbuf =>
      rw [hm] at hout
      obtain ⟨h', trees', heq, hr⟩ := hout
      refine ⟨h', ?_, hr.layout, ?_, hsound.congr hr.layout hr.flags, ?_, trees', hr.wf, ?_⟩
      · rw [dbStep, heq, DbOp.apply, hm]
        rfl
      · rw [hr.flags]
        exact hopen
      · rw [hr.fsiz]
        exact hroom
      · funext k
        rw [hr.contents]
        exact (Function.update_apply _ _ _ _).symm
  | get kbuf =>
    rw [DbOp.cost, Nat.zero_add] at hroom
    refine ⟨h, ?_, rfl, hopen, hsound, hroom, trees, hw, rfl⟩
    have hget := tchdbGet_spec hw kbuf (show h.rnum < fuel by omega)
    rw [dbStep, hget, DbOp.apply]
    cases contents h.toHdbLayout trees kbuf with
    | none => rfl
    | some vbuf => rfl

/-! ## Sessions -/

/-- What a writer does between opening a file and closing it, or ending without closing it. -/
structure DbSession where
  nolck : Bool
  ops : List DbOp
  closed : Bool

def dbSession (fuel : ℕ) (g : Tchdb) (file : List UInt8) (s : DbSession) : Except HdbFault (List UInt8 × List DbReply) := do
  let h ← tchdbOpen g ⟨true, false, s.nolck⟩ file
  let r ← Budget.run (dbStep fuel) h s.ops
  .ok ((if s.closed then tchdbClose r.1 true else r.1).file, r.2)

/-- One session after the other, from a file that is not there yet. -/
def dbHistory (fuel : ℕ) (g : Tchdb) (ss : List DbSession) : Except HdbFault (List UInt8 × List (List DbReply)) :=
  Budget.run (dbSession fuel g) [] ss

/-- A reader that looks up a key. -/
def dbRead (fuel : ℕ) (g : Tchdb) (nolck : Bool) (file : List UInt8) (kbuf : Key) : Except HdbFault (Option (List UInt8)) := do
  let h ← tchdbOpen g ⟨false, false, nolck⟩ file
  match tchdbGet fuel h kbuf with
  | .ok vbuf => .ok (some vbuf)
  | .error .tcenorec => .ok none
  | .error e => .error e

def DbSession.apply (m : KeyMap) (s : DbSession) : KeyMap × List DbReply := Budget.spec DbOp.apply m s.ops

def DbSession.cost (g : HdbLayout) (s : DbSession) : ℕ := Budget.total (DbOp.cost g) s.ops

/-- A file that can be opened as a database with the map `m`, and has room for `n` bytes more. -/
def Lies (g : HdbLayout) (n : ℕ) (file : List UInt8) (m : KeyMap) : Prop :=
  ∃ h trees, Disk h trees ∧ h.file = file ∧ h.toHdbLayout = g ∧ h.fsiz + n ≤ 2 ^ 31 ∧ contents g trees = m

theorem dbSession_refines {g : Tchdb} {fuel : ℕ} (hfuel : maxSteps ≤ fuel) {l : HdbLayout} (s : DbSession) (n : ℕ)
    (file : List UInt8) (m : KeyMap) (hl : Lies l (s.cost l + n) file m) :
    ∃ file', dbSession fuel g file s = .ok (file', (s.apply m).2) ∧ Lies l n file' (s.apply m).1 := by
  obtain ⟨h, trees, hd, rfl, rfl, hroom, rfl⟩ := hl
  obtain ⟨h₁, hopen, hop⟩ := tchdbOpen_disk hd g ⟨true, false, s.nolck⟩ rfl
  have hc : Carries h.toHdbLayout (s.cost h.toHdbLayout + n) h₁ (contents h.toHdbLayout trees) :=
    ⟨hop.layout, hop.flag rfl, hop.disk.sound, by rw [hop.fsiz]; exact hroom, trees, hop.disk.wf, rfl⟩
  obtain ⟨h₂, hrun, hlayout, hflag, hsound, hroom₂, trees₂, hw₂, hm⟩ :=
    Budget.run_refines (dbStep_refines hfuel) s.ops n h₁ (contents h.toHdbLayout trees) hc
  have hsession : dbSession fuel g h.file s = .ok ((if s.closed then tchdbClose h₂ true else h₂).file, 
      (s.apply (contents h.toHdbLayout trees)).2) := by
    rw [dbSession, hopen]
    show (Budget.run (dbStep fuel) h₁ s.ops >>= _) = _
    rw [hrun]
    rfl
  refine ⟨_, hsession, ?_⟩
  cases s.closed with
  | true =>
    obtain ⟨hdisk, hl, hf⟩ := tchdbClose_disk hw₂ hsound
    exact ⟨tchdbClose h₂ true, trees₂, hdisk, rfl, hl.trans hlayout, by rw [hf]; exact hroom₂, hm⟩
  | false => exact ⟨h₂, trees₂, ⟨hw₂, hsound, Or.inl hflag⟩, rfl, hlayout, hroom₂, hm⟩

theorem dbRead_lies {g : Tchdb} {fuel : ℕ} (hfuel : maxSteps ≤ fuel) {l : HdbLayout} {n : ℕ} {file : List UInt8} {m : KeyMap}
    (hl : Lies l n file m) (nolck : Bool) (kbuf : Key) : dbRead fuel g nolck file kbuf = .ok (m kbuf) := by
  obtain ⟨h, trees, hd, rfl, rfl, -, rfl⟩ := hl
  obtain ⟨h₁, hopen, hop⟩ := tchdbOpen_disk hd g ⟨false, false, nolck⟩ rfl
  have hw := hop.disk.wf
  have hrnum := hw.rnum_le
  rw [maxSteps] at hfuel
  have hget := tchdbGet_spec hw kbuf (show h₁.rnum < fuel by omega)
  rw [hop.layout] at hget
  rw [dbRead, hopen]
  show (match tchdbGet fuel h₁ kbuf with | .ok vbuf => _ | .error .tcenorec => _ | .error e => _) = _
  rw [hget]
  cases contents h.toHdbLayout trees kbuf with
  | none => rfl
  | some vbuf => rfl

/-- The sessions of a file that is not there yet are those of a file that is made first. -/
theorem dbHistory_eq (fuel : ℕ) (g : Tchdb) (s : DbSession) (ss : List DbSession) :
    dbHistory fuel g (s :: ss) = Budget.run (dbSession fuel g) (createFile g).file (s :: ss) := by
  have hfirst : dbSession fuel g [] s = dbSession fuel g (createFile g).file s := by
    rw [dbSession, dbSession, tchdbOpen_create g ⟨true, false, s.nolck⟩ [] rfl (Or.inr rfl)]
  rw [dbHistory, Budget.run, Budget.run, hfirst]

theorem created_lies {g : Tchdb} (hg : Creatable g) {n : ℕ} (hroom : (createFile g).fsiz + n ≤ 2 ^ 31) :
    Lies (createFile g).toHdbLayout n (createFile g).file fun _ => none :=
  ⟨created g, fun _ => .nil, created_disk hg, rfl, rfl, hroom, funext fun _ => rfl⟩

theorem dbHistory_lies {g : Tchdb} (hg : Creatable g) {fuel : ℕ} (hfuel : maxSteps ≤ fuel) (s : DbSession)
    (ss : List DbSession)
    (hroom : (createFile g).fsiz + Budget.total (DbSession.cost (createFile g).toHdbLayout) (s :: ss) ≤ 2 ^ 31) :
    ∃ file, dbHistory fuel g (s :: ss) = .ok (file, (Budget.spec DbSession.apply (fun _ => none) (s :: ss)).2) ∧
      Lies (createFile g).toHdbLayout 0 file (Budget.spec DbSession.apply (fun _ => none) (s :: ss)).1 := by
  obtain ⟨file, hrun, hlies⟩ := Budget.run_refines (dbSession_refines hfuel) (s :: ss) 0 _ _ (created_lies hg hroom)
  exact ⟨file, (dbHistory_eq fuel g s ss).trans hrun, hlies⟩

theorem dbHistory_refines {g : Tchdb} (hg : Creatable g) {fuel : ℕ} (hfuel : maxSteps ≤ fuel) (s : DbSession)
    (ss : List DbSession)
    (hroom : (createFile g).fsiz + Budget.total (DbSession.cost (createFile g).toHdbLayout) (s :: ss) ≤ 2 ^ 31) :
    ∃ file, dbHistory fuel g (s :: ss) = .ok (file, (Budget.spec DbSession.apply (fun _ => none) (s :: ss)).2) ∧
      ∀ nolck kbuf, dbRead fuel g nolck file kbuf =
        .ok ((Budget.spec DbSession.apply (fun _ => none) (s :: ss)).1 kbuf) := by
  obtain ⟨file, hrun, hlies⟩ := dbHistory_lies hg hfuel s ss hroom
  exact ⟨file, hrun, fun nolck kbuf => dbRead_lies hfuel hlies nolck kbuf⟩

/-- A session that stores, looks up and deletes a record, and one that stores another. -/
theorem dbHistory_refines_two :
    ∃ file, dbHistory maxSteps tchdbNew [⟨false, [.put [97] [98], .get [97], .out [97], .out [97]], true⟩,
        ⟨true, [.get [97], .put [99] []], false⟩] =
        .ok (file, [[.done true, .found (some [98]), .done true, .done false], [.found none, .done true]]) ∧
      ∀ nolck kbuf, dbRead maxSteps tchdbNew nolck file kbuf =
        .ok ((Budget.spec DbSession.apply (fun _ => none) [⟨false, [.put [97] [98], .get [97], .out [97], .out [97]], true⟩,
          ⟨true, [.get [97], .put [99] []], false⟩]).1 kbuf) :=
  dbHistory_refines creatable_tchdbNew le_rfl _ _ (by decide)

/-! ## A run on one open database -/

/-- Opened for the first time, or from the start again, and then used. -/
def dbRun (fuel : ℕ) (g : Tchdb) (nolck : Bool) (file : List UInt8) (ops : List DbOp) :
    Except HdbFault (Tchdb × List DbReply) := do
  let h ← tchdbOpen g ⟨true, true, nolck⟩ file
  Budget.run (dbStep fuel) h ops

theorem dbRun_carries {g : Tchdb} (hg : Creatable g) {fuel : ℕ} (hfuel : maxSteps ≤ fuel) (nolck : Bool) (file : List UInt8)
    (ops : List DbOp) (hroom : (createFile g).fsiz + Budget.total (DbOp.cost (createFile g).toHdbLayout) ops ≤ 2 ^ 31) :
    ∃ h, dbRun fuel g nolck file ops = .ok (h, (Budget.spec DbOp.apply (fun _ => none) ops).2) ∧
      Carries (createFile g).toHdbLayout 0 h (Budget.spec DbOp.apply (fun _ => none) ops).1 := by
  obtain ⟨h, hopen, hop⟩ := tchdbOpen_new hg ⟨true, true, nolck⟩ file rfl (Or.inl rfl)
  have hc : Carries (createFile g).toHdbLayout (Budget.total (DbOp.cost (createFile g).toHdbLayout) ops + 0) h fun _ => none :=
    ⟨hop.layout, hop.flag rfl, hop.disk.sound, by rw [hop.fsiz]; exact hroom, fun _ => .nil, hop.disk.wf, rfl⟩
  obtain ⟨h', hrun, hc'⟩ := Budget.run_refines (dbStep_refines hfuel) ops 0 h _ hc
  refine ⟨h', ?_, hc'⟩
  rw [dbRun, hopen]
  exact hrun

end Fms
