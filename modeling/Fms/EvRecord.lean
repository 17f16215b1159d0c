import Fms.Case
import Fms.Lib.Overlay
import Fms.Lib.Run

/-!
# The fault database

lib/libcase/ev_record.c stores every ereport in a table of its kind of device. The three `INSERT`
statements are prepared once and bound again for each event. `sqlite3_reset` keeps the values that
are bound to a statement, and a parameter that was never bound is `NULL`.

* `rasStoreEvent`, with `rasStoreCpuEvent`, `rasStoreMemEvent` and `rasStoreDiskEvent`: the handlers,
  which differ in their statement only, and `rasEventsHandle`, which chooses one;
* `bindEvent_bound`: what a handler binds is a use of the parameters in the sense of `Overlay`;
* **`rowsIndependent_iff`**: a row is what the event alone makes it exactly as long as no event that is
  neither a serd nor a fault is stored in a table after one that is.
-/

namespace Fms

open CString Overlay Run

/-! ## SQLite -/

/-- A value that is bound to a parameter. -/
inductive SqlValue where
  | null
  | int (n : BitVec 32)
  | text (s : CStr)
  deriving DecidableEq, Repr

/-- `struct db_table_descriptor`, with the names of the fields. -/
structure DbTable where
  name : CStr
  fields : List CStr

/-- `sqlite3_stmt` for an `INSERT`: its table, and the values of its parameters from 1 on. -/
structure Stmt where
  table : DbTable
  bound : ℕ → SqlValue := fun _ => .null

/-- `ras_prepare_stmt`: the first column is `NULL`, and each other column a parameter. -/
def rasPrepareStmt (dbTab : DbTable) : Stmt := { table := dbTab }

/-- `sqlite3_bind_text`, `sqlite3_bind_int` -/
def sqlite3Bind (stmt : Stmt) (i : ℕ) (v : SqlValue) : Stmt :=
  { stmt with bound := Function.update stmt.bound i v }

/-- `sqlite3_step`: the values of the row that is inserted. -/
def sqlite3Step (stmt : Stmt) : List SqlValue :=
  .null :: (List.range (stmt.table.fields.length - 1)).map fun i => stmt.bound (i + 1)

/-- `sqlite3_reset` keeps the values of the parameters. -/
def sqlite3Reset (stmt : Stmt) : Stmt := stmt

/-! ## The tables -/

/-- `dev_event_fields` -/
def devEventFields : List CStr :=
  ["id".toList, "timestamp".toList, "err_msg".toList, "err_type".toList, "dev_id".toList,
    "evt_id".toList, "detail".toList, "evt_level".toList]

/-- `cpu_event_tab` -/
def cpuEventTab : DbTable := ⟨"cpu_event".toList, devEventFields⟩

/-- `mem_event_tab` -/
def memEventTab : DbTable := ⟨"mem_event".toList, devEventFields⟩

/-- `disk_event_tab` -/
def diskEventTab : DbTable := ⟨"disk_event".toList, devEventFields⟩

/-- The handlers of `g_store_handler`. -/
inductive StoreHandler where
  | cpu
  | mem
  | disk
  deriving DecidableEq, Repr

/-- The table of a handler. -/
def StoreHandler.tab : StoreHandler → DbTable
  | .cpu => cpuEventTab
  | .mem => memEventTab
  | .disk => diskEventTab

/-- `struct sqlite3_priv`: `stmt_cpu_event`, `stmt_mem_event` and `stmt_disk_event`, and the rows of
the database. -/
structure Sqlite3Priv where
  stmt : StoreHandler → Option Stmt
  db : List (CStr × List SqlValue) := []

/-- `ras_event_opendb`; not every statement needs to be prepared successfully. -/
def rasEventOpendb (prepared : StoreHandler → Bool) : Sqlite3Priv where
  stmt h := if prepared h then some (rasPrepareStmt h.tab) else none

/-! ## The handlers -/

/-- The codes of `event_type`. -/
def EventType.code : EventType → ℕ
  | .zero => 0
  | .report => 0x0200
  | .serd => 0x0201
  | .fault => 0x0202
  | .list => 0x0203

/-- What is outside the process: the time zone, and the text a payload holds. -/
structure RecordEnv where
  time2string : ℤ → CStr
  detail : ℕ → CStr

/-- The binding of the parameters by a handler. -/
def bindEvent (env : RecordEnv) (event : FmdEvent) (stmt : Stmt) : Stmt :=
  let stmt := sqlite3Bind stmt 1 (.text (env.time2string event.evCreate))
  let stmt := sqlite3Bind stmt 2 (.text event.evClass)
  let stmt := sqlite3Bind stmt 3 (.int (BitVec.ofNat 32 event.eventType.code))
  let stmt := sqlite3Bind stmt 4 (.int (BitVec.ofInt 32 event.devId))
  let stmt := sqlite3Bind stmt 5 (.int (BitVec.ofInt 32 event.evtId))
  let stmt := sqlite3Bind stmt 6 (event.data.elim .null fun data => .text (env.detail data))
  if event.eventType = .serd then sqlite3Bind stmt 7 (.text "Minor".toList)
  else if event.eventType = .fault then sqlite3Bind stmt 7 (.text "Major".toList)
  else stmt

/-- The body that the handlers share. -/
def rasStoreEvent (h : StoreHandler) (env : RecordEnv) (event : FmdEvent) (priv : Sqlite3Priv) :
    Sqlite3Priv :=
  match priv.stmt h with
  | none => priv
  | some stmt =>
    let stmt := bindEvent env event stmt
    { stmt := Function.update priv.stmt h (some (sqlite3Reset stmt))
      db := priv.db ++ [(stmt.table.name, sqlite3Step stmt)] }

/-- `ras_store_cpu_event` -/
def rasStoreCpuEvent : RecordEnv → FmdEvent → Sqlite3Priv → Sqlite3Priv := rasStoreEvent .cpu

/-- `ras_store_mem_event` -/
def rasStoreMemEvent : RecordEnv → FmdEvent → Sqlite3Priv → Sqlite3Priv := rasStoreEvent .mem

/-- `ras_store_disk_event` -/
def rasStoreDiskEvent : RecordEnv → FmdEvent → Sqlite3Priv → Sqlite3Priv := rasStoreEvent .disk

/-- `g_store_handler` -/
def gStoreHandler : List (CStr × (RecordEnv → FmdEvent → Sqlite3Priv → Sqlite3Priv)) :=
  [("cpu".toList, rasStoreCpuEvent), ("mem".toList, rasStoreMemEvent),
    ("disk".toList, rasStoreDiskEvent)]

/-- `ras_events_handle` -/
def rasEventsHandle (env : RecordEnv) (event : FmdEvent) (priv : Sqlite3Priv) : Sqlite3Priv :=
  match gStoreHandler.find? fun p => strncmpEq p.1 event.devName p.1.length with
  | some p => p.2 env event priv
  | none => priv

/-! ## What a handler binds -/

/-- `evt_level`, for the events that have one. -/
def FmdEvent.evtLevel (event : FmdEvent) : Option CStr :=
  if event.eventType = .serd then some "Minor".toList
  else if event.eventType = .fault then some "Major".toList
  else none

/-- The parameters that an event sets. -/
def eventSets (env : RecordEnv) (event : FmdEvent) : ℕ → Option SqlValue
  | 1 => some (.text (env.time2string event.evCreate))
  | 2 => some (.text event.evClass)
  | 3 => some (.int (BitVec.ofNat 32 event.eventType.code))
  | 4 => some (.int (BitVec.ofInt 32 event.devId))
  | 5 => some (.int (BitVec.ofInt 32 event.evtId))
  | 6 => some (event.data.elim .null fun data => .text (env.detail data))
  | 7 => event.evtLevel.map .text
  | _ => none

theorem bindEvent_bound (env : RecordEnv) (event : FmdEvent) (stmt : Stmt) (i : ℕ) :
    (bindEvent env event stmt).bound i = (eventSets env event i).getD (stmt.bound i) := by
  unfold bindEvent
  match i with
  | 0 | 1 | 2 | 3 | 4 | 5 | 6 | 7 | n + 8 =>
    simp only
    split_ifs <;>
      simp [sqlite3Bind, eventSets, FmdEvent.evtLevel, Function.update, *]

theorem bindEvent_table (env : RecordEnv) (event : FmdEvent) (stmt : Stmt) :
    (bindEvent env event stmt).table = stmt.table := by
  unfold bindEvent
  simp only
  split_ifs <;> rfl

/-- The statement of a table after some events were stored in it. -/
def stmtAfter (env : RecordEnv) (tab : DbTable) (events : List FmdEvent) : Stmt where
  table := tab
  bound := overlay (eventSets env) (fun _ => .null) events

theorem bindEvent_stmtAfter (env : RecordEnv) (tab : DbTable) (events : List FmdEvent)
    (event : FmdEvent) :
    bindEvent env event (stmtAfter env tab events) = stmtAfter env tab (events ++ [event]) := by
  have hbound : (bindEvent env event (stmtAfter env tab events)).bound =
      (stmtAfter env tab (events ++ [event])).bound := by
    funext i
    rw [bindEvent_bound]
    exact (overlay_concat events event i).symm
  have htable := bindEvent_table env event (stmtAfter env tab events)
  generalize bindEvent env event (stmtAfter env tab events) = stmt at hbound htable
  cases stmt
  cases hbound
  cases htable
  rfl

/-- The rows of two statements of a table of events agree if all seven parameters do. -/
theorem sqlite3Step_eq_iff {s s' : Stmt} (hs : s.table.fields.length = 8)
    (hs' : s'.table.fields.length = 8) : sqlite3Step s = sqlite3Step s' ↔
      ∀ i, 1 ≤ i → i ≤ 7 → s.bound i = s'.bound i := by
  rw [sqlite3Step, sqlite3Step, hs, hs', List.cons.injEq, List.map_inj_left]
  simp only [true_and, List.mem_range]
  constructor
  · intro h i h1 h7
    obtain ⟨j, rfl⟩ := Nat.exists_eq_add_of_le' h1
    exact h j (by omega)
  · exact fun h i hi => h (i + 1) (by omega) (by omega)

/-- A parameter that some event leaves is never set to `NULL`. -/
theorem eventSets_ne_null {env : RecordEnv} {event : FmdEvent} {i : ℕ}
    (h : eventSets env event i = none) (e : FmdEvent) : eventSets env e i ≠ some .null := by
  match i with
  | 7 =>
    change e.evtLevel.map SqlValue.text ≠ some .null
    cases e.evtLevel <;> nofun
  | 0 | n + 8 => nofun

/-- **The row of an event is what the event alone makes it** exactly if it has a level itself, or no
event stored in the table before had one. -/
theorem row_fresh_iff (env : RecordEnv) (h : StoreHandler) (events : List FmdEvent)
    (event : FmdEvent) :
    sqlite3Step (stmtAfter env h.tab (events ++ [event])) =
        sqlite3Step (stmtAfter env h.tab [event]) ↔
      (event.evtLevel = none → ∀ e ∈ events, e.evtLevel = none) := by
  have hunset {i : ℕ} (hi : ¬ (1 ≤ i ∧ i ≤ 7)) (e : FmdEvent) : eventSets env e i = none := by
    match i with
    | 0 | n + 8 => rfl
    | 1 | 2 | 3 | 4 | 5 | 6 | 7 => exact absurd (by decide) hi
  have hbound : (∀ i, 1 ≤ i → i ≤ 7 → (stmtAfter env h.tab (events ++ [event])).bound i =
      (stmtAfter env h.tab [event]).bound i) ↔ overlay (eventSets env) (fun _ => .null)
        (events ++ [event]) = overlay (eventSets env) (fun _ => .null) [event] := by
    refine ⟨fun hall => funext fun i => ?_, fun heq i _ _ => congrFun heq i⟩
    by_cases hi : 1 ≤ i ∧ i ≤ 7
    · exact hall i hi.1 hi.2
    · have hne (e : FmdEvent) : eventSets env e i ≠ some SqlValue.null := by
        rw [hunset hi e]
        nofun
      rw [(overlay_eq_init_iff hne _).mpr fun e _ => hunset hi e,
        (overlay_eq_init_iff hne _).mpr fun e _ => hunset hi e]
  rw [sqlite3Step_eq_iff (by cases h <;> rfl) (by cases h <;> rfl), hbound,
    overlay_fresh_iff events fun i hi e => eventSets_ne_null hi e]
  constructor
  · intro hall hnone e he
    have h7 := hall 7 (Option.map_eq_none_iff.mpr hnone) e he
    exact Option.map_eq_none_iff.mp h7
  · intro hall i hi e he
    match i with
    | 7 => exact Option.map_eq_none_iff.mpr (hall (Option.map_eq_none_iff.mp hi) e he)
    | 0 | n + 8 => rfl

/-! ## Runs -/

/-- A call of a handler. -/
def storeStep (env : RecordEnv) (act : StoreHandler × FmdEvent) (priv : Sqlite3Priv) :
    Option Sqlite3Priv := some (rasStoreEvent act.1 env act.2 priv)

/-- The row that a call inserts. -/
def insertedRow (env : RecordEnv) (act : StoreHandler × FmdEvent) (priv : Sqlite3Priv) :
    Option (List SqlValue) := (priv.stmt act.1).map fun stmt => sqlite3Step (bindEvent env act.2 stmt)

/-- A row is inserted as into a database that was just opened. -/
def RowIndependent (env : RecordEnv) (prepared : StoreHandler → Bool)
    (act : StoreHandler × FmdEvent) (priv _ : Sqlite3Priv) : Prop :=
  insertedRow env act priv = insertedRow env act (rasEventOpendb prepared)

/-- An event without a level is stored where an event with a level was stored before. -/
def StaleLevel (prepared : StoreHandler → Bool) (pre : List (StoreHandler × FmdEvent))
    (act : StoreHandler × FmdEvent) : Prop :=
  prepared act.1 = true ∧ act.2.evtLevel = none ∧
    ∃ e, (act.1, e) ∈ pre ∧ e.evtLevel ≠ none

/-- The events that were stored by a handler. -/
def storedBy (h : StoreHandler) (acts : List (StoreHandler × FmdEvent)) : List FmdEvent :=
  acts.filterMap fun act => if act.1 = h then some act.2 else none

theorem mem_storedBy {h : StoreHandler} {acts : List (StoreHandler × FmdEvent)} {e : FmdEvent} :
    e ∈ storedBy h acts ↔ (h, e) ∈ acts := by
  simp only [storedBy, List.mem_filterMap, Option.ite_none_right_eq_some, Option.some.injEq]
  constructor
  · rintro ⟨⟨h', e'⟩, hm, rfl, rfl⟩
    exact hm
  · exact fun hm => ⟨(h, e), hm, rfl, rfl⟩

/-- The statements after some calls. -/
def StmtsAfter (env : RecordEnv) (prepared : StoreHandler → Bool)
    (acts : List (StoreHandler × FmdEvent)) (priv : Sqlite3Priv) : Prop :=
  ∀ h, priv.stmt h = if prepared h then some (stmtAfter env h.tab (storedBy h acts)) else none

theorem stmtsAfter_open (env : RecordEnv) (prepared : StoreHandler → Bool) :
    StmtsAfter env prepared [] (rasEventOpendb prepared) := fun _ => rfl

theorem stmtsAfter_store {env : RecordEnv} {prepared : StoreHandler → Bool}
    {acts : List (StoreHandler × FmdEvent)} {priv : Sqlite3Priv} (hs : StmtsAfter env prepared acts priv)
    (act : StoreHandler × FmdEvent) :
    StmtsAfter env prepared (acts ++ [act]) (rasStoreEvent act.1 env act.2 priv) := by
  obtain ⟨h, e⟩ := act
  have hsame : storedBy h (acts ++ [(h, e)]) = storedBy h acts ++ [e] := by
    simp [storedBy]
  have hother {h' : StoreHandler} (hne : h ≠ h') :
      storedBy h' (acts ++ [(h, e)]) = storedBy h' acts := by
    simp [storedBy, hne]
  intro h'
  simp only [rasStoreEvent, hs h]
  by_cases hp : prepared h = true
  · simp only [if_pos hp, sqlite3Reset, bindEvent_stmtAfter]
    by_cases heq : h = h'
    · subst heq
      rw [Function.update_self, if_pos hp, hsame]
    · rw [Function.update_of_ne (Ne.symm heq), hs h', hother heq]
  · simp only [if_neg hp]
    rw [hs h']
    by_cases heq : h = h'
    · subst heq
      rw [if_neg hp, if_neg hp]
    · rw [hother heq]

/-- **Rows are independent of the history** exactly if no event without a level is stored where an event
with a level was stored before. -/
theorem rowsIndependent_iff (env : RecordEnv) (prepared : StoreHandler → Bool)
    (acts : List (StoreHandler × FmdEvent)) :
    EveryStep (storeStep env) (RowIndependent env prepared) acts (rasEventOpendb prepared) ↔
      ∀ pre act, pre ++ [act] <+: acts → ¬ StaleLevel prepared pre act := by
  have hrun : ∀ pre, ∃ priv, exec (storeStep env) pre (rasEventOpendb prepared) = some priv ∧
      StmtsAfter env prepared pre priv := by
    intro pre
    induction pre using List.reverseRecOn with
    | nil => exact ⟨_, rfl, stmtsAfter_open env prepared⟩
    | append_singleton pre act ih =>
      obtain ⟨priv, he, hs⟩ := ih
      exact ⟨_, (exec_concat _ he).trans rfl, stmtsAfter_store hs act⟩
  have hrow {pre : List (StoreHandler × FmdEvent)} {act : StoreHandler × FmdEvent}
      {priv : Sqlite3Priv} (hs : StmtsAfter env prepared pre priv) (priv' : Sqlite3Priv) :
      RowIndependent env prepared act priv priv' ↔ ¬ StaleLevel prepared pre act := by
    obtain ⟨h, e⟩ := act
    have hopen := stmtsAfter_open env prepared h
    unfold RowIndependent insertedRow StaleLevel
    simp only [hs h, hopen]
    by_cases hp : prepared h = true
    · simp only [if_pos hp, Option.map_some, Option.some.injEq, bindEvent_stmtAfter]
      rw [show storedBy h [] = [] from rfl, List.nil_append, row_fresh_iff]
      simp only [hp, true_and, mem_storedBy]
      push Not
      rfl
    · simp [hp]
  constructor
  · intro hall pre act hp
    obtain ⟨priv, he, hs⟩ := hrun pre
    exact (hrow hs _).mp (hall pre act priv _ hp he rfl)
  · intro hall pre act priv priv' hp he _
    obtain ⟨priv₀, he₀, hs⟩ := hrun pre
    obtain rfl := Option.some.inj (he₀.symm.trans he)
    exact (hrow hs _).mpr (hall pre act hp)

/-- A processor reports a fault and then something harmless, which is stored as major too. -/
theorem rowsIndependent_fails : ¬ ∀ (env : RecordEnv) (prepared : StoreHandler → Bool)
    (acts : List (StoreHandler × FmdEvent)),
    EveryStep (storeStep env) (RowIndependent env prepared) acts (rasEventOpendb prepared) := by
  intro h
  let env : RecordEnv := ⟨fun _ => [], fun _ => []⟩
  let fault : FmdEvent :=
    { addr := 0, devName := "cpu".toList, devId := 0, evtId := 2,
      evClass := "ereport.cpu.cache_uc".toList, eventType := .fault }
  let report : FmdEvent :=
    { addr := 1, devName := "cpu".toList, devId := 0, evtId := 3,
      evClass := "ereport.cpu.unclassified_ce".toList, eventType := .report }
  have hrow := h env (fun _ => true) [(.cpu, fault), (.cpu, report)] [(.cpu, fault)] (.cpu, report)
    _ _ List.prefix_rfl rfl rfl
  exact absurd hrow (by unfold RowIndependent; decide)

end Fms
