import Fms.Lib.Run
import Fms.Lib.TextFile

/-!
# When the sources probe

The loop of src/fms/main.c goes over the timers once in a second and signals the thread of a source
when its interval is over; the thread (evt_modules/evtlib/evt_src.c) waits for the signal, probes, and
waits again. Nobody remembers a signal for a thread that does not wait.

* `srcModuleConf`: the interval in a configuration file;
* `SrcTimer.visit`, `SrcTimer.run`: the loop at one timer, and the thread of its source;
* `TimerLoop`, `timerStep`: both, and modules that are loaded, in any order;
* `timerTrace`: what is seen of a source along a run, and `lost`: the signals that its thread missed;
* **`timers_run`**: how often a source has probed, from the passes of the loop since it was loaded.
-/

namespace Fms

open CString TextFile Run

/-! ## One source -/

/-- `src_module_conf`: the value of the first string that starts with `interval`; `none` is a file that
cannot be opened or has no such string. -/
def srcModuleConf (file : Option CStr) : Option ℤ :=
  file.bind fun s =>
    ((fgetsAll 64 s).find? fun buf => strncmpEq (content buf) "interval ".toList 9).map fun buf => atoiWrap ((content buf).drop 9)

/-- The thread waits on the condition, has got the signal, or does something else. -/
inductive SrcThread where
  | busy
  | waiting
  | woken
  deriving DecidableEq, Repr

/-- `fmd_timer_t` and the thread of its source. -/
structure SrcTimer where
  addr : ℕ
  interval : BitVec 32
  ticks : BitVec 32 := 0
  thread : SrcThread := .busy
  deriving DecidableEq, Repr

/-- `fmd_timer_fire` -/
def SrcTimer.fire (t : SrcTimer) : SrcTimer :=
  match t.thread with
  | .waiting => { t with thread := .woken }
  | _ => t

/-- What the loop of `main` does with a timer. -/
def SrcTimer.visit (t : SrcTimer) : SrcTimer :=
  let t := { t with ticks := t.ticks + 1 }
  if t.ticks = t.interval then { t.fire with ticks := 0 } else t

/-- The thread waits on the condition, or returns from it, with or without a signal, and probes. -/
inductive ThreadAct where
  | wait
  | resume
  | spurious
  deriving DecidableEq, Repr

/-- `evtsrc_start`: the next step of the thread. -/
def SrcTimer.run (t : SrcTimer) (act : ThreadAct) : Option SrcTimer :=
  match act, t.thread with
  | .wait, .busy => some { t with thread := .waiting }
  | .resume, .woken => some { t with thread := .busy }
  | .spurious, .waiting => some { t with thread := .busy }
  | _, _ => none

/-! ## The loop -/

/-- The list of timers, and those that the pass has still to visit. -/
structure TimerLoop where
  timers : List SrcTimer := []
  todo : List ℕ := []
  next : ℕ := 0
  deriving DecidableEq, Repr

inductive TimerAct where
  | load (conf : Option CStr)
  | pass
  | visit
  | thread (addr : ℕ) (act : ThreadAct)

/-- The timer at `addr` after `f`. -/
def TimerLoop.change (s : TimerLoop) (addr : ℕ) (f : SrcTimer → SrcTimer) : TimerLoop :=
  { s with timers := s.timers.map fun t => if t.addr = addr then f t else t }

/-- A step of the loop, of a thread, or of `evtsrc_init`, which puts a timer in front of the list. -/
def timerStep : TimerAct → TimerLoop → Option TimerLoop
  | .load conf, s =>
    match srcModuleConf conf with
    | none => some s
    | some interval =>
      some { s with
        timers := { addr := s.next, interval := BitVec.ofInt 32 interval } :: s.timers
        next := s.next + 1 }
  | .pass, s => if s.todo = [] then some { s with todo := s.timers.map SrcTimer.addr } else none
  | .visit, s =>
    match s.todo with
    | [] => none
    | addr :: todo => some ({ s with todo := todo }.change addr SrcTimer.visit)
  | .thread addr act, s =>
    if s.timers.any fun t => t.addr == addr && (t.run act).isSome then
      some (s.change addr fun t => (t.run act).getD t)
    else none

/-! ## What is seen of a source -/

/-- A pass begins while the timer is on the list; the loop comes to the timer, and its thread waits or not;
the thread probes, after a signal or without one. -/
inductive TimerEvt where
  | passed
  | visited (waits : Bool)
  | probed (signalled : Bool)
  deriving DecidableEq, Repr

def ThreadAct.evts : ThreadAct → List TimerEvt
  | .wait => []
  | .resume => [.probed true]
  | .spurious => [.probed false]

/-- What a step shows of the timer at `addr`. -/
def timerEvts (addr : ℕ) : TimerAct → TimerLoop → List TimerEvt
  | .load _, _ => []
  | .pass, s => if addr ∈ s.timers.map SrcTimer.addr then [.passed] else []
  | .visit, s =>
    if s.todo.head? = some addr then
      [.visited (s.timers.any fun t => t.addr == addr && t.thread == .waiting)]
    else []
  | .thread addr' act, _ => if addr' = addr then act.evts else []

/-- What a run shows of the timer at `addr`. -/
def timerTrace (addr : ℕ) (as : List TimerAct) : List TimerEvt := trace timerStep (timerEvts addr) as {}

def TimerEvt.visit? : TimerEvt → Option Bool
  | .visited waits => some waits
  | _ => none

/-- For each visit of the loop, whether the thread waited. -/
def visits (evts : List TimerEvt) : List Bool := evts.filterMap TimerEvt.visit?

/-- The visits that end a period and find the thread not waiting. -/
def lost (period : ℕ) (vs : List Bool) : ℕ :=
  vs.zipIdx.countP fun v => decide ((v.2 + 1) % period = 0) && !v.1

/-- The visits from one signal to the next; an interval of 0 is met when `ticks` overflows. -/
def SrcTimer.period (t : SrcTimer) : ℕ := if t.interval = 0 then 2 ^ 32 else t.interval.toNat

theorem visits_append (evts evts' : List TimerEvt) : visits (evts ++ evts') = visits evts ++ visits evts' :=
  List.filterMap_append

theorem lost_concat (period : ℕ) (vs : List Bool) (waits : Bool) :
    lost period (vs ++ [waits]) =
      lost period vs + if (vs.length + 1) % period = 0 ∧ waits = false then 1 else 0 := by
  unfold lost
  rw [List.zipIdx_append, List.countP_append]
  cases waits <;> simp [List.zipIdx]

theorem ThreadAct.evts_quiet (act : ThreadAct) : visits act.evts = [] ∧ act.evts.count .passed = 0 := by
  cases act <;> exact ⟨rfl, rfl⟩

/-- A timer and what has been seen of it. -/
structure SrcTimer.Counts (t : SrcTimer) (evts : List TimerEvt) : Prop where
  ticks : t.ticks.toNat = (visits evts).length % t.period
  probes : evts.count (.probed true) + lost t.period (visits evts) + (if t.thread = .woken then 1 else 0) =
    (visits evts).length / t.period

namespace SrcTimer
variable {t t' : SrcTimer} {evts : List TimerEvt}

theorem period_pos (t : SrcTimer) : 0 < t.period := by
  rw [period]
  split_ifs with hz
  · norm_num
  · exact Nat.pos_of_ne_zero fun h => hz (BitVec.eq_of_toNat_eq h)

theorem period_le (t : SrcTimer) : t.period ≤ 2 ^ 32 := by
  rw [period]
  split_ifs
  · exact le_rfl
  · exact t.interval.isLt.le

/-- The interval is over at the last visit of a period. -/
theorem ticks_eq_interval (hlt : t.ticks.toNat < t.period) : t.ticks + 1 = t.interval ↔ t.ticks.toNat + 1 = t.period := by
  have hle := t.period_le
  have hsum : (t.ticks + 1).toNat = (t.ticks.toNat + 1) % 2 ^ 32 := BitVec.toNat_add _ _
  rw [← BitVec.toNat_inj, hsum]
  rw [period] at hlt hle ⊢
  split_ifs at hlt hle ⊢ with hz
  · rw [hz]
    show _ = 0 ↔ _
    omega
  · have hint := t.interval.isLt
    rw [Nat.mod_eq_of_lt (by omega)]

theorem counts_load (addr : ℕ) (interval : BitVec 32) : Counts { addr := addr, interval := interval } [] := by
  refine ⟨(Nat.zero_mod _).symm, ?_⟩
  show 0 = 0 / _
  rw [Nat.zero_div]

/-- The signal reaches a thread that waits, and no other one. -/
theorem visit_eq (t : SrcTimer) : t.visit =
    if t.ticks + 1 = t.interval then
      { t with ticks := 0, thread := if t.thread = .waiting then .woken else t.thread }
    else { t with ticks := t.ticks + 1 } := by
  obtain ⟨addr, interval, ticks, thread⟩ := t
  rw [SrcTimer.visit]
  dsimp only
  split_ifs <;> cases thread <;> first | rfl | contradiction

theorem Counts.visit (h : t.Counts evts) : t.visit.Counts (evts ++ [TimerEvt.visited (t.thread == .waiting)]) := by
  obtain ⟨hticks, hprobes⟩ := h
  have hpos := t.period_pos
  have hlt : t.ticks.toNat < t.period := hticks ▸ Nat.mod_lt _ hpos
  have hdiv := Nat.div_add_mod (visits evts).length t.period
  rw [← hticks] at hdiv
  have hvisits : visits (evts ++ [TimerEvt.visited (t.thread == .waiting)]) = visits evts ++ [t.thread == .waiting] :=
    visits_append _ _
  have hcount : (evts ++ [TimerEvt.visited (t.thread == .waiting)]).count (.probed true) =
      evts.count (.probed true) := by
    rw [List.count_append]
    rfl
  rw [visit_eq]
  by_cases hover : t.ticks + 1 = t.interval
  · -- the last visit of a period
    rw [if_pos hover]
    have hend := (ticks_eq_interval hlt).mp hover
    have hnext : (visits evts).length + 1 = t.period * ((visits evts).length / t.period + 1) := by
      rw [Nat.mul_add, Nat.mul_one]
      omega
    have hmod : ((visits evts).length + 1) % t.period = 0 := by
      rw [hnext, Nat.mul_mod_right]
    constructor
    · rw [hvisits, List.length_append, List.length_singleton]
      exact hmod.symm
    · rw [hvisits, hcount, List.length_append, List.length_singleton]
      change _ + lost t.period _ + _ = _ / t.period
      rw [lost_concat, hnext, Nat.mul_div_cancel_left _ hpos, ← hnext, ← hprobes]
      cases hth : t.thread <;> simp [hmod] <;> omega
  · rw [if_neg hover]
    have hmore : t.ticks.toNat + 1 < t.period := lt_of_le_of_ne hlt fun h => hover ((ticks_eq_interval hlt).mpr h)
    have hsum : (t.ticks + 1).toNat = t.ticks.toNat + 1 := by
      show (t.ticks.toNat + 1) % 2 ^ 32 = _
      exact Nat.mod_eq_of_lt (hmore.trans_le t.period_le)
    have hnext : (visits evts).length + 1 = t.ticks.toNat + 1 + t.period * ((visits evts).length / t.period) := by
      omega
    have hmod : ((visits evts).length + 1) % t.period = t.ticks.toNat + 1 := by
      rw [hnext, Nat.add_mul_mod_self_left, Nat.mod_eq_of_lt hmore]
    constructor
    · rw [hvisits, List.length_append, List.length_singleton]
      exact hsum.trans hmod.symm
    · rw [hvisits, hcount, List.length_append, List.length_singleton]
      change _ + lost t.period _ + _ = _ / t.period
      rw [lost_concat, if_neg fun h => absurd (hmod.symm.trans h.1) (Nat.succ_ne_zero _), Nat.add_zero, hnext,
        Nat.add_mul_div_left _ _ hpos, Nat.div_eq_of_lt hmore, Nat.zero_add]
      exact hprobes

theorem Counts.run {act : ThreadAct} (h : t.Counts evts) (hrun : t.run act = some t') :
    t'.Counts (evts ++ act.evts) ∧ t'.addr = t.addr := by
  obtain ⟨hticks, hprobes⟩ := h
  have hvisits : visits (evts ++ act.evts) = visits evts := by
    rw [visits_append, act.evts_quiet.1, List.append_nil]
  obtain ⟨addr, interval, ticks, thread⟩ := t
  cases act <;> cases thread <;> cases hrun
  case wait.busy =>
    refine ⟨⟨hvisits ▸ hticks, ?_⟩, rfl⟩
    rw [hvisits, List.count_append]
    exact hprobes
  case resume.woken =>
    refine ⟨⟨hvisits ▸ hticks, ?_⟩, rfl⟩
    rw [hvisits, List.count_append]
    exact (Nat.add_right_comm _ 1 _).trans hprobes
  case spurious.waiting =>
    refine ⟨⟨hvisits ▸ hticks, ?_⟩, rfl⟩
    rw [hvisits, List.count_append]
    exact hprobes

end SrcTimer

/-! ## Runs -/

/-- The invariant, with the run so far: a pass visits each timer that was there when it began. -/
structure TimersOk (pre : List TimerAct) (s : TimerLoop) : Prop where
  counts : ∀ t ∈ s.timers, t.Counts (timerTrace t.addr pre)
  passes : ∀ t ∈ s.timers, (visits (timerTrace t.addr pre)).length + (if t.addr ∈ s.todo then 1 else 0) =
    (timerTrace t.addr pre).count .passed
  silent : ∀ addr, addr ∉ s.timers.map SrcTimer.addr → timerTrace addr pre = []
  addrs : (s.timers.map SrcTimer.addr).Nodup
  todo : s.todo.Nodup
  fresh : ∀ addr ∈ s.timers.map SrcTimer.addr, addr < s.next
  known : ∀ addr ∈ s.todo, addr ∈ s.timers.map SrcTimer.addr

theorem timerTrace_concat {pre : List TimerAct} {act : TimerAct} {s s' : TimerLoop} (he : exec timerStep pre {} = some s)
    (hst : timerStep act s = some s') (addr : ℕ) :
    timerTrace addr (pre ++ [act]) = timerTrace addr pre ++ timerEvts addr act s := by
  rw [timerTrace, trace_append _ he, trace, hst, Option.elim_some, trace, List.append_nil]
  rfl

theorem map_addr_change {s : TimerLoop} {addr : ℕ} {f : SrcTimer → SrcTimer}
    (hf : ∀ t ∈ s.timers, (f t).addr = t.addr) :
    (s.change addr f).timers.map SrcTimer.addr = s.timers.map SrcTimer.addr := by
  rw [TimerLoop.change, List.map_map]
  refine List.map_congr_left fun t ht => ?_
  dsimp only [Function.comp_apply]
  split_ifs with ha
  · exact hf t ht
  · rfl

theorem SrcTimer.visit_addr (t : SrcTimer) : t.visit.addr = t.addr := by
  rw [visit_eq]
  by_cases h : t.ticks + 1 = t.interval
  · rw [if_pos h]
  · rw [if_neg h]

theorem SrcTimer.run_addr (t : SrcTimer) (act : ThreadAct) : ((t.run act).getD t).addr = t.addr := by
  obtain ⟨addr, interval, ticks, thread⟩ := t
  cases act <;> cases thread <;> rfl

theorem TimersOk.silent_step {pre pre' : List TimerAct} {s : TimerLoop} (h : TimersOk pre s)
    (heq : ∀ addr, timerTrace addr pre' = timerTrace addr pre) : TimersOk pre' s := by
  refine ⟨fun t ht => ?_, fun t ht => ?_, fun addr hno => ?_, h.addrs, h.todo, h.fresh, h.known⟩
  · rw [heq]
    exact h.counts t ht
  · rw [heq]
    exact h.passes t ht
  · rw [heq]
    exact h.silent addr hno

theorem TimersOk.loaded {pre : List TimerAct} {s : TimerLoop} (h : TimersOk pre s) (interval : BitVec 32) :
    TimersOk pre { s with timers := { addr := s.next, interval := interval } :: s.timers, next := s.next + 1 } := by
  have hnew : s.next ∉ s.timers.map SrcTimer.addr := fun hin => lt_irrefl _ (h.fresh _ hin)
  have hnone := h.silent _ hnew
  refine ⟨?_, ?_, fun addr hno => ?_, List.nodup_cons.mpr ⟨hnew, h.addrs⟩, h.todo, fun addr haddr => ?_, ?_⟩
  · refine List.forall_mem_cons.mpr ⟨?_, h.counts⟩
    rw [hnone]
    exact SrcTimer.counts_load _ _
  · refine List.forall_mem_cons.mpr ⟨?_, h.passes⟩
    rw [hnone, if_neg fun hin => hnew (h.known _ hin)]
    rfl
  · exact h.silent addr fun hin => hno (List.mem_cons_of_mem _ hin)
  · rcases List.mem_cons.mp haddr with rfl | haddr
    · exact Nat.lt_succ_self _
    · exact Nat.lt_succ_of_lt (h.fresh addr haddr)
  · exact fun addr haddr => List.mem_cons_of_mem _ (h.known addr haddr)

theorem TimersOk.change {pre pre' : List TimerAct} {s : TimerLoop} (h : TimersOk pre s) {addr : ℕ}
    {f : SrcTimer → SrcTimer} {todo : List ℕ} (haddr : ∀ t, (f t).addr = t.addr)
    (hmem : addr ∈ s.timers.map SrcTimer.addr) (hother : ∀ a, a ≠ addr → timerTrace a pre' = timerTrace a pre)
    (hcounts : ∀ t ∈ s.timers, t.addr = addr → (f t).Counts (timerTrace addr pre'))
    (hpasses : ∀ t ∈ s.timers, t.addr = addr → (visits (timerTrace addr pre')).length + (if addr ∈ todo then 1 else 0) =
      (timerTrace addr pre').count .passed)
    (htodo : ∀ a, a ≠ addr → (a ∈ todo ↔ a ∈ s.todo)) (hsub : ∀ a ∈ todo, a ∈ s.todo) (hnodup : todo.Nodup) :
    TimersOk pre' ({ s with todo := todo }.change addr f) := by
  have haddrs : ({ s with todo := todo }.change addr f).timers.map SrcTimer.addr = s.timers.map SrcTimer.addr :=
    map_addr_change fun t _ => haddr t
  refine ⟨fun t' ht' => ?_, fun t' ht' => ?_, fun a hno => ?_, haddrs ▸ h.addrs, hnodup, haddrs ▸ h.fresh, ?_⟩
  · obtain ⟨t, ht, rfl⟩ := List.mem_map.mp ht'
    by_cases ha : t.addr = addr
    · rw [if_pos ha, haddr, ha]
      exact hcounts t ht ha
    · rw [if_neg ha, hother _ ha]
      exact h.counts t ht
  · obtain ⟨t, ht, rfl⟩ := List.mem_map.mp ht'
    change _ + (if _ ∈ todo then 1 else 0) = _
    by_cases ha : t.addr = addr
    · rw [if_pos ha, haddr, ha]
      exact hpasses t ht ha
    · rw [if_neg ha, hother _ ha, if_congr (htodo _ ha) rfl rfl]
      exact h.passes t ht
  · rw [haddrs] at hno
    rw [hother a fun heq => hno (heq ▸ hmem)]
    exact h.silent a hno
  · rw [haddrs]
    exact fun a ha => h.known a (hsub a ha)

theorem TimersOk.passed {pre pre' : List TimerAct} {s : TimerLoop} (h : TimersOk pre s) (hdone : s.todo = [])
    (hseen : ∀ addr, timerTrace addr pre' =
      timerTrace addr pre ++ if addr ∈ s.timers.map SrcTimer.addr then [.passed] else []) :
    TimersOk pre' { s with todo := s.timers.map SrcTimer.addr } := by
  have hin : ∀ t ∈ s.timers, timerTrace t.addr pre' = timerTrace t.addr pre ++ [.passed] := fun t ht => by
    rw [hseen, if_pos (List.mem_map_of_mem ht)]
  have hvisits : ∀ evts : List TimerEvt, visits (evts ++ [.passed]) = visits evts := fun evts =>
    (visits_append _ _).trans (List.append_nil _)
  refine ⟨fun t ht => ?_, fun t ht => ?_, fun addr hno => ?_, h.addrs, h.addrs, h.fresh, fun a ha => ha⟩
  · obtain ⟨hticks, hprobes⟩ := h.counts t ht
    rw [hin t ht]
    refine ⟨(hvisits _).symm ▸ hticks, ?_⟩
    rw [hvisits, List.count_append]
    exact hprobes
  · have hpasses := h.passes t ht
    rw [hdone, if_neg List.not_mem_nil, Nat.add_zero] at hpasses
    rw [hin t ht, hvisits, if_pos (List.mem_map_of_mem ht), List.count_append, ← hpasses]
    rfl
  · rw [hseen, if_neg hno, h.silent addr hno]
    rfl

theorem any_waiting {s : TimerLoop} (hnodup : (s.timers.map SrcTimer.addr).Nodup) {t : SrcTimer} (ht : t ∈ s.timers) :
    (s.timers.any fun t' => t'.addr == t.addr && t'.thread == .waiting) = (t.thread == .waiting) := by
  rw [Bool.eq_iff_iff, List.any_eq_true]
  constructor
  · rintro ⟨t', ht', h⟩
    obtain ⟨haddr, hth⟩ := Bool.and_eq_true_iff.mp h
    rwa [List.inj_on_of_nodup_map hnodup ht' ht (beq_iff_eq.mp haddr)] at hth
  · intro h
    exact ⟨t, ht, Bool.and_eq_true_iff.mpr ⟨beq_self_eq_true _, h⟩⟩

/-- The loop comes to the next timer of the pass. -/
theorem TimersOk.visited {pre : List TimerAct} {s : TimerLoop} (h : TimersOk pre s) {addr : ℕ} {todo : List ℕ}
    (htodo : s.todo = addr :: todo)
    (hseen : ∀ a, timerTrace a (pre ++ [.visit]) = timerTrace a pre ++ timerEvts a .visit s) :
    TimersOk (pre ++ [.visit]) ({ s with todo := todo }.change addr SrcTimer.visit) := by
  have hnodup := h.todo
  rw [htodo, List.nodup_cons] at hnodup
  have hmem : addr ∈ s.timers.map SrcTimer.addr := h.known addr (htodo ▸ List.mem_cons_self)
  have hthis : ∀ t ∈ s.timers, t.addr = addr → timerTrace addr (pre ++ [.visit]) =
      timerTrace addr pre ++ [TimerEvt.visited (t.thread == .waiting)] := by
    rintro t ht rfl
    rw [hseen, timerEvts, htodo, if_pos (List.head?_cons), any_waiting h.addrs ht]
  refine h.change SrcTimer.visit_addr hmem (fun a ha => ?_) (fun t ht ha => ?_) (fun t ht ha => ?_)
    (fun a ha => ?_) (fun a ha => ?_) hnodup.2
  · rw [hseen, timerEvts, htodo, List.head?_cons, if_neg fun heq => ha (Option.some_inj.mp heq).symm,
      List.append_nil]
  · rw [hthis t ht ha, ← ha]
    exact (h.counts t ht).visit
  · have hpasses := h.passes t ht
    rw [ha, htodo, if_pos List.mem_cons_self] at hpasses
    rw [hthis t ht ha, visits_append, List.length_append, if_neg hnodup.1, List.count_append]
    exact hpasses
  · rw [htodo, List.mem_cons, or_iff_right ha]
  · rw [htodo]
    exact List.mem_cons_of_mem _ ha

/-- The thread of one source goes on. -/
theorem TimersOk.threaded {pre : List TimerAct} {s : TimerLoop} (h : TimersOk pre s) {t t' : SrcTimer}
    (ht : t ∈ s.timers) {act : ThreadAct} (hrun : t.run act = some t')
    (hseen : ∀ a, timerTrace a (pre ++ [.thread t.addr act]) = timerTrace a pre ++ timerEvts a (.thread t.addr act) s) :
    TimersOk (pre ++ [.thread t.addr act]) (s.change t.addr fun u => (u.run act).getD u) := by
  have hthis : timerTrace t.addr (pre ++ [.thread t.addr act]) = timerTrace t.addr pre ++ act.evts := by
    rw [hseen, timerEvts, if_pos rfl]
  refine h.change (fun u => u.run_addr act) (List.mem_map_of_mem ht) (fun a ha => ?_) (fun u hu ha => ?_)
    (fun u hu ha => ?_) (fun a _ => Iff.rfl) (fun a ha => ha) h.todo
  · rw [hseen, timerEvts, if_neg (Ne.symm ha), List.append_nil]
  · obtain rfl := List.inj_on_of_nodup_map h.addrs hu ht ha
    rw [hthis, hrun, Option.getD_some]
    exact ((h.counts u hu).run hrun).1
  · have hpasses := h.passes t ht
    obtain ⟨hquiet, hcount⟩ := act.evts_quiet
    rw [hthis, visits_append, hquiet, List.append_nil, List.count_append, hcount]
    exact hpasses

theorem timersOk_step {pre : List TimerAct} {act : TimerAct} {s s' : TimerLoop} (he : exec timerStep pre {} = some s)
    (h : TimersOk pre s) (hst : timerStep act s = some s') : TimersOk (pre ++ [act]) s' := by
  have hseen := timerTrace_concat he hst
  cases act with
  | load conf =>
    have hnone : ∀ addr, timerTrace addr (pre ++ [.load conf]) = timerTrace addr pre := fun addr =>
      (hseen addr).trans (List.append_nil _)
    rw [timerStep] at hst
    cases hconf : srcModuleConf conf with
    | none =>
      rw [hconf] at hst
      cases hst
      exact h.silent_step hnone
    | some interval =>
      rw [hconf] at hst
      cases hst
      exact (h.loaded _).silent_step hnone
  | pass =>
    rw [timerStep] at hst
    split_ifs at hst with hdone
    cases hst
    exact h.passed hdone hseen
  | visit =>
    rw [timerStep] at hst
    cases htodo : s.todo with
    | nil =>
      rw [htodo] at hst
      cases hst
    | cons addr todo =>
      rw [htodo] at hst
      cases hst
      exact h.visited htodo hseen
  | thread addr act =>
    rw [timerStep] at hst
    split_ifs at hst with hany
    cases hst
    obtain ⟨t, ht, hboth⟩ := List.any_eq_true.mp hany
    obtain ⟨haddr, hrun⟩ := Bool.and_eq_true_iff.mp hboth
    obtain ⟨t', ht'⟩ := Option.isSome_iff_exists.mp hrun
    obtain rfl := beq_iff_eq.mp haddr
    exact h.threaded ht ht' hseen

/-- The loop has come to the timer once in every pass that began since it was loaded, but for the one that is
still to come; and for each period that the visits make, the thread has probed after a signal, has yet to act
on it, or was not waiting for it. -/
structure SrcTimer.OnSchedule (t : SrcTimer) (todo : List ℕ) (evts : List TimerEvt) : Prop where
  visits : (Fms.visits evts).length + (if t.addr ∈ todo then 1 else 0) = evts.count .passed
  probes : evts.count (.probed true) + lost t.period (Fms.visits evts) + (if t.thread = .woken then 1 else 0) =
    (Fms.visits evts).length / t.period

/-- **How often a source has probed**, after each run of the loop, the threads and modules that are loaded. -/
theorem timers_run (as : List TimerAct) {s : TimerLoop} (he : exec timerStep as {} = some s) :
    ∀ t ∈ s.timers, t.OnSchedule s.todo (timerTrace t.addr as) := by
  have h0 : TimersOk [] {} :=
    ⟨fun t ht => absurd ht List.not_mem_nil, fun t ht => absurd ht List.not_mem_nil, fun _ _ => rfl, List.nodup_nil,
      List.nodup_nil, fun t ht => absurd ht List.not_mem_nil, fun a ha => absurd ha List.not_mem_nil⟩
  have h := exec_induction (M := TimersOk) h0 (fun _ _ _ _ _ he h hst => timersOk_step he h hst) as s List.prefix_rfl he
  exact fun t ht => ⟨h.passes t ht, (h.counts t ht).probes⟩

/-- A source that probes every two seconds, and is busy when the second signal comes. -/
def everyTwo : List TimerAct :=
  [.load (some "interval 2\n".toList), .thread 0 .wait, .pass, .visit, .pass, .visit, .thread 0 .resume,
    .pass, .visit, .pass, .visit]

theorem timers_run_everyTwo :
    timerTrace 0 everyTwo = [.passed, .visited true, .passed, .visited true, .probed true, .passed, .visited false,
      .passed, .visited false] ∧
      ∃ s, exec timerStep everyTwo {} = some s ∧ s.timers.length = 1 ∧
        ∀ t ∈ s.timers, t.OnSchedule s.todo (timerTrace t.addr everyTwo) :=
  ⟨by decide +kernel, _, rfl, rfl, timers_run everyTwo rfl⟩

end Fms
