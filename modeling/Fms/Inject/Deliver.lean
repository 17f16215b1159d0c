import Fms.Inject.Parse
import Fms.Lib.Run
import Fms.Sources

/-!
# From the injection tool to the events of the daemon

`fm_inject` puts its messages on the queue `/fmd` and waits while that is full; `inject_probe` takes one
message each time it is called, and `evt_handle` makes an ereport of it. Tool and daemon run side by side.

* `injectStep`: a step of the tool or of the source;
* **`inject_delivers`**: of the messages that the queue takes nothing is lost, doubled or put in another order, and
  the source fails on a class that its record has no room for.
-/

namespace Fms

open CString Run

/-- The messages that are still to be sent, the queue, and the events that have become ereports. -/
structure Injection where
  unsent : List CStr
  queue : List CStr := []
  events : List Nvlist := []

inductive InjectAct where
  | send
  | probe

/-- The step function, for a queue of at most `maxmsg` messages of at most `msgsize` bytes. A message that is too
long is gone; with one that is not, the sender waits for room. -/
def injectStep (maxmsg msgsize : ℕ) : InjectAct → Injection → Option Injection
  | .send, s =>
    match s.unsent with
    | [] => none
    | m :: unsent =>
      if Sendable msgsize m then
        if s.queue.length < maxmsg then some { s with unsent := unsent, queue := s.queue ++ [m] } else none
      else some { s with unsent := unsent }
  | .probe, s =>
    (injectProbe s.queue.head?).map fun head =>
      { s with queue := s.queue.tail, events := s.events ++ evtHandle head }

/-- The event that a message becomes. -/
def eventOf (m : CStr) : Nvlist := ⟨injectDiskname, 0, m, injectEvtId m, true⟩

/-- Each message that the queue takes has become an event or is on its way, in the order of the script. -/
structure Delivers (msgsize : ℕ) (msgs : List CStr) (s : Injection) : Prop where
  order : s.events ++ (s.queue ++ s.unsent.filter (Sendable msgsize)).map eventOf =
    (msgs.filter (Sendable msgsize)).map eventOf
  ne_nil : ∀ m ∈ s.queue ++ s.unsent, m ≠ []

theorem injectProbe_some {m : CStr} {head : List Nvlist} (h : injectProbe (some m) = some head) : head = [eventOf m] := by
  obtain ⟨value, hstore, rfl⟩ := Option.map_eq_some_iff.mp h
  obtain ⟨-, rfl⟩ := store_eq_some.mp hstore
  rfl

theorem injectProbe_eq_none {m : CStr} : injectProbe (some m) = none ↔ 128 ≤ m.length := by
  rw [injectProbe, Option.map_eq_none_iff, store, ite_eq_right_iff, ← not_lt]
  simp only [reduceCtorEq, imp_false]

theorem delivers_step {maxmsg msgsize : ℕ} {msgs : List CStr} (act : InjectAct) (s s' : Injection)
    (h : Delivers msgsize msgs s) (hst : injectStep maxmsg msgsize act s = some s') : Delivers msgsize msgs s' := by
  obtain ⟨unsent, queue, events⟩ := s
  obtain ⟨horder, hne⟩ := h
  dsimp only at horder hne
  cases act with
  | send =>
    cases unsent with
    | nil => cases hst
    | cons m unsent =>
      simp only [injectStep] at hst
      split_ifs at hst with hm hroom
      · obtain rfl := Option.some.inj hst
        rw [List.filter_cons_of_pos (by simpa using hm), ← List.singleton_append, ← List.append_assoc] at horder
        rw [← List.singleton_append, ← List.append_assoc] at hne
        exact ⟨horder, hne⟩
      · obtain rfl := Option.some.inj hst
        rw [List.filter_cons_of_neg (by simpa using hm)] at horder
        refine ⟨horder, fun m' hm' => hne m' ?_⟩
        rw [List.mem_append] at hm' ⊢
        exact hm'.imp_right (List.mem_cons_of_mem m)
  | probe =>
    obtain ⟨head, hprobe, rfl⟩ := Option.map_eq_some_iff.mp hst
    cases queue with
    | nil =>
      cases hprobe
      rw [evtHandle, List.filter_nil, List.append_nil]
      exact ⟨horder, hne⟩
    | cons m queue =>
      obtain rfl := injectProbe_some hprobe
      have hm : (eventOf m).value ≠ [] := hne m List.mem_cons_self
      have hevent : evtHandle [eventOf m] = [eventOf m] :=
        List.filter_eq_self.mpr fun nvl hnvl => List.mem_singleton.mp hnvl ▸ decide_eq_true hm
      rw [hevent]
      refine ⟨?_, fun m' hm' => hne m' (List.mem_cons_of_mem m hm')⟩
      rw [List.append_assoc]
      exact horder

/-! ## The messages of a script -/

theorem Scans.ne_nil {atBol : Bool} {s : CStr} {ts : List (ScanRule × CStr)} (h : Scans atBol s ts) :
    ∀ p ∈ ts, p.2 ≠ [] := by
  induction h with
  | nil atBol => exact fun p hp => absurd hp List.not_mem_nil
  | cons hp _ ih => exact List.forall_mem_cons.mpr ⟨hp.ne_nil, ih⟩

theorem token_eclass {p : ScanRule × CStr} {c : CStr} (h : ScanRule.token p = some (.eclass c)) : p.2 = c := by
  obtain ⟨i, w⟩ := p
  cases i with
  | evtclass =>
    cases h
    rfl
  | _ => cases h

theorem fminject_ne_nil {yyin : CStr} {msgs : List CStr} (h : fminject yyin = some msgs) : ∀ m ∈ msgs, m ≠ [] := by
  obtain ⟨cut, hcut⟩ := exists_scans true yyin
  rw [fminject_eq hcut] at h
  obtain rfl := Option.some.inj h
  intro m hm
  obtain ⟨s, hs, hrep⟩ := List.mem_flatMap.mp hm
  obtain rfl := List.eq_of_mem_replicate hrep
  have htok : Token.eclass s.eclass ∈ cut.filterMap ScanRule.token := by
    rw [← stmtsOf_tokens (cut.filterMap ScanRule.token)]
    exact List.mem_append_left _ (List.mem_flatMap.mpr ⟨s, hs, List.mem_cons_self⟩)
  obtain ⟨p, hp, heq⟩ := List.mem_filterMap.mp htok
  exact token_eclass heq ▸ hcut.ne_nil p hp

/-- **What a script injects is what the daemon gets**, in every interleaving of the tool and the source, as far as
the queue takes messages of that length. -/
theorem inject_delivers (yyin : CStr) (maxmsg msgsize : ℕ) : ∃ msgs, fminject yyin = some msgs ∧
    ∀ as s, exec (injectStep maxmsg msgsize) as { unsent := msgs } = some s →
      s.events ++ (s.queue ++ s.unsent.filter (Sendable msgsize)).map eventOf =
        (msgs.filter (Sendable msgsize)).map eventOf ∧
      (injectStep maxmsg msgsize .probe s = none ↔ ∃ m ∈ s.queue.head?, 128 ≤ m.length) := by
  obtain ⟨cut, hcut⟩ := exists_scans true yyin
  refine ⟨_, fminject_eq hcut, fun as s hs => ⟨?_, ?_⟩⟩
  · have hinit : Delivers msgsize _ { unsent := _ } := ⟨rfl, fminject_ne_nil (fminject_eq hcut)⟩
    exact (exec_invariant delivers_step as hinit as s (List.prefix_refl as) hs).order
  · rw [injectStep, Option.map_eq_none_iff]
    cases s.queue.head? with
    | none => simp [injectProbe]
    | some m => simp [injectProbe_eq_none]

end Fms
