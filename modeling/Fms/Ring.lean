import Fms.Agent
import Fms.Lib.Circular
import Fms.Lib.Run

/-!
# The ring

`ring_t` (include/fmd_ring.h) between the threads that add events to it (`fmd_queue_dispatch`,
`put_to_agent`) and the one that takes them out (`queue_start`, `do_agent`). A step of a thread is one
statement; the two semaphores and the mutex are atomic, and the fields of the ring are shared.

* `ringAdd`, `ringDel`: the two functions as a whole, and `producerStep`, `consumerStep`: their
  statements with the waiting and locking around them;
* `HandoverOk`: the invariant, which ties the indices, the count, the semaphores and the program
  points together;
* **`ring_fifo`**: over every interleaving, no add fails, no delete returns `NULL`, and what was taken
  and what is in the ring is what was added, in that order;
* `ring_refines`: seen from outside, a step puts an event in a bounded queue, takes one or does
  neither, and **`ring_queue`**: so a run is a run of the queue;
* **`ring_moves`**: no thread is left waiting.
-/

namespace Fms

open Circular Keyed Run

variable {α : Type}

/-- `ring_t`; an item is a pointer, `none` is `NULL`. -/
structure Ring (α : Type) where
  ringContain : ℕ
  ringVaild : ℕ
  ringLock : Bool
  front : ℕ
  rear : ℕ
  count : ℕ
  ringItem : ℕ → Option α

/-- `ring_init` -/
def ringInit : Ring α where
  ringContain := 0
  ringVaild := ringSize
  ringLock := false
  front := 0
  rear := 0
  count := 0
  ringItem := fun _ => none

/-- `ring_stat` -/
def Ring.stat (r : Ring α) : ℕ := r.count

/-- `ring->ring_item[ring->rear] = p` -/
def Ring.store (r : Ring α) (p : α) : Ring α :=
  { r with ringItem := Function.update r.ringItem r.rear (some p) }

/-- `ring->rear = (ring->rear + 1) % RING_SIZE` -/
def Ring.moveRear (r : Ring α) : Ring α := { r with rear := (r.rear + 1) % ringSize }

/-- `ring->front = (ring->front + 1) % RING_SIZE` -/
def Ring.moveFront (r : Ring α) : Ring α := { r with front := (r.front + 1) % ringSize }

/-- `ring_add` -/
def ringAdd (r : Ring α) (p : α) : Ring α × ℤ :=
  if r.stat = ringSize then (r, -1)
  else
    let r := (r.store p).moveRear
    ({ r with count := r.count + 1 }, 0)

/-- `ring_del` -/
def ringDel (r : Ring α) : Ring α × Option α :=
  if r.stat = 0 then (r, none)
  else
    let curPos := r.front
    let r := r.moveFront
    ({ r with count := r.count - 1 }, r.ringItem curPos)

/-! ## Threads -/

/-- Where a producer is in `fmd_queue_dispatch` or `put_to_agent`: outside, past `sem_wait`, past the
lock, past the three statements of `ring_add` one by one, past its return, past the unlock. -/
inductive ProducerPc (α : Type) where
  | idle
  | waited (p : α)
  | locked (p : α)
  | checked (p : α)
  | stored (p : α)
  | moved (p : α)
  | added (ret : ℤ)
  | unlocked

/-- Where the consumer is in the loop of `queue_start` or `do_agent`: before the test of the loop,
past it, past `sem_wait`, past the lock, in `ring_del`, past its return, past the unlock. -/
inductive ConsumerPc (α : Type) where
  | idle
  | ready
  | waited
  | locked
  | checked
  | moved (curPos : ℕ)
  | counted (curPos : ℕ)
  | deleted (evt : Option α)
  | unlocked

/-- The ring and its threads, with the events that were added and those that were taken. -/
structure Handover (α : Type) where
  ring : Ring α := ringInit
  producers : List (ProducerPc α)
  consumer : ConsumerPc α := .idle
  added : List α := []
  taken : List (Option α) := []

/-- A step of a producer or of the consumer. -/
inductive RingAct (α : Type) where
  | dispatch (i : ℕ) (p : α)
  | producer (i : ℕ)
  | consumer

/-- One step of a producer that has an event to add, with the event it has added. -/
def producerStep (r : Ring α) : ProducerPc α → Option (Ring α × ProducerPc α × List α)
  | .idle => none
  | .waited p => if r.ringLock then none else some ({ r with ringLock := true }, .locked p, [])
  | .locked p => some (r, if r.stat = ringSize then .added (-1) else .checked p, [])
  | .checked p => some (r.store p, .stored p, [])
  | .stored p => some (r.moveRear, .moved p, [])
  | .moved p => some ({ r with count := r.count + 1 }, .added 0, [p])
  | .added _ => some ({ r with ringLock := false }, .unlocked, [])
  | .unlocked => some ({ r with ringContain := r.ringContain + 1 }, .idle, [])

/-- One step of the consumer, with the event it has taken. -/
def consumerStep (r : Ring α) : ConsumerPc α → Option (Ring α × ConsumerPc α × List (Option α))
  | .idle => some (r, if r.stat ≠ 0 then .ready else .idle, [])
  | .ready =>
    if r.ringContain = 0 then none
    else some ({ r with ringContain := r.ringContain - 1 }, .waited, [])
  | .waited => if r.ringLock then none else some ({ r with ringLock := true }, .locked, [])
  | .locked => some (r, if r.stat = 0 then .deleted none else .checked, [])
  | .checked => some (r.moveFront, .moved r.front, [])
  | .moved curPos => some ({ r with count := r.count - 1 }, .counted curPos, [])
  | .counted curPos => some (r, .deleted (r.ringItem curPos), [r.ringItem curPos])
  | .deleted _ => some ({ r with ringLock := false }, .unlocked, [])
  | .unlocked => some ({ r with ringVaild := r.ringVaild + 1 }, .idle, [])

/-- The step function. -/
def ringStep : RingAct α → Handover α → Option (Handover α)
  | .dispatch i p, s =>
    match s.producers[i]? with
    | some .idle =>
      if s.ring.ringVaild = 0 then none
      else some
        { s with
          ring := { s.ring with ringVaild := s.ring.ringVaild - 1 }
          producers := s.producers.set i (.waited p) }
    | _ => none
  | .producer i, s =>
    (s.producers[i]?).bind fun pc => (producerStep s.ring pc).map fun (ring, pc, evts) =>
      { s with ring := ring, producers := s.producers.set i pc, added := s.added ++ evts }
  | .consumer, s =>
    (consumerStep s.ring s.consumer).map fun (ring, pc, evts) =>
      { s with ring := ring, consumer := pc, taken := s.taken ++ evts }

/-- A ring after `ring_init`, with a number of producers. -/
def Handover.init (n : ℕ) : Handover α := { producers := List.replicate n .idle }

/-- Without interruption the statements are `ring_add`. -/
theorem ringAdd_statements (r : Ring α) (p : α) (h : r.stat ≠ ringSize) :
    producerStep r (.locked p) = some (r, .checked p, []) ∧
    producerStep r (.checked p) = some (r.store p, .stored p, []) ∧
    producerStep (r.store p) (.stored p) = some ((r.store p).moveRear, .moved p, []) ∧
    producerStep (r.store p).moveRear (.moved p) =
      some ((ringAdd r p).1, .added (ringAdd r p).2, [p]) := by
  simp [producerStep, ringAdd, h]

/-- Without interruption the statements are `ring_del`. -/
theorem ringDel_statements (r : Ring α) (h : r.stat ≠ 0) :
    consumerStep r .locked = some (r, .checked, []) ∧
    consumerStep r .checked = some (r.moveFront, .moved r.front, []) ∧
    consumerStep r.moveFront (.moved r.front) = some ((ringDel r).1, .counted r.front, []) ∧
    consumerStep (ringDel r).1 (.counted r.front) =
      some ((ringDel r).1, .deleted (ringDel r).2, [(ringDel r).2]) := by
  simp [consumerStep, ringDel, h, Ring.moveFront]

/-! ## The invariant -/

/-- The producer holds a place that is not counted yet. -/
def ProducerPc.claims : ProducerPc α → ℕ
  | .waited _ | .locked _ | .checked _ | .stored _ | .moved _ => 1
  | _ => 0

/-- The producer has added an event and not announced it yet. -/
def ProducerPc.owes : ProducerPc α → ℕ
  | .added _ | .unlocked => 1
  | _ => 0

/-- The producer holds the lock. -/
def ProducerPc.critical : ProducerPc α → ℕ
  | .locked _ | .checked _ | .stored _ | .moved _ | .added _ => 1
  | _ => 0

/-- The rear is one ahead of the count. -/
def ProducerPc.ahead : ProducerPc α → ℕ
  | .moved _ => 1
  | _ => 0

/-- The event in the array that is not counted yet. -/
def ProducerPc.stored? : ProducerPc α → Option α
  | .stored p | .moved p => some p
  | _ => none

/-- The consumer holds an event that is still counted. -/
def ConsumerPc.claims : ConsumerPc α → ℕ
  | .waited | .locked | .checked | .moved _ => 1
  | _ => 0

/-- The consumer has made room for an event and not announced it yet. -/
def ConsumerPc.owes : ConsumerPc α → ℕ
  | .counted _ | .deleted _ | .unlocked => 1
  | _ => 0

/-- The consumer holds the lock. -/
def ConsumerPc.critical : ConsumerPc α → ℕ
  | .locked | .checked | .moved _ | .counted _ | .deleted _ => 1
  | _ => 0

/-- The front is one ahead of the count. -/
def ConsumerPc.ahead : ConsumerPc α → ℕ
  | .moved _ => 1
  | _ => 0

/-- The event that is out of the ring and not returned yet. -/
def ConsumerPc.held (item : ℕ → Option α) : ConsumerPc α → List (Option α)
  | .moved curPos | .counted curPos => [item curPos]
  | _ => []

/-- The events in the ring. -/
def Handover.contents (s : Handover α) : List (Option α) :=
  Circular.contents ringSize s.ring.ringItem s.ring.front (s.ring.count - s.consumer.ahead)

/-- The invariant. -/
structure HandoverOk (s : Handover α) : Prop where
  front : s.ring.front < ringSize
  rear : s.ring.rear < ringSize
  indices : (s.ring.front + s.ring.count + weight ProducerPc.ahead s.producers) % ringSize =
    (s.ring.rear + s.consumer.ahead) % ringSize
  vaild : s.ring.ringVaild + weight ProducerPc.claims s.producers + s.ring.count +
    s.consumer.owes = ringSize
  contain : s.ring.ringContain + s.consumer.claims + weight ProducerPc.owes s.producers =
    s.ring.count
  lock : weight ProducerPc.critical s.producers + s.consumer.critical =
    if s.ring.ringLock then 1 else 0
  stored : ∀ pc ∈ s.producers, ∀ p, pc.stored? = some p →
    s.ring.ringItem ((s.ring.front + s.ring.count) % ringSize) = some p
  rets : ∀ pc ∈ s.producers, ∀ ret, pc = .added ret → ret = 0
  deleted : s.consumer ≠ .deleted none
  fifo : s.added.map some = s.taken ++ s.consumer.held s.ring.ringItem ++ s.contents

theorem ProducerPc.ahead_le_critical (pc : ProducerPc α) : pc.ahead ≤ pc.critical := by
  cases pc <;> simp [ahead, critical]

theorem ConsumerPc.ahead_le_critical (pc : ConsumerPc α) : pc.ahead ≤ pc.critical := by
  cases pc <;> simp [ahead, critical]

theorem ProducerPc.stored?_eq_none {pc : ProducerPc α} (h : pc.critical = 0) : pc.stored? = none := by
  cases pc <;> simp [critical, stored?] at *

theorem ConsumerPc.held_eq_nil {pc : ConsumerPc α} (item : ℕ → Option α) (h : pc.critical = 0) :
    pc.held item = [] := by
  cases pc <;> simp [critical, held] at *

theorem HandoverOk.lock_le {s : Handover α} (h : HandoverOk s) :
    weight ProducerPc.critical s.producers + s.consumer.critical ≤ 1 := by
  rw [h.lock]
  split_ifs <;> omega

/-- While the consumer holds the lock, no producer has stored an event without counting it. -/
theorem HandoverOk.stored_none {s : Handover α} (h : HandoverOk s) (hc : s.consumer.critical = 1) :
    weight ProducerPc.ahead s.producers = 0 ∧ ∀ pc ∈ s.producers, pc.stored? = none := by
  have hle := h.lock_le
  have hzero : weight ProducerPc.critical s.producers = 0 := by omega
  refine ⟨?_, fun pc hpc => ProducerPc.stored?_eq_none ?_⟩
  · have := weight_le ProducerPc.ahead_le_critical s.producers
    omega
  · have := le_weight (w := ProducerPc.critical) hpc
    omega

theorem HandoverOk.alone {s : Handover α} (h : HandoverOk s) {l₁ l₂ : List (ProducerPc α)}
    {pc : ProducerPc α} (hs : s.producers = l₁ ++ pc :: l₂) (hc : pc.critical = 1) :
    s.consumer.critical = 0 ∧ weight ProducerPc.ahead l₁ = 0 ∧ weight ProducerPc.ahead l₂ = 0 ∧
      ∀ pc', ∀ x ∈ l₁ ++ pc' :: l₂, x = pc' ∨ x.stored? = none := by
  have hle := h.lock_le
  have hsum := hs ▸ hle
  rw [weight_split, hc] at hsum
  have h₁ := weight_le ProducerPc.ahead_le_critical l₁
  have h₂ := weight_le ProducerPc.ahead_le_critical l₂
  refine ⟨by omega, by omega, by omega, fun pc' x hx => ?_⟩
  have hone : weight ProducerPc.critical (l₁ ++ pc :: l₂) ≤ 1 := hs ▸ (by omega)
  rcases eq_or_weight_eq_zero hone hc hx with hx | hx
  · exact .inl hx
  · exact .inr (ProducerPc.stored?_eq_none hx)

/-! ## Steps -/

theorem HandoverOk.producer {s : Handover α} (h : HandoverOk s) {l₁ l₂ : List (ProducerPc α)}
    {pc pc' : ProducerPc α} (hs : s.producers = l₁ ++ pc :: l₂) (vaild contain : ℕ) (lock : Bool)
    (hvaild : vaild + pc'.claims = s.ring.ringVaild + pc.claims)
    (hcontain : contain + pc'.owes = s.ring.ringContain + pc.owes)
    (hlock : (if lock then 1 else 0) + pc.critical =
      (if s.ring.ringLock then 1 else 0) + pc'.critical)
    (hahead : pc'.ahead = pc.ahead) (hstored : pc'.stored? = none)
    (hret : ∀ ret, pc' = .added ret → ret = 0) :
    HandoverOk
      { s with
        ring := { s.ring with ringVaild := vaild, ringContain := contain, ringLock := lock }
        producers := l₁ ++ pc' :: l₂ } where
  front := h.front
  rear := h.rear
  indices := by
    have hidx := h.indices
    rw [hs, weight_split] at hidx
    rw [weight_split, hahead]
    exact hidx
  vaild := by
    have hv := h.vaild
    rw [hs, weight_split] at hv
    simp only [weight_split]
    omega
  contain := by
    have hc := h.contain
    rw [hs, weight_split] at hc
    simp only [weight_split]
    omega
  lock := by
    have hl := h.lock
    rw [hs, weight_split] at hl
    simp only [weight_split]
    omega
  stored := fun x hx p hp => by
    rcases mem_of_replace hs hx with rfl | hx
    · rw [hstored] at hp
      cases hp
    · exact h.stored x hx p hp
  rets := fun x hx ret he => by
    rcases mem_of_replace hs hx with rfl | hx
    · exact hret ret he
    · exact h.rets x hx ret he
  deleted := h.deleted
  fifo := h.fifo

theorem HandoverOk.consume {s : Handover α} (h : HandoverOk s) {pc pc' : ConsumerPc α}
    (hpc : s.consumer = pc) (vaild contain : ℕ) (lock : Bool)
    (hvaild : vaild + pc'.owes = s.ring.ringVaild + pc.owes)
    (hcontain : contain + pc'.claims = s.ring.ringContain + pc.claims)
    (hlock : (if lock then 1 else 0) + pc.critical =
      (if s.ring.ringLock then 1 else 0) + pc'.critical)
    (hahead : pc'.ahead = pc.ahead)
    (hheld : pc'.held s.ring.ringItem = pc.held s.ring.ringItem)
    (hdel : pc' ≠ .deleted none) :
    HandoverOk
      { s with
        ring := { s.ring with ringVaild := vaild, ringContain := contain, ringLock := lock }
        consumer := pc' } where
  front := h.front
  rear := h.rear
  indices := by
    rw [hahead, ← hpc]
    exact h.indices
  vaild := by
    have hv := h.vaild
    rw [hpc] at hv
    simp only
    omega
  contain := by
    have hc := h.contain
    rw [hpc] at hc
    simp only
    omega
  lock := by
    have hl := h.lock
    rw [hpc] at hl
    simp only
    omega
  stored := h.stored
  rets := h.rets
  deleted := hdel
  fifo := by
    rw [Handover.contents, hahead, hheld, ← hpc]
    exact h.fifo

theorem HandoverOk.write {s : Handover α} (h : HandoverOk s) {l₁ l₂ : List (ProducerPc α)}
    {pc pc' : ProducerPc α} {r : Ring α} {evts : List α} (hs : s.producers = l₁ ++ pc :: l₂)
    (hpc : (∃ p, pc = .checked p) ∨ (∃ p, pc = .stored p) ∨ ∃ p, pc = .moved p)
    (hst : producerStep s.ring pc = some (r, pc', evts)) :
    HandoverOk { s with ring := r, producers := l₁ ++ pc' :: l₂, added := s.added ++ evts } := by
  have hcrit : pc.critical = 1 := by rcases hpc with ⟨p, rfl⟩ | ⟨p, rfl⟩ | ⟨p, rfl⟩ <;> rfl
  obtain ⟨hc, h₁, h₂, halone⟩ := h.alone hs hcrit
  have hahead : s.consumer.ahead = 0 := by
    have := s.consumer.ahead_le_critical
    omega
  have hheld (item : ℕ → Option α) : s.consumer.held item = [] := ConsumerPc.held_eq_nil item hc
  obtain ⟨hfront, hrear, hidx, hvaild, hcontain, hlock, hstored, hrets, hdel, hfifo⟩ := h
  rw [Handover.contents, hheld, hahead, Nat.sub_zero, List.append_nil] at hfifo
  rw [hs] at hidx hvaild hcontain hlock hstored hrets
  rw [weight_split] at hidx hvaild hcontain hlock
  have hrets' (hret : ∀ ret, pc' = .added ret → ret = 0) :
      ∀ x ∈ l₁ ++ pc' :: l₂, ∀ ret, x = .added ret → ret = 0 := fun x hx ret he => by
    rcases mem_of_replace rfl hx with rfl | hx
    · exact hret ret he
    · exact hrets x hx ret he
  have hlt : s.ring.count < ringSize := by
    rcases hpc with ⟨p, rfl⟩ | ⟨p, rfl⟩ | ⟨p, rfl⟩ <;>
      (simp only [ProducerPc.claims] at hvaild; omega)
  rcases hpc with ⟨p, rfl⟩ | ⟨p, rfl⟩ | ⟨p, rfl⟩
  · -- the store is at the rear, which is where the next event of the ring is expected
    cases hst
    have hslot : s.ring.rear = (s.ring.front + s.ring.count) % ringSize := by
      simp only [ProducerPc.ahead, h₁, h₂, hahead, Nat.add_zero] at hidx
      rw [hidx, Nat.mod_eq_of_lt hrear]
    refine ⟨hfront, hrear, ?_, ?_, ?_, ?_, fun x hx q hq => ?_, hrets' nofun, hdel, ?_⟩
    · rw [weight_split]
      exact hidx
    · rw [weight_split]
      exact hvaild
    · rw [weight_split]
      exact hcontain
    · rw [weight_split]
      exact hlock
    · rcases halone _ x hx with rfl | hx
      · cases hq
        simp only [Ring.store, ← hslot, Function.update_self]
      · rw [hx] at hq
        cases hq
    · simp only [Handover.contents, hheld, hahead, Nat.sub_zero, List.append_nil, Ring.store, hslot]
      rw [contents_store _ hlt]
      exact hfifo
  · cases hst
    refine ⟨hfront, ?_, ?_, ?_, ?_, ?_, fun x hx q hq => ?_, hrets' nofun, hdel, ?_⟩
    · exact Nat.mod_lt _ (by decide)
    · simp only [weight_split, ProducerPc.ahead, h₁, h₂, hahead, Ring.moveRear] at hidx ⊢
      simp only [ringSize] at *
      omega
    · rw [weight_split]
      exact hvaild
    · rw [weight_split]
      exact hcontain
    · rw [weight_split]
      exact hlock
    · rcases halone _ x hx with rfl | hx
      · exact hstored (.stored p) (mem_of_split rfl) q hq
      · rw [hx] at hq
        cases hq
    · simp only [Handover.contents, hheld, hahead, Nat.sub_zero, List.append_nil]
      exact hfifo
  · cases hst
    have hp := hstored (.moved p) (mem_of_split rfl) p rfl
    refine ⟨hfront, hrear, ?_, ?_, ?_, ?_, fun x hx q hq => ?_, hrets' ?_, hdel, ?_⟩
    · simp only [weight_split, ProducerPc.ahead, h₁, h₂, hahead, ringSize] at hidx ⊢
      omega
    · simp only [weight_split, ProducerPc.claims] at hvaild ⊢
      omega
    · simp only [weight_split, ProducerPc.owes] at hcontain ⊢
      omega
    · rw [weight_split]
      exact hlock
    · rcases halone _ x hx with rfl | hx
      · cases hq
      · rw [hx] at hq
        cases hq
    · rintro ret ⟨⟩
      rfl
    · simp only [Handover.contents, hheld, hahead, Nat.sub_zero, List.append_nil, List.map_append,
        contents_succ, hp, hfifo, List.map_cons, List.map_nil, List.append_assoc]

theorem HandoverOk.read {s : Handover α} (h : HandoverOk s) {pc' : ConsumerPc α} {r : Ring α}
    {evts : List (Option α)}
    (hpc : s.consumer = .checked ∨ (∃ k, s.consumer = .moved k) ∨ ∃ k, s.consumer = .counted k)
    (hst : consumerStep s.ring s.consumer = some (r, pc', evts)) :
    HandoverOk { s with ring := r, consumer := pc', taken := s.taken ++ evts } := by
  have hcrit : s.consumer.critical = 1 := by
    rcases hpc with hpc | ⟨k, hpc⟩ | ⟨k, hpc⟩ <;> (rw [hpc]; rfl)
  obtain ⟨hahead, hnone⟩ := h.stored_none hcrit
  have hstored' (r : Ring α) : ∀ pc ∈ s.producers, ∀ p, pc.stored? = some p →
      r.ringItem ((r.front + r.count) % ringSize) = some p := fun pc hmem p hp => by
    rw [hnone pc hmem] at hp
    cases hp
  obtain ⟨hfront, hrear, hidx, hvaild, hcontain, hlock, -, hrets, -, hfifo⟩ := h
  rw [Handover.contents] at hfifo
  rcases hpc with hpc | ⟨k, hpc⟩ | ⟨k, hpc⟩
  · rw [hpc] at hst hidx hvaild hcontain hlock hfifo
    cases hst
    simp only [ConsumerPc.ahead, ConsumerPc.claims, ConsumerPc.held, List.append_nil,
      Nat.sub_zero, hahead] at hidx hcontain hfifo
    refine ⟨?_, hrear, ?_, hvaild, hcontain, hlock, hstored' _, hrets, nofun, ?_⟩
    · exact Nat.mod_lt _ (by decide)
    · simp only [Ring.moveFront, ConsumerPc.ahead, hahead, ringSize] at hidx ⊢
      omega
    · have hcount : s.ring.count = s.ring.count - 1 + 1 := by omega
      rw [hcount, contents_pop hfront] at hfifo
      simp only [Handover.contents, ConsumerPc.held, ConsumerPc.ahead, Ring.moveFront,
        List.append_nil, List.append_assoc, List.singleton_append]
      exact hfifo
  · rw [hpc] at hst hidx hvaild hcontain hlock hfifo
    cases hst
    simp only [ConsumerPc.ahead, ConsumerPc.claims, ConsumerPc.owes, hahead] at hidx hcontain hvaild
    refine ⟨hfront, hrear, ?_, ?_, ?_, hlock, hstored' _, hrets, nofun, ?_⟩
    · simp only [ConsumerPc.ahead, hahead, ringSize] at hidx ⊢
      omega
    · simp only [ConsumerPc.owes]
      omega
    · simp only [ConsumerPc.claims]
      omega
    · simp only [Handover.contents, ConsumerPc.ahead, List.append_nil, Nat.sub_zero]
      exact hfifo
  · rw [hpc] at hst hidx hvaild hcontain hlock hfifo
    cases hst
    simp only [ConsumerPc.held, ConsumerPc.ahead, Nat.sub_zero] at hfifo
    refine ⟨hfront, hrear, hidx, hvaild, hcontain, hlock, hstored' _, hrets, ?_, ?_⟩
    · -- what is returned is one of the events added
      intro he
      have hmem : s.ring.ringItem k ∈ s.added.map some := by
        rw [hfifo]
        simp
      obtain ⟨p, -, hp⟩ := List.mem_map.mp hmem
      rw [← hp] at he
      cases he
    · simp only [Handover.contents, ConsumerPc.held, ConsumerPc.ahead, Nat.sub_zero,
        List.append_nil]
      exact hfifo

theorem handoverOk_producer {s : Handover α} (h : HandoverOk s) {l₁ l₂ : List (ProducerPc α)}
    {pc pc' : ProducerPc α} {r : Ring α} {evts : List α} (hs : s.producers = l₁ ++ pc :: l₂)
    (hst : producerStep s.ring pc = some (r, pc', evts)) :
    HandoverOk { s with ring := r, producers := l₁ ++ pc' :: l₂, added := s.added ++ evts } := by
  cases pc with
  | idle => cases hst
  | waited p =>
    simp only [producerStep] at hst
    split_ifs at hst with hl
    cases hst
    rw [List.append_nil]
    exact h.producer hs _ _ true rfl rfl (by simp [hl, ProducerPc.critical]) rfl rfl nofun
  | locked p =>
    have hv := h.vaild
    rw [hs, weight_split] at hv
    simp only [ProducerPc.claims] at hv
    have hne : s.ring.stat ≠ ringSize := by
      unfold Ring.stat
      omega
    simp only [producerStep, if_neg hne] at hst
    cases hst
    rw [List.append_nil]
    exact h.producer hs _ _ _ rfl rfl rfl rfl rfl nofun
  | checked p => exact h.write hs (.inl ⟨p, rfl⟩) hst
  | stored p => exact h.write hs (.inr (.inl ⟨p, rfl⟩)) hst
  | moved p => exact h.write hs (.inr (.inr ⟨p, rfl⟩)) hst
  | added ret =>
    cases hst
    rw [List.append_nil]
    have hle := hs ▸ h.lock_le
    have hl := h.lock
    rw [hs] at hl
    simp only [weight_split, ProducerPc.critical] at hle hl
    refine h.producer hs _ _ false rfl rfl ?_ rfl rfl nofun
    simp only [ProducerPc.critical, Bool.false_eq_true, if_false]
    omega
  | unlocked =>
    cases hst
    rw [List.append_nil]
    exact h.producer hs _ _ _ rfl rfl rfl rfl rfl nofun

theorem handoverOk_consumer {s : Handover α} (h : HandoverOk s) {pc' : ConsumerPc α} {r : Ring α}
    {evts : List (Option α)} (hst : consumerStep s.ring s.consumer = some (r, pc', evts)) :
    HandoverOk { s with ring := r, consumer := pc', taken := s.taken ++ evts } := by
  cases hpc : s.consumer with
  | idle =>
    rw [hpc] at hst
    cases hst
    rw [List.append_nil]
    by_cases hne : s.ring.stat ≠ 0
    · rw [if_pos hne]
      exact h.consume hpc _ _ _ rfl rfl rfl rfl rfl nofun
    · rw [if_neg hne]
      exact h.consume hpc _ _ _ rfl rfl rfl rfl rfl nofun
  | ready =>
    rw [hpc] at hst
    simp only [consumerStep] at hst
    split_ifs at hst with hz
    cases hst
    rw [List.append_nil]
    refine h.consume hpc _ _ _ rfl ?_ rfl rfl rfl nofun
    simp only [ConsumerPc.claims]
    omega
  | waited =>
    rw [hpc] at hst
    simp only [consumerStep] at hst
    split_ifs at hst with hl
    cases hst
    rw [List.append_nil]
    exact h.consume hpc _ _ true rfl rfl (by simp [hl, ConsumerPc.critical]) rfl rfl nofun
  | locked =>
    have hc := h.contain
    rw [hpc] at hc hst
    simp only [ConsumerPc.claims] at hc
    have hne : s.ring.stat ≠ 0 := by
      unfold Ring.stat
      omega
    simp only [consumerStep, if_neg hne] at hst
    cases hst
    rw [List.append_nil]
    exact h.consume hpc _ _ _ rfl rfl rfl rfl rfl nofun
  | checked => exact h.read (.inl hpc) hst
  | moved k => exact h.read (.inr (.inl ⟨k, hpc⟩)) hst
  | counted k => exact h.read (.inr (.inr ⟨k, hpc⟩)) hst
  | deleted evt =>
    have hle := h.lock_le
    have hl := h.lock
    rw [hpc] at hst hle hl
    cases hst
    rw [List.append_nil]
    simp only [ConsumerPc.critical] at hle hl
    refine h.consume hpc _ _ false rfl rfl ?_ rfl rfl nofun
    simp only [ConsumerPc.critical, Bool.false_eq_true, if_false]
    omega
  | unlocked =>
    rw [hpc] at hst
    cases hst
    rw [List.append_nil]
    exact h.consume hpc _ _ _ rfl rfl rfl rfl rfl nofun

theorem handoverOk_step {act : RingAct α} {s s' : Handover α} (h : HandoverOk s)
    (hst : ringStep act s = some s') : HandoverOk s' := by
  cases act with
  | dispatch i p =>
    simp only [ringStep] at hst
    split at hst
    · rename_i hi
      split_ifs at hst with hz
      cases hst
      obtain ⟨l₁, l₂, hs, -, hset⟩ := exists_getElem?_split hi
      rw [hset]
      refine h.producer hs _ _ _ ?_ rfl rfl rfl rfl nofun
      simp only [ProducerPc.claims]
      omega
    · cases hst
  | producer i =>
    obtain ⟨pc, hi, hst⟩ := Option.bind_eq_some_iff.mp hst
    obtain ⟨⟨r, pc', evts⟩, hp, rfl⟩ := Option.map_eq_some_iff.mp hst
    obtain ⟨l₁, l₂, hs, -, hset⟩ := exists_getElem?_split hi
    simp only [hset]
    exact handoverOk_producer h hs hp
  | consumer =>
    obtain ⟨⟨r, pc', evts⟩, hc, rfl⟩ := Option.map_eq_some_iff.mp hst
    exact handoverOk_consumer h hc

theorem handoverOk_init (n : ℕ) : HandoverOk (Handover.init (α := α) n) := by
  have hahead := weight_replicate (w := ProducerPc.ahead) (t := (.idle : ProducerPc α)) n rfl
  have hclaims := weight_replicate (w := ProducerPc.claims) (t := (.idle : ProducerPc α)) n rfl
  have howes := weight_replicate (w := ProducerPc.owes) (t := (.idle : ProducerPc α)) n rfl
  have hcrit := weight_replicate (w := ProducerPc.critical) (t := (.idle : ProducerPc α)) n rfl
  have hpos : 0 < ringSize := by decide
  refine ⟨hpos, hpos, ?_, ?_, ?_, ?_, fun x hx p hp => ?_, fun x hx ret he => ?_, nofun, rfl⟩
  · simp [Handover.init, hahead, ringInit, ConsumerPc.ahead]
  · simp [Handover.init, hclaims, ringInit, ConsumerPc.owes]
  · simp [Handover.init, howes, ringInit, ConsumerPc.claims]
  · simp [Handover.init, hcrit, ringInit, ConsumerPc.critical]
  · rw [List.eq_of_mem_replicate hx] at hp
    cases hp
  · rw [List.eq_of_mem_replicate hx] at he
    cases he

/-! ## Runs -/

/-- What the threads rely on: no add has failed, no delete has returned `NULL`, and what was taken, with
the event the consumer has its hands on and those in the ring, is what was added. -/
structure ExactFifo (s : Handover α) : Prop where
  adds : ∀ ret, .added ret ∈ s.producers → ret ≠ -1
  deletes : s.consumer ≠ .deleted none
  taken : s.taken <+: s.added.map some
  kept : s.added.map some = s.taken ++ s.consumer.held s.ring.ringItem ++ s.contents
  bounded : s.ring.count ≤ ringSize

/-- **The ring is an exact bounded FIFO** between any number of producers and the consumer, however
their steps interleave. -/
theorem ring_fifo (n : ℕ) (as : List (RingAct α)) :
    Always ringStep ExactFifo as (Handover.init n) := by
  intro pre s hp he
  have h := exec_invariant (I := HandoverOk) (fun _ _ _ h hst => handoverOk_step h hst) as
    (handoverOk_init n) pre s hp he
  refine ⟨fun ret hret hn => ?_, h.deleted, ?_, h.fifo, ?_⟩
  · rw [h.rets _ hret ret rfl] at hn
    cases hn
  · rw [h.fifo, List.append_assoc]
    exact List.prefix_append ..
  · have hv := h.vaild
    omega

/-! ## The queue behind the ring -/

/-- The events that were added and not taken. -/
def Handover.queue (s : Handover α) : List (Option α) :=
  s.consumer.held s.ring.ringItem ++ s.contents

/-- What is done with a queue. -/
inductive QueueOp (β : Type) where
  | put (p : β)
  | take

/-- A queue of `RING_SIZE` places, with what was put and what was taken so far. -/
structure BoundedQueue (β : Type) where
  waiting : List β := []
  put : List β := []
  taken : List β := []

/-- A put at the rear needs room, a take at the front an event. -/
def boundedStep {β : Type} : QueueOp β → BoundedQueue β → Option (BoundedQueue β)
  | .put p, q =>
    if q.waiting.length < ringSize then some { q with waiting := q.waiting ++ [p], put := q.put ++ [p] }
    else none
  | .take, q =>
    match q.waiting with
    | [] => none
    | p :: l => some { q with waiting := l, taken := q.taken ++ [p] }

/-- What the threads have done with the ring, as a queue. -/
def Handover.bounded (s : Handover α) : BoundedQueue (Option α) := ⟨s.queue, s.added.map some, s.taken⟩

/-- An event is in the queue when it is counted. -/
def ProducerPc.ops : ProducerPc α → List (QueueOp (Option α))
  | .moved p => [.put (some p)]
  | _ => []

/-- An event is out of the queue when it is returned. -/
def ConsumerPc.ops : ConsumerPc α → List (QueueOp (Option α))
  | .counted _ => [.take]
  | _ => []

/-- The operation that a step performs on the queue, if any. -/
def queueOps : RingAct α → Handover α → List (QueueOp (Option α))
  | .dispatch _ _, _ => []
  | .producer i, s => (s.producers[i]?).elim [] ProducerPc.ops
  | .consumer, s => s.consumer.ops

theorem HandoverOk.length_queue_le {s : Handover α} (h : HandoverOk s) :
    s.queue.length ≤ ringSize := by
  have hv := h.vaild
  have hc := h.contain
  rw [Handover.queue, List.length_append, Handover.contents, length_contents]
  cases hpc : s.consumer <;>
    simp only [hpc, ConsumerPc.held, ConsumerPc.ahead, ConsumerPc.owes, ConsumerPc.claims,
      List.length_nil, List.length_singleton] at hv hc ⊢ <;> omega

theorem producerStep_ops {r r' : Ring α} {pc pc' : ProducerPc α} {evts : List α}
    (h : producerStep r pc = some (r', pc', evts)) :
    (pc.ops = [] ∧ evts = []) ∨ ∃ p, pc.ops = [.put (some p)] ∧ evts = [p] := by
  cases pc with
  | moved p =>
    cases h
    exact .inr ⟨p, rfl, rfl⟩
  | waited p =>
    simp only [producerStep] at h
    split_ifs at h
    cases h
    exact .inl ⟨rfl, rfl⟩
  | idle => cases h
  | _ =>
    cases h
    exact .inl ⟨rfl, rfl⟩

theorem consumerStep_ops {r r' : Ring α} {pc pc' : ConsumerPc α} {evts : List (Option α)}
    (h : consumerStep r pc = some (r', pc', evts)) :
    (pc.ops = [] ∧ evts = []) ∨ ∃ p, pc.ops = [.take] ∧ evts = [p] := by
  cases pc with
  | counted k =>
    cases h
    exact .inr ⟨_, rfl, rfl⟩
  | ready =>
    simp only [consumerStep] at h
    split_ifs at h
    cases h
    exact .inl ⟨rfl, rfl⟩
  | waited =>
    simp only [consumerStep] at h
    split_ifs at h
    cases h
    exact .inl ⟨rfl, rfl⟩
  | _ =>
    cases h
    exact .inl ⟨rfl, rfl⟩

/-- **The ring refines the bounded queue** by which the agents' rings are modelled in the daemon: what a
step does, the queue can do. -/
theorem ring_refines {act : RingAct α} {s s' : Handover α} (h : HandoverOk s)
    (hst : ringStep act s = some s') : exec boundedStep (queueOps act s) s.bounded = some s'.bounded := by
  have h' := handoverOk_step h hst
  have hq : s.added.map some = s.taken ++ s.queue := by
    rw [Handover.queue, ← List.append_assoc]
    exact h.fifo
  have hq' : s'.added.map some = s'.taken ++ s'.queue := by
    rw [Handover.queue, ← List.append_assoc]
    exact h'.fifo
  have hlen := h'.length_queue_le
  cases act with
  | dispatch i p =>
    simp only [ringStep] at hst
    split at hst
    · split_ifs at hst
      cases hst
      rfl
    · cases hst
  | producer i =>
    obtain ⟨pc, hi, hst⟩ := Option.bind_eq_some_iff.mp hst
    obtain ⟨⟨r, pc', evts⟩, hp, rfl⟩ := Option.map_eq_some_iff.mp hst
    change (s.added ++ evts).map some = s.taken ++ _ at hq'
    rw [List.map_append, hq, List.append_assoc] at hq'
    have hput := List.append_cancel_left hq'
    change exec boundedStep ((s.producers[i]?).elim [] ProducerPc.ops) ⟨s.queue, s.added.map some, s.taken⟩ =
      some ⟨_, (s.added ++ evts).map some, s.taken⟩
    rw [← hput] at hlen ⊢
    rw [hi, Option.elim_some, List.map_append]
    rcases producerStep_ops hp with ⟨hops, rfl⟩ | ⟨p, hops, rfl⟩
    · rw [hops, List.map_nil, List.append_nil, List.append_nil]
      rfl
    · rw [List.length_append] at hlen
      have hroom : s.queue.length < ringSize := Nat.lt_of_succ_le hlen
      rw [hops, exec_singleton]
      exact if_pos hroom
  | consumer =>
    obtain ⟨⟨r, pc', evts⟩, hc, rfl⟩ := Option.map_eq_some_iff.mp hst
    change s.added.map some = s.taken ++ evts ++ _ at hq'
    rw [hq, List.append_assoc] at hq'
    change exec boundedStep s.consumer.ops ⟨s.queue, s.added.map some, s.taken⟩ =
      some ⟨_, s.added.map some, s.taken ++ evts⟩
    rw [List.append_cancel_left hq']
    rcases consumerStep_ops hc with ⟨hops, rfl⟩ | ⟨p, hops, rfl⟩
    · rw [hops, List.append_nil]
      rfl
    · rw [hops, exec_singleton]
      rfl

/-- The queue operations of a run, in their order. -/
def queueTrace (n : ℕ) (as : List (RingAct α)) : List (QueueOp (Option α)) :=
  trace ringStep queueOps as (Handover.init n)

/-- **A run is a run of the bounded queue**: the operations that the threads perform, each at its own
statement, can be performed one after the other on a bounded queue, which is empty at first, and leave it
with what is in the ring, put what was added and took what was taken. -/
theorem ring_queue {n : ℕ} {as : List (RingAct α)} {s : Handover α}
    (he : exec ringStep as (Handover.init n) = some s) :
    exec boundedStep (queueTrace n as) {} = some ⟨s.queue, s.added.map some, s.taken⟩ := by
  obtain ⟨q, hq, -, rfl⟩ := exec_trace (R := fun s q => HandoverOk s ∧ q = s.bounded)
    (fun act s t q h hst => by
      obtain ⟨hok, rfl⟩ := h
      exact ⟨t.bounded, ring_refines hok hst, handoverOk_step hok hst, rfl⟩)
    (⟨handoverOk_init n, rfl⟩ : HandoverOk (Handover.init (α := α) n) ∧ {} = (Handover.init n).bounded) he
  exact hq

/-- Two producers wait at the same time; the second one adds first, and its event is taken while the first one
adds. -/
def twoProducers : List (RingAct ℕ) :=
  [.dispatch 0 5, .dispatch 1 7] ++ List.replicate 7 (.producer 1) ++ List.replicate 2 .consumer ++
    List.replicate 6 (.producer 0) ++ List.replicate 5 .consumer

theorem ring_queue_twoProducers :
    queueTrace 2 twoProducers = [.put (some 7), .put (some 5), .take] ∧
      exec boundedStep (queueTrace 2 twoProducers) {} = some ⟨[some 5], [some 7, some 5], [some 7]⟩ := by
  have hrun : ∃ s, exec ringStep twoProducers (Handover.init 2) = some s ∧
      s.bounded = ⟨[some 5], [some 7, some 5], [some 7]⟩ := ⟨_, rfl, rfl⟩
  obtain ⟨s, hs, hq⟩ := hrun
  exact ⟨rfl, (ring_queue hs).trans (congrArg some hq)⟩

/-! ## No thread is left waiting -/

theorem producerStep_of_critical {r : Ring α} {pc : ProducerPc α} (h : 0 < pc.critical) :
    ∃ r' pc' evts, producerStep r pc = some (r', pc', evts) ∧ pc' ≠ pc := by
  cases pc with
  | locked p =>
    refine ⟨_, _, _, rfl, ?_⟩
    split_ifs <;> nofun
  | checked p => exact ⟨_, _, _, rfl, nofun⟩
  | stored p => exact ⟨_, _, _, rfl, nofun⟩
  | moved p => exact ⟨_, _, _, rfl, nofun⟩
  | added ret => exact ⟨_, _, _, rfl, nofun⟩
  | idle | waited | unlocked => exact absurd h (lt_irrefl 0)

theorem consumerStep_of_critical {r : Ring α} {pc : ConsumerPc α} (h : 0 < pc.critical) :
    ∃ r' pc' evts, consumerStep r pc = some (r', pc', evts) ∧ pc' ≠ pc := by
  cases pc with
  | locked =>
    refine ⟨_, _, _, rfl, ?_⟩
    split_ifs <;> nofun
  | checked => exact ⟨_, _, _, rfl, nofun⟩
  | moved k => exact ⟨_, _, _, rfl, nofun⟩
  | counted k => exact ⟨_, _, _, rfl, nofun⟩
  | deleted evt => exact ⟨_, _, _, rfl, nofun⟩
  | idle | ready | waited | unlocked => exact absurd h (lt_irrefl 0)

/-- With the lock free, whoever is past `sem_wait` can go on. -/
theorem producerStep_of_free {r : Ring α} {pc : ProducerPc α} (hfree : r.ringLock = false) (hc : pc.critical = 0)
    (hidle : pc ≠ .idle) : ∃ r' pc' evts, producerStep r pc = some (r', pc', evts) ∧ pc' ≠ pc := by
  cases pc with
  | idle => exact absurd rfl hidle
  | waited p => exact ⟨_, _, _, if_neg (by rw [hfree]; exact Bool.false_ne_true), nofun⟩
  | unlocked => exact ⟨_, _, _, rfl, nofun⟩
  | locked | checked | stored | moved | added => exact absurd hc Nat.one_ne_zero

/-- A thread that is at work can take a step, and not one of a consumer that goes round its loop. -/
def Moves (s : Handover α) : Prop :=
  ∃ act s', (∀ i p, act ≠ .dispatch i p) ∧ ringStep act s = some s' ∧ s' ≠ s

theorem moves_producer {s : Handover α} {pc : ProducerPc α} (hpc : pc ∈ s.producers)
    (h : ∃ r' pc' evts, producerStep s.ring pc = some (r', pc', evts) ∧ pc' ≠ pc) : Moves s := by
  obtain ⟨i, hi⟩ := List.mem_iff_getElem?.mp hpc
  obtain ⟨r', pc', evts, hst, hne⟩ := h
  refine ⟨.producer i, { s with ring := r', producers := s.producers.set i pc', added := s.added ++ evts }, nofun, ?_, ?_⟩
  · rw [ringStep, hi, Option.bind_some, hst]
    rfl
  · intro heq
    have hset : s.producers.set i pc' = s.producers := congrArg Handover.producers heq
    have hget := List.getElem?_set_self (a := pc') (List.getElem?_eq_some_iff.mp hi).1
    rw [hset, hi] at hget
    exact hne (Option.some.inj hget).symm

theorem moves_consumer {s : Handover α}
    (h : ∃ r' pc' evts, consumerStep s.ring s.consumer = some (r', pc', evts) ∧ pc' ≠ s.consumer) : Moves s := by
  obtain ⟨r', pc', evts, hst, hne⟩ := h
  refine ⟨.consumer, { s with ring := r', consumer := pc', taken := s.taken ++ evts }, nofun, ?_, ?_⟩
  · rw [ringStep, hst]
    rfl
  · intro heq
    exact hne (congrArg Handover.consumer heq)

/-- With all producers outside and the lock free, a consumer goes on while there is an event. -/
theorem HandoverOk.consumer_moves {s : Handover α} (h : HandoverOk s) (hidle : ∀ pc ∈ s.producers, pc = .idle)
    (hfree : s.ring.ringLock = false) (hc : s.consumer.critical = 0) (hq : s.queue ≠ []) :
    ∃ r' pc' evts, consumerStep s.ring s.consumer = some (r', pc', evts) ∧ pc' ≠ s.consumer := by
  have hcount : s.ring.count ≠ 0 := by
    intro hzero
    apply hq
    rw [Handover.queue, ConsumerPc.held_eq_nil _ hc, Handover.contents, hzero, Nat.zero_sub]
    rfl
  have hcontain := h.contain
  rw [weight_eq_zero fun pc hpc => by rw [hidle pc hpc]; rfl, Nat.add_zero] at hcontain
  cases hpc : s.consumer with
  | idle => exact ⟨_, _, _, rfl, by rw [if_pos (show s.ring.stat ≠ 0 from hcount)]; nofun⟩
  | ready =>
    rw [hpc, show (ConsumerPc.ready : ConsumerPc α).claims = 0 from rfl, Nat.add_zero] at hcontain
    have hne : s.ring.ringContain ≠ 0 := by rwa [hcontain]
    exact ⟨_, _, _, if_neg hne, nofun⟩
  | waited => exact ⟨_, _, _, if_neg (by rw [hfree]; exact Bool.false_ne_true), nofun⟩
  | unlocked => exact ⟨_, _, _, rfl, nofun⟩
  | locked | checked | moved | counted | deleted =>
    rw [hpc] at hc
    exact absurd hc Nat.one_ne_zero

/-- **No thread is left waiting**: in every state of every run, while a producer is at work or an event is in
the ring, some thread can go on. -/
theorem ring_moves (n : ℕ) (as : List (RingAct α)) :
    Always ringStep (fun s => (∃ pc ∈ s.producers, pc ≠ .idle) ∨ s.queue ≠ [] → Moves s) as (Handover.init n) := by
  intro pre s hpre hexec hwork
  have h := exec_invariant (I := HandoverOk) (fun _ _ _ h hst => handoverOk_step h hst) as (handoverOk_init n) pre s hpre hexec
  have hlock := h.lock
  cases hl : s.ring.ringLock with
  | true =>
    -- whoever has the lock goes on
    rw [hl, if_pos rfl] at hlock
    by_cases hcons : 0 < s.consumer.critical
    · exact moves_consumer (consumerStep_of_critical hcons)
    · obtain ⟨pc, hpc, hcrit⟩ := exists_of_weight_pos (w := ProducerPc.critical) (l := s.producers) (by omega)
      exact moves_producer hpc (producerStep_of_critical hcrit)
  | false =>
    rw [hl, if_neg Bool.false_ne_true] at hlock
    have hnone : ∀ pc ∈ s.producers, pc.critical = 0 := fun pc hpc => by
      have := le_weight (w := ProducerPc.critical) hpc
      omega
    by_cases hex : ∃ pc ∈ s.producers, pc ≠ .idle
    · obtain ⟨pc, hpc, hne⟩ := hex
      exact moves_producer hpc (producerStep_of_free hl (hnone pc hpc) hne)
    · have hidle : ∀ pc ∈ s.producers, pc = .idle := fun pc hpc => by
        by_contra hne
        exact hex ⟨pc, hpc, hne⟩
      exact moves_consumer (h.consumer_moves hidle hl (by omega) (hwork.resolve_left hex))

end Fms
