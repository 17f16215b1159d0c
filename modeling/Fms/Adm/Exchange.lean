import Fms.Adm.Client
import Fms.Lib.Run

/-!
# The exchange over `/fmadm`

The client (`fmd_adm_get_list` of lib/libadm/fmd_adm.c) and the daemon (`adm_probe` of
evt_modules/evtsrc/adm/evtsrc.adm.c, called once per interval) send and receive on one message
queue. All messages have priority 0, so the queue is first in, first out; a receive waits while it
is empty. The model tells who sent a message, `Packet.origin`; the code does not look at it.

* `ExchangeStep`: the inversion of `exchangeStep`;
* `always_oneMessage`: in every run there is at most one message;
* `Phase`: the states of an exchange in which all has gone right so far;
* **`receivesRightly_iff`**: all goes right in exactly the runs in which the client does not receive
  before the daemon has answered, and the daemon not before the client has asked again.
-/

namespace Fms

open CString Run

/-- Who put a message on the queue: the client its `n`-th request, or the daemon the reply to a
message. -/
inductive Origin where
  | request (n : ℕ)
  | reply (m : Origin)
  deriving DecidableEq, Repr

/-- A message on the queue. -/
structure Packet where
  body : Message
  origin : Origin
  deriving DecidableEq, Repr

/-- Where the client is: between two calls, or in `mq_receive` of `fmd_adm_get_list`. -/
inductive ClientPc where
  | ready
  | receiving
  deriving DecidableEq, Repr

/-- Where the daemon is: at `mq_receive` of `adm_probe`, or between it and `mq_send`. -/
inductive DaemonPc where
  | receiving
  | probing (p : Packet)
  deriving DecidableEq, Repr

/-- The queue and the two parties, with the numbers of messages that the client has sent, that the
daemon has taken and that it has sent. -/
structure Exchange where
  queue : List Packet := []
  client : ClientPc := .ready
  daemon : DaemonPc := .receiving
  sent : ℕ := 0
  taken : ℕ := 0
  answered : ℕ := 0
  deriving DecidableEq, Repr

/-- The steps; the reply depends on the daemon at the time. -/
inductive ExchangeAct where
  | clientSend (r : Request)
  | clientReceive
  | daemonReceive
  | daemonSend (env : AdmEnv) (fmd : Fmd)

variable (msgsize : ℕ)

/-- The step function, for a queue with messages of at most `msgsize` bytes: a longer reply is not
sent, and the daemon returns. -/
def exchangeStep : ExchangeAct → Exchange → Option Exchange
  | .clientSend r, s =>
    match s.client with
    | .ready =>
      r.encode.map fun cmd =>
        { s with
          queue := s.queue ++ [⟨.text cmd, .request (s.sent + 1)⟩]
          client := .receiving
          sent := s.sent + 1 }
    | .receiving => none
  | .clientReceive, s =>
    match s.client, s.queue with
    | .receiving, _ :: queue => some { s with queue := queue, client := .ready }
    | _, _ => none
  | .daemonReceive, s =>
    match s.daemon, s.queue with
    | .receiving, p :: queue =>
      some { s with queue := queue, daemon := .probing p, taken := s.taken + 1 }
    | _, _ => none
  | .daemonSend env fmd, s =>
    match s.daemon with
    | .probing p =>
      (admProbe env fmd p.body).map fun r =>
        if r.1.size ≤ msgsize then
          { s with
            queue := s.queue ++ [⟨r.1, .reply p.origin⟩]
            daemon := .receiving
            answered := s.answered + 1 }
        else { s with daemon := .receiving }
    | .receiving => none

/-- What a step does. -/
inductive ExchangeStep (s : Exchange) : ExchangeAct → Exchange → Prop
  | clientSend {r : Request} {cmd : CStr} (ready : s.client = .ready) (hcmd : r.encode = some cmd) :
      ExchangeStep s (.clientSend r)
        { s with
          queue := s.queue ++ [⟨.text cmd, .request (s.sent + 1)⟩]
          client := .receiving
          sent := s.sent + 1 }
  | clientReceive {p : Packet} {queue : List Packet} (receiving : s.client = .receiving)
      (head : s.queue = p :: queue) :
      ExchangeStep s .clientReceive { s with queue := queue, client := .ready }
  | daemonReceive {p : Packet} {queue : List Packet} (receiving : s.daemon = .receiving)
      (head : s.queue = p :: queue) :
      ExchangeStep s .daemonReceive
        { s with queue := queue, daemon := .probing p, taken := s.taken + 1 }
  | daemonSend {env : AdmEnv} {fmd : Fmd} {p : Packet} {r : Message × Fmd}
      (probing : s.daemon = .probing p) (hr : admProbe env fmd p.body = some r) :
      ExchangeStep s (.daemonSend env fmd)
        { s with
          queue := s.queue ++ [⟨r.1, .reply p.origin⟩]
          daemon := .receiving
          answered := s.answered + 1 }
  | daemonFail {env : AdmEnv} {fmd : Fmd} {p : Packet} {r : Message × Fmd}
      (probing : s.daemon = .probing p) (hr : admProbe env fmd p.body = some r) :
      ExchangeStep s (.daemonSend env fmd) { s with daemon := .receiving }

variable {msgsize}

theorem exchangeStep_cases {act : ExchangeAct} {s s' : Exchange}
    (h : exchangeStep msgsize act s = some s') : ExchangeStep s act s' := by
  cases act with
  | clientSend r =>
    simp only [exchangeStep] at h
    split at h
    · rename_i hc
      obtain ⟨cmd, hcmd, rfl⟩ := Option.map_eq_some_iff.mp h
      exact .clientSend hc hcmd
    · cases h
  | clientReceive =>
    simp only [exchangeStep] at h
    split at h
    · rename_i hc hq
      cases h
      exact .clientReceive hc hq
    · cases h
  | daemonReceive =>
    simp only [exchangeStep] at h
    split at h
    · rename_i hd hq
      cases h
      exact .daemonReceive hd hq
    · cases h
  | daemonSend env fmd =>
    simp only [exchangeStep] at h
    split at h
    · rename_i p hd
      obtain ⟨r, hr, h⟩ := Option.map_eq_some_iff.mp h
      split_ifs at h
      · subst h
        exact .daemonSend hd hr
      · subst h
        exact .daemonFail hd hr
    · cases h

/-! ## One message -/

/-- The request or reply that the client waits for. -/
def ClientPc.awaited : ClientPc → ℕ
  | .ready => 0
  | .receiving => 1

/-- The message that the daemon has taken and not answered. -/
def DaemonPc.held : DaemonPc → ℕ
  | .receiving => 0
  | .probing _ => 1

/-- On the queue and in the hands of the daemon there is at most one message, and none while the
client does not wait. -/
def Exchange.OneMessage (s : Exchange) : Prop :=
  s.queue.length + s.daemon.held ≤ s.client.awaited

theorem oneMessage_step {act : ExchangeAct} {s s' : Exchange} (h : s.OneMessage)
    (hst : ExchangeStep s act s') : s'.OneMessage := by
  unfold Exchange.OneMessage at h ⊢
  cases hst with
  | clientSend ready =>
    rw [ready] at h
    simp only [List.length_append, List.length_singleton, ClientPc.awaited] at h ⊢
    omega
  | clientReceive receiving head =>
    rw [receiving, head] at h
    simp only [List.length_cons, ClientPc.awaited] at h ⊢
    omega
  | daemonReceive receiving head =>
    rw [receiving, head] at h
    simpa only [List.length_cons, DaemonPc.held] using h
  | daemonSend probing =>
    rw [probing] at h
    simpa only [List.length_append, List.length_singleton, DaemonPc.held] using h
  | daemonFail probing =>
    rw [probing] at h
    simp only [DaemonPc.held] at h ⊢
    omega

/-- Whatever the order of the steps, there is never more than one message: the queue cannot fill. -/
theorem always_oneMessage (msgsize : ℕ) (as : List ExchangeAct) :
    Always (exchangeStep msgsize) Exchange.OneMessage as {} :=
  exec_invariant (fun _ _ _ h hst => oneMessage_step h (exchangeStep_cases hst)) as (le_refl 0)

/-! ## Right and wrong receives -/

/-- What the client receives is the reply to the request it has just sent, and what the daemon takes
is a request. -/
def ReceivesRightly : ExchangeAct → Exchange → Exchange → Prop
  | .clientReceive, s, _ => ∃ p queue, s.queue = p :: queue ∧ p.origin = .reply (.request s.sent)
  | .daemonReceive, s, _ => ∃ p queue n, s.queue = p :: queue ∧ p.origin = .request n
  | _, _, _ => True

/-- The client receives when the daemon has answered as many messages as it has sent, the daemon
when it has taken fewer. -/
def InTurn : ExchangeAct → Exchange → Prop
  | .clientReceive, s => s.answered = s.sent
  | .daemonReceive, s => s.taken < s.sent
  | _, _ => True

/-- The phases of an exchange in which all has gone right so far. -/
inductive Phase (s : Exchange) : Prop
  | idle (client : s.client = .ready) (daemon : s.daemon = .receiving) (queue : s.queue = [])
      (taken : s.taken = s.sent) (answered : s.answered = s.sent)
  | requested (p : Packet) (client : s.client = .receiving) (daemon : s.daemon = .receiving)
      (queue : s.queue = [p]) (origin : p.origin = .request s.sent) (taken : s.taken + 1 = s.sent)
      (answered : s.answered + 1 = s.sent)
  | probing (p : Packet) (client : s.client = .receiving) (daemon : s.daemon = .probing p)
      (queue : s.queue = []) (origin : p.origin = .request s.sent) (taken : s.taken = s.sent)
      (answered : s.answered + 1 = s.sent)
  | replied (p : Packet) (client : s.client = .receiving) (daemon : s.daemon = .receiving)
      (queue : s.queue = [p]) (origin : p.origin = .reply (.request s.sent))
      (taken : s.taken = s.sent) (answered : s.answered = s.sent)
  | unanswered (client : s.client = .receiving) (daemon : s.daemon = .receiving)
      (queue : s.queue = [])

/-- In each phase a receive is right exactly if it comes in turn. -/
theorem receivesRightly_step {s s' : Exchange} {act : ExchangeAct} (h : Phase s)
    (hst : ExchangeStep s act s') : ReceivesRightly act s s' ↔ InTurn act s := by
  cases hst with
  | clientReceive receiving head =>
    cases h with
    | idle client => simp [client] at receiving
    | requested p _ _ queue origin _ answered =>
      apply iff_of_false
      · rintro ⟨p', q, hq, ho⟩
        rw [queue, List.cons.injEq] at hq
        rw [← hq.1, origin] at ho
        cases ho
      · intro h
        have : s.answered = s.sent := h
        omega
    | probing _ _ _ queue => simp [queue] at head
    | replied p _ _ queue origin _ answered =>
      exact iff_of_true ⟨p, [], queue, origin⟩ answered
    | unanswered _ _ queue => simp [queue] at head
  | daemonReceive receiving head =>
    cases h with
    | idle _ _ queue => simp [queue] at head
    | requested p _ _ queue origin taken _ =>
      refine iff_of_true ⟨p, [], _, queue, origin⟩ ?_
      show s.taken < s.sent
      omega
    | probing _ _ daemon => simp [daemon] at receiving
    | replied p _ _ queue origin taken _ =>
      apply iff_of_false
      · rintro ⟨p', q, n, hq, ho⟩
        rw [queue, List.cons.injEq] at hq
        rw [← hq.1, origin] at ho
        cases ho
      · intro h
        have : s.taken < s.sent := h
        omega
    | unanswered _ _ queue => simp [queue] at head
  | clientSend | daemonSend | daemonFail => exact Iff.rfl

theorem phase_step {s s' : Exchange} {act : ExchangeAct} (h : Phase s)
    (hr : ReceivesRightly act s s') (hst : ExchangeStep s act s') : Phase s' := by
  have hturn := (receivesRightly_step h hst).mp hr
  cases hst with
  | clientSend ready hcmd =>
    cases h with
    | idle _ daemon queue taken answered =>
      exact .requested _ rfl daemon (by rw [queue]; rfl) rfl (by rw [taken]) (by rw [answered])
    | requested _ client | probing _ client | replied _ client | unanswered client =>
      simp [client] at ready
  | clientReceive receiving head =>
    have hanswered : s.answered = s.sent := hturn
    cases h with
    | idle client => simp [client] at receiving
    | requested _ _ _ _ _ _ answered => omega
    | probing _ _ _ queue | unanswered _ _ queue => simp [queue] at head
    | replied p _ daemon queue _ taken answered =>
      rw [queue, List.cons.injEq] at head
      exact .idle rfl daemon head.2.symm taken answered
  | daemonReceive receiving head =>
    have htaken : s.taken < s.sent := hturn
    cases h with
    | idle _ _ queue | unanswered _ _ queue => simp [queue] at head
    | probing _ _ daemon => simp [daemon] at receiving
    | replied _ _ _ _ _ taken => omega
    | requested p client _ queue origin taken answered =>
      rw [queue, List.cons.injEq] at head
      exact .probing _ client rfl head.2.symm (head.1 ▸ origin) taken answered
  | daemonSend probing hp =>
    cases h with
    | idle _ daemon | requested _ _ daemon | replied _ _ daemon | unanswered _ daemon =>
      simp [daemon] at probing
    | probing p client daemon queue origin taken answered =>
      rw [daemon, DaemonPc.probing.injEq] at probing
      exact .replied _ client rfl (by rw [queue]; rfl) (by rw [← probing, origin]) taken answered
  | daemonFail probing hp =>
    cases h with
    | idle _ daemon | requested _ _ daemon | replied _ _ daemon | unanswered _ daemon =>
      simp [daemon] at probing
    | probing p client daemon queue => exact .unanswered client rfl queue

/-- **All goes right in exactly the runs whose receives come in turn.** -/
theorem receivesRightly_iff (msgsize : ℕ) (as : List ExchangeAct) :
    EveryStep (exchangeStep msgsize) ReceivesRightly as {} ↔
      EveryStep (exchangeStep msgsize) (fun act s _ => InTurn act s) as {} :=
  everyStep_congr (I := Phase)
    (fun _ s s' h hr (hst : exchangeStep msgsize _ s = some s') =>
      phase_step h hr (exchangeStep_cases hst))
    (fun _ _ _ h hst => receivesRightly_step h (exchangeStep_cases hst)) as
    (.idle rfl rfl rfl rfl rfl)

/-- Between two probes of the daemon the client receives its own request. If it waits for the reply,
the daemon may take the reply as the next request. -/
theorem receivesRightly_fails :
    ¬ EveryStep (exchangeStep 8192) ReceivesRightly [.clientSend .getModlist, .clientReceive] {} ∧
      ¬ EveryStep (exchangeStep 8192) ReceivesRightly
        [.clientSend .getModlist, .daemonReceive, .daemonSend ⟨fun _ => none, fun _ _ _ => none⟩ {},
          .daemonReceive] {} := by
  constructor
  · intro h
    obtain ⟨p, queue, hq, ho⟩ := h [.clientSend .getModlist] .clientReceive _ _ List.prefix_rfl rfl rfl
    cases hq
    cases ho
  · intro h
    obtain ⟨p, queue, n, hq, ho⟩ := h [.clientSend .getModlist, .daemonReceive,
      .daemonSend ⟨fun _ => none, fun _ _ _ => none⟩ {}] .daemonReceive _ _ List.prefix_rfl rfl rfl
    cases hq
    cases ho

end Fms
