import BitTorrentInfra.Umio.Dispatcher

/-!
Runs of the dispatcher: the events the event loop delivers, one step for each, and the
record of the datagrams the socket accepted and those the callbacks enqueued.

The handler panics on two events only: a write readiness whose send fails while a datagram
is queued, and a tick whose reregistration fails. On every run from `DispatchHandler::new`
the outbound queue keeps its order: the datagrams that left it, followed by the queue, are
those enqueued, the socket accepted a subsequence of those that left, and each write
readiness takes at most the head. A write whose send would block takes its datagram off the
queue without sending it; on a run where no send blocks nothing is lost. The buffers are
conserved except for one lost by each read that finds no datagram, and there are never more
of them than one past the longest the queue has been.
-/

namespace BitTorrentInfra.Umio

/-- An event the loop delivers to the handler, with the outcomes of the socket and event-loop
calls it leads to. -/
inductive Event (Message Timeout : Type)
  | ready (token : Token) (events : EventSet) (send : SendOutcome) (recv : RecvOutcome)
  | notify (msg : Message)
  | timeout (t : Timeout)
  | tick (reregister : RegisterOutcome)

/-- A read in the event, if any, delivers a datagram. -/
def Event.ReadsDatagram {Message Timeout : Type} : Event Message Timeout → Prop
  | .ready _ events _ recv => events.isReadable → ∃ bytes addr, recv = .datagram bytes addr
  | _ => True

/-- Whether the event's write, if any, meets a send that would block. -/
def Event.sendBlocks {Message Timeout : Type} : Event Message Timeout → Bool
  | .ready _ events send _ => events.isWritable && send == .wouldBlock
  | _ => false

/-- Whether the event is a write readiness of the socket. -/
def Event.isWrite {Message Timeout : Type} : Event Message Timeout → Bool
  | .ready token events _ _ => decide (token = udpSocketToken) && events.isWritable
  | _ => false

namespace DispatchHandler

variable {σ Message Timeout : Type}

/-- The handler's entry point for one event; `none` if it panics. -/
def step (D : Dispatcher σ Message Timeout) (h : DispatchHandler σ) :
    Event Message Timeout → Option (DispatchHandler σ × StepLog)
  | .ready token events send recv => h.ready D token events send recv
  | .notify msg => some (h.notify D msg)
  | .timeout t => some (h.timeout D t)
  | .tick reregister => (h.tick reregister).map fun h' => (h', ⟨[], []⟩)

theorem step_queued {D : Dispatcher σ Message Timeout} {h h' : DispatchHandler σ}
    {e : Event Message Timeout} {log : StepLog} (hs : h.step D e = some (h', log)) :
    ∃ p, p.length ≤ (if e.isWrite then 1 else 0) ∧
      h.queued ++ log.enqueued = p ++ h'.queued ∧ log.sent.Sublist p := by
  cases e with
  | ready token events send recv =>
      obtain ⟨p, hl, hq, hs⟩ := ready_queued hs
      exact ⟨p, by simpa [Event.isWrite] using hl, hq, hs⟩
  | notify msg | timeout t =>
      cases hs; exact ⟨[], Nat.zero_le _, (provide_queued _ _).symm, .slnil⟩
  | tick r => cases r <;> cases hs; exact ⟨[], Nat.zero_le _, by simp [queued], .slnil⟩

theorem step_lossless {D : Dispatcher σ Message Timeout} {h h' : DispatchHandler σ}
    {e : Event Message Timeout} {log : StepLog} (hb : e.sendBlocks = false)
    (hs : h.step D e = some (h', log)) : h.queued ++ log.enqueued = log.sent ++ h'.queued := by
  cases e with
  | ready token events send recv =>
      exact ready_lossless (fun hw he => by simp [Event.sendBlocks, hw, he] at hb) hs
  | notify msg | timeout t => cases hs; exact (provide_queued _ _).symm
  | tick r => cases r <;> cases hs; simp [queued]

theorem step_bufferCount {D : Dispatcher σ Message Timeout} {h h' : DispatchHandler σ}
    {e : Event Message Timeout} {log : StepLog} (hs : h.step D e = some (h', log))
    (he : e.ReadsDatagram) : h.bufferCount ≤ h'.bufferCount := by
  cases e with
  | ready token events send recv => exact (ready_bufferCount hs).2 he
  | notify msg | timeout t => cases hs; exact provide_bufferCount _ _
  | tick r => cases r <;> cases hs; exact le_rfl

theorem step_bufferCount_le {D : Dispatcher σ Message Timeout} {h h' : DispatchHandler σ}
    {e : Event Message Timeout} {log : StepLog} (hs : h.step D e = some (h', log)) :
    h'.bufferCount ≤ max h.bufferCount (h'.outQueue.length + 1) := by
  cases e with
  | ready token events send recv => exact ready_bufferCount_le hs
  | notify msg | timeout t =>
      cases hs
      exact (provide_bufferCount_eq _ _).le.trans (max_le_max le_rfl (Nat.le_succ _))
  | tick r => cases r <;> cases hs; exact le_max_left _ _

end DispatchHandler

/-- A dispatcher with the record of its run: the datagrams the socket accepted and those
enqueued, in order. -/
structure System (σ : Type) where
  handler : DispatchHandler σ
  sent : List Datagram
  enqueued : List Datagram

namespace System

variable {σ Message Timeout : Type}

def start (bufferSize : Nat) (dispatch : σ) : System σ :=
  ⟨DispatchHandler.new bufferSize dispatch, [], []⟩

def step (D : Dispatcher σ Message Timeout) (s : System σ) (e : Event Message Timeout) :
    Option (System σ) :=
  (s.handler.step D e).map fun r => ⟨r.1, s.sent ++ r.2.sent, s.enqueued ++ r.2.enqueued⟩

/-- The events in order; `none` once one panics. -/
def run (D : Dispatcher σ Message Timeout) (s : System σ) :
    List (Event Message Timeout) → Option (System σ)
  | [] => some s
  | e :: es => (s.step D e).bind fun s' => s'.run D es

theorem run_cons {D : Dispatcher σ Message Timeout} {s s' : System σ} {e : Event Message Timeout}
    {es : List (Event Message Timeout)} (h : s.run D (e :: es) = some s') :
    ∃ s₁, s.step D e = some s₁ ∧ s₁.run D es = some s' := by
  simp only [run, Option.bind_eq_some] at h
  exact h

/-- What left the queue, followed by the queue, is what was enqueued, the socket accepted a
subsequence of what left, and at most `n` datagrams left. -/
def QueueOrder (n : Nat) (s : System σ) : Prop :=
  ∃ left, left ++ s.handler.queued = s.enqueued ∧ s.sent.Sublist left ∧ left.length ≤ n

theorem queueOrder_step {D : Dispatcher σ Message Timeout} {s s' : System σ}
    {e : Event Message Timeout} {n : Nat} (hs : s.QueueOrder n) (h : s.step D e = some s') :
    s'.QueueOrder (n + if e.isWrite then 1 else 0) := by
  obtain ⟨⟨h', log⟩, hst, rfl⟩ := Option.map_eq_some'.1 h
  obtain ⟨left, hl, hsub, hn⟩ := hs
  obtain ⟨p, hp, hq, hps⟩ := DispatchHandler.step_queued hst
  exact ⟨left ++ p, by simp only [← hl, List.append_assoc, hq], hsub.append hps,
    (List.length_append _ _).trans_le (Nat.add_le_add hn hp)⟩

theorem queueOrder_run {D : Dispatcher σ Message Timeout} {s s' : System σ}
    {es : List (Event Message Timeout)} {n : Nat} (hs : s.QueueOrder n)
    (h : s.run D es = some s') : s'.QueueOrder (n + es.countP Event.isWrite) := by
  induction es generalizing s n with
  | nil => cases h; exact hs
  | cons e es ih =>
      obtain ⟨s₁, h₁, h₂⟩ := run_cons h
      rw [List.countP_cons, Nat.add_comm (es.countP _), ← Nat.add_assoc]
      exact ih (queueOrder_step hs h₁) h₂

/-- On every run from `new` that does not panic the outbound queue is a FIFO without
duplicates: what left the queue, followed by the queue, is what was enqueued, the socket
accepted a subsequence of what left, and no more datagrams left than the run had write
readinesses of the socket. -/
theorem run_queue_in_order (D : Dispatcher σ Message Timeout) (bufferSize : Nat) (dispatch : σ)
    (events : List (Event Message Timeout)) (s : System σ)
    (h : (start bufferSize dispatch).run D events = some s) :
    ∃ left, left ++ s.handler.queued = s.enqueued ∧ s.sent.Sublist left ∧
      left.length ≤ events.countP Event.isWrite := by
  simpa using queueOrder_run (n := 0) ⟨[], rfl, .slnil, le_rfl⟩ h

/-- A notification of one datagram to send, then a write readiness whose send would block. -/
def notifyThenBlockedWrite : List (Event Datagram Unit) :=
  [.notify ([1, 2, 3], localAddr), .ready udpSocketToken EventSet.writable .wouldBlock .wouldBlock]

theorem run_queue_in_order_echo :
    ∃ s, (start 1500 ()).run echo notifyThenBlockedWrite = some s ∧
      ∃ left, left ++ s.handler.queued = s.enqueued ∧ s.sent.Sublist left ∧
        left.length ≤ notifyThenBlockedWrite.countP Event.isWrite :=
  ⟨_, rfl, run_queue_in_order echo 1500 () notifyThenBlockedWrite _ rfl⟩

/-- Nothing enqueued has been lost: what the socket accepted, followed by the queue, is what
was enqueued. -/
def Lossless (s : System σ) : Prop := s.sent ++ s.handler.queued = s.enqueued

theorem lossless_step {D : Dispatcher σ Message Timeout} {s s' : System σ}
    {e : Event Message Timeout} (hb : e.sendBlocks = false) (hs : s.Lossless)
    (h : s.step D e = some s') : s'.Lossless := by
  obtain ⟨⟨h', log⟩, hst, rfl⟩ := Option.map_eq_some'.1 h
  show (s.sent ++ log.sent) ++ h'.queued = s.enqueued ++ log.enqueued
  rw [← hs, List.append_assoc, List.append_assoc, DispatchHandler.step_lossless hb hst]

theorem lossless_run {D : Dispatcher σ Message Timeout} {s s' : System σ}
    {es : List (Event Message Timeout)} (hb : ∀ e ∈ es, e.sendBlocks = false) (hs : s.Lossless)
    (h : s.run D es = some s') : s'.Lossless := by
  induction es generalizing s with
  | nil => cases h; exact hs
  | cons e es ih =>
      obtain ⟨s₁, h₁, h₂⟩ := run_cons h
      exact ih (fun e' he' => hb e' (.tail _ he')) (lossless_step (hb e (.head _)) hs h₁) h₂

/-- On every run from `new` that does not panic and in which no send would block, the
outbound queue is a lossless FIFO: the datagrams the socket accepted, followed by those still
queued, are exactly those enqueued, in order. -/
theorem run_lossless (D : Dispatcher σ Message Timeout) (bufferSize : Nat) (dispatch : σ)
    (events : List (Event Message Timeout)) (s : System σ)
    (h : (start bufferSize dispatch).run D events = some s)
    (hb : ∀ e ∈ events, e.sendBlocks = false) : s.sent ++ s.handler.queued = s.enqueued :=
  lossless_run (s := start bufferSize dispatch) hb rfl h

/-- A notification of one datagram to send, then a write readiness whose send goes through. -/
def notifyThenWrite : List (Event Datagram Unit) :=
  [.notify ([1, 2, 3], localAddr), .ready udpSocketToken EventSet.writable (.sent 3) .wouldBlock]

theorem run_lossless_echo :
    (∀ e ∈ notifyThenWrite, e.sendBlocks = false) ∧
      ∃ s, (start 1500 ()).run echo notifyThenWrite = some s ∧
        s.sent ++ s.handler.queued = s.enqueued :=
  have hb : ∀ e ∈ notifyThenWrite, e.sendBlocks = false := by decide
  ⟨hb, _, rfl, run_lossless echo 1500 () notifyThenWrite _ rfl hb⟩

/-- Along a run whose reads all deliver a datagram, the dispatcher never holds fewer
buffers. -/
theorem run_bufferCount_mono {D : Dispatcher σ Message Timeout} {s s' : System σ}
    {events : List (Event Message Timeout)} (h : s.run D events = some s')
    (hr : ∀ e ∈ events, e.ReadsDatagram) :
    s.handler.bufferCount ≤ s'.handler.bufferCount := by
  induction events generalizing s with
  | nil => cases h; exact le_rfl
  | cons e es ih =>
      obtain ⟨s₁, h₁, h₂⟩ := run_cons h
      obtain ⟨⟨h', log⟩, hst, rfl⟩ := Option.map_eq_some'.1 h₁
      exact (DispatchHandler.step_bufferCount hst (hr e (.head _))).trans
        (ih h₂ fun e' he' => hr e' (.tail _ he'))

/-- The longest the outbound queue is after any event of the run, the start included; a
panicking event ends the run. -/
def peakQueued (D : Dispatcher σ Message Timeout) :
    System σ → List (Event Message Timeout) → Nat
  | s, [] => s.handler.outQueue.length
  | s, e :: es =>
      max s.handler.outQueue.length
        (match s.step D e with
          | some s' => peakQueued D s' es
          | none => 0)

theorem outQueue_length_le_peakQueued (D : Dispatcher σ Message Timeout) (s : System σ)
    (es : List (Event Message Timeout)) : s.handler.outQueue.length ≤ peakQueued D s es := by
  cases es with
  | nil => exact le_rfl
  | cons e es => exact le_max_left _ _

theorem bufferCount_le_peakQueued {D : Dispatcher σ Message Timeout} {s s' : System σ}
    {es : List (Event Message Timeout)} (h : s.run D es = some s') :
    s'.handler.bufferCount ≤ max s.handler.bufferCount (peakQueued D s es + 1) := by
  induction es generalizing s with
  | nil => cases h; exact le_max_left _ _
  | cons e es ih =>
      obtain ⟨s₁, h₁, h₂⟩ := run_cons h
      obtain ⟨⟨h', log⟩, hst, rfl⟩ := Option.map_eq_some'.1 h₁
      have hstep := DispatchHandler.step_bufferCount_le hst
      have hrest := ih h₂
      have hq :=
        outQueue_length_le_peakQueued D ⟨h', s.sent ++ log.sent, s.enqueued ++ log.enqueued⟩ es
      simp only [peakQueued, h₁] at hrest hq ⊢
      omega

/-- The pool makes a buffer only when it has none free, so on every run from `new` that does
not panic the dispatcher holds, free or queued, at most one buffer more than the longest the
outbound queue has been. -/
theorem run_bufferCount_le_peak (D : Dispatcher σ Message Timeout) (bufferSize : Nat)
    (dispatch : σ) (events : List (Event Message Timeout)) (s : System σ)
    (h : (start bufferSize dispatch).run D events = some s) :
    s.handler.bufferCount ≤ peakQueued D (start bufferSize dispatch) events + 1 := by
  have := bufferCount_le_peakQueued h
  simpa [start, DispatchHandler.new, DispatchHandler.bufferCount, BufferPool.new, BufferPool.len]
    using this

theorem run_bufferCount_le_peak_echo :
    ∃ s, (start 1500 ()).run echo notifyThenWrite = some s ∧
      s.handler.bufferCount ≤ peakQueued echo (start 1500 ()) notifyThenWrite + 1 :=
  ⟨_, rfl, run_bufferCount_le_peak echo 1500 () notifyThenWrite _ rfl⟩

/-- A read readiness that delivers one datagram. -/
def readOne : List (Event Datagram Unit) :=
  [.ready udpSocketToken EventSet.readable (.sent 0) (.datagram [1, 2, 3] localAddr)]

theorem run_bufferCount_mono_echo :
    ∃ s, (start 1500 ()).run echo readOne = some s ∧
      (start 1500 () : System Unit).handler.bufferCount ≤ s.handler.bufferCount :=
  ⟨_, rfl, @run_bufferCount_mono _ _ _ echo _ _ readOne rfl fun e he => by
    simp only [readOne, List.mem_singleton] at he; subst he; exact fun _ => ⟨_, _, rfl⟩⟩

end System

end BitTorrentInfra.Umio
