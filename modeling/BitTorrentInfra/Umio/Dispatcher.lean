import BitTorrentInfra.Umio.Buffer

/-!
`DispatchHandler` of `umio`: the single-socket UDP dispatcher and its entry points `ready`,
`notify`, `timeout` and `tick`, as `dispatcher.rs` writes them. The socket is not modelled
as such: each entry point takes the outcomes of the socket calls it makes and returns the
handler's new state with a log of the datagrams the socket accepted and those put on the
outbound queue. A panic is `none`.

The `provider` module is not among the sources. A callback's requests are modelled from the
specification as the datagrams it sends, each through a buffer taken from the pool and put
at the back of the outbound queue. The provider's timeouts and notification channel leave
the pool and the queue alone and are not modelled. The reregistration in `tick` is modelled
by its outcome, a failure panicking in its `unwrap`; the registration in `new` comes before
there is a handler, and runs start from a registered one.
-/

namespace BitTorrentInfra.Umio

/-- A peer's address, opaque to the dispatcher. -/
structure SocketAddr where
  ip : Bytes
  port : UInt16
  deriving DecidableEq, Repr

/-- A datagram: its bytes and the address it goes to or comes from. -/
abbrev Datagram := Bytes × SocketAddr

/-- `mio::Token`. -/
abbrev Token := Nat

def udpSocketToken : Token := 2

/-- `mio::EventSet`, restricted to the two readiness kinds the dispatcher uses. -/
structure EventSet where
  isReadable : Bool
  isWritable : Bool
  deriving DecidableEq, Repr

def EventSet.readable : EventSet := ⟨true, false⟩

def EventSet.writable : EventSet := ⟨false, true⟩

/-- `EventSet | EventSet`. -/
def EventSet.union (a b : EventSet) : EventSet :=
  ⟨a.isReadable || b.isReadable, a.isWritable || b.isWritable⟩

/-- What `UdpSocket::recv_from` returns: a datagram, `Ok(None)` when none is waiting, or an
I/O error. -/
inductive RecvOutcome
  | datagram (bytes : Bytes) (addr : SocketAddr)
  | wouldBlock
  | ioError
  deriving DecidableEq, Repr

/-- What `UdpSocket::send_to` returns: the count sent, `Ok(None)` when it would block, or an
I/O error. -/
inductive SendOutcome
  | sent (count : Nat)
  | wouldBlock
  | ioError
  deriving DecidableEq, Repr

/-- What `EventLoop::reregister` returns: success, or an I/O error. -/
inductive RegisterOutcome
  | ok
  | ioError
  deriving DecidableEq, Repr

/-- The user's handler. Each callback returns its new state and, modelled from the spec,
the datagrams it sends through its provider. -/
structure Dispatcher (σ Message Timeout : Type) where
  incoming : σ → Bytes → SocketAddr → σ × List Datagram
  notify : σ → Message → σ × List Datagram
  timeout : σ → Timeout → σ × List Datagram

/-- What a step did outside the handler: the datagrams the socket accepted and those put on
the outbound queue, in order. -/
structure StepLog where
  sent : List Datagram
  enqueued : List Datagram
  deriving DecidableEq

/-- A handler that answers each datagram with a copy to its sender and sends each datagram
it is notified of. -/
def echo : Dispatcher Unit Datagram Unit :=
  ⟨fun _ bytes addr => ((), [(bytes, addr)]), fun _ d => ((), [d]), fun _ _ => ((), [])⟩

def localAddr : SocketAddr := ⟨[127, 0, 0, 1], 6881⟩

structure DispatchHandler (σ : Type) where
  dispatch : σ
  outQueue : List (Buffer × SocketAddr)
  bufferPool : BufferPool
  currentSet : EventSet
  deriving DecidableEq

namespace DispatchHandler

variable {σ Message Timeout : Type}

def new (bufferSize : Nat) (dispatch : σ) : DispatchHandler σ :=
  ⟨dispatch, [], BufferPool.new bufferSize, EventSet.readable⟩

/-- The buffers the dispatcher holds: free in the pool or waiting in the queue. -/
def bufferCount (h : DispatchHandler σ) : Nat := h.bufferPool.len + h.outQueue.length

/-- The datagrams waiting in the outbound queue, head first. -/
def queued (h : DispatchHandler σ) : List Datagram := h.outQueue.map fun e => (e.1.written, e.2)

/-- Modelled from the spec: the provider's send, a buffer from the pool filled with the
datagram and put at the back of the outbound queue. -/
def outgoing (h : DispatchHandler σ) (d : Datagram) : DispatchHandler σ × Datagram :=
  let buffer := h.bufferPool.pop.1.fill d.1
  ({ h with bufferPool := h.bufferPool.pop.2, outQueue := h.outQueue ++ [(buffer, d.2)] },
    (buffer.written, d.2))

/-- A callback's sends in order, with the datagrams as they were enqueued. -/
def provide (h : DispatchHandler σ) : List Datagram → DispatchHandler σ × List Datagram
  | [] => (h, [])
  | d :: ds =>
      let o := h.outgoing d
      let p := o.1.provide ds
      (p.1, o.2 :: p.2)

def handleWrite (h : DispatchHandler σ) (send : SendOutcome) :
    Option (DispatchHandler σ × List Datagram) :=
  match h.outQueue with
  | [] => some (h, [])
  | (buffer, addr) :: rest =>
      match send with
      | .ioError => none
      | .sent _ =>
          some ({ h with outQueue := rest, bufferPool := h.bufferPool.push buffer },
            [(buffer.written, addr)])
      | .wouldBlock =>
          some ({ h with outQueue := rest, bufferPool := h.bufferPool.push buffer }, [])

def handleRead (h : DispatchHandler σ) (recv : RecvOutcome) :
    DispatchHandler σ × Option (Buffer × SocketAddr) :=
  let h' := { h with bufferPool := h.bufferPool.pop.2 }
  match recv with
  | .datagram bytes addr => (h', some (h.bufferPool.pop.1.fill bytes, addr))
  | .wouldBlock | .ioError => (h', none)

/-- The read half of `ready`: on a datagram, hand it to `incoming` and return its buffer. -/
def readReady (D : Dispatcher σ Message Timeout) (h : DispatchHandler σ) (recv : RecvOutcome) :
    DispatchHandler σ × List Datagram :=
  match h.handleRead recv with
  | (h, none) => (h, [])
  | (h, some (buffer, addr)) =>
      let r := D.incoming h.dispatch buffer.written addr
      let p := h.provide r.2
      ({ p.1 with dispatch := r.1, bufferPool := p.1.bufferPool.push buffer }, p.2)

def ready (D : Dispatcher σ Message Timeout) (h : DispatchHandler σ) (token : Token)
    (events : EventSet) (send : SendOutcome) (recv : RecvOutcome) :
    Option (DispatchHandler σ × StepLog) :=
  if token ≠ udpSocketToken then some (h, ⟨[], []⟩)
  else
    match (if events.isWritable then h.handleWrite send else some (h, [])) with
    | none => none
    | some (h, sent) =>
        if events.isReadable then
          some ((h.readReady D recv).1, ⟨sent, (h.readReady D recv).2⟩)
        else some (h, ⟨sent, []⟩)

def notify (D : Dispatcher σ Message Timeout) (h : DispatchHandler σ) (msg : Message) :
    DispatchHandler σ × StepLog :=
  let r := D.notify h.dispatch msg
  let p := h.provide r.2
  ({ p.1 with dispatch := r.1 }, ⟨[], p.2⟩)

def timeout (D : Dispatcher σ Message Timeout) (h : DispatchHandler σ) (t : Timeout) :
    DispatchHandler σ × StepLog :=
  let r := D.timeout h.dispatch t
  let p := h.provide r.2
  ({ p.1 with dispatch := r.1 }, ⟨[], p.2⟩)

/-- Subscribe to write readiness exactly while datagrams are waiting, and reregister the
socket with that interest. -/
def tick (h : DispatchHandler σ) (reregister : RegisterOutcome) : Option (DispatchHandler σ) :=
  match reregister with
  | .ok => some { h with currentSet :=
      if h.outQueue.isEmpty then EventSet.readable else EventSet.readable.union EventSet.writable }
  | .ioError => none

theorem outgoing_queued (h : DispatchHandler σ) (d : Datagram) :
    (h.outgoing d).1.queued = h.queued ++ [(h.outgoing d).2] := by
  simp [outgoing, queued]

theorem outgoing_bufferCount (h : DispatchHandler σ) (d : Datagram) :
    h.bufferCount ≤ (h.outgoing d).1.bufferCount := by
  simp only [outgoing, bufferCount, BufferPool.pop_len, List.length_append, List.length_singleton]
  omega

theorem provide_queued (h : DispatchHandler σ) (ds : List Datagram) :
    (h.provide ds).1.queued = h.queued ++ (h.provide ds).2 := by
  induction ds generalizing h with
  | nil => simp [provide]
  | cons d ds ih => simp [provide, ih, outgoing_queued]

theorem provide_bufferCount (h : DispatchHandler σ) (ds : List Datagram) :
    h.bufferCount ≤ (h.provide ds).1.bufferCount := by
  induction ds generalizing h with
  | nil => exact le_rfl
  | cons d ds ih => exact (outgoing_bufferCount h d).trans (ih _)

@[simp] theorem outgoing_outQueue_length (h : DispatchHandler σ) (d : Datagram) :
    (h.outgoing d).1.outQueue.length = h.outQueue.length + 1 := by
  simp [outgoing]

theorem outgoing_bufferCount_eq (h : DispatchHandler σ) (d : Datagram) :
    (h.outgoing d).1.bufferCount = max h.bufferCount (h.outQueue.length + 1) := by
  simp only [outgoing, bufferCount, BufferPool.pop_len, List.length_append, List.length_singleton]
  omega

@[simp] theorem provide_outQueue_length (h : DispatchHandler σ) (ds : List Datagram) :
    (h.provide ds).1.outQueue.length = h.outQueue.length + ds.length := by
  induction ds generalizing h with
  | nil => rfl
  | cons d ds ih => simp only [provide, ih, outgoing_outQueue_length, List.length_cons]; omega

theorem provide_bufferCount_eq (h : DispatchHandler σ) (ds : List Datagram) :
    (h.provide ds).1.bufferCount = max h.bufferCount (h.provide ds).1.outQueue.length := by
  induction ds generalizing h with
  | nil => simp only [provide, bufferCount]; omega
  | cons d ds ih =>
      have hq := provide_outQueue_length (h.outgoing d).1 ds
      have := outgoing_outQueue_length h d
      simp only [provide, ih, outgoing_bufferCount_eq]
      omega

theorem handleWrite_some {h h' : DispatchHandler σ} {send : SendOutcome} {sent : List Datagram}
    (hw : h.handleWrite send = some (h', sent)) :
    ∃ p, p.length ≤ 1 ∧ h.queued = p ++ h'.queued ∧ sent.Sublist p ∧
      h'.bufferCount = h.bufferCount := by
  unfold handleWrite at hw
  split at hw
  · cases hw; exact ⟨[], Nat.zero_le _, rfl, .slnil, rfl⟩
  · rename_i buffer addr rest hq
    refine ⟨[(buffer.written, addr)], le_rfl, ?_⟩
    split at hw <;> cases hw <;> simp [queued, bufferCount, hq] <;> omega

theorem readReady_queued (D : Dispatcher σ Message Timeout) (h : DispatchHandler σ)
    (recv : RecvOutcome) : (h.readReady D recv).1.queued = h.queued ++ (h.readReady D recv).2 := by
  unfold readReady handleRead
  cases recv with
  | datagram bytes addr => exact provide_queued _ _
  | wouldBlock | ioError => simp [queued]

theorem readReady_bufferCount (D : Dispatcher σ Message Timeout) (h : DispatchHandler σ)
    (recv : RecvOutcome) :
    h.bufferCount ≤ (h.readReady D recv).1.bufferCount + 1 ∧
      ((∃ bytes addr, recv = .datagram bytes addr) →
        h.bufferCount ≤ (h.readReady D recv).1.bufferCount) := by
  have hp := fun h' ds => provide_bufferCount (σ := σ) h' ds
  unfold readReady handleRead
  cases recv with
  | datagram bytes addr =>
      have := hp { h with bufferPool := h.bufferPool.pop.2 }
        (D.incoming h.dispatch (h.bufferPool.pop.1.fill bytes).written addr).2
      simp only [bufferCount, BufferPool.push_len, BufferPool.pop_len] at this ⊢
      omega
  | wouldBlock | ioError => simp [bufferCount, BufferPool.pop_len]; omega

theorem readReady_bufferCount_le (D : Dispatcher σ Message Timeout) (h : DispatchHandler σ)
    (recv : RecvOutcome) :
    (h.readReady D recv).1.bufferCount ≤
      max h.bufferCount ((h.readReady D recv).1.outQueue.length + 1) := by
  unfold readReady handleRead
  cases recv with
  | datagram bytes addr =>
      have hc := provide_bufferCount_eq { h with bufferPool := h.bufferPool.pop.2 }
        (D.incoming h.dispatch (h.bufferPool.pop.1.fill bytes).written addr).2
      have hq := provide_outQueue_length { h with bufferPool := h.bufferPool.pop.2 }
        (D.incoming h.dispatch (h.bufferPool.pop.1.fill bytes).written addr).2
      simp only [bufferCount, BufferPool.push_len, BufferPool.pop_len] at hc hq ⊢
      omega
  | wouldBlock | ioError => simp only [bufferCount, BufferPool.pop_len]; omega

theorem writeHalf_some {h h₁ : DispatchHandler σ} {w : Bool} {send : SendOutcome}
    {sent : List Datagram}
    (hw : (if w then h.handleWrite send else some (h, [])) = some (h₁, sent)) :
    ∃ p, p.length ≤ (if w then 1 else 0) ∧ h.queued = p ++ h₁.queued ∧ sent.Sublist p ∧
      h₁.bufferCount = h.bufferCount := by
  cases w
  · cases hw; exact ⟨[], le_rfl, rfl, .slnil, rfl⟩
  · exact handleWrite_some hw

theorem ready_queued {D : Dispatcher σ Message Timeout} {h h' : DispatchHandler σ} {tok : Token}
    {ev : EventSet} {send : SendOutcome} {recv : RecvOutcome} {log : StepLog}
    (hr : h.ready D tok ev send recv = some (h', log)) :
    ∃ p, p.length ≤ (if tok = udpSocketToken ∧ ev.isWritable then 1 else 0) ∧
      h.queued ++ log.enqueued = p ++ h'.queued ∧ log.sent.Sublist p := by
  unfold ready at hr
  split at hr
  · cases hr; exact ⟨[], Nat.zero_le _, by simp, .slnil⟩
  · rename_i ht
    split at hr
    · cases hr
    · rename_i h₁ sent hw
      obtain ⟨p, hl, hq, hs, -⟩ := writeHalf_some hw
      have hl : p.length ≤ (if tok = udpSocketToken ∧ ev.isWritable then 1 else 0) := by
        simpa [not_not.1 ht] using hl
      split at hr <;> cases hr
      · exact ⟨p, hl, by rw [readReady_queued, hq, List.append_assoc], hs⟩
      · exact ⟨p, hl, by simp [hq], hs⟩

theorem handleWrite_lossless {h h' : DispatchHandler σ} {send : SendOutcome} {sent : List Datagram}
    (hs : send ≠ .wouldBlock) (hw : h.handleWrite send = some (h', sent)) :
    h.queued = sent ++ h'.queued := by
  unfold handleWrite at hw
  split at hw
  · cases hw; rfl
  · rename_i buffer addr rest hq
    split at hw <;> cases hw
    · simp [queued, hq]
    · exact absurd rfl hs

/-- From `new`, a notification sends one datagram and then a write readiness meets a send that
would block: the datagram was enqueued, the socket accepted nothing, and the queue is empty. -/
theorem blocked_send_drops_datagram :
    ((DispatchHandler.new 1500 ()).notify echo ([1, 2, 3], localAddr)).2.enqueued =
        [([1, 2, 3], localAddr)] ∧
      (((DispatchHandler.new 1500 ()).notify echo ([1, 2, 3], localAddr)).1.ready echo
          udpSocketToken EventSet.writable .wouldBlock .wouldBlock).map
        (fun r => (r.2.sent, r.1.queued)) = some ([], []) := by
  decide

theorem ready_lossless {D : Dispatcher σ Message Timeout} {h h' : DispatchHandler σ} {tok : Token}
    {ev : EventSet} {send : SendOutcome} {recv : RecvOutcome} {log : StepLog}
    (hs : ev.isWritable → send ≠ .wouldBlock)
    (hr : h.ready D tok ev send recv = some (h', log)) :
    h.queued ++ log.enqueued = log.sent ++ h'.queued := by
  unfold ready at hr
  split at hr
  · cases hr; simp
  · split at hr
    · cases hr
    · rename_i h₁ sent hw
      have hq : h.queued = sent ++ h₁.queued := by
        cases hwr : ev.isWritable <;> rw [hwr] at hw <;>
          simp only [Bool.false_eq_true, if_false, if_true, Option.some.injEq, Prod.mk.injEq] at hw
        · obtain ⟨rfl, rfl⟩ := hw; rfl
        · exact handleWrite_lossless (hs hwr) hw
      split at hr <;> cases hr
      · rw [readReady_queued, hq, List.append_assoc]
      · simp [hq]

theorem ready_bufferCount {D : Dispatcher σ Message Timeout} {h h' : DispatchHandler σ}
    {tok : Token} {ev : EventSet} {send : SendOutcome} {recv : RecvOutcome} {log : StepLog}
    (hr : h.ready D tok ev send recv = some (h', log)) :
    h.bufferCount ≤ h'.bufferCount + 1 ∧
      ((ev.isReadable → ∃ bytes addr, recv = .datagram bytes addr) →
        h.bufferCount ≤ h'.bufferCount) := by
  unfold ready at hr
  split at hr
  · cases hr; omega
  · split at hr
    · cases hr
    · rename_i h₁ sent hw
      obtain ⟨-, -, -, -, hc⟩ := writeHalf_some hw
      split at hr <;> cases hr
      · have := readReady_bufferCount D h₁ recv
        exact ⟨hc ▸ this.1, fun hd => hc ▸ this.2 (hd ‹_›)⟩
      · omega

theorem ready_bufferCount_le {D : Dispatcher σ Message Timeout} {h h' : DispatchHandler σ}
    {tok : Token} {ev : EventSet} {send : SendOutcome} {recv : RecvOutcome} {log : StepLog}
    (hr : h.ready D tok ev send recv = some (h', log)) :
    h'.bufferCount ≤ max h.bufferCount (h'.outQueue.length + 1) := by
  unfold ready at hr
  split at hr
  · cases hr; exact le_max_left _ _
  · split at hr
    · cases hr
    · rename_i h₁ sent hw
      obtain ⟨-, -, -, -, hc⟩ := writeHalf_some hw
      split at hr <;> cases hr
      · exact hc ▸ readReady_bufferCount_le D h₁ recv
      · exact hc ▸ le_max_left _ _

end DispatchHandler

/-- With one free buffer and nothing queued, a read that finds no datagram leaves no buffer;
with a datagram queued, a write whose send fails panics. -/
theorem ready_loses_buffer_and_panics :
    (DispatchHandler.mk () [] ⟨1500, [Buffer.empty 1500]⟩ EventSet.readable).bufferCount = 1 ∧
      ((DispatchHandler.mk () [] ⟨1500, [Buffer.empty 1500]⟩ EventSet.readable).ready echo
          udpSocketToken EventSet.readable (.sent 0) .wouldBlock).map (·.1.bufferCount) =
        some 0 ∧
      (DispatchHandler.mk () [(Buffer.empty 1500, localAddr)] (BufferPool.new 1500)
          EventSet.readable).ready echo udpSocketToken EventSet.writable .ioError .wouldBlock =
        none := by
  decide

end BitTorrentInfra.Umio
