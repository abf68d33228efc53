import BitTorrentInfra.Wire.Bytes

/-!
The buffers of the UDP dispatcher. The `buffer` module of `umio` is not among the sources;
both types follow the specification: a buffer is a fixed-capacity byte region with a write
cursor, and the pool is a grow-on-demand free list whose `pop` hands out a zeroed buffer,
making a new one of the pool's size when the list is empty.

A buffer carries the bound of its cursor.
-/

namespace BitTorrentInfra.Umio

/-- Modelled from the spec: `buffer::Buffer`, the bytes before the write cursor of a region
of `capacity` bytes. -/
structure Buffer where
  capacity : Nat
  written : Bytes
  written_le : written.length ≤ capacity
  deriving DecidableEq

namespace Buffer

/-- A zeroed buffer: nothing written yet. -/
def empty (capacity : Nat) : Buffer := ⟨capacity, [], Nat.zero_le _⟩

/-- Fill the region from its start with `bytes`, as far as they fit, and set the cursor after
them: what `recv_from` followed by `set_written` does, and what a handler writing a payload
does. -/
def fill (b : Buffer) (bytes : Bytes) : Buffer :=
  ⟨b.capacity, bytes.take b.capacity, by simp⟩

end Buffer

/-- Modelled from the spec: `buffer::BufferPool`, a free list of buffers of `bufferSize`
bytes. -/
structure BufferPool where
  bufferSize : Nat
  buffers : List Buffer
  deriving DecidableEq

namespace BufferPool

def new (bufferSize : Nat) : BufferPool := ⟨bufferSize, []⟩

/-- Take the most recently returned buffer, zeroed, or a new one if none is free. -/
def pop (p : BufferPool) : Buffer × BufferPool :=
  match p.buffers with
  | [] => (Buffer.empty p.bufferSize, p)
  | b :: bs => (Buffer.empty b.capacity, ⟨p.bufferSize, bs⟩)

/-- Return a buffer to the free list. -/
def push (p : BufferPool) (b : Buffer) : BufferPool := ⟨p.bufferSize, b :: p.buffers⟩

/-- The number of free buffers. -/
def len (p : BufferPool) : Nat := p.buffers.length

@[simp] theorem push_len (p : BufferPool) (b : Buffer) : (p.push b).len = p.len + 1 := rfl

/-- `pop` takes one buffer off a nonempty list and leaves an empty one as it is. -/
theorem pop_len (p : BufferPool) : p.pop.2.len = p.len - 1 := by
  unfold pop len; split <;> simp_all

end BufferPool

end BitTorrentInfra.Umio
