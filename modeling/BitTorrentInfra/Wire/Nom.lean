import BitTorrentInfra.Wire.Bytes

/-!
The two generations of nom the codecs are written against. The peer-wire messages use the
macro-era streaming parsers (`map!`, `take!`, `tuple!`, `chain!`, `value!`, `be_u32`), whose
result is `Done`, `Error` or `Incomplete` and whose sequencing reports how many bytes of the
original input are needed. The UDP tracker codec uses nom 7's `number::complete` parsers,
which fail with `Err::Error` and `ErrorKind::Eof` on short input and never ask for more.
-/

namespace BitTorrentInfra.Nom

/-- nom's `ErrorKind`, restricted to the kinds the modelled parsers raise. -/
inductive ErrorKind
  | eof
  | switch
  | mapOpt
  deriving DecidableEq, Repr

/-- nom's `Needed`. -/
inductive Needed
  | unknown
  | size (n : Nat)
  deriving DecidableEq, Repr

/-- `Needed` counted from `k` bytes further back in the input. -/
def Needed.offset (k : Nat) : Needed → Needed
  | .unknown => .unknown
  | .size n => .size (k + n)

namespace Streaming

/-- The macro-era `IResult`. -/
inductive IResult (α : Type)
  | done (rest : Bytes) (out : α)
  | error (kind : ErrorKind)
  | incomplete (needed : Needed)
  deriving DecidableEq, Repr

abbrev Parser (α : Type) := Bytes → IResult α

/-- `be_u32`. -/
def beU32 : Parser UInt32 := fun i =>
  if 4 ≤ i.length then .done (i.drop 4) (UInt32.ofNat (beNat (i.take 4)))
  else .incomplete (.size 4)

/-- `take!(n)`. -/
def take (n : Nat) : Parser Bytes := fun i =>
  if n ≤ i.length then .done (i.drop n) (i.take n) else .incomplete (.size n)

/-- `value!(x)`. -/
def value {α : Type} (x : α) : Parser α := fun i => .done i x

/-- `map!(p, f)`. -/
def map {α β : Type} (p : Parser α) (f : α → β) : Parser β := fun i =>
  match p i with
  | .done r a => .done r (f a)
  | .error e => .error e
  | .incomplete n => .incomplete n

/-- One link of `tuple!` and `chain!`: run `p`, then `q` on what is left, counting a need
reported by `q` from the start of the input, as `$consumed + i` does in nom's macros. -/
def andThen {α β : Type} (p : Parser α) (q : α → Parser β) : Parser β := fun i =>
  match p i with
  | .done r a =>
      match q a r with
      | .incomplete n => .incomplete (n.offset (i.length - r.length))
      | res => res
  | .error e => .error e
  | .incomplete n => .incomplete n

/-- `tuple!(p, q, r)`. -/
def tuple3 {α β γ : Type} (p : Parser α) (q : Parser β) (r : Parser γ) :
    Parser (α × β × γ) :=
  andThen p fun a => andThen q fun b => map r fun c => (a, b, c)

@[simp] theorem map_done {α β : Type} {p : Parser α} {i r : Bytes} {a : α} (f : α → β)
    (h : p i = .done r a) : map p f i = .done r (f a) := by
  simp [map, h]

@[simp] theorem map_incomplete {α β : Type} {p : Parser α} {i : Bytes} {n : Needed}
    (f : α → β) (h : p i = .incomplete n) : map p f i = .incomplete n := by
  simp [map, h]

theorem andThen_done {α β : Type} {p : Parser α} {q : α → Parser β} {i r : Bytes} {a : α}
    (h : p i = .done r a) :
    andThen p q i = match q a r with
      | .incomplete n => .incomplete (n.offset (i.length - r.length))
      | res => res := by
  simp only [andThen, h]

@[simp] theorem andThen_incomplete {α β : Type} {p : Parser α} {q : α → Parser β} {i : Bytes}
    {n : Needed} (h : p i = .incomplete n) : andThen p q i = .incomplete n := by
  simp [andThen, h]

section AndThen

variable {α β : Type} {p : Parser α} {q : α → Parser β} {i r r' : Bytes} {a : α} {b : β}

theorem andThen_done_done (hp : p i = .done r a) (hq : q a r = .done r' b) :
    andThen p q i = .done r' b := by
  simp [andThen, hp, hq]

theorem andThen_done_error {e : ErrorKind} (hp : p i = .done r a) (hq : q a r = .error e) :
    andThen p q i = .error e := by
  simp [andThen, hp, hq]

theorem andThen_done_incomplete {n : Needed} (hp : p i = .done r a) (hq : q a r = .incomplete n) :
    andThen p q i = .incomplete (n.offset (i.length - r.length)) := by
  simp [andThen, hp, hq]

theorem andThen_error {e : ErrorKind} (hp : p i = .error e) : andThen p q i = .error e := by
  simp [andThen, hp]

/-! What each outcome of `andThen` says of `p` and `q`. -/

theorem andThen_eq_done (h : andThen p q i = .done r' b) :
    ∃ r a, p i = .done r a ∧ q a r = .done r' b := by
  cases hp : p i with
  | done r a =>
      refine ⟨r, a, rfl, ?_⟩
      cases hq : q a r <;> simp_all [andThen]
  | error e | incomplete n => simp [andThen, hp] at h

theorem andThen_eq_error {e : ErrorKind} (h : andThen p q i = .error e) :
    p i = .error e ∨ ∃ r a, p i = .done r a ∧ q a r = .error e := by
  cases hp : p i with
  | done r a =>
      refine .inr ⟨r, a, rfl, ?_⟩
      cases hq : q a r <;> simp_all [andThen]
  | error e | incomplete n => simp_all [andThen]

theorem andThen_eq_incomplete {n : Needed} (h : andThen p q i = .incomplete n) :
    p i = .incomplete n ∨
      ∃ r a m, p i = .done r a ∧ q a r = .incomplete m ∧
        n = m.offset (i.length - r.length) := by
  cases hp : p i with
  | done r a =>
      cases hq : q a r <;> simp [andThen, hp, hq] at h
      exact .inr ⟨r, a, _, rfl, hq, h.symm⟩
  | error e | incomplete n => simp_all [andThen]

end AndThen

/-! ### Streaming soundness

What a reader feeding a streaming parser from a socket relies on, stated once and carried
through the combinators. -/

/-- A parser reads only the bytes it consumes: bytes after them change neither its value nor
its error and are left over. When it runs short it names a size, counted from the start of
the input, beyond what the input holds, and no extension shorter than that size finishes it. -/
structure Streams {α : Type} (p : Parser α) : Prop where
  done_suffix : ∀ {i r a}, p i = .done r a → ∃ u, i = u ++ r
  done_append : ∀ {i r a} (c : Bytes), p i = .done r a → p (i ++ c) = .done (r ++ c) a
  error_append : ∀ {i e} (c : Bytes), p i = .error e → p (i ++ c) = .error e
  needed_size : ∀ {i n}, p i = .incomplete n → ∃ k, n = .size k ∧ i.length < k ∧
    ∀ c : Bytes, (i ++ c).length < k → ∃ k', p (i ++ c) = .incomplete (.size k')

/-- A parser that reads a fixed number of bytes, `be_u32` and `take!` alike. -/
theorem streams_fixed {α : Type} (n : Nat) (f : Bytes → α) :
    Streams fun i => if n ≤ i.length then .done (i.drop n) (f (i.take n))
      else .incomplete (.size n) where
  done_suffix {i r a} h := by
    split at h
    · cases h; exact ⟨_, (List.take_append_drop n i).symm⟩
    · cases h
  done_append {i r a} c h := by
    split at h
    · cases h
      rw [if_pos (by simp; omega), List.drop_append_of_le_length ‹_›,
        List.take_append_of_le_length ‹_›]
    · cases h
  error_append {i e} c h := by split at h <;> cases h
  needed_size {i n} h := by
    split at h
    · cases h
    · cases h; exact ⟨n, rfl, by omega, fun c hc => ⟨n, if_neg (by omega)⟩⟩

theorem streams_beU32 : Streams beU32 := streams_fixed 4 fun bs => UInt32.ofNat (beNat bs)

theorem streams_take (n : Nat) : Streams (take n) := streams_fixed n id

theorem streams_value {α : Type} (x : α) : Streams (value x) where
  done_suffix h := by cases h; exact ⟨[], rfl⟩
  done_append c h := by cases h; rfl
  error_append c h := by cases h
  needed_size h := by cases h

theorem Streams.map {α β : Type} {p : Parser α} (hp : Streams p) (f : α → β) :
    Streams (map p f) where
  done_suffix {i r b} h := by
    cases hi : p i <;> simp [Streaming.map, hi] at h
    obtain ⟨rfl, -⟩ := h
    exact hp.done_suffix hi
  done_append {i r b} c h := by
    cases hi : p i <;> simp [Streaming.map, hi] at h
    obtain ⟨rfl, rfl⟩ := h
    exact map_done f (hp.done_append c hi)
  error_append {i e} c h := by
    cases hi : p i <;> simp [Streaming.map, hi] at h
    subst h
    simp [Streaming.map, hp.error_append c hi]
  needed_size {i n} h := by
    cases hi : p i <;> simp [Streaming.map, hi] at h
    subst h
    obtain ⟨k, rfl, hlt, hext⟩ := hp.needed_size hi
    exact ⟨k, rfl, hlt, fun c hc => (hext c hc).imp fun _ hk => map_incomplete f hk⟩

theorem Streams.andThen {α β : Type} {p : Parser α} {q : α → Parser β} (hp : Streams p)
    (hq : ∀ a, Streams (q a)) : Streams (andThen p q) where
  done_suffix h := by
    obtain ⟨r, a, h1, h2⟩ := andThen_eq_done h
    obtain ⟨u, rfl⟩ := hp.done_suffix h1
    obtain ⟨v, rfl⟩ := (hq a).done_suffix h2
    exact ⟨u ++ v, (List.append_assoc _ _ _).symm⟩
  done_append c h := by
    obtain ⟨r, a, h1, h2⟩ := andThen_eq_done h
    exact andThen_done_done (hp.done_append c h1) ((hq a).done_append c h2)
  error_append c h := by
    rcases andThen_eq_error h with h1 | ⟨r, a, h1, h2⟩
    · exact andThen_error (hp.error_append c h1)
    · exact andThen_done_error (hp.done_append c h1) ((hq a).error_append c h2)
  needed_size {i n} h := by
    rcases andThen_eq_incomplete h with h1 | ⟨r, a, m, h1, h2, rfl⟩
    · obtain ⟨k, rfl, hlt, hext⟩ := hp.needed_size h1
      exact ⟨k, rfl, hlt, fun c hc => (hext c hc).imp fun _ hk => andThen_incomplete hk⟩
    -- `q` ran short on what `p` left: its size is shifted by the bytes `p` consumed
    · obtain ⟨u, rfl⟩ := hp.done_suffix h1
      obtain ⟨k, rfl, hlt, hext⟩ := (hq a).needed_size h2
      have hu : (u ++ r).length - r.length = u.length := by simp
      refine ⟨u.length + k, by rw [hu]; rfl, by simp; omega, fun c hc => ?_⟩
      obtain ⟨k', hk'⟩ := hext c (by simp at hc ⊢; omega)
      exact ⟨_, andThen_done_incomplete (hp.done_append c h1) hk'⟩

theorem Streams.tuple3 {α β γ : Type} {p : Parser α} {q : Parser β} {r : Parser γ}
    (hp : Streams p) (hq : Streams q) (hr : Streams r) : Streams (tuple3 p q r) :=
  hp.andThen fun _ => hq.andThen fun _ => hr.map _

end Streaming

namespace Complete

/-- nom 7's `Err<Error<&[u8]>>`. -/
inductive Err
  | incomplete (needed : Needed)
  | error (input : Bytes) (kind : ErrorKind)
  | failure (input : Bytes) (kind : ErrorKind)
  deriving DecidableEq, Repr

/-- nom 7's `IResult<&[u8], O>`. -/
abbrev IResult (α : Type) := Except Err (Bytes × α)

/-- `bytes::complete::take`. -/
def take (n : Nat) (i : Bytes) : IResult Bytes :=
  if n ≤ i.length then .ok (i.drop n, i.take n) else .error (.error i .eof)

/-- The fixed-width big-endian readers of `number::complete`: `n` bytes, read by `ofNat`. -/
def beUint {α : Type} (n : Nat) (ofNat : Nat → α) (i : Bytes) : IResult α :=
  if n ≤ i.length then .ok (i.drop n, ofNat (beNat (i.take n))) else .error (.error i .eof)

/-- `number::complete::be_u16`. -/
def beU16 : Bytes → IResult UInt16 := beUint 2 UInt16.ofNat

/-- `number::complete::be_u32`. -/
def beU32 : Bytes → IResult UInt32 := beUint 4 UInt32.ofNat

/-- `number::complete::be_u64`. -/
def beU64 : Bytes → IResult UInt64 := beUint 8 UInt64.ofNat

@[simp] theorem take_append (b rest : Bytes) : take b.length (b ++ rest) = .ok (rest, b) := by
  simp [take]

/-- What `take` accepts is the bytes it returns followed by the rest. -/
theorem take_eq_ok {n : Nat} {i rest b : Bytes} (h : take n i = .ok (rest, b)) :
    b.length = n ∧ i = b ++ rest := by
  unfold take at h
  split at h
  · cases h; exact ⟨by simp; omega, (List.take_append_drop n i).symm⟩
  · cases h

/-- What a fixed-width reader accepts is `n` bytes, read as the value, followed by the rest. -/
theorem beUint_eq_ok {α : Type} {n : Nat} {ofNat : Nat → α} {i rest : Bytes} {x : α}
    (h : beUint n ofNat i = .ok (rest, x)) :
    ∃ bs : Bytes, bs.length = n ∧ i = bs ++ rest ∧ x = ofNat (beNat bs) := by
  unfold beUint at h
  split at h
  · cases h; exact ⟨i.take n, by simp; omega, (List.take_append_drop n i).symm, rfl⟩
  · cases h

theorem beU16_eq_ok {i rest : Bytes} {x : UInt16} (h : beU16 i = .ok (rest, x)) :
    i = writeU16 x ++ rest := by
  obtain ⟨bs, hl, rfl, rfl⟩ := beUint_eq_ok h
  rw [writeU16_ofNat_beNat hl]

theorem beU32_eq_ok {i rest : Bytes} {x : UInt32} (h : beU32 i = .ok (rest, x)) :
    i = writeU32 x ++ rest := by
  obtain ⟨bs, hl, rfl, rfl⟩ := beUint_eq_ok h
  rw [writeU32_ofNat_beNat hl]

theorem beU64_eq_ok {i rest : Bytes} {x : UInt64} (h : beU64 i = .ok (rest, x)) :
    i = writeU64 x ++ rest := by
  obtain ⟨bs, hl, rfl, rfl⟩ := beUint_eq_ok h
  rw [writeU64_ofNat_beNat hl]

@[simp] theorem beU16_writeU16 (x : UInt16) (rest : Bytes) :
    beU16 (writeU16 x ++ rest) = .ok (rest, x) := by
  simp [beU16, beUint, List.take_append_of_le_length, List.drop_append_of_le_length]

@[simp] theorem beU32_writeU32 (x : UInt32) (rest : Bytes) :
    beU32 (writeU32 x ++ rest) = .ok (rest, x) := by
  simp [beU32, beUint, List.take_append_of_le_length, List.drop_append_of_le_length]

@[simp] theorem beU32_writeU32_nil (x : UInt32) : beU32 (writeU32 x) = .ok ([], x) := by
  simpa using beU32_writeU32 x []

@[simp] theorem beU64_writeU64 (x : UInt64) (rest : Bytes) :
    beU64 (writeU64 x ++ rest) = .ok (rest, x) := by
  simp [beU64, beUint, List.take_append_of_le_length, List.drop_append_of_le_length]

end Complete

end BitTorrentInfra.Nom
