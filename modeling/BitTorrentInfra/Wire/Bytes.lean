import Mathlib

/-!
Byte strings and the fixed-width big-endian integers that every binary codec of the stack
reads and writes (`byteorder::BigEndian` on the writing side, nom's `be_u32`/`be_u64` on the
reading side), together with the twenty-byte identifiers of `util::bt`. A Rust slice is a
list of bytes, so `&b[n..]` is `b.drop n` and `&b[..n]` is `b.take n`.
-/

namespace BitTorrentInfra

/-- A byte string: `&[u8]` or `Vec<u8>`. -/
abbrev Bytes := List UInt8

/-- The bytes of an ASCII literal, such as a bencode key. -/
def ascii (s : String) : Bytes := s.toList.map fun c => c.toNat.toUInt8

/-- The natural number a big-endian byte string denotes. -/
def beNat (bs : Bytes) : Nat := bs.foldl (fun acc b => acc * 256 + b.toNat) 0

/-- The low `n` bytes of `v`, most significant first. -/
def toBE : Nat → Nat → Bytes
  | 0, _ => []
  | n + 1, v => toBE n (v / 256) ++ [UInt8.ofNat v]

@[simp] theorem length_toBE (n v : Nat) : (toBE n v).length = n := by
  induction n generalizing v <;> simp [toBE, *]

theorem beNat_append_byte (bs : Bytes) (b : UInt8) :
    beNat (bs ++ [b]) = beNat bs * 256 + b.toNat := by
  simp [beNat, List.foldl_append]

theorem beNat_toBE (n v : Nat) : beNat (toBE n v) = v % 256 ^ n := by
  induction n generalizing v with
  | zero => simp [toBE, beNat, Nat.mod_one]
  | succ n ih =>
      rw [toBE, beNat_append_byte, ih, Nat.pow_succ', Nat.mod_mul]
      simp only [UInt8.toNat, UInt8.ofNat, BitVec.toNat_ofNat]
      omega

theorem beNat_lt (bs : Bytes) : beNat bs < 256 ^ bs.length := by
  induction bs using List.reverseRecOn with
  | nil => decide
  | append_singleton bs b ih =>
      have hb : b.toNat < 256 := b.toNat_lt_size
      rw [beNat_append_byte, List.length_append, List.length_singleton, pow_succ]
      omega

/-- Reading a byte string big-endian and writing the number back in as many bytes gives
the string again. -/
theorem toBE_beNat (bs : Bytes) : toBE bs.length (beNat bs) = bs := by
  induction bs using List.reverseRecOn with
  | nil => rfl
  | append_singleton bs b ih =>
      have hb : b.toNat < 256 := b.toNat_lt_size
      rw [List.length_append, List.length_singleton, toBE, beNat_append_byte,
        show (beNat bs * 256 + b.toNat) / 256 = beNat bs by omega, ih]
      congr
      exact UInt8.toNat.inj (by simp only [UInt8.toNat, UInt8.ofNat, BitVec.toNat_ofNat]; omega)

@[simp] theorem u16_ofNat_toNat (x : UInt16) : UInt16.ofNat x.toNat = x :=
  UInt16.toNat.inj (by simp [UInt16.toNat, UInt16.ofNat, x.toNat_lt_size])

/-- `write_u16::<BigEndian>`. -/
def writeU16 (x : UInt16) : Bytes := toBE 2 x.toNat

/-- `write_u32::<BigEndian>`. -/
def writeU32 (x : UInt32) : Bytes := toBE 4 x.toNat

/-- `write_u64::<BigEndian>`. -/
def writeU64 (x : UInt64) : Bytes := toBE 8 x.toNat

@[simp] theorem length_writeU16 (x : UInt16) : (writeU16 x).length = 2 := length_toBE ..
@[simp] theorem length_writeU32 (x : UInt32) : (writeU32 x).length = 4 := length_toBE ..
@[simp] theorem length_writeU64 (x : UInt64) : (writeU64 x).length = 8 := length_toBE ..

@[simp] theorem ofNat_beNat_writeU16 (x : UInt16) : UInt16.ofNat (beNat (writeU16 x)) = x := by
  have := x.toNat_lt_size
  exact UInt16.toNat.inj (by simp_all [writeU16, beNat_toBE, UInt16.toNat, UInt16.ofNat])

@[simp] theorem ofNat_beNat_writeU32 (x : UInt32) : UInt32.ofNat (beNat (writeU32 x)) = x := by
  have := x.toNat_lt_size
  exact UInt32.toNat.inj (by simp_all [writeU32, beNat_toBE, UInt32.toNat, UInt32.ofNat])

@[simp] theorem ofNat_beNat_writeU64 (x : UInt64) : UInt64.ofNat (beNat (writeU64 x)) = x := by
  have := x.toNat_lt_size
  exact UInt64.toNat.inj (by simp_all [writeU64, beNat_toBE, UInt64.toNat, UInt64.ofNat])

theorem writeU16_ofNat_beNat {bs : Bytes} (h : bs.length = 2) :
    writeU16 (UInt16.ofNat (beNat bs)) = bs := by
  have := beNat_lt bs
  rw [h] at this
  rw [writeU16, UInt16.toNat_ofNat_of_lt this, ← h, toBE_beNat]

theorem writeU32_ofNat_beNat {bs : Bytes} (h : bs.length = 4) :
    writeU32 (UInt32.ofNat (beNat bs)) = bs := by
  have := beNat_lt bs
  rw [h] at this
  rw [writeU32, UInt32.toNat_ofNat_of_lt this, ← h, toBE_beNat]

theorem writeU64_ofNat_beNat {bs : Bytes} (h : bs.length = 8) :
    writeU64 (UInt64.ofNat (beNat bs)) = bs := by
  have := beNat_lt bs
  rw [h] at this
  rw [writeU64, UInt64.toNat_ofNat_of_lt this, ← h, toBE_beNat]

/-- `util::sha::SHA_HASH_LEN`. -/
def shaHashLen : Nat := 20

/-- `util::sha::ShaHash`, the type behind `NodeId`, `InfoHash` and `PeerId`: exactly
`SHA_HASH_LEN` bytes, so a hash of another length cannot be built. -/
structure ShaHash where
  bytes : Bytes
  length_eq : bytes.length = shaHashLen
  deriving DecidableEq

/-- `util::bt::NodeId`. -/
abbrev NodeId := ShaHash

/-- `util::bt::InfoHash`. -/
abbrev InfoHash := ShaHash

/-- `ShaHash::from_hash`: the hash of a byte string of exactly `SHA_HASH_LEN` bytes. Callers
only observe whether it failed, so the length error is not modelled. -/
def ShaHash.fromHash (b : Bytes) : Option ShaHash :=
  if h : b.length = shaHashLen then some ⟨b, h⟩ else none

@[simp] theorem ShaHash.fromHash_bytes (h : ShaHash) : ShaHash.fromHash h.bytes = some h := by
  simp [fromHash, h.length_eq]

theorem ShaHash.fromHash_eq_none {b : Bytes} :
    ShaHash.fromHash b = none ↔ b.length ≠ shaHashLen := by
  unfold fromHash; split <;> simp_all

theorem ShaHash.bytes_of_fromHash {b : Bytes} {h : ShaHash} (hb : ShaHash.fromHash b = some h) :
    h.bytes = b := by
  unfold fromHash at hb
  split at hb
  · cases hb; rfl
  · cases hb

/-- A bind of fallible steps succeeds exactly when the first step does and the rest does on
its result. -/
theorem except_bind_eq_ok {ε α β : Type} {x : Except ε α} {f : α → Except ε β} {b : β} :
    x >>= f = .ok b ↔ ∃ a, x = .ok a ∧ f a = .ok b := by
  cases x <;> simp [bind, Except.bind]

end BitTorrentInfra
