import BitTorrentInfra.Wire.Nom

/-!
The fixed-layout peer-wire message bodies of `bip_peer::message::standard`: `have`,
`bitfield`, `request`, `piece` and `cancel`. Each parser is characterised on every input: it
consumes exactly its big-endian layout when the input is long enough, and otherwise reports
`Incomplete` with the number of bytes, counted from the start of the body, up to the end of
the field it stopped in. As streaming parsers they read nothing past their body and never
ask for fewer bytes than would change their answer.
-/

namespace BitTorrentInfra.Peer
open Nom Nom.Streaming

/-- The `u32` a four-byte big-endian slice denotes. -/
def be32 (bs : Bytes) : UInt32 := UInt32.ofNat (beNat bs)

/-- `message::u32_to_usize`: a widening cast, so the value is kept. -/
def u32ToUsize (n : UInt32) : Nat := n.toNat

/-- `BITS_PER_BYTE`. -/
def bitsPerByte : UInt32 := 8

structure HaveMessage where
  pieceIndex : UInt32
  deriving DecidableEq, Repr

/-- `parse_have`. -/
def parseHave : Parser HaveMessage := map beU32 HaveMessage.mk

/-- `HaveMessage::from_bytes`. -/
def HaveMessage.fromBytes (bytes : Bytes) : IResult HaveMessage := parseHave bytes

structure BitFieldMessage where
  bytes : Bytes
  deriving DecidableEq, Repr

/-- `BitFieldMessage::new`: one zero bit per piece, rounded up to whole bytes. -/
def BitFieldMessage.new (totalPieces : UInt32) : BitFieldMessage :=
  let bytesNeeded :=
    if totalPieces % bitsPerByte = 0 then totalPieces / bitsPerByte
    else totalPieces / bitsPerByte + 1
  ⟨List.replicate (u32ToUsize bytesNeeded) 0⟩

/-- `parse_bitfield`. -/
def parseBitfield (len : Nat) : Parser BitFieldMessage := map (take len) BitFieldMessage.mk

/-- `BitFieldMessage::from_bytes`. -/
def BitFieldMessage.fromBytes (bytes : Bytes) (len : UInt32) : IResult BitFieldMessage :=
  parseBitfield (u32ToUsize len) bytes

structure RequestMessage where
  pieceIndex : UInt32
  blockOffset : UInt32
  blockLength : Nat
  deriving DecidableEq, Repr

structure PieceMessage where
  pieceIndex : UInt32
  blockOffset : UInt32
  blockLength : Nat
  deriving DecidableEq, Repr

structure CancelMessage where
  pieceIndex : UInt32
  blockOffset : UInt32
  blockLength : Nat
  deriving DecidableEq, Repr

/-- The body shared by `parse_request` and `parse_cancel`: three big-endian `u32`s, the last
widened to the block length. -/
def parseBlockTriple {α : Type} (new : UInt32 → UInt32 → Nat → α) : Parser α :=
  map (tuple3 beU32 beU32 beU32) fun (index, offset, length) => new index offset (u32ToUsize length)

/-- `parse_request`. -/
def parseRequest : Parser RequestMessage := parseBlockTriple RequestMessage.mk

/-- `RequestMessage::from_bytes`. -/
def RequestMessage.fromBytes (bytes : Bytes) : IResult RequestMessage := parseRequest bytes

/-- `parse_cancel`. -/
def parseCancel : Parser CancelMessage := parseBlockTriple CancelMessage.mk

/-- `CancelMessage::from_bytes`. -/
def CancelMessage.fromBytes (bytes : Bytes) : IResult CancelMessage := parseCancel bytes

/-- `parse_piece`: two big-endian `u32`s, the block length taken from the frame header. -/
def parsePiece (len : Nat) : Parser PieceMessage :=
  andThen beU32 fun pieceIndex => andThen beU32 fun blockOffset =>
    map (value len) fun blockLength => ⟨pieceIndex, blockOffset, blockLength⟩

/-- `PieceMessage::from_bytes`. -/
def PieceMessage.fromBytes (bytes : Bytes) (len : UInt32) : IResult PieceMessage :=
  parsePiece (u32ToUsize len) bytes

theorem beU32_of_le {i : Bytes} (h : 4 ≤ i.length) :
    beU32 i = .done (i.drop 4) (be32 (i.take 4)) :=
  if_pos h

theorem beU32_of_lt {i : Bytes} (h : i.length < 4) : beU32 i = .incomplete (.size 4) :=
  if_neg (by omega)

theorem haveMessage_fromBytes (b : Bytes) :
    HaveMessage.fromBytes b =
      if 4 ≤ b.length then .done (b.drop 4) ⟨be32 (b.take 4)⟩ else .incomplete (.size 4) := by
  unfold HaveMessage.fromBytes parseHave
  split
  · rw [map_done _ (beU32_of_le ‹_›)]
  · rw [map_incomplete _ (beU32_of_lt (by omega))]

theorem bitFieldMessage_fromBytes (b : Bytes) (len : UInt32) :
    BitFieldMessage.fromBytes b len =
      if len.toNat ≤ b.length then .done (b.drop len.toNat) ⟨b.take len.toNat⟩
      else .incomplete (.size len.toNat) := by
  unfold BitFieldMessage.fromBytes parseBitfield u32ToUsize
  by_cases h : len.toNat ≤ b.length <;> simp [map, take, h]

theorem parseBlockTriple_eq {α : Type} (new : UInt32 → UInt32 → Nat → α) (b : Bytes) :
    parseBlockTriple new b =
      if 12 ≤ b.length then
        .done (b.drop 12)
          (new (be32 (b.take 4)) (be32 ((b.drop 4).take 4)) (be32 ((b.drop 8).take 4)).toNat)
      else .incomplete (.size (4 * (b.length / 4 + 1))) := by
  unfold parseBlockTriple tuple3
  by_cases h4 : 4 ≤ b.length
  · rw [map, andThen_done (beU32_of_le h4)]
    by_cases h8 : 8 ≤ b.length
    · rw [andThen_done (beU32_of_le (by simp; omega))]
      by_cases h12 : 12 ≤ b.length
      · rw [map_done _ (beU32_of_le (by simp; omega))]
        simp [h12, u32ToUsize, Nat.add_comm]
      · rw [map_incomplete _ (beU32_of_lt (by simp; omega))]
        simp [Needed.offset, h12]; omega
    · rw [andThen_incomplete (beU32_of_lt (by simp; omega))]
      simp [Needed.offset, h8, show ¬ 12 ≤ b.length by omega]; omega
  · rw [map, andThen_incomplete (beU32_of_lt (by omega))]
    simp [show ¬ 12 ≤ b.length by omega]; omega

theorem pieceMessage_fromBytes (b : Bytes) (len : UInt32) :
    PieceMessage.fromBytes b len =
      if 8 ≤ b.length then
        .done (b.drop 8) ⟨be32 (b.take 4), be32 ((b.drop 4).take 4), len.toNat⟩
      else .incomplete (.size (if b.length < 4 then 4 else 8)) := by
  unfold PieceMessage.fromBytes parsePiece
  by_cases h4 : 4 ≤ b.length
  · rw [andThen_done (beU32_of_le h4)]
    by_cases h8 : 8 ≤ b.length
    · rw [andThen_done (beU32_of_le (by simp; omega))]
      simp [h8, map, value, u32ToUsize]
    · rw [andThen_incomplete (beU32_of_lt (by simp; omega))]
      simp [Needed.offset, h8, show ¬ b.length < 4 by omega]; omega
  · rw [andThen_incomplete (beU32_of_lt (by omega))]
    simp [show ¬ 8 ≤ b.length by omega, show b.length < 4 by omega]

/-- Every standard body parser reads exactly its big-endian layout, and on a shorter input
asks for more bytes rather than returning a value or an error. -/
theorem standard_parsers_fixed_layout (b : Bytes) (len : UInt32) :
    HaveMessage.fromBytes b =
      (if 4 ≤ b.length then .done (b.drop 4) ⟨be32 (b.take 4)⟩ else .incomplete (.size 4)) ∧
    RequestMessage.fromBytes b =
      (if 12 ≤ b.length then
        .done (b.drop 12)
          ⟨be32 (b.take 4), be32 ((b.drop 4).take 4), (be32 ((b.drop 8).take 4)).toNat⟩
      else .incomplete (.size (4 * (b.length / 4 + 1)))) ∧
    CancelMessage.fromBytes b =
      (if 12 ≤ b.length then
        .done (b.drop 12)
          ⟨be32 (b.take 4), be32 ((b.drop 4).take 4), (be32 ((b.drop 8).take 4)).toNat⟩
      else .incomplete (.size (4 * (b.length / 4 + 1)))) ∧
    PieceMessage.fromBytes b len =
      (if 8 ≤ b.length then
        .done (b.drop 8) ⟨be32 (b.take 4), be32 ((b.drop 4).take 4), len.toNat⟩
      else .incomplete (.size (if b.length < 4 then 4 else 8))) ∧
    BitFieldMessage.fromBytes b len =
      (if len.toNat ≤ b.length then .done (b.drop len.toNat) ⟨b.take len.toNat⟩
      else .incomplete (.size len.toNat)) :=
  ⟨haveMessage_fromBytes b, parseBlockTriple_eq _ b, parseBlockTriple_eq _ b,
    pieceMessage_fromBytes b len, bitFieldMessage_fromBytes b len⟩

/-! Each body parser is assembled from combinators that keep streaming soundness. -/

theorem streams_parseBlockTriple {α : Type} (new : UInt32 → UInt32 → Nat → α) :
    Streams (parseBlockTriple new) :=
  (streams_beU32.tuple3 streams_beU32 streams_beU32).map _

theorem streams_parsePiece (len : Nat) : Streams (parsePiece len) :=
  streams_beU32.andThen fun _ => streams_beU32.andThen fun _ => (streams_value len).map _

/-- A reader of the peer wire may hand each body parser whatever it has buffered: bytes after
the body are left over and change nothing, and on a short buffer the parser names a size
beyond what it holds that no shorter buffer reaches. -/
theorem standard_parsers_stream (len : UInt32) :
    Streams HaveMessage.fromBytes ∧ Streams RequestMessage.fromBytes ∧
      Streams CancelMessage.fromBytes ∧ Streams (PieceMessage.fromBytes · len) ∧
      Streams (BitFieldMessage.fromBytes · len) :=
  ⟨streams_beU32.map _, streams_parseBlockTriple _, streams_parseBlockTriple _,
    streams_parsePiece _, (streams_take _).map _⟩

end BitTorrentInfra.Peer
