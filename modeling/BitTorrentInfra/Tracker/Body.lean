import BitTorrentInfra.Wire.Nom

/-!
Modelled from the spec: the announce and scrape bodies of UDP tracker requests, whose sources
(`announce.rs`, `scrape.rs`) are not part of this development. An announce body is
`info_hash ‖ peer_id ‖ downloaded ‖ left ‖ uploaded ‖ event ‖ ip ‖ key ‖ num_want ‖ port`
with the address four bytes for IPv4 and sixteen for IPv6; a scrape body is a run of
twenty-byte info hashes. Each parser reads back exactly what the writer wrote.
-/

namespace BitTorrentInfra.Tracker
open Nom Nom.Complete

inductive AnnounceEvent
  | none
  | completed
  | started
  | stopped
  deriving DecidableEq, Repr

/-- The event's wire code. -/
def AnnounceEvent.code : AnnounceEvent → UInt32
  | .none => 0
  | .completed => 1
  | .started => 2
  | .stopped => 3

/-- The event a wire code names, if any. -/
def AnnounceEvent.ofCode (c : UInt32) : Option AnnounceEvent :=
  if c = 0 then some .none else if c = 1 then some .completed
  else if c = 2 then some .started else if c = 3 then some .stopped else Option.none

@[simp] theorem AnnounceEvent.ofCode_code (e : AnnounceEvent) : ofCode e.code = some e := by
  cases e <;> rfl

/-- The announcing peer's address: four bytes, or sixteen as two big-endian halves. -/
inductive SourceIp
  | v4 (addr : UInt32)
  | v6 (high low : UInt64)
  deriving DecidableEq, Repr

/-- `SourceIP::is_ipv4`. -/
def SourceIp.isIpv4 : SourceIp → Bool
  | .v4 _ => true
  | .v6 .. => false

structure AnnounceRequest where
  infoHash : InfoHash
  peerId : ShaHash
  downloaded : UInt64
  left : UInt64
  uploaded : UInt64
  event : AnnounceEvent
  sourceIp : SourceIp
  key : UInt32
  numWant : UInt32
  port : UInt16
  deriving DecidableEq

def SourceIp.writeBytes : SourceIp → Bytes
  | .v4 a => writeU32 a
  | .v6 h l => writeU64 h ++ writeU64 l

/-- `AnnounceRequest::write_bytes`. -/
def AnnounceRequest.writeBytes (r : AnnounceRequest) : Bytes :=
  r.infoHash.bytes ++ r.peerId.bytes ++ writeU64 r.downloaded ++ writeU64 r.left ++
    writeU64 r.uploaded ++ writeU32 r.event.code ++ r.sourceIp.writeBytes ++ writeU32 r.key ++
    writeU32 r.numWant ++ writeU16 r.port

/-- A twenty-byte hash. -/
def parseHash (i : Bytes) : Except Err (Bytes × ShaHash) := do
  let (rest, b) ← take shaHashLen i
  match ShaHash.fromHash b with
  | some h => pure (rest, h)
  | none => .error (.error i .mapOpt)

/-- An event code. -/
def parseEvent (i : Bytes) : Except Err (Bytes × AnnounceEvent) := do
  let (rest, c) ← beU32 i
  match AnnounceEvent.ofCode c with
  | some e => pure (rest, e)
  | none => .error (.error i .mapOpt)

/-- The body shared by both address families, the address read by `parseIp`. -/
def parseAnnounce (parseIp : Bytes → IResult SourceIp) (i : Bytes) :
    Except Err (Bytes × AnnounceRequest) := do
  let (i, infoHash) ← parseHash i
  let (i, peerId) ← parseHash i
  let (i, downloaded) ← beU64 i
  let (i, left) ← beU64 i
  let (i, uploaded) ← beU64 i
  let (i, event) ← parseEvent i
  let (i, sourceIp) ← parseIp i
  let (i, key) ← beU32 i
  let (i, numWant) ← beU32 i
  let (i, port) ← beU16 i
  pure (i, ⟨infoHash, peerId, downloaded, left, uploaded, event, sourceIp, key, numWant, port⟩)

/-- `AnnounceRequest::from_bytes_v4`. -/
def AnnounceRequest.fromBytesV4 : Bytes → IResult AnnounceRequest :=
  parseAnnounce fun i => (beU32 i).map fun (i, a) => (i, .v4 a)

/-- `AnnounceRequest::from_bytes_v6`. -/
def AnnounceRequest.fromBytesV6 : Bytes → IResult AnnounceRequest :=
  parseAnnounce fun i => (show Except Err (Bytes × SourceIp) from do
    let (i, h) ← beU64 i
    let (i, l) ← beU64 i
    pure (i, .v6 h l))

structure ScrapeRequest where
  hashes : List InfoHash
  deriving DecidableEq

/-- `ScrapeRequest::write_bytes`. -/
def ScrapeRequest.writeBytes (s : ScrapeRequest) : Bytes :=
  s.hashes.foldr (fun h acc => h.bytes ++ acc) []

/-- `n` hashes making up the whole input. -/
def takeHashes : Nat → Bytes → Option (List InfoHash)
  | 0, b => if b = [] then some [] else none
  | n + 1, b => do
      let h ← ShaHash.fromHash (b.take shaHashLen)
      let hs ← takeHashes n (b.drop shaHashLen)
      pure (h :: hs)

/-- `ScrapeRequest::from_bytes`: the rest of the input, as info hashes. -/
def ScrapeRequest.fromBytes (i : Bytes) : IResult ScrapeRequest :=
  match takeHashes (i.length / shaHashLen) i with
  | some hs => .ok ([], ⟨hs⟩)
  | none => .error (.error i .eof)

theorem parseHash_append (h : ShaHash) (rest : Bytes) :
    parseHash (h.bytes ++ rest) = .ok (rest, h) := by
  have := take_append h.bytes rest
  rw [h.length_eq] at this
  simp [parseHash, this, bind, Except.bind, pure, Except.pure]

theorem parseEvent_append (e : AnnounceEvent) (rest : Bytes) :
    parseEvent (writeU32 e.code ++ rest) = .ok (rest, e) := by
  simp [parseEvent, bind, Except.bind, pure, Except.pure]

theorem parseAnnounce_writeBytes {parseIp : Bytes → IResult SourceIp} {r : AnnounceRequest}
    (hip : ∀ rest, parseIp (r.sourceIp.writeBytes ++ rest) = .ok (rest, r.sourceIp))
    (rest : Bytes) :
    parseAnnounce parseIp (r.writeBytes ++ rest) = .ok (rest, r) := by
  simp only [AnnounceRequest.writeBytes, List.append_assoc]
  simp [parseAnnounce, parseHash_append, parseEvent_append, hip, bind, Except.bind, pure,
    Except.pure]

theorem AnnounceRequest.fromBytesV4_writeBytes {r : AnnounceRequest}
    (h : r.sourceIp.isIpv4 = true) :
    AnnounceRequest.fromBytesV4 r.writeBytes = .ok ([], r) := by
  rw [← List.append_nil r.writeBytes]
  refine parseAnnounce_writeBytes (fun rest => ?_) []
  cases hs : r.sourceIp with
  | v4 a => simp [SourceIp.writeBytes, Except.map]
  | v6 => simp [hs, SourceIp.isIpv4] at h

theorem AnnounceRequest.fromBytesV6_writeBytes {r : AnnounceRequest}
    (h : r.sourceIp.isIpv4 = false) :
    AnnounceRequest.fromBytesV6 r.writeBytes = .ok ([], r) := by
  rw [← List.append_nil r.writeBytes]
  refine parseAnnounce_writeBytes (fun rest => ?_) []
  cases hs : r.sourceIp with
  | v4 => simp [hs, SourceIp.isIpv4] at h
  | v6 hi lo => simp [SourceIp.writeBytes, bind, Except.bind, pure, Except.pure]

theorem takeHashes_writeBytes (hs : List InfoHash) :
    takeHashes hs.length (ScrapeRequest.writeBytes ⟨hs⟩) = some hs := by
  induction hs with
  | nil => rfl
  | cons h hs ih =>
      have hl := h.length_eq
      simp_all [takeHashes, ScrapeRequest.writeBytes, List.take_append_of_le_length,
        List.drop_append_of_le_length]

theorem length_scrape_writeBytes (s : ScrapeRequest) :
    s.writeBytes.length = shaHashLen * s.hashes.length := by
  obtain ⟨hs⟩ := s
  induction hs with
  | nil => rfl
  | cons h hs ih => simp_all [ScrapeRequest.writeBytes, h.length_eq, Nat.mul_succ, Nat.add_comm]

theorem ScrapeRequest.fromBytes_of_writeBytes (s : ScrapeRequest) :
    ScrapeRequest.fromBytes s.writeBytes = .ok ([], s) := by
  obtain ⟨hs⟩ := s
  simp [fromBytes, length_scrape_writeBytes, shaHashLen, takeHashes_writeBytes]

/-! Each parser accepts only what its writer writes: the input is the writer's bytes for the
value read, followed by the rest. -/

theorem AnnounceEvent.code_of_ofCode {c : UInt32} {e : AnnounceEvent} (h : ofCode c = some e) :
    e.code = c := by
  simp only [ofCode] at h
  split_ifs at h <;> cases h <;> simp [code, *]

theorem parseHash_eq_ok {i rest : Bytes} {h : ShaHash} (hp : parseHash i = .ok (rest, h)) :
    i = h.bytes ++ rest := by
  obtain ⟨⟨r, b⟩, hb, hp⟩ := except_bind_eq_ok.1 hp
  obtain ⟨-, rfl⟩ := take_eq_ok hb
  dsimp only at hp
  split at hp
  · cases hp; rw [ShaHash.bytes_of_fromHash ‹_›]
  · cases hp

theorem parseEvent_eq_ok {i rest : Bytes} {e : AnnounceEvent} (hp : parseEvent i = .ok (rest, e)) :
    i = writeU32 e.code ++ rest := by
  obtain ⟨⟨r, c⟩, hc, hp⟩ := except_bind_eq_ok.1 hp
  rw [beU32_eq_ok hc]
  dsimp only at hp
  split at hp
  · cases hp; rw [AnnounceEvent.code_of_ofCode ‹_›]
  · cases hp

/-- An accepted announce body is the writer's bytes for the request read, provided the address
parser accepts only written addresses, each with the property `P`. -/
theorem parseAnnounce_eq_ok {parseIp : Bytes → IResult SourceIp} {P : SourceIp → Prop}
    (hip : ∀ {i rest ip}, parseIp i = .ok (rest, ip) → P ip ∧ i = ip.writeBytes ++ rest)
    {i rest : Bytes} {r : AnnounceRequest} (hp : parseAnnounce parseIp i = .ok (rest, r)) :
    P r.sourceIp ∧ i = r.writeBytes ++ rest := by
  obtain ⟨⟨i, infoHash⟩, h1, hp⟩ := except_bind_eq_ok.1 hp
  obtain ⟨⟨i, peerId⟩, h2, hp⟩ := except_bind_eq_ok.1 hp
  obtain ⟨⟨i, downloaded⟩, h3, hp⟩ := except_bind_eq_ok.1 hp
  obtain ⟨⟨i, left⟩, h4, hp⟩ := except_bind_eq_ok.1 hp
  obtain ⟨⟨i, uploaded⟩, h5, hp⟩ := except_bind_eq_ok.1 hp
  obtain ⟨⟨i, event⟩, h6, hp⟩ := except_bind_eq_ok.1 hp
  obtain ⟨⟨i, sourceIp⟩, h7, hp⟩ := except_bind_eq_ok.1 hp
  obtain ⟨⟨i, key⟩, h8, hp⟩ := except_bind_eq_ok.1 hp
  obtain ⟨⟨i, numWant⟩, h9, hp⟩ := except_bind_eq_ok.1 hp
  obtain ⟨⟨i, port⟩, h10, hp⟩ := except_bind_eq_ok.1 hp
  cases hp
  obtain ⟨hP, h7⟩ := hip h7
  refine ⟨hP, ?_⟩
  rw [parseHash_eq_ok h1, parseHash_eq_ok h2, beU64_eq_ok h3, beU64_eq_ok h4, beU64_eq_ok h5,
    parseEvent_eq_ok h6, h7, beU32_eq_ok h8, beU32_eq_ok h9, beU16_eq_ok h10]
  simp only [AnnounceRequest.writeBytes, List.append_assoc]

theorem AnnounceRequest.fromBytesV4_eq_ok {i rest : Bytes} {r : AnnounceRequest}
    (h : AnnounceRequest.fromBytesV4 i = .ok (rest, r)) :
    r.sourceIp.isIpv4 = true ∧ i = r.writeBytes ++ rest := by
  refine parseAnnounce_eq_ok (P := fun ip => ip.isIpv4 = true) (fun {i rest ip} hip => ?_) h
  cases ha : beU32 i with
  | error => simp [ha, Except.map] at hip
  | ok p =>
      obtain ⟨r, a⟩ := p
      simp only [ha, Except.map, Except.ok.injEq, Prod.mk.injEq] at hip
      obtain ⟨rfl, rfl⟩ := hip
      exact ⟨rfl, beU32_eq_ok ha⟩

theorem AnnounceRequest.fromBytesV6_eq_ok {i rest : Bytes} {r : AnnounceRequest}
    (h : AnnounceRequest.fromBytesV6 i = .ok (rest, r)) :
    r.sourceIp.isIpv4 = false ∧ i = r.writeBytes ++ rest := by
  refine parseAnnounce_eq_ok (P := fun ip => ip.isIpv4 = false) (fun {i rest ip} hip => ?_) h
  obtain ⟨⟨i', hi⟩, h1, hip⟩ := except_bind_eq_ok.1 hip
  obtain ⟨⟨i'', lo⟩, h2, hip⟩ := except_bind_eq_ok.1 hip
  cases hip
  rw [beU64_eq_ok h1, beU64_eq_ok h2]
  exact ⟨rfl, by simp [SourceIp.writeBytes]⟩

theorem takeHashes_eq_some {n : Nat} {b : Bytes} {hs : List InfoHash}
    (h : takeHashes n b = some hs) :
    b = ScrapeRequest.writeBytes ⟨hs⟩ := by
  induction n generalizing b hs with
  | zero =>
      simp only [takeHashes] at h
      split_ifs at h with hb
      · cases h; exact hb
  | succ n ih =>
      obtain ⟨h₀, h0, h⟩ := Option.bind_eq_some.1 h
      obtain ⟨hs', hhs, h⟩ := Option.bind_eq_some.1 h
      cases h
      rw [← List.take_append_drop shaHashLen b, ← ShaHash.bytes_of_fromHash h0, ih hhs]
      rfl

theorem ScrapeRequest.fromBytes_eq_ok {i rest : Bytes} {s : ScrapeRequest}
    (h : ScrapeRequest.fromBytes i = .ok (rest, s)) : i = s.writeBytes ++ rest := by
  unfold fromBytes at h
  split at h
  · cases h; rw [List.append_nil]; exact takeHashes_eq_some ‹_›
  · cases h

end BitTorrentInfra.Tracker
