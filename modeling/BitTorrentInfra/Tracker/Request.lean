import BitTorrentInfra.Tracker.Body

/-!
UDP tracker requests (`utracker::request`): a big-endian header `connection_id ‖ action ‖
transaction_id` and then the action's body. The writer picks the announce action from the
source address family and the parser picks the body parser from the action, so the round
trip holds for any announce and scrape codecs that invert each other. The body codecs are
parameters here; `specBodyCodecs` gives the layouts of the tracker bodies.
-/

namespace BitTorrentInfra.Tracker
open Nom Nom.Complete

/-- `CONNECT_ID_PROTOCOL_ID`. -/
def connectIdProtocolId : UInt64 := 0x041727101980

/-- Modelled from the spec: `CONNECT_ACTION_ID`. -/
def connectActionId : UInt32 := 0
/-- Modelled from the spec: `ANNOUNCE_IPV4_ACTION_ID`. -/
def announceIpv4ActionId : UInt32 := 1
/-- Modelled from the spec: `SCRAPE_ACTION_ID`. -/
def scrapeActionId : UInt32 := 2
/-- Modelled from the spec: `ANNOUNCE_IPV6_ACTION_ID`. -/
def announceIpv6ActionId : UInt32 := 4

/-- The announce and scrape body codecs a request is written and parsed with. -/
structure BodyCodecs (Announce Scrape : Type) where
  sourceIsIpv4 : Announce → Bool
  writeAnnounce : Announce → Bytes
  fromBytesV4 : Bytes → IResult Announce
  fromBytesV6 : Bytes → IResult Announce
  writeScrape : Scrape → Bytes
  scrapeFromBytes : Bytes → IResult Scrape

inductive RequestType (Announce Scrape : Type)
  | connect
  | announce (req : Announce)
  | scrape (req : Scrape)
  deriving DecidableEq

structure TrackerRequest (Announce Scrape : Type) where
  connectionId : UInt64
  transactionId : UInt32
  requestType : RequestType Announce Scrape
  deriving DecidableEq

section Codec

variable {Announce Scrape : Type} (codecs : BodyCodecs Announce Scrape)

/-- `TrackerRequest::write_bytes`, as the bytes it writes. -/
def TrackerRequest.writeBytes (r : TrackerRequest Announce Scrape) : Bytes :=
  writeU64 r.connectionId ++
    match r.requestType with
    | .connect => writeU32 connectActionId ++ writeU32 r.transactionId
    | .announce req =>
        let actionId :=
          if codecs.sourceIsIpv4 req then announceIpv4ActionId else announceIpv6ActionId
        writeU32 actionId ++ writeU32 r.transactionId ++ codecs.writeAnnounce req
    | .scrape req => writeU32 scrapeActionId ++ writeU32 r.transactionId ++ codecs.writeScrape req

/-- `parse_request`: the header, then the body the `(connection_id, action)` pair selects. -/
def parseRequest (bytes : Bytes) : Except Err (Bytes × TrackerRequest Announce Scrape) := do
  let (remaining, connectionId) ← beU64 bytes
  let (remaining, actionId) ← beU32 remaining
  let (remaining, transactionId) ← beU32 remaining
  if connectionId = connectIdProtocolId ∧ actionId = connectActionId then
    pure (remaining, ⟨connectIdProtocolId, transactionId, .connect⟩)
  else if actionId = announceIpv4ActionId then
    let (remaining, annReq) ← codecs.fromBytesV4 remaining
    pure (remaining, ⟨connectionId, transactionId, .announce annReq⟩)
  else if actionId = scrapeActionId then
    let (remaining, scrReq) ← codecs.scrapeFromBytes remaining
    pure (remaining, ⟨connectionId, transactionId, .scrape scrReq⟩)
  else if actionId = announceIpv6ActionId then
    let (remaining, annReq) ← codecs.fromBytesV6 remaining
    pure (remaining, ⟨connectionId, transactionId, .announce annReq⟩)
  else .error (.error remaining .switch)

/-- `TrackerRequest::from_bytes`. -/
def TrackerRequest.fromBytes (bytes : Bytes) : IResult (TrackerRequest Announce Scrape) :=
  parseRequest codecs bytes

theorem parseRequest_header (cid : UInt64) (action tid : UInt32) (body : Bytes) :
    parseRequest codecs (writeU64 cid ++ (writeU32 action ++ (writeU32 tid ++ body))) =
      if cid = connectIdProtocolId ∧ action = connectActionId then
        .ok (body, ⟨connectIdProtocolId, tid, .connect⟩)
      else if action = announceIpv4ActionId then
        (codecs.fromBytesV4 body).map fun (r, a) => (r, ⟨cid, tid, .announce a⟩)
      else if action = scrapeActionId then
        (codecs.scrapeFromBytes body).map fun (r, s) => (r, ⟨cid, tid, .scrape s⟩)
      else if action = announceIpv6ActionId then
        (codecs.fromBytesV6 body).map fun (r, a) => (r, ⟨cid, tid, .announce a⟩)
      else .error (.error body .switch) := by
  rw [parseRequest]
  simp only [beU64_writeU64, beU32_writeU32, bind, Except.bind]
  rfl

/-- Parsing what `write_bytes` wrote gives the request back, with nothing left over, for any
body codecs that invert each other and any connect request carrying the protocol id. -/
theorem TrackerRequest.fromBytes_writeBytes
    (hv4 : ∀ a, codecs.sourceIsIpv4 a = true →
      codecs.fromBytesV4 (codecs.writeAnnounce a) = .ok ([], a))
    (hv6 : ∀ a, codecs.sourceIsIpv4 a = false →
      codecs.fromBytesV6 (codecs.writeAnnounce a) = .ok ([], a))
    (hs : ∀ s, codecs.scrapeFromBytes (codecs.writeScrape s) = .ok ([], s))
    (r : TrackerRequest Announce Scrape)
    (hr : r.requestType = .connect → r.connectionId = connectIdProtocolId) :
    TrackerRequest.fromBytes codecs (r.writeBytes codecs) = .ok ([], r) := by
  obtain ⟨cid, tid, rt⟩ := r
  cases rt with
  | connect =>
      obtain rfl : cid = connectIdProtocolId := hr rfl
      rw [fromBytes, writeBytes, ← List.append_nil (writeU32 tid), parseRequest_header]
      simp only [and_self, if_true]
  | announce a =>
      cases h : codecs.sourceIsIpv4 a <;>
        simp +decide [fromBytes, writeBytes, h, parseRequest_header, hv4 a, hv6 a, Except.map]
  | scrape s => simp +decide [fromBytes, writeBytes, parseRequest_header, hs s, Except.map]

/-- Whatever `from_bytes` accepts is exactly what `write_bytes` writes for the request it
returns, followed by the unread rest, for any body parsers that accept only what their
writers write (an announce read by the v4 parser having an IPv4 source, one read by the v6
parser not). With `fromBytes_writeBytes` the request encoding is a bijection. -/
theorem TrackerRequest.writeBytes_of_fromBytes
    (hv4 : ∀ {i rest a}, codecs.fromBytesV4 i = .ok (rest, a) →
      codecs.sourceIsIpv4 a = true ∧ i = codecs.writeAnnounce a ++ rest)
    (hv6 : ∀ {i rest a}, codecs.fromBytesV6 i = .ok (rest, a) →
      codecs.sourceIsIpv4 a = false ∧ i = codecs.writeAnnounce a ++ rest)
    (hs : ∀ {i rest s}, codecs.scrapeFromBytes i = .ok (rest, s) →
      i = codecs.writeScrape s ++ rest)
    {bytes rest : Bytes} {r : TrackerRequest Announce Scrape}
    (h : TrackerRequest.fromBytes codecs bytes = .ok (rest, r)) :
    bytes = r.writeBytes codecs ++ rest := by
  obtain ⟨⟨_, cid⟩, h1, h⟩ := except_bind_eq_ok.1 h
  obtain ⟨⟨_, action⟩, h2, h⟩ := except_bind_eq_ok.1 h
  obtain ⟨⟨_, tid⟩, h3, h⟩ := except_bind_eq_ok.1 h
  rw [beU64_eq_ok h1, beU32_eq_ok h2, beU32_eq_ok h3]
  split_ifs at h with hc ha1 ha2 ha6
  · cases h
    obtain ⟨rfl, rfl⟩ := hc
    simp [writeBytes]
  · obtain ⟨⟨_, a⟩, h4, h⟩ := except_bind_eq_ok.1 h
    cases h
    obtain ⟨hip, rfl⟩ := hv4 h4
    simp [writeBytes, hip, ha1]
  · obtain ⟨⟨_, sc⟩, h4, h⟩ := except_bind_eq_ok.1 h
    cases h
    simp [writeBytes, hs h4, ha2]
  · obtain ⟨⟨_, a⟩, h4, h⟩ := except_bind_eq_ok.1 h
    cases h
    obtain ⟨hip, rfl⟩ := hv6 h4
    simp [writeBytes, hip, ha6]

end Codec

/-- The specification's announce and scrape layouts as the body codecs. -/
def specBodyCodecs : BodyCodecs AnnounceRequest ScrapeRequest where
  sourceIsIpv4 r := r.sourceIp.isIpv4
  writeAnnounce := AnnounceRequest.writeBytes
  fromBytesV4 := AnnounceRequest.fromBytesV4
  fromBytesV6 := AnnounceRequest.fromBytesV6
  writeScrape := ScrapeRequest.writeBytes
  scrapeFromBytes := ScrapeRequest.fromBytes

/-- A connect request with transaction id 42. -/
def connectRequest : TrackerRequest AnnounceRequest ScrapeRequest :=
  ⟨connectIdProtocolId, 42, .connect⟩

example : connectRequest.writeBytes specBodyCodecs =
    [0x00, 0x00, 0x04, 0x17, 0x27, 0x10, 0x19, 0x80, 0, 0, 0, 0, 0, 0, 0, 42] := by decide

theorem fromBytes_writeBytes_connectRequest :
    (∀ a, specBodyCodecs.sourceIsIpv4 a = true →
      specBodyCodecs.fromBytesV4 (specBodyCodecs.writeAnnounce a) = .ok ([], a)) ∧
    (∀ a, specBodyCodecs.sourceIsIpv4 a = false →
      specBodyCodecs.fromBytesV6 (specBodyCodecs.writeAnnounce a) = .ok ([], a)) ∧
    (∀ s, specBodyCodecs.scrapeFromBytes (specBodyCodecs.writeScrape s) = .ok ([], s)) ∧
    (connectRequest.requestType = .connect →
      connectRequest.connectionId = connectIdProtocolId) ∧
    TrackerRequest.fromBytes specBodyCodecs (connectRequest.writeBytes specBodyCodecs) =
      .ok ([], connectRequest) :=
  ⟨fun _ => AnnounceRequest.fromBytesV4_writeBytes,
    fun _ => AnnounceRequest.fromBytesV6_writeBytes, ScrapeRequest.fromBytes_of_writeBytes,
    fun _ => rfl,
    TrackerRequest.fromBytes_writeBytes specBodyCodecs
      (fun _ => AnnounceRequest.fromBytesV4_writeBytes)
      (fun _ => AnnounceRequest.fromBytesV6_writeBytes) ScrapeRequest.fromBytes_of_writeBytes
      connectRequest fun _ => rfl⟩

theorem writeBytes_of_fromBytes_connect :
    (∀ {i rest a}, specBodyCodecs.fromBytesV4 i = .ok (rest, a) →
      specBodyCodecs.sourceIsIpv4 a = true ∧ i = specBodyCodecs.writeAnnounce a ++ rest) ∧
    (∀ {i rest a}, specBodyCodecs.fromBytesV6 i = .ok (rest, a) →
      specBodyCodecs.sourceIsIpv4 a = false ∧ i = specBodyCodecs.writeAnnounce a ++ rest) ∧
    (∀ {i rest s}, specBodyCodecs.scrapeFromBytes i = .ok (rest, s) →
      i = specBodyCodecs.writeScrape s ++ rest) ∧
    TrackerRequest.fromBytes specBodyCodecs
        [0x00, 0x00, 0x04, 0x17, 0x27, 0x10, 0x19, 0x80, 0, 0, 0, 0, 0, 0, 0, 42, 7] =
      .ok ([7], connectRequest) ∧
    [0x00, 0x00, 0x04, 0x17, 0x27, 0x10, 0x19, 0x80, 0, 0, 0, 0, 0, 0, 0, 42, 7] =
      connectRequest.writeBytes specBodyCodecs ++ [7] :=
  have h : TrackerRequest.fromBytes specBodyCodecs
      [0x00, 0x00, 0x04, 0x17, 0x27, 0x10, 0x19, 0x80, 0, 0, 0, 0, 0, 0, 0, 42, 7] =
      .ok ([7], connectRequest) := by rfl
  ⟨AnnounceRequest.fromBytesV4_eq_ok, AnnounceRequest.fromBytesV6_eq_ok,
    ScrapeRequest.fromBytes_eq_ok, h,
    TrackerRequest.writeBytes_of_fromBytes specBodyCodecs AnnounceRequest.fromBytesV4_eq_ok
      AnnounceRequest.fromBytesV6_eq_ok ScrapeRequest.fromBytes_eq_ok h⟩

end BitTorrentInfra.Tracker
