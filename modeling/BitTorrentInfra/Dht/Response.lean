import BitTorrentInfra.Dht.AnnouncePeer

/-!
`response.rs`: the validators responses share and `ResponseType::from_parts`, which looks up
the `r` dictionary and dispatches on the response kind the caller expects. The ping,
find-node and get-peers parsers are not among the sources; they are parameters here, so
every result below holds whatever they do. The compact node and value checks behind
`validate_nodes` and `validate_values` follow the specification.
-/

namespace BitTorrentInfra.Dht

/-- `RESPONSE_ARGS_KEY`. -/
def responseArgsKey : Bytes := ascii "r"

structure ResponseValidate where
  transId : Bytes

/-- `ResponseValidate::validate_node_id`. -/
def ResponseValidate.validateNodeId (v : ResponseValidate) (nodeId : Bytes) :
    Except DhtError NodeId :=
  match ShaHash.fromHash nodeId with
  | some h => .ok h
  | none => .error (.invalidResponse v.transId (.nodeIdLength nodeId.length))

/-- Modelled from the spec: `CompactNodeInfo`, a concatenation of 26-byte node entries. -/
structure CompactNodeInfo where
  nodes : Bytes
  length_dvd : nodes.length % 26 = 0

/-- Modelled from the spec: `CompactNodeInfo::new`. -/
def CompactNodeInfo.new (nodes : Bytes) : Option CompactNodeInfo :=
  if h : nodes.length % 26 = 0 then some ⟨nodes, h⟩ else none

/-- `ResponseValidate::validate_nodes`. -/
def ResponseValidate.validateNodes (v : ResponseValidate) (nodes : Bytes) :
    Except DhtError CompactNodeInfo :=
  match CompactNodeInfo.new nodes with
  | some c => .ok c
  | none => .error (.invalidResponse v.transId (.nodesLength nodes.length))

/-- A compact IPv4 endpoint: six bytes. -/
def IsCompactValue (b : Bencode) : Prop := ∃ bs, b = .bytes bs ∧ bs.length = 6

instance (b : Bencode) : Decidable (IsCompactValue b) :=
  match b with
  | .bytes bs => decidable_of_iff (bs.length = 6) (by simp [IsCompactValue])
  | .int _ | .list _ | .dict _ => isFalse (by simp [IsCompactValue])

/-- Modelled from the spec: `CompactValueInfo`, a list of six-byte strings. -/
structure CompactValueInfo where
  values : List Bencode
  compact : ∀ b ∈ values, IsCompactValue b

/-- Modelled from the spec: `CompactValueInfo::new`. -/
def CompactValueInfo.new (values : List Bencode) : Option CompactValueInfo :=
  if h : ∀ b ∈ values, IsCompactValue b then some ⟨values, h⟩ else none

/-- `ResponseValidate::validate_values`: every element a byte string, then the compact check. -/
def ResponseValidate.validateValues (v : ResponseValidate) (values : List Bencode) :
    Except DhtError CompactValueInfo :=
  if values.all fun b => b.bytes?.isSome then
    match CompactValueInfo.new values with
    | some c => .ok c
    | none => .error (.invalidResponse v.transId .valuesWrongLength)
  else .error (.invalidResponse v.transId .valuesNonBytes)

inductive ExpectedResponse
  | ping
  | findNode
  | getPeers
  | announcePeer
  | getData
  | putData
  | none
  deriving DecidableEq, Repr

/-- `ResponseType`, over the types of the responses whose sources are not modelled. -/
inductive ResponseType (Ping FindNode GetPeers : Type)
  | ping (r : Ping)
  | findNode (r : FindNode)
  | getPeers (r : GetPeers)
  | announcePeer (r : AnnouncePeerResponse)

/-- The `from_parts` of the responses whose sources are not modelled. -/
structure ResponseParsers (Ping FindNode GetPeers : Type) where
  ping : BDict → Bytes → Except DhtError Ping
  findNode : BDict → Bytes → Except DhtError FindNode
  getPeers : BDict → Bytes → Except DhtError GetPeers

section ResponseType

variable {Ping FindNode GetPeers : Type} (parsers : ResponseParsers Ping FindNode GetPeers)

/-- `ResponseType::from_parts`; `none` is the panic of `unimplemented!()`. -/
def ResponseType.fromParts (root : BDict) (transId : Bytes) (rspType : ExpectedResponse) :
    Option (Except DhtError (ResponseType Ping FindNode GetPeers)) :=
  match convert (lookupAndConvertDict root responseArgsKey) with
  | .error e => some (.error e)
  | .ok rqstRoot =>
      match rspType with
      | .ping => some ((parsers.ping rqstRoot transId).map .ping)
      | .findNode => some ((parsers.findNode rqstRoot transId).map .findNode)
      | .getPeers => some ((parsers.getPeers rqstRoot transId).map .getPeers)
      | .announcePeer => some ((AnnouncePeerResponse.fromParts rqstRoot transId).map .announcePeer)
      | .getData => none
      | .putData => none
      | .none => some (.error .unsolicitedResponse)

theorem AnnouncePeerResponse.canonical_encoded (p : AnnouncePeerResponse) :
    (benMap p.entries).Canonical := by
  refine canonical_benMap fun e he => ?_
  simp only [AnnouncePeerResponse.entries, List.mem_cons, List.not_mem_nil, or_false] at he
  rcases he with rfl | rfl | rfl
  · trivial
  · trivial
  · exact canonical_benMap (by simp [Bencode.Canonical])

/-- Decoding an encoded response and dispatching it as an expected `announce_peer` response
gives the response. -/
theorem ResponseType.fromParts_decode_encode (p : AnnouncePeerResponse) :
    ∃ root, Bencode.decode p.encode = some (.dict root) ∧
      ResponseType.fromParts parsers root p.transId .announcePeer =
        some (.ok (.announcePeer p)) := by
  have hd : (p.entries.map Prod.fst).Nodup := by
    show [transactionIdKey, messageTypeKey, responseTypeKey].Nodup; decide
  have hn : ([(nodeIdKey, Bencode.bytes p.nodeId.bytes)].map Prod.fst).Nodup := by simp
  refine ⟨BDict.ofList p.entries, Bencode.decode_encode p.canonical_encoded, ?_⟩
  simp +decide [ResponseType.fromParts, find?_ofList hd, find?_ofList hn,
    AnnouncePeerResponse.entries, AnnouncePeerResponse.fromParts, BDict.find?, benMap,
    lookupAndConvertDict, lookupAndConvertBytes, lookupAndConvert, convert, Bencode.dict?,
    Bencode.bytes?, Except.mapError, bind, Except.bind, pure, Except.pure, Except.map]

/-- `announce_peer` messages decode to themselves: a request's encoding, decoded, has argument
dictionary that `from_parts` turns back into the request, and a response's encoding, decoded
and dispatched as the expected kind, is the response. -/
theorem announce_peer_decode_encode (r : AnnouncePeerRequest) (p : AnnouncePeerResponse) :
    (∃ root args, Bencode.decode r.encode = some (.dict root) ∧
      BDict.find? requestArgsKey root = some (.dict args) ∧
      AnnouncePeerRequest.fromParts args r.transId = .ok r) ∧
    (∃ root, Bencode.decode p.encode = some (.dict root) ∧
      ResponseType.fromParts parsers root p.transId .announcePeer = some (.ok (.announcePeer p))) :=
  ⟨r.fromParts_decode_encode, ResponseType.fromParts_decode_encode parsers p⟩

end ResponseType

end BitTorrentInfra.Dht
