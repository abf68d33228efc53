import BitTorrentInfra.Dht.Message

/-!
`announce_peer` queries and responses: decoding from a message's argument dictionary and
encoding to bencode. A request's port is read from `implied_port` when that is a non-zero
integer, and otherwise from `port`, whose magnitude is cut to sixteen bits. Encoding always
writes both keys, with a dummy port of `0` for an implied port.
-/

namespace BitTorrentInfra.Dht

/-- `PORT_KEY`. -/
def portKey : Bytes := ascii "port"
/-- `IMPLIED_PORT_KEY`. -/
def impliedPortKey : Bytes := ascii "implied_port"

inductive ConnectPort
  | implied
  | explicit (port : UInt16)
  deriving DecidableEq, Repr

structure AnnouncePeerRequest where
  transId : Bytes
  nodeId : NodeId
  infoHash : InfoHash
  token : Bytes
  port : ConnectPort
  deriving DecidableEq

/-- The port an `Explicit` request carries: `(port?).unsigned_abs() as u16`. -/
def explicitPort (port : Except DhtError I64) : Except DhtError ConnectPort := do
  let n ← port
  pure (.explicit (UInt16.ofNat n.val.natAbs))

/-- The `response_port` match of `from_parts`: `Implied` for a non-zero integer under
`implied_port`, otherwise the port read from `port`. -/
def responsePort (rqstRoot : BDict) (port : Except DhtError I64) : Except DhtError ConnectPort :=
  match (rqstRoot.find? impliedPortKey).map Bencode.int? with
  | some (some n) => if n.val ≠ 0 then pure .implied else explicitPort port
  | _ => explicitPort port

/-- `AnnouncePeerRequest::from_parts`. -/
def AnnouncePeerRequest.fromParts (rqstRoot : BDict) (transId : Bytes) :
    Except DhtError AnnouncePeerRequest := do
  let validate : RequestValidate := ⟨transId⟩
  let nodeIdBytes ← convert (lookupAndConvertBytes rqstRoot nodeIdKey)
  let nodeId ← validate.validateNodeId nodeIdBytes
  let infoHashBytes ← convert (lookupAndConvertBytes rqstRoot infoHashKey)
  let infoHash ← validate.validateInfoHash infoHashBytes
  let token ← convert (lookupAndConvertBytes rqstRoot tokenKey)
  let port := convert (lookupAndConvertInt rqstRoot portKey)
  let responsePort ← responsePort rqstRoot port
  pure ⟨transId, nodeId, infoHash, token, responsePort⟩

/-- The argument entries `encode` writes. -/
def AnnouncePeerRequest.args (r : AnnouncePeerRequest) : List (Bytes × Bencode) :=
  let (displayedPort, impliedValue) : UInt16 × I64 :=
    match r.port with
    | .implied => (0, ⟨1, by norm_num⟩)
    | .explicit n => (n, ⟨0, by norm_num⟩)
  [(nodeIdKey, .bytes r.nodeId.bytes),
   (impliedPortKey, .int impliedValue),
   (infoHashKey, .bytes r.infoHash.bytes),
   (portKey, .int (I64.ofU16 displayedPort)),
   (tokenKey, .bytes r.token)]

/-- The query entries `encode` writes. -/
def AnnouncePeerRequest.entries (r : AnnouncePeerRequest) : List (Bytes × Bencode) :=
  [(transactionIdKey, .bytes r.transId),
   (messageTypeKey, .bytes requestTypeKey),
   (requestTypeKey, .bytes announcePeerTypeKey),
   (requestArgsKey, benMap r.args)]

/-- `AnnouncePeerRequest::encode`. -/
def AnnouncePeerRequest.encode (r : AnnouncePeerRequest) : Bytes := (benMap r.entries).encode

structure AnnouncePeerResponse where
  transId : Bytes
  nodeId : NodeId
  deriving DecidableEq

/-- `AnnouncePeerResponse::from_parts`. -/
def AnnouncePeerResponse.fromParts (rqstRoot : BDict) (transId : Bytes) :
    Except DhtError AnnouncePeerResponse := do
  let validate : RequestValidate := ⟨transId⟩
  let nodeIdBytes ← convert (lookupAndConvertBytes rqstRoot nodeIdKey)
  let nodeId ← validate.validateNodeId nodeIdBytes
  pure ⟨transId, nodeId⟩

/-- The response entries `encode` writes. -/
def AnnouncePeerResponse.entries (p : AnnouncePeerResponse) : List (Bytes × Bencode) :=
  [(transactionIdKey, .bytes p.transId),
   (messageTypeKey, .bytes responseTypeKey),
   (responseTypeKey, benMap [(nodeIdKey, .bytes p.nodeId.bytes)])]

/-- `AnnouncePeerResponse::encode`. -/
def AnnouncePeerResponse.encode (p : AnnouncePeerResponse) : Bytes := (benMap p.entries).encode

theorem AnnouncePeerRequest.args_keys (r : AnnouncePeerRequest) :
    r.args.map Prod.fst = [nodeIdKey, impliedPortKey, infoHashKey, portKey, tokenKey] := rfl

theorem AnnouncePeerRequest.entries_keys (r : AnnouncePeerRequest) :
    r.entries.map Prod.fst =
      [transactionIdKey, messageTypeKey, requestTypeKey, requestArgsKey] := rfl

theorem AnnouncePeerRequest.fromParts_args (r : AnnouncePeerRequest) :
    AnnouncePeerRequest.fromParts (BDict.ofList r.args) r.transId = .ok r := by
  have hd : (r.args.map Prod.fst).Nodup := by rw [args_keys]; decide
  obtain ⟨t, nid, ih, tok, port⟩ := r
  cases port <;>
    simp +decide [fromParts, responsePort, find?_ofList hd, args, BDict.find?,
      lookupAndConvertBytes, lookupAndConvertInt, lookupAndConvert, convert, explicitPort,
      Bencode.int?, Bencode.bytes?, Except.mapError, bind, Except.bind, pure, Except.pure,
      I64.ofU16]

theorem AnnouncePeerRequest.canonical_encoded (r : AnnouncePeerRequest) :
    (benMap r.entries).Canonical := by
  refine canonical_benMap fun e he => ?_
  simp only [entries, List.mem_cons, List.not_mem_nil, or_false] at he
  rcases he with rfl | rfl | rfl | rfl
  · trivial
  · trivial
  · trivial
  · exact canonical_benMap (by unfold args; split; simp [Bencode.Canonical])

/-- Decoding an encoded request and reading its arguments back gives the request. -/
theorem AnnouncePeerRequest.fromParts_decode_encode (r : AnnouncePeerRequest) :
    ∃ root args, Bencode.decode r.encode = some (.dict root) ∧
      BDict.find? requestArgsKey root = some (.dict args) ∧
      AnnouncePeerRequest.fromParts args r.transId = .ok r := by
  have hd : (r.entries.map Prod.fst).Nodup := by rw [entries_keys]; decide
  refine ⟨BDict.ofList r.entries, BDict.ofList r.args, Bencode.decode_encode r.canonical_encoded,
    ?_, r.fromParts_args⟩
  rw [find?_ofList hd]
  simp +decide [entries, BDict.find?, benMap]

theorem explicitPort_eq_ok {port : Except DhtError I64} {p : ConnectPort} :
    explicitPort port = .ok p ↔
      ∃ n, port = .ok n ∧ p = .explicit (UInt16.ofNat n.val.natAbs) := by
  cases port <;> simp [explicitPort, bind, Except.bind, pure, Except.pure, eq_comm]

theorem responsePort_explicit {d : BDict} {port : Except DhtError I64}
    (himp : ∀ n, (d.find? impliedPortKey).bind Bencode.int? = some n → n.val = 0) :
    responsePort d port = explicitPort port := by
  unfold responsePort
  split
  · rename_i n hn
    have : n.val = 0 := himp n (by cases h : d.find? impliedPortKey <;> simp_all)
    simp [this]
  · rfl

/-- Without a non-zero integer under `implied_port`, a decoded request's port is the integer
under `port`, its magnitude cut to sixteen bits. -/
theorem AnnouncePeerRequest.fromParts_explicit_port {d : BDict} {t : Bytes}
    {r : AnnouncePeerRequest} (hok : AnnouncePeerRequest.fromParts d t = .ok r)
    (himp : ∀ n, (d.find? impliedPortKey).bind Bencode.int? = some n → n.val = 0) :
    ∃ n : I64, d.find? portKey = some (.int n) ∧
      r.port = .explicit (UInt16.ofNat n.val.natAbs) := by
  simp only [fromParts, except_bind_eq_ok, responsePort_explicit himp] at hok
  obtain ⟨_, -, _, -, _, -, _, -, _, -, p, hp, hr⟩ := hok
  obtain ⟨n, hn, rfl⟩ := explicitPort_eq_ok.1 hp
  cases hr
  exact ⟨n, convert_lookupAndConvertInt_eq_ok.1 hn, rfl⟩

/-- The all-zero twenty-byte hash. -/
def zeroHash : ShaHash := ⟨List.replicate 20 0, rfl⟩

/-- Arguments whose `port` integer, 65536, does not fit in sixteen bits. -/
def widePortArgs : BDict :=
  BDict.ofList [(nodeIdKey, .bytes zeroHash.bytes), (infoHashKey, .bytes zeroHash.bytes),
    (tokenKey, .bytes []), (portKey, .int ⟨65536, by norm_num⟩),
    (impliedPortKey, .int ⟨0, by norm_num⟩)]

theorem fromParts_explicit_port_wide :
    AnnouncePeerRequest.fromParts widePortArgs [] =
      .ok ⟨[], zeroHash, zeroHash, [], .explicit 0⟩ ∧
    (∀ n, (widePortArgs.find? impliedPortKey).bind Bencode.int? = some n → n.val = 0) ∧
    ∃ n : I64, widePortArgs.find? portKey = some (.int n) ∧
      ConnectPort.explicit 0 = .explicit (UInt16.ofNat n.val.natAbs) :=
  have hok : AnnouncePeerRequest.fromParts widePortArgs [] =
      .ok ⟨[], zeroHash, zeroHash, [], .explicit 0⟩ := rfl
  have himp : ∀ n, (widePortArgs.find? impliedPortKey).bind Bencode.int? = some n → n.val = 0 :=
    fun n hn => by cases hn; rfl
  ⟨hok, himp, AnnouncePeerRequest.fromParts_explicit_port hok himp⟩

/-- A `port` of 65536 with `implied_port` zero is accepted, and read as port 0. -/
theorem fromParts_accepts_port_out_of_range :
    widePortArgs.find? portKey = some (.int ⟨65536, by norm_num⟩) ∧
    AnnouncePeerRequest.fromParts widePortArgs [] =
      .ok ⟨[], zeroHash, zeroHash, [], .explicit 0⟩ :=
  ⟨rfl, rfl⟩

end BitTorrentInfra.Dht
