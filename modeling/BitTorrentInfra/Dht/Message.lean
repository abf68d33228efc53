import BitTorrentInfra.Bencode.Codec

/-!
The parts of the DHT message layer that `announce_peer.rs` and `response.rs` use but that are
not among the sources: the bencode keys of `message`, the `DhtError` kinds, and the node-id
and info-hash checks of `RequestValidate`. They follow the specification's key list and its
validation rules.

`find?_ofList` is the lookup law for a dictionary built by `ben_map!` with distinct keys;
the message codecs read their own encodings back through it.
-/

namespace BitTorrentInfra.Dht

/-- Modelled from the spec: `message::TRANSACTION_ID_KEY`. -/
def transactionIdKey : Bytes := ascii "t"
/-- Modelled from the spec: `message::MESSAGE_TYPE_KEY`. -/
def messageTypeKey : Bytes := ascii "y"
/-- Modelled from the spec: `message::REQUEST_TYPE_KEY`, the `y` of a query and its kind's key. -/
def requestTypeKey : Bytes := ascii "q"
/-- Modelled from the spec: `message::RESPONSE_TYPE_KEY`. -/
def responseTypeKey : Bytes := ascii "r"
/-- Modelled from the spec: `request::REQUEST_ARGS_KEY`. -/
def requestArgsKey : Bytes := ascii "a"
/-- Modelled from the spec: `request::ANNOUNCE_PEER_TYPE_KEY`. -/
def announcePeerTypeKey : Bytes := ascii "announce_peer"
/-- Modelled from the spec: `message::NODE_ID_KEY`. -/
def nodeIdKey : Bytes := ascii "id"
/-- Modelled from the spec: `message::INFO_HASH_KEY`. -/
def infoHashKey : Bytes := ascii "info_hash"
/-- Modelled from the spec: `message::TOKEN_KEY`. -/
def tokenKey : Bytes := ascii "token"

/-- What a failed validation reports. `ResponseValidate` formats these, with the
transaction id, into the `details` text of `InvalidResponse`. -/
inductive ValidationDetail
  | nodeIdLength (len : Nat)
  | infoHashLength (len : Nat)
  | nodesLength (len : Nat)
  | valuesNonBytes
  | valuesWrongLength
  deriving DecidableEq, Repr

/-- Modelled from the spec: `DhtError`, restricted to the kinds the modelled code raises. -/
inductive DhtError
  | bencode (e : BencodeConvertError)
  | invalidRequest (transId : Bytes) (detail : ValidationDetail)
  | invalidResponse (transId : Bytes) (detail : ValidationDetail)
  | unsolicitedResponse
  deriving DecidableEq, Repr

/-- `BConvert::handle_error` of the DHT validators: `error.into()`. -/
def convert {α : Type} (r : Except BencodeConvertError α) : Except DhtError α :=
  r.mapError .bencode

/-- Modelled from the spec: `RequestValidate`, which checks that node ids and info hashes
are exactly twenty bytes. -/
structure RequestValidate where
  transId : Bytes

/-- Modelled from the spec: `RequestValidate::validate_node_id`. -/
def RequestValidate.validateNodeId (v : RequestValidate) (nodeId : Bytes) :
    Except DhtError NodeId :=
  match ShaHash.fromHash nodeId with
  | some h => .ok h
  | none => .error (.invalidRequest v.transId (.nodeIdLength nodeId.length))

/-- Modelled from the spec: `RequestValidate::validate_info_hash`. -/
def RequestValidate.validateInfoHash (v : RequestValidate) (infoHash : Bytes) :
    Except DhtError InfoHash :=
  match ShaHash.fromHash infoHash with
  | some h => .ok h
  | none => .error (.invalidRequest v.transId (.infoHashLength infoHash.length))

@[simp] theorem RequestValidate.validateNodeId_bytes (v : RequestValidate) (h : ShaHash) :
    v.validateNodeId h.bytes = .ok h := by
  simp [validateNodeId]

@[simp] theorem RequestValidate.validateInfoHash_bytes (v : RequestValidate) (h : ShaHash) :
    v.validateInfoHash h.bytes = .ok h := by
  simp [validateInfoHash]

theorem convert_lookupAndConvertInt_eq_ok {d : BDict} {key : Bytes} {n : I64} :
    convert (lookupAndConvertInt d key) = .ok n ↔ d.find? key = some (.int n) := by
  unfold convert lookupAndConvertInt lookupAndConvert
  split
  · simp_all [Except.mapError]
  · rename_i v hv
    cases v <;> simp_all [Except.mapError, Bencode.int?]

theorem find?_eq_none_of_not_mem {k : Bytes} {d : BDict} (h : k ∉ d.map Prod.fst) :
    BDict.find? k d = none := by
  induction d with
  | nil => rfl
  | cons e d ih =>
      simp only [List.map_cons, List.mem_cons, not_or] at h
      simp [BDict.find?, h.1, ih h.2]

/-- A dictionary built by `ben_map!` from entries with distinct keys finds what the entries
list does. -/
theorem find?_ofList {entries : List (Bytes × Bencode)} (hd : (entries.map Prod.fst).Nodup)
    (k : Bytes) : BDict.find? k (BDict.ofList entries) = BDict.find? k entries := by
  suffices ∀ acc : BDict,
      BDict.find? k (entries.foldl (fun m e => (BDict.insert e.1 e.2 m).2) acc) =
      if k ∈ entries.map Prod.fst then BDict.find? k entries else BDict.find? k acc by
    rw [BDict.ofList, this]
    split
    · rfl
    · exact (find?_eq_none_of_not_mem ‹_›).symm
  induction entries with
  | nil => simp
  | cons e es ih =>
      obtain ⟨k', v'⟩ := e
      simp only [List.map_cons, List.nodup_cons] at hd
      intro acc
      rw [List.foldl_cons, ih hd.2]
      by_cases hk : k = k'
      · subst hk
        simp [hd.1, BDict.find?]
      · by_cases hm : k ∈ es.map Prod.fst <;>
          simp [hm, hk, BDict.find?, BDict.find?_insert_ne hk]

end BitTorrentInfra.Dht
