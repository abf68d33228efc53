import BitTorrentInfra.Bencode.Codec
import BitTorrentInfra.Metainfo.PieceLength

/-!
`build_with_accessor`, the last stage of the metainfo builder: from the accessor's file list
and the hasher's piece hashes to the bencoded torrent file. The accessor and the hasher
workers are not among the sources and are parameters. The total size fixes the piece length;
the number of pieces asked of the hasher is the total over the piece length in binary64,
rounded up; the info dictionary gets the piece length, the concatenated hashes, a name and
either a `length` (no directory, at most one file) or a `files` list; the root, when there is
one, gets the info dictionary under `info`, and the result is encoded.

Every assertion, index and `unwrap` on the way panics, modelled as `none`; an error of the
accessor or of the hasher is passed on. The sum of the file lengths wraps at `2 ^ 64`, as a
release build computes it; a debug build panics on that overflow instead, which the model
leaves out.
-/

namespace BitTorrentInfra.Metainfo

open BDict

/-- Modelled from the spec: `parse::PIECE_LENGTH_KEY`. -/
def pieceLengthKey : Bytes := ascii "piece length"
/-- Modelled from the spec: `parse::PIECES_KEY`. -/
def piecesKey : Bytes := ascii "pieces"
/-- Modelled from the spec: `parse::NAME_KEY`. -/
def nameKey : Bytes := ascii "name"
/-- Modelled from the spec: `parse::FILES_KEY`. -/
def filesKey : Bytes := ascii "files"
/-- Modelled from the spec: `parse::LENGTH_KEY`. -/
def lengthKey : Bytes := ascii "length"
/-- Modelled from the spec: `parse::PATH_KEY`. -/
def pathKey : Bytes := ascii "path"
/-- Modelled from the spec: `parse::INFO_KEY`. -/
def infoKey : Bytes := ascii "info"

/-- Modelled from the spec: what an `Accessor` reports, the name of its directory if it has
one, and the length and path components of each file or the error `access_metadata` fails
with. -/
structure Accessor (ε : Type) where
  accessDirectory : Option Bytes
  accessMetadata : Except ε (List (Nat × List Bytes))

/-- `total_files_len`: the lengths summed as a `u64`, wrapping as a release build does. -/
def totalFilesLen (filesInfo : List (Nat × List Bytes)) : Nat :=
  filesInfo.foldl (fun acc nex => (acc + nex.1) % 2 ^ 64) 0

/-- `(total_files_len as f64) / (piece_length as f64)`, asserted within `0..=i64::MAX`, then
`ceil() as i64`; `none` where the assertion panics, as it does for a zero piece length, whose
quotient is infinite or NaN. -/
def totalNumPieces (totalFilesLen pieceLength : Nat) : Option Nat :=
  if pieceLength = 0 then none
  else
    let totalNumPieces := F64.div (F64.ofNat totalFilesLen) (F64.ofNat pieceLength)
    if F64.le F64.zero totalNumPieces && F64.le totalNumPieces i64MaxF64 then
      some totalNumPieces.ceil.toI64
    else none

/-- `map_pieces_list`: the hashes, concatenated. -/
def mapPiecesList (pieces : List ShaHash) : Bytes := (pieces.map ShaHash.bytes).flatten

/-- One entry of the `files` list: the length, which must fit an `i64`, and the path. -/
def fileEntry (len : Nat) (path : List Bytes) : Option Bencode :=
  (I64.ofInt? len).map fun len =>
    benMap [(lengthKey, .int len), (pathKey, .list (path.map .bytes))]

/-- The `files` list, one entry per file in the accessor's order. -/
def filesList : List (Nat × List Bytes) → Option (List Bencode)
  | [] => some []
  | (len, path) :: filesInfo => do
      let entry ← fileEntry len path
      let entries ← filesList filesInfo
      pure (entry :: entries)

/-- The updates of the info dictionary: piece length and pieces, then `name` and `files`
when the accessor has a directory or several files, `length` and `name` otherwise. -/
def fillInfo (info : BDict) (pieceLength : Nat) (pieces : Bytes)
    (accessDirectory : Option Bytes) (filesInfo : List (Nat × List Bytes)) : Option BDict := do
  let pieceLength ← I64.ofInt? pieceLength
  let info := (insert pieceLengthKey (.int pieceLength) info).2
  let info := (insert piecesKey (.bytes pieces) info).2
  match accessDirectory, decide (filesInfo.length > 1) with
  | some directory, _ =>
      let files ← filesList filesInfo
      pure (insert filesKey (.list files) (insert nameKey (.bytes directory) info).2).2
  | none, true =>
      let files ← filesList filesInfo
      pure (insert filesKey (.list files) (insert nameKey (.bytes []) info).2).2
  | none, false =>
      let (len, path) ← filesInfo.head?
      let len ← I64.ofInt? len
      pure (insert nameKey (.bytes path.flatten) (insert lengthKey (.int len) info).2).2

/-- The value `build_with_accessor` encodes: the root with the info dictionary inserted under
`info`, or the info dictionary alone. -/
def torrentValue (optRoot : Option BDict) (info : BDict) : Bencode :=
  match optRoot with
  | some root => .dict (insert infoKey (.dict info) root).2
  | none => .dict info

/-- What `build_with_accessor` does with the hasher's result: fill the info dictionary, put
it under `info` in the root when there is one, and encode. -/
def finishBuild {ε : Type} (optRoot : Option BDict) (info : BDict) (pieceLength : Nat)
    (accessDirectory : Option Bytes) (filesInfo : List (Nat × List Bytes)) :
    Except ε (List (Nat × ShaHash)) → Option (Except ε Bytes)
  | .error e => some (.error e)
  | .ok piecesList => do
      let info ← fillInfo info pieceLength (mapPiecesList (piecesList.map Prod.snd))
        accessDirectory filesInfo
      pure (.ok (torrentValue optRoot info).encode)

/-- `build_with_accessor`, with `hasher pieceLength totalNumPieces` the result of the hasher
workers; `none` where it panics. -/
def buildWithAccessor {ε : Type} (threads : Nat) (accessor : Accessor ε)
    (hasher : Nat → Nat → Except ε (List (Nat × ShaHash))) (optRoot : Option BDict)
    (info : BDict) (pieceLength : PieceLength) : Option (Except ε Bytes) :=
  if threads = 0 then none
  else match accessor.accessMetadata with
    | .error e => some (.error e)
    | .ok filesInfo => do
        let totalFilesLen := totalFilesLen filesInfo
        let pieceLength ← determinePieceLength totalFilesLen pieceLength
        let totalNumPieces ← totalNumPieces totalFilesLen pieceLength
        finishBuild optRoot info pieceLength accessor.accessDirectory filesInfo
          (hasher pieceLength totalNumPieces)

/-- `MetainfoBuilder::build`, with the accessor already converted by `into_accessor`. -/
def MetainfoBuilder.build {ε : Type} (b : MetainfoBuilder) (threads : Nat)
    (accessor : Accessor ε) (hasher : Nat → Nat → Except ε (List (Nat × ShaHash))) :
    Option (Except ε Bytes) :=
  buildWithAccessor threads accessor hasher (some b.root) b.info.info b.info.pieceLength

/-- `InfoBuilder::build`, with the accessor already converted by `into_accessor`. -/
def InfoBuilder.build {ε : Type} (b : InfoBuilder) (threads : Nat) (accessor : Accessor ε)
    (hasher : Nat → Nat → Except ε (List (Nat × ShaHash))) : Option (Except ε Bytes) :=
  buildWithAccessor threads accessor hasher none b.info b.pieceLength

/-! ### The number of pieces -/

theorem totalFilesLen_lt (filesInfo : List (Nat × List Bytes)) :
    totalFilesLen filesInfo < 2 ^ 64 := by
  unfold totalFilesLen
  cases filesInfo using List.reverseRecOn with
  | nil => decide
  | append_singleton l f => rw [List.foldl_append, List.foldl_cons, List.foldl_nil]; omega

theorem ceil_scaled_div_pow (t i : Nat) (hi : i ≤ 1074) :
    (t * 2 ^ (1074 - i) + 2 ^ 1074 - 1) / 2 ^ 1074 = (t + 2 ^ i - 1) / 2 ^ i := by
  have hQ : 0 < 2 ^ (1074 - i) := pow_pos two_pos _
  have hP : 0 < 2 ^ i := pow_pos two_pos _
  rw [show (2 : Nat) ^ 1074 = 2 ^ (1074 - i) * 2 ^ i by rw [← pow_add, Nat.sub_add_cancel hi]]
  generalize 2 ^ (1074 - i) = Q at *
  generalize 2 ^ i = P at *
  obtain ⟨Q, rfl⟩ : ∃ Q', Q = Q' + 1 := ⟨Q - 1, by omega⟩
  obtain ⟨P, rfl⟩ : ∃ P', P = P' + 1 := ⟨P - 1, by omega⟩
  have e : t * (Q + 1) + (Q + 1) * (P + 1) - 1 = (Q + 1) * (t + (P + 1) - 1) + Q := by
    rw [show t + (P + 1) - 1 = t + P by omega,
      show t * (Q + 1) + (Q + 1) * (P + 1) = (Q + 1) * (t + P) + Q + 1 by ring, Nat.add_sub_cancel]
  rw [e, ← Nat.div_div_eq_div_mul, Nat.mul_add_div hQ, Nat.div_eq_of_lt (show Q < Q + 1 by omega),
    Nat.add_zero]

set_option exponentiation.threshold 2500 in
theorem totalNumPieces_eq {t l : Nat} (hl : l ≠ 0)
    (h : (F64.div (F64.ofNat t) (F64.ofNat l)).scaled ≤ 2 ^ 63 * 2 ^ 1074) :
    totalNumPieces t l = some (min (((F64.div (F64.ofNat t) (F64.ofNat l)).scaled + 2 ^ 1074 - 1)
      / 2 ^ 1074) (2 ^ 63 - 1)) := by
  have hle : F64.le (F64.div (F64.ofNat t) (F64.ofNat l)) i64MaxF64 = true :=
    decide_eq_true (by rwa [i64MaxF64_scaled, show 1137 = 63 + 1074 by rfl, pow_add])
  simp only [totalNumPieces, hl, if_false, F64.le_zero_left, hle, Bool.and_self, if_true,
    F64.toI64_ceil]

theorem totalNumPieces_isSome {t l : Nat} (ht : t < 2 ^ 64) (hl : 2 ≤ l) (hl53 : l < 2 ^ 53) :
    ∃ n, totalNumPieces t l = some n := by
  have hy := F64.ofNat_scaled hl53
  have hq : (F64.div (F64.ofNat t) (F64.ofNat l)).scaled ≤ 1 * 2 ^ 63 * 2 ^ 1074 :=
    F64.div_le (by rw [hy]; positivity) (by norm_num) (by
      rw [hy]
      calc (F64.ofNat t).scaled ≤ 1 * 2 ^ 64 * 2 ^ 1074 := F64.ofNat_le (by norm_num) (by omega)
        _ = 1 * 2 ^ 63 * (2 * 2 ^ 1074) := by ring
        _ ≤ 1 * 2 ^ 63 * (l * 2 ^ 1074) := Nat.mul_le_mul_left _ (Nat.mul_le_mul_right _ hl))
  exact ⟨_, totalNumPieces_eq (by omega) (by rwa [Nat.one_mul] at hq)⟩

set_option exponentiation.threshold 2500 in
theorem totalNumPieces_pow_two {t i : Nat} (ht : t < 2 ^ 53) (hi : i ≤ 52) :
    totalNumPieces t (2 ^ i) = some ((t + 2 ^ i - 1) / 2 ^ i) := by
  have hP : 0 < 2 ^ i := pow_pos two_pos _
  have hy : (F64.ofNat (2 ^ i)).scaled = 2 ^ i * 2 ^ 1074 :=
    F64.ofNat_scaled (Nat.pow_lt_pow_right (by norm_num) (by omega))
  have hq : (F64.div (F64.ofNat t) (F64.ofNat (2 ^ i))).scaled = t * 2 ^ (1074 - i) :=
    F64.div_exact (hy ▸ Nat.mul_pos hP (pow_pos two_pos _)) ht (by
      rw [F64.ofNat_scaled ht, hy,
        show (2 : Nat) ^ 1074 = 2 ^ (1074 - i) * 2 ^ i by
          rw [← pow_add, Nat.sub_add_cancel (by omega)]]
      ring)
  rw [totalNumPieces_eq hP.ne' (hq ▸ Nat.mul_le_mul (ht.le.trans (by norm_num))
      (Nat.pow_le_pow_right two_pos (by omega))), hq, ceil_scaled_div_pow t i (by omega)]
  refine congrArg some (min_eq_left ((Nat.div_le_self _ _).trans ?_))
  have : 2 ^ i ≤ 2 ^ 52 := Nat.pow_le_pow_right two_pos hi
  omega

/-- Past the threads check and the accessor, with the piece length and count settled, the
build is what it makes of the hasher's result. -/
theorem buildWithAccessor_eq_finishBuild {ε : Type} {threads : Nat} {accessor : Accessor ε}
    {hasher : Nat → Nat → Except ε (List (Nat × ShaHash))} {optRoot : Option BDict}
    {info : BDict} {s : PieceLength} {filesInfo : List (Nat × List Bytes)} {l n : Nat}
    (h0 : threads ≠ 0)
    (hm : accessor.accessMetadata = .ok filesInfo)
    (hl : determinePieceLength (totalFilesLen filesInfo) s = some l)
    (hn : totalNumPieces (totalFilesLen filesInfo) l = some n) :
    buildWithAccessor threads accessor hasher optRoot info s =
      finishBuild optRoot info l accessor.accessDirectory filesInfo (hasher l n) := by
  simp only [buildWithAccessor, h0, if_false, hm, hl, hn, Option.bind_eq_bind, Option.some_bind]

/-- Below `2 ^ 53` bytes in all and with an optimising strategy, `build_with_accessor` gets to
the hasher without panicking and asks it for exactly `⌈t / l⌉` pieces of the policy's length
`l`, so that the pieces cover every byte. -/
theorem buildWithAccessor_hashes_ceil {ε : Type} {threads : Nat} {accessor : Accessor ε}
    {filesInfo : List (Nat × List Bytes)} (hthreads : threads ≠ 0)
    (hmeta : accessor.accessMetadata = .ok filesInfo) (ht : totalFilesLen filesInfo < 2 ^ 53)
    (hasher : Nat → Nat → Except ε (List (Nat × ShaHash))) (optRoot : Option BDict)
    (info : BDict) {s : PieceLength}
    (hs : s = .optBalanced ∨ s = .optFileSize ∨ s = .optTransfer) :
    ∃ l, determinePieceLength (totalFilesLen filesInfo) s = some l ∧
      buildWithAccessor threads accessor hasher optRoot info s =
        finishBuild optRoot info l accessor.accessDirectory filesInfo
          (hasher l ((totalFilesLen filesInfo + l - 1) / l)) := by
  obtain ⟨i, -, hi, hl⟩ := determinePieceLength_opt (totalFilesLen_lt filesInfo) hs
  refine ⟨_, hl, ?_⟩
  simp [buildWithAccessor, hthreads, hmeta, hl, totalNumPieces_pow_two ht (by omega : i ≤ 52)]

/-- One file of five bytes, outside a directory, with the balanced strategy. -/
def oneSmallFile : Accessor Unit := ⟨none, .ok [(5, [ascii "a"])]⟩

theorem buildWithAccessor_hashes_ceil_oneSmallFile :
    ∃ l, determinePieceLength (totalFilesLen [(5, [ascii "a"])]) .optBalanced = some l ∧
      buildWithAccessor 1 oneSmallFile (fun _ _ => .ok []) none [] .optBalanced =
        finishBuild none [] l oneSmallFile.accessDirectory [(5, [ascii "a"])]
          ((fun _ _ => .ok []) l ((totalFilesLen [(5, [ascii "a"])] + l - 1) / l)) :=
  buildWithAccessor_hashes_ceil (by decide) rfl (by decide) _ none [] (.inl rfl)

/-- A build that returns bytes went through every stage: threads, metadata, piece length,
piece count, hashes, info dictionary, encoding. -/
theorem buildWithAccessor_ok {ε : Type} {threads : Nat} {accessor : Accessor ε}
    {hasher : Nat → Nat → Except ε (List (Nat × ShaHash))} {optRoot : Option BDict}
    {info : BDict} {s : PieceLength} {bytes : Bytes}
    (h : buildWithAccessor threads accessor hasher optRoot info s = some (.ok bytes)) :
    threads ≠ 0 ∧ ∃ filesInfo l n piecesList info',
      accessor.accessMetadata = .ok filesInfo ∧
      determinePieceLength (totalFilesLen filesInfo) s = some l ∧
      totalNumPieces (totalFilesLen filesInfo) l = some n ∧
      hasher l n = .ok piecesList ∧
      fillInfo info l (mapPiecesList (piecesList.map Prod.snd)) accessor.accessDirectory
        filesInfo = some info' ∧
      bytes = (torrentValue optRoot info').encode := by
  unfold buildWithAccessor at h
  split_ifs at h with h0
  refine ⟨h0, ?_⟩
  split at h
  · cases h
  rename_i filesInfo hmeta
  obtain ⟨l, hl, h⟩ := Option.bind_eq_some.1 h
  obtain ⟨n, hn, h⟩ := Option.bind_eq_some.1 h
  generalize hh : hasher l n = r at h
  cases r with
  | error e => cases h
  | ok piecesList =>
      unfold finishBuild at h
      obtain ⟨info', hi, h⟩ := Option.bind_eq_some.1 h
      cases h
      exact ⟨filesInfo, l, n, piecesList, info', hmeta, hl, hn, hh, hi, rfl⟩

theorem filesList_eq_some {filesInfo : List (Nat × List Bytes)} {entries : List Bencode} :
    filesList filesInfo = some entries ↔
      List.Forall₂ (fun f e => fileEntry f.1 f.2 = some e) filesInfo entries := by
  induction filesInfo generalizing entries with
  | nil => cases entries <;> simp [filesList]
  | cons f filesInfo ih =>
      obtain ⟨len, path⟩ := f
      cases entries <;> simp [filesList, ih, Option.bind_eq_some]

theorem fileEntry_canonical {len : Nat} {path : List Bytes} {e : Bencode}
    (h : fileEntry len path = some e) : e.Canonical := by
  obtain ⟨n, -, rfl⟩ := Option.map_eq_some'.1 h
  refine canonical_benMap fun x hx => ?_
  simp only [List.mem_cons, List.mem_singleton, List.not_mem_nil, or_false] at hx
  rcases hx with rfl | rfl
  · trivial
  · exact (canonicalList_iff _).2 fun v hv => by
      obtain ⟨b, -, rfl⟩ := List.mem_map.1 hv
      trivial

theorem filesList_canonical {filesInfo : List (Nat × List Bytes)} {entries : List Bencode}
    (h : filesList filesInfo = some entries) : ∀ e ∈ entries, e.Canonical := by
  induction filesInfo generalizing entries with
  | nil => cases h; simp
  | cons f filesInfo ih =>
      rw [filesList] at h
      obtain ⟨e, he, h⟩ := Option.bind_eq_some.1 h
      obtain ⟨es, hes, h⟩ := Option.bind_eq_some.1 h
      cases h
      exact List.forall_mem_cons.2 ⟨fileEntry_canonical he, ih hes⟩

/-- The two shapes of a filled info dictionary: `files` under the directory's name (or an
empty one), or a lone file's `length` and its path as the name. -/
theorem fillInfo_eq_some {info info' : BDict} {l : Nat} {pieces : Bytes} {dir : Option Bytes}
    {filesInfo : List (Nat × List Bytes)} (h : fillInfo info l pieces dir filesInfo = some info') :
    ∃ n : I64, n.val = l ∧
      ((∃ files, filesList filesInfo = some files ∧ (dir ≠ none ∨ 1 < filesInfo.length) ∧
        info' = (insert filesKey (.list files) (insert nameKey (.bytes (dir.getD []))
          (insert piecesKey (.bytes pieces) (insert pieceLengthKey (.int n) info).2).2).2).2) ∨
      (∃ len path, ∃ m : I64, dir = none ∧ filesInfo = [(len, path)] ∧ m.val = len ∧
        info' = (insert nameKey (.bytes path.flatten) (insert lengthKey (.int m)
          (insert piecesKey (.bytes pieces) (insert pieceLengthKey (.int n) info).2).2).2).2)) := by
  unfold fillInfo at h
  obtain ⟨n, hn, h⟩ := Option.bind_eq_some.1 h
  refine ⟨n, I64.val_of_ofInt? hn, ?_⟩
  cases dir with
  | some directory =>
      obtain ⟨files, hf, h⟩ := Option.bind_eq_some.1 h
      cases h
      exact .inl ⟨files, hf, .inl (by simp), rfl⟩
  | none =>
      by_cases hlen : filesInfo.length > 1
      · rw [decide_eq_true hlen] at h
        obtain ⟨files, hf, h⟩ := Option.bind_eq_some.1 h
        cases h
        exact .inl ⟨files, hf, .inr hlen, rfl⟩
      · rw [decide_eq_false hlen] at h
        obtain ⟨⟨len, path⟩, hhead, h⟩ := Option.bind_eq_some.1 h
        obtain ⟨m, hm, h⟩ := Option.bind_eq_some.1 h
        cases h
        refine .inr ⟨len, path, m, rfl, ?_, I64.val_of_ofInt? hm, rfl⟩
        rcases filesInfo with _ | ⟨f, _ | ⟨g, rest⟩⟩
        · cases hhead
        · simpa using hhead
        · simp at hlen

/-- The info dictionary of one five-byte file named `a`, with 512 KiB pieces and no hashes. -/
def oneSmallFileInfo : BDict :=
  (insert nameKey (.bytes (ascii "a")) (insert lengthKey (.int ⟨5, by decide⟩)
    (insert piecesKey (.bytes [])
      (insert pieceLengthKey (.int ⟨524288, by decide⟩) []).2).2).2).2

theorem fillInfo_canonical {info info' : BDict} {l : Nat} {pieces : Bytes} {dir : Option Bytes}
    {filesInfo : List (Nat × List Bytes)} (hinfo : (Bencode.dict info).Canonical)
    (h : fillInfo info l pieces dir filesInfo = some info') : (Bencode.dict info').Canonical := by
  obtain ⟨n, -, ⟨files, hf, -, rfl⟩ | ⟨len, path, m, -, -, -, rfl⟩⟩ :=
    fillInfo_eq_some h
  all_goals have base := canonical_insert (canonical_insert hinfo (v := .int n) trivial
    pieceLengthKey) (v := .bytes pieces) trivial piecesKey
  · refine canonical_insert (canonical_insert base (v := .bytes _) trivial _)
      (v := .list files) ((canonicalList_iff _).2 ?_) _
    exact filesList_canonical hf
  · exact canonical_insert (canonical_insert base (v := .int m) trivial _) (v := .bytes _)
      trivial _

theorem buildWithAccessor_decode {ε : Type} {threads : Nat} {accessor : Accessor ε}
    {hasher : Nat → Nat → Except ε (List (Nat × ShaHash))} {optRoot : Option BDict}
    {info : BDict} {s : PieceLength} {bytes : Bytes}
    (hroot : ∀ root, optRoot = some root → (Bencode.dict root).Canonical)
    (hinfo : (Bencode.dict info).Canonical)
    (h : buildWithAccessor threads accessor hasher optRoot info s = some (.ok bytes)) :
    ∃ filesInfo l n piecesList info',
      accessor.accessMetadata = .ok filesInfo ∧
      determinePieceLength (totalFilesLen filesInfo) s = some l ∧
      hasher l n = .ok piecesList ∧
      fillInfo info l (mapPiecesList (piecesList.map Prod.snd)) accessor.accessDirectory
        filesInfo = some info' ∧
      Bencode.decode bytes = some (torrentValue optRoot info') := by
  obtain ⟨-, filesInfo, l, n, piecesList, info', hmeta, hl, -, hh, hi, rfl⟩ :=
    buildWithAccessor_ok h
  refine ⟨filesInfo, l, n, piecesList, info', hmeta, hl, hh, hi, ?_⟩
  have hinfo' := fillInfo_canonical hinfo hi
  cases optRoot with
  | none => exact Bencode.decode_encode hinfo'
  | some root => exact Bencode.decode_encode (canonical_insert (hroot root rfl) hinfo' infoKey)

theorem canonical_empty : (Bencode.dict []).Canonical := ⟨.nil, trivial⟩

namespace MetainfoBuilder

theorem canonical_setRootKey {b : MetainfoBuilder} (hb : (Bencode.dict b.root).Canonical)
    (key : Bytes) {opt : Option Bencode} (hv : ∀ v, opt = some v → v.Canonical) :
    (Bencode.dict (b.setRootKey key opt).root).Canonical := by
  cases opt with
  | none => exact canonical_remove hb key
  | some v => exact canonical_insert hb (hv v rfl) key

theorem canonical_apply {b : MetainfoBuilder} (hb : (Bencode.dict b.root).Canonical)
    (c : Setter) : (Bencode.dict (b.apply c).root).Canonical := by
  have scalar : ∀ {α : Type} (f : α → Bencode), (∀ a, (f a).Canonical) →
      ∀ (o : Option α) v, o.map f = some v → v.Canonical := fun f hf o v h => by
    obtain ⟨a, -, rfl⟩ := Option.map_eq_some'.1 h
    exact hf a
  cases c with
  | trackers v =>
      refine canonical_setRootKey hb _ (scalar _ (fun groups => ?_) v)
      refine (canonicalList_iff _).2 fun g hg => ?_
      obtain ⟨group, -, rfl⟩ := List.mem_map.1 hg
      exact (canonicalList_iff _).2 fun e he => by
        obtain ⟨_, -, rfl⟩ := List.mem_map.1 he
        trivial
  | mainTracker v | comment v | createdBy v =>
      exact canonical_setRootKey hb _ (scalar Bencode.bytes (fun _ => trivial) v)
  | creationDate v => exact canonical_setRootKey hb _ (scalar Bencode.int (fun _ => trivial) v)
  | privateFlag v | pieceLength v => exact hb

theorem canonical_run {b : MetainfoBuilder} (hb : (Bencode.dict b.root).Canonical)
    (calls : List Setter) : (Bencode.dict (b.run calls).root).Canonical := by
  induction calls generalizing b with
  | nil => exact hb
  | cons c calls ih => exact ih (canonical_apply hb c)

/-- Whatever setters were called on a new builder, the bytes `build` returns are canonical
bencode: they decode to the root dictionary the setters left, with the info dictionary filled
from the accessor's files, the policy's piece length and the hasher's pieces added under
`info`. -/
theorem build_decode {ε : Type} (calls : List Setter) {threads : Nat} {accessor : Accessor ε}
    {hasher : Nat → Nat → Except ε (List (Nat × ShaHash))} {bytes : Bytes}
    (h : (MetainfoBuilder.new.run calls).build threads accessor hasher = some (.ok bytes)) :
    ∃ filesInfo l n piecesList info,
      accessor.accessMetadata = .ok filesInfo ∧
      determinePieceLength (totalFilesLen filesInfo)
        (MetainfoBuilder.new.run calls).info.pieceLength = some l ∧
      hasher l n = .ok piecesList ∧
      fillInfo [] l (mapPiecesList (piecesList.map Prod.snd)) accessor.accessDirectory
        filesInfo = some info ∧
      Bencode.decode bytes =
        some (.dict (insert infoKey (.dict info) (MetainfoBuilder.new.run calls).root).2) := by
  have hinfo : (MetainfoBuilder.new.run calls).info.info = [] :=
    @run_info_of_absent MetainfoBuilder.new rfl calls
  unfold build at h
  rw [hinfo] at h
  exact buildWithAccessor_decode
    (fun _ hr => by cases hr; exact canonical_run (b := MetainfoBuilder.new) canonical_empty calls)
    canonical_empty h

set_option maxRecDepth 4000 in
set_option exponentiation.threshold 2500 in
theorem build_decode_oneSmallFile :
    ∃ bytes, (MetainfoBuilder.new.run []).build 1 oneSmallFile (fun _ _ => .ok []) =
        some (.ok bytes) ∧
      ∃ filesInfo l n piecesList info,
        oneSmallFile.accessMetadata = .ok filesInfo ∧
        determinePieceLength (totalFilesLen filesInfo)
          (MetainfoBuilder.new.run []).info.pieceLength = some l ∧
        (fun _ _ => .ok [] : Nat → Nat → Except Unit (List (Nat × ShaHash))) l n =
          .ok piecesList ∧
        fillInfo [] l (mapPiecesList (piecesList.map Prod.snd)) oneSmallFile.accessDirectory
          filesInfo = some info ∧
        Bencode.decode bytes =
          some (.dict (insert infoKey (.dict info) (MetainfoBuilder.new.run []).root).2) := by
  have hl : determinePieceLength (totalFilesLen [(5, [ascii "a"])]) .optBalanced =
      some 524288 := by decide
  have hn : totalNumPieces (totalFilesLen [(5, [ascii "a"])]) 524288 = some 1 := by decide
  have h : (MetainfoBuilder.new.run []).build 1 oneSmallFile (fun _ _ => .ok []) =
      some (.ok (torrentValue (some []) oneSmallFileInfo).encode) := by
    simp only [build, run, List.foldl, buildWithAccessor, oneSmallFile, hl, hn]
    rfl
  exact ⟨_, h, build_decode [] h⟩

end MetainfoBuilder

/-! ### When the build panics -/

theorem fileEntry_eq_none {len : Nat} {path : List Bytes} :
    fileEntry len path = none ↔ 2 ^ 63 ≤ len := by
  rw [fileEntry, Option.map_eq_none', I64.ofInt?_natCast_eq_none]

theorem filesList_eq_none {filesInfo : List (Nat × List Bytes)} :
    filesList filesInfo = none ↔ ∃ f ∈ filesInfo, 2 ^ 63 ≤ f.1 := by
  induction filesInfo with
  | nil => simp [filesList]
  | cons f filesInfo ih =>
      obtain ⟨len, path⟩ := f
      have hbad : (∃ f ∈ (len, path) :: filesInfo, 2 ^ 63 ≤ f.1) ↔
          fileEntry len path = none ∨ filesList filesInfo = none := by
        rw [fileEntry_eq_none, ih]; simp
      rw [hbad, filesList]
      cases fileEntry len path <;> cases filesList filesInfo <;> simp [bind, Option.bind]

theorem fillInfo_eq_none {info : BDict} {l : Nat} {pieces : Bytes} {dir : Option Bytes}
    {filesInfo : List (Nat × List Bytes)} (hl : l < 2 ^ 63) :
    fillInfo info l pieces dir filesInfo = none ↔
      dir = none ∧ filesInfo = [] ∨ ∃ f ∈ filesInfo, 2 ^ 63 ≤ f.1 := by
  obtain ⟨n, hn⟩ : ∃ n, I64.ofInt? l = some n :=
    Option.ne_none_iff_exists'.1 fun h => absurd (I64.ofInt?_natCast_eq_none.1 h) (by omega)
  simp only [fillInfo, hn, Option.pure_def, Option.bind_eq_bind, Option.some_bind]
  cases dir with
  | some directory => rw [← filesList_eq_none]; cases filesList filesInfo <;> simp
  | none =>
      by_cases hlen : filesInfo.length > 1
      · have hne : filesInfo ≠ [] := List.ne_nil_of_length_pos (by omega)
        rw [decide_eq_true hlen, ← filesList_eq_none]
        cases filesList filesInfo <;> simp [hne]
      · rw [decide_eq_false hlen]
        cases hh : filesInfo.head? with
        | none =>
            obtain rfl := List.head?_eq_none_iff.1 hh
            simp
        | some d =>
            obtain rfl : filesInfo = [d] := by
              rcases filesInfo with _ | ⟨f, _ | ⟨g, rest⟩⟩ <;> simp_all
            have hr : ((none : Option Bytes) = none ∧ [d] = [] ∨
                ∃ f ∈ [d], 2 ^ 63 ≤ f.1) ↔ I64.ofInt? (d.1 : Int) = none := by
              simp [I64.ofInt?_natCast_eq_none]
            rw [Option.some_bind, hr]
            cases I64.ofInt? (d.1 : Int)
            · exact iff_of_true rfl rfl
            · exact iff_of_false (fun h => nomatch h) (fun h => nomatch h)

/-- In a release build, where the sum of the file lengths wraps, with an optimising strategy
and a hasher that returns its hashes, `build_with_accessor` panics exactly when it is given no
threads, or when the accessor reads but there is neither a directory nor a file, or some file
has `2 ^ 63` bytes or more, a length no `i64` holds. -/
theorem buildWithAccessor_eq_none_iff {ε : Type} (threads : Nat) (accessor : Accessor ε)
    (hasher : Nat → Nat → Except ε (List (Nat × ShaHash)))
    (hh : ∀ l n, ∃ piecesList, hasher l n = .ok piecesList) (optRoot : Option BDict)
    (info : BDict) {s : PieceLength}
    (hs : s = .optBalanced ∨ s = .optFileSize ∨ s = .optTransfer) :
    buildWithAccessor threads accessor hasher optRoot info s = none ↔
      threads = 0 ∨ ∃ filesInfo, accessor.accessMetadata = .ok filesInfo ∧
        (accessor.accessDirectory = none ∧ filesInfo = [] ∨
          ∃ f ∈ filesInfo, 2 ^ 63 ≤ f.1) := by
  by_cases h0 : threads = 0
  · simp [buildWithAccessor, h0]
  cases hm : accessor.accessMetadata with
  | error e => simp [buildWithAccessor, h0, hm]
  | ok filesInfo =>
      obtain ⟨i, hi10, hi24, hl⟩ := determinePieceLength_opt (totalFilesLen_lt filesInfo) hs
      have hP : 2 ^ 1 ≤ 2 ^ i := Nat.pow_le_pow_right two_pos (by omega)
      have hP' : 2 ^ i ≤ 2 ^ 24 := Nat.pow_le_pow_right two_pos hi24
      obtain ⟨n, hn⟩ := totalNumPieces_isSome (totalFilesLen_lt filesInfo) hP (by omega)
      obtain ⟨piecesList, hps⟩ := hh (2 ^ i) n
      simp only [h0, false_or, Except.ok.injEq, exists_eq_left']
      rw [buildWithAccessor_eq_finishBuild h0 hm hl hn, hps, finishBuild,
        ← @fillInfo_eq_none info (2 ^ i) (mapPiecesList (piecesList.map Prod.snd))
          accessor.accessDirectory filesInfo (by omega)]
      cases fillInfo info (2 ^ i) (mapPiecesList (piecesList.map Prod.snd)) accessor.accessDirectory
        filesInfo
      · exact iff_of_true rfl rfl
      · exact iff_of_false (fun h => nomatch h) (fun h => nomatch h)

/-- One file of `2 ^ 63` bytes. -/
def hugeFile : Accessor Unit := ⟨none, .ok [(2 ^ 63, [ascii "huge"])]⟩

/-- A hasher that returns no hashes. -/
def noHashes : Nat → Nat → Except Unit (List (Nat × ShaHash)) := fun _ _ => .ok []

theorem buildWithAccessor_eq_none_iff_hugeFile :
    (∀ l n, ∃ piecesList, noHashes l n = .ok piecesList) ∧
    (PieceLength.optBalanced = .optBalanced ∨ PieceLength.optBalanced = .optFileSize ∨
      PieceLength.optBalanced = .optTransfer) ∧
    (buildWithAccessor 1 hugeFile noHashes none [] .optBalanced = none ↔
      1 = 0 ∨ ∃ filesInfo, hugeFile.accessMetadata = .ok filesInfo ∧
        (hugeFile.accessDirectory = none ∧ filesInfo = [] ∨
          ∃ f ∈ filesInfo, 2 ^ 63 ≤ f.1)) :=
  have hh : ∀ l n, ∃ piecesList, noHashes l n = .ok piecesList := fun _ _ => ⟨[], rfl⟩
  ⟨hh, .inl rfl, buildWithAccessor_eq_none_iff 1 hugeFile noHashes hh none [] (.inl rfl)⟩

end BitTorrentInfra.Metainfo
