import BitTorrentInfra.Bencode.Value

/-!
The setters of `MetainfoBuilder` and `InfoBuilder`: the root dictionary of a torrent file
and the info dictionary the builder fills before hashing. Each root setter stores its value
under one key or removes the key. The private flag belongs to the info builder, whose
`and_then`/`or_else` chain removes the key it has just inserted whenever the key was absent
before, so a builder made by `new` never holds a private flag.

The last-write laws are proved for every sequence of setter calls. The getters are not
modelled; `build` and the piece-length policy it applies are in `Metainfo.Build` and
`Metainfo.PieceLength`.
-/

namespace BitTorrentInfra.Metainfo

open BDict

/-- Modelled from the spec: `parse::ANNOUNCE_URL_KEY`. -/
def announceUrlKey : Bytes := ascii "announce"
/-- Modelled from the spec: `parse::ANNOUNCE_LIST_KEY`. -/
def announceListKey : Bytes := ascii "announce-list"
/-- Modelled from the spec: `parse::CREATION_DATE_KEY`. -/
def creationDateKey : Bytes := ascii "creation date"
/-- Modelled from the spec: `parse::COMMENT_KEY`. -/
def commentKey : Bytes := ascii "comment"
/-- Modelled from the spec: `parse::CREATED_BY_KEY`. -/
def createdByKey : Bytes := ascii "created by"
/-- Modelled from the spec: `parse::PRIVATE_KEY`. -/
def privateKey : Bytes := ascii "private"

/-- Settings for the piece length of a generated torrent. -/
inductive PieceLength
  | optBalanced
  | optFileSize
  | optTransfer
  | custom (len : Nat)
  deriving DecidableEq, Repr

/-- The info dictionary under construction and the piece-length strategy kept beside it. -/
structure InfoBuilder where
  info : BDict
  pieceLength : PieceLength
  deriving DecidableEq

namespace InfoBuilder

def new : InfoBuilder := ⟨[], .optBalanced⟩

/-- The insert runs under `and_then` and reports the value it replaced; the remove runs
under `or_else` whenever that report is `None`. -/
def setPrivateFlag (b : InfoBuilder) (optIsPrivate : Option Bool) : InfoBuilder :=
  let optNumericIsPrivate := optIsPrivate.map I64.ofBool
  let (replaced, info) := match optNumericIsPrivate with
    | some numericIsPrivate => insert privateKey (.int numericIsPrivate) b.info
    | none => (none, b.info)
  let info := match replaced with
    | some _ => info
    | none => (remove privateKey info).2
  { b with info := info }

def setPieceLength (b : InfoBuilder) (pieceLength : PieceLength) : InfoBuilder :=
  { b with pieceLength := pieceLength }

/-- Where the private key is absent, setting the flag inserts it and takes it out again. -/
theorem setPrivateFlag_of_absent {b : InfoBuilder} (h : find? privateKey b.info = none)
    (optIsPrivate : Option Bool) : b.setPrivateFlag optIsPrivate = b := by
  cases optIsPrivate <;>
    simp [setPrivateFlag, insert_fst_of_find?_eq_none h, remove_of_find?_eq_none h]

@[simp] theorem setPrivateFlag_pieceLength (b : InfoBuilder) (o : Option Bool) :
    (b.setPrivateFlag o).pieceLength = b.pieceLength := rfl

end InfoBuilder

/-- The root dictionary of the torrent file and the info builder. -/
structure MetainfoBuilder where
  root : BDict
  info : InfoBuilder
  deriving DecidableEq

namespace MetainfoBuilder

def new : MetainfoBuilder := ⟨[], InfoBuilder.new⟩

/-- The body every root setter shares: with `Some(v)` store `v` under `key`, with `None`
remove `key`. -/
def setRootKey (b : MetainfoBuilder) (key : Bytes) (opt : Option Bencode) : MetainfoBuilder :=
  match opt with
  | some v => { b with root := (insert key v b.root).2 }
  | none => { b with root := (remove key b.root).2 }

/-- Tracker URLs are byte strings, as `ben_bytes!` stores a `&str`. -/
def setTrackers (b : MetainfoBuilder) (optTrackers : Option (List (List Bytes))) :
    MetainfoBuilder :=
  b.setRootKey announceListKey
    (optTrackers.map fun groups => .list (groups.map fun group => .list (group.map .bytes)))

def setMainTracker (b : MetainfoBuilder) (optTrackerUrl : Option Bytes) : MetainfoBuilder :=
  b.setRootKey announceUrlKey (optTrackerUrl.map .bytes)

def setCreationDate (b : MetainfoBuilder) (optSecsEpoch : Option I64) : MetainfoBuilder :=
  b.setRootKey creationDateKey (optSecsEpoch.map .int)

def setComment (b : MetainfoBuilder) (optComment : Option Bytes) : MetainfoBuilder :=
  b.setRootKey commentKey (optComment.map .bytes)

def setCreatedBy (b : MetainfoBuilder) (optCreatedBy : Option Bytes) : MetainfoBuilder :=
  b.setRootKey createdByKey (optCreatedBy.map .bytes)

def setPrivateFlag (b : MetainfoBuilder) (optIsPrivate : Option Bool) : MetainfoBuilder :=
  { b with info := b.info.setPrivateFlag optIsPrivate }

def setPieceLength (b : MetainfoBuilder) (pieceLength : PieceLength) : MetainfoBuilder :=
  { b with info := b.info.setPieceLength pieceLength }

@[simp] theorem setRootKey_info (b : MetainfoBuilder) (key : Bytes) (opt : Option Bencode) :
    (b.setRootKey key opt).info = b.info := by
  cases opt <;> rfl

theorem find?_setRootKey (b : MetainfoBuilder) (key : Bytes) (opt : Option Bencode) (k : Bytes) :
    find? k (b.setRootKey key opt).root = if key = k then opt else find? k b.root := by
  by_cases h : key = k
  · subst h; cases opt <;> simp [setRootKey]
  · cases opt <;> simp [setRootKey, h, find?_insert_ne (Ne.symm h), find?_remove_ne (Ne.symm h)]

end MetainfoBuilder

/-- One setter call of `MetainfoBuilder`, with its argument. -/
inductive Setter
  | trackers (optTrackers : Option (List (List Bytes)))
  | mainTracker (optTrackerUrl : Option Bytes)
  | creationDate (optSecsEpoch : Option I64)
  | comment (optComment : Option Bytes)
  | createdBy (optCreatedBy : Option Bytes)
  | privateFlag (optIsPrivate : Option Bool)
  | pieceLength (pieceLength : PieceLength)

namespace MetainfoBuilder

def apply (b : MetainfoBuilder) : Setter → MetainfoBuilder
  | .trackers v => b.setTrackers v
  | .mainTracker v => b.setMainTracker v
  | .creationDate v => b.setCreationDate v
  | .comment v => b.setComment v
  | .createdBy v => b.setCreatedBy v
  | .privateFlag v => b.setPrivateFlag v
  | .pieceLength v => b.setPieceLength v

/-- A chain of setter calls, left to right. -/
def run (b : MetainfoBuilder) (calls : List Setter) : MetainfoBuilder := calls.foldl apply b

end MetainfoBuilder

namespace Setter

/-- What the metainfo format says a call stores in the root dictionary: the key it names
and the value left there, `none` for an unset; the info setters store nothing there. -/
def rootWrite : Setter → Option (Bytes × Option Bencode)
  | .trackers v =>
      some (announceListKey, v.map fun groups => .list (groups.map fun g => .list (g.map .bytes)))
  | .mainTracker v => some (announceUrlKey, v.map .bytes)
  | .creationDate v => some (creationDateKey, v.map .int)
  | .comment v => some (commentKey, v.map .bytes)
  | .createdBy v => some (createdByKey, v.map .bytes)
  | .privateFlag _ | .pieceLength _ => none

/-- The value under `k` after the call, given the value `old` before it. -/
def writeRoot (c : Setter) (k : Bytes) (old : Option Bencode) : Option Bencode :=
  match c.rootWrite with
  | some (key, v) => if key = k then v else old
  | none => old

end Setter

namespace MetainfoBuilder

theorem find?_apply_root (b : MetainfoBuilder) (c : Setter) (k : Bytes) :
    find? k (b.apply c).root = c.writeRoot k (find? k b.root) := by
  cases c <;> simp [apply, setTrackers, setMainTracker, setCreationDate, setComment,
    setCreatedBy, setPrivateFlag, setPieceLength, Setter.writeRoot, Setter.rootWrite,
    find?_setRootKey]

/-- After any chain of calls each root key holds what the last call naming it stored, and
a key no call names keeps its value. -/
theorem find?_run_root (b : MetainfoBuilder) (calls : List Setter) (k : Bytes) :
    find? k (b.run calls).root = calls.foldl (fun old c => c.writeRoot k old) (find? k b.root) := by
  induction calls generalizing b with
  | nil => rfl
  | cons c calls ih => simp only [run, List.foldl_cons] at ih ⊢; rw [ih, find?_apply_root]

theorem apply_info_of_absent {b : MetainfoBuilder} (h : find? privateKey b.info.info = none)
    (c : Setter) : (b.apply c).info.info = b.info.info := by
  cases c <;> simp [apply, setTrackers, setMainTracker, setCreationDate, setComment,
    setCreatedBy, setPrivateFlag, setPieceLength, InfoBuilder.setPieceLength,
    InfoBuilder.setPrivateFlag_of_absent h]

theorem run_info_of_absent {b : MetainfoBuilder} (h : find? privateKey b.info.info = none)
    (calls : List Setter) : (b.run calls).info.info = b.info.info := by
  induction calls generalizing b with
  | nil => rfl
  | cons c calls ih =>
      have hc := apply_info_of_absent h c
      simp only [run, List.foldl_cons] at ih ⊢
      rw [ih (hc ▸ h), hc]

/-- A builder made by `new` keeps an empty info dictionary, so it never holds a private flag. -/
theorem run_new_info_empty (calls : List Setter) : (MetainfoBuilder.new.run calls).info.info = [] :=
  @run_info_of_absent MetainfoBuilder.new rfl calls

/-- `set_private_flag(Some(true))` on a new builder leaves no private flag. -/
theorem new_setPrivateFlag_true_drops_key :
    find? privateKey (MetainfoBuilder.new.setPrivateFlag (some true)).info.info = none := by
  decide

end MetainfoBuilder

end BitTorrentInfra.Metainfo
