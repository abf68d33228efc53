import BitTorrentInfra.Wire.Bytes

/-!
Bencode values as the `bencode` crate builds and reads them. The crate's sources are not
part of this development, so its behaviour is modelled from the specification: integers,
byte strings, lists and ordered dictionaries, dictionaries keyed by byte strings in the
byte order of a `BTreeMap`, `ben_map!` inserting its entries one by one, and typed lookups
that fail with the key and the kind they expected.

Dictionaries are association lists; the lookup, insertion and removal laws below hold on
every list, and insertion keeps a strictly sorted list sorted, which is what makes the
encoder's key order canonical.
-/

namespace BitTorrentInfra

/-- Rust's `i64`, as the integer it denotes. -/
structure I64 where
  val : Int
  range : -2 ^ 63 ≤ val ∧ val < 2 ^ 63
  deriving DecidableEq

/-- The `i64` an integer denotes, if it fits. -/
def I64.ofInt? (n : Int) : Option I64 :=
  if h : -2 ^ 63 ≤ n ∧ n < 2 ^ 63 then some ⟨n, h⟩ else none

/-- `i64::from` on a `u16`. -/
def I64.ofU16 (x : UInt16) : I64 :=
  ⟨x.toNat, by have := x.toNat_lt_size; simp only [UInt16.size] at this; omega⟩

/-- `i64::from` on a `bool`. -/
def I64.ofBool (b : Bool) : I64 := ⟨if b then 1 else 0, by split <;> decide⟩

@[simp] theorem I64.ofInt?_val (n : I64) : I64.ofInt? n.val = some n := dif_pos n.range

theorem I64.val_of_ofInt? {n : Int} {m : I64} (h : I64.ofInt? n = some m) : m.val = n := by
  unfold I64.ofInt? at h; split at h <;> cases h; rfl

/-- A natural number fits an `i64` exactly below `2 ^ 63`. -/
theorem I64.ofInt?_natCast_eq_none {n : Nat} : I64.ofInt? n = none ↔ 2 ^ 63 ≤ n := by
  unfold I64.ofInt?; split <;> simp_all <;> omega

/-- A bencode value. -/
inductive Bencode
  | int (n : I64)
  | bytes (b : Bytes)
  | list (l : List Bencode)
  | dict (d : List (Bytes × Bencode))

mutual
def Bencode.decEq : (a b : Bencode) → Decidable (a = b)
  | .int a, .int b =>
      if h : a = b then isTrue (h ▸ rfl) else isFalse fun e => by cases e; exact h rfl
  | .bytes a, .bytes b =>
      if h : a = b then isTrue (h ▸ rfl) else isFalse fun e => by cases e; exact h rfl
  | .list a, .list b =>
      match Bencode.decEqList a b with
      | isTrue h => isTrue (h ▸ rfl)
      | isFalse h => isFalse fun e => by cases e; exact h rfl
  | .dict a, .dict b =>
      match Bencode.decEqDict a b with
      | isTrue h => isTrue (h ▸ rfl)
      | isFalse h => isFalse fun e => by cases e; exact h rfl
  | .int _, .bytes _ | .int _, .list _ | .int _, .dict _
  | .bytes _, .int _ | .bytes _, .list _ | .bytes _, .dict _
  | .list _, .int _ | .list _, .bytes _ | .list _, .dict _
  | .dict _, .int _ | .dict _, .bytes _ | .dict _, .list _ => isFalse fun e => Bencode.noConfusion e
def Bencode.decEqList : (a b : List Bencode) → Decidable (a = b)
  | [], [] => isTrue rfl
  | [], _ :: _ | _ :: _, [] => isFalse fun e => List.noConfusion e
  | x :: xs, y :: ys =>
      match Bencode.decEq x y, Bencode.decEqList xs ys with
      | isTrue h, isTrue h' => isTrue (h ▸ h' ▸ rfl)
      | isFalse h, _ => isFalse fun e => h (List.cons.inj e).1
      | _, isFalse h' => isFalse fun e => h' (List.cons.inj e).2
def Bencode.decEqDict : (a b : List (Bytes × Bencode)) → Decidable (a = b)
  | [], [] => isTrue rfl
  | [], _ :: _ | _ :: _, [] => isFalse fun e => List.noConfusion e
  | (k, x) :: xs, (k', y) :: ys =>
      if hk : k = k' then
        match Bencode.decEq x y, Bencode.decEqDict xs ys with
        | isTrue h, isTrue h' => isTrue (hk ▸ h ▸ h' ▸ rfl)
        | isFalse h, _ => isFalse fun e => h (Prod.mk.inj (List.cons.inj e).1).2
        | _, isFalse h' => isFalse fun e => h' (List.cons.inj e).2
      else isFalse fun e => hk (Prod.mk.inj (List.cons.inj e).1).1
end

instance : DecidableEq Bencode := Bencode.decEq

/-- A bencode dictionary, entries in key order. -/
abbrev BDict := List (Bytes × Bencode)

/-- `BRefAccess::int`. -/
def Bencode.int? : Bencode → Option I64
  | .int n => some n
  | _ => none

/-- `BRefAccess::bytes`. -/
def Bencode.bytes? : Bencode → Option Bytes
  | .bytes b => some b
  | _ => none

/-- `BRefAccess::dict`. -/
def Bencode.dict? : Bencode → Option BDict
  | .dict d => some d
  | _ => none

/-- The byte order of `BTreeMap<&[u8], _>`: lexicographic, a proper prefix first. -/
def keyLt : Bytes → Bytes → Bool
  | [], [] => false
  | [], _ :: _ => true
  | _ :: _, [] => false
  | a :: as, b :: bs => a.toNat < b.toNat || (a = b && keyLt as bs)

theorem keyLt_irrefl (a : Bytes) : keyLt a a = false := by
  induction a <;> simp_all [keyLt]

theorem keyLt_trans {a b c : Bytes} (hab : keyLt a b) (hbc : keyLt b c) : keyLt a c := by
  induction a generalizing b c with
  | nil => cases b <;> cases c <;> simp_all [keyLt]
  | cons x a ih =>
      cases b with
      | nil => simp [keyLt] at hab
      | cons y b =>
          cases c with
          | nil => simp [keyLt] at hbc
          | cons z c =>
              simp only [keyLt, Bool.or_eq_true, decide_eq_true_eq, Bool.and_eq_true] at *
              rcases hab with hxy | ⟨rfl, hab⟩ <;> rcases hbc with hyz | ⟨rfl, hbc⟩
              · exact .inl (Nat.lt_trans hxy hyz)
              · exact .inl hxy
              · exact .inl hyz
              · exact .inr ⟨rfl, ih hab hbc⟩

theorem keyLt_total {a b : Bytes} (h : a ≠ b) : keyLt a b ∨ keyLt b a := by
  induction a generalizing b with
  | nil => cases b <;> simp_all [keyLt]
  | cons x a ih =>
      cases b with
      | nil => simp [keyLt]
      | cons y b =>
          simp only [keyLt, Bool.or_eq_true, decide_eq_true_eq, Bool.and_eq_true]
          by_cases hxy : x = y
          · subst hxy
            rcases ih (fun e => h (e ▸ rfl)) with h' | h' <;> simp [h']
          · have : x.toNat ≠ y.toNat := fun e => hxy (UInt8.toNat.inj e)
            omega

theorem keyLt_asymm {a b : Bytes} (h : keyLt a b) : keyLt b a = false := by
  cases hba : keyLt b a
  · rfl
  · simpa [keyLt_irrefl] using keyLt_trans h hba

namespace BDict

/-- `BDictAccess::lookup`: the value stored under `k`. -/
def find? (k : Bytes) : BDict → Option Bencode
  | [] => none
  | (k', v) :: d => if k = k' then some v else find? k d

/-- `BTreeMap::insert`: store `v` under `k`, returning the value it replaces. -/
def insert (k : Bytes) (v : Bencode) : BDict → Option Bencode × BDict
  | [] => (none, [(k, v)])
  | (k', v') :: d =>
      if k = k' then (some v', (k, v) :: d)
      else if keyLt k k' then (none, (k, v) :: (k', v') :: d)
      else ((insert k v d).1, (k', v') :: (insert k v d).2)

/-- `BTreeMap::remove`: drop the entry under `k`, returning its value. -/
def remove (k : Bytes) (d : BDict) : Option Bencode × BDict :=
  (find? k d, d.filter fun e => e.1 ≠ k)

/-- Keys strictly increasing, as a `BTreeMap` iterates them. -/
def Sorted (d : BDict) : Prop := d.Pairwise fun a b => keyLt a.1 b.1

@[simp] theorem find?_insert_self (k : Bytes) (v : Bencode) (d : BDict) :
    find? k (insert k v d).2 = some v := by
  induction d with
  | nil => simp [insert, find?]
  | cons e d ih =>
      obtain ⟨k', v'⟩ := e
      simp only [insert]
      split
      · simp [find?]
      · split <;> simp_all [find?]

theorem find?_insert_ne {k k' : Bytes} (h : k' ≠ k) (v : Bencode) (d : BDict) :
    find? k' (insert k v d).2 = find? k' d := by
  induction d with
  | nil => simp [insert, find?, h]
  | cons e d ih =>
      obtain ⟨k'', v'⟩ := e
      simp only [insert]
      split
      · subst_vars; simp [find?, h]
      · split <;> simp_all [find?]

theorem insert_fst_of_find?_eq_none {k : Bytes} {d : BDict} (h : find? k d = none) (v : Bencode) :
    (insert k v d).1 = none := by
  induction d with
  | nil => rfl
  | cons e d ih =>
      obtain ⟨k', v'⟩ := e
      simp only [find?] at h
      split at h
      · cases h
      · simp only [insert, *, if_false]; split <;> simp [ih h]

@[simp] theorem find?_remove_self (k : Bytes) (d : BDict) : find? k (remove k d).2 = none := by
  induction d with
  | nil => rfl
  | cons e d ih =>
      by_cases h : e.1 = k <;> simp_all [remove, find?, List.filter_cons, eq_comm]

theorem find?_remove_ne {k k' : Bytes} (h : k' ≠ k) (d : BDict) :
    find? k' (remove k d).2 = find? k' d := by
  induction d with
  | nil => rfl
  | cons e d ih =>
      by_cases he : e.1 = k
      · simp_all [remove, find?, List.filter_cons, Ne.symm h]
      · simp_all [remove, find?, List.filter_cons]

/-- Removing a key forgets any insertion under it. -/
@[simp] theorem remove_insert_self (k : Bytes) (v : Bencode) (d : BDict) :
    (remove k (insert k v d).2).2 = (remove k d).2 := by
  induction d with
  | nil => simp [insert, remove]
  | cons e d ih =>
      obtain ⟨k', v'⟩ := e
      by_cases hk : k = k'
      · simp [insert, remove, hk, List.filter_cons]
      · by_cases hlt : keyLt k k' <;>
          simp_all [insert, remove, List.filter_cons, Ne.symm hk]

theorem remove_of_find?_eq_none {k : Bytes} {d : BDict} (h : find? k d = none) :
    (remove k d).2 = d := by
  induction d with
  | nil => rfl
  | cons e d ih =>
      obtain ⟨k', v'⟩ := e
      simp only [find?] at h
      split at h
      · cases h
      · simp only [remove] at ih ⊢
        rw [List.filter_cons_of_pos (by simpa using Ne.symm ‹¬k = k'›), ih h]

theorem mem_insert {k : Bytes} {v : Bencode} {d : BDict} {e : Bytes × Bencode}
    (he : e ∈ (insert k v d).2) : e = (k, v) ∨ e ∈ d := by
  induction d with
  | nil => simpa [insert] using he
  | cons e' d ih =>
      obtain ⟨k', v'⟩ := e'
      simp only [insert] at he
      split at he
      · rcases List.mem_cons.1 he with h | h <;> simp [h]
      · split at he
        · simpa using he
        · rcases List.mem_cons.1 he with h | h
          · simp [h]
          · rcases ih h with h | h <;> simp [h]

theorem sorted_insert {d : BDict} (hd : Sorted d) (k : Bytes) (v : Bencode) :
    Sorted (insert k v d).2 := by
  induction d with
  | nil => simp [insert, Sorted]
  | cons e d ih =>
      obtain ⟨k', v'⟩ := e
      simp only [Sorted, List.pairwise_cons] at hd
      simp only [insert]
      split
      · subst_vars; exact List.pairwise_cons.2 ⟨hd.1, hd.2⟩
      · split
        · refine List.pairwise_cons.2 ⟨?_, List.pairwise_cons.2 hd⟩
          simp only [List.mem_cons, forall_eq_or_imp]
          exact ⟨‹_›, fun e he => keyLt_trans ‹_› (hd.1 e he)⟩
        · refine List.pairwise_cons.2 ⟨fun e he => ?_, ih hd.2⟩
          rcases mem_insert he with rfl | he
          · exact (keyLt_total (Ne.symm ‹_›)).resolve_right ‹_›
          · exact hd.1 e he

/-- Inserting a key above every key present appends it. -/
theorem insert_of_lt {k : Bytes} {d : BDict} (h : ∀ e ∈ d, keyLt e.1 k) (v : Bencode) :
    (insert k v d).2 = d ++ [(k, v)] := by
  induction d with
  | nil => rfl
  | cons e d ih =>
      obtain ⟨k', v'⟩ := e
      have hk : keyLt k' k := h _ (List.mem_cons_self _ _)
      have hne : k ≠ k' := fun e => by simp [e, keyLt_irrefl] at hk
      simp [insert, hne, keyLt_asymm hk, ih fun e he => h e (List.mem_cons_of_mem _ he)]

/-- Inserting the entries of a sorted dictionary one by one, as `ben_map!` and the decoder
do, rebuilds it. -/
theorem foldl_insert_of_sorted (acc d : BDict) (h : Sorted (acc ++ d)) :
    d.foldl (fun m e => (insert e.1 e.2 m).2) acc = acc ++ d := by
  induction d generalizing acc with
  | nil => simp
  | cons e d ih =>
      have hlt : ∀ x ∈ acc, keyLt x.1 e.1 :=
        fun x hx => (List.pairwise_append.1 h).2.2 x hx e (List.mem_cons_self _ _)
      rw [List.foldl_cons, insert_of_lt hlt, ih]
      · simp
      · simpa using h

/-- A fresh map with the entries inserted in order, later duplicates winning. -/
def ofList (entries : List (Bytes × Bencode)) : BDict :=
  entries.foldl (fun m e => (insert e.1 e.2 m).2) []

theorem sorted_ofList (entries : List (Bytes × Bencode)) : Sorted (ofList entries) := by
  suffices ∀ acc : BDict, acc.Sorted →
      (entries.foldl (fun m e => (insert e.1 e.2 m).2) acc).Sorted from this [] List.Pairwise.nil
  induction entries with
  | nil => exact fun _ h => h
  | cons e es ih => exact fun acc h => ih _ (sorted_insert h _ _)

theorem ofList_of_sorted {d : BDict} (h : Sorted d) : ofList d = d :=
  foldl_insert_of_sorted [] d h

theorem mem_ofList {entries : List (Bytes × Bencode)} {e : Bytes × Bencode}
    (he : e ∈ ofList entries) : e ∈ entries := by
  suffices ∀ acc : BDict, e ∈ entries.foldl (fun m e => (insert e.1 e.2 m).2) acc →
      e ∈ acc ∨ e ∈ entries from (this [] he).resolve_left (List.not_mem_nil e)
  clear he
  induction entries with
  | nil => exact fun _ h => .inl h
  | cons x xs ih =>
      intro acc h
      rcases ih _ h with h | h
      · rcases mem_insert h with rfl | h
        · exact .inr (List.mem_cons_self _ _)
        · exact .inl h
      · exact .inr (List.mem_cons_of_mem _ h)

end BDict

/-- `ben_map!`: a fresh dictionary with the entries inserted in order. -/
def benMap (entries : List (Bytes × Bencode)) : Bencode := .dict (BDict.ofList entries)

/-- The kind a typed lookup expects. -/
inductive BencodeKind
  | int
  | bytes
  | dict
  deriving DecidableEq, Repr

/-- `BencodeConvertError`: a typed lookup names the key it looked up. -/
inductive BencodeConvertError
  | missingKey (key : Bytes)
  | wrongType (key : Bytes) (expected : BencodeKind)
  deriving DecidableEq, Repr

/-- The `BConvert::lookup_and_convert_*` family: look `key` up, then read it as one kind. -/
def lookupAndConvert {α : Type} (convert : Bencode → Option α) (kind : BencodeKind)
    (d : BDict) (key : Bytes) : Except BencodeConvertError α :=
  match d.find? key with
  | none => .error (.missingKey key)
  | some v =>
      match convert v with
      | some a => .ok a
      | none => .error (.wrongType key kind)

/-- `lookup_and_convert_bytes`. -/
def lookupAndConvertBytes := lookupAndConvert Bencode.bytes? .bytes

/-- `lookup_and_convert_int`. -/
def lookupAndConvertInt := lookupAndConvert Bencode.int? .int

/-- `lookup_and_convert_dict`. -/
def lookupAndConvertDict := lookupAndConvert Bencode.dict? .dict

theorem lookupAndConvert_error_key {α : Type} {convert : Bencode → Option α}
    {kind : BencodeKind} {d : BDict} {key : Bytes} {e : BencodeConvertError}
    (h : lookupAndConvert convert kind d key = .error e) :
    e = .missingKey key ∨ e = .wrongType key kind := by
  unfold lookupAndConvert at h
  split at h
  · cases h; exact .inl rfl
  · split at h <;> cases h; exact .inr rfl

end BitTorrentInfra
