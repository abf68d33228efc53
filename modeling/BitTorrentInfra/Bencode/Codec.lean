import BitTorrentInfra.Bencode.Value

/-!
The bencode wire format, modelled from the specification since the `bencode` crate is not
among the sources: `i<decimal>e`, `<length>:<bytes>`, `l...e` and `d...e` with a
dictionary's entries in its order. The decoder reads one value under a fuel bound (one unit
per nested or following value, so the input's length always suffices), rebuilds each
dictionary by inserting its entries in order as a `BTreeMap` does, and `decode` accepts only
an input that is exactly one value.

Decoding an encoding gives the value back whenever its dictionaries are sorted, which holds
of everything `ben_map!` and the decoder build.
-/

namespace BitTorrentInfra

/-- The decimal digits of `n`, most significant first. -/
def decimalDigits (n : Nat) : List Nat :=
  if n = 0 then [0] else (Nat.digits 10 n).reverse

/-- The ASCII text of `n` in decimal. -/
def decimal (n : Nat) : Bytes := (decimalDigits n).map fun d => UInt8.ofNat (48 + d)

/-- An integer's text: a minus sign for a negative one, then the digits of its magnitude. -/
def encodeInt (n : Int) : Bytes := (if n < 0 then [45] else []) ++ decimal n.natAbs

/-- A byte string's text: its length, a colon, the bytes. -/
def encodeBytes (b : Bytes) : Bytes := decimal b.length ++ [58] ++ b

mutual
/-- `Bencode::encode`. -/
def Bencode.encode : Bencode → Bytes
  | .int n => [105] ++ encodeInt n.val ++ [101]
  | .bytes b => encodeBytes b
  | .list l => [108] ++ Bencode.encodeList l ++ [101]
  | .dict d => [100] ++ Bencode.encodeDict d ++ [101]
def Bencode.encodeList : List Bencode → Bytes
  | [] => []
  | v :: l => v.encode ++ Bencode.encodeList l
def Bencode.encodeDict : BDict → Bytes
  | [] => []
  | (k, v) :: d => encodeBytes k ++ v.encode ++ Bencode.encodeDict d
end

/-- An ASCII decimal digit. -/
def isDigit (b : UInt8) : Bool := 48 ≤ b.toNat && b.toNat ≤ 57

/-- The longest run of digits at the front, as digit values, and what follows it. -/
def spanDigits : Bytes → List Nat × Bytes
  | [] => ([], [])
  | b :: bs =>
      if isDigit b then ((b.toNat - 48) :: (spanDigits bs).1, (spanDigits bs).2) else ([], b :: bs)

/-- The number a run of decimal digits denotes. -/
def digitsValue (ds : List Nat) : Nat := ds.foldl (fun acc d => 10 * acc + d) 0

/-- A non-empty run of digits as a number, and what follows it. -/
def decodeNat (b : Bytes) : Option (Nat × Bytes) :=
  match spanDigits b with
  | ([], _) => none
  | (ds, rest) => some (digitsValue ds, rest)

/-- A byte string `<length>:<bytes>`. -/
def decodeBytes (b : Bytes) : Option (Bytes × Bytes) :=
  match decodeNat b with
  | some (len, c :: rest) =>
      if c = 58 ∧ len ≤ rest.length then some (rest.take len, rest.drop len) else none
  | _ => none

/-- The body of an integer after its `i`: an optional minus sign, digits, `e`, and an `i64`
range check. -/
def decodeInt (b : Bytes) : Option (I64 × Bytes) :=
  let (neg, digits) := match b with
    | c :: r => if c = 45 then (true, r) else (false, b)
    | [] => (false, [])
  match decodeNat digits with
  | some (n, c :: rest) =>
      if c = 101 then (I64.ofInt? (if neg then -(n : Int) else n)).map fun i => (i, rest) else none
  | _ => none

mutual
/-- One value, with `fuel` bounding the values read. -/
def decodeValue : Nat → Bytes → Option (Bencode × Bytes)
  | 0, _ => none
  | _ + 1, [] => none
  | n + 1, b :: bs =>
      if b = 105 then (decodeInt bs).map fun (i, r) => (.int i, r)
      else if b = 108 then (decodeList n bs).map fun (l, r) => (.list l, r)
      else if b = 100 then (decodeDict n bs).map fun (d, r) => (.dict (BDict.ofList d), r)
      else (decodeBytes (b :: bs)).map fun (s, r) => (.bytes s, r)
/-- List elements up to the closing `e`. -/
def decodeList : Nat → Bytes → Option (List Bencode × Bytes)
  | 0, _ => none
  | _ + 1, [] => none
  | n + 1, b :: bs =>
      if b = 101 then some ([], bs)
      else match decodeValue n (b :: bs) with
        | some (v, r) => (decodeList n r).map fun (l, r') => (v :: l, r')
        | none => none
/-- Dictionary entries, in wire order, up to the closing `e`. -/
def decodeDict : Nat → Bytes → Option (BDict × Bytes)
  | 0, _ => none
  | _ + 1, [] => none
  | n + 1, b :: bs =>
      if b = 101 then some ([], bs)
      else match decodeBytes (b :: bs) with
        | some (k, r) =>
            match decodeValue n r with
            | some (v, r') => (decodeDict n r').map fun (d, r'') => ((k, v) :: d, r'')
            | none => none
        | none => none
end

/-- `BencodeRef::decode`: exactly one value, spanning the whole input. -/
def Bencode.decode (b : Bytes) : Option Bencode :=
  match decodeValue b.length b with
  | some (v, []) => some v
  | _ => none

mutual
/-- Every dictionary inside the value has strictly increasing keys. -/
def Bencode.Canonical : Bencode → Prop
  | .list l => Bencode.CanonicalList l
  | .dict d => BDict.Sorted d ∧ Bencode.CanonicalDict d
  | _ => True
def Bencode.CanonicalList : List Bencode → Prop
  | [] => True
  | v :: l => v.Canonical ∧ Bencode.CanonicalList l
def Bencode.CanonicalDict : BDict → Prop
  | [] => True
  | (_, v) :: d => v.Canonical ∧ Bencode.CanonicalDict d
end

mutual
/-- The fuel `decodeValue` needs for a value. -/
def Bencode.fuel : Bencode → Nat
  | .list l => 1 + Bencode.fuelList l
  | .dict d => 1 + Bencode.fuelDict d
  | _ => 1
def Bencode.fuelList : List Bencode → Nat
  | [] => 1
  | v :: l => 1 + max v.fuel (Bencode.fuelList l)
def Bencode.fuelDict : BDict → Nat
  | [] => 1
  | (_, v) :: d => 1 + max v.fuel (Bencode.fuelDict d)
end

theorem decimalDigits_lt (n : Nat) : ∀ d ∈ decimalDigits n, d < 10 := by
  unfold decimalDigits
  split
  · simp
  · intro d hd
    exact Nat.digits_lt_base (by norm_num) (List.mem_reverse.1 hd)

theorem decimalDigits_ne_nil (n : Nat) : decimalDigits n ≠ [] := by
  unfold decimalDigits; split <;> simp_all [Nat.digits_ne_nil_iff_ne_zero]

theorem digitsValue_reverse (L : List Nat) : digitsValue L.reverse = Nat.ofDigits 10 L := by
  induction L with
  | nil => rfl
  | cons d L ih =>
      simp only [digitsValue, List.reverse_cons, List.foldl_append, List.foldl_cons,
        List.foldl_nil] at ih ⊢
      rw [ih, Nat.ofDigits_cons]; ring

theorem digitsValue_decimalDigits (n : Nat) : digitsValue (decimalDigits n) = n := by
  unfold decimalDigits
  split
  · subst_vars; rfl
  · rw [digitsValue_reverse, Nat.ofDigits_digits]

theorem isDigit_digit {d : Nat} (h : d < 10) : isDigit (UInt8.ofNat (48 + d)) = true := by
  simp [isDigit, UInt8.toNat, UInt8.ofNat]; omega

theorem spanDigits_digits {ds : List Nat} (h : ∀ d ∈ ds, d < 10) {c : UInt8}
    (hc : isDigit c = false) (rest : Bytes) :
    spanDigits (ds.map (fun d => UInt8.ofNat (48 + d)) ++ c :: rest) = (ds, c :: rest) := by
  induction ds with
  | nil => simp [spanDigits, hc]
  | cons d ds ih =>
      have hd : d < 10 := h d (List.mem_cons_self _ _)
      have hv : (UInt8.ofNat (48 + d)).toNat - 48 = d := by
        simp only [UInt8.toNat, UInt8.ofNat, BitVec.toNat_ofNat]; omega
      rw [List.map_cons, List.cons_append, spanDigits, if_pos (isDigit_digit hd),
        ih fun e he => h e (List.mem_cons_of_mem _ he), hv]

theorem decodeNat_decimal (n : Nat) {c : UInt8} (hc : isDigit c = false) (rest : Bytes) :
    decodeNat (decimal n ++ c :: rest) = some (n, c :: rest) := by
  unfold decodeNat decimal
  rw [spanDigits_digits (decimalDigits_lt n) hc]
  obtain ⟨d, ds, h⟩ := List.exists_cons_of_ne_nil (decimalDigits_ne_nil n)
  rw [h]
  show some (digitsValue (d :: ds), c :: rest) = _
  rw [← h, digitsValue_decimalDigits]

theorem decodeBytes_encodeBytes (b rest : Bytes) :
    decodeBytes (encodeBytes b ++ rest) = some (b, rest) := by
  unfold decodeBytes encodeBytes
  rw [List.append_assoc, List.append_assoc, List.singleton_append, decodeNat_decimal _ (by decide)]
  simp

theorem decimal_head (n : Nat) : ∃ c r, decimal n = c :: r ∧ isDigit c = true := by
  obtain ⟨d, ds, h⟩ := List.exists_cons_of_ne_nil (decimalDigits_ne_nil n)
  exact ⟨_, _, by rw [decimal, h, List.map_cons],
    isDigit_digit (decimalDigits_lt n d (h ▸ List.mem_cons_self _ _))⟩

theorem ne_of_isDigit {c x : UInt8} (hc : isDigit c = true) (hx : isDigit x = false) : c ≠ x := by
  rintro rfl; simp_all

theorem decodeInt_encodeInt (n : I64) (rest : Bytes) :
    decodeInt (encodeInt n.val ++ 101 :: rest) = some (n, rest) := by
  obtain ⟨c, r, hd, hc⟩ := decimal_head n.val.natAbs
  unfold decodeInt encodeInt
  by_cases hn : n.val < 0
  · simp only [hn, if_true, List.singleton_append, List.cons_append, if_pos rfl, List.nil_append]
    rw [decodeNat_decimal _ (c := 101) (by decide)]
    simp only [if_pos rfl, if_true]
    rw [show -((n.val.natAbs : Nat) : Int) = n.val by omega, I64.ofInt?_val]; rfl
  · simp only [hn, if_false, List.nil_append, hd, List.cons_append,
      ne_of_isDigit hc (x := 45) (by decide)]
    rw [← List.cons_append, ← hd, decodeNat_decimal _ (c := 101) (by decide)]
    simp only [if_pos rfl, Bool.false_eq_true, if_false]
    rw [show ((n.val.natAbs : Nat) : Int) = n.val by omega, I64.ofInt?_val]; rfl

theorem encodeBytes_head (b : Bytes) : ∃ c r, encodeBytes b = c :: r ∧ isDigit c = true := by
  obtain ⟨c, r, hd, hc⟩ := decimal_head b.length
  exact ⟨c, r ++ [58] ++ b, by simp [encodeBytes, hd], hc⟩

theorem encode_head (v : Bencode) : ∃ c r, v.encode = c :: r ∧ c ≠ 101 := by
  cases v with
  | bytes b =>
      obtain ⟨c, r, h, hc⟩ := encodeBytes_head b
      exact ⟨c, r, by rw [Bencode.encode, h], ne_of_isDigit hc (by decide)⟩
  | _ => exact ⟨_, _, rfl, by decide⟩

mutual
theorem fuel_le_length : ∀ v : Bencode, v.fuel ≤ v.encode.length
  | .int _ | .bytes _ => by simp [Bencode.fuel, Bencode.encode, encodeBytes] <;> omega
  | .list l => by
      have := fuelList_le_length l
      simp only [Bencode.fuel, Bencode.encode, List.length_append]; simp; omega
  | .dict d => by
      have := fuelDict_le_length d
      simp only [Bencode.fuel, Bencode.encode, List.length_append]; simp; omega
theorem fuelList_le_length :
    ∀ l : List Bencode, Bencode.fuelList l ≤ (Bencode.encodeList l).length + 1
  | [] => le_refl _
  | v :: l => by
      have h1 := fuel_le_length v
      have h2 := fuelList_le_length l
      obtain ⟨c, r, h, -⟩ := encode_head v
      have : 1 ≤ v.encode.length := by simp [h]
      simp only [Bencode.fuelList, Bencode.encodeList, List.length_append]; omega
theorem fuelDict_le_length : ∀ d : BDict, Bencode.fuelDict d ≤ (Bencode.encodeDict d).length + 1
  | [] => le_refl _
  | (k, v) :: d => by
      have h1 := fuel_le_length v
      have h2 := fuelDict_le_length d
      obtain ⟨c, r, h, -⟩ := encode_head v
      have : 1 ≤ v.encode.length := by simp [h]
      simp only [Bencode.fuelDict, Bencode.encodeDict, List.length_append]; omega
end

theorem fuel_pos (v : Bencode) : 0 < v.fuel := by
  cases v <;> simp [Bencode.fuel]

theorem decode_encode_fuel (n : Nat) :
    (∀ v : Bencode, v.Canonical → v.fuel ≤ n → ∀ rest,
      decodeValue n (v.encode ++ rest) = some (v, rest)) ∧
    (∀ l, Bencode.CanonicalList l → Bencode.fuelList l ≤ n → ∀ rest,
      decodeList n (Bencode.encodeList l ++ 101 :: rest) = some (l, rest)) ∧
    (∀ d, Bencode.CanonicalDict d → Bencode.fuelDict d ≤ n → ∀ rest,
      decodeDict n (Bencode.encodeDict d ++ 101 :: rest) = some (d, rest)) := by
  induction n with
  | zero =>
      refine ⟨fun v _ h => absurd h (by have := fuel_pos v; omega), fun l _ h => ?_,
        fun d _ h => ?_⟩
      · cases l <;> simp [Bencode.fuelList] at h
      · cases d <;> simp [Bencode.fuelDict] at h
  | succ n ih =>
      obtain ⟨ihv, ihl, ihd⟩ := ih
      refine ⟨fun v hv hf rest => ?_, fun l hl hf rest => ?_, fun d hd hf rest => ?_⟩
      · cases v with
        | int i => simp [Bencode.encode, decodeValue, decodeInt_encodeInt]
        | bytes b =>
            obtain ⟨c, r, h, hc⟩ := encodeBytes_head b
            rw [show (Bencode.bytes b).encode ++ rest = c :: (r ++ rest) by
              simp [Bencode.encode, h]]
            simp only [decodeValue, ne_of_isDigit hc (x := 105) (by decide),
              ne_of_isDigit hc (x := 108) (by decide), ne_of_isDigit hc (x := 100) (by decide),
              if_false]
            rw [← List.cons_append, ← h, decodeBytes_encodeBytes]
            rfl
        | list l =>
            simp only [Bencode.fuel] at hf
            simp [Bencode.encode, decodeValue, ihl l hv (by omega) rest]
        | dict d =>
            simp only [Bencode.fuel] at hf
            simp [Bencode.encode, decodeValue, ihd d hv.2 (by omega) rest,
              BDict.ofList_of_sorted hv.1]
      · cases l with
        | nil => simp [Bencode.encodeList, decodeList]
        | cons v l =>
            simp only [Bencode.fuelList] at hf
            obtain ⟨c, r, he, hc⟩ := encode_head v
            have h1 := ihv v hl.1 (by omega) (Bencode.encodeList l ++ 101 :: rest)
            rw [he, List.cons_append] at h1
            simp only [Bencode.encodeList, List.append_assoc, he, List.cons_append, decodeList,
              if_neg hc, h1, ihl l hl.2 (by omega) rest]
            rfl
      · cases d with
        | nil => simp [Bencode.encodeDict, decodeDict]
        | cons e d =>
            obtain ⟨k, v⟩ := e
            simp only [Bencode.fuelDict] at hf
            obtain ⟨c, r, he, hc⟩ := encodeBytes_head k
            have h1 := ihv v hd.1 (by omega) (Bencode.encodeDict d ++ 101 :: rest)
            have hk := decodeBytes_encodeBytes k (v.encode ++ (Bencode.encodeDict d ++ 101 :: rest))
            rw [he, List.cons_append] at hk
            simp only [Bencode.encodeDict, List.append_assoc, he, List.cons_append, decodeDict,
              if_neg (ne_of_isDigit hc (x := 101) (by decide))]
            rw [hk]
            simp only [h1, ihd d hd.2 (by omega) rest]
            rfl

/-- Decoding an encoding gives the value back, whenever its dictionaries are sorted. -/
theorem Bencode.decode_encode {v : Bencode} (hv : v.Canonical) :
    Bencode.decode v.encode = some v := by
  have h := (decode_encode_fuel v.encode.length).1 v hv (fuel_le_length v) []
  rw [List.append_nil] at h
  simp [Bencode.decode, h]


theorem canonicalDict_iff (d : BDict) : Bencode.CanonicalDict d ↔ ∀ e ∈ d, e.2.Canonical := by
  induction d with
  | nil => simp [Bencode.CanonicalDict]
  | cons e d ih => obtain ⟨k, v⟩ := e; simp [Bencode.CanonicalDict, ih]

theorem canonical_benMap {entries : List (Bytes × Bencode)}
    (h : ∀ e ∈ entries, e.2.Canonical) : (benMap entries).Canonical :=
  ⟨BDict.sorted_ofList entries, (canonicalDict_iff _).2 fun e he => h e (BDict.mem_ofList he)⟩

theorem canonicalList_iff (l : List Bencode) :
    Bencode.CanonicalList l ↔ ∀ v ∈ l, v.Canonical := by
  induction l with
  | nil => simp [Bencode.CanonicalList]
  | cons v l ih => simp [Bencode.CanonicalList, ih]

/-- `insert` keeps a dictionary canonical. -/
theorem canonical_insert {d : BDict} (hd : (Bencode.dict d).Canonical) {v : Bencode}
    (hv : v.Canonical) (k : Bytes) : (Bencode.dict (BDict.insert k v d).2).Canonical :=
  ⟨BDict.sorted_insert hd.1 k v, (canonicalDict_iff _).2 fun e he =>
    (BDict.mem_insert he).elim (fun h => h ▸ hv) fun h => (canonicalDict_iff _).1 hd.2 e h⟩

/-- `remove` keeps a dictionary canonical. -/
theorem canonical_remove {d : BDict} (hd : (Bencode.dict d).Canonical) (k : Bytes) :
    (Bencode.dict (BDict.remove k d).2).Canonical :=
  ⟨hd.1.filter _, (canonicalDict_iff _).2 fun e he =>
    (canonicalDict_iff _).1 hd.2 e (List.mem_of_mem_filter he)⟩

end BitTorrentInfra
