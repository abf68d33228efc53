import BitTorrentInfra.Metainfo.Builder
import BitTorrentInfra.Metainfo.Binary64

/-!
The piece-length policy of the metainfo builder: `determine_piece_length` and
`calculate_piece_length`, with the binary64 arithmetic of the latter. A strategy's budget of
piece hashes gives a number of pieces; the total size over that number, plus `0.5`,
truncated and raised to a power of two, is clamped to the strategy's minimum and the common
16 MiB cap. The range assertion on the float is the one way the function can panic, and it
never fires for a `u64` size.

Adding `0.5` before truncating rounds the quotient to nearest rather than up, so a size just
above a multiple of the number of pieces gets a piece length one power of two too small for
its budget.
-/

namespace BitTorrentInfra.Metainfo

def allOptMaxPieceLength : Nat := 16 * 1024 * 1024

def balancedMaxPiecesSize : Nat := 40000
def balancedMinPieceLength : Nat := 512 * 1024

def fileSizeMaxPiecesSize : Nat := 20000
def fileSizeMinPieceLength : Nat := 1024 * 1024

def transferMaxPiecesSize : Nat := 60000
def transferMinPieceLength : Nat := 1024

/-- `u64::next_power_of_two`: the least power of two at least `n`, wrapping to zero past
`2 ^ 63` as a release build does. -/
def nextPowerOfTwo (n : Nat) : Nat := go 64 1
where
  go : Nat → Nat → Nat
    | 0, _ => 0
    | fuel + 1, p => if n ≤ p then p else go fuel (2 * p)

theorem nextPowerOfTwo_go (n fuel j : Nat) (h : n ≤ 2 ^ (j + fuel)) :
    ∃ i, j ≤ i ∧ i ≤ j + fuel ∧ nextPowerOfTwo.go n (fuel + 1) (2 ^ j) = 2 ^ i ∧
      n ≤ 2 ^ i ∧ (j < i → 2 ^ (i - 1) < n) := by
  induction fuel generalizing j with
  | zero =>
      exact ⟨j, le_rfl, le_rfl, by simp_all [nextPowerOfTwo.go], h, fun h => absurd h (lt_irrefl j)⟩
  | succ fuel ih =>
      by_cases hn : n ≤ 2 ^ j
      · exact ⟨j, le_rfl, by omega, by simp [nextPowerOfTwo.go, hn], hn,
          fun h => absurd h (lt_irrefl j)⟩
      · obtain ⟨i, hji, hi, hgo, hle, hmin⟩ :=
          ih (j + 1) (by rwa [show j + 1 + fuel = j + (fuel + 1) by omega])
        refine ⟨i, by omega, by omega, ?_, hle, fun _ => ?_⟩
        · rw [nextPowerOfTwo.go, if_neg hn, ← pow_succ', hgo]
        · rcases Nat.lt_or_ge (j + 1) i with hlt | hge
          · exact hmin hlt
          · obtain rfl : i = j + 1 := by omega
            simpa using hn

/-- Below `2 ^ 63`, `next_power_of_two` gives the least power of two at least `n`. -/
theorem nextPowerOfTwo_spec {n : Nat} (h : n ≤ 2 ^ 63) :
    ∃ i, i ≤ 63 ∧ nextPowerOfTwo n = 2 ^ i ∧ n ≤ 2 ^ i ∧
      (0 < i → 2 ^ (i - 1) < n) := by
  obtain ⟨i, -, hi, hgo, hle, hmin⟩ := nextPowerOfTwo_go n 63 0 h
  exact ⟨i, hi, hgo, hle, hmin⟩

/-- Below `2 ^ 63`, `next_power_of_two` is monotone. -/
theorem nextPowerOfTwo_mono {n n' : Nat} (h : n ≤ n') (h' : n' ≤ 2 ^ 63) :
    nextPowerOfTwo n ≤ nextPowerOfTwo n' := by
  obtain ⟨i, -, hi, -, hmin⟩ := nextPowerOfTwo_spec (h.trans h')
  obtain ⟨j, -, hj, hnj, -⟩ := nextPowerOfTwo_spec h'
  rw [hi, hj]
  by_contra hlt
  have hji : j < i := (Nat.pow_lt_pow_iff_right (by norm_num)).1 (not_le.1 hlt)
  have : 2 ^ j ≤ 2 ^ (i - 1) := Nat.pow_le_pow_right two_pos (by omega)
  have := hmin (by omega)
  omega

/-- `9_223_372_036_854_775_807_f64`, the upper end of the range assertion. -/
def i64MaxF64 : F64 := F64.ofNat 9223372036854775807

/-- `calculate_piece_length`; `none` where the range assertion panics. -/
def calculatePieceLength (totalFileSize maxPiecesSize minPieceLength : Nat) : Option Nat :=
  let numPieces := F64.div (F64.ofNat maxPiecesSize) (F64.ofNat shaHashLen)
  let pieceLength := F64.add (F64.div (F64.ofNat totalFileSize) numPieces) F64.half
  if F64.le F64.zero pieceLength && F64.le pieceLength i64MaxF64 then
    let pieceLength := pieceLength.toU64
    let potPieceLength := nextPowerOfTwo pieceLength
    some <|
      match decide (potPieceLength > minPieceLength),
          decide (potPieceLength < allOptMaxPieceLength) with
      | true, true => potPieceLength
      | false, _ => minPieceLength
      | _, false => allOptMaxPieceLength
  else none

/-- `determine_piece_length`; `none` where `calculate_piece_length` panics. -/
def determinePieceLength (totalFileSize : Nat) : PieceLength → Option Nat
  | .custom len => some len
  | .optBalanced =>
      calculatePieceLength totalFileSize balancedMaxPiecesSize balancedMinPieceLength
  | .optFileSize =>
      calculatePieceLength totalFileSize fileSizeMaxPiecesSize fileSizeMinPieceLength
  | .optTransfer =>
      calculatePieceLength totalFileSize transferMaxPiecesSize transferMinPieceLength

set_option maxRecDepth 2000 in
set_option exponentiation.threshold 2500 in
theorem i64MaxF64_scaled : i64MaxF64.scaled = 2 ^ 1137 := by decide

set_option maxRecDepth 2000 in
set_option exponentiation.threshold 2500 in
/-- Every strategy's budget allows at least `2 ^ 9` pieces. -/
theorem numPieces_ge :
    ∀ M ∈ [balancedMaxPiecesSize, fileSizeMaxPiecesSize, transferMaxPiecesSize],
      2 ^ 1083 ≤ (F64.div (F64.ofNat M) (F64.ofNat shaHashLen)).scaled := by decide

set_option exponentiation.threshold 2500 in
/-- For a `u64` size and at least `2 ^ 9` pieces, the float before truncation is at most
`2 ^ 56`. -/
theorem pieceLength_scaled_le {t : Nat} (ht : t < 2 ^ 64) {N : F64} (hN : 2 ^ 1083 ≤ N.scaled) :
    (F64.add (F64.div (F64.ofNat t) N) F64.half).scaled ≤ 2 ^ 1130 := by
  have h1 : (F64.ofNat t).scaled ≤ 2 ^ 1138 :=
    F64.ofRatio_le one_pos <| by
      rw [Nat.mul_one, pow_add 2 64 1074]; exact Nat.mul_le_mul_right _ ht.le
  have h2 : (F64.div (F64.ofNat t) N).scaled ≤ 2 ^ 1129 :=
    F64.ofRatio_le (lt_of_lt_of_le (Nat.two_pow_pos _) hN) (calc
      (F64.ofNat t).scaled * 2 ^ 1074 ≤ 2 ^ 1138 * 2 ^ 1074 := Nat.mul_le_mul_right _ h1
      _ = 2 ^ 1129 * 2 ^ 1083 := by rw [← pow_add, ← pow_add]
      _ ≤ 2 ^ 1129 * N.scaled := Nat.mul_le_mul_left _ hN)
  have h3 : F64.half.scaled ≤ 2 ^ 1129 :=
    F64.ofRatio_le two_pos <| by
      rw [Nat.one_mul, ← pow_succ, pow_add 2 1074 56]
      exact Nat.le_mul_of_pos_right _ (Nat.two_pow_pos _)
  have h4 : (F64.div (F64.ofNat t) N).scaled + F64.half.scaled ≤ 2 ^ 1130 := calc
    _ ≤ 2 ^ 1129 + 2 ^ 1129 := Nat.add_le_add h2 h3
    _ = 2 ^ 1130 := by rw [← two_mul, ← pow_succ']
  exact F64.ofRatio_le (Nat.two_pow_pos 1074) (Nat.mul_le_mul_right (2 ^ 1074) h4)

set_option exponentiation.threshold 2500 in
/-- The truncated float is at most `2 ^ 63`, so `next_power_of_two` does not wrap. -/
theorem pieceLength_toU64_le {t : Nat} (ht : t < 2 ^ 64) {N : F64} (hN : 2 ^ 1083 ≤ N.scaled) :
    (F64.add (F64.div (F64.ofNat t) N) F64.half).toU64 ≤ 2 ^ 63 :=
  (min_le_left _ _).trans <| Nat.div_le_of_le_mul <| by
    rw [← pow_add]
    exact (pieceLength_scaled_le ht hN).trans (Nat.pow_le_pow_right two_pos (by norm_num))

set_option exponentiation.threshold 2500 in
/-- For a `u64` size and a budget of at least `2 ^ 9` pieces the assertion holds, and the
result is the power of two above the truncated float, clamped to the minimum and the cap. -/
theorem calculatePieceLength_eq {t M m : Nat} (ht : t < 2 ^ 64)
    (hN : 2 ^ 1083 ≤ (F64.div (F64.ofNat M) (F64.ofNat shaHashLen)).scaled)
    (hcap : m ≤ allOptMaxPieceLength) :
    calculatePieceLength t M m = some (min allOptMaxPieceLength (max m (nextPowerOfTwo
      (F64.add (F64.div (F64.ofNat t) (F64.div (F64.ofNat M) (F64.ofNat shaHashLen)))
        F64.half).toU64))) := by
  have hpl := pieceLength_scaled_le ht hN
  simp only [calculatePieceLength]
  generalize F64.add (F64.div (F64.ofNat t) (F64.div (F64.ofNat M) (F64.ofNat shaHashLen)))
    F64.half = pl at hpl ⊢
  have hzero : F64.le F64.zero pl = true := by simp [F64.le, F64.zero, F64.scaled]
  have hle : F64.le pl i64MaxF64 = true := decide_eq_true <| by
    rw [i64MaxF64_scaled]; exact hpl.trans (Nat.pow_le_pow_right two_pos (by norm_num))
  rw [hzero, hle, Bool.and_self, if_pos rfl]
  generalize nextPowerOfTwo pl.toU64 = p
  by_cases h1 : p > m <;> by_cases h2 : p < allOptMaxPieceLength <;>
    simp only [h1, h2, decide_True, decide_False, Option.some.injEq] <;> omega

/-- Clamping a power of two to a power-of-two minimum and the 16 MiB cap gives a power of
two. -/
theorem clamp_pow_two (j a : Nat) :
    min allOptMaxPieceLength (max (2 ^ j) (2 ^ a)) = 2 ^ min 24 (max j a) := by
  rw [(pow_right_mono₀ one_le_two).map_min, (pow_right_mono₀ one_le_two).map_max]
  rfl

/-- An exponent never above another and at most one below it stays so under the minimum and
the cap. -/
theorem clamp_exponent_eq_or_succ {j a i : Nat} (hup : i ≤ 23 → a ≤ i)
    (hlow : 0 < i → i - 1 ≤ a) :
    min 24 (max j a) = min 24 (max j i) ∨ min 24 (max j a) + 1 = min 24 (max j i) := by
  omega

/-- For a `u64` size and a budget of at least `2 ^ 9` pieces, the assertion holds and the
result is a power of two between a power-of-two minimum and the cap. -/
theorem calculatePieceLength_pow_two {t M m j : Nat} (ht : t < 2 ^ 64)
    (hN : 2 ^ 1083 ≤ (F64.div (F64.ofNat M) (F64.ofNat shaHashLen)).scaled)
    (hm : m = 2 ^ j) (hcap : m ≤ allOptMaxPieceLength) :
    ∃ r i, calculatePieceLength t M m = some r ∧ r = 2 ^ i ∧ m ≤ r ∧
      r ≤ allOptMaxPieceLength := by
  obtain ⟨i, -, hpot, -⟩ := nextPowerOfTwo_spec (pieceLength_toU64_le ht hN)
  rw [calculatePieceLength_eq ht hN hcap, hpot]
  exact ⟨_, _, rfl, by rw [hm, clamp_pow_two], le_min hcap (le_max_left _ _), min_le_left _ _⟩

/-- For every `u64` size, each optimising strategy yields, without panicking, a power of two
between its minimum and 16 MiB. -/
theorem determinePieceLength_pow_two (t : Nat) (ht : t < 2 ^ 64) (s : PieceLength) (m : Nat)
    (hs : s = .optBalanced ∧ m = balancedMinPieceLength ∨
      s = .optFileSize ∧ m = fileSizeMinPieceLength ∨
      s = .optTransfer ∧ m = transferMinPieceLength) :
    ∃ r i, determinePieceLength t s = some r ∧ r = 2 ^ i ∧ m ≤ r ∧
      r ≤ allOptMaxPieceLength := by
  rcases hs with ⟨rfl, rfl⟩ | ⟨rfl, rfl⟩ | ⟨rfl, rfl⟩ <;>
    simp only [determinePieceLength]
  · exact calculatePieceLength_pow_two ht (numPieces_ge _ (by simp)) (j := 19) rfl (by decide)
  · exact calculatePieceLength_pow_two ht (numPieces_ge _ (by simp)) (j := 20) rfl (by decide)
  · exact calculatePieceLength_pow_two ht (numPieces_ge _ (by simp)) (j := 10) rfl (by decide)

theorem determinePieceLength_pow_two_empty :
    ∃ r i, determinePieceLength 0 .optBalanced = some r ∧ r = 2 ^ i ∧
      balancedMinPieceLength ≤ r ∧ r ≤ allOptMaxPieceLength :=
  determinePieceLength_pow_two 0 (by decide) .optBalanced balancedMinPieceLength
    (.inl ⟨rfl, rfl⟩)

/-- Each optimising strategy gives a power of two of at most 16 MiB for every `u64` size. -/
theorem determinePieceLength_opt {t : Nat} (ht : t < 2 ^ 64) {s : PieceLength}
    (hs : s = .optBalanced ∨ s = .optFileSize ∨ s = .optTransfer) :
    ∃ i, 10 ≤ i ∧ i ≤ 24 ∧ determinePieceLength t s = some (2 ^ i) := by
  have h : ∀ M m j, 2 ^ 1083 ≤ (F64.div (F64.ofNat M) (F64.ofNat shaHashLen)).scaled →
      m = 2 ^ j → 10 ≤ j → m ≤ allOptMaxPieceLength →
      ∃ i, 10 ≤ i ∧ i ≤ 24 ∧ calculatePieceLength t M m = some (2 ^ i) := by
    intro M m j hN hm hj hcap
    obtain ⟨r, i, hr, rfl, hmr, hle⟩ := calculatePieceLength_pow_two ht hN hm hcap
    have hi : 2 ^ 10 ≤ 2 ^ i := (Nat.pow_le_pow_right two_pos hj).trans (hm ▸ hmr)
    have : 2 ^ i ≤ 2 ^ 24 := hle
    exact ⟨i, (Nat.pow_le_pow_iff_right (by norm_num)).1 hi,
      (Nat.pow_le_pow_iff_right (by norm_num)).1 this, hr⟩
  rcases hs with rfl | rfl | rfl <;> simp only [determinePieceLength]
  · exact h _ _ 19 (numPieces_ge _ (by simp)) rfl (by norm_num) (by decide)
  · exact h _ _ 20 (numPieces_ge _ (by simp)) rfl (by norm_num) (by decide)
  · exact h _ _ 10 (numPieces_ge _ (by simp)) rfl le_rfl (by decide)

set_option exponentiation.threshold 2500 in
/-- Each step of the policy is monotone in the total size: the float operations round
monotonically, and truncation, `next_power_of_two` and the clamp preserve order. -/
theorem calculatePieceLength_mono {t t' M m : Nat} (ht : t ≤ t') (ht' : t' < 2 ^ 64)
    (hN : 2 ^ 1083 ≤ (F64.div (F64.ofNat M) (F64.ofNat shaHashLen)).scaled)
    (hcap : m ≤ allOptMaxPieceLength) :
    ∃ l l', calculatePieceLength t M m = some l ∧ calculatePieceLength t' M m = some l' ∧
      l ≤ l' := by
  refine ⟨_, _, calculatePieceLength_eq (ht.trans_lt ht') hN hcap,
    calculatePieceLength_eq ht' hN hcap, ?_⟩
  have hN0 := lt_of_lt_of_le (Nat.two_pow_pos 1083) hN
  have hu := F64.toU64_mono (F64.add_mono_left (y := F64.half)
    (F64.div_mono_left hN0 (F64.ofNat_mono ht)))
  have hp := nextPowerOfTwo_mono hu (pieceLength_toU64_le ht' hN)
  exact min_le_min_left _ (max_le_max_left _ hp)

/-- Under every strategy a larger total size never gets a smaller piece length. -/
theorem determinePieceLength_mono {t t' : Nat} (ht : t ≤ t') (ht' : t' < 2 ^ 64)
    (s : PieceLength) :
    ∃ l l', determinePieceLength t s = some l ∧ determinePieceLength t' s = some l' ∧
      l ≤ l' := by
  cases s <;> simp only [determinePieceLength]
  case custom len => exact ⟨len, len, rfl, rfl, le_rfl⟩
  all_goals exact calculatePieceLength_mono ht ht' (numPieces_ge _ (by simp)) (by decide)

theorem determinePieceLength_mono_balanced :
    2 ^ 30 ≤ 2 ^ 40 ∧ 2 ^ 40 < 2 ^ 64 ∧
      ∃ l l', determinePieceLength (2 ^ 30) .optBalanced = some l ∧
        determinePieceLength (2 ^ 40) .optBalanced = some l' ∧ l ≤ l' :=
  ⟨by norm_num, by norm_num, determinePieceLength_mono (by norm_num) (by norm_num) .optBalanced⟩

set_option maxRecDepth 2000 in
set_option exponentiation.threshold 2500 in
/-- Just above 2000 pieces of 1 MiB, the balanced strategy keeps 1 MiB pieces: 2001 piece
hashes, over its budget of 40000 bytes, although 2 MiB pieces would fit it. -/
theorem determinePieceLength_balanced_overfull :
    determinePieceLength 2097152001 .optBalanced = some 1048576 ∧
      1048576 < allOptMaxPieceLength ∧
      balancedMaxPiecesSize < (2097152001 + 1048576 - 1) / 1048576 * 20 ∧
      (2097152001 + 2097152 - 1) / 2097152 * 20 ≤ balancedMaxPiecesSize := by
  decide

/-! The piece length the documentation promises, and how far the policy is from it. -/

/-- Whether pieces of `p` bytes keep the piece hashes of `t` bytes within a budget of `M`
bytes: `⌈t / p⌉ * 20 ≤ M`. -/
def fitsBudget (t M p : Nat) : Bool := decide ((t + p - 1) / p * shaHashLen ≤ M)

/-- The piece length the doc comment of `calculate_piece_length` and the specification
describe, from their words rather than the code: the least power of two that fits the budget,
clamped to the minimum and the 16 MiB cap. The search tries `2 ^ 0` to `2 ^ 63` and ends at
`2 ^ 64`, which fits every `u64` size. -/
def claimedPieceLength (t M m : Nat) : Nat :=
  min allOptMaxPieceLength (max m (leastFitting 64 1))
where
  leastFitting : Nat → Nat → Nat
    | 0, p => p
    | fuel + 1, p => if fitsBudget t M p then p else leastFitting fuel (2 * p)

theorem fitsBudget_iff {t N p : Nat} (hp : 0 < p) :
    fitsBudget t (20 * N) p = true ↔ t ≤ N * p := by
  have : (t + p - 1) / p ≤ N ↔ t ≤ N * p := by
    rw [← Nat.lt_succ_iff, Nat.div_lt_iff_lt_mul hp, Nat.succ_mul]; omega
  rw [← this]; simp [fitsBudget, shaHashLen]; omega

theorem claimedPieceLength.leastFitting_spec (t M fuel j : Nat)
    (h : fitsBudget t M (2 ^ (j + fuel))) :
    ∃ i, j ≤ i ∧ i ≤ j + fuel ∧ leastFitting t M fuel (2 ^ j) = 2 ^ i ∧
      fitsBudget t M (2 ^ i) ∧ (j < i → fitsBudget t M (2 ^ (i - 1)) = false) := by
  induction fuel generalizing j with
  | zero => exact ⟨j, le_rfl, le_rfl, rfl, h, fun h => absurd h (lt_irrefl j)⟩
  | succ fuel ih =>
      by_cases hf : fitsBudget t M (2 ^ j)
      · exact ⟨j, le_rfl, by omega, by simp [leastFitting, hf], hf,
          fun h => absurd h (lt_irrefl j)⟩
      · obtain ⟨i, hji, hi, hgo, hfit, hmin⟩ :=
          ih (j + 1) (by rwa [show j + 1 + fuel = j + (fuel + 1) by omega])
        refine ⟨i, by omega, by omega, ?_, hfit, fun _ => ?_⟩
        · rw [leastFitting, if_neg hf, ← pow_succ', hgo]
        · rcases Nat.lt_or_ge (j + 1) i with hlt | hge
          · exact hmin hlt
          · obtain rfl : i = j + 1 := by omega
            simpa using hf

set_option exponentiation.threshold 2500 in
/-- A budget of `20 * N` bytes gives exactly `N` pieces. -/
theorem numPieces_scaled {N : Nat} (hN : 20 * N < 2 ^ 53) :
    (F64.div (F64.ofNat (20 * N)) (F64.ofNat shaHashLen)).scaled = N * 2 ^ 1074 := by
  have h20 : (F64.ofNat shaHashLen).scaled = 20 * 2 ^ 1074 := F64.ofNat_scaled (by decide)
  refine F64.div_scaled (by rw [h20]; positivity) (by omega) ?_
  rw [F64.ofNat_scaled hN, h20, Nat.mul_assoc, Nat.mul_left_comm]

section Bounds

variable {t N i : Nat} {Nf : F64}

/-- Where `N` pieces of `2 ^ i` bytes do not exceed the size, the truncated float is at least
`2 ^ i`. -/
theorem pieceLength_ge (hNf : Nf.scaled = N * 2 ^ 1074) (hN : 0 < N) (hN53 : N < 2 ^ 53)
    (hi : i < 64) (h : N * 2 ^ i ≤ t) :
    2 ^ i ≤ (F64.add (F64.div (F64.ofNat t) Nf) F64.half).toU64 := by
  have h1 := F64.le_ofNat hN53 h
  have h2 : 1 * 2 ^ i * 2 ^ 1074 ≤ (F64.div (F64.ofNat t) Nf).scaled :=
    F64.le_div (hNf ▸ Nat.mul_pos hN (pow_pos two_pos _)) (by norm_num) (by
      rw [hNf]
      calc 1 * 2 ^ i * (N * 2 ^ 1074) = N * 2 ^ i * 2 ^ 1074 := by
            generalize (2 : Nat) ^ 1074 = T; ring
        _ ≤ _ := h1)
  have h3 : 1 * 2 ^ (i + 1074) ≤ (F64.add (F64.div (F64.ofNat t) Nf) F64.half).scaled :=
    F64.le_add (by norm_num) (by
      rw [pow_add, ← Nat.mul_assoc]; exact h2.trans (Nat.le_add_right _ _))
  rw [Nat.one_mul, pow_add] at h3
  exact F64.le_toU64 (Nat.pow_lt_pow_right (by norm_num) hi) h3

set_option exponentiation.threshold 2500 in
/-- Where `N` pieces of `2 ^ i` bytes cover the size, the truncated float is at most `2 ^ i`,
as long as `2 ^ i + 0.5` is exact. -/
theorem pieceLength_le (hNf : Nf.scaled = N * 2 ^ 1074) (hN : 0 < N) (hN53 : N < 2 ^ 53)
    (hi : i ≤ 51) (h : t ≤ N * 2 ^ i) :
    (F64.add (F64.div (F64.ofNat t) Nf) F64.half).toU64 ≤ 2 ^ i := by
  have h1 := F64.ofNat_le hN53 h
  have h2 : (F64.div (F64.ofNat t) Nf).scaled ≤ 1 * 2 ^ i * 2 ^ 1074 :=
    F64.div_le (hNf ▸ Nat.mul_pos hN (pow_pos two_pos _)) (by norm_num) (by
      rw [hNf]
      calc _ ≤ N * 2 ^ i * 2 ^ 1074 := h1
        _ = 1 * 2 ^ i * (N * 2 ^ 1074) := by generalize (2 : Nat) ^ 1074 = T; ring)
  have hc : 2 ^ (i + 1) + 1 < 2 ^ 53 := by
    have := Nat.pow_le_pow_right (n := 2) two_pos (show i + 1 ≤ 52 by omega)
    omega
  have e1 : (2 : Nat) ^ (i + 1) = 2 ^ i * 2 := pow_succ 2 i
  have e2 : (2 : Nat) ^ 1074 = 2 ^ 1073 * 2 := pow_succ 2 1073
  have hT : 0 < (2 : Nat) ^ 1073 := pow_pos two_pos _
  have h3 : (F64.add (F64.div (F64.ofNat t) Nf) F64.half).scaled ≤ (2 ^ (i + 1) + 1) * 2 ^ 1073 :=
    F64.add_le hc (by
      rw [F64.half_scaled, e1]; rw [e2] at h2
      generalize (2 : Nat) ^ 1073 = T at h2 ⊢
      linarith)
  refine F64.toU64_le (h3.trans_lt ?_)
  rw [e1, e2]
  generalize (2 : Nat) ^ 1073 = T at hT ⊢
  linarith

end Bounds

/-- Against the documented piece length, the policy is never above it and at most one power
of two below it: a size over `N` pieces of `2 ^ (i - 1)` bytes gives at least `2 ^ (i - 1)`
after truncation, and one within `N` pieces of `2 ^ i` bytes at most `2 ^ i`. -/
theorem calculatePieceLength_claimed_or_half {t M m N j : Nat} (ht : t < 2 ^ 64)
    (hM : M = 20 * N) (hN : 512 ≤ N) (hN53 : 20 * N < 2 ^ 53) (hm : m = 2 ^ j) (hj : j ≤ 24) :
    ∃ r, calculatePieceLength t M m = some r ∧
      (r = claimedPieceLength t M m ∨ 2 * r = claimedPieceLength t M m) := by
  subst hM hm
  have hNf := numPieces_scaled hN53
  have hN0 : 0 < N := by omega
  have hN' : N < 2 ^ 53 := by omega
  have hcap : 2 ^ j ≤ allOptMaxPieceLength :=
    (Nat.pow_le_pow_right two_pos hj).trans (by norm_num [allOptMaxPieceLength])
  have h1083 : 2 ^ 1083 ≤ (F64.div (F64.ofNat (20 * N)) (F64.ofNat shaHashLen)).scaled := by
    rw [hNf, pow_add 2 9 1074]
    exact Nat.mul_le_mul_right _ (by omega)
  obtain ⟨i, -, hi, hP, hfit, hmin⟩ := claimedPieceLength.leastFitting_spec t (20 * N) 64 0
    ((fitsBudget_iff (pow_pos two_pos _)).2 (by
      have := Nat.le_mul_of_pos_left (2 ^ (0 + 64)) hN0; omega))
  rw [fitsBudget_iff (pow_pos two_pos _)] at hfit
  obtain ⟨a, -, hpot, hua, hamin⟩ := nextPowerOfTwo_spec (pieceLength_toU64_le ht h1083)
  -- within the cap the policy's power is at most the documented one
  have hupper : i ≤ 23 → a ≤ i := fun hi23 => by
    have hle := pieceLength_le hNf hN0 hN' (by omega : i ≤ 51) hfit
    by_contra hai
    have := (Nat.pow_lt_pow_iff_right (by norm_num)).1 ((hamin (by omega)).trans_le hle)
    omega
  -- and never more than one power of two below it
  have hlower : 0 < i → i - 1 ≤ a := fun hi0 => by
    have hnot := hmin hi0
    rw [← Bool.not_eq_true, fitsBudget_iff (pow_pos two_pos _)] at hnot
    have hge := pieceLength_ge hNf hN0 hN' (t := t) (i := i - 1) (by omega) (by omega)
    exact (Nat.pow_le_pow_iff_right (by norm_num)).1 (hge.trans hua)
  rw [calculatePieceLength_eq ht h1083 hcap, hpot]
  refine ⟨_, rfl, ?_⟩
  simp only [pow_zero] at hP
  rw [claimedPieceLength, hP, clamp_pow_two, clamp_pow_two]
  rcases clamp_exponent_eq_or_succ (j := j) hupper hlower with h | h
  · exact .inl (by rw [h])
  · exact .inr (by rw [← h, pow_succ, Nat.mul_comm])

/-- For every `u64` size, each optimising strategy gives the documented piece length or half
of it: never more, and at most one power of two less. -/
theorem determinePieceLength_claimed_or_half (t : Nat) (ht : t < 2 ^ 64) (s : PieceLength)
    (M m : Nat)
    (hs : s = .optBalanced ∧ M = balancedMaxPiecesSize ∧ m = balancedMinPieceLength ∨
      s = .optFileSize ∧ M = fileSizeMaxPiecesSize ∧ m = fileSizeMinPieceLength ∨
      s = .optTransfer ∧ M = transferMaxPiecesSize ∧ m = transferMinPieceLength) :
    ∃ r, determinePieceLength t s = some r ∧
      (r = claimedPieceLength t M m ∨ 2 * r = claimedPieceLength t M m) := by
  rcases hs with ⟨rfl, rfl, rfl⟩ | ⟨rfl, rfl, rfl⟩ | ⟨rfl, rfl, rfl⟩ <;>
    simp only [determinePieceLength]
  · exact calculatePieceLength_claimed_or_half (N := 2000) (j := 19) ht (by decide)
      (by norm_num) (by norm_num) (by decide) (by norm_num)
  · exact calculatePieceLength_claimed_or_half (N := 1000) (j := 20) ht (by decide)
      (by norm_num) (by norm_num) (by decide) (by norm_num)
  · exact calculatePieceLength_claimed_or_half (N := 3000) (j := 10) ht (by decide)
      (by norm_num) (by norm_num) (by decide) (by norm_num)

theorem determinePieceLength_claimed_or_half_overfull :
    ∃ r, determinePieceLength 2097152001 .optBalanced = some r ∧
      (r = claimedPieceLength 2097152001 balancedMaxPiecesSize balancedMinPieceLength ∨
        2 * r = claimedPieceLength 2097152001 balancedMaxPiecesSize balancedMinPieceLength) :=
  determinePieceLength_claimed_or_half 2097152001 (by decide) .optBalanced _ _
    (.inl ⟨rfl, rfl, rfl⟩)

end BitTorrentInfra.Metainfo
