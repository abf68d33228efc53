import BitTorrentInfra.Wire.Bytes

/-!
Nonnegative finite binary64 values and the operations the piece-length policy performs on
them: conversion from an integer, division and addition, each rounded to nearest with ties
to even, comparison, and the truncating, saturating conversion back to a `u64`.

A value is `mant * 2 ^ exp / 2 ^ 1074`, so subnormals need no case of their own. Rounding
takes the exponent of the exact result's binade, never below the subnormal one, and rounds
the scaled quotient. `F64.IsNearestEven` states what IEEE 754 roundTiesToEven requires of a
result, and `F64.isNearestEven_iff` shows that this rounding gives the one value meeting it.
Signs, infinities and NaNs are not modelled, and divisors are nonzero; `F64.ofRatio_le`
bounds each rounded result by every power of two that bounds the exact one, which is what
keeps the policy's values finite.
-/

namespace BitTorrentInfra

/-- The number of binary digits of `n`, taking off 64 digits at a time while `n` has more
and one at a time below that; `fuel ≥ n` suffices. -/
def bitLenAux : Nat → Nat → Nat
  | 0, _ => 0
  | fuel + 1, n =>
      if n = 0 then 0
      else if n < 2 ^ 64 then bitLenAux fuel (n / 2) + 1
      else bitLenAux fuel (n / 2 ^ 64) + 64

/-- The number of binary digits of `n`. -/
def bitLen (n : Nat) : Nat := bitLenAux n n

theorem bitLenAux_zero (fuel : Nat) : bitLenAux fuel 0 = 0 := by
  cases fuel <;> rfl

theorem bitLenAux_spec (fuel n : Nat) (h : n ≤ fuel) :
    n < 2 ^ bitLenAux fuel n ∧ (0 < n → 2 ^ bitLenAux fuel n ≤ 2 * n) := by
  induction fuel generalizing n with
  | zero => simp [bitLenAux]; omega
  | succ fuel ih =>
      by_cases hn : n = 0
      · simp [hn, bitLenAux_zero]
      by_cases hs : n < 2 ^ 64
      · obtain ⟨hlt, hle⟩ := ih (n / 2) (by omega)
        simp only [bitLenAux, hn, hs, if_false, if_true]
        rw [pow_succ]
        rcases Nat.eq_zero_or_pos (n / 2) with h2 | h2
        · rw [h2, bitLenAux_zero]; omega
        · have := hle h2
          generalize 2 ^ bitLenAux fuel (n / 2) = P at *
          omega
      · have hq : 0 < n / 2 ^ 64 := Nat.div_pos (by omega) (by decide)
        obtain ⟨hlt, hle⟩ := ih (n / 2 ^ 64) (by omega)
        have hle := hle hq
        have hdm := Nat.div_add_mod n (2 ^ 64)
        have hm := Nat.mod_lt n (show 0 < 2 ^ 64 by decide)
        simp only [bitLenAux, hn, hs, if_false]
        rw [pow_add]
        generalize 2 ^ bitLenAux fuel (n / 2 ^ 64) = P at *
        generalize n / 2 ^ 64 = q at *
        simp only [show (2 : Nat) ^ 64 = 18446744073709551616 by norm_num] at *
        omega

theorem lt_two_pow_bitLen (n : Nat) : n < 2 ^ bitLen n := (bitLenAux_spec n n le_rfl).1

theorem two_pow_bitLen_le {n : Nat} (h : 0 < n) : 2 ^ bitLen n ≤ 2 * n :=
  (bitLenAux_spec n n le_rfl).2 h

/-- `⌊log₂ (a / b)⌋`, read as `0` where it is negative. -/
def floorLog2 (a b : Nat) : Nat :=
  if a * 2 ^ bitLen b < b * 2 ^ bitLen a then bitLen a - bitLen b - 1 else bitLen a - bitLen b

theorem pow_floorLog2_le {a b : Nat} (h : 0 < floorLog2 a b) : 2 ^ floorLog2 a b * b ≤ a := by
  have hb := lt_two_pow_bitLen b
  by_cases hc : a * 2 ^ bitLen b < b * 2 ^ bitLen a
  · simp only [floorLog2, hc, if_true] at h ⊢
    have ha : 0 < a := Nat.pos_of_ne_zero fun e => by simp_all [bitLen, bitLenAux_zero]
    have h2a := two_pow_bitLen_le ha
    have hsplit : 2 ^ bitLen a = 2 ^ (bitLen a - bitLen b - 1) * 2 ^ bitLen b * 2 := by
      rw [← pow_add, ← pow_succ]; congr 1; omega
    have := Nat.mul_lt_mul_of_pos_left hb (Nat.two_pow_pos (bitLen a - bitLen b - 1))
    rw [hsplit] at h2a
    omega
  · simp only [floorLog2, hc, if_false] at h ⊢
    have hsplit : 2 ^ bitLen a = 2 ^ (bitLen a - bitLen b) * 2 ^ bitLen b := by
      rw [← pow_add]; congr 1; omega
    refine Nat.le_of_mul_le_mul_right ?_ (Nat.two_pow_pos (bitLen b))
    rw [Nat.mul_assoc, Nat.mul_comm b, ← Nat.mul_assoc, ← hsplit, Nat.mul_comm]
    exact Nat.le_of_not_lt hc

theorem lt_pow_floorLog2_succ {a b : Nat} (hb : 0 < b) : a < 2 ^ (floorLog2 a b + 1) * b := by
  have ha := lt_two_pow_bitLen a
  have hb₁ := lt_two_pow_bitLen b
  have hb₂ := two_pow_bitLen_le hb
  by_cases hc : a * 2 ^ bitLen b < b * 2 ^ bitLen a
  · simp only [floorLog2, hc, if_true]
    by_cases hl : bitLen b + 1 ≤ bitLen a
    · have hsplit : 2 ^ bitLen a = 2 ^ (bitLen a - bitLen b - 1 + 1) * 2 ^ bitLen b := by
        rw [← pow_add]; congr 1; omega
      rw [hsplit, ← Nat.mul_assoc, Nat.mul_comm b] at hc
      exact Nat.lt_of_mul_lt_mul_right hc
    · have : 2 ^ bitLen a ≤ 2 ^ bitLen b := Nat.pow_le_pow_right two_pos (by omega)
      have : a * 2 ^ bitLen b < b * 2 ^ bitLen b := hc.trans_le (Nat.mul_le_mul_left _ this)
      have := Nat.lt_of_mul_lt_mul_right this
      rw [show bitLen a - bitLen b - 1 = 0 by omega]
      omega
  · simp only [floorLog2, hc, if_false]
    by_cases hl : bitLen b ≤ bitLen a
    · have hsplit : 2 ^ bitLen a = 2 ^ (bitLen a - bitLen b) * 2 ^ bitLen b := by
        rw [← pow_add]; congr 1; omega
      rw [hsplit] at ha
      rw [pow_succ]
      calc a < 2 ^ (bitLen a - bitLen b) * 2 ^ bitLen b := ha
        _ ≤ 2 ^ (bitLen a - bitLen b) * (2 * b) := Nat.mul_le_mul_left _ hb₂
        _ = 2 ^ (bitLen a - bitLen b) * 2 * b := by ring
    · have : 2 ^ bitLen a * 2 ≤ 2 ^ bitLen b := by
        rw [← pow_succ]; exact Nat.pow_le_pow_right two_pos (by omega)
      rw [show bitLen a - bitLen b = 0 by omega]
      omega

theorem floorLog2_mono {a b a' b' : Nat} (hb : 0 < b) (hb' : 0 < b') (h : a * b' ≤ a' * b) :
    floorLog2 a b ≤ floorLog2 a' b' := by
  rcases Nat.eq_zero_or_pos (floorLog2 a b) with h0 | hpos
  · omega
  have hlo := pow_floorLog2_le hpos
  have hhi := lt_pow_floorLog2_succ (a := a') hb'
  have : 2 ^ floorLog2 a b * (b * b') < 2 ^ (floorLog2 a' b' + 1) * (b' * b) := calc
    _ = 2 ^ floorLog2 a b * b * b' := by ring
    _ ≤ a * b' := Nat.mul_le_mul_right _ hlo
    _ ≤ a' * b := h
    _ < 2 ^ (floorLog2 a' b' + 1) * b' * b := Nat.mul_lt_mul_of_pos_right hhi hb
    _ = _ := by ring
  rw [Nat.mul_comm b' b] at this
  have := (Nat.pow_lt_pow_iff_right (by decide)).1 (Nat.lt_of_mul_lt_mul_right this)
  omega

/-- A nonnegative finite binary64 value, `mant * 2 ^ exp / 2 ^ 1074`. -/
structure F64 where
  mant : Nat
  exp : Nat
  deriving DecidableEq, Repr

namespace F64

/-- The value times `2 ^ 1074`, an integer. -/
def scaled (x : F64) : Nat := x.mant * 2 ^ x.exp

/-- `n / d` rounded to the nearest integer, ties to even. -/
def roundHalfEven (n d : Nat) : Nat :=
  if d < 2 * (n % d) ∨ (2 * (n % d) = d ∧ n / d % 2 = 1) then n / d + 1 else n / d

theorem roundHalfEven_le {n d N : Nat} (hd : 0 < d) (h : n ≤ N * d) :
    roundHalfEven n d ≤ N := by
  have hq : n / d ≤ N := Nat.div_le_of_le_mul (by rwa [Nat.mul_comm])
  have hdm := Nat.div_add_mod n d
  have hm := Nat.mod_lt n hd
  unfold roundHalfEven
  split
  · rcases Nat.lt_or_ge (n / d) N with hlt | hge
    · omega
    · have hN : N = n / d := by omega
      rw [hN, Nat.mul_comm] at h
      generalize d * (n / d) = P at *
      omega
  · exact hq

theorem div_le_roundHalfEven (n d : Nat) : n / d ≤ roundHalfEven n d := by
  unfold roundHalfEven; split <;> omega

theorem roundHalfEven_mul {c d : Nat} (hd : 0 < d) : roundHalfEven (c * d) d = c := by
  simp [roundHalfEven, Nat.mul_div_cancel c hd, Nat.mul_mod_left]; omega

theorem roundHalfEven_le_succ (n d : Nat) : roundHalfEven n d ≤ n / d + 1 := by
  unfold roundHalfEven; split <;> omega

theorem roundHalfEven_mono {n d n' d' : Nat} (hd : 0 < d) (hd' : 0 < d') (h : n * d' ≤ n' * d) :
    roundHalfEven n d ≤ roundHalfEven n' d' := by
  have hq : n / d ≤ n' / d' := by
    rw [Nat.le_div_iff_mul_le hd']
    refine Nat.le_of_mul_le_mul_right ?_ hd
    calc n / d * d' * d = n / d * d * d' := by ring
      _ ≤ n * d' := Nat.mul_le_mul_right _ (Nat.div_mul_le_self n d)
      _ ≤ n' * d := h
  rcases Nat.lt_or_ge (n / d) (n' / d') with hlt | hge
  · calc roundHalfEven n d ≤ n / d + 1 := roundHalfEven_le_succ n d
      _ ≤ n' / d' := hlt
      _ ≤ roundHalfEven n' d' := div_le_roundHalfEven n' d'
  -- equal quotients: the remainders compare as the fractions do
  have e := Nat.div_add_mod n d
  have e' := Nat.div_add_mod n' d'
  have hr := Nat.mod_lt n hd
  have hr' := Nat.mod_lt n' hd'
  unfold roundHalfEven
  generalize n / d = q, n % d = r, n' / d' = q', n' % d' = r' at *
  subst e e'
  obtain rfl : q = q' := le_antisymm hq hge
  have hrr : r * d' ≤ r' * d := by linarith
  split <;> split <;> try omega
  rename_i hup hdown
  have h2 : 2 * r' ≤ d' := by omega
  rcases hup with hup | ⟨htie, hodd⟩
  · linarith [Nat.mul_lt_mul_of_pos_right hup hd', Nat.mul_le_mul_right d h2]
  · have : d * d' ≤ d * (2 * r') := by
      subst htie; linarith
    have := Nat.le_of_mul_le_mul_left this hd
    omega

theorem roundHalfEven_nearest (n d m : Nat) (hd : 0 < d) :
    Nat.dist (roundHalfEven n d * d) n ≤ Nat.dist (m * d) n := by
  have e : n / d * d + n % d = n := by rw [Nat.mul_comm]; exact Nat.div_add_mod n d
  have hr := Nat.mod_lt n hd
  have hm : m * d ≤ n / d * d ∨ n / d * d + d ≤ m * d := by
    rcases le_or_lt m (n / d) with h | h
    · exact .inl (Nat.mul_le_mul_right d h)
    · exact .inr (by rw [← Nat.succ_mul]; exact Nat.mul_le_mul_right d h)
  unfold roundHalfEven Nat.dist
  split
  · rw [Nat.add_mul, Nat.one_mul]
    generalize n / d * d = Q, n % d = r, m * d = M at *
    omega
  · generalize n / d * d = Q, n % d = r, m * d = M at *
    omega

theorem roundHalfEven_dist_le (n d : Nat) (hd : 0 < d) :
    2 * Nat.dist (roundHalfEven n d * d) n ≤ d := by
  have e : n / d * d + n % d = n := by rw [Nat.mul_comm]; exact Nat.div_add_mod n d
  have hr := Nat.mod_lt n hd
  unfold roundHalfEven Nat.dist
  split
  · rw [Nat.add_mul, Nat.one_mul]
    generalize n / d * d = Q, n % d = r at *
    omega
  · generalize n / d * d = Q, n % d = r at *
    omega

/-- The binary64 value nearest to `A / b`: the exponent of the binade of `A / b`, shifted
to leave 53 significant bits and never negative, and the quotient rounded at it. -/
def roundScaled (A b : Nat) : F64 :=
  let e := floorLog2 A b - 52
  ⟨roundHalfEven A (b * 2 ^ e), e⟩

theorem roundScaled_le {A b K : Nat} (hb : 0 < b) (h : A ≤ 2 ^ K * b) :
    (roundScaled A b).scaled ≤ 2 ^ K := by
  have he : floorLog2 A b - 52 ≤ K := by
    rcases Nat.eq_zero_or_pos (floorLog2 A b - 52) with h0 | hpos
    · omega
    · have hfl := pow_floorLog2_le (a := A) (b := b) (by omega)
      have : 2 ^ floorLog2 A b ≤ 2 ^ K := Nat.le_of_mul_le_mul_right (hfl.trans h) hb
      have := (Nat.pow_le_pow_iff_right (by decide)).1 this
      omega
  simp only [roundScaled, scaled]
  generalize floorLog2 A b - 52 = e at he ⊢
  have hsplit : 2 ^ K = 2 ^ (K - e) * 2 ^ e := by rw [← pow_add]; congr 1; omega
  have hm : roundHalfEven A (b * 2 ^ e) ≤ 2 ^ (K - e) :=
    roundHalfEven_le (Nat.mul_pos hb (Nat.two_pow_pos e))
      (by rw [← Nat.mul_assoc, Nat.mul_comm _ b, Nat.mul_assoc, Nat.mul_comm b, ← hsplit]
          exact h)
  rw [hsplit]
  exact Nat.mul_le_mul_right _ hm

theorem le_roundScaled {A b K : Nat} (hb : 0 < b) (h : 2 ^ K * b ≤ A) :
    2 ^ K ≤ (roundScaled A b).scaled := by
  have hK : K ≤ floorLog2 A b := by
    have := Nat.lt_of_mul_lt_mul_right (h.trans_lt (lt_pow_floorLog2_succ (a := A) hb))
    have := (Nat.pow_lt_pow_iff_right (by decide)).1 this
    omega
  -- the truncated quotient at exponent `e` already reaches any `2 ^ J` with `e ≤ J`
  have reach : ∀ J e, e ≤ J → 2 ^ J * b ≤ A →
      2 ^ J ≤ roundHalfEven A (b * 2 ^ e) * 2 ^ e := by
    intro J e hJ hA
    obtain ⟨d, rfl⟩ : ∃ d, J = d + e := ⟨J - e, by omega⟩
    have : 2 ^ d ≤ A / (b * 2 ^ e) :=
      (Nat.le_div_iff_mul_le (Nat.mul_pos hb (Nat.two_pow_pos e))).2
        (by rw [pow_add] at hA; linarith)
    rw [pow_add]
    exact Nat.mul_le_mul_right _ (this.trans (div_le_roundHalfEven _ _))
  simp only [roundScaled, scaled]
  by_cases he : floorLog2 A b - 52 ≤ K
  · exact reach K _ he h
  · calc 2 ^ K ≤ 2 ^ floorLog2 A b := Nat.pow_le_pow_right two_pos hK
      _ ≤ _ := reach _ _ (by omega) (pow_floorLog2_le (by omega))

theorem roundScaled_exact {c k b : Nat} (hb : 0 < b) (hc : c < 2 ^ 53) :
    (roundScaled (c * 2 ^ k * b) b).scaled = c * 2 ^ k := by
  have he : floorLog2 (c * 2 ^ k * b) b - 52 ≤ k := by
    rcases Nat.eq_zero_or_pos (floorLog2 (c * 2 ^ k * b) b) with h0 | hpos
    · omega
    have h1 := Nat.le_of_mul_le_mul_right (pow_floorLog2_le hpos) hb
    have h2 : c * 2 ^ k < 2 ^ (53 + k) := by
      rw [pow_add]; exact Nat.mul_lt_mul_of_pos_right hc (Nat.two_pow_pos k)
    have := (Nat.pow_lt_pow_iff_right (by decide)).1 (h1.trans_lt h2)
    omega
  simp only [roundScaled, scaled]
  generalize floorLog2 (c * 2 ^ k * b) b - 52 = e at he ⊢
  obtain ⟨d, rfl⟩ : ∃ d, k = d + e := ⟨k - e, by omega⟩
  rw [show c * 2 ^ (d + e) * b = c * 2 ^ d * (b * 2 ^ e) by ring,
    roundHalfEven_mul (Nat.mul_pos hb (Nat.two_pow_pos e)), pow_add, Nat.mul_assoc]

theorem roundScaled_mono {A b A' b' : Nat} (hb : 0 < b) (hb' : 0 < b') (h : A * b' ≤ A' * b) :
    (roundScaled A b).scaled ≤ (roundScaled A' b').scaled := by
  have hf := floorLog2_mono hb hb' h
  by_cases he : floorLog2 A b - 52 = floorLog2 A' b' - 52
  · simp only [roundScaled, scaled, he]
    refine Nat.mul_le_mul_right _ (roundHalfEven_mono (Nat.mul_pos hb (Nat.two_pow_pos _))
      (Nat.mul_pos hb' (Nat.two_pow_pos _)) ?_)
    rw [← Nat.mul_assoc, ← Nat.mul_assoc]
    exact Nat.mul_le_mul_right _ h
  -- a larger exponent: the first result is at most the power of two the second starts at
  · calc (roundScaled A b).scaled ≤ 2 ^ (floorLog2 A b + 1) :=
          roundScaled_le hb (lt_pow_floorLog2_succ hb).le
      _ ≤ 2 ^ floorLog2 A' b' := Nat.pow_le_pow_right two_pos (by omega)
      _ ≤ _ := le_roundScaled hb' (pow_floorLog2_le (by omega))

theorem roundScaled_le_of_exact {A b c k : Nat} (hb : 0 < b) (hc : c < 2 ^ 53)
    (h : A ≤ c * 2 ^ k * b) : (roundScaled A b).scaled ≤ c * 2 ^ k :=
  roundScaled_exact (k := k) hb hc ▸ roundScaled_mono hb hb (Nat.mul_le_mul_right b h)

theorem le_roundScaled_of_exact {A b c k : Nat} (hb : 0 < b) (hc : c < 2 ^ 53)
    (h : c * 2 ^ k * b ≤ A) : c * 2 ^ k ≤ (roundScaled A b).scaled :=
  roundScaled_exact (k := k) hb hc ▸ roundScaled_mono hb hb (Nat.mul_le_mul_right b h)

/-- The significand of `x` in its canonical form, normal (53 bits, the leading one set) or
subnormal (exponent zero), is even. -/
def EvenSignificand (x : Nat) : Prop :=
  ∃ c k, c < 2 ^ 53 ∧ (k = 0 ∨ 2 ^ 52 ≤ c) ∧ c % 2 = 0 ∧ x = c * 2 ^ k

/-- What IEEE 754 roundTiesToEven asks of a result `r` for the exact value `num / den`, both
in units of `2 ^ -1074`: `r` has at most 53 significant bits, no value with at most 53
significant bits is closer, and where another one is as close, `r`'s significand is even. -/
def IsNearestEven (r : F64) (num den : Nat) : Prop :=
  (∃ c k, c < 2 ^ 53 ∧ r.scaled = c * 2 ^ k) ∧
    (∀ c k, c < 2 ^ 53 → Nat.dist (r.scaled * den) num ≤ Nat.dist (c * 2 ^ k * den) num) ∧
    ∀ c k, c < 2 ^ 53 → c * 2 ^ k ≠ r.scaled →
      Nat.dist (c * 2 ^ k * den) num = Nat.dist (r.scaled * den) num → EvenSignificand r.scaled

theorem roundHalfEven_even_of_tie {n d : Nat} (hd : 0 < d)
    (h : 2 * Nat.dist (roundHalfEven n d * d) n = d) : roundHalfEven n d % 2 = 0 := by
  have e : n / d * d + n % d = n := by rw [Nat.mul_comm]; exact Nat.div_add_mod n d
  have hr := Nat.mod_lt n hd
  unfold roundHalfEven at *
  split_ifs at h ⊢ <;> simp only [Nat.add_mul, Nat.one_mul, Nat.dist] at h <;>
    generalize n / d * d = Q, n % d = r at * <;> omega

theorem roundScaled_mant {A b : Nat} (hb : 0 < b) :
    (roundScaled A b).mant ≤ 2 ^ 53 ∧
      ((roundScaled A b).exp = 0 ∨ 2 ^ 52 ≤ (roundScaled A b).mant) := by
  simp only [roundScaled]
  have hhi := lt_pow_floorLog2_succ (a := A) hb
  generalize hL : floorLog2 A b = L at hhi
  have hD : 0 < b * 2 ^ (L - 52) := Nat.mul_pos hb (pow_pos two_pos _)
  refine ⟨roundHalfEven_le hD (hhi.le.trans ?_), ?_⟩
  · calc 2 ^ (L + 1) * b ≤ 2 ^ (53 + (L - 52)) * b :=
          Nat.mul_le_mul_right _ (Nat.pow_le_pow_right two_pos (by omega))
      _ = 2 ^ 53 * (b * 2 ^ (L - 52)) := by rw [pow_add]; ring
  · rcases Nat.eq_zero_or_pos (L - 52) with h0 | hpos
    · exact .inl h0
    have hlo := pow_floorLog2_le (a := A) (b := b) (by omega)
    rw [hL] at hlo
    refine .inr ((Nat.le_div_iff_mul_le hD).2 ?_ |>.trans (div_le_roundHalfEven _ _))
    calc 2 ^ 52 * (b * 2 ^ (L - 52)) = 2 ^ (52 + (L - 52)) * b := by rw [pow_add]; ring
      _ = 2 ^ L * b := by rw [show 52 + (L - 52) = L by omega]
      _ ≤ A := hlo

theorem le_two_mul_dist_of_below {x a D : Nat} (h : 2 * x + D ≤ 2 * a) :
    D ≤ 2 * Nat.dist x a := by
  unfold Nat.dist; omega

/-- Two points at least `D` apart and equally far from `a` are each at least `D / 2` from it. -/
theorem le_two_mul_dist_of_gap {x y a D : Nat} (hgap : x + D ≤ y ∨ y + D ≤ x)
    (heq : Nat.dist x a = Nat.dist y a) : D ≤ 2 * Nat.dist y a := by
  unfold Nat.dist at heq ⊢; omega

/-- A point strictly between two points equally far from `a` is nearer to it. -/
theorem dist_lt_of_between {x y z a : Nat} (hxy : x < y) (hyz : y < z)
    (heq : Nat.dist x a = Nat.dist z a) : Nat.dist y a < Nat.dist x a := by
  unfold Nat.dist at *; omega

/-- A 53-bit value lies on the grid of the exponent `roundScaled A b` rounds at, or on a finer
grid at least half a step of that grid below `A / b`. -/
theorem grid_or_below {A b c k e : Nat} (he : floorLog2 A b - 52 = e) (hc : c < 2 ^ 53) :
    (∃ j, c * 2 ^ k * b = j * (b * 2 ^ e)) ∨ 2 * (c * 2 ^ k * b) + b * 2 ^ e ≤ 2 * A := by
  subst he
  generalize hL : floorLog2 A b = L
  by_cases hk : L - 52 ≤ k
  · obtain ⟨j, rfl⟩ : ∃ j, k = j + (L - 52) := ⟨k - (L - 52), by omega⟩
    exact .inl ⟨c * 2 ^ j, by rw [pow_add]; ring⟩
  have hlo := pow_floorLog2_le (a := A) (b := b) (by omega)
  rw [hL] at hlo
  have h2k : 2 ^ k * 2 ≤ 2 ^ (L - 52) := by
    rw [← pow_succ]; exact Nat.pow_le_pow_right two_pos (by omega)
  refine .inr (calc
    2 * (c * 2 ^ k * b) + b * 2 ^ (L - 52) = (c * (2 ^ k * 2) + 2 ^ (L - 52)) * b := by ring
    _ ≤ (c * 2 ^ (L - 52) + 2 ^ (L - 52)) * b :=
        Nat.mul_le_mul_right _ (Nat.add_le_add_right (Nat.mul_le_mul_left _ h2k) _)
    _ = (c + 1) * 2 ^ (L - 52) * b := by ring
    _ ≤ 2 ^ 53 * 2 ^ (L - 52) * b := Nat.mul_le_mul_right _ (Nat.mul_le_mul_right _ hc)
    _ = 2 * (2 ^ L * b) := by rw [← pow_add, show 53 + (L - 52) = L + 1 by omega, pow_succ]; ring
    _ ≤ 2 * A := Nat.mul_le_mul_left _ hlo)

/-- `roundScaled` rounds to nearest, ties to even: no 53-bit value on the result's grid
is closer, one on a finer grid is at least half a step away, and a tie is a tie on the
result's grid, where `roundHalfEven` picks the even neighbour. -/
theorem roundScaled_nearest {A b : Nat} (hb : 0 < b) : IsNearestEven (roundScaled A b) A b := by
  obtain ⟨hmant, hnorm⟩ := roundScaled_mant (A := A) hb
  simp only [roundScaled] at hmant hnorm
  simp only [IsNearestEven, roundScaled, scaled]
  generalize he : floorLog2 A b - 52 = e at *
  have hD : 0 < b * 2 ^ e := Nat.mul_pos hb (pow_pos two_pos _)
  have hr : ∀ m, m * 2 ^ e * b = m * (b * 2 ^ e) := fun m => by ring
  have hnear := fun j => roundHalfEven_nearest A _ j hD
  have hhalf := roundHalfEven_dist_le A _ hD
  have hevenOf := roundHalfEven_even_of_tie (n := A) hD
  rw [hr]
  generalize roundHalfEven A (b * 2 ^ e) = m at *
  refine ⟨?_, fun c k hc => ?_, fun c k hc hne heq => ?_⟩
  · rcases hmant.lt_or_eq with hlt | rfl
    · exact ⟨m, e, hlt, rfl⟩
    · exact ⟨2 ^ 52, e + 1, by norm_num, by rw [pow_succ]; ring⟩
  · rcases grid_or_below (k := k) he hc with ⟨j, hj⟩ | hbelow
    · rw [hj]; exact hnear j
    · have := le_two_mul_dist_of_below hbelow
      omega
  -- a value as close as the result makes `A` the midpoint of two neighbours on its grid
  have htie : 2 * Nat.dist (m * (b * 2 ^ e)) A = b * 2 ^ e := by
    refine le_antisymm hhalf ?_
    rcases grid_or_below (k := k) he hc with ⟨j, hj⟩ | hbelow
    · have hjm : j ≠ m := by
        rintro rfl
        exact hne (Nat.eq_of_mul_eq_mul_right hb (by rw [hj, hr]))
      rw [hj] at heq
      refine le_two_mul_dist_of_gap ?_ heq
      rcases Nat.lt_or_gt_of_ne hjm with h | h
      · exact .inl (by rw [← Nat.succ_mul]; exact Nat.mul_le_mul_right _ h)
      · exact .inr (by rw [← Nat.succ_mul]; exact Nat.mul_le_mul_right _ h)
    · rw [← heq]; exact le_two_mul_dist_of_below hbelow
  have heven := hevenOf htie
  rcases hmant.lt_or_eq with hlt | rfl
  · exact ⟨m, e, hlt, hnorm, heven, rfl⟩
  · exact ⟨2 ^ 52, e + 1, by norm_num, .inr le_rfl, by norm_num, by rw [pow_succ]; ring⟩

/-- Of two values that both meet the requirement, neither is below the other: the value an
odd step above the lower one would lie strictly between them, nearer the midpoint. -/
theorem IsNearestEven.not_lt {r r' : F64} {num den : Nat} (hden : 0 < den)
    (h : IsNearestEven r num den) (h' : IsNearestEven r' num den) : ¬ r.scaled < r'.scaled := by
  intro hlt
  obtain ⟨⟨c, k, hc, hr⟩, hmin, htie⟩ := h
  obtain ⟨⟨c', k', hc', hr'⟩, hmin', htie'⟩ := h'
  have hd := le_antisymm (hr ▸ hmin' c k hc) (hr' ▸ hmin c' k' hc')
  obtain ⟨a, i, ha, hai, hae, hra⟩ := htie c' k' hc' (hr' ▸ hlt.ne') (hr' ▸ hd)
  obtain ⟨a', i', ha', -, hae', hra'⟩ := htie' c k hc (hr ▸ hlt.ne) (hr ▸ hd.symm)
  rw [hra, hra'] at hlt
  -- the lower value's exponent is at most the upper one's
  have hii : i ≤ i' := by
    rcases hai with rfl | hbig
    · exact Nat.zero_le _
    by_contra hlt'
    refine Nat.lt_asymm (calc
      a' * 2 ^ i' < 2 ^ 53 * 2 ^ i' := Nat.mul_lt_mul_of_pos_right ha' (pow_pos two_pos _)
      _ = 2 ^ 52 * 2 ^ (i' + 1) := by rw [pow_succ]; ring
      _ ≤ 2 ^ 52 * 2 ^ i := Nat.mul_le_mul_left _ (Nat.pow_le_pow_right two_pos (by omega))
      _ ≤ a * 2 ^ i := Nat.mul_le_mul_right _ hbig) hlt
  -- both are even multiples of `2 ^ i`, so an odd multiple lies strictly between them
  obtain ⟨u, rfl⟩ : ∃ u, a = 2 * u := ⟨a / 2, by omega⟩
  obtain ⟨u', rfl⟩ : ∃ u', a' = 2 * u' := ⟨a' / 2, by omega⟩
  obtain ⟨d, rfl⟩ : ∃ d, i' = d + i := ⟨i' - i, by omega⟩
  have hsplit : 2 * u' * 2 ^ (d + i) = 2 * (u' * 2 ^ d) * 2 ^ i := by rw [pow_add]; ring
  rw [hsplit] at hra' hlt
  generalize u' * 2 ^ d = w at hra' hlt
  have hP : 0 < 2 ^ i := pow_pos two_pos _
  have huw : u < w := by
    have := Nat.lt_of_mul_lt_mul_right hlt
    omega
  have hlow : r.scaled * den < (2 * u + 1) * 2 ^ i * den :=
    Nat.mul_lt_mul_of_pos_right (hra ▸ Nat.mul_lt_mul_of_pos_right (by omega) hP) hden
  have hhigh : (2 * u + 1) * 2 ^ i * den < r'.scaled * den :=
    Nat.mul_lt_mul_of_pos_right (hra' ▸ Nat.mul_lt_mul_of_pos_right (by omega) hP) hden
  exact absurd (hmin (2 * u + 1) i (by omega))
    (Nat.not_le.2 (dist_lt_of_between hlow hhigh hd.symm))

theorem isNearestEven_iff {A b : Nat} (hb : 0 < b) (r : F64) :
    IsNearestEven r A b ↔ r.scaled = (roundScaled A b).scaled := by
  have h' := roundScaled_nearest (A := A) hb
  refine ⟨fun h => le_antisymm (not_lt.1 (h'.not_lt hb h)) (not_lt.1 (h.not_lt hb h')),
    fun h => ?_⟩
  unfold IsNearestEven
  rw [h]
  exact h'

/-- The binary64 value nearest to `a / b`, ties to even. -/
def ofRatio (a b : Nat) : F64 := roundScaled (a * 2 ^ 1074) b

theorem ofRatio_le {a b K : Nat} (hb : 0 < b) (h : a * 2 ^ 1074 ≤ 2 ^ K * b) :
    (ofRatio a b).scaled ≤ 2 ^ K :=
  roundScaled_le hb h

/-- `n as f64`. -/
def ofNat (n : Nat) : F64 := ofRatio n 1

/-- `x / y`. -/
def div (x y : F64) : F64 := ofRatio x.scaled y.scaled

/-- `x + y`. -/
def add (x y : F64) : F64 := ofRatio (x.scaled + y.scaled) (2 ^ 1074)

/-- `x <= y`. -/
def le (x y : F64) : Bool := x.scaled ≤ y.scaled

def zero : F64 := ⟨0, 0⟩

/-- The literal `0.5`. -/
def half : F64 := ofRatio 1 2

/-- `x as u64`: truncation toward zero, saturating at `u64::MAX`. -/
def toU64 (x : F64) : Nat := min (x.scaled / 2 ^ 1074) (2 ^ 64 - 1)

/-- `x.ceil()`: the least integer at least `x`, itself a binary64 value. -/
def ceil (x : F64) : F64 := ⟨(x.scaled + 2 ^ 1074 - 1) / 2 ^ 1074, 1074⟩

/-- `x as i64` for a nonnegative `x`: truncation toward zero, saturating at `i64::MAX`. -/
def toI64 (x : F64) : Nat := min (x.scaled / 2 ^ 1074) (2 ^ 63 - 1)

/-! Each operation rounds once, so a 53-bit value that bounds its exact result bounds the
result: the form in which the piece-length policy's chain of operations is followed. -/

theorem ofRatio_le_of_exact {a b c k : Nat} (hb : 0 < b) (hc : c < 2 ^ 53)
    (h : a ≤ c * 2 ^ k * b) : (ofRatio a b).scaled ≤ c * 2 ^ k * 2 ^ 1074 := by
  have := roundScaled_le_of_exact (A := a * 2 ^ 1074) (k := k + 1074) hb hc (by
    rw [pow_add]
    generalize 2 ^ 1074 = T
    calc a * T ≤ c * 2 ^ k * b * T := Nat.mul_le_mul_right T h
      _ = _ := by ring)
  rwa [pow_add, ← Nat.mul_assoc] at this

theorem le_ofRatio_of_exact {a b c k : Nat} (hb : 0 < b) (hc : c < 2 ^ 53)
    (h : c * 2 ^ k * b ≤ a) : c * 2 ^ k * 2 ^ 1074 ≤ (ofRatio a b).scaled := by
  have := le_roundScaled_of_exact (A := a * 2 ^ 1074) (k := k + 1074) hb hc (by
    rw [pow_add]
    generalize 2 ^ 1074 = T
    calc c * (2 ^ k * T) * b = c * 2 ^ k * b * T := by ring
      _ ≤ a * T := Nat.mul_le_mul_right T h)
  rwa [pow_add, ← Nat.mul_assoc] at this

theorem ofNat_le {n c k : Nat} (hc : c < 2 ^ 53) (h : n ≤ c * 2 ^ k) :
    (ofNat n).scaled ≤ c * 2 ^ k * 2 ^ 1074 :=
  ofRatio_le_of_exact one_pos hc (by rwa [Nat.mul_one])

theorem le_ofNat {n c k : Nat} (hc : c < 2 ^ 53) (h : c * 2 ^ k ≤ n) :
    c * 2 ^ k * 2 ^ 1074 ≤ (ofNat n).scaled :=
  le_ofRatio_of_exact one_pos hc (by rwa [Nat.mul_one])

theorem div_le {x y : F64} {c k : Nat} (hy : 0 < y.scaled) (hc : c < 2 ^ 53)
    (h : x.scaled ≤ c * 2 ^ k * y.scaled) : (div x y).scaled ≤ c * 2 ^ k * 2 ^ 1074 :=
  ofRatio_le_of_exact hy hc h

theorem le_div {x y : F64} {c k : Nat} (hy : 0 < y.scaled) (hc : c < 2 ^ 53)
    (h : c * 2 ^ k * y.scaled ≤ x.scaled) : c * 2 ^ k * 2 ^ 1074 ≤ (div x y).scaled :=
  le_ofRatio_of_exact hy hc h

theorem add_le {x y : F64} {c k : Nat} (hc : c < 2 ^ 53) (h : x.scaled + y.scaled ≤ c * 2 ^ k) :
    (add x y).scaled ≤ c * 2 ^ k :=
  roundScaled_le_of_exact (pow_pos two_pos _) hc (Nat.mul_le_mul_right (2 ^ 1074) h)

theorem le_add {x y : F64} {c k : Nat} (hc : c < 2 ^ 53) (h : c * 2 ^ k ≤ x.scaled + y.scaled) :
    c * 2 ^ k ≤ (add x y).scaled :=
  le_roundScaled_of_exact (pow_pos two_pos _) hc (Nat.mul_le_mul_right (2 ^ 1074) h)

theorem ofNat_scaled {n : Nat} (h : n < 2 ^ 53) : (ofNat n).scaled = n * 2 ^ 1074 := by
  have e : n = n * 2 ^ 0 := by rw [pow_zero, Nat.mul_one]
  have := le_antisymm (ofNat_le (k := 0) h e.le) (le_ofNat (k := 0) h e.ge)
  rwa [pow_zero, Nat.mul_one] at this

theorem div_scaled {x y : F64} {c : Nat} (hy : 0 < y.scaled) (hc : c < 2 ^ 53)
    (h : x.scaled = c * y.scaled) : (div x y).scaled = c * 2 ^ 1074 := by
  have e : x.scaled = c * 2 ^ 0 * y.scaled := by rw [pow_zero, Nat.mul_one, h]
  have := le_antisymm (div_le (k := 0) hy hc e.le) (le_div (k := 0) hy hc e.ge)
  rwa [pow_zero, Nat.mul_one] at this

theorem div_exact {x y : F64} {c k : Nat} (hy : 0 < y.scaled) (hc : c < 2 ^ 53)
    (h : x.scaled * 2 ^ 1074 = c * 2 ^ k * y.scaled) : (div x y).scaled = c * 2 ^ k := by
  show (roundScaled (x.scaled * 2 ^ 1074) y.scaled).scaled = _
  rw [h]
  exact roundScaled_exact hy hc

set_option exponentiation.threshold 2500 in
theorem half_scaled : half.scaled = 2 ^ 1073 := by
  have h := roundScaled_exact (c := 1) (k := 1073) (b := 2) (by norm_num) (by norm_num)
  rw [Nat.one_mul, ← pow_succ] at h
  exact h

theorem toU64_le {x : F64} {n : Nat} (h : x.scaled < (n + 1) * 2 ^ 1074) : x.toU64 ≤ n :=
  (min_le_left _ _).trans (Nat.lt_succ_iff.1 ((Nat.div_lt_iff_lt_mul (pow_pos two_pos _)).2 h))

theorem le_toU64 {x : F64} {n : Nat} (hn : n < 2 ^ 64) (h : n * 2 ^ 1074 ≤ x.scaled) :
    n ≤ x.toU64 :=
  le_min ((Nat.le_div_iff_mul_le (pow_pos two_pos _)).2 h) (by omega)

theorem toI64_ceil (x : F64) :
    x.ceil.toI64 = min ((x.scaled + 2 ^ 1074 - 1) / 2 ^ 1074) (2 ^ 63 - 1) := by
  simp only [ceil, toI64, scaled, Nat.mul_div_cancel _ (pow_pos two_pos _)]

/-! Rounding is monotone, so each operation is monotone in the operand that varies. -/

theorem ofRatio_mono {a a' b : Nat} (hb : 0 < b) (h : a ≤ a') :
    (ofRatio a b).scaled ≤ (ofRatio a' b).scaled :=
  roundScaled_mono hb hb (Nat.mul_le_mul_right b (Nat.mul_le_mul_right _ h))

theorem ofNat_mono {n n' : Nat} (h : n ≤ n') : (ofNat n).scaled ≤ (ofNat n').scaled :=
  ofRatio_mono one_pos h

theorem div_mono_left {x x' y : F64} (hy : 0 < y.scaled) (h : x.scaled ≤ x'.scaled) :
    (div x y).scaled ≤ (div x' y).scaled :=
  ofRatio_mono hy h

theorem add_mono_left {x x' y : F64} (h : x.scaled ≤ x'.scaled) :
    (add x y).scaled ≤ (add x' y).scaled :=
  ofRatio_mono (pow_pos two_pos _) (Nat.add_le_add_right h _)

theorem toU64_mono {x x' : F64} (h : x.scaled ≤ x'.scaled) : x.toU64 ≤ x'.toU64 :=
  min_le_min_right _ (Nat.div_le_div_right h)

@[simp] theorem le_zero_left (x : F64) : le zero x = true := by
  simp [le, zero, scaled]

/-- Each operation the piece-length policy and the piece count perform, `n as f64`, `x / y`
and `x + y`, returns the value IEEE 754 roundTiesToEven prescribes for its exact result, and
that is the only value meeting the prescription. -/
theorem ofNat_div_add_nearest (n : Nat) (x y : F64) (hy : 0 < y.scaled) (r : F64) :
    (IsNearestEven r (n * 2 ^ 1074) 1 ↔ r.scaled = (ofNat n).scaled) ∧
      (IsNearestEven r (x.scaled * 2 ^ 1074) y.scaled ↔ r.scaled = (div x y).scaled) ∧
      (IsNearestEven r ((x.scaled + y.scaled) * 2 ^ 1074) (2 ^ 1074) ↔
        r.scaled = (add x y).scaled) :=
  ⟨isNearestEven_iff one_pos r, isNearestEven_iff hy r, isNearestEven_iff (pow_pos two_pos _) r⟩

theorem ofNat_div_add_nearest_third :
    0 < (ofNat 3).scaled ∧
      (IsNearestEven (ofNat 3) (3 * 2 ^ 1074) 1 ↔ (ofNat 3).scaled = (ofNat 3).scaled) ∧
      (IsNearestEven (ofNat 3) ((ofNat 1).scaled * 2 ^ 1074) (ofNat 3).scaled ↔
        (ofNat 3).scaled = (div (ofNat 1) (ofNat 3)).scaled) ∧
      (IsNearestEven (ofNat 3) (((ofNat 1).scaled + (ofNat 3).scaled) * 2 ^ 1074) (2 ^ 1074) ↔
        (ofNat 3).scaled = (add (ofNat 1) (ofNat 3)).scaled) :=
  have h : 0 < (ofNat 3).scaled := by rw [ofNat_scaled (by norm_num)]; positivity
  ⟨h, ofNat_div_add_nearest 3 (ofNat 1) (ofNat 3) h (ofNat 3)⟩

end F64

end BitTorrentInfra
