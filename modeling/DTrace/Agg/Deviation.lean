import DTrace.Agg.Stddev
import Mathlib.Algebra.BigOperators.Fin
import Mathlib.Algebra.Order.Chebyshev

/-!
# Standard deviation

What the consumer computes from the data words of `stddev()`.

* **`dtDivide128_eq_div`** — division by shift and subtract, for every dividend and divisor.
* **`dtSqrt128_eq_sqrt`** — the square root, two bits at a time, without an overflow.
* **`dtStddev_eq`** — the standard deviation: the difference under the root is never negative.
-/

namespace DTrace.Agg

open List BitVec

/-! ## Division -/

/-- The variables of the second loop of `dt_divide_128`. -/
structure Division where
  result : Wide
  remainder : Wide
  subtrahend : Wide
  mask : Wide

def divideStep (s : Division) : Division :=
  let s := if dtGe128 s.remainder s.subtrahend then
      { s with
        remainder := dtSubtract128 s.remainder s.subtrahend
        result := ⟨s.result.lo ||| s.mask.lo, s.result.hi ||| s.mask.hi⟩ }
    else s
  { s with subtrahend := dtShift128 s.subtrahend (-1), mask := dtShift128 s.mask (-1) }

/-- The first loop of `dt_divide_128`: the number of bits of the divisor. -/
def divisorLog (fuel : Nat) (divisor : Word) : Option Nat :=
  (Loop.whileDo (fun s : Word × Nat => s.1 > 0) (fun s => (s.1 >>> 1, s.2 + 1)) fuel
    (divisor, 0)).map Prod.snd

def dtDivide128 (fuel : Nat) (dividend : Wide) (divisor : Word) : Option Wide :=
  if divisor = 0 then none -- the assertion
  else do
    let log ← divisorLog fuel divisor
    let s ← Loop.whileDo (fun s => dtGe128 s.remainder ⟨divisor, 0⟩) divideStep fuel
      { result := ⟨0, 0⟩
        remainder := dividend
        subtrahend := dtShift128 ⟨divisor, 0⟩ (128 - log)
        mask := dtShift128 ⟨1, 0⟩ (128 - log) }
    some s.result

theorem divisorLog_spec {divisor : Word} (h0 : divisor ≠ 0) {fuel : Nat} (hfuel : 65 ≤ fuel) :
    ∃ l, divisorLog fuel divisor = some (l + 1) ∧ l < 64 ∧
      2 ^ l ≤ divisor.toNat ∧ divisor.toNat < 2 ^ (l + 1) := by
  have hd := divisor.isLt
  have hpos : ∀ w : Word, decide (w > 0) = true ↔ 0 < w.toNat := fun w => decide_eq_true_iff
  have hbody : ∀ k (s : Word × Nat), s.1.toNat = divisor.toNat / 2 ^ s.2 ∧ s.2 + k = 64 ∧
      (s.2 = 0 ∨ 2 ^ (s.2 - 1) ≤ divisor.toNat) → decide (s.1 > 0) = true → ∃ k' < k,
        (s.1 >>> 1).toNat = divisor.toNat / 2 ^ (s.2 + 1) ∧ s.2 + 1 + k' = 64 ∧
          (s.2 + 1 = 0 ∨ 2 ^ (s.2 + 1 - 1) ≤ divisor.toNat) := by
    rintro k ⟨w, n⟩ ⟨hval, hn, -⟩ ht
    dsimp only at hval hn ht ⊢
    rw [hpos, hval, Nat.div_pos_iff] at ht
    have hlt : n < 64 := (Nat.pow_lt_pow_iff_right (by decide)).mp (Nat.lt_of_le_of_lt ht.2 hd)
    refine ⟨k - 1, by omega, ?_, by omega, Or.inr ht.2⟩
    rw [toNat_ushiftRight, Nat.shiftRight_eq_div_pow, hval, Nat.div_div_eq_div_mul,
      ← Nat.pow_add]
  obtain ⟨⟨w, n⟩, hrun, ⟨k, hval, hn, hlow⟩, hend⟩ := @Loop.whileDo_spec (Word × Nat)
    (fun s => decide (s.1 > 0)) (fun s => (s.1 >>> 1, s.2 + 1))
    (fun k s => s.1.toNat = divisor.toNat / 2 ^ s.2 ∧ s.2 + k = 64 ∧
      (s.2 = 0 ∨ 2 ^ (s.2 - 1) ≤ divisor.toNat)) hbody fuel 64 (divisor, 0)
    ⟨by rw [Nat.pow_zero, Nat.div_one], rfl, Or.inl rfl⟩ (by omega)
  dsimp only at hval hn hlow
  have hzero : ¬ 0 < w.toNat := fun h => by
    rw [← hpos, hend] at h
    cases h
  have hlt : divisor.toNat < 2 ^ n :=
    Nat.lt_of_div_eq_zero (Nat.two_pow_pos n) (by omega)
  have hne : n ≠ 0 := fun h => by
    rw [h, Nat.pow_zero, Nat.lt_one_iff] at hlt
    exact h0 (eq_of_toNat_eq hlt)
  obtain ⟨l, rfl⟩ := Nat.exists_eq_succ_of_ne_zero hne
  exact ⟨l, by rw [divisorLog, hrun]; rfl, by omega, hlow.resolve_left hne, hlt⟩

/-- `|=` on both words, with a bit that is below all bits of `a`. -/
theorem val_or_mask {a b : Wide} {p : Nat} (hb : b.val = 2 ^ p) (ha : 2 ^ (p + 1) ∣ a.val) :
    Wide.val ⟨a.lo ||| b.lo, a.hi ||| b.hi⟩ = a.val + 2 ^ p := by
  have hor : ∀ c : Wide, c.val = c.hi.toNat <<< 64 ||| c.lo.toNat := fun c => by
    rw [Nat.shiftLeft_eq, Nat.mul_comm, ← Nat.two_pow_add_eq_or_of_lt c.lo.isLt, Nat.mul_comm,
      Wide.val]
  have hval : Wide.val ⟨a.lo ||| b.lo, a.hi ||| b.hi⟩ = a.val ||| b.val := by
    rw [hor, hor a, hor b, toNat_or, toNat_or, Nat.shiftLeft_or_distrib,
      Nat.or_assoc, Nat.or_assoc, ← Nat.or_assoc _ a.lo.toNat, Nat.or_comm _ a.lo.toNat,
      Nat.or_assoc]
  obtain ⟨c, hc⟩ := ha
  have hlt : 2 ^ p < 2 ^ (p + 1) := Nat.pow_lt_pow_right (by decide) (by omega)
  rw [hval, hb, hc, Nat.two_pow_add_eq_or_of_lt hlt]

theorem val_zero : (⟨0, 0⟩ : Wide).val = 0 := val_word 0

theorem val_one : (⟨1, 0⟩ : Wide).val = 1 := val_word 1

/-- What the second loop keeps, with `k` bits of the quotient to go. -/
structure Dividing (dividend divisor k : Nat) (s : Division) : Prop where
  exact : s.result.val * divisor + s.remainder.val = dividend
  small : s.remainder.val < divisor * 2 ^ k
  above : 2 ^ k ∣ s.result.val
  subtrahend : ∀ p, k = p + 1 → s.subtrahend.val = divisor * 2 ^ p
  mask : ∀ p, k = p + 1 → s.mask.val = 2 ^ p

theorem Dividing.step {dividend divisor p : Nat} {s : Division}
    (h : Dividing dividend divisor (p + 1) s) : Dividing dividend divisor p (divideStep s) := by
  have hsub := h.subtrahend p rfl
  have hmask := h.mask p rfl
  have hbit : 2 ^ p ∣ 2 ^ (p + 1) := Nat.pow_dvd_pow 2 (Nat.le_succ p)
  have hshift : ∀ {w : Wide} {c q : Nat}, w.val = c * 2 ^ p → p = q + 1 →
      (dtShift128 w (-1)).val = c * 2 ^ q := fun {w c q} hw hp => by
    rw [val_shiftRight_one, hw, hp, Nat.pow_succ, ← Nat.mul_assoc, Nat.mul_div_left _ Nat.two_pos]
  have hsub' : ∀ q, p = q + 1 → (dtShift128 s.subtrahend (-1)).val = divisor * 2 ^ q :=
    fun q hq => hshift hsub hq
  have hmask' : ∀ q, p = q + 1 → (dtShift128 s.mask (-1)).val = 2 ^ q := fun q hq => by
    rw [hshift (by rw [hmask, Nat.one_mul]) hq, Nat.one_mul]
  have hexact := h.exact
  have hsmall := h.small
  unfold divideStep
  by_cases hge : dtGe128 s.remainder s.subtrahend = true
  · rw [if_pos hge]
    rw [dtGe128_iff] at hge
    have hrest := val_subtract hge
    rw [hsub] at hge hrest
    have hor := val_or_mask hmask h.above
    refine ⟨?_, ?_, ?_, hsub', hmask'⟩
    · dsimp only
      rw [hor, hrest, Nat.add_mul, Nat.mul_comm (2 ^ p)]
      omega
    · dsimp only
      rw [hrest]
      rw [Nat.pow_succ, ← Nat.mul_assoc] at hsmall
      omega
    · dsimp only
      rw [hor]
      exact Nat.dvd_add (hbit.trans h.above) (Nat.dvd_refl _)
  · rw [if_neg hge]
    rw [dtGe128_iff, hsub, Nat.not_le] at hge
    exact ⟨hexact, hge, hbit.trans h.above, hsub', hmask'⟩

/-- The loops end, with the quotient. -/
theorem dtDivide128_spec (dividend : Wide) {divisor : Word} (h0 : divisor ≠ 0) {fuel : Nat}
    (hfuel : 129 ≤ fuel) : ∃ quotient, dtDivide128 fuel dividend divisor = some quotient ∧
      quotient.val = dividend.val / divisor.toNat := by
  obtain ⟨l, hlog, hl, hlow, hhigh⟩ := divisorLog_spec h0 (show 65 ≤ fuel by omega)
  have hd : 0 < divisor.toNat := Nat.lt_of_lt_of_le (Nat.two_pow_pos l) hlow
  have hpow : 2 ^ 128 = 2 ^ (l + 1) * 2 ^ (127 - l) := by
    rw [← Nat.pow_add]
    congr 1
    omega
  have hshift : (128 : Int) - (l + 1 : Nat) = (127 - l : Nat) := by omega
  have hsub : (dtShift128 ⟨divisor, 0⟩ (127 - l : Nat)).val = divisor.toNat * 2 ^ (127 - l) := by
    rw [val_shiftLeft, val_word]
    rw [val_word, hpow]
    exact Nat.mul_lt_mul_of_pos_right hhigh (Nat.two_pow_pos _)
  have hmask : (dtShift128 ⟨1, 0⟩ (127 - l : Nat)).val = 2 ^ (127 - l) := by
    rw [val_shiftLeft, val_one, Nat.one_mul]
    rw [val_one, Nat.one_mul]
    exact Nat.pow_lt_pow_right (by decide) (by omega)
  have hinit : Dividing dividend.val divisor.toNat (127 - l + 1)
      ⟨⟨0, 0⟩, dividend, dtShift128 ⟨divisor, 0⟩ (127 - l : Nat),
        dtShift128 ⟨1, 0⟩ (127 - l : Nat)⟩ := by
    refine ⟨?_, ?_, ?_, ?_, ?_⟩
    · rw [val_zero, Nat.zero_mul, Nat.zero_add]
    · -- the divisor is shifted until its highest bit is the highest of all
      refine Nat.lt_of_lt_of_le dividend.val_lt ?_
      rw [hpow, Nat.pow_succ, Nat.pow_succ, Nat.mul_comm (2 ^ (127 - l)), ← Nat.mul_assoc]
      exact Nat.mul_le_mul_right _ (Nat.mul_le_mul_right 2 hlow)
    · rw [val_zero]
      exact Nat.dvd_zero _
    · rintro _ ⟨⟩
      exact hsub
    · rintro _ ⟨⟩
      exact hmask
  have hbody : ∀ k s, Dividing dividend.val divisor.toNat k s →
      dtGe128 s.remainder ⟨divisor, 0⟩ = true →
        ∃ k' < k, Dividing dividend.val divisor.toNat k' (divideStep s) := by
    intro k s h ht
    rw [dtGe128_iff, val_word] at ht
    cases k with
    | zero =>
      have := h.small
      omega
    | succ p => exact ⟨p, Nat.lt_succ_self p, h.step⟩
  obtain ⟨s, hrun, ⟨k, hs⟩, hend⟩ := @Loop.whileDo_spec Division
    (fun s => dtGe128 s.remainder ⟨divisor, 0⟩) divideStep (Dividing dividend.val divisor.toNat)
    hbody fuel _ _ hinit (by omega)
  have hlt : s.remainder.val < divisor.toNat := by
    by_contra hge
    rw [Nat.not_lt, ← val_word divisor, ← dtGe128_iff, hend] at hge
    cases hge
  refine ⟨s.result, ?_, ?_⟩
  · rw [dtDivide128, if_neg h0, hlog]
    show (Loop.whileDo _ divideStep fuel ⟨⟨0, 0⟩, dividend, dtShift128 ⟨divisor, 0⟩ (128 - _),
      dtShift128 ⟨1, 0⟩ (128 - _)⟩).bind _ = _
    rw [hshift, hrun]
    rfl
  · rw [← hs.exact, Nat.mul_comm, Nat.mul_add_div hd, Nat.div_eq_of_lt hlt, Nat.add_zero]

/-- **Division.** 129 rounds of each loop are enough for every dividend and divisor. -/
theorem dtDivide128_eq_div (dividend : Wide) (divisor : Word) (h0 : divisor ≠ 0) :
    ∀ fuel ≥ 129, ∃ quotient, dtDivide128 fuel dividend divisor = some quotient ∧
      quotient.val = dividend.val / divisor.toNat :=
  fun _ hfuel => dtDivide128_spec dividend h0 hfuel

theorem dtDivide128_eq_div_ten : ∃ quotient,
    dtDivide128 129 ⟨5, 1⟩ 10 = some quotient ∧ quotient.val = (2 ^ 64 + 5) / 10 :=
  dtDivide128_eq_div ⟨5, 1⟩ 10 (by decide) 129 le_rfl

/-! ## Square roots -/

/-- The variables of the loop of `dt_sqrt_128`. -/
structure Root where
  result : Wide
  diff : Wide
  pairShift : Word

/-- A round of the loop. The shift is negated as a word and then taken for an `int`. -/
def sqrtStep (square : Wide) (s : Root) : Root :=
  let nextPair : Wide := ⟨(dtShift128 square ((-s.pairShift).truncate 32).toInt).lo &&& 3, 0⟩
  let diff := dtAdd128 (dtShift128 s.diff 2) nextPair
  let nextTry := dtAdd128 (dtShift128 s.result 2) ⟨1, 0⟩
  if dtLe128 nextTry diff then
    { result := dtAdd128 (dtShift128 s.result 1) ⟨1, 0⟩
      diff := dtSubtract128 diff nextTry
      pairShift := s.pairShift - 2 }
  else
    { result := dtShift128 s.result 1
      diff := diff
      pairShift := s.pairShift - 2 }

/-- The variables before the loop. -/
def sqrtInit (bitPairs : Nat) : Root := ⟨⟨0, 0⟩, ⟨0, 0⟩, .ofNat 64 (bitPairs * 2)⟩

def dtSqrt128 (fuel : Nat) (square : Wide) : Option Word := do
  let bitPairs := (← dtNbits128 fuel square) / 2
  let s := (sqrtStep square)^[bitPairs + 1] (sqrtInit bitPairs)
  if s.result.hi = 0 then some s.result.lo else none -- the assertion

/-- What the loop keeps, with `k` pairs of bits to go: the result and the difference are those of
the pairs so far. -/
structure Rooting (n k : Nat) (s : Root) : Prop where
  exact : s.result.val * s.result.val + s.diff.val = n / 4 ^ k
  small : s.diff.val ≤ 2 * s.result.val
  pairShift : s.pairShift = .ofNat 64 (2 * k) - 2

/-- The sums and shifts of the next round have a place in 128 bits. -/
def Root.Fits (s : Root) : Prop :=
  s.diff.val * 2 ^ 2 + 3 < 2 ^ 128 ∧ s.result.val * 2 ^ 2 + 1 < 2 ^ 128

theorem Rooting.fits {n k : Nat} {s : Root} (h : Rooting n (k + 1) s) (hn : n < 2 ^ 128) :
    s.Fits := by
  have hle : n / 4 ^ (k + 1) ≤ n / 4 :=
    Nat.div_le_div_left (Nat.le_self_pow (by omega) 4) (by decide)
  have hexact := h.exact
  have hsmall := h.small
  have hr : s.result.val < 2 ^ 63 := Nat.mul_self_lt_mul_self_iff.mp (by omega)
  unfold Root.Fits
  omega

theorem toInt_neg_pairShift : ∀ k < 64, ((-(BitVec.ofNat 64 (2 * (k + 1)) - 2)).truncate 32).toInt =
    -((2 * k : Nat) : Int) := by
  decide

/-- A pair of bits more: `d` is the difference with the pair brought down. -/
theorem root_next {r d : Nat} (hd : d < 4 * (2 * r + 1)) :
    (4 * r + 1 ≤ d → (2 * r + 1) * (2 * r + 1) + (d - (4 * r + 1)) = 4 * (r * r) + d ∧
      d - (4 * r + 1) ≤ 2 * (2 * r + 1)) ∧
    (d < 4 * r + 1 → 2 * r * (2 * r) + d = 4 * (r * r) + d ∧ d ≤ 2 * (2 * r)) := by
  have hsq : (2 * r + 1) * (2 * r + 1) = 4 * (r * r) + (4 * r + 1) := by ring
  have hsq' : 2 * r * (2 * r) = 4 * (r * r) := by ring
  omega

theorem Rooting.step {square : Wide} {k : Nat} {s : Root} (h : Rooting square.val (k + 1) s)
    (hk : k < 64) : Rooting square.val k (sqrtStep square s) := by
  obtain ⟨hdiff, hresult⟩ := h.fits square.val_lt
  have hsmall := h.small
  have hpair : (dtShift128 square ((-s.pairShift).truncate 32).toInt).lo &&& 3 =
      BitVec.ofNat 64 (square.val / 4 ^ k % 4) := by
    apply eq_of_toNat_eq
    rw [h.pairShift, toInt_neg_pairShift k hk, toNat_pair_shift (by omega), Nat.pow_mul,
      show 2 ^ 2 = 4 from rfl, toNat_ofNat]
    omega
  have hdown : (dtAdd128 (dtShift128 s.diff 2) ⟨.ofNat 64 (square.val / 4 ^ k % 4), 0⟩).val =
      4 * s.diff.val + square.val / 4 ^ k % 4 := by
    have hshift : (dtShift128 s.diff 2).val = s.diff.val * 2 ^ 2 :=
      @val_shiftLeft s.diff 2 (by omega)
    rw [val_add, hshift, val_word, toNat_ofNat]
    omega
  have htry : (dtAdd128 (dtShift128 s.result 2) ⟨1, 0⟩).val = 4 * s.result.val + 1 := by
    have hshift : (dtShift128 s.result 2).val = s.result.val * 2 ^ 2 :=
      @val_shiftLeft s.result 2 (by omega)
    rw [val_add, hshift, val_one]
    omega
  have hdouble : (dtShift128 s.result 1).val = 2 * s.result.val :=
    (@val_shiftLeft s.result 1 (by omega)).trans (Nat.mul_comm _ _)
  have hstep : square.val / 4 ^ k = 4 * (s.result.val * s.result.val) +
      (4 * s.diff.val + square.val / 4 ^ k % 4) := by
    have hexact := h.exact
    rw [Nat.pow_succ, ← Nat.div_div_eq_div_mul] at hexact
    omega
  have hshift : s.pairShift - 2 = BitVec.ofNat 64 (2 * k) - 2 := by
    rw [h.pairShift, Nat.mul_add, ofNat_add]
    congr 1
    exact add_sub_cancel _ _
  obtain ⟨hpos, hneg⟩ := @root_next s.result.val (4 * s.diff.val + square.val / 4 ^ k % 4)
    (by omega)
  unfold sqrtStep
  dsimp only
  rw [hpair]
  by_cases hle : dtLe128 (dtAdd128 (dtShift128 s.result 2) ⟨1, 0⟩)
      (dtAdd128 (dtShift128 s.diff 2) ⟨.ofNat 64 (square.val / 4 ^ k % 4), 0⟩) = true
  · rw [if_pos hle]
    rw [dtLe128_iff] at hle
    have hnew : (dtAdd128 (dtShift128 s.result 1) ⟨1, 0⟩).val = 2 * s.result.val + 1 := by
      rw [val_add, hdouble, val_one]
      omega
    have hrest := val_subtract hle
    rw [hdown, htry] at hle hrest
    obtain ⟨hexact, hsmall⟩ := hpos hle
    rw [← hnew, ← hrest] at hexact hsmall
    exact ⟨hexact.trans hstep.symm, hsmall, hshift⟩
  · rw [if_neg hle]
    rw [dtLe128_iff, hdown, htry, Nat.not_le] at hle
    obtain ⟨hexact, hsmall⟩ := hneg hle
    rw [← hstep] at hexact
    rw [← hdouble, ← hdown] at hexact hsmall
    exact ⟨hexact, hsmall, hshift⟩

theorem rooting_init {square : Wide} {nbits : Nat} (hlt : square.val < 2 ^ (nbits + 1)) :
    Rooting square.val (nbits / 2 + 1) (sqrtInit (nbits / 2)) := by
  refine ⟨?_, ?_, ?_⟩
  · show Wide.val ⟨0, 0⟩ * Wide.val ⟨0, 0⟩ + Wide.val ⟨0, 0⟩ = _
    rw [val_zero, Nat.div_eq_of_lt]
    refine Nat.lt_of_lt_of_le hlt ?_
    rw [show (4 : Nat) = 2 ^ 2 from rfl, ← Nat.pow_mul]
    exact Nat.pow_le_pow_right (by decide) (by omega)
  · show Wide.val ⟨0, 0⟩ ≤ _
    exact val_zero.trans_le (Nat.zero_le _)
  · show BitVec.ofNat 64 (nbits / 2 * 2) = _
    rw [Nat.mul_add, ofNat_add, Nat.mul_comm]
    exact (add_sub_cancel _ _).symm

/-- The loop, up to any round. -/
theorem Rooting.iterate {square : Wide} {s : Root} (i : Nat) {k : Nat}
    (h : Rooting square.val (i + k) s) (hk : i + k ≤ 64) :
    Rooting square.val k ((sqrtStep square)^[i] s) := by
  induction i generalizing s with
  | zero => exact (Nat.zero_add k) ▸ h
  | succ i ih =>
    rw [Nat.add_right_comm] at h
    exact ih (h.step (by omega)) (by omega)

/-- The square root, and that each round has room. -/
theorem dtSqrt128_spec (square : Wide) {fuel : Nat} (hfuel : 128 ≤ fuel) :
    ∃ bitPairs, dtNbits128 fuel square = some bitPairs ∧
      (∀ i ≤ bitPairs / 2, ((sqrtStep square)^[i] (sqrtInit (bitPairs / 2))).Fits) ∧
      ∃ r, dtSqrt128 fuel square = some r ∧
        r.toNat * r.toNat ≤ square.val ∧ square.val < (r.toNat + 1) * (r.toNat + 1) := by
  obtain ⟨nbits, hbits, hlt, hval⟩ := dtNbits128_spec square hfuel
  have hinit := rooting_init hval
  refine ⟨nbits, hbits, fun i hi => ?_, ?_⟩
  · obtain ⟨k, hk⟩ := Nat.exists_eq_add_of_le hi
    rw [hk, Nat.add_assoc] at hinit
    rw [hk]
    exact (hinit.iterate i (by omega)).fits square.val_lt
  · have hend := @Rooting.iterate square _ (nbits / 2 + 1) 0 hinit (by omega)
    generalize hs : (sqrtStep square)^[nbits / 2 + 1] (sqrtInit (nbits / 2)) = s at hend
    have hexact := hend.exact
    have hsmall := hend.small
    rw [Nat.pow_zero, Nat.div_one] at hexact
    have hsquare := square.val_lt
    have hr : s.result.val < 2 ^ 64 := Nat.mul_self_lt_mul_self_iff.mp (by omega)
    have hhi : s.result.hi = 0 := by
      apply eq_of_toNat_eq
      unfold Wide.val at hr
      rw [show (0 : Word).toNat = 0 from rfl]
      omega
    have hlo : s.result.lo.toNat = s.result.val := by
      rw [Wide.val, hhi, show (0 : Word).toNat = 0 from rfl, Nat.zero_mul, Nat.zero_add]
    refine ⟨s.result.lo, ?_, ?_, ?_⟩
    · rw [dtSqrt128, hbits]
      show (if ((sqrtStep square)^[nbits / 2 + 1] (sqrtInit (nbits / 2))).result.hi = 0 then _
        else _) = _
      rw [hs, if_pos hhi]
    · rw [hlo]
      omega
    · rw [hlo, Nat.add_mul, Nat.mul_add]
      omega

/-- **Square roots.** The loop returns the root of every number, and no round overflows. -/
theorem dtSqrt128_eq_sqrt (square : Wide) : ∀ fuel ≥ 128,
    (∃ r, dtSqrt128 fuel square = some r ∧
      ∀ r' : Word, r'.toNat * r'.toNat ≤ square.val ∧
        square.val < (r'.toNat + 1) * (r'.toNat + 1) ↔ r' = r) ∧
    ∃ nbits, dtNbits128 fuel square = some nbits ∧
      ∀ i ≤ nbits / 2, ((sqrtStep square)^[i] (sqrtInit (nbits / 2))).Fits := by
  intro fuel hfuel
  obtain ⟨nbits, hbits, hfits, r, hr, hroot⟩ := dtSqrt128_spec square hfuel
  refine ⟨⟨r, hr, fun r' => ?_⟩, nbits, hbits, hfits⟩
  rw [← Nat.eq_sqrt] at hroot ⊢
  rw [← hroot, toNat_inj]

theorem dtSqrt128_eq_sqrt_ten : ∃ r, dtSqrt128 128 ⟨0, 10⟩ = some r ∧
    r.toNat * r.toNat ≤ Wide.val ⟨0, 10⟩ :=
  have ⟨⟨r, hr, h⟩, _⟩ := dtSqrt128_eq_sqrt ⟨0, 10⟩ 128 le_rfl
  ⟨r, hr, ((h r).mpr rfl).1⟩

/-! ## The standard deviation -/

/-- The absolute value of the average, in signed arithmetic. -/
def normAvg (data : List Word) (normal : Word) : Word :=
  let avg := ((data.getD 1 0).sdiv normal).sdiv (data.getD 0 0)
  if avg.slt 0 then -avg else avg

def dtStddev (fuel : Nat) (data : List Word) (normal : Word) : Option Word := do
  let avgOfSquares ← dtDivide128 fuel (sumOfSquares data) normal
  let avgOfSquares ← dtDivide128 fuel avgOfSquares (data.getD 0 0)
  let squareOfAvg := dtMultiply128 (normAvg data normal) (normAvg data normal)
  dtSqrt128 fuel (dtSubtract128 avgOfSquares squareOfAvg)

/-- The exact sum of the values. -/
def exactSum (values : List Word) : Int := (values.map BitVec.toInt).sum

/-- The square of the truncated average, and the truncated average of the squares. -/
theorem sq_average_le {values : List Word} (hne : values ≠ []) :
    ((exactSum values).tdiv values.length).natAbs ^ 2 ≤ exactSquares values / values.length := by
  have hpos : 0 < values.length := length_pos_iff.mpr hne
  have hsum : exactSum values = ∑ i : Fin values.length, (values[i]).toInt := by
    rw [exactSum, ← ofFn_getElem_eq_map, sum_ofFn]
    rfl
  have hsquares : (exactSquares values : Int) =
      ∑ i : Fin values.length, (values[i]).toInt ^ 2 := by
    rw [exactSquares, ← ofFn_getElem_eq_map, sum_ofFn, Nat.cast_sum]
    refine Finset.sum_congr rfl fun i _ => ?_
    rw [Nat.cast_pow, Int.natCast_natAbs, sq_abs]
    rfl
  have hcauchy : exactSum values ^ 2 ≤ values.length * exactSquares values := by
    rw [hsum, hsquares]
    refine sq_sum_le_card_mul_sum_sq.trans_eq ?_
    rw [Finset.card_univ, Fintype.card_fin]
  have hnat : (exactSum values).natAbs ^ 2 ≤ values.length * exactSquares values := by
    rw [← sq_abs, ← Int.natCast_natAbs] at hcauchy
    exact_mod_cast hcauchy
  rw [Nat.le_div_iff_mul_le hpos, Int.natAbs_tdiv, Int.natAbs_natCast]
  have hdiv : (exactSum values).natAbs / values.length * values.length ≤
      (exactSum values).natAbs := Nat.div_mul_le_self _ _
  have hle := (Nat.pow_le_pow_left hdiv 2).trans hnat
  refine Nat.le_of_mul_le_mul_left ?_ hpos
  refine le_trans (le_of_eq ?_) hle
  show values.length * (((exactSum values).natAbs / values.length) ^ 2 * values.length) = _
  ring

/-- The average in the code, for a count that is positive as a signed number. -/
theorem toNat_normAvg {count sum : Word} {squares : Nat} (hcount : count.toNat < 2 ^ 63) :
    (normAvg (sums count sum squares) 1).toNat = (sum.toInt.tdiv count.toNat).natAbs := by
  have hint : count.toInt = count.toNat := by
    rw [toInt_eq_toNat_cond, if_pos (by omega)]
  have hdiv : ((sum.sdiv 1).sdiv count).toInt = sum.toInt.tdiv count.toNat := by
    rw [show sum.sdiv 1 = sum from sdiv_one,
      toInt_sdiv_of_ne_or_ne _ _ (Or.inr fun h => ?_), hint]
    rw [h] at hcount
    exact absurd hcount (by decide)
  rw [← hdiv, ← toNat_abs, sle_eq_not_slt]
  show BitVec.toNat (if ((sum.sdiv 1).sdiv count).slt 0 = true then _ else _) = _
  cases ((sum.sdiv 1).sdiv count).slt 0 <;> rfl

/-- **The standard deviation** of a number of values that is positive as a signed number. -/
theorem dtStddev_eq (values : List Word) (hne : values ≠ []) (hcount : values.length < 2 ^ 63)
    (hlow : -2 ^ 63 ≤ exactSum values) (hhigh : exactSum values < 2 ^ 63)
    (hsquares : exactSquares values < 2 ^ 128) :
    let average := (exactSum values).tdiv values.length
    average.natAbs ^ 2 ≤ exactSquares values / values.length ∧
    ∀ fuel ≥ 129, ∃ r,
      dtStddev fuel (sums (.ofNat 64 values.length) (.ofInt 64 (exactSum values))
        (exactSquares values)) 1 = some r ∧
      r.toNat = Nat.sqrt (exactSquares values / values.length - average.natAbs ^ 2) := by
  have hle := sq_average_le hne
  refine ⟨hle, fun fuel hfuel => ?_⟩
  have hpos : 0 < values.length := length_pos_iff.mpr hne
  have hlen : (BitVec.ofNat 64 values.length).toNat = values.length := by
    rw [toNat_ofNat, Nat.mod_eq_of_lt (by omega)]
  have hsum : (BitVec.ofInt 64 (exactSum values)).toInt = exactSum values := by
    rw [toInt_ofInt, Int.bmod_eq_of_le (by omega) (by omega)]
  generalize BitVec.ofNat 64 values.length = count at hlen ⊢
  generalize BitVec.ofInt 64 (exactSum values) = sum at hsum ⊢
  -- the average of the squares, and the square of the average
  obtain ⟨q1, hq1, hval1⟩ := @dtDivide128_spec (sumOfSquares (sums count sum (exactSquares values)))
    1 (by decide) fuel hfuel
  rw [val_sumOfSquares, Nat.mod_eq_of_lt hsquares, show (1 : Word).toNat = 1 from rfl,
    Nat.div_one] at hval1
  have h0 : count ≠ 0 := fun h => by
    rw [h] at hlen
    exact hpos.ne hlen
  obtain ⟨q2, hq2, hval2⟩ := dtDivide128_spec q1 h0 hfuel
  rw [hval1, hlen] at hval2
  have hmul := val_multiply (normAvg (sums count sum (exactSquares values)) 1)
    (normAvg (sums count sum (exactSquares values)) 1)
  rw [toNat_normAvg (by omega), hsum, hlen, ← Nat.pow_two] at hmul
  have hdiff := val_subtract (a := q2) (by rw [hmul, hval2]; exact hle)
  rw [hmul, hval2] at hdiff
  obtain ⟨-, -, -, r, hr, hroot⟩ := dtSqrt128_spec _ (show 128 ≤ fuel by omega)
  refine ⟨r, ?_, ?_⟩
  · rw [dtStddev, hq1]
    show (dtDivide128 fuel q1 count).bind _ = _
    rw [hq2]
    exact hr
  · rw [← Nat.eq_sqrt, hdiff] at hroot
    exact hroot

/-- Four values with a negative sum. -/
theorem dtStddev_four : ∃ r,
    dtStddev 129 (sums 4 (-10) 5050) 1 = some r ∧ r.toNat = Nat.sqrt 1258 :=
  (dtStddev_eq [50, -5, -50, -5] (by decide) (by decide) (by decide) (by decide) (by decide)).2 129
    le_rfl

/-- For 2⁶³ + 1 values the count is negative in the division: 2⁶³ - 1 ones and two zeros have the
average -1 and the average of the squares 0. -/
theorem dtStddev_many : dtStddev 129 (sums (2 ^ 63 + 1) (2 ^ 63 - 1) (2 ^ 63 - 1)) 1 =
      some 0xffffffffffffffff ∧
    ∀ ones : List Word, ones = List.replicate (2 ^ 63 - 1) 1 → (ones ++ [0, 0]).length = 2 ^ 63 + 1 ∧
      exactSum (ones ++ [0, 0]) = 2 ^ 63 - 1 ∧ exactSquares (ones ++ [0, 0]) = 2 ^ 63 - 1 := by
  refine ⟨by decide +kernel, ?_⟩
  rintro ones rfl
  simp only [exactSum, exactSquares, length_append, map_append, map_replicate,
    sum_append, sum_replicate, length_replicate]
  decide +kernel

end DTrace.Agg
