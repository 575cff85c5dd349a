import DTrace.Agg.Func
import DTrace.Lib.Loop
import Mathlib.Tactic.Ring

/-!
# 128-bit arithmetic

The helpers of `dt_consume.c` for numbers of two words. Every operation comes with a lemma on the
value: as long as the exact result has a place in 128 bits, it is the exact result.

A shift to the right by more than 32 and less than 64 loses bits of the high word: the mask has
`64 - b` bits and not `b` (`dtShift128_exact_iff`). No caller shifts by such a number and looks at
those bits (`toNat_pair_shift`).
-/

namespace DTrace.Agg

open BitVec

/-- `uint64_t a[2]`, the low word first -/
structure Wide where
  lo : Word
  hi : Word
  deriving DecidableEq, Repr

def Wide.val (a : Wide) : Nat := a.hi.toNat * 2 ^ 64 + a.lo.toNat

theorem Wide.val_mk (lo hi : Word) : (⟨lo, hi⟩ : Wide).val = hi.toNat * 2 ^ 64 + lo.toNat := rfl

theorem Wide.val_lt (a : Wide) : a.val < 2 ^ 128 := by
  unfold val
  omega

/-! ## The helpers -/

def dtGt128 (a b : Wide) : Bool := a.hi > b.hi ∨ a.hi = b.hi ∧ a.lo > b.lo

def dtGe128 (a b : Wide) : Bool := a.hi > b.hi ∨ a.hi = b.hi ∧ a.lo ≥ b.lo

def dtLe128 (a b : Wide) : Bool := a.hi < b.hi ∨ a.hi = b.hi ∧ a.lo ≤ b.lo

def dtShift128 (a : Wide) (b : Int) : Wide :=
  if b = 0 then a
  else if b < 0 then
    let b := (-b).toNat
    if b ≥ 64 then ⟨a.hi >>> (b - 64), 0⟩
    else
      let mask : Word := 1 <<< (64 - b) - 1
      ⟨a.lo >>> b ||| (a.hi &&& mask) <<< (64 - b), a.hi >>> b⟩
  else
    let b := b.toNat
    if b ≥ 64 then ⟨0, a.lo <<< (b - 64)⟩
    else ⟨a.lo <<< b, a.hi <<< b ||| a.lo >>> (64 - b)⟩

def dtNbits128 (fuel : Nat) (a : Wide) : Option Nat :=
  (Loop.whileDo (fun s : Wide × Nat => dtGt128 s.1 ⟨0, 0⟩)
    (fun s => (dtShift128 s.1 (-1), s.2 + 1)) fuel (dtShift128 a (-1), 0)).map Prod.snd

def dtSubtract128 (minuend subtrahend : Wide) : Wide where
  lo := minuend.lo - subtrahend.lo
  hi := minuend.hi - subtrahend.hi - if minuend.lo < subtrahend.lo then 1 else 0

def dtAdd128 (addend₁ addend₂ : Wide) : Wide :=
  let lo := addend₁.lo + addend₂.lo
  ⟨lo, addend₁.hi + addend₂.hi + if lo < addend₁.lo ∨ lo < addend₂.lo then 1 else 0⟩

def dtMultiply128 (factor₁ factor₂ : Word) : Wide :=
  let hi₁ := factor₁ >>> 32
  let hi₂ := factor₂ >>> 32
  let lo₁ := factor₁ &&& 0xffffffff
  let lo₂ := factor₂ &&& 0xffffffff
  let product : Wide := ⟨lo₁ * lo₂, hi₁ * hi₂⟩
  let product := dtAdd128 product (dtShift128 ⟨hi₁ * lo₂, 0⟩ 32)
  dtAdd128 product (dtShift128 ⟨hi₂ * lo₁, 0⟩ 32)

/-! ## Their values -/

section
variable {a b : Wide}

theorem dtGt128_iff : dtGt128 a b = true ↔ b.val < a.val := by
  have ha := a.lo.isLt
  have hb := b.lo.isLt
  simp only [dtGt128, decide_eq_true_eq, lt_def, ← toNat_inj, Wide.val]
  omega

theorem dtGe128_iff : dtGe128 a b = true ↔ b.val ≤ a.val := by
  have ha := a.lo.isLt
  simp only [dtGe128, decide_eq_true_eq, ge_iff_le, lt_def, le_def,
    ← toNat_inj, Wide.val]
  omega

theorem dtLe128_iff : dtLe128 a b = true ↔ a.val ≤ b.val := by
  simp only [dtLe128, decide_eq_true_eq, lt_def, le_def, ← toNat_inj, Wide.val]
  omega

theorem val_subtract (h : b.val ≤ a.val) : (dtSubtract128 a b).val = a.val - b.val := by
  have ha := a.lo.isLt
  have hb' := b.hi.isLt
  simp only [Wide.val, dtSubtract128, toNat_sub, lt_def] at h ⊢
  split <;> simp only [ofNat_eq_ofNat, toNat_ofNat] <;> omega

theorem val_add : (dtAdd128 a b).val = (a.val + b.val) % 2 ^ 128 := by
  have hb' := b.hi.isLt
  simp only [Wide.val, dtAdd128, toNat_add, lt_def]
  split <;> simp only [ofNat_eq_ofNat, toNat_ofNat] <;> omega

theorem val_add_of_lt (h : a.val + b.val < 2 ^ 128) : (dtAdd128 a b).val = a.val + b.val :=
  val_add.trans (Nat.mod_eq_of_lt h)

/-! ### Shifts -/

/-- Bits below `k`, and a word that is shifted over them. -/
theorem toNat_or_shiftLeft {x y : Word} {k : Nat} (hk : k ≤ 64) (hx : x.toNat < 2 ^ k) :
    (x ||| y <<< k).toNat = x.toNat + 2 ^ k * (y.toNat % 2 ^ (64 - k)) := by
  have hpow : 2 ^ 64 = 2 ^ k * 2 ^ (64 - k) := by rw [← Nat.pow_add, Nat.add_sub_cancel' hk]
  rw [toNat_or, toNat_shiftLeft, Nat.shiftLeft_eq, Nat.mul_comm y.toNat, hpow,
    Nat.mul_mod_mul_left, Nat.or_comm, ← Nat.two_pow_add_eq_or_of_lt hx, Nat.add_comm]

/-- The number as one word. -/
def Wide.bits (a : Wide) : BitVec 128 := a.hi ++ a.lo

theorem Wide.toNat_bits : a.bits.toNat = a.val := by
  rw [bits, toNat_append, ← Nat.shiftLeft_add_eq_or_of_lt a.lo.isLt, Nat.shiftLeft_eq, val]

theorem bits_shiftLeft (n : Nat) : (dtShift128 a n).bits = a.bits <<< n := by
  rcases Nat.eq_zero_or_pos n with rfl | hpos
  · exact (shiftLeft_zero _).symm
  rw [dtShift128, if_neg (by omega), if_neg (by omega), Int.toNat_natCast]
  refine eq_of_getLsbD_eq fun i hi => ?_
  by_cases hn : n ≥ 64
  · obtain ⟨m, rfl⟩ := Nat.exists_eq_add_of_le' hn
    simp only [Wide.bits, getLsbD_append, getLsbD_shiftLeft, if_pos hn]
    grind
  · simp only [Wide.bits, getLsbD_append, getLsbD_shiftLeft, if_neg hn, getLsbD_or,
      getLsbD_ushiftRight]
    grind

/-- **A shift to the left.** -/
theorem val_shiftLeft_mod (n : Nat) : (dtShift128 a n).val = a.val * 2 ^ n % 2 ^ 128 := by
  rw [← Wide.toNat_bits, bits_shiftLeft, toNat_shiftLeft, Wide.toNat_bits, Nat.shiftLeft_eq]

theorem val_shiftLeft {n : Nat} (h : a.val * 2 ^ n < 2 ^ 128) :
    (dtShift128 a n).val = a.val * 2 ^ n :=
  (val_shiftLeft_mod n).trans (Nat.mod_eq_of_lt h)

theorem dtShift128_of_ge {n : Nat} (hn : 64 ≤ n) : dtShift128 a (-n) = ⟨a.hi >>> (n - 64), 0⟩ := by
  rw [dtShift128, if_neg (by omega), if_pos (by omega), Int.neg_neg, Int.toNat_natCast, if_pos hn]

theorem val_div_of_ge {n : Nat} (hn : 64 ≤ n) : a.val / 2 ^ n = a.hi.toNat / 2 ^ (n - 64) := by
  rw [show n = 64 + (n - 64) by omega, Nat.pow_add, ← Nat.div_div_eq_div_mul,
    Nat.add_sub_cancel_left]
  congr 1
  unfold Wide.val
  omega

/-- The low word after a shift to the right: of the high word the mask keeps `64 - n` bits. -/
theorem dtShift128_of_lt {n : Nat} (hpos : 0 < n) (hn : n < 64) :
    (dtShift128 a (-n)).hi.toNat = a.hi.toNat / 2 ^ n ∧ (dtShift128 a (-n)).lo.toNat =
      a.lo.toNat / 2 ^ n + 2 ^ (64 - n) * (a.hi.toNat % 2 ^ (64 - n) % 2 ^ n) := by
  have hpow : 2 ^ 64 = 2 ^ n * 2 ^ (64 - n) := by rw [← Nat.pow_add, Nat.add_sub_cancel' hn.le]
  have hmask : (1 <<< (64 - n) - 1 : Word).toNat = 2 ^ (64 - n) - 1 := by
    have hlt : 2 ^ (64 - n) < 2 ^ 64 := Nat.pow_lt_pow_right (by decide) (by omega)
    have hge := Nat.two_pow_pos (64 - n)
    rw [toNat_sub, natCast_eq_ofNat, toNat_ofNat, Nat.one_shiftLeft,
      show (1 : Word).toNat = 1 from rfl]
    omega
  have hlo : (a.lo >>> n).toNat < 2 ^ (64 - n) := by
    rw [toNat_ushiftRight, Nat.shiftRight_eq_div_pow, Nat.div_lt_iff_lt_mul (Nat.two_pow_pos _),
      Nat.mul_comm, ← hpow]
    exact a.lo.isLt
  rw [dtShift128, if_neg (by omega), if_pos (by omega), Int.neg_neg, Int.toNat_natCast,
    if_neg (by omega)]
  dsimp only
  rw [toNat_or_shiftLeft (Nat.sub_le ..) hlo, toNat_and, hmask, Nat.and_two_pow_sub_one_eq_mod,
    Nat.sub_sub_self hn.le, toNat_ushiftRight, toNat_ushiftRight, Nat.shiftRight_eq_div_pow,
    Nat.shiftRight_eq_div_pow]
  exact ⟨rfl, rfl⟩

theorem val_div_of_lt {n : Nat} (hn : n ≤ 64) : a.val / 2 ^ n = a.hi.toNat / 2 ^ n * 2 ^ 64 +
    (a.lo.toNat / 2 ^ n + 2 ^ (64 - n) * (a.hi.toNat % 2 ^ n)) := by
  have hpow : 2 ^ 64 = 2 ^ n * 2 ^ (64 - n) := by rw [← Nat.pow_add, Nat.add_sub_cancel' hn]
  rw [Wide.val, hpow, Nat.mul_left_comm, Nat.mul_add_div (Nat.two_pow_pos n)]
  nth_rewrite 1 [← Nat.div_add_mod a.hi.toNat (2 ^ n)]
  ring

/-- A shift to the right is exact if the mask keeps all bits that go to the low word. -/
theorem val_shiftRight_iff {n : Nat} (hpos : 0 < n) (hn : n < 64) :
    (dtShift128 a (-n)).val = a.val / 2 ^ n ↔
      a.hi.toNat % 2 ^ (64 - n) % 2 ^ n = a.hi.toNat % 2 ^ n := by
  obtain ⟨hhi, hlo⟩ := @dtShift128_of_lt a n hpos hn
  rw [Wide.val, hhi, hlo, val_div_of_lt hn.le, Nat.add_left_cancel_iff, Nat.add_left_cancel_iff,
    Nat.mul_right_inj (Nat.two_pow_pos _).ne']

/-- **A shift to the right by one.** -/
theorem val_shiftRight_one : (dtShift128 a (-1)).val = a.val / 2 :=
  (@val_shiftRight_iff a 1 (by decide) (by decide)).mpr (by omega)

/-- The two bits that a shift to the right brings down are right, by 62 or by 64 and more. -/
theorem toNat_pair_shift {n : Nat} (hn : n ≤ 62 ∨ 64 ≤ n) :
    ((dtShift128 a (-n)).lo &&& 3).toNat = a.val / 2 ^ n % 4 := by
  have hand : ∀ x : Word, (x &&& 3).toNat = x.toNat % 4 := fun x =>
    (toNat_and x 3).trans (Nat.and_two_pow_sub_one_eq_mod x.toNat 2)
  rw [hand]
  rcases hn with hn | hn
  · rcases Nat.eq_zero_or_pos n with rfl | hpos
    · rw [Nat.pow_zero, Nat.div_one, show dtShift128 a (-(0 : Nat)) = a from rfl, Wide.val]
      omega
    have hfour : ∀ k, 2 ^ (64 - n) * k = 4 * (2 ^ (62 - n) * k) := fun k => by
      rw [show 64 - n = 2 + (62 - n) by omega, Nat.pow_add, Nat.mul_assoc]
    rw [(dtShift128_of_lt hpos (by omega)).2, val_div_of_lt (by omega), hfour, hfour]
    omega
  · rw [dtShift128_of_ge hn, val_div_of_ge hn, toNat_ushiftRight, Nat.shiftRight_eq_div_pow]

theorem val_word (w : Word) : (⟨w, 0⟩ : Wide).val = w.toNat := by
  rw [Wide.val, show (0 : Word).toNat = 0 from rfl, Nat.zero_mul, Nat.zero_add]

/-- **A shift** is exact, unless it is one to the right by more than 32 and less than 64 and loses
bits that the mask does not keep. -/
theorem dtShift128_exact_iff (a : Wide) (n : Fin 128) :
    (dtShift128 a n.val).val = a.val * 2 ^ n.val % 2 ^ 128 ∧
      ((dtShift128 a (-n.val)).val = a.val / 2 ^ n.val ↔
        (32 < n.val → n.val < 64 → a.hi.toNat % 2 ^ n.val < 2 ^ (64 - n.val))) := by
  refine ⟨val_shiftLeft_mod _, ?_⟩
  obtain ⟨n, -⟩ := n
  dsimp only
  rcases Nat.eq_zero_or_pos n with rfl | hpos
  · exact iff_of_true (Nat.div_one _).symm fun h => absurd h (by decide)
  by_cases hge : 64 ≤ n
  · rw [dtShift128_of_ge hge, val_word, toNat_ushiftRight, Nat.shiftRight_eq_div_pow,
      val_div_of_ge hge]
    exact iff_of_true rfl fun _ hlt => absurd hge hlt.not_ge
  rw [val_shiftRight_iff hpos (by omega)]
  by_cases hle : n ≤ 32
  · have hdvd : 2 ^ n ∣ 2 ^ (64 - n) := Nat.pow_dvd_pow 2 (by omega)
    exact iff_of_true (Nat.mod_mod_of_dvd _ hdvd) fun hlt => absurd hle hlt.not_ge
  · have hdvd : 2 ^ (64 - n) ∣ 2 ^ n := Nat.pow_dvd_pow 2 (by omega)
    have hlt : a.hi.toNat % 2 ^ (64 - n) < 2 ^ n := (Nat.mod_lt _ (Nat.two_pow_pos _)).trans_le
      (Nat.pow_le_pow_right (by decide) (by omega))
    rw [Nat.mod_eq_of_lt hlt, ← Nat.mod_mod_of_dvd _ hdvd,
      Nat.mod_eq_iff_lt (Nat.two_pow_pos _).ne']
    exact ⟨fun h _ _ => h, fun h => h (by omega) (by omega)⟩

/-- The high word 2^61 should become bit 63 of the low one. -/
theorem shift_by_62_loses_bits : (dtShift128 ⟨0, 2 ^ 61⟩ (-62)).val = 0 ∧
    (⟨0, 2 ^ 61⟩ : Wide).val / 2 ^ 62 = 2 ^ 63 := by
  decide +kernel

/-- The number of the highest bit, at least. -/
theorem dtNbits128_spec (a : Wide) {fuel : Nat} (hfuel : 128 ≤ fuel) :
    ∃ n, dtNbits128 fuel a = some n ∧ n < 128 ∧ a.val < 2 ^ (n + 1) := by
  have ha := a.val_lt
  have htest : ∀ tmp : Wide, dtGt128 tmp ⟨0, 0⟩ = true ↔ 0 < tmp.val := fun tmp => by
    rw [dtGt128_iff, val_word]
    rfl
  have hbody : ∀ k (s : Wide × Nat), s.1.val = a.val / 2 ^ (s.2 + 1) ∧ s.2 + k = 127 →
      dtGt128 s.1 ⟨0, 0⟩ = true → ∃ k' < k,
        (dtShift128 s.1 (-1)).val = a.val / 2 ^ (s.2 + 1 + 1) ∧ s.2 + 1 + k' = 127 := by
    rintro k ⟨tmp, n⟩ ⟨hval, hn⟩ ht
    rw [htest, hval, Nat.div_pos_iff] at ht
    have hlt : n + 1 < 128 :=
      (Nat.pow_lt_pow_iff_right (by decide)).mp (Nat.lt_of_le_of_lt ht.2 ha)
    refine ⟨k - 1, by omega, ?_, by omega⟩
    rw [val_shiftRight_one, hval, Nat.div_div_eq_div_mul, ← Nat.pow_succ]
  obtain ⟨⟨tmp, n⟩, hrun, ⟨k, hval, hn⟩, hend⟩ := @Loop.whileDo_spec (Wide × Nat)
    (fun s => dtGt128 s.1 ⟨0, 0⟩) (fun s => (dtShift128 s.1 (-1), s.2 + 1))
    (fun k s => s.1.val = a.val / 2 ^ (s.2 + 1) ∧ s.2 + k = 127) hbody fuel 127
    (dtShift128 a (-1), 0) ⟨val_shiftRight_one, Nat.zero_add 127⟩ (by omega)
  dsimp only at hval hn
  refine ⟨n, by rw [dtNbits128, hrun]; rfl, by omega, ?_⟩
  have hzero : ¬ 0 < tmp.val := fun h => by
    rw [← htest, hend] at h
    cases h
  exact Nat.lt_of_div_eq_zero (Nat.two_pow_pos _) (by omega)

/-! ### Products of half words -/

theorem toNat_hi (w : Word) : (w >>> 32).toNat = w.toNat / 2 ^ 32 := by
  rw [toNat_ushiftRight, Nat.shiftRight_eq_div_pow]

theorem toNat_mul_half {z w : Word} (hz : z.toNat < 2 ^ 32) (hw : w.toNat < 2 ^ 32) :
    (z * w).toNat = z.toNat * w.toNat := by
  have hlt : z.toNat * w.toNat < 2 ^ 32 * 2 ^ 32 := Nat.mul_lt_mul'' hz hw
  rw [toNat_mul, Nat.mod_eq_of_lt (by omega)]

theorem val_shift_half {z w : Word} (hz : z.toNat < 2 ^ 32) (hw : w.toNat < 2 ^ 32) :
    (dtShift128 ⟨z * w, 0⟩ 32).val = z.toNat * w.toNat * 2 ^ 32 := by
  have hlt : z.toNat * w.toNat < 2 ^ 32 * 2 ^ 32 := Nat.mul_lt_mul'' hz hw
  have hval : (⟨z * w, 0⟩ : Wide).val = z.toNat * w.toNat :=
    (val_word _).trans (toNat_mul_half hz hw)
  rw [← hval]
  exact @val_shiftLeft ⟨z * w, 0⟩ 32 (by omega)

/-- **Multiplication** is exact. -/
theorem val_multiply (x y : Word) : (dtMultiply128 x y).val = x.toNat * y.toNat := by
  have hlo : ∀ z : Word, (z &&& 0xffffffff).toNat = z.toNat % 2 ^ 32 := fun z =>
    (toNat_and z 0xffffffff).trans (Nat.and_two_pow_sub_one_eq_mod z.toNat 32)
  have hsplit : ∀ z : Word, z.toNat = (z >>> 32).toNat * 2 ^ 32 + (z &&& 0xffffffff).toNat :=
    fun z => by
      rw [toNat_hi, hlo]
      omega
  have hhalf : ∀ z : Word, (z >>> 32).toNat < 2 ^ 32 ∧ (z &&& 0xffffffff).toNat < 2 ^ 32 :=
    fun z => by
      rw [toNat_hi, hlo]
      omega
  have hprod : x.toNat * y.toNat < 2 ^ 64 * 2 ^ 64 := Nat.mul_lt_mul'' x.isLt y.isLt
  have hexact : x.toNat * y.toNat = (x >>> 32).toNat * (y >>> 32).toNat * 2 ^ 64 +
      (x >>> 32).toNat * (y &&& 0xffffffff).toNat * 2 ^ 32 +
      (y >>> 32).toNat * (x &&& 0xffffffff).toNat * 2 ^ 32 +
      (x &&& 0xffffffff).toNat * (y &&& 0xffffffff).toNat := by
    rw [hsplit x, hsplit y]
    ring
  obtain ⟨hx1, hx0⟩ := hhalf x
  obtain ⟨hy1, hy0⟩ := hhalf y
  have hval : (⟨(x &&& 0xffffffff) * (y &&& 0xffffffff), (x >>> 32) * (y >>> 32)⟩ : Wide).val =
      (x >>> 32).toNat * (y >>> 32).toNat * 2 ^ 64 +
        (x &&& 0xffffffff).toNat * (y &&& 0xffffffff).toNat := by
    rw [Wide.val, toNat_mul_half hx1 hy1, toNat_mul_half hx0 hy0]
  unfold dtMultiply128
  -- no partial sum is larger than the product
  have hfirst := val_add_of_lt (a := ⟨(x &&& 0xffffffff) * (y &&& 0xffffffff),
    (x >>> 32) * (y >>> 32)⟩)
    (by rw [val_shift_half hx1 hy0]; omega)
  rw [val_shift_half hx1 hy0] at hfirst
  rw [val_add_of_lt (by rw [val_shift_half hy1 hx0]; omega), val_shift_half hy1 hx0]
  omega

/-- **Both words of a product.** -/
theorem dtMultiply128_words (x y : Word) :
    (dtMultiply128 x y).lo.toNat = x.toNat * y.toNat % 2 ^ 64 ∧
      (dtMultiply128 x y).hi.toNat = x.toNat * y.toNat / 2 ^ 64 := by
  have hval := val_multiply x y
  rw [Wide.val] at hval
  omega

end

end DTrace.Agg
