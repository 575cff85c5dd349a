import DTrace.Agg.Llquantize
import DTrace.Agg.Wide

/-!
# Power-of-two and linear quantization

The bins that values are counted in, and the labels that the consumer prints for them.

* **`dtAggQbin_right`** — `quantize()`: every value is in the bucket whose label it belongs to.
* **`lquantize_right`** — `lquantize()`: the parameters survive their encoding, and every value is
  in the bin whose label it belongs to.
-/

namespace DTrace.Agg

open BitVec Nat

/-! ## Powers of two -/

/-- `DTRACE_QUANTIZE_BUCKETVAL` -/
def quantizeBucketval (buck : Nat) : Word :=
  if buck < 63 then -(1 <<< (63 - 1 - buck)) else if buck = 63 then 0 else 1 <<< (buck - 63 - 1)

/-- `v` is in the range that starts at the label of bucket `i` and ends before the next label, away
from 0. The first and the last bucket have no next one. -/
def InBucket (i : Nat) (v : Word) : Prop :=
  if i = 63 then v = 0
  else if 63 < i then
    (quantizeBucketval i).sle v ∧ (i + 1 < 127 → v.slt (quantizeBucketval (i + 1)))
  else v.sle (quantizeBucketval i) ∧ (0 < i → (quantizeBucketval (i - 1)).slt v)

/-- The magnitudes of a bucket at a distance of `e + 1` from the one of 0. -/
def InRange (e n : Nat) : Prop := 2 ^ e ≤ n ∧ (e < 62 → n < 2 ^ (e + 1))

theorem InRange.le {e f m n : Nat} (hm : InRange e m) (hn : InRange f n) (hle : m ≤ n)
    (he : e < 63) : e ≤ f := by
  by_contra hlt
  have hpow : 2 ^ (f + 1) ≤ 2 ^ e := Nat.pow_le_pow_right (by decide) (by omega)
  have hup := hn.2 (by omega)
  have hlow := hm.1
  omega

theorem toInt_quantizeBucketval : ∀ e < 63, (quantizeBucketval (64 + e)).toInt = (2 ^ e : Nat) ∧
    (quantizeBucketval (62 - e)).toInt = -(2 ^ e : Nat) := by
  decide

theorem inBucket_zero (v : Word) : InBucket 63 v ↔ v.toInt = 0 := by
  show v = 0 ↔ _
  rw [← toInt_inj]
  exact Iff.rfl

theorem inBucket_pos {e : Nat} (he : e < 63) (v : Word) :
    InBucket (64 + e) v ↔ 0 < v.toInt ∧ InRange e v.toInt.natAbs := by
  have hpos := Nat.two_pow_pos e
  rw [InBucket, if_neg (by omega), if_pos (by omega), sle_iff_toInt_le,
    slt_iff_toInt_lt, (toInt_quantizeBucketval e he).1, InRange]
  by_cases hlast : e < 62
  · rw [show 64 + e + 1 = 64 + (e + 1) from rfl, (toInt_quantizeBucketval (e + 1) (by omega)).1]
    omega
  · omega

theorem inBucket_neg {e : Nat} (he : e < 63) (v : Word) :
    InBucket (62 - e) v ↔ v.toInt < 0 ∧ InRange e v.toInt.natAbs := by
  have hpos := Nat.two_pow_pos e
  rw [InBucket, if_neg (by omega), if_neg (by omega), sle_iff_toInt_le,
    slt_iff_toInt_lt, (toInt_quantizeBucketval e he).2, InRange]
  by_cases hlast : e < 62
  · rw [show 62 - e - 1 = 62 - (e + 1) from rfl, (toInt_quantizeBucketval (e + 1) (by omega)).2]
    omega
  · omega

/-- A bucket of positive values, the one of 0, or a bucket of negative values. -/
theorem bucket_cases {i : Nat} (hi : i < 127) :
    (∃ e < 63, i = 64 + e) ∨ i = 63 ∨ ∃ e < 63, i = 62 - e := by
  rcases Nat.lt_trichotomy i 63 with h | h | h
  · exact Or.inr (Or.inr ⟨62 - i, by omega, by omega⟩)
  · exact Or.inr (Or.inl h)
  · exact Or.inl ⟨i - 64, by omega, by omega⟩

/-- Buckets are in the order of their values. -/
theorem InBucket.le {i j : Nat} {v w : Word} (hi : i < 127) (hj : j < 127) (hv : InBucket i v)
    (hw : InBucket j w) (hle : v.toInt ≤ w.toInt) : i ≤ j := by
  obtain ⟨e, he, rfl⟩ | rfl | ⟨e, he, rfl⟩ := bucket_cases hi <;>
    obtain ⟨f, hf, rfl⟩ | rfl | ⟨f, hf, rfl⟩ := bucket_cases hj <;>
    simp (disch := assumption) only [inBucket_zero, inBucket_pos, inBucket_neg] at hv hw <;>
    try omega
  · have := hv.2.le hw.2 (by omega) he
    omega
  · have := hw.2.le hv.2 (by omega) hf
    omega

/-! ### The binary search -/

/-- The bits of a mask, for a number below `2 ^ m`: those from `n` on. -/
theorem and_mask_ne_zero {t mask : Word} {m n : Nat} (hor : mask.toNat ||| (2 ^ n - 1) = 2 ^ m - 1)
    (hand : (2 ^ n - 1) &&& mask.toNat = 0) (ht : t.toNat < 2 ^ m) :
    t &&& mask ≠ 0 ↔ 2 ^ n ≤ t.toNat := by
  rw [Ne, ← toNat_inj, toNat_and, show (0 : Word).toNat = 0 from rfl, ← not_lt,
    not_iff_not]
  constructor
  · intro h
    have hall := Nat.and_two_pow_sub_one_of_lt_two_pow ht
    rw [← hor, Nat.and_or_distrib_left, h, Nat.zero_or, Nat.and_two_pow_sub_one_eq_mod] at hall
    rw [← hall]
    exact Nat.mod_lt _ (Nat.two_pow_pos n)
  · intro h
    rw [← Nat.and_two_pow_sub_one_of_lt_two_pow h, Nat.and_assoc, hand, Nat.and_zero]

/-- `off` and `tmp` in the search for the highest bit of `a`, with `m` bits left. -/
def Searching (a m : Nat) (s : Int × Word) : Prop :=
  ∃ e : Nat, s.1 = e + 1 ∧ s.2.toNat = a / 2 ^ e ∧ 0 < s.2.toNat ∧ s.2.toNat < 2 ^ m

theorem Searching.step {a m : Nat} {s : Int × Word} (h : Searching a m s) (mask : Word) (n : Nat)
    (hor : mask.toNat ||| (2 ^ n - 1) = 2 ^ m - 1) (hand : (2 ^ n - 1) &&& mask.toNat = 0)
    (hm : m ≤ n + n) : Searching a n (qbinStep mask n s) := by
  obtain ⟨e, hoff, hval, hpos, hlt⟩ := h
  unfold qbinStep
  by_cases hmask : s.2 &&& mask ≠ 0
  · rw [if_pos hmask]
    rw [and_mask_ne_zero hor hand hlt] at hmask
    have hshift : (s.2 >>> n).toNat = s.2.toNat / 2 ^ n := by
      rw [toNat_ushiftRight, Nat.shiftRight_eq_div_pow]
    refine ⟨e + n, by simp only [hoff]; omega, ?_, ?_, ?_⟩
    · rw [hshift, hval, Nat.div_div_eq_div_mul, ← Nat.pow_add]
    · rw [hshift]
      exact Nat.div_pos hmask (Nat.two_pow_pos n)
    · rw [hshift, Nat.div_lt_iff_lt_mul (Nat.two_pow_pos n), ← Nat.pow_add]
      exact Nat.lt_of_lt_of_le hlt (Nat.pow_le_pow_right (by decide) hm)
  · rw [if_neg hmask]
    rw [and_mask_ne_zero hor hand hlt, not_le] at hmask
    exact ⟨e, hoff, hval, hpos, hmask⟩

/-- The number of the highest bit, plus one. -/
theorem Searching.done {a : Nat} {s : Int × Word} (h : Searching a 1 s) :
    ∃ e : Nat, s.1 = e + 1 ∧ 2 ^ e ≤ a ∧ a < 2 ^ (e + 1) := by
  obtain ⟨e, hoff, _, _, _⟩ := h
  refine ⟨e, hoff, ?_, ?_⟩
  · exact (Nat.div_pos_iff.mp (by omega)).2
  · rw [Nat.pow_succ, Nat.mul_comm, ← Nat.div_lt_iff_lt_mul (Nat.two_pow_pos e)]
    omega

theorem fst_qbinStep (s : Int × Word) :
    (if s.2 &&& 2 ≠ 0 then s.1 + 1 else s.1) = (qbinStep 2 1 s).1 := by
  unfold qbinStep
  split <;> rfl

theorem dtAggQbin_inBucket (v : Word) : ∃ i < 127, dtAggQbin v = (i : Nat) ∧ InBucket i v := by
  have hint := toInt_eq_toNat_cond v
  by_cases h0 : v = 0
  · subst h0
    exact ⟨63, by decide, rfl, rfl⟩
  by_cases hmin : v = 0x8000000000000000
  · subst hmin
    exact ⟨0, by decide, rfl, by unfold InBucket; decide⟩
  have hne : v.toInt ≠ 0 := fun h => h0 (toInt_inj.mp h)
  have hlt : v.toInt.natAbs < 2 ^ 63 := by
    have : v.toNat ≠ 2 ^ 63 := fun h => hmin (eq_of_toNat_eq h)
    split at hint <;> omega
  have hslt : v.slt 0 = true ↔ v.toInt < 0 := slt_iff_toInt_lt
  have habs : (if v.slt 0 then v * -1 else v).toNat = v.toInt.natAbs := by
    rw [← toNat_abs, sle_eq_not_slt, mul_neg_one]
    cases v.slt 0 <;> rfl
  -- the six rounds of the search
  have hstart : Searching v.toInt.natAbs 63 (1, if v.slt 0 then v * -1 else v) :=
    ⟨0, rfl, by rw [habs, Nat.pow_zero, Nat.div_one], by rw [habs]; omega, by rw [habs]; exact hlt⟩
  have h₁ := hstart.step 0x7fffffff00000000 32 (by decide) (by decide) (by decide)
  have h₂ := h₁.step 0x00000000ffff0000 16 (by decide) (by decide) (by decide)
  have h₃ := h₂.step 0x000000000000ff00 8 (by decide) (by decide) (by decide)
  have h₄ := h₃.step 0x00000000000000f0 4 (by decide) (by decide) (by decide)
  have h₅ := h₄.step 0x000000000000000c 2 (by decide) (by decide) (by decide)
  have h₆ := h₅.step 0x0000000000000002 1 (by decide) (by decide) (by decide)
  obtain ⟨e, hoff, hlow, hup⟩ := h₆.done
  have he : e < 63 := (Nat.pow_lt_pow_iff_right (by decide)).mp (Nat.lt_of_le_of_lt hlow hlt)
  have hbin : dtAggQbin v = (if v.slt 0 then (e + 1 : Int) * -1 else e + 1) + 63 := by
    rw [dtAggQbin, if_neg h0, if_neg hmin]
    dsimp only
    rw [fst_qbinStep, hoff]
  by_cases hneg : v.slt 0 = true
  · refine ⟨62 - e, by omega, by rw [hbin, if_pos hneg]; omega, ?_⟩
    exact (inBucket_neg he v).mpr ⟨hslt.mp hneg, hlow, fun _ => hup⟩
  · refine ⟨64 + e, by omega, by rw [hbin, if_neg hneg]; omega, ?_⟩
    rw [hslt] at hneg
    exact (inBucket_pos he v).mpr ⟨by omega, hlow, fun _ => hup⟩

/-- **Power-of-two bins.** Every value is in the one bucket whose range it is in, and the buckets
are in the order of the values. -/
theorem dtAggQbin_right (v : Word) :
    (∃ i < 127, dtAggQbin v = (i : Nat) ∧ ∀ j < 127, InBucket j v ↔ j = i) ∧
      ∀ w : Word, v.toInt ≤ w.toInt → dtAggQbin v ≤ dtAggQbin w := by
  obtain ⟨i, hi, hbin, hin⟩ := dtAggQbin_inBucket v
  refine ⟨⟨i, hi, hbin, fun j hj => ⟨fun h => ?_, fun h => h ▸ hin⟩⟩, fun w hw => ?_⟩
  · exact le_antisymm (h.le hj hi hin le_rfl) (hin.le hi hj h le_rfl)
  · obtain ⟨j, hj, _, hin'⟩ := dtAggQbin_inBucket w
    have := hin.le hi hj hin' hw
    omega

/-! ## Linear bins -/

/-- `DTRACE_LQUANTIZE_STEP`, `DTRACE_LQUANTIZE_LEVELS` and `DTRACE_LQUANTIZE_BASE` -/
def lquantizeStep (x : Word) : BitVec 16 := ((x &&& 0xffff000000000000) >>> 48).truncate 16
def lquantizeLevels (x : Word) : BitVec 16 := ((x &&& 0x0000ffff00000000) >>> 32).truncate 16
def lquantizeBase (x : Word) : BitVec 32 := (x &&& 0xffffffff).truncate 32

inductive LqError
  | basetype
  | baseval
  | limtype
  | limval
  | mismatch
  | steptype
  | stepval
  | steplarge
  | stepsmall
  | matchbase
  | matchlim
  | matchstep
  | assertion
  deriving DecidableEq, Repr

/-- The signature of the aggregation, and the arguments of `dt_agg_lqbin` in the generated code. -/
structure Lquantize where
  arg : Word
  baseval : BitVec 32
  nlevels : Word
  step : Word
  deriving DecidableEq, Repr

/-- The step, which is optional. -/
def lquantStep : Option ArgNode → Except LqError Word
  | none => .ok 1
  | some .other => .error .steptype
  | some (.int step signed) =>
    if (ArgNode.int step signed).isPosconst = false then .error .steptype
    else if step > 0xffff then .error .stepval
    else .ok step

/-- The checks of `dt_cg_agg_lquantize`. `oarg` is the signature of an earlier use, or 0. -/
def dtCgAggLquantize (oarg : Word) (arg1 arg2 : ArgNode) (arg3 : Option ArgNode) :
    Except LqError Lquantize :=
  match arg1 with
  | .other => .error .basetype
  | .int baseval _ =>
    if baseval.toInt < -2 ^ 31 ∨ baseval.toInt > 2 ^ 31 - 1 then .error .baseval
    else match arg2 with
    | .other => .error .limtype
    | .int limitval _ =>
      if limitval.toInt < -2 ^ 31 ∨ limitval.toInt > 2 ^ 31 - 1 then .error .limval
      else if limitval.toInt ≤ baseval.toInt then .error .mismatch
      else match lquantStep arg3 with
      | .error e => .error e
      | .ok step =>
        let nlevels := (limitval - baseval) / step
        if nlevels = 0 then .error .steplarge
        else if nlevels > 0xffff then .error .stepsmall
        else
          let arg := step <<< 48 ||| nlevels <<< 32 ||| baseval &&& 0xffffffff
          if oarg = 0 ∨ oarg = arg then .ok ⟨arg, baseval.truncate 32, nlevels, step⟩
          else
            let obaseval := lquantizeBase oarg
            let onlevels := (lquantizeLevels oarg).setWidth 32
            let ostep := (lquantizeStep oarg).setWidth 32
            if obaseval.signExtend 64 ≠ baseval then .error .matchbase
            else if (onlevels * ostep).signExtend 64 ≠ nlevels * step then .error .matchlim
            else if ostep.signExtend 64 ≠ step then .error .matchstep
            else .error .assertion

/-- The sign before the number on a label of `dt_print_lquantize`: `<`, `>=`, or none. -/
inductive LqSign
  | below
  | atLeast
  | plain
  deriving DecidableEq, Repr

def dtPrintLquantize (sig : Word) (i : Nat) : LqSign × BitVec 32 :=
  let base := lquantizeBase sig
  let step := (lquantizeStep sig).setWidth 32
  let levels := (lquantizeLevels sig).toNat
  if i = 0 then (.below, base)
  else if i = levels + 1 then (.atLeast, base + .ofNat 32 levels * step)
  else (.plain, base + .ofNat 32 (i - 1) * step)

/-- `v` is in the range that the labels of bin `i` and of the next one stand for. -/
def InBin (sig : Word) (i : Nat) (v : Word) : Prop :=
  match dtPrintLquantize sig i with
  | (.below, n) => v.toInt < n.toInt
  | (.atLeast, n) => n.toInt ≤ v.toInt
  | (.plain, n) => n.toInt ≤ v.toInt ∧ v.toInt < (dtPrintLquantize sig (i + 1)).2.toInt

/-- The parameters that are accepted, in plain numbers. -/
structure LqAccepted (base limit : Int) (nlevels step : Nat) : Prop where
  base_ge : -2 ^ 31 ≤ base
  limit_lt : limit < 2 ^ 31
  base_lt : base < limit
  step_pos : 0 < step
  step_lt : step < 2 ^ 16
  levels_lt : nlevels < 2 ^ 16
  levels_eq : nlevels = (limit - base).toNat / step

theorem dtCgAggLquantize_ok {oarg : Word} {arg1 arg2 : ArgNode} {arg3 : Option ArgNode}
    {q : Lquantize} (h : dtCgAggLquantize oarg arg1 arg2 arg3 = .ok q) :
    ∃ base limit s t, arg1 = .int base s ∧ arg2 = .int limit t ∧ lquantStep arg3 = .ok q.step ∧
      LqAccepted base.toInt limit.toInt q.nlevels.toNat q.step.toNat ∧
      q.arg = q.step <<< 48 ||| q.nlevels <<< 32 ||| base &&& 0xffffffff ∧
      q.baseval = base.truncate 32 := by
  unfold dtCgAggLquantize at h
  split at h
  · cases h
  rename_i base s
  split at h
  · cases h
  rename_i hbase
  split at h
  · cases h
  rename_i limit t
  split at h
  · cases h
  rename_i hlimit
  split at h
  · cases h
  rename_i hlt
  split at h
  · cases h
  rename_i step hstep
  dsimp only at h
  split at h
  · cases h
  split at h
  · cases h
  rename_i hlevels
  split at h
  swap
  · split at h
    · cases h
    · split at h
      · cases h
      · split at h <;> cases h
  cases h
  have hpos : 0 < step.toNat ∧ step.toNat < 2 ^ 16 := by
    unfold lquantStep at hstep
    split at hstep
    · cases hstep
      decide
    · cases hstep
    · split at hstep
      · cases hstep
      rename_i hposconst
      split at hstep
      · cases hstep
      rename_i hle
      cases hstep
      rw [gt_iff_lt, lt_def, show (0xffff : Word).toNat = 65535 from rfl] at hle
      have hne : step.toNat ≠ 0 := fun h0 => by
        rw [show step = 0 from eq_of_toNat_eq h0] at hposconst
        exact hposconst rfl
      omega
  have hb := toInt_eq_toNat_cond base
  have hl := toInt_eq_toNat_cond limit
  have hsub : (limit - base).toNat = (limit.toInt - base.toInt).toNat := by
    have := base.isLt
    have := limit.isLt
    rw [toNat_sub]
    split at hb <;> split at hl <;> omega
  rw [gt_iff_lt, lt_def, show (0xffff : Word).toNat = 65535 from rfl] at hlevels
  refine ⟨base, limit, s, t, rfl, rfl, hstep, ⟨by omega, by omega, by omega, hpos.1, hpos.2,
    by dsimp only; omega, ?_⟩, rfl, rfl⟩
  rw [toNat_udiv, hsub]

theorem toNat_unpack (x : Word) (k : Nat) (hk : k ≤ 48) :
    (((x &&& (0xffff : Word) <<< k) >>> k).truncate 16).toNat = x.toNat / 2 ^ k % 2 ^ 16 := by
  have hmask : ((0xffff : Word) <<< k) >>> k = 0xffff := by
    revert k
    decide
  rw [ushiftRight_and_distrib, hmask, toNat_setWidth, toNat_and,
    show (0xffff : Word).toNat = 2 ^ 16 - 1 from rfl, and_two_pow_sub_one_eq_mod, mod_mod,
    toNat_ushiftRight, shiftRight_eq_div_pow]

/-- Unpacking gives back the step, the number of levels and the base. -/
theorem unpack_pack {base nlevels step : Word} (hs : step.toNat < 2 ^ 16)
    (hn : nlevels.toNat < 2 ^ 16) :
    let arg := step <<< 48 ||| nlevels <<< 32 ||| base &&& 0xffffffff
    (lquantizeStep arg).toNat = step.toNat ∧ (lquantizeLevels arg).toNat = nlevels.toNat ∧
      lquantizeBase arg = base.truncate 32 := by
  have hlow : (base &&& 0xffffffff).toNat = base.toNat % 2 ^ 32 :=
    (toNat_and base 0xffffffff).trans (and_two_pow_sub_one_eq_mod base.toNat 32)
  have hmid := @toNat_or_shiftLeft (base &&& 0xffffffff) nlevels 32 (by decide) (by omega)
  have harg : (step <<< 48 ||| nlevels <<< 32 ||| base &&& 0xffffffff).toNat =
      base.toNat % 2 ^ 32 + 2 ^ 32 * nlevels.toNat + 2 ^ 48 * step.toNat := by
    rw [BitVec.or_assoc, BitVec.or_comm, BitVec.or_comm (nlevels <<< 32),
      toNat_or_shiftLeft (by decide) (by omega)]
    omega
  generalize step <<< 48 ||| nlevels <<< 32 ||| base &&& 0xffffffff = arg at harg
  refine ⟨?_, ?_, ?_⟩
  · rw [show (lquantizeStep arg).toNat = _ from toNat_unpack arg 48 (by decide)]
    omega
  · rw [show (lquantizeLevels arg).toNat = _ from toNat_unpack arg 32 (by decide)]
    omega
  · apply eq_of_toNat_eq
    rw [lquantizeBase, toNat_setWidth, toNat_setWidth,
      show (arg &&& 0xffffffff).toNat = arg.toNat % 2 ^ 32 from
        (toNat_and arg 0xffffffff).trans (and_two_pow_sub_one_eq_mod arg.toNat 32)]
    omega

/-- The numbers on the labels: sums in `int`, which have a place there at the end. -/
theorem toInt_number {base : BitVec 32} {step : BitVec 16} {k : Nat}
    (h : base.toInt + (k * step.toNat : Nat) < 2 ^ 31) :
    (base + .ofNat 32 k * step.setWidth 32).toInt = base.toInt + (k * step.toNat : Nat) := by
  have hint := toInt_eq_toNat_cond base
  have hmul : (BitVec.ofNat 32 k * step.setWidth 32).toNat = k * step.toNat % 2 ^ 32 := by
    rw [toNat_mul, toNat_ofNat, toNat_setWidth, ← mul_mod]
  rw [toInt_eq_toNat_cond, toNat_add]
  split at hint <;> split <;> omega

theorem dtPrintLquantize_succ (sig : Word) (k : Nat) : dtPrintLquantize sig (k + 1) =
    (if k = (lquantizeLevels sig).toNat then .atLeast else .plain,
      lquantizeBase sig + .ofNat 32 k * (lquantizeStep sig).setWidth 32) := by
  rw [dtPrintLquantize, if_neg (Nat.succ_ne_zero k)]
  by_cases hlast : k = (lquantizeLevels sig).toNat
  · rw [if_pos (by omega), if_pos hlast, hlast]
  · rw [if_neg (by omega), if_neg hlast, Nat.add_sub_cancel]

/-- The range of a bin, in plain numbers. -/
theorem inBin_iff {sig v : Word} {i : Nat} (hi : i ≤ (lquantizeLevels sig).toNat + 1)
    (hfit : (lquantizeBase sig).toInt +
      ((lquantizeLevels sig).toNat * (lquantizeStep sig).toNat : Nat) < 2 ^ 31) :
    InBin sig i v ↔
      (0 < i → (lquantizeBase sig).toInt + ((i - 1) * (lquantizeStep sig).toNat : Nat) ≤ v.toInt) ∧
      (i ≤ (lquantizeLevels sig).toNat →
        v.toInt < (lquantizeBase sig).toInt + (i * (lquantizeStep sig).toNat : Nat)) := by
  have hnumber : ∀ k ≤ (lquantizeLevels sig).toNat,
      (lquantizeBase sig + .ofNat 32 k * (lquantizeStep sig).setWidth 32).toInt =
        (lquantizeBase sig).toInt + (k * (lquantizeStep sig).toNat) := fun k hk => by
    have := mul_le_mul_right (lquantizeStep sig).toNat hk
    exact toInt_number (by omega)
  unfold InBin
  cases i with
  | zero =>
    show v.toInt < (lquantizeBase sig).toInt ↔ _
    omega
  | succ k =>
    rw [dtPrintLquantize_succ, dtPrintLquantize_succ, Nat.add_sub_cancel]
    by_cases hlast : k = (lquantizeLevels sig).toNat
    · rw [if_pos hlast]
      dsimp only
      rw [hnumber k (by omega)]
      omega
    · rw [if_neg hlast]
      dsimp only
      rw [hnumber k (by omega), hnumber (k + 1) (by omega)]
      omega

/-- The bin of a value, in plain numbers. -/
theorem dtAggLqbin_spec (base : BitVec 32) (nlevels : Word) {step : Word} (hs : 0 < step.toNat)
    (v : Word) :
    ∃ i ≤ nlevels.toNat + 1, dtAggLqbin v base nlevels step = .ofNat 64 i ∧
      (0 < i → base.toInt + ((i - 1) * step.toNat : Nat) ≤ v.toInt) ∧
      (i ≤ nlevels.toNat → v.toInt < base.toInt + (i * step.toNat : Nat)) := by
  have hbase : (base.signExtend 64).toInt = base.toInt := toInt_signExtend_of_le (by decide)
  have hne : step ≠ 0 := fun h => by
    rw [h] at hs
    exact absurd hs (by decide)
  unfold dtAggLqbin
  by_cases hlt : v.toInt < base.toInt
  · rw [if_pos (Or.inr (slt_iff_toInt_lt.mpr (hbase.symm ▸ hlt)))]
    exact ⟨0, Nat.zero_le _, rfl, nofun, fun _ => by rw [Nat.zero_mul]; omega⟩
  have hsub : ((v - base.signExtend 64).toNat : Int) = v.toInt - base.toInt := by
    have hv := toInt_eq_toNat_cond v
    have hb := toInt_eq_toNat_cond (base.signExtend 64)
    rw [toNat_sub]
    split at hv <;> split at hb <;> omega
  rw [if_neg (by rintro (h | h); exact hne h; exact hlt (hbase ▸ slt_iff_toInt_lt.mp h))]
  dsimp only
  have hdiv : ((v - base.signExtend 64) / step).toNat =
      (v - base.signExtend 64).toNat / step.toNat := toNat_udiv
  have hmod := div_add_mod (v - base.signExtend 64).toNat step.toNat
  have hrem := mod_lt (v - base.signExtend 64).toNat hs
  rw [← hdiv, mul_comm] at hmod
  generalize (v - base.signExtend 64) / step = level at hmod
  by_cases hgt : level > nlevels
  · refine ⟨nlevels.toNat + 1, le_rfl, ?_, fun _ => ?_, fun h => by omega⟩
    · rw [if_pos hgt, ofNat_add, ofNat_toNat]
      rfl
    · have := Nat.mul_le_mul_right step.toNat (Nat.le_of_lt (lt_def.mp hgt))
      rw [Nat.add_sub_cancel]
      omega
  · have hle : level.toNat ≤ nlevels.toNat := not_lt.mp (fun h => hgt (lt_def.mpr h))
    refine ⟨level.toNat + 1, by omega, ?_, fun _ => ?_, fun _ => ?_⟩
    · rw [if_neg hgt, ofNat_add, ofNat_toNat]
      rfl
    · rw [Nat.add_sub_cancel]
      omega
    · rw [Nat.add_mul]
      omega

/-- **Linear bins.** For all parameters that are accepted, unpacking the signature gives them back,
and every value is in one of the `levels + 2` bins, in the range of its label. -/
theorem lquantize_right {oarg : Word} {arg1 arg2 : ArgNode} {arg3 : Option ArgNode} {q : Lquantize}
    (h : dtCgAggLquantize oarg arg1 arg2 arg3 = .ok q) :
    ∃ base limit s t, arg1 = .int base s ∧ arg2 = .int limit t ∧ lquantStep arg3 = .ok q.step ∧
      (lquantizeBase q.arg).toInt = base.toInt ∧ (lquantizeStep q.arg).toNat = q.step.toNat ∧
      (lquantizeLevels q.arg).toNat = (limit.toInt - base.toInt).toNat / q.step.toNat ∧
      ∀ v, ∃ i ≤ (lquantizeLevels q.arg).toNat + 1,
        dtAggLqbin v q.baseval q.nlevels q.step = .ofNat 64 i ∧ InBin q.arg i v := by
  obtain ⟨base, limit, s, t, h1, h2, h3, hok, harg, hbase⟩ := dtCgAggLquantize_ok h
  obtain ⟨hstep, hlevels, hunpack⟩ := @unpack_pack base q.nlevels q.step hok.step_lt hok.levels_lt
  rw [← harg] at hstep hlevels hunpack
  have hint : (base.truncate 32).toInt = base.toInt := by
    have hb := toInt_eq_toNat_cond base
    have := hok.base_ge
    have := hok.base_lt
    have := hok.limit_lt
    rw [toInt_eq_toNat_cond, toNat_setWidth]
    split at hb <;> split <;> omega
  have hfit : base.toInt + (q.nlevels.toNat * q.step.toNat) < 2 ^ 31 := by
    have := div_mul_le_self (limit.toInt - base.toInt).toNat q.step.toNat
    have := hok.limit_lt
    have := hok.base_lt
    rw [hok.levels_eq]
    omega
  refine ⟨base, limit, s, t, h1, h2, h3, by rw [hunpack, hint], hstep,
    by rw [hlevels, hok.levels_eq], fun v => ?_⟩
  obtain ⟨i, hi, hbin, hrange⟩ := dtAggLqbin_spec q.baseval q.nlevels hok.step_pos v
  rw [hbase, hint] at hrange
  refine ⟨i, by rw [hlevels]; exact hi, hbin, ?_⟩
  rw [inBin_iff (by rw [hlevels]; exact hi) (by rw [hlevels, hstep, hunpack, hint]; exact hfit),
    hlevels, hstep, hunpack, hint]
  exact hrange

/-- `lquantize(v, -100, 100, 10)` -/
theorem lquantize_right_hundred : ∃ base limit s t, ArgNode.int (-100) true = .int base s ∧
    ArgNode.int 100 true = .int limit t ∧ lquantStep (some (.int 10 true)) = .ok 10 ∧
      (lquantizeBase 0x000a0014ffffff9c).toInt = base.toInt ∧
      (lquantizeStep 0x000a0014ffffff9c).toNat = (10 : Word).toNat ∧
      (lquantizeLevels 0x000a0014ffffff9c).toNat =
        (limit.toInt - base.toInt).toNat / (10 : Word).toNat ∧
      ∀ v, ∃ i ≤ (lquantizeLevels 0x000a0014ffffff9c).toNat + 1,
        dtAggLqbin v (-100) 20 10 = .ofNat 64 i ∧ InBin 0x000a0014ffffff9c i v :=
  @lquantize_right 0 (.int (-100) true) (.int 100 true) (some (.int 10 true))
    ⟨0x000a0014ffffff9c, -100, 20, 10⟩ (by decide)

end DTrace.Agg
