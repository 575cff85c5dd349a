import DTrace.Agg.Func
import Mathlib.Data.Nat.Log

/-!
# Log-linear quantization

The values with magnitudes from `factor ^ mag` up to `factor ^ (mag + 1)` are one logarithmic range,
which has `steps` bins of the same size, the first `steps / factor` of which belong to lower ranges.
`LlqParams` are the parameters that `dt_cg_agg_llquantize` accepts.

* `offset` says how far from the underflow bin a magnitude is counted, in plain numbers.
* `toNat_bin`: the generated code computes it, for every value and without overflow.
* `offset_mono`, `offset_le`: the bins are in order and in the array.
-/

namespace DTrace.Agg

open BitVec hiding not_or

/-! ## Parameters -/

/-- An argument of `llquantize()`: an integer constant, with its sign flag, or something else. -/
inductive ArgNode
  | int (value : Word) (signed : Bool)
  | other
  deriving DecidableEq, Repr

/-- `dt_node_is_posconst` -/
def ArgNode.isPosconst : ArgNode → Bool
  | .int value signed => value ≠ 0 && (!signed || (0 : Word).slt value)
  | .other => false

inductive LlqError
  | factortype
  | factorval
  | lmagtype
  | lmagval
  | hmagtype
  | hmagval
  | steptype
  | stepval
  | matchfactor
  | matchlmag
  | matchhmag
  | matchsteps
  deriving DecidableEq, Repr

@[ext]
structure LlqArgs where
  factor : Nat
  lmag : Nat
  hmag : Nat
  steps : Nat
  deriving DecidableEq, Repr

/-- Parameters that are accepted. -/
structure LlqParams extends LlqArgs where
  factor_ge : 2 ≤ factor
  factor_lt : factor < 2 ^ 16
  lmag_le : lmag ≤ hmag
  pow_lt : factor ^ (hmag + 1) < 2 ^ 64
  steps_pos : 0 < steps
  steps_lt : steps < 2 ^ 16
  steps_dvd : steps < factor → factor % steps = 0
  dvd_steps : factor < steps → steps % factor = 0
  steps_dvd_pow : factor < steps →
    (if lmag = 0 then factor * factor else factor ^ (lmag + 1)) % steps = 0

namespace LlqArgs

variable (a : LlqArgs)

/-- The signature of an aggregation with these parameters. -/
def sig : Nat := a.steps * 2 ^ 48 + a.hmag * 2 ^ 32 + a.lmag * 2 ^ 16 + a.factor

def ofSig (sig : Nat) : LlqArgs where
  factor := sig % 2 ^ 16
  lmag := sig / 2 ^ 16 % 2 ^ 16
  hmag := sig / 2 ^ 32 % 2 ^ 16
  steps := sig / 2 ^ 48 % 2 ^ 16

def stepsFactor : Nat := a.steps / a.factor

/-- The bins of one logarithmic range. -/
def perRange : Nat := a.steps - a.stepsFactor

/-- The bins of all logarithmic ranges. -/
def ranged : Nat := (a.hmag - a.lmag + 1) * a.perRange

/-- The bin of the values close to 0, in the middle. -/
def bin0 : Nat := 1 + a.ranged

def nbins : Nat := a.ranged * 2 + 3

end LlqArgs

/-- The checks of `dt_cg_agg_llquantize`. `oarg` is the signature of an earlier use, or 0. -/
def dtCgAggLlquantize (oarg : Nat) (arg1 arg2 arg3 arg4 : ArgNode) : Except LlqError LlqParams :=
  match arg1 with
  | .other => .error .factortype
  | .int factor _ =>
    if hf : factor.toNat ≥ 2 ^ 16 ∨ factor.toNat < 2 then .error .factorval
    else match arg2 with
    | .other => .error .lmagtype
    | .int lmag _ =>
      if hl : lmag.toNat ≥ 2 ^ 16 then .error .lmagval
      else match arg3 with
      | .other => .error .hmagtype
      | .int hmag _ =>
        if hh : hmag.toNat ≥ 2 ^ 16 then .error .hmagval
        else if hlh : hmag.toNat < lmag.toNat then .error .hmagval
        else if hp : factor.toNat ^ (hmag.toNat + 1) > 2 ^ 64 - 1 then .error .hmagval
        else match arg4 with
        | .other => .error .steptype
        | .int steps signed =>
          if hpos : (ArgNode.int steps signed).isPosconst = false then .error .steptype
          else if hs : steps.toNat ≥ 2 ^ 16 then .error .stepval
          else if hdvd : steps.toNat < factor.toNat ∧ factor.toNat % steps.toNat ≠ 0 then
            .error .stepval
          else if hmul : factor.toNat < steps.toNat ∧ steps.toNat % factor.toNat ≠ 0 then
            .error .stepval
          else if hpow : factor.toNat < steps.toNat ∧
              (if lmag.toNat = 0 then factor.toNat * factor.toNat
                else factor.toNat ^ (lmag.toNat + 1)) % steps.toNat ≠ 0 then
            .error .stepval
          else
            let p : LlqParams :=
              { factor := factor.toNat
                lmag := lmag.toNat
                hmag := hmag.toNat
                steps := steps.toNat
                factor_ge := by omega
                factor_lt := by omega
                lmag_le := by omega
                pow_lt := by omega
                steps_pos := by
                  refine Nat.pos_of_ne_zero fun h => hpos ?_
                  have : steps = 0 := eq_of_toNat_eq h
                  simp [ArgNode.isPosconst, this]
                steps_lt := by omega
                steps_dvd := fun h => Classical.not_not.mp fun hne => hdvd ⟨h, hne⟩
                dvd_steps := fun h => Classical.not_not.mp fun hne => hmul ⟨h, hne⟩
                steps_dvd_pow := fun h => Classical.not_not.mp fun hne => hpow ⟨h, hne⟩ }
            if oarg = 0 ∨ oarg = p.sig then .ok p
            else if oarg % 2 ^ 16 ≠ p.factor then .error .matchfactor
            else if oarg / 2 ^ 16 % 2 ^ 16 ≠ p.lmag then .error .matchlmag
            else if oarg / 2 ^ 32 % 2 ^ 16 ≠ p.hmag then .error .matchhmag
            else .error .matchsteps

namespace LlqParams

variable (p : LlqParams)

theorem factor_pos : 0 < p.factor := Nat.lt_of_lt_of_le (by decide) p.factor_ge

theorem pow_pos (n : Nat) : 0 < p.factor ^ n := Nat.pow_pos p.factor_pos

variable {n mag : Nat} (val : Word)

theorem pow_le_pow {m : Nat} (h : m ≤ n) : p.factor ^ m ≤ p.factor ^ n :=
  Nat.pow_le_pow_right p.factor_pos h

theorem hmag_lt : p.hmag < 63 := by
  have h : 2 ^ (p.hmag + 1) < 2 ^ 64 :=
    Nat.lt_of_le_of_lt (Nat.pow_le_pow_left p.factor_ge _) p.pow_lt
  have := (Nat.pow_lt_pow_iff_right (by decide)).mp h
  omega

theorem ofSig_sig : LlqArgs.ofSig p.sig = p.toLlqArgs := by
  have hf := p.factor_lt
  have hs := p.steps_lt
  have hl := p.lmag_le
  have hh := p.hmag_lt
  simp only [LlqArgs.ofSig, LlqArgs.sig]
  ext <;> dsimp only <;> omega

theorem stepsFactor_lt : p.stepsFactor < p.steps := Nat.div_lt_self p.steps_pos p.factor_ge

theorem perRange_pos : 0 < p.perRange := Nat.sub_pos_of_lt p.stepsFactor_lt

/-! ## The bins of the generated code -/

/-- The bin of a value. -/
def bin (val : Word) : Word := dtCgAggLlquantizeBin p.factor p.lmag p.hmag p.steps val

/-- The position of a magnitude in its logarithmic range, in steps. -/
def step (mag t : Nat) : Nat := t * p.steps / p.factor ^ (mag + 1)

/-- How far from the middle a magnitude is counted. -/
def offset (t : Nat) : Nat :=
  if t < p.factor ^ p.lmag then 0
  else if p.factor ^ (p.hmag + 1) ≤ t then p.ranged + 1
  else
    let mag := Nat.log p.factor t
    (mag - p.lmag) * p.perRange + (p.step mag t - p.stepsFactor) + 1

variable {p}

theorem stepsFactor_le_step {t : Nat} (h : p.factor ^ mag ≤ t) : p.stepsFactor ≤ p.step mag t := by
  have hsf : p.stepsFactor = p.factor ^ mag * p.steps / p.factor ^ (mag + 1) := by
    rw [Nat.pow_succ, Nat.mul_div_mul_left _ _ (p.pow_pos mag)]
    rfl
  rw [hsf]
  exact Nat.div_le_div_right (Nat.mul_le_mul_right _ h)

theorem step_lt {t : Nat} (h : t < p.factor ^ (mag + 1)) : p.step mag t < p.steps :=
  Nat.div_lt_of_lt_mul (Nat.mul_lt_mul_of_pos_right h p.steps_pos)

/-- Above the first range, and with at most `factor` steps in it too, the steps are of one size. -/
theorem steps_dvd_range (hl : p.lmag ≤ mag) (h : mag ≠ 0 ∨ p.steps ≤ p.factor) :
    p.steps ∣ p.factor ^ (mag + 1) := by
  rcases Nat.lt_or_ge p.factor p.steps with hlt | hge
  · have hpow := Nat.dvd_of_mod_eq_zero (p.steps_dvd_pow hlt)
    by_cases h0 : p.lmag = 0
    · rw [if_pos h0, ← Nat.pow_two] at hpow
      exact hpow.trans (Nat.pow_dvd_pow _ (by omega))
    · rw [if_neg h0] at hpow
      exact hpow.trans (Nat.pow_dvd_pow _ (by omega))
  · have hdvd : p.steps ∣ p.factor := by
      rcases Nat.lt_or_eq_of_le hge with hlt | heq
      · exact Nat.dvd_of_mod_eq_zero (p.steps_dvd hlt)
      · rw [heq]
    exact hdvd.trans (Dvd.intro_left _ (Nat.pow_succ ..).symm)

/-- The two orders of multiplication and division of the generated code. -/
theorem div_range_eq_step {t : Nat} (hl : p.lmag ≤ mag) (h : mag ≠ 0 ∨ p.steps ≤ p.factor) :
    t / (p.factor ^ (mag + 1) / p.steps) = p.step mag t := by
  obtain ⟨w, hw⟩ := steps_dvd_range hl h
  rw [step, hw, Nat.mul_div_cancel_left _ p.steps_pos, Nat.mul_comm t,
    Nat.mul_div_mul_left _ _ p.steps_pos]

section Offset

variable {t : Nat}

theorem offset_of_lt (h : t < p.factor ^ p.lmag) : p.offset t = 0 := if_pos h

theorem offset_of_ge (h : p.factor ^ (p.hmag + 1) ≤ t) : p.offset t = p.ranged + 1 := by
  have hl : ¬t < p.factor ^ p.lmag :=
    Nat.not_lt.mpr ((p.pow_le_pow (by have := p.lmag_le; omega)).trans h)
  rw [offset, if_neg hl, if_pos h]

/-- A magnitude of the logarithmic range `mag`. -/
theorem offset_of_mag {mag : Nat} (hl : p.lmag ≤ mag) (hh : mag ≤ p.hmag)
    (hle : p.factor ^ mag ≤ t) (hlt : t < p.factor ^ (mag + 1)) :
    p.offset t = (mag - p.lmag) * p.perRange + (p.step mag t - p.stepsFactor) + 1 := by
  have hlog : Nat.log p.factor t = mag := Nat.log_eq_of_pow_le_of_lt_pow hle hlt
  have h1 : ¬t < p.factor ^ p.lmag := Nat.not_lt.mpr ((p.pow_le_pow hl).trans hle)
  have h2 : ¬p.factor ^ (p.hmag + 1) ≤ t :=
    Nat.not_le.mpr (hlt.trans_le (p.pow_le_pow (by omega)))
  rw [offset, if_neg h1, if_neg h2, hlog]

/-- Every magnitude that is not in an end bin is in a logarithmic range. -/
theorem exists_mag (hle : p.factor ^ p.lmag ≤ t) (hlt : t < p.factor ^ (p.hmag + 1)) :
    ∃ mag, p.lmag ≤ mag ∧ mag ≤ p.hmag ∧ p.factor ^ mag ≤ t ∧ t < p.factor ^ (mag + 1) := by
  have ht : t ≠ 0 := Nat.ne_of_gt ((p.pow_pos _).trans_le hle)
  have hlow := Nat.pow_log_le_self p.factor ht
  have hup := Nat.lt_pow_succ_log_self p.factor_ge t
  refine ⟨Nat.log p.factor t, ?_, ?_, hlow, hup⟩
  · exact Nat.le_log_of_pow_le p.factor_ge hle
  · exact Nat.lt_succ_iff.mp ((Nat.pow_lt_pow_iff_right p.factor_ge).mp (hlow.trans_lt hlt))

/-- The bins of one logarithmic range. -/
theorem offset_bounds {mag : Nat} (hl : p.lmag ≤ mag) (hh : mag ≤ p.hmag)
    (hle : p.factor ^ mag ≤ t) (hlt : t < p.factor ^ (mag + 1)) :
    (mag - p.lmag) * p.perRange < p.offset t ∧
      p.offset t ≤ (mag + 1 - p.lmag) * p.perRange := by
  rw [offset_of_mag hl hh hle hlt, show mag + 1 - p.lmag = (mag - p.lmag) + 1 by omega,
    Nat.succ_mul]
  have h1 := stepsFactor_le_step hle
  have h2 := step_lt hlt
  have h3 : p.perRange = p.steps - p.stepsFactor := rfl
  omega

theorem offset_le_ranged (hlt : t < p.factor ^ (p.hmag + 1)) : p.offset t ≤ p.ranged := by
  rcases Nat.lt_or_ge t (p.factor ^ p.lmag) with h | h
  · rw [offset_of_lt h]
    exact Nat.zero_le _
  · obtain ⟨_, hl, hh, hle, hlt⟩ := exists_mag h hlt
    refine (offset_bounds hl hh hle hlt).2.trans (Nat.mul_le_mul_right _ ?_)
    omega

theorem offset_le (t : Nat) : p.offset t ≤ p.ranged + 1 := by
  rcases Nat.lt_or_ge t (p.factor ^ (p.hmag + 1)) with h | h
  · exact (offset_le_ranged h).trans (Nat.le_succ _)
  · rw [offset_of_ge h]

theorem offset_mono {u : Nat} (h : t ≤ u) : p.offset t ≤ p.offset u := by
  rcases Nat.lt_or_ge t (p.factor ^ p.lmag) with ht | ht
  · rw [offset_of_lt ht]
    exact Nat.zero_le _
  rcases Nat.lt_or_ge u (p.factor ^ (p.hmag + 1)) with hu | hu
  · obtain ⟨m, hlm, hhm, hlem, hltm⟩ := exists_mag ht (h.trans_lt hu)
    obtain ⟨n, hln, hhn, hlen, hltn⟩ := exists_mag (ht.trans h) hu
    rcases Nat.lt_trichotomy m n with hmn | rfl | hmn
    · -- The last bin of a lower range is before the first one of a higher range.
      have hm := (offset_bounds hlm hhm hlem hltm).2
      have hn := (offset_bounds hln hhn hlen hltn).1
      have : (m + 1 - p.lmag) * p.perRange ≤ (n - p.lmag) * p.perRange :=
        Nat.mul_le_mul_right _ (by omega)
      omega
    · rw [offset_of_mag hlm hhm hlem hltm, offset_of_mag hlm hhm hlen hltn]
      have : p.step m t ≤ p.step m u := Nat.div_le_div_right (Nat.mul_le_mul_right _ h)
      omega
    · have := p.pow_le_pow (show n + 1 ≤ m from hmn)
      omega
  · rw [offset_of_ge hu]
    exact offset_le t

end Offset

theorem zero_sle : (0 : Word).sle val = true ↔ 0 ≤ val.toInt := by
  rw [sle_iff_toInt_le]
  exact Iff.rfl

/-- What is counted without its sign. -/
theorem toNat_magnitude :
    (if (0 : Word).sle val then val else val * -1).toNat = val.toInt.natAbs := by
  rw [mul_neg_one]
  exact toNat_abs val

theorem toNat_ofNat_pow (h : n ≤ p.hmag + 1) :
    (BitVec.ofNat 64 (p.factor ^ n)).toNat = p.factor ^ n := by
  exact Nat.mod_eq_of_lt ((p.pow_le_pow h).trans_lt p.pow_lt)

/-- One more range: the upper end does not overflow. -/
theorem pow_mul_factor :
    BitVec.ofNat 64 (p.factor ^ n) * .ofNat 64 p.factor = .ofNat 64 (p.factor ^ (n + 1)) := by
  rw [Nat.pow_succ, ofNat_mul]

theorem lt_ofNat_pow_iff {tmp : Word} (h : n ≤ p.hmag + 1) :
    tmp < BitVec.ofNat 64 (p.factor ^ n) ↔ tmp.toNat < p.factor ^ n := by
  rw [lt_def, toNat_ofNat_pow h]

/-- The loop over the logarithmic ranges finds the range of a magnitude. -/
theorem llqLoop_of_lt {tmp : Word} {m : Nat} (hn : mag + n = p.hmag) (hm : mag ≤ m)
    (hh : m ≤ p.hmag) (hle : p.factor ^ m ≤ tmp.toNat) (hlt : tmp.toNat < p.factor ^ (m + 1)) :
    llqLoop (.ofNat 64 p.factor) tmp n mag (.ofNat 64 (p.factor ^ mag)) =
      (m, some (.ofNat 64 (p.factor ^ (m + 1)))) := by
  induction n generalizing mag with
  | zero =>
    obtain rfl : mag = m := by omega
    rw [llqLoop, pow_mul_factor, if_pos ((lt_ofNat_pow_iff (by omega)).mpr hlt)]
  | succ n ih =>
    rw [llqLoop, pow_mul_factor]
    rcases Nat.eq_or_lt_of_le hm with rfl | hlt'
    · rw [if_pos ((lt_ofNat_pow_iff (by omega)).mpr hlt)]
    · rw [if_neg (mt (lt_ofNat_pow_iff (by omega)).mp
        (Nat.not_lt.mpr ((p.pow_le_pow hlt').trans hle)))]
      exact ih (by omega) hlt'

/-- It goes beyond the last range with a magnitude that is too large. -/
theorem llqLoop_of_ge {tmp : Word} (hn : mag + n = p.hmag)
    (hge : p.factor ^ (p.hmag + 1) ≤ tmp.toNat) :
    llqLoop (.ofNat 64 p.factor) tmp n mag (.ofNat 64 (p.factor ^ mag)) = (p.hmag + 1, none) := by
  have hcmp : ¬tmp < BitVec.ofNat 64 (p.factor ^ (mag + 1)) := by
    rw [lt_ofNat_pow_iff (by omega)]
    exact Nat.not_lt.mpr ((p.pow_le_pow (by omega)).trans hge)
  induction n generalizing mag with
  | zero =>
    rw [llqLoop, pow_mul_factor, if_neg hcmp, show mag = p.hmag by omega]
  | succ n ih =>
    rw [llqLoop, pow_mul_factor, if_neg hcmp]
    refine ih (by omega) ?_
    rw [lt_ofNat_pow_iff (by omega)]
    exact Nat.not_lt.mpr ((p.pow_le_pow (by omega)).trans hge)

theorem perRange_lt : p.perRange < 2 ^ 16 :=
  Nat.lt_of_le_of_lt (Nat.sub_le ..) p.steps_lt

theorem ranged_lt : p.ranged < 2 ^ 22 := by
  have hh := p.hmag_lt
  calc p.ranged ≤ 63 * p.perRange := Nat.mul_le_mul_right _ (by omega)
    _ < 2 ^ 22 := by have := p.perRange_lt; omega

/-- The division of the generated code, for a magnitude of the range `mag`. -/
theorem toNat_step {tmp : Word} (hl : p.lmag ≤ mag) (hh : mag ≤ p.hmag)
    (hlt : tmp.toNat < p.factor ^ (mag + 1)) :
    (if mag = 0 then tmp * .ofNat 64 p.steps / .ofNat 64 (p.factor ^ (mag + 1))
      else tmp / (.ofNat 64 (p.factor ^ (mag + 1)) / .ofNat 64 p.steps)).toNat =
      p.step mag tmp.toNat := by
  have hsteps : (BitVec.ofNat 64 p.steps).toNat = p.steps := by
    have := p.steps_lt
    rw [toNat_ofNat, Nat.mod_eq_of_lt (by omega)]
  by_cases h0 : mag = 0
  · -- In the range of the single digits the product is small.
    subst h0
    rw [if_pos rfl, toNat_udiv, toNat_mul, toNat_ofNat_pow (by omega), hsteps]
    rw [Nat.pow_one] at hlt
    have hf := p.factor_lt
    have hs := p.steps_lt
    have hprod : tmp.toNat * p.steps < 2 ^ 64 :=
      calc tmp.toNat * p.steps ≤ 2 ^ 16 * 2 ^ 16 := Nat.mul_le_mul (by omega) (by omega)
        _ < 2 ^ 64 := by decide
    rw [Nat.mod_eq_of_lt hprod]
    rfl
  · rw [if_neg h0, toNat_udiv, toNat_udiv, toNat_ofNat_pow (by omega), hsteps,
      div_range_eq_step hl (.inl h0)]

theorem toNat_ofNat_step {t : Nat} (hlt : t < p.factor ^ (mag + 1)) :
    (BitVec.ofNat 64 (p.step mag t)).toNat = p.step mag t := by
  have h1 := step_lt hlt
  have h2 := p.steps_lt
  rw [toNat_ofNat, Nat.mod_eq_of_lt (by omega)]

/-- The offset of step `q` of the `n`-th range. -/
theorem ofNat_offset {q : Nat} (hq : p.stepsFactor ≤ q) :
    BitVec.ofNat 64 n * .ofNat 64 (p.steps - p.stepsFactor) +
        (.ofNat 64 q - .ofNat 64 p.stepsFactor) + 1 =
      BitVec.ofNat 64 (n * p.perRange + (q - p.stepsFactor) + 1) := by
  rw [ofNat_add, ofNat_add, ofNat_mul, ofNat_sub_ofNat_of_le _ _ ?_ hq]
  · rfl
  · have h1 := p.stepsFactor_lt
    have h2 := p.steps_lt
    omega

/-- The last instructions: the offset is taken to the side of the value. -/
theorem toNat_shift {o : Nat} (ho : o ≤ p.bin0) :
    ((if (0 : Word).sle val then BitVec.ofNat 64 o else BitVec.ofNat 64 o * -1) +
      .ofNat 64 p.bin0).toNat = if 0 ≤ val.toInt then p.bin0 + o else p.bin0 - o := by
  have hb : p.bin0 < 2 ^ 23 := by
    have := p.ranged_lt
    rw [LlqArgs.bin0]
    omega
  by_cases h0 : 0 ≤ val.toInt
  · rw [if_pos ((zero_sle val).mpr h0), if_pos h0, toNat_add, toNat_ofNat,
      toNat_ofNat]
    omega
  · rw [if_neg (fun h => h0 ((zero_sle val).mp h)), if_neg h0, mul_neg_one, toNat_add,
      toNat_neg, toNat_ofNat, toNat_ofNat]
    omega

/-- **The generated code finds the bin of every value**: on the side of its sign, as far from the
middle as its magnitude says. -/
theorem toNat_bin :
    (p.bin val).toNat = if 0 ≤ val.toInt then p.bin0 + p.offset val.toInt.natAbs
      else p.bin0 - p.offset val.toInt.natAbs := by
  have hbin0 : p.offset val.toInt.natAbs ≤ p.bin0 := (offset_le _).trans (Nat.add_comm ..).le
  have hl := p.lmag_le
  rw [← toNat_shift val hbin0, ← toNat_magnitude]
  simp only [bin, dtCgAggLlquantizeBin]
  generalize (if (0 : Word).sle val then val else val * -1) = tmp
  have hcmp : tmp < BitVec.ofNat 64 (p.factor ^ p.lmag) ↔ tmp.toNat < p.factor ^ p.lmag := by
    rw [lt_def, toNat_ofNat_pow (by omega)]
  rcases Nat.lt_or_ge tmp.toNat (p.factor ^ p.lmag) with hlow | hlow
  · rw [if_pos (hcmp.mpr hlow), offset_of_lt hlow]
    split <;> simp [LlqArgs.bin0, LlqArgs.ranged, LlqArgs.perRange, LlqArgs.stepsFactor]
  rw [if_neg (fun h => absurd (hcmp.mp h) (Nat.not_lt.mpr hlow))]
  rcases Nat.lt_or_ge tmp.toNat (p.factor ^ (p.hmag + 1)) with hup | hup
  · obtain ⟨_, hlm, hhm, hle, hlt⟩ := exists_mag hlow hup
    rw [llqLoop_of_lt (Nat.add_sub_cancel' hl) hlm hhm hle hlt, offset_of_mag hlm hhm hle hlt]
    have hind := eq_of_toNat_eq ((toNat_step hlm hhm hlt).trans
      (toNat_ofNat_step hlt).symm)
    dsimp only
    rw [hind, show p.steps / p.factor = p.stepsFactor from rfl,
      ofNat_offset (stepsFactor_le_step hle)]
    rfl
  · rw [llqLoop_of_ge (Nat.add_sub_cancel' hl) hup, offset_of_ge hup]
    have h := ofNat_offset (Nat.le_refl p.stepsFactor) (n := p.hmag + 1 - p.lmag)
    rw [sub_self] at h
    rw [show p.ranged + 1 =
      (p.hmag + 1 - p.lmag) * p.perRange + (p.stepsFactor - p.stepsFactor) + 1 by
        rw [LlqArgs.ranged, Nat.sub_self, Nat.sub_add_comm hl], ← h]
    rfl

theorem toNat_bin_lt : (p.bin val).toNat < p.nbins := by
  have ho : p.offset val.toInt.natAbs ≤ p.ranged + 1 := offset_le _
  rw [toNat_bin, LlqArgs.nbins, LlqArgs.bin0]
  split <;> omega

/-- The check before the increment never leaves out a value. -/
theorem quantizeImpl_bin (val ireg : Word) (dst : List Word) :
    dtCgAggQuantizeImpl (p.nbins - 1) (p.bin val) ireg dst = xadd (p.bin val).toNat ireg dst := by
  have hlt := p.toNat_bin_lt val
  have hn : p.nbins < 2 ^ 24 := by
    have := p.ranged_lt
    rw [LlqArgs.nbins]
    omega
  rw [dtCgAggQuantizeImpl, if_neg]
  simp only [not_or, BitVec.not_lt, BitVec.le_def, BitVec.toNat_ofNat]
  refine ⟨?_, Nat.zero_le _⟩
  omega

theorem bin_mono {v w : Word} (h : v.toInt ≤ w.toInt) : (p.bin v).toNat ≤ (p.bin w).toNat := by
  rw [toNat_bin, toNat_bin]
  by_cases hv : 0 ≤ v.toInt
  · have hw : 0 ≤ w.toInt := hv.trans h
    rw [if_pos hv, if_pos hw]
    exact Nat.add_le_add_left (offset_mono (by omega)) _
  · rw [if_neg hv]
    split
    · exact (Nat.sub_le ..).trans (Nat.le_add_right ..)
    · exact Nat.sub_le_sub_left (offset_mono (by omega)) _

/-- The bins of a value and of its negation are at the same distance of the middle. -/
theorem bin_neg {v : Word} (h : v ≠ intMin 64) :
    (p.bin (-v)).toNat + (p.bin v).toNat = 2 * p.bin0 := by
  have hneg : (-v).toInt = -v.toInt := toInt_neg_of_ne_intMin h
  have ho : p.offset v.toInt.natAbs ≤ p.bin0 := (offset_le _).trans (Nat.add_comm ..).le
  rw [toNat_bin, toNat_bin, hneg, Int.natAbs_neg]
  by_cases h0 : v.toInt = 0
  · have hz : p.offset 0 = 0 := offset_of_lt (p.pow_pos _)
    rw [h0] at ⊢
    simp [hz, Nat.two_mul]
  · by_cases hv : 0 ≤ v.toInt
    · rw [if_pos hv, if_neg (by omega)]
      omega
    · rw [if_neg hv, if_pos (by omega)]
      omega

end LlqParams

end DTrace.Agg
