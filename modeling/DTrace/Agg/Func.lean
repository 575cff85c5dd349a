import Mathlib.Data.BitVec
import DTrace.Lib.Merge

/-!
# Aggregating functions

What the generated code does to the data words of an aggregation (`dt_cg_agg_*` in `dt_cg.c`,
with the helpers `dt_agg_qbin` and `dt_agg_lqbin` called from it), and how the consumer merges
the data of two CPUs (`dt_agg_one_agg`) and resets it (`dt_aggregate_clear_one`).

Apart from `stddev`, the two sides fit together: `mergeLaws` states that merging partial data is
aggregating the inputs of both parts. For `min` and `max` this rests on the order being total and
the initial value being its end; for the others on pointwise addition modulo 2⁶⁴.
-/

namespace DTrace.Agg

open BitVec
open List hiding replicate

abbrev Word := BitVec 64

inductive AggFunc where
  | avg
  | count
  | max
  | min
  | sum
  | stddev
  | quantize
  | lquantize (base : BitVec 32) (levels step : Nat)
  | llquantize (factor lmag hmag steps : Nat)
  deriving DecidableEq, Repr

/-- The argument of an aggregating function, and the increment of the `quantize` family. -/
structure Input where
  value : Word
  incr : Word
  deriving DecidableEq, Repr

/-! ## Bins -/

/-- One halving of `dt_agg_qbin`. -/
def qbinStep (mask : Word) (n : Nat) (s : Int × Word) : Int × Word :=
  if s.2 &&& mask ≠ 0 then (s.1 + n, s.2 >>> n) else s

def dtAggQbin (val : Word) : Int :=
  if val = 0 then 63
  else if val = 0x8000000000000000 then 0
  else
    let tmp := if val.slt 0 then val * -1 else val
    let s : Int × Word := (1, tmp)
    let s := qbinStep 0x7fffffff00000000 32 s
    let s := qbinStep 0x00000000ffff0000 16 s
    let s := qbinStep 0x000000000000ff00 8 s
    let s := qbinStep 0x00000000000000f0 4 s
    let s := qbinStep 0x000000000000000c 2 s
    let off := if s.2 &&& 0x0000000000000002 ≠ 0 then s.1 + 1 else s.1
    let off := if val.slt 0 then off * -1 else off
    off + 63

/-- The magnitude of a value, as the code computes it. -/
theorem toNat_abs (v : Word) :
    (if (0 : Word).sle v then v else -v).toNat = v.toInt.natAbs := by
  have hint := toInt_eq_toNat_cond v
  simp only [sle_iff_toInt_le, show (0 : Word).toInt = 0 from rfl]
  split
  · split at hint <;> omega
  · rw [toNat_neg]
    split at hint <;> omega

def dtAggLqbin (val : Word) (base : BitVec 32) (levels step : Word) : Word :=
  if step = 0 ∨ val.slt (base.signExtend 64) then 0
  else
    let level := (val - base.signExtend 64) / step
    let level := if level > levels then levels else level
    level + 1

/-- The loop over the logarithmic ranges: the range `tmp` is in with its upper end, or the one
after the last. -/
def llqLoop (factor tmp : Word) : Nat → Nat → Word → Nat × Option Word
  | 0, mag, max => if tmp < max * factor then (mag, some (max * factor)) else (mag + 1, none)
  | n + 1, mag, max =>
    if tmp < max * factor then (mag, some (max * factor))
    else llqLoop factor tmp n (mag + 1) (max * factor)

/-- The code of `dt_cg_agg_llquantize_bin`. -/
def dtCgAggLlquantizeBin (factor lmag hmag steps : Nat) (val : Word) : Word :=
  let stepsFactor := steps / factor
  let underflowBin := 1 + (hmag - lmag + 1) * (steps - stepsFactor)
  let tmp := if (0 : Word).sle val then val else val * -1
  let max : Word := .ofNat 64 (factor ^ lmag)
  if tmp < max then .ofNat 64 underflowBin
  else
    let (mag, max) := llqLoop (.ofNat 64 factor) tmp (hmag - lmag) lmag max
    let ind : Word :=
      match max with
      | none => 0
      | some max =>
        (if mag = 0 then tmp * .ofNat 64 steps / max else tmp / (max / .ofNat 64 steps))
          - .ofNat 64 stepsFactor
    let bin := .ofNat 64 (mag - lmag) * .ofNat 64 (steps - stepsFactor) + ind + 1
    let bin := if (0 : Word).sle val then bin else bin * -1
    bin + .ofNat 64 underflowBin

/-! ## Updates -/

/-- `BPF_XADD` on one data word. -/
def xadd (i : Nat) (x : Word) (dst : List Word) : List Word := dst.modify i (· + x)

def dtCgAggAvgImpl (vreg : Word) (dst : List Word) : List Word := xadd 1 vreg (xadd 0 1 dst)

def dtCgAggCountImpl (dst : List Word) : List Word := xadd 0 1 dst

def dtCgAggSumImpl (vreg : Word) (dst : List Word) : List Word := xadd 0 vreg dst

def dtCgAggMaxImpl (vreg : Word) (dst : List Word) : List Word :=
  dst.modify 0 fun treg => if vreg.sle treg then treg else vreg

def dtCgAggMinImpl (vreg : Word) (dst : List Word) : List Word :=
  dst.modify 0 fun treg => if treg.sle vreg then treg else vreg

/-- A bin above `maxbin` is not counted; the test for one below zero is an unsigned one. -/
def dtCgAggQuantizeImpl (maxbin : Nat) (vreg ireg : Word) (dst : List Word) : List Word :=
  if vreg > .ofNat 64 maxbin ∨ vreg < 0 then dst else xadd vreg.toNat ireg dst

/-- The square of a value as the code of `dt_cg_agg_stddev` computes it, high word first. -/
def stddevSquare (val : Word) : Word × Word :=
  let lowreg := if (0 : Word).sle val then val else -val
  let hiReg := lowreg >>> 32
  let lowreg := (lowreg <<< 32) >>> 32
  let midreg := lowreg * hiReg
  let lowreg := lowreg * lowreg
  let hiReg := hiReg * hiReg
  let lmdreg := midreg <<< 33
  let midreg := midreg >>> 31
  let lowreg := lowreg + lmdreg
  let hiReg := if lmdreg < lowreg then hiReg else hiReg + 1
  (hiReg + midreg, lowreg)

def dtCgAggStddevImpl (vreg hreg lreg : Word) (dst : List Word) : List Word :=
  let dst := xadd 1 vreg (xadd 0 1 dst)
  let lowreg := dst.getD 2 0 + lreg
  let dst := if lreg ≤ lowreg then dst else xadd 3 1 dst
  xadd 3 hreg (dst.set 2 lowreg)

namespace AggFunc

/-- The number of data words. -/
def size : AggFunc → Nat
  | avg => 2
  | count | max | min | sum => 1
  | stddev => 4
  | quantize => 127
  | lquantize _ levels _ => levels + 2
  | llquantize factor lmag hmag steps => (hmag - lmag + 1) * (steps - steps / factor) * 2 + 3

/-- The initial value passed to `dt_get_agg`. -/
def ival : AggFunc → Word
  | max => BitVec.intMin 64
  | min => BitVec.intMax 64
  | _ => 0

def update (f : AggFunc) (x : Input) (dst : List Word) : List Word :=
  match f with
  | avg => dtCgAggAvgImpl x.value dst
  | count => dtCgAggCountImpl dst
  | max => dtCgAggMaxImpl x.value dst
  | min => dtCgAggMinImpl x.value dst
  | sum => dtCgAggSumImpl x.value dst
  | stddev =>
    let sq := stddevSquare x.value
    dtCgAggStddevImpl x.value sq.1 sq.2 dst
  | quantize => dtCgAggQuantizeImpl 126 (.ofInt 64 (dtAggQbin x.value)) x.incr dst
  | lquantize base levels step =>
    dtCgAggQuantizeImpl (levels + 1)
      (dtAggLqbin x.value base (.ofNat 64 levels) (.ofNat 64 step)) x.incr dst
  | llquantize factor lmag hmag steps =>
    dtCgAggQuantizeImpl ((hmag - lmag + 1) * (steps - steps / factor) * 2 + 2)
      (dtCgAggLlquantizeBin factor lmag hmag steps x.value) x.incr dst

/-- Fresh data, as `dt_get_agg` sets it up: zeroes, and the initial value if there is one. -/
def init (f : AggFunc) : List Word :=
  let zeroes := List.replicate f.size 0
  if f.ival ≠ 0 then zeroes.set 0 f.ival else zeroes

/-- The data words after `dt_aggregate_clear_one`. -/
def clear (f : AggFunc) (vals : List Word) : List Word :=
  match f with
  | min => vals.set 0 (BitVec.intMax 64)
  | max => vals.set 0 (BitVec.intMin 64)
  | _ => List.replicate f.size 0

end AggFunc

/-- The data of another CPU is merged into `dvals`. -/
def dtAggOneAgg (f : AggFunc) (dvals svals : List Word) : List Word :=
  match f with
  | .max => dvals.modify 0 fun d => if d.slt (svals.getD 0 0) then svals.getD 0 0 else d
  | .min => dvals.modify 0 fun d => if (svals.getD 0 0).slt d then svals.getD 0 0 else d
  | _ => zipWith (· + ·) dvals svals

/-! ## Merging is aggregating -/

/-- An update that adds to the data words, whatever they hold. -/
structure Adds (u : List Word → List Word) : Prop where
  length : ∀ dst, (u dst).length = dst.length
  zipWith : ∀ a b, a.length = b.length →
    zipWith (· + ·) a (u b) = u (zipWith (· + ·) a b)

theorem adds_xadd (i : Nat) (x : Word) : Adds (xadd i x) where
  length dst := by simp [xadd]
  zipWith a b h := zipWith_add_modify a b i x h

theorem Adds.comp {u v : List Word → List Word} (hu : Adds u) (hv : Adds v) :
    Adds fun dst => u (v dst) where
  length dst := by rw [hu.length, hv.length]
  zipWith a b h := by rw [hu.zipWith a _ (h.trans (hv.length b).symm), hv.zipWith a b h]

theorem adds_quantizeImpl (maxbin : Nat) (vreg ireg : Word) :
    Adds (dtCgAggQuantizeImpl maxbin vreg ireg) := by
  unfold dtCgAggQuantizeImpl
  split
  · exact ⟨fun _ => rfl, fun _ _ _ => rfl⟩
  · exact adds_xadd _ _

variable {update : Input → List Word → List Word}

theorem mergeLaws_of_adds {n : Nat}
    (h : ∀ x, Adds (update x)) :
    MergeLaws (·.length = n) (List.replicate n 0) update (List.zipWith (· + ·)) where
  good_init := length_replicate
  good_update x a ha := ((h x).length a).trans ha
  comm a b _ _ := zipWith_add_comm a b
  merge_init _ ha := zipWith_add_zero ha
  merge_update x a b ha hb := (h x).zipWith a b (ha.trans hb.symm)

/-- A single data word, to which `op` is applied. -/
theorem mergeLaws_of_word (op : Word → Word → Word)
    {merge : List Word → List Word → List Word} {init : Word}
    (hupdate : ∀ x d, update x [d] = [op d x.value]) (hmerge : ∀ d s, merge [d] [s] = [op d s])
    (hcomm : ∀ a b, op a b = op b a) (hassoc : ∀ a b c, op a (op b c) = op (op a b) c)
    (hinit : ∀ a, op a init = a) :
    MergeLaws (·.length = 1) [init] update merge where
  good_init := rfl
  good_update x a ha := by
    obtain ⟨d, rfl⟩ := length_eq_one_iff.mp ha
    rw [hupdate]
    rfl
  comm a b ha hb := by
    obtain ⟨d, rfl⟩ := length_eq_one_iff.mp ha
    obtain ⟨s, rfl⟩ := length_eq_one_iff.mp hb
    rw [hmerge, hmerge, hcomm]
  merge_init a ha := by
    obtain ⟨d, rfl⟩ := length_eq_one_iff.mp ha
    rw [hmerge, hinit]
  merge_update x a b ha hb := by
    obtain ⟨d, rfl⟩ := length_eq_one_iff.mp ha
    obtain ⟨s, rfl⟩ := length_eq_one_iff.mp hb
    rw [hupdate, hmerge, hmerge, hupdate, hassoc]

/-- The larger of two words, signed. -/
def smax (a b : Word) : Word := if a.slt b then b else a

def smin (a b : Word) : Word := if b.slt a then b else a

theorem toInt_smax (a b : Word) : (smax a b).toInt = Max.max a.toInt b.toInt := by
  unfold smax
  simp only [slt_iff_toInt_lt]
  split <;> omega

theorem toInt_smin (a b : Word) : (smin a b).toInt = Min.min a.toInt b.toInt := by
  unfold smin
  simp only [slt_iff_toInt_lt]
  split <;> omega

theorem intMin_le_toInt (a : Word) : (BitVec.intMin 64).toInt ≤ a.toInt := by
  have := a.le_toInt
  simpa [toInt_intMin] using this

theorem toInt_le_intMax (a : Word) : a.toInt ≤ (BitVec.intMax 64).toInt := by
  have := a.toInt_lt
  simp [toInt_intMax] at ⊢
  omega

theorem maxImpl_eq (v d : Word) : dtCgAggMaxImpl v [d] = [smax d v] := by
  have hiff : v.sle d = true ↔ ¬(d.slt v = true) := by
    rw [sle_iff_toInt_le, slt_iff_toInt_lt]
    omega
  unfold dtCgAggMaxImpl smax
  by_cases h : d.slt v = true <;> simp [hiff, h]

theorem minImpl_eq (v d : Word) : dtCgAggMinImpl v [d] = [smin d v] := by
  have hiff : d.sle v = true ↔ ¬(v.slt d = true) := by
    rw [sle_iff_toInt_le, slt_iff_toInt_lt]
    omega
  unfold dtCgAggMinImpl smin
  by_cases h : v.slt d = true <;> simp [hiff, h]

/-- **Merging**: for every aggregating function but `stddev`, merging the data of two parts of
the input is aggregating both parts. -/
theorem mergeLaws {f : AggFunc} (hf : f ≠ .stddev) :
    MergeLaws (·.length = f.size) f.init f.update (dtAggOneAgg f) := by
  cases f with
  | stddev => exact absurd rfl hf
  | max =>
    refine mergeLaws_of_word smax (fun x d => maxImpl_eq x.value d) (fun d s => rfl)
      (fun a b => ?_) (fun a b c => ?_) (fun a => ?_)
    · rw [← toInt_inj, toInt_smax, toInt_smax, max_comm]
    · simp only [← toInt_inj, toInt_smax, max_assoc]
    · rw [← toInt_inj, toInt_smax]
      exact max_eq_left (intMin_le_toInt a)
  | min =>
    refine mergeLaws_of_word smin (fun x d => minImpl_eq x.value d) (fun d s => rfl)
      (fun a b => ?_) (fun a b c => ?_) (fun a => ?_)
    · rw [← toInt_inj, toInt_smin, toInt_smin, min_comm]
    · simp only [← toInt_inj, toInt_smin, min_assoc]
    · rw [← toInt_inj, toInt_smin]
      exact min_eq_left (toInt_le_intMax a)
  | avg => exact mergeLaws_of_adds fun x => (adds_xadd 1 x.value).comp (adds_xadd 0 1)
  | count => exact mergeLaws_of_adds fun _ => adds_xadd 0 1
  | sum => exact mergeLaws_of_adds fun x => adds_xadd 0 x.value
  | quantize | lquantize | llquantize =>
    exact mergeLaws_of_adds fun x => adds_quantizeImpl _ _ x.incr

end DTrace.Agg
