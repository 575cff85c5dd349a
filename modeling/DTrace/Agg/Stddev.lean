import DTrace.Agg.Wide
import Mathlib.Algebra.BigOperators.Group.List.Basic

/-!
# Data of `stddev()`

The data words of `stddev()` are a count, a sum, and the sum of squares in two words.

* **`square_exact_iff`** — the code computes the square of a value exactly if the low half of the
  value is not zero; otherwise the test for a carry takes two equal numbers for one.
* **`merge_exact_iff`** — the consumer adds the words of several CPUs one by one, so a carry between
  the last two is lost.
-/

namespace DTrace.Agg

open List
open BitVec hiding or_self

/-- The square of a value as the code computes it. -/
def square (v : Word) : Wide := ⟨(stddevSquare v).2, (stddevSquare v).1⟩

/-- The data words of a count, a sum and a sum of squares. -/
def sums (count sum : Word) (squares : Nat) : List Word :=
  [count, sum, .ofNat 64 squares, .ofNat 64 (squares / 2 ^ 64)]

/-- The sum of squares in the data words. -/
def sumOfSquares (dst : List Word) : Wide := ⟨dst.getD 2 0, dst.getD 3 0⟩

/-- The data of one CPU after some values. -/
def aggregated (values : List Word) : List Word :=
  values.foldl (fun dst v => AggFunc.stddev.update ⟨v, 0⟩ dst) AggFunc.stddev.init

/-- The data of all CPUs, merged by the consumer. -/
def merged (cpus : List (List Word)) : List Word :=
  cpus.foldl (fun dst values => dtAggOneAgg .stddev dst (aggregated values)) AggFunc.stddev.init

/-- The exact sum of the squares. -/
def exactSquares (values : List Word) : Nat := (values.map fun v => v.toInt.natAbs ^ 2).sum

/-! ## Squares -/

/-- The sum of the products, in two words: `x`, `y` and `z` are those of the low halves, of both,
and of the high halves. -/
theorem square_words {x y z : Nat} (hx : x < 2 ^ 64) (hy : y ≤ 2 ^ 63) (hz : z ≤ 2 ^ 62)
    (h0 : x = 0 → y = 0) :
    (((if y * 2 ^ 33 % 2 ^ 64 < (x + y * 2 ^ 33 % 2 ^ 64) % 2 ^ 64 then z else (z + 1) % 2 ^ 64) +
        y / 2 ^ 31) % 2 ^ 64) * 2 ^ 64 + (x + y * 2 ^ 33 % 2 ^ 64) % 2 ^ 64 =
      z * 2 ^ 64 + y * 2 ^ 33 + x + if x = 0 then 2 ^ 64 else 0 := by
  by_cases hx0 : x = 0
  · have hy0 := h0 hx0
    rw [if_pos hx0, if_neg (by omega)]
    omega
  · rw [if_neg hx0]
    split <;> omega

/-- **The square**: one too much in the high word if the low half of the value is zero. -/
theorem val_square (v : Word) :
    (square v).val = v.toInt.natAbs ^ 2 + if v.toNat % 2 ^ 32 = 0 then 2 ^ 64 else 0 := by
  have hint := toInt_eq_toNat_cond v
  have hlow : v.toInt.natAbs % 2 ^ 32 = 0 ↔ v.toNat % 2 ^ 32 = 0 := by split at hint <;> omega
  have hle : v.toInt.natAbs ≤ 2 ^ 63 := by
    have hv := v.isLt
    split at hint <;> omega
  rw [← if_congr hlow rfl rfl, ← toNat_abs v]
  rw [← toNat_abs v] at hle
  clear hint hlow
  unfold square stddevSquare
  dsimp only
  generalize (if (0 : Word).sle v then v else -v) = w at hle ⊢
  -- the two halves of the absolute value, and their products
  have hh : (w >>> 32).toNat = w.toNat / 2 ^ 32 := toNat_hi w
  have hl : ((w <<< 32) >>> 32).toNat = w.toNat % 2 ^ 32 := by
    rw [toNat_hi, toNat_shiftLeft, Nat.shiftLeft_eq]
    omega
  generalize w >>> 32 = h at hh ⊢
  generalize (w <<< 32) >>> 32 = l at hl ⊢
  have hl32 : l.toNat < 2 ^ 32 := by omega
  have hh31 : h.toNat ≤ 2 ^ 31 := by omega
  have hh32 : h.toNat < 2 ^ 32 := by omega
  have hw : w.toNat ^ 2 = h.toNat * h.toNat * 2 ^ 64 + l.toNat * h.toNat * 2 ^ 33 +
      l.toNat * l.toNat := by
    rw [show w.toNat = h.toNat * 2 ^ 32 + l.toNat by omega]
    ring
  have hll := toNat_mul_half hl32 hl32
  have hx := (l * l).isLt
  have hy : l.toNat * h.toNat ≤ 2 ^ 32 * 2 ^ 31 := Nat.mul_le_mul hl32.le hh31
  have hz : h.toNat * h.toNat ≤ 2 ^ 31 * 2 ^ 31 := Nat.mul_le_mul hh31 hh31
  have hzero : l.toNat * l.toNat = 0 ↔ w.toNat % 2 ^ 32 = 0 := by
    rw [← hl, Nat.mul_eq_zero, or_self]
  have hwords := square_words (hll ▸ hx) hy hz fun h0 => by
    rw [(Nat.mul_eq_zero.mp h0).elim id id, Nat.zero_mul]
  rw [hw, ← if_congr hzero rfl rfl, ← hwords, Wide.val, toNat_add, toNat_add]
  simp only [lt_def, apply_ite BitVec.toNat, toNat_add, toNat_shiftLeft,
    Nat.shiftLeft_eq, toNat_ushiftRight, Nat.shiftRight_eq_div_pow, hll,
    toNat_mul_half hl32 hh32, toNat_mul_half hh32 hh32]
  rfl

/-! ## One value more -/

/-- The code of `dt_cg_agg_stddev_impl` adds to the sum of squares with the carry. -/
theorem update_sums (x : Input) (count sum : Word) (t : Nat) :
    AggFunc.stddev.update x (sums count sum t) =
      sums (count + 1) (sum + x.value) (t + (square x.value).val) := by
  obtain ⟨v, _⟩ := x
  have hsq : square v = ⟨(stddevSquare v).2, (stddevSquare v).1⟩ := rfl
  show dtCgAggStddevImpl v (stddevSquare v).1 (stddevSquare v).2 (sums count sum t) = _
  rw [hsq]
  generalize (stddevSquare v).1 = h
  generalize (stddevSquare v).2 = l
  have hlow : BitVec.ofNat 64 t + l = BitVec.ofNat 64 (t + Wide.val ⟨l, h⟩) := by
    apply eq_of_toNat_eq
    rw [toNat_add, toNat_ofNat, toNat_ofNat, Wide.val_mk]
    omega
  have hhigh : BitVec.ofNat 64 (t / 2 ^ 64) + (if l ≤ BitVec.ofNat 64 t + l then 0 else 1) + h =
      BitVec.ofNat 64 ((t + Wide.val ⟨l, h⟩) / 2 ^ 64) := by
    apply eq_of_toNat_eq
    simp only [toNat_add, toNat_ofNat, le_def, apply_ite BitVec.toNat,
      Wide.val_mk, show (0 : Word).toNat = 0 from rfl, show (1 : Word).toNat = 1 from rfl]
    split <;> omega
  rw [sums, sums, ← hlow, ← hhigh]
  by_cases hle : l ≤ BitVec.ofNat 64 t + l
  · rw [if_pos hle, show ∀ w : Word, w + 0 = w from add_zero]
    simp [dtCgAggStddevImpl, xadd, hle]
  · rw [if_neg hle]
    simp [dtCgAggStddevImpl, xadd, hle]

theorem sums_val (dst : List Word) (h : dst.length = 4) :
    dst = sums (dst.getD 0 0) (dst.getD 1 0) (sumOfSquares dst).val := by
  match dst, h with
  | [count, sum, lo, hi], _ =>
    have h2 : BitVec.ofNat 64 (Wide.val ⟨lo, hi⟩) = lo := by
      apply eq_of_toNat_eq
      rw [toNat_ofNat, Wide.val_mk]
      omega
    have h3 : BitVec.ofNat 64 (Wide.val ⟨lo, hi⟩ / 2 ^ 64) = hi := by
      apply eq_of_toNat_eq
      rw [toNat_ofNat, Wide.val_mk]
      omega
    show _ = [count, sum, _, _]
    rw [show sumOfSquares [count, sum, lo, hi] = ⟨lo, hi⟩ from rfl, h2, h3]

theorem val_sumOfSquares (count sum : Word) (t : Nat) :
    (sumOfSquares (sums count sum t)).val = t % 2 ^ 128 := by
  show Wide.val ⟨BitVec.ofNat 64 t, BitVec.ofNat 64 (t / 2 ^ 64)⟩ = _
  rw [Wide.val, toNat_ofNat, toNat_ofNat]
  omega

/-- **Squares.** The code finds the exact square exactly if the low half of the value is not zero;
it adds what it finds to the sum of squares. -/
theorem square_exact_iff (v : Word) :
    (((square v).val : Int) = v.toInt * v.toInt ∧
      ∀ (incr : Word) (dst : List Word), dst.length = 4 →
        (sumOfSquares (AggFunc.stddev.update ⟨v, incr⟩ dst)).val =
          ((sumOfSquares dst).val + (square v).val) % 2 ^ 128) ↔
      v.toNat % 2 ^ 32 ≠ 0 := by
  have hadds : ∀ (incr) (dst), dst.length = 4 →
      (sumOfSquares (AggFunc.stddev.update ⟨v, incr⟩ dst)).val =
        ((sumOfSquares dst).val + (square v).val) % 2 ^ 128 := fun incr dst h => by
    rw [sums_val dst h, update_sums, val_sumOfSquares, val_sumOfSquares, Nat.mod_add_mod]
  rw [and_iff_left hadds, val_square, ← Int.natAbs_mul_self, ← Nat.pow_two]
  split <;> omega

/-- The square of 0 comes out as 2⁶⁴. -/
theorem square_zero_wrong : (square 0).val = 2 ^ 64 ∧ (0 : Word).toInt * (0 : Word).toInt = 0 := by
  decide

/-! ## Merging -/

/-- The sum of the squares as the code computes them. -/
def codeSquares (values : List Word) : Nat := (values.map fun v => (square v).val).sum

theorem aggregated_eq (values : List Word) :
    aggregated values = sums (.ofNat 64 values.length) values.sum (codeSquares values) := by
  have hfold : ∀ (count sum : Word) (t : Nat),
      values.foldl (fun dst v => AggFunc.stddev.update ⟨v, 0⟩ dst) (sums count sum t) =
        sums (count + .ofNat 64 values.length) (sum + values.sum) (t + codeSquares values) := by
    induction values with
    | nil => simp [codeSquares]
    | cons v values ih =>
      intro count sum t
      have hcons : codeSquares (v :: values) = (square v).val + codeSquares values := sum_cons
      rw [foldl_cons, update_sums, ih, length_cons, sum_cons, hcons, add_assoc,
        add_assoc, add_assoc, ofNat_add, add_comm (BitVec.ofNat 64 values.length)]
      rfl
  have h := hfold 0 0 0
  rw [zero_add, zero_add, Nat.zero_add] at h
  exact h

theorem codeSquares_append (xs ys : List Word) :
    codeSquares (xs ++ ys) = codeSquares xs + codeSquares ys := by
  rw [codeSquares, map_append, sum_append]
  rfl

/-- The words of all CPUs are added one by one. -/
theorem merged_eq (cpus : List (List Word)) :
    merged cpus = [.ofNat 64 cpus.flatten.length, cpus.flatten.sum,
      .ofNat 64 (codeSquares cpus.flatten),
      .ofNat 64 (cpus.map fun values => codeSquares values / 2 ^ 64).sum] := by
  have hfold : ∀ (count sum) (t u),
      cpus.foldl (fun dst values => dtAggOneAgg .stddev dst (aggregated values))
        [count, sum, .ofNat 64 t, .ofNat 64 u] =
        [count + .ofNat 64 cpus.flatten.length, sum + cpus.flatten.sum,
          .ofNat 64 (t + codeSquares cpus.flatten),
          .ofNat 64 (u + (cpus.map fun values => codeSquares values / 2 ^ 64).sum)] := by
    induction cpus with
    | nil => simp [codeSquares]
    | cons values cpus ih =>
      intro count sum t u
      have hone : dtAggOneAgg .stddev [count, sum, .ofNat 64 t, .ofNat 64 u] (aggregated values) =
          [count + .ofNat 64 values.length, sum + values.sum,
            .ofNat 64 (t + codeSquares values), .ofNat 64 (u + codeSquares values / 2 ^ 64)] := by
        rw [aggregated_eq, ofNat_add t, ofNat_add u]
        rfl
      rw [foldl_cons, hone, ih, flatten_cons, length_append, sum_append,
        codeSquares_append, map_cons, sum_cons, add_assoc, add_assoc, Nat.add_assoc,
        Nat.add_assoc, ofNat_add values.length]
  have h := hfold 0 0 0 0
  rw [zero_add, zero_add, Nat.zero_add, Nat.zero_add] at h
  exact h

/-- What is wrong with the squares is a number of whole high words. -/
theorem codeSquares_mod (values : List Word) :
    codeSquares values % 2 ^ 64 = exactSquares values % 2 ^ 64 := by
  induction values with
  | nil => rfl
  | cons v values ih =>
    have hv : (square v).val % 2 ^ 64 = v.toInt.natAbs ^ 2 % 2 ^ 64 := by
      rw [val_square]
      split <;> omega
    simp only [codeSquares, exactSquares, map_cons, sum_cons] at ih ⊢
    rw [Nat.add_mod, hv, ih, ← Nat.add_mod]

/-- The low words of the CPUs, and what their carries amount to. -/
theorem codeSquares_flatten (cpus : List (List Word)) :
    codeSquares cpus.flatten = (cpus.map fun values => codeSquares values / 2 ^ 64).sum * 2 ^ 64 +
      (cpus.map fun values => exactSquares values % 2 ^ 64).sum := by
  induction cpus with
  | nil => rfl
  | cons values cpus ih =>
    have hmod := codeSquares_mod values
    rw [flatten_cons, codeSquares_append, map_cons, map_cons, sum_cons,
      sum_cons]
    omega

theorem sum_mod_le_exactSquares (cpus : List (List Word)) :
    (cpus.map fun values => exactSquares values % 2 ^ 64).sum ≤ exactSquares cpus.flatten := by
  induction cpus with
  | nil => exact Nat.le_refl 0
  | cons values cpus ih =>
    have happend : exactSquares (values ++ cpus.flatten) =
        exactSquares values + exactSquares cpus.flatten := by
      rw [exactSquares, map_append, sum_append]
      rfl
    rw [flatten_cons, happend]
    exact Nat.add_le_add (Nat.mod_le _ _) ih

/-- **Merging.** The data of all CPUs is that of all values on one CPU exactly if the low words of
the sums of squares do not carry. -/
theorem merge_exact_iff {cpus : List (List Word)} {values : List Word}
    (hperm : values.Perm cpus.flatten) (hfit : exactSquares values < 2 ^ 128) :
    merged cpus = aggregated values ↔
      (cpus.map fun values => exactSquares values % 2 ^ 64).sum < 2 ^ 64 := by
  have hexact : exactSquares values = exactSquares cpus.flatten := (hperm.map _).sum_eq
  have hcode : codeSquares values = codeSquares cpus.flatten := (hperm.map _).sum_eq
  have hle := sum_mod_le_exactSquares cpus
  rw [merged_eq, aggregated_eq, hperm.length_eq, hperm.sum_eq, hcode, sums]
  simp only [List.cons.injEq, true_and, and_true]
  rw [← toNat_inj, toNat_ofNat, toNat_ofNat, codeSquares_flatten]
  omega

/-- Two CPUs with small values. -/
theorem merge_small : merged [[3, -4], [5]] = aggregated [5, 3, -4] :=
  (merge_exact_iff (by decide) (by decide)).mpr (by decide)

/-- 2³² - 1 on each of two CPUs: the carry of the sum of squares is lost. -/
theorem merge_loses_carry :
    merged [[0xffffffff], [0xffffffff]] = [2, 0x1fffffffe, 0xfffffffc00000002, 0] ∧
      aggregated [0xffffffff, 0xffffffff] = [2, 0x1fffffffe, 0xfffffffc00000002, 1] := by
  decide

end DTrace.Agg
