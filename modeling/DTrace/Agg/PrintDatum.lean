import DTrace.Agg.Func

/-!
# Two ways to print an aggregated value

`dt_print_datum` prints the entries of an aggregation by default, and `dt_printf_format` prints
them for a `%@d` conversion, after `dt_printf_validate` has chosen how the number is read. Each
of them divides by the normalization factor, and in an average by the number of values, in types
of its own: the default one divides a sum as an unsigned number, the other one an average.

`printed_iff` says for which values both print the aggregated value over the factor.
-/

namespace DTrace.Agg

open Option BitVec

/-! ## The default -/

/-- `dt_print_average`, with signed divisions. -/
def dtPrintAverage (count sum normal : Word) : Int :=
  if count ≠ 0 then ((sum.sdiv normal).sdiv count).toInt else 0

/-- `dt_print_datum`, for the actions that print one number: the number that `%lld` gets. The cast
to `long long` binds before the division by an unsigned number. -/
def dtPrintDatum (act : AggFunc) (data : List Word) (normal : Word) : Option Int :=
  match act, data with
  | .avg, [count, sum] => some (dtPrintAverage count sum normal)
  | .count, [v] | .sum, [v] | .min, [v] | .max, [v] => some (v / normal).toInt
  | _, _ => none

/-! ## The conversion -/

/-- What `dt_printf_validate` leaves in the descriptor of a conversion: `DT_PFCONV_SIGNED`, and
whether the last letter of the format is `d` and not `u`. -/
structure Pfargd where
  signed : Bool
  fmtSigned : Bool

/-- `pfcheck_dint`, for a node that is signed or not. -/
def pfcheckDint (signed : Bool) : Pfargd := { signed, fmtSigned := signed }

/-- `dt_printf_validate` with the node it makes up for an aggregation: `uint64_t` for `count`,
`int64_t` for the others. -/
def dtPrintfValidate (kind : AggFunc) : Pfargd :=
  pfcheckDint (if kind ≠ .count then true else false)

/-- `pfprint_sint`, for a word. -/
def pfprintSint (data : List Word) (unormal : Word) : Option Word :=
  match data with
  | [v] => some (v.sdiv unormal)
  | _ => none

/-- `pfprint_uint`, for a word. -/
def pfprintUint (data : List Word) (normal : Word) : Option Word :=
  match data with
  | [v] => some (v / normal)
  | _ => none

/-- `pfprint_dint` -/
def pfprintDint (pfd : Pfargd) (data : List Word) (normal : Word) : Option Word :=
  if pfd.signed then pfprintSint data normal else pfprintUint data normal

/-- `pfprint_average`, with unsigned divisions. -/
def pfprintAverage (data : List Word) (normal : Word) : Option Word :=
  match data with
  | [count, sum] => some (if count ≠ 0 then sum / normal / count else 0)
  | _ => none

/-- `dt_printf_format` for `%@d`: the number that is printed. -/
def dtPrintfFormat (act : AggFunc) (data : List Word) (normal : Word) : Option Int := do
  let pfd := dtPrintfValidate act
  let v ← match act with
    | .avg => pfprintAverage data normal
    | .count | .sum | .min | .max => pfprintDint pfd data normal
    | _ => none
  some (if pfd.fmtSigned then v.toInt else v.toNat)

/-! ## The purpose -/

/-- An entry of one of the functions that give one number. An average counts its values. -/
inductive NumberEntry : AggFunc → List Word → Prop
  | count (v : Word) : NumberEntry .count [v]
  | sum (v : Word) : NumberEntry .sum [v]
  | min (v : Word) : NumberEntry .min [v]
  | max (v : Word) : NumberEntry .max [v]
  | avg (count sum : Word) (h : 0 ≤ count.toInt) : NumberEntry .avg [count, sum]

/-- The aggregated value; for an average, the sum over the number of values. -/
def aggValue (act : AggFunc) (data : List Word) : Int :=
  match act, data with
  | .avg, [count, sum] => sum.toInt.tdiv count.toInt
  | _, v :: _ => v.toInt
  | _, [] => 0

/-- Both print what they should. -/
def PrintedRight (act : AggFunc) (data : List Word) (normal : Word) : Prop :=
  dtPrintDatum act data normal = some ((aggValue act data).tdiv normal.toNat) ∧
    dtPrintfFormat act data normal = some ((aggValue act data).tdiv normal.toNat)

/-- The values for which they do. -/
def Printable (act : AggFunc) (data : List Word) (normal : Word) : Prop :=
  match act, data with
  | .count, [v] => 0 ≤ v.toInt
  | .avg, [count, sum] =>
    0 ≤ sum.toInt ∨ count.toNat * normal.toNat ≤ 1 ∨ sum.toNat < count.toNat * normal.toNat
  | _, [v] => 0 ≤ v.toInt ∨ normal = 1
  | _, _ => False

/-! ## Divisions -/

theorem tdiv_tdiv_natCast (a : Int) (m n : Nat) : (a.tdiv m).tdiv n = a.tdiv ↑(m * n) := by
  have hnat : ∀ k : Nat, ((k : Int).tdiv m).tdiv n = (k : Int).tdiv ↑(m * n) := by
    intro k
    rw [← Int.ofNat_tdiv, ← Int.ofNat_tdiv, ← Int.ofNat_tdiv, Nat.div_div_eq_div_mul]
  obtain ⟨k, rfl | rfl⟩ := Int.eq_nat_or_neg a
  · exact hnat k
  · rw [Int.neg_tdiv, Int.neg_tdiv, Int.neg_tdiv, hnat]

theorem tdiv_natCast_nonpos {a : Int} (h : a ≤ 0) (n : Nat) : a.tdiv n ≤ 0 := by
  obtain ⟨k, rfl⟩ : ∃ k : Nat, a = -k := ⟨a.natAbs, by omega⟩
  rw [Int.neg_tdiv]
  exact Int.neg_nonpos_of_nonneg (Int.natCast_nonneg _)

section
variable {v normal : Word}

theorem toInt_of_nonneg (h : 0 ≤ v.toInt) : v.toInt = v.toNat := by
  have := toInt_eq_toNat_cond v
  omega

theorem toNat_of_neg (h : v.toInt < 0) : (v.toNat : Int) = v.toInt + 2 ^ 64 := by
  have := toInt_eq_toNat_cond v
  split at this <;> omega

theorem toInt_of_toNat_lt (h : v.toNat < 2 ^ 63) : v.toInt = v.toNat := by
  rw [toInt_eq_toNat_cond, if_pos (by omega)]

/-- A signed division by a positive number. -/
theorem toInt_sdiv_of_lt (hlt : normal.toNat < 2 ^ 63) :
    (v.sdiv normal).toInt = v.toInt.tdiv normal.toNat := by
  rw [toInt_sdiv_of_ne_or_ne, toInt_of_toNat_lt hlt]
  right
  intro h
  rw [h] at hlt
  exact absurd hlt (by decide)

/-- A number that is not negative over a natural number. -/
theorem tdiv_of_nonneg (h : 0 ≤ v.toInt) (m : Nat) : v.toInt.tdiv m = ↑(v.toNat / m) := by
  rw [toInt_of_nonneg h, Int.ofNat_tdiv]

/-- **An unsigned division** of the word by `m` gives the signed quotient if the number is not
negative, if nothing is divided, or if both quotients are zero. -/
theorem udiv_eq_tdiv_iff {q : Word} {m : Nat} (hm : 0 < m) (hq : q.toNat = v.toNat / m) :
    q.toInt = v.toInt.tdiv m ↔ 0 ≤ v.toInt ∨ m = 1 ∨ v.toNat < m := by
  by_cases hneg : 0 ≤ v.toInt
  · have hv := toInt_of_nonneg hneg
    have hvlt : v.toNat < 2 ^ 63 := by
      have := toInt_lt (x := v)
      omega
    have hle : v.toNat / m ≤ v.toNat := Nat.div_le_self _ _
    refine iff_of_true ?_ (.inl hneg)
    rw [tdiv_of_nonneg hneg, toInt_of_toNat_lt (by omega), hq]
  · have hv := toNat_of_neg (Int.not_le.mp hneg)
    have hvge := le_toInt v
    by_cases h1 : m = 1
    · subst h1
      have heq : q = v := eq_of_toNat_eq (by rw [hq, Nat.div_one])
      refine iff_of_true ?_ (.inr (.inl rfl))
      rw [heq, Int.natCast_one, Int.tdiv_one]
    · -- the quotient as a word is not negative, the signed one is not positive
      have hhalf : v.toNat / m ≤ v.toNat / 2 := Nat.div_le_div_left (by omega) (by decide)
      have hqInt : q.toInt = ↑(v.toNat / m) := by
        rw [toInt_of_toNat_lt (by omega), hq]
      have hle := tdiv_natCast_nonpos (show v.toInt ≤ 0 by omega) m
      rw [hqInt]
      by_cases hlt : v.toNat < m
      · refine iff_of_true ?_ (.inr (.inr hlt))
        obtain ⟨k, hk⟩ : ∃ k : Nat, v.toInt = -k := ⟨v.toInt.natAbs, by omega⟩
        rw [Nat.div_eq_of_lt hlt, hk, Int.neg_tdiv, ← Int.ofNat_tdiv, Nat.div_eq_of_lt (by omega)]
        rfl
      · have hge : 0 < v.toNat / m := Nat.div_pos (by omega) hm
        refine iff_of_false (by omega) ?_
        rintro (h | h | h)
        · exact hneg h
        · exact h1 h
        · exact hlt h

end

/-! ## What is printed -/

section
variable {normal : Word} (hpos : 1 ≤ normal.toNat) (hlt : normal.toNat < 2 ^ 63)
include hpos hlt

/-- One number, divided as an unsigned one. -/
theorem udiv_normal_iff (v : Word) :
    (v / normal).toInt = v.toInt.tdiv normal.toNat ↔ 0 ≤ v.toInt ∨ normal = 1 := by
  rw [udiv_eq_tdiv_iff hpos (toNat_udiv)]
  have hone : normal.toNat = 1 ↔ normal = 1 :=
    ⟨fun h => eq_of_toNat_eq h, fun h => by rw [h]; rfl⟩
  rw [hone]
  constructor
  · rintro (h | h | h)
    · exact .inl h
    · exact .inr h
    · -- a word less than the factor has no sign
      rw [toInt_of_toNat_lt (by omega)]
      exact .inl (by omega)
  · exact fun h => h.imp_right .inl

/-- The number of a count, printed without a sign. -/
theorem unsigned_normal_iff (v : Word) :
    (↑(v / normal).toNat : Int) = v.toInt.tdiv normal.toNat ↔ 0 ≤ v.toInt := by
  constructor
  · intro h
    by_contra hneg
    have hv := toNat_of_neg (Int.not_le.mp hneg)
    have hvge := le_toInt v
    have hle := tdiv_natCast_nonpos (show v.toInt ≤ 0 by omega) normal.toNat
    have hquot : 0 < (v / normal).toNat := by
      exact Nat.div_pos (by omega) hpos
    omega
  · intro h
    rw [tdiv_of_nonneg h, toNat_udiv]

end

/-- The signed average. -/
theorem dtPrintAverage_eq {count sum normal : Word} (hlt : normal.toNat < 2 ^ 63)
    (hcount : 0 ≤ count.toInt) :
    dtPrintAverage count sum normal = (sum.toInt.tdiv count.toInt).tdiv normal.toNat := by
  have hc := toInt_of_nonneg hcount
  have hclt : count.toNat < 2 ^ 63 := by
    have := toInt_lt (x := count)
    omega
  rw [hc, tdiv_tdiv_natCast, dtPrintAverage]
  split
  · rw [toInt_sdiv_of_lt hclt, toInt_sdiv_of_lt hlt, tdiv_tdiv_natCast, Nat.mul_comm]
  · next h =>
    rw [not_not.mp h]
    simp

/-- The unsigned average. -/
theorem pfprintAverage_iff {count normal : Word} (hpos : 1 ≤ normal.toNat)
    (hcount : 0 ≤ count.toInt) (sum : Word) :
    (if count ≠ 0 then sum / normal / count else 0).toInt =
        (sum.toInt.tdiv count.toInt).tdiv normal.toNat ↔
      0 ≤ sum.toInt ∨ count.toNat * normal.toNat ≤ 1 ∨
        sum.toNat < count.toNat * normal.toNat := by
  have hc := toInt_of_nonneg hcount
  rw [hc, tdiv_tdiv_natCast]
  by_cases h0 : count = 0
  · subst h0
    simp
  · have hcpos : 0 < count.toNat := by
      rcases Nat.eq_zero_or_pos count.toNat with h | h
      · exact absurd (eq_of_toNat_eq h) h0
      · exact h
    have hmpos : 0 < count.toNat * normal.toNat := Nat.mul_pos hcpos hpos
    have hq : (sum / normal / count).toNat = sum.toNat / (count.toNat * normal.toNat) := by
      rw [toNat_udiv, toNat_udiv, Nat.div_div_eq_div_mul, Nat.mul_comm]
    rw [if_pos h0, udiv_eq_tdiv_iff hmpos hq]
    have hone : count.toNat * normal.toNat ≤ 1 ↔ count.toNat * normal.toNat = 1 := by omega
    rw [hone]

/-- **Both ways of printing.** For a factor from 1 to `2 ^ 63 - 1` both print the aggregated value
over the factor exactly if the value is `Printable`. -/
theorem printed_iff {act : AggFunc} {data : List Word} (hentry : NumberEntry act data) {normal : Word}
    (hpos : 1 ≤ normal.toNat) (hlt : normal.toNat < 2 ^ 63) :
    PrintedRight act data normal ↔ Printable act data normal := by
  -- sums, minima and maxima differ in nothing
  have hone : ∀ v : Word, (v / normal).toInt = v.toInt.tdiv normal.toNat ∧
      (v.sdiv normal).toInt = v.toInt.tdiv normal.toNat ↔ 0 ≤ v.toInt ∨ normal = 1 := by
    intro v
    rw [udiv_normal_iff hpos hlt, toInt_sdiv_of_lt hlt]
    simp
  cases hentry with
  | count v =>
    refine (and_congr some_inj some_inj).trans ?_
    exact ⟨fun h => (unsigned_normal_iff hpos hlt v).mp h.2, fun h =>
      ⟨(udiv_normal_iff hpos hlt v).mpr (.inl h), (unsigned_normal_iff hpos hlt v).mpr h⟩⟩
  | sum v | min v | max v => exact (and_congr some_inj some_inj).trans (hone v)
  | avg count sum h =>
    refine (and_congr some_inj some_inj).trans ?_
    refine (and_iff_right ?_).trans (pfprintAverage_iff hpos h sum)
    exact dtPrintAverage_eq hlt h

theorem sum_six_printed : PrintedRight .sum [6] 2 :=
  (printed_iff (.sum 6) (by decide) (by decide)).mpr (.inl (by decide))

/-- A sum of -5 over 2, and the average of two values with that sum. -/
theorem negative_not_printed :
    dtPrintDatum .sum [-5] 2 = some 9223372036854775805 ∧ dtPrintfFormat .sum [-5] 2 = some (-2) ∧
      dtPrintDatum .avg [2, -5] 1 = some (-2) ∧
      dtPrintfFormat .avg [2, -5] 1 = some 9223372036854775805 ∧
      (aggValue .sum [-5]).tdiv 2 = -2 ∧ (aggValue .avg [2, -5]).tdiv 1 = -2 := by
  decide

end DTrace.Agg
