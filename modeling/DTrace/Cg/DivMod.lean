import DTrace.Cg.Fault
import DTrace.Cg.CValue

/-!
# Division and remainder — `dt_cg_arithmetic_op`

The block that `dt_cg_arithmetic_op` emits for `/` and `%` once both operands are in registers
(`arithBlock`), against division of integers that truncates toward zero.

* A signed block tests the divisor and leaves through `dt_probe_error` if it is zero. An unsigned
  block has no such test, and the machine gives `0` or the dividend.
* The quotient is right for both signs. The code for the remainder is the code for the quotient:
  it negates the result whenever **one** operand is negative, while the sign of a remainder is
  that of the dividend alone. So a remainder by a negative divisor has the wrong sign.
-/

namespace DTrace.Cg

open LabelCode Bpf BitVec

section
variable {env : Env} {rl rr lbl : Nat} {σ : State}

/-- The tokens `/` and `%`. -/
inductive DivOp where
  | div | mod
  deriving DecidableEq, Repr

def DivOp.alu : DivOp → AluOp
  | .div => .div
  | .mod => .mod

/-- The code for signed operands. -/
theorem arithBlock_signed (op : DivOp) :
    arithBlock op.alu true rl rr lbl = dtCgSignedDivMod op.alu rl rr lbl := by
  cases op <;> rfl

theorem arithBlock_unsigned (op : DivOp) :
    arithBlock op.alu false rl rr lbl = emit (.alu op.alu rl rr) := by
  cases op <;> rfl

/-- The zero test of the signed block. -/
theorem raises_signedDivMod (op : AluOp) (hlbl : 0 < lbl) (h : σ.regs rr = 0) :
    Raises env (dtCgSignedDivMod op rl rr lbl) σ dtraceFltDivZero := by
  have hcode : dtCgSignedDivMod op rl rr lbl = [⟨0, .branchImm .jne rr 0 (lbl + 5)⟩] ++
      (dtCgProbeError dtraceFltDivZero 0 ++
        ⟨lbl + 5, .nop⟩ :: dtCgSignedSteps op rl rr lbl) := by
    simp [dtCgSignedDivMod, emit, emitl]
  rw [hcode]
  refine Raises.of_frag (Frag.single (exec_branchImm_not ?_))
    ((raises_probeError dtraceFltDivZero 0 σ).append _) rfl ?_
  · simp [JmpOp.eval, h]
  · simp [labels_cons_pos, labels_signedSteps op rl rr hlbl]

/-- A zero divisor is reported exactly by the signed code. -/
theorem raises_arithBlock_iff (op : DivOp) (signed : Bool) (hlbl : 0 < lbl) (h : σ.regs rr = 0) :
    Raises env (arithBlock op.alu signed rl rr lbl) σ dtraceFltDivZero ↔ signed = true := by
  cases signed with
  | true =>
    rw [arithBlock_signed]
    exact iff_of_true (raises_signedDivMod op.alu hlbl h) rfl
  | false =>
    rw [arithBlock_unsigned]
    refine iff_of_false (fun hr => hr.not_frag (Frag.single rfl)) (by decide)

/-! ## Values -/

theorem toInt_eq_zero_iff (b : BitVec 64) : b.toInt = 0 ↔ b = 0 :=
  ⟨fun h => eq_of_toInt_eq (by rw [h]; rfl), fun h => by rw [h]; rfl⟩

theorem toInt_signedDivMod_div {l r : BitVec 64}
    (h : ¬ (l = BitVec.intMin 64 ∧ r = BitVec.allOnes 64)) :
    (signedDivMod .div l r).toInt = l.toInt.tdiv r.toInt := by
  rw [signedDivMod_div]
  apply toInt_sdiv_of_ne_or_ne
  by_cases hl : l = BitVec.intMin 64
  · exact .inr fun hr => h ⟨hl, hr⟩
  · exact .inl hl

theorem slt_zero_iff_toInt (r : BitVec 64) : r.slt 0 = true ↔ r.toInt < 0 := by
  rw [slt_iff_toInt_lt]
  rfl

/-- The remainder is right for a positive divisor, and otherwise when there is none. -/
theorem toInt_signedDivMod_mod_iff {l r : BitVec 64} (hr : r ≠ 0) :
    (signedDivMod .mod l r).toInt = l.toInt.tmod r.toInt ↔
      0 < r.toInt ∨ r.toInt ∣ l.toInt := by
  have hr0 : r.toInt ≠ 0 := fun h => hr ((toInt_eq_zero_iff r).mp h)
  cases hs : r.slt 0 with
  | false =>
    have hnot : ¬ r.toInt < 0 := fun h => by
      rw [(slt_zero_iff_toInt r).mpr h] at hs
      cases hs
    rw [signedDivMod_mod_of_nonneg hs, toInt_srem]
    exact iff_of_true rfl (.inl (by omega))
  | true =>
    have hneg := (slt_zero_iff_toInt r).mp hs
    rw [signedDivMod_mod_of_neg hs, ← toInt_srem, toInt_inj, neg_srem_eq_iff hr,
      ← toInt_eq_zero_iff, toInt_srem, ← Int.dvd_iff_tmod_eq_zero]
    exact ⟨.inr, fun h => h.resolve_left (by omega)⟩

/-! ## The blocks -/

/-- What `/` and `%` of the operands in `rl` and `rr` should do: report a zero divisor, and for
signed operands leave the quotient and the remainder. The quotient of the least integer by `-1`
is not one of 64 bits. -/
structure DividesRight (env : Env) (signed : Bool) (rl rr lbl : Nat) (σ : State) : Prop where
  zero : σ.regs rr = 0 → ∀ op : DivOp,
    Raises env (arithBlock op.alu signed rl rr lbl) σ dtraceFltDivZero
  exact : signed = true → σ.regs rr ≠ 0 →
    ¬ (σ.regs rl = BitVec.intMin 64 ∧ σ.regs rr = BitVec.allOnes 64) →
    ∃ σq σm, Frag (exec env) (arithBlock .div signed rl rr lbl) σ σq ∧
      Frag (exec env) (arithBlock .mod signed rl rr lbl) σ σm ∧
      (σq.regs rl).toInt = (σ.regs rl).toInt.tdiv (σ.regs rr).toInt ∧
      (σm.regs rl).toInt = (σ.regs rl).toInt.tmod (σ.regs rr).toInt ∧
      (σ.regs rl).toInt = (σq.regs rl).toInt * (σ.regs rr).toInt + (σm.regs rl).toInt

/-- The quotient and the remainder the signed code leaves. -/
theorem frag_signedDivMod_both (env : Env) (σ : State) (hne : rl ≠ rr) (hlbl : 0 < lbl) (h : σ.regs rr ≠ 0) :
    ∃ σq σm, Frag (exec env) (arithBlock .div true rl rr lbl) σ σq ∧
      Frag (exec env) (arithBlock .mod true rl rr lbl) σ σm ∧
      σq.regs rl = signedDivMod .div (σ.regs rl) (σ.regs rr) ∧
      σm.regs rl = signedDivMod .mod (σ.regs rl) (σ.regs rr) := by
  obtain ⟨σq, fq, hq, -⟩ := frag_signedDivMod env .div hne hlbl σ h
  obtain ⟨σm, fm, hm, -⟩ := frag_signedDivMod env .mod hne hlbl σ h
  exact ⟨σq, σm, fq, fm, hq, hm⟩

/-- **Division and remainder are right exactly when** a zero divisor has signed operands and a
signed divisor is positive or divides the dividend. -/
theorem dividesRight_iff (env : Env) (signed : Bool) {rl rr lbl : Nat} (hne : rl ≠ rr)
    (hlbl : 0 < lbl) (σ : State) :
    DividesRight env signed rl rr lbl σ ↔
      (σ.regs rr = 0 → signed = true) ∧
      (signed = true → σ.regs rr ≠ 0 →
        0 < (σ.regs rr).toInt ∨ (σ.regs rr).toInt ∣ (σ.regs rl).toInt) := by
  constructor
  · intro h
    refine ⟨fun h0 => (raises_arithBlock_iff .div signed hlbl h0).mp (h.zero h0 .div), ?_⟩
    rintro rfl h0
    by_cases hmin : σ.regs rl = BitVec.intMin 64 ∧ σ.regs rr = BitVec.allOnes 64
    · -- everything is a multiple of `-1`
      refine .inr ?_
      rw [hmin.2]
      exact Int.dvd_iff_emod_eq_zero.mpr (by simp)
    · obtain ⟨-, σm, -, fm, -, hm, -⟩ := h.exact rfl h0 hmin
      obtain ⟨-, _, -, fm', -, hm'⟩ := frag_signedDivMod_both env σ hne hlbl h0
      obtain rfl := Runs.unique fm.runs fm'.runs
      rw [hm'] at hm
      exact (toInt_signedDivMod_mod_iff h0).mp hm
  · rintro ⟨hzero, hexact⟩
    refine ⟨fun h0 op => (raises_arithBlock_iff op signed hlbl h0).mpr (hzero h0), ?_⟩
    rintro rfl h0 hmin
    obtain ⟨σq, σm, fq, fm, hq, hm⟩ := frag_signedDivMod_both env σ hne hlbl h0
    have hqv := toInt_signedDivMod_div hmin
    have hmv := (toInt_signedDivMod_mod_iff h0).mpr (hexact rfl h0)
    refine ⟨σq, σm, fq, fm, by rw [hq, hqv], by rw [hm, hmv], ?_⟩
    rw [hq, hqv, hm, hmv]
    exact (Int.tdiv_mul_add_tmod _ _).symm

end

/-! ## An instance -/

/-- A machine with `l` in `%r1` and `r` in `%r2`. -/
def operands (l r : BitVec 64) : State where
  regs n := if n = 1 then l else if n = 2 then r else 0
  stack _ := 0
  mem _ := 0

/-- An environment in which every call returns `0`. -/
def quietEnv : Env := ⟨fun _ _ _ => some 0, fun _ _ _ _ => 0⟩

/-- `-7 / 2` and `-7 % 2`. -/
theorem minus_seven_by_two : DividesRight quietEnv true 1 2 1 (operands (-7) 2) :=
  (dividesRight_iff quietEnv true (by decide) (by decide) (operands (-7) 2)).mpr
    ⟨by decide, fun _ _ => .inl (by decide)⟩

/-- `5 % -3` is `-2`, and `5 / 0` of unsigned operands reports no fault. -/
theorem five_by_minus_three : ¬ DividesRight quietEnv true 1 2 1 (operands 5 (-3)) ∧
    ¬ DividesRight quietEnv false 1 2 1 (operands 5 0) := by
  constructor
  · intro h
    obtain ⟨-, _, -, fm, -, hm, -⟩ := h.exact rfl (by decide) (by decide)
    obtain ⟨-, _, -, fm', -, hm'⟩ := @frag_signedDivMod_both 1 2 1 quietEnv (operands 5 (-3))
      (by decide) (by decide) (by decide)
    obtain rfl := Runs.unique fm.runs fm'.runs
    rw [hm'] at hm
    exact absurd hm (by decide)
  · intro h
    have hr := h.zero rfl .div
    exact hr.not_frag (Frag.single rfl)

end DTrace.Cg
