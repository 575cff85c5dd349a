import DTrace.Cg.CValue

/-!
# Constant folding against generated code

An operator applied to integer constants is folded by the parser; left unfolded, it would be
compiled and evaluated by the probe. Both compute a 64-bit value, independently of one
another. `ConstOp` is such an application, `ConstOp.fold` the folded node, `ConstOp.node` the
node code would be generated for, and `ConstOp.Agrees` says exactly when the two values are
the same (`fold_eq_run_iff`).
-/

namespace DTrace.Cg

open LabelCode Bpf BitVec

inductive ConstOp where
  | op1 (op : Op1) (v : BitVec 64) (t : IntType)
  | op2 (op : Op2) (l r : BitVec 64) (lt rt : IntType)
  | cast (t : IntType) (v : BitVec 64) (src : IntType)
  deriving DecidableEq, Repr

namespace ConstOp

/-- What `dt_node_op1` or `dt_node_op2` makes of it. -/
def fold : ConstOp → Except FoldError Node
  | op1 op v t => .ok (dtNodeOp1 op (.int v t))
  | op2 op l r lt rt => dtNodeOp2 op (.int l lt) (.int r rt)
  | cast t v src => .ok (dtNodeCast t (.int v src))

def node : ConstOp → Node
  | op1 op v t => .op1 op (.int v t)
  | op2 op l r lt rt => .op2 op (.int l lt) (.int r rt)
  | cast t v src => .cast t (.int v src)

/-- Divisors are not zero and shift counts are below 64. -/
def InDomain : ConstOp → Prop
  | op2 .div _ r _ _ => r ≠ 0
  | op2 .mod _ r _ _ => r ≠ 0
  | op2 .lsh _ r _ _ => r.toNat < 64
  | op2 .rsh _ r _ _ => r.toNat < 64
  | _ => True

/-- When folding and generated code agree: a negated unsigned constant must fit its type; a
signed shift to the right must have nothing to fill with; a signed division must not
overflow; and a signed remainder must not be a non-zero one of a negative divisor. -/
def Agrees : ConstOp → Prop
  | op1 .ineg v t => t.signed = true ∨ (-v).toNat < 2 ^ (t.size * 8)
  | op2 .rsh l r lt _ => lt.signed = false ∨ l.msb = false ∨ r.toNat = 0
  | op2 .div l r lt rt =>
    (lt.promote rt).signed = true → ¬(l = intMin 64 ∧ r = allOnes 64)
  | op2 .mod l r lt rt =>
    (lt.promote rt).signed = true →
      ¬(l = intMin 64 ∧ r = allOnes 64) ∧ (r.slt 0 = false ∨ l.srem r = 0)
  | _ => True

/-- The value generated code leaves, by `pathValue`. -/
def runValue : ConstOp → Option (BitVec 64)
  | op1 op v _ => some (op1Value op v)
  | op2 op l r lt rt => op2Value op lt rt l r
  | cast t v src => some (castValue src t v)

end ConstOp

/-! ## Values -/

/-- The mask that cuts an unsigned value to the width of its type. -/
theorem toNat_typeMask (t : IntType) :
    (allOnes 64 >>> (64 - t.size * 8)).toNat = 2 ^ (t.size * 8) - 1 := by
  rcases t with ⟨_ | _ | _ | _, _ | _⟩ <;> decide

theorem and_typeMask_eq_self_iff (x : BitVec 64) (t : IntType) :
    x &&& (allOnes 64 >>> (64 - t.size * 8)) = x ↔ x.toNat < 2 ^ (t.size * 8) := by
  rw [← toNat_inj, toNat_and, toNat_typeMask, Nat.and_two_pow_sub_one_eq_mod]
  constructor
  · intro h
    rw [← h]
    exact Nat.mod_lt _ (Nat.two_pow_pos _)
  · exact Nat.mod_eq_of_lt

theorem sshiftRight_eq_ushiftRight_iff (x : BitVec 64) (n : Nat) :
    x.sshiftRight n = x >>> n ↔ x.msb = false ∨ n = 0 := by
  constructor
  · intro h
    -- the sign bit stays under one shift and is lost under the other
    have hmsb := congrArg BitVec.msb h
    by_cases hn : n = 0
    · exact Or.inr hn
    · left
      simpa [hn] using hmsb
  · rintro (h | rfl)
    · exact sshiftRight_eq_of_msb_false h
    · simp

theorem op1_agrees_iff (op : Op1) (v : BitVec 64) (t : IntType) :
    foldOp1 op v t = op1Value op v ↔ (ConstOp.op1 op v t).Agrees := by
  cases op with
  | ipos | lneg => exact ⟨fun _ => trivial, fun _ => rfl⟩
  | bneg => exact ⟨fun _ => trivial, fun _ => xor_allOnes.symm⟩
  | ineg =>
    show (if t.signed then -v else -v &&& (allOnes 64 >>> (64 - t.size * 8))) = -v ↔
      t.signed = true ∨ (-v).toNat < 2 ^ (t.size * 8)
    cases t.signed with
    | true => exact ⟨fun _ => Or.inl rfl, fun _ => rfl⟩
    | false =>
      rw [if_neg (by decide), and_typeMask_eq_self_iff]
      exact (or_iff_right (by decide)).symm

variable {l r v : BitVec 64} {lt rt : IntType}

theorem rsh_agrees_iff (hlt : r.toNat < 64) (hv : op2Value .rsh lt rt l r = some v) :
    foldOp2 .rsh l r lt rt = .ok v ↔ (ConstOp.op2 .rsh l r lt rt).Agrees := by
  have hfold : foldOp2 .rsh l r lt rt = .ok (l >>> r.toNat) := if_pos hlt
  have hv' : arithValue (if lt.signed then .arsh else .rsh) lt.signed l r = some v := hv
  show _ ↔ lt.signed = false ∨ l.msb = false ∨ r.toNat = 0
  rw [hfold]
  cases hs : lt.signed with
  | false =>
    obtain rfl : l >>> r.toNat = v := by
      simpa [hs, arithValue, AluOp.eval, Nat.mod_eq_of_lt hlt] using hv'
    simp
  | true =>
    obtain rfl : l.sshiftRight r.toNat = v := by
      simpa [hs, arithValue, AluOp.eval, Nat.mod_eq_of_lt hlt] using hv'
    rw [Except.ok.injEq, eq_comm, sshiftRight_eq_ushiftRight_iff]
    simp

theorem div_agrees_iff (hv : op2Value .div lt rt l r = some v) :
    foldOp2 .div l r lt rt = .ok v ↔ (ConstOp.op2 .div l r lt rt).Agrees := by
  have hv' : arithValue .div (lt.promote rt).signed l r = some v := hv
  show foldDiv (lt.promote rt).signed l r = .ok v ↔ ((lt.promote rt).signed = true → _)
  generalize (lt.promote rt).signed = s at hv'
  cases s with
  | false =>
    obtain rfl : l / r = v := by simpa [arithValue, AluOp.eval_div] using hv'
    exact ⟨fun _ h => absurd h (by decide), fun _ => rfl⟩
  | true =>
    obtain ⟨-, rfl⟩ : ¬r = 0#64 ∧ l.sdiv r = v := by
      simpa [arithValue, signedDivMod_div] using hv'
    unfold foldDiv
    by_cases hov : l = intMin 64 ∧ r = allOnes 64 <;> simp [hov]

theorem mod_agrees_iff (hv : op2Value .mod lt rt l r = some v) :
    foldOp2 .mod l r lt rt = .ok v ↔ (ConstOp.op2 .mod l r lt rt).Agrees := by
  have hv' : arithValue .mod (lt.promote rt).signed l r = some v := hv
  show foldMod (lt.promote rt).signed l r = .ok v ↔ ((lt.promote rt).signed = true → _)
  generalize (lt.promote rt).signed = s at hv'
  cases s with
  | false =>
    obtain rfl : l % r = v := by simpa [arithValue, AluOp.eval_mod] using hv'
    exact ⟨fun _ h => absurd h (by decide), fun _ => rfl⟩
  | true =>
    obtain ⟨hr, rfl⟩ : ¬r = 0#64 ∧ signedDivMod .mod l r = v := by
      simpa [arithValue] using hv'
    have hrem : l.srem r = signedDivMod .mod l r ↔ r.slt 0 = false ∨ l.srem r = 0 := by
      cases hneg : r.slt 0 with
      | false => simp [signedDivMod_mod_of_nonneg hneg]
      | true =>
        rw [signedDivMod_mod_of_neg hneg, eq_comm, neg_srem_eq_iff hr]
        simp
    unfold foldMod
    by_cases hov : l = intMin 64 ∧ r = allOnes 64
    · simp [hov]
    · rw [if_pos rfl, if_neg hov, Except.ok.injEq, hrem]
      exact ⟨fun h _ => ⟨hov, h⟩, fun h => (h rfl).2⟩

theorem op2_agrees_iff {op : Op2} (hdom : (ConstOp.op2 op l r lt rt).InDomain)
    (hv : op2Value op lt rt l r = some v) :
    foldOp2 op l r lt rt = .ok v ↔ (ConstOp.op2 op l r lt rt).Agrees := by
  cases op with
  | lor | lxor | land | bor | xor | band | add | sub | mul | equ | neq =>
    exact ⟨fun _ => trivial, fun _ => congrArg Except.ok (Option.some.inj hv)⟩
  | lt | le | gt | ge =>
    refine ⟨fun _ => trivial, fun _ => ?_⟩
    obtain rfl := Option.some.inj hv
    unfold foldOp2
    cases (lt.promote rt).signed <;> rfl
  | lsh =>
    have hlt : r.toNat < 64 := hdom
    refine ⟨fun _ => trivial, fun _ => ?_⟩
    obtain rfl : l <<< (r.toNat % 64) = v := Option.some.inj hv
    rw [Nat.mod_eq_of_lt hlt]
    exact if_pos hlt
  | rsh => exact rsh_agrees_iff hdom hv
  | div => exact div_agrees_iff hv
  | mod => exact mod_agrees_iff hv

/-! ## The folded node and the generated code -/

theorem binValue_some (op : Op2) (lt rt : IntType) (l r : BitVec 64) :
    binValue op lt rt (some l) (some r) = op2Value op lt rt l r := by
  cases op with
  | land =>
    rw [binValue_land]
    by_cases hl : l = 0#64 <;> simp [hl, op2Value, ofBool]
  | lor =>
    rw [binValue_lor]
    by_cases hl : l = 0#64 <;> simp [hl, op2Value, ofBool]
  | _ => exact binValue_strict (by decide) lt rt (some l) (some r)

theorem pathValue_constOp (env : Env) (pcb : Pcb) (ctx : Ctx) {a : ConstOp} {drp : Regset}
    (hsafe : spillSafe a.node drp = true) : pathValue env pcb a.node drp ctx = a.runValue := by
  cases a with
  | op1 | cast => rfl
  | op2 op l r lt rt =>
    show (if operandsSafe op drp then binValue op lt rt (some l) (some r) else none) = _
    rw [operandsSafe_of_spillSafe hsafe]
    exact binValue_some op lt rt l r

theorem op2Value_isSome {op : Op2} (hdom : (ConstOp.op2 op l r lt rt).InDomain) :
    (op2Value op lt rt l r).isSome = true := by
  cases op with
  | div | mod =>
    have hr : r ≠ 0 := hdom
    show (arithValue _ (lt.promote rt).signed l r).isSome = true
    cases (lt.promote rt).signed <;> simp [arithValue, show ¬r = 0#64 from hr]
  | rsh =>
    show (arithValue (if lt.signed then .arsh else .rsh) lt.signed l r).isSome = true
    cases lt.signed <;> rfl
  | _ => rfl

theorem runValue_isSome {a : ConstOp} (hdom : a.InDomain) : a.runValue.isSome = true := by
  cases a with
  | op1 | cast => rfl
  | op2 => exact op2Value_isSome hdom

theorem dtNodeOp2_const {op : Op2} (hdom : (ConstOp.op2 op l r lt rt).InDomain) :
    dtNodeOp2 op (.int l lt) (.int r rt) =
      (foldOp2 op l r lt rt).map fun v => .int v (op.type lt rt) := by
  have hzero : ¬(r = 0 ∧ (op = .mod ∨ op = .div)) := by
    rintro ⟨hr, rfl | rfl⟩
    · exact hdom hr
    · exact hdom hr
  exact if_neg hzero

theorem fold_agrees_iff {a : ConstOp} (hdom : a.InDomain) (hv : a.runValue = some v) :
    (∃ t, a.fold = .ok (.int v t)) ↔ a.Agrees := by
  cases a with
  | op1 op c t =>
    obtain rfl : op1Value op c = v := Option.some.inj hv
    rw [← op1_agrees_iff]
    simp [ConstOp.fold, dtNodeOp1]
  | cast t c src =>
    obtain rfl : castValue src t c = v := Option.some.inj hv
    simp [ConstOp.fold, dtNodeCast, castValue_eq_foldCast, ConstOp.Agrees]
  | op2 op l r lt rt =>
    rw [← op2_agrees_iff hdom hv]
    show (∃ t, dtNodeOp2 op (.int l lt) (.int r rt) = .ok (.int v t)) ↔ _
    rw [dtNodeOp2_const hdom]
    cases foldOp2 op l r lt rt <;> simp [Except.map]

/-- **Folding against generated code**: the code of an operator whose constant operands are in
registers of their own runs to its end, and the value it leaves is the one the folded node
holds exactly when `ConstOp.Agrees`. -/
theorem fold_eq_run_iff (env : Env) (pcb : Pcb) (a : ConstOp) (hdom : a.InDomain) (g : Gen)
    {out : Emitted} (h₀ : 0 ∉ g.regs.spilled) (hsafe : spillSafe a.node g.regs = true)
    (hout : dtCgNode pcb a.node g = some out) (σ : State) :
    ∃ σ', Frag (exec env) out.code σ σ' ∧
      ((∃ t, a.fold = .ok (.int (σ'.regs out.reg) t)) ↔ a.Agrees) := by
  obtain ⟨v, hv⟩ := Option.isSome_iff_exists.mp (runValue_isSome hdom)
  have hnode : pathValue env pcb a.node g.regs (ctxOf σ) = some v := by
    rw [pathValue_constOp env pcb _ hsafe, hv]
  obtain ⟨σ', f, hval, -⟩ := computes_node env pcb a.node g h₀ out hout σ v hnode
  refine ⟨σ', f, ?_⟩
  rw [hval]
  exact fold_agrees_iff hdom hv

/-- `-7 / 2` on signed operands. -/
def signedQuotient : ConstOp := .op2 .div (-7) 2 ⟨.dw, true⟩ ⟨.dw, true⟩

theorem signedQuotient_folds_to_run_value :
    ∃ out σ', dtCgNode somePcb signedQuotient.node (genWith ∅ (by decide)) = some out ∧
      Frag (exec noCalls) out.code ownedState σ' ∧
      ∃ t, signedQuotient.fold = .ok (.int (σ'.regs out.reg) t) := by
  obtain ⟨out, hout⟩ := Option.isSome_iff_exists.mp
    (show (dtCgNode somePcb signedQuotient.node (genWith ∅ (by decide))).isSome = true by
      decide +kernel)
  obtain ⟨σ', f, hiff⟩ := fold_eq_run_iff noCalls somePcb signedQuotient
    (show (2) ≠ 0 by decide) _ (by decide) (by decide +kernel) hout ownedState
  exact ⟨out, σ', hout, f, hiff.mpr fun _ => by decide⟩

/-- `-8 >> 1` on signed operands is folded to `0x7ffffffffffffffc`; the code leaves `-4`. -/
theorem signed_shift_folds_unsigned :
    (ConstOp.op2 .rsh (-8) 1 ⟨.dw, true⟩ ⟨.dw, true⟩).fold =
        .ok (.int 0x7ffffffffffffffc ⟨.dw, true⟩) ∧
      ∃ out σ', dtCgNode somePcb (ConstOp.op2 .rsh (-8) 1 ⟨.dw, true⟩ ⟨.dw, true⟩).node
          (genWith ∅ (by decide)) = some out ∧
        Runs (exec noCalls) out.code ownedState σ' ∧ σ'.regs out.reg = -4 := by
  have hrun : runNode noCalls somePcb (ConstOp.op2 .rsh (-8) 1 ⟨.dw, true⟩ ⟨.dw, true⟩).node
      (genWith ∅ (by decide)) ownedState 40 = some ([], -4) := by decide +kernel
  exact ⟨by decide, runs_of_runNode hrun⟩

end DTrace.Cg
