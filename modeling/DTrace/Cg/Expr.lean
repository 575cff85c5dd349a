import DTrace.Cg.Load

/-!
# Code generation for whole expressions

The generators put together over the tree. The code of an operator is right only in register
sets it is made for: `?:` needs a free register for its result, the operands of a binary
operator need registers of their own, and a comparison must not spill for its right operand.
`pathValue` is the value the code leaves when every operator **that is evaluated** meets its
condition, and `computes_node` the resulting refinement: generated code leaves `pathValue` in
the result register and keeps every owner. An operator on a path that is not taken may be
generated in any register set. `spillSafe` asks for the conditions at every operator of the
tree, whatever is evaluated.
-/

namespace DTrace.Cg

open LabelCode Bpf

/-! ## Where code generation is safe -/

/-- Some register other than `%r0` is inactive. -/
def hasFree (drp : Regset) : Bool :=
  (scanDown (fun reg => decide (reg ∉ drp.active)) (drp.size - 1)).isSome

def Op2.isCompare : Op2 → Bool
  | .equ | .neq | .lt | .le | .gt | .ge => true
  | _ => false

/-- The registers when the right operand is generated: the left operand of an operator other
than `&&` and `||` is still in its register. -/
def rightRegs (op : Op2) (drp : Regset) : Regset :=
  if op = .land ∨ op = .lor then drp
  else
    match dtRegsetAlloc drp with
    | none => drp
    | some (_, drp', _) => drp'

/-- The operands do not share a register, and a comparison does not spill. -/
def operandsSafe (op : Op2) (drp : Regset) : Bool :=
  if op = .land ∨ op = .lor then true
  else
    match dtRegsetAlloc drp with
    | none => true
    | some (reg, drp', _) => if op.isCompare then hasFree drp' else pick drp' != some reg

/-- No operator of the tree is generated in a register set its code is not made for. -/
def spillSafe : Node → Regset → Bool
  | .int _ _, _ => true
  | .var _, _ => true
  | .op1 _ cp, drp => spillSafe cp drp
  | .cast _ rp, drp => spillSafe rp drp
  | .op3 expr lp rp, drp =>
    hasFree drp && (spillSafe expr drp && (spillSafe lp drp && spillSafe rp drp))
  | .op2 op lp rp, drp =>
    spillSafe lp drp &&
      if op = .land ∨ op = .lor then spillSafe rp drp
      else
        match dtRegsetAlloc drp with
        | none => true
        | some (reg, drp', _) =>
          -- the operands must not share a register, and a comparison must not spill
          spillSafe rp drp' && if op.isCompare then hasFree drp' else pick drp' != some reg

theorem not_mem_of_hasFree {drp drp' : Regset} {reg : Nat} {c : Ir} (h : hasFree drp = true)
    (ha : dtRegsetAlloc drp = some (reg, drp', c)) : reg ∉ drp.active := by
  have hp := pick_of_alloc ha
  unfold hasFree at h
  unfold pick at hp
  cases hs : scanDown (fun reg => decide (reg ∉ drp.active)) (drp.size - 1) with
  | none => rw [hs] at h; cases h
  | some r =>
    rw [hs] at hp
    obtain rfl : r = reg := Option.some.inj hp
    simpa using (scanDown_some hs).1

theorem operandsSafe_of_spillSafe {op : Op2} {lp rp : Node} {drp : Regset}
    (h : spillSafe (.op2 op lp rp) drp = true) : operandsSafe op drp = true := by
  rw [spillSafe, Bool.and_eq_true] at h
  obtain ⟨-, h⟩ := h
  unfold operandsSafe
  split at h
  · next hlog => exact if_pos hlog
  · next hlog =>
    rw [if_neg hlog]
    split at h
    · rfl
    · exact (Bool.and_eq_true_iff.mp h).2

/-- Fewer registers are in use than there are besides `%r0`. -/
theorem hasFree_of_card_lt {drp : Regset} (h : drp.active.card + 1 < drp.size) :
    hasFree drp = true := by
  have hcard : ((Finset.range drp.size).erase 0).card = drp.size - 1 := by
    rw [Finset.card_erase_of_mem (Finset.mem_range.mpr (by omega)), Finset.card_range]
  obtain ⟨reg, hreg, hfree⟩ := Finset.exists_mem_notMem_of_card_lt_card
    (show drp.active.card < ((Finset.range drp.size).erase 0).card by omega)
  rw [Finset.mem_erase, Finset.mem_range] at hreg
  unfold hasFree
  cases hs : scanDown (fun reg => decide (reg ∉ drp.active)) (drp.size - 1) with
  | none => exact absurd (by simpa using scanDown_none hs reg (by omega) (by omega)) hfree
  | some r => rfl

/-! ## The value along the path

The operand that `&&`, `||` and `?:` do not evaluate has no say in the value, and its register sets
do not matter. -/

variable (env : Env) (pcb : Pcb)

/-- The value generated code leaves in the result register, as far as the operators evaluated
on the way are in register sets their code is made for. -/
def pathValue : Node → Regset → Ctx → Option (BitVec 64)
  | .int value _, _, _ => some value
  | .var x, _, ctx => varValue env pcb x ctx
  | .op1 op cp, drp, ctx => (pathValue cp drp ctx).map (op1Value op)
  | .cast t rp, drp, ctx => (pathValue rp drp ctx).map (castValue rp.type t)
  | .op2 op lp rp, drp, ctx =>
    if operandsSafe op drp then
      binValue op lp.type rp.type (pathValue lp drp ctx) (pathValue rp (rightRegs op drp) ctx)
    else none
  | .op3 expr lp rp, drp, ctx =>
    if hasFree drp then
      (pathValue expr drp ctx).bind fun e =>
        if e = 0 then pathValue rp drp ctx else pathValue lp drp ctx
    else none

/-! ## The refinement

By induction on the tree, the code of a node computes `pathValue`. Where the register set is not one
its code is made for, `pathValue` is `none` and nothing is asked. -/

variable {env pcb}

theorem Computes.congr {cg : Generator} {g : Gen} {val val' : Ctx → Option (BitVec 64)}
    (h : Computes env cg g val) (heq : ∀ ctx, val' ctx = val ctx) : Computes env cg g val' := by
  intro out hout σ v hv
  exact h out hout σ v (by rw [← heq]; exact hv)

/-- Nothing is asked of code whose value is not defined. -/
theorem Computes.of_none {cg : Generator} {g : Gen} {val : Ctx → Option (BitVec 64)}
    (h : ∀ ctx, val ctx = none) : Computes env cg g val := by
  intro out _ σ v hv
  rw [h] at hv
  cases hv

/-- What `operandsSafe` says about the registers of the operands. -/
theorem operands_of_safe {op : Op2} {lp : Node} (rp : Node) {g : Gen} {l : Emitted}
    (hlog : ¬(op = .land ∨ op = .lor)) (h0 : 0 ∉ g.regs.spilled)
    (h : operandsSafe op g.regs = true) {n : Nat} (hl : dtCgNode pcb lp (g.labels n) = some l) :
    0 ∉ l.gen.regs.spilled ∧ l.gen.regs = rightRegs op g.regs ∧
      ∀ r, dtCgNode pcb rp l.gen = some r →
        if op.isCompare then r.reg ∉ l.gen.regs.active else l.reg ≠ r.reg := by
  have sl := dtCgNode_shaped pcb lp (g.labels n) l h0 hl
  have h0' := sl.zero_not_spilled h0
  obtain ⟨c, hal⟩ := sl.alloc
  simp only [Gen.labels_regs] at hal
  rw [operandsSafe, if_neg hlog, hal] at h
  refine ⟨h0', by rw [rightRegs, if_neg hlog, hal], fun r hr => ?_⟩
  obtain ⟨_, hal'⟩ := (dtCgNode_shaped pcb rp l.gen r h0' hr).alloc
  cases hc : op.isCompare with
  | true =>
    have hfree : hasFree l.gen.regs = true := by simpa [hc] using h
    simpa using not_mem_of_hasFree hfree hal'
  | false =>
    have hpick : pick l.gen.regs ≠ some l.reg := by simpa [hc] using h
    rw [pick_of_alloc hal'] at hpick
    simpa [eq_comm] using hpick

theorem binValue_land (lt rt : IntType) (l r : Option (BitVec 64)) :
    binValue .land lt rt l r =
      l.bind fun a => if a = 0 then some 0 else r.map fun b => ofBool (b != 0) := by
  cases l with
  | none => rfl
  | some a =>
    by_cases ha : a = 0#64
    · simp [binValue, ha]
    · have ha' : (a != 0#64) = true := by simpa using ha
      cases r <;> simp [binValue, ha', op2Value]

theorem binValue_lor (lt rt : IntType) (l r : Option (BitVec 64)) :
    binValue .lor lt rt l r =
      l.bind fun a => if a = 0 then r.map fun b => ofBool (b != 0) else some 1 := by
  cases l with
  | none => rfl
  | some a =>
    by_cases ha : a = 0#64
    · cases r <;> simp [binValue, ha, op2Value]
    · simp [binValue, ha]

theorem binValue_strict {op : Op2} (hlog : ¬(op = .land ∨ op = .lor)) (lt rt : IntType)
    (l r : Option (BitVec 64)) :
    binValue op lt rt l r = l.bind fun a => r.bind fun b => op2Value op lt rt a b := by
  rw [not_or] at hlog
  cases l with
  | none => rfl
  | some a => simp [binValue, hlog.1, hlog.2]

/-- The code of a binary operator, over what the code of its operands computes. -/
theorem computes_op2 {op : Op2} {lp rp : Node} {g : Gen} {vl vr : Ctx → Option (BitVec 64)}
    (h0 : 0 ∉ g.regs.spilled) (hsafe : operandsSafe op g.regs = true)
    (cl : ∀ n, Computes env (dtCgNode pcb lp) (g.labels n) vl)
    (cr : ∀ g1 : Gen, 0 ∉ g1.regs.spilled → g1.regs = rightRegs op g.regs →
      Computes env (dtCgNode pcb rp) g1 vr) :
    Computes env (dtCgNode pcb (.op2 op lp rp)) g fun ctx =>
      binValue op lp.type rp.type (vl ctx) (vr ctx) := by
  have sl := dtCgNode_shaped pcb lp
  have sr := dtCgNode_shaped pcb rp
  by_cases hlog : op = .land ∨ op = .lor
  · have cr' : ∀ g1 : Gen, g1.regs = g.regs → Computes env (dtCgNode pcb rp) g1 vr := fun g1 h =>
      cr g1 (h ▸ h0) (by rw [rightRegs, if_pos hlog, h])
    rcases hlog with rfl | rfl
    · exact (computes_land sl sr h0 (cl 2) cr').congr fun ctx => binValue_land _ _ _ _
    · exact (computes_lor sl sr h0 (cl 3) cr').congr fun ctx => binValue_lor _ _ _ _
  · have hop := fun n l (hl : dtCgNode pcb lp (g.labels n) = some l) =>
      operands_of_safe rp hlog h0 hsafe hl
    have cr' : ∀ n l, dtCgNode pcb lp (g.labels n) = some l →
        Computes env (dtCgNode pcb rp) l.gen vr := fun n l hl =>
      cr l.gen (hop n l hl).1 (hop n l hl).2.1
    -- one generator for the ten arithmetic operators, one for the six comparisons
    have arith : ∀ (aop) (signed), op.isCompare = false →
        Computes env (dtCgArithmeticOp aop signed (dtCgNode pcb lp) (dtCgNode pcb rp)) g fun ctx =>
          (vl ctx).bind fun a => (vr ctx).bind fun b => arithValue aop signed a b :=
      fun aop signed hc => computes_arith sl sr h0 (cl 0) (cr' 0) fun l r hl hr => by
        simpa [hc] using (hop 0 l hl).2.2 r hr
    have compare : ∀ jop : JmpOp, op.isCompare = true →
        Computes env (dtCgCompareOp jop (dtCgNode pcb lp) (dtCgNode pcb rp)) g fun ctx =>
          (vl ctx).bind fun a => (vr ctx).bind fun b => some (ofBool (jop.eval a b)) :=
      fun jop hc => computes_compare sl sr h0 (cl 2) (cr' 2) fun l r hl hr => by
        simpa [hc] using (hop 2 l hl).2.2 r hr
    cases op with
    | land | lor => simp at hlog
    | lxor =>
      refine (computes_lxor sl sr h0 (cl 2) (cr' 2) fun l r hl hr => ?_).congr
        fun ctx => binValue_strict hlog _ _ _ _
      simpa [Op2.isCompare] using (hop 2 l hl).2.2 r hr
    | equ | neq | lt | le | gt | ge =>
      exact (compare _ rfl).congr fun ctx => binValue_strict hlog _ _ _ _
    | bor | xor | band | lsh | rsh | add | sub | mul | div | mod =>
      exact (arith _ _ rfl).congr fun ctx => binValue_strict hlog _ _ _ _

variable (env pcb)

/-- **Refinement**: generated code leaves `pathValue` in the result register, and every owner
keeps its value. -/
theorem computes_node (dnp : Node) : ∀ g : Gen, 0 ∉ g.regs.spilled →
    Computes env (dtCgNode pcb dnp) g (pathValue env pcb dnp g.regs) := by
  induction dnp with
  | int value t =>
    intro g _
    exact computes_int env value g
  | var x =>
    intro g h0
    exact computes_var env pcb x h0
  | op1 op cp ih =>
    intro g h0
    refine computes_op1 op (dtCgNode_shaped pcb cp) h0 fun g1 h => ?_
    rw [← h]
    exact ih g1 (h ▸ h0)
  | cast t rp ih =>
    intro g h0
    exact computes_unary (dtCgNode_shaped pcb rp) h0 (fun _ => labels_typecast _ _ _)
      (fun reg σ => frag_typecast env rp.type t reg σ) (ih g h0)
  | op2 op lp rp ihl ihr =>
    intro g h0
    cases hsafe : operandsSafe op g.regs with
    | false => exact .of_none fun ctx => by simp [pathValue, hsafe]
    | true =>
      refine (computes_op2 h0 hsafe (fun n => ihl (g.labels n) h0) fun g1 h0' h => ?_).congr
        fun ctx => by simp only [pathValue, hsafe, if_true]; rfl
      rw [← h]
      exact ihr g1 h0'
  | op3 expr lp rp ihe ihl ihr =>
    intro g h0
    cases hfree : hasFree g.regs with
    | false => exact .of_none fun ctx => by simp [pathValue, hfree]
    | true =>
      have se := dtCgNode_shaped pcb expr
      have arm {dnp : Node} (ih : ∀ g : Gen, 0 ∉ g.regs.spilled →
          Computes env (dtCgNode pcb dnp) g (pathValue env pcb dnp g.regs)) :
          ∀ g1 : Gen, g1.regs = g.regs →
            Computes env (dtCgNode pcb dnp) g1 (pathValue env pcb dnp g.regs) := fun g1 h => by
        rw [← h]
        exact ih g1 (h ▸ h0)
      refine (computes_ternary se (dtCgNode_shaped pcb lp) (dtCgNode_shaped pcb rp) h0
        (ihe (g.labels 2) h0) (arm ihl) (arm ihr) fun e he => ?_).congr
        fun ctx => by simp only [pathValue, hfree, if_true]; rfl
      obtain ⟨c, hal⟩ := (se (g.labels 2) e h0 he).alloc
      exact not_mem_of_hasFree hfree hal

end DTrace.Cg
