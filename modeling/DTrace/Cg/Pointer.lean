import DTrace.Cg.DivMod

/-!
# Pointer arithmetic — `dt_cg_arithmetic_op`, `dt_cg_ptrsize`

`+` and `-` on pointers. An integer operand is multiplied by the size of what the pointer refers
to, and a difference of pointers is divided by it; both are omitted for size one. The size is an
immediate operand of 32 bits, and the machine's division is **unsigned**.

* On pointers the code is that of integer arithmetic with a scaled operand or result
  (`dtCgPtrArithmeticOp_ptr_int`, `dtCgPtrArithmeticOp_ptr_ptr`), so what integer arithmetic
  computes says what pointer arithmetic computes.
* `(p - n) + n` is `p`. `(p + n) - p` is `n` exactly when the product of `n` and the size, both
  read as **unsigned** words, fits in 64 bits (`sum_minus_pointer_iff`): never for a negative `n`,
  unless the size is one.
* Adding to an array checks the scaled index against the size of the array first.
-/

namespace DTrace.Cg

open LabelCode Bpf BitVec Option

/-! ## Generators -/

/-- What `dt_cg_arithmetic_op` asks about an operand: whether it is an integer, a pointer to a type
of a known size or an array of so many elements of that size. -/
inductive PtrOperand where
  | int
  | ptr (size : BitVec 64)
  | array (size : BitVec 64) (nelems : BitVec 32)
  deriving DecidableEq, Repr

/-- The size `dt_cg_ptrsize` looks up, for what `dt_node_is_pointer` calls a pointer. -/
def PtrOperand.size? : PtrOperand → Option (BitVec 64)
  | .int => none
  | .ptr size => some size
  | .array size _ => some size

def dtCgPtrsize (size : BitVec 64) (op : AluOp) (reg : Nat) : Ir :=
  if size = 1 then [] else emit (.aluImm op reg (size.truncate 32))

def dtraceFltBadindex : BitVec 32 := 11

/-- The instruction itself, behind a check of the index where an array is added to. -/
def dtCgPtrBlock (op : AluOp) (lt : PtrOperand) (rconst : Bool) (rl rr : Nat) (g : Gen) :
    Ir × Gen :=
  match lt with
  | .array size nelems =>
    if op = .add ∧ rconst = false then
      let lblL1 := g.label
      (emit (.branchImm .jlt rr ((nelems.zeroExtend 64 * size).truncate 32) lblL1) ++
        emit (.aluImm .div rr (size.truncate 32)) ++ dtCgProbeErrorReg dtraceFltBadindex rr ++
        emitl lblL1 (.alu op rl rr), g.labels 1)
    else (emit (.alu op rl rr), g)
  | _ => (emit (.alu op rl rr), g)

/-- `dt_cg_arithmetic_op` for `+` and `-` with an operand that is a pointer. `rconst` says that the
right operand is an integer constant. -/
def dtCgPtrArithmeticOp (op : AluOp) (lt rt : PtrOperand) (rconst : Bool) (lp rp : Generator) :
    Generator := fun g => do
  let l ← lp g
  let cl := match lt.size?, rt.size? with
    | none, some size => dtCgPtrsize size .mul l.reg
    | _, _ => []
  let r ← rp l.gen
  let cr := match lt.size?, rt.size? with
    | some size, none => dtCgPtrsize size .mul r.reg
    | _, _ => []
  let (c, g) := dtCgPtrBlock op lt rconst l.reg r.reg r.gen
  let (cf, g) ← g.free r.reg
  let cd := match lt.size?, rt.size? with
    | some _, some size => dtCgPtrsize size .div l.reg
    | _, _ => []
  some ⟨l.code ++ cl ++ r.code ++ cr ++ c ++ cf ++ cd, l.reg, g⟩

theorem labels_ptrsize (size : BitVec 64) (op : AluOp) (reg : Nat) :
    labels (dtCgPtrsize size op reg) = [] := by
  unfold dtCgPtrsize
  split <;> rfl

/-! ## Pointers as scaled integers -/

/-- The size as the machine sees it. -/
def immSize (size : BitVec 64) : BitVec 64 := (size.truncate 32).signExtend 64

/-- Size one, for which there is no code, leaves the value as it is. -/
theorem frag_ptrsize (env : Env) (size : BitVec 64) {op : AluOp} (hop : ∀ x, op.eval x 1#64 = x)
    (reg : Nat) (σ : State) : Frag (exec env) (dtCgPtrsize size op reg) σ
      (σ.setReg reg (op.eval (σ.regs reg) (immSize size))) := by
  unfold dtCgPtrsize
  split
  · next h =>
    subst h
    rw [show immSize 1 = 1#64 from by decide, hop, State.setReg_eq_self]
    exact Frag.nil σ
  · exact Frag.single rfl

section
variable {op : AluOp} {size : BitVec 64} {rconst : Bool} {lp rp : Generator}

theorem dtCgPtrArithmeticOp_ptr_int :
    dtCgPtrArithmeticOp op (.ptr size) .int rconst lp rp =
      dtCgArithmeticOp op false lp (dtCgUnary rp (dtCgPtrsize size .mul)) := by
  have hnot : ¬ ((op = .mod ∨ op = .div) ∧ false = true) := fun h => by cases h.2
  unfold dtCgPtrArithmeticOp dtCgArithmeticOp dtCgUnary
  simp only [hnot, if_false, PtrOperand.size?, dtCgPtrBlock, List.append_nil, List.append_assoc,
    bind_eq_bind, bind_assoc, bind_some]

theorem dtCgPtrArithmeticOp_ptr_ptr (size' : BitVec 64) :
    dtCgPtrArithmeticOp .sub (.ptr size') (.ptr size) rconst lp rp =
      dtCgUnary (dtCgArithmeticOp .sub false lp rp) (dtCgPtrsize size .div) := by
  unfold dtCgPtrArithmeticOp dtCgArithmeticOp dtCgUnary
  simp [PtrOperand.size?, dtCgPtrBlock, bind_assoc]

end

/-! ## Two round trips -/

/-- `(p + n) - p`, for a pointer `p` to a type of the given size. -/
def dtCgSumMinusPointer (pcb : Pcb) (size : BitVec 64) (p n : Var) : Generator :=
  dtCgPtrArithmeticOp .sub (.ptr size) (.ptr size) false
    (dtCgPtrArithmeticOp .add (.ptr size) .int false (dtCgLoadVar pcb p) (dtCgLoadVar pcb n))
    (dtCgLoadVar pcb p)

/-- `(p - n) + n`. -/
def dtCgDifferencePlus (pcb : Pcb) (size : BitVec 64) (p n : Var) : Generator :=
  dtCgPtrArithmeticOp .add (.ptr size) .int false
    (dtCgPtrArithmeticOp .sub (.ptr size) .int false (dtCgLoadVar pcb p) (dtCgLoadVar pcb n))
    (dtCgLoadVar pcb n)

/-- The set gives out two different registers in a row. -/
def TwoRegs (drp : Regset) : Prop :=
  ∀ x ∈ dtRegsetAlloc drp, pick x.2.1 ≠ some x.1

instance (drp : Regset) : Decidable (TwoRegs drp) :=
  inferInstanceAs (Decidable (∀ x ∈ dtRegsetAlloc drp, pick x.2.1 ≠ some x.1))

section
variable {env : Env} {pcb : Pcb} {g : Gen} {lp rp : Generator} {size : BitVec 64}

theorem TwoRegs.ne (h : TwoRegs g.regs) (h0 : 0 ∉ g.regs.spilled) (hl : lp.Shaped)
    (hr : rp.Shaped) :
    ∀ l r, lp g = some l → rp l.gen = some r → l.reg ≠ r.reg := by
  intro l r hlp hrp heq
  have sl := hl g l h0 hlp
  obtain ⟨c, hal⟩ := sl.alloc
  obtain ⟨_, har⟩ := (hr l.gen r (sl.zero_not_spilled h0) hrp).alloc
  exact h _ hal (heq ▸ pick_of_alloc har)

theorem scaled_shaped (hr : rp.Shaped) : (dtCgUnary rp (dtCgPtrsize size .mul)).Shaped :=
  dtCgUnary_shaped hr fun reg => labels_ptrsize size .mul reg

theorem computes_ptrsize {op : AluOp} (hop : ∀ x, op.eval x 1#64 = x) (hr : rp.Shaped)
    (h0 : 0 ∉ g.regs.spilled) {v : Ctx → Option (BitVec 64)} (c : Computes env rp g v) :
    Computes env (dtCgUnary rp (dtCgPtrsize size op)) g fun ctx =>
      (v ctx).map (op.eval · (immSize size)) :=
  computes_unary hr h0 (fun reg => labels_ptrsize size op reg) (frag_ptrsize env size hop) c

/-- `p + n` and `p - n`. -/
theorem computes_pointer_int (size : BitVec 64) {op : AluOp} (hop : op = .add ∨ op = .sub)
    (hl : lp.Shaped) (hr : rp.Shaped) (h0 : 0 ∉ g.regs.spilled) (hroom : TwoRegs g.regs)
    {vl vr : Ctx → Option (BitVec 64)} (cl : Computes env lp g vl)
    (cr : ∀ g1 : Gen, 0 ∉ g1.regs.spilled → Computes env rp g1 vr) :
    Computes env (dtCgPtrArithmeticOp op (.ptr size) .int false lp rp) g fun ctx =>
      (vl ctx).bind fun a => (vr ctx).bind fun b => some (op.eval a (b * immSize size)) := by
  rw [dtCgPtrArithmeticOp_ptr_int]
  have hscaled : ∀ l, lp g = some l → Computes env (dtCgUnary rp (dtCgPtrsize size .mul)) l.gen
      fun ctx => (vr ctx).map (· * immSize size) := by
    intro l hlp
    have h0' := (hl g l h0 hlp).zero_not_spilled h0
    exact computes_ptrsize BitVec.mul_one hr h0' (cr l.gen h0')
  have c : Computes env (dtCgArithmeticOp op false lp (dtCgUnary rp (dtCgPtrsize size .mul))) g _ :=
    computes_arith hl (scaled_shaped hr) h0 cl hscaled (hroom.ne h0 hl (scaled_shaped hr))
  refine c.congr fun ctx => ?_
  cases vl ctx with
  | none => rfl
  | some a =>
    cases vr ctx with
    | none => rfl
    | some b => obtain rfl | rfl := hop <;> rfl

/-- The difference of two pointers. -/
theorem computes_pointer_pointer (size : BitVec 64) (hl : lp.Shaped) (hr : rp.Shaped)
    (h0 : 0 ∉ g.regs.spilled) (hroom : TwoRegs g.regs) {vl vr : Ctx → Option (BitVec 64)}
    (cl : Computes env lp g vl)
    (cr : ∀ g1 : Gen, 0 ∉ g1.regs.spilled → Computes env rp g1 vr) :
    Computes env (dtCgPtrArithmeticOp .sub (.ptr size) (.ptr size) false lp rp) g fun ctx =>
      (vl ctx).bind fun a => (vr ctx).bind fun b => some ((a - b) / immSize size) := by
  rw [dtCgPtrArithmeticOp_ptr_ptr]
  have csub : Computes env (dtCgArithmeticOp .sub false lp rp) g _ :=
    computes_arith hl hr h0 cl (fun l hlp => cr l.gen ((hl g l h0 hlp).zero_not_spilled h0))
      (hroom.ne h0 hl hr)
  have hdiv : ∀ x, AluOp.div.eval x 1#64 = x := fun x => by rw [AluOp.eval_div, udiv_one]
  refine (computes_ptrsize hdiv (dtCgArithmeticOp_shaped hl hr) h0 csub).congr fun ctx => ?_
  cases vl ctx with
  | none => rfl
  | some a =>
    cases vr ctx with
    | none => rfl
    | some b => exact congrArg some (AluOp.eval_div ..).symm

theorem pointer_int_shaped {op : AluOp} (hl : lp.Shaped) (hr : rp.Shaped) :
    (dtCgPtrArithmeticOp op (.ptr size) .int false lp rp).Shaped := by
  rw [dtCgPtrArithmeticOp_ptr_int]
  exact dtCgArithmeticOp_shaped hl (scaled_shaped hr)

end

/-- Multiplying and dividing back gives the number again exactly when the unsigned product fits. -/
theorem mul_udiv_eq_iff (n s : BitVec 64) :
    n * s / s = n ↔ n = 0 ∨ (s ≠ 0 ∧ n.toNat * s.toNat < 2 ^ 64) := by
  rw [← toNat_inj, toNat_udiv, toNat_mul,
    show n = 0 ↔ n.toNat = 0 from toNat_inj.symm,
    show s ≠ 0 ↔ s.toNat ≠ 0 from not_congr toNat_inj.symm]
  generalize n.toNat = a at *
  generalize s.toNat = b at *
  by_cases hb : b = 0
  · subst hb
    simp [eq_comm]
  constructor
  · intro h
    refine .inr ⟨hb, ?_⟩
    -- a quotient is at most, and the wrapped product is a word
    calc a * b = a * b % 2 ^ 64 / b * b := by rw [h]
      _ ≤ a * b % 2 ^ 64 := Nat.div_mul_le_self _ _
      _ < 2 ^ 64 := Nat.mod_lt _ (by decide)
  · rintro (rfl | ⟨-, hlt⟩)
    · simp
    · rw [Nat.mod_eq_of_lt hlt, Nat.mul_div_cancel _ (by omega)]

section
variable (env : Env) (pcb : Pcb) (size : BitVec 64) (p n : Var) {g : Gen} {out : Emitted}
  {σ : State} {a b : BitVec 64}

theorem frag_sumMinusPointer (h0 : 0 ∉ g.regs.spilled) (hroom : TwoRegs g.regs)
    (h : dtCgSumMinusPointer pcb size p n g = some out)
    (hp : varValue env pcb p (ctxOf σ) = some a) (hn : varValue env pcb n (ctxOf σ) = some b) :
    ∃ σ', Frag (exec env) out.code σ σ' ∧ σ'.regs out.reg = b * immSize size / immSize size := by
  have sp := dtCgLoadVar_shaped pcb p
  have sn := dtCgLoadVar_shaped pcb n
  have csum := computes_pointer_int size (.inl rfl) sp sn h0 hroom
    (computes_var env pcb p h0) fun g1 h => computes_var env pcb n h
  have c := computes_pointer_pointer size (pointer_int_shaped sp sn) sp h0 hroom csum
    fun g1 h => computes_var env pcb p h
  obtain ⟨σ', f, hv, -⟩ := c out h σ ((a + b * immSize size - a) / immSize size)
    (by simp only [hp, hn]; rfl)
  refine ⟨σ', f, ?_⟩
  rw [hv, add_comm, add_sub_cancel]

theorem frag_differencePlus (h0 : 0 ∉ g.regs.spilled) (hroom : TwoRegs g.regs)
    (h : dtCgDifferencePlus pcb size p n g = some out)
    (hp : varValue env pcb p (ctxOf σ) = some a) (hn : varValue env pcb n (ctxOf σ) = some b) :
    ∃ σ', Frag (exec env) out.code σ σ' ∧ σ'.regs out.reg = a := by
  have sp := dtCgLoadVar_shaped pcb p
  have sn := dtCgLoadVar_shaped pcb n
  have csub := computes_pointer_int size (.inr rfl) sp sn h0 hroom
    (computes_var env pcb p h0) fun g1 h => computes_var env pcb n h
  have c := computes_pointer_int size (.inl rfl) (pointer_int_shaped sp sn) sn h0 hroom csub
    fun g1 h => computes_var env pcb n h
  obtain ⟨σ', f, hv, -⟩ := c out h σ (a - b * immSize size + b * immSize size)
    (by simp only [hp, hn]; rfl)
  refine ⟨σ', f, ?_⟩
  rw [hv, sub_add_cancel]

/-- **Pointer arithmetic undoes itself exactly when** the product of the integer and the size, as
unsigned words, fits in 64 bits. -/
theorem sum_minus_pointer_iff {out₁ out₂ : Emitted} (h₀ : 0 ∉ g.regs.spilled)
    (hroom : TwoRegs g.regs) (h₁ : dtCgSumMinusPointer pcb size p n g = some out₁)
    (h₂ : dtCgDifferencePlus pcb size p n g = some out₂)
    (hp : varValue env pcb p (ctxOf σ) = some a) (hn : varValue env pcb n (ctxOf σ) = some b) :
    ((∃ σ', Frag (exec env) out₁.code σ σ' ∧ σ'.regs out₁.reg = b) ∧
      ∃ σ', Frag (exec env) out₂.code σ σ' ∧ σ'.regs out₂.reg = a) ↔
      b = 0 ∨ (immSize size ≠ 0 ∧ b.toNat * (immSize size).toNat < 2 ^ 64) := by
  obtain ⟨σ1, f1, hv1⟩ := frag_sumMinusPointer env pcb size p n h₀ hroom h₁ hp hn
  have hdiff := frag_differencePlus env pcb size p n h₀ hroom h₂ hp hn
  rw [← mul_udiv_eq_iff]
  constructor
  · rintro ⟨⟨σ', f', hv'⟩, -⟩
    obtain rfl := Runs.unique f1.runs f'.runs
    rw [← hv1, hv']
  · intro h
    exact ⟨⟨σ1, f1, hv1.trans h⟩, hdiff⟩

end

/-! ## An instance -/

/-- The global variables `int *p` and `long n`. -/
def ptrVar : Var := ⟨.gvar 0, ⟨.dw, false⟩⟩
def longVar : Var := ⟨.gvar 8, ⟨.dw, true⟩⟩

/-- A machine whose context is at `0` and whose global variables `p` and `n` are at `0x1000`. -/
def ptrState (p n : BitVec 64) : State where
  regs _ := 0
  stack _ := 0
  mem := storeLE (storeLE (storeLE (fun _ => 0) 72 0x1000 8) 0x1000 p 8) 0x1008 n 8

/-- `(p + 3) - p` and `(p - 3) + 3`, of pointers to `int`. -/
theorem plus_three_round_trip :
    ∃ out₁ out₂, dtCgSumMinusPointer ⟨99, 0⟩ 4 ptrVar longVar freshGen = some out₁ ∧
      dtCgDifferencePlus ⟨99, 0⟩ 4 ptrVar longVar freshGen = some out₂ ∧
      (∃ σ', Frag (exec quietEnv) out₁.code (ptrState 64 3) σ' ∧ σ'.regs out₁.reg = 3) ∧
      ∃ σ', Frag (exec quietEnv) out₂.code (ptrState 64 3) σ' ∧ σ'.regs out₂.reg = 64 := by
  obtain ⟨out₁, h1⟩ := isSome_iff_exists.mp
    (show (dtCgSumMinusPointer ⟨99, 0⟩ 4 ptrVar longVar freshGen).isSome = true by decide)
  obtain ⟨out₂, h2⟩ := isSome_iff_exists.mp
    (show (dtCgDifferencePlus ⟨99, 0⟩ 4 ptrVar longVar freshGen).isSome = true by decide)
  refine ⟨out₁, out₂, h1, h2, (sum_minus_pointer_iff quietEnv ⟨99, 0⟩ 4 ptrVar longVar (by decide)
    (by decide) h1 h2 (by decide) (by decide)).mpr (.inr (by decide))⟩

/-- `(p + -1) - p` is `0x3fffffffffffffff`. -/
theorem plus_minus_one_lost :
    ∃ out σ', dtCgSumMinusPointer ⟨99, 0⟩ 4 ptrVar longVar freshGen = some out ∧
      Frag (exec quietEnv) out.code (ptrState 64 (-1)) σ' ∧
      σ'.regs out.reg = 0x3fffffffffffffff ∧ σ'.regs out.reg ≠ -1 := by
  obtain ⟨out, h⟩ := isSome_iff_exists.mp
    (show (dtCgSumMinusPointer ⟨99, 0⟩ 4 ptrVar longVar freshGen).isSome = true by decide)
  obtain ⟨σ', f, hv⟩ := frag_sumMinusPointer quietEnv ⟨99, 0⟩ 4 ptrVar longVar (by decide)
    (by decide) h (σ := ptrState 64 (-1)) (a := 64) (b := -1) (by decide) (by decide)
  refine ⟨out, σ', h, f, ?_, ?_⟩
  · rw [hv]
    decide
  · rw [hv]
    decide

end DTrace.Cg
