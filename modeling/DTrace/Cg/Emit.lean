import DTrace.Cg.Node
import DTrace.Cg.Regset

/-!
# Code generation for integer expressions — `dt_cg.c`

The functions of `dt_cg.c` that `dt_cg_node` dispatches to for an integer expression. A
generator takes the label counter and the register set, and returns the emitted
nodes, the register holding the result and the new counter and set; it fails (`none`) where
the source leaves with `EDT_NOREG` or on a failed assertion.

The generators for operators take those of the operands as arguments, so that each source
function is one definition and `dtCgNode` ties the knot.
-/

namespace DTrace.Cg

open LabelCode Bpf

/-- The generator state: `dl_label`, which starts at `1`, and `pcb_regs`. -/
structure Gen where
  label : Nat
  regs : Regset
  label_pos : 0 < label

/-- A generator at the start of a clause, with all registers free. -/
def freshGen : Gen := ⟨1, dtRegsetCreate 8 le_rfl, Nat.one_pos⟩

/-- The parts of the parser control block the generators read. `zeroOff` is the value that
the linker gives `ZERO_OFF`. -/
structure Pcb where
  exitlbl : Nat
  zeroOff : BitVec 32

structure Emitted where
  code : Ir
  reg : Nat
  gen : Gen

abbrev Generator := Gen → Option Emitted

namespace Gen

/-- `n` calls of `dt_irlist_label`, the first of which returns `g.label`. -/
def labels (g : Gen) (n : Nat) : Gen :=
  ⟨g.label + n, g.regs, Nat.lt_add_right n g.label_pos⟩

def alloc (g : Gen) : Option (Nat × Ir × Gen) := do
  let (reg, regs, c) ← dtRegsetAlloc g.regs
  some (reg, c, ⟨g.label, regs, g.label_pos⟩)

def free (g : Gen) (reg : Nat) : Option (Ir × Gen) := do
  let (regs, c) ← dtRegsetFree g.regs reg
  some (c, ⟨g.label, regs, g.label_pos⟩)

end Gen

/-! ## Small pieces of code -/

/-- `dt_cg_setx`. -/
def dtCgSetx (reg : Nat) (x : BitVec 64) : Ir := [⟨0, .lddw reg x⟩, ⟨0, .lddwHi⟩]

/-- `DTRACEFLT_DIVZERO`. -/
def dtraceFltDivZero : BitVec 32 := 4

/-- `dt_cg_probe_error` with an immediate operand; the program counter in `%r2` is filled in
by the linker. -/
def dtCgProbeError (fault ill : BitVec 32) : Ir :=
  emit (.movImm 4 ill) ++ emit (.load .dw 1 regFP dtStkDctx) ++ emit (.movImm 2 (-1)) ++
  emit (.aluImm .add 2 3) ++ emit (.movImm 3 fault) ++ emit (.call .dtProbeError) ++ emit .exit

/-- `dt_cg_promote`. -/
def dtCgPromote (t : IntType) (reg : Nat) : Ir :=
  if t.signed && decide (t.size < 8) then
    let n := BitVec.ofNat 32 ((8 - t.size) * 8)
    emit (.aluImm .lsh reg n) ++ emit (.aluImm .arsh reg n)
  else []

/-- `dt_cg_typecast` between integer types, on one register. -/
def dtCgTypecast (src dst : IntType) (reg : Nat) : Ir :=
  if castNeeded src dst then
    let n := BitVec.ofNat 32 (castShift dst)
    emit (.aluImm .lsh reg n) ++ emit (.aluImm (if dst.signed then .arsh else .rsh) reg n)
  else []

/-! ## Leaves -/

/-- `DT_TOK_INT`. -/
def dtCgInt (value : BitVec 64) : Generator := fun g => do
  let (reg, c, g) ← g.alloc
  some ⟨c ++ if (0x7fffffff : BitVec 64).ult value then dtCgSetx reg value
    else emit (.movImm reg (value.truncate 32)), reg, g⟩

/-- Offsets in `dt_dctx_t` and `dt_mstate_t`. -/
def dctxMst : Int := 16
def dctxStrtab : Int := 48
def dctxGvars : Int := 72
def dctxLvars : Int := 80
def dmstFault : Int := 40

/-- `dt_cg_zerosptr`. -/
def dtCgZerosptr (pcb : Pcb) (reg : Nat) : Ir :=
  emit (.load .dw reg regFP dtStkDctx) ++ emit (.load .dw reg reg dctxStrtab) ++
  emit (.aluImm .add reg pcb.zeroOff)

/-- `dt_cg_check_fault`. -/
def dtCgCheckFault (pcb : Pcb) (g : Gen) : Option (Ir × Gen) := do
  let (reg, c, g) ← g.alloc
  let (cf, g) ← g.free reg
  some (c ++ emit (.load .dw reg regFP dtStkDctx) ++ emit (.load .dw reg reg dctxMst) ++
    emit (.load .dw reg reg dmstFault) ++ emit (.branchImm .jne reg 0 pcb.exitlbl) ++ cf, g)

/-- The call of a library function: `%r1` .. `%r5` are taken, `args` fills them, `%r0` is
taken for the result and the arguments are freed. The result of taking `%r0` is ignored. -/
def dtCgCall (f : Func) (args : Ir) (g : Gen) : Option (Ir × Gen) := do
  let (ok, regs, c₁) ← dtRegsetXallocArgs g.regs
  if ok then
    let (regs, c₂) := (dtRegsetXalloc regs 0).getD (regs, [])
    let (regs, c₃) ← dtRegsetFreeArgs regs
    some (c₁ ++ args ++ c₂ ++ emit (.call f) ++ c₃, ⟨g.label, regs, g.label_pos⟩)
  else none

/-- The scalar area a global or clause-local variable is read from. -/
def dtCgLoadArea (area off : Int) (t : IntType) : Generator := fun g => do
  let (reg, c, g) ← g.alloc
  some ⟨c ++ emit (.load .dw reg regFP dtStkDctx) ++ emit (.load .dw reg reg area) ++
    emit (.load t.width reg reg off) ++ dtCgPromote t reg, reg, g⟩

/-- The arguments `dt_cg_prep_dvar_args` sets up to read a thread-local variable. -/
def tvarArgs (pcb : Pcb) (id : BitVec 32) : Ir :=
  emit (.movImm 1 id) ++ emit (.movImm 2 0) ++ emit (.movImm 3 0) ++ dtCgZerosptr pcb 4

/-- The arguments of `dt_get_bvar`. -/
def bvarArgs (id : BitVec 32) : Ir :=
  emit (.load .dw 1 regFP dtStkDctx) ++ emit (.movImm 2 id) ++ emit (.movImm 3 0)

/-- `dt_cg_load_var`. -/
def dtCgLoadVar (pcb : Pcb) (x : Var) : Generator := fun g =>
  match x.kind with
  | .gvar off => dtCgLoadArea dctxGvars off x.type g
  | .lvar off => dtCgLoadArea dctxLvars off x.type g
  | .tvar id => do
    let (c₁, g) ← dtCgCall .dtGetTvar (tvarArgs pcb id) g
    let (reg, c₂, g) ← g.alloc
    let lblNotnull := g.label
    let lblDone := g.label + 1
    let (c₃, g) ← (g.labels 2).free 0
    some ⟨c₁ ++ c₂ ++ emit (.branchImm .jne 0 0 lblNotnull) ++ emit (.movImm reg 0) ++
      emit (.jump lblDone) ++ emitl lblNotnull (.load x.type.width reg 0 0) ++
      dtCgPromote x.type reg ++ emitl lblDone .nop ++ c₃, reg, g⟩
  | .bvar id => do
    let (c₁, g) ← dtCgCall .dtGetBvar (bvarArgs id) g
    let (c₂, g) ← dtCgCheckFault pcb g
    let (reg, c₃, g) ← g.alloc
    let (c₄, g) ← g.free 0
    some ⟨c₁ ++ c₂ ++ c₃ ++ emit (.mov reg 0) ++ c₄, reg, g⟩

/-! ## Operators -/

/-- The code for a signed `DIV` or `MOD` of a non-zero divisor, from the unsigned operation. -/
def dtCgSignedSteps (op : AluOp) (rl rr lbl : Nat) : Ir :=
  let lblL1 := lbl
  let lblL2 := lbl + 1
  let lblL3 := lbl + 2
  let lblL4 := lbl + 3
  let lblL5 := lbl + 4
  emit (.branchImm .jslt rl 0 lblL3) ++
  emit (.branchImm .jslt rr 0 lblL1) ++
  emit (.jump lblL4) ++
  emitl lblL1 (.neg rr) ++
  emitl lblL2 (.alu op rl rr) ++
  emit (.neg rl) ++
  emit (.jump lblL5) ++
  emitl lblL3 (.neg rl) ++
  emit (.branchImm .jsge rr 0 lblL2) ++
  emit (.neg rr) ++
  emitl lblL4 (.alu op rl rr) ++
  emitl lblL5 .nop

/-- Signed `DIV` and `MOD`: first ensure that the divisor is not zero. -/
def dtCgSignedDivMod (op : AluOp) (rl rr lbl : Nat) : Ir :=
  let lblValid := lbl + 5
  emit (.branchImm .jne rr 0 lblValid) ++
  dtCgProbeError dtraceFltDivZero 0 ++
  emitl lblValid .nop ++
  dtCgSignedSteps op rl rr lbl

def dtCgArithmeticOp (op : AluOp) (signed : Bool) (lp rp : Generator) : Generator := fun g => do
  let l ← lp g
  let r ← rp l.gen
  if (op = .mod ∨ op = .div) ∧ signed = true then
    let (cf, g) ← (r.gen.labels 6).free r.reg
    some ⟨l.code ++ r.code ++ dtCgSignedDivMod op l.reg r.reg r.gen.label ++ cf, l.reg, g⟩
  else
    let (cf, g) ← r.gen.free r.reg
    some ⟨l.code ++ r.code ++ emit (.alu op l.reg r.reg) ++ cf, l.reg, g⟩

def dtCgCompareOp (op : JmpOp) (lp rp : Generator) : Generator := fun g => do
  let lblTrue := g.label
  let lblPost := g.label + 1
  let l ← lp (g.labels 2)
  let r ← rp l.gen
  let (cf, g) ← r.gen.free r.reg
  some ⟨l.code ++ r.code ++ emit (.branch op l.reg r.reg lblTrue) ++ cf ++
    emit (.movImm l.reg 0) ++ emit (.jump lblPost) ++
    emitl lblTrue (.movImm l.reg 1) ++ emitl lblPost .nop, l.reg, g⟩

/-- The `MOV` at the end of `lp` is emitted before the result register is known, and
patched once `rp` has been generated. -/
def dtCgTernaryOp (expr lp rp : Generator) : Generator := fun g => do
  let lblFalse := g.label
  let lblPost := g.label + 1
  let e ← expr (g.labels 2)
  let (ce, g) ← e.gen.free e.reg
  let l ← lp g
  let (cl, g) ← l.gen.free l.reg
  let r ← rp g
  some ⟨e.code ++ emit (.branchImm .jeq e.reg 0 lblFalse) ++ ce ++
    l.code ++ emit (.mov r.reg l.reg) ++ cl ++ emit (.jump lblPost) ++
    emitl lblFalse .nop ++ r.code ++ emitl lblPost .nop, r.reg, r.gen⟩

def dtCgLogicalAnd (lp rp : Generator) : Generator := fun g => do
  let lblFalse := g.label
  let lblPost := g.label + 1
  let l ← lp (g.labels 2)
  let (cl, g) ← l.gen.free l.reg
  let r ← rp g
  some ⟨l.code ++ emit (.branchImm .jeq l.reg 0 lblFalse) ++ cl ++
    r.code ++ emit (.branchImm .jeq r.reg 0 lblFalse) ++
    dtCgSetx r.reg 1 ++ emit (.jump lblPost) ++
    emitl lblFalse (.movImm r.reg 0) ++ emitl lblPost .nop, r.reg, r.gen⟩

def dtCgLogicalXor (lp rp : Generator) : Generator := fun g => do
  let lblNext := g.label
  let lblTail := g.label + 1
  let l ← lp (g.labels 2)
  let r ← rp l.gen
  let (cf, g) ← r.gen.free r.reg
  some ⟨l.code ++ emit (.branchImm .jeq l.reg 0 lblNext) ++ dtCgSetx l.reg 1 ++
    emitl lblNext .nop ++ r.code ++ emit (.branchImm .jeq r.reg 0 lblTail) ++
    dtCgSetx r.reg 1 ++ emitl lblTail (.alu .xor l.reg r.reg) ++ cf, l.reg, g⟩

def dtCgLogicalOr (lp rp : Generator) : Generator := fun g => do
  let lblTrue := g.label
  let lblFalse := g.label + 1
  let lblPost := g.label + 2
  let l ← lp (g.labels 3)
  let (cl, g) ← l.gen.free l.reg
  let r ← rp g
  some ⟨l.code ++ emit (.branchImm .jne l.reg 0 lblTrue) ++ cl ++
    r.code ++ emit (.branchImm .jeq r.reg 0 lblFalse) ++
    emitl lblTrue (.movImm r.reg 1) ++ emit (.jump lblPost) ++
    emitl lblFalse (.movImm r.reg 0) ++ emitl lblPost .nop, r.reg, r.gen⟩

def dtCgLogicalNeg (cp : Generator) : Generator := fun g => do
  let lblZero := g.label
  let lblPost := g.label + 1
  let c ← cp (g.labels 2)
  some ⟨c.code ++ emit (.branchImm .jeq c.reg 0 lblZero) ++ emit (.movImm c.reg 0) ++
    emit (.jump lblPost) ++ emitl lblZero (.movImm c.reg 1) ++ emitl lblPost .nop,
    c.reg, c.gen⟩

/-- Code appended to a child's, on the child's register. -/
def dtCgUnary (cp : Generator) (f : Nat → Ir) : Generator := fun g => do
  let c ← cp g
  some ⟨c.code ++ f c.reg, c.reg, c.gen⟩

def dtCgOp1 (op : Op1) (cp : Generator) : Generator :=
  match op with
  | .lneg => dtCgLogicalNeg cp
  | .bneg => dtCgUnary cp fun reg => emit (.aluImm .xor reg (-1))
  | .ipos => cp
  | .ineg => dtCgUnary cp fun reg => emit (.neg reg)

/-- The binary cases of `dt_cg_node`. `dt_cg_compare_signed` is the sign of the promoted
type of the operands. -/
def dtCgOp2 (op : Op2) (lt rt : IntType) (lp rp : Generator) : Generator :=
  let signed := (op.type lt rt).signed
  let compareSigned := (lt.promote rt).signed
  match op with
  | .lor => dtCgLogicalOr lp rp
  | .lxor => dtCgLogicalXor lp rp
  | .land => dtCgLogicalAnd lp rp
  | .bor => dtCgArithmeticOp .or signed lp rp
  | .xor => dtCgArithmeticOp .xor signed lp rp
  | .band => dtCgArithmeticOp .and signed lp rp
  | .equ => dtCgCompareOp .jeq lp rp
  | .neq => dtCgCompareOp .jne lp rp
  | .lt => dtCgCompareOp (if compareSigned then .jslt else .jlt) lp rp
  | .le => dtCgCompareOp (if compareSigned then .jsle else .jle) lp rp
  | .gt => dtCgCompareOp (if compareSigned then .jsgt else .jgt) lp rp
  | .ge => dtCgCompareOp (if compareSigned then .jsge else .jge) lp rp
  | .lsh => dtCgArithmeticOp .lsh signed lp rp
  | .rsh => dtCgArithmeticOp (if signed then .arsh else .rsh) signed lp rp
  | .add => dtCgArithmeticOp .add signed lp rp
  | .sub => dtCgArithmeticOp .sub signed lp rp
  | .mul => dtCgArithmeticOp .mul signed lp rp
  | .div => dtCgArithmeticOp .div signed lp rp
  | .mod => dtCgArithmeticOp .mod signed lp rp

def dtCgNode (pcb : Pcb) : Node → Generator
  | .int value _ => dtCgInt value
  | .var x => dtCgLoadVar pcb x
  | .op1 op cp => dtCgOp1 op (dtCgNode pcb cp)
  | .op2 op lp rp => dtCgOp2 op lp.type rp.type (dtCgNode pcb lp) (dtCgNode pcb rp)
  | .op3 expr lp rp => dtCgTernaryOp (dtCgNode pcb expr) (dtCgNode pcb lp) (dtCgNode pcb rp)
  | .cast t rp => dtCgUnary (dtCgNode pcb rp) (dtCgTypecast rp.type t)

end DTrace.Cg
