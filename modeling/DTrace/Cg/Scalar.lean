import DTrace.Cg.Load
import DTrace.Bpf.Dvars

/-!
# Scalar reads

Every way an expression reads a scalar: a variable (`dt_cg_load_var`), an element of an
associative array, and the object a pointer refers to (`DT_TOK_DEREF`, `DT_TOK_PTR` and
`DT_TOK_DOT` of `dt_cg_node`). Each path extends the sign on its own, or does not:

* variables and `*p` for a kernel pointer use the flags of the node that is read;
* `p->m` and `s.m` for a kernel pointer use those of the **left operand**, a pointer or a
  structure, which are never signed;
* reads through pointers to DTrace-managed or `alloca` memory load and leave it at that.

`read_value` gives the register's contents for all of them.
-/

namespace DTrace.Cg

open LabelCode Bpf

/-! ## Nodes of the source -/

/-- The type of an operand, as far as the flags of its node go. -/
inductive NodeType where
  | int (t : IntType)
  | pointer
  | sou
  deriving DecidableEq, Repr

/-- `DT_NF_SIGNED`, as `dt_node_type_assign` sets it. -/
def NodeType.signed : NodeType → Bool
  | .int t => t.signed
  | .pointer => false
  | .sou => false

/-- What a pointer refers to: `DT_NF_ALLOCA`, `DT_NF_DPTR`, or neither. -/
inductive PtrClass where
  | kernel | dptr | alloca
  deriving DecidableEq, Repr

/-- `->` or `.` -/
inductive MemberOp where
  | ptr | dot
  deriving DecidableEq, Repr

/-- The type of the left operand. -/
def MemberOp.left : MemberOp → NodeType
  | .ptr => .pointer
  | .dot => .sou

/-- Code that has been generated for an operand and that left its value in a register. -/
structure XOperand where
  code : XIr
  reg : Nat
  gen : Gen
  nodup : (labels code).Nodup
  label_lt : ∀ l ∈ labels code, l < gen.label
  active : reg ∈ gen.regs.active
  reg_pos : 0 < reg

theorem XOperand.reg_ne_regFP (dn : XOperand) : dn.reg ≠ regFP := by
  have hlt := dn.gen.regs.active_lt dn.reg dn.active
  have hsize := dn.gen.regs.size_le
  unfold regFP
  omega

structure XEmitted where
  code : XIr
  reg : Nat
  gen : Gen

/-! ## Generators -/

def dtraceFltBadaddr : BitVec 32 := 1
def dtraceFltBadsize : BitVec 32 := 10

def dtStkSp : Int := -16

def dctxScratchmem : Int := 40
def dmstScratchTop : Int := 16

/-- `dt_cg_probe_error` with a register operand. -/
def dtCgProbeErrorReg (fault : BitVec 32) (ill : Nat) : Ir :=
  (if ill ≠ 4 then emit (.mov 4 ill) else emit (.movImm 4 (BitVec.ofNat 32 ill))) ++
  emit (.load .dw 1 regFP dtStkDctx) ++ emit (.movImm 2 (-1)) ++ emit (.aluImm .add 2 3) ++
  emit (.movImm 3 fault) ++ emit (.call .dtProbeError) ++ emit .exit

def dtCgCheckNotnull (reg : Nat) (g : Gen) : Ir × Gen :=
  let lblNotnull := g.label
  (emit (.branchImm .jne reg 0 lblNotnull) ++ dtCgProbeError dtraceFltBadaddr 0 ++
    emitl lblNotnull .nop, g.labels 1)

/-- The size of an access: `DT_ISIMM` or `DT_ISREG`. -/
inductive SizeArg where
  | imm (size : BitVec 64)
  | reg (size : Nat)
  deriving DecidableEq, Repr

/-- The subtraction of the size from `%r0`. -/
def SizeArg.sub : SizeArg → Insn
  | .imm size => .aluImm .sub 0 (size.truncate 32)
  | .reg size => .alu .sub 0 size

/-- `dt_cg_probe_error` with the size as the illegal value. -/
def SizeArg.probeError (fault : BitVec 32) : SizeArg → Ir
  | .imm size => dtCgProbeError fault (size.truncate 32)
  | .reg size => dtCgProbeErrorReg fault size

/-- `dt_cg_alloca_access_check`. -/
def dtCgAllocaAccessCheck (scratchsize : BitVec 32) (reg : Nat) (size : SizeArg) (g : Gen) :
    Option (Ir × Gen) := do
  let lblIllval := g.label
  let lblBaseOk := g.label + 1
  let lblOk := g.label + 2
  let (regs, c₀) := (dtRegsetXalloc g.regs 0).getD (g.regs, [])
  let (regs, c₁) ← dtRegsetFree regs 0
  some (c₀ ++ emit (.load .dw 0 regFP dtStkDctx) ++ emit (.load .dw 0 0 dctxMst) ++
    emit (.load .dw 0 0 dmstScratchTop) ++
    emit (.branchImm .jslt reg 8 lblIllval) ++
    emit (.branchImm .jsge reg scratchsize lblIllval) ++
    emit (.branch .jlt reg 0 lblBaseOk) ++
    emitl lblIllval .nop ++ dtCgProbeErrorReg dtraceFltBadaddr reg ++
    emitl lblBaseOk .nop ++ emit size.sub ++
    emit (.branch .jle reg 0 lblOk) ++ size.probeError dtraceFltBadsize ++
    emitl lblOk .nop ++ c₁, ⟨g.label + 3, regs, Nat.succ_pos _⟩)

/-- `dt_cg_alloca_ptr` with the same register for source and destination. -/
def dtCgAllocaPtr (reg : Nat) (g : Gen) : Option (Ir × Gen) := do
  let (r, c₁, g) ← g.alloc
  let (c₂, g) ← g.free r
  some (c₁ ++ emit (.load .dw r regFP dtStkDctx) ++ emit (.load .dw r r dctxScratchmem) ++
    emit (.alu .add r reg) ++ emit (.mov reg r) ++ c₂, g)

/-- The call `i` of a helper or library function. The code that fills the argument registers may
use the register set. -/
def dtCgCallX (i : XInsn) (args : Regset → Option (Regset × Ir)) (g : Gen) :
    Option (XIr × Gen) := do
  let (ok, regs, c₁) ← dtRegsetXallocArgs g.regs
  if ok then
    let (regs, a) ← args regs
    let (regs, c₂) := (dtRegsetXalloc regs 0).getD (regs, [])
    let (regs, c₃) ← dtRegsetFreeArgs regs
    some (lift c₁ ++ lift a ++ lift c₂ ++ [⟨0, i⟩] ++ lift c₃, ⟨g.label, regs, g.label_pos⟩)
  else none

/-- The arguments of `bpf_probe_read`: the stack, the size and the address. -/
def probeReadArgs (reg : Nat) (size : BitVec 32) : Ir :=
  emit (.mov 3 reg) ++ emit (.load .dw 1 regFP dtStkSp) ++ emit (.movImm 2 size)

/-- `dt_cg_load_scalar`: copy the scalar onto the stack and load it from there. `flags` is the
node whose flags decide about the sign. -/
def dtCgLoadScalar (flags : NodeType) (op : Width) (reg : Nat) (g : Gen) : Option (XIr × Gen) := do
  let lblOkay := g.label
  let (c₁, g) ← dtCgCallX (.call .probeRead)
    (fun regs => some (regs, probeReadArgs reg (BitVec.ofNat 32 op.bytes))) (g.labels 1)
  let (c₂, g) ← g.free 0
  some (c₁ ++ lift (emit (.branchImm .jeq 0 0 lblOkay) ++ c₂ ++
    dtCgProbeErrorReg dtraceFltBadaddr reg ++ emitl lblOkay .nop ++
    emit (.load .dw reg regFP dtStkSp) ++ emit (.load op reg reg 0) ++
    dtCgPromote ⟨op, flags.signed⟩ reg), g)

/-- The end of `DT_TOK_DEREF`, `DT_TOK_PTR` and `DT_TOK_DOT`: the address is in `reg`, and
`cls` are the flags of the pointer. -/
def dtCgFetch (scratchsize : BitVec 32) (cls : PtrClass) (flags : NodeType) (op : Width)
    (reg : Nat) (g : Gen) : Option (XIr × Gen) :=
  match cls with
  | .alloca => do
    let (c₁, g) ← dtCgAllocaAccessCheck scratchsize reg (.imm (BitVec.ofNat 64 op.bytes)) g
    let (c₂, g) ← dtCgAllocaPtr reg g
    some (lift (c₁ ++ c₂ ++ emit (.load op reg reg 0)), g)
  | .dptr => some (lift (emit (.load op reg reg 0)), g)
  | .kernel => dtCgLoadScalar flags op reg g

/-- The offset of a member, added unless it is zero. -/
def addOffset (reg : Nat) (off : BitVec 32) : Ir :=
  if off ≠ 0 then emit (.aluImm .add reg off) else []

/-- The arguments `isstore` and `nval`, in `r` and the register after it. `store` is the register
with the value, for a store. -/
def storeArgs (r : Nat) (store : Option Nat) : Ir :=
  match store with
  | some reg => emit (.movImm r 1) ++ emit (.mov (r + 1) reg)
  | none => emit (.movImm r 0) ++ emit (.movImm (r + 1) 0)

/-- The arguments of `dt_get_assoc` as `dt_cg_prep_dvar_args` sets them up. The tuple's
register is freed on the way. -/
def assocArgs (pcb : Pcb) (id : BitVec 32) (tuple : Nat) (store : Option Nat) (regs : Regset) :
    Option (Regset × Ir) := do
  let (regs, c) ← dtRegsetFree regs tuple
  some (regs, emit (.movImm 1 id) ++ emit (.mov 2 tuple) ++ c ++ storeArgs 3 store ++
    dtCgZerosptr pcb 5)

/-- `dt_cg_load_var` for an element of an associative array, after `dt_cg_arglist`. -/
def dtCgLoadAssoc (pcb : Pcb) (id : BitVec 32) (t : IntType) (tuple : XOperand) :
    Option XEmitted := do
  let (c₁, g) ← dtCgCallX (.call .dtGetAssoc) (assocArgs pcb id tuple.reg none) tuple.gen
  let (reg, c₂, g) ← g.alloc
  let lblNotnull := g.label
  let lblDone := g.label + 1
  let (c₃, g) ← (g.labels 2).free 0
  some ⟨tuple.code ++ c₁ ++ lift (c₂ ++ emit (.branchImm .jne 0 0 lblNotnull) ++
    emit (.movImm reg 0) ++ emit (.jump lblDone) ++ emitl lblNotnull (.load t.width reg 0 0) ++
    dtCgPromote t reg ++ emitl lblDone .nop ++ c₃), reg, g⟩

/-- A scalar read: the node is a variable, or an operator whose operand has been generated. -/
inductive Read where
  | gvar (off : Int)
  | lvar (off : Int)
  | tvar (id : BitVec 32)
  | assoc (id : BitVec 32) (tuple : XOperand)
  | deref (cls : PtrClass) (child : XOperand)
  | member (op : MemberOp) (off : BitVec 32) (cls : PtrClass) (left : XOperand)

def dtCgRead (pcb : Pcb) (scratchsize : BitVec 32) (t : IntType) (r : Read) (g : Gen) :
    Option XEmitted :=
  let var (kind : VarKind) :=
    (dtCgLoadVar pcb ⟨kind, t⟩ g).map fun out => ⟨lift out.code, out.reg, out.gen⟩
  match r with
  | .gvar off => var (.gvar off)
  | .lvar off => var (.lvar off)
  | .tvar id => var (.tvar id)
  | .assoc id tuple => dtCgLoadAssoc pcb id t tuple
  | .deref cls child => do
    let (c₁, g) := dtCgCheckNotnull child.reg child.gen
    let (c₂, g) ← dtCgFetch scratchsize cls (.int t) t.width child.reg g
    some ⟨child.code ++ lift c₁ ++ c₂, child.reg, g⟩
  | .member op off cls left => do
    let (c₁, g) := dtCgCheckNotnull left.reg left.gen
    let (c₂, g) ← dtCgFetch scratchsize cls op.left t.width left.reg g
    some ⟨left.code ++ lift (c₁ ++ addOffset left.reg off) ++ c₂, left.reg, g⟩

end DTrace.Cg
