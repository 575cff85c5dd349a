import DTrace.Lib.LabelCode
import Mathlib.Data.BitVec

/-!
# The BPF machine the code generator targets

The instructions `dt_cg.c` emits (`bpf_asm.h`), over the state they act on: the registers,
the 8-byte stack slots addressed from `%fp`, and byte memory. `exec` gives each instruction
its documented meaning; jumps name labels, as they do before `dt_as.c` resolves them.

* ALU operations are the 64-bit ones: `DIV` and `MOD` are unsigned, a zero divisor gives
  `0` and the dividend, and shift counts are taken modulo 64.
* The stack is kept apart from memory: the verifier admits no other way to reach it than
  through `%fp`.
* A call passes its arguments in `%r1` .. `%r5`, returns in `%r0` and destroys
  `%r1` .. `%r5`; what the called function returns is a parameter (`Env`).
-/

namespace DTrace.Bpf

open LabelCode

/-- Memory, one byte per address. -/
abbrev Mem := BitVec 64 → BitVec 8

/-- `BPF_REG_FP`. -/
def regFP : Nat := 10

/-- `BPF_ALU64` operations. -/
inductive AluOp where
  | add | sub | mul | div | or | and | lsh | rsh | mod | xor | arsh
  deriving DecidableEq, Repr

def AluOp.eval : AluOp → BitVec 64 → BitVec 64 → BitVec 64
  | .add, a, b => a + b
  | .sub, a, b => a - b
  | .mul, a, b => a * b
  | .div, a, b => if b = 0 then 0 else a.udiv b
  | .or, a, b => a ||| b
  | .and, a, b => a &&& b
  | .lsh, a, b => a <<< (b.toNat % 64)
  | .rsh, a, b => a >>> (b.toNat % 64)
  | .mod, a, b => if b = 0 then a else a.umod b
  | .xor, a, b => a ^^^ b
  | .arsh, a, b => a.sshiftRight (b.toNat % 64)

/-- Division by zero gives what `BitVec` division by zero does. -/
theorem AluOp.eval_div (a b : BitVec 64) : AluOp.div.eval a b = a / b := by
  show (if b = 0#64 then 0#64 else a / b) = a / b
  split
  · next h => rw [h, BitVec.udiv_zero]
  · rfl

theorem AluOp.eval_mod (a b : BitVec 64) : AluOp.mod.eval a b = a % b := by
  show (if b = 0#64 then a else a % b) = a % b
  split
  · next h => rw [h, BitVec.umod_zero]
  · rfl

/-- `BPF_JMP` conditions. -/
inductive JmpOp where
  | jeq | jne | jlt | jle | jgt | jge | jslt | jsle | jsgt | jsge
  deriving DecidableEq, Repr

def JmpOp.eval : JmpOp → BitVec 64 → BitVec 64 → Bool
  | .jeq, a, b => a == b
  | .jne, a, b => a != b
  | .jlt, a, b => a.ult b
  | .jle, a, b => a.ule b
  | .jgt, a, b => b.ult a
  | .jge, a, b => b.ule a
  | .jslt, a, b => a.slt b
  | .jsle, a, b => a.sle b
  | .jsgt, a, b => b.slt a
  | .jsge, a, b => b.sle a

/-- Load and store sizes. -/
inductive Width where
  | b | h | w | dw
  deriving DecidableEq, Repr

def Width.bytes : Width → Nat
  | .b => 1
  | .h => 2
  | .w => 4
  | .dw => 8

theorem Width.bytes_pos (width : Width) : 0 < width.bytes := by cases width <;> decide

theorem Width.bytes_le (width : Width) : width.bytes ≤ 8 := by cases width <;> decide

/-- The functions of the precompiled BPF library that modelled code calls. -/
inductive Func where
  | dtGetTvar | dtGetBvar | dtProbeError
  deriving DecidableEq, Repr

/-- How many of `%r1` .. `%r5` the function reads. -/
def Func.arity : Func → Nat
  | .dtGetTvar => 4
  | .dtGetBvar => 3
  | .dtProbeError => 4

inductive Insn where
  | nop
  | mov (dst src : Nat)
  | movImm (dst : Nat) (imm : BitVec 32)
  | alu (op : AluOp) (dst src : Nat)
  | aluImm (op : AluOp) (dst : Nat) (imm : BitVec 32)
  | neg (dst : Nat)
  | lddw (dst : Nat) (val : BitVec 64)
  | lddwHi
  | load (sz : Width) (dst src : Nat) (off : Int)
  | store (sz : Width) (dst : Nat) (off : Int) (src : Nat)
  | jump (lbl : Nat)
  | branch (op : JmpOp) (r₁ r₂ lbl : Nat)
  | branchImm (op : JmpOp) (r : Nat) (imm : BitVec 32) (lbl : Nat)
  | call (f : Func)
  | exit
  deriving DecidableEq, Repr

abbrev Ir := Code Insn

/-- An unlabelled instruction (`emit`). -/
def emit (i : Insn) : Ir := [⟨0, i⟩]

/-- A labelled instruction (`emitl`). -/
def emitl (lbl : Nat) (i : Insn) : Ir := [⟨lbl, i⟩]

structure State where
  regs : Nat → BitVec 64
  stack : Int → BitVec 64
  mem : Mem

/-- What the library functions do: `none` when the call raises a fault, otherwise the value
in `%r0` and whatever is left in the argument registers. Modelled calls only read memory. -/
structure Env where
  ret : Func → List (BitVec 64) → Mem → Option (BitVec 64)
  clobber : Func → List (BitVec 64) → Mem → Nat → BitVec 64

/-! ## State updates -/

def State.setReg (s : State) (r : Nat) (v : BitVec 64) : State :=
  { s with regs := Function.update s.regs r v }

def State.setSlot (s : State) (off : Int) (v : BitVec 64) : State :=
  { s with stack := Function.update s.stack off v }

section
variable (s : State) (r q : Nat) (off o : Int) (v : BitVec 64)

@[simp] theorem State.setReg_regs_self : (s.setReg r v).regs r = v := by
  simp [State.setReg]

theorem State.setReg_regs_of_ne {r q : Nat} (h : q ≠ r) : (s.setReg r v).regs q = s.regs q := by
  simp [State.setReg, h]

/-- A register after an update, as a case distinction. -/
theorem State.setReg_regs : (s.setReg r v).regs q = if q = r then v else s.regs q := by
  simp [State.setReg, Function.update_apply]

@[simp] theorem State.setReg_stack : (s.setReg r v).stack = s.stack := rfl

@[simp] theorem State.setReg_mem : (s.setReg r v).mem = s.mem := rfl

@[simp] theorem State.setReg_setReg (w : BitVec 64) :
    (s.setReg r v).setReg r w = s.setReg r w := by
  simp [State.setReg]

@[simp] theorem State.setReg_eq_self : s.setReg r (s.regs r) = s := by
  simp [State.setReg]

@[simp] theorem State.setSlot_regs : (s.setSlot off v).regs = s.regs := rfl

@[simp] theorem State.setSlot_mem : (s.setSlot off v).mem = s.mem := rfl

@[simp] theorem State.setSlot_stack_self : (s.setSlot off v).stack off = v := by
  simp [State.setSlot]

theorem State.setSlot_stack :
    (s.setSlot off v).stack o = if o = off then v else s.stack o := by
  simp [State.setSlot, Function.update_apply]

end

/-- A little-endian load of `n` bytes, zero-extended. -/
def loadLE (m : Mem) (a : BitVec 64) : Nat → BitVec 64
  | 0 => 0
  | n + 1 => (m a).zeroExtend 64 ||| (loadLE m (a + 1) n <<< 8)

/-- A little-endian store of the low `n` bytes of `v`. -/
def storeLE (m : Mem) (a v : BitVec 64) : Nat → Mem
  | 0 => m
  | n + 1 => storeLE (Function.update m a (v.truncate 8)) (a + 1) (v >>> 8) n

/-- The argument registers of a call. -/
def State.args (s : State) (f : Func) : List (BitVec 64) :=
  (List.range f.arity).map fun i => s.regs (i + 1)

/-- The state after a call: `%r0` holds the result, `%r1` .. `%r5` hold anything. -/
def State.afterCall (s : State) (junk : Nat → BitVec 64) (v : BitVec 64) : State :=
  { s with regs := fun r => if r = 0 then v else if r ≤ 5 then junk r else s.regs r }

/-- One instruction. The stack is addressed by whole slots through the frame pointer; everything
else is memory by the byte. -/
def exec (env : Env) : Insn → State → Outcome State
  | .nop, s => .next s
  | .mov dst src, s => .next (s.setReg dst (s.regs src))
  | .movImm dst imm, s => .next (s.setReg dst (imm.signExtend 64))
  | .alu op dst src, s => .next (s.setReg dst (op.eval (s.regs dst) (s.regs src)))
  | .aluImm op dst imm, s => .next (s.setReg dst (op.eval (s.regs dst) (imm.signExtend 64)))
  | .neg dst, s => .next (s.setReg dst (-s.regs dst))
  | .lddw dst val, s => .skip (s.setReg dst val)
  -- the second slot of `lddw` is data, never executed
  | .lddwHi, _ => .stuck
  | .load sz dst src off, s =>
    if src = regFP then
      if sz = .dw then .next (s.setReg dst (s.stack off)) else .stuck
    else
      .next (s.setReg dst (loadLE s.mem (s.regs src + BitVec.ofInt 64 off) sz.bytes))
  | .store sz dst off src, s =>
    if dst = regFP then
      if sz = .dw then .next (s.setSlot off (s.regs src)) else .stuck
    else
      .next { s with
        mem := storeLE s.mem (s.regs dst + BitVec.ofInt 64 off) (s.regs src) sz.bytes }
  | .jump lbl, s => .goto lbl s
  | .branch op r₁ r₂ lbl, s =>
    if op.eval (s.regs r₁) (s.regs r₂) then .goto lbl s else .next s
  | .branchImm op r imm lbl, s =>
    if op.eval (s.regs r) (imm.signExtend 64) then .goto lbl s else .next s
  | .call f, s =>
    match env.ret f (s.args f) s.mem with
    | some v => .next (s.afterCall (env.clobber f (s.args f) s.mem) v)
    | none => .stuck
  | .exit, s => .halt s

section
variable {env : Env} {op : JmpOp} {r r₁ r₂ lbl : Nat} {imm : BitVec 32} {s : State}

/-- A branch whose condition holds. -/
theorem exec_branch_taken (h : op.eval (s.regs r₁) (s.regs r₂) = true) :
    exec env (.branch op r₁ r₂ lbl) s = .goto lbl s := by
  simp [exec, h]

theorem exec_branch_not (h : op.eval (s.regs r₁) (s.regs r₂) = false) :
    exec env (.branch op r₁ r₂ lbl) s = .next s := by
  simp [exec, h]

/-- The same with an immediate operand. -/
theorem exec_branchImm_taken (h : op.eval (s.regs r) (imm.signExtend 64) = true) :
    exec env (.branchImm op r imm lbl) s = .goto lbl s := by
  simp [exec, h]

theorem exec_branchImm_not (h : op.eval (s.regs r) (imm.signExtend 64) = false) :
    exec env (.branchImm op r imm lbl) s = .next s := by
  simp [exec, h]

end

end DTrace.Bpf
