import DTrace.Cg.Emit
import DTrace.Cg.Spill

/-!
# What generated code computes

The value the emitted code leaves in the result register, read off the instructions: one
function per generator, on the values of the operands. `pathValue` assembles them over the
tree. A value is `none` when the code does not reach its end (a signed division by zero
leaves through `dt_probe_error`, a fault in a built-in variable through the exit label).
-/

namespace DTrace.Cg

open LabelCode Bpf BitVec

/-- What expressions read: the address of the DTrace context, and memory. -/
structure Ctx where
  dctx : BitVec 64
  mem : Mem

def ctxOf (σ : State) : Ctx := ⟨σ.stack dtStkDctx, σ.mem⟩

theorem Keeps.ctx {drp : Regset} {σ σ' : State} (h : Keeps drp σ σ') : ctxOf σ' = ctxOf σ := by
  simp [ctxOf, h.dctx, h.mem]

theorem Lends.ctx {drp : Regset} {reg : Nat} {σ σ' : State} (h : Lends drp reg σ σ') :
    ctxOf σ' = ctxOf σ := by
  simp [ctxOf, h.dctx, h.mem]

/-! ## Variables -/

/-- `dt_cg_promote`. -/
def promoteValue (t : IntType) (v : BitVec 64) : BitVec 64 :=
  if t.signed && decide (t.size < 8) then
    (v <<< ((8 - t.size) * 8)).sshiftRight ((8 - t.size) * 8)
  else v

/-- A 64-bit pointer or word at `a + off`. -/
def word (m : Mem) (a : BitVec 64) (off : Int) : BitVec 64 :=
  loadLE m (a + BitVec.ofInt 64 off) 8

def areaValue (area off : Int) (t : IntType) (ctx : Ctx) : BitVec 64 :=
  promoteValue t (loadLE ctx.mem (word ctx.mem ctx.dctx area + BitVec.ofInt 64 off) t.size)

/-- `dt_cg_zerosptr`. -/
def zerosptr (pcb : Pcb) (ctx : Ctx) : BitVec 64 :=
  word ctx.mem ctx.dctx dctxStrtab + pcb.zeroOff.signExtend 64

/-- The thread-local variable's value: `0` when it was never stored to. -/
def tvarValue (env : Env) (pcb : Pcb) (id : BitVec 32) (t : IntType) (ctx : Ctx) :
    Option (BitVec 64) := do
  let p ← env.ret .dtGetTvar [id.signExtend 64, 0, 0, zerosptr pcb ctx] ctx.mem
  some (if p = 0 then 0 else promoteValue t (loadLE ctx.mem p t.size))

/-- `mst->fault`. -/
def faultOf (ctx : Ctx) : BitVec 64 :=
  word ctx.mem (word ctx.mem ctx.dctx dctxMst) dmstFault

def bvarValue (env : Env) (id : BitVec 32) (ctx : Ctx) : Option (BitVec 64) := do
  let v ← env.ret .dtGetBvar [ctx.dctx, id.signExtend 64, 0] ctx.mem
  if faultOf ctx = 0 then some v else none

def varValue (env : Env) (pcb : Pcb) (x : Var) (ctx : Ctx) : Option (BitVec 64) :=
  match x.kind with
  | .gvar off => some (areaValue dctxGvars off x.type ctx)
  | .lvar off => some (areaValue dctxLvars off x.type ctx)
  | .tvar id => tvarValue env pcb id x.type ctx
  | .bvar id => bvarValue env id ctx

/-! ## Operators -/

/-- The four paths of the code for signed `DIV` and `MOD`. -/
def signedDivMod (op : AluOp) (a b : BitVec 64) : BitVec 64 :=
  if a.slt 0 then
    if b.slt 0 then op.eval (-a) (-b) else -op.eval (-a) b
  else
    if b.slt 0 then -op.eval a (-b) else op.eval a b

def arithValue (op : AluOp) (signed : Bool) (a b : BitVec 64) : Option (BitVec 64) :=
  if (op = .mod ∨ op = .div) ∧ signed = true then
    if b = 0 then none else some (signedDivMod op a b)
  else some (op.eval a b)

def castValue (src dst : IntType) (v : BitVec 64) : BitVec 64 :=
  if castNeeded src dst then
    let n := BitVec.ofNat 32 (castShift dst)
    (if dst.signed then AluOp.arsh else AluOp.rsh).eval (AluOp.lsh.eval v (n.signExtend 64))
      (n.signExtend 64)
  else v

theorem castValue_eq_foldCast (src dst : IntType) (v : BitVec 64) :
    castValue src dst v = foldCast dst src v := by
  unfold castValue foldCast
  split
  · rcases dst with ⟨_ | _ | _ | _, _ | _⟩ <;> rfl
  · rfl

/-- Shifting a value up and back down keeps the bits that are not shifted out. -/
theorem getLsbD_shift_back (v : BitVec 64) {n i : Nat} (h : n + i < 64) :
    ((v <<< n) >>> n).getLsbD i = v.getLsbD i ∧
      ((v <<< n).sshiftRight n).getLsbD i = v.getLsbD i := by
  have hlow : (v <<< n).getLsbD (n + i) = v.getLsbD i := by
    rw [getLsbD_shiftLeft, Nat.add_sub_cancel_left, decide_eq_true h,
      decide_eq_false (by omega)]
    rfl
  constructor
  · rw [getLsbD_ushiftRight, hlow]
  · rw [getLsbD_sshiftRight, decide_eq_false (by omega), if_pos h, hlow]
    rfl

/-- A cast keeps the bits of its type. -/
theorem getLsbD_castValue (src dst : IntType) (v : BitVec 64) {i : Nat} (hi : i < dst.size * 8) :
    (castValue src dst v).getLsbD i = v.getLsbD i := by
  have hsize : dst.size ≤ 8 := dst.width.bytes_le
  have hback := getLsbD_shift_back v (show castShift dst + i < 64 by unfold castShift; omega)
  rw [castValue_eq_foldCast, foldCast]
  split
  · split
    · exact hback.2
    · exact hback.1
  · rfl

theorem toNat_castValue_mod (src dst : IntType) (v : BitVec 64) :
    (castValue src dst v).toNat % 2 ^ (dst.size * 8) = v.toNat % 2 ^ (dst.size * 8) := by
  apply Nat.eq_of_testBit_eq
  intro i
  rw [Nat.testBit_mod_two_pow, Nat.testBit_mod_two_pow, ← getLsbD, ← getLsbD]
  by_cases hi : i < dst.size * 8
  · rw [getLsbD_castValue src dst v hi]
  · rw [decide_eq_false hi, Bool.false_and, Bool.false_and]

def op1Value (op : Op1) (v : BitVec 64) : BitVec 64 :=
  match op with
  | .ineg => -v
  | .ipos => v
  | .bneg => v ^^^ allOnes 64
  | .lneg => ofBool (v == 0)

/-- The binary operators that evaluate both operands. -/
def op2Value (op : Op2) (lt rt : IntType) (a b : BitVec 64) : Option (BitVec 64) :=
  let signed := (op.type lt rt).signed
  let compareSigned := (lt.promote rt).signed
  match op with
  | .lor => some (ofBool (a != 0 || b != 0))
  | .lxor => some (ofBool (a != 0) ^^^ ofBool (b != 0))
  | .land => some (ofBool (a != 0 && b != 0))
  | .bor => arithValue .or signed a b
  | .xor => arithValue .xor signed a b
  | .band => arithValue .and signed a b
  | .equ => some (ofBool (JmpOp.jeq.eval a b))
  | .neq => some (ofBool (JmpOp.jne.eval a b))
  | .lt => some (ofBool ((if compareSigned then JmpOp.jslt else .jlt).eval a b))
  | .le => some (ofBool ((if compareSigned then JmpOp.jsle else .jle).eval a b))
  | .gt => some (ofBool ((if compareSigned then JmpOp.jsgt else .jgt).eval a b))
  | .ge => some (ofBool ((if compareSigned then JmpOp.jsge else .jge).eval a b))
  | .lsh => arithValue .lsh signed a b
  | .rsh => arithValue (if signed then .arsh else .rsh) signed a b
  | .add => arithValue .add signed a b
  | .sub => arithValue .sub signed a b
  | .mul => arithValue .mul signed a b
  | .div => arithValue .div signed a b
  | .mod => arithValue .mod signed a b

/-- `&&` and `||` evaluate the right operand only when the left one does not decide. -/
def binValue (op : Op2) (lt rt : IntType) (l r : Option (BitVec 64)) : Option (BitVec 64) := do
  let a ← l
  if op = .land ∧ a = 0 then some 0
  else if op = .lor ∧ a ≠ 0 then some 1
  else op2Value op lt rt a (← r)

end DTrace.Cg
