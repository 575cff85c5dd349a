import DTrace.Bpf.Insn

/-!
# Integer expressions and constant folding — `dt_parser.c`

The parse trees of D integer expressions, with the type each node has after cooking, and the
constant folding that `dt_node_op1` and `dt_node_op2` do while the tree is built. Values are
64-bit words; a type only says how wide and how signed a value is.
-/

namespace DTrace.Cg

open Bpf

structure IntType where
  width : Width
  signed : Bool
  deriving DecidableEq, Repr

namespace IntType

def size (t : IntType) : Nat := t.width.bytes

/-- `DT_INT_TYPE`. -/
def int : IntType := ⟨.w, true⟩

/-- The rank of `dt_type_promote`: the size in bits, plus one for unsigned types. -/
def rank (t : IntType) : Nat := t.size * 8 + if t.signed then 0 else 1

/-- `dt_type_promote`. Types of equal rank have the same width and sign. -/
def promote (lt rt : IntType) : IntType := if rt.rank ≤ lt.rank then lt else rt

end IntType

inductive Op1 where
  | ineg | ipos | bneg | lneg
  deriving DecidableEq, Repr

inductive Op2 where
  | lor | lxor | land | bor | xor | band | equ | neq | lt | le | gt | ge
  | lsh | rsh | add | sub | mul | div | mod
  deriving DecidableEq, Repr

/-- Where a variable lives: global and clause-local ones at an offset of their area,
thread-local and built-in ones behind a library call. -/
inductive VarKind where
  | gvar (off : Int) | lvar (off : Int) | tvar (id : BitVec 32) | bvar (id : BitVec 32)
  deriving DecidableEq, Repr

structure Var where
  kind : VarKind
  type : IntType
  deriving DecidableEq, Repr

inductive Node where
  | int (value : BitVec 64) (type : IntType)
  | var (x : Var)
  | op1 (op : Op1) (cp : Node)
  | op2 (op : Op2) (lp rp : Node)
  | op3 (expr lp rp : Node)
  | cast (type : IntType) (rp : Node)
  deriving DecidableEq, Repr

/-! ## Types of cooked nodes -/

def Op1.type (op : Op1) (t : IntType) : IntType :=
  match op with
  | .ineg | .ipos | .bneg => t
  | .lneg => .int

def Op2.type (op : Op2) (lt rt : IntType) : IntType :=
  match op with
  | .lor | .lxor | .land | .equ | .neq | .lt | .le | .gt | .ge => .int
  | .lsh | .rsh => lt
  | .bor | .xor | .band | .add | .sub | .mul | .div | .mod => lt.promote rt

def Node.type : Node → IntType
  | .int _ t => t
  | .var x => x.type
  | .op1 op cp => op.type cp.type
  | .op2 op lp rp => op.type lp.type rp.type
  | .op3 _ lp rp => if lp.type = rp.type then lp.type else lp.type.promote rp.type
  | .cast t _ => t

/-! ## Constant folding -/

inductive FoldError where
  /-- `D_DIV_ZERO`: expression contains division by zero -/
  | divZero
  /-- The C expression that folds the node is undefined. -/
  | undefined
  deriving DecidableEq, Repr

/-- The truth value `1` or `0`. -/
def ofBool (b : Bool) : BitVec 64 := if b then 1 else 0

/-- Does casting change the value? The test shared by `dt_node_op2` and `dt_cg_typecast`. -/
def castNeeded (src dst : IntType) : Bool :=
  if (8 - dst.size) * 8 = 0 then false
  else if src.size < dst.size then !(dst.signed || !src.signed)
  else if dst.size = src.size then !(dst.signed == src.signed)
  else true

/-- The shift by which a cast to `dst` moves the value up and back down. -/
def castShift (dst : IntType) : Nat := (8 - dst.size) * 8

def foldOp1 (op : Op1) (v : BitVec 64) (t : IntType) : BitVec 64 :=
  match op with
  | .ineg =>
    -- unsigned values are cut to the width of their type
    if t.signed then -v else -v &&& (BitVec.allOnes 64 >>> (64 - t.size * 8))
  | .ipos => v
  | .bneg => ~~~v
  | .lneg => ofBool (v == 0)

def foldDiv (signed : Bool) (l r : BitVec 64) : Except FoldError (BitVec 64) :=
  if signed then
    if l = BitVec.intMin 64 ∧ r = BitVec.allOnes 64 then .error .undefined else .ok (l.sdiv r)
  else .ok (l.udiv r)

def foldMod (signed : Bool) (l r : BitVec 64) : Except FoldError (BitVec 64) :=
  if signed then
    if l = BitVec.intMin 64 ∧ r = BitVec.allOnes 64 then .error .undefined else .ok (l.srem r)
  else .ok (l.umod r)

/-- The switch of `dt_node_op2` over two integer constants. -/
def foldOp2 (op : Op2) (l r : BitVec 64) (lt rt : IntType) : Except FoldError (BitVec 64) :=
  let signed := (lt.promote rt).signed
  match op with
  | .lor => .ok (ofBool (l != 0 || r != 0))
  | .lxor => .ok (ofBool (l != 0) ^^^ ofBool (r != 0))
  | .land => .ok (ofBool (l != 0 && r != 0))
  | .bor => .ok (l ||| r)
  | .xor => .ok (l ^^^ r)
  | .band => .ok (l &&& r)
  | .equ => .ok (ofBool (l == r))
  | .neq => .ok (ofBool (l != r))
  | .lt => .ok (ofBool (if signed then l.slt r else l.ult r))
  | .le => .ok (ofBool (if signed then l.sle r else l.ule r))
  | .gt => .ok (ofBool (if signed then r.slt l else r.ult l))
  | .ge => .ok (ofBool (if signed then r.sle l else r.ule l))
  | .lsh => if r.toNat < 64 then .ok (l <<< r.toNat) else .error .undefined
  -- the operands are `uintmax_t`: this shift fills with zeros whatever the type
  | .rsh => if r.toNat < 64 then .ok (l >>> r.toNat) else .error .undefined
  | .add => .ok (l + r)
  | .sub => .ok (l - r)
  | .mul => .ok (l * r)
  | .div => foldDiv signed l r
  | .mod => foldMod signed l r

def foldCast (dst src : IntType) (v : BitVec 64) : BitVec 64 :=
  if castNeeded src dst then
    let n := castShift dst
    if dst.signed then (v <<< n).sshiftRight n else (v <<< n) >>> n
  else v

def dtNodeOp1 (op : Op1) (cp : Node) : Node :=
  match cp with
  -- the folded node is `cp` itself, so it keeps the type of `cp`
  | .int v t => .int (foldOp1 op v t) t
  | _ => .op1 op cp

def dtNodeOp2 (op : Op2) (lp rp : Node) : Except FoldError Node :=
  match rp with
  | .int r rt =>
    if r = 0 ∧ (op = .mod ∨ op = .div) then .error .divZero
    else
      match lp with
      | .int l lt => do
        let v ← foldOp2 op l r lt rt
        pure (.int v (op.type lt rt))
      | _ => .ok (.op2 op lp rp)
  | _ => .ok (.op2 op lp rp)

/-- `dt_node_op2` for a cast (`DT_TOK_LPAR`). -/
def dtNodeCast (t : IntType) (rp : Node) : Node :=
  match rp with
  | .int v src => .int (foldCast t src v) t
  | _ => .cast t rp

end DTrace.Cg
