import DTrace.Cg.Read

/-!
# Assignments and increments of scalar variables

`dt_cg_store_var` and `dt_cg_incdec_op` for the variables an integer can be in: the global and
clause-local areas, thread-local variables and elements of associative arrays. A store cuts the
value to the width of the variable, and the register that held the value is the result of the
expression as it is. An increment works on the bytes of the variable without their sign.
-/

namespace DTrace.Cg

open LabelCode Bpf

/-! ## Variables -/

/-- The keys of an element of an associative array, as `dt_cg_arglist` has them. All of them can be
read, and `TUPSZ` is at least the size that the tuple asks for. -/
structure Arglist (X : XEnv) where
  diftupregs : Nat
  maxtuplesize : Nat
  args : List Arg
  code : TupleCode
  emitted : dtCgArglist diftupregs args maxtuplesize = some code
  fits : code.maxtuplesize ≤ 4 + X.tupleSize
  bounded : 4 + X.tupleSize < 2 ^ 64
  blocks : List (List Byte)
  read : Cg.collect Cg.block X.keys 0 args = some blocks

namespace Arglist
variable {X : XEnv} (args : Arglist X)

/-- The code for the tuple: a register is taken for the address of the tuple assembly area. -/
def gen (g : Gen) : Option XEmitted := do
  let (treg, c, g) ← g.alloc
  some ⟨lift c ++ [⟨0, .arglist treg args.code⟩], treg, g⟩

/-- The bytes of the tuple after the variable ID, with zeros up to the size of the area. -/
def tuple : Tuple :=
  List.ofFn fun i : Fin X.tupleSize => .ofFin ((encode X.tlskey args.args args.blocks).getD (4 + i) 0)

variable {args} {g : Gen} {out : XEmitted}

theorem gen_some (h : args.gen g = some out) : ∃ c,
    dtRegsetAlloc g.regs = some (out.reg, out.gen.regs, c) ∧ out.gen.label = g.label ∧
      out.code = lift (save g.regs out.reg) ++ [⟨0, .arglist out.reg args.code⟩] := by
  simp only [gen, Option.bind_eq_bind, Option.bind_eq_some_iff, Prod.exists, Option.some.injEq] at h
  obtain ⟨treg, c, g', ha, rfl⟩ := h
  obtain ⟨hal, hlabel⟩ := Gen.alloc_some ha
  obtain ⟨-, -, -, -, -, rfl⟩ := dtRegsetXalloc_some (dtRegsetAlloc_xalloc hal).2
  exact ⟨_, hal, hlabel, rfl⟩

theorem alloc (h : args.gen g = some out) :
    ∃ c, dtRegsetAlloc g.regs = some (out.reg, out.gen.regs, c) := by
  obtain ⟨c, hal, -⟩ := gen_some h
  exact ⟨c, hal⟩

theorem label_le (h : args.gen g = some out) : g.label ≤ out.gen.label := by
  obtain ⟨-, -, hlabel, -⟩ := gen_some h
  exact hlabel.ge

theorem inRange (h : args.gen g = some out) : InRange g.label out.gen.label (labels out.code) := by
  obtain ⟨-, -, -, hcode⟩ := gen_some h
  rw [hcode, labels_append, labels_lift, labels_save]
  exact InRange.nil _ _

/-- **The code for a tuple** runs to its end, whatever the area held. Nothing but the area changes,
and no register but the one that it takes. -/
theorem run (h : args.gen g = some out) (s : XState) : ∃ s', Frag (xexec X) out.code s s' ∧
    s'.st.regs out.reg = X.tupleAddr ∧
    (∀ q ∈ g.regs.active, q ≠ out.reg → s'.st.regs q = s.st.regs q) ∧
    Slots s.st s'.st ∧ s'.dvars = s.dvars ∧
    (List.ofFn fun i : Fin X.tupleSize => s'.st.mem (X.tupleAddr + BitVec.ofNat 64 (4 + i))) =
      args.tuple ∧
    ∀ a, 4 + X.tupleSize ≤ (a - X.tupleAddr).toNat → s'.st.mem a = s.st.mem a := by
  obtain ⟨-, -, -, hcode⟩ := gen_some h
  obtain ⟨σ, f, hregs, hmem, -, hstack⟩ := frag_save (X.base s.dvars) g.regs out.reg s.st
  have hexec := execTuple_arglist X.tupleEnv args.emitted (areaAt σ.mem X.tupleAddr)
  rw [show Cg.collect Cg.block X.tupleEnv.slots 0 args.args = some args.blocks from args.read]
    at hexec
  obtain ⟨-, st, hst, hholds⟩ := hexec
  let s' : XState := ⟨(σ.setMem (putArea σ.mem X.tupleAddr (4 + X.tupleSize) st.area)).setReg
    out.reg X.tupleAddr, s.dvars⟩
  have hstep : xexec X (.arglist out.reg args.code) ⟨σ, s.dvars⟩ = .next s' := by
    simp only [xexec, hst, s']
  refine ⟨s', hcode ▸ (frag_lift f).append (Frag.single hstep) (hcode ▸ (inRange h).nodup),
    State.setReg_regs_self _ _ _,
    fun q _ hq => ?_, Slots.of_spill hstack, rfl, ?_, fun a ha => ?_⟩
  · rw [← hregs]
    exact State.setReg_regs_of_ne _ _ hq
  · -- a byte of the area is the byte of the tuple, and zero behind it
    refine congrArg List.ofFn (funext fun i => ?_)
    have hbound := args.bounded
    have hoff : (X.tupleAddr + BitVec.ofNat 64 (4 + i) - X.tupleAddr).toNat = 4 + i := by
      have := i.isLt
      bv_omega
    show putArea _ _ _ _ _ = _
    rw [putArea, hoff, if_pos (by omega), hholds (4 + i) (show 4 + i.val < 4 + X.tupleSize by omega)]
    rfl
  · show putArea _ _ _ _ _ = _
    rw [putArea, if_neg (by omega), hmem]

end Arglist

/-- A dynamic variable. -/
inductive DvarRef (X : XEnv) where
  | tvar (id : BitVec 32)
  | assoc (id : BitVec 32) (args : Arglist X)

/-- A variable that can be assigned to. An offset is one that a load can encode. -/
inductive LVar (X : XEnv) where
  | gvar (off : { n : Nat // n < 32768 })
  | lvar (off : { n : Nat // n < 32768 })
  | dvar (ref : DvarRef X)

/-! ## Generators -/

section
variable {X : XEnv}

/-- `dt_cg_prep_dvar_args` and the call. `store` is the register with the value, for a store. -/
def dtCgDvarCall (pcb : Pcb) (ref : DvarRef X) (store : Option Nat) (g : Gen) :
    Option (XIr × Gen) :=
  match ref with
  | .tvar id => dtCgCallX (.insn (.call .dtGetTvar)) (fun regs => some (regs,
      emit (.movImm 1 id) ++ storeArgs 2 store ++ dtCgZerosptr pcb 4)) g
  | .assoc id args => do
    let t ← args.gen g
    let (c, g) ← dtCgCallX (.call .dtGetAssoc) (assocArgs pcb id t.reg store) t.gen
    some (t.code ++ c, g)

/-- `dt_cg_store_var` by value to a global or clause-local variable. -/
def dtCgStoreArea (area : Int) (off : Nat) (op : Width) (reg : Nat) (g : Gen) :
    Option (XIr × Gen) := do
  let (r, c₁, g) ← g.alloc
  let (c₂, g) ← g.free r
  some (lift (c₁ ++ emit (.load .dw r regFP dtStkDctx) ++ emit (.load .dw r r area) ++
    emit (.store op r off reg) ++ c₂), g)

/-- `dt_cg_store_var` by value to a dynamic variable. -/
def dtCgStoreDvar (pcb : Pcb) (ref : DvarRef X) (op : Width) (reg : Nat) (g : Gen) :
    Option (XIr × Gen) := do
  let lblDone := g.label
  let lblNotnull := g.label + 1
  let (c₁, g) ← dtCgDvarCall pcb ref (some reg) (g.labels 2)
  let (r, c₂, g) ← g.alloc
  let (c₃, g) ← g.free 0
  let (c₄, g) ← g.free r
  some (c₁ ++ lift (emit (.branchImm .jeq reg 0 lblDone) ++
    emit (.branchImm .jne 0 0 lblNotnull) ++ emit (.movImm 0 0) ++ emit .exit ++ c₂ ++
    emitl lblNotnull (.mov r 0) ++ c₃ ++ emit (.store op r 0 reg) ++ c₄ ++ emitl lblDone .nop), g)

/-- `dt_cg_store_var` by value: the value is in `reg`. -/
def dtCgStoreVar (pcb : Pcb) (x : LVar X) (op : Width) (reg : Nat) (g : Gen) :
    Option (XIr × Gen) :=
  match x with
  | .gvar off => dtCgStoreArea dctxGvars off op reg g
  | .lvar off => dtCgStoreArea dctxLvars off op reg g
  | .dvar ref => dtCgStoreDvar pcb ref op reg g

/-- `dt_cg_load_var` of the address of a global or clause-local variable. -/
def dtCgRefArea (area : Int) (off : Nat) (g : Gen) : Option XEmitted := do
  let (reg, c, g) ← g.alloc
  some ⟨lift (c ++ emit (.load .dw reg regFP dtStkDctx) ++ emit (.load .dw reg reg area) ++
    emit (.aluImm .add reg (BitVec.ofNat 32 off))), reg, g⟩

/-- `dt_cg_load_var` of the address of a dynamic variable: zero if it has none. -/
def dtCgRefDvar (pcb : Pcb) (ref : DvarRef X) (g : Gen) : Option XEmitted := do
  let (c₁, g) ← dtCgDvarCall pcb ref none g
  let (reg, c₂, g) ← g.alloc
  let lblNotnull := g.label
  let lblDone := g.label + 1
  let (c₃, g) ← (g.labels 2).free 0
  some ⟨c₁ ++ lift (c₂ ++ emit (.branchImm .jne 0 0 lblNotnull) ++ emit (.movImm reg 0) ++
    emit (.jump lblDone) ++ emitl lblNotnull (.mov reg 0) ++ emitl lblDone .nop ++ c₃), reg, g⟩

/-- The end of `dt_cg_incdec_op`: the address is in `addr`, the result goes to `reg`. -/
def dtCgIncdecTail (op : Width) (alu : AluOp) (post : Bool) (reg addr : Nat) (g : Gen) :
    Option (Ir × Gen) := do
  let (c₁, g) ←
    if post then do
      let (regs, c₀) := (dtRegsetXalloc g.regs 0).getD (g.regs, [])
      let (regs, c₁) ← dtRegsetFree regs 0
      some (c₀ ++ emit (.mov 0 reg) ++ emit (.aluImm alu 0 1) ++ emit (.store op addr 0 0) ++ c₁,
        (⟨g.label, regs, g.label_pos⟩ : Gen))
    else some (emit (.aluImm alu reg 1) ++ emit (.store op addr 0 reg), g)
  let (c₂, g) ← g.free addr
  some (emit (.load op reg addr 0) ++ c₁ ++ c₂, g)

/-- `dt_cg_incdec_op` of an integer variable; `inc` tells `BPF_ADD` from `BPF_SUB`. -/
def dtCgIncdecOp (pcb : Pcb) (x : LVar X) (op : Width) (inc post : Bool) (g : Gen) :
    Option XEmitted := do
  let alu : AluOp := if inc then .add else .sub
  let (reg, c₁, g) ← g.alloc
  match x with
  | .gvar off => do
    let child ← dtCgRefArea dctxGvars off g
    let (c₂, g) ← dtCgIncdecTail op alu post reg child.reg child.gen
    some ⟨lift c₁ ++ child.code ++ lift c₂, reg, g⟩
  | .lvar off => do
    let child ← dtCgRefArea dctxLvars off g
    let (c₂, g) ← dtCgIncdecTail op alu post reg child.reg child.gen
    some ⟨lift c₁ ++ child.code ++ lift c₂, reg, g⟩
  | .dvar ref => do
    let child ← dtCgRefDvar pcb ref g
    let lblDflt := child.gen.label
    let lblDone := child.gen.label + 1
    -- the variable may not exist yet: it is then created with the value `1` or `-1`
    let (c₂, g) ← dtCgStoreDvar pcb ref op reg (child.gen.labels 2)
    let (c₃, g) ← dtCgIncdecTail op alu post reg child.reg g
    some ⟨lift c₁ ++ child.code ++ lift (emit (.branchImm .jne child.reg 0 lblDflt) ++
      emit (.movImm reg (if inc then 1 else -1))) ++ c₂ ++
      lift ((if post then emit (.movImm reg 0) else []) ++ emit (.jump lblDone) ++
        emitl lblDflt .nop ++ c₃ ++ emitl lblDone .nop), reg, g⟩

/-- An expression that stores to a variable: `x = e` and `x op= e`, with the new value already
computed in a register, or an increment or decrement. -/
inductive Update where
  | asgn (reg : Nat)
  | incdec (inc post : Bool)
  deriving DecidableEq, Repr

def dtCgUpdate (pcb : Pcb) (x : LVar X) (t : IntType) (u : Update) (g : Gen) : Option XEmitted :=
  match u with
  | .asgn reg => (dtCgStoreVar pcb x t.width reg g).map fun (c, g) => ⟨c, reg, g⟩
  | .incdec inc post => dtCgIncdecOp pcb x t.width inc post g

end

end DTrace.Cg
