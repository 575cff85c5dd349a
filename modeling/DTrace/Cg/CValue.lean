import DTrace.Cg.Expr

/-!
# Expressions by their C value

What an expression built from constants, variables, binary operators, `?:`, `&&` and `||`
means in C: each operator converts its operands to the type that C's integer promotions and
usual arithmetic conversions give, wraps an unsigned result to that type, and is undefined
(`none`) where C leaves it undefined, signed overflow included.

The emitted code does all its arithmetic on 64-bit words, so it agrees only where C's narrower
arithmetic gives the same word (`wideOp2`); it also gets the sign of a signed remainder by a
negative divisor wrong (`signedDivMod_mod_of_neg`). `runSafe` says that neither happens among
the operations the expression evaluates, and that each of them was generated in a register set
its code is made for.
-/

namespace DTrace.Cg

open LabelCode Bpf Option
open BitVec hiding not_or

/-! ## C's types

A value is a 64-bit word, the sign or zero extension of a value of its type. -/

namespace IntType

/-- The integer promotions: types narrower than `int` become `int`. -/
def intPromote (t : IntType) : IntType := if t.size < 4 then .int else t

/-- The value of the type that is congruent to `n`. -/
def wrap (t : IntType) (n : Int) : Int :=
  if t.signed then n.bmod (2 ^ (t.size * 8)) else n % 2 ^ (t.size * 8)

/-- The integer a word stands for once converted to the type. -/
def val (t : IntType) (v : BitVec 64) : Int := t.wrap v.toInt

/-- The word converted to the type. -/
def word (t : IntType) (v : BitVec 64) : BitVec 64 := BitVec.ofInt 64 (t.val v)

/-- The result of an operation whose exact result is `n`: an unsigned one wraps, and a signed
one that is not a value of the type is undefined. -/
def result (t : IntType) (n : Int) : Option (BitVec 64) :=
  if t.signed ∧ t.wrap n ≠ n then none else some (BitVec.ofInt 64 (t.wrap n))

end IntType

/-! ## C's operators -/

/-- C's binary operators. The shifts have the promoted type of their left operand, the others
the type of the usual arithmetic conversions. -/
def cOp2 (op : Op2) (lt rt : IntType) (a b : BitVec 64) : Option (BitVec 64) :=
  let t := (lt.promote rt).intPromote
  let x := t.val a
  let y := t.val b
  let s := lt.intPromote
  let count := rt.intPromote.val b
  match op with
  | .lor => some (ofBool (a != 0 || b != 0))
  | .lxor => some (ofBool (a != 0) ^^^ ofBool (b != 0))
  | .land => some (ofBool (a != 0 && b != 0))
  | .bor => some (t.word a ||| t.word b)
  | .xor => some (t.word a ^^^ t.word b)
  | .band => some (t.word a &&& t.word b)
  | .equ => some (ofBool (x == y))
  | .neq => some (ofBool (x != y))
  | .lt => some (ofBool (x < y))
  | .le => some (ofBool (x ≤ y))
  | .gt => some (ofBool (y < x))
  | .ge => some (ofBool (y ≤ x))
  | .lsh =>
    if count < 0 ∨ s.size * 8 ≤ count ∨ s.val a < 0 then none
    else s.result (s.val a * 2 ^ count.toNat)
  | .rsh =>
    if count < 0 ∨ s.size * 8 ≤ count then none
    else some (BitVec.ofInt 64 (s.val a / 2 ^ count.toNat))
  | .add => t.result (x + y)
  | .sub => t.result (x - y)
  | .mul => t.result (x * y)
  | .div => if y = 0 then none else t.result (x.tdiv y)
  | .mod => if y = 0 ∨ t.result (x.tdiv y) = none then none else t.result (x.tmod y)

/-- The value of an expression, given the values of its variables. Unary operators and casts
are not part of this fragment. -/
def cValue (ρ : Var → Option (BitVec 64)) : Node → Option (BitVec 64)
  | .int value t => if t.word value = value then some value else none
  | .var x => (ρ x).filter fun v => x.type.word v == v
  | .op1 _ _ => none
  | .cast _ _ => none
  | .op2 op lp rp => do
    let a ← cValue ρ lp
    if op = .land ∧ a = 0 then some 0
    else if op = .lor ∧ a ≠ 0 then some 1
    else cOp2 op lp.type rp.type a (← cValue ρ rp)
  | .op3 expr lp rp =>
    ((cValue ρ expr).bind fun e => if e = 0 then cValue ρ rp else cValue ρ lp).map
      (lp.type.promote rp.type).intPromote.word

/-! ## Where the code agrees

Two things can go wrong in an operator: C cuts a result or an operand to a narrower unsigned type,
or the remainder gets the wrong sign. -/

/-- The operators on 64-bit words, signed or unsigned by the D type of the operands. -/
def wideOp2 (op : Op2) (lt rt : IntType) (a b : BitVec 64) : Option (BitVec 64) :=
  let signed := (lt.promote rt).signed
  match op with
  | .lor => some (ofBool (a != 0 || b != 0))
  | .lxor => some (ofBool (a != 0) ^^^ ofBool (b != 0))
  | .land => some (ofBool (a != 0 && b != 0))
  | .bor => some (a ||| b)
  | .xor => some (a ^^^ b)
  | .band => some (a &&& b)
  | .equ => some (ofBool (a == b))
  | .neq => some (ofBool (a != b))
  | .lt => some (ofBool (if signed then a.slt b else a.ult b))
  | .le => some (ofBool (if signed then a.sle b else a.ule b))
  | .gt => some (ofBool (if signed then b.slt a else b.ult a))
  | .ge => some (ofBool (if signed then b.sle a else b.ule a))
  | .lsh => if b.toNat < 64 then some (a <<< b.toNat) else none
  | .rsh =>
    if b.toNat < 64 then some (if lt.signed then a.sshiftRight b.toNat else a >>> b.toNat)
    else none
  | .add => some (a + b)
  | .sub => some (a - b)
  | .mul => some (a * b)
  | .div =>
    if b = 0 ∨ (signed = true ∧ a = intMin 64 ∧ b = allOnes 64) then none
    else some (if signed then a.sdiv b else a.udiv b)
  | .mod =>
    if b = 0 ∨ (signed = true ∧ a = intMin 64 ∧ b = allOnes 64) then none
    else some (if signed then a.srem b else a.umod b)

/-- A signed remainder that is not zero, by a negative divisor. -/
def badMod (op : Op2) (lt rt : IntType) (a b : BitVec 64) : Bool :=
  op == .mod && (lt.promote rt).signed && b.slt 0 && a.srem b != 0

/-- The operator gives C's value on 64-bit words too, and is not a bad remainder. -/
def opSafe (op : Op2) (lt rt : IntType) (a b : BitVec 64) : Bool :=
  wideOp2 op lt rt a b == cOp2 op lt rt a b && !badMod op lt rt a b

/-- Every operation that the expression evaluates is generated in a register set its code is
made for, and gives C's value on 64-bit words. -/
def runSafe (ρ : Var → Option (BitVec 64)) : Node → Regset → Bool
  | .int _ _, _ => true
  | .var _, _ => true
  | .op1 _ cp, drp => runSafe ρ cp drp
  | .cast _ rp, drp => runSafe ρ rp drp
  | .op2 op lp rp, drp =>
    operandsSafe op drp && runSafe ρ lp drp &&
      match cValue ρ lp with
      | none => true
      | some a =>
        if (op = .land ∧ a = 0) ∨ (op = .lor ∧ a ≠ 0) then true
        else runSafe ρ rp (rightRegs op drp) &&
          match cValue ρ rp with
          | none => true
          | some b => opSafe op lp.type rp.type a b
  | .op3 expr lp rp, drp =>
    let t := (lp.type.promote rp.type).intPromote
    hasFree drp && runSafe ρ expr drp &&
      match cValue ρ expr with
      | none => true
      | some e =>
        if e = 0 then runSafe ρ rp drp && (cValue ρ rp).all fun v => t.word v == v
        else runSafe ρ lp drp && (cValue ρ lp).all fun v => t.word v == v

/-! ## Signed division from unsigned division -/

theorem slt_zero_eq_msb (a : BitVec 64) : a.slt 0 = a.msb := by
  simp [BitVec.slt_zero_eq_msb]

theorem signedDivMod_div (a b : BitVec 64) : signedDivMod .div a b = a.sdiv b := by
  rw [sdiv_eq]
  unfold signedDivMod
  simp only [slt_zero_eq_msb, AluOp.eval_div]
  cases a.msb <;> cases b.msb <;> rfl

variable {a b v : BitVec 64}

theorem signedDivMod_mod_of_nonneg (hs : b.slt 0 = false) : signedDivMod .mod a b = a.srem b := by
  rw [srem_eq]
  unfold signedDivMod
  rw [slt_zero_eq_msb] at hs
  simp only [slt_zero_eq_msb, AluOp.eval_mod, hs]
  cases a.msb <;> rfl

/-- The code negates the remainder of a negative divisor. -/
theorem signedDivMod_mod_of_neg (hs : b.slt 0 = true) : signedDivMod .mod a b = -a.srem b := by
  rw [srem_eq]
  unfold signedDivMod
  rw [slt_zero_eq_msb] at hs
  simp only [slt_zero_eq_msb, AluOp.eval_mod, hs]
  cases a.msb <;> simp

/-- A signed remainder is smaller than its divisor, so it is not its own negation unless it
is zero. -/
theorem neg_srem_eq_iff (hb : b ≠ 0) : -a.srem b = a.srem b ↔ a.srem b = 0 := by
  refine ⟨fun h => ?_, fun h => by rw [h]; rfl⟩
  have hbint : b.toInt ≠ 0 := fun h0 => hb (eq_of_toInt_eq (by rw [h0]; rfl))
  have hlt : (a.srem b).toInt.natAbs < b.toInt.natAbs := by
    rw [toInt_srem, Int.natAbs_tmod]
    exact Nat.mod_lt _ (by omega)
  have hble : -2 ^ 63 ≤ b.toInt := le_toInt b
  have hblt : b.toInt < 2 ^ 63 := toInt_lt
  generalize a.srem b = x at h hlt
  -- of the two words that are their own negation, only zero has a small absolute value
  have hneg : (2 ^ 64 - x.toNat) % 2 ^ 64 = x.toNat := by
    simpa using congrArg BitVec.toNat h
  have hint := toInt_eq_toNat_cond x
  apply eq_of_toNat_eq
  show x.toNat = 0
  split at hint <;> omega

/-! ## The code against C's operators

Where the 64-bit result is that of C, the emitted code leaves it. -/

/-- Where the 64-bit operator is defined and the remainder is not a bad one, the code computes
its value. -/
theorem op2Value_of_wideOp2 {op : Op2} {lt rt : IntType} (h : wideOp2 op lt rt a b = some v)
    (hmod : badMod op lt rt a b = false) : op2Value op lt rt a b = some v := by
  cases op with
  | lor | lxor | land | bor | xor | band | add | sub | mul => exact h
  | equ | neq => exact h
  | lt | le | gt | ge =>
    rw [← h]
    unfold op2Value wideOp2
    cases (lt.promote rt).signed <;> rfl
  | lsh =>
    obtain ⟨hlt, rfl⟩ : b.toNat < 64 ∧ a <<< b.toNat = v := by simpa [wideOp2] using h
    simp [op2Value, arithValue, AluOp.eval, Nat.mod_eq_of_lt hlt]
  | rsh =>
    simp only [wideOp2, ite_none_right_eq_some, some.injEq] at h
    obtain ⟨hlt, rfl⟩ := h
    unfold op2Value arithValue Op2.type
    cases lt.signed <;> simp [AluOp.eval, Nat.mod_eq_of_lt hlt]
  | div =>
    simp only [wideOp2, ite_none_left_eq_some, some.injEq, not_or] at h
    obtain ⟨⟨hb, -⟩, rfl⟩ := h
    unfold op2Value arithValue Op2.type
    cases (lt.promote rt).signed with
    | true => simpa [signedDivMod_div] using hb
    | false => simp [AluOp.eval_div]
  | mod =>
    simp only [wideOp2, ite_none_left_eq_some, some.injEq, not_or] at h
    obtain ⟨⟨hb, -⟩, rfl⟩ := h
    unfold op2Value arithValue Op2.type
    unfold badMod at hmod
    cases hs : (lt.promote rt).signed with
    | false => simp [AluOp.eval_mod]
    | true =>
      cases hneg : b.slt 0 with
      | false => simpa [signedDivMod_mod_of_nonneg hneg] using hb
      | true =>
        have hzero : a.srem b = 0#64 := by
          simpa [hs, show b.slt 0#64 = true from hneg] using hmod
        simpa [signedDivMod_mod_of_neg hneg, hzero] using hb

theorem op2Value_of_cOp2 {op : Op2} {lt rt : IntType} (h : cOp2 op lt rt a b = some v)
    (hsafe : opSafe op lt rt a b = true) : op2Value op lt rt a b = some v := by
  simp only [opSafe, Bool.and_eq_true, beq_iff_eq, Bool.not_eq_true'] at hsafe
  exact op2Value_of_wideOp2 (hsafe.1.trans h) hsafe.2

/-- The code of an expression computes its C value: by induction on the tree, along the
operands that are evaluated. -/
theorem pathValue_of_cValue (env : Env) (pcb : Pcb) (ctx : Ctx) (dnp : Node) {drp : Regset}
    (h : cValue (fun x => varValue env pcb x ctx) dnp = some v)
    (hsafe : runSafe (fun x => varValue env pcb x ctx) dnp drp = true) :
    pathValue env pcb dnp drp ctx = some v := by
  induction dnp generalizing v drp with
  | int value t => exact (ite_none_right_eq_some.mp h).2
  | var x => exact (filter_eq_some_iff.mp h).1
  | op1 op cp _ => cases h
  | cast t rp _ => cases h
  | op2 op lp rp ihl ihr =>
    simp only [cValue, bind_eq_bind, bind_eq_some_iff] at h
    obtain ⟨a, ha, h⟩ := h
    simp only [runSafe, ha, Bool.and_eq_true] at hsafe
    obtain ⟨⟨hregs, hl⟩, hrest⟩ := hsafe
    simp only [pathValue, hregs, if_true, binValue, ihl ha hl, bind_eq_bind, bind_some]
    split at h
    · next hl => rw [if_pos hl]; exact h
    · next hl =>
      split at h
      · next hr => rw [if_neg hl, if_pos hr]; exact h
      · next hr =>
        rw [if_neg hl, if_neg hr]
        obtain ⟨b, hb, h⟩ := bind_eq_some_iff.mp h
        rw [if_neg (not_or.mpr ⟨hl, hr⟩), hb, Bool.and_eq_true] at hrest
        rw [ihr hb hrest.1]
        exact op2Value_of_cOp2 h hrest.2
  | op3 expr lp rp ihe ihl ihr =>
    simp only [cValue, map_eq_some_iff, bind_eq_some_iff] at h
    obtain ⟨u, ⟨e, he, hu⟩, h⟩ := h
    simp only [runSafe, he, Bool.and_eq_true] at hsafe
    obtain ⟨⟨hfree, hse⟩, harm⟩ := hsafe
    simp only [pathValue, hfree, if_true, ihe he hse, bind_some]
    -- the arm's value is not changed by the conversion to the type of the whole
    split at hu
    · next h0 =>
      simp only [if_pos h0, hu, Bool.and_eq_true, all_some, beq_iff_eq] at harm
      rw [if_pos h0, ihr hu harm.1, ← h, harm.2]
    · next h0 =>
      simp only [if_neg h0, hu, Bool.and_eq_true, all_some, beq_iff_eq] at harm
      rw [if_neg h0, ihl hu harm.1, ← h, harm.2]

/-! ## Generated expressions

By induction on the tree: along the path that C evaluates, both values are the same word. -/

/-- **Register-correct code generation.** Whatever registers are active, when every operation
that is evaluated is safe the emitted code, placed anywhere, ends with the C value in the
result register; and once the result register has been freed, every register that was active
before holds what its owner had in it. -/
theorem dtCgNode_correct (env : Env) (pcb : Pcb) (dnp : Node) (g : Gen) {out : Emitted}
    (hsp : g.regs.spilled = ∅) (hout : dtCgNode pcb dnp g = some out) (σ : State) {v : BitVec 64}
    (hv : cValue (fun x => varValue env pcb x (ctxOf σ)) dnp = some v)
    (hsafe : runSafe (fun x => varValue env pcb x (ctxOf σ)) dnp g.regs = true) :
    ∃ σ', Frag (exec env) out.code σ σ' ∧ σ'.regs out.reg = v ∧
      ∃ c g' σ'', out.gen.free out.reg = some (c, g') ∧ g'.regs = g.regs ∧
        Frag (exec env) c σ' σ'' ∧ ∀ q ∈ g.regs.active, σ''.regs q = σ.regs q := by
  have h0 : 0 ∉ g.regs.spilled := by simp [hsp]
  obtain ⟨σ', f, hval, hlends⟩ := computes_node env pcb dnp g h0 out hout σ v
    (pathValue_of_cValue env pcb (ctxOf σ) dnp hv hsafe)
  obtain ⟨_, hal⟩ := (dtCgNode_shaped pcb dnp g out h0 hout).alloc
  obtain ⟨σ'', ffree, hkeeps, -, -⟩ := frag_free env hlends
  refine ⟨σ', f, hval, reload g.regs out.reg, ⟨out.gen.label, g.regs, out.gen.label_pos⟩, σ'',
    ?_, rfl, ffree, hkeeps.regs⟩
  exact Gen.free_alloc hal

/-! ## Running generated code

`runNode` generates and runs the code of an expression; it lets the conditions above be
checked on concrete register sets. -/

/-- The code left after `fuel` steps and the contents of the result register. -/
def runNode (env : Env) (pcb : Pcb) (dnp : Node) (g : Gen) (σ : State) (fuel : Nat) :
    Option (Ir × BitVec 64) :=
  (dtCgNode pcb dnp g).map fun out =>
    let a := run (exec env) out.code fuel (out.code, σ)
    (a.1, a.2.regs out.reg)

theorem runs_of_runNode {env : Env} {pcb : Pcb} {dnp : Node} {g : Gen} {σ : State} {fuel : Nat}
    (h : runNode env pcb dnp g σ fuel = some ([], v)) :
    ∃ out σ', dtCgNode pcb dnp g = some out ∧ Runs (exec env) out.code σ σ' ∧
      σ'.regs out.reg = v := by
  obtain ⟨out, hout, heq⟩ := map_eq_some_iff.mp h
  obtain ⟨hcode, hval⟩ := Prod.mk.inj heq
  exact ⟨out, _, hout, Runs.ofRun hcode, hval⟩

/-- The registers `active` in use and none spilled. -/
def genWith (active : Finset Nat) (h : ∀ r ∈ active, r < 9) : Gen :=
  ⟨1, ⟨9, active, ∅, le_rfl, h, by simp⟩, Nat.one_pos⟩

/-- No library functions. -/
def noCalls : Env := ⟨fun _ _ _ => none, fun _ _ _ _ => 0⟩

def somePcb : Pcb := ⟨99, 0⟩

/-- `%r8` holds the 42 of its owner. -/
def ownedState : State := ⟨fun r => if r = 8 then 42 else 0, fun _ => 0, fun _ => 0⟩

/-- The same registers, and the words 1, 2, 3 and 7 at the start of the global variables,
which are at 256. -/
def globalsState : State :=
  { ownedState with
    mem := fun a =>
      if a = BitVec.ofInt 64 (dctxGvars + 1) ∨ a = 256 then 1
      else if a = 260 then 2 else if a = 264 then 3 else if a = 268 then 7 else 0 }

/-- The global variable at `off`. -/
def globalInt (off : Int) : Node := .var ⟨.gvar off, .int⟩

/-- `x ? y + z : w`. -/
def ternaryNode : Node :=
  .op3 (globalInt 0) (.op2 .add (globalInt 4) (globalInt 8)) (globalInt 12)

/-- `x & 0 && (x ? y : z)`. -/
def shortcutNode : Node :=
  .op2 .land (.op2 .band (globalInt 0) (.int 0 .int))
    (.op3 (globalInt 0) (globalInt 4) (globalInt 8))

theorem ternary_in_free_register :
    ∃ out σ', dtCgNode somePcb ternaryNode (genWith {1, 2, 8} (by decide)) = some out ∧
      Frag (exec noCalls) out.code globalsState σ' ∧ σ'.regs out.reg = 5 := by
  obtain ⟨out, hout⟩ := isSome_iff_exists.mp
    (show (dtCgNode somePcb ternaryNode (genWith {1, 2, 8} (by decide))).isSome = true by
      decide +kernel)
  obtain ⟨σ', f, hval, -⟩ := dtCgNode_correct noCalls somePcb ternaryNode _ rfl hout
    globalsState (v := 5) (by decide +kernel) (by decide +kernel)
  exact ⟨out, σ', hout, f, hval⟩

/-- With every register active, the code of `?:` gives the result register back to its owner
before the end: the value of `x ? y + z : w`, 5 here, comes out as the owner's 42. -/
theorem ternary_returns_owner_value :
    cValue (fun x => varValue noCalls somePcb x (ctxOf globalsState)) ternaryNode = some 5 ∧
      ∃ out σ', dtCgNode somePcb ternaryNode
          (genWith {1, 2, 3, 4, 5, 6, 7, 8} (by decide)) = some out ∧
        Runs (exec noCalls) out.code globalsState σ' ∧ σ'.regs out.reg = 42 := by
  have hrun : runNode noCalls somePcb ternaryNode (genWith {1, 2, 3, 4, 5, 6, 7, 8} (by decide))
      globalsState 40 = some ([], 42) := by decide +kernel
  exact ⟨by decide +kernel, runs_of_runNode hrun⟩

-- the ternary of `x & 0 && (x ? y : z)` has no register, but it is not evaluated
example : runSafe (fun x => varValue noCalls somePcb x (ctxOf globalsState)) shortcutNode
    (genWith {1, 2, 3, 4, 5, 6, 7, 8} (by decide)).regs = true := by decide +kernel

end DTrace.Cg
