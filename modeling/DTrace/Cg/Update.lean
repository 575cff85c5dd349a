import DTrace.Cg.Store

/-!
# What an assignment leaves behind

The value in the result register of `x = e`, `++x` and `x++`, and the value that `x` then has.
Both follow from one run lemma, `update_run`: the result is the **new value before it is cut**
to the type of the variable (or the old bytes without their sign, for `x++`), while the
variable has the new value **after** it is cut.
-/

namespace DTrace.Cg

open LabelCode Bpf Option BitVec State

section
variable {X : XEnv}

section
variable {pcb : Pcb} {t : IntType} {reg : Nat} {g g' : Gen} {c : XIr}

/-! ## Increments -/

theorem signExtend_offset (off : { n : Nat // n < 32768 }) :
    (BitVec.ofNat 32 off).signExtend 64 = BitVec.ofNat 64 off := by
  obtain ⟨n, -⟩ := off
  have hmsb : (BitVec.ofNat 32 n).msb = false := by
    rw [msb_eq_false_iff_two_mul_lt, toNat_ofNat]
    omega
  rw [signExtend_eq_setWidth_of_msb_false hmsb]
  apply eq_of_toNat_eq
  simp only [toNat_setWidth, toNat_ofNat]
  omega

variable {child : XEmitted} {ref : DvarRef X} {s : XState}

/-- The address of a global or clause-local variable. -/
theorem frag_refArea {area : Int} {off : { n : Nat // n < 32768 }}
    (h : dtCgRefArea area off g = some child) (hne : (spare g.regs).Nonempty) (s : XState) :
    labels child.code = [] ∧ child.reg ∈ spare g.regs ∧ child.reg ≠ regFP ∧
      depth child.gen.regs child.reg = 1 ∧
      ∃ s', Frag (xexec X) child.code s s' ∧ s'.st.regs child.reg = areaAddr s area off ∧
        s'.st.stack = s.st.stack ∧ s'.st.mem = s.st.mem := by
  simp only [dtCgRefArea, bind_eq_bind, bind_eq_some_iff, Prod.exists,
    some.injEq] at h
  obtain ⟨r, _, _, ha, rfl⟩ := h
  obtain ⟨hal, -⟩ := Gen.alloc_some ha
  obtain ⟨hmem, -, rfl, -, -, hd⟩ := alloc_spare hne hal
  obtain ⟨-, -, hd0⟩ := mem_spare.mp hmem
  have hfp := dtRegsetXalloc_ne_regFP (dtRegsetAlloc_xalloc hal).2
  obtain ⟨σ, dv⟩ := s
  have f2 : Frag (exec (X.base dv)) (emit (.aluImm .add r (BitVec.ofNat 32 off)))
      (σ.setReg r (word (ctxOf σ).mem (ctxOf σ).dctx area))
      (σ.setReg r (areaAddr ⟨σ, dv⟩ area off)) := by
    refine Frag.single ?_
    simp [exec, AluOp.eval, signExtend_offset, areaAddr, ctxOf]
  have f := (frag_loadCtx (X.base dv) area σ hfp).append f2 (by simp)
  refine ⟨by simp, hmem, hfp, by simp [hd, hd0], ⟨σ.setReg r (areaAddr ⟨σ, dv⟩ area off), dv⟩, ?_,
    setReg_regs_self _ _ _, rfl, rfl⟩
  simpa using frag_lift f

/-- The address of a dynamic variable, or zero. -/
theorem frag_refDvar (keep : List Nat) (h : dtCgRefDvar pcb ref g = some child)
    (hroom : 2 ≤ (spare g.regs).card) (hkeep : ∀ q ∈ keep, q ∈ g.regs.active ∧ q ≠ 0) :
    InRange g.label child.gen.label (labels child.code) ∧ g.label ≤ child.gen.label ∧
      child.reg ∈ spare g.regs ∧ child.reg ≠ regFP ∧ child.gen.regs.size = g.regs.size ∧
      (∀ q, q ≠ 0 → depth child.gen.regs q = depth g.regs q + if q = child.reg then 1 else 0) ∧
      ∃ s', Frag (xexec X) child.code s s' ∧ s'.st.regs child.reg = addrOf s.dvars ref.var ∧
        s'.dvars = s.dvars ∧ Slots s.st s'.st ∧ (∀ q ∈ keep, s'.st.regs q = s.st.regs q) ∧
        ∀ a, ref.Outside a → s'.st.mem a = s.st.mem a := by
  simp only [dtCgRefDvar, bind_eq_bind, bind_eq_some_iff, Prod.exists,
    some.injEq] at h
  obtain ⟨c1, g1, hcall, r, c2, g2, ha, c3, g3, hf, hchild⟩ := h
  have hne : (spare g.regs).Nonempty := Finset.card_pos.mp (by omega)
  obtain ⟨hsize1, hd1⟩ := depth_dvarCall hcall hne
  have hspare : spare g1.regs = spare g.regs := spare_congr hsize1 hd1
  obtain ⟨hal, hl2⟩ := Gen.alloc_some ha
  obtain ⟨hfree, hl3⟩ := Gen.free_some hf
  obtain ⟨hr, -, rfl, -, hsize2, hd2⟩ := alloc_spare (hspare ▸ hne) hal
  rw [hspare] at hr
  obtain ⟨-, hr0, hdr⟩ := mem_spare.mp hr
  obtain ⟨hsize3, hd3⟩ := depth_free hfree
  rw [Gen.labels_label] at hl3
  obtain ⟨hin, hle, m, dflt, hout, hrun⟩ := block_dvarCall (s := s) keep hcall hroom hkeep (by simp)
  have hnval : ref.nval none s.st = 0 := by cases ref <;> rfl
  obtain ⟨⟨σ1, dv1⟩, f1, h0, hmem1, rfl, hslots1, hregs1⟩ := hrun m s.dvars
    (addrOf s.dvars ref.var) (by rw [hnval]; exact X.getDvar_load _ _ _ _)
  let σ2 := σ1.setReg r (addrOf s.dvars ref.var)
  obtain ⟨hlab3, σ3, f3, hstack3, hmem3, hregs3, -⟩ := frag_dtRegsetFree (X.base s.dvars) hfree σ2
  have hpos := g2.label_pos
  let tail : Ir := ⟨0, .branchImm .jne 0 0 g2.label⟩ ::
    ([⟨0, .movImm r 0⟩, ⟨0, .jump (g2.label + 1)⟩] ++ ⟨g2.label, .mov r 0⟩ ::
      ⟨g2.label + 1, .nop⟩ :: c3)
  have fend : Block (exec (X.base s.dvars)) (⟨g2.label + 1, .nop⟩ :: c3) σ2 σ3 :=
    .next rfl f3.block
  have ftail : Block (exec (X.base s.dvars)) tail σ1 σ3 := by
    by_cases hz : σ1.regs 0 = 0
    · have hmov : exec (X.base s.dvars) (.movImm r 0) σ1 = .next σ2 := by
        rw [show σ2 = σ1.setReg r (σ1.regs 0) by rw [show σ1.regs 0 = _ from h0], hz]
        rfl
      refine .next (exec_branchImm_not (by rw [hz]; rfl)) (.next hmov ?_)
      show Block _ (⟨0, .jump (g2.label + 1)⟩ ::
        ([⟨g2.label, .mov r 0⟩] ++ ⟨g2.label + 1, .nop⟩ :: c3)) _ _
      exact .jump rfl (by omega) fend
    · refine .jump (exec_branchImm_taken (by rw [jne_zero]; simpa using hz)) hpos.ne'
        (.next ?_ fend)
      rw [exec, show σ1.regs 0 = _ from h0]
  have hneq : ∀ q ∈ keep, q ≠ r := fun q hq => active_ne_spare (hkeep q hq).1 hr
  obtain rfl : child = ⟨c1 ++ lift tail, r, g3⟩ := by
    rw [← hchild]
    simp [tail, emit, emitl]
  have hlabs : InRange g.label g3.label (labels (c1 ++ lift tail)) := by
    have hnew : InRange g1.label g3.label [g2.label, g2.label + 1] := by
      refine ⟨by simp, fun l hl => ?_⟩
      simp only [List.mem_cons, List.not_mem_nil, or_false] at hl
      omega
    simpa [tail, labels_cons_pos, hlab3, hpos.ne'] using hin.append hnew hle (by omega)
  refine ⟨hlabs, by simp only; omega, hr, dtRegsetXalloc_ne_regFP (dtRegsetAlloc_xalloc hal).2,
    ?_, ?_, ⟨σ3, s.dvars⟩, f1.append (block_lift ftail) hlabs.nodup, ?_, rfl, ?_, ?_, ?_⟩
  · exact hsize3.trans (hsize2.trans hsize1)
  · intro q hq
    have h1 := hd1 q hq
    have h2 := hd2 q
    have h3 := hd3 q
    rw [if_neg hq, Gen.labels_regs] at h3
    simp only
    omega
  · rw [show σ3.regs r = σ2.regs r from hregs3 r hr0, setReg_regs_self]
  · exact hslots1.trans (.of_stack hstack3)
  · intro q hq
    rw [show σ3.regs q = σ2.regs q from hregs3 q (hkeep q hq).2,
      setReg_regs_of_ne _ _ (hneq q hq)]
    exact hregs1 q hq
  · intro a ha
    rw [show σ3.mem = m from hmem3.trans hmem1]
    exact hout a ha

/-- The end of an increment: `old` is the value without its sign. -/
theorem frag_incdecTail (env : Env) {op : Width} {alu : AluOp} {post : Bool} {addr : Nat} {d : Ir}
    (h : dtCgIncdecTail op alu post reg addr g = some (d, g')) (hra : reg ≠ addr)
    (hreg0 : reg ≠ 0) (haddr0 : addr ≠ 0) (hfp : addr ≠ regFP) (hdepth : depth g.regs addr ≤ 1)
    (σ : State) {old : BitVec 64} (hold : old = loadLE σ.mem (σ.regs addr) op.bytes) :
    labels d = [] ∧ g'.label = g.label ∧ ∃ σ', Frag (exec env) d σ σ' ∧
      σ'.regs reg = (if post then old else alu.eval old 1) ∧ Slots σ σ' ∧
      σ'.mem = storeLE σ.mem (σ.regs addr) (alu.eval old 1) op.bytes := by
  let σ1 := σ.setReg reg old
  have haddr1 : σ1.regs addr = σ.regs addr := setReg_regs_of_ne _ _ hra.symm
  have f1 : Frag (exec env) (emit (.load op reg addr 0)) σ σ1 := by
    simpa [σ1, hold] using frag_loadMem env op reg 0 σ hfp
  cases post with
  | false =>
    simp only [dtCgIncdecTail, Bool.false_eq_true, if_false, bind_eq_bind,
      bind_eq_some_iff, Prod.exists] at h
    obtain ⟨_, _, ⟨rfl, rfl⟩, c2, g2, hf, rfl, rfl⟩ := h
    obtain ⟨hfree, hl⟩ := Gen.free_some hf
    obtain rfl := free_code_nil hfree hdepth
    let σ2 := σ1.setReg reg (alu.eval old 1)
    let σ3 : State := { σ2 with
      mem := storeLE σ.mem (σ.regs addr) (alu.eval old 1) op.bytes }
    have f2 : Block (exec env) (emit (.aluImm alu reg 1) ++ emit (.store op addr 0 reg)) σ1 σ3 := by
      have halu : exec env (.aluImm alu reg 1) σ1 = .next σ2 := by
        simp only [exec, σ1, setReg_regs_self]
        rfl
      refine .next halu (.single ?_)
      simp [exec, hfp, σ3, σ2, σ1, setReg_regs_of_ne _ _ hra.symm]
    refine ⟨by simp, hl, σ3, by simpa using f1.seq f2 (by simp), ?_, .of_stack rfl, rfl⟩
    simp [σ3, σ2]
  | true =>
    simp only [dtCgIncdecTail, if_true, bind_eq_bind, bind_eq_some_iff, Prod.exists] at h
    obtain ⟨drp, _, hfree0, _, _, ⟨rfl, rfl⟩, c2, g2, hf, rfl, rfl⟩ := h
    obtain ⟨hfree, hl⟩ := Gen.free_some hf
    obtain ⟨hlab0, σ2, f2, hregs2, hmem2, hrest2⟩ := frag_xallocZero env g.regs σ1
    have hd : depth drp addr ≤ 1 := by
      have h1 := (depth_xallocZero g.regs).2 addr haddr0
      have h2 := (depth_free hfree0).2 addr
      omega
    obtain rfl := free_code_nil hfree hd
    let σ3 := σ2.setReg 0 (alu.eval old 1)
    let σ4 : State := { σ3 with
      mem := storeLE σ.mem (σ.regs addr) (alu.eval old 1) op.bytes }
    have f4 : Block (exec env) (emit (.mov 0 reg) ++ emit (.aluImm alu 0 1) ++
        emit (.store op addr 0 0)) σ2 σ4 := by
      have hmov : exec env (.mov 0 reg) σ2 = .next (σ2.setReg 0 old) := by
        simp [exec, hregs2, σ1]
      have halu : exec env (.aluImm alu 0 1) (σ2.setReg 0 old) = .next σ3 := by
        simp only [exec, setReg_setReg]
        rfl
      refine .next hmov (.next halu (.single ?_))
      simp [exec, hfp, σ4, σ3, setReg_regs_of_ne _ _ haddr0, hregs2, haddr1, hmem2, σ1]
    obtain ⟨hlab5, σ5, f5, hstack5, hmem5, hregs5, -⟩ := frag_dtRegsetFree env hfree0 σ4
    refine ⟨by simp [hlab0, hlab5], hl, σ5, ?_, ?_, ?_, hmem5⟩
    · have f := f1.seq ((f2.seq f4).append f5.block)
      simpa using f (by simp [hlab0, hlab5])
    · rw [hregs5 reg hreg0]
      simp [σ4, σ3, setReg_regs_of_ne _ _ hreg0, hregs2, σ1]
    · have hslots2 : Slots σ σ2 := .of_spill hrest2
      exact hslots2.trans (.of_stack hstack5)

/-- The value of a variable without its sign, as an increment sees it. -/
def LVar.bare (t : IntType) (s : XState) (x : LVar X) : BitVec 64 :=
  (x.value t s).zeroExtend 64

theorem bare_dvar (h : addrOf s.dvars ref.var ≠ 0) :
    (LVar.dvar ref).bare t s = loadLE s.st.mem (addrOf s.dvars ref.var) t.size := by
  rw [LVar.bare, LVar.value, dvarValue, if_neg h, loadLE_eq_zeroExtend]

/-- What an update leaves behind: the result in its register, and the variable. -/
structure Updated (t : IntType) (x : LVar X) (reg : Nat) (result new : BitVec 64) (s' : XState) :
    Prop where
  reg_eq : s'.st.regs reg = result
  value_eq : x.value t s' = new.truncate (t.size * 8)
  clear : x.Clear t s'

/-- An increment of a variable in an area. -/
theorem incdec_area {area : Int} {off : { n : Nat // n < 32768 }} {alu : AluOp} {post : Bool}
    {d : Ir} {x : LVar X}
    (hvalue : ∀ s : XState, x.value t s = memValue s.st.mem (areaAddr s area off) t)
    (hclear : ∀ s : XState, x.Clear t s) (hchild : dtCgRefArea area off g = some child)
    (htail : dtCgIncdecTail t.width alu post reg child.reg child.gen = some (d, g'))
    (hne : (spare g.regs).Nonempty) (hreg : reg ∈ g.regs.active) (hreg0 : reg ≠ 0)
    (hapart : AreaApart t s area off) :
    ∃ s', Frag (xexec X) (child.code ++ lift d) s s' ∧
      Updated t x reg (if post then x.bare t s else alu.eval (x.bare t s) 1)
        (alu.eval (x.bare t s) 1) s' := by
  obtain ⟨hlab, hspare, hfp, hdepth, ⟨σ1, dv⟩, f1, haddr, hstack1, hmem1⟩ :=
    frag_refArea (X := X) hchild hne s
  obtain ⟨-, hr0, _⟩ := mem_spare.mp hspare
  have hra : reg ≠ child.reg := active_ne_spare hreg hspare
  have hold : x.bare t s = loadLE σ1.mem (σ1.regs child.reg) t.width.bytes := by
    rw [LVar.bare, hvalue, ← loadLE_eq_zeroExtend, show σ1.mem = s.st.mem from hmem1,
      show σ1.regs child.reg = _ from haddr]
    rfl
  obtain ⟨hlab2, -, σ2, f2, hres, hslots, hmem2⟩ := frag_incdecTail (X.base dv) htail hra hreg0 hr0
    hfp hdepth.le σ1 hold
  refine ⟨⟨σ2, dv⟩, f1.append (frag_lift f2) (by simp [hlab, hlab2]), hres, ?_, hclear _⟩
  rw [hvalue]
  refine areaValue_store hapart (hslots.dctx.trans (congrFun hstack1 _)) ?_
  rw [hmem2, show σ1.mem = s.st.mem from hmem1,
    show σ1.regs child.reg = _ from haddr]
  rfl

/-- A register of at least `%r4` is passed on as it is. -/
theorem nval_of_gt (h : 3 < reg) : ref.nval (some reg) s.st = s.st.regs reg := by
  have h1 : reg ≠ 1 := by omega
  have h2 : reg ≠ 2 := by omega
  have h3 : reg ≠ 3 := by omega
  cases ref <;> simp [DvarRef.nval, tvarNval, assocNval, h1, h2, h3]

theorem xexec_branchImm {σ : State} {dv : Dvars} {op : JmpOp} {r lbl : Nat} {imm : BitVec 32} :
    xexec X (.insn (.branchImm op r imm lbl)) ⟨σ, dv⟩ =
      if op.eval (σ.regs r) (imm.signExtend 64) then .goto lbl ⟨σ, dv⟩ else .next ⟨σ, dv⟩ := by
  have hexec : exec (X.base dv) (.branchImm op r imm lbl) σ =
    if op.eval (σ.regs r) (imm.signExtend 64) then .goto lbl σ else .next σ := rfl
  rw [xexec_insn X dv _ σ (by rw [hexec]; split <;> simp), hexec]
  split <;> rfl

def incdecAlu (inc : Bool) : AluOp := if inc then .add else .sub

/-- The end of an increment of a dynamic variable, after its address: `c` creates the variable
with the value `1` or `-1`, `d` increments one that exists. -/
def incdecTail (reg addr lbl : Nat) (inc post : Bool) (c : XIr) (d : Ir) : XIr :=
  ⟨0, .insn (.branchImm .jne addr 0 lbl)⟩ ::
    ((⟨0, .insn (.movImm reg (if inc then 1 else -1))⟩ :: (c ++
      lift ((if post then emit (.movImm reg 0) else []) ++ emit (.jump (lbl + 1))))) ++
    ⟨lbl, .insn .nop⟩ :: (lift d ++ [⟨lbl + 1, .insn .nop⟩]))

theorem labels_incdecTail (reg addr : Nat) {lbl : Nat} (inc post : Bool) (c : XIr) {d : Ir}
    (hlbl : 0 < lbl) (hd : labels d = []) :
    labels (incdecTail reg addr lbl inc post c d) = labels c ++ [lbl, lbl + 1] := by
  cases post <;> simp [incdecTail, labels_cons_pos, hd, hlbl.ne']

section
variable {addr lbl : Nat} {inc post : Bool} {c2 : XIr} {d : Ir} {σ : State} {dv : Dvars}

/-- The variable is created. -/
theorem block_incdecTail_new (hz : σ.regs addr = 0) {s3 : XState}
    (hstore : Block (xexec X) c2
      ⟨σ.setReg reg ((if inc then 1 else -1 : BitVec 32).signExtend 64), dv⟩ s3) :
    Block (xexec X) (incdecTail reg addr lbl inc post c2 d) ⟨σ, dv⟩
      (if post then ⟨s3.st.setReg reg 0, s3.dvars⟩ else s3) := by
  have fjump : ∀ s : XState, Block (xexec X) (⟨0, .insn (.jump (lbl + 1))⟩ ::
      ((⟨lbl, .insn .nop⟩ :: lift d) ++ [⟨lbl + 1, .insn .nop⟩])) s s :=
    fun s => .jump rfl (by omega) (.single rfl)
  have fpost : Block (xexec X) (lift (if post then emit (.movImm reg 0) else [])) s3
      (if post then ⟨s3.st.setReg reg 0, s3.dvars⟩ else s3) := by
    cases post with
    | false => exact (Frag.nil s3).block
    | true => exact .single rfl
  have hmov : xexec X (.insn (.movImm reg (if inc then 1 else -1))) ⟨σ, dv⟩ =
      .next ⟨σ.setReg reg ((if inc then 1 else -1 : BitVec 32).signExtend 64), dv⟩ := rfl
  have hbranch : xexec X (.insn (.branchImm .jne addr 0 lbl)) ⟨σ, dv⟩ = .next ⟨σ, dv⟩ :=
    xexec_branchImm.trans (by rw [hz]; rfl)
  have f := Block.next (l := 0) hbranch (.next (l := 0) hmov
    (hstore.append (fpost.append (fjump _))))
  simpa [incdecTail, emit] using f

/-- The variable exists. -/
theorem block_incdecTail_old (hlbl : 0 < lbl) (hz : σ.regs addr ≠ 0) {σ' : State}
    (hinc : Frag (exec (X.base dv)) d σ σ') :
    Block (xexec X) (incdecTail reg addr lbl inc post c2 d) ⟨σ, dv⟩ ⟨σ', dv⟩ :=
  .jump (xexec_branchImm.trans (if_pos (by rw [jne_zero]; simpa using hz))) hlbl.ne'
    (.next rfl ((frag_lift hinc).seq (.single rfl)))

end

/-- An increment of a dynamic variable: one that does not exist is created. -/
theorem incdec_dvar {inc post : Bool} {c2 : XIr} {d : Ir} {g2 : Gen}
    (hchild : dtCgRefDvar pcb ref g = some child)
    (hstore : dtCgStoreDvar pcb ref t.width reg (child.gen.labels 2) = some (c2, g2))
    (htail : dtCgIncdecTail t.width (incdecAlu inc) post reg child.reg g2 = some (d, g'))
    (hroom : 3 ≤ (spare g.regs).card) (hreg : reg ∈ g.regs.active) (hreg3 : 3 < reg)
    (hclear : (LVar.dvar ref).Clear t s) (hspace : ref.Room t s) :
    ∃ s', Frag (xexec X)
        (child.code ++ incdecTail reg child.reg child.gen.label inc post c2 d) s s' ∧
      Updated t (.dvar ref) reg (if post then (LVar.dvar ref).bare t s
          else (incdecAlu inc).eval ((LVar.dvar ref).bare t s) 1)
        ((incdecAlu inc).eval ((LVar.dvar ref).bare t s) 1) s' := by
  have hreg0 : reg ≠ 0 := by omega
  obtain ⟨hin, hle, hspare, hfp, hsize, hd, ⟨σ1, dv⟩, f1, haddr, hdv, -, -, hmem1⟩ :=
    frag_refDvar [reg] hchild (by omega) (by simpa using ⟨hreg, hreg0⟩)
  obtain rfl : dv = s.dvars := hdv
  obtain ⟨-, hr0, _⟩ := mem_spare.mp hspare
  have hra : reg ≠ child.reg := active_ne_spare hreg hspare
  have hroom2 : 2 ≤ (spare (child.gen.labels 2).regs).card := by
    have hsub : (spare g.regs).erase child.reg ⊆ spare (child.gen.labels 2).regs := by
      intro q hq
      obtain ⟨hqr, hq⟩ := Finset.mem_erase.mp hq
      obtain ⟨hlt, hq0, hqd⟩ := mem_spare.mp hq
      rw [Gen.labels_regs]
      exact mem_spare.mpr ⟨hsize ▸ hlt, hq0, by rw [hd q hq0, if_neg hqr, hqd]⟩
    have := Finset.card_le_card hsub
    rw [Finset.card_erase_of_mem hspare] at this
    omega
  have hact2 : reg ∈ (child.gen.labels 2).regs.active := by
    have := depth_pos.mpr hreg
    exact depth_pos.mp (by rw [Gen.labels_regs, hd reg hreg0]; omega)
  let k : BitVec 64 := (incdecAlu inc).eval 0 1
  have hkimm : ((if inc then 1 else -1 : BitVec 32)).signExtend 64 = k := by cases inc <;> decide
  -- the state in which a new variable is stored
  let s2 : XState := ⟨σ1.setReg reg k, s.dvars⟩
  have hreg2 : s2.st.regs reg = k := setReg_regs_self _ _ _
  obtain ⟨hin2, hle2, _, f3, -, hregs3, hvalue3, hclear3⟩ := frag_storeDvar (s := s2) [reg] hstore
    hroom2 (by simpa using ⟨hact2, hreg0⟩) (by simp) (by rw [nval_of_gt hreg3]) hspace
  rw [Gen.labels_label] at hin2 hle2
  obtain ⟨-, -, -, -, -, -, -, -, -, -, -, hd2, -⟩ :=
    dtCgStoreDvar_some hstore (Finset.card_pos.mp (by omega))
  have hdepth : depth g2.regs child.reg ≤ 1 := by
    rw [hd2 _ hr0, Gen.labels_regs, hd _ hr0, if_pos rfl]
    omega
  have hpos := child.gen.label_pos
  have hlabd : labels d = [] :=
    (frag_incdecTail (X.base s.dvars) htail hra hreg0 hr0 hfp hdepth σ1 rfl).1
  have hrange : InRange child.gen.label g2.label
      (labels c2 ++ child.gen.label :: [child.gen.label + 1]) :=
    (hin2.concat (Nat.lt_succ_self _) (by omega)).insert (Nat.lt_succ_self _) (by omega)
  have hlabels := labels_incdecTail reg child.reg inc post c2 hpos hlabd
  have hlabs : (labels (child.code ++
      incdecTail reg child.reg child.gen.label inc post c2 d)).Nodup := by
    rw [labels_append, hlabels]
    exact (hin.append hrange hle (by omega)).nodup
  by_cases hz : addrOf s.dvars ref.var = 0
  · have hbare : (LVar.dvar ref).bare t s = 0 := by
      rw [LVar.bare, LVar.value, dvarValue, if_pos hz]
      exact setWidth_zero _ _
    refine ⟨_, f1.seq (block_incdecTail_new (haddr.trans hz) (by rw [hkimm]; exact f3.block))
      hlabs, ?_⟩
    rw [hreg2] at hvalue3
    rw [hbare]
    cases post with
    | false => exact ⟨(hregs3 reg (by simp)).trans hreg2, hvalue3, hclear3⟩
    | true => exact ⟨setReg_regs_self _ _ _, hvalue3, hclear3⟩
  · have hold : (LVar.dvar ref).bare t s = loadLE σ1.mem (σ1.regs child.reg) t.width.bytes := by
      rw [bare_dvar hz, show σ1.regs child.reg = _ from haddr]
      exact loadLE_congr fun i hi => (hmem1 _ (hclear hz i hi)).symm
    obtain ⟨-, -, σ4, f4, hres, -, hmem4⟩ :=
      frag_incdecTail (X.base s.dvars) htail hra hreg0 hr0 hfp hdepth σ1 hold
    have hz1 : σ1.regs child.reg ≠ 0 := fun h => hz (haddr.symm.trans h)
    refine ⟨⟨σ4, s.dvars⟩,
      f1.seq (block_incdecTail_old hpos hz1 f4) hlabs, hres, ?_, hclear⟩
    simp only [LVar.value, dvarValue, if_neg hz, hmem4, show σ1.regs child.reg = _ from haddr]
    exact memValue_storeLE _ _ _ _

end

/-! ## Updates -/

namespace Update

/-- Is the result the value before the update? -/
def post : Update → Bool
  | .asgn _ => false
  | .incdec _ post => post

/-- The new value, before it is cut to the width of the variable. -/
def new (x : LVar X) (t : IntType) (s : XState) : Update → BitVec 64
  | .asgn reg => s.st.regs reg
  | .incdec inc _ => (incdecAlu inc).eval (x.bare t s) 1

/-- The value of an assignment is in a register that is taken. For a dynamic variable, what the
call is told about the value is right. -/
def Ready (x : LVar X) (g : Gen) (s : XState) : Update → Prop
  | .asgn reg => reg ∈ g.regs.active ∧ reg ≠ 0 ∧
    ∀ ref, x = .dvar ref → (ref.nval (some reg) s.st = 0 ↔ s.st.regs reg = 0)
  | .incdec _ _ => True

/-- The value of the expression. -/
def result (x : LVar X) (t : IntType) (s : XState) (u : Update) : BitVec 64 :=
  if u.post then x.bare t s else u.new x t s

end Update

section
variable {pcb : Pcb} {t : IntType} {g : Gen} {out : XEmitted} {s : XState} {x : LVar X}

section

variable (hroom : 4 ≤ (spare g.regs).card)

include hroom

theorem asgn_run {reg : Nat}
    (hu : (Update.asgn reg).Ready x g s) (hx : x.Ready t s)
    (hout : dtCgUpdate pcb x t (.asgn reg) g = some out) :
    ∃ s', Frag (xexec X) out.code s s' ∧
      Updated t x out.reg (s.st.regs reg) (s.st.regs reg) s' := by
  obtain ⟨⟨c, _⟩, hstore, rfl⟩ := map_eq_some_iff.mp hout
  obtain ⟨hact, hreg0, hnval⟩ := hu
  have hne : (spare g.regs).Nonempty := Finset.card_pos.mp (by omega)
  cases x with
  | gvar off | lvar off =>
    obtain ⟨s', f, hreg, hstack, hmem⟩ := frag_storeArea hstore hne hact s
    exact ⟨s', f, hreg, areaValue_store hx (congrFun hstack _) hmem, trivial⟩
  | dvar ref =>
    obtain ⟨-, -, s', f, -, hregs, hvalue, hclear⟩ := frag_storeDvar [reg] hstore (by omega)
      (by simpa using ⟨hact, hreg0⟩) (by simp) (hnval ref rfl) hx.2
    exact ⟨s', f, hregs reg (by simp), hvalue, hclear⟩

theorem incdec_run {inc post : Bool} (hx : x.Ready t s)
    (hout : dtCgUpdate pcb x t (.incdec inc post) g = some out) :
    ∃ s', Frag (xexec X) out.code s s' ∧
      Updated t x out.reg (if post then x.bare t s else (incdecAlu inc).eval (x.bare t s) 1)
        ((incdecAlu inc).eval (x.bare t s) 1) s' := by
  simp only [dtCgUpdate, dtCgIncdecOp, bind_eq_bind, bind_eq_some_iff,
    Prod.exists] at hout
  obtain ⟨reg, _, g1, ha, hout⟩ := hout
  obtain ⟨hal, -⟩ := Gen.alloc_some ha
  have hreg3 := alloc_gt_three hroom hal
  obtain ⟨hmem, -, rfl, hspare, -, hd⟩ := alloc_spare (Finset.card_pos.mp (by omega)) hal
  have hroom1 : 3 ≤ (spare g1.regs).card := by
    rw [hspare, Finset.card_erase_of_mem hmem]
    omega
  have hne : (spare g1.regs).Nonempty := Finset.card_pos.mp (by omega)
  have hact : reg ∈ g1.regs.active := depth_pos.mp (by rw [hd, if_pos rfl]; omega)
  have hreg0 : reg ≠ 0 := by omega
  cases x with
  | gvar off | lvar off =>
    simp only [bind_eq_some_iff, Prod.exists, some.injEq] at hout
    obtain ⟨child, hchild, d, g', htail, rfl⟩ := hout
    exact incdec_area (fun _ => rfl) (fun _ => trivial) hchild htail hne hact hreg0 hx
  | dvar ref =>
    simp only [bind_eq_some_iff, Prod.exists, some.injEq] at hout
    obtain ⟨child, hchild, _, _, hstore, d, g', htail, rfl⟩ := hout
    obtain ⟨s', f, hupd⟩ := incdec_dvar hchild hstore htail hroom1 hact hreg3 hx.1 hx.2
    refine ⟨s', ?_, hupd⟩
    simpa [incdecTail, emit, emitl] using f

/-- **What an update leaves behind**: its code runs to the end, the register holds the result,
and the variable holds the new value, cut to its width. -/
theorem update_run {u : Update} (hu : u.Ready x g s)
    (hx : x.Ready t s) (hout : dtCgUpdate pcb x t u g = some out) :
    ∃ s', Frag (xexec X) out.code s s' ∧
      Updated t x out.reg (u.result x t s) (u.new x t s) s' := by
  cases u with
  | asgn reg => exact asgn_run hroom hu hx hout
  | incdec inc post => exact incdec_run hroom hx hout

end

/-! ## Reads before and after

The read is the code that a use of the variable gets, run in the state before the update or in the
one it leaves. -/

/-- The tuple, for a read. -/
def Arglist.operand (args : Arglist X) {o : XEmitted} (h : args.gen g = some o) : XOperand where
  code := o.code
  reg := o.reg
  gen := o.gen
  nodup := (args.inRange h).nodup
  label_lt l hl := ((args.inRange h).mem l hl).2
  active := by
    obtain ⟨_, hal⟩ := args.alloc h
    obtain ⟨-, -, -, hact, -⟩ := dtRegsetXalloc_some (dtRegsetAlloc_xalloc hal).2
    rw [hact]
    simp
  reg_pos := by
    obtain ⟨_, hal⟩ := args.alloc h
    exact (dtRegsetAlloc_xalloc hal).1

/-- The code for a read of the variable. -/
def dtCgReadVar (pcb : Pcb) (scratchsize : BitVec 32) (x : LVar X) (t : IntType) (g : Gen) :
    Option XEmitted :=
  match x with
  | .gvar off => dtCgRead pcb scratchsize t (.gvar off) g
  | .lvar off => dtCgRead pcb scratchsize t (.lvar off) g
  | .dvar (.tvar id) => dtCgRead pcb scratchsize t (.tvar id) g
  | .dvar (.assoc id args) =>
    match h : args.gen g with
    | some _ => dtCgRead pcb scratchsize t (.assoc id (args.operand h)) g
    | none => none

theorem dvarValue_congr {m m' : Mem} {a : BitVec 64}
    (h : ∀ i < t.size, a ≠ 0 → m (a + BitVec.ofNat 64 i) = m' (a + BitVec.ofNat 64 i)) :
    dvarValue m a t = dvarValue m' a t := by
  unfold dvarValue memValue
  split
  · rfl
  · next ha => rw [loadLE_congr fun i hi => h i hi ha]

/-- A read gives the promoted value. -/
theorem readVar_run {scratchsize : BitVec 32} (h0 : 0 ∉ g.regs.spilled)
    (hroom : 2 ≤ (spare g.regs).card) (hx : x.Clear t s)
    (hout : dtCgReadVar pcb scratchsize x t g = some out) :
    ∃ s', Frag (xexec X) out.code s s' ∧ s'.st.regs out.reg = promoteValue t (x.bare t s) := by
  match x, hx with
  | .gvar off, _ =>
    have hout' : dtCgRead pcb scratchsize t (.gvar off) g = some out := hout
    obtain ⟨s', f, hreg⟩ := read_value h0 hout' (Value.gvar off s)
    refine ⟨s', f, ?_⟩
    simpa [Read.promotes, LVar.bare, LVar.value, areaAddr] using hreg
  | .lvar off, _ =>
    have hout' : dtCgRead pcb scratchsize t (.lvar off) g = some out := hout
    obtain ⟨s', f, hreg⟩ := read_value h0 hout' (Value.lvar off s)
    refine ⟨s', f, ?_⟩
    simpa [Read.promotes, LVar.bare, LVar.value, areaAddr] using hreg
  | .dvar (.tvar id), _ =>
    have hout' : dtCgRead pcb scratchsize t (.tvar id) g = some out := hout
    exact read_value h0 hout' (Value.tvar id s)
  | .dvar (.assoc id args), hx =>
    simp only [dtCgReadVar] at hout
    split at hout
    · next o ho =>
      obtain ⟨s1, f1, haddr, -, -, hdv1, htuple1, hmem1⟩ := args.run ho s
      obtain ⟨_, hal⟩ := args.alloc ho
      have hv := @Value.assoc X scratchsize t id (args.operand ho) s s1 _ f1
        (alloc_ne_one hroom hal) rfl
      have hval : dvarValue (tupleMem s1.st.mem X.tupleAddr id)
          (addrOf s.dvars (.assoc ⟨id, args.tuple⟩)) t =
          dvarValue s.st.mem (addrOf s.dvars (.assoc ⟨id, args.tuple⟩)) t :=
        dvarValue_congr fun i hi h => tupleMem_of_outside hmem1 (hx h i hi)
      rw [show s1.st.regs (args.operand ho).reg = X.tupleAddr from haddr,
        assoc_tupleMem args htuple1, hdv1, hval] at hv
      exact read_value h0 hout hv
    · cases hout

/-- Cutting a value to the type and extending it again gives the value. -/
def Fits (t : IntType) (v : BitVec 64) : Prop :=
  promoteValue t ((v.truncate (t.size * 8)).zeroExtend 64) = v

instance (t : IntType) (v : BitVec 64) : Decidable (Fits t v) :=
  inferInstanceAs (Decidable (_ = _))

theorem truncate_bare : (x.bare t s).truncate (t.size * 8) = x.value t s := by
  have hle := t.width.bytes_le
  apply eq_of_getLsbD_eq
  intro i hi
  have hsize : t.size ≤ 8 := hle
  simp [LVar.bare, hi]
  omega

end

end

/-! ## Assignments of 300 -/

/-- All memory is `0xff`, and 300 is in `%r8`. -/
def asgnState : XState := ⟨onesState.st.setReg 8 300, onesState.dvars⟩

/-- The maps have room for an element, and every key is 5. -/
def keyedEnv : XEnv :=
  { onesEnv with
    tupleSize := 12
    room := fun _ _ => (⟨some ⟨-1, by decide⟩, some ⟨-2, by decide⟩, true⟩, ⟨8192, by decide⟩)
    tupleAddr := 4096
    keys := fun _ => ⟨5, fun _ => none⟩ }

/-- The keys of `x[5]`, where the key is of type `int`. -/
def fiveKey : Arglist keyedEnv where
  diftupregs := 8
  maxtuplesize := 0
  args := [(.scalar .int, .scalar .int)]
  code := ⟨[.clear, .add 4, .load 0, .typecast (.scalar .int) (.scalar .int), .storex .w, .add 4,
    .storeKey], 16, 16⟩
  emitted := by decide
  fits := by decide
  bounded := by decide
  blocks := [[5, 0, 0, 0]]
  read := by decide

def elemFive : DvarRef keyedEnv := .assoc 1 fiveKey

theorem elemFive_ready : (LVar.dvar elemFive).Ready ⟨.w, true⟩ asgnState := by
  have hnone : addrOf asgnState.dvars elemFive.var = 0 := rfl
  refine ⟨fun h => absurd hnone h, fun m nval dflt hnval => ?_⟩
  -- all that counts of the new value is that it is not zero
  have hnval : ¬nval = 0#64 := hnval
  have hone : keyedEnv.getDvar elemFive.var 1 nval dflt m asgnState.dvars =
      keyedEnv.getDvar elemFive.var 1 1 dflt m asgnState.dvars := by
    simp [XEnv.getDvar, Dvar.get, elemFive, DvarRef.var, Dvar.dtGetAssoc, Dvar.dtGetDvar, hnval]
  refine ⟨copyMem m 8192 dflt 8, _, 8192, hone.trans rfl, by decide, fun i hi => ?_⟩
  show 16 ≤ (8192 + BitVec.ofNat 64 i - 4096).toNat
  have hi : i < 4 := hi
  bv_omega

theorem asgnState_ready (t : IntType) :
    (LVar.gvar (X := onesEnv) ⟨0, by decide⟩).Ready t asgnState := by
  have hsize : t.size ≤ 8 := t.width.bytes_le
  have haddr : areaAddr asgnState dctxGvars 0 = -1 := by decide
  intro i hi
  have hdctx : asgnState.st.stack dtStkDctx + BitVec.ofInt 64 dctxGvars = 72 := by decide
  bv_omega

theorem spare_constPointer : 4 ≤ (spare constPointer.gen.regs).card := by decide

theorem spare_freshGen : 2 ≤ (spare freshGen.regs).card := by decide

theorem asgn_ready : (Update.asgn 8).Ready (LVar.gvar (X := onesEnv) ⟨0, by decide⟩)
    constPointer.gen asgnState :=
  ⟨constPointer.active, by decide, fun _ h => by cases h⟩

theorem asgn_code (t : IntType) : 0 ∉ freshGen.regs.spilled ∧
    (∃ out, dtCgUpdate (X := onesEnv) ⟨0, 0⟩ (.gvar ⟨0, by decide⟩) t (.asgn 8) constPointer.gen =
      some out) ∧
    ∃ after, dtCgReadVar (X := onesEnv) ⟨0, 0⟩ 256 (.gvar ⟨0, by decide⟩) t freshGen =
      some after :=
  ⟨by simp [freshGen, dtRegsetCreate], isSome_iff_exists.mp rfl,
    isSome_iff_exists.mp rfl⟩

end DTrace.Cg
