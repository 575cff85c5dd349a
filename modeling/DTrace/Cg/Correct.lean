import DTrace.Cg.Shape
import DTrace.Cg.Eval

/-!
# Generated code computes its value and keeps its owners

`Computes env cg g val` says of a generator started in state `g`: whatever code it emits,
and in whatever program the code is placed, a run that starts with the result defined
(`val`) ends with that result in the result register, the register being on loan from its
owner (`Lends`) and every other owner keeping its value.

Each operator preserves `Computes` — under a condition on the register set where the emitted
code needs one:

* an arithmetic operator needs its operands in **different registers**;
* a comparison needs a **free register** for its right operand, since the jump skips the
  reload that freeing a spilled one would emit;
* `?:` needs a **free register** for its result, since both arms store to and reload from
  the same slot.
-/

namespace DTrace.Cg

open LabelCode Bpf Option State
open List hiding lookup

variable (env : Env)

def Computes (env : Env) (cg : Generator) (g : Gen) (val : Ctx → Option (BitVec 64)) : Prop :=
  ∀ out, cg g = some out → ∀ σ v, val (ctxOf σ) = some v →
    ∃ σ', Frag (exec env) out.code σ σ' ∧ σ'.regs out.reg = v ∧ Lends g.regs out.reg σ σ'

/-- The labels of generated code are distinct. -/
theorem Computes.of_block {env : Env} {cg : Generator} {g : Gen}
    {val : Ctx → Option (BitVec 64)} (hs : cg.Shaped) (h0 : 0 ∉ g.regs.spilled)
    (h : ∀ out, cg g = some out → ∀ σ v, val (ctxOf σ) = some v →
      ∃ σ', Block (exec env) out.code σ σ' ∧ σ'.regs out.reg = v ∧ Lends g.regs out.reg σ σ') :
    Computes env cg g val := by
  intro out hout σ v hv
  obtain ⟨σ', f, hσ'⟩ := h out hout σ v hv
  exact ⟨σ', f (hs g out h0 hout).inRange.nodup, hσ'⟩

/-! ## Straight-line pieces -/

theorem frag_setx (reg : Nat) (x : BitVec 64) (σ : State) :
    Frag (exec env) (dtCgSetx reg x) σ (σ.setReg reg x) :=
  Frag.skip rfl (Frag.nil _)

theorem frag_promote (t : IntType) (reg : Nat) (σ : State) :
    Frag (exec env) (dtCgPromote t reg) σ (σ.setReg reg (promoteValue t (σ.regs reg))) := by
  unfold dtCgPromote promoteValue
  split
  · refine Frag.next rfl (Frag.single ?_) (by simp)
    rcases t with ⟨_ | _ | _ | _, _⟩ <;>
      simp [exec, AluOp.eval, IntType.size, Width.bytes]
  · simpa using Frag.nil σ

theorem frag_typecast (src dst : IntType) (reg : Nat) (σ : State) :
    Frag (exec env) (dtCgTypecast src dst reg) σ
      (σ.setReg reg (castValue src dst (σ.regs reg))) := by
  unfold dtCgTypecast castValue
  split
  · refine Frag.next rfl (Frag.single ?_) (by simp)
    simp [exec]
  · simpa using Frag.nil σ

/-! ## The code for signed division -/

section
variable {op : AluOp} {rl rr lbl : Nat}

theorem labels_signedSteps (op : AluOp) (rl rr : Nat) (hlbl : 0 < lbl) :
    labels (dtCgSignedSteps op rl rr lbl) = [lbl, lbl + 1, lbl + 2, lbl + 3, lbl + 4] := by
  simp [dtCgSignedSteps, labels_emitl, hlbl.ne']

/-- Where the labels of the block lead, in any program the block is placed in. -/
theorem lookup_signedSteps (hlbl : 0 < lbl) {pre k : Ir}
    (hpre : ∀ t ∈ labels (dtCgSignedSteps op rl rr lbl), t ∉ labels pre) :
    let prog := pre ++ dtCgSignedSteps op rl rr lbl ++ k
    let l5 : Ir := ⟨lbl + 4, .nop⟩ :: k
    let l4 : Ir := ⟨lbl + 3, .alu op rl rr⟩ :: l5
    let l3 : Ir := ⟨lbl + 2, .neg rl⟩ :: ⟨0, .branchImm .jsge rr 0 (lbl + 1)⟩ :: ⟨0, .neg rr⟩ :: l4
    let l2 : Ir := ⟨lbl + 1, .alu op rl rr⟩ :: ⟨0, .neg rl⟩ :: ⟨0, .jump (lbl + 4)⟩ :: l3
    lookup lbl prog = some (⟨lbl, .neg rr⟩ :: l2) ∧ lookup (lbl + 1) prog = some l2 ∧
      lookup (lbl + 2) prog = some l3 ∧ lookup (lbl + 3) prog = some l4 ∧
      lookup (lbl + 4) prog = some l5 := by
  rw [labels_signedSteps op rl rr hlbl] at hpre
  have look : ∀ t ∈ [lbl, lbl + 1, lbl + 2, lbl + 3, lbl + 4],
      lookup t (pre ++ dtCgSignedSteps op rl rr lbl ++ k) =
        lookup t (dtCgSignedSteps op rl rr lbl ++ k) := by
    intro t ht
    have ht0 : t ≠ 0 := by
      simp only [mem_cons, not_mem_nil, or_false] at ht
      omega
    rw [append_assoc, lookup_append_of_not_mem ht0 (hpre t ht)]
  refine ⟨?_, ?_, ?_, ?_, ?_⟩ <;> rw [look _ (by simp)] <;>
    simp [dtCgSignedSteps, emit, emitl, lookup, hlbl.ne]

/-- The jumps between the four sign cases, one of them backwards, lead to the value. -/
theorem frag_signedSteps (op : AluOp) (hne : rl ≠ rr) (hlbl : 0 < lbl) (σ : State) :
    ∃ σ', Frag (exec env) (dtCgSignedSteps op rl rr lbl) σ σ' ∧
      σ'.regs rl = signedDivMod op (σ.regs rl) (σ.regs rr) ∧
      Touches rl rr σ σ' := by
  have hne' := hne.symm
  unfold signedDivMod
  by_cases ha : (σ.regs rl).slt 0 <;> by_cases hb : (σ.regs rr).slt 0
  · let σ1 := σ.setReg rl (-σ.regs rl)
    let σ2 := σ1.setReg rr (-σ1.regs rr)
    have hrr : σ1.regs rr = σ.regs rr := setReg_regs_of_ne _ _ hne'
    refine ⟨σ2.setReg rl (op.eval (σ2.regs rl) (σ2.regs rr)), fun pre k hpre => ?_, ?_, ?_⟩
    · obtain ⟨-, -, h3, -, -⟩ := lookup_signedSteps (k := k) hlbl hpre
      refine .goto (exec_branchImm_taken (by simpa [JmpOp.eval] using ha)) h3 ?_
      refine .next rfl (.next (exec_branchImm_not ?_) (.next rfl (.next rfl (.next rfl (.refl _)))))
      simpa [JmpOp.eval, hrr, σ1, BitVec.sle_eq_not_slt] using hb
    · rw [if_pos ha, if_pos hb, setReg_regs_self]
      simp [σ1, σ2, setReg_regs, hne, hne']
    · exact (((Touches.refl rl rr σ).setLeft _).setRight _).setLeft _
  · let σ1 := σ.setReg rl (-σ.regs rl)
    let σ2 := σ1.setReg rl (op.eval (σ1.regs rl) (σ1.regs rr))
    have hrr : σ1.regs rr = σ.regs rr := setReg_regs_of_ne _ _ hne'
    refine ⟨σ2.setReg rl (-σ2.regs rl), fun pre k hpre => ?_, ?_, ?_⟩
    · obtain ⟨-, h2, h3, -, h5⟩ := lookup_signedSteps (k := k) hlbl hpre
      refine .goto (exec_branchImm_taken (by simpa [JmpOp.eval] using ha)) h3 ?_
      -- the backward jump
      refine .next rfl (.goto (exec_branchImm_taken ?_) h2 ?_)
      · simpa [JmpOp.eval, hrr, σ1, BitVec.sle_eq_not_slt] using hb
      · exact .next rfl (.next rfl (.goto rfl h5 (.next rfl (.refl _))))
    · rw [if_pos ha, if_neg hb, setReg_regs_self]
      simp [σ1, σ2, setReg_regs, hne']
    · exact (((Touches.refl rl rr σ).setLeft _).setLeft _).setLeft _
  · let σ1 := σ.setReg rr (-σ.regs rr)
    let σ2 := σ1.setReg rl (op.eval (σ1.regs rl) (σ1.regs rr))
    refine ⟨σ2.setReg rl (-σ2.regs rl), fun pre k hpre => ?_, ?_, ?_⟩
    · obtain ⟨h1, -, -, -, h5⟩ := lookup_signedSteps (k := k) hlbl hpre
      refine .next (exec_branchImm_not (by simpa [JmpOp.eval] using ha)) ?_
      refine .goto (exec_branchImm_taken (by simpa [JmpOp.eval] using hb)) h1 ?_
      exact .next rfl (.next rfl (.next rfl (.goto rfl h5 (.next rfl (.refl _)))))
    · rw [if_neg ha, if_pos hb, setReg_regs_self]
      simp [σ1, σ2, setReg_regs, hne]
    · exact (((Touches.refl rl rr σ).setRight _).setLeft _).setLeft _
  · refine ⟨σ.setReg rl (op.eval (σ.regs rl) (σ.regs rr)), fun pre k hpre => ?_, ?_, ?_⟩
    · obtain ⟨-, -, -, h4, -⟩ := lookup_signedSteps (k := k) hlbl hpre
      refine .next (exec_branchImm_not (by simpa [JmpOp.eval] using ha)) ?_
      refine .next (exec_branchImm_not (by simpa [JmpOp.eval] using hb)) ?_
      exact .goto rfl h4 (.next rfl (.next rfl (.refl _)))
    · rw [if_neg ha, if_neg hb, setReg_regs_self]
    · exact (Touches.refl rl rr σ).setLeft _

/-- The signed `DIV` and `MOD` code leaves `signedDivMod` in the left register and touches
only the two operand registers. -/
theorem frag_signedDivMod (op : AluOp) (hne : rl ≠ rr) (hlbl : 0 < lbl) (σ : State)
    (hb : σ.regs rr ≠ 0) :
    ∃ σ', Frag (exec env) (dtCgSignedDivMod op rl rr lbl) σ σ' ∧
      σ'.regs rl = signedDivMod op (σ.regs rl) (σ.regs rr) ∧
      Touches rl rr σ σ' := by
  obtain ⟨σ', hfrag, hval, ht⟩ := frag_signedSteps env op hne hlbl σ
  refine ⟨σ', ?_, hval, ht⟩
  have hcode : dtCgSignedDivMod op rl rr lbl = ⟨0, .branchImm .jne rr 0 (lbl + 5)⟩ ::
      (dtCgProbeError dtraceFltDivZero 0 ++
        ⟨lbl + 5, .nop⟩ :: dtCgSignedSteps op rl rr lbl) := by
    simp [dtCgSignedDivMod, emit, emitl]
  rw [hcode]
  refine Block.jump (exec_branchImm_taken (by simpa [JmpOp.eval] using hb)) (by omega)
    (.next rfl hfrag.block) ?_
  simp [labels_cons_pos, labels_signedSteps op rl rr hlbl]

end

/-! ## Operators on two registers -/

section
variable {env}
variable {expr lp rp : Generator} {g : Gen} {ve vl vr : Ctx → Option (BitVec 64)}

variable (env) in
theorem frag_arithBlock {op : AluOp} {signed : Bool} {rl rr lbl : Nat} (hne : rl ≠ rr)
    (hlbl : 0 < lbl) (σ : State) {v : BitVec 64}
    (hv : arithValue op signed (σ.regs rl) (σ.regs rr) = some v) :
    ∃ σ', Frag (exec env) (arithBlock op signed rl rr lbl) σ σ' ∧ σ'.regs rl = v ∧
      Touches rl rr σ σ' := by
  unfold arithValue at hv
  unfold arithBlock
  split at hv
  · next hop =>
    rw [if_pos hop]
    split at hv
    · simp at hv
    · next hb =>
      obtain ⟨σ', hfrag, hval, ht⟩ := frag_signedDivMod env op hne hlbl σ hb
      exact ⟨σ', hfrag, hval.trans (some.inj hv), ht⟩
  · next hop =>
    rw [if_neg hop]
    refine ⟨_, Frag.single rfl, ?_, (Touches.refl rl rr σ).setLeft _⟩
    rw [setReg_regs_self]
    exact some.inj hv

/-- Arithmetic, given that the operands are in different registers. -/
theorem computes_arith {op : AluOp} {signed : Bool} (hl : lp.Shaped) (hr : rp.Shaped)
    (h0 : 0 ∉ g.regs.spilled) (cl : Computes env lp g vl)
    (cr : ∀ l, lp g = some l → Computes env rp l.gen vr)
    (hne : ∀ l r, lp g = some l → rp l.gen = some r → l.reg ≠ r.reg) :
    Computes env (dtCgArithmeticOp op signed lp rp) g fun ctx =>
      (vl ctx).bind fun a => (vr ctx).bind fun b => arithValue op signed a b := by
  refine .of_block (dtCgArithmeticOp_shaped hl hr) h0 fun out hout σ v hv => ?_
  obtain ⟨l, r, hlp, hrp, sl, -, hreg, -, -, -, hcode⟩ := dtCgArithmeticOp_some hl hr h0 hout
  simp only [bind_eq_some_iff] at hv
  obtain ⟨a, ha, b, hb, hv⟩ := hv
  rw [hcode, hreg]
  have hlr := hne l r hlp hrp
  obtain ⟨hact, c, hx⟩ := sl.xalloc
  obtain ⟨σ1, f1, hv1, h1⟩ := cl l hlp σ a ha
  obtain ⟨σ2, f2, hv2, h2⟩ := cr l hlp r hrp σ1 b (by rw [h1.ctx]; exact hb)
  have hv1' : σ2.regs l.reg = a := (h2.regs l.reg hact hlr).trans hv1
  obtain ⟨_, f3, hv3, ht⟩ := frag_arithBlock env hlr r.gen.label_pos σ2
    (by rw [hv1', hv2]; exact hv)
  obtain ⟨σ4, f4, hv4, h4, -⟩ := frag_free_right env hx h1 h2 hlr ht
  exact ⟨σ4, f1.seq (f2.seq (f3.seq f4.block)), hv4.trans hv3, h4⟩

section
variable {p : Ir} {reg lbl : Nat} {x : BitVec 64} {y : BitVec 32} {σ : State}
  (hpre : Frag (exec env) p σ (σ.setReg reg x))
include hpre

/-- Code that sets a register, and a jump over another value for it. -/
theorem block_first : Block (exec env) ((p ++ [⟨0, .jump (lbl + 1)⟩]) ++
    [⟨lbl, .movImm reg y⟩, ⟨lbl + 1, .nop⟩]) σ (σ.setReg reg x) := by
  have hjump : Block (exec env) (⟨0, .jump (lbl + 1)⟩ ::
      ([⟨lbl, .movImm reg y⟩] ++ [⟨lbl + 1, .nop⟩])) (σ.setReg reg x) (σ.setReg reg x) :=
    .jump rfl (Nat.succ_ne_zero lbl) (.single rfl)
  rw [append_assoc]
  exact hpre.seq hjump

/-- The end of a truth value: a branch chooses between two values. -/
theorem block_select {br : Insn} {b : Bool} (hlbl : 0 < lbl)
    (hbr : exec env br σ = if b then .goto lbl σ else .next σ) :
    Block (exec env) (⟨0, br⟩ :: ((p ++ [⟨0, .jump (lbl + 1)⟩]) ++
      [⟨lbl, .movImm reg y⟩, ⟨lbl + 1, .nop⟩])) σ
      (σ.setReg reg (if b then y.signExtend 64 else x)) := by
  cases b with
  | true => exact Block.jump hbr hlbl.ne' (.next rfl (.single rfl))
  | false => exact Block.next hbr (block_first hpre)

end

theorem ofBool_ne_zero (a : BitVec 64) : ofBool (a != 0) = if a == 0 then 0 else 1 := by
  rw [bne]
  cases a == 0 <;> rfl

variable (env) in
/-- The end of a comparison: both ways around set the left register. -/
theorem block_compareTail (op : JmpOp) (rl rr : Nat) {lbl : Nat} {skip : Ir} (hlbl : 0 < lbl)
    (σ : State) (hskip : skip = []) :
    Block (exec env) (⟨0, .branch op rl rr lbl⟩ ::
      ((skip ++ [⟨0, .movImm rl 0⟩, ⟨0, .jump (lbl + 1)⟩]) ++
        [⟨lbl, .movImm rl 1⟩, ⟨lbl + 1, .nop⟩]))
      σ (σ.setReg rl (ofBool (op.eval (σ.regs rl) (σ.regs rr)))) := by
  subst hskip
  exact block_select (p := [⟨0, .movImm rl 0⟩]) (Frag.single rfl) hlbl rfl

/-- Comparison, given a free register for the right operand. -/
theorem computes_compare {op : JmpOp} (hl : lp.Shaped) (hr : rp.Shaped)
    (h0 : 0 ∉ g.regs.spilled) (cl : Computes env lp (g.labels 2) vl)
    (cr : ∀ l, lp (g.labels 2) = some l → Computes env rp l.gen vr)
    (hfree : ∀ l r, lp (g.labels 2) = some l → rp l.gen = some r →
      r.reg ∉ l.gen.regs.active) :
    Computes env (dtCgCompareOp op lp rp) g fun ctx =>
      (vl ctx).bind fun a => (vr ctx).bind fun b => some (ofBool (op.eval a b)) := by
  refine .of_block (dtCgCompareOp_shaped hl hr) h0 fun out hout σ v hv => ?_
  obtain ⟨l, r, hlp, hrp, sl, -, hreg, -, -, hcode⟩ := dtCgCompareOp_some hl hr h0 hout
  simp only [bind_eq_some_iff] at hv
  obtain ⟨a, ha, b, hb, hv⟩ := hv
  rw [hcode, hreg]
  obtain ⟨hact, c, hx⟩ := sl.xalloc
  have hrfree := hfree l r hlp hrp
  have hlr : l.reg ≠ r.reg := fun e => hrfree (e ▸ hact)
  obtain ⟨σ1, f1, hv1, h1⟩ := cl l hlp σ a ha
  obtain ⟨σ2, f2, hv2, h2⟩ := cr l hlp r hrp σ1 b (by rw [h1.ctx]; exact hb)
  have hv1' : σ2.regs l.reg = a := (h2.regs l.reg hact hlr).trans hv1
  have f3 := block_compareTail env op l.reg r.reg g.label_pos σ2
    (show reload l.gen.regs r.reg = [] from if_neg hrfree)
  obtain ⟨_, -, -, h4, heq⟩ := frag_free_right env hx h1 h2 hlr
    ((Touches.refl l.reg r.reg σ2).setLeft (ofBool (op.eval (σ2.regs l.reg) (σ2.regs r.reg))))
  obtain rfl := heq hrfree
  refine ⟨_, f1.seq (f2.seq f3), ?_, h4⟩
  rw [setReg_regs_self, hv1', hv2]
  exact some.inj hv

/-! ## Short-circuit operators

Both operands are computed in the same register, so a path that skips the right operand still
leaves the owner's value in the slot that the left operand's code stored it to. -/

theorem jeq_zero {a : BitVec 64} : JmpOp.jeq.eval a ((0 : BitVec 32).signExtend 64) = (a == 0) :=
  rfl

theorem jne_zero {a : BitVec 64} : JmpOp.jne.eval a ((0 : BitVec 32).signExtend 64) = (a != 0) :=
  rfl

/-- The left operand decides by the branch `op`, or the right one does. -/
theorem block_shortcut {l r : Emitted} {n : Nat} {op : JmpOp} {tail d : Ir} {i : Insn}
    {w : BitVec 64} (hlp : lp (g.labels n) = some l) (sl : Shape (g.labels n) l)
    (hrp : rp (l.back g) = some r) (sr : Shape (l.back g) r)
    (cl : Computes env lp (g.labels n) vl) (cr : Computes env rp (l.back g) vr)
    (hskip : ∀ τ, Block (exec env) (⟨g.label, i⟩ :: d) τ (τ.setReg r.reg w))
    (htail : ∀ τ, Block (exec env) (tail ++ ⟨g.label, i⟩ :: d) τ
      (τ.setReg r.reg (ofBool (τ.regs r.reg != 0)))) {σ : State} {v : BitVec 64}
    (hv : ((vl (ctxOf σ)).bind fun a =>
      if op.eval a 0 then some w else (vr (ctxOf σ)).map fun b => ofBool (b != 0)) = some v) :
    ∃ σ', Block (exec env) (l.code ++ ⟨0, .branchImm op l.reg 0 g.label⟩ ::
        ((reload g.regs l.reg ++ (r.code ++ tail)) ++ ⟨g.label, i⟩ :: d)) σ σ' ∧
      σ'.regs r.reg = v ∧ Lends g.regs r.reg σ σ' := by
  obtain ⟨a, ha, hv⟩ := bind_eq_some_iff.mp hv
  obtain ⟨σ1, f1, hv1, h1⟩ := cl l hlp σ a ha
  rw [sl.reg_eq sr rfl] at h1 hv1 ⊢
  by_cases hop : op.eval a 0 = true
  · rw [if_pos hop] at hv
    refine ⟨σ1.setReg r.reg w, f1.seq (.jump (exec_branchImm_taken ?_) g.label_pos.ne' (hskip σ1)),
      ?_, h1.setReg w⟩
    · rw [hv1]
      exact hop
    · rw [setReg_regs_self]
      exact some.inj hv
  · rw [if_neg hop] at hv
    obtain ⟨b, hb, rfl⟩ := map_eq_some_iff.mp hv
    obtain ⟨σ2, f2, hk2, -, -⟩ := frag_free env h1
    obtain ⟨σ3, f3, hv3, h3⟩ := cr r hrp σ2 b (by rw [hk2.ctx]; exact hb)
    refine ⟨σ3.setReg r.reg (ofBool (σ3.regs r.reg != 0)),
      f1.seq (.next (exec_branchImm_not ?_) ?_), ?_, (hk2.lends h3).setReg _⟩
    · rw [hv1]
      simpa using hop
    · simpa only [append_assoc, Gen.labels_regs] using f2.seq (f3.seq (htail σ3))
    · rw [setReg_regs_self, hv3]

variable (env) in
theorem block_landTail (reg : Nat) {lbl : Nat} (hlbl : 0 < lbl) (σ : State) :
    Block (exec env) (⟨0, .branchImm .jeq reg 0 lbl⟩ ::
      ((dtCgSetx reg 1 ++ [⟨0, .jump (lbl + 1)⟩]) ++
        [⟨lbl, .movImm reg 0⟩, ⟨lbl + 1, .nop⟩]))
      σ (σ.setReg reg (ofBool (σ.regs reg != 0))) := by
  rw [ofBool_ne_zero]
  exact block_select (frag_setx env reg 1 σ) hlbl rfl

theorem computes_land (hl : lp.Shaped) (hr : rp.Shaped) (h0 : 0 ∉ g.regs.spilled)
    (cl : Computes env lp (g.labels 2) vl)
    (cr : ∀ g1 : Gen, g1.regs = g.regs → Computes env rp g1 vr) :
    Computes env (dtCgLogicalAnd lp rp) g fun ctx =>
      (vl ctx).bind fun a => if a = 0 then some 0 else (vr ctx).map fun b => ofBool (b != 0) := by
  refine .of_block (dtCgLogicalAnd_shaped hl hr) h0 fun out hout σ v hv => ?_
  obtain ⟨l, r, hlp, sl, hrp, sr, hreg, -, hcode⟩ := dtCgLogicalAnd_some hl hr h0 hout
  rw [hcode, hreg]
  refine block_shortcut hlp sl hrp sr cl (cr _ rfl) (fun τ => .next rfl (.single rfl))
    (block_landTail env r.reg g.label_pos) ?_
  simpa [JmpOp.eval] using hv

variable (env) in
theorem block_lorTail (reg : Nat) {lbl : Nat} (σ : State) :
    Block (exec env) (⟨0, .branchImm .jeq reg 0 (lbl + 1)⟩ ::
      (⟨lbl, .movImm reg 1⟩ :: ([⟨0, .jump (lbl + 2)⟩] ++
        [⟨lbl + 1, .movImm reg 0⟩, ⟨lbl + 2, .nop⟩])))
      σ (σ.setReg reg (ofBool (σ.regs reg != 0))) := by
  rw [ofBool_ne_zero]
  exact block_select (p := [⟨lbl, .movImm reg 1⟩]) (Frag.single rfl) (Nat.succ_pos lbl) rfl

theorem computes_lor (hl : lp.Shaped) (hr : rp.Shaped) (h0 : 0 ∉ g.regs.spilled)
    (cl : Computes env lp (g.labels 3) vl)
    (cr : ∀ g1 : Gen, g1.regs = g.regs → Computes env rp g1 vr) :
    Computes env (dtCgLogicalOr lp rp) g fun ctx =>
      (vl ctx).bind fun a => if a = 0 then (vr ctx).map fun b => ofBool (b != 0) else some 1 := by
  refine .of_block (dtCgLogicalOr_shaped hl hr) h0 fun out hout σ v hv => ?_
  obtain ⟨l, r, hlp, sl, hrp, sr, hreg, -, hcode⟩ := dtCgLogicalOr_some hl hr h0 hout
  rw [hcode, hreg]
  refine block_shortcut hlp sl hrp sr cl (cr _ rfl)
    (fun τ => block_first (Frag.single rfl))
    (block_lorTail env r.reg) ?_
  simpa [JmpOp.eval] using hv

/-- A jump over `setx reg, 1` turns a register into a truth value. -/
theorem block_truth {reg lbl : Nat} {i : Insn} {d : Ir} {σ τ : State} (hlbl : 0 < lbl)
    (hd : Block (exec env) (⟨lbl, i⟩ :: d) (σ.setReg reg (ofBool (σ.regs reg != 0))) τ) :
    Block (exec env) (⟨0, .branchImm .jeq reg 0 lbl⟩ :: (dtCgSetx reg 1 ++ ⟨lbl, i⟩ :: d)) σ τ := by
  by_cases hb : σ.regs reg = 0
  · have hv : σ.setReg reg (ofBool (σ.regs reg != 0)) = σ := by
      rw [show ofBool (σ.regs reg != 0) = σ.regs reg from by rw [hb]; rfl, setReg_eq_self]
    rw [hv] at hd
    exact .jump (exec_branchImm_taken (by rw [hb]; rfl)) hlbl.ne' hd
  · have hv : ofBool (σ.regs reg != 0) = 1 := by
      rw [ofBool, if_pos (by simpa using hb)]
    rw [hv] at hd
    exact .next (exec_branchImm_not (by rw [jeq_zero]; simpa using hb))
      ((frag_setx env reg 1 σ).seq hd)

theorem computes_lxor (hl : lp.Shaped) (hr : rp.Shaped) (h0 : 0 ∉ g.regs.spilled)
    (cl : Computes env lp (g.labels 2) vl)
    (cr : ∀ l, lp (g.labels 2) = some l → Computes env rp l.gen vr)
    (hne : ∀ l r, lp (g.labels 2) = some l → rp l.gen = some r → l.reg ≠ r.reg) :
    Computes env (dtCgLogicalXor lp rp) g fun ctx =>
      (vl ctx).bind fun a => (vr ctx).bind fun b =>
        some (ofBool (a != 0) ^^^ ofBool (b != 0)) := by
  refine .of_block (dtCgLogicalXor_shaped hl hr) h0 fun out hout σ v hv => ?_
  obtain ⟨l, r, hlp, hrp, sl, -, hreg, -, -, hcode⟩ := dtCgLogicalXor_some hl hr h0 hout
  simp only [bind_eq_some_iff] at hv
  obtain ⟨a, ha, b, hb, hv⟩ := hv
  rw [hcode, hreg]
  have hpos := g.label_pos
  have hlr := hne l r hlp hrp
  obtain ⟨hact, c, hx⟩ := sl.xalloc
  obtain ⟨σ1, f1, hv1, h1⟩ := cl l hlp σ a ha
  have h1' := h1.setReg (ofBool (σ1.regs l.reg != 0))
  obtain ⟨σ2, f2, hv2, h2⟩ := cr l hlp r hrp _ b (by rw [h1'.ctx]; exact hb)
  have hv1' : σ2.regs l.reg = ofBool (a != 0) := by
    rw [h2.regs l.reg hact hlr, setReg_regs_self, hv1]
  have ht := ((Touches.refl l.reg r.reg σ2).setRight (ofBool (σ2.regs r.reg != 0))).setLeft
    (ofBool (a != 0) ^^^ ofBool (b != 0))
  obtain ⟨σ4, f4, hv4, h4, -⟩ := frag_free_right env hx h1' h2 hlr ht
  refine ⟨σ4, f1.seq (block_truth hpos (.next rfl (f2.seq (block_truth (by omega)
    (.next ?_ f4.block))))), ?_, h4⟩
  · simp [exec, AluOp.eval, setReg_regs, hlr, hv1', hv2]
  · rw [hv4, setReg_regs_self]
    exact some.inj hv

/-! ## The conditional operator -/

/-- `?:`, given that its result register has no owner. -/
theorem computes_ternary (he : expr.Shaped) (hl : lp.Shaped) (hr : rp.Shaped)
    (h0 : 0 ∉ g.regs.spilled) (ce : Computes env expr (g.labels 2) ve)
    (cl : ∀ g1 : Gen, g1.regs = g.regs → Computes env lp g1 vl)
    (cr : ∀ g1 : Gen, g1.regs = g.regs → Computes env rp g1 vr)
    (hfree : ∀ e, expr (g.labels 2) = some e → e.reg ∉ g.regs.active) :
    Computes env (dtCgTernaryOp expr lp rp) g fun ctx =>
      (ve ctx).bind fun e => if e = 0 then vr ctx else vl ctx := by
  refine .of_block (dtCgTernaryOp_shaped he hl hr) h0 fun out hout σ v hv => ?_
  obtain ⟨e, l, r, hex, se, hlp, sl, hrp, sr, hreg, -, hcode⟩ := dtCgTernaryOp_some he hl hr h0 hout
  have her : e.reg = r.reg := se.reg_eq sr rfl
  have hlr : l.reg = r.reg := sl.reg_eq sr rfl
  have hrfree : r.reg ∉ g.regs.active := her ▸ hfree e hex
  have hnil : reload g.regs r.reg = [] := if_neg hrfree
  have hpos := g.label_pos
  obtain ⟨a, ha, hv⟩ := bind_eq_some_iff.mp hv
  rw [hcode, hreg, her, hlr, hnil]
  obtain ⟨σ1, f1, hv1, h1⟩ := ce e hex σ a ha
  rw [her] at h1 hv1
  have hk1 : Keeps g.regs σ σ1 := h1.keeps_of_not_mem hrfree
  by_cases ha0 : a = 0
  · rw [if_pos ha0] at hv
    obtain ⟨σ2, f2, hv2, h2⟩ := cr (l.back g) rfl r hrp σ1 v (by rw [hk1.ctx]; exact hv)
    refine ⟨σ2, f1.seq (.jump (exec_branchImm_taken ?_) hpos.ne' (.next rfl
      (f2.seq (.single rfl)))), hv2, hk1.lends h2⟩
    rw [hv1, ha0]
    rfl
  · rw [if_neg ha0] at hv
    obtain ⟨σ2, f2, hv2, h2⟩ := cl (e.back g) rfl l hlp σ1 v (by rw [hk1.ctx]; exact hv)
    rw [hlr] at h2 hv2
    have fjump : Block (exec env) (⟨0, .jump (g.label + 1)⟩ ::
        ((⟨g.label, .nop⟩ :: r.code) ++ [⟨g.label + 1, .nop⟩])) σ2 σ2 :=
      .jump rfl (by omega) (.single rfl)
    have fmov : Block (exec env) (⟨0, .mov r.reg r.reg⟩ :: ⟨0, .jump (g.label + 1)⟩ ::
        ((⟨g.label, .nop⟩ :: r.code) ++ [⟨g.label + 1, .nop⟩])) σ2 σ2 :=
      .next (by simp [exec]) fjump
    refine ⟨σ2, f1.seq (.next (exec_branchImm_not ?_) ?_), hv2, hk1.lends h2⟩
    · rw [jeq_zero, hv1]
      simpa using ha0
    · simpa only [append_assoc, cons_append, nil_append] using f2.seq fmov

/-! ## Unary operators -/

theorem computes_unary {f : Nat → Ir} {φ : BitVec 64 → BitVec 64} (hl : lp.Shaped)
    (h0 : 0 ∉ g.regs.spilled) (hlab : ∀ reg, labels (f reg) = [])
    (hf : ∀ reg σ, Frag (exec env) (f reg) σ (σ.setReg reg (φ (σ.regs reg))))
    (cl : Computes env lp g vl) :
    Computes env (dtCgUnary lp f) g fun ctx => (vl ctx).map φ := by
  refine .of_block (dtCgUnary_shaped hl hlab) h0 fun out hout σ v hv => ?_
  simp only [dtCgUnary, bind_eq_bind, bind_eq_some_iff] at hout
  obtain ⟨c, hcp, heq⟩ := hout
  obtain rfl := some.inj heq
  obtain ⟨a, ha, rfl⟩ := map_eq_some_iff.mp hv
  obtain ⟨σ1, f1, rfl, h1⟩ := cl c hcp σ a ha
  exact ⟨_, f1.seq (hf c.reg σ1).block, by simp, h1.setReg _⟩

variable (env) in
theorem block_lnegTail (reg : Nat) {lbl : Nat} (hlbl : 0 < lbl) (σ : State) :
    Block (exec env) (⟨0, .branchImm .jeq reg 0 lbl⟩ ::
      ([⟨0, .movImm reg 0⟩, ⟨0, .jump (lbl + 1)⟩] ++
        [⟨lbl, .movImm reg 1⟩, ⟨lbl + 1, .nop⟩]))
      σ (σ.setReg reg (ofBool (σ.regs reg == 0))) :=
  block_select (p := [⟨0, .movImm reg 0⟩]) (Frag.single rfl) hlbl rfl

theorem computes_lneg (hl : lp.Shaped) (h0 : 0 ∉ g.regs.spilled)
    (cl : Computes env lp (g.labels 2) vl) :
    Computes env (dtCgLogicalNeg lp) g fun ctx => (vl ctx).map fun a => ofBool (a == 0) := by
  refine .of_block (dtCgLogicalNeg_shaped hl) h0 fun out hout σ v hv => ?_
  simp only [dtCgLogicalNeg, bind_eq_bind, bind_eq_some_iff] at hout
  obtain ⟨c, hcp, heq⟩ := hout
  obtain rfl := some.inj heq
  obtain ⟨a, ha, rfl⟩ := map_eq_some_iff.mp hv
  obtain ⟨σ1, f1, rfl, h1⟩ := cl c hcp σ a ha
  refine ⟨_, ?_, setReg_regs_self _ _ _, h1.setReg _⟩
  simpa [emit, emitl] using f1.seq (block_lnegTail env c.reg g.label_pos σ1)

theorem computes_op1 (op : Op1) (hl : lp.Shaped) (h0 : 0 ∉ g.regs.spilled)
    (cl : ∀ g1 : Gen, g1.regs = g.regs → Computes env lp g1 vl) :
    Computes env (dtCgOp1 op lp) g fun ctx => (vl ctx).map (op1Value op) := by
  cases op with
  | ineg =>
    refine computes_unary hl h0 (fun _ => labels_emit _)
      (fun reg σ => Frag.single ?_) (cl g rfl)
    rfl
  | ipos => simpa [dtCgOp1, show op1Value .ipos = id from rfl] using cl g rfl
  | bneg =>
    refine computes_unary (f := fun reg => emit (.aluImm .xor reg (-1))) hl h0
      (fun _ => labels_emit _) (fun reg σ => Frag.single ?_) (cl g rfl)
    rfl
  | lneg => exact computes_lneg hl h0 (cl (g.labels 2) rfl)

end

end DTrace.Cg
