import DTrace.Cg.Correct

/-!
# Constants and variables

The leaves of an expression compute their value under no condition on the register set:
constants and variables of the global and clause-local areas in a single register,
thread-local and built-in variables through a library call that takes `%r0` and the argument
registers for itself and gives them back.
-/

namespace DTrace.Cg

open LabelCode Bpf List Option State

variable (env : Env)

/-! ## Constants and scalar areas -/

theorem signExtend_truncate_of_le {v : BitVec 64} (h : (0x7fffffff : BitVec 64).ult v = false) :
    (v.truncate 32).signExtend 64 = v := by
  have hle : v.toNat ≤ 0x7fffffff := by
    simpa [BitVec.ult] using h
  have hmsb : (v.truncate 32).msb = false := by
    rw [BitVec.msb_eq_false_iff_two_mul_lt, BitVec.toNat_setWidth]
    omega
  rw [BitVec.signExtend_eq_setWidth_of_msb_false hmsb]
  apply BitVec.eq_of_toNat_eq
  simp only [BitVec.toNat_setWidth]
  omega

theorem computes_int (value : BitVec 64) (g : Gen) :
    Computes env (dtCgInt value) g fun _ => some value := by
  intro out hout σ v hv
  obtain rfl := some.inj hv
  simp only [dtCgInt, bind_eq_bind, bind_eq_some_iff, Prod.exists] at hout
  obtain ⟨reg, c, _, ha, heq⟩ := hout
  obtain rfl := some.inj heq
  obtain ⟨hal, -⟩ := Gen.alloc_some ha
  obtain ⟨σ1, f1, -, h1⟩ := frag_alloc env hal σ
  have hc := labels_xalloc (dtRegsetAlloc_xalloc hal).2
  refine ⟨σ1.setReg reg value, f1.append ?_ ?_, by simp, h1.setReg _⟩
  · split
    · exact frag_setx env reg value σ1
    · next hle =>
      refine Frag.single ?_
      show Outcome.next (σ1.setReg reg ((value.truncate 32).signExtend 64)) = _
      rw [signExtend_truncate_of_le (by simpa using hle)]
  · split <;> simp [hc]

theorem frag_loadFP (reg : Nat) (off : Int) (σ : State) :
    Frag (exec env) (emit (.load .dw reg regFP off)) σ (σ.setReg reg (σ.stack off)) :=
  Frag.single (by simp [exec])

theorem frag_loadMem (sz : Width) (dst : Nat) {src : Nat} (off : Int) (σ : State)
    (h : src ≠ regFP) :
    Frag (exec env) (emit (.load sz dst src off)) σ
      (σ.setReg dst (loadLE σ.mem (σ.regs src + BitVec.ofInt 64 off) sz.bytes)) :=
  Frag.single (by simp [exec, h])

variable {reg : Nat} {g : Gen} (pcb : Pcb)

/-- Two loads fetch a pointer of the DTrace context. -/
theorem frag_loadCtx (area : Int) (σ : State) (h : reg ≠ regFP) :
    Frag (exec env) (emit (.load .dw reg regFP dtStkDctx) ++ emit (.load .dw reg reg area)) σ
      (σ.setReg reg (word (ctxOf σ).mem (ctxOf σ).dctx area)) := by
  have f := (frag_loadFP env reg dtStkDctx σ).append
    (frag_loadMem env .dw reg area (σ.setReg reg (σ.stack dtStkDctx)) h) (by simp)
  simpa [ctxOf, word, Width.bytes] using f

theorem computes_area (area off : Int) (t : IntType) (g : Gen) :
    Computes env (dtCgLoadArea area off t) g fun ctx => some (areaValue area off t ctx) := by
  intro out hout σ v hv
  obtain rfl := some.inj hv
  simp only [dtCgLoadArea, bind_eq_bind, bind_eq_some_iff, Prod.exists] at hout
  obtain ⟨reg, c, _, ha, heq⟩ := hout
  obtain rfl := some.inj heq
  obtain ⟨hal, -⟩ := Gen.alloc_some ha
  have hx := (dtRegsetAlloc_xalloc hal).2
  have hfp := dtRegsetXalloc_ne_regFP hx
  have hc := labels_xalloc hx
  obtain ⟨σ1, f1, -, h1⟩ := frag_alloc env hal σ
  have f2 := frag_loadCtx env area σ1 hfp
  have f3 := frag_loadMem env t.width reg off
    (σ1.setReg reg (word (ctxOf σ1).mem (ctxOf σ1).dctx area)) hfp
  have f4 := frag_promote env t reg (σ1.setReg reg
    (loadLE σ1.mem (word (ctxOf σ1).mem (ctxOf σ1).dctx area + BitVec.ofInt 64 off) t.width.bytes))
  simp only [setReg_setReg, setReg_regs_self] at f3
  refine ⟨_, ?_, setReg_regs_self σ1 reg (areaValue area off t (ctxOf σ)), h1.setReg _⟩
  have f := f1.seq (f2.seq (f3.seq f4.block)) (by simp [hc])
  rw [← h1.ctx]
  simpa [areaValue, IntType.size, ctxOf] using f

/-! ## Library calls

The owners of the argument registers are stored before the call and reloaded after it; what
stays on loan is `%r0`. -/

theorem frag_saveAll (drp : Regset) (rs : List Nat) (σ : State) :
    ∃ σ', Frag (exec env) (rs.flatMap (save drp)) σ σ' ∧ σ'.regs = σ.regs ∧ σ'.mem = σ.mem ∧
      (∀ r ∈ rs, r ∈ drp.active → σ'.stack (dtStkSpill r) = σ.regs r) ∧
      ∀ o, (∀ r ∈ rs, o ≠ dtStkSpill r) → σ'.stack o = σ.stack o := by
  induction rs generalizing σ with
  | nil => exact ⟨σ, Frag.nil σ, rfl, rfl, by simp, fun _ _ => rfl⟩
  | cons r rs ih =>
    obtain ⟨σ1, f1, hregs1, hmem1, hsaved1, hrest1⟩ := frag_save env drp r σ
    obtain ⟨σ', f, hregs, hmem, hsaved, hrest⟩ := ih σ1
    refine ⟨σ', ?_, hregs.trans hregs1, hmem.trans hmem1, fun q hq hqact => ?_, fun o ho => ?_⟩
    · rw [flatMap_cons]
      exact f1.append f (by simp [labels_flatMap_eq_nil (labels_save drp)])
    · by_cases hqrs : q ∈ rs
      · rw [hsaved q hqrs hqact, hregs1]
      · -- `q` is `r`, stored first and not stored again
        obtain rfl : q = r := (mem_cons.mp hq).resolve_right hqrs
        rw [hrest (dtStkSpill q) fun p hp e => hqrs (dtStkSpill_inj.mp e ▸ hp), hsaved1 hqact]
    · rw [hrest o fun p hp => ho p (mem_cons_of_mem _ hp), hrest1 o (ho r mem_cons_self)]

theorem frag_reloadIf (p : Nat → Prop) [DecidablePred p] (rs : List Nat) (σ : State) :
    ∃ σ', Frag (exec env) (rs.flatMap fun r => if p r then dtCgSpillLoad r else []) σ σ' ∧
      σ'.stack = σ.stack ∧ σ'.mem = σ.mem ∧
      (∀ r ∈ rs, p r → σ'.regs r = σ.stack (dtStkSpill r)) ∧
      ∀ q, q ∉ rs → σ'.regs q = σ.regs q := by
  induction rs generalizing σ with
  | nil => exact ⟨σ, Frag.nil σ, rfl, rfl, by simp, fun _ _ => rfl⟩
  | cons r rs ih =>
    have hlab : ∀ r, labels (if p r then dtCgSpillLoad r else []) = [] := fun r => by
      split <;> rfl
    obtain ⟨σ1, f1, hstack1, hmem1, hloaded1, hrest1, -⟩ := frag_loadIf env (p r) r σ
    obtain ⟨σ', f, hstack, hmem, hloaded, hrest⟩ := ih σ1
    refine ⟨σ', ?_, hstack.trans hstack1, hmem.trans hmem1, fun q hq hqact => ?_, fun q hq => ?_⟩
    · rw [flatMap_cons]
      exact f1.append f (by simp [hlab, labels_flatMap_eq_nil hlab])
    · by_cases hqrs : q ∈ rs
      · rw [hloaded q hqrs hqact, hstack1]
      · obtain rfl : q = r := (mem_cons.mp hq).resolve_right hqrs
        rw [hrest q hqrs, hloaded1 hqact]
    · rw [mem_cons, not_or] at hq
      rw [hrest q hq.2, hrest1 q hq.1]

/-- A call leaves its result in `%r0`, on loan from whoever owned `%r0`. -/
theorem block_call {f : Func} {args c : Ir} {g' : Gen} (h₀ : 0 ∉ g.regs.spilled)
    (h : dtCgCall f args g = some (c, g')) {vals : List (BitVec 64)} {v : BitVec 64} (σ : State)
    (hargs : ∀ τ, ctxOf τ = ctxOf σ → ∃ τ', Frag (exec env) args τ τ' ∧ τ'.args f = vals ∧
      (∀ q, q ∉ [1, 2, 3, 4, 5] → τ'.regs q = τ.regs q) ∧ τ'.stack = τ.stack ∧ τ'.mem = τ.mem)
    (hret : env.ret f vals σ.mem = some v) :
    ∃ σ', Block (exec env) c σ σ' ∧ σ'.regs 0 = v ∧ Lends g.regs 0 σ σ' := by
  obtain ⟨_, hx, -, hfresh, rfl⟩ := dtCgCall_some h₀ h
  obtain ⟨-, -, -, hact, -, rfl⟩ := dtRegsetXalloc_some hx
  have hinj : ∀ q, q ∉ [1, 2, 3, 4, 5] → ∀ r ∈ [1, 2, 3, 4, 5], dtStkSpill q ≠ dtStkSpill r :=
    fun q hq r hr e => hq (dtStkSpill_inj.mp e ▸ hr)
  have hdctx : ∀ r ∈ [1, 2, 3, 4, 5], dtStkDctx ≠ dtStkSpill r := fun r _ => dtStkDctx_ne_spill r
  obtain ⟨σ1, f1, hregs1, hmem1, hsaved1, hrest1⟩ :=
    frag_saveAll env g.regs [1, 2, 3, 4, 5] σ
  have hctx1 : ctxOf σ1 = ctxOf σ := by simp [ctxOf, hrest1 _ hdctx, hmem1]
  obtain ⟨σ2, f2, hvals, hregs2, hstack2, hmem2⟩ := hargs σ1 hctx1
  obtain ⟨σ3, f3, hregs3, hmem3, hsaved3, hrest3⟩ := frag_save env g.regs 0 σ2
  have hargs3 : σ3.args f = vals := by rw [← hvals, State.args, State.args, hregs3]
  let junk := env.clobber f vals σ3.mem
  have f4 : Frag (exec env) (emit (.call f)) σ3 (σ3.afterCall junk v) := by
    refine Frag.single ?_
    simp only [exec, hargs3, hmem3, hmem2, hmem1, hret, junk]
  obtain ⟨σ5, f5, hstack5, hmem5, hloaded, hrest5⟩ :=
    frag_reloadIf env (· ∈ g'.regs.active) [1, 2, 3, 4, 5] (σ3.afterCall junk v)
  -- the whole code changes the slots of the argument registers and of `%r0` only
  have hstack : ∀ o, o ≠ dtStkSpill 0 → σ5.stack o = σ1.stack o := by
    intro o ho
    rw [hstack5]
    exact (hrest3 o ho).trans (congrFun hstack2 o)
  refine ⟨σ5, f1.seq (f2.seq (f3.seq (f4.seq f5.block))), ?_, ?_⟩
  · rw [hrest5 0 (by decide)]
    rfl
  · refine ⟨fun q hq hne => ?_, fun h0 => ?_, fun q hq => ?_, ?_, ?_⟩
    · by_cases hq5 : q ∈ [1, 2, 3, 4, 5]
      · rw [hloaded q hq5 (by simp [hact, hq]), ← hstack5, hstack _ (by simp [hne]),
          hsaved1 q hq5 hq]
      · have hgt : ¬q ≤ 5 := by
          simp only [mem_cons] at hq5
          omega
        rw [hrest5 q hq5, ← hregs1, ← hregs2 q hq5, ← hregs3]
        simp [afterCall, hne, hgt]
    · rw [hstack5]
      show σ3.stack (dtStkSpill 0) = _
      rw [hsaved3 h0, hregs2 0 (by decide), hregs1]
    · have hq0 : q ≠ 0 := fun e => h₀ (e ▸ hq)
      rw [hstack _ (by simp [hq0]), hrest1 _ (hinj q fun hq5 => hfresh q hq5 hq)]
    · rw [hstack _ (dtStkDctx_ne_spill 0), hrest1 _ hdctx]
    · rw [hmem5]
      exact hmem3.trans (hmem2.trans hmem1)

/-- `%r0` is given back while the result register stays on loan. -/
theorem frag_free_zero {drp drp0 drp' : Regset} {c c0 : Ir} {σ σ1 σ2 : State}
    (hx : dtRegsetXalloc drp 0 = some (drp0, c0)) (h1 : Lends drp 0 σ σ1)
    (h2 : Lends drp0 reg σ1 σ2) (hal : dtRegsetAlloc drp = some (reg, drp', c)) :
    ∃ σ3, Frag (exec env) (reload drp' 0) σ2 σ3 ∧ σ3.regs reg = σ2.regs reg ∧
      Lends drp reg σ σ3 := by
  obtain ⟨-, -, -, hact, hsp, -⟩ := dtRegsetXalloc_some hx
  obtain ⟨hpos, hxr⟩ := dtRegsetAlloc_xalloc hal
  obtain ⟨-, -, -, hact', -, -⟩ := dtRegsetXalloc_some hxr
  obtain ⟨σ3, f, hstack, hmem, hloaded, hrest, -⟩ := frag_loadIf env (0 ∈ drp'.active) 0 σ2
  refine ⟨σ3, f, hrest reg hpos.ne', fun q hq hqr => ?_, fun hr => ?_, fun q hq => ?_, ?_, ?_⟩
  · by_cases hq0 : q = 0
    · subst hq0
      rw [hloaded (by simp [hact', hq]), h2.slots 0 (by simp [hsp, hq]), h1.saved hq]
    · rw [hrest q hq0, h2.regs q (by simp [hact, hq]) hqr, h1.regs q hq hq0]
  · rw [hstack, h2.saved (by simp [hact, hr]), h1.regs reg hr hpos.ne']
  · rw [hstack, h2.slots q (spilled_xalloc hx hq), h1.slots q hq]
  · rw [hstack, h2.dctx, h1.dctx]
  · rw [hmem, h2.mem, h1.mem]

/-! ## Thread-local and built-in variables -/

theorem frag_zerosptr (h : reg ≠ regFP) (σ : State) :
    Frag (exec env) (dtCgZerosptr pcb reg) σ (σ.setReg reg (zerosptr pcb (ctxOf σ))) := by
  refine (frag_loadCtx env dctxStrtab σ h).append (Frag.single ?_) (by simp)
  simp [exec, AluOp.eval, zerosptr]

theorem frag_tvarArgs (id : BitVec 32) (σ : State) :
    ∃ σ', Frag (exec env) (tvarArgs pcb id) σ σ' ∧
      σ'.args .dtGetTvar = [id.signExtend 64, 0, 0, zerosptr pcb (ctxOf σ)] ∧
      (∀ q, q ∉ [1, 2, 3, 4, 5] → σ'.regs q = σ.regs q) ∧ σ'.stack = σ.stack ∧
      σ'.mem = σ.mem := by
  let σ1 := ((σ.setReg 1 (id.signExtend 64)).setReg 2 0).setReg 3 0
  have f1 : Frag (exec env) (emit (.movImm 1 id) ++ emit (.movImm 2 0) ++ emit (.movImm 3 0))
      σ σ1 :=
    Block.next rfl (.next rfl (.single rfl)) (by simp)
  have f2 := frag_zerosptr env pcb (show (4) ≠ regFP by decide) σ1
  refine ⟨σ1.setReg 4 (zerosptr pcb (ctxOf σ1)), ?_, ?_, ?_, rfl, rfl⟩
  · exact f1.append f2 (by simp [dtCgZerosptr])
  · simp [σ1]
    rfl
  · intro q hq
    simp only [mem_cons, not_or] at hq
    simp [σ1, setReg_regs, hq]

theorem frag_bvarArgs (id : BitVec 32) (σ : State) :
    ∃ σ', Frag (exec env) (bvarArgs id) σ σ' ∧
      σ'.args .dtGetBvar = [(ctxOf σ).dctx, id.signExtend 64, 0] ∧
      (∀ q, q ∉ [1, 2, 3, 4, 5] → σ'.regs q = σ.regs q) ∧ σ'.stack = σ.stack ∧
      σ'.mem = σ.mem := by
  refine ⟨((σ.setReg 1 (σ.stack dtStkDctx)).setReg 2 (id.signExtend 64)).setReg 3 0, ?_, ?_, ?_,
    rfl, rfl⟩
  · exact Block.next rfl (.next rfl (.single rfl)) (by simp)
  · simp [args, Func.arity, range_succ, setReg_regs, ctxOf]
  · intro q hq
    simp only [mem_cons, not_or] at hq
    simp [setReg_regs, hq]

/-- The end of a thread-local load: `0` for a missing variable, else the promoted scalar. -/
theorem block_tvarTail (t : IntType) {lbl : Nat} {d : Ir} {σ τ : State} (hlbl : 0 < lbl)
    (hd : Frag (exec env) d (σ.setReg reg (if σ.regs 0 = 0 then 0
      else promoteValue t (loadLE σ.mem (σ.regs 0) t.size))) τ) :
    Block (exec env) (⟨0, .branchImm .jne 0 0 lbl⟩ ::
      ([⟨0, .movImm reg 0⟩, ⟨0, .jump (lbl + 1)⟩] ++
        ⟨lbl, .load t.width reg 0 0⟩ :: (dtCgPromote t reg ++ ⟨lbl + 1, .nop⟩ :: d))) σ τ := by
  have fdone : Block (exec env) (⟨lbl + 1, .nop⟩ :: d) (σ.setReg reg (if σ.regs 0 = 0 then 0
      else promoteValue t (loadLE σ.mem (σ.regs 0) t.size))) τ := .next rfl hd.block
  by_cases h0 : σ.regs 0 = 0
  · rw [if_pos h0] at fdone
    refine .next (exec_branchImm_not (by rw [h0]; rfl)) (.next rfl ?_)
    show Block (exec env) (⟨0, .jump (lbl + 1)⟩ ::
      ((⟨lbl, .load t.width reg 0 0⟩ :: dtCgPromote t reg) ++ ⟨lbl + 1, .nop⟩ :: d)) _ _
    exact .jump rfl (by omega) fdone
  · rw [if_neg h0] at fdone
    have fload := frag_promote env t reg (σ.setReg reg (loadLE σ.mem (σ.regs 0) t.size))
    rw [setReg_regs_self, setReg_setReg] at fload
    refine .jump (exec_branchImm_taken (by rw [jne_zero]; simpa using h0)) hlbl.ne'
      (.next ?_ (fload.seq fdone))
    simp [exec, regFP, IntType.size]

theorem computes_tvar (id : BitVec 32) (t : IntType) (h0 : 0 ∉ g.regs.spilled) :
    Computes env (dtCgLoadVar pcb ⟨.tvar id, t⟩) g (tvarValue env pcb id t) := by
  refine .of_block (dtCgLoadVar_shaped pcb _) h0 fun out hout σ v hv => ?_
  obtain ⟨_, _, _, _, _, hcall, hx, hal, hal', -, -, hcode⟩ := dtCgLoadTvar_some h0 hout
  obtain ⟨p, hp, hv⟩ := bind_eq_some_iff.mp hv
  obtain rfl := some.inj hv
  obtain ⟨σ1, f1, hv1, h1⟩ := block_call env h0 hcall σ
    (fun τ hτ => hτ ▸ frag_tvarArgs env pcb id τ) hp
  obtain ⟨σ2, f2, hregs2, h2⟩ := frag_alloc env hal σ1
  have hmem : σ2.mem = (ctxOf σ).mem := h2.mem.trans h1.mem
  obtain ⟨σ3, f3, hv3, h3⟩ := frag_free_zero env hx h1 (h2.setReg (if p = 0 then 0
    else promoteValue t (loadLE (ctxOf σ).mem p t.size))) hal'
  have ftail := block_tvarTail env t g.label_pos
    (by rw [hregs2, hv1, hmem]; exact f3)
  rw [hcode]
  refine ⟨σ3, f1.append (f2.seq ftail), ?_, h3⟩
  rw [hv3, setReg_regs_self]

/-- Without a pending fault, the check falls through and gives its register back. -/
theorem block_checkFault {pcb : Pcb} {g' : Gen} {c : Ir} (h : dtCgCheckFault pcb g = some (c, g'))
    (σ : State) (hfault : faultOf (ctxOf σ) = 0) :
    ∃ σ', Block (exec env) c σ σ' ∧ Keeps g.regs σ σ' := by
  obtain ⟨reg, _, _, hal, -, -, rfl⟩ := dtCgCheckFault_some h
  have hfp := dtRegsetXalloc_ne_regFP (dtRegsetAlloc_xalloc hal).2
  obtain ⟨σ1, f1, -, h1⟩ := frag_alloc env hal σ
  have f2 := frag_loadCtx env dctxMst σ1 hfp
  have f3 := frag_loadMem env .dw reg dmstFault
    (σ1.setReg reg (word (ctxOf σ1).mem (ctxOf σ1).dctx dctxMst)) hfp
  simp only [setReg_setReg, setReg_regs_self, setReg_mem] at f3
  have hval : loadLE σ1.mem (word (ctxOf σ1).mem (ctxOf σ1).dctx dctxMst +
      BitVec.ofInt 64 dmstFault) Width.dw.bytes = 0 := by
    rw [← h1.ctx] at hfault
    exact hfault
  rw [hval] at f3
  obtain ⟨σ2, f4, hk, -, -⟩ := frag_free env (h1.setReg 0)
  have fbr : Block (exec env) (⟨0, .branchImm .jne reg 0 pcb.exitlbl⟩ :: reload g.regs reg)
      (σ1.setReg reg 0) σ2 :=
    .next (exec_branchImm_not (by rw [setReg_regs_self]; rfl)) f4.block
  exact ⟨σ2, f1.seq (f2.seq (f3.seq fbr)), hk⟩

theorem computes_bvar (id : BitVec 32) (t : IntType) (h0 : 0 ∉ g.regs.spilled) :
    Computes env (dtCgLoadVar pcb ⟨.bvar id, t⟩) g (bvarValue env id) := by
  refine .of_block (dtCgLoadVar_shaped pcb _) h0 fun out hout σ v hv => ?_
  obtain ⟨_, _, _, _, _, _, _, hcall, hx, hcf, -, hal, hal', -, -, hcode⟩ :=
    dtCgLoadBvar_some h0 hout
  obtain ⟨p, hp, hv⟩ := bind_eq_some_iff.mp hv
  have hfault : faultOf (ctxOf σ) = 0 := by
    by_contra hne
    rw [if_neg hne] at hv
    cases hv
  rw [if_pos hfault] at hv
  obtain rfl := some.inj hv
  obtain ⟨σ1, f1, hv1, h1⟩ := block_call env h0 hcall σ
    (fun τ hτ => hτ ▸ frag_bvarArgs env id τ) hp
  obtain ⟨σ2, f2, hk⟩ := block_checkFault env hcf σ1 (by rw [h1.ctx]; exact hfault)
  obtain ⟨h2, hv2⟩ := h1.keeps hx hk
  obtain ⟨σ3, f3, hregs3, h3⟩ := frag_alloc env hal σ2
  obtain ⟨σ4, f4, hv4, h4⟩ := frag_free_zero env hx h2 (h3.setReg p) hal'
  have fmov : Block (exec env) (⟨0, .mov out.reg 0⟩ :: reload out.gen.regs 0) σ3 σ4 :=
    .next (by simp [exec, hregs3, hv2, hv1]) f4.block
  rw [hcode]
  refine ⟨σ4, f1.append (f2.append (f3.seq fmov)), ?_, h4⟩
  rw [hv4, setReg_regs_self]

/-- Every variable the expression fragment has. -/
theorem computes_var (x : Var) (h0 : 0 ∉ g.regs.spilled) :
    Computes env (dtCgLoadVar pcb x) g (varValue env pcb x) := by
  obtain ⟨kind, t⟩ := x
  cases kind with
  | gvar off => exact computes_area env dctxGvars off t g
  | lvar off => exact computes_area env dctxLvars off t g
  | tvar id => exact computes_tvar env pcb id t h0
  | bvar id => exact computes_bvar env pcb id t h0

end DTrace.Cg
