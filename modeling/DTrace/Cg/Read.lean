import DTrace.Cg.CallX

/-!
# What a scalar read leaves in its register

`Value X … r s v` says which scalar the read `r` refers to in the state `s`, and that its value
is `v`. The value has the width of its type; the register has 64 bits. `read_value` says that
the generated code runs to its end and leaves the sign extension of `v` where the path promotes
the node's own type, and the zero extension of `v` everywhere else.
-/

namespace DTrace.Cg

open LabelCode Bpf Option BitVec State

/-! ## Values of a type -/

theorem getLsbD_loadLE_of_ge (m : Mem) (a : BitVec 64) {n i : Nat} (h : 8 * n ≤ i) :
    (loadLE m a n).getLsbD i = false := by
  induction n generalizing a i with
  | zero => simp [loadLE]
  | succ n ih =>
    have hbyte : (m a).getLsbD i = false := getLsbD_of_ge _ _ (by omega)
    rw [loadLE, getLsbD_or, getLsbD_shiftLeft, ih _ (by omega)]
    simp [hbyte]

/-- The scalar of type `t` at an address. -/
def memValue (m : Mem) (a : BitVec 64) (t : IntType) : BitVec (t.size * 8) :=
  (loadLE m a t.size).truncate (t.size * 8)

theorem loadLE_eq_zeroExtend (m : Mem) (a : BitVec 64) (t : IntType) :
    loadLE m a t.size = (memValue m a t).zeroExtend 64 := by
  apply eq_of_getLsbD_eq
  intro i hi
  by_cases hlt : i < t.size * 8
  · simp [memValue, hi, hlt]
  · rw [getLsbD_loadLE_of_ge m a (by omega)]
    simp [memValue, hlt]

/-- Shifting up and arithmetically back down extends the sign. -/
theorem sshiftRight_shiftLeft_eq_signExtend (v : BitVec 64) {n : Nat} (h0 : 0 < n) (hn : n ≤ 64) :
    (v <<< (64 - n)).sshiftRight (64 - n) = (v.truncate n).signExtend 64 := by
  have hmsb : (v <<< (64 - n)).msb = (v.truncate n).msb := by
    rw [msb_eq_getLsbD_last, msb_eq_getLsbD_last, getLsbD_shiftLeft,
      getLsbD_setWidth, decide_eq_false (by omega : ¬64 - 1 < 64 - n), decide_eq_true (by omega : n - 1 < n),
      show 64 - 1 - (64 - n) = n - 1 by omega]
    rfl
  apply eq_of_getLsbD_eq
  intro i hi
  rw [getLsbD_sshiftRight, getLsbD_signExtend, hmsb, decide_eq_true hi,
    decide_eq_false (by omega)]
  by_cases hin : i < n
  · rw [if_pos (by omega), if_pos hin, getLsbD_shiftLeft, getLsbD_setWidth, decide_eq_true (by omega),
      decide_eq_false (by omega), decide_eq_true hin, Nat.add_sub_cancel_left]
    rfl
  · rw [if_neg (by omega), if_neg hin]
    rfl

/-- `dt_cg_promote` extends the sign of a signed value. -/
theorem promoteValue_eq_signExtend {t : IntType} (hs : t.signed = true) (v : BitVec 64) :
    promoteValue t v = (v.truncate (t.size * 8)).signExtend 64 := by
  have hpos : 0 < t.size := t.width.bytes_pos
  have hle : t.size ≤ 8 := t.width.bytes_le
  rw [← sshiftRight_shiftLeft_eq_signExtend v (by omega) (by omega),
    show 64 - t.size * 8 = (8 - t.size) * 8 by omega, promoteValue, hs]
  by_cases h8 : t.size < 8
  · rw [decide_eq_true h8]
    rfl
  · rw [show (8 - t.size) * 8 = 0 by omega]
    simp

theorem zeroExtend_eq_signExtend_iff {w : Nat} (v : BitVec w) (hw : w < 64) :
    v.zeroExtend 64 = v.signExtend 64 ↔ v.msb = false := by
  constructor
  · intro h
    have h63 : (v.setWidth 64).getLsbD 63 = (v.signExtend 64).getLsbD 63 := by rw [← h]
    rw [getLsbD_signExtend, if_neg (by omega), getLsbD_setWidth,
      getLsbD_of_ge v 63 (by omega)] at h63
    exact h63.symm
  · intro h
    rw [signExtend_eq_setWidth_of_msb_false h]

/-! ## Checks -/

section
variable (env : Env)

theorem labels_probeErrorReg (fault : BitVec 32) (ill : Nat) :
    labels (dtCgProbeErrorReg fault ill) = [] := by
  unfold dtCgProbeErrorReg
  split <;> rfl

variable {reg : Nat} {scratchsize : BitVec 32}

/-- A pointer that is not `NULL` passes. -/
theorem block_checkNotnull {g : Gen} {σ : State} (h : σ.regs reg ≠ 0) :
    Block (exec env) (dtCgCheckNotnull reg g).1 σ σ :=
  .jump (exec_branchImm_taken (by rw [jne_zero]; simpa using h)) g.label_pos.ne' (.single rfl)

theorem labels_checkNotnull (reg : Nat) (g : Gen) :
    labels (dtCgCheckNotnull reg g).1 = [g.label] := by
  simp [dtCgCheckNotnull, labels_emitl, g.label_pos.ne']

/-- The top of the scratch space, as it is loaded. -/
def scratchTop (ctx : Ctx) : BitVec 64 :=
  word ctx.mem (word ctx.mem ctx.dctx dctxMst) dmstScratchTop

/-- The access check accepts an offset into scratch memory. -/
structure Accessible (scratchsize size : BitVec 32) (ctx : Ctx) (p : BitVec 64) : Prop where
  low : p.slt 8 = false
  high : (scratchsize.signExtend 64).sle p = false
  top : p.ult (scratchTop ctx) = true
  fits : p.ule (scratchTop ctx - size.signExtend 64) = true

/-- The comparisons pass an offset `p` when the word loaded for the top is `top` and `size` is
taken from it. -/
structure Passes (scratchsize : BitVec 32) (p top size : BitVec 64) : Prop where
  low : p.slt 8 = false
  high : (scratchsize.signExtend 64).sle p = false
  below : p.ult top = true
  fits : p.ule (top - size) = true

/-- The comparisons of `dt_cg_alloca_access_check`, on the top in `%r0`. -/
def accessBlock (scratchsize : BitVec 32) (reg lbl : Nat) (sub : Insn) (err : Ir) : Ir :=
  emit (.branchImm .jslt reg 8 lbl) ++ emit (.branchImm .jsge reg scratchsize lbl) ++
  emit (.branch .jlt reg 0 (lbl + 1)) ++ emitl lbl .nop ++
  dtCgProbeErrorReg dtraceFltBadaddr reg ++ emitl (lbl + 1) .nop ++ emit sub ++
  emit (.branch .jle reg 0 (lbl + 2)) ++ err ++ emitl (lbl + 2) .nop

theorem labels_accessBlock {lbl : Nat} {sub : Insn} {err : Ir} (hlbl : 0 < lbl)
    (hlab : labels err = []) :
    labels (accessBlock scratchsize reg lbl sub err) = [lbl, lbl + 1, lbl + 2] := by
  simp [accessBlock, labels_emitl, labels_probeErrorReg, hlab, hlbl.ne']

theorem accessBlock_eq (scratchsize : BitVec 32) (reg lbl : Nat) (sub : Insn) (err : Ir) :
    accessBlock scratchsize reg lbl sub err = ⟨0, .branchImm .jslt reg 8 lbl⟩ ::
      ⟨0, .branchImm .jsge reg scratchsize lbl⟩ :: ⟨0, .branch .jlt reg 0 (lbl + 1)⟩ ::
      ((⟨lbl, .nop⟩ :: dtCgProbeErrorReg dtraceFltBadaddr reg) ++ ⟨lbl + 1, .nop⟩ :: ⟨0, sub⟩ ::
        ⟨0, .branch .jle reg 0 (lbl + 2)⟩ :: (err ++ [⟨lbl + 2, .nop⟩])) := by
  simp [accessBlock, emit, emitl]

theorem block_accessBlock {lbl : Nat} {sub : Insn} {err : Ir} (hlbl : 0 < lbl) (hreg : reg ≠ 0)
    {σ : State} {size : BitVec 64}
    (hsub : exec env sub σ = .next (σ.setReg 0 (σ.regs 0 - size)))
    (hok : Passes scratchsize (σ.regs reg) (σ.regs 0) size) :
    Block (exec env) (accessBlock scratchsize reg lbl sub err) σ
      (σ.setReg 0 (σ.regs 0 - size)) := by
  have fjle : Block (exec env) (⟨0, .branch .jle reg 0 (lbl + 2)⟩ :: (err ++ [⟨lbl + 2, .nop⟩]))
      (σ.setReg 0 (σ.regs 0 - size)) (σ.setReg 0 (σ.regs 0 - size)) := by
    refine .jump (exec_branch_taken ?_) (by omega) (.single rfl)
    rw [setReg_regs_of_ne _ _ hreg]
    exact hok.fits
  have hlow : JmpOp.jslt.eval (σ.regs reg) ((8 : BitVec 32).signExtend 64) = false := hok.low
  have hhigh : JmpOp.jsge.eval (σ.regs reg) (scratchsize.signExtend 64) = false := hok.high
  have hbelow : JmpOp.jlt.eval (σ.regs reg) (σ.regs 0) = true := hok.below
  rw [accessBlock_eq]
  exact .next (exec_branchImm_not hlow) (.next (exec_branchImm_not hhigh)
    (.jump (exec_branch_taken hbelow) (by omega) (.next rfl (.next hsub fjle))))

/-- The code in front of the comparisons. -/
def accessLoads (drp : Regset) : Ir :=
  ((dtRegsetXalloc drp 0).getD (drp, [])).2 ++ (emit (.load .dw 0 regFP dtStkDctx) ++
    emit (.load .dw 0 0 dctxMst) ++ emit (.load .dw 0 0 dmstScratchTop))

/-- It loads the top, as a word of 64 bits. -/
theorem frag_accessLoads (drp : Regset) (σ : State) :
    labels (accessLoads drp) = [] ∧ ∃ σ', Frag (exec env) (accessLoads drp) σ σ' ∧
      σ'.regs 0 = scratchTop (ctxOf σ) ∧ (∀ q, q ≠ 0 → σ'.regs q = σ.regs q) ∧
      σ'.mem = σ.mem ∧ Slots σ σ' := by
  obtain ⟨hlab0, σ1, f1, hregs1, hmem1, hrest1⟩ := frag_xallocZero env drp σ
  have hslots1 : Slots σ σ1 := .of_spill hrest1
  have hctx1 := hslots1.ctx hmem1
  refine ⟨by simp [accessLoads, hlab0], σ1.setReg 0 (scratchTop (ctxOf σ)),
    f1.append ?_ (by simp [hlab0]),
    setReg_regs_self _ _ _, fun q hq => ?_, hmem1, ⟨hslots1.1, hslots1.2⟩⟩
  · have f := (frag_loadCtx env dctxMst σ1 (by decide)).append
      (frag_loadMem env .dw 0 dmstScratchTop
        (σ1.setReg 0 (word (ctxOf σ1).mem (ctxOf σ1).dctx dctxMst)) (show (0) ≠ regFP by decide))
    rw [hctx1] at f
    simpa [scratchTop, word, ctxOf, hmem1, Width.bytes] using f
  · rw [setReg_regs_of_ne _ _ hq, hregs1]

theorem block_allocaAccessCheck {size : BitVec 64} {g g' : Gen} {c : Ir}
    (h : dtCgAllocaAccessCheck scratchsize reg (.imm size) g = some (c, g')) (hreg : reg ≠ 0)
    {σ : State} (hok : Accessible scratchsize (size.truncate 32) (ctxOf σ) (σ.regs reg)) :
    g'.label = g.label + 3 ∧ labels c = [g.label, g.label + 1, g.label + 2] ∧
      ∃ σ', Block (exec env) c σ σ' ∧ (∀ q, q ≠ 0 → σ'.regs q = σ.regs q) ∧ σ'.mem = σ.mem ∧
        Slots σ σ' := by
  simp only [dtCgAllocaAccessCheck, bind_eq_bind, bind_eq_some_iff, Prod.exists,
    some.injEq, Prod.mk.injEq] at h
  obtain ⟨_, c1, hfree, hc, rfl⟩ := h
  let block := accessBlock scratchsize reg g.label (.aluImm .sub 0 (size.truncate 32))
    (dtCgProbeError dtraceFltBadsize (size.truncate 32))
  obtain rfl : accessLoads g.regs ++ (block ++ c1) = c := by
    rw [← hc]
    simp only [block, accessLoads, accessBlock, List.append_assoc, SizeArg.sub, SizeArg.probeError]
  obtain ⟨hlab0, σ1, f1, htop, hregs1, hmem1, hslots1⟩ := frag_accessLoads env g.regs σ
  have hpasses : Passes scratchsize (σ1.regs reg) (σ1.regs 0)
      ((size.truncate 32).signExtend 64) := by
    rw [hregs1 reg hreg, htop]
    exact ⟨hok.low, hok.high, hok.top, hok.fits⟩
  have f2 : Block (exec env) block σ1 _ := block_accessBlock env g.label_pos hreg rfl hpasses
  obtain ⟨hlab1, σ3, f3, hstack3, hmem3, hregs3, -⟩ := frag_dtRegsetFree env hfree
    (σ1.setReg 0 (σ1.regs 0 - (size.truncate 32).signExtend 64))
  have hlab2 : labels block = _ := labels_accessBlock g.label_pos (labels_probeError _ _)
  refine ⟨rfl, by simp [hlab0, hlab1, hlab2], σ3, f1.seq (f2.append f3.block), ?_, ?_, ?_⟩
  · intro q hq
    rw [hregs3 q hq, setReg_regs_of_ne _ _ hq, hregs1 q hq]
  · exact hmem3.trans hmem1
  · exact hslots1.trans (.of_stack hstack3)

/-- A scratch offset becomes an address, if it is computed in another register. -/
theorem frag_allocaPtr {g g' : Gen} {c : Ir} (h : dtCgAllocaPtr reg g = some (c, g'))
    (hpick : pick g.regs ≠ some reg) (σ : State) :
    g'.label = g.label ∧ labels c = [] ∧ ∃ σ', Frag (exec env) c σ σ' ∧
      σ'.regs reg = word (ctxOf σ).mem (ctxOf σ).dctx dctxScratchmem + σ.regs reg ∧
      σ'.mem = σ.mem := by
  simp only [dtCgAllocaPtr, bind_eq_bind, bind_eq_some_iff, Prod.exists] at h
  obtain ⟨r, _, _, ha, _, _, hf, rfl, rfl⟩ := h
  obtain ⟨hal, hlab⟩ := Gen.alloc_some ha
  obtain ⟨rfl, rfl⟩ := Gen.free_of_alloc hal hf
  have hne : reg ≠ r := by
    rintro rfl
    exact hpick (pick_of_alloc hal)
  have hx := (dtRegsetAlloc_xalloc hal).2
  obtain ⟨σ1, f1, hregs1, h1⟩ := frag_alloc env hal σ
  have f2 := frag_loadCtx env dctxScratchmem σ1 (dtRegsetXalloc_ne_regFP hx)
  rw [h1.ctx] at f2
  let base := word (ctxOf σ).mem (ctxOf σ).dctx dctxScratchmem
  let addr := base + σ.regs reg
  let σ2 := (σ1.setReg r addr).setReg reg addr
  have f3 : Block (exec env) (emit (.alu .add r reg) ++ emit (.mov reg r))
      (σ1.setReg r base) σ2 := by
    have hadd : exec env (.alu .add r reg) (σ1.setReg r base) = .next (σ1.setReg r addr) := by
      simp [exec, AluOp.eval, setReg_regs_of_ne _ _ hne, hregs1, addr]
    exact .next hadd (.single (by simp [exec, σ2]))
  obtain ⟨σ3, f4, -, hmem4, -, hrest4, -⟩ := frag_loadIf env (r ∈ g.regs.active) r σ2
  refine ⟨hlab, by simp [labels_xalloc hx], σ3, ?_, ?_, ?_⟩
  · have f := f1.seq (f2.seq (f3.append
      (show Frag (exec env) (reload g.regs r) σ2 σ3 from f4).block))
    simpa using f (by simp [labels_xalloc hx])
  · rw [hrest4 reg hne, setReg_regs_self]
  · exact hmem4.trans h1.mem

end

/-! ## Pointers -/

section
variable {X : XEnv} {scratchsize : BitVec 32} {op : Width} {reg : Nat} {g g' : Gen} {c : XIr}

theorem signExtend_bytes (op : Width) :
    (BitVec.ofNat 32 op.bytes).signExtend 64 = BitVec.ofNat 64 op.bytes := by
  cases op <;> rfl

theorem truncate_bytes (op : Width) :
    (BitVec.ofNat 64 op.bytes).truncate 32 = BitVec.ofNat 32 op.bytes := by
  cases op <;> rfl

/-- `dt_cg_load_scalar` of readable kernel memory. -/
theorem frag_loadScalar {flags : NodeType} (h : dtCgLoadScalar flags op reg g = some (c, g'))
    (hreg : reg ≠ regFP) {s : XState}
    (hread : X.readable (s.st.regs reg) (BitVec.ofNat 64 op.bytes) s.st.mem = true) :
    InRange g.label g'.label (labels c) ∧ g.label ≤ g'.label ∧ ∃ s', Frag (xexec X) c s s' ∧
      s'.st.regs reg =
        promoteValue ⟨op, flags.signed⟩ (loadLE s.st.mem (s.st.regs reg) op.bytes) := by
  simp only [dtCgLoadScalar, bind_eq_bind, bind_eq_some_iff, Prod.exists,
    some.injEq, Prod.mk.injEq] at h
  obtain ⟨c1, g1, hcall, c2, g2, hf, hc, rfl⟩ := h
  obtain ⟨hfree, _⟩ := Gen.free_some hf
  have hpos := g.label_pos
  let sp := s.st.stack dtStkSp
  let P : (Nat → BitVec 64) → Prop := fun regs =>
    regs 1 = sp ∧ regs 2 = BitVec.ofNat 64 op.bytes ∧ regs 3 = s.st.regs reg
  have hsize : (BitVec.ofNat 64 op.bytes).toNat = op.bytes := by cases op <;> rfl
  obtain ⟨hlab1, hl1⟩ := labels_callX hcall (by rintro _ _ _ ⟨⟩; rfl)
  obtain ⟨⟨σ1, dv1⟩, f1, h0, hmem1, -, hslots1, -⟩ := block_callX (s := s)
    P [] hcall (by simp)
    (by
      rintro drp drp' a ha
      obtain ⟨rfl, rfl⟩ := Prod.mk.inj (some.inj ha)
      refine ⟨by simp, fun τ hregs _ hslots _ => ⟨((τ.setReg 3 (τ.regs reg)).setReg 1
        (τ.stack dtStkSp)).setReg 2 ((BitVec.ofNat 32 op.bytes).signExtend 64),
        Block.next rfl (.next rfl (.single rfl)) (by simp), ?_, rfl, rfl, by simp⟩⟩
      simp [P, setReg_regs, hslots.sp, hregs, sp, signExtend_bytes])
    (by
      rintro τ ⟨h1, h2, h3⟩ hmem -
      refine ⟨_, xexec_probeRead h1 h2 h3 (by rw [hmem]; exact hread), rfl, ?_, rfl, rfl,
        fun q hq => XState.afterCall_regs _ _ _ hq⟩
      rw [hsize, hmem]
      rfl)
  have hval : loadLE σ1.mem (σ1.stack dtStkSp) op.bytes =
      loadLE s.st.mem (s.st.regs reg) op.bytes := by
    rw [show σ1.mem = _ from hmem1, hslots1.sp]
    exact loadLE_copyMem _ _ _ le_rfl (op.bytes_le.trans (by decide))
  let σ2 := σ1.setReg reg (loadLE s.st.mem (s.st.regs reg) op.bytes)
  have fload : Frag (exec (X.base dv1)) (emit (.load .dw reg regFP dtStkSp) ++
      emit (.load op reg reg 0)) σ1 σ2 := by
    have f := (frag_loadFP (X.base dv1) reg dtStkSp σ1).append
      (frag_loadMem (X.base dv1) op reg 0 (σ1.setReg reg (σ1.stack dtStkSp)) hreg) (by simp)
    simpa [hval] using f
  have fpromote := frag_promote (X.base dv1) ⟨op, flags.signed⟩ reg σ2
  let tail : Ir := ⟨0, .branchImm .jeq 0 0 g.label⟩ ::
    ((c2 ++ dtCgProbeErrorReg dtraceFltBadaddr reg) ++ ⟨g.label, .nop⟩ ::
      ((emit (.load .dw reg regFP dtStkSp) ++ emit (.load op reg reg 0)) ++
        dtCgPromote ⟨op, flags.signed⟩ reg))
  have ftail : Block (exec (X.base dv1)) tail σ1
      (σ2.setReg reg (promoteValue ⟨op, flags.signed⟩ (σ2.regs reg))) := by
    refine .jump (exec_branchImm_taken ?_) hpos.ne' (.next rfl (fload.seq fpromote.block))
    rw [h0]
    rfl
  obtain rfl : c1 ++ lift tail = c := by
    rw [← hc]
    simp [tail, emit, emitl]
  have hlabs : labels (c1 ++ lift tail) = [g.label] := by
    simp [tail, hlab1, labels_cons_pos, (frag_dtRegsetFree (X.base dv1) hfree σ1).1,
      labels_probeErrorReg, hpos.ne']
  have hl1' : g1.label = g.label + 1 := hl1
  have hrange : InRange g.label g2.label (labels (c1 ++ lift tail)) := by
    rw [hlabs]
    exact ⟨by simp, by simp; omega⟩
  exact ⟨hrange, by omega, _, f1.append (block_lift ftail) hrange.nodup, by simp [σ2]⟩

/-- A pointer of class `cls` with value `p` refers to the address `a`, and the access passes its
checks. For a scratch offset the address is computed in another register. -/
def Target (X : XEnv) (scratchsize : BitVec 32) (op : Width) (reg : Nat) (g : Gen)
    (cls : PtrClass) (σ : State) (p a : BitVec 64) : Prop :=
  match cls with
  | .kernel => a = p ∧ X.readable p (BitVec.ofNat 64 op.bytes) σ.mem = true
  | .dptr => a = p
  | .alloca => a = word σ.mem (σ.stack dtStkDctx) dctxScratchmem + p ∧
      Accessible scratchsize (BitVec.ofNat 32 op.bytes) (ctxOf σ) p ∧
      ∀ c g', dtCgAllocaAccessCheck scratchsize reg (.imm (BitVec.ofNat 64 op.bytes)) g =
          some (c, g') →
        pick g'.regs ≠ some reg

/-- What the register holds after the end of `DEREF`, `PTR` and `DOT`: only the path for kernel
pointers promotes, by the flags it is given. -/
theorem frag_fetch {cls : PtrClass} {flags : NodeType}
    (h : dtCgFetch scratchsize cls flags op reg g = some (c, g')) (hreg : reg ≠ regFP)
    (h0 : reg ≠ 0) {s : XState} {a : BitVec 64}
    (htarget : Target X scratchsize op reg g cls s.st (s.st.regs reg) a) :
    InRange g.label g'.label (labels c) ∧ g.label ≤ g'.label ∧ ∃ s', Frag (xexec X) c s s' ∧
      s'.st.regs reg = if cls = .kernel then
          promoteValue ⟨op, flags.signed⟩ (loadLE s.st.mem a op.bytes)
        else loadLE s.st.mem a op.bytes := by
  obtain ⟨σ, dv⟩ := s
  cases cls with
  | kernel =>
    obtain ⟨rfl, hread⟩ := htarget
    exact frag_loadScalar h hreg hread
  | dptr =>
    obtain rfl : a = σ.regs reg := htarget
    obtain ⟨rfl, rfl⟩ := Prod.mk.inj (some.inj h)
    refine ⟨InRange.nil _ _, le_rfl, _, frag_lift (frag_loadMem (X.base dv) op reg 0 σ hreg), ?_⟩
    simp
  | alloca =>
    obtain ⟨rfl, hacc, hpick⟩ := htarget
    simp only [dtCgFetch, bind_eq_bind, bind_eq_some_iff, Prod.exists] at h
    obtain ⟨c1, g1, hcheck, _, _, hptr, rfl, rfl⟩ := h
    obtain ⟨_, hlab1, σ1, f1, hregs1, hmem1, hslots1⟩ :=
      block_allocaAccessCheck (X.base dv) hcheck h0
      (truncate_bytes op ▸ hacc)
    obtain ⟨_, hlab2, σ2, f2, hreg2, hmem2⟩ :=
      frag_allocaPtr (X.base dv) hptr (hpick c1 g1 hcheck) σ1
    have f3 := frag_loadMem (X.base dv) op reg 0 σ2 hreg
    refine ⟨⟨?_, ?_⟩, by omega, _,
      frag_lift (((f1.append f2.block).append f3.block) (by simp [hlab1, hlab2])), ?_⟩
    · simp [hlab1, hlab2]
    · simp [hlab1, hlab2]
      omega
    · rw [hslots1.ctx hmem1, hregs1 reg h0] at hreg2
      simp [hreg2, hmem2, hmem1, ctxOf]

end

/-! ## The value a read refers to -/

/-- The value of a dynamic variable at an address: zero if it has none. -/
def dvarValue (m : Mem) (a : BitVec 64) (t : IntType) : BitVec (t.size * 8) :=
  if a = 0 then 0 else memValue m a t

/-- In the state `s`, the scalar the read refers to has the value `v`. The operand's code has
run; its pointer is not `NULL` and may be followed. `%r1` cannot hold the address of the tuple:
it is overwritten before the address is copied. -/
inductive Value (X : XEnv) (scratchsize : BitVec 32) (t : IntType) :
    Read → XState → BitVec (t.size * 8) → Prop
  | gvar (off : Int) (s : XState) :
    Value X scratchsize t (.gvar off) s (memValue s.st.mem
      (word s.st.mem (s.st.stack dtStkDctx) dctxGvars + BitVec.ofInt 64 off) t)
  | lvar (off : Int) (s : XState) :
    Value X scratchsize t (.lvar off) s (memValue s.st.mem
      (word s.st.mem (s.st.stack dtStkDctx) dctxLvars + BitVec.ofInt 64 off) t)
  | tvar (id : BitVec 32) (s : XState) :
    Value X scratchsize t (.tvar id) s
      (dvarValue s.st.mem (addrOf s.dvars (X.tvar (id.signExtend 64))) t)
  | assoc (id : BitVec 32) {tuple : XOperand} {s s₁ : XState} {m : Mem}
      (run : Frag (xexec X) tuple.code s s₁) (r1 : tuple.reg ≠ 1)
      (mem : m = tupleMem s₁.st.mem (s₁.st.regs tuple.reg) id) :
    Value X scratchsize t (.assoc id tuple) s (dvarValue m
      (addrOf s₁.dvars (X.assoc (id.signExtend 64) (s₁.st.regs tuple.reg) m)) t)
  | deref {cls : PtrClass} {child : XOperand} {s s₁ : XState} {a : BitVec 64}
      (run : Frag (xexec X) child.code s s₁) (notnull : s₁.st.regs child.reg ≠ 0)
      (target : Target X scratchsize t.width child.reg (dtCgCheckNotnull child.reg child.gen).2
        cls s₁.st (s₁.st.regs child.reg) a) :
    Value X scratchsize t (.deref cls child) s (memValue s₁.st.mem a t)
  | member {op : MemberOp} {off : BitVec 32} {cls : PtrClass} {left : XOperand} {s s₁ : XState}
      {a : BitVec 64}
      (run : Frag (xexec X) left.code s s₁) (notnull : s₁.st.regs left.reg ≠ 0)
      (target : Target X scratchsize t.width left.reg (dtCgCheckNotnull left.reg left.gen).2
        cls s₁.st (s₁.st.regs left.reg + off.signExtend 64) a) :
    Value X scratchsize t (.member op off cls left) s (memValue s₁.st.mem a t)

/-- Does the path extend the sign of the node that is read? -/
def Read.promotes : Read → Bool
  | .gvar _ | .lvar _ | .tvar _ | .assoc _ _ => true
  | .deref cls _ => cls == .kernel
  | .member _ _ _ _ => false

section
variable {X : XEnv} {pcb : Pcb} {scratchsize : BitVec 32} {t : IntType}

theorem promoteValue_zero (t : IntType) : promoteValue t 0 = 0 := by
  unfold promoteValue
  split <;> simp

theorem promoteValue_dvar (t : IntType) (m : Mem) (a : BitVec 64) :
    promoteValue t ((dvarValue m a t).zeroExtend 64) =
      if a = 0 then 0 else promoteValue t (loadLE m a t.size) := by
  unfold dvarValue
  split
  · show promoteValue t (BitVec.setWidth 64 0#_) = 0
    rw [setWidth_zero]
    exact promoteValue_zero t
  · rw [loadLE_eq_zeroExtend]

variable {s : XState} {out : XEmitted}

/-- Code whose labels were handed out after the operand was generated goes after it. -/
theorem XOperand.append (dn : XOperand) {c : XIr} {hi : Nat} {s1 s2 : XState}
    (hc : InRange dn.gen.label hi (labels c)) (h1 : Frag (xexec X) dn.code s s1)
    (h2 : Block (xexec X) c s1 s2) : Frag (xexec X) (dn.code ++ c) s s2 := by
  refine h1.append (h2 hc.nodup) ?_
  rw [labels_append, List.nodup_append]
  refine ⟨dn.nodup, hc.nodup, fun l hl l' hl' heq => ?_⟩
  have hlt := dn.label_lt l hl
  have hge := (hc.mem l' hl').1
  omega

/-- Variables of the smaller machine. -/
theorem read_var {kind : VarKind} {g : Gen} (h0 : 0 ∉ g.regs.spilled)
    (hout : (dtCgLoadVar pcb ⟨kind, t⟩ g).map (fun o => (⟨lift o.code, o.reg, o.gen⟩ : XEmitted)) =
      some out) {v : BitVec 64}
    (hv : varValue (X.base s.dvars) pcb ⟨kind, t⟩ (ctxOf s.st) = some v) :
    ∃ s', Frag (xexec X) out.code s s' ∧ s'.st.regs out.reg = v := by
  obtain ⟨o, ho, rfl⟩ := map_eq_some_iff.mp hout
  obtain ⟨σ', f, hreg, -⟩ := computes_var (X.base s.dvars) pcb ⟨kind, t⟩ h0 o ho s.st v hv
  exact ⟨⟨σ', s.dvars⟩, frag_lift f, hreg⟩

theorem read_assoc {id : BitVec 32} {tuple : XOperand}
    (hout : dtCgLoadAssoc pcb id t tuple = some out) {s1 : XState}
    (hrun : Frag (xexec X) tuple.code s s1) (h1 : tuple.reg ≠ 1) {m : Mem}
    (hm : m = tupleMem s1.st.mem (s1.st.regs tuple.reg) id) :
    ∃ s', Frag (xexec X) out.code s s' ∧ s'.st.regs out.reg = promoteValue t ((dvarValue m
      (addrOf s1.dvars (X.assoc (id.signExtend 64) (s1.st.regs tuple.reg) m)) t).zeroExtend 64) := by
  simp only [dtCgLoadAssoc, bind_eq_bind, bind_eq_some_iff, Prod.exists,
    some.injEq] at hout
  obtain ⟨c1, _, hcall, reg, c2, g2, ha, c3, _, hf, rfl⟩ := hout
  obtain ⟨hal, _⟩ := Gen.alloc_some ha
  obtain ⟨hfree, -⟩ := Gen.free_some hf
  let p := addrOf s1.dvars (X.assoc (id.signExtend 64) (s1.st.regs tuple.reg) m)
  obtain ⟨hlab1, _⟩ := labels_callX hcall fun _ _ _ ha => labels_assocArgs ha
  obtain ⟨⟨σ2, dv2⟩, f1, h0, hmem, -, -, -⟩ := block_assocCall [] hcall h1 tuple.active (by simp)
    (by simp) (by simp) hm (X.getDvar_load _ _ _ _)
  have hx := (dtRegsetAlloc_xalloc hal).2
  have hreg0 : reg ≠ 0 := (dtRegsetAlloc_xalloc hal).1.ne'
  obtain ⟨σ3, f2, hregs3, h3⟩ := frag_alloc (X.base dv2) hal σ2
  obtain ⟨hlab3, σ4, f4, -, -, hregs4, -⟩ := frag_dtRegsetFree (X.base dv2) hfree
    (σ3.setReg reg (if p = 0 then 0 else promoteValue t (loadLE m p t.size)))
  have ftail := block_tvarTail (X.base dv2) t g2.label_pos
    (by rw [hregs3, show σ2.regs 0 = p from h0, h3.mem, show σ2.mem = m from hmem]; exact f4)
  let code : XIr := c1 ++ lift (c2 ++ ⟨0, .branchImm .jne 0 0 g2.label⟩ ::
    ([⟨0, .movImm reg 0⟩, ⟨0, .jump (g2.label + 1)⟩] ++ ⟨g2.label, .load t.width reg 0 0⟩ ::
      (dtCgPromote t reg ++ ⟨g2.label + 1, .nop⟩ :: c3)))
  have hcode : labels code = [g2.label, g2.label + 1] := by
    simp [code, hlab1, labels_xalloc hx, hlab3, labels_cons_pos, g2.label_pos.ne']
  have fcode : Block (xexec X) code s1 ⟨σ4, dv2⟩ := f1.append (block_lift (f2.seq ftail))
  refine ⟨⟨σ4, dv2⟩, ?_, ?_⟩
  · have hrange : InRange tuple.gen.label (g2.label + 2) (labels code) := by
      refine ⟨by simp [hcode], ?_⟩
      simp only [hcode, List.mem_cons, List.not_mem_nil, or_false]
      omega
    simpa [emit, emitl, code] using tuple.append hrange hrun fcode
  · rw [promoteValue_dvar]
    rw [hregs4 reg hreg0, setReg_regs_self]

/-- The common end of the pointer reads: the check, the offset and the fetch. -/
theorem read_pointer {dn : XOperand} (off : BitVec 32) {cls : PtrClass} {flags : NodeType}
    {c : XIr} {g' : Gen}
    (hfetch : dtCgFetch scratchsize cls flags t.width dn.reg (dtCgCheckNotnull dn.reg dn.gen).2 =
      some (c, g')) {s1 : XState} {a : BitVec 64} (hrun : Frag (xexec X) dn.code s s1)
    (hnotnull : s1.st.regs dn.reg ≠ 0)
    (htarget : Target X scratchsize t.width dn.reg (dtCgCheckNotnull dn.reg dn.gen).2 cls s1.st
      (s1.st.regs dn.reg + off.signExtend 64) a) :
    ∃ s', Frag (xexec X)
        (dn.code ++ lift ((dtCgCheckNotnull dn.reg dn.gen).1 ++ addOffset dn.reg off) ++ c) s s' ∧
      s'.st.regs dn.reg = if cls = .kernel then
          promoteValue ⟨t.width, flags.signed⟩ (loadLE s1.st.mem a t.size)
        else loadLE s1.st.mem a t.size := by
  obtain ⟨σ1, dv⟩ := s1
  let σ2 := σ1.setReg dn.reg (σ1.regs dn.reg + off.signExtend 64)
  have foff : Frag (exec (X.base dv)) (addOffset dn.reg off) σ1 σ2 := by
    unfold addOffset
    split
    · exact Frag.single rfl
    · next h0 =>
      have hoff : off = 0 := by simpa using h0
      have hsame : σ2 = σ1 := by simp [σ2, hoff]
      rw [hsame]
      exact Frag.nil σ1
  have htarget2 : Target X scratchsize t.width dn.reg (dtCgCheckNotnull dn.reg dn.gen).2 cls σ2
      (σ2.regs dn.reg) a := by
    rw [setReg_regs_self]
    cases cls <;> exact htarget
  obtain ⟨hrange, hle, s', f, hreg⟩ := frag_fetch (s := ⟨σ2, dv⟩) hfetch dn.reg_ne_regFP
    dn.reg_pos.ne' htarget2
  have hlab : labels (addOffset dn.reg off) = [] := by
    unfold addOffset
    split <;> rfl
  have hcheck := labels_checkNotnull dn.reg dn.gen
  have hrange' : InRange dn.gen.label g'.label
      (labels (lift ((dtCgCheckNotnull dn.reg dn.gen).1 ++ addOffset dn.reg off) ++ c)) := by
    rw [labels_append, labels_lift, labels_append, hcheck, hlab]
    exact @InRange.insert _ _ _ [] _ hrange (Nat.lt_succ_self _) hle
  refine ⟨s', ?_, hreg⟩
  rw [List.append_assoc]
  exact dn.append hrange' hrun ((block_lift ((block_checkNotnull (X.base dv) hnotnull).append
    foff.block)).append f.block)

/-- **What a read leaves in its register**: the code runs to its end, and the register holds the
promoted value where the path promotes the node that is read, and the bare value elsewhere. -/
theorem read_value {r : Read} {g : Gen} (h0 : 0 ∉ g.regs.spilled)
    (hout : dtCgRead pcb scratchsize t r g = some out) {v : BitVec (t.size * 8)}
    (hv : Value X scratchsize t r s v) :
    ∃ s', Frag (xexec X) out.code s s' ∧ s'.st.regs out.reg =
      if r.promotes then promoteValue t (v.zeroExtend 64) else v.zeroExtend 64 := by
  cases hv with
  | gvar off | lvar off =>
    refine read_var h0 hout ?_
    simp [varValue, areaValue, Read.promotes, ← loadLE_eq_zeroExtend, ctxOf]
  | tvar id =>
    refine read_var h0 hout ?_
    simp only [Read.promotes, promoteValue_dvar]
    simp [varValue, tvarValue, XEnv.base, ctxOf]
  | assoc id run r1 mem => exact read_assoc hout run r1 mem
  | @deref cls child _ s1 a run notnull target =>
    simp only [dtCgRead, bind_eq_bind, bind_eq_some_iff, Prod.exists,
      some.injEq] at hout
    obtain ⟨c2, g', hfetch, rfl⟩ := hout
    obtain ⟨s', f, hreg⟩ := read_pointer 0 hfetch run notnull (by simpa using target)
    refine ⟨s', by simpa [addOffset] using f, hreg.trans ?_⟩
    cases cls <;> simp [Read.promotes, ← loadLE_eq_zeroExtend, NodeType.signed]
  | @member op off cls left _ s1 a run notnull target =>
    simp only [dtCgRead, bind_eq_bind, bind_eq_some_iff, Prod.exists,
      some.injEq] at hout
    obtain ⟨c2, g', hfetch, rfl⟩ := hout
    obtain ⟨s', f, hreg⟩ := read_pointer off hfetch run notnull target
    refine ⟨s', f, hreg.trans ?_⟩
    -- neither pointers nor structures are signed
    have hsigned : op.left.signed = false := by cases op <;> rfl
    simp [Read.promotes, ← loadLE_eq_zeroExtend, hsigned, promoteValue]

/-- **Sign-correct reads**: the register of a read of a signed type narrower than 64 bits holds
the sign extension of the value exactly if the path promotes the node or the value is not
negative. -/
theorem read_signExtend_iff {r : Read} {g : Gen} {out : XEmitted} (h₀ : 0 ∉ g.regs.spilled)
    (hout : dtCgRead pcb scratchsize t r g = some out) (hs : t.signed = true) (hw : t.size < 8)
    {s : XState} {v : BitVec (t.size * 8)} (hv : Value X scratchsize t r s v) :
    ∃ s', Frag (xexec X) out.code s s' ∧
      (s'.st.regs out.reg = v.signExtend 64 ↔ r.promotes = true ∨ v.msb = false) := by
  obtain ⟨s', f, hreg⟩ := read_value h₀ hout hv
  refine ⟨s', f, ?_⟩
  rw [hreg]
  cases hp : r.promotes with
  | true =>
    have htrunc : (v.zeroExtend 64).truncate (t.size * 8) = v := by
      apply eq_of_getLsbD_eq
      intro i hi
      simp [hi]
      omega
    simp [promoteValue_eq_signExtend hs, htrunc]
  | false =>
    rw [if_neg (by simp), zeroExtend_eq_signExtend_iff v (by omega)]
    simp

end

/-! ## Two reads of a negative byte -/

/-- A pointer constant in `%r8`. -/
def constPointer : XOperand where
  code := lift (emit (.movImm 8 4096))
  reg := 8
  gen := { freshGen with regs := freshGen.regs.setActive 8 (by decide) }
  nodup := by simp
  label_lt := by simp
  active := by simp [Regset.setActive]
  reg_pos := by decide

/-- All memory is readable, and every byte of it is `0xff`. -/
def onesEnv : XEnv where
  env := ⟨fun _ _ _ => none, fun _ _ _ _ => 0⟩
  readable _ _ _ := true
  unread _ _ m := m
  pidTgid := 0
  cpu := 0
  ncpus := 0
  tupleSize := 0
  dvarSize := 8
  room _ _ := (⟨none, none, false⟩, ⟨1, by decide⟩)
  junk _ _ := 0

def onesState : XState where
  st := ⟨fun _ => 0, fun _ => 0, fun _ => 0xff⟩
  dvars := ⟨ElemMap.empty fun _ => 0, fun _ => none, 0⟩

theorem gvar_read_signExtend : ∃ out s',
    dtCgRead ⟨0, 0⟩ 256 ⟨.b, true⟩ (.gvar 0) freshGen = some out ∧
      Frag (xexec onesEnv) out.code onesState s' ∧ s'.st.regs out.reg = -1 := by
  obtain ⟨out, hout⟩ := isSome_iff_exists.mp
    (show (dtCgRead ⟨0, 0⟩ 256 ⟨.b, true⟩ (.gvar 0) freshGen).isSome from rfl)
  obtain ⟨s', f, hiff⟩ := read_signExtend_iff (by simp [freshGen, dtRegsetCreate])
    hout rfl (by decide) (Value.gvar 0 onesState)
  exact ⟨out, s', hout, f, hiff.mpr (.inl rfl)⟩

/-- `p->m` for a kernel pointer and a member of type `char` with the value `-1`: the register
holds 255. -/
theorem member_read_zeroExtend : ∃ (out : XEmitted) (s' : XState) (v : BitVec 8),
    dtCgRead ⟨0, 0⟩ 256 ⟨.b, true⟩ (.member .ptr 0 .kernel constPointer) freshGen = some out ∧
      Value onesEnv 256 ⟨.b, true⟩ (.member .ptr 0 .kernel constPointer) onesState v ∧
      Frag (xexec onesEnv) out.code onesState s' ∧ s'.st.regs out.reg = 255 ∧
      s'.st.regs out.reg ≠ v.signExtend 64 := by
  obtain ⟨out, hout⟩ := isSome_iff_exists.mp
    (show (dtCgRead ⟨0, 0⟩ 256 ⟨.b, true⟩ (.member .ptr 0 .kernel constPointer) freshGen).isSome
      from rfl)
  have hrun : Frag (xexec onesEnv) constPointer.code onesState
      ⟨onesState.st.setReg 8 4096, onesState.dvars⟩ := Frag.single rfl
  have hv := @Value.member onesEnv 256 ⟨.b, true⟩ .ptr 0 .kernel constPointer onesState _ 4096 hrun
    (by decide) ⟨rfl, rfl⟩
  obtain ⟨s', f, hreg⟩ := read_value (by simp [freshGen, dtRegsetCreate]) hout hv
  have h255 : s'.st.regs out.reg = 255 := hreg
  exact ⟨out, s', _, hout, hv, f, h255, by rw [h255]; decide⟩

end DTrace.Cg
