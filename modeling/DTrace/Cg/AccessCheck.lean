import DTrace.Cg.Pointer

/-!
# Access to scratch memory — `dt_cg_alloca_access_check`

An `alloca` pointer is an offset into scratch memory. Before an access of `size` bytes the
generated code compares the offset with the limits of scratch memory and with the **top**, up to
which memory has been handed out. The size is a constant or in a register.

* The top is a field of four bytes that is loaded with a load of eight: what is compared is
  `top + 2^32 * errno`, where `errno` is the field that follows (`scratchTop_eq`).
* `offset + size <= top` is tested as `offset <= top - size`, in words that wrap. A size above the
  top makes the right side huge and the test succeed.
* A constant size is cut to an immediate operand of 32 bits.

`continues_iff` says exactly which accesses get through, and `accessCheck_sound_iff` when those
are safe.
-/

namespace DTrace.Cg

open LabelCode Bpf BitVec

/-- The size of the access that is going to be made. -/
def SizeArg.value (σ : State) : SizeArg → BitVec 64
  | .imm size => size
  | .reg size => σ.regs size

/-- The size as it is taken from the top. -/
def SizeArg.taken (σ : State) : SizeArg → BitVec 64
  | .imm size => immSize size
  | .reg size => σ.regs size

/-! ## The comparisons -/

section
variable {env : Env} {scratchsize : BitVec 32} {reg lbl : Nat} {σ : State}

theorem SizeArg.labels_probeError (fault : BitVec 32) (size : SizeArg) :
    labels (size.probeError fault) = [] := by
  cases size with
  | imm size => exact Cg.labels_probeError _ _
  | reg size => exact labels_probeErrorReg _ _

theorem SizeArg.raises_probeError (fault : BitVec 32) (size : SizeArg) (σ : State) :
    Raises env (size.probeError fault) σ fault := by
  cases size with
  | imm size => exact Cg.raises_probeError _ _ σ
  | reg size => exact raises_probeErrorReg _ _ σ

theorem SizeArg.exec_sub (size : SizeArg) (σ : State) :
    exec env size.sub σ = .next (σ.setReg 0 (σ.regs 0 - size.taken σ)) := by
  cases size <;> rfl

/-- Where the comparisons do not pass, a fault is raised. -/
theorem raises_accessBlock {size : SizeArg} (hlbl : 0 < lbl) (hreg : reg ≠ 0)
    (h : ¬ Passes scratchsize (σ.regs reg) (σ.regs 0) (size.taken σ)) :
    ∃ fault, Raises env (accessBlock scratchsize reg lbl size.sub
      (size.probeError dtraceFltBadsize)) σ fault := by
  have hnd : (labels (accessBlock scratchsize reg lbl size.sub
      (size.probeError dtraceFltBadsize))).Nodup := by
    rw [labels_accessBlock hlbl (SizeArg.labels_probeError _ size)]
    simp
  rw [accessBlock_eq] at hnd ⊢
  -- the code from each of the two labels on
  let base : Ir := ⟨lbl + 1, .nop⟩ :: ⟨0, size.sub⟩ :: ⟨0, .branch .jle reg 0 (lbl + 2)⟩ ::
    (size.probeError dtraceFltBadsize ++ [⟨lbl + 2, .nop⟩])
  have illval : BlockLeads (exec env) (⟨lbl, .nop⟩ ::
      (dtCgProbeErrorReg dtraceFltBadaddr reg ++ base)) σ (AtProbeError σ dtraceFltBadaddr) :=
    .next rfl fun _ => (raises_probeErrorReg dtraceFltBadaddr reg σ).append base
  by_cases hlow : JmpOp.jslt.eval (σ.regs reg) ((8 : BitVec 32).signExtend 64) = true
  · exact ⟨_, BlockLeads.jump (c := ([⟨0, .branchImm .jsge reg scratchsize lbl⟩,
      ⟨0, .branch .jlt reg 0 (lbl + 1)⟩] : Ir)) (exec_branchImm_taken hlow) hlbl.ne' illval hnd⟩
  rw [Bool.not_eq_true] at hlow
  by_cases hhigh : JmpOp.jsge.eval (σ.regs reg) (scratchsize.signExtend 64) = true
  · exact ⟨_, BlockLeads.next (exec_branchImm_not hlow) (.jump
      (c := ([⟨0, .branch .jlt reg 0 (lbl + 1)⟩] : Ir)) (exec_branchImm_taken hhigh) hlbl.ne'
      illval) hnd⟩
  rw [Bool.not_eq_true] at hhigh
  by_cases hbelow : JmpOp.jlt.eval (σ.regs reg) (σ.regs 0) = true
  · have hfits : JmpOp.jle.eval (σ.regs reg) (σ.regs 0 - size.taken σ) = false := by
      rw [← Bool.not_eq_true]
      exact fun hf => h ⟨hlow, hhigh, hbelow, hf⟩
    have hsize : BlockLeads (exec env) base σ (AtProbeError σ dtraceFltBadsize) := by
      refine .next rfl (.next (SizeArg.exec_sub size σ) (.next (exec_branch_not ?_)
        fun _ => (SizeArg.raises_probeError dtraceFltBadsize size _).append _))
      rw [State.setReg_regs_of_ne _ _ hreg]
      exact hfits
    exact ⟨_, BlockLeads.next (exec_branchImm_not hlow) (.next (exec_branchImm_not hhigh)
      (.jump (exec_branch_taken hbelow) (by omega) hsize)) hnd⟩
  · rw [Bool.not_eq_true] at hbelow
    exact ⟨_, BlockLeads.next (exec_branchImm_not hlow) (.next (exec_branchImm_not hhigh)
      (.next (exec_branch_not hbelow) illval)) hnd⟩

/-! ## The whole check -/

theorem dtCgAllocaAccessCheck_some {size : SizeArg} {g g' : Gen} {c : Ir}
    (h : dtCgAllocaAccessCheck scratchsize reg size g = some (c, g')) :
    ∃ drp c1, dtRegsetFree ((dtRegsetXalloc g.regs 0).getD (g.regs, [])).1 0 = some (drp, c1) ∧
      c = accessLoads g.regs ++ (accessBlock scratchsize reg g.label size.sub
        (size.probeError dtraceFltBadsize) ++ c1) := by
  simp only [dtCgAllocaAccessCheck, Option.bind_eq_bind, Option.bind_eq_some_iff, Prod.exists,
    Option.some.injEq, Prod.mk.injEq] at h
  obtain ⟨drp, c1, hfree, rfl, -⟩ := h
  refine ⟨drp, c1, hfree, ?_⟩
  simp only [accessLoads, accessBlock, List.append_assoc]

/-- The code goes on exactly where the comparisons pass. -/
theorem continues_iff {size : SizeArg} {g g' : Gen} {c : Ir}
    (h : dtCgAllocaAccessCheck scratchsize reg size g = some (c, g')) (hreg : reg ≠ 0)
    (hsize : size ≠ .reg 0) (σ : State) :
    (∃ σ', Runs (exec env) c σ σ') ↔
      Passes scratchsize (σ.regs reg) (scratchTop (ctxOf σ)) (size.taken σ) := by
  obtain ⟨_, c1, hfree, rfl⟩ := dtCgAllocaAccessCheck_some h
  have hpos := g.label_pos
  obtain ⟨hlab0, σ1, f1, htop, hregs1, hmem1, hslots1⟩ := frag_accessLoads env g.regs σ
  have htaken : size.taken σ1 = size.taken σ := by
    cases size with
    | imm size => rfl
    | reg r => exact hregs1 r fun h0 => hsize (by rw [h0])
  have hlab2 : labels (accessBlock scratchsize reg g.label size.sub
      (size.probeError dtraceFltBadsize)) = _ :=
    labels_accessBlock hpos (SizeArg.labels_probeError _ size)
  obtain ⟨hlab1, σ3, f3, -⟩ := frag_dtRegsetFree env hfree
    (σ1.setReg 0 (σ1.regs 0 - size.taken σ1))
  have hnd : (labels (accessLoads g.regs ++ (accessBlock scratchsize reg g.label size.sub
      (size.probeError dtraceFltBadsize) ++ c1))).Nodup := by
    simp [hlab0, hlab1, hlab2]
  rw [← htop, ← htaken, ← hregs1 reg hreg]
  constructor
  · rintro ⟨σ', hrun⟩
    by_contra hno
    obtain ⟨_, hr⟩ := raises_accessBlock hpos hreg hno
    exact (Raises.of_frag f1 (Leads.append hr c1) (hslots1.ctx hmem1) hnd).not_runs hrun
  · intro hok
    exact ⟨σ3, (f1.seq ((block_accessBlock env hpos hreg (SizeArg.exec_sub size σ1) hok).append
      f3.block) hnd).runs⟩

end

/-! ## What is compared -/

/-- `mst->scratch_top` and the field behind it, `mst->syscall_errno`. -/
def scratchTopField (ctx : Ctx) : BitVec 64 :=
  loadLE ctx.mem (word ctx.mem ctx.dctx dctxMst + BitVec.ofInt 64 dmstScratchTop) 4

def syscallErrnoField (ctx : Ctx) : BitVec 64 :=
  loadLE ctx.mem (word ctx.mem ctx.dctx dctxMst + BitVec.ofInt 64 dmstScratchTop + 4) 4

theorem toNat_loadLE_lt (m : Mem) (a : BitVec 64) (n : Nat) :
    (loadLE m a n).toNat < 2 ^ (8 * n) := by
  apply Nat.lt_pow_two_of_testBit
  intro i hi
  exact getLsbD_loadLE_of_ge m a hi

theorem toNat_loadLE_succ (m : Mem) (a : BitVec 64) {n : Nat} (hn : n < 8) :
    (loadLE m a (n + 1)).toNat = (m a).toNat + 256 * (loadLE m (a + 1) n).toNat := by
  have hlt := toNat_loadLE_lt m (a + 1) n
  have hbyte : (m a).toNat < 2 ^ 8 := (m a).isLt
  have hpow : 2 ^ (8 * n) ≤ 2 ^ 56 := Nat.pow_le_pow_right (by decide) (by omega)
  rw [loadLE, toNat_or, toNat_shiftLeft, toNat_setWidth,
    Nat.mod_eq_of_lt (by omega), Nat.shiftLeft_eq,
    Nat.mod_eq_of_lt (by omega), ← Nat.shiftLeft_eq, Nat.or_comm,
    ← Nat.shiftLeft_add_eq_or_of_lt hbyte]
  omega

/-- The word that is loaded for the top. -/
theorem scratchTop_eq (ctx : Ctx) :
    (scratchTop ctx).toNat =
      (scratchTopField ctx).toNat + 2 ^ 32 * (syscallErrnoField ctx).toNat := by
  unfold scratchTop scratchTopField syscallErrnoField
  rw [show word ctx.mem (word ctx.mem ctx.dctx dctxMst) dmstScratchTop = loadLE ctx.mem
    (word ctx.mem ctx.dctx dctxMst + BitVec.ofInt 64 dmstScratchTop) 8 from rfl]
  generalize word ctx.mem ctx.dctx dctxMst + BitVec.ofInt 64 dmstScratchTop = a
  have h4 : a + 1 + 1 + 1 + 1 = a + 4 := by bv_omega
  rw [toNat_loadLE_succ _ _ (by decide), toNat_loadLE_succ _ _ (by decide),
    toNat_loadLE_succ _ _ (by decide), toNat_loadLE_succ _ _ (by decide),
    toNat_loadLE_succ _ a (by decide : 3 < 8), toNat_loadLE_succ _ (a + 1) (by decide),
    toNat_loadLE_succ _ (a + 1 + 1) (by decide),
    toNat_loadLE_succ _ (a + 1 + 1 + 1) (by decide), h4]
  rw [show (loadLE ctx.mem (a + 4) 0).toNat = 0 from rfl]
  omega

/-- The comparisons in numbers. If the size is above the word loaded for the top, the last one
always passes. -/
theorem passes_iff (scratchsize : BitVec 32) (p top size : BitVec 64) :
    Passes scratchsize p top size ↔ 8 ≤ p.toInt ∧ p.toInt < scratchsize.toInt ∧
      p.toNat < top.toNat ∧ (size.toNat ≤ top.toNat → p.toNat + size.toNat ≤ top.toNat) := by
  have ht := top.isLt
  have hlow : p.slt 8 = false ↔ 8 ≤ p.toInt := by
    rw [← Bool.not_eq_true, slt_iff_toInt_lt]
    exact not_lt
  have hhigh : (scratchsize.signExtend 64).sle p = false ↔ p.toInt < scratchsize.toInt := by
    rw [← Bool.not_eq_true, sle_iff_toInt_le,
      toInt_signExtend_of_le (by decide)]
    exact not_le
  have hbelow : p.ult top = true ↔ p.toNat < top.toNat := ult_iff_toNat_lt
  have hfits : p.ule (top - size) = true ↔
      p.toNat ≤ (2 ^ 64 - size.toNat + top.toNat) % 2 ^ 64 := by
    rw [ule_iff_toNat_le, toNat_sub]
  constructor
  · rintro ⟨h1, h2, h3, h4⟩
    rw [hbelow] at h3
    rw [hfits] at h4
    exact ⟨hlow.mp h1, hhigh.mp h2, h3, by omega⟩
  · rintro ⟨h1, h2, h3, h4⟩
    exact ⟨hlow.mpr h1, hhigh.mpr h2, hbelow.mpr h3, hfits.mpr (by omega)⟩

/-- **The check lets only safe accesses through exactly when** it rejects the offset, or the size
that is subtracted is at most the word loaded for the top and does not fit below it, or the access
is safe. -/
theorem accessCheck_sound_iff (env : Env) {scratchsize : BitVec 32} {reg : Nat} {size : SizeArg}
    {g g' : Gen} {c : Ir} (h : dtCgAllocaAccessCheck scratchsize reg size g = some (c, g'))
    (hreg : reg ≠ 0) (hsize : size ≠ .reg 0) (σ : State) :
    let pos := σ.regs reg
    let top := (scratchTopField (ctxOf σ)).toNat
    let loaded := top + 2 ^ 32 * (syscallErrnoField (ctxOf σ)).toNat
    ((∃ σ', Runs (exec env) c σ σ') → 8 ≤ pos.toNat ∧ pos.toNat + (size.value σ).toNat ≤ top) ↔
      pos.toInt < 8 ∨ scratchsize.toInt ≤ pos.toInt ∨ loaded ≤ pos.toNat ∨
        ((size.taken σ).toNat ≤ loaded ∧ loaded < pos.toNat + (size.taken σ).toNat) ∨
        pos.toNat + (size.value σ).toNat ≤ top := by
  intro pos top loaded
  rw [continues_iff h hreg hsize, passes_iff, scratchTop_eq]
  show (8 ≤ pos.toInt ∧ pos.toInt < scratchsize.toInt ∧ pos.toNat < loaded ∧
    ((size.taken σ).toNat ≤ loaded → pos.toNat + (size.taken σ).toNat ≤ loaded) → _) ↔ _
  have hpos : 8 ≤ pos.toInt → 8 ≤ pos.toNat := by
    have hint := toInt_eq_toNat_cond pos
    split at hint <;> omega
  constructor
  · intro hsound
    omega
  · rintro hcond ⟨_, h2, _, _⟩
    omega

/-- With no error number behind the top and a size that is not cut: the check rejects the offset,
or the size is at most the top. -/
theorem accessCheck_sound_iff_of_uncut (env : Env) {scratchsize : BitVec 32} {reg : Nat}
    {size : SizeArg} {g g' : Gen} {c : Ir}
    (h : dtCgAllocaAccessCheck scratchsize reg size g = some (c, g')) (hreg : reg ≠ 0)
    (hsize : size ≠ .reg 0) {σ : State} (herrno : syscallErrnoField (ctxOf σ) = 0)
    (huncut : size.taken σ = size.value σ) :
    let pos := σ.regs reg
    let top := (scratchTopField (ctxOf σ)).toNat
    ((∃ σ', Runs (exec env) c σ σ') → pos.toNat + (size.value σ).toNat ≤ top) ↔
      pos.toInt < 8 ∨ scratchsize.toInt ≤ pos.toInt ∨ top ≤ pos.toNat ∨
        (size.value σ).toNat ≤ top := by
  intro pos top
  rw [continues_iff h hreg hsize, passes_iff, scratchTop_eq, herrno, huncut]
  show (8 ≤ pos.toInt ∧ pos.toInt < scratchsize.toInt ∧ pos.toNat < top + 2 ^ 32 * 0 ∧
    ((size.value σ).toNat ≤ top + 2 ^ 32 * 0 →
      pos.toNat + (size.value σ).toNat ≤ top + 2 ^ 32 * 0) → _) ↔ _
  constructor
  · intro hsound
    by_contra hno
    have := hsound (by omega)
    omega
  · intro hcond _
    omega

/-! ## An instance -/

/-- A machine with an offset in `%r1`, a size in `%r2` and the given top of scratch memory. The
context is at `0`, the machine state at `0x100`. -/
def accessState (pos size top : BitVec 64) : State where
  regs n := if n = 1 then pos else if n = 2 then size else 0
  stack _ := 0
  mem := storeLE (storeLE (fun _ => 0) 16 0x100 8) 0x110 top 8

/-- Eight bytes at the start of a block of eight. -/
theorem eight_bytes_safe : ∃ c g', dtCgAllocaAccessCheck 256 1 (.reg 2) freshGen = some (c, g') ∧
    ((∃ σ', Runs (exec quietEnv) c (accessState 8 8 16) σ') →
      8 ≤ (8 : BitVec 64).toNat ∧ (8 : BitVec 64).toNat + (8 : BitVec 64).toNat ≤ 16) := by
  obtain ⟨⟨c, g'⟩, h⟩ := Option.isSome_iff_exists.mp
    (show (dtCgAllocaAccessCheck 256 1 (.reg 2) freshGen).isSome = true by decide)
  exact ⟨c, g', h, (accessCheck_sound_iff quietEnv h (by decide) (by decide)
    (accessState 8 8 16)).mpr (by decide)⟩

/-- Seventeen bytes pass where there are eight. -/
theorem seventeen_bytes_pass : ∃ c g', dtCgAllocaAccessCheck 256 1 (.reg 2) freshGen = some (c, g') ∧
    (∃ σ', Runs (exec quietEnv) c (accessState 8 17 16) σ') ∧
    (scratchTopField (ctxOf (accessState 8 17 16))).toNat < 8 + 17 := by
  obtain ⟨⟨c, g'⟩, h⟩ := Option.isSome_iff_exists.mp
    (show (dtCgAllocaAccessCheck 256 1 (.reg 2) freshGen).isSome = true by decide)
  refine ⟨c, g', h, (continues_iff h (by decide) (by decide) _).mpr ?_, by decide⟩
  exact ⟨by decide, by decide, by decide, by decide⟩

end DTrace.Cg
