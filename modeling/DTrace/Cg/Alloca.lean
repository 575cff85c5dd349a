import DTrace.Cg.AccessCheck

/-!
# The scratch allocator — `dt_cg_subr_alloca`

`alloca(size)` moves the top of scratch memory up by the size, rounded up to eight bytes, and
returns the old top. The new top is computed in 64 bits from the field of 32, and compared with
the size of scratch memory afterwards.

* `dtCgSubrAllocaImpl` is the code; `allocaStep` is what it computes from the top and the size.
  `frag_alloca` and `raises_alloca` connect the two.
* `AllocaRun` is what a clause sees of its requests: each starts from the top the one before it
  left, and a fault ends the clause.
* The sum of the top and the size may wrap. Then the new top is not above the old one, and the
  request is granted: `sound_iff` says that a run is sound **exactly when** no request wraps that
  could be granted at all.
-/

namespace DTrace.Cg

open LabelCode Bpf Option List
open BitVec hiding not_or

def dtraceFltNoscratch : BitVec 32 := 5

/-- `dt_cg_subr_alloca_impl`, with the result in `dst` and the size in `size`. A constant size that
can never fit is an error of the compiler. -/
def dtCgSubrAllocaImpl (scratchsize : BitVec 32) (const : Option (BitVec 64)) (dst size : Nat)
    (g : Gen) : Option (Ir × Gen) := do
  let lblOk := g.label
  let lblErr := g.label + 1
  if const.any ((scratchsize - 8).signExtend 64).ult then none else
    let (mst, c₁, g) ← (g.labels 2).alloc
    let (next, c₂, g) ← g.alloc
    let (c₃, g) ← g.free mst
    let (c₄, g) ← g.free next
    some (c₁ ++ c₂ ++
      emit (.load .dw mst regFP dtStkDctx) ++ emit (.load .dw mst mst dctxMst) ++
      emit (.load .w next mst dmstScratchTop) ++
      emit (.mov dst next) ++ emit (.alu .add next size) ++
      emit (.aluImm .add next 7) ++ emit (.aluImm .and next (-8)) ++
      emit (.branchImm .jgt next scratchsize lblErr) ++
      emit (.branchImm .jle dst (scratchsize - 8) lblOk) ++
      emitl lblErr .nop ++ dtCgProbeError dtraceFltNoscratch 0 ++
      emitl lblOk (.store .w mst dmstScratchTop next) ++ c₃ ++ c₄, g)

/-- `dt_cg_subr_alloca`; `cp` generates the argument, `const` is its value if it is constant. -/
def dtCgSubrAlloca (scratchsize : BitVec 32) (const : Option (BitVec 64)) (cp : Generator) :
    Generator := fun g => do
  let size ← cp g
  let (dst, c₀, g) ← size.gen.alloc
  let (c, g) ← dtCgSubrAllocaImpl scratchsize const dst size.reg g
  let (c₁, g) ← g.free size.reg
  some ⟨size.code ++ c₀ ++ c ++ c₁, dst, g⟩

/-! ## What the code computes

The words in the registers, by the bounds of the two tests. -/

/-- The new top. -/
def allocaNext (top size : BitVec 64) : BitVec 64 := (top + size + 7) &&& (-8)

/-- The new top, if the request is granted. -/
def allocaStep (scratchsize : BitVec 32) (top size : BitVec 64) : Option (BitVec 64) :=
  if (scratchsize.signExtend 64).ult (allocaNext top size) then none
  else if top.ule ((scratchsize - 8).signExtend 64) then some (allocaNext top size)
  else none

variable {scratchsize : BitVec 32}

theorem allocaStep_some {top size top' : BitVec 64}
    (h : allocaStep scratchsize top size = some top') :
    top' = allocaNext top size ∧ (scratchsize.signExtend 64).ult top' = false ∧
      top.ule ((scratchsize - 8).signExtend 64) = true := by
  unfold allocaStep at h
  split at h
  · cases h
  · next hgt =>
    split at h
    · next hle =>
      obtain rfl := some.inj h
      exact ⟨rfl, by simpa using hgt, hle⟩
    · cases h

theorem allocaStep_none {top size : BitVec 64} (h : allocaStep scratchsize top size = none) :
    (scratchsize.signExtend 64).ult (allocaNext top size) = true ∨
      top.ule ((scratchsize - 8).signExtend 64) = false := by
  unfold allocaStep at h
  split at h
  · next hgt => exact .inl hgt
  · split at h
    · cases h
    · next hle => exact .inr (by simpa using hle)

/-- The registers of `dt_cg_subr_alloca_impl` are four different ones. -/
def AllocaRegs (dst size : Nat) (g : Gen) : Prop :=
  ∀ mst ∈ (g.labels 2).alloc, ∀ next ∈ mst.2.2.alloc, [dst, size, mst.1, next.1].Nodup

instance (dst size : Nat) (g : Gen) : Decidable (AllocaRegs dst size g) :=
  inferInstanceAs (Decidable (∀ mst ∈ (g.labels 2).alloc, ∀ next ∈ mst.2.2.alloc,
    [dst, size, mst.1, next.1].Nodup))

/-- A register that is taken while one is free was not in use. -/
theorem Gen.alloc_fresh {g g' : Gen} {reg : Nat} {c : Ir} (h : g.alloc = some (reg, c, g'))
    (hfree : g.regs.active.card + 1 < g.regs.size) :
    reg ∉ g.regs.active ∧ g'.regs.active = insert reg g.regs.active ∧
      g'.regs.size = g.regs.size := by
  obtain ⟨ha, -⟩ := Gen.alloc_some h
  obtain ⟨-, hx⟩ := dtRegsetAlloc_xalloc ha
  obtain ⟨hsize, -, -, hact, -⟩ := dtRegsetXalloc_some hx
  exact ⟨not_mem_of_hasFree (hasFree_of_card_lt hfree) ha, hact, hsize⟩

/-- With four registers free `dt_cg_subr_alloca` hands out different ones. -/
theorem dtCgSubrAlloca_regs {const : Option (BitVec 64)} {cp : Generator} {g : Gen} {out : Emitted}
    (hcp : cp.Shaped) (h0 : 0 ∉ g.regs.spilled) (hfree : g.regs.active.card + 4 < g.regs.size)
    (h : dtCgSubrAlloca scratchsize const cp g = some out) :
    ∃ size g₁ c g₂, cp g = some size ∧
      dtCgSubrAllocaImpl scratchsize const out.reg size.reg g₁ = some (c, g₂) ∧
      AllocaRegs out.reg size.reg g₁ := by
  simp only [dtCgSubrAlloca, bind_eq_bind, bind_eq_some_iff, Prod.exists] at h
  obtain ⟨size, hsize, dst, c₀, g₁, hdst, c, g₂, himpl, _, _, -, heq⟩ := h
  obtain rfl := some.inj heq
  have sz := hcp g size h0 hsize
  obtain ⟨_, ha⟩ := sz.alloc
  obtain ⟨hn, -, -, hact, -⟩ := dtRegsetXalloc_some (dtRegsetAlloc_xalloc ha).2
  have hcard := Finset.card_insert_le size.reg g.regs.active
  -- each register is in use from then on, and the next one was not
  obtain ⟨hdst₁, hact₁, hn₁⟩ := Gen.alloc_fresh hdst (by rw [hact, hn]; omega)
  have hcard₁ := Finset.card_insert_le dst size.gen.regs.active
  rw [hact, Finset.mem_insert, not_or] at hdst₁
  refine ⟨size, g₁, c, g₂, hsize, himpl, ?_⟩
  rintro ⟨mst, c₁, g₃⟩ hmst ⟨next, c₂, g₄⟩ hnext
  obtain ⟨hmst₁, hact₂, hn₂⟩ := Gen.alloc_fresh hmst (by
    rw [Gen.labels_regs, hact₁, hn₁, hn]
    rw [hact] at hcard₁ ⊢
    omega)
  have hcard₂ := Finset.card_insert_le mst g₁.regs.active
  obtain ⟨hnext₁, -, -⟩ := Gen.alloc_fresh hnext (by
    show g₃.regs.active.card + 1 < g₃.regs.size
    rw [hact₂, hn₂, Gen.labels_regs, hn₁, hn]
    rw [hact₁] at hcard₂ ⊢
    rw [hact] at hcard₁ hcard₂ ⊢
    omega)
  rw [Gen.labels_regs, hact₁, hact, Finset.mem_insert, Finset.mem_insert, not_or, not_or] at hmst₁
  change next ∉ g₃.regs.active at hnext₁
  rw [hact₂, Gen.labels_regs, hact₁, hact] at hnext₁
  simp only [Finset.mem_insert, not_or] at hnext₁
  simp only [nodup_cons, mem_cons, not_mem_nil, or_false, not_or, not_false_eq_true, nodup_nil,
    and_true]
  exact ⟨⟨hdst₁.1, Ne.symm hmst₁.1, Ne.symm hnext₁.2.1⟩, ⟨Ne.symm hmst₁.2.1, Ne.symm hnext₁.2.2.1⟩,
    Ne.symm hnext₁.1⟩

/-- The context and the machine state are different pieces of memory. -/
def DctxApart (ctx : Ctx) : Prop :=
  ∀ i < 8, ∀ j < 4, ctx.dctx + BitVec.ofInt 64 dctxMst + BitVec.ofNat 64 i ≠
    word ctx.mem ctx.dctx dctxMst + BitVec.ofInt 64 dmstScratchTop + BitVec.ofNat 64 j

instance (ctx : Ctx) : Decidable (DctxApart ctx) :=
  inferInstanceAs (Decidable (∀ i < 8, ∀ j < 4,
    ctx.dctx + BitVec.ofInt 64 dctxMst + BitVec.ofNat 64 i ≠
      word ctx.mem ctx.dctx dctxMst + BitVec.ofInt 64 dmstScratchTop + BitVec.ofNat 64 j))

/-- The code from the loads to the store. -/
def allocaBlock (scratchsize : BitVec 32) (dst size mst next lbl : Nat) : Ir :=
  emit (.load .dw mst regFP dtStkDctx) ++ emit (.load .dw mst mst dctxMst) ++
  emit (.load .w next mst dmstScratchTop) ++
  emit (.mov dst next) ++ emit (.alu .add next size) ++
  emit (.aluImm .add next 7) ++ emit (.aluImm .and next (-8)) ++
  emit (.branchImm .jgt next scratchsize (lbl + 1)) ++
  emit (.branchImm .jle dst (scratchsize - 8) lbl) ++
  emitl (lbl + 1) .nop ++ dtCgProbeError dtraceFltNoscratch 0 ++
  emitl lbl (.store .w mst dmstScratchTop next)

theorem dtCgSubrAllocaImpl_some {const : Option (BitVec 64)} {dst size : Nat} {g g' : Gen}
    {c : Ir} (h : dtCgSubrAllocaImpl scratchsize const dst size g = some (c, g')) :
    ∃ mst next c1 c2 c3 c4 g1 g2 g3, (g.labels 2).alloc = some (mst, c1, g1) ∧
      g1.alloc = some (next, c2, g2) ∧ g2.free mst = some (c3, g3) ∧
      g3.free next = some (c4, g') ∧
      c = c1 ++ (c2 ++ (allocaBlock scratchsize dst size mst next g.label ++ (c3 ++ c4))) := by
  unfold dtCgSubrAllocaImpl at h
  split at h
  · cases h
  · simp only [bind_eq_bind, bind_eq_some_iff, Prod.exists, some.injEq,
      Prod.mk.injEq] at h
    obtain ⟨mst, c1, g1, h1, next, c2, g2, h2, c3, g3, h3, c4, _, h4, rfl, rfl⟩ := h
    refine ⟨mst, next, c1, c2, c3, c4, g1, g2, g3, h1, h2, h3, h4, ?_⟩
    simp only [allocaBlock, List.append_assoc]

section
variable (env : Env) {scratchsize : BitVec 32} {dst size mst next lbl : Nat}

/-- The address of `mst->scratch_top`. -/
def scratchTopAddr (ctx : Ctx) : BitVec 64 :=
  word ctx.mem ctx.dctx dctxMst + BitVec.ofInt 64 dmstScratchTop

/-- The state in front of the comparisons. -/
def allocaState (dst size mst next : Nat) (σ : State) : State :=
  ((σ.setReg mst (word (ctxOf σ).mem (ctxOf σ).dctx dctxMst)).setReg dst
    (scratchTopField (ctxOf σ))).setReg next (allocaNext (scratchTopField (ctxOf σ)) (σ.regs size))

/-- The code in front of the comparisons. -/
def allocaHead (dst size mst next : Nat) : Ir :=
  emit (.load .dw mst regFP dtStkDctx) ++ emit (.load .dw mst mst dctxMst) ++
  (emit (.load .w next mst dmstScratchTop) ++
  emit (.mov dst next) ++ emit (.alu .add next size) ++
  emit (.aluImm .add next 7) ++ emit (.aluImm .and next (-8)))

theorem frag_allocaHead (hnd : [dst, size, mst, next].Nodup) (hfp : mst ≠ regFP) (σ : State) :
    Frag (exec env) (allocaHead dst size mst next) σ (allocaState dst size mst next σ) := by
  simp only [nodup_cons, mem_cons, not_or] at hnd
  obtain ⟨⟨hds, -, hdn⟩, ⟨hsm, hsn⟩, -, -⟩ := hnd
  let σ1 := σ.setReg mst (word (ctxOf σ).mem (ctxOf σ).dctx dctxMst)
  let σ2 := σ1.setReg next (scratchTopField (ctxOf σ))
  have hload : exec env (.load .w next mst dmstScratchTop) σ1 = .next σ2 := by
    simp [exec, hfp, σ1, σ2, scratchTopField, ctxOf, Width.bytes]
  let σ3 := σ2.setReg dst (σ2.regs next)
  let σ4 := σ3.setReg next (σ3.regs next + σ3.regs size)
  let σ5 := σ4.setReg next (σ4.regs next + 7)
  have hmov : exec env (.mov dst next) σ2 = .next σ3 := rfl
  have hadd : exec env (.alu .add next size) σ3 = .next σ4 := rfl
  have hseven : exec env (.aluImm .add next 7) σ4 = .next σ5 := rfl
  have hand : exec env (.aluImm .and next (-8)) σ5 = .next (allocaState dst size mst next σ) := by
    rw [exec]
    congr 1
    unfold allocaState State.setReg
    congr 1
    funext q
    -- both states have the same three registers set
    simp only [Function.update_apply, State.setReg, σ1, σ2, σ3, σ4, σ5, allocaNext, AluOp.eval]
    by_cases hn : q = next
    · simp [hn, hsn, hsm, Ne.symm hds]
    · by_cases hd : q = dst
      · simp [hd, hdn]
      · simp [hn]
  exact (frag_loadCtx env dctxMst σ hfp).seq
    (.next hload (.next hmov (.next hadd (.next hseven (.single hand))))) (by simp)

theorem labels_allocaBlock (scratchsize : BitVec 32) (dst size mst next : Nat) (hlbl : 0 < lbl) :
    labels (allocaBlock scratchsize dst size mst next lbl) = [lbl + 1, lbl] := by
  simp [allocaBlock, labels_emitl, hlbl.ne']

/-- The comparisons and the store. -/
def allocaTail (scratchsize : BitVec 32) (dst mst next lbl : Nat) : Ir :=
  ⟨0, .branchImm .jgt next scratchsize (lbl + 1)⟩ ::
    ([⟨0, .branchImm .jle dst (scratchsize - 8) lbl⟩] ++ ⟨lbl + 1, .nop⟩ ::
      (dtCgProbeError dtraceFltNoscratch 0 ++ [⟨lbl, .store .w mst dmstScratchTop next⟩]))

theorem allocaBlock_eq : allocaBlock scratchsize dst size mst next lbl =
    allocaHead dst size mst next ++ allocaTail scratchsize dst mst next lbl := by
  simp [allocaBlock, allocaHead, allocaTail, emit, emitl]

theorem nodup_allocaTail (scratchsize : BitVec 32) (dst mst next : Nat) (hlbl : 0 < lbl) :
    (labels (allocaTail scratchsize dst mst next lbl)).Nodup := by
  simp [allocaTail, labels_cons_pos, hlbl.ne']

variable {σ : State}

section

variable (hnd : [dst, size, mst, next].Nodup)

include hnd

theorem allocaState_regs (σ : State) :
    (allocaState dst size mst next σ).regs next =
        allocaNext (scratchTopField (ctxOf σ)) (σ.regs size) ∧
      (allocaState dst size mst next σ).regs dst = scratchTopField (ctxOf σ) ∧
      (allocaState dst size mst next σ).regs mst = word (ctxOf σ).mem (ctxOf σ).dctx dctxMst := by
  simp only [nodup_cons, mem_cons, not_or] at hnd
  obtain ⟨⟨-, hdm, hdn⟩, -, hmn, -⟩ := hnd
  simp [allocaState, State.setReg_regs, hdn, hmn, Ne.symm hdm]

/-- What the code leaves behind when a request is granted. -/
theorem block_allocaBlock (hfp : mst ≠ regFP) (hlbl : 0 < lbl)
    {top' : BitVec 64}
    (h : allocaStep scratchsize (scratchTopField (ctxOf σ)) (σ.regs size) = some top') :
    ∃ σ', Block (exec env) (allocaBlock scratchsize dst size mst next lbl) σ σ' ∧
      σ'.regs dst = scratchTopField (ctxOf σ) ∧ σ'.stack = σ.stack ∧
      σ'.mem = storeLE σ.mem (scratchTopAddr (ctxOf σ)) top' 4 := by
  obtain ⟨rfl, hgt, hle⟩ := allocaStep_some h
  obtain ⟨hnext, hdst, hmst⟩ := allocaState_regs hnd σ
  let σ1 := allocaState dst size mst next σ
  let σ2 : State := { σ1 with mem := storeLE σ.mem (scratchTopAddr (ctxOf σ)) (σ1.regs next) 4 }
  have hstore : exec env (.store .w mst dmstScratchTop next) σ1 = .next σ2 := by
    rw [exec, if_neg hfp, hmst]
    rfl
  rw [← hnext] at hgt ⊢
  refine ⟨σ2, ?_, hdst, rfl, rfl⟩
  rw [allocaBlock_eq]
  refine (frag_allocaHead env hnd hfp σ).seq (.next (exec_branchImm_not hgt) ?_)
  refine .jump (c := ⟨lbl + 1, .nop⟩ :: dtCgProbeError dtraceFltNoscratch 0)
    (exec_branchImm_taken ?_) hlbl.ne' (.single hstore)
  rw [hdst]
  exact hle

/-- A request that is not granted is reported, with the top as it was. -/
theorem raises_allocaBlock (hfp : mst ≠ regFP)
    (hlbl : 0 < lbl) (h : allocaStep scratchsize (scratchTopField (ctxOf σ)) (σ.regs size) = none) :
    Raises env (allocaBlock scratchsize dst size mst next lbl) σ dtraceFltNoscratch := by
  obtain ⟨hnext, hdst, -⟩ := allocaState_regs hnd σ
  let σ1 := allocaState dst size mst next σ
  have herr : BlockLeads (exec env) (⟨lbl + 1, .nop⟩ :: (dtCgProbeError dtraceFltNoscratch 0 ++
      [⟨lbl, .store .w mst dmstScratchTop next⟩])) σ1 (AtProbeError σ1 dtraceFltNoscratch) :=
    .next rfl fun _ => (raises_probeError dtraceFltNoscratch 0 σ1).append _
  have hlab := nodup_allocaTail scratchsize dst mst next hlbl
  rw [allocaBlock_eq]
  refine Raises.of_frag (frag_allocaHead env hnd hfp σ) ?_ rfl (by simpa [allocaHead] using hlab)
  by_cases hgt : JmpOp.jgt.eval (σ1.regs next) (scratchsize.signExtend 64) = true
  · exact BlockLeads.jump (exec_branchImm_taken hgt) (by omega) herr hlab
  · rw [Bool.not_eq_true] at hgt
    refine BlockLeads.next (exec_branchImm_not hgt) (.next (exec_branchImm_not ?_) herr) hlab
    rw [hdst]
    refine (allocaStep_none h).resolve_left fun hult => ?_
    rw [hnext, show JmpOp.jgt.eval _ _ = _ from hult] at hgt
    cases hgt

end

/-! ## The whole code -/

variable {const : Option (BitVec 64)} {g g' : Gen} {c : Ir}

/-- Taking a register moves none, and leaves memory and the context alone. -/
theorem frag_genAlloc {reg : Nat} (h : g.alloc = some (reg, c, g')) (σ : State) :
    labels c = [] ∧ reg ≠ regFP ∧
      ∃ σ', Frag (exec env) c σ σ' ∧ σ'.regs = σ.regs ∧ ctxOf σ' = ctxOf σ := by
  obtain ⟨hal, -⟩ := Gen.alloc_some h
  obtain ⟨-, hx⟩ := dtRegsetAlloc_xalloc hal
  obtain ⟨-, _, -, -, -, hc⟩ := dtRegsetXalloc_some hx
  obtain ⟨σ', f, hregs, hl⟩ := frag_alloc env hal σ
  have hsize := g.regs.size_le
  refine ⟨by rw [hc, labels_save], ?_, σ', f, hregs, hl.ctx⟩
  unfold regFP
  omega

theorem frag_genFree {reg : Nat} (h : g.free reg = some (c, g')) (σ : State) :
    labels c = [] ∧ ∃ σ', Frag (exec env) c σ σ' ∧ ctxOf σ' = ctxOf σ ∧
      ∀ q, q ≠ reg → σ'.regs q = σ.regs q := by
  obtain ⟨hfree, -⟩ := Gen.free_some h
  obtain ⟨hlab, σ', f, hstack, hmem, hregs, -⟩ := frag_dtRegsetFree env hfree σ
  refine ⟨hlab, σ', f, ?_, hregs⟩
  simp [ctxOf, hstack, hmem]

section

variable (h : dtCgSubrAllocaImpl scratchsize const dst size g = some (c, g'))

include h

section

variable (hregs : AllocaRegs dst size g)

include hregs

/-- Around the block two registers are taken and given back. -/
theorem dtCgSubrAllocaImpl_block (σ : State) :
    ∃ mst next c1 c2 σ1, c = c1 ++ (allocaBlock scratchsize dst size mst next g.label ++ c2) ∧
      (labels c).Nodup ∧ [dst, size, mst, next].Nodup ∧ mst ≠ regFP ∧
      Frag (exec env) c1 σ σ1 ∧ σ1.regs = σ.regs ∧ ctxOf σ1 = ctxOf σ ∧
      ∀ τ, ∃ τ', Frag (exec env) c2 τ τ' ∧ τ'.regs dst = τ.regs dst ∧ ctxOf τ' = ctxOf τ := by
  obtain ⟨mst, next, c1, c2, c3, c4, _, _, _, h1, h2, h3, h4, rfl⟩ := dtCgSubrAllocaImpl_some h
  have hnd := hregs _ h1 _ h2
  obtain ⟨hlab1, hfp, σ1, f1, hr1, hctx1⟩ := frag_genAlloc env h1 σ
  obtain ⟨hlab2, -, σ2, f2, hr2, hctx2⟩ := frag_genAlloc env h2 σ1
  have hlab := labels_allocaBlock scratchsize dst size mst next g.label_pos
  have hlab3 := (frag_genFree env h3 σ).1
  have hlab4 := (frag_genFree env h4 σ).1
  refine ⟨mst, next, c1 ++ c2, c3 ++ c4, σ2, by simp, by simp [hlab, hlab1, hlab2, hlab3, hlab4],
    hnd, hfp, f1.append f2 (by simp [hlab1, hlab2]), hr2.trans hr1, hctx2.trans hctx1, fun τ => ?_⟩
  obtain ⟨-, τ1, f3, hctx3, hr3⟩ := frag_genFree env h3 τ
  obtain ⟨-, τ2, f4, hctx4, hr4⟩ := frag_genFree env h4 τ1
  simp only [nodup_cons, mem_cons, not_mem_nil, or_false, not_or] at hnd
  exact ⟨τ2, f3.append f4 (by simp [hlab3, hlab4]), by rw [hr4 dst hnd.1.2.2, hr3 dst hnd.1.2.1],
    hctx4.trans hctx3⟩

/-- A granted request returns the old top and stores the new one. -/
theorem frag_alloca {top' : BitVec 64}
    (hstep : allocaStep scratchsize (scratchTopField (ctxOf σ)) (σ.regs size) = some top') :
    ∃ σ', Frag (exec env) c σ σ' ∧ σ'.regs dst = scratchTopField (ctxOf σ) ∧
      ctxOf σ' = ⟨(ctxOf σ).dctx, storeLE (ctxOf σ).mem (scratchTopAddr (ctxOf σ)) top' 4⟩ := by
  obtain ⟨_, _, _, _, _, rfl, hlab, hnd, hfp, f1, hr1, hctx, hfree⟩ :=
    dtCgSubrAllocaImpl_block env h hregs σ
  rw [← hctx, ← hr1] at hstep
  obtain ⟨σ2, f2, hdst, hstack, hmem⟩ := block_allocaBlock env hnd hfp g.label_pos hstep
  obtain ⟨σ3, f3, hdst3, hctx3⟩ := hfree σ2
  refine ⟨σ3, f1.seq (f2.append f3.block) hlab, by rw [hdst3, hdst, hctx], ?_⟩
  rw [hctx3, ← hctx]
  simp [ctxOf, hstack, hmem]

theorem raises_alloca
    (hstep : allocaStep scratchsize (scratchTopField (ctxOf σ)) (σ.regs size) = none) :
    Raises env c σ dtraceFltNoscratch := by
  obtain ⟨_, _, _, _, _, rfl, hlab, hnd, hfp, f1, hr1, hctx, -⟩ :=
    dtCgSubrAllocaImpl_block env h hregs σ
  rw [← hctx, ← hr1] at hstep
  exact .of_frag f1 ((raises_allocaBlock env hnd hfp g.label_pos hstep).append _) hctx hlab

end

end

end

/-! ## The top afterwards -/

theorem storeLE_of_ne {m : Mem} {a v b : BitVec 64} {n : Nat}
    (h : ∀ j < n, b ≠ a + BitVec.ofNat 64 j) : storeLE m a v n b = m b := by
  apply storeLE_of_ge
  by_contra hlt
  rw [Nat.not_le] at hlt
  apply h _ hlt
  rw [ofNat_toNat, setWidth_eq, add_comm, sub_add_cancel]

/-- Storing to the machine state does not move it. -/
theorem scratchTopAddr_store {ctx : Ctx} (h : DctxApart ctx) (v : BitVec 64) :
    scratchTopAddr ⟨ctx.dctx, storeLE ctx.mem (scratchTopAddr ctx) v 4⟩ = scratchTopAddr ctx := by
  unfold scratchTopAddr word
  congr 1
  apply loadLE_congr
  intro i hi
  exact storeLE_of_ne fun j hj => h i hi j hj

theorem scratchTopField_store {ctx : Ctx} (h : DctxApart ctx) {v : BitVec 64}
    (hv : v.toNat < 2 ^ 32) :
    scratchTopField ⟨ctx.dctx, storeLE ctx.mem (scratchTopAddr ctx) v 4⟩ = v := by
  have haddr := scratchTopAddr_store h v
  unfold scratchTopField
  rw [show word _ ctx.dctx dctxMst + BitVec.ofInt 64 dmstScratchTop = scratchTopAddr ctx from haddr]
  have ht := truncate_loadLE_storeLE ctx.mem (scratchTopAddr ctx) v (by decide : 4 ≤ 8)
  have hlt := toNat_loadLE_lt (storeLE ctx.mem (scratchTopAddr ctx) v 4) (scratchTopAddr ctx) 4
  apply eq_of_toNat_eq
  have hnum := congrArg BitVec.toNat ht
  simp only [toNat_setWidth] at hnum
  show (loadLE (storeLE ctx.mem (scratchTopAddr ctx) v 4) (scratchTopAddr ctx) 4).toNat = v.toNat
  omega

/-! ## Requests

One request as a step from one top to the next: granted with an offset, or refused with the top as
it was. -/

/-- A request for `size` bytes: the top before and after it, and the offset it returned. -/
structure AllocaEvent where
  before : BitVec 64
  size : BitVec 64
  reply : Option (BitVec 64)
  after : BitVec 64

/-- Some code that `dt_cg_subr_alloca_impl` generates serves the request: it runs through with the
offset in the result register, or reports a fault. -/
def Serves (env : Env) (scratchsize : BitVec 32) (e : AllocaEvent) : Prop :=
  ∃ const dst size g c g' σ, dtCgSubrAllocaImpl scratchsize const dst size g = some (c, g') ∧
    AllocaRegs dst size g ∧ DctxApart (ctxOf σ) ∧ scratchTopField (ctxOf σ) = e.before ∧
    σ.regs size = e.size ∧
    ((∃ σ', Frag (exec env) c σ σ' ∧ e.reply = some (σ'.regs dst) ∧
        e.after = scratchTopField (ctxOf σ')) ∨
      (Raises env c σ dtraceFltNoscratch ∧ e.reply = none ∧ e.after = e.before))

/-- What a clause sees of its requests. A fault ends the clause. -/
inductive AllocaRun (env : Env) (scratchsize : BitVec 32) :
    BitVec 64 → List AllocaEvent → Prop where
  | nil (top : BitVec 64) : AllocaRun env scratchsize top []
  | fault {e : AllocaEvent} (h : Serves env scratchsize e) (hr : e.reply = none) :
      AllocaRun env scratchsize e.before [e]
  | block {e : AllocaEvent} {es : List AllocaEvent} (h : Serves env scratchsize e)
      (hr : e.reply ≠ none) (rest : AllocaRun env scratchsize e.after es) :
      AllocaRun env scratchsize e.before (e :: es)

section
variable {env : Env} {scratchsize : BitVec 32}

/-- A scratch size is a positive `int`, with room for the null pointer. -/
theorem scratchsize_toNat (h : 8 ≤ scratchsize.toInt) :
    8 ≤ scratchsize.toNat ∧ scratchsize.toNat < 2 ^ 31 ∧
      (scratchsize.signExtend 64).toNat = scratchsize.toNat ∧
      ((scratchsize - 8).signExtend 64).toNat = scratchsize.toNat - 8 := by
  have hint := toInt_eq_toNat_cond scratchsize
  have hlt : 8 ≤ scratchsize.toNat ∧ scratchsize.toNat < 2 ^ 31 := by
    split at hint <;> omega
  have hsub : (scratchsize - 8).toNat = scratchsize.toNat - 8 := by
    rw [toNat_sub_of_le (by rw [le_def]; exact hlt.1)]
    rfl
  have hext : ∀ v : BitVec 32, v.toNat < 2 ^ 31 → (v.signExtend 64).toNat = v.toNat := by
    intro v hv
    rw [signExtend_eq_setWidth_of_msb_false
      (msb_eq_false_iff_two_mul_lt.mpr (by omega)), toNat_setWidth]
    omega
  exact ⟨hlt.1, hlt.2, hext _ hlt.2, by rw [hext _ (by omega), hsub]⟩

/-- Rounding down to eight bytes. -/
theorem toNat_and_neg_eight (x : BitVec 64) :
    (x &&& (-8 : BitVec 64)).toNat = x.toNat / 8 * 8 := by
  have hshift : x &&& (-8 : BitVec 64) = (x >>> 3) <<< 3 := by
    apply eq_of_getLsbD_eq
    intro i hi
    have hbit : ∀ i < 64, (-8 : BitVec 64).getLsbD i = decide (3 ≤ i) := by decide
    rw [getLsbD_and, hbit i hi]
    by_cases h3 : 3 ≤ i
    · simp [h3, hi]
    · simp [h3]
  rw [hshift, toNat_shiftLeft, toNat_ushiftRight]
  omega

theorem toNat_allocaNext (top size : BitVec 64) :
    (allocaNext top size).toNat = (top.toNat + size.toNat + 7) % 2 ^ 64 / 8 * 8 := by
  rw [allocaNext, toNat_and_neg_eight, toNat_add, toNat_add]
  rw [show (7 : BitVec 64).toNat = 7 from rfl, Nat.mod_add_mod]

/-- When a request is granted, in numbers. -/
theorem allocaStep_some_iff (h : 8 ≤ scratchsize.toInt) (top size top' : BitVec 64) :
    allocaStep scratchsize top size = some top' ↔ top' = allocaNext top size ∧
      (top.toNat + size.toNat + 7) % 2 ^ 64 / 8 * 8 ≤ scratchsize.toNat ∧
      top.toNat + 8 ≤ scratchsize.toNat := by
  obtain ⟨_, -, hext, _⟩ := scratchsize_toNat h
  have hgt : (scratchsize.signExtend 64).ult (allocaNext top size) = true ↔
      scratchsize.toNat < (top.toNat + size.toNat + 7) % 2 ^ 64 / 8 * 8 := by
    rw [ult_iff_toNat_lt, hext, toNat_allocaNext]
  have htop : top.ule ((scratchsize - 8).signExtend 64) = true ↔
      top.toNat + 8 ≤ scratchsize.toNat := by
    rw [ule_iff_toNat_le]
    omega
  constructor
  · intro hs
    obtain ⟨rfl, h1, h2⟩ := allocaStep_some hs
    rw [← Bool.not_eq_true, hgt] at h1
    exact ⟨rfl, by omega, htop.mp h2⟩
  · rintro ⟨rfl, h1, h2⟩
    rw [allocaStep, if_neg (by rw [hgt]; omega), if_pos (htop.mpr h2)]

variable {e : AllocaEvent} {top : BitVec 64} {es : List AllocaEvent}

/-- Whatever code serves a request, the top and the size decide the outcome. -/
theorem Serves.outcome (hss : 8 ≤ scratchsize.toInt) (h : Serves env scratchsize e) :
    (∀ top', allocaStep scratchsize e.before e.size = some top' →
      e.reply = some e.before ∧ e.after = top') ∧
    (allocaStep scratchsize e.before e.size = none → e.reply = none ∧ e.after = e.before) := by
  obtain ⟨const, dst, size, g, c, g', σ, hc, hregs, hapart, hbefore, hsize, hout⟩ := h
  rw [← hbefore, ← hsize]
  constructor
  · intro top' hstep
    obtain ⟨σ', f, hdst, hctx⟩ := frag_alloca env hc hregs hstep
    have hlt : top'.toNat < 2 ^ 32 := by
      obtain ⟨rfl, hle, -⟩ := (allocaStep_some_iff hss _ _ _).mp hstep
      rw [toNat_allocaNext]
      omega
    obtain ⟨σ'', f', hreply, hafter⟩ | ⟨hr, -⟩ := hout
    · obtain rfl := Runs.unique f.runs f'.runs
      rw [hreply, hdst, hafter, hctx, scratchTopField_store hapart hlt]
      exact ⟨rfl, rfl⟩
    · exact absurd f hr.not_frag
  · intro hstep
    obtain ⟨σ', f, -⟩ | ⟨-, hreply, hafter⟩ := hout
    · exact absurd f (raises_alloca env hc hregs hstep).not_frag
    · exact ⟨hreply, hafter.trans hbefore.symm⟩

/-- And every request is served. -/
theorem serves_total (env : Env) {const : Option (BitVec 64)} {dst size : Nat}
    {g g' : Gen} {c : Ir} (hc : dtCgSubrAllocaImpl scratchsize const dst size g = some (c, g'))
    (hregs : AllocaRegs dst size g) {σ : State} (hapart : DctxApart (ctxOf σ)) :
    ∃ e, Serves env scratchsize e ∧ e.before = scratchTopField (ctxOf σ) ∧
      e.size = σ.regs size := by
  cases hstep : allocaStep scratchsize (scratchTopField (ctxOf σ)) (σ.regs size) with
  | none =>
    have hr := raises_alloca env hc hregs hstep
    exact ⟨⟨_, _, none, _⟩, ⟨const, dst, size, g, c, g', σ, hc, hregs, hapart, rfl, rfl,
      .inr ⟨hr, rfl, rfl⟩⟩, rfl, rfl⟩
  | some top' =>
    obtain ⟨σ', f, -⟩ := frag_alloca env hc hregs hstep
    exact ⟨⟨_, _, _, _⟩, ⟨const, dst, size, g, c, g', σ, hc, hregs, hapart, rfl, rfl,
      .inl ⟨σ', f, rfl, rfl⟩⟩, rfl, rfl⟩

/-! ## Runs -/

/-- The sum of the top and the size does not wrap, or the request is refused for its top. -/
def AllocaEvent.NoWrap (scratchsize : BitVec 32) (e : AllocaEvent) : Prop :=
  e.before.toNat + e.size.toNat + 7 < 2 ^ 64 ∨ scratchsize.toNat < e.before.toNat + 8

/-- What one request does to the top. -/
structure AllocaEvent.Sound (scratchsize : BitVec 32) (e : AllocaEvent) : Prop where
  aligned : e.after.toNat % 8 = 0
  grows : e.before.toNat ≤ e.after.toNat
  bounded : e.after.toNat ≤ scratchsize.toNat
  inside : ∀ off, e.reply = some off → off.toNat + e.size.toNat ≤ scratchsize.toNat
  refused : scratchsize.toNat < e.before.toNat + e.size.toNat → e.reply = none
  kept : e.reply = none → e.after = e.before

/-- What a run of requests should do: every request is sound, and blocks do not overlap those
returned before. -/
structure SoundRun (scratchsize : BitVec 32) (es : List AllocaEvent) : Prop where
  sound : ∀ e ∈ es, e.Sound scratchsize
  disjoint : es.Pairwise fun e f => ∀ a b, e.reply = some a → f.reply = some b →
    a.toNat + e.size.toNat ≤ b.toNat

/-- One request keeps the top aligned and inside, if it does not wrap. -/
theorem Serves.sound (hss : 8 ≤ scratchsize.toInt) (h : Serves env scratchsize e)
    (halign : e.before.toNat % 8 = 0) (hle : e.before.toNat ≤ scratchsize.toNat)
    (hwrap : e.NoWrap scratchsize) :
    e.Sound scratchsize ∧
      ∀ off, e.reply = some off → off = e.before ∧ off.toNat + e.size.toNat ≤ e.after.toNat := by
  obtain ⟨hsome, hnone⟩ := h.outcome hss
  cases hstep : allocaStep scratchsize e.before e.size with
  | none =>
    obtain ⟨hreply, hafter⟩ := hnone hstep
    refine ⟨⟨by rw [hafter]; exact halign, by rw [hafter], by rw [hafter]; exact hle, ?_,
      fun _ => hreply, fun _ => hafter⟩, ?_⟩
    all_goals
      intro off hoff
      rw [hreply] at hoff
      cases hoff
  | some top' =>
    obtain ⟨hreply, hafter⟩ := hsome top' hstep
    obtain ⟨rfl, _, _⟩ := (allocaStep_some_iff hss _ _ _).mp hstep
    have hlt : e.before.toNat + e.size.toNat + 7 < 2 ^ 64 := hwrap.resolve_right (by omega)
    have hnum : e.after.toNat = (e.before.toNat + e.size.toNat + 7) / 8 * 8 := by
      rw [hafter, toNat_allocaNext, Nat.mod_eq_of_lt hlt]
    refine ⟨⟨by omega, by omega, by omega, ?_, ?_, ?_⟩, ?_⟩
    · intro off hoff
      obtain rfl := some.inj (hreply.symm.trans hoff)
      omega
    · intro hbig
      omega
    · intro hno
      rw [hreply] at hno
      cases hno
    · intro off hoff
      obtain rfl := some.inj (hreply.symm.trans hoff)
      exact ⟨rfl, by omega⟩

/-- A request that wraps and is not refused for its top is granted a block that is not there. -/
theorem Serves.not_inside (hss : 8 ≤ scratchsize.toInt) (h : Serves env scratchsize e)
    (hwrap : ¬ e.NoWrap scratchsize) :
    ¬ ∀ off, e.reply = some off → off.toNat + e.size.toNat ≤ scratchsize.toNat := by
  unfold AllocaEvent.NoWrap at hwrap
  rw [not_or, Nat.not_lt, Nat.not_lt] at hwrap
  obtain ⟨_, htop⟩ := hwrap
  have hstep := (allocaStep_some_iff hss e.before e.size _).mpr ⟨rfl, by omega, htop⟩
  obtain ⟨hreply, -⟩ := (h.outcome hss).1 _ hstep
  intro hin
  have := hin e.before hreply
  omega

/-- Requests that do not move the top down come after the tops they start from. -/
theorem AllocaRun.le_before (h : AllocaRun env scratchsize top es)
    (hgrows : ∀ e ∈ es, e.before.toNat ≤ e.after.toNat) : ∀ e ∈ es, top.toNat ≤ e.before.toNat := by
  induction h with
  | nil top => simp
  | fault h hr => simp
  | @block e es h hr rest ih =>
    intro f hf
    rcases mem_cons.mp hf with rfl | hf
    · exact le_rfl
    · have hstep := hgrows e mem_cons_self
      have := ih (fun x hx => hgrows x (mem_cons_of_mem e hx)) f hf
      omega

/-- The run lemma: from an aligned top inside scratch memory, requests that do not wrap are sound
and the blocks lie one behind the other. -/
theorem AllocaRun.sound (hss : 8 ≤ scratchsize.toInt) (h : AllocaRun env scratchsize top es)
    (halign : top.toNat % 8 = 0) (hle : top.toNat ≤ scratchsize.toNat)
    (hwrap : ∀ e ∈ es, e.NoWrap scratchsize) :
    SoundRun scratchsize es ∧ ∀ e ∈ es, ∀ off, e.reply = some off → off = e.before := by
  induction h with
  | nil top => exact ⟨⟨by simp, .nil⟩, by simp⟩
  | @fault e h hr =>
    obtain ⟨hs, hoff⟩ := h.sound hss halign hle (hwrap e (by simp))
    exact ⟨⟨by simpa using hs, by simp⟩, by simp [hr]⟩
  | @block e es h hr rest ih =>
    obtain ⟨hs, hoff⟩ := h.sound hss halign hle (hwrap e mem_cons_self)
    obtain ⟨hrest, hoffs⟩ := ih hs.aligned hs.bounded
      fun x hx => hwrap x (mem_cons_of_mem e hx)
    have hbehind := rest.le_before fun x hx => (hrest.sound x hx).grows
    refine ⟨⟨forall_mem_cons.mpr ⟨hs, hrest.sound⟩,
      pairwise_cons.mpr ⟨?_, hrest.disjoint⟩⟩,
      forall_mem_cons.mpr ⟨fun off ho => (hoff off ho).1, hoffs⟩⟩
    intro f hf a b ha hb
    have hb' := hoffs f hf b hb
    have := hbehind f hf
    have := (hoff a ha).2
    rw [hb']
    omega

theorem AllocaRun.serves (h : AllocaRun env scratchsize top es) :
    ∀ e ∈ es, Serves env scratchsize e := by
  induction h with
  | nil top => simp
  | fault h hr => simpa using h
  | block h hr rest ih => exact forall_mem_cons.mpr ⟨h, ih⟩

/-- **The allocator is sound over a run exactly when** no request wraps whose top leaves room for
another block. -/
theorem sound_iff (env : Env) {scratchsize : BitVec 32} (hss : 8 ≤ scratchsize.toInt)
    {es : List AllocaEvent} (h : AllocaRun env scratchsize 8 es) :
    SoundRun scratchsize es ↔ ∀ e ∈ es, e.NoWrap scratchsize := by
  constructor
  · intro hsound e he
    by_contra hwrap
    exact (h.serves e he).not_inside hss hwrap (hsound.sound e he).inside
  · intro hwrap
    exact (h.sound hss (by decide) (scratchsize_toNat hss).1 hwrap).1

end

/-! ## An instance -/

/-- A request for the given size from the given top, with 256 bytes of scratch memory. -/
theorem serves_accessState {size top : BitVec 64} (hapart : DctxApart (ctxOf (accessState 0 size top)))
    (htop : scratchTopField (ctxOf (accessState 0 size top)) = top) :
    ∃ e, Serves quietEnv 256 e ∧ e.before = top ∧ e.size = size := by
  obtain ⟨⟨c, _⟩, hc⟩ := isSome_iff_exists.mp
    (show (dtCgSubrAllocaImpl 256 none 1 2 freshGen).isSome = true by decide)
  obtain ⟨e, hserves, hbefore, hsize⟩ := serves_total quietEnv hc (by decide) hapart
  exact ⟨e, hserves, hbefore.trans htop, hsize⟩

/-- A block of sixteen bytes and one of eight behind it. -/
theorem sixteen_bytes_sound : ∃ e e', AllocaRun quietEnv 256 8 [e, e'] ∧ e.size = 16 ∧
    e.reply = some 8 ∧ e'.size = 8 ∧ e'.reply = some 24 ∧ SoundRun 256 [e, e'] := by
  obtain ⟨e, hserves, hbefore, hsize⟩ := @serves_accessState 16 8 (by decide) (by decide)
  obtain ⟨e', hserves', hbefore', hsize'⟩ := @serves_accessState 8 24 (by decide) (by decide)
  have hstep : allocaStep 256 e.before e.size = some 24 := by rw [hbefore, hsize]; decide
  have hstep' : allocaStep 256 e'.before e'.size = some 32 := by rw [hbefore', hsize']; decide
  obtain ⟨hreply, hafter⟩ := (hserves.outcome (by decide)).1 24 hstep
  obtain ⟨hreply', -⟩ := (hserves'.outcome (by decide)).1 32 hstep'
  have hrun : AllocaRun quietEnv 256 8 [e, e'] := by
    rw [← hbefore]
    refine .block hserves (by rw [hreply]; simp) ?_
    rw [hafter, ← hbefore']
    exact .block hserves' (by rw [hreply']; simp) (.nil _)
  refine ⟨e, e', hrun, hsize, hbefore ▸ hreply, hsize', hbefore' ▸ hreply', ?_⟩
  refine (sound_iff quietEnv (by decide) hrun).mpr ?_
  rintro x (_ | ⟨_, _ | ⟨_, hx⟩⟩)
  · refine .inl ?_
    rw [hbefore, hsize]
    decide
  · refine .inl ?_
    rw [hbefore', hsize']
    decide
  · cases hx

/-- `alloca(-8)` returns a block and moves the top down to the null pointer. -/
theorem minus_eight_bytes_granted : ∃ e, AllocaRun quietEnv 256 8 [e] ∧ e.size = -8 ∧
    e.reply = some 8 ∧ e.after = 0 ∧ ¬ SoundRun 256 [e] := by
  obtain ⟨e, hserves, hbefore, hsize⟩ := @serves_accessState (-8) 8 (by decide) (by decide)
  have hstep : allocaStep 256 e.before e.size = some 0 := by
    rw [hbefore, hsize]
    decide
  obtain ⟨hreply, hafter⟩ := (hserves.outcome (by decide)).1 0 hstep
  have hrun : AllocaRun quietEnv 256 8 [e] := by
    rw [← hbefore]
    exact .block hserves (by rw [hreply]; simp) (.nil _)
  rw [hbefore] at hreply
  refine ⟨e, hrun, hsize, hreply, hafter, fun hsound => ?_⟩
  have hgrows := (hsound.sound e (by simp)).grows
  rw [hbefore, hafter] at hgrows
  exact absurd hgrows (by decide)

end DTrace.Cg
