import DTrace.Cg.Scalar

/-!
# Calls that change memory

What the code around a call does to the running program when the call itself may change
memory: the stack slots the generators rely on stay (`Slots`), and so do the registers that
the caller names. The set-up of the arguments is a parameter, because it may free a register
on the way.
-/

namespace DTrace.Cg

open LabelCode Bpf Option State List

/-- The stack slots with the DTrace context and the stack pointer stay as they are. -/
structure Slots (σ τ : State) : Prop where
  dctx : τ.stack dtStkDctx = σ.stack dtStkDctx
  sp : τ.stack dtStkSp = σ.stack dtStkSp

variable {σ τ : State}

theorem Slots.trans {ρ : State} (h1 : Slots σ τ) (h2 : Slots τ ρ) : Slots σ ρ :=
  ⟨h2.dctx.trans h1.dctx, h2.sp.trans h1.sp⟩

theorem Slots.of_stack (h : τ.stack = σ.stack) : Slots σ τ := by
  constructor <;> rw [h]

@[simp] theorem dtStkSp_ne_spill (n : Nat) : dtStkSp ≠ dtStkSpill n := by
  unfold dtStkSp dtStkSpill dtStkSpillBase
  omega

theorem Slots.of_spills {rs : List Nat}
    (h : ∀ o, (∀ r ∈ rs, o ≠ dtStkSpill r) → τ.stack o = σ.stack o) : Slots σ τ :=
  ⟨h _ fun r _ => dtStkDctx_ne_spill r, h _ fun r _ => dtStkSp_ne_spill r⟩

theorem Slots.of_spill {r : Nat} (h : ∀ o, o ≠ dtStkSpill r → τ.stack o = σ.stack o) :
    Slots σ τ :=
  ⟨h _ (dtStkDctx_ne_spill r), h _ (dtStkSp_ne_spill r)⟩

theorem Slots.ctx (h : Slots σ τ) (hmem : τ.mem = σ.mem) : ctxOf τ = ctxOf σ := by
  simp [ctxOf, h.dctx, hmem]

section
variable (env : Env)

/-! ## Spill code -/

variable {drp drp' : Regset}

theorem dtRegsetFree_code {reg : Nat} {c : Ir} (h : dtRegsetFree drp reg = some (drp', c)) :
    c = if reg ∈ drp.spilled then dtCgSpillLoad reg else [] := by
  unfold dtRegsetFree at h
  split_ifs at h with hact hsp
  · rw [if_pos hsp]
    exact (Prod.mk.inj (some.inj h)).2.symm
  · rw [if_neg hsp]
    exact (Prod.mk.inj (some.inj h)).2.symm

/-- Freeing a register reloads it or does nothing. -/
theorem frag_dtRegsetFree {reg : Nat} {c : Ir} (h : dtRegsetFree drp reg = some (drp', c))
    (σ : State) :
    labels c = [] ∧ ∃ σ', Frag (exec env) c σ σ' ∧ σ'.stack = σ.stack ∧ σ'.mem = σ.mem ∧
      (∀ q, q ≠ reg → σ'.regs q = σ.regs q) ∧
      (σ'.regs reg = σ.regs reg ∨ σ'.regs reg = σ.stack (dtStkSpill reg)) := by
  rw [dtRegsetFree_code h]
  split
  · exact ⟨rfl, _, frag_spillLoad env reg σ, rfl, rfl,
      fun q hq => setReg_regs_of_ne _ _ hq, .inr (setReg_regs_self _ _ _)⟩
  · exact ⟨rfl, σ, Frag.nil σ, rfl, rfl, fun _ _ => rfl, .inl rfl⟩

/-- Taking `%r0`, whether or not it succeeds, moves no register. -/
theorem frag_xallocZero (drp : Regset) (σ : State) :
    labels ((dtRegsetXalloc drp 0).getD (drp, [])).2 = [] ∧
      ∃ σ', Frag (exec env) ((dtRegsetXalloc drp 0).getD (drp, [])).2 σ σ' ∧
        σ'.regs = σ.regs ∧ σ'.mem = σ.mem ∧ ∀ o, o ≠ dtStkSpill 0 → σ'.stack o = σ.stack o := by
  cases hx : dtRegsetXalloc drp 0 with
  | none => exact ⟨rfl, σ, Frag.nil σ, rfl, rfl, fun _ _ => rfl⟩
  | some r =>
    obtain ⟨_, c⟩ := r
    obtain ⟨-, -, -, -, -, rfl⟩ := dtRegsetXalloc_some hx
    obtain ⟨σ', f, hregs, hmem, -, hrest⟩ := frag_save env drp 0 σ
    exact ⟨labels_save drp 0, σ', f, hregs, hmem, hrest⟩

theorem spilled_xallocZero {q : Nat} (h : q ∈ drp.spilled) :
    q ∈ ((dtRegsetXalloc drp 0).getD (drp, [])).1.spilled := by
  cases hx : dtRegsetXalloc drp 0 with
  | none => exact h
  | some r => exact spilled_xalloc hx h

theorem spilled_dtRegsetFree {reg q : Nat} {c : Ir} (h : dtRegsetFree drp reg = some (drp', c))
    (hne : q ≠ reg) : q ∈ drp'.spilled ↔ q ∈ drp.spilled := by
  unfold dtRegsetFree at h
  split at h
  · split at h <;> obtain ⟨rfl, -⟩ := Prod.mk.inj (some.inj h)
    · simp [Regset.clearSpilled, hne]
    · rfl
  · cases h

/-- The code that frees the registers of a list reloads those that are spilled. -/
theorem freeAll_code {regs : List Nat} {c : Ir} (hnd : regs.Nodup)
    (h : freeAll regs drp = some (drp', c)) :
    c = regs.flatMap fun r => if r ∈ drp.spilled then dtCgSpillLoad r else [] := by
  induction regs generalizing drp c with
  | nil => exact (Prod.mk.inj (some.inj h)).2.symm
  | cons reg regs ih =>
    simp only [freeAll, bind_eq_bind, bind_eq_some_iff, Prod.exists] at h
    obtain ⟨_, _, hf, _, _, hr, rfl, rfl⟩ := h
    obtain ⟨hreg, hnd'⟩ := nodup_cons.mp hnd
    rw [dtRegsetFree_code hf, ih hnd' hr]
    congr 1
    refine flatMap_congr fun r hr' => ?_
    rw [if_congr (spilled_dtRegsetFree hf fun e => hreg (e ▸ hr')) rfl rfl]

end

/-! ## The call -/

section
variable {i : XInsn} {args : Regset → Option (Regset × Ir)} {g g' : Gen} {c : XIr}

theorem dtCgCallX_some (h : dtCgCallX i args g = some (c, g')) :
    ∃ drp drp' a, args drp = some (drp', a) ∧
      (∀ r ∈ [1, 2, 3, 4, 5], r ∈ g.regs.active → r ∈ drp.spilled) ∧ g'.label = g.label ∧
      c = lift ([1, 2, 3, 4, 5].flatMap (save g.regs)) ++ (lift a ++
        (lift ((dtRegsetXalloc drp' 0).getD (drp', [])).2 ++ (⟨0, i⟩ ::
          lift ([1, 2, 3, 4, 5].flatMap fun r =>
            if r ∈ ((dtRegsetXalloc drp' 0).getD (drp', [])).1.spilled then dtCgSpillLoad r
            else [])))) := by
  simp only [dtCgCallX, bind_eq_bind,
    bind_eq_some_iff, Prod.exists] at h
  obtain ⟨_, drp, _, hxa, h⟩ := h
  split at h
  swap
  · simp at h
  · next hok =>
    subst hok
    obtain ⟨-, -, -, hsp, rfl⟩ := xallocAll_true hxa (by decide)
    simp only [bind_eq_some_iff, Prod.exists] at h
    obtain ⟨drp', a, ha, _, _, hfree, heq⟩ := h
    obtain ⟨rfl, rfl⟩ := Prod.mk.inj (some.inj heq)
    refine ⟨drp, drp', a, ha, fun r hr hact => ?_, rfl, ?_⟩
    · rw [hsp]
      exact Finset.mem_union_right _ (Finset.mem_inter.mpr ⟨hact, mem_toFinset.mpr hr⟩)
    · rw [freeAll_code (by decide) hfree]
      simp

theorem labels_callX (h : dtCgCallX i args g = some (c, g'))
    (hargs : ∀ drp drp' a, args drp = some (drp', a) → labels a = []) :
    labels c = [] ∧ g'.label = g.label := by
  obtain ⟨drp, drp', a, ha, -, hlabel, rfl⟩ := dtCgCallX_some h
  refine ⟨?_, hlabel⟩
  have hlab0 : labels ((dtRegsetXalloc drp' 0).getD (drp', [])).2 = [] := by
    cases hx : dtRegsetXalloc drp' 0 with
    | none => rfl
    | some r => exact labels_xalloc hx
  simp only [labels_append, labels_cons_zero, labels_lift, hargs drp drp' a ha, hlab0,
    labels_flatMap_eq_nil (labels_save g.regs)]
  exact labels_flatMap_eq_nil (fun r => by split <;> rfl) _

/-- **A call**: `args` brings the argument registers to what the call is made with, and the
call itself leaves `v` in `%r0`, and memory and the maps as given. The registers in `keep` belong
to the caller. -/
theorem block_callX {X : XEnv} {s : XState} {v : BitVec 64} {m : Mem} {dv : Dvars}
    (P : (Nat → BitVec 64) → Prop) (keep : List Nat)
    (h : dtCgCallX i args g = some (c, g'))
    (hkeep : ∀ q ∈ keep, q ∈ g.regs.active ∧ q ≠ 0)
    (hargs : ∀ drp drp' a, args drp = some (drp', a) →
      (∀ q ∈ keep, q ∈ drp.spilled → q ∈ drp'.spilled) ∧
      ∀ τ : State, τ.regs = s.st.regs → τ.mem = s.st.mem → Slots s.st τ →
        (∀ r ∈ [1, 2, 3, 4, 5], r ∈ g.regs.active → τ.stack (dtStkSpill r) = τ.regs r) →
        ∃ τ', Frag (exec (X.base s.dvars)) a τ τ' ∧ P τ'.regs ∧ τ'.stack = τ.stack ∧
          τ'.mem = τ.mem ∧ ∀ q ∈ keep, q ∉ [1, 2, 3, 4, 5] → τ'.regs q = τ.regs q)
    (hcall : ∀ τ : State, P τ.regs → τ.mem = s.st.mem → Slots s.st τ →
      ∃ s2, xexec X i ⟨τ, s.dvars⟩ = .next s2 ∧ s2.st.regs 0 = v ∧ s2.st.mem = m ∧
        s2.dvars = dv ∧ s2.st.stack = τ.stack ∧ ∀ q, 5 < q → s2.st.regs q = τ.regs q) :
    ∃ s', Block (xexec X) c s s' ∧ s'.st.regs 0 = v ∧ s'.st.mem = m ∧ s'.dvars = dv ∧
      Slots s.st s'.st ∧ ∀ q ∈ keep, s'.st.regs q = s.st.regs q := by
  obtain ⟨drp, drp', a, ha, hspilled, -, rfl⟩ := dtCgCallX_some h
  obtain ⟨hkept, hrun⟩ := hargs drp drp' a ha
  obtain ⟨σ, dv0⟩ := s
  obtain ⟨σ1, f1, hregs1, hmem1, hsaved1, hrest1⟩ :=
    frag_saveAll (X.base dv0) g.regs [1, 2, 3, 4, 5] σ
  have hslots1 : Slots σ σ1 := .of_spills hrest1
  obtain ⟨σ2, f2, hP, hstack2, hmem2, hregs2⟩ := hrun σ1 hregs1 hmem1 hslots1
    fun r hr hact => by rw [hregs1]; exact hsaved1 r hr hact
  obtain ⟨-, σ3, f3, hregs3, hmem3, hrest3⟩ := frag_xallocZero (X.base dv0) drp' σ2
  have hslots3 : Slots σ σ3 := (hslots1.trans (.of_stack hstack2)).trans (.of_spill hrest3)
  obtain ⟨⟨σ4, dv4⟩, hx, h0, hm, rfl, hstack4, hhigh⟩ :=
    hcall σ3 (by rw [hregs3]; exact hP) (hmem3.trans (hmem2.trans hmem1)) hslots3
  obtain ⟨σ5, f5, hstack5, hmem5, hloaded, hrest5⟩ := frag_reloadIf (X.base dv4)
    (· ∈ ((dtRegsetXalloc drp' 0).getD (drp', [])).1.spilled) [1, 2, 3, 4, 5] σ4
  refine ⟨⟨σ5, dv4⟩, ?_, ?_, hmem5.trans hm, rfl, ?_, ?_⟩
  · exact (frag_lift f1).seq ((frag_lift f2).seq ((frag_lift f3).seq
      (.next hx (frag_lift f5).block)))
  · rw [← h0]
    exact hrest5 0 (by decide)
  · exact hslots3.trans (.of_stack (hstack5.trans hstack4))
  · intro q hq
    obtain ⟨hact, hq0⟩ := hkeep q hq
    by_cases hq5 : q ∈ [1, 2, 3, 4, 5]
    · -- stored before the arguments were set up, and reloaded after the call
      rw [hloaded q hq5 (spilled_xallocZero (hkept q hq (hspilled q hq5 hact))), hstack4,
        hrest3 _ (by simpa using hq0), hstack2, hsaved1 q hq5 hact]
    · have hgt : 5 < q := by
        simp only [mem_cons] at hq5
        omega
      rw [hrest5 q hq5, hhigh q hgt, hregs3, hregs2 q hq hq5, hregs1]

end

/-! ## The arguments of `dt_get_tvar` and `dt_get_assoc` -/

/-- What the emitted code passes as the new value. Reading the register comes late: `%r1`,
`%r2` and `%r3` have been overwritten by then. -/
def assocNval (id : BitVec 32) (tuple : BitVec 64) (store : Option Nat) (σ : State) : BitVec 64 :=
  match store with
  | none => 0
  | some reg =>
    if reg = 1 then id.signExtend 64 else if reg = 2 then tuple else if reg = 3 then 1
    else σ.regs reg

@[simp] theorem labels_storeArgs (r : Nat) (store : Option Nat) : labels (storeArgs r store) = [] := by
  cases store <;> rfl

theorem frag_storeArgs (env : Env) (r : Nat) (store : Option Nat) (σ : State) :
    ∃ σ', Frag (exec env) (storeArgs r store) σ σ' ∧
      (∀ q, q ≠ r → q ≠ r + 1 → σ'.regs q = σ.regs q) ∧ σ'.stack = σ.stack ∧ σ'.mem = σ.mem ∧
      σ'.regs r = (if store.isSome then 1 else 0) ∧
      σ'.regs (r + 1) = match store with
        | some reg => if reg = r then 1 else σ.regs reg
        | none => 0 := by
  cases store with
  | none =>
    refine ⟨(σ.setReg r 0).setReg (r + 1) 0, Block.next rfl (.single rfl) (by simp),
      fun q hq hq' => ?_, rfl, rfl, ?_, ?_⟩ <;> simp_all [setReg_regs]
  | some reg =>
    refine ⟨(σ.setReg r 1).setReg (r + 1) ((σ.setReg r 1).regs reg),
      Block.next rfl (.single rfl) (by simp), fun q hq hq' => ?_, rfl, rfl, ?_, ?_⟩ <;>
      simp_all [setReg_regs]

/-- The same for `dt_get_tvar`. -/
def tvarNval (id : BitVec 32) (store : Option Nat) (σ : State) : BitVec 64 :=
  match store with
  | none => 0
  | some reg => if reg = 1 then id.signExtend 64 else if reg = 2 then 1 else σ.regs reg

theorem frag_tvarStoreArgs (env : Env) (pcb : Pcb) (id : BitVec 32) (store : Option Nat)
    (σ : State) :
    ∃ σ', Frag (exec env) (emit (.movImm 1 id) ++ storeArgs 2 store ++ dtCgZerosptr pcb 4) σ σ' ∧
      (σ'.regs 1 = id.signExtend 64 ∧ σ'.regs 2 = (if store.isSome then 1 else 0) ∧
        σ'.regs 3 = tvarNval id store σ ∧ σ'.regs 4 = zerosptr pcb (ctxOf σ)) ∧
      σ'.stack = σ.stack ∧ σ'.mem = σ.mem ∧
      ∀ q, q ∉ [1, 2, 3, 4, 5] → σ'.regs q = σ.regs q := by
  obtain ⟨σ2, f2, hregs2, hstack2, hmem2, h2, h3'⟩ :=
    frag_storeArgs env 2 store (σ.setReg 1 (id.signExtend 64))
  have h3 : σ2.regs 3 = tvarNval id store σ := by
    rw [h3']
    cases store with
    | none => rfl
    | some reg =>
      by_cases hr : reg = 1
      · simp [tvarNval, hr]
      · simp [tvarNval, hr, setReg_regs]
  have hctx : ctxOf σ2 = ctxOf σ := by simp [ctxOf, hstack2, hmem2]
  refine ⟨_, (Frag.next rfl f2 (by simp)).append (frag_zerosptr env pcb (by decide) σ2)
    (by simp [dtCgZerosptr]), ⟨?_, ?_, ?_, ?_⟩, hstack2, hmem2, ?_⟩
  · simp [setReg_regs, hregs2]
  · simp [setReg_regs, h2]
  · simp [setReg_regs, h3]
  · rw [setReg_regs_self, hctx]
  · intro q hq
    simp only [mem_cons, not_or] at hq
    simp [setReg_regs, hregs2, hq]

section
variable {pcb : Pcb} {id : BitVec 32} {tuple : Nat} {store : Option Nat} {drp drp' : Regset} {a : Ir}

section

variable (h : assocArgs pcb id tuple store drp = some (drp', a))

include h

theorem assocArgs_some :
    ∃ c, dtRegsetFree drp tuple = some (drp', c) ∧
      a = emit (.movImm 1 id) ++ emit (.mov 2 tuple) ++ c ++ storeArgs 3 store ++
        dtCgZerosptr pcb 5 := by
  simp only [assocArgs, bind_eq_bind, bind_eq_some_iff, Prod.exists] at h
  obtain ⟨_, c, hfree, rfl, rfl⟩ := h
  exact ⟨c, hfree, rfl⟩

theorem labels_assocArgs :
    labels a = [] := by
  obtain ⟨c, hfree, rfl⟩ := assocArgs_some h
  have hlab : labels c = [] := by
    rw [dtRegsetFree_code hfree]
    split <;> rfl
  simp [hlab, dtCgZerosptr]

theorem spilled_assocArgs {q : Nat}
    (hne : q ≠ tuple) (hq : q ∈ drp.spilled) : q ∈ drp'.spilled := by
  obtain ⟨c, hfree, -⟩ := assocArgs_some h
  exact (spilled_dtRegsetFree hfree hne).mpr hq

end

theorem frag_assocArgs (env : Env) (h : assocArgs pcb id tuple store drp = some (drp', a))
    (h1 : tuple ≠ 1) (hstore : ∀ reg ∈ store, reg ≠ tuple) (σ : State)
    (hsaved : tuple = 2 → σ.stack (dtStkSpill 2) = σ.regs 2) :
    ∃ σ', Frag (exec env) a σ σ' ∧
      (σ'.regs 1 = id.signExtend 64 ∧ σ'.regs 2 = σ.regs tuple ∧
        σ'.regs 3 = (if store.isSome then 1 else 0) ∧
        σ'.regs 4 = assocNval id (σ.regs tuple) store σ ∧
        σ'.regs 5 = zerosptr pcb (ctxOf σ)) ∧
      σ'.stack = σ.stack ∧ σ'.mem = σ.mem ∧
      ∀ q, q ∉ [1, 2, 3, 4, 5] → q ≠ tuple → σ'.regs q = σ.regs q := by
  obtain ⟨c, hfree, rfl⟩ := assocArgs_some h
  let σ1 := (σ.setReg 1 (id.signExtend 64)).setReg 2 ((σ.setReg 1 (id.signExtend 64)).regs tuple)
  have f1 : Block (exec env) (emit (.movImm 1 id) ++ emit (.mov 2 tuple)) σ σ1 :=
    .next rfl (.single rfl)
  have htuple : (σ.setReg 1 (id.signExtend 64)).regs tuple = σ.regs tuple :=
    setReg_regs_of_ne _ _ h1
  obtain ⟨hlab, σ2, f2, hstack2, hmem2, hregs2, hown2⟩ := frag_dtRegsetFree env hfree σ1
  have hr1 : σ2.regs 1 = id.signExtend 64 := by
    rw [hregs2 1 h1.symm]
    simp [σ1, setReg_regs]
  have hr2 : σ2.regs 2 = σ.regs tuple := by
    by_cases h2 : tuple = 2
    · -- the reload gives the register what it had
      subst h2
      have hσ1 : σ1.regs 2 = σ.regs 2 := by simp [σ1, htuple]
      rcases hown2 with h | h
      · rw [h, hσ1]
      · rw [h]
        exact hsaved rfl
    · rw [hregs2 2 (Ne.symm h2)]
      simp [σ1, htuple]
  have hrest2 : ∀ q, q ≠ 1 → q ≠ 2 → q ≠ tuple → σ2.regs q = σ.regs q := by
    intro q hq1 hq2 hqt
    rw [hregs2 q hqt]
    simp [σ1, setReg_regs, hq1, hq2]
  obtain ⟨σ3, f3, hregs3, hstack3, hmem3, h3, h4'⟩ := frag_storeArgs env 3 store σ2
  have h4 : σ3.regs 4 = assocNval id (σ.regs tuple) store σ := by
    rw [h4']
    cases store with
    | none => rfl
    | some reg =>
      by_cases hr : reg = 1
      · simp [assocNval, hr, hr1]
      by_cases hr' : reg = 2
      · simp [assocNval, hr', hr2]
      by_cases hr'' : reg = 3
      · simp [assocNval, hr'']
      · simp [assocNval, hr, hr', hrest2 reg hr hr' (hstore reg rfl)]
  let σ4 := σ3.setReg 5 (zerosptr pcb (ctxOf σ3))
  have f4 : Frag (exec env) (dtCgZerosptr pcb 5) σ3 σ4 := frag_zerosptr env pcb (by decide) σ3
  have hctx : ctxOf σ3 = ctxOf σ := by
    simp only [ctxOf, hstack3, hstack2, hmem3, hmem2]
    rfl
  refine ⟨σ4, ?_, ⟨?_, ?_, ?_, ?_, ?_⟩, ?_, ?_, ?_⟩
  · exact ((f1.append f2.block).append f3.block).append f4.block (by simp [hlab, dtCgZerosptr])
  · simp [σ4, setReg_regs, hregs3, hr1]
  · simp [σ4, setReg_regs, hregs3, hr2]
  · simp [σ4, setReg_regs, h3]
  · simp [σ4, setReg_regs, h4]
  · rw [setReg_regs_self, hctx]
  · exact hstack3.trans hstack2
  · exact hmem3.trans hmem2
  · intro q hq hqt
    simp only [mem_cons, not_mem_nil, or_false, not_or] at hq
    obtain ⟨hq1, hq2, hq3, hq4, hq5⟩ := hq
    rw [setReg_regs_of_ne _ _ hq5, hregs3 q hq3 hq4, hrest2 q hq1 hq2 hqt]

end

/-! ## Calls for dynamic variables -/

/-- The memory in which `dt_get_assoc` looks for the tuple. -/
def tupleMem (m : Mem) (tuple : BitVec 64) (id : BitVec 32) : Mem :=
  storeLE m tuple (id.signExtend 64) 4

section
variable {X : XEnv} {pcb : Pcb} {id : BitVec 32} {store : Option Nat} {g g' : Gen} {c : XIr}
  {s : XState} {m m' : Mem} {dv : Dvars} {a : BitVec 64}

theorem block_tvarCall (keep : List Nat)
    (h : dtCgCallX (.insn (.call .dtGetTvar)) (fun regs => some (regs,
      emit (.movImm 1 id) ++ storeArgs 2 store ++ dtCgZerosptr pcb 4)) g = some (c, g'))
    (hkeep : ∀ q ∈ keep, q ∈ g.regs.active ∧ q ≠ 0)
    (hget : X.getDvar (X.tvar (id.signExtend 64)) (if store.isSome then 1 else 0)
      (tvarNval id store s.st) (zerosptr pcb (ctxOf s.st)) s.st.mem s.dvars = some (m', dv, a)) :
    ∃ s', Block (xexec X) c s s' ∧ s'.st.regs 0 = a ∧ s'.st.mem = m' ∧ s'.dvars = dv ∧
      Slots s.st s'.st ∧ ∀ q ∈ keep, s'.st.regs q = s.st.regs q := by
  let P : (Nat → BitVec 64) → Prop := fun regs => regs 1 = id.signExtend 64 ∧
    regs 2 = (if store.isSome then 1 else 0) ∧ regs 3 = tvarNval id store s.st ∧
    regs 4 = zerosptr pcb (ctxOf s.st)
  refine block_callX P keep h hkeep ?_ ?_
  · intro drp drp' a ha
    obtain ⟨rfl, rfl⟩ := Prod.mk.inj (some.inj ha)
    refine ⟨fun _ _ hq => hq, fun τ hregs hmem hslots _ => ?_⟩
    obtain ⟨τ', f, hP, hstack, hmem', hrest⟩ :=
      frag_tvarStoreArgs (X.base s.dvars) pcb id store τ
    have hnval : tvarNval id store τ = tvarNval id store s.st := by
      cases store <;> simp [tvarNval, hregs]
    rw [hnval, hslots.ctx hmem] at hP
    exact ⟨τ', f, hP, hstack, hmem', fun q _ => hrest q⟩
  · rintro τ ⟨hr1, hr2, hr3, hr4⟩ hmem -
    rw [← hmem] at hget
    exact ⟨_, xexec_dtGetTvar hr1 hr2 hr3 hr4 hget, rfl, rfl, rfl, rfl,
      fun q hq => XState.afterCall_regs _ _ _ hq⟩

theorem block_assocCall {tuple : Nat} (keep : List Nat)
    (h : dtCgCallX (.call .dtGetAssoc) (assocArgs pcb id tuple store) g = some (c, g'))
    (h1 : tuple ≠ 1) (hact : tuple ∈ g.regs.active)
    (hkeep : ∀ q ∈ keep, q ∈ g.regs.active ∧ q ≠ 0) (hstore : ∀ reg ∈ store, reg ∈ keep)
    (htuple : tuple ∉ keep) (hm : m = tupleMem s.st.mem (s.st.regs tuple) id)
    (hget : X.getDvar (X.assoc (id.signExtend 64) (s.st.regs tuple) m)
      (if store.isSome then 1 else 0) (assocNval id (s.st.regs tuple) store s.st)
      (zerosptr pcb (ctxOf s.st)) m s.dvars = some (m', dv, a)) :
    ∃ s', Block (xexec X) c s s' ∧ s'.st.regs 0 = a ∧ s'.st.mem = m' ∧ s'.dvars = dv ∧
      Slots s.st s'.st ∧ ∀ q ∈ keep, s'.st.regs q = s.st.regs q := by
  let P : (Nat → BitVec 64) → Prop := fun regs => regs 1 = id.signExtend 64 ∧
    regs 2 = s.st.regs tuple ∧ regs 3 = (if store.isSome then 1 else 0) ∧
    regs 4 = assocNval id (s.st.regs tuple) store s.st ∧ regs 5 = zerosptr pcb (ctxOf s.st)
  have hne : ∀ q ∈ keep, q ≠ tuple := fun q hq e => htuple (e ▸ hq)
  refine block_callX P keep h hkeep ?_ ?_
  · intro drp drp' a ha
    refine ⟨fun q hq => spilled_assocArgs ha (hne q hq), fun τ hregs hmem hslots hsaved => ?_⟩
    obtain ⟨τ', f, hP, hstack, hmem', hrest⟩ := frag_assocArgs (X.base s.dvars) ha h1
      (fun reg hreg => hne reg (hstore reg hreg)) τ fun h2 => hsaved 2 (by simp) (h2 ▸ hact)
    have hnval : assocNval id (τ.regs tuple) store τ =
        assocNval id (s.st.regs tuple) store s.st := by
      cases store <;> simp [assocNval, hregs]
    rw [hnval, hregs, hslots.ctx hmem] at hP
    exact ⟨τ', f, hP, hstack, hmem', fun q hq hq5 => hrest q hq5 (hne q hq)⟩
  · rintro τ ⟨hr1, hr2, hr3, hr4, hr5⟩ hmem -
    refine ⟨_, xexec_dtGetAssoc hr1 hr2 hr3 hr4 hr5 ?_ hget, rfl, rfl, rfl, rfl,
      fun q hq => XState.afterCall_regs _ _ _ hq⟩
    rw [hm, tupleMem, hmem]

end

end DTrace.Cg
