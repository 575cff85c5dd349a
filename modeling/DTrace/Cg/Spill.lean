import DTrace.Cg.Regset

/-!
# Owners of registers at run time

What the spill code of the register set does to a running program, stated from the point of
view of the registers' owners.

* **`Keeps drp σ σ'`** — between `σ` and `σ'` no owner of `drp` lost anything: active
  registers and the slots of spilled ones are as they were, and so are the DTrace context
  and memory.
* **`Lends drp reg σ σ'`** — the same with `reg` on loan: its contents may be anything, but
  if it had an owner, the owner's value is in the register's slot.

Taking a register goes from `σ` to a state that lends it (`frag_xalloc`), work on it keeps
it lent (`Lends.setReg`, `Lends.keeps`), and freeing it makes the owners whole again
(`frag_free`).
-/

namespace DTrace.Cg

open LabelCode Bpf State

structure Keeps (drp : Regset) (σ σ' : State) : Prop where
  regs : ∀ q ∈ drp.active, σ'.regs q = σ.regs q
  slots : ∀ q ∈ drp.spilled, σ'.stack (dtStkSpill q) = σ.stack (dtStkSpill q)
  dctx : σ'.stack dtStkDctx = σ.stack dtStkDctx
  mem : σ'.mem = σ.mem

structure Lends (drp : Regset) (reg : Nat) (σ σ' : State) : Prop where
  regs : ∀ q ∈ drp.active, q ≠ reg → σ'.regs q = σ.regs q
  saved : reg ∈ drp.active → σ'.stack (dtStkSpill reg) = σ.regs reg
  slots : ∀ q ∈ drp.spilled, σ'.stack (dtStkSpill q) = σ.stack (dtStkSpill q)
  dctx : σ'.stack dtStkDctx = σ.stack dtStkDctx
  mem : σ'.mem = σ.mem

variable {drp : Regset} {σ σ1 σ2 : State} {reg : Nat} {σ' : State} {drp' : Regset} {rl rr : Nat}

theorem Keeps.lends (h1 : Keeps drp σ σ1) (h2 : Lends drp reg σ1 σ2) : Lends drp reg σ σ2 where
  regs q hq hne := (h2.regs q hq hne).trans (h1.regs q hq)
  saved hact := (h2.saved hact).trans (h1.regs reg hact)
  slots q hq := (h2.slots q hq).trans (h1.slots q hq)
  dctx := h2.dctx.trans h1.dctx
  mem := h2.mem.trans h1.mem

/-- The borrower may write its register. -/
theorem Lends.setReg (h : Lends drp reg σ σ') (v : BitVec 64) :
    Lends drp reg σ (σ'.setReg reg v) where
  regs q hq hne := by rw [setReg_regs_of_ne _ _ hne]; exact h.regs q hq hne
  saved := h.saved
  slots := h.slots
  dctx := h.dctx
  mem := h.mem

/-- A register without an owner can be given back as it is. -/
theorem Lends.keeps_of_not_mem (h : Lends drp reg σ σ') (hreg : reg ∉ drp.active) :
    Keeps drp σ σ' where
  regs q hq := h.regs q hq fun e => hreg (e ▸ hq)
  slots := h.slots
  dctx := h.dctx
  mem := h.mem

theorem spilled_xalloc {c : Ir} (hx : dtRegsetXalloc drp reg = some (drp', c)) {q : Nat}
    (hq : q ∈ drp.spilled) : q ∈ drp'.spilled := by
  obtain ⟨-, -, -, -, hsp, -⟩ := dtRegsetXalloc_some hx
  rw [hsp]
  split <;> simp [hq]

/-- Work that keeps the owners of the larger set, the borrower included, keeps the loan. -/
theorem Lends.keeps {c : Ir} (h1 : Lends drp reg σ σ1)
    (hx : dtRegsetXalloc drp reg = some (drp', c)) (h2 : Keeps drp' σ1 σ2) :
    Lends drp reg σ σ2 ∧ σ2.regs reg = σ1.regs reg := by
  obtain ⟨-, -, -, hact, hsp, -⟩ := dtRegsetXalloc_some hx
  refine ⟨⟨?_, ?_, ?_, h2.dctx.trans h1.dctx, h2.mem.trans h1.mem⟩, h2.regs reg (by simp [hact])⟩
  · intro q hq hne
    exact (h2.regs q (by simp [hact, hq])).trans (h1.regs q hq hne)
  · intro hreg
    exact (h2.slots reg (by simp [hsp, hreg])).trans (h1.saved hreg)
  · intro q hq
    exact (h2.slots q (spilled_xalloc hx hq)).trans (h1.slots q hq)

/-! ## Two registers at work

While an operator works on its operands, the left one is on loan from the set before it, the
right one from the set that already counts the left one as active. -/

/-- Between `σ` and `σ'` only the registers `rl` and `rr` have changed. -/
structure Touches (rl rr : Nat) (σ σ' : State) : Prop where
  regs : ∀ q, q ≠ rl → q ≠ rr → σ'.regs q = σ.regs q
  stack : σ'.stack = σ.stack
  mem : σ'.mem = σ.mem

theorem Touches.refl (rl rr : Nat) (σ : State) : Touches rl rr σ σ :=
  ⟨fun _ _ _ => rfl, rfl, rfl⟩

theorem Touches.setLeft (h : Touches rl rr σ σ') (v : BitVec 64) :
    Touches rl rr σ (σ'.setReg rl v) where
  regs q hl hr := by rw [setReg_regs_of_ne _ _ hl]; exact h.regs q hl hr
  stack := h.stack
  mem := h.mem

theorem Touches.setRight (h : Touches rl rr σ σ') (v : BitVec 64) :
    Touches rl rr σ (σ'.setReg rr v) where
  regs q hl hr := by rw [setReg_regs_of_ne _ _ hr]; exact h.regs q hl hr
  stack := h.stack
  mem := h.mem

/-- Writing the left register while the right one is on loan is as good as having written it
before the loan. -/
theorem Lends.touch {σ3 : State} (h : Lends drp rr σ1 σ2) (hne : rl ≠ rr)
    (ht : Touches rl rr σ2 σ3) :
    Lends drp rr (σ1.setReg rl (σ3.regs rl)) σ3 where
  regs q hq hqr := by
    by_cases hql : q = rl
    · subst hql
      rw [setReg_regs_self]
    · rw [setReg_regs_of_ne _ _ hql, ht.regs q hql hqr]
      exact h.regs q hq hqr
  saved hact := by
    rw [setReg_regs_of_ne _ _ hne.symm, ht.stack]
    exact h.saved hact
  slots q hq := by rw [ht.stack]; exact h.slots q hq
  dctx := by rw [ht.stack]; exact h.dctx
  mem := ht.mem.trans h.mem

/-! ## The spill code -/

variable (env : Env)

theorem frag_spillStore (reg : Nat) (σ : State) :
    Frag (exec env) (dtCgSpillStore reg) σ (σ.setSlot (dtStkSpill reg) (σ.regs reg)) :=
  Frag.single (by simp [exec])

theorem frag_spillLoad (reg : Nat) (σ : State) :
    Frag (exec env) (dtCgSpillLoad reg) σ (σ.setReg reg (σ.stack (dtStkSpill reg))) :=
  Frag.single (by simp [exec])

/-- The value of an owner is stored in the slot of the register. -/
theorem frag_save (drp : Regset) (reg : Nat) (σ : State) :
    ∃ σ', Frag (exec env) (save drp reg) σ σ' ∧ σ'.regs = σ.regs ∧ σ'.mem = σ.mem ∧
      (reg ∈ drp.active → σ'.stack (dtStkSpill reg) = σ.regs reg) ∧
      ∀ o, o ≠ dtStkSpill reg → σ'.stack o = σ.stack o := by
  unfold save
  split
  · exact ⟨_, frag_spillStore env reg σ, rfl, rfl, fun _ => by simp,
      fun o ho => by rw [setSlot_stack, if_neg ho]⟩
  · next h => exact ⟨σ, .nil σ, rfl, rfl, fun h' => absurd h' h, fun _ _ => rfl⟩

/-- And it is loaded from there again. -/
theorem frag_loadIf (p : Prop) [Decidable p] (reg : Nat) (σ : State) :
    ∃ σ', Frag (exec env) (if p then dtCgSpillLoad reg else []) σ σ' ∧ σ'.stack = σ.stack ∧
      σ'.mem = σ.mem ∧ (p → σ'.regs reg = σ.stack (dtStkSpill reg)) ∧
      (∀ q, q ≠ reg → σ'.regs q = σ.regs q) ∧ (¬p → σ' = σ) := by
  split
  · next h => exact ⟨_, frag_spillLoad env reg σ, rfl, rfl, fun _ => setReg_regs_self _ _ _,
      fun q hq => setReg_regs_of_ne _ _ hq, fun h' => absurd h h'⟩
  · next h => exact ⟨σ, .nil σ, rfl, rfl, fun h' => absurd h' h, fun _ _ => rfl, fun _ => rfl⟩

/-- Taking a register moves no register and lends it. -/
theorem frag_xalloc {c : Ir} (hx : dtRegsetXalloc drp reg = some (drp', c)) (σ : State) :
    ∃ σ', Frag (exec env) c σ σ' ∧ σ'.regs = σ.regs ∧ Lends drp reg σ σ' := by
  obtain ⟨-, -, hsp, -, -, rfl⟩ := dtRegsetXalloc_some hx
  obtain ⟨σ', f, hregs, hmem, hsaved, hrest⟩ := frag_save env drp reg σ
  refine ⟨σ', f, hregs, fun q _ _ => by rw [hregs], hsaved, fun q hq => hrest _ fun e => ?_,
    hrest _ (dtStkDctx_ne_spill reg), hmem⟩
  exact hsp (dtStkSpill_inj.mp e ▸ hq)

theorem frag_alloc {c : Ir} (ha : dtRegsetAlloc drp = some (reg, drp', c)) (σ : State) :
    ∃ σ', Frag (exec env) c σ σ' ∧ σ'.regs = σ.regs ∧ Lends drp reg σ σ' :=
  frag_xalloc env (dtRegsetAlloc_xalloc ha).2 σ

/-- Freeing a lent register makes every owner whole, and touches no other register. -/
theorem frag_free (h : Lends drp reg σ σ1) :
    ∃ σ2, Frag (exec env) (reload drp reg) σ1 σ2 ∧ Keeps drp σ σ2 ∧
      (∀ q, q ≠ reg → σ2.regs q = σ1.regs q) ∧ (reg ∉ drp.active → σ2 = σ1) := by
  obtain ⟨σ2, f, hstack, hmem, hload, hrest, heq⟩ := frag_loadIf env (reg ∈ drp.active) reg σ1
  refine ⟨σ2, f, ⟨fun q hq => ?_, by rw [hstack]; exact h.slots, by rw [hstack]; exact h.dctx,
    hmem.trans h.mem⟩, hrest, heq⟩
  by_cases hq' : q = reg
  · subst hq'
    rw [hload hq, h.saved hq]
  · rw [hrest q hq', h.regs q hq hq']

/-- The end of an operator: the right register is freed, the left one keeps the result. -/
theorem frag_free_right {c : Ir} {σ3 : State} (hx : dtRegsetXalloc drp rl = some (drp', c))
    (h1 : Lends drp rl σ σ1) (h2 : Lends drp' rr σ1 σ2) (hne : rl ≠ rr) (ht : Touches rl rr σ2 σ3) :
    ∃ σ4, Frag (exec env) (reload drp' rr) σ3 σ4 ∧ σ4.regs rl = σ3.regs rl ∧
      Lends drp rl σ σ4 ∧ (rr ∉ drp'.active → σ4 = σ3) := by
  obtain ⟨σ4, hfrag, hkeeps, -, heq⟩ := frag_free env (h2.touch hne ht)
  obtain ⟨hlends, hval⟩ := (h1.setReg (σ3.regs rl)).keeps hx hkeeps
  exact ⟨σ4, hfrag, by simpa using hval, hlends, heq⟩

end DTrace.Cg
