import DTrace.Bpf.Insn

/-!
# Register sets — `dt_regset.c`

The allocator the code generator draws registers from. A register set knows which registers
are **active** and which of those are **spilled** (their previous owner's value sits in the
register's stack slot); both facts are part of the type, so a spilled register is always
active and an active one always exists. There are at most `DIF_DIR_NREGS` registers beside
`%r0`, so none of them is the frame pointer.

Allocating and freeing emit code: the store of a spilled register and its reload. Every
operation here returns that code with the new set. A failed assertion of the source
(a register number out of range, a free of an inactive register) is `none`, like the
`-1` of the operations that can run out of registers.
-/

namespace DTrace.Cg

open LabelCode Bpf Option Finset

@[ext]
structure Regset where
  size : Nat
  active : Finset Nat
  spilled : Finset Nat
  size_le : size ≤ 9
  active_lt : ∀ r ∈ active, r < size
  spilled_sub : spilled ⊆ active

/-- `dt_regset_create`: registers `%r0` .. `%r(size)`, none in use. -/
def dtRegsetCreate (size : Nat) (h : size ≤ 8) : Regset where
  size := size + 1
  active := ∅
  spilled := ∅
  size_le := Nat.succ_le_succ h
  active_lt := by simp
  spilled_sub := by simp

/-! ## Bitmap updates -/

namespace Regset

/-- `BT_SET(dr_active, reg)`. -/
def setActive (drp : Regset) (reg : Nat) (h : reg < drp.size) : Regset where
  size := drp.size
  active := insert reg drp.active
  spilled := drp.spilled
  size_le := drp.size_le
  active_lt := by
    intro r hr
    rcases mem_insert.mp hr with rfl | hr
    · exact h
    · exact drp.active_lt r hr
  spilled_sub := drp.spilled_sub.trans (subset_insert _ _)

/-- `BT_SET(dr_spilled, reg)`. -/
def setSpilled (drp : Regset) (reg : Nat) (h : reg ∈ drp.active) : Regset where
  size := drp.size
  active := drp.active
  spilled := insert reg drp.spilled
  size_le := drp.size_le
  active_lt := drp.active_lt
  spilled_sub := insert_subset h drp.spilled_sub

/-- `BT_CLEAR(dr_active, reg)`. -/
def clearActive (drp : Regset) (reg : Nat) (h : reg ∉ drp.spilled) : Regset where
  size := drp.size
  active := drp.active.erase reg
  spilled := drp.spilled
  size_le := drp.size_le
  active_lt := fun r hr => drp.active_lt r (mem_of_mem_erase hr)
  spilled_sub := fun _ hr =>
    mem_erase.mpr ⟨fun hne => h (hne ▸ hr), drp.spilled_sub hr⟩

/-- `BT_CLEAR(dr_spilled, reg)`. -/
def clearSpilled (drp : Regset) (reg : Nat) : Regset where
  size := drp.size
  active := drp.active
  spilled := drp.spilled.erase reg
  size_le := drp.size_le
  active_lt := drp.active_lt
  spilled_sub := (erase_subset _ _).trans drp.spilled_sub

end Regset

/-! ## Spill slots -/

def dtStkDctx : Int := -8

def dtStkSpillBase : Int := -24

def dtStkSpill (n : Nat) : Int := dtStkSpillBase - n * 8

@[simp] theorem dtStkSpill_inj {m n : Nat} : dtStkSpill m = dtStkSpill n ↔ m = n := by
  unfold dtStkSpill
  omega

@[simp] theorem dtStkDctx_ne_spill (n : Nat) : dtStkDctx ≠ dtStkSpill n := by
  unfold dtStkDctx dtStkSpill dtStkSpillBase
  omega

def dtCgSpillStore (reg : Nat) : Ir := emit (.store .dw regFP (dtStkSpill reg) reg)

def dtCgSpillLoad (reg : Nat) : Ir := emit (.load .dw reg regFP (dtStkSpill reg))

/-! ## The operations -/

/-- The loops of `dt_regset_alloc`: the first register from `n` down to `1` that passes. -/
def scanDown (p : Nat → Bool) : Nat → Option Nat
  | 0 => none
  | reg + 1 => if p (reg + 1) then some (reg + 1) else scanDown p reg

variable {p : Nat → Bool} {reg : Nat} {drp drp' : Regset} {c : Ir}

theorem scanDown_some {n : Nat} (h : scanDown p n = some reg) :
    p reg = true ∧ 0 < reg ∧ reg ≤ n := by
  induction n with
  | zero => simp [scanDown] at h
  | succ n ih =>
    unfold scanDown at h
    split at h
    · next hp =>
      obtain rfl : n + 1 = reg := by simpa using h
      exact ⟨hp, by omega, le_rfl⟩
    · have := ih h
      exact ⟨this.1, this.2.1, by omega⟩

theorem scanDown_none {n : Nat} (h : scanDown p n = none) :
    ∀ reg, 0 < reg → reg ≤ n → p reg = false := by
  induction n with
  | zero => intro reg h0 h1; omega
  | succ n ih =>
    unfold scanDown at h
    split at h
    · simp at h
    · next hp =>
      intro reg h0 h1
      by_cases hreg : reg = n + 1
      · simpa [hreg] using hp
      · exact ih h reg h0 (by omega)

/-- `dt_regset_alloc`: the highest inactive register, else spill the highest unspilled one. -/
def dtRegsetAlloc (drp : Regset) : Option (Nat × Regset × Ir) :=
  match h₁ : scanDown (fun reg => decide (reg ∉ drp.active)) (drp.size - 1) with
  | some reg =>
    some (reg, drp.setActive reg (by have := scanDown_some h₁; omega), [])
  | none =>
    match h₂ : scanDown (fun reg => decide (reg ∉ drp.spilled)) (drp.size - 1) with
    | some reg =>
      some (reg, drp.setSpilled reg (by
        have hreg := scanDown_some h₂
        simpa using scanDown_none h₁ reg hreg.2.1 hreg.2.2), dtCgSpillStore reg)
    | none => none

/-- `dt_regset_xalloc`: allocate one specific register. -/
def dtRegsetXalloc (drp : Regset) (reg : Nat) : Option (Regset × Ir) :=
  if hlt : reg < drp.size then
    if hact : reg ∈ drp.active then
      if reg ∈ drp.spilled then none
      else some (drp.setSpilled reg hact, dtCgSpillStore reg)
    else some (drp.setActive reg hlt, [])
  else none

def dtRegsetFree (drp : Regset) (reg : Nat) : Option (Regset × Ir) :=
  if reg ∈ drp.active then
    if hsp : reg ∈ drp.spilled then some (drp.clearSpilled reg, dtCgSpillLoad reg)
    else some (drp.clearActive reg hsp, [])
  else none

/-! ## What the operations do to the set

Allocating is choosing a register and then taking it (`dtRegsetAlloc_xalloc`), and freeing a
register gives back exactly the set it was taken from (`dtRegsetFree_of_xalloc`). -/

/-- `dt_regset_alloc` takes the register it picks the way `dt_regset_xalloc` would. -/
theorem dtRegsetAlloc_xalloc (h : dtRegsetAlloc drp = some (reg, drp', c)) :
    0 < reg ∧ dtRegsetXalloc drp reg = some (drp', c) := by
  unfold dtRegsetAlloc at h
  split at h
  · next reg' h1 =>
    simp only [some.injEq, Prod.mk.injEq] at h
    obtain ⟨rfl, rfl, rfl⟩ := h
    obtain ⟨hp, hpos, hle⟩ := scanDown_some h1
    have hinact : reg' ∉ drp.active := by simpa using hp
    exact ⟨hpos, by simp [dtRegsetXalloc, hinact, show reg' < drp.size by omega]⟩
  · next h1 =>
    split at h
    · next reg' h2 =>
      simp only [some.injEq, Prod.mk.injEq] at h
      obtain ⟨rfl, rfl, rfl⟩ := h
      obtain ⟨hp, hpos, hle⟩ := scanDown_some h2
      have hact : reg' ∈ drp.active := by simpa using scanDown_none h1 reg' hpos hle
      have hsp : reg' ∉ drp.spilled := by simpa using hp
      exact ⟨hpos, by simp [dtRegsetXalloc, hact, hsp, drp.active_lt reg' hact]⟩
    · simp at h

/-- The code that stores the value `reg` has for its owner in `drp`, if it has one. -/
def save (drp : Regset) (reg : Nat) : Ir :=
  if reg ∈ drp.active then dtCgSpillStore reg else []

/-- Taking a register: either it was inactive, or its owner's value is stored first. -/
theorem dtRegsetXalloc_some (h : dtRegsetXalloc drp reg = some (drp', c)) :
    drp'.size = drp.size ∧ reg < drp.size ∧ reg ∉ drp.spilled ∧
      drp'.active = insert reg drp.active ∧
      drp'.spilled = (if reg ∈ drp.active then insert reg drp.spilled else drp.spilled) ∧
      c = save drp reg := by
  unfold dtRegsetXalloc at h
  unfold save
  split_ifs at h with hlt hact hsp
  · obtain ⟨rfl, rfl⟩ : drp.setSpilled reg hact = drp' ∧ dtCgSpillStore reg = c := by
      simpa using h
    exact ⟨rfl, hlt, hsp, (insert_eq_of_mem hact).symm, by simp [hact, Regset.setSpilled],
      by simp [hact]⟩
  · obtain ⟨rfl, rfl⟩ : drp.setActive reg hlt = drp' ∧ [] = c := by simpa using h
    exact ⟨rfl, hlt, fun hs => hact (drp.spilled_sub hs), rfl, by simp [hact, Regset.setActive],
      by simp [hact]⟩

/-- No register of the set is the frame pointer. -/
theorem dtRegsetXalloc_ne_regFP (h : dtRegsetXalloc drp reg = some (drp', c)) : reg ≠ regFP := by
  obtain ⟨-, _, -⟩ := dtRegsetXalloc_some h
  have := drp.size_le
  unfold regFP
  omega

theorem dtRegsetXalloc_of_not_spilled (hlt : reg < drp.size) (hsp : reg ∉ drp.spilled) :
    ∃ drp' c, dtRegsetXalloc drp reg = some (drp', c) := by
  unfold dtRegsetXalloc
  rw [dif_pos hlt]
  split <;> exact ⟨_, _, rfl⟩

theorem dtRegsetAlloc_zero_not_spilled (h : dtRegsetAlloc drp = some (reg, drp', c))
    (h0 : 0 ∉ drp.spilled) : 0 ∉ drp'.spilled := by
  obtain ⟨hpos, hx⟩ := dtRegsetAlloc_xalloc h
  obtain ⟨-, -, -, -, hsp, -⟩ := dtRegsetXalloc_some hx
  rw [hsp]
  split <;> simp [h0, hpos.ne]

/-- The code that gives `reg` back to its owner in `drp`, if it has one. -/
def reload (drp : Regset) (reg : Nat) : Ir :=
  if reg ∈ drp.active then dtCgSpillLoad reg else []

/-- Freeing a taken register restores the set, reloading the owner's value if there is one. -/
theorem dtRegsetFree_of_xalloc (h : dtRegsetXalloc drp reg = some (drp', c)) :
    dtRegsetFree drp' reg = some (drp, reload drp reg) := by
  obtain ⟨hsize, -, hsp, hact', hsp', -⟩ := dtRegsetXalloc_some h
  have hmem : reg ∈ drp'.active := by simp [hact']
  unfold dtRegsetFree reload
  by_cases hact : reg ∈ drp.active
  · have hs : reg ∈ drp'.spilled := by simp [hsp', hact]
    simp only [hmem, hs, hact, if_true, dif_pos, some.injEq, Prod.mk.injEq, and_true]
    ext1
    · exact hsize
    · simp [Regset.clearSpilled, hact', hact]
    · simp [Regset.clearSpilled, hsp', hact, hsp]
  · have hs : reg ∉ drp'.spilled := by simp [hsp', hact, hsp]
    simp only [hmem, hs, hact, if_true, if_false, dif_neg, not_false_iff, some.injEq,
      Prod.mk.injEq, and_true]
    ext1
    · exact hsize
    · simp [Regset.clearActive, hact', hact]
    · simp [Regset.clearActive, hsp', hact]

/-- The register `dt_regset_alloc` picks. -/
def pick (drp : Regset) : Option Nat :=
  (scanDown (fun reg => decide (reg ∉ drp.active)) (drp.size - 1)).orElse fun _ =>
    scanDown (fun reg => decide (reg ∉ drp.spilled)) (drp.size - 1)

theorem pick_of_alloc (h : dtRegsetAlloc drp = some (reg, drp', c)) : pick drp = some reg := by
  unfold dtRegsetAlloc at h
  unfold pick
  split at h
  · next h1 =>
    obtain ⟨rfl, -⟩ : _ = reg ∧ _ := by simpa using h
    rw [h1]
    rfl
  · next h1 =>
    split at h
    · next h2 =>
      obtain ⟨rfl, -⟩ : _ = reg ∧ _ := by simpa using h
      rw [h1]
      exact h2
    · simp at h

theorem alloc_of_pick (hp : pick drp = some reg) (hx : dtRegsetXalloc drp reg = some (drp', c)) :
    dtRegsetAlloc drp = some (reg, drp', c) := by
  cases h : dtRegsetAlloc drp with
  | some res =>
    obtain ⟨reg', _, _⟩ := res
    have hp' := pick_of_alloc h
    obtain ⟨-, hx'⟩ := dtRegsetAlloc_xalloc h
    obtain rfl : reg = reg' := by simpa [hp] using hp'
    rw [hx] at hx'
    simp only [some.injEq, Prod.mk.injEq] at hx' ⊢
    exact ⟨trivial, hx'.1.symm, hx'.2.symm⟩
  | none =>
    -- allocation fails only when neither loop finds a register
    unfold dtRegsetAlloc at h
    unfold pick at hp
    split at h
    · simp at h
    · next h1 =>
      split at h
      · simp at h
      · next h2 =>
        rw [h1] at hp
        exact absurd (h2.symm.trans hp) (by simp)

theorem scanDown_congr {q : Nat → Bool} (n : Nat) (h : ∀ reg, 0 < reg → p reg = q reg) :
    scanDown p n = scanDown q n := by
  induction n with
  | zero => rfl
  | succ n ih => simp only [scanDown, h (n + 1) (by omega), ih]

/-- Registers are taken independently of one another. -/
theorem dtRegsetXalloc_comm {drp0 drp1 : Regset} {a b : Nat} {ca cb : Ir} (hab : a ≠ b)
    (ha : dtRegsetXalloc drp a = some (drp0, ca)) (hb : dtRegsetXalloc drp0 b = some (drp1, cb)) :
    ∃ drp', dtRegsetXalloc drp b = some (drp', cb) ∧
      dtRegsetXalloc drp' a = some (drp1, ca) := by
  obtain ⟨hsz0, hlta, hspa, hact0, hsp0, hca⟩ := dtRegsetXalloc_some ha
  obtain ⟨_, hltb, hspb, hact1, hsp1, hcb⟩ := dtRegsetXalloc_some hb
  have hspb' : b ∉ drp.spilled := by
    intro hmem
    apply hspb
    rw [hsp0]
    split <;> simp [hmem]
  obtain ⟨drp', _, hb'⟩ := dtRegsetXalloc_of_not_spilled (hsz0 ▸ hltb) hspb'
  obtain ⟨hsz', -, -, hact', hsp', hcb'⟩ := dtRegsetXalloc_some hb'
  have hspa' : a ∉ drp'.spilled := by
    rw [hsp']
    split <;> simp [hspa, hab]
  obtain ⟨drp2, _, ha'⟩ := dtRegsetXalloc_of_not_spilled (hsz'.symm ▸ hlta) hspa'
  obtain ⟨_, -, -, hact2, hsp2, hca'⟩ := dtRegsetXalloc_some ha'
  have hb_act : b ∈ drp0.active ↔ b ∈ drp.active := by simp [hact0, hab.symm]
  have ha_act : a ∈ drp'.active ↔ a ∈ drp.active := by simp [hact', hab]
  have heq : drp2 = drp1 := by
    ext1
    · omega
    · rw [hact2, hact', hact1, hact0, insert_comm]
    · simp only [hsp2, hsp', hsp1, hsp0, hb_act, ha_act]
      split <;> split <;> first | rfl | rw [insert_comm]
  refine ⟨drp', ?_, ?_⟩
  · rw [hb', hcb', hcb]
    simp only [save, hb_act]
  · rw [ha', hca', hca, heq]
    simp only [save, ha_act]

/-- Allocation never looks at `%r0`, so it commutes with taking `%r0`. -/
theorem dtRegsetAlloc_zero_taken {drp0 drp1 : Regset} {c0 : Ir}
    (h0 : dtRegsetXalloc drp 0 = some (drp0, c0)) (h : dtRegsetAlloc drp0 = some (reg, drp1, c)) :
    ∃ drp', dtRegsetAlloc drp = some (reg, drp', c) ∧
      dtRegsetXalloc drp' 0 = some (drp1, c0) := by
  obtain ⟨hpos, hx⟩ := dtRegsetAlloc_xalloc h
  obtain ⟨hsz, -, -, hact, hsp, -⟩ := dtRegsetXalloc_some h0
  have hpick : pick drp = some reg := by
    rw [← pick_of_alloc h]
    unfold pick
    rw [hsz,
      scanDown_congr (p := fun r => decide (r ∉ drp0.active)) (q := fun r => decide (r ∉ drp.active))
        _ (fun r hr => by simp [hact, hr.ne']),
      scanDown_congr (p := fun r => decide (r ∉ drp0.spilled))
        (q := fun r => decide (r ∉ drp.spilled)) _ (fun r hr => by
          rw [hsp]
          split <;> simp [hr.ne'])]
  obtain ⟨drp', hb, ha⟩ := dtRegsetXalloc_comm hpos.ne h0 hx
  exact ⟨drp', alloc_of_pick hpick hb, ha⟩

/-- Free the registers of a list in order. -/
def freeAll : List Nat → Regset → Option (Regset × Ir)
  | [], drp => some (drp, [])
  | reg :: regs, drp => do
    let (drp, c₁) ← dtRegsetFree drp reg
    let (drp, c₂) ← freeAll regs drp
    some (drp, c₁ ++ c₂)

/-- The loop of `dt_regset_xalloc_args`. `done` holds the registers taken so far, latest
first: on failure they are freed again in that order and the result is `false`. -/
def xallocAll : List Nat → List Nat → Regset → Option (Bool × Regset × Ir)
  | [], _, drp => some (true, drp, [])
  | reg :: regs, done, drp =>
    match dtRegsetXalloc drp reg with
    | none => do
      let (drp, c) ← freeAll done drp
      some (false, drp, c)
    | some (drp, c₁) => do
      let (ok, drp, c₂) ← xallocAll regs (reg :: done) drp
      some (ok, drp, c₁ ++ c₂)

/-- A successful run of the loop takes every register of the list. -/
theorem xallocAll_true {regs done : List Nat} (h : xallocAll regs done drp = some (true, drp', c))
    (hnd : regs.Nodup) :
    drp'.size = drp.size ∧ (∀ r ∈ regs, r ∉ drp.spilled) ∧
      drp'.active = drp.active ∪ regs.toFinset ∧
      drp'.spilled = drp.spilled ∪ (drp.active ∩ regs.toFinset) ∧
      c = regs.flatMap (save drp) := by
  induction regs generalizing done drp c with
  | nil =>
    obtain ⟨rfl, rfl⟩ : drp = drp' ∧ [] = c := by simpa [xallocAll] using h
    simp
  | cons reg regs ih =>
    unfold xallocAll at h
    split at h
    · simp [bind_eq_some_iff] at h
    · next drp1 c1 hx =>
      obtain ⟨⟨ok, drp2, c2⟩, htl, heq⟩ := bind_eq_some_iff.mp h
      obtain ⟨rfl, rfl, rfl⟩ : ok = true ∧ drp2 = drp' ∧ c1 ++ c2 = c := by simpa using heq
      obtain ⟨hsize1, -, hsp, hact1, hsp1, hc1⟩ := dtRegsetXalloc_some hx
      obtain ⟨hreg, hnd'⟩ := List.nodup_cons.mp hnd
      obtain ⟨hsize2, hsps, hact2, hsp2, hc2⟩ := ih htl hnd'
      -- the rest of the list meets the set as it was: only `reg` has changed
      have hmem : ∀ r ∈ regs, (r ∈ drp1.active ↔ r ∈ drp.active) := by
        intro r hr
        have hne : r ≠ reg := fun e => hreg (e ▸ hr)
        simp [hact1, hne]
      refine ⟨hsize2.trans hsize1, ?_, ?_, ?_, ?_⟩
      · intro r hr
        rcases List.mem_cons.mp hr with rfl | hr
        · exact hsp
        · intro hmem'
          refine hsps r hr ?_
          rw [hsp1]
          split <;> simp [hmem']
      · ext r
        simp only [hact2, hact1, mem_union, mem_insert, List.mem_toFinset,
          List.mem_cons]
        tauto
      · ext r
        by_cases hr : r = reg
        · subst hr
          by_cases ha : r ∈ drp.active <;> simp [hsp2, hsp1, hact1, ha, hreg]
        · by_cases ha : reg ∈ drp.active <;> simp [hsp2, hsp1, hact1, ha, hr]
      · rw [hc2]
        congr 1
        refine List.flatMap_congr fun r hr => ?_
        simp only [save, hmem r hr]

/-- Freeing every register of a list that was taken restores the set. -/
theorem freeAll_of_taken {regs : List Nat} (hnd : regs.Nodup) (hsize : drp'.size = drp.size)
    (hfresh : ∀ r ∈ regs, r ∉ drp.spilled) (hact : drp'.active = drp.active ∪ regs.toFinset)
    (hsp : drp'.spilled = drp.spilled ∪ (drp.active ∩ regs.toFinset)) :
    freeAll regs drp' = some (drp, regs.flatMap (reload drp)) := by
  induction regs generalizing drp' with
  | nil =>
    have : drp' = drp := by ext1 <;> simp [hsize, hact, hsp]
    simp [freeAll, this]
  | cons reg regs ih =>
    obtain ⟨hreg, hnd'⟩ := List.nodup_cons.mp hnd
    have hin : reg ∈ drp'.active := by simp [hact]
    have hspreg : reg ∈ drp'.spilled ↔ reg ∈ drp.active := by
      simp [hsp, hfresh reg (by simp)]
    unfold freeAll dtRegsetFree
    by_cases ha : reg ∈ drp.active
    · have hih : freeAll regs (drp'.clearSpilled reg) = some (drp, regs.flatMap (reload drp)) :=
        ih hnd' hsize (fun r hr => hfresh r (List.mem_cons_of_mem _ hr))
        (by
          ext r
          simp only [Regset.clearSpilled, hact, mem_union, List.mem_toFinset, List.mem_cons]
          constructor
          · rintro (h | rfl | h) <;> simp_all
          · tauto)
        (by
          ext r
          by_cases hr : r = reg
          · subst hr; simp [Regset.clearSpilled, hfresh r (by simp), hreg]
          · simp [Regset.clearSpilled, hsp, hr])
      simp [hin, hspreg, ha, hih, reload]
    · have hih : freeAll regs (drp'.clearActive reg (mt hspreg.mp ha)) =
          some (drp, regs.flatMap (reload drp)) :=
        ih hnd' hsize (fun r hr => hfresh r (List.mem_cons_of_mem _ hr))
        (by
          ext r
          by_cases hr : r = reg
          · subst hr; simp [Regset.clearActive, ha, hreg]
          · simp [Regset.clearActive, hact, hr])
        (by
          ext r
          by_cases hr : r = reg
          · subst hr; simp [Regset.clearActive, hsp, ha]
          · simp [Regset.clearActive, hsp, hr])
      simp [hin, hspreg, ha, hih, reload]

def dtRegsetXallocArgs (drp : Regset) : Option (Bool × Regset × Ir) :=
  xallocAll [1, 2, 3, 4, 5] [] drp

def dtRegsetFreeArgs (drp : Regset) : Option (Regset × Ir) :=
  freeAll [1, 2, 3, 4, 5] drp

end DTrace.Cg
