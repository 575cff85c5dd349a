import DTrace.Cg.CallX

/-!
# Registers to spare

`depth` counts how often a register has been taken: an active register once, a spilled one
twice. Every operation on a register set adds to the counts or takes away from them, and an
allocation in a set with registers to spare takes the highest of them and never spills.
-/

namespace DTrace.Cg

open LabelCode Bpf Option Finset

/-! ## Counting how often a register is taken -/

/-- `0` for an inactive register, `1` for an active and `2` for a spilled one. -/
def depth (drp : Regset) (q : Nat) : Nat :=
  (if q ∈ drp.active then 1 else 0) + if q ∈ drp.spilled then 1 else 0

variable {drp drp' : Regset} {reg : Nat} {c : Ir}

theorem depth_pos {q : Nat} : 0 < depth drp q ↔ q ∈ drp.active := by
  unfold depth
  by_cases hact : q ∈ drp.active
  · rw [if_pos hact]
    simp only [hact, iff_true]
    omega
  · have hsp : q ∉ drp.spilled := fun h => hact (drp.spilled_sub h)
    simp [hact, hsp]

theorem depth_le_one {q : Nat} : depth drp q ≤ 1 ↔ q ∉ drp.spilled := by
  unfold depth
  by_cases hsp : q ∈ drp.spilled
  · simp [hsp, drp.spilled_sub hsp]
  · simp [hsp]
    split <;> omega

theorem depth_xalloc (h : dtRegsetXalloc drp reg = some (drp', c)) :
    drp'.size = drp.size ∧ ∀ q, depth drp' q = depth drp q + if q = reg then 1 else 0 := by
  obtain ⟨hsize, -, hsp, hact', hsp', -⟩ := dtRegsetXalloc_some h
  refine ⟨hsize, fun q => ?_⟩
  unfold depth
  rw [hact', hsp']
  by_cases hq : q = reg
  · subst hq
    by_cases ha : q ∈ drp.active <;> simp [ha, hsp]
  · by_cases ha : reg ∈ drp.active <;> simp [ha, hq]

theorem depth_free (h : dtRegsetFree drp reg = some (drp', c)) :
    drp'.size = drp.size ∧ ∀ q, depth drp q = depth drp' q + if q = reg then 1 else 0 := by
  unfold dtRegsetFree at h
  split_ifs at h with hact hsp
  all_goals
    obtain ⟨rfl, -⟩ := Prod.mk.inj (some.inj h)
    refine ⟨rfl, fun q => ?_⟩
    unfold depth
    by_cases hq : q = reg
    · subst hq
      simp [Regset.clearSpilled, Regset.clearActive, hact, hsp]
    · by_cases ha : q ∈ drp.active <;> by_cases hs : q ∈ drp.spilled <;>
        simp [Regset.clearSpilled, Regset.clearActive, hq, ha, hs]

theorem depth_freeAll {regs : List Nat} (h : freeAll regs drp = some (drp', c)) :
    drp'.size = drp.size ∧ ∀ q, depth drp q = depth drp' q + regs.count q := by
  induction regs generalizing drp c with
  | nil =>
    obtain ⟨rfl, -⟩ := Prod.mk.inj (some.inj h)
    simp
  | cons reg regs ih =>
    simp only [freeAll, bind_eq_bind, bind_eq_some_iff, Prod.exists] at h
    obtain ⟨_, _, hf, _, _, hr, rfl, rfl⟩ := h
    obtain ⟨hsize1, hd1⟩ := depth_free hf
    obtain ⟨hsize2, hd2⟩ := ih hr
    refine ⟨hsize2.trans hsize1, fun q => ?_⟩
    rw [hd1 q, hd2 q, List.count_cons]
    simp only [beq_iff_eq, eq_comm (a := reg)]
    omega

theorem depth_xallocAll {regs done : List Nat}
    (h : xallocAll regs done drp = some (true, drp', c)) :
    drp'.size = drp.size ∧ ∀ q, depth drp' q = depth drp q + regs.count q := by
  induction regs generalizing done drp c with
  | nil =>
    obtain ⟨-, rfl, -⟩ : true = true ∧ drp = drp' ∧ [] = c := by simpa [xallocAll] using h
    simp
  | cons reg regs ih =>
    unfold xallocAll at h
    split at h
    · simp [bind_eq_some_iff] at h
    · next drp1 c1 hx =>
      obtain ⟨⟨ok, drp2, c2⟩, htl, heq⟩ := bind_eq_some_iff.mp h
      obtain ⟨rfl, rfl, -⟩ : ok = true ∧ drp2 = drp' ∧ c1 ++ c2 = c := by simpa using heq
      obtain ⟨hsize1, hd1⟩ := depth_xalloc hx
      obtain ⟨hsize2, hd2⟩ := ih htl
      refine ⟨hsize2.trans hsize1, fun q => ?_⟩
      rw [hd2 q, hd1 q, List.count_cons]
      simp only [beq_iff_eq, eq_comm (a := reg)]
      omega

theorem depth_xallocZero (drp : Regset) :
    ((dtRegsetXalloc drp 0).getD (drp, [])).1.size = drp.size ∧
      ∀ q, q ≠ 0 → depth ((dtRegsetXalloc drp 0).getD (drp, [])).1 q = depth drp q := by
  cases hx : dtRegsetXalloc drp 0 with
  | none => exact ⟨rfl, fun _ _ => rfl⟩
  | some r =>
    obtain ⟨hsize, hd⟩ := depth_xalloc hx
    exact ⟨hsize, fun q hq => by simp [hd q, hq]⟩

/-- The registers that are free to allocate. -/
def spare (drp : Regset) : Finset Nat :=
  (Finset.range drp.size).filter fun q => q ≠ 0 ∧ depth drp q = 0

theorem mem_spare {q : Nat} : q ∈ spare drp ↔ q < drp.size ∧ q ≠ 0 ∧ depth drp q = 0 := by
  simp [spare]

theorem active_ne_spare {q r : Nat} (hq : q ∈ drp.active) (hr : r ∈ spare drp) : q ≠ r := by
  rintro rfl
  exact (depth_pos.mpr hq).ne' (mem_spare.mp hr).2.2

/-- Sets that agree beside `%r0` have the same registers to spare. -/
theorem spare_congr (hsize : drp'.size = drp.size) (h : ∀ q, q ≠ 0 → depth drp' q = depth drp q) :
    spare drp' = spare drp := by
  ext q
  rw [mem_spare, mem_spare, hsize]
  by_cases hq : q = 0
  · simp [hq]
  · rw [h q hq]

theorem scanDown_max {p : Nat → Bool} {n q : Nat} (h : scanDown p n = some reg) (hlt : reg < q)
    (hle : q ≤ n) : p q = false := by
  induction n with
  | zero => omega
  | succ n ih =>
    unfold scanDown at h
    split at h
    · obtain rfl := some.inj h
      omega
    · next hp =>
      by_cases hq : q = n + 1
      · simpa [hq] using hp
      · exact ih h (by omega)

/-- Allocation takes the highest spare register, and emits nothing. -/
theorem alloc_spare (hne : (spare drp).Nonempty) (h : dtRegsetAlloc drp = some (reg, drp', c)) :
    reg ∈ spare drp ∧ (∀ q ∈ spare drp, q ≤ reg) ∧ c = [] ∧ spare drp' = (spare drp).erase reg ∧
      drp'.size = drp.size ∧ ∀ q, depth drp' q = depth drp q + if q = reg then 1 else 0 := by
  obtain ⟨hpos, hx⟩ := dtRegsetAlloc_xalloc h
  obtain ⟨-, hlt, -, -, -, hc⟩ := dtRegsetXalloc_some hx
  obtain ⟨hsize, hd⟩ := depth_xalloc hx
  have hscan : ∃ r, scanDown (fun reg => decide (reg ∉ drp.active)) (drp.size - 1) = some r := by
    obtain ⟨q, hq⟩ := hne
    obtain ⟨hlt, hq0, _⟩ := mem_spare.mp hq
    by_contra hnone
    have := scanDown_none (eq_none_iff_forall_ne_some.mpr fun r hr => hnone ⟨r, hr⟩) q
      (by omega) (by omega)
    have hact : q ∈ drp.active := by simpa using this
    exact active_ne_spare hact hq rfl
  obtain ⟨r, hr⟩ := hscan
  obtain rfl : r = reg := by
    have hp := pick_of_alloc h
    rw [pick, hr] at hp
    exact some.inj hp
  have hinact : r ∉ drp.active := by simpa using (scanDown_some hr).1
  have hd0 : depth drp r = 0 := by
    have := mt depth_pos.mp hinact
    omega
  refine ⟨mem_spare.mpr ⟨hlt, hpos.ne', hd0⟩, ?_, by rw [hc, save, if_neg hinact], ?_, hsize, hd⟩
  · intro q hq
    obtain ⟨hlt, hq0, _⟩ := mem_spare.mp hq
    by_contra hgt
    have hact : q ∈ drp.active := by simpa using scanDown_max hr (by omega) (by omega)
    exact active_ne_spare hact hq rfl
  · ext q
    rw [mem_erase, mem_spare, mem_spare, hsize, hd q]
    by_cases hq : q = r
    · simp [hq]
    · simp [hq]

/-- With two registers to spare, the one that is allocated is not `%r1`. -/
theorem alloc_ne_one (hroom : 2 ≤ (spare drp).card) (h : dtRegsetAlloc drp = some (reg, drp', c)) :
    reg ≠ 1 := by
  rintro rfl
  obtain ⟨-, hmax, -⟩ := alloc_spare (card_pos.mp (by omega)) h
  have hsub : spare drp ⊆ {1} := by
    intro q hq
    have := hmax q hq
    have := (mem_spare.mp hq).2.1
    rw [mem_singleton]
    omega
  have := card_le_card hsub
  rw [card_singleton] at this
  omega

/-- The highest of four registers. -/
theorem alloc_gt_three (hroom : 4 ≤ (spare drp).card)
    (h : dtRegsetAlloc drp = some (reg, drp', c)) : 3 < reg := by
  obtain ⟨-, hmax, -⟩ := alloc_spare (card_pos.mp (by omega)) h
  have hsub : spare drp ⊆ (Finset.range (reg + 1)).erase 0 := by
    intro q hq
    have := hmax q hq
    exact mem_erase.mpr ⟨(mem_spare.mp hq).2.1, mem_range.mpr (by omega)⟩
  have := card_le_card hsub
  rw [card_erase_of_mem (by simp), card_range] at this
  omega

theorem free_code_nil (h : dtRegsetFree drp reg = some (drp', c)) (hd : depth drp reg ≤ 1) :
    c = [] := by
  rw [dtRegsetFree_code h, if_neg (depth_le_one.mp hd)]

end DTrace.Cg
