import Mathlib.Data.List.Basic
import Mathlib.Algebra.Group.Nat.Defs

/-!
# Storage for global variables — `dt_node_decl`, `dt_ident_set_storage`

A declaration of a global variable takes the next offset of the `gvars` map, rounded up with a mask
to an alignment that depends on the type. Sizes, alignments and offsets are `uint_t`.

* **`Layout.Sound`** — the variables are disjoint, inside the map and aligned.
* **`Layout.Fits`** — what a declaration needs for that, in unbounded arithmetic: an alignment that
  is not zero, no carry out of 32 bits, and an end below `2 ^ 32`. Alignments that are not powers of
  two are harmless.
* **`history_sound_iff`** — every layout of a sequence of declarations is sound if and only if every
  declaration fits.
-/

namespace DTrace.Parser

open Option BitVec List Nat

/-! ## Types -/

/-- The types of variables, as CTF reports them: `int k` has `2 ^ k` bytes, a structure has the
alignment `2 ^ k`, and a type with a name of its own (`typedef`) is `named`. -/
inductive VarType where
  | int (k : Nat)
  | enum
  | pointer
  | string (size : Nat)
  | struct (size k : Nat) (dvd : 2 ^ k ∣ size)
  | array (elem : VarType) (nelems : Nat)
  | named (t : VarType)

namespace VarType

/-- `ctf_type_size` -/
def sizeof : VarType → Nat
  | int k => 2 ^ k
  | enum => 4
  | pointer => 8
  | string size => size
  | struct size _ _ => size
  | array elem nelems => nelems * elem.sizeof
  | named t => t.sizeof

/-- The binary logarithm of the alignment that C gives the type. -/
def alignLog : VarType → Nat
  | int k => k
  | enum => 2
  | pointer => 3
  | string _ => 0
  | struct _ k _ => k
  | array elem _ => elem.alignLog
  | named t => t.alignLog

theorem align_dvd_sizeof (t : VarType) : 2 ^ t.alignLog ∣ t.sizeof := by
  induction t with
  | int _ | enum | pointer => exact Nat.dvd_refl _
  | string size => exact Nat.one_dvd _
  | struct size k dvd => exact dvd
  | array elem nelems ih => exact Nat.dvd_mul_left_of_dvd ih nelems
  | named t ih => exact ih

/-- `dt_type_basetype` -/
def basetype : VarType → VarType
  | named t => t.basetype
  | t => t

/-- The alignment that `dt_node_decl` chooses; `none` is `D_DECL_INCOMPLETE`. -/
def declAlignment (t : VarType) : Option (BitVec 32) :=
  match t.basetype with
  | int _ | enum | pointer => some (BitVec.ofNat 32 t.sizeof)
  | string _ | array _ _ =>
    match t with
    | string _ => some 1
    | array elem _ => some (BitVec.ofNat 32 elem.sizeof)
    -- `ctf_array_info` does not resolve the name
    | _ => some 8
  | struct size _ _ => if size ≠ 0 then some 8 else none
  | named _ => none

end VarType

/-! ## Offsets -/

/-- `(dh_nextoff + (alignment - 1)) & ~(alignment - 1)` -/
def roundOffset (nextoff alignment : BitVec 32) : BitVec 32 :=
  (nextoff + (alignment - 1)) &&& ~~~(alignment - 1)

/-- `dh_nextoff`, which is also the size of the map, and the variables with their offsets. -/
structure Layout where
  nextoff : BitVec 32
  vars : List (Nat × VarType)

/-- `dt_ident_set_storage` -/
def dtIdentSetStorage (dhp : Layout) (t : VarType) (alignment size : BitVec 32) : Layout :=
  let offset := roundOffset dhp.nextoff alignment
  ⟨offset + size, (offset.toNat, t) :: dhp.vars⟩

/-- The declaration of a variable. -/
def dtNodeDecl (dhp : Layout) (t : VarType) : Option Layout :=
  t.declAlignment.map fun alignment =>
    dtIdentSetStorage dhp t alignment (BitVec.ofNat 32 t.sizeof)

def noVars : Layout := ⟨0, []⟩

/-- The layouts from the given one on, after each of the declarations. -/
def history (dhp : Layout) : List VarType → Option (List Layout)
  | [] => some [dhp]
  | t :: ts => do
    let dhp' ← dtNodeDecl dhp t
    let rest ← history dhp' ts
    some (dhp :: rest)

/-! ## Sound layouts -/

/-- The byte at `b` is part of a variable. -/
def InVar (x : Nat × VarType) (b : Nat) : Prop := x.1 ≤ b ∧ b < x.1 + x.2.sizeof

structure Layout.Sound (dhp : Layout) : Prop where
  disjoint : dhp.vars.Pairwise fun x y => ∀ b, InVar x b → ¬ InVar y b
  inside : ∀ x ∈ dhp.vars, ∀ b, InVar x b → b < dhp.nextoff.toNat
  aligned : ∀ x ∈ dhp.vars, 2 ^ x.2.alignLog ≤ 8 → 2 ^ x.2.alignLog ∣ x.1

/-- The end of the last variable that is not empty. -/
def dataEnd : List (Nat × VarType) → Nat
  | [] => 0
  | x :: vars => if x.2.sizeof = 0 then dataEnd vars else max (x.1 + x.2.sizeof) (dataEnd vars)

theorem lt_dataEnd {vars : List (Nat × VarType)} {x : Nat × VarType} (hx : x ∈ vars) {b : Nat}
    (hb : InVar x b) : b < dataEnd vars := by
  obtain ⟨_, h2⟩ := hb
  induction vars with
  | nil => cases hx
  | cons y vars ih =>
    rw [dataEnd]
    rcases mem_cons.mp hx with rfl | hx
    · rw [if_neg (by omega)]
      exact Nat.lt_of_lt_of_le h2 (Nat.le_max_left _ _)
    · have := ih hx
      split
      · exact this
      · exact Nat.lt_of_lt_of_le this (Nat.le_max_right _ _)

/-- The last byte of the data. -/
theorem exists_inVar_of_dataEnd {vars : List (Nat × VarType)} (h : 0 < dataEnd vars) :
    ∃ x ∈ vars, InVar x (dataEnd vars - 1) := by
  induction vars with
  | nil => cases h
  | cons y vars ih =>
    rw [dataEnd] at h ⊢
    split at h
    · next hzero =>
      rw [if_pos hzero]
      obtain ⟨x, hx, hin⟩ := ih h
      exact ⟨x, mem_cons_of_mem _ hx, hin⟩
    · next hne =>
      rw [if_neg hne]
      rcases Nat.le_total (dataEnd vars) (y.1 + y.2.sizeof) with hle | hle
      · refine ⟨y, by simp, ?_⟩
        exact ⟨by omega, by omega⟩
      · rw [Nat.max_eq_right hle] at h ⊢
        obtain ⟨x, hx, hin⟩ := ih h
        exact ⟨x, mem_cons_of_mem _ hx, hin⟩

/-- `x` without the bits of `mask`. -/
def clearBits (x mask : Nat) : Nat := x - (x &&& mask)

/-- Whether a variable of `size` bytes fits behind `nextoff`, if the data ends at `data`. -/
def FitsAt (data nextoff alignment size : Nat) : Prop :=
  let mask := alignment - 1
  let sum := nextoff + mask
  if alignment = 0 then data = 0 ∧ size < 2 ^ 32
  else if sum < 2 ^ 32 then clearBits sum mask + size < 2 ^ 32
  -- the sum wraps: only empty variables can have left room between the data and `nextoff`
  else data ≤ clearBits (sum - 2 ^ 32) mask ∧ clearBits (sum - 2 ^ 32) mask + size < 2 ^ 32

instance (data nextoff alignment size : Nat) : Decidable (FitsAt data nextoff alignment size) := by
  unfold FitsAt
  infer_instance

/-- A declaration fits into the layout that it finds. -/
def Layout.Fits (dhp : Layout) (t : VarType) : Prop :=
  ∀ alignment ∈ t.declAlignment,
    FitsAt (dataEnd dhp.vars) dhp.nextoff.toNat alignment.toNat t.sizeof

/-- Every declaration of a sequence does. -/
def AllFit (dhp : Layout) : List VarType → Prop
  | [] => True
  | t :: ts => dhp.Fits t ∧ ∀ dhp' ∈ dtNodeDecl dhp t, AllFit dhp' ts

-- the general instances would try all values of the alignment
instance (dhp : Layout) (t : VarType) : Decidable (dhp.Fits t) :=
  match h : t.declAlignment with
  | none => isTrue (by simp [Layout.Fits, h])
  | some alignment => decidable_of_iff
      (FitsAt (dataEnd dhp.vars) dhp.nextoff.toNat alignment.toNat t.sizeof)
      (by simp [Layout.Fits, h])

instance decidableAllFit : ∀ (dhp : Layout) (ts : List VarType), Decidable (AllFit dhp ts)
  | _, [] => isTrue trivial
  | dhp, t :: ts =>
    have := fun dhp' => decidableAllFit dhp' ts
    inferInstanceAs (Decidable (dhp.Fits t ∧ ∀ dhp' ∈ dtNodeDecl dhp t, AllFit dhp' ts))

/-! ## Rounding

`(nextoff + (alignment - 1)) & ~(alignment - 1)` in 32 bits, for any alignment: it need not be a
power of two, and may be 0. -/

variable {alignment : BitVec 32}

/-- What is left of `x` after masking. -/
theorem toNat_and_not (x m : BitVec 32) : (x &&& ~~~m).toNat = clearBits x.toNat m.toNat := by
  have hdisj : (x &&& ~~~m) &&& (x &&& m) = 0#32 := by
    ext i hi
    cases hm : m[i] <;> simp [hm]
  have hor : (x &&& ~~~m) ||| (x &&& m) = x := by
    ext i hi
    cases hm : m[i] <;> simp [hm]
  have hsum : x - (x &&& m) = x &&& ~~~m := by
    have hadd := add_eq_or_of_and_eq_zero _ _ hdisj
    rw [hor] at hadd
    nth_rewrite 1 [← hadd]
    exact add_sub_cancel _ _
  rw [← hsum, toNat_sub_of_le and_le_left, toNat_and, clearBits]

/-- The offset in unbounded arithmetic. -/
theorem toNat_roundOffset (nextoff alignment : BitVec 32) :
    (roundOffset nextoff alignment).toNat =
      let mask := alignment.toNat - 1
      if alignment.toNat = 0 then 0
      else if nextoff.toNat + mask < 2 ^ 32 then clearBits (nextoff.toNat + mask) mask
      else clearBits (nextoff.toNat + mask - 2 ^ 32) mask := by
  have hlt := nextoff.isLt
  have halt := alignment.isLt
  have hmask : (alignment - 1).toNat = (2 ^ 32 - 1 + alignment.toNat) % 2 ^ 32 := by
    rw [toNat_sub]
    rfl
  unfold roundOffset
  rw [toNat_and_not, toNat_add, hmask]
  dsimp only
  split
  · next hzero =>
    rw [hzero, Nat.add_zero, Nat.mod_eq_of_lt (show 2 ^ 32 - 1 < 2 ^ 32 by decide), clearBits,
      and_two_pow_sub_one_eq_mod, mod_mod, Nat.sub_self]
  · rw [show (2 ^ 32 - 1 + alignment.toNat) % 2 ^ 32 = alignment.toNat - 1 by omega]
    split
    · next hsum => rw [Nat.mod_eq_of_lt hsum]
    · rw [show (nextoff.toNat + (alignment.toNat - 1)) % 2 ^ 32 =
        nextoff.toNat + (alignment.toNat - 1) - 2 ^ 32 by omega]

/-- A power of two up to eight that divides the alignment divides the offset. -/
theorem dvd_roundOffset (nextoff : BitVec 32) {k : Nat} (hk : k ≤ 3)
    (hdvd : 2 ^ k ∣ alignment.toNat) : 2 ^ k ∣ (roundOffset nextoff alignment).toNat := by
  have hm : (alignment - 1).toNat % 2 ^ k = 2 ^ k - 1 := by
    rw [toNat_sub]
    rw [show (1 : BitVec 32).toNat = 1 from rfl]
    obtain rfl | rfl | rfl | rfl : k = 0 ∨ k = 1 ∨ k = 2 ∨ k = 3 := by omega
    all_goals omega
  have hmask : (~~~(alignment - 1)).toNat % 2 ^ k = 0 := by
    rw [toNat_not]
    obtain rfl | rfl | rfl | rfl : k = 0 ∨ k = 1 ∨ k = 2 ∨ k = 3 := by omega
    all_goals omega
  unfold roundOffset
  rw [Nat.dvd_iff_mod_eq_zero, toNat_and, Nat.and_mod_two_pow, hmask, Nat.and_zero]

/-- The alignment is a multiple of that of C, up to eight bytes. -/
theorem VarType.align_dvd_declAlignment {t : VarType}
    (h : t.declAlignment = some alignment) (hk : t.alignLog ≤ 3) :
    2 ^ t.alignLog ∣ alignment.toNat := by
  have height : 2 ^ t.alignLog ∣ 8 := Nat.pow_dvd_pow 2 hk
  have hwidth : 2 ^ t.alignLog ∣ 2 ^ 32 := Nat.pow_dvd_pow 2 (by omega)
  have hsize : 2 ^ t.alignLog ∣ (BitVec.ofNat 32 t.sizeof).toNat := by
    rw [toNat_ofNat, dvd_mod_iff hwidth]
    exact t.align_dvd_sizeof
  -- an array is aligned like its elements, unless it has a name
  have harray : ∀ alignment, (match t with
      | string _ => some (1)
      | array elem _ => some (BitVec.ofNat 32 elem.sizeof)
      | _ => some 8) = some alignment → 2 ^ t.alignLog ∣ alignment.toNat := by
    intro alignment h
    cases t with
    | string size => exact Nat.one_dvd _
    | array elem nelems =>
      obtain rfl := some.inj h
      rw [toNat_ofNat, dvd_mod_iff hwidth]
      exact elem.align_dvd_sizeof
    | _ => exact some.inj h ▸ height
  unfold declAlignment at h
  split at h
  · exact some.inj h ▸ hsize
  · exact some.inj h ▸ hsize
  · exact some.inj h ▸ hsize
  · exact harray alignment h
  · exact harray alignment h
  · split at h
    · exact some.inj h ▸ height
    · cases h
  · cases h

/-! ## One declaration

A layout stays sound exactly if the new variable is put behind all data and ends below the limit of
32 bits. -/

section
variable {dhp dhp' : Layout} {t : VarType}

theorem dtNodeDecl_eq (h : dtNodeDecl dhp t = some dhp') : ∃ alignment,
    t.declAlignment = some alignment ∧
      dhp' = dtIdentSetStorage dhp t alignment (BitVec.ofNat 32 t.sizeof) := by
  obtain ⟨alignment, ha, rfl⟩ := map_eq_some_iff.mp h
  exact ⟨alignment, ha, rfl⟩

/-- A declaration puts its variable behind the data and below `2 ^ 32`. -/
def Layout.Places (dhp : Layout) (t : VarType) : Prop :=
  ∀ alignment ∈ t.declAlignment, dataEnd dhp.vars ≤ (roundOffset dhp.nextoff alignment).toNat ∧
    (roundOffset dhp.nextoff alignment).toNat + t.sizeof < 2 ^ 32

theorem Layout.Sound.dataEnd_le (hsound : dhp.Sound) : dataEnd dhp.vars ≤ dhp.nextoff.toNat := by
  rcases Nat.eq_zero_or_pos (dataEnd dhp.vars) with hzero | hpos
  · omega
  · obtain ⟨x, hx, hin⟩ := exists_inVar_of_dataEnd hpos
    have := hsound.inside x hx _ hin
    omega

/-- Without a carry the mask never takes away more than was added. -/
theorem le_clearBits (x mask : Nat) : x ≤ clearBits (x + mask) mask := by
  have : (x + mask) &&& mask ≤ mask := Nat.and_le_right
  unfold clearBits
  omega

/-- In a sound layout the variables that fit are those that are placed. -/
theorem Layout.Sound.places_iff (hsound : dhp.Sound) : dhp.Places t ↔ dhp.Fits t := by
  refine forall₂_congr fun alignment _ => ?_
  rw [toNat_roundOffset]
  unfold FitsAt
  dsimp only
  split
  · rw [Nat.le_zero_eq, Nat.zero_add]
  · split
    · have hle := Nat.le_trans hsound.dataEnd_le
        (le_clearBits dhp.nextoff.toNat (alignment.toNat - 1))
      exact and_iff_right hle
    · exact Iff.rfl

/-- A variable that is placed keeps the layout sound. -/
theorem Layout.Sound.declare (hsound : dhp.Sound) (hplaces : dhp.Places t)
    (h : dtNodeDecl dhp t = some dhp') : dhp'.Sound := by
  obtain ⟨alignment, ha, rfl⟩ := dtNodeDecl_eq h
  obtain ⟨_, hfits⟩ := hplaces alignment ha
  unfold dtIdentSetStorage
  generalize hoffset : roundOffset dhp.nextoff alignment = offset at *
  have hnext : (offset + BitVec.ofNat 32 t.sizeof).toNat = offset.toNat + t.sizeof := by
    rw [toNat_add, toNat_ofNat, mod_eq_of_lt (show t.sizeof < 2 ^ 32 by omega),
      mod_eq_of_lt hfits]
  refine ⟨pairwise_cons.mpr ⟨?_, hsound.disjoint⟩, ?_, ?_⟩
  · intro y hy b hb hyb
    have hlt := lt_dataEnd hy hyb
    have hle : offset.toNat ≤ b := hb.1
    omega
  · intro x hx b hb
    rw [hnext]
    rcases mem_cons.mp hx with rfl | hx
    · exact hb.2
    · have := lt_dataEnd hx hb
      omega
  · intro x hx halign
    rcases mem_cons.mp hx with rfl | hx
    · have hk : t.alignLog ≤ 3 := (Nat.pow_le_pow_iff_right (by decide)).mp
        (show 2 ^ t.alignLog ≤ 2 ^ 3 from halign)
      exact hoffset ▸ dvd_roundOffset _ hk (VarType.align_dvd_declAlignment ha hk)
    · exact hsound.aligned x hx halign

/-- A layout that is sound after a declaration has its variable placed. -/
theorem Layout.Sound.places (h : dtNodeDecl dhp t = some dhp') (hsound : dhp'.Sound) :
    dhp.Places t := by
  obtain ⟨alignment, ha, rfl⟩ := dtNodeDecl_eq h
  intro alignment' ha'
  obtain rfl : alignment = alignment' := some.inj (ha.symm.trans ha')
  let offset := roundOffset dhp.nextoff alignment
  have hnew : ∀ b, InVar (offset.toNat, t) b → b < (offset + BitVec.ofNat 32 t.sizeof).toNat :=
    fun b hb => hsound.inside _ mem_cons_self b hb
  have hfits : offset.toNat + t.sizeof < 2 ^ 32 := by
    rcases Nat.eq_zero_or_pos t.sizeof with hzero | hpos
    · omega
    · have := hnew (offset.toNat + t.sizeof - 1) ⟨by dsimp only; omega, by dsimp only; omega⟩
      omega
  refine ⟨?_, hfits⟩
  by_contra hbelow
  -- the last byte of the data is below the end of the map, and so part of the new variable
  obtain ⟨x, hx, hin⟩ := exists_inVar_of_dataEnd (show 0 < dataEnd dhp.vars by omega)
  have hinside := hsound.inside x (mem_cons_of_mem _ hx) _ hin
  have hnext : (offset + BitVec.ofNat 32 t.sizeof).toNat = offset.toNat + t.sizeof := by
    rw [toNat_add, toNat_ofNat, mod_eq_of_lt (show t.sizeof < 2 ^ 32 by omega),
      mod_eq_of_lt hfits]
  have hbyte : dataEnd dhp.vars - 1 < offset.toNat + t.sizeof := hnext ▸ hinside
  refine (pairwise_cons.mp hsound.disjoint).1 x hx (dataEnd dhp.vars - 1) ⟨?_, ?_⟩ hin
  · dsimp only
    omega
  · exact hbyte

end

/-! ## Sequences of declarations -/

theorem sound_noVars : noVars.Sound :=
  ⟨List.Pairwise.nil, fun _ hx => (nomatch hx), fun _ hx => (nomatch hx)⟩

theorem head_mem_history {dhp : Layout} {ts : List VarType} {dhps : List Layout}
    (h : history dhp ts = some dhps) : dhp ∈ dhps := by
  cases ts with
  | nil => simp [← some.inj h]
  | cons t ts =>
    simp only [history, bind_eq_bind, bind_eq_some_iff] at h
    obtain ⟨-, -, _, -, hrest⟩ := h
    simp [← some.inj hrest]

theorem history_sound_iff_of {dhp : Layout} (hsound : dhp.Sound) {ts : List VarType}
    {dhps : List Layout} (h : history dhp ts = some dhps) :
    (∀ L ∈ dhps, L.Sound) ↔ AllFit dhp ts := by
  induction ts generalizing dhp dhps with
  | nil =>
    obtain rfl := some.inj h
    simp [AllFit, hsound]
  | cons t ts ih =>
    simp only [history, bind_eq_bind, bind_eq_some_iff] at h
    obtain ⟨dhp', hdecl, _, hrest, heq⟩ := h
    obtain rfl := some.inj heq
    constructor
    · intro hall
      have hdhp' := hall dhp' (mem_cons_of_mem _ (head_mem_history hrest))
      refine ⟨hsound.places_iff.mp (hdhp'.places hdecl), fun L hL => ?_⟩
      obtain rfl : dhp' = L := some.inj (hdecl.symm.trans hL)
      exact (ih hdhp' hrest).mp fun L hL => hall L (mem_cons_of_mem _ hL)
    · rintro ⟨hfits, hnext⟩
      have hplaces := hsound.places_iff.mpr hfits
      exact forall_mem_cons.mpr
        ⟨hsound, (ih (hsound.declare hplaces hdecl) hrest).mpr (hnext dhp' hdecl)⟩

/-- **Storage**: in a sequence of declarations that are all accepted, the layout is sound after each
of them if and only if each of them fits into the layout before it. -/
theorem history_sound_iff {ts : List VarType} {dhps : List Layout}
    (h : history noVars ts = some dhps) : (∀ dhp ∈ dhps, dhp.Sound) ↔ AllFit noVars ts :=
  history_sound_iff_of sound_noVars h

/-- `int a; struct { int x, y, z; } b[3]; char c;` -/
def smallVars : List VarType := [.int 2, .array (.struct 12 2 (by decide)) 3, .int 0]

theorem small_vars_sound : ∃ dhps, history noVars smallVars = some dhps ∧
    ∀ dhp ∈ dhps, dhp.Sound := by
  obtain ⟨dhps, h⟩ := isSome_iff_exists.mp
    (show (history noVars smallVars).isSome = true by decide)
  exact ⟨dhps, h, (history_sound_iff h).mpr (by decide)⟩

/-- `int a; char b[0xffffffff]; int c;` -/
def largeVars : List VarType := [.int 2, .array (.int 0) 0xffffffff, .int 2]

/-- `b` and `c` have the same offset, and the map has eight bytes. -/
theorem large_vars_overlap : ∃ dhps dhp, history noVars largeVars = some dhps ∧ dhp ∈ dhps ∧
    dhp = ⟨8, [(4, .int 2), (4, .array (.int 0) 0xffffffff), (0, .int 2)]⟩ ∧ ¬ dhp.Sound := by
  have hsize : (VarType.array (.int 0) 0xffffffff).sizeof = 0xffffffff := rfl
  refine ⟨[noVars, ⟨4, [(0, .int 2)]⟩, ⟨3, [(4, .array (.int 0) 0xffffffff), (0, .int 2)]⟩,
    ⟨8, [(4, .int 2), (4, .array (.int 0) 0xffffffff), (0, .int 2)]⟩], _, rfl, by simp, rfl,
    fun h => ?_⟩
  refine (pairwise_cons.mp h.disjoint).1 (4, .array (.int 0) 0xffffffff) (by simp) 4
    ⟨by decide, by decide⟩ ⟨Nat.le_refl 4, ?_⟩
  rw [hsize]
  omega

end DTrace.Parser
