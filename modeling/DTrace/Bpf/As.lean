import Mathlib.Data.BitVec
import DTrace.Lib.LabelCode

/-!
# The assembler

`dt_as` makes a program out of the list of instructions that the code generator has emitted. Until
then a branch has the number of a label in its offset. The first pass leaves out the NOPs that are
there for their labels only, and notes for every label how many instructions come before it; the
second one puts the distance in the offset of every branch.

* `kept` are the instructions that stay, and `fill_labels` says that the place of a label is that of
  the first instruction kept from there on.
* `branch_lands_iff` says when the branches go there: the offset has 16 bits, so no branch may be
  longer, and something has to be left after the label.
-/

namespace DTrace.Bpf

open LabelCode Option

/-- `struct bpf_insn` -/
structure BpfInsn where
  code : BitVec 8
  dstReg : BitVec 4
  srcReg : BitVec 4
  off : BitVec 16
  imm : BitVec 32
  deriving DecidableEq, Repr

namespace BpfInsn

/-- `BPF_CLASS(code) == BPF_JMP` -/
def isJmp (x : BpfInsn) : Bool := x.code &&& 0x07 = 0x05

/-- `BPF_IS_NOP` -/
def isNop (x : BpfInsn) : Bool := x.code = 0x05 && x.off = 0

/-- A call or an exit. -/
def isCallOrExit (x : BpfInsn) : Bool := x.code &&& 0xf0 = 0x80 || x.code &&& 0xf0 = 0x90

/-- What the second pass relocates. -/
def isBranch (x : BpfInsn) : Bool := x.isJmp && !x.isNop && !x.isCallOrExit

/-- The label of a branch, which is in its offset. The assertion compares the signed offset with the
unsigned `dl_label`, so that a negative one is above every label. -/
def label (x : BpfInsn) : Nat := (x.off.signExtend 32).toNat

end BpfInsn

abbrev IrList := Code BpfInsn

/-! ## The two passes -/

/-- A NOP that is there for its label only. -/
def elided (dip : Node BpfInsn) : Bool := dip.label ≠ 0 && dip.insn.isNop

structure Filled where
  i : Nat
  buf : List BpfInsn
  labels : Nat → Nat

def fillStep (st : Filled) (dip : Node BpfInsn) : Filled where
  labels := if dip.label ≠ 0 then Function.update st.labels dip.label st.i else st.labels
  buf := if elided dip then st.buf else st.buf ++ [dip.insn]
  i := if elided dip then st.i else st.i + 1

/-- The first pass, after `calloc` of both tables. -/
def fill (ir : IrList) : Filled := ir.foldl fillStep ⟨0, [], fun _ => 0⟩

/-- The second pass, from instruction `i` on; `none` when its assertion fails. -/
def relocate (labels : Nat → Nat) (dlLabel : Nat) : Nat → List BpfInsn → Option (List BpfInsn)
  | _, [] => some []
  | i, instr :: rest =>
    if instr.isBranch then
      if instr.label < dlLabel then
        (relocate labels dlLabel (i + 1) rest).map
          ({ instr with off := BitVec.ofInt 16 ((labels instr.label : Int) - i - 1) } :: ·)
      else none
    else (relocate labels dlLabel (i + 1) rest).map (instr :: ·)

/-- `dlLabel` is the number of the next label. -/
def dtAs (dlLabel : Nat) (ir : IrList) : Option (List BpfInsn) :=
  relocate (fill ir).labels dlLabel 0 (fill ir).buf

/-! ## What is kept

A NOP that is there for its label only is elided, and the label then belongs to the next instruction
that is kept. Places count the instructions that are kept. -/

def kept (ir : IrList) : List BpfInsn := (ir.filter (!elided ·)).map Node.insn

@[simp] theorem kept_nil : kept [] = [] := rfl

theorem kept_append (ir ir' : IrList) : kept (ir ++ ir') = kept ir ++ kept ir' := by
  simp [kept]

theorem kept_cons (dip : Node BpfInsn) (ir : IrList) :
    kept (dip :: ir) = if elided dip then kept ir else dip.insn :: kept ir := by
  cases h : elided dip <;> simp [kept, h]

/-- The buffer of the first pass has the instructions that are kept, in order. -/
theorem fill_buf (ir : IrList) (st : Filled) : (ir.foldl fillStep st).buf = st.buf ++ kept ir := by
  induction ir generalizing st with
  | nil => simp
  | cons dip ir ih =>
    rw [List.foldl_cons, ih, kept_cons]
    cases h : elided dip <;> simp [fillStep, h]

/-- The place of a label: the number of instructions kept before it. -/
def place (ir rest : IrList) : Nat := (kept ir).length - (kept rest).length

variable {rest ir : IrList} {dlLabel : Nat} (n : Nat)

/-- The place of what follows `pre`. -/
theorem place_eq {pre : IrList} : place (pre ++ rest) rest = (kept pre).length := by
  rw [place, kept_append, List.length_append, Nat.add_sub_cancel]

/-- A label that is not defined keeps its entry. -/
theorem foldl_labels_of_not_mem {l : Nat} (h : l ∉ LabelCode.labels ir) (st : Filled) :
    (ir.foldl fillStep st).labels l = st.labels l := by
  induction ir generalizing st with
  | nil => rfl
  | cons dip ir ih =>
    rw [List.foldl_cons]
    by_cases h0 : dip.label = 0
    · have hir : l ∉ LabelCode.labels ir := by simpa only [LabelCode.labels, h0, if_true] using h
      rw [ih hir]
      simp [fillStep, h0]
    · simp only [LabelCode.labels, h0, if_false, List.mem_cons, not_or] at h
      rw [ih h.2]
      simp [fillStep, h0, Function.update_of_ne h.1]

/-- The label table has the place of a label that is defined once. -/
theorem foldl_labels {l : Nat} (hl : l ≠ 0) (honce : (LabelCode.labels ir).count l ≤ 1)
    (h : lookup l ir = some rest) (st : Filled) :
    (ir.foldl fillStep st).labels l = st.i + place ir rest := by
  induction ir generalizing st with
  | nil => cases h
  | cons dip ir ih =>
    rw [List.foldl_cons]
    rw [lookup] at h
    split at h
    · next hdip =>
      -- the label is defined here, and not again
      obtain rfl := some.inj h
      have hnot : l ∉ LabelCode.labels ir := by
        rw [show dip :: ir = ⟨l, dip.insn⟩ :: ir by rw [← hdip], labels_cons_pos _ _ hl,
          List.count_cons_self] at honce
        exact List.count_eq_zero.mp (by omega)
      rw [foldl_labels_of_not_mem hnot, place]
      simp [fillStep, hdip, hl]
    · have htail : (LabelCode.labels ir).count l ≤ 1 :=
        le_trans (((labels_append [dip] ir).symm ▸ List.sublist_append_right _ _).count_le l) honce
      obtain ⟨_, rfl⟩ := lookup_suffix h
      rw [ih htail h, place_eq, ← List.cons_append, place_eq, kept_cons]
      cases he : elided dip with
      | true => simp [fillStep, he]
      | false =>
        simp only [fillStep, he, Bool.false_eq_true, if_false, List.length_cons]
        omega

/-! ## The offsets

An offset is computed as an integer and cut to 16 bits by the assignment to `off`. -/

/-- What the second pass makes of instruction `i`. -/
def relocated (labels : Nat → Nat) (i : Nat) (instr : BpfInsn) : BpfInsn :=
  if instr.isBranch then
    { instr with off := BitVec.ofInt 16 ((labels instr.label : Int) - i - 1) }
  else instr

/-- The second pass changes instruction by instruction; with labels below `dlLabel` its assertion
holds. -/
theorem relocate_eq {labels : Nat → Nat} (i : Nat) {buf : List BpfInsn}
    (h : ∀ x ∈ buf, x.isBranch → x.label < dlLabel) :
    relocate labels dlLabel i buf = some (buf.mapIdx fun j => relocated labels (i + j)) := by
  induction buf generalizing i with
  | nil => rfl
  | cons x buf ih =>
    have hrest := ih (i + 1) fun y hy => h y (List.mem_cons_of_mem x hy)
    have hshift : (buf.mapIdx fun j => relocated labels (i + 1 + j)) =
        buf.mapIdx fun j => relocated labels (i + (j + 1)) := by
      congr 1
      funext j
      rw [Nat.add_assoc, Nat.add_comm 1]
    rw [relocate, hrest, hshift, List.mapIdx_cons, Nat.add_zero]
    split
    · next hb =>
      rw [if_pos (h x List.mem_cons_self hb)]
      simp only [relocated, hb, if_true, map_some]
    · next hb => simp only [relocated, hb, if_false, map_some, Bool.false_eq_true]

/-- Every label comes from the list's counter, and every branch has a label that is defined at
one place. -/
structure Labelled (dlLabel : Nat) (ir : IrList) : Prop where
  below : ∀ l ∈ LabelCode.labels ir, l < dlLabel
  once : ∀ dip ∈ ir, dip.insn.isBranch → (LabelCode.labels ir).count dip.insn.label = 1

namespace Labelled

variable {dlLabel : Nat} {ir : IrList} (h : Labelled dlLabel ir)
include h

theorem once_of_mem_kept {x : BpfInsn} (hx : x ∈ kept ir) (hb : x.isBranch) :
    (LabelCode.labels ir).count x.label = 1 := by
  obtain ⟨dip, hdip, rfl⟩ := List.mem_map.mp hx
  exact h.once dip (List.mem_filter.mp hdip).1 hb

/-- Both passes together. -/
theorem dtAs_eq :
    dtAs dlLabel ir = some ((kept ir).mapIdx (relocated (fill ir).labels)) := by
  have hbuf : (fill ir).buf = kept ir := fill_buf ir _
  rw [dtAs, hbuf, relocate_eq 0 fun x hx hb => h.below _ ?_]
  · simp only [Nat.zero_add]
  · exact List.count_pos_iff.mp (by rw [h.once_of_mem_kept hx hb]; decide)

end Labelled

/-- The table has the right place for the label of every branch. -/
theorem Labelled.labels_eq (h : Labelled dlLabel ir) {y : BpfInsn} (hy : y ∈ kept ir)
    (hb : y.isBranch) (hl : lookup y.label ir = some rest) :
    (fill ir).labels y.label = place ir rest := by
  have honce := h.once_of_mem_kept hy hb
  have hne : y.label ≠ 0 := by
    intro h0
    rw [h0, List.count_eq_zero.mpr (zero_not_mem_labels ir)] at honce
    cases honce
  rw [fill, foldl_labels hne honce.le hl, Nat.zero_add]

/-! ## Where the branches go

`Lands` is about the program: the branch goes to the instructions that stand behind its label in the
list. `Reaches` is about the list alone. -/

/-- An instruction of the program and the one of the list it comes from: only the offset of a branch
is another one. -/
def SameInsn (x y : BpfInsn) : Prop := x = y ∨ y.isBranch ∧ x = { y with off := x.off }

/-- The branch at `pc` goes to the first instruction that is kept from its label on. -/
def Lands (ir : IrList) (buf : List BpfInsn) (pc : Nat) (rest : IrList) : Prop :=
  ∃ x target : _, buf[pc]? = some x ∧ (pc : Int) + 1 + x.off.toInt = (target : Nat) ∧
    target < buf.length ∧ (kept ir).drop target = kept rest

/-- The distance from instruction `pc` to the label, as the offset counts it. -/
def distance (ir rest : IrList) (pc : Nat) : Int := (place ir rest : Int) - pc - 1

/-- The distance fits the 16 bits of an offset, and something is kept behind the label. -/
def Reaches (ir : IrList) (pc : Nat) (rest : IrList) : Prop :=
  -2 ^ 15 ≤ distance ir rest pc ∧ distance ir rest pc < 2 ^ 15 ∧ kept rest ≠ []

/-- What 16 bits can say. -/
theorem toInt_ofInt_eq_iff (d : Int) :
    (BitVec.ofInt 16 d).toInt = d ↔ -2 ^ 15 ≤ d ∧ d < 2 ^ 15 := by
  rw [BitVec.toInt_ofInt, Int.bmod_def]
  omega

theorem place_lt_iff {l : Nat} (hl : lookup l ir = some rest) :
    place ir rest < (kept ir).length ↔ kept rest ≠ [] := by
  obtain ⟨-, rfl⟩ := lookup_suffix hl
  rw [place_eq, kept_append, List.length_append, ← List.length_pos_iff]
  omega

theorem drop_place {l : Nat} (hl : lookup l ir = some rest) :
    (kept ir).drop (place ir rest) = kept rest := by
  obtain ⟨-, rfl⟩ := lookup_suffix hl
  rw [place_eq, kept_append, List.drop_left]

/-- No other place has the same instructions from there on. -/
theorem eq_place_of_drop {target : Nat} (ht : target < (kept ir).length)
    (h : (kept ir).drop target = kept rest) : target = place ir rest := by
  have hlen := congrArg List.length h
  rw [List.length_drop] at hlen
  unfold place
  omega

/-- One branch. -/
theorem Labelled.lands_iff (h : Labelled dlLabel ir) {pc : Nat} {y : BpfInsn}
    (hy : (kept ir)[pc]? = some y) (hb : y.isBranch) (hl : lookup y.label ir = some rest) :
    Lands ir ((kept ir).mapIdx (relocated (fill ir).labels)) pc rest ↔ Reaches ir pc rest := by
  have hx : ((kept ir).mapIdx (relocated (fill ir).labels))[pc]? =
      some { y with off := BitVec.ofInt 16 (distance ir rest pc) } := by
    rw [List.getElem?_mapIdx, hy, map_some, relocated, if_pos hb,
      h.labels_eq (List.mem_of_getElem? hy) hb hl]
    rfl
  have hfits := toInt_ofInt_eq_iff (distance ir rest pc)
  constructor
  · rintro ⟨x, _, hget, hto, hlt, hdrop⟩
    obtain rfl := some.inj (hx.symm.trans hget)
    rw [List.length_mapIdx] at hlt
    -- the target is the place of the label, so the offset was not cut
    obtain rfl := eq_place_of_drop hlt hdrop
    have hoff : (BitVec.ofInt 16 (distance ir rest pc)).toInt = distance ir rest pc := by
      dsimp only at hto
      show _ = (place ir rest : Int) - pc - 1
      omega
    exact ⟨(hfits.mp hoff).1, (hfits.mp hoff).2, (place_lt_iff hl).mp hlt⟩
  · rintro ⟨hlow, hhigh, hne⟩
    have hoff := hfits.mpr ⟨hlow, hhigh⟩
    refine ⟨_, place ir rest, hx, ?_, ?_, drop_place hl⟩
    · dsimp only
      rw [hoff, distance]
      omega
    · rw [List.length_mapIdx]
      exact (place_lt_iff hl).mpr hne

theorem sameInsn_relocated (labels : Nat → Nat) (i : Nat) (y : BpfInsn) :
    SameInsn (relocated labels i y) y := by
  by_cases hb : y.isBranch
  · rw [relocated, if_pos hb]
    exact .inr ⟨hb, rfl⟩
  · rw [relocated, if_neg hb]
    exact .inl rfl

/-- **Every branch lands on its label exactly when none is longer than its offset can say** and
something is left behind every label that a branch goes to. The instructions keep their order. -/
theorem branch_lands_iff (dlLabel : Nat) (ir : IrList) (h : Labelled dlLabel ir) :
    ∃ buf, dtAs dlLabel ir = some buf ∧ List.Forall₂ SameInsn buf (kept ir) ∧
      ((∀ pc y, (kept ir)[pc]? = some y → y.isBranch →
          ∃ rest, lookup y.label ir = some rest ∧ Lands ir buf pc rest) ↔
        ∀ pc y, (kept ir)[pc]? = some y → y.isBranch →
          ∃ rest, lookup y.label ir = some rest ∧ Reaches ir pc rest) := by
  refine ⟨_, h.dtAs_eq, ?_, ?_⟩
  · rw [List.forall₂_iff_get]
    refine ⟨List.length_mapIdx, fun i h1 h2 => ?_⟩
    rw [List.get_eq_getElem, List.getElem_mapIdx]
    exact sameInsn_relocated _ i _
  · constructor
    all_goals
      intro hall pc y hy hb
      obtain ⟨rest, hl, hrest⟩ := hall pc y hy hb
    · exact ⟨rest, hl, (h.lands_iff hy hb hl).mp hrest⟩
    · exact ⟨rest, hl, (h.lands_iff hy hb hl).mpr hrest⟩

/-! ## One branch

A branch over `n` instructions, as the shortest list that goes wrong. -/

def jmpTo (l : BitVec 16) : BpfInsn := ⟨0x05, 0, 0, l, 0⟩

def exitInsn : BpfInsn := ⟨0x95, 0, 0, 0, 0⟩

/-- A branch over `n` instructions to an elided NOP and the instruction after it. -/
def branchOver (n : Nat) : IrList :=
  ⟨0, jmpTo 1⟩ :: (List.replicate n ⟨0, exitInsn⟩ ++ [⟨1, jmpTo 0⟩, ⟨0, exitInsn⟩])

def behind : IrList := [⟨1, jmpTo 0⟩, ⟨0, exitInsn⟩]

theorem labels_replicate_exit :
    LabelCode.labels (List.replicate n (⟨0, exitInsn⟩ : Node BpfInsn)) = [] := by
  induction n with
  | zero => rfl
  | succ n ih => rw [List.replicate_succ, labels_cons_zero, ih]

theorem labels_branchOver : LabelCode.labels (branchOver n) = [1] := by
  rw [branchOver, labels_cons_zero, labels_append, labels_replicate_exit]
  rfl

theorem kept_branchOver : kept (branchOver n) = jmpTo 1 :: List.replicate (n + 1) exitInsn := by
  have hrep : kept (List.replicate n (⟨0, exitInsn⟩)) =
      List.replicate n exitInsn := by
    rw [kept, List.filter_replicate_of_pos (by decide), List.map_replicate]
  rw [branchOver, kept_cons, kept_append, hrep, List.replicate_succ']
  rfl

theorem lookup_branchOver : lookup 1 (branchOver n) = some behind := by
  have hpre : 1 ∉ LabelCode.labels
      (⟨0, jmpTo 1⟩ :: List.replicate n (⟨0, exitInsn⟩)) := by
    rw [labels_cons_zero, labels_replicate_exit]
    exact List.not_mem_nil
  rw [branchOver, ← List.cons_append, lookup_append_of_not_mem (by decide) hpre]
  exact lookup_self 1 _ _

theorem labelled_branchOver : Labelled 2 (branchOver n) where
  below := by
    rw [labels_branchOver]
    decide
  once := by
    intro dip hdip hb
    rw [labels_branchOver]
    simp only [branchOver, List.mem_cons, List.mem_append, List.mem_replicate, List.not_mem_nil,
      or_false] at hdip
    -- only the first instruction is a branch
    obtain rfl | ⟨-, rfl⟩ | rfl | rfl := hdip
    · decide
    all_goals exact absurd hb (by decide)

theorem distance_branchOver : distance (branchOver n) behind 0 = n := by
  rw [distance, place, kept_branchOver, List.length_cons, List.length_replicate,
    show (kept behind).length = 1 from rfl]
  omega

theorem head_branchOver : (kept (branchOver n))[0]? = some (jmpTo 1) := by
  rfl

theorem offset_branchOver :
    ((kept (branchOver n)).mapIdx (relocated (fill (branchOver n)).labels))[0]? =
      some (jmpTo (BitVec.ofInt 16 n)) := by
  have hplace : (fill (branchOver n)).labels 1 = place (branchOver n) behind :=
    (labelled_branchOver n).labels_eq (List.mem_of_getElem? (head_branchOver n)) (by decide)
      (lookup_branchOver n)
  have hoff : relocated (fill (branchOver n)).labels 0 (jmpTo 1) =
      jmpTo (BitVec.ofInt 16 (distance (branchOver n) behind 0)) := by
    rw [relocated, show (jmpTo 1).label = 1 from by decide, hplace]
    rfl
  rw [List.getElem?_mapIdx, head_branchOver, map_some, hoff, distance_branchOver]

/-- A branch over 32768 instructions gets the offset -32768. -/
theorem long_branch_goes_back :
    Labelled 2 (branchOver (2 ^ 15)) ∧ ∃ buf, dtAs 2 (branchOver (2 ^ 15)) = some buf ∧
      buf[0]? = some (jmpTo (BitVec.ofInt 16 (-2 ^ 15))) ∧
      lookup 1 (branchOver (2 ^ 15)) = some behind ∧ ¬Lands (branchOver (2 ^ 15)) buf 0 behind := by
  have hlab := labelled_branchOver (2 ^ 15)
  have hl := lookup_branchOver (2 ^ 15)
  refine ⟨hlab, _, hlab.dtAs_eq, ?_, hl, ?_⟩
  · rw [offset_branchOver]
    decide
  · rw [hlab.lands_iff (head_branchOver _) (by decide) hl]
    rintro ⟨-, hhigh, -⟩
    rw [distance_branchOver] at hhigh
    exact absurd hhigh (by decide)

theorem short_branch_lands :
    Labelled 2 (branchOver 3) ∧ ∃ buf, dtAs 2 (branchOver 3) = some buf ∧
      ∃ rest, lookup 1 (branchOver 3) = some rest ∧ Lands (branchOver 3) buf 0 rest := by
  obtain ⟨buf, hbuf, -, hiff⟩ := branch_lands_iff 2 (branchOver 3) (labelled_branchOver 3)
  refine ⟨labelled_branchOver 3, buf, hbuf, hiff.mpr ?_ 0 (jmpTo 1) (by decide) (by decide)⟩
  intro pc y hy hb
  -- the branch is the first instruction
  have hall : ∀ pc < 5, ∀ y ∈ (kept (branchOver 3))[pc]?, y.isBranch → pc = 0 ∧ y = jmpTo 1 := by
    decide
  obtain ⟨rfl, rfl⟩ := hall pc (List.getElem?_eq_some_iff.mp hy).1 y hy hb
  refine ⟨behind, lookup_branchOver 3, ?_⟩
  rw [Reaches]
  decide

end DTrace.Bpf
