import DTrace.Cg.Alloca
import DTrace.Cg.Tuple

/-!
# Bit-fields — `dt_cg_field_get`, `dt_cg_field_set`

A bit-field starts at any bit of a structure and is up to 64 bits wide. The generated code
advances to the byte in which the field starts and loads the field's **width**, rounded up to a
power of two of bytes; it does not count the bits in front of the field.

* A field that does not end inside the load is cut (`Fits`).
* Storing works on the same load: the field's bits are replaced in the loaded word, and the word
  is stored. No bit outside the field changes, whether the field fits or not.
* The mask of a 64-bit field is `(1 << 64) - 1`, for which the processor gives zero.
* An offset into scratch memory is used as an address.

`fieldRight_iff` puts these together.
-/

namespace DTrace.Cg

open LabelCode Bpf Option State
open BitVec hiding not_or

/-! ## Load sizes -/

/-- `clp2`: the next power of two. -/
def clp2 (x : BitVec 64) : BitVec 64 :=
  let x := x - 1
  let x := x ||| x >>> 1
  let x := x ||| x >>> 2
  let x := x ||| x >>> 4
  let x := x ||| x >>> 8
  let x := x ||| x >>> 16
  x + 1

/-- `P2ROUNDUP`, for a power of two. -/
def p2roundup (x align : Nat) : Nat := (x + (align - 1)) / align * align

/-- `dt_cg_ldsize` for a bit-field. -/
def dtCgLdsize (bits : Nat) : Option Width :=
  bpfLdstSize (clp2 (BitVec.ofNat 64 (p2roundup bits 8 / 8))).toNat

/-- Where a member that is a bit-field lies: `offset` is `ctm_offset + cte_offset`. -/
structure BitField where
  offset : Nat
  bits : Nat
  signed : Bool
  bits_pos : 0 < bits
  bits_le : bits ≤ 64

/-- The width of the load. -/
def BitField.width (f : BitField) : Width :=
  if f.bits ≤ 8 then .b else if f.bits ≤ 16 then .h else if f.bits ≤ 32 then .w else .dw

variable (f : BitField)

theorem dtCgLdsize_eq : dtCgLdsize f.bits = some f.width := by
  obtain ⟨-, bits, -, hpos, -⟩ := f
  have hall : ∀ bits < 65, 0 < bits → dtCgLdsize bits =
      some (if bits ≤ 8 then .b else if bits ≤ 16 then .h else if bits ≤ 32 then .w else .dw) := by
    decide
  exact hall bits (by omega) hpos

/-! ## Generators -/

/-- The addition that advances to the byte where the field starts. -/
def dtCgFieldRef (f : BitField) (reg : Nat) : Ir :=
  if 8 ≤ f.offset then emit (.aluImm .add reg (BitVec.ofNat 32 (f.offset / 8))) else []

/-- The load: `dt_cg_load_scalar` unless the left operand is a pointer to DTrace-managed or to
scratch memory. -/
def dtCgFieldLoad (cls : PtrClass) (m : MemberOp) (op : Width) (reg : Nat) (g : Gen) :
    Option (XIr × Gen) :=
  match cls with
  | .kernel => dtCgLoadScalar m.left op reg g
  | .dptr => some (lift (emit (.load op reg reg 0)), g)
  | .alloca => some (lift (emit (.load op reg reg 0)), g)

/-- The shifts that move the field to the low end of the register. -/
def dtCgFieldShift (f : BitField) (reg : Nat) : Ir :=
  let shift := f.offset % 8
  emit (.aluImm .lsh reg (BitVec.ofInt 32 (64 - f.bits - shift))) ++
  emit (.aluImm (if f.signed then .arsh else .rsh) reg (BitVec.ofInt 32 (64 - f.bits)))

/-- `dt_cg_field_get` of a value. -/
def dtCgFieldGet (f : BitField) (cls : PtrClass) (m : MemberOp) (reg : Nat) (g : Gen) :
    Option (XIr × Gen) := do
  let op ← dtCgLdsize f.bits
  let (c, g) ← dtCgFieldLoad cls m op reg g
  some (lift (dtCgFieldRef f reg) ++ c ++ lift (dtCgFieldShift f reg), g)

/-- `fmask`. The count of a shift is taken modulo 64. -/
def fmask (f : BitField) : BitVec 64 := ((1 : BitVec 64) <<< (f.bits % 64)) - 1

/-- `cmask`. -/
def cmask (f : BitField) : BitVec 64 := ~~~(fmask f <<< (f.offset % 8))

/-- `dt_cg_field_set`, with the address of the first byte in `dst`. -/
def dtCgFieldSet (f : BitField) (src dst : Nat) (g : Gen) : Option (Ir × Nat × Gen) := do
  let (r1, c₁, g) ← g.alloc
  let (r2, c₂, g) ← g.alloc
  let op ← dtCgLdsize f.bits
  let (c₃, g) ← g.free r2
  some (c₁ ++ c₂ ++ emit (.load op r1 dst 0) ++ dtCgSetx r2 (cmask f) ++ emit (.alu .and r1 r2) ++
    dtCgSetx r2 (fmask f) ++ emit (.alu .and r2 src) ++
    (if 0 < f.offset % 8 then emit (.aluImm .lsh r2 (BitVec.ofNat 32 (f.offset % 8))) else []) ++
    emit (.alu .or r1 r2) ++ c₃, r1, g)

/-- `dt_cg_store` to a bit-field of DTrace-managed memory, behind the code for its address. -/
def dtCgStoreField (f : BitField) (src dst : Nat) (g : Gen) : Option (Ir × Gen) := do
  let (c₁, sreg, g) ← dtCgFieldSet f src dst g
  let op ← dtCgLdsize f.bits
  let (c₂, g) ← g.free sreg
  some (dtCgFieldRef f dst ++ c₁ ++ emit (.store op dst 0 sreg) ++ c₂, g)

/-! ## The bits of memory -/

/-- Bit `k` of the memory from `a` on. -/
def memBit (m : Mem) (a : BitVec 64) (k : Nat) : Bool :=
  (m (a + BitVec.ofNat 64 (k / 8))).getLsbD (k % 8)

theorem memBit_add (m : Mem) (a : BitVec 64) (n k : Nat) :
    memBit m a (8 * n + k) = memBit m (a + BitVec.ofNat 64 n) k := by
  unfold memBit
  rw [show (8 * n + k) / 8 = n + k / 8 by omega, show (8 * n + k) % 8 = k % 8 by omega,
    ofNat_add, add_assoc]

/-- A load gives the bits of memory, as far as it goes. -/
theorem getLsbD_loadLE (m : Mem) (a : BitVec 64) {n i : Nat} (hn : n ≤ 8) :
    (loadLE m a n).getLsbD i = (decide (i < 8 * n) && memBit m a i) := by
  by_cases hi : 8 * n ≤ i
  · rw [getLsbD_loadLE_of_ge m a hi, decide_eq_false (by omega)]
    rfl
  rw [decide_eq_true (by omega)]
  induction n generalizing a i with
  | zero => omega
  | succ n ih =>
    rw [loadLE, getLsbD_or, getLsbD_shiftLeft]
    by_cases h8 : i < 8
    · simp [memBit, h8, show i / 8 = 0 by omega, Nat.mod_eq_of_lt h8, show i < 64 by omega]
    · have htail := ih (a + 1) (by omega) (show ¬ 8 * n ≤ i - 8 by omega)
      have hbyte : (m a).getLsbD i = false := getLsbD_of_ge _ _ (by omega)
      have hbit : memBit m a i = memBit m (a + 1) (i - 8) := by
        have h := memBit_add m a 1 (i - 8)
        rwa [show 8 * 1 + (i - 8) = i by omega] at h
      rw [htail, hbit]
      simp [hbyte, h8, show i < 64 by omega]

/-- The value of a field of a structure at `a`: its bits, and its sign above them. -/
def IsField (m : Mem) (a : BitVec 64) (f : BitField) (v : BitVec 64) : Prop :=
  ∀ i < 64, v.getLsbD i =
    if i < f.bits then memBit m a (f.offset + i)
    else f.signed && memBit m a (f.offset + f.bits - 1)

/-- The field ends inside the load. -/
def BitField.Fits (f : BitField) : Prop := f.offset % 8 + f.bits ≤ 8 * f.width.bytes

/-- The distance of the byte the field starts in, as the immediate operand has it. -/
def BitField.byte (f : BitField) : BitVec 64 := (BitVec.ofNat 32 (f.offset / 8)).signExtend 64

/-- The byte the field starts in is within reach of an immediate operand. -/
def BitField.InReach (f : BitField) : Prop := f.byte = BitVec.ofNat 64 (f.offset / 8)

/-! ## Reading -/

/-- What the shifts make of the loaded word. -/
def fieldShift (f : BitField) (x : BitVec 64) : BitVec 64 :=
  (if f.signed then AluOp.arsh else AluOp.rsh).eval
    (AluOp.lsh.eval x ((BitVec.ofInt 32 (64 - f.bits - (f.offset % 8 : Nat))).signExtend 64))
    ((BitVec.ofInt 32 (64 - f.bits)).signExtend 64)

theorem frag_fieldShift (env : Env) (f : BitField) (reg : Nat) (σ : State) :
    Frag (exec env) (dtCgFieldShift f reg) σ (σ.setReg reg (fieldShift f (σ.regs reg))) := by
  refine Frag.next rfl (Frag.single ?_) (by simp)
  rw [exec, setReg_regs_self, setReg_setReg]
  rfl

theorem frag_fieldRef (env : Env) (f : BitField) (reg : Nat) (σ : State) :
    Frag (exec env) (dtCgFieldRef f reg) σ (σ.setReg reg (σ.regs reg + f.byte)) := by
  unfold dtCgFieldRef
  split
  · exact Frag.single rfl
  · next h =>
    have hzero : f.byte = 0 := by
      unfold BitField.byte
      rw [show f.offset / 8 = 0 by omega]
      rfl
    rw [hzero, show σ.regs reg + 0 = σ.regs reg from add_zero _, setReg_eq_self]
    exact Frag.nil σ

theorem labels_fieldRef (reg : Nat) : labels (dtCgFieldRef f reg) = [] := by
  unfold dtCgFieldRef
  split <;> rfl

/-- Shift counts in range. -/
theorem shift_count {k : Nat} (h : k < 64) :
    ((BitVec.ofInt 32 (k : Int)).signExtend 64).toNat % 64 = k := by
  have hall : ∀ k : Nat, k < 64 → ((BitVec.ofInt 32 (k)).signExtend 64).toNat % 64 = k := by
    decide
  exact hall k h

theorem right_count :
    ((BitVec.ofInt 32 (64 - f.bits)).signExtend 64).toNat % 64 = 64 - f.bits := by
  have hpos := f.bits_pos
  have hle := f.bits_le
  rw [show (64 - f.bits : Int) = ((64 - f.bits : Nat) : Int) by omega]
  exact shift_count (by omega)

theorem getLsbD_fieldShift (h : f.offset % 8 + f.bits ≤ 64) (x : BitVec 64) {i : Nat}
    (hi : i < 64) : (fieldShift f x).getLsbD i =
      if i < f.bits then x.getLsbD (f.offset % 8 + i)
      else f.signed && x.getLsbD (f.offset % 8 + f.bits - 1) := by
  have hpos := f.bits_pos
  have hle := f.bits_le
  have hl : ((BitVec.ofInt 32 (64 - f.bits - (f.offset % 8 : Nat))).signExtend 64).toNat % 64 =
      64 - f.bits - f.offset % 8 := by
    rw [show (64 - f.bits - (f.offset % 8 : Nat) : Int) = ((64 - f.bits - f.offset % 8 : Nat) : Int)
      by omega]
    exact shift_count (by omega)
  have hr := right_count f
  unfold fieldShift
  cases f.signed with
  | true =>
    simp only [if_true, AluOp.eval, hl, hr, getLsbD_sshiftRight, getLsbD_shiftLeft,
      msb_eq_getLsbD_last]
    by_cases hb : i < f.bits
    · simp [hb, hi, show 64 - f.bits + i < 64 by omega,
        show ¬ 64 - f.bits + i < 64 - f.bits - f.offset % 8 by omega,
        show 64 - f.bits + i - (64 - f.bits - f.offset % 8) = f.offset % 8 + i by omega]
    · simp [hb, hi, show ¬ 64 - f.bits + i < 64 by omega,
        show ¬ 63 < 64 - f.bits - f.offset % 8 by omega,
        show 63 - (64 - f.bits - f.offset % 8) = f.offset % 8 + f.bits - 1 by omega]
  | false =>
    simp only [Bool.false_eq_true, if_false, AluOp.eval, hl, hr, getLsbD_ushiftRight,
      getLsbD_shiftLeft, Bool.false_and]
    by_cases hb : i < f.bits
    · simp [hb, show 64 - f.bits + i < 64 by omega,
        show ¬ 64 - f.bits + i < 64 - f.bits - f.offset % 8 by omega,
        show 64 - f.bits + i - (64 - f.bits - f.offset % 8) = f.offset % 8 + i by omega]
    · simp [hb, show ¬ 64 - f.bits + i < 64 by omega]

/-- A field that ends behind a whole word: the count of the left shift is negative, and the first
bit is one that was shifted in. -/
theorem getLsbD_fieldShift_over (h : 64 < f.offset % 8 + f.bits) (x : BitVec 64) :
    (fieldShift f x).getLsbD 0 = false := by
  have hle := f.bits_le
  have hl : 57 ≤ ((BitVec.ofInt 32 (64 - f.bits - (f.offset % 8 : Nat))).signExtend
      64).toNat % 64 := by
    have hall : ∀ k : Nat, k < 7 →
        57 ≤ ((BitVec.ofInt 32 (-1 - (k : Int))).signExtend 64).toNat % 64 := by decide
    have hk := hall (f.offset % 8 + f.bits - 65) (by omega)
    rwa [show (-1 - ((f.offset % 8 + f.bits - 65 : Nat) : Int)) =
      64 - f.bits - (f.offset % 8 : Nat) by omega] at hk
  have hr := right_count f
  unfold fieldShift
  generalize (BitVec.ofInt 32 (64 - f.bits - (f.offset % 8 : Nat))).signExtend 64 = l at *
  have hlow : 64 - f.bits + 0 < l.toNat % 64 := by omega
  have hin : 64 - f.bits + 0 < 64 := by omega
  cases f.signed with
  | true =>
    simp only [if_true, AluOp.eval, hr, getLsbD_sshiftRight, getLsbD_shiftLeft]
    simp only [hlow, hin, decide_true, Bool.not_true, Bool.and_false, Bool.false_and, if_true]
  | false =>
    simp only [Bool.false_eq_true, if_false, AluOp.eval, hr, getLsbD_ushiftRight,
      getLsbD_shiftLeft]
    simp only [hlow, decide_true, Bool.not_true, Bool.and_false, Bool.false_and]

section
variable {X : XEnv} {f : BitField} {cls : PtrClass} {m : MemberOp} {op : Width} {reg : Nat}
  {g g' : Gen} {c : XIr}

/-- The load, for every class of pointers the word at the address in the register. -/
theorem frag_fieldLoad (h : dtCgFieldLoad cls m op reg g = some (c, g')) (hreg : reg ≠ regFP)
    {s : XState} (hread : cls = .kernel →
      X.readable (s.st.regs reg) (BitVec.ofNat 64 op.bytes) s.st.mem = true) :
    (labels c).Nodup ∧ ∃ s', Frag (xexec X) c s s' ∧
      s'.st.regs reg = loadLE s.st.mem (s.st.regs reg) op.bytes := by
  obtain ⟨σ, dv⟩ := s
  have hdirect : c = lift (emit (.load op reg reg 0)) → (labels c).Nodup ∧
      ∃ s', Frag (xexec X) c ⟨σ, dv⟩ s' ∧ s'.st.regs reg = loadLE σ.mem (σ.regs reg) op.bytes := by
    rintro rfl
    refine ⟨by simp, _, frag_lift (frag_loadMem (X.base dv) op reg 0 σ hreg), ?_⟩
    simp
  cases cls with
  | kernel =>
    obtain ⟨hin, -, s', f, hv⟩ := frag_loadScalar h hreg (hread rfl)
    refine ⟨hin.nodup, s', f, hv.trans ?_⟩
    -- neither a pointer nor a structure is signed
    cases m <;> rfl
  | dptr | alloca => exact hdirect (Prod.mk.inj (some.inj h)).1.symm

/-- What `dt_cg_field_get` leaves in the register. -/
theorem frag_fieldGet (h : dtCgFieldGet f cls m reg g = some (c, g')) (hreg : reg ≠ regFP)
    {s : XState} (hread : cls = .kernel → X.readable (s.st.regs reg + f.byte)
      (BitVec.ofNat 64 f.width.bytes) s.st.mem = true) :
    ∃ s', Frag (xexec X) c s s' ∧ s'.st.regs reg =
      fieldShift f (loadLE s.st.mem (s.st.regs reg + f.byte) f.width.bytes) := by
  obtain ⟨σ, dv⟩ := s
  simp only [dtCgFieldGet, dtCgLdsize_eq, bind_eq_bind, bind_some,
    bind_eq_some_iff, Prod.exists] at h
  obtain ⟨_, _, hload, rfl, rfl⟩ := h
  let σ1 := σ.setReg reg (σ.regs reg + f.byte)
  have f1 : Frag (xexec X) (lift (dtCgFieldRef f reg)) ⟨σ, dv⟩ ⟨σ1, dv⟩ :=
    frag_lift (frag_fieldRef (X.base dv) f reg σ)
  have hreg1 : σ1.regs reg = σ.regs reg + f.byte := setReg_regs_self _ _ _
  obtain ⟨hnd, ⟨σ2, dv2⟩, f2, hv⟩ := frag_fieldLoad hload hreg
    (fun hk => by rw [show (⟨σ1, dv⟩ : XState).st.regs reg = _ from hreg1]; exact hread hk)
  have f3 : Frag (xexec X) (lift (dtCgFieldShift f reg)) ⟨σ2, dv2⟩
      ⟨σ2.setReg reg (fieldShift f (σ2.regs reg)), dv2⟩ :=
    frag_lift (frag_fieldShift (X.base dv2) f reg σ2)
  have hlab : labels (dtCgFieldShift f reg) = [] := rfl
  refine ⟨_, (f1.append f2 ?_).append f3 ?_, ?_⟩
  · simpa [labels_fieldRef] using hnd
  · simpa [labels_fieldRef, hlab] using hnd
  · show (σ2.setReg reg (fieldShift f (σ2.regs reg))).regs reg = _
    rw [setReg_regs_self, show σ2.regs reg = _ from hv, ← hreg1]
    rfl

/-- A field that fits, in reach: the code leaves its value. -/
theorem frag_fieldGet_right (h : dtCgFieldGet f cls m reg g = some (c, g')) (hreg : reg ≠ regFP)
    (hfits : f.Fits) (hreach : f.InReach) {s : XState} (hread : cls = .kernel →
      ∀ n, X.readable (s.st.regs reg + BitVec.ofNat 64 (f.offset / 8)) n s.st.mem = true) :
    ∃ s', Frag (xexec X) c s s' ∧ IsField s.st.mem (s.st.regs reg) f (s'.st.regs reg) := by
  unfold BitField.Fits at hfits
  have hle := f.width.bytes_le
  obtain ⟨s', fr, hv⟩ := frag_fieldGet h hreg fun hk => by rw [hreach]; exact hread hk _
  refine ⟨s', fr, fun i hi => ?_⟩
  have hbit : ∀ k, memBit s.st.mem (s.st.regs reg) (f.offset + k) =
      memBit s.st.mem (s.st.regs reg + f.byte) (f.offset % 8 + k) := by
    intro k
    rw [hreach, ← memBit_add]
    congr 1
    omega
  rw [hv, getLsbD_fieldShift f (by omega) _ hi]
  have hpos := f.bits_pos
  split
  · rw [getLsbD_loadLE _ _ hle, hbit, decide_eq_true (by omega), Bool.true_and]
  · rw [getLsbD_loadLE _ _ hle, decide_eq_true (by omega), Bool.true_and,
      show f.offset + f.bits - 1 = f.offset + (f.bits - 1) by omega, hbit,
      show f.offset % 8 + f.bits - 1 = f.offset % 8 + (f.bits - 1) by omega]

end

/-! ## Storing -/

/-- The registers of a store are four different ones. -/
def FieldRegs (src dst : Nat) (g : Gen) : Prop :=
  ∀ r1 ∈ g.alloc, ∀ r2 ∈ r1.2.2.alloc, [src, dst, r1.1, r2.1].Nodup

instance (src dst : Nat) (g : Gen) : Decidable (FieldRegs src dst g) :=
  inferInstanceAs (Decidable (∀ r1 ∈ g.alloc, ∀ r2 ∈ r1.2.2.alloc, [src, dst, r1.1, r2.1].Nodup))

/-- The word that is stored for the value `v`, where `x` was loaded. -/
def fieldWord (f : BitField) (x v : BitVec 64) : BitVec 64 :=
  (x &&& cmask f) ||| ((fmask f &&& v) <<< (f.offset % 8))

/-- The instructions between the allocations and the store. -/
def fieldSetBlock (f : BitField) (src dst r1 r2 : Nat) : Ir :=
  emit (.load f.width r1 dst 0) ++ dtCgSetx r2 (cmask f) ++ emit (.alu .and r1 r2) ++
  dtCgSetx r2 (fmask f) ++ emit (.alu .and r2 src) ++
  (if 0 < f.offset % 8 then emit (.aluImm .lsh r2 (BitVec.ofNat 32 (f.offset % 8))) else []) ++
  emit (.alu .or r1 r2)

section
variable (env : Env) (f : BitField) {src dst r1 r2 : Nat}

theorem labels_fieldSetBlock (src dst r1 r2 : Nat) :
    labels (fieldSetBlock f src dst r1 r2) = [] := by
  unfold fieldSetBlock
  split <;> rfl

theorem frag_fieldSetBlock (hnd : [src, dst, r1, r2].Nodup) (hfp : dst ≠ regFP) (σ : State) :
    ∃ σ', Frag (exec env) (fieldSetBlock f src dst r1 r2) σ σ' ∧
      σ'.regs r1 = fieldWord f (loadLE σ.mem (σ.regs dst) f.width.bytes) (σ.regs src) ∧
      σ'.regs dst = σ.regs dst ∧ σ'.mem = σ.mem := by
  simp only [List.nodup_cons, List.mem_cons, not_or] at hnd
  obtain ⟨⟨-, hs1, hs2⟩, ⟨hd1, hd2⟩, h12, -⟩ := hnd
  let x := loadLE σ.mem (σ.regs dst) f.width.bytes
  let v := σ.regs src
  let σ1 := (σ.setReg r1 x).setReg r2 (cmask f)
  let σ2 := (σ1.setReg r1 (x &&& cmask f)).setReg r2 (fmask f)
  let σ3 := σ2.setReg r2 (fmask f &&& v)
  let σ4 := σ3.setReg r2 ((fmask f &&& v) <<< (f.offset % 8))
  have f1 : Frag (exec env) (emit (.load f.width r1 dst 0) ++ dtCgSetx r2 (cmask f)) σ σ1 := by
    refine (frag_loadMem env f.width r1 0 σ hfp).append ?_ (by simp [dtCgSetx])
    simpa using frag_setx env r2 (cmask f) (σ.setReg r1 x)
  have f2 : Frag (exec env) (emit (.alu .and r1 r2) ++ dtCgSetx r2 (fmask f)) σ1 σ2 := by
    refine Frag.append (Frag.single ?_) (frag_setx env r2 (fmask f) _) (by simp [dtCgSetx])
    simp [exec, σ1, AluOp.eval, setReg_regs, h12]
  have f3 : Frag (exec env) (emit (.alu .and r2 src)) σ2 σ3 := by
    refine Frag.single ?_
    simp [exec, σ3, σ2, σ1, AluOp.eval, setReg_regs, hs1, hs2, v]
  have f4 : Frag (exec env) (if 0 < f.offset % 8 then
      emit (.aluImm .lsh r2 (BitVec.ofNat 32 (f.offset % 8))) else []) σ3 σ4 := by
    have hcount : ((BitVec.ofNat 32 (f.offset % 8)).signExtend 64).toNat % 64 = f.offset % 8 := by
      have hall : ∀ k < 8, ((BitVec.ofNat 32 k).signExtend 64).toNat % 64 = k := by decide
      exact hall _ (by omega)
    split
    · refine Frag.single ?_
      simp [exec, AluOp.eval, hcount, σ4, σ3]
    · next h0 =>
      have heq : σ4 = σ3 := by
        simp [σ4, σ3, show f.offset % 8 = 0 by omega]
      rw [heq]
      exact Frag.nil σ3
  have f5 : Frag (exec env) (emit (.alu .or r1 r2)) σ4 (σ4.setReg r1 (fieldWord f x v)) := by
    refine Frag.single ?_
    simp [exec, AluOp.eval, fieldWord, σ4, σ3, σ2, setReg_regs, h12]
  have hlabels : labels (if 0 < f.offset % 8 then
      emit (.aluImm .lsh r2 (BitVec.ofNat 32 (f.offset % 8))) else []) = [] := by
    split <;> rfl
  refine ⟨σ4.setReg r1 (fieldWord f x v), ?_, setReg_regs_self _ _ _, ?_, rfl⟩
  · have fr := f1.append (f2.append (f3.append (f4.append f5 ?_) ?_) ?_) ?_
    · simpa [fieldSetBlock] using fr
    all_goals simp [hlabels]
  · simp [σ4, σ3, σ2, σ1, setReg_regs, hd1, hd2]

/-- What a store to a bit-field leaves in memory. -/
theorem frag_storeField {g g' : Gen} {c : Ir} (h : dtCgStoreField f src dst g = some (c, g'))
    (hregs : FieldRegs src dst g) (hfp : dst ≠ regFP) (σ : State) :
    ∃ σ', Frag (exec env) c σ σ' ∧ σ'.mem = storeLE σ.mem (σ.regs dst + f.byte)
      (fieldWord f (loadLE σ.mem (σ.regs dst + f.byte) f.width.bytes) (σ.regs src))
      f.width.bytes := by
  simp only [dtCgStoreField, dtCgFieldSet, dtCgLdsize_eq, bind_eq_bind, bind_some,
    bind_eq_some_iff, Prod.exists, some.injEq, Prod.mk.injEq] at h
  obtain ⟨-, _, _, ⟨r1, d1, k1, h1, r2, d2, k2, h2, _, _, h3, rfl, rfl, rfl⟩, _, _, h4, rfl,
    rfl⟩ := h
  have hnd : [src, dst, r1, r2].Nodup := hregs (r1, d1, k1) h1 (r2, d2, k2) h2
  have hne := hnd
  simp only [List.nodup_cons, List.mem_cons, List.not_mem_nil, or_false, not_or] at hne
  obtain ⟨⟨hsd, -, -⟩, ⟨-, hd2⟩, h12, -⟩ := hne
  let σ0 := σ.setReg dst (σ.regs dst + f.byte)
  let mem := storeLE σ.mem (σ.regs dst + f.byte)
    (fieldWord f (loadLE σ.mem (σ.regs dst + f.byte) f.width.bytes) (σ.regs src)) f.width.bytes
  obtain ⟨hlab1, -, σ1, f1, hr1, hctx1⟩ := frag_genAlloc env h1 σ0
  obtain ⟨hlab2, -, σ2, f2, hr2, hctx2⟩ := frag_genAlloc env h2 σ1
  obtain ⟨σ3, f3, hw, hdst, hmem3⟩ := frag_fieldSetBlock env f hnd hfp σ2
  obtain ⟨hlab3, σ4, f4, hctx4, hr4⟩ := frag_genFree env h3 σ3
  have hmem1 : σ1.mem = σ.mem := (Ctx.mk.inj hctx1).2
  have hmem2 : σ2.mem = σ.mem := (Ctx.mk.inj hctx2).2.trans hmem1
  have hmem4 : σ4.mem = σ.mem := (Ctx.mk.inj hctx4).2.trans (hmem3.trans hmem2)
  have hdst0 : σ0.regs dst = σ.regs dst + f.byte := setReg_regs_self _ _ _
  have hsrc0 : σ0.regs src = σ.regs src := setReg_regs_of_ne _ _ hsd
  have hreg2 : σ2.regs = σ0.regs := hr2.trans hr1
  have hstore : exec env (.store f.width dst 0 r1) σ4 = .next { σ4 with mem := mem } := by
    rw [exec, if_neg hfp, hmem4, hr4 dst hd2, hr4 r1 h12, hdst, hw, hreg2, hdst0, hsrc0, hmem2]
    simp [mem]
  obtain ⟨hlab5, σ6, f6, hctx6, -⟩ := frag_genFree env h4 { σ4 with mem := mem }
  have hblock := labels_fieldSetBlock f src dst r1 r2
  have f5 : Frag (exec env) (emit (.store f.width dst 0 r1)) σ4 _ := Frag.single hstore
  refine ⟨σ6, ?_, (Ctx.mk.inj hctx6).2⟩
  have fr := (frag_fieldRef env f dst σ).append (f1.append (f2.append (f3.append (f4.append
    (f5.append f6 ?_) ?_) ?_) ?_) ?_) ?_
  · simpa [fieldSetBlock] using fr
  all_goals simp [hlab1, hlab2, hlab3, hlab5, hblock, labels_fieldRef]

end

/-! ## The bits of the stored word -/

theorem memBit_storeLE (m : Mem) (a v : BitVec 64) {n k : Nat} (hn : n ≤ 8) (hk : k < 8 * n) :
    memBit (storeLE m a v n) a k = v.getLsbD k := by
  unfold memBit
  rw [storeLE_at (by omega) (by omega), getLsbD_setWidth,
    decide_eq_true (by omega), Bool.true_and, getLsbD_ushiftRight,
    show 8 * (k / 8) + k % 8 = k by omega]

section
variable {f : BitField}

theorem toNat_fmask : (fmask f).toNat = 2 ^ (f.bits % 64) - 1 := by
  have hlt : 2 ^ (f.bits % 64) < 2 ^ 64 := Nat.pow_lt_pow_right (by decide) (by omega)
  have hpos : 0 < 2 ^ (f.bits % 64) := Nat.two_pow_pos _
  unfold fmask
  rw [toNat_sub, toNat_shiftLeft, show (1 : BitVec 64).toNat = 1 from rfl]
  omega

theorem getLsbD_fmask (i : Nat) : (fmask f).getLsbD i = decide (i < f.bits % 64) := by
  rw [getLsbD, toNat_fmask, Nat.testBit_two_pow_sub_one]

/-- The field's bits come from the value, all others from the word that was loaded. -/
theorem getLsbD_fieldWord (x v : BitVec 64) {k : Nat} (hk : k < 64) :
    (fieldWord f x v).getLsbD k =
      if f.offset % 8 ≤ k ∧ k - f.offset % 8 < f.bits % 64 then v.getLsbD (k - f.offset % 8)
      else x.getLsbD k := by
  unfold fieldWord cmask
  simp only [getLsbD_or, getLsbD_and, getLsbD_not, getLsbD_shiftLeft,
    decide_eq_true hk]
  rw [getLsbD_fmask]
  by_cases hsh : f.offset % 8 ≤ k
  · by_cases hb : k - f.offset % 8 < f.bits % 64
    · simp [hb, show ¬ k < f.offset % 8 by omega]
    · simp [hb]
  · simp [show k < f.offset % 8 by omega]

end

/-! ## When the code is right -/

/-- Bit `j` of the byte at `b` belongs to the field of the structure at `a`. -/
def InField (f : BitField) (a b : BitVec 64) (j : Nat) : Prop :=
  ∃ i < f.bits, b = a + BitVec.ofNat 64 ((f.offset + i) / 8) ∧ j = (f.offset + i) % 8

/-- The address a pointer stands for. -/
def objAddr (cls : PtrClass) (σ : State) (p : BitVec 64) : BitVec 64 :=
  match cls with
  | .alloca => word σ.mem (σ.stack dtStkDctx) dctxScratchmem + p
  | _ => p

/-- What access to a bit-field through a pointer of class `cls` should do. -/
structure FieldRight (f : BitField) (cls : PtrClass) (m : MemberOp) : Prop where
  /-- Reading gives the field's bits, with its sign. -/
  get : ∀ (X : XEnv) (reg : Nat) (g g' : Gen) (c : XIr) (s : XState), reg ≠ regFP →
    dtCgFieldGet f cls m reg g = some (c, g') →
    (cls = .kernel → ∀ n, X.readable (s.st.regs reg + BitVec.ofNat 64 (f.offset / 8)) n
      s.st.mem = true) →
    ∃ s', Frag (xexec X) c s s' ∧
      IsField s.st.mem (objAddr cls s.st (s.st.regs reg)) f (s'.st.regs reg)
  /-- A store changes no bit outside the field, and reading gives what was stored. -/
  set : ∀ (env : Env) (src dst : Nat) (g g' : Gen) (c : Ir) (σ : State), dst ≠ regFP →
    FieldRegs src dst g → dtCgStoreField f src dst g = some (c, g') →
    ∃ σ', Frag (exec env) c σ σ' ∧
      (∀ b, ∀ j < 8, ¬ InField f (σ.regs dst) b j → (σ'.mem b).getLsbD j = (σ.mem b).getLsbD j) ∧
      ∀ (X : XEnv) (reg : Nat) (g₁ g₂ : Gen) (c' : XIr) (s : XState), reg ≠ regFP →
        dtCgFieldGet f .dptr m reg g₁ = some (c', g₂) → s.st.mem = σ'.mem →
        s.st.regs reg = σ.regs dst → ∃ s', Frag (xexec X) c' s s' ∧
          ∀ i < 64, (s'.st.regs reg).getLsbD i =
            if i < f.bits then (σ.regs src).getLsbD i
            else f.signed && (σ.regs src).getLsbD (f.bits - 1)

section
variable {f : BitField} {cls : PtrClass} {m : MemberOp}

/-- The frame: whatever the field, only its bits change. -/
theorem storeField_frame (hreach : f.InReach) (mem : Mem) (a v b : BitVec 64) {j : Nat}
    (hj : j < 8) (hout : ¬ InField f a b j) :
    (storeLE mem (a + f.byte) (fieldWord f (loadLE mem (a + f.byte) f.width.bytes) v)
      f.width.bytes b).getLsbD j = (mem b).getLsbD j := by
  have hle := f.width.bytes_le
  by_cases hin : ∃ i < f.width.bytes, b = a + f.byte + BitVec.ofNat 64 i
  · obtain ⟨i, hi, rfl⟩ := hin
    let A := a + f.byte
    have hbit : ∀ mem' : Mem, (mem' (A + BitVec.ofNat 64 i)).getLsbD j =
        memBit mem' A (8 * i + j) := by
      intro mem'
      unfold memBit
      rw [show (8 * i + j) / 8 = i by omega, show (8 * i + j) % 8 = j by omega]
    rw [hbit, hbit, memBit_storeLE _ _ _ hle (by omega), getLsbD_fieldWord _ _ (by omega),
      if_neg, getLsbD_loadLE _ _ hle, decide_eq_true (by omega), Bool.true_and]
    -- a bit that the store changes is one of the field's
    rintro ⟨_, hhi⟩
    refine hout ⟨8 * i + j - f.offset % 8, by omega, ?_, by omega⟩
    rw [show a + f.byte = a + BitVec.ofNat 64 (f.offset / 8) by rw [hreach],
      add_assoc, ← ofNat_add]
    congr 2
    omega
  · rw [storeLE_of_ne]
    intro i hi heq
    exact hin ⟨i, hi, heq⟩

/-- The bits of the field after a store. -/
theorem storeField_bits (hfits : f.Fits) (hreach : f.InReach) (h64 : f.bits < 64) (mem : Mem)
    (a v : BitVec 64) {i : Nat} (hi : i < f.bits) :
    memBit (storeLE mem (a + f.byte) (fieldWord f (loadLE mem (a + f.byte) f.width.bytes) v)
      f.width.bytes) a (f.offset + i) = v.getLsbD i := by
  have hle := f.width.bytes_le
  unfold BitField.Fits at hfits
  rw [show f.offset + i = 8 * (f.offset / 8) + (f.offset % 8 + i) by omega, memBit_add,
    show a + BitVec.ofNat 64 (f.offset / 8) = a + f.byte by rw [hreach],
    memBit_storeLE _ _ _ hle (by omega), getLsbD_fieldWord _ _ (by omega),
    if_pos ⟨by omega, by rw [Nat.mod_eq_of_lt h64]; omega⟩, Nat.add_sub_cancel_left]

/-- A field that ends inside its load, in reach, narrower than a word, of memory that is not
scratch memory. -/
theorem fieldRight_of_fits (hcls : cls ≠ .alloca) (hfits : f.Fits) (hreach : f.InReach)
    (h64 : f.bits < 64) : FieldRight f cls m where
  get := by
    intro X reg g g' c s hreg h hread
    obtain ⟨s', fr, hv⟩ := frag_fieldGet_right h hreg hfits hreach hread
    refine ⟨s', fr, ?_⟩
    cases cls with
    | kernel | dptr => exact hv
    | alloca => exact absurd rfl hcls
  set := by
    intro env src dst g g' c σ hfp hregs h
    obtain ⟨σ', fr, hmem⟩ := frag_storeField env f h hregs hfp σ
    refine ⟨σ', fr, fun b j hj hout => ?_, ?_⟩
    · rw [hmem]
      exact storeField_frame hreach _ _ _ b hj hout
    · intro X reg g1 g2 c' s hreg hget hm hr
      obtain ⟨s', fr', hv⟩ := frag_fieldGet_right hget hreg hfits hreach
        fun hk => by cases hk
      refine ⟨s', fr', fun i hi => ?_⟩
      have hpos := f.bits_pos
      rw [hv i hi, hm, hr, hmem]
      split
      · exact storeField_bits hfits hreach h64 _ _ _ (by omega)
      · rw [show f.offset + f.bits - 1 = f.offset + (f.bits - 1) by omega,
          storeField_bits hfits hreach h64 _ _ _ (by omega)]

end

/-! ## Where it is wrong -/

theorem fieldShift_zero : fieldShift f 0 = 0 := by
  unfold fieldShift
  cases f.signed <;> simp [AluOp.eval]

theorem loadLE_eq_zero {mem : Mem} {a : BitVec 64} {n : Nat} (hn : n ≤ 8)
    (h : ∀ i < 64, memBit mem a i = false) : loadLE mem a n = 0 := by
  apply eq_of_getLsbD_eq
  intro i hi
  rw [getLsbD_loadLE _ _ hn, h i hi]
  simp

/-- Memory with eight zero bytes at `a` and ones everywhere else. -/
def holeAt (a : BitVec 64) : Mem := fun b => if (b - a).toNat < 8 then 0 else 0xff

theorem memBit_holeAt (a b : BitVec 64) (k : Nat) :
    memBit (holeAt a) b k = decide (8 ≤ (b + BitVec.ofNat 64 (k / 8) - a).toNat) := by
  have hones : ∀ j < 8, (0xff : BitVec 8).getLsbD j = true := by decide
  unfold memBit holeAt
  split
  · next h => rw [decide_eq_false (by omega)]; exact getLsbD_zero
  · next h => rw [decide_eq_true (by omega), hones _ (by omega)]

theorem loadLE_holeAt (a : BitVec 64) {n : Nat} (hn : n ≤ 8) : loadLE (holeAt a) a n = 0 := by
  refine loadLE_eq_zero hn fun i hi => ?_
  rw [memBit_holeAt, add_comm, add_sub_cancel, toNat_ofNat]
  exact decide_eq_false (by omega)

/-- The word behind the hole. -/
theorem loadLE_holeAt_above (a : BitVec 64) : loadLE (holeAt a) (a + 8) 8 = -1 := by
  have hones : ∀ i < 64, (-1 : BitVec 64).getLsbD i = true := by decide
  apply eq_of_getLsbD_eq
  intro i hi
  rw [getLsbD_loadLE _ _ (by omega), memBit_holeAt, hones i hi, decide_eq_true (by omega),
    add_assoc, add_comm, add_sub_cancel, toNat_add,
    toNat_ofNat, show (8 : BitVec 64).toNat = 8 from rfl]
  exact decide_eq_true (by omega)

/-- A distance out of reach is wrong by a multiple of `2 ^ 32`. -/
theorem BitField.byte_error : (BitVec.ofNat 64 (f.offset / 8) - f.byte).toNat % 2 ^ 32 = 0 := by
  unfold BitField.byte
  rw [toNat_sub, toNat_signExtend, toNat_setWidth, toNat_ofNat,
    toNat_ofNat]
  split <;> omega

section
variable {f : BitField} {cls : PtrClass} {m : MemberOp}

/-- A machine about to read through the pointer `p`, with its context at `d`. -/
def fieldState (d p : BitVec 64) (mem : Mem) : XState :=
  ⟨⟨fun _ => p, fun _ => d, mem⟩, onesState.dvars⟩

theorem fieldGet_generated (f : BitField) (cls : PtrClass) (m : MemberOp) :
    ∃ c g', dtCgFieldGet f cls m 8 freshGen = some (c, g') := by
  have hload : (dtCgFieldLoad cls m f.width 8 freshGen).isSome = true := by
    cases cls <;> cases m <;> cases f.width <;> rfl
  obtain ⟨⟨c, g'⟩, hc⟩ := isSome_iff_exists.mp hload
  refine ⟨lift (dtCgFieldRef f 8) ++ c ++ lift (dtCgFieldShift f 8), g', ?_⟩
  simp only [dtCgFieldGet, dtCgLdsize_eq, hc, bind_eq_bind, bind_some]

section

variable (h : FieldRight f cls m)

include h

/-- Correct code loads the field's bits whatever the memory holds. -/
theorem FieldRight.loaded (d p : BitVec 64) (mem : Mem) :
    IsField mem (objAddr cls (fieldState d p mem).st p) f
      (fieldShift f (loadLE mem (p + f.byte) f.width.bytes)) := by
  obtain ⟨c, g', hc⟩ := fieldGet_generated f cls m
  obtain ⟨s1, f1, hv1⟩ := frag_fieldGet (X := onesEnv) hc (by decide)
    fun _ => rfl
  obtain ⟨_, f2, hv2⟩ := h.get onesEnv 8 freshGen g' c (fieldState d p mem) (by decide) hc
    fun _ _ => rfl
  obtain rfl := Runs.unique f1.runs f2.runs
  have hval : s1.st.regs 8 = fieldShift f (loadLE mem (p + f.byte) f.width.bytes) := hv1
  rw [← hval]
  exact hv2

theorem FieldRight.not_alloca : cls ≠ .alloca := by
  rintro rfl
  -- the context is such that the address of the scratch memory is the word behind the hole
  let d := f.byte + 8 - BitVec.ofInt 64 dctxScratchmem
  have hv := h.loaded d 0 (holeAt f.byte) 0 (by decide)
  have hbase : word (holeAt f.byte) d dctxScratchmem = -1 := by
    rw [word, sub_add_cancel, loadLE_holeAt_above]
  rw [show 0 + f.byte = f.byte from zero_add _, loadLE_holeAt _ f.width.bytes_le,
    fieldShift_zero, if_pos f.bits_pos, memBit_holeAt,
    show objAddr .alloca (fieldState d 0 (holeAt f.byte)).st 0 =
      word (holeAt f.byte) d dctxScratchmem + 0 from rfl, hbase] at hv
  have hlt := of_decide_eq_false (hv.symm.trans getLsbD_zero)
  have herr := f.byte_error
  rw [show (-1) + 0 + BitVec.ofNat 64 ((f.offset + 0) / 8) - f.byte =
    BitVec.ofNat 64 (f.offset / 8) - f.byte + (-1) by rw [Nat.add_zero]; grind,
    toNat_add, show (-1 : BitVec 64).toNat = 2 ^ 64 - 1 from rfl] at hlt
  omega

theorem FieldRight.inReach : f.InReach := by
  have hv := h.loaded 0 0 (holeAt f.byte) 0 (by decide)
  have hobj : objAddr cls (fieldState 0 0 (holeAt f.byte)).st 0 = 0 := by
    cases cls with
    | kernel => rfl
    | dptr => rfl
    | alloca => exact absurd rfl h.not_alloca
  rw [hobj, show 0 + f.byte = f.byte from zero_add _, loadLE_holeAt _ f.width.bytes_le,
    fieldShift_zero, if_pos f.bits_pos, memBit_holeAt, Nat.add_zero,
    show 0 + BitVec.ofNat 64 (f.offset / 8) = BitVec.ofNat 64 (f.offset / 8) from
      zero_add _] at hv
  have hlt := of_decide_eq_false (hv.symm.trans getLsbD_zero)
  have herr := f.byte_error
  rw [toNat_sub] at hlt herr
  apply eq_of_toNat_eq
  omega

theorem FieldRight.fits : f.Fits := by
  have hpos := f.bits_pos
  have hle := f.bits_le
  let mem : Mem := fun _ => 0xff
  have hones : ∀ a k, memBit mem a k = true := by
    have hall : ∀ j < 8, (0xff : BitVec 8).getLsbD j = true := by decide
    exact fun a k => hall _ (by omega)
  have hv : ∀ i < f.bits,
      (fieldShift f (loadLE mem (0 + f.byte) f.width.bytes)).getLsbD i = true := by
    intro i hi
    rw [h.loaded 0 0 mem i (by omega), if_pos hi, hones]
  by_contra hfits
  unfold BitField.Fits at hfits
  by_cases h64 : f.offset % 8 + f.bits ≤ 64
  · -- the last bit lies behind the load
    have hlast := hv (f.bits - 1) (by omega)
    rw [getLsbD_fieldShift f h64 _ (by omega), if_pos (by omega),
      getLsbD_loadLE _ _ f.width.bytes_le, decide_eq_false (by omega)] at hlast
    cases hlast
  · have hfirst := hv 0 hpos
    rw [getLsbD_fieldShift_over f (by omega)] at hfirst
    cases hfirst

theorem FieldRight.bits_lt : f.bits < 64 := by
  have hle := f.width.bytes_le
  have hpos := f.bits_pos
  by_contra h64
  have heq : f.bits = 64 := by have := f.bits_le; omega
  let σ : State := ⟨fun r => if r = 1 then -1 else 0, fun _ => 0, fun _ => 0⟩
  have hzero : ∀ (a) (n), n ≤ 8 → loadLE σ.mem a n = 0 :=
    fun a n hn => loadLE_eq_zero hn fun i _ => getLsbD_zero
  -- the mask of the field is zero: the word that was loaded is stored again
  have hword : ∀ v, fieldWord f 0 v = 0 := by
    intro v
    apply eq_of_getLsbD_eq
    intro k hk
    rw [getLsbD_fieldWord _ _ hk, if_neg (by omega)]
  have hgen : (dtCgStoreField f 1 2 freshGen).isSome = true := by
    simp only [dtCgStoreField, dtCgFieldSet, dtCgLdsize_eq]
    rfl
  obtain ⟨⟨c, g'⟩, hc⟩ := isSome_iff_exists.mp hgen
  obtain ⟨σ1, f1, hmem⟩ := frag_storeField quietEnv f hc (by decide) (by decide) σ
  obtain ⟨_, f2, -, hget⟩ := h.set quietEnv 1 2 freshGen g' c σ (by decide) (by decide) hc
  obtain rfl := Runs.unique f1.runs f2.runs
  obtain ⟨c', g1, hc'⟩ := fieldGet_generated f .dptr m
  obtain ⟨_, f3, hv1⟩ := frag_fieldGet (X := onesEnv) hc' (by decide)
    fun _ => rfl
  obtain ⟨_, f4, hv2⟩ := hget onesEnv 8 freshGen g1 c' (fieldState 0 0 σ1.mem) (by decide) hc' rfl
    rfl
  obtain rfl := Runs.unique f3.runs f4.runs
  have hread : loadLE σ1.mem (0 + f.byte) f.width.bytes = 0 := by
    apply eq_of_getLsbD_eq
    intro i hi
    rw [getLsbD_loadLE _ _ hle, hmem, hzero _ _ hle, hword]
    by_cases hin : i < 8 * f.width.bytes
    · rw [show σ.regs 2 + f.byte = 0 + f.byte from rfl, memBit_storeLE _ _ _ hle hin]
      simp
    · simp [hin]
  have hbit := hv2 0 (by decide)
  rw [if_pos hpos, hv1, show (fieldState 0 0 σ1.mem).st.regs 8 = 0 from rfl,
    show (fieldState 0 0 σ1.mem).st.mem = σ1.mem from rfl, hread, fieldShift_zero] at hbit
  exact absurd hbit (by decide)

end

/-- **Bit-fields**: the code is right for exactly the fields that end inside their load, in reach
of an immediate operand, narrower than a word, of memory other than scratch memory. -/
theorem fieldRight_iff (f : BitField) (cls : PtrClass) (m : MemberOp) :
    FieldRight f cls m ↔ cls ≠ .alloca ∧ f.Fits ∧ f.InReach ∧ f.bits < 64 :=
  ⟨fun h => ⟨h.not_alloca, h.fits, h.inReach, h.bits_lt⟩,
    fun ⟨hcls, hfits, hreach, h64⟩ => fieldRight_of_fits hcls hfits hreach h64⟩

end

/-- `unsigned int x : 7` five bits into its structure: memory of ones reads as `7`, not `127`. -/
theorem straddling_field_cut : ∃ (f : BitField) (c : XIr) (g' : Gen) (s' : XState),
    f.offset = 5 ∧ f.bits = 7 ∧ dtCgFieldGet f .dptr .ptr 8 freshGen = some (c, g') ∧
      Frag (xexec onesEnv) c onesState s' ∧ s'.st.regs 8 = 7 ∧
      ¬ IsField onesState.st.mem (onesState.st.regs 8) f (s'.st.regs 8) := by
  let f : BitField := ⟨5, 7, false, by decide, by decide⟩
  obtain ⟨c, g', hc⟩ := fieldGet_generated f .dptr .ptr
  obtain ⟨s', fr, hv⟩ := frag_fieldGet (X := onesEnv) (s := onesState) hc (by decide)
    fun _ => rfl
  have h7 : s'.st.regs 8 = 7 := hv.trans (by decide)
  refine ⟨f, c, g', s', rfl, rfl, hc, fr, h7, fun hfield => ?_⟩
  have hbit := hfield 3 (by decide)
  rw [h7] at hbit
  exact absurd hbit (by decide)

end DTrace.Cg
