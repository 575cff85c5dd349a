import DTrace.Cg.Emit

/-!
# The shape of generated code

What code generation does to its own state, whatever the code computes:

* **the register set** goes where a single `dt_regset_alloc` would have taken it, and the
  result is in the register that call would have returned. Everything allocated in between
  has been freed;
* **the labels** defined are distinct, and were handed out while the code was generated.

`Generator.Shaped` states both, and every generator has it when the generators of its
operands do. The `_some` lemmas read a successful run of a generator back into its parts;
they are what the correctness proofs start from.
-/

namespace DTrace.Cg

open LabelCode Bpf Option List

structure Shape (g : Gen) (out : Emitted) : Prop where
  alloc : ∃ c, dtRegsetAlloc g.regs = some (out.reg, out.gen.regs, c)
  label_le : g.label ≤ out.gen.label
  inRange : InRange g.label out.gen.label (labels out.code)

def Generator.Shaped (cg : Generator) : Prop :=
  ∀ g out, 0 ∉ g.regs.spilled → cg g = some out → Shape g out

variable {g : Gen} {out : Emitted} {c : Ir} {g' : Gen}

theorem Shape.zero_not_spilled (h : Shape g out) (h0 : 0 ∉ g.regs.spilled) :
    0 ∉ out.gen.regs.spilled := by
  obtain ⟨c, hc⟩ := h.alloc
  exact dtRegsetAlloc_zero_not_spilled hc h0

/-- The result register is taken. -/
theorem Shape.xalloc (h : Shape g out) :
    out.reg ∈ out.gen.regs.active ∧ ∃ c, dtRegsetXalloc g.regs out.reg = some (out.gen.regs, c) := by
  obtain ⟨c, ha⟩ := h.alloc
  obtain ⟨-, hx⟩ := dtRegsetAlloc_xalloc ha
  obtain ⟨-, -, -, hact, -, -⟩ := dtRegsetXalloc_some hx
  exact ⟨by simp [hact], c, hx⟩

/-! ## Labels of the small pieces -/

@[simp] theorem labels_emit (i : Insn) : labels (emit i) = [] := rfl

theorem labels_emitl {lbl : Nat} (i : Insn) (h : lbl ≠ 0) : labels (emitl lbl i) = [lbl] := by
  simp [emitl, labels, h]

@[simp] theorem labels_spillStore (reg : Nat) : labels (dtCgSpillStore reg) = [] := rfl

@[simp] theorem labels_spillLoad (reg : Nat) : labels (dtCgSpillLoad reg) = [] := rfl

@[simp] theorem labels_setx (reg : Nat) (x : BitVec 64) : labels (dtCgSetx reg x) = [] := rfl

@[simp] theorem labels_save (drp : Regset) (reg : Nat) : labels (save drp reg) = [] := by
  unfold save
  split <;> simp

@[simp] theorem labels_reload (drp : Regset) (reg : Nat) : labels (reload drp reg) = [] := by
  unfold reload
  split <;> simp

@[simp] theorem labels_promote (t : IntType) (reg : Nat) : labels (dtCgPromote t reg) = [] := by
  unfold dtCgPromote
  split <;> simp

@[simp] theorem labels_typecast (src dst : IntType) (reg : Nat) :
    labels (dtCgTypecast src dst reg) = [] := by
  unfold dtCgTypecast
  split <;> simp

@[simp] theorem labels_probeError (fault ill : BitVec 32) :
    labels (dtCgProbeError fault ill) = [] := by
  simp [dtCgProbeError]

theorem labels_xalloc {drp drp' : Regset} {reg : Nat}
    (h : dtRegsetXalloc drp reg = some (drp', c)) : labels c = [] := by
  obtain ⟨-, -, -, -, -, rfl⟩ := dtRegsetXalloc_some h
  exact labels_save drp reg

/-! ## Generator state -/

namespace Gen

@[simp] theorem labels_label (g : Gen) (n : Nat) : (g.labels n).label = g.label + n := rfl

@[simp] theorem labels_regs (g : Gen) (n : Nat) : (g.labels n).regs = g.regs := rfl

variable {reg : Nat}

theorem alloc_some {g g' : Gen} {c : Ir} (h : g.alloc = some (reg, c, g')) :
    dtRegsetAlloc g.regs = some (reg, g'.regs, c) ∧ g'.label = g.label := by
  simp only [alloc, bind_eq_bind, bind_eq_some_iff, Prod.exists] at h
  obtain ⟨reg', _, c', ha, heq⟩ := h
  obtain ⟨rfl, rfl, rfl⟩ : reg' = reg ∧ c' = c ∧ _ = g' := by simpa using heq
  exact ⟨ha, rfl⟩

/-- Freeing an allocated register gives back the set it was allocated from. -/
theorem free_alloc {drp : Regset} {g : Gen} {c : Ir}
    (ha : dtRegsetAlloc drp = some (reg, g.regs, c)) :
    g.free reg = some (reload drp reg, ⟨g.label, drp, g.label_pos⟩) := by
  simp [free, dtRegsetFree_of_xalloc (dtRegsetAlloc_xalloc ha).2]

theorem free_of_alloc {drp : Regset} {g g' : Gen} {c c' : Ir}
    (ha : dtRegsetAlloc drp = some (reg, g.regs, c)) (h : g.free reg = some (c', g')) :
    c' = reload drp reg ∧ g' = ⟨g.label, drp, g.label_pos⟩ := by
  rw [free_alloc ha] at h
  cases h
  exact ⟨rfl, rfl⟩

theorem free_some {g g' : Gen} {c : Ir} (h : g.free reg = some (c, g')) :
    dtRegsetFree g.regs reg = some (g'.regs, c) ∧ g'.label = g.label := by
  simp only [free, bind_eq_bind, bind_eq_some_iff, Prod.exists] at h
  obtain ⟨_, _, hfree, rfl, rfl⟩ := h
  exact ⟨hfree, rfl⟩

end Gen

/-- The state after a generator whose result has been freed: the register set it started from. -/
def Emitted.back (out : Emitted) (g : Gen) : Gen := ⟨out.gen.label, g.regs, out.gen.label_pos⟩

theorem Shape.free (h : Shape g out) (hf : out.gen.free out.reg = some (c, g')) :
    c = reload g.regs out.reg ∧ g' = out.back g := by
  obtain ⟨_, ha⟩ := h.alloc
  exact Gen.free_of_alloc ha hf

/-- Two generators started on the same set use the same result register. -/
theorem Shape.reg_eq {g1 g2 : Gen} {out1 out2 : Emitted} (h1 : Shape g1 out1)
    (h2 : Shape g2 out2) (h : g1.regs = g2.regs) : out1.reg = out2.reg := by
  obtain ⟨_, ha1⟩ := h1.alloc
  obtain ⟨_, ha2⟩ := h2.alloc
  rw [h, ha2] at ha1
  simp only [some.injEq, Prod.mk.injEq] at ha1
  exact ha1.1.symm

/-! ## Operators, read back -/

section
variable {expr lp rp : Generator} {g : Gen} {out : Emitted}

/-- The code between the operands and the free of an arithmetic operator. -/
def arithBlock (op : AluOp) (signed : Bool) (rl rr lbl : Nat) : Ir :=
  if (op = .mod ∨ op = .div) ∧ signed = true then dtCgSignedDivMod op rl rr lbl
  else emit (.alu op rl rr)

theorem dtCgArithmeticOp_some {op : AluOp} {signed : Bool} (hl : lp.Shaped) (hr : rp.Shaped)
    (h0 : 0 ∉ g.regs.spilled) (h : dtCgArithmeticOp op signed lp rp g = some out) :
    ∃ l r, lp g = some l ∧ rp l.gen = some r ∧ Shape g l ∧ Shape l.gen r ∧
      out.reg = l.reg ∧ out.gen.regs = l.gen.regs ∧ r.gen.label ≤ out.gen.label ∧
      InRange r.gen.label out.gen.label (labels (arithBlock op signed l.reg r.reg r.gen.label)) ∧
      out.code = l.code ++ (r.code ++ (arithBlock op signed l.reg r.reg r.gen.label ++
        reload l.gen.regs r.reg)) := by
  simp only [dtCgArithmeticOp, bind_eq_bind, bind_eq_some_iff] at h
  obtain ⟨l, hlp, r, hrp, h⟩ := h
  have sl := hl g l h0 hlp
  have sr := hr l.gen r (sl.zero_not_spilled h0) hrp
  obtain ⟨_, ha⟩ := sr.alloc
  have hpos := r.gen.label_pos
  refine ⟨l, r, hlp, hrp, sl, sr, ?_⟩
  unfold arithBlock
  split at h
  · next hop =>
    simp only [bind_eq_some_iff, Prod.exists] at h
    obtain ⟨cf, g', hf, heq⟩ := h
    obtain ⟨rfl, rfl⟩ := Gen.free_of_alloc (g := r.gen.labels 6) ha hf
    obtain rfl := some.inj heq
    rw [if_pos hop]
    refine ⟨rfl, rfl, by simp, ?_, by simp⟩
    have hls : labels (dtCgSignedDivMod op l.reg r.reg r.gen.label) =
        [r.gen.label + 5, r.gen.label, r.gen.label + 1, r.gen.label + 2, r.gen.label + 3,
          r.gen.label + 4] := by
      simp [dtCgSignedDivMod, dtCgSignedSteps, labels_emitl, hpos.ne']
    rw [hls]
    refine ⟨by simp, ?_⟩
    simp only [mem_cons, not_mem_nil, or_false, Gen.labels_label]
    omega
  · next hop =>
    simp only [bind_eq_some_iff, Prod.exists] at h
    obtain ⟨cf, g', hf, heq⟩ := h
    obtain ⟨rfl, rfl⟩ := Gen.free_of_alloc ha hf
    obtain rfl := some.inj heq
    rw [if_neg hop]
    exact ⟨rfl, rfl, le_rfl, by simpa using InRange.nil _ _, by simp⟩

theorem dtCgArithmeticOp_shaped {op : AluOp} {signed : Bool} (hl : lp.Shaped)
    (hr : rp.Shaped) : (dtCgArithmeticOp op signed lp rp).Shaped := by
  intro g out h0 h
  obtain ⟨l, r, -, -, sl, sr, hreg, hregs, hle, hin, hcode⟩ := dtCgArithmeticOp_some hl hr h0 h
  have hgl := sl.label_le
  have hlr := sr.label_le
  refine ⟨?_, by omega, ?_⟩
  · obtain ⟨c, ha⟩ := sl.alloc
    exact ⟨c, by rw [hreg, hregs]; exact ha⟩
  · rw [hcode]
    simp only [labels_append, labels_reload, List.append_nil]
    exact sl.inRange.append (sr.inRange.append hin hlr hle) hgl (by omega)

theorem dtCgCompareOp_some {op : JmpOp} (hl : lp.Shaped) (hr : rp.Shaped)
    (h0 : 0 ∉ g.regs.spilled) (h : dtCgCompareOp op lp rp g = some out) :
    ∃ l r, lp (g.labels 2) = some l ∧ rp l.gen = some r ∧ Shape (g.labels 2) l ∧
      Shape l.gen r ∧ out.reg = l.reg ∧ out.gen.regs = l.gen.regs ∧
      out.gen.label = r.gen.label ∧
      out.code = l.code ++ (r.code ++ (⟨0, .branch op l.reg r.reg g.label⟩ ::
        ((reload l.gen.regs r.reg ++ [⟨0, .movImm l.reg 0⟩, ⟨0, .jump (g.label + 1)⟩]) ++
        [⟨g.label, .movImm l.reg 1⟩, ⟨g.label + 1, .nop⟩]))) := by
  simp only [dtCgCompareOp, bind_eq_bind, bind_eq_some_iff, Prod.exists] at h
  obtain ⟨l, hlp, r, hrp, _, _, hf, heq⟩ := h
  have sl := hl (g.labels 2) l h0 hlp
  have sr := hr l.gen r (sl.zero_not_spilled h0) hrp
  obtain ⟨rfl, rfl⟩ := sr.free hf
  obtain rfl := some.inj heq
  exact ⟨l, r, hlp, hrp, sl, sr, rfl, rfl, rfl, by simp [emit, emitl]⟩

theorem dtCgTernaryOp_some (he : expr.Shaped) (hl : lp.Shaped) (hr : rp.Shaped)
    (h0 : 0 ∉ g.regs.spilled) (h : dtCgTernaryOp expr lp rp g = some out) :
    ∃ e l r, expr (g.labels 2) = some e ∧ Shape (g.labels 2) e ∧
      lp (e.back g) = some l ∧ Shape (e.back g) l ∧ rp (l.back g) = some r ∧
      Shape (l.back g) r ∧ out.reg = r.reg ∧ out.gen = r.gen ∧
      out.code = e.code ++ (⟨0, .branchImm .jeq e.reg 0 g.label⟩ ::
        ((reload g.regs e.reg ++ (l.code ++ ⟨0, .mov r.reg l.reg⟩ :: (reload g.regs l.reg ++
          [⟨0, .jump (g.label + 1)⟩]))) ++
        ⟨g.label, .nop⟩ :: (r.code ++ [⟨g.label + 1, .nop⟩]))) := by
  simp only [dtCgTernaryOp, bind_eq_bind, bind_eq_some_iff, Prod.exists] at h
  obtain ⟨e, hex, _, _, hfe, l, hlp, _, _, hfl, r, hrp, heq⟩ := h
  have se := he (g.labels 2) e h0 hex
  obtain ⟨rfl, rfl⟩ := se.free hfe
  have sl := hl (e.back g) l h0 hlp
  obtain ⟨rfl, rfl⟩ := sl.free hfl
  have sr := hr (l.back g) r h0 hrp
  obtain rfl := some.inj heq
  exact ⟨e, l, r, hex, se, hlp, sl, hrp, sr, rfl, rfl, by simp [emit, emitl, Emitted.back]⟩

theorem dtCgLogicalAnd_some (hl : lp.Shaped) (hr : rp.Shaped)
    (h0 : 0 ∉ g.regs.spilled) (h : dtCgLogicalAnd lp rp g = some out) :
    ∃ l r, lp (g.labels 2) = some l ∧ Shape (g.labels 2) l ∧ rp (l.back g) = some r ∧
      Shape (l.back g) r ∧ out.reg = r.reg ∧ out.gen = r.gen ∧
      out.code = l.code ++ (⟨0, .branchImm .jeq l.reg 0 g.label⟩ ::
        ((reload g.regs l.reg ++ (r.code ++ (⟨0, .branchImm .jeq r.reg 0 g.label⟩ ::
          (dtCgSetx r.reg 1 ++ [⟨0, .jump (g.label + 1)⟩])))) ++
        [⟨g.label, .movImm r.reg 0⟩, ⟨g.label + 1, .nop⟩])) := by
  simp only [dtCgLogicalAnd, bind_eq_bind, bind_eq_some_iff, Prod.exists] at h
  obtain ⟨l, hlp, _, _, hfl, r, hrp, heq⟩ := h
  have sl := hl (g.labels 2) l h0 hlp
  obtain ⟨rfl, rfl⟩ := sl.free hfl
  have sr := hr (l.back g) r h0 hrp
  obtain rfl := some.inj heq
  exact ⟨l, r, hlp, sl, hrp, sr, rfl, rfl, by simp [emit, emitl]⟩

theorem dtCgLogicalOr_some (hl : lp.Shaped) (hr : rp.Shaped)
    (h0 : 0 ∉ g.regs.spilled) (h : dtCgLogicalOr lp rp g = some out) :
    ∃ l r, lp (g.labels 3) = some l ∧ Shape (g.labels 3) l ∧ rp (l.back g) = some r ∧
      Shape (l.back g) r ∧ out.reg = r.reg ∧ out.gen = r.gen ∧
      out.code = l.code ++ (⟨0, .branchImm .jne l.reg 0 g.label⟩ ::
        ((reload g.regs l.reg ++ (r.code ++ [⟨0, .branchImm .jeq r.reg 0 (g.label + 1)⟩])) ++
        ⟨g.label, .movImm r.reg 1⟩ :: ([⟨0, .jump (g.label + 2)⟩] ++
        [⟨g.label + 1, .movImm r.reg 0⟩, ⟨g.label + 2, .nop⟩]))) := by
  simp only [dtCgLogicalOr, bind_eq_bind, bind_eq_some_iff, Prod.exists] at h
  obtain ⟨l, hlp, _, _, hfl, r, hrp, heq⟩ := h
  have sl := hl (g.labels 3) l h0 hlp
  obtain ⟨rfl, rfl⟩ := sl.free hfl
  have sr := hr (l.back g) r h0 hrp
  obtain rfl := some.inj heq
  exact ⟨l, r, hlp, sl, hrp, sr, rfl, rfl, by simp [emit, emitl]⟩

theorem dtCgLogicalXor_some (hl : lp.Shaped) (hr : rp.Shaped)
    (h0 : 0 ∉ g.regs.spilled) (h : dtCgLogicalXor lp rp g = some out) :
    ∃ l r, lp (g.labels 2) = some l ∧ rp l.gen = some r ∧ Shape (g.labels 2) l ∧
      Shape l.gen r ∧ out.reg = l.reg ∧ out.gen.regs = l.gen.regs ∧
      out.gen.label = r.gen.label ∧
      out.code = l.code ++ (⟨0, .branchImm .jeq l.reg 0 g.label⟩ ::
        (dtCgSetx l.reg 1 ++ ⟨g.label, .nop⟩ ::
          (r.code ++ (⟨0, .branchImm .jeq r.reg 0 (g.label + 1)⟩ ::
            (dtCgSetx r.reg 1 ++ ⟨g.label + 1, .alu .xor l.reg r.reg⟩ ::
              reload l.gen.regs r.reg))))) := by
  simp only [dtCgLogicalXor, bind_eq_bind, bind_eq_some_iff, Prod.exists] at h
  obtain ⟨l, hlp, r, hrp, _, _, hf, heq⟩ := h
  have sl := hl (g.labels 2) l h0 hlp
  have sr := hr l.gen r (sl.zero_not_spilled h0) hrp
  obtain ⟨rfl, rfl⟩ := sr.free hf
  obtain rfl := some.inj heq
  exact ⟨l, r, hlp, hrp, sl, sr, rfl, rfl, rfl, by simp [emit, emitl]⟩

/-! ## Operators keep the shape -/

theorem Shape.of_eq {g g1 : Gen} {l : Emitted} (h : Shape g1 l) (hregs : g1.regs = g.regs)
    (hreg : out.reg = l.reg) (hgen : out.gen.regs = l.gen.regs) (hle : g.label ≤ out.gen.label)
    (hin : InRange g.label out.gen.label (labels out.code)) : Shape g out := by
  obtain ⟨c, ha⟩ := h.alloc
  exact ⟨⟨c, by rw [hreg, hgen, ← hregs]; exact ha⟩, hle, hin⟩

/-- Two labels of its own, one of them last. -/
theorem inRange_two {n top : Nat} {a b : List Nat} (h : InRange (n + 2) top (a ++ b))
    (hle : n + 2 ≤ top) : InRange n top (a ++ n :: (b ++ [n + 1])) := by
  have h1 := h.concat (l := n + 1) (by simp) hle
  exact InRange.insert (by simpa using h1) (Nat.lt_succ_self _) (by omega)

theorem dtCgCompareOp_shaped {op : JmpOp} (hl : lp.Shaped) (hr : rp.Shaped) :
    (dtCgCompareOp op lp rp).Shaped := by
  intro g out h0 h
  obtain ⟨l, r, -, -, sl, sr, hreg, hregs, hlab, hcode⟩ := dtCgCompareOp_some hl hr h0 h
  have hpos := g.label_pos
  have hgl : g.label + 2 ≤ l.gen.label := sl.label_le
  have hlr := sr.label_le
  have hin := sl.inRange.append sr.inRange hgl hlr
  refine sl.of_eq rfl hreg hregs (by omega) ?_
  rw [← append_nil (_ ++ _)] at hin
  rw [hcode, hlab]
  simpa [labels_cons_pos, hpos.ne'] using inRange_two hin (by omega)

theorem dtCgTernaryOp_shaped (he : expr.Shaped) (hl : lp.Shaped) (hr : rp.Shaped) :
    (dtCgTernaryOp expr lp rp).Shaped := by
  intro g out h0 h
  obtain ⟨e, l, r, -, se, -, sl, -, sr, hreg, hgen, hcode⟩ := dtCgTernaryOp_some he hl hr h0 h
  have hpos := g.label_pos
  have hge : g.label + 2 ≤ e.gen.label := se.label_le
  have hel : e.gen.label ≤ l.gen.label := sl.label_le
  have hlr : l.gen.label ≤ r.gen.label := sr.label_le
  have hin := se.inRange.append (sl.inRange.append sr.inRange hel hlr) hge (hel.trans hlr)
  refine sr.of_eq rfl hreg (by rw [hgen]) (by rw [hgen]; omega) ?_
  rw [← append_assoc] at hin
  rw [hcode, hgen]
  simpa [labels_cons_pos, hpos.ne'] using inRange_two hin (by omega)

theorem dtCgLogicalAnd_shaped (hl : lp.Shaped) (hr : rp.Shaped) :
    (dtCgLogicalAnd lp rp).Shaped := by
  intro g out h0 h
  obtain ⟨l, r, -, sl, -, sr, hreg, hgen, hcode⟩ := dtCgLogicalAnd_some hl hr h0 h
  have hpos := g.label_pos
  have hgl : g.label + 2 ≤ l.gen.label := sl.label_le
  have hlr : l.gen.label ≤ r.gen.label := sr.label_le
  have hin := sl.inRange.append sr.inRange hgl hlr
  refine sr.of_eq rfl hreg (by rw [hgen]) (by rw [hgen]; omega) ?_
  rw [← append_nil (_ ++ _)] at hin
  rw [hcode, hgen]
  simpa [labels_cons_pos, hpos.ne'] using inRange_two hin (by omega)

theorem dtCgLogicalOr_shaped (hl : lp.Shaped) (hr : rp.Shaped) :
    (dtCgLogicalOr lp rp).Shaped := by
  intro g out h0 h
  obtain ⟨l, r, -, sl, -, sr, hreg, hgen, hcode⟩ := dtCgLogicalOr_some hl hr h0 h
  have hpos := g.label_pos
  have hgl : g.label + 3 ≤ l.gen.label := sl.label_le
  have hlr : l.gen.label ≤ r.gen.label := sr.label_le
  have hin := sl.inRange.append sr.inRange hgl hlr
  refine sr.of_eq rfl hreg (by rw [hgen]) (by rw [hgen]; omega) ?_
  have h1 := hin.concat (l := g.label + 2) (by simp) (by simp; omega)
  have h2 := h1.insert (l := g.label + 1) (by omega) (by omega)
  have h3 := h2.insert (l := g.label) (by omega) (by omega)
  rw [hcode, hgen]
  simpa [labels_cons_pos, hpos.ne'] using h3

theorem dtCgLogicalXor_shaped (hl : lp.Shaped) (hr : rp.Shaped) :
    (dtCgLogicalXor lp rp).Shaped := by
  intro g out h0 h
  obtain ⟨l, r, -, -, sl, sr, hreg, hregs, hlab, hcode⟩ := dtCgLogicalXor_some hl hr h0 h
  have hpos := g.label_pos
  have hgl : g.label + 2 ≤ l.gen.label := sl.label_le
  have hlr := sr.label_le
  have hin := sl.inRange.append sr.inRange hgl hlr
  refine sl.of_eq rfl hreg hregs (by omega) ?_
  rw [hcode, hlab]
  simpa [labels_cons_pos, hpos.ne'] using inRange_two hin (by omega)

theorem dtCgLogicalNeg_shaped (hc : lp.Shaped) : (dtCgLogicalNeg lp).Shaped := by
  intro g out h0 h
  simp only [dtCgLogicalNeg, bind_eq_bind, bind_eq_some_iff] at h
  obtain ⟨c, hcp, heq⟩ := h
  have sc := hc (g.labels 2) c h0 hcp
  obtain rfl := some.inj heq
  have hpos := g.label_pos
  have hgl : g.label + 2 ≤ c.gen.label := sc.label_le
  refine sc.of_eq rfl rfl rfl (by simp only; omega) ?_
  simpa [labels_emitl, hpos.ne'] using
    inRange_two (b := []) (by simpa using sc.inRange) hgl

theorem dtCgUnary_shaped {f : Nat → Ir} (hc : lp.Shaped) (hf : ∀ reg, labels (f reg) = []) :
    (dtCgUnary lp f).Shaped := by
  intro g out h0 h
  simp only [dtCgUnary, bind_eq_bind, bind_eq_some_iff] at h
  obtain ⟨c, hcp, heq⟩ := h
  have sc := hc g c h0 hcp
  obtain rfl := some.inj heq
  exact sc.of_eq rfl rfl rfl sc.label_le (by simpa [hf] using sc.inRange)

theorem dtCgOp1_shaped (op : Op1) (hc : lp.Shaped) : (dtCgOp1 op lp).Shaped := by
  cases op with
  | ineg => exact dtCgUnary_shaped hc fun _ => labels_emit _
  | ipos => exact hc
  | bneg =>
    show (dtCgUnary lp fun reg => emit (.aluImm .xor reg (-1))).Shaped
    exact dtCgUnary_shaped hc fun _ => labels_emit _
  | lneg => exact dtCgLogicalNeg_shaped hc

theorem dtCgOp2_shaped (op : Op2) (lt rt : IntType) (hl : lp.Shaped) (hr : rp.Shaped) :
    (dtCgOp2 op lt rt lp rp).Shaped := by
  cases op with
  | lor => exact dtCgLogicalOr_shaped hl hr
  | lxor => exact dtCgLogicalXor_shaped hl hr
  | land => exact dtCgLogicalAnd_shaped hl hr
  | equ | neq | lt | le | gt | ge => exact dtCgCompareOp_shaped hl hr
  | bor | xor | band | lsh | rsh | add | sub | mul | div | mod =>
    exact dtCgArithmeticOp_shaped hl hr

end

/-! ## Leaves -/

theorem shape_of_alloc {reg : Nat} {code : Ir} (ha : g.alloc = some (reg, c, g'))
    (hcode : labels code = []) : Shape g ⟨c ++ code, reg, g'⟩ := by
  obtain ⟨hal, hlab⟩ := Gen.alloc_some ha
  refine ⟨⟨c, hal⟩, hlab.ge, ?_⟩
  rw [labels_append, hcode, labels_xalloc (dtRegsetAlloc_xalloc hal).2]
  exact InRange.nil _ _

theorem dtCgInt_shaped (value : BitVec 64) : (dtCgInt value).Shaped := by
  intro g out _ h
  simp only [dtCgInt, bind_eq_bind, bind_eq_some_iff, Prod.exists] at h
  obtain ⟨_, c, _, ha, heq⟩ := h
  obtain rfl := some.inj heq
  refine shape_of_alloc ha ?_
  split <;> simp

theorem dtCgLoadArea_shaped (area off : Int) (t : IntType) :
    (dtCgLoadArea area off t).Shaped := by
  intro g out _ h
  simp only [dtCgLoadArea, bind_eq_bind, bind_eq_some_iff, Prod.exists,
    append_assoc] at h
  obtain ⟨_, c, _, ha, heq⟩ := h
  obtain rfl := some.inj heq
  exact shape_of_alloc ha (by simp)

/-- A library call leaves `%r0` taken, and nothing else. Its code stores the owners of the
argument registers, fills them, calls and reloads. -/
theorem dtCgCall_some {f : Func} {args : Ir} (h0 : 0 ∉ g.regs.spilled)
    (h : dtCgCall f args g = some (c, g')) :
    ∃ c2, dtRegsetXalloc g.regs 0 = some (g'.regs, c2) ∧ g'.label = g.label ∧
      (∀ r ∈ [1, 2, 3, 4, 5], r ∉ g.regs.spilled) ∧
      c = [1, 2, 3, 4, 5].flatMap (save g.regs) ++
        (args ++ (c2 ++ (emit (.call f) ++ [1, 2, 3, 4, 5].flatMap (reload g'.regs)))) := by
  simp only [dtCgCall, dtRegsetXallocArgs, dtRegsetFreeArgs, bind_eq_bind,
    bind_eq_some_iff, Prod.exists] at h
  obtain ⟨ok, drp1, c1, hxa, h⟩ := h
  split at h
  swap
  · simp at h
  · next hok =>
    subst hok
    obtain ⟨hsize, hfresh, hact, hsp, rfl⟩ := xallocAll_true hxa (by decide)
    have hpos : 0 < g.regs.size := by
      rw [← hsize]
      exact Nat.zero_lt_of_lt (drp1.active_lt 1 (by simp [hact]))
    have h0' : 0 ∉ drp1.spilled := by simp [hsp, h0]
    -- `%r0` is taken from the set with the arguments as it would be from the one without
    obtain ⟨drp2, c2, hx⟩ := dtRegsetXalloc_of_not_spilled (hsize.symm ▸ hpos) h0'
    obtain ⟨drp3, c3, hx'⟩ := dtRegsetXalloc_of_not_spilled hpos h0
    obtain ⟨hsize2, -, -, hact2, hsp2, hc2⟩ := dtRegsetXalloc_some hx
    obtain ⟨hsize3, -, -, hact3, hsp3, hc3⟩ := dtRegsetXalloc_some hx'
    have h0act : 0 ∈ drp1.active ↔ 0 ∈ g.regs.active := by simp [hact]
    have hfresh3 : ∀ r ∈ [1, 2, 3, 4, 5], r ∉ drp3.spilled := by
      intro r hr
      have hne : r ≠ 0 := by rintro rfl; simp at hr
      rw [hsp3]
      split <;> simp [hfresh r hr, hne]
    have hfree : freeAll [1, 2, 3, 4, 5] drp2 =
        some (drp3, [1, 2, 3, 4, 5].flatMap (reload drp3)) :=
      freeAll_of_taken (by decide) (by omega) hfresh3
      (by
        ext r
        simp only [hact2, hact, hact3, Finset.mem_insert, Finset.mem_union]
        tauto)
      (by
        by_cases ha : 0 ∈ g.regs.active <;>
          grind)
    simp only [hx, getD_some, hfree, bind_some, some.injEq,
      Prod.mk.injEq] at h
    obtain ⟨rfl, rfl⟩ := h
    refine ⟨c3, hx', rfl, hfresh, ?_⟩
    simp only [append_assoc, hc2, hc3, save, h0act]

theorem labels_call {f : Func} {args : Ir} (h0 : 0 ∉ g.regs.spilled) (hargs : labels args = [])
    (h : dtCgCall f args g = some (c, g')) : labels c = [] := by
  obtain ⟨_, hx, -, -, rfl⟩ := dtCgCall_some h0 h
  simp [hargs, labels_xalloc hx]

/-- `%r0` is freed after the result register has been allocated from the set it is taken in. -/
theorem Gen.free_zero {drp : Regset} {g1 g2 g3 : Gen} {reg : Nat} {c0 c2 c3 : Ir} {n : Nat}
    (hx : dtRegsetXalloc drp 0 = some (g1.regs, c0)) (ha : g1.alloc = some (reg, c2, g2))
    (hf : (g2.labels n).free 0 = some (c3, g3)) :
    dtRegsetAlloc g1.regs = some (reg, g2.regs, c2) ∧
      dtRegsetAlloc drp = some (reg, g3.regs, c2) ∧
      dtRegsetXalloc g3.regs 0 = some (g2.regs, c0) ∧
      c3 = reload g3.regs 0 ∧ g3.label = g1.label + n := by
  obtain ⟨hal, hlab⟩ := Gen.alloc_some ha
  obtain ⟨_, hal', hx'⟩ := dtRegsetAlloc_zero_taken hx hal
  simp only [free, bind_eq_bind, bind_eq_some_iff, Prod.exists, labels_regs,
    dtRegsetFree_of_xalloc hx'] at hf
  obtain ⟨_, _, hfree, heq⟩ := hf
  cases hfree
  cases heq
  exact ⟨hal, hal', hx', rfl, by simp [hlab]⟩

theorem dtCgLoadTvar_some {pcb : Pcb} {id : BitVec 32} {t : IntType} (h0 : 0 ∉ g.regs.spilled)
    (h : dtCgLoadVar pcb ⟨.tvar id, t⟩ g = some out) :
    ∃ c1 g1 c0 drp2 c2, dtCgCall .dtGetTvar (tvarArgs pcb id) g = some (c1, g1) ∧
      dtRegsetXalloc g.regs 0 = some (g1.regs, c0) ∧
      dtRegsetAlloc g1.regs = some (out.reg, drp2, c2) ∧
      dtRegsetAlloc g.regs = some (out.reg, out.gen.regs, c2) ∧
      dtRegsetXalloc out.gen.regs 0 = some (drp2, c0) ∧ out.gen.label = g.label + 2 ∧
      out.code = c1 ++ (c2 ++ (⟨0, .branchImm .jne 0 0 g.label⟩ ::
        ([⟨0, .movImm out.reg 0⟩, ⟨0, .jump (g.label + 1)⟩] ++
          ⟨g.label, .load t.width out.reg 0 0⟩ :: (dtCgPromote t out.reg ++
            ⟨g.label + 1, .nop⟩ :: reload out.gen.regs 0)))) := by
  simp only [dtCgLoadVar, bind_eq_bind, bind_eq_some_iff, Prod.exists] at h
  obtain ⟨c1, g1, hcall, _, c2, g2, ha, _, _, hf, heq⟩ := h
  obtain ⟨c0, hx, hlab1, -, -⟩ := dtCgCall_some h0 hcall
  obtain ⟨-, hlab2⟩ := Gen.alloc_some ha
  obtain ⟨hal, hal', hx', rfl, _⟩ := Gen.free_zero hx ha hf
  obtain rfl := some.inj heq
  refine ⟨c1, g1, c0, g2.regs, c2, hcall, hx, hal, hal', hx', by simp only; omega, ?_⟩
  simp [emit, emitl, hlab2, hlab1]

theorem dtCgCheckFault_some {pcb : Pcb} (h : dtCgCheckFault pcb g = some (c, g')) :
    ∃ reg drp c1, dtRegsetAlloc g.regs = some (reg, drp, c1) ∧ g'.regs = g.regs ∧
      g'.label = g.label ∧
      c = c1 ++ (⟨0, .load .dw reg regFP dtStkDctx⟩ :: ⟨0, .load .dw reg reg dctxMst⟩ ::
        ⟨0, .load .dw reg reg dmstFault⟩ :: ⟨0, .branchImm .jne reg 0 pcb.exitlbl⟩ ::
        reload g.regs reg) := by
  simp only [dtCgCheckFault, bind_eq_bind, bind_eq_some_iff, Prod.exists] at h
  obtain ⟨reg, c1, g1, ha, _, _, hf, heq⟩ := h
  obtain ⟨hal, hlab⟩ := Gen.alloc_some ha
  obtain ⟨rfl, rfl⟩ := Gen.free_of_alloc hal hf
  cases heq
  exact ⟨reg, g1.regs, c1, hal, rfl, hlab, by simp [emit]⟩

theorem dtCgLoadBvar_some {pcb : Pcb} {id : BitVec 32} {t : IntType} (h0 : 0 ∉ g.regs.spilled)
    (h : dtCgLoadVar pcb ⟨.bvar id, t⟩ g = some out) :
    ∃ c1 g1 c0 c2 g2 drp2 c3, dtCgCall .dtGetBvar (bvarArgs id) g = some (c1, g1) ∧
      dtRegsetXalloc g.regs 0 = some (g1.regs, c0) ∧
      dtCgCheckFault pcb g1 = some (c2, g2) ∧ g2.regs = g1.regs ∧
      dtRegsetAlloc g1.regs = some (out.reg, drp2, c3) ∧
      dtRegsetAlloc g.regs = some (out.reg, out.gen.regs, c3) ∧
      dtRegsetXalloc out.gen.regs 0 = some (drp2, c0) ∧ out.gen.label = g.label ∧
      out.code = c1 ++ (c2 ++ (c3 ++ (⟨0, .mov out.reg 0⟩ :: reload out.gen.regs 0))) := by
  simp only [dtCgLoadVar, bind_eq_bind, bind_eq_some_iff, Prod.exists] at h
  obtain ⟨c1, g1, hcall, c2, g2, hcf, _, c3, g3, ha, _, _, hf, heq⟩ := h
  obtain ⟨c0, hx, _, -, -⟩ := dtCgCall_some h0 hcall
  obtain ⟨_, _, _, -, hregs2, _, -⟩ := dtCgCheckFault_some hcf
  obtain ⟨hal, hal', hx', rfl, _⟩ :=
    Gen.free_zero (n := 0) (hregs2.symm ▸ hx) ha hf
  obtain rfl := some.inj heq
  rw [hregs2] at hal
  exact ⟨c1, g1, c0, c2, g2, g3.regs, c3, hcall, hx, hcf, hregs2, hal, hal', hx',
    by simp only; omega, by simp [emit]⟩

theorem dtCgLoadVar_shaped (pcb : Pcb) (x : Var) : (dtCgLoadVar pcb x).Shaped := by
  obtain ⟨kind, t⟩ := x
  cases kind with
  | gvar off => exact dtCgLoadArea_shaped dctxGvars off t
  | lvar off => exact dtCgLoadArea_shaped dctxLvars off t
  | tvar id =>
    intro g out h0 h
    obtain ⟨c1, g1, c0, drp2, c2, hcall, -, hal, hal', -, hlab, hcode⟩ :=
      dtCgLoadTvar_some h0 h
    have hpos := g.label_pos
    refine ⟨⟨c2, hal'⟩, by omega, ?_⟩
    have hc1 : labels c1 = [] := labels_call h0 (by simp [tvarArgs, dtCgZerosptr]) hcall
    have hc2 : labels c2 = [] := labels_xalloc (dtRegsetAlloc_xalloc hal).2
    rw [hcode, hlab]
    have hls : InRange g.label (g.label + 2) [g.label, g.label + 1] := by
      refine ⟨by simp, fun l hl => ?_⟩
      simp only [mem_cons, not_mem_nil, or_false] at hl
      omega
    simpa [hc1, hc2, labels_cons_pos, hpos.ne'] using hls
  | bvar id =>
    intro g out h0 h
    obtain ⟨c1, g1, c0, c2, _, drp2, c3, hcall, -, hcf, -, hal, hal', -, hlab, hcode⟩ :=
      dtCgLoadBvar_some h0 h
    refine ⟨⟨c3, hal'⟩, by omega, ?_⟩
    have hc1 : labels c1 = [] := labels_call h0 (by simp [bvarArgs]) hcall
    have hc2 : labels c2 = [] := by
      obtain ⟨_, _, c, ha, -, -, rfl⟩ := dtCgCheckFault_some hcf
      simp [labels_xalloc (dtRegsetAlloc_xalloc ha).2]
    have hc3 : labels c3 = [] := labels_xalloc (dtRegsetAlloc_xalloc hal).2
    rw [hcode]
    simpa [hc1, hc2, hc3] using InRange.nil _ _

/-- **Shape of generated code**: for every tree, code generation takes exactly one register
from the set, and defines only labels of its own. -/
theorem dtCgNode_shaped (pcb : Pcb) (dnp : Node) : (dtCgNode pcb dnp).Shaped := by
  induction dnp with
  | int value _ => exact dtCgInt_shaped value
  | var x => exact dtCgLoadVar_shaped pcb x
  | op1 op _ ih => exact dtCgOp1_shaped op ih
  | op2 op _ _ ihl ihr => exact dtCgOp2_shaped op _ _ ihl ihr
  | op3 _ _ _ ihe ihl ihr => exact dtCgTernaryOp_shaped ihe ihl ihr
  | cast t _ ih => exact dtCgUnary_shaped ih fun _ => labels_typecast _ _ _

/-- **Balance**: freeing the result of any tree leaves the register set as it was before, and the
labels in its code are distinct and not those of other code. -/
theorem dtCgNode_balanced (pcb : Pcb) (dnp : Node) {g : Gen} {out : Emitted}
    (h0 : 0 ∉ g.regs.spilled) (hout : dtCgNode pcb dnp g = some out) :
    (∃ c, out.gen.free out.reg = some (c, out.back g)) ∧ (labels out.code).Nodup ∧
      ∀ l ∈ labels out.code, g.label ≤ l ∧ l < out.gen.label := by
  have hshape := dtCgNode_shaped pcb dnp g out h0 hout
  obtain ⟨_, halloc⟩ := hshape.alloc
  exact ⟨⟨_, Gen.free_alloc halloc⟩, hshape.inRange.nodup, hshape.inRange.mem⟩

/-- `2 && 3`, with one register in use. -/
theorem land_balanced : ∃ g : Gen, ∃ out,
    dtCgNode ⟨99, 0⟩ (.op2 .land (.int 2 .int) (.int 3 .int)) g = some out ∧
      (labels out.code).Nodup := by
  let g : Gen := ⟨1, ⟨9, {1}, ∅, le_rfl, by decide, by simp⟩, Nat.one_pos⟩
  obtain ⟨out, hout⟩ := isSome_iff_exists.mp
    (show (dtCgNode ⟨99, 0⟩ (.op2 .land (.int 2 .int) (.int 3 .int)) g).isSome = true by decide)
  exact ⟨g, out, hout, (dtCgNode_balanced _ _ (by decide) hout).2.1⟩

end DTrace.Cg
