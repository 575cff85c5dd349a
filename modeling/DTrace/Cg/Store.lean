import DTrace.Cg.Assign
import DTrace.Cg.Spare

/-!
# Stores to scalar variables

The code of `dt_cg_store_var`, followed for a register set with registers to spare. A store
cuts the value to the width of the variable and leaves the register with the value alone. The
call for a dynamic variable is `dt_get_dvar` for the variable that is meant, in a memory in
which only the tuple has changed (`block_dvarCall`).
-/

namespace DTrace.Cg

open LabelCode Bpf Option BitVec

/-! ## Calls for dynamic variables -/

theorem depth_callX {i : XInsn} {args : Regset → Option (Regset × Ir)} {g g' : Gen} {c : XIr}
    {n : Nat → Nat} (h : dtCgCallX i args g = some (c, g'))
    (hargs : ∀ drp drp' a, args drp = some (drp', a) →
      drp'.size = drp.size ∧ ∀ q, depth drp q = depth drp' q + n q) :
    g'.regs.size = g.regs.size ∧ ∀ q, q ≠ 0 → depth g.regs q = depth g'.regs q + n q := by
  simp only [dtCgCallX, bind_eq_bind,
    bind_eq_some_iff, Prod.exists] at h
  obtain ⟨_, drp, _, hxa, h⟩ := h
  split at h
  swap
  · simp at h
  · next hok =>
    subst hok
    simp only [bind_eq_some_iff, Prod.exists] at h
    obtain ⟨drp', a, ha, _, _, hfree, heq⟩ := h
    obtain ⟨-, rfl⟩ := Prod.mk.inj (some.inj heq)
    obtain ⟨_, hd1⟩ := depth_xallocAll hxa
    obtain ⟨_, hd2⟩ := hargs drp drp' a ha
    obtain ⟨_, hd3⟩ := depth_xallocZero drp'
    obtain ⟨_, hd4⟩ := depth_freeAll hfree
    refine ⟨by simp only; omega, fun q hq => ?_⟩
    have h1 := hd1 q
    have h2 := hd2 q
    have h3 := hd3 q hq
    have h4 := hd4 q
    simp only
    omega

section
variable {X : XEnv}

namespace DvarRef

/-- The variable that is meant. -/
def var : DvarRef X → Dvar.Var Tuple
  | .tvar id => X.tvar (id.signExtend 64)
  | .assoc id args => .assoc ⟨id, args.tuple⟩

/-- What a store is told about the new value: whether it is zero. -/
def nval (store : Option Nat) (σ : State) : DvarRef X → BitVec 64
  | .tvar id => tvarNval id store σ
  | .assoc id _ => assocNval id X.tupleAddr store σ

/-- Assembling the tuple leaves this byte alone. -/
def Outside : DvarRef X → BitVec 64 → Prop
  | .tvar _, _ => True
  | .assoc _ _, a => 4 + X.tupleSize ≤ (a - X.tupleAddr).toNat

end DvarRef

/-- The variable ID goes in front of the tuple. -/
theorem assoc_tupleMem {m : Mem} {id : BitVec 32} (args : Arglist X)
    (h : (List.ofFn fun i : Fin X.tupleSize => m (X.tupleAddr + BitVec.ofNat 64 (4 + i))) = args.tuple) :
    X.assoc (id.signExtend 64) X.tupleAddr (tupleMem m X.tupleAddr id) = .assoc ⟨id, args.tuple⟩ := by
  have hid : (id.signExtend 64).truncate 32 = id := by
    apply eq_of_getLsbD_eq
    intro i hi
    simp [getLsbD_signExtend, hi]
    omega
  have htuple : (List.ofFn fun i : Fin X.tupleSize =>
      tupleMem m X.tupleAddr id (X.tupleAddr + BitVec.ofNat 64 (4 + i))) = args.tuple := by
    rw [← h]
    congr 1
    funext i
    have hfits := args.bounded
    have hsub : X.tupleAddr + BitVec.ofNat 64 (4 + i) - X.tupleAddr = BitVec.ofNat 64 (4 + i) := by
      bv_omega
    apply storeLE_of_ge
    rw [hsub, toNat_ofNat]
    omega
  rw [XEnv.assoc, hid, htuple]

/-- A byte outside the area is not changed by assembling the tuple and placing the ID. -/
theorem tupleMem_of_outside {args : Arglist X} {id : BitVec 32} {m m' : Mem} {a : BitVec 64}
    (hm : ∀ a, 4 + X.tupleSize ≤ (a - X.tupleAddr).toNat → m' a = m a)
    (ha : (DvarRef.assoc id args).Outside a) : tupleMem m' X.tupleAddr id a = m a := by
  have hge : 4 + X.tupleSize ≤ (a - X.tupleAddr).toNat := ha
  rw [tupleMem, storeLE_of_ge (by omega), hm a hge]

section
variable {pcb : Pcb} {ref : DvarRef X} {store : Option Nat} {g g' : Gen} {c : XIr}

/-- Whatever a call takes, it gives back, `%r0` apart. -/
theorem depth_dvarCall (h : dtCgDvarCall pcb ref store g = some (c, g'))
    (hne : (spare g.regs).Nonempty) :
    g'.regs.size = g.regs.size ∧ ∀ q, q ≠ 0 → depth g'.regs q = depth g.regs q := by
  cases ref with
  | tvar id =>
    simp only [dtCgDvarCall] at h
    obtain ⟨hsize, hd⟩ := depth_callX (n := fun _ => 0) h fun drp drp' a ha => by
      obtain ⟨rfl, -⟩ := Prod.mk.inj (some.inj ha)
      simp
    exact ⟨hsize, fun q hq => (hd q hq).symm⟩
  | assoc id args =>
    simp only [dtCgDvarCall, bind_eq_bind, bind_eq_some_iff, Prod.exists] at h
    obtain ⟨t, ht, _, _, hcall, rfl, rfl⟩ := h
    obtain ⟨_, hal⟩ := args.alloc ht
    obtain ⟨-, -, -, -, hsize, hd⟩ := alloc_spare hne hal
    obtain ⟨hsize', hd'⟩ := depth_callX hcall
      fun drp drp' a ha => by
        obtain ⟨_, hfree, -⟩ := assocArgs_some ha
        exact depth_free hfree
    refine ⟨hsize'.trans hsize, fun q hq => ?_⟩
    have h1 := hd q
    have h2 := hd' q hq
    omega

/-- **The call for a dynamic variable**: `dt_get_dvar` for the variable that is meant, in a
memory in which only the tuple has changed. -/
theorem block_dvarCall {s : XState} (keep : List Nat)
    (h : dtCgDvarCall pcb ref store g = some (c, g')) (hroom : 2 ≤ (spare g.regs).card)
    (hkeep : ∀ q ∈ keep, q ∈ g.regs.active ∧ q ≠ 0) (hstore : ∀ reg ∈ store, reg ∈ keep) :
    InRange g.label g'.label (labels c) ∧ g.label ≤ g'.label ∧
      ∃ m dflt, (∀ a, ref.Outside a → m a = s.st.mem a) ∧
        ∀ m' dv a, X.getDvar ref.var (if store.isSome then 1 else 0) (ref.nval store s.st) dflt m
            s.dvars = some (m', dv, a) →
          ∃ s', Block (xexec X) c s s' ∧ s'.st.regs 0 = a ∧ s'.st.mem = m' ∧ s'.dvars = dv ∧
            Slots s.st s'.st ∧ ∀ q ∈ keep, s'.st.regs q = s.st.regs q := by
  cases ref with
  | tvar id =>
    simp only [dtCgDvarCall] at h
    obtain ⟨hlab, hl⟩ := labels_callX h fun drp drp' a ha => by
      obtain ⟨-, rfl⟩ := Prod.mk.inj (some.inj ha)
      simp [dtCgZerosptr]
    refine ⟨hlab ▸ InRange.nil _ _, hl.ge, s.st.mem, zerosptr pcb (ctxOf s.st), fun _ _ => rfl,
      fun m' dv a hget => block_tvarCall keep h hkeep hget⟩
  | assoc id args =>
    simp only [dtCgDvarCall, bind_eq_bind, bind_eq_some_iff, Prod.exists] at h
    obtain ⟨t, ht, _, _, hcall, rfl, rfl⟩ := h
    obtain ⟨_, hal⟩ := args.alloc ht
    obtain ⟨hmem, -, -, -, -, hd⟩ := alloc_spare (Finset.card_pos.mp (by omega)) hal
    obtain ⟨-, -, _⟩ := mem_spare.mp hmem
    have htreg : ∀ q ∈ keep, q ≠ t.reg := fun q hq => active_ne_spare (hkeep q hq).1 hmem
    have hkeep1 : ∀ q ∈ keep, q ∈ t.gen.regs.active ∧ q ≠ 0 := fun q hq => by
      refine ⟨depth_pos.mp ?_, (hkeep q hq).2⟩
      have := depth_pos.mpr (hkeep q hq).1
      rw [hd]
      omega
    have hact : t.reg ∈ t.gen.regs.active := depth_pos.mp (by rw [hd, if_pos rfl]; omega)
    obtain ⟨hlab, hl⟩ := labels_callX hcall fun _ _ _ ha => labels_assocArgs ha
    obtain ⟨s1, f1, haddr, hregs1, hslots1, hdv1, htuple1, hmem1⟩ := args.run ht s
    have hin := args.inRange ht
    have hle := args.label_le ht
    have hnval : assocNval id (s1.st.regs t.reg) store s1.st =
        assocNval id X.tupleAddr store s.st := by
      rw [haddr]
      cases store with
      | none => rfl
      | some reg =>
        have hreg := hstore reg rfl
        simp [assocNval, hregs1 reg (hkeep reg hreg).1 (htreg reg hreg)]
    refine ⟨?_, by omega, tupleMem s1.st.mem X.tupleAddr id, zerosptr pcb (ctxOf s1.st), ?_, ?_⟩
    · rw [labels_append, hlab, List.append_nil]
      exact hin.mono le_rfl hl.ge
    · exact fun a ha => tupleMem_of_outside hmem1 ha
    · intro m' dv a hget
      have hget1 : X.getDvar (X.assoc (id.signExtend 64) (s1.st.regs t.reg)
          (tupleMem s1.st.mem X.tupleAddr id)) (if store.isSome then 1 else 0)
          (assocNval id (s1.st.regs t.reg) store s1.st) (zerosptr pcb (ctxOf s1.st))
          (tupleMem s1.st.mem X.tupleAddr id) s1.dvars = some (m', dv, a) := by
        rw [hnval, haddr, assoc_tupleMem args htuple1, hdv1]
        exact hget
      obtain ⟨s', f, h0, hm, hdv, hslots, hregs⟩ := block_assocCall keep hcall
        (alloc_ne_one hroom hal) hact hkeep1 hstore (fun hq => htreg _ hq rfl)
        (by rw [haddr]) hget1
      refine ⟨s', f1.seq f, h0, hm, hdv, hslots1.trans hslots, fun q hq => ?_⟩
      rw [hregs q hq, hregs1 q (hkeep q hq).1 (htreg q hq)]

end

/-! ## The value a variable has -/

/-- The address of a global or clause-local variable. -/
def areaAddr (s : XState) (area : Int) (off : Nat) : BitVec 64 :=
  word s.st.mem (s.st.stack dtStkDctx) area + BitVec.ofNat 64 off

def LVar.value (t : IntType) (s : XState) : LVar X → BitVec (t.size * 8)
  | .gvar off => memValue s.st.mem (areaAddr s dctxGvars off) t
  | .lvar off => memValue s.st.mem (areaAddr s dctxLvars off) t
  | .dvar ref => dvarValue s.st.mem (addrOf s.dvars ref.var) t

/-- The variable does not overlap the pointer that it is found with. -/
def AreaApart (t : IntType) (s : XState) (area : Int) (off : Nat) : Prop :=
  ∀ i < 8, t.size ≤ (s.st.stack dtStkDctx + BitVec.ofInt 64 area + BitVec.ofNat 64 i -
    areaAddr s area off).toNat

/-- The value at an address is outside the tuple assembly area. -/
def DvarRef.Clear (t : IntType) (ref : DvarRef X) (a : BitVec 64) : Prop :=
  ∀ i < t.size, ref.Outside (a + BitVec.ofNat 64 i)

/-- The variable has a value outside the tuple assembly area, or none. -/
def LVar.Clear (t : IntType) (s : XState) : LVar X → Prop
  | .gvar _ | .lvar _ => True
  | .dvar ref => addrOf s.dvars ref.var ≠ 0 → ref.Clear t (addrOf s.dvars ref.var)

/-- There is room for a new value of a dynamic variable. -/
def DvarRef.Room (t : IntType) (s : XState) (ref : DvarRef X) : Prop :=
  ∀ m nval dflt, nval ≠ 0 → ∃ m' dv a,
    X.getDvar ref.var 1 nval dflt m s.dvars = some (m', dv, a) ∧ a ≠ 0 ∧ ref.Clear t a

/-- The memory of the variable is where it can be. -/
def LVar.Ready (t : IntType) (s : XState) : LVar X → Prop
  | .gvar off => AreaApart t s dctxGvars off
  | .lvar off => AreaApart t s dctxLvars off
  | .dvar ref => (LVar.dvar ref).Clear t s ∧ ref.Room t s

theorem memValue_storeLE (m : Mem) (a v : BitVec 64) (t : IntType) :
    memValue (storeLE m a v t.size) a t = v.truncate (t.size * 8) :=
  truncate_loadLE_storeLE m a v t.width.bytes_le

theorem areaAddr_store {t : IntType} {s s' : XState} {area : Int} {off : Nat} {v : BitVec 64}
    (hapart : AreaApart t s area off) (hdctx : s'.st.stack dtStkDctx = s.st.stack dtStkDctx)
    (hmem : s'.st.mem = storeLE s.st.mem (areaAddr s area off) v t.size) :
    areaAddr s' area off = areaAddr s area off := by
  have hword : word s'.st.mem (s'.st.stack dtStkDctx) area =
      word s.st.mem (s.st.stack dtStkDctx) area := by
    rw [hdctx, hmem]
    exact loadLE_congr fun i hi => storeLE_of_ge (hapart i hi)
  rw [areaAddr, areaAddr, hword]

theorem areaValue_store {t : IntType} {s s' : XState} {area : Int} {off : Nat} {v : BitVec 64}
    (hapart : AreaApart t s area off) (hdctx : s'.st.stack dtStkDctx = s.st.stack dtStkDctx)
    (hmem : s'.st.mem = storeLE s.st.mem (areaAddr s area off) v t.size) :
    memValue s'.st.mem (areaAddr s' area off) t = v.truncate (t.size * 8) := by
  rw [areaAddr_store hapart hdctx hmem, hmem, memValue_storeLE]

/-! ## Stores -/

theorem ofInt_natCast (n : Nat) : BitVec.ofInt 64 (n : Int) = BitVec.ofNat 64 n := by
  simp

section
variable {pcb : Pcb} {t : IntType} {reg : Nat} {g g' : Gen} {c : XIr}

theorem frag_storeArea {area : Int} {off : Nat} {op : Width}
    (h : dtCgStoreArea area off op reg g = some (c, g')) (hne : (spare g.regs).Nonempty)
    (hreg : reg ∈ g.regs.active) (s : XState) :
    ∃ s', Frag (xexec X) c s s' ∧ s'.st.regs reg = s.st.regs reg ∧ s'.st.stack = s.st.stack ∧
      s'.st.mem = storeLE s.st.mem (areaAddr s area off) (s.st.regs reg) op.bytes := by
  simp only [dtCgStoreArea, bind_eq_bind, bind_eq_some_iff, Prod.exists] at h
  obtain ⟨r, _, _, ha, _, _, hf, rfl, rfl⟩ := h
  obtain ⟨hal, -⟩ := Gen.alloc_some ha
  obtain ⟨hfree, -⟩ := Gen.free_some hf
  obtain ⟨hmem, -, rfl, -, -, hd⟩ := alloc_spare hne hal
  obtain ⟨-, -, _⟩ := mem_spare.mp hmem
  obtain rfl := free_code_nil hfree (by rw [hd, if_pos rfl]; omega)
  have hrr : reg ≠ r := active_ne_spare hreg hmem
  have hfp := dtRegsetXalloc_ne_regFP (dtRegsetAlloc_xalloc hal).2
  obtain ⟨σ, dv⟩ := s
  let σ1 := σ.setReg r (word (ctxOf σ).mem (ctxOf σ).dctx area)
  let σ2 : State := { σ1 with
    mem := storeLE σ.mem (areaAddr ⟨σ, dv⟩ area off) (σ.regs reg) op.bytes }
  have f2 : Frag (exec (X.base dv)) (emit (.store op r off reg)) σ1 σ2 := by
    refine Frag.single ?_
    simp only [exec, if_neg hfp, σ1, σ2, State.setReg_regs_self, State.setReg_regs_of_ne _ _ hrr,
      ofInt_natCast, State.setReg_mem, areaAddr, ctxOf]
  have f := (frag_loadCtx (X.base dv) area σ hfp).append f2 (by simp)
  refine ⟨⟨σ2, dv⟩, ?_, State.setReg_regs_of_ne _ _ hrr, rfl, rfl⟩
  simpa using frag_lift f

/-- The end of a store to a dynamic variable, after the call. `c` frees `%r0`. -/
def storeTail (op : Width) (reg r lbl : Nat) (c : Ir) : Ir :=
  emit (.branchImm .jeq reg 0 lbl) ++ emit (.branchImm .jne 0 0 (lbl + 1)) ++
    emit (.movImm 0 0) ++ emit .exit ++ emitl (lbl + 1) (.mov r 0) ++ c ++
    emit (.store op r 0 reg) ++ emitl lbl .nop

/-- There is nothing to do for zero. -/
theorem block_storeTail (env : Env) (op : Width) {r lbl : Nat} {c3 : Ir} {drp drp' : Regset}
    (hlbl : 0 < lbl) (hrr : reg ≠ r) (hreg0 : reg ≠ 0) (hr0 : r ≠ 0) (hfp : r ≠ regFP)
    (hfree : dtRegsetFree drp 0 = some (drp', c3)) (σ : State)
    (h0 : σ.regs reg ≠ 0 → σ.regs 0 ≠ 0) :
    ∃ σ', Block (exec env) (storeTail op reg r lbl c3) σ σ' ∧
      σ'.stack = σ.stack ∧ (∀ q, q ≠ 0 → q ≠ r → σ'.regs q = σ.regs q) ∧
      σ'.mem = if σ.regs reg = 0 then σ.mem else storeLE σ.mem (σ.regs 0) (σ.regs reg) op.bytes := by
  by_cases hz : σ.regs reg = 0
  · refine ⟨σ, ?_, rfl, fun _ _ _ => rfl, by rw [if_pos hz]⟩
    have f : Block (exec env) (⟨0, .branchImm .jeq reg 0 lbl⟩ ::
        ((⟨0, .branchImm .jne 0 0 (lbl + 1)⟩ :: ⟨0, .movImm 0 0⟩ :: ⟨0, .exit⟩ ::
          ⟨lbl + 1, .mov r 0⟩ :: (c3 ++ [⟨0, .store op r 0 reg⟩])) ++ [⟨lbl, .nop⟩])) σ σ :=
      .jump (exec_branchImm_taken (by rw [hz]; rfl)) hlbl.ne' (.single rfl)
    simpa [storeTail, emit, emitl] using f
  · let σ1 := σ.setReg r (σ.regs 0)
    obtain ⟨-, σ2, f2, hstack2, hmem2, hregs2, -⟩ := frag_dtRegsetFree env hfree σ1
    have hr2 : σ2.regs r = σ.regs 0 := by simp [hregs2 r hr0, σ1]
    have hreg2 : σ2.regs reg = σ.regs reg := by
      rw [hregs2 reg hreg0, State.setReg_regs_of_ne _ _ hrr]
    let σ3 : State := { σ2 with mem := storeLE σ.mem (σ.regs 0) (σ.regs reg) op.bytes }
    have f3 : Block (exec env) (emit (.store op r 0 reg) ++ emitl lbl .nop) σ2 σ3 :=
      .next (by simp [exec, hfp, hr2, hreg2, σ3, hmem2, σ1]) (.single rfl)
    have f : Block (exec env) (⟨0, .branchImm .jne 0 0 (lbl + 1)⟩ ::
        ([⟨0, .movImm 0 0⟩, ⟨0, .exit⟩] ++ ⟨lbl + 1, .mov r 0⟩ ::
          (c3 ++ (emit (.store op r 0 reg) ++ emitl lbl .nop)))) σ σ3 :=
      .jump (exec_branchImm_taken (by rw [jne_zero]; simpa using h0 hz)) (by omega)
        (.next rfl (f2.seq f3))
    refine ⟨σ3, ?_, hstack2, fun q hq hqr => ?_, by rw [if_neg hz]⟩
    · have f' : Block (exec env) (⟨0, .branchImm .jeq reg 0 lbl⟩ :: _) σ σ3 :=
        .next (exec_branchImm_not (by rw [jeq_zero]; simpa using hz)) f
      simpa [storeTail, emit, emitl] using f'
    · show σ2.regs q = _
      rw [hregs2 q hq, State.setReg_regs_of_ne _ _ hqr]

/-- What a store to a dynamic variable is made of. -/
theorem dtCgStoreDvar_some {ref : DvarRef X} {op : Width}
    (h : dtCgStoreDvar pcb ref op reg g = some (c, g')) (hne : (spare g.regs).Nonempty) :
    ∃ c1 g1 r drp c3, dtCgDvarCall pcb ref (some reg) (g.labels 2) = some (c1, g1) ∧
      r ∈ spare g.regs ∧ r ≠ regFP ∧ (∃ drp0, dtRegsetFree drp0 0 = some (drp, c3)) ∧
      g'.label = g1.label ∧ g'.regs.size = g.regs.size ∧
      (∀ q, q ≠ 0 → depth g'.regs q = depth g.regs q) ∧
      c = c1 ++ lift (storeTail op reg r g.label c3) := by
  simp only [dtCgStoreDvar, bind_eq_bind, bind_eq_some_iff, Prod.exists] at h
  obtain ⟨c1, g1, hcall, r, _, _, ha, c3, g3, hf, _, _, hf', rfl, rfl⟩ := h
  obtain ⟨hsize1, hd1⟩ := depth_dvarCall hcall hne
  have hspare : spare g1.regs = spare g.regs := spare_congr hsize1 hd1
  obtain ⟨hal, _⟩ := Gen.alloc_some ha
  obtain ⟨hfree, _⟩ := Gen.free_some hf
  obtain ⟨hfree', _⟩ := Gen.free_some hf'
  obtain ⟨hmem, -, rfl, -, hsize2, hd2⟩ := alloc_spare (hspare ▸ hne) hal
  obtain ⟨-, -, _⟩ := mem_spare.mp hmem
  obtain ⟨hsize3, hd3⟩ := depth_free hfree
  obtain ⟨hsize4, hd4⟩ := depth_free hfree'
  have hd0 : depth g3.regs r ≤ 1 := by
    have h2 := hd2 r
    have h3 := hd3 r
    rw [if_pos rfl] at h2
    omega
  obtain rfl := free_code_nil hfree' hd0
  refine ⟨c1, g1, r, g3.regs, c3, hcall, hspare ▸ hmem,
    dtRegsetXalloc_ne_regFP (dtRegsetAlloc_xalloc hal).2, ⟨_, hfree⟩, by omega, ?_, ?_, by simp [storeTail]⟩
  · exact hsize4.trans (hsize3.trans (hsize2.trans hsize1))
  · intro q hq
    have h1 := hd1 q hq
    have h2 := hd2 q
    have h3 := hd3 q
    have h4 := hd4 q
    rw [if_neg hq] at h3
    rw [Gen.labels_regs] at h1
    omega

/-- **A store to a dynamic variable**: the variable then has the value, cut to its width. -/
theorem frag_storeDvar {ref : DvarRef X} {s : XState} (keep : List Nat)
    (h : dtCgStoreDvar pcb ref t.width reg g = some (c, g')) (hroom : 2 ≤ (spare g.regs).card)
    (hkeep : ∀ q ∈ keep, q ∈ g.regs.active ∧ q ≠ 0) (hreg : reg ∈ keep)
    (hnval : ref.nval (some reg) s.st = 0 ↔ s.st.regs reg = 0) (hspace : ref.Room t s) :
    InRange g.label g'.label (labels c) ∧ g.label + 2 ≤ g'.label ∧
      ∃ s', Frag (xexec X) c s s' ∧ Slots s.st s'.st ∧ (∀ q ∈ keep, s'.st.regs q = s.st.regs q) ∧
        (LVar.dvar ref).value t s' = (s.st.regs reg).truncate (t.size * 8) ∧
        (LVar.dvar ref).Clear t s' := by
  obtain ⟨c1, _, r, _, c3, hcall, hr, hfp, ⟨_, hfree⟩, hl, -, -, rfl⟩ :=
    dtCgStoreDvar_some h (Finset.card_pos.mp (by omega))
  obtain ⟨-, hr0, _⟩ := mem_spare.mp hr
  have hne : ∀ q ∈ keep, q ≠ r := fun q hq => active_ne_spare (hkeep q hq).1 hr
  obtain ⟨hin, hle, m, dflt, -, hrun⟩ := block_dvarCall keep hcall hroom hkeep (by simpa)
  rw [Gen.labels_label] at hle
  have hlab3 : labels c3 = [] := (frag_dtRegsetFree (X.base s.dvars) hfree s.st).1
  have hlabs : InRange g.label g'.label
      (labels (c1 ++ lift (storeTail t.width reg r g.label c3))) := by
    have := (hin.concat (Nat.lt_succ_self (g.label + 1)) hle).concat (Nat.lt_succ_self g.label)
      (by omega)
    simpa [storeTail, labels_emitl, hlab3, hl, g.label_pos.ne'] using this
  refine ⟨hlabs, by omega, ?_⟩
  by_cases hz : s.st.regs reg = 0
  · -- a zero deletes the variable
    obtain ⟨dv, hget, hdel⟩ := X.getDvar_delete ref.var dflt m s.dvars
    have hget' : X.getDvar ref.var (if (some reg).isSome then 1 else 0) (ref.nval (some reg) s.st)
        dflt m s.dvars = some (m, dv, 0) := by
      rw [hnval.mpr hz]
      exact hget
    obtain ⟨⟨σ1, dv1⟩, f1, -, -, rfl, hslots1, hregs1⟩ := hrun _ _ _ hget'
    obtain ⟨σ2, f2, hstack2, hregs2, -⟩ := block_storeTail (X.base dv1) t.width
      g.label_pos (hne reg hreg) (hkeep reg hreg).2 hr0 hfp hfree σ1
      (fun h => absurd ((hregs1 reg hreg).trans hz) h)
    refine ⟨⟨σ2, dv1⟩, f1.append (block_lift f2) hlabs.nodup, hslots1.trans (.of_stack hstack2),
      fun q hq => ?_, ?_, fun h => absurd hdel h⟩
    · exact (hregs2 q (hkeep q hq).2 (hne q hq)).trans (hregs1 q hq)
    · simp [LVar.value, dvarValue, hdel, hz]
  · obtain ⟨_, dv, a, hget, ha, hclear⟩ := hspace m _ dflt (mt hnval.mp hz)
    obtain ⟨⟨σ1, dv1⟩, f1, h0, -, rfl, hslots1, hregs1⟩ := hrun _ _ _ hget
    have hv : σ1.regs reg = s.st.regs reg := hregs1 reg hreg
    obtain ⟨σ2, f2, hstack2, hregs2, hmem2⟩ := block_storeTail (X.base dv1) t.width
      g.label_pos (hne reg hreg) (hkeep reg hreg).2 hr0 hfp hfree σ1 (fun _ => by rwa [h0])
    have haddr : addrOf dv1 ref.var = a := X.getDvar_store hget ha
    refine ⟨⟨σ2, dv1⟩, f1.append (block_lift f2) hlabs.nodup, hslots1.trans (.of_stack hstack2),
      fun q hq => ?_, ?_, fun _ => by simpa [haddr] using hclear⟩
    · exact (hregs2 q (hkeep q hq).2 (hne q hq)).trans (hregs1 q hq)
    · rw [hv, if_neg hz, show σ1.regs 0 = a from h0] at hmem2
      simp only [LVar.value, dvarValue, haddr, if_neg ha, hmem2]
      exact memValue_storeLE _ _ _ _

end

end

end DTrace.Cg
