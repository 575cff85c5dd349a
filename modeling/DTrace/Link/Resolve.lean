import DTrace.Link.Construct

/-!
# Linking: the calls

`dt_link_resolve` puts the values of the relocation records in the instructions, and `dt_link` is the
layout, the program and the calls, with the flags of the identifiers reset in between.

* `resolve_spec` says what becomes of the instructions when the records are for different ones.
* `link_correct` is about the whole: the code of everything that is reached is there once, the tables
  have the sizes of the layout, and every call goes to the start of the function.
-/

namespace DTrace.Link

open List Option

open Bpf (BpfInsn)
open Blocks Dfs

variable {Name : Type} [DecidableEq Name]

/-! ## `dt_link_resolve` -/

/-- `BPF_IS_CALL` -/
def isCall (x : BpfInsn) : Bool := x.code = 0x85

def setImm (imm : BitVec 32) (x : BpfInsn) : BpfInsn := { x with imm := imm }

/-- The instruction of a record. -/
def Reloc.ioff (rp : Reloc Name) : Nat := rp.offset / 8

/-- A value of 64 bits is in two instructions. -/
def patch (type : RelType) (ioff : Nat) (val : BitVec 64) (buf : List BpfInsn) : List BpfInsn :=
  match type with
  | .r64_64 =>
    (buf.modify ioff (setImm (val.setWidth 32))).modify (ioff + 1)
      (setImm ((val >>> 32).setWidth 32))
  | .r64_32 => buf.modify ioff (setImm (val.setWidth 32))
  | .none => buf

/-- `none` when the assertion fails that a record for a function is at a call. -/
def dtLinkResolve (lib : Dlib Name) : List (Reloc Name) → List BpfInsn → Option (List BpfInsn)
  | [], buf => some buf
  | rp :: rest, buf =>
    match dtDlibGetSym lib rp.name with
    | none => dtLinkResolve lib rest buf
    | some idp =>
      match idp.kind with
      | .scalar => dtLinkResolve lib rest (patch rp.type rp.ioff rp.data buf)
      | .symbol =>
        if (buf[rp.ioff]?).any isCall then
          dtLinkResolve lib rest
            (patch rp.type rp.ioff (rp.data - BitVec.ofNat 64 rp.ioff - 1) buf)
        else none
      | _ => dtLinkResolve lib rest buf

/-! ## `dt_link` -/

/-- What changes of the identifiers. -/
structure DlibSt (Name : Type) where
  ref : Name → Bool
  id : Name → BitVec 32

/-- No function is referenced, and none has a number: `DT_IDENT_UNDEF` is `UINT_MAX`. -/
def DlibSt.fresh : DlibSt Name := ⟨fun _ => false, fun _ => 0xffffffff⟩

def dtDlibReset (lib : Dlib Name) (refOnly : Bool) (st : DlibSt Name) : DlibSt Name where
  ref := fun name =>
    if (dtDlibGetSym lib name).any (·.kind = .symbol) then false else st.ref name
  id := fun name =>
    if (dtDlibGetSym lib name).any (·.kind = .symbol) && !refOnly then 0xffffffff else st.id name

/-- The program that is linked, with the counts of the layout. -/
structure Linked (Name : Type) where
  insc : Nat
  relc : Nat
  varc : Nat
  buf : List BpfInsn
  breltab : List (Reloc Name)
  vartab : List (DifVar Name)
  destructive : Bool

/-- At most all functions are in the recursion at once, and the program. -/
def dtLink (lib : Dlib Name) (env : LinkEnv) (root : Root Name) (nextEpid : Nat) (st : DlibSt Name) :
    Option (Linked Name × DlibSt Name) :=
  match dtLinkLayout lib (lib.length + 1) root.dp root.idp ⟨st.ref, st.id, 0, 0, 0⟩ with
  | none => none
  | some (_, lay) =>
    let st := dtDlibReset lib true ⟨lay.ref, lay.id⟩
    match dtLinkConstruct lib env (lib.length + 1) root.dp root.idp 0 0
        ⟨st.ref, st.id, 0, 0, 0, [], [], [], false, nextEpid, []⟩ with
    | none => none
    | some (_, fdp) =>
      (dtLinkResolve lib fdp.breltab fdp.buf).map fun buf =>
        (⟨lay.pc, lay.rc, lay.vc, buf, fdp.breltab, fdp.vartab, fdp.destructive⟩,
          dtDlibReset lib false ⟨fdp.ref, fdp.id⟩)

/-! ## The instructions -/

/-- The instructions a record is for. -/
def slots (rp : Reloc Name) : List Nat :=
  match rp.type with
  | .r64_64 => [rp.ioff, rp.ioff + 1]
  | .r64_32 => [rp.ioff]
  | .none => []

/-- An instruction without its immediate value. -/
def strip (x : BpfInsn) : BpfInsn := setImm 0 x

theorem strip_modify (buf : List BpfInsn) (i : Nat) (imm : BitVec 32) :
    (buf.modify i (setImm imm)).map strip = buf.map strip := by
  refine ext_getElem? fun j => ?_
  rw [getElem?_map, getElem?_map, getElem?_modify]
  cases buf[j]? with
  | none => rfl
  | some x =>
    by_cases h : i = j
    · simp only [Option.map_eq_map, map_some, if_pos h]
      rfl
    · simp only [Option.map_eq_map, map_some, if_neg h]

theorem getElem?_modify_of_ne {buf : List BpfInsn} {i j : Nat} (h : i ≠ j) (f : BpfInsn → BpfInsn) :
    (buf.modify i f)[j]? = buf[j]? := by
  rw [getElem?_modify]
  simp only [if_neg h, Option.map_eq_map, Option.map_id']

theorem strip_patch (type : RelType) (ioff : Nat) (val : BitVec 64) (buf : List BpfInsn) :
    (patch type ioff val buf).map strip = buf.map strip := by
  cases type with
  | none => rfl
  | r64_32 => exact strip_modify buf ioff _
  | r64_64 => exact (strip_modify _ _ _).trans (strip_modify buf ioff _)

omit [DecidableEq Name] in
/-- Other instructions stay as they are. -/
theorem getElem?_patch {rp : Reloc Name} {i : Nat} (hi : i ∉ slots rp) (val : BitVec 64)
    (buf : List BpfInsn) : (patch rp.type rp.ioff val buf)[i]? = buf[i]? := by
  unfold slots at hi
  unfold patch
  cases htype : rp.type with
  | none => rfl
  | r64_32 =>
    rw [htype] at hi
    dsimp only at hi ⊢
    exact getElem?_modify_of_ne (fun h => hi (mem_singleton.mpr h.symm)) _
  | r64_64 =>
    rw [htype] at hi
    dsimp only at hi ⊢
    rw [mem_cons, mem_singleton, not_or] at hi
    rw [getElem?_modify_of_ne (Ne.symm hi.2), getElem?_modify_of_ne (Ne.symm hi.1)]

theorem isCall_of_strip {buf buf' : List BpfInsn} (h : buf'.map strip = buf.map strip) {i : Nat}
    (hi : (buf[i]?).any isCall) : (buf'[i]?).any isCall := by
  have hget := congrArg (fun l => (l[i]?).any isCall) h
  simp only [getElem?_map, Option.any_map] at hget
  -- `isCall` does not look at the immediate value
  exact hget.trans hi

/-- The call that a record makes of an instruction. -/
def callOf (rp : Reloc Name) (x : BpfInsn) : BpfInsn :=
  setImm ((rp.data - BitVec.ofNat 64 rp.ioff - 1).setWidth 32) x

/-- What becomes of the instructions. -/
structure Resolved (lib : Dlib Name) (rels : List (Reloc Name)) (buf out : List BpfInsn) : Prop where
  strip : out.map strip = buf.map strip
  other : ∀ i, (∀ rp ∈ rels, i ∉ slots rp) → out[i]? = buf[i]?
  call : ∀ rp ∈ rels, (callee lib rp).isSome → rp.type = .r64_32 →
    out[rp.ioff]? = (buf[rp.ioff]?).map (callOf rp)

section
variable {lib : Dlib Name} {rp : Reloc Name} {rels : List (Reloc Name)} {buf : List BpfInsn}

variable (rels) in
/-- One record: either nothing happens, or the instructions that it is for are changed. -/
theorem resolve_cons (hcall : (callee lib rp).isSome → (buf[rp.ioff]?).any isCall) :
    ∃ buf', dtLinkResolve lib (rp :: rels) buf = dtLinkResolve lib rels buf' ∧
      Resolved lib [rp] buf buf' := by
  have hsame : callee lib rp = none → Resolved lib [rp] buf buf := fun hnone => by
    refine ⟨rfl, fun _ _ => rfl, fun rp' hrp' hsome => ?_⟩
    rw [mem_singleton.mp hrp', hnone] at hsome
    cases hsome
  have hpatch : ∀ val, ((callee lib rp).isSome → val = rp.data - BitVec.ofNat 64 rp.ioff - 1) →
      Resolved lib [rp] buf (patch rp.type rp.ioff val buf) := by
    intro val hval
    refine ⟨strip_patch .., fun i hi => getElem?_patch (hi rp mem_cons_self) _ buf,
      fun rp' hrp' hsome htype => ?_⟩
    rw [mem_singleton.mp hrp'] at hsome htype ⊢
    rw [htype, hval hsome]
    show (buf.modify rp.ioff _)[rp.ioff]? = _
    rw [getElem?_modify_eq]
    rfl
  rw [dtLinkResolve]
  cases hsym : dtDlibGetSym lib rp.name with
  | none => exact ⟨buf, rfl, hsame (callee_of_no_sym hsym)⟩
  | some idp =>
    dsimp only
    cases hkind : idp.kind with
    | func | ptr => exact ⟨buf, rfl, hsame (callee_of_kind hsym (by rw [hkind]; decide))⟩
    | scalar =>
      refine ⟨_, rfl, hpatch _ fun hsome => ?_⟩
      rw [callee_of_kind hsym (by rw [hkind]; decide)] at hsome
      cases hsome
    | symbol =>
      have hsome : (callee lib rp).isSome := by
        rw [callee_of_symbol hsym hkind]
        rfl
      dsimp only
      rw [if_pos (hcall hsome)]
      exact ⟨_, rfl, hpatch _ fun _ => rfl⟩

/-- **The calls are put in**, when the records are for different instructions. -/
theorem resolve_spec
    (hapart : rels.Pairwise fun rp rp' => List.Disjoint (slots rp) (slots rp'))
    (hcall : ∀ rp ∈ rels, (callee lib rp).isSome → (buf[rp.ioff]?).any isCall) :
    ∃ out, dtLinkResolve lib rels buf = some out ∧ Resolved lib rels buf out := by
  induction rels generalizing buf with
  | nil => exact ⟨buf, rfl, rfl, fun _ _ => rfl, nofun⟩
  | cons rp rels ih =>
    obtain ⟨hrp, hrest⟩ := pairwise_cons.mp hapart
    obtain ⟨buf', heq, hone⟩ := resolve_cons rels (hcall rp mem_cons_self)
    obtain ⟨out, hout, hresolved⟩ := ih hrest fun rp' h hsome =>
      isCall_of_strip hone.strip (hcall rp' (mem_cons_of_mem rp h) hsome)
    refine ⟨out, heq.trans hout, hresolved.strip.trans hone.strip, fun i hi => ?_,
      fun rp' hrp' hsome htype => ?_⟩
    · rw [hresolved.other i fun rp' h => hi rp' (mem_cons_of_mem rp h), hone.other i fun rp' h => ?_]
      rw [mem_singleton.mp h]
      exact hi rp mem_cons_self
    · have hmem : rp'.ioff ∈ slots rp' := by
        rw [slots, htype]
        exact mem_cons_self
      obtain rfl | hrp' := mem_cons.mp hrp'
      · -- the records that follow are for other instructions
        rw [hresolved.other _ fun rp'' h h' => hrp rp'' h hmem h',
          hone.call rp' mem_cons_self hsome htype]
      · rw [hresolved.call rp' hrp' hsome htype, hone.other _ fun rp'' h h' => ?_]
        rw [mem_singleton.mp h] at h'
        exact hrp rp' hrp' h' hmem

end

/-! ## The whole -/

/-- The records of a function are for different instructions of it, and those for functions are at
calls. -/
structure Difo.Wf (lib : Dlib Name) (dp : Difo Name) : Prop where
  inside : ∀ rp ∈ dp.breltab, ∀ i ∈ slots rp, i < dp.buf.length
  apart : dp.breltab.Pairwise fun rp rp' => List.Disjoint (slots rp) (slots rp')
  call : ∀ rp ∈ dp.breltab, (callee lib rp).isSome →
    rp.type = .r64_32 ∧ (dp.buf[rp.ioff]?).any isCall

theorem Difo.Wf.ioff_lt {lib : Dlib Name} {dp : Difo Name} (h : dp.Wf lib) {rp : Reloc Name}
    (hrp : rp ∈ dp.breltab) (hsome : (callee lib rp).isSome) : rp.ioff < dp.buf.length := by
  refine h.inside rp hrp rp.ioff ?_
  rw [slots, (h.call rp hrp hsome).1]
  exact mem_cons_self

/-- Where a call goes to. -/
def target (i : Nat) (x : BpfInsn) : BitVec 32 := BitVec.ofNat 32 (i + 1) + x.imm

section
variable {lib : Dlib Name} {env : LinkEnv} {root : Root Name} {order : List (Part Name)}
  {ids : Name → BitVec 32}

variable {name : Name} {p : Part Name × Reloc Name} {nrp : Reloc Name} {v : Part Name}
  {fdp : LinkSt Name}

theorem mem_of_lookup {l : Dlib Name} {idp : Ident Name} (h : l.lookup name = some idp) :
    name ∈ l.map Prod.fst := by
  obtain ⟨l₁, l₂, rfl, -⟩ := lookup_eq_some_iff.mp h
  simp

theorem exists_of_mem_succ {w : Part Name} (hw : w ∈ succ lib root v) : ∃ name idp,
    w = some name ∧ root.idp ≠ some name ∧ dtDlibGetSym lib name = some idp ∧ idp.kind = .symbol := by
  unfold succ at hw
  split at hw
  · cases hw
  · obtain ⟨rp, -, hedge⟩ := mem_filterMap.mp hw
    obtain ⟨name, heq, hcallee, hroot⟩ := callee_of_edge hedge
    obtain ⟨-, idp, hsym, hkind, -⟩ := callee_eq_some hcallee
    exact ⟨name, idp, heq, hroot, hsym, hkind⟩

/-- The order of the layout. -/
theorem exists_order (lib : Dlib Name) (root : Root Name) :
    ∃ order, visit (succ lib root) (lib.length + 1) [] none = some order ∧ order.Nodup ∧
      ∀ v, v ∈ order ↔ Reaches (succ lib root) none v := by
  have huniv : ∀ v ∈ none :: lib.map fun p => some p.1, ∀ w ∈ succ lib root v,
      w ∈ none :: lib.map fun p => some p.1 := by
    intro v _ w hw
    obtain ⟨name, idp, rfl, -, hsym, -⟩ := exists_of_mem_succ hw
    obtain ⟨p, hp, rfl⟩ := mem_map.mp (mem_of_lookup hsym)
    exact mem_cons_of_mem _ (mem_map.mpr ⟨p, hp, rfl⟩)
  obtain ⟨order, horder, hrest⟩ := visit_root huniv (v := none) mem_cons_self
  rw [length_cons, length_map] at horder
  exact ⟨order, horder, hrest⟩

/-- The program's own identifier is not among the functions that are reached. -/
theorem root_ne_of_reaches (h : Reaches (succ lib root) none (some name)) :
    root.idp ≠ some name ∧ ∃ idp, dtDlibGetSym lib name = some idp ∧ idp.kind = .symbol := by
  obtain heq | ⟨v, -, hstep⟩ := Relation.ReflTransGen.cases_tail h
  · cases heq
  · obtain ⟨_, idp, ⟨⟩, hroot, hsym⟩ := exists_of_mem_succ hstep
    exact ⟨hroot, idp, hsym⟩

section

variable (h : RelOk lib root order ids p nrp)

include h

theorem RelOk.ioff :
    nrp.ioff = place lib root order p.1 + p.2.ioff := by
  rw [Reloc.ioff, h.offset, Reloc.ioff]
  omega

/-- A record is moved with its part. -/
theorem RelOk.slots {i : Nat} (hi : i ∈ slots nrp) :
    ∃ i0 ∈ slots p.2, i = i0 + place lib root order p.1 := by
  have hioff : nrp.ioff = p.2.ioff + place lib root order p.1 := h.ioff.trans (Nat.add_comm ..)
  obtain htype | htype := h.type
  · rw [Link.slots, htype, hioff] at hi
    unfold Link.slots
    cases hp : p.2.type with
    | none => rw [hp] at hi; cases hi
    | r64_32 =>
      rw [hp] at hi
      exact ⟨p.2.ioff, mem_cons_self, mem_singleton.mp hi⟩
    | r64_64 =>
      rw [hp] at hi
      obtain hi | hi := mem_cons.mp hi
      · exact ⟨p.2.ioff, mem_cons_self, hi⟩
      · refine ⟨p.2.ioff + 1, mem_cons_of_mem _ mem_cons_self, ?_⟩
        rw [mem_singleton.mp hi]
        omega
  · rw [Link.slots, htype] at hi
    cases hi

theorem RelOk.callee : callee lib nrp = callee lib p.2 := by
  unfold Link.callee
  rw [h.name]

end

/-- The records of the new table are for different instructions: the parts do not overlap. -/
theorem pairwise_tagged (hnodup : order.Nodup) (hwf : ∀ v ∈ order, (difoOf lib root v).Wf lib) :
    (order.flatMap (tagged lib root)).Pairwise fun p p' =>
      ∀ i ∈ Link.slots p.2, ∀ i' ∈ Link.slots p'.2,
        i + place lib root order p.1 ≠ i' + place lib root order p'.1 := by
  rw [pairwise_flatMap]
  constructor
  · intro v hv
    rw [tagged, pairwise_map]
    refine (hwf v hv).apart.imp fun hdisj i hi i' hi' heq => ?_
    obtain rfl : i = i' := Nat.add_right_cancel heq
    exact hdisj hi hi'
  · refine (pairwise_startOf (len lib root) hnodup).imp_of_mem ?_
    intro u v hu hv hle p hp p' hp' i hi i' hi'
    obtain ⟨rp, hrp, rfl⟩ := mem_map.mp hp
    obtain ⟨rp', hrp', rfl⟩ := mem_map.mp hp'
    have hlt : i < len lib root u := (hwf u hu).inside rp hrp i hi
    dsimp only [place]
    omega

theorem target_eq (i : Nat) (data : BitVec 64) (x : BpfInsn) :
    target i (setImm ((data - BitVec.ofNat 64 i - 1).setWidth 32) x) = data.setWidth 32 := by
  apply BitVec.eq_of_toNat_eq
  unfold target setImm
  simp only [BitVec.toNat_add, BitVec.toNat_setWidth, BitVec.toNat_sub, BitVec.toNat_ofNat,
    show BitVec.toNat (1 : BitVec 64) = 1 from rfl]
  omega

/-- A call in a program of less than `2 ^ 31` instructions. -/
theorem toInt_of_target {i p : Nat} {x : BpfInsn} (h : target i x = BitVec.ofNat 32 p)
    (hi : i < 2 ^ 31) (hp : p < 2 ^ 31) : (i : Int) + 1 + x.imm.toInt = p := by
  have hnat := congrArg BitVec.toNat h
  have hlt := x.imm.isLt
  unfold target at hnat
  simp only [BitVec.toNat_add, BitVec.toNat_ofNat] at hnat
  rw [BitVec.toInt_eq_toNat_cond]
  split <;> omega

/-! ### The three passes -/

/-- The flags when the program has been entered. -/
theorem flags_root {ref : Name → Bool} (href : ∀ name, ref name = true → root.idp = some name) :
    Flags root [none] (setRef ref root.idp) := by
  intro name
  have hnone : some name ∉ [(none : Part Name)] := by
    rw [mem_singleton]
    exact some_ne_none name
  simp only [hnone, false_or]
  refine ⟨fun h => by_contra fun hne => hne (href name ?_), fun h => ?_⟩
  · cases hroot : root.idp with
    | none => rwa [hroot] at h
    | some other =>
      have hother : name ≠ other := fun heq => hne (heq ▸ hroot)
      rwa [hroot, setRef, Function.update_of_ne hother] at h
  · rw [h, setRef, Function.update_self]

variable (lib root) in
/-- The layout of the program. -/
theorem layout_root {st : DlibSt Name} (hst : ∀ name, st.ref name = false)
    (hdef : Defined lib root none)
    (hvisit : visit (succ lib root) (lib.length + 1) [] none = some order) :
    ∃ new lay, order = none :: new ∧
      dtLinkLayout lib (lib.length + 1) root.dp root.idp ⟨st.ref, st.id, 0, 0, 0⟩ = some (0, lay) ∧
      LayoutInv lib root order lay ∧ Noted lib root [none] new ⟨st.ref, st.id, 0, 0, 0⟩ lay := by
  refine layout_of_entered (v := none) (layout_spec lib.length) ?_ hdef hvisit
  have htotal : ∀ len : Part Name → Nat, 0 + len none = total len ([] ++ [none]) := fun len => by
    rw [nil_append, total_cons, total_nil]
    exact Nat.add_comm ..
  refine ⟨fun name => ?_, htotal (len lib root), htotal (relen lib root),
    htotal (varlen lib root)⟩
  exact flags_root (fun name h => absurd ((hst name).symm.trans h) Bool.false_ne_true) name

/-- The program is filled in from what the layout has left. -/
theorem construct_root {st : DlibSt Name} (hdef : Defined lib root none)
    (hknown : Known lib env root none) (hmem : ∀ v, v ∈ order ↔ Reaches (succ lib root) none v)
    (hvisit : visit (succ lib root) (lib.length + 1) [] none = some order) {new : List (Part Name)}
    (hnew : order = none :: new) {lay : LayoutSt Name} (hlay : LayoutInv lib root order lay)
    (hnoted : Noted lib root [none] new ⟨st.ref, st.id, 0, 0, 0⟩ lay) (nextEpid : Nat) :
    ∃ fdp, dtLinkConstruct lib env (lib.length + 1) root.dp root.idp 0 0
        ⟨(dtDlibReset lib true ⟨lay.ref, lay.id⟩).ref, (dtDlibReset lib true ⟨lay.ref, lay.id⟩).id,
          0, 0, 0, [], [], [], false, nextEpid, []⟩ = some (0, fdp) ∧
      FilledIn lib root order st.id order fdp := by
  have hclosed : ∀ u ∈ order, ∀ w ∈ succ lib root u, w ∈ order := fun u hu w hw =>
    (hmem w).mpr (((hmem u).mp hu).tail hw)
  -- the numbers are kept by the reset
  have hid : (dtDlibReset lib true ⟨lay.ref, lay.id⟩).id = lay.id := by
    funext name
    show (if _ && !true then _ else lay.id name) = lay.id name
    rw [Bool.not_true, Bool.and_false]
    rfl
  have hnew' : ∀ name, some name ∈ new ↔ some name ∈ order := by
    intro name
    rw [hnew, mem_cons]
    simp only [reduceCtorEq, false_or]
  have hstart : FilledIn lib root order st.id []
      ⟨(dtDlibReset lib true ⟨lay.ref, lay.id⟩).ref, (dtDlibReset lib true ⟨lay.ref, lay.id⟩).id,
        0, 0, 0, [], [], [], false, nextEpid, []⟩ := by
    refine ⟨fun name hname => ?_, fun name hroot => ?_, rfl, rfl, rfl, rfl, rfl, .nil⟩
    · dsimp only
      rw [hid, hnoted name, if_pos ((hnew' name).mpr hname), place, hnew]
      rfl
    · dsimp only
      rw [hid, hnoted name, if_neg]
      intro hmem'
      exact (root_ne_of_reaches ((hmem _).mp ((hnew' name).mp hmem'))).1 hroot
  -- of the flags, at most the program's own is left
  have href : ∀ name, (dtDlibReset lib true ⟨lay.ref, lay.id⟩).ref name = true →
      root.idp = some name := by
    intro name h
    unfold dtDlibReset at h
    dsimp only at h
    split at h
    · cases h
    · next hsym =>
      refine ((hlay.ref name).mp h).resolve_left fun hmem' => ?_
      obtain ⟨-, idp, hidp, hkind⟩ := root_ne_of_reaches ((hmem _).mp hmem')
      refine hsym ?_
      rw [hidp]
      exact decide_eq_true hkind
  obtain ⟨fdp, hfdp, hfill, -⟩ := construct_of_entered (v := none)
    (construct_spec hclosed lib.length) hclosed 0 0 hstart (flags_root href) hdef hknown not_mem_nil
    hvisit (prefix_refl order)
  exact ⟨fdp, hfdp, hfill⟩

/-- Where a call goes that is put in for a record of `v`. -/
def callTarget (lib : Dlib Name) (root : Root Name) (order : List (Part Name))
    (ids : Name → BitVec 32) (v : Part Name) (rp : Reloc Name) (name : Name) : BitVec 32 :=
  if noDeps lib (identOf root v) then rp.data.setWidth 32 + BitVec.ofNat 32 (place lib root order v)
  else if root.idp = some name then ids name
  else BitVec.ofNat 32 (place lib root order (some name))

theorem setWidth_callData (v : Part Name) (rp : Reloc Name) (name : Name) :
    (callData lib root order ids v rp name).setWidth 32 =
      callTarget lib root order ids v rp name := by
  unfold callData callTarget
  split
  · rw [BitVec.setWidth_add _ _ (by decide), BitVec.setWidth_ofNat_of_le (by decide)]
  · split
    · rw [BitVec.setWidth_setWidth_of_le _ (by decide), BitVec.setWidth_eq]
    · rw [BitVec.setWidth_setWidth_of_le _ (by decide), BitVec.setWidth_eq]

/-- An instruction of a part. -/
theorem getElem?_flatMap_buf (hv : v ∈ order) {i : Nat} (hi : i < len lib root v) :
    (order.flatMap fun u => (difoOf lib root u).buf)[place lib root order v + i]? =
      (difoOf lib root v).buf[i]? :=
  getElem?_startOf (fun _ => rfl) hv hi

/-- A record of the new table was made of one of a part. -/
theorem FilledIn.exists_rel (hfill : FilledIn lib root order ids order fdp)
    (hnrp : nrp ∈ fdp.breltab) :
    ∃ u ∈ order, ∃ rp ∈ (difoOf lib root u).breltab, RelOk lib root order ids (u, rp) nrp := by
  obtain ⟨p, hp, hok⟩ := exists_left_of_forall₂ hfill.breltab hnrp
  obtain ⟨u, hu, hp⟩ := mem_flatMap.mp hp
  obtain ⟨rp, hrp, rfl⟩ := mem_map.mp hp
  exact ⟨u, hu, rp, hrp, hok⟩

/-- The records of the new table are right for the code that is there. -/
theorem resolve_root (hnodup : order.Nodup) (hwf : ∀ v ∈ order, (difoOf lib root v).Wf lib)
    (hfill : FilledIn lib root order ids order fdp) :
    ∃ out, dtLinkResolve lib fdp.breltab fdp.buf = some out ∧
      Resolved lib fdp.breltab fdp.buf out := by
  refine resolve_spec ?_ fun nrp hnrp hsome => ?_
  · refine pairwise_of_forall₂ hfill.breltab ?_ (pairwise_tagged hnodup hwf)
    intro p p' nrp nrp' hok hok' hne i hi hi'
    obtain ⟨i0, hi0, rfl⟩ := hok.slots hi
    obtain ⟨i1, hi1, heq⟩ := hok'.slots hi'
    exact hne i0 hi0 i1 hi1 heq
  · obtain ⟨u, hu, rp, hrp, hok⟩ := hfill.exists_rel hnrp
    rw [hok.callee] at hsome
    have hcall := (hwf u hu).call rp hrp hsome
    rw [hok.ioff, hfill.buf, getElem?_flatMap_buf hu ((hwf u hu).ioff_lt hrp hsome)]
    exact hcall.2

/-- An instruction that no record is for. -/
theorem getElem?_other (hnodup : order.Nodup) (hwf : ∀ v ∈ order, (difoOf lib root v).Wf lib)
    (hfill : FilledIn lib root order ids order fdp) {out : List BpfInsn}
    (hresolved : Resolved lib fdp.breltab fdp.buf out) (hv : v ∈ order) {i : Nat}
    (hi : i < len lib root v) (hslots : ∀ rp ∈ (difoOf lib root v).breltab, i ∉ slots rp) :
    out[place lib root order v + i]? = (difoOf lib root v).buf[i]? := by
  rw [hresolved.other, hfill.buf, getElem?_flatMap_buf hv hi]
  intro nrp hnrp hmem
  obtain ⟨u, hu, rp, hrp, hok⟩ := hfill.exists_rel hnrp
  obtain ⟨i0, hi0, heq⟩ := hok.slots hmem
  dsimp only at hi0 heq
  by_cases huv : u = v
  · subst huv
    obtain rfl : i = i0 := by omega
    exact hslots rp hrp hi0
  · -- the record is inside another part
    have hlt : i0 < len lib root u := (hwf u hu).inside rp hrp i0 hi0
    have hdisj := startOf_disjoint (len lib root) hnodup hu hv huv
    unfold place at heq
    omega

/-- A call. -/
theorem getElem?_call (hwf : ∀ v ∈ order, (difoOf lib root v).Wf lib)
    (hfill : FilledIn lib root order ids order fdp) {out : List BpfInsn}
    (hresolved : Resolved lib fdp.breltab fdp.buf out) (hv : v ∈ order) {rp : Reloc Name}
    (hrp : rp ∈ (difoOf lib root v).breltab) (hcallee : callee lib rp = some name) :
    ∃ x, out[place lib root order v + rp.ioff]? = some x ∧
      target (place lib root order v + rp.ioff) x = callTarget lib root order ids v rp name := by
  have hsome : (callee lib rp).isSome := by rw [hcallee]; rfl
  obtain ⟨nrp, hnrp, hok⟩ := exists_right_of_forall₂ hfill.breltab
    (mem_flatMap.mpr ⟨v, hv, mem_map.mpr ⟨rp, hrp, rfl⟩⟩)
  obtain ⟨htype, hdata⟩ := hok.call name hcallee
  have hlt := (hwf v hv).ioff_lt hrp hsome
  have hget : fdp.buf[nrp.ioff]? = some (difoOf lib root v).buf[rp.ioff] := by
    rw [hok.ioff, hfill.buf, getElem?_flatMap_buf hv hlt, getElem?_eq_getElem hlt]
  have hout := hresolved.call nrp hnrp (by rw [hok.callee]; exact hsome)
    (htype.trans ((hwf v hv).call rp hrp hsome).1)
  rw [hget, map_some] at hout
  have hioff : nrp.ioff = place lib root order v + rp.ioff := hok.ioff
  rw [← hioff]
  refine ⟨_, hout, ?_⟩
  rw [callOf, target_eq, hdata]
  exact setWidth_callData v rp name

/-- **Linking.** The code of all that is reached is in the program once, the tables have the sizes that
the layout has counted, and a call goes to the start of its function. There are two exceptions: the
calls in a function that has been linked before go to the copies it has brought along, and calls of the
program itself go where the number of its identifier says. -/
theorem link_correct {st : DlibSt Name} (nextEpid : Nat) (hst : ∀ name, st.ref name = false)
    (hdef : Defined lib root none) (hknown : Known lib env root none)
    (hwf : ∀ v, Reaches (succ lib root) none v → (difoOf lib root v).Wf lib) :
    ∃ out st' order, dtLink lib env root nextEpid st = some (out, st') ∧
      order.Nodup ∧ (∀ v, v ∈ order ↔ Reaches (succ lib root) none v) ∧
      out.insc = out.buf.length ∧ out.relc = out.breltab.length ∧ out.varc = out.vartab.length ∧
      out.buf.map strip = order.flatMap (fun v => (difoOf lib root v).buf.map strip) ∧
      ∀ v ∈ order,
        (∀ i < len lib root v, (∀ rp ∈ (difoOf lib root v).breltab, i ∉ slots rp) →
          out.buf[place lib root order v + i]? = (difoOf lib root v).buf[i]?) ∧
        ∀ rp ∈ (difoOf lib root v).breltab, ∀ name, callee lib rp = some name →
          ∃ x, out.buf[place lib root order v + rp.ioff]? = some x ∧
            target (place lib root order v + rp.ioff) x =
              callTarget lib root order st.id v rp name ∧
            (noDeps lib (identOf root v) = false → root.idp ≠ some name → out.insc < 2 ^ 31 →
              ((place lib root order v + rp.ioff : Nat) : Int) + 1 + x.imm.toInt =
                place lib root order (some name)) := by
  obtain ⟨order, hvisit, hnodup, hmem⟩ := exists_order lib root
  obtain ⟨new, lay, hnew, hlayout, hlay, hnoted⟩ := layout_root lib root hst hdef hvisit
  obtain ⟨fdp, hconstruct, hfill⟩ := construct_root hdef hknown hmem hvisit hnew hlay
    hnoted nextEpid
  have hwf' : ∀ v ∈ order, (difoOf lib root v).Wf lib := fun v hv => hwf v ((hmem v).mp hv)
  obtain ⟨buf, hresolve, hresolved⟩ := resolve_root hnodup hwf' hfill
  have hstrip : buf.map strip = order.flatMap (fun v => (difoOf lib root v).buf.map strip) := by
    rw [hresolved.strip, hfill.buf, map_flatMap]
  have hlen : buf.length = total (len lib root) order := by
    rw [← length_map (f := strip), hstrip]
    exact Blocks.length_flatMap fun v => length_map ..
  have hrelen : fdp.breltab.length = total (relen lib root) order := by
    rw [← hfill.breltab.length_eq]
    exact Blocks.length_flatMap fun v => length_map ..
  have hvarlen : fdp.vartab.length = total (varlen lib root) order := by
    rw [hfill.vartab]
    exact Blocks.length_flatMap fun v => length_map ..
  refine ⟨⟨lay.pc, lay.rc, lay.vc, buf, fdp.breltab, fdp.vartab, fdp.destructive⟩,
    dtDlibReset lib false ⟨fdp.ref, fdp.id⟩, order, ?_, hnodup, hmem, hlay.pc.trans hlen.symm,
    hlay.rc.trans hrelen.symm, hlay.vc.trans hvarlen.symm, hstrip, fun v hv =>
      ⟨fun i hi hslots => getElem?_other hnodup hwf' hfill hresolved hv hi hslots,
        fun rp hrp name hcallee => ?_⟩⟩
  · rw [dtLink, hlayout]
    dsimp only
    rw [hconstruct]
    dsimp only
    rw [hresolve, map_some]
  · obtain ⟨x, hx, htarget⟩ := getElem?_call hwf' hfill hresolved hv hrp hcallee
    refine ⟨x, hx, htarget, fun hdeps hroot hsize => ?_⟩
    dsimp only at hsize
    rw [callTarget, hdeps, if_neg Bool.false_ne_true, if_neg hroot] at htarget
    -- both the call and the function are inside the program
    have hcallee' : some name ∈ order :=
      (hmem _).mpr (((hmem v).mp hv).tail (mem_succ_of_callee hdeps hrp hcallee hroot))
    have hlt := (hwf' v hv).ioff_lt hrp (by rw [hcallee]; rfl)
    have hv_le := startOf_add_le (len lib root) hv
    have hname_le := startOf_add_le (len lib root) hcallee'
    have hpc := hlay.pc
    refine toInt_of_target htarget ?_ ?_
    · show startOf (len lib root) order v + rp.ioff < 2 ^ 31
      have : rp.ioff < len lib root v := hlt
      omega
    · show startOf (len lib root) order (some name) < 2 ^ 31
      omega

end

/-! ### Two programs -/

def callInsn : BpfInsn := ⟨0x85, 0, 1, 0, 0⟩

def exitInsn : BpfInsn := ⟨0x95, 0, 0, 0, 0⟩

/-- A function that calls another one. -/
def callerOf (name : Nat) : Difo Nat := ⟨[callInsn, exitInsn], [⟨name, .r64_32, 0, 0⟩], [], none, false⟩

theorem wf_callerOf (lib : Dlib Nat) (name : Nat) : (callerOf name).Wf lib where
  inside rp hrp i hi := by
    rw [mem_singleton.mp hrp] at hi
    rw [mem_singleton.mp hi]
    show 0 / 8 < 2
    decide
  apart := pairwise_singleton ..
  call rp hrp _ := by
    rw [mem_singleton.mp hrp]
    refine ⟨rfl, ?_⟩
    show ([callInsn, exitInsn][0 / 8]?).any isCall = true
    decide

/-- Two functions that call each other. -/
def cycleLib : Dlib Nat :=
  [(0, ⟨.symbol, false, .other, some (callerOf 1)⟩), (1, ⟨.symbol, false, .other, some (callerOf 0)⟩)]

def noEnv : LinkEnv := ⟨0, fun _ => none⟩

/-- A program that calls one of two functions that call each other. -/
theorem cycle_linked :
    ∃ out st', dtLink cycleLib noEnv ⟨callerOf 0, none⟩ 1 .fresh = some (out, st') ∧
      out.insc = out.buf.length := by
  have hdifo : ∀ v, (difoOf cycleLib ⟨callerOf 0, none⟩ v) = callerOf 0 ∨
      difoOf cycleLib ⟨callerOf 0, none⟩ v = callerOf 1 ∨
      difoOf cycleLib ⟨callerOf 0, none⟩ v = emptyDifo := by
    rintro (_ | _ | _ | n)
    · exact .inl rfl
    · exact .inr (.inl rfl)
    · exact .inl rfl
    · exact .inr (.inr rfl)
  have hrels : ∀ v, ∀ rp ∈ (difoOf cycleLib ⟨callerOf 0, none⟩ v).breltab,
      rp = ⟨0, .r64_32, 0, 0⟩ ∨ rp = ⟨1, .r64_32, 0, 0⟩ := by
    intro v rp hrp
    obtain h | h | h := hdifo v <;> rw [h] at hrp
    · exact .inl (mem_singleton.mp hrp)
    · exact .inr (mem_singleton.mp hrp)
    · cases hrp
  have hdef : Defined cycleLib ⟨callerOf 0, none⟩ none := by
    intro v _ _ rp hrp name hname
    obtain rfl | rfl := hrels v rp hrp <;> obtain rfl := some.inj hname <;>
      exact ⟨_, rfl, rfl⟩
  have hknown : Known cycleLib noEnv ⟨callerOf 0, none⟩ none := by
    intro v _ _ rp hrp idp hidp hkind
    obtain rfl | rfl := hrels v rp hrp <;> obtain rfl := some.inj hidp <;> cases hkind
  have hwf : ∀ v, (difoOf cycleLib ⟨callerOf 0, none⟩ v).Wf cycleLib := by
    intro v
    obtain h | h | h := hdifo v <;> rw [h]
    · exact wf_callerOf cycleLib 0
    · exact wf_callerOf cycleLib 1
    · exact ⟨nofun, .nil, nofun⟩
  obtain ⟨out, st', order, hlink, -, -, hlen, -⟩ :=
    link_correct 1 (show ∀ name, (DlibSt.fresh : DlibSt Nat).ref name = false from fun _ => rfl)
      hdef hknown fun v _ => hwf v
  exact ⟨out, st', hlink, hlen⟩

/-- The identifiers when the program for the ERROR probe is linked: it is `dt_error`, and a function
that it calls calls it. -/
def errorLib : Dlib Nat :=
  [(0, ⟨.symbol, false, .other, none⟩), (1, ⟨.symbol, false, .other, some (callerOf 0)⟩)]

/-- A marked function with the copy of the function that it calls, and that function. -/
def markedLib : Dlib Nat :=
  [(0, ⟨.symbol, true, .other,
      some ⟨[callInsn, exitInsn, exitInsn], [⟨1, .r64_32, 0, 2⟩], [], none, false⟩⟩),
    (1, ⟨.symbol, false, .other, some ⟨[exitInsn], [], [], none, false⟩⟩)]

/-- A program that calls both. -/
def callerOfBoth : Difo Nat :=
  ⟨[callInsn, callInsn, exitInsn], [⟨0, .r64_32, 0, 0⟩, ⟨1, .r64_32, 8, 0⟩], [], none, false⟩

/-- The call of the program in the function goes to -1, and not to the start of the program. The call
in a marked function goes to the copy at 5, and not to the function itself at 6. -/
theorem call_of_program_unresolved :
    (dtLink errorLib noEnv ⟨callerOf 1, some 0⟩ 1 .fresh).map (fun p =>
      ((p.1.buf[0]?).map (target 0), (p.1.buf[2]?).map (target 2))) =
        some (some 2, some 0xffffffff) ∧
    (dtLink markedLib noEnv ⟨callerOfBoth, none⟩ 1 .fresh).map (fun p =>
      ((p.1.buf[1]?).map (target 1), (p.1.buf[3]?).map (target 3))) = some (some 6, some 5) := by
  decide +kernel

end DTrace.Link
