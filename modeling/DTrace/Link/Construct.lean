import DTrace.Link.Layout

/-!
# Linking: the program

`dt_link_construct` goes the same way as the layout, and copies: the instructions of a function, its
variables and its relocation records, with their places moved. A record for a call gets the number of
the function's identifier, which the layout has put there; the records for constants get their values.

* `RelOk` relates a record of a function to the one in the new table.
* `construct_spec`: what has been filled in is the code of the parts in the order in which the layout
  has seen them, and every record is right.
-/

namespace DTrace.Link

open List Option Function

open Bpf (BpfInsn)
open Blocks Dfs

variable {Name : Type} [DecidableEq Name]

/-! ## `dt_link_construct` -/

/-- The identity of the probe, and the values of the constants that are taken from the handle and from
the types of the kernel; `none` if a type is not known. -/
structure LinkEnv where
  prid : BitVec 32
  value : DtConst → Option (BitVec 64)

/-- The identifiers, the program that is filled in, and the data descriptions that have been given
numbers. The tables are filled from their start, up to the counters. -/
structure LinkSt (Name : Type) where
  ref : Name → Bool
  id : Name → BitVec 32
  pc : Nat
  rc : Nat
  vc : Nat
  buf : List BpfInsn
  breltab : List (Reloc Name)
  vartab : List (DifVar Name)
  destructive : Bool
  nextEpid : Nat
  ddescs : List (Nat × BitVec 32)

/-- The value of a constant in the program for `epid` and `clid`, at a relocation offset. -/
def constData (env : LinkEnv) (epid clid offset : Nat) : DtConst → Option (BitVec 64)
  | .epid => some (BitVec.ofNat 64 epid)
  | .prid => some (env.prid.setWidth 64)
  | .clid => some (BitVec.ofNat 64 clid)
  | .argc => some 0
  | .pc => some (BitVec.ofNat 64 (offset / 8))
  | c => env.value c

def moveVar (pc : Nat) (vp : DifVar Name) : DifVar Name :=
  { vp with insnFrom := vp.insnFrom + pc, insnTo := vp.insnTo + pc }

/-- A record as it is copied. -/
def moveRel (lib : Dlib Name) (id : Name → BitVec 32) (pc : Nat) (rp : Reloc Name) : Reloc Name where
  name := rp.name
  type := rp.type
  offset := rp.offset + 8 * pc
  data :=
    match dtDlibGetFunc lib rp.name with
    | none => rp.data
    | some idp => if idp.kind ≠ .symbol then rp.data else (id rp.name).setWidth 64

/-- The copy of a part. -/
def LinkSt.enter (lib : Dlib Name) (st : LinkSt Name) (sdp : Difo Name) (idp : Option Name) :
    LinkSt Name :=
  { st with
    ref := setRef st.ref idp
    pc := st.pc + sdp.buf.length
    rc := st.rc + sdp.breltab.length
    vc := st.vc + sdp.vartab.length
    buf := st.buf ++ sdp.buf
    vartab := st.vartab ++ sdp.vartab.map (moveVar st.pc)
    breltab := st.breltab ++ sdp.breltab.map (moveRel lib st.id st.pc) }

def LinkSt.setRel (st : LinkSt Name) (j : Nat) (f : Reloc Name → Reloc Name) : LinkSt Name :=
  { st with breltab := st.breltab.modify j f }

/-- `dt_epid_add` for a clause. -/
def LinkSt.addEpid (st : LinkSt Name) (ddesc : Option Nat) (prid : BitVec 32) : LinkSt Name :=
  match ddesc with
  | some d => { st with nextEpid := st.nextEpid + 1, ddescs := st.ddescs ++ [(d, prid)] }
  | none => st

/-- The variables of the second loop over the relocation records. -/
structure RelLoop (Name : Type) where
  prid : BitVec 32
  clid : Nat
  st : LinkSt Name

def RelLoop.setRel (l : RelLoop Name) (j : Nat) (f : Reloc Name → Reloc Name) : RelLoop Name :=
  { l with st := l.st.setRel j f }

/-- One round, for the record `rp` whose copy has index `j`; `construct` is the recursive call. -/
def constructRel (lib : Dlib Name) (env : LinkEnv)
    (construct : Difo Name → Name → Nat → Nat → LinkSt Name → Option (Nat × LinkSt Name))
    (noDeps : Bool) (pc epid j : Nat) (rp : Reloc Name) (l : RelLoop Name) :
    Option (RelLoop Name) :=
  match dtDlibGetSym lib rp.name with
  | none => some l
  | some idp =>
    match idp.kind with
    | .scalar =>
      if noDeps then some (l.setRel j fun nrp => { nrp with type := .none })
      else
        match idp.const with
        | .probe => some { l with prid := rp.data.setWidth 32 }
        | .other => some l
        | c =>
          (constData env epid l.clid (rp.offset + 8 * pc) c).map fun v =>
            l.setRel j fun nrp => { nrp with data := v }
    | .symbol =>
      if noDeps then
        some (l.setRel j fun nrp => { nrp with data := rp.data + BitVec.ofNat 64 pc })
      else if l.st.ref rp.name then some l
      else
        match idp.difo with
        | none => none
        | some rdp =>
          let nepid := if rdp.ddesc.isSome then l.st.nextEpid else 0
          let clid := if rdp.ddesc.isSome then l.clid + 1 else l.clid
          match construct rdp rp.name nepid clid (l.st.addEpid rdp.ddesc l.prid) with
          | none => none
          | some (ipc, st) =>
            let st := { st with
              id := update st.id rp.name (BitVec.ofNat 32 ipc)
              destructive := st.destructive || rdp.destructive }
            some ⟨l.prid, clid,
              st.setRel j fun nrp => { nrp with data := (st.id rp.name).setWidth 64 }⟩
    | _ => some l

def constructRels (lib : Dlib Name) (env : LinkEnv)
    (construct : Difo Name → Name → Nat → Nat → LinkSt Name → Option (Nat × LinkSt Name))
    (noDeps : Bool) (pc epid : Nat) :
    Nat → List (Reloc Name) → RelLoop Name → Option (RelLoop Name)
  | _, [], l => some l
  | j, rp :: rest, l =>
    (constructRel lib env construct noDeps pc epid j rp l).bind
      (constructRels lib env construct noDeps pc epid (j + 1) rest)

def dtLinkConstruct (lib : Dlib Name) (env : LinkEnv) :
    Nat → Difo Name → Option Name → Nat → Nat → LinkSt Name → Option (Nat × LinkSt Name)
  | 0, _, _, _, _, _ => none
  | fuel + 1, sdp, idp, epid, clid, st =>
    (constructRels lib env (fun rdp name => dtLinkConstruct lib env fuel rdp (some name))
      (noDeps lib idp) st.pc epid st.rc sdp.breltab ⟨env.prid, clid, st.enter lib sdp idp⟩).map
        fun l => (st.pc, l.st)

/-! ## What is filled in -/

section
variable {α β : Type} {R : α → β → Prop}

variable {l : List α} {l' : List β}

section

variable (h : List.Forall₂ R l l')

include h

theorem forall₂_modify {j : Nat} {f : β → β}
    (hf : ∀ a b, l[j]? = some a → R a b → R a (f b)) : List.Forall₂ R l (l'.modify j f) := by
  induction h generalizing j with
  | nil => rw [modify_nil]; exact .nil
  | @cons a b l l' hab hrest ih =>
    cases j with
    | zero => exact .cons (hf a b rfl hab) hrest
    | succ j => exact .cons hab (ih fun a' b' ha' => hf a' b' ha')

theorem exists_left_of_forall₂ {b : β} (hb : b ∈ l') :
    ∃ a ∈ l, R a b := by
  induction h with
  | nil => cases hb
  | @cons a b' l l' hab _ ih =>
    obtain rfl | hb := mem_cons.mp hb
    · exact ⟨a, mem_cons_self, hab⟩
    · obtain ⟨a', ha', hab'⟩ := ih hb
      exact ⟨a', mem_cons_of_mem a ha', hab'⟩

theorem exists_right_of_forall₂ {a : α} (ha : a ∈ l) : ∃ b ∈ l', R a b :=
  exists_left_of_forall₂ h.flip ha

theorem pairwise_of_forall₂ {S : α → α → Prop} {T : β → β → Prop}
    (himp : ∀ {a a' b b'}, R a b → R a' b' → S a a' → T b b') (hl : l.Pairwise S) :
    l'.Pairwise T := by
  induction h with
  | nil => exact .nil
  | @cons a b l l' hab hrest ih =>
    obtain ⟨ha, hl'⟩ := pairwise_cons.mp hl
    refine .cons (fun b' hb' => ?_) (ih hl')
    obtain ⟨a', ha', hab'⟩ := exists_left_of_forall₂ hrest hb'
    exact himp hab hab' (ha a' ha')

end

theorem modify_append_length (l : List β) (b : β) (l' : List β) (f : β → β) :
    (l ++ b :: l').modify l.length f = l ++ f b :: l' := by
  induction l with
  | nil => rfl
  | cons a l ih => rw [List.cons_append, length_cons, modify_succ_cons, ih]; rfl

theorem getElem?_flatMap_extend {f : α → List β} {l' : List α} (h : l <+: l') {j : Nat} {b : β}
    (hj : (l.flatMap f)[j]? = some b) : (l'.flatMap f)[j]? = some b := by
  obtain ⟨-, rfl⟩ := h
  rw [flatMap_append, getElem?_append_left (List.getElem?_eq_some_iff.mp hj).1, hj]

end

section
variable (lib : Dlib Name) (env : LinkEnv) (root : Root Name) (order : List (Part Name))
  (ids : Name → BitVec 32)

/-- Where a part will be. -/
def place (v : Part Name) : Nat := startOf (len lib root) order v

/-- The data of a record for a call to `name` from `v`: the place of the function. Calls in a function
that has been linked before go to its own copies. The program's own identifier has no place. -/
def callData (v : Part Name) (rp : Reloc Name) (name : Name) : BitVec 64 :=
  if noDeps lib (identOf root v) then rp.data + BitVec.ofNat 64 (place lib root order v)
  else
    (if root.idp = some name then ids name
      else BitVec.ofNat 32 (place lib root order (some name))).setWidth 64

/-- A record of a part and the one that is made of it. -/
structure RelOk (p : Part Name × Reloc Name) (nrp : Reloc Name) : Prop where
  name : nrp.name = p.2.name
  offset : nrp.offset = p.2.offset + 8 * place lib root order p.1
  type : nrp.type = p.2.type ∨ nrp.type = .none
  call : ∀ name, callee lib p.2 = some name →
    nrp.type = p.2.type ∧ nrp.data = callData lib root order ids p.1 p.2 name

/-- The records of a part. -/
def tagged (v : Part Name) : List (Part Name × Reloc Name) :=
  (difoOf lib root v).breltab.map fun rp => (v, rp)

/-- What has been filled in when some parts have been seen. -/
structure FilledIn (seen : List (Part Name)) (st : LinkSt Name) : Prop where
  id : ∀ name, some name ∈ order → st.id name = BitVec.ofNat 32 (place lib root order (some name))
  rootId : ∀ name, root.idp = some name → st.id name = ids name
  pc : st.pc = total (len lib root) seen
  rc : st.rc = total (relen lib root) seen
  vc : st.vc = total (varlen lib root) seen
  buf : st.buf = seen.flatMap fun v => (difoOf lib root v).buf
  vartab : st.vartab = seen.flatMap fun v =>
    (difoOf lib root v).vartab.map (moveVar (place lib root order v))
  breltab : List.Forall₂ (RelOk lib root order ids) (seen.flatMap (tagged lib root)) st.breltab

/-- The constants of the parts that are followed have values. -/
def Known (v : Part Name) : Prop :=
  ∀ u, Reaches (succ lib root) v u → noDeps lib (identOf root u) = false →
    ∀ rp ∈ (difoOf lib root u).breltab, ∀ idp, dtDlibGetSym lib rp.name = some idp →
      idp.kind = .scalar → idp.const = .probe ∨ idp.const = .other ∨
        ∀ epid clid offset, (constData env epid clid offset idp.const).isSome

end

variable {lib : Dlib Name} {env : LinkEnv} {root : Root Name} {order : List (Part Name)}
  {ids : Name → BitVec 32}

variable {seen : List (Part Name)} {v : Part Name} {st : LinkSt Name} {rp : Reloc Name}
  {seen' : List (Part Name)}

/-- A part is copied to its place. -/
theorem place_eq_total (hv : v ∉ seen) (hpre : seen ++ [v] <+: order) :
    place lib root order v = total (len lib root) seen := by
  obtain ⟨-, rfl⟩ := hpre
  rw [append_assoc]
  exact startOf_append_self hv

section

variable (h : FilledIn lib root order ids seen st)

include h

theorem FilledIn.enter (hv : v ∉ seen)
    (hpre : seen ++ [v] <+: order) {entries : List (Reloc Name)}
    (hentries : List.Forall₂ (RelOk lib root order ids) (tagged lib root v) entries) :
    FilledIn lib root order ids (seen ++ [v])
      { st.enter lib (difoOf lib root v) (identOf root v) with
        breltab := st.breltab ++ entries } where
  id := h.id
  rootId := h.rootId
  pc := by rw [total_append, ← h.pc]; rfl
  rc := by rw [total_append, ← h.rc]; rfl
  vc := by rw [total_append, ← h.vc]; rfl
  buf := by
    rw [flatMap_append, ← h.buf, flatMap_singleton]
    rfl
  vartab := by
    rw [flatMap_append, ← h.vartab, flatMap_singleton, place_eq_total hv hpre, ← h.pc]
    rfl
  breltab := by
    rw [flatMap_append, flatMap_singleton]
    exact rel_append h.breltab hentries

theorem FilledIn.setRel {j : Nat}
    {f : Reloc Name → Reloc Name}
    (hf : ∀ p nrp, (seen.flatMap (tagged lib root))[j]? = some p →
      RelOk lib root order ids p nrp → RelOk lib root order ids p (f nrp)) :
    FilledIn lib root order ids seen (st.setRel j f) :=
  ⟨h.id, h.rootId, h.pc, h.rc, h.vc, h.buf, h.vartab, forall₂_modify h.breltab hf⟩

theorem FilledIn.addEpid (ddesc : Option Nat)
    (prid : BitVec 32) :
    FilledIn lib root order ids seen (st.addEpid ddesc prid) ∧
      (st.addEpid ddesc prid).ref = st.ref ∧ (st.addEpid ddesc prid).pc = st.pc := by
  cases ddesc with
  | none => exact ⟨h, rfl, rfl⟩
  | some d => exact ⟨⟨h.id, h.rootId, h.pc, h.rc, h.vc, h.buf, h.vartab, h.breltab⟩, rfl, rfl⟩

/-- The number of an identifier is set to what it is. -/
theorem FilledIn.setId {name : Name}
    (hroot : root.idp ≠ some name) (destructive : Bool) :
    FilledIn lib root order ids seen { st with
      id := update st.id name (BitVec.ofNat 32 (place lib root order (some name)))
      destructive := destructive } := by
  refine ⟨fun other hother => ?_, fun other hother => ?_, h.pc, h.rc, h.vc, h.buf, h.vartab,
    h.breltab⟩
  · dsimp only
    by_cases heq : other = name
    · rw [heq, update_self]
    · rw [update_of_ne heq, h.id other hother]
  · dsimp only
    have hne : other ≠ name := by
      rintro rfl
      exact hroot hother
    rw [update_of_ne hne, h.rootId other hother]

end

/-! ### The records that are copied -/

theorem moveRel_data_of_callee {name : Name} (h : callee lib rp = some name)
    (id : Name → BitVec 32) (pc : Nat) : (moveRel lib id pc rp).data = (id name).setWidth 64 := by
  obtain ⟨rfl, _, -, hkind, hfunc⟩ := callee_eq_some h
  unfold moveRel
  rw [hfunc]
  exact if_neg (not_not_intro hkind)

/-- Where calls are followed, a record is right when it is copied: the layout has been there. -/
theorem relOk_moveRel (h : FilledIn lib root order ids seen st)
    (hclosed : ∀ u ∈ order, ∀ w ∈ succ lib root u, w ∈ order) (hv : v ∈ order)
    (hplace : st.pc = place lib root order v) (hdeps : noDeps lib (identOf root v) = false)
    (hrp : rp ∈ (difoOf lib root v).breltab) :
    RelOk lib root order ids (v, rp) (moveRel lib st.id st.pc rp) := by
  refine ⟨rfl, by rw [← hplace]; rfl, .inl rfl, fun name hcallee => ⟨rfl, ?_⟩⟩
  rw [moveRel_data_of_callee hcallee, callData, hdeps, if_neg Bool.false_ne_true]
  by_cases hroot : root.idp = some name
  · rw [if_pos hroot, h.rootId name hroot]
  · rw [if_neg hroot, h.id name]
    exact hclosed v hv (some name) (mem_succ_of_callee hdeps hrp hcallee hroot)

/-! ### A function that has been linked before -/

/-- What the second loop makes of a record there. -/
def finishRel (lib : Dlib Name) (pc : Nat) (rp nrp : Reloc Name) : Reloc Name :=
  match dtDlibGetSym lib rp.name with
  | none => nrp
  | some idp =>
    match idp.kind with
    | .scalar => { nrp with type := .none }
    | .symbol => { nrp with data := rp.data + BitVec.ofNat 64 pc }
    | _ => nrp

section
variable {construct : Difo Name → Name → Nat → Nat → LinkSt Name → Option (Nat × LinkSt Name)}

omit [DecidableEq Name] in
theorem RelLoop.setRel_id (l : RelLoop Name) (j : Nat) : (l.setRel j fun nrp => nrp) = l := by
  have hmodify : l.st.breltab.modify j (fun nrp => nrp) = l.st.breltab :=
    modify_id j l.st.breltab
  rw [RelLoop.setRel, LinkSt.setRel, hmodify]

theorem constructRel_noDeps (pc epid j : Nat) (rp : Reloc Name) (l : RelLoop Name) :
    constructRel lib env construct true pc epid j rp l = some (l.setRel j (finishRel lib pc rp)) := by
  unfold constructRel finishRel
  cases dtDlibGetSym lib rp.name with
  | none => rw [RelLoop.setRel_id]
  | some idp =>
    dsimp only
    cases idp.kind with
    | scalar => rfl
    | symbol => rfl
    | func | ptr => exact congrArg some (RelLoop.setRel_id l j).symm

theorem constructRels_noDeps (pc epid : Nat) {f : Reloc Name → Reloc Name}
    {rels : List (Reloc Name)} {done : List (Reloc Name)} {l : RelLoop Name}
    (hl : l.st.breltab = done ++ rels.map f) :
    constructRels lib env construct true pc epid done.length rels l =
      some { l with st := { l.st with
        breltab := done ++ rels.map fun rp => finishRel lib pc rp (f rp) } } := by
  induction rels generalizing done l with
  | nil =>
    rw [map_nil] at hl ⊢
    rw [constructRels, ← hl]
  | cons rp rels ih =>
    rw [constructRels, constructRel_noDeps, bind_some]
    have hnext : (l.setRel done.length (finishRel lib pc rp)).st.breltab =
        (done ++ [finishRel lib pc rp (f rp)]) ++ rels.map f := by
      show l.st.breltab.modify done.length _ = _
      rw [hl, map_cons, modify_append_length, append_assoc]
      rfl
    have hrest := ih hnext
    rw [length_append, length_singleton, append_assoc] at hrest
    rw [hrest]
    rfl

end

theorem relOk_finishRel (id : Name → BitVec 32) {pc : Nat} (hplace : pc = place lib root order v)
    (hdeps : noDeps lib (identOf root v) = true) (rp : Reloc Name) :
    RelOk lib root order ids (v, rp) (finishRel lib pc rp (moveRel lib id pc rp)) := by
  have hoffset : (moveRel lib id pc rp).offset = rp.offset + 8 * place lib root order v := by
    rw [← hplace]
    rfl
  unfold finishRel
  cases hsym : dtDlibGetSym lib rp.name with
  | none =>
    refine ⟨rfl, hoffset, .inl rfl, fun name hcallee => ?_⟩
    cases (callee_of_no_sym hsym).symm.trans hcallee
  | some idp =>
    dsimp only
    cases hkind : idp.kind with
    | symbol =>
      refine ⟨rfl, hoffset, .inl rfl, fun name _ => ⟨rfl, ?_⟩⟩
      rw [callData, hdeps, if_pos rfl, ← hplace]
    | scalar =>
      refine ⟨rfl, hoffset, .inr rfl, fun name hcallee => ?_⟩
      cases (callee_of_kind hsym (by rw [hkind]; decide)).symm.trans hcallee
    | func | ptr =>
      refine ⟨rfl, hoffset, .inl rfl, fun name hcallee => ?_⟩
      cases (callee_of_kind hsym (by rw [hkind]; decide)).symm.trans hcallee

/-! ### Where calls are followed -/

variable (lib env root order ids) in
/-- What the construction of a function comes to, when it is at depth `fuel`. -/
def ConstructSpec (fuel : Nat) : Prop :=
  ∀ {seen seen' : List (Part Name)} {name : Name} {st : LinkSt Name} (epid clid : Nat),
    FilledIn lib root order ids seen st → Flags root seen st.ref → Defined lib root (some name) →
    Known lib env root (some name) → some name ∉ seen →
    visit (succ lib root) fuel seen (some name) = some seen' → seen' <+: order →
    ∃ st', dtLinkConstruct lib env fuel (difoOf lib root (some name)) (some name) epid clid st =
        some (st.pc, st') ∧
      FilledIn lib root order ids seen' st' ∧ Flags root seen' st'.ref

/-- **One round** of the second loop. -/
theorem constructRel_spec {fuel : Nat} (hspec : ConstructSpec lib env root order ids fuel)
    (hdef : Defined lib root v) (hknown : Known lib env root v)
    (hdeps : noDeps lib (identOf root v) = false) (hrp : rp ∈ (difoOf lib root v).breltab)
    {l : RelLoop Name} (pc epid : Nat) {j : Nat} (hfill : FilledIn lib root order ids seen l.st)
    (hflags : Flags root seen l.st.ref) (hj : (seen.flatMap (tagged lib root))[j]? = some (v, rp))
    (hvisit : visitList (visit (succ lib root) fuel) (edge lib root rp).toList seen = some seen')
    (hpre : seen' <+: order) :
    ∃ l', constructRel lib env (fun rdp name => dtLinkConstruct lib env fuel rdp (some name)) false
        pc epid j rp l = some l' ∧
      FilledIn lib root order ids seen' l'.st ∧ Flags root seen' l'.st.ref := by
  have hskip : callee lib rp = none → seen' = seen := by
    intro hcallee
    rw [edge_of_no_callee hcallee] at hvisit
    exact (some.inj hvisit).symm
  unfold constructRel
  cases hsym : dtDlibGetSym lib rp.name with
  | none =>
    obtain rfl := hskip (callee_of_no_sym hsym)
    exact ⟨l, rfl, hfill, hflags⟩
  | some idp =>
    dsimp only
    cases hkind : idp.kind with
    | func | ptr =>
      obtain rfl := hskip (callee_of_kind hsym (by rw [hkind]; decide))
      exact ⟨l, rfl, hfill, hflags⟩
    | scalar =>
      have hcallee := callee_of_kind hsym (by rw [hkind]; decide)
      obtain rfl := hskip hcallee
      dsimp only
      rw [if_neg Bool.false_ne_true]
      split
      · exact ⟨_, rfl, hfill, hflags⟩
      · exact ⟨l, rfl, hfill, hflags⟩
      · next hprobe hother =>
        have hconst := ((hknown v .refl hdeps rp hrp idp hsym hkind).resolve_left hprobe).resolve_left
          hother epid l.clid (rp.offset + 8 * pc)
        obtain ⟨_, hvalue⟩ := isSome_iff_exists.mp hconst
        rw [hvalue]
        refine ⟨_, rfl, hfill.setRel fun p nrp hp hok => ?_, hflags⟩
        obtain rfl : (v, rp) = p := some.inj (hj.symm.trans hp)
        refine ⟨hok.name, hok.offset, hok.type, fun name hname => ?_⟩
        cases hcallee.symm.trans hname
    | symbol =>
      have hcallee : callee lib rp = some rp.name := callee_of_symbol hsym hkind
      dsimp only
      rw [if_neg Bool.false_ne_true]
      split
      · next href =>
        -- the program itself, or a function that is there
        refine ⟨l, rfl, ?_⟩
        have hseen : seen' = seen := by
          by_cases hroot : root.idp = some rp.name
          · rw [edge_of_root hcallee hroot] at hvisit
            exact (some.inj hvisit).symm
          · have hmem := ((hflags rp.name).mp href).resolve_right hroot
            rw [edge_of_callee hcallee hroot, toList_some, visitList, if_pos hmem] at hvisit
            exact (some.inj hvisit).symm
        rw [hseen]
        exact ⟨hfill, hflags⟩
      · next href =>
        have hnot : ¬ (some rp.name ∈ seen ∨ root.idp = some rp.name) :=
          fun h => href ((hflags rp.name).mpr h)
        obtain ⟨hmem, hroot⟩ := not_or.mp hnot
        rw [edge_of_callee hcallee hroot, toList_some, visitList, if_neg hmem] at hvisit
        obtain ⟨mid, hmid, hrest⟩ := bind_eq_some_iff.mp hvisit
        obtain rfl : mid = seen' := some.inj hrest
        obtain ⟨hdef', idp', hidp', hdifo⟩ := hdef.call hdeps hrp hcallee hroot
        obtain rfl : idp = idp' := some.inj (hsym.symm.trans hidp')
        have hknown' : Known lib env root (some rp.name) := fun u hu =>
          hknown u (.head (mem_succ_of_callee hdeps hrp hcallee hroot) hu)
        rw [hdifo]
        dsimp only
        obtain ⟨hfill0, href0, hpc0⟩ :=
          hfill.addEpid (difoOf lib root (some rp.name)).ddesc l.prid
        obtain ⟨_, hst1, hfill1, hflags1⟩ := hspec
          (if (difoOf lib root (some rp.name)).ddesc.isSome then l.st.nextEpid else 0)
          (if (difoOf lib root (some rp.name)).ddesc.isSome then l.clid + 1 else l.clid) hfill0
          (href0 ▸ hflags) hdef' hknown' hmem hmid hpre
        have hplace : l.st.pc = place lib root order (some rp.name) := by
          rw [place_eq_total hmem ((visit_extends hmid).trans hpre), hfill.pc]
        rw [hst1, hpc0, hplace]
        refine ⟨_, rfl, ?_, hflags1⟩
        refine (hfill1.setId hroot _).setRel fun p nrp hp hok => ?_
        -- the record still has its place in the table
        have hp' := getElem?_flatMap_extend
          ((prefix_append seen [some rp.name]).trans (visit_extends hmid)) hj
        obtain rfl : (v, rp) = p := some.inj (hp'.symm.trans hp)
        refine ⟨hok.name, hok.offset, hok.type, fun name hname => ⟨(hok.call name hname).1, ?_⟩⟩
        obtain rfl : rp.name = name := some.inj (hcallee.symm.trans hname)
        rw [callData, hdeps, if_neg Bool.false_ne_true, if_neg hroot, update_self]

/-- **The second loop.** -/
theorem constructRels_spec {fuel : Nat} (hspec : ConstructSpec lib env root order ids fuel)
    (hdef : Defined lib root v) (hknown : Known lib env root v)
    (hdeps : noDeps lib (identOf root v) = false) {rels : List (Reloc Name)}
    (hrels : ∀ rp ∈ rels, rp ∈ (difoOf lib root v).breltab) {l : RelLoop Name} (pc epid : Nat)
    {j : Nat} (hfill : FilledIn lib root order ids seen l.st) (hflags : Flags root seen l.st.ref)
    (hj : ∀ i rp, rels[i]? = some rp → (seen.flatMap (tagged lib root))[j + i]? = some (v, rp))
    (hvisit : visitList (visit (succ lib root) fuel) (rels.filterMap (edge lib root)) seen =
      some seen') (hpre : seen' <+: order) :
    ∃ l', constructRels lib env (fun rdp name => dtLinkConstruct lib env fuel rdp (some name)) false
        pc epid j rels l = some l' ∧
      FilledIn lib root order ids seen' l'.st ∧ Flags root seen' l'.st.ref := by
  induction rels generalizing seen l j with
  | nil =>
    obtain rfl := some.inj hvisit
    exact ⟨l, rfl, hfill, hflags⟩
  | cons rp rels ih =>
    have hsplit : (rp :: rels).filterMap (edge lib root) =
        (edge lib root rp).toList ++ rels.filterMap (edge lib root) := by
      cases hedge : edge lib root rp with
      | none => rw [filterMap_cons_none hedge]; rfl
      | some w => rw [filterMap_cons_some hedge]; rfl
    rw [hsplit, visitList_append] at hvisit
    obtain ⟨mid, hmid, hrest⟩ := bind_eq_some_iff.mp hvisit
    have hseen : seen <+: mid := visitList_extends visit_extends hmid
    have hmid' : mid <+: order := (visitList_extends visit_extends hrest).trans hpre
    obtain ⟨_, hl1, hfill1, hflags1⟩ := constructRel_spec (j := j) hspec hdef hknown hdeps
      (hrels rp mem_cons_self) pc epid hfill hflags (hj 0 rp rfl) hmid hmid'
    rw [constructRels, hl1]
    refine ih (fun rp' h => hrels rp' (mem_cons_of_mem rp h)) hfill1 hflags1 (fun i rp' hi => ?_)
      hrest
    rw [Nat.add_assoc, Nat.add_comm 1 i]
    exact getElem?_flatMap_extend hseen (hj (i + 1) rp' hi)

/-- The part is entered, and its records are copied to the end of the table. -/
theorem getElem?_tagged {i : Nat} (hi : (difoOf lib root v).breltab[i]? = some rp) :
    ((seen ++ [v]).flatMap (tagged lib root))[total (relen lib root) seen + i]? = some (v, rp) := by
  have hlen : (seen.flatMap (tagged lib root)).length = total (relen lib root) seen :=
    Blocks.length_flatMap fun u => length_map ..
  rw [flatMap_append, flatMap_singleton, getElem?_append_right (by omega), hlen,
    Nat.add_sub_cancel_left, tagged, getElem?_map, hi]
  rfl

/-- What follows when a part has been entered; `st` is the state before. -/
theorem construct_of_entered {fuel : Nat} (hspec : ConstructSpec lib env root order ids fuel)
    (hclosed : ∀ u ∈ order, ∀ w ∈ succ lib root u, w ∈ order) (epid clid : Nat)
    (hfill : FilledIn lib root order ids seen st)
    (hflags : Flags root (seen ++ [v]) (setRef st.ref (identOf root v)))
    (hdef : Defined lib root v) (hknown : Known lib env root v) (hv : v ∉ seen)
    (hvisit : visit (succ lib root) (fuel + 1) seen v = some seen') (hpre : seen' <+: order) :
    ∃ st', dtLinkConstruct lib env (fuel + 1) (difoOf lib root v) (identOf root v) epid clid st =
        some (st.pc, st') ∧
      FilledIn lib root order ids seen' st' ∧ Flags root seen' st'.ref := by
  have hpre' : seen ++ [v] <+: order := (visit_extends hvisit).trans hpre
  have hmem : v ∈ order := hpre'.subset (mem_append_right seen mem_cons_self)
  have hplace : st.pc = place lib root order v := hfill.pc.trans (place_eq_total hv hpre').symm
  have hrc : st.rc = st.breltab.length := by
    rw [hfill.rc, ← hfill.breltab.length_eq]
    exact (Blocks.length_flatMap fun u => length_map ..).symm
  rw [dtLinkConstruct]
  rw [visit] at hvisit
  cases hdeps : noDeps lib (identOf root v) with
  | true =>
    rw [show succ lib root v = [] from if_pos hdeps] at hvisit
    obtain rfl := some.inj hvisit
    rw [hrc, constructRels_noDeps st.pc epid rfl]
    refine ⟨_, rfl, hfill.enter hv hpre' ?_, hflags⟩
    rw [tagged, forall₂_map_left_iff, forall₂_map_right_iff]
    exact List.forall₂_same.mpr fun rp _ => relOk_finishRel st.id hplace hdeps rp
  | false =>
    have hsucc : succ lib root v = (difoOf lib root v).breltab.filterMap (edge lib root) := by
      rw [succ, hdeps]
      rfl
    rw [hsucc] at hvisit
    have hentries : List.Forall₂ (RelOk lib root order ids) (tagged lib root v)
        ((difoOf lib root v).breltab.map (moveRel lib st.id st.pc)) := by
      rw [tagged, forall₂_map_left_iff, forall₂_map_right_iff]
      exact List.forall₂_same.mpr fun rp hrp => relOk_moveRel hfill hclosed hmem hplace hdeps hrp
    obtain ⟨l', hl', hfill', hflags'⟩ := constructRels_spec
      (l := ⟨env.prid, clid, st.enter lib (difoOf lib root v) (identOf root v)⟩) hspec hdef hknown hdeps
      (fun _ h => h) st.pc epid (hfill.enter hv hpre' hentries) hflags
      (fun i rp hi => hfill.rc ▸ getElem?_tagged hi) hvisit hpre
    rw [hl']
    exact ⟨l'.st, rfl, hfill', hflags'⟩

/-- **The program is filled in, in the order of the layout.** -/
theorem construct_spec (hclosed : ∀ u ∈ order, ∀ w ∈ succ lib root u, w ∈ order) (fuel : Nat) :
    ConstructSpec lib env root order ids fuel := by
  induction fuel with
  | zero =>
    intro seen seen' name st epid clid _ _ _ _ _ hvisit
    cases hvisit
  | succ fuel ih =>
    intro seen seen' name st epid clid hfill hflags hdef hknown hv hvisit hpre
    exact construct_of_entered ih hclosed epid clid hfill (hflags.enter name) hdef hknown hv hvisit hpre

end DTrace.Link
