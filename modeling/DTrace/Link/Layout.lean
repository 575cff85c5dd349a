import DTrace.Bpf.As
import DTrace.Lib.Blocks
import DTrace.Lib.Dfs

/-!
# Linking: the layout

A program is linked with the functions it calls, and those they call. `dt_link_layout` goes through the
relocation records of the program and of every function that has not been referenced yet, counts
instructions, relocation records and variables, and notes in the identifier of each function where its
code will be.

* `succ` is the graph of the calls. A function that is marked for inlining has been linked before, with
  all it calls, so nothing is followed from there; calls to the program itself are not followed either.
* `layout_spec`: the layout visits the functions in depth-first order, its counters are the sums over
  what has been seen, and an identifier has the start of its function.
-/

namespace DTrace.Link

open List Option Function

open Bpf (BpfInsn)
open Blocks Dfs

/-! ## Programs and identifiers -/

inductive RelType where
  | none | r64_64 | r64_32
  deriving DecidableEq, Repr

/-- `dof_relodesc_t`; the name is that of the string table -/
structure Reloc (Name : Type) where
  name : Name
  type : RelType
  offset : Nat
  data : BitVec 64
  deriving DecidableEq, Repr

/-- `dtrace_difv_t`, with the fields that are relocated -/
structure DifVar (Name : Type) where
  name : Name
  insnFrom : Nat
  insnTo : Nat
  deriving DecidableEq, Repr

/-- `dtrace_difo_t`; `ddesc` is the data description of a clause. -/
structure Difo (Name : Type) where
  buf : List BpfInsn
  breltab : List (Reloc Name)
  vartab : List (DifVar Name)
  ddesc : Option Nat
  destructive : Bool
  deriving DecidableEq, Repr

/-- The constants that are put in programs; `probe` is one with the name of a probe, and `other` any
other. -/
inductive DtConst where
  | epid | prid | clid | argc | stbsz | strsz | stksiz | boottm | nspec | ncpus | pc | tupsz
  | taskPid | taskTgid | taskRealParent | taskComm | mutexOwner | rwlockCnts
  | rodataOff | rodataSize | zeroOff | probe | other
  deriving DecidableEq, Repr

inductive IdentKind where
  | func | symbol | scalar | ptr
  deriving DecidableEq, Repr

/-- What does not change of an identifier of the BPF library. A `scalar` is a constant, and a `symbol`
has a function as its data, if there is one; `cgreg` is `DT_IDFLG_CGREG`. -/
structure Ident (Name : Type) where
  kind : IdentKind
  cgreg : Bool
  const : DtConst
  difo : Option (Difo Name)
  deriving DecidableEq, Repr

variable {Name : Type} [DecidableEq Name]

/-- The identifiers by their names. -/
abbrev Dlib (Name : Type) := List (Name × Ident Name)

def dtDlibGetSym (lib : Dlib Name) (name : Name) : Option (Ident Name) := lib.lookup name

def dtDlibGetFunc (lib : Dlib Name) (name : Name) : Option (Ident Name) :=
  (dtDlibGetSym lib name).filter fun idp => idp.kind = .func || idp.kind = .symbol

/-! ## `dt_link_layout` -/

/-- The reference flags and the numbers of the identifiers, and the counters. -/
structure LayoutSt (Name : Type) where
  ref : Name → Bool
  id : Name → BitVec 32
  pc : Nat
  rc : Nat
  vc : Nat

/-- A flag of an identifier, if there is one. -/
def noDeps (lib : Dlib Name) : Option Name → Bool
  | none => false
  | some name => (dtDlibGetSym lib name).any (·.cgreg)

def setRef (ref : Name → Bool) : Option Name → Name → Bool
  | none => ref
  | some name => update ref name true

def LayoutSt.enter (st : LayoutSt Name) (dp : Difo Name) (idp : Option Name) : LayoutSt Name where
  ref := setRef st.ref idp
  id := st.id
  pc := st.pc + dp.buf.length
  rc := st.rc + dp.breltab.length
  vc := st.vc + dp.vartab.length

/-- The loop over the relocation records; `layout` is the recursive call. -/
def layoutRels (lib : Dlib Name)
    (layout : Difo Name → Name → LayoutSt Name → Option (Nat × LayoutSt Name)) :
    List (Reloc Name) → LayoutSt Name → Option (LayoutSt Name)
  | [], st => some st
  | rp :: rest, st =>
    match dtDlibGetFunc lib rp.name with
    | none => layoutRels lib layout rest st
    | some idp =>
      if idp.kind ≠ .symbol || st.ref rp.name then layoutRels lib layout rest st
      else
        match idp.difo with
        | none => none
        | some rdp =>
          match layout rdp rp.name st with
          | none => none
          | some (ipc, st) =>
            layoutRels lib layout rest
              { st with id := update st.id rp.name (BitVec.ofNat 32 ipc) }

/-- The place of the program, or `none` for -1. The first argument bounds the depth of the recursion. -/
def dtLinkLayout (lib : Dlib Name) :
    Nat → Difo Name → Option Name → LayoutSt Name → Option (Nat × LayoutSt Name)
  | 0, _, _, _ => none
  | fuel + 1, dp, idp, st =>
    if noDeps lib idp then some (st.pc, st.enter dp idp)
    else
      (layoutRels lib (fun rdp name => dtLinkLayout lib fuel rdp (some name)) dp.breltab
        (st.enter dp idp)).map fun st' => (st.pc, st')

/-! ## The graph of the calls -/

/-- The function that a relocation record is for. -/
def callee (lib : Dlib Name) (rp : Reloc Name) : Option Name :=
  match dtDlibGetSym lib rp.name with
  | some idp => if idp.kind = .symbol then some rp.name else none
  | none => none

/-- What is linked: the program (`none`) and the functions. -/
abbrev Part (Name : Type) := Option Name

/-- The program `dp` that is linked, and its identifier, if it has one. -/
structure Root (Name : Type) where
  dp : Difo Name
  idp : Option Name

def emptyDifo : Difo Name := ⟨[], [], [], none, false⟩

variable (lib : Dlib Name) (root : Root Name)

def difoOf : Part Name → Difo Name
  | none => root.dp
  | some name => ((dtDlibGetSym lib name).bind (·.difo)).getD emptyDifo

def identOf : Part Name → Option Name
  | none => root.idp
  | some name => some name

/-- A relocation record that is followed. -/
def edge (rp : Reloc Name) : Option (Part Name) :=
  (callee lib rp).bind fun name => if root.idp = some name then none else some (some name)

def succ (v : Part Name) : List (Part Name) :=
  if noDeps lib (identOf root v) then [] else (difoOf lib root v).breltab.filterMap (edge lib root)

/-- Instructions, relocation records and variables of a part. -/
def len (v : Part Name) : Nat := (difoOf lib root v).buf.length

def relen (v : Part Name) : Nat := (difoOf lib root v).breltab.length

def varlen (v : Part Name) : Nat := (difoOf lib root v).vartab.length

/-- All functions that are called from there are defined. -/
def Defined (v : Part Name) : Prop :=
  ∀ u, Reaches (succ lib root) v u → noDeps lib (identOf root u) = false →
    ∀ rp ∈ (difoOf lib root u).breltab, ∀ name, callee lib rp = some name →
      ∃ idp, dtDlibGetSym lib name = some idp ∧ idp.difo.isSome

variable {lib root}

variable {rp : Reloc Name} {name : Name} {idp : Ident Name} {v : Part Name}
  {seen : List (Part Name)} {st : LayoutSt Name}

theorem callee_eq_some (h : callee lib rp = some name) :
    rp.name = name ∧ ∃ idp, dtDlibGetSym lib name = some idp ∧ idp.kind = .symbol ∧
      dtDlibGetFunc lib name = some idp := by
  unfold callee at h
  cases hsym : dtDlibGetSym lib rp.name with
  | none => rw [hsym] at h; cases h
  | some idp =>
    rw [hsym] at h
    dsimp only at h
    split at h
    · next hkind =>
      obtain rfl := some.inj h
      refine ⟨rfl, idp, hsym, hkind, ?_⟩
      rw [dtDlibGetFunc, hsym, filter_some, if_pos (by rw [hkind]; rfl)]
    · cases h

theorem callee_of_symbol (hsym : dtDlibGetSym lib rp.name = some idp) (hkind : idp.kind = .symbol) :
    callee lib rp = some rp.name := by
  rw [callee, hsym]
  exact if_pos hkind

theorem callee_of_kind (hsym : dtDlibGetSym lib rp.name = some idp) (hkind : idp.kind ≠ .symbol) :
    callee lib rp = none := by
  rw [callee, hsym]
  exact if_neg hkind

theorem callee_of_no_sym (hsym : dtDlibGetSym lib rp.name = none) : callee lib rp = none := by
  rw [callee, hsym]

theorem kind_of_callee_eq_none (h : callee lib rp = none)
    (hsym : dtDlibGetSym lib rp.name = some idp) : idp.kind ≠ .symbol := by
  intro hkind
  cases (callee_of_symbol hsym hkind).symm.trans h

theorem edge_of_callee (h : callee lib rp = some name) (hroot : root.idp ≠ some name) :
    edge lib root rp = some (some name) := by
  rw [edge, h, bind_some, if_neg hroot]

theorem mem_succ_of_callee (hdeps : noDeps lib (identOf root v) = false)
    (hrp : rp ∈ (difoOf lib root v).breltab) (h : callee lib rp = some name)
    (hroot : root.idp ≠ some name) : some name ∈ succ lib root v := by
  rw [succ, hdeps]
  exact mem_filterMap.mpr ⟨rp, hrp, edge_of_callee h hroot⟩

theorem edge_of_root (h : callee lib rp = some name) (hroot : root.idp = some name) :
    edge lib root rp = none := by
  rw [edge, h, bind_some, if_pos hroot]

theorem edge_of_no_callee (h : callee lib rp = none) : edge lib root rp = none := by
  rw [edge, h, bind_none]

theorem callee_of_edge (h : edge lib root rp = some v) :
    ∃ name, v = some name ∧ callee lib rp = some name ∧ root.idp ≠ some name := by
  obtain ⟨name, hname, hif⟩ := bind_eq_some_iff.mp h
  split at hif
  · cases hif
  · next hroot => exact ⟨name, (some.inj hif).symm, hname, hroot⟩

/-! ## The layout in depth-first order -/

section
variable {layout : Difo Name → Name → LayoutSt Name → Option (Nat × LayoutSt Name)}
  {rp : Reloc Name} {rest : List (Reloc Name)} {st : LayoutSt Name} {name : Name}

theorem layoutRels_of_no_callee (h : callee lib rp = none) :
    layoutRels lib layout (rp :: rest) st = layoutRels lib layout rest st := by
  rw [layoutRels]
  cases hfunc : dtDlibGetFunc lib rp.name with
  | none => rfl
  | some idp =>
    have hsym : dtDlibGetSym lib rp.name = some idp := (filter_eq_some_iff.mp hfunc).1
    have hkind := kind_of_callee_eq_none h hsym
    dsimp only
    rw [if_pos (by simp [hkind])]

theorem layoutRels_of_ref (h : callee lib rp = some name) (href : st.ref name = true) :
    layoutRels lib layout (rp :: rest) st = layoutRels lib layout rest st := by
  obtain ⟨rfl, _, -, -, hfunc⟩ := callee_eq_some h
  rw [layoutRels, hfunc]
  dsimp only
  rw [if_pos (by simp [href])]

theorem layoutRels_of_call (h : callee lib rp = some name) (href : st.ref name = false)
    {idp : Ident Name} (hidp : dtDlibGetSym lib name = some idp) {rdp : Difo Name}
    (hrdp : idp.difo = some rdp) :
    layoutRels lib layout (rp :: rest) st =
      (layout rdp name st).bind fun p => layoutRels lib layout rest
        { p.2 with id := update p.2.id name (BitVec.ofNat 32 p.1) } := by
  obtain ⟨rfl, idp', hidp', hkind, hfunc⟩ := callee_eq_some h
  obtain rfl : idp' = idp := some.inj (hidp'.symm.trans hidp)
  rw [layoutRels, hfunc]
  dsimp only
  rw [if_neg (by simp [hkind, href]), hrdp]
  dsimp only
  cases layout rdp rp.name st <;> rfl

end

variable (root) in
/-- The flags when some parts have been seen. -/
def Flags (seen : List (Part Name)) (ref : Name → Bool) : Prop :=
  ∀ name, ref name = true ↔ some name ∈ seen ∨ root.idp = some name

theorem Flags.enter {ref : Name → Bool} (h : Flags root seen ref) (name : Name) :
    Flags root (seen ++ [some name]) (setRef ref (some name)) := by
  intro other
  show update ref name true other = true ↔ _
  rw [mem_append, mem_singleton, some.injEq]
  by_cases hother : other = name
  · subst hother
    rw [update_self]
    exact iff_of_true rfl (.inl (.inr rfl))
  · rw [update_of_ne hother, h other]
    simp only [hother, or_false]

variable (lib root) in
/-- The flags and the counters after some parts have been seen. -/
structure LayoutInv (seen : List (Part Name)) (st : LayoutSt Name) : Prop where
  ref : Flags root seen st.ref
  pc : st.pc = total (len lib root) seen
  rc : st.rc = total (relen lib root) seen
  vc : st.vc = total (varlen lib root) seen

variable (lib root) in
/-- The identifiers of the functions that are new have been given their places. -/
def Noted (seen new : List (Part Name)) (st st' : LayoutSt Name) : Prop :=
  ∀ name, st'.id name = if some name ∈ new then
    BitVec.ofNat 32 (startOf (len lib root) (seen ++ new) (some name)) else st.id name

theorem Noted.trans {new1 new2 : List (Part Name)} {st' st'' : LayoutSt Name}
    (h1 : Noted lib root seen new1 st st') (h2 : Noted lib root (seen ++ new1) new2 st' st'') :
    Noted lib root seen (new1 ++ new2) st st'' := by
  intro name
  rw [h2 name, h1 name, ← append_assoc]
  by_cases hnew2 : some name ∈ new2
  · rw [if_pos hnew2, if_pos (mem_append_right new1 hnew2)]
  · rw [if_neg hnew2]
    by_cases hnew1 : some name ∈ new1
    · rw [if_pos hnew1, if_pos (mem_append_left new2 hnew1),
        startOf_append_of_mem (mem_append_right seen hnew1)]
    · rw [if_neg hnew1, if_neg fun h => (mem_append.mp h).elim hnew1 hnew2]

/-- A function is entered. -/
theorem LayoutInv.enter (h : LayoutInv lib root seen st) (name : Name) :
    LayoutInv lib root (seen ++ [some name])
      (st.enter (difoOf lib root (some name)) (some name)) where
  ref := h.ref.enter name
  pc := by rw [total_append, ← h.pc, total_cons]; rfl
  rc := by rw [total_append, ← h.rc]; rfl
  vc := by rw [total_append, ← h.vc]; rfl

theorem Defined.call (h : Defined lib root v) (hdeps : noDeps lib (identOf root v) = false)
    (hrp : rp ∈ (difoOf lib root v).breltab) (hcallee : callee lib rp = some name)
    (hroot : root.idp ≠ some name) :
    Defined lib root (some name) ∧ ∃ idp, dtDlibGetSym lib name = some idp ∧
      idp.difo = some (difoOf lib root (some name)) := by
  constructor
  · exact fun u hu => h u (.head (mem_succ_of_callee hdeps hrp hcallee hroot) hu)
  · obtain ⟨idp, hidp, hsome⟩ := h v .refl hdeps rp hrp name hcallee
    obtain ⟨_, hrdp⟩ := isSome_iff_exists.mp hsome
    refine ⟨idp, hidp, ?_⟩
    rw [difoOf, hidp, bind_some, hrdp, getD_some]

/-- What the layout of a function comes to, when it is at depth `fuel`. -/
def LayoutSpec (lib : Dlib Name) (root : Root Name) (fuel : Nat) : Prop :=
  ∀ {seen seen' : List (Part Name)} {name : Name} {st : LayoutSt Name},
    LayoutInv lib root seen st → Defined lib root (some name) →
    visit (succ lib root) fuel seen (some name) = some seen' →
    ∃ new st', seen' = seen ++ some name :: new ∧
      dtLinkLayout lib fuel (difoOf lib root (some name)) (some name) st = some (st.pc, st') ∧
      LayoutInv lib root seen' st' ∧ Noted lib root (seen ++ [some name]) new st st'

/-- The loop over the relocation records visits what they are for. -/
theorem layoutRels_spec {fuel : Nat} (hspec : LayoutSpec lib root fuel)
    (hdef : Defined lib root v) (hdeps : noDeps lib (identOf root v) = false)
    {rels : List (Reloc Name)} (hrels : ∀ rp ∈ rels, rp ∈ (difoOf lib root v).breltab)
    {seen' : List (Part Name)} (hinv : LayoutInv lib root seen st)
    (hvisit : visitList (visit (succ lib root) fuel) (rels.filterMap (edge lib root)) seen =
      some seen') :
    ∃ new st', seen' = seen ++ new ∧
      layoutRels lib (fun rdp name => dtLinkLayout lib fuel rdp (some name)) rels st = some st' ∧
      LayoutInv lib root seen' st' ∧ Noted lib root seen new st st' := by
  induction rels generalizing seen st with
  | nil =>
    obtain rfl := some.inj hvisit
    refine ⟨[], st, (append_nil _).symm, rfl, hinv, fun name => ?_⟩
    rw [if_neg not_mem_nil]
  | cons rp rels ih =>
    have hrels' : ∀ rp ∈ rels, rp ∈ (difoOf lib root v).breltab := fun rp' h =>
      hrels rp' (mem_cons_of_mem rp h)
    cases hcallee : callee lib rp with
    | none =>
      rw [filterMap_cons_none (edge_of_no_callee hcallee)] at hvisit
      rw [layoutRels_of_no_callee hcallee]
      exact ih hrels' hinv hvisit
    | some name =>
      by_cases hroot : root.idp = some name
      · -- the flag of the program is set all the time
        rw [filterMap_cons_none (edge_of_root hcallee hroot)] at hvisit
        rw [layoutRels_of_ref hcallee ((hinv.ref name).mpr (.inr hroot))]
        exact ih hrels' hinv hvisit
      rw [filterMap_cons_some (edge_of_callee hcallee hroot), visitList] at hvisit
      split at hvisit
      · next hseen =>
        rw [layoutRels_of_ref hcallee ((hinv.ref name).mpr (.inl hseen))]
        exact ih hrels' hinv hvisit
      · next hseen =>
        have href : st.ref name = false := by
          rw [← Bool.not_eq_true, hinv.ref name]
          exact fun h => h.elim hseen hroot
        obtain ⟨hdef', _, hidp, hdifo⟩ := hdef.call hdeps (hrels rp mem_cons_self) hcallee hroot
        obtain ⟨_, hmid, hrest⟩ := bind_eq_some_iff.mp hvisit
        obtain ⟨new1, st1, rfl, hlayout, hinv1, hnoted1⟩ := hspec hinv hdef' hmid
        rw [layoutRels_of_call hcallee href hidp hdifo, hlayout]
        -- the place of the function is noted when its own calls have been laid out
        have hplace : st.pc = startOf (len lib root) (seen ++ some name :: new1) (some name) := by
          rw [startOf_append_self hseen, hinv.pc]
        have hnoted : Noted lib root seen (some name :: new1) st
            { st1 with id := update st1.id name (BitVec.ofNat 32 st.pc) } := by
          intro other
          dsimp only
          by_cases hother : other = name
          · subst hother
            rw [update_self, if_pos mem_cons_self, ← hplace]
          · rw [update_of_ne hother, hnoted1 other, append_assoc]
            simp only [mem_cons, some.injEq, hother, false_or]
            rfl
        have hinv1' : LayoutInv lib root (seen ++ some name :: new1)
            { st1 with id := update st1.id name (BitVec.ofNat 32 st.pc) } :=
          ⟨hinv1.ref, hinv1.pc, hinv1.rc, hinv1.vc⟩
        obtain ⟨new2, st2, rfl, hrels2, hinv2, hnoted2⟩ := ih hrels' hinv1' hrest
        exact ⟨some name :: new1 ++ new2, st2, (append_assoc ..), hrels2, hinv2,
          hnoted.trans hnoted2⟩

/-- What follows when a part has been entered; `st` is the state before. -/
theorem layout_of_entered {fuel : Nat} (hspec : LayoutSpec lib root fuel)
    {seen' : List (Part Name)}
    (hinv : LayoutInv lib root (seen ++ [v]) (st.enter (difoOf lib root v) (identOf root v)))
    (hdef : Defined lib root v) (hvisit : visit (succ lib root) (fuel + 1) seen v = some seen') :
    ∃ new st', seen' = seen ++ v :: new ∧
      dtLinkLayout lib (fuel + 1) (difoOf lib root v) (identOf root v) st = some (st.pc, st') ∧
      LayoutInv lib root seen' st' ∧ Noted lib root (seen ++ [v]) new st st' := by
  rw [visit] at hvisit
  rw [dtLinkLayout]
  cases hdeps : noDeps lib (identOf root v) with
  | true =>
    -- nothing is followed from here
    have hsucc : succ lib root v = [] := if_pos hdeps
    rw [hsucc] at hvisit
    obtain rfl := some.inj hvisit
    refine ⟨[], _, rfl, rfl, hinv, fun other => ?_⟩
    rfl
  | false =>
    have hsucc : succ lib root v = (difoOf lib root v).breltab.filterMap (edge lib root) := by
      rw [succ, hdeps]
      rfl
    rw [hsucc] at hvisit
    obtain ⟨new, st', rfl, hrels, hinv', hnoted⟩ :=
      layoutRels_spec hspec hdef hdeps (fun _ h => h) hinv hvisit
    refine ⟨new, st', append_assoc .., ?_, hinv', hnoted⟩
    rw [if_neg Bool.false_ne_true, hrels, map_some]

/-- **The layout visits the functions in depth-first order.** -/
theorem layout_spec (fuel : Nat) : LayoutSpec lib root fuel := by
  induction fuel with
  | zero =>
    intro seen seen' name st _ _ hvisit
    cases hvisit
  | succ fuel ih =>
    intro seen seen' name st hinv hdef hvisit
    exact layout_of_entered ih (hinv.enter name) hdef hvisit

end DTrace.Link
