import DTrace.Lib.Search
import Mathlib.Algebra.Group.Nat.Defs

/-!
# Loading a BPF library — `get_symbols`

The global functions of a BPF object are sorted by offset, and so are the relocations of its
`.text` section. One pass over the relocations assigns each of them to a function; it moves on to
the next function when the relocation is behind the current one. A second pass makes a table for
each function from as many consecutive records as were assigned to it.

* **`assignLoop_spec`** — the first pass leaves what the list `assigned` says, the function that
  each relocation is assigned to.
* **`assigned_inside`** — a relocation inside a function goes to that function.
* **`assigned_eq_iff`** — when the pass moves on, it does not look whether the relocation is in
  front of the next function. So relocations go only to the functions they are in if and only if
  none of them lies in a gap between functions.
-/

namespace DTrace.Dlibs

open List Function

/-! ## The object -/

/-- `dt_bpf_func_t`, as read from the symbol table. A map has `id == -1`. -/
structure BpfFunc where
  name : String
  isMap : Bool
  offset : Nat
  size : Nat
  deriving DecidableEq, Repr

namespace BpfFunc

def soff (fp : BpfFunc) : Nat := fp.offset
def eoff (fp : BpfFunc) : Nat := fp.offset + fp.size

end BpfFunc

/-- `dt_bpf_reloc_t` -/
structure BpfReloc where
  sym : Nat
  type : Nat
  offset : Nat
  deriving DecidableEq, Repr

/-- A record of `dtdo_breltab`, with the string that its `dofr_name` refers to. -/
structure RelDesc where
  type : Nat
  offset : Nat
  name : String
  deriving DecidableEq, Repr

/-- An object: the symbols that `get_symbols` enters in its list (the others are `NULL`), the
relocations, and the words of `.text`. -/
structure BpfObject where
  syms : List (Option BpfFunc)
  rels : List BpfReloc
  text : Nat → BitVec 64
  textLen : Nat

inductive LoadError where
  | truncated (name : String)
  | nullDeref
  deriving DecidableEq, Repr

abbrev SymQsort := (Option BpfFunc → Option BpfFunc → Int) → List (Option BpfFunc) →
  List (Option BpfFunc)
abbrev RelQsort := (BpfReloc → BpfReloc → Int) → List BpfReloc → List BpfReloc

/-! ## Comparison functions -/

/-- A pointer that is moved to the front. -/
def notFunc : Option BpfFunc → Bool
  | none => true
  | some fp => fp.isMap

def symcmp (x y : Option BpfFunc) : Int :=
  if notFunc x then if notFunc y then 0 else -1
  else if notFunc y then 1
  else
    match x, y with
    | some x, some y => if x.offset > y.offset then 1 else if x.offset = y.offset then 0 else -1
    | _, _ => 0

def relcmp (x y : BpfReloc) : Int :=
  if x.offset > y.offset then 1 else if x.offset = y.offset then 0 else -1

/-! ## The functions -/

/-- The functions at the end of the sorted list, last one first. -/
def trailing (funcs : List (Option BpfFunc)) : List BpfFunc :=
  (funcs.reverse.takeWhile fun fp => !notFunc fp).filterMap id

/-- Sizes of zero are patched up, from the last function to the first; `next` is where the function
has to end. -/
def patchSizes (next : Nat) : List BpfFunc → List BpfFunc
  | [] => []
  | fp :: fps =>
    { fp with size := if fp.size = 0 then next - fp.offset else fp.size } ::
      patchSizes fp.offset fps

/-- A last instruction that is zero is cut off. -/
def trimPadding (text : Nat → BitVec 64) (fp : BpfFunc) : BpfFunc :=
  if text (fp.offset + fp.size - 8) = 0 then { fp with size := fp.size - 8 } else fp

/-! ## The first pass -/

/-- What the pass changes: the offsets of the records and, for each function, its first record and
the number of its records. -/
structure RelState where
  rels : List BpfReloc
  relocs : Nat → Option Nat
  brelen : Nat → Nat

section
variable (funcs : List BpfFunc)

/-- The loop that moves on to the next function; `none` is `goto done`. -/
def advance (offset : Nat) : List BpfFunc → Nat → Option Nat
  | [], _ => none
  | fp :: fps, fid => if offset ≥ fp.eoff then advance offset fps (fid + 1) else some fid

def soffAt (fid : Nat) : Nat := (funcs[fid]?.map BpfFunc.soff).getD 0

/-- `rp->offset -= soff`, with `uint64_t` offsets. -/
def relative (fid : Nat) (rp : BpfReloc) : BpfReloc :=
  { rp with offset := if soffAt funcs fid ≤ rp.offset then rp.offset - soffAt funcs fid
      else rp.offset + 2 ^ 64 - soffAt funcs fid }

/-- The record at `idx` goes to function `fid`. -/
def assignRel (idx fid : Nat) (rp : BpfReloc) (st : RelState) : RelState where
  rels := st.rels.set idx (relative funcs fid rp)
  relocs := Function.update st.relocs fid (some ((st.relocs fid).getD idx))
  brelen := Function.update st.brelen fid (st.brelen fid + 1)

/-- The loop over the records, `todo` of them from `idx` on. -/
def assignLoop : Nat → Nat → Nat → RelState → RelState
  | 0, _, _, st => st
  | todo + 1, idx, fid, st =>
    match st.rels[idx]? with
    | none => st
    | some rp =>
      if rp.offset < soffAt funcs fid then assignLoop todo (idx + 1) fid st
      else
        match advance rp.offset (funcs.drop fid) fid with
        | none => st
        | some fid => assignLoop todo (idx + 1) fid (assignRel funcs idx fid rp st)

/-- The table of a function, as the second pass makes it: `brelen` records from the first one on.
`none` is a relocation against a symbol that is not in the list. -/
def relTable (syms : List (Option BpfFunc)) (st : RelState) (fid : Nat) : Option (List RelDesc) :=
  ((st.rels.drop ((st.relocs fid).getD 0)).take (st.brelen fid)).mapM fun rp =>
    (syms[rp.sym]?.join).map fun sym => ⟨rp.type, rp.offset, sym.name⟩

end

/-! ## `get_symbols` -/

section
variable (qsort : SymQsort) (rqsort : RelQsort) (obj : BpfObject)

def patched : List BpfFunc := patchSizes obj.textLen (trailing (qsort symcmp obj.syms))

/-- The functions with their final sizes. -/
def functions : List BpfFunc := ((patched qsort obj).map (trimPadding obj.text)).reverse

/-- The name in the message `BPF ELF: %s is truncated`: the first symbol whose function does not
consist of whole instructions. Global symbols are known by their names. -/
def truncatedSym : Option String :=
  (obj.syms.filterMap fun fp => fp.map BpfFunc.name).find? fun name =>
    (patched qsort obj).any fun fp => fp.name = name ∧ fp.size % 8 ≠ 0

/-- The functions and the relocation table stored with each of them. -/
def getSymbols : Except LoadError (List (BpfFunc × List RelDesc)) :=
  match (qsort symcmp obj.syms).getLast?.join with
  | none => .ok []
  | some last =>
    match truncatedSym qsort obj with
    | some name => .error (.truncated name)
    | none =>
      -- a map in the last place is taken for a function, and has no DIFO
      if last.isMap then .error .nullDeref
      else
        let funcs := functions qsort obj
        let rels := rqsort relcmp obj.rels
        let st := assignLoop funcs rels.length 0 0 ⟨rels, fun _ => none, fun _ => 0⟩
        match funcs.zipIdx.mapM fun f => (relTable obj.syms st f.2).map (f.1, ·) with
        | none => .error .nullDeref
        | some tables => .ok tables

end

/-! ## What is right -/

def BpfFunc.Contains (fp : BpfFunc) (offset : Nat) : Prop := fp.soff ≤ offset ∧ offset < fp.eoff

instance (fp : BpfFunc) (offset : Nat) : Decidable (fp.Contains offset) :=
  inferInstanceAs (Decidable (_ ∧ _))

/-- The global functions of an object. -/
def globals (obj : BpfObject) : List BpfFunc :=
  (obj.syms.filterMap id).filter fun fp => !fp.isMap

/-- The records that belong to a function, for relocations that all refer to a symbol. -/
def ownRels (obj : BpfObject) (fp : BpfFunc) : List RelDesc :=
  (obj.rels.filter fun rp => decide (fp.Contains rp.offset)).filterMap fun rp =>
    (obj.syms[rp.sym]?.join).map fun sym => ⟨rp.type, rp.offset - fp.soff, sym.name⟩

/-- Every global function has a table, and its table has exactly its own relocations in ascending
order; only a function with a part of an instruction is refused. -/
def Right (obj : BpfObject) (patched : List BpfFunc) :
    Except LoadError (List (BpfFunc × List RelDesc)) → Prop
  | .error (.truncated name) => ∃ fp ∈ patched, fp.name = name ∧ fp.size % 8 ≠ 0
  | .error .nullDeref => False
  | .ok tables =>
    (tables.map fun t => (t.1.name, t.1.offset)).Perm
        ((globals obj).map fun fp => (fp.name, fp.offset)) ∧
      ∀ t ∈ tables, t.2.Perm (ownRels obj t.1) ∧ t.2.Pairwise fun x y => x.offset ≤ y.offset

/-- A relocation behind the start of the first function and in front of the end of the last one that
is in none. -/
def InGap (funcs : List BpfFunc) (offset : Nat) : Prop :=
  (∃ fp ∈ funcs, fp.soff ≤ offset) ∧ (∃ fp ∈ funcs, offset < fp.eoff) ∧
    ∀ fp ∈ funcs, ¬ fp.Contains offset

instance (funcs : List BpfFunc) (offset : Nat) : Decidable (InGap funcs offset) :=
  inferInstanceAs (Decidable (_ ∧ _ ∧ _))

/-- The functions are parts of `.text` that have nothing in common, and the relocations refer to
symbols of the list. -/
structure BpfObject.Wf (obj : BpfObject) (qsort : SymQsort) : Prop where
  nonempty : ∀ fp ∈ patched qsort obj, 0 < fp.size
  disjoint : (patched qsort obj).Pairwise fun f g => f.eoff ≤ g.soff ∨ g.eoff ≤ f.soff
  named : ∀ rp ∈ obj.rels, (obj.syms[rp.sym]?.join).isSome

/-! ## The first pass as a list -/

section
variable (funcs : List BpfFunc)

/-- The function that each relocation is assigned to. -/
def assigned : List BpfReloc → Nat → List (Option Nat)
  | [], _ => []
  | rp :: rps, fid =>
    if rp.offset < soffAt funcs fid then none :: assigned rps fid
    else
      match advance rp.offset (funcs.drop fid) fid with
      | none => none :: rps.map fun _ => none
      | some fid => some fid :: assigned rps fid

def adjust (rp : BpfReloc) (a : Option Nat) : BpfReloc :=
  (a.map fun fid => relative funcs fid rp).getD rp

end

section
variable {funcs : List BpfFunc}

theorem length_assigned (rps : List BpfReloc) (fid : Nat) :
    (assigned funcs rps fid).length = rps.length := by
  induction rps generalizing fid with
  | nil => rfl
  | cons rp rps ih =>
    rw [assigned]
    split
    · simp [ih]
    · split
      · simp
      · simp [ih]

theorem zipWith_adjust_none (rps : List BpfReloc) :
    List.zipWith (adjust funcs) rps (rps.map fun _ => none) = rps := by
  induction rps with
  | nil => rfl
  | cons rp rps ih => simpa [adjust] using ih

/-- What the pass leaves in the records and for the functions. -/
theorem assignLoop_spec (done rps : List BpfReloc) (fid : Nat) (st : RelState)
    (h : st.rels = done ++ rps) :
    let st' := assignLoop funcs rps.length done.length fid st
    st'.rels = done ++ List.zipWith (adjust funcs) rps (assigned funcs rps fid) ∧
      (∀ j, st'.brelen j = st.brelen j + (assigned funcs rps fid).countP (· = some j)) ∧
      ∀ j, st'.relocs j = (st.relocs j).or
        (((assigned funcs rps fid).findIdx? (· = some j)).map (· + done.length)) := by
  induction rps generalizing done fid st with
  | nil => simp [assignLoop, assigned, h]
  | cons rp rps ih =>
    have hget : st.rels[done.length]? = some rp := by simp [h]
    rw [length_cons, assignLoop, hget, assigned]
    dsimp only
    split
    · -- the record is skipped
      have hnext := ih (done ++ [rp]) fid st (by simp [h])
      rw [length_append, length_singleton] at hnext
      refine ⟨?_, fun j => ?_, fun j => ?_⟩
      · rw [hnext.1]
        simp [adjust]
      · rw [hnext.2.1 j]
        simp
      · rw [hnext.2.2 j, findIdx?_cons]
        simp [comp_def, Nat.add_comm, Nat.add_left_comm]
    · cases hadv : advance rp.offset (funcs.drop fid) fid with
      | none =>
        refine ⟨?_, fun j => ?_, fun j => ?_⟩
        · rw [h, zipWith_cons_cons, zipWith_adjust_none]
          rfl
        · simp [countP_eq_zero]
        · simp [findIdx?_cons]
      | some fid' =>
        have hrels : (assignRel funcs done.length fid' rp st).rels =
            (done ++ [relative funcs fid' rp]) ++ rps := by
          simp [assignRel, h]
        have hnext := ih (done ++ [relative funcs fid' rp]) fid' _ hrels
        rw [length_append, length_singleton] at hnext
        refine ⟨?_, fun j => ?_, fun j => ?_⟩
        · rw [hnext.1]
          simp [adjust]
        · rw [hnext.2.1 j]
          by_cases hj : j = fid'
          · subst hj
            simp [assignRel]
            omega
          · simp [assignRel, update_of_ne hj, Ne.symm hj]
        · rw [hnext.2.2 j, findIdx?_cons]
          by_cases hj : j = fid'
          · subst hj
            cases hfirst : st.relocs j <;> simp [assignRel, hfirst]
          · simp [assignRel, update_of_ne hj, Ne.symm hj, comp_def, Nat.add_comm, Nat.add_left_comm]

/-! ## Where relocations go -/

theorem advance_eq (offset : Nat) (fps : List BpfFunc) (fid : Nat) : advance offset fps fid =
    (fps.findIdx? fun fp => decide (offset < fp.eoff)).map (· + fid) := by
  induction fps generalizing fid with
  | nil => rfl
  | cons fp fps ih =>
    rw [advance, findIdx?_cons]
    by_cases h : offset < fp.eoff
    · simp [h]
    · rw [ih]
      simp [h, comp_def, Nat.add_comm, Nat.add_left_comm]

variable {fid j i : Nat} {rp : BpfReloc} {rps : List BpfReloc}

theorem advance_some {offset : Nat} (h : advance offset (funcs.drop fid) fid = some j) :
    fid ≤ j ∧ (∃ fp, funcs[j]? = some fp ∧ offset < fp.eoff) ∧
      ∀ i fp, fid ≤ i → i < j → funcs[i]? = some fp → fp.eoff ≤ offset := by
  rw [advance_eq] at h
  obtain ⟨k, hk, rfl⟩ := Option.map_eq_some_iff.mp h
  obtain ⟨hlt, hp, hbefore⟩ := List.findIdx?_eq_some_iff_getElem.mp hk
  refine ⟨by omega, ⟨(funcs.drop fid)[k], ?_, by simpa using hp⟩, fun i fp hi hij hget => ?_⟩
  · rw [Nat.add_comm k fid, ← getElem?_drop]
    exact List.getElem?_eq_getElem hlt
  · have hb := hbefore (i - fid) (by omega)
    obtain ⟨-, rfl⟩ := List.getElem?_eq_some_iff.mp hget
    simpa [show fid + (i - fid) = i by omega] using hb

theorem advance_none {offset : Nat} (h : advance offset (funcs.drop fid) fid = none)
    {fp : BpfFunc} (hi : fid ≤ i) (hget : funcs[i]? = some fp) : fp.eoff ≤ offset := by
  rw [advance_eq, Option.map_eq_none_iff, findIdx?_eq_none_iff] at h
  have hmem : fp ∈ funcs.drop fid := by
    rw [mem_iff_getElem?]
    exact ⟨i - fid, by rw [getElem?_drop, show fid + (i - fid) = i by omega, hget]⟩
  simpa using h fp hmem

/-- The functions as the pass finds them. -/
def Ordered (funcs : List BpfFunc) : Prop := funcs.Pairwise fun f g => f.eoff ≤ g.soff

theorem Ordered.eoff_le (h : Ordered funcs) (hij : i < j) {f g : BpfFunc}
    (hi : funcs[i]? = some f) (hj : funcs[j]? = some g) : f.eoff ≤ g.soff := by
  obtain ⟨hi', rfl⟩ := List.getElem?_eq_some_iff.mp hi
  obtain ⟨hj', rfl⟩ := List.getElem?_eq_some_iff.mp hj
  exact pairwise_iff_getElem.mp h i j hi' hj' hij

theorem soffAt_eq {fp : BpfFunc} (h : funcs[fid]? = some fp) : soffAt funcs fid = fp.soff := by
  simp [soffAt, h]

theorem Ordered.soff_le (h : Ordered funcs) (hij : i ≤ j) {f g : BpfFunc}
    (hi : funcs[i]? = some f) (hj : funcs[j]? = some g) : f.soff ≤ g.soff := by
  rcases Nat.lt_or_eq_of_le hij with hlt | rfl
  · have := h.eoff_le hlt hi hj
    exact Nat.le_trans (Nat.le_add_right _ _) this
  · rw [hi] at hj
    rw [Option.some.inj hj]

def SortedRels (rps : List BpfReloc) : Prop := rps.Pairwise fun x y => x.offset ≤ y.offset

/-- The function that a relocation is in. -/
def inside (funcs : List BpfFunc) (rp : BpfReloc) : Option Nat :=
  funcs.findIdx? fun fp => decide (fp.Contains rp.offset)

theorem inside_eq_some (h : Ordered funcs) :
    inside funcs rp = some i ↔ ∃ fp, funcs[i]? = some fp ∧ fp.Contains rp.offset := by
  unfold inside
  rw [findIdx?_eq_some_iff_getElem]
  constructor
  · rintro ⟨hi, hp, -⟩
    exact ⟨_, List.getElem?_eq_getElem hi, of_decide_eq_true hp⟩
  · rintro ⟨fp, hget, hin⟩
    obtain ⟨hi, rfl⟩ := List.getElem?_eq_some_iff.mp hget
    refine ⟨hi, decide_eq_true hin, fun k hk => ?_⟩
    have hle := h.eoff_le hk (getElem?_eq_getElem (by omega)) hget
    have hstart := hin.1
    exact fun hc => absurd (of_decide_eq_true hc).2 (by omega)

/-- Every function before `fid` ends at or before what is still to do. -/
def Passed (funcs : List BpfFunc) (fid : Nat) (rps : List BpfReloc) : Prop :=
  ∀ rp ∈ rps, ∀ i fp, i < fid → funcs[i]? = some fp → fp.eoff ≤ rp.offset

theorem Passed.inside_ge (h : Passed funcs fid rps) (hord : Ordered funcs) (hmem : rp ∈ rps)
    (hi : inside funcs rp = some i) : fid ≤ i := by
  obtain ⟨fp, hget, hin⟩ := (inside_eq_some hord).mp hi
  by_contra hlt
  have := h rp hmem i fp (by omega) hget
  exact absurd hin.2 (by omega)

theorem Passed.advance (h : Passed funcs fid (rp :: rps)) (hs : SortedRels (rp :: rps))
    (hadv : Dlibs.advance rp.offset (funcs.drop fid) fid = some j) : Passed funcs j rps := by
  intro rp' hmem i fp hi hget
  have hle : rp.offset ≤ rp'.offset := rel_of_pairwise_cons hs hmem
  have hend : fp.eoff ≤ rp.offset := by
    by_cases hlt : i < fid
    · exact h rp mem_cons_self i fp hlt hget
    · exact (advance_some hadv).2.2 i fp (by omega) hi hget
  omega

theorem Passed.tail (h : Passed funcs fid (rp :: rps)) : Passed funcs fid rps :=
  fun rp' hmem => h rp' (mem_cons_of_mem _ hmem)

section

variable (hord : Ordered funcs)

include hord

/-- A relocation in front of the current function is in no function. -/
theorem inside_of_lt_soff (hp : Passed funcs fid rps) (hmem : rp ∈ rps)
    (hfid : fid < funcs.length) (hlt : rp.offset < soffAt funcs fid) : inside funcs rp = none := by
  cases hin : inside funcs rp with
  | none => rfl
  | some i =>
    have hge := hp.inside_ge hord hmem hin
    obtain ⟨_, hget, hc⟩ := (inside_eq_some hord).mp hin
    rw [soffAt_eq (getElem?_eq_getElem hfid)] at hlt
    have := hord.soff_le hge (getElem?_eq_getElem hfid) hget
    exact absurd hc.1 (by omega)

/-- When the pass runs out of functions, nothing that is left is in a function. -/
theorem inside_of_advance_none (hp : Passed funcs fid (rp :: rps))
    (hs : SortedRels (rp :: rps)) (hadv : advance rp.offset (funcs.drop fid) fid = none)
    {rp' : BpfReloc} (hmem : rp' ∈ rp :: rps) : inside funcs rp' = none := by
  have hle : rp.offset ≤ rp'.offset := by
    rcases mem_cons.mp hmem with rfl | hmem
    · exact le_rfl
    · exact rel_of_pairwise_cons hs hmem
  cases hin : inside funcs rp' with
  | none => rfl
  | some i =>
    obtain ⟨_, hget, hc⟩ := (inside_eq_some hord).mp hin
    have hend := advance_none hadv (hp.inside_ge hord hmem hin) hget
    exact absurd hc.2 (by omega)

/-- The function that the pass stops at is the one that the relocation is in, if there is one. -/
theorem advance_inside (hp : Passed funcs fid (rp :: rps))
    (hadv : advance rp.offset (funcs.drop fid) fid = some j) (hin : inside funcs rp = some i) :
    i = j := by
  obtain ⟨-, ⟨_, hj, _⟩, hbefore⟩ := advance_some hadv
  obtain ⟨fp, hget, hc⟩ := (inside_eq_some hord).mp hin
  have hge := hp.inside_ge hord mem_cons_self hin
  rcases Nat.lt_trichotomy i j with h | h | h
  · have := hbefore i fp hge h hget
    exact absurd hc.2 (by omega)
  · exact h
  · have := hord.eoff_le h hj hget
    exact absurd hc.1 (by omega)

section

variable (hs : SortedRels rps)

include hs

/-- **A relocation inside a function goes to that function.** -/
theorem assigned_inside (hfid : fid < funcs.length)
    (hp : Passed funcs fid rps) :
    List.Forall₂ (fun a b => b ≠ none → a = b) (assigned funcs rps fid)
      (rps.map (inside funcs)) := by
  induction rps generalizing fid with
  | nil => exact .nil
  | cons rp rps ih =>
    rw [assigned]
    split
    case isTrue hlt =>
      have hnone := inside_of_lt_soff hord hp mem_cons_self hfid hlt
      exact .cons (fun h => absurd hnone h) (ih hs.of_cons hfid hp.tail)
    case isFalse =>
      cases hadv : advance rp.offset (funcs.drop fid) fid with
      | none =>
        have hnone : ∀ rp' ∈ rp :: rps, inside funcs rp' = none :=
          fun _ => inside_of_advance_none hord hp hs hadv
        refine .cons (fun h => absurd (hnone rp mem_cons_self) h) ?_
        rw [forall₂_map_left_iff, forall₂_map_right_iff, forall₂_same]
        exact fun rp' hmem h => absurd (hnone rp' (mem_cons_of_mem _ hmem)) h
      | some j =>
        obtain ⟨-, ⟨_, hj, -⟩, -⟩ := advance_some hadv
        refine .cons (fun h => ?_)
          (ih hs.of_cons (List.getElem?_eq_some_iff.mp hj).1 (hp.advance hs hadv))
        obtain ⟨i, hi⟩ := Option.ne_none_iff_exists'.mp h
        rw [hi, advance_inside hord hp hadv hi]

/-- Without gaps, a relocation goes nowhere else. -/
theorem assigned_eq_of_no_gap
    (hgap : ∀ rp ∈ rps, ¬ InGap funcs rp.offset) (hfid : fid < funcs.length)
    (hp : Passed funcs fid rps) : assigned funcs rps fid = rps.map (inside funcs) := by
  induction rps generalizing fid with
  | nil => rfl
  | cons rp rps ih =>
    have hgap' : ∀ rp ∈ rps, ¬ InGap funcs rp.offset :=
      fun rp' hmem => hgap rp' (mem_cons_of_mem _ hmem)
    rw [assigned, map_cons]
    split
    case isTrue hlt =>
      rw [inside_of_lt_soff hord hp mem_cons_self hfid hlt, ih hs.of_cons hgap' hfid hp.tail]
    case isFalse hge =>
      cases hadv : advance rp.offset (funcs.drop fid) fid with
      | none =>
        have hnone : ∀ rp' ∈ rp :: rps, inside funcs rp' = none :=
          fun _ => inside_of_advance_none hord hp hs hadv
        dsimp only
        rw [hnone rp mem_cons_self]
        congr 1
        exact map_congr_left fun rp' hmem => (hnone rp' (mem_cons_of_mem _ hmem)).symm
      | some j =>
        obtain ⟨-, ⟨fj, hj, hlt⟩, -⟩ := advance_some hadv
        -- the relocation is between `fid` and `j`, so it is in some function
        have hsome : inside funcs rp ≠ none := by
          intro hnone
          rw [soffAt_eq (getElem?_eq_getElem hfid)] at hge
          apply hgap rp mem_cons_self
          refine ⟨⟨_, getElem_mem hfid, by omega⟩, ⟨fj, mem_of_getElem? hj, hlt⟩, ?_⟩
          intro fp hmem
          simpa using List.findIdx?_eq_none_iff.mp hnone fp hmem
        obtain ⟨i, hi⟩ := Option.ne_none_iff_exists'.mp hsome
        dsimp only
        rw [hi, advance_inside hord hp hadv hi,
          ih hs.of_cons hgap' (List.getElem?_eq_some_iff.mp hj).1 (hp.advance hs hadv)]

/-- If relocations go only to the functions they are in, there is none in a gap. The current
function is the first one, or a relocation in it has been seen. -/
theorem no_gap_of_assigned_eq
    (hfid : fid < funcs.length) (hp : Passed funcs fid rps)
    (hstart : fid = 0 ∨ ∀ rp ∈ rps, soffAt funcs fid ≤ rp.offset)
    (h : assigned funcs rps fid = rps.map (inside funcs)) :
    ∀ rp ∈ rps, ¬ InGap funcs rp.offset := by
  induction rps generalizing fid with
  | nil => exact fun rp hmem => absurd hmem (not_mem_nil)
  | cons rp rps ih =>
    rw [assigned] at h
    split at h
    case isTrue hlt =>
      have hzero : fid = 0 := hstart.resolve_right fun hall =>
        absurd (hall rp mem_cons_self) (Nat.not_le.mpr hlt)
      subst hzero
      obtain ⟨-, htail⟩ := List.cons.inj h
      have hrest := ih hs.of_cons hfid hp.tail (.inl rfl) htail
      rintro rp' hmem hgap
      rcases mem_cons.mp hmem with rfl | hmem
      · -- it is in front of the first function
        obtain ⟨⟨fp, hfp, hle⟩, -⟩ := hgap
        obtain ⟨i, hi⟩ := mem_iff_getElem?.mp hfp
        rw [soffAt_eq (getElem?_eq_getElem hfid)] at hlt
        have := hord.soff_le (Nat.zero_le i) (getElem?_eq_getElem hfid) hi
        omega
      · exact hrest rp' hmem hgap
    case isFalse hge =>
      cases hadv : advance rp.offset (funcs.drop fid) fid with
      | none =>
        -- what is left is behind the last function
        rintro rp' hmem ⟨-, ⟨fp, hfp, hlt⟩, -⟩
        obtain ⟨i, hi⟩ := mem_iff_getElem?.mp hfp
        have hle : rp.offset ≤ rp'.offset := by
          rcases mem_cons.mp hmem with rfl | hmem
          · exact le_rfl
          · exact rel_of_pairwise_cons hs hmem
        have hend : fp.eoff ≤ rp.offset := by
          by_cases hifid : i < fid
          · exact hp rp mem_cons_self i fp hifid hi
          · exact advance_none hadv (by omega) hi
        omega
      | some j =>
        rw [hadv] at h
        obtain ⟨hhead, htail⟩ := List.cons.inj h
        obtain ⟨fj, hj, hc⟩ := (inside_eq_some hord).mp hhead.symm
        have hjlt := (List.getElem?_eq_some_iff.mp hj).1
        have hseen : ∀ rp' ∈ rps, soffAt funcs j ≤ rp'.offset := by
          intro rp' hmem
          rw [soffAt_eq hj]
          exact Nat.le_trans hc.1 (rel_of_pairwise_cons hs hmem)
        have hrest := ih hs.of_cons hjlt (hp.advance hs hadv) (.inr hseen) htail
        exact forall_mem_cons.mpr ⟨fun hgap => hgap.2.2 fj (mem_of_getElem? hj) hc, hrest⟩

/-- **Relocations go to the functions they are in if and only if there is none in a gap.** -/
theorem assigned_eq_iff (hne : funcs ≠ []) :
    assigned funcs rps 0 = rps.map (inside funcs) ↔
      ∀ rp ∈ rps, ¬ InGap funcs rp.offset := by
  have hlen := length_pos_iff.mpr hne
  have hp : Passed funcs 0 rps := fun _ _ i _ hi => absurd hi (Nat.not_lt_zero i)
  exact ⟨no_gap_of_assigned_eq hord hs hlen hp (.inl rfl),
    fun hgap => assigned_eq_of_no_gap hord hs hgap hlen hp⟩

end

end

end

end DTrace.Dlibs
