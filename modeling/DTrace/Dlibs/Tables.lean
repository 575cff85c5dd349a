import DTrace.Dlibs.GetSymbols

/-!
# The relocation tables of a BPF library

What `get_symbols` stores with the functions of an object. The sorted list of symbols ends with the
functions (`trailing_eq`), and their ranges follow one another (`ordered_functions`); relocations
that are assigned by these ranges stand together in the sorted list, so the second pass finds them
(`tableRels_eq`).

* **`getSymbols_right_iff`** — the tables are right if and only if no relocation between the start
  of the first function and the end of the last one lies in a gap. An object that has maps but no
  functions may follow a null pointer.
-/

namespace DTrace.Dlibs

open List Option

/-! ## The tables -/

section
variable {funcs : List BpfFunc} {syms : List (Option BpfFunc)} {rels : List BpfReloc}

theorem mapM_eq_some_filterMap {α β : Type} {f : α → Option β} {l : List α}
    (h : ∀ x ∈ l, (f x).isSome) : l.mapM f = some (l.filterMap f) := by
  induction l with
  | nil => rfl
  | cons x l ih =>
    obtain ⟨y, hy⟩ := isSome_iff_exists.mp (h x mem_cons_self)
    rw [mapM_cons, ih fun z hz => h z (mem_cons_of_mem _ hz), hy,
      filterMap_cons_some hy]
    rfl

/-- The records after the first pass, and the table of a function as a part of them. -/
def adjusted (funcs : List BpfFunc) (rels : List BpfReloc) : List BpfReloc :=
  List.zipWith (adjust funcs) rels (assigned funcs rels 0)

def tableRels (funcs : List BpfFunc) (rels : List BpfReloc) (j : Nat) : List BpfReloc :=
  ((adjusted funcs rels).drop (((assigned funcs rels 0).findIdx? (· = some j)).getD 0)).take
    ((assigned funcs rels 0).countP (· = some j))

theorem relTable_eq (j : Nat) :
    relTable syms (assignLoop funcs rels.length 0 0 ⟨rels, fun _ => none, fun _ => 0⟩) j =
      (tableRels funcs rels j).mapM fun rp =>
        (syms[rp.sym]?.join).map fun sym => ⟨rp.type, rp.offset, sym.name⟩ := by
  obtain ⟨hrels, hlen, hfirst⟩ := @assignLoop_spec funcs [] rels 0
    ⟨rels, fun _ => none, fun _ => 0⟩ rfl
  rw [length_nil] at hrels hlen hfirst
  unfold relTable tableRels adjusted
  rw [hrels, hlen, hfirst]
  simp

theorem sym_adjust (rp : BpfReloc) (a : Option Nat) : (adjust funcs rp a).sym = rp.sym := by
  cases a <;> rfl

/-- The records still refer to symbols of the list. -/
theorem named_of_mem_tableRels (h : ∀ rp ∈ rels, (syms[rp.sym]?.join).isSome) {j : Nat}
    {rp : BpfReloc} (hmem : rp ∈ tableRels funcs rels j) : (syms[rp.sym]?.join).isSome := by
  have hadj : rp ∈ adjusted funcs rels := mem_of_mem_drop (mem_of_mem_take hmem)
  obtain ⟨k, hk, rfl⟩ := getElem_of_mem hadj
  unfold adjusted at hk ⊢
  rw [getElem_zipWith, sym_adjust]
  exact h _ (getElem_mem _)

theorem assigned_lt {rps : List BpfReloc} {fid j : Nat} (h : some j ∈ assigned funcs rps fid) :
    j < funcs.length := by
  induction rps generalizing fid with
  | nil => exact absurd h not_mem_nil
  | cons rp rps ih =>
    rw [assigned] at h
    split at h
    · exact ih ((mem_cons.mp h).resolve_left (by simp))
    · split at h
      · simp at h
      · next hadv =>
        rcases List.mem_cons.mp h with heq | hmem
        · obtain ⟨-, ⟨_, hget, -⟩, -⟩ := advance_some hadv
          rw [some.inj heq]
          exact (List.getElem?_eq_some_iff.mp hget).1
        · exact ih hmem

/-- The records of a function, as `ownRels` has them. -/
theorem tableRels_eq (hord : Ordered funcs) (hs : SortedRels rels)
    (ha : assigned funcs rels 0 = rels.map (inside funcs)) {j : Nat} {fp : BpfFunc}
    (hj : funcs[j]? = some fp) : tableRels funcs rels j =
      (rels.filter fun rp => decide (fp.Contains rp.offset)).map fun rp =>
        { rp with offset := rp.offset - fp.soff } := by
  have hin : ∀ rp : BpfReloc, inside funcs rp = some j ↔ fp.Contains rp.offset := by
    intro rp
    rw [inside_eq_some hord, hj]
    simp
  have hzip : adjusted funcs rels = rels.map fun rp => adjust funcs rp (inside funcs rp) := by
    rw [adjusted, ha, zipWith_map_right, zipWith_self]
  have hfirst : (rels.map (inside funcs)).findIdx? (· = some j) =
      rels.findIdx? fun rp => decide (fp.Contains rp.offset) := by
    rw [findIdx?_map]
    simp only [Function.comp_def, hin]
  have hcount : (rels.map (inside funcs)).countP (· = some j) =
      rels.countP fun rp => decide (fp.Contains rp.offset) := by
    rw [countP_map]
    simp only [Function.comp_def, hin]
  have hinterval : ∀ rp : BpfReloc, decide (fp.Contains rp.offset) = true ↔
      fp.soff ≤ rp.offset ∧ rp.offset < fp.eoff := fun rp => decide_eq_true_iff
  rw [tableRels, hzip, ha, hfirst, hcount, ← map_drop, ← map_take,
    take_drop_eq_filter hs hinterval]
  refine map_congr_left fun rp hmem => ?_
  have hc : fp.Contains rp.offset := of_decide_eq_true (mem_filter.mp hmem).2
  rw [(hin rp).mpr hc]
  show relative funcs j rp = _
  rw [relative, soffAt_eq hj, if_pos hc.1]

theorem length_tableRels (j : Nat) :
    (tableRels funcs rels j).length = (assigned funcs rels 0).countP (· = some j) := by
  have hlen : (adjusted funcs rels).length = (assigned funcs rels 0).length := by
    rw [adjusted, length_zipWith, length_assigned, Nat.min_self]
  rw [tableRels, length_take, length_drop, hlen, ← length_drop]
  exact Nat.min_eq_left countP_le_length_drop_findIdx?

end

/-! ## The functions -/

section
variable {qsort : SymQsort} {obj : BpfObject}

theorem consistent_symcmp : Consistent symcmp := by
  refine Consistent.of_key (fun x => if notFunc x then 0 else (x.map (·.offset + 1)).getD 0)
    fun x y => ?_
  unfold symcmp
  cases x with
  | none => cases y with
    | none => decide
    | some y => by_cases hy : y.isMap <;> simp [notFunc, hy]
  | some x => cases y with
    | none => by_cases hx : x.isMap <;> simp [notFunc, hx]
    | some y =>
      by_cases hx : x.isMap
      · by_cases hy : y.isMap <;> simp [notFunc, hx, hy]
      · by_cases hy : y.isMap
        · simp [notFunc, hx, hy]
        · simp only [map_some, getD_some]
          split
          · omega
          · split <;> omega

theorem consistent_relcmp : Consistent relcmp := by
  refine Consistent.of_key BpfReloc.offset fun x y => ?_
  unfold relcmp
  split
  · omega
  · split <;> omega

/-- In the sorted list, functions come last. -/
theorem trailing_eq (hq : IsQsort qsort) : trailing (qsort symcmp obj.syms) =
    ((qsort symcmp obj.syms).reverse.filter fun fp => !notFunc fp).filterMap id := by
  unfold trailing
  rw [takeWhile_eq_filter]
  rw [pairwise_reverse]
  refine (hq.sorted symcmp consistent_symcmp obj.syms).imp fun {x y} hle hx => ?_
  by_contra hy
  simp only [Bool.not_eq_true'] at hx hy
  simp [symcmp, hx, hy] at hle

theorem trailing_perm (hq : IsQsort qsort) :
    (trailing (qsort symcmp obj.syms)).Perm (globals obj) := by
  have hperm : (qsort symcmp obj.syms).reverse.Perm obj.syms :=
    (reverse_perm _).trans (hq.perm symcmp obj.syms)
  have hglobals : globals obj = (obj.syms.filter fun fp => !notFunc fp).filterMap id := by
    unfold globals
    rw [filter_filterMap, filterMap_filter]
    refine filterMap_congr fun x _ => ?_
    cases x with
    | none => rfl
    | some fp => cases h : fp.isMap <;> simp [notFunc, h]
  rw [trailing_eq hq, hglobals]
  exact (hperm.filter _).filterMap _

theorem trailing_sorted (hq : IsQsort qsort) :
    (trailing (qsort symcmp obj.syms)).Pairwise fun g f => f.offset ≤ g.offset := by
  rw [trailing_eq hq, pairwise_filterMap, pairwise_filter, pairwise_reverse]
  refine (hq.sorted symcmp consistent_symcmp obj.syms).imp ?_
  rintro x y hle hy hx g rfl f rfl
  simp only [Bool.not_eq_true'] at hx
  simp only [symcmp, hx] at hle
  by_contra hlt
  rw [if_neg (by simp), if_pos (by omega)] at hle
  exact absurd hle (by decide)

/-- Patching sizes up keeps names and offsets. -/
theorem map_patchSizes {β : Type} (h : BpfFunc → β)
    (hh : ∀ fp size, h { fp with size := size } = h fp) (next : Nat) (fps : List BpfFunc) :
    (patchSizes next fps).map h = fps.map h := by
  induction fps generalizing next with
  | nil => rfl
  | cons fp fps ih => rw [patchSizes, map_cons, map_cons, hh, ih]

theorem trimPadding_size (text : Nat → BitVec 64) (fp : BpfFunc) :
    ∃ size ≤ fp.size, trimPadding text fp = { fp with size := size } := by
  unfold trimPadding
  split
  · exact ⟨fp.size - 8, Nat.sub_le _ _, rfl⟩
  · exact ⟨fp.size, le_rfl, rfl⟩

theorem ordered_functions (hq : IsQsort qsort) (hwf : obj.Wf qsort) :
    Ordered (functions qsort obj) := by
  have hsorted : (patched qsort obj).Pairwise fun g f => f.offset ≤ g.offset := by
    have h : ((trailing (qsort symcmp obj.syms)).map BpfFunc.offset).Pairwise fun m n => n ≤ m :=
      pairwise_map.mpr (trailing_sorted hq)
    rw [← map_patchSizes BpfFunc.offset (fun _ _ => rfl) obj.textLen, pairwise_map] at h
    exact h
  unfold Ordered functions
  rw [pairwise_reverse, pairwise_map]
  refine (hsorted.and hwf.disjoint).imp_of_mem fun {g f} hg _ h => ?_
  obtain ⟨n, _, hf⟩ := trimPadding_size obj.text f
  obtain ⟨m, -, hg'⟩ := trimPadding_size obj.text g
  have hpos := hwf.nonempty g hg
  rw [hf, hg']
  -- `g` starts behind `f` and is not empty, so it cannot be in front of it
  rcases h.2 with hlt | hlt
  · exact absurd hlt (by have := h.1; simp only [BpfFunc.eoff, BpfFunc.soff]; omega)
  · simp only [BpfFunc.eoff, BpfFunc.soff] at hlt ⊢
    omega

theorem map_functions_perm (hq : IsQsort qsort) :
    ((functions qsort obj).map fun fp => (fp.name, fp.offset)).Perm
      ((globals obj).map fun fp => (fp.name, fp.offset)) := by
  have htrim : (functions qsort obj).map (fun fp => (fp.name, fp.offset)) =
      ((patched qsort obj).map fun fp => (fp.name, fp.offset)).reverse := by
    unfold functions
    rw [map_reverse, List.map_map]
    congr 2
    funext fp
    obtain ⟨n, -, h⟩ := trimPadding_size obj.text fp
    simp [h]
  rw [htrim, patched, map_patchSizes _ fun _ _ => rfl]
  exact (reverse_perm _).trans ((trailing_perm hq).map _)

theorem truncatedSym_isSome (hq : IsQsort qsort) : (truncatedSym qsort obj).isSome ↔
    ∃ fp ∈ patched qsort obj, fp.size % 8 ≠ 0 := by
  unfold truncatedSym
  rw [find?_isSome]
  constructor
  · rintro ⟨_, -, hany⟩
    obtain ⟨fp, hmem, hp⟩ := any_eq_true.mp hany
    exact ⟨fp, hmem, (of_decide_eq_true hp).2⟩
  · rintro ⟨fp, hmem, hsize⟩
    refine ⟨fp.name, ?_, any_eq_true.mpr ⟨fp, hmem, decide_eq_true ⟨rfl, hsize⟩⟩⟩
    have hname : fp.name ∈ (trailing (qsort symcmp obj.syms)).map BpfFunc.name := by
      rw [← map_patchSizes BpfFunc.name (fun _ _ => rfl) obj.textLen]
      exact mem_map_of_mem hmem
    obtain ⟨fp', hmem', heq⟩ := mem_map.mp hname
    have hglob := (trailing_perm hq).mem_iff.mp hmem'
    obtain ⟨hsym, -⟩ := mem_filter.mp hglob
    obtain ⟨x, hx, hid⟩ := mem_filterMap.mp hsym
    refine mem_filterMap.mpr ⟨x, hx, ?_⟩
    rw [show x = some fp' from hid]
    exact congrArg some heq

theorem truncatedSym_some {name : String} (h : truncatedSym qsort obj = some name) :
    ∃ fp ∈ patched qsort obj, fp.name = name ∧ fp.size % 8 ≠ 0 := by
  have hany := find?_some h
  obtain ⟨fp, hmem, hfp⟩ := any_eq_true.mp hany
  exact ⟨fp, hmem, of_decide_eq_true hfp⟩

/-- There are functions if and only if the last entry is one. -/
theorem functions_ne_nil_iff : functions qsort obj ≠ [] ↔
    ∃ last, (qsort symcmp obj.syms).getLast?.join = some last ∧ last.isMap = false := by
  have hnil : functions qsort obj = [] ↔ trailing (qsort symcmp obj.syms) = [] := by
    unfold functions patched
    cases trailing (qsort symcmp obj.syms) <;> simp [patchSizes]
  rw [ne_eq, hnil, trailing, getLast?_eq_head?_reverse]
  cases (qsort symcmp obj.syms).reverse with
  | nil => simp
  | cons x xs =>
    cases x with
    | none => simp [notFunc]
    | some fp => cases h : fp.isMap <;> simp [notFunc, h]

end

/-! ## Loading -/

section
variable {qsort : SymQsort} {rqsort : RelQsort} {obj : BpfObject}

/-- The table stored with function `j`. -/
def tableOf (syms : List (Option BpfFunc)) (funcs : List BpfFunc) (rels : List BpfReloc) (j : Nat) :
    List RelDesc :=
  (tableRels funcs rels j).filterMap fun rp =>
    (syms[rp.sym]?.join).map fun sym => ⟨rp.type, rp.offset, sym.name⟩

theorem getSymbols_eq {last : BpfFunc} (hrq : IsQsort rqsort) (hwf : obj.Wf qsort)
    (hlast : (qsort symcmp obj.syms).getLast?.join = some last) (hfunc : last.isMap = false)
    (hwhole : truncatedSym qsort obj = none) : getSymbols qsort rqsort obj =
      .ok ((functions qsort obj).zipIdx.map fun f =>
        (f.1, tableOf obj.syms (functions qsort obj) (rqsort relcmp obj.rels) f.2)) := by
  have hnamed : ∀ rp ∈ rqsort relcmp obj.rels, (obj.syms[rp.sym]?.join).isSome :=
    fun rp hmem => hwf.named rp ((hrq.perm _ _).mem_iff.mp hmem)
  have htable : ∀ j, relTable obj.syms
      (assignLoop (functions qsort obj) (rqsort relcmp obj.rels).length 0 0
        ⟨rqsort relcmp obj.rels, fun _ => none, fun _ => 0⟩) j =
      some (tableOf obj.syms (functions qsort obj) (rqsort relcmp obj.rels) j) := by
    intro j
    rw [relTable_eq, mapM_eq_some_filterMap]
    · rfl
    · intro rp hmem
      rw [isSome_map]
      exact named_of_mem_tableRels hnamed hmem
  have htables : ((functions qsort obj).zipIdx.mapM fun f => (relTable obj.syms
      (assignLoop (functions qsort obj) (rqsort relcmp obj.rels).length 0 0
        ⟨rqsort relcmp obj.rels, fun _ => none, fun _ => 0⟩) f.2).map (f.1, ·)) =
      some ((functions qsort obj).zipIdx.map fun f =>
        (f.1, tableOf obj.syms (functions qsort obj) (rqsort relcmp obj.rels) f.2)) := by
    simp only [htable]
    exact mapM_pure
  unfold getSymbols
  rw [hlast, hwhole]
  dsimp only
  rw [if_neg (by simp [hfunc]), htables]

theorem sortedRels (hrq : IsQsort rqsort) : SortedRels (rqsort relcmp obj.rels) := by
  refine (hrq.sorted relcmp consistent_relcmp obj.rels).imp fun {x y} hle => ?_
  by_contra hlt
  rw [relcmp, if_pos (by omega)] at hle
  exact absurd hle (by decide)

variable {funcs : List BpfFunc}

/-- A table with exactly its own relocations. -/
theorem tableOf_right (hrq : IsQsort rqsort) (hord : Ordered funcs)
    (ha : assigned funcs (rqsort relcmp obj.rels) 0 = (rqsort relcmp obj.rels).map (inside funcs))
    {j : Nat} {fp : BpfFunc} (hj : funcs[j]? = some fp) :
    (tableOf obj.syms funcs (rqsort relcmp obj.rels) j).Perm (ownRels obj fp) ∧
      (tableOf obj.syms funcs (rqsort relcmp obj.rels) j).Pairwise
        fun x y => x.offset ≤ y.offset := by
  have hs : SortedRels (rqsort relcmp obj.rels) := sortedRels hrq
  unfold tableOf
  rw [tableRels_eq hord hs ha hj, filterMap_map]
  constructor
  · exact ((hrq.perm relcmp obj.rels).filter _).filterMap _
  · rw [pairwise_filterMap]
    refine (Pairwise.filter _ hs).imp ?_
    intro rp rp' hle x hx y hy
    obtain ⟨_, -, rfl⟩ := map_eq_some_iff.mp hx
    obtain ⟨_, -, rfl⟩ := map_eq_some_iff.mp hy
    show rp.offset - fp.soff ≤ rp'.offset - fp.soff
    omega

theorem length_tableOf (hrq : IsQsort rqsort) (hwf : obj.Wf qsort) (j : Nat) :
    (tableOf obj.syms funcs (rqsort relcmp obj.rels) j).length =
      (assigned funcs (rqsort relcmp obj.rels) 0).countP (· = some j) := by
  rw [tableOf, length_filterMap_eq_countP, ← length_tableRels, countP_eq_length]
  intro rp hmem
  rw [isSome_map]
  exact named_of_mem_tableRels
    (fun rp hmem => hwf.named rp ((hrq.perm _ _).mem_iff.mp hmem)) hmem

theorem length_ownRels (hrq : IsQsort rqsort) (hwf : obj.Wf qsort) (hord : Ordered funcs)
    {j : Nat} {fp : BpfFunc} (hj : funcs[j]? = some fp) :
    (ownRels obj fp).length =
      ((rqsort relcmp obj.rels).map (inside funcs)).countP (· = some j) := by
  have hin : ∀ rp : BpfReloc, inside funcs rp = some j ↔ fp.Contains rp.offset := by
    intro rp
    rw [inside_eq_some hord, hj]
    simp
  have hall : ((obj.rels.filter fun rp => decide (fp.Contains rp.offset)).countP fun rp =>
      ((obj.syms[rp.sym]?.join).map fun sym =>
        (⟨rp.type, rp.offset - fp.soff, sym.name⟩ : RelDesc)).isSome) =
      (obj.rels.filter fun rp => decide (fp.Contains rp.offset)).length := by
    rw [countP_eq_length]
    intro rp hmem
    rw [isSome_map]
    exact hwf.named rp (mem_of_mem_filter hmem)
  rw [ownRels, length_filterMap_eq_countP, hall, ← countP_eq_length_filter,
    countP_map, ((hrq.perm relcmp obj.rels).countP_eq _)]
  simp only [Function.comp_def, hin]

/-- Tables of the right lengths come from an assignment by ranges. -/
theorem assigned_eq_of_lengths (hrq : IsQsort rqsort) (hwf : obj.Wf qsort) (hord : Ordered funcs)
    (hne : funcs ≠ [])
    (h : ∀ j fp, funcs[j]? = some fp →
      (tableOf obj.syms funcs (rqsort relcmp obj.rels) j).length = (ownRels obj fp).length) :
    assigned funcs (rqsort relcmp obj.rels) 0 = (rqsort relcmp obj.rels).map (inside funcs) := by
  apply eq_of_countP_eq
  · exact assigned_inside hord (sortedRels hrq) (length_pos_iff.mpr hne)
      fun _ _ i _ hi => absurd hi (Nat.not_lt_zero i)
  · intro j hj
    have hget := getElem?_eq_getElem (assigned_lt hj)
    rw [← length_tableOf hrq hwf, h j _ hget, length_ownRels hrq hwf hord hget]

theorem right_tables_iff (hq : IsQsort qsort) (hrq : IsQsort rqsort) (hwf : obj.Wf qsort)
    (hne : functions qsort obj ≠ []) :
    Right obj (patched qsort obj) (.ok ((functions qsort obj).zipIdx.map fun f =>
      (f.1, tableOf obj.syms (functions qsort obj) (rqsort relcmp obj.rels) f.2))) ↔
      ∀ rp ∈ obj.rels, ¬ InGap (functions qsort obj) rp.offset := by
  have hord := ordered_functions hq hwf
  have hgap : (∀ rp ∈ obj.rels, ¬ InGap (functions qsort obj) rp.offset) ↔
      assigned (functions qsort obj) (rqsort relcmp obj.rels) 0 =
        (rqsort relcmp obj.rels).map (inside (functions qsort obj)) := by
    rw [assigned_eq_iff hord (sortedRels hrq) hne]
    simp only [(hrq.perm relcmp obj.rels).mem_iff]
  rw [hgap]
  constructor
  · rintro ⟨-, htables⟩
    apply assigned_eq_of_lengths hrq hwf hord hne
    intro j fp hj
    have hmem : (fp, j) ∈ (functions qsort obj).zipIdx :=
      List.mk_mem_zipIdx_iff_getElem?.mpr hj
    exact (htables _ (List.mem_map_of_mem hmem)).1.length_eq
  · intro ha
    refine ⟨?_, fun t ht => ?_⟩
    · rw [List.map_map, show (fun t : BpfFunc × List RelDesc => (t.1.name, t.1.offset)) ∘
        (fun f : BpfFunc × Nat =>
          (f.1, tableOf obj.syms (functions qsort obj) (rqsort relcmp obj.rels) f.2)) =
        (fun fp : BpfFunc => (fp.name, fp.offset)) ∘ Prod.fst from rfl, ← List.map_map,
        zipIdx_map_fst]
      exact map_functions_perm hq
    · obtain ⟨⟨fp, j⟩, hmem, rfl⟩ := mem_map.mp ht
      exact tableOf_right hrq hord ha (mk_mem_zipIdx_iff_getElem?.mp hmem)

/-- **Libraries are loaded with the right tables exactly if a function comes last (or nothing at
all), and, unless a function is refused, no relocation is in a gap.** -/
theorem getSymbols_right_iff (hq : IsQsort qsort) (hrq : IsQsort rqsort) (hwf : obj.Wf qsort) :
    Right obj (patched qsort obj) (getSymbols qsort rqsort obj) ↔
      (∀ last, (qsort symcmp obj.syms).getLast?.join = some last → last.isMap = false) ∧
        ((∃ fp ∈ patched qsort obj, fp.size % 8 ≠ 0) ∨
          ∀ rp ∈ obj.rels, ¬ InGap (functions qsort obj) rp.offset) := by
  cases hlast : (qsort symcmp obj.syms).getLast?.join with
  | none =>
    have hnil : functions qsort obj = [] := by
      by_contra hne
      obtain ⟨last, h, -⟩ := functions_ne_nil_iff.mp hne
      rw [hlast] at h
      cases h
    have hres : getSymbols qsort rqsort obj = .ok [] := by
      rw [getSymbols, hlast]
    have hperm : ([].map fun fp : BpfFunc => (fp.name, fp.offset)).Perm
        ((globals obj).map fun fp => (fp.name, fp.offset)) := hnil ▸ map_functions_perm hq
    rw [hres, hnil]
    refine iff_of_true ⟨hperm, nofun⟩ ⟨by simp, .inr ?_⟩
    rintro rp - ⟨⟨fp, hfp, -⟩, -⟩
    exact absurd hfp not_mem_nil
  | some last =>
    simp only [some.injEq, forall_eq']
    cases hmap : last.isMap with
    | true =>
      -- the map is taken for a function
      have hnil : functions qsort obj = [] := by
        by_contra hne
        obtain ⟨_, h, hfunc⟩ := functions_ne_nil_iff.mp hne
        rw [hlast] at h
        rw [← some.inj h, hmap] at hfunc
        cases hfunc
      have hwhole : truncatedSym qsort obj = none := by
        by_contra hsome
        obtain ⟨fp, hmem, -⟩ := (truncatedSym_isSome hq).mp (isSome_iff_ne_none.mpr hsome)
        rw [functions, reverse_eq_nil_iff, map_eq_nil_iff] at hnil
        rw [hnil] at hmem
        cases hmem
      have hres : getSymbols qsort rqsort obj = .error .nullDeref := by
        rw [getSymbols, hlast, hwhole]
        simp [hmap]
      rw [hres]
      exact iff_of_false id fun h => Bool.noConfusion h.1
    | false =>
      have hne : functions qsort obj ≠ [] := functions_ne_nil_iff.mpr ⟨last, hlast, hmap⟩
      cases htrunc : truncatedSym qsort obj with
      | some name =>
        have hres : getSymbols qsort rqsort obj = .error (.truncated name) := by
          rw [getSymbols, hlast, htrunc]
        have hpart : ∃ fp ∈ patched qsort obj, fp.size % 8 ≠ 0 :=
          (truncatedSym_isSome hq).mp (by rw [htrunc]; rfl)
        rw [hres]
        exact iff_of_true (truncatedSym_some htrunc) ⟨rfl, .inl hpart⟩
      | none =>
        have hwhole : ¬ ∃ fp ∈ patched qsort obj, fp.size % 8 ≠ 0 := by
          rw [← truncatedSym_isSome hq, htrunc]
          exact Bool.false_ne_true
        rw [getSymbols_eq hrq hwf hlast hmap htrunc, right_tables_iff hq hrq hwf hne]
        simp [hwhole]

end

/-! ## Two objects -/

def insertionQsort {α : Type} (cmp : α → α → Int) (xs : List α) : List α :=
  xs.insertionSort fun x y => cmp x y ≤ 0

/-- Two functions of two instructions each, at 0 and at `start`, and relocations. -/
def twoFunctions (start : Nat) (rels : List BpfReloc) : BpfObject where
  syms := [none, some ⟨"dt_set", false, start, 16⟩, some ⟨"dt_get", false, 0, 16⟩,
    some ⟨"state", true, 0, 8⟩]
  rels := rels
  text := fun _ => 1
  textLen := 64

theorem adjacent_functions_right :
    Right (twoFunctions 16 [⟨3, 10, 24⟩, ⟨3, 10, 8⟩])
      (patched insertionQsort (twoFunctions 16 [⟨3, 10, 24⟩, ⟨3, 10, 8⟩]))
      (getSymbols insertionQsort insertionQsort (twoFunctions 16 [⟨3, 10, 24⟩, ⟨3, 10, 8⟩])) := by
  refine (getSymbols_right_iff isQsort_insertionSort isQsort_insertionSort
    ⟨by decide, by decide, by decide⟩).mpr ⟨?_, .inr (by decide)⟩
  intro last hlast
  have hset : some (⟨"dt_set", false, 16, 16⟩) = some last := hlast
  rw [← some.inj hset]

/-- A local function stands between the two, and a relocation in it goes to the second one. -/
theorem gap_relocation_misplaced :
    (twoFunctions 32 [⟨3, 10, 24⟩]).Wf insertionQsort ∧
      getSymbols insertionQsort insertionQsort (twoFunctions 32 [⟨3, 10, 24⟩]) =
        .ok [(⟨"dt_get", false, 0, 16⟩, []),
          (⟨"dt_set", false, 32, 16⟩, [⟨10, 2 ^ 64 - 8, "state"⟩])] ∧
      ¬ Right (twoFunctions 32 [⟨3, 10, 24⟩])
        (patched insertionQsort (twoFunctions 32 [⟨3, 10, 24⟩]))
        (getSymbols insertionQsort insertionQsort (twoFunctions 32 [⟨3, 10, 24⟩])) := by
  have hres : getSymbols insertionQsort insertionQsort (twoFunctions 32 [⟨3, 10, 24⟩]) =
      .ok [(⟨"dt_get", false, 0, 16⟩, []),
        (⟨"dt_set", false, 32, 16⟩, [⟨10, 2 ^ 64 - 8, "state"⟩])] := by
    rfl
  refine ⟨⟨by decide, by decide, by decide⟩, hres, ?_⟩
  rintro ⟨-, htables⟩
  have hlen := (htables _ (mem_cons_of_mem _ mem_cons_self)).1.length_eq
  revert hlen
  decide

end DTrace.Dlibs
