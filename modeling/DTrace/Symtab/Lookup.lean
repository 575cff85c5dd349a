import Mathlib.Data.List.Lex
import Mathlib.Data.Prod.Lex
import DTrace.Lib.System
import DTrace.Symtab.Sweep

/-!
# Lookup by address

A table is filled, sorted and packed in any order, and may be filled and sorted again. Sorting
drops symbols that are hidden everywhere by others, so `TableOk` does not say that every symbol
has a range, but that for each address of a symbol there is a range of a symbol that is at least
as good (`Better`). `dtSymbolByAddr_spec` is what a lookup finds after the table is sorted.
-/

namespace DTrace.Symtab

open Option List

/-! ## The order of symbols -/

variable {rest : Int} {σ : Type*} {a : Nat} {t : Table}

/-- One step of a comparison. -/
theorem cmp_step {κ : Type*} [LinearOrder κ] {a b : κ} :
    (if a < b then -1 else if b < a then 1 else rest) ≤ 0 ↔ a < b ∨ a = b ∧ rest ≤ 0 := by
  rcases lt_trichotomy a b with h | h | h
  · simp [h]
  · simp [h]
  · simp [h, h.not_gt, h.ne']

theorem cmp_flag {a b : Bool} :
    (if a ≠ b then if a then 1 else -1 else rest) ≤ 0 ↔ a < b ∨ a = b ∧ rest ≤ 0 := by
  cases a <;> cases b <;> simp

theorem cmp_cleanup {a b : Bool} :
    (if !a ∧ b then -1 else if !b ∧ a then 1 else rest) ≤ 0 ↔ a < b ∨ a = b ∧ rest ≤ 0 := by
  cases a <;> cases b <;> simp

theorem strcmp_nonpos {s t : List Byte} : strcmp s t ≤ 0 ↔ s ≤ t := by
  rcases lt_trichotomy s t with h | h | h
  · simp [strcmp, h, h.le]
  · simp [strcmp, h]
  · simp [strcmp, h, h.not_gt]

/-- What symbols are sorted by, in this order. -/
def sortKey (sym : Symbol) : ℕ ×ₗ ℕᵒᵈ ×ₗ Bool ×ₗ Bool ×ₗ Bool ×ₗ List Byte :=
  toLex (sym.addr, toLex (OrderDual.toDual sym.size,
    toLex (sym.notype, toLex (sym.weak, toLex (sym.cleanup, sym.name)))))

theorem sortCmp_nonpos_iff (lhs rhs : Symbol) :
    dtSymrangeSortCmp lhs rhs ≤ 0 ↔ sortKey lhs ≤ sortKey rhs := by
  simp only [dtSymrangeSortCmp, cmp_step, cmp_flag, cmp_cleanup, strcmp_nonpos, sortKey,
    Prod.Lex.toLex_le_toLex, OrderDual.toDual_lt_toDual, OrderDual.toDual_inj]
  rw [eq_comm (a := rhs.size)]

theorem sortCmp_consistent (deref : σ → Symbol) :
    Consistent fun l r => dtSymrangeSortCmp (deref l) (deref r) :=
  .of_key (fun p => sortKey (deref p)) fun l r => sortCmp_nonpos_iff (deref l) (deref r)

theorem addr_le_of_sortCmp {lhs rhs : Symbol} (h : dtSymrangeSortCmp lhs rhs ≤ 0) :
    lhs.addr ≤ rhs.addr := by
  rw [dtSymrangeSortCmp] at h
  split at h
  · omega
  · split at h <;> omega

/-- `w` is as good as `s` or better: it starts higher, or is smaller, or comes first. -/
def Better (w s : Symbol) : Prop :=
  s.addr < w.addr ∨ s.addr = w.addr ∧
    (w.size < s.size ∨ w.size = s.size ∧ dtSymrangeSortCmp w s ≤ 0)

theorem Better.refl (s : Symbol) : Better s s :=
  .inr ⟨rfl, .inr ⟨rfl, (sortCmp_nonpos_iff s s).mpr le_rfl⟩⟩

theorem Better.trans {s1 s2 s3 : Symbol} (h1 : Better s1 s2) (h2 : Better s2 s3) :
    Better s1 s3 := by
  have hcmp : dtSymrangeSortCmp s1 s2 ≤ 0 → dtSymrangeSortCmp s2 s3 ≤ 0 →
      dtSymrangeSortCmp s1 s3 ≤ 0 := fun h h' => by
    rw [sortCmp_nonpos_iff] at h h' ⊢
    exact h.trans h'
  unfold Better at *
  omega

/-- The best symbol of a sorted list is as good as any in it. -/
theorem Best.better {deref : σ → Symbol} {syms : List σ} {w s : σ} (h : Best deref syms a w)
    (hsorted : syms.Pairwise fun l r => dtSymrangeSortCmp (deref l) (deref r) ≤ 0) (hs : s ∈ syms)
    (hc : (deref s).Covers a) : Better (deref w) (deref s) := by
  obtain ⟨_, _, rfl, _, hpre, hpost⟩ := h
  rcases mem_append.mp hs with hs | hs
  · exact (hpre s hs hc).imp_right fun h => ⟨h.1, .inl h.2⟩
  rcases mem_cons.mp hs with rfl | hs
  · exact .refl _
  · have hcmp := rel_of_pairwise_cons (pairwise_append.mp hsorted).2.1 hs
    have hup := hpost s hs hc
    unfold Symbol.Upto at hup
    unfold Better
    omega

/-! ## Tables over time -/

inductive Op
  | insert (sym : Symbol)
  | sort
  | pack

/-- A failed insertion leaves the table as it is. -/
def step (qsort : Qsort) (t : Table) : Op → Option Table
  | .insert sym => some ((t.dtSymbolInsert sym).getD t)
  | .sort => t.dtSymtabSort qsort false
  | .pack => t.dtSymtabPack qsort

def system (qsort : Qsort) : TransitionSystem Table Op := ⟨.create, step qsort⟩

def StepOk (_ : Table) : Op → Prop
  | .insert sym => sym.Fits
  | _ => True

/-- The ranges of a sorted table. -/
structure Tiled (t : Table) : Prop where
  disjoint : t.ranges.Pairwise fun r r' => r.hi ≤ r'.lo
  lt : ∀ r ∈ t.ranges, r.lo < r.hi
  best : ∀ r ∈ t.ranges, ∀ a, r.lo ≤ a → a < r.hi → (t.deref r.sym).Covers a ∧
    ∀ p < t.symbols.length, (t.deref p).Covers a → Better (t.deref r.sym) (t.deref p)
  complete : ∀ p < t.symbols.length, ∀ a, (t.deref p).Covers a →
    ∃ r ∈ t.ranges, r.lo ≤ a ∧ a < r.hi

structure TableOk (t : Table) : Prop where
  fits : ∀ sym ∈ t.symbols, sym.Fits
  ptr : ∀ r ∈ t.ranges, r.sym < t.symbols.length
  covered : ∀ p < t.symbols.length, ∀ a, (t.deref p).Covers a →
    ∃ r ∈ t.ranges, (t.deref r.sym).Covers a ∧ Better (t.deref r.sym) (t.deref p)
  tiled : t.sorted = true → Tiled t

/-- The symbols a table is sorted by, in their order. -/
def Table.order (qsort : Qsort) (t : Table) : List Nat :=
  qsort (fun l r => dtSymrangeSortCmp (t.deref l) (t.deref r)) (t.ranges.map (·.sym))

namespace TableOk

theorem create : TableOk .create := by
  constructor <;> simp [Table.create]

variable {t t' : Table} (h : TableOk t)
include h

theorem fits_deref {p : Nat} (hp : p < t.symbols.length) : (t.deref p).Fits := by
  rw [Table.deref, getD_eq_getElem _ _ hp]
  exact h.fits _ (getElem_mem hp)

theorem insert {sym : Symbol} (hfits : sym.Fits) (hins : t.dtSymbolInsert sym = some t') :
    TableOk t' := by
  unfold Table.dtSymbolInsert at hins
  split at hins
  · cases hins
  -- the symbols that were there have the same pointers
  have hold : ∀ p < t.symbols.length, t'.deref p = t.deref p := fun p hp => by
    rw [← some.inj hins, Table.deref, getD_append _ _ _ _ hp, Table.deref]
  have hnew : t'.deref t.symbols.length = sym := by
    rw [← some.inj hins]
    simp [Table.deref]
  have hranges : t'.ranges =
      if sym.size > 0 then t.ranges ++ [⟨0, 0, t.symbols.length⟩] else t.ranges := by
    rw [← some.inj hins]
  have hlen : t'.symbols.length = t.symbols.length + 1 := by
    rw [← some.inj hins]
    simp
  have hkeep : ∀ r ∈ t.ranges, r ∈ t'.ranges := fun r hr => by
    rw [hranges]
    split <;> simp [hr]
  refine ⟨fun s hs => ?_, fun r hr => ?_, fun p hp a hc => ?_, fun hsorted => ?_⟩
  · rw [← some.inj hins] at hs
    rcases mem_append.mp hs with hs | hs
    · exact h.fits s hs
    · exact mem_singleton.mp hs ▸ hfits
  · rw [hranges] at hr
    split at hr
    · rcases mem_append.mp hr with hr | hr
      · have := h.ptr r hr
        omega
      · rw [mem_singleton.mp hr]
        show t.symbols.length < _
        omega
    · have := h.ptr r hr
      omega
  · by_cases hpn : p = t.symbols.length
    · subst hpn
      rw [hnew] at hc
      have hsize : sym.size > 0 := by
        unfold Symbol.Covers at hc
        omega
      refine ⟨⟨0, 0, t.symbols.length⟩, by simp [hranges, hsize], ?_, ?_⟩
      · rwa [hnew]
      · rw [hnew]
        exact .refl sym
    · have hp' : p < t.symbols.length := by omega
      rw [hold p hp'] at hc ⊢
      obtain ⟨r, hr, _, _⟩ := h.covered p hp' a hc
      exact ⟨r, hkeep r hr, by rwa [hold _ (h.ptr r hr)], by rwa [hold _ (h.ptr r hr)]⟩
  · rw [← some.inj hins] at hsorted
    cases hsorted

variable {qsort : Qsort}

/-- **Sorting** forms the ranges, whose symbols are the best ones of the sorted list. -/
theorem sort_spec (hq : IsQsort qsort) (hsorted : t.sorted = false) :
    ∃ ranges, t.dtSymtabSort qsort false = some { t with ranges := ranges, sorted := true } ∧
      Formed t.deref (t.order qsort) ranges := by
  have hperm := hq.perm (fun l r => dtSymrangeSortCmp (t.deref l) (t.deref r)) (t.ranges.map (·.sym))
  have hpair := hq.sorted _ (sortCmp_consistent t.deref) (t.ranges.map (·.sym))
  have hfits : ∀ p ∈ t.order qsort, (t.deref p).Fits := fun p hp => by
    obtain ⟨r, hr, rfl⟩ := mem_map.mp (hperm.mem_iff.mp hp)
    exact h.fits_deref (h.ptr r hr)
  obtain ⟨ranges, hform, hformed⟩ :=
    dtSymtabFormRanges_spec hfits (hpair.imp fun hcmp => addr_le_of_sortCmp hcmp)
  refine ⟨ranges, ?_, hformed⟩
  rw [Table.dtSymtabSort, hsorted]
  exact (congrArg (Option.map _) hform)

theorem sort (hq : IsQsort qsort) (hsort : t.dtSymtabSort qsort false = some t') :
    TableOk t' ∧ t'.symbols = t.symbols := by
  by_cases hsorted : t.sorted = true
  · rw [Table.dtSymtabSort, if_pos hsorted] at hsort
    exact some.inj hsort ▸ ⟨h, rfl⟩
  obtain ⟨ranges, heq, hformed⟩ := h.sort_spec hq (by simpa using hsorted)
  obtain rfl := some.inj (heq.symm.trans hsort)
  have hperm := hq.perm (fun l r => dtSymrangeSortCmp (t.deref l) (t.deref r)) (t.ranges.map (·.sym))
  have hpair := hq.sorted _ (sortCmp_consistent t.deref) (t.ranges.map (·.sym))
  -- the best of the sorted list is as good as any symbol of the table
  have hbest : ∀ r ∈ ranges, ∀ a, r.lo ≤ a → a < r.hi → (t.deref r.sym).Covers a ∧
      ∀ p < t.symbols.length, (t.deref p).Covers a → Better (t.deref r.sym) (t.deref p) := by
    intro r hr a ha1 ha2
    have hb := (hformed.ok r hr).best a ha1 ha2
    refine ⟨hb.covers, fun p hp hc => ?_⟩
    obtain ⟨r', hr', hcr', hbetter⟩ := h.covered p hp a hc
    have hmem : r'.sym ∈ t.order qsort := hperm.mem_iff.mpr (mem_map_of_mem hr')
    exact (hb.better hpair hmem hcr').trans hbetter
  have hcomplete : ∀ p < t.symbols.length, ∀ a, (t.deref p).Covers a →
      ∃ r ∈ ranges, r.lo ≤ a ∧ a < r.hi := by
    intro p hp a hc
    obtain ⟨r', hr', hcr', _⟩ := h.covered p hp a hc
    exact hformed.complete _ (hperm.mem_iff.mpr (mem_map_of_mem hr')) a hcr'
  refine ⟨⟨h.fits, fun r hr => ?_, fun p hp a hc => ?_, fun _ => ?_⟩, rfl⟩
  · have hmem := ((hformed.ok r hr).best r.lo le_rfl (hformed.ok r hr).lt).mem
    obtain ⟨r', hr', heq⟩ := mem_map.mp (hperm.mem_iff.mp hmem)
    exact heq ▸ h.ptr r' hr'
  · obtain ⟨r, hr, ha1, ha2⟩ := hcomplete p hp a hc
    obtain ⟨hcr, hall⟩ := hbest r hr a ha1 ha2
    exact ⟨r, hr, hcr, hall p hp hc⟩
  · exact ⟨hformed.disjoint, fun r hr => (hformed.ok r hr).lt, hbest, hcomplete⟩

theorem step (hq : IsQsort qsort) {op : Op} (hok : StepOk t op)
    (hstep : Symtab.step qsort t op = some t') : TableOk t' := by
  cases op with
  | insert sym =>
    obtain rfl := some.inj hstep
    cases hins : t.dtSymbolInsert sym with
    | none => exact h
    | some t1 => exact h.insert hok hins
  | sort => exact (h.sort hq hstep).1
  | pack =>
    simp only [Symtab.step, Table.dtSymtabPack] at hstep
    split at hstep
    · exact some.inj hstep ▸ h
    · obtain ⟨t1, hsort, rfl⟩ := map_eq_some_iff.mp hstep
      have h1 := (h.sort hq hsort).1
      exact ⟨h1.fits, h1.ptr, h1.covered, fun hs =>
        have ht := h1.tiled hs
        ⟨ht.disjoint, ht.lt, ht.best, ht.complete⟩⟩

end TableOk

theorem tableOk_of_reach {qsort : Qsort} (hq : IsQsort qsort) (h : (system qsort).Reach StepOk t) :
    TableOk t :=
  h.invariant TableOk.create fun _ _ _ h hok hstep => h.step hq hok hstep

/-! ## The lookup -/

/-- Ranges that do not overlap: what is not behind one is before the next. -/
theorem searchCmp_split (h : Tiled t) (a : Nat) :
    t.ranges.Pairwise fun r r' => dtSymbolSearchCmp a r ≤ 0 → dtSymbolSearchCmp a r' < 0 := by
  refine (List.Pairwise.imp_of_mem ?_) h.disjoint
  intro r r' hr hr' hle hcmp
  have hlt := h.lt r hr
  have ha : a < r'.lo := by
    unfold dtSymbolSearchCmp at hcmp
    split at hcmp
    · omega
    · split at hcmp <;> omega
  simp [dtSymbolSearchCmp, ha]

theorem searchCmp_eq_zero {r : SymRange σ} : dtSymbolSearchCmp a r = 0 ↔ r.lo ≤ a ∧ a < r.hi := by
  unfold dtSymbolSearchCmp
  split
  · omega
  · split <;> omega

/-- A lookup finds the range an address is in. -/
theorem dtSymbolByAddr_eq_some (hsorted : t.sorted = true) (h : Tiled t) {p : Nat} :
    t.dtSymbolByAddr a = some p ↔ ∃ r ∈ t.ranges, (r.lo ≤ a ∧ a < r.hi) ∧ r.sym = p := by
  rw [Table.dtSymbolByAddr, hsorted]
  simp [bsearch_eq_some_iff (searchCmp_split h a), searchCmp_eq_zero, and_assoc]

/-- **Lookup by address**: whatever was inserted before and however often the table was sorted,
after `dt_symtab_sort` the ranges are in order without overlaps, and a lookup finds nothing
exactly if no symbol covers the address, and otherwise the covering symbol that starts highest,
then the smallest, then the first in the sort order. -/
theorem dtSymbolByAddr_spec {qsort : Qsort} (hq : IsQsort qsort) {t : Table}
    (h : (system qsort).Reach StepOk t) :
    ∃ t', t.dtSymtabSort qsort false = some t' ∧ t'.symbols = t.symbols ∧
      t'.ranges.Pairwise (fun r r' => r.hi ≤ r'.lo) ∧ (∀ r ∈ t'.ranges, r.lo < r.hi) ∧
      ∀ a,
        (t'.dtSymbolByAddr a = none ↔ ∀ p < t.symbols.length, ¬(t.deref p).Covers a) ∧
        ∀ w, t'.dtSymbolByAddr a = some w →
          w < t.symbols.length ∧ (t.deref w).Covers a ∧
          (∀ p < t.symbols.length, (t.deref p).Covers a → Better (t.deref w) (t.deref p)) ∧
          (t.sorted = false → Best t.deref (t.order qsort) a w) := by
  have hok := tableOk_of_reach hq h
  -- sorting comes to an end
  obtain ⟨t', hsort, hsorted, hfirst⟩ : ∃ t', t.dtSymtabSort qsort false = some t' ∧
      t'.sorted = true ∧ (t.sorted = false → Formed t.deref (t.order qsort) t'.ranges) := by
    cases hs : t.sorted with
    | true => exact ⟨t, by simp [Table.dtSymtabSort, hs], hs, fun h => by cases h⟩
    | false =>
      obtain ⟨ranges, hsort, hformed⟩ := hok.sort_spec hq hs
      exact ⟨_, hsort, rfl, fun _ => hformed⟩
  obtain ⟨hok', hsyms⟩ := hok.sort hq hsort
  have htiled := hok'.tiled hsorted
  have hderef : t'.deref = t.deref := by
    funext p
    rw [Table.deref, hsyms, Table.deref]
  refine ⟨t', hsort, hsyms, htiled.disjoint, htiled.lt, fun a => ⟨?_, fun w hw => ?_⟩⟩
  · constructor
    · intro hnone p hp hc
      obtain ⟨r, hr, hin⟩ := htiled.complete p (hsyms ▸ hp) a (hderef ▸ hc)
      have hsome := (dtSymbolByAddr_eq_some hsorted htiled).mpr ⟨r, hr, hin, rfl⟩
      rw [hnone] at hsome
      cases hsome
    · intro hnone
      refine eq_none_iff_forall_ne_some.mpr fun w hw => ?_
      obtain ⟨r, hr, hin, rfl⟩ := (dtSymbolByAddr_eq_some hsorted htiled).mp hw
      have hc := (htiled.best r hr a hin.1 hin.2).1
      exact hnone r.sym (hsyms ▸ hok'.ptr r hr) (hderef ▸ hc)
  · obtain ⟨r, hr, hin, rfl⟩ := (dtSymbolByAddr_eq_some hsorted htiled).mp hw
    obtain ⟨hc, hall⟩ := htiled.best r hr a hin.1 hin.2
    rw [hderef, hsyms] at hall
    exact ⟨hsyms ▸ hok'.ptr r hr, hderef ▸ hc, hall,
      fun hs => ((hfirst hs).ok r hr).best a hin.1 hin.2⟩

/-- A symbol inside another: behind its end the outer one is found again. -/
theorem nested_symbol_found :
    let qsort : Qsort := fun cmp xs => xs.mergeSort fun x y => decide (cmp x y ≤ 0)
    let t : Table := ⟨[⟨[97], 16, 16, 18⟩, ⟨[98], 20, 4, 18⟩], [⟨0, 0, 0⟩, ⟨0, 0, 1⟩], false, false⟩
    ∃ t', t.dtSymtabSort qsort false = some t' ∧ ∃ p, t'.dtSymbolByAddr 28 = some p ∧ p ≠ 1 := by
  intro qsort t
  have hreach : (system qsort).Reach StepOk t :=
    .step (e := .insert ⟨[98], 20, 4, 18⟩)
      (.step (e := .insert ⟨[97], 16, 16, 18⟩) .init (show 16 + 16 < 2 ^ 64 by decide) rfl)
      (show 20 + 4 < 2 ^ 64 by decide) rfl
  obtain ⟨t', hsort, _, _, _, hlookup⟩ := dtSymbolByAddr_spec isQsort_mergeSort hreach
  refine ⟨t', hsort, ?_⟩
  cases hp : t'.dtSymbolByAddr 28 with
  | none => exact absurd (by decide) ((hlookup 28).1.mp hp 0 (by decide))
  | some p =>
    refine ⟨p, rfl, fun h1 => ?_⟩
    have hc := ((hlookup 28).2 p hp).2.1
    rw [h1] at hc
    exact absurd hc (by decide)

end DTrace.Symtab
