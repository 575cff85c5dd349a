import Mathlib.Data.List.Sort

/-!
# Sorting and searching with a comparison function

`qsort` and `bsearch` of the C library take a function that returns a negative number, zero or a
positive number. `IsQsort` says what is relied on of `qsort`: it permutes, and if the comparison
is consistent, nothing stands before an element that compares less. Elements that compare equal
come in any order, so results are to be stated for every such function. `bsearch` halves an
interval; on a list that `cmp` splits into what is before the key, at most one match, and what is
after it, `bsearch_eq_some_iff` says what it returns.
-/

variable {α : Type*}

structure Consistent (cmp : α → α → Int) : Prop where
  trans : ∀ x y z, cmp x y ≤ 0 → cmp y z ≤ 0 → cmp x z ≤ 0
  total : ∀ x y, cmp x y ≤ 0 ∨ cmp y x ≤ 0

/-- A comparison by a key in a linear order. -/
theorem Consistent.of_key {κ : Type*} [LinearOrder κ] {cmp : α → α → Int} (key : α → κ)
    (hkey : ∀ x y, cmp x y ≤ 0 ↔ key x ≤ key y) : Consistent cmp where
  trans x y z h1 h2 := (hkey x z).mpr (le_trans ((hkey x y).mp h1) ((hkey y z).mp h2))
  total x y := by
    rw [hkey, hkey]
    exact le_total _ _

/-- An order as a C function returns it. -/
def signOf : Ordering → Int
  | .lt => -1
  | .eq => 0
  | .gt => 1

theorem signOf_nonpos {o : Ordering} : signOf o ≤ 0 ↔ o.isLE = true := by
  cases o <;> decide

theorem signOf_eq_zero {o : Ordering} : signOf o = 0 ↔ o = .eq := by
  cases o <;> decide

theorem Consistent.of_transCmp (cmp : α → α → Ordering) [Std.TransCmp cmp] :
    Consistent fun x y => signOf (cmp x y) where
  trans x y z h1 h2 := signOf_nonpos.mpr
    (Std.TransCmp.isLE_trans (signOf_nonpos.mp h1) (signOf_nonpos.mp h2))
  total x y := by
    have hswap : cmp y x = (cmp x y).swap := Std.OrientedCmp.eq_swap
    rw [signOf_nonpos, signOf_nonpos, hswap]
    cases cmp x y <;> simp

structure IsQsort (qsort : (α → α → Int) → List α → List α) : Prop where
  perm : ∀ cmp xs, (qsort cmp xs).Perm xs
  sorted : ∀ cmp, Consistent cmp → ∀ xs, (qsort cmp xs).Pairwise fun x y => cmp x y ≤ 0

theorem isQsort_mergeSort :
    IsQsort fun (cmp : α → α → Int) xs => xs.mergeSort fun x y => decide (cmp x y ≤ 0) := by
  refine ⟨fun cmp xs => List.mergeSort_perm xs _, fun cmp hcmp xs => ?_⟩
  have hsorted := @List.pairwise_mergeSort α (fun x y => decide (cmp x y ≤ 0))
    (fun x y z h1 h2 => ?_) (fun x y => ?_) xs
  · exact hsorted.imp fun h => of_decide_eq_true h
  · exact decide_eq_true (hcmp.trans x y z (of_decide_eq_true h1) (of_decide_eq_true h2))
  · simpa using hcmp.total x y

theorem isQsort_insertionSort :
    IsQsort fun (cmp : α → α → Int) xs => xs.insertionSort fun x y => cmp x y ≤ 0 := by
  refine ⟨fun cmp xs => List.perm_insertionSort _ xs, fun cmp hcmp xs => ?_⟩
  have : IsTrans α fun x y => cmp x y ≤ 0 := ⟨hcmp.trans⟩
  have : Std.Total fun x y => cmp x y ≤ 0 := ⟨hcmp.total⟩
  exact List.pairwise_insertionSort _ xs

def bsearchLoop (cmp : α → Int) (xs : List α) : Nat → Nat → Nat → Option α
  | 0, _, _ => none
  | fuel + 1, l, u =>
    if l < u then
      match xs[(l + u) / 2]? with
      | some x =>
        if cmp x < 0 then bsearchLoop cmp xs fuel l ((l + u) / 2)
        else if cmp x > 0 then bsearchLoop cmp xs fuel ((l + u) / 2 + 1) u
        else some x
      | none => none
    else none

def bsearch (cmp : α → Int) (xs : List α) : Option α :=
  bsearchLoop cmp xs (xs.length + 1) 0 xs.length

section
variable {cmp : α → Int} {xs : List α}

theorem bsearchLoop_sound {fuel l u : Nat} {x : α} (h : bsearchLoop cmp xs fuel l u = some x) :
    x ∈ xs ∧ cmp x = 0 := by
  induction fuel generalizing l u with
  | zero => cases h
  | succ fuel ih =>
    rw [bsearchLoop] at h
    split at h
    · split at h
      case h_1 y hy =>
        split at h
        · exact ih h
        · split at h
          · exact ih h
          · obtain rfl := Option.some.inj h
            exact ⟨List.mem_of_getElem? hy, by omega⟩
      case h_2 => cases h
    · cases h

/-- The interval never loses a match. -/
theorem bsearchLoop_complete (hsplit : xs.Pairwise fun x y => cmp x ≤ 0 → cmp y < 0)
    {fuel l u i : Nat} (hfuel : u - l < fuel) (hu : u ≤ xs.length) (hi : i < xs.length)
    (hli : l ≤ i) (hiu : i < u) (hzero : cmp xs[i] = 0) :
    bsearchLoop cmp xs fuel l u = some xs[i] := by
  rw [List.pairwise_iff_getElem] at hsplit
  induction fuel generalizing l u with
  | zero => omega
  | succ fuel ih =>
    have hlu : l < u := by omega
    have hmid : (l + u) / 2 < xs.length := by omega
    rw [bsearchLoop, if_pos hlu, List.getElem?_eq_getElem hmid]
    simp only
    split
    case isTrue hneg =>
      -- the match is before the middle
      have hlt : i < (l + u) / 2 := by
        rcases Nat.lt_trichotomy i ((l + u) / 2) with h | h | h
        · exact h
        · simp only [← h] at hneg
          omega
        · have := hsplit _ _ hmid hi h (by omega)
          omega
      exact ih (by omega) (by omega) hli hlt
    case isFalse hneg =>
      split
      case isTrue hpos =>
        -- the match is after the middle
        have hlt : (l + u) / 2 < i := by
          rcases Nat.lt_trichotomy i ((l + u) / 2) with h | h | h
          · have := hsplit _ _ hi hmid h (by omega)
            omega
          · simp only [← h] at hpos
            omega
          · exact h
        exact ih (by omega) hu hlt hiu
      case isFalse hpos =>
        -- two matches would be the same
        rcases Nat.lt_trichotomy i ((l + u) / 2) with h | h | h
        · have := hsplit _ _ hi hmid h (by omega)
          omega
        · simp only [← h]
        · have := hsplit _ _ hmid hi h (by omega)
          omega

theorem bsearch_eq_some_iff (hsplit : xs.Pairwise fun x y => cmp x ≤ 0 → cmp y < 0) {x : α} :
    bsearch cmp xs = some x ↔ x ∈ xs ∧ cmp x = 0 := by
  constructor
  · exact bsearchLoop_sound
  · intro ⟨hmem, hzero⟩
    obtain ⟨i, hi, rfl⟩ := List.getElem_of_mem hmem
    exact bsearchLoop_complete hsplit (by omega) le_rfl hi (Nat.zero_le _) hi hzero

end

/-! ## Runs in a sorted list -/

section
variable {xs : List α} {p : α → Bool}

theorem takeWhile_eq_filter (h : xs.Pairwise fun x y => p y → p x) :
    xs.takeWhile p = xs.filter p := by
  induction xs with
  | nil => rfl
  | cons x xs ih =>
    rw [List.pairwise_cons] at h
    by_cases hx : p x
    · rw [List.takeWhile_cons_of_pos hx, List.filter_cons_of_pos hx, ih h.2]
    · rw [List.takeWhile_cons_of_neg hx, List.filter_cons_of_neg hx, eq_comm,
        List.filter_eq_nil_iff]
      exact fun y hy hpy => hx (h.1 y hy hpy)

theorem take_countP_eq_filter (h : xs.Pairwise fun x y => p y → p x) :
    xs.take (xs.countP p) = xs.filter p := by
  rw [List.countP_eq_length_filter, ← takeWhile_eq_filter h]
  exact (List.prefix_iff_eq_take.mp (List.takeWhile_prefix p)).symm

/-- What has its key in an interval stands together in a list sorted by the key. -/
theorem take_drop_eq_filter {key : α → Nat} (hs : xs.Pairwise fun x y => key x ≤ key y)
    {lo hi : Nat} (hp : ∀ x, p x ↔ lo ≤ key x ∧ key x < hi) :
    (xs.drop ((xs.findIdx? p).getD 0)).take (xs.countP p) = xs.filter p := by
  induction xs with
  | nil => rfl
  | cons x xs ih =>
    rw [List.pairwise_cons] at hs
    by_cases hx : p x
    · rw [List.findIdx?_cons, if_pos hx]
      refine take_countP_eq_filter (List.pairwise_cons.mpr ⟨fun _ _ _ => hx, ?_⟩)
      refine hs.2.imp_of_mem fun {y z} hy _ hyz hz => (hp y).mpr ⟨?_, ?_⟩
      · exact Nat.le_trans ((hp x).mp hx).1 (hs.1 y hy)
      · exact Nat.lt_of_le_of_lt hyz ((hp z).mp hz).2
    · rw [List.findIdx?_cons, if_neg hx, List.countP_cons_of_neg hx, List.filter_cons_of_neg hx,
        ← ih hs.2]
      cases hidx : xs.findIdx? p with
      | none =>
        have hzero : xs.countP p = 0 := List.countP_eq_zero.mpr fun y hy => by
          simp [List.findIdx?_eq_none_iff.mp hidx y hy]
        rw [hzero, List.take_zero, List.take_zero]
      | some i => rfl

theorem countP_le_length_drop_findIdx? :
    xs.countP p ≤ (xs.drop ((xs.findIdx? p).getD 0)).length := by
  cases hidx : xs.findIdx? p with
  | none =>
    exact List.countP_le_length
  | some i =>
    have hzero : (xs.take i).countP p = 0 := by
      obtain ⟨_, -, hbefore⟩ := List.findIdx?_eq_some_iff_getElem.mp hidx
      refine List.countP_eq_zero.mpr fun y hy => ?_
      obtain ⟨k, hk, rfl⟩ := List.getElem_of_mem hy
      rw [List.length_take] at hk
      rw [List.getElem_take]
      exact hbefore k (by omega)
    calc xs.countP p = (xs.take i).countP p + (xs.drop i).countP p := by
          rw [← List.countP_append, List.take_append_drop]
      _ ≤ (xs.drop i).length := by
          rw [hzero, Nat.zero_add]
          exact List.countP_le_length

end

section
variable {β : Type*} {as bs : List (Option β)} [DecidableEq β]

section

variable (h : List.Forall₂ (fun a b => b ≠ none → a = b) as bs)

include h

theorem countP_le_of_forall₂ (j : β) :
    bs.countP (· = some j) ≤ as.countP (· = some j) := by
  induction h with
  | nil => exact le_rfl
  | @cons a b as bs hab _ ih =>
    rw [List.countP_cons, List.countP_cons]
    by_cases hb : b = some j
    · have ha : a = some j := by rw [hab (by simp [hb]), hb]
      simp only [ha, hb]
      omega
    · simp only [hb, decide_false, Bool.false_eq_true, if_false]
      omega

/-- A list that has all the values of another one, and each as often, has no more values. -/
theorem eq_of_countP_eq
    (hcount : ∀ j, some j ∈ as → as.countP (· = some j) = bs.countP (· = some j)) : as = bs := by
  induction h with
  | nil => rfl
  | @cons a b as bs hab hrest ih =>
    have hhead : a = b := by
      by_contra hne
      have hb : b = none := by
        by_contra hb
        exact hne (hab hb)
      subst hb
      obtain ⟨j, rfl⟩ := Option.ne_none_iff_exists'.mp hne
      have h1 := hcount j List.mem_cons_self
      have h2 := countP_le_of_forall₂ hrest j
      rw [List.countP_cons, List.countP_cons] at h1
      simp only [decide_true, if_true, reduceCtorEq, decide_false, if_false] at h1
      omega
    subst hhead
    rw [ih fun j hj => ?_]
    have h1 := hcount j (List.mem_cons_of_mem _ hj)
    rw [List.countP_cons, List.countP_cons] at h1
    omega

end

end
