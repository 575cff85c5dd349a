import Mathlib.Data.List.Perm.Basic
import Mathlib.Data.List.Zip
import Mathlib.Algebra.Group.Basic

/-!
# Partial aggregates that can be merged

A fold of `update` over a list of inputs, started from `init`, and a `merge` of two such folds.
`MergeLaws` are the laws under which merging partial folds gives the fold of the whole list,
whatever way the list was split (`fold_merge`, `fold_perm`). The laws are asked for on the values
that satisfy `good` only.

Pointwise sums of lists of one length, with increments at single places as updates, satisfy the
laws by `zipWith_add_comm`, `zipWith_add_zero` and `zipWith_add_modify`.
-/

structure MergeLaws {M X : Type*} (good : M → Prop) (init : M) (update : X → M → M)
    (merge : M → M → M) : Prop where
  good_init : good init
  good_update : ∀ x a, good a → good (update x a)
  comm : ∀ a b, good a → good b → merge a b = merge b a
  merge_init : ∀ a, good a → merge a init = a
  merge_update : ∀ x a b, good a → good b → merge a (update x b) = update x (merge a b)

namespace MergeLaws

variable {M X : Type*} {good : M → Prop} {init : M} {update : X → M → M} {merge : M → M → M}
  (h : MergeLaws good init update merge)
include h

theorem good_fold (xs : List X) {a : M} (ha : good a) :
    good (xs.foldl (fun a x => update x a) a) := by
  induction xs generalizing a with
  | nil => exact ha
  | cons x xs ih => exact ih (h.good_update x a ha)

theorem merge_fold (xs : List X) {a b : M} (ha : good a) (hb : good b) :
    merge a (xs.foldl (fun a x => update x a) b) =
      xs.foldl (fun a x => update x a) (merge a b) := by
  induction xs generalizing b with
  | nil => rfl
  | cons x xs ih =>
    rw [List.foldl_cons, ih (h.good_update x b hb), h.merge_update x a b ha hb, List.foldl_cons]

/-- Merging two folds is folding over both lists. -/
theorem fold_merge (xs ys : List X) :
    merge (xs.foldl (fun a x => update x a) init) (ys.foldl (fun a x => update x a) init) =
      (xs ++ ys).foldl (fun a x => update x a) init := by
  have hxs := h.good_fold xs h.good_init
  rw [h.merge_fold ys hxs h.good_init, h.merge_init _ hxs, List.foldl_append]

theorem update_comm (x y : X) {a : M} (ha : good a) :
    update x (update y a) = update y (update x a) := by
  have hx := h.good_update x init h.good_init
  have hy := h.good_update y a ha
  calc update x (update y a)
      = merge (update y a) (update x init) := by
        rw [h.merge_update x _ _ hy h.good_init, h.merge_init _ hy]
    _ = update y (merge a (update x init)) := by
        rw [h.comm _ _ hy hx, h.merge_update y _ _ hx ha, h.comm _ _ hx ha]
    _ = update y (update x a) := by
        rw [h.merge_update x _ _ ha h.good_init, h.merge_init _ ha]

/-- The order of the inputs does not matter. -/
theorem fold_perm {xs ys : List X} (hp : xs.Perm ys) {a : M} (ha : good a) :
    xs.foldl (fun a x => update x a) a = ys.foldl (fun a x => update x a) a := by
  induction hp generalizing a with
  | nil => rfl
  | cons x _ ih => exact ih (h.good_update x a ha)
  | swap x y l =>
    show l.foldl _ (update x (update y a)) = l.foldl _ (update y (update x a))
    rw [h.update_comm x y ha]
  | trans _ _ ih1 ih2 => exact (ih1 ha).trans (ih2 ha)

end MergeLaws

/-! ## Splitting a list by a key -/

/-- The parts of a list under each of a number of different keys make up the list. -/
theorem flatMap_filter_perm {α κ : Type*} [DecidableEq κ] (key : α → κ) {keys : List κ}
    {xs : List α} (hnodup : keys.Nodup) (hcover : ∀ x ∈ xs, key x ∈ keys) :
    (keys.flatMap fun k => xs.filter (key · = k)).Perm xs := by
  induction keys generalizing xs with
  | nil =>
    rw [List.eq_nil_iff_forall_not_mem.mpr fun x hx => List.not_mem_nil (hcover x hx)]
    exact .nil
  | cons k keys ih =>
    obtain ⟨hk, hnodup⟩ := List.nodup_cons.mp hnodup
    have hcover' : ∀ x ∈ xs.filter (key · ≠ k), key x ∈ keys := fun x hx => by
      rw [List.mem_filter, decide_eq_true_eq] at hx
      exact (List.mem_cons.mp (hcover x hx.1)).resolve_left hx.2
    have hrest := ih hnodup hcover'
    -- the other keys do not see the part under `k`
    have hsame : (keys.flatMap fun k' => (xs.filter (key · ≠ k)).filter (key · = k')) =
        keys.flatMap fun k' => xs.filter (key · = k') := by
      refine List.flatMap_congr fun k' hk' => ?_
      rw [List.filter_filter]
      refine List.filter_congr fun x _ => ?_
      have hne : k' ≠ k := fun heq => hk (heq ▸ hk')
      by_cases hx : key x = k' <;> simp [hx, hne]
    rw [hsame] at hrest
    exact (hrest.append_left _).trans (by simpa using List.filter_append_perm (key · = k) xs)

/-! ## Pointwise sums -/

section
variable {A : Type*} [AddCommMonoid A]

theorem zipWith_add_comm (as bs : List A) :
    List.zipWith (· + ·) as bs = List.zipWith (· + ·) bs as :=
  List.zipWith_comm_of_comm add_comm

theorem zipWith_add_zero {as : List A} {n : Nat} (h : as.length = n) :
    List.zipWith (· + ·) as (List.replicate n 0) = as := by
  subst h
  induction as with
  | nil => rfl
  | cons a as ih => simp [List.replicate_succ, ih]

/-- An increment at one place of the second list is one of the sum. -/
theorem zipWith_add_modify (as bs : List A) (i : Nat) (x : A) (h : as.length = bs.length) :
    List.zipWith (· + ·) as (bs.modify i (· + x)) =
      (List.zipWith (· + ·) as bs).modify i (· + x) := by
  induction as generalizing bs i with
  | nil =>
    cases i <;> rfl
  | cons a as ih =>
    cases bs with
    | nil => cases h
    | cons b bs =>
      cases i with
      | zero => simp [add_assoc]
      | succ i => simp [ih bs i (Nat.succ.inj h)]

end
