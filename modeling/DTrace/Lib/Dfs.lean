import Mathlib.Data.List.Nodup
import Mathlib.Logic.Relation

/-!
# Depth-first order

A traversal of a graph that marks what it comes to: a vertex is put at the end of what has been seen,
and those of its successors that have not been seen are visited one after another. `visit` has the
depth of the recursion as a bound.

* `visit_spec`: with as many steps as there are vertices it comes to an end. Everything that is seen is
  seen once, was reached, and has its successors among what is seen.
* `visit_root` is this for a traversal from the start: the vertices seen are those that can be reached.
-/

namespace Dfs

open List

variable {V : Type} [DecidableEq V]

def visitList (visit : List V → V → Option (List V)) : List V → List V → Option (List V)
  | [], seen => some seen
  | w :: ws, seen =>
    if w ∈ seen then visitList visit ws seen else (visit seen w).bind (visitList visit ws)

def visit (succ : V → List V) : Nat → List V → V → Option (List V)
  | 0, _, _ => none
  | fuel + 1, seen, v => visitList (visit succ fuel) (succ v) (seen ++ [v])

theorem visitList_append (visit : List V → V → Option (List V)) (ws ws' seen : List V) :
    visitList visit (ws ++ ws') seen = (visitList visit ws seen).bind (visitList visit ws') := by
  induction ws generalizing seen with
  | nil => rfl
  | cons w ws ih =>
    rw [cons_append, visitList, visitList]
    split
    · exact ih seen
    · rw [Option.bind_assoc]
      exact congrArg _ (funext ih)

/-- There is a path. -/
def Reaches (succ : V → List V) : V → V → Prop := Relation.ReflTransGen fun v w => w ∈ succ v

/-- What has been seen is a beginning of what is seen then. -/
theorem visitList_extends {visit : List V → V → Option (List V)}
    (hvisit : ∀ {seen v seen'}, visit seen v = some seen' → seen ++ [v] <+: seen') {ws seen seen' : List V}
    (h : visitList visit ws seen = some seen') : seen <+: seen' := by
  induction ws generalizing seen with
  | nil =>
    obtain rfl : seen = seen' := Option.some.inj h
    exact prefix_refl seen
  | cons w ws ih =>
    rw [visitList] at h
    split at h
    · exact ih h
    · obtain ⟨_, hmid, hrest⟩ := Option.bind_eq_some_iff.mp h
      exact ((prefix_append seen [w]).trans (hvisit hmid)).trans (ih hrest)

theorem visit_extends {succ : V → List V} {fuel : Nat} {seen seen' : List V} {v : V}
    (h : visit succ fuel seen v = some seen') : seen ++ [v] <+: seen' := by
  induction fuel generalizing seen seen' v with
  | zero => cases h
  | succ fuel ih => exact visitList_extends ih h

/-! ## The bound -/

/-- How many vertices are left. -/
def unseen (univ seen : List V) : Nat := (univ.filter (· ∉ seen)).length

theorem unseen_append_le (univ seen more : List V) : unseen univ (seen ++ more) ≤ unseen univ seen := by
  refine (monotone_filter_right univ fun w hw => ?_).length_le
  have hnot : w ∉ seen ++ more := of_decide_eq_true hw
  exact decide_eq_true fun hmem => hnot (mem_append_left more hmem)

theorem unseen_append_lt {univ seen : List V} {v : V} (huniv : v ∈ univ) (hseen : v ∉ seen) :
    unseen univ (seen ++ [v]) < unseen univ seen := by
  have hsplit : univ.filter (· ∉ seen ++ [v]) = (univ.filter (· ∉ seen)).filter (· ≠ v) := by
    rw [filter_filter]
    exact filter_congr fun w _ => by simp [and_comm]
  rw [unseen, hsplit, unseen, length_filter_lt_length_iff_exists]
  exact ⟨v, by simp [huniv, hseen], by simp⟩

/-! ## What is visited -/

/-- `new` is what a traversal from `vs` comes to. -/
structure Visited (succ : V → List V) (seen vs new : List V) : Prop where
  nodup : (seen ++ new).Nodup
  reach : ∀ u ∈ new, ∃ v ∈ vs, Reaches succ v u
  closed : ∀ u ∈ new, ∀ w ∈ succ u, w ∈ seen ++ new
  roots : ∀ v ∈ vs, v ∈ seen ++ new

variable {succ : V → List V} {univ : List V}

theorem visitList_spec {fuel : Nat}
    (hvisit : ∀ seen v, v ∈ univ → v ∉ seen → seen.Nodup → unseen univ seen ≤ fuel →
      ∃ new, visit succ fuel seen v = some (seen ++ new) ∧ Visited succ seen [v] new)
    {ws seen : List V} (hws : ∀ w ∈ ws, w ∈ univ) (hnodup : seen.Nodup)
    (hfuel : unseen univ seen ≤ fuel) :
    ∃ new, visitList (visit succ fuel) ws seen = some (seen ++ new) ∧ Visited succ seen ws new := by
  induction ws generalizing seen with
  | nil =>
    refine ⟨[], by rw [visitList, append_nil], ?_⟩
    exact ⟨by rwa [append_nil], nofun,
      nofun, nofun⟩
  | cons w ws ih =>
    have hws' : ∀ w' ∈ ws, w' ∈ univ := fun w' h => hws w' (mem_cons_of_mem w h)
    rw [visitList]
    by_cases hw : w ∈ seen
    · obtain ⟨new, hnew, hvisited⟩ := ih hws' hnodup hfuel
      rw [if_pos hw]
      refine ⟨new, hnew, hvisited.nodup, fun u hu => ?_, hvisited.closed,
        forall_mem_cons.mpr ⟨mem_append_left new hw, hvisited.roots⟩⟩
      obtain ⟨v, hv, hreach⟩ := hvisited.reach u hu
      exact ⟨v, mem_cons_of_mem w hv, hreach⟩
    · obtain ⟨new1, hnew1, h1⟩ := hvisit seen w (hws w mem_cons_self) hw hnodup hfuel
      obtain ⟨new2, hnew2, h2⟩ :=
        ih hws' h1.nodup (Nat.le_trans (unseen_append_le univ seen new1) hfuel)
      rw [if_neg hw, hnew1, Option.bind_some, hnew2, append_assoc]
      refine ⟨new1 ++ new2, rfl, ?_, fun u hu => ?_, fun u hu x hx => ?_, fun v hv => ?_⟩
      · rw [← append_assoc]
        exact h2.nodup
      · obtain hu | hu := mem_append.mp hu
        · obtain ⟨v, hv, hreach⟩ := h1.reach u hu
          rw [mem_singleton.mp hv] at hreach
          exact ⟨w, mem_cons_self, hreach⟩
        · obtain ⟨v, hv, hreach⟩ := h2.reach u hu
          exact ⟨v, mem_cons_of_mem w hv, hreach⟩
      · rw [← append_assoc]
        obtain hu | hu := mem_append.mp hu
        · exact mem_append_left new2 (h1.closed u hu x hx)
        · exact h2.closed u hu x hx
      · rw [← append_assoc]
        exact forall_mem_cons.mpr
          ⟨mem_append_left new2 (h1.roots w mem_cons_self), h2.roots⟩ v hv

/-- **The traversal comes to an end**, whatever has been seen before. -/
theorem visit_spec (huniv : ∀ v ∈ univ, ∀ w ∈ succ v, w ∈ univ) (fuel : Nat) :
    ∀ seen v, v ∈ univ → v ∉ seen → seen.Nodup → unseen univ seen ≤ fuel →
      ∃ new, visit succ fuel seen v = some (seen ++ new) ∧ Visited succ seen [v] new := by
  induction fuel with
  | zero =>
    intro seen v hv hseen _ hfuel
    exact absurd (unseen_append_lt hv hseen) (by omega)
  | succ fuel ih =>
    intro seen v hv hseen hnodup hfuel
    have hlt := unseen_append_lt hv hseen
    have hnodup' : (seen ++ [v]).Nodup := by
      refine nodup_append'.mpr ⟨hnodup, nodup_singleton v, ?_⟩
      rwa [disjoint_singleton]
    obtain ⟨new, hnew, hvisited⟩ := visitList_spec ih (huniv v hv) hnodup' (by omega)
    rw [visit, hnew]
    refine ⟨v :: new, by rw [append_assoc]; rfl, ?_, fun u hu => ?_, fun u hu w hw => ?_,
      fun u hu => ?_⟩
    · have := hvisited.nodup
      rwa [append_assoc] at this
    · obtain rfl | hu := mem_cons.mp hu
      · exact ⟨u, mem_cons_self, .refl⟩
      · obtain ⟨w, hw, hreach⟩ := hvisited.reach u hu
        exact ⟨v, mem_cons_self, .head hw hreach⟩
    · have hmem : w ∈ seen ++ [v] ++ new := by
        obtain rfl | hu := mem_cons.mp hu
        · exact hvisited.roots w hw
        · exact hvisited.closed u hu w hw
      rwa [append_assoc] at hmem
    · rw [mem_singleton.mp hu]
      exact mem_append_right seen mem_cons_self

/-- What is seen from a vertex on is what it reaches, each once. -/
theorem visit_root (huniv : ∀ v ∈ univ, ∀ w ∈ succ v, w ∈ univ) {v : V} (hv : v ∈ univ) :
    ∃ order, visit succ univ.length [] v = some order ∧ order.Nodup ∧
      ∀ u, u ∈ order ↔ Reaches succ v u := by
  obtain ⟨order, horder, hvisited⟩ := visit_spec huniv univ.length [] v hv
    not_mem_nil nodup_nil (length_filter_le _ _)
  refine ⟨order, horder, hvisited.nodup, fun u => ⟨fun hu => ?_, fun hreach => ?_⟩⟩
  · obtain ⟨w, hw, hreach⟩ := hvisited.reach u hu
    rwa [mem_singleton.mp hw] at hreach
  · induction hreach with
    | refl => exact hvisited.roots v mem_cons_self
    | tail _ hstep ih => exact hvisited.closed _ ih _ hstep

end Dfs
