import Mathlib.Algebra.GroupWithZero.Nat
import Mathlib.Data.List.Nodup
import Mathlib.Data.List.Pairwise

/-!
# Blocks one after another

Blocks of different sizes are put one after another in the order of a list. `startOf` is where a block
starts; blocks do not overlap (`pairwise_startOf`), and what is in a block is found from its start on
(`getElem?_startOf`).
-/

namespace Blocks

open List

variable {V : Type} [DecidableEq V] {α : Type}

/-- The size of all blocks. -/
def total (size : V → Nat) (order : List V) : Nat := (order.map size).sum

/-- Where a block starts. -/
def startOf (size : V → Nat) : List V → V → Nat
  | [], _ => 0
  | u :: us, v => if u = v then 0 else size u + startOf size us v

variable {size : V → Nat} {order more : List V} {u v : V}

omit [DecidableEq V] in
theorem total_append : total size (order ++ more) = total size order + total size more := by
  rw [total, map_append, sum_append]
  rfl

omit [DecidableEq V] in
@[simp] theorem total_cons : total size (v :: order) = size v + total size order := by
  rw [total, map_cons, sum_cons]
  rfl

omit [DecidableEq V] in
@[simp] theorem total_nil : total size [] = 0 := rfl

theorem startOf_self : startOf size (v :: order) v = 0 := if_pos rfl

theorem startOf_cons_of_ne (h : u ≠ v) :
    startOf size (u :: order) v = size u + startOf size order v := if_neg h

/-- Blocks that come later do not move a block. -/
theorem startOf_append_of_mem (h : v ∈ order) :
    startOf size (order ++ more) v = startOf size order v := by
  induction order with
  | nil => cases h
  | cons u order ih =>
    rw [cons_append]
    by_cases huv : u = v
    · rw [huv, startOf_self, startOf_self]
    · rw [startOf_cons_of_ne huv, startOf_cons_of_ne huv,
        ih ((mem_cons.mp h).resolve_left (Ne.symm huv))]

/-- A new block starts behind all others. -/
theorem startOf_append_self (h : v ∉ order) :
    startOf size (order ++ v :: more) v = total size order := by
  induction order with
  | nil => exact startOf_self
  | cons u order ih =>
    rw [mem_cons, not_or] at h
    rw [cons_append, startOf_cons_of_ne (Ne.symm h.1), ih h.2, total_cons]

variable (size) in
theorem startOf_add_le (h : v ∈ order) : startOf size order v + size v ≤ total size order := by
  induction order with
  | nil => cases h
  | cons u order ih =>
    rw [total_cons]
    by_cases huv : u = v
    · rw [huv, startOf_self]
      omega
    · have := ih ((mem_cons.mp h).resolve_left (Ne.symm huv))
      rw [startOf_cons_of_ne huv]
      omega

variable (size) in
/-- A block ends before the next ones start. -/
theorem pairwise_startOf (h : order.Nodup) :
    order.Pairwise fun u v => startOf size order u + size u ≤ startOf size order v := by
  induction order with
  | nil => exact .nil
  | cons w order ih =>
    obtain ⟨hw, hnodup⟩ := nodup_cons.mp h
    refine .cons (fun v hv => ?_) ((ih hnodup).imp_of_mem fun {a b} ha hb hab => ?_)
    · rw [startOf_self, startOf_cons_of_ne (ne_of_mem_of_not_mem hv hw).symm]
      omega
    · rw [startOf_cons_of_ne (ne_of_mem_of_not_mem ha hw).symm,
        startOf_cons_of_ne (ne_of_mem_of_not_mem hb hw).symm]
      omega

variable (size) in
/-- So different blocks have nothing in common. -/
theorem startOf_disjoint (h : order.Nodup) (hu : u ∈ order) (hv : v ∈ order) (hne : u ≠ v) :
    startOf size order u + size u ≤ startOf size order v ∨
      startOf size order v + size v ≤ startOf size order u := by
  let R (u v : V) : Prop := startOf size order u + size u ≤ startOf size order v ∨
    startOf size order v + size v ≤ startOf size order u
  have : Std.Symm R := ⟨fun _ _ => Or.symm⟩
  have hR : order.Pairwise R := (pairwise_startOf size h).imp Or.inl
  exact hR.forall hu hv hne

variable {f : V → List α}

omit [DecidableEq V] in
theorem length_flatMap (hf : ∀ v, (f v).length = size v) :
    (order.flatMap f).length = total size order := by
  induction order with
  | nil => rfl
  | cons u order ih => rw [flatMap_cons, length_append, hf, ih, total_cons]

/-- What is in a block. -/
theorem getElem?_startOf (hf : ∀ v, (f v).length = size v) (h : v ∈ order) {i : Nat}
    (hi : i < size v) : (order.flatMap f)[startOf size order v + i]? = (f v)[i]? := by
  induction order with
  | nil => cases h
  | cons u order ih =>
    rw [flatMap_cons]
    by_cases huv : u = v
    · subst huv
      rw [startOf_self, Nat.zero_add, getElem?_append_left (by rw [hf]; exact hi)]
    · rw [startOf_cons_of_ne huv, Nat.add_assoc, ← hf u, getElem?_append_right (Nat.le_add_right ..),
        Nat.add_sub_cancel_left, ih ((mem_cons.mp h).resolve_left (Ne.symm huv))]

end Blocks
