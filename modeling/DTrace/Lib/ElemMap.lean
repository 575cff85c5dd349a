import Mathlib.Data.List.AList

/-!
# Hash maps over preallocated elements

A map of this kind has a fixed stock of elements. A key that is present has one of them for
itself; a lookup gives the element, and the value is the element's memory. Two things follow
from the stock:

* an update may put the value of a key that is present in another element, and the old one goes
  back to the stock;
* an element keeps its memory when it goes back, and is handed out again later.

Which element an update uses is the map's business, so `update` is given it. It can be any
element no other key has. That no two keys have the same element is part of the type.
-/

structure ElemMap (K A V : Type*) [DecidableEq K] where
  live : AList fun _ : K => A
  mem : A → V
  inj : ∀ k k' a, live.lookup k = some a → live.lookup k' = some a → k = k'

namespace ElemMap

variable {K A V : Type*} [DecidableEq K] [DecidableEq A]

def empty (mem : A → V) : ElemMap K A V := ⟨∅, mem, fun _ _ _ h => by simp at h⟩

variable (m : ElemMap K A V)

/-- The element of a key. -/
def lookup (k : K) : Option A := m.live.lookup k

/-- The value a key has in the memory of its element. -/
def val (k : K) : Option V := (m.lookup k).map m.mem

/-- A store to the memory of an element. -/
def write (a : A) (v : V) : ElemMap K A V := { m with mem := Function.update m.mem a v }

/-- No key other than `k` has the element. -/
def FreeFor (k : K) (a : A) : Prop := ∀ e ∈ m.live.entries, e.2 = a → e.1 = k

instance (k : K) (a : A) : Decidable (m.FreeFor k a) := by unfold FreeFor; infer_instance

variable {m}

omit [DecidableEq A] in
theorem FreeFor.eq {k k' : K} {a : A} (h : m.FreeFor k a) (hk : m.lookup k' = some a) : k' = k :=
  h ⟨k', a⟩ (AList.mem_lookup_iff.mp hk) rfl

/-- The element `a` is given to `k`, with the value in it. -/
def update (m : ElemMap K A V) (k : K) (v : V) (a : A) : Option (ElemMap K A V) :=
  if h : m.FreeFor k a then
    some {
      live := m.live.insert k a
      mem := Function.update m.mem a v
      inj := fun k₁ k₂ b h₁ h₂ => by
        by_cases e₁ : k₁ = k <;> by_cases e₂ : k₂ = k
        · rw [e₁, e₂]
        · subst e₁
          rw [AList.lookup_insert] at h₁
          rw [AList.lookup_insert_ne e₂, ← h₁] at h₂
          exact absurd (h.eq h₂) e₂
        · subst e₂
          rw [AList.lookup_insert] at h₂
          rw [AList.lookup_insert_ne e₁, ← h₂] at h₁
          exact absurd (h.eq h₁) e₁
        · rw [AList.lookup_insert_ne e₁] at h₁
          rw [AList.lookup_insert_ne e₂] at h₂
          exact m.inj k₁ k₂ b h₁ h₂ }
  else none

/-- The element of the key goes back to the stock. -/
def delete (m : ElemMap K A V) (k : K) : ElemMap K A V where
  live := m.live.erase k
  mem := m.mem
  inj k₁ k₂ b h₁ h₂ := by
    by_cases e₁ : k₁ = k
    · subst e₁
      simp at h₁
    by_cases e₂ : k₂ = k
    · subst e₂
      simp at h₂
    rw [AList.lookup_erase_ne e₁] at h₁
    rw [AList.lookup_erase_ne e₂] at h₂
    exact m.inj k₁ k₂ b h₁ h₂

/-! ## What the operations do to each key -/

section
variable {m' : ElemMap K A V} {k k' : K} {v : V} {a : A}

section

variable (h : m.update k v a = some m')

include h

theorem lookup_update_self : m'.lookup k = some a := by
  unfold update at h
  split at h
  · exact Option.some.inj h ▸ AList.lookup_insert _
  · cases h

theorem lookup_update_ne (hne : k' ≠ k) :
    m'.lookup k' = m.lookup k' := by
  unfold update at h
  split at h
  · exact Option.some.inj h ▸ AList.lookup_insert_ne hne
  · cases h

theorem mem_update : m'.mem = Function.update m.mem a v := by
  unfold update at h
  split at h
  · exact Option.some.inj h ▸ rfl
  · cases h

theorem freeFor_of_update : m.FreeFor k a := by
  unfold update at h
  split at h
  case isTrue hfree => exact hfree
  case isFalse => cases h

theorem val_update_self : m'.val k = some v := by
  simp [val, lookup_update_self h, mem_update h]

theorem val_update_ne (hne : k' ≠ k) : m'.val k' = m.val k' := by
  rw [val, lookup_update_ne h hne, mem_update h]
  cases hk : m.lookup k' with
  | none => simp [val, hk]
  | some b =>
    have hb : b ≠ a := fun heq => hne ((freeFor_of_update h).eq (heq ▸ hk))
    simp [val, hk, hb]

end

theorem val_write_self (h : m.lookup k = some a) : (m.write a v).val k = some v := by
  rw [val, show (m.write a v).lookup k = some a from h]
  simp [write]

theorem val_write_ne (h : m.lookup k = some a) (hne : k' ≠ k) :
    (m.write a v).val k' = m.val k' := by
  show (m.lookup k').map _ = _
  cases hk : m.lookup k' with
  | none => simp [val, hk]
  | some b =>
    have hb : b ≠ a := fun heq => hne (m.inj k' k a (heq ▸ hk) h)
    simp [val, hk, hb, write]

omit [DecidableEq A] in
@[simp]
theorem val_delete_self : (m.delete k).val k = none := by
  simp [val, lookup, delete]

omit [DecidableEq A] in
theorem val_delete_ne (hne : k' ≠ k) : (m.delete k).val k' = m.val k' := by
  simp [val, lookup, delete, AList.lookup_erase_ne hne]

end

end ElemMap
