import DTrace.Lib.ByteMem

/-!
# Byte areas

A buffer as the bytes at its offsets, with no end of its own. What a component does to a buffer is
`put`, what it makes of it is `slice`. `Holds m l n` says that the first `n` bytes are `l`, with
zeros behind: the state of a cleared buffer that is filled from the front.
-/

abbrev Area := Nat → Fin 256

namespace Area

open List

variable {m : Area} {off n : Nat} {l : List (Fin 256)}

/-- The bytes are put at `off` and the offsets after it. -/
def put (m : Area) (off : Nat) (l : List (Fin 256)) : Area := fun a =>
  if off ≤ a then l.getD (a - off) (m a) else m a

/-- The `n` bytes at `off`. -/
def slice (m : Area) (off n : Nat) : List (Fin 256) := (List.range n).map fun i => m (off + i)

@[simp] theorem length_slice (m : Area) (off n : Nat) : (m.slice off n).length = n := by
  rw [slice, length_map, length_range]

theorem getElem_slice {i : Nat} (h : i < (m.slice off n).length) :
    (m.slice off n)[i] = m (off + i) := by
  simp only [slice, getElem_map, getElem_range]

theorem put_of_lt {a : Nat} (h : a < off) : m.put off l a = m a := if_neg (by omega)

theorem put_of_ge {a : Nat} (h : off + l.length ≤ a) : m.put off l a = m a := by
  unfold put
  split
  · rw [getD_eq_default _ _ (by omega)]
  · rfl

theorem put_add {i : Nat} (h : i < l.length) : m.put off l (off + i) = l[i] := by
  rw [put, if_pos (Nat.le_add_right off i), Nat.add_sub_cancel_left, getD_eq_getElem _ _ h]

/-! ## Filling from the front -/

/-- The first `n` bytes are `l` and zeros. -/
def Holds (m : Area) (l : List (Fin 256)) (n : Nat) : Prop := ∀ a < n, m a = l.getD a 0

theorem holds_zeros (m : Area) (n : Nat) : Holds (m.put 0 (List.replicate n 0)) [] n := by
  intro a ha
  have hlen : a < (List.replicate n (0 : Fin 256)).length := by rwa [length_replicate]
  have hput : m.put 0 (List.replicate n 0) (0 + a) = (List.replicate n 0)[a] := put_add hlen
  rw [Nat.zero_add] at hput
  rw [hput, getElem_replicate, getD_nil]

theorem Holds.put (h : Holds m l n) {off : Nat} (hoff : l.length ≤ off) (l' : List (Fin 256)) :
    Holds (m.put off l') (l ++ List.replicate (off - l.length) 0 ++ l') n := by
  have hlen : (l ++ List.replicate (off - l.length) 0).length = off := by
    rw [length_append, length_replicate]
    omega
  intro a ha
  by_cases hlt : a < off
  · rw [put_of_lt hlt, h a ha, getD_append _ _ _ _ (by omega)]
    by_cases hl : a < l.length
    · rw [getD_append _ _ _ _ hl]
    · rw [getD_append_right _ _ _ _ (by omega), getD_eq_default _ _ (by omega),
        getD_replicate _ (by omega)]
  · obtain ⟨i, rfl⟩ := Nat.exists_eq_add_of_le (Nat.le_of_not_lt hlt)
    rw [getD_append_right _ _ _ _ (by omega), hlen, Nat.add_sub_cancel_left]
    by_cases hi : i < l'.length
    · rw [put_add hi, getD_eq_getElem _ _ hi]
    · rw [put_of_ge (by omega), h _ ha, getD_eq_default _ _ (by omega),
        getD_eq_default _ _ (by omega)]

/-- Zeros at the end are there already. -/
theorem Holds.zeros (h : Holds m l n) (k : Nat) : Holds m (l ++ List.replicate k 0) n := by
  intro a ha
  rw [h a ha]
  by_cases hl : a < l.length
  · rw [getD_append _ _ _ _ hl]
  · rw [getD_append_right _ _ _ _ (by omega), getD_eq_default _ _ (by omega)]
    by_cases hk : a - l.length < k
    · rw [getD_replicate _ hk]
    · rw [getD_eq_default _ _ (by rw [length_replicate]; omega)]

theorem Holds.slice_eq (h : Holds m l n) (hn : l.length ≤ n) : m.slice 0 l.length = l := by
  refine ext_getElem (length_slice ..) fun i h1 h2 => ?_
  rw [getElem_slice, Nat.zero_add, h i (by omega), getD_eq_getElem _ _ h2]

end Area

/-! ## Little-endian numbers -/

/-- The lowest `n` bytes of a number. -/
def leBytes : Nat → Nat → List (Fin 256)
  | 0, _ => []
  | n + 1, v => Fin.ofNat 256 v :: leBytes n (v / 256)

@[simp] theorem length_leBytes (n v : Nat) : (leBytes n v).length = n := by
  induction n generalizing v with
  | zero => rfl
  | succ n ih => rw [leBytes, List.length_cons, ih]

theorem leBytes_inj {n v w : Nat} : leBytes n v = leBytes n w ↔ v % 256 ^ n = w % 256 ^ n := by
  induction n generalizing v w with
  | zero => simp only [leBytes, Nat.pow_zero, Nat.mod_one]
  | succ n ih =>
    have hbyte : Fin.ofNat 256 v = Fin.ofNat 256 w ↔ v % 256 = w % 256 := Fin.ext_iff
    rw [leBytes, leBytes, List.cons_eq_cons, hbyte, ih, Nat.pow_succ', Nat.mod_mul, Nat.mod_mul]
    constructor
    · rintro ⟨h1, h2⟩
      rw [h1, h2]
    · intro h
      constructor
      · omega
      · omega
