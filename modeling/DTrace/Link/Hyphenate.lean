import DTrace.Lib.StrBuf

/-!
# Hyphens in probe names — `strhyphenate`

Two underscores become one hyphen, in place: what follows is moved down, and the end of the loop
stays where the string ended before. The bytes that the string leaves behind are all NUL
(`Compacted`), so nothing is found there.
-/

namespace DTrace.Link

open StrBuf List

def underscore : Byte := 0x5f

def hyphen : Byte := 0x2d

def memmove (s : List Byte) (dst src n : Nat) : List Byte :=
  s.take dst ++ (s.drop src).take n ++ s.drop (dst + n)

/-- One round of the loop, with the string that ended at `q`. -/
def hyphenateAt (q : Nat) (s : List Byte) (p : Nat) : List Byte :=
  if s.getD p 0 = underscore ∧ s.getD (p + 1) 0 = underscore then
    memmove (s.set p hyphen) (p + 1) (p + 2) (q - p - 1)
  else s

def strhyphenate (s : List Byte) : List Byte :=
  let q := (s.takeWhile (· ≠ 0)).length
  (List.range q).foldl (hyphenateAt q) s

/-- From left to right, a hyphen for two underscores. -/
def hyphenated : List Byte → List Byte
  | c :: d :: s =>
    if c = underscore ∧ d = underscore then hyphen :: hyphenated s else c :: hyphenated (d :: s)
  | s => s

theorem zero_notMem_hyphenated {s : List Byte} (h : 0 ∉ s) : 0 ∉ hyphenated s := by
  fun_induction hyphenated s with
  | case1 c d s hcd ih => simp_all [hyphen]
  | case2 c d s hcd ih => simp_all
  | case3 s => exact h

theorem takeWhile_append_zeros {s : List Byte} (h : 0 ∉ s) (m : Nat) :
    (s ++ replicate (m + 1) 0).takeWhile (· ≠ 0) = s := by
  rw [takeWhile_append_of_pos fun c hc => by simpa using fun h0 : c = 0 => h (h0 ▸ hc)]
  simp [replicate_succ]

theorem getD_append_zeros {l : List Byte} {i : Nat} (h : l.length ≤ i) (m : Nat) :
    (l ++ replicate m 0).getD i 0 = 0 := by
  rw [getD_append_right _ _ _ _ h, getD_eq_getElem?_getD,
    getElem?_getD_replicate_default_eq]

/-- What follows is moved down by one byte; the last byte stays. -/
theorem memmove_down (l : List Byte) (d : Byte) (r : List Byte) (z : Byte) :
    memmove (l ++ d :: (r ++ [z])) l.length (l.length + 1) (r.length + 1) =
      l ++ (r ++ [z]) ++ [z] := by
  have hsrc : (l ++ d :: (r ++ [z])).drop (l.length + 1) = r ++ [z] := by
    rw [append_cons]
    exact drop_left' (by simp)
  have hrest : (l ++ d :: (r ++ [z])).drop (l.length + (r.length + 1)) = [z] := by
    rw [← cons_append, ← append_assoc]
    exact drop_left' (by simp)
  rw [memmove, take_left, hsrc, hrest, take_of_length_le (by simp)]

/-- The buffer before round `p`: what has been looked at, the rest of the string, and NULs. -/
def Compacted (s : List Byte) (q p : Nat) (buf : List Byte) : Prop :=
  ∃ l r m, buf = l ++ r ++ replicate (m + 1) 0 ∧ (l ++ r).length + m = q ∧ l.length ≤ p ∧
    (l.length = p ∨ r = []) ∧ hyphenated s = l ++ hyphenated r

variable {s buf : List Byte} {q p : Nat}

theorem Compacted.step (h : Compacted s q p buf) : Compacted s q (p + 1) (hyphenateAt q buf p) := by
  obtain ⟨l, r, m, rfl, hlen, hle, hp, hs⟩ := h
  match r, hp with
  | [], _ | [_], _ =>
    rw [hyphenateAt, getD_append_zeros (i := p + 1) (by simp; omega),
      if_neg fun h => absurd h.2 (by decide)]
    refine ⟨_, [], m, congrArg (· ++ _) (append_nil _).symm, by simpa using hlen, ?_, .inr rfl,
      by simpa [hyphenated] using hs⟩
    simp
    omega
  | c :: d :: r, .inl rfl =>
    have hc : (l ++ c :: d :: r ++ replicate (m + 1) 0).getD l.length 0 = c := by simp
    have hd : (l ++ c :: d :: r ++ replicate (m + 1) 0).getD (l.length + 1) 0 = d := by simp
    rw [hyphenated] at hs
    rw [hyphenateAt, hc, hd]
    split at hs
    · next hcd =>
      rw [if_pos hcd]
      refine ⟨l ++ [hyphen], r, m + 1, ?_, ?_, by simp, .inl (by simp), by simpa using hs⟩
      · have hset : (l ++ c :: d :: r ++ replicate (m + 1) 0).set l.length hyphen =
            l ++ [hyphen] ++ d :: (r ++ replicate m 0 ++ [0]) := by simp [replicate_succ']
        have hn : q - l.length - 1 = (r ++ replicate m 0).length + 1 := by
          simp at hlen ⊢
          omega
        have hmove := memmove_down (l ++ [hyphen]) d (r ++ replicate m 0) 0
        rw [show (l ++ [hyphen]).length = l.length + 1 from length_append] at hmove
        rw [hset, hn, hmove]
        simp [replicate_succ']
      · simp at hlen ⊢
        omega
    · next hcd =>
      rw [if_neg hcd]
      exact ⟨l ++ [c], d :: r, m, by simp, by simpa using hlen, by simp, .inl (by simp),
        by simpa using hs⟩

/-- **Each pair of underscores becomes a hyphen**, from left to right, and the result is
terminated. -/
theorem strhyphenate_eq (s : Str) :
    (strhyphenate (s.bytes ++ [0])).takeWhile (· ≠ 0) = hyphenated s.bytes := by
  have hq : ((s.bytes ++ [0]).takeWhile (· ≠ 0)).length = s.bytes.length :=
    congrArg length (takeWhile_append_zeros s.nonzero 0)
  have hrun : ∀ p, Compacted s.bytes s.bytes.length p
      ((List.range p).foldl (hyphenateAt s.bytes.length) (s.bytes ++ [0])) := by
    intro p
    induction p with
    | zero => exact ⟨[], s.bytes, 0, rfl, rfl, le_rfl, .inl rfl, rfl⟩
    | succ p ih =>
      rw [range_succ, foldl_append]
      exact ih.step
  obtain ⟨l, r, m, heq, hlen, -, hr, hs⟩ := hrun s.bytes.length
  obtain rfl : r = [] := by
    refine hr.elim (fun hl => length_eq_zero_iff.mp ?_) id
    rw [length_append] at hlen
    omega
  have hl : hyphenated s.bytes = l := by simpa [hyphenated] using hs
  rw [strhyphenate, hq, heq, append_nil, hl]
  exact takeWhile_append_zeros (hl ▸ zero_notMem_hyphenated s.nonzero) m

end DTrace.Link
