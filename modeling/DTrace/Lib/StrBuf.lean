import Mathlib.Data.List.GetD
import Mathlib.Data.Nat.Find
import Mathlib.Logic.Function.Basic

/-!
# Strings in buffers

A buffer is a function from offsets to bytes: nothing is known about what lies behind a string.
Loads and stores of words are little-endian. `Str` is a string without its terminator, and
`Str.get` gives the terminator at every position behind the end, which makes a string in a
buffer, `Holds`, one equation per position. Strings are ordered by their first difference.
-/

namespace StrBuf

open List BitVec

abbrev Byte := BitVec 8

/-- The byte at each offset. -/
abbrev Buf := Nat → Byte

/-- The buffer from an offset on. -/
def shift (b : Buf) (off : Nat) : Buf := fun i => b (off + i)

@[simp] theorem shift_apply (b : Buf) (off i : Nat) : shift b off i = b (off + i) := rfl

/-! ## Words -/

/-- A load of `n` bytes. -/
def ldx (b : Buf) (off : Nat) : Nat → BitVec 64
  | 0 => 0
  | n + 1 => (b off).zeroExtend 64 ||| (ldx b (off + 1) n <<< 8)

/-- A store of `n` bytes. -/
def stx (b : Buf) (off : Nat) (v : BitVec 64) : Nat → Buf
  | 0 => b
  | n + 1 => stx (Function.update b off (v.truncate 8)) (off + 1) (v >>> 8) n

variable {b : Buf} {off n : Nat} {v : BitVec 64} {src : Buf}

variable {i size : Nat}

theorem stx_of_lt (h : i < off) : stx b off v n i = b i := by
  induction n generalizing b off v with
  | zero => rfl
  | succ n ih => rw [stx, ih (by omega), Function.update_of_ne (by omega)]

theorem stx_of_ge (h : off + n ≤ i) : stx b off v n i = b i := by
  induction n generalizing b off v with
  | zero => rfl
  | succ n ih => rw [stx, ih (by omega), Function.update_of_ne (by omega)]

theorem stx_add {j : Nat} (h : j < n) : stx b off v n (off + j) = (v >>> (8 * j)).truncate 8 := by
  induction n generalizing b off v j with
  | zero => omega
  | succ n ih =>
    rw [stx]
    cases j with
    | zero =>
      rw [stx_of_lt (by omega), Nat.add_zero, Function.update_self]
      rfl
    | succ j =>
      rw [show off + (j + 1) = off + 1 + j by omega, ih (by omega), ← shiftRight_add,
        show 8 + 8 * j = 8 * (j + 1) by omega]

/-- The bytes of a word that was loaded. -/
theorem truncate_ldx {j : Nat} (hj : j < n) (hn : n ≤ 8) :
    (ldx b off n >>> (8 * j)).truncate 8 = b (off + j) := by
  induction n generalizing off j with
  | zero => omega
  | succ n ih =>
    cases j with
    | zero =>
      apply eq_of_getLsbD_eq
      intro i hi
      simp [ldx]
    | succ j =>
      rw [← show off + 1 + j = off + (j + 1) by omega, ← @ih (off + 1) j (by omega) (by omega)]
      apply eq_of_getLsbD_eq
      intro i hi
      have hge : ((b off).zeroExtend 64).getLsbD (8 * (j + 1) + i) = false := by
        rw [getLsbD_setWidth,
          getLsbD_of_ge _ _ (by omega), Bool.and_false]
      simp [ldx, hi, hge,
        show 8 * (j + 1) + i - 8 = 8 * j + i by omega]
      omega

theorem ldx_congr {c : Buf} (h : ∀ j < n, b (off + j) = c (off + j)) :
    ldx b off n = ldx c off n := by
  induction n generalizing off with
  | zero => rfl
  | succ n ih =>
    rw [ldx, ldx, show b off = c off from h 0 (by omega), ih fun j hj => ?_]
    rw [Nat.add_assoc, Nat.add_comm 1 j]
    exact h (j + 1) (by omega)

/-- Words are equal if their bytes are. -/
theorem ldx_eq_iff {c : Buf} (hn : n ≤ 8) :
    ldx b off n = ldx c off n ↔ ∀ j < n, b (off + j) = c (off + j) :=
  ⟨fun h j hj => by rw [← truncate_ldx (b := b) hj hn, h, truncate_ldx hj hn], ldx_congr⟩

/-- The highest bit of a word is that of its last byte. -/
theorem msb_ldx (b : Buf) (off : Nat) : (ldx b off 8).msb = (b (off + 7)).msb := by
  rw [← truncate_ldx (b := b) (by omega) le_rfl, msb_eq_getLsbD_last,
    msb_eq_getLsbD_last]
  simp

/-- A single byte. -/
theorem ldx_one (b : Buf) (i : Nat) : ldx b i 1 = (b i).zeroExtend 64 := by
  simp [ldx]

theorem toNat_ldx_two (b : Buf) (i : Nat) :
    (ldx b i 2).toNat = (b i).toNat + 256 * (b (i + 1)).toNat := by
  have h0 := (b i).isLt
  have hshift : (b (i + 1)).toNat <<< 8 = 256 * (b (i + 1)).toNat := by
    rw [Nat.shiftLeft_eq, Nat.mul_comm]
  have hor := Nat.shiftLeft_add_eq_or_of_lt h0 (b (i + 1)).toNat
  rw [ldx, ldx_one, toNat_or, toNat_shiftLeft, toNat_setWidth, toNat_setWidth,
    Nat.mod_eq_of_lt (by omega),
    Nat.mod_eq_of_lt (show (b (i + 1)).toNat < 2 ^ 64 by omega), hshift,
    Nat.mod_eq_of_lt (by omega), ← hshift, Nat.or_comm]
  omega

/-- A word of two bytes that was stored is loaded. -/
theorem ldx_stx_two (b : Buf) (i : Nat) (hv : v.toNat < 65536) : ldx (stx b i v 2) i 2 = v := by
  apply eq_of_toNat_eq
  rw [toNat_ldx_two, show stx b i v 2 i = stx b i v 2 (i + 0) from rfl, stx_add (by decide),
    stx_add (by decide)]
  simp only [toNat_setWidth, toNat_ushiftRight]
  omega

/-- An operation on words that works on each byte. -/
theorem stx_bytewise {f : Nat → Byte → Byte}
    (hv : ∀ j < n, (v >>> (8 * j)).truncate 8 = f (off + j) (b (off + j))) :
    stx b off v n i = if off ≤ i ∧ i < off + n then f i (b i) else b i := by
  by_cases hlt : i < off
  · rw [stx_of_lt hlt, if_neg (by omega)]
  by_cases hge : off + n ≤ i
  · rw [stx_of_ge hge, if_neg (by omega)]
  obtain ⟨j, rfl⟩ := Nat.exists_eq_add_of_le (Nat.not_lt.mp hlt)
  rw [if_pos (by omega), stx_add (by omega), hv j (by omega)]

/-! ## Strings -/

/-- A string without its terminator. -/
structure Str where
  bytes : List Byte
  nonzero : (0 : Byte) ∉ bytes
  deriving DecidableEq

namespace Str

def length (s : Str) : Nat := s.bytes.length

/-- The byte at a position, with the terminator at every position behind the end. -/
def get (s : Str) (i : Nat) : Byte := s.bytes.getD i 0

variable {s : Str} {i : Nat} {t : Str}

theorem get_of_ge (h : s.length ≤ i) : s.get i = 0 :=
  getD_eq_default _ _ h

theorem get_ne_zero (h : i < s.length) : s.get i ≠ 0 := by
  rw [get, getD_eq_getElem _ _ h]
  exact fun h0 => s.nonzero (h0 ▸ getElem_mem h)

theorem get_eq_zero_iff : s.get i = 0 ↔ s.length ≤ i :=
  ⟨fun h => Nat.not_lt.mp fun hlt => get_ne_zero hlt h, get_of_ge⟩

theorem mem_bytes_iff {b : Byte} : b ∈ s.bytes ↔ ∃ i < s.length, b = s.get i := by
  rw [mem_iff_getElem]
  constructor
  · rintro ⟨i, hi, rfl⟩
    exact ⟨i, hi, (getD_eq_getElem _ _ hi).symm⟩
  · rintro ⟨i, hi, rfl⟩
    exact ⟨i, hi, (getD_eq_getElem _ _ hi).symm⟩

theorem ext_get (h : ∀ i, s.get i = t.get i) : s = t := by
  have hlen : s.length = t.length := by
    apply Nat.le_antisymm
    · exact get_eq_zero_iff.mp ((h _).trans (get_of_ge le_rfl))
    · exact get_eq_zero_iff.mp ((h _).symm.trans (get_of_ge le_rfl))
  obtain ⟨sb, _⟩ := s
  obtain ⟨tb, _⟩ := t
  obtain rfl : sb = tb := by
    refine ext_getElem hlen fun i h1 h2 => ?_
    have := h i
    rwa [get, get, getD_eq_getElem _ _ h1, getD_eq_getElem _ _ h2] at this
  rfl

/-- The first `n` characters. -/
def take (s : Str) (n : Nat) : Str := ⟨s.bytes.take n, fun h => s.nonzero (mem_of_mem_take h)⟩

theorem length_take (s : Str) (n : Nat) : (s.take n).length = min n s.length := List.length_take

theorem get_take (s : Str) {n : Nat} (h : i < n) : (s.take n).get i = s.get i := by
  simp [take, get, h]

theorem take_of_le {n : Nat} (h : s.length ≤ n) : s.take n = s := by
  simp only [take, take_of_length_le h]

/-- The string from a position on. -/
def drop (s : Str) (n : Nat) : Str := ⟨s.bytes.drop n, fun h => s.nonzero (mem_of_mem_drop h)⟩

theorem length_drop (s : Str) (n : Nat) : (s.drop n).length = s.length - n := List.length_drop

theorem get_drop (s : Str) (n i : Nat) : (s.drop n).get i = s.get (n + i) := by
  simp [drop, get]

theorem get_eq_of_take_eq {n : Nat} (h : s.take n = t.take n) (hi : i < n) : s.get i = t.get i := by
  rw [← get_take s hi, ← get_take t hi, h]

/-- Strings that agree as far as one of them goes are equal. -/
theorem eq_of_take_eq {n : Nat} (h : s.take n = t.take n) (hn : s.length < n) : s = t := by
  have hlen : t.length ≤ s.length := by
    rw [← get_eq_zero_iff, ← get_eq_of_take_eq h hn, get_of_ge le_rfl]
  refine ext_get fun i => ?_
  by_cases hi : i < n
  · exact get_eq_of_take_eq h hi
  · rw [get_of_ge (by omega), get_of_ge (by omega)]

/-! ### Order -/

/-- `-1`, `0` or `1` in the lexicographic order of unsigned bytes. -/
def compare (s t : Str) : Int :=
  if s.bytes < t.bytes then -1 else if s = t then 0 else 1

variable {d : Nat}

/-- The first difference decides. -/
theorem lt_iff_of_first_diff {s t : List Byte} (hs : (0 : Byte) ∉ s) (ht : (0 : Byte) ∉ t)
    (hpre : ∀ i < d, s.getD i 0 = t.getD i 0) (hd : s.getD d 0 ≠ t.getD d 0) :
    s < t ↔ s.getD d 0 < t.getD d 0 := by
  induction d generalizing s t with
  | zero =>
    cases s with
    | nil =>
      cases t with
      | nil => exact absurd rfl hd
      | cons b t =>
        have hb : b ≠ 0 := fun h => ht (h ▸ mem_cons_self)
        have hlt : (0) < b := by bv_omega
        simpa using hlt
    | cons a s =>
      cases t with
      | nil => simp
      | cons b t =>
        have hab : a ≠ b := by simpa using hd
        simp [cons_lt_cons_iff, hab]
  | succ d ih =>
    have h0 := hpre 0 (by omega)
    cases s with
    | nil =>
      cases t with
      | nil => exact absurd rfl hd
      | cons b t => exact absurd (show b = 0 from h0.symm) fun h => ht (h ▸ mem_cons_self)
    | cons a s =>
      cases t with
      | nil => exact absurd (show a = 0 from h0) fun h => hs (h ▸ mem_cons_self)
      | cons b t =>
        obtain rfl : a = b := h0
        have := ih (fun h => hs (mem_cons_of_mem _ h)) (fun h => ht (mem_cons_of_mem _ h))
          (fun i hi => hpre (i + 1) (by omega)) hd
        simpa [cons_lt_cons_iff] using this

theorem compare_self (s : Str) : compare s s = 0 := by
  simp [compare]

theorem compare_of_first_diff (hpre : ∀ i < d, s.get i = t.get i) (hd : s.get d ≠ t.get d) :
    compare s t = if s.get d < t.get d then -1 else 1 := by
  have hne : s ≠ t := fun h => hd (h ▸ rfl)
  rw [compare, if_neg hne, if_congr (lt_iff_of_first_diff s.nonzero t.nonzero hpre hd) rfl rfl]
  rfl

/-- The greater string has the greater byte at the first difference. -/
theorem gt_iff_of_first_diff (hpre : ∀ i < d, s.get i = t.get i) (hd : s.get d ≠ t.get d) :
    t.bytes < s.bytes ↔ t.get d < s.get d :=
  lt_iff_of_first_diff t.nonzero s.nonzero (fun i hi => (hpre i hi).symm) hd.symm

/-- Different strings have a first difference. -/
theorem exists_first_diff (h : s ≠ t) : ∃ d, s.get d ≠ t.get d ∧ ∀ i < d, s.get i = t.get i := by
  have hex : ∃ d, s.get d ≠ t.get d := by
    by_contra hall
    exact h (ext_get fun i => not_not.mp fun hi => hall ⟨i, hi⟩)
  exact ⟨Nat.find hex, Nat.find_spec hex, fun i hi => not_not.mp (Nat.find_min hex hi)⟩

/-- It is not behind the end of either. -/
theorem first_diff_le (hpre : ∀ i < d, s.get i = t.get i) (hd : s.get d ≠ t.get d) :
    d ≤ s.length ∧ d ≤ t.length := by
  constructor
  · by_contra hlt
    have ht := (hpre s.length (by omega)).symm.trans (get_of_ge le_rfl)
    have := get_eq_zero_iff.mp ht
    exact hd (by rw [get_of_ge (by omega), get_of_ge (by omega)])
  · by_contra hlt
    have hs := (hpre t.length (by omega)).trans (get_of_ge le_rfl)
    have := get_eq_zero_iff.mp hs
    exact hd (by rw [get_of_ge (by omega), get_of_ge (by omega)])

end Str

/-- The buffer has the string and its terminator. -/
def Holds (b : Buf) (s : Str) : Prop := ∀ i ≤ s.length, b i = s.get i

variable {s : Str}

theorem holds_shift (h : Holds b s) (hn : n ≤ s.length) : Holds (shift b n) (s.drop n) := by
  intro i hi
  rw [Str.length_drop] at hi
  rw [shift_apply, h _ (by omega), Str.get_drop]

/-! ## Copying strings -/

/-- The number of bytes before the first terminator, at most `n`. -/
def strnlen (b : Buf) : Nat → Nat
  | 0 => 0
  | n + 1 => if b 0 = 0 then 0 else strnlen (shift b 1) n + 1

/-- The first terminator, or the bound. -/
theorem strnlen_eq {k : Nat} (hk : k ≤ n) (hne : ∀ i < k, b i ≠ 0) (hend : k = n ∨ b k = 0) :
    strnlen b n = k := by
  induction n generalizing b k with
  | zero =>
    obtain rfl : k = 0 := by omega
    rfl
  | succ n ih =>
    unfold strnlen
    cases k with
    | zero =>
      have h0 : b 0 = 0 := hend.resolve_left (by omega)
      rw [if_pos h0]
    | succ k =>
      have htail : strnlen (shift b 1) n = k := by
        refine ih (by omega) (fun i hi => ?_) ?_
        · rw [shift_apply, Nat.add_comm]
          exact hne (i + 1) (by omega)
        · rw [shift_apply, Nat.add_comm]
          exact hend.imp_left (by omega)
      rw [if_neg (hne 0 (by omega)), htail]

theorem le_strnlen {k : Nat} (hk : k ≤ n) (hne : ∀ i < k, b i ≠ 0) : k ≤ strnlen b n := by
  induction n generalizing b k with
  | zero => omega
  | succ n ih =>
    unfold strnlen
    cases k with
    | zero => exact Nat.zero_le _
    | succ k =>
      rw [if_neg (hne 0 (by omega))]
      refine Nat.succ_le_succ (ih (by omega) fun i hi => ?_)
      rw [shift_apply, Nat.add_comm]
      exact hne (i + 1) (by omega)

theorem strnlen_of_holds (h : Holds b s) (n : Nat) : strnlen b n = min s.length n := by
  refine strnlen_eq (by omega) (fun i hi => ?_) ?_
  · rw [h i (by omega)]
    exact Str.get_ne_zero (by omega)
  · by_cases hle : s.length < n
    · right
      rw [Nat.min_eq_left (by omega), h _ le_rfl, Str.get_of_ge le_rfl]
    · left
      omega

/-- The bytes for which a test holds, up to the first for which it does not. -/
theorem strnlen_eq_takeWhile {α : Type*} {p : α → Bool} {l : List α}
    (h : ∀ i x, l[i]? = some x → (b i = 0 ↔ p x = false)) (hn : l.length ≤ n)
    (hend : b l.length = 0 ∨ ∃ x ∈ l, p x = false) : strnlen b n = (l.takeWhile p).length := by
  induction l generalizing b n with
  | nil =>
    have h0 : b 0 = 0 := hend.resolve_right (by simp)
    exact strnlen_eq (Nat.zero_le _) nofun (.inr h0)
  | cons x l ih =>
    obtain ⟨n, rfl⟩ : ∃ m, n = m + 1 := ⟨n - 1, by simp at hn; omega⟩
    have hx := h 0 x rfl
    unfold strnlen
    cases hp : p x with
    | false => rw [if_pos (hx.mpr hp), takeWhile_cons_of_neg (by simp [hp])]; rfl
    | true =>
      rw [if_neg (hx.not.mpr (by simp [hp])), takeWhile_cons_of_pos hp]
      refine congrArg (· + 1) (ih (fun i y hy => ?_) (by simpa using hn) ?_)
      · rw [shift_apply, Nat.add_comm]
        exact h (i + 1) y hy
      · rw [shift_apply, Nat.add_comm]
        refine hend.imp_right fun ⟨y, hy, hpy⟩ => ?_
        rcases mem_cons.mp hy with rfl | hy
        · rw [hp] at hpy
          cases hpy
        · exact ⟨y, hy, hpy⟩

/-- The string at the start of a buffer. -/
def text (b : Buf) (n : Nat) : List Byte := (List.range (strnlen b n)).map b

theorem text_of_holds (h : Holds b s) (hn : s.length ≤ n) : text b n = s.bytes := by
  rw [text, strnlen_of_holds h, Nat.min_eq_left hn]
  refine ext_getElem (by simp [Str.length]) fun i h1 h2 => ?_
  simp only [getElem_map, getElem_range]
  have hi : i < s.bytes.length := h2
  rw [h i (Nat.le_of_lt hi), Str.get, getD_eq_getElem _ _ hi]

/-- `bpf_probe_read_str`: at most `size` bytes with the terminator. The result counts it. -/
def probeReadStr (dst src : Buf) (size : Nat) : Buf × Nat :=
  if size = 0 then (dst, 0)
  else
    let len := strnlen src (size - 1)
    (fun i => if i < len then src i else if i = len then 0 else dst i, len + 1)

/-- `bpf_probe_read` -/
def probeRead (dst : Buf) (len : Nat) (src : Buf) : Buf := fun i => if i < len then src i else dst i

/-- `bpf_probe_read` to an offset of the destination. -/
def probeReadAt (dst : Buf) (off len : Nat) (src : Buf) : Buf := fun i =>
  if off ≤ i ∧ i < off + len then src (i - off) else dst i

theorem probeReadStr_snd (h : Holds src s) (hsize : size ≠ 0) (dst : Buf) :
    (probeReadStr dst src size).2 = min s.length (size - 1) + 1 := by
  rw [probeReadStr, if_neg hsize, strnlen_of_holds h]

/-- The copy is the string, cut to the size. -/
theorem probeReadStr_holds (h : Holds src s) (hsize : size ≠ 0) (dst : Buf) :
    Holds (probeReadStr dst src size).1 (s.take (size - 1)) := by
  intro i hi
  rw [Str.length_take] at hi
  rw [probeReadStr, if_neg hsize, strnlen_of_holds h]
  simp only
  by_cases hlt : i < min s.length (size - 1)
  · rw [if_pos hlt, h i (by omega), Str.get_take _ (by omega)]
  · rw [if_neg hlt, if_pos (by omega), Str.get_of_ge]
    rw [Str.length_take]
    omega

/-- A string that fits is copied whole. -/
theorem probeReadStr_of_lt (h : Holds src s) (hlen : s.length < size) (dst : Buf) :
    ∃ b, probeReadStr dst src size = (b, s.length + 1) ∧ Holds b s := by
  have hsize : size ≠ 0 := by omega
  refine ⟨(probeReadStr dst src size).1, Prod.ext rfl ?_, ?_⟩
  · rw [probeReadStr_snd h hsize, Nat.min_eq_left (by omega)]
  · have hcopy := probeReadStr_holds h hsize dst
    rwa [Str.take_of_le (by omega)] at hcopy

/-- A part of a string, copied and terminated. -/
theorem holds_probeRead_stx (h : Holds src s) (hn : off + n ≤ s.length) (dst : Buf) :
    Holds (stx (probeRead dst n (shift src off)) n 0 1) ((s.drop off).take n) := by
  intro i hi
  have hlen : ((s.drop off).take n).length = n := by
    rw [Str.length_take, Str.length_drop]
    omega
  by_cases hlt : i < n
  · rw [stx_of_lt hlt, probeRead, if_pos hlt, shift_apply, h _ (by omega), Str.get_take _ hlt,
      Str.get_drop]
  · obtain rfl : i = n := by omega
    rw [Str.get_of_ge (by omega)]
    exact stx_add (j := 0) (by decide)

/-! ## Writing text

Code that writes a text piece by piece may write more than it keeps, below some limit. -/

/-- `t` was written at `off`; what stands before it and from `lim` on is as it was. -/
structure Wrote (lim : Nat) (b : Buf) (off : Nat) (t : List Byte) (b' : Buf) : Prop where
  before : ∀ i < off, b' i = b i
  bytes : ∀ i x, t[i]? = some x → b' (off + i) = x
  behind : ∀ i, lim ≤ i → b' i = b i

namespace Wrote

variable {lim off : Nat} {b b' b'' : Buf} {t t' : List Byte}

theorem nil (b : Buf) (lim off : Nat) : Wrote lim b off [] b :=
  ⟨fun _ _ => rfl, fun _ _ h => by simp at h, fun _ _ => rfl⟩

theorem append (h : Wrote lim b off t b') (h' : Wrote lim b' (off + t.length) t' b'') :
    Wrote lim b off (t ++ t') b'' := by
  refine ⟨fun i hi => ?_, fun i x hx => ?_, fun i hi => ?_⟩
  · rw [h'.before i (by omega), h.before i hi]
  · by_cases hlt : i < t.length
    · rw [getElem?_append_left hlt] at hx
      rw [h'.before _ (by omega), h.bytes i x hx]
    · rw [getElem?_append_right (by omega)] at hx
      rw [show off + i = off + t.length + (i - t.length) by omega, h'.bytes _ x hx]
  · rw [h'.behind i hi, h.behind i hi]

theorem append_of_eq {off' : Nat} (h : Wrote lim b off t b') (he : off' = off + t.length)
    (h' : Wrote lim b' off' t' b'') : Wrote lim b off (t ++ t') b'' := by
  subst he
  exact h.append h'

/-- What was written is there in parts, too. -/
theorem of_append (h : Wrote lim b off (t ++ t') b') : Wrote lim b off t b' := by
  refine ⟨h.before, fun i x hx => h.bytes i x ?_, h.behind⟩
  rw [getElem?_append_left (List.getElem?_eq_some_iff.mp hx).1, hx]

/-- One byte. -/
theorem stx (b : Buf) {v : BitVec 64} {x : Byte} (hv : v.truncate 8 = x) (hlim : off < lim) :
    Wrote lim b off [x] (StrBuf.stx b off v 1) := by
  refine ⟨fun i hi => stx_of_lt hi, fun i y hy => ?_, fun i hi => stx_of_ge (by omega)⟩
  obtain ⟨hlt, rfl⟩ := List.getElem?_eq_some_iff.mp hy
  obtain rfl : i = 0 := by simpa using hlt
  rw [stx_add (by decide)]
  exact hv

/-- A text with its terminator is a string. -/
theorem holds {s : Str} (h : Wrote lim b 0 s.bytes b') :
    Holds (StrBuf.stx b' s.length 0 1) s := by
  intro i hi
  by_cases hlt : i < s.length
  · rw [stx_of_lt hlt, Str.get, getD_eq_getElem _ _ hlt]
    have := h.bytes i _ (getElem?_eq_getElem hlt)
    rwa [Nat.zero_add] at this
  · obtain rfl : i = s.length := by omega
    rw [Str.get_of_ge le_rfl]
    exact stx_add (j := 0) (by decide)

end Wrote

end StrBuf
