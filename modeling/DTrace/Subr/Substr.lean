import DTrace.Lib.StrBuf
import Mathlib.Algebra.Group.Nat.Defs

/-!
# Parts of a string

`dt_substr` of `bpf/substr.S`. The start and the number of characters are sign-extended from 32
bits; the sums after that are of such numbers and of lengths, which do not wrap in a register.
`dtSubstr_right` says which characters are copied: a start before the string cuts the number of
characters, except that with a negative number nothing is left.
-/

namespace DTrace.Subr

open StrBuf

/-- `lsh 32` and `arsh 32` -/
def sext (r : BitVec 64) : Int := ((r <<< 32).sshiftRight 32).toInt

/-- `.Lcopy`: `cnt` is not negative. -/
def substrCopy (strsz : Nat) (dst src : Buf) (idx cnt : Int) : Buf :=
  let r2 := if cnt ≤ strsz then cnt.toNat else strsz
  (probeReadStr dst (shift src idx.toNat) (r2 + 1)).1

/-- `.Lcheck_idx` -/
def substrCheckIdx (strsz : Nat) (dst src : Buf) (len idx cnt : Int) : Buf :=
  if len ≤ idx then stx dst 0 0 1
  else if 0 ≤ cnt then substrCopy strsz dst src idx cnt
  else
    let cnt := cnt + (len - idx)
    if cnt ≤ 0 then stx dst 0 0 1 else substrCopy strsz dst src idx cnt

/-- `dt_substr` -/
def dtSubstr (strsz : Nat) (dst src : Buf) (r3 r4 r5 : BitVec 64) : Buf :=
  let idx := sext r3
  let cnt := if r5 > 2 then sext r4 else strsz
  let (dst, r0) := probeReadStr dst src (strsz + 1)
  if r0 ≤ 1 then stx dst 0 0 1
  else
    let len : Int := r0 - 1
    if 0 ≤ idx then substrCheckIdx strsz dst src len idx cnt
    else
      let idx := idx + len
      if 0 ≤ idx then substrCheckIdx strsz dst src len idx cnt
      else if cnt ≤ 0 - idx then stx dst 0 0 1
      else substrCheckIdx strsz dst src len 0 (cnt + idx)

/-- The characters from `i` to `j`. -/
def slice (s : Str) (i j : Int) : Str := (s.drop i.toNat).take (j.toNat - i.toNat)

/-- The start: a negative one counts from the end. -/
def sliceStart (s : Str) (idx : Int) : Int := if idx < 0 then idx + s.length else idx

/-- The end: a negative number leaves out characters at the end, and all of them if the start is
before the string. -/
def sliceEnd (s : Str) (idx cnt : Int) : Int :=
  if 0 ≤ cnt then sliceStart s idx + cnt else if sliceStart s idx < 0 then 0 else s.length + cnt

theorem sext_eq (r : BitVec 64) : sext r = (r.truncate 32).toInt := by
  rw [sext, BitVec.toInt_sshiftRight, BitVec.toInt_shiftLeft, BitVec.toInt_eq_toNat_bmod,
    BitVec.toNat_setWidth, Int.shiftRight_eq_div_pow]
  simp only [Int.bmod_def]
  omega

section
variable {strsz : Nat} {src dst : Buf} {s : Str}

theorem holds_empty {t : Str} (ht : t.length = 0) (dst : Buf) : Holds (stx dst 0 0 1) t := by
  intro i hi
  obtain rfl : i = 0 := by omega
  rw [Str.get_of_ge (by omega)]
  exact stx_add (j := 0) (by decide)

theorem length_slice (s : Str) (i j : Int) :
    (slice s i j).length = min (j.toNat - i.toNat) (s.length - i.toNat) := by
  rw [slice, Str.length_take, Str.length_drop]

variable (h : Holds src s) (hlen : s.length ≤ strsz) {i j cnt : Int}
include h hlen

theorem substrCopy_holds (dst : Buf) (hi : i.toNat ≤ s.length)
    (hj : min (j.toNat - i.toNat) s.length = min cnt.toNat s.length) :
    Holds (substrCopy strsz dst src i cnt) (slice s i j) := by
  have hcopy := probeReadStr_holds (holds_shift h hi)
    (Nat.succ_ne_zero (if cnt ≤ strsz then cnt.toNat else strsz)) dst
  have heq : slice s i j = (s.drop i.toNat).take (if cnt ≤ strsz then cnt.toNat else strsz) := by
    rw [slice, Str.take, Str.take, Str.mk.injEq, List.take_eq_take_iff]
    have hl : (s.drop i.toNat).bytes.length = s.length - i.toNat := Str.length_drop s _
    rw [hl]
    split <;> omega
  rwa [heq]

theorem substrCheckIdx_holds (dst : Buf) (hi : 0 ≤ i) :
    Holds (substrCheckIdx strsz dst src s.length i cnt)
      (slice s i (if 0 ≤ cnt then i + cnt else s.length + cnt)) := by
  rw [substrCheckIdx]
  by_cases hend : s.length ≤ i
  · rw [if_pos hend]
    exact holds_empty (by rw [length_slice]; omega) dst
  rw [if_neg hend]
  by_cases hcnt : 0 ≤ cnt
  · rw [if_pos hcnt]
    exact substrCopy_holds h hlen dst (by omega) (by omega)
  · rw [if_neg hcnt]
    dsimp only
    split
    · exact holds_empty (by rw [length_slice]; omega) dst
    · exact substrCopy_holds h hlen dst (by omega) (by omega)

/-- **The characters that `substr` copies.** Without a number, it is the size of strings. -/
theorem dtSubstr_right (dst : Buf) (r3 r4 r5 : BitVec 64) :
    let idx := (r3.truncate 32).toInt
    let cnt := if r5 > 2 then (r4.truncate 32).toInt else strsz
    Holds (dtSubstr strsz dst src r3 r4 r5) (slice s (sliceStart s idx) (sliceEnd s idx cnt)) := by
  intro idx cnt
  obtain ⟨b, hread, hb⟩ := probeReadStr_of_lt h (Nat.lt_succ_of_le hlen) dst
  rw [dtSubstr, hread, sext_eq, sext_eq]
  dsimp only
  rw [show (if r5 > 2 then (r4.truncate 32).toInt else (strsz : Int)) = cnt from rfl,
    show (r3.truncate 32).toInt = idx from rfl]
  by_cases h0 : s.length = 0
  · rw [if_pos (by omega)]
    exact holds_empty (by rw [length_slice]; omega) b
  rw [if_neg (by omega), show ((s.length + 1 : Nat) : Int) - 1 = s.length by omega]
  by_cases hidx : 0 ≤ idx
  · have hstart : sliceStart s idx = idx := if_neg (by omega)
    rw [if_pos hidx, sliceEnd, hstart, if_neg (show ¬idx < 0 by omega)]
    exact substrCheckIdx_holds h hlen b hidx
  have hstart : sliceStart s idx = idx + s.length := if_pos (by omega)
  rw [if_neg hidx, sliceEnd, hstart]
  by_cases hle : 0 ≤ idx + s.length
  · rw [if_pos hle, if_neg (show ¬idx + (s.length : Int) < 0 by omega)]
    exact substrCheckIdx_holds h hlen b hle
  rw [if_neg hle]
  by_cases hcnt : cnt ≤ 0 - (idx + s.length)
  · rw [if_pos hcnt]
    exact holds_empty (by rw [length_slice]; split <;> omega) b
  · -- the number is cut, and the start is 0
    have hcheck := @substrCheckIdx_holds _ _ _ h hlen 0 (cnt + (idx + s.length)) b (Int.le_refl 0)
    rw [if_pos (by omega), slice] at hcheck
    rw [if_neg hcnt, if_pos (by omega), slice, show (idx + (s.length : Int)).toNat = 0 by omega,
      Int.add_comm (idx + _) cnt]
    simpa using hcheck

end

def abcdef : Str := ⟨[0x61, 0x62, 0x63, 0x64, 0x65, 0x66], by decide⟩

/-- `substr("abcdef", -10, 7)` is `abc`. -/
theorem substr_abc : Holds abcdef.get abcdef ∧ abcdef.length ≤ 256 ∧
    Holds (dtSubstr 256 (fun _ => 0) abcdef.get (-10) 7 3) (slice abcdef (-4) 3) :=
  ⟨fun _ _ => rfl, by decide,
    dtSubstr_right (fun _ _ => rfl) (by decide) (fun _ => 0) (-10) 7 3⟩

/-- `substr("abcdef", -10, -1)` is empty, and not what is left without the last character; and
`substr("abcdef", -259)` is `abc`, with strings of 256 characters. -/
theorem substr_before_start_empty :
    dtSubstr 256 (fun _ => 0x2e) abcdef.get (-10) (-1) 3 0 = 0 ∧
      (slice abcdef 0 (abcdef.length + -1)).bytes = [0x61, 0x62, 0x63, 0x64, 0x65] ∧
      (List.range 4).map (dtSubstr 256 (fun _ => 0x2e) abcdef.get (-259) 0 2) =
        [0x61, 0x62, 0x63, 0] :=
  ⟨by decide, by decide, by decide⟩

end DTrace.Subr
