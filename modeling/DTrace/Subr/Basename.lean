import DTrace.Lib.StrBuf
import Mathlib.Data.List.DropRight

/-!
# Parts of a path

`dt_basename` of `bpf/basename.S` and `dt_dirname` of `bpf/dirname.S`. Both copy the string and go
back over the copy; a loop is `scanBack`, which ends before the start with -1.

* **`dtBasename_dtDirname_right`** — the outputs are strings, those of POSIX.
-/

namespace DTrace.Subr

open StrBuf List

/-! ## The code -/

/-- The loops: `n--` until it is negative or `p` does not hold of the byte. -/
def scanBack (p : Byte → Bool) (b : Buf) : Nat → Int
  | 0 => -1
  | n + 1 => if p (b n) then scanBack p b n else n

def isSlash (c : Byte) : Bool := c = 0x2f

def isOther (c : Byte) : Bool := !isSlash c

/-- `.Ldot` and `.Lslash` -/
def oneChar (dst : Buf) (c : BitVec 64) : Buf := stx (stx dst 0 c 1) 1 0 1

/-- The start of both, up to the end of the last part; `rest` is the code after the first loop. -/
def lastPart (strsz : Nat) (src dst : Buf) (rest : Buf → Int → Buf) : Buf :=
  let (dst, r0) := probeReadStr dst src (strsz + 1)
  if r0 ≤ 1 then oneChar dst 0x2e
  else
    let len := scanBack isSlash dst (r0 - 1)
    if len < 0 then oneChar dst 0x2f else rest dst len

/-- `dt_basename` -/
def dtBasename (strsz : Nat) (src dst : Buf) : Buf :=
  lastPart strsz src dst fun dst len =>
    let bgn := scanBack isOther dst len.toNat
    let len := if 0 ≤ len - bgn then len - bgn else 0
    (probeReadStr dst (shift src (bgn + 1).toNat) (len.toNat + 1)).1

/-- `dt_dirname` -/
def dtDirname (strsz : Nat) (src dst : Buf) : Buf :=
  lastPart strsz src dst fun dst len =>
    let len := scanBack isOther dst len.toNat
    if len < 0 then oneChar dst 0x2e
    else
      let len := scanBack isSlash dst len.toNat
      if len < 0 then oneChar dst 0x2f else (probeReadStr dst src ((len + 1).toNat + 1)).1

/-! ## POSIX -/

/-- `.` for the empty path and `/` for slashes; slashes at the end are left out. -/
def pathPart (part : List Byte → List Byte) (l : List Byte) : List Byte :=
  if l = [] then [0x2e]
  else if l.rdropWhile isSlash = [] then [0x2f]
  else part (l.rdropWhile isSlash)

def basename : List Byte → List Byte := pathPart fun l => l.rtakeWhile isOther

/-- What is before the last part, without the slashes between both. -/
def dirname : List Byte → List Byte := pathPart fun l =>
  let dir := l.rdropWhile isOther
  if dir = [] then [0x2e]
  else if dir.rdropWhile isSlash = [] then [0x2f]
  else dir.rdropWhile isSlash

/-! ## The loops -/

variable {p : Byte → Bool} {b src : Buf} {s : Str} {l : List Byte}

theorem scanBack_eq (h : ∀ i x, l[i]? = some x → b i = x) :
    scanBack p b l.length = (l.rdropWhile p).length - 1 := by
  induction l using List.reverseRecOn with
  | nil => rfl
  | append_singleton l x ih =>
    have hx : b l.length = x := h _ _ (by simp)
    rw [length_append, length_singleton, scanBack, hx, rdropWhile_concat]
    split
    · exact ih fun i y hy => h i y (by rw [getElem?_append_left, hy]; grind)
    · simp

theorem bytes_of_holds (h : Holds b s) (hl : l <+: s.bytes) (i : Nat) (x : Byte)
    (hx : l[i]? = some x) : b i = x := by
  obtain ⟨w, hw⟩ := hl
  have hi := (List.getElem?_eq_some_iff.mp hx).1
  have hlen : s.length = l.length + w.length := by rw [Str.length, ← hw, length_append]
  rw [h i (by omega), Str.get, ← hw, getD_eq_getElem?_getD, getElem?_append_left hi, hx,
    Option.getD_some]

/-- A loop that starts at the last byte of a part, for which `p` holds. -/
theorem scanBack_last (h : Holds b s) (hpre : l <+: s.bytes) (hl : l ≠ []) (hp : p (l.getLast hl)) :
    scanBack p b ((l.length : Int) - 1).toNat = (l.rdropWhile p).length - 1 := by
  obtain ⟨n, hn⟩ := Nat.exists_eq_add_one_of_ne_zero (length_pos_iff.mpr hl).ne'
  have hlast : b n = l.getLast hl :=
    bytes_of_holds h hpre _ _ (by rw [getLast_eq_getElem]; grind)
  rw [← scanBack_eq (bytes_of_holds h hpre), hn, scanBack, hlast, if_pos hp]
  congr 1
  omega

theorem oneChar_holds (dst : Buf) (c : BitVec 64) (hc : c.truncate 8 ≠ (0 : Byte)) :
    ∃ t : Str, t.bytes = [c.truncate 8] ∧ Holds (oneChar dst c) t := by
  have hw : Wrote 1 dst 0 [c.truncate 8] (stx dst 0 c 1) := .stx dst rfl Nat.one_pos
  exact ⟨⟨[c.truncate 8], by simpa using hc.symm⟩, rfl, hw.holds⟩

/-! ## The outputs -/

section
variable {strsz : Nat} (h : Holds src s) (hlen : s.length ≤ strsz) (dst : Buf)
include h hlen

/-- The rest of the code starts at the end of the last part. -/
theorem lastPart_holds {part : List Byte → List Byte} {rest : Buf → Int → Buf}
    (hrest : ∀ b l, Holds b s → l <+: s.bytes → ∀ hl : l ≠ [], isOther (l.getLast hl) = true →
      ∃ t : Str, t.bytes = part l ∧ Holds (rest b (l.length - 1)) t) :
    ∃ t : Str, t.bytes = pathPart part s.bytes ∧ Holds (lastPart strsz src dst rest) t := by
  obtain ⟨b, hread, hb⟩ := probeReadStr_of_lt h (Nat.lt_succ_of_le hlen) dst
  have hend : scanBack isSlash b s.length = _ :=
    scanBack_eq (bytes_of_holds hb (prefix_refl s.bytes))
  rw [lastPart, hread, pathPart]
  dsimp only
  rw [Nat.add_sub_cancel, hend]
  by_cases h0 : s.bytes = []
  · rw [if_pos h0, if_pos (by rw [Str.length, h0]; decide)]
    exact oneChar_holds b 0x2e (by decide)
  have hpos : 0 < s.length := length_pos_iff.mpr h0
  rw [if_neg h0, if_neg (show ¬s.length + 1 ≤ 1 by omega)]
  by_cases hl : s.bytes.rdropWhile isSlash = []
  · rw [hl]
    exact oneChar_holds b 0x2f (by decide)
  have hpos := length_pos_iff.mpr hl
  rw [if_neg hl, if_neg (by omega)]
  have hpre : s.bytes.rdropWhile isSlash <+: s.bytes := rdropWhile_prefix ..
  refine hrest b _ hb hpre hl ?_
  simpa [isOther] using rdropWhile_last_not isSlash s.bytes hl

theorem dtBasename_holds :
    ∃ t : Str, t.bytes = basename s.bytes ∧ Holds (dtBasename strsz src dst) t := by
  refine lastPart_holds h hlen dst fun b l hb hpre hl hlast => ?_
  dsimp only
  rw [scanBack_last hb hpre hl hlast]
  -- what is copied is between both ends
  have hsplit := @rdropWhile_append_rtakeWhile _ isOther l
  generalize l.rdropWhile isOther = u at hsplit
  generalize l.rtakeWhile isOther = r at hsplit
  obtain ⟨w, hw⟩ := hpre
  rw [← hsplit] at hw
  rw [← hsplit, length_append, if_pos (by omega),
    show ((u.length : Int) - 1 + 1).toNat = u.length by omega,
    show (((u.length + r.length : Nat) : Int) - 1 - (u.length - 1)).toNat = r.length by omega]
  refine ⟨(s.drop u.length).take r.length, by simp [Str.take, Str.drop, ← hw], ?_⟩
  exact probeReadStr_holds (holds_shift h (by simp [Str.length, ← hw])) (Nat.succ_ne_zero _) b

theorem dtDirname_holds :
    ∃ t : Str, t.bytes = dirname s.bytes ∧ Holds (dtDirname strsz src dst) t := by
  refine lastPart_holds h hlen dst fun b l hb hpre hl hlast => ?_
  rw [scanBack_last hb hpre hl hlast]
  have hdrop : l.rdropWhile isOther <+: l := rdropWhile_prefix isOther l
  have hpre := hdrop.trans hpre
  have hlast := rdropWhile_last_not isOther l
  generalize l.rdropWhile isOther = u at hpre hlast
  by_cases hu : u = []
  · subst hu
    exact oneChar_holds b 0x2e (by decide)
  have hpos := length_pos_iff.mpr hu
  rw [if_neg hu, if_neg (show ¬(u.length : Int) - 1 < 0 by omega),
    scanBack_last hb hpre hu (by simpa [isOther] using hlast hu)]
  have hdrop' : u.rdropWhile isSlash <+: u := rdropWhile_prefix isSlash u
  have hpre := hdrop'.trans hpre
  generalize u.rdropWhile isSlash = v at hpre
  by_cases hv : v = []
  · subst hv
    exact oneChar_holds b 0x2f (by decide)
  have hpos := length_pos_iff.mpr hv
  rw [if_neg hv, if_neg (by omega),
    show ((v.length : Int) - 1 + 1).toNat = v.length by omega]
  exact ⟨s.take v.length, (prefix_iff_eq_take.mp hpre).symm,
    probeReadStr_holds h (Nat.succ_ne_zero _) b⟩

/-- **The outputs are those of POSIX**, with their terminators. -/
theorem dtBasename_dtDirname_right :
    (∃ t : Str, t.bytes = basename s.bytes ∧ Holds (dtBasename strsz src dst) t) ∧
      ∃ t : Str, t.bytes = dirname s.bytes ∧ Holds (dtDirname strsz src dst) t :=
  ⟨dtBasename_holds h hlen dst, dtDirname_holds h hlen dst⟩

end

/-- `//a//b/` -/
def somePath : Str := ⟨[0x2f, 0x2f, 0x61, 0x2f, 0x2f, 0x62, 0x2f], by decide⟩

/-- Its parts are `b` and `//a`. -/
theorem parts_of_path :
    (∃ t : Str, t.bytes = [0x62] ∧ Holds (dtBasename 256 somePath.get fun _ => 0) t) ∧
      ∃ t : Str, t.bytes = [0x2f, 0x2f, 0x61] ∧ Holds (dtDirname 256 somePath.get fun _ => 0) t :=
  dtBasename_dtDirname_right (s := somePath) (fun _ _ => rfl) (by decide) fun _ => 0

end DTrace.Subr
