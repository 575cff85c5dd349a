import DTrace.Lib.Ipv6
import Mathlib.Algebra.Group.Nat.Defs

/-!
# IPv6 addresses as text

`write_hex16` and `dt_inet_ntoa6` of `bpf/inet_ntoa6.S`, with `dt_inet_ntoa` of
`bpf/inet_ntoa.S` for the addresses that have an IPv4 address in them and the table of
`dt_cg_subr_inet_ntoa6`, which gives the longest run of zero words for every set of words that
are not zero. The destination also has the copies of the address, behind the text: the code
writes characters that it overwrites later, and none of them may reach the copies.

The number of characters `dt_inet_ntoa` writes is limited by the size of strings, the other text
is not.
-/

namespace DTrace.Subr

open Nat

open StrBuf Ipv6 List
open BitVec hiding append_assoc not_and not_or or_assoc

/-! ## The code -/

structure HexState where
  buf : Buf
  r0 : BitVec 64
  r2 : Nat
  r3 : BitVec 64

/-- `WRITE_DIGIT n` -/
def writeDigit (n : Nat) (r1 : BitVec 64) (st : HexState) : HexState :=
  let r3 := (r1 >>> (4 * (3 - n))) &&& 0xf
  let r4 := (-(r3 - 9)) >>> 63
  let r4 := r4 * (0x61 - 0x30 - 10) + 0x30 + r3
  let buf := stx st.buf st.r2 r4 1
  let r3 := (-(r3 + st.r0)) >>> 63
  { buf, r0 := st.r0 + r3, r2 := st.r2 + r3.toNat, r3 }

/-- `write_hex16`: the number of characters that count. -/
def writeHex16 (r1 : BitVec 64) (buf : Buf) (r2 : Nat) : Buf × Nat :=
  let st := writeDigit 0 r1 { buf, r0 := 0, r2, r3 := 0 }
  let st := writeDigit 1 r1 st
  let st := writeDigit 2 r1 st
  let st := writeDigit 3 r1 st
  (st.buf, (st.r0 + ((st.r3 ^^^ 1) &&& 1)).toNat)

/-- `dt_inet_ntoa_write_uint8`, from `base` on. -/
def dtInetNtoaWriteUint8 (strsz inp : Nat) (dst : Buf) (base off : Nat) : Buf × Nat :=
  if strsz ≤ off then (dst, off)
  else
    let dig := inp / 100
    let nzr := dig
    let dst := stx dst (base + off) (BitVec.ofNat 64 (dig + 0x30)) 1
    let off := if nzr = 0 then off else off + 1
    if strsz ≤ off then (dst, off)
    else
      let inp := inp - dig * 100
      let dig := inp / 10
      let nzr := nzr + dig
      let dst := stx dst (base + off) (BitVec.ofNat 64 (dig + 0x30)) 1
      let off := if nzr = 0 then off else off + 1
      if strsz ≤ off then (dst, off)
      else
        let inp := inp - dig * 10
        (stx dst (base + off) (BitVec.ofNat 64 (inp + 0x30)) 1, off + 1)

/-- `dt_inet_ntoa`, to `base`. -/
def dtInetNtoa (strsz : Nat) (src dst : Buf) (base : Nat) : Buf :=
  let (dst, r0) := dtInetNtoaWriteUint8 strsz (src 0).toNat dst base 0
  if strsz ≤ r0 then stx dst (base + r0) 0 1
  else
    let dst := stx dst (base + r0) 0x2e 1
    let (dst, r0) := dtInetNtoaWriteUint8 strsz (src 1).toNat dst base (r0 + 1)
    if strsz ≤ r0 then stx dst (base + r0) 0 1
    else
      let dst := stx dst (base + r0) 0x2e 1
      let (dst, r0) := dtInetNtoaWriteUint8 strsz (src 2).toNat dst base (r0 + 1)
      if strsz ≤ r0 then stx dst (base + r0) 0 1
      else
        let dst := stx dst (base + r0) 0x2e 1
        let (dst, r0) := dtInetNtoaWriteUint8 strsz (src 3).toNat dst base (r0 + 1)
        stx dst (base + r0) 0 1

/-- `endbe 16`, on a little-endian machine. -/
def endbe16 (r : BitVec 64) : BitVec 64 := ((r &&& 0xff) <<< 8) ||| ((r >>> 8) &&& 0xff)

/-- `GETWORD n`: the buffer and the bitmap. -/
def getword (st : Buf × BitVec 64) (n : Nat) : Buf × BitVec 64 :=
  let r0 := endbe16 (ldx st.1 (40 + 16 + n * 2) 2)
  let buf := stx st.1 (40 + n * 2) r0 2
  (buf, st.2 ||| ((-r0) >>> 63) <<< (7 - n))

/-- `.Lpref_loop` and `.Lfull_loop`: words with a colon behind them. -/
def prefLoop : Nat → Buf → Nat → Nat → Buf × Nat × Nat
  | 0, buf, r8, r9 => (buf, r8, r9)
  | r6 + 1, buf, r8, r9 =>
    let (buf, r0) := writeHex16 (ldx buf r8 2) buf r9
    let buf := stx buf (r9 + r0) 0x3a 1
    prefLoop r6 buf (r8 + 2) (r9 + r0 + 1)

/-- `.Lpost_loop`: words with a colon before them. -/
def postLoop : Nat → Buf → Nat → Nat → Buf × Nat
  | 0, buf, _, r9 => (buf, r9)
  | r6 + 1, buf, r8, r9 =>
    let buf := stx buf r9 0x3a 1
    let (buf, r0) := writeHex16 (ldx buf r8 2) buf (r9 + 1)
    postLoop r6 buf (r8 + 2) (r9 + 1 + r0)

/-- `.Lfull` -/
def lfull (buf : Buf) : Buf :=
  let (buf, r8, r9) := prefLoop 7 buf 40 0
  let (buf, r0) := writeHex16 (ldx buf r8 2) buf r9
  stx buf (r9 + r0) 0 1

/-- 1 for zero, 0 for a positive number, without a branch. -/
def isZero (r : BitVec 64) : BitVec 64 := ((-r) >>> 63 ^^^ 1) &&& 1

/-- The code from `.Lnotipv4` on, with the table's entry in `r7`. -/
def collapse (buf : Buf) (r7 : BitVec 64) : Buf :=
  let r6 := r7 >>> 4
  if 7 ≤ r6 then lfull buf
  else
    let (buf, r8, r9) := prefLoop r6.toNat buf 40 0
    let buf := stx buf r9 0x3a 1
    let r1 := r7 >>> 4
    let r9 := r9 + (isZero r1).toNat
    let r0 := r7 &&& 0xf
    let r1 := r1 + r0
    if 8 < r1 then stx buf r9 0 1
    else
      let r6 := 8 - r1
      let r8 := r8 + (r0 * 2).toNat
      let buf := stx buf r9 0x3a 1
      let r9 := r9 + (isZero r6).toNat
      let (buf, r9) := postLoop r6.toNat buf r8 r9
      stx buf r9 0 1

/-- `.Lnotipv4`: the table lookup. -/
def lnotipv4 (rodata : Buf) (rodataSize tbloff : Nat) (buf : Buf) (r7 : BitVec 64) : Buf :=
  if rodataSize ≤ tbloff then stx buf 0 0 1
  else collapse buf (ldx rodata (tbloff + r7.toNat) 1)

/-- `.Lipv4_1` -/
def lipv41 (strsz : Nat) (strict : Bool) (buf : Buf) : Buf :=
  if strict then
    let buf := stx (stx buf 0 0x3a 1) 1 0x3a 1
    dtInetNtoa strsz (shift buf (40 + 16 + 6 * 2)) buf 2
  else dtInetNtoa strsz (shift buf (40 + 16 + 6 * 2)) buf 0

/-- `.Lipv4_2` -/
def lipv42 (strsz : Nat) (strict : Bool) (buf : Buf) : Buf :=
  if strict then
    let buf := stx (stx (stx (stx (stx (stx (stx buf 0 0x3a 1) 1 0x3a 1) 2 0x66 1) 3 0x66 1)
      4 0x66 1) 5 0x66 1) 6 0x3a 1
    dtInetNtoa strsz (shift buf (40 + 16 + 6 * 2)) buf 7
  else dtInetNtoa strsz (shift buf (40 + 16 + 6 * 2)) buf 0

/-- `dt_inet_ntoa6`. The source is what `probe_read` gives, if it can be read. -/
def dtInetNtoa6 (strsz : Nat) (rodata : Buf) (rodataSize tbloff : Nat) (strict : Bool)
    (src : Option Buf) (dst : Buf) : Buf :=
  match src with
  | none => stx dst 0 0 1
  | some src =>
    let buf := probeReadAt dst (40 + 16) 16 src
    let (buf, r7) := (List.range 8).foldl getword (buf, 0)
    let r7 := r7 &&& 0xff
    if r7 &&& 0xf8 ≠ 0 then lnotipv4 rodata rodataSize tbloff buf r7
    else
      let r0 := ldx buf (40 + 10) 2
      if r0 = 0xffff then lipv42 strsz strict buf
      else if r0 ≠ 0 then lnotipv4 rodata rodataSize tbloff buf r7
      else if ldx buf (40 + 12) 2 ≠ 0 then lipv41 strsz strict buf
      else if 1 < ldx buf (40 + 14) 2 then lipv41 strsz strict buf
      else lnotipv4 rodata rodataSize tbloff buf r7

/-- The table of `dt_cg_subr_inet_ntoa6`: `start << 4 | length` of the longest run of zero bits,
0x70 if there is none. -/
def tbl : List Byte := [
  0x08, 0x07, 0x06, 0x06, 0x05, 0x05, 0x05, 0x05, 0x04, 0x04, 0x04, 0x04, 0x04, 0x04, 0x04, 0x04,
  0x44, 0x03, 0x03, 0x03, 0x03, 0x03, 0x03, 0x03, 0x03, 0x03, 0x03, 0x03, 0x03, 0x03, 0x03, 0x03,
  0x35, 0x34, 0x33, 0x33, 0x02, 0x02, 0x02, 0x02, 0x53, 0x02, 0x02, 0x02, 0x02, 0x02, 0x02, 0x02,
  0x44, 0x43, 0x02, 0x02, 0x02, 0x02, 0x02, 0x02, 0x53, 0x02, 0x02, 0x02, 0x02, 0x02, 0x02, 0x02,
  0x26, 0x25, 0x24, 0x24, 0x23, 0x23, 0x23, 0x23, 0x53, 0x22, 0x22, 0x22, 0x22, 0x22, 0x22, 0x22,
  0x44, 0x43, 0x42, 0x42, 0x62, 0x70, 0x70, 0x70, 0x53, 0x52, 0x70, 0x70, 0x62, 0x70, 0x70, 0x70,
  0x35, 0x34, 0x33, 0x33, 0x32, 0x32, 0x32, 0x32, 0x53, 0x52, 0x70, 0x70, 0x62, 0x70, 0x70, 0x70,
  0x44, 0x43, 0x42, 0x42, 0x62, 0x70, 0x70, 0x70, 0x53, 0x52, 0x70, 0x70, 0x62, 0x70, 0x70, 0x70,
  0x17, 0x16, 0x15, 0x15, 0x14, 0x14, 0x14, 0x14, 0x13, 0x13, 0x13, 0x13, 0x13, 0x13, 0x13, 0x13,
  0x44, 0x43, 0x12, 0x12, 0x12, 0x12, 0x12, 0x12, 0x53, 0x12, 0x12, 0x12, 0x12, 0x12, 0x12, 0x12,
  0x35, 0x34, 0x33, 0x33, 0x32, 0x32, 0x32, 0x32, 0x53, 0x52, 0x70, 0x70, 0x62, 0x70, 0x70, 0x70,
  0x44, 0x43, 0x42, 0x42, 0x62, 0x70, 0x70, 0x70, 0x53, 0x52, 0x70, 0x70, 0x62, 0x70, 0x70, 0x70,
  0x26, 0x25, 0x24, 0x24, 0x23, 0x23, 0x23, 0x23, 0x53, 0x22, 0x22, 0x22, 0x22, 0x22, 0x22, 0x22,
  0x44, 0x43, 0x42, 0x42, 0x62, 0x70, 0x70, 0x70, 0x53, 0x52, 0x70, 0x70, 0x62, 0x70, 0x70, 0x70,
  0x35, 0x34, 0x33, 0x33, 0x32, 0x32, 0x32, 0x32, 0x53, 0x52, 0x70, 0x70, 0x62, 0x70, 0x70, 0x70,
  0x44, 0x43, 0x42, 0x42, 0x62, 0x70, 0x70, 0x70, 0x53, 0x52, 0x70, 0x70, 0x62, 0x70, 0x70, 0x70]

/-! ## Words -/

variable {n strsz : Nat} {src buf : Buf} {r8 : Nat} {ws : List Nat} {t : List Byte}

theorem neg_ushiftRight (h : n < 65536) :
    (-(BitVec.ofNat 64 n)) >>> 63 = if n = 0 then 0#64 else 1#64 := by
  apply eq_of_toNat_eq
  rw [toNat_ushiftRight, toNat_neg, toNat_ofNat]
  split
  · subst n
    rfl
  · rw [toNat_ofNat]
    omega

variable {w lim base : Nat} {buf' : Buf}

theorem digit_of_shift (h : w < 65536) :
    (BitVec.ofNat 64 w >>> n) &&& 0xf = BitVec.ofNat 64 (w / 2 ^ n % 16) := by
  apply eq_of_toNat_eq
  rw [toNat_and, toNat_ushiftRight, toNat_ofNat, toNat_ofNat,
    mod_eq_of_lt (by omega)]
  rw [show BitVec.toNat (0xf) = 2 ^ 4 - 1 from rfl, and_two_pow_sub_one_eq_mod]
  omega

theorem truncate_hexDigit {c : Nat} (h : c < 16) :
    ((-(BitVec.ofNat 64 c - 9)) >>> 63 * (0x61 - 0x30 - 10) + 0x30 + BitVec.ofNat 64 c).truncate 8 =
      hexDigit c := by
  have hall : ∀ c : Fin 16, ((-(BitVec.ofNat 64 c - 9)) >>> 63 * (0x61 - 0x30 - 10) + 0x30 +
    BitVec.ofNat 64 c).truncate 8 = hexDigit c := by decide
  exact hall ⟨c, h⟩

/-- The digits so far, without leading zeros, have been written. -/
structure HexInv (lim : Nat) (buf : Buf) (off : Nat) (ds : List Nat) (st : HexState) : Prop where
  wrote : Wrote lim buf off ((ds.dropWhile (· = 0)).map hexDigit) st.buf
  r0_eq : st.r0 = BitVec.ofNat 64 (ds.dropWhile (· = 0)).length
  r2_eq : st.r2 = off + (ds.dropWhile (· = 0)).length

section
variable {lim off n w c : Nat} {buf : Buf} {ds : List Nat} {st : HexState}

/-- What `WRITE_DIGIT` does with a digit. -/
theorem writeDigit_eq (h : HexInv lim buf off ds st) (hlen : ds.length ≤ 3) (hc : c < 16)
    {r1 : BitVec 64} (hr1 : (r1 >>> (4 * (3 - n))) &&& 0xf = BitVec.ofNat 64 c)
    (hlim : off + 4 ≤ lim) :
    Wrote lim buf off ((ds.dropWhile (· = 0) ++ [c]).map hexDigit) (writeDigit n r1 st).buf ∧
      (writeDigit n r1 st).r3 =
        (if c + (ds.dropWhile (· = 0)).length = 0 then 0#64 else 1#64) ∧
      (writeDigit n r1 st).r0 = st.r0 + (writeDigit n r1 st).r3 ∧
      (writeDigit n r1 st).r2 = st.r2 + (writeDigit n r1 st).r3.toNat := by
  have hle : (ds.dropWhile (· = 0)).length ≤ 3 :=
    le_trans (dropWhile_sublist _).length_le hlen
  refine ⟨?_, ?_, rfl, rfl⟩
  · rw [map_append]
    refine h.wrote.append ?_
    simp only [writeDigit, hr1, h.r2_eq, length_map]
    exact Wrote.stx st.buf (truncate_hexDigit hc) (by omega)
  · simp only [writeDigit, hr1, h.r0_eq]
    rw [← ofNat_add, neg_ushiftRight (by omega)]

/-- One of the first three digits. -/
theorem HexInv.step (h : HexInv lim buf off ds st) (hlen : ds.length ≤ 3) (hc : c < 16)
    {r1 : BitVec 64} (hr1 : (r1 >>> (4 * (3 - n))) &&& 0xf = BitVec.ofNat 64 c)
    (hlim : off + 4 ≤ lim) : HexInv lim buf off (ds ++ [c]) (writeDigit n r1 st) := by
  obtain ⟨hwrote, hr3, hr0, hr2⟩ := writeDigit_eq h hlen hc hr1 hlim
  have hdrop : (ds ++ [c]).dropWhile (· = 0) =
      if c + (ds.dropWhile (· = 0)).length = 0 then [] else ds.dropWhile (· = 0) ++ [c] := by
    rw [dropWhile_append]
    cases ds.dropWhile (· = 0) with
    | nil => by_cases hc0 : c = 0 <;> simp [hc0]
    | cons d ds => simp
  by_cases h0 : c + (ds.dropWhile (· = 0)).length = 0
  · -- the digit is overwritten by the next one
    rw [if_pos h0] at hdrop hr3
    have hnil : ds.dropWhile (· = 0) = [] := length_eq_zero_iff.mp (by omega)
    refine ⟨?_, ?_, ?_⟩
    · rw [hdrop]
      rw [map_append] at hwrote
      have := hwrote.of_append
      rwa [hnil] at this
    · rw [hr0, hr3, hdrop, h.r0_eq, hnil]
      rfl
    · rw [hr2, hr3, hdrop, h.r2_eq, hnil]
      rfl
  · rw [if_neg h0] at hdrop hr3
    refine ⟨?_, ?_, ?_⟩
    · rwa [hdrop]
    · rw [hr0, hr3, hdrop, h.r0_eq, length_append, ofNat_add]
      rfl
    · rw [hr2, hr3, hdrop, h.r2_eq, length_append]
      rfl

/-- **`write_hex16`** writes a word without leading zeros. -/
theorem writeHex16_spec (hw : w < 65536) (buf : Buf) (hlim : off + 4 ≤ lim) :
    ∃ buf', writeHex16 (BitVec.ofNat 64 w) buf off = (buf', (hexText w).length) ∧
      Wrote lim buf off (hexText w) buf' := by
  have hdig : ∀ n, (BitVec.ofNat 64 w >>> (4 * (3 - n))) &&& 0xf =
      BitVec.ofNat 64 (w / 2 ^ (4 * (3 - n)) % 16) := fun n => digit_of_shift hw
  have hlow : (BitVec.ofNat 64 w >>> (4 * (3 - 3))) &&& 0xf = BitVec.ofNat 64 (w % 16) := by
    rw [hdig 3, show 2 ^ (4 * (3 - 3)) = 1 from rfl, Nat.div_one]
  have h0 : HexInv lim buf off [] { buf, r0 := 0, r2 := off, r3 := 0 } := ⟨.nil _ _ _, rfl, rfl⟩
  have h1 := h0.step (by decide) (mod_lt _ (by decide)) (hdig 0) hlim
  have h2 := h1.step (by simp) (mod_lt _ (by decide)) (hdig 1) hlim
  have h3 := h2.step (by simp) (mod_lt _ (by decide)) (hdig 2) hlim
  obtain ⟨hwrote, hr3, hr0, -⟩ := writeDigit_eq h3 (by simp) (mod_lt _ (by decide)) hlow hlim
  have hle : ([w / 4096 % 16, w / 256 % 16, w / 16 % 16].dropWhile (· = 0)).length ≤ 3 :=
    (dropWhile_sublist _).length_le
  refine ⟨_, Prod.ext rfl ?_, hwrote⟩
  have hlast : ∀ r3 : BitVec 64, r3 = 0#64 ∨ r3 = 1#64 → r3 + ((r3 ^^^ 1) &&& 1) = 1#64 := by
    rintro r3 (rfl | rfl) <;> rfl
  have hsum : (writeHex16 (BitVec.ofNat 64 w) buf off).2 = (BitVec.ofNat 64
      ([w / 4096 % 16, w / 256 % 16, w / 16 % 16].dropWhile (· = 0)).length + 1#64).toNat := by
    simp only [writeHex16]
    rw [hr0, BitVec.add_assoc, hlast _ (by rw [hr3]; split <;> simp), h3.r0_eq]
    rfl
  rw [hsum, ← ofNat_add, toNat_ofNat, hexText, length_map, length_append,
    length_singleton]
  omega

end

/-! ## Bytes -/

theorem decText_eq (b : Nat) : decText b =
    ([b / 100 % 10, b / 10 % 10].dropWhile (· = 0) ++ [b % 10]).map hexDigit := rfl

theorem truncate_decDigit {c : Nat} (h : c < 10) :
    (BitVec.ofNat 64 (c + 0x30)).truncate 8 = hexDigit c := by
  have hall : ∀ c : Fin 10, (BitVec.ofNat 64 (c + 0x30)).truncate 8 = hexDigit c := by decide
  exact hall ⟨c, h⟩

/-- **`dt_inet_ntoa_write_uint8`** writes a byte, if it fits. -/
theorem dtInetNtoaWriteUint8_spec {off : Nat} (b : Byte) (dst : Buf)
    (hfit : off + (decText b.toNat).length ≤ strsz) (hlim : base + off + 3 ≤ lim) :
    ∃ dst', dtInetNtoaWriteUint8 strsz b.toNat dst base off =
        (dst', off + (decText b.toNat).length) ∧
      Wrote lim dst (base + off) (decText b.toNat) dst' := by
  have hb := b.isLt
  generalize b.toNat = m at *
  have h100 : m / 100 % 10 = m / 100 := by omega
  have h10 : (m - m / 100 * 100) / 10 = m / 10 % 10 := by omega
  have h1 : m - m / 100 * 100 - m / 10 % 10 * 10 = m % 10 := by omega
  have hw : ∀ (d : Buf) {off c : Nat}, c < 10 → off < lim →
      Wrote lim d off [hexDigit c] (stx d off (BitVec.ofNat 64 (c + 0x30)) 1) :=
    fun _ _ _ hc hlt => Wrote.stx _ (truncate_decDigit hc) hlt
  have hd10 : m / 10 % 10 < 10 := mod_lt _ (by decide)
  have hd1 : m % 10 < 10 := mod_lt _ (by decide)
  rw [decText_eq, h100] at hfit ⊢
  unfold dtInetNtoaWriteUint8
  simp only [h10, h1]
  have e0 : ¬strsz ≤ off := by
    rw [length_map, length_append, length_singleton] at hfit
    omega
  have hw0 : ∀ (d : Buf) {c : Nat}, c < 10 →
      Wrote lim d (base + off) [] (stx d (base + off) (BitVec.ofNat 64 (c + 0x30)) 1) :=
    fun d _ hc => (hw d hc (by omega)).of_append (t := [])
  by_cases hz : m / 100 = 0
  · rw [dropWhile_cons_of_pos (by simpa using hz)] at hfit ⊢
    by_cases hz' : m / 10 % 10 = 0
    · -- one digit: both digits before it are overwritten
      rw [dropWhile_cons_of_pos (by simpa using hz'), dropWhile_nil] at hfit ⊢
      have hsum : m / 100 + m / 10 % 10 = 0 := by omega
      simp only [if_neg e0, if_pos hz, if_pos hsum]
      have hwrote := (hw0 dst (show m / 100 < 10 by omega)).append (hw0 _ hd10)
      exact ⟨_, rfl, hwrote.append (hw _ hd1 (show base + off < lim by omega))⟩
    · rw [dropWhile_cons_of_neg (by simpa using hz')] at hfit ⊢
      have hsum : ¬m / 100 + m / 10 % 10 = 0 := by omega
      have e1 : ¬strsz ≤ off + 1 := by simp at hfit; omega
      simp only [if_neg e0, if_pos hz, if_neg hsum, if_neg e1]
      have hwrote := (hw0 dst (show m / 100 < 10 by omega)).append
        (hw _ hd10 (show base + off < lim by omega))
      exact ⟨_, rfl, hwrote.append (hw _ hd1 (show base + off + 1 < lim by omega))⟩
  · rw [dropWhile_cons_of_neg (by simpa using hz)] at hfit ⊢
    have hsum : ¬m / 100 + m / 10 % 10 = 0 := by omega
    have e1 : ¬strsz ≤ off + 1 := by simp at hfit; omega
    have e2 : ¬strsz ≤ off + 1 + 1 := by simp at hfit; omega
    simp only [if_neg e0, if_neg hz, if_neg hsum, if_neg e1, if_neg e2]
    have hwrote := (hw dst (show m / 100 < 10 by omega)
      (show base + off < lim by omega)).append (hw _ hd10 (show base + off + 1 < lim by omega))
    exact ⟨_, rfl, hwrote.append (hw _ hd1 (show base + off + 2 < lim by omega))⟩

/-- A byte and a dot. -/
theorem dtInetNtoaWriteUint8_dot {off : Nat} (b : Byte) (dst : Buf)
    (hfit : off + (decText b.toNat).length < strsz) (hlim : base + off + 4 ≤ lim) :
    ∃ dst', dtInetNtoaWriteUint8 strsz b.toNat dst base off =
        (dst', off + (decText b.toNat).length) ∧
      Wrote lim dst (base + off) (decText b.toNat ++ [0x2e])
        (stx dst' (base + (off + (decText b.toNat).length)) 0x2e 1) := by
  obtain ⟨dst', hrun, hwrote⟩ := dtInetNtoaWriteUint8_spec b dst (le_of_lt hfit)
    (show base + off + 3 ≤ lim by omega)
  have hlen := (decText_props b).1
  refine ⟨dst', hrun, hwrote.append ?_⟩
  rw [← add_assoc]
  exact Wrote.stx _ rfl (by omega)

/-- **`dt_inet_ntoa`** writes a dotted quad, if it fits. -/
theorem dtInetNtoa_spec (src dst : Buf)
    (hfit : (quadText (src 0) (src 1) (src 2) (src 3)).length ≤ strsz) (hlim : base + 16 ≤ lim) :
    ∃ dst', dtInetNtoa strsz src dst base =
        stx dst' (base + (quadText (src 0) (src 1) (src 2) (src 3)).length) 0 1 ∧
      Wrote lim dst base (quadText (src 0) (src 1) (src 2) (src 3)) dst' := by
  obtain ⟨_, -, -, -⟩ := decText_props (src 0)
  obtain ⟨_, -, -, -⟩ := decText_props (src 1)
  obtain ⟨_, -, -, -⟩ := decText_props (src 2)
  have hlen : (quadText (src 0) (src 1) (src 2) (src 3)).length =
      0 + (decText (src 0).toNat).length + 1 + (decText (src 1).toNat).length + 1 +
        (decText (src 2).toNat).length + 1 + (decText (src 3).toNat).length := by
    simp only [quadText, length_append, length_cons]
    omega
  rw [hlen] at ⊢
  let o0 := 0 + (decText (src 0).toNat).length
  let o1 := o0 + 1 + (decText (src 1).toNat).length
  let o2 := o1 + 1 + (decText (src 2).toNat).length
  obtain ⟨d0, hrun0, hw0⟩ := dtInetNtoaWriteUint8_dot (src 0) dst
    (show 0 + (decText (src 0).toNat).length < strsz by omega) (show base + 0 + 4 ≤ lim by omega)
  obtain ⟨d1, hrun1, hw1⟩ := dtInetNtoaWriteUint8_dot (src 1) (stx d0 (base + o0) 0x2e 1)
    (show o0 + 1 + (decText (src 1).toNat).length < strsz by omega)
    (show base + (o0 + 1) + 4 ≤ lim by omega)
  obtain ⟨d2, hrun2, hw2⟩ := dtInetNtoaWriteUint8_dot (src 2) (stx d1 (base + o1) 0x2e 1)
    (show o1 + 1 + (decText (src 2).toNat).length < strsz by omega)
    (show base + (o1 + 1) + 4 ≤ lim by omega)
  obtain ⟨d3, hrun3, hw3⟩ := dtInetNtoaWriteUint8_spec (src 3) (stx d2 (base + o2) 0x2e 1)
    (show o2 + 1 + (decText (src 3).toNat).length ≤ strsz by omega)
    (show base + (o2 + 1) + 3 ≤ lim by omega)
  refine ⟨d3, ?_, ?_⟩
  · simp only [dtInetNtoa, hrun0, hrun1, hrun2, hrun3, o0, o1, o2]
    rw [if_neg (by omega), if_neg (by omega), if_neg (by omega)]
  · have hwrote := ((hw0.append_of_eq (by simp [o0]) hw1).append_of_eq
      (by simp; omega) hw2).append_of_eq (by simp; omega) hw3
    simpa [quadText] using hwrote

/-! ## The copy of the address -/

/-- The words of an address. -/
def word (src : Buf) (n : Nat) : Nat := 256 * (src (n * 2)).toNat + (src (n * 2 + 1)).toNat

theorem word_lt (src : Buf) (n : Nat) : word src n < 65536 := by
  unfold word
  omega

theorem toNat_endbe16 (r : BitVec 64) (h : r.toNat < 65536) :
    (endbe16 r).toNat = 256 * (r.toNat % 256) + r.toNat / 256 := by
  have hff : BitVec.toNat (0xff : BitVec 64) = 2 ^ 8 - 1 := rfl
  have hlow : (r.toNat % 256) <<< 8 = 256 * (r.toNat % 256) := by
    rw [Nat.shiftLeft_eq, Nat.mul_comm]
  have hor := Nat.shiftLeft_add_eq_or_of_lt (show r.toNat / 256 < 2 ^ 8 by omega) (r.toNat % 256)
  rw [endbe16, toNat_or, toNat_shiftLeft, toNat_and, toNat_and,
    toNat_ushiftRight, hff, and_two_pow_sub_one_eq_mod, and_two_pow_sub_one_eq_mod,
    shiftRight_eq_div_pow, mod_eq_of_lt (by omega),
    mod_eq_of_lt (show r.toNat / 256 < 256 by omega), ← hlow, ← hor]

/-- The words are stored from `r8` on. -/
def WordsAt (buf : Buf) (r8 : Nat) (ws : List Nat) : Prop :=
  ∀ n w, ws[n]? = some w → ldx buf (r8 + n * 2) 2 = BitVec.ofNat 64 w

/-- The bits of the words that are not zero, the first word's bit the highest. -/
def bitmap (ps : List Bool) : BitVec 64 :=
  (List.range 8).foldl (fun r n => r ||| (if ps.getD n false then 1#64 else 0#64) <<< (7 - n)) 0

/-- The words and the bitmap after some of them have been read. -/
structure GetInv (src : Buf) (k : Nat) (st : Buf × BitVec 64) : Prop where
  raw : ∀ i < 16, st.1 (40 + 16 + i) = src i
  words : ∀ n < k, ldx st.1 (40 + n * 2) 2 = BitVec.ofNat 64 (word src n)
  bits : st.2 = (List.range k).foldl
    (fun r n => r ||| (if word src n ≠ 0 then 1#64 else 0#64) <<< (7 - n)) 0

theorem GetInv.step {k : Nat} {st : Buf × BitVec 64} (h : GetInv src k st) (hk : k < 8) :
    GetInv src (k + 1) (getword st k) := by
  have hword : endbe16 (ldx st.1 (40 + 16 + k * 2) 2) = BitVec.ofNat 64 (word src k) := by
    have hldx : (ldx st.1 (40 + 16 + k * 2) 2).toNat =
        (src (k * 2)).toNat + 256 * (src (k * 2 + 1)).toNat := by
      rw [toNat_ldx_two, h.raw _ (by omega), add_assoc, h.raw _ (by omega)]
    apply eq_of_toNat_eq
    rw [toNat_endbe16 _ (by omega), hldx, toNat_ofNat, mod_eq_of_lt
      (lt_trans (word_lt src k) (by decide)), word]
    omega
  have hlt := word_lt src k
  refine ⟨fun i hi => ?_, fun n hn => ?_, ?_⟩
  · exact (stx_of_ge (by omega)).trans (h.raw i hi)
  · simp only [getword, hword]
    by_cases heq : n = k
    · subst heq
      exact ldx_stx_two _ _ (by rw [toNat_ofNat]; omega)
    · rw [← h.words n (by omega)]
      exact ldx_congr fun j hj => stx_of_lt (by omega)
  · simp only [getword, hword, h.bits]
    rw [range_succ, foldl_append, neg_ushiftRight hlt]
    simp only [foldl_cons, foldl_nil, ite_not]

/-- The words of the address in a list. -/
def words (src : Buf) : List Nat := (List.range 8).map (word src)

/-- **The copy.** -/
theorem getword_spec (src dst : Buf) :
    let st := (List.range 8).foldl getword (probeReadAt dst (40 + 16) 16 src, 0)
    WordsAt st.1 40 (words src) ∧ (∀ i < 16, st.1 (40 + 16 + i) = src i) ∧
      st.2 = bitmap ((words src).map (· ≠ 0)) := by
  have hinv : ∀ k ≤ 8, GetInv src k
      ((List.range k).foldl getword (probeReadAt dst (40 + 16) 16 src, 0)) := by
    intro k hk
    induction k with
    | zero =>
      refine ⟨fun i hi => ?_, nofun, rfl⟩
      simp [probeReadAt]
      omega
    | succ k ih =>
      rw [range_succ, foldl_append]
      exact (ih (by omega)).step (by omega)
  have h8 := hinv 8 le_rfl
  refine ⟨fun n w hw => ?_, h8.raw, h8.bits.trans ?_⟩
  · obtain ⟨hn, hget⟩ := List.getElem?_eq_some_iff.mp hw
    simp [words] at hget
    rw [h8.words n hn, hget]
  · simp [bitmap, words, range_succ]

/-! ## The loops -/

theorem WordsAt.of_behind (h : WordsAt buf r8 ws) (hr8 : 40 ≤ r8)
    (hbuf : ∀ i, 40 ≤ i → buf' i = buf i) : WordsAt buf' r8 ws := by
  intro n w hw
  rw [← h n w hw]
  exact ldx_congr fun j _ => hbuf _ (by omega)

theorem WordsAt.tail (h : WordsAt buf r8 (w :: ws)) : WordsAt buf (r8 + 2) ws := by
  intro n w' hw'
  rw [← h (n + 1) w' hw', show r8 + 2 + n * 2 = r8 + (n + 1) * 2 by omega]

theorem WordsAt.take (h : WordsAt buf r8 ws) (i : Nat) : WordsAt buf r8 (ws.take i) := by
  intro n w hw
  have hn := (List.getElem?_eq_some_iff.mp hw).1
  rw [length_take] at hn
  rw [getElem?_take_of_lt (by omega)] at hw
  exact h n w hw

theorem WordsAt.drop (h : WordsAt buf r8 ws) (i : Nat) : WordsAt buf (r8 + 2 * i) (ws.drop i) := by
  intro n w hw
  rw [getElem?_drop] at hw
  rw [← h (i + n) w hw, show r8 + 2 * i + n * 2 = r8 + (i + n) * 2 by omega]

theorem length_hexText_le (w : Nat) : (hexText w).length ≤ 4 := by
  have := length_hexText w
  simp only [mem_cons, not_mem_nil, or_false] at this
  omega

section
variable {ws : List Nat} (hws : ∀ w ∈ ws, w < 65536)
include hws

/-- **`.Lpref_loop`** -/
theorem prefLoop_spec {buf : Buf} {r8 r9 : Nat} (hat : WordsAt buf r8 ws) (hr8 : 40 ≤ r8)
    (hlim : r9 + 5 * ws.length ≤ 40) :
    ∃ buf', prefLoop ws.length buf r8 r9 = (buf', r8 + 2 * ws.length,
        r9 + (ws.flatMap (hexText · ++ [0x3a])).length) ∧
      Wrote 40 buf r9 (ws.flatMap (hexText · ++ [0x3a])) buf' := by
  induction ws generalizing buf r8 r9 with
  | nil => exact ⟨buf, rfl, .nil _ _ _⟩
  | cons w ws ih =>
    rw [length_cons] at hlim
    have hlen := length_hexText_le w
    obtain ⟨buf1, hrun, hwrote⟩ := writeHex16_spec (hws w mem_cons_self) buf
      (show r9 + 4 ≤ 40 by omega)
    have hcolon := hwrote.append
      (Wrote.stx buf1 (show (0x3a : BitVec 64).truncate 8 = 0x3a from rfl) (by omega))
    obtain ⟨buf2, hrun2, hwrote2⟩ := ih (fun x hx => hws x (mem_cons_of_mem _ hx))
      (hat.tail.of_behind (by omega) hcolon.behind) (by omega)
      (show r9 + (hexText w).length + 1 + 5 * ws.length ≤ 40 by omega)
    refine ⟨buf2, ?_, ?_⟩
    · have hword : ldx buf r8 2 = BitVec.ofNat 64 w := hat 0 w rfl
      simp only [length_cons, prefLoop, hword, hrun, hrun2]
      simp
      omega
    · rw [flatMap_cons]
      refine hcolon.append_of_eq ?_ hwrote2
      simp
      omega

/-- **`.Lpost_loop`** -/
theorem postLoop_spec {buf : Buf} {r8 r9 : Nat} (hat : WordsAt buf r8 ws) (hr8 : 40 ≤ r8)
    (hlim : r9 + 5 * ws.length ≤ 40) :
    ∃ buf', postLoop ws.length buf r8 r9 = (buf', r9 + (ws.flatMap (0x3a :: hexText ·)).length) ∧
      Wrote 40 buf r9 (ws.flatMap (0x3a :: hexText ·)) buf' := by
  induction ws generalizing buf r8 r9 with
  | nil => exact ⟨buf, rfl, .nil _ _ _⟩
  | cons w ws ih =>
    rw [length_cons] at hlim
    have hlen := length_hexText_le w
    have hcolon : Wrote 40 buf r9 [0x3a] (stx buf r9 0x3a 1) := Wrote.stx buf rfl (by omega)
    obtain ⟨_, hrun, hwrote⟩ := writeHex16_spec (hws w mem_cons_self) (stx buf r9 0x3a 1)
      (show r9 + 1 + 4 ≤ 40 by omega)
    have hword : ldx (stx buf r9 0x3a 1) r8 2 = BitVec.ofNat 64 w :=
      hat.of_behind hr8 hcolon.behind 0 w rfl
    have hgroup := hcolon.append hwrote
    obtain ⟨buf2, hrun2, hwrote2⟩ := ih (fun x hx => hws x (mem_cons_of_mem _ hx))
      (hat.tail.of_behind (by omega) hgroup.behind) (by omega)
      (show r9 + 1 + (hexText w).length + 5 * ws.length ≤ 40 by omega)
    refine ⟨buf2, ?_, ?_⟩
    · simp only [length_cons, postLoop, hword, hrun, hrun2]
      simp
      omega
    · rw [flatMap_cons]
      refine hgroup.append_of_eq ?_ hwrote2
      simp
      omega

end

theorem length_flatMap_colon (ws : List Nat) :
    (ws.flatMap (hexText · ++ [0x3a])).length ≤ 5 * ws.length ∧
      (ws.flatMap (0x3a :: hexText ·)).length ≤ 5 * ws.length := by
  induction ws with
  | nil => exact ⟨le_rfl, le_rfl⟩
  | cons w ws ih =>
    have hlen := length_hexText_le w
    simp only [flatMap_cons, length_append, length_cons, length_nil]
    omega

/-! ## The text -/

/-- **`.Lfull`** writes all words. -/
theorem lfull_spec (hlen : ws.length = 8) (hws : ∀ w ∈ ws, w < 65536) (hat : WordsAt buf 40 ws) :
    ∃ buf', lfull buf = stx buf' (join (ws.map hexText)).length 0 1 ∧
      Wrote 40 buf 0 (join (ws.map hexText)) buf' ∧ (join (ws.map hexText)).length < 40 := by
  obtain ⟨pre, w, rfl⟩ : ∃ pre w, ws = pre ++ [w] :=
    ⟨_, _, (dropLast_concat_getLast (List.length_pos_iff.mp (by omega))).symm⟩
  have hpre : pre.length = 7 := by simpa using hlen
  have hne : pre.map hexText ≠ [] := by
    simpa using List.length_pos_iff.mp (by omega)
  have hat' : WordsAt buf 40 pre := fun n x hx => hat n x (by
    rw [getElem?_append_left (List.getElem?_eq_some_iff.mp hx).1, hx])
  obtain ⟨buf1, hrun, hwrote⟩ := prefLoop_spec (fun x hx => hws x (mem_append_left _ hx)) hat'
    le_rfl (show 0 + 5 * pre.length ≤ 40 by omega)
  have hbound := (length_flatMap_colon pre).1
  have hword : ldx buf1 (40 + 2 * pre.length) 2 = BitVec.ofNat 64 w := by
    have := hat.of_behind le_rfl hwrote.behind pre.length w (by simp)
    rwa [mul_comm] at this
  have hlast := length_hexText_le w
  obtain ⟨buf2, hrun2, hwrote2⟩ := writeHex16_spec (hws w (by simp)) buf1
    (show 0 + (pre.flatMap (hexText · ++ [0x3a])).length + 4 ≤ 40 by omega)
  have htext : join ((pre ++ [w]).map hexText) = pre.flatMap (hexText · ++ [0x3a]) ++ hexText w := by
    have hmap : (pre.map hexText).flatMap (· ++ [0x3a]) = pre.flatMap (hexText · ++ [0x3a]) := by
      rw [flatMap_map]
    rw [map_append, map_singleton, join_append_singleton hne, ← hmap,
      flatMap_append_colon hne, append_assoc]
    rfl
  rw [htext, length_append]
  refine ⟨buf2, ?_, hwrote.append hwrote2, by omega⟩
  rw [hpre, zero_add] at hrun
  rw [hpre] at hword
  rw [zero_add] at hrun2
  simp only [lfull, hrun, hword, hrun2]

theorem toNat_small (h : n < 65536) : (BitVec.ofNat 64 n).toNat = n := by
  rw [toNat_ofNat]
  omega

theorem isZero_ofNat (h : n < 65536) :
    (isZero (BitVec.ofNat 64 n)).toNat = if n = 0 then 1 else 0 := by
  rw [isZero, neg_ushiftRight h]
  split <;> rfl

/-- A colon that is kept or overwritten. -/
theorem wrote_colon (h : Wrote 40 buf 0 t buf') (hlen : t.length < 40) (n : Nat) :
    Wrote 40 buf 0 (t ++ if n = 0 then [0x3a] else []) (stx buf' t.length 0x3a 1) := by
  have hcolon := h.append_of_eq (zero_add t.length).symm
    (Wrote.stx buf' (show (0x3a : BitVec 64).truncate 8 = 0x3a from rfl) hlen)
  split
  · exact hcolon
  · rw [append_nil]
    exact hcolon.of_append

/-- **The code from the table's entry on** writes the compressed text. -/
theorem collapse_spec {i : Nat} (hlen : ws.length = 8) (hws : ∀ w ∈ ws, w < 65536)
    (hat : WordsAt buf 40 ws) (hi : i < 7) (hn : 2 ≤ n) (hin : i + n ≤ 8) :
    ∃ buf', collapse buf (BitVec.ofNat 64 (16 * i + n)) = stx buf' (compressed ws i n).length 0 1 ∧
      Wrote 40 buf 0 (compressed ws i n) buf' ∧ (compressed ws i n).length < 40 := by
  have hr6 : BitVec.ofNat 64 (16 * i + n) >>> 4 = BitVec.ofNat 64 i := by bv_omega
  have hr0 : BitVec.ofNat 64 (16 * i + n) &&& 0xf = BitVec.ofNat 64 n := by
    have := digit_of_shift (n := 0) (show 16 * i + n < 65536 by omega)
    rw [show BitVec.ofNat 64 (16 * i + n) >>> 0 = BitVec.ofNat 64 (16 * i + n) from rfl] at this
    rw [this]
    congr 1
    omega
  have hnot7 : ¬(7 : BitVec 64) ≤ BitVec.ofNat 64 i := by bv_omega
  have hnot8 : ¬(8 : BitVec 64) < BitVec.ofNat 64 i + BitVec.ofNat 64 n := by bv_omega
  have hleft : (8 : BitVec 64) - (BitVec.ofNat 64 i + BitVec.ofNat 64 n) =
      BitVec.ofNat 64 (8 - (i + n)) := by bv_omega
  have htwo : (BitVec.ofNat 64 n * 2).toNat = 2 * n := by bv_omega
  have htake : (ws.take i).length = i := by
    rw [length_take]
    omega
  have hdrop : (ws.drop (i + n)).length = 8 - (i + n) := by rw [length_drop, hlen]
  -- the words before the run
  obtain ⟨buf1, hrun1, hwrote1⟩ := prefLoop_spec (fun x hx => hws x (mem_of_mem_take hx))
    (hat.take i) le_rfl (show 0 + 5 * (ws.take i).length ≤ 40 by omega)
  rw [htake, zero_add] at hrun1
  have hbound1 := (length_flatMap_colon (ws.take i)).1
  have hbound2 := (length_flatMap_colon (ws.drop (i + n))).2
  rw [compressed_eq, htake, hdrop]
  generalize (ws.take i).flatMap (hexText · ++ [0x3a]) = p at *
  have hwrote2 := wrote_colon hwrote1 (by omega) i
  have hlen2 : (p ++ if i = 0 then [0x3a] else []).length = p.length + if i = 0 then 1 else 0 := by
    split <;> simp
  generalize (p ++ if i = 0 then [0x3a] else []) = p2 at *
  have hle2 : p2.length ≤ 5 * i + 1 := by
    rw [hlen2]
    split <;> omega
  -- the words behind it
  have hwrote3 := wrote_colon hwrote2 (by omega) (8 - (i + n))
  have hlen3 : (p2 ++ if 8 - (i + n) = 0 then [0x3a] else []).length =
      p2.length + if 8 - (i + n) = 0 then 1 else 0 := by
    split <;> simp
  have hle3 : p2.length + (if 8 - (i + n) = 0 then 1 else 0) ≤ 5 * i + 2 := by
    split <;> omega
  obtain ⟨buf4, hrun4, hwrote4⟩ := postLoop_spec (fun x hx => hws x (mem_of_mem_drop hx))
    ((hat.of_behind le_rfl hwrote3.behind).drop (i + n)) (by omega)
    (show p2.length + (if 8 - (i + n) = 0 then 1 else 0) + 5 * (ws.drop (i + n)).length ≤ 40 by omega)
  refine ⟨buf4, ?_, hwrote3.append_of_eq (by rw [hlen3, zero_add]) hwrote4, ?_⟩
  · rw [hdrop] at hrun4
    rw [length_append, hlen3]
    simp only [collapse, hr6, hr0, if_neg hnot7, if_neg hnot8, hleft, htwo,
      isZero_ofNat (show i < 65536 by omega), isZero_ofNat (show 8 - (i + n) < 65536 by omega)]
    rw [toNat_small (show i < 65536 by omega), toNat_small (show 8 - (i + n) < 65536 by omega), hrun1]
    simp only [← hlen2]
    rw [show 40 + 2 * i + 2 * n = 40 + 2 * (i + n) by omega, hrun4]
  · rw [length_append, hlen3]
    omega

/-! ## The table -/

/-- A run of two or more cleared bits. -/
def ClearRun (ps : List Bool) (i n : Nat) : Prop :=
  2 ≤ n ∧ i + n ≤ ps.length ∧ ∀ k < n, ps[i + k]? = some false

instance (ps : List Bool) (i n : Nat) : Decidable (ClearRun ps i n) :=
  inferInstanceAs (Decidable (_ ∧ _ ∧ _))

theorem clearRun_iff {i : Nat} : ClearRun (ws.map (· ≠ 0)) i n ↔ ZeroRun ws i n := by
  have hget : ∀ k : Nat, (ws.map fun w => decide (w ≠ 0))[k]? = some false ↔
      ws[k]? = some 0 := by
    intro k
    rw [getElem?_map]
    cases ws[k]? <;> simp
  rw [ClearRun, length_map]
  exact and_congr_right fun _ => and_congr_right fun _ => forall₂_congr fun k _ => hget (i + k)

/-- An entry of the table is right for a set of words: there is no longer run and none of the same
length before it. -/
def EntryOk (ps : List Bool) (v : Nat) : Prop :=
  (v / 16 < 7 ∧ ClearRun ps (v / 16) (v % 16) ∧ (∀ j < 7, ¬ClearRun ps j (v % 16 + 1)) ∧
      ∀ j < v / 16, ¬ClearRun ps j (v % 16)) ∨
    (7 ≤ v / 16 ∧ ∀ j < 7, ¬ClearRun ps j 2)

instance (ps : List Bool) (v : Nat) : Decidable (EntryOk ps v) :=
  inferInstanceAs (Decidable (_ ∨ _))

/-- **Every entry of the table is right.** -/
theorem tbl_ok : ∀ b0 b1 b2 b3 b4 b5 b6 b7 : Bool,
    EntryOk [b0, b1, b2, b3, b4, b5, b6, b7]
      (tbl.getD (bitmap [b0, b1, b2, b3, b4, b5, b6, b7] &&& 0xff).toNat 0).toNat := by
  decide +kernel

theorem runs_ok {v : Nat} (hlen : ws.length = 8) (h : EntryOk (ws.map (· ≠ 0)) v) :
    (v / 16 < 7 ∧ LongestRun ws (v / 16) (v % 16)) ∨ (7 ≤ v / 16 ∧ ∀ i n, ¬ZeroRun ws i n) := by
  -- a run has a shorter one in it
  have hshort : ∀ {j m n}, ZeroRun ws j m → 2 ≤ n → n ≤ m → j < 7 ∧ ZeroRun ws j n := by
    rintro j m n ⟨-, _, hzero⟩ hn hnm
    exact ⟨by omega, hn, by omega, fun k hk => hzero k (by omega)⟩
  simp only [EntryOk, clearRun_iff] at h
  rcases h with ⟨hlt, hrun, hlong, hfirst⟩ | ⟨hge, hnone⟩
  · refine .inl ⟨hlt, hrun, fun j m hjm => ?_⟩
    by_cases hm : v % 16 + 1 ≤ m
    · obtain ⟨hj, hjn⟩ := hshort hjm (le_succ_of_le hrun.1) hm
      exact absurd hjn (hlong j hj)
    · by_cases heq : m = v % 16
      · subst heq
        exact .inr ⟨rfl, not_lt.mp fun hj => hfirst j hj hjm⟩
      · exact .inl (by omega)
  · refine .inr ⟨hge, fun j m hjm => ?_⟩
    obtain ⟨hj, hj2⟩ := hshort hjm le_rfl hjm.1
    exact hnone j hj hj2

/-- Whether one of the first five words is not zero. -/
theorem bitmap_and_f8 : ∀ b0 b1 b2 b3 b4 b5 b6 b7 : Bool,
    (bitmap [b0, b1, b2, b3, b4, b5, b6, b7] &&& 0xff &&& 0xf8 ≠ 0 ↔
      (b0 || b1 || b2 || b3 || b4) = true) := by
  decide +kernel

/-! ## The whole function -/

/-- The code takes the address for one with an IPv4 address in it. -/
def Embedded (src : Buf) : Prop :=
  (∀ n < 5, word src n = 0) ∧
    (word src 5 = 0xffff ∨ word src 5 = 0 ∧ (word src 6 ≠ 0 ∨ 1 < word src 7))

instance (src : Buf) : Decidable (Embedded src) := inferInstanceAs (Decidable (_ ∧ _))

/-- The dotted quad of the last four bytes. -/
def quad (src : Buf) : List Byte := quadText (src 12) (src 13) (src 14) (src 15)

theorem word_mem_lt (h : w ∈ words src) : w < 65536 := by
  obtain ⟨n, -, rfl⟩ := mem_map.mp h
  exact word_lt src n

theorem bytes_word (src : Buf) (n : Nat) :
    [BitVec.ofNat 8 (word src n / 256), BitVec.ofNat 8 (word src n % 256)] =
      [src (n * 2), src (n * 2 + 1)] := by
  have hdiv : word src n / 256 = (src (n * 2)).toNat := by
    unfold word
    omega
  have hmod : word src n % 256 = (src (n * 2 + 1)).toNat := by
    unfold word
    omega
  rw [hdiv, hmod]
  simp

/-- The words have the bytes of the address. -/
theorem bytes_words (src : Buf) : bytes (words src) = (List.range 16).map src := by
  have hfun : (fun n => [BitVec.ofNat 8 (word src n / 256), BitVec.ofNat 8 (word src n % 256)]) =
      fun n => [src (n * 2), src (n * 2 + 1)] := funext (bytes_word src)
  rw [bytes, words, flatMap_map, hfun]
  rfl

theorem bytes_of_word_eq_zero (h : word src n = 0) : src (n * 2) = 0 ∧ src (n * 2 + 1) = 0 := by
  have hbytes := bytes_word src n
  rw [h] at hbytes
  obtain ⟨h0, h1⟩ := List.cons.inj hbytes
  exact ⟨h0.symm, (List.cons.inj h1).1.symm⟩

/-- The text with the terminator is a string of less than 40 characters. -/
theorem string_of_wrote (h : Wrote 40 buf 0 t buf') (hzero : (0 : Byte) ∉ t)
    (hlen : t.length < 40) :
    ∃ s : Str, s.bytes = t ∧ Holds (stx buf' t.length 0 1) s ∧ s.length < 40 := by
  have h' : Wrote 40 buf 0 (Str.mk t hzero).bytes buf' := h
  exact ⟨⟨t, hzero⟩, rfl, h'.holds, hlen⟩

theorem zero_not_mem_join {gs : List (List Byte)} (h : ∀ g ∈ gs, (0 : Byte) ∉ g) :
    (0 : Byte) ∉ join gs := by
  cases gs with
  | nil => simp [join]
  | cons g gs =>
    rw [join_cons]
    simp only [mem_append, mem_flatMap, mem_cons, not_or, not_exists, not_and]
    refine ⟨h g mem_cons_self, fun x hx => ⟨by decide, h x (mem_cons_of_mem _ hx)⟩⟩

theorem zero_not_mem_map_hexText (ws : List Nat) : ∀ g ∈ ws.map hexText, (0 : Byte) ∉ g := by
  intro g hg
  obtain ⟨w, -, rfl⟩ := mem_map.mp hg
  exact zero_not_mem_hexText w

/-- The code for addresses without an IPv4 address. -/
theorem lnotipv4_spec {rodata : Buf} {rodataSize tbloff : Nat}
    (htbl : ∀ i < 256, rodata (tbloff + i) = tbl.getD i 0) (hsize : tbloff < rodataSize)
    (hat : WordsAt buf 40 (words src)) :
    ∃ s : Str, Holds (lnotipv4 rodata rodataSize tbloff buf
        (bitmap ((words src).map (· ≠ 0)) &&& 0xff)) s ∧ s.length < 40 ∧
      parse s.bytes = some (bytes (words src)) ∧ Canonical (words src) s.bytes := by
  have hidx : (bitmap ((words src).map (· ≠ 0)) &&& 0xff).toNat < 256 := by
    exact lt_of_le_of_lt and_le_right (by decide)
  generalize hr7 : bitmap ((words src).map (· ≠ 0)) &&& 0xff = r7 at *
  have hrun : lnotipv4 rodata rodataSize tbloff buf r7 =
      collapse buf (BitVec.ofNat 64 (tbl.getD r7.toNat 0).toNat) := by
    rw [lnotipv4, if_neg (by omega), ldx_one, htbl _ hidx]
    simp
  have hok : EntryOk ((words src).map (· ≠ 0)) (tbl.getD r7.toNat 0).toNat := by
    rw [← hr7]
    exact tbl_ok _ _ _ _ _ _ _ _
  have hws := fun w (hw : w ∈ words src) => word_mem_lt hw
  have hlen : (words src).length = 8 := rfl
  have hv := (tbl.getD r7.toNat 0).isLt
  generalize (tbl.getD r7.toNat 0).toNat = v at *
  rcases runs_ok hlen hok with ⟨hlt, hlong⟩ | ⟨_, hnone⟩
  · obtain ⟨h2, hle, -⟩ := hlong.1
    obtain ⟨buf', hcol, hwrote, hlen40⟩ := collapse_spec hlen hws hat hlt h2 hle
    rw [div_add_mod] at hcol
    have hzero : (0) ∉ compressed (words src) (v / 16) (v % 16) := by
      rw [compressed]
      simp only [mem_append, mem_cons, not_or]
      exact ⟨zero_not_mem_join (zero_not_mem_map_hexText _), by decide, by decide,
        zero_not_mem_join (zero_not_mem_map_hexText _)⟩
    obtain ⟨s, hs, hholds, hs40⟩ := string_of_wrote hwrote hzero hlen40
    refine ⟨s, by rw [hrun, hcol]; exact hholds, hs40, ?_, .inl ⟨_, _, hlong, hs⟩⟩
    rw [hs, parse_compressed hlen hws hlong.1]
  · obtain ⟨buf', hfull, hwrote, hlen40⟩ := lfull_spec hlen hws hat
    obtain ⟨s, hs, hholds, hs40⟩ := string_of_wrote hwrote
      (zero_not_mem_join (zero_not_mem_map_hexText _)) hlen40
    refine ⟨s, ?_, hs40, by rw [hs, parse_join hlen hws], .inr ⟨hnone, hs⟩⟩
    rw [hrun, collapse, if_pos, hfull]
    · exact hholds
    · rw [le_def]
      simp
      omega

theorem zero_not_mem_quad (src : Buf) : (0 : Byte) ∉ quad src := by
  have hdec : ∀ b : Byte, (0) ∉ decText b.toNat := by decide +kernel
  have hdot : ¬(0 : Byte) = 0x2e := by decide
  simp only [quad, quadText, mem_append, mem_cons, not_or]
  exact ⟨hdec _, hdot, hdec _, hdot, hdec _, hdot, hdec _⟩

/-- A prefix and the dotted quad. -/
theorem quad_string {pbuf : Buf} {p : List Byte} (hraw : ∀ i < 16, buf (40 + 16 + i) = src i)
    (hp : Wrote 40 buf 0 p pbuf) (hzero : (0 : Byte) ∉ p) (hn : p.length = n) (hlen : n ≤ 7)
    (hfit : (quad src).length ≤ strsz) :
    ∃ s : Str, s.bytes = p ++ quad src ∧
      Holds (dtInetNtoa strsz (shift pbuf (40 + 16 + 6 * 2)) pbuf n) s ∧ s.length < 40 := by
  subst hn
  have hsrc : ∀ i < 4, shift pbuf (40 + 16 + 6 * 2) i = src (12 + i) := by
    intro i hi
    rw [shift_apply, hp.behind _ (by omega), ← hraw _ (by omega),
      show 40 + 16 + 6 * 2 + i = 40 + 16 + (12 + i) by omega]
  have hquad : quadText (shift pbuf (40 + 16 + 6 * 2) 0) (shift pbuf (40 + 16 + 6 * 2) 1)
      (shift pbuf (40 + 16 + 6 * 2) 2) (shift pbuf (40 + 16 + 6 * 2) 3) = quad src := by
    rw [hsrc 0 (by decide), hsrc 1 (by decide), hsrc 2 (by decide), hsrc 3 (by decide), quad]
  obtain ⟨_, hrun, hwrote⟩ := dtInetNtoa_spec (shift pbuf (40 + 16 + 6 * 2)) pbuf
    (show _ ≤ strsz by rwa [hquad]) (show p.length + 16 ≤ 40 by omega)
  rw [hquad] at hrun hwrote
  have hlen' := (length_quadText (src 12) (src 13) (src 14) (src 15)).2
  have htotal : (p ++ quad src).length = p.length + (quad src).length := length_append
  obtain ⟨s, hs, hholds, hs40⟩ := string_of_wrote
    (hp.append_of_eq (zero_add _).symm hwrote)
    (fun h => (mem_append.mp h).elim hzero (zero_not_mem_quad src))
    (by rw [htotal]; unfold quad; omega)
  exact ⟨s, hs, by rw [hrun, ← htotal]; exact hholds, hs40⟩

theorem wrote_snoc {b b' : Buf} {v : BitVec 64} {x : Byte} (h : Wrote 40 b 0 t b')
    (hv : v.truncate 8 = x) (hlen : t.length < 40) :
    Wrote 40 b 0 (t ++ [x]) (stx b' t.length v 1) :=
  h.append_of_eq (zero_add _).symm (Wrote.stx b' hv hlen)

/-- The first ten bytes of an address whose first five words are zero. -/
theorem bytes_eq (hzero : ∀ n < 5, word src n = 0) :
    bytes (words src) = List.replicate 10 0 ++ [src 10, src 11, src 12, src 13, src 14, src 15] := by
  have h0 := bytes_of_word_eq_zero (hzero 0 (by decide))
  have h1 := bytes_of_word_eq_zero (hzero 1 (by decide))
  have h2 := bytes_of_word_eq_zero (hzero 2 (by decide))
  have h3 := bytes_of_word_eq_zero (hzero 3 (by decide))
  have h4 := bytes_of_word_eq_zero (hzero 4 (by decide))
  rw [bytes_words, show (List.range 16).map src = [src (0 * 2), src (0 * 2 + 1), src (1 * 2),
    src (1 * 2 + 1), src (2 * 2), src (2 * 2 + 1), src (3 * 2), src (3 * 2 + 1), src (4 * 2),
    src (4 * 2 + 1), src 10, src 11, src 12, src 13, src 14, src 15] from rfl]
  rw [h0.1, h0.2, h1.1, h1.2, h2.1, h2.2, h3.1, h3.2, h4.1, h4.2]
  rfl

/-- The code for addresses with an IPv4 address behind zeros. -/
theorem lipv41_spec (hraw : ∀ i < 16, buf (40 + 16 + i) = src i) (hzero : ∀ n < 5, word src n = 0)
    (h5 : word src 5 = 0) (hfit : (quad src).length ≤ strsz) :
    ∃ s : Str, Holds (lipv41 strsz true buf) s ∧ s.length < 40 ∧
      parse s.bytes = some (bytes (words src)) := by
  have h1 : Wrote 40 buf 0 [0x3a] (stx buf 0 0x3a 1) := wrote_snoc (.nil _ _ _) rfl (by decide)
  have h2 : Wrote 40 buf 0 [0x3a, 0x3a] (stx (stx buf 0 0x3a 1) 1 0x3a 1) :=
    wrote_snoc h1 rfl (by decide)
  obtain ⟨s, hs, hholds, hs40⟩ := quad_string hraw h2 (by decide)
    (show _ = 2 from rfl) (by decide) hfit
  refine ⟨s, by simpa only [lipv41, if_true] using hholds, hs40, ?_⟩
  obtain ⟨h10, h11⟩ := bytes_of_word_eq_zero h5
  have hparse := parse_quadText (src 12) (src 13) (src 14) (src 15)
    (show ∀ w ∈ ([]), w < 65536 by simp) (by simp)
  have htext : [0x3a, 0x3a] ++ quad src = 0x3a :: 0x3a :: join ([].map hexText ++
      [quadText (src 12) (src 13) (src 14) (src 15)]) := by
    rfl
  rw [hs, htext, hparse, bytes_eq hzero, show src 10 = 0 from h10, show src 11 = 0 from h11]
  rfl

/-- The code for mapped IPv4 addresses. -/
theorem lipv42_spec (hraw : ∀ i < 16, buf (40 + 16 + i) = src i) (hzero : ∀ n < 5, word src n = 0)
    (h5 : word src 5 = 0xffff) (hfit : (quad src).length ≤ strsz) :
    ∃ s : Str, Holds (lipv42 strsz true buf) s ∧ s.length < 40 ∧
      parse s.bytes = some (bytes (words src)) := by
  have hp : Wrote 40 buf 0 [0x3a, 0x3a, 0x66, 0x66, 0x66, 0x66, 0x3a] (stx (stx (stx (stx (stx (stx
      (stx buf 0 0x3a 1) 1 0x3a 1) 2 0x66 1) 3 0x66 1) 4 0x66 1) 5 0x66 1) 6 0x3a 1) := by
    have h1 := wrote_snoc (.nil buf 40 0) (v := 0x3a) rfl (by decide)
    have h2 := wrote_snoc h1 (v := 0x3a) rfl (by decide)
    have h3 := wrote_snoc h2 (v := 0x66) rfl (by decide)
    have h4 := wrote_snoc h3 (v := 0x66) rfl (by decide)
    have h₅ := wrote_snoc h4 (v := 0x66) rfl (by decide)
    have h6 := wrote_snoc h₅ (v := 0x66) rfl (by decide)
    exact wrote_snoc h6 rfl (by decide)
  obtain ⟨s, hs, hholds, hs40⟩ := quad_string hraw hp (by decide)
    (show _ = 7 from rfl) (by decide) hfit
  refine ⟨s, by simpa only [lipv42, if_true] using hholds, hs40, ?_⟩
  have hbytes := bytes_word src 5
  rw [h5] at hbytes
  have h10 : src 10 = 0xff := (List.cons.inj hbytes).1.symm
  have h11 : src 11 = 0xff := (List.cons.inj (List.cons.inj hbytes).2).1.symm
  have hparse := parse_quadText (src 12) (src 13) (src 14) (src 15)
    (show ∀ w ∈ [0xffff], w < 65536 by simp) (by simp)
  have htext : [0x3a, 0x3a, 0x66, 0x66, 0x66, 0x66, 0x3a] ++ quad src = 0x3a :: 0x3a ::
      join ([0xffff].map hexText ++ [quadText (src 12) (src 13) (src 14) (src 15)]) := by
    rfl
  rw [hs, htext, hparse, bytes_eq hzero, h10, h11]
  rfl

/-- The test for one of the first five words. -/
theorem and_f8_ne_zero_iff (src : Buf) :
    bitmap ((words src).map (· ≠ 0)) &&& 0xff &&& 0xf8 ≠ 0 ↔ ¬∀ n < 5, word src n = 0 := by
  refine (bitmap_and_f8 _ _ _ _ _ _ _ _).trans ?_
  have hfive : (∀ n < 5, word src n = 0) ↔ word src 0 = 0 ∧ word src 1 = 0 ∧ word src 2 = 0 ∧
      word src 3 = 0 ∧ word src 4 = 0 := by
    simp only [Nat.forall_lt_succ_right, Nat.not_lt_zero, false_implies, implies_true, true_and]
    grind
  rw [hfive]
  simp only [Bool.or_eq_true, decide_eq_true_eq, not_and_or, or_assoc]

theorem ofNat_word_eq {k : Nat} (hk : k < 65536) :
    BitVec.ofNat 64 (word src n) = BitVec.ofNat 64 k ↔ word src n = k := by
  constructor
  · intro h
    have := congrArg BitVec.toNat h
    rwa [toNat_small (word_lt src n), toNat_small hk] at this
  · exact congrArg _

/-- The text of an address is in the buffer. -/
def Written (src buf : Buf) : Prop :=
  ∃ s : Str, Holds buf s ∧ s.length < 40 ∧ parse s.bytes = some (bytes (words src)) ∧
    (¬Embedded src → Canonical (words src) s.bytes)

/-- **IPv6 addresses as text.** The string is read back as the address and has less than 40
characters, and without an IPv4 address it is the canonical text. A dotted quad must fit into the
size of strings. -/
theorem dtInetNtoa6_spec {rodata : Buf} {rodataSize tbloff strsz : Nat}
    (htbl : ∀ i < 256, rodata (tbloff + i) = tbl.getD i 0) (hsize : tbloff < rodataSize)
    (src dst : Buf) (hfit : Embedded src → (quad src).length ≤ strsz) :
    ∃ s : Str, Holds (dtInetNtoa6 strsz rodata rodataSize tbloff true (some src) dst) s ∧
      s.length < 40 ∧ parse s.bytes = some ((List.range 16).map src) ∧
      (¬Embedded src → Canonical (words src) s.bytes) := by
  obtain ⟨hat, hraw, hbits⟩ := getword_spec src dst
  simp only [dtInetNtoa6]
  generalize (List.range 8).foldl getword (probeReadAt dst (40 + 16) 16 src, 0) = st at *
  obtain ⟨buf, _⟩ := st
  subst hbits
  rw [← bytes_words src]
  show Written src _
  -- the three ways out
  have hnot : ¬Embedded src → Written src (lnotipv4 rodata rodataSize tbloff buf
      (bitmap ((words src).map (· ≠ 0)) &&& 0xff)) := by
    intro _
    obtain ⟨s, hholds, hlen, hparse, hcanon⟩ := lnotipv4_spec htbl hsize hat
    exact ⟨s, hholds, hlen, hparse, fun _ => hcanon⟩
  have hldx : ∀ n < 8, ldx buf (40 + n * 2) 2 = BitVec.ofNat 64 (word src n) := by
    intro n hn
    refine hat n _ ?_
    simp [words, hn]
  have h5 : ldx buf (40 + 10) 2 = BitVec.ofNat 64 (word src 5) := hldx 5 (by decide)
  have h6 : ldx buf (40 + 12) 2 = BitVec.ofNat 64 (word src 6) := hldx 6 (by decide)
  have h7 : ldx buf (40 + 14) 2 = BitVec.ofNat 64 (word src 7) := hldx 7 (by decide)
  have hgt : (1) < BitVec.ofNat 64 (word src 7) ↔ 1 < word src 7 := by
    rw [lt_def, toNat_small (word_lt src 7)]
    rfl
  have hffff : BitVec.ofNat 64 (word src 5) = (0xffff) ↔ word src 5 = 0xffff :=
    ofNat_word_eq (by decide)
  have hz : ∀ n, BitVec.ofNat 64 (word src n) = (0) ↔ word src n = 0 :=
    fun n => ofNat_word_eq (by decide)
  rw [h5, h6, h7]
  by_cases hfive : ∀ n < 5, word src n = 0
  · rw [if_neg ((and_f8_ne_zero_iff src).not.mpr (not_not.mpr hfive))]
    have hcompat : word src 5 = 0 → (word src 6 ≠ 0 ∨ 1 < word src 7) →
        Written src (lipv41 strsz true buf) := by
      intro hzero hrest
      have hemb : Embedded src := ⟨hfive, .inr ⟨hzero, hrest⟩⟩
      obtain ⟨s, hholds, hlen, hparse⟩ := lipv41_spec hraw hfive hzero (hfit hemb)
      exact ⟨s, hholds, hlen, hparse, fun hne => absurd hemb hne⟩
    by_cases hmapped : word src 5 = 0xffff
    · rw [if_pos (hffff.mpr hmapped)]
      have hemb : Embedded src := ⟨hfive, .inl hmapped⟩
      obtain ⟨s, hholds, hlen, hparse⟩ := lipv42_spec hraw hfive hmapped (hfit hemb)
      exact ⟨s, hholds, hlen, hparse, fun hne => absurd hemb hne⟩
    · rw [if_neg (hffff.not.mpr hmapped)]
      by_cases hzero : word src 5 = 0
      · rw [if_neg (not_not.mpr ((hz 5).mpr hzero))]
        by_cases hsix : word src 6 = 0
        · rw [if_neg (not_not.mpr ((hz 6).mpr hsix))]
          by_cases hseven : 1 < word src 7
          · rw [if_pos (hgt.mpr hseven)]
            exact hcompat hzero (.inr hseven)
          · rw [if_neg (hgt.not.mpr hseven)]
            exact hnot fun hemb => hemb.2.elim hmapped fun h => h.2.elim (· hsix) hseven
        · rw [if_pos ((hz 6).not.mpr hsix)]
          exact hcompat hzero (.inl hsix)
      · rw [if_pos ((hz 5).not.mpr hzero)]
        exact hnot fun hemb => hemb.2.elim hmapped fun h => hzero h.1
  · rw [if_pos ((and_f8_ne_zero_iff src).mpr hfive)]
    exact hnot fun hemb => hfive hemb.1

/-- The table at the start of the read-only data. -/
def tblRodata : Buf := fun i => tbl.getD i 0

/-- `::1.2.3.4` -/
def compat : Buf := fun i => BitVec.ofNat 8 (if 12 ≤ i then i - 11 else 0)

/-- `2001:db8::1` -/
def global : Buf := fun i => [0x20, 0x01, 0x0d, 0xb8, 0, 0, 0, 0, 0, 0, 0, 0, 0, 0, 0, 0x01].getD i 0

theorem compat_and_global_read_back :
    (∃ s : Str,
      Holds (dtInetNtoa6 15 tblRodata 256 0 true (some compat) fun _ => 0xff) s ∧ s.length < 40 ∧
        parse s.bytes = some ((List.range 16).map compat)) ∧
    ∃ s : Str,
      Holds (dtInetNtoa6 15 tblRodata 256 0 true (some global) fun _ => 0xff) s ∧ s.length < 40 ∧
        parse s.bytes = some ((List.range 16).map global) ∧ Canonical (words global) s.bytes := by
  have htbl : ∀ i < 256, tblRodata (0 + i) = tbl.getD i 0 := fun i _ => by
    rw [Nat.zero_add]
    rfl
  obtain ⟨s, hs, hlen, hparse, -⟩ := dtInetNtoa6_spec htbl (show (0) < 256 by decide) compat
    (fun _ => 0xff) fun _ => show (quad compat).length ≤ 15 by decide +kernel
  obtain ⟨t, ht, htlen, htparse, hcanonical⟩ := dtInetNtoa6_spec htbl (show (0) < 256 by decide)
    global (fun _ => 0xff) fun _ => show (quad global).length ≤ 15 by decide +kernel
  exact ⟨⟨s, hs, hlen, hparse⟩, t, ht, htlen, htparse, hcanonical (by decide +kernel)⟩

/-- With strings of four characters the quad is cut. -/
theorem compat_cut :
    text (dtInetNtoa6 4 tblRodata 256 0 true (some compat) fun _ => 0xff) 40 =
        [0x3a, 0x3a, 0x31, 0x2e, 0x32, 0x2e] ∧
      parse (text (dtInetNtoa6 4 tblRodata 256 0 true (some compat) fun _ => 0xff) 40) = none := by
  have htext : text (dtInetNtoa6 4 tblRodata 256 0 true (some compat) fun _ => 0xff) 40 =
      [0x3a, 0x3a, 0x31, 0x2e, 0x32, 0x2e] := by decide +kernel
  rw [htext]
  decide

end DTrace.Subr
