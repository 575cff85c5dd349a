import DTrace.Lib.Loop
import DTrace.Lib.StrBuf

/-!
# String comparison

`dt_strcmp` of `bpf/strcmp.S`: both strings are copied to temporary buffers, the buffers are
xored, and the string-copy helper finds the first byte that differs. `STRSZ` bytes are copied
with the terminator, one less than a string can have with it, and the byte at the difference is
read from the first string itself. `dtStrcmp_eq` says what comes out for all strings.
-/

namespace DTrace.Subr

open StrBuf Loop

/-! ## The code -/

/-- `dt_strcmp_xor`: `s[i] ^= t[i]`, a word at a time. -/
def dtStrcmpXor (s t : Buf) (len fuel : Nat) : Option Buf :=
  doWhile 8 len (fun i s => stx s i (ldx s i 8 ^^^ ldx t i 8) 8) fuel 0 s

/-- `dt_strcmp_not`: `s[i] = !s[i]`. -/
def dtStrcmpNot (s : Buf) (len fuel : Nat) : Option Buf :=
  doWhile 1 len (fun i s =>
    let r3 := ldx s i 1 &&& 0xff
    stx s i ((r3 - 1) >>> 63) 1) fuel 0 s

/-- Round up to a multiple of 8. -/
def roundup8 (n : Nat) : Nat := (n + 7) / 8 * 8

/-- The end of `dt_strcmp`, with the place of the difference in `r0`, counted from one. -/
def strcmpTail (strsz : Nat) (s tmp1 tmp2 : Buf) (r6 r7 r0 : Nat) : Int :=
  let r0 := if r0 < strsz then r0 else strsz
  let r0 := r0 - 1
  let (r6, r7) :=
    if r6 < r0 ∨ r7 < r0 then (r6, r7)
    else
      let r7 := ldx tmp2 r0 1 &&& 0xff
      let tmp1 := probeRead tmp1 1 (shift s r0)
      let r6 := ldx tmp1 0 1 &&& 0xff
      (r6.toNat, r7.toNat)
  if r7 < r6 then 1 else if r6 < r7 then -1 else 0

/-- `dt_strcmp`. The registers keep their names. -/
def dtStrcmp (strsz : Nat) (s t tmp1 tmp2 : Buf) (fuel : Nat) : Option Int := do
  let (tmp1, r0) := probeReadStr tmp1 s strsz
  let r6 := if r0 ≤ strsz then r0 else strsz
  let (tmp2, r0) := probeReadStr tmp2 t strsz
  let r7 := if r0 ≤ strsz then r0 else strsz
  let tmp1 := stx tmp1 r6 0 1
  let tmp2 := stx tmp2 r7 0 1
  let r8 := roundup8 strsz
  let tmp1 ← dtStrcmpXor tmp1 tmp2 r8 fuel
  let tmp1 ← dtStrcmpNot tmp1 r8 fuel
  let (tmp1, r0) := probeReadStr tmp1 tmp1 r8
  if r0 = 0 then some 0 else some (strcmpTail strsz s tmp1 tmp2 r6 r7 r0)

/-! ## The loops -/

variable (n : Nat) {fuel : Nat} {s : Str} {strsz : Nat}

theorem dvd_roundup8 : 8 ∣ roundup8 n := ⟨(n + 7) / 8, Nat.mul_comm _ _⟩

theorem le_roundup8 : n ≤ roundup8 n := by
  unfold roundup8
  omega

theorem roundup8_lt : roundup8 n < n + 8 := by
  unfold roundup8
  omega

theorem zeroExtend_and_ff (b : Byte) : b.zeroExtend 64 &&& 0xff = b.zeroExtend 64 := by
  revert b
  decide

theorem xor_step (t : Buf) (i : Nat) (s : Buf) (j : Nat) :
    stx s i (ldx s i 8 ^^^ ldx t i 8) 8 j = if i ≤ j ∧ j < i + 8 then s j ^^^ t j else s j := by
  refine stx_bytewise (f := fun j b => b ^^^ t j) fun k hk => ?_
  rw [← truncate_ldx (b := s) hk le_rfl, ← truncate_ldx (b := t) hk le_rfl]
  apply BitVec.eq_of_getLsbD_eq
  intro l hl
  simp [hl]

/-- `dt_strcmp_not`, for one byte. -/
def notByte (b : Byte) : Byte := if b = 0 then 1 else 0

theorem truncate_notByte (b : Byte) :
    ((b.zeroExtend 64 - 1 : BitVec 64) >>> 63).truncate 8 = notByte b := by
  revert b
  decide

theorem not_step (i : Nat) (s : Buf) (j : Nat) :
    stx s i (((ldx s i 1 &&& 0xff) - 1) >>> 63) 1 j =
      if i ≤ j ∧ j < i + 1 then notByte (s j) else s j := by
  refine stx_bytewise (f := fun _ b => notByte b) fun k hk => ?_
  obtain rfl : k = 0 := by omega
  rw [ldx_one, zeroExtend_and_ff]
  exact truncate_notByte _

theorem dtStrcmpXor_spec (s t : Buf) {len : Nat} (hdvd : 8 ∣ len) (hpos : 0 < len)
    (hfuel : len ≤ fuel) :
    ∃ s', dtStrcmpXor s t len fuel = some s' ∧ ∀ j < len, s' j = s j ^^^ t j := by
  obtain ⟨s', hrun, hs'⟩ := doWhile_replaced (f := fun j b => b ^^^ t j) (xor_step t) (by decide) hdvd hpos hfuel
  exact ⟨s', hrun, fun j hj => (hs' j).trans (if_pos hj)⟩

theorem dtStrcmpNot_spec (s : Buf) {len : Nat} (hpos : 0 < len) (hfuel : len ≤ fuel) :
    ∃ s', dtStrcmpNot s len fuel = some s' ∧ ∀ j < len, s' j = notByte (s j) := by
  obtain ⟨s', hrun, hs'⟩ := doWhile_replaced not_step (by decide)
    (Nat.one_dvd _) hpos hfuel
  exact ⟨s', hrun, fun j hj => (hs' j).trans (if_pos hj)⟩

/-! ## What comes out -/

/-- A copy with the byte behind its terminator set to zero as well. -/
theorem copy_get {src : Buf} {n : Nat} (h : Holds src s) (hn : n ≠ 0) (dst : Buf) {i : Nat}
    (hi : i ≤ min s.length (n - 1) + 1) :
    stx (probeReadStr dst src n).1 (min s.length (n - 1) + 1) 0 1 i = (s.take (n - 1)).get i := by
  by_cases heq : i = min s.length (n - 1) + 1
  · subst heq
    rw [show min s.length (n - 1) + 1 = min s.length (n - 1) + 1 + 0 from rfl, stx_add (by omega),
      Str.get_of_ge (by rw [Str.length_take]; omega)]
    rfl
  · rw [stx_of_lt (by omega)]
    exact probeReadStr_holds h hn dst i (by rw [Str.length_take]; omega)

/-- What `dt_strcmp` returns. If the strings agree as far as they are copied, it compares the
last byte that would fit of the first one with zero, whenever that byte is not behind the
terminator by more than one. -/
def strcmpResult (strsz : Nat) (s t : Str) (sb : Buf) : Int :=
  if strsz = 0 then 0
  else if s.take (strsz - 1) ≠ t.take (strsz - 1) then s.compare t
  else if s.length + 2 < strsz then 0
  else if sb (strsz - 1) = 0 then 0 else 1

theorem notByte_eq_zero {b c : Byte} : notByte (b ^^^ c) = 0 ↔ b ≠ c := by
  unfold notByte
  by_cases h : b = c
  · subst h
    simp
  · simp [h]

/-- The buffer in which the first difference is looked for. -/
theorem diff_buf (a b : Buf) (hsz : strsz ≠ 0) (hfuel : strsz + 8 ≤ fuel) :
    ∃ x y, dtStrcmpXor a b (roundup8 strsz) fuel = some x ∧
      dtStrcmpNot x (roundup8 strsz) fuel = some y ∧
      ∀ j < roundup8 strsz, (y j = 0 ↔ a j ≠ b j) := by
  have hle := le_roundup8 strsz
  have hlt := roundup8_lt strsz
  obtain ⟨x, hx, hxj⟩ := dtStrcmpXor_spec a b (dvd_roundup8 strsz) (by omega)
    (show roundup8 strsz ≤ fuel by omega)
  obtain ⟨y, hy, hyj⟩ := dtStrcmpNot_spec x (by omega) (show roundup8 strsz ≤ fuel by omega)
  refine ⟨x, y, hx, hy, fun j hj => ?_⟩
  rw [hyj j hj, hxj j hj, notByte_eq_zero]

theorem strcmpTail_of_gt {s tmp1 tmp2 : Buf} {r6 r0 : Nat} (h : r6 + 1 < r0)
    (hsz : r6 + 1 < strsz) : strcmpTail strsz s tmp1 tmp2 r6 r6 r0 = 0 := by
  have hlt : r6 < (if r0 < strsz then r0 else strsz) - 1 := by split <;> omega
  simp [strcmpTail, hlt]

theorem toNat_ldx_and (b : Buf) (i : Nat) : (ldx b i 1 &&& 0xff).toNat = (b i).toNat := by
  rw [ldx_one, zeroExtend_and_ff, BitVec.toNat_setWidth]
  omega

/-- The bytes at the place of the difference are compared. -/
theorem strcmpTail_of_le {s tmp1 tmp2 : Buf} {r6 r7 r0 e : Nat}
    (he : (if r0 < strsz then r0 else strsz) - 1 = e) (h6 : e ≤ r6) (h7 : e ≤ r7) :
    strcmpTail strsz s tmp1 tmp2 r6 r7 r0 =
      if tmp2 e < s e then 1 else if s e < tmp2 e then -1 else 0 := by
  have hnot : ¬(r6 < e ∨ r7 < e) := by omega
  simp only [strcmpTail, he, if_neg hnot, toNat_ldx_and]
  rfl

/-- **What `dt_strcmp` returns**, for all strings of at most `STRSZ` characters and whatever is
in the buffers behind them. -/
theorem dtStrcmp_eq {t : Str} {sb tb : Buf} (hs : Holds sb s) (ht : Holds tb t) (tmp1 tmp2 : Buf)
    (hfuel : strsz + 8 ≤ fuel) :
    dtStrcmp strsz sb tb tmp1 tmp2 fuel = some (strcmpResult strsz s t sb) := by
  by_cases hsz : strsz = 0
  · subst hsz
    obtain ⟨fuel, rfl⟩ : ∃ n, fuel = n + 1 := ⟨fuel - 1, by omega⟩
    rfl
  have hle := le_roundup8 strsz
  let p := min s.length (strsz - 1)
  let q := min t.length (strsz - 1)
  let a := stx (probeReadStr tmp1 sb strsz).1 (p + 1) 0 1
  let b := stx (probeReadStr tmp2 tb strsz).1 (q + 1) 0 1
  obtain ⟨x, y, hx, hy, hdiff⟩ := diff_buf a b hsz hfuel
  have hrun : dtStrcmp strsz sb tb tmp1 tmp2 fuel = some (strcmpTail strsz sb
      (probeReadStr y y (roundup8 strsz)).1 b (p + 1) (q + 1)
      (strnlen y (roundup8 strsz - 1) + 1)) := by
    have e1 : probeReadStr tmp1 sb strsz = ((probeReadStr tmp1 sb strsz).1, p + 1) :=
      Prod.ext rfl (probeReadStr_snd hs hsz tmp1)
    have e2 : probeReadStr tmp2 tb strsz = ((probeReadStr tmp2 tb strsz).1, q + 1) :=
      Prod.ext rfl (probeReadStr_snd ht hsz tmp2)
    have e3 : probeReadStr y y (roundup8 strsz) =
        ((probeReadStr y y (roundup8 strsz)).1, strnlen y (roundup8 strsz - 1) + 1) := by
      rw [probeReadStr, if_neg (by omega)]
    rw [dtStrcmp, e1, e2]
    simp only [if_pos (show p + 1 ≤ strsz by omega), if_pos (show q + 1 ≤ strsz by omega)]
    rw [show dtStrcmpXor _ _ _ _ = some x from hx]
    simp only [Option.bind_eq_bind, Option.bind_some, hy]
    rw [e3]
    rfl
  have ha : ∀ i ≤ p + 1, a i = (s.take (strsz - 1)).get i := fun i hi => copy_get hs hsz tmp1 hi
  have hb : ∀ i ≤ q + 1, b i = (t.take (strsz - 1)).get i := fun i hi => copy_get ht hsz tmp2 hi
  rw [hrun, strcmpResult, if_neg hsz]
  congr 1
  by_cases hne : s.take (strsz - 1) = t.take (strsz - 1)
  · have hpq : p = q := by
      have := congrArg Str.length hne
      rw [Str.length_take, Str.length_take] at this
      omega
    have hfar : min (p + 2) (roundup8 strsz - 1) ≤ strnlen y (roundup8 strsz - 1) := by
      refine le_strnlen (by omega) fun i hi => ?_
      rw [Ne, hdiff i (by omega), not_not, ha i (by omega), hb i (by omega), hne]
    rw [if_neg (not_not.mpr hne), ← hpq]
    by_cases hshort : s.length + 2 < strsz
    · rw [if_pos hshort]
      exact strcmpTail_of_gt (by omega) (by omega)
    · -- the search stops at the last byte
      have hlast : (if strnlen y (roundup8 strsz - 1) + 1 < strsz then
          strnlen y (roundup8 strsz - 1) + 1 else strsz) - 1 = strsz - 1 := by
        split <;> omega
      have hzero : b (strsz - 1) = 0 := by
        rw [hb _ (by omega), Str.get_of_ge (by rw [Str.length_take]; omega)]
      rw [if_neg hshort, strcmpTail_of_le hlast (by omega) (by omega), hzero]
      by_cases h0 : sb (strsz - 1) = 0
      · simp [h0]
      · have hpos : (0 : Byte) < sb (strsz - 1) := by bv_omega
        rw [if_pos hpos, if_neg h0]
  · obtain ⟨d, hd, hpre⟩ := Str.exists_first_diff hne
    obtain ⟨hdp, hdq⟩ := Str.first_diff_le hpre hd
    rw [Str.length_take] at hdp hdq
    have hdlt : d < strsz - 1 := by
      by_contra hge
      exact hd (by rw [Str.get_of_ge, Str.get_of_ge] <;> rw [Str.length_take] <;> omega)
    have hfound : strnlen y (roundup8 strsz - 1) = d := by
      refine strnlen_eq (by omega) (fun i hi => ?_) (.inr ?_)
      · rw [Ne, hdiff i (by omega), not_not, ha i (by omega), hb i (by omega)]
        exact hpre i hi
      · rw [hdiff d (by omega), ha d (by omega), hb d (by omega)]
        exact hd
    have hplace : (if strnlen y (roundup8 strsz - 1) + 1 < strsz then
        strnlen y (roundup8 strsz - 1) + 1 else strsz) - 1 = d := by
      rw [hfound, if_pos (by omega)]
      rfl
    have hget : ∀ i ≤ d, (s.take (strsz - 1)).get i = s.get i ∧ (t.take (strsz - 1)).get i = t.get i :=
      fun i hi => ⟨Str.get_take _ (by omega), Str.get_take _ (by omega)⟩
    rw [(hget d le_rfl).1, (hget d le_rfl).2] at hd
    rw [if_pos hne, strcmpTail_of_le hplace (by omega) (by omega), hb d (by omega),
      hs d (by omega), (hget d le_rfl).2, Str.compare_of_first_diff (fun i hi => ?_) hd]
    · by_cases hlt : s.get d < t.get d
      · have hnot : ¬t.get d < s.get d := by bv_omega
        rw [if_neg hnot, if_pos hlt, if_pos hlt]
      · have hgt : t.get d < s.get d := by bv_omega
        rw [if_pos hgt, if_neg hlt]
    · rw [← (hget i hi.le).1, ← (hget i hi.le).2]
      exact hpre i hi

/-- The strings are compared as they are: they differ in what is copied, or the last byte that
would fit tells the truth. -/
def StrcmpExact (strsz : Nat) (s t : Str) (sb : Buf) : Prop :=
  strsz = 0 ∨ s.take (strsz - 1) ≠ t.take (strsz - 1) ∨ s.length + 2 < strsz ∨
    (s.length + 2 = strsz ∧ sb (strsz - 1) = 0) ∨
    (strsz ≤ s.length + 1 ∧ (t.length < strsz ∨ t.bytes < s.bytes))

/-- The last byte that fits decides, if the strings agree before it. -/
theorem last_byte_iff {n : Nat} {t : Str} (htake : s.take n = t.take n) (hs : n ≤ s.length)
    (hsn : s.length ≤ n + 1) (htn : t.length ≤ n + 1) :
    (if s.get n = 0 then 0 else 1 : Int) = s.compare t ↔ t.length < n + 1 ∨ t.bytes < s.bytes := by
  have hpre : ∀ i < n, s.get i = t.get i := fun i hi => Str.get_eq_of_take_eq htake hi
  by_cases heq : s.get n = t.get n
  · have hst : s = t := by
      refine Str.ext_get fun i => ?_
      rcases Nat.lt_trichotomy i n with hi | rfl | hi
      · exact hpre i hi
      · exact heq
      · rw [Str.get_of_ge (by omega), Str.get_of_ge (by omega)]
    subst hst
    have hirr : ¬s.bytes < s.bytes := List.lt_irrefl _
    rw [Str.compare_self]
    by_cases h0 : s.get n = 0
    · have hlen := Str.get_eq_zero_iff.mp h0
      simp only [h0, if_true, true_iff]
      omega
    · have hlen : ¬s.length < n + 1 := fun h => h0 (Str.get_of_ge (by omega))
      rw [if_neg h0]
      simp [hlen]
  · rw [Str.compare_of_first_diff hpre heq, Str.gt_iff_of_first_diff hpre heq]
    by_cases ht : t.get n = 0
    · have hlen := Str.get_eq_zero_iff.mp ht
      have hs0 : s.get n ≠ 0 := fun h => heq (h.trans ht.symm)
      have hnot : ¬s.get n < 0 := by bv_omega
      rw [if_neg hs0, ht, if_neg hnot]
      omega
    · have hlen : ¬t.length < n + 1 := fun h => ht (Str.get_of_ge (by omega))
      by_cases hlt : s.get n < t.get n
      · have hnot : ¬t.get n < s.get n := by bv_omega
        simp only [hlen, hnot]
        split <;> decide
      · have hgt : t.get n < s.get n := by bv_omega
        have hs0 : s.get n ≠ 0 := by bv_omega
        rw [if_neg hlt, if_neg hs0]
        simp [hgt]

/-- **String comparison is lexicographic** exactly for strings that are shorter than `STRSZ`
(the first one by one more, or followed by a zero), apart from a second string of `STRSZ`
characters that is less than the first, and from a difference before the last two bytes. -/
theorem dtStrcmp_eq_compare_iff {strsz fuel : Nat} {s t : Str} {sb tb : Buf} (hs : Holds sb s)
    (ht : Holds tb t) (hsn : s.length ≤ strsz) (htn : t.length ≤ strsz) (tmp1 tmp2 : Buf)
    (hfuel : strsz + 8 ≤ fuel) :
    dtStrcmp strsz sb tb tmp1 tmp2 fuel = some (s.compare t) ↔ StrcmpExact strsz s t sb := by
  rw [dtStrcmp_eq hs ht tmp1 tmp2 hfuel, strcmpResult, StrcmpExact]
  by_cases hsz : strsz = 0
  · have hst : s = t := Str.ext_get fun i => by
      rw [Str.get_of_ge (by omega), Str.get_of_ge (by omega)]
    subst hst
    simp [hsz, Str.compare_self]
  by_cases hdiff : s.take (strsz - 1) ≠ t.take (strsz - 1)
  · simp [hsz, hdiff]
  have htake := not_not.mp hdiff
  by_cases hshort : s.length + 2 < strsz
  · obtain rfl := Str.eq_of_take_eq htake (by omega)
    simp [hshort, Str.compare_self]
  by_cases hlast : strsz ≤ s.length + 1
  · have hn : strsz - 1 + 1 = strsz := by omega
    have hiff := last_byte_iff htake (by omega) (by omega) (by omega)
    rw [← hs (strsz - 1) (by omega), hn] at hiff
    have hne : s.length + 2 ≠ strsz := by omega
    simpa [hsz, htake, hshort, hlast, hne] using hiff
  · -- one less than that: the byte is behind the terminator of the first string
    obtain rfl := Str.eq_of_take_eq htake (by omega)
    have heq : s.length + 2 = strsz := by omega
    simp [← heq, Str.compare_self]

/-- `"abcd"` -/
def abcd : Str := ⟨[0x61, 0x62, 0x63, 0x64], by decide⟩

/-- `"abd"` -/
def abd : Str := ⟨[0x61, 0x62, 0x64], by decide⟩

theorem dtStrcmp_abcd_abd :
    dtStrcmp 8 abcd.get abd.get (fun _ => 0xaa) (fun _ => 0xbb) 16 = some (-1) :=
  (dtStrcmp_eq_compare_iff (fun _ _ => rfl) (fun _ _ => rfl) (by decide) (by decide) _ _
    (by decide)).mpr (.inr (.inl (by decide)))

/-- With a string size of 4, `"abcd"` is greater than itself. -/
theorem dtStrcmp_abcd_self :
    abcd.length ≤ 4 ∧ dtStrcmp 4 abcd.get abcd.get (fun _ => 0) (fun _ => 0) 12 = some 1 ∧
      abcd.compare abcd = 0 := by
  rw [dtStrcmp_eq (fun _ _ => rfl) (fun _ _ => rfl) _ _ (by decide)]
  decide

end DTrace.Subr
