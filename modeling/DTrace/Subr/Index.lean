import DTrace.Subr.Strcmp
import Mathlib.Data.Set.Basic

/-!
# Substring search

`dt_index` and `dt_rindex` of `bpf/index.S` and `bpf/rindex.S`. The pattern is copied to one
buffer, a window of the string to another, and the buffers are compared eight bytes at a time;
behind the window both have the same bytes. The comparison ends in arithmetic instead of a
branch: it takes a word for zero when its highest bit is set, and so a mismatch in the highest
bit of every eighth byte for a match. `Seen` says where the code sees the pattern.
-/

namespace DTrace.Subr

open StrBuf Loop

/-! ## The code -/

/-- `dt_index_match`: 1 if the buffers match, 0 if not. -/
def dtIndexMatch (tmp1 tmp2 : Buf) (len fuel : Nat) : Option (BitVec 64) := do
  let r0 ← whileLt 8 len (fun r6 r0 => r0 ||| (ldx tmp1 r6 8 ^^^ ldx tmp2 r6 8)) fuel 0 0
  let r4 := r0 >>> 32
  let r0 := r0 ||| r4
  let r0 := r0 &&& (-1 : BitVec 32).signExtend 64
  let r0 := r0 - 1
  some (r0 >>> 63)

section
variable (s tmp2 : Buf) (buflen tlen fuel : Nat)

/-- `.Lloop` of `dt_index`. -/
def dtIndexLoop (maxi : Nat) : Nat → Nat → Buf → Option Int
  | 0, _, _ => none
  | n + 1, start, tmp1 => do
    if buflen ≤ start then some (-1)
    else if maxi < start then some (-1)
    else
      let tmp1 := probeRead tmp1 tlen (shift s start)
      let r0 ← dtIndexMatch tmp1 tmp2 buflen fuel
      if r0 = 0 then dtIndexLoop maxi n (start + 1) tmp1 else some start

/-- `.Lloop` of `dt_rindex`. -/
def dtRindexLoop (start : Nat) : Nat → Nat → Buf → Option Int
  | 0, _, _ => none
  | n + 1, cnt, tmp1 => do
    if start < cnt then some (-1)
    else if buflen ≤ cnt then some (-1)
    else
      let idx := start - cnt
      if buflen ≤ idx then some (-1)
      else
        let tmp1 := probeRead tmp1 tlen (shift s idx)
        let r0 ← dtIndexMatch tmp1 tmp2 buflen fuel
        if r0 = 0 then dtRindexLoop start n (cnt + 1) tmp1 else some idx

end

/-- `dt_index` -/
def dtIndex (strsz : Nat) (s t : Buf) (start : Int) (tmp1 tmp2 : Buf) (fuel : Nat) : Option Int :=
  let start := if 0 ≤ start then start.toNat else 0
  let buflen := roundup8 strsz
  let (tmp2, tlen) := probeReadStr tmp2 t buflen
  if tlen = 0 then some (-1)
  else
    let (tmp1, r0) := probeReadStr tmp1 s buflen
    if r0 < tlen then some (-1)
    else
      let maxi := r0 - tlen
      let tlen := tlen - 1
      let tmp1 := probeReadAt tmp1 tlen (buflen - tlen) (shift tmp2 tlen)
      dtIndexLoop s tmp2 buflen tlen fuel maxi fuel start tmp1

/-- `dt_rindex` -/
def dtRindex (strsz : Nat) (s t : Buf) (start : Int) (tmp1 tmp2 : Buf) (fuel : Nat) : Option Int :=
  let buflen := roundup8 strsz
  let (tmp2, tlen) := probeReadStr tmp2 t buflen
  if tlen = 0 then some (-1)
  else
    let (tmp1, r0) := probeReadStr tmp1 s buflen
    if r0 < tlen then some (-1)
    else
      let r0 := r0 - tlen
      let start := if 0 ≤ start then start.toNat else r0
      let start := if start ≤ r0 then start else r0
      let tlen := tlen - 1
      let tmp1 := probeReadAt tmp1 tlen (buflen - tlen) (shift tmp2 tlen)
      dtRindexLoop s tmp2 buflen tlen fuel start fuel 0 tmp1

/-! ## The comparison -/

/-- What is left of the accumulated mismatches: zero for none, and for the highest bit. -/
theorem fold_eq_zero_iff (a : BitVec 64) :
    (((a ||| a >>> 32) &&& (-1 : BitVec 32).signExtend 64) - 1) >>> 63 = 0 ↔
      a ≠ 0 ∧ a.msb = false := by
  have hmask : (-1 : BitVec 32).signExtend 64 = BitVec.allOnes 64 := by decide
  rw [hmask, BitVec.and_allOnes]
  by_cases h0 : a = 0
  · subst h0
    decide
  have hf0 : a ||| a >>> 32 ≠ 0 := fun h => h0 (BitVec.or_eq_zero_iff.mp h).1
  have hmsb : (a ||| a >>> 32).msb = a.msb := by
    simp [BitVec.msb_or]
  have hshift : ∀ v : BitVec 64, v >>> 63 = 0 ↔ v.msb = false := fun v => by
    rw [BitVec.msb_eq_false_iff_two_mul_lt, ← BitVec.toNat_inj]
    simp only [BitVec.toNat_ushiftRight, Nat.shiftRight_eq_div_pow]
    show v.toNat / 2 ^ 63 = 0 ↔ _
    omega
  rw [hshift]
  cases h : a.msb with
  | false =>
    have hlt := BitVec.msb_eq_false_iff_two_mul_lt.mp (hmsb.trans h)
    simp only [h0, ne_eq, not_false_eq_true, and_self, iff_true]
    rw [BitVec.msb_eq_false_iff_two_mul_lt]
    bv_omega
  | true =>
    -- bit 31 is set as well, so that taking one away does not reach bit 63
    have hge := BitVec.msb_eq_true_iff_two_mul_ge.mp (hmsb.trans h)
    have h31 : (a ||| a >>> 32).getLsbD 31 = true := by
      rw [BitVec.msb_eq_getLsbD_last] at h
      simp [h]
    have hne : a ||| a >>> 32 ≠ BitVec.ofNat 64 (2 ^ 63) := fun he => by
      rw [he] at h31
      exact absurd h31 (by decide)
    have htrue : ((a ||| a >>> 32) - 1).msb = true := by
      rw [BitVec.msb_eq_true_iff_two_mul_ge]
      bv_omega
    rw [htrue]
    simp

theorem dtIndexMatch_spec (tmp1 tmp2 : Buf) {len fuel : Nat} (hdvd : 8 ∣ len) (hfuel : len < fuel) :
    ∃ v, dtIndexMatch tmp1 tmp2 len fuel = some v ∧ (v ≠ 0 ↔ (∀ j < len, tmp1 j = tmp2 j) ∨
      ∃ j < len, j % 8 = 7 ∧ (tmp1 j ^^^ tmp2 j).msb = true) := by
  -- the accumulated mismatches of the words below the counter
  obtain ⟨a, hrun, hzero, hmsb⟩ := @whileLt_spec _ 8 len fuel 0
    (fun r6 r0 => r0 ||| (ldx tmp1 r6 8 ^^^ ldx tmp2 r6 8)) (0 : BitVec 64)
    (fun i a => (a = 0 ↔ ∀ j < i, tmp1 j = tmp2 j) ∧
      (a.msb = true ↔ ∃ j < i, j % 8 = 7 ∧ (tmp1 j ^^^ tmp2 j).msb = true))
    (by omega) hdvd (Nat.zero_le _) (by omega) (by simp) (by
      rintro i a hi hdvd' ⟨hzero, hmsb⟩
      have hword : ldx tmp1 i 8 ^^^ ldx tmp2 i 8 = 0 ↔ ∀ j < 8, tmp1 (i + j) = tmp2 (i + j) := by
        exact BitVec.xor_eq_zero_iff.trans (ldx_eq_iff le_rfl)
      constructor
      · refine BitVec.or_eq_zero_iff.trans ((and_congr hzero hword).trans ?_)
        constructor
        · rintro ⟨hlow, hhigh⟩ j hj
          by_cases hji : j < i
          · exact hlow j hji
          · rw [← Nat.add_sub_cancel' (Nat.not_lt.mp hji)]
            exact hhigh (j - i) (by omega)
        · exact fun h => ⟨fun j hj => h j (by omega), fun j hj => h (i + j) (by omega)⟩
      · rw [BitVec.msb_or, Bool.or_eq_true, hmsb, BitVec.msb_xor, msb_ldx, msb_ldx, ← BitVec.msb_xor]
        constructor
        · rintro (⟨j, hj, h7, h⟩ | h)
          · exact ⟨j, by omega, h7, h⟩
          · exact ⟨i + 7, by omega, by omega, h⟩
        · rintro ⟨j, hj, h7, h⟩
          by_cases hji : j < i
          · exact .inl ⟨j, hji, h7, h⟩
          · obtain rfl : j = i + 7 := by omega
            exact .inr h)
  refine ⟨_, by rw [dtIndexMatch, hrun]; rfl, ?_⟩
  rw [Ne, fold_eq_zero_iff, not_and_or, not_not, Bool.not_eq_false, hzero, hmsb]

/-! ## What is searched for -/

/-- The string `t` occurs in `s` at `i`. -/
def Occurs (s t : Str) (i : Nat) : Prop :=
  i + t.length ≤ s.length ∧ ∀ j < t.length, s.get (i + j) = t.get j

/-- The result of a search: the first element of a set in an order, or `-1`. -/
def Found (le : Nat → Nat → Prop) (S : Set Nat) (r : Int) : Prop :=
  (∃ i ∈ S, (∀ j ∈ S, le i j) ∧ r = i) ∨ (S = ∅ ∧ r = -1)

/-- Neither set has an element that comes before all of the other. -/
def SameFirst (le : Nat → Nat → Prop) (S T : Set Nat) : Prop :=
  (∀ i ∈ S, ∃ j ∈ T, le j i) ∧ ∀ i ∈ T, ∃ j ∈ S, le j i

theorem found_iff {le : Nat → Nat → Prop} [IsPartialOrder Nat le] {S T : Set Nat} {r : Int}
    (h : Found le S r) : Found le T r ↔ SameFirst le S T := by
  constructor
  · intro h'
    rcases h with ⟨i, hi, hmin, rfl⟩ | ⟨rfl, rfl⟩
    · rcases h' with ⟨k, hk, hmin', hik⟩ | ⟨-, hik⟩
      · obtain rfl : i = k := by exact_mod_cast hik
        exact ⟨fun j hj => ⟨i, hk, hmin j hj⟩, fun j hj => ⟨i, hi, hmin' j hj⟩⟩
      · omega
    · rcases h' with ⟨k, -, -, hik⟩ | ⟨rfl, -⟩
      · omega
      · simp [SameFirst]
  · rintro ⟨hST, hTS⟩
    rcases h with ⟨i, hi, hmin, rfl⟩ | ⟨rfl, rfl⟩
    · obtain ⟨k, hk, hki⟩ := hST i hi
      have hle : ∀ j ∈ T, le i j := fun j hj => by
        obtain ⟨l, hl, hlj⟩ := hTS j hj
        exact trans_of le (hmin l hl) hlj
      obtain rfl : k = i := antisymm_of le hki (hle k hk)
      exact .inl ⟨k, hk, hle, rfl⟩
    · refine .inr ⟨Set.eq_empty_of_forall_notMem fun i hi => ?_, rfl⟩
      obtain ⟨j, hj, -⟩ := hTS i hi
      exact hj

/-! ## Where the code sees a match -/

/-- The pattern and the window are cut to `n` bytes with their terminators. The window matches,
or the highest bits of some eighth byte differ. -/
def Seen (n : Nat) (s t : Str) (i : Nat) : Prop :=
  n ≠ 0 ∧ i + (t.take (n - 1)).length ≤ (s.take (n - 1)).length ∧
    ((∀ j < (t.take (n - 1)).length, s.get (i + j) = t.get j) ∨
      ∃ j < (t.take (n - 1)).length, j % 8 = 7 ∧ (s.get (i + j) ^^^ t.get j).msb = true)

theorem Seen.le {n : Nat} {s t : Str} {i : Nat} (h : Seen n s t i) :
    i ≤ (s.take (n - 1)).length - (t.take (n - 1)).length := by
  have := h.2.1
  omega

section
variable {n fuel tlen : Nat} {s t : Str} {sb tmp2 : Buf}

/-- The buffers agree behind the window. -/
def AgreeBehind (n tlen : Nat) (tmp1 tmp2 : Buf) : Prop := ∀ j, tlen ≤ j → j < n → tmp1 j = tmp2 j

theorem AgreeBehind.window {tmp1 : Buf} (h : AgreeBehind n tlen tmp1 tmp2) (src : Buf) :
    AgreeBehind n tlen (probeRead tmp1 tlen src) tmp2 := fun j hj hn => by
  rw [probeRead, if_neg (by omega), h j hj hn]

/-- The pattern and the string are in their buffers, and there is enough fuel for a
comparison. -/
structure Prepared (n fuel tlen : Nat) (s t : Str) (sb tmp2 : Buf) : Prop where
  pos : n ≠ 0
  dvd : 8 ∣ n
  enough : n < fuel
  len_eq : tlen = (t.take (n - 1)).length
  str : Holds sb s
  pat : ∀ j < tlen, tmp2 j = t.get j

/-- A comparison of the window at `i`. -/
theorem Prepared.window (h : Prepared n fuel tlen s t sb tmp2) {i : Nat}
    (hi : i + tlen ≤ (s.take (n - 1)).length) {tmp1 : Buf} (hb : AgreeBehind n tlen tmp1 tmp2) :
    ∃ v, dtIndexMatch (probeRead tmp1 tlen (shift sb i)) tmp2 n fuel = some v ∧
      (v ≠ 0 ↔ Seen n s t i) := by
  obtain ⟨v, hv, hiff⟩ := dtIndexMatch_spec (probeRead tmp1 tlen (shift sb i)) tmp2 h.dvd h.enough
  refine ⟨v, hv, hiff.trans ?_⟩
  have hls := Str.length_take s (n - 1)
  have hpos := h.pos
  have ht := h.len_eq
  have hlow : ∀ j < tlen, probeRead tmp1 tlen (shift sb i) j = s.get (i + j) := fun j hj => by
    rw [probeRead, if_pos hj, shift_apply, h.str _ (by omega)]
  have hhigh := hb.window (shift sb i)
  rw [Seen, ← ht]
  simp only [ne_eq, hpos, not_false_eq_true, hi, true_and]
  refine or_congr ⟨fun hall j hj => ?_, fun hall j hj => ?_⟩ ⟨?_, ?_⟩
  · rw [← hlow j hj, hall j (by omega), h.pat j hj]
  · by_cases hjt : j < tlen
    · rw [hlow j hjt, hall j hjt, h.pat j hjt]
    · exact hhigh j (by omega) hj
  · rintro ⟨j, hj, h7, hm⟩
    by_cases hjt : j < tlen
    · rw [hlow j hjt, h.pat j hjt] at hm
      exact ⟨j, hjt, h7, hm⟩
    · rw [hhigh j (by omega) hj, BitVec.xor_self] at hm
      exact absurd hm (by decide)
  · rintro ⟨j, hj, h7, hm⟩
    exact ⟨j, by omega, h7, by rw [hlow j hj, h.pat j hj]; exact hm⟩

theorem found_of_isEmpty {le : Nat → Nat → Prop} {S : Set Nat} (h : ∀ i, i ∉ S) :
    Found le S (-1) :=
  .inr ⟨Set.eq_empty_of_forall_notMem h, rfl⟩

/-- The loop of `dt_index` finds the first place from `start` on. -/
theorem Prepared.index (h : Prepared n fuel tlen s t sb tmp2) {maxi : Nat}
    (hmaxi : maxi + tlen = (s.take (n - 1)).length) {k start : Nat} {tmp1 : Buf}
    (hb : AgreeBehind n tlen tmp1 tmp2) (hk : maxi + 2 ≤ start + k) (hpos : 0 < k) :
    ∃ r, dtIndexLoop sb tmp2 n tlen fuel maxi k start tmp1 = some r ∧
      Found (· ≤ ·) { i | start ≤ i ∧ Seen n s t i } r := by
  have ht := h.len_eq
  have hls := Str.length_take s (n - 1)
  induction k generalizing start tmp1 with
  | zero => omega
  | succ k ih =>
    unfold dtIndexLoop
    have hpos := h.pos
    have hout : ∀ i, maxi < start → i ∉ { i | start ≤ i ∧ Seen n s t i } := by
      rintro i hlt ⟨_, hseen⟩
      have := hseen.le
      omega
    by_cases hbuf : n ≤ start
    · rw [if_pos hbuf]
      exact ⟨-1, rfl, found_of_isEmpty fun i => hout i (by omega)⟩
    rw [if_neg hbuf]
    by_cases hmax : maxi < start
    · rw [if_pos hmax]
      exact ⟨-1, rfl, found_of_isEmpty fun i => hout i hmax⟩
    rw [if_neg hmax]
    obtain ⟨v, hv, hseen⟩ := h.window (i := start) (by omega) hb
    simp only [hv, Option.bind_eq_bind, Option.bind_some]
    by_cases hv0 : v = 0
    · rw [if_pos hv0]
      have hnot : ¬Seen n s t start := fun hs => hseen.mpr hs hv0
      have hk' : maxi + 2 ≤ start + 1 + k := by omega
      obtain ⟨r, hr, hfound⟩ := ih (hb.window _) hk' (by omega)
      refine ⟨r, hr, ?_⟩
      have hset : { i | start ≤ i ∧ Seen n s t i } = { i | start + 1 ≤ i ∧ Seen n s t i } := by
        ext i
        refine and_congr_left fun hs => ⟨fun hle => ?_, fun hle => by omega⟩
        exact Nat.lt_of_le_of_ne hle fun he => hnot (he ▸ hs)
      rw [hset]
      exact hfound
    · rw [if_neg hv0]
      exact ⟨start, rfl, .inl ⟨start, ⟨le_rfl, hseen.mp hv0⟩, fun j hj => hj.1, rfl⟩⟩

/-- The loop of `dt_rindex` finds the last place up to `start`. -/
theorem Prepared.rindex (h : Prepared n fuel tlen s t sb tmp2) {start : Nat}
    (hmaxi : start + tlen ≤ (s.take (n - 1)).length) {k cnt : Nat} {tmp1 : Buf}
    (hb : AgreeBehind n tlen tmp1 tmp2) (hk : start + 2 ≤ cnt + k) (hpos : 0 < k) :
    ∃ r, dtRindexLoop sb tmp2 n tlen fuel start k cnt tmp1 = some r ∧
      Found (· ≥ ·) { i | i + cnt ≤ start ∧ Seen n s t i } r := by
  have hls := Str.length_take s (n - 1)
  induction k generalizing cnt tmp1 with
  | zero => omega
  | succ k ih =>
    unfold dtRindexLoop
    have hpos := h.pos
    by_cases hcnt : start < cnt
    · rw [if_pos hcnt]
      exact ⟨-1, rfl, found_of_isEmpty fun i hi => by have := hi.1; omega⟩
    rw [if_neg hcnt, if_neg (by omega)]
    rw [if_neg (by omega)]
    obtain ⟨v, hv, hseen⟩ := h.window (i := start - cnt) (by omega) hb
    simp only [hv, Option.bind_eq_bind, Option.bind_some]
    by_cases hv0 : v = 0
    · rw [if_pos hv0]
      have hnot : ¬Seen n s t (start - cnt) := fun hs => hseen.mpr hs hv0
      have hk' : start + 2 ≤ cnt + 1 + k := by omega
      obtain ⟨r, hr, hfound⟩ := ih (hb.window _) hk' (by omega)
      refine ⟨r, hr, ?_⟩
      have hset : { i | i + cnt ≤ start ∧ Seen n s t i } =
          { i | i + (cnt + 1) ≤ start ∧ Seen n s t i } := by
        ext i
        refine and_congr_left fun hs => ⟨fun hle => ?_, fun hle => by omega⟩
        by_contra hgt
        obtain rfl : i = start - cnt := by omega
        exact hnot hs
      rw [hset]
      exact hfound
    · rw [if_neg hv0]
      refine ⟨_, rfl, .inl ⟨start - cnt, ⟨by omega, hseen.mp hv0⟩, fun j hj => ?_, rfl⟩⟩
      have := hj.1
      omega

end

/-! ## What comes out -/

section
variable {strsz fuel : Nat} {s t : Str} {sb tb : Buf}

theorem seen_le_of_lt {n : Nat} {i : Nat} (h : (s.take (n - 1)).length < (t.take (n - 1)).length) :
    ¬Seen n s t i := fun hs => by
  have := hs.2.1
  omega

/-- The copies and their lengths, for a buffer that is not empty. -/
theorem copies {n : Nat} (hs : Holds sb s) (ht : Holds tb t) (hn : n ≠ 0) (tmp1 tmp2 : Buf) :
    probeReadStr tmp2 tb n = ((probeReadStr tmp2 tb n).1, (t.take (n - 1)).length + 1) ∧
      probeReadStr tmp1 sb n = ((probeReadStr tmp1 sb n).1, (s.take (n - 1)).length + 1) := by
  refine ⟨Prod.ext rfl ?_, Prod.ext rfl ?_⟩
  · rw [probeReadStr_snd ht hn, Str.length_take, Nat.min_comm]
  · rw [probeReadStr_snd hs hn, Str.length_take, Nat.min_comm]

theorem prepared {n : Nat} (hs : Holds sb s) (ht : Holds tb t) (hn : n ≠ 0) (hdvd : 8 ∣ n)
    (hfuel : n < fuel) (tmp2 : Buf) :
    Prepared n fuel (t.take (n - 1)).length s t sb (probeReadStr tmp2 tb n).1 where
  pos := hn
  dvd := hdvd
  enough := hfuel
  len_eq := rfl
  str := hs
  pat j hj := by
    have hlen := Str.length_take t (n - 1)
    rw [probeReadStr_holds ht hn tmp2 j (by omega), Str.get_take _ (by omega)]

theorem agreeBehind_fill {n tlen : Nat} (h : tlen ≤ n) (tmp1 tmp2 : Buf) :
    AgreeBehind n tlen (probeReadAt tmp1 tlen (n - tlen) (shift tmp2 tlen)) tmp2 := by
  intro j hj hn
  rw [probeReadAt, if_pos ⟨hj, by omega⟩, shift_apply, Nat.add_sub_cancel' hj]

theorem toNat_start (start : Int) : (if 0 ≤ start then start.toNat else 0) = start.toNat := by
  split <;> omega

theorem dtIndex_found (hs : Holds sb s) (ht : Holds tb t) (start : Int) (tmp1 tmp2 : Buf)
    (hfuel : strsz + 9 ≤ fuel) :
    ∃ r, dtIndex strsz sb tb start tmp1 tmp2 fuel = some r ∧
      Found (· ≤ ·) { i | start.toNat ≤ i ∧ Seen (roundup8 strsz) s t i } r := by
  have hn := roundup8_lt strsz
  rw [dtIndex, toNat_start]
  by_cases h0 : roundup8 strsz = 0
  · rw [h0]
    exact ⟨-1, rfl, found_of_isEmpty fun i hi => hi.2.1 rfl⟩
  obtain ⟨e2, e1⟩ := copies hs ht h0 tmp1 tmp2
  simp only
  rw [e2, e1]
  by_cases hlt : (s.take (roundup8 strsz - 1)).length + 1 < (t.take (roundup8 strsz - 1)).length + 1
  · rw [if_pos hlt]
    exact ⟨-1, rfl, found_of_isEmpty fun i hi => seen_le_of_lt (by omega) hi.2⟩
  rw [if_neg hlt]
  have hls := Str.length_take s (roundup8 strsz - 1)
  exact (prepared hs ht h0 (dvd_roundup8 _) (by omega) tmp2).index (by omega)
    (agreeBehind_fill (by omega) _ _) (by omega) (by omega)

theorem dtRindex_found (hs : Holds sb s) (ht : Holds tb t) (start : Int) (tmp1 tmp2 : Buf)
    (hfuel : strsz + 9 ≤ fuel) :
    ∃ r, dtRindex strsz sb tb start tmp1 tmp2 fuel = some r ∧
      Found (· ≥ ·) { i | (0 ≤ start → i ≤ start.toNat) ∧ Seen (roundup8 strsz) s t i } r := by
  have hn := roundup8_lt strsz
  rw [dtRindex]
  by_cases h0 : roundup8 strsz = 0
  · rw [h0]
    exact ⟨-1, rfl, found_of_isEmpty fun i hi => hi.2.1 rfl⟩
  obtain ⟨e2, e1⟩ := copies hs ht h0 tmp1 tmp2
  simp only
  rw [e2, e1]
  by_cases hlt : (s.take (roundup8 strsz - 1)).length + 1 < (t.take (roundup8 strsz - 1)).length + 1
  · rw [if_pos hlt]
    exact ⟨-1, rfl, found_of_isEmpty fun i hi => seen_le_of_lt (by omega) hi.2⟩
  rw [if_neg hlt]
  have hls := Str.length_take s (roundup8 strsz - 1)
  let maxi := (s.take (roundup8 strsz - 1)).length + 1 - ((t.take (roundup8 strsz - 1)).length + 1)
  let from_ := if 0 ≤ start then start.toNat else maxi
  let last := if from_ ≤ maxi then from_ else maxi
  have hlast : last ≤ maxi ∧ ∀ i ≤ maxi, i ≤ last ↔ (0 ≤ start → i ≤ start.toNat) := by
    by_cases hneg : 0 ≤ start
    · have hfrom : from_ = start.toNat := if_pos hneg
      refine ⟨?_, fun i hi => ?_⟩ <;> simp only [last] <;> split <;> omega
    · have hfrom : from_ = maxi := if_neg hneg
      simp [last, hfrom, hneg]
  have hk : last + 2 ≤ 0 + fuel := by omega
  obtain ⟨r, hr, hfound⟩ := (prepared hs ht h0 (dvd_roundup8 _) (show _ < fuel by omega) tmp2).rindex
    (by omega) (agreeBehind_fill (by omega) (probeReadStr tmp1 sb (roundup8 strsz)).1 _) hk (by omega)
  refine ⟨r, hr, ?_⟩
  have hset : { i | i + 0 ≤ last ∧ Seen (roundup8 strsz) s t i } =
      { i | (0 ≤ start → i ≤ start.toNat) ∧ Seen (roundup8 strsz) s t i } := by
    ext i
    refine and_congr_left fun hseen => ?_
    have hle := hseen.le
    exact hlast.2 i (by omega)
  rw [← hset]
  exact hfound

/-- **Substring search**: `dt_index` and `dt_rindex` give the first and the last occurrence
exactly if the first and the last place where the code sees the pattern are occurrences. -/
theorem dtIndex_dtRindex_iff (hs : Holds sb s) (ht : Holds tb t) (start : Int) (tmp1 tmp2 : Buf)
    (hfuel : strsz + 9 ≤ fuel) :
    ∃ r r', dtIndex strsz sb tb start tmp1 tmp2 fuel = some r ∧
      dtRindex strsz sb tb start tmp1 tmp2 fuel = some r' ∧
      (Found (· ≤ ·) { i | start.toNat ≤ i ∧ Occurs s t i } r ↔
        SameFirst (· ≤ ·) { i | start.toNat ≤ i ∧ Seen (roundup8 strsz) s t i }
          { i | start.toNat ≤ i ∧ Occurs s t i }) ∧
      (Found (· ≥ ·) { i | (0 ≤ start → i ≤ start.toNat) ∧ Occurs s t i } r' ↔
        SameFirst (· ≥ ·) { i | (0 ≤ start → i ≤ start.toNat) ∧ Seen (roundup8 strsz) s t i }
          { i | (0 ≤ start → i ≤ start.toNat) ∧ Occurs s t i }) := by
  obtain ⟨r, hr, hfound⟩ := dtIndex_found hs ht start tmp1 tmp2 hfuel
  obtain ⟨r', hr', hfound'⟩ := dtRindex_found hs ht start tmp1 tmp2 hfuel
  exact ⟨r, r', hr, hr', found_iff hfound, found_iff hfound'⟩

/-- Without bytes from 128 on, and for strings that fit with their terminators, the code sees
what there is. -/
theorem seen_iff_occurs {n : Nat} (hs : s.length < n) (ht : t.length < n)
    (hs7 : ∀ i, (s.get i).msb = false) (ht7 : ∀ i, (t.get i).msb = false) (i : Nat) :
    Seen n s t i ↔ Occurs s t i := by
  have hls : (s.take (n - 1)).length = s.length := by
    rw [Str.length_take]
    omega
  have hlt : (t.take (n - 1)).length = t.length := by
    rw [Str.length_take]
    omega
  have hn : n ≠ 0 := by omega
  simp [Seen, Occurs, hls, hlt, hn, hs7, ht7]

end

theorem sameFirst_of_eq {le : Nat → Nat → Prop} [IsPartialOrder Nat le] {S T : Set Nat}
    (h : S = T) : SameFirst le S T := by
  subst h
  exact ⟨fun i hi => ⟨i, hi, refl_of le i⟩, fun i hi => ⟨i, hi, refl_of le i⟩⟩

/-- `"abcabd"` -/
def abcabd : Str := ⟨[0x61, 0x62, 0x63, 0x61, 0x62, 0x64], by decide⟩

/-- `"ab"` -/
def ab : Str := ⟨[0x61, 0x62], by decide⟩

theorem msb_get_of_all {s : Str} (h : s.bytes.all fun b => !b.msb) (i : Nat) :
    (s.get i).msb = false := by
  by_cases hi : i < s.length
  · rw [Str.get, List.getD_eq_getElem _ _ hi]
    have := List.all_eq_true.mp h _ (List.getElem_mem hi)
    simpa using this
  · rw [Str.get_of_ge (by omega)]
    rfl

theorem abcabd_search : ∃ r r',
    dtIndex 16 abcabd.get ab.get 1 (fun _ => 0xaa) (fun _ => 0xbb) 25 = some r ∧
      dtRindex 16 abcabd.get ab.get 1 (fun _ => 0xaa) (fun _ => 0xbb) 25 = some r' ∧
      Found (· ≤ ·) { i | 1 ≤ i ∧ Occurs abcabd ab i } r ∧
      Found (· ≥ ·) { i | ((0 : Int) ≤ 1 → i ≤ 1) ∧ Occurs abcabd ab i } r' := by
  have hiff : ∀ i, Seen (roundup8 16) abcabd ab i ↔ Occurs abcabd ab i :=
    seen_iff_occurs (by decide) (by decide) (msb_get_of_all (by decide)) (msb_get_of_all (by decide))
  obtain ⟨r, r', hr, hr', hf, hf'⟩ := dtIndex_dtRindex_iff
    (show Holds abcabd.get abcabd from fun _ _ => rfl) (show Holds ab.get ab from fun _ _ => rfl)
    1 (fun _ => 0xaa) (fun _ => 0xbb) (show 16 + 9 ≤ 25 by decide)
  exact ⟨r, r', hr, hr', hf.mpr (sameFirst_of_eq (by simp only [hiff])),
    hf'.mpr (sameFirst_of_eq (by simp only [hiff]))⟩

/-- Seven letters and a byte with the highest bit set. -/
def latin : Str := ⟨[0x61, 0x61, 0x61, 0x61, 0x61, 0x61, 0x61, 0xe1], by decide⟩

/-- Eight letters. -/
def letters : Str := ⟨[0x61, 0x61, 0x61, 0x61, 0x61, 0x61, 0x61, 0x61], by decide⟩

/-- The eight letters are found in the other string, which does not have them. -/
theorem latin_search :
    dtIndex 16 latin.get letters.get 0 (fun _ => 0) (fun _ => 0) 25 = some 0 ∧
      ∀ i, ¬Occurs latin letters i := by
  constructor
  · obtain ⟨r, hr, hfound⟩ := dtIndex_found
      (show Holds latin.get latin from fun _ _ => rfl)
      (show Holds letters.get letters from fun _ _ => rfl)
      0 (fun _ => 0) (fun _ => 0) (show 16 + 9 ≤ 25 by decide)
    have hseen : Seen (roundup8 16) latin letters 0 :=
      ⟨by decide, by decide, .inr ⟨7, by decide, rfl, by decide⟩⟩
    rcases hfound with ⟨i, -, hmin, rfl⟩ | ⟨hempty, -⟩
    · obtain rfl : i = 0 := Nat.le_zero.mp (hmin 0 ⟨le_rfl, hseen⟩)
      exact hr
    · exact absurd (hempty ▸ (⟨le_rfl, hseen⟩))
        (Set.notMem_empty 0)
  · rintro i ⟨_, hall⟩
    have hlen : letters.length = 8 ∧ latin.length = 8 := by decide
    obtain rfl : i = 0 := by omega
    exact absurd (hall 7 (by decide)) (by decide)

end DTrace.Subr
