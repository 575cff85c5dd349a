import DTrace.Subr.Strcmp
import Mathlib.Data.List.Chain
import Mathlib.Data.List.TakeWhile

/-!
# Tokens of a string

`dt_strtok` of `bpf/strtok.S` and its callers' code from `dt_cg_subr_strtok`. The delimiters are
kept as a bit table. The rest of the string is copied to a buffer, each byte is replaced by 1 for
a delimiter and 0 for another character, and the string-copy helper finds the first zero; with
the bytes flipped it finds the end of the token. Between calls the string stays in an internal
buffer, behind the offset at which the next call starts.

`nextToken` is what a call is for. `strtokRun_eq_tokens_iff` compares all calls on one string
with it: when there is no token left, the code stores the length of the rest as if it were an
offset, so the calls that follow look at another part of the string.
-/

namespace DTrace.Subr

open StrBuf Loop List Option

/-! ## The code -/

/-- The four bins of the delimiter table. -/
abbrev Table := Fin 4 → BitVec 64

/-- 1 for the bin that is looked for, 0 for another, without a branch. -/
def binUse (k : Fin 4) (bin : BitVec 64) : BitVec 64 := ((bin ^^^ BitVec.ofNat 64 k) - 1) >>> 63

/-- `dt_strtok_init_table` -/
def dtStrtokInitTable (del : Buf) (len : Nat) : Nat → Nat → Table → Option Table
  | 0, _, _ => none
  | fuel + 1, idx, tab =>
    if idx < len then
      let chr := ldx del idx 1 &&& 0xff
      let bit := 1#64 <<< (chr &&& 63)
      let bin := chr >>> 6
      let tab : Table := fun k => tab k ||| binUse k bin * bit
      if chr = 0 then some tab else dtStrtokInitTable del len fuel (idx + 1) tab
    else some tab

/-- `dt_strtok_lookup` -/
def dtStrtokLookup (tab : Table) (str : Buf) (len fuel : Nat) : Option Buf :=
  whileLt 1 len (fun idx str =>
    let bin := (ldx str idx 1 &&& 255) >>> 6
    let val := 0 + tab 0 * binUse 0 bin + tab 1 * binUse 1 bin + tab 2 * binUse 2 bin +
      tab 3 * binUse 3 bin
    let val := val >>> (ldx str idx 1 &&& 63)
    stx str idx (val &&& 1) 1) fuel 0 str

/-- `dt_strtok_flip` -/
def dtStrtokFlip (str : Buf) (len fuel : Nat) : Option Buf :=
  whileLt 8 len (fun idx str => stx str idx (ldx str idx 8 ^^^ 0x0101010101010101) 8) fuel 0 str

/-- The internal state: the offset, -1 before the first call, and the string. -/
structure StrtokState where
  off : Int
  str : Buf

/-- `dt_strtok`: the state and the returned buffer, if any. -/
def dtStrtok (strsz : Nat) (st : StrtokState) (del dst tmp : Buf) (fuel : Nat) :
    Option (StrtokState × Option Buf) := do
  let len := roundup8 (strsz + 1)
  let tmp := (probeReadStr tmp del (strsz + 1)).1
  let tab ← dtStrtokInitTable tmp len fuel 0 fun _ => 0
  let r4 := if 0 ≤ st.off then st.off else 0
  let (tmp, r0) := probeReadStr tmp (shift st.str r4.toNat) (strsz + 1)
  let endX := r0 - 1
  let tmp ← dtStrtokLookup tab tmp len fuel
  let (dst, r0) := probeReadStr dst tmp (strsz + 1)
  if r0 = 0 then some ({ st with off := endX }, none)
  else
    let bgn := r0 - 1
    if endX ≤ bgn then some ({ st with off := endX }, none)
    else
      let tmp ← dtStrtokFlip tmp len fuel
      let (dst, r0) := probeReadStr dst (shift tmp bgn) (strsz + 1 - bgn)
      if r0 = 0 then some ({ st with off := endX }, none)
      else
        let len := r0 - 1
        let bgn := bgn + st.off
        let bgn := if 0 ≤ bgn then bgn else 0
        let dst := stx (probeRead dst len (shift st.str bgn.toNat)) len 0 1
        some ({ st with off := bgn + len }, some dst)

/-- What a call gives: a fault, which ends the clause, `NULL` or a string. -/
inductive Ret (α : Type)
  | fault
  | null
  | token (a : α)
  deriving DecidableEq

namespace Ret

def ofOption {α : Type} : Option α → Ret α
  | none => null
  | some a => token a

def map {α β : Type} (f : α → β) : Ret α → Ret β
  | fault => fault
  | null => null
  | token a => token (f a)

end Ret

/-- `dt_cg_subr_strtok`: without a string the call goes on with the one before. -/
def dtCgSubrStrtok (strsz : Nat) (st : StrtokState) (str : Option Buf) (del dst tmp : Buf)
    (fuel : Nat) : Option (StrtokState × Ret Buf) :=
  match str with
  | some s => do
    let st := { off := 0, str := (probeReadStr st.str s (strsz + 1)).1 }
    let (st, r0) ← dtStrtok strsz st del dst tmp fuel
    some (st, .ofOption r0)
  | none => do
    if st.off + 1 = 0 then some (st, .fault)
    else
      let (st, r0) ← dtStrtok strsz st del dst tmp fuel
      some (st, .ofOption r0)

/-- The delimiters of a call, in a buffer, and what is in the buffers it writes to. -/
structure StrtokCall where
  d : Str
  del : Buf
  holds : Holds del d
  dst : Buf
  tmp : Buf

/-- Calls of one clause, the first with the string and the others with `NULL`. -/
def strtokRun (strsz fuel : Nat) : StrtokState → Option Buf → List StrtokCall →
    Option (List (Ret Buf))
  | _, _, [] => some []
  | st, str, c :: cs => do
    let (st, r) ← dtCgSubrStrtok strsz st str c.del c.dst c.tmp fuel
    match r with
    | .fault => some [.fault]
    | r =>
      let rs ← strtokRun strsz fuel st none cs
      some (r :: rs)

/-! ## What the calls are for -/

/-- The next token of a string and what is left behind it. -/
def nextToken (d : Str) (rest : List Byte) : Option (List Byte × List Byte) :=
  match rest.dropWhile (· ∈ d.bytes) with
  | [] => none
  | r => some (r.takeWhile (· ∉ d.bytes), r.dropWhile (· ∉ d.bytes))

/-- The results of calls that each start where the one before stopped; when there is no token
there is nothing left. -/
def tokens : List Byte → List Str → List (Ret (List Byte))
  | _, [] => []
  | rest, d :: ds =>
    match nextToken d rest with
    | none => .null :: tokens [] ds
    | some (tok, rest) => .token tok :: tokens rest ds

/-- The results of the C function, which overwrites the delimiter at the end of a token and
starts behind it. -/
def cTokens : List Byte → List Str → List (Ret (List Byte))
  | _, [] => []
  | rest, d :: ds =>
    match nextToken d rest with
    | none => .null :: cTokens [] ds
    | some (tok, rest) => .token tok :: cTokens rest.tail ds

/-- What is left after calls that all found a token. -/
def restAfter : List Byte → List Str → Option (List Byte)
  | rest, [] => some rest
  | rest, d :: ds => (nextToken d rest).bind fun p => restAfter p.2 ds

theorem nextToken_nil (d : Str) : nextToken d [] = none := rfl

variable {d : Str} {rest : List Byte} (tab : Table) {s : List Byte} {ds : List Str}

theorem nextToken_eq_none_iff : nextToken d rest = none ↔ ∀ b ∈ rest, b ∈ d.bytes := by
  have hnil : rest.dropWhile (· ∈ d.bytes) = [] ↔ ∀ b ∈ rest, b ∈ d.bytes := by
    simp
  rw [nextToken]
  split <;> simp_all

/-- Delimiters, a token, and the rest, which starts with a delimiter unless it is empty. -/
theorem nextToken_eq_some {tok rest' : List Byte} (h : nextToken d rest = some (tok, rest')) :
    rest = rest.takeWhile (· ∈ d.bytes) ++ (tok ++ rest') ∧
      tok = (rest.dropWhile (· ∈ d.bytes)).takeWhile (· ∉ d.bytes) ∧
      tok ≠ [] ∧ (∃ b ∈ rest, b ∉ d.bytes) ∧ ∀ b ∈ rest'.head?, b ∈ d.bytes := by
  have hsome : ∃ b ∈ rest, b ∉ d.bytes := by
    have hne : nextToken d rest ≠ none := by simp [h]
    simpa [nextToken_eq_none_iff] using hne
  have heq : tok = (rest.dropWhile (· ∈ d.bytes)).takeWhile (· ∉ d.bytes) ∧
      rest' = (rest.dropWhile (· ∈ d.bytes)).dropWhile (· ∉ d.bytes) := by
    unfold nextToken at h
    split at h
    · cases h
    · cases h
      exact ⟨rfl, rfl⟩
  obtain ⟨rfl, rfl⟩ := heq
  refine ⟨?_, rfl, ?_, hsome, fun b hb => ?_⟩
  · rw [takeWhile_append_dropWhile, takeWhile_append_dropWhile]
  · -- what is left behind the delimiters starts with another character
    have hhead := head?_dropWhile_not (· ∈ d.bytes) rest
    cases hrest : rest.dropWhile (· ∈ d.bytes) with
    | nil =>
      obtain ⟨b, hb, hbd⟩ := hsome
      exact absurd (of_decide_eq_true (dropWhile_eq_nil_iff.mp hrest b hb)) hbd
    | cons x r =>
      rw [hrest] at hhead
      rw [takeWhile_cons_of_pos (by simpa using hhead)]
      exact cons_ne_nil _ _
  · have := head?_dropWhile_not (· ∉ d.bytes) (rest.dropWhile (· ∈ d.bytes))
    rw [mem_def.mp hb] at this
    simpa using this

/-! ## The delimiter table -/

theorem zeroExtend_eq_zero {c : Byte} : c.zeroExtend 64 = 0 ↔ c = 0 := by
  revert c
  decide +kernel

/-- The bin and the bit of a character. -/
def bin (c : Byte) : Fin 4 := ⟨c.toNat / 64, by omega⟩

def bit (c : Byte) : Nat := c.toNat % 64

theorem bit_lt (c : Byte) : bit c < 64 := Nat.mod_lt _ (by decide)

theorem eq_of_bin_bit {c c' : Byte} (hbin : bin c = bin c') (hbit : bit c = bit c') : c = c' := by
  apply BitVec.eq_of_toNat_eq
  simp only [bin, bit, Fin.mk.injEq] at hbin hbit
  omega

theorem binUse_eq (k : Fin 4) (c : Byte) :
    binUse k (c.zeroExtend 64 >>> 6) = if bin c = k then 1#64 else 0#64 := by
  revert k c
  decide +kernel

theorem toNat_and_63 (c : Byte) : (c.zeroExtend 64 &&& 63).toNat = bit c := by
  revert c
  decide +kernel

/-- A character is in the table. -/
def Table.has (tab : Table) (c : Byte) : Bool := (tab (bin c)).getLsbD (bit c)

/-- One step of `dt_strtok_init_table` adds one character. -/
theorem has_add (c c' : Byte) :
    Table.has (fun k => tab k ||| binUse k (c.zeroExtend 64 >>> 6) *
      (1#64 <<< (c.zeroExtend 64 &&& 63))) c' = (tab.has c' || c' = c) := by
  unfold Table.has
  rw [BitVec.getLsbD_or, binUse_eq, BitVec.shiftLeft_eq', toNat_and_63]
  by_cases hbin : bin c = bin c'
  · rw [if_pos hbin]
    by_cases hbit : bit c' = bit c
    · have heq : c' = c := eq_of_bin_bit hbin.symm hbit
      simp [heq, bit_lt c]
    · have hne : c' ≠ c := fun h => hbit (h ▸ rfl)
      simp [hne]
      omega
  · have hne : c' ≠ c := fun h => hbin (h ▸ rfl)
    rw [if_neg hbin]
    simp [hne]

/-- The table of a string has its characters and the terminator. -/
theorem dtStrtokInitTable_spec {del : Buf} {len : Nat} (h : Holds del d) (hlen : d.length < len)
    {fuel idx : Nat} {tab : Table} (hidx : idx ≤ d.length) (hfuel : d.length < idx + fuel)
    (htab : ∀ c, tab.has c ↔ ∃ j < idx, c = d.get j) :
    ∃ tab', dtStrtokInitTable del len fuel idx tab = some tab' ∧
      ∀ c, tab'.has c ↔ c = 0 ∨ c ∈ d.bytes := by
  induction fuel generalizing idx tab with
  | zero => omega
  | succ fuel ih =>
    have hadd : ∀ c, Table.has (fun k => tab k ||| binUse k ((d.get idx).zeroExtend 64 >>> 6) *
        (1#64 <<< ((d.get idx).zeroExtend 64 &&& 63))) c ↔ ∃ j < idx + 1, c = d.get j := by
      intro c
      rw [has_add, Bool.or_eq_true, htab, decide_eq_true_eq]
      exact Nat.exists_lt_succ_right.symm
    unfold dtStrtokInitTable
    rw [if_pos (by omega)]
    simp only [ldx_one, h idx hidx, zeroExtend_and_ff]
    by_cases hend : idx = d.length
    · -- the terminator is the last character to go into the table
      subst hend
      refine ⟨_, if_pos (by rw [Str.get_of_ge le_rfl]; rfl), fun c => (hadd c).trans ?_⟩
      rw [Nat.exists_lt_succ_right, Str.get_of_ge le_rfl, Str.mem_bytes_iff, or_comm]
    · have hne : (d.get idx).zeroExtend 64 ≠ 0 :=
        fun h0 => Str.get_ne_zero (by omega) (zeroExtend_eq_zero.mp h0)
      rw [if_neg hne]
      exact ih (by omega) (by omega) hadd

/-- The bin of the character is picked out of the sum. -/
theorem lookup_val (c : Byte) :
    0 + tab 0 * binUse 0 (c.zeroExtend 64 >>> 6) + tab 1 * binUse 1 (c.zeroExtend 64 >>> 6) +
      tab 2 * binUse 2 (c.zeroExtend 64 >>> 6) + tab 3 * binUse 3 (c.zeroExtend 64 >>> 6) =
      tab (bin c) := by
  simp only [binUse_eq]
  have hcases : ∀ k : Fin 4, 0 + tab 0 * (if k = 0 then 1#64 else 0#64) +
      tab 1 * (if k = 1 then 1#64 else 0#64) + tab 2 * (if k = 2 then 1#64 else 0#64) +
      tab 3 * (if k = 3 then 1#64 else 0#64) = tab k := by
    intro k
    match k with
    | 0 | 1 | 2 | 3 => simp
  exact hcases (bin c)

theorem lookup_byte (c : Byte) :
    (tab (bin c) >>> (c.zeroExtend 64 &&& 63) &&& 1#64).truncate 8 =
      if tab.has c then 1#8 else 0#8 := by
  rw [BitVec.ushiftRight_eq', toNat_and_63, Table.has]
  apply BitVec.eq_of_getLsbD_eq
  intro i hi
  rw [BitVec.getLsbD_setWidth, BitVec.getLsbD_and,
    BitVec.getLsbD_ushiftRight]
  by_cases h0 : i = 0
  · subst h0
    cases (tab (bin c)).getLsbD (bit c) <;> simp
  · cases (tab (bin c)).getLsbD (bit c) <;> simp [h0]

theorem lookup_step (i : Nat) (str : Buf) (j : Nat) :
    stx str i ((0 + tab 0 * binUse 0 ((ldx str i 1 &&& 255) >>> 6) +
      tab 1 * binUse 1 ((ldx str i 1 &&& 255) >>> 6) +
      tab 2 * binUse 2 ((ldx str i 1 &&& 255) >>> 6) +
      tab 3 * binUse 3 ((ldx str i 1 &&& 255) >>> 6)) >>> (ldx str i 1 &&& 63) &&& 1) 1 j =
      if i ≤ j ∧ j < i + 1 then if tab.has (str j) then 1#8 else 0#8 else str j := by
  refine stx_bytewise (f := fun _ b => if tab.has b then 1#8 else 0#8) fun k hk => ?_
  obtain rfl : k = 0 := by omega
  rw [ldx_one, zeroExtend_and_ff, lookup_val]
  exact lookup_byte tab _

/-- A delimiter becomes 1, another character 0. -/
theorem dtStrtokLookup_spec (str : Buf) {len fuel : Nat} (hfuel : len < fuel) :
    ∃ str', dtStrtokLookup tab str len fuel = some str' ∧
      ∀ j < len, str' j = if tab.has (str j) then 1#8 else 0#8 := by
  obtain ⟨str', hrun, hstr'⟩ := whileLt_replaced
    (f := fun _ b => if tab.has b then 1#8 else 0#8) (lookup_step tab) (by decide)
    (Nat.one_dvd _) hfuel
  exact ⟨str', hrun, fun j hj => (hstr' j).trans (if_pos hj)⟩

theorem flip_step (i : Nat) (str : Buf) (j : Nat) :
    stx str i (ldx str i 8 ^^^ 0x0101010101010101) 8 j =
      if i ≤ j ∧ j < i + 8 then str j ^^^ 1#8 else str j := by
  refine stx_bytewise (f := fun _ b => b ^^^ 1#8) fun k hk => ?_
  have hmask : ((0x0101010101010101 : BitVec 64) >>> (8 * k)).truncate 8 = 1#8 := by
    match k, hk with
    | 0, _ | 1, _ | 2, _ | 3, _ | 4, _ | 5, _ | 6, _ | 7, _ => rfl
  rw [BitVec.ushiftRight_xor_distrib, BitVec.truncate_eq_setWidth, BitVec.setWidth_xor, ← hmask,
    ← truncate_ldx (b := str) hk le_rfl]

theorem dtStrtokFlip_spec (str : Buf) {len fuel : Nat} (hdvd : 8 ∣ len) (hfuel : len < fuel) :
    ∃ str', dtStrtokFlip str len fuel = some str' ∧ ∀ j < len, str' j = str j ^^^ 1#8 := by
  obtain ⟨str', hrun, hstr'⟩ := whileLt_replaced (f := fun _ b => b ^^^ 1#8)
    flip_step (by decide) hdvd hfuel
  exact ⟨str', hrun, fun j hj => (hstr' j).trans (if_pos hj)⟩

/-! ## One call -/

/-- The marked copy of what is left of the string: 1 for a delimiter and for the terminator, 0 for
another character. -/
structure Marked (tmp : Buf) (d : Str) (rest : List Byte) (strsz : Nat) : Prop where
  bytes : ∀ i b, rest[i]? = some b → tmp i = if b ∈ d.bytes then 1#8 else 0#8
  terminator : tmp rest.length = 1#8
  length_le : rest.length ≤ strsz

/-- The internal state between calls: a string and an offset into it. -/
structure At (strsz : Nat) (s : Str) (o : Nat) (st : StrtokState) : Prop where
  holds : Holds st.str s
  length_le : s.length ≤ strsz
  off_eq : st.off = o
  off_le : o ≤ s.length

section
variable {strsz fuel o : Nat} {st : StrtokState} {s d : Str} {del : Buf}

/-- The part of the code up to the marked copy. -/
theorem dtStrtok_marked (hst : At strsz s o st) (hd : Holds del d) (hfuel : strsz + 9 ≤ fuel) (tmp : Buf) :
    ∃ tab tmp1 tmp2,
      dtStrtokInitTable (probeReadStr tmp del (strsz + 1)).1 (roundup8 (strsz + 1)) fuel 0
        (fun _ => 0) = some tab ∧
      probeReadStr (probeReadStr tmp del (strsz + 1)).1
        (shift st.str (if 0 ≤ st.off then st.off else 0).toNat) (strsz + 1) =
          (tmp1, s.length - o + 1) ∧
      dtStrtokLookup tab tmp1 (roundup8 (strsz + 1)) fuel = some tmp2 ∧
      Marked tmp2 (d.take strsz) (s.bytes.drop o) strsz := by
  obtain ⟨hs, _, hoff, ho⟩ := hst
  have hle := le_roundup8 (strsz + 1)
  have hlt := roundup8_lt (strsz + 1)
  have htake : (d.take strsz).length ≤ strsz := by rw [Str.length_take]; omega
  have hdrop : (s.drop o).length = s.length - o := Str.length_drop s o
  obtain ⟨tab, htab, hhas⟩ := dtStrtokInitTable_spec
    (show Holds (probeReadStr tmp del (strsz + 1)).1 (d.take strsz) from
      probeReadStr_holds hd (Nat.succ_ne_zero strsz) tmp)
    (show (d.take strsz).length < roundup8 (strsz + 1) by omega) (Nat.zero_le _)
    (show (d.take strsz).length < 0 + fuel by omega)
    (show ∀ c, Table.has (fun _ => 0) c ↔ ∃ j < 0, c = (d.take strsz).get j by simp [Table.has])
  have hrest : Holds (shift st.str (if 0 ≤ st.off then st.off else 0).toNat) (s.drop o) := by
    rw [hoff]
    exact holds_shift hs ho
  obtain ⟨tmp1, hcopy, htmp1⟩ := probeReadStr_of_lt hrest (show _ < strsz + 1 by omega)
    (probeReadStr tmp del (strsz + 1)).1
  obtain ⟨tmp2, hlook, htmp2⟩ := dtStrtokLookup_spec tab tmp1
    (show roundup8 (strsz + 1) < fuel by omega)
  refine ⟨tab, tmp1, tmp2, htab, by rw [hcopy, hdrop], hlook, ⟨fun i b hb => ?_, ?_, ?_⟩⟩
  · have hi : i < (s.drop o).length := (List.getElem?_eq_some_iff.mp hb).1
    have hget : (s.drop o).get i = b := by
      exact congrArg (·.getD 0) hb
    have hb0 : b ≠ 0 := hget ▸ Str.get_ne_zero hi
    rw [htmp2 i (by omega), htmp1 i (by omega), hget]
    simp only [hhas, hb0, false_or]
  · have hlast : (s.bytes.drop o).length = (s.drop o).length := rfl
    rw [hlast, htmp2 _ (by omega), htmp1 _ le_rfl, Str.get_of_ge le_rfl]
    simp [hhas]
  · show (s.drop o).length ≤ strsz
    omega

/-- Without a token the call returns `NULL`, and the length of what was left becomes the
offset. -/
theorem dtStrtok_null (hst : At strsz s o st) (hd : Holds del d) (hfuel : strsz + 9 ≤ fuel) (dst tmp : Buf)
    (hnone : nextToken (d.take strsz) (s.bytes.drop o) = none) :
    dtStrtok strsz st del dst tmp fuel = some ({ st with off := ↑(s.length - o) }, none) := by
  obtain ⟨_, _, tmp2, htab, hcopy, hlook, hmark⟩ :=
    dtStrtok_marked hst hd hfuel tmp
  have hdelim := nextToken_eq_none_iff.mp hnone
  have hbgn : s.length - o ≤ strnlen tmp2 strsz := by
    rw [show s.length - o = (s.bytes.drop o).length from List.length_drop.symm]
    refine le_strnlen hmark.length_le fun i hi => ?_
    rw [hmark.bytes i _ (getElem?_eq_getElem hi), if_pos (hdelim _ (getElem_mem hi))]
    decide
  have hread : probeReadStr dst tmp2 (strsz + 1) =
      ((probeReadStr dst tmp2 (strsz + 1)).1, strnlen tmp2 strsz + 1) := rfl
  simp only [dtStrtok, htab, hcopy, hlook, bind_eq_bind, bind_some]
  rw [hread]
  simp only [Nat.add_sub_cancel, if_pos hbgn, if_neg (Nat.succ_ne_zero _)]

variable {rest tok : List Byte}

/-- Where the code finds the token. -/
theorem Marked.strnlen_eq {tmp : Buf} {rest' : List Byte} (h : Marked tmp d rest strsz)
    (hsome : nextToken d rest = some (tok, rest')) :
    strnlen tmp strsz = (rest.takeWhile (· ∈ d.bytes)).length := by
  obtain ⟨-, -, -, ⟨b, hb, hbd⟩, -⟩ := nextToken_eq_some hsome
  refine strnlen_eq_takeWhile (fun i x hx => ?_) h.length_le (.inr ⟨b, hb, by simp [hbd]⟩)
  rw [h.bytes i x hx]
  by_cases hx : x ∈ d.bytes <;> simp [hx]

/-- Where the code finds the end of the token, in the flipped copy. -/
theorem Marked.strnlen_flip {tmp tmp' : Buf} {rest' : List Byte} {k : Nat}
    (h : Marked tmp d rest strsz) (hsome : nextToken d rest = some (tok, rest'))
    (hflip : ∀ j ≤ strsz, tmp' j = tmp j ^^^ 1#8) (hk : k = (rest.takeWhile (· ∈ d.bytes)).length) :
    strnlen (shift tmp' k) (strsz - k) = tok.length := by
  have hle := h.length_le
  have hkle : k ≤ rest.length := hk ▸ (takeWhile_sublist _).length_le
  have hdrop : rest.dropWhile (· ∈ d.bytes) = rest.drop k := by
    have hleft : (rest.takeWhile (· ∈ d.bytes) ++ rest.dropWhile (· ∈ d.bytes)).drop
        (rest.takeWhile (· ∈ d.bytes)).length = rest.dropWhile (· ∈ d.bytes) := drop_left
    rw [takeWhile_append_dropWhile, ← hk] at hleft
    exact hleft.symm
  have hlen : (rest.drop k).length = rest.length - k := length_drop
  rw [(nextToken_eq_some hsome).2.1, hdrop]
  refine strnlen_eq_takeWhile (fun i x hx => ?_) (by omega) (.inl ?_)
  · rw [getElem?_drop] at hx
    have hlt := (List.getElem?_eq_some_iff.mp hx).1
    rw [shift_apply, hflip _ (by omega), h.bytes _ x hx]
    by_cases hxd : x ∈ d.bytes <;> simp [hxd]
  · rw [shift_apply, hlen, Nat.add_sub_cancel' hkle, hflip _ hle, h.terminator]
    rfl

/-- A token is copied to the destination, and the offset is set to its end. -/
theorem dtStrtok_token (hst : At strsz s o st) (hd : Holds del d) (hfuel : strsz + 9 ≤ fuel)
    (dst tmp : Buf) (hsome : nextToken (d.take strsz) (s.bytes.drop o) = some (tok, rest)) :
    ∃ o' dst', dtStrtok strsz st del dst tmp fuel = some ({ st with off := (o' : Nat) }, some dst') ∧
      o' ≤ s.length ∧ s.bytes.drop o' = rest ∧ text dst' strsz = tok := by
  obtain ⟨tab, tmp1, tmp2, htab, hcopy, hlook, hmark⟩ :=
    dtStrtok_marked hst hd hfuel tmp
  obtain ⟨hs, hlen, _, -⟩ := hst
  have hlt := roundup8_lt (strsz + 1)
  have hle := le_roundup8 (strsz + 1)
  obtain ⟨tmp3, hflip, htmp3⟩ := dtStrtokFlip_spec tmp2 (dvd_roundup8 (strsz + 1))
    (show roundup8 (strsz + 1) < fuel by omega)
  obtain ⟨hsplit, -, hne, -, -⟩ := nextToken_eq_some hsome
  generalize hk : ((s.bytes.drop o).takeWhile (· ∈ (d.take strsz).bytes)) = pre at hsplit
  have hbgn := hmark.strnlen_eq hsome
  have hend := hmark.strnlen_flip hsome (fun j hj => htmp3 j (by omega)) rfl
  rw [hk] at hbgn hend
  -- the lengths of the parts of the string
  have hsum : s.length - o = pre.length + (tok.length + rest.length) := by
    rw [show s.length - o = (s.bytes.drop o).length from List.length_drop.symm, hsplit,
      length_append, length_append]
  have hpos : 0 < tok.length := length_pos_iff.mpr hne
  have htail : s.bytes.drop (o + pre.length) = tok ++ rest := by
    rw [← drop_drop, hsplit, drop_left]
  have hread : probeReadStr dst tmp2 (strsz + 1) =
      ((probeReadStr dst tmp2 (strsz + 1)).1, pre.length + 1) :=
    Prod.ext rfl (congrArg (· + 1) hbgn)
  have hread' : ∀ dst, probeReadStr dst (shift tmp3 pre.length) (strsz + 1 - pre.length) =
      ((probeReadStr dst (shift tmp3 pre.length) (strsz + 1 - pre.length)).1, tok.length + 1) := by
    intro dst
    rw [probeReadStr, if_neg (by omega), show strsz + 1 - pre.length - 1 = strsz - pre.length by omega,
      hend]
  have hoff' : (pre.length) + st.off = ↑(o + pre.length) := by
    omega
  obtain ⟨dst0, hrun⟩ : ∃ dst0, dtStrtok strsz st del dst tmp fuel =
      some ({ st with off := ↑(o + pre.length + tok.length) }, some (stx (probeRead dst0 tok.length
        (shift st.str (o + pre.length))) tok.length 0 1)) := by
    refine ⟨(probeReadStr (probeReadStr dst tmp2 (strsz + 1)).1 (shift tmp3 pre.length)
      (strsz + 1 - pre.length)).1, ?_⟩
    simp only [dtStrtok, htab, hcopy, hlook, bind_eq_bind, bind_some]
    rw [hread]
    simp only [Nat.add_sub_cancel, hflip, bind_some,
      if_neg (show ¬s.length - o ≤ pre.length by omega)]
    rw [hread']
    simp only [hoff']
    rfl
  refine ⟨_, _, hrun, by omega, ?_, ?_⟩
  · rw [← drop_drop, htail, drop_left]
  · rw [text_of_holds (holds_probeRead_stx hs (by omega) _)]
    · show (s.bytes.drop (o + pre.length)).take tok.length = tok
      rw [htail, take_left]
    · rw [Str.length_take]
      omega

/-- A token leaves the state at its end. -/
theorem At.move (hst : At strsz s o st) {o' : Nat} (ho' : o' ≤ s.length) :
    At strsz s o' { st with off := o' } :=
  ⟨hst.holds, hst.length_le, rfl, ho'⟩

end

/-! ## All calls on one string -/

/-- What the code computes, in terms of offsets. -/
def offTokens (s : List Byte) : Nat → List Str → List (Ret (List Byte))
  | _, [] => []
  | o, d :: ds =>
    match nextToken d (s.drop o) with
    | none => .null :: offTokens s (s.length - o) ds
    | some (tok, rest) => .token tok :: offTokens s (s.length - rest.length) ds

section
variable {strsz fuel o : Nat} {st : StrtokState} {s : Str}

/-- One call of a run. -/
theorem dtStrtok_offTokens (hst : At strsz s o st) (hfuel : strsz + 9 ≤ fuel) (c : StrtokCall) :
    ∃ o' st' r, dtStrtok strsz st c.del c.dst c.tmp fuel = some (st', r) ∧ At strsz s o' st' ∧
      ∀ ds, offTokens s.bytes o (c.d.take strsz :: ds) =
        (Ret.ofOption r).map (text · strsz) :: offTokens s.bytes o' ds := by
  cases hnext : nextToken (c.d.take strsz) (s.bytes.drop o) with
  | none =>
    refine ⟨s.length - o, _, none, dtStrtok_null hst c.holds hfuel c.dst c.tmp hnext,
      hst.move (Nat.sub_le _ _), fun ds => ?_⟩
    rw [offTokens, hnext]
    rfl
  | some p =>
    obtain ⟨_, _⟩ := p
    obtain ⟨o', dst', hrun, ho', rfl, rfl⟩ := dtStrtok_token hst c.holds hfuel c.dst c.tmp hnext
    refine ⟨o', _, some dst', hrun, hst.move ho', fun ds => ?_⟩
    have hlen : s.bytes.length - (s.bytes.drop o').length = o' := by
      rw [length_drop]
      exact Nat.sub_sub_self ho'
    simp only [offTokens, hnext, hlen]
    rfl

/-- The results of a run, as strings. -/
def results (strsz : Nat) (run : Option (List (Ret Buf))) : Option (List (Ret (List Byte))) :=
  run.map (List.map (Ret.map (text · strsz)))

/-- The rest of a run behind a call that did not fault. -/
theorem results_cons {r : Option Buf} {run : Option (List (Ret Buf))}
    {rs : List (Ret (List Byte))} (h : results strsz run = some rs) :
    results strsz (do
      match Ret.ofOption r with
      | .fault => some [.fault]
      | r =>
        let rs ← run
        some (r :: rs)) = some ((Ret.ofOption r).map (text · strsz) :: rs) := by
  cases run with
  | none => cases h
  | some l =>
    cases h
    cases r <;> rfl

theorem strtokRun_none (hst : At strsz s o st) (hfuel : strsz + 9 ≤ fuel) (cs : List StrtokCall) :
    results strsz (strtokRun strsz fuel st none cs) =
      some (offTokens s.bytes o (cs.map (·.d.take strsz))) := by
  induction cs generalizing o st with
  | nil => rfl
  | cons c cs ih =>
    obtain ⟨_, _, r, hrun, hst', htokens⟩ := dtStrtok_offTokens hst hfuel c
    have hoff : st.off + 1 ≠ 0 := by
      rw [hst.off_eq]
      omega
    rw [map_cons, htokens, ← results_cons (ih hst')]
    simp only [strtokRun, dtCgSubrStrtok, if_neg hoff, hrun, bind_eq_bind, bind_some]

theorem strtokRun_some {sb : Buf} (hs : Holds sb s) (hfuel : strsz + 9 ≤ fuel)
    (cs : List StrtokCall) :
    results strsz (strtokRun strsz fuel st (some sb) cs) =
      some (offTokens (s.take strsz).bytes 0 (cs.map (·.d.take strsz))) := by
  cases cs with
  | nil => rfl
  | cons c cs =>
    have hcopy : Holds (probeReadStr st.str sb (strsz + 1)).1 (s.take strsz) :=
      probeReadStr_holds hs (Nat.succ_ne_zero strsz) st.str
    have hst : At strsz (s.take strsz) 0
        { off := 0, str := (probeReadStr st.str sb (strsz + 1)).1 } :=
      ⟨hcopy, by rw [Str.length_take]; omega, rfl, Nat.zero_le _⟩
    obtain ⟨_, _, r, hrun, hst', htokens⟩ := dtStrtok_offTokens hst hfuel c
    rw [map_cons, htokens, ← results_cons (strtokRun_none hst' hfuel cs)]
    simp only [strtokRun, dtCgSubrStrtok, hrun, bind_eq_bind, bind_some]

end

/-! ## The code and its purpose -/

theorem ite_mod_two_succ {α : Type} (k : Nat) (p q : α) :
    (if (k + 1) % 2 = 0 then p else q) = if k % 2 = 0 then q else p := by
  by_cases h : k % 2 = 0
  · rw [if_pos h, if_neg (by omega)]
  · rw [if_neg h, if_pos (by omega)]

/-- When there was no token the offset changes between two places. -/
theorem offTokens_eq_null_iff {p q : Nat} (h : p + q = s.length) (ds : List Str) :
    offTokens s p ds = tokens [] ds ↔
      ∀ k d, ds[k]? = some d → nextToken d (s.drop (if k % 2 = 0 then p else q)) = none := by
  induction ds generalizing p q with
  | nil => simp [offTokens, tokens]
  | cons d ds ih =>
    rw [offTokens, tokens, nextToken_nil]
    cases hnext : nextToken d (s.drop p) with
    | none =>
      rw [show s.length - p = q by omega]
      simp only [List.cons.injEq, true_and, ih (show q + p = s.length by omega)]
      constructor
      · intro hall k d' hk
        cases k with
        | zero => cases hk; exact hnext
        | succ k =>
          rw [ite_mod_two_succ]
          exact hall k d' hk
      · intro hall k d' hk
        have := hall (k + 1) d' hk
        rwa [ite_mod_two_succ] at this
    | some r =>
      simp only [List.cons.injEq, reduceCtorEq, false_and, false_iff]
      intro hall
      have := hall 0 d rfl
      simp [hnext] at this

/-- Calls on a string of which `r` is left. After the first one without a token, with `r'` left
at that time, the code looks at the string from `r'.length` on and at `r'` in turn: there must be
no token either. -/
def StaysNull (s r : List Byte) (ds : List Str) : Prop :=
  ∀ ds₁ d ds₂ r', ds = ds₁ ++ d :: ds₂ → restAfter r ds₁ = some r' → nextToken d r' = none →
    ∀ k d', ds₂[k]? = some d' → nextToken d' (if k % 2 = 0 then s.drop r'.length else r') = none

theorem staysNull_nil (s r : List Byte) : StaysNull s r [] :=
  fun ds1 d ds2 r' h => absurd h (by simp)

theorem staysNull_cons_of_none {r : List Byte} (h : nextToken d r = none) :
    StaysNull s r (d :: ds) ↔
      ∀ k d', ds[k]? = some d' → nextToken d' (if k % 2 = 0 then s.drop r.length else r) = none := by
  refine ⟨fun hall => hall [] d ds r rfl rfl h, fun hall ds1 d1 ds2 r' hds hrest hnone => ?_⟩
  cases ds1 with
  | nil =>
    obtain ⟨rfl, rfl⟩ := List.cons.inj hds
    cases hrest
    exact hall
  | cons d2 ds1 =>
    obtain ⟨rfl, -⟩ := List.cons.inj hds
    rw [restAfter, h] at hrest
    cases hrest

theorem staysNull_cons_of_some {r tok : List Byte} (h : nextToken d r = some (tok, rest)) :
    StaysNull s r (d :: ds) ↔ StaysNull s rest ds := by
  constructor
  · intro hall ds1 d1 ds2 r' hds hrest
    refine hall (d :: ds1) d1 ds2 r' (by rw [hds]; rfl) ?_
    rw [restAfter, h]
    exact hrest
  · intro hall ds1 d1 ds2 r' hds hrest hnone
    cases ds1 with
    | nil =>
      obtain ⟨rfl, -⟩ := List.cons.inj hds
      cases hrest
      rw [h] at hnone
      cases hnone
    | cons d2 ds1 =>
      obtain ⟨rfl, hds'⟩ := List.cons.inj hds
      rw [restAfter, h] at hrest
      exact hall ds1 d1 ds2 r' hds' hrest hnone

theorem offTokens_eq_tokens_iff {o : Nat} (ho : o ≤ s.length) (ds : List Str) :
    offTokens s o ds = tokens (s.drop o) ds ↔ StaysNull s (s.drop o) ds := by
  induction ds generalizing o with
  | nil => exact iff_of_true rfl (staysNull_nil _ _)
  | cons d ds ih =>
    cases hnext : nextToken d (s.drop o) with
    | none =>
      rw [staysNull_cons_of_none hnext, offTokens, tokens, hnext]
      simp only [List.cons.injEq, true_and]
      rw [offTokens_eq_null_iff (show s.length - o + o = s.length by omega), length_drop]
      simp only [apply_ite (List.drop · s)]
    | some p =>
      obtain ⟨_, rest⟩ := p
      -- what is left is a suffix of the string
      obtain ⟨hsplit, -⟩ := nextToken_eq_some hnext
      have hsuffix : rest <:+ s := by
        refine IsSuffix.trans ?_ (drop_suffix o s)
        rw [hsplit, ← append_assoc]
        exact suffix_append _ _
      have hdrop : s.drop (s.length - rest.length) = rest := suffix_iff_eq_drop.mp hsuffix |>.symm
      rw [staysNull_cons_of_some hnext, offTokens, tokens, hnext]
      simp only [List.cons.injEq, true_and]
      have := ih (Nat.sub_le s.length rest.length)
      rwa [hdrop] at this

/-- A delimiter at the start makes no difference. -/
theorem nextToken_cons_of_mem {b : Byte} (h : b ∈ d.bytes) (rest : List Byte) :
    nextToken d (b :: rest) = nextToken d rest := by
  rw [nextToken, nextToken, dropWhile_cons_of_pos (by simpa using h)]

/-- If each call has the delimiters of the one before, it does not matter whether the delimiter
behind a token is overwritten. -/
theorem cTokens_eq_tokens (hchain : ds.IsChain (·.bytes ⊆ ·.bytes)) (rest : List Byte) :
    cTokens rest ds = tokens rest ds := by
  induction ds generalizing rest with
  | nil => rfl
  | cons d ds ih =>
    rw [cTokens, tokens]
    cases hnext : nextToken d rest with
    | none => simp only [ih hchain.tail]
    | some p =>
      obtain ⟨_, rest'⟩ := p
      obtain ⟨-, -, -, -, hhead⟩ := nextToken_eq_some hnext
      simp only
      rw [ih hchain.tail]
      cases rest' with
      | nil => rfl
      | cons b rest' =>
        cases ds with
        | nil => rfl
        | cons d' ds =>
          have hb : b ∈ d'.bytes := hchain.rel (hhead b rfl)
          rw [tail_cons, tokens, tokens, nextToken_cons_of_mem hb]

/-- **Calls on one string.** Every sequence of calls returns. It gives the tokens of the string
one after the other, and `NULL` from then on, exactly if `StaysNull`; and that is what the C
function gives when no call drops a delimiter. -/
theorem strtokRun_eq_tokens_iff {strsz fuel : Nat} {sb : Buf} {s : Str} (hs : Holds sb s)
    (hfuel : strsz + 9 ≤ fuel) (st : StrtokState) (cs : List StrtokCall) :
    ∃ rs, results strsz (strtokRun strsz fuel st (some sb) cs) = some rs ∧
      (rs = tokens (s.take strsz).bytes (cs.map (·.d.take strsz)) ↔
        StaysNull (s.take strsz).bytes (s.take strsz).bytes (cs.map (·.d.take strsz))) ∧
      ((cs.map (·.d.take strsz)).IsChain (·.bytes ⊆ ·.bytes) →
        (rs = cTokens (s.take strsz).bytes (cs.map (·.d.take strsz)) ↔
          StaysNull (s.take strsz).bytes (s.take strsz).bytes (cs.map (·.d.take strsz)))) := by
  have hiff := offTokens_eq_tokens_iff (Nat.zero_le (s.take strsz).bytes.length)
    (cs.map (·.d.take strsz))
  exact ⟨_, strtokRun_some hs hfuel cs, hiff, fun hchain => (cTokens_eq_tokens hchain _) ▸ hiff⟩

/-- `"a b"` -/
def aB : Str := ⟨[0x61, 0x20, 0x62], by decide⟩

/-- A call with a blank as the delimiter. -/
def blankCall : StrtokCall where
  d := ⟨[0x20], by decide⟩
  del := Str.get ⟨[0x20], by decide⟩
  holds := fun _ _ => rfl
  dst := fun _ => 0xaa
  tmp := fun _ => 0xbb

theorem aB_three_calls : ∃ rs,
    results 8 (strtokRun 8 17 ⟨-1, fun _ => 0⟩ (some aB.get) (List.replicate 3 blankCall)) =
      some rs ∧ rs = tokens aB.bytes (List.replicate 3 blankCall.d) := by
  obtain ⟨rs, hrun, hiff, -⟩ := strtokRun_eq_tokens_iff (show Holds aB.get aB from fun _ _ => rfl)
    (show 8 + 9 ≤ 17 by decide) ⟨-1, fun _ => 0⟩ (List.replicate 3 blankCall)
  refine ⟨rs, hrun, hiff.mpr ?_⟩
  have hfirst : nextToken blankCall.d aB.bytes = some ([0x61], [0x20, 0x62]) := by decide
  have hsecond : nextToken blankCall.d [0x20, 0x62] = some ([0x62], []) := by decide
  apply (staysNull_cons_of_some hfirst).mpr
  apply (staysNull_cons_of_some hsecond).mpr
  apply (staysNull_cons_of_none (by decide)).mpr
  simp

/-- The fourth call starts at the beginning of the string again. -/
theorem aB_four_calls :
    results 8 (strtokRun 8 17 ⟨-1, fun _ => 0⟩ (some aB.get) (List.replicate 4 blankCall)) =
        some [.token [0x61], .token [0x62], .null, .token [0x61]] ∧
      tokens aB.bytes (List.replicate 4 blankCall.d) =
        [.token [0x61], .token [0x62], .null, .null] ∧
      cTokens aB.bytes (List.replicate 4 blankCall.d) =
        [.token [0x61], .token [0x62], .null, .null] := by
  rw [strtokRun_some (show Holds aB.get aB from fun _ _ => rfl) (by decide)]
  decide

end DTrace.Subr
