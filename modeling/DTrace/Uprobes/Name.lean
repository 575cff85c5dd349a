import DTrace.Lib.ByteMem

/-!
# Names of uprobes

Names of providers and probes become parts of names of uprobes, in which there are only letters,
digits and underscores. `uprobeEncodeName` writes other characters as `__XX`, and `__` as `___`.

`uprobeDecodeName` looks at the wrong character to tell `___` from `__XX`, and its first loop does
not go on when it finds neither. `decode_encode_iff` says for which names it gives back the name: a
run of underscores before a letter, a digit or the end has to be odd, and one before another
character even. `encode_not_injective` is a pair of names that are encoded alike, and
`decode_finishes_iff` says for which names the decoder ends at all.
-/

namespace DTrace.Uprobes

open List

abbrev Byte := Fin 256

/-! ## Encoding -/

def isalpha (c : Byte) : Bool := (65 ≤ c.val && c.val ≤ 90) || (97 ≤ c.val && c.val ≤ 122)

def isdigit (c : Byte) : Bool := 48 ≤ c.val && c.val ≤ 57

/-- `0123456789abcdef` -/
def hexdigits : List Byte := [48, 49, 50, 51, 52, 53, 54, 55, 56, 57, 97, 98, 99, 100, 101, 102]

def isalnum (c : Byte) : Bool := isalpha c || isdigit c

/-- A character that is not part of `__`. -/
def encodeChar (c : Byte) : List Byte :=
  if !isalpha c && !isdigit c && c ≠ 95 then
    [95, 95, hexdigits.getD (c.val / 16) 0, hexdigits.getD (c.val % 16) 0]
  else [c]

/-- `__` at the end is not encoded. -/
def uprobeEncodeName : List Byte → List Byte
  | c :: c' :: c'' :: name =>
    if c = 95 ∧ c' = 95 then 95 :: 95 :: 95 :: uprobeEncodeName (c'' :: name)
    else encodeChar c ++ uprobeEncodeName (c' :: c'' :: name)
  | c :: name => encodeChar c ++ uprobeEncodeName name
  | [] => []

/-- How often `strstr()` finds `__`, each time after the one before. -/
def countPairs : List Byte → Nat
  | c :: c' :: name =>
    if c = 95 ∧ c' = 95 then countPairs name + 1 else countPairs (c' :: name)
  | _ => 0

/-- The size of the encoded name, without the terminator. -/
def encodeSize (name : List Byte) : Nat :=
  name.length + countPairs name + 3 * name.countP fun c => !isalpha c && !isdigit c && c ≠ 95

theorem encodeChar_spec (c : Byte) :
    (encodeChar c).length = 1 + 3 * (if !isalpha c && !isdigit c && c ≠ 95 then 1 else 0) ∧
      ∀ d ∈ encodeChar c, isalnum d ∨ d = 95 := by
  have hhex : ∀ n < 16, isalnum (hexdigits.getD n 0) = true := by decide
  have hlow := hhex (c.val % 16) (by omega)
  have hhigh := hhex (c.val / 16) (by omega)
  unfold encodeChar
  split
  · exact ⟨rfl, by simp [-getD_eq_getElem?_getD, hlow, hhigh]⟩
  · next h =>
    refine ⟨rfl, fun d hd => ?_⟩
    obtain rfl := mem_singleton.mp hd
    simpa [isalnum, or_iff_not_imp_left] using h

/-- A character that does not begin an encoded pair. -/
theorem encodeChar_fits {c : Byte} {name : List Byte}
    (hpairs : countPairs name ≤ countPairs (c :: name))
    (h : (uprobeEncodeName name).length ≤ encodeSize name ∧
      ∀ d ∈ uprobeEncodeName name, isalnum d ∨ d = 95) :
    (encodeChar c ++ uprobeEncodeName name).length ≤ encodeSize (c :: name) ∧
      ∀ d ∈ encodeChar c ++ uprobeEncodeName name, isalnum d ∨ d = 95 := by
  obtain ⟨hlen, hall⟩ := encodeChar_spec c
  refine ⟨?_, fun d hd => (mem_append.mp hd).elim (hall d) (h.2 d)⟩
  have hrest := h.1
  unfold encodeSize at hrest ⊢
  rw [length_append, hlen, length_cons, countP_cons]
  omega

/-- **An encoded name fits** in the memory that the first two loops compute the size of, and has
only letters, digits and underscores in it. -/
theorem encode_fits (s : List Byte) : (uprobeEncodeName s).length ≤ encodeSize s ∧
    ∀ d ∈ uprobeEncodeName s, isalnum d ∨ d = 95 := by
  fun_induction uprobeEncodeName s with
  | case1 c c' c'' name h ih =>
    obtain ⟨rfl, rfl⟩ := h
    have hpairs : countPairs (95 :: 95 :: c'' :: name) = countPairs (c'' :: name) + 1 := rfl
    refine ⟨?_, by simpa using ih.2⟩
    simp only [encodeSize, hpairs, length_cons, countP_cons] at ih ⊢
    omega
  | case2 c c' c'' name h ih =>
    have hpairs : countPairs (c :: c' :: c'' :: name) = countPairs (c' :: c'' :: name) := if_neg h
    exact encodeChar_fits hpairs.ge ih
  | case3 c name h ih =>
    refine encodeChar_fits ?_ ih
    match name, h with
    | [], _ => exact Nat.zero_le _
    | [_], _ => exact Nat.zero_le _
    | c' :: c'' :: name, h => exact (h c' c'' name rfl).elim
  | case4 => simp

/-! ## Decoding -/

/-- `strstr(p, "__")`: what is before it, and the rest. -/
def strstr : List Byte → Option (List Byte × List Byte)
  | [] => none
  | c :: p =>
    if c = 0 then none
    else if c = 95 ∧ p.head? = some 95 then some ([], c :: p)
    else (strstr p).map fun (skipped, q) => (c :: skipped, q)

/-- `strspn(p, hexdigits)` -/
def strspn : List Byte → Nat
  | [] => 0
  | c :: p => if c ∈ hexdigits then strspn p + 1 else 0

def strlen (p : List Byte) : Nat := (p.takeWhile (· ≠ 0)).length

/-- The first loop, which finds the size of the result. It does not end if `__` is neither followed
by another underscore one further on nor by digits. -/
def decodeSize : Nat → List Byte → Nat → Option Nat
  | 0, _, _ => none
  | fuel + 1, p, sz =>
    match strstr p with
    | none => some sz
    | some (_, p) =>
      if p.getD 3 0 = 95 then decodeSize fuel (p.drop 3) ((sz + 2 ^ 64 - 1) % 2 ^ 64)
      else if strspn (p.drop 2) ≥ 2 then decodeSize fuel (p.drop 4) ((sz + 2 ^ 64 - 3) % 2 ^ 64)
      else decodeSize fuel p sz

def hexval (c : Byte) : Nat := if isdigit c then c.val - 48 else c.val - 97 + 10

/-- The second loop. -/
def decodeLoop : Nat → List Byte → List Byte → Option (List Byte)
  | 0, _, _ => none
  | fuel + 1, p, out =>
    match strstr p with
    | none => some (out ++ p.takeWhile (· ≠ 0))
    | some (skipped, p) =>
      let out := out ++ skipped
      if p.getD 3 0 = 95 then decodeLoop fuel (p.drop 3) (out ++ [95, 95])
      else if strspn (p.drop 2) ≥ 2 then
        decodeLoop fuel (p.drop 4)
          (out ++ [Fin.ofNat 256 (hexval (p.getD 2 0) * 16 + hexval (p.getD 3 0))])
      else decodeLoop fuel (p.drop 2) (out ++ [95, 95])

/-- `name` is the string with its terminator and what comes after it. -/
def uprobeDecodeName (fuel : Nat) (name : List Byte) : Option (List Byte) :=
  match decodeSize fuel name (strlen name) with
  | none => none
  | some _ => decodeLoop fuel name []

/-! ## Steps of the decoder -/

variable {p out r : List Byte} {c : Byte}

/-- Whether the first loop ends does not depend on the size. -/
theorem decodeSize_eq_none_iff {fuel : Nat} (sz sz' : Nat) :
    decodeSize fuel p sz = none ↔ decodeSize fuel p sz' = none := by
  induction fuel generalizing p sz sz' with
  | zero => exact Iff.rfl
  | succ fuel ih =>
    rw [decodeSize, decodeSize]
    cases strstr p with
    | none => simp
    | some split =>
      dsimp only
      split
      · exact ih _ _
      · split
        · exact ih _ _
        · exact ih _ _

/-- The first loop ends, and the second one with `r`. -/
def Decodes (p out r : List Byte) : Prop :=
  ∃ fuel, decodeSize fuel p 0 ≠ none ∧ decodeLoop fuel p out = some r

/-- Some fuel is needed. -/
theorem decodes_iff_succ : Decodes p out r ↔
    ∃ fuel, decodeSize (fuel + 1) p 0 ≠ none ∧ decodeLoop (fuel + 1) p out = some r := by
  constructor
  · rintro ⟨fuel, hsize, hloop⟩
    cases fuel with
    | zero => cases hloop
    | succ fuel => exact ⟨fuel, hsize, hloop⟩
  · rintro ⟨fuel, h⟩
    exact ⟨fuel + 1, h⟩

theorem strstr_pair (p : List Byte) : strstr (95 :: 95 :: p) = some ([], 95 :: 95 :: p) := by
  rw [strstr, if_neg (by decide), if_pos ⟨rfl, rfl⟩]

section

variable {fuel sz : Nat}

theorem decodeSize_plain (hc : c ≠ 0) (h : ¬(c = 95 ∧ p.head? = some 95)) :
    decodeSize fuel (c :: p) sz = decodeSize fuel p sz := by
  cases fuel with
  | zero => rfl
  | succ fuel =>
    rw [decodeSize, decodeSize, strstr, if_neg hc, if_neg h]
    cases strstr p <;> rfl

theorem decodeLoop_plain (hc : c ≠ 0) (h : ¬(c = 95 ∧ p.head? = some 95)) :
    decodeLoop fuel (c :: p) out = decodeLoop fuel p (out ++ [c]) := by
  cases fuel with
  | zero => rfl
  | succ fuel =>
    rw [decodeLoop, decodeLoop, strstr, if_neg hc, if_neg h]
    cases strstr p with
    | none => simp [hc]
    | some split => simp

/-- `___` before another underscore. -/
theorem decode_under (h : (95 :: 95 :: c :: p).getD 3 0 = 95) (fuel sz : Nat) (out : List Byte) :
    decodeSize (fuel + 1) (95 :: 95 :: c :: p) sz = decodeSize fuel p ((sz + 2 ^ 64 - 1) % 2 ^ 64) ∧
      decodeLoop (fuel + 1) (95 :: 95 :: c :: p) out = decodeLoop fuel p (out ++ [95, 95]) := by
  rw [decodeSize, decodeLoop, strstr_pair]
  dsimp only
  rw [if_pos h, if_pos h, append_nil]
  exact ⟨rfl, rfl⟩

/-- `__XX` -/
theorem decode_hex {x y : Byte} (hx : x ∈ hexdigits) (hy : y ∈ hexdigits) (fuel sz : Nat)
    (out : List Byte) :
    decodeSize (fuel + 1) (95 :: 95 :: x :: y :: p) sz =
        decodeSize fuel p ((sz + 2 ^ 64 - 3) % 2 ^ 64) ∧
      decodeLoop (fuel + 1) (95 :: 95 :: x :: y :: p) out =
        decodeLoop fuel p (out ++ [Fin.ofNat 256 (hexval x * 16 + hexval y)]) := by
  have hthird : ¬(95 :: 95 :: x :: y :: p).getD 3 0 = 95 := by
    rintro (rfl)
    exact absurd hy (by decide)
  have hspan : strspn ((95 :: 95 :: x :: y :: p).drop 2) ≥ 2 := by
    rw [drop_succ_cons, drop_succ_cons, drop_zero, strspn, if_pos hx, strspn,
      if_pos hy]
    omega
  rw [decodeSize, decodeLoop, strstr_pair]
  dsimp only
  rw [if_neg hthird, if_neg hthird, if_pos hspan, if_pos hspan, append_nil]
  exact ⟨rfl, rfl⟩

/-- Neither of both: the first loop does not end. -/
theorem decodeSize_stuck (h : (95 :: 95 :: p).getD 3 0 ≠ 95) (hspan : strspn p < 2) :
    decodeSize fuel (95 :: 95 :: p) sz = none := by
  have hspan' : ¬strspn ((95 :: 95 :: p).drop 2) ≥ 2 := Nat.not_le.mpr hspan
  induction fuel with
  | zero => rfl
  | succ fuel ih =>
    rw [decodeSize, strstr_pair]
    dsimp only
    rw [if_neg h, if_neg hspan']
    exact ih

/-- A character that does not begin `__` is copied. -/
theorem decodes_plain (hc : c ≠ 0) (h : ¬(c = 95 ∧ p.head? = some 95)) :
    Decodes (c :: p) out r ↔ Decodes p (out ++ [c]) r := by
  simp only [Decodes, decodeSize_plain hc h, decodeLoop_plain hc h]

theorem decodes_under (h : (95 :: 95 :: c :: p).getD 3 0 = 95) :
    Decodes (95 :: 95 :: c :: p) out r ↔ Decodes p (out ++ [95, 95]) r := by
  rw [decodes_iff_succ]
  refine exists_congr fun fuel => ?_
  obtain ⟨hsize, hloop⟩ := decode_under h fuel 0 out
  rw [hsize, hloop, ne_eq, decodeSize_eq_none_iff _ 0]

theorem decodes_hex {x y : Byte} (hx : x ∈ hexdigits) (hy : y ∈ hexdigits) :
    Decodes (95 :: 95 :: x :: y :: p) out r ↔
      Decodes p (out ++ [Fin.ofNat 256 (hexval x * 16 + hexval y)]) r := by
  rw [decodes_iff_succ]
  refine exists_congr fun fuel => ?_
  obtain ⟨hsize, hloop⟩ := decode_hex hx hy fuel 0 out
  rw [hsize, hloop, ne_eq, decodeSize_eq_none_iff _ 0]

theorem not_decodes_stuck (h : (95 :: 95 :: p).getD 3 0 ≠ 95) (hspan : strspn p < 2) :
    ¬Decodes (95 :: 95 :: p) out r :=
  fun ⟨_, hne, _⟩ => hne (decodeSize_stuck h hspan)

theorem strspn_underscore (p : List Byte) : strspn (95 :: p) < 2 := Nat.two_pos

/-- At the terminator. -/
theorem decodes_nul : Decodes (0 :: p) out r ↔ r = out := by
  constructor
  · rintro ⟨fuel, _, hloop⟩
    cases fuel with
    | zero => cases hloop
    | succ fuel => simpa [decodeLoop, strstr, eq_comm] using hloop
  · rintro rfl
    exact ⟨1, by simp [decodeSize, strstr], by simp [decodeLoop, strstr]⟩

end

/-- The result begins with what was written. -/
theorem decodeLoop_length {fuel : Nat} (h : decodeLoop fuel p out = some r) :
    out.length ≤ r.length ∧ (∀ c ∈ p.head?, c ≠ 0 → out.length < r.length) := by
  induction fuel generalizing p out with
  | zero => cases h
  | succ fuel ih =>
    rw [decodeLoop] at h
    cases hstr : strstr p with
    | none =>
      rw [hstr] at h
      obtain rfl := Option.some.inj h
      rw [length_append]
      refine ⟨by omega, fun c hc hne => ?_⟩
      obtain ⟨p', rfl⟩ := head?_eq_some_iff.mp hc
      simp [hne]
    | some split =>
      rw [hstr] at h
      dsimp only at h
      -- every branch writes something
      have hgrow : ∀ p' x y, decodeLoop fuel p' (out ++ x ++ y) = some r → y ≠ [] →
          out.length < r.length := by
        intro p' x y hloop hy
        have := (ih hloop).1
        have := length_pos_iff.mpr hy
        rw [length_append, length_append] at *
        omega
      suffices out.length < r.length from ⟨by omega, fun _ _ _ => this⟩
      split at h
      · exact hgrow _ _ _ h (cons_ne_nil _ _)
      · split at h
        · exact hgrow _ _ _ h (cons_ne_nil _ _)
        · exact hgrow _ _ _ h (cons_ne_nil _ _)

/-- `__` at the end: what is after the terminator is looked at. -/
theorem not_decodes_pair_nul {junk : List Byte} :
    ¬Decodes (95 :: 95 :: 0 :: junk) out (out ++ [95, 95]) := by
  by_cases hjunk : (95 :: 95 :: 0 :: junk).getD 3 0 = 95
  case pos =>
    rw [decodes_under hjunk]
    rintro ⟨_, _, hloop⟩
    cases junk with
    | nil => exact absurd hjunk (by decide)
    | cons c junk =>
      have hc : c ≠ 0 := by
        rintro rfl
        exact absurd (show (0 : Byte) = 95 from hjunk) (by decide)
      exact Nat.lt_irrefl _ ((decodeLoop_length hloop).2 c rfl hc)
  case neg => exact not_decodes_stuck hjunk Nat.two_pos

/-! ## Runs of underscores -/

/-- What comes after `k` underscores: a run before a letter, a digit or the end is odd, and one
before another character even. -/
def RunsOk : Nat → List Byte → Prop
  | k, [] => k = 0 ∨ k % 2 = 1
  | k, c :: s =>
    if c = 95 then RunsOk (k + 1) s
    else (k = 0 ∨ (k % 2 = 1 ↔ isalnum c)) ∧ RunsOk 0 s

instance decidableRunsOk : ∀ k s, Decidable (RunsOk k s)
  | k, [] => inferInstanceAs (Decidable (k = 0 ∨ k % 2 = 1))
  | k, c :: s =>
    have := decidableRunsOk (k + 1) s
    have := decidableRunsOk 0 s
    inferInstanceAs (Decidable (if c = 95 then RunsOk (k + 1) s
      else (k = 0 ∨ (k % 2 = 1 ↔ isalnum c)) ∧ RunsOk 0 s))

/-- Two more do not matter. -/
theorem runsOk_add_two {k : Nat} (hk : k ≠ 0) (s : List Byte) : RunsOk (k + 2) s ↔ RunsOk k s := by
  induction s generalizing k with
  | nil =>
    rw [RunsOk, RunsOk]
    omega
  | cons c s ih =>
    rw [RunsOk, RunsOk]
    split
    case isTrue => exact ih (by omega)
    case isFalse => simp [hk]

theorem runsOk_underscore (k : Nat) (s : List Byte) : RunsOk k (95 :: s) ↔ RunsOk (k + 1) s := by
  rw [RunsOk, if_pos rfl]

theorem runsOk_zero_cons (hc : c ≠ 95) (s : List Byte) : RunsOk 0 (c :: s) ↔ RunsOk 0 s := by
  rw [RunsOk, if_neg hc]
  simp

/-! ## What is decoded after it was encoded -/

theorem encode_cons_of_ne (hc : c ≠ 95) (s : List Byte) :
    uprobeEncodeName (c :: s) = encodeChar c ++ uprobeEncodeName s := by
  match s with
  | [] => rfl
  | [_] => rfl
  | c' :: c'' :: s => rw [uprobeEncodeName, if_neg fun h => hc h.1]

/-- The two digits of an ASCII character. -/
theorem hex_spec : ∀ c : Byte, c.val < 128 →
    hexdigits.getD (c.val / 16) 0 ∈ hexdigits ∧ hexdigits.getD (c.val % 16) 0 ∈ hexdigits ∧
      Fin.ofNat 256 (hexval (hexdigits.getD (c.val / 16) 0) * 16 +
        hexval (hexdigits.getD (c.val % 16) 0)) = c := by
  decide +kernel

theorem encodeChar_of_alnum (hc : isalnum c = true) : encodeChar c = [c] := by
  rw [encodeChar]
  rw [isalnum, Bool.or_eq_true] at hc
  rcases hc with hc | hc <;> simp [hc]

theorem encodeChar_of_not_alnum (hc : isalnum c = false) (hne : c ≠ 95) :
    encodeChar c = [95, 95, hexdigits.getD (c.val / 16) 0, hexdigits.getD (c.val % 16) 0] := by
  rw [isalnum, Bool.or_eq_false_iff] at hc
  rw [encodeChar]
  simp [hc.1, hc.2, hne]

theorem not_alnum_underscore (hc : isalnum c = true) : c ≠ 95 := by
  rintro rfl
  exact absurd hc (by decide)

section

variable {s junk out : List Byte} {c : Byte}

variable {r : List Byte}

/-- One character that is not an underscore. -/
theorem decodes_char (hc : c ≠ 95) (hzero : c ≠ 0) (hascii : c.val < 128) {p : List Byte} :
    Decodes (encodeChar c ++ p) out r ↔ Decodes p (out ++ [c]) r := by
  cases halnum : isalnum c with
  | true =>
    rw [encodeChar_of_alnum halnum]
    exact decodes_plain hzero fun h => hc h.1
  | false =>
    obtain ⟨hhigh, hlow, hval⟩ := hex_spec c hascii
    rw [encodeChar_of_not_alnum halnum hc, cons_append, cons_append, cons_append,
      cons_append, nil_append, decodes_hex hhigh hlow, hval]

/-- One underscore before something else. -/
theorem decodes_underscore {d : Byte} (hd : d ≠ 95) (hascii : d.val < 128) :
    Decodes (95 :: uprobeEncodeName (d :: s) ++ 0 :: junk) out r ↔
      isalnum d = true ∧ Decodes (uprobeEncodeName (d :: s) ++ 0 :: junk) (out ++ [95]) r := by
  cases halnum : isalnum d with
  | true =>
    rw [encode_cons_of_ne hd, encodeChar_of_alnum halnum, cons_append]
    rw [decodes_plain (by decide) (by simpa using hd)]
    simp
  | false =>
    obtain ⟨hhigh, _, _⟩ := hex_spec d hascii
    rw [encode_cons_of_ne hd, encodeChar_of_not_alnum halnum hd]
    refine iff_of_false (not_decodes_stuck ?_ ?_) (by simp)
    · intro (h : hexdigits.getD (d.val / 16) 0 = 95)
      rw [h] at hhigh
      exact absurd hhigh (by decide)
    · exact strspn_underscore _

/-- After an encoded `__`. -/
theorem decodes_pair {d : Byte} :
    Decodes (95 :: 95 :: 95 :: (uprobeEncodeName (d :: s) ++ 0 :: junk)) out r ↔
      isalnum d = false ∧
        Decodes (uprobeEncodeName (d :: s) ++ 0 :: junk) (out ++ [95, 95]) r := by
  cases halnum : isalnum d with
  | true =>
    have hd := not_alnum_underscore halnum
    rw [encode_cons_of_ne hd, encodeChar_of_alnum halnum]
    exact iff_of_false (not_decodes_stuck (by simpa using hd) (strspn_underscore _)) (by simp)
  | false =>
    have hhead : ∃ q, uprobeEncodeName (d :: s) = 95 :: q := by
      by_cases hd : d = 95
      case pos =>
        subst hd
        match s with
        | [] => exact ⟨_, rfl⟩
        | [_] => exact ⟨_, rfl⟩
        | c' :: c'' :: s =>
          rw [uprobeEncodeName]
          split
          · exact ⟨_, rfl⟩
          · exact ⟨_, rfl⟩
      case neg =>
        rw [encode_cons_of_ne hd, encodeChar_of_not_alnum halnum hd]
        exact ⟨_, rfl⟩
    obtain ⟨q, hq⟩ := hhead
    rw [hq, decodes_under rfl]
    simp

end

theorem encode_underscore {d : Byte} (hd : d ≠ 95) (s : List Byte) :
    uprobeEncodeName (95 :: d :: s) = 95 :: uprobeEncodeName (d :: s) := by
  match s with
  | [] => rfl
  | e :: s =>
    rw [uprobeEncodeName, if_neg fun h => hd h.2]
    rfl

/-- The step for a character that does not begin `__`. -/
theorem decodes_encode_cons {s junk : List Byte} (hs : ∀ d ∈ c :: s, d ≠ 0 ∧ d.val < 128)
    (hnot : ¬(c = 95 ∧ s.head? = some 95))
    (ih : ∀ out, Decodes (uprobeEncodeName s ++ 0 :: junk) out (out ++ s) ↔ RunsOk 0 s)
    (out : List Byte) :
    Decodes (uprobeEncodeName (c :: s) ++ 0 :: junk) out (out ++ c :: s) ↔ RunsOk 0 (c :: s) := by
  have ih := ih (out ++ [c])
  rw [append_assoc, singleton_append] at ih
  by_cases hc : c = 95
  case neg =>
    obtain ⟨hzero, hascii⟩ := hs c mem_cons_self
    rw [encode_cons_of_ne hc, append_assoc, decodes_char hc hzero hascii, ih,
      runsOk_zero_cons hc]
  case pos =>
    subst hc
    cases s with
    | nil =>
      have hone : RunsOk 0 [95] := by decide
      refine iff_of_true ?_ hone
      rw [show uprobeEncodeName [95] ++ 0 :: junk = 95 :: 0 :: junk from rfl,
        decodes_plain (by decide) (by simp), decodes_nul]
    | cons d s =>
      have hd : d ≠ 95 := fun h => hnot ⟨rfl, by rw [h]; rfl⟩
      obtain ⟨_, hascii⟩ := hs d (mem_cons_of_mem _ mem_cons_self)
      rw [encode_underscore hd, decodes_underscore hd hascii, ih, runsOk_zero_cons hd,
        runsOk_underscore, RunsOk, if_neg hd]
      simp

theorem decodes_encode_iff {s : List Byte} (hs : ∀ c ∈ s, c ≠ 0 ∧ c.val < 128)
    (junk out : List Byte) :
    Decodes (uprobeEncodeName s ++ 0 :: junk) out (out ++ s) ↔ RunsOk 0 s := by
  -- along the recursion of the encoder
  induction s using uprobeEncodeName.induct generalizing out with
  | case1 c c' c'' s h ih =>
    obtain ⟨rfl, rfl⟩ := h
    have hrest : Decodes (uprobeEncodeName (c'' :: s) ++ 0 :: junk) (out ++ [95, 95])
        (out ++ 95 :: 95 :: c'' :: s) ↔ RunsOk 0 (c'' :: s) := by
      have := ih (fun c hc => hs c (by simp_all)) (out ++ [95, 95])
      rwa [append_assoc] at this
    rw [uprobeEncodeName, if_pos ⟨rfl, rfl⟩]
    simp only [cons_append]
    rw [decodes_pair, hrest, runsOk_underscore, runsOk_underscore]
    by_cases hc : c'' = 95
    case pos =>
      subst hc
      rw [runsOk_underscore, runsOk_underscore, runsOk_add_two (by decide)]
      simp [show isalnum 95 = false from by decide]
    case neg =>
      rw [runsOk_zero_cons hc, RunsOk, if_neg hc]
      simp
  | case2 c c' c'' s h ih =>
    refine decodes_encode_cons hs (by simpa using h) (fun out => ?_) out
    exact ih (fun c hc => hs c (mem_cons_of_mem _ hc)) out
  | case3 c s h ih =>
    by_cases hpair : c = 95 ∧ s.head? = some 95
    case neg =>
      refine decodes_encode_cons hs hpair (fun out => ?_) out
      exact ih (fun c hc => hs c (mem_cons_of_mem _ hc)) out
    case pos =>
      obtain ⟨rfl, hhead⟩ := hpair
      obtain ⟨s', rfl⟩ := head?_eq_some_iff.mp hhead
      cases s' with
      | nil => exact iff_of_false not_decodes_pair_nul (by decide)
      | cons d s' => exact (h 95 d s' rfl).elim
  | case4 => simp [uprobeEncodeName, decodes_nul, RunsOk]

theorem decode_iff_decodes : (∃ fuel, uprobeDecodeName fuel p = some r) ↔ Decodes p [] r := by
  refine exists_congr fun fuel => ?_
  rw [uprobeDecodeName]
  cases hsize : decodeSize fuel p (strlen p) with
  | none => simp [(decodeSize_eq_none_iff _ 0).mp hsize]
  | some sz =>
    have : decodeSize fuel p 0 ≠ none := by
      rw [ne_eq, decodeSize_eq_none_iff _ (strlen p), hsize]
      exact nofun
    simp [this]

/-- **A name is decoded from its encoding, whatever is in the memory after it, if and only if every
run of underscores in it is odd before a letter, a digit or the end, and even before anything
else.** -/
theorem decode_encode_iff {s : List Byte} (hs : ∀ c ∈ s, c ≠ 0 ∧ c.val < 128) (junk : List Byte) :
    (∃ fuel, uprobeDecodeName fuel (uprobeEncodeName s ++ 0 :: junk) = some s) ↔ RunsOk 0 s := by
  rw [decode_iff_decodes, ← decodes_encode_iff hs junk [], nil_append]

/-- `_a__-___b` comes back. -/
theorem odd_runs_decoded :
    ∃ fuel, uprobeDecodeName fuel (uprobeEncodeName [95, 97, 95, 95, 45, 95, 95, 95, 98] ++ [0]) =
      some [95, 97, 95, 95, 45, 95, 95, 95, 98] :=
  (decode_encode_iff (by decide +kernel) []).mpr (by decide +kernel)

/-- `a__b` does not come back, and `_-` and `__2d` are encoded alike. -/
theorem encode_not_injective :
    (∀ fuel junk, uprobeDecodeName fuel (uprobeEncodeName [97, 95, 95, 98] ++ 0 :: junk) ≠
        some [97, 95, 95, 98]) ∧
      uprobeEncodeName [95, 45] = uprobeEncodeName [95, 95, 50, 100] := by
  refine ⟨fun fuel junk h => ?_, by decide +kernel⟩
  have hascii : ∀ c ∈ ([97, 95, 95, 98] : List Byte), c ≠ 0 ∧ c.val < 128 := by decide +kernel
  have hruns := (decodes_encode_iff hascii junk []).mp (decode_iff_decodes.mp ⟨fuel, h⟩)
  exact absurd hruns (by decide +kernel)

/-! ## What is decoded at all -/

/-- The strings that the first loop gets through: one further on after `__` there is an underscore,
or two digits follow it. -/
inductive Walks : List Byte → Prop
  | nil : Walks []
  | plain {c : Byte} {p : List Byte} (h : ¬(c = 95 ∧ p.head? = some 95)) (hp : Walks p) :
    Walks (c :: p)
  | under {c : Byte} {p : List Byte} (hp : Walks (95 :: p)) : Walks (95 :: 95 :: c :: 95 :: p)
  | hex {x y : Byte} {p : List Byte} (hx : x ∈ hexdigits) (hy : y ∈ hexdigits) (hp : Walks p) :
    Walks (95 :: 95 :: x :: y :: p)

/-- Both loops end, and what the second one writes has a place in what is allocated. -/
def Finishes (name : List Byte) : Prop :=
  ∃ fuel sz out, decodeSize fuel name (strlen name) = some sz ∧
    decodeLoop fuel name [] = some out ∧ out.length + 1 ≤ sz + 1

variable {s : List Byte}

theorem head?_append_nul (hs : ¬(c = 95 ∧ s.head? = some 95)) (rest : List Byte) :
    ¬(c = 95 ∧ (s ++ 0 :: rest).head? = some 95) := by
  cases s with
  | nil => exact fun h => absurd (Option.some.inj h.2) (by decide)
  | cons d s => exact hs

/-- The size goes down by what the output is shorter than the input. -/
theorem finishes_of_walks (h : Walks s) (h0 : 0 ∉ s) (rest : List Byte) {sz : Nat}
    (hle : s.length ≤ sz) (hsz : sz < 2 ^ 64) (out : List Byte) :
    ∃ fuel sz' r, decodeSize fuel (s ++ 0 :: rest) sz = some sz' ∧
      decodeLoop fuel (s ++ 0 :: rest) out = some r ∧
      r.length + sz = out.length + s.length + sz' := by
  induction h generalizing sz out with
  | nil => exact ⟨1, sz, out, by simp [decodeSize, strstr], by simp [decodeLoop, strstr], rfl⟩
  | @plain c p h hp ih =>
    rw [mem_cons, not_or] at h0
    have hne := head?_append_nul h rest
    obtain ⟨fuel, sz', r, h1, h2, h3⟩ := ih h0.2 (Nat.le_of_succ_le hle) hsz (out ++ [c])
    refine ⟨fuel, sz', r, (decodeSize_plain (Ne.symm h0.1) hne).trans h1,
      (decodeLoop_plain (Ne.symm h0.1) hne).trans h2, ?_⟩
    simp only [length_append, length_cons, length_nil] at h3 ⊢
    omega
  | @under c p hp ih =>
    simp only [length_cons] at hle
    obtain ⟨fuel, sz', r, h1, h2, h3⟩ := ih (fun h => h0 (by simp_all))
      (show p.length + 1 ≤ (sz + 2 ^ 64 - 1) % 2 ^ 64 by omega) (by omega) (out ++ [95, 95])
    refine ⟨fuel + 1, sz', r, (decode_under rfl _ _ out).1.trans h1,
      (decode_under rfl _ sz _).2.trans h2, ?_⟩
    simp only [length_append, length_cons, length_nil] at h3 ⊢
    omega
  | @hex x y p hx hy hp ih =>
    simp only [length_cons] at hle
    obtain ⟨fuel, sz', r, h1, h2, h3⟩ := ih (fun h => h0 (by simp_all))
      (show p.length ≤ (sz + 2 ^ 64 - 3) % 2 ^ 64 by omega) (by omega)
      (out ++ [Fin.ofNat 256 (hexval x * 16 + hexval y)])
    refine ⟨fuel + 1, sz', r, (decode_hex hx hy _ _ out).1.trans h1,
      (decode_hex hx hy _ sz _).2.trans h2, ?_⟩
    simp only [length_append, length_cons, length_nil] at h3 ⊢
    omega

/-- With nothing after the terminator, the first loop gets through no other string. -/
theorem walks_of_decodeSize {fuel sz sz' : Nat} (h0 : 0 ∉ s)
    (h : decodeSize fuel (s ++ [0]) sz = some sz') : Walks s := by
  induction hn : s.length using Nat.strong_induction_on generalizing s fuel sz with | _ n ih
  subst hn
  have hstuck : ∀ p, s = 95 :: 95 :: p → (95 :: 95 :: (p ++ [0])).getD 3 0 ≠ 95 →
      strspn (p ++ [0]) < 2 → Walks s := by
    rintro p rfl hthird hspan
    rw [cons_append, cons_append, decodeSize_stuck hthird hspan] at h
    cases h
  match s, fuel with
  | [], _ => exact .nil
  | c :: p, fuel + 1 =>
    rw [mem_cons, not_or] at h0
    by_cases hpair : c = 95 ∧ p.head? = some 95
    case neg =>
      rw [cons_append, decodeSize_plain (Ne.symm h0.1) (head?_append_nul hpair [])] at h
      exact .plain hpair (ih _ (by simp) h0.2 h rfl)
    obtain ⟨rfl, hhead⟩ := hpair
    obtain ⟨q, rfl⟩ := head?_eq_some_iff.mp hhead
    match q with
    | [] => exact hstuck [] rfl (by decide) (by decide)
    | [x] =>
      refine hstuck [x] rfl (by simp) ?_
      rw [singleton_append, strspn, show strspn [0] = 0 from by decide]
      split <;> omega
    | x :: y :: q =>
      by_cases hy : y = 95
      · subst hy
        have h' := (decode_under rfl fuel sz []).1.symm.trans h
        exact .under (ih _ (by simp) (fun hm => h0.2 (by simp_all)) h' rfl)
      by_cases hhex : x ∈ hexdigits ∧ y ∈ hexdigits
      · have h' := (decode_hex hhex.1 hhex.2 fuel sz []).1.symm.trans h
        exact .hex hhex.1 hhex.2 (ih _ (by simp; omega) (fun hm => h0.2 (by simp_all)) h' rfl)
      · refine hstuck (x :: y :: q) rfl (by simpa using hy) ?_
        rw [cons_append, cons_append, strspn, strspn]
        by_cases hx : x ∈ hexdigits
        · rw [if_pos hx, if_neg fun hy => hhex ⟨hx, hy⟩]
          decide
        · rw [if_neg hx]
          decide

/-- **The decoder finishes, whatever is in the memory after the name, exactly when every `__` is
followed by one of the two forms of the encoder**, as the first loop reads them. Then the output
has a place. -/
theorem decode_finishes_iff (h0 : 0 ∉ s) (hlen : s.length < 2 ^ 64) :
    (∀ rest, Finishes (s ++ 0 :: rest)) ↔ Walks s := by
  constructor
  · intro h
    obtain ⟨fuel, sz, _, hsize, _⟩ := h []
    exact walks_of_decodeSize h0 hsize
  · intro h rest
    have hstrlen : strlen (s ++ 0 :: rest) = s.length := by
      have hne : ∀ c ∈ s, decide (c ≠ 0) = true := fun c hc => decide_eq_true fun h => h0 (h ▸ hc)
      rw [strlen, takeWhile_append_of_pos hne]
      simp
    obtain ⟨fuel, sz, r, h1, h2, h3⟩ := finishes_of_walks h h0 rest le_rfl hlen []
    refine ⟨fuel, sz, r, hstrlen.symm ▸ h1, h2, ?_⟩
    rw [length_nil] at h3
    omega

/-- `a__2d` -/
theorem hex_finishes : (0 : Byte) ∉ [97, 95, 95, 50, 100] ∧
    ∀ rest, Finishes ([97, 95, 95, 50, 100] ++ 0 :: rest) :=
  ⟨by decide, (decode_finishes_iff (by decide) (by decide)).mpr
    (.plain (by decide) (.hex (by decide) (by decide) .nil))⟩

/-- `a__b`: the first loop stays at the underscores. -/
theorem pair_never_finishes : ¬Finishes ([97, 95, 95, 98] ++ [0]) := by
  rintro ⟨_, _, -, h, -⟩
  cases walks_of_decodeSize (by decide) h with
  | plain _ hp =>
    cases hp with
    | plain hne _ => exact hne ⟨rfl, rfl⟩

end DTrace.Uprobes
