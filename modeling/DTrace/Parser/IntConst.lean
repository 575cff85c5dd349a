import Mathlib.Data.Nat.Digits.Defs

/-!
# Integer constants — the action of `RGX_INT` and `dt_node_int`

The lexer reads the digits of an integer constant with `strtoull` and keeps the letters behind
them and whether the constant is decimal. `dt_node_int` looks for the type of the constant in a
table of six types, from a starting index given by the suffix and with a stride given by the base
and the suffix.

* **`IsNumeral`** — the digits of a constant, its base and its value.
* **`c99Types`** — the list of types for a base and a suffix.
* **`codeTypes`** — the entries of the table that `dt_node_int` visits. They are that list, except
  that the stride of an octal or hexadecimal constant with the suffix `U` (not `u`) is one, and
  signed types are visited, too.
-/

namespace DTrace.Parser

open List

/-! ## The lexer -/

/-- The value of a digit of a base up to sixteen; no other character is below any base. -/
def digit (c : Char) : Nat :=
  if '0' ≤ c ∧ c ≤ '9' then c.toNat - 48
  else if 'a' ≤ c ∧ c ≤ 'f' then c.toNat - 87
  else if 'A' ≤ c ∧ c ≤ 'F' then c.toNat - 55
  else 16

/-- What `strtoull` returns: the value, `errno == ERANGE`, and the end pointer. -/
structure Strtoull where
  value : Nat
  erange : Bool
  rest : List Char

def scan (base : Nat) (s : List Char) : Strtoull :=
  let value := (s.takeWhile fun c => digit c < base).foldl (fun v c => v * base + digit c) 0
  ⟨min value (2 ^ 64 - 1), decide (2 ^ 64 ≤ value), s.dropWhile fun c => digit c < base⟩

/-- `strtoull(s, &p, 0)`, of a string that starts with a digit. -/
def strtoull (s : List Char) : Strtoull :=
  if s.head? = some '0' then
    match s.tail with
    | x :: c :: t =>
      if (x = 'x' ∨ x = 'X') ∧ digit c < 16 then scan 16 (c :: t) else scan 8 s
    | _ => scan 8 s
  else scan 10 s

/-- The tags of the errors. -/
inductive IntTag where
  | intOflow | intDigit
  deriving DecidableEq, Repr

structure IntError where
  tag : IntTag
  text : String
  deriving DecidableEq, Repr

/-- A token: `yylval.l_int`, `yyintsuffix`, `yyintdecimal`. -/
structure IntToken where
  value : Nat
  suffix : List Char
  decimal : Bool
  deriving DecidableEq, Repr

/-- The action of `RGX_INT`. `yyintsuffix` has room for three characters. -/
def lexInt (yytext : List Char) : Except IntError IntToken :=
  let r := strtoull yytext
  if r.erange then
    .error ⟨.intOflow, "constant " ++ String.ofList yytext ++ " results in integer overflow\n"⟩
  else
    match r.rest with
    | c :: _ =>
      if c ∈ ['u', 'U', 'l', 'L'] then
        .ok ⟨r.value, r.rest.take 3, decide (yytext.head? ≠ some '0')⟩
      else
        .error ⟨.intDigit, "constant " ++ String.ofList yytext ++ " contains invalid digit " ++
          String.singleton c ++ "\n"⟩
    | [] => .ok ⟨r.value, [], decide (yytext.head? ≠ some '0')⟩

/-! ## `dt_node_int` -/

inductive CIntType where
  | int | uint | long | ulong | llong | ullong
  deriving DecidableEq, Repr

inductive CtfModel where
  | ilp32 | lp64
  deriving DecidableEq, Repr

/-- `_dtrace_ints_32` and `_dtrace_ints_64`. -/
def dtInts : CtfModel → List (CIntType × Nat)
  | .ilp32 => [(.int, 0x7fffffff), (.uint, 0xffffffff), (.long, 0x7fffffff), (.ulong, 0xffffffff),
      (.llong, 0x7fffffffffffffff), (.ullong, 0xffffffffffffffff)]
  | .lp64 => [(.int, 0x7fffffff), (.uint, 0xffffffff), (.long, 0x7fffffffffffffff),
      (.ulong, 0xffffffffffffffff), (.llong, 0x7fffffffffffffff), (.ullong, 0xffffffffffffffff)]

/-- `DT_NODE_INT`, as the lexer's tokens without a prefix character give it. -/
structure IntNode where
  value : Nat
  type : CIntType
  deriving DecidableEq, Repr

/-- The starting index. -/
def suffixIndex : List Char → Nat
  | [] => 0
  | c :: s =>
    (if c = 'U' ∨ c = 'u' then 1 else if c = 'L' ∨ c = 'l' then 2 else 0) + suffixIndex s

/-- The stride. -/
def intStride (tok : IntToken) : Nat :=
  (tok.decimal || decide (tok.suffix.head? = some 'u')).toNat + 1

/-- The loop over the table. -/
def searchInts (ints : List (CIntType × Nat)) (value n : Nat) : Nat → Nat → Option CIntType
  | 0, _ => none
  | fuel + 1, i =>
    match ints[i]? with
    | none => none
    | some (type, limit) =>
      if value ≤ limit then some type else searchInts ints value n fuel (i + n)

def dtNodeInt (m : CtfModel) (tok : IntToken) : Except IntError IntNode :=
  match searchInts (dtInts m) tok.value (intStride tok) 6 (suffixIndex tok.suffix) with
  | some type => .ok ⟨tok.value, type⟩
  | none => .error ⟨.intOflow, "integer constant 0x" ++ String.ofList (Nat.toDigits 16 tok.value) ++
      " cannot be represented in any built-in integral type\n"⟩

/-- The node for the text of a constant. -/
def compileInt (m : CtfModel) (yytext : List Char) : Except IntError IntNode :=
  lexInt yytext >>= dtNodeInt m

/-! ## Constants -/

/-- The value of digits, most significant first. -/
def numeralValue (base : Nat) (ds : List Char) : Nat := Nat.ofDigits base (ds.map digit).reverse

/-- `IsNumeral s decimal v`: `s` are the digits of a constant with the value `v`. -/
inductive IsNumeral : List Char → Bool → Nat → Prop where
  | decimal {c : Char} {ds : List Char} (hc : c ≠ '0') (h : ∀ d ∈ c :: ds, digit d < 10) :
      IsNumeral (c :: ds) true (numeralValue 10 (c :: ds))
  | octal {ds : List Char} (h : ∀ d ∈ '0' :: ds, digit d < 8) :
      IsNumeral ('0' :: ds) false (numeralValue 8 ('0' :: ds))
  | hex {x c : Char} {ds : List Char} (hx : x = 'x' ∨ x = 'X') (h : ∀ d ∈ c :: ds, digit d < 16) :
      IsNumeral ('0' :: x :: c :: ds) false (numeralValue 16 (c :: ds))

/-- The texts of `[uU]?[lL]?[lL]?`. -/
def suffixes : List (List Char) :=
  [[], ['u'], ['U']].flatMap fun u => [[], ['l'], ['L']].flatMap fun l₁ =>
    [[], ['l'], ['L']].map fun l₂ => u ++ l₁ ++ l₂

def CIntType.signed : CIntType → Bool
  | .int | .long | .llong => true
  | .uint | .ulong | .ullong => false

def CIntType.bits (m : CtfModel) : CIntType → Nat
  | .int | .uint => 32
  | .long | .ulong => match m with
    | .ilp32 => 32
    | .lp64 => 64
  | .llong | .ullong => 64

/-- The largest value of a type. -/
def CIntType.max (m : CtfModel) (t : CIntType) : Nat :=
  if t.signed then 2 ^ (t.bits m - 1) - 1 else 2 ^ t.bits m - 1

def isUnsigned (suffix : List Char) : Bool := suffix.any fun c => c = 'u' || c = 'U'
def longs (suffix : List Char) : Nat := suffix.countP fun c => c = 'l' || c = 'L'

/-- The list of types for a constant. -/
def c99Types (decimal : Bool) (suffix : List Char) : List CIntType :=
  match isUnsigned suffix, longs suffix, decimal with
  | false, 0, true => [.int, .long, .llong]
  | false, 0, false => [.int, .uint, .long, .ulong, .llong, .ullong]
  | true, 0, _ => [.uint, .ulong, .ullong]
  | false, 1, true => [.long, .llong]
  | false, 1, false => [.long, .ulong, .llong, .ullong]
  | true, 1, _ => [.ulong, .ullong]
  | false, _, true => [.llong]
  | false, _, false => [.llong, .ullong]
  | true, _, _ => [.ullong]

/-- The first type of a list that has the value. -/
def firstFit (m : CtfModel) (types : List CIntType) (v : Nat) : Option CIntType :=
  types.find? fun t => v ≤ t.max m

/-- The node of a constant has its value and its type; a constant that has none is rejected. -/
def TypedRight (m : CtfModel) (decimal : Bool) (v : Nat) (suffix : List Char)
    (r : Except IntError IntNode) : Prop :=
  match firstFit m (c99Types decimal suffix) v with
  | some t => r = .ok ⟨v, t⟩
  | none => ∃ e, r = .error e

/-! ## Reading the digits -/

theorem foldl_digits (base : Nat) (ds : List Char) :
    ds.foldl (fun v c => v * base + digit c) 0 = numeralValue base ds := by
  suffices h : ∀ v, ds.foldl (fun v c => v * base + digit c) v =
      v * base ^ ds.length + numeralValue base ds by simpa using h 0
  induction ds with
  | nil => simp [numeralValue]
  | cons c ds ih =>
    intro v
    rw [foldl_cons, ih, length_cons, Nat.pow_succ', Nat.add_mul, Nat.mul_assoc]
    simp only [numeralValue, map_cons, reverse_cons, Nat.ofDigits_append,
      Nat.ofDigits_singleton, length_reverse, length_map]
    rw [Nat.mul_comm (digit c), Nat.add_assoc, Nat.add_comm (base ^ ds.length * digit c)]

variable {suffix ds : List Char}

theorem mem_suffix (hs : suffix ∈ suffixes) : ∀ c ∈ suffix, c ∈ ['u', 'U', 'l', 'L'] := by
  have hall : ∀ s ∈ suffixes, (s.all fun c => decide (c ∈ ['u', 'U', 'l', 'L'])) = true := by decide
  simpa using hall suffix hs

theorem digit_letter {c : Char} (h : c ∈ ['u', 'U', 'l', 'L']) : digit c = 16 := by
  simp only [mem_cons, not_mem_nil, or_false] at h
  rcases h with rfl | rfl | rfl | rfl <;> rfl

/-- All digits are read, and no letter of the suffix is. -/
theorem scan_append {base : Nat} (hbase : base ≤ 16) (hds : ∀ d ∈ ds, digit d < base)
    (hs : suffix ∈ suffixes) :
    scan base (ds ++ suffix) = ⟨min (numeralValue base ds) (2 ^ 64 - 1),
      decide (2 ^ 64 ≤ numeralValue base ds), suffix⟩ := by
  have hds' : ∀ d ∈ ds, decide (digit d < base) = true := fun d hd => decide_eq_true (hds d hd)
  have hnone : ∀ c ∈ suffix, ¬ decide (digit c < base) = true := by
    intro c hc
    rw [digit_letter (mem_suffix hs c hc), decide_eq_true_iff]
    omega
  have htake : suffix.takeWhile (fun c => decide (digit c < base)) = [] := by
    cases suffix with
    | nil => rfl
    | cons c s => exact takeWhile_cons_of_neg (hnone c (by simp))
  have hdrop : suffix.dropWhile (fun c => decide (digit c < base)) = suffix := by
    cases suffix with
    | nil => rfl
    | cons c s => exact dropWhile_cons_of_neg (hnone c (by simp))
  unfold scan
  rw [takeWhile_append_of_pos hds', dropWhile_append_of_pos hds', htake, hdrop,
    append_nil, foldl_digits]

/-- Behind a leading zero, neither a decimal digit nor a letter of a suffix is an `x`. -/
theorem strtoull_zero (hds : ∀ d ∈ ds, digit d < 10) (hs : suffix ∈ suffixes) :
    strtoull ('0' :: (ds ++ suffix)) = scan 8 ('0' :: (ds ++ suffix)) := by
  have hx : ∀ x, (ds ++ suffix).head? = some x → ¬ (x = 'x' ∨ x = 'X') := by
    intro x hhead
    rcases mem_append.mp (mem_of_mem_head? hhead) with hd | hd
    · have hlt := hds x hd
      rintro (rfl | rfl) <;> exact absurd hlt (by decide)
    · have hletter := mem_suffix hs x hd
      rintro (rfl | rfl) <;> exact absurd hletter (by decide)
  unfold strtoull
  rw [head?_cons, if_pos rfl, tail_cons]
  split
  · next x c t heq =>
    rw [if_neg fun h => hx x (by rw [heq]; rfl) h.1]
  · rfl

section
variable {body suffix : List Char} {decimal : Bool} {v : Nat}

section

variable (hb : IsNumeral body decimal v)

include hb

theorem strtoull_numeral (hs : suffix ∈ suffixes) :
    strtoull (body ++ suffix) = ⟨min v (2 ^ 64 - 1), decide (2 ^ 64 ≤ v), suffix⟩ := by
  cases hb with
  | decimal hc h =>
    rw [← scan_append (by decide) h hs]
    simp [strtoull, hc]
  | hex hx h =>
    rw [← scan_append (by decide) h hs]
    simp [strtoull, hx, h]
  | @octal ds h =>
    rw [← scan_append (by decide) h hs]
    exact strtoull_zero (fun d hd => (h d (mem_cons_of_mem _ hd)).trans (by decide)) hs

theorem head_numeral (suffix : List Char) :
    decide ((body ++ suffix).head? ≠ some '0') = decimal := by
  cases hb with
  | decimal hc h => simp [hc]
  | octal h => simp
  | hex hx h => simp

/-- The lexer accepts a constant below `2 ^ 64`, and no other. -/
theorem lexInt_numeral (hs : suffix ∈ suffixes) :
    (v < 2 ^ 64 → lexInt (body ++ suffix) = .ok ⟨v, suffix, decimal⟩) ∧
      (2 ^ 64 ≤ v → ∃ e, lexInt (body ++ suffix) = .error e) := by
  have hread := strtoull_numeral hb hs
  have htake : ∀ s ∈ suffixes, s.take 3 = s := by decide
  constructor
  · intro hv
    unfold lexInt
    rw [hread, head_numeral hb, decide_eq_false (by omega), Nat.min_eq_left (by omega)]
    cases suffix with
    | nil => rfl
    | cons c s =>
      have hc := mem_suffix hs c (by simp)
      simp only [Bool.false_eq_true, if_false, if_pos hc, htake _ hs]
  · intro hv
    unfold lexInt
    rw [hread, decide_eq_true hv]
    exact ⟨_, rfl⟩

end

end

/-! ## The table -/

/-- The entries that the loop visits. -/
def visited {α : Type} (ints : List α) (n : Nat) : Nat → Nat → List α
  | 0, _ => []
  | fuel + 1, i =>
    match ints[i]? with
    | none => []
    | some x => x :: visited ints n fuel (i + n)

theorem visited_map {α β : Type} (f : α → β) (ints : List α) (n fuel i : Nat) :
    visited (ints.map f) n fuel i = (visited ints n fuel i).map f := by
  induction fuel generalizing i with
  | zero => rfl
  | succ fuel ih =>
    rw [visited, visited, getElem?_map]
    cases ints[i]? with
    | none => rfl
    | some x => simp [ih]

theorem searchInts_eq (ints : List (CIntType × Nat)) (v n fuel i : Nat) :
    searchInts ints v n fuel i =
      ((visited ints n fuel i).find? fun x => v ≤ x.2).map Prod.fst := by
  induction fuel generalizing i with
  | zero => rfl
  | succ fuel ih =>
    rw [searchInts, visited]
    cases ints[i]? with
    | none => rfl
    | some x =>
      by_cases hv : v ≤ x.2
      · simp [hv]
      · simp [hv, ih]

def allTypes : List CIntType := [.int, .uint, .long, .ulong, .llong, .ullong]

/-- The types that `dt_node_int` tries, in order. -/
def codeTypes (decimal : Bool) (suffix : List Char) : List CIntType :=
  visited allTypes (intStride ⟨0, suffix, decimal⟩) 6 (suffixIndex suffix)

theorem dtInts_eq (m : CtfModel) : dtInts m = allTypes.map fun t => (t, t.max m) := by
  cases m <;> rfl

/-- `dt_node_int` takes the first type of its list. -/
theorem dtNodeInt_eq (m : CtfModel) (v : Nat) (suffix : List Char) (decimal : Bool) :
    (∀ t, firstFit m (codeTypes decimal suffix) v = some t →
      dtNodeInt m ⟨v, suffix, decimal⟩ = .ok ⟨v, t⟩) ∧
    (firstFit m (codeTypes decimal suffix) v = none →
      ∃ e, dtNodeInt m ⟨v, suffix, decimal⟩ = .error e) := by
  have hsearch : searchInts (dtInts m) v (intStride ⟨v, suffix, decimal⟩) 6 (suffixIndex suffix) =
      firstFit m (codeTypes decimal suffix) v := by
    rw [searchInts_eq, dtInts_eq, visited_map, find?_map, Option.map_map]
    exact Option.map_id'
  unfold dtNodeInt
  rw [hsearch]
  constructor
  · intro t ht
    rw [ht]
  · intro hnone
    rw [hnone]
    exact ⟨_, rfl⟩

section
variable {m : CtfModel} {body suffix : List Char} {decimal : Bool} {v : Nat}

theorem CIntType.max_lt (m : CtfModel) (t : CIntType) : t.max m < 2 ^ 64 := by
  cases m <;> cases t <;> decide

theorem firstFit_lt {types : List CIntType} {t : CIntType} (h : firstFit m types v = some t) :
    v < 2 ^ 64 := by
  have hle : v ≤ t.max m := by simpa using find?_some h
  exact Nat.lt_of_le_of_lt hle (t.max_lt m)

/-- The node of a constant is right if and only if the two lists have the same first type for
its value. -/
theorem typedRight_iff_firstFit (hb : IsNumeral body decimal v) (hs : suffix ∈ suffixes) :
    TypedRight m decimal v suffix (compileInt m (body ++ suffix)) ↔
      firstFit m (codeTypes decimal suffix) v = firstFit m (c99Types decimal suffix) v := by
  obtain ⟨hlex, hover⟩ := lexInt_numeral hb hs
  obtain ⟨hsome, hnone⟩ := dtNodeInt_eq m v suffix decimal
  have hresult : (∀ t, firstFit m (codeTypes decimal suffix) v = some t →
      compileInt m (body ++ suffix) = .ok ⟨v, t⟩) ∧
      (firstFit m (codeTypes decimal suffix) v = none →
        ∃ e, compileInt m (body ++ suffix) = .error e) := by
    by_cases hv : v < 2 ^ 64
    · have heq : compileInt m (body ++ suffix) = dtNodeInt m ⟨v, suffix, decimal⟩ := by
        unfold compileInt
        rw [hlex hv]
        rfl
      rw [heq]
      exact ⟨hsome, hnone⟩
    · obtain ⟨e, he⟩ := hover (by omega)
      refine ⟨fun t ht => absurd (firstFit_lt ht) hv, fun _ => ⟨e, ?_⟩⟩
      unfold compileInt
      rw [he]
      rfl
  unfold TypedRight
  cases hright : firstFit m (c99Types decimal suffix) v with
  | some t =>
    cases hcode : firstFit m (codeTypes decimal suffix) v with
    | some t' => simp [hresult.1 t' hcode]
    | none =>
      obtain ⟨e, he⟩ := hresult.2 hcode
      simp [he]
  | none =>
    cases hcode : firstFit m (codeTypes decimal suffix) v with
    | some t' => simp [hresult.1 t' hcode]
    | none => simpa using hresult.2 hcode

/-! ## The suffix `U` -/

/-- The lists agree unless the constant is octal or hexadecimal with an upper-case `U`. -/
theorem codeTypes_eq (hs : suffix ∈ suffixes)
    (h : decimal = true ∨ suffix.head? ≠ some 'U') :
    codeTypes decimal suffix = c99Types decimal suffix := by
  have hall : ∀ s ∈ suffixes, ∀ d : Bool, d = true ∨ s.head? ≠ some 'U' →
      codeTypes d s = c99Types d s := by decide
  exact hall suffix hs decimal h

/-- An octal or hexadecimal constant with an upper-case `U` for which a signed type is found:
one between the largest `unsigned int` and the largest `long long`, with no `L` or, where `long`
has 32 bits, with one. -/
def Missed (m : CtfModel) (decimal : Bool) (v : Nat) (suffix : List Char) : Prop :=
  decimal = false ∧ suffix.head? = some 'U' ∧ 2 ^ 32 ≤ v ∧ v < 2 ^ 63 ∧
    (longs suffix = 0 ∨ (longs suffix = 1 ∧ m = .ilp32))

theorem codeTypes_U (hs : suffix ∈ suffixes) (h : suffix.head? = some 'U') :
    (longs suffix = 0 ∧ codeTypes false suffix = [.uint, .long, .ulong, .llong, .ullong] ∧
      c99Types false suffix = [.uint, .ulong, .ullong]) ∨
    (longs suffix = 1 ∧ codeTypes false suffix = [.ulong, .llong, .ullong] ∧
      c99Types false suffix = [.ulong, .ullong]) ∨
    (longs suffix = 2 ∧ codeTypes false suffix = [.ullong] ∧
      c99Types false suffix = [.ullong]) := by
  have hall : ∀ s ∈ suffixes, s.head? = some 'U' →
      (longs s = 0 ∧ codeTypes false s = [.uint, .long, .ulong, .llong, .ullong] ∧
        c99Types false s = [.uint, .ulong, .ullong]) ∨
      (longs s = 1 ∧ codeTypes false s = [.ulong, .llong, .ullong] ∧
        c99Types false s = [.ulong, .ullong]) ∨
      (longs s = 2 ∧ codeTypes false s = [.ullong] ∧ c99Types false s = [.ullong]) := by decide
  exact hall suffix hs h

theorem firstFit_U (hs : suffix ∈ suffixes) (h : suffix.head? = some 'U') :
    firstFit m (codeTypes false suffix) v = firstFit m (c99Types false suffix) v ↔
      ¬ Missed m false v suffix := by
  rcases codeTypes_U hs h with ⟨hl, hc, hr⟩ | ⟨hl, hc, hr⟩ | ⟨hl, hc, hr⟩ <;>
    rw [hc] <;> cases m <;>
    simp only [Missed, firstFit, CIntType.max, CIntType.signed, CIntType.bits] <;>
    grind

/-- **Integer constants**: a constant has its value and the first type of its list that holds it,
and is rejected if there is none, unless it is octal or hexadecimal with an upper-case `U` and a
signed type is found first. -/
theorem typedRight_iff (m : CtfModel) (hb : IsNumeral body decimal v) (hs : suffix ∈ suffixes) :
    TypedRight m decimal v suffix (compileInt m (body ++ suffix)) ↔
      ¬ Missed m decimal v suffix := by
  rw [typedRight_iff_firstFit hb hs]
  by_cases h : decimal = true ∨ suffix.head? ≠ some 'U'
  · rw [codeTypes_eq hs h]
    refine iff_of_true rfl ?_
    rintro ⟨hdec, hU, -⟩
    rcases h with h | h
    · simp [h] at hdec
    · exact h hU
  · rw [not_or, Bool.not_eq_true, Decidable.not_not] at h
    obtain ⟨rfl, hU⟩ := h
    exact firstFit_U hs hU

end

/-- `0x10ul` is an `unsigned long`. -/
theorem hex_ul :
    TypedRight .lp64 false 16 ['u', 'l'] (compileInt .lp64 ['0', 'x', '1', '0', 'u', 'l']) := by
  have hdigits : (['1', '0'].all fun d => decide (digit d < 16)) = true := by decide
  have hb : IsNumeral ['0', 'x', '1', '0'] false 16 := .hex (.inl rfl) (by simpa using hdigits)
  have hs : ['u', 'l'] ∈ suffixes := by decide
  refine (typedRight_iff .lp64 hb hs).mpr ?_
  rintro ⟨-, hU, -⟩
  exact absurd hU (by decide)

/-- `0x100000000U` is a `long`; `0x100000000u` is an `unsigned long`. -/
theorem hex_upper_U :
    compileInt .lp64 ['0', 'x', '1', '0', '0', '0', '0', '0', '0', '0', '0', 'U'] =
        .ok ⟨2 ^ 32, .long⟩ ∧
      compileInt .lp64 ['0', 'x', '1', '0', '0', '0', '0', '0', '0', '0', '0', 'u'] =
        .ok ⟨2 ^ 32, .ulong⟩ ∧
      firstFit .lp64 (c99Types false ['U']) (2 ^ 32) = some .ulong :=
  ⟨rfl, rfl, rfl⟩

end DTrace.Parser
