import DTrace.Lib.StrBuf

/-!
# The text form of IPv6 addresses

`parse` reads the text syntax of RFC 4291, section 2.2: eight groups of one to four hexadecimal
digits, at most one `::` for one or more groups of zeros, and a dotted quad in the place of the
last two groups. `Canonical` is the text RFC 5952 asks for. The texts that are written with
`join` and `::` are read back.
-/

namespace Ipv6

open StrBuf List Option

/-! ## Numbers -/

/-- The digits 0 to 9 and a to f. -/
def hexDigit (c : Nat) : Byte := BitVec.ofNat 8 (if c < 10 then 0x30 + c else 0x61 + (c - 10))

/-- A hexadecimal digit of either case. -/
def hexVal (b : Byte) : Option Nat :=
  if 0x30 ≤ b.toNat ∧ b.toNat ≤ 0x39 then some (b.toNat - 0x30)
  else if 0x61 ≤ b.toNat ∧ b.toNat ≤ 0x66 then some (b.toNat - 0x61 + 10)
  else if 0x41 ≤ b.toNat ∧ b.toNat ≤ 0x46 then some (b.toNat - 0x41 + 10)
  else none

/-- The value of digits in a base. -/
def digitsVal (base : Nat) : List Byte → Option Nat → Option Nat
  | [], acc => acc
  | b :: bs, acc =>
    digitsVal base bs (acc.bind fun v =>
      (hexVal b).bind fun d => if d < base then some (base * v + d) else none)

/-- A word in hexadecimal digits without leading zeros. -/
def hexText (w : Nat) : List Byte :=
  let ds := [w / 4096 % 16, w / 256 % 16, w / 16 % 16].dropWhile (· = 0)
  (ds ++ [w % 16]).map hexDigit

/-- A byte in decimal digits without leading zeros. -/
def decText (b : Nat) : List Byte :=
  let ds := [b / 100 % 10, b / 10 % 10].dropWhile (· = 0)
  (ds ++ [b % 10]).map hexDigit

/-! ## Reading -/

/-- The parts between separators. -/
def split (sep : Byte) : List Byte → List (List Byte)
  | [] => [[]]
  | c :: t =>
    if c = sep then [] :: split sep t
    else
      match split sep t with
      | [] => [[c]]
      | g :: gs => (c :: g) :: gs

/-- One to four hexadecimal digits. -/
def parseHex (g : List Byte) : Option (List Byte) :=
  if g.length ∈ [1, 2, 3, 4] then
    (digitsVal 16 g (some 0)).map fun w => [BitVec.ofNat 8 (w / 256), BitVec.ofNat 8 (w % 256)]
  else none

/-- A decimal number of one to three digits, up to 255. -/
def parseDec (g : List Byte) : Option Byte :=
  if g.length ∈ [1, 2, 3] then
    (digitsVal 10 g (some 0)).bind fun v => if v < 256 then some (BitVec.ofNat 8 v) else none
  else none

/-- A dotted quad. -/
def parseQuad (g : List Byte) : Option (List Byte) :=
  match split 0x2e g with
  | [a, b, c, d] => do
    let a ← parseDec a
    let b ← parseDec b
    let c ← parseDec c
    let d ← parseDec d
    some [a, b, c, d]
  | _ => none

/-- Groups, of which the last may be a dotted quad. -/
def parseGroups (quad : Bool) : List (List Byte) → Option (List Byte)
  | [] => none
  | [g] => if quad then (parseHex g).or (parseQuad g) else parseHex g
  | g :: gs => do
    let a ← parseHex g
    let b ← parseGroups quad gs
    some (a ++ b)

/-- One side of `::`, which may be empty. -/
def parseSide (quad : Bool) (t : List Byte) : Option (List Byte) :=
  if t = [] then some [] else parseGroups quad (split 0x3a t)

/-- What stands before and behind the first `::`. -/
def cut : List Byte → Option (List Byte × List Byte)
  | [] => none
  | [_] => none
  | c :: c' :: t =>
    if c = 0x3a ∧ c' = 0x3a then some ([], t) else (cut (c' :: t)).map fun p => (c :: p.1, p.2)

/-- The 16 bytes of an address. -/
def parse (t : List Byte) : Option (List Byte) :=
  match cut t with
  | none => do
    let a ← parseGroups true (split 0x3a t)
    if a.length = 16 then some a else none
  | some (l, r) => do
    let a ← parseSide false l
    let b ← parseSide true r
    if a.length + b.length ≤ 14 then
      some (a ++ List.replicate (16 - (a.length + b.length)) 0 ++ b)
    else none

/-! ## The canonical text -/

/-- Groups with colons between them. -/
def join : List (List Byte) → List Byte
  | [] => []
  | [g] => g
  | g :: gs => g ++ 0x3a :: join gs

theorem join_cons_cons (g g' : List Byte) (gs : List (List Byte)) :
    join (g :: g' :: gs) = g ++ 0x3a :: join (g' :: gs) := rfl

/-- The words from `i` to `i + n` are zero. -/
def ZeroRun (ws : List Nat) (i n : Nat) : Prop :=
  2 ≤ n ∧ i + n ≤ ws.length ∧ ∀ k < n, ws[i + k]? = some 0

/-- The longest run of two or more zero words, and the first one of that length. -/
def LongestRun (ws : List Nat) (i n : Nat) : Prop :=
  ZeroRun ws i n ∧ ∀ j m, ZeroRun ws j m → m < n ∨ m = n ∧ i ≤ j

/-- The words with `::` for those from `i` to `i + n`. -/
def compressed (ws : List Nat) (i n : Nat) : List Byte :=
  join ((ws.take i).map hexText) ++ 0x3a :: 0x3a :: join ((ws.drop (i + n)).map hexText)

/-- The text of RFC 5952, section 4. -/
def Canonical (ws : List Nat) (t : List Byte) : Prop :=
  (∃ i n, LongestRun ws i n ∧ t = compressed ws i n) ∨
    ((∀ i n, ¬ZeroRun ws i n) ∧ t = join (ws.map hexText))

/-- The bytes of words. -/
def bytes (ws : List Nat) : List Byte :=
  ws.flatMap fun w => [BitVec.ofNat 8 (w / 256), BitVec.ofNat 8 (w % 256)]

/-- A dotted quad of four bytes. -/
def quadText (a b c d : Byte) : List Byte :=
  decText a.toNat ++ 0x2e :: (decText b.toNat ++ 0x2e :: (decText c.toNat ++ 0x2e ::
    decText d.toNat))

/-! ## Numbers are read back -/

theorem hexVal_hexDigit {c : Nat} (h : c < 16) : hexVal (hexDigit c) = some c := by
  have hall : ∀ c : Fin 16, hexVal (hexDigit c) = some c.val := by decide
  exact hall ⟨c, h⟩

theorem hexDigit_ne_colon {c : Nat} (h : c < 16) : hexDigit c ≠ 0x3a ∧ hexDigit c ≠ 0x2e := by
  have hall : ∀ c : Fin 16, hexDigit c ≠ 0x3a ∧ hexDigit c ≠ 0x2e := by decide
  exact hall ⟨c, h⟩

/-- The value of written digits. -/
theorem digitsVal_map_hexDigit {base : Nat} (hbase : base ≤ 16) {ds : List Nat}
    (h : ∀ d ∈ ds, d < base) (acc : Nat) :
    digitsVal base (ds.map hexDigit) (some acc) =
      some (ds.foldl (fun v d => base * v + d) acc) := by
  induction ds generalizing acc with
  | nil => rfl
  | cons d ds ih =>
    have hd : d < base := h d mem_cons_self
    rw [map_cons, digitsVal, bind_some,
      hexVal_hexDigit (by omega), bind_some, if_pos hd]
    exact ih (fun d' hd' => h d' (mem_cons_of_mem _ hd')) _

/-- Leading zeros do not change the value. -/
theorem foldl_dropWhile_zero (base : Nat) (ds es : List Nat) :
    (ds.dropWhile (· = 0) ++ es).foldl (fun v d => base * v + d) 0 =
      (ds ++ es).foldl (fun v d => base * v + d) 0 := by
  induction ds with
  | nil => rfl
  | cons d ds ih =>
    by_cases hd : d = 0
    · subst hd
      rw [dropWhile_cons_of_pos (by simp), ih, cons_append, foldl_cons, Nat.mul_zero]
    · rw [dropWhile_cons_of_neg (by simpa using hd)]

variable (w : Nat) {g : List Byte} {gs : List (List Byte)} {ws : List Nat}

theorem hexText_ne_nil : hexText w ≠ [] := by
  simp [hexText]

theorem mem_dropWhile {α : Type*} {p : α → Bool} {l : List α} {x : α} (h : x ∈ l.dropWhile p) :
    x ∈ l := (dropWhile_sublist p).subset h

theorem hexText_digits {w d : Nat}
    (h : d ∈ [w / 4096 % 16, w / 256 % 16, w / 16 % 16].dropWhile (· = 0) ++ [w % 16]) : d < 16 := by
  rcases mem_append.mp h with h | h
  · have := mem_dropWhile h
    simp at this
    omega
  · simp at h
    omega

theorem length_hexText : (hexText w).length ∈ [1, 2, 3, 4] := by
  have hle : ([w / 4096 % 16, w / 256 % 16, w / 16 % 16].dropWhile (· = 0)).length ≤ 3 :=
    (dropWhile_sublist _).length_le
  simp only [hexText, length_map, length_append, length_singleton, mem_cons]
  omega

theorem zero_not_mem_hexText : (0 : Byte) ∉ hexText w := by
  intro h
  obtain ⟨d, hd, heq⟩ := mem_map.mp h
  have hall : ∀ c : Fin 16, hexDigit c ≠ 0 := by decide
  exact hall ⟨d, hexText_digits hd⟩ heq

theorem not_mem_hexText : (0x3a : Byte) ∉ hexText w := by
  intro h
  obtain ⟨d, hd, heq⟩ := mem_map.mp h
  exact (hexDigit_ne_colon (hexText_digits hd)).1 heq

/-- **A word is read back.** -/
theorem parseHex_hexText {w : Nat} (h : w < 65536) : parseHex (hexText w) =
    some [BitVec.ofNat 8 (w / 256), BitVec.ofNat 8 (w % 256)] := by
  rw [parseHex, if_pos (length_hexText w)]
  have hval : digitsVal 16 (hexText w) (some 0) = some w := by
    rw [hexText, digitsVal_map_hexDigit le_rfl (fun d hd => hexText_digits hd),
      foldl_dropWhile_zero]
    simp only [cons_append, nil_append, foldl_cons, foldl_nil]
    congr 1
    omega
  rw [hval]
  rfl

theorem parseDec_decText (b : Byte) : parseDec (decText b.toNat) = some b := by
  revert b
  decide +kernel

theorem decText_props (b : Byte) :
    (decText b.toNat).length ≤ 3 ∧ (0x2e : Byte) ∉ decText b.toNat ∧
      (0x3a : Byte) ∉ decText b.toNat ∧ 0 < (decText b.toNat).length := by
  revert b
  decide +kernel

/-! ## Groups are read back -/

theorem split_of_not_mem {sep : Byte} (h : sep ∉ g) : split sep g = [g] := by
  induction g with
  | nil => rfl
  | cons c g ih =>
    rw [mem_cons, not_or] at h
    obtain ⟨hc, hg⟩ := h
    rw [split, if_neg (Ne.symm hc), ih hg]

theorem split_append {sep : Byte} (h : sep ∉ g) (t : List Byte) :
    split sep (g ++ sep :: t) = g :: split sep t := by
  induction g with
  | nil => rw [nil_append, split, if_pos rfl]
  | cons c g ih =>
    rw [mem_cons, not_or] at h
    obtain ⟨hc, hg⟩ := h
    rw [cons_append, split, if_neg (Ne.symm hc), ih hg]

theorem split_join (hne : gs ≠ []) (h : ∀ g ∈ gs, (0x3a : Byte) ∉ g) :
    split 0x3a (join gs) = gs := by
  induction gs with
  | nil => exact absurd rfl hne
  | cons g gs ih =>
    have hg := h g mem_cons_self
    cases gs with
    | nil => exact split_of_not_mem hg
    | cons g' gs =>
      rw [join_cons_cons, split_append hg,
        ih (cons_ne_nil _ _) fun x hx => h x (mem_cons_of_mem _ hx)]

theorem bytes_cons (ws : List Nat) :
    bytes (w :: ws) = [BitVec.ofNat 8 (w / 256), BitVec.ofNat 8 (w % 256)] ++ bytes ws := rfl

theorem bytes_append (ws ws' : List Nat) : bytes (ws ++ ws') = bytes ws ++ bytes ws' :=
  flatMap_append

theorem length_bytes (ws : List Nat) : (bytes ws).length = 2 * ws.length := by
  induction ws with
  | nil => rfl
  | cons w ws ih =>
    rw [bytes_cons]
    simp
    omega

theorem bytes_replicate_zero (n : Nat) : bytes (List.replicate n 0) = List.replicate (2 * n) 0 := by
  induction n with
  | zero => rfl
  | succ n ih =>
    rw [replicate_succ, bytes_cons, ih]
    rfl

section
variable {ws : List Nat} (hws : ∀ w ∈ ws, w < 65536)
include hws

theorem parseGroups_map_hexText (quad : Bool) (hne : ws ≠ []) :
    parseGroups quad (ws.map hexText) = some (bytes ws) := by
  induction ws with
  | nil => exact absurd rfl hne
  | cons w ws ih =>
    have hw := parseHex_hexText (hws w mem_cons_self)
    cases ws with
    | nil => cases quad <;> simp [parseGroups, hw, bytes]
    | cons w' ws =>
      have hrest := ih (fun x hx => hws x (mem_cons_of_mem _ hx)) (cons_ne_nil _ _)
      rw [map_cons] at hrest
      rw [map_cons, map_cons, parseGroups, hw, hrest]
      · rfl
      · simp

/-- Groups behind which a dotted quad stands. -/
theorem parseGroups_quad {g b : List Byte} (hg : parseQuad g = some b) (hhex : parseHex g = none) :
    parseGroups true (ws.map hexText ++ [g]) = some (bytes ws ++ b) := by
  induction ws with
  | nil => simp [parseGroups, hg, hhex, bytes]
  | cons w ws ih =>
    have hw := parseHex_hexText (hws w mem_cons_self)
    have hrest := ih fun x hx => hws x (mem_cons_of_mem _ hx)
    rw [map_cons, cons_append, parseGroups, hw, hrest]
    · simp [bytes_cons]
    · simp

end

theorem join_ne_nil (hne : gs ≠ []) (h : ∀ g ∈ gs, g ≠ []) : join gs ≠ [] := by
  cases gs with
  | nil => exact absurd rfl hne
  | cons g gs =>
    have hg := h g mem_cons_self
    cases gs <;> simp [join, hg]

theorem join_cons (g : List Byte) (gs : List (List Byte)) :
    join (g :: gs) = g ++ gs.flatMap (0x3a :: ·) := by
  induction gs generalizing g with
  | nil => simp [join]
  | cons g' gs ih =>
    rw [join_cons_cons, ih]
    rfl

/-- Groups that each have a colon behind them. -/
theorem flatMap_append_colon (hne : gs ≠ []) : gs.flatMap (· ++ [0x3a]) = join gs ++ [0x3a] := by
  induction gs with
  | nil => exact absurd rfl hne
  | cons g gs ih =>
    cases gs with
    | nil => simp [join]
    | cons g' gs =>
      rw [flatMap_cons, ih (cons_ne_nil _ _), join_cons_cons]
      simp

/-- Groups that each have a colon before them. -/
theorem flatMap_cons_colon (hne : gs ≠ []) : gs.flatMap (0x3a :: ·) = 0x3a :: join gs := by
  cases gs with
  | nil => exact absurd rfl hne
  | cons g gs => rw [join_cons, flatMap_cons, cons_append]

theorem join_append_singleton (hne : gs ≠ []) (g : List Byte) :
    join (gs ++ [g]) = join gs ++ 0x3a :: g := by
  cases gs with
  | nil => exact absurd rfl hne
  | cons g' gs =>
    rw [cons_append, join_cons, join_cons]
    simp

/-- The compressed text as it is written from left to right. -/
theorem compressed_eq (ws : List Nat) (i n : Nat) :
    compressed ws i n =
      ((ws.take i).flatMap (hexText · ++ [0x3a]) ++ if (ws.take i).length = 0 then [0x3a] else []) ++
      (if (ws.drop (i + n)).length = 0 then [0x3a] else []) ++
        (ws.drop (i + n)).flatMap (0x3a :: hexText ·) := by
  have hpre : ((ws.take i).flatMap (hexText · ++ [0x3a]) ++
      if (ws.take i).length = 0 then [0x3a] else []) = join ((ws.take i).map hexText) ++ [0x3a] := by
    split
    · next h => rw [length_eq_zero_iff.mp h]; rfl
    · next h =>
      have hne : (ws.take i).map hexText ≠ [] := fun hnil =>
        h (by rw [map_eq_nil_iff.mp hnil]; rfl)
      rw [append_nil, ← flatMap_append_colon hne, flatMap_map]
  have hpost : (if (ws.drop (i + n)).length = 0 then [0x3a] else []) ++
      (ws.drop (i + n)).flatMap (0x3a :: hexText ·) =
      0x3a :: join ((ws.drop (i + n)).map hexText) := by
    split
    · next h => rw [length_eq_zero_iff.mp h]; rfl
    · next h =>
      have hne : (ws.drop (i + n)).map hexText ≠ [] := fun hnil =>
        h (by rw [map_eq_nil_iff.mp hnil]; rfl)
      rw [nil_append, ← flatMap_cons_colon hne, flatMap_map]
  rw [append_assoc, hpre, hpost, compressed]
  simp

theorem mem_map_hexText (h : g ∈ ws.map hexText) : g ≠ [] ∧ (0x3a : Byte) ∉ g := by
  obtain ⟨w, -, rfl⟩ := mem_map.mp h
  exact ⟨hexText_ne_nil w, not_mem_hexText w⟩

theorem parseSide_join (hws : ∀ w ∈ ws, w < 65536) (quad : Bool) :
    parseSide quad (join (ws.map hexText)) = some (bytes ws) := by
  cases ws with
  | nil => rfl
  | cons w ws =>
    have hne : (w :: ws).map hexText ≠ [] := by simp
    rw [parseSide, if_neg (join_ne_nil hne fun g hg => (mem_map_hexText hg).1),
      split_join hne fun g hg => (mem_map_hexText hg).2,
      parseGroups_map_hexText hws quad (cons_ne_nil _ _)]

/-! ## The place of the double colon -/

theorem cut_append (h : (0x3a : Byte) ∉ g) (t : List Byte) :
    cut (g ++ t) = (cut t).map fun p => (g ++ p.1, p.2) := by
  induction g with
  | nil => simp
  | cons c g ih =>
    rw [mem_cons, not_or] at h
    obtain ⟨hc, hg⟩ := h
    have ih := ih hg
    rw [cons_append]
    cases hrest : g ++ t with
    | nil =>
      obtain ⟨rfl, rfl⟩ := List.append_eq_nil_iff.mp hrest
      rfl
    | cons c' t' =>
      rw [cut, if_neg fun hcc => hc hcc.1.symm, ← hrest, ih, Option.map_map]
      rfl

theorem cut_colon_append (hne : g ≠ []) (h : (0x3a : Byte) ∉ g) (t : List Byte) :
    cut (0x3a :: g ++ t) = (cut t).map fun p => (0x3a :: g ++ p.1, p.2) := by
  cases g with
  | nil => exact absurd rfl hne
  | cons c g =>
    have hc : c ≠ 0x3a := fun hc => h (hc ▸ mem_cons_self)
    rw [cons_append, cons_append, cut, if_neg fun hcc => hc hcc.2, ← cons_append,
      cut_append h, Option.map_map]
    rfl

theorem cut_flatMap (h : ∀ g ∈ gs, g ≠ [] ∧ (0x3a : Byte) ∉ g) (t : List Byte) :
    cut (gs.flatMap (0x3a :: ·) ++ t) =
      (cut t).map fun p => (gs.flatMap (0x3a :: ·) ++ p.1, p.2) := by
  induction gs with
  | nil => simp
  | cons g gs ih =>
    have hg := h g mem_cons_self
    rw [flatMap_cons, append_assoc, cut_colon_append hg.1 hg.2,
      ih fun x hx => h x (mem_cons_of_mem _ hx), Option.map_map]
    refine congrArg (Option.map · _) (funext fun p => ?_)
    simp

theorem cut_join (h : ∀ g ∈ gs, g ≠ [] ∧ (0x3a : Byte) ∉ g) (t : List Byte) :
    cut (join gs ++ t) = (cut t).map fun p => (join gs ++ p.1, p.2) := by
  cases gs with
  | nil => simp [join]
  | cons g gs =>
    rw [join_cons, append_assoc, cut_append (h g mem_cons_self).2,
      cut_flatMap fun x hx => h x (mem_cons_of_mem _ hx), Option.map_map]
    refine congrArg (Option.map · _) (funext fun p => ?_)
    simp

/-! ## Addresses are read back -/

/-- Words around a run of zeros. -/
theorem eq_append_replicate {i n : Nat} (h : ZeroRun ws i n) :
    ws = ws.take i ++ (List.replicate n 0 ++ ws.drop (i + n)) := by
  obtain ⟨-, -, hzero⟩ := h
  have hmid : (ws.drop i).take n = List.replicate n 0 := by
    refine ext_getElem? fun k => ?_
    by_cases hk : k < n
    · rw [getElem?_take_of_lt hk, getElem?_drop, hzero k hk,
        getElem?_replicate_of_lt hk]
    · rw [getElem?_eq_none (by simp; omega), getElem?_eq_none (by simp; omega)]
  rw [← hmid, ← drop_drop, take_append_drop, take_append_drop]

/-- **The compressed text is read back.** -/
theorem parse_compressed {i n : Nat} (hlen : ws.length = 8) (hws : ∀ w ∈ ws, w < 65536)
    (h : ZeroRun ws i n) : parse (compressed ws i n) = some (bytes ws) := by
  obtain ⟨_, _, -⟩ := id h
  have hcut : cut (compressed ws i n) =
      some (join ((ws.take i).map hexText), join ((ws.drop (i + n)).map hexText)) := by
    rw [compressed, cut_join fun g hg => mem_map_hexText hg, cut]
    simp
  have hpre : (bytes (ws.take i)).length = 2 * i := by
    rw [length_bytes, length_take, Nat.min_eq_left (by omega)]
  have hpost : (bytes (ws.drop (i + n))).length = 2 * (8 - (i + n)) := by
    rw [length_bytes, length_drop, hlen]
  rw [parse, hcut]
  simp only [parseSide_join (fun w hw => hws w (mem_of_mem_take hw)),
    parseSide_join (fun w hw => hws w (mem_of_mem_drop hw)), bind_eq_bind,
    bind_some]
  rw [if_pos (by omega), hpre, hpost]
  conv_rhs => rw [eq_append_replicate h, bytes_append, bytes_append, bytes_replicate_zero]
  rw [append_assoc, show 16 - (2 * i + 2 * (8 - (i + n))) = 2 * n by omega]

/-- **The full text is read back.** -/
theorem parse_join (hlen : ws.length = 8) (hws : ∀ w ∈ ws, w < 65536) :
    parse (join (ws.map hexText)) = some (bytes ws) := by
  have hne : ws ≠ [] := length_pos_iff.mp (by omega)
  have hcut : cut (join (ws.map hexText)) = none := by
    have hnil := cut_join (fun g (hg : g ∈ ws.map hexText) => mem_map_hexText hg) []
    rwa [append_nil] at hnil
  rw [parse, hcut]
  simp only [split_join (by simpa using hne)
    fun g hg => (mem_map_hexText hg).2, parseGroups_map_hexText hws true hne, bind_eq_bind,
    bind_some]
  rw [if_pos (by rw [length_bytes, hlen])]

section
variable (a b c d : Byte)

theorem length_quadText : 7 ≤ (quadText a b c d).length ∧ (quadText a b c d).length ≤ 15 := by
  obtain ⟨_, -, -, _⟩ := decText_props a
  obtain ⟨_, -, -, _⟩ := decText_props b
  obtain ⟨_, -, -, _⟩ := decText_props c
  obtain ⟨_, -, -, _⟩ := decText_props d
  simp only [quadText, length_append, length_cons]
  omega

theorem not_mem_quadText : (0x3a : Byte) ∉ quadText a b c d := by
  have hdot : ¬(0x3a : Byte) = 0x2e := by decide
  simp only [quadText, mem_append, mem_cons, not_or]
  exact ⟨(decText_props a).2.2.1, hdot, (decText_props b).2.2.1, hdot, (decText_props c).2.2.1, hdot,
    (decText_props d).2.2.1⟩

theorem parseQuad_quadText : parseQuad (quadText a b c d) = some [a, b, c, d] := by
  rw [parseQuad, quadText, split_append (decText_props a).2.1, split_append (decText_props b).2.1,
    split_append (decText_props c).2.1, split_of_not_mem (decText_props d).2.1]
  simp only [parseDec_decText, bind_eq_bind, bind_some]

/-- **A text that ends in a dotted quad is read back.** -/
theorem parse_quadText {ws : List Nat} (hws : ∀ w ∈ ws, w < 65536) (hlen : ws.length ≤ 5) :
    parse (0x3a :: 0x3a :: join (ws.map hexText ++ [quadText a b c d])) =
      some (List.replicate (12 - 2 * ws.length) 0 ++ bytes ws ++ [a, b, c, d]) := by
  have hgroups : ∀ g ∈ ws.map hexText ++ [quadText a b c d], g ≠ [] ∧ (0x3a) ∉ g := by
    intro g hg
    rcases mem_append.mp hg with hg | hg
    · exact mem_map_hexText hg
    · rw [mem_singleton.mp hg]
      refine ⟨fun hnil => ?_, not_mem_quadText a b c d⟩
      have := (length_quadText a b c d).1
      rw [hnil] at this
      exact absurd this (by decide)
  have hne : ws.map hexText ++ [quadText a b c d] ≠ [] := by simp
  have hhex : parseHex (quadText a b c d) = none := by
    have := (length_quadText a b c d).1
    rw [parseHex, if_neg]
    simp only [mem_cons, not_mem_nil, or_false]
    omega
  have hside : parseSide true (join (ws.map hexText ++ [quadText a b c d])) =
      some (bytes ws ++ [a, b, c, d]) := by
    rw [parseSide, if_neg (join_ne_nil hne fun g hg => (hgroups g hg).1),
      split_join hne fun g hg => (hgroups g hg).2,
      parseGroups_quad hws (parseQuad_quadText a b c d) hhex]
  have hlen' : (bytes ws ++ [a, b, c, d]).length = 2 * ws.length + 4 := by
    rw [length_append, length_bytes]
    rfl
  rw [parse, cut, if_pos ⟨rfl, rfl⟩]
  simp only [show parseSide false [] = some [] from rfl, hside, bind_eq_bind,
    bind_some, hlen', length_nil, nil_append]
  rw [if_pos (by omega), show 16 - (0 + (2 * ws.length + 4)) = 12 - 2 * ws.length by omega,
    append_assoc]

end

end Ipv6
