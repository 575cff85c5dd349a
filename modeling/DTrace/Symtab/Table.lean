import DTrace.Lib.ByteMem
import DTrace.Lib.Search

/-!
# Symbol tables

A table has symbols and, for lookups by address, ranges of addresses that each belong to one
symbol (`dt_symtab.c`). Inserting a symbol adds a range without bounds; `dtSymtabSort` sorts the
ranges by symbol and replaces them by ranges that do not overlap (`dtSymtabFormRanges`), which
`dtSymbolByAddr` then searches.

A pointer to a symbol is its place in the list of symbols. Addresses are numbers below `2 ^ 64`,
and their arithmetic wraps. Where symbols wrap, forming ranges need not come to an end, so it has
fuel, of which it otherwise has enough (`dtSymtabFormRanges_spec`).
-/

namespace DTrace.Symtab

abbrev Byte := Fin 256

structure Symbol where
  name : List Byte
  addr : Nat
  size : Nat
  info : UInt8
  deriving DecidableEq, Repr

namespace Symbol

/-- `dts_addr + dts_size` -/
def top (sym : Symbol) : Nat := (sym.addr + sym.size) % 2 ^ 64

/-- `GELF_ST_TYPE(dts_info) == STT_NOTYPE` -/
def notype (sym : Symbol) : Bool := sym.info &&& 0xf = 0

/-- `GELF_ST_BIND(dts_info) == STB_WEAK` -/
def weak (sym : Symbol) : Bool := sym.info >>> 4 = 2

def cleanup (sym : Symbol) : Bool :=
  sym.name = "cleanup_module".toList.map fun c => Fin.ofNat 256 c.toNat

end Symbol

/-- The C library's comparison of strings, as bytes. -/
def strcmp (s t : List Byte) : Int := if s < t then -1 else if t < s then 1 else 0

def dtSymrangeSortCmp (lhs rhs : Symbol) : Int :=
  if lhs.addr < rhs.addr then -1
  else if lhs.addr > rhs.addr then 1
  else if lhs.size > rhs.size then -1
  else if lhs.size < rhs.size then 1
  else if lhs.notype ≠ rhs.notype then if lhs.notype then 1 else -1
  else if lhs.weak ≠ rhs.weak then if lhs.weak then 1 else -1
  else if !lhs.cleanup ∧ rhs.cleanup then -1
  else if !rhs.cleanup ∧ lhs.cleanup then 1
  else strcmp lhs.name rhs.name

/-- A range `[lo, hi)` of a symbol, given by a pointer of type `σ`. -/
structure SymRange (σ : Type*) where
  lo : Nat
  hi : Nat
  sym : σ
  deriving DecidableEq, Repr

def dtSymbolSearchCmp {σ : Type*} (addr : Nat) (range : SymRange σ) : Int :=
  if addr < range.lo then -1 else if addr ≥ range.hi then 1 else 0

/-! ## Forming ranges -/

section
variable {σ : Type*} [DecidableEq σ] (deref : σ → Symbol)

/-- The inner loop: the other candidates for a range that starts at `lo`. It may cut down the
end `hi` and change the symbol. -/
def candidates (lo : Nat) : List σ → Nat → σ → Nat × σ
  | [], hi, sym => (hi, sym)
  | sym2 :: rest, hi, sym =>
    -- all others are too high as well
    if (deref sym2).addr ≥ hi then (hi, sym)
    -- break the range down
    else if (deref sym2).addr > lo then ((deref sym2).addr, sym)
    else
      let hi2 := (deref sym2).top
      if hi2 ≤ lo then candidates lo rest hi sym
      else
        candidates lo rest (if hi2 < hi then hi2 else hi)
          (if (deref sym2).addr > (deref sym).addr ∨
              (deref sym2).addr = (deref sym).addr ∧ (deref sym2).size < (deref sym).size
            then sym2 else sym)

/-- The new ranges, the last one first. A range that continues the last one is put together
with it. -/
def addRange (range : SymRange σ) : List (SymRange σ) → List (SymRange σ)
  | last :: ranges =>
    if last.hi = range.lo ∧ last.sym = range.sym then { last with hi := range.hi } :: ranges
    else range :: last :: ranges
  | [] => [range]

/-- The outer loop. `hi` is the end of the last range. A symbol is looked at again after every
range, until all its addresses are behind. -/
def formRanges : Nat → Nat → List (SymRange σ) → List σ → Option (List (SymRange σ))
  | 0, _, _, _ => none
  | _ + 1, _, ranges, [] => some ranges.reverse
  | fuel + 1, hi, ranges, sym :: rest =>
    if (deref sym).size = 0 then formRanges fuel hi ranges rest
    else if (deref sym).addr < hi ∧ (deref sym).top ≤ hi then formRanges fuel hi ranges rest
    else
      let lo := if (deref sym).addr < hi then hi else (deref sym).addr
      let next := candidates deref lo rest (deref sym).top sym
      formRanges fuel next.1 (addRange ⟨lo, next.1, next.2⟩ ranges) (sym :: rest)

def dtSymtabFormRanges (syms : List σ) : Option (List (SymRange σ)) :=
  formRanges deref (syms.length + 2 ^ 64 + 1) 0 [] syms

end

/-! ## Tables -/

structure Table where
  symbols : List Symbol
  ranges : List (SymRange Nat)
  sorted : Bool
  packed : Bool
  deriving DecidableEq, Repr

/-- A sorting function for the C library's `qsort`. -/
abbrev Qsort := (Nat → Nat → Int) → List Nat → List Nat

namespace Table

def create : Table := ⟨[], [], false, false⟩

def deref (t : Table) (p : Nat) : Symbol := t.symbols.getD p ⟨[], 0, 0, 0⟩

/-- No insertion into packed tables. A symbol without addresses has no range; the bounds of the
new range are not set. -/
def dtSymbolInsert (t : Table) (sym : Symbol) : Option Table :=
  if t.packed then none
  else
    some { t with
      symbols := t.symbols ++ [sym]
      ranges := if sym.size > 0 then t.ranges ++ [⟨0, 0, t.symbols.length⟩] else t.ranges
      sorted := false }

/-- With a flag, every symbol but the last reaches up to the next one. -/
def resize (symbols : List Symbol) : List Nat → List Symbol
  | sym :: nsym :: rest =>
    resize (symbols.modify sym fun s =>
      { s with size := ((symbols.getD nsym ⟨[], 0, 0, 0⟩).addr + 2 ^ 64 - s.addr) % 2 ^ 64 })
      (nsym :: rest)
  | _ => symbols

def dtSymtabSort (qsort : Qsort) (t : Table) (flag : Bool) : Option Table :=
  if t.sorted then some t
  else
    let syms := qsort (fun l r => dtSymrangeSortCmp (t.deref l) (t.deref r)) (t.ranges.map (·.sym))
    let t := if flag then { t with symbols := resize t.symbols syms } else t
    (dtSymtabFormRanges t.deref syms).map fun ranges =>
      { t with ranges := ranges, sorted := true }

/-- The names move to one string table, which is not modelled. -/
def dtSymtabPack (qsort : Qsort) (t : Table) : Option Table :=
  if t.packed then some t
  else (dtSymtabSort qsort t false).map fun t => { t with packed := true }

def dtSymbolByAddr (t : Table) (addr : Nat) : Option Nat :=
  if !t.sorted then none else (bsearch (dtSymbolSearchCmp addr) t.ranges).map (·.sym)

end Table

end DTrace.Symtab
