import DTrace.Proc.SymByAddr
import Mathlib.Data.Prod.Lex
import Mathlib.Data.List.Lex

/-!
# The preference among process symbols — `byaddr_cmp_common`, `sym_prefer`

The criteria up to the leading `$` are `Sym.first`, those from the underscores on `Sym.second`, each
in lexicographic order.

* **`byaddrCmpCommon_sign`** — the sign of the comparison. Of two names with a `$` that agree in
  `Sym.first`, each comes before the other (`DollarTie`).
* **`byaddrCmpCommon_order_iff`** — apart from that, it is an order.
-/

namespace DTrace.Psymtab

open Symtab (Byte strcmp)

/-- `sym_prefer` -/
def symPrefer : Option Sym → Option Sym → Option Sym
  | none, sym2 => sym2
  | sym1, none => sym1
  | some sym1, some sym2 => if byaddrCmpCommon sym1 sym2 ≤ 0 then some sym1 else some sym2

/-- The start, functions first, local symbols last, names with a `$` last. -/
def Sym.first (a : Sym) : Nat ×ₗ Bool ×ₗ Bool ×ₗ Bool :=
  toLex (a.value, toLex (decide (a.type ≠ sttFunc),
    toLex (decide (a.bind = stbLocal), decide (a.name.head? = some dollar))))

/-- The number of leading underscores, the size, the name without the underscores. -/
def Sym.second (a : Sym) : Nat ×ₗ Nat ×ₗ List Byte :=
  toLex ((a.name.takeWhile (· = underscore)).length,
    toLex (a.size, a.name.dropWhile (· = underscore)))

/-- The criteria from the underscores on. -/
def compareTail (a b : Sym) : Int :=
  let (aname, bname) := skipUnderscores a.name b.name
  if bname.head? = some underscore then -1
  else if aname.head? = some underscore then 1
  else if a.size < b.size then -1
  else if a.size > b.size then 1
  else strcmp aname bname

variable (a b : Sym)

theorem skipUnderscores_cases (s t : List Byte) :
    let us (s : List Byte) := (s.takeWhile (· = underscore)).length
    let bare (s) := s.dropWhile (· = underscore)
    (us s < us t ∧ (skipUnderscores s t).2.head? = some underscore) ∨
    (us t < us s ∧ (skipUnderscores s t).1.head? = some underscore ∧
      (skipUnderscores s t).2.head? ≠ some underscore) ∨
    (us s = us t ∧ skipUnderscores s t = (bare s, bare t) ∧
      (bare s).head? ≠ some underscore ∧ (bare t).head? ≠ some underscore) := by
  fun_induction skipUnderscores s t with
  | case1 x s y t h ih => simpa [h.1, h.2] using ih
  | case2 x s y t h =>
    by_cases hx : x = underscore <;> by_cases hy : y = underscore <;> simp_all
  | case3 s t h =>
    cases s with
    | nil => cases t with
      | nil => simp
      | cons y t => by_cases hy : y = underscore <;> simp_all
    | cons x s => cases t with
      | nil => by_cases hx : x = underscore <;> simp_all
      | cons y t => exact absurd rfl (h x s y t rfl)

theorem compareTail_sign : (compareTail a b < 0 ↔ a.second < b.second) ∧
    (0 < compareTail a b ↔ b.second < a.second) := by
  simp only [Sym.second, Prod.Lex.toLex_lt_toLex, compareTail]
  rcases skipUnderscores_cases a.name b.name with ⟨hlt, hb⟩ | ⟨hlt, ha, hb⟩ | ⟨heq, hskip, ha, hb⟩
  · simp [hb, hlt, hlt.ne', not_lt_of_gt hlt]
  · simp [ha, hb, hlt, hlt.ne', not_lt_of_gt hlt]
  · simp only [hskip, ha, hb, heq]
    rcases lt_trichotomy a.size b.size with h | h | h
    · simp [h, h.ne', not_lt_of_gt h]
    · simp only [h, strcmp]
      rcases lt_trichotomy (a.name.dropWhile (· = underscore))
        (b.name.dropWhile (· = underscore)) with h | h | h
      · simp [h, not_lt_of_gt h]
      · simp [h]
      · simp [h, not_lt_of_gt h]
    · simp [h, h.ne', not_lt_of_gt h]

/-- The sign of the comparison. -/
theorem byaddrCmpCommon_sign :
    (byaddrCmpCommon a b < 0 ↔ a.first < b.first ∨
      a.first = b.first ∧ (a.name.head? = some dollar ∨ a.second < b.second)) ∧
    (0 < byaddrCmpCommon a b ↔ b.first < a.first ∨
      a.first = b.first ∧ a.name.head? ≠ some dollar ∧ b.second < a.second) := by
  have hdef : byaddrCmpCommon a b =
    if a.value < b.value then -1
    else if a.value > b.value then 1
    else if a.type ≠ b.type ∧ a.type = sttFunc then -1
    else if a.type ≠ b.type ∧ b.type = sttFunc then 1
    else if a.bind ≠ b.bind ∧ b.bind = stbLocal then -1
    else if a.bind ≠ b.bind ∧ a.bind = stbLocal then 1
    else if b.name.head? = some dollar then -1
    else if a.name.head? = some dollar then 1 else compareTail a b := rfl
  have hne (x y p : Nat) : x ≠ y ∧ x = p ↔ x = p ∧ y ≠ p := by grind
  have hne' (x y p : Nat) : x ≠ y ∧ y = p ↔ y = p ∧ x ≠ p := by grind
  obtain ⟨hneg, hpos⟩ := compareTail_sign a b
  simp only [← hneg, ← hpos, hdef, Sym.first, Prod.Lex.toLex_lt_toLex, hne, hne', toLex_inj,
    Prod.mk.injEq]
  generalize compareTail a b = t
  rcases lt_trichotomy a.value b.value with h | h | h
  · simp [h, h.ne, h.ne', not_lt_of_gt h]
  · by_cases ha : a.type = sttFunc <;> by_cases hb : b.type = sttFunc <;>
      by_cases hla : a.bind = stbLocal <;> by_cases hlb : b.bind = stbLocal <;>
      by_cases hda : a.name.head? = some dollar <;> by_cases hdb : b.name.head? = some dollar <;>
      simp [h, ha, hb, hla, hlb, hda, hdb]
  · simp [h, h.ne', not_lt_of_gt h]

/-- The criteria before the underscores do not tell the symbols apart: the start, whether they are
functions, whether they are local, and both names have a `$`. -/
def DollarTie : Prop := a.first = b.first ∧ a.name.head? = some dollar

theorem dollar_iff {a b : Sym} (h : a.first = b.first) :
    a.name.head? = some dollar ↔ b.name.head? = some dollar := by
  simp only [Sym.first, toLex_inj, Prod.mk.injEq, decide_eq_decide] at h
  exact h.2.2.2

/-- Of two symbols one comes first, unless they are told apart by nothing but a `$`. -/
theorem byaddrCmpCommon_antisymm_iff :
    (byaddrCmpCommon a b < 0 ↔ 0 < byaddrCmpCommon b a) ↔ ¬DollarTie a b := by
  rw [(byaddrCmpCommon_sign a b).1, (byaddrCmpCommon_sign b a).2, DollarTie]
  by_cases h : a.first = b.first
  · by_cases hd : a.name.head? = some dollar
    · simp [h, hd, (dollar_iff h).mp hd]
    · simp [h, hd, (dollar_iff h).not.mp hd]
  · simp [h, Ne.symm h]

theorem byaddrCmpCommon_trans {c : Sym} (hab : byaddrCmpCommon a b < 0)
    (hbc : byaddrCmpCommon b c < 0) : byaddrCmpCommon a c < 0 := by
  rw [(byaddrCmpCommon_sign _ _).1] at hab hbc ⊢
  rcases hab with hab | ⟨hab, hda⟩
  · rcases hbc with hbc | ⟨hbc, -⟩
    · exact .inl (hab.trans hbc)
    · exact .inl (hbc ▸ hab)
  · rcases hbc with hbc | ⟨hbc, hdb⟩
    · exact .inl (hab ▸ hbc)
    · refine .inr ⟨hab.trans hbc, ?_⟩
      rcases hda with hda | hda
      · exact .inl hda
      · exact hdb.imp (dollar_iff hab).mpr hda.trans

/-- **The preference is an order** exactly where not both names have a `$`: it is antisymmetric,
transitive, and `sym_prefer` does not depend on the order of its arguments. -/
theorem byaddrCmpCommon_order_iff :
    ((byaddrCmpCommon a b < 0 ↔ 0 < byaddrCmpCommon b a) ∧
      (∀ c, byaddrCmpCommon a b < 0 → byaddrCmpCommon b c < 0 → byaddrCmpCommon a c < 0) ∧
      (byaddrCmpCommon a b ≠ 0 → symPrefer (some a) (some b) = symPrefer (some b) (some a))) ↔
    ¬DollarTie a b := by
  refine ⟨fun h => (byaddrCmpCommon_antisymm_iff a b).mp h.1, fun h => ?_⟩
  have hab := (byaddrCmpCommon_antisymm_iff a b).mpr h
  have hba := (byaddrCmpCommon_antisymm_iff b a).mpr fun h' =>
    h ⟨h'.1.symm, (dollar_iff h'.1).mp h'.2⟩
  refine ⟨hab, fun c => byaddrCmpCommon_trans a b, fun hne => ?_⟩
  simp only [symPrefer]
  rcases lt_or_gt_of_ne hne with hlt | hgt
  · rw [if_pos hlt.le, if_neg (not_le.mpr (hab.mp hlt))]
  · rw [if_neg (not_le.mpr hgt), if_pos (hba.mpr hgt).le]

/-- Two functions at one address, `$a` and `$b`: each is preferred to the other. -/
theorem both_dollars_preferred :
    let a : Sym := ⟨[36, 97], 4096, 8, sttFunc, stbLocal⟩
    let b : Sym := ⟨[36, 98], 4096, 8, sttFunc, stbLocal⟩
    byaddrCmpCommon a b < 0 ∧ byaddrCmpCommon b a < 0 ∧
      symPrefer (some a) (some b) = some a ∧ symPrefer (some b) (some a) = some b := by
  decide

end DTrace.Psymtab
