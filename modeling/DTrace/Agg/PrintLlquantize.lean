import DTrace.Agg.Llquantize
import Mathlib.Data.List.GetD
import Mathlib.Data.Nat.Digits.Lemmas

/-!
# Printing a log-linear quantization

`dt_print_llquantize` walks over the bins with its own magnitudes and step sizes, and writes the
label of each bin to a cell of 16 bytes. Then it prints the cells that have a label, from one bin
before the first one with a count to one bin after the last one.

* `marks` are the numbers of the labels, `next_offset` says that the numbers around a magnitude are
  those of its bin and of the next bin with a label.
* `labelled` reads the rows as ranges of values, and `llquantize_printed_iff` says which values are
  in the right row: those for which the label that bounds the row fits its cell, or is still above
  the value after it has been cut.
-/

namespace DTrace.Agg

open List Option Nat

/-! ## Labels

A label is a text and a number; `snprintf` cuts what does not fit into the 15 characters of a cell.
-/

inductive LabelKind
  | num
  | neg
  | lt
  | abs
  | le
  | ge
  deriving DecidableEq, Repr

/-- The text before the number. -/
def LabelKind.text : LabelKind → List Char
  | num => []
  | neg => ['-']
  | lt => ['<', ' ']
  | abs => ['a', 'b', 's', '(', ')', ' ', '<', ' ']
  | le => ['<', '=', ' ', '-']
  | ge => ['>', '=', ' ']

structure Label where
  kind : LabelKind
  digits : List Nat
  deriving DecidableEq, Repr

/-- The bytes of a cell, with the terminating one. -/
def cwidth : Nat := 16

/-- The digits that a cell has room for. -/
def LabelKind.room (kind : LabelKind) : Nat := cwidth - 1 - kind.text.length

def decimal (n : Nat) : List Nat := if n = 0 then [0] else (Nat.digits 10 n).reverse

/-- `snprintf` of a number to a cell: what does not fit is cut off. -/
def Label.print (kind : LabelKind) (val : Nat) : Label where
  kind := kind
  digits := (decimal val).take kind.room

/-- The number that is read. -/
def Label.number (l : Label) : Nat := Nat.ofDigits 10 l.digits.reverse

/-- The cell `b` after some writes. -/
def lastWrite {β : Type} (writes : List (Nat × β)) (b : Nat) : Option β := writes.reverse.lookup b

namespace LlqArgs

variable (a : LlqArgs)

/-- The bins of the first range are one for each number when there are more steps than numbers. -/
def unitRange : Prop := a.lmag = 0 ∧ a.factor < a.steps

instance : Decidable a.unitRange := inferInstanceAs (Decidable (_ ∧ _))

/-- The loop over the numbers of the first range, from `step` on. -/
def unitLoop : Nat → Nat → Nat → List (Nat × Nat)
  | 0, _, _ => []
  | n + 1, step, i => (i + a.stepsFactor, step) :: unitLoop n (step + 1) (i + a.stepsFactor)

/-- The loop over the steps of a range, from `step` on. -/
def stepLoop (scale : Nat) : Nat → Nat → Nat → List (Nat × Nat)
  | 0, _, _ => []
  | n + 1, step, i => (i + 1, step * scale) :: stepLoop scale n (step + 1) (i + 1)

/-- The loop over the ranges. -/
def magLoop : Nat → Nat → Nat → List (Nat × Nat)
  | 0, _, _ => []
  | n + 1, i, scale =>
    stepLoop scale a.perRange (a.stepsFactor + 1) i ++ magLoop n (i + a.perRange) (scale * a.factor)

/-- The distances from the middle at which a number is written, on both sides. -/
def marks : List (Nat × Nat) :=
  (1, a.factor ^ a.lmag) ::
    if a.unitRange then
      a.unitLoop (a.factor - 1) 2 1 ++
        a.magLoop (a.hmag - a.lmag) (1 + (a.factor - 1) * a.stepsFactor)
          (a.factor ^ (a.lmag + 2) / a.steps)
    else a.magLoop (a.hmag + 1 - a.lmag) 1 (a.factor ^ (a.lmag + 1) / a.steps)

/-- The two writes of a number. -/
def sides (bin0 : Nat) (mark : Nat × Nat) : List (Nat × Label) :=
  [(bin0 - mark.1, Label.print .neg mark.2), (bin0 + mark.1, Label.print .num mark.2)]

/-- All labels that are written, in order. `first` is the first bin that is printed. -/
def writes (first : Nat) : List (Nat × Label) :=
  let scale := a.factor ^ a.lmag
  let middle :=
    if scale = 1 then Label.print .num 0
    else if a.bin0 ≤ first then Label.print .lt scale
    else Label.print .abs scale
  (a.bin0, middle) ::
    a.marks.flatMap (sides a.bin0) ++
    [(0, Label.print .le (a.factor ^ (a.hmag + 1))),
      (a.nbins - 1, Label.print .ge (a.factor ^ (a.hmag + 1)))]

def pad : Nat := if a.unitRange then a.stepsFactor else 0

/-! ## Rows -/

/-- The first and the last bin with data, or a bin to report when there is none. -/
def dataBins (data : List Word) : Nat × Nat :=
  if data.findIdx (· ≠ 0) < data.length then
    (data.findIdx (· ≠ 0), data.length - 1 - data.reverse.findIdx (· ≠ 0))
  else (a.bin0 + 1, a.bin0 + 1)

/-- The bins that are printed. -/
def window (data : List Word) : Nat × Nat :=
  let (first, last) := a.dataBins data
  (first - 1, if last < a.nbins - 1 then last + 1 else last)

/-- The cells around the bins that are printed. -/
def cells (first last b : Nat) : Option Label :=
  if first ≤ b + a.pad ∧ b ≤ last + a.pad then lastWrite (a.writes first) b else none

/-- The first bin takes the label of a bin before it when it has none. -/
def fixFirst (first : Nat) (c : Nat → Option Label) (b : Nat) : Option Label :=
  if b = first ∧ c b = none then
    (List.range' 1 (a.pad - 1)).findSome? fun i => if i ≤ b then c (b - i) else none
  else c b

/-- The last bin takes the label of a bin after it when it has none. -/
def fixLast (last : Nat) (c : Nat → Option Label) (b : Nat) : Option Label :=
  if b = last ∧ c b = none then (List.range' 1 (a.pad - 1)).findSome? fun i => c (b + i)
  else c b

end LlqArgs

structure Row where
  bin : Nat
  label : Label
  count : Word
  deriving DecidableEq, Repr

/-- What is printed for bin `b`: nothing without a label. -/
def LlqArgs.row (a : LlqArgs) (data : List Word) (first last b : Nat) : Option Row :=
  (a.fixLast last (a.fixFirst first (a.cells first last)) b).map fun label =>
    { bin := b, label, count := data.getD b 0 }

def LlqArgs.rows (a : LlqArgs) (data : List Word) : List Row :=
  let (first, last) := a.window data
  (List.range' first (last + 1 - first)).filterMap (a.row data first last)

/-- The rows that are printed; `none` is `EDT_DMISMATCH`. -/
def dtPrintLlquantize (data : List Word) (sig : Nat) : Option (List Row) :=
  let a := LlqArgs.ofSig sig
  if data.length = 0 ∨ data.length ≠ a.nbins then none else some (a.rows data)

/-! ## Reading the rows

A reader takes the number of a row and that of the next row away from zero as the bounds of its
range. -/

/-- The values that a label stands for, between the labels of the rows around it. -/
def Label.Holds (prev next : Option Label) (l : Label) (v : Int) : Prop :=
  match l.kind with
  | .num => (l.number : Int) ≤ v ∧ ∀ l' ∈ next, v < l'.number
  | .neg => v ≤ -(l.number : Int) ∧ ∀ l' ∈ prev, -(l'.number : Int) < v
  | .lt => v < l.number
  | .abs => (v.natAbs : Int) < l.number
  | .le => v ≤ -(l.number : Int)
  | .ge => (l.number : Int) ≤ v

instance Label.decidableHolds (prev next : Option Label) :
    (l : Label) → (v : Int) → Decidable (l.Holds prev next v)
  | ⟨.num, _⟩, _ => inferInstanceAs (Decidable (_ ∧ _))
  | ⟨.neg, _⟩, _ => inferInstanceAs (Decidable (_ ∧ _))
  | ⟨.lt, _⟩, _ => inferInstanceAs (Decidable (_ < _))
  | ⟨.abs, _⟩, _ => inferInstanceAs (Decidable (_ < _))
  | ⟨.le, _⟩, _ => inferInstanceAs (Decidable (_ ≤ _))
  | ⟨.ge, _⟩, _ => inferInstanceAs (Decidable (_ ≤ _))

/-- The row of bin `b` stands for `v`. -/
def labelled (rows : List Row) (b : Nat) (v : Int) : Prop :=
  ∃ row ∈ rows.find? (·.bin = b),
    row.label.Holds ((rows.reverse.find? (·.bin < b)).map (·.label))
      ((rows.find? (b < ·.bin)).map (·.label)) v

instance (rows : List Row) (b : Nat) (v : Int) : Decidable (labelled rows b v) :=
  inferInstanceAs (Decidable (∃ row ∈ rows.find? (·.bin = b),
    row.label.Holds ((rows.reverse.find? (·.bin < b)).map (·.label))
      ((rows.find? (b < ·.bin)).map (·.label)) v))

/-! ## Numbers of labels -/

/-- The first `width` digits of a number. -/
def cut (width n : Nat) : Nat := n / 10 ^ ((Nat.digits 10 n).length - width)

theorem cut_le (width n : Nat) : cut width n ≤ n := Nat.div_le_self ..

/-- What is cut off are the last digits. -/
theorem number_print (kind : LabelKind) (n : Nat) :
    (Label.print kind n).number = cut kind.room n := by
  by_cases h : n = 0
  · subst h
    cases kind <;> rfl
  · rw [Label.number, Label.print, decimal, if_neg h, take_reverse, reverse_reverse, cut,
      self_div_pow_eq_ofDigits_drop _ _ (by decide)]

/-! ## Cells -/

section LastWrite

variable {β : Type} {b : Nat}

@[simp] theorem lastWrite_nil : lastWrite ([] : List (Nat × β)) b = none := rfl

theorem lastWrite_append (w w' : List (Nat × β)) :
    lastWrite (w ++ w') b = (lastWrite w' b).or (lastWrite w b) := by
  rw [lastWrite, reverse_append, lookup_append]
  rfl

theorem lastWrite_cons (k : Nat) (x : β) (w : List (Nat × β)) :
    lastWrite ((k, x) :: w) b = (lastWrite w b).or (if b = k then some x else none) := by
  rw [show (k, x) :: w = [(k, x)] ++ w from rfl, lastWrite_append]
  by_cases h : b = k
  · subst h
    simp [lastWrite]
  · have hb : (b == k) = false := beq_eq_false_iff_ne.mpr h
    simp [lastWrite, lookup_cons, hb, h]

theorem lastWrite_cons_self (x : β) {w : List (Nat × β)} (h : lastWrite w b = none) :
    lastWrite ((b, x) :: w) b = some x := by
  rw [lastWrite_cons, h, if_pos rfl]
  rfl

theorem lastWrite_cons_ne {k : Nat} (x : β) (w : List (Nat × β)) (h : b ≠ k) :
    lastWrite ((k, x) :: w) b = lastWrite w b := by
  rw [lastWrite_cons, if_neg h, or_none]

end LastWrite

namespace LlqArgs

variable (a : LlqArgs)

variable {scale n step i : Nat}

variable {o j : Nat}

theorem lastWrite_stepLoop_le (h : o ≤ i) : lastWrite (stepLoop scale n step i) o = none := by
  induction n generalizing step i with
  | zero => rfl
  | succ n ih =>
    rw [stepLoop, lastWrite_cons_ne _ _ (by omega)]
    exact ih (by omega)

theorem lastWrite_stepLoop (h : j < n) :
    lastWrite (stepLoop scale n step i) (i + 1 + j) = some ((step + j) * scale) := by
  induction n generalizing step i j with
  | zero => omega
  | succ n ih =>
    rw [stepLoop]
    cases j with
    | zero => exact lastWrite_cons_self _ (lastWrite_stepLoop_le (by omega))
    | succ j =>
      rw [lastWrite_cons_ne _ _ (by omega), show i + 1 + (j + 1) = (i + 1) + 1 + j by omega,
        ih (by omega), show step + 1 + j = step + (j + 1) by omega]

theorem lastWrite_magLoop_le (h : o ≤ i) : lastWrite (a.magLoop n i scale) o = none := by
  induction n generalizing i scale with
  | zero => rfl
  | succ n ih =>
    rw [magLoop, lastWrite_append, ih (by omega), lastWrite_stepLoop_le h]
    rfl

/-- Step `k + 1` of the `j`-th range. -/
theorem lastWrite_magLoop {k : Nat} (hj : j < n) (hk : k < a.perRange) :
    lastWrite (a.magLoop n i scale) (i + j * a.perRange + 1 + k) =
      some ((a.stepsFactor + 1 + k) * (scale * a.factor ^ j)) := by
  induction n generalizing i scale j with
  | zero => omega
  | succ n ih =>
    rw [magLoop, lastWrite_append]
    cases j with
    | zero =>
      rw [Nat.zero_mul, lastWrite_magLoop_le a (by omega), lastWrite_stepLoop hk,
        Nat.pow_zero, Nat.mul_one]
      rfl
    | succ j =>
      rw [show i + (j + 1) * a.perRange + 1 + k = (i + a.perRange) + j * a.perRange + 1 + k by
          rw [Nat.succ_mul]; omega,
        ih (by omega), Nat.pow_succ', ← Nat.mul_assoc scale]
      rfl

theorem lastWrite_unitLoop_le (hpos : 0 < a.stepsFactor) (h : o ≤ i) :
    lastWrite (a.unitLoop n step i) o = none := by
  induction n generalizing step i with
  | zero => rfl
  | succ n ih =>
    rw [unitLoop, lastWrite_cons_ne _ _ (by omega)]
    exact ih (by omega)

theorem lastWrite_unitLoop (hpos : 0 < a.stepsFactor) (h : j < n) :
    lastWrite (a.unitLoop n step i) (i + (j + 1) * a.stepsFactor) = some (step + j) := by
  induction n generalizing step i j with
  | zero => omega
  | succ n ih =>
    rw [unitLoop]
    cases j with
    | zero =>
      rw [Nat.one_mul]
      exact lastWrite_cons_self _ (lastWrite_unitLoop_le a hpos le_rfl)
    | succ j =>
      have hpos' : 0 < (j + 1) * a.stepsFactor := mul_pos (by omega) hpos
      rw [show i + (j + 1 + 1) * a.stepsFactor =
          (i + a.stepsFactor) + (j + 1) * a.stepsFactor by rw [succ_mul (j + 1)]; omega,
        lastWrite_cons_ne _ _ (by omega), ih (by omega), show step + 1 + j = step + (j + 1) by omega]

/-- The bins between two numbers have no label. -/
theorem lastWrite_unitLoop_ghost {e : Nat} (he : 0 < e) (h : e < a.stepsFactor) :
    lastWrite (a.unitLoop n step i) (i + j * a.stepsFactor + e) = none := by
  induction n generalizing step i j with
  | zero => rfl
  | succ n ih =>
    rw [unitLoop]
    cases j with
    | zero =>
      rw [lastWrite_cons_ne _ _ (by omega),
        lastWrite_unitLoop_le a (by omega) (by omega)]
    | succ j =>
      rw [show i + (j + 1) * a.stepsFactor + e = (i + a.stepsFactor) + j * a.stepsFactor + e by
          rw [succ_mul]; omega,
        lastWrite_cons_ne _ _ (by omega), ih]

end LlqArgs

namespace LlqParams

open LlqArgs

variable {p : LlqParams}

/-! ## Numbers of the bins

Within a magnitude the bins are of one width, and the first of the next magnitude follows the last.
-/

theorem stepsFactor_pos (h : p.unitRange) : 0 < p.stepsFactor :=
  div_pos h.2.le p.factor_pos

/-- With more steps than numbers, each number of the first range has `steps / factor` of them. -/
theorem perRange_of_unitRange (h : p.unitRange) : p.perRange = (p.factor - 1) * p.stepsFactor := by
  have hmul : p.stepsFactor * p.factor = p.steps :=
    Nat.div_mul_cancel (Nat.dvd_of_mod_eq_zero (p.dvd_steps h.2))
  rw [perRange, ← hmul, Nat.sub_one_mul, Nat.mul_comm]

variable {o t : Nat} (below : Bool)

/-- The loops write behind the first number. -/
theorem lastWrite_marks_tail (ho : o ≤ 1) : lastWrite p.marks.tail o = none := by
  rw [marks, tail_cons]
  split
  · next h =>
    rw [lastWrite_append, lastWrite_magLoop_le _ (by omega),
      lastWrite_unitLoop_le _ (stepsFactor_pos h) ho]
    rfl
  · exact lastWrite_magLoop_le _ ho

theorem lastWrite_marks_one : lastWrite p.marks 1 = some (p.factor ^ p.lmag) :=
  lastWrite_cons_self _ (lastWrite_marks_tail le_rfl)

/-- The number of step `q` of a range of equal steps. -/
theorem lastWrite_marks_step {mag q : Nat} (hl : p.lmag ≤ mag) (hh : mag ≤ p.hmag)
    (hm : mag ≠ 0 ∨ p.steps ≤ p.factor) (hq : p.stepsFactor < q) (hq' : q ≤ p.steps) :
    lastWrite p.marks ((mag - p.lmag) * p.perRange + (q - p.stepsFactor) + 1) =
      some (q * (p.factor ^ (mag + 1) / p.steps)) := by
  have hk : q - p.stepsFactor - 1 < p.perRange := by
    rw [perRange]
    omega
  rw [marks, lastWrite_cons_ne _ _ (by omega)]
  by_cases hu : p.unitRange
  · -- The loop over the ranges starts with the second one.
    obtain ⟨m, rfl⟩ : ∃ m, mag = m + 1 := ⟨mag - 1, by have := hu.2; omega⟩
    have hl0 := hu.1
    have hmul : (m + 1 - p.lmag) * p.perRange = p.perRange + m * p.perRange := by
      rw [hl0, Nat.sub_zero, Nat.succ_mul, Nat.add_comm]
    have hdvd : p.steps ∣ p.factor ^ (p.lmag + 2) :=
      steps_dvd_range (by omega) (.inl (by omega))
    rw [if_pos hu, lastWrite_append, ← perRange_of_unitRange hu, hmul,
      show p.perRange + m * p.perRange + (q - p.stepsFactor) + 1 =
        1 + p.perRange + m * p.perRange + 1 + (q - p.stepsFactor - 1) by omega,
      lastWrite_magLoop _ (by omega) hk, Nat.div_mul_right_comm hdvd, ← Nat.pow_add,
      show p.stepsFactor + 1 + (q - p.stepsFactor - 1) = q by omega,
      show p.lmag + 2 + m = m + 1 + 1 by omega]
    rfl
  · have hdvd : p.steps ∣ p.factor ^ (p.lmag + 1) := by
      refine steps_dvd_range le_rfl ?_
      by_cases h0 : p.lmag = 0
      · exact .inr (Nat.le_of_not_lt fun h => hu ⟨h0, h⟩)
      · exact .inl h0
    rw [if_neg hu, show (mag - p.lmag) * p.perRange + (q - p.stepsFactor) + 1 =
        1 + (mag - p.lmag) * p.perRange + 1 + (q - p.stepsFactor - 1) by omega,
      lastWrite_magLoop _ (by omega) hk, Nat.div_mul_right_comm hdvd, ← Nat.pow_add,
      show p.stepsFactor + 1 + (q - p.stepsFactor - 1) = q by omega,
      show p.lmag + 1 + (mag - p.lmag) = mag + 1 by omega]

/-- A number of the first range when there are more steps than numbers. -/
theorem lastWrite_marks_unit (hu : p.unitRange) (ht : 0 < t) (ht' : t ≤ p.factor) :
    lastWrite p.marks ((t - 1) * p.stepsFactor + 1) = some t := by
  obtain ⟨j, rfl⟩ : ∃ j, t = j + 1 := ⟨t - 1, by omega⟩
  rw [Nat.add_sub_cancel]
  cases j with
  | zero =>
    rw [zero_mul, lastWrite_marks_one, hu.1]
    rfl
  | succ j =>
    have hpos := stepsFactor_pos hu
    have hpos' : 0 < (j + 1) * p.stepsFactor := mul_pos (by omega) hpos
    have hle : (j + 1) * p.stepsFactor ≤ (p.factor - 1) * p.stepsFactor :=
      mul_le_mul_right _ (by omega)
    rw [marks, lastWrite_cons_ne _ _ (by omega), if_pos hu, lastWrite_append,
      lastWrite_magLoop_le _ (by omega), add_comm,
      lastWrite_unitLoop _ hpos (by omega), show 2 + j = j + 1 + 1 by omega]
    rfl

theorem lastWrite_marks_ghost (hu : p.unitRange) {e : Nat} (ht : 0 < t) (ht' : t < p.factor)
    (he : 0 < e) (he' : e < p.stepsFactor) :
    lastWrite p.marks ((t - 1) * p.stepsFactor + 1 + e) = none := by
  have hle : (t - 1 + 1) * p.stepsFactor ≤ (p.factor - 1) * p.stepsFactor :=
    mul_le_mul_right _ (by omega)
  rw [succ_mul] at hle
  rw [marks, lastWrite_cons_ne _ _ (by omega), if_pos hu, lastWrite_append,
    lastWrite_magLoop_le _ (by omega), add_comm _ 1,
    lastWrite_unitLoop_ghost _ he he']
  rfl

/-- A range starts at a power of the factor. -/
theorem lastWrite_marks_start {mag : Nat} (hl : p.lmag ≤ mag) (hh : mag ≤ p.hmag + 1) :
    lastWrite p.marks ((mag - p.lmag) * p.perRange + 1) = some (p.factor ^ mag) := by
  rcases Nat.eq_or_lt_of_le hl with rfl | hlt
  · rw [Nat.sub_self, Nat.zero_mul, lastWrite_marks_one]
  -- The number is the last one of the range before.
  obtain ⟨m, rfl⟩ : ∃ m, mag = m + 1 := ⟨mag - 1, by omega⟩
  rw [show (m + 1 - p.lmag) * p.perRange = (m - p.lmag) * p.perRange + p.perRange by
    rw [show m + 1 - p.lmag = (m - p.lmag) + 1 by omega, succ_mul]]
  by_cases hm : m ≠ 0 ∨ p.steps ≤ p.factor
  · have hdvd := steps_dvd_range (by omega) hm
    have h := lastWrite_marks_step (by omega) (by omega) hm p.stepsFactor_lt
      le_rfl
    rwa [Nat.mul_div_cancel' hdvd] at h
  · obtain ⟨rfl, hs⟩ : m = 0 ∧ p.factor < p.steps := by omega
    have hu : p.unitRange := ⟨by omega, hs⟩
    have h := lastWrite_marks_unit hu p.factor_pos le_rfl
    rwa [← perRange_of_unitRange hu, ← Nat.zero_add p.perRange, ← Nat.zero_mul p.perRange,
      ← Nat.zero_sub p.lmag, ← Nat.pow_one p.factor] at h

theorem lastWrite_marks_last :
    lastWrite p.marks (p.ranged + 1) = some (p.factor ^ (p.hmag + 1)) := by
  have h := lastWrite_marks_start (p.lmag_le.trans (Nat.le_add_right _ 1)) le_rfl
  rwa [Nat.sub_add_comm p.lmag_le] at h

/-- The numbers of a bin and of the next bin that has one, at distances `o` and `o + d`. -/
structure Next (p : LlqParams) (o d n n' : Nat) : Prop where
  pos : 0 < o
  le : o ≤ p.ranged
  d_pos : 0 < d
  d_le : d ≤ max 1 p.pad
  end_le : o + d ≤ p.ranged + 1
  here : lastWrite p.marks o = some n
  next : lastWrite p.marks (o + d) = some n'
  ghost : ∀ e, 0 < e → e < d → lastWrite p.marks (o + e) = none

/-- The number of the first bin behind that of the magnitude `t`. -/
def nextMark (p : LlqParams) (t : Nat) : Nat :=
  if p.unitRange ∧ t < p.factor then t + 1
  else
    let width := p.factor ^ (Nat.log p.factor t + 1) / p.steps
    (t / width + 1) * width

section

variable {mag : Nat} (hl : p.lmag ≤ mag) (hle : p.factor ^ mag ≤ t)
  (hlt : t < p.factor ^ (mag + 1)) (hm : mag ≠ 0 ∨ p.steps ≤ p.factor)

include hl hle hlt hm

theorem nextMark_of_step :
    p.nextMark t = (p.step mag t + 1) * (p.factor ^ (mag + 1) / p.steps) := by
  have hlog : Nat.log p.factor t = mag := Nat.log_eq_of_pow_le_of_lt_pow hle hlt
  have hnot : ¬ (p.unitRange ∧ t < p.factor) := by
    rintro ⟨⟨-, hs⟩, htf⟩
    have : mag < 1 := (Nat.pow_lt_pow_iff_right p.factor_ge).mp
      (hle.trans_lt (htf.trans_eq (Nat.pow_one _).symm))
    omega
  rw [nextMark, if_neg hnot]
  dsimp only
  rw [hlog, div_range_eq_step hl hm]

/-- The next bin is the last one if its number is the largest one. -/
theorem step_last_iff (hh : mag ≤ p.hmag) :
    (mag - p.lmag) * p.perRange + (p.step mag t - p.stepsFactor) + 1 + 1 = p.ranged + 1 ↔
      p.nextMark t = p.factor ^ (p.hmag + 1) := by
  have hst := step_lt hlt
  have hsf := stepsFactor_le_step hle
  have hpr : p.perRange = p.steps - p.stepsFactor := rfl
  rw [nextMark_of_step hl hle hlt hm]
  obtain ⟨w, hw⟩ := steps_dvd_range hl hm
  have hpos : 0 < w := pos_of_ne_zero fun h0 => by
    rw [h0] at hw
    exact absurd hw (p.pow_pos _).ne'
  rw [hw, Nat.mul_div_cancel_left _ p.steps_pos]
  rcases Nat.eq_or_lt_of_le hh with rfl | hbelow
  · have hran : p.ranged = (p.hmag - p.lmag) * p.perRange + p.perRange := succ_mul ..
    rw [hw, Nat.mul_left_inj hpos.ne']
    omega
  · -- in a lower range neither the bin nor the number is the last one
    have hran : (mag - p.lmag + 1) * p.perRange < p.ranged :=
      Nat.mul_lt_mul_of_pos_right (by omega) p.perRange_pos
    rw [succ_mul] at hran
    have hnum := Nat.mul_le_mul_right w hst
    have hpow := Nat.pow_lt_pow_right p.factor_ge (show mag + 1 < p.hmag + 1 by omega)
    rw [hw] at hpow
    exact iff_of_false (by omega) (hnum.trans_lt hpow).ne

end

theorem unit_last_iff (hu : p.unitRange) (ht : 0 < t) (hlt : t < p.factor) :
    (t - 1) * p.stepsFactor + 1 + p.stepsFactor = p.ranged + 1 ↔
      t + 1 = p.factor ^ (p.hmag + 1) := by
  have hsf := stepsFactor_pos hu
  have hran : p.ranged = (p.hmag + 1) * ((p.factor - 1) * p.stepsFactor) := by
    rw [← perRange_of_unitRange hu, LlqArgs.ranged, hu.1, Nat.sub_zero]
  have hsum : (t - 1) * p.stepsFactor + 1 + p.stepsFactor = t * p.stepsFactor + 1 := by
    rw [Nat.sub_one_mul]
    have := Nat.le_mul_of_pos_left p.stepsFactor ht
    omega
  rw [hsum, Nat.add_right_cancel_iff, hran]
  by_cases h0 : p.hmag = 0
  · rw [h0, Nat.zero_add, Nat.one_mul, Nat.pow_one, Nat.mul_left_inj hsf.ne']
    omega
  · have h1 : t * p.stepsFactor ≤ (p.factor - 1) * p.stepsFactor :=
      Nat.mul_le_mul_right _ (by omega)
    have h2 : 0 < (p.factor - 1) * p.stepsFactor := mul_pos (by omega) hsf
    have h3 : 1 * ((p.factor - 1) * p.stepsFactor) <
        (p.hmag + 1) * ((p.factor - 1) * p.stepsFactor) :=
      Nat.mul_lt_mul_of_pos_right (by omega) h2
    have h4 := Nat.pow_lt_pow_right p.factor_ge (show 1 < p.hmag + 1 by omega)
    rw [Nat.pow_one] at h4
    exact iff_of_false (by omega) (by omega)

/-- **The numbers around a magnitude**: its bin has a number that is not above it, and the next
bin with a number has `nextMark`. That is the last bin if the number is the largest one. -/
theorem next_offset (hle : p.factor ^ p.lmag ≤ t) (hlt : t < p.factor ^ (p.hmag + 1)) :
    ∃ n d, p.Next (p.offset t) d n (p.nextMark t) ∧ n ≤ t ∧
      (p.offset t + d = p.ranged + 1 ↔ p.nextMark t = p.factor ^ (p.hmag + 1)) := by
  obtain ⟨mag, hl, hh, hle, hlt⟩ := exists_mag hle hlt
  have hsf := stepsFactor_le_step hle
  have hst := step_lt hlt
  have hoff := offset_bounds hl hh hle hlt
  have hend : (mag + 1 - p.lmag) * p.perRange ≤ p.ranged := mul_le_mul_right _ (by omega)
  have hpos : 0 < p.offset t := lt_of_le_of_lt (zero_le _) hoff.1
  have hran : p.offset t ≤ p.ranged := hoff.2.trans hend
  rw [offset_of_mag hl hh hle hlt] at hoff hpos hran ⊢
  by_cases hm : mag ≠ 0 ∨ p.steps ≤ p.factor
  · have hdvd := steps_dvd_range hl hm
    have hw : 0 < p.factor ^ (mag + 1) / p.steps :=
      div_pos (le_of_dvd (p.pow_pos _) hdvd) p.steps_pos
    have hstep := (div_range_eq_step (t := t) hl hm).symm
    have hnext := lastWrite_marks_step hl hh hm (show p.stepsFactor < p.step mag t + 1 by omega) hst
    have hmark := nextMark_of_step hl hle hlt hm
    have hlast := step_last_iff hl hle hlt hm hh
    obtain ⟨n, hn, hnt⟩ : ∃ n, lastWrite p.marks
        ((mag - p.lmag) * p.perRange + (p.step mag t - p.stepsFactor) + 1) = some n ∧ n ≤ t := by
      rcases Nat.eq_or_lt_of_le hsf with heq | hgt
      · refine ⟨_, ?_, hle⟩
        rw [← heq, Nat.sub_self]
        exact lastWrite_marks_start hl (by omega)
      · refine ⟨_, lastWrite_marks_step hl hh hm hgt hst.le, ?_⟩
        rw [hstep]
        exact div_mul_le_self ..
    refine ⟨n, 1, ⟨hpos, hran, by omega, by omega, by omega, hn, ?_, fun e h1 h2 => by omega⟩,
      hnt, hlast⟩
    rw [hmark]
    rwa [show p.step mag t + 1 - p.stepsFactor = (p.step mag t - p.stepsFactor) + 1 by omega]
      at hnext
  · -- Each number of the first range has its own label.
    obtain ⟨rfl, hs⟩ : mag = 0 ∧ p.factor < p.steps := by omega
    have hu : p.unitRange := ⟨by omega, hs⟩
    rw [pow_zero] at hle
    rw [Nat.pow_one] at hlt
    have hmark : p.nextMark t = t + 1 := if_pos ⟨hu, hlt⟩
    have hstep : p.step 0 t = t * p.stepsFactor := by
      rw [step, Nat.pow_one,
        Nat.mul_div_assoc _ (Nat.dvd_of_mod_eq_zero (p.dvd_steps hs))]
      rfl
    have hoffset : (0 - p.lmag) * p.perRange + (p.step 0 t - p.stepsFactor) + 1 =
        (t - 1) * p.stepsFactor + 1 := by
      rw [Nat.zero_sub, Nat.zero_mul, Nat.zero_add, hstep, Nat.sub_one_mul]
    rw [hoffset] at hpos hran ⊢
    have hnext := lastWrite_marks_unit hu (show 0 < t + 1 by omega) hlt
    have hmul : (t + 1 - 1) * p.stepsFactor = (t - 1) * p.stepsFactor + p.stepsFactor := by
      rw [← succ_mul, show t + 1 - 1 = t - 1 + 1 by omega]
    rw [hmul, add_right_comm] at hnext
    have hlast : (t - 1) * p.stepsFactor + p.stepsFactor ≤ p.perRange := by
      rw [← hmul, perRange_of_unitRange hu]
      exact mul_le_mul_right _ (by omega)
    refine ⟨t, p.stepsFactor, ⟨hpos, hran, stepsFactor_pos hu, ?_, ?_,
      lastWrite_marks_unit hu hle hlt.le, hmark ▸ hnext,
      fun e h1 h2 => lastWrite_marks_ghost hu hle hlt h1 h2⟩, le_rfl, hmark ▸ unit_last_iff hu hle hlt⟩
    · rw [pad, if_pos hu]
      exact Nat.le_max_right ..
    · have : p.perRange ≤ p.ranged := Nat.le_mul_of_pos_left _ (Nat.succ_pos _)
      omega

/-! ## Labels of the bins -/

/-- The bin at distance `o` of the middle, below or above it. -/
def place (p : LlqParams) (below : Bool) (o : Nat) : Nat :=
  if below then p.bin0 - o else p.bin0 + o

/-- The kind of label at distance `o` of the middle: that of the last bins is their own. -/
def kindAt (p : LlqParams) (below : Bool) (o : Nat) : LabelKind :=
  if o = p.ranged + 1 then if below then .le else .ge
  else if below then .neg else .num

theorem place_true (o : Nat) : p.place true o = p.bin0 - o := rfl

theorem place_false (o : Nat) : p.place false o = p.bin0 + o := rfl

theorem kindAt_of_le {below : Bool} (h : o ≤ p.ranged) :
    p.kindAt below o = if below then .neg else .num :=
  if_neg (by omega)

theorem kindAt_last : p.kindAt below (p.ranged + 1) = if below then .le else .ge :=
  if_pos rfl

/-- The labels at both sides of the middle, when only the bins of the ranges are written. -/
theorem lastWrite_sides (w : List (Nat × Nat)) (below : Bool)
    (h : below = true → 0 < o ∧ o < p.bin0) :
    lastWrite (w.flatMap (sides p.bin0)) (p.place below o) =
      (lastWrite w o).map (Label.print (if below then .neg else .num)) := by
  induction w with
  | nil => rfl
  | cons x w ih =>
    have hb : 0 < p.bin0 := by rw [bin0]; omega
    have hpair : lastWrite (sides p.bin0 x) (p.place below o) =
        (if o = x.1 then some x.2 else none).map (Label.print (if below then .neg else .num)) := by
      simp only [sides, lastWrite_cons]
      cases below with
      | true =>
        obtain ⟨_, _⟩ := h rfl
        rw [place_true, if_neg (by omega)]
        by_cases ho : o = x.1
        · rw [if_pos (by omega), if_pos ho]
          rfl
        · rw [if_neg (by omega), if_neg ho]
          rfl
      | false =>
        rw [place_false]
        by_cases ho : o = x.1
        · rw [if_pos (by omega), if_pos ho]
          rfl
        · rw [if_neg (by omega), if_neg ho, if_neg (by omega)]
          rfl
    rw [flatMap_cons, lastWrite_append, ih, hpair, lastWrite_cons, map_or]

theorem lastWrite_writes_place {first : Nat} (h1 : 0 < o) (h2 : o ≤ p.ranged + 1) :
    lastWrite (p.writes first) (p.place below o) =
      (lastWrite p.marks o).map (Label.print (p.kindAt below o)) := by
  have hb : p.bin0 = 1 + p.ranged := rfl
  have hn : p.nbins = p.ranged * 2 + 3 := rfl
  rw [writes, lastWrite_append]
  simp only [lastWrite_cons, lastWrite_nil, none_or]
  by_cases ho : o = p.ranged + 1
  · -- The label of the last range is written over.
    rw [ho, lastWrite_marks_last, kindAt_last]
    cases below with
    | true =>
      rw [place_true, if_neg (by omega), if_pos (by omega)]
      rfl
    | false =>
      rw [place_false, if_pos (by omega)]
      rfl
  · have hends : p.place below o ≠ p.bin0 ∧ p.place below o ≠ 0 ∧ p.place below o ≠ p.nbins - 1 := by
      cases below with
      | true =>
        rw [place_true]
        omega
      | false =>
        rw [place_false]
        omega
    rw [if_neg hends.1, if_neg hends.2.1, if_neg hends.2.2, or_none, none_or,
      or_none, lastWrite_sides _ _ (fun _ => by omega), kindAt_of_le (by omega)]

/-- The label in the middle, when a bin before it is printed. -/
theorem lastWrite_writes_bin0 {first : Nat} (h : first < p.bin0) :
    lastWrite (p.writes first) p.bin0 =
      some (if p.lmag = 0 then .print .num 0 else .print .abs (p.factor ^ p.lmag)) := by
  have hb : p.bin0 = 1 + p.ranged := rfl
  have hn : p.nbins = p.ranged * 2 + 3 := rfl
  have hsides := lastWrite_sides (p := p) p.marks false (o := 0) (by simp)
  rw [show lastWrite p.marks 0 = none from (lastWrite_cons_ne _ _ (by decide)).trans
    (lastWrite_marks_tail (Nat.zero_le _))] at hsides
  have hscale : p.factor ^ p.lmag = 1 ↔ p.lmag = 0 := by
    have := p.factor_ge
    rw [Nat.pow_eq_one]
    omega
  rw [writes, lastWrite_append]
  simp only [lastWrite_cons, lastWrite_nil]
  rw [if_neg (by omega), if_neg (by omega), if_neg (not_le.mpr h), if_pos trivial,
    show lastWrite (p.marks.flatMap (sides p.bin0)) p.bin0 = none from hsides]
  simp only [none_or, hscale]

end LlqParams

/-! ## Rows around a bin -/

section Nearest

variable {α β : Type}

/-- The first one that passes, where only elements before it do not. -/
theorem find?_filterMap_split {g : α → Option β} {P : β → Bool} {l1 l2 : List α} {x : α} {y : β}
    (hx : g x = some y) (hy : P y = true) (h : ∀ z ∈ l1, ∀ r, g z = some r → P r = false) :
    ((l1 ++ x :: l2).filterMap g).find? P = some y := by
  have hnone : (l1.filterMap g).find? P = none := by
    rw [find?_eq_none]
    intro r hr
    obtain ⟨z, hz, hzr⟩ := mem_filterMap.mp hr
    rw [h z hz r hzr]
    exact Bool.false_ne_true
  rw [filterMap_append, find?_append, hnone, filterMap_cons_some hx,
    find?_cons_of_pos hy]
  rfl

theorem range'_split {first n c : Nat} (h1 : first ≤ c) (h2 : c < first + n) :
    List.range' first n = List.range' first (c - first) ++
      c :: List.range' (c + 1) (first + n - (c + 1)) := by
  have h : List.range' first (c - first) ++ List.range' (first + 1 * (c - first)) (first + n - c) =
      List.range' first (c - first + (first + n - c)) := range'_append
  rw [Nat.one_mul, Nat.add_sub_cancel' h1, show c - first + (first + n - c) = n by omega] at h
  rw [← h, show first + n - c = (first + n - (c + 1)) + 1 by omega, range'_succ]

theorem findSome?_range' {f : Nat → Option β} {n k : Nat} {y : β} (h1 : 0 < k) (h2 : k ≤ n)
    (hk : f k = some y) (h : ∀ i, 0 < i → i < k → f i = none) :
    (List.range' 1 n).findSome? f = some y := by
  have hnone : (List.range' 1 (k - 1)).findSome? f = none := by
    rw [findSome?_eq_none_iff]
    intro i hi
    rw [mem_range'_1] at hi
    exact h i (by omega) (by omega)
  rw [range'_split h1 (by omega), findSome?_append, hnone,
    findSome?_cons_of_isSome (by rw [hk]; rfl), hk]
  rfl

end Nearest

namespace LlqArgs

variable (a : LlqArgs) {data : List Word} {b : Nat}

/-- The bins that are printed have one more on each side of a bin with data. -/
theorem window_spec (hlen : data.length = a.nbins) (hb : data.getD b 0 ≠ 0) :
    ∃ first last, a.window data = (first, last) ∧ first ≤ b - 1 ∧ b ≤ last ∧
      (b < a.nbins - 1 → b < last) := by
  have hlt : b < data.length := by
    by_contra h
    exact hb (getD_eq_default _ _ (Nat.le_of_not_lt h))
  have hne : data[b] ≠ 0 := by rwa [getD_eq_getElem _ _ hlt] at hb
  have hfirst : data.findIdx (· ≠ 0) ≤ b := by
    by_contra h
    have := not_of_lt_findIdx (Nat.lt_of_not_le h)
    exact hne (by simpa using this)
  have hlast : data.reverse.findIdx (· ≠ 0) ≤ data.length - 1 - b := by
    by_contra h
    have hidx := Nat.lt_of_not_le h
    have := not_of_lt_findIdx hidx
    exact hne (by simpa [show data.length - 1 - (data.length - 1 - b) = b by omega] using this)
  have hbins : a.dataBins data =
      (data.findIdx (· ≠ 0), data.length - 1 - data.reverse.findIdx (· ≠ 0)) :=
    if_pos (by omega)
  refine ⟨_, _, by rw [window, hbins], ?_⟩
  split <;> omega

variable {first last : Nat} {l : Label}

/-- A bin with a label keeps it. -/
theorem fixed_of_cells {c : Nat → Option Label} (h : c b = some l) :
    a.fixLast last (a.fixFirst first c) b = some l := by
  have hf : a.fixFirst first c b = some l := by
    rw [fixFirst, if_neg (by simp [h]), h]
  rw [fixLast, if_neg (by simp [hf]), hf]

/-- A bin between the first and the last one keeps what it has. -/
theorem fixed_of_between {c : Nat → Option Label} (h1 : b ≠ first) (h2 : b ≠ last) :
    a.fixLast last (a.fixFirst first c) b = c b := by
  rw [fixLast, if_neg (fun h => h2 h.1), fixFirst, if_neg (fun h => h1 h.1)]

/-- The row that is found is that of a bin `x`, when the bins before it that would do are between
the first and the last one and have no label. -/
theorem find?_rows (P : Nat → Bool) {l1 l2 : List Nat} {x : Nat}
    (hx : a.fixLast last (a.fixFirst first (a.cells first last)) x = some l) (hP : P x = true)
    (h : ∀ z ∈ l1, P z = true → z ≠ first ∧ z ≠ last ∧ a.cells first last z = none) :
    ((l1 ++ x :: l2).filterMap (a.row data first last)).find? (P ·.bin) =
      some { bin := x, label := l, count := data.getD x 0 } := by
  refine find?_filterMap_split (by rw [row, hx]; rfl) hP fun z hz r hr => ?_
  obtain ⟨_, hl', rfl⟩ := map_eq_some_iff.mp hr
  refine Bool.eq_false_iff.mpr fun hPz => ?_
  obtain ⟨h1, h2, hnone⟩ := h z hz hPz
  rw [a.fixed_of_between h1 h2, hnone] at hl'
  cases hl'

section

variable (hw : a.window data = (first, last))

include hw

/-- The row after a bin has the label of the next bin that has one, also when that is not
printed. -/
theorem next_label {d : Nat} (hfirst : first ≤ b)
    (hlast : b < last) (hd : 0 < d) (hpad : d ≤ max 1 a.pad)
    (hl : a.cells first last (b + d) = some l)
    (hnone : ∀ e, 0 < e → e < d → a.cells first last (b + e) = none) :
    ((a.rows data).find? (b < ·.bin)).map (·.label) = some l := by
  have hbetween : ∀ x, b < x → x < b + d → a.cells first last x = none := fun x h1 h2 => by
    have := hnone (x - b) (by omega) (by omega)
    rwa [Nat.add_sub_cancel' h1.le] at this
  -- The next row is that bin, or the last one with the label copied to it.
  obtain ⟨x, hbx, _, _, hx⟩ : ∃ x, b < x ∧ x ≤ last ∧ x ≤ b + d ∧
      a.fixLast last (a.fixFirst first (a.cells first last)) x = some l := by
    rcases lt_or_ge last (b + d) with hlt | hge
    · refine ⟨last, hlast, le_rfl, hlt.le, ?_⟩
      have hfix : ∀ i, a.fixFirst first (a.cells first last) (last + i) =
          a.cells first last (last + i) := fun i => by
        rw [fixFirst, if_neg (fun h => by omega)]
      rw [fixLast, if_pos ⟨rfl, (hfix 0).trans (hbetween last hlast hlt)⟩]
      refine findSome?_range' (k := b + d - last) (by omega) (by omega) ?_ fun i h1 h2 => ?_
      · rw [hfix, show last + (b + d - last) = b + d by omega, hl]
      · rw [hfix]
        exact hbetween _ (by omega) (by omega)
    · exact ⟨b + d, by omega, hge, le_rfl, a.fixed_of_cells hl⟩
  rw [rows, hw]
  dsimp only
  rw [range'_split (c := x) (by omega) (by omega),
    a.find?_rows (fun c => decide (b < c)) hx (decide_eq_true hbx)]
  · rfl
  · intro z hz hzb
    rw [mem_range'_1] at hz
    have hzb := of_decide_eq_true hzb
    exact ⟨by omega, by omega, hbetween z hzb (by omega)⟩

/-- The row before a bin has the label of the bin before it that has one, also when that is not
printed. -/
theorem prev_label {d : Nat} (hfirst : first < b)
    (hlast : b ≤ last) (hd : 0 < d) (hdb : d ≤ b) (hpad : d ≤ max 1 a.pad)
    (hl : a.cells first last (b - d) = some l)
    (hnone : ∀ e, 0 < e → e < d → a.cells first last (b - e) = none) :
    ((a.rows data).reverse.find? (·.bin < b)).map (·.label) = some l := by
  have hbetween : ∀ x, x < b → b - d < x → a.cells first last x = none := fun x h1 h2 => by
    have := hnone (b - x) (by omega) (by omega)
    rwa [show b - (b - x) = x by omega] at this
  obtain ⟨x, hxb, _, _, hx⟩ : ∃ x, x < b ∧ first ≤ x ∧ b - d ≤ x ∧
      a.fixLast last (a.fixFirst first (a.cells first last)) x = some l := by
    rcases lt_or_ge (b - d) first with hlt | hge
    · refine ⟨first, hfirst, le_rfl, hlt.le, ?_⟩
      rw [fixLast, if_neg (fun h => by omega), fixFirst, if_pos ⟨rfl, hbetween first hfirst hlt⟩]
      refine findSome?_range' (k := first - (b - d)) (by omega) (by omega) ?_ fun i h1 h2 => ?_
      · rw [if_pos (by omega), show first - (first - (b - d)) = b - d by omega, hl]
      · rw [if_pos (by omega)]
        exact hbetween _ (by omega) (by omega)
    · exact ⟨b - d, by omega, hge, le_rfl, a.fixed_of_cells hl⟩
  rw [rows, hw]
  rw [← filterMap_reverse, range'_split (by omega) (by omega), reverse_append,
    reverse_cons, append_assoc, singleton_append,
    a.find?_rows (fun c => decide (c < b)) hx (decide_eq_true hxb)]
  · rfl
  · intro z hz hzb
    rw [mem_reverse, mem_range'_1] at hz
    have hzb := of_decide_eq_true hzb
    exact ⟨by omega, by omega, hbetween z hzb (by omega)⟩

/-- How a bin with a label is read. -/
theorem labelled_of_cells {v : Int} (hfirst : first ≤ b)
    (hlast : b ≤ last) (hl : a.cells first last b = some l) :
    labelled (a.rows data) b v ↔
      l.Holds (((a.rows data).reverse.find? (·.bin < b)).map (·.label))
        (((a.rows data).find? (b < ·.bin)).map (·.label)) v := by
  have hfind : (a.rows data).find? (·.bin = b) =
      some { bin := b, label := l, count := data.getD b 0 } := by
    rw [rows, hw]
    dsimp only
    rw [range'_split (by omega) (by omega)]
    refine a.find?_rows (fun c => decide (c = b)) (a.fixed_of_cells hl) (decide_eq_true rfl) ?_
    intro z hz hzb
    rw [mem_range'_1] at hz
    have hzb := of_decide_eq_true hzb
    omega
  rw [labelled, hfind]
  simp only [mem_def, some.injEq, exists_eq_left']

end

end LlqArgs

namespace LlqParams

open LlqArgs

variable {p : LlqParams} {data : List Word} {v : Word}

theorem toNat_bin_place (v : Word) :
    (p.bin v).toNat = p.place (decide (v.toInt < 0)) (p.offset v.toInt.natAbs) := by
  rw [toNat_bin, place]
  by_cases h : v.toInt < 0
  · rw [if_neg (by omega), if_pos (decide_eq_true h)]
  · rw [if_pos (by omega), if_neg (by simpa using h)]

theorem cells_place {first last o : Nat} (below : Bool) (h1 : 0 < o) (h2 : o ≤ p.ranged + 1)
    (hf : first ≤ p.place below o + p.pad) (hl : p.place below o ≤ last + p.pad) :
    p.cells first last (p.place below o) =
      (lastWrite p.marks o).map (Label.print (p.kindAt below o)) := by
  rw [cells, if_pos ⟨hf, hl⟩, lastWrite_writes_place below h1 h2]

section Read

variable (hlen : data.length = p.nbins)
include hlen

/-- The row of a bin of the ranges, on either side of the middle. -/
theorem labelled_side {o d n n' t : Nat} (below : Bool) (h : p.Next o d n n')
    (hdata : data.getD (p.place below o) 0 ≠ 0) :
    labelled (p.rows data) (p.place below o) (if below then -t else t) ↔
      (Label.print (p.kindAt below o) n).number ≤ t ∧
        t < (Label.print (p.kindAt below (o + d)) n').number := by
  obtain ⟨hopos, horanged, hd, hpad, hoff, hn, hn', hghost⟩ := h
  obtain ⟨first, last, hw, hwf, hwl, hwn⟩ := p.window_spec hlen hdata
  have hb0 : p.bin0 = 1 + p.ranged := rfl
  have hnb : p.nbins = p.ranged * 2 + 3 := rfl
  have hcells : ∀ e ≤ d, p.cells first last (p.place below (o + e)) =
      (lastWrite p.marks (o + e)).map (Label.print (p.kindAt below (o + e))) := fun e he => by
    have hstep : p.place below o ≤ p.place below (o + e) + e ∧
        p.place below (o + e) ≤ p.place below o + e ∧ p.place below o ≤ p.bin0 + o := by
      cases below
      · rw [place_false, place_false]
        omega
      · rw [place_true, place_true]
        omega
    exact cells_place below (by omega) (by omega) (by omega) (by omega)
  have hcell := hcells 0 (zero_le d)
  have hout := hcells d le_rfl
  have hnone : ∀ e, 0 < e → e < d → p.cells first last (p.place below (o + e)) = none :=
    fun e h1 h2 => by rw [hcells e h2.le, hghost e h1 h2]; rfl
  rw [add_zero, hn] at hcell
  rw [hn'] at hout
  rw [p.labelled_of_cells hw (by omega) hwl hcell, kindAt_of_le horanged]
  cases below with
  | true =>
    have hsub : ∀ e, p.place true (o + e) = p.place true o - e := fun e => (Nat.sub_sub ..).symm
    have hpl := place_true (p := p) o
    simp only [hsub] at hout hnone
    rw [p.prev_label hw (by omega) hwl hd (by omega) hpad hout hnone]
    simp only [Label.Holds, Label.print, mem_def, some.injEq, forall_eq', if_true]
    omega
  | false =>
    have hadd : ∀ e, p.place false (o + e) = p.place false o + e :=
      fun e => (add_assoc ..).symm
    have hpl := place_false (p := p) o
    simp only [hadd] at hout hnone
    rw [p.next_label hw (by omega) (hwn (by omega)) hd hpad hout hnone]
    simp only [Label.Holds, Label.print, mem_def, some.injEq, forall_eq', Bool.false_eq_true,
      if_false]
    omega
/-- The rows of the last bins on both sides. -/
theorem labelled_last (hdata : data.getD (p.bin v).toNat 0 ≠ 0)
    (hge : p.factor ^ (p.hmag + 1) ≤ v.toInt.natAbs) :
    labelled (p.rows data) (p.bin v).toNat v.toInt ↔
      (Label.print (p.kindAt (decide (v.toInt < 0)) (p.ranged + 1))
        (p.factor ^ (p.hmag + 1))).number ≤ v.toInt.natAbs := by
  obtain ⟨first, last, hw, hwf, hwl, -⟩ := p.window_spec hlen hdata
  rw [toNat_bin_place, offset_of_ge hge] at hwf hwl ⊢
  have hcell := cells_place (p := p) (o := p.ranged + 1) (decide (v.toInt < 0)) (by omega) (by omega)
    (show first ≤ _ by omega) (show _ ≤ last + _ by omega)
  rw [lastWrite_marks_last] at hcell
  rw [p.labelled_of_cells hw (by omega) hwl hcell, kindAt_last]
  by_cases hv : v.toInt < 0
  · rw [decide_eq_true hv]
    simp only [Label.Holds, Label.print, if_true]
    omega
  · rw [decide_eq_false hv]
    simp only [Label.Holds, Label.print, Bool.false_eq_true, if_false]
    omega

/-- The row in the middle. -/
theorem labelled_middle (hdata : data.getD (p.bin v).toNat 0 ≠ 0)
    (hlt : v.toInt.natAbs < p.factor ^ p.lmag) :
    labelled (p.rows data) (p.bin v).toNat v.toInt ↔
      p.lmag = 0 ∨ v.toInt.natAbs < (Label.print .abs (p.factor ^ p.lmag)).number := by
  have hbin : (p.bin v).toNat = p.bin0 := by
    rw [toNat_bin, offset_of_lt hlt, Nat.add_zero, Nat.sub_zero, ite_self]
  rw [hbin] at hdata ⊢
  obtain ⟨first, last, hw, _, hwl, hwn⟩ := p.window_spec hlen hdata
  have hb0 : p.bin0 = 1 + p.ranged := rfl
  have hnb : p.nbins = p.ranged * 2 + 3 := rfl
  have hcell : p.cells first last p.bin0 =
      some (if p.lmag = 0 then .print .num 0 else .print .abs (p.factor ^ p.lmag)) := by
    rw [cells, if_pos (by omega), lastWrite_writes_bin0 (by omega)]
  have hran : 0 < p.ranged := mul_pos (succ_pos _) p.perRange_pos
  rw [p.labelled_of_cells hw (by omega) hwl hcell]
  by_cases h0 : p.lmag = 0
  · -- The middle is the bin of 0 alone, and the next label is 1.
    have hv : v.toInt = 0 := by
      rw [h0, pow_zero] at hlt
      omega
    have hnext : ((p.rows data).find? (p.bin0 < ·.bin)).map (·.label) =
        some (Label.print .num 1) := by
      refine p.next_label hw (by omega) (hwn (by omega)) one_pos (by omega) ?_
        fun e h1 h2 => by omega
      rw [show p.bin0 + 1 = p.place false 1 from rfl, cells_place false Nat.one_pos (by omega)
        (by rw [place_false]; omega) (by rw [place_false]; omega),
        lastWrite_marks_one, kindAt_of_le hran, h0]
      rfl
    rw [hnext, if_pos h0, hv]
    simp only [h0, true_or, iff_true]
    exact ⟨by decide, fun l hl => by cases hl; decide⟩
  · rw [if_neg h0]
    simp only [h0, false_or]
    exact Int.ofNat_lt

end Read

/-! ## Which values are printed right

A value is in the row of its bin. The number in that row is never too large, even when it is cut;
what can be wrong is the number that bounds the row on the outside, or the one in the middle. -/

/-- The label on the outside of the row of `v`, or the label in the middle, has a number that is
still above `v` after it has been cut to the cell. -/
def LabelFits (p : LlqParams) (v : Word) : Prop :=
  let t := v.toInt.natAbs
  let top := p.factor ^ (p.hmag + 1)
  let kind : LabelKind :=
    if p.nextMark t = top then if v.toInt < 0 then .le else .ge
    else if v.toInt < 0 then .neg else .num
  if t < p.factor ^ p.lmag then p.lmag = 0 ∨ t < cut LabelKind.abs.room (p.factor ^ p.lmag)
  else t < top → t < cut kind.room (p.nextMark t)

instance (p : LlqParams) (v : Word) : Decidable (p.LabelFits v) := by
  unfold LabelFits
  infer_instance

theorem dtPrintLlquantize_sig (hlen : data.length = p.nbins) :
    dtPrintLlquantize data p.sig = some (p.rows data) := by
  have hpos : p.nbins ≠ 0 := succ_ne_zero _
  rw [dtPrintLlquantize, ofSig_sig]
  exact if_neg (by omega)

/-- The row of the bin of `v` stands for `v` exactly if the label fits. -/
theorem labelled_bin_iff (hlen : data.length = p.nbins)
    (hdata : data.getD (p.bin v).toNat 0 ≠ 0) :
    labelled (p.rows data) (p.bin v).toNat v.toInt ↔ p.LabelFits v := by
  unfold LabelFits
  dsimp only
  rcases lt_or_ge v.toInt.natAbs (p.factor ^ p.lmag) with hlow | hlow
  · rw [if_pos hlow, labelled_middle hlen hdata hlow, number_print]
  rw [if_neg (Nat.not_lt.mpr hlow)]
  rcases lt_or_ge v.toInt.natAbs (p.factor ^ (p.hmag + 1)) with hup | hup
  · obtain ⟨n, d, hnext, hn, hlast⟩ := next_offset hlow hup
    rw [toNat_bin_place] at hdata ⊢
    have hside := labelled_side (t := v.toInt.natAbs) hlen _ hnext hdata
    have hint : (if decide (v.toInt < 0) then -(v.toInt.natAbs : Int) else v.toInt.natAbs) =
        v.toInt := by
      simp only [decide_eq_true_eq]
      split <;> omega
    rw [hint, number_print, number_print] at hside
    -- the row's own number is not above the value, cut or not
    rw [hside, and_iff_right ((cut_le _ _).trans hn), kindAt]
    simp only [hlast, decide_eq_true_eq, hup, true_imp_iff]
  · refine iff_of_true ?_ fun h => absurd hup (Nat.not_le.mpr h)
    rw [labelled_last hlen hdata hup, number_print]
    exact (cut_le _ _).trans hup

/-- **Log-linear quantization, end to end.** Every value is counted in a bin of the array, the bins
are in the order of the values and mirrored under negation; and the row of a value that is counted
stands for it exactly when its label fits the cell. -/
theorem llquantize_printed_iff (p : LlqParams) :
    (∀ v ireg dst, (p.bin v).toNat < p.nbins ∧
        dtCgAggQuantizeImpl (p.nbins - 1) (p.bin v) ireg dst = xadd (p.bin v).toNat ireg dst) ∧
      (∀ v w : Word, v.toInt ≤ w.toInt → (p.bin v).toNat ≤ (p.bin w).toNat) ∧
      (∀ v : Word, v ≠ BitVec.intMin 64 → (p.bin (-v)).toNat + (p.bin v).toNat = 2 * p.bin0) ∧
      ∀ (data : List Word) (v : Word), data.length = p.nbins → data.getD (p.bin v).toNat 0 ≠ 0 →
        ((∃ rows, dtPrintLlquantize data p.sig = some rows ∧
          labelled rows (p.bin v).toNat v.toInt) ↔ p.LabelFits v) := by
  refine ⟨fun v ireg dst => ⟨toNat_bin_lt v, quantizeImpl_bin v ireg dst⟩,
    fun v w h => bin_mono h, fun v h => bin_neg h, fun data v hlen hdata => ?_⟩
  rw [← labelled_bin_iff hlen hdata, dtPrintLlquantize_sig hlen]
  simp only [some.injEq, exists_eq_left']

/-- One count, for one value. -/
def single (p : LlqParams) (v : Word) : List Word :=
  dtCgAggQuantizeImpl (p.nbins - 1) (p.bin v) 1 (List.replicate p.nbins 0)

/-- `llquantize(v, 10, 0, 6, 20)` -/
def millions : LlqParams where
  factor := 10
  lmag := 0
  hmag := 6
  steps := 20
  factor_ge := by decide
  factor_lt := by decide
  lmag_le := by decide
  pow_lt := by decide
  steps_pos := by decide
  steps_lt := by decide
  steps_dvd := by decide
  dvd_steps := by decide
  steps_dvd_pow := by decide

theorem millions_printed :
    (millions.bin (-5)).toNat + (millions.bin 5).toNat = 2 * millions.bin0 ∧
      ∃ rows, dtPrintLlquantize (millions.single (-4999999)) millions.sig = some rows ∧
        labelled rows (millions.bin (-4999999)).toNat (-4999999) :=
  ⟨(llquantize_printed_iff millions).2.2.1 5 (by decide),
    ((llquantize_printed_iff millions).2.2.2 (millions.single (-4999999)) (-4999999)
      (by decide +kernel) (by decide +kernel)).mpr (by decide +kernel)⟩

/-- `llquantize(v, 10, 8, 8, 1)` -/
def hundredMillion : LlqParams where
  factor := 10
  lmag := 8
  hmag := 8
  steps := 1
  factor_ge := by decide
  factor_lt := by decide
  lmag_le := by decide
  pow_lt := by decide
  steps_pos := by decide
  steps_lt := by decide
  steps_dvd := by decide
  dvd_steps := by decide
  steps_dvd_pow := by decide

/-- The label of the middle is cut to "abs() < 1000000", which fifty millions are not. -/
theorem middle_label_cut :
    dtCgAggLlquantize 0 (.int 10 true) (.int 8 true) (.int 8 true) (.int 1 true) =
        .ok hundredMillion ∧
      ∃ rows, dtPrintLlquantize (hundredMillion.single 50000000) hundredMillion.sig = some rows ∧
        ¬labelled rows (hundredMillion.bin 50000000).toNat 50000000 :=
  ⟨rfl, hundredMillion.rows (hundredMillion.single 50000000), by decide +kernel, by decide +kernel⟩

end LlqParams

end DTrace.Agg
