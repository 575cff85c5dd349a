import DTrace.Uprobes.Name
import Mathlib.Data.Nat.Digits.Lemmas

/-!
# Underlying probes — `create_underlying`

Probes of processes share the uprobes they stand on. One is found again by its name: the device and
inode, the function, and the offset, for which a return probe has the word `return`.

* **`Spec.Finds`** — what a specification finds, said of the specification that made the probe: the
  numbers can be read off the name (`modName_injective`), but not the offset of a return probe.
* **`provide_eq`** — so the probes are those of the specifications that found nothing.
* **`createUnderlying_matches_iff`** — a return probe is right exactly if the specification whose
  probe it gets has the same offset.
-/

namespace DTrace.Uprobes

open List

/-- `pps_type` -/
inductive ProbeType
  | none | entry | return_ | offsets | isEnabled
  deriving DecidableEq

/-- `pid_probespec_t` -/
structure Spec where
  type : ProbeType
  dev : Nat
  inum : Nat
  fn : List Byte
  off : Nat

/-- An underlying probe, with its `dt_uprobe_t`. Of the flags it has `PP_IS_RETURN`. -/
structure Under where
  enabledPrv : Bool
  mod : List Byte
  fn : List Byte
  prb : List Byte
  dev : Nat
  inum : Nat
  off : Nat
  isReturn : Bool
  deriving DecidableEq

/-- `%lx` -/
def hex (n : Nat) : List Byte :=
  if n = 0 then [48] else ((Nat.digits 16 n).map (hexdigits.getD · 0)).reverse

/-- `%lx_%lx` -/
def modName (dev inum : Nat) : List Byte := hex dev ++ 95 :: hex inum

/-- `return` -/
def returnName : List Byte := [114, 101, 116, 117, 114, 110]

def Spec.prb (psp : Spec) : List Byte := if psp.type = .return_ then returnName else hex psp.off

/-- A probe before the flag of its type is set. -/
def Spec.fresh (psp : Spec) : Under where
  enabledPrv := psp.type = .isEnabled
  mod := modName psp.dev psp.inum
  fn := psp.fn
  prb := psp.prb
  dev := psp.dev
  inum := psp.inum
  off := psp.off
  isReturn := false

def Under.mark (u : Under) (type : ProbeType) : Under :=
  { u with isReturn := u.isReturn || type = .return_ }

def strisglob (s : List Byte) : Bool := s.any [91, 63, 42, 92].contains

variable (gmatch : List Byte → List Byte → Bool)

/-- Only the function can be a pattern; an empty one stands for all. -/
def Spec.findsFn (psp : Spec) (fn : List Byte) : Bool :=
  if psp.fn = [] then true else if strisglob psp.fn then gmatch fn psp.fn else fn = psp.fn

/-- What `dt_probe_lookup` looks for. -/
def Spec.finds (psp : Spec) (u : Under) : Bool :=
  u.enabledPrv = (psp.type = .isEnabled) && u.mod = modName psp.dev psp.inum && u.prb = psp.prb &&
    psp.findsFn gmatch u.fn

/-- The first probe that is found gets the flag. -/
def markFirst (psp : Spec) : List Under → List Under
  | [] => []
  | u :: us => if psp.finds gmatch u then u.mark psp.type :: us else u :: markFirst psp us

/-- The newest probe comes first, as in the lists of `dt_htab`. -/
def createUnderlying (us : List Under) (psp : Spec) : Option (List Under × Under) :=
  if psp.type = .none then none
  else match us.find? (psp.finds gmatch) with
  | none => some (psp.fresh.mark psp.type :: us, psp.fresh.mark psp.type)
  | some u => some (markFirst gmatch psp us, u.mark psp.type)

/-- The probes after a sequence of specifications. -/
def provide (psps : List Spec) : List Under :=
  psps.foldl (fun us psp => ((createUnderlying gmatch us psp).map Prod.fst).getD us) []

/-! ## Names -/

theorem hexval_hexdigits {d : Nat} (h : d < 16) : hexval (hexdigits.getD d 0) = d := by
  have hall : ∀ d : Fin 16, hexval (hexdigits.getD d 0) = d := by decide
  exact hall ⟨d, h⟩

theorem hex_injective {m n : Nat} (h : hex m = hex n) : m = n := by
  have hval (n) : Nat.ofDigits 16 ((hex n).reverse.map hexval) = n := by
    unfold hex
    split
    · next h0 => rw [h0]; rfl
    · have hmap : (Nat.digits 16 n).map (hexval ∘ (hexdigits.getD · 0)) = Nat.digits 16 n :=
        (map_congr_left fun d hd => hexval_hexdigits (Nat.digits_lt_base (by decide) hd)).trans
          (map_id _)
      rw [reverse_reverse, map_map, hmap, Nat.ofDigits_digits]
  rw [← hval m, h, hval]

theorem mem_hexdigits_of_mem_hex {n : Nat} {c : Byte} (h : c ∈ hex n) : c ∈ hexdigits := by
  have hall : ∀ d : Fin 16, hexdigits.getD d 0 ∈ hexdigits := by decide
  unfold hex at h
  split at h
  · rw [mem_singleton.mp h]
    decide
  · obtain ⟨d, hd, rfl⟩ := mem_map.mp (mem_reverse.mp h)
    exact hall ⟨d, Nat.digits_lt_base (by decide) hd⟩

theorem modName_injective {dev inum dev' inum' : Nat} (h : modName dev inum = modName dev' inum') :
    dev = dev' ∧ inum = inum' := by
  have hnot (n) : 95 ∉ hex n := fun hmem =>
    absurd (mem_hexdigits_of_mem_hex hmem) (by decide)
  obtain ⟨hdev, -, hinum⟩ := (append_cons_inj_of_notMem (hnot _) (hnot _)).mp h
  exact ⟨hex_injective hdev, hex_injective hinum⟩

theorem hex_ne_returnName (n : Nat) : hex n ≠ returnName := fun h =>
  absurd (mem_hexdigits_of_mem_hex (h ▸ mem_cons_self : 114 ∈ hex n)) (by decide)

/-! ## Who made the probes

Each underlying probe is the one that some specification would make, so what is found can be told
from the list of specifications. -/

/-- The function is given by its name. -/
def Spec.plain (psp : Spec) : Bool := psp.fn ≠ [] && !strisglob psp.fn

/-- `psp` finds the probe that `q` has made. -/
def Spec.Finds (psp q : Spec) : Bool :=
  decide (q.type = .isEnabled) = decide (psp.type = .isEnabled) && q.dev = psp.dev &&
    q.inum = psp.inum &&
    (if psp.type = .return_ then decide (q.type = .return_)
      else q.type ≠ .return_ && q.off = psp.off) && psp.findsFn gmatch q.fn

/-- The specifications that make a probe of their own, the last one first. -/
def makers (psps : List Spec) : List Spec :=
  psps.foldl (fun qs psp => if psp.type = .none ∨ qs.any (psp.Finds gmatch) then qs else psp :: qs) []

/-- The probe that a specification makes. -/
def Spec.made (q : Spec) : Under := q.fresh.mark q.type

variable {gmatch} {psp q : Spec}

/-- The name of a probe says who finds it. -/
theorem finds_made (psp q : Spec) : psp.finds gmatch q.made = psp.Finds gmatch q := by
  have hmod : modName q.dev q.inum = modName psp.dev psp.inum ↔ q.dev = psp.dev ∧ q.inum = psp.inum :=
    ⟨modName_injective, fun h => by rw [h.1, h.2]⟩
  have hprb : q.prb = psp.prb ↔ if psp.type = .return_ then q.type = .return_
      else q.type ≠ .return_ ∧ q.off = psp.off := by
    unfold Spec.prb
    by_cases hp : psp.type = .return_ <;> by_cases hq : q.type = .return_
    · simp [hp, hq]
    · simp [hp, hq, hex_ne_returnName]
    · simp [hp, hq, (hex_ne_returnName _).symm]
    · simpa [hp, hq] using ⟨hex_injective, fun h => by rw [h]⟩
  rw [Bool.eq_iff_iff]
  simp only [Spec.finds, Spec.Finds, Spec.made, Spec.fresh, Under.mark, Bool.and_eq_true,
    decide_eq_true_eq, hmod, hprb, and_assoc]
  split <;> simp

/-- A probe that is found has the flag already. -/
theorem mark_made (h : psp.Finds gmatch q) : q.made.mark psp.type = q.made := by
  have hret : psp.type = .return_ → q.type = .return_ := by
    intro hp
    simp only [Spec.Finds, hp, if_true, Bool.and_eq_true, decide_eq_true_eq] at h
    exact h.1.2
  unfold Spec.made Under.mark Spec.fresh
  by_cases hp : psp.type = .return_
  · simp [hp, hret hp]
  · simp [hp]

theorem markFirst_made (qs : List Spec) :
    markFirst gmatch psp (qs.map Spec.made) = qs.map Spec.made := by
  induction qs with
  | nil => rfl
  | cons q qs ih =>
    rw [map_cons, markFirst, finds_made]
    split
    · next h => rw [mark_made h]
    · rw [ih]

/-- One specification more: the makers answer for the probes. -/
theorem createUnderlying_made (htype : psp.type ≠ .none) (qs : List Spec) :
    createUnderlying gmatch (qs.map Spec.made) psp =
      some ((if qs.any (psp.Finds gmatch) then qs else psp :: qs).map Spec.made,
        ((qs.find? (psp.Finds gmatch)).getD psp).made) := by
  have hfind : (qs.map Spec.made).find? (psp.finds gmatch) =
      (qs.find? (psp.Finds gmatch)).map Spec.made := by
    rw [find?_map]
    exact congrArg (fun p => (qs.find? p).map Spec.made) (funext fun q => finds_made psp q)
  rw [createUnderlying, if_neg htype, hfind]
  cases hq : qs.find? (psp.Finds gmatch) with
  | none =>
    have hno : ¬ qs.any (psp.Finds gmatch) = true := by simpa using find?_eq_none.mp hq
    rw [if_neg hno]
    rfl
  | some q =>
    have hany : qs.any (psp.Finds gmatch) = true :=
      any_eq_true.mpr ⟨q, mem_of_find?_eq_some hq, find?_some hq⟩
    rw [if_pos hany]
    dsimp only [Option.map_some]
    rw [markFirst_made, mark_made (find?_some hq)]
    rfl

theorem provide_eq (psps : List Spec) :
    provide gmatch psps = (makers gmatch psps).map Spec.made := by
  have hrun : ∀ qs : List Spec, psps.foldl
      (fun us psp => ((createUnderlying gmatch us psp).map Prod.fst).getD us) (qs.map Spec.made) =
      (psps.foldl (fun qs psp =>
        if psp.type = .none ∨ qs.any (psp.Finds gmatch) then qs else psp :: qs) qs).map
          Spec.made := by
    induction psps with
    | nil => exact fun _ => rfl
    | cons psp psps ih =>
      intro qs
      rw [foldl_cons, foldl_cons, ← ih]
      by_cases htype : psp.type = .none
      · rw [createUnderlying, if_pos htype, if_pos (.inl htype)]
        rfl
      · rw [createUnderlying_made htype, Option.map_some, Option.getD_some]
        simp only [htype, false_or]
  exact hrun []

/-! ## Plain function names

With a plain name the first specification that is found is also the one that made the probe.
Patterns are matched against the probes that are there, the newest first. -/

theorem makers_concat (psps : List Spec) (q : Spec) : makers gmatch (psps ++ [q]) =
    if q.type = .none ∨ (makers gmatch psps).any (q.Finds gmatch) then makers gmatch psps
    else q :: makers gmatch psps := by
  rw [makers, foldl_append]
  rfl

/-- What a return specification finds. -/
theorem finds_return_iff (hp : psp.type = .return_) : psp.Finds gmatch q ↔
    q.type = .return_ ∧ q.dev = psp.dev ∧ q.inum = psp.inum ∧ psp.findsFn gmatch q.fn := by
  simp only [Spec.Finds, hp, if_true, Bool.and_eq_true, decide_eq_true_eq]
  constructor
  · rintro ⟨⟨⟨⟨-, hdev⟩, hinum⟩, hret⟩, hfn⟩
    exact ⟨hret, hdev, hinum, hfn⟩
  · rintro ⟨hret, hdev, hinum, hfn⟩
    simp [hret, hdev, hinum, hfn]

/-- Among the return specifications with one plain name, the first makes the probe. -/
theorem find?_makers_of_plain (hp : psp.type = .return_) (hplain : psp.plain) (psps : List Spec) :
    (makers gmatch psps).find? (psp.Finds gmatch) = psps.find? (psp.Finds gmatch) := by
  have hfn (fn) : psp.findsFn gmatch fn ↔ fn = psp.fn := by
    simp only [Spec.plain, Bool.and_eq_true, decide_eq_true_eq, Bool.not_eq_true'] at hplain
    simp [Spec.findsFn, hplain.1, hplain.2]
  induction psps using reverseRecOn with
  | nil => rfl
  | append_singleton psps q ih =>
    rw [makers_concat, find?_append, ← ih, find?_singleton]
    by_cases hq : psp.Finds gmatch q = true
    · -- it looks for the same as `psp`
      obtain ⟨hret, hdev, hinum, hname⟩ := (finds_return_iff hp).mp hq
      have hsame : q.Finds gmatch = psp.Finds gmatch := by
        funext r
        rw [Bool.eq_iff_iff, finds_return_iff hret, finds_return_iff hp, hdev, hinum,
          Spec.findsFn, Spec.findsFn, (hfn _).mp hname]
      rw [hsame, if_pos hq]
      cases hfind : (makers gmatch psps).find? (psp.Finds gmatch) with
      | none =>
        have hno : ¬ (q.type = .none ∨ (makers gmatch psps).any (psp.Finds gmatch) = true) := by
          simpa [hret] using find?_eq_none.mp hfind
        rw [if_neg hno, find?_cons_of_pos hq]
        rfl
      | some r =>
        have hany : (makers gmatch psps).any (psp.Finds gmatch) = true :=
          any_eq_true.mpr ⟨r, mem_of_find?_eq_some hfind, find?_some hfind⟩
        rw [if_pos (.inr hany), hfind]
        rfl
    · rw [if_neg hq, Option.or_none]
      split
      · rfl
      · rw [find?_cons_of_neg hq]

/-- A return probe is not made by a specification with another offset: for a plain name that is the
first specification that is found, and else the last one that has made a probe. -/
def OwnOffset (gmatch : List Byte → List Byte → Bool) (psps : List Spec) (psp : Spec) : Prop :=
  ∀ q, (if psp.plain then psps else makers gmatch psps).find? (psp.Finds gmatch) = some q →
    q.off = psp.off

/-- **An underlying probe** matches its specification, after any other specifications, exactly if it
is not a return probe that another one has made at another offset. -/
theorem createUnderlying_matches_iff (psps : List Spec) :
    (createUnderlying gmatch (provide gmatch psps) psp).elim True fun r =>
      (r.2.dev = psp.dev ∧ r.2.inum = psp.inum ∧ r.2.off = psp.off ∧
        (r.2.isReturn = true ↔ psp.type = .return_) ↔
      (psp.type = .return_ → OwnOffset gmatch psps psp)) := by
  by_cases htype : psp.type = .none
  · rw [createUnderlying, if_pos htype]
    trivial
  rw [provide_eq, createUnderlying_made htype, Option.elim_some]
  have hmade (q : Spec) : q.made.dev = q.dev ∧ q.made.inum = q.inum ∧ q.made.off = q.off ∧
      (q.made.isReturn = true ↔ q.type = .return_) := by
    simp [Spec.made, Spec.fresh, Under.mark]
  generalize hr : ((makers gmatch psps).find? (psp.Finds gmatch)).getD psp = r
  obtain ⟨hdev, hinum, hoff, hret⟩ := hmade r
  rw [hdev, hinum, hoff, hret]
  by_cases hp : psp.type = .return_
  · have hown : OwnOffset gmatch psps psp ↔
        ∀ q, (makers gmatch psps).find? (psp.Finds gmatch) = some q → q.off = psp.off := by
      unfold OwnOffset
      split
      · next hplain => rw [find?_makers_of_plain hp hplain]
      · rfl
    rw [hown]
    cases hq : (makers gmatch psps).find? (psp.Finds gmatch) with
    | none => simp [← hr, hq]
    | some q =>
      obtain ⟨hret, hdev, hinum, -⟩ := (finds_return_iff hp).mp (find?_some hq)
      simp [← hr, hq, hret, hdev, hinum, hp]
  · refine iff_of_true ?_ fun h => absurd h hp
    cases hq : (makers gmatch psps).find? (psp.Finds gmatch) with
    | none => simp [← hr, hq]
    | some q =>
      have hfinds := find?_some hq
      simp only [Spec.Finds, hp, if_false, Bool.and_eq_true, decide_eq_true_eq] at hfinds
      obtain ⟨⟨⟨⟨-, hdev⟩, hinum⟩, hret, hoff⟩, -⟩ := hfinds
      simp [← hr, hq, hdev, hinum, hoff, hret, hp]

/-- The return probes of two functions `f` of one file, at 16 and 32: the second gets the first's
uprobe. -/
theorem second_return_shares_first :
    let psp : Spec := ⟨.return_, 1, 2, [102], 32⟩
    (createUnderlying (fun _ _ => false) (provide (fun _ _ => false)
      [⟨.return_, 1, 2, [102], 16⟩]) psp).map (fun r => r.2.off) = some 16 := by
  decide +kernel

end DTrace.Uprobes
