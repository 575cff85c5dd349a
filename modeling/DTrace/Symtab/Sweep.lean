import DTrace.Symtab.Table

/-!
# Forming ranges

The outer loop sweeps over the addresses from low to high. `Swept` is its invariant: below `hi`
everything is settled, that is, the ranges so far do not overlap, every address of a symbol is
in one of them, and each belongs to the symbol that is `Best` at all its addresses. The inner
loop finds the next address at which another symbol may become best (`candidates_spec`).

`dtSymtabFormRanges_spec` is the result for a list of symbols in the order of their addresses.
-/

namespace DTrace.Symtab

open List

namespace Symbol

def Covers (sym : Symbol) (a : Nat) : Prop := sym.addr ≤ a ∧ a < sym.addr + sym.size

instance (sym : Symbol) (a : Nat) : Decidable (sym.Covers a) := by unfold Covers; infer_instance

/-- The addresses do not wrap. -/
def Fits (sym : Symbol) : Prop := sym.addr + sym.size < 2 ^ 64

theorem Fits.top {sym : Symbol} (h : sym.Fits) : sym.top = sym.addr + sym.size :=
  Nat.mod_eq_of_lt h

/-- `sym` is passed over for `w`: it starts lower, or at the same address and is longer. -/
def Under (sym w : Symbol) : Prop := sym.addr < w.addr ∨ sym.addr = w.addr ∧ w.size < sym.size

/-- `w` is not passed over for `sym`. -/
def Upto (sym w : Symbol) : Prop := sym.addr < w.addr ∨ sym.addr = w.addr ∧ w.size ≤ sym.size

theorem Under.upto {sym w : Symbol} (h : sym.Under w) : sym.Upto w :=
  h.imp_right fun h => ⟨h.1, Nat.le_of_lt h.2⟩

theorem Upto.trans_under {s w w' : Symbol} (h : s.Upto w) (h' : w.Under w') : s.Under w' := by
  unfold Upto at h
  unfold Under at h' ⊢
  omega

end Symbol

variable {σ : Type*} {deref : σ → Symbol}

/-! ## The best symbol at an address -/

/-- Of the symbols in the list that cover `a`, the one that starts highest, then the smallest,
then the first. -/
def Best (deref : σ → Symbol) (syms : List σ) (a : Nat) (w : σ) : Prop :=
  ∃ pre post, syms = pre ++ w :: post ∧ (deref w).Covers a ∧
    (∀ s ∈ pre, (deref s).Covers a → (deref s).Under (deref w)) ∧
    ∀ s ∈ post, (deref s).Covers a → (deref s).Upto (deref w)

namespace Best

variable {syms : List σ} {a a' : Nat} {w s : σ}

theorem mem (h : Best deref syms a w) : w ∈ syms := by
  obtain ⟨-, -, rfl, _⟩ := h
  simp

theorem covers (h : Best deref syms a w) : (deref w).Covers a := by
  obtain ⟨_, _, _, hc, _⟩ := h
  exact hc

theorem upto (h : Best deref syms a w) (hs : s ∈ syms) (hc : (deref s).Covers a) :
    (deref s).Upto (deref w) := by
  obtain ⟨_, _, rfl, _, hpre, hpost⟩ := h
  rcases mem_append.mp hs with hs | hs
  · exact (hpre s hs hc).upto
  · rcases mem_cons.mp hs with rfl | hs
    · exact .inr ⟨rfl, le_rfl⟩
    · exact hpost s hs hc

theorem singleton (h : (deref w).Covers a) : Best deref [w] a w :=
  ⟨[], [], rfl, h, by simp, by simp⟩

section

variable (h : Best deref syms a w)

include h

/-- Later symbols that are no better change nothing. -/
theorem append {more : List σ}
    (hmore : ∀ s ∈ more, (deref s).Covers a → (deref s).Upto (deref w)) :
    Best deref (syms ++ more) a w := by
  obtain ⟨pre, post, rfl, hc, hpre, hpost⟩ := h
  refine ⟨pre, post ++ more, by simp, hc, hpre, fun s hs hcs => ?_⟩
  rcases mem_append.mp hs with hs | hs
  · exact hpost s hs hcs
  · exact hmore s hs hcs

/-- A better symbol takes over. -/
theorem snoc (hc : (deref s).Covers a)
    (hlt : (deref w).Under (deref s)) : Best deref (syms ++ [s]) a s :=
  ⟨syms, [], rfl, hc, fun _ hs' hc' => (h.upto hs' hc').trans_under hlt, by simp⟩

/-- Symbols in front that do not cover the address change nothing. -/
theorem prepend {front : List σ}
    (hfront : ∀ s ∈ front, ¬(deref s).Covers a) : Best deref (front ++ syms) a w := by
  obtain ⟨pre, post, rfl, hc, hpre, hpost⟩ := h
  refine ⟨front ++ pre, post, by simp, hc, fun s hs hcs => ?_, hpost⟩
  rcases mem_append.mp hs with hs | hs
  · exact absurd hcs (hfront s hs)
  · exact hpre s hs hcs

/-- Where the same symbols cover, the same one is best. -/
theorem congr
    (hsame : ∀ s ∈ syms, (deref s).Covers a' ↔ (deref s).Covers a) : Best deref syms a' w := by
  obtain ⟨pre, post, rfl, hc, hpre, hpost⟩ := h
  refine ⟨pre, post, rfl, (hsame w (by simp)).mpr hc, fun s hs hcs => ?_, fun s hs hcs => ?_⟩
  · exact hpre s hs ((hsame s (by simp [hs])).mp hcs)
  · exact hpost s hs ((hsame s (by simp [hs])).mp hcs)

end

end Best

/-! ## The inner loop -/

/-- The symbols in `done` have been looked at for a range `[lo, hi)`: none starts inside of it
and none that covers its start ends inside. -/
structure Done (deref : σ → Symbol) (lo hi : Nat) (done : List σ) : Prop where
  addr : ∀ s ∈ done, (deref s).addr ≤ lo
  covers : ∀ s ∈ done, (deref s).Covers lo → hi ≤ (deref s).addr + (deref s).size

variable {lo : Nat} {done rest : List σ}

theorem Done.singleton {s : σ} (h : (deref s).addr ≤ lo) :
    Done deref lo ((deref s).addr + (deref s).size) [s] :=
  ⟨by simpa using h, by simp⟩

theorem Done.snoc {hi hi' : Nat} {s : σ} (h : Done deref lo hi done) (hle : hi' ≤ hi)
    (haddr : (deref s).addr ≤ lo)
    (hcov : (deref s).Covers lo → hi' ≤ (deref s).addr + (deref s).size) :
    Done deref lo hi' (done ++ [s]) where
  addr s' hs' := by
    rcases mem_append.mp hs' with hs' | hs'
    · exact h.addr s' hs'
    · exact mem_singleton.mp hs' ▸ haddr
  covers s' hs' hc := by
    rcases mem_append.mp hs' with hs' | hs'
    · exact Nat.le_trans hle (h.covers s' hs' hc)
    · obtain rfl := mem_singleton.mp hs'
      exact hcov hc

/-- When the rest starts behind the range, the same symbols cover all of it. -/
theorem Done.same {hi hi' a : Nat} (h : Done deref lo hi done) (hle : hi' ≤ hi)
    (hrest : ∀ s ∈ rest, hi' ≤ (deref s).addr) (hlo : lo ≤ a) (hhi : a < hi') :
    ∀ s ∈ done ++ rest, (deref s).Covers a ↔ (deref s).Covers lo := by
  intro s hs
  rcases mem_append.mp hs with hs | hs
  · have haddr := h.addr s hs
    have hcov := h.covers s hs
    unfold Symbol.Covers at hcov ⊢
    omega
  · have haddr := hrest s hs
    unfold Symbol.Covers
    omega

/-- The end and the symbol of the next range. -/
structure Next (deref : σ → Symbol) (lo hi : Nat) (syms : List σ) (r : Nat × σ) : Prop where
  lt : lo < r.1
  le : r.1 ≤ hi
  best : ∀ a, lo ≤ a → a < r.1 → Best deref syms a r.2

/-- The loop ends, with the rest behind the range. -/
theorem Next.of_done {hi hi' : Nat} {w : σ} (h : Done deref lo hi done)
    (hbest : Best deref done lo w) (hlt : lo < hi') (hle : hi' ≤ hi)
    (hrest : ∀ s ∈ rest, hi' ≤ (deref s).addr) :
    Next deref lo hi (done ++ rest) (hi', w) where
  lt := hlt
  le := hle
  best a hlo hhi := by
    have hall : Best deref (done ++ rest) lo w := hbest.append fun s hs hc => by
      have haddr := hrest s hs
      unfold Symbol.Covers at hc
      omega
    exact hall.congr (h.same hle hrest hlo hhi)

theorem candidates_spec {hi : Nat} {w : σ} (hfits : ∀ s ∈ rest, (deref s).Fits)
    (hsorted : rest.Pairwise fun s s' => (deref s).addr ≤ (deref s').addr) (hlo : lo < hi)
    (h : Done deref lo hi done) (hbest : Best deref done lo w) :
    Next deref lo hi (done ++ rest) (candidates deref lo rest hi w) := by
  -- over the symbols still to be looked at, one after the other joining `done`
  induction rest generalizing done hi w with
  | nil => exact .of_done h hbest hlo le_rfl (by simp)
  | cons s rest ih =>
    obtain ⟨hs, hsorted⟩ := pairwise_cons.mp hsorted
    have hfits' : ∀ s' ∈ rest, (deref s').Fits := fun s' hs' => hfits s' (by simp [hs'])
    have htop := (hfits s (by simp)).top
    have hbehind : ∀ s' ∈ s :: rest, (deref s).addr ≤ (deref s').addr :=
      forall_mem_cons.mpr ⟨le_rfl, hs⟩
    rw [candidates]
    split
    case isTrue hge =>
      exact .of_done h hbest hlo le_rfl fun s' hs' => Nat.le_trans hge (hbehind s' hs')
    split
    case isTrue hlt hgt => exact .of_done h hbest hgt (by omega) hbehind
    case isFalse hlt hgt =>
      rw [show done ++ s :: rest = (done ++ [s]) ++ rest from by simp]
      simp only [htop]
      split
      case isTrue hpast =>
        have hnot : ¬(deref s).Covers lo := by
          unfold Symbol.Covers
          omega
        exact ih hfits' hsorted hlo (h.snoc le_rfl (by omega) fun hc => absurd hc hnot)
          (hbest.append fun s' hs' hc => absurd (mem_singleton.mp hs' ▸ hc) hnot)
      case isFalse hpast =>
        have hcov : (deref s).Covers lo := ⟨by omega, by omega⟩
        -- the range ends no later than the symbol does
        generalize hhi' : (if (deref s).addr + (deref s).size < hi then
          (deref s).addr + (deref s).size else hi) = hi'
        have hle : hi' ≤ hi := by split at hhi' <;> omega
        have hend : hi' ≤ (deref s).addr + (deref s).size := by split at hhi' <;> omega
        have hlo' : lo < hi' := by split at hhi' <;> omega
        have hdone := h.snoc hle (by omega) fun _ => hend
        have hnext : Next deref lo hi' ((done ++ [s]) ++ rest) (candidates deref lo rest hi'
            (if (deref s).addr > (deref w).addr ∨
              (deref s).addr = (deref w).addr ∧ (deref s).size < (deref w).size
              then s else w)) := by
          split
          case isTrue hwins =>
            refine ih hfits' hsorted hlo' hdone (hbest.snoc hcov ?_)
            unfold Symbol.Under
            omega
          case isFalse hwins =>
            refine ih hfits' hsorted hlo' hdone (hbest.append fun s' hs' _ => ?_)
            obtain rfl := mem_singleton.mp hs'
            unfold Symbol.Upto
            omega
        exact ⟨hnext.lt, Nat.le_trans hnext.le hle, hnext.best⟩

/-! ## The outer loop -/

variable [DecidableEq σ]

/-- A range belongs to the symbol that is best at all its addresses. -/
structure RangeOk (deref : σ → Symbol) (syms : List σ) (range : SymRange σ) : Prop where
  lt : range.lo < range.hi
  best : ∀ a, range.lo ≤ a → a < range.hi → Best deref syms a range.sym

/-- The ranges, the last one first, when all addresses below `hi` are settled. -/
structure Swept (deref : σ → Symbol) (syms : List σ) (hi : Nat) (ranges : List (SymRange σ)) :
    Prop where
  chain : ranges.Pairwise fun r r' => r'.hi ≤ r.lo
  ok : ∀ r ∈ ranges, RangeOk deref syms r
  below : ∀ r ∈ ranges, r.hi ≤ hi
  complete : ∀ s ∈ syms, ∀ a, (deref s).Covers a → a < hi → ∃ r ∈ ranges, r.lo ≤ a ∧ a < r.hi

namespace Swept

variable {syms : List σ} {hi : Nat} {ranges : List (SymRange σ)} {range : SymRange σ}

omit [DecidableEq σ] in
/-- A new range behind the others. -/
theorem cons (h : Swept deref syms hi ranges) (hok : RangeOk deref syms range)
    (hlo : hi ≤ range.lo)
    (hgap : ∀ s ∈ syms, ∀ a, (deref s).Covers a → hi ≤ a → range.lo ≤ a) :
    Swept deref syms range.hi (range :: ranges) where
  chain := pairwise_cons.mpr ⟨fun r hr => Nat.le_trans (h.below r hr) hlo, h.chain⟩
  ok := forall_mem_cons.mpr ⟨hok, h.ok⟩
  below := forall_mem_cons.mpr
    ⟨le_rfl, fun r hr => ((h.below r hr).trans hlo).trans hok.lt.le⟩
  complete s hs a hc ha := by
    by_cases hold : a < hi
    · obtain ⟨r, hr, hin⟩ := h.complete s hs a hc hold
      exact ⟨r, by simp [hr], hin⟩
    · exact ⟨range, by simp, hgap s hs a hc (by omega), ha⟩

omit [DecidableEq σ] in
/-- Two ranges put together are as good as the two. -/
theorem join {last : SymRange σ} (h : Swept deref syms hi (range :: last :: ranges))
    (hhi : last.hi = range.lo) (hsym : last.sym = range.sym) :
    Swept deref syms hi ({ last with hi := range.hi } :: ranges) := by
  obtain ⟨hlast, hchain⟩ := pairwise_cons.mp h.chain
  obtain ⟨hbefore, hchain⟩ := pairwise_cons.mp hchain
  have hok := h.ok range (by simp)
  have hokl := h.ok last (by simp)
  refine ⟨pairwise_cons.mpr ⟨hbefore, hchain⟩, fun r hr => ?_, fun r hr => ?_, ?_⟩
  · rcases mem_cons.mp hr with rfl | hr
    · refine ⟨show last.lo < range.hi from ?_, fun a ha1 ha2 => ?_⟩
      · have := hok.lt
        have := hokl.lt
        omega
      · by_cases ha : a < last.hi
        · exact hokl.best a ha1 ha
        · rw [hsym]
          exact hok.best a (by omega) ha2
    · exact h.ok r (by simp [hr])
  · rcases mem_cons.mp hr with rfl | hr
    · exact h.below range (by simp)
    · exact h.below r (by simp [hr])
  · intro s hs a hc ha
    obtain ⟨r, hr, hin⟩ := h.complete s hs a hc ha
    have hltr := hok.lt
    have hltl := hokl.lt
    rcases mem_cons.mp hr with rfl | hr
    · exact ⟨_, mem_cons_self, show last.lo ≤ a ∧ a < r.hi from by omega⟩
    rcases mem_cons.mp hr with rfl | hr
    · exact ⟨_, mem_cons_self, show r.lo ≤ a ∧ a < range.hi from by omega⟩
    · exact ⟨r, by simp [hr], hin⟩

theorem addRange (h : Swept deref syms hi ranges) (hok : RangeOk deref syms range)
    (hlo : hi ≤ range.lo)
    (hgap : ∀ s ∈ syms, ∀ a, (deref s).Covers a → hi ≤ a → range.lo ≤ a) :
    Swept deref syms range.hi (addRange range ranges) := by
  have hcons := h.cons hok hlo hgap
  unfold Symtab.addRange
  split
  · split
    case isTrue hsame => exact hcons.join hsame.1 hsame.2
    case isFalse => exact hcons
  · exact hcons

end Swept

/-- What the new ranges are: in order without overlaps, each of its best symbol, and all
addresses of symbols are in them. -/
structure Formed (deref : σ → Symbol) (syms : List σ) (ranges : List (SymRange σ)) : Prop where
  disjoint : ranges.Pairwise fun r r' => r.hi ≤ r'.lo
  ok : ∀ r ∈ ranges, RangeOk deref syms r
  complete : ∀ s ∈ syms, ∀ a, (deref s).Covers a → ∃ r ∈ ranges, r.lo ≤ a ∧ a < r.hi

/-- **The sweep**: with the symbols in `pre` behind, enough fuel brings it to its end. -/
theorem formRanges_spec {syms pre : List σ} {hi fuel : Nat} {ranges : List (SymRange σ)}
    (hsyms : syms = pre ++ rest) (hfits : ∀ s ∈ syms, (deref s).Fits)
    (hsorted : syms.Pairwise fun s s' => (deref s).addr ≤ (deref s').addr)
    (hpre : ∀ s ∈ pre, ∀ a, (deref s).Covers a → a < hi) (h : Swept deref syms hi ranges)
    (hfuel : rest.length + (2 ^ 64 - hi) < fuel) :
    ∃ formed, formRanges deref fuel hi ranges rest = some formed ∧ Formed deref syms formed := by
  induction fuel generalizing pre rest hi ranges with
  | zero => omega
  | succ fuel ih =>
    cases rest with
    | nil =>
      refine ⟨ranges.reverse, rfl, ?_, fun r hr => h.ok r (by simpa using hr), fun s hs a hc => ?_⟩
      · exact pairwise_reverse.mpr h.chain
      · obtain ⟨r, hr, hin⟩ := h.complete s hs a hc (hpre s (by simpa [hsyms] using hs) a hc)
        exact ⟨r, by simpa using hr, hin⟩
    | cons sym rest =>
      rw [length_cons] at hfuel
      have hmem : ∀ s ∈ sym :: rest, s ∈ syms := fun s hs => by simp [hsyms, mem_cons.mp hs]
      have hfit := hfits sym (hmem sym (by simp))
      -- a symbol without addresses above `hi` goes to the ones behind
      have hskip : (∀ a, (deref sym).Covers a → a < hi) → ∃ formed,
          formRanges deref fuel hi ranges rest = some formed ∧ Formed deref syms formed := by
        intro hbehind
        refine ih (show syms = (pre ++ [sym]) ++ rest from by simp [hsyms]) (fun s hs => ?_) h
          (by omega)
        rcases mem_append.mp hs with hs | hs
        · exact hpre s hs
        · exact mem_singleton.mp hs ▸ hbehind
      rw [formRanges]
      split
      case isTrue hzero => exact hskip fun a hc => by unfold Symbol.Covers at hc; omega
      split
      case isTrue hzero hpast =>
        rw [hfit.top] at hpast
        exact hskip fun a hc => by unfold Symbol.Covers at hc; omega
      case isFalse hzero hpast =>
        rw [hfit.top] at hpast ⊢
        generalize hlo : (if (deref sym).addr < hi then hi else (deref sym).addr) = lo
        dsimp only
        have hle : hi ≤ lo := by split at hlo <;> omega
        have haddr : (deref sym).addr ≤ lo := by split at hlo <;> omega
        have hlt : lo < (deref sym).addr + (deref sym).size := by split at hlo <;> omega
        have hsuffix : (sym :: rest).Pairwise fun s s' => (deref s).addr ≤ (deref s').addr :=
          hsorted.sublist (hsyms ▸ sublist_append_right _ _)
        obtain ⟨hfirst, hrest⟩ := pairwise_cons.mp hsuffix
        have hnext := candidates_spec (fun s hs => hfits s (hmem s (by simp [hs]))) hrest hlt
          (Done.singleton haddr) (Best.singleton ⟨haddr, hlt⟩)
        generalize candidates deref lo rest ((deref sym).addr + (deref sym).size) sym = next
          at hnext
        have hnlt := hnext.lt
        have hok : RangeOk deref syms ⟨lo, next.1, next.2⟩ := by
          refine ⟨hnlt, fun a ha1 ha2 => hsyms ▸ (hnext.best a ha1 ha2).prepend fun s hs hc => ?_⟩
          have hbehind := hpre s hs a hc
          have : lo ≤ a := ha1
          omega
        have hgap : ∀ s ∈ syms, ∀ a, (deref s).Covers a → hi ≤ a → lo ≤ a := by
          intro s hs a hc ha
          rw [hsyms] at hs
          rcases mem_append.mp hs with hs | hs
          · have := hpre s hs a hc
            omega
          · -- the others start no lower than this one
            have hs' : (deref sym).addr ≤ (deref s).addr :=
              (mem_cons.mp hs).elim (fun h => h ▸ le_rfl) (hfirst s)
            have := hc.1
            split at hlo <;> omega
        have hfit' : (deref sym).addr + (deref sym).size < 2 ^ 64 := hfit
        refine ih hsyms (fun s hs a hc => ?_) (h.addRange hok hle hgap) (by
          rw [length_cons]
          omega)
        have := hpre s hs a hc
        omega

/-- **Forming ranges** for symbols in the order of their addresses. -/
theorem dtSymtabFormRanges_spec {syms : List σ} (hfits : ∀ s ∈ syms, (deref s).Fits)
    (hsorted : syms.Pairwise fun s s' => (deref s).addr ≤ (deref s').addr) :
    ∃ ranges, dtSymtabFormRanges deref syms = some ranges ∧ Formed deref syms ranges := by
  refine formRanges_spec (nil_append syms).symm hfits hsorted (by simp) ?_ (by omega)
  exact ⟨List.Pairwise.nil, by simp, by simp, by simp⟩

end DTrace.Symtab
