import DTrace.Symtab.Table

/-!
# Process symbols by address — `sym_by_addr`

The symbols of a process's object are sorted by `byaddr_cmp`: by their start and then by a
preference among aliases. `sym_by_addr` halves the table by start, remembers the covering symbol
with the greatest start of those it inspects, and from there walks back over aliases that cover the
address.

* **`Best`** — the answer: a covering symbol with the greatest start, the first of those.
* **`Halving`**, **`rank`** — the parts into which halving divides a table of a given length, and
  the number of symbols that start at or below the address.
* **`symByAddr_right_iff`** — the answer is found if and only if the middle of a part around the
  rank leads to it: all symbols from the answer to that middle are in range. A symbol that covers
  the address from further back is only found if it happens to be such a middle.
-/

namespace DTrace.Psymtab

open List Option

open Symtab (Byte strcmp)

/-! ## The table -/

/-- `GElf_Sym`, with the string its `st_name` refers to. -/
structure Sym where
  name : List Byte
  value : Nat
  size : Nat
  type : Nat
  bind : Nat
  deriving DecidableEq, Repr

def sttFunc : Nat := 2
def stbLocal : Nat := 0

/-- `'$'` and `'_'` -/
def dollar : Byte := 36
def underscore : Byte := 95

/-- The loop over the underscores that both names have. -/
def skipUnderscores : List Byte → List Byte → List Byte × List Byte
  | a :: aname, b :: bname =>
    if a = underscore ∧ b = underscore then skipUnderscores aname bname
    else (a :: aname, b :: bname)
  | aname, bname => (aname, bname)

def byaddrCmpCommon (a b : Sym) : Int :=
  if a.value < b.value then -1
  else if a.value > b.value then 1
  else if a.type ≠ b.type ∧ a.type = sttFunc then -1
  else if a.type ≠ b.type ∧ b.type = sttFunc then 1
  else if a.bind ≠ b.bind ∧ b.bind = stbLocal then -1
  else if a.bind ≠ b.bind ∧ a.bind = stbLocal then 1
  else if b.name.head? = some dollar then -1
  else if a.name.head? = some dollar then 1
  else
    let (aname, bname) := skipUnderscores a.name b.name
    if bname.head? = some underscore then -1
    else if aname.head? = some underscore then 1
    else if a.size < b.size then -1
    else if a.size > b.size then 1
    else strcmp aname bname

/-- A table as `optimize_symtab` leaves it: the symbols in the order of `sym_byaddr`. -/
def Sorted (tab : List Sym) : Prop := tab.Pairwise fun a b => byaddrCmpCommon a b ≤ 0

instance (tab : List Sym) : Decidable (Sorted tab) :=
  inferInstanceAs (Decidable (tab.Pairwise fun a b => byaddrCmpCommon a b ≤ 0))

/-! ## The lookup

The loop keeps the best symbol seen so far; the walk back from it goes over aliases. -/

/-- `addr >= st_value && addr < st_value + st_size` -/
def Sym.InRange (sym : Sym) (addr : Nat) : Prop :=
  sym.value ≤ addr ∧ addr < (sym.value + sym.size) % 2 ^ 64

instance (sym : Sym) (addr : Nat) : Decidable (sym.InRange addr) :=
  inferInstanceAs (Decidable (_ ∧ _))

section
variable (tab : List Sym) (addr : Nat)

/-- `osym` and `omid`, after a look at the symbol `sym` at `mid`. -/
def note (found : Option (Nat × Sym)) (mid : Nat) (sym : Sym) : Option (Nat × Sym) :=
  if sym.InRange addr ∧ ∀ o ∈ found, o.2.value < sym.value then some (mid, sym) else found

/-- The loop; `hi` is `max + 1`. -/
def searchLoop : Nat → Nat → Nat → Option (Nat × Sym) → Option (Nat × Sym)
  | 0, _, _, found => found
  | fuel + 1, lo, hi, found =>
    if lo < hi then
      let mid := (hi - 1 + lo) / 2
      match tab[mid]? with
      | none => found
      | some sym =>
        if addr < sym.value then searchLoop fuel lo mid (note addr found mid sym)
        else searchLoop fuel (mid + 1) hi (note addr found mid sym)
    else found

/-- The walk back from a symbol with the start `value`. -/
def walkBack (value : Nat) : Nat → Nat
  | 0 => 0
  | omid + 1 =>
    match tab[omid]? with
    | none => omid + 1
    | some osym =>
      if osym.value ≤ addr ∧ addr < (value + osym.size) % 2 ^ 64 ∧ osym.value = value then
        walkBack value omid
      else omid + 1

/-- `sym_by_addr`: the position of the symbol. -/
def symByAddr : Option Nat :=
  (searchLoop tab addr tab.length 0 tab.length none).map fun o => walkBack tab addr o.2.value o.1

/-! ## The answer

What is asked for, without reference to the search. -/

def Sym.Covers (sym : Sym) (addr : Nat) : Prop := sym.value ≤ addr ∧ addr < sym.value + sym.size

instance (sym : Sym) (addr : Nat) : Decidable (sym.Covers addr) :=
  inferInstanceAs (Decidable (_ ∧ _))

/-- The first of the covering symbols with the greatest start. -/
structure Best (q : Nat) (s : Sym) : Prop where
  get : tab[q]? = some s
  covers : s.Covers addr
  greatest : ∀ t ∈ tab, t.Covers addr → t.value ≤ s.value
  first : ∀ j < q, ∀ t, tab[j]? = some t → t.Covers addr → t.value ≠ s.value

def Right (r : Option Nat) : Prop :=
  match r with
  | none => ∀ s ∈ tab, ¬ s.Covers addr
  | some q => ∃ s, Best tab addr q s

/-- How many symbols start at or below the address. -/
def rank : Nat := tab.countP fun s => decide (s.value ≤ addr)

end

/-- The middle of the part from `lo` up to `hi`, rounded down. -/
def middle (lo hi : Nat) : Nat := (hi - 1 + lo) / 2

/-- The parts of a table of length `n` that come from halving it again and again, on either side:
this is about lengths only. -/
inductive Halving (n : Nat) : Nat → Nat → Prop where
  | whole : Halving n 0 n
  | lower {lo hi : Nat} : Halving n lo hi → lo < hi → Halving n lo (middle lo hi)
  | upper {lo hi : Nat} : Halving n lo hi → lo < hi → Halving n (middle lo hi + 1) hi

/-! ## What the loop finds

The loop is followed through the list of the positions it looks at; which these are is then a matter
of the table's length and the rank of the address alone. -/

section
variable (tab : List Sym) (addr : Nat)

/-- The positions that the loop looks at. -/
def inspected : Nat → Nat → Nat → List Nat
  | 0, _, _ => []
  | fuel + 1, lo, hi =>
    if lo < hi then
      let mid := (hi - 1 + lo) / 2
      match tab[mid]? with
      | none => []
      | some sym =>
        mid :: if addr < sym.value then inspected fuel lo mid else inspected fuel (mid + 1) hi
    else []

/-- A symbol with the given start that the code takes to cover the address. -/
def hit (value : Nat) (j : Nat) : Bool :=
  match tab[j]? with
  | none => false
  | some s => decide (s.InRange addr ∧ s.value = value)

/-- The first position of that kind that is inspected. -/
def firstHit (value : Nat) : Option Nat :=
  (inspected tab addr tab.length 0 tab.length).find? (hit tab addr value)

end

section
variable {tab : List Sym} {addr : Nat}

variable {s : Sym} {value j q p : Nat}

theorem Sym.InRange.covers (h : s.InRange addr) : s.Covers addr := by
  obtain ⟨hle, hlt⟩ := h
  exact ⟨hle, Nat.lt_of_lt_of_le hlt (Nat.mod_le _ _)⟩

theorem hit_iff : hit tab addr value j = true ↔
    ∃ s, tab[j]? = some s ∧ s.InRange addr ∧ s.value = value := by
  unfold hit
  cases tab[j]? with
  | none => simp
  | some s => simp

/-- What has been found among the positions of `done`. -/
structure FoundIn (tab : List Sym) (addr : Nat) (done : List Nat) (found : Option (Nat × Sym)) :
    Prop where
  get : ∀ o ∈ found, tab[o.1]? = some o.2 ∧ o.2.InRange addr
  greatest : ∀ j ∈ done, ∀ t, tab[j]? = some t → t.InRange addr → ∃ o ∈ found, t.value ≤ o.2.value
  first : ∀ o ∈ found, done.find? (hit tab addr o.2.value) = some o.1

theorem FoundIn.nil : FoundIn tab addr [] none :=
  ⟨by simp, by simp, by simp⟩

theorem FoundIn.note {done : List Nat} {found : Option (Nat × Sym)}
    (h : FoundIn tab addr done found) {mid : Nat} {sym : Sym} (hget : tab[mid]? = some sym) :
    FoundIn tab addr (done ++ [mid]) (note addr found mid sym) := by
  unfold Psymtab.note
  split
  · next hnew =>
    obtain ⟨hin, hlt⟩ := hnew
    refine ⟨?_, ?_, ?_⟩
    · simpa using ⟨hget, hin⟩
    · intro j hj t ht htin
      refine ⟨_, rfl, ?_⟩
      rcases mem_append.mp hj with hj | hj
      · obtain ⟨o, ho, hle⟩ := h.greatest j hj t ht htin
        exact hle.trans (hlt o ho).le
      · obtain rfl := mem_singleton.mp hj
        rw [hget] at ht
        obtain rfl := some.inj ht
        exact le_rfl
    · intro o ho
      obtain rfl : (mid, sym) = o := mem_some_iff.mp ho
      -- nothing inspected before has this start
      have hnone : done.find? (hit tab addr sym.value) = none := by
        rw [find?_eq_none]
        intro j hj hhit
        obtain ⟨t, ht, htin, _⟩ := hit_iff.mp hhit
        obtain ⟨o, ho, hle⟩ := h.greatest j hj t ht htin
        exact absurd (hlt o ho) (by omega)
      have hmid : hit tab addr sym.value mid = true := hit_iff.mpr ⟨sym, hget, hin, rfl⟩
      rw [find?_append, hnone]
      simp [hmid]
  · next hold =>
    refine ⟨h.get, ?_, ?_⟩
    · intro j hj t ht htin
      rcases mem_append.mp hj with hj | hj
      · exact h.greatest j hj t ht htin
      · obtain rfl := mem_singleton.mp hj
        rw [hget] at ht
        obtain rfl := some.inj ht
        by_contra hno
        refine hold ⟨htin, fun o ho => ?_⟩
        exact Nat.lt_of_not_le fun hle => hno ⟨o, ho, hle⟩
    · intro o ho
      rw [find?_append, h.first o ho]
      rfl

theorem FoundIn.searchLoop {done : List Nat} {found : Option (Nat × Sym)}
    (h : FoundIn tab addr done found) (fuel lo hi : Nat) :
    FoundIn tab addr (done ++ inspected tab addr fuel lo hi)
      (searchLoop tab addr fuel lo hi found) := by
  induction fuel generalizing done found lo hi with
  | zero => simpa [inspected, Psymtab.searchLoop] using h
  | succ fuel ih =>
    rw [inspected, Psymtab.searchLoop]
    split
    · dsimp only
      cases hget : tab[(hi - 1 + lo) / 2]? with
      | none => simpa using h
      | some sym =>
        dsimp only
        have hnote := h.note hget
        rw [← singleton_append, ← append_assoc]
        split
        · exact ih hnote _ _
        · exact ih hnote _ _
    · simpa using h

/-! ## The walk back -/

theorem walkBack_le (value omid : Nat) : walkBack tab addr value omid ≤ omid := by
  induction omid with
  | zero => exact le_rfl
  | succ omid ih =>
    rw [walkBack]
    split
    · exact le_rfl
    · split
      · exact ih.trans (Nat.le_succ _)
      · exact le_rfl

/-- All symbols on the way cover the address and have the same start. -/
theorem hit_of_walkBack_le {omid : Nat} (h : hit tab addr value omid = true)
    (hj : walkBack tab addr value omid ≤ j) (hle : j ≤ omid) : hit tab addr value j = true := by
  induction omid with
  | zero =>
    obtain rfl : j = 0 := by omega
    exact h
  | succ omid ih =>
    rcases Nat.lt_or_eq_of_le hle with hlt | rfl
    · rw [walkBack] at hj
      split at hj
      · omega
      · next osym hget =>
        split at hj
        · next hcond =>
          obtain ⟨h1, _, h3⟩ := hcond
          refine ih (hit_iff.mpr ⟨osym, hget, ⟨h1, ?_⟩, h3⟩) hj (by omega)
          rwa [h3]
        · omega
    · exact h

/-- The walk passes a run of such symbols. -/
theorem walkBack_le_of_hits {omid : Nat} (h : ∀ j, q ≤ j → j ≤ omid → hit tab addr value j = true)
    (hq : q ≤ omid) : walkBack tab addr value omid ≤ q := by
  induction omid with
  | zero => exact Nat.zero_le _
  | succ omid ih =>
    rcases Nat.lt_or_eq_of_le hq with hlt | rfl
    · obtain ⟨_, hget, ⟨h1, _⟩, h3⟩ := hit_iff.mp (h omid (by omega) (by omega))
      rw [walkBack, hget]
      dsimp only
      rw [if_pos ⟨h1, by rwa [← h3], h3⟩]
      exact ih (fun j hj hle => h j hj (by omega)) (by omega)
    · exact walkBack_le _ _

/-! ## The lookup is right -/

theorem value_le_of_cmp {a b : Sym} (h : byaddrCmpCommon a b ≤ 0) : a.value ≤ b.value := by
  by_contra hlt
  have hone : byaddrCmpCommon a b = 1 := by
    unfold byaddrCmpCommon
    rw [if_neg (by omega), if_pos (by omega)]
  omega

theorem Sorted.value_le (hs : Sorted tab) {i : Nat} (hij : i ≤ j) {t : Sym}
    (hi : tab[i]? = some s) (hj : tab[j]? = some t) : s.value ≤ t.value := by
  rcases Nat.lt_or_eq_of_le hij with hlt | rfl
  · obtain ⟨hi', rfl⟩ := List.getElem?_eq_some_iff.mp hi
    obtain ⟨hj', rfl⟩ := List.getElem?_eq_some_iff.mp hj
    exact value_le_of_cmp (pairwise_iff_getElem.mp hs i j hi' hj' hlt)
  · rw [hi] at hj
    rw [some.inj hj]

/-- In a table with rising starts, the symbols at or below the address are the first `rank` ones. -/
theorem lt_rank_iff (hs : tab.Pairwise fun a b => a.value ≤ b.value) (hj : tab[j]? = some s) :
    j < rank tab addr ↔ s.value ≤ addr := by
  unfold rank
  induction tab generalizing j with
  | nil => cases hj
  | cons a tab ih =>
    obtain ⟨hall, hs⟩ := pairwise_cons.mp hs
    rw [countP_cons]
    by_cases ha : a.value ≤ addr
    · rw [if_pos (decide_eq_true ha)]
      cases j with
      | zero =>
        obtain rfl := some.inj hj
        simpa using ha
      | succ j => rw [Nat.succ_lt_succ_iff, ih hs hj]
    · -- the first symbol starts above the address, so all of them do
      have habove : ∀ t ∈ a :: tab, ¬ t.value ≤ addr := by
        intro t ht
        rcases mem_cons.mp ht with rfl | ht
        · exact ha
        · have := hall t ht
          omega
      have hzero : tab.countP (fun s => decide (s.value ≤ addr)) = 0 :=
        countP_eq_zero.mpr fun t ht => by simpa using habove t (mem_cons_of_mem _ ht)
      have hno := habove s (mem_of_getElem? hj)
      simp [hzero, ha, hno]

theorem Sorted.lt_rank_iff (hs : Sorted tab) (hj : tab[j]? = some s) :
    j < rank tab addr ↔ s.value ≤ addr :=
  Psymtab.lt_rank_iff (hs.imp value_le_of_cmp) hj

theorem inspected_succ {fuel lo hi : Nat} (hlt : lo < hi) (hget : tab[middle lo hi]? = some s) :
    inspected tab addr (fuel + 1) lo hi = middle lo hi ::
      if addr < s.value then inspected tab addr fuel lo (middle lo hi)
      else inspected tab addr fuel (middle lo hi + 1) hi := by
  unfold middle at hget ⊢
  rw [inspected, if_pos hlt]
  dsimp only
  rw [hget]

theorem le_of_mem_inspected {fuel lo hi : Nat} (h : j ∈ inspected tab addr fuel lo hi) :
    lo ≤ j := by
  induction fuel generalizing lo hi with
  | zero => cases h
  | succ fuel ih =>
    rw [inspected] at h
    split at h
    · next hlt =>
      dsimp only at h
      split at h
      · cases h
      · rcases mem_cons.mp h with rfl | h
        · omega
        · split at h
          · exact ih h
          · have := ih h
            omega
    · cases h

/-- After a symbol that does not start above the address the loop only goes up, so the first
position with a given start that is in range is the lowest of them. -/
theorem firstHit_le {fuel lo hi : Nat}
    (hfirst : (inspected tab addr fuel lo hi).find? (hit tab addr value) = some q)
    (hmem : j ∈ inspected tab addr fuel lo hi) (hj : hit tab addr value j = true) : q ≤ j := by
  induction fuel generalizing lo hi with
  | zero => cases hmem
  | succ fuel ih =>
    rw [inspected] at hfirst hmem
    split at hmem
    · next hlt =>
      rw [if_pos hlt] at hfirst
      dsimp only at hfirst hmem
      cases hget : tab[(hi - 1 + lo) / 2]? with
      | none =>
        rw [hget] at hmem
        cases hmem
      | some sym =>
        rw [hget] at hmem hfirst
        dsimp only at hmem hfirst
        by_cases hmid : hit tab addr value ((hi - 1 + lo) / 2) = true
        · rw [find?_cons_of_pos hmid] at hfirst
          obtain rfl := some.inj hfirst
          obtain ⟨sym', hget', ⟨hle, -⟩, -⟩ := hit_iff.mp hmid
          obtain rfl := some.inj (hget.symm.trans hget')
          rw [if_neg (by omega)] at hmem
          rcases mem_cons.mp hmem with rfl | hmem
          · exact le_rfl
          · have := le_of_mem_inspected hmem
            omega
        · rw [find?_cons_of_neg hmid] at hfirst
          rcases mem_cons.mp hmem with rfl | hmem
          · exact absurd hj hmid
          · split at hmem
            · next hup =>
              rw [if_pos hup] at hfirst
              exact ih hfirst hmem
            · next hup =>
              rw [if_neg hup] at hfirst
              exact ih hfirst hmem
    · cases hmem

/-- A position that the loop looks at is the middle of a part around the rank. -/
theorem halving_of_mem_inspected (hs : Sorted tab) {n fuel lo hi : Nat} (h : Halving n lo hi)
    (hlo : lo ≤ rank tab addr) (hhi : rank tab addr ≤ hi)
    (hmem : j ∈ inspected tab addr fuel lo hi) : ∃ lo hi, Halving n lo hi ∧ lo < hi ∧
      lo ≤ rank tab addr ∧ rank tab addr ≤ hi ∧ j = middle lo hi := by
  induction fuel generalizing lo hi with
  | zero => cases hmem
  | succ fuel ih =>
    rw [inspected] at hmem
    split at hmem
    · next hlt =>
      dsimp only at hmem
      split at hmem
      · cases hmem
      · next sym hget =>
        have hrank : middle lo hi < rank tab addr ↔ sym.value ≤ addr := hs.lt_rank_iff hget
        unfold middle at hrank
        rcases mem_cons.mp hmem with rfl | hmem
        · exact ⟨lo, hi, h, hlt, hlo, hhi, rfl⟩
        · split at hmem
          · next hup => exact ih (h.lower hlt) hlo (by unfold middle; omega) hmem
          · next hup => exact ih (h.upper hlt) (by unfold middle; omega) hhi hmem
    · cases hmem

/-- Conversely the loop comes to every part around the rank. -/
theorem inspected_suffix (hs : Sorted tab) {lo hi : Nat} (h : Halving tab.length lo hi)
    (hlo : lo ≤ rank tab addr) (hhi : rank tab addr ≤ hi) : hi ≤ tab.length ∧
      ∃ fuel, hi - lo ≤ fuel ∧ inspected tab addr fuel lo hi ⊆
        inspected tab addr tab.length 0 tab.length := by
  have hmid {lo hi : Nat} (hlt : lo < hi) : lo ≤ middle lo hi ∧ middle lo hi < hi := by
    unfold middle
    omega
  induction h with
  | whole => exact ⟨le_rfl, _, Nat.sub_le _ _, Subset.refl _⟩
  | @lower lo hi _ hlt ih =>
    obtain ⟨hm1, hm2⟩ := hmid hlt
    obtain ⟨hlen, fuel, hfuel, hsub⟩ := ih hlo (by omega)
    refine ⟨by omega, fuel - 1, by omega, fun j hj => hsub ?_⟩
    obtain ⟨fuel, rfl⟩ : ∃ f, fuel = f + 1 := ⟨fuel - 1, by omega⟩
    have hget : tab[middle lo hi]? = some tab[middle lo hi] := getElem?_eq_getElem (by omega)
    have hrank : middle lo hi < rank tab addr ↔ tab[middle lo hi].value ≤ addr :=
      hs.lt_rank_iff hget
    have hup := hrank.not.mp (by omega)
    rw [inspected_succ hlt hget, if_pos (Nat.lt_of_not_le hup)]
    exact mem_cons_of_mem _ hj
  | @upper lo hi _ hlt ih =>
    obtain ⟨hm1, hm2⟩ := hmid hlt
    obtain ⟨hlen, fuel, hfuel, hsub⟩ := ih (by omega) hhi
    refine ⟨hlen, fuel - 1, by omega, fun j hj => hsub ?_⟩
    obtain ⟨fuel, rfl⟩ : ∃ f, fuel = f + 1 := ⟨fuel - 1, by omega⟩
    have hget : tab[middle lo hi]? = some tab[middle lo hi] := getElem?_eq_getElem (by omega)
    have hrank : middle lo hi < rank tab addr ↔ tab[middle lo hi].value ≤ addr :=
      hs.lt_rank_iff hget
    have hup := hrank.mp (by omega)
    rw [inspected_succ hlt hget, if_neg (Nat.not_lt.mpr hup)]
    exact mem_cons_of_mem _ hj

theorem middle_mem_inspected (hs : Sorted tab) {lo hi : Nat} (h : Halving tab.length lo hi)
    (hlt : lo < hi) (hlo : lo ≤ rank tab addr) (hhi : rank tab addr ≤ hi) :
    middle lo hi ∈ inspected tab addr tab.length 0 tab.length := by
  obtain ⟨hlen, fuel, hfuel, hsub⟩ := inspected_suffix hs h hlo hhi
  obtain ⟨fuel, rfl⟩ : ∃ f, fuel = f + 1 := ⟨fuel - 1, by omega⟩
  refine hsub ?_
  have hmid : middle lo hi < tab.length := by
    unfold middle
    omega
  rw [inspected_succ hlt (getElem?_eq_getElem hmid)]
  exact mem_cons_self

/-- What the lookup returns, in terms of the positions inspected. -/
theorem symByAddr_spec : (symByAddr tab addr = none →
      ∀ j ∈ inspected tab addr tab.length 0 tab.length, ∀ t, tab[j]? = some t → ¬ t.InRange addr) ∧
    ∀ r, symByAddr tab addr = some r → ∃ p s, tab[p]? = some s ∧ s.InRange addr ∧
      firstHit tab addr s.value = some p ∧ r = walkBack tab addr s.value p ∧
      ∀ j ∈ inspected tab addr tab.length 0 tab.length, ∀ t, tab[j]? = some t → t.InRange addr →
        t.value ≤ s.value := by
  have h := (FoundIn.nil : FoundIn tab addr [] none).searchLoop tab.length 0 tab.length
  unfold symByAddr
  cases hfound : searchLoop tab addr tab.length 0 tab.length none with
  | none =>
    rw [hfound] at h
    refine ⟨fun _ j hj t ht hin => ?_, fun r hr => (nomatch hr)⟩
    obtain ⟨o, ho, -⟩ := h.greatest j hj t ht hin
    cases ho
  | some o =>
    rw [hfound] at h
    refine ⟨fun hnone => (nomatch hnone), fun r hr => ?_⟩
    obtain ⟨hget, hin⟩ := h.get o rfl
    refine ⟨o.1, o.2, hget, hin, h.first o rfl, (some.inj hr).symm, fun j hj t ht htin => ?_⟩
    obtain ⟨_, ho', hle⟩ := h.greatest j hj t ht htin
    obtain rfl := some.inj ho'
    exact hle

/-- The answer is found from the first inspected position with its start. -/
theorem right_of_firstHit (hs : Sorted tab) (hbest : Best tab addr q s)
    (hfirst : firstHit tab addr s.value = some p)
    (hrun : ∀ j, q ≤ j → j ≤ p → ∃ t, tab[j]? = some t ∧ t.InRange addr) :
    Right tab addr (symByAddr tab addr) := by
  obtain ⟨hnone, hsome⟩ := @symByAddr_spec tab addr
  obtain ⟨sp, hsp, hspin, hspval⟩ := hit_iff.mp (find?_some hfirst)
  have hmem := mem_of_find?_eq_some hfirst
  cases hr : symByAddr tab addr with
  | none => exact absurd hspin (hnone hr p hmem sp hsp)
  | some r =>
    obtain ⟨p', s', hp', hin', hfirst', rfl, hgreatest⟩ := hsome r hr
    -- the symbol found has the answer's start
    have hval : s'.value = s.value := by
      have h1 := hgreatest p hmem sp hsp hspin
      have h2 := hbest.greatest s' (mem_of_getElem? hp') hin'.covers
      omega
    rw [hval] at hfirst' ⊢
    obtain rfl : p = p' := some.inj (hfirst.symm.trans hfirst')
    have hqp : q ≤ p := by
      by_contra hlt
      exact hbest.first p (by omega) sp hsp hspin.covers hspval
    have hhits : ∀ j, q ≤ j → j ≤ p → hit tab addr s.value j = true := by
      intro j hj hle
      obtain ⟨t, ht, htin⟩ := hrun j hj hle
      have h1 := hs.value_le hj hbest.get ht
      have h2 := hs.value_le hle ht hsp
      exact hit_iff.mpr ⟨t, ht, htin, by omega⟩
    have hle := walkBack_le_of_hits hhits hqp
    have hge : q ≤ walkBack tab addr s.value p := by
      by_contra hlt
      obtain ⟨t, ht, htin, htval⟩ := hit_iff.mp
        (hit_of_walkBack_le (hhits p hqp le_rfl) le_rfl (walkBack_le s.value p))
      exact hbest.first _ (by omega) t ht htin.covers htval
    rw [show walkBack tab addr s.value p = q by omega]
    exact ⟨s, hbest⟩

/-- The answer is found if an inspected position is connected to it by symbols in range. -/
theorem right_of_inspected (hs : Sorted tab) (hbest : Best tab addr q s)
    (hp : p ∈ inspected tab addr tab.length 0 tab.length) (hqp : q ≤ p)
    (hrun : ∀ j, q ≤ j → j ≤ p → ∃ t, tab[j]? = some t ∧ t.InRange addr) :
    Right tab addr (symByAddr tab addr) := by
  obtain ⟨t, ht, htin⟩ := hrun p hqp le_rfl
  have hval : t.value = s.value := by
    have h1 := hs.value_le hqp hbest.get ht
    have h2 := hbest.greatest t (mem_of_getElem? ht) htin.covers
    omega
  have hhit : hit tab addr s.value p = true := hit_iff.mpr ⟨t, ht, htin, hval⟩
  obtain ⟨p', hfirst⟩ := isSome_iff_exists.mp (find?_isSome.mpr ⟨p, hp, hhit⟩)
  have hle := firstHit_le hfirst hp hhit
  exact right_of_firstHit hs hbest hfirst fun j hj hjle => hrun j hj (hjle.trans hle)

/-- **Lookup by address**: in a sorted table `sym_by_addr` is right if and only if no symbol covers
the address, or the answer is connected by symbols in range to the middle of a part of the table
around the rank of the address. -/
theorem symByAddr_right_iff (hs : Sorted tab) : Right tab addr (symByAddr tab addr) ↔
    (∀ s ∈ tab, ¬ s.Covers addr) ∨ ∃ q s lo hi, Best tab addr q s ∧
      Halving tab.length lo hi ∧ lo < hi ∧ lo ≤ rank tab addr ∧ rank tab addr ≤ hi ∧
      q ≤ middle lo hi ∧ ∀ j, q ≤ j → j ≤ middle lo hi → ∃ t, tab[j]? = some t ∧ t.InRange addr := by
  obtain ⟨-, hsome⟩ := @symByAddr_spec tab addr
  constructor
  · intro hright
    cases hr : symByAddr tab addr with
    | none =>
      rw [hr] at hright
      exact .inl hright
    | some q =>
      rw [hr] at hright
      obtain ⟨s, hbest⟩ := hright
      obtain ⟨p, sp, hp, hin, hfirst, rfl, -⟩ := hsome q hr
      have hhit : hit tab addr sp.value p = true := hit_iff.mpr ⟨sp, hp, hin, rfl⟩
      obtain ⟨lo, hi, hpart, hlt, hlo, hhi, rfl⟩ :=
        halving_of_mem_inspected hs .whole (Nat.zero_le _) countP_le_length
          (mem_of_find?_eq_some hfirst)
      refine .inr ⟨_, s, lo, hi, hbest, hpart, hlt, hlo, hhi, walkBack_le _ _, fun j hj hle => ?_⟩
      obtain ⟨t, ht, htin, -⟩ := hit_iff.mp (hit_of_walkBack_le hhit hj hle)
      exact ⟨t, ht, htin⟩
  · rintro (hno | ⟨q, s, lo, hi, hbest, hpart, hlt, hlo, hhi, hq, hrun⟩)
    · cases hr : symByAddr tab addr with
      | none => exact hno
      | some r =>
        obtain ⟨p, s, hp, hin, -⟩ := hsome r hr
        exact absurd hin.covers (hno s (mem_of_getElem? hp))
    · exact right_of_inspected hs hbest (middle_mem_inspected hs hpart hlt hlo hhi) hq hrun

end

/-! ## Instances -/

/-- A global function. -/
def func (name : Byte) (value size : Nat) : Sym := ⟨[name], value, size, sttFunc, 1⟩

/-- Two aliases and a function behind them. -/
def aliases : List Sym := [func 97 0x1000 16, func 98 0x1000 32, func 99 0x1020 8]

theorem alias_found : Right aliases 0x1008 (symByAddr aliases 0x1008) := by
  refine (symByAddr_right_iff (by decide)).mpr (.inr ⟨0, func 97 0x1000 16, 0, 3, ?_, .whole,
    by decide, by decide, by decide, by decide, ?_⟩)
  · refine ⟨rfl, by decide, by decide, fun j hj => by omega⟩
  · intro j _ hj
    obtain rfl | rfl : j = 0 ∨ j = 1 := by
      have : middle 0 3 = 1 := rfl
      omega
    · exact ⟨_, rfl, by decide⟩
    · exact ⟨_, rfl, by decide⟩

/-- A function with two others inside it: none of them covers an address at its end, and the
halving does not come to the outer one. -/
def nested : List Sym := [func 97 0x1000 256, func 98 0x1010 8, func 99 0x1020 8]

theorem outer_symbol_lost : Sorted nested ∧ (func 97 0x1000 256).Covers 0x1080 ∧
    symByAddr nested 0x1080 = none ∧ ¬ Right nested 0x1080 (symByAddr nested 0x1080) := by
  have hnone : symByAddr nested 0x1080 = none := by decide
  refine ⟨by decide, by decide, hnone, fun h => ?_⟩
  exact h (func 97 0x1000 256) (by simp [nested]) (by decide)

end DTrace.Psymtab
