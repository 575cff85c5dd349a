import DTrace.Agg.Func
import DTrace.Lib.Search
import Mathlib.Data.List.GetD
import Mathlib.Data.Nat.Digits.Lemmas
import Mathlib.Data.Prod.Lex

/-!
# Joined aggregations

`printa()` with several aggregations prints one line for each key, with the value of every
aggregation. `dtrace_aggregate_walk_joined` sorts the entries of all of them by key, makes a bundle
of the entries of each key and sorts the bundles; the sort position says which aggregation comes
first. In a bundle the aggregations are therefore rotated: position `i` is that of
`aggvars[(i + sortpos) % naggvars]`.

Two things go wrong. The description for an aggregation without any entry is looked up with the
rotation the other way round, and bundles are compared by their values, also by the standard
deviation of a key that has no data, which ends the program.
-/

namespace DTrace.Agg.Joined

open List Option Function Nat

/-- `dtrace_aggdesc_t`, with the action of the record of the data. -/
structure Desc where
  varid : Nat
  action : AggFunc
  dsize : Nat
  deriving DecidableEq, Repr

/-- `dtrace_aggdata_t`. The key is given by the bytes of its records after the first one, which is
the variable. -/
structure Entry where
  desc : Desc
  key : List (List UInt8)
  data : List UInt8
  deriving DecidableEq, Repr

/-- `dt_aggregate_aggid`: the variable of a description is always set. -/
def Entry.aggid (h : Entry) : Nat := h.desc.varid

/-- `dt_aggid_lookup` in the table `dt_adesc` -/
def dtAggidLookup (adesc : List (Option Desc)) (aggid : Nat) : Option Desc := adesc[aggid]?.join

/-! ## Comparisons

Keys are compared record by record, from the position of the option on and around the end. -/

/-- What is compared of a record, after its size: a number or the single bytes. -/
def recValues (d : List UInt8) : List Nat :=
  if d.length = 8 ∨ d.length = 4 ∨ d.length = 2 ∨ d.length = 1 then
    [Nat.ofDigits 256 (d.map (·.toNat))]
  else d.map (·.toNat)

def recCmp : List UInt8 → List UInt8 → Ordering :=
  compareLex (compareOn List.length) (compareOn recValues)

/-- The records of a key, from the one at `keypos` on. -/
def keyFrom (keypos : Nat) (key : List (List UInt8)) : List (List UInt8) :=
  if keypos + 1 ≥ key.length + 1 then key else key.rotate keypos

/-- `dt_aggregate_keycmp`, where `keypos` is `dt_keypos` -/
def dtAggregateKeycmp (keypos : Nat) (l r : Entry) : Ordering :=
  (compare l.key.length r.key.length).then
    (List.compareLex recCmp (keyFrom keypos l.key) (keyFrom keypos r.key))

/-- `dt_aggregate_keyvarcmp` -/
def dtAggregateKeyvarcmp (keypos : Nat) (l r : Entry) : Ordering :=
  (dtAggregateKeycmp keypos l r).then (compare l.aggid r.aggid)

/-! ## Positions of the variables -/

/-- `map` and `remap`. Positions count from 1, and 0 stands for none. -/
structure Maps where
  map : Nat → Nat
  remap : Nat → Nat

def Maps.step (aggvars : List Nat) (sortpos : Nat) (m : Maps) (i : Nat) : Maps :=
  let ndx := i + sortpos
  let ndx := if ndx ≥ aggvars.length then ndx - aggvars.length else ndx
  let aggvar := aggvars.getD ndx 0
  if m.map aggvar ≠ 0 then { m with remap := update m.remap i (m.map aggvar) }
  else { m with map := update m.map aggvar (i + 1) }

def Maps.of (aggvars : List Nat) (sortpos : Nat) : Maps :=
  (List.range aggvars.length).foldl (Maps.step aggvars sortpos) ⟨fun _ => 0, fun _ => 0⟩

/-! ## Zero-filled data -/

/-- The first pass: the data of each variable is that of its first entry. -/
def zaggStep (map : Nat → Nat) (zagg : List (Option Entry)) (h : Entry) : List (Option Entry) :=
  if map h.aggid = 0 then zagg
  else if zagg[map h.aggid - 1]?.join = none then zagg.set (map h.aggid - 1) (some h)
  else zagg

/-- The search for the description of a variable, from identifier `j` on. -/
def findDesc (adesc : List (Option Desc)) (aggvar : Nat) : Nat → Nat → Option Desc
  | 0, _ => none
  | fuel + 1, j =>
    match dtAggidLookup adesc j with
    | none => none
    | some agg => if agg.varid = aggvar then some agg else findDesc adesc aggvar fuel (j + 1)

/-- The first data whose description has a size; a missing description before it is read. -/
def firstSized : List (Option Entry) → Option Entry
  | some e :: zagg => if e.desc.dsize ≠ 0 then some e else firstSized zagg
  | _ => none

/-- A variable without any entry; `none` is a read of a missing description. -/
def holeStep (adesc : List (Option Desc)) (aggvars : List Nat) (sortpos : Nat)
    (zagg : List (Option Entry)) (i : Nat) : Option (List (Option Entry)) :=
  match zagg[i]?.join with
  | some _ => some zagg
  | none =>
    let aggvar := aggvars.getD ((i + aggvars.length - sortpos) % aggvars.length) 0
    match findDesc adesc aggvar adesc.length 1 with
    | some agg => some (zagg.set i (some { desc := agg, key := [], data := [] }))
    | none => (firstSized zagg).map fun e => zagg.set i (some e)

def zeroFill (e : Entry) : Entry := { e with data := List.replicate e.desc.dsize 0 }

/-! ## Bundles -/

/-- The entries of one key, by position, and the first of them. -/
structure Bundle where
  vals : List (Option Entry)
  key : Entry
  deriving DecidableEq, Repr

/-- A position without an entry. -/
def fillStep (remap : Nat → Nat) (zagg : List (Option Entry)) (nbundle : List (Option Entry))
    (j : Nat) : List (Option Entry) :=
  match nbundle[j]?.join with
  | some _ => nbundle
  | none =>
    if remap j ≠ 0 then nbundle.set j nbundle[remap j - 1]?.join else nbundle.set j zagg[j]?.join

def makeBundle (m : Maps) (zagg : List (Option Entry)) (naggvars : Nat) (first : Entry)
    (entries : List Entry) : Bundle where
  vals := (List.range naggvars).foldl (fillStep m.remap zagg)
    (entries.foldl (fun nbundle h => nbundle.set (m.map h.aggid - 1) (some h))
      (List.replicate naggvars none))
  key := first

/-- The storage of the sorted entries, which is used again for the bundles. -/
inductive Slot
  | ent (h : Entry)
  | bundle (b : Bundle)
  deriving DecidableEq, Repr

def Slot.toEntry : Slot → Option Entry
  | .ent h => some h
  | .bundle _ => none

def Slot.toBundle : Slot → Option Bundle
  | .ent _ => none
  | .bundle b => some b

structure Bundling where
  slots : List Slot
  start : Nat
  nbundles : Nat

/-- Whether entry `i` has the key of the one before it; `none` is a bundle that is taken for an
entry. -/
def Bundling.same (nentries : Nat) (s : Bundling) (i : Nat) : Option Bool :=
  if i < nentries then do
    let l ← s.slots[i]?.bind Slot.toEntry
    let r ← s.slots[i - 1]?.bind Slot.toEntry
    pure (decide (dtAggregateKeycmp 0 l r = .eq))
  else some false

/-- The bundle of the entries from `start` to the one before `i` takes the next slot. -/
def Bundling.add (make : Entry → List Entry → Bundle) (s : Bundling) (i : Nat) :
    Option Bundling := do
  let entries ← ((s.slots.drop s.start).take (i - s.start)).mapM Slot.toEntry
  let first ← entries.head?
  pure { slots := s.slots.set s.nbundles (.bundle (make first entries))
         start := i
         nbundles := s.nbundles + 1 }

/-- One round of the loop. -/
def Bundling.step (make : Entry → List Entry → Bundle) (nentries : Nat) (s : Bundling) (i : Nat) :
    Option Bundling := do
  if ← s.same nentries i then pure s else s.add make i

def bundles (make : Entry → List Entry → Bundle) (sorted : List Entry) : Option (List Bundle) := do
  let s ← (List.range' 1 sorted.length).foldlM (Bundling.step make sorted.length)
    { slots := sorted.map .ent, start := 0, nbundles := 0 }
  (s.slots.take s.nbundles).mapM Slot.toBundle

/-! ## The walk -/

/-- One call of the function: the data of the key, then of the variables. -/
structure Call where
  key : Entry
  slots : List (Option Entry)
  deriving DecidableEq, Repr

def callOf (naggvars sortpos : Nat) (b : Bundle) : Call where
  key := b.key
  slots := (List.range naggvars).map fun j =>
    b.vals[if j < sortpos then j + naggvars - sortpos else j - sortpos]?.join

inductive Result
  | badAggvar
  | crash
  | done (calls : List Call)
  deriving DecidableEq, Repr

/-- The sort position that is used: one that is not set or too large stands for 0. -/
def sortposOf (naggvars : Nat) (option : Option Nat) : Nat :=
  match option with
  | some sortpos => if sortpos ≥ naggvars then 0 else sortpos
  | none => 0

/-- The C library's `qsort`, which does not return when a comparison does not; the comparison of
two values; and the options `aggsortkey`, `aggsortkeypos` and `aggsortrev`. -/
structure Sorts where
  entries : (Entry → Entry → Int) → List Entry → List Entry
  bundles : (Bundle → Bundle → Option Int) → List Bundle → Option (List Bundle)
  valcmp : Entry → Entry → Int
  keysort : Bool
  keypos : Nat
  revsort : Bool

/-- The number of values in the data of `stddev()`, behind the counter. -/
def Entry.count (h : Entry) : Nat :=
  Nat.ofDigits 256 (((h.data.drop 8).take 8).map (·.toNat))

/-- `dt_aggregate_valcmp`. `dt_stddev` divides by the number of values: without any, the assertion
of `dt_divide_128` fails. -/
def dtAggregateValcmp (sorts : Sorts) (l r : Entry) : Option Int :=
  if l.desc.action = .stddev ∧ r.desc.action = .stddev ∧ (l.count = 0 ∨ r.count = 0) then none
  else some (sorts.valcmp l r)

/-- The loop of `dt_aggregate_bundlecmp` over the values. -/
def valsCmp (sorts : Sorts) : List (Option Entry × Option Entry) → Option Int
  | [] => some 0
  | (some l, some r) :: rest =>
    (dtAggregateValcmp sorts l r).bind fun rval => if rval ≠ 0 then some rval else valsCmp sorts rest
  | _ :: _ => none

/-- `dt_aggregate_bundlecmp` -/
def dtAggregateBundlecmp (sorts : Sorts) (l r : Bundle) : Option Int :=
  let keycmp := signOf (dtAggregateKeycmp sorts.keypos l.key r.key)
  let keycmp := if sorts.revsort then -keycmp else keycmp
  if sorts.keysort ∧ keycmp ≠ 0 then some keycmp
  else
    (valsCmp sorts (l.vals.zip r.vals)).map fun rval =>
      if rval ≠ 0 then rval else if sorts.keysort then 0 else keycmp

/-- `dtrace_aggregate_walk_joined`, with the calls of a function that never stops the walk. -/
def dtraceAggregateWalkJoined (sorts : Sorts) (adesc : List (Option Desc)) (hash : List Entry)
    (aggvars : List Nat) (option : Option Nat) : Result :=
  let n := aggvars.length
  let sortpos := sortposOf n option
  if 0 ∈ aggvars then .badAggvar
  else
    let m := Maps.of aggvars sortpos
    let zagg := hash.foldl (zaggStep m.map) (List.replicate n none)
    let entries := hash.filter fun h => m.map h.aggid ≠ 0
    if entries.length = 0 then .done []
    else
      match (List.range n).foldlM (holeStep adesc aggvars sortpos) zagg with
      | none => .crash
      | some zagg =>
        let zagg := zagg.map (Option.map zeroFill)
        let sorted := sorts.entries (fun l r => signOf (dtAggregateKeyvarcmp 0 l r)) entries
        match bundles (makeBundle m zagg n) sorted with
        | none => .crash
        | some bundles =>
          match sorts.bundles (dtAggregateBundlecmp sorts) bundles with
          | none => .crash
          | some bundles => .done (bundles.map (callOf n sortpos))

/-! ## Order of the keys -/

section Order

instance : Std.TransCmp recCmp := inferInstanceAs (Std.TransCmp (compareLex _ _))

theorem recValues_inj {l r : List UInt8} (hlen : l.length = r.length)
    (h : recValues l = recValues r) : l = r := by
  have hmap : l.map (·.toNat) = r.map (·.toNat) := by
    rw [recValues, recValues, hlen] at h
    split at h
    · have hlt : ∀ (d : List UInt8), ∀ x ∈ d.map (·.toNat), x < 256 := fun d x hx => by
        obtain ⟨b, -, rfl⟩ := mem_map.mp hx
        exact b.toNat_lt
      exact ofDigits_inj_of_len_eq (by decide) (by simpa using hlen) (hlt l) (hlt r)
        (singleton_inj.mp h)
    · exact h
  exact map_injective_iff.mpr (fun _ _ h => UInt8.toNat_inj.mp h) hmap

instance : Std.LawfulEqCmp recCmp where
  compare_self := by simp [recCmp, compareLex, compareOn]
  eq_of_compare {l r} h := by
    simp only [recCmp, compareLex, compareOn, Ordering.then_eq_eq, Std.compare_eq_iff_eq] at h
    exact recValues_inj h.1 h.2

variable {k : Nat}

instance : Std.TransCmp fun l r : Entry =>
    List.compareLex recCmp (keyFrom k l.key) (keyFrom k r.key) where
  eq_swap := Std.OrientedCmp.eq_swap
  isLE_trans := Std.TransCmp.isLE_trans

instance : Std.TransCmp (dtAggregateKeycmp k) :=
  inferInstanceAs (Std.TransCmp (compareLex (compareOn (·.key.length))
    fun l r : Entry => List.compareLex recCmp (keyFrom k l.key) (keyFrom k r.key)))

instance : Std.TransCmp (dtAggregateKeyvarcmp k) :=
  inferInstanceAs (Std.TransCmp (compareLex (dtAggregateKeycmp k) (compareOn Entry.aggid)))

theorem keyFrom_inj {l r : List (List UInt8)} (hlen : l.length = r.length)
    (h : keyFrom k l = keyFrom k r) : l = r := by
  rw [keyFrom, keyFrom, hlen] at h
  split at h
  · exact h
  · exact rotate_injective k h

theorem keycmp_eq_iff {l r : Entry} : dtAggregateKeycmp k l r = .eq ↔ l.key = r.key := by
  rw [dtAggregateKeycmp, Ordering.then_eq_eq, Std.compare_eq_iff_eq, Std.LawfulEqCmp.compare_eq_iff_eq]
  exact ⟨fun h => keyFrom_inj h.1 h.2, fun h => by rw [h]; exact ⟨rfl, rfl⟩⟩

theorem isLE_keycmp_of_keyvarcmp {l r : Entry} (h : (dtAggregateKeyvarcmp k l r).isLE = true) :
    (dtAggregateKeycmp k l r).isLE = true := by
  rw [dtAggregateKeyvarcmp] at h
  cases hk : dtAggregateKeycmp k l r <;> simp_all

/-- Between two equal keys there are only equal ones. -/
theorem key_eq_of_between {x y z : Entry} (hxy : (dtAggregateKeycmp k x y).isLE = true)
    (hyz : (dtAggregateKeycmp k y z).isLE = true) (h : x.key = z.key) : x.key = y.key := by
  have hzx : (dtAggregateKeycmp k z x).isLE = true := by
    rw [keycmp_eq_iff.mpr h.symm]
    rfl
  have hyx : (dtAggregateKeycmp k y x).isLE = true := Std.TransCmp.isLE_trans hyz hzx
  have hswap : dtAggregateKeycmp k y x = (dtAggregateKeycmp k x y).swap := Std.OrientedCmp.eq_swap
  rw [← keycmp_eq_iff]
  cases hc : dtAggregateKeycmp k x y <;> simp_all

end Order

/-! ## Positions

Rotations by the sort position, forwards and backwards, modulo the number of variables. -/

section Maps

variable {aggvars : List Nat} {sortpos : Nat}

/-- The variable at position `i` of a bundle. -/
def varAt (aggvars : List Nat) (sortpos i : Nat) : Nat :=
  aggvars.getD ((i + sortpos) % aggvars.length) 0

/-- The maps after the first `k` variables. -/
structure MapsOk (aggvars : List Nat) (sortpos : Nat) (m : Maps) (k : Nat) : Prop where
  map_varAt : ∀ i < k, m.map (varAt aggvars sortpos i) = i + 1
  map_other : ∀ a, (∀ i < k, varAt aggvars sortpos i ≠ a) → m.map a = 0
  remap : ∀ i, m.remap i = 0

theorem varAt_inj (hnodup : aggvars.Nodup) {i j : Nat} (hi : i < aggvars.length)
    (hj : j < aggvars.length) (h : varAt aggvars sortpos i = varAt aggvars sortpos j) : i = j := by
  have hpos : 0 < aggvars.length := by omega
  have hmod : (i + sortpos) % aggvars.length = (j + sortpos) % aggvars.length := by
    rw [varAt, varAt, getD_eq_getElem _ _ (mod_lt _ hpos),
      getD_eq_getElem _ _ (mod_lt _ hpos)] at h
    exact (Nodup.getElem_inj_iff hnodup).mp h
  have := Nat.ModEq.add_right_cancel' sortpos hmod
  rwa [Nat.ModEq, mod_eq_of_lt hi, mod_eq_of_lt hj] at this

theorem mapsOk_step (hnodup : aggvars.Nodup) (hs : sortpos < aggvars.length) {m : Maps} {k : Nat}
    (hk : k < aggvars.length) (h : MapsOk aggvars sortpos m k) :
    MapsOk aggvars sortpos (m.step aggvars sortpos k) (k + 1) := by
  have hndx : (if k + sortpos ≥ aggvars.length then k + sortpos - aggvars.length else k + sortpos) =
      (k + sortpos) % aggvars.length := by
    split
    · rw [mod_eq_sub_mod ‹_›, mod_eq_of_lt (by omega)]
    · rw [mod_eq_of_lt (by omega)]
  have hne : ∀ i < k, varAt aggvars sortpos i ≠ varAt aggvars sortpos k := fun i hi heq => by
    have := varAt_inj hnodup (by omega) hk heq
    omega
  have hstep : m.step aggvars sortpos k =
      { m with map := update m.map (varAt aggvars sortpos k) (k + 1) } := by
    simp only [Maps.step, hndx]
    exact if_neg (not_not.mpr (h.map_other _ hne))
  rw [hstep]
  refine ⟨fun i hi => ?_, fun a ha => ?_, h.remap⟩
  · rcases Nat.lt_succ_iff_lt_or_eq.mp hi with hi | rfl
    · exact (update_of_ne (hne i hi) ..).trans (h.map_varAt i hi)
    · exact update_self ..
  · refine (update_of_ne (ha k (lt_succ_self k)).symm ..).trans ?_
    exact h.map_other a fun i hi => ha i (by omega)

theorem mapsOk (hnodup : aggvars.Nodup) (hs : sortpos < aggvars.length) :
    MapsOk aggvars sortpos (Maps.of aggvars sortpos) aggvars.length := by
  have hrun : ∀ k ≤ aggvars.length, MapsOk aggvars sortpos
      ((List.range k).foldl (Maps.step aggvars sortpos) ⟨fun _ => 0, fun _ => 0⟩) k := by
    intro k
    induction k with
    | zero => exact fun _ => ⟨nofun, fun _ _ => rfl, fun _ => rfl⟩
    | succ k ih =>
      intro hk
      rw [range_succ, foldl_append]
      exact mapsOk_step hnodup hs hk (ih (by omega))
  exact hrun _ le_rfl

/-- Every variable has a position. -/
theorem exists_varAt (hs : sortpos < aggvars.length) {a : Nat} (ha : a ∈ aggvars) :
    ∃ i < aggvars.length, varAt aggvars sortpos i = a := by
  obtain ⟨j, hj, rfl⟩ := getElem_of_mem ha
  refine ⟨(j + aggvars.length - sortpos) % aggvars.length, Nat.mod_lt _ (by omega), ?_⟩
  rw [varAt, Nat.mod_add_mod, Nat.sub_add_cancel (by omega), Nat.add_mod_right,
    Nat.mod_eq_of_lt hj, getD_eq_getElem _ _ hj]

theorem varAt_mem {i : Nat} (hi : i < aggvars.length) : varAt aggvars sortpos i ∈ aggvars := by
  have hmod : (i + sortpos) % aggvars.length < aggvars.length := mod_lt _ (by omega)
  rw [varAt, getD_eq_getElem _ _ hmod]
  exact getElem_mem hmod

variable {m : Maps}

theorem MapsOk.map_ne_zero_iff (h : MapsOk aggvars sortpos m aggvars.length)
    (hs : sortpos < aggvars.length) {a : Nat} : m.map a ≠ 0 ↔ a ∈ aggvars := by
  refine ⟨fun hne => ?_, fun ha => ?_⟩
  · by_contra ha
    exact hne (h.map_other a fun i hi heq => ha (heq ▸ varAt_mem hi))
  · obtain ⟨i, hi, rfl⟩ := exists_varAt hs ha
    rw [h.map_varAt i hi]
    exact succ_ne_zero i

/-- The position of a variable is where it is. -/
theorem MapsOk.map_sub_one_eq_iff (h : MapsOk aggvars sortpos m aggvars.length)
    (hs : sortpos < aggvars.length) {a i : Nat} (ha : a ∈ aggvars)
    (hi : i < aggvars.length) : m.map a - 1 = i ↔ a = varAt aggvars sortpos i := by
  obtain ⟨j, hj, rfl⟩ := exists_varAt hs ha
  rw [h.map_varAt j hj, Nat.add_sub_cancel]
  refine ⟨fun heq => by rw [heq], fun heq => ?_⟩
  have := h.map_varAt i hi
  rw [← heq, h.map_varAt j hj] at this
  omega

end Maps

/-! ## Zero-filled data of the variables -/

section Zagg

variable {aggvars : List Nat} {sortpos : Nat} {m : Maps} {adesc : List (Option Desc)}

theorem length_zaggStep (map : Nat → Nat) (zagg : List (Option Entry)) (h : Entry) :
    (zaggStep map zagg h).length = zagg.length := by
  rw [zaggStep]
  split
  · rfl
  · split
    · exact length_set
    · rfl

variable {zagg : List (Option Entry)}

/-- An entry fills the position of its variable when that is still free. -/
theorem getElem?_zaggStep (hm : MapsOk aggvars sortpos m aggvars.length)
    (hs : sortpos < aggvars.length) (hlen : zagg.length = aggvars.length) (h : Entry) {i : Nat}
    (hi : i < aggvars.length) :
    (zaggStep m.map zagg h)[i]?.join =
      (zagg[i]?.join).or (if h.aggid = varAt aggvars sortpos i then some h else none) := by
  rw [zaggStep]
  by_cases hmem : h.aggid ∈ aggvars
  · have hne := (hm.map_ne_zero_iff hs).mpr hmem
    have hpos := hm.map_sub_one_eq_iff hs hmem hi
    rw [if_neg hne]
    by_cases heq : h.aggid = varAt aggvars sortpos i
    · rw [hpos.mpr heq, if_pos heq]
      cases hz : zagg[i]?.join with
      | none => rw [if_pos rfl, getElem?_set_self (by omega)]; rfl
      | some e => rw [if_neg (by simp), hz]; rfl
    · rw [if_neg heq, or_none]
      split
      · rw [getElem?_set_ne (fun hc => heq (hpos.mp hc))]
      · rfl
  · have hzero : m.map h.aggid = 0 := not_not.mp (mt (hm.map_ne_zero_iff hs).mp hmem)
    have hne : h.aggid ≠ varAt aggvars sortpos i := fun heq => hmem (heq ▸ varAt_mem hi)
    rw [if_pos hzero, if_neg hne, or_none]

/-- The first pass finds the first entry of every variable. -/
theorem getElem?_zagg (hm : MapsOk aggvars sortpos m aggvars.length)
    (hs : sortpos < aggvars.length) (hash : List Entry) (hlen : zagg.length = aggvars.length)
    {i : Nat} (hi : i < aggvars.length) :
    (hash.foldl (zaggStep m.map) zagg)[i]?.join =
      (zagg[i]?.join).or (hash.find? (·.aggid = varAt aggvars sortpos i)) := by
  induction hash generalizing zagg with
  | nil => exact (or_none ..).symm
  | cons h hash ih =>
    rw [foldl_cons, ih ((length_zaggStep ..).trans hlen), getElem?_zaggStep hm hs hlen h hi]
    by_cases heq : h.aggid = varAt aggvars sortpos i
    · simp [heq]
    · simp [heq]

theorem length_zagg (map : Nat → Nat) (hash : List Entry) (zagg : List (Option Entry)) :
    (hash.foldl (zaggStep map) zagg).length = zagg.length := by
  induction hash generalizing zagg with
  | nil => rfl
  | cons h hash ih => rw [foldl_cons, ih, length_zaggStep]

/-- Identifiers without a gap are all looked at. -/
theorem findDesc_eq {a fuel j : Nat} (hj : j ≤ a) (hfuel : a < j + fuel)
    (h : ∀ k, j ≤ k → k ≤ a → ∃ d, dtAggidLookup adesc k = some d ∧ d.varid = k) :
    findDesc adesc a fuel j = dtAggidLookup adesc a := by
  induction fuel generalizing j with
  | zero => omega
  | succ fuel ih =>
    obtain ⟨d, hd, hvarid⟩ := h j (le_refl j) hj
    rw [findDesc, hd]
    dsimp only
    rcases eq_or_lt_of_le hj with rfl | hlt
    · rw [if_pos hvarid, hd]
    · rw [if_neg (by omega)]
      exact ih hlt (by omega) fun k h1 h2 => h k (by omega) h2

/-- The variable whose description is looked up for position `i`. -/
def holeVar (aggvars : List Nat) (sortpos i : Nat) : Nat :=
  aggvars.getD ((i + aggvars.length - sortpos) % aggvars.length) 0

/-- The data of position `i` after the holes are filled. -/
def filled (adesc : List (Option Desc)) (aggvars : List Nat) (sortpos : Nat) (e : Option Entry)
    (i : Nat) : Option Entry :=
  e.or ((dtAggidLookup adesc (holeVar aggvars sortpos i)).map fun d => ⟨d, [], []⟩)

/-- What is at a position already stays there. -/
theorem set_join_self {l : List (Option Entry)} {i : Nat} {e : Entry} (h : l[i]?.join = some e) :
    l.set i (some e) = l := by
  obtain ⟨_, hget⟩ := List.getElem?_eq_some_iff.mp (Option.join_eq_some_iff.mp h)
  rw [← hget, set_getElem_self]

theorem holeStep_eq {i : Nat} {d : Desc}
    (hfind : findDesc adesc (holeVar aggvars sortpos i) adesc.length 1 =
      dtAggidLookup adesc (holeVar aggvars sortpos i))
    (hd : dtAggidLookup adesc (holeVar aggvars sortpos i) = some d) :
    holeStep adesc aggvars sortpos zagg i =
      some (zagg.set i (filled adesc aggvars sortpos zagg[i]?.join i)) := by
  rw [holeStep, filled]
  cases hz : zagg[i]?.join with
  | some e => exact congrArg some (set_join_self hz).symm
  | none =>
    dsimp only
    rw [show aggvars.getD ((i + aggvars.length - sortpos) % aggvars.length) 0 =
      holeVar aggvars sortpos i from rfl, hfind, hd]
    rfl

/-- A loop that sets one position after the other from what is there. -/
theorem foldlM_set (step : List (Option Entry) → Nat → Option (List (Option Entry)))
    (f : Nat → Option Entry → Option Entry)
    (h : ∀ l i, i < zagg.length → step l i = some (l.set i (f i l[i]?.join))) :
    ∃ l, (List.range zagg.length).foldlM step zagg = some l ∧ l.length = zagg.length ∧
      ∀ i < zagg.length, l[i]?.join = f i zagg[i]?.join := by
  -- After `k` rounds the first `k` positions are set.
  have hrun : ∀ k ≤ zagg.length, ∃ l, (List.range k).foldlM step zagg = some l ∧
      l.length = zagg.length ∧ (∀ i < k, l[i]?.join = f i zagg[i]?.join) ∧
      ∀ i, k ≤ i → l[i]? = zagg[i]? := by
    intro k
    induction k with
    | zero => exact fun _ => ⟨zagg, rfl, rfl, nofun,
        fun _ _ => rfl⟩
    | succ k ih =>
      intro hk
      obtain ⟨l, hfold, hlen, hdone, hrest⟩ := ih (by omega)
      refine ⟨l.set k (f k l[k]?.join), ?_, length_set.trans hlen, fun i hi => ?_,
        fun i hi => ?_⟩
      · rw [range_succ, foldlM_append, hfold]
        exact (bind_pure _).trans (h l k hk)
      · rcases Nat.lt_succ_iff_lt_or_eq.mp hi with hi | rfl
        · rw [getElem?_set_ne (by omega)]
          exact hdone i hi
        · rw [getElem?_set_self (by omega), hrest i (le_refl i)]
          rfl
      · rw [getElem?_set_ne (by omega)]
        exact hrest i (by omega)
  obtain ⟨l, h1, h2, h3, -⟩ := hrun _ le_rfl
  exact ⟨l, h1, h2, h3⟩

end Zagg

/-! ## Bundles of the sorted entries

The loop writes bundles over entries that it has passed. The invariant (`BundlesOk`) says that this
never reaches the entries from `start` on. -/

section Bundles

variable {make : Entry → List Entry → Bundle} {sorted : List Entry}

/-- The entries of one key, of which there is at least one. -/
abbrev Group := Entry × List Entry

def Group.entries (g : Group) : List Entry := g.1 :: g.2

/-- The storage before round `i`: the bundles of the groups `gs`, and from `start` on the entries
that are not bundled yet, of which those before `i` have the same key. -/
structure BundlesOk (make : Entry → List Entry → Bundle) (sorted : List Entry) (s : Bundling)
    (gs : List Group) (i : Nat) : Prop where
  length : s.slots.length = sorted.length
  start_lt : s.start < i
  full : sorted.length < i → s.start = sorted.length
  nbundles : s.nbundles = gs.length
  nbundles_le : gs.length ≤ s.start
  bundled : s.slots.take gs.length = gs.map fun g => .bundle (make g.1 g.entries)
  rest : s.slots.drop s.start = (sorted.drop s.start).map .ent
  flat : gs.flatMap Group.entries = sorted.take s.start
  same : ∀ x ∈ (sorted.drop s.start).take (i - s.start),
    ∀ y ∈ (sorted.drop s.start).take (i - s.start), x.key = y.key
  groups : ∀ g ∈ gs, ∀ x ∈ g.entries, x.key = g.1.key
  apart : ∀ x ∈ sorted.take s.start, ∀ y ∈ sorted.drop s.start, x.key ≠ y.key
  distinct : gs.Pairwise fun g g' => g.1.key ≠ g'.1.key

theorem bundlesOk_init :
    BundlesOk make sorted { slots := sorted.map .ent, start := 0, nbundles := 0 } [] 1 where
  length := length_map ..
  start_lt := one_pos
  full h := by
    dsimp only
    omega
  nbundles := rfl
  nbundles_le := le_rfl
  bundled := rfl
  rest := rfl
  flat := rfl
  same x hx y hy := by
    cases sorted with
    | nil => simp at hx
    | cons h t => rw [mem_singleton.mp hx, mem_singleton.mp hy]
  groups g hg := by simp at hg
  apart x hx := by simp at hx
  distinct := .nil

variable {s : Bundling} {gs : List Group} {i : Nat}

theorem BundlesOk.getElem? (h : BundlesOk make sorted s gs i) {k : Nat} (hk : s.start ≤ k)
    (hlt : k < sorted.length) : s.slots[k]?.bind Slot.toEntry = some sorted[k] := by
  have hget : s.slots[k]? = (s.slots.drop s.start)[k - s.start]? := by
    rw [getElem?_drop, Nat.add_sub_cancel' hk]
  rw [hget, h.rest, getElem?_map, getElem?_drop, Nat.add_sub_cancel' hk,
    getElem?_eq_getElem hlt]
  rfl

/-- Entries with the same key stay where they are. -/
theorem BundlesOk.extend (h : BundlesOk make sorted s gs i) (hi : i < sorted.length)
    (hkey : sorted[i].key = sorted[i - 1].key) : BundlesOk make sorted s gs (i + 1) := by
  have hstart := h.start_lt
  have hsub : i + 1 - s.start = i - s.start + 1 := by omega
  have hlast : sorted[i - 1] ∈ (sorted.drop s.start).take (i - s.start) := by
    rw [mem_take_iff_getElem]
    refine ⟨i - 1 - s.start, by rw [length_drop]; omega, ?_⟩
    rw [getElem_drop]
    congr 1
    omega
  have hnew : (sorted.drop s.start).take (i + 1 - s.start) =
      (sorted.drop s.start).take (i - s.start) ++ [sorted[i]] := by
    rw [hsub, take_add_one, getElem?_drop, Nat.add_sub_cancel' hstart.le,
      getElem?_eq_getElem hi]
    rfl
  have hold : ∀ x ∈ (sorted.drop s.start).take (i + 1 - s.start), x.key = sorted[i - 1].key := by
    intro x hx
    rw [hnew, mem_append, mem_singleton] at hx
    rcases hx with hx | rfl
    · exact h.same x hx _ hlast
    · exact hkey
  exact
    { h with
      start_lt := by omega
      full := fun hlt => by omega
      same := fun x hx y hy => (hold x hx).trans (hold y hy).symm }

theorem mapM_map_eq_some {α β : Type} {f : α → β} {g : β → Option α} (h : ∀ x, g (f x) = some x)
    (xs : List α) : (xs.map f).mapM g = some xs := by
  induction xs with
  | nil => rfl
  | cons x xs ih => rw [map_cons, mapM_cons, ih, h]; rfl

/-- The keys of sorted entries change at most once between two equal ones. -/
theorem apart_of_boundary
    (hsorted : sorted.Pairwise fun x y => (dtAggregateKeycmp 0 x y).isLE = true)
    (hi : 0 < i) (hlt : i < sorted.length) (hkey : sorted[i].key ≠ sorted[i - 1].key) :
    ∀ x ∈ sorted.take i, ∀ y ∈ sorted.drop i, x.key ≠ y.key := by
  have hle : ∀ a b (hab : a ≤ b) (hb : b < sorted.length),
      (dtAggregateKeycmp 0 sorted[a] sorted[b]).isLE = true := fun a b hab hb => by
    rcases eq_or_lt_of_le hab with rfl | hab
    · rw [keycmp_eq_iff.mpr rfl]
      rfl
    · exact pairwise_iff_getElem.mp hsorted a b _ hb hab
  intro x hx y hy hxy
  obtain ⟨a, _, rfl⟩ := mem_take_iff_getElem.mp hx
  obtain ⟨b, hb, rfl⟩ := mem_drop_iff_getElem.mp hy
  have h1 := key_eq_of_between (hle a (i - 1) (by omega) (by omega))
    (hle (i - 1) (b + i) (by omega) (by omega)) (by simpa [add_comm] using hxy)
  have h2 := key_eq_of_between (hle a i (by omega) (by omega))
    (hle i (b + i) (by omega) (by omega)) (by simpa [add_comm] using hxy)
  exact hkey (h2.symm.trans h1)

/-- A bundle is written over entries that are bundled already, or over its own first one. -/
theorem BundlesOk.add (h : BundlesOk make sorted s gs i) (hi : i ≤ sorted.length)
    (hapart : ∀ x ∈ sorted.take i, ∀ y ∈ sorted.drop i, x.key ≠ y.key) :
    ∃ s' gs', s.add make i = some s' ∧ BundlesOk make sorted s' gs' (i + 1) := by
  have hstart := h.start_lt
  have hle := h.nbundles_le
  have hlen := h.length
  -- The entries of the new group.
  obtain ⟨g, hg⟩ : ∃ g : Group, g.entries = (sorted.drop s.start).take (i - s.start) := by
    cases hc : (sorted.drop s.start).take (i - s.start) with
    | nil =>
      have := congrArg List.length hc
      rw [length_take, length_drop, length_nil] at this
      omega
    | cons x xs => exact ⟨(x, xs), rfl⟩
  have hentries : ((s.slots.drop s.start).take (i - s.start)).mapM Slot.toEntry =
      some g.entries := by
    rw [h.rest, ← map_take, ← hg]
    exact mapM_map_eq_some (f := Slot.ent) (fun _ => rfl) _
  refine ⟨{ slots := s.slots.set s.nbundles (.bundle (make g.1 g.entries))
            start := i
            nbundles := s.nbundles + 1 }, gs ++ [g], ?_, ?_⟩
  · rw [Bundling.add, hentries]
    rfl
  have htake : sorted.take s.start ++ g.entries = sorted.take i := by
    rw [hg, ← take_add, Nat.add_sub_cancel' hstart.le]
  have hlen' : (gs ++ [g]).length = gs.length + 1 := length_append
  constructor
  case length => exact length_set.trans hlen
  case start_lt => exact Nat.lt_succ_self i
  case full => intro hlt; exact Nat.le_antisymm hi (Nat.lt_succ_iff.mp hlt)
  case nbundles => rw [hlen', h.nbundles]
  case nbundles_le => rw [hlen']; exact succ_le_of_lt (lt_of_le_of_lt hle hstart)
  case bundled =>
    rw [hlen', map_append, ← h.bundled, take_add_one, h.nbundles,
      take_set_of_le le_rfl, getElem?_set_self (by omega)]
    rfl
  case rest =>
    have hdrop : s.slots.drop i = (sorted.drop i).map .ent := by
      have := congrArg (List.drop (i - s.start)) h.rest
      rwa [drop_drop, ← map_drop, drop_drop, Nat.add_sub_cancel' hstart.le] at this
    have hlt : s.nbundles < i := by
      have := h.nbundles
      omega
    rw [← hdrop]
    exact drop_set_of_lt hlt
  case flat => rw [flatMap_append, h.flat, flatMap_singleton, htake]
  case same =>
    intro x hx y hy
    rw [Nat.add_sub_cancel_left] at hx hy
    cases hc : sorted.drop i with
    | nil => simp [hc] at hx
    | cons z zs =>
      rw [hc] at hx hy
      rw [mem_singleton.mp hx, mem_singleton.mp hy]
  case groups =>
    intro g' hg'
    rw [mem_append, mem_singleton] at hg'
    rcases hg' with hg' | rfl
    · exact h.groups g' hg'
    · intro x hx
      refine h.same x (hg ▸ hx) _ (hg ▸ mem_cons_self ..)
  case apart => exact hapart
  case distinct =>
    rw [pairwise_append]
    refine ⟨h.distinct, pairwise_singleton .., fun g' hg' g'' hg'' => ?_⟩
    rw [mem_singleton.mp hg'']
    refine h.apart _ ?_ _ ?_
    · rw [← h.flat, mem_flatMap]
      exact ⟨g', hg', mem_cons_self ..⟩
    · have hmem : g.1 ∈ g.entries := mem_cons_self
      rw [hg] at hmem
      exact mem_of_mem_take hmem

theorem BundlesOk.step (h : BundlesOk make sorted s gs i)
    (hsorted : sorted.Pairwise fun x y => (dtAggregateKeycmp 0 x y).isLE = true)
    (hi : i ≤ sorted.length) :
    ∃ s' gs', s.step make sorted.length i = some s' ∧ BundlesOk make sorted s' gs' (i + 1) := by
  have hstart := h.start_lt
  rcases eq_or_lt_of_le hi with rfl | hlt
  · have hsame : s.same sorted.length sorted.length = some false := if_neg (lt_irrefl _)
    obtain ⟨s', gs', hadd, hok⟩ := h.add le_rfl (by simp)
    refine ⟨s', gs', ?_, hok⟩
    rw [Bundling.step, hsame, ← hadd]
    rfl
  · have hsame : s.same sorted.length i =
        some (decide (dtAggregateKeycmp 0 sorted[i] sorted[i - 1] = .eq)) := by
      rw [Bundling.same, if_pos hlt, h.getElem? hstart.le hlt, h.getElem? (by omega) (by omega)]
      rfl
    by_cases hkey : sorted[i].key = sorted[i - 1].key
    · refine ⟨s, gs, ?_, h.extend hlt hkey⟩
      rw [Bundling.step, hsame, decide_eq_true (keycmp_eq_iff.mpr hkey)]
      rfl
    · obtain ⟨s', gs', hadd, hok⟩ := h.add hi (apart_of_boundary hsorted (by omega) hlt hkey)
      refine ⟨s', gs', ?_, hok⟩
      rw [Bundling.step, hsame, decide_eq_false (fun hc => hkey (keycmp_eq_iff.mp hc)), ← hadd]
      rfl

theorem bundlesOk_run (make : Entry → List Entry → Bundle)
    (hsorted : sorted.Pairwise fun x y => (dtAggregateKeycmp 0 x y).isLE = true) {k : Nat}
    (hk : k ≤ sorted.length) :
    ∃ s gs, (List.range' 1 k).foldlM (Bundling.step make sorted.length)
        { slots := sorted.map .ent, start := 0, nbundles := 0 } = some s ∧
      BundlesOk make sorted s gs (k + 1) := by
  induction k with
  | zero => exact ⟨_, [], rfl, bundlesOk_init⟩
  | succ k ih =>
    obtain ⟨s, gs, hfold, hok⟩ := ih (by omega)
    obtain ⟨s', gs', hstep, hok'⟩ := hok.step hsorted hk
    refine ⟨s', gs', ?_, hok'⟩
    rw [range'_concat, foldlM_append, hfold, one_mul, add_comm 1 k]
    exact (bind_pure _).trans hstep

/-- **The loop bundles the entries of each key**, in the storage of the entries. -/
theorem bundles_eq (make : Entry → List Entry → Bundle)
    (hsorted : sorted.Pairwise fun x y => (dtAggregateKeycmp 0 x y).isLE = true) :
    ∃ gs : List Group, bundles make sorted = some (gs.map fun g => make g.1 g.entries) ∧
      gs.flatMap Group.entries = sorted ∧ (∀ g ∈ gs, ∀ x ∈ g.entries, x.key = g.1.key) ∧
      gs.Pairwise fun g g' => g.1.key ≠ g'.1.key := by
  obtain ⟨s, gs, hfold, hok⟩ := bundlesOk_run make hsorted le_rfl
  have hfull := hok.full (lt_succ_self _)
  refine ⟨gs, ?_, ?_, hok.groups, hok.distinct⟩
  · have hmap : s.slots.take s.nbundles =
        (gs.map fun g => make g.1 g.entries).map Slot.bundle := by
      rw [hok.nbundles, hok.bundled, List.map_map]
      rfl
    rw [bundles, hfold]
    exact (congrArg (List.mapM Slot.toBundle) hmap).trans
      (mapM_map_eq_some (f := Slot.bundle) (fun _ => rfl) _)
  · rw [hok.flat, hfull, take_length]

/-- **No entry is lost**: after any number of rounds the entries that are in no bundle are where
they were, behind those that are. -/
theorem unbundled_kept (make : Entry → List Entry → Bundle)
    (hsorted : sorted.Pairwise fun x y => (dtAggregateKeyvarcmp 0 x y).isLE = true) {k : Nat}
    (hk : k ≤ sorted.length) :
    ∃ (s : Bundling) (gs : List Group),
      (List.range' 1 k).foldlM (Bundling.step make sorted.length)
        { slots := sorted.map .ent, start := 0, nbundles := 0 } = some s ∧
      s.slots.take s.nbundles = gs.map (fun g => .bundle (make g.1 g.entries)) ∧
      gs.flatMap Group.entries = sorted.take s.start ∧
      s.slots.drop s.start = (sorted.drop s.start).map .ent := by
  obtain ⟨s, gs, hrun, hok⟩ := bundlesOk_run make (hsorted.imp isLE_keycmp_of_keyvarcmp) hk
  exact ⟨s, gs, hrun, hok.nbundles ▸ hok.bundled, hok.flat, hok.rest⟩

def twoEntries : List Entry := [⟨⟨1, .count, 16⟩, [[7]], []⟩, ⟨⟨1, .count, 16⟩, [[8]], []⟩]

theorem twoEntries_kept : ∃ (s : Bundling) (gs : List Group),
    [1].foldlM (Bundling.step (fun h l => ⟨l.map some, h⟩) 2)
      { slots := twoEntries.map .ent, start := 0, nbundles := 0 } = some s ∧
    s.slots.take s.nbundles = gs.map (fun g => .bundle ⟨g.entries.map some, g.1⟩) ∧
    gs.flatMap Group.entries = twoEntries.take s.start ∧
    s.slots.drop s.start = (twoEntries.drop s.start).map .ent :=
  @unbundled_kept twoEntries _ (by decide) 1 (by decide)

end Bundles

/-! ## Contents of a bundle -/

section Contents

variable {aggvars : List Nat} {sortpos : Nat} {m : Maps}

theorem getElem?_placed (hm : MapsOk aggvars sortpos m aggvars.length)
    (hs : sortpos < aggvars.length) {entries : List Entry}
    (hmem : ∀ h ∈ entries, h.aggid ∈ aggvars) (hnodup : (entries.map (·.aggid)).Nodup)
    {nbundle : List (Option Entry)} (hlen : nbundle.length = aggvars.length) {i : Nat}
    (hi : i < aggvars.length) :
    (entries.foldl (fun nbundle h => nbundle.set (m.map h.aggid - 1) (some h)) nbundle)[i]?.join =
      (entries.find? (·.aggid = varAt aggvars sortpos i)).or nbundle[i]?.join := by
  induction entries generalizing nbundle with
  | nil => rfl
  | cons h entries ih =>
    rw [map_cons, nodup_cons] at hnodup
    have hpos := hm.map_sub_one_eq_iff hs (hmem h mem_cons_self) hi
    rw [foldl_cons, ih (fun h' hh' => hmem h' (mem_cons_of_mem _ hh')) hnodup.2
      (length_set.trans hlen)]
    by_cases heq : h.aggid = varAt aggvars sortpos i
    · have hnone : entries.find? (·.aggid = varAt aggvars sortpos i) = none := by
        rw [find?_eq_none]
        intro h' hh' hc
        refine hnodup.1 (mem_map.mpr ⟨h', hh', ?_⟩)
        rw [heq]
        exact of_decide_eq_true hc
      rw [hnone, hpos.mpr heq, getElem?_set_self (by omega),
        find?_cons_of_pos (by simpa using heq)]
      rfl
    · rw [getElem?_set_ne (fun hc => heq (hpos.mp hc)),
        find?_cons_of_neg (by simpa using heq)]

theorem length_placed (map : Nat → Nat) (entries : List Entry) (nbundle : List (Option Entry)) :
    (entries.foldl (fun nbundle h => nbundle.set (map h.aggid - 1) (some h)) nbundle).length =
      nbundle.length := by
  induction entries generalizing nbundle with
  | nil => rfl
  | cons h entries ih => rw [foldl_cons, ih, length_set]

theorem fillStep_eq {remap : Nat → Nat} (hremap : ∀ i, remap i = 0)
    (zagg nbundle : List (Option Entry)) (j : Nat) :
    fillStep remap zagg nbundle j = nbundle.set j ((nbundle[j]?.join).or zagg[j]?.join) := by
  rw [fillStep]
  cases hz : nbundle[j]?.join with
  | some e => exact (set_join_self hz).symm
  | none =>
    rw [if_neg (not_not.mpr (hremap j)), none_or]

theorem getElem?_fill {remap : Nat → Nat} (hremap : ∀ i, remap i = 0) (zagg : List (Option Entry))
    (nbundle : List (Option Entry)) {i : Nat} (hi : i < nbundle.length) :
    ((List.range nbundle.length).foldl (fillStep remap zagg) nbundle)[i]?.join =
      (nbundle[i]?.join).or zagg[i]?.join := by
  obtain ⟨l, hfold, -, hl⟩ := foldlM_set (fun l j => some (fillStep remap zagg l j))
    (fun j e => e.or zagg[j]?.join) fun l j (_) =>
      congrArg some (fillStep_eq hremap zagg l j)
  rw [some.inj ((foldlM_pure ..).symm.trans hfold), hl i hi]

/-- Every position has the entry of its variable, or the zero-filled data. -/
theorem getElem?_makeBundle (hm : MapsOk aggvars sortpos m aggvars.length)
    (hs : sortpos < aggvars.length) {entries : List Entry}
    (hmem : ∀ h ∈ entries, h.aggid ∈ aggvars) (hnodup : (entries.map (·.aggid)).Nodup)
    (zagg : List (Option Entry)) (first : Entry) {i : Nat} (hi : i < aggvars.length) :
    (makeBundle m zagg aggvars.length first entries).vals[i]?.join =
      (entries.find? (·.aggid = varAt aggvars sortpos i)).or zagg[i]?.join := by
  have hlen := (length_placed m.map entries (List.replicate aggvars.length none)).trans
    length_replicate
  have hfill := getElem?_fill hm.remap zagg _ (hlen.symm ▸ hi)
  rw [hlen] at hfill
  rw [makeBundle, hfill, getElem?_placed hm hs hmem hnodup length_replicate hi,
    getElem?_replicate, if_pos hi]
  simp

end Contents

/-! ## What the walk calls

Put together without the order of the bundles: which keys there are, and what each call holds. -/

/-- The tables and the variables as the compiler and the snapshots leave them: identifiers count
from 1 without a gap, every entry has the description of its variable, and there is one entry for
each variable and key. -/
structure Ready (adesc : List (Option Desc)) (hash : List Entry) (aggvars : List Nat) : Prop where
  nodup : aggvars.Nodup
  ne_zero : 0 ∉ aggvars
  described : ∀ a ∈ aggvars, ∀ j, 1 ≤ j → j ≤ a → ∃ d, dtAggidLookup adesc j = some d ∧ d.varid = j
  entry_desc : ∀ h ∈ hash, dtAggidLookup adesc h.aggid = some h.desc
  distinct : hash.Pairwise fun h h' => ¬(h.aggid = h'.aggid ∧ h.key = h'.key)

/-- The entry of a variable and a key. -/
def dataFor (hash : List Entry) (a : Nat) (key : List (List UInt8)) : Option Entry :=
  hash.find? fun h => h.aggid = a ∧ h.key = key

/-- **A joined walk**: every key is in exactly one call, with the data of each variable, or
zero-filled data with the description of that variable. -/
structure OnePerKey (adesc : List (Option Desc)) (hash : List Entry) (aggvars : List Nat)
    (calls : List Call) : Prop where
  keys_nodup : (calls.map (·.key.key)).Nodup
  mem_keys : ∀ key, key ∈ calls.map (·.key.key) ↔ ∃ h ∈ hash, h.aggid ∈ aggvars ∧ h.key = key
  length : ∀ c ∈ calls, c.slots.length = aggvars.length
  present : ∀ c ∈ calls, ∀ (j a : Nat) (h : Entry), aggvars[j]? = some a → dataFor hash a c.key.key = some h →
    c.slots[j]? = some (some h)
  absent : ∀ c ∈ calls, ∀ j a : Nat, aggvars[j]? = some a → dataFor hash a c.key.key = none →
    ∃ e, c.slots[j]? = some (some e) ∧ dtAggidLookup adesc a = some e.desc ∧
      e.data = List.replicate e.desc.dsize 0

section Walk

variable {adesc : List (Option Desc)} {hash : List Entry} {aggvars : List Nat}

section

variable (h : Ready adesc hash aggvars)

include h

theorem Ready.unique {x y : Entry} (hx : x ∈ hash) (hy : y ∈ hash)
    (hid : x.aggid = y.aggid) (hkey : x.key = y.key) : x = y := by
  have : Std.Symm fun h h' : Entry => ¬(h.aggid = h'.aggid ∧ h.key = h'.key) :=
    ⟨fun _ _ hn hc => hn ⟨hc.1.symm, hc.2.symm⟩⟩
  by_contra hne
  exact h.distinct.forall hx hy hne ⟨hid, hkey⟩

theorem Ready.dataFor_eq {x : Entry} (hx : x ∈ hash) :
    dataFor hash x.aggid x.key = some x := by
  cases hf : dataFor hash x.aggid x.key with
  | none => exact absurd (find?_eq_none.mp hf x hx) (by simp)
  | some y =>
    have hy : y.aggid = x.aggid ∧ y.key = x.key := by
      have := find?_some hf
      simpa using this
    rw [h.unique (mem_of_find?_eq_some hf) hx hy.1 hy.2]

/-- A group that has all entries of its key finds the data of a variable. -/
theorem Ready.find?_eq_dataFor {entries : List Entry}
    {key : List (List UInt8)} {a : Nat} (hmem : ∀ x ∈ entries, x ∈ hash ∧ x.key = key)
    (hall : ∀ x ∈ hash, x.aggid = a → x.key = key → x ∈ entries) :
    entries.find? (·.aggid = a) = dataFor hash a key := by
  cases hf : entries.find? (·.aggid = a) with
  | some x =>
    obtain ⟨hx, hkey⟩ := hmem x (mem_of_find?_eq_some hf)
    have ha : x.aggid = a := by simpa using find?_some hf
    rw [← ha, ← hkey, h.dataFor_eq hx]
  | none =>
    refine (find?_eq_none.mpr fun x hx hc => ?_).symm
    obtain ⟨ha, hkey⟩ := of_decide_eq_true hc
    exact find?_eq_none.mp hf x (hall x hx ha hkey) (decide_eq_true ha)

end

/-- The entries of one group are of different variables. -/
theorem nodup_aggids {entries : List Entry} {key : List (List UInt8)}
    (hdistinct : entries.Pairwise fun h h' => ¬(h.aggid = h'.aggid ∧ h.key = h'.key))
    (hkey : ∀ x ∈ entries, x.key = key) : (entries.map (·.aggid)).Nodup := by
  rw [List.Nodup, pairwise_map]
  refine hdistinct.imp_of_mem fun {x y} hx hy hne heq => hne ⟨heq, ?_⟩
  rw [hkey x hx, hkey y hy]

/-- The zero-filled data of position `i`. -/
def zeroData (adesc : List (Option Desc)) (hash : List Entry) (aggvars : List Nat)
    (sortpos i : Nat) : Option Entry :=
  (filled adesc aggvars sortpos (hash.find? (·.aggid = varAt aggvars sortpos i)) i).map zeroFill

/-- The position of `aggvars[j]` in a bundle. -/
def posOf (naggvars sortpos j : Nat) : Nat :=
  if j < sortpos then j + naggvars - sortpos else j - sortpos

variable {naggvars j : Nat}

theorem posOf_lt {sortpos : Nat} (hs : sortpos < naggvars) (hj : j < naggvars) :
    posOf naggvars sortpos j < naggvars := by
  rw [posOf]
  split <;> omega

theorem posOf_add {sortpos : Nat} (hs : sortpos < naggvars) (hj : j < naggvars) :
    (posOf naggvars sortpos j + sortpos) % naggvars = j := by
  rw [posOf]
  split
  · rw [Nat.sub_add_cancel (by omega), Nat.add_mod_right, Nat.mod_eq_of_lt hj]
  · rw [Nat.sub_add_cancel (by omega), Nat.mod_eq_of_lt hj]

theorem varAt_posOf {sortpos : Nat} (hs : sortpos < aggvars.length) (hj : j < aggvars.length) :
    varAt aggvars sortpos (posOf aggvars.length sortpos j) = aggvars[j] := by
  rw [varAt, posOf_add hs hj, getD_eq_getElem _ _ hj]

/-- The data at position `i` of the bundle of a key. -/
def valAt (adesc : List (Option Desc)) (hash : List Entry) (aggvars : List Nat) (sortpos : Nat)
    (key : List (List UInt8)) (i : Nat) : Option Entry :=
  (dataFor hash (varAt aggvars sortpos i) key).or (zeroData adesc hash aggvars sortpos i)

/-- One bundle for each key. -/
structure BundlesOf (adesc : List (Option Desc)) (hash : List Entry) (aggvars : List Nat)
    (sortpos : Nat) (bs : List Bundle) : Prop where
  keys_nodup : (bs.map (·.key.key)).Nodup
  mem_keys : ∀ key, key ∈ bs.map (·.key.key) ↔ ∃ h ∈ hash, h.aggid ∈ aggvars ∧ h.key = key
  vals : ∀ b ∈ bs, b.vals =
    (List.range aggvars.length).map (valAt adesc hash aggvars sortpos b.key.key)

/-- What the walk calls, whatever the holes. -/
structure Walked (adesc : List (Option Desc)) (hash : List Entry) (aggvars : List Nat)
    (sortpos : Nat) (calls : List Call) : Prop where
  keys_nodup : (calls.map (·.key.key)).Nodup
  mem_keys : ∀ key, key ∈ calls.map (·.key.key) ↔ ∃ h ∈ hash, h.aggid ∈ aggvars ∧ h.key = key
  length : ∀ c ∈ calls, c.slots.length = aggvars.length
  slot : ∀ c ∈ calls, ∀ (j : Nat) (hj : j < aggvars.length), c.slots[j]? =
    some ((dataFor hash aggvars[j] c.key.key).or
      (zeroData adesc hash aggvars sortpos (posOf aggvars.length sortpos j)))

variable {sortpos : Nat} {m : Maps} {zagg : List (Option Entry)} {sorted : List Entry}
  {bs bs' : List Bundle}

theorem BundlesOf.perm (h : BundlesOf adesc hash aggvars sortpos bs) (hperm : bs'.Perm bs) :
    BundlesOf adesc hash aggvars sortpos bs' where
  keys_nodup := (hperm.map _).nodup_iff.mpr h.keys_nodup
  mem_keys key := (hperm.map _).mem_iff.trans (h.mem_keys key)
  vals b hb := h.vals b (hperm.mem_iff.mp hb)

/-- The calls rotate the positions back. -/
theorem BundlesOf.walked (h : BundlesOf adesc hash aggvars sortpos bs)
    (hs : sortpos < aggvars.length) :
    Walked adesc hash aggvars sortpos (bs.map (callOf aggvars.length sortpos)) := by
  have hkeys : (bs.map (callOf aggvars.length sortpos)).map (·.key.key) = bs.map (·.key.key) := by
    rw [List.map_map]
    rfl
  refine ⟨hkeys ▸ h.keys_nodup, fun key => hkeys ▸ h.mem_keys key, fun c hc => ?_,
    fun c hc j hj => ?_⟩
  · obtain ⟨b, -, rfl⟩ := mem_map.mp hc
    rw [callOf, length_map, length_range]
  · obtain ⟨b, hb, rfl⟩ := mem_map.mp hc
    rw [callOf, getElem?_map, getElem?_range hj]
    show some (b.vals[posOf aggvars.length sortpos j]?.join) = _
    rw [h.vals b hb, getElem?_map, getElem?_range (posOf_lt hs hj)]
    show some (valAt adesc hash aggvars sortpos b.key.key _) = _
    rw [valAt, varAt_posOf hs hj]

theorem length_makeBundle (m : Maps) (zagg : List (Option Entry)) (n : Nat) (first : Entry)
    (entries : List Entry) : (makeBundle m zagg n first entries).vals.length = n := by
  have hfill : ∀ (is : List Nat) (nbundle : List (Option Entry)),
      (is.foldl (fillStep m.remap zagg) nbundle).length = nbundle.length := by
    intro is
    induction is with
    | nil => exact fun _ => rfl
    | cons i is ih =>
      intro nbundle
      rw [foldl_cons, ih, fillStep]
      split
      · rfl
      · split <;> exact length_set
  rw [makeBundle, hfill, length_placed, length_replicate]

/-- The bundles of sorted entries. -/
theorem bundlesOf_sorted (h : Ready adesc hash aggvars) (hs : sortpos < aggvars.length)
    (hm : MapsOk aggvars sortpos m aggvars.length)
    (hperm : sorted.Perm (hash.filter fun x => m.map x.aggid ≠ 0))
    (hzagg : ∀ i < aggvars.length, zagg[i]?.join = zeroData adesc hash aggvars sortpos i)
    {gs : List Group} (hflat : gs.flatMap Group.entries = sorted)
    (hgroup : ∀ g ∈ gs, ∀ x ∈ g.entries, x.key = g.1.key)
    (hgs : gs.Pairwise fun g g' => g.1.key ≠ g'.1.key) :
    BundlesOf adesc hash aggvars sortpos
      (gs.map fun g => makeBundle m zagg aggvars.length g.1 g.entries) := by
  have hmem : ∀ x, (∃ g ∈ gs, x ∈ g.entries) ↔ x ∈ hash ∧ x.aggid ∈ aggvars := fun x => by
    rw [← mem_flatMap, hflat, hperm.mem_iff, mem_filter, decide_eq_true_iff,
      hm.map_ne_zero_iff hs]
  have hkeys : (gs.map fun g => makeBundle m zagg aggvars.length g.1 g.entries).map (·.key.key) =
      gs.map (·.1.key) := by
    rw [List.map_map]
    rfl
  have hnodup : (gs.map (·.1.key)).Nodup := pairwise_map.mpr hgs
  -- A group has all entries of its key.
  have hall : ∀ g ∈ gs, ∀ x ∈ hash, x.aggid ∈ aggvars → x.key = g.1.key → x ∈ g.entries := by
    intro g hg x hx ha hkey
    obtain ⟨g', hg', hxg'⟩ := (hmem x).mpr ⟨hx, ha⟩
    have : g' = g := inj_on_of_nodup_map hnodup hg' hg (by rw [← hgroup g' hg' x hxg', hkey])
    rwa [← this]
  refine ⟨hkeys ▸ hnodup, fun key => ?_, fun b hb => ?_⟩
  · rw [hkeys, List.mem_map]
    constructor
    · rintro ⟨g, hg, rfl⟩
      obtain ⟨hx, ha⟩ := (hmem g.1).mp ⟨g, hg, mem_cons_self⟩
      exact ⟨g.1, hx, ha, rfl⟩
    · rintro ⟨x, hx, ha, rfl⟩
      obtain ⟨g, hg, hxg⟩ := (hmem x).mpr ⟨hx, ha⟩
      exact ⟨g, hg, (hgroup g hg x hxg).symm⟩
  · obtain ⟨g, hg, rfl⟩ := mem_map.mp hb
    have hsub : ∀ x ∈ g.entries, x ∈ hash ∧ x.aggid ∈ aggvars := fun x hx =>
      (hmem x).mp ⟨g, hg, hx⟩
    have hdistinct : g.entries.Pairwise fun h h' => ¬(h.aggid = h'.aggid ∧ h.key = h'.key) := by
      have hsorted' : sorted.Pairwise fun h h' => ¬(h.aggid = h'.aggid ∧ h.key = h'.key) :=
        (hperm.pairwise_iff fun {_ _} hn hc => hn ⟨hc.1.symm, hc.2.symm⟩).mpr
          (h.distinct.sublist filter_sublist)
      rw [← hflat, pairwise_flatMap] at hsorted'
      exact hsorted'.1 g hg
    have hlen := length_makeBundle m zagg aggvars.length g.1 g.entries
    refine List.ext_getElem? fun i => ?_
    by_cases hi : i < aggvars.length
    · rw [getElem?_map, getElem?_range hi]
      show _ = some (valAt adesc hash aggvars sortpos g.1.key i)
      rw [valAt, ← hzagg i hi, ← h.find?_eq_dataFor
          (fun x hx => ⟨(hsub x hx).1, hgroup g hg x hx⟩)
          (fun x hx ha => hall g hg x hx (ha ▸ varAt_mem hi)),
        ← getElem?_makeBundle hm hs (fun x hx => (hsub x hx).2)
          (nodup_aggids hdistinct (hgroup g hg)) zagg g.1 hi,
        getElem?_eq_getElem (by omega)]
      rfl
    · rw [getElem?_eq_none (by omega), getElem?_eq_none (by rw [length_map, length_range]; omega)]

theorem sortposOf_lt (h : 0 < naggvars) (option : Option Nat) :
    sortposOf naggvars option < naggvars := by
  cases option with
  | none => exact h
  | some sortpos =>
    rw [sortposOf]
    split <;> omega

theorem holeVar_mem {i : Nat} (h : 0 < aggvars.length) : holeVar aggvars sortpos i ∈ aggvars := by
  have hlt := mod_lt (i + aggvars.length - sortpos) h
  rw [holeVar, getD_eq_getElem _ _ hlt]
  exact getElem_mem hlt

/-- The description of a variable is found. -/
theorem Ready.findDesc_eq (h : Ready adesc hash aggvars) {a : Nat} (ha : a ∈ aggvars) :
    findDesc adesc a adesc.length 1 = dtAggidLookup adesc a ∧
      ∃ d, dtAggidLookup adesc a = some d ∧ d.varid = a := by
  have hpos : a ≠ 0 := fun h0 => h.ne_zero (h0 ▸ ha)
  obtain ⟨d, hd, hvarid⟩ := h.described a ha a (by omega) (le_refl a)
  refine ⟨Joined.findDesc_eq (by omega) ?_ (h.described a ha), d, hd, hvarid⟩
  have : a < adesc.length := by
    by_contra hge
    rw [dtAggidLookup, getElem?_eq_none (Nat.le_of_not_lt hge)] at hd
    cases hd
  omega

variable {sorts : Sorts} {option : Option Nat}

theorem walk_of_none (h : Ready adesc hash aggvars)
    (hnone : ∀ x ∈ hash, x.aggid ∉ aggvars) :
    dtraceAggregateWalkJoined sorts adesc hash aggvars option = .done [] := by
  have hfilter : hash.filter (fun x => (Maps.of aggvars
      (sortposOf aggvars.length option)).map x.aggid ≠ 0) = [] := by
    rw [filter_eq_nil_iff]
    intro x hx hc
    rcases Nat.eq_zero_or_pos aggvars.length with hlen | hlen
    · rw [length_eq_zero_iff.mp hlen] at hc
      exact absurd hc (by simp [Maps.of])
    · have hs := sortposOf_lt hlen option
      exact hnone x hx (((mapsOk h.nodup hs).map_ne_zero_iff hs).mp (of_decide_eq_true hc))
  simp only [dtraceAggregateWalkJoined]
  rw [if_neg h.ne_zero, hfilter]
  rfl

/-- The walk makes one bundle for each key; the rest is up to sorting them. -/
theorem walk_of_some (hent : IsQsort sorts.entries) (h : Ready adesc hash aggvars)
    (hsome : ∃ x ∈ hash, x.aggid ∈ aggvars) :
    ∃ bs, BundlesOf adesc hash aggvars (sortposOf aggvars.length option) bs ∧
      dtraceAggregateWalkJoined sorts adesc hash aggvars option =
        match sorts.bundles (dtAggregateBundlecmp sorts) bs with
        | none => .crash
        | some bs => .done (bs.map (callOf aggvars.length (sortposOf aggvars.length option))) := by
  obtain ⟨x, hx, hxa⟩ := hsome
  have hlen : 0 < aggvars.length := length_pos_of_mem hxa
  have hs := sortposOf_lt hlen option
  have hm := mapsOk h.nodup hs
  generalize hsp : sortposOf aggvars.length option = sortpos at hs hm
  have hlen' := (length_zagg (Maps.of aggvars sortpos).map hash
    (List.replicate aggvars.length none)).trans length_replicate
  obtain ⟨zagg', hholes, -, hzagg'⟩ := foldlM_set (holeStep adesc aggvars sortpos)
    (fun i e => filled adesc aggvars sortpos e i) fun _ i _ => by
      obtain ⟨hfind, d, hd, -⟩ := h.findDesc_eq (holeVar_mem hlen)
      exact holeStep_eq hfind hd
  rw [hlen'] at hholes hzagg'
  have hzagg : ∀ i < aggvars.length, (zagg'.map (Option.map zeroFill))[i]?.join =
      zeroData adesc hash aggvars sortpos i := fun i hi => by
    rw [getElem?_map, join_map_eq_map_join, hzagg' i hi,
      getElem?_zagg hm hs hash length_replicate hi, getElem?_replicate, if_pos hi]
    rfl
  have hsorted := hent.sorted _ (Consistent.of_transCmp (dtAggregateKeyvarcmp 0))
    (hash.filter fun x => (Maps.of aggvars sortpos).map x.aggid ≠ 0)
  have hperm := hent.perm (fun l r => signOf (dtAggregateKeyvarcmp 0 l r))
    (hash.filter fun x => (Maps.of aggvars sortpos).map x.aggid ≠ 0)
  have hsorted' := hsorted.imp fun {x y} hxy => isLE_keycmp_of_keyvarcmp (signOf_nonpos.mp hxy)
  obtain ⟨_, hbundles, hflat, hgroup, hgs⟩ := bundles_eq
    (makeBundle (Maps.of aggvars sortpos) (zagg'.map (Option.map zeroFill)) aggvars.length) hsorted'
  refine ⟨_, bundlesOf_sorted h hs hm hperm hzagg hflat hgroup hgs, ?_⟩
  have hne : (hash.filter fun x => (Maps.of aggvars sortpos).map x.aggid ≠ 0).length ≠ 0 := by
    refine ne_of_gt (length_pos_of_mem (mem_filter.mpr ⟨hx, ?_⟩))
    exact decide_eq_true ((hm.map_ne_zero_iff hs).mpr hxa)
  simp only [dtraceAggregateWalkJoined, hsp]
  rw [if_neg h.ne_zero, if_neg hne, hholes]
  dsimp only
  rw [hbundles]

/-! ## Sorting the bundles

Bundles are compared by their values first, unless `aggsortkey` is set. A variable that has no data
for a key is zero-filled, and two deviations cannot be compared if one of them is of no values. -/

/-- What is relied on of the `qsort` of the bundles. Whether it returns depends on the comparisons
it makes. When two bundles cannot be compared, those in the same place as far as the values before
tell cannot be compared with one of the two either, so no other comparison says where that one
belongs and `qsort` has to make one that does not return. -/
structure Sorts.SortsBundles (sorts : Sorts) : Prop where
  perm : ∀ bs bs', sorts.bundles (dtAggregateBundlecmp sorts) bs = some bs' → bs'.Perm bs
  returns : ∀ bs, bs.Pairwise (fun b b' => dtAggregateBundlecmp sorts b b' ≠ none ∧
      dtAggregateBundlecmp sorts b' b ≠ none) →
    sorts.bundles (dtAggregateBundlecmp sorts) bs ≠ none
  aborts : ∀ bs, sorts.bundles (dtAggregateBundlecmp sorts) bs ≠ none →
    bs.Pairwise fun b b' => dtAggregateBundlecmp sorts b b' ≠ none ∧
      dtAggregateBundlecmp sorts b' b ≠ none

/-- Comparing the bundles of two keys comes to a `stddev()` of which one has no data, the values
before it being equal. -/
def Stuck (sorts : Sorts) (adesc : List (Option Desc)) (hash : List Entry) (aggvars : List Nat)
    (sortpos : Nat) (key key' : List (List UInt8)) : Prop :=
  ∃ i < aggvars.length,
    (∃ l ∈ valAt adesc hash aggvars sortpos key i, ∃ r ∈ valAt adesc hash aggvars sortpos key' i,
      dtAggregateValcmp sorts l r = none) ∧
    ∀ j < i, ∀ l ∈ valAt adesc hash aggvars sortpos key j,
      ∀ r ∈ valAt adesc hash aggvars sortpos key' j, dtAggregateValcmp sorts l r = some 0

/-- Bundles are sorted by key, or no two of them are stuck. -/
def Comparable (sorts : Sorts) (adesc : List (Option Desc)) (hash : List Entry)
    (aggvars : List Nat) (sortpos : Nat) : Prop :=
  sorts.keysort = true ∨ ∀ x ∈ hash, x.aggid ∈ aggvars → ∀ y ∈ hash, y.aggid ∈ aggvars →
    x.key ≠ y.key → ¬Stuck sorts adesc hash aggvars sortpos x.key y.key

theorem zeroData_isSome (h : Ready adesc hash aggvars) (hlen : 0 < aggvars.length) (i : Nat) :
    (zeroData adesc hash aggvars sortpos i).isSome = true := by
  obtain ⟨-, d, hd, -⟩ := h.findDesc_eq (holeVar_mem hlen)
  rw [zeroData, filled, hd]
  cases hash.find? (·.aggid = varAt aggvars sortpos i) <;> rfl

theorem action_of_valcmp_eq_none {l r : Entry} (h : dtAggregateValcmp sorts l r = none) :
    l.desc.action = .stddev := by
  unfold dtAggregateValcmp at h
  split at h
  · next hc => exact hc.1
  · cases h

/-- All data has one of the descriptions. -/
theorem lookup_of_mem_valAt (h : Ready adesc hash aggvars) {key : List (List UInt8)} {i : Nat} {e : Entry}
    (he : e ∈ valAt adesc hash aggvars sortpos key i) :
    ∃ a, dtAggidLookup adesc a = some e.desc := by
  rcases or_eq_some_iff.mp he with hdata | ⟨-, hzero⟩
  · exact ⟨_, h.entry_desc e (mem_of_find?_eq_some hdata)⟩
  · obtain ⟨z, hz, rfl⟩ := map_eq_some_iff.mp hzero
    rcases or_eq_some_iff.mp hz with hfind | ⟨-, hhole⟩
    · exact ⟨_, h.entry_desc z (mem_of_find?_eq_some hfind)⟩
    · obtain ⟨d, hd, rfl⟩ := map_eq_some_iff.mp hhole
      exact ⟨_, hd⟩

/-- Without a `stddev()` all bundles can be compared. -/
theorem comparable_of_no_stddev (h : Ready adesc hash aggvars)
    (hno : ∀ d ∈ adesc, ∀ agg ∈ d, agg.action ≠ .stddev) :
    Comparable sorts adesc hash aggvars sortpos := by
  refine .inr ?_
  rintro x - - y - - - ⟨i, -, ⟨l, hl, r, -, hnone⟩, -⟩
  obtain ⟨a, ha⟩ := lookup_of_mem_valAt h hl
  exact hno _ (mem_of_getElem? (join_eq_some_iff.mp ha)) _ rfl (action_of_valcmp_eq_none hnone)

theorem valsCmp_map_eq_none_iff {f g : Nat → Option Entry} {n : Nat}
    (hf : ∀ i, (f i).isSome = true) (hg : ∀ i, (g i).isSome = true) (k : Nat) :
    valsCmp sorts ((List.range' k n).map fun i => (f i, g i)) = none ↔
      ∃ i < k + n, k ≤ i ∧ (∃ l ∈ f i, ∃ r ∈ g i, dtAggregateValcmp sorts l r = none) ∧
        ∀ j < i, k ≤ j → ∀ l ∈ f j, ∀ r ∈ g j, dtAggregateValcmp sorts l r = some 0 := by
  induction n generalizing k with
  | zero => exact iff_of_false nofun fun ⟨i, hi, hk, _⟩ => absurd hk (by omega)
  | succ n ih =>
    obtain ⟨l, hl⟩ := isSome_iff_exists.mp (hf k)
    obtain ⟨r, hr⟩ := isSome_iff_exists.mp (hg k)
    rw [range'_succ, map_cons, hl, hr, valsCmp]
    cases hc : dtAggregateValcmp sorts l r with
    -- the comparison stops here
    | none =>
      refine iff_of_true rfl ⟨k, by omega, le_rfl, ⟨l, hl, r, hr, hc⟩, fun j hj hk => ?_⟩
      omega
    | some rval =>
      have hgoes : ¬∃ l ∈ f k, ∃ r ∈ g k, dtAggregateValcmp sorts l r = none := by
        rintro ⟨l', hl', r', hr', hnone⟩
        rw [← some.inj (hl.symm.trans hl'), ← some.inj (hr.symm.trans hr'), hc] at hnone
        cases hnone
      rw [bind_some]
      by_cases hrval : rval = 0
      · subst hrval
        rw [if_neg (by simp), ih (k + 1)]
        constructor
        · rintro ⟨i, hi, hk, hstop, hbefore⟩
          refine ⟨i, by omega, by omega, hstop, fun j hj hkj l' hl' r' hr' => ?_⟩
          rcases eq_or_lt_of_le hkj with rfl | hlt
          · rw [← hc, some.inj (hl.symm.trans hl'), some.inj (hr.symm.trans hr')]
          · exact hbefore j hj hlt l' hl' r' hr'
        · rintro ⟨i, hi, hk, hstop, hbefore⟩
          have hne : k ≠ i := by
            rintro rfl
            exact hgoes hstop
          exact ⟨i, by omega, by omega, hstop, fun j hj hkj => hbefore j hj (by omega)⟩
      · -- the values differ here, so later ones are not compared
        rw [if_pos hrval]
        refine iff_of_false nofun ?_
        rintro ⟨i, hi, hk, hstop, hbefore⟩
        rcases eq_or_lt_of_le hk with rfl | hlt
        · exact hgoes hstop
        · have := hbefore k hlt le_rfl l hl r hr
          rw [hc] at this
          exact hrval (some.inj this)

/-- Two bundles of different keys cannot be compared when their values are, and stuck. -/
theorem bundlecmp_eq_none_iff (h : Ready adesc hash aggvars) (hlen : 0 < aggvars.length)
    (hbs : BundlesOf adesc hash aggvars sortpos bs) {b b' : Bundle} (hb : b ∈ bs) (hb' : b' ∈ bs)
    (hne : b.key.key ≠ b'.key.key) :
    dtAggregateBundlecmp sorts b b' = none ↔
      sorts.keysort = false ∧ Stuck sorts adesc hash aggvars sortpos b.key.key b'.key.key := by
  have hsome : ∀ key i, (valAt adesc hash aggvars sortpos key i).isSome = true := fun key i => by
    rw [valAt, isSome_or, zeroData_isSome h hlen, Bool.or_true]
  have hzip : b.vals.zip b'.vals = (List.range' 0 aggvars.length).map fun i =>
      (valAt adesc hash aggvars sortpos b.key.key i,
        valAt adesc hash aggvars sortpos b'.key.key i) := by
    rw [hbs.vals b hb, hbs.vals b' hb', zip_map', range_eq_range']
  have hvals : valsCmp sorts (b.vals.zip b'.vals) = none ↔
      Stuck sorts adesc hash aggvars sortpos b.key.key b'.key.key := by
    rw [hzip, valsCmp_map_eq_none_iff (hsome _) (hsome _)]
    simp only [Nat.zero_add, zero_le, true_and, forall_const, Stuck]
  have hkey : signOf (dtAggregateKeycmp sorts.keypos b.key b'.key) ≠ 0 := fun hc =>
    hne (keycmp_eq_iff.mp (signOf_eq_zero.mp hc))
  have hkeycmp : (if sorts.revsort then -signOf (dtAggregateKeycmp sorts.keypos b.key b'.key)
      else signOf (dtAggregateKeycmp sorts.keypos b.key b'.key)) ≠ 0 := by
    split
    · exact neg_ne_zero.mpr hkey
    · exact hkey
  rw [dtAggregateBundlecmp]
  cases hks : sorts.keysort with
  | true => rw [if_pos ⟨rfl, hkeycmp⟩]; simp
  | false => rw [if_neg (by simp), map_eq_none_iff, hvals]; simp

/-- The sort returns exactly when no two keys are stuck. -/
theorem sort_returns_iff (hbun : sorts.SortsBundles) (h : Ready adesc hash aggvars)
    (hlen : 0 < aggvars.length) (hbs : BundlesOf adesc hash aggvars sortpos bs) :
    sorts.bundles (dtAggregateBundlecmp sorts) bs ≠ none ↔
      Comparable sorts adesc hash aggvars sortpos := by
  have hdistinct : bs.Pairwise fun b b' => b.key.key ≠ b'.key.key := by
    have := hbs.keys_nodup
    rwa [List.Nodup, pairwise_map] at this
  have hiff : sorts.bundles (dtAggregateBundlecmp sorts) bs ≠ none ↔
      bs.Pairwise fun b b' => dtAggregateBundlecmp sorts b b' ≠ none ∧
        dtAggregateBundlecmp sorts b' b ≠ none := ⟨hbun.aborts bs, hbun.returns bs⟩
  rw [hiff]
  constructor
  · intro hpair
    have : Std.Symm fun b b' : Bundle => dtAggregateBundlecmp sorts b b' ≠ none ∧
        dtAggregateBundlecmp sorts b' b ≠ none := ⟨fun _ _ hn => ⟨hn.2, hn.1⟩⟩
    cases hks : sorts.keysort with
    | true => exact .inl hks
    | false =>
      refine .inr fun x hx hxa y hy hya hne hstuck => ?_
      obtain ⟨b, hb, hbkey⟩ := mem_map.mp ((hbs.mem_keys x.key).mpr ⟨x, hx, hxa, rfl⟩)
      obtain ⟨b', hb', hbkey'⟩ := mem_map.mp ((hbs.mem_keys y.key).mpr ⟨y, hy, hya, rfl⟩)
      rw [← hbkey, ← hbkey'] at hstuck hne
      refine (hpair.forall hb hb' fun heq => hne (by rw [heq])).1 ?_
      exact (bundlecmp_eq_none_iff h hlen hbs hb hb' hne).mpr ⟨hks, hstuck⟩
  · intro hcomp
    have hcmp : ∀ b ∈ bs, ∀ b' ∈ bs, b.key.key ≠ b'.key.key →
        dtAggregateBundlecmp sorts b b' ≠ none := fun b hb b' hb' hne hnone => by
      obtain ⟨hks, hstuck⟩ := (bundlecmp_eq_none_iff h hlen hbs hb hb' hne).mp hnone
      obtain ⟨x, hx, hxa, hxkey⟩ := (hbs.mem_keys _).mp (mem_map_of_mem hb)
      obtain ⟨y, hy, hya, hykey⟩ := (hbs.mem_keys _).mp (mem_map_of_mem hb')
      rcases hcomp with hk | hcomp
      · rw [hk] at hks
        cases hks
      · rw [← hxkey, ← hykey] at hstuck hne
        exact hcomp x hx hxa y hy hya hne hstuck
    exact hdistinct.imp_of_mem fun hb hb' hne =>
      ⟨hcmp _ hb _ hb' hne, hcmp _ hb' _ hb (Ne.symm hne)⟩

/-! ## Holes -/

/-- The description that is looked up for a hole is that of another variable, unless twice the sort
position is a multiple of the number of variables. -/
theorem holeVar_posOf_iff (hnodup : aggvars.Nodup) (hs : sortpos < aggvars.length)
    (hj : j < aggvars.length) :
    holeVar aggvars sortpos (posOf aggvars.length sortpos j) = aggvars[j] ↔
      aggvars.length ∣ 2 * sortpos := by
  have hpos := posOf_add hs hj
  have hlt := posOf_lt hs hj
  generalize posOf aggvars.length sortpos j = i at hpos
  have hmod := mod_lt (i + aggvars.length - sortpos) (lt_of_le_of_lt (zero_le _) hj)
  have hsum : i + aggvars.length - sortpos + 2 * sortpos = i + sortpos + aggvars.length := by omega
  have hiff : (i + aggvars.length - sortpos) % aggvars.length = j ↔
      aggvars.length ∣ 2 * sortpos := by
    rw [← hpos, ← add_mod_right (i + sortpos), ← hsum]
    constructor
    · intro heq
      have : i + aggvars.length - sortpos + 0 ≡ i + aggvars.length - sortpos + 2 * sortpos
        [MOD aggvars.length] := heq
      exact (modEq_zero_iff_dvd.mp (Nat.ModEq.add_left_cancel' _ this).symm)
    · rintro ⟨c, hc⟩
      rw [hc, add_mul_mod_self_left]
  rw [holeVar, getD_eq_getElem _ _ hmod, Nodup.getElem_inj_iff hnodup, hiff]

/-- The zero-filled data of a variable has its description, unless there is no entry of it. -/
theorem zeroData_own_iff (h : Ready adesc hash aggvars) (hs : sortpos < aggvars.length)
    (hj : j < aggvars.length) :
    ∃ e, zeroData adesc hash aggvars sortpos (posOf aggvars.length sortpos j) = some e ∧
      e.data = List.replicate e.desc.dsize 0 ∧
      (dtAggidLookup adesc aggvars[j] = some e.desc ↔
        (∃ x ∈ hash, x.aggid = aggvars[j]) ∨ aggvars.length ∣ 2 * sortpos) := by
  have hlen : 0 < aggvars.length := lt_of_le_of_lt (zero_le _) hj
  rw [zeroData, varAt_posOf hs hj]
  cases hf : hash.find? (·.aggid = aggvars[j]) with
  | some x =>
    have hx : x.aggid = aggvars[j] := by simpa using find?_some hf
    have hmem := mem_of_find?_eq_some hf
    refine ⟨zeroFill x, rfl, rfl, ?_⟩
    rw [← hx, h.entry_desc x hmem]
    exact ⟨fun _ => .inl ⟨x, hmem, rfl⟩, fun _ => rfl⟩
  | none =>
    obtain ⟨d, hd, hvarid⟩ := (h.findDesc_eq
      (holeVar_mem hlen)).2
    obtain ⟨_, hd', hvarid'⟩ := (h.findDesc_eq (getElem_mem hj)).2
    refine ⟨zeroFill ⟨d, [], []⟩, by rw [filled, hd]; rfl, rfl, ?_⟩
    have hno : ¬∃ x ∈ hash, x.aggid = aggvars[j] := fun ⟨x, hx, ha⟩ =>
      find?_eq_none.mp hf x hx (decide_eq_true ha)
    rw [or_iff_right hno, ← holeVar_posOf_iff h.nodup hs hj, hd', some.injEq]
    constructor
    · intro heq
      rw [← hvarid, ← hvarid', heq]
      rfl
    · intro heq
      rw [heq, hd'] at hd
      exact some.inj hd

/-- With at least one call, every hole has to have the description of its own variable. -/
theorem Walked.onePerKey_iff (h : Ready adesc hash aggvars) (hs : sortpos < aggvars.length)
    {calls : List Call} (hcalls : Walked adesc hash aggvars sortpos calls) {x : Entry}
    (hx : x ∈ hash) (hxa : x.aggid ∈ aggvars) :
    OnePerKey adesc hash aggvars calls ↔
      (∀ a ∈ aggvars, ∃ x ∈ hash, x.aggid = a) ∨ aggvars.length ∣ 2 * sortpos := by
  constructor
  · intro hone
    by_contra hnot
    push Not at hnot
    obtain ⟨⟨a, ha, hhole⟩, hdvd⟩ := hnot
    obtain ⟨j, hj, rfl⟩ := getElem_of_mem ha
    -- any call has the data of the hole
    obtain ⟨c, hc, -⟩ := mem_map.mp ((hcalls.mem_keys x.key).mpr ⟨x, hx, hxa, rfl⟩)
    have hdata : dataFor hash aggvars[j] c.key.key = none := by
      rw [dataFor, find?_eq_none]
      intro y hy hcond
      exact hhole y hy (of_decide_eq_true hcond).1
    obtain ⟨e, hslot, hdesc, -⟩ := hone.absent c hc j _ (getElem?_eq_getElem hj) hdata
    obtain ⟨e', he', -, hiff⟩ := zeroData_own_iff h hs hj
    rw [hcalls.slot c hc j hj, hdata, he'] at hslot
    obtain rfl : e' = e := by simpa using hslot
    rcases hiff.mp hdesc with ⟨y, hy, hya⟩ | hd
    · exact hhole y hy hya
    · exact hdvd hd
  · intro hcond
    refine ⟨hcalls.keys_nodup, hcalls.mem_keys, hcalls.length, ?_, ?_⟩
    · intro c hc j a y ha hdata
      obtain ⟨hj, rfl⟩ := List.getElem?_eq_some_iff.mp ha
      rw [hcalls.slot c hc j hj, hdata]
      rfl
    · intro c hc j a ha hdata
      obtain ⟨hj, rfl⟩ := List.getElem?_eq_some_iff.mp ha
      obtain ⟨e, he, hzero, hiff⟩ := zeroData_own_iff h hs hj
      refine ⟨e, ?_, hiff.mpr (hcond.imp_left fun hall => hall _ (getElem_mem hj)), hzero⟩
      rw [hcalls.slot c hc j hj, hdata, none_or, he]

end Walk

/-! A count, a sum and an average; only the first two have an entry. -/

def countDesc : Desc := ⟨1, .count, 16⟩
def sumDesc : Desc := ⟨2, .sum, 16⟩
def avgDesc : Desc := ⟨3, .avg, 24⟩

def someDescs : List (Option Desc) := [none, some countDesc, some sumDesc, some avgDesc]

def someHash : List Entry :=
  [⟨sumDesc, [[7]], List.replicate 16 5⟩, ⟨countDesc, [[7]], List.replicate 16 1⟩,
    ⟨countDesc, [[8]], List.replicate 16 1⟩]

/-- Values that are all the same, and an insertion sort after every pair was compared. -/
def insertionSorts : Sorts where
  entries cmp xs := xs.insertionSort fun x y => cmp x y ≤ 0
  bundles cmp xs :=
    if xs.Pairwise fun x y => cmp x y ≠ none ∧ cmp y x ≠ none then
      some (xs.insertionSort fun x y => ((cmp x y).getD 0) ≤ 0)
    else none
  valcmp _ _ := 0
  keysort := false
  keypos := 0
  revsort := false

theorem sortsBundles_insertionSorts : insertionSorts.SortsBundles where
  perm bs bs' h := by
    obtain ⟨-, heq⟩ := ite_none_right_eq_some.mp h
    rw [← some.inj heq]
    exact perm_insertionSort _ _
  returns bs h := by
    show (if _ then _ else none) ≠ none
    rw [if_pos h]
    simp
  aborts bs h := by
    by_contra hc
    exact h (if_neg hc)

theorem ready_someHash : Ready someDescs someHash [1, 2, 3] where
  nodup := by decide
  ne_zero := by decide
  described a ha j h1 h2 := by
    have hj : j = 1 ∨ j = 2 ∨ j = 3 := by
      simp only [mem_cons, not_mem_nil, or_false] at ha
      omega
    rcases hj with rfl | rfl | rfl <;> exact ⟨_, rfl, rfl⟩
  entry_desc := by decide
  distinct := by decide

-- the standard deviation of a key that has none
example : dtraceAggregateWalkJoined insertionSorts [none, some ⟨1, .stddev, 40⟩, some ⟨2, .count, 16⟩]
    [⟨⟨1, .stddev, 40⟩, [[1]], List.replicate 40 1⟩, ⟨⟨2, .count, 16⟩, [[1]], List.replicate 16 1⟩,
      ⟨⟨2, .count, 16⟩, [[2]], List.replicate 16 1⟩] [1, 2] none = .crash := by decide +kernel

end DTrace.Agg.Joined
