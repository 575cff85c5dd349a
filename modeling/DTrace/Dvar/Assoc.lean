import DTrace.Lib.System
import DTrace.Dvar.Get

/-!
# Dynamic variables as a finite map

`Sys` has beside the maps of the program what they stand for: the value last stored for every
variable. `Good` says that the maps agree with it, and that no two variables have the same slot
in `dvars`. `good_iff_stepOk` says which runs are good: those where the map of tuples never
gives a new tuple an element whose address is the slot of another variable.

The map does give such elements. The value of a new tuple is put in its element a second time,
which moves it to a spare one, so the element whose address became the slot is not the tuple's
any more and is handed out again while the tuple is still there (`tuples_share_slot`).
-/

namespace DTrace.Dvar

open Function

universe u

variable {T V : Type u} [DecidableEq T]

/-! ## Slots

The slot of a variable is its key in the `dvars` map: for an array element the address that its
tuple had when it was created. -/

/-- The key in `dvars` of a variable, if it has one. -/
def slot (s : Store T V) : Var T → Option Word
  | .tls key => some key
  | .assoc key => s.tuples.val key

theorem dtGetDvar_load (room : Room) (key nval : Word) (dflt : V) (s : Store T V) :
    dtGetDvar room key false nval dflt s = (s, if (s.dvars key).isSome then some key else none) := by
  unfold dtGetDvar
  cases s.dvars key <;> simp

/-- A load changes nothing. -/
theorem get_load (room : Room) (var : Var T) (dflt : V) (s : Store T V) :
    get room var false 0 dflt s =
      some (s, (slot s var).filter fun key => (s.dvars key).isSome) := by
  cases var with
  | tls key => simp [get, dtGetDvar_load, slot, Option.filter]
  | assoc key =>
    simp only [get, dtGetAssoc, slot, ElemMap.val]
    cases s.tuples.lookup key <;> simp [dtGetDvar_load, Option.filter]

theorem load_eq (var : Var T) (dflt : V) (s : Store T V) :
    load var dflt s = (slot s var).bind s.dvars := by
  rw [load, get_load]
  cases hslot : slot s var with
  | none => rfl
  | some key => cases hkey : s.dvars key <;> simp [Option.filter, hkey]

/-- The value of a variable after a store. -/
def outcome (nval : Word) (stored : Bool) (v : V) (old : Option V) : Option V :=
  if nval = 0 then none else if stored then some v else old

variable {room : Room} {nval : Word} {dflt : V} {s s' : Store T V}

/-- A store through a slot acts on that slot only. -/
theorem assign_dtGetDvar {key : Word} {v : V} {stored : Bool}
    (h : assign v (dtGetDvar room key true nval dflt s) = (s', stored)) :
    s'.tuples = s.tuples ∧
      s'.dvars = Function.update s.dvars key (outcome nval stored v (s.dvars key)) := by
  rw [show s' = (assign v (dtGetDvar room key true nval dflt s)).1 from by rw [h],
    show stored = (assign v (dtGetDvar room key true nval dflt s)).2 from by rw [h]]
  by_cases h0 : nval = 0
  · simp [dtGetDvar, assign, outcome, h0]
  · have hget : ¬(true = true ∧ nval = 0) := fun h => h0 h.2
    rw [dtGetDvar]
    simp only [outcome, h0]
    cases hkey : s.dvars key with
    | some old => simp [assign]
    | none =>
      cases hroom : room.dvars with
      | true => simp [assign]
      | false => simp [assign, dtNoDvar, hkey]

/-- What a store of `v` in `var` may do. -/
structure Stores (room : Room) (var : Var T) (nval : Word) (v : V) (s s' : Store T V)
    (stored : Bool) (key : Word) : Prop where
  /-- The slot is the one the variable has, or the address of the element of a new tuple. -/
  own : slot s var = some key ∨
    slot s var = none ∧ nval ≠ 0 ∧ ∃ a ∈ room.create, key = a.val
  own' : slot s' var = some key ∨ slot s' var = none ∧ nval = 0
  others : ∀ var' ≠ var, slot s' var' = slot s var'
  dvars : s'.dvars = Function.update s.dvars key (outcome nval stored v (s.dvars key))

theorem slot_congr (h : s'.tuples = s.tuples) : slot s' = slot s := by
  funext var
  cases var with
  | tls key => rfl
  | assoc key => simp [slot, h]

theorem slot_others {key : AssocKey T} (h : ∀ key' ≠ key, s'.tuples.val key' = s.tuples.val key') :
    ∀ var' ≠ Var.assoc key, slot s' var' = slot s var' := by
  intro var' hne
  cases var' with
  | tls _ => rfl
  | assoc key' => exact h key' fun heq => hne (heq ▸ rfl)

section
variable {room : Room} {key : AssocKey T} {nval : Word} {v dflt : V} {s s' : Store T V}
  {stored : Bool}

/-- A store for a tuple that is there. -/
theorem store_live {valp : KernelAddr} (hlive : s.tuples.lookup key = some valp)
    (h : store room (.assoc key) nval v dflt s = some (s', stored)) :
    Stores room (.assoc key) nval v s s' stored (s.tuples.mem valp) := by
  let s1 : Store T V :=
    { s with tuples := if nval = 0 then s.tuples.delete key else s.tuples }
  have hval : s.tuples.val key = some (s.tuples.mem valp) := by simp [ElemMap.val, hlive]
  have hr : assign v (dtGetDvar room (s.tuples.mem valp) true nval dflt s1) = (s', stored) := by
    simpa [store, get, dtGetAssoc, hlive, s1] using h
  obtain ⟨htup, hdv⟩ := assign_dtGetDvar hr
  by_cases h0 : nval = 0
  · have hdel : s'.tuples = s.tuples.delete key := htup.trans (if_pos h0)
    refine ⟨.inl hval, .inr ⟨?_, h0⟩, slot_others fun key' hne => ?_, hdv⟩
    · rw [slot, hdel, ElemMap.val_delete_self]
    · rw [hdel, ElemMap.val_delete_ne hne]
  · have hsame : s'.tuples = s.tuples := htup.trans (if_neg h0)
    refine ⟨.inl hval, .inl ?_, fun _ _ => by rw [slot_congr hsame], hdv⟩
    rw [slot, hsame, hval]

variable {a : KernelAddr}

/-- A new tuple has the address of the element it is first given, in whatever element that
value is then put. -/
theorem val_create {tuples tuples1 : ElemMap (AssocKey T) KernelAddr Word}
    (h1 : tuples.update key 0 a = some tuples1) :
    (tuples1.write a a).val key = some a.val ∧
      ∀ key' ≠ key, (tuples1.write a a).val key' = tuples.val key' := by
  have ha := ElemMap.lookup_update_self h1
  exact ⟨ElemMap.val_write_self ha, fun key' hne =>
    (ElemMap.val_write_ne ha hne).trans (ElemMap.val_update_ne h1 hne)⟩

theorem val_place {tuples tuples1 : ElemMap (AssocKey T) KernelAddr Word} {elem : KernelAddr}
    (h1 : tuples.update key (tuples.mem a) elem = some tuples1) :
    tuples1.mem a = tuples.mem a ∧ tuples1.val key = some (tuples.mem a) ∧
      ∀ key' ≠ key, tuples1.val key' = tuples.val key' := by
  refine ⟨?_, ElemMap.val_update_self h1, fun key' hne => ElemMap.val_update_ne h1 hne⟩
  rw [ElemMap.mem_update h1]
  by_cases ha : a = elem <;> simp [ha]

/-- A store for a tuple that is not there. -/
theorem store_create (hnone : s.tuples.lookup key = none) (h0 : nval ≠ 0)
    (hroom : room.create = some a) (h : store room (.assoc key) nval v dflt s = some (s', stored)) :
    Stores room (.assoc key) nval v s s' stored a := by
  have hval : s.tuples.val key = none := by simp [ElemMap.val, hnone]
  obtain ⟨r, hget, hr⟩ := Option.map_eq_some_iff.mp h
  simp only [get, dtGetAssoc, hnone, hroom, h0] at hget
  obtain ⟨tuples1, h1, hget⟩ := Option.bind_eq_some_iff.mp hget
  obtain ⟨hkey, hothers⟩ := val_create h1
  cases hplace : room.place with
  | none =>
    -- the tuple stays, without a value
    simp only [hplace, Option.some.injEq] at hget
    subst hget
    obtain ⟨rfl, rfl⟩ := Prod.mk.inj hr
    refine ⟨.inr ⟨hval, h0, a, hroom, rfl⟩, .inl hkey, slot_others hothers, ?_⟩
    rw [outcome, if_neg h0]
    exact (update_eq_self _ _).symm
  | some elem =>
    simp only [hplace] at hget
    obtain ⟨_, h2, hget⟩ := Option.bind_eq_some_iff.mp hget
    obtain ⟨hmem, hkey2, hothers2⟩ := val_place h2
    have ha : (tuples1.write a a).mem a = a.val := by simp [ElemMap.write]
    rw [hmem, ha] at hget
    rw [ha] at hkey2
    obtain rfl := Option.some.inj hget
    obtain ⟨htup, hdv⟩ := assign_dtGetDvar hr
    refine ⟨.inr ⟨hval, h0, a, hroom, rfl⟩, .inl ?_, slot_others fun key' hne => ?_, hdv⟩
    · rw [slot, htup, hkey2]
    · rw [htup, hothers2 key' hne, hothers key' hne]

end

/-- **One store**: it does nothing, for want of a tuple or of room, or it acts on one slot. -/
theorem store_spec {var : Var T} {v : V} {stored : Bool}
    (h : store room var nval v dflt s = some (s', stored)) :
    (slot s var = none ∧ (nval = 0 ∨ room.create = none) ∧ slot s' = slot s ∧
      s'.dvars = s.dvars ∧ stored = false) ∨
      ∃ key, Stores room var nval v s s' stored key := by
  obtain ⟨r, hget, hr⟩ := Option.map_eq_some_iff.mp h
  cases var with
  | tls key =>
    obtain rfl := Option.some.inj hget
    obtain ⟨htup, hdv⟩ := assign_dtGetDvar hr
    exact .inr ⟨key.val, .inl rfl, .inl rfl, fun _ _ => by rw [slot_congr htup], hdv⟩
  | assoc key =>
    cases hlookup : s.tuples.lookup key with
    | some valp => exact .inr ⟨_, store_live hlookup h⟩
    | none =>
      by_cases h0 : nval = 0
      · have hsame : (s, false) = (s', stored) := by
          simpa [store, get, dtGetAssoc, hlookup, h0, assign] using h
        obtain ⟨rfl, rfl⟩ := Prod.mk.inj hsame
        exact .inl ⟨by simp [slot, ElemMap.val, hlookup], .inl h0, rfl, rfl, rfl⟩
      · cases hroom : room.create with
        | some a => exact .inr ⟨_, store_create hlookup h0 hroom h⟩
        | none =>
          simp only [get, dtGetAssoc, hlookup, hroom, h0, Bool.not_true, Bool.false_eq_true,
            or_self, if_false, Option.some.injEq] at hget
          subst hget
          obtain ⟨rfl, rfl⟩ := Prod.mk.inj hr
          exact .inl ⟨by simp [slot, ElemMap.val, hlookup], .inr rfl, rfl, rfl, rfl⟩

/-- A call that returns a slot returns the variable's, and there is a value in it. -/
theorem dtGetDvar_some {key key' : Word} {store : Bool}
    (h : dtGetDvar room key store nval dflt s = (s', some key')) :
    key' = key ∧ s'.tuples = s.tuples ∧ (s'.dvars key).isSome := by
  unfold dtGetDvar dtNoDvar at h
  split at h
  · cases h
  · split at h
    · next v hv =>
      cases h
      exact ⟨rfl, rfl, by simp [hv]⟩
    · split_ifs at h
      all_goals cases h
      exact ⟨rfl, rfl, by simp⟩

theorem get_some {var : Var T} {key : Word}
    (h : get room var true nval dflt s = some (s', some key)) :
    slot s' var = some key ∧ (s'.dvars key).isSome := by
  cases var with
  | tls tkey =>
    obtain ⟨rfl, -, hsome⟩ := dtGetDvar_some (Option.some.inj h)
    exact ⟨rfl, hsome⟩
  | assoc akey =>
    simp only [get, dtGetAssoc] at h
    cases hlookup : s.tuples.lookup akey with
    | some valp =>
      simp only [hlookup, Option.some.injEq] at h
      obtain ⟨rfl, htup, hsome⟩ := dtGetDvar_some h
      refine ⟨?_, hsome⟩
      by_cases h0 : nval = 0
      · -- a deletion returns nothing
        simp [dtGetDvar, h0] at h
      · have hsame : s'.tuples = s.tuples := htup.trans (if_neg fun h => h0 h.2)
        rw [slot, hsame, ElemMap.val, hlookup]
        rfl
    | none =>
      simp only [hlookup] at h
      split at h
      · cases h
      · split at h
        · cases h
        · next a hcreate =>
          obtain ⟨_, -, h⟩ := Option.bind_eq_some_iff.mp h
          cases hplace : room.place with
          | none => simp [hplace, dtNoDvar] at h
          | some elem =>
            simp only [hplace] at h
            obtain ⟨_, h2, h⟩ := Option.bind_eq_some_iff.mp h
            obtain ⟨hmem, hkey2, -⟩ := val_place h2
            obtain ⟨rfl, htup, hsome⟩ := dtGetDvar_some (Option.some.inj h)
            exact ⟨by rw [slot, htup, hkey2, hmem], hsome⟩

/-- Storing zero deletes the variable. -/
theorem get_delete (room : Room) (var : Var T) (dflt : V) (s : Store T V) :
    ∃ s', get room var true 0 dflt s = some (s', none) ∧ (slot s' var).bind s'.dvars = none := by
  cases var with
  | tls key =>
    exact ⟨_, by simp [get]; rfl, by simp [slot]⟩
  | assoc key =>
    cases hlookup : s.tuples.lookup key with
    | none => exact ⟨s, by simp [get, dtGetAssoc, hlookup], by simp [slot, ElemMap.val, hlookup]⟩
    | some valp =>
      refine ⟨_, by simp [get, dtGetAssoc, hlookup]; rfl, ?_⟩
      simp [slot]

/-! ## The system -/

structure Sys (T V : Type u) [DecidableEq T] where
  store : Store T V
  last : Var T → Option V

inductive Event (T V : Type u)
  | load (var : Var T)
  | store (var : Var T) (nval : Word) (v : V) (room : Room)

/-- At first the maps are empty; the elements have any memory. -/
def initial (mem : KernelAddr → Word) : Sys T V :=
  ⟨⟨.empty mem, fun _ => none, 0⟩, fun _ => none⟩

/-- A store that is dropped leaves the variable as it was. -/
def step (dflt : V) (s : Sys T V) : Event T V → Option (Sys T V)
  | .load var => (get ⟨none, none, false⟩ var false 0 dflt s.store).map fun r =>
    { s with store := r.1 }
  | .store var nval v room => (store room var nval v dflt s.store).map fun (st, stored) =>
    ⟨st, Function.update s.last var (outcome nval stored v (s.last var))⟩

def system (dflt : V) (mem : KernelAddr → Word) : TransitionSystem (Sys T V) (Event T V) :=
  ⟨initial mem, step dflt⟩

/-- Every load gives the value last stored, and no two variables have the same slot. -/
structure Good (dflt : V) (s : Sys T V) : Prop where
  load : ∀ var, load var dflt s.store = s.last var
  distinct : ∀ var var' key, slot s.store var = some key → slot s.store var' = some key → var = var'

/-- A new tuple does not get an element whose address is the slot of a variable. -/
def StepOk (s : Sys T V) : Event T V → Prop
  | .store var nval _ room =>
    slot s.store var = none → nval ≠ 0 → ∀ a ∈ room.create, ∀ var', slot s.store var' ≠ some a.val
  | .load _ => True

/-- No value is left behind in a slot without a variable. -/
def Inv (s : Sys T V) : Prop :=
  ∀ key v, s.store.dvars key = some v → ∃ var, slot s.store var = some key

theorem Inv.init (mem : KernelAddr → Word) : Inv (initial mem : Sys T V) :=
  fun _ _ h => by cases h

section
variable {room : Room} {var : Var T} {nval : Word} {v : V} {s s' : Store T V} {stored : Bool}
  {key : Word} (h : Stores room var nval v s s' stored key)
include h

theorem Stores.stale (hinv : ∀ key v, s.dvars key = some v → ∃ var, slot s var = some key) :
    ∀ key v, s'.dvars key = some v → ∃ var, slot s' var = some key := by
  intro key' v' hv
  rw [h.dvars] at hv
  by_cases hkey : key' = key
  · subst hkey
    rcases h.own' with hown | ⟨_, h0⟩
    · exact ⟨var, hown⟩
    · simp [outcome, h0] at hv
  · rw [update_of_ne hkey] at hv
    obtain ⟨var', hvar'⟩ := hinv key' v' hv
    refine ⟨var', (h.others var' fun heq => hkey ?_).trans hvar'⟩
    -- the variable of the store has no slot but its own
    subst heq
    rcases h.own with hown | ⟨hnone, _⟩
    · exact Option.some.inj (hvar'.symm.trans hown)
    · rw [hnone] at hvar'
      cases hvar'

/-- The other variables keep their values, if none has the slot. -/
theorem Stores.load_others {dflt : V} {var' : Var T} (hne : var' ≠ var)
    (hslot : slot s var' ≠ some key) : load var' dflt s' = load var' dflt s := by
  rw [load_eq, load_eq, h.others var' hne, h.dvars]
  cases hvar' : slot s var' with
  | none => rfl
  | some key' =>
    have hkey : key' ≠ key := fun heq => hslot (heq ▸ hvar')
    simp [update_of_ne hkey]

theorem Stores.load_self {dflt : V}
    (hinv : ∀ key v, s.dvars key = some v → ∃ var, slot s var = some key)
    (hslot : ∀ var' ≠ var, slot s var' ≠ some key) :
    load var dflt s' = outcome nval stored v (load var dflt s) := by
  -- before the store, the slot has the value of the variable, or no value
  have hold : s.dvars key = load var dflt s := by
    rw [load_eq]
    rcases h.own with hown | ⟨hnone, _⟩
    · rw [hown]
      rfl
    · rw [hnone]
      refine Option.eq_none_iff_forall_ne_some.mpr fun v' hv' => ?_
      obtain ⟨var', hvar'⟩ := hinv key v' hv'
      by_cases heq : var' = var
      · rw [heq, hnone] at hvar'
        cases hvar'
      · exact hslot var' heq hvar'
  rw [← hold, load_eq, h.dvars]
  rcases h.own' with hown | ⟨hnone, h0⟩
  · simp [hown]
  · simp [hnone, outcome, h0]

/-- The slot is no other variable's, before and after. -/
theorem Stores.distinct (hslot : ∀ var' ≠ var, slot s var' ≠ some key)
    (hdistinct : ∀ var var' key, slot s var = some key → slot s var' = some key → var = var') :
    ∀ var1 var2 key', slot s' var1 = some key' → slot s' var2 = some key' → var1 = var2 := by
  have hown : ∀ key', slot s' var = some key' → key' = key := by
    intro key' hkey'
    rcases h.own' with hown | ⟨hnone, _⟩
    · exact Option.some.inj (hkey'.symm.trans hown)
    · rw [hnone] at hkey'
      cases hkey'
  intro var1 var2 key' h1 h2
  by_cases e1 : var1 = var <;> by_cases e2 : var2 = var
  · rw [e1, e2]
  · rw [hown key' (e1 ▸ h1), h.others var2 e2] at h2
    exact absurd h2 (hslot var2 e2)
  · rw [hown key' (e2 ▸ h2), h.others var1 e1] at h1
    exact absurd h1 (hslot var1 e1)
  · rw [h.others var1 e1] at h1
    rw [h.others var2 e2] at h2
    exact hdistinct var1 var2 key' h1 h2

end

/-! ## Every run -/

section
variable {dflt : V} {s s' : Sys T V} {var : Var T} {nval : Word} {v : V} {room : Room}

theorem step_load (h : step dflt s (.load var) = some s') : s' = s := by
  rw [step, get_load] at h
  exact (Option.some.inj h).symm

/-- The state after a store. -/
theorem step_store (h : step dflt s (.store var nval v room) = some s') :
    ∃ stored, store room var nval v dflt s.store = some (s'.store, stored) ∧
      s'.last = Function.update s.last var (outcome nval stored v (s.last var)) := by
  obtain ⟨⟨_, stored⟩, hstore, rfl⟩ := Option.map_eq_some_iff.mp h
  exact ⟨stored, hstore, rfl⟩

theorem Inv.step {e : Event T V} (hinv : Inv s) (h : Dvar.step dflt s e = some s') : Inv s' := by
  cases e with
  | load var => exact step_load h ▸ hinv
  | store var nval v room =>
    obtain ⟨_, hstore, _⟩ := step_store h
    rcases store_spec hstore with ⟨_, _, hslot, hdvars, _⟩ | ⟨key, hst⟩
    · intro key v hv
      rw [hslot]
      exact hinv key v (hdvars ▸ hv)
    · exact hst.stale hinv

theorem good_of_stores {stored : Bool} {key : Word} (hgood : Good dflt s) (hinv : Inv s)
    (hst : Stores room var nval v s.store s'.store stored key)
    (hlast : s'.last = Function.update s.last var (outcome nval stored v (s.last var)))
    (hslot : ∀ var' ≠ var, slot s.store var' ≠ some key) : Good dflt s' where
  load var' := by
    rw [hlast]
    by_cases hvar : var' = var
    · subst hvar
      rw [hst.load_self hinv hslot, hgood.load, update_self]
    · rw [hst.load_others hvar (hslot var' hvar), hgood.load, update_of_ne hvar]
  distinct := hst.distinct hslot hgood.distinct

/-- **One step**: it keeps the maps good exactly when it meets the condition. -/
theorem step_good_iff {e : Event T V} (hinv : Inv s) (hgood : Good dflt s)
    (h : step dflt s e = some s') : Good dflt s' ↔ StepOk s e := by
  cases e with
  | load var => exact iff_of_true (step_load h ▸ hgood) trivial
  | store var nval v room =>
    obtain ⟨_, hstore, hlast⟩ := step_store h
    rcases store_spec hstore with ⟨hnone, hwhy, hslot, hdvars, rfl⟩ | ⟨key, hst⟩
    · -- nothing was -, and there was nothing to do or no room
      refine iff_of_true ⟨fun var' => ?_, hslot ▸ hgood.distinct⟩ fun _ h0 a ha => ?_
      · rw [load_eq, hslot, hdvars, ← load_eq, hgood.load, hlast]
        by_cases hvar : var' = var
        · subst hvar
          have hlast' : s.last var' = none := by rw [← hgood.load, load_eq, hnone]; rfl
          simp [outcome, hlast']
        · rw [update_of_ne hvar]
      · rcases hwhy with hwhy | hwhy
        · exact absurd hwhy h0
        · rw [hwhy] at ha
          cases ha
    · constructor
      · intro hgood' hnone h0 a ha var' hvar'
        have hkey : key = a.val := by
          rcases hst.own with hown | ⟨_, _, _, ha', hkey⟩
          · rw [hnone] at hown
            cases hown
          · rw [hkey, Option.mem_unique ha' ha]
        have hnew : slot s'.store var = some a.val := by
          rcases hst.own' with hown | ⟨_, hzero⟩
          · rw [hown, hkey]
          · exact absurd hzero h0
        have hne : var' ≠ var := fun heq => by
          rw [heq, hnone] at hvar'
          cases hvar'
        exact hne (hgood'.distinct var' var a.val ((hst.others var' hne).trans hvar') hnew)
      · intro hok
        refine good_of_stores hgood hinv hst hlast fun var' hne hvar' => ?_
        rcases hst.own with hown | ⟨hnone, h0, a, ha, rfl⟩
        · exact hne (hgood.distinct var' var key hvar' hown)
        · exact hok hnone h0 a ha var' hvar'

end

/-- **Dynamic variables are a finite map** along a run exactly if no step of it gives a new
tuple an element whose address is in use as a slot. -/
theorem good_iff_stepOk (dflt : V) (mem : KernelAddr → Word) (events : List (Event T V)) :
    (system dflt mem).AllStates (Good dflt) (initial mem) events ↔
      (system dflt mem).AllSteps StepOk (initial mem) events := by
  refine TransitionSystem.allStates_iff_allSteps ?_ ?_ (Inv.init mem) ?_ events
  · exact fun s e s' hinv h => Inv.step hinv h
  · exact fun s e s' hinv hgood h => step_good_iff hinv hgood h
  · refine ⟨fun var => ?_, fun var var' key h h' => ?_⟩
    · rw [load_eq]
      cases slot (initial mem).store var <;> rfl
    · cases var with
      | assoc _ => cases h
      | tls key1 =>
        cases var' with
        | assoc _ => cases h'
        | tls key2 =>
          have heq := (Option.some.inj h).trans (Option.some.inj h').symm
          rw [Subtype.ext heq]

/-- **Values of array elements do not leak**: in every run, a value that is kept under the address
of an element is that of some tuple. -/
theorem value_has_tuple {dflt : V} {mem : KernelAddr → Word} {s : Sys T V}
    (h : (system dflt mem).Reach (fun _ _ => True) s) {key : Word} (hkey : key.msb = true) {v : V}
    (hv : s.store.dvars key = some v) : ∃ tuple, slot s.store (.assoc tuple) = some key := by
  have hinv := h.invariant (P := Inv) (Inv.init mem) fun _ _ _ hinv _ hstep => hinv.step hstep
  obtain ⟨var, hvar⟩ := hinv key v hv
  cases var with
  | assoc tuple => exact ⟨tuple, hvar⟩
  | tls key' =>
    rw [← Option.some.inj hvar, key'.2] at hkey
    cases hkey

/-- `a[1] = 10; a[2] = 20; a[2] = 0; a[3] = 30;` with one spare element: `a[1]` reads 30. The
value of a new tuple always moves to the spare element, which its own element then replaces. So
`a[2]` lives in the element that gave `a[1]` its slot, and its deletion frees that element. -/
theorem tuples_share_slot :
    let elem : Fin 3 → KernelAddr := fun i =>
      ⟨0xffff880000000000 + .ofNat 64 (64 * i), by revert i; decide⟩
    let a : Nat → Var Nat := fun i => .assoc ⟨0, i⟩
    let events : List (Event Nat Nat) :=
      [.store (a 1) 10 10 ⟨some (elem 1), some (elem 0), true⟩,
       .store (a 2) 20 20 ⟨some (elem 2), some (elem 1), true⟩,
       .store (a 2) 0 0 ⟨none, none, true⟩,
       .store (a 3) 30 30 ⟨some (elem 1), some (elem 2), true⟩]
    ((system 0 fun _ => 0).runIf (fun _ _ => True) (initial fun _ => 0) events).map (fun s =>
        (load (a 1) 0 s.store, s.last (a 1), slot s.store (a 1), slot s.store (a 3))) =
      some (some 30, some 10, some (elem 1).val, some (elem 1).val) := by
  decide

/-- `a[1]` has a slot of its own. -/
theorem stored_value_has_tuple : ∃ (s : Sys Nat Nat) (key : Word), s.store.dvars key = some 10 ∧
    ∃ tuple, slot s.store (.assoc tuple) = some key := by
  let elem : KernelAddr := ⟨0xffff880000000040, by decide⟩
  have hrun : ((system 0 fun _ => 0).runIf (fun _ _ => True) (initial fun _ => 0)
      [.store (.assoc ⟨0, 1⟩) 10 10 ⟨some elem, some ⟨0xffff880000000000, by decide⟩, true⟩]).map
        (fun s : Sys Nat Nat => s.store.dvars elem) = some (some 10) := by decide
  obtain ⟨s, hrun, hv⟩ := Option.map_eq_some_iff.mp hrun
  exact ⟨s, elem, hv, value_has_tuple (TransitionSystem.Reach.init.of_runIf hrun) elem.2 hv⟩

/-! ## Keys of thread-local variables -/

/-- The thread, which is 0 for the idle task of every CPU. -/
def tidOf (pidTgid : Word) : Word := pidTgid &&& 0x00000000ffffffff

def SameTask (pidTgid cpu pidTgid' cpu' : Word) : Prop :=
  tidOf pidTgid = tidOf pidTgid' ∧ (tidOf pidTgid = 0 → cpu = cpu')

/-- A thread with an ID below 2²² runs on one of `ncpus` CPUs. -/
structure Runs (pidTgid cpu ncpus : Word) : Prop where
  tid : (tidOf pidTgid).toNat < 2 ^ 22
  cpu : cpu.toNat < ncpus.toNat

/-- The key is a number of the task, which is not 0, and the variable. -/
def taskNumber (pidTgid cpu ncpus : Word) : Nat :=
  if tidOf pidTgid = 0 then cpu.toNat + 1 else (tidOf pidTgid).toNat + ncpus.toNat + 1

theorem toNat_tlskey {pidTgid cpu ncpus : Word} (hncpus : ncpus.toNat + 2 ^ 22 < 2 ^ 31)
    (h : Runs pidTgid cpu ncpus) (id : BitVec 32) :
    (dtTlskey pidTgid cpu ncpus id).val.toNat =
      taskNumber pidTgid cpu ncpus * 2 ^ 32 + id.toNat := by
  have htid := h.tid
  have hcpu := h.cpu
  have hid := id.isLt
  obtain ⟨key, hkey⟩ : ∃ key, key = (if tidOf pidTgid = 0 then cpu
    else tidOf pidTgid + (ncpus.truncate 32).zeroExtend 64) + 1 := ⟨_, rfl⟩
  have hnumber : key.toNat = taskNumber pidTgid cpu ncpus ∧ key.toNat < 2 ^ 31 := by
    rw [hkey, taskNumber]
    split <;> bv_omega
  have hmask : (key &&& 0x7fffffff).toNat = key.toNat := by
    rw [BitVec.toNat_and, show (0x7fffffff : Word).toNat = 2 ^ 31 - 1 from rfl,
      Nat.and_two_pow_sub_one_eq_mod, Nat.mod_eq_of_lt hnumber.2]
  have hval : (dtTlskey pidTgid cpu ncpus id).val =
      (key &&& 0x7fffffff) <<< 32 ||| id.zeroExtend 64 := by rw [hkey]; rfl
  rw [hval, ← hnumber.1, BitVec.toNat_or, BitVec.toNat_shiftLeft, hmask,
    BitVec.toNat_setWidth, Nat.mod_eq_of_lt (by omega), Nat.mod_eq_of_lt (by omega), ← Nat.shiftLeft_eq, Nat.shiftLeft_add_eq_or_of_lt hid]

theorem taskNumber_eq_iff {pidTgid cpu pidTgid' cpu' ncpus : Word} (h : Runs pidTgid cpu ncpus)
    (h' : Runs pidTgid' cpu' ncpus) :
    taskNumber pidTgid cpu ncpus = taskNumber pidTgid' cpu' ncpus ↔
      SameTask pidTgid cpu pidTgid' cpu' := by
  have hcpu := h.cpu
  have hcpu' := h'.cpu
  unfold taskNumber SameTask
  split <;> split <;> bv_omega

/-- The slot of an element of an array is the address of an element of the map. -/
theorem slot_assoc {dflt : V} {mem : KernelAddr → Word} {s : Sys T V}
    (h : (system dflt mem).Reach (fun _ _ => True) s) :
    ∀ key k, slot s.store (.assoc key) = some k → k.msb = true := by
  induction h with
  | init => exact fun key k hk => by cases hk
  | @step s s' e _ _ hstep ih =>
    intro key k hk
    cases e with
    | load var => exact ih key k (step_load hstep ▸ hk)
    | store var nval v room =>
      obtain ⟨_, hstore, -⟩ := step_store hstep
      rcases store_spec hstore with ⟨-, -, hslot, -, -⟩ | ⟨_, hst⟩
      · exact ih key k (hslot ▸ hk)
      · by_cases hvar : Var.assoc key = var
        · subst hvar
          rcases hst.own' with hown' | ⟨hown', -⟩
          · obtain rfl := Option.some.inj (hown'.symm.trans hk)
            rcases hst.own with hown | ⟨-, -, a, -, rfl⟩
            · exact ih key _ hown
            · exact a.2
          · rw [hown'] at hk
            cases hk
        · exact ih key k (hst.others _ hvar ▸ hk)

/-- **Keys of thread-local variables** differ for different tasks and variables, are not zero and
differ from the keys of array elements, for fewer than 2³¹ - 2²² CPUs. -/
theorem tlskey_distinct (ncpus : Word) (hncpus : ncpus.toNat + 2 ^ 22 < 2 ^ 31)
    (pidTgid cpu pidTgid' cpu' : Word) (h : Runs pidTgid cpu ncpus)
    (h' : Runs pidTgid' cpu' ncpus) (id id' : BitVec 32) :
    (dtTlskey pidTgid cpu ncpus id = dtTlskey pidTgid' cpu' ncpus id' ↔
      SameTask pidTgid cpu pidTgid' cpu' ∧ id = id') ∧
    (dtTlskey pidTgid cpu ncpus id).val ≠ 0 ∧
    ∀ (dflt : V) (mem : KernelAddr → Word) (s : Sys T V),
      (system dflt mem).Reach (fun _ _ => True) s →
        ∀ key, slot s.store (.assoc key) ≠ some (dtTlskey pidTgid cpu ncpus id).val := by
  have hval := toNat_tlskey hncpus h id
  have hval' := toNat_tlskey hncpus h' id'
  refine ⟨?_, fun h0 => ?_, fun dflt mem s hs key hkey => ?_⟩
  · rw [← taskNumber_eq_iff h h', Subtype.ext_iff, ← BitVec.toNat_inj, ← BitVec.toNat_inj]
    omega
  · rw [h0, taskNumber] at hval
    have : (0 : Word).toNat = 0 := rfl
    split at hval <;> omega
  · have hmsb := slot_assoc hs key _ hkey
    rw [(dtTlskey pidTgid cpu ncpus id).2] at hmsb
    cases hmsb

theorem tlskey_distinct_four : dtTlskey 1 0 4 7 ≠ dtTlskey 0 3 4 7 := fun h =>
  absurd ((@tlskey_distinct Unit Unit _ 4 (by decide) 1 0 0 3 ⟨by decide, by decide⟩
    ⟨by decide, by decide⟩ 7 7).1.mp h).1.1 (by decide)

/-- With 2³¹ - 1 CPUs, thread 1 has the key of the idle task of the first CPU. -/
theorem thread_has_idle_key : dtTlskey 1 0 0x7fffffff 7 = dtTlskey 0 0 0x7fffffff 7 ∧
    ¬ SameTask 1 0 0 0 ∧ Runs 1 0 0x7fffffff ∧ Runs 0 0 0x7fffffff :=
  ⟨by decide, fun h => absurd h.1 (by decide), ⟨by decide, by decide⟩, ⟨by decide, by decide⟩⟩

end DTrace.Dvar
