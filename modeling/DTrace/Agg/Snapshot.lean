import DTrace.Agg.Store

/-!
# A snapshot is the aggregation of all inputs

The statements `(key, input)` of a program run on several CPUs; each CPU aggregates its own part
of them in its own map. `snapshot_eq_single` says that after a snapshot the consumer has the
data one CPU would have had, had it run all of them. The steps are

* `lookup_aggregateAll`: the map of a CPU holds, for every key, the fold of the key's inputs;
* `snapCpu_apply`: taking over the map of a CPU acts on every key on its own;
* `snapCpus_entryOf`: from a cleared hash, every CPU taken over adds its inputs to the fold.
-/

namespace DTrace.Agg

open List

variable {τ : Type*} [DecidableEq τ]

namespace Aggs

variable (aggs : Aggs)

/-- The map of a CPU that has run the given statements. -/
def aggregateAll (xs : List (AggKey τ × Input)) : CpuMap τ :=
  xs.foldl (fun map x => aggs.aggregate x.1 x.2 map) ∅

/-- The inputs of one key, in order. -/
def inputsOf (key : AggKey τ) (xs : List (AggKey τ × Input)) : List Input :=
  (xs.filter (·.1 = key)).map (·.2)

/-- The data words after a list of inputs. -/
def valsOf (key : AggKey τ) (xs : List Input) : List Word :=
  xs.foldl (fun vals x => (aggs.func key.id).update x vals) (aggs.func key.id).init

def dataOf (key : AggKey τ) (xs : List Input) : AggData :=
  ⟨aggs.gen key.id, aggs.valsOf key xs, xs.map fun x => (↑(aggs.gen key.id), x)⟩

omit [DecidableEq τ] in
theorem valsOf_snoc (key : AggKey τ) (xs : List Input) (x : Input) :
    aggs.valsOf key (xs ++ [x]) = (aggs.func key.id).update x (aggs.valsOf key xs) := by
  simp [valsOf]

theorem inputsOf_snoc (key : AggKey τ) (xs : List (AggKey τ × Input)) (x : AggKey τ × Input) :
    inputsOf key (xs ++ [x]) = inputsOf key xs ++ if x.1 = key then [x.2] else [] := by
  by_cases h : x.1 = key <;> simp [inputsOf, h]

/-! ## One CPU -/

theorem lookup_setGen_setDflt (key : AggKey τ) (map : CpuMap τ) :
    (aggs.setGen key (aggs.setDflt key map)).lookup key = some (aggs.fresh key) := by
  simp [setGen, setDflt, fresh, AggFunc.init]

variable {key key' : AggKey τ} {data : AggData}

theorem lookup_setDflt_ne (h : key' ≠ key) (map : CpuMap τ) :
    (aggs.setDflt key map).lookup key' = map.lookup key' :=
  AList.lookup_insert_ne h

theorem lookup_setGen_ne (h : key' ≠ key) (map : CpuMap τ) :
    (aggs.setGen key map).lookup key' = map.lookup key' := by
  unfold setGen
  split
  · exact AList.lookup_insert_ne h
  · rfl

theorem lookup_apply_ne (h : key' ≠ key) (x : Input) (map : CpuMap τ) :
    (aggs.apply key x map).lookup key' = map.lookup key' := by
  unfold apply
  split
  · exact AList.lookup_insert_ne h
  · rfl

theorem lookup_aggregate_ne (h : key' ≠ key) (x : Input) (map : CpuMap τ) :
    (aggs.aggregate key x map).lookup key' = map.lookup key' := by
  rw [aggregate, lookup_apply_ne aggs h, dtGetAgg]
  split
  · rfl
  · rw [lookup_setGen_ne aggs h, lookup_setDflt_ne aggs h]

theorem lookup_apply_self {map : CpuMap τ} (x : Input) (h : map.lookup key = some data) :
    (aggs.apply key x map).lookup key = some
      { data with
        vals := (aggs.func key.id).update x data.vals
        log := data.log ++ [(↑(aggs.gen key.id), x)] } := by
  simp [apply, h]

/-- **One CPU**: the data of a key is the fold of its inputs under the present generation. -/
theorem lookup_aggregateAll (key : AggKey τ) (xs : List (AggKey τ × Input)) :
    (aggs.aggregateAll xs).lookup key =
      if inputsOf key xs = [] then none else some (aggs.dataOf key (inputsOf key xs)) := by
  induction xs using List.reverseRecOn with
  | nil => rfl
  | append_singleton xs x ih =>
    have hall : aggs.aggregateAll (xs ++ [x]) = aggs.aggregate x.1 x.2 (aggs.aggregateAll xs) := by
      simp [aggregateAll]
    rw [hall, inputsOf_snoc]
    by_cases hkey : x.1 = key
    · subst hkey
      -- set up fresh data for the first input, or find what is there
      have hget : (aggs.dtGetAgg x.1 (aggs.aggregateAll xs)).lookup x.1 =
          some (aggs.dataOf x.1 (inputsOf x.1 xs)) := by
        by_cases hnil : inputsOf x.1 xs = []
        · rw [if_pos hnil] at ih
          have hnew : aggs.found x.1 (aggs.aggregateAll xs) = false := by simp [found, ih]
          rw [dtGetAgg, hnew, hnil]
          exact aggs.lookup_setGen_setDflt x.1 _
        · rw [if_neg hnil] at ih
          simp [dtGetAgg, found, ih, dataOf]
      rw [aggregate, lookup_apply_self aggs x.2 hget]
      simp [dataOf, valsOf_snoc]
    · rw [if_neg hkey, append_nil, lookup_aggregate_ne aggs (Ne.symm hkey), ih]

/-! ## Taking over data -/

/-- What becomes of the consumer's entry of a key when data for it is taken over. -/
def merged (key : AggKey τ) (entry : Option AggData) (data : AggData) : Option AggData :=
  aggs.dtAggregateSnapOne (fun _ => entry) key data key

theorem snapOne_eq (hash : AggHash τ) (key : AggKey τ) (data : AggData) :
    aggs.dtAggregateSnapOne hash key data =
      Function.update hash key (aggs.merged key (hash key) data) := by
  unfold merged dtAggregateSnapOne
  by_cases h0 : data.gen = 0
  · simp [h0]
  · cases hk : hash key with
    | none => simp [h0]
    | some agd =>
      simp only
      split_ifs <;> simp

theorem snapEntries_apply (key : AggKey τ) (l : List (Sigma fun _ : AggKey τ => AggData))
    (hnodup : l.NodupKeys) (hash : AggHash τ) :
    (l.foldl (fun hash e => aggs.dtAggregateSnapOne hash e.1 e.2) hash) key =
      match l.dlookup key with
      | some data => aggs.merged key (hash key) data
      | none => hash key := by
  induction l generalizing hash with
  | nil => rfl
  | cons e l ih =>
    obtain ⟨hnew, hnodup⟩ := nodupKeys_cons.mp hnodup
    rw [foldl_cons, ih hnodup, snapOne_eq]
    obtain ⟨k, data⟩ := e
    by_cases hk : k = key
    · subst hk
      have hnone : l.dlookup k = none := dlookup_eq_none.mpr hnew
      simp [hnone]
    · rw [dlookup_cons_ne _ _ (Ne.symm hk), Function.update_of_ne (Ne.symm hk)]

theorem snapCpu_apply (key : AggKey τ) (map : CpuMap τ) (hash : AggHash τ) :
    aggs.dtAggregateSnapCpu hash map key =
      match map.lookup key with
      | some data => aggs.merged key (hash key) data
      | none => hash key :=
  aggs.snapEntries_apply key map.entries map.nodupKeys hash

theorem merged_none (h : data.gen ≠ 0) : aggs.merged key none data = some data := by
  simp [merged, dtAggregateSnapOne, h]

theorem merged_same_gen {agd : AggData} (h : data.gen ≠ 0) (hgen : agd.gen = data.gen) :
    aggs.merged key (some agd) data = some
      { agd with
        vals := dtAggOneAgg (aggs.func key.id) agd.vals data.vals
        log := agd.log ++ data.log } := by
  simp [merged, dtAggregateSnapOne, h, hgen]

/-! ## All CPUs -/

omit [DecidableEq τ] in
theorem valsOf_append {key : AggKey τ} (hf : aggs.func key.id ≠ .stddev) (xs ys : List Input) :
    dtAggOneAgg (aggs.func key.id) (aggs.valsOf key xs) (aggs.valsOf key ys) =
      aggs.valsOf key (xs ++ ys) :=
  (mergeLaws hf).fold_merge xs ys

theorem merged_dataOf (hf : aggs.func key.id ≠ .stddev) (xs ys : List Input) :
    aggs.merged key (some (aggs.dataOf key xs)) (aggs.dataOf key ys) =
      some (aggs.dataOf key (xs ++ ys)) := by
  have hpos : (aggs.dataOf key ys).gen ≠ 0 := (aggs.gen key.id).ne_zero
  rw [aggs.merged_same_gen hpos (by rfl)]
  simp [dataOf, aggs.valsOf_append hf]

/-- The entry the consumer has for a key with the given inputs; `present` if it had one from an
earlier snapshot. -/
def entryOf (key : AggKey τ) (present : Bool) (xs : List Input) : Option AggData :=
  if present = true ∨ xs ≠ [] then some (aggs.dataOf key xs) else none

theorem snapCpu_entryOf (hf : aggs.func key.id ≠ .stddev) {present : Bool} {hash : AggHash τ}
    {xs : List Input} (h : hash key = aggs.entryOf key present xs) (ys : List (AggKey τ × Input)) :
    aggs.dtAggregateSnapCpu hash (aggs.aggregateAll ys) key =
      aggs.entryOf key present (xs ++ inputsOf key ys) := by
  rw [snapCpu_apply, lookup_aggregateAll]
  by_cases hnil : inputsOf key ys = []
  · simp [hnil, h]
  · have hpos : (aggs.dataOf key (inputsOf key ys)).gen ≠ 0 := (aggs.gen key.id).ne_zero
    simp only [hnil, if_false, h, entryOf]
    by_cases hold : present = true ∨ xs ≠ []
    · simp [hold, merged_dataOf aggs hf, hnil]
    · have hxs : xs = [] := by simpa using (not_or.mp hold).2
      rw [if_neg hold, merged_none aggs hpos, hxs]
      simp [hnil]

/-- **All CPUs**: taking over the maps one after the other collects the inputs. -/
theorem snapCpus_entryOf {C : Type*} (hf : aggs.func key.id ≠ .stddev) {present : Bool}
    (part : C → List (AggKey τ × Input)) (cpus : List C) {hash : AggHash τ} {xs : List Input}
    (h : hash key = aggs.entryOf key present xs) :
    (cpus.foldl (fun hash cpu => aggs.dtAggregateSnapCpu hash (aggs.aggregateAll (part cpu)))
      hash) key = aggs.entryOf key present (xs ++ cpus.flatMap fun cpu => inputsOf key (part cpu)) := by
  induction cpus generalizing hash xs with
  | nil => simpa using h
  | cons cpu cpus ih =>
    rw [foldl_cons, ih (snapCpu_entryOf aggs hf h (part cpu)), flatMap_cons,
      append_assoc]

theorem clear_eq_init {f : AggFunc} {vals : List Word} (h : vals.length = f.size) :
    f.clear vals = f.init := by
  cases f with
  | max | min =>
    obtain ⟨d, rfl⟩ := length_eq_one_iff.mp h
    rfl
  | _ => rfl

/-- Every entry has the data words of its aggregating function. -/
def HashOk (hash : AggHash τ) : Prop :=
  ∀ key agd, hash key = some agd → agd.vals.length = (aggs.func key.id).size

omit [DecidableEq τ] in
theorem clear_entryOf {hash : AggHash τ} (hok : aggs.HashOk hash) (key : AggKey τ) :
    aggs.dtraceAggregateClear hash key = aggs.entryOf key (hash key).isSome [] := by
  unfold dtraceAggregateClear
  cases hk : hash key with
  | none => rfl
  | some agd => simp [dtAggregateClearOne, clear_eq_init (hok key agd hk), entryOf, dataOf, valsOf]

end Aggs

/-- What is stored of data: everything but the ghost. -/
def AggData.stored (data : AggData) : Nat × List Word := (data.gen, data.vals)

/-- **A snapshot is the aggregation of all inputs**: whatever way the statements were spread over
the CPUs and in whatever order the CPUs are taken over, the consumer has for every key the data
of one CPU that ran all statements. A key without inputs is left with fresh data if the consumer
had it before. -/
theorem snapshot_eq_single {C : Type*} [DecidableEq C] (aggs : Aggs) (key : AggKey τ)
    (hf : aggs.func key.id ≠ .stddev) (xs : List (C × AggKey τ × Input)) (cpus : List C)
    (hnodup : cpus.Nodup) (hcpus : ∀ x ∈ xs, x.1 ∈ cpus) (hash : AggHash τ)
    (hok : aggs.HashOk hash) :
    let maps : C → CpuMap τ := fun cpu => aggs.aggregateAll ((xs.filter (·.1 = cpu)).map (·.2))
    (aggs.dtraceAggregateSnap maps cpus hash key).map AggData.stored =
      (((aggs.aggregateAll (xs.map (·.2))).lookup key).map AggData.stored).or
        ((hash key).map fun _ => (aggs.fresh key).stored) := by
  intro maps
  have hperm : (cpus.flatMap fun cpu => Aggs.inputsOf key ((xs.filter (·.1 = cpu)).map (·.2))).Perm
      (Aggs.inputsOf key (xs.map (·.2))) := by
    have hparts := flatMap_filter_perm Prod.fst hnodup hcpus
    have hmap := ((hparts.map Prod.snd).filter (·.1 = key)).map Prod.snd
    simpa [Aggs.inputsOf, map_flatMap, filter_flatMap] using hmap
  have hsnap := aggs.snapCpus_entryOf hf (fun cpu => (xs.filter (·.1 = cpu)).map (·.2)) cpus
    (aggs.clear_entryOf hok key)
  rw [nil_append] at hsnap
  rw [show aggs.dtraceAggregateSnap maps cpus hash key = _ from hsnap, Aggs.lookup_aggregateAll]
  have hvals := (mergeLaws hf).fold_perm hperm (mergeLaws hf).good_init
  by_cases hnil : Aggs.inputsOf key (xs.map (·.2)) = []
  · rw [hnil] at hperm ⊢
    rw [hperm.eq_nil]
    cases hk : hash key with
    | none => rfl
    | some agd => rfl
  · have hne : (cpus.flatMap fun cpu =>
        Aggs.inputsOf key ((xs.filter (·.1 = cpu)).map (·.2))) ≠ [] := fun h =>
      hnil (h ▸ hperm).symm.eq_nil
    simp only [Aggs.entryOf, hne, hnil, ne_eq, not_false_eq_true, or_true, if_true, if_false,
      Option.map_some, Option.some_or, Option.some.injEq]
    exact congrArg (Prod.mk _) hvals

/-- Two CPUs count the same key, and the minimum of another is on one of them only. -/
theorem snapshot_two_cpus :
    let aggs : Aggs := ⟨fun id => if id = 0 then .count else .min, fun _ => 1⟩
    let xs : List (Bool × AggKey Unit × Input) :=
      [(true, ⟨0, ()⟩, ⟨7, 1⟩), (false, ⟨0, ()⟩, ⟨5, 1⟩), (true, ⟨1, ()⟩, ⟨5, 1⟩)]
    let maps : Bool → CpuMap Unit := fun cpu =>
      aggs.aggregateAll ((xs.filter (·.1 = cpu)).map (·.2))
    (aggs.dtraceAggregateSnap maps [false, true] (fun _ => none) ⟨0, ()⟩).map AggData.stored =
      some (1, [2]) := by
  intro aggs xs maps
  rw [snapshot_eq_single aggs ⟨0, ()⟩ (by decide) xs [false, true] (by decide) (by decide) _
    (fun _ _ h => by cases h)]
  decide

end DTrace.Agg
