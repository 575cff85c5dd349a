import Mathlib.Data.List.AList
import Mathlib.Data.PNat.Basic
import DTrace.Agg.Func

/-!
# Aggregation storage

Every CPU has a map from keys to data; the consumer has a hash of its own, which a snapshot
fills from all of them. A key starts with the ID of its aggregation, and every ID has a
generation in the `agggen` map. Data carries the generation it was set up under.

* `dtGetAgg` (`bpf/get_agg.c`) finds or sets up the data on a CPU;
* `dtAggregateSnapOne`, `dtAggregateSnapCpu` and `dtraceAggregateSnap` (`dt_aggregate.c`) are the
  snapshot;
* `dtClear` (`dt_consume.c`) is the action `clear()`.

`AggData.log` is a ghost: the inputs that went into the data, each with the generation it was
aggregated under.
-/

namespace DTrace.Agg

structure AggKey (τ : Type*) where
  id : Nat
  tuple : τ
  deriving DecidableEq, Repr

structure AggData where
  gen : Nat
  vals : List Word
  log : List (Nat × Input)
  deriving DecidableEq, Repr

variable {τ : Type*} [DecidableEq τ]

abbrev CpuMap (τ : Type*) := AList fun _ : AggKey τ => AggData

abbrev AggHash (τ : Type*) := AggKey τ → Option AggData

/-- By this name the first generation is the same term wherever it stands. -/
instance neZeroGen : NeZero 1 := ⟨Nat.one_ne_zero⟩

/-- The aggregating function and the generation of every aggregation ID. Generations start
at 1. -/
structure Aggs where
  func : Nat → AggFunc
  gen : Nat → ℕ+

namespace Aggs

variable (aggs : Aggs)

/-- Data set up for a key under the present generation. -/
def fresh (key : AggKey τ) : AggData := ⟨aggs.gen key.id, (aggs.func key.id).init, []⟩

/-- Data of the present generation is used as it is. -/
def found (key : AggKey τ) (map : CpuMap τ) : Bool :=
  match map.lookup key with
  | some data => aggs.gen key.id ≤ data.gen
  | none => false

/-- Otherwise the data starts with all zeroes, the generation included, -/
def setDflt (key : AggKey τ) (map : CpuMap τ) : CpuMap τ :=
  map.insert key ⟨0, List.replicate (aggs.func key.id).size 0, []⟩

/-- and gets its initial value, if that is not zero, and last its generation. -/
def setGen (key : AggKey τ) (map : CpuMap τ) : CpuMap τ :=
  match map.lookup key with
  | some data =>
    let ival := (aggs.func key.id).ival
    map.insert key
      { data with
        gen := aggs.gen key.id
        vals := if ival ≠ 0 then data.vals.set 0 ival else data.vals }
  | none => map

/-- The map after `dt_get_agg`, in a map that has room: an update that fails leaves the map as it
was, and the statement does nothing. -/
def dtGetAgg (key : AggKey τ) (map : CpuMap τ) : CpuMap τ :=
  if aggs.found key map then map else aggs.setGen key (aggs.setDflt key map)

/-- The aggregating function applied to the data of a key. -/
def apply (key : AggKey τ) (x : Input) (map : CpuMap τ) : CpuMap τ :=
  match map.lookup key with
  | some data =>
    map.insert key
      { data with
        vals := (aggs.func key.id).update x data.vals
        log := data.log ++ [(↑(aggs.gen key.id), x)] }
  | none => map

/-- One aggregation statement on one CPU (`dt_cg_agg`). -/
def aggregate (key : AggKey τ) (x : Input) (map : CpuMap τ) : CpuMap τ :=
  aggs.apply key x (aggs.dtGetAgg key map)

def dtAggregateClearOne (key : AggKey τ) (agd : AggData) : AggData :=
  ⟨aggs.gen key.id, (aggs.func key.id).clear agd.vals, []⟩

def dtraceAggregateClear (hash : AggHash τ) : AggHash τ := fun key =>
  (hash key).map (aggs.dtAggregateClearOne key)

def dtAggregateSnapOne (hash : AggHash τ) (key : AggKey τ) (data : AggData) : AggHash τ :=
  if data.gen = 0 then hash
  else
    match hash key with
    | some agd =>
      let agd := if data.gen > agd.gen then aggs.dtAggregateClearOne key agd else agd
      if data.gen < agd.gen then Function.update hash key (some agd)
      else
        Function.update hash key (some { agd with
          vals := dtAggOneAgg (aggs.func key.id) agd.vals data.vals
          log := agd.log ++ data.log })
    | none => Function.update hash key (some data)

def dtAggregateSnapCpu (hash : AggHash τ) (map : CpuMap τ) : AggHash τ :=
  map.entries.foldl (fun hash e => aggs.dtAggregateSnapOne hash e.1 e.2) hash

def dtraceAggregateSnap {C : Type*} (maps : C → CpuMap τ) (cpus : List C) (hash : AggHash τ) :
    AggHash τ :=
  cpus.foldl (fun hash cpu => aggs.dtAggregateSnapCpu hash (maps cpu))
    (aggs.dtraceAggregateClear hash)

/-- `clear()` moves an aggregation on to its next generation and clears the whole hash. -/
def dtClear (id : Nat) (hash : AggHash τ) : Aggs × AggHash τ :=
  let aggs : Aggs := { aggs with gen := Function.update aggs.gen id (aggs.gen id + 1) }
  (aggs, aggs.dtraceAggregateClear hash)

end Aggs

end DTrace.Agg
