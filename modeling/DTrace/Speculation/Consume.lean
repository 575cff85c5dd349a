import Mathlib.Logic.Function.Basic

/-!
# Speculations: the BPF side and the consumer

A clause that calls `speculate(id)` has its buffer held back by the consumer until a
`commit(id)` or `discard(id)` record comes by. The two sides share the `specs` map:

* the BPF functions `dt_speculation`, `dt_speculation_speculate` and
  `dt_speculation_set_drainable` (`bpf/speculation.c`);
* `dt_consume_one_probe` and `dt_commit_one_spec` (`dt_consume.c`), which hive speculative
  buffers off, start draining at the first commit or discard record, and walk the list of
  draining speculations at the end of every other buffer, except those of the default clause of
  `ERROR`, which go to a handler of their own.

An ID is used again once its speculation has been drained. `SpecRef.serial` and
`BpfSpecs.serial` number the uses; they are ghosts, and no function here reads them.
-/

namespace DTrace.Speculation

structure SpecRef where
  id : Nat
  serial : Nat
  deriving DecidableEq, Repr

/-- The record descriptions of a clause: commits, discards, and everything else. -/
inductive Act where
  | commit (r : SpecRef)
  | discard (r : SpecRef)
  | record
  deriving DecidableEq, Repr

/-- One buffer as a clause writes it; `spec.id` is zero outside speculations. -/
structure Buf (α : Type*) where
  cpu : Nat
  spec : SpecRef
  size : Nat
  acts : List Act
  data : α
  /-- `dtdd_uarg` is `DT_ECB_ERROR`: the clause is the default one of `ERROR` -/
  error : Bool
  deriving DecidableEq, Repr

/-! ## The `specs` map

Each function is one access of the map by the BPF side, since clauses on other CPUs may run in
between. -/

structure BpfSpecs where
  written : Nat
  draining : Bool
  serial : Nat
  deriving DecidableEq, Repr

abbrev SpecMap := Nat → Option BpfSpecs

inductive SpecDrop where
  | busy
  | unavail
  deriving DecidableEq, Repr

/-- `DT_MAX_NSPECS`. -/
def maxNspecs : Nat := 16

/-- The unrolled search of `dt_speculation`. -/
def searchSpec (nspec : Nat) (specs : SpecMap) : List Nat → Nat → Except SpecDrop Nat
  | [], busy => .error (if busy ≠ 0 then .busy else .unavail)
  | n :: ns, busy =>
    if n > nspec then .error (if busy ≠ 0 then .busy else .unavail)
    else
      match specs n with
      | none => .ok n
      | some spec => searchSpec nspec specs ns (if spec.draining then busy + 1 else busy)

def dtSpeculation (nspec serial : Nat) (specs : SpecMap) : Except SpecDrop (Nat × SpecMap) := do
  let id ← searchSpec nspec specs (List.range' 1 maxNspecs) 0
  .ok (id, Function.update specs id (some ⟨0, false, serial⟩))

/-- The lookup and the test of `dt_speculation_speculate`. -/
def speculateCheck (specs : SpecMap) (id : Nat) : Option BpfSpecs :=
  match specs id with
  | none => none
  | some spec => if spec.draining then none else some spec

/-- Its `atomic_add`, a separate step: other CPUs may run in between. -/
def speculateAdd (specs : SpecMap) (id : Nat) : SpecMap :=
  Function.update specs id ((specs id).map fun spec => { spec with written := spec.written + 1 })

/-- `none` is the fault raised for an ID out of range. -/
def dtSpeculationSetDrainable (nspec : Nat) (specs : SpecMap) (id : Nat) : Option SpecMap :=
  match specs id with
  | none => if id ≤ nspec then some specs else none
  | some spec => some (Function.update specs id (some { spec with draining := true }))

/-! ## The consumer

The state that `dt_consume_one_probe` works on, and its parts one after the other: the records of a
buffer, its data, the walk over the draining list. -/

/-- `dt_spec_buf`; its ID is the key in `Consumer.specBufs`. -/
structure SpecBuf (α : Type*) where
  size : Nat
  committing : Bool
  spec : BpfSpecs
  data : List (Buf α)

/-- `dtsb_draining`; `id` stands for the pointer `dtsd_dtsb`. -/
structure Draining where
  id : Nat
  read : Nat
  deriving DecidableEq, Repr

/-- `delivered` lists the buffers passed to the callbacks. -/
structure Consumer (α : Type*) where
  specBufs : Nat → Option (SpecBuf α)
  draining : List Draining
  specdrops : Nat
  delivered : List (Buf α)

inductive ConsumeRet where
  | next
  | this
  | done
  | abort
  deriving DecidableEq, Repr

structure Callbacks (α : Type*) where
  efunc : Buf α → ConsumeRet
  rfunc : Buf α → Nat → ConsumeRet
  /-- whether `dt_handle_err` returns zero -/
  errhdlr : Buf α → Bool

inductive Status where
  | okay
  | done
  | error
  deriving DecidableEq, Repr

inductive Peek where
  | no
  | start
  | again
  | finish
  deriving DecidableEq, Repr

variable {α : Type*}

/-- Replace the entry of an ID, or remove it. -/
def Consumer.setBuf (c : Consumer α) (id : Nat) (dtsb : Option (SpecBuf α)) : Consumer α :=
  { c with specBufs := Function.update c.specBufs id dtsb }

/-- A buffer within a speculation joins its spec buf, unless the size option is exceeded. -/
def hive (specsize : Nat) (b : Buf α) (c : Consumer α) : Consumer α :=
  let dtsb := c.specBufs b.spec.id
  let cursz := (dtsb.map SpecBuf.size).getD 0
  if cursz + b.size > specsize then { c with specdrops := c.specdrops + 1 }
  else
    let dtsb := dtsb.getD ⟨0, false, ⟨0, false, 0⟩, []⟩
    c.setBuf b.spec.id (some { dtsb with size := dtsb.size + b.size, data := dtsb.data ++ [b] })

/-- A commit or discard record in a buffer of `specid`; `none` when the map lookup or one of the
assertions before and after it fails. -/
def startDrain (specs : SpecMap) (specid id : Nat) (commit : Bool) (c : Consumer α) :
    Option (Consumer α) :=
  if specid ≠ 0 then none
  else
    match c.specBufs id with
    | none => some c
    | some dtsb =>
      if dtsb.spec.draining then some c
      else
        match specs id with
        | none => none
        | some spec =>
          if spec.draining then
            let c := c.setBuf id (some { dtsb with committing := commit, spec := spec })
            some { c with draining := c.draining ++ [⟨id, 0⟩] }
          else none

/-- The loop over the records of a buffer. -/
def scanActs (cb : Callbacks α) (specs : SpecMap) (b : Buf α) :
    List Act → Nat → Consumer α → Consumer α × Status
  | [], _, c => (c, .okay)
  | .commit r :: acts, i, c =>
    match startDrain specs b.spec.id r.id true c with
    | none => (c, .error)
    | some c' => scanActs cb specs b acts (i + 1) c'
  | .discard r :: acts, i, c =>
    match startDrain specs b.spec.id r.id false c with
    | none => (c, .error)
    | some c' => scanActs cb specs b acts (i + 1) c'
  | .record :: acts, i, c =>
    match cb.rfunc b i with
    | .next | .this => scanActs cb specs b acts (i + 1) c
    | .done | .abort => (c, .error)

/-- A clause of commits and discards only is not data-recording. -/
def dataRecording (acts : List Act) : Bool :=
  acts.isEmpty || acts.any (· = .record)

/-- From the call of `efunc` to the last of `rfunc`; `some` is an early return. -/
def consumeData (cb : Callbacks α) (specs : SpecMap) (b : Buf α) (recording : Bool)
    (c : Consumer α) : Consumer α × Option Status :=
  let scan (c : Consumer α) :=
    match scanActs cb specs b b.acts 0 c with
    | (c', .okay) => (c', none)
    | (c', st) => (c', some st)
  if recording then
    let c := { c with delivered := c.delivered ++ [b] }
    match cb.efunc b with
    | .next => (c, some .okay)
    | .done => (c, some .done)
    | .abort => (c, some .error)
    | .this => scan c
  else scan c

/-- Deliver the data of one speculation, in the order it was added. The test for the clause of
`ERROR` has been made when the data was hived off. -/
def dtCommitOneSpec (cb : Callbacks α) (specs : SpecMap) :
    List (Buf α) → Consumer α → Consumer α × Status
  | [], c => (c, .okay)
  | dsbd :: rest, c =>
    match consumeData cb specs dsbd true c with
    | (c', none) | (c', some .okay) => dtCommitOneSpec cb specs rest c'
    | (c', some st) => (c', st)

/-- The walk over the draining list; what stays on the list is put back in `c.draining`. -/
def drain (cb : Callbacks α) :
    List Draining → Consumer α → SpecMap → Consumer α × SpecMap × Status
  | [], c, specs => (c, specs, .okay)
  | dtsd :: rest, c, specs =>
    match c.specBufs dtsd.id with
    | none => drain cb rest c specs
    | some dtsb =>
      let dtsd' : Draining := { dtsd with read := dtsd.read + dtsb.data.length }
      let emptied := some { dtsb with size := 0, data := [] }
      match if dtsb.committing then dtCommitOneSpec cb specs dtsb.data c else (c, .okay) with
      | (c', .okay) =>
        if dtsd'.read < dtsb.spec.written then
          drain cb rest
            { c'.setBuf dtsd.id emptied with draining := c'.draining ++ [dtsd'] } specs
        else drain cb rest (c'.setBuf dtsd.id none) (Function.update specs dtsd.id none)
      | (c', st) =>
        ({ c'.setBuf dtsd.id emptied with draining := c'.draining ++ dtsd' :: rest }, specs, st)

/-- `dt_consume_one_probe` on a buffer from a ring (`committing` is zero). -/
def dtConsumeOneProbe (cb : Callbacks α) (specsize : Nat) (peek : Peek) (b : Buf α)
    (c : Consumer α) (specs : SpecMap) : Consumer α × SpecMap × Status :=
  -- nothing else is done for the default clause of `ERROR`, not even the walk
  if b.error then (c, specs, if cb.errhdlr b then .okay else .error)
  else if b.spec.id ≠ 0 then
    -- a buffer seen in an earlier pass has been hived off there
    if peek = .again ∨ peek = .finish then (c, specs, .okay)
    else (hive specsize b c, specs, .okay)
  else
    match consumeData cb specs b (dataRecording b.acts) c with
    | (c', some st) => (c', specs, st)
    | (c', none) => drain cb c'.draining { c' with draining := [] } specs

/-- The buffers of a CPU one after the other, as the inner loop of `dt_consume_cpu` has them. -/
def consumeRing (cb : Callbacks α) (specsize : Nat) (peek : Peek) :
    List (Buf α) → Consumer α → SpecMap → Consumer α × SpecMap × Status
  | [], c, specs => (c, specs, .okay)
  | b :: rest, c, specs =>
    match dtConsumeOneProbe cb specsize peek b c specs with
    | (c', specs', .okay) => consumeRing cb specsize peek rest c' specs'
    | (c', specs', st) => (c', specs', st)

end DTrace.Speculation
