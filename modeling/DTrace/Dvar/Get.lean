import Mathlib.Data.BitVec
import DTrace.Lib.ElemMap

/-!
# Dynamic variables

Thread-local variables and elements of associative arrays have their values in the `dvars` map,
under a key of 64 bits (`bpf/get_dvar.c`). The key of a thread-local variable is made from the
thread and the variable, with the highest bit clear. For an element of an associative array, the
`tuples` map has the key under the variable ID and the tuple, and it is the address of an element
of that map: of the element the tuple had when it was created.

The functions return the address of a value in `dvars`, which the model gives as the key the
value is under; the caller then loads the value or stores to it (`load`, `store`). What the maps
do when they are asked for room is a parameter (`Room`).
-/

namespace DTrace.Dvar

universe u

abbrev Word := BitVec 64

/-- The address of an element of a map is a kernel address. -/
abbrev KernelAddr := { a : Word // a.msb = true }

/-- A key of a thread-local variable. -/
abbrev TlsKey := { k : Word // k.msb = false }

theorem msb_tlskey (key : Word) (id : BitVec 32) :
    (((key &&& 0x7fffffff) <<< 32) ||| id.zeroExtend 64).msb = false := by
  simp [BitVec.msb_eq_getLsbD_last]

/-- `pidTgid`, `cpu` and `ncpus` are what the kernel has for the present thread. -/
def dtTlskey (pidTgid cpu ncpus : Word) (id : BitVec 32) : TlsKey :=
  let key := pidTgid &&& 0x00000000ffffffff
  let key := if key = 0 then cpu else key + (ncpus.truncate 32).zeroExtend 64
  let key := key + 1
  ⟨((key &&& 0x7fffffff) <<< 32) ||| id.zeroExtend 64, msb_tlskey key id⟩

/-- The variable ID stands at the beginning of the tuple. -/
structure AssocKey (T : Type*) where
  id : BitVec 32
  tuple : T
  deriving DecidableEq

/-- What the maps answer when one call asks them for room: the element for a new tuple, the
element its value is then put in, and whether `dvars` has room. `none` is a map that is full. -/
structure Room where
  create : Option KernelAddr
  place : Option KernelAddr
  dvars : Bool
  deriving DecidableEq

structure Store (T V : Type u) [DecidableEq T] where
  tuples : ElemMap (AssocKey T) KernelAddr Word
  dvars : Word → Option V
  drops : BitVec 32

variable {T V : Type u} [DecidableEq T]

/-- A dynamic variable drop is counted, and nothing is returned. -/
def dtNoDvar (s : Store T V) : Store T V × Option Word := ({ s with drops := s.drops + 1 }, none)

def dtGetDvar (room : Room) (key : Word) (store : Bool) (nval : Word) (dflt : V) (s : Store T V) :
    Store T V × Option Word :=
  if store ∧ nval = 0 then ({ s with dvars := Function.update s.dvars key none }, none)
  else
    match s.dvars key with
    | some _ => (s, some key)
    | none =>
      if !store then (s, none)
      else if room.dvars then
        ({ s with dvars := Function.update s.dvars key (some dflt) }, some key)
      else dtNoDvar s

/-- `none` if the element in `room` is one the map cannot give. -/
def dtGetAssoc (room : Room) (key : AssocKey T) (store : Bool) (nval : Word) (dflt : V)
    (s : Store T V) : Option (Store T V × Option Word) :=
  match s.tuples.lookup key with
  | none =>
    if !store ∨ nval = 0 then some (s, none)
    else
      match room.create with
      | none => some (dtNoDvar s)
      | some valp => do
        let tuples ← s.tuples.update key 0 valp
        -- `*valp = (uint64_t)valp`
        let tuples := tuples.write valp valp
        match room.place with
        | none => some (dtNoDvar { s with tuples := tuples })
        | some elem =>
          let tuples ← tuples.update key (tuples.mem valp) elem
          let val := tuples.mem valp
          some (dtGetDvar room val store nval dflt { s with tuples := tuples })
  | some valp =>
    let val := s.tuples.mem valp
    let tuples := if store ∧ nval = 0 then s.tuples.delete key else s.tuples
    some (dtGetDvar room val store nval dflt { s with tuples := tuples })

/-! ## Loads and stores -/

inductive Var (T : Type*)
  | tls (key : TlsKey)
  | assoc (key : AssocKey T)
  deriving DecidableEq

def get (room : Room) (var : Var T) (store : Bool) (nval : Word) (dflt : V) (s : Store T V) :
    Option (Store T V × Option Word) :=
  match var with
  | .tls key => some (dtGetDvar room key store nval dflt s)
  | .assoc key => dtGetAssoc room key store nval dflt s

/-- A load needs no room. Without a value the variable has its default. -/
def load (var : Var T) (dflt : V) (s : Store T V) : Option V :=
  (get ⟨none, none, false⟩ var false 0 dflt s).bind fun (s, addr) => addr.bind s.dvars

/-- The store to the address that was returned, if any. -/
def assign (v : V) (r : Store T V × Option Word) : Store T V × Bool :=
  match r.2 with
  | some key => ({ r.1 with dvars := Function.update r.1.dvars key (some v) }, true)
  | none => (r.1, false)

/-- The state after a store of `v`, and whether it was stored. `nval` is the register with `v` or
with its address, so it is zero for a zero or a null pointer. -/
def store (room : Room) (var : Var T) (nval : Word) (v dflt : V) (s : Store T V) :
    Option (Store T V × Bool) :=
  (get room var true nval dflt s).map (assign v)

end DTrace.Dvar
