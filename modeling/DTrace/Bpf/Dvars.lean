import DTrace.Cg.Tuple
import DTrace.Dvar.Assoc

/-!
# The BPF machine with dynamic variables and kernel reads

Code that stores to dynamic variables, reads elements of associative arrays or follows kernel
pointers makes calls that change memory. `XInsn` adds the two calls expressions over plain
variables do without: the helper `bpf_probe_read` and the library function `dt_get_assoc`. The code
that `dt_cg_arglist` emits for a tuple is one instruction here: what it does to the tuple assembly
area is what its operations do, one after the other (`Cg.execTuple`).
The state carries the maps of `get_dvar.c` beside registers, stack and memory; a map gives the
**address** its value has in memory.

`dt_get_tvar` is the call of the smaller machine, with its effects on the maps. As long as it
only loads, the larger machine is the smaller one in the environment `XEnv.base`, and
fragments carry over (`frag_lift`).
-/

namespace DTrace.Bpf

open LabelCode BitVec

/-! ## Bytes -/

/-- `n` bytes copied from `src` to `dst`. -/
def copyMem (m : Mem) (dst src : BitVec 64) (n : Nat) : Mem :=
  fun a => if (a - dst).toNat < n then m (src + (a - dst)) else m a

variable {m : Mem} {n : Nat} {a v : BitVec 64}

theorem copyMem_at {dst src : BitVec 64} {i : Nat} (hi : i < n) (hn : n ≤ 2 ^ 64) :
    copyMem m dst src n (dst + BitVec.ofNat 64 i) = m (src + BitVec.ofNat 64 i) := by
  have hsub : dst + BitVec.ofNat 64 i - dst = BitVec.ofNat 64 i := by
    rw [add_comm, add_sub_cancel]
  have hlt : (BitVec.ofNat 64 i).toNat < n := by
    rw [toNat_ofNat, Nat.mod_eq_of_lt (by omega)]
    exact hi
  rw [copyMem, hsub, if_pos hlt]

/-- The address `i` bytes after the next one. -/
theorem add_one_add (x : BitVec 64) (i : Nat) :
    x + 1 + BitVec.ofNat 64 i = x + BitVec.ofNat 64 (i + 1) := by
  rw [add_assoc]
  apply eq_of_toNat_eq
  simp [Nat.add_comm]

theorem loadLE_congr {m' : Mem} {b : BitVec 64}
    (h : ∀ i < n, m (a + BitVec.ofNat 64 i) = m' (b + BitVec.ofNat 64 i)) :
    loadLE m a n = loadLE m' b n := by
  induction n generalizing a b with
  | zero => rfl
  | succ n ih =>
    have h0 : m a = m' b := by simpa using h 0 (by omega)
    have ht : loadLE m (a + 1) n = loadLE m' (b + 1) n :=
      ih fun i hi => by rw [add_one_add, add_one_add]; exact h (i + 1) (by omega)
    rw [loadLE, loadLE, h0, ht]

theorem loadLE_copyMem (m : Mem) (dst src : BitVec 64) {k : Nat} (hk : k ≤ n) (hn : n ≤ 2 ^ 64) :
    loadLE (copyMem m dst src n) dst k = loadLE m src k :=
  loadLE_congr fun _ hi => copyMem_at (by omega) hn

/-- A store changes only the bytes it covers. -/
theorem storeLE_of_ge {b : BitVec 64} (h : n ≤ (b - a).toNat) : storeLE m a v n b = m b := by
  induction n generalizing m a v with
  | zero => rfl
  | succ n ih =>
    have hsub : (b - (a + 1)).toNat = (b - a).toNat - 1 := by bv_omega
    have hne : b ≠ a := by
      rintro rfl
      simp at h
    rw [storeLE, ih (by omega), Function.update_of_ne hne]

theorem storeLE_at {i : Nat} (hi : i < n) (hn : n < 2 ^ 64) :
    storeLE m a v n (a + BitVec.ofNat 64 i) = (v >>> (8 * i)).truncate 8 := by
  induction n generalizing m a v i with
  | zero => omega
  | succ n ih =>
    cases i with
    | zero =>
      have hlt : n ≤ (a + 0#64 - (a + 1)).toNat := by
        simp
        omega
      rw [storeLE, storeLE_of_ge hlt]
      simp
    | succ i =>
      rw [storeLE, ← add_one_add, ih (by omega) (by omega), ← shiftRight_add,
        show 8 + 8 * i = 8 * (i + 1) by omega]

/-- A load of the bytes of `v` gives what fits of `v`. -/
theorem getLsbD_loadLE_of_bytes (hn : n ≤ 8)
    (h : ∀ i < n, m (a + BitVec.ofNat 64 i) = (v >>> (8 * i)).truncate 8) (i : Nat) :
    (loadLE m a n).getLsbD i = (decide (i < 8 * n) && v.getLsbD i) := by
  induction n generalizing a v i with
  | zero => simp [loadLE]
  | succ n ih =>
    have h0 : m a = v.truncate 8 := by simpa using h 0 (by omega)
    have htl := ih (by omega) (fun j hj => by
      rw [add_one_add, h (j + 1) (by omega), ← shiftRight_add,
        show 8 + 8 * j = 8 * (j + 1) by omega]) (i - 8)
    rw [loadLE, getLsbD_or, getLsbD_shiftLeft, htl, h0]
    by_cases hi : i < 8
    · simp [hi, show i < 64 by omega, show i < 8 * (n + 1) by omega]
    · have hlt : (i - 8 < 8 * n) ↔ (i < 8 * (n + 1)) := by omega
      simp [hi, hlt, show 8 + (i - 8) = i by omega]
      omega

/-- What was stored is loaded. -/
theorem truncate_loadLE_storeLE (m : Mem) (a v : BitVec 64) (hn : n ≤ 8) :
    (loadLE (storeLE m a v n) a n).truncate (n * 8) = v.truncate (n * 8) := by
  apply eq_of_getLsbD_eq
  intro i hi
  have hbytes : ∀ j < n, storeLE m a v n (a + BitVec.ofNat 64 j) = (v >>> (8 * j)).truncate 8 :=
    fun j hj => storeLE_at hj (by omega)
  rw [getLsbD_setWidth,
    getLsbD_setWidth, getLsbD_loadLE_of_bytes hn hbytes, decide_eq_true (by omega : i < 8 * n)]
  rfl

/-! ## The machine

The smaller machine, with memory that calls may write and the maps of the dynamic variables beside
it. -/

/-- The calls that the smaller machine does not have. -/
inductive XFunc where
  /-- `bpf_probe_read` -/
  | probeRead
  | dtGetAssoc
  deriving DecidableEq, Repr

inductive XInsn where
  | insn (i : Insn)
  | call (f : XFunc)
  /-- a tuple is assembled, and the address of the area is left in a register -/
  | arglist (reg : Nat) (t : Cg.TupleCode)
  deriving DecidableEq, Repr

abbrev XIr := Code XInsn

/-- Code of the smaller machine. -/
def lift (c : Ir) : XIr := c.map (Node.map .insn)

@[simp] theorem lift_nil : lift [] = [] := rfl

@[simp] theorem lift_cons (l : Nat) (i : Insn) (c : Ir) :
    lift (⟨l, i⟩ :: c) = ⟨l, .insn i⟩ :: lift c := rfl

@[simp] theorem lift_append (c d : Ir) : lift (c ++ d) = lift c ++ lift d := List.map_append

@[simp] theorem labels_lift (c : Ir) : labels (lift c) = labels c := labels_map _ c

/-- The address of a value in the `dvars` map. -/
abbrev ValAddr := { a : BitVec 64 // a ≠ 0 }

/-- A tuple without the variable ID, as the bytes of the tuple assembly area. -/
abbrev Tuple := List (BitVec 8)

abbrev Dvars := Dvar.Store Tuple ValAddr

/-- The address of a dynamic variable's value, `NULL` if it has none. -/
def addrOf (dv : Dvars) (var : Dvar.Var Tuple) : BitVec 64 :=
  match (Dvar.slot dv var).bind dv.dvars with
  | some a => a
  | none => 0

structure XState where
  st : State
  dvars : Dvars

/-- What the kernel decides: the results of the other calls (`env`), which kernel memory can be
read and what a failed read leaves behind, the running thread, the sizes of tuples and of
dynamic variables, the room there is in the maps and where a new value is put, what a call
leaves in the argument registers, and for the tuples of a clause where the area of the CPU is, what
the keys evaluate to and what `dt_tlskey` gives. -/
structure XEnv where
  env : Env
  readable : BitVec 64 → BitVec 64 → Mem → Bool
  unread : BitVec 64 → BitVec 64 → Mem → Mem
  pidTgid : BitVec 64
  cpu : BitVec 64
  ncpus : BitVec 64
  tupleSize : Nat
  dvarSize : Nat
  room : Mem → Dvars → Dvar.Room × ValAddr
  junk : XState → Nat → BitVec 64
  tupleAddr : BitVec 64 := 0
  keys : Nat → Cg.Operand := fun _ => ⟨0, fun _ => none⟩
  tlskey : BitVec 64 := 0

/-- The bytes from an address on. -/
def areaAt (m : Mem) (a : BitVec 64) : Area := fun i => (m (a + BitVec.ofNat 64 i)).toFin

/-- The first `n` bytes of an area, put where it is. -/
def putArea (m : Mem) (a : BitVec 64) (n : Nat) (area : Area) : Mem := fun b =>
  if (b - a).toNat < n then .ofFin (area (b - a).toNat) else m b

namespace XEnv
variable (X : XEnv)

/-- The thread-local variable with an ID, in the running thread. -/
def tvar (id : BitVec 64) : Dvar.Var Tuple :=
  .tls (Dvar.dtTlskey X.pidTgid X.cpu X.ncpus (id.truncate 32))

/-- `TUPSZ` counts the variable ID in front of the tuple. -/
def tupleEnv : Cg.TupleEnv := ⟨4 + X.tupleSize, X.keys, X.tlskey⟩

/-- The element that the tuple at an address stands for. -/
def assoc (id tuple : BitVec 64) (m : Mem) : Dvar.Var Tuple :=
  .assoc ⟨id.truncate 32, List.ofFn fun i : Fin X.tupleSize =>
    m (tuple + BitVec.ofNat 64 (4 + i))⟩

/-- `dt_get_dvar` for a variable: memory and the maps after it, and the address returned. A new
value is a copy of the default. `none` if `room` is an element the map cannot give. -/
def getDvar (var : Dvar.Var Tuple) (store nval dflt : BitVec 64) (m : Mem) (dv : Dvars) :
    Option (Mem × Dvars × BitVec 64) :=
  let (room, fresh) := X.room m dv
  (Dvar.get room var (store != 0) nval fresh dv).map fun (dv', key) =>
    let created := key.any fun k => (dv.dvars k).isNone
    (if created then copyMem m fresh dflt X.dvarSize else m, dv', match key.bind dv'.dvars with
      | some a => a
      | none => 0)

/-- The smaller machine's environment, while the maps do not change. -/
def base (dv : Dvars) : Env where
  ret f args m :=
    match f, args with
    | .dtGetTvar, [id, store, nval, _] =>
      if store = 0 ∧ nval = 0 then some (addrOf dv (X.tvar id)) else none
    | f, args => X.env.ret f args m
  clobber := X.env.clobber

end XEnv

/-- `%r0` holds the result, `%r1` .. `%r5` hold anything. -/
def XState.afterCall (s : XState) (junk : Nat → BitVec 64) (v : BitVec 64) : XState :=
  ⟨s.st.afterCall junk v, s.dvars⟩

def State.setMem (s : State) (m : Mem) : State := { s with mem := m }

/-- `-EFAULT` -/
def efault : BitVec 64 := -14

def xexec (X : XEnv) : XInsn → XState → Outcome XState
  | .insn (.call .dtGetTvar), s =>
    match X.getDvar (X.tvar (s.st.regs 1)) (s.st.regs 2) (s.st.regs 3) (s.st.regs 4) s.st.mem
        s.dvars with
    | some (m, dv, v) => .next (XState.afterCall ⟨s.st.setMem m, dv⟩
        (X.env.clobber .dtGetTvar (s.st.args .dtGetTvar) s.st.mem) v)
    | none => .stuck
  | .insn i, s => (exec (X.base s.dvars) i s.st).map (⟨·, s.dvars⟩)
  | .call .probeRead, s =>
    let dst := s.st.regs 1
    let size := s.st.regs 2
    let src := s.st.regs 3
    if X.readable src size s.st.mem then
      .next (XState.afterCall ⟨s.st.setMem (copyMem s.st.mem dst src size.toNat), s.dvars⟩
        (X.junk s) 0)
    else
      .next (XState.afterCall ⟨s.st.setMem (X.unread dst size s.st.mem), s.dvars⟩
        (X.junk s) efault)
  | .call .dtGetAssoc, s =>
    -- the variable ID is placed at the beginning of the tuple
    let m := storeLE s.st.mem (s.st.regs 2) (s.st.regs 1) 4
    let var := X.assoc (s.st.regs 1) (s.st.regs 2) m
    match X.getDvar var (s.st.regs 3) (s.st.regs 4) (s.st.regs 5) m s.dvars with
    | some (m', dv, v) => .next (XState.afterCall ⟨s.st.setMem m', dv⟩ (X.junk s) v)
    | none => .stuck
  | .arglist reg t, s =>
    match Cg.execTuple X.tupleEnv t.code (.start (areaAt s.st.mem X.tupleAddr)) with
    | some st => .next ⟨(s.st.setMem (putArea s.st.mem X.tupleAddr (4 + X.tupleSize) st.area)).setReg
        reg X.tupleAddr, s.dvars⟩
    -- a key that cannot be read is a fault
    | none => .halt s

section
variable (s : XState) (junk : Nat → BitVec 64) (v : BitVec 64)

theorem XState.afterCall_regs {q : Nat} (h : 5 < q) :
    (s.afterCall junk v).st.regs q = s.st.regs q := by
  simp [XState.afterCall, State.afterCall, show q ≠ 0 by omega, show ¬q ≤ 5 by omega]

end

variable {X : XEnv}

theorem xexec_probeRead {s : XState} {dst size src : BitVec 64} (h1 : s.st.regs 1 = dst)
    (h2 : s.st.regs 2 = size) (h3 : s.st.regs 3 = src)
    (hread : X.readable src size s.st.mem = true) :
    xexec X (.call .probeRead) s =
      .next (XState.afterCall ⟨s.st.setMem (copyMem s.st.mem dst src size.toNat), s.dvars⟩
        (X.junk s) 0) := by
  simp only [xexec, h1, h2, h3, hread, if_true]

theorem xexec_dtGetAssoc {s : XState} {id tuple store nval dflt : BitVec 64} {m' : Mem}
    {dv : Dvars} (h1 : s.st.regs 1 = id) (h2 : s.st.regs 2 = tuple) (h3 : s.st.regs 3 = store)
    (h4 : s.st.regs 4 = nval) (h5 : s.st.regs 5 = dflt) (hm : m = storeLE s.st.mem tuple id 4)
    (h : X.getDvar (X.assoc id tuple m) store nval dflt m s.dvars = some (m', dv, v)) :
    xexec X (.call .dtGetAssoc) s =
      .next (XState.afterCall ⟨s.st.setMem m', dv⟩ (X.junk s) v) := by
  subst hm
  simp only [xexec, h1, h2, h3, h4, h5, h]

theorem xexec_dtGetTvar {s : XState} {id store nval dflt : BitVec 64} {m' : Mem} {dv : Dvars}
    (h1 : s.st.regs 1 = id) (h2 : s.st.regs 2 = store) (h3 : s.st.regs 3 = nval)
    (h4 : s.st.regs 4 = dflt)
    (h : X.getDvar (X.tvar id) store nval dflt s.st.mem s.dvars = some (m', dv, v)) :
    xexec X (.insn (.call .dtGetTvar)) s = .next (XState.afterCall ⟨s.st.setMem m', dv⟩
      (X.env.clobber .dtGetTvar (s.st.args .dtGetTvar) s.st.mem) v) := by
  simp only [xexec, h1, h2, h3, h4, h]

/-! ## What a call for a dynamic variable gives

`dt_get_dvar` and `dt_get_assoc` are those of the maps; here their result is read as an address in
memory, so that generated code can load and store through it. -/

section
variable (X : XEnv) (var : Dvar.Var Tuple) (dflt : BitVec 64) (m : Mem) (dv : Dvars)

theorem match_filter_bind (dv : Dvars) (slot : Option Dvar.Word) :
    (match ((slot.filter fun key => (dv.dvars key).isSome).bind dv.dvars) with
      | some a => a.val
      | none => 0) =
    match slot.bind dv.dvars with
      | some a => a.val
      | none => 0 := by
  cases slot with
  | none => rfl
  | some key => cases hkey : dv.dvars key <;> simp [Option.filter, hkey]

/-- A load changes nothing and returns the address. -/
theorem XEnv.getDvar_load : X.getDvar var 0 0 dflt m dv = some (m, dv, addrOf dv var) := by
  have hcreated : ((Dvar.slot dv var).filter fun key => (dv.dvars key).isSome).any
      (fun k => (dv.dvars k).isNone) = false := by
    cases Dvar.slot dv var with
    | none => rfl
    | some key => cases hkey : dv.dvars key <;> simp [hkey]
  simp only [getDvar, bne_self_eq_false, Dvar.get_load, Option.map_some, hcreated,
    match_filter_bind]
  rfl

end

section
variable {X : XEnv} {var : Dvar.Var Tuple} {nval dflt a : BitVec 64} {m m' : Mem} {dv dv' : Dvars}

/-- The address a store is given is the address the variable then has. -/
theorem XEnv.getDvar_store (h : X.getDvar var 1 nval dflt m dv = some (m', dv', a)) (ha : a ≠ 0) :
    addrOf dv' var = a := by
  obtain ⟨⟨dv1, key⟩, hget, heq⟩ := Option.map_eq_some_iff.mp h
  obtain ⟨-, rfl, rfl⟩ : _ ∧ dv1 = dv' ∧ _ = a := by simpa using heq
  cases key with
  | none => exact absurd rfl ha
  | some key =>
    obtain ⟨hslot, -⟩ := Dvar.get_some hget
    simp only [addrOf, hslot]
    rfl

/-- A store of zero is a deletion. -/
theorem XEnv.getDvar_delete (X : XEnv) (var : Dvar.Var Tuple) (dflt : BitVec 64) (m : Mem)
    (dv : Dvars) :
    ∃ dv', X.getDvar var 1 0 dflt m dv = some (m, dv', 0) ∧ addrOf dv' var = 0 := by
  obtain ⟨dv', hget, hnone⟩ := Dvar.get_delete (X.room m dv).1 var (X.room m dv).2 dv
  refine ⟨dv', ?_, by simp only [addrOf, hnone]⟩
  show (Dvar.get _ _ true _ _ _).map _ = _
  rw [hget]
  rfl

end

/-- Where the smaller machine is not stuck, the larger one does what it does. -/
theorem xexec_insn (X : XEnv) (dv : Dvars) (i : Insn) (s : State)
    (h : exec (X.base dv) i s ≠ .stuck) :
    xexec X (.insn i) ⟨s, dv⟩ = (exec (X.base dv) i s).map (⟨·, dv⟩) := by
  by_cases hi : i = .call .dtGetTvar
  · subst hi
    have hargs : s.args .dtGetTvar = [s.regs 1, s.regs 2, s.regs 3, s.regs 4] := rfl
    by_cases hload : s.regs 2 = 0 ∧ s.regs 3 = 0
    · have hret : (X.base dv).ret .dtGetTvar (s.args .dtGetTvar) s.mem =
          some (addrOf dv (X.tvar (s.regs 1))) := by
        simp only [XEnv.base, hargs, if_pos hload]
      simp only [exec, hret, xexec, hload.1, hload.2, XEnv.getDvar_load]
      rfl
    · refine absurd ?_ h
      have hret : (X.base dv).ret .dtGetTvar (s.args .dtGetTvar) s.mem = none := by
        simp only [XEnv.base, hargs, if_neg hload]
      simp only [exec, hret]
  · cases i with
    | call f =>
      cases f with
      | dtGetTvar => exact absurd rfl hi
      | dtGetBvar => rfl
      | dtProbeError => rfl
    | _ => rfl

/-- Fragments of the smaller machine are fragments of the larger one. -/
theorem frag_lift {dv : Dvars} {c : Ir} {σ σ' : State} (h : Frag (exec (X.base dv)) c σ σ') :
    Frag (xexec X) (lift c) ⟨σ, dv⟩ ⟨σ', dv⟩ :=
  h.embed (fun i s hs => xexec_insn X dv i s hs) (x := .lddwHi) fun _ => rfl

theorem block_lift {dv : Dvars} {c : Ir} {σ σ' : State} (h : Block (exec (X.base dv)) c σ σ') :
    Block (xexec X) (lift c) ⟨σ, dv⟩ ⟨σ', dv⟩ :=
  fun hnd => frag_lift (h (by rwa [lift, labels_map] at hnd))

end DTrace.Bpf
