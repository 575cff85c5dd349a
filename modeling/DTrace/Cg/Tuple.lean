import DTrace.Cg.Eval
import DTrace.Lib.Area

/-!
# Tuples

`dt_cg_arglist` emits the code that puts the keys of an associative array or an aggregation together
in the tuple area of the CPU. The area is cleared first; then every key is put at the offset that
the ones before it leave. How a key is stored goes by the type of the argument, and how much of it
is stored by the type that the key has in the signature, which is the type it had where the compiler
first saw the array.

`Holds.arg` says what one argument adds to the tuple, and `tuple_eq` what the tuple is in the end: the
blocks of the arguments, one after another.
-/

namespace DTrace.Cg

open Bpf List Option

abbrev Byte := Fin 256

/-! ## Reading memory -/

/-- `bpf_probe_read` of the `n` bytes from a pointer on; `none` where memory cannot be read. -/
def probeRead : Nat → (Nat → Option Byte) → Option (List Byte)
  | 0, _ => some []
  | n + 1, mem => (mem 0).bind fun b => (probeRead n fun a => mem (a + 1)).map (b :: ·)

/-- `bpf_probe_read_str`: the characters up to the NUL, which is written in any case. -/
def probeReadStr : Nat → (Nat → Option Byte) → Option (List Byte)
  | 0, _ => some []
  | 1, mem => (mem 0).map fun _ => [0]
  | n + 2, mem => (mem 0).bind fun b =>
    if b = 0 then some [0] else (probeReadStr (n + 1) fun a => mem (a + 1)).map (b :: ·)

/-! ## The emitted code -/

/-- The type of a key, by how `dt_cg_arglist` tells them apart. -/
inductive ArgType where
  | scalar (t : IntType)
  | string (size : Nat)
  | byref (size : Nat)
  deriving DecidableEq, Repr

def ArgType.size : ArgType → Nat
  | .scalar t => t.size
  | .string size => size
  | .byref size => size

/-- What the code for a tuple does; `treg` is the register with the place in the tuple area. -/
inductive TupleOp where
  /-- `probe_read(treg, TUPSZ, zeros)` -/
  | clear
  /-- `%r0` is loaded from a stack slot -/
  | load (i : Nat)
  | typecast (src dst : ArgType)
  /-- `treg += n` -/
  | add (n : Nat)
  | storex (size : Width)
  | readStr (n : Nat)
  | read (n : Nat)
  /-- the key of the thread, or 0 -/
  | storeKey
  deriving DecidableEq, Repr

/-- `bpf_ldst_size`; other sizes are an internal error -/
def bpfLdstSize : Nat → Option Width
  | 1 => some .b
  | 2 => some .h
  | 4 => some .w
  | 8 => some .dw
  | _ => none

/-- `(tuplesize + (size - 1)) & ~(size - 1)` for a size that is a power of two -/
def nextoff (tuplesize size : Nat) : Nat := (tuplesize + (size - 1)) / size * size

/-- The code for argument `i`, and the size of the tuple after it. -/
def dtCgArg (i : Nat) (arg sig : ArgType) (tuplesize : Nat) : Option (List TupleOp × Nat) :=
  if arg.size = 0 then some ([], tuplesize)
  else
    -- the typecast may have changed the size
    let size := sig.size
    match arg with
    | .scalar _ => (bpfLdstSize size).map fun width =>
      ([.load i, .typecast arg sig] ++
        (if tuplesize < nextoff tuplesize size then [.add (nextoff tuplesize size - tuplesize)]
          else []) ++ [.storex width, .add size], nextoff tuplesize size + size)
    | .string _ =>
      some ([.load i, .typecast arg sig, .readStr (size + 1), .add (size + 1)],
        tuplesize + (size + 1))
    | .byref _ => some ([.load i, .typecast arg sig, .read size, .add size], tuplesize + size)

/-- An argument and the type its key has in the signature. -/
abbrev Arg := ArgType × ArgType

def dtCgArgs : Nat → List Arg → Nat → Option (List TupleOp × Nat)
  | _, [], tuplesize => some ([], tuplesize)
  | i, (arg, sig) :: args, tuplesize =>
    (dtCgArg i arg sig tuplesize).bind fun (code, tuplesize) =>
      (dtCgArgs (i + 1) args tuplesize).map fun (code', tuplesize) => (code ++ code', tuplesize)

structure TupleCode where
  code : List TupleOp
  tuplesize : Nat
  /-- `dt_maxtuplesize` after it -/
  maxtuplesize : Nat
  deriving DecidableEq, Repr

/-- `dt_cg_arglist`; there are `diftupregs` slots for keys -/
def dtCgArglist (diftupregs : Nat) (args : List Arg) (maxtuplesize : Nat) : Option TupleCode :=
  if diftupregs + 1 < args.length then none
  else (dtCgArgs 0 args 4).map fun (code, tuplesize) =>
    { code := [.clear, .add 4] ++ code ++ [.storeKey]
      tuplesize := tuplesize + 8
      maxtuplesize := max maxtuplesize (tuplesize + 8) }

/-! ## What it does -/

/-- The value of an argument: a number, or a pointer and the bytes that can be read from it on. -/
structure Operand where
  reg : BitVec 64
  mem : Nat → Option Byte

structure TupleState where
  area : Area
  treg : Nat
  r0 : Operand

/-- What does not change while the tuple is put together: the size of the area, the stack slots
and the key of the thread. -/
structure TupleEnv where
  tupsz : Nat
  slots : Nat → Operand
  key : BitVec 64

/-- The register after `dt_cg_typecast`. Where only one of the types is a scalar it is a pointer,
which has all 64 bits already. -/
def typecastReg : ArgType → ArgType → BitVec 64 → BitVec 64
  | .scalar src, .scalar dst, v => castValue src dst v
  | _, _, v => v

variable (env : TupleEnv)

def TupleOp.exec (st : TupleState) : TupleOp → Option TupleState
  | .clear => some { st with area := st.area.put st.treg (List.replicate env.tupsz 0) }
  | .load i => some { st with r0 := env.slots i }
  | .typecast src dst => some { st with r0.reg := typecastReg src dst st.r0.reg }
  | .add n => some { st with treg := st.treg + n }
  | .storex size =>
    some { st with area := st.area.put st.treg (leBytes size.bytes st.r0.reg.toNat) }
  -- a failed read is a fault, and the clause ends
  | .readStr n => (probeReadStr n st.r0.mem).map fun l => { st with area := st.area.put st.treg l }
  | .read n => (probeRead n st.r0.mem).map fun l => { st with area := st.area.put st.treg l }
  | .storeKey => some { st with area := st.area.put st.treg (leBytes 8 env.key.toNat) }

def execTuple (code : List TupleOp) (st : TupleState) : Option TupleState :=
  code.foldlM (TupleOp.exec env) st

/-- The tuple that is put together over what the area held before. -/
def TupleCode.tuple (t : TupleCode) (area : Area) : Option (List Byte) :=
  (execTuple env t.code ⟨area, 0, ⟨0, fun _ => none⟩⟩).map fun st => st.area.slice 0 t.tuplesize

/-! ## Blocks -/

/-- What an argument leaves in the tuple. -/
def block (arg sig : ArgType) (x : Operand) : Option (List Byte) :=
  if arg.size = 0 then some []
  else match arg with
  | .scalar _ => some (leBytes sig.size (typecastReg arg sig x.reg).toNat)
  | .string _ => (probeReadStr (sig.size + 1) x.mem).map fun l =>
    l ++ List.replicate (sig.size + 1 - l.length) 0
  | .byref _ => probeRead sig.size x.mem

/-- The length of the block. -/
def blockSize (arg sig : ArgType) : Nat :=
  if arg.size = 0 then 0
  else match arg with
  | .string _ => sig.size + 1
  | _ => sig.size

/-- The zeros before it. -/
def gap (arg sig : ArgType) (tuplesize : Nat) : Nat :=
  if arg.size = 0 then 0
  else match arg with
  | .scalar _ => nextoff tuplesize sig.size - tuplesize
  | _ => 0

/-- What `f` gives for the arguments from the `i`th on; `none` if it does for one. -/
def collect (f : ArgType → ArgType → Operand → Option (List Byte)) (slots : Nat → Operand) :
    Nat → List Arg → Option (List (List Byte))
  | _, [] => some []
  | i, (arg, sig) :: args =>
    (f arg sig (slots i)).bind fun b => (collect f slots (i + 1) args).map (b :: ·)

/-- The blocks of the arguments from offset `tuplesize` on. -/
def layout : Nat → List Arg → List (List Byte) → List Byte
  | tuplesize, (arg, sig) :: args, b :: bs =>
    List.replicate (gap arg sig tuplesize) 0 ++ b ++
      layout (tuplesize + gap arg sig tuplesize + blockSize arg sig) args bs
  | _, _, _ => []

theorem length_probeRead {n : Nat} {mem : Nat → Option Byte} {l : List Byte}
    (h : probeRead n mem = some l) : l.length = n := by
  induction n generalizing mem l with
  | zero =>
    obtain rfl := some.inj h
    rfl
  | succ n ih =>
    simp only [probeRead, bind_eq_some_iff, map_eq_some_iff] at h
    obtain ⟨b, -, _, hl', rfl⟩ := h
    rw [length_cons, ih hl']

theorem length_probeReadStr {n : Nat} {mem : Nat → Option Byte} {l : List Byte}
    (h : probeReadStr n mem = some l) : l.length ≤ n := by
  induction n, mem using probeReadStr.induct generalizing l with
  | case1 mem =>
    obtain rfl := some.inj h
    exact le_rfl
  | case2 mem =>
    simp only [probeReadStr, map_eq_some_iff] at h
    obtain ⟨_, -, rfl⟩ := h
    exact le_rfl
  | case3 n mem ih =>
    simp only [probeReadStr, bind_eq_some_iff] at h
    obtain ⟨b, -, h⟩ := h
    split at h
    · obtain rfl := some.inj h
      exact Nat.le_add_left 1 (n + 1)
    · obtain ⟨_, hl', rfl⟩ := map_eq_some_iff.mp h
      exact Nat.succ_le_succ (ih hl')

theorem length_block {arg sig : ArgType} {x : Operand} {b : List Byte}
    (h : block arg sig x = some b) : b.length = blockSize arg sig := by
  unfold block at h
  unfold blockSize
  split at h
  · next h0 =>
    obtain rfl := some.inj h
    rw [if_pos h0]
    rfl
  · next h0 =>
    rw [if_neg h0]
    cases arg with
    | scalar t =>
      obtain rfl := some.inj h
      exact length_leBytes ..
    | string n =>
      obtain ⟨l, hl, rfl⟩ := map_eq_some_iff.mp h
      have hle := length_probeReadStr hl
      rw [length_append, length_replicate]
      exact Nat.add_sub_of_le hle
    | byref n => exact length_probeRead h

/-! ## What the area holds -/

variable {env} {st : TupleState} {l : List Byte}

theorem execTuple_cons (op : TupleOp) (code : List TupleOp) (st : TupleState) :
    execTuple env (op :: code) st = (op.exec env st).bind (execTuple env code) := rfl

theorem execTuple_append (code code' : List TupleOp) (st : TupleState) :
    execTuple env (code ++ code') st = (execTuple env code st).bind (execTuple env code') :=
  foldlM_append

/-- The tuple so far, with zeros behind it. -/
structure Holds (env : TupleEnv) (st : TupleState) (l : List Byte) : Prop where
  area : st.area.Holds l env.tupsz
  treg : st.treg = l.length

/-- Either the code ends the clause and there is no block, or it adds the block. -/
def Adds (env : TupleEnv) (code : List TupleOp) (st : TupleState) (l : List Byte)
    (added : Option (List Byte)) : Prop :=
  match added with
  | none => execTuple env code st = none
  | some b => ∃ st', execTuple env code st = some st' ∧ Holds env st' (l ++ b)

theorem bytes_of_ldstSize {size : Nat} {width : Width} (h : bpfLdstSize size = some width) :
    width.bytes = size := by
  unfold bpfLdstSize at h
  split at h <;> cases h <;> rfl

theorem le_nextoff {size : Nat} (hsize : 0 < size) (tuplesize : Nat) :
    tuplesize ≤ nextoff tuplesize size := by
  have hdiv := Nat.div_add_mod (tuplesize + (size - 1)) size
  have hmod := Nat.mod_lt (tuplesize + (size - 1)) hsize
  unfold nextoff
  rw [Nat.mul_comm]
  omega

theorem Holds.scalar (h : Holds env st l) (width : Width)
    (i : Nat) (arg sig : ArgType) (pad : Nat) :
    Adds env ([.load i, .typecast arg sig] ++ (if 0 < pad then [.add pad] else []) ++
        [.storex width, .add width.bytes]) st l
      (some (List.replicate pad 0 ++
        leBytes width.bytes (typecastReg arg sig (env.slots i).reg).toNat)) := by
  have hpad : ∀ st : TupleState, execTuple env (if 0 < pad then [.add pad] else []) st =
      some { st with treg := st.treg + pad } := by
    intro st
    split
    · rfl
    · next h0 => rw [Nat.eq_zero_of_not_pos h0]; rfl
  refine ⟨⟨st.area.put (st.treg + pad)
    (leBytes width.bytes (typecastReg arg sig (env.slots i).reg).toNat),
    st.treg + pad + width.bytes, ⟨typecastReg arg sig (env.slots i).reg, (env.slots i).mem⟩⟩, ?_, ?_⟩
  · rw [execTuple_append]
    show ((execTuple env (if 0 < pad then [.add pad] else []) _).bind _) = _
    rw [hpad]
    rfl
  · have hput := h.area.put (show l.length ≤ l.length + pad from Nat.le_add_right ..)
      (leBytes width.bytes (typecastReg arg sig (env.slots i).reg).toNat)
    rw [Nat.add_sub_cancel_left, append_assoc] at hput
    refine ⟨h.treg ▸ hput, ?_⟩
    simp only [h.treg, length_append, length_replicate, length_leBytes]
    omega

/-- A read of at most `n` bytes, where `n` bytes are taken in the tuple. -/
theorem Holds.read (h : Holds env st l) (i : Nat)
    (arg sig : ArgType) (op : TupleOp) (n : Nat) (read : Option (List Byte))
    (hop : ∀ st : TupleState, st.r0.mem = (env.slots i).mem →
      op.exec env st = read.map fun b => { st with area := st.area.put st.treg b })
    (hread : ∀ b ∈ read, b.length ≤ n) :
    Adds env [.load i, .typecast arg sig, op, .add n] st l
      (read.map fun b => b ++ List.replicate (n - b.length) 0) := by
  have hexec : execTuple env [.load i, .typecast arg sig, op, .add n] st =
      read.map fun b => ⟨st.area.put st.treg b, st.treg + n,
        ⟨typecastReg arg sig (env.slots i).reg, (env.slots i).mem⟩⟩ := by
    show execTuple env (op :: _) _ = _
    rw [execTuple_cons, hop _ rfl]
    cases read <;> rfl
  cases hr : read with
  | none =>
    rw [hr] at hexec
    exact hexec
  | some b =>
    rw [hr] at hexec
    have hle := hread b hr
    have hput := (h.area.put (le_refl l.length) b).zeros (n - b.length)
    rw [Nat.sub_self, replicate_zero, append_nil, append_assoc] at hput
    refine ⟨_, hexec, h.treg ▸ hput, ?_⟩
    simp only [h.treg, length_append, length_replicate]
    omega

variable {code : List TupleOp}

theorem tuplesize_dtCgArg {i tuplesize n : Nat} {arg sig : ArgType}
    (hcode : dtCgArg i arg sig tuplesize = some (code, n)) :
    n = tuplesize + gap arg sig tuplesize + blockSize arg sig := by
  unfold dtCgArg at hcode
  unfold gap blockSize
  split at hcode
  · next h0 =>
    cases hcode
    simp only [if_pos h0, Nat.add_zero]
  · next h0 =>
    simp only [if_neg h0]
    cases arg with
    | scalar t =>
      obtain ⟨width, hwidth, hcode⟩ := map_eq_some_iff.mp hcode
      have hpos : 0 < sig.size := by
        rw [← bytes_of_ldstSize hwidth]
        exact width.bytes_pos
      have hle := le_nextoff hpos tuplesize
      cases hcode
      dsimp only
      omega
    | string k => cases hcode; rfl
    | byref k => cases hcode; rfl

/-- **One argument adds its block**, after the zeros that align it. -/
theorem Holds.arg (h : Holds env st l) {i n : Nat}
    {arg sig : ArgType} (hcode : dtCgArg i arg sig l.length = some (code, n)) :
    Adds env code st l ((block arg sig (env.slots i)).map
      fun b => List.replicate (gap arg sig l.length) 0 ++ b) := by
  unfold dtCgArg at hcode
  unfold gap block
  split at hcode
  · next h0 =>
    cases hcode
    simp only [if_pos h0]
    exact ⟨st, rfl, by simpa using h⟩
  · next h0 =>
    simp only [if_neg h0]
    cases arg with
    | scalar t =>
      obtain ⟨width, hwidth, hcode⟩ := map_eq_some_iff.mp hcode
      cases hcode
      have hadds := h.scalar width i (.scalar t) sig (nextoff l.length sig.size - l.length)
      simp only [bytes_of_ldstSize hwidth, Nat.sub_pos_iff_lt] at hadds
      exact hadds
    | string k =>
      cases hcode
      rw [Option.map_map]
      exact h.read i (.string k) sig (.readStr (sig.size + 1)) (sig.size + 1)
        (probeReadStr (sig.size + 1) (env.slots i).mem)
        (fun st hst => by rw [TupleOp.exec, hst]) fun b hb => length_probeReadStr hb
    | byref k =>
      cases hcode
      have hadds := h.read i (.byref k) sig (.read sig.size) sig.size
        (probeRead sig.size (env.slots i).mem)
        (fun st hst => by rw [TupleOp.exec, hst]) fun b hb => (length_probeRead hb).le
      -- a read that does not stop early leaves nothing to be filled
      cases hr : probeRead sig.size (env.slots i).mem with
      | none => simpa [hr] using hadds
      | some b => simpa [hr, length_probeRead hr] using hadds

theorem Adds.append {code code' : List TupleOp} {b : Option (List Byte)}
    (h : Adds env code st l b) (b' : Option (List Byte))
    (h' : ∀ st' b0, b = some b0 → Holds env st' (l ++ b0) → Adds env code' st' (l ++ b0) b') :
    Adds env (code ++ code') st l (b.bind fun b0 => b'.map (b0 ++ ·)) := by
  cases b with
  | none =>
    show execTuple env (code ++ code') st = none
    rw [execTuple_append, show execTuple env code st = none from h]
    rfl
  | some b0 =>
    obtain ⟨st', hst', hholds⟩ := h
    have hrest := h' st' b0 rfl hholds
    cases b' with
    | none =>
      show execTuple env (code ++ code') st = none
      rw [execTuple_append, hst']
      exact hrest
    | some b1 =>
      obtain ⟨st'', hst'', hholds'⟩ := hrest
      refine ⟨st'', ?_, append_assoc l b0 b1 ▸ hholds'⟩
      rw [execTuple_append, hst']
      exact hst''

def layoutSize : Nat → List Arg → Nat
  | tuplesize, [] => tuplesize
  | tuplesize, (arg, sig) :: args =>
    layoutSize (tuplesize + gap arg sig tuplesize + blockSize arg sig) args

theorem tuplesize_dtCgArgs {i tuplesize n : Nat} {args : List Arg}
    (hcode : dtCgArgs i args tuplesize = some (code, n)) : n = layoutSize tuplesize args := by
  induction args generalizing i tuplesize code with
  | nil =>
    cases hcode
    rfl
  | cons arg args ih =>
    simp only [dtCgArgs, bind_eq_some_iff, map_eq_some_iff] at hcode
    obtain ⟨⟨_, _⟩, hcode1, ⟨_, _⟩, hcode2, heq⟩ := hcode
    cases heq
    rw [layoutSize, ← tuplesize_dtCgArg hcode1]
    exact ih hcode2

/-- The arguments from the `i`th on add their blocks. -/
theorem Holds.args (h : Holds env st l) {i n : Nat}
    {args : List Arg} (hcode : dtCgArgs i args l.length = some (code, n)) :
    Adds env code st l ((collect block env.slots i args).map (layout l.length args)) := by
  induction args generalizing i code st l with
  | nil =>
    cases hcode
    exact ⟨st, rfl, by simpa [layout] using h⟩
  | cons arg args ih =>
    obtain ⟨arg, sig⟩ := arg
    simp only [dtCgArgs, bind_eq_some_iff, map_eq_some_iff] at hcode
    obtain ⟨⟨code1, n1⟩, hcode1, ⟨code2, _⟩, hcode2, heq⟩ := hcode
    cases heq
    have hn := tuplesize_dtCgArg hcode1
    have hadds : Adds env (code1 ++ code2) st l _ :=
      (h.arg hcode1).append ((collect block env.slots (i + 1) args).map (layout n1 args)) ?_
    · cases hb : block arg sig (env.slots i) with
      | none => simpa [collect, hb] using hadds
      | some b =>
        cases hbs : collect block env.slots (i + 1) args with
        | none => simpa [collect, hbs] using hadds
        | some bs => simpa [collect, hb, hbs, layout, ← hn] using hadds
    · intro st' b0 hb0 hholds
      obtain ⟨b, hb, rfl⟩ := map_eq_some_iff.mp hb0
      have hlen : (l ++ (List.replicate (gap arg sig l.length) 0 ++ b)).length = n1 := by
        rw [length_append, length_append, length_replicate, length_block hb, hn,
          Nat.add_assoc]
      rw [← hlen] at hcode2 ⊢
      exact ih hholds hcode2

theorem length_layout {slots : Nat → Operand} {i : Nat} {args : List Arg} {bs : List (List Byte)}
    (hbs : collect block slots i args = some bs) (tuplesize : Nat) :
    tuplesize + (layout tuplesize args bs).length = layoutSize tuplesize args := by
  induction args generalizing i bs tuplesize with
  | nil => rfl
  | cons arg args ih =>
    simp only [collect, bind_eq_some_iff, map_eq_some_iff] at hbs
    obtain ⟨b, hb, bs, hbs, rfl⟩ := hbs
    rw [layoutSize, ← ih hbs, layout, length_append, length_append, length_replicate,
      length_block hb]
    omega

/-- Four zeros, the blocks and the key of the thread. -/
def encode (key : BitVec 64) (args : List Arg) (bs : List (List Byte)) : List Byte :=
  List.replicate 4 0 ++ layout 4 args bs ++ leBytes 8 key.toNat

/-- The state in which the code for a tuple starts. -/
def TupleState.start (area : Area) : TupleState := ⟨area, 0, ⟨0, fun _ => none⟩⟩

variable (env) in
/-- **What the code does**: it ends the clause, or the area holds the tuple. -/
theorem execTuple_arglist {diftupregs maxtuplesize : Nat} {args : List Arg} {t : TupleCode}
    (ht : dtCgArglist diftupregs args maxtuplesize = some t) (area : Area) :
    match collect block env.slots 0 args with
    | none => execTuple env t.code (.start area) = none
    | some bs => (encode env.key args bs).length = t.tuplesize ∧ ∃ st,
      execTuple env t.code (.start area) = some st ∧
        st.area.Holds (encode env.key args bs) env.tupsz := by
  unfold dtCgArglist at ht
  split at ht
  · cases ht
  obtain ⟨⟨code, n⟩, hcode, rfl⟩ := map_eq_some_iff.mp ht
  have hstart : Holds env ⟨area.put 0 (List.replicate env.tupsz 0), 4, ⟨0, fun _ => none⟩⟩
      (List.replicate 4 0) :=
    ⟨(Area.holds_zeros area env.tupsz).zeros 4, rfl⟩
  have hadds := hstart.args hcode
  have hn := tuplesize_dtCgArgs hcode
  have hexec : execTuple env ([.clear, .add 4] ++ code ++ [.storeKey]) (.start area) =
      (execTuple env code ⟨area.put 0 (List.replicate env.tupsz 0), 4, ⟨0, fun _ => none⟩⟩).map
        fun st => { st with area := st.area.put st.treg (leBytes 8 env.key.toNat) } := by
    rw [execTuple_append]
    show (execTuple env code ⟨area.put 0 (List.replicate env.tupsz 0), 4, ⟨0, fun _ => none⟩⟩).bind
      _ = _
    cases execTuple env code _ <;> rfl
  dsimp only
  rw [hexec]
  cases hbs : collect block env.slots 0 args with
  | none =>
    rw [hbs] at hadds
    show Option.map _ _ = none
    rw [show execTuple env code _ = none from hadds]
    rfl
  | some bs =>
    rw [hbs] at hadds
    obtain ⟨st, hst, hholds⟩ := hadds
    have hlen := length_layout hbs 4
    have hput := hholds.area.put (le_refl _) (leBytes 8 env.key.toNat)
    rw [Nat.sub_self, replicate_zero, append_nil, ← hholds.treg] at hput
    refine ⟨?_, _, by rw [hst]; rfl, hput⟩
    simp only [encode, length_append, length_replicate, length_leBytes]
    omega

theorem tuplesize_le_max {diftupregs maxtuplesize : Nat} {args : List Arg} {t : TupleCode}
    (ht : dtCgArglist diftupregs args maxtuplesize = some t) : t.tuplesize ≤ t.maxtuplesize := by
  unfold dtCgArglist at ht
  split at ht
  · cases ht
  · obtain ⟨_, -, rfl⟩ := map_eq_some_iff.mp ht
    exact Nat.le_max_right ..

/-- **What the code puts together**, whatever was in the area before. -/
theorem tuple_eq {diftupregs maxtuplesize : Nat} {args : List Arg} {t : TupleCode}
    (ht : dtCgArglist diftupregs args maxtuplesize = some t) (hmax : t.maxtuplesize ≤ env.tupsz)
    (area : Area) :
    t.tuple env area = (collect block env.slots 0 args).map (encode env.key args) := by
  have hexec := execTuple_arglist env ht area
  have hle := tuplesize_le_max ht
  show (execTuple env t.code (.start area)).map _ = _
  cases hbs : collect block env.slots 0 args with
  | none =>
    rw [hbs] at hexec
    rw [show execTuple env t.code (.start area) = none from hexec]
    rfl
  | some bs =>
    rw [hbs] at hexec
    obtain ⟨hlen, st, hst, hholds⟩ := hexec
    have hslice := hholds.slice_eq (by omega)
    rw [hlen] at hslice
    rw [hst]
    exact congrArg some hslice

end DTrace.Cg
