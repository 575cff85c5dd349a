import DTrace.Dof.Slurp

/-!
# DOF: providers

A provider section refers to sections for its strings, probes, argument mappings, offsets and
is-enabled offsets. `validateProvider` checks it before anything is emitted for it. Sizes and
indices are compared as the code does it, with products of 32 bits.
-/

namespace DTrace.Dof

/-! ## Layout -/

/-- `dof_provider_t`, without the attributes. -/
structure Provider where
  strtab : Nat
  probes : Nat
  prargs : Nat
  proffs : Nat
  name : Nat
  prenoffs : Nat
  deriving DecidableEq, Repr

def providerAt (m : Mem) (p : Nat) : Provider :=
  ⟨m.u32 p, m.u32 (p + 4), m.u32 (p + 8), m.u32 (p + 12), m.u32 (p + 16), m.u32 (p + 40)⟩

/-- The size of `dof_provider_t`, which has no is-enabled offsets in version 1. -/
def providerSize (version : Nat) : Nat := if version = 1 then 40 else 44

/-- `dof_probe_t` -/
structure Probe where
  addr : Nat
  func : Nat
  name : Nat
  nargv : Nat
  xargv : Nat
  argidx : Nat
  offidx : Nat
  nargc : Nat
  xargc : Nat
  noffs : Nat
  enoffidx : Nat
  nenoffs : Nat
  deriving DecidableEq, Repr

def probeAt (m : Mem) (p : Nat) : Probe where
  addr := m.u64 p
  func := m.u32 (p + 8)
  name := m.u32 (p + 12)
  nargv := m.u32 (p + 16)
  xargv := m.u32 (p + 20)
  argidx := m.u32 (p + 24)
  offidx := m.u32 (p + 28)
  nargc := m.u8 (p + 32)
  xargc := m.u8 (p + 33)
  noffs := m.u16 (p + 34)
  enoffidx := m.u32 (p + 36)
  nenoffs := m.u16 (p + 40)

/-! ## Checks -/

/-- `count` entries from `idx` on wrap the index, or do not fit the section. -/
def badSpan (idx count : Nat) (s : Sec) : Prop :=
  (idx + count) % 2 ^ 32 < idx ∨ (idx + count) % 2 ^ 32 * s.entsize % 2 ^ 32 > s.size

instance (idx count : Nat) (s : Sec) : Decidable (badSpan idx count s) := by
  unfold badSpan; infer_instance

/-- The types of arguments are strings one after the other. The index has 32 bits, the address
has not. -/
def checkTypes (m : Mem) (strSize : Nat) (pre : Nat → Check Unit) (bad long : String) :
    Nat → Nat → Nat → Nat → Check Unit
  | 0, _, _, _ => .ok ()
  | n + 1, k, typeidx, typestr => do
    pre k
    dofErrorIf (typeidx ≥ strSize) bad [.num k, .num typeidx]
    let typesz := m.strlen typestr + 1
    dofErrorIf (typesz > 128) long [.num k, .str typestr]
    checkTypes m strSize pre bad long n (k + 1) ((typeidx + typesz) % 2 ^ 32) (typestr + typesz)

/-- The sections of a provider. -/
structure Secs where
  str : Sec
  prb : Sec
  arg : Sec
  off : Sec
  enoff : Option Sec
  deriving DecidableEq, Repr

/-- `uint_t nprobes` -/
def Secs.nprobes (secs : Secs) : Nat := secs.prb.size / secs.prb.entsize % 2 ^ 32

/-- `j` and the entry size have 32 bits, and so has their product. -/
def Sec.entry (s : Sec) (j : Nat) : Nat := s.offset + j * s.entsize % 2 ^ 32

/-- `strtab + idx` -/
def Secs.string (secs : Secs) (idx : Nat) : Nat := secs.str.offset + idx

/-- Without a section for is-enabled offsets there must not be any. Version 1 has none. -/
def checkEnoffs (m : Mem) (secs : Secs) (prb : Probe) : Check Unit :=
  if version m ≠ 1 then do
    match secs.enoff with
    | none =>
      dofErrorIf (prb.enoffidx ≠ 0 ∨ prb.nenoffs ≠ 0) "is-enabled offsets with null section" []
    | some enoff =>
      dofErrorIf (badSpan prb.enoffidx prb.nenoffs enoff)
        "invalid is-enabled offset %x (offset count %x, section entsize %x, size %lx)"
        [.num prb.enoffidx, .num prb.nenoffs, .num enoff.entsize, .num enoff.size]
    dofErrorIf (prb.noffs + prb.nenoffs = 0) "zero probe and is-enabled offsets" []
  else dofErrorIf (prb.noffs = 0) "zero probe offsets" []

def checkProbe (m : Mem) (secs : Secs) (j : Nat) : Check Unit := do
  let prb := probeAt m (secs.prb.entry j)
  dofErrorIf (prb.func ≥ secs.str.size) "invalid function name: strtab offset %x, max %lx"
    [.num prb.func, .num secs.str.size]
  dofErrorIf (m.strlen (secs.string prb.func) ≥ 128) "function name %s too long"
    [.str (secs.string prb.func)]
  dofErrorIf (prb.name ≥ secs.str.size) "invalid probe name: strtab offset %x, max %lx"
    [.num prb.name, .num secs.str.size]
  dofErrorIf (m.strlen (secs.string prb.name) ≥ 64) "probe name %s too long"
    [.str (secs.string prb.name)]
  dofErrorIf (badSpan prb.offidx prb.noffs secs.off)
    "invalid probe offset %x (offset count %x, section entsize %x, size %lx)"
    [.num prb.offidx, .num prb.noffs, .num secs.off.entsize, .num secs.off.size]
  checkEnoffs m secs prb
  dofErrorIf (badSpan prb.argidx prb.xargc secs.arg)
    "invalid args, idx %x (offset count %x, section entsize %x, size %lx)"
    [.num prb.argidx, .num prb.xargc, .num secs.arg.entsize, .num secs.arg.size]
  checkTypes m secs.str.size (fun _ => .ok ()) "bad native argument type for arg %i: %x"
    "native argument type for arg %i too long: %s" prb.nargc 0 prb.nargv (secs.string prb.nargv)
  let arg := fun k => m.u8 (secs.arg.offset + (prb.argidx + k) % 2 ^ 32)
  checkTypes m secs.str.size
    (fun k => dofErrorIf (arg k > prb.nargc)
      "bad native argument index for arg %i: %i (max %i)" [.num k, .num (arg k), .num prb.nargc])
    "bad translated argument type for arg %i: %x"
    "translated argument type for arg %i too long: %s" prb.xargc 0 prb.xargv
    (secs.string prb.xargv)

def checkSecs (m : Mem) (prov : Provider) (secs : Secs) : Check Unit := do
  dofErrorIf (prov.name ≥ secs.str.size) "invalid provider name offset: %u > %zi"
    [.num prov.name, .num secs.str.size]
  dofErrorIf (m.strlen (secs.string prov.name) ≥ 64) "provider name too long: %s"
    [.str (secs.string prov.name)]
  dofErrorIf (secs.prb.entsize = 0 ∨ secs.prb.entsize > secs.prb.size)
    "invalid entry size %x, max %lx" [.num secs.prb.entsize, .num secs.prb.size]
  dofErrorIf (secs.prb.entsize % 8 ≠ 0) "misaligned entry size %x" [.num secs.prb.entsize]
  dofErrorIf (secs.off.entsize ≠ 4) "invalid entry size %x" [.num secs.off.entsize]
  dofErrorIf (secs.off.offset % 4 ≠ 0) "misaligned section offset %lx" [.num secs.off.offset]
  dofErrorIf (secs.arg.entsize ≠ 1) "invalid entry size %x" [.num secs.arg.entsize]
  forUpto secs.nprobes (checkProbe m secs)

/-- The section with is-enabled offsets, if there is one. -/
def enoffSect (m : Mem) (prov : Provider) : Check (Option Nat) :=
  if version m ≠ 1 ∧ prov.prenoffs ≠ Sect.none then
    (dofSect m Sect.prenoffs prov.prenoffs).map some
  else .ok none

/-- `p` is the address of the section header. -/
def validateProvider (m : Mem) (p : Nat) : Check Unit := do
  let s := secAt m p
  dofErrorIf (s.type ≠ Sect.provider) "DOF is not provider DOF: %i" [.num s.type]
  dofErrorIf (s.offset % 4 ≠ 0) "misaligned section offset: %lx" [.num s.offset]
  dofErrorIf (s.size < providerSize (version m)) "provider section too small: %lx" [.num s.size]
  let prov := providerAt m s.offset
  let str := dofSect m Sect.strtab prov.strtab
  let prb := dofSect m Sect.probes prov.probes
  let arg := dofSect m Sect.prargs prov.prargs
  let off := dofSect m Sect.proffs prov.proffs
  match str, prb, arg, off with
  | .ok str, .ok prb, .ok arg, .ok off =>
    let enoff ← enoffSect m prov
    checkSecs m prov
      ⟨secAt m str, secAt m prb, secAt m arg, secAt m off, enoff.map (secAt m)⟩
  | str, prb, arg, off =>
    .error (errorsOf str ++ errorsOf prb ++ errorsOf arg ++ errorsOf off)

/-! ## Sections of a provider -/

/-- Strings, of which there are three, at 0, 2 and 4. -/
def strings : Part := ⟨Sect.strtab, 1, 0, [112, 0, 102, 0, 110, 0]⟩

def args : Part := ⟨Sect.prargs, 1, 1, []⟩

def offsets (offs : List Nat) : Part := ⟨Sect.proffs, 4, 4, offs.flatMap ByteMem.le32⟩

/-- The indices are those of the sections for strings, probes, arguments, offsets and is-enabled
offsets. -/
def provider (str prb arg off enoff : Nat) : Part :=
  ⟨Sect.provider, 4, 0, [str, prb, arg, off, 0, 0, 0, 0, 0, 0, enoff].flatMap ByteMem.le32⟩

/-- A probe with the first `noffs` offsets and `nenoffs` is-enabled offsets. -/
def probe (noffs nenoffs : Nat) : List (Fin 256) :=
  ByteMem.le64 0x1000 ++
    [2, 4, 0, 0, 0, 0, noffs * 2 ^ 16, 0, nenoffs, 0].flatMap ByteMem.le32

end DTrace.Dof
