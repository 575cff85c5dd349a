import DTrace.Lib.ByteMem

/-!
# DOF: the header, the sections and relocations

The parser gets DOF from processes it must not trust (`dof_parser.c`). The model reads it as the
parser does, byte by byte out of its memory: `Mem` is all of that memory, by distance from the
start of the DOF, so a read that leaves the DOF finds whatever is there. Only the first
`dofh_loadsz` bytes come from the process.

Every check reports an error and gives up, except that `dof_sect` is called for several sections
before the results are looked at, and each call reports its own. So a check that fails has a list
of errors. An error is the format and the arguments of `dof_error`.
-/

namespace DTrace.Dof

abbrev Mem := ByteMem

/-! ## Errors -/

inductive Errno
  | EINVAL
  | ENOMEM
  | E2BIG
  deriving DecidableEq, Repr

/-- An argument for a format: a number, or the address of a string. -/
inductive Arg
  | num (n : Nat)
  | str (p : Nat)
  deriving DecidableEq, Repr

structure Err where
  errno : Errno
  fmt : String
  args : List Arg
  deriving DecidableEq, Repr

abbrev Check := Except (List Err)

/-- `if (bad) { dof_error(...); return -1; }` -/
def dofErrorIf (bad : Prop) [Decidable bad] (fmt : String) (args : List Arg) : Check Unit :=
  if bad then .error [⟨.EINVAL, fmt, args⟩] else .ok ()

/-- A loop over `j < n` that ends with the first error. -/
def forFrom (check : Nat → Check Unit) : Nat → Nat → Check Unit
  | 0, _ => .ok ()
  | n + 1, j => do
    check j
    forFrom check n (j + 1)

def forUpto (n : Nat) (check : Nat → Check Unit) : Check Unit := forFrom check n 0

@[simp]
theorem dofErrorIf_ok {bad : Prop} [Decidable bad] {fmt : String} {args : List Arg} {u : Unit} :
    dofErrorIf bad fmt args = .ok u ↔ ¬bad := by
  unfold dofErrorIf
  split <;> simp [*]

@[simp]
theorem check_bind_ok {α β : Type} {x : Check α} {f : α → Check β} {b : β} :
    (x >>= f) = .ok b ↔ ∃ a, x = .ok a ∧ f a = .ok b := by
  cases x with
  | error e => simp [bind, Except.bind]
  | ok a => simp [bind, Except.bind]

theorem forFrom_ok {check : Nat → Check Unit} {n j : Nat} :
    forFrom check n j = .ok () ↔ ∀ i < n, check (j + i) = .ok () := by
  induction n generalizing j with
  | zero => simp [forFrom]
  | succ n ih =>
    rw [forFrom, check_bind_ok]
    constructor
    · rintro ⟨_, hj, hrest⟩ i hi
      cases i with
      | zero => exact hj
      | succ i =>
        have := ih.mp hrest i (by omega)
        rwa [Nat.add_assoc, Nat.add_comm 1 i] at this
    · intro h
      refine ⟨(), h 0 (by omega), ih.mpr fun i hi => ?_⟩
      have := h (i + 1) (by omega)
      rwa [Nat.add_assoc, Nat.add_comm 1 i]

@[simp]
theorem forUpto_ok {n : Nat} {check : Nat → Check Unit} {u : Unit} :
    forUpto n check = .ok u ↔ ∀ j < n, check j = .ok () := by
  rw [forUpto, forFrom_ok]
  simp

/-! ## Layout -/

def dofhIdent (m : Mem) (i : Nat) : Nat := m.u8 i

def dofhFlags (m : Mem) : Nat := m.u32 16

def dofhSecsize (m : Mem) : Nat := m.u32 24

def dofhSecnum (m : Mem) : Nat := m.u32 28

def dofhSecoff (m : Mem) : Nat := m.u64 32

def dofhLoadsz (m : Mem) : Nat := m.u64 40

/-- `sizeof(dof_hdr_t)` -/
def hdrSize : Nat := 64

/-- `DOF_ID_VERSION` -/
def version (m : Mem) : Nat := dofhIdent m 6

/-- `dof_sec_t` -/
structure Sec where
  type : Nat
  align : Nat
  flags : Nat
  entsize : Nat
  offset : Nat
  size : Nat
  deriving DecidableEq, Repr

/-- `sizeof(dof_sec_t)` -/
def secHdrSize : Nat := 32

def secAt (m : Mem) (p : Nat) : Sec :=
  ⟨m.u32 p, m.u32 (p + 4), m.u32 (p + 8), m.u32 (p + 12), m.u64 (p + 16), m.u64 (p + 24)⟩

/-- `dofs_flags & DOF_SECF_LOAD` -/
def Sec.loaded (s : Sec) : Bool := s.flags &&& 1 ≠ 0

/-- The address of the header of a section. The product has 32 bits. -/
def sectPtr (m : Mem) (i : Nat) : Nat := dofhSecoff m + i * dofhSecsize m % 2 ^ 32

namespace Sect

/-- Section types. -/
def none : Nat := 0

def strtab : Nat := 8

def reltab : Nat := 10

def urelhdr : Nat := 12

def provider : Nat := 15

def probes : Nat := 16

def prargs : Nat := 17

def proffs : Nat := 18

def prenoffs : Nat := 26

/-- `DOF_SEC_ISLOADABLE` -/
def isLoadable (type : Nat) : Bool :=
  type ∈ [3, 4, 5, 6, 7, 8, 9, 10, 11, 12, 13, 14, 15, 16, 17, 18, 19, 21, 22, 23, 24, 25, 26]

end Sect

/-! ## Sections -/

/-- The address of the header of a section that is referred to. -/
def dofSect (m : Mem) (sectype i : Nat) : Check Nat := do
  dofErrorIf (i ≥ dofhSecnum m) "referenced section index %u is invalid, above %u"
    [.num i, .num (dofhSecnum m)]
  let s := secAt m (sectPtr m i)
  dofErrorIf (!s.loaded) "referenced section %u is not loadable" [.num i]
  dofErrorIf (sectype ≠ Sect.none ∧ sectype ≠ s.type)
    "referenced section %u is the wrong type, %u, not %u" [.num i, .num s.type, .num sectype]
  return sectPtr m i

theorem dofSect_ok {m : Mem} {sectype i p : Nat} (h : dofSect m sectype i = .ok p) :
    p = sectPtr m i ∧ i < dofhSecnum m ∧ (secAt m p).loaded = true := by
  simp only [dofSect, check_bind_ok, dofErrorIf_ok] at h
  obtain ⟨_, _, _, hload, _, _, hp⟩ := h
  obtain rfl := Except.ok.inj hp
  exact ⟨rfl, by omega, by simpa using hload⟩

/-- The errors of a check whose result is looked at later. -/
def errorsOf {α : Type} : Check α → List Err
  | .error es => es
  | .ok _ => []

/-! ## Relocations -/

/-- The relocations of a section, each at the place after the one before. The headers are read
again every time. -/
def relocateLoop (rs ts ubase : Nat) : Nat → Nat → Mem → Check Mem
  | 0, _, m => .ok m
  | n + 1, r, m =>
    let type := m.u32 (r + 4)
    let offset := m.u64 (r + 8)
    let tsec := secAt m ts
    let taddr := tsec.offset + offset
    if type = 0 then relocateLoop rs ts ubase n (r + (secAt m rs).entsize) m
    else do
      dofErrorIf (type ≠ 1) "invalid relocation type %i" [.num type]
      dofErrorIf (offset ≥ tsec.size ∨ (offset + 8) % 2 ^ 64 > tsec.size)
        "bad relocation offset: offset %zi, section size %zi)" [.num offset, .num tsec.size]
      dofErrorIf (taddr % 8 ≠ 0) "misaligned setx relo" []
      -- the runtime loader may have done it already
      let m := if m.u64 taddr > ubase then m
        else m.write taddr (ByteMem.le64 (m.u64 taddr + ubase))
      relocateLoop rs ts ubase n (r + (secAt m rs).entsize) m

def dofRelocate (m : Mem) (p ubase : Nat) : Check Mem := do
  let s := secAt m p
  let dofr := s.offset
  dofErrorIf (s.size < 12 ∨ s.align ≠ 4)
    "invalid relocation header: size %zi (expected %zi); alignment %u (expected %zi)"
    [.num s.size, .num 12, .num s.align, .num 4]
  let ss := dofSect m Sect.strtab (m.u32 dofr)
  let rs := dofSect m Sect.reltab (m.u32 (dofr + 4))
  let ts := dofSect m Sect.none (m.u32 (dofr + 8))
  match ss, rs, ts with
  | .ok _, .ok rs, .ok ts =>
    let rsec := secAt m rs
    dofErrorIf (rsec.entsize < 24 ∨ rsec.align ≠ 8)
      "invalid relocation section: entsize %i (expected %zi); alignment %u (expected %zi)"
      [.num rsec.entsize, .num 24, .num rsec.align, .num 8]
    relocateLoop rs ts ubase (rsec.size / rsec.entsize % 2 ^ 32) rsec.offset m
  | ss, rs, ts => .error (errorsOf ss ++ errorsOf rs ++ errorsOf ts)

/-- The second pass over the sections. The number of sections is read again every time, as a
relocation may change it. -/
def relocateFrom (ubase : Nat) : Nat → Nat → Mem → Check Mem
  | 0, _, m => .ok m
  | fuel + 1, i, m =>
    if i < dofhSecnum m then do
      let s := secAt m (sectPtr m i)
      let m ← if s.loaded ∧ s.type = Sect.urelhdr then dofRelocate m (sectPtr m i) ubase
        else .ok m
      relocateFrom ubase fuel (i + 1) m
    else .ok m

/-! ## Slurping -/

def checkHeader (m : Mem) : Check Unit := do
  dofErrorIf (dofhLoadsz m < hdrSize) "load size %zi smaller than header %zi"
    [.num (dofhLoadsz m), .num hdrSize]
  dofErrorIf (¬(dofhIdent m 0 = 0x7f ∧ dofhIdent m 1 = 'D'.toNat ∧ dofhIdent m 2 = 'O'.toNat ∧
      dofhIdent m 3 = 'F'.toNat))
    "DOF magic string mismatch: %c%c%c%c versus %c%c%c%c\n"
    [.num (dofhIdent m 0), .num (dofhIdent m 1), .num (dofhIdent m 2), .num (dofhIdent m 3),
      .num 0x7f, .num 'D'.toNat, .num 'O'.toNat, .num 'F'.toNat]
  dofErrorIf (dofhIdent m 4 ≠ 1 ∧ dofhIdent m 4 ≠ 2) "DOF has invalid data model: %i"
    [.num (dofhIdent m 4)]
  dofErrorIf (dofhIdent m 5 ≠ 1) "DOF encoding mismatch: %i, expected %i"
    [.num (dofhIdent m 5), .num 1]
  dofErrorIf (version m ≠ 1 ∧ version m ≠ 2 ∧ version m ≠ 3) "DOF version mismatch: %i"
    [.num (version m)]
  dofErrorIf (dofhIdent m 7 ≠ 2) "DOF uses unsupported instruction set %i" [.num (dofhIdent m 7)]
  dofErrorIf (dofhIdent m 8 > 8) "DOF uses too many integer registers: %i > %i"
    [.num (dofhIdent m 8), .num 8]
  dofErrorIf (dofhIdent m 9 > 8) "DOF uses too many tuple registers: %i > %i"
    [.num (dofhIdent m 9), .num 8]
  forFrom (fun i => dofErrorIf (dofhIdent m i ≠ 0) "DOF has invalid ident byte set: %i = %i"
    [.num i, .num (dofhIdent m i)]) 6 10
  dofErrorIf (dofhFlags m ≠ 0) "DOF has invalid flag bits set: %xi" [.num (dofhFlags m)]
  dofErrorIf (dofhSecsize m = 0) "zero section header size" []
  let seclen := dofhSecnum m * dofhSecsize m
  dofErrorIf (dofhSecoff m > dofhLoadsz m ∨ seclen > dofhLoadsz m ∨
      (dofhSecoff m + seclen) % 2 ^ 64 > dofhLoadsz m)
    "truncated section headers: %zi, %zi, %zi"
    [.num (dofhSecoff m), .num (dofhLoadsz m), .num seclen]
  dofErrorIf (dofhSecoff m % 8 ≠ 0) "misaligned section headers" []
  dofErrorIf (dofhSecsize m % 8 ≠ 0) "misaligned section size" []

/-- The first pass over the sections. -/
def checkSection (m : Mem) (i : Nat) : Check Unit := do
  let s := secAt m (sectPtr m i)
  let len := dofhLoadsz m
  dofErrorIf (Sect.isLoadable s.type ∧ !s.loaded) "loadable section %i with load flag unset"
    [.num i]
  if s.loaded then
    dofErrorIf (s.align &&& (s.align - 1) ≠ 0) "bad section %i alignment %x" [.num i, .num s.align]
    dofErrorIf (s.offset &&& ((s.align + (2 ^ 32 - 1)) % 2 ^ 32) ≠ 0)
      "misaligned section %i: %lx, stated alignment %xi" [.num i, .num s.offset, .num s.align]
    dofErrorIf (s.offset > len ∨ s.size > len ∨ (s.offset + s.size) % 2 ^ 64 > len)
      "corrupt section %i header: offset %lx, size %lx, len %lx"
      [.num i, .num s.offset, .num s.size, .num len]
    dofErrorIf (s.type = Sect.strtab ∧ m.u8 (s.offset + s.size + (2 ^ 64 - 1)) ≠ 0)
      "section %i: non-0-terminated string table" [.num i]

/-- The memory after the relocations, if there was no error. -/
def dofSlurp (m : Mem) (ubase : Nat) : Check Mem := do
  checkHeader m
  forUpto (dofhSecnum m) (checkSection m)
  relocateFrom ubase (2 ^ 32) 0 m

/-! ## DOF without relocations -/

/-- Section `i` does not ask for relocations. -/
def NoRelocs (m : Mem) (i : Nat) : Prop :=
  ¬((secAt m (sectPtr m i)).loaded ∧ (secAt m (sectPtr m i)).type = Sect.urelhdr)

instance (m : Mem) (i : Nat) : Decidable (NoRelocs m i) := by unfold NoRelocs; infer_instance

theorem relocateFrom_of_noRelocs {m : Mem} (h : ∀ i < dofhSecnum m, NoRelocs m i)
    (ubase fuel i : Nat) : relocateFrom ubase fuel i m = .ok m := by
  induction fuel generalizing i with
  | zero => rfl
  | succ fuel ih =>
    rw [relocateFrom]
    split
    case isTrue hi =>
      rw [if_neg (h i hi)]
      exact ih (i + 1)
    case isFalse => rfl

theorem dofSlurp_of_noRelocs {m : Mem} (h : ∀ i < dofhSecnum m, NoRelocs m i)
    (hheader : checkHeader m = .ok ()) (hsecs : ∀ i < dofhSecnum m, checkSection m i = .ok ())
    (ubase : Nat) : dofSlurp m ubase = .ok m := by
  have hloop : forUpto (dofhSecnum m) (checkSection m) = .ok () := forUpto_ok.mpr hsecs
  rw [dofSlurp, hheader, hloop]
  exact relocateFrom_of_noRelocs h ubase _ _

/-- A loadable section and what is in it. -/
structure Part where
  type : Nat
  align : Nat
  entsize : Nat
  data : List (Fin 256)
  deriving DecidableEq, Repr

/-- The data, up to a multiple of eight bytes. -/
def Part.bytes (part : Part) : List (Fin 256) :=
  part.data ++ List.replicate ((8 - part.data.length % 8) % 8) 0

/-- The headers of sections that lie one after the other from `offset` on. -/
def Part.headers : Nat → List Part → List (Fin 256)
  | _, [] => []
  | offset, part :: parts =>
    [part.type, part.align, 1, part.entsize].flatMap ByteMem.le32 ++
      [offset, part.data.length].flatMap ByteMem.le64 ++
      Part.headers (offset + part.bytes.length) parts

/-- DOF with the sections: the header, the headers of the sections and the sections. -/
def image (version : Nat) (parts : List Part) : Mem :=
  let start := hdrSize + secHdrSize * parts.length
  let data := parts.flatMap Part.bytes
  let loadsz := start + data.length
  let bytes := [0x7f, 68, 79, 70, 2, 1, Fin.ofNat 256 version, 2, 8, 8, 0, 0, 0, 0, 0, 0] ++
    [0, hdrSize, secHdrSize, parts.length].flatMap ByteMem.le32 ++
    [hdrSize, loadsz, loadsz, 0].flatMap ByteMem.le64 ++ Part.headers start parts ++ data
  fun a => bytes.getD a 0

end DTrace.Dof
