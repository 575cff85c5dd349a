import DTrace.Lib.Search
import DTrace.Dof.Validate

/-!
# DOF: what the parser writes

For every provider the parser writes a message with the number of its probes, for every probe one
with the number of its tracepoints, and one for every tracepoint. Before a probe is written its
offsets are checked once more (`validateProbe`), for which they are sorted in place: writing the
messages changes the DOF.
-/

namespace DTrace.Dof

/-- The bytes of a string. -/
def strAt (m : Mem) (p : Nat) : List (Fin 256) :=
  (List.range (m.strlen p)).map fun i => m ((p + i) % 2 ^ 64)

/-- `dof_parsed_t` -/
inductive Msg
  | provider (nprobes : Nat) (name : List (Fin 256))
  | probe (ntp : Nat) (mod func name : List (Fin 256))
  | tracepoint (addr : Nat) (isEnabled : Bool)
  | err (e : Err)
  deriving DecidableEq, Repr

/-- `dof_helper_t` -/
structure Helper where
  mod : List (Fin 256)
  addr : Nat
  deriving DecidableEq, Repr

/-- `dtrace_helper_probedesc_t`. Strings and arrays are addresses. -/
structure ProbeDesc where
  prov : Nat
  mod : List (Fin 256)
  func : Nat
  name : Nat
  base : Nat
  offs : Nat
  noffs : Nat
  enoffs : Nat
  nenoffs : Nat
  args : Nat
  xargc : Nat
  nargc : Nat
  xtypes : Nat
  ntypes : Nat
  deriving DecidableEq, Repr

abbrev Qsort := (Nat → Nat → Int) → List Nat → List Nat

/-- The difference of two words as a signed one. -/
def uint32Cmp (a b : Nat) : Int := (BitVec.ofNat 32 a - BitVec.ofNat 32 b).toInt

def sortWords (qsort : Qsort) (m : Mem) (p n : Nat) : Mem :=
  m.writeWords p (qsort uint32Cmp (m.words p n))

/-- `base + offs[i]` -/
def tpAddr (m : Mem) (base offs i : Nat) : Nat := (base + m.u32 (offs + 4 * i)) % 2 ^ 64

/-- Every offset is above the one before. -/
def checkUnique (m : Mem) (fmt : String) (base offs n : Nat) : Check Unit :=
  forFrom (fun i => dofErrorIf (tpAddr m base offs i ≤ tpAddr m base offs (i - 1)) fmt
    [.num i, .num (tpAddr m base offs i), .num (tpAddr m base offs (i - 1))]) (n - 1) 1

/-- The DOF with the offsets sorted, and the result. -/
def validateProbe (qsort : Qsort) (m : Mem) (d : ProbeDesc) : Mem × Check Unit :=
  let m := sortWords qsort m d.offs d.noffs
  match checkUnique m "non-unique USDT offsets at %i: %li <= %li" d.base d.offs d.noffs with
  | .error es => (m, .error es)
  | .ok _ =>
    let m := sortWords qsort m d.enoffs d.nenoffs
    (m, do
      checkUnique m "non-unique is-enabled USDT offsets at %i: %li <= %li" d.base d.enoffs d.nenoffs
      dofErrorIf (d.noffs = 0 ∧ d.nenoffs = 0) "USDT probe with zero tracepoints" [])

def emitTps (m : Mem) (base offs n : Nat) (isEnabled : Bool) : List Msg :=
  (List.range n).map fun i => .tracepoint (tpAddr m base offs i) isEnabled

def emitProbe (qsort : Qsort) (m : Mem) (d : ProbeDesc) : List Msg × Mem :=
  match validateProbe qsort m d with
  | (m, .error es) => (es.map .err, m)
  | (m, .ok _) =>
    (.probe (d.noffs + d.nenoffs) d.mod (strAt m d.func) (strAt m d.name) ::
      emitTps m d.base d.offs d.noffs false ++ emitTps m d.base d.enoffs d.nenoffs true, m)

/-- What `emit_provider` finds out before it writes anything. -/
structure Tables where
  strtab : Nat
  /-- the address of the header of the section with the probes -/
  prb : Nat
  off : Nat
  arg : Nat
  enoff : Option Nat
  name : Nat
  nprobes : Nat
  deriving DecidableEq, Repr

def tablesOf (m : Mem) (p : Nat) : Tables :=
  let prov := providerAt m (secAt m p).offset
  let prb := secAt m (sectPtr m prov.probes)
  { strtab := (secAt m (sectPtr m prov.strtab)).offset
    prb := sectPtr m prov.probes
    off := (secAt m (sectPtr m prov.proffs)).offset
    arg := (secAt m (sectPtr m prov.prargs)).offset
    -- is-enabled probes of version 2 are ignored
    enoff := if version m ≥ 3 ∧ prov.prenoffs ≠ Sect.none then
        some (secAt m (sectPtr m prov.prenoffs)).offset
      else none
    name := prov.name
    nprobes := prb.size / prb.entsize }

/-- The section with the probes is looked up again for every probe. -/
def probeDesc (dhp : Helper) (m : Mem) (t : Tables) (i : Nat) : ProbeDesc :=
  let probe := probeAt m ((secAt m t.prb).entry i)
  { prov := t.strtab + t.name
    mod := dhp.mod
    func := t.strtab + probe.func
    name := t.strtab + probe.name
    base := probe.addr
    offs := t.off + 4 * probe.offidx
    noffs := probe.noffs
    enoffs := match t.enoff with
      | some enoff => enoff + 4 * probe.enoffidx
      | none => 0
    nenoffs := if t.enoff.isSome then probe.nenoffs else 0
    args := t.arg + probe.argidx
    xargc := probe.xargc
    nargc := probe.nargc
    xtypes := t.strtab + probe.xargv
    ntypes := t.strtab + probe.nargv }

/-- The DOF before probe `i` is written. -/
def memBefore (qsort : Qsort) (dhp : Helper) (m : Mem) (t : Tables) : Nat → Mem
  | 0 => m
  | i + 1 =>
    let m := memBefore qsort dhp m t i
    (emitProbe qsort m (probeDesc dhp m t i)).2

def emitProvider (qsort : Qsort) (dhp : Helper) (m : Mem) (p : Nat) : List Msg × Mem :=
  let t := tablesOf m p
  (.provider t.nprobes (strAt m (t.strtab + t.name)) ::
    (List.range t.nprobes).flatMap (fun i =>
      let m := memBefore qsort dhp m t i
      (emitProbe qsort m (probeDesc dhp m t i)).1),
    memBefore qsort dhp m t t.nprobes)

/-! ## Parsing -/

/-- The provider sections, from section `i` on. `none` for a provider that is not valid, with
which parsing ends. -/
def parseFrom (qsort : Qsort) (dhp : Helper) : Nat → Nat → Mem → List Msg × Option Nat
  | 0, _, _ => ([], some 0)
  | fuel + 1, i, m =>
    if i < dofhSecnum m then
      let p := sectPtr m i
      if (secAt m p).type ≠ Sect.provider then parseFrom qsort dhp fuel (i + 1) m
      else
        match validateProvider m p with
        | .error es => (es.map .err, none)
        | .ok _ =>
          let (msgs, m) := emitProvider qsort dhp m p
          let (rest, count) := parseFrom qsort dhp fuel (i + 1) m
          (msgs ++ rest, count.map (· + 1))
    else ([], some 0)

/-- If nothing was written, an empty provider wakes up the caller. -/
def dofParse (qsort : Qsort) (dhp : Helper) (m : Mem) : List Msg :=
  match dofSlurp m dhp.addr with
  | .error es => es.map .err
  | .ok m =>
    match parseFrom qsort dhp (2 ^ 32) 0 m with
    | (_, some 0) => [.provider 0 []]
    | (msgs, _) => msgs

end DTrace.Dof
