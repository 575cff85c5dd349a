import DTrace.Bpf.Insn

/-!
# Trampolines

A trampoline is the BPF program attached to a probe. It copies the arguments of the probe into the
machine state, calls the clauses of the probe, and then emulates the firing of each dependent
probe: save the arguments, set the probe ID, let the provider of the dependent probe rework the
arguments (or leave to `exitlbl`), call its clauses, restore the arguments.

The base registers `%r7` (`dctx->mst`) and `%r9` (`dctx`) are set once, so what is addressed through
them is named by a location (`Loc`). A clause is a call that records what it can see (`Firing`). If
it faults, `dt_probe_error` puts the arguments of the `ERROR` probe over those of the probe, and
nothing puts them back before the next clause.

* **`runClauses`** — what clauses that run one after the other see, and the arguments they leave.
* **`Behaves`** — what the code of a provider does between the two copies of the arguments: it
  leaves, or it falls through with new arguments.
* **`frag_addDependent`** — the arguments after a dependent probe are those before it, and its
  clauses have run exactly if its code fell through.
-/

namespace DTrace.Tramp

open LabelCode Bpf List Function

/-! ## The machine

Registers and the named locations hold 64-bit words. A call may leave anything in `%r0` to `%r5`,
which is why `Env.clobber` also takes the number of the call. -/

/-- The locations that trampolines use: the machine state, the activity and a spill slot. -/
inductive Loc where
  | prid | scratchTop
  | arg (i : Fin 10) | savedArg (i : Fin 10)
  | act
  | spill
  deriving DecidableEq, Repr

inductive Insn where
  | nop
  | mov (dst src : Nat)
  | movImm (dst : Nat) (imm : BitVec 32)
  | aluImm (op : AluOp) (dst : Nat) (imm : BitVec 32)
  | load (dst : Nat) (loc : Loc)
  | store (loc : Loc) (src : Nat)
  | storeImm (sz : Width) (loc : Loc) (imm : BitVec 32)
  | branchImm (op : JmpOp) (r : Nat) (imm : BitVec 32) (lbl : Nat)
  | probeRead
  | callClause (clause : Nat)
  | ret
  deriving DecidableEq, Repr

abbrev Ir := Code Insn

def emit (i : Insn) : Ir := [⟨0, i⟩]

def emitl (lbl : Nat) (i : Insn) : Ir := [⟨lbl, i⟩]

/-- An instruction without a label in front. -/
theorem labels_emit_append (i : Insn) (c : Ir) : labels (emit i ++ c) = labels c := rfl

abbrev Args := Fin 10 → BitVec 64

/-- A call of a clause: the probe ID and the arguments it sees. -/
structure Firing where
  clause : Nat
  prid : BitVec 64
  args : Args

/-- What `dt_probe_error` is called with, and the EPID and clause of the machine state. -/
structure Fault where
  epid : BitVec 64
  clid : BitVec 64
  pc : BitVec 64
  fault : BitVec 64
  illval : BitVec 64

/-- `mst->argv`, after `dt_probe_error` -/
def Fault.argv (f : Fault) (args : Args) : Args :=
  fun i => [0, f.epid, f.clid, f.pc, f.fault, f.illval].getD i (args i)

structure State where
  regs : Nat → BitVec 64
  mem : Loc → BitVec 64
  log : List Firing
  /-- how many calls were made -/
  calls : Nat

/-- The surroundings: what can be read from kernel memory, what calls leave in the registers they
may use, and which clauses fault when they see what. -/
structure Env where
  readInt : BitVec 64 → BitVec 32
  clobber : Nat → Nat → BitVec 64
  fault : Firing → Option Fault

/-- The arguments after a clause. -/
def Env.after (env : Env) (f : Firing) : Args :=
  match env.fault f with
  | none => f.args
  | some fault => fault.argv f.args

namespace State

def args (s : State) : Args := fun i => s.mem (.arg i)

def setReg (s : State) (r : Nat) (v : BitVec 64) : State :=
  { s with regs := update s.regs r v }

def setMem (s : State) (loc : Loc) (v : BitVec 64) : State :=
  { s with mem := update s.mem loc v }

/-- A call returns `v`; the argument registers are lost. -/
def returned (env : Env) (s : State) (v : BitVec 64) : State :=
  { s with
    regs := fun r => if r = 0 then v else if r ≤ 5 then env.clobber s.calls r else s.regs r
    calls := s.calls + 1 }

def setArgs (s : State) (args : Args) : State :=
  { s with mem := fun loc => match loc with | .arg i => args i | loc => s.mem loc }

/-- A clause runs, and may fault. -/
def fire (env : Env) (s : State) (clause : Nat) : State :=
  { s.setArgs (env.after ⟨clause, s.mem .prid, s.args⟩) with
    log := s.log ++ [⟨clause, s.mem .prid, s.args⟩] }

variable (s : State) (env : Env)

@[simp] theorem setReg_regs_self (r : Nat) (v : BitVec 64) : (s.setReg r v).regs r = v := by
  simp [setReg]

@[simp] theorem setReg_regs_of_ne {r r' : Nat} (h : r' ≠ r) (v : BitVec 64) :
    (s.setReg r v).regs r' = s.regs r' := by
  simp [setReg, h]

@[simp] theorem setReg_args (r : Nat) (v : BitVec 64) : (s.setReg r v).args = s.args :=
  rfl

@[simp] theorem setMem_regs (loc : Loc) (v : BitVec 64) : (s.setMem loc v).regs = s.regs := rfl

@[simp] theorem setMem_mem_self (loc : Loc) (v : BitVec 64) : (s.setMem loc v).mem loc = v := by
  simp [setMem]

@[simp] theorem setMem_mem_of_ne {loc loc' : Loc} (h : loc' ≠ loc) (v : BitVec 64) :
    (s.setMem loc v).mem loc' = s.mem loc' := by
  simp [setMem, h]

end State

/-- A stored immediate: 32 bits are stored as they are, 64 bits with the sign extended. -/
def immValue (sz : Width) (imm : BitVec 32) : BitVec 64 :=
  if sz = .dw then imm.signExtend 64 else imm.zeroExtend 64

def exec (env : Env) : Insn → State → Outcome State
  | .nop, s => .next s
  | .mov dst src, s => .next (s.setReg dst (s.regs src))
  | .movImm dst imm, s => .next (s.setReg dst (imm.signExtend 64))
  | .aluImm op dst imm, s => .next (s.setReg dst (op.eval (s.regs dst) (imm.signExtend 64)))
  | .load dst loc, s => .next (s.setReg dst (s.mem loc))
  | .store loc src, s => .next (s.setMem loc (s.regs src))
  | .storeImm sz loc imm, s => .next (s.setMem loc (immValue sz imm))
  | .branchImm op r imm lbl, s =>
    if op.eval (s.regs r) (imm.signExtend 64) then .goto lbl s else .next s
  -- four bytes to the spill slot
  | .probeRead, s =>
    .next ((s.returned env 0).setMem .spill ((env.readInt (s.regs 3)).zeroExtend 64))
  | .callClause clause, s => .next ((s.fire env clause).returned env (env.clobber s.calls 0))
  | .ret, s => .halt s

variable {v w : BitVec 64}

theorem jne_false (h : v = w) : JmpOp.jne.eval v w = false := by
  simp [JmpOp.eval, h]

theorem jne_true (h : v ≠ w) : JmpOp.jne.eval v w = true := by
  simp [JmpOp.eval, h]

theorem jeq_false (h : v ≠ w) : JmpOp.jeq.eval v w = false := by
  simp [JmpOp.eval, h]

theorem jeq_true (h : v = w) : JmpOp.jeq.eval v w = true := by
  simp [JmpOp.eval, h]

section
variable {env : Env} {c : Ir} {s : State}

/-- A branch that is not taken. -/
theorem exec_branchImm_next {op : JmpOp} {r lbl : Nat} {imm : BitVec 32}
    (h : op.eval (s.regs r) (imm.signExtend 64) = false) :
    exec env (.branchImm op r imm lbl) s = .next s := by
  simp [exec, h]

theorem exec_branchImm_goto {op : JmpOp} {r lbl : Nat} {imm : BitVec 32}
    (h : op.eval (s.regs r) (imm.signExtend 64) = true) :
    exec env (.branchImm op r imm lbl) s = .goto lbl s := by
  simp [exec, h]

end

/-! ## Copies of the arguments -/

/-- One round of the loops of `dt_cg_tramp_save_args` and `dt_cg_tramp_restore_args`. -/
def copyArg (src dst : Fin 10 → Loc) (i : Fin 10) : Ir :=
  emit (.load 0 (src i)) ++ emit (.store (dst i) 0)

def copyArgs (src dst : Fin 10 → Loc) : Ir := (List.finRange 10).flatMap (copyArg src dst)

def dtCgTrampSaveArgs : Ir := copyArgs .arg .savedArg

def dtCgTrampRestoreArgs : Ir := copyArgs .savedArg .arg

theorem labels_copyArgs (src dst : Fin 10 → Loc) : labels (copyArgs src dst) = [] :=
  labels_flatMap_eq_nil (fun _ => rfl) _

/-- What a copy of the arguments for the indices `is` does. -/
structure Copied (src dst : Fin 10 → Loc) (is : List (Fin 10)) (s s' : State) : Prop where
  copied : ∀ i ∈ is, s'.mem (dst i) = s.mem (src i)
  other : ∀ loc, (∀ i ∈ is, loc ≠ dst i) → s'.mem loc = s.mem loc
  regs : ∀ r ≠ 0, s'.regs r = s.regs r
  log : s'.log = s.log

/-- The induction is on the indices; a later round does not touch what an earlier one has copied. -/
theorem fallThrough_copyArgs (env : Env) {src dst : Fin 10 → Loc} (hinj : Function.Injective dst)
    (hdisj : ∀ i j, src i ≠ dst j) (is : List (Fin 10)) (hnd : is.Nodup) (s : State) :
    ∃ s', fallThrough (exec env) (is.flatMap (copyArg src dst)) s = some s' ∧
      Copied src dst is s s' := by
  induction is generalizing s with
  | nil => exact ⟨s, rfl, by simp, fun _ _ => rfl, fun _ _ => rfl, rfl⟩
  | cons i is ih =>
    rw [nodup_cons] at hnd
    obtain ⟨s', hs', hc⟩ := ih hnd.2 ((s.setReg 0 (s.mem (src i))).setMem (dst i) (s.mem (src i)))
    refine ⟨s', ?_, ?_, ?_, ?_, hc.log⟩
    · rw [flatMap_cons]
      exact hs'
    · intro j hj
      rcases mem_cons.mp hj with rfl | hj
      · have hne : ∀ k ∈ is, dst j ≠ dst k := fun k hk h => hnd.1 (hinj h ▸ hk)
        rw [hc.other _ hne, State.setMem_mem_self]
      · rw [hc.copied j hj, State.setMem_mem_of_ne _ (hdisj j i)]
        rfl
    · intro loc hloc
      rw [hc.other loc fun j hj => hloc j (mem_cons_of_mem _ hj),
        State.setMem_mem_of_ne _ (hloc i mem_cons_self)]
      rfl
    · intro r hr
      rw [hc.regs r hr, State.setMem_regs, State.setReg_regs_of_ne _ hr]

theorem frag_copyArgs (env : Env) {src dst : Fin 10 → Loc} (hinj : Function.Injective dst)
    (hdisj : ∀ i j, src i ≠ dst j) (s : State) :
    ∃ s', Frag (exec env) (copyArgs src dst) s s' ∧ Copied src dst (List.finRange 10) s s' := by
  obtain ⟨s', hs', hc⟩ := fallThrough_copyArgs env hinj hdisj (List.finRange 10)
    (nodup_finRange 10) s
  refine ⟨s', Frag.of_fallThrough hs' ?_, hc⟩
  exact nodup_nil

/-! ## Calling clauses -/

/-- `DT_ACTIVITY_ACTIVE` -/
def dtActivityActive : BitVec 32 := 1

/-- `dt_cg_call_clause`; the two loads through `dctx->act` are one. -/
def dtCgCallClause (act : BitVec 32) (lblExit clause : Nat) : Ir :=
  emit (.load 0 .act) ++ emit (.branchImm .jne 0 act lblExit) ++
    emit (.storeImm .w .scratchTop 8) ++ emit (.mov 1 9) ++ emit (.callClause clause)

def dtCgTrampCallClauses (lblExit : Nat) (clauses : List Nat) (act : BitVec 32) : Ir :=
  clauses.flatMap (dtCgCallClause act lblExit)

theorem labels_dtCgTrampCallClauses (lblExit : Nat) (clauses : List Nat) (act : BitVec 32) :
    labels (dtCgTrampCallClauses lblExit clauses act) = [] :=
  labels_flatMap_eq_nil (fun _ => rfl) _

/-- What clauses that run one after the other see, and the arguments they leave. -/
def runClauses (env : Env) (prid : BitVec 64) : List Nat → Args → List Firing × Args
  | [], args => ([], args)
  | c :: cs, args =>
    let r := runClauses env prid cs (env.after ⟨c, prid, args⟩)
    (⟨c, prid, args⟩ :: r.1, r.2)

/-- Clauses have run: they are in the log, and nothing but the arguments, the scratch memory and
the registers that calls may use has changed. -/
structure Called (env : Env) (clauses : List Nat) (s s' : State) : Prop where
  log : s'.log = s.log ++ (runClauses env (s.mem .prid) clauses s.args).1
  args : s'.args = (runClauses env (s.mem .prid) clauses s.args).2
  mem : ∀ loc ≠ .scratchTop, (∀ i, loc ≠ .arg i) → s'.mem loc = s.mem loc

/-- The clauses run one after the other while the activity is `ACTIVE`, each with what the one
before it has left of the arguments. -/
theorem frag_callClauses (env : Env) (lblExit : Nat) (clauses : List Nat) {s : State}
    (hact : s.mem .act = dtActivityActive.signExtend 64) :
    ∃ s', Frag (exec env) (dtCgTrampCallClauses lblExit clauses dtActivityActive) s s' ∧
      Called env clauses s s' := by
  induction clauses generalizing s with
  | nil => exact ⟨s, Frag.nil s, (append_nil _).symm, rfl, fun _ _ _ => rfl⟩
  | cons c cs ih =>
    -- `s1` is the state at the call, `s2` the one behind it
    let s1 := (((s.setReg 0 (s.mem .act)).setMem .scratchTop (immValue .w 8)).setReg 1 (s.regs 9))
    let s2 := (s1.fire env c).returned env (env.clobber s1.calls 0)
    have hbranch : JmpOp.jne.eval (s.mem .act) (dtActivityActive.signExtend 64) = false := by
      rw [hact]
      rfl
    have hone : fallThrough (exec env) (dtCgCallClause dtActivityActive lblExit c) s = some s2 := by
      simp only [dtCgCallClause, emit, cons_append, nil_append, fallThrough, exec,
        State.setReg_regs_self, hbranch]
      rfl
    have hmem1 : ∀ loc ≠ .scratchTop, s1.mem loc = s.mem loc := fun loc hloc =>
      State.setMem_mem_of_ne _ hloc _
    have hmem : ∀ loc ≠ .scratchTop, (∀ i, loc ≠ .arg i) → s2.mem loc = s.mem loc := by
      intro loc hloc harg
      rw [← hmem1 loc hloc]
      cases loc with
      | arg i => exact absurd rfl (harg i)
      | _ => rfl
    -- the clause sees what the state before its call has
    have hargs1 : s1.args = s.args := funext fun i => hmem1 (.arg i) (by simp)
    have hprid1 : s1.mem .prid = s.mem .prid := hmem1 .prid (by simp)
    have hprid2 : s2.mem .prid = s.mem .prid := hmem .prid (by simp) (by simp)
    have hargs2 : s2.args = env.after ⟨c, s.mem .prid, s.args⟩ := by
      show env.after ⟨c, s1.mem .prid, s1.args⟩ = _
      rw [hargs1, hprid1]
    have hlog2 : s2.log = s.log ++ [⟨c, s.mem .prid, s.args⟩] := by
      show s.log ++ [⟨c, s1.mem .prid, s1.args⟩] = _
      rw [hargs1, hprid1]
    -- the rest of the clauses starts with what this one leaves
    obtain ⟨s', f, hc⟩ := @ih s2 ((hmem .act (by simp) (by simp)).trans hact)
    refine ⟨s', ?_, ?_, ?_, fun loc hloc harg => (hc.mem loc hloc harg).trans (hmem loc hloc harg)⟩
    · refine (Frag.of_fallThrough hone (by simp [dtCgCallClause, emit])).append f ?_
      show (labels (dtCgTrampCallClauses lblExit (c :: cs) dtActivityActive)).Nodup
      rw [labels_dtCgTrampCallClauses]
      exact nodup_nil
    · rw [hc.log, hlog2, hprid2, hargs2, append_assoc]
      rfl
    · rw [hc.args, hprid2, hargs2]
      rfl

/-! ## Dependent probes

The code of a dependent probe is the provider's code between two copies of the arguments. The proof
puts together three pieces: `frag_enter` up to that code, `Behaves` for the code itself, and
`frag_leave` from the clauses on. -/

/-- A probe: its ID and its clauses. -/
structure Probe where
  id : BitVec 32
  clauses : List Nat

/-- What the `trampoline` function of a provider generates: the code and the next label. -/
structure Gen where
  code : Ir
  lbl : Nat

/-- `dt_cg_add_dependent`, for a `trampoline` that does not skip the clauses; `lblExit` is the exit
label of the program, `lbl` the next label. -/
def dtCgAddDependent (trampoline : (exitlbl lbl : Nat) → Gen) (prp : Probe) (lblExit lbl : Nat) :
    Ir × Nat :=
  let g := trampoline lbl (lbl + 1)
  (dtCgTrampSaveArgs ++ emit (.storeImm .w .prid prp.id) ++ g.code ++
    dtCgTrampCallClauses lblExit prp.clauses dtActivityActive ++ dtCgTrampRestoreArgs ++
    emitl lbl .nop, g.lbl)

/-- How the code of a provider ends. -/
inductive End where
  | leaves
  | falls (args : Args)

/-- What the code of a provider leaves alone. -/
structure Kept (s s' : State) : Prop where
  savedArg : ∀ i, s'.mem (.savedArg i) = s.mem (.savedArg i)
  act : s'.mem .act = s.mem .act
  prid : s'.mem .prid = s.mem .prid
  log : s'.log = s.log

/-- The code leaves to `exitlbl` with the arguments as they were, or falls through. -/
def Behaves (env : Env) (code : Ir) (exitlbl : Nat) (s : State) : End → Prop
  | .leaves => ∃ s', Exits (exec env) code exitlbl s s' ∧ Kept s s' ∧ s'.args = s.args
  | .falls args => ∃ s', Frag (exec env) code s s' ∧ Kept s s' ∧ s'.args = args

namespace Kept

theorem refl (s : State) : Kept s s := ⟨fun _ => rfl, rfl, rfl, rfl⟩

variable {s s' : State}

theorem trans {s1 s2 : State} (h1 : Kept s s1) (h2 : Kept s1 s2) : Kept s s2 :=
  ⟨fun i => (h2.savedArg i).trans (h1.savedArg i), h2.act.trans h1.act, h2.prid.trans h1.prid,
    h2.log.trans h1.log⟩

theorem setReg (h : Kept s s') (r : Nat) (v : BitVec 64) : Kept s (s'.setReg r v) :=
  ⟨h.savedArg, h.act, h.prid, h.log⟩

/-- Arguments and the spill slot may be written. -/
theorem setMem (h : Kept s s') {loc : Loc} (hsaved : ∀ i, loc ≠ .savedArg i) (hact : loc ≠ .act)
    (hprid : loc ≠ .prid) (v : BitVec 64) : Kept s (s'.setMem loc v) :=
  ⟨fun i => (State.setMem_mem_of_ne _ (hsaved i).symm v).trans (h.savedArg i),
    (State.setMem_mem_of_ne _ hact.symm v).trans h.act,
    (State.setMem_mem_of_ne _ hprid.symm v).trans h.prid, h.log⟩

theorem setArg (h : Kept s s') (i : Fin 10) (v : BitVec 64) : Kept s (s'.setMem (.arg i) v) :=
  @setMem s s' h (.arg i) nofun nofun nofun v

end Kept

/-- Storing one argument. -/
theorem State.args_setArg (s : State) (i : Fin 10) (v : BitVec 64) :
    (s.setMem (.arg i) v).args = update s.args i v := by
  funext j
  by_cases h : j = i
  · subst h
    rw [update_self]
    exact State.setMem_mem_self _ _ _
  · rw [update_of_ne h]
    exact State.setMem_mem_of_ne _ (fun e => h (Loc.arg.inj e)) _

section
variable {env : Env} {code : Ir} {exitlbl : Nat} {s s1 : State} {e : End}

/-- Code without a jump. -/
theorem Behaves.of_fallThrough {args : Args} (h : fallThrough (exec env) code s = some s1)
    (hnd : (labels code).Nodup) (hk : Kept s s1) (hargs : s1.args = args) :
    Behaves env code exitlbl s (.falls args) :=
  ⟨s1, Frag.of_fallThrough h hnd, hk, hargs⟩

theorem Behaves.nil : Behaves env [] exitlbl s (.falls s.args) :=
  ⟨s, Frag.nil s, Kept.refl s, rfl⟩

/-- Code in front that leaves the arguments alone. -/
theorem Behaves.frag_append {c : Ir} (hb : Behaves env code exitlbl s1 e)
    (f : Frag (exec env) c s s1) (hk : Kept s s1) (hargs : s1.args = s.args)
    (hnd : (labels (c ++ code)).Nodup) : Behaves env (c ++ code) exitlbl s e := by
  cases e with
  | leaves =>
    obtain ⟨s2, f2, hk2, hargs2⟩ := hb
    exact ⟨s2, f.exits f2 hnd, hk.trans hk2, hargs2.trans hargs⟩
  | falls args =>
    obtain ⟨s2, f2, hk2, hargs2⟩ := hb
    exact ⟨s2, f.append f2 hnd, hk.trans hk2, hargs2⟩

/-- A pre-condition that does not hold. -/
theorem Behaves.branch_leaves {op : JmpOp} {r : Nat} {imm : BitVec 32}
    (h : op.eval (s.regs r) (imm.signExtend 64) = true) :
    Behaves env (emit (.branchImm op r imm exitlbl) ++ code) exitlbl s .leaves :=
  ⟨s, Exits.here (exec_branchImm_goto h), Kept.refl s, rfl⟩

/-- A pre-condition that holds. -/
theorem Behaves.branch_next {op : JmpOp} {r lbl : Nat} {imm : BitVec 32}
    (h : op.eval (s.regs r) (imm.signExtend 64) = false)
    (hb : Behaves env code exitlbl s e) (hnd : (labels code).Nodup) :
    Behaves env (emit (.branchImm op r imm lbl) ++ code) exitlbl s e :=
  hb.frag_append (Frag.single (exec_branchImm_next h)) (Kept.refl s) rfl hnd

/-- A load in front. -/
theorem Behaves.load {r : Nat} {loc : Loc}
    (hb : Behaves env code exitlbl (s.setReg r (s.mem loc)) e) (hnd : (labels code).Nodup) :
    Behaves env (emit (.load r loc) ++ code) exitlbl s e :=
  hb.frag_append (Frag.single rfl) ((Kept.refl s).setReg _ _) rfl hnd

end

/-- The firings of a dependent probe. -/
def firings (env : Env) (prp : Probe) : End → List Firing
  | .leaves => []
  | .falls args => (runClauses env (immValue .w prp.id) prp.clauses args).1

/-- What the firing of a dependent probe leaves behind. -/
structure Done (s s' : State) (fired : List Firing) : Prop where
  args : s'.args = s.args
  act : s'.mem .act = s.mem .act
  log : s'.log = s.log ++ fired

section
variable {env : Env} {s : State} {prp : Probe} {lblExit lbl : Nat}

/-- The code up to the provider's. -/
theorem frag_enter (env : Env) (prp : Probe) (s : State) :
    ∃ s1, Frag (exec env) (dtCgTrampSaveArgs ++ emit (.storeImm .w .prid prp.id)) s s1 ∧
      s1.args = s.args ∧ s1.mem .act = s.mem .act ∧ s1.log = s.log ∧
      s1.mem .prid = immValue .w prp.id ∧ ∀ i, s1.mem (.savedArg i) = s.args i := by
  obtain ⟨s0, f0, hc⟩ := @frag_copyArgs env .arg .savedArg (fun _ _ => Loc.savedArg.inj)
    (fun _ _ h => by cases h) s
  let s1 := s0.setMem .prid (immValue .w prp.id)
  have hmem : ∀ loc, loc ≠ .prid → (∀ i, loc ≠ .savedArg i) → s1.mem loc = s.mem loc :=
    fun loc h hs => (State.setMem_mem_of_ne _ h _).trans (hc.other loc fun i _ => hs i)
  refine ⟨s1, f0.append (Frag.single rfl) ?_, funext fun i => hmem (.arg i) nofun nofun,
    hmem .act nofun nofun, hc.log, State.setMem_mem_self _ _ _, fun i => ?_⟩
  · rw [labels_append]
    exact nodup_nil
  · have hne : Loc.savedArg i ≠ .prid := nofun
    exact (State.setMem_mem_of_ne _ hne _).trans (hc.copied i (mem_finRange i))

/-- The code from the clauses on, up to the exit label: what the clauses have left of the arguments
is replaced. -/
theorem frag_leave (env : Env) (prp : Probe) (lblExit lbl : Nat) {s : State}
    (hact : s.mem .act = dtActivityActive.signExtend 64) :
    ∃ s', Frag (exec env) (dtCgTrampCallClauses lblExit prp.clauses dtActivityActive ++
        dtCgTrampRestoreArgs ++ emitl lbl .nop) s s' ∧
      (∀ i, s'.args i = s.mem (.savedArg i)) ∧ s'.mem .act = s.mem .act ∧
      s'.log = s.log ++ (runClauses env (s.mem .prid) prp.clauses s.args).1 := by
  obtain ⟨s1, f1, hcalled⟩ := frag_callClauses env lblExit prp.clauses hact
  obtain ⟨s2, f2, hc⟩ := @frag_copyArgs env .savedArg .arg (fun _ _ => Loc.arg.inj)
    (fun _ _ h => by cases h) s1
  have hlabels := labels_dtCgTrampCallClauses lblExit prp.clauses dtActivityActive
  refine ⟨s2, (f1.append f2 ?_).append (Frag.single rfl) ?_, fun i => ?_, ?_,
    hc.log.trans hcalled.log⟩
  · rw [labels_append, hlabels]
    exact nodup_nil
  · rw [labels_append, labels_append, hlabels]
    exact labels_singleton_nodup lbl _
  · exact (hc.copied i (mem_finRange i)).trans (hcalled.mem _ nofun nofun)
  · exact (hc.other .act nofun).trans (hcalled.mem _ nofun nofun)

/-- Labels are taken from the counter. -/
structure Gen.Ok (g : Gen) (lbl : Nat) : Prop where
  le : lbl ≤ g.lbl
  range : InRange lbl g.lbl (labels g.code)

/-- The labels are those of the provider's code, and the exit label at the end. -/
theorem labels_addDependent (trampoline : Nat → Nat → Gen) (prp : Probe) (lblExit : Nat)
    (hlbl : lbl ≠ 0) : labels (dtCgAddDependent trampoline prp lblExit lbl).1 =
      labels (trampoline lbl (lbl + 1)).code ++ [lbl] := by
  unfold dtCgAddDependent
  simp only [labels_append, dtCgTrampRestoreArgs, labels_copyArgs,
    labels_dtCgTrampCallClauses, append_nil]
  exact congrArg (labels _ ++ ·) (labels_cons_pos _ _ hlbl)

/-- **A dependent probe.** If the code of its provider behaves in some way from every state with the
same arguments, the clauses have run accordingly and the arguments are intact. -/
theorem frag_addDependent {trampoline : Nat → Nat → Gen} {e : End} (hlbl : lbl ≠ 0)
    (hact : s.mem .act = dtActivityActive.signExtend 64)
    (hok : (trampoline lbl (lbl + 1)).Ok (lbl + 1))
    (hbehaves : ∀ s1 : State, s1.args = s.args →
      Behaves env (trampoline lbl (lbl + 1)).code lbl s1 e) :
    ∃ s', Frag (exec env) (dtCgAddDependent trampoline prp lblExit lbl).1 s s' ∧
      Done s s' (firings env prp e) := by
  obtain ⟨s1, f1, hargs1, hact1, hlog1, hprid1, hsaved1⟩ := frag_enter env prp s
  have hb := hbehaves s1 hargs1
  have hnd : (labels (dtCgAddDependent trampoline prp lblExit lbl).1).Nodup := by
    rw [labels_addDependent _ _ _ hlbl]
    exact (hok.range.concat (Nat.lt_succ_self lbl) hok.le).nodup
  unfold dtCgAddDependent at hnd ⊢
  generalize trampoline lbl (lbl + 1) = g at hb hnd
  simp only [append_assoc] at hnd ⊢
  rw [← append_assoc dtCgTrampSaveArgs] at hnd ⊢
  cases e with
  | leaves =>
    obtain ⟨s2, f2, hk, hargs2⟩ := hb
    -- from the provider's code straight to the exit label
    have hcode : (dtCgTrampSaveArgs ++ emit (.storeImm .w .prid prp.id)) ++
        (g.code ++ (dtCgTrampCallClauses lblExit prp.clauses dtActivityActive ++
          (dtCgTrampRestoreArgs ++ emitl lbl .nop))) =
        ((dtCgTrampSaveArgs ++ emit (.storeImm .w .prid prp.id)) ++
          (g.code ++ (dtCgTrampCallClauses lblExit prp.clauses dtActivityActive ++
            dtCgTrampRestoreArgs))) ++ [⟨lbl, .nop⟩] := by
      simp [emitl]
    rw [hcode] at hnd ⊢
    have hnd' := hnd
    rw [labels_append] at hnd'
    have hexit := f1.exits (f2.append _) hnd'.of_append_left
    refine ⟨s2, hexit.frag hlbl (Frag.single rfl) hnd, hargs2.trans hargs1, hk.act.trans hact1, ?_⟩
    rw [hk.log, hlog1]
    exact (append_nil _).symm
  | falls args =>
    obtain ⟨s2, f2, hk, hargs2⟩ := hb
    obtain ⟨s3, f3, hargs3, hact3, hlog3⟩ := frag_leave env prp lblExit lbl
      (hk.act.trans (hact1.trans hact))
    rw [append_assoc] at f3
    refine ⟨s3, f1.append (f2.append f3 (nodup_labels_right hnd)) hnd, ?_,
      hact3.trans (hk.act.trans hact1), ?_⟩
    · funext i
      rw [hargs3, hk.savedArg, hsaved1]
    · rw [hlog3, hk.log, hlog1, hk.prid, hprid1, hargs2]
      rfl

end

/-! ## Providers

A provider is given by a `trampoline` function for each of its probes; `Provider.Meaning` says what
that code does to the arguments, and everything about lists of dependent probes follows from it. -/

/-- A provider of dependent probes: its `trampoline` function, and the ID and clauses of each of its
probes. -/
structure Provider (D : Type) where
  trampoline : D → (exitlbl lbl : Nat) → Gen
  probe : D → Probe

/-- What the code of a provider means, as a function on the arguments. -/
structure Provider.Meaning {D : Type} (P : Provider D) (env : Env) where
  ends : D → Args → End
  ok : ∀ d exitlbl lbl, lbl ≠ 0 → (P.trampoline d exitlbl lbl).Ok lbl
  behaves : ∀ d exitlbl lbl s, lbl ≠ 0 → exitlbl < lbl →
    Behaves env (P.trampoline d exitlbl lbl).code exitlbl s (ends d s.args)

section
variable {D : Type} (P : Provider D)

def dtCgTrampAddDependents (lblExit : Nat) : List D → Nat → Ir × Nat
  | [], lbl => ([], lbl)
  | d :: ds, lbl =>
    let (code, lbl) := dtCgAddDependent (P.trampoline d) (P.probe d) lblExit lbl
    let (rest, lbl) := dtCgTrampAddDependents lblExit ds lbl
    (code ++ rest, lbl)

/-- `dt_cg_tramp_return` -/
def dtCgTrampReturn (lblExit : Nat) : Ir := emitl lblExit (.movImm 0 0) ++ emit .ret

/-- `dt_cg_tramp_epilogue`: the clauses of the probe itself, its dependent probes, and the end of
the program. -/
def dtCgTrampEpilogue (lblExit : Nat) (clauses : List Nat) (dependents : List D) (lbl : Nat) : Ir :=
  dtCgTrampCallClauses lblExit clauses dtActivityActive ++
    (dtCgTrampAddDependents P lblExit dependents lbl).1 ++ dtCgTrampReturn lblExit

/-- The firings of dependent probes, one after the other. -/
def Provider.Meaning.fired {P : Provider D} {env : Env} (M : P.Meaning env) (args : Args)
    (ds : List D) : List Firing :=
  ds.flatMap fun d => firings env (P.probe d) (M.ends d args)

variable {P} {env : Env} (M : P.Meaning env)

include M in
/-- The labels of all dependent probes are different and newer than `lbl`. -/
theorem range_addDependents (lblExit : Nat) (ds : List D) {lbl : Nat} (hlbl : lbl ≠ 0) :
    lbl ≤ (dtCgTrampAddDependents P lblExit ds lbl).2 ∧
      InRange lbl (dtCgTrampAddDependents P lblExit ds lbl).2
        (labels (dtCgTrampAddDependents P lblExit ds lbl).1) := by
  induction ds generalizing lbl with
  | nil => exact ⟨Nat.le_refl lbl, InRange.nil lbl lbl⟩
  | cons d ds ih =>
    have hok := M.ok d lbl (lbl + 1) (Nat.succ_ne_zero lbl)
    have hle : lbl ≤ (P.trampoline d lbl (lbl + 1)).lbl := Nat.le_of_succ_le hok.le
    obtain ⟨hle', hrange⟩ := ih (show (P.trampoline d lbl (lbl + 1)).lbl ≠ 0 by omega)
    rw [dtCgTrampAddDependents]
    refine ⟨Nat.le_trans hle hle', ?_⟩
    rw [labels_append, labels_addDependent _ _ _ hlbl]
    exact (hok.range.concat (Nat.lt_succ_self lbl) hok.le).append hrange hle hle'

/-- **Dependent probes.** Each of them sees the arguments that the first one sees. -/
theorem frag_addDependents (lblExit : Nat) (ds : List D) {lbl : Nat} (hlbl : lbl ≠ 0) {s : State}
    (hact : s.mem .act = dtActivityActive.signExtend 64) :
    ∃ s', Frag (exec env) (dtCgTrampAddDependents P lblExit ds lbl).1 s s' ∧
      Done s s' (M.fired s.args ds) := by
  induction ds generalizing lbl s with
  | nil => exact ⟨s, Frag.nil s, rfl, rfl, (append_nil _).symm⟩
  | cons d ds ih =>
    have hok := M.ok d lbl (lbl + 1) (Nat.succ_ne_zero lbl)
    have hle := hok.le
    obtain ⟨s1, f1, h1⟩ := @frag_addDependent env s (P.probe d) lblExit lbl (P.trampoline d)
      (M.ends d s.args) hlbl hact hok fun s1 hargs => by
        have hb := M.behaves d lbl (lbl + 1) s1 (Nat.succ_ne_zero lbl) (Nat.lt_succ_self lbl)
        rwa [hargs] at hb
    obtain ⟨s2, f2, h2⟩ := ih (show (P.trampoline d lbl (lbl + 1)).lbl ≠ 0 by omega)
      (h1.act.trans hact)
    -- the first probe leaves the arguments intact for the others
    rw [h1.args] at h2
    refine ⟨s2, f1.append f2 (range_addDependents M lblExit (d :: ds) hlbl).2.nodup,
      h2.args.trans h1.args, h2.act.trans h1.act, ?_⟩
    rw [h2.log, h1.log, append_assoc]
    rfl

/-- The whole end of a trampoline: its exit label is older than the labels of the dependent
probes. These see what the clauses of the probe itself have left of the arguments. -/
theorem halts_epilogue (lblExit : Nat) (clauses : List Nat) (ds : List D) {lbl : Nat}
    (hexit : lblExit < lbl) {s : State} (hact : s.mem .act = dtActivityActive.signExtend 64) :
    let r := runClauses env (s.mem .prid) clauses s.args
    ∃ s', Halts (exec env) (dtCgTrampEpilogue P lblExit clauses ds lbl) s s' ∧
      s'.args = r.2 ∧ s'.log = s.log ++ (r.1 ++ M.fired r.2 ds) := by
  obtain ⟨s1, f1, h1⟩ := frag_callClauses env lblExit clauses hact
  have hact1 : s1.mem .act = dtActivityActive.signExtend 64 := (h1.mem .act nofun nofun).trans hact
  obtain ⟨s2, f2, h2⟩ := frag_addDependents M lblExit ds (show lbl ≠ 0 by omega) hact1
  rw [h1.args] at h2
  have hrange := range_addDependents M lblExit ds (show lbl ≠ 0 by omega)
  have hnd : (labels (dtCgTrampCallClauses lblExit clauses dtActivityActive ++
      (dtCgTrampAddDependents P lblExit ds lbl).1)).Nodup := by
    rw [labels_append, labels_dtCgTrampCallClauses]
    exact hrange.2.nodup
  let s3 := s2.setReg 0 ((0 : BitVec 32).signExtend 64)
  have f3 : Frag (exec env) (emitl lblExit (.movImm 0 0)) s2 s3 := Frag.single rfl
  have hnd' : (labels ((dtCgTrampCallClauses lblExit clauses dtActivityActive ++
      (dtCgTrampAddDependents P lblExit ds lbl).1) ++ emitl lblExit (.movImm 0 0))).Nodup := by
    rw [labels_append]
    refine nodup_append.mpr ⟨hnd, labels_singleton_nodup _ _, ?_⟩
    rw [labels_append, labels_dtCgTrampCallClauses]
    -- the exit label is older than every label of a dependent probe
    rintro l hl _ hl' rfl
    have hge := (hrange.2.mem l hl).1
    have heq : l = lblExit := by
      unfold emitl labels at hl'
      split at hl'
      · cases hl'
      · simpa using hl'
    omega
  refine ⟨s3, ?_, h2.args.trans h1.args, ?_⟩
  · have h := ((f1.append f2 hnd).append f3 hnd').halts (m := 0) (i := .ret) rfl
    simpa only [dtCgTrampEpilogue, dtCgTrampReturn, emit, append_assoc] using h
  · show s2.log = _
    rw [h2.log, h1.log, append_assoc]

end

end DTrace.Tramp
