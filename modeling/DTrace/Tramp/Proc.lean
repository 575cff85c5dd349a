import DTrace.Tramp.Machine
import DTrace.Cg.Regset

/-!
# The `proc` provider

The `proc` probes depend on other probes. The `trampoline` function of the provider generates code
that checks a pre-condition on the arguments of the underlying probe and moves them to where the
`proc` probe has them.

* **`meaning`** — what that code does, for each probe. A pre-condition that does not hold leaves
  before any argument is changed.
* **`dependents_right_iff`** — `signal-clear` tests its pre-condition with an unsigned comparison,
  `signal-discard` stores the wrong register, and a clause that faults changes the arguments of the
  clauses behind it; everything else is as declared.
-/

namespace DTrace.Tramp.Proc

open LabelCode Bpf Cg List Function

inductive ProcProbe where
  | create | exec | execFailure | execSuccess | exit | lwpCreate | lwpExit | lwpStart
  | signalClear | signalDiscard | signalHandle | signalSend | start
  deriving DecidableEq, Repr

/-- `proc:::exit`: the code that turns `tsk->exit_code` into the reason of the exit; `offset` is
where the member is in a `struct task_struct`. -/
def exitCode (offset : BitVec 32) (lblOut : Nat) : Ir :=
  emit (.mov 1 10) ++ emit (.aluImm .add 1 (BitVec.ofInt 32 (dtStkSpill 0))) ++
    emit (.movImm 2 4) ++ emit (.load 3 (.arg 0)) ++ emit (.aluImm .add 3 offset) ++
    emit (.probeRead) ++ emit (.load 1 .spill) ++ emit (.movImm 0 1) ++
    emit (.mov 2 1) ++ emit (.aluImm .and 2 0x7f) ++ emit (.branchImm .jeq 2 0 lblOut) ++
    emit (.movImm 0 3) ++ emit (.aluImm .and 1 0x80) ++ emit (.branchImm .jne 1 0 lblOut) ++
    emit (.movImm 0 2) ++ emitl lblOut (.store (.arg 0) 0)

def trampoline (offset : BitVec 32) (prp : ProcProbe) (exitlbl lbl : Nat) : Gen :=
  match prp with
  | .create | .lwpCreate => ⟨emit (.load 0 (.arg 1)) ++ emit (.store (.arg 0) 0), lbl⟩
  | .execSuccess => ⟨emit (.load 0 (.arg 1)) ++ emit (.branchImm .jne 0 0 exitlbl), lbl⟩
  | .execFailure =>
    ⟨emit (.load 0 (.arg 1)) ++ (emit (.branchImm .jeq 0 0 exitlbl) ++ emit (.store (.arg 0) 0)),
      lbl⟩
  | .exit =>
    ⟨emit (.load 0 (.arg 1)) ++ (emit (.branchImm .jeq 0 0 exitlbl) ++ exitCode offset lbl),
      lbl + 1⟩
  | .signalClear => ⟨emit (.load 0 (.arg 0)) ++ emit (.branchImm .jle 0 0 exitlbl), lbl⟩
  | .signalDiscard =>
    ⟨emit (.load 0 (.arg 4)) ++ (emit (.branchImm .jne 0 1 exitlbl) ++
      (emit (.load 1 (.arg 0)) ++ emit (.store (.arg 1) 0) ++ emit (.load 0 (.arg 2)) ++
        emit (.store (.arg 0) 0))), lbl⟩
  | .signalSend =>
    ⟨emit (.load 0 (.arg 1)) ++ emit (.load 1 (.arg 0)) ++ emit (.store (.arg 0) 0) ++
      emit (.store (.arg 1) 1), lbl⟩
  | .exec | .lwpExit | .lwpStart | .signalHandle | .start => ⟨[], lbl⟩

/-- A `proc` probe that is enabled: it has a clause. -/
structure Enabled where
  name : ProcProbe
  probe : Probe
  clauses_ne : probe.clauses ≠ []

def provider (offset : BitVec 32) : Provider Enabled where
  trampoline d := trampoline offset d.name
  probe d := d.probe

/-! ## What the code does

The code of each probe as a function on the arguments (`ends`). Only that of `exit` has a jump of
its own, so only it has a label. -/

/-- The reason of an exit: 1 for a normal exit, 3 if a core was dumped, 2 for a signal. -/
def exitReason (code : BitVec 32) : BitVec 64 :=
  if code.zeroExtend 64 &&& 0x7f = 0 then 1
  else if code.zeroExtend 64 &&& 0x80 ≠ 0 then 3
  else 2

def exitReasonOf (env : Env) (offset : BitVec 32) (args : Args) : BitVec 64 :=
  exitReason (env.readInt (args 0 + offset.signExtend 64))

def ends (env : Env) (offset : BitVec 32) (args : Args) : ProcProbe → End
  | .create | .lwpCreate => .falls (update args 0 (args 1))
  | .execSuccess => if args 1 = 0 then .falls args else .leaves
  | .execFailure => if args 1 = 0 then .leaves else .falls (update args 0 (args 1))
  | .exit =>
    if args 1 = 0 then .leaves
    else .falls (update args 0 (exitReasonOf env offset args))
  | .signalClear => if args 0 = 0 then .leaves else .falls args
  | .signalDiscard =>
    if args 4 = 1 then .falls (update (update args 1 (args 4)) 0 (args 2))
    else .leaves
  | .signalSend => .falls (update (update args 0 (args 1)) 1 (args 0))
  | .exec | .lwpExit | .lwpStart | .signalHandle | .start => .falls args

section
variable {env : Env} {offset : BitVec 32} {exitlbl lbl : Nat} {s : State}

/-- The code of `exit` up to the call, and from there to the first test. -/
def exitArgs (offset : BitVec 32) : Ir :=
  emit (.mov 1 10) ++ emit (.aluImm .add 1 (BitVec.ofInt 32 (dtStkSpill 0))) ++
    emit (.movImm 2 4) ++ emit (.load 3 (.arg 0)) ++ emit (.aluImm .add 3 offset)

def exitRead : Ir :=
  emit (.probeRead) ++ emit (.load 1 .spill) ++ emit (.movImm 0 1) ++
    emit (.mov 2 1) ++ emit (.aluImm .and 2 0x7f)

/-- The tests of the code of `exit`, which jump with the reason in `%r0` or fall through with it. -/
def exitTests (lblOut : Nat) : Ir :=
  emit (.branchImm .jeq 2 0 lblOut) ++ (emit (.movImm 0 3) ++ (emit (.aluImm .and 1 0x80) ++
    (emit (.branchImm .jne 1 0 lblOut) ++ emit (.movImm 0 2))))

theorem exitCode_eq (offset : BitVec 32) (lblOut : Nat) : exitCode offset lblOut =
    exitArgs offset ++ (exitRead ++ (exitTests lblOut ++ [⟨lblOut, .store (.arg 0) 0⟩])) := rfl

theorem labels_exitCode (offset : BitVec 32) (lblOut : Nat) :
    labels (exitCode offset lblOut) = labels (emitl lblOut (.store (.arg 0) 0)) := by
  rw [exitCode_eq]
  rfl

theorem nodup_labels_exitCode (offset : BitVec 32) (lblOut : Nat) :
    (labels (exitCode offset lblOut)).Nodup := by
  rw [labels_exitCode]
  exact labels_singleton_nodup _ _

theorem ok_trampoline (offset : BitVec 32) (prp : ProcProbe) (exitlbl : Nat) (hlbl : lbl ≠ 0) :
    (trampoline offset prp exitlbl lbl).Ok lbl := by
  cases prp with
  | exit =>
    have hlabels : labels (trampoline offset .exit exitlbl lbl).code = [lbl] := by
      rw [trampoline, labels_append, labels_append, labels_exitCode]
      exact labels_cons_pos _ _ hlbl
    refine ⟨Nat.le_succ lbl, ?_⟩
    rw [hlabels]
    exact (InRange.nil (lbl + 1) (lbl + 1)).concat (Nat.lt_succ_self lbl) le_rfl
  | _ => exact ⟨Nat.le_refl lbl, InRange.nil lbl lbl⟩

theorem frag_exitArgs (env : Env) (offset : BitVec 32) (s : State) :
    ∃ s1, Frag (exec env) (exitArgs offset) s s1 ∧ Kept s s1 ∧ s1.args = s.args ∧
      s1.regs 3 = s.args 0 + offset.signExtend 64 := by
  refine ⟨_, Frag.of_fallThrough rfl nodup_nil, ?_, rfl, rfl⟩
  exact (((((Kept.refl s).setReg _ _).setReg _ _).setReg _ _).setReg _ _).setReg _ _

theorem frag_exitRead (env : Env) (s : State) :
    ∃ s1, Frag (exec env) exitRead s s1 ∧ Kept s s1 ∧ s1.args = s.args ∧
      s1.regs 0 = 1 ∧ s1.regs 1 = (env.readInt (s.regs 3)).zeroExtend 64 ∧
      s1.regs 2 = (env.readInt (s.regs 3)).zeroExtend 64 &&& 0x7f :=
  ⟨_, Frag.of_fallThrough rfl nodup_nil, ⟨fun _ => rfl, rfl, rfl, rfl⟩, rfl, rfl, rfl, rfl⟩

/-- Nothing but zero is below or equal to zero without a sign. -/
theorem jle_zero (v : BitVec 64) : JmpOp.jle.eval v 0 = decide (v = 0) := by
  have h : v.toNat ≤ 0 ↔ v = 0 := by
    rw [Nat.le_zero, BitVec.toNat_eq]
    rfl
  exact decide_eq_decide.mpr h

/-- The three ways through the tests. -/
theorem exitTests_spec (env : Env) (lblOut : Nat) {code : BitVec 64} (h0 : s.regs 0 = 1)
    (h1 : s.regs 1 = code) (h2 : s.regs 2 = code &&& 0x7f) :
    ∃ s', (Exits (exec env) (exitTests lblOut) lblOut s s' ∨
        Frag (exec env) (exitTests lblOut) s s') ∧ Kept s s' ∧ s'.args = s.args ∧
      s'.regs 0 = if code &&& 0x7f = 0 then 1 else if code &&& 0x80 ≠ 0 then 3 else 2 := by
  by_cases h7f : code &&& 0x7f = 0
  · rw [if_pos h7f]
    exact ⟨s, .inl (Exits.here (exec_branchImm_goto (jeq_true (h2.trans h7f)))), Kept.refl s, rfl, h0⟩
  · rw [if_neg h7f]
    let s1 := (s.setReg 0 ((3 : BitVec 32).signExtend 64)).setReg 1
      (AluOp.and.eval (s.regs 1) ((0x80 : BitVec 32).signExtend 64))
    have f1 : Frag (exec env) (emit (.branchImm .jeq 2 0 lblOut) ++ (emit (.movImm 0 3) ++
        emit (.aluImm .and 1 0x80))) s s1 := by
      refine (Frag.single (exec_branchImm_next (jeq_false ?_))).append
        ((Frag.single rfl).append (Frag.single rfl) nodup_nil) nodup_nil
      exact fun h => h7f (h2.symm.trans h)
    have hk : Kept s s1 := ((Kept.refl s).setReg _ _).setReg _ _
    have hr1 : s1.regs 1 = code &&& 0x80 := by
      rw [← h1]
      rfl
    by_cases h80 : code &&& 0x80 = 0
    · rw [if_neg (not_not.mpr h80)]
      refine ⟨s1.setReg 0 ((2 : BitVec 32).signExtend 64), .inr ?_, hk.setReg _ _, rfl, rfl⟩
      have hzero : s1.regs 1 = (0 : BitVec 32).signExtend 64 := hr1.trans h80
      exact f1.append ((Frag.single (exec_branchImm_next (jne_false hzero))).append
        (Frag.single rfl) nodup_nil) nodup_nil
    · rw [if_pos h80]
      refine ⟨s1, .inl ?_, hk, rfl, rfl⟩
      refine f1.exits (Exits.here (exec_branchImm_goto (jne_true ?_))) nodup_nil
      exact fun h => h80 (hr1.symm.trans h)

theorem behaves_exitCode (env : Env) (offset : BitVec 32) (exitlbl : Nat) (hlbl : lbl ≠ 0)
    (s : State) : Behaves env (exitCode offset lbl) exitlbl s
      (.falls (update s.args 0 (exitReasonOf env offset s.args))) := by
  have hnd := nodup_labels_exitCode offset lbl
  obtain ⟨s0, f0, hk0, hargs0, hr3⟩ := frag_exitArgs env offset s
  obtain ⟨s1, f1, hk1, hargs1, hr0, hr1, hr2⟩ := frag_exitRead env s0
  obtain ⟨s2, f2, hk2, hargs2, hreason⟩ := exitTests_spec env lbl hr0 hr1 hr2
  have f3 : Frag (exec env) [⟨lbl, .store (.arg 0) 0⟩] s2 (s2.setMem (.arg 0) (s2.regs 0)) :=
    Frag.single rfl
  rw [exitCode_eq] at hnd ⊢
  have hnd0 := nodup_labels_right hnd
  have hnd1 := nodup_labels_right hnd0
  have f : Frag (exec env) (exitTests lbl ++ [⟨lbl, .store (.arg 0) 0⟩]) s1
      (s2.setMem (.arg 0) (s2.regs 0)) := by
    rcases f2 with f2 | f2
    · exact f2.frag hlbl f3 hnd1
    · exact f2.append f3 hnd1
  refine ⟨_, f0.append (f1.append f hnd0) hnd, (hk0.trans (hk1.trans hk2)).setArg 0 _, ?_⟩
  rw [State.args_setArg, hargs2, hargs1, hargs0, hreason, hr3]
  rfl

theorem behaves_trampoline (env : Env) (offset : BitVec 32) (prp : ProcProbe) (exitlbl : Nat)
    (hlbl : lbl ≠ 0) (s : State) :
    Behaves env (trampoline offset prp exitlbl lbl).code exitlbl s (ends env offset s.args prp) := by
  have hmove : Behaves env (emit (.load 0 (.arg 1)) ++ emit (.store (.arg 0) 0)) exitlbl s
      (.falls (update s.args 0 (s.args 1))) :=
    .of_fallThrough rfl nodup_nil (((Kept.refl s).setReg _ _).setArg _ _)
      (State.args_setArg _ _ _)
  cases prp with
  | create | lwpCreate => exact hmove
  | signalSend =>
    refine .of_fallThrough rfl nodup_nil
      (((((Kept.refl s).setReg 0 _).setReg 1 _).setArg 0 _).setArg 1 _) ?_
    rw [State.args_setArg, State.args_setArg]
    rfl
  | execSuccess =>
    refine Behaves.load ?_ nodup_nil
    by_cases h : s.args 1 = 0
    · rw [ends, if_pos h]
      exact Behaves.branch_next (jne_false h) Behaves.nil nodup_nil
    · rw [ends, if_neg h]
      exact Behaves.branch_leaves (jne_true h)
  | execFailure =>
    by_cases h : s.args 1 = 0
    · rw [ends, if_pos h]
      exact Behaves.load (Behaves.branch_leaves (jeq_true h)) nodup_nil
    · rw [ends, if_neg h]
      refine Behaves.load (Behaves.branch_next (jeq_false h) ?_ nodup_nil) nodup_nil
      exact .of_fallThrough rfl nodup_nil ((Kept.refl _).setArg _ _)
        (State.args_setArg _ _ _)
  | exit =>
    have hnd := nodup_labels_exitCode offset lbl
    have hnd' : (labels (emit (.branchImm .jeq 0 0 exitlbl) ++ exitCode offset lbl)).Nodup := by
      rwa [labels_emit_append]
    by_cases h : s.args 1 = 0
    · rw [ends, if_pos h]
      exact Behaves.load (Behaves.branch_leaves (jeq_true h)) hnd'
    · rw [ends, if_neg h]
      refine Behaves.load (Behaves.branch_next (jeq_false h) ?_ hnd) hnd'
      exact behaves_exitCode env offset exitlbl hlbl (s.setReg 0 (s.mem (.arg 1)))
  | signalClear =>
    refine Behaves.load ?_ nodup_nil
    by_cases h : s.args 0 = 0
    · rw [ends, if_pos h]
      exact Behaves.branch_leaves ((jle_zero _).trans (decide_eq_true h))
    · rw [ends, if_neg h]
      exact Behaves.branch_next ((jle_zero _).trans (decide_eq_false h)) Behaves.nil nodup_nil
  | signalDiscard =>
    have hone : (1 : BitVec 32).signExtend 64 = 1 := by decide
    by_cases h : s.args 4 = 1
    · rw [ends, if_pos h]
      refine Behaves.load (Behaves.branch_next (jne_false (h.trans hone.symm)) ?_ nodup_nil)
        nodup_nil
      refine .of_fallThrough rfl nodup_nil
        (((((Kept.refl _).setReg 1 _).setArg 1 _).setReg 0 _).setArg 0 _) ?_
      rw [State.args_setArg, State.setReg_args, State.args_setArg]
      rfl
    · rw [ends, if_neg h]
      refine Behaves.load (Behaves.branch_leaves (jne_true ?_)) nodup_nil
      exact fun hne => h (hne.trans hone)
  | _ => exact Behaves.nil

end

def meaning (env : Env) (offset : BitVec 32) : (provider offset).Meaning env where
  ends d args := ends env offset args d.name
  ok d exitlbl _ hlbl := ok_trampoline offset d.name exitlbl hlbl
  behaves d exitlbl _ s hlbl _ := behaves_trampoline env offset d.name exitlbl hlbl s

/-! ## What is declared

What a clause of each probe may rely on: the pre-condition, and the arguments in terms of those of
the underlying probe. -/

/-- The pre-condition of a probe, on the arguments of the underlying probe. -/
def Precondition (args : Args) : ProcProbe → Prop
  | .execSuccess => args 1 = 0
  | .execFailure => args 1 ≠ 0
  | .exit => args 1 ≠ 0
  | .signalClear => 0 < (args 0).toInt
  | .signalDiscard => args 4 = 1
  | _ => True

instance (args : Args) : ∀ prp, Decidable (Precondition args prp)
  | .execSuccess => inferInstanceAs (Decidable (args 1 = 0))
  | .execFailure => inferInstanceAs (Decidable (args 1 ≠ 0))
  | .exit => inferInstanceAs (Decidable (args 1 ≠ 0))
  | .signalClear => inferInstanceAs (Decidable (0 < (args 0).toInt))
  | .signalDiscard => inferInstanceAs (Decidable (args 4 = 1))
  | .create | .exec | .lwpCreate | .lwpExit | .lwpStart | .signalHandle | .signalSend | .start =>
    instDecidableTrue

/-- The arguments of a probe, in terms of those of the underlying probe. -/
def declared (env : Env) (offset : BitVec 32) (args : Args) : ProcProbe → List (Fin 10 × BitVec 64)
  | .create | .lwpCreate => [(0, args 1)]
  | .exec => [(0, args 0)]
  | .execFailure => [(0, args 1)]
  | .exit => [(0, exitReasonOf env offset args)]
  | .signalClear => [(0, args 0)]
  | .signalDiscard => [(0, args 2), (1, args 0)]
  | .signalHandle => [(0, args 0), (1, args 1), (2, args 2)]
  | .signalSend => [(0, args 1), (1, args 0)]
  | .execSuccess | .lwpExit | .lwpStart | .start => []

/-- A clause that is to run, with the probe ID and the arguments that it is to see. -/
structure Expected where
  clause : Nat
  prid : BitVec 64
  declared : List (Fin 10 × BitVec 64)

def expected (env : Env) (offset : BitVec 32) (args : Args) (d : Enabled) : List Expected :=
  if Precondition args d.name then
    d.probe.clauses.map fun c => ⟨c, immValue .w d.probe.id, declared env offset args d.name⟩
  else []

/-- A call of a clause against what was expected of it. -/
structure Sees (f : Firing) (e : Expected) : Prop where
  clause : f.clause = e.clause
  prid : f.prid = e.prid
  args : ∀ x ∈ e.declared, f.args x.1 = x.2

/-- The clauses of all dependent probes whose pre-condition holds have run, and no others, in order
and with the declared arguments. -/
def Right (env : Env) (offset : BitVec 32) (args : Args) (ds : List Enabled) (fs : List Firing) :
    Prop :=
  List.Forall₂ Sees fs (ds.flatMap (expected env offset args))

/-- The arguments that the first clause of a probe is to see: the declared ones over those of the
underlying probe. -/
def seen (env : Env) (offset : BitVec 32) (args : Args) (prp : ProcProbe) : Args :=
  (declared env offset args prp).foldl (fun a x => update a x.1 x.2) args

/-- A clause that faults is the last one, or it happens to leave the declared arguments. -/
def Harmless (env : Env) (prid : BitVec 64) (decl : List (Fin 10 × BitVec 64)) :
    List Nat → Args → Prop
  | c :: c' :: cs, args =>
    (∀ e ∈ env.fault ⟨c, prid, args⟩, ∀ x ∈ decl, e.argv args x.1 = x.2) ∧
      Harmless env prid decl (c' :: cs) (env.after ⟨c, prid, args⟩)
  | _, _ => True

/-- What the two mistakes do not affect. -/
def Fine (args : Args) : ProcProbe → Prop
  | .signalClear => 0 ≤ (args 0).toInt
  | .signalDiscard => args 4 = 1 → args 0 = 1
  | _ => True

/-- How code has to end. -/
def EndsRight (pre : Prop) (decl : List (Fin 10 × BitVec 64)) : End → Prop
  | .leaves => ¬ pre
  | .falls args => pre ∧ ∀ x ∈ decl, args x.1 = x.2

section
variable {env : Env} {offset : BitVec 32} {args : Args}

/-- Every clause runs, whether or not one before it faults. -/
theorem length_runClauses (env : Env) (prid : BitVec 64) (cs : List Nat) (args : Args) :
    (runClauses env prid cs args).1.length = cs.length := by
  induction cs generalizing args with
  | nil => rfl
  | cons c cs ih => exact congrArg (· + 1) (ih _)

/-- Clauses see the declared arguments if the first does and no fault gets in between. -/
theorem forall₂_runClauses_iff {prid : BitVec 64} {decl : List (Fin 10 × BitVec 64)} {cs : List Nat}
    (hcs : cs ≠ []) (args : Args) :
    List.Forall₂ Sees (runClauses env prid cs args).1 (cs.map fun c => ⟨c, prid, decl⟩) ↔
      (∀ x ∈ decl, args x.1 = x.2) ∧ Harmless env prid decl cs args := by
  have hsees (c : Nat) (args : Args) :
      Sees ⟨c, prid, args⟩ ⟨c, prid, decl⟩ ↔ ∀ x ∈ decl, args x.1 = x.2 :=
    ⟨fun h => h.args, fun h => ⟨rfl, rfl, h⟩⟩
  induction cs generalizing args with
  | nil => exact absurd rfl hcs
  | cons c cs ih =>
    rw [runClauses, map_cons, forall₂_cons, hsees]
    cases cs with
    | nil => exact and_congr_right fun _ => iff_of_true .nil trivial
    | cons c' cs =>
      refine and_congr_right fun hdecl => ?_
      -- only a fault can change what the next clause sees
      refine (ih (cons_ne_nil c' cs) (env.after ⟨c, prid, args⟩)).trans (and_congr_left fun _ => ?_)
      unfold Env.after
      cases env.fault ⟨c, prid, args⟩ with
      | none => simpa using hdecl
      | some e => simp

/-- One dependent probe: its code has to end as declared, and its clauses must not disturb each
other. -/
theorem forall₂_firings_iff (d : Enabled) (e : End) :
    List.Forall₂ Sees (firings env d.probe e) (expected env offset args d) ↔
      EndsRight (Precondition args d.name) (declared env offset args d.name) e ∧
        ∀ a, e = .falls a → Harmless env (immValue .w d.probe.id) (declared env offset args d.name)
          d.probe.clauses a := by
  unfold expected
  by_cases hpre : Precondition args d.name
  · rw [if_pos hpre]
    cases e with
    | leaves =>
      simp only [firings, forall₂_nil_left_iff, map_eq_nil_iff]
      exact iff_of_false d.clauses_ne fun h => h.1 hpre
    | falls a =>
      rw [firings, forall₂_runClauses_iff d.clauses_ne]
      simp [EndsRight, hpre]
  · rw [if_neg hpre, forall₂_nil_right_iff]
    cases e with
    | leaves => exact iff_of_true rfl ⟨hpre, by simp⟩
    | falls a =>
      refine iff_of_false (fun h => d.clauses_ne ?_) fun h => hpre h.1.1
      rw [← length_eq_zero_iff, ← length_runClauses env (immValue .w d.probe.id) _ a]
      exact congrArg List.length h

/-- The code of each probe against its declaration. -/
theorem endsRight_iff (env : Env) (offset : BitVec 32) (args : Args) (prp : ProcProbe) :
    EndsRight (Precondition args prp) (declared env offset args prp) (ends env offset args prp) ↔
      Fine args prp := by
  cases prp with
  | execSuccess =>
    by_cases h : args 1 = 0
    · rw [ends, if_pos h]
      exact iff_of_true ⟨h, by simp [declared]⟩ trivial
    · rw [ends, if_neg h]
      exact iff_of_true h trivial
  | execFailure | exit =>
    by_cases h : args 1 = 0
    · rw [ends, if_pos h]
      exact iff_of_true (not_not.mpr h) trivial
    · rw [ends, if_neg h]
      exact iff_of_true ⟨h, by simp [declared]⟩ trivial
  | signalClear =>
    by_cases h : args 0 = 0
    · rw [ends, Fine, h]
      exact iff_of_true (by simp [EndsRight, Precondition, h]) (by decide)
    · -- the clauses run, whatever the sign
      have hne : (args 0).toInt ≠ 0 := fun h0 => h (BitVec.eq_of_toInt_eq h0)
      rw [ends, if_neg h]
      simp only [EndsRight, Precondition, Fine, declared, mem_singleton, forall_eq, and_true]
      omega
  | signalDiscard =>
    by_cases h : args 4 = 1
    · -- the second argument is the original fifth one
      rw [ends]
      simp [EndsRight, Precondition, Fine, declared, h, eq_comm]
    · rw [ends, if_neg h]
      exact iff_of_true h fun h4 => absurd h4 h
  | _ => simp [ends, EndsRight, Precondition, Fine, declared]

/-- Where the mistakes have no effect the first clause sees what it is to see. -/
theorem ends_of_fine {prp : ProcProbe} (hpre : Precondition args prp) (hfine : Fine args prp) :
    ends env offset args prp = .falls (seen env offset args prp) := by
  unfold seen
  cases prp with
  | create | lwpCreate | execSuccess | lwpExit | lwpStart | start | signalSend =>
    simp_all [ends, declared, Precondition]
  | exec | signalHandle => simp [ends, declared]
  | execFailure | exit => exact if_neg hpre
  | signalClear =>
    have hne : args 0 ≠ 0 := fun h0 => by
      rw [Precondition, h0] at hpre
      exact absurd hpre (by decide)
    rw [ends, if_neg hne]
    simp [declared]
  | signalDiscard =>
    have h4 : args 4 = 1 := hpre
    -- the wrong register holds the right value
    rw [ends, if_pos h4, show args 4 = args 0 from h4.trans (hfine h4).symm]
    exact congrArg End.falls (update_comm (by decide) _ _ _)

/-- Code that is to run its clauses does so. -/
theorem length_expected_le (d : Enabled) : (expected env offset args d).length ≤
    (firings env d.probe (ends env offset args d.name)).length := by
  unfold expected
  split
  case isFalse => exact Nat.zero_le _
  case isTrue hpre =>
    suffices h : ∃ a, ends env offset args d.name = .falls a by
      obtain ⟨a, ha⟩ := h
      rw [ha, firings, length_runClauses, length_map]
    revert hpre
    cases d.name with
    | execSuccess | signalDiscard => exact fun h => ⟨_, if_pos h⟩
    | execFailure | exit => exact fun h => ⟨_, if_neg h⟩
    | signalClear =>
      intro h
      refine ⟨_, if_neg fun h0 => ?_⟩
      rw [Precondition, h0] at h
      exact absurd h (by decide)
    | _ => exact fun _ => ⟨_, rfl⟩

end

/-- Lists that are shorter piece by piece. -/
theorem length_flatMap_le {α β γ : Type} {f : γ → List α} {g : γ → List β}
    (hle : ∀ d, (g d).length ≤ (f d).length) (ds : List γ) :
    (ds.flatMap g).length ≤ (ds.flatMap f).length := by
  induction ds with
  | nil => exact Nat.le_refl 0
  | cons d ds ih =>
    rw [flatMap_cons, flatMap_cons, length_append, length_append]
    exact Nat.add_le_add (hle d) ih

/-- If no list of the second family is longer, lists that are related as a whole are related piece
by piece. -/
theorem forall₂_flatMap_iff {α β γ : Type} {R : α → β → Prop} {f : γ → List α} {g : γ → List β}
    {ds : List γ} (hle : ∀ d, (g d).length ≤ (f d).length) :
    List.Forall₂ R (ds.flatMap f) (ds.flatMap g) ↔ ∀ d ∈ ds, List.Forall₂ R (f d) (g d) := by
  induction ds with
  | nil => simp
  | cons d ds ih =>
    rw [flatMap_cons, flatMap_cons, forall_mem_cons, ← ih]
    constructor
    · intro h
      have hlen := h.length_eq
      have hrest := length_flatMap_le hle ds
      have hd := hle d
      rw [length_append, length_append] at hlen
      -- as no piece is too long, the lengths agree piece by piece
      have heq : (g d).length = (f d).length := by omega
      have htake := forall₂_take_append _ _ _ h
      have hdrop := forall₂_drop_append _ _ _ h
      rw [heq, take_left] at htake
      rw [heq, drop_left] at hdrop
      exact ⟨htake, hdrop⟩
    · exact fun h => rel_append h.1 h.2

/-- A dependent probe that the mistakes do not affect, with clauses that do not disturb each
other. -/
def Undisturbed (env : Env) (offset : BitVec 32) (args : Args) (d : Enabled) : Prop :=
  Fine args d.name ∧ (Precondition args d.name → Harmless env (immValue .w d.probe.id)
    (declared env offset args d.name) d.probe.clauses (seen env offset args d.name))

/-- All of them: the log is compared with what is expected piece by piece. -/
theorem right_fired_iff (env : Env) (offset : BitVec 32) (args : Args) (ds : List Enabled) :
    Right env offset args ds ((meaning env offset).fired args ds) ↔
      ∀ d ∈ ds, Undisturbed env offset args d := by
  refine (forall₂_flatMap_iff fun d => length_expected_le d).trans (forall₂_congr fun d _ => ?_)
  rw [Undisturbed, ← endsRight_iff env offset args d.name]
  refine (forall₂_firings_iff d _).trans (and_congr_right fun hends => ?_)
  have hfine := (endsRight_iff env offset args d.name).mp hends
  constructor
  · exact fun h hpre => h _ (ends_of_fine hpre hfine)
  · intro h a ha
    have hpre : Precondition args d.name := by
      rw [show ends env offset args d.name = .falls a from ha] at hends
      exact hends.1
    rw [← End.falls.inj ((ends_of_fine hpre hfine).symm.trans ha)]
    exact h hpre

/-- **Dependent `proc` probes.** The trampoline of the underlying probe comes to its end with the
arguments intact, and the right clauses have run with the right arguments, exactly if the clauses of
the underlying probe leave its arguments as they were, and each dependent probe is undisturbed. -/
theorem dependents_right_iff (env : Env) (offset : BitVec 32) (clauses : List Nat)
    (ds : List Enabled) {lblExit lbl : Nat} (hexit : lblExit < lbl) {s : State}
    (hact : s.mem .act = dtActivityActive.signExtend 64) :
    (∃ s' fs, Halts (exec env) (dtCgTrampEpilogue (provider offset) lblExit clauses ds lbl) s s' ∧
      s'.args = s.args ∧
      s'.log = s.log ++ ((runClauses env (s.mem .prid) clauses s.args).1 ++ fs) ∧
      Right env offset s.args ds fs) ↔
    (runClauses env (s.mem .prid) clauses s.args).2 = s.args ∧
      ∀ d ∈ ds, Undisturbed env offset s.args d := by
  obtain ⟨s', hrun, hargs, hlog⟩ := halts_epilogue (meaning env offset) lblExit clauses ds hexit hact
  rw [← right_fired_iff env offset s.args ds]
  constructor
  · rintro ⟨s'', fs, hrun', hargs', hlog', hright⟩
    -- the run is unique, so its log is the one that is known
    have heq : s'' = s' := hrun'.unique hrun
    have hsame := (heq ▸ hargs).symm.trans hargs'
    rw [heq, hlog, hsame] at hlog'
    rw [append_cancel_left (append_cancel_left hlog')]
    exact ⟨hsame, hright⟩
  · rintro ⟨hsame, hright⟩
    rw [hsame] at hargs hlog
    exact ⟨s', _, hrun, hargs, hlog, hright⟩

/-- An active trampoline that has copied arguments. -/
def begun (args : List (BitVec 64)) : State where
  regs := fun _ => 0
  mem
    | .act => 1
    | .arg i => args.getD i 0
    | _ => 0
  log := []
  calls := 0

/-- Clause 1 faults with a bad address. -/
def badEnv : Env where
  readInt _ := 0
  clobber _ _ := 0
  fault f := if f.clause = 1 then some ⟨3, 1, 40, 1, 0⟩ else none

/-- A probe with some clauses. -/
def enabled (name : ProcProbe) (c : Nat) (cs : List Nat) : Enabled :=
  ⟨name, ⟨7, c :: cs⟩, cons_ne_nil c cs⟩

/-- A process is created: `create` and `lwp-create` see the new task, although the last clause of
`create` faults. -/
theorem create_right :
    let ds := [enabled .create 0 [1], enabled .lwpCreate 2 []]
    ∃ s' fs, Halts (exec badEnv) (dtCgTrampEpilogue (provider 0) 1 [4] ds 2) (begun [10, 20]) s' ∧
      s'.args = (begun [10, 20]).args ∧
      s'.log = [] ++ ((runClauses badEnv 0 [4] (begun [10, 20]).args).1 ++ fs) ∧
      Right badEnv 0 (begun [10, 20]).args ds fs := by
  refine (dependents_right_iff badEnv 0 [4] _ (by decide) rfl).mpr ⟨rfl, ?_⟩
  simp [enabled, Undisturbed, Fine, Harmless, badEnv]

/-- A signal 9 that is discarded: the clause of `signal-discard` sees 1 as the signal. And
`signal-clear` fires for a wait that failed with `-EAGAIN`. And the second clause of `create` sees 0
as the new task if the first one has faulted. -/
theorem signal_args_wrong :
    (∃ s', Halts (exec badEnv)
        (dtCgTrampEpilogue (provider 0) 1 [] [enabled .signalDiscard 0 []] 2)
        (begun [9, 0, 20, 0, 1]) s' ∧
      (∃ f, s'.log = [f] ∧ f.args 1 = 1) ∧
      ¬ Right badEnv 0 (begun [9, 0, 20, 0, 1]).args [enabled .signalDiscard 0 []] s'.log) ∧
    (∃ s', Halts (exec badEnv)
        (dtCgTrampEpilogue (provider 0) 1 [] [enabled .signalClear 0 []] 2) (begun [-11]) s' ∧
      s'.log.length = 1 ∧
      ¬ Right badEnv 0 (begun [-11]).args [enabled .signalClear 0 []] s'.log) ∧
    ∃ s', Halts (exec badEnv)
        (dtCgTrampEpilogue (provider 0) 1 [] [enabled .create 1 [2]] 2) (begun [10, 20]) s' ∧
      (∃ f f', s'.log = [f, f'] ∧ f.args 0 = 20 ∧ f'.args 0 = 0) ∧
      ¬ Right badEnv 0 (begun [10, 20]).args [enabled .create 1 [2]] s'.log := by
  refine ⟨?_, ?_, ?_⟩
  · obtain ⟨s', hrun, -, hlog⟩ := halts_epilogue (meaning badEnv 0) 1 []
      [enabled .signalDiscard 0 []] (show 1 < 2 by decide)
      (show (begun [9, 0, 20, 0, 1]).mem .act = _ from rfl)
    refine ⟨s', hrun, ⟨_, hlog, rfl⟩, fun h => ?_⟩
    rw [hlog] at h
    have hfine := ((right_fired_iff _ _ _ _).mp h _ mem_cons_self).1
    exact absurd (hfine rfl) (by decide)
  · obtain ⟨s', hrun, -, hlog⟩ := halts_epilogue (meaning badEnv 0) 1 []
      [enabled .signalClear 0 []] (show 1 < 2 by decide)
      (show (begun [-11]).mem .act = _ from rfl)
    refine ⟨s', hrun, congrArg List.length hlog, fun h => ?_⟩
    rw [hlog] at h
    have hfine : 0 ≤ ((begun [-11]).args 0).toInt :=
      ((right_fired_iff _ _ _ _).mp h _ mem_cons_self).1
    exact absurd hfine (by decide)
  · obtain ⟨s', hrun, -, hlog⟩ := halts_epilogue (meaning badEnv 0) 1 []
      [enabled .create 1 [2]] (show 1 < 2 by decide)
      (show (begun [10, 20]).mem .act = _ from rfl)
    refine ⟨s', hrun, ⟨_, _, hlog, rfl, rfl⟩, fun h => ?_⟩
    rw [hlog] at h
    have hharmless := ((right_fired_iff _ _ _ _).mp h _ mem_cons_self).2 trivial
    exact absurd (hharmless.1 _ rfl _ mem_cons_self) (by decide)

end DTrace.Tramp.Proc
