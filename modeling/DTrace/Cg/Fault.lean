import DTrace.Cg.Read

/-!
# Faults — `dt_cg_probe_error`

A run-time check leaves the clause by calling `dt_probe_error` and returning. `Raises c σ fault`
says that the code `c`, wherever it is placed, comes to that call with `fault` as the fault to
report and without having written memory. What follows the call is the `exit` of the clause, so
code that raises a fault never reaches its own end (`Raises.not_frag`, `Raises.not_runs`).
-/

namespace DTrace.Cg

open LabelCode Bpf

/-- The call of `dt_probe_error` that reports `fault`, and the return behind it. -/
def AtProbeError (σ : State) (fault : BitVec 32) (d : Ir) (s : State) : Prop :=
  (∃ rest, d = ⟨0, .call .dtProbeError⟩ :: ⟨0, .exit⟩ :: rest) ∧
    s.regs 1 = σ.stack dtStkDctx ∧ s.regs 3 = fault.signExtend 64 ∧ s.mem = σ.mem

def Raises (env : Env) (c : Ir) (σ : State) (fault : BitVec 32) : Prop :=
  Leads (exec env) c σ (AtProbeError σ fault)

section
variable {env : Env} {fault : BitVec 32}

/-- The part of `dt_cg_probe_error` after the illegal value has been put in place. -/
theorem raises_report (env : Env) (fault : BitVec 32) (σ : State) :
    Raises env (emit (.load .dw 1 regFP dtStkDctx) ++ emit (.movImm 2 (-1)) ++
      emit (.aluImm .add 2 3) ++ emit (.movImm 3 fault) ++ emit (.call .dtProbeError) ++
      emit .exit) σ fault := by
  intro pre k _
  refine ⟨_, _, .next rfl (.next rfl (.next rfl (.next rfl (.refl _)))), ⟨k, rfl⟩, ?_, ?_, ?_⟩
  all_goals simp [State.setReg_regs]

theorem raises_probeError (fault ill : BitVec 32) (σ : State) :
    Raises env (dtCgProbeError fault ill) σ fault := by
  have h := raises_report env fault (σ.setReg 4 (ill.signExtend 64))
  exact BlockLeads.next rfl (fun _ => h) (by simp [labels])

theorem raises_probeErrorReg (fault : BitVec 32) (ill : Nat) (σ : State) :
    Raises env (dtCgProbeErrorReg fault ill) σ fault := by
  have h := fun v => raises_report env fault (σ.setReg 4 v)
  unfold dtCgProbeErrorReg
  split <;> exact BlockLeads.next rfl (fun _ => h _) (by simp [labels])

/-- Code that runs up to a fault raises it, if it writes no memory and keeps the context. -/
theorem Raises.of_frag {c1 c2 : Ir} {σ σ1 : State} (h1 : Frag (exec env) c1 σ σ1)
    (h2 : Raises env c2 σ1 fault) (hctx : ctxOf σ1 = ctxOf σ) (hnd : (labels (c1 ++ c2)).Nodup) :
    Raises env (c1 ++ c2) σ fault := by
  obtain ⟨hdctx, hmem⟩ := Ctx.mk.inj hctx
  intro pre k hpre
  obtain ⟨d, s, r, hd, hr1, hr3, hm⟩ := h1.leads h2 hnd pre k hpre
  exact ⟨d, s, r, hd, hr1.trans hdctx, hr3, hm.trans hmem⟩

/-- From the call on, the machine stops inside the code. -/
theorem AtProbeError.stops (env : Env) {σ s : State} {d : Ir} (h : AtProbeError σ fault d s)
    (prog : Ir) :
    ∃ n d' s', Steps (exec env) prog (d, s) (n :: d', s') ∧
      step (exec env) prog (n :: d', s') = none := by
  obtain ⟨⟨-, rfl⟩, -⟩ := h
  cases hcall : env.ret .dtProbeError (s.args .dtProbeError) s.mem with
  | none =>
    refine ⟨_, _, _, .refl _, ?_⟩
    simp [step, exec, hcall]
  | some v =>
    refine ⟨_, _, _, .next (by simp [exec, hcall]; rfl) (.refl _), ?_⟩
    simp [step, exec]

theorem Raises.not_runs {c : Ir} {σ σ' : State} (h : Raises env c σ fault) :
    ¬ Runs (exec env) c σ σ' := by
  intro hrun
  obtain ⟨d, s, r, hq⟩ := h [] [] fun _ _ => by simp
  obtain ⟨n, _, _, r', hstop⟩ := hq.stops env c
  simp only [List.append_nil] at r
  have := Steps.unique hrun (r.trans r') rfl hstop
  simp at this

theorem Raises.not_frag {c : Ir} {σ σ' : State} (h : Raises env c σ fault) :
    ¬ Frag (exec env) c σ σ' :=
  fun hf => h.not_runs (hf.runs)

end

end DTrace.Cg
