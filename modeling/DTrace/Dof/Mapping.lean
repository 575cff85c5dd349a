import DTrace.Dof.Validate

/-!
# DOF: argument mappings

The translated arguments of a probe are mapped to its native ones by the bytes of a section.
`validateProvider` compares each of them with the number of native arguments by `>`, so that number
itself passes, although the arguments are numbered from zero.

* **`mappings_in_range_iff`** — the mappings are in range exactly if none is that number.
-/

namespace DTrace.Dof

/-- The sections of a provider as `validateProvider` checks them. -/
def checkedSecs (m : Mem) (p : Nat) : Secs :=
  let prov := providerAt m (secAt m p).offset
  { str := secAt m (sectPtr m prov.strtab)
    prb := secAt m (sectPtr m prov.probes)
    arg := secAt m (sectPtr m prov.prargs)
    off := secAt m (sectPtr m prov.proffs)
    enoff := if version m ≠ 1 ∧ prov.prenoffs ≠ Sect.none then
        some (secAt m (sectPtr m prov.prenoffs))
      else none }

/-- `arg[argidx + k]`, the native argument for the translated argument `k`. -/
def nativeArg (m : Mem) (secs : Secs) (prb : Probe) (k : Nat) : Nat :=
  m.u8 (secs.arg.offset + (prb.argidx + k) % 2 ^ 32)

variable {m : Mem} {p : Nat} {secs : Secs}

/-- The references of an accepted provider are to sections that were checked. -/
theorem checkSecs_of_valid (h : validateProvider m p = .ok ()) :
    checkSecs m (providerAt m (secAt m p).offset) (checkedSecs m p) = .ok () := by
  simp only [validateProvider, check_bind_ok, dofErrorIf_ok] at h
  obtain ⟨_, _, _, _, _, _, h⟩ := h
  split at h
  case h_2 => cases h
  case h_1 str prb arg off hstr hprb harg hoff =>
    obtain ⟨rfl, -, -⟩ := dofSect_ok hstr
    obtain ⟨rfl, -, -⟩ := dofSect_ok hprb
    obtain ⟨rfl, -, -⟩ := dofSect_ok harg
    obtain ⟨rfl, -, -⟩ := dofSect_ok hoff
    obtain ⟨enoff, henoff, h⟩ := check_bind_ok.mp h
    unfold enoffSect at henoff
    split at henoff
    case isTrue hen =>
      cases hsect : dofSect m Sect.prenoffs (providerAt m (secAt m p).offset).prenoffs with
      | error es => simp [hsect, Except.map] at henoff
      | ok q =>
        obtain ⟨rfl, -, -⟩ := dofSect_ok hsect
        obtain rfl : some (sectPtr m (providerAt m (secAt m p).offset).prenoffs) = enoff := by
          simpa [hsect, Except.map] using henoff
        rw [checkedSecs, if_pos hen]
        exact h
    case isFalse hen =>
      obtain rfl := Except.ok.inj henoff
      rw [checkedSecs, if_neg hen]
      exact h

theorem checkTypes_pre {strSize n k typeidx typestr : Nat} {pre : Nat → Check Unit}
    {bad long : String}
    (h : checkTypes m strSize pre bad long n k typeidx typestr = .ok ()) :
    ∀ i < n, pre (k + i) = .ok () := by
  induction n generalizing k typeidx typestr with
  | zero => exact fun i hi => absurd hi (Nat.not_lt_zero i)
  | succ n ih =>
    simp only [checkTypes, check_bind_ok] at h
    obtain ⟨_, hpre, _, _, _, _, hrest⟩ := h
    intro i hi
    cases i with
    | zero => exact hpre
    | succ i =>
      rw [← Nat.add_assoc, Nat.add_right_comm]
      exact ih hrest i (by omega)

theorem nativeArg_le {j k : Nat} (h : checkProbe m secs j = .ok ())
    (hk : k < (probeAt m (secs.prb.entry j)).xargc) :
    nativeArg m secs (probeAt m (secs.prb.entry j)) k ≤ (probeAt m (secs.prb.entry j)).nargc := by
  simp only [checkProbe, check_bind_ok] at h
  obtain ⟨_, _, _, _, _, _, _, _, _, _, _, _, _, _, _, _, htypes⟩ := h
  have hpre := checkTypes_pre htypes k hk
  rw [dofErrorIf_ok, Nat.zero_add] at hpre
  exact Nat.le_of_not_lt hpre

/-- The probes' mappings, as the probe's number, the native argument and the number of those. -/
def Mappings (m : Mem) (p : Nat) (ok : Nat → Nat → Nat → Prop) : Prop :=
  let secs := checkedSecs m p
  let prb := fun j => probeAt m (secs.prb.entry j)
  ∀ j < secs.prb.size / secs.prb.entsize, ∀ k < (prb j).xargc,
    ok j (nativeArg m secs (prb j) k) (prb j).nargc

/-- **Argument mappings** of an accepted provider are in range exactly if none of them is the number
of native arguments. Only the probes that the 32-bit count leaves out may be worse. -/
theorem mappings_in_range_iff (hvalid : validateProvider m p = .ok ()) :
    (Mappings m p fun _ arg nargc => arg < nargc) ↔ Mappings m p fun j arg nargc =>
      arg ≠ nargc ∧ ((checkedSecs m p).nprobes ≤ j → arg < nargc) := by
  have hsecs := checkSecs_of_valid hvalid
  simp only [checkSecs, check_bind_ok, forUpto_ok] at hsecs
  obtain ⟨_, _, _, _, _, _, _, _, _, _, _, _, _, _, hprobes⟩ := hsecs
  constructor
  · exact fun h j hj k hk => ⟨(h j hj k hk).ne, fun _ => h j hj k hk⟩
  · intro h j hj k hk
    obtain ⟨hne, hlast⟩ := h j hj k hk
    by_cases hlt : j < (checkedSecs m p).nprobes
    · exact Nat.lt_of_le_of_ne (nativeArg_le (hprobes j hlt) hk) hne
    · exact hlast (Nat.le_of_not_lt hlt)

/-- DOF with a probe without native arguments and one translated argument, mapped to 0. -/
def mappedToNone : Mem :=
  image 1 [strings, ⟨Sect.prargs, 1, 1, [0]⟩, offsets [4], provider 0 4 1 2 0,
    ⟨Sect.probes, 8, 48, ByteMem.le64 0x1000 ++
      [2, 4, 0, 0, 0, 0, 2 ^ 16 + 2 ^ 8, 0, 0, 0].flatMap ByteMem.le32⟩]

/-- It is accepted, and the mapping is out of range. -/
theorem mappedToNone_accepted :
    validateProvider mappedToNone (sectPtr mappedToNone 3) = .ok () ∧
      ¬Mappings mappedToNone (sectPtr mappedToNone 3) fun _ arg nargc => arg < nargc := by
  unfold Mappings
  decide +kernel

/-- With one native argument the same mapping is in range. -/
theorem mappedToFirst_in_range :
    let m := image 1 [strings, ⟨Sect.prargs, 1, 1, [0]⟩, offsets [4], provider 0 4 1 2 0,
      ⟨Sect.probes, 8, 48, ByteMem.le64 0x1000 ++
        [2, 4, 4, 4, 0, 0, 2 ^ 16 + 2 ^ 8 + 1, 0, 0, 0].flatMap ByteMem.le32⟩]
    (probeAt m ((checkedSecs m (sectPtr m 3)).prb.entry 0)).xargc = 1 ∧
      Mappings m (sectPtr m 3) fun _ arg nargc => arg < nargc :=
  ⟨by decide +kernel,
    (mappings_in_range_iff (by decide +kernel)).mpr (by unfold Mappings; decide +kernel)⟩

end DTrace.Dof
