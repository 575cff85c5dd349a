import DTrace.Dof.Emit

/-!
# DOF: the stream of messages

The reader of the messages expects a provider that announces `n` probes to be followed by `n`
groups, each a probe that announces `t` tracepoints and `t` tracepoints (`IsProvider`). What
`emitProvider` writes is of that form if and only if `validateProbe` accepts every probe
(`emitProvider_isProvider_iff`), which `Accepts` says in terms of the offsets: as addresses they
increase once they are sorted, and there is at least one.

`validateProvider` does not make sure of that. It counts is-enabled offsets that are left out later
(`enabled_only_probe_not_emitted`), and does not look at the values of offsets.
-/

namespace DTrace.Dof

open List

/-! ## The form of the stream -/

def Msg.IsTracepoint : Msg → Prop
  | .tracepoint .. => True
  | _ => False

/-- A probe and as many tracepoints as it says. -/
inductive IsProbe : List Msg → Prop
  | mk {ntp : Nat} {mod func name : List (Fin 256)} {tps : List Msg} (length : tps.length = ntp)
      (tracepoints : ∀ msg ∈ tps, msg.IsTracepoint) : IsProbe (.probe ntp mod func name :: tps)

/-- A provider and as many probes as it says. -/
inductive IsProvider : List Msg → Prop
  | mk {nprobes : Nat} {name : List (Fin 256)} {groups : List (List Msg)}
      (length : groups.length = nprobes) (probes : ∀ group ∈ groups, IsProbe group) :
      IsProvider (.provider nprobes name :: groups.flatten)

def Msg.IsErr : Msg → Prop
  | .err _ => True
  | _ => False

instance : DecidablePred Msg.IsErr
  | .err _ => isTrue trivial
  | .provider .. => isFalse id
  | .probe .. => isFalse id
  | .tracepoint .. => isFalse id

theorem IsProbe.not_isErr {group : List Msg} (h : IsProbe group) {msg : Msg} (hmsg : msg ∈ group) :
    ¬msg.IsErr := by
  obtain ⟨_, htps⟩ := h
  rcases mem_cons.mp hmsg with rfl | hmem
  · exact id
  · have := htps msg hmem
    cases msg <;> simp_all [Msg.IsTracepoint, Msg.IsErr]

theorem IsProvider.ne_nil {msgs : List Msg} (h : IsProvider msgs) : msgs ≠ [] := by
  obtain ⟨_, _⟩ := h
  exact cons_ne_nil _ _

/-- There is no error in it. -/
theorem IsProvider.not_isErr {msgs : List Msg} (h : IsProvider msgs) {msg : Msg}
    (hmsg : msg ∈ msgs) : ¬msg.IsErr := by
  obtain ⟨_, hprobes⟩ := h
  rcases mem_cons.mp hmsg with rfl | hmem
  · exact id
  · obtain ⟨group, hgroup, hmem⟩ := mem_flatten.mp hmem
    exact (hprobes group hgroup).not_isErr hmem

/-! ## Probes that are accepted -/

/-- The addresses of the sorted offsets increase. -/
def Increasing (qsort : Qsort) (base : Nat) (offs : List Nat) : Prop :=
  ((qsort uint32Cmp offs).map fun off => (base + off) % 2 ^ 64).Pairwise (· < ·)

/-- What `validateProbe` accepts. -/
structure Accepts (qsort : Qsort) (m : Mem) (d : ProbeDesc) : Prop where
  offs : Increasing qsort d.base (m.words d.offs d.noffs)
  enoffs : Increasing qsort d.base
    ((sortWords qsort m d.offs d.noffs).words d.enoffs d.nenoffs)
  some : d.noffs ≠ 0 ∨ d.nenoffs ≠ 0

section

variable {qsort : Qsort} (hq : IsQsort qsort)

include hq

theorem length_qsort_words (m : Mem) (p n : Nat) :
    (qsort uint32Cmp (m.words p n)).length = n := by
  rw [(hq.perm _ _).length_eq, ByteMem.length_words]

variable {m : Mem} {base : Nat}

/-- The sorted offsets are read back. -/
theorem tpAddr_sortWords {p n i : Nat} (hn : n < 2 ^ 16) (hi : i < n) :
    tpAddr (sortWords qsort m p n) base p i =
      (base + (qsort uint32Cmp (m.words p n)).getD i 0) % 2 ^ 64 := by
  have hlen := length_qsort_words hq m p n
  have hi' : i < (qsort uint32Cmp (m.words p n)).length := by omega
  have hword : (qsort uint32Cmp (m.words p n))[i] < 2 ^ 32 := by
    have hmem := (hq.perm uint32Cmp (m.words p n)).mem_iff.mp (getElem_mem hi')
    obtain ⟨k, _, hk⟩ := mem_map.mp hmem
    rw [← hk]
    exact ByteMem.u32_lt _
  rw [tpAddr, sortWords, ByteMem.u32_writeWords hi' (by omega), Nat.mod_eq_of_lt hword,
    getD_eq_getElem _ _ hi']

theorem checkUnique_ok {fmt : String} {p n : Nat} (hn : n < 2 ^ 16) :
    checkUnique (sortWords qsort m p n) fmt base p n = .ok () ↔
      Increasing qsort base (m.words p n) := by
  have hlen := length_qsort_words hq m p n
  rw [checkUnique, forFrom_ok, Increasing, ← isChain_iff_pairwise, isChain_iff_getElem]
  simp only [length_map, getElem_map, dofErrorIf_ok, Nat.not_le]
  constructor
  · intro h i hi
    have := h i (by omega)
    rw [Nat.add_comm 1 i, tpAddr_sortWords hq hn (by omega),
      tpAddr_sortWords hq hn (by omega), getD_eq_getElem _ _ (by omega),
      getD_eq_getElem _ _ (by omega)] at this
    exact this
  · intro h i hi
    have := h i (by omega)
    rw [Nat.add_comm 1 i, tpAddr_sortWords hq hn (by omega),
      tpAddr_sortWords hq hn (by omega), getD_eq_getElem _ _ (by omega),
      getD_eq_getElem _ _ (by omega)]
    exact this

theorem validateProbe_ok {d : ProbeDesc} (hnoffs : d.noffs < 2 ^ 16)
    (hnenoffs : d.nenoffs < 2 ^ 16) : (validateProbe qsort m d).2 = .ok () ↔ Accepts qsort m d := by
  rw [validateProbe]
  split
  case h_1 es hes =>
    have hoffs : ¬Increasing qsort d.base (m.words d.offs d.noffs) := by
      rw [← checkUnique_ok hq hnoffs, hes]
      exact nofun
    exact ⟨nofun, fun h => absurd h.offs hoffs⟩
  case h_2 hok =>
    have hoffs := (checkUnique_ok hq hnoffs).mp hok
    simp only [check_bind_ok, checkUnique_ok hq hnenoffs, dofErrorIf_ok]
    constructor
    · rintro ⟨_, henoffs, _⟩
      exact ⟨hoffs, henoffs, by omega⟩
    · intro h
      refine ⟨(), h.enoffs, ?_⟩
      have := h.some
      omega

end

/-! ## Errors -/

/-- A check that fails has an error to report. -/
def Reports {α : Type} (check : Check α) : Prop := ∀ es, check = .error es → es ≠ []

theorem reports_dofErrorIf (c : Prop) [Decidable c] (fmt : String) (args : List Arg) :
    Reports (dofErrorIf c fmt args) := by
  intro es h
  unfold dofErrorIf at h
  split at h
  · cases h
    exact cons_ne_nil _ _
  · cases h

theorem Reports.bind {α β : Type} {x : Check α} {f : α → Check β} (hx : Reports x)
    (hf : ∀ a, Reports (f a)) : Reports (x >>= f) := by
  intro es h
  cases x with
  | error e => exact hx es (by cases h; rfl)
  | ok a => exact hf a es h

theorem reports_forFrom {check : Nat → Check Unit} (h : ∀ i, Reports (check i)) (n j : Nat) :
    Reports (forFrom check n j) := by
  induction n generalizing j with
  | zero => exact fun _ h => nomatch h
  | succ n ih => exact (h j).bind fun _ => ih (j + 1)

variable (qsort : Qsort) {dhp : Helper} {m : Mem}

theorem reports_validateProbe (m : Mem) (d : ProbeDesc) : Reports (validateProbe qsort m d).2 := by
  have hunique : ∀ m fmt base offs n, Reports (checkUnique m fmt base offs n) :=
    fun _ _ _ _ _ => reports_forFrom (fun _ => reports_dofErrorIf _ _ _) _ _
  rw [validateProbe]
  split
  case h_1 es hes => exact fun es' h => hunique _ _ _ _ _ es' (by rw [hes]; exact h)
  case h_2 => exact (hunique _ _ _ _ _).bind fun _ => reports_dofErrorIf _ _ _

/-! ## What is written -/

/-- Either a probe and its tracepoints, or an error. -/
theorem emitProbe_cases (m : Mem) (d : ProbeDesc) :
    (validateProbe qsort m d).2 = .ok () ∧ IsProbe (emitProbe qsort m d).1 ∨
      (validateProbe qsort m d).2 ≠ .ok () ∧ ∃ msg ∈ (emitProbe qsort m d).1, msg.IsErr := by
  rw [emitProbe]
  split
  case h_1 m' es heq =>
    right
    refine ⟨by rw [heq]; exact nofun, ?_⟩
    obtain ⟨e, he⟩ := exists_mem_of_ne_nil es
      (reports_validateProbe qsort m d es (by rw [heq]))
    exact ⟨.err e, mem_map_of_mem he, trivial⟩
  case h_2 m' _ heq =>
    left
    refine ⟨by rw [heq], ?_⟩
    constructor
    · simp [emitTps]
    · intro msg hmsg
      rcases mem_append.mp hmsg with hmsg | hmsg <;>
        obtain ⟨_, _, rfl⟩ := mem_map.mp hmsg <;> trivial

/-- Without errors among them, the messages have the form the reader expects. -/
theorem emitProvider_isProvider_of_noErr {qsort : Qsort} {p : Nat}
    (h : ∀ msg ∈ (emitProvider qsort dhp m p).1, ¬msg.IsErr) :
    IsProvider (emitProvider qsort dhp m p).1 := by
  refine IsProvider.mk (by simp) fun group hgroup => ?_
  obtain ⟨i, -, rfl⟩ := mem_map.mp hgroup
  rcases emitProbe_cases qsort (memBefore qsort dhp m (tablesOf m p) i)
      (probeDesc dhp (memBefore qsort dhp m (tablesOf m p) i) (tablesOf m p) i) with
    ⟨_, hprobe⟩ | ⟨_, msg, hmsg, herr⟩
  · exact hprobe
  · exact absurd herr (h msg (mem_cons_of_mem _ (mem_flatten.mpr ⟨_, hgroup, hmsg⟩)))

/-- One group of messages for every provider section. -/
theorem parseFrom_groups {qsort : Qsort} {fuel i count : Nat}
    (hcount : (parseFrom qsort dhp fuel i m).2 = some count)
    (h : ∀ msg ∈ (parseFrom qsort dhp fuel i m).1, ¬msg.IsErr) :
    ∃ groups : List (List Msg), (parseFrom qsort dhp fuel i m).1 = groups.flatten ∧
      groups.length = count ∧ ∀ group ∈ groups, IsProvider group := by
  fun_induction parseFrom qsort dhp fuel i m generalizing count with
  | case1 | case5 =>
    obtain rfl := Option.some.inj hcount
    exact ⟨[], rfl, rfl, nofun⟩
  | case2 =>
    rename_i ih
    exact ih hcount h
  | case3 => cases hcount
  | case4 =>
    rename_i msgs _ hmsgs rest _ hrest ih
    obtain ⟨_, hcount', rfl⟩ := Option.map_eq_some_iff.mp hcount
    rw [hrest] at ih
    obtain ⟨groups, rfl, rfl, hgroups⟩ := ih hcount' fun msg hmsg => h msg (mem_append_right _ hmsg)
    have hfirst := hmsgs ▸ @emitProvider_isProvider_of_noErr dhp _ qsort _
    refine ⟨msgs :: groups, rfl, rfl, forall_mem_cons.mpr ⟨?_, hgroups⟩⟩
    exact hfirst fun msg hmsg => h msg (mem_append_left _ hmsg)

theorem dofParse_of_slurp {qsort : Qsort} {m0 : Mem} (hslurp : dofSlurp m0 dhp.addr = .ok m) :
    dofParse qsort dhp m0 = if (parseFrom qsort dhp (2 ^ 32) 0 m).2 = some 0 then [.provider 0 []]
      else (parseFrom qsort dhp (2 ^ 32) 0 m).1 := by
  rw [dofParse, hslurp]
  dsimp only
  split
  case h_1 heq => simp_all
  case h_2 msgs' count' hne heq =>
    obtain ⟨rfl, rfl⟩ := Prod.mk.inj heq
    exact (if_neg hne).symm

/-- A probe without tracepoints is an error. -/
theorem emitProbe_of_no_offsets (m : Mem) {d : ProbeDesc} (hnoffs : d.noffs = 0)
    (hnenoffs : d.nenoffs = 0) :
    (emitProbe qsort m d).1 = [.err ⟨.EINVAL, "USDT probe with zero tracepoints", []⟩] := by
  have hvalid : validateProbe qsort m d =
      (sortWords qsort (sortWords qsort m d.offs 0) d.enoffs 0,
        .error [⟨.EINVAL, "USDT probe with zero tracepoints", []⟩]) := by
    simp [validateProbe, checkUnique, forFrom, dofErrorIf, hnoffs, hnenoffs, bind, Except.bind]
  rw [emitProbe, hvalid]
  rfl

/-- **What is written for a provider has the form the reader expects if and only if every probe of
it is accepted in the memory as it is by then.** -/
theorem emitProvider_isProvider_iff {qsort : Qsort} (hq : IsQsort qsort) (dhp : Helper) (m : Mem)
    (p : Nat) :
    IsProvider (emitProvider qsort dhp m p).1 ↔
      ∀ i < (tablesOf m p).nprobes,
        Accepts qsort (memBefore qsort dhp m (tablesOf m p) i)
          (probeDesc dhp (memBefore qsort dhp m (tablesOf m p) i) (tablesOf m p) i) := by
  have hnoffs : ∀ m' i, (probeDesc dhp m' (tablesOf m p) i).noffs < 2 ^ 16 :=
    fun _ _ => ByteMem.u16_lt _
  have hnenoffs : ∀ m' i, (probeDesc dhp m' (tablesOf m p) i).nenoffs < 2 ^ 16 := by
    intro m' i
    simp only [probeDesc]
    split
    · exact ByteMem.u16_lt _
    · exact Nat.two_pow_pos 16
  constructor
  · intro h i hi
    rw [← validateProbe_ok hq (hnoffs ..) (hnenoffs ..)]
    rcases emitProbe_cases qsort (memBefore qsort dhp m (tablesOf m p) i)
        (probeDesc dhp (memBefore qsort dhp m (tablesOf m p) i) (tablesOf m p) i) with
      ⟨hok, _⟩ | ⟨_, msg, hmsg, herr⟩
    · exact hok
    · -- an error would be among the messages
      refine absurd herr (h.not_isErr ?_)
      exact mem_cons_of_mem _ (mem_flatMap.mpr ⟨i, mem_range.mpr hi, hmsg⟩)
  · intro h
    refine emitProvider_isProvider_of_noErr fun msg hmsg => ?_
    rcases mem_cons.mp hmsg with rfl | hmsg
    · exact id
    · obtain ⟨i, hi, hmsg⟩ := mem_flatMap.mp hmsg
      have hok := (validateProbe_ok hq (hnoffs ..) (hnenoffs ..)).mpr (h i (mem_range.mp hi))
      rcases emitProbe_cases qsort (memBefore qsort dhp m (tablesOf m p) i)
          (probeDesc dhp (memBefore qsort dhp m (tablesOf m p) i) (tablesOf m p) i) with
        ⟨_, hprobe⟩ | ⟨hnot, _⟩
      · exact hprobe.not_isErr hmsg
      · exact absurd hok hnot

/-- DOF with one provider, which has one probe with two tracepoints in falling order. -/
def twoTracepoints : Mem :=
  image 2 [strings, args, offsets [8, 4], provider 0 4 1 2 0, ⟨Sect.probes, 8, 48, probe 2 0⟩]

theorem twoTracepoints_isProvider :
    IsProvider (emitProvider (fun cmp xs => xs.insertionSort fun x y => cmp x y ≤ 0) ⟨[], 0⟩
      twoTracepoints (sectPtr twoTracepoints 3)).1 := by
  refine (emitProvider_isProvider_iff isQsort_insertionSort _ _ _).mpr fun i hi => ?_
  have hone : (tablesOf twoTracepoints (sectPtr twoTracepoints 3)).nprobes = 1 := by decide +kernel
  obtain rfl : i = 0 := by omega
  refine ⟨?_, ?_, .inl ?_⟩
  · unfold Increasing
    decide +kernel
  · unfold Increasing
    decide +kernel
  · decide +kernel

/-- DOF of version 2 with one probe, which has an is-enabled offset only. -/
def enabledOnly : Mem :=
  image 2 [strings, args, offsets [], provider 0 4 1 2 5, ⟨Sect.probes, 8, 48, probe 0 1⟩,
    ⟨Sect.prenoffs, 4, 4, ByteMem.le32 4⟩]

/-- The DOF is accepted and one probe announced, but an error follows. -/
theorem enabled_only_probe_not_emitted :
    dofSlurp enabledOnly 0 = .ok enabledOnly ∧
      validateProvider enabledOnly (sectPtr enabledOnly 3) = .ok () ∧
      ∀ qsort dhp, (emitProvider qsort dhp enabledOnly (sectPtr enabledOnly 3)).1 =
          [.provider 1 [112], .err ⟨.EINVAL, "USDT probe with zero tracepoints", []⟩] ∧
        ¬IsProvider (emitProvider qsort dhp enabledOnly (sectPtr enabledOnly 3)).1 := by
  refine ⟨dofSlurp_of_noRelocs (by decide +kernel) (by decide +kernel) (by decide +kernel) 0,
    by decide +kernel, fun qsort dhp => ?_⟩
  have hprobe := emitProbe_of_no_offsets qsort enabledOnly
    (d := probeDesc dhp enabledOnly (tablesOf enabledOnly (sectPtr enabledOnly 3)) 0)
    (show (probeDesc ⟨[], 0⟩ enabledOnly _ 0).noffs = 0 from by decide +kernel)
    (show (probeDesc ⟨[], 0⟩ enabledOnly _ 0).nenoffs = 0 from by decide +kernel)
  have hone : (tablesOf enabledOnly (sectPtr enabledOnly 3)).nprobes = 1 := by decide +kernel
  have hname : strAt enabledOnly ((tablesOf enabledOnly (sectPtr enabledOnly 3)).strtab +
      (tablesOf enabledOnly (sectPtr enabledOnly 3)).name) = [112] := by decide +kernel
  have hmsgs : (emitProvider qsort dhp enabledOnly (sectPtr enabledOnly 3)).1 =
      [.provider 1 [112], .err ⟨.EINVAL, "USDT probe with zero tracepoints", []⟩] := by
    simp only [emitProvider, hone, hname, range_one, flatMap_singleton, memBefore, hprobe]
  refine ⟨hmsgs, fun h => ?_⟩
  rw [hmsgs] at h
  exact h.not_isErr (mem_cons_of_mem _ (mem_singleton.mpr rfl)) trivial

end DTrace.Dof
