import DTrace.Lib.System
import DTrace.Agg.Snapshot

/-!
# Generations

Aggregation statements run on the CPUs while the consumer takes snapshots and processes
`clear()`. The system interleaves

* the steps of a statement: `dt_get_agg` finds data or zeroes it, sets its generation, and the
  aggregating function is applied;
* the steps of a snapshot: the hash is cleared, then data is taken over one key at a time;
* `clear()`, which the consumer does not do in the middle of a snapshot.

Every input is logged with the generation its aggregation had at that moment. Data in the hash
is `Current` if nothing in its log is of an older generation. `current_iff_stepOk` says which
runs keep the hash current: those where data with older inputs is only ever taken over into an
entry of another generation. The code makes no such comparison when it creates the entry
(`cleared_count_in_new_entry`).
-/

namespace DTrace.Agg

open Option Function

variable {C τ : Type*} [DecidableEq C] [DecidableEq τ]

/-! ## The system -/

/-- How far the statement on a CPU has got. -/
inductive Phase (τ : Type*)
  | idle
  | setup (key : AggKey τ)
  | ready (key : AggKey τ)
  deriving DecidableEq

structure Sys (C τ : Type*) where
  aggs : Aggs
  maps : C → CpuMap τ
  phase : C → Phase τ
  hash : AggHash τ
  snapping : Bool

inductive Event (C τ : Type*)
  | getAgg (cpu : C) (key : AggKey τ)
  | setGen (cpu : C)
  | add (cpu : C) (x : Input)
  | snapStart
  | snapOne (cpu : C) (key : AggKey τ)
  | snapEnd
  | clear (id : Nat)

def initial (func : Nat → AggFunc) : Sys C τ :=
  ⟨⟨func, fun _ => 1⟩, fun _ => ∅, fun _ => .idle, fun _ => none, false⟩

def Sys.setCpu (s : Sys C τ) (cpu : C) (map : CpuMap τ) (phase : Phase τ) : Sys C τ :=
  { s with
    maps := update s.maps cpu map
    phase := update s.phase cpu phase }

def step (s : Sys C τ) : Event C τ → Option (Sys C τ)
  | .getAgg cpu key =>
    match s.phase cpu with
    | .idle =>
      if s.aggs.found key (s.maps cpu) then some (s.setCpu cpu (s.maps cpu) (.ready key))
      else some (s.setCpu cpu (s.aggs.setDflt key (s.maps cpu)) (.setup key))
    | _ => none
  | .setGen cpu =>
    match s.phase cpu with
    | .setup key => some (s.setCpu cpu (s.aggs.setGen key (s.maps cpu)) (.ready key))
    | _ => none
  | .add cpu x =>
    match s.phase cpu with
    | .ready key => some (s.setCpu cpu (s.aggs.apply key x (s.maps cpu)) .idle)
    | _ => none
  | .snapStart =>
    if s.snapping then none
    else some { s with hash := s.aggs.dtraceAggregateClear s.hash, snapping := true }
  | .snapOne cpu key =>
    match s.snapping, (s.maps cpu).lookup key with
    | true, some data => some { s with hash := s.aggs.dtAggregateSnapOne s.hash key data }
    | _, _ => none
  | .snapEnd => if s.snapping then some { s with snapping := false } else none
  | .clear id =>
    if s.snapping then none
    else
      let (aggs, hash) := s.aggs.dtClear id s.hash
      some { s with aggs := aggs, hash := hash }

def system (C : Type*) [DecidableEq C] (τ : Type*) [DecidableEq τ] (func : Nat → AggFunc) :
    TransitionSystem (Sys C τ) (Event C τ) :=
  ⟨initial func, step⟩

/-- Nothing in the hash was aggregated under an older generation. -/
def Current (s : Sys C τ) : Prop :=
  ∀ key agd, s.hash key = some agd → ∀ p ∈ agd.log, p.1 = s.aggs.gen key.id

/-- Data with inputs of an older generation is not copied into a new entry, nor merged into one
of its own generation. -/
def StepOk (s : Sys C τ) : Event C τ → Prop
  | .snapOne cpu key =>
    ∀ data ∈ (s.maps cpu).lookup key, data.gen ≠ 0 →
      (∃ p ∈ data.log, p.1 < s.aggs.gen key.id) → ∃ agd ∈ s.hash key, agd.gen ≠ data.gen
  | _ => True

/-! ## Data and its log

A log lists the inputs that data was made of; no function reads it. -/

/-- The data words after a list of inputs, from fresh data. -/
def AggFunc.run (f : AggFunc) (xs : List Input) : List Word :=
  xs.foldl (fun vals x => f.update x vals) f.init

/-- An entry with the data of a CPU merged into it. -/
def AggData.join (f : AggFunc) (agd data : AggData) : AggData :=
  { agd with
    vals := dtAggOneAgg f agd.vals data.vals
    log := agd.log ++ data.log }

/-- Data under the generation `gen`: its inputs came after it was set up, and it is what they
add up to. -/
structure DataOk (f : AggFunc) (gen : Nat) (d : AggData) : Prop where
  gen_le : d.gen ≤ gen
  tags : ∀ p ∈ d.log, d.gen ≤ p.1 ∧ p.1 ≤ gen
  vals : d.gen ≠ 0 → f ≠ .stddev → d.vals = f.run (d.log.map (·.2))

namespace DataOk

variable {f : AggFunc} {gen gen' : Nat} {d agd : AggData}

theorem mono (h : DataOk f gen d) (hle : gen ≤ gen') : DataOk f gen' d where
  gen_le := Nat.le_trans h.gen_le hle
  tags p hp := ⟨(h.tags p hp).1, Nat.le_trans (h.tags p hp).2 hle⟩
  vals := h.vals

theorem start {vals : List Word} (hg : d = ⟨0, vals, []⟩) : DataOk f gen d := by
  subst hg
  exact ⟨Nat.zero_le _, by simp, fun h => absurd rfl h⟩

theorem init (f : AggFunc) (gen : Nat) : DataOk f gen ⟨gen, f.init, []⟩ :=
  ⟨le_rfl, by simp, fun _ _ => rfl⟩

theorem add (h : DataOk f gen d) (x : Input) :
    DataOk f gen { d with vals := f.update x d.vals, log := d.log ++ [(gen, x)] } where
  gen_le := h.gen_le
  tags p hp := by
    rcases List.mem_append.mp hp with hp | hp
    · exact h.tags p hp
    · rw [List.mem_singleton.mp hp]
      exact ⟨h.gen_le, le_rfl⟩
  vals hg hf := by
    rw [h.vals hg hf]
    simp [AggFunc.run]

theorem merge (ha : DataOk f gen agd) (hd : DataOk f gen d) (heq : agd.gen = d.gen) :
    DataOk f gen (agd.join f d) where
  gen_le := ha.gen_le
  tags p hp := by
    rcases List.mem_append.mp hp with hp | hp
    · exact ha.tags p hp
    · show agd.gen ≤ _ ∧ _
      exact heq ▸ hd.tags p hp
  vals hg hf := by
    show dtAggOneAgg f agd.vals d.vals = _
    rw [ha.vals hg hf, hd.vals (heq ▸ hg) hf]
    simpa [AggFunc.run, AggData.join] using (mergeLaws hf).fold_merge (agd.log.map (·.2)) _

/-- The data words have their number. -/
theorem length (h : DataOk f gen d) (hg : d.gen ≠ 0) (hf : f ≠ .stddev) :
    d.vals.length = f.size := by
  rw [h.vals hg hf]
  exact (mergeLaws hf).good_fold _ (mergeLaws hf).good_init

end DataOk

/-- An entry of the hash. -/
def EntryOk (f : AggFunc) (gen : Nat) (agd : AggData) : Prop := DataOk f gen agd ∧ agd.gen ≠ 0

namespace Aggs

variable (aggs : Aggs)

omit [DecidableEq τ] in
theorem clearOne_ok {key : AggKey τ} {agd : AggData} {gen : Nat}
    (h : EntryOk (aggs.func key.id) gen agd) :
    EntryOk (aggs.func key.id) (aggs.gen key.id) (aggs.dtAggregateClearOne key agd) := by
  refine ⟨⟨le_rfl, by simp [dtAggregateClearOne], fun _ hf => ?_⟩, (aggs.gen key.id).ne_zero⟩
  exact clear_eq_init (h.1.length h.2 hf)

variable {key : AggKey τ} {data : AggData} {entry : Option AggData}

/-- Data of an older generation than the entry is passed over. -/
theorem merged_older {agd : AggData} (h : data.gen < agd.gen) :
    aggs.merged key (some agd) data = some agd := by
  have hnot : ¬agd.gen < data.gen := by omega
  by_cases h0 : data.gen = 0 <;> simp [merged, dtAggregateSnapOne, hnot, h]

/-- Data of a newer generation than the entry finds it cleared. -/
theorem merged_newer {agd : AggData} (h : agd.gen < data.gen) (hle : data.gen ≤ aggs.gen key.id) :
    aggs.merged key (some agd) data =
      aggs.merged key (some (aggs.dtAggregateClearOne key agd)) data := by
  have hnot : ¬(aggs.dtAggregateClearOne key agd).gen < data.gen := Nat.not_lt.mpr hle
  have h0 : data.gen ≠ 0 := by omega
  simp only [merged, dtAggregateSnapOne, h0, h, if_true, if_false]
  split <;> simp

/-- **Cases of a snapshot**: what becomes of an entry when data no newer than the present
generation is taken over. -/
theorem forall_mem_merged {P : AggData → Prop} (hle : data.gen ≤ aggs.gen key.id)
    (skip : ∀ agd ∈ entry, P agd) (create : entry = none → data.gen ≠ 0 → P data)
    (join : ∀ agd ∈ entry, agd.gen = data.gen → agd.gen ≠ 0 → P (agd.join (aggs.func key.id) data))
    (clear : ∀ agd ∈ entry, P (aggs.dtAggregateClearOne key agd))
    (renew : ∀ agd ∈ entry, data.gen = aggs.gen key.id →
      P ((aggs.dtAggregateClearOne key agd).join (aggs.func key.id) data)) :
    ∀ agd ∈ aggs.merged key entry data, P agd := by
  by_cases h0 : data.gen = 0
  · rw [show aggs.merged key entry data = entry from by simp [merged, dtAggregateSnapOne, h0]]
    exact skip
  cases entry with
  | none =>
    rw [merged_none aggs h0]
    exact fun agd hagd => mem_some.mp hagd ▸ create rfl h0
  | some agd =>
    rcases Nat.lt_trichotomy data.gen agd.gen with hlt | heq | hgt
    · rw [merged_older aggs hlt]
      exact skip
    · rw [merged_same_gen aggs h0 heq.symm]
      exact fun agd' hagd => mem_some.mp hagd ▸ join agd rfl heq.symm (heq ▸ h0)
    · -- the entry is cleared, which brings it to the present generation
      rw [merged_newer aggs hgt hle]
      rcases Nat.lt_or_eq_of_le hle with hlt | heq
      · rw [merged_older aggs (show data.gen < (aggs.dtAggregateClearOne key agd).gen from hlt)]
        exact fun agd' hagd => mem_some.mp hagd ▸ clear agd rfl
      · rw [merged_same_gen aggs h0 heq.symm]
        exact fun agd' hagd => mem_some.mp hagd ▸ renew agd rfl heq

theorem merged_ok (hentry : ∀ agd ∈ entry, EntryOk (aggs.func key.id) (aggs.gen key.id) agd)
    (hdata : DataOk (aggs.func key.id) (aggs.gen key.id) data) :
    ∀ agd ∈ aggs.merged key entry data, EntryOk (aggs.func key.id) (aggs.gen key.id) agd := by
  apply aggs.forall_mem_merged hdata.gen_le hentry
  · exact fun _ h0 => ⟨hdata, h0⟩
  · exact fun agd hagd heq h0 => ⟨(hentry agd hagd).1.merge hdata heq, h0⟩
  · exact fun agd hagd => aggs.clearOne_ok (hentry agd hagd)
  · intro agd hagd heq
    obtain ⟨hok, h0⟩ := aggs.clearOne_ok (hentry agd hagd)
    exact ⟨hok.merge hdata heq.symm, h0⟩

/-- The entry stays current exactly if data with older inputs finds one of another generation. -/
theorem merged_current_iff (hdata : DataOk (aggs.func key.id) (aggs.gen key.id) data)
    (hentry : ∀ agd ∈ entry, ∀ p ∈ agd.log, p.1 = aggs.gen key.id) :
    (∀ agd ∈ aggs.merged key entry data, ∀ p ∈ agd.log, p.1 = aggs.gen key.id) ↔
      (data.gen ≠ 0 → (∃ p ∈ data.log, p.1 < aggs.gen key.id) →
        ∃ agd ∈ entry, agd.gen ≠ data.gen) := by
  constructor
  · intro hcur h0 ⟨p, hp, hlt⟩
    cases entry with
    | none =>
      rw [merged_none aggs h0] at hcur
      exact absurd (hcur data rfl p hp) (Nat.ne_of_lt hlt)
    | some agd =>
      refine ⟨agd, rfl, fun heq => ?_⟩
      rw [merged_same_gen aggs h0 heq] at hcur
      exact absurd (hcur _ rfl p (List.mem_append_right _ hp)) (Nat.ne_of_lt hlt)
  · intro hok
    -- unless there are older inputs, all are of the present generation
    have hall : ∀ p ∈ data.log, p.1 = aggs.gen key.id ∨ p.1 < aggs.gen key.id := fun p hp => by
      have := (hdata.tags p hp).2
      omega
    apply aggs.forall_mem_merged hdata.gen_le hentry
    · intro hnone h0 p hp
      refine (hall p hp).resolve_right fun hlt => ?_
      obtain ⟨agd, hagd, _⟩ := hok h0 ⟨p, hp, hlt⟩
      rw [hnone] at hagd
      cases hagd
    · intro agd hagd heq h0 p hp
      rcases List.mem_append.mp hp with hp | hp
      · exact hentry agd hagd p hp
      · refine (hall p hp).resolve_right fun hlt => ?_
        obtain ⟨_, hagd', hne⟩ := hok (heq ▸ h0) ⟨p, hp, hlt⟩
        exact hne (mem_unique hagd' hagd ▸ heq)
    · intro agd _ p hp
      cases hp
    · intro agd _ heq p hp
      have := hdata.tags p hp
      omega

end Aggs

/-! ## The invariant

What ties the generations of the maps and of the hash to those of the inputs. -/

structure Inv (s : Sys C τ) : Prop where
  data : ∀ cpu key d, (s.maps cpu).lookup key = some d →
    DataOk (s.aggs.func key.id) (s.aggs.gen key.id) d
  setup : ∀ cpu key d, s.phase cpu = .setup key → (s.maps cpu).lookup key = some d →
    d = ⟨0, List.replicate (s.aggs.func key.id).size 0, []⟩
  hash : ∀ key agd, s.hash key = some agd →
    EntryOk (s.aggs.func key.id) (s.aggs.gen key.id) agd

namespace Inv

omit [DecidableEq C] in
theorem init (func : Nat → AggFunc) : Inv (initial func : Sys C τ) where
  data _ _ _ h := by simp [initial] at h
  setup _ _ _ h := by cases h
  hash _ _ h := by cases h

variable {s s' : Sys C τ} (h : Inv s)
include h

/-- A step of the statement on one CPU that touches the data of its key only. -/
theorem setCpu (cpu : C) (key : AggKey τ) {map : CpuMap τ} {phase : Phase τ}
    (hother : ∀ key' ≠ key, map.lookup key' = (s.maps cpu).lookup key')
    (hkey : ∀ d, map.lookup key = some d → DataOk (s.aggs.func key.id) (s.aggs.gen key.id) d)
    (hsetup : ∀ key', phase = .setup key' → key' = key ∧ ∀ d, map.lookup key = some d →
      d = ⟨0, List.replicate (s.aggs.func key.id).size 0, []⟩) :
    Inv (s.setCpu cpu map phase) where
  data cpu' key' d hd := by
    by_cases hcpu : cpu' = cpu
    · subst hcpu
      simp only [Sys.setCpu, update_self] at hd
      by_cases hk : key' = key
      · exact hk ▸ hkey d (hk ▸ hd)
      · exact h.data cpu' key' d (hother key' hk ▸ hd)
    · exact h.data cpu' key' d (by simpa [Sys.setCpu, hcpu] using hd)
  setup cpu' key' d hp hd := by
    by_cases hcpu : cpu' = cpu
    · subst hcpu
      simp only [Sys.setCpu, update_self] at hd hp
      obtain ⟨rfl, hzero⟩ := hsetup key' hp
      exact hzero d hd
    · exact h.setup cpu' key' d (by simpa [Sys.setCpu, hcpu] using hp)
        (by simpa [Sys.setCpu, hcpu] using hd)
  hash := h.hash

omit [DecidableEq C] in
theorem clearHash : ∀ key agd, s.aggs.dtraceAggregateClear s.hash key = some agd →
    EntryOk (s.aggs.func key.id) (s.aggs.gen key.id) agd := by
  intro key agd hagd
  obtain ⟨agd0, hagd0, rfl⟩ := map_eq_some_iff.mp hagd
  exact s.aggs.clearOne_ok (h.hash key agd0 hagd0)

theorem getAgg {cpu : C} {key : AggKey τ} (hstep : step s (.getAgg cpu key) = some s') :
    Inv s' := by
  simp only [step] at hstep
  split at hstep
  · split at hstep
    · obtain rfl := some.inj hstep
      exact h.setCpu cpu key (fun _ _ => rfl) (h.data cpu key) (fun _ hp => by cases hp)
    · obtain rfl := some.inj hstep
      have hzero : ∀ d, (s.aggs.setDflt key (s.maps cpu)).lookup key = some d →
          d = ⟨0, List.replicate (s.aggs.func key.id).size 0, []⟩ := fun d hd =>
        (some.inj ((AList.lookup_insert _).symm.trans hd)).symm
      exact h.setCpu cpu key (fun _ hne => s.aggs.lookup_setDflt_ne hne _)
        (fun d hd => .start (hzero d hd)) fun key' hp => ⟨(Phase.setup.inj hp).symm, hzero⟩
  · cases hstep

theorem setGen {cpu : C} (hstep : step s (.setGen cpu) = some s') : Inv s' := by
  simp only [step] at hstep
  split at hstep
  case h_1 key hphase =>
    obtain rfl := some.inj hstep
    refine h.setCpu cpu key (fun _ hne => s.aggs.lookup_setGen_ne hne _) (fun d hd => ?_)
      (fun _ hp => by cases hp)
    cases hd0 : (s.maps cpu).lookup key with
    | none => simp [Aggs.setGen, hd0] at hd
    | some d0 =>
      -- the data is still as zeroed, so this makes it fresh
      obtain rfl := h.setup cpu key d0 hphase hd0
      simp only [Aggs.setGen, hd0, AList.lookup_insert, some.injEq] at hd
      exact hd ▸ DataOk.init _ _
  case h_2 => cases hstep

theorem add {cpu : C} {x : Input} (hstep : step s (.add cpu x) = some s') : Inv s' := by
  simp only [step] at hstep
  split at hstep
  case h_1 key hphase =>
    obtain rfl := some.inj hstep
    refine h.setCpu cpu key (fun _ hne => s.aggs.lookup_apply_ne hne x _) (fun d hd => ?_)
      (fun _ hp => by cases hp)
    cases hd0 : (s.maps cpu).lookup key with
    | none => simp [Aggs.apply, hd0] at hd
    | some d0 =>
      rw [s.aggs.lookup_apply_self x hd0] at hd
      exact some.inj hd ▸ (h.data cpu key d0 hd0).add x
  case h_2 => cases hstep

omit [DecidableEq C] in
theorem snapOne {key : AggKey τ} {data : AggData}
    (hdata : DataOk (s.aggs.func key.id) (s.aggs.gen key.id) data) :
    Inv { s with hash := s.aggs.dtAggregateSnapOne s.hash key data } where
  data := h.data
  setup := h.setup
  hash key' agd hagd := by
    simp only [Aggs.snapOne_eq] at hagd
    by_cases hk : key' = key
    · subst hk
      rw [update_self] at hagd
      exact s.aggs.merged_ok (fun agd hagd => h.hash key' agd hagd) hdata agd hagd
    · rw [update_of_ne hk] at hagd
      exact h.hash key' agd hagd

omit [DecidableEq C] in
theorem clear (id : Nat) :
    Inv { s with aggs := (s.aggs.dtClear id s.hash).1, hash := (s.aggs.dtClear id s.hash).2 } := by
  have hle : ∀ i, (s.aggs.gen i : Nat) ≤ (s.aggs.dtClear id s.hash).1.gen i := fun i => by
    by_cases hi : i = id
    · simp [Aggs.dtClear, hi]
    · simp [Aggs.dtClear, hi]
  refine ⟨fun cpu key d hd => (h.data cpu key d hd).mono (hle key.id), h.setup, ?_⟩
  intro key agd hagd
  obtain ⟨agd0, hagd0, rfl⟩ := map_eq_some_iff.mp hagd
  exact Aggs.clearOne_ok _ (h.hash key agd0 hagd0)

/-- **Every step keeps the invariant.** -/
theorem step {e : Event C τ} (hstep : Agg.step s e = some s') : Inv s' := by
  cases e with
  | getAgg cpu key => exact h.getAgg hstep
  | setGen cpu => exact h.setGen hstep
  | add cpu x => exact h.add hstep
  | snapStart =>
    simp only [Agg.step] at hstep
    split at hstep
    · cases hstep
    · exact some.inj hstep ▸ ⟨h.data, h.setup, h.clearHash⟩
  | snapOne cpu key =>
    simp only [Agg.step] at hstep
    split at hstep
    case h_1 data _ hlookup => exact some.inj hstep ▸ h.snapOne (h.data cpu key data hlookup)
    case h_2 => cases hstep
  | snapEnd =>
    simp only [Agg.step] at hstep
    split at hstep
    · exact some.inj hstep ▸ ⟨h.data, h.setup, h.hash⟩
    · cases hstep
  | clear id =>
    simp only [Agg.step] at hstep
    split at hstep
    · cases hstep
    · exact some.inj hstep ▸ h.clear id

end Inv

/-! ## Every run -/

omit [DecidableEq τ] in
theorem setCpu_current {s : Sys C τ} {cpu : C} {map : CpuMap τ} {phase : Phase τ} :
    Current (s.setCpu cpu map phase) ↔ Current s := Iff.rfl

omit [DecidableEq C] [DecidableEq τ] in
/-- A cleared hash has nothing in its logs. -/
theorem current_of_clear {s : Sys C τ} {hash : AggHash τ}
    (h : s.hash = s.aggs.dtraceAggregateClear hash) : Current s := by
  intro key agd hagd p hp
  rw [h] at hagd
  obtain ⟨_, _, rfl⟩ := map_eq_some_iff.mp hagd
  cases hp

/-- **One step**: it keeps the hash current exactly when it meets the condition. -/
theorem step_current_iff {s s' : Sys C τ} {e : Event C τ} (h : Inv s) (hcur : Current s)
    (hstep : step s e = some s') : Current s' ↔ StepOk s e := by
  cases e with
  | getAgg cpu key =>
    simp only [step] at hstep
    split at hstep
    · split at hstep <;> exact iff_of_true (some.inj hstep ▸ setCpu_current.mpr hcur) trivial
    · cases hstep
  | setGen cpu | add cpu x =>
    simp only [step] at hstep
    split at hstep
    · exact iff_of_true (some.inj hstep ▸ setCpu_current.mpr hcur) trivial
    · cases hstep
  | snapStart | clear id =>
    simp only [step] at hstep
    split at hstep
    · cases hstep
    · exact iff_of_true (some.inj hstep ▸ current_of_clear rfl) trivial
  | snapEnd =>
    simp only [step] at hstep
    split at hstep
    · exact iff_of_true (some.inj hstep ▸ hcur) trivial
    · cases hstep
  | snapOne cpu key =>
    simp only [step] at hstep
    split at hstep
    case h_2 => cases hstep
    case h_1 data _ hlookup =>
      obtain rfl := some.inj hstep
      have hiff := s.aggs.merged_current_iff (h.data cpu key data hlookup) (hcur key)
      -- the other keys are as before
      have hkey : Current { s with hash := s.aggs.dtAggregateSnapOne s.hash key data } ↔
          ∀ agd ∈ s.aggs.merged key (s.hash key) data, ∀ p ∈ agd.log,
            p.1 = s.aggs.gen key.id := by
        constructor
        · intro hall agd hagd
          exact hall key agd (by simpa [Aggs.snapOne_eq] using hagd)
        · intro hkey key' agd hagd
          simp only [Aggs.snapOne_eq] at hagd
          by_cases hk : key' = key
          · subst hk
            exact hkey agd (by simpa using hagd)
          · exact hcur key' agd (by simpa [hk] using hagd)
      rw [hkey, hiff]
      simp [StepOk, hlookup]

/-- **Generations after `clear()`**: along a run nothing of an older generation is in the
consumer's hash exactly if every step of the run meets `StepOk`. -/
theorem current_iff_stepOk (func : Nat → AggFunc) (events : List (Event C τ)) :
    (system C τ func).AllStates Current (initial func) events ↔
      (system C τ func).AllSteps StepOk (initial func) events := by
  refine TransitionSystem.allStates_iff_allSteps ?_ ?_ (Inv.init func) ?_ events
  · exact fun s e s' h hstep => h.step hstep
  · exact fun s e s' h hcur hstep => step_current_iff h hcur hstep
  · exact fun key agd h => by cases h

/-- **The words of an entry are what its inputs add up to**, however statements, snapshots and
`clear()` are interleaved, and none of the inputs is older than the entry. -/
theorem entry_adds_up {func : Nat → AggFunc} {s : Sys C τ}
    (h : (system C τ func).Reach (fun _ _ => True) s) {key : AggKey τ} {agd : AggData}
    (hentry : s.hash key = some agd) (hf : s.aggs.func key.id ≠ .stddev) :
    agd.vals = (s.aggs.func key.id).run (agd.log.map (·.2)) ∧
      ∀ p ∈ agd.log, agd.gen ≤ p.1 ∧ p.1 ≤ s.aggs.gen key.id := by
  have hinv : Inv s := h.invariant (Inv.init func) fun _ _ _ hinv _ hstep => hinv.step hstep
  obtain ⟨hok, h0⟩ := hinv.hash key agd hentry
  exact ⟨hok.vals h0 hf, hok.tags⟩

/-- Two counts on one CPU and one on another, with a snapshot in between. -/
theorem counts_add_up : ∃ (s : Sys Bool Unit) (agd : AggData), s.hash ⟨1, ()⟩ = some agd ∧
    agd.vals = (s.aggs.func 1).run (agd.log.map (·.2)) := by
  let key : AggKey Unit := ⟨1, ()⟩
  have hrun : ((system Bool Unit fun _ => .count).runIf (fun _ _ => True) (initial fun _ => .count)
      [.getAgg true key, .setGen true, .add true ⟨7, 1⟩, .snapStart, .snapOne true key, .snapEnd,
        .getAgg true key, .getAgg false key, .setGen false, .add false ⟨8, 1⟩, .add true ⟨9, 1⟩,
        .snapStart, .snapOne true key, .snapOne false key]).bind
        (fun s => (s.hash key).map fun _ => s.aggs.func 1) = some .count := by decide
  obtain ⟨s, hrun, hhash⟩ := bind_eq_some_iff.mp hrun
  obtain ⟨agd, hentry, hfunc⟩ := map_eq_some_iff.mp hhash
  exact ⟨s, agd, hentry,
    (entry_adds_up (TransitionSystem.Reach.init.of_runIf hrun) hentry
      (by rw [show key.id = 1 from rfl, hfunc]; decide)).1⟩

/-- A count before `clear()`, first seen by a snapshot after it: the consumer has it. -/
theorem cleared_count_in_new_entry :
    let key : AggKey Unit := ⟨1, ()⟩
    let events : List (Event Unit Unit) :=
      [.getAgg () key, .setGen (), .add () ⟨7, 1⟩, .clear 1, .snapStart, .snapOne () key]
    ((system Unit Unit fun _ => .count).runIf (fun _ _ => True) (initial fun _ => .count) events).bind
        (fun s => (s.hash key).map fun agd => (s.aggs.gen 1, agd.gen, agd.vals, agd.log)) =
      some (2, 1, [1], [(1, ⟨7, 1⟩)]) := by
  decide

end DTrace.Agg
