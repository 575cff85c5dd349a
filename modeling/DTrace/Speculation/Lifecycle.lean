import Mathlib.Algebra.BigOperators.Fin
import DTrace.Lib.System
import DTrace.Speculation.Tracks

/-!
# CPUs and the consumer together

Clauses run on `n` CPUs, each with its ring of finished buffers; the consumer takes buffers
from the front of any ring. Between the steps of one CPU every other may step, and so may the
consumer, so a run is an arbitrary interleaving. `Inv` is what every run keeps; it rests on the
count in the `specs` map bounding the data buffers seen and outstanding.
-/

namespace DTrace.Speculation

open Option Finset

variable {α : Type*} {n : Nat}

/-- How far the clause running on a CPU has come, with its records so far. -/
inductive Clause where
  | idle
  /-- in `dt_speculation_speculate`, the test passed and nothing added yet -/
  | checked (r : SpecRef) (acts : List Act)
  | speculating (r : SpecRef) (acts : List Act)
  | plain (acts : List Act)
  deriving DecidableEq, Repr

/-- The speculation the clause is about to add to. -/
@[simp] def Clause.checked? : Clause → Option SpecRef
  | .checked r _ => some r
  | _ => none

/-- The speculation the clause has added to. -/
@[simp] def Clause.speculating? : Clause → Option SpecRef
  | .speculating r _ => some r
  | _ => none

structure Cpu (α : Type*) where
  clause : Clause
  ring : List (Buf α)

/-- `serial` is the number of the next speculation and `seen` what was consumed so far; both
are ghosts. -/
structure Sys (n : Nat) (α : Type*) where
  cpus : Fin n → Cpu α
  specs : SpecMap
  consumer : Consumer α
  status : Status
  serial : Nat
  seen : List (Buf α)

structure Config (α : Type*) where
  nspec : Nat
  specsize : Nat
  cb : Callbacks α

inductive Event (n : Nat) (α : Type*) where
  | speculation
  | speculate (i : Fin n) (id : Nat)
  | count (i : Fin n)
  | enter (i : Fin n)
  | record (i : Fin n)
  | judge (i : Fin n) (commit : Bool) (id : Nat)
  | output (i : Fin n) (size : Nat) (data : α)
  | fault (i : Fin n)
  /-- the default clause of `ERROR` -/
  | error (i : Fin n) (size nrecs : Nat) (data : α)
  | consume (i : Fin n)

def Sys.setCpu (s : Sys n α) (i : Fin n) (cpu : Cpu α) : Sys n α :=
  { s with cpus := Function.update s.cpus i cpu }

def Sys.setClause (s : Sys n α) (i : Fin n) (clause : Clause) : Sys n α :=
  s.setCpu i { s.cpus i with clause := clause }

def initial : Sys n α :=
  ⟨fun _ => ⟨.idle, []⟩, fun _ => none, ⟨fun _ => none, [], 0, []⟩, .okay, 1, []⟩

/-- The serial number an ID stands for; zero if it has none. -/
def serialOf (specs : SpecMap) (id : Nat) : Nat := ((specs id).map BpfSpecs.serial).getD 0

/-- Whether `dt_cg_clsflags` accepts an action after others. A discard is accepted anywhere, and so
is a commit after `speculate`. -/
def clsflags (acts : List Act) : Act → Bool
  | .commit _ => acts.all (· ≠ .record)
  | .discard _ => true
  | .record => acts.all fun a => a matches .record | .discard _

/-- What it asks of the actions before `speculate`. -/
def mayspeculate (acts : List Act) : Bool := acts.all fun a => a matches .discard _

/-- One more action of a clause. -/
def Clause.act : Clause → Act → Option Clause
  | .plain acts, a => if clsflags acts a then some (.plain (acts ++ [a])) else none
  | .speculating r acts, a => if clsflags acts a then some (.speculating r (acts ++ [a])) else none
  | .idle, _ | .checked _ _, _ => none

/-- The end of a clause: its buffer goes to the ring of its CPU. -/
def finish (cpu : Cpu α) (i size : Nat) (data : α) : Option (Cpu α) :=
  match cpu.clause with
  | .speculating r acts => some ⟨.idle, cpu.ring ++ [⟨i, r, size, acts, data, false⟩]⟩
  | .plain acts => some ⟨.idle, cpu.ring ++ [⟨i, ⟨0, 0⟩, size, acts, data, false⟩]⟩
  | .idle | .checked _ _ => none

def step (cfg : Config α) (s : Sys n α) : Event n α → Option (Sys n α)
  | .speculation =>
    match dtSpeculation cfg.nspec s.serial s.specs with
    | .error _ => some s
    | .ok (_, specs) => some { s with specs := specs, serial := s.serial + 1 }
  | .speculate i id =>
    match (s.cpus i).clause with
    | .plain acts =>
      if mayspeculate acts then
        match speculateCheck s.specs id with
        | none => some (s.setClause i .idle)
        | some spec => some (s.setClause i (.checked ⟨id, spec.serial⟩ acts))
      else none
    | _ => none
  | .count i =>
    match (s.cpus i).clause with
    | .checked r acts =>
      some { s.setClause i (.speculating r acts) with specs := speculateAdd s.specs r.id }
    | _ => none
  | .enter i => if (s.cpus i).clause = .idle then some (s.setClause i (.plain [])) else none
  | .record i => ((s.cpus i).clause.act .record).map (s.setClause i)
  | .judge i commit id =>
    let r : SpecRef := ⟨id, serialOf s.specs id⟩
    match (s.cpus i).clause.act (if commit then .commit r else .discard r) with
    | none => none
    | some clause =>
      match dtSpeculationSetDrainable cfg.nspec s.specs id with
      | none => some (s.setClause i .idle)
      | some specs => some { s.setClause i clause with specs := specs }
  | .output i size data => (finish (s.cpus i) i size data).map (s.setCpu i)
  | .fault i => some (s.setClause i .idle)
  | .error i size nrecs data =>
    -- it runs in the place of the rest of the clause that has the fault
    if (s.cpus i).clause = .idle then
      let b : Buf α := ⟨i, ⟨0, 0⟩, size, .replicate nrecs .record, data, true⟩
      some (s.setCpu i { s.cpus i with ring := (s.cpus i).ring ++ [b] })
    else none
  | .consume i =>
    if s.status = .okay then
      match (s.cpus i).ring with
      | [] => none
      | b :: rest =>
        let (c, specs, st) := dtConsumeOneProbe cfg.cb cfg.specsize .no b s.consumer s.specs
        some { s.setCpu i { s.cpus i with ring := rest } with
          consumer := c, specs := specs, status := st, seen := s.seen ++ [b] }
    else none

def system (cfg : Config α) : TransitionSystem (Sys n α) (Event n α) := ⟨initial, step cfg⟩

/-- No clause is about to add to `k`. -/
def Sys.quiet (s : Sys n α) (k : SpecRef) : Prop := ∀ i, (s.cpus i).clause.checked? ≠ some k

/-- The buffer fits in the spec buf of its speculation. -/
def fits (specsize : Nat) (c : Consumer α) (b : Buf α) : Prop :=
  ((c.specBufs b.spec.id).map SpecBuf.size).getD 0 + b.size ≤ specsize

/-- The condition on steps: no clause both speculates and commits or discards, consuming does not
drop data, and a commit or discard record takes effect only on the speculation it was made for, with
no clause about to add to it. -/
def StepOk (cfg : Config α) (s : Sys n α) : Event n α → Prop
  | .speculate i _ => (s.cpus i).clause = .plain []
  | .judge i _ _ => (s.cpus i).clause.speculating? = none
  | .consume i => ∀ b ∈ (s.cpus i).ring.head?,
      (b.spec.id ≠ 0 → fits cfg.specsize s.consumer b) ∧
      ∀ a ∈ b.acts, ∀ r ∈ a.ref?, ∀ dtsb ∈ s.consumer.specBufs r.id,
        dtsb.spec.draining = false → serialOf s.specs r.id = r.serial ∧ s.quiet r
  | _ => True

instance (cfg : Config α) (s : Sys n α) (e : Event n α) : Decidable (StepOk cfg s e) :=
  match e with
  | .consume i => inferInstanceAs (Decidable (∀ b ∈ (s.cpus i).ring.head?,
      (b.spec.id ≠ 0 → ((s.consumer.specBufs b.spec.id).map SpecBuf.size).getD 0 + b.size ≤
        cfg.specsize) ∧
      ∀ a ∈ b.acts, ∀ r ∈ a.ref?, ∀ dtsb ∈ s.consumer.specBufs r.id,
        dtsb.spec.draining = false → serialOf s.specs r.id = r.serial ∧
          ∀ i, (s.cpus i).clause.checked? ≠ some r))
  | .speculate i _ => inferInstanceAs (Decidable ((s.cpus i).clause = .plain []))
  | .judge i _ _ => inferInstanceAs (Decidable ((s.cpus i).clause.speculating? = none))
  | .speculation | .count _ | .enter _ | .record _ | .output _ _ _ | .fault _
  | .error _ _ _ _ => .isTrue trivial

/-! ## The invariant

Along a run the trail of each speculation (`Tracks`) is what the consumer knows about it. To keep
this, the invariant has to say how much data may still come, and that no record on its way can
decide about a speculation that still takes data. -/

/-- The data buffers of `k` that a CPU has counted and the consumer not seen. -/
def Cpu.pending (cpu : Cpu α) (k : SpecRef) : Nat :=
  (if cpu.clause.speculating? = some k then 1 else 0) + (dataOf k cpu.ring).length

def Sys.pending (s : Sys n α) (k : SpecRef) : Nat := ∑ i, (s.cpus i).pending k

/-- Some record on the way to the consumer names `r`. -/
def Cpu.names (cpu : Cpu α) (r : SpecRef) : Prop :=
  (∃ acts, cpu.clause = .plain acts ∧ ∃ a ∈ acts, a.ref? = some r) ∨
    ∃ b ∈ cpu.ring, b.spec.id = 0 ∧ ∃ a ∈ b.acts, a.ref? = some r

/-- A clause that speculates, does so under an ID and has no commits and discards. -/
def Clause.Sound : Clause → Prop
  | .checked r acts | .speculating r acts => r.id ≠ 0 ∧ ∀ a ∈ acts, a = .record
  | .idle | .plain _ => True

/-- The same for the buffer it leaves. -/
def Buf.Sound (b : Buf α) : Prop :=
  b.spec.id ≠ 0 → b.error = false ∧ ∀ a ∈ b.acts, a = .record

/-- The invariant. Per speculation that has its ID, the data that was seen and the data on its way
is at most what was counted (`counted`); of any other one nothing is on its way (`past`). A record
on its way names a speculation that is marked as draining, or one of the past (`named`). -/
structure Inv (s : Sys n α) : Prop where
  okay : s.status = .okay
  pos : 0 < s.serial
  fresh : ∀ id spec, s.specs id = some spec → spec.serial < s.serial
  tracks : Tracks s.specs s.quiet s.consumer fun k => trail k s.seen
  counted : ∀ k spec, s.specs k.id = some spec → spec.serial = k.serial →
    (dataOf k s.seen).length + s.pending k ≤ spec.written
  past : ∀ k, k.id ≠ 0 → ¬Current s.specs k → s.pending k = 0 ∧ s.quiet k
  numbered : ∀ b ∈ s.seen, b.spec.id ≠ 0 → b.spec.serial < s.serial
  records : ∀ i, ∀ b ∈ (s.cpus i).ring, b.Sound
  named : ∀ i r, (s.cpus i).names r → r.serial < s.serial ∧
    ∀ spec, s.specs r.id = some spec → spec.serial = r.serial → spec.draining = true
  sound : ∀ i, (s.cpus i).clause.Sound

/-- Before the first step. -/
theorem Inv.init : Inv (initial : Sys n α) where
  okay := rfl
  pos := Nat.one_pos
  fresh := by simp [initial]
  tracks := {
    live := by simp [initial]
    past := fun _ _ _ => rfl
    own := by simp [initial, Trail.start]
    zero := rfl
    noBuf := fun _ _ => rfl
    nodup := List.nodup_nil
    listed := by simp [initial]
    delivered := fun _ _ => rfl }
  counted := by simp [initial]
  past := fun k _ _ =>
    ⟨by simp [Sys.pending, Cpu.pending, initial, dataOf], fun i => by simp [initial]⟩
  numbered := by simp [initial]
  records := by simp [initial]
  named := by simp [Cpu.names, initial]
  sound := fun _ => trivial

/-- Only the CPU that moves changes the sum. -/
theorem Sys.pending_setCpu (s : Sys n α) (i : Fin n) (cpu : Cpu α) (k : SpecRef) :
    (s.setCpu i cpu).pending k + (s.cpus i).pending k = s.pending k + cpu.pending k := by
  have hnew : (s.setCpu i cpu).pending k =
      cpu.pending k + ∑ j ∈ Finset.univ.erase i, (s.cpus j).pending k := by
    rw [Sys.pending, ← add_sum_erase _ _ (mem_univ i)]
    congr 1
    · simp [Sys.setCpu]
    · refine sum_congr rfl fun j hj => ?_
      simp [Sys.setCpu, ne_of_mem_erase hj]
  rw [hnew, Sys.pending, ← add_sum_erase _ _ (mem_univ i)]
  omega

theorem Sys.setCpu_cpus (s : Sys n α) (i j : Fin n) (cpu : Cpu α) :
    (s.setCpu i cpu).cpus j = if j = i then cpu else s.cpus j := by
  by_cases h : j = i <;> simp [Sys.setCpu, h]

/-! ## Steps of the CPUs

All of them change one CPU and some entries of the map. `Inv.cpuStep` says once what such a change
has to keep; each step then only has to give the new clause, the change of the map and the reason
why the counts agree. -/

theorem Current.map {specs : SpecMap} {f : Nat → BpfSpecs → BpfSpecs}
    (hf : ∀ id spec, (f id spec).serial = spec.serial) (k : SpecRef) :
    Current (fun id => (specs id).map (f id)) k ↔ Current specs k := by
  simp [Current, hf]

/-- A CPU moves on and changes entries of the map with `f`, without taking an ID away or giving
one out. -/
theorem Inv.cpuStep {s : Sys n α} (h : Inv s) (i : Fin n) (cpu : Cpu α)
    (f : Nat → BpfSpecs → BpfSpecs) (hser : ∀ id spec, (f id spec).serial = spec.serial)
    (hmark : ∀ id spec, spec.draining = true → (f id spec).draining = true)
    (hcount : ∀ k spec, s.specs k.id = some spec → spec.serial = k.serial →
      cpu.pending k + spec.written ≤ (s.cpus i).pending k + (f k.id spec).written)
    (hpast : ∀ k, k.id ≠ 0 → ¬Current s.specs k →
      cpu.pending k ≤ (s.cpus i).pending k ∧ cpu.clause.checked? ≠ some k)
    (hdecided : ∀ k spec, s.specs k.id = some spec → spec.serial = k.serial →
      spec.draining = true → s.quiet k →
      (f k.id spec).written = spec.written ∧ cpu.clause.checked? ≠ some k)
    (hrecords : ∀ b ∈ cpu.ring, b.Sound)
    (hnames : ∀ r, cpu.names r → r.serial < s.serial ∧ ∀ spec, s.specs r.id = some spec →
      spec.serial = r.serial → (f r.id spec).draining = true)
    (hsound : cpu.clause.Sound) :
    Inv { s.setCpu i cpu with specs := fun id => (s.specs id).map (f id) } := by
  set s' : Sys n α := { s.setCpu i cpu with specs := fun id => (s.specs id).map (f id) } with hs'
  have hcpu : ∀ j, s'.cpus j = if j = i then cpu else s.cpus j := fun j => s.setCpu_cpus i j cpu
  have hpending : ∀ k, s'.pending k + (s.cpus i).pending k = s.pending k + cpu.pending k :=
    fun k => s.pending_setCpu i cpu k
  have hquiet : ∀ k, s.quiet k → cpu.clause.checked? ≠ some k → s'.quiet k := by
    intro k hq hc j
    rw [hcpu]
    split
    · exact hc
    · exact hq j
  have hmap : ∀ {id spec'}, s'.specs id = some spec' →
      ∃ spec, s.specs id = some spec ∧ f id spec = spec' := fun hspec =>
    map_eq_some_iff.mp hspec
  -- the consumer and what it has seen stay as they are
  refine ⟨h.okay, h.pos, ?_, ?_, ?_, ?_, h.numbered, ?_, ?_, ?_⟩
  · intro id spec' hspec
    obtain ⟨spec, hs, rfl⟩ := hmap hspec
    rw [hser]
    exact h.fresh id spec hs
  · refine ⟨?_, ?_, h.tracks.own, by simp [hs', h.tracks.zero], ?_, h.tracks.nodup,
      h.tracks.listed, h.tracks.delivered⟩
    · intro k spec' hspec hk
      obtain ⟨spec, hs, rfl⟩ := hmap hspec
      rw [hser] at hk
      refine (h.tracks.live k spec hs hk).imp (List.Subset.refl _) fun hd hq => ?_
      obtain ⟨hw, hc⟩ := hdecided k spec hs hk hd hq
      exact ⟨hw, hmark _ _ hd, hquiet k hq hc⟩
    · intro k hk hcur
      exact h.tracks.past k hk fun hc => hcur ((Current.map hser k).mpr hc)
    · intro id hid
      exact h.tracks.noBuf id (map_eq_none_iff.mp hid)
  · intro k spec' hspec hk
    obtain ⟨spec, hs, rfl⟩ := hmap hspec
    rw [hser] at hk
    have h1 := h.counted k spec hs hk
    have h2 := hcount k spec hs hk
    have h3 := hpending k
    show (dataOf k s.seen).length + _ ≤ _
    omega
  · intro k hk hcur
    have hcur' : ¬Current s.specs k := fun hc => hcur ((Current.map hser k).mpr hc)
    obtain ⟨_, hq⟩ := h.past k hk hcur'
    obtain ⟨_, hc⟩ := hpast k hk hcur'
    have h3 := hpending k
    exact ⟨by omega, hquiet k hq hc⟩
  · intro j
    rw [hcpu]
    split
    · exact hrecords
    · exact h.records j
  · intro j r hr
    rw [hcpu] at hr
    split at hr
    · obtain ⟨hlt, hd⟩ := hnames r hr
      refine ⟨hlt, fun spec' hspec hk => ?_⟩
      obtain ⟨spec, hs, rfl⟩ := hmap hspec
      exact hd spec hs (hser _ _ ▸ hk)
    · obtain ⟨hlt, hd⟩ := h.named j r hr
      refine ⟨hlt, fun spec' hspec hk => ?_⟩
      obtain ⟨spec, hs, rfl⟩ := hmap hspec
      exact hmark _ _ (hd spec hs (hser _ _ ▸ hk))
  · intro j
    rw [hcpu]
    split
    · exact hsound
    · exact h.sound j

/-- A CPU moves on without touching the map. -/
theorem Inv.localStep {s : Sys n α} (h : Inv s) (i : Fin n) (cpu : Cpu α)
    (hcount : ∀ k, k.id ≠ 0 → cpu.pending k ≤ (s.cpus i).pending k)
    (hchecked : ∀ k, cpu.clause.checked? = some k → ∃ spec, s.specs k.id = some spec ∧
      spec.serial = k.serial ∧ spec.draining = false)
    (hrecords : ∀ b ∈ cpu.ring, b.Sound)
    (hnames : ∀ r, cpu.names r → (s.cpus i).names r) (hsound : cpu.clause.Sound) :
    Inv (s.setCpu i cpu) := by
  have hstep := h.cpuStep i cpu (fun _ spec => spec) (fun _ _ => rfl) (fun _ _ hd => hd)
    (fun k spec hs _ => Nat.add_le_add_right (hcount k (h.tracks.id_ne_zero hs)) spec.written)
    (fun k hk hcur => ⟨hcount k hk, fun hc => ?_⟩) (fun k spec hs _ hd _ => ⟨rfl, fun hc => ?_⟩)
    hrecords (fun r hr => h.named i r (hnames r hr)) hsound
  · have hsame : (fun id => (s.specs id).map fun spec => spec) = s.specs := by
      funext id
      exact map_id'
    rw [hsame] at hstep
    exact hstep
  · obtain ⟨spec, hs, hser, -⟩ := hchecked k hc
    exact hcur ⟨spec, hs, hser⟩
  · obtain ⟨_, hs', -, hd'⟩ := hchecked k hc
    rw [hs] at hs'
    rw [some.inj hs', hd'] at hd
    cases hd

/-- A record is added to a clause that does not speculate, or to one that has been counted. -/
theorem act_cases {clause clause' : Clause} {a : Act} (h : clause.act a = some clause') :
    (∃ acts, clause = .plain acts ∧ clause' = .plain (acts ++ [a])) ∨
      ∃ r acts, clause = .speculating r acts ∧ clause' = .speculating r (acts ++ [a]) := by
  unfold Clause.act at h
  split at h
  · next acts =>
    split at h
    · exact Or.inl ⟨acts, rfl, (some.inj h).symm⟩
    · cases h
  · next r acts =>
    split at h
    · exact Or.inr ⟨r, acts, rfl, (some.inj h).symm⟩
    · cases h
  · cases h
  · cases h

section
variable {s : Sys n α} (h : Inv s) (i : Fin n)
include h

/-- `speculate()` finds the ID in the map, not draining. Nothing is counted yet. -/
theorem Inv.speculate {id : Nat} {spec : BpfSpecs}
    (hcheck : speculateCheck s.specs id = some spec) :
    Inv (s.setClause i (.checked ⟨id, spec.serial⟩ [])) := by
  obtain ⟨hs, hd⟩ : s.specs id = some spec ∧ spec.draining = false := by
    unfold speculateCheck at hcheck
    split at hcheck
    · cases hcheck
    · next spec' hs =>
      split at hcheck
      · cases hcheck
      · next hd => exact ⟨hs.trans hcheck, by simpa [some.inj hcheck] using hd⟩
  refine h.localStep i _ (fun k hk => ?_) ?_ (h.records i) ?_
    ⟨h.tracks.id_ne_zero hs, List.forall_mem_nil _⟩
  · simp [Cpu.pending]
  · rintro k hk
    obtain rfl := some.inj hk
    exact ⟨spec, hs, rfl, hd⟩
  · rintro r (⟨_, hc, -⟩ | hring)
    · cases hc
    · exact Or.inr hring

/-- The counter of the map and the clause's own buffer go up together. -/
theorem Inv.count {r : SpecRef} {acts : List Act} (hclause : (s.cpus i).clause = .checked r acts) :
    Inv { s.setClause i (.speculating r acts) with specs := speculateAdd s.specs r.id } := by
  have hsound : r.id ≠ 0 ∧ ∀ a ∈ acts, a = .record := by
    have hsound := h.sound i
    rwa [hclause] at hsound
  -- the ID has not been given away: a clause between check and count is not quiet
  have hcur : Current s.specs r := by
    by_contra hcur
    exact (h.past r hsound.1 hcur).2 i (by rw [hclause]; rfl)
  have hpend : ∀ k, k ≠ r →
      Cpu.pending { s.cpus i with clause := .speculating r acts } k = (s.cpus i).pending k := by
    intro k hk
    simp [Cpu.pending, hclause, hk.symm]
  have hself : Cpu.pending { s.cpus i with clause := .speculating r acts } r =
      (s.cpus i).pending r + 1 := by
    simp [Cpu.pending, hclause, Nat.add_comm]
  have hmap : speculateAdd s.specs r.id = fun id => (s.specs id).map fun spec =>
      if id = r.id then { spec with written := spec.written + 1 } else spec := by
    funext id
    by_cases hid : id = r.id
    · subst hid
      simp [speculateAdd]
    · simp [speculateAdd, hid]
  rw [hmap]
  refine h.cpuStep i _ _ (fun id spec => ?_) (fun id spec hd => ?_) ?_ ?_ ?_ (h.records i) ?_ hsound
  · split <;> rfl
  · split <;> exact hd
  · intro k spec hs hk
    by_cases hid : k.id = r.id
    · obtain rfl : k = r := Current.unique ⟨spec, hs, hk⟩ hcur hid
      simp only [hself, if_true]
      omega
    · rw [hpend k fun hkr => hid (hkr ▸ rfl), if_neg hid]
  · intro k _ hk
    have hne : k ≠ r := fun hkr => hk (hkr ▸ hcur)
    exact ⟨(hpend k hne).le, nofun⟩
  · -- a speculation that is decided and quiet is not the one that is counted
    intro k spec hs hk _ hq
    have hid : k.id ≠ r.id := fun hid => by
      rw [Current.unique ⟨spec, hs, hk⟩ hcur hid] at hq
      exact hq i (by rw [hclause]; rfl)
    exact ⟨by rw [if_neg hid], nofun⟩
  · rintro r' (⟨_, hc, -⟩ | hring)
    · cases hc
    · obtain ⟨hlt, hd⟩ := h.named i r' (Or.inr hring)
      refine ⟨hlt, fun spec hs hk => ?_⟩
      split <;> exact hd spec hs hk

/-- A clause that faults leaves no buffer; what it has counted stays counted. -/
theorem Inv.idle : Inv (s.setClause i .idle) := by
  refine h.localStep i _ (fun k _ => ?_) (by simp) (h.records i) ?_ trivial
  · simp [Cpu.pending]
  · rintro r (⟨_, hc, -⟩ | hring)
    · cases hc
    · exact Or.inr hring

/-- A clause without a speculation begins. -/
theorem Inv.enter : Inv (s.setClause i (.plain [])) := by
  refine h.localStep i _ (fun k _ => ?_) (by simp) (h.records i) ?_ trivial
  · simp [Cpu.pending]
  · rintro r (⟨_, hc, a, ha, -⟩ | hring)
    · rw [← Clause.plain.inj hc] at ha
      cases ha
    · exact Or.inr hring

/-- A record that is neither a commit nor a discard. -/
theorem Inv.record {clause : Clause} (hact : (s.cpus i).clause.act .record = some clause) :
    Inv (s.setClause i clause) := by
  obtain ⟨acts, hclause, rfl⟩ | ⟨r, acts, hclause, rfl⟩ := act_cases hact
  · refine h.localStep i _ (fun k _ => ?_) (by simp) (h.records i) ?_ trivial
    · simp [Cpu.pending]
    · rintro r (⟨_, hc, a, ha, href⟩ | hring)
      · rw [← Clause.plain.inj hc] at ha
        rcases List.mem_append.mp ha with ha | ha
        · exact Or.inl ⟨acts, hclause, a, ha, href⟩
        · rw [List.mem_singleton.mp ha] at href
          cases href
      · exact Or.inr hring
  · have hsound := h.sound i
    rw [hclause] at hsound
    refine h.localStep i _ (fun k _ => ?_) (by simp) (h.records i) ?_ ⟨hsound.1, ?_⟩
    · simp [Cpu.pending, hclause]
    · rintro r (⟨_, hc, -⟩ | hring)
      · cases hc
      · exact Or.inr hring
    · intro a ha
      rcases List.mem_append.mp ha with ha | ha
      · exact hsound.2 a ha
      · exact List.mem_singleton.mp ha

/-- `commit()` or `discard()`: the speculation that has the ID is marked, and the record names it.
-/
theorem Inv.judge {acts : List Act} {nspec id : Nat} {specs : SpecMap} {commit : Bool}
    (hclause : (s.cpus i).clause = .plain acts)
    (hset : dtSpeculationSetDrainable nspec s.specs id = some specs) :
    let r : SpecRef := ⟨id, serialOf s.specs id⟩
    Inv { s.setClause i (.plain (acts ++ [if commit then .commit r else .discard r])) with
      specs := specs } := by
  intro r
  have hmap : specs = fun id' => (s.specs id').map fun spec =>
      if id' = id then { spec with draining := true } else spec := by
    funext id'
    unfold dtSpeculationSetDrainable at hset
    split at hset
    · next hnone =>
      split at hset
      · obtain rfl := some.inj hset
        by_cases hid : id' = id
        · simp [hid, hnone]
        · simp [hid]
      · cases hset
    · next spec hs =>
      obtain rfl := some.inj hset
      by_cases hid : id' = id
      · simp [hid, hs]
      · simp [hid]
  rw [hmap]
  refine h.cpuStep i _ _ (fun id' spec => ?_) (fun id' spec hd => ?_) ?_ ?_ ?_ (h.records i) ?_
    trivial
  · split <;> rfl
  · split
    · rfl
    · exact hd
  · intro k spec _ _
    have hw : (if k.id = id then { spec with draining := true } else spec).written =
        spec.written := by split <;> rfl
    simp [Cpu.pending, hw]
  · intro k _ _
    exact ⟨by simp [Cpu.pending], nofun⟩
  · intro k spec _ _ _ _
    exact ⟨by split <;> rfl, nofun⟩
  · -- the new record names the speculation that has the ID, which is marked now
    have hold : ∀ r', (s.cpus i).names r' → r'.serial < s.serial ∧ ∀ spec,
        s.specs r'.id = some spec → spec.serial = r'.serial →
        (if r'.id = id then { spec with draining := true } else spec).draining = true := by
      intro r' hr'
      obtain ⟨hlt, hd⟩ := h.named i r' hr'
      refine ⟨hlt, fun spec hs hk => ?_⟩
      split
      · rfl
      · exact hd spec hs hk
    rintro r' (⟨_, hc, a, ha, href⟩ | hring)
    · rw [← Clause.plain.inj hc] at ha
      rcases List.mem_append.mp ha with ha | ha
      · exact hold r' (Or.inl ⟨acts, hclause, a, ha, href⟩)
      · have hr' : r = r' := by
          rw [List.mem_singleton.mp ha] at href
          cases commit <;> exact some.inj href
        subst hr'
        refine ⟨?_, fun spec _ _ => by simp [r]⟩
        show serialOf s.specs id < s.serial
        unfold serialOf
        cases hs : s.specs id with
        | none => exact h.pos
        | some spec => exact h.fresh id spec hs
    · exact hold r' (Or.inr hring)

/-- A buffer outside speculations is added to a ring; the records in it are those of the clause. -/
theorem Inv.append_plain {size : Nat} {acts : List Act} {data : α} {error : Bool}
    (hacts : ∀ a ∈ acts, ∀ r, a.ref? = some r → (s.cpus i).names r) :
    Inv (s.setCpu i ⟨.idle, (s.cpus i).ring ++ [⟨i, ⟨0, 0⟩, size, acts, data, error⟩]⟩) := by
  refine h.localStep i _ (fun k hk => ?_) (by simp) (fun b hb => ?_) ?_ trivial
  · have hne : (⟨0, 0⟩) ≠ k := fun h0 => hk (h0 ▸ rfl)
    simp [Cpu.pending, dataOf_snoc, hne]
  · rcases List.mem_append.mp hb with hb | hb
    · exact h.records i b hb
    · rw [List.mem_singleton.mp hb]
      exact fun h0 => absurd rfl h0
  · rintro r (⟨_, hc, -⟩ | ⟨b, hb, h0, a, ha, href⟩)
    · cases hc
    · rcases List.mem_append.mp hb with hb | hb
      · exact Or.inr ⟨b, hb, h0, a, ha, href⟩
      · rw [List.mem_singleton.mp hb] at ha
        exact hacts a ha r href

/-- The clause ends and its buffer is in the ring. -/
theorem Inv.output {cpu : Cpu α} {size : Nat} {data : α}
    (hfinish : finish (s.cpus i) i size data = some cpu) : Inv (s.setCpu i cpu) := by
  unfold finish at hfinish
  split at hfinish
  · next r acts hclause =>
    obtain rfl := some.inj hfinish
    have hsound : r.id ≠ 0 ∧ ∀ a ∈ acts, a = .record := by
      have hsound := h.sound i
      rwa [hclause] at hsound
    refine h.localStep i _ (fun k hk => ?_) (by simp) (fun b hb => ?_) ?_ trivial
    · -- the buffer counts where the clause did
      by_cases hr : r = k <;> simp [Cpu.pending, hclause, dataOf_snoc, hr, Nat.add_comm]
    · rcases List.mem_append.mp hb with hb | hb
      · exact h.records i b hb
      · rw [List.mem_singleton.mp hb]
        exact fun _ => ⟨rfl, hsound.2⟩
    · rintro r' (⟨acts, hc, -⟩ | ⟨b, hb, h0, hrest⟩)
      · cases hc
      · rcases List.mem_append.mp hb with hb | hb
        · exact Or.inr ⟨b, hb, h0, hrest⟩
        · rw [List.mem_singleton.mp hb] at h0
          exact absurd h0 hsound.1
  · next acts hclause =>
    obtain rfl := some.inj hfinish
    exact h.append_plain i fun a ha r href => Or.inl ⟨acts, hclause, a, ha, href⟩
  · cases hfinish
  · cases hfinish

end

end DTrace.Speculation
