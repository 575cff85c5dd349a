import DTrace.Speculation.Lifecycle

/-!
# Delivery of speculated data

The steps that give out IDs and the consumer's steps keep the invariant, so it holds in every
run. It follows what the callbacks get of a speculation (`delivered_iff_timely`): nothing
without a commit record, and, without a discard record, all of the data in order exactly when
the buffers came by in a timely order.
-/

namespace DTrace.Speculation

open List Option

variable {α : Type*} {n : Nat}

/-! ## A new speculation

The search gives an ID that is not in the map. By the invariant nothing is left of the speculation
that had it before, which is what makes it safe to use the ID again. -/

variable {specs : SpecMap} {s : Sys n α} {b : Buf α} {c : Consumer α} {quiet : SpecRef → Prop}
  {cfg : Config α}

/-- An ID that the search gives is one of those it goes through, and free. -/
theorem searchSpec_ok {nspec id : Nat} {ns : List Nat} {busy : Nat}
    (h : searchSpec nspec specs ns busy = .ok id) : id ∈ ns ∧ id ≤ nspec ∧ specs id = none := by
  induction ns generalizing busy with
  | nil => cases h
  | cons m ns ih =>
    unfold searchSpec at h
    split at h
    · cases h
    · next hle =>
      split at h
      · next hnone =>
        obtain rfl := Except.ok.inj h
        exact ⟨by simp, Nat.not_lt.mp hle, hnone⟩
      · exact (ih h).imp_left (mem_cons_of_mem _)

/-- The search goes through increasing IDs, so a failure means that there is none up to `nspec`. -/
theorem searchSpec_error {nspec : Nat} {ns : List Nat} {busy : Nat} {e : SpecDrop}
    (h : searchSpec nspec specs ns busy = .error e) (hns : ns.Pairwise (· < ·)) :
    ∀ id ∈ ns, id ≤ nspec → specs id ≠ none := by
  induction ns generalizing busy with
  | nil => simp
  | cons m ns ih =>
    obtain ⟨hlt, hns⟩ := pairwise_cons.mp hns
    unfold searchSpec at h
    split at h
    · refine forall_mem_cons.mpr ⟨by omega, fun id hid hle => ?_⟩
      have := hlt id hid
      omega
    · split at h
      · cases h
      · next spec hspec => exact forall_mem_cons.mpr ⟨by simp [hspec], ih h hns⟩

/-- `speculation()` gives out an ID that was free, or there is none. -/
def FindsFree (nspec serial : Nat) (specs : SpecMap) : Prop :=
  match dtSpeculation nspec serial specs with
  | .ok (id, specs') => 0 < id ∧ id ≤ nspec ∧ specs id = none ∧ specs' id ≠ none
  | .error _ => ∀ id, 0 < id → id ≤ nspec → specs id ≠ none

/-- **Free IDs are found** exactly if the search goes up to `nspec`, or one of the IDs it goes
through is free, or none of the IDs behind them is. -/
theorem findsFree_iff (nspec serial : Nat) (specs : SpecMap) :
    FindsFree nspec serial specs ↔ nspec ≤ maxNspecs ∨
      (∃ id, 0 < id ∧ id ≤ maxNspecs ∧ specs id = none) ∨
      ∀ id, maxNspecs < id → id ≤ nspec → specs id ≠ none := by
  unfold FindsFree dtSpeculation
  cases hs : searchSpec nspec specs (range' 1 maxNspecs) 0 with
  | ok id =>
    obtain ⟨hmem, hid, hnone⟩ := searchSpec_ok hs
    have hrange := mem_range'_1.mp hmem
    exact iff_of_true ⟨hrange.1, hid, hnone, by simp⟩
      (.inr (.inl ⟨id, hrange.1, by omega, hnone⟩))
  | error e =>
    have htaken : ∀ id, 0 < id → id ≤ maxNspecs → id ≤ nspec → specs id ≠ none :=
      fun id h0 hmax => searchSpec_error hs pairwise_lt_range' id (mem_range'_1.mpr (by omega))
    constructor
    · exact fun h => .inr (.inr fun id hlt hle => h id (by omega) hle)
    · rintro h id h0 hid
      by_cases hmax : id ≤ maxNspecs
      · exact htaken id h0 hmax hid
      · rcases h with hle | ⟨id', h0', hmax', hnone⟩ | hrest
        · omega
        · exact absurd hnone (htaken id' h0' hmax' (by omega))
        · exact hrest id (by omega) hid

/-- With `nspec` 17 and 16 speculations the free ID is not found. -/
theorem seventeenth_not_found :
    let specs : SpecMap := fun id => if id ≤ 16 then some ⟨0, false, 0⟩ else none
    dtSpeculation 17 16 specs = .error .unavail ∧ specs 17 = none :=
  ⟨rfl, rfl⟩

/-- The trail of a speculation that no data was seen of. -/
theorem trail_of_dataOf_nil {k : SpecRef} {seen : List (Buf α)} (hk : k.id ≠ 0)
    (h : dataOf k seen = []) :
    (trail k seen).mode = none ∧ (trail k seen).waiting = [] ∧ (trail k seen).taken = 0 := by
  have hlen := trail_length hk seen
  rw [h, length_nil] at hlen
  refine ⟨?_, eq_nil_of_length_eq_zero (by omega), by omega⟩
  rw [← not_isSome_iff_eq_none, ← started_iff hk]
  rintro ⟨_, b, _, rfl, -, -, d, hd, hdk⟩
  exact dataOf_ne_nil_iff.mpr ⟨d, by simp [hd], hdk⟩ h

/-- A free ID is given out under a new number. Nothing can have been seen or be on its way under it,
so its trail is at the start. -/
theorem Inv.speculation (h : Inv s) {id : Nat} (hid : id ≠ 0) (hfree : s.specs id = none) :
    Inv { s with
      specs := Function.update s.specs id (some ⟨0, false, s.serial⟩)
      serial := s.serial + 1 } := by
  set specs' := Function.update s.specs id (some ⟨0, false, s.serial⟩) with hspecs'
  have hnew : specs' id = some ⟨0, false, s.serial⟩ := by simp [hspecs']
  have hold : ∀ {id'}, id' ≠ id → specs' id' = s.specs id' := fun hne => by simp [hspecs', hne]
  -- nothing has been seen under the new number
  have hnodata : dataOf ⟨id, s.serial⟩ s.seen = [] := by
    by_contra hne
    obtain ⟨d, hd, hdk⟩ := dataOf_ne_nil_iff.mp hne
    have hlt := h.numbered d hd (by rw [hdk]; exact hid)
    rw [hdk] at hlt
    exact absurd hlt (Nat.lt_irrefl _)
  have hnotcur : ¬Current s.specs ⟨id, s.serial⟩ := by
    rintro ⟨spec, hs, -⟩
    rw [show s.specs id = some spec from hs] at hfree
    cases hfree
  have hcase : ∀ (k : SpecRef) spec, specs' k.id = some spec → spec.serial = k.serial →
      (k = ⟨id, s.serial⟩ ∧ spec = ⟨0, false, s.serial⟩) ∨ s.specs k.id = some spec := by
    intro k spec hs hk
    by_cases hkid : k.id = id
    · rw [hkid, hnew] at hs
      obtain rfl := some.inj hs
      obtain ⟨_, _⟩ := k
      exact Or.inl ⟨by simp_all, rfl⟩
    · exact Or.inr (hold hkid ▸ hs)
  have hkeep : ∀ k, Current s.specs k → Current specs' k := by
    rintro k ⟨spec, hs, hk⟩
    have hne : k.id ≠ id := fun heq => by rw [heq, hfree] at hs; cases hs
    exact ⟨spec, (hold hne).trans hs, hk⟩
  refine ⟨h.okay, Nat.succ_pos _, ?_, ⟨?_, ?_, h.tracks.own, ?_, ?_, h.tracks.nodup,
    h.tracks.listed, h.tracks.delivered⟩, ?_, ?_, ?_, h.records, ?_, h.sound⟩
  · intro id' spec (hs : specs' id' = some spec)
    by_cases hne : id' = id
    · rw [hne, hnew] at hs
      rw [← some.inj hs]
      exact Nat.lt_succ_self _
    · exact Nat.lt_succ_of_lt (h.fresh id' spec ((hold hne).symm.trans hs))
  · intro k spec hs hk
    rcases hcase k spec hs hk with ⟨rfl, rfl⟩ | hs0
    · obtain ⟨hm, hw, ht⟩ := trail_of_dataOf_nil hid hnodata
      rw [h.tracks.noBuf id hfree]
      exact .unseen hm hw ht
    · exact h.tracks.live k spec hs0 hk
  · intro k hk hcur
    exact h.tracks.past k hk fun hc => hcur (hkeep k hc)
  · exact (hold hid.symm).trans h.tracks.zero
  · intro id' (hnone : specs' id' = none)
    have hne : id' ≠ id := fun heq => by
      rw [heq, hnew] at hnone
      cases hnone
    exact h.tracks.noBuf id' ((hold hne).symm.trans hnone)
  · intro k spec hs hk
    rcases hcase k spec hs hk with ⟨rfl, rfl⟩ | hs0
    · have hpend : s.pending ⟨id, s.serial⟩ = 0 := (h.past _ hid hnotcur).1
      show (dataOf _ s.seen).length + s.pending _ ≤ 0
      rw [hnodata, hpend, length_nil]
    · exact h.counted k spec hs0 hk
  · intro k hk hcur
    exact h.past k hk fun hc => hcur (hkeep k hc)
  · intro b hb h0
    exact Nat.lt_succ_of_lt (h.numbered b hb h0)
  · intro i r hr
    obtain ⟨hlt, hd⟩ := h.named i r hr
    refine ⟨Nat.lt_succ_of_lt hlt, fun spec hs hk => ?_⟩
    rcases hcase r spec hs hk with ⟨rfl, -⟩ | hs0
    · exact absurd hlt (Nat.lt_irrefl _)
    · exact hd spec hs0 hk

/-! ## Consuming

The buffer moves from the ring to what was seen, so for its speculation the sum of the two stays the
same. A data buffer joins a spec buf; any other one may start and walk the draining list, and with
it take IDs away. -/

/-- The first buffer of a ring is taken. -/
def Sys.pop (s : Sys n α) (i : Fin n) (rest : List (Buf α)) : Sys n α :=
  s.setCpu i { s.cpus i with ring := rest }

section pop
variable {s : Sys n α} {i : Fin n} {b : Buf α} {rest : List (Buf α)}

theorem Sys.pop_clause (j : Fin n) : ((s.pop i rest).cpus j).clause = (s.cpus j).clause := by
  rw [Sys.pop, Sys.setCpu_cpus]
  split
  · next h => rw [h]
  · rfl

theorem Sys.pop_quiet (k : SpecRef) : (s.pop i rest).quiet k ↔ s.quiet k := by
  simp only [Sys.quiet, Sys.pop_clause]

section

variable (hring : (s.cpus i).ring = b :: rest)

include hring

/-- One buffer less is on its way. -/
theorem Sys.pop_pending (k : SpecRef) :
    (s.pop i rest).pending k + (if b.spec = k then 1 else 0) = s.pending k := by
  have hsum := s.pending_setCpu i { s.cpus i with ring := rest } k
  have hold : (s.cpus i).pending k =
      Cpu.pending { s.cpus i with ring := rest } k + if b.spec = k then 1 else 0 := by
    by_cases hb : b.spec = k <;> simp [Cpu.pending, dataOf, hring, hb, Nat.add_assoc]
  rw [Sys.pop]
  omega

theorem Sys.pop_pending_of_plain (hb : b.spec.id = 0) {k : SpecRef} (hk : k.id ≠ 0) :
    (s.pop i rest).pending k = s.pending k := by
  have hsum := Sys.pop_pending hring k
  rwa [if_neg fun hbk : b.spec = k => hk (hbk ▸ hb)] at hsum

theorem Sys.pop_ring (j : Fin n) :
    ((s.pop i rest).cpus j).ring ⊆ (s.cpus j).ring := by
  rw [Sys.pop, Sys.setCpu_cpus]
  split
  · next h =>
    rw [h, hring]
    exact subset_cons_self b rest
  · exact Subset.refl _

theorem Sys.pop_names {j : Fin n} {r : SpecRef}
    (h : ((s.pop i rest).cpus j).names r) : (s.cpus j).names r := by
  rcases h with ⟨acts, hc, hrest⟩ | ⟨b', hb', hrest⟩
  · exact Or.inl ⟨acts, Sys.pop_clause j ▸ hc, hrest⟩
  · exact Or.inr ⟨b', Sys.pop_ring hring j hb', hrest⟩

end

end pop

/-- Data within `specsize` opens a spec buf or joins the one that is there. -/
theorem hive_of_fits {specsize : Nat} (h : fits specsize c b) :
    ∃ dtsb, hive specsize b c = c.setBuf b.spec.id (some dtsb) ∧
      (c.specBufs b.spec.id = none → dtsb.data = [b] ∧ dtsb.spec.draining = false) ∧
      ∀ old, c.specBufs b.spec.id = some old → dtsb.data = old.data ++ [b] ∧
        dtsb.spec = old.spec ∧ dtsb.committing = old.committing := by
  unfold fits at h
  unfold hive
  rw [if_neg (by omega)]
  refine ⟨_, rfl, fun hnone => ?_, fun old hold => ?_⟩
  · simp [hnone]
  · simp [hold]

theorem Trail.see_of_spec {k : SpecRef} (hb : b.spec.id ≠ 0) (t : Trail α) :
    t.see k b = if b.spec = k then { t with waiting := t.waiting ++ [b] } else t := by
  simp [Trail.see, hb]

/-- A data buffer joins the spec buf of its speculation. -/
theorem Tracks.hive {T : SpecRef → Trail α} (h : Tracks specs quiet c T) {specsize : Nat}
    (hb : b.spec.id ≠ 0) (hcur : Current specs b.spec) (hrec : ∀ a ∈ b.acts, a = .record)
    (hfits : fits specsize c b) :
    Tracks specs quiet (Speculation.hive specsize b c) fun k => (T k).see k b := by
  obtain ⟨dtsb, heq, hnone, hsome⟩ := hive_of_fits hfits
  have hself : (c.setBuf b.spec.id (some dtsb)).specBufs b.spec.id = some dtsb := by simp
  simp only [heq, Trail.see_of_spec hb]
  refine ⟨?_, ?_, ?_, h.zero, ?_, h.nodup, ?_, ?_⟩
  · intro k spec hs hk
    by_cases hid : k.id = b.spec.id
    · obtain rfl : k = b.spec := Current.unique ⟨spec, hs, hk⟩ hcur hid
      rw [if_pos rfl, hself]
      cases hbuf : c.specBufs b.spec.id with
      | none =>
        obtain ⟨hdata, hdr⟩ := hnone hbuf
        cases hbuf ▸ h.live b.spec spec hs hk with
        | unseen mode waiting taken =>
          exact .held (by simp [hdata, waiting]) mode hdr (by simp) taken
      | some old =>
        obtain ⟨hdata, hspec, hcommit⟩ := hsome old hbuf
        cases hbuf ▸ h.live b.spec spec hs hk with
        | held data mode draining waiting taken =>
          exact .held (by simp [hdata, data]) mode (hspec ▸ draining) (by simp) taken
        | drained data mode draining written marked still mem =>
          exact .drained (by simp [hdata, data]) (hcommit ▸ mode) (hspec ▸ draining)
            (hspec ▸ written) marked still mem
    · rw [if_neg fun hbk : b.spec = k => hid (hbk ▸ rfl), Consumer.setBuf_of_ne _ _ _ hid]
      exact h.live k spec hs hk
  · intro k hk hpast
    rw [if_neg fun hbk : b.spec = k => hpast (hbk ▸ hcur)]
    exact h.past k hk hpast
  · intro k hk b' hb'
    split at hb'
    · next hbk =>
      rcases mem_append.mp hb' with hb' | hb'
      · exact h.own k hk b' hb'
      · rw [mem_singleton.mp hb']
        exact ⟨hbk, hrec⟩
    · exact h.own k hk b' hb'
  · intro id hid
    have hne : id ≠ b.spec.id := fun heq => by
      obtain ⟨spec, hs, -⟩ := hcur
      rw [heq, hs] at hid
      cases hid
    rw [Consumer.setBuf_of_ne _ _ _ hne]
    exact h.noBuf id hid
  · intro x hx
    obtain ⟨old, hold, hdr⟩ := h.listed x hx
    by_cases hid : x.id = b.spec.id
    · rw [hid] at hold ⊢
      exact ⟨dtsb, hself, (hsome old hold).2.1 ▸ hdr⟩
    · exact ⟨old, by rw [Consumer.setBuf_of_ne _ _ _ hid, hold], hdr⟩
  · intro k hk
    have hout : (if b.spec = k then { T k with waiting := (T k).waiting ++ [b] } else T k).out =
        (T k).out := by split <;> rfl
    rw [hout]
    exact h.delivered k hk

theorem Tracks.of_quiet_iff {quiet' : SpecRef → Prop} {T : SpecRef → Trail α}
    (h : Tracks specs quiet c T) (hq : ∀ k, quiet' k ↔ quiet k) : Tracks specs quiet' c T := by
  rwa [show quiet' = quiet from funext fun k => propext (hq k)]

/-- A buffer outside speculations, with the records judged and the draining list walked. -/
theorem Tracks.plain {cb : Callbacks α} (hcb : cb.Continues) {seen : List (Buf α)}
    {pending : SpecRef → Nat} (h : Tracks specs quiet c fun k => trail k seen)
    (hb : b.Plain) (hok : Tracks.ActsOk specs quiet c b.acts)
    (hcount : ∀ k spec, specs k.id = some spec → spec.serial = k.serial →
      (dataOf k seen).length + pending k ≤ spec.written) (specsize : Nat) (peek : Peek) :
    ∃ c' specs', dtConsumeOneProbe cb specsize peek b c specs = (c', specs', .okay) ∧
      Tracks specs' quiet c' (fun k => trail k (seen ++ [b])) ∧
      (∀ id, specs' id = specs id ∨ specs' id = none) ∧
      ∀ k, Current specs k → ¬Current specs' k → pending k = 0 ∧ quiet k := by
  have hne : ∀ {k : SpecRef}, k.id ≠ 0 → b.spec ≠ k := fun hk hbk => hk (hbk ▸ hb.1)
  -- what is delivered first, if anything, is no data of a speculation
  let c1 : Consumer α :=
    if dataRecording b.acts then { c with delivered := c.delivered ++ [b] } else c
  have hc1 : Tracks specs quiet c1 (fun k => trail k seen) ∧ c1.specBufs = c.specBufs := by
    by_cases hr : dataRecording b.acts = true
    · simp only [c1, hr, if_true, and_true]
      exact { h with
        delivered := fun k hk => by
          rw [filter_append, h.delivered k hk]
          simp [hne hk] }
    · simp only [c1, hr]
      exact ⟨h, rfl⟩
  have hok1 : Tracks.ActsOk specs quiet c1 b.acts :=
    ⟨fun a ha r hr dtsb hbuf => hok.meant a ha r hr dtsb (hc1.2 ▸ hbuf), hok.marked⟩
  obtain ⟨c2, hscan, h2⟩ := hc1.1.scan hcb hb.1 b.acts 0 hok1
  have hcount2 : ∀ k spec, specs k.id = some spec → spec.serial = k.serial →
      ((trail k seen).judge k b.acts).taken + ((trail k seen).judge k b.acts).waiting.length +
        pending k ≤ spec.written := by
    intro k spec hs hk
    rw [Trail.judge_taken, Trail.judge_waiting, trail_length (h.id_ne_zero hs)]
    exact hcount k spec hs hk
  -- the walk sees the trails as the records have judged them
  obtain ⟨c', specs', hdrain, h', hspecs, hlost⟩ := h2.drain hcb hcount2
  have hconsume : consumeData cb specs b (dataRecording b.acts) c = (c2, none) :=
    consumeData_of_scan specs (fun _ => hcb.efunc b) hscan
  have hsee : ∀ k, trail k (seen ++ [b]) = ((trail k seen).judge k b.acts).flush := fun k => by
    simp [Trail.see, hb.1, hb.2]
  refine ⟨c', specs', ?_, ?_, hspecs, hlost⟩
  · simp [dtConsumeOneProbe, hb.1, hb.2, hconsume, hdrain]
  · simpa only [hsee] using h'

section
variable {s : Sys n α} (h : Inv s) {i : Fin n} {b : Buf α} {rest : List (Buf α)}
  (hring : (s.cpus i).ring = b :: rest)
include h hring

/-- A data buffer is taken. Its speculation still has the ID, or nothing of it would be on its way.
-/
theorem Inv.consume_data {specsize : Nat} (hb : b.spec.id ≠ 0)
    (hfits : fits specsize s.consumer b) :
    Inv { s.pop i rest with
      consumer := hive specsize b s.consumer, status := .okay, seen := s.seen ++ [b] } := by
  have hpend := fun k => Sys.pop_pending hring k
  -- otherwise the buffer itself would not be in a ring
  have hcur : Current s.specs b.spec := by
    by_contra hcur
    have h1 := (h.past b.spec hb hcur).1
    have h2 := hpend b.spec
    rw [if_pos rfl] at h2
    omega
  have hmem : b ∈ (s.cpus i).ring := hring ▸ mem_cons_self
  have hrec := (h.records i b hmem hb).2
  refine ⟨rfl, h.pos, h.fresh, ?_, ?_, ?_, ?_, ?_, fun j r hr => h.named j r (Sys.pop_names hring hr),
    fun j => (Sys.pop_clause j).symm ▸ h.sound j⟩
  · simp only [trail_snoc]
    exact (h.tracks.hive hb hcur hrec hfits).of_quiet_iff Sys.pop_quiet
  · intro k spec hs hk
    have h1 := h.counted k spec hs hk
    have h2 : (s.pop i rest).pending k + _ = _ := hpend k
    show (dataOf k (s.seen ++ [b])).length + (s.pop i rest).pending k ≤ spec.written
    rw [dataOf_snoc]
    split at h2
    · next hbk =>
      rw [if_pos hbk, length_append, length_singleton]
      omega
    · next hbk =>
      rw [if_neg hbk, append_nil]
      omega
  · intro k hk hpast
    obtain ⟨_, hq⟩ := h.past k hk hpast
    have h2 : (s.pop i rest).pending k + _ = _ := hpend k
    exact ⟨show (s.pop i rest).pending k = 0 by omega, (Sys.pop_quiet k).mpr hq⟩
  · intro b' hb' h0
    rcases mem_append.mp hb' with hb' | hb'
    · exact h.numbered b' hb' h0
    · obtain ⟨spec, hs, hk⟩ := hcur
      rw [mem_singleton.mp hb', ← hk]
      exact h.fresh _ spec hs
  · intro j b' hb'
    exact h.records j b' (Sys.pop_ring hring j hb')

/-- What the condition on steps and the invariant say about the records of a buffer. -/
theorem Inv.actsOk (hb : b.spec.id = 0)
    (hmeant : ∀ a ∈ b.acts, ∀ r ∈ a.ref?, ∀ dtsb ∈ s.consumer.specBufs r.id,
      dtsb.spec.draining = false → serialOf s.specs r.id = r.serial ∧ s.quiet r) :
    Tracks.ActsOk s.specs s.quiet s.consumer b.acts where
  meant a ha r hr dtsb hbuf hdr := by
    obtain ⟨hser, hq⟩ := hmeant a ha r hr dtsb hbuf hdr
    refine ⟨?_, hq⟩
    cases hs : s.specs r.id with
    | none => rw [h.tracks.noBuf r.id hs] at hbuf; cases hbuf
    | some spec => exact ⟨spec, hs, by simpa [serialOf, hs] using hser⟩
  marked a ha r hr := by
    refine (h.named i r (Or.inr ⟨b, ?_, hb, a, ha, hr⟩)).2
    exact hring ▸ mem_cons_self

/-- A buffer outside speculations is taken, and entries of the map that nothing is left of are
deleted. -/
theorem Inv.pop_plain (hb : b.spec.id = 0) {c' : Consumer α} {specs' : SpecMap}
    (h' : Tracks specs' s.quiet c' fun k => trail k (s.seen ++ [b]))
    (hspecs : ∀ id, specs' id = s.specs id ∨ specs' id = none)
    (hlost : ∀ k, Current s.specs k → ¬Current specs' k →
      (s.pop i rest).pending k = 0 ∧ s.quiet k) :
    Inv { s.pop i rest with
      consumer := c', specs := specs', status := .okay, seen := s.seen ++ [b] } := by
  have hne : ∀ {k : SpecRef}, k.id ≠ 0 → b.spec ≠ k := fun hk hbk => hk (hbk ▸ hb)
  have hdata : ∀ {k : SpecRef}, k.id ≠ 0 → dataOf k (s.seen ++ [b]) = dataOf k s.seen :=
    fun hk => by rw [dataOf_snoc, if_neg (hne hk), append_nil]
  have hpend : ∀ {k : SpecRef}, k.id ≠ 0 → (s.pop i rest).pending k = s.pending k :=
    Sys.pop_pending_of_plain hring hb
  have hback : ∀ {id spec}, specs' id = some spec → s.specs id = some spec := by
    intro id spec hs
    rcases hspecs id with heq | heq
    · exact heq ▸ hs
    · rw [heq] at hs; cases hs
  refine ⟨rfl, h.pos, ?_, ?_, ?_, ?_, ?_, ?_, ?_, fun j => (Sys.pop_clause j).symm ▸ h.sound j⟩
  · exact fun id spec hs => h.fresh id spec (hback hs)
  · exact h'.of_quiet_iff Sys.pop_quiet
  · intro k spec hs hk
    have hs0 := hback hs
    have hk0 := h.tracks.id_ne_zero hs0
    show (dataOf k (s.seen ++ [b])).length + (s.pop i rest).pending k ≤ spec.written
    rw [hdata hk0, hpend hk0]
    exact h.counted k spec hs0 hk
  · intro k hk hpast
    -- its ID is taken away by this buffer, or was before
    by_cases hcur : Current s.specs k
    · obtain ⟨hp, hq⟩ := hlost k hcur hpast
      exact ⟨hp, (Sys.pop_quiet k).mpr hq⟩
    · obtain ⟨hp, hq⟩ := h.past k hk hcur
      exact ⟨(hpend hk).trans hp, (Sys.pop_quiet k).mpr hq⟩
  · intro b' hb' h0
    rcases mem_append.mp hb' with hb' | hb'
    · exact h.numbered b' hb' h0
    · rw [mem_singleton.mp hb'] at h0
      exact absurd hb h0
  · intro j b' hb'
    exact h.records j b' (Sys.pop_ring hring j hb')
  · intro j r hr
    obtain ⟨hlt, hd⟩ := h.named j r (Sys.pop_names hring hr)
    exact ⟨hlt, fun spec hs => hd spec (hback hs)⟩

/-- A buffer outside speculations is taken. -/
theorem Inv.consume_plain {cb : Callbacks α} (hcb : cb.Continues) (hb : b.Plain)
    (hok : Tracks.ActsOk s.specs s.quiet s.consumer b.acts) (specsize : Nat) :
    ∃ c' specs', dtConsumeOneProbe cb specsize .no b s.consumer s.specs = (c', specs', .okay) ∧
      Inv { s.pop i rest with
        consumer := c', specs := specs', status := .okay, seen := s.seen ++ [b] } := by
  have hcount : ∀ k spec, s.specs k.id = some spec → spec.serial = k.serial →
      (dataOf k s.seen).length + (s.pop i rest).pending k ≤ spec.written := by
    intro k spec hs hk
    rw [Sys.pop_pending_of_plain hring hb.1 (h.tracks.id_ne_zero hs)]
    exact h.counted k spec hs hk
  obtain ⟨c', specs', heq, h', hspecs, hlost⟩ := h.tracks.plain hcb hb hok hcount specsize .no
  exact ⟨c', specs', heq, h.pop_plain hring hb.1 h' hspecs hlost⟩

/-- A buffer of the default clause of `ERROR` changes nothing, and what waits goes on waiting. -/
theorem Inv.consume_error (hb : b.spec.id = 0) (he : b.error = true) :
    Inv { s.pop i rest with status := .okay, seen := s.seen ++ [b] } := by
  refine h.pop_plain hring hb ?_ (fun _ => Or.inl rfl) fun k hcur hno => absurd hcur hno
  have hsee : ∀ k, trail k (s.seen ++ [b]) = trail k s.seen := fun k => by
    simp [Trail.see, hb, he]
  simp only [hsee]
  exact h.tracks

end

/-! ## Every run -/

theorem Inv.consume (hcb : cfg.cb.Continues) {s' : Sys n α} (h : Inv s) {i : Fin n}
    (hok : StepOk cfg s (.consume i)) (hstep : step cfg s (.consume i) = some s') : Inv s' := by
  simp only [step, h.okay] at hstep
  cases hring : (s.cpus i).ring with
  | nil => simp [hring] at hstep
  | cons b rest =>
    simp only [hring] at hstep
    obtain ⟨hfits, hmeant⟩ := hok b (by simp [hring])
    by_cases hb : b.spec.id = 0
    · by_cases he : b.error = true
      · have heq : dtConsumeOneProbe cfg.cb cfg.specsize .no b s.consumer s.specs =
            (s.consumer, s.specs, .okay) := by
          simp [dtConsumeOneProbe, he, hcb.errhdlr b]
        rw [heq] at hstep
        obtain rfl := some.inj hstep
        exact h.consume_error hring hb he
      · obtain ⟨_, _, heq, hinv⟩ := h.consume_plain hring hcb ⟨hb, by simpa using he⟩
          (h.actsOk hring hb hmeant) cfg.specsize
        rw [heq] at hstep
        obtain rfl := some.inj hstep
        exact hinv
    · have hno : b.error = false := (h.records i b (by simp [hring]) hb).1
      have heq : dtConsumeOneProbe cfg.cb cfg.specsize .no b s.consumer s.specs =
          (hive cfg.specsize b s.consumer, s.specs, .okay) := by
        simp [dtConsumeOneProbe, hno, hb]
      rw [heq] at hstep
      obtain rfl := some.inj hstep
      exact h.consume_data hring hb (hfits hb)

/-- **Every step that meets the condition keeps the invariant.** -/
theorem Inv.step (hcb : cfg.cb.Continues) {s' : Sys n α} (h : Inv s) {e : Event n α}
    (hok : StepOk cfg s e) (hstep : step cfg s e = some s') : Inv s' := by
  cases e with
  | speculation =>
    simp only [Speculation.step, dtSpeculation] at hstep
    cases hsearch : searchSpec cfg.nspec s.specs (List.range' 1 maxNspecs) 0 with
    | error e =>
      rw [hsearch] at hstep
      exact some.inj hstep ▸ h
    | ok id =>
      rw [hsearch] at hstep
      obtain ⟨hmem, -, hfree⟩ := searchSpec_ok hsearch
      have hid : id ≠ 0 := by
        have := (mem_range'_1.mp hmem).1
        omega
      exact some.inj hstep ▸ h.speculation hid hfree
  | speculate i id =>
    have hclause : (s.cpus i).clause = .plain [] := hok
    have hnil : mayspeculate [] = true := rfl
    simp only [Speculation.step, hclause, hnil, if_true] at hstep
    split at hstep
    · exact some.inj hstep ▸ h.idle i
    · next spec hcheck => exact some.inj hstep ▸ h.speculate i hcheck
  | count i =>
    simp only [Speculation.step] at hstep
    split at hstep
    · next r acts hclause => exact some.inj hstep ▸ h.count i hclause
    · cases hstep
  | enter i =>
    simp only [Speculation.step] at hstep
    split at hstep
    · exact some.inj hstep ▸ h.enter i
    · cases hstep
  | record i =>
    obtain ⟨_, hact, rfl⟩ := map_eq_some_iff.mp hstep
    exact h.record i hact
  | judge i commit id =>
    simp only [Speculation.step] at hstep
    split at hstep
    · cases hstep
    · next clause hact =>
      split at hstep
      · exact some.inj hstep ▸ h.idle i
      · next specs hset =>
        -- the condition leaves the clauses outside speculations
        obtain ⟨acts, hclause, rfl⟩ | ⟨r, acts, hclause, -⟩ := act_cases hact
        · exact some.inj hstep ▸ h.judge i hclause hset
        · have hno : (s.cpus i).clause.speculating? = none := hok
          rw [hclause] at hno
          cases hno
  | output i size data =>
    obtain ⟨_, hfinish, rfl⟩ := map_eq_some_iff.mp hstep
    exact h.output i hfinish
  | error i size nrecs data =>
    simp only [Speculation.step] at hstep
    split at hstep
    · next hclause =>
      rw [hclause] at hstep
      refine some.inj hstep ▸ h.append_plain i fun a ha r href => ?_
      rw [eq_of_mem_replicate ha] at href
      cases href
    · cases hstep
  | fault i => exact some.inj hstep ▸ h.idle i
  | consume i => exact h.consume hcb hok hstep

theorem inv_of_reach (hcb : cfg.cb.Continues) (h : (system cfg).Reach (StepOk cfg) s) : Inv s :=
  h.invariant Inv.init fun _ _ _ hinv hok hstep => hinv.step hcb hok hstep

/-- **Delivery**: in every run whose steps meet `StepOk`, the consumer goes on, a speculation
without a commit record has none of its data delivered, and one without a discard record has
all of its data delivered, each buffer once and in order, exactly when the order in which the
consumer saw the buffers was timely. -/
theorem delivered_iff_timely {cfg : Config α} (hcb : cfg.cb.Continues) {s : Sys n α}
    (h : (system cfg).Reach (StepOk cfg) s) (k : SpecRef) (hk : k.id ≠ 0) :
    s.status = .okay ∧
      (¬Judged k true s.seen → dataOf k s.consumer.delivered = []) ∧
      (¬Judged k false s.seen →
        (dataOf k s.consumer.delivered = dataOf k s.seen ↔ Timely k s.seen)) := by
  have hinv := inv_of_reach hcb h
  have hout : dataOf k s.consumer.delivered = (trail k s.seen).out := hinv.tracks.delivered k hk
  refine ⟨hinv.okay, fun hno => ?_, fun hno => ?_⟩
  · rw [hout]
    exact trail_out_eq_nil fun hm => hno (judged_of_mode hm)
  · have hsplit : _ = dataOf k s.seen :=
      trail_out_append_waiting hk fun hm => hno (judged_of_mode hm)
    rw [hout, ← hsplit, ← waiting_eq_nil_iff hk, self_eq_append_right]

/-- **Nothing is delivered twice**, made up or put in another order: what the callbacks get of a
speculation is a part of what came by of it. -/
theorem delivered_sublist_seen {cfg : Config α} (hcb : cfg.cb.Continues) {s : Sys n α}
    (h : (system cfg).Reach (StepOk cfg) s) (k : SpecRef) (hk : k.id ≠ 0) :
    (dataOf k s.consumer.delivered).Sublist (dataOf k s.seen) := by
  have hout : dataOf k s.consumer.delivered = (trail k s.seen).out :=
    (inv_of_reach hcb h).tracks.delivered k hk
  rw [hout]
  exact trail_out_sublist hk s.seen

/-- **An ID is free only when nothing is left** of the speculation that had it: no CPU has data of
it in its ring or a clause that may still add some, and the consumer does not hold any. -/
theorem nothing_left_of_past {cfg : Config α} (hcb : cfg.cb.Continues) {s : Sys n α}
    (h : (system cfg).Reach (StepOk cfg) s) (k : SpecRef) (hk : k.id ≠ 0)
    (hpast : ¬Current s.specs k) :
    (∀ i, dataOf k (s.cpus i).ring = [] ∧ (s.cpus i).clause.checked? ≠ some k ∧
      (s.cpus i).clause.speculating? ≠ some k) ∧
    ∀ dtsb ∈ s.consumer.specBufs k.id, dataOf k dtsb.data = [] := by
  have hinv := inv_of_reach hcb h
  obtain ⟨hpending, hquiet⟩ := hinv.past k hk hpast
  refine ⟨fun i => ?_, fun dtsb hbuf => ?_⟩
  · have hcpu : (s.cpus i).pending k = 0 := Finset.sum_eq_zero_iff.mp hpending i (Finset.mem_univ i)
    obtain ⟨hclause, hring⟩ := Nat.add_eq_zero_iff.mp hcpu
    refine ⟨length_eq_zero_iff.mp hring, hquiet i, fun hc => ?_⟩
    rw [if_pos hc] at hclause
    cases hclause
  · -- an entry of the table belongs to the speculation that has the ID now
    obtain ⟨k', spec, hid, -, hspec, hserial, hdata, -⟩ := hinv.tracks.owner hbuf
    refine filter_eq_nil_iff.mpr fun b hb => ?_
    have hown := (hinv.tracks.own k' (hid ▸ hk) b (hdata ▸ hb)).1
    simp only [hown, decide_eq_true_eq]
    rintro rfl
    exact hpast ⟨spec, hspec, hserial⟩

/-! ### Two interleavings -/

/-- Callbacks that take everything. -/
def takeAll : Callbacks Nat := ⟨fun _ => .this, fun _ _ => .this, fun _ => true⟩

theorem takeAll_continues : takeAll.Continues :=
  ⟨fun _ => rfl, fun _ _ => Or.inr rfl, fun _ => rfl⟩

def oneSpec : Config Nat := ⟨1, 1000, takeAll⟩

/-- CPU 1 speculates under ID 1; CPU 0 commits it, and then runs a clause of its own. -/
def speculateAndCommit : List (Event 2 Nat) :=
  [.speculation, .enter 1, .speculate 1 1, .count 1, .record 1, .output 1 8 7,
    .enter 0, .judge 0 true 1, .output 0 8 0, .enter 0, .record 0, .output 0 8 0]

/-- The run of `es` after that, with what was delivered and seen and whether all rings are
empty. -/
def observe (es : List (Event 2 Nat)) : Option (List (Buf Nat) × List (Buf Nat) × Bool) :=
  ((system oneSpec).runIf (StepOk oneSpec) initial (speculateAndCommit ++ es)).map fun s =>
    (s.consumer.delivered, s.seen, decide (∀ i, (s.cpus i).ring.isEmpty = true))

theorem reach_of_observe {es : List (Event 2 Nat)} {delivered seen : List (Buf Nat)} {empty : Bool}
    (h : observe es = some (delivered, seen, empty)) :
    ∃ s : Sys 2 Nat, (system oneSpec).Reach (StepOk oneSpec) s ∧ s.consumer.delivered = delivered ∧
      s.seen = seen ∧ (empty = true → ∀ i, (s.cpus i).ring = []) := by
  obtain ⟨s, hrun, heq⟩ := map_eq_some_iff.mp h
  simp only [Prod.mk.injEq] at heq
  refine ⟨s, TransitionSystem.Reach.init.of_runIf hrun, heq.1, heq.2.1, fun hempty => ?_⟩
  simpa [← heq.2.2] using hempty

def speculated : Buf Nat := ⟨1, ⟨1, 1⟩, 8, [.record], 7, false⟩

def committed : Buf Nat := ⟨0, ⟨0, 0⟩, 8, [.commit ⟨1, 1⟩], 0, false⟩

def unrelated : Buf Nat := ⟨0, ⟨0, 0⟩, 8, [.record], 0, false⟩

/-- The data is seen before the commit record: it is delivered. -/
theorem data_then_commit_delivers :
    ∃ s : Sys 2 Nat, (system oneSpec).Reach (StepOk oneSpec) s ∧ s.seen = [speculated, committed] ∧
      dataOf ⟨1, 1⟩ s.consumer.delivered = [speculated] := by
  have hrun : observe [.consume 1, .consume 0] =
      some ([speculated], [speculated, committed], false) := by decide
  obtain ⟨s, hreach, -, hseen, -⟩ := reach_of_observe hrun
  refine ⟨s, hreach, hseen, ?_⟩
  have hdelivery := (delivered_iff_timely takeAll_continues hreach ⟨1, 1⟩ (by decide)).2.2
  rw [hseen] at hdelivery
  exact (hdelivery (by decide)).mpr ((waiting_eq_nil_iff (by decide) _).mp rfl)

theorem speculated_delivered_once :
    ∃ s : Sys 2 Nat, (system oneSpec).Reach (StepOk oneSpec) s ∧ s.seen = [speculated, committed] ∧
      (dataOf ⟨1, 1⟩ s.consumer.delivered).Sublist [speculated] := by
  have hrun : observe [.consume 1, .consume 0] =
      some ([speculated], [speculated, committed], false) := by decide
  obtain ⟨s, hreach, -, hseen, -⟩ := reach_of_observe hrun
  have hsub := delivered_sublist_seen takeAll_continues hreach ⟨1, 1⟩ (by decide)
  rw [hseen] at hsub
  exact ⟨s, hreach, hseen, hsub⟩

/-- The ID is free after that, and nothing is left. -/
theorem nothing_left_after_commit :
    ∃ s : Sys 2 Nat, (system oneSpec).Reach (StepOk oneSpec) s ∧ s.specs 1 = none ∧
      ∀ i, dataOf ⟨1, 1⟩ (s.cpus i).ring = [] := by
  have hrun : ((system oneSpec).runIf (StepOk oneSpec) initial
      (speculateAndCommit ++ [.consume 1, .consume 0])).map (fun s => (s.specs 1).isNone) =
      some true := by decide
  obtain ⟨s, hrun, hnone⟩ := map_eq_some_iff.mp hrun
  have hreach := TransitionSystem.Reach.init.of_runIf hrun
  have hfree : s.specs 1 = none := isNone_iff_eq_none.mp hnone
  have hleft := nothing_left_of_past takeAll_continues hreach ⟨1, 1⟩ (by decide)
    fun ⟨_, hspec, _⟩ => by simp [hfree] at hspec
  exact ⟨s, hreach, hfree, fun i => (hleft.1 i).1⟩

/-- The commit record is seen before the data, which is then never delivered: not at once, and
not when a later buffer comes by. -/
theorem commit_then_data_lost :
    ∃ s : Sys 2 Nat, (system oneSpec).Reach (StepOk oneSpec) s ∧ (∀ i, (s.cpus i).ring = []) ∧
      s.seen = [committed, speculated, unrelated] ∧ Judged ⟨1, 1⟩ true s.seen ∧
      ¬Judged ⟨1, 1⟩ false s.seen ∧ dataOf ⟨1, 1⟩ s.seen = [speculated] ∧
      dataOf ⟨1, 1⟩ s.consumer.delivered = [] := by
  have hrun : observe [.consume 0, .consume 1, .consume 0] =
      some ([unrelated], [committed, speculated, unrelated], true) := by decide
  obtain ⟨s, hreach, hdelivered, hseen, hempty⟩ := reach_of_observe hrun
  refine ⟨s, hreach, hempty rfl, hseen, ?_⟩
  rw [hdelivered, hseen]
  decide

end DTrace.Speculation
