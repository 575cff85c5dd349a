import Mathlib.Data.List.Nodup
import DTrace.Speculation.Consume

/-!
# What one buffer does to the consumer

With callbacks that never ask the consumer to stop, delivering a buffer only appends to
`delivered`, and the walk over the draining list treats every entry on its own: `Drained` says
what it leaves of each.
-/

namespace DTrace.Speculation

open List Option

variable {α : Type*}

/-- Callbacks that take every buffer and never ask the consumer to stop. -/
structure Callbacks.Continues (cb : Callbacks α) : Prop where
  efunc : ∀ b, cb.efunc b = .this
  rfunc : ∀ b i, cb.rfunc b i = .next ∨ cb.rfunc b i = .this
  errhdlr : ∀ b, cb.errhdlr b = true

variable {cb : Callbacks α} {c c' : Consumer α} {dtsd : Draining}

section setBuf
variable (c : Consumer α) (id : Nat) (dtsb : Option (SpecBuf α))

@[simp] theorem Consumer.setBuf_self : (c.setBuf id dtsb).specBufs id = dtsb := by
  simp [Consumer.setBuf]

theorem Consumer.setBuf_of_ne {id' : Nat} (h : id' ≠ id) :
    (c.setBuf id dtsb).specBufs id' = c.specBufs id' := by
  simp [Consumer.setBuf, h]

@[simp] theorem Consumer.setBuf_draining : (c.setBuf id dtsb).draining = c.draining := rfl

@[simp] theorem Consumer.setBuf_delivered : (c.setBuf id dtsb).delivered = c.delivered := rfl

end setBuf

/-! ## Delivering

The callbacks go on, so a buffer that is delivered is only appended to `delivered`; the records in
it are looked at, but those of a speculation hold no commit or discard. -/

section
variable {cb : Callbacks α} (hcb : cb.Continues) (specs : SpecMap)

include hcb in
theorem scanActs_record (b : Buf α) (acts : List Act) (i : Nat) (c : Consumer α) :
    scanActs cb specs b (.record :: acts) i c = scanActs cb specs b acts (i + 1) c := by
  rcases hcb.rfunc b i with h | h <;> simp [scanActs, h]

include hcb in
/-- Records without a commit or discard do not change the consumer. -/
theorem scanActs_records (b : Buf α) {acts : List Act} (h : ∀ a ∈ acts, a = .record) (i : Nat)
    (c : Consumer α) : scanActs cb specs b acts i c = (c, .okay) := by
  induction acts generalizing i with
  | nil => rfl
  | cons a acts ih =>
    rw [h a (by simp), scanActs_record hcb]
    exact ih (fun a ha => h a (by simp [ha])) (i + 1)

/-- A recorded buffer is handed to the callbacks before its records are looked at. -/
theorem consumeData_of_scan {b : Buf α} {recording : Bool} {c c' : Consumer α}
    (he : recording = true → cb.efunc b = .this)
    (h : scanActs cb specs b b.acts 0
      (if recording then { c with delivered := c.delivered ++ [b] } else c) = (c', .okay)) :
    consumeData cb specs b recording c = (c', none) := by
  cases recording with
  | true =>
    rw [if_pos rfl] at h
    simp [consumeData, he rfl, h]
  | false =>
    rw [if_neg (by decide)] at h
    simp [consumeData, h]

include hcb in
/-- A committed speculation is delivered in full and in the order of its data. -/
theorem dtCommitOneSpec_eq {bs : List (Buf α)} (h : ∀ b ∈ bs, ∀ a ∈ b.acts, a = .record)
    (c : Consumer α) :
    dtCommitOneSpec cb specs bs c = ({ c with delivered := c.delivered ++ bs }, .okay) := by
  induction bs generalizing c with
  | nil => simp [dtCommitOneSpec]
  | cons b bs ih =>
    have hrest := ih fun b' hb' => h b' (by simp [hb'])
    have hb : consumeData cb specs b true c =
        ({ c with delivered := c.delivered ++ [b] }, none) :=
      consumeData_of_scan specs (fun _ => hcb.efunc b)
        (scanActs_records hcb specs b (h b (by simp)) 0 _)
    simp [dtCommitOneSpec, hb, hrest]

end

/-! ## The walk over the draining list

`drain` may change `specBufs`, the `specs` map and the list itself. Since IDs are different along
the list, what it does to each entry is described on the state before the walk. -/

/-- What the walk passes to the callbacks for one entry. -/
def released (c : Consumer α) (dtsd : Draining) : List (Buf α) :=
  match c.specBufs dtsd.id with
  | some dtsb => if dtsb.committing then dtsb.data else []
  | none => []

/-- The walk over `ds`: what was waiting is delivered in the order of the list; an entry whose data
has all been read is gone, and so is its ID; any other one stays in the list with its data emptied.
-/
structure Drained (ds : List Draining) (c c' : Consumer α) (specs specs' : SpecMap) : Prop where
  delivered : c'.delivered = c.delivered ++ ds.flatMap (released c)
  other : ∀ id, id ∉ ds.map Draining.id → c'.specBufs id = c.specBufs id ∧ specs' id = specs id
  kept : ∀ dtsd ∈ ds, ∀ dtsb, c.specBufs dtsd.id = some dtsb →
    dtsd.read + dtsb.data.length < dtsb.spec.written →
      c'.specBufs dtsd.id = some { dtsb with size := 0, data := [] } ∧
      specs' dtsd.id = specs dtsd.id ∧
      ⟨dtsd.id, dtsd.read + dtsb.data.length⟩ ∈ c'.draining
  gone : ∀ dtsd ∈ ds, ∀ dtsb, c.specBufs dtsd.id = some dtsb →
    dtsb.spec.written ≤ dtsd.read + dtsb.data.length →
      c'.specBufs dtsd.id = none ∧ specs' dtsd.id = none
  mono : ∀ x ∈ c.draining, x ∈ c'.draining
  source : ∀ x ∈ c'.draining, x ∈ c.draining ∨ ∃ dtsd ∈ ds, dtsd.id = x.id ∧
    ∃ dtsb, c.specBufs x.id = some dtsb ∧ dtsd.read + dtsb.data.length < dtsb.spec.written
  sublist : (c'.draining.map Draining.id).Sublist ((c.draining ++ ds).map Draining.id)

theorem released_congr (h : c'.specBufs dtsd.id = c.specBufs dtsd.id) :
    released c' dtsd = released c dtsd := by
  simp [released, h]

theorem Drained.nil (c : Consumer α) (specs : SpecMap) : Drained [] c c specs specs where
  delivered := by simp
  other := fun _ _ => ⟨rfl, rfl⟩
  kept := by simp
  gone := by simp
  mono := fun _ hx => hx
  source := fun _ hx => Or.inl hx
  sublist := by simp

/-- The entries of the list have different IDs, so the walk is one entry after the other. -/
theorem Drained.cons {ds : List Draining} {c1 : Consumer α} {specs specs1 specs' : SpecMap}
    (hnew : dtsd.id ∉ ds.map Draining.id) (h1 : Drained [dtsd] c c1 specs specs1)
    (h : Drained ds c1 c' specs1 specs') : Drained (dtsd :: ds) c c' specs specs' := by
  -- the entries of the rest are untouched by the first one
  have hrest : ∀ x ∈ ds, c1.specBufs x.id = c.specBufs x.id ∧ specs1 x.id = specs x.id := by
    intro x hx
    refine h1.other x.id fun hmem => hnew ?_
    rw [map_singleton, mem_singleton] at hmem
    exact hmem ▸ mem_map_of_mem hx
  have hfirst := h.other dtsd.id hnew
  refine ⟨?_, ?_, ?_, ?_, fun x hx => h.mono x (h1.mono x hx), ?_, ?_⟩
  · have hcongr : ds.flatMap (released c1) = ds.flatMap (released c) :=
      flatMap_congr fun x hx => released_congr (hrest x hx).1
    rw [h.delivered, h1.delivered, hcongr]
    simp
  · intro id hid
    rw [map_cons, mem_cons, not_or] at hid
    have hone := h1.other id (by simpa using hid.1)
    rw [(h.other id hid.2).1, (h.other id hid.2).2]
    exact hone
  · intro x hx dtsb hbuf hlt
    rcases mem_cons.mp hx with rfl | hx
    · obtain ⟨hb, hs, hmem⟩ := h1.kept x (by simp) dtsb hbuf hlt
      rw [hfirst.1, hfirst.2]
      exact ⟨hb, hs, h.mono _ hmem⟩
    · rw [← (hrest x hx).2]
      exact h.kept x hx dtsb ((hrest x hx).1.trans hbuf) hlt
  · intro x hx dtsb hbuf hle
    rcases mem_cons.mp hx with rfl | hx
    · rw [hfirst.1, hfirst.2]
      exact h1.gone x (by simp) dtsb hbuf hle
    · exact h.gone x hx dtsb ((hrest x hx).1.trans hbuf) hle
  · intro x hx
    rcases h.source x hx with hx | ⟨y, hy, hid, dtsb, hbuf, hlt⟩
    · rcases h1.source x hx with hx | ⟨y, hy, hrest⟩
      · exact Or.inl hx
      · exact Or.inr ⟨y, mem_cons.mpr (Or.inl (mem_singleton.mp hy)), hrest⟩
    · refine Or.inr ⟨y, mem_cons_of_mem _ hy, hid, dtsb, ?_, hlt⟩
      rw [← hid] at hbuf ⊢
      exact (hrest y hy).1.symm.trans hbuf
  · refine h.sublist.trans ?_
    have hsub := h1.sublist
    simpa using hsub.append_right (ds.map Draining.id)

/-- The consumer after one entry of the walk. -/
def afterOne (c : Consumer α) (dtsd : Draining) (dtsb : SpecBuf α) : Consumer α :=
  let c' := { c with delivered := c.delivered ++ released c dtsd }
  let read := dtsd.read + dtsb.data.length
  if read < dtsb.spec.written then
    { c'.setBuf dtsd.id (some { dtsb with size := 0, data := [] }) with
      draining := c.draining ++ [⟨dtsd.id, read⟩] }
  else c'.setBuf dtsd.id none

def specsAfterOne (specs : SpecMap) (dtsd : Draining) (dtsb : SpecBuf α) : SpecMap :=
  if dtsd.read + dtsb.data.length < dtsb.spec.written then specs
  else Function.update specs dtsd.id none

/-- One entry. -/
theorem drained_one {dtsb : SpecBuf α} (specs : SpecMap) (hbuf : c.specBufs dtsd.id = some dtsb) :
    Drained [dtsd] c (afterOne c dtsd dtsb) specs (specsAfterOne specs dtsd dtsb) := by
  unfold afterOne specsAfterOne
  by_cases hlt : dtsd.read + dtsb.data.length < dtsb.spec.written
  · -- some data is still on its way: the entry stays
    simp only [hlt]
    refine ⟨by simp, ?_, ?_, ?_, ?_, ?_, by simp⟩
    · intro id hid
      exact ⟨Consumer.setBuf_of_ne _ _ _ (by simpa using hid), rfl⟩
    · simp only [mem_singleton, forall_eq, hbuf]
      simp
    · simp only [mem_singleton, forall_eq, hbuf, some.injEq]
      rintro _ rfl hle
      omega
    · intro x hx
      simp [hx]
    · intro x hx
      rcases mem_append.mp hx with hx | hx
      · exact Or.inl hx
      · obtain rfl := mem_singleton.mp hx
        exact Or.inr ⟨dtsd, by simp, rfl, dtsb, hbuf, hlt⟩
  · -- all of its data has been read: entry, buffer and ID are given up
    simp only [hlt]
    refine ⟨by simp, ?_, ?_, ?_, fun x hx => hx, fun x hx => Or.inl hx, by simp⟩
    · intro id hid
      have hne : id ≠ dtsd.id := by simpa using hid
      exact ⟨Consumer.setBuf_of_ne _ _ _ hne, Function.update_of_ne hne _ _⟩
    · simp only [mem_singleton, forall_eq, hbuf, some.injEq]
      rintro _ rfl hlt'
      omega
    · simp only [mem_singleton]
      simp

/-- The first round of the loop. -/
theorem drain_cons (hcb : cb.Continues) {dtsb : SpecBuf α} (hbuf : c.specBufs dtsd.id = some dtsb)
    (hrec : ∀ b ∈ dtsb.data, ∀ a ∈ b.acts, a = .record) (rest : List Draining) (specs : SpecMap) :
    drain cb (dtsd :: rest) c specs =
      drain cb rest (afterOne c dtsd dtsb) (specsAfterOne specs dtsd dtsb) := by
  have hcommit : (if dtsb.committing then dtCommitOneSpec cb specs dtsb.data c else (c, .okay)) =
      ({ c with delivered := c.delivered ++ released c dtsd }, .okay) := by
    unfold released
    rw [hbuf]
    by_cases hc : dtsb.committing = true
    · simp [hc, dtCommitOneSpec_eq hcb specs hrec]
    · simp [hc]
  rw [drain, hbuf]
  simp only [hcommit]
  unfold afterOne specsAfterOne
  by_cases hlt : dtsd.read + dtsb.data.length < dtsb.spec.written
  · simp only [hlt, if_true]
  · simp only [hlt, if_false]

/-- **The walk**: every entry is drained on its own, and no callback is left out. -/
theorem drain_drained (hcb : cb.Continues) :
    ∀ (ds : List Draining) (c : Consumer α) (specs : SpecMap),
      (ds.map Draining.id).Nodup →
      (∀ dtsd ∈ ds, ∃ dtsb, c.specBufs dtsd.id = some dtsb ∧
        ∀ b ∈ dtsb.data, ∀ a ∈ b.acts, a = .record) →
      ∃ c' specs', drain cb ds c specs = (c', specs', .okay) ∧ Drained ds c c' specs specs' := by
  intro ds
  induction ds with
  | nil =>
    intro c specs _ _
    exact ⟨c, specs, rfl, Drained.nil c specs⟩
  | cons dtsd ds ih =>
    intro c specs hnodup hbufs
    obtain ⟨hnew, hnodup⟩ := nodup_cons.mp hnodup
    obtain ⟨dtsb, hbuf, hrec⟩ := hbufs dtsd (by simp)
    have hone := drained_one specs hbuf
    have hrest : ∀ x ∈ ds, ∃ dtsb', (afterOne c dtsd dtsb).specBufs x.id = some dtsb' ∧
        ∀ b ∈ dtsb'.data, ∀ a ∈ b.acts, a = .record := by
      intro x hx
      have hne : x.id ∉ [dtsd].map Draining.id := by
        rw [map_singleton, mem_singleton]
        exact fun h => hnew (h ▸ mem_map_of_mem hx)
      rw [(hone.other x.id hne).1]
      exact hbufs x (mem_cons_of_mem _ hx)
    obtain ⟨c', specs', heq, hd⟩ := ih _ (specsAfterOne specs dtsd dtsb) hnodup hrest
    refine ⟨c', specs', ?_, hone.cons hnew hd⟩
    rw [drain_cons hcb hbuf hrec, heq]

end DTrace.Speculation
