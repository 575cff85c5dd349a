import DTrace.Speculation.Drain
import DTrace.Speculation.Trail

/-!
# The consumer keeps the trails

`Tracks` relates the consumer's tables to one trail per speculation: what is waiting is what
the spec buf holds, a decided speculation is on the draining list with its count, and what has
been delivered is what the trail let out. The records of a buffer (`Tracks.scan`) and the walk
that follows them (`Tracks.drain`) keep the relation, with the trails judged and flushed.
-/

namespace DTrace.Speculation

open List Option

variable {α : Type*}

/-- The speculation a record names. -/
def Act.ref? : Act → Option SpecRef
  | .commit r | .discard r => some r
  | .record => none

/-- `k` is the speculation that has its ID now. -/
def Current (specs : SpecMap) (k : SpecRef) : Prop :=
  ∃ spec, specs k.id = some spec ∧ spec.serial = k.serial

/-- One ID, one speculation. -/
theorem Current.unique {specs : SpecMap} {k k' : SpecRef} (h : Current specs k)
    (h' : Current specs k') (hid : k.id = k'.id) : k = k' := by
  obtain ⟨_, _, _⟩ := h
  obtain ⟨_, _, _⟩ := h'
  cases k; cases k'
  simp_all

/-- The table entry of a speculation against its trail: nothing seen yet, data held back, or
being drained. -/
inductive BufOk (spec : BpfSpecs) (quiet : Prop) (list : List Draining) (id : Nat) (t : Trail α) :
    Option (SpecBuf α) → Prop
  | unseen (mode : t.mode = none) (waiting : t.waiting = []) (taken : t.taken = 0) :
    BufOk spec quiet list id t none
  | held {dtsb : SpecBuf α} (data : dtsb.data = t.waiting) (mode : t.mode = none)
    (draining : dtsb.spec.draining = false) (waiting : t.waiting ≠ []) (taken : t.taken = 0) :
    BufOk spec quiet list id t (some dtsb)
  | drained {dtsb : SpecBuf α} (data : dtsb.data = t.waiting)
    (mode : t.mode = some dtsb.committing) (draining : dtsb.spec.draining = true)
    (written : dtsb.spec.written = spec.written) (marked : spec.draining = true) (still : quiet)
    (mem : ⟨id, t.taken⟩ ∈ list) : BufOk spec quiet list id t (some dtsb)

/-- An entry stays right when the list grows and a decided speculation stays as it is. -/
theorem BufOk.imp {spec spec' : BpfSpecs} {quiet quiet' : Prop} {list list' : List Draining}
    {id : Nat} {t : Trail α} {dtsb : Option (SpecBuf α)} (h : BufOk spec quiet list id t dtsb)
    (hsub : list ⊆ list') (hstep : spec.draining = true → quiet →
      spec'.written = spec.written ∧ spec'.draining = true ∧ quiet') :
    BufOk spec' quiet' list' id t dtsb := by
  cases h with
  | unseen mode waiting taken => exact .unseen mode waiting taken
  | held data mode draining waiting taken => exact .held data mode draining waiting taken
  | drained data mode draining written marked still mem =>
    obtain ⟨hw, hd, hq⟩ := hstep marked still
    exact .drained data mode draining (written.trans hw.symm) hd hq (hsub mem)

/-- The consumer against the trails `T`: the entry of each speculation that has its ID (`live`);
nothing waits of the others (`past`); the draining list has each decided one once (`nodup`,
`listed`); and the callbacks got what the trails let out (`delivered`). -/
structure Tracks (specs : SpecMap) (quiet : SpecRef → Prop) (c : Consumer α)
    (T : SpecRef → Trail α) : Prop where
  live : ∀ k spec, specs k.id = some spec → spec.serial = k.serial →
    BufOk spec (quiet k) c.draining k.id (T k) (c.specBufs k.id)
  past : ∀ k, k.id ≠ 0 → ¬Current specs k → (T k).waiting = []
  own : ∀ k, k.id ≠ 0 → ∀ b ∈ (T k).waiting, b.spec = k ∧ ∀ a ∈ b.acts, a = .record
  zero : specs 0 = none
  noBuf : ∀ id, specs id = none → c.specBufs id = none
  nodup : (c.draining.map Draining.id).Nodup
  listed : ∀ x ∈ c.draining, ∃ dtsb, c.specBufs x.id = some dtsb ∧ dtsb.spec.draining = true
  delivered : ∀ k, k.id ≠ 0 → c.delivered.filter (·.spec = k) = (T k).out

namespace Tracks

variable {specs : SpecMap} {quiet : SpecRef → Prop} {c : Consumer α} {T : SpecRef → Trail α}

theorem id_ne_zero (h : Tracks specs quiet c T) {id : Nat} {spec : BpfSpecs}
    (hs : specs id = some spec) : id ≠ 0 := by
  rintro rfl
  rw [h.zero] at hs
  cases hs

/-- An entry of the table belongs to the speculation that has the ID. -/
theorem owner (h : Tracks specs quiet c T) {id : Nat} {dtsb : SpecBuf α}
    (hbuf : c.specBufs id = some dtsb) :
    ∃ k spec, k.id = id ∧ id ≠ 0 ∧ specs k.id = some spec ∧ spec.serial = k.serial ∧
      dtsb.data = (T k).waiting ∧ (dtsb.spec.draining = true ↔ (T k).mode ≠ none) := by
  cases hs : specs id with
  | none => rw [h.noBuf id hs] at hbuf; cases hbuf
  | some spec =>
    refine ⟨⟨id, spec.serial⟩, spec, rfl, h.id_ne_zero hs, hs, rfl, ?_⟩
    have hok := h.live ⟨id, spec.serial⟩ spec hs rfl
    rw [hbuf] at hok
    cases hok with
    | held data mode draining | drained data mode draining => exact ⟨data, by simp [mode, draining]⟩

/-! ## The records of a buffer

A commit or discard record has an effect only if there is data and no verdict so far. In all other
cases the consumer ignores it, and so does `judge`. -/

/-- A record takes effect only on the speculation it was made for, with no clause about to
add to it; such a speculation is marked in the map. -/
structure ActsOk (specs : SpecMap) (quiet : SpecRef → Prop) (c : Consumer α) (acts : List Act) :
    Prop where
  meant : ∀ a ∈ acts, ∀ r, a.ref? = some r → ∀ dtsb, c.specBufs r.id = some dtsb →
    dtsb.spec.draining = false → Current specs r ∧ quiet r
  marked : ∀ a ∈ acts, ∀ r, a.ref? = some r → ∀ spec, specs r.id = some spec →
    spec.serial = r.serial → spec.draining = true

section

variable (h : Tracks specs quiet c T)

include h

theorem judge_of_not_effective {r : SpecRef} (hr : r.id ≠ 0)
    (hno : ∀ dtsb, c.specBufs r.id = some dtsb → dtsb.spec.draining = true) (acts : List Act) :
    (T r).judge r acts = T r := by
  by_cases hcur : Current specs r
  · obtain ⟨spec, hs, hser⟩ := hcur
    cases hb : c.specBufs r.id with
    | none =>
      cases hb ▸ h.live r spec hs hser with
      | unseen _ waiting => exact Trail.judge_of_waiting_nil waiting acts
    | some dtsb =>
      cases hb ▸ h.live r spec hs hser with
      | held _ _ draining => exact absurd (hno dtsb hb) (by simp [draining])
      | drained _ mode => exact Trail.judge_of_mode mode acts
  · exact Trail.judge_of_waiting_nil (h.past r hr hcur) acts

theorem congr {T' : SpecRef → Trail α}
    (heq : ∀ k, k.id ≠ 0 → T' k = T k) : Tracks specs quiet c T' where
  live k spec hs hser := by
    rw [heq k (h.id_ne_zero hs)]
    exact h.live k spec hs hser
  past k hk hcur := by rw [heq k hk]; exact h.past k hk hcur
  own k hk := by rw [heq k hk]; exact h.own k hk
  zero := h.zero
  noBuf := h.noBuf
  nodup := h.nodup
  listed := h.listed
  delivered k hk := by rw [heq k hk]; exact h.delivered k hk

/-- A record that takes effect puts its speculation on the draining list. -/
theorem start_effective {a : Act} {r : SpecRef} {v : Bool}
    {dtsb : SpecBuf α} {spec : BpfSpecs} (hv : ∀ k, a.verdict k = if r = k then some v else none)
    (hbuf : c.specBufs r.id = some dtsb) (hdr : dtsb.spec.draining = false)
    (hs : specs r.id = some spec) (hser : spec.serial = r.serial) (hmark : spec.draining = true)
    (hq : quiet r) :
    let c' := c.setBuf r.id (some { dtsb with committing := v, spec := spec })
    Tracks specs quiet { c' with draining := c'.draining ++ [⟨r.id, 0⟩] }
      (fun k => (T k).judge k [a]) := by
  have hother : ∀ k, k ≠ r → (T k).judge k [a] = T k := fun k hk =>
    Trail.judge_of_verdict_none (by simp [hv, hk.symm]) (T k)
  have hcur : Current specs r := ⟨spec, hs, hser⟩
  refine ⟨?_, ?_, ?_, h.zero, ?_, ?_, ?_, ?_⟩
  · intro k spec' hs' hser'
    by_cases hid : k.id = r.id
    · obtain rfl : k = r := Current.unique ⟨spec', hs', hser'⟩ hcur hid
      obtain rfl : spec = spec' := some.inj (hs.symm.trans hs')
      rw [show (Consumer.specBufs _ k.id) = _ from Consumer.setBuf_self c k.id _]
      cases hbuf ▸ h.live k spec hs hser with
      | drained _ _ draining => rw [hdr] at draining; cases draining
      | held data mode _ waiting taken =>
        refine .drained ?_ ?_ hmark rfl hmark hq ?_
        · simpa using data
        · simp [Trail.judge, mode, waiting, hv]
        · simp [taken]
    · have hne : k ≠ r := fun hk => hid (hk ▸ rfl)
      rw [hother k hne, show (Consumer.specBufs _ k.id) = _ from Consumer.setBuf_of_ne c r.id _ hid]
      exact (h.live k spec' hs' hser').imp (subset_append_left ..) fun hd hq => ⟨rfl, hd, hq⟩
  · intro k hk hpast
    simpa using h.past k hk hpast
  · intro k hk
    simpa using h.own k hk
  · intro id hid
    have hne : id ≠ r.id := fun h0 => by rw [h0, hs] at hid; cases hid
    rw [show (Consumer.specBufs _ id) = _ from Consumer.setBuf_of_ne c r.id _ hne]
    exact h.noBuf id hid
  · have hnew : r.id ∉ c.draining.map Draining.id := by
      intro hmem
      obtain ⟨x, hx, hxid⟩ := mem_map.mp hmem
      obtain ⟨_, hb', hd'⟩ := h.listed x hx
      rw [hxid, hbuf] at hb'
      rw [← some.inj hb', hdr] at hd'
      cases hd'
    simpa using h.nodup.concat hnew
  · intro x hx
    by_cases hid : x.id = r.id
    · rw [hid]
      exact ⟨_, Consumer.setBuf_self c r.id _, hmark⟩
    · rw [show (Consumer.specBufs _ x.id) = _ from Consumer.setBuf_of_ne c r.id _ hid]
      rcases mem_append.mp hx with hx | hx
      · exact h.listed x hx
      · exact absurd (congrArg Draining.id (mem_singleton.mp hx)) hid
  · intro k hk
    simpa using h.delivered k hk

/-- One commit or discard record. -/
theorem start {a : Act} {r : SpecRef} {v : Bool}
    (href : a.ref? = some r) (hv : ∀ k, a.verdict k = if r = k then some v else none)
    (hok : ActsOk specs quiet c [a]) :
    ∃ c', startDrain specs 0 r.id v c = some c' ∧
      Tracks specs quiet c' (fun k => (T k).judge k [a]) ∧
      ∀ id dtsb, c'.specBufs id = some dtsb → dtsb.spec.draining = false →
        c.specBufs id = some dtsb := by
  by_cases heff : ∃ dtsb, c.specBufs r.id = some dtsb ∧ dtsb.spec.draining = false
  · obtain ⟨dtsb, hbuf, hdr⟩ := heff
    obtain ⟨⟨spec, hs, hser⟩, hq⟩ := hok.meant a (by simp) r href dtsb hbuf hdr
    have hmark := hok.marked a (by simp) r href spec hs hser
    refine ⟨_, ?_, h.start_effective hv hbuf hdr hs hser hmark hq, ?_⟩
    · simp [startDrain, hbuf, hdr, hs, hmark]
    · intro id dtsb' hb' hd'
      by_cases hid : id = r.id
      · rw [hid, show (Consumer.specBufs _ r.id) = _ from Consumer.setBuf_self c r.id _] at hb'
        rw [← some.inj hb'] at hd'
        rw [show spec.draining = false from hd'] at hmark
        cases hmark
      · exact (Consumer.setBuf_of_ne c r.id _ hid).symm.trans hb'
  · have hno : ∀ dtsb, c.specBufs r.id = some dtsb → dtsb.spec.draining = true := fun dtsb hb => by
      simpa using fun hd => heff ⟨dtsb, hb, hd⟩
    refine ⟨c, ?_, h.congr fun k hk => ?_, fun _ _ hb _ => hb⟩
    · cases hb : c.specBufs r.id with
      | none => simp [startDrain, hb]
      | some dtsb => simp [startDrain, hb, hno dtsb hb]
    · by_cases hkr : r = k
      · subst hkr
        exact h.judge_of_not_effective hk hno [a]
      · exact Trail.judge_of_verdict_none (by simp [hv, hkr]) (T k)

end

/-- **The records of a buffer** judge the trails, and no error comes up. -/
theorem scan {cb : Callbacks α} (hcb : cb.Continues) {b : Buf α} (hb : b.spec.id = 0)
    (acts : List Act) (i : Nat) (h : Tracks specs quiet c T) (hok : ActsOk specs quiet c acts) :
    ∃ c', scanActs cb specs b acts i c = (c', .okay) ∧
      Tracks specs quiet c' (fun k => (T k).judge k acts) := by
  induction acts generalizing i c T with
  | nil => exact ⟨c, rfl, h.congr fun k _ => Trail.judge_nil k (T k)⟩
  | cons a acts ih =>
    have hhead : ActsOk specs quiet c [a] :=
      ⟨fun x hx => hok.meant x (by simp_all), fun x hx => hok.marked x (by simp_all)⟩
    have htail : ActsOk specs quiet c acts :=
      ⟨fun x hx => hok.meant x (by simp [hx]), fun x hx => hok.marked x (by simp [hx])⟩
    have hcons : ∀ k, (T k).judge k (a :: acts) = ((T k).judge k [a]).judge k acts := fun k =>
      Trail.judge_cons k a acts (T k)
    simp only [hcons]
    -- a commit and a discard differ in the verdict only
    have hstart : ∀ r v, a.ref? = some r → (∀ k, a.verdict k = if r = k then some v else none) →
        ∃ c1 c', startDrain specs 0 r.id v c = some c1 ∧
          scanActs cb specs b acts (i + 1) c1 = (c', .okay) ∧
          Tracks specs quiet c' (fun k => ((T k).judge k [a]).judge k acts) := by
      intro r v href hv
      obtain ⟨c1, hc1, h1, hback⟩ := h.start href hv hhead
      have hok1 : ActsOk specs quiet c1 acts :=
        ⟨fun x hx r' hr' dtsb hb hd => htail.meant x hx r' hr' dtsb (hback _ dtsb hb hd) hd,
          htail.marked⟩
      obtain ⟨c', hc', h'⟩ := ih (i + 1) h1 hok1
      exact ⟨c1, c', hc1, hc', h'⟩
    cases a with
    | commit r =>
      obtain ⟨c1, c', hc1, hc', h'⟩ := hstart r true rfl fun k => rfl
      exact ⟨c', by simp [scanActs, hb, hc1, hc'], h'⟩
    | discard r =>
      obtain ⟨c1, c', hc1, hc', h'⟩ := hstart r false rfl fun k => rfl
      exact ⟨c', by simp [scanActs, hb, hc1, hc'], h'⟩
    | record =>
      obtain ⟨c', hc', h'⟩ := ih (i + 1) h htail
      refine ⟨c', by rw [scanActs_record hcb, hc'], h'.congr fun k _ => ?_⟩
      rw [Trail.judge_of_verdict_none rfl]

/-! ## The walk over the draining list

`Drained` says what is left of each entry; here it is read as a flush of every trail. The entry of a
speculation is deleted when as much has been read as was written, and then nothing more can come. -/

/-- An entry of the list stands for a speculation that is decided, with the count it has. -/
theorem entry (h : Tracks specs quiet c T) {x : Draining} (hx : x ∈ c.draining) :
    ∃ k spec dtsb, k.id = x.id ∧ k.id ≠ 0 ∧ specs k.id = some spec ∧ spec.serial = k.serial ∧
      c.specBufs k.id = some dtsb ∧ dtsb.data = (T k).waiting ∧
      (T k).mode = some dtsb.committing ∧ dtsb.spec.written = spec.written ∧ quiet k ∧
      x.read = (T k).taken := by
  obtain ⟨dtsb, hbuf, hdr⟩ := h.listed x hx
  obtain ⟨k, spec, hid, h0, hs, hser, -, -⟩ := h.owner hbuf
  rw [← hid] at hbuf h0
  refine ⟨k, spec, dtsb, hid, h0, hs, hser, hbuf, ?_⟩
  cases hbuf ▸ h.live k spec hs hser with
  | held _ _ draining => rw [hdr] at draining; cases draining
  | drained data mode _ written _ still mem =>
    have hxeq : x = ⟨k.id, (T k).taken⟩ := inj_on_of_nodup_map h.nodup hx mem hid.symm
    exact ⟨data, mode, written, still, congrArg Draining.read hxeq⟩

/-- What an entry releases belongs to its speculation, which is being committed. -/
theorem released_spec (h : Tracks specs quiet c T) {x : Draining} (hx : x ∈ c.draining)
    {b : Buf α} (hb : b ∈ released c x) :
    b.spec.id = x.id ∧ (T b.spec).mode = some true ∧ Current specs b.spec := by
  obtain ⟨k, spec, dtsb, hid, h0, hs, hser, hbuf, hdata, hmode, -, -, -⟩ := h.entry hx
  rw [released, ← hid, hbuf] at hb
  cases hc : dtsb.committing with
  | false => simp [hc] at hb
  | true =>
    have hbk : b.spec = k := (h.own k h0 b (by simpa [hc, hdata] using hb)).1
    rw [hbk]
    exact ⟨hid, hc ▸ hmode, spec, hs, hser⟩

theorem filter_flatMap_of_nodup {β γ : Type*} {p : γ → Bool} {f : β → List γ} {l : List β} {a : β}
    (hnodup : l.Nodup) (ha : a ∈ l) (h : ∀ x ∈ l, x ≠ a → (f x).filter p = []) :
    (l.flatMap f).filter p = (f a).filter p := by
  obtain ⟨l1, l2, rfl⟩ := append_of_mem ha
  have hnil : ∀ l' : List β, (∀ x ∈ l', x ∈ l1 ++ a :: l2 ∧ x ≠ a) →
      (l'.flatMap f).filter p = [] := by
    intro l' hl'
    rw [filter_flatMap, flatMap_eq_nil_iff]
    exact fun x hx => h x (hl' x hx).1 (hl' x hx).2
  have hne := nodup_middle.mp hnodup
  rw [nodup_cons, mem_append, not_or] at hne
  rw [flatMap_append, flatMap_cons, filter_append, filter_append,
    hnil l1 fun x hx => ⟨by simp [hx], fun hxa => hne.1.1 (hxa ▸ hx)⟩,
    hnil l2 fun x hx => ⟨by simp [hx], fun hxa => hne.1.2 (hxa ▸ hx)⟩]
  simp

/-- The walk lets out of each trail what flushing it does. -/
theorem out_flush (h : Tracks specs quiet c T) {k : SpecRef} (hk : k.id ≠ 0) :
    (c.delivered ++ c.draining.flatMap (released c)).filter (·.spec = k) = (T k).flush.out := by
  rw [filter_append, h.delivered k hk]
  have hnone : (∀ x ∈ c.draining, ∀ b ∈ released c x, b.spec ≠ k) →
      (c.draining.flatMap (released c)).filter (·.spec = k) = [] := by
    intro hall
    rw [filter_eq_nil_iff]
    intro b hb
    obtain ⟨x, hx, hbx⟩ := mem_flatMap.mp hb
    simpa using hall x hx b hbx
  by_cases hcur : Current specs k
  · obtain ⟨spec, hs, hser⟩ := hcur
    cases hm : (T k).mode with
    | none =>
      rw [hnone fun x hx b hb hbk => ?_, Trail.flush_of_none hm, append_nil]
      have hmode := (h.released_spec hx hb).2.1
      rw [hbk, hm] at hmode
      cases hmode
    | some v =>
      cases hbuf : c.specBufs k.id with
      | none =>
        cases hbuf ▸ h.live k spec hs hser with
        | unseen mode => rw [hm] at mode; cases mode
      | some dtsb =>
        cases hbuf ▸ h.live k spec hs hser with
        | held _ mode => rw [hm] at mode; cases mode
        | drained data mode _ _ _ _ mem =>
          have hself : (T k).waiting.filter (·.spec = k) = (T k).waiting :=
            filter_eq_self.mpr fun b hb => by simp [(h.own k hk b hb).1]
          have hv : v = dtsb.committing := some.inj (hm.symm.trans mode)
          rw [filter_flatMap_of_nodup h.nodup.of_map mem fun x hx hne => ?_]
          · rw [Trail.flush_of_some hm, released, hbuf, hv]
            cases hc : dtsb.committing <;> simp [hc, data, hself]
          · -- another entry has another ID, so its data is of another speculation
            rw [filter_eq_nil_iff]
            intro b hb
            have hid := (h.released_spec hx hb).1
            have hxid : x.id ≠ k.id := fun heq =>
              hne (inj_on_of_nodup_map h.nodup hx mem heq)
            simpa using fun hbk : b.spec = k => hxid (hid.symm.trans (congrArg SpecRef.id hbk))
  · rw [hnone fun x hx b hb hbk => hcur (hbk ▸ (h.released_spec hx hb).2.2),
      Trail.flush_of_waiting_nil (h.past k hk hcur), append_nil]

section
variable (h : Tracks specs quiet c T) {c' : Consumer α} {specs' : SpecMap}
  (hd : Drained c.draining { c with draining := [] } c' specs specs')

include h hd

/-- What the walk leaves of the entry of a speculation that keeps its ID. -/
theorem bufOk_drained {k : SpecRef} {spec : BpfSpecs} (hs : specs k.id = some spec)
    (hser : spec.serial = k.serial) (hs' : specs' k.id = some spec) :
    BufOk spec (quiet k) c'.draining k.id (T k).flush (c'.specBufs k.id) := by
  have hnot : (∀ x ∈ c.draining, x.id ≠ k.id) → c'.specBufs k.id = c.specBufs k.id := fun hno =>
    (hd.other k.id fun hmem => by
      obtain ⟨x, hx, hxid⟩ := mem_map.mp hmem
      exact hno x hx hxid).1
  cases hbuf : c.specBufs k.id with
  | none =>
    cases hbuf ▸ h.live k spec hs hser with
    | unseen mode waiting taken =>
      rw [hnot fun x hx hxid => ?_, hbuf, Trail.flush_of_none mode]
      · exact .unseen mode waiting taken
      · obtain ⟨dtsb, hb, -⟩ := h.listed x hx
        rw [hxid, hbuf] at hb
        cases hb
  | some dtsb =>
    cases hbuf ▸ h.live k spec hs hser with
    | held data mode draining waiting taken =>
      rw [hnot fun x hx hxid => ?_, hbuf, Trail.flush_of_none mode]
      · exact .held data mode draining waiting taken
      · obtain ⟨dtsb', hb, hdr⟩ := h.listed x hx
        rw [hxid, hbuf] at hb
        rw [← some.inj hb, draining] at hdr
        cases hdr
    | drained data mode draining written marked still mem =>
      by_cases hlt : (T k).taken + dtsb.data.length < dtsb.spec.written
      · obtain ⟨hb', -, hmem'⟩ := hd.kept _ mem dtsb hbuf hlt
        rw [hb', Trail.flush_of_some mode]
        exact .drained rfl rfl draining written marked still (data ▸ hmem')
      · have hnone := (hd.gone _ mem dtsb hbuf (Nat.le_of_not_lt hlt)).2
        rw [hnone] at hs'
        cases hs'

/-- A speculation that lost its ID was on the list and had everything read. -/
theorem lost_of_drained {k : SpecRef} {spec : BpfSpecs} (hs : specs k.id = some spec)
    (hser : spec.serial = k.serial) (hgone : ¬Current specs' k) {pending : Nat}
    (hcount : (T k).taken + (T k).waiting.length + pending ≤ spec.written) :
    (T k).mode ≠ none ∧ pending = 0 ∧ quiet k := by
  have hmem : k.id ∈ c.draining.map Draining.id := by
    by_contra hmem
    exact hgone ⟨spec, (hd.other k.id hmem).2.trans hs, hser⟩
  obtain ⟨x, hx, hxid⟩ := mem_map.mp hmem
  obtain ⟨k', spec', dtsb, hid, -, hs', hser', hbuf, hdata, hmode, hwr, hq, hread⟩ := h.entry hx
  obtain rfl : k' = k :=
    Current.unique ⟨spec', hs', hser'⟩ ⟨spec, hs, hser⟩ (hid.trans hxid)
  obtain rfl : spec = spec' := some.inj (hs.symm.trans hs')
  refine ⟨by simp [hmode], ?_, hq⟩
  have hle : dtsb.spec.written ≤ x.read + dtsb.data.length := by
    by_contra hlt
    have hkept := (hd.kept x hx dtsb (hid ▸ hbuf) (Nat.lt_of_not_le hlt)).2.1
    rw [hxid] at hkept
    exact hgone ⟨spec, hkept.trans hs, hser⟩
  rw [hread, hdata, hwr] at hle
  omega

end

/-- **The walk** flushes the trails. A speculation that loses its ID has no data outstanding:
it is dropped when as many buffers were read as were counted in the map. -/
theorem drain {cb : Callbacks α} (hcb : cb.Continues) {pending : SpecRef → Nat}
    (h : Tracks specs quiet c T)
    (hcount : ∀ k spec, specs k.id = some spec → spec.serial = k.serial →
      (T k).taken + (T k).waiting.length + pending k ≤ spec.written) :
    ∃ c' specs', Speculation.drain cb c.draining { c with draining := [] } specs =
        (c', specs', .okay) ∧
      Tracks specs' quiet c' (fun k => (T k).flush) ∧
      (∀ id, specs' id = specs id ∨ specs' id = none) ∧
      ∀ k, Current specs k → ¬Current specs' k → pending k = 0 ∧ quiet k := by
  set c0 : Consumer α := { c with draining := [] } with hc0
  have hbufs : ∀ x ∈ c.draining, ∃ dtsb, c0.specBufs x.id = some dtsb ∧
      ∀ b ∈ dtsb.data, ∀ a ∈ b.acts, a = .record := by
    intro x hx
    obtain ⟨k, _, dtsb, hid, h0, -, -, hbuf, hdata, -⟩ := h.entry hx
    exact ⟨dtsb, hid ▸ hbuf, fun b hb => (h.own k h0 b (hdata ▸ hb)).2⟩
  obtain ⟨c', specs', heq, hd⟩ := drain_drained hcb c.draining c0 specs h.nodup hbufs
  have hsource : ∀ x ∈ c'.draining, ∃ y ∈ c.draining, y.id = x.id ∧
      ∃ dtsb, c.specBufs x.id = some dtsb ∧ y.read + dtsb.data.length < dtsb.spec.written := by
    intro x hx
    rcases hd.source x hx with hx | hy
    · cases hx
    · exact hy
  have hfate : ∀ id, specs' id = specs id ∧ (c.specBufs id = none → c'.specBufs id = none) ∨
      specs' id = none ∧ c'.specBufs id = none := by
    intro id
    by_cases hid : id ∈ c.draining.map Draining.id
    · obtain ⟨x, hx, rfl⟩ := mem_map.mp hid
      obtain ⟨dtsb, hbuf, -⟩ := hbufs x hx
      by_cases hlt : x.read + dtsb.data.length < dtsb.spec.written
      · refine .inl ⟨(hd.kept x hx dtsb hbuf hlt).2.1, fun hnone => ?_⟩
        cases hbuf.symm.trans hnone
      · exact .inr (hd.gone x hx dtsb hbuf (Nat.le_of_not_lt hlt)).symm
    · exact .inl ⟨(hd.other id hid).2, fun hnone => (hd.other id hid).1.trans hnone⟩
  have hspecs : ∀ id, specs' id = specs id ∨ specs' id = none :=
    fun id => (hfate id).imp And.left And.left
  have hback : ∀ {id spec}, specs' id = some spec → specs id = some spec := by
    intro id spec hs
    rcases hspecs id with h' | h'
    · exact h' ▸ hs
    · rw [h'] at hs; cases hs
  have hlost : ∀ k, Current specs k → ¬Current specs' k →
      (T k).mode ≠ none ∧ pending k = 0 ∧ quiet k := by
    rintro k ⟨spec, hs, hser⟩ hgone
    exact h.lost_of_drained hd hs hser hgone (hcount k spec hs hser)
  refine ⟨c', specs', heq, ⟨?_, ?_, ?_, ?_, ?_, ?_, ?_, ?_⟩, hspecs,
    fun k hk hk' => (hlost k hk hk').2⟩
  · exact fun k spec hs hser => h.bufOk_drained hd (hback hs) hser hs
  · intro k hk hpast
    by_cases hcur : Current specs k
    · obtain ⟨v, hv⟩ := ne_none_iff_exists'.mp (hlost k hcur hpast).1
      rw [Trail.flush_of_some hv]
    · rw [Trail.flush_of_waiting_nil (h.past k hk hcur)]
      exact h.past k hk hcur
  · intro k hk b hb
    refine h.own k hk b ?_
    cases hm : (T k).mode with
    | none => rwa [Trail.flush_of_none hm] at hb
    | some v => rw [Trail.flush_of_some hm] at hb; cases hb
  · rcases hspecs 0 with h' | h'
    · rw [h', h.zero]
    · exact h'
  · intro id hs
    rcases hfate id with ⟨heq', hnone⟩ | ⟨-, hnone⟩
    · exact hnone (h.noBuf id (heq' ▸ hs))
    · exact hnone
  · exact hd.sublist.nodup h.nodup
  · intro x hx
    obtain ⟨y, hy, hyid, dtsb, hbuf, hlt⟩ := hsource x hx
    obtain ⟨dtsb', hb', hdr⟩ := h.listed y hy
    rw [hyid, hbuf] at hb'
    obtain rfl := some.inj hb'
    rw [← hyid] at hbuf ⊢
    exact ⟨_, (hd.kept y hy dtsb hbuf hlt).1, hdr⟩
  · intro k hk
    rw [hd.delivered]
    exact h.out_flush hk

end Tracks

end DTrace.Speculation
