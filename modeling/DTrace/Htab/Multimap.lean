import DTrace.Htab.Table

/-!
# The hash table is a multimap

The entries that were inserted and not deleted since are the contents of the table (`live`). `Rep`
says that the table has just them: every one is in a bucket of the slot that its hash value selects,
and the counts are right.

* `insert_rep`, `delete_rep` and `lookup_rep` say what an operation does to a table that has `live`.
* `multimap_iff` says that in every run an operation does what a multimap does, and leaves such a
  table, exactly when it inserts an entry that is not there, or deletes one that is, or one that no
  entry is equal to. A deletion goes by comparison first, so an entry that is not in the table is taken
  to be in the bucket of those it is equal to, and the link of the entry before it, which it does not
  have, is followed (`delete_of_equal_entry`).
-/

namespace DTrace.Htab

open LinkList List Function BitVec

variable {E : Type} {ops : HtabOps E} {htab : DtHtab E} {live : List E} {e : E}

/-- The table has the entries `live`. -/
structure Rep (ops : HtabOps E) (htab : DtHtab E) (live : List E) : Prop where
  size : ∃ k ≤ 30, htab.size = 2 ^ k
  mask : htab.mask = htab.size - 1
  placed : ∀ i < htab.size, ∀ b ∈ htab.tab i, slot htab.mask b.hval = i
  chains : ∃ entries, Chains ops htab.links entries htab.buckets live
  free : ∀ e ∉ live, htab.links e = .null
  nentries : htab.nentries = live.length
  nbuckets : htab.nbuckets = BitVec.ofNat 32 htab.buckets.length

/-! ## Slots -/

theorem Rep.slot_lt (h : Rep ops htab live) (hv : BitVec 32) : slot htab.mask hv < htab.size := by
  obtain ⟨k, -, hk⟩ := h.size
  rw [slot, h.mask, hk, Nat.and_two_pow_sub_one_eq_mod]
  exact Nat.mod_lt _ (Nat.two_pow_pos k)

/-- The buckets of the other slots. -/
def others (tab : Nat → List (Bucket E)) (n i : Nat) : List (Bucket E) :=
  ((List.range n).erase i).flatMap tab

variable {n i : Nat} {b : Bucket E}

theorem flatMap_perm (tab : Nat → List (Bucket E)) (hi : i < n) :
    ((List.range n).flatMap tab).Perm (tab i ++ others tab n i) :=
  (perm_cons_erase (mem_range.mpr hi)).flatMap_right tab

/-- The buckets when those of one slot change. -/
theorem flatMap_update_perm (tab : Nat → List (Bucket E)) (hi : i < n) (l : List (Bucket E)) :
    ((List.range n).flatMap (Function.update tab i l)).Perm (l ++ others tab n i) := by
  have hperm := flatMap_perm (Function.update tab i l) hi
  have hothers : others (Function.update tab i l) n i = others tab n i := by
    refine flatMap_congr fun j hj => update_of_ne ?_ _ _
    exact (nodup_range.mem_erase_iff.mp hj).1
  rwa [update_self, hothers] at hperm

theorem mem_buckets : b ∈ htab.buckets ↔ ∃ i < htab.size, b ∈ htab.tab i := by
  simp only [DtHtab.buckets, mem_flatMap, mem_range]

/-- One slot, the links and the counts change. -/
theorem Rep.update (h : Rep ops htab live) {nentries : Nat} {l : List (Bucket E)} {links : Heap E}
    {nbuckets : BitVec 32} {live' : List E} (hi : i < htab.size)
    (hplaced : ∀ b ∈ l, slot htab.mask b.hval = i)
    (hchains : ∃ entries, Chains ops links entries (l ++ others htab.tab htab.size i) live')
    (hfree : ∀ e ∉ live', links e = .null) (hn : nentries = live'.length)
    (hnb : nbuckets = BitVec.ofNat 32 (l ++ others htab.tab htab.size i).length) :
    Rep ops ⟨Function.update htab.tab i l, htab.size, htab.mask, nbuckets, nentries, links⟩ live' := by
  have hperm := flatMap_update_perm htab.tab hi l
  obtain ⟨entries, hchains⟩ := hchains
  refine ⟨h.size, h.mask, fun j hj b hb => ?_, ⟨entries, hchains.of_perm hperm.symm (.refl _)⟩,
    hfree, hn, ?_⟩
  · by_cases hij : j = i
    · subst hij
      exact hplaced b (by simpa only [update_self] using hb)
    · exact h.placed j hj b (by simpa only [update_of_ne hij] using hb)
  · exact hnb.trans (congrArg (BitVec.ofNat 32) hperm.length_eq.symm)

/-! ## Finding the bucket -/

theorem find_eq_some {p : Bucket E → Bool} {l : List (Bucket E)} (h : l.find? p = some b) :
    p b = true ∧ ∃ pre post, l = pre ++ b :: post ∧
      (∀ f, modifyFirst p f l = pre ++ f b :: post) ∧ l.eraseP p = pre ++ post := by
  obtain ⟨hb, pre, post, rfl, hpre⟩ := find?_eq_some_iff_append.mp h
  have hnot : ∀ c ∈ pre, ¬p c = true := fun c hc => by simpa using hpre c hc
  refine ⟨hb, pre, post, rfl, fun f => ?_, ?_⟩
  · clear h hpre
    induction pre with
    | nil => rw [nil_append, nil_append, modifyFirst, if_pos hb]
    | cons c pre ih =>
      rw [List.cons_append, modifyFirst, if_neg (hnot c mem_cons_self),
        ih fun c hc => hnot c (mem_cons_of_mem _ hc), List.cons_append]
  · rw [eraseP_append_right _ hnot, eraseP_cons_of_pos hb]

/-- No entry of the table is equal to one whose bucket is not in the slot. -/
theorem Rep.cmp_ne_of_find (h : Rep ops htab live)
    (hfind : (htab.tab (slot htab.mask (ops.hval e))).find? (isBucketOf ops e) = none) :
    ∀ b ∈ htab.buckets, ops.cmp b.head e ≠ 0 := by
  intro b hb heq
  obtain ⟨_, hchains⟩ := h.chains
  obtain ⟨i, hi, hbi⟩ := mem_buckets.mp hb
  have hslot : slot htab.mask (ops.hval e) = i := by
    rw [← ops.hash heq, hchains.hval b hb]
    exact h.placed i hi b hbi
  have hnot := find?_eq_none.mp hfind b (hslot ▸ hbi)
  exact hnot (decide_eq_true heq)

/-- The bucket of an entry of the table is found. -/
theorem Rep.exists_find (h : Rep ops htab live) {x : E} (hx : x ∈ live) (heq : ops.cmp x e = 0) :
    ∃ b, (htab.tab (slot htab.mask (ops.hval e))).find? (isBucketOf ops e) = some b := by
  refine Option.ne_none_iff_exists'.mp fun hfind => ?_
  obtain ⟨_, hchains⟩ := h.chains
  obtain ⟨b, hb, hxb⟩ := hchains.mem_live_iff.mp hx
  exact h.cmp_ne_of_find hfind b hb (ops.trans (hchains.same b hb x hxb) heq)

/-- The bucket that is found, before all others. -/
theorem Rep.chains_of_find (h : Rep ops htab live)
    (hfind : (htab.tab (slot htab.mask (ops.hval e))).find? (isBucketOf ops e) = some b) :
    ops.cmp b.head e = 0 ∧ slot htab.mask b.hval = slot htab.mask (ops.hval e) ∧
      ∃ pre post entries, htab.tab (slot htab.mask (ops.hval e)) = pre ++ b :: post ∧
        (∀ f, modifyFirst (isBucketOf ops e) f (htab.tab (slot htab.mask (ops.hval e))) =
          pre ++ f b :: post) ∧
        (htab.tab (slot htab.mask (ops.hval e))).eraseP (isBucketOf ops e) = pre ++ post ∧
        Chains ops htab.links entries
          (b :: (pre ++ post ++ others htab.tab htab.size (slot htab.mask (ops.hval e)))) live := by
  have hi := h.slot_lt (ops.hval e)
  obtain ⟨hb, pre, post, heq, hmodify, herase⟩ := find_eq_some hfind
  obtain ⟨entries, hchains⟩ := h.chains
  refine ⟨of_decide_eq_true hb, ?_, pre, post, entries, heq, hmodify, herase, ?_⟩
  · exact h.placed _ hi b (heq ▸ mem_append_right pre mem_cons_self)
  · refine hchains.of_perm ((flatMap_perm htab.tab hi).trans ?_) (.refl _)
    rw [heq]
    exact perm_middle.append_right _

/-- An entry that is live is in the bucket that is found. -/
theorem Chains.mem_of_cmp {links : Heap E} {entries : E → List E} {B : List (Bucket E)}
    (h : Chains ops links entries (b :: B) live) (he : e ∈ live) (heq : ops.cmp b.head e = 0) :
    e ∈ entries b.head := by
  obtain ⟨c, hc, hec⟩ := h.mem_live_iff.mp he
  obtain rfl | hcB := mem_cons.mp hc
  · exact hec
  · exact absurd (ops.trans heq (ops.symm (h.same c hc e hec)))
      ((pairwise_cons.mp h.apart).1 c hcB)

/-! ## Looking up -/

/-- **A lookup finds an entry exactly when one is equal to the key.** -/
theorem lookup_rep (h : Rep ops htab live) (e : E) :
    (∀ x, dtHtabLookup ops htab e = some x → x ∈ live ∧ ops.cmp x e = 0) ∧
      (dtHtabLookup ops htab e = none → ∀ x ∈ live, ops.cmp x e ≠ 0) := by
  rw [dtHtabLookup]
  cases hfind : (htab.tab (slot htab.mask (ops.hval e))).find? (isBucketOf ops e) with
  | none =>
    refine ⟨fun x hx => (Option.some_ne_none x hx.symm).elim, fun _ x hx heq => ?_⟩
    obtain ⟨b, hb⟩ := h.exists_find hx heq
    exact Option.some_ne_none b (hb.symm.trans hfind)
  | some b =>
    obtain ⟨heq, -, _, _, _, -, -, -, hchains⟩ := h.chains_of_find hfind
    refine ⟨fun x hx => ?_, fun hnone => (Option.some_ne_none _ hnone).elim⟩
    obtain rfl := Option.some.inj hx
    exact ⟨hchains.head_mem_live mem_cons_self, heq⟩

/-! ## Resizing -/

theorem foldl_moveBucket_perm {nmask : Nat} (hslot : ∀ hv, slot nmask hv < n)
    (B : List (Bucket E)) (tab : Nat → List (Bucket E)) :
    ((List.range n).flatMap (B.foldl (moveBucket nmask) tab)).Perm
      (B ++ (List.range n).flatMap tab) := by
  induction B generalizing tab with
  | nil => exact .refl _
  | cons b B ih =>
    have hmove : ((List.range n).flatMap (moveBucket nmask tab b)).Perm
        (b :: (List.range n).flatMap tab) :=
      (flatMap_update_perm tab (hslot b.hval) _).trans
        ((flatMap_perm tab (hslot b.hval)).cons b).symm
    exact (ih _).trans ((hmove.append_left B).trans perm_middle)

theorem foldl_moveBucket_placed {nmask : Nat} (B : List (Bucket E)) {tab : Nat → List (Bucket E)}
    (h : ∀ i, ∀ b ∈ tab i, slot nmask b.hval = i) :
    ∀ i, ∀ b ∈ B.foldl (moveBucket nmask) tab i, slot nmask b.hval = i := by
  induction B generalizing tab with
  | nil => exact h
  | cons c B ih =>
    refine ih fun i b hb => ?_
    unfold moveBucket at hb
    by_cases hi : i = slot nmask c.hval
    · subst hi
      rw [update_self, mem_cons] at hb
      obtain rfl | hb := hb
      · rfl
      · exact h _ b hb
    · rw [update_of_ne hi] at hb
      exact h i b hb

/-- **Resizing keeps the entries** and puts each bucket in its new slot. -/
theorem Rep.resize (h : Rep ops htab live) {k : Nat} (hk : k ≤ 29) (hsize : htab.size = 2 ^ k) :
    Rep ops (resize htab) live := by
  have hnsize : htab.size <<< 1 = 2 ^ (k + 1) := by rw [hsize, Nat.shiftLeft_eq, Nat.pow_add]
  have hslot : ∀ hv, slot (htab.size <<< 1 - 1) hv < htab.size <<< 1 := by
    intro hv
    rw [slot, hnsize, Nat.and_two_pow_sub_one_eq_mod]
    exact Nat.mod_lt _ (Nat.two_pow_pos _)
  have hperm : (Htab.resize htab).buckets.Perm htab.buckets := by
    have hmoved := foldl_moveBucket_perm hslot htab.buckets fun _ => []
    rwa [flatMap_eq_nil_iff.mpr fun _ _ => rfl, append_nil] at hmoved
  obtain ⟨entries, hchains⟩ := h.chains
  refine ⟨⟨k + 1, by omega, hnsize⟩, rfl, ?_, ⟨entries, hchains.of_perm hperm.symm (.refl _)⟩, h.free,
    h.nentries, ?_⟩
  · exact fun i _ => foldl_moveBucket_placed htab.buckets (fun _ _ hb => absurd hb not_mem_nil) i
  · exact h.nbuckets.trans (congrArg (BitVec.ofNat 32) hperm.length_eq.symm)

/-! ## Inserting -/

section
variable [DecidableEq E]

/-- An entry goes to the bucket of those equal to it. -/
theorem Rep.add_entry (h : Rep ops htab live) (he : e ∉ live) {b : Bucket E}
    (hfind : (htab.tab (slot htab.mask (ops.hval e))).find? (isBucketOf ops e) = some b) :
    Rep ops { htab with
      tab := Function.update htab.tab (slot htab.mask (ops.hval e)) (modifyFirst (isBucketOf ops e)
        (fun b' => { b' with
          head := (add htab.links (some b.head) e).2, nentries := b'.nentries + 1 })
        (htab.tab (slot htab.mask (ops.hval e))))
      nentries := htab.nentries + 1
      links := (add htab.links (some b.head) e).1 } (e :: live) := by
  have hi := h.slot_lt (ops.hval e)
  obtain ⟨heq, hslot, pre, post, _, htabi, hmodify, -, hchains⟩ := h.chains_of_find hfind
  obtain ⟨-, hframe, entries', hchains'⟩ := hchains.add_entry he (h.free e he) heq
  rw [hmodify]
  have hperm : List.Perm (pre ++ ⟨b.hval, e, b.nentries + 1⟩ :: post ++
      others htab.tab htab.size (slot htab.mask (ops.hval e)))
      (⟨b.hval, e, b.nentries + 1⟩ :: (pre ++ post ++
        others htab.tab htab.size (slot htab.mask (ops.hval e)))) :=
    perm_middle.append_right _
  refine h.update hi ?_ ⟨entries', hchains'.of_perm hperm.symm (.refl _)⟩ ?_ ?_ ?_
  · intro c hc
    rw [mem_append, mem_cons] at hc
    have hplaced := h.placed _ hi
    rw [htabi] at hplaced
    obtain hc | rfl | hc := hc
    · exact hplaced c (mem_append_left _ hc)
    · exact hslot
    · exact hplaced c (mem_append_right _ (mem_cons_of_mem _ hc))
  · intro x hx
    rw [hframe x hx]
    exact h.free x fun hmem => hx (mem_cons_of_mem e hmem)
  · rw [h.nentries, length_cons]
  · have hlen := (flatMap_perm htab.tab hi).length_eq
    rw [h.nbuckets, DtHtab.buckets, hlen, htabi]
    simp only [length_append, length_cons]

/-- An entry that is equal to none gets a bucket. -/
theorem Rep.add_bucket (h : Rep ops htab live) (he : e ∉ live)
    (hfind : (htab.tab (slot htab.mask (ops.hval e))).find? (isBucketOf ops e) = none) :
    Rep ops { htab with
      tab := Function.update htab.tab (slot htab.mask (ops.hval e))
        (⟨ops.hval e, e, 1⟩ :: htab.tab (slot htab.mask (ops.hval e)))
      nbuckets := htab.nbuckets + 1
      nentries := htab.nentries + 1 } (e :: live) := by
  have hi := h.slot_lt (ops.hval e)
  have hperm := flatMap_perm htab.tab hi
  obtain ⟨_, hchains⟩ := h.chains
  obtain ⟨entries', hchains'⟩ := hchains.add_bucket he (h.free e he) (h.cmp_ne_of_find hfind)
  refine h.update hi ?_ ⟨entries', hchains'.of_perm (hperm.cons _) (.refl _)⟩ ?_ ?_ ?_
  · exact List.forall_mem_cons.mpr ⟨rfl, h.placed _ hi⟩
  · exact fun x hx => h.free x fun hmem => hx (mem_cons_of_mem e hmem)
  · rw [h.nentries, length_cons]
  · rw [h.nbuckets, DtHtab.buckets, hperm.length_eq, List.cons_append, length_cons,
      ofNat_add]
    rfl

theorem toInt_sshiftRight_lt (x : BitVec 32) : (x.sshiftRight 1).toInt < 2 ^ 30 := by
  rw [toInt_sshiftRight, Int.shiftRight_eq_div_pow]
  have := toInt_lt (x := x)
  omega

/-- An entry that is not in the table is in it afterwards, unless memory is short. Every try with a
table that is too small doubles it, and there are tries for all sizes. -/
theorem exists_insertRetry (calloc : Nat → Bool) (malloc : Bool) {tries k : Nat}
    (h : Rep ops htab live) (he : e ∉ live) (hsize : htab.size = 2 ^ k) (htries : 31 ≤ k + tries)
    (hk : k ≤ 30) :
    ∃ htab' ret, insertRetry ops calloc malloc e tries htab = some (htab', ret) ∧
      (ret = .ok ∧ Rep ops htab' (e :: live) ∨
        ret = .enomem ∧ Rep ops htab' live ∧ ¬(malloc ∧ ∀ n, calloc n)) := by
  induction tries generalizing htab k with
  | zero => omega
  | succ tries ih =>
    rw [insertRetry]
    cases hfind : (htab.tab (slot htab.mask (ops.hval e))).find? (isBucketOf ops e) with
    | some b => exact ⟨_, _, rfl, .inl ⟨rfl, h.add_entry he hfind⟩⟩
    | none =>
      dsimp only
      split
      · next hlt =>
        -- the size is below 2 ^ 30
        have hk29 : k ≤ 29 := by
          by_contra hgt
          obtain rfl : k = 30 := by omega
          have hbound := toInt_sshiftRight_lt htab.nbuckets
          omega
        split
        · refine ih (h.resize hk29 hsize) (k := k + 1) ?_ (by omega) (by omega)
          show htab.size <<< 1 = 2 ^ (k + 1)
          rw [hsize, Nat.shiftLeft_eq, Nat.pow_add]
        · next hcalloc => exact ⟨_, _, rfl, .inr ⟨rfl, h, fun hall => hcalloc (hall.2 _)⟩⟩
      · split
        · exact ⟨_, _, rfl, .inl ⟨rfl, h.add_bucket he hfind⟩⟩
        · next hmalloc => exact ⟨_, _, rfl, .inr ⟨rfl, h, fun hall => hmalloc hall.1⟩⟩

section

variable (h : Rep ops htab live)

include h

/-- **An entry that is in the table already makes a ring of its bucket.** -/
theorem insert_of_live_entry (he : e ∈ live) (calloc : Nat → Bool)
    (malloc : Bool) :
    ∃ htab', dtHtabInsert ops calloc malloc htab e = some (htab', .ok) ∧
      ∀ live', ¬Rep ops htab' live' := by
  rw [dtHtabInsert, insertRetry]
  dsimp only
  obtain ⟨b, hfind⟩ := h.exists_find he (ops.refl e)
  rw [hfind]
  refine ⟨_, rfl, fun live' hrep => ?_⟩
  obtain ⟨heq, -, _, _, entries, -, hmodify, -, hchains⟩ := h.chains_of_find hfind
  obtain ⟨_, hchains'⟩ := hrep.chains
  -- the bucket that starts with the entry now
  have hhead : (add htab.links (some b.head) e).2 = e := rfl
  have hmem := hmodify fun b' => { b' with head := e, nentries := b'.nentries + 1 }
  have hb' := hchains'.isList ⟨b.hval, e, b.nentries + 1⟩ (mem_buckets.mpr
    ⟨slot htab.mask (ops.hval e), h.slot_lt _, by
      show _ ∈ Function.update htab.tab _ _ _
      rw [update_self, hhead, hmem]
      exact mem_append_right _ mem_cons_self⟩)
  exact not_isList_add (hchains.isList b mem_cons_self) (hchains.mem_of_cmp he heq) _ hb'

/-! ## Deleting -/

theorem Rep.delete_live (he : e ∈ live) :
    ∃ htab', dtHtabDelete ops htab e = some (htab', .ok) ∧ Rep ops htab' (live.erase e) := by
  have hi := h.slot_lt (ops.hval e)
  rw [dtHtabDelete]
  obtain ⟨b, hfind⟩ := h.exists_find he (ops.refl e)
  rw [hfind]
  obtain ⟨heq, hslot, _, _, entries, htabi, hmodify, herase, hchains⟩ := h.chains_of_find hfind
  obtain ⟨links', head, hdel, hnull, hframe, entries', hchains'⟩ :=
    hchains.del_entry (hchains.mem_of_cmp he heq)
  have hplaced := h.placed _ hi
  have hnb := h.nbuckets
  rw [DtHtab.buckets, (flatMap_perm htab.tab hi).length_eq, htabi] at hnb
  rw [htabi] at hplaced
  have hfree : ∀ x ∉ live.erase e, links' x = .null := by
    intro x hx
    by_cases hxe : x = e
    · rw [hxe, hnull]
    · have hxlive : x ∉ live := fun hmem => hx ((mem_erase_of_ne hxe).mpr hmem)
      rw [hframe x hxlive, h.free x hxlive]
  have hcount : htab.nentries - 1 = (live.erase e).length := by
    rw [h.nentries, length_erase_of_mem he]
  dsimp only
  rw [hdel]
  cases head with
  | none =>
    refine ⟨_, rfl, ?_⟩
    rw [herase]
    refine h.update hi ?_ ⟨entries', hchains'⟩ hfree hcount ?_
    · intro c hc
      rw [mem_append] at hc
      obtain hc | hc := hc
      · exact hplaced c (mem_append_left _ hc)
      · exact hplaced c (mem_append_right _ (mem_cons_of_mem _ hc))
    · rw [hnb, List.append_assoc, List.cons_append, List.perm_middle.length_eq, length_cons,
        ofNat_add, List.append_assoc]
      exact add_sub_cancel _ _
  | some hd =>
    refine ⟨_, rfl, ?_⟩
    rw [hmodify]
    refine h.update hi ?_ ⟨entries', hchains'.of_perm ?_ (.refl _)⟩ hfree hcount ?_
    · intro c hc
      rw [mem_append, mem_cons] at hc
      obtain hc | rfl | hc := hc
      · exact hplaced c (mem_append_left _ hc)
      · exact hslot
      · exact hplaced c (mem_append_right _ (mem_cons_of_mem _ hc))
    · exact (perm_middle.append_right _).symm
    · rw [hnb]
      simp only [length_append, length_cons]

theorem Rep.delete_absent (he : ∀ x ∈ live, ops.cmp x e ≠ 0) :
    dtHtabDelete ops htab e = some (htab, .enoent) := by
  rw [dtHtabDelete]
  cases hfind : (htab.tab (slot htab.mask (ops.hval e))).find? (isBucketOf ops e) with
  | none => rfl
  | some b =>
    obtain ⟨heq, -, _, _, _, -, -, -, hchains⟩ := h.chains_of_find hfind
    exact absurd heq (he b.head (hchains.head_mem_live mem_cons_self))

/-- **An entry that is not in the table is looked for where the entries are that it is equal to**, and
the entry before it is read, of which there is none. -/
theorem delete_of_equal_entry {x : E} (hx : x ∈ live)
    (heq : ops.cmp x e = 0) (he : e ∉ live) : dtHtabDelete ops htab e = none := by
  rw [dtHtabDelete]
  obtain ⟨b, hfind⟩ := h.exists_find hx heq
  rw [hfind]
  obtain ⟨-, -, _, _, _, -, -, -, hchains⟩ := h.chains_of_find hfind
  have hne : b.head ≠ e := by
    rintro rfl
    exact he (hchains.head_mem_live mem_cons_self)
  dsimp only
  rw [del_eq_none hne (h.free e he)]
  rfl

end

/-! ## Runs -/

/-- A call, with what memory there is for it. -/
inductive Op (E : Type) where
  | insert (entry : E) (calloc : Nat → Bool) (malloc : Bool)
  | lookup (entry : E)
  | delete (entry : E)

def step (ops : HtabOps E) (htab : DtHtab E) : Op E → Option (DtHtab E × Ret E)
  | .insert entry calloc malloc => dtHtabInsert ops calloc malloc htab entry
  | .lookup entry => some (htab, .found (dtHtabLookup ops htab entry))
  | .delete entry => dtHtabDelete ops htab entry

/-- What a multimap with the entries `live` does: the result of a call and the entries then. An
insertion fails for want of memory only. -/
def Multimap (ops : HtabOps E) (live : List E) : Op E → Ret E → List E → Prop
  | .insert entry calloc malloc, ret, live' =>
    ret = .ok ∧ live' = entry :: live ∨
      ret = .enomem ∧ live' = live ∧ ¬(malloc ∧ ∀ n, calloc n)
  | .lookup entry, ret, live' => live' = live ∧ ∃ found, ret = .found found ∧
    match found with
    | some x => x ∈ live ∧ ops.cmp x entry = 0
    | none => ∀ x ∈ live, ops.cmp x entry ≠ 0
  | .delete entry, ret, live' =>
    entry ∈ live ∧ ret = .ok ∧ live' = live.erase entry ∨
      entry ∉ live ∧ ret = .enoent ∧ live' = live

/-- An entry is inserted that is not in the table, or deleted that is or that no entry is equal to. -/
def Proper (ops : HtabOps E) (live : List E) : Op E → Prop
  | .insert entry _ _ => entry ∉ live
  | .lookup _ => True
  | .delete entry => entry ∈ live ∨ ∀ x ∈ live, ops.cmp x entry ≠ 0

/-- The call does what a multimap does, and the table has its entries then. -/
def StepRight (ops : HtabOps E) (htab : DtHtab E) (live : List E) (op : Op E) : Prop :=
  ∃ htab' ret live', step ops htab op = some (htab', ret) ∧ Multimap ops live op ret live' ∧
    Rep ops htab' live'

/-- The tables of runs of proper calls, and their entries. -/
inductive Reach (ops : HtabOps E) : DtHtab E → List E → Prop
  | create : Reach ops dtHtabCreate []
  | step {htab htab' : DtHtab E} {live live' : List E} {op : Op E} {ret : Ret E}
      (h : Reach ops htab live) (hop : Proper ops live op)
      (hstep : Htab.step ops htab op = some (htab', ret)) (hmap : Multimap ops live op ret live') :
      Reach ops htab' live'

omit [DecidableEq E] in
theorem rep_create (ops : HtabOps E) : Rep ops dtHtabCreate [] :=
  ⟨⟨0, by decide, rfl⟩, rfl, nofun,
    ⟨fun _ => [], Chains.nil ops _ _⟩, fun _ _ => rfl, rfl, rfl⟩

variable {op : Op E}

theorem stepRight_of_proper (h : Rep ops htab live) (hop : Proper ops live op) :
    StepRight ops htab live op := by
  cases op with
  | insert entry calloc malloc =>
    obtain ⟨k, hk, hsize⟩ := h.size
    obtain ⟨htab', ret, hins, hcase⟩ :=
      exists_insertRetry calloc malloc h hop hsize (show 31 ≤ k + 31 by omega) hk
    obtain ⟨hret, hrep⟩ | ⟨hret, hrep, hmem⟩ := hcase
    · exact ⟨htab', ret, _, hins, .inl ⟨hret, rfl⟩, hrep⟩
    · exact ⟨htab', ret, _, hins, .inr ⟨hret, rfl, hmem⟩, hrep⟩
  | lookup entry =>
    obtain ⟨hsome, hnone⟩ := lookup_rep h entry
    refine ⟨htab, _, live, rfl, ⟨rfl, _, rfl, ?_⟩, h⟩
    cases hl : dtHtabLookup ops htab entry with
    | none => exact hnone hl
    | some x => exact hsome x hl
  | delete entry =>
    by_cases hmem : entry ∈ live
    · obtain ⟨htab', hdel, hrep⟩ := h.delete_live hmem
      exact ⟨htab', .ok, _, hdel, .inl ⟨hmem, rfl, rfl⟩, hrep⟩
    · exact ⟨htab, .enoent, live, h.delete_absent (hop.resolve_left hmem),
        .inr ⟨hmem, rfl, rfl⟩, h⟩

theorem proper_of_stepRight (h : Rep ops htab live) (hop : StepRight ops htab live op) :
    Proper ops live op := by
  obtain ⟨_, _, live', hstep, -, hrep⟩ := hop
  cases op with
  | insert entry calloc malloc =>
    intro hmem
    obtain ⟨_, hins, hno⟩ := insert_of_live_entry h hmem calloc malloc
    cases hins.symm.trans hstep
    exact hno live' hrep
  | lookup entry => trivial
  | delete entry =>
    by_cases hmem : entry ∈ live
    · exact .inl hmem
    · refine .inr fun x hx heq => ?_
      cases (delete_of_equal_entry h hx heq hmem).symm.trans hstep

theorem Multimap.unique {ret : Ret E} {live1 live2 : List E} (h1 : Multimap ops live op ret live1)
    (h2 : Multimap ops live op ret live2) : live1 = live2 := by
  cases op with
  | insert entry calloc malloc =>
    obtain ⟨rfl, rfl⟩ | ⟨rfl, rfl, -⟩ := h1 <;> obtain ⟨hret, rfl⟩ | ⟨hret, rfl, -⟩ := h2 <;>
      first | rfl | cases hret
  | lookup entry => exact h1.1.trans h2.1.symm
  | delete entry =>
    obtain ⟨-, rfl, rfl⟩ | ⟨-, rfl, rfl⟩ := h1 <;> obtain ⟨-, hret, rfl⟩ | ⟨-, hret, rfl⟩ := h2 <;>
      first | rfl | cases hret

theorem Reach.rep (h : Reach ops htab live) : Rep ops htab live := by
  induction h with
  | create => exact rep_create ops
  | @step htab htab' live live' op ret _ hop hstep hmap ih =>
    obtain ⟨_, _, _, hstep', hmap', hrep⟩ := stepRight_of_proper ih hop
    cases hstep.symm.trans hstep'
    exact hmap'.unique hmap ▸ hrep

omit [DecidableEq E] in
/-- A live entry is in a bucket of the slot that its hash value selects. -/
theorem Rep.mem_slot (h : Rep ops htab live) (he : e ∈ live) :
    ∃ b ∈ htab.tab (slot htab.mask (ops.hval e)), ∃ l, IsList htab.links (some b.head) l ∧ e ∈ l := by
  obtain ⟨entries, hchains⟩ := h.chains
  obtain ⟨b, hb, heb⟩ := hchains.mem_live_iff.mp he
  obtain ⟨i, hi, hbi⟩ := mem_buckets.mp hb
  have hslot : slot htab.mask (ops.hval e) = i := by
    rw [← ops.hash (hchains.same b hb e heb), hchains.hval b hb]
    exact h.placed i hi b hbi
  exact ⟨b, hslot ▸ hbi, entries b.head, hchains.isList b hb, heb⟩

/-- **The table is a multimap in every run of proper calls**: its count is that of the live entries,
each of them is in its slot, and the next call does what a multimap does exactly when it is proper
too. -/
theorem multimap_iff (ops : HtabOps E) (htab : DtHtab E) (live : List E) (h : Reach ops htab live)
    (op : Op E) :
    htab.nentries = live.length ∧
      (∀ e ∈ live, ∃ b ∈ htab.tab (slot htab.mask (ops.hval e)),
        ∃ l, IsList htab.links (some b.head) l ∧ e ∈ l) ∧
      (StepRight ops htab live op ↔ Proper ops live op) :=
  ⟨h.rep.nentries, fun _ he => h.rep.mem_slot he, proper_of_stepRight h.rep,
    stepRight_of_proper h.rep⟩

end

/-- Two entries that are equal. -/
def equalEntries : HtabOps Bool where
  hval := fun _ => 0
  cmp := fun _ _ => 0
  refl := fun _ => rfl
  symm := fun h => h
  trans := fun h _ => h
  hash := fun _ => rfl

/-- One entry was inserted, and the other one is deleted. -/
theorem delete_of_other_entry :
    ∃ htab, dtHtabInsert equalEntries (fun _ => true) true dtHtabCreate false = some (htab, .ok) ∧
      Reach equalEntries htab [false] ∧ dtHtabDelete equalEntries htab true = none := by
  have hproper : Proper equalEntries [] (.insert false (fun _ => true) true) := not_mem_nil
  exact ⟨_, rfl, .step .create hproper rfl (.inl ⟨rfl, rfl⟩), rfl⟩

/-- Both entries are in one bucket, and the one that was inserted first is deleted. -/
theorem delete_of_inserted_entry :
    ∃ htab, Reach equalEntries htab [true, false] ∧
      StepRight equalEntries htab [true, false] (.delete false) := by
  have hproper : Proper equalEntries [] (.insert false (fun _ => true) true) := not_mem_nil
  have hproper' : Proper equalEntries [false] (.insert true (fun _ => true) true) := by
    show true ∉ [false]
    decide
  have hreach := Reach.step (.step .create hproper rfl (.inl ⟨rfl, rfl⟩)) hproper' rfl
    (.inl ⟨rfl, rfl⟩)
  exact ⟨_, hreach, (multimap_iff equalEntries _ _ hreach (.delete false)).2.2.mpr
    (.inl (by decide))⟩

end DTrace.Htab
