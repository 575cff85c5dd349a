import DTrace.Lib.LinkList

/-!
# The links of the aggregation hash

Every entry is on two lists, the chain of its bucket and the list of all entries, and is put first
on both when it is made. So a chain has the entries of its bucket in the order of the list of all
(`Consistent`), and snapshots and removals keep this. A walk over the list of all entries may
remove each of them on the way: the one after it is read before (`walk_reach`).
-/

namespace DTrace.Agg.Links

open LinkList List Function

variable {E : Type} [DecidableEq E]

/-- A new entry, with null links, is put first. -/
def push (links : Heap E) (head : Option E) (h : E) : Heap E :=
  (add (update links h .null) head h).1

/-- The links around an entry that is taken out. -/
def unlink (links : Heap E) (h : E) : Heap E :=
  let links' := match (links h).prev with
    | some p => setNext links p (links h).next
    | none => links
  match (links h).next with
  | some n => setPrev links' n (links h).prev
  | none => links'

/-- The head then. An entry with none before it has to be the head. -/
def headWithout (links : Heap E) (head : Option E) (h : E) : Option (Option E) :=
  match (links h).prev with
  | some _ => some head
  | none => if head = some h then some (links h).next else none

/-- `dt_ahash_t`, with the links and the hash values of the entries. -/
structure Ahash (E : Type) where
  size : Nat
  hash : Nat → Option E
  all : Option E
  links : Heap E
  linksall : Heap E
  hval : E → Nat

/-- What `dt_aggregate_snap_one` comes upon: the generation of the data, whether there is a
description, whether the chain has an entry for the key, and what is allocated. -/
structure Snap (E : Type) where
  aggid : Nat
  dgen : Nat
  agg : Bool
  found : Bool
  h : Option E
  key : Bool
  data : Bool

/-- The entry that is made. -/
def Snap.made (s : Snap E) : Option E :=
  if s.dgen = 0 ∨ s.agg = false ∨ s.found ∨ s.key = false ∨ s.data = false then none else s.h

def dtAggregateSnapOne (a : Ahash E) (s : Snap E) : Ahash E :=
  match s.made with
  | none => a
  | some h =>
    let ndx := s.aggid % a.size
    { a with
      hval := update a.hval h s.aggid
      links := push a.links (a.hash ndx) h
      hash := update a.hash ndx (some h)
      linksall := push a.linksall a.all h
      all := some h }

inductive Rval
  | next | error | abort | remove | other
  deriving DecidableEq

/-- The hash, and whether `-1` is returned; `none` when an assertion fails. -/
def dtAggwalkRval (a : Ahash E) (h : E) : Rval → Option (Ahash E × Bool)
  | .next => some (a, false)
  | .error | .abort | .other => some (a, true)
  | .remove => do
    let ndx := a.hval h % a.size
    let head ← headWithout a.links (a.hash ndx) h
    let all ← headWithout a.linksall a.all h
    some ({ a with
      links := unlink a.links h
      hash := update a.hash ndx head
      linksall := unlink a.linksall h
      all := all }, false)

/-- The loop of `dtrace_aggregate_walk` from `h` on; `func` is what the function returns for an
entry. -/
def dtraceAggregateWalk (func : E → Rval) : Nat → Ahash E → Option E → Option (Ahash E × Bool)
  | 0, _, _ => none
  | _ + 1, a, none => some (a, false)
  | fuel + 1, a, some h => do
    let next := (a.linksall h).next
    let (a, err) ← dtAggwalkRval a h (func h)
    if err then some (a, true) else dtraceAggregateWalk func fuel a next

/-! ## Lists -/

section
variable {links : Heap E} {head : Option E} {h : E} {l : List E}

theorem push_isList (hl : IsList links head l) (hnodup : (h :: l).Nodup) :
    IsList (push links head h) (some h) (h :: l) ∧ ∀ x ∉ h :: l, push links head h x = links x := by
  have hne : ∀ x ∈ l, x ≠ h := fun x hx heq => (nodup_cons.mp hnodup).1 (heq ▸ hx)
  obtain ⟨-, hlist, hframe⟩ := add_isList
    (hl.congr fun x hx => update_of_ne (hne x hx) .null links) hnodup (update_self ..)
  refine ⟨hlist, fun x hx => (hframe x hx).trans (update_of_ne ?_ _ _)⟩
  exact fun heq => hx (heq ▸ mem_cons_self)

theorem unlink_isList (hl : IsList links head l) (hnodup : l.Nodup) (hh : h ∈ l) :
    headWithout links head h = some (l.erase h).head? ∧
      IsList (unlink links h) (l.erase h).head? (l.erase h) ∧
      ∀ x ∉ l, unlink links h x = links x := by
  obtain ⟨rfl, hlinked⟩ := hl
  obtain ⟨e, t, rfl⟩ := exists_cons_of_ne_nil (ne_nil_of_mem hh)
  obtain ⟨links', hdel, hlist, -, hframe⟩ := del_isList ⟨rfl, hlinked⟩ hnodup hh
  -- `del` asks whether the entry is the head, and the code whether there is one before it
  have hfirst : e = h ↔ (links h).prev = none := by
    refine ⟨?_, fun hnone => by_contra fun hne => ?_⟩
    · rintro rfl
      rw [hlinked.1]
    · exact hlinked.2.prev_ne_none ((mem_cons.mp hh).resolve_left (Ne.symm hne)) hnone
  have hsame : headWithout links (some e) h = some ((e :: t).erase h).head? ∧
      ∀ x ≠ h, unlink links h x = links' x := by
    simp only [del, hfirst] at hdel
    cases hp : (links h).prev <;> cases hn : (links h).next <;>
      simp only [hp, hn, reduceCtorEq, if_true, if_false, Option.some.injEq,
        Prod.mk.injEq] at hdel <;>
      obtain ⟨rfl, hhead⟩ := hdel <;>
      simp +contextual [headWithout, unlink, hp, hn, ← hhead, setNext_of_ne, setPrev_of_ne, hfirst]
  refine ⟨hsame.1, hlist.congr fun x hx => hsame.2 x ?_, fun x hx => ?_⟩
  · rintro rfl
    exact hnodup.not_mem_erase hx
  · exact (hsame.2 x fun heq => hx (heq ▸ hh)).trans (hframe x hx)

end

/-! ## The hash

Each entry is in two lists at once: that of its bucket and that of all entries. -/

/-- The lists have the live entries, the last one first, and a chain those of its bucket. -/
structure Consistent (a : Ahash E) (live : List E) : Prop where
  nodup : live.Nodup
  all : IsList a.linksall a.all live
  chain : ∀ i, IsList a.links (a.hash i) (live.filter fun h => a.hval h % a.size = i)

/-- Histories, with the live entries: what is allocated is not live, and what is removed is. -/
inductive Reach : Ahash E → List E → Prop
  | init {a : Ahash E} (hash : ∀ i, a.hash i = none) (all : a.all = none) : Reach a []
  | snap {a : Ahash E} {live : List E} (hr : Reach a live) (s : Snap E)
      (fresh : ∀ h ∈ s.made, h ∉ live) : Reach (dtAggregateSnapOne a s) (s.made.toList ++ live)
  | rval {a a' : Ahash E} {live : List E} {h : E} {r : Rval} {err : Bool} (hr : Reach a live)
      (hh : h ∈ live) (heq : dtAggwalkRval a h r = some (a', err)) :
      Reach a' (if r = .remove then live.erase h else live)

section
variable {a : Ahash E} {live : List E}

omit [DecidableEq E] in
/-- The lists of two buckets have no entry in common. -/
theorem notMem_chain {i j : Nat} (hne : i ≠ j) {x : E}
    (hx : x ∈ live.filter fun h => a.hval h % a.size = i) :
    x ∉ live.filter fun h => a.hval h % a.size = j := fun hmem =>
  hne ((of_decide_eq_true (mem_filter.mp hx).2).symm.trans
    (of_decide_eq_true (mem_filter.mp hmem).2))

theorem Consistent.snapOne (hc : Consistent a live) {s : Snap E}
    (hfresh : ∀ h ∈ s.made, h ∉ live) :
    Consistent (dtAggregateSnapOne a s) (s.made.toList ++ live) := by
  unfold dtAggregateSnapOne
  cases hs : s.made with
  | none => exact hc
  | some h =>
    have hnot := hfresh h hs
    have hne : ∀ x ∈ live, x ≠ h := fun x hx heq => hnot (heq ▸ hx)
    have hnodup : (h :: live).Nodup := nodup_cons.mpr ⟨hnot, hc.nodup⟩
    refine ⟨hnodup, (push_isList hc.all hnodup).1, fun i => ?_⟩
    obtain ⟨hlist, hframe⟩ := push_isList (hc.chain (s.aggid % a.size))
      (hnodup.sublist (filter_sublist.cons_cons h))
    have hold : live.filter (fun x => update a.hval h s.aggid x % a.size = i) =
        live.filter fun x => a.hval x % a.size = i :=
      filter_congr fun x hx => by rw [update_of_ne (hne x hx)]
    show IsList _ (update a.hash _ _ i) ((h :: live).filter _)
    by_cases hi : s.aggid % a.size = i
    · subst hi
      rw [filter_cons_of_pos (by simp), hold, update_self]
      exact hlist
    · rw [filter_cons_of_neg (by simpa using hi), hold, update_of_ne (Ne.symm hi)]
      exact (hc.chain i).congr fun x hx => hframe x fun hmem =>
        (mem_cons.mp hmem).elim (hne x (mem_filter.mp hx).1) (notMem_chain (Ne.symm hi) hx)

theorem Consistent.rval (hc : Consistent a live) {h : E} (hh : h ∈ live) (r : Rval) :
    ∃ a' err, dtAggwalkRval a h r = some (a', err) ∧
      Consistent a' (if r = .remove then live.erase h else live) := by
  cases r with
  | next | error | abort | other => exact ⟨a, _, rfl, hc⟩
  | remove =>
    obtain ⟨hhead, hlist, hframe⟩ := unlink_isList (hc.chain (a.hval h % a.size))
      (hc.nodup.filter _) (mem_filter.mpr ⟨hh, decide_eq_true rfl⟩)
    obtain ⟨hall, hlistall, -⟩ := unlink_isList hc.all hc.nodup hh
    rw [dtAggwalkRval, hhead, hall]
    refine ⟨_, _, rfl, hc.nodup.erase h, hlistall, fun i => ?_⟩
    show IsList _ (update a.hash _ _ i) ((live.erase h).filter _)
    rw [hc.nodup.erase_eq_filter, filter_comm, ← (hc.nodup.filter _).erase_eq_filter]
    by_cases hi : i = a.hval h % a.size
    · subst hi
      rw [update_self]
      exact hlist
    · have hnot : h ∉ live.filter fun x => a.hval x % a.size = i :=
        notMem_chain (Ne.symm hi) (mem_filter.mpr ⟨hh, decide_eq_true rfl⟩)
      rw [update_of_ne hi, erase_of_not_mem hnot]
      exact (hc.chain i).congr fun x hx => hframe x (notMem_chain hi hx)

theorem Reach.consistent (hr : Reach a live) : Consistent a live := by
  induction hr with
  | init hash all => exact ⟨nodup_nil, ⟨all.symm, trivial⟩, fun i => ⟨(hash i).symm, trivial⟩⟩
  | snap _ s fresh ih => exact ih.snapOne fresh
  | rval _ hh heq ih =>
    obtain ⟨_, _, heq', hc'⟩ := ih.rval hh _
    obtain ⟨rfl, -⟩ := Prod.mk.inj (Option.some.inj (heq.symm.trans heq'))
    exact hc'

/-- A walk only comes to live entries, whatever it removes, and returns: by induction on the part of
the list that it has not reached. -/
theorem walk_reach (hr : Reach a live) (func : E → Rval) {pre l : List E} (hlive : live = pre ++ l)
    {fuel : Nat} (hfuel : l.length < fuel) :
    ∃ a' live' err, dtraceAggregateWalk func fuel a l.head? = some (a', err) ∧ Reach a' live' := by
  induction l generalizing a live pre fuel with
  | nil =>
    obtain ⟨fuel, rfl⟩ := Nat.exists_eq_add_of_lt hfuel
    exact ⟨a, live, false, rfl, hr⟩
  | cons h l ih =>
    subst hlive
    obtain ⟨fuel, rfl⟩ : ∃ f, fuel = f + 1 := ⟨fuel - 1, by omega⟩
    have hc := hr.consistent
    have hmem : h ∈ pre ++ h :: l := by simp
    have hnext : (a.linksall h).next = l.head? := by
      have hlinked := (linked_append.mp hc.all.2).2.1
      rw [hlinked, Option.or_none]
    have hnot : h ∉ pre := fun hpre =>
      (nodup_append.mp hc.nodup).2.2 h hpre h mem_cons_self rfl
    obtain ⟨a', err, heq, -⟩ := hc.rval hmem (func h)
    have hr' := Reach.rval hr hmem heq
    rw [head?_cons, dtraceAggregateWalk, hnext, heq]
    cases err with
    | true => exact ⟨a', _, true, rfl, hr'⟩
    | false =>
      -- the rest of the list is still there, with or without the entry
      have hrest : ∃ pre', (if func h = .remove then (pre ++ h :: l).erase h else pre ++ h :: l) =
          pre' ++ l := by
        split
        · exact ⟨pre, by rw [erase_append_right _ hnot, erase_cons_head]⟩
        · exact ⟨pre ++ [h], by simp⟩
      obtain ⟨_, hpre'⟩ := hrest
      exact ih hr' hpre' (by simpa using hfuel)

/-- **After every history the lists are consistent**: the list of all entries has the live ones, the
chain of a bucket those whose hash value selects it, and a removal fails no assertion. -/
theorem consistent_of_reach (hr : Reach a live) :
    Consistent a live ∧ ∀ h ∈ live, ∀ r, (dtAggwalkRval a h r).isSome := by
  have hc := hr.consistent
  refine ⟨hc, fun h hh r => ?_⟩
  obtain ⟨_, _, heq, -⟩ := hc.rval hh r
  rw [heq]
  rfl

end

/-- A hash of two buckets. -/
def emptyAhash : Ahash Nat := ⟨2, fun _ => none, none, fun _ => .null, fun _ => .null, fun _ => 0⟩

/-- Data of aggregation `aggid` without an entry, for which `h` is allocated. -/
def newData (aggid h : Nat) : Snap Nat := ⟨aggid, 1, true, false, some h, true, true⟩

/-- The middle one of three entries of one bucket is removed. -/
theorem consistent_of_removal :
    let a := dtAggregateSnapOne (dtAggregateSnapOne (dtAggregateSnapOne emptyAhash (newData 1 7))
      (newData 3 8)) (newData 5 9)
    ∃ a' err, dtAggwalkRval a 8 .remove = some (a', err) ∧ Consistent a' [9, 7] ∧
      ∀ h ∈ [9, 7], ∀ r, (dtAggwalkRval a' h r).isSome := by
  intro a
  have hr : Reach a [9, 8, 7] :=
    .snap (.snap (.snap (.init (fun _ => rfl) rfl) (newData 1 7) (by simp)) (newData 3 8)
      (by simp [newData, Snap.made])) (newData 5 9) (by simp [newData, Snap.made])
  obtain ⟨⟨a', err⟩, heq⟩ := Option.isSome_iff_exists.mp
    (show (dtAggwalkRval a 8 .remove).isSome = true from rfl)
  have hr' : Reach a' [9, 7] := .rval hr (by simp) heq
  exact ⟨a', err, heq, consistent_of_reach hr'⟩

end DTrace.Agg.Links
