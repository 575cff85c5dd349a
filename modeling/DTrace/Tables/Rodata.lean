import DTrace.Lib.BufList
import DTrace.Lib.ByteMem

/-!
# The read-only data of a program

Constants are put in one table when they are compiled, each once: an item that is there already is
found through its hash value, and its offset is returned again. Items are compared as far as the new
one goes, whatever the length of the one that is there, so what is behind that one takes part in the
comparison.

* `Emitted` says that an item is in what is written out in the end, at its offset.
* `rodata_iff` says when an insertion gives such an offset: when the search does not come to an item
  that is followed by the beginning of the new one up to the end of the table. There the comparison goes
  on with what the buffer was allocated with.
-/

namespace DTrace.Rodata

open BufList BufList.Bufs List Option

abbrev Byte := Fin 256

/-- `dt_gen_hval`; characters are signed -/
def dtGenHval : List Byte → BitVec 32 → BitVec 32
  | [], hval => hval
  | b :: p, hval =>
    let hval := (hval <<< 4) + (BitVec.ofNat 8 b).signExtend 32
    let g := hval &&& 0xf0000000
    dtGenHval p (if g ≠ 0 then hval ^^^ (g >>> 24) ^^^ g else hval)

/-- `dt_rohash_t`: where the item is, in which buffer and where there, and its offset -/
structure RoHash where
  buf : Nat
  data : Nat
  off : Nat
  len : Nat
  deriving DecidableEq, Repr

structure DtRodata where
  hash : Nat → List RoHash
  hashsz : Nat
  bufs : Bufs Byte
  bufsz : Nat
  size : Nat
  itemSize : Nat

/-- What memory there is for an insertion: whether a hash entry can be had, and the buffers, with what
they hold. -/
structure Memory where
  entry : Bool
  bufs : Nat → Option (Nat → Byte)

def Memory.alloc (m : Memory) (bufsz k : Nat) : Option (List Byte) :=
  (m.bufs k).map fun f => (List.range bufsz).map f

/-- The table of one zero byte; `fresh` is what the first buffer holds. -/
def dtRodataCreate (bufsz hashsz : Nat) (fresh : Nat → Byte) : DtRodata where
  hash := fun _ => []
  hashsz := hashsz
  bufs := put ⟨[], (List.range bufsz).map fresh, 0⟩ [0]
  bufsz := bufsz
  size := 1
  itemSize := 0

/-- `memcmp` gives zero -/
def memcmpEq (p q : List Byte) : Bool := p = q

def dtRodataCompare (dp : DtRodata) (hp : RoHash) (ptr : List Byte) : Option Bool :=
  compare memcmpEq dp.bufsz dp.bufs hp.buf hp.data ptr

/-- `none` when the comparison reads over the end of the buffers. -/
def dtRodataXindex (dp : DtRodata) (ptr : List Byte) : List RoHash → Option (Option Nat)
  | [] => some none
  | hp :: rest =>
    match dtRodataCompare dp hp ptr with
    | none => none
    | some true => some (some hp.off)
    | some false => dtRodataXindex dp ptr rest

/-- The hash chain of an item. -/
def chainOf (dp : DtRodata) (ptr : List Byte) : Nat :=
  (dtGenHval ptr (BitVec.ofNat 32 ptr.length)).toNat % dp.hashsz

/-- The offset of an item; the second `none` is -1. A null pointer has the offset of the zero byte. -/
def dtRodataInsert (m : Memory) (dp : DtRodata) :
    Option (List Byte) → Option (DtRodata × Option Nat)
  | none => some (dp, some 0)
  | some ptr =>
    match dtRodataXindex dp ptr (dp.hash (chainOf dp ptr)) with
    | none => none
    | some (some off) => some (dp, some off)
    | some none =>
      if m.entry then
        let hp : RoHash := ⟨dp.bufs.init.length, dp.bufs.used, dp.size, ptr.length⟩
        match copyin dp.bufsz (m.alloc dp.bufsz) dp.bufs ptr with
        | (bufs, false) => some ({ dp with bufs := bufs }, none)
        | (bufs, true) => some ({ dp with
            bufs := bufs
            size := dp.size + ptr.length
            hash := Function.update dp.hash (chainOf dp ptr) (hp :: dp.hash (chainOf dp ptr))
            itemSize := max dp.itemSize ptr.length }, some hp.off)
      else some (dp, none)

/-- What is given to the callback, one after another. -/
def dtRodataWrite (dp : DtRodata) : List Byte := dp.bufs.write

/-! ## The table and its items -/

/-- What holds of a table in every run. -/
structure Wf (dp : DtRodata) : Prop where
  bufs : dp.bufs.Wf dp.bufsz
  size : dp.size = dp.bufs.data.length
  place : ∀ h, ∀ hp ∈ dp.hash h, hp.off = hp.buf * dp.bufsz + hp.data ∧ hp.data ≤ dp.bufsz ∧
    hp.off ≤ dp.size

/-- The item is in what is written out, at the offset. -/
def Emitted (dp : DtRodata) (item : List Byte) (off : Nat) : Prop :=
  off + item.length ≤ dp.size ∧ ((dtRodataWrite dp).drop off).take item.length = item

theorem wf_create {bufsz : Nat} (hbufsz : 0 < bufsz) (hashsz : Nat) (fresh : Nat → Byte) :
    Wf (dtRodataCreate bufsz hashsz fresh) := by
  have hlen : ((List.range bufsz).map fresh).length = bufsz := by
    rw [length_map, length_range]
  have hroom : 0 + [0].length ≤ bufsz := hbufsz
  have hwf : (dtRodataCreate bufsz hashsz fresh).bufs.Wf bufsz :=
    Wf.put (fun _ hb => absurd hb not_mem_nil) hlen Nat.one_pos hroom
  refine ⟨hwf, ?_, fun _ _ hp => absurd hp not_mem_nil⟩
  rw [hwf.length_data]
  show 1 = 0 * bufsz + 1
  rw [Nat.zero_mul]

/-! ## The search -/

theorem compares_memcmpEq (q : List Byte) : Compares memcmpEq q := fun _ _ _ _ _ _ => rfl

variable {dp : DtRodata} {item : List Byte} {dp' : DtRodata}

variable {h off : Nat} {m : Memory}

/-- An item is compared with all that is behind its offset, in the data and after it. -/
theorem Wf.compare (hwf : Wf dp) {hp : RoHash} (hhp : hp ∈ dp.hash h) (q : List Byte) :
    dtRodataCompare dp hp q = verdict q (dp.bufs.contents.drop hp.off) := by
  obtain ⟨hoff, hdata, hle⟩ := hwf.place h hp hhp
  rw [dtRodataCompare, compare_eq hwf.bufs (compares_memcmpEq q) hdata, ← hoff]
  rwa [← hoff, ← hwf.size]

/-- The search does not come to an item that is followed by the beginning of the new one up to the end
of the table. -/
def Clear (data item : List Byte) : List RoHash → Prop
  | [] => True
  | hp :: rest =>
    match verdict item (data.drop hp.off) with
    | none => False
    | some true => True
    | some false => Clear data item rest

theorem drop_contents (hwf : Wf dp) (hoff : off ≤ dp.size) :
    dp.bufs.contents.drop off = dp.bufs.data.drop off ++ dp.bufs.last.drop dp.bufs.used := by
  rw [contents_eq, drop_append_of_le_length (hwf.size ▸ hoff)]

/-- What a search finds that compares with the data only. -/
theorem xindex_of_clear (hwf : Wf dp) {chain : List RoHash}
    (hchain : ∀ hp ∈ chain, hp ∈ dp.hash h) (hclear : Clear dp.bufs.data item chain) :
    ∃ r, dtRodataXindex dp item chain = some r ∧
      ∀ off, r = some off → off ≤ dp.size ∧ verdict item (dp.bufs.data.drop off) = some true := by
  induction chain with
  | nil => exact ⟨none, rfl, nofun⟩
  | cons hp chain ih =>
    have hhp := hchain hp mem_cons_self
    have hle := (hwf.place h hp hhp).2.2
    rw [Clear] at hclear
    rw [dtRodataXindex, hwf.compare hhp, drop_contents hwf hle]
    cases hv : verdict item (dp.bufs.data.drop hp.off) with
    | none =>
      rw [hv] at hclear
      exact hclear.elim
    | some v =>
      -- what is behind the data does not matter
      rw [verdict_append_of_some hv]
      cases v with
      | true =>
        refine ⟨some hp.off, rfl, fun off hoff => ?_⟩
        rw [← some.inj hoff]
        exact ⟨hle, hv⟩
      | false =>
        rw [hv] at hclear
        exact ih (fun hp' hmem => hchain hp' (mem_cons_of_mem _ hmem)) hclear

/-! ## Insertion -/

theorem Memory.length_alloc (m : Memory) (bufsz : Nat) :
    ∀ k, ∀ b ∈ m.alloc bufsz k, b.length = bufsz := by
  intro k b hb
  obtain ⟨f, -, rfl⟩ := map_eq_some_iff.mp hb
  rw [length_map, length_range]

theorem emitted_iff (hwf : Wf dp) :
    Emitted dp item off ↔ ∃ pre s, dp.bufs.data = pre ++ (item ++ s) ∧ pre.length = off := by
  rw [Emitted, dtRodataWrite, hwf.bufs.write, hwf.size]
  constructor
  · rintro ⟨_, htake⟩
    refine ⟨dp.bufs.data.take off, (dp.bufs.data.drop off).drop item.length, ?_, ?_⟩
    · have hsplit := take_append_drop item.length (dp.bufs.data.drop off)
      rw [htake] at hsplit
      rw [hsplit, take_append_drop]
    · rw [length_take]
      omega
  · rintro ⟨pre, s, hdata, rfl⟩
    rw [hdata, drop_left, take_left, length_append, length_append]
    exact ⟨by omega, rfl⟩

/-- What is added to the table leaves every item where it is. -/
theorem Emitted.extend (hwf : Wf dp) (hwf' : Wf dp') {more : List Byte}
    (hdata : dp'.bufs.data = dp.bufs.data ++ more) (h : Emitted dp item off) :
    Emitted dp' item off := by
  obtain ⟨pre, s, heq, hoff⟩ := (emitted_iff hwf).mp h
  refine (emitted_iff hwf').mpr ⟨pre, s ++ more, ?_, hoff⟩
  rw [hdata, heq, append_assoc, append_assoc]

theorem mem_update {α : Type} {hash : Nat → List α} {c k : Nat} {hp new : α}
    (h : hp ∈ Function.update hash c (new :: hash c) k) : hp = new ∨ hp ∈ hash k := by
  by_cases hk : k = c
  · subst hk
    rw [Function.update_self] at h
    exact mem_cons.mp h
  · rw [Function.update_of_ne hk] at h
    exact .inr h

/-- What an insertion comes to: nothing is added, or the item is, at the end. -/
theorem insert_cases {r : Option Nat} (hwf : Wf dp)
    (h : dtRodataInsert m dp (some item) = some (dp', r)) :
    Wf dp' ∧ ∃ found, dtRodataXindex dp item (dp.hash (chainOf dp item)) = some found ∧
      ((dp'.bufs.data = dp.bufs.data ∧ (r = none ∨ r = found)) ∨
        dp'.bufs.data = dp.bufs.data ++ item ∧ r = some dp.size) := by
  rw [dtRodataInsert] at h
  cases hfound : dtRodataXindex dp item (dp.hash (chainOf dp item)) with
  | none => rw [hfound] at h; cases h
  | some found =>
    rw [hfound] at h
    cases found with
    | some off =>
      obtain ⟨rfl, rfl⟩ := Prod.mk.inj (some.inj h)
      exact ⟨hwf, some off, rfl, .inl ⟨rfl, .inr rfl⟩⟩
    | none =>
      dsimp only at h
      split at h
      swap
      · obtain ⟨rfl, rfl⟩ := Prod.mk.inj (some.inj h)
        exact ⟨hwf, none, rfl, .inl ⟨rfl, .inl rfl⟩⟩
      cases hcopy : copyin dp.bufsz (m.alloc dp.bufsz) dp.bufs item with
      | mk bufs ok =>
        rw [hcopy] at h
        obtain ⟨hbufs, hdata⟩ := copyin_spec (m.length_alloc _) hwf.bufs hcopy
        cases ok with
        | false =>
          obtain ⟨rfl, rfl⟩ := Prod.mk.inj (some.inj h)
          replace hdata := hdata.trans (append_nil _)
          exact ⟨⟨hbufs, hwf.size.trans (congrArg List.length hdata.symm), hwf.place⟩, none, rfl,
            .inl ⟨hdata, .inl rfl⟩⟩
        | true =>
          obtain ⟨rfl, rfl⟩ := Prod.mk.inj (some.inj h)
          refine ⟨⟨hbufs, ?_, ?_⟩, none, rfl, .inr ⟨hdata, rfl⟩⟩
          · show dp.size + item.length = bufs.data.length
            rw [show bufs.data = _ ++ item from hdata, length_append, hwf.size]
          · intro k hp hmem
            obtain rfl | hmem := mem_update hmem
            · exact ⟨hwf.size.trans hwf.bufs.length_data, hwf.bufs.used.2, Nat.le_add_right ..⟩
            · obtain ⟨hoff, hdata, hle⟩ := hwf.place k hp hmem
              exact ⟨hoff, hdata, Nat.le_add_right_of_le hle⟩

/-- One insertion gives an offset at which the item is in what will be written. -/
def InsertRight (m : Memory) (dp : DtRodata) (item : List Byte) : Prop :=
  ∃ dp' r, dtRodataInsert m dp (some item) = some (dp', r) ∧
    ∀ off, r = some off → Emitted dp' item off

theorem exists_insert {found : Option Nat}
    (h : dtRodataXindex dp item (dp.hash (chainOf dp item)) = some found) :
    ∃ dp' r, dtRodataInsert m dp (some item) = some (dp', r) := by
  rw [dtRodataInsert, h]
  cases found with
  | some off => exact ⟨dp, some off, rfl⟩
  | none =>
    dsimp only
    split
    · cases copyin dp.bufsz (m.alloc dp.bufsz) dp.bufs item with
      | mk bufs ok => cases ok <;> exact ⟨_, _, rfl⟩
    · exact ⟨dp, none, rfl⟩

/-- An offset that is found, or the one of the new item. -/
theorem emitted_of_clear {r : Option Nat} (hwf : Wf dp)
    (hclear : Clear dp.bufs.data item (dp.hash (chainOf dp item)))
    (h : dtRodataInsert m dp (some item) = some (dp', r)) :
    ∀ off, r = some off → Emitted dp' item off := by
  obtain ⟨hwf', found, hfound, hcases⟩ := insert_cases hwf h
  obtain ⟨r', hr', hright⟩ := xindex_of_clear hwf (fun _ hmem => hmem) hclear
  obtain rfl : found = r' := some.inj (hfound.symm.trans hr')
  rintro off rfl
  rw [emitted_iff hwf']
  obtain ⟨hdata, hnone | hsome⟩ | ⟨hdata, hsize⟩ := hcases
  · cases hnone
  · obtain ⟨hle, hv⟩ := hright off hsome.symm
    obtain ⟨s, hs⟩ := verdict_eq_true hv
    refine ⟨dp.bufs.data.take off, s, ?_, ?_⟩
    · rw [hdata, ← hs, take_append_drop]
    · rw [length_take, ← hwf.size, Nat.min_eq_left hle]
  · refine ⟨dp.bufs.data, [], ?_, ?_⟩
    · rw [hdata, append_nil]
    · rw [← hwf.size, some.inj hsize]

/-! ## What the buffer was allocated with -/

/-- The table with something else in the part of the last buffer that is not in use. -/
def DtRodata.withUnused (dp : DtRodata) (g : List Byte) : DtRodata :=
  { dp with bufs := { dp.bufs with last := dp.bufs.last.take dp.bufs.used ++ g } }

theorem Wf.withUnused (hwf : Wf dp) {g : List Byte} (hg : dp.bufs.used + g.length = dp.bufsz) :
    Wf (dp.withUnused g) ∧ (dp.withUnused g).bufs.data = dp.bufs.data ∧
      (dp.withUnused g).bufs.last.drop dp.bufs.used = g := by
  have htake : (dp.bufs.last.take dp.bufs.used).length = dp.bufs.used := by
    rw [length_take, hwf.bufs.last, Nat.min_eq_left hwf.bufs.used.2]
  have hdata : (dp.withUnused g).bufs.data = dp.bufs.data := by
    show dp.bufs.init.flatten ++ (dp.bufs.last.take dp.bufs.used ++ g).take dp.bufs.used = _
    rw [take_append_of_le_length (Nat.le_of_eq htake.symm),
      take_of_length_le (Nat.le_of_eq htake), data]
  refine ⟨⟨⟨hwf.bufs.init, ?_, hwf.bufs.used⟩, hwf.size.trans (congrArg List.length hdata.symm),
    hwf.place⟩, hdata, ?_⟩
  · show (dp.bufs.last.take dp.bufs.used ++ g).length = dp.bufsz
    rw [length_append, htake, hg]
  · show (dp.bufs.last.take dp.bufs.used ++ g).drop dp.bufs.used = g
    rw [drop_append_of_le_length (Nat.le_of_eq htake.symm),
      drop_eq_nil_of_le (Nat.le_of_eq htake), nil_append]

theorem verdict_take_self (s z : List Byte) (n : Nat) :
    verdict s ((s ++ z).take n) ≠ some false := by
  induction s generalizing n with
  | nil => exact fun h => absurd (some.inj h) (by decide)
  | cons a s ih =>
    cases n with
    | zero => exact (some_ne_none false).symm
    | succ n =>
      rw [cons_append, take_succ_cons, verdict, if_pos rfl]
      exact ih n

/-- Where the search comes to an item that is not followed by enough data, what follows in the buffer
may be the rest of what is searched for. -/
theorem xindex_of_not_clear (hwf : Wf dp) {chain : List RoHash}
    (hchain : ∀ hp ∈ chain, hp ∈ dp.hash h) (hclear : ¬ Clear dp.bufs.data item chain) :
    ∃ g, dp.bufs.used + g.length = dp.bufsz ∧
      ∀ off, dtRodataXindex (dp.withUnused g) item chain = some off →
        ∃ o, off = some o ∧ dp.size < o + item.length := by
  induction chain with
  | nil => exact absurd trivial hclear
  | cons hp chain ih =>
    have hhp := hchain hp mem_cons_self
    have hle := (hwf.place h hp hhp).2.2
    rw [Clear] at hclear
    have hcompare : ∀ g, dp.bufs.used + g.length = dp.bufsz →
        dtRodataCompare (dp.withUnused g) hp item = verdict item (dp.bufs.data.drop hp.off ++ g) := by
      intro g hg
      obtain ⟨hwf', hdata, hdrop⟩ := hwf.withUnused hg
      rw [hwf'.compare hhp, drop_contents hwf' hle, hdata]
      exact congrArg (fun z => verdict item (_ ++ z)) hdrop
    cases hv : verdict item (dp.bufs.data.drop hp.off) with
    | none =>
      obtain ⟨s, rfl, hs⟩ := verdict_eq_none hv
      have hlen : 0 < s.length := length_pos_of_ne_nil hs
      have hg : dp.bufs.used + ((s ++ List.replicate dp.bufsz 0).take
          (dp.bufsz - dp.bufs.used)).length = dp.bufsz := by
        have := hwf.bufs.used
        rw [length_take, length_append, length_replicate]
        omega
      refine ⟨_, hg, fun off hoff => ?_⟩
      rw [dtRodataXindex, hcompare _ hg, verdict_append rfl, if_pos rfl] at hoff
      cases hw : verdict s ((s ++ List.replicate dp.bufsz 0).take (dp.bufsz - dp.bufs.used)) with
      | none => rw [hw] at hoff; cases hoff
      | some v =>
        cases v with
        | false => exact absurd hw (verdict_take_self s _ _)
        | true =>
          rw [hw] at hoff
          refine ⟨hp.off, (some.inj hoff).symm, ?_⟩
          rw [length_append, length_drop, ← hwf.size]
          omega
    | some v =>
      rw [hv] at hclear
      cases v with
      | true => exact absurd trivial hclear
      | false =>
        obtain ⟨g, hg, hbad⟩ :=
          ih (fun hp' hmem => hchain hp' (mem_cons_of_mem _ hmem)) hclear
        refine ⟨g, hg, fun off hoff => hbad off ?_⟩
        rw [dtRodataXindex, hcompare g hg, verdict_append_of_some hv] at hoff
        exact hoff

/-- An insertion is right whatever the buffer holds if and only if the search is clear. -/
theorem insertRight_iff (hwf : Wf dp) (m : Memory) (item : List Byte) :
    (∀ g, dp.bufs.used + g.length = dp.bufsz → InsertRight m (dp.withUnused g) item) ↔
      Clear dp.bufs.data item (dp.hash (chainOf dp item)) := by
  constructor
  · intro hright
    by_contra hclear
    obtain ⟨g, hg, hbad⟩ := xindex_of_not_clear hwf (fun _ hmem => hmem) hclear
    obtain ⟨hwf', hdata, -⟩ := hwf.withUnused hg
    obtain ⟨dp', r, hins, hemitted⟩ := hright g hg
    obtain ⟨-, found, hfound, -⟩ := insert_cases hwf' hins
    obtain ⟨o, rfl, ho⟩ := hbad found hfound
    rw [dtRodataInsert, hfound] at hins
    obtain ⟨rfl, rfl⟩ := Prod.mk.inj (some.inj hins)
    exact absurd (hemitted o rfl).1 (Nat.not_le.mpr ho)
  · intro hclear g hg
    obtain ⟨hwf', hdata, -⟩ := hwf.withUnused hg
    have hclear' : Clear (dp.withUnused g).bufs.data item
        ((dp.withUnused g).hash (chainOf (dp.withUnused g) item)) := by
      rw [hdata]
      exact hclear
    obtain ⟨found, hfound, -⟩ := xindex_of_clear hwf' (fun _ hmem => hmem) hclear'
    obtain ⟨dp', r, hins⟩ := exists_insert hfound
    exact ⟨dp', r, hins, emitted_of_clear hwf' hclear' hins⟩

/-! ## Runs -/

/-- The tables a run of clear insertions comes to, and what was inserted with the offset that was
returned. Every insertion has its own memory. -/
inductive Reach (bufsz hashsz : Nat) : DtRodata → List (List Byte × Nat) → Prop
  | create (fresh : Nat → Byte) : Reach bufsz hashsz (dtRodataCreate bufsz hashsz fresh) []
  | insert {dp dp' : DtRodata} {log : List (List Byte × Nat)} {m : Memory} {item : List Byte}
      {r : Option Nat} (hreach : Reach bufsz hashsz dp log)
      (hclear : Clear dp.bufs.data item (dp.hash (chainOf dp item)))
      (hins : dtRodataInsert m dp (some item) = some (dp', r)) :
      Reach bufsz hashsz dp' (log ++ r.toList.map fun off => (item, off))

theorem Reach.right {bufsz hashsz : Nat} (hbufsz : 0 < bufsz) {log : List (List Byte × Nat)}
    (h : Reach bufsz hashsz dp log) : Wf dp ∧ ∀ p ∈ log, Emitted dp p.1 p.2 := by
  induction h with
  | create fresh => exact ⟨wf_create hbufsz hashsz fresh, nofun⟩
  | @insert dp dp' log m item r _ hclear hins ih =>
    obtain ⟨hwf, hlog⟩ := ih
    obtain ⟨hwf', _, -, hcases⟩ := insert_cases hwf hins
    obtain ⟨more, hdata⟩ : ∃ more, dp'.bufs.data = dp.bufs.data ++ more := by
      obtain ⟨hdata, -⟩ | ⟨hdata, -⟩ := hcases
      · exact ⟨[], by rw [hdata, append_nil]⟩
      · exact ⟨item, hdata⟩
    refine ⟨hwf', fun p hp => ?_⟩
    obtain hp | hp := mem_append.mp hp
    · exact (hlog p hp).extend hwf hwf' hdata
    · obtain ⟨off, hoff, rfl⟩ := mem_map.mp hp
      exact emitted_of_clear hwf hclear hins off (mem_toList.mp hoff)

/-- **Every item is where its offset says** in a run of insertions whose searches are clear, and an
insertion after it is right whatever the last buffer was allocated with exactly when its search is
clear: when it does not come to an item that is followed, up to the end of the table, by the beginning
of the new one only. -/
theorem rodata_iff {bufsz hashsz : Nat} (hbufsz : 0 < bufsz) {dp : DtRodata}
    {log : List (List Byte × Nat)} (hreach : Reach bufsz hashsz dp log) :
    (∀ item off, (item, off) ∈ log → Emitted dp item off) ∧
      ∀ m item,
        (∀ g, dp.bufs.used + g.length = dp.bufsz → InsertRight m (dp.withUnused g) item) ↔
          Clear dp.bufs.data item (dp.hash (chainOf dp item)) := by
  obtain ⟨hwf, hlog⟩ := hreach.right hbufsz
  exact ⟨fun item off hmem => hlog (item, off) hmem, fun m item => insertRight_iff hwf m item⟩

/-- The second item is in the hash chain of the first one, which the search passes. -/
theorem items_of_one_chain_emitted :
    ∃ dp, Reach 8 211 dp [([1], 1), ([2, 106], 2)] ∧ Emitted dp [1] 1 ∧ Emitted dp [2, 106] 2 := by
  let m : Memory := ⟨true, fun _ => none⟩
  obtain ⟨dp, hins, hclear, dp', hins'⟩ : ∃ dp,
      dtRodataInsert m (dtRodataCreate 8 211 fun _ => 0) (some [1]) = some (dp, some 1) ∧
      Clear dp.bufs.data [2, 106] (dp.hash (chainOf dp [2, 106])) ∧
      ∃ dp', dtRodataInsert m dp (some [2, 106]) = some (dp', some 2) :=
    ⟨_, rfl, trivial, _, rfl⟩
  have hreach : Reach 8 211 dp' [([1], 1), ([2, 106], 2)] :=
    .insert (.insert (.create fun _ => 0) trivial hins) hclear hins'
  have hlog := (rodata_iff (by decide) hreach).1
  exact ⟨dp', hreach, hlog [1] 1 (by simp), hlog [2, 106] 2 (by simp)⟩

/-- The item `[1]` is at offset 1, at the end of the table, and the buffer was allocated with 122 behind
it. So `[1, 122]`, which has the same hash chain, is found at offset 1, though the table has two bytes
only. -/
theorem longer_item_found :
    (do
      let dp := dtRodataCreate 8 211 fun i => if i = 2 then 122 else 0
      let (dp, off) ← dtRodataInsert ⟨true, fun _ => none⟩ dp (some [1])
      let (dp, off') ← dtRodataInsert ⟨true, fun _ => none⟩ dp (some [1, 122])
      pure (off, off', dp.size, dtRodataWrite dp)) = some (some 1, some 1, 2, [0, 1]) := by
  decide +kernel

end DTrace.Rodata
