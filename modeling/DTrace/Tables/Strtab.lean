import DTrace.Tables.Rodata

/-!
# The string table

Strings are put in one table with their NUL characters, each once. The buffers are those of
`BufList`; a string goes over the ends of buffers, and is compared over them.

* A string that is there ends in the data, so no comparison goes beyond it (`Wf.compare`). This is what
  a search comes to: the first entry of the hash chain that has the string (`Wf.xindex`).
* `insert_cases` says what an insertion does: the offset that is found, or the string at the end of the
  data, or nothing at all when there is no memory.
* `strtab_runs` is the table after any run of insertions.
-/

namespace DTrace.Strtab

open BufList BufList.Bufs List Option
open DTrace.Rodata (Byte Memory dtGenHval mem_update)

/-- The characters of a string, without the NUL. -/
@[ext]
structure CStr where
  val : List Byte
  property : (0 : Byte) ∉ val
  deriving DecidableEq

/-- The empty string. -/
def CStr.empty : CStr := ⟨[], not_mem_nil⟩

/-- The string with its NUL. -/
def CStr.bytes (s : CStr) : List Byte := s.val ++ [0]

/-- `str2hval`: the loop of `dt_gen_hval` up to the NUL. -/
def str2hval (s : CStr) (hval : BitVec 32) : BitVec 32 := dtGenHval s.val hval

structure StrHash where
  buf : Nat
  data : Nat
  off : Nat
  len : Nat
  deriving DecidableEq, Repr

structure DtStrtab where
  hash : Nat → List StrHash
  hashsz : Nat
  bufs : Bufs Byte
  bufsz : Nat
  nstrs : Nat
  size : Nat

/-- The table of the empty string; `fresh` is what the first buffer holds. -/
def dtStrtabCreate (bufsz hashsz : Nat) (fresh : Nat → Byte) : DtStrtab where
  hash := fun _ => []
  hashsz := hashsz
  bufs := put ⟨[], (List.range bufsz).map fresh, 0⟩ [0]
  bufsz := bufsz
  nstrs := 1
  size := 1

/-- `strncmp` gives zero, for two arrays of `n` characters -/
def strncmpEq : List Byte → List Byte → Bool
  | a :: p, b :: q => if a ≠ b then false else if a = 0 then true else strncmpEq p q
  | _, _ => true

def dtStrtabCompare (sp : DtStrtab) (hp : StrHash) (str : CStr) : Option Bool :=
  compare strncmpEq sp.bufsz sp.bufs hp.buf hp.data str.bytes

/-- `none` when a comparison reads over the end of the buffers; the second `none` is -1. -/
def dtStrtabXindex (sp : DtStrtab) (str : CStr) : List StrHash → Option (Option Nat)
  | [] => some none
  | hp :: rest =>
    match dtStrtabCompare sp hp str with
    | none => none
    | some true => some (some hp.off)
    | some false => dtStrtabXindex sp str rest

/-- The hash chain of a string. -/
def chainOf (sp : DtStrtab) (str : CStr) : Nat :=
  (str2hval str (BitVec.ofNat 32 str.val.length)).toNat % sp.hashsz

def dtStrtabIndex (sp : DtStrtab) : Option CStr → Option (Option Nat)
  | none => some (some 0)
  | some str =>
    if str.val = [] then some (some 0)
    else dtStrtabXindex sp str (sp.hash (chainOf sp str))

def dtStrtabInsert (m : Memory) (sp : DtStrtab) :
    Option CStr → Option (DtStrtab × Option Nat)
  | none => some (sp, some 0)
  | some str =>
    if str.val = [] then some (sp, some 0)
    else
      match dtStrtabXindex sp str (sp.hash (chainOf sp str)) with
      | none => none
      | some (some off) => some (sp, some off)
      | some none =>
        if m.entry then
          let hp : StrHash := ⟨sp.bufs.init.length, sp.bufs.used, sp.size, str.val.length⟩
          match copyin sp.bufsz (m.alloc sp.bufsz) sp.bufs str.bytes with
          | (bufs, false) => some ({ sp with bufs := bufs }, none)
          | (bufs, true) => some ({ sp with
              bufs := bufs
              nstrs := sp.nstrs + 1
              size := sp.size + (str.val.length + 1)
              hash := Function.update sp.hash (chainOf sp str)
                (hp :: sp.hash (chainOf sp str)) }, some hp.off)
        else some (sp, none)

def dtStrtabSize (sp : DtStrtab) : Nat := sp.size

/-- What is given to the callback, one after another. -/
def dtStrtabWrite (sp : DtStrtab) : List Byte := sp.bufs.write

/-! ## Strings in memory -/

/-- The characters up to the NUL. -/
def cstrOf (r : List Byte) : List Byte := r.takeWhile (· ≠ 0)

theorem cstrOf_cons (b : Byte) (r : List Byte) :
    cstrOf (b :: r) = if b = 0 then [] else b :: cstrOf r := by
  unfold cstrOf
  rw [takeWhile_cons]
  by_cases hb : b = 0
  · rw [if_pos hb, if_neg (by simpa using hb)]
  · rw [if_neg hb, if_pos (by simpa using hb)]

variable (s : CStr) {r : List Byte} {sp sp' : DtStrtab}

theorem CStr.length_bytes : s.bytes.length = s.val.length + 1 := by
  rw [CStr.bytes, length_append, length_singleton]

theorem cstrOf_append_zero {s : List Byte} (hs : (0 : Byte) ∉ s) (r : List Byte) :
    cstrOf (s ++ 0 :: r) = s := by
  induction s with
  | nil => rw [nil_append, cstrOf_cons, if_pos rfl]
  | cons a s ih =>
    rw [mem_cons, not_or] at hs
    rw [cons_append, cstrOf_cons, if_neg (Ne.symm hs.1), ih hs.2]

/-- What is behind the NUL does not matter. -/
theorem cstrOf_append (hr : 0 ∈ r) (g : List Byte) : cstrOf (r ++ g) = cstrOf r := by
  induction r with
  | nil => cases hr
  | cons b r ih =>
    rw [cons_append, cstrOf_cons, cstrOf_cons]
    split
    · rfl
    · next hb => rw [ih ((mem_cons.mp hr).resolve_left (Ne.symm hb))]

/-- The string and its NUL are the first of the bytes. -/
theorem exists_of_cstrOf (hr : 0 ∈ r) : ∃ rest, r = cstrOf r ++ 0 :: rest := by
  induction r with
  | nil => cases hr
  | cons b r ih =>
    rw [cstrOf_cons]
    split
    · next hb => exact ⟨r, by rw [hb, nil_append]⟩
    · next hb =>
      obtain ⟨rest, heq⟩ := ih ((mem_cons.mp hr).resolve_left (Ne.symm hb))
      exact ⟨rest, by rw [cons_append, ← heq]⟩

/-- A comparison with a string that ends tells whether it is the one. -/
theorem verdict_bytes (hr : 0 ∈ r) : verdict s.bytes r = some (decide (cstrOf r = s.val)) := by
  obtain ⟨s, hs⟩ := s
  show verdict (s ++ [0]) r = some (decide (cstrOf r = s))
  induction s generalizing r with
  | nil =>
    cases r with
    | nil => cases hr
    | cons b r =>
      rw [nil_append, verdict, cstrOf_cons]
      by_cases hb : b = 0
      · rw [if_pos hb.symm, if_pos hb]
        rfl
      · rw [if_neg (Ne.symm hb), if_neg hb, decide_eq_false (cons_ne_nil _ _)]
  | cons a s ih =>
    rw [mem_cons, not_or] at hs
    cases r with
    | nil => cases hr
    | cons b r =>
      rw [cons_append, verdict, cstrOf_cons]
      by_cases hab : a = b
      · subst hab
        rw [if_pos rfl, if_neg (Ne.symm hs.1),
          ih ((mem_cons.mp hr).resolve_left hs.1) hs.2]
        simp only [List.cons.injEq, true_and]
      · rw [if_neg hab]
        split
        · rw [decide_eq_false (cons_ne_nil _ _).symm]
        · rw [decide_eq_false fun h => hab (List.cons.inj h).1.symm]

/-- `strncmp` is equality where a NUL can only be the last character. -/
theorem strncmpEq_eq {s : List Byte} (hlen : r.length = s.length)
    (hzero : ∀ p q, s = p ++ 0 :: q → q = []) : strncmpEq r s = decide (r = s) := by
  induction s generalizing r with
  | nil =>
    obtain rfl := eq_nil_of_length_eq_zero hlen
    rfl
  | cons b s ih =>
    obtain ⟨a, r, rfl⟩ := exists_cons_of_length_eq_add_one hlen
    have hlen' : r.length = s.length := Nat.succ.inj hlen
    rw [strncmpEq]
    by_cases hab : a = b
    · subst hab
      rw [if_neg (not_not_intro rfl)]
      by_cases ha : a = 0
      · -- the strings end here
        subst ha
        obtain rfl := hzero [] s rfl
        obtain rfl := eq_nil_of_length_eq_zero hlen'
        rfl
      · rw [if_neg ha, ih hlen' fun p q hs => hzero (a :: p) q (by rw [hs]; rfl)]
        simp only [List.cons.injEq, true_and]
    · rw [if_pos hab, decide_eq_false fun h => hab (List.cons.inj h).1]

/-- The NUL is the last of the bytes. -/
theorem CStr.eq_nil_of_bytes {p q : List Byte} (h : s.bytes = p ++ 0 :: q) : q = [] := by
  obtain rfl | ⟨l, x, rfl⟩ := eq_nil_or_concat q
  · rfl
  · rw [concat_eq_append, ← cons_append, ← append_assoc] at h
    obtain ⟨hs, -⟩ := append_inj' h rfl
    refine absurd ?_ s.property
    rw [hs]
    exact mem_append_right p mem_cons_self

theorem compares_strncmpEq : Compares strncmpEq s.bytes := by
  intro pre t ht n r hlen
  refine strncmpEq_eq hlen fun p q hpq => ?_
  have hbytes : s.bytes = (pre ++ p) ++ 0 :: (q ++ t.drop n) := by
    have hsplit := take_append_drop n t
    rw [hpq, append_assoc, cons_append] at hsplit
    rw [ht, append_assoc, hsplit]
  exact (append_eq_nil_iff.mp (s.eq_nil_of_bytes hbytes)).1

/-! ## The search -/

/-- What holds of a table in every run: an entry of the hash table is at its place, and a string there
ends. -/
structure Wf (sp : DtStrtab) : Prop where
  bufs : sp.bufs.Wf sp.bufsz
  size : sp.size = sp.bufs.data.length
  first : ∃ rest, sp.bufs.data = 0 :: rest
  place : ∀ h, ∀ hp ∈ sp.hash h, hp.off = hp.buf * sp.bufsz + hp.data ∧ hp.data ≤ sp.bufsz
  ends : ∀ h, ∀ hp ∈ sp.hash h, 0 ∈ sp.bufs.data.drop hp.off

theorem lt_length_of_mem_drop {l : List Byte} {n : Nat} {b : Byte} (h : b ∈ l.drop n) :
    n < l.length := by
  by_contra hle
  rw [drop_eq_nil_of_le (Nat.not_lt.mp hle)] at h
  cases h

/-- A comparison does not go beyond the data. -/
theorem Wf.compare (hwf : Wf sp) {h : Nat} {hp : StrHash} (hhp : hp ∈ sp.hash h) (s : CStr) :
    dtStrtabCompare sp hp s = some (decide (cstrOf (sp.bufs.data.drop hp.off) = s.val)) := by
  obtain ⟨hoff, hdata⟩ := hwf.place h hp hhp
  have hends := hwf.ends h hp hhp
  have hlt := lt_length_of_mem_drop hends
  rw [dtStrtabCompare, compare_eq hwf.bufs (compares_strncmpEq s) hdata (hoff ▸ Nat.le_of_lt hlt), ← hoff,
    contents_eq, drop_append_of_le_length (Nat.le_of_lt hlt)]
  exact verdict_append_of_some (verdict_bytes s hends) _

/-- The first entry that has the string. -/
def search (data : List Byte) (s : CStr) (chain : List StrHash) : Option Nat :=
  (chain.find? fun hp => decide (cstrOf (data.drop hp.off) = s.val)).map (·.off)

theorem Wf.xindex (hwf : Wf sp) (s : CStr) {h : Nat} {chain : List StrHash}
    (hchain : ∀ hp ∈ chain, hp ∈ sp.hash h) :
    dtStrtabXindex sp s chain = some (search sp.bufs.data s chain) := by
  induction chain with
  | nil => rfl
  | cons hp chain ih =>
    rw [dtStrtabXindex, hwf.compare (hchain hp mem_cons_self), search, find?_cons]
    cases decide (cstrOf (sp.bufs.data.drop hp.off) = s.val) with
    | true => rfl
    | false => exact ih fun hp' hmem => hchain hp' (mem_cons_of_mem _ hmem)

/-- The offset of a string in the table. -/
def lookup (sp : DtStrtab) (s : CStr) : Option Nat :=
  if s.val = [] then some 0 else search sp.bufs.data s (sp.hash (chainOf sp s))

theorem Wf.index (hwf : Wf sp) (str : Option CStr) :
    dtStrtabIndex sp str = some (lookup sp (str.getD .empty)) := by
  cases str with
  | none => rfl
  | some s =>
    rw [dtStrtabIndex, getD_some, lookup, hwf.xindex s fun _ hmem => hmem]
    split <;> rfl

/-- At its offset there is the string, with the NUL. -/
theorem Wf.drop_lookup (hwf : Wf sp) {s : CStr} {off : Nat} (h : lookup sp s = some off) :
    ∃ rest, sp.bufs.data.drop off = s.bytes ++ rest := by
  unfold lookup at h
  split at h
  · next hs =>
    obtain ⟨rest, hrest⟩ := hwf.first
    refine ⟨rest, ?_⟩
    rw [← some.inj h, hrest, CStr.bytes, hs]
    rfl
  · obtain ⟨hp, hfind, rfl⟩ := map_eq_some_iff.mp h
    have hcstr : cstrOf (sp.bufs.data.drop hp.off) = s.val := by
      simpa using find?_some hfind
    obtain ⟨rest, hrest⟩ := exists_of_cstrOf (hwf.ends _ hp (mem_of_find?_eq_some hfind))
    refine ⟨rest, hrest.trans ?_⟩
    rw [hcstr, CStr.bytes, append_assoc]
    rfl

theorem Wf.lookup_inj (hwf : Wf sp) {s t : CStr} {off : Nat} (hs : lookup sp s = some off)
    (ht : lookup sp t = some off) : s = t := by
  obtain ⟨rest, hrest⟩ := hwf.drop_lookup hs
  obtain ⟨rest', hrest'⟩ := hwf.drop_lookup ht
  have heq := congrArg cstrOf (hrest.symm.trans hrest')
  rw [CStr.bytes, CStr.bytes, append_assoc, append_assoc] at heq
  exact CStr.ext ((cstrOf_append_zero s.property rest).symm.trans
    (heq.trans (cstrOf_append_zero t.property rest')))

/-! ## Insertion -/

/-- The table with a new string at the end. -/
structure Added (sp sp' : DtStrtab) (s : CStr) : Prop where
  hashsz : sp'.hashsz = sp.hashsz
  data : sp'.bufs.data = sp.bufs.data ++ s.bytes
  hash : ∃ hp : StrHash, hp.off = sp.size ∧
    sp'.hash = Function.update sp.hash (chainOf sp s) (hp :: sp.hash (chainOf sp s))

/-- The table with all strings where they were. -/
structure Same (sp sp' : DtStrtab) : Prop where
  hashsz : sp'.hashsz = sp.hashsz
  data : sp'.bufs.data = sp.bufs.data
  hash : sp'.hash = sp.hash

theorem Same.lookup (h : Same sp sp') (s : CStr) : lookup sp' s = lookup sp s := by
  unfold Strtab.lookup chainOf
  rw [h.hash, h.data, h.hashsz]

/-- **One insertion** finds the string, or adds it, or leaves the table as it is. -/
theorem insert_cases (m : Memory) (hwf : Wf sp) (str : Option CStr) :
    ∃ sp' r, dtStrtabInsert m sp str = some (sp', r) ∧ Wf sp' ∧
      ((Same sp sp' ∧ r = lookup sp (str.getD .empty) ∧
          (m.entry → (∀ j, (m.bufs j).isSome) → r ≠ none)) ∨
        (Added sp sp' (str.getD .empty) ∧ lookup sp (str.getD .empty) = none ∧ r = some sp.size)) := by
  have hsame : Same sp sp := ⟨rfl, rfl, rfl⟩
  cases str with
  | none =>
    exact ⟨sp, some 0, rfl, hwf, .inl ⟨hsame, rfl, fun _ _ => some_ne_none 0⟩⟩
  | some s =>
    rw [getD_some, dtStrtabInsert, hwf.xindex s fun _ hmem => hmem, lookup]
    split
    · exact ⟨sp, some 0, rfl, hwf, .inl ⟨hsame, rfl, fun _ _ => some_ne_none 0⟩⟩
    cases search sp.bufs.data s (sp.hash (chainOf sp s)) with
    | some off =>
      exact ⟨sp, some off, rfl, hwf, .inl ⟨hsame, rfl, fun _ _ => some_ne_none off⟩⟩
    | none =>
      dsimp only
      split
      swap
      · next hentry =>
        exact ⟨sp, none, rfl, hwf, .inl ⟨hsame, rfl, fun h => absurd h hentry⟩⟩
      cases hcopy : copyin sp.bufsz (m.alloc sp.bufsz) sp.bufs s.bytes with
      | mk bufs ok =>
        obtain ⟨hbufs, hdata⟩ := copyin_spec (m.length_alloc _) hwf.bufs hcopy
        cases ok with
        | false =>
          replace hdata := hdata.trans (append_nil _)
          refine ⟨_, _, rfl, ⟨hbufs, ?_, ?_, hwf.place, ?_⟩,
            .inl ⟨⟨rfl, hdata, rfl⟩, rfl, fun _ hall => ?_⟩⟩
          · exact hwf.size.trans (congrArg List.length hdata.symm)
          · exact hdata ▸ hwf.first
          · exact hdata ▸ hwf.ends
          · -- with all buffers the copy does not fail
            have hok : (copyin sp.bufsz (m.alloc sp.bufsz) sp.bufs s.bytes).2 = true := by
              refine (copyin_ok_iff (m.length_alloc _) hwf.bufs).mpr fun j _ => ?_
              rw [Memory.alloc, isSome_map]
              exact hall j
            rw [hcopy] at hok
            cases hok
        | true =>
          rw [if_pos rfl] at hdata
          obtain ⟨rest, hrest⟩ := hwf.first
          refine ⟨_, _, rfl, ⟨hbufs, ?_, ⟨rest ++ s.bytes, ?_⟩, ?_, ?_⟩,
            .inr ⟨⟨rfl, hdata, _, rfl, rfl⟩, rfl, rfl⟩⟩
          · show sp.size + (s.val.length + 1) = bufs.data.length
            rw [hdata, length_append, hwf.size, s.length_bytes]
          · show bufs.data = _
            rw [hdata, hrest, cons_append]
          · intro k hp hmem
            obtain rfl | hmem := mem_update hmem
            · exact ⟨hwf.size.trans hwf.bufs.length_data, hwf.bufs.used.2⟩
            · exact hwf.place k hp hmem
          · intro k hp hmem
            obtain rfl | hmem := mem_update hmem
            · show 0 ∈ bufs.data.drop sp.size
              rw [hdata, hwf.size, drop_left]
              exact mem_append_right _ mem_cons_self
            · have hends := hwf.ends k hp hmem
              rw [hdata, drop_append_of_le_length (Nat.le_of_lt (lt_length_of_mem_drop hends))]
              exact mem_append_left _ hends

theorem search_append {data more : List Byte} {chain : List StrHash}
    (hends : ∀ hp ∈ chain, 0 ∈ data.drop hp.off) (s : CStr) :
    search (data ++ more) s chain = search data s chain := by
  unfold search
  induction chain with
  | nil => rfl
  | cons hp chain ih =>
    have hmem := hends hp mem_cons_self
    rw [find?_cons, find?_cons,
      drop_append_of_le_length (Nat.le_of_lt (lt_length_of_mem_drop hmem)), cstrOf_append hmem]
    cases decide (cstrOf (data.drop hp.off) = s.val) with
    | true => rfl
    | false => exact ih fun hp' h => hends hp' (mem_cons_of_mem _ h)

/-- The strings that were there keep their offsets. -/
theorem Added.lookup_of_some {s : CStr} (h : Added sp sp' s) (hwf : Wf sp)
    (hnew : lookup sp s = none) {t : CStr} {off : Nat} (ht : lookup sp t = some off) :
    lookup sp' t = some off := by
  have hst : s ≠ t := by
    rintro rfl
    rw [hnew] at ht
    cases ht
  obtain ⟨hp, hoff, hhash⟩ := h.hash
  have hchain : chainOf sp' t = chainOf sp t := by rw [chainOf, chainOf, h.hashsz]
  unfold lookup at ht ⊢
  split at ht
  · next hnil => rw [if_pos hnil, ht]
  · next hnil =>
    rw [if_neg hnil, hchain, h.data, hhash, ← ht]
    by_cases hk : chainOf sp t = chainOf sp s
    · -- the new entry is not the one that is searched for
      have hcstr : cstrOf ((sp.bufs.data ++ s.bytes).drop hp.off) = s.val := by
        rw [hoff, hwf.size, drop_left, CStr.bytes, cstrOf_append_zero s.property]
      rw [hk, Function.update_self, search, find?_cons, hcstr,
        decide_eq_false fun heq => hst (CStr.ext heq)]
      exact search_append (fun hp' hmem => hwf.ends _ hp' hmem) t
    · rw [Function.update_of_ne hk]
      exact search_append (fun hp' hmem => hwf.ends _ hp' hmem) t

/-- The new string has its offset. -/
theorem Added.lookup_self {s : CStr} (h : Added sp sp' s) (hwf : Wf sp)
    (hnew : lookup sp s = none) : lookup sp' s = some sp.size := by
  obtain ⟨hp, hoff, hhash⟩ := h.hash
  have hchain : chainOf sp' s = chainOf sp s := by rw [chainOf, chainOf, h.hashsz]
  have hcstr : cstrOf ((sp.bufs.data ++ s.bytes).drop hp.off) = s.val := by
    rw [hoff, hwf.size, drop_left, CStr.bytes, cstrOf_append_zero s.property]
  unfold lookup at hnew ⊢
  split at hnew
  · cases hnew
  · next hnil =>
    rw [if_neg hnil, hchain, h.data, hhash, Function.update_self, search, find?_cons, hcstr,
      decide_eq_true rfl]
    exact congrArg some hoff

/-! ## Runs -/

/-- The tables a run of insertions comes to, and the strings with the offsets that were returned; a
null pointer is the empty string. Every insertion has its own memory, and may fail. -/
inductive Reach (bufsz hashsz : Nat) : DtStrtab → List (CStr × Nat) → Prop
  | create (fresh : Nat → Byte) : Reach bufsz hashsz (dtStrtabCreate bufsz hashsz fresh) []
  | insert {sp sp' : DtStrtab} {log : List (CStr × Nat)} {m : Memory} {str : Option CStr}
      {r : Option Nat} (hreach : Reach bufsz hashsz sp log)
      (hins : dtStrtabInsert m sp str = some (sp', r)) :
      Reach bufsz hashsz sp' (log ++ r.toList.map fun off => (str.getD .empty, off))

theorem wf_create {bufsz : Nat} (hbufsz : 0 < bufsz) (hashsz : Nat) (fresh : Nat → Byte) :
    Wf (dtStrtabCreate bufsz hashsz fresh) := by
  -- the buffers are those of the other table
  have hwf := Rodata.wf_create hbufsz hashsz fresh
  have hroom : 0 + [0].length ≤ ((List.range bufsz).map fresh).length := by
    rw [length_map, length_range]
    exact hbufsz
  exact ⟨hwf.bufs, hwf.size, ⟨[], (data_put ⟨[], (List.range bufsz).map fresh, 0⟩ hroom).1⟩,
    nofun, nofun⟩

/-- A search finds what has been inserted, in every run. -/
theorem Reach.lookup {bufsz hashsz : Nat} (hbufsz : 0 < bufsz) {log : List (CStr × Nat)}
    (h : Reach bufsz hashsz sp log) : Wf sp ∧ ∀ p ∈ log, lookup sp p.1 = some p.2 := by
  induction h with
  | create fresh => exact ⟨wf_create hbufsz hashsz fresh, nofun⟩
  | @insert sp sp' log m str r _ hins ih =>
    obtain ⟨hwf, hlog⟩ := ih
    obtain ⟨_, _, hins', hwf', hcases⟩ := insert_cases m hwf str
    obtain ⟨rfl, rfl⟩ := Prod.mk.inj (some.inj (hins'.symm.trans hins))
    refine ⟨hwf', fun p hp => ?_⟩
    obtain ⟨hsame, hr, -⟩ | ⟨hadded, hnew, hr⟩ := hcases
    · rw [hsame.lookup]
      obtain hp | hp := mem_append.mp hp
      · exact hlog p hp
      · obtain ⟨off, hoff, rfl⟩ := mem_map.mp hp
        rw [← hr, mem_toList.mp hoff]
    · obtain hp | hp := mem_append.mp hp
      · exact hadded.lookup_of_some hwf hnew (hlog p hp)
      · obtain ⟨off, hoff, rfl⟩ := mem_map.mp hp
        rw [hadded.lookup_self hwf hnew, ← hr, mem_toList.mp hoff]

/-- **The string table.** After any run of insertions, each with its own memory: every string that was
given an offset is there in what is written, with its NUL; strings have the same offset exactly when
they are the same; the size is what is written; and the next insertion comes to an end, succeeds when
there is memory, and leaves the offsets and what is written as they are if it fails. -/
theorem strtab_runs {bufsz hashsz : Nat} (hbufsz : 0 < bufsz) {sp : DtStrtab}
    {log : List (CStr × Nat)} (hreach : Reach bufsz hashsz sp log) :
    (∀ s off, (s, off) ∈ log →
      ((dtStrtabWrite sp).drop off).take (s.val.length + 1) = s.val ++ [0]) ∧
    (∀ s off t off', (s, off) ∈ log → (t, off') ∈ log → (s = t ↔ off = off')) ∧
    (dtStrtabWrite sp).length = dtStrtabSize sp ∧
    ∀ m str, ∃ sp' r, dtStrtabInsert m sp str = some (sp', r) ∧
      (m.entry → (∀ j, (m.bufs j).isSome) → r ≠ none) ∧
      (r = none → dtStrtabWrite sp' = dtStrtabWrite sp ∧ dtStrtabSize sp' = dtStrtabSize sp ∧
        ∀ t, dtStrtabIndex sp' t = dtStrtabIndex sp t) := by
  obtain ⟨hwf, hlog⟩ := hreach.lookup hbufsz
  refine ⟨fun s off hmem => ?_, fun s off t off' hs ht => ⟨?_, ?_⟩, ?_, fun m str => ?_⟩
  · obtain ⟨_, hrest⟩ := hwf.drop_lookup (hlog _ hmem)
    rw [dtStrtabWrite, hwf.bufs.write, hrest, ← s.length_bytes, take_left, CStr.bytes]
  · rintro rfl
    exact some.inj ((hlog _ hs).symm.trans (hlog _ ht))
  · rintro rfl
    exact hwf.lookup_inj (hlog _ hs) (hlog _ ht)
  · rw [dtStrtabWrite, hwf.bufs.write, dtStrtabSize, hwf.size]
  · obtain ⟨sp', r, hins, hwf', hcases⟩ := insert_cases m hwf str
    obtain ⟨hsame, -, hmem⟩ | ⟨-, -, hr⟩ := hcases
    · refine ⟨sp', r, hins, hmem, fun _ => ⟨?_, ?_, fun t => ?_⟩⟩
      · rw [dtStrtabWrite, dtStrtabWrite, hwf'.bufs.write, hwf.bufs.write, hsame.data]
      · rw [dtStrtabSize, dtStrtabSize, hwf'.size, hwf.size, hsame.data]
      · rw [hwf'.index, hwf.index, hsame.lookup]
    · refine ⟨sp', r, hins, fun _ _ => hr ▸ some_ne_none _, fun hnone => ?_⟩
      rw [hr] at hnone
      cases hnone

theorem not_mem_of_all {l : List Byte} (h : l.all (· ≠ 0) = true) : (0 : Byte) ∉ l := by
  intro hmem
  exact absurd rfl (of_decide_eq_true (all_eq_true.mp h 0 hmem))

/-- Two strings over the ends of buffers, with an insertion that fails in between. -/
theorem two_strings_in_table :
    ∃ sp, Reach 2 211 sp [(⟨[97, 98], not_mem_of_all rfl⟩, 1), (⟨[98], not_mem_of_all rfl⟩, 4)] ∧
      ((dtStrtabWrite sp).drop 4).take 2 = [98, 0] := by
  obtain ⟨sp1, sp2, sp3, h1, h2, h3⟩ : ∃ sp1 sp2 sp3,
      dtStrtabInsert ⟨true, fun _ => some fun _ => 7⟩ (dtStrtabCreate 2 211 fun _ => 5)
        (some ⟨[97, 98], not_mem_of_all rfl⟩) = some (sp1, some 1) ∧
      dtStrtabInsert ⟨true, fun _ => none⟩ sp1 (some ⟨[98], not_mem_of_all rfl⟩) = some (sp2, none) ∧
      dtStrtabInsert ⟨true, fun _ => some fun _ => 7⟩ sp2 (some ⟨[98], not_mem_of_all rfl⟩) =
        some (sp3, some 4) := ⟨_, _, _, rfl, rfl, rfl⟩
  have hreach : Reach 2 211 sp3 [(⟨[97, 98], not_mem_of_all rfl⟩, 1), (⟨[98], not_mem_of_all rfl⟩, 4)] :=
    .insert (.insert (.insert (.create fun _ => 5) h1) h2) h3
  exact ⟨sp3, hreach, (strtab_runs (by decide) hreach).1 ⟨[98], not_mem_of_all rfl⟩ 4
    (mem_cons_of_mem _ mem_cons_self)⟩

end DTrace.Strtab
