import Mathlib.Algebra.Group.Nat.Defs
import Mathlib.Algebra.Group.Int.Defs
import Mathlib.Data.Int.Order.Basic
import Mathlib.Data.List.Perm.Basic
import DTrace.Lib.LinkList

/-!
# The hash table

A slot of the table has a chain of buckets, and a bucket the list of the entries that are equal to
one another; the entries are linked through the functions that `DEFINE_HE_STD_LINK_FUNCS` defines,
which all tables of the library use. When there are more than twice as many buckets as slots, an
insertion that needs another bucket doubles the number of slots first and moves every bucket to its
new slot.

`Chains` is what the buckets are of a list of live entries, wherever in the table they are; adding and
deleting an entry keep it.
-/

namespace DTrace.Htab

open LinkList List Function

/-- `dt_htab_ops_t`: entries that compare equal are an equivalence class, of one hash value. -/
structure HtabOps (E : Type) where
  hval : E → BitVec 32
  cmp : E → E → Int
  refl : ∀ a, cmp a a = 0
  symm : ∀ {a b}, cmp a b = 0 → cmp b a = 0
  trans : ∀ {a b c}, cmp a b = 0 → cmp b c = 0 → cmp a c = 0
  hash : ∀ {a b}, cmp a b = 0 → hval a = hval b

structure Bucket (E : Type) where
  hval : BitVec 32
  head : E
  nentries : Int

/-- `dt_htab_t`, with the links of the entries. -/
structure DtHtab (E : Type) where
  tab : Nat → List (Bucket E)
  size : Nat
  mask : Nat
  nbuckets : BitVec 32
  nentries : Nat
  links : Heap E

inductive Ret (E : Type) where
  | ok
  | enoent
  | enomem
  | found (entry : Option E)

variable {E : Type}

/-! ## The operations -/

def dtHtabCreate : DtHtab E where
  tab := fun _ => []
  size := 1
  mask := 0
  nbuckets := 0
  nentries := 0
  links := fun _ => .null

/-- All buckets, slot by slot. -/
def DtHtab.buckets (htab : DtHtab E) : List (Bucket E) := (List.range htab.size).flatMap htab.tab

/-- `hval & mask` -/
def slot (mask : Nat) (hval : BitVec 32) : Nat := hval.toNat &&& mask

def moveBucket (nmask : Nat) (ntab : Nat → List (Bucket E)) (bucket : Bucket E) :
    Nat → List (Bucket E) :=
  update ntab (slot nmask bucket.hval) (bucket :: ntab (slot nmask bucket.hval))

def resize (htab : DtHtab E) : DtHtab E :=
  { htab with
    tab := htab.buckets.foldl (moveBucket (htab.size <<< 1 - 1)) fun _ => []
    size := htab.size <<< 1
    mask := htab.size <<< 1 - 1 }

def isBucketOf (ops : HtabOps E) (entry : E) (bucket : Bucket E) : Bool :=
  ops.cmp bucket.head entry = 0

/-- The first bucket for which `p` holds is changed in place. -/
def modifyFirst (p : Bucket E → Bool) (f : Bucket E → Bucket E) : List (Bucket E) → List (Bucket E)
  | [] => []
  | b :: l => if p b then f b :: l else b :: modifyFirst p f l

section
variable [DecidableEq E]

/-- `dt_htab_insert` from `retry` on. `calloc` says for which sizes a new table can be had, `malloc`
whether a bucket can; each try is with a table twice the size, so they are bounded. -/
def insertRetry (ops : HtabOps E) (calloc : Nat → Bool) (malloc : Bool) (entry : E) :
    Nat → DtHtab E → Option (DtHtab E × Ret E)
  | 0, _ => none
  | tries + 1, htab =>
    let idx := slot htab.mask (ops.hval entry)
    match (htab.tab idx).find? (isBucketOf ops entry) with
    | some bucket =>
      let (links, head) := add htab.links (some bucket.head) entry
      some ({ htab with
        tab := update htab.tab idx (modifyFirst (isBucketOf ops entry)
          (fun b => { b with head := head, nentries := b.nentries + 1 }) (htab.tab idx))
        nentries := htab.nentries + 1
        links := links }, .ok)
    | none =>
      if (htab.size : Int) < (htab.nbuckets.sshiftRight 1).toInt then
        if calloc (htab.size <<< 1) then insertRetry ops calloc malloc entry tries (resize htab)
        else some (htab, .enomem)
      else if malloc then
        let (links, head) := add htab.links none entry
        some ({ htab with
          tab := update htab.tab idx (⟨ops.hval entry, head, 1⟩ :: htab.tab idx)
          nbuckets := htab.nbuckets + 1
          nentries := htab.nentries + 1
          links := links }, .ok)
      else some (htab, .enomem)

/-- There are at most 2 ^ 30 slots, so 31 tries are enough (`exists_insertRetry`). -/
def dtHtabInsert (ops : HtabOps E) (calloc : Nat → Bool) (malloc : Bool) (htab : DtHtab E) (entry : E) :
    Option (DtHtab E × Ret E) :=
  insertRetry ops calloc malloc entry 31 htab

/-- `none` when `del` reads a null pointer. -/
def dtHtabDelete (ops : HtabOps E) (htab : DtHtab E) (entry : E) : Option (DtHtab E × Ret E) :=
  let idx := slot htab.mask (ops.hval entry)
  match (htab.tab idx).find? (isBucketOf ops entry) with
  | none => some (htab, .enoent)
  | some bucket => (del htab.links bucket.head entry).map fun (links, head) =>
    match head with
    -- a bucket that is empty now is unlinked from its chain
    | none => ({ htab with
        tab := update htab.tab idx ((htab.tab idx).eraseP (isBucketOf ops entry))
        nbuckets := htab.nbuckets - 1
        nentries := htab.nentries - 1
        links := links }, .ok)
    | some head => ({ htab with
        tab := update htab.tab idx (modifyFirst (isBucketOf ops entry)
          (fun b => { b with head := head, nentries := b.nentries - 1 }) (htab.tab idx))
        nentries := htab.nentries - 1
        links := links }, .ok)

end

def dtHtabLookup (ops : HtabOps E) (htab : DtHtab E) (entry : E) : Option E :=
  ((htab.tab (slot htab.mask (ops.hval entry))).find? (isBucketOf ops entry)).map Bucket.head

/-! ## Buckets and entries -/

/-- The buckets `B` have the entries `live`; `entries` gives the list that starts with an entry. -/
structure Chains (ops : HtabOps E) (links : Heap E) (entries : E → List E) (B : List (Bucket E))
    (live : List E) : Prop where
  hval : ∀ b ∈ B, ops.hval b.head = b.hval
  isList : ∀ b ∈ B, IsList links (some b.head) (entries b.head)
  same : ∀ b ∈ B, ∀ e ∈ entries b.head, ops.cmp b.head e = 0
  count : ∀ b ∈ B, b.nentries = (entries b.head).length
  apart : B.Pairwise fun b c => ops.cmp b.head c.head ≠ 0
  nodup : live.Nodup
  perm : List.Perm (B.flatMap fun b => entries b.head) live

namespace Chains

variable {ops : HtabOps E} {links links' : Heap E} {entries : E → List E} {B B' : List (Bucket E)}
  {b : Bucket E} {live live' : List E} {e : E}

theorem nil (ops : HtabOps E) (links : Heap E) (entries : E → List E) :
    Chains ops links entries [] [] where
  hval := fun _ hb => absurd hb not_mem_nil
  isList := fun _ hb => absurd hb not_mem_nil
  same := fun _ hb => absurd hb not_mem_nil
  count := fun _ hb => absurd hb not_mem_nil
  apart := .nil
  nodup := .nil
  perm := .nil

section

variable (h : Chains ops links entries B live)

include h

/-- Neither the order of the buckets nor that of the entries matters. -/
theorem of_perm (hB : B.Perm B') (hlive : live.Perm live') :
    Chains ops links entries B' live' where
  hval := fun b hb => h.hval b (hB.mem_iff.mpr hb)
  isList := fun b hb => h.isList b (hB.mem_iff.mpr hb)
  same := fun b hb => h.same b (hB.mem_iff.mpr hb)
  count := fun b hb => h.count b (hB.mem_iff.mpr hb)
  apart := (hB.pairwise_iff fun hne heq => hne (ops.symm heq)).mp h.apart
  nodup := hlive.nodup_iff.mp h.nodup
  perm := ((hB.symm.flatMap_right _).trans h.perm).trans hlive

theorem mem_live_iff :
    e ∈ live ↔ ∃ b ∈ B, e ∈ entries b.head := by
  rw [← h.perm.mem_iff, mem_flatMap]

theorem head_mem_live (hb : b ∈ B) : b.head ∈ live :=
  h.mem_live_iff.mpr ⟨b, hb, mem_of_head? (h.isList b hb).1⟩

/-- The links of other entries can change. -/
theorem of_links (hlinks : ∀ e ∈ live, links' e = links e) :
    Chains ops links' entries B live :=
  { h with
    isList := fun b hb => (h.isList b hb).congr fun e he => hlinks e (h.mem_live_iff.mpr ⟨b, hb, he⟩) }

end

/-- A bucket is taken away, with its entries. -/
theorem tail (h : Chains ops links entries (b :: B) live) :
    ∃ rest, List.Perm (entries b.head ++ rest) live ∧ Chains ops links entries B rest := by
  have hperm := h.perm
  rw [flatMap_cons] at hperm
  refine ⟨B.flatMap fun c => entries c.head, hperm, ?_⟩
  exact {
    hval := fun c hc => h.hval c (mem_cons_of_mem b hc)
    isList := fun c hc => h.isList c (mem_cons_of_mem b hc)
    same := fun c hc => h.same c (mem_cons_of_mem b hc)
    count := fun c hc => h.count c (mem_cons_of_mem b hc)
    apart := (pairwise_cons.mp h.apart).2
    nodup := (hperm.nodup_iff.mpr h.nodup).of_append_right
    perm := .refl _ }

/-- A bucket is put before the others. -/
theorem cons [DecidableEq E] (h : Chains ops links entries B live) {l : List E}
    (hlist : IsList links (some b.head) l) (hhval : ops.hval b.head = b.hval)
    (hsame : ∀ e ∈ l, ops.cmp b.head e = 0) (hcount : b.nentries = l.length)
    (hapart : ∀ c ∈ B, ops.cmp b.head c.head ≠ 0) (hnodup : (l ++ live).Nodup) :
    Chains ops links (update entries b.head l) (b :: B) (l ++ live) := by
  have hself : update entries b.head l b.head = l := update_self ..
  -- the other buckets start with other entries
  have hother : ∀ c ∈ B, update entries b.head l c.head = entries c.head := by
    intro c hc
    refine update_of_ne (fun heq => ?_) _ _
    exact hapart c hc (heq ▸ ops.refl _)
  refine ⟨?_, ?_, ?_, ?_, pairwise_cons.mpr ⟨hapart, h.apart⟩, hnodup, ?_⟩
  · exact forall_mem_cons.mpr ⟨hhval, h.hval⟩
  · refine forall_mem_cons.mpr ⟨hself.symm ▸ hlist, fun c hc => ?_⟩
    rw [hother c hc]
    exact h.isList c hc
  · refine forall_mem_cons.mpr ⟨hself.symm ▸ hsame, fun c hc => ?_⟩
    rw [hother c hc]
    exact h.same c hc
  · refine forall_mem_cons.mpr ⟨hself.symm ▸ hcount, fun c hc => ?_⟩
    rw [hother c hc]
    exact h.count c hc
  · rw [flatMap_cons, hself, flatMap_congr hother]
    exact h.perm.append_left l

end Chains

/-! ## Adding and deleting -/

section
variable [DecidableEq E] {ops : HtabOps E} {links : Heap E} {entries : E → List E}
  {B : List (Bucket E)} {b : Bucket E} {live : List E} {e : E}

/-- An entry is added to the bucket of the entries equal to it. -/
theorem Chains.add_entry (h : Chains ops links entries (b :: B) live) (he : e ∉ live)
    (hnull : links e = .null) (heq : ops.cmp b.head e = 0) :
    (add links (some b.head) e).2 = e ∧ (∀ x ∉ e :: live, (add links (some b.head) e).1 x = links x) ∧
      ∃ entries', Chains ops (add links (some b.head) e).1 entries'
        (⟨b.hval, e, b.nentries + 1⟩ :: B) (e :: live) := by
  have hb : b ∈ b :: B := mem_cons_self
  obtain ⟨rest, hperm, hrest⟩ := h.tail
  have hall : (e :: entries b.head ++ rest).Nodup :=
    ((hperm.cons e).nodup_iff).mpr (nodup_cons.mpr ⟨he, h.nodup⟩)
  obtain ⟨h2, hlist, hframe⟩ := add_isList (h.isList b hb) hall.of_append_left hnull
  have hsub : ∀ x ∈ e :: entries b.head, x ∈ e :: live := forall_mem_cons.mpr ⟨mem_cons_self,
    fun x hx => mem_cons_of_mem e (hperm.mem_iff.mp (mem_append_left rest hx))⟩
  refine ⟨h2, fun x hx => hframe x fun hmem => hx (hsub x hmem),
    update entries e (e :: entries b.head), ?_⟩
  have hlinks := hrest.of_links fun x hx => hframe x fun hmem =>
    disjoint_of_nodup_append hall hmem hx
  refine (hlinks.cons (b := ⟨b.hval, e, b.nentries + 1⟩) hlist ?_ ?_ ?_ ?_ hall).of_perm (.refl _)
    (hperm.cons e)
  · exact (ops.hash heq).symm.trans (h.hval b hb)
  · refine forall_mem_cons.mpr ⟨ops.refl e, fun x hx => ?_⟩
    exact ops.trans (ops.symm heq) (h.same b hb x hx)
  · simp only [length_cons, h.count b hb]
    omega
  · exact fun c hc h0 => (pairwise_cons.mp h.apart).1 c hc (ops.trans heq h0)

/-- An entry that is equal to none is in a bucket of its own. -/
theorem Chains.add_bucket (h : Chains ops links entries B live) (he : e ∉ live)
    (hnull : links e = .null) (hnone : ∀ b ∈ B, ops.cmp b.head e ≠ 0) :
    ∃ entries', Chains ops links entries' (⟨ops.hval e, e, 1⟩ :: B) (e :: live) := by
  refine ⟨_, h.cons (l := [e]) ⟨rfl, hnull, trivial⟩ rfl ?_ rfl ?_
    (nodup_cons.mpr ⟨he, h.nodup⟩)⟩
  · exact forall_mem_cons.mpr ⟨ops.refl e, nofun⟩
  · exact fun c hc h0 => hnone c hc (ops.symm h0)

/-- What is left of a bucket when one of its entries is deleted. -/
theorem Chains.del_entry (h : Chains ops links entries (b :: B) live) (he : e ∈ entries b.head) :
    ∃ links' head, del links b.head e = some (links', head) ∧ links' e = .null ∧
      (∀ x ∉ live, links' x = links x) ∧
      ∃ entries', Chains ops links' entries'
        ((head.map fun hd => ⟨b.hval, hd, b.nentries - 1⟩).toList ++ B) (live.erase e) := by
  have hb : b ∈ b :: B := mem_cons_self
  obtain ⟨rest, hperm, hrest⟩ := h.tail
  have hall : (entries b.head ++ rest).Nodup := hperm.nodup_iff.mpr h.nodup
  obtain ⟨links', hdel, hlist, hnull, hframe⟩ := del_isList (h.isList b hb) hall.of_append_left he
  have hsub : ∀ x ∈ entries b.head, x ∈ live := fun x hx =>
    hperm.mem_iff.mp (mem_append_left rest hx)
  have hlinks := hrest.of_links fun x hx => hframe x fun hmem =>
    disjoint_of_nodup_append hall hmem hx
  have herase : List.Perm ((entries b.head).erase e ++ rest) (live.erase e) := by
    rw [← erase_append_left _ he]
    exact hperm.erase e
  refine ⟨links', _, hdel, hnull, fun x hx => hframe x fun hmem => hx (hsub x hmem), ?_⟩
  cases hl : (entries b.head).erase e with
  | nil =>
    rw [hl] at herase
    exact ⟨entries, hlinks.of_perm (.refl _) herase⟩
  | cons hd l =>
    have hmem : ∀ x ∈ hd :: l, x ∈ entries b.head := fun x hx => mem_of_mem_erase (hl ▸ hx)
    have hhd : ops.cmp b.head hd = 0 := h.same b hb hd (hmem hd mem_cons_self)
    rw [hl] at herase hlist
    refine ⟨_, (hlinks.cons (b := ⟨b.hval, hd, b.nentries - 1⟩) hlist ?_ ?_ ?_ ?_ ?_).of_perm
      (.refl _) herase⟩
    · exact (ops.hash hhd).symm.trans (h.hval b hb)
    · exact fun x hx => ops.trans (ops.symm hhd) (h.same b hb x (hmem x hx))
    · have hlen := congrArg List.length hl
      have hpos := length_pos_of_mem he
      rw [length_erase_of_mem he] at hlen
      simp only [h.count b hb]
      omega
    · exact fun c hc h0 => (pairwise_cons.mp h.apart).1 c hc (ops.trans hhd h0)
    · exact herase.nodup_iff.mpr (h.nodup.erase e)

end

end DTrace.Htab
