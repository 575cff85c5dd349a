import Mathlib.Algebra.Group.Nat.Defs
import Mathlib.Data.List.Basic

/-!
# Data in buffers of one size

Data is put in buffers of `bufsz` elements, one after another, and a new buffer is added when the last
one is full. What has been put there is `data`; what a buffer holds behind it is what it was allocated
with, or what was there when an insertion was undone.

* `copyin` adds to the data, or leaves it as it is when a buffer cannot be had (`copyin_spec`).
* `compare` compares with what is at a place, over the ends of buffers; it looks at all that the
  buffers hold, and not only at the data (`compare_eq`).
-/

namespace BufList

open List Nat

variable {α : Type}

/-- All buffers but the last, the last, and how much of it is in use. -/
structure Bufs (α : Type) where
  init : List (List α)
  last : List α
  used : Nat
  deriving DecidableEq, Repr

namespace Bufs

def bufs (st : Bufs α) : List (List α) := st.init ++ [st.last]

/-- What has been put in the buffers. -/
def data (st : Bufs α) : List α := st.init.flatten ++ st.last.take st.used

/-- All that they hold. -/
def contents (st : Bufs α) : List α := st.bufs.flatten

structure Wf (bufsz : Nat) (st : Bufs α) : Prop where
  init : ∀ b ∈ st.init, b.length = bufsz
  last : st.last.length = bufsz
  used : 0 < st.used ∧ st.used ≤ bufsz

/-- Another buffer. -/
def grow (st : Bufs α) (fresh : List α) : Bufs α := ⟨st.bufs, fresh, 0⟩

/-- `memcpy` to the pointer, which is advanced. -/
def put (st : Bufs α) (src : List α) : Bufs α :=
  { st with
    last := st.last.take st.used ++ src ++ st.last.drop (st.used + src.length)
    used := st.used + src.length }

/-- Copy buffer by buffer. `alloc k` is what the `k`th buffer that is needed holds when it is allocated,
or `none` if it cannot be had. Every round copies something, so as many as there are elements are
enough. -/
def copyLoop (bufsz : Nat) (alloc : Nat → Option (List α)) :
    Nat → Nat → Bufs α → List α → Bufs α × Bool
  | _, _, st, [] => (st, true)
  | 0, _, st, _ => (st, false)
  | rounds + 1, k, st, src =>
    if st.used = bufsz then
      match alloc k with
      | none => (st, false)
      | some fresh =>
        copyLoop bufsz alloc rounds (k + 1) ((st.grow fresh).put (src.take (min bufsz src.length)))
          (src.drop (min bufsz src.length))
    else
      copyLoop bufsz alloc rounds k (st.put (src.take (min (bufsz - st.used) src.length)))
        (src.drop (min (bufsz - st.used) src.length))

/-- The new buffers are given back and the pointer is where it was. -/
def undo (old st : Bufs α) : Bufs α :=
  match st.bufs.drop old.init.length with
  | last :: _ => ⟨st.bufs.take old.init.length, last, old.used⟩
  | [] => old

def copyin (bufsz : Nat) (alloc : Nat → Option (List α)) (st : Bufs α) (src : List α) :
    Bufs α × Bool :=
  match copyLoop bufsz alloc src.length 0 st src with
  | (st', true) => (st', true)
  | (st', false) => (undo st st', false)

/-- The end of a buffer is the start of the next one. -/
def place (bufsz b o : Nat) : Nat × Nat := if o = bufsz then (b + 1, 0) else (b, o)

/-- Compare with what is at offset `o` of buffer `b`; `none` when it goes over the end of the last
buffer. `eqv` compares the elements in one buffer. -/
def compareLoop (eqv : List α → List α → Bool) (bufsz : Nat) (bufs : List (List α)) :
    Nat → Nat → Nat → List α → Option Bool
  | _, _, _, [] => some true
  | 0, _, _, _ => none
  | rounds + 1, b, o, q =>
    let (b, o) := place bufsz b o
    match bufs[b]? with
    | none => none
    | some buf =>
      let n := min (bufsz - o) q.length
      if eqv ((buf.drop o).take n) (q.take n) then
        compareLoop eqv bufsz bufs rounds b (o + n) (q.drop n)
      else some false

def compare (eqv : List α → List α → Bool) (bufsz : Nat) (st : Bufs α) (b o : Nat) (q : List α) :
    Option Bool :=
  compareLoop eqv bufsz st.bufs q.length b o q

/-- The buffers are given out one after another, up to one of which nothing is. -/
def writeLoop : List (List α) → List α
  | [] => []
  | [] :: _ => []
  | (a :: chunk) :: rest => a :: chunk ++ writeLoop rest

def write (st : Bufs α) : List α := writeLoop (st.init ++ [st.last.take st.used])

/-! ## The data -/

variable {bufsz : Nat} {st st' : Bufs α} {src : List α}

variable {l : List (List α)} {q r : List α} {eqv : List α → List α → Bool}

theorem length_flatten_eq (h : ∀ b ∈ l, b.length = bufsz) :
    l.flatten.length = l.length * bufsz := by
  induction l with
  | nil => exact (Nat.zero_mul bufsz).symm
  | cons b l ih =>
    rw [flatten_cons, length_append, h b mem_cons_self,
      ih fun c hc => h c (mem_cons_of_mem b hc), length_cons, succ_mul, add_comm]

theorem contents_eq (st : Bufs α) : st.contents = st.data ++ st.last.drop st.used := by
  rw [contents, bufs, data, flatten_append, flatten_singleton, append_assoc,
    take_append_drop]

theorem Wf.length_data (h : st.Wf bufsz) : st.data.length = st.init.length * bufsz + st.used := by
  rw [data, length_append, length_take, h.last, Nat.min_eq_left h.used.2,
    length_flatten_eq h.init]

theorem writeLoop_eq (h : ∀ b ∈ l, b ≠ []) : writeLoop l = l.flatten := by
  induction l with
  | nil => rfl
  | cons b l ih =>
    cases b with
    | nil => exact absurd rfl (h [] mem_cons_self)
    | cons a b =>
      rw [writeLoop, ih fun c hc => h c (mem_cons_of_mem _ hc), flatten_cons]

/-- All data is given out. -/
theorem Wf.write (h : st.Wf bufsz) : st.write = st.data := by
  have hpos := h.used
  have hne : ∀ b ∈ st.init ++ [st.last.take st.used], b ≠ [] := by
    rintro b hb rfl
    obtain hb | hb := mem_append.mp hb
    · have := h.init [] hb
      rw [length_nil] at this
      omega
    · have hlen := congrArg List.length (mem_singleton.mp hb)
      rw [length_nil, length_take, h.last] at hlen
      omega
  rw [Bufs.write, writeLoop_eq hne, flatten_append, flatten_singleton, data]

/-! ## Copying -/

/-- What is in the last buffer after a copy that fits in it. -/
theorem data_put (st : Bufs α) (hlast : st.used + src.length ≤ st.last.length) :
    (st.put src).data = st.data ++ src ∧ (st.put src).last.length = st.last.length := by
  have htake : (st.last.take st.used).length = st.used := by
    rw [length_take]
    omega
  constructor
  · show st.init.flatten ++ (st.last.take st.used ++ src ++ _).take (st.used + src.length) = _
    have hlen : (st.last.take st.used ++ src).length = st.used + src.length := by
      rw [length_append, htake]
    rw [take_append_of_le_length (Nat.le_of_eq hlen.symm),
      take_of_length_le (Nat.le_of_eq hlen), data, append_assoc]
  · show (st.last.take st.used ++ src ++ _).length = _
    rw [length_append, length_append, length_drop]
    omega

/-- The buffers that were there have kept their data: either nothing but the last has changed, or
others have been added. -/
inductive Extends (old : Bufs α) : Bufs α → Prop
  | same {last : List α} {used : Nat} (hlen : last.length = old.last.length) (hused : old.used ≤ used)
      (htake : last.take old.used = old.last.take old.used) : Extends old ⟨old.init, last, used⟩
  | more {kept : List α} {rest : List (List α)} {last : List α} {used : Nat}
      (hlen : kept.length = old.last.length) (htake : kept.take old.used = old.last.take old.used) :
      Extends old ⟨old.init ++ kept :: rest, last, used⟩

namespace Extends

variable {old : Bufs α}

theorem refl (old : Bufs α) : Extends old old := .same rfl (Nat.le_refl _) rfl

theorem grow (h : Extends old st) (fresh : List α) : Extends old (st.grow fresh) := by
  cases h with
  | same hlen _ htake => exact .more hlen htake
  | more hlen htake =>
    unfold Bufs.grow bufs
    rw [append_assoc]
    exact .more hlen htake

theorem put (h : Extends old st) (hroom : st.used + src.length ≤ st.last.length) :
    Extends old (st.put src) := by
  cases h with
  | @same last used hlen hused htake =>
    dsimp only at hroom
    refine .same ?_ (Nat.le_trans hused (Nat.le_add_right ..)) ?_
    · exact (data_put ⟨old.init, last, used⟩ hroom).2.trans hlen
    · show (last.take used ++ src ++ _).take old.used = _
      rw [append_assoc, take_append_of_le_length (by rw [length_take]; omega),
        take_take, Nat.min_eq_left hused, htake]
  | more hlen htake => exact .more hlen htake

/-- So an insertion can be undone. -/
theorem undo (h : Extends old st) (hwf : old.Wf bufsz) :
    (undo old st).Wf bufsz ∧ (undo old st).data = old.data := by
  have hundo : ∃ last, Bufs.undo old st = ⟨old.init, last, old.used⟩ ∧
      last.length = old.last.length ∧ last.take old.used = old.last.take old.used := by
    cases h with
    | @same last used hlen _ htake =>
      refine ⟨last, ?_, hlen, htake⟩
      simp only [Bufs.undo, bufs, drop_left, take_left]
    | @more kept rest last used hlen htake =>
      refine ⟨kept, ?_, hlen, htake⟩
      simp only [Bufs.undo, bufs, append_assoc, drop_left, take_left,
        cons_append]
  obtain ⟨last, heq, hlen, htake⟩ := hundo
  rw [heq]
  exact ⟨⟨hwf.init, hlen.trans hwf.last, hwf.used⟩, by rw [data, data, htake]⟩

end Extends

/-- How many buffers are needed for `len` more elements. -/
def grows (bufsz used len : Nat) : Nat := (used - 1 + len) / bufsz

/-- The buffers after a copy that goes to the last buffer, or to a new one. -/
theorem Wf.put (hinit : ∀ b ∈ st.init, b.length = bufsz) (hlast : st.last.length = bufsz)
    (hsrc : 0 < src.length) (hroom : st.used + src.length ≤ bufsz) : (st.put src).Wf bufsz :=
  ⟨hinit, ((data_put st (hlast ▸ hroom)).2).trans hlast,
    Nat.lt_of_lt_of_le hsrc (Nat.le_add_left ..), hroom⟩

theorem Wf.bufs (hwf : st.Wf bufsz) : ∀ b ∈ st.bufs, b.length = bufsz := by
  intro b hb
  obtain hb | hb := mem_append.mp hb
  · exact hwf.init b hb
  · rw [mem_singleton.mp hb, hwf.last]

theorem Wf.data_grow (hwf : st.Wf bufsz) (hfull : st.used = bufsz) (fresh : List α) :
    (st.grow fresh).data = st.data := by
  show st.bufs.flatten ++ [] = _
  rw [append_nil, Bufs.bufs, flatten_append, flatten_singleton, data, hfull,
    take_of_length_le (Nat.le_of_eq hwf.last)]

/-- One round: what fits in the last buffer is copied there, and the rest is left. -/
theorem Extends.round {old : Bufs α} {rounds n : Nat} (hold : Extends old st)
    (hinit : ∀ b ∈ st.init, b.length = bufsz) (hlast : st.last.length = bufsz)
    (hroom : st.used < bufsz) (hsrc : src ≠ []) (hrounds : src.length ≤ rounds + 1)
    (hn : n = min (bufsz - st.used) src.length) :
    Extends old (st.put (src.take n)) ∧ (st.put (src.take n)).Wf bufsz ∧
      (src.drop n).length ≤ rounds ∧
      grows bufsz (st.put (src.take n)).used (src.drop n).length =
        (st.used + src.length - 1) / bufsz ∧
      (st.put (src.take n)).data ++ src.drop n = st.data ++ src := by
  have hpos := length_pos_of_ne_nil hsrc
  have htake : (src.take n).length = n := by
    rw [length_take]
    omega
  have hfits : st.used + (src.take n).length ≤ bufsz := by omega
  refine ⟨hold.put (hlast ▸ hfits), Wf.put hinit hlast (by omega) hfits, ?_, ?_, ?_⟩
  · rw [length_drop]
    omega
  · rw [grows, length_drop]
    show (st.used + (src.take n).length - 1 + _) / _ = _
    congr 1
    omega
  · rw [(data_put st (hlast ▸ hfits)).1, append_assoc, take_append_drop]

section
variable {alloc : Nat → Option (List α)}

variable {rounds : Nat}

section

variable (halloc : ∀ k, ∀ b ∈ alloc k, b.length = bufsz)

include halloc

/-- **One copy**: it succeeds exactly when all buffers can be had, and adds to the data then. -/
theorem copyLoop_spec {old : Bufs α}
    (hold : Extends old st) (hwf : st.Wf bufsz) {k : Nat} (hrounds : src.length ≤ rounds) :
    Extends old (copyLoop bufsz alloc rounds k st src).1 ∧
      ((copyLoop bufsz alloc rounds k st src).2 = true ↔
        ∀ j < grows bufsz st.used src.length, (alloc (k + j)).isSome) ∧
      ((copyLoop bufsz alloc rounds k st src).2 = true →
        (copyLoop bufsz alloc rounds k st src).1.Wf bufsz ∧
        (copyLoop bufsz alloc rounds k st src).1.data = st.data ++ src) := by
  fun_induction copyLoop bufsz alloc rounds k st src with
  | case1 rounds k st =>
    have hzero : grows bufsz st.used 0 = 0 := div_eq_of_lt (by have := hwf.used; omega)
    rw [append_nil, length_nil, hzero]
    exact ⟨hold, iff_of_true rfl nofun, fun _ => ⟨hwf, rfl⟩⟩
  | case2 k st src hsrc =>
    exact absurd (eq_nil_of_length_eq_zero (le_zero.mp hrounds)) hsrc
  | case3 rounds k st src hsrc hfull hk =>
    -- the buffer is full, so at least one is needed
    have hlen := length_pos_of_ne_nil hsrc
    have hgrows : 0 < grows bufsz st.used src.length :=
      div_pos (by omega) (by have := hwf.used; omega)
    refine ⟨hold, ⟨nofun, fun hall => ?_⟩,
      nofun⟩
    have hzero := hall 0 hgrows
    rw [add_zero, hk] at hzero
    cases hzero
  | case4 rounds k st src hsrc hfull fresh hk ih =>
    have hlen := length_pos_of_ne_nil hsrc
    have hpos := hwf.used
    obtain ⟨hext, hwf', hleft, hrest, hdata⟩ := (hold.grow fresh).round
      (n := min bufsz src.length) hwf.bufs (halloc k fresh hk) (by show 0 < bufsz; omega) hsrc
      hrounds rfl
    have hgrows : grows bufsz st.used src.length = (0 + src.length - 1) / bufsz + 1 := by
      rw [grows, hfull, show bufsz - 1 + src.length = 0 + src.length - 1 + bufsz by omega,
        add_div_right _ (by omega)]
    obtain ⟨h1, h2, h3⟩ := ih hext hwf' hleft
    rw [hrest] at h2
    rw [hgrows]
    refine ⟨h1, h2.trans ⟨fun hall j hj => ?_, fun hall j hj => ?_⟩, fun h => ?_⟩
    · cases j with
      | zero => rw [add_zero, hk]; rfl
      | succ j =>
        have := hall j (lt_of_succ_lt_succ hj)
        rwa [add_assoc, add_comm 1 j] at this
    · have := hall (j + 1) (succ_lt_succ hj)
      rwa [add_assoc, add_comm 1 j]
    · obtain ⟨hw, hd⟩ := h3 h
      exact ⟨hw, (hd.trans hdata).trans (by rw [hwf.data_grow hfull])⟩
  | case5 rounds k st src hsrc hfull ih =>
    have hpos := hwf.used
    obtain ⟨hext, hwf', hleft, hrest, hdata⟩ :=
      hold.round hwf.init hwf.last (by omega) hsrc hrounds rfl
    obtain ⟨h1, h2, h3⟩ := ih hext hwf' hleft
    rw [hrest, show st.used + src.length - 1 = st.used - 1 + src.length by omega] at h2
    refine ⟨h1, h2, fun h => ?_⟩
    obtain ⟨hw, hd⟩ := h3 h
    exact ⟨hw, hd.trans hdata⟩

/-- The data with what was copied, when there was memory for it; without it nothing has happened to the
data. -/
theorem copyin_spec (hwf : st.Wf bufsz) {ok : Bool}
    (h : copyin bufsz alloc st src = (st', ok)) :
    st'.Wf bufsz ∧ st'.data = st.data ++ if ok then src else [] := by
  have hspec := copyLoop_spec (k := 0) halloc (.refl st) hwf (Nat.le_refl src.length)
  unfold copyin at h
  cases hloop : copyLoop bufsz alloc src.length 0 st src with
  | mk st1 ok1 =>
    rw [hloop] at hspec h
    cases ok1 with
    | true =>
      obtain ⟨rfl, rfl⟩ := Prod.mk.inj h
      exact hspec.2.2 rfl
    | false =>
      obtain ⟨rfl, rfl⟩ := Prod.mk.inj h
      obtain ⟨hw, hd⟩ := hspec.1.undo hwf
      exact ⟨hw, hd.trans (append_nil _).symm⟩

theorem copyin_ok_iff (hwf : st.Wf bufsz) :
    (copyin bufsz alloc st src).2 = true ↔
      ∀ j < grows bufsz st.used src.length, (alloc j).isSome := by
  have hspec := copyLoop_spec (k := 0) halloc (.refl st) hwf (Nat.le_refl src.length)
  simp only [Nat.zero_add] at hspec
  rw [← hspec.2.1]
  unfold copyin
  cases hloop : copyLoop bufsz alloc src.length 0 st src with
  | mk st' ok => cases ok <;> rfl

end

end

/-! ## Comparing -/

variable [DecidableEq α]

/-- What comparing tells of what is asked for and what is there. -/
def verdict : List α → List α → Option Bool
  | [], _ => some true
  | _ :: _, [] => none
  | a :: q, b :: r => if a = b then verdict q r else some false

theorem verdict_append {q1 q2 r1 r2 : List α} (h : r1.length = q1.length) :
    verdict (q1 ++ q2) (r1 ++ r2) = if r1 = q1 then verdict q2 r2 else some false := by
  induction q1 generalizing r1 with
  | nil =>
    obtain rfl := eq_nil_of_length_eq_zero h
    rfl
  | cons a q1 ih =>
    obtain ⟨b, r1, rfl⟩ := exists_cons_of_length_eq_add_one h
    rw [cons_append, cons_append, verdict, ih (Nat.succ.inj h)]
    by_cases hab : a = b
    · subst hab
      rw [if_pos rfl]
      simp only [List.cons.injEq, true_and]
    · rw [if_neg hab, if_neg fun heq => hab (List.cons.inj heq).1.symm]

/-- Comparing a part first. -/
theorem verdict_take {n : Nat} (hq : n ≤ q.length) (hr : n ≤ r.length) :
    verdict q r = if r.take n = q.take n then verdict (q.drop n) (r.drop n) else some false := by
  rw [← verdict_append (by rw [length_take, length_take]; omega), take_append_drop,
    take_append_drop]

/-- More of what is there does not change it. -/
theorem verdict_append_of_some {v : Bool} (h : verdict q r = some v) (g : List α) :
    verdict q (r ++ g) = some v := by
  fun_induction verdict q r with
  | case1 => exact h
  | case2 => cases h
  | case3 q a r ih => rw [cons_append, verdict, if_pos rfl, ih h]
  | case4 a q b r hab => rw [cons_append, verdict, if_neg hab, h]

theorem verdict_eq_true (h : verdict q r = some true) : ∃ s, r = q ++ s := by
  fun_induction verdict q r with
  | case1 r => exact ⟨r, rfl⟩
  | case2 => cases h
  | case3 q a r ih =>
    obtain ⟨s, rfl⟩ := ih h
    exact ⟨s, rfl⟩
  | case4 => cases h

/-- What is asked for goes on behind what is there. -/
theorem verdict_eq_none (h : verdict q r = none) : ∃ s, q = r ++ s ∧ s ≠ [] := by
  fun_induction verdict q r with
  | case1 => cases h
  | case2 a q => exact ⟨a :: q, rfl, cons_ne_nil a q⟩
  | case3 q a r ih =>
    obtain ⟨s, rfl, hs⟩ := ih h
    exact ⟨s, rfl, hs⟩
  | case4 => cases h

omit [DecidableEq α] in
/-- The place at the end of a buffer is the start of the next one. -/
theorem drop_place (hl : ∀ b ∈ l, b.length = bufsz) {b o : Nat} (ho : o ≤ bufsz) :
    (l.drop (place bufsz b o).1).flatten.drop (place bufsz b o).2 = (l.drop b).flatten.drop o := by
  unfold place
  split
  · next heq =>
    subst heq
    cases hd : l.drop b with
    | nil =>
      rw [← drop_drop, hd, drop_nil, flatten_nil, drop_nil, drop_nil]
    | cons buf rest =>
      have hbuf : buf.length = o := hl buf (mem_of_mem_drop (hd ▸ mem_cons_self))
      rw [← drop_drop, hd, flatten_cons, ← hbuf, drop_left]
      rfl
  · rfl

theorem place_lt {b o : Nat} (hpos : 0 < bufsz) (ho : o ≤ bufsz) : (place bufsz b o).2 < bufsz := by
  unfold place
  split
  · exact hpos
  · dsimp only
    omega

/-- `eqv` compares parts of `q`, as it is cut at the ends of buffers. -/
def Compares (eqv : List α → List α → Bool) (q : List α) : Prop :=
  ∀ pre s, q = pre ++ s → ∀ n r, r.length = (s.take n).length →
    eqv r (s.take n) = decide (r = s.take n)

theorem Compares.drop (h : Compares eqv q) (n : Nat) : Compares eqv (q.drop n) := by
  intro pre s hs
  refine h (q.take n ++ pre) s ?_
  rw [append_assoc, ← hs, take_append_drop]

/-- **Comparing goes by what is in the buffers from a place on**, as if they were one. -/
theorem compareLoop_eq (hl : ∀ b ∈ l, b.length = bufsz) (hpos : 0 < bufsz) {rounds b o : Nat}
    (heqv : Compares eqv q) (ho : o ≤ bufsz) (hrounds : q.length ≤ rounds) :
    compareLoop eqv bufsz l rounds b o q = verdict q ((l.drop b).flatten.drop o) := by
  induction rounds generalizing b o q with
  | zero =>
    obtain rfl := eq_nil_of_length_eq_zero (le_zero.mp hrounds)
    rfl
  | succ rounds ih =>
    cases q with
    | nil => rfl
    | cons a q =>
      have hlt := place_lt (b := b) hpos ho
      rw [← drop_place hl ho, compareLoop]
      · generalize place bufsz b o = p at hlt
        obtain ⟨b', o'⟩ := p
        dsimp only at ⊢
        cases hbuf : l[b']? with
        | none =>
          rw [drop_eq_nil_of_le (List.getElem?_eq_none_iff.mp hbuf), flatten_nil,
            drop_nil]
          rfl
        | some buf =>
          obtain ⟨hb', hget⟩ := List.getElem?_eq_some_iff.mp hbuf
          have hlen : buf.length = bufsz := hl buf (mem_of_getElem? hbuf)
          have hdrop : l.drop b' = buf :: l.drop (b' + 1) := by
            rw [drop_eq_getElem_cons hb', hget]
          -- what is in this buffer, and what follows
          have hflat : (l.drop b').flatten.drop o' = buf.drop o' ++ (l.drop (b' + 1)).flatten := by
            rw [hdrop, flatten_cons, drop_append_of_le_length (by omega)]
          obtain ⟨n, hn⟩ : ∃ n, n = min (bufsz - o') (a :: q).length := ⟨_, rfl⟩
          have hnbuf : n ≤ (buf.drop o').length := by
            rw [length_drop]
            omega
          have hleft : ((a :: q).drop n).length ≤ rounds := by
            rw [length_drop]
            omega
          have hrest := ih (b := b') (o := o' + n) (heqv.drop n) (by omega) hleft
          have hchunk := heqv [] (a :: q) rfl n ((buf.drop o').take n) (by
            rw [length_take, length_take]
            omega)
          rw [verdict_take (n := n) (by omega) (by rw [hflat, length_append]; omega),
            drop_drop, ← hrest, hflat, take_append_of_le_length hnbuf, ← hn]
          dsimp only
          rw [hchunk]
          simp only [decide_eq_true_eq]
      · exact cons_ne_nil a q

theorem compare_eq (hwf : st.Wf bufsz) {b o : Nat} (heqv : Compares eqv q) (ho : o ≤ bufsz)
    (hle : b * bufsz + o ≤ st.data.length) :
    compare eqv bufsz st b o q = verdict q (st.contents.drop (b * bufsz + o)) := by
  have hpos : 0 < bufsz := Nat.lt_of_lt_of_le hwf.used.1 hwf.used.2
  have hb : b ≤ st.bufs.length := by
    have hused := hwf.used
    rw [hwf.length_data] at hle
    rw [Bufs.bufs, length_append, length_singleton]
    refine Nat.le_of_mul_le_mul_right (c := bufsz) ?_ hpos
    rw [Nat.succ_mul]
    omega
  rw [compare, compareLoop_eq hwf.bufs hpos heqv ho (Nat.le_refl _), contents, ← drop_drop]
  have hsplit : st.bufs.flatten = (st.bufs.take b).flatten ++ (st.bufs.drop b).flatten := by
    rw [← flatten_append, take_append_drop]
  have hlen : (st.bufs.take b).flatten.length = b * bufsz := by
    rw [length_flatten_eq fun c hc => hwf.bufs c (mem_of_mem_take hc), length_take,
      Nat.min_eq_left hb]
  rw [hsplit, ← hlen, drop_left]

end Bufs

end BufList
