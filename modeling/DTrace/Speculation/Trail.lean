import Mathlib.Data.List.Induction
import DTrace.Speculation.Consume

/-!
# What becomes of one speculation

The abstract account of a single speculation, as a function of the buffers the consumer has
seen, in their order: its data waits until a commit or discard record is seen *after some of
the data*; from then on every buffer outside speculations releases (or drops) what is waiting.
`Timely` states in terms of the order alone when nothing is left waiting.
-/

namespace DTrace.Speculation

open List

variable {α : Type*}

/-- A buffer outside speculations whose records are looked at: those of the default clause of
`ERROR` are not. -/
def Buf.Plain (b : Buf α) : Prop := b.spec.id = 0 ∧ b.error = false

instance (b : Buf α) : Decidable b.Plain := inferInstanceAs (Decidable (_ ∧ _))

/-- What a record decides about `k`: `some true` for commit, `some false` for discard. -/
def Act.verdict (k : SpecRef) : Act → Option Bool
  | .commit r => if r = k then some true else none
  | .discard r => if r = k then some false else none
  | .record => none

structure Trail (α : Type*) where
  mode : Option Bool
  waiting : List (Buf α)
  taken : Nat
  out : List (Buf α)

namespace Trail

def start : Trail α := ⟨none, [], 0, []⟩

/-- The records of one buffer: the first verdict counts, once there is data. -/
def judge (k : SpecRef) (acts : List Act) (t : Trail α) : Trail α :=
  if t.mode.isNone && !t.waiting.isEmpty then { t with mode := acts.findSome? (·.verdict k) }
  else t

def flush (t : Trail α) : Trail α :=
  match t.mode with
  | none => t
  | some commit =>
    { t with
      waiting := []
      taken := t.taken + t.waiting.length
      out := if commit then t.out ++ t.waiting else t.out }

def see (k : SpecRef) (t : Trail α) (b : Buf α) : Trail α :=
  if b.spec.id ≠ 0 then
    if b.spec = k then { t with waiting := t.waiting ++ [b] } else t
  else if b.error then t
  else (t.judge k b.acts).flush

variable {t : Trail α} (k : SpecRef)

theorem judge_of_findSome_eq_none {k : SpecRef} {acts : List Act}
    (h : acts.findSome? (·.verdict k) = none) : t.judge k acts = t := by
  unfold judge
  split
  · next hw =>
    rcases t with ⟨_, _, _, _⟩
    simp_all
  · rfl

@[simp] theorem judge_nil (t : Trail α) : t.judge k [] = t :=
  judge_of_findSome_eq_none rfl

theorem judge_cons (a : Act) (acts : List Act) (t : Trail α) :
    t.judge k (a :: acts) = (t.judge k [a]).judge k acts := by
  unfold judge
  cases hm : t.mode with
  | some _ => simp [hm]
  | none =>
    cases hw : t.waiting.isEmpty with
    | true => simp [hw]
    | false => cases hv : a.verdict k <;> simp [hw, hv]

@[simp] theorem judge_waiting (acts : List Act) (t : Trail α) :
    (t.judge k acts).waiting = t.waiting := by
  unfold judge; split <;> rfl

@[simp] theorem judge_taken (acts : List Act) (t : Trail α) : (t.judge k acts).taken = t.taken := by
  unfold judge; split <;> rfl

@[simp] theorem judge_out (acts : List Act) (t : Trail α) : (t.judge k acts).out = t.out := by
  unfold judge; split <;> rfl

theorem judge_of_mode {k : SpecRef} {c : Bool} (h : t.mode = some c) (acts : List Act) :
    t.judge k acts = t := by
  simp [judge, h]

theorem mode_ne_of_judge {k : SpecRef} {acts : List Act} {c : Bool}
    (h : (t.judge k acts).mode ≠ some c) : t.mode ≠ some c := fun hm =>
  h (by rw [judge_of_mode hm, hm])

theorem judge_of_verdict_none {k : SpecRef} {a : Act} (h : a.verdict k = none) (t : Trail α) :
    t.judge k [a] = t :=
  judge_of_findSome_eq_none (by simp [h])

theorem judge_of_waiting_nil {k : SpecRef} (h : t.waiting = []) (acts : List Act) :
    t.judge k acts = t := by
  simp [judge, h]

@[simp] theorem flush_mode (t : Trail α) : t.flush.mode = t.mode := by
  unfold flush; split <;> simp_all

theorem flush_of_none (h : t.mode = none) : t.flush = t := by
  simp [flush, h]

theorem flush_of_some {c : Bool} (h : t.mode = some c) :
    t.flush = ⟨some c, [], t.taken + t.waiting.length,
      if c then t.out ++ t.waiting else t.out⟩ := by
  simp [flush, h]

theorem flush_of_waiting_nil (h : t.waiting = []) : t.flush = t := by
  rcases t with ⟨_ | c, _, _, _⟩
  · rfl
  · simp_all [flush]

@[simp] theorem flush_taken_add (t : Trail α) :
    t.flush.taken + t.flush.waiting.length = t.taken + t.waiting.length := by
  unfold flush; split <;> simp

/-- A buffer releases what waits, or it joins it, or nothing happens. -/
theorem see_cases (b : Buf α) (t : Trail α) :
    (b.Plain ∧ t.see k b = (t.judge k b.acts).flush) ∨
      (¬b.Plain ∧ b.spec = k ∧ t.see k b = { t with waiting := t.waiting ++ [b] }) ∨
      (¬b.Plain ∧ (k.id ≠ 0 → b.spec ≠ k) ∧ t.see k b = t) := by
  unfold see
  split
  · next hb =>
    have hno : ¬b.Plain := fun hp => hb hp.1
    split
    · next h => exact Or.inr (Or.inl ⟨hno, h, rfl⟩)
    · next h => exact Or.inr (Or.inr ⟨hno, fun _ => h, rfl⟩)
  · next hb =>
    have hb : b.spec.id = 0 := not_not.mp hb
    split
    · next he =>
      refine Or.inr (Or.inr ⟨fun hp => ?_, fun hk h => hk (h ▸ hb), rfl⟩)
      rw [hp.2] at he
      cases he
    · next he => exact Or.inl ⟨⟨hb, by simpa using he⟩, rfl⟩

end Trail

open Trail

def trail (k : SpecRef) (seen : List (Buf α)) : Trail α := seen.foldl (Trail.see k) .start

@[simp] theorem trail_nil (k : SpecRef) : trail k ([] : List (Buf α)) = .start := rfl

@[simp] theorem trail_snoc (k : SpecRef) (seen : List (Buf α)) (b : Buf α) :
    trail k (seen ++ [b]) = (trail k seen).see k b := by
  simp [trail]

/-! ## Reading a trail off the order of the buffers

A trail is a fold over the buffers; the statements below are about the list of buffers alone. Each
is proved along the list from its end, since `see` takes the newest buffer, and splits into the
three cases of `see_cases`. -/

/-- The data buffers of `k`, in the order they were seen. -/
def dataOf (k : SpecRef) (seen : List (Buf α)) : List (Buf α) :=
  seen.filter (·.spec = k)

/-- Some buffer outside speculations holds a record that commits (discards) `k`. -/
def Judged (k : SpecRef) (commit : Bool) (seen : List (Buf α)) : Prop :=
  ∃ b ∈ seen, b.Plain ∧ ∃ a ∈ b.acts, a.verdict k = some commit

instance (k : SpecRef) (commit : Bool) (seen : List (Buf α)) : Decidable (Judged k commit seen) :=
  inferInstanceAs (Decidable (∃ b ∈ seen, b.Plain ∧ ∃ a ∈ b.acts, a.verdict k = some commit))

/-- A record about `k` is seen when some of its data has been. -/
def Started (k : SpecRef) (seen : List (Buf α)) : Prop :=
  ∃ pre b post, seen = pre ++ b :: post ∧ b.Plain ∧
    (∃ a ∈ b.acts, (a.verdict k).isSome) ∧ ∃ d ∈ pre, d.spec = k

/-- Each data buffer of `k` is followed by a buffer outside speculations. -/
def Followed (k : SpecRef) (seen : List (Buf α)) : Prop :=
  ∀ pre d post, seen = pre ++ d :: post → d.spec = k → ∃ b ∈ post, b.Plain

/-- Data that was seen has been decided on in time, and none of it is still held back. -/
def Timely (k : SpecRef) (seen : List (Buf α)) : Prop :=
  (∃ d ∈ seen, d.spec = k) → Started k seen ∧ Followed k seen

section
variable {k : SpecRef} {seen : List (Buf α)}

theorem dataOf_snoc (k : SpecRef) (seen : List (Buf α)) (b : Buf α) :
    dataOf k (seen ++ [b]) = dataOf k seen ++ if b.spec = k then [b] else [] := by
  by_cases h : b.spec = k <;> simp [dataOf, h]

/-- The data of `k` that was seen is taken or waits. -/
theorem trail_length (hk : k.id ≠ 0) (seen : List (Buf α)) :
    (trail k seen).taken + (trail k seen).waiting.length = (dataOf k seen).length := by
  induction seen using List.reverseRecOn with
  | nil => rfl
  | append_singleton seen b ih =>
    rw [trail_snoc, dataOf_snoc, length_append, ← ih]
    rcases see_cases k b (trail k seen) with ⟨hb, heq⟩ | ⟨-, hs, heq⟩ | ⟨-, hs, heq⟩ <;> rw [heq]
    · have hne : b.spec ≠ k := fun h => hk (h ▸ hb.1)
      simp [hne]
    · simp [hs, Nat.add_assoc]
    · simp [hs hk]

/-- Data is never reordered or duplicated: unless it is being discarded, what is out and what
is waiting make up the data seen. -/
theorem trail_out_append_waiting (hk : k.id ≠ 0) (h : (trail k seen).mode ≠ some false) :
    (trail k seen).out ++ (trail k seen).waiting = dataOf k seen := by
  induction seen using List.reverseRecOn with
  | nil => rfl
  | append_singleton seen b ih =>
    rw [trail_snoc] at h ⊢
    rw [dataOf_snoc]
    rcases see_cases k b (trail k seen) with ⟨hb, heq⟩ | ⟨-, hs, heq⟩ | ⟨-, hs, heq⟩ <;>
      rw [heq] at h ⊢
    · have hne : b.spec ≠ k := fun h => hk (h ▸ hb.1)
      rw [flush_mode] at h
      -- a verdict counts for good, so the data was not being discarded before either
      rw [if_neg hne, append_nil, ← ih (mode_ne_of_judge h)]
      cases hm : ((trail k seen).judge k b.acts).mode with
      | none => rw [flush_of_none hm, judge_out, judge_waiting]
      | some c =>
        have hc : c = true := by
          cases c with
          | true => rfl
          | false => exact absurd hm h
        simp [flush_of_some hm, hc]
    · rw [if_pos hs, ← ih h, append_assoc]
    · rw [if_neg (hs hk), append_nil, ih h]

/-- Nothing comes out of a speculation that is not being committed. -/
theorem trail_out_eq_nil (h : (trail k seen).mode ≠ some true) : (trail k seen).out = [] := by
  induction seen using List.reverseRecOn with
  | nil => rfl
  | append_singleton seen b ih =>
    rw [trail_snoc] at h ⊢
    rcases see_cases k b (trail k seen) with ⟨-, heq⟩ | ⟨-, -, heq⟩ | ⟨-, -, heq⟩ <;>
      rw [heq] at h ⊢
    · rw [flush_mode] at h
      have hout := ih (mode_ne_of_judge h)
      cases hm : ((trail k seen).judge k b.acts).mode with
      | none => rw [flush_of_none hm, judge_out, hout]
      | some c =>
        have hc : c = false := by
          cases c with
          | false => rfl
          | true => exact absurd hm h
        simp [flush_of_some hm, hc, hout]
    · exact ih h
    · exact ih h

/-- A verdict that counts is an old one, or it comes when there is data. -/
theorem judge_mode_some {acts : List Act} {t : Trail α} {c : Bool}
    (h : (t.judge k acts).mode = some c) :
    t.mode = some c ∨
      (t.mode = none ∧ t.waiting ≠ [] ∧ ∃ a ∈ acts, a.verdict k = some c) := by
  unfold judge at h
  split at h
  · next hw =>
    simp only [Bool.and_eq_true, Option.isNone_iff_eq_none] at hw
    exact Or.inr ⟨hw.1, by simpa using hw.2, exists_of_findSome?_eq_some h⟩
  · exact Or.inl h

/-- A speculation is committed (discarded) only on such a record. -/
theorem judged_of_mode {c : Bool} (h : (trail k seen).mode = some c) : Judged k c seen := by
  induction seen using List.reverseRecOn with
  | nil => cases h
  | append_singleton seen b ih =>
    have old : (trail k seen).mode = some c → Judged k c (seen ++ [b]) := by
      rintro hm
      obtain ⟨b', hb', hj⟩ := ih hm
      exact ⟨b', mem_append_left _ hb', hj⟩
    rw [trail_snoc] at h
    rcases see_cases k b (trail k seen) with ⟨hb, heq⟩ | ⟨-, -, heq⟩ | ⟨-, -, heq⟩ <;>
      rw [heq] at h
    · rw [flush_mode] at h
      rcases judge_mode_some h with hm | ⟨-, -, hv⟩
      · exact old hm
      · exact ⟨b, by simp, hb, hv⟩
    · exact old h
    · exact old h

/-- Without a verdict all data waits. -/
theorem trail_waiting_of_mode_none (hk : k.id ≠ 0) (h : (trail k seen).mode = none) :
    (trail k seen).waiting = dataOf k seen := by
  have hout : (trail k seen).out = [] := trail_out_eq_nil (by simp [h])
  rw [← trail_out_append_waiting hk (by simp [h]), hout, nil_append]

theorem dataOf_ne_nil_iff : dataOf k seen ≠ [] ↔ ∃ d ∈ seen, d.spec = k := by
  simp [dataOf]

/-- `Started` along the list: the last buffer may be the first that decides. -/
theorem started_snoc (seen : List (Buf α)) (b : Buf α) :
    Started k (seen ++ [b]) ↔ Started k seen ∨
      (b.Plain ∧ (∃ a ∈ b.acts, (a.verdict k).isSome) ∧ ∃ d ∈ seen, d.spec = k) := by
  constructor
  · rintro ⟨pre, x, post, heq, hx, hv, hd⟩
    rcases eq_nil_or_concat post with rfl | ⟨post, y, rfl⟩
    · obtain ⟨rfl, hbx⟩ := append_inj' heq rfl
      obtain rfl : b = x := by simpa using hbx
      exact Or.inr ⟨hx, hv, hd⟩
    · -- it was decided before the last buffer
      have heq' : seen ++ [b] = (pre ++ x :: post) ++ [y] := by simpa using heq
      exact Or.inl ⟨pre, x, post, (append_inj' heq' rfl).1, hx, hv, hd⟩
  · rintro (⟨pre, x, post, rfl, h⟩ | ⟨hb, hv, hd⟩)
    · exact ⟨pre, x, post ++ [b], by simp, h⟩
    · exact ⟨seen, b, [], rfl, hb, hv, hd⟩

section

variable (hk : k.id ≠ 0)

include hk

/-- `Followed` along the list: a plain last buffer follows everything before it. -/
theorem followed_snoc (seen : List (Buf α)) (b : Buf α) :
    Followed k (seen ++ [b]) ↔ b.Plain ∨ (b.spec ≠ k ∧ Followed k seen) := by
  constructor
  · intro h
    by_cases hb : b.Plain
    · exact Or.inl hb
    · refine Or.inr ⟨fun hs => ?_, fun pre d post heq hd => ?_⟩
      · obtain ⟨x, hx, -⟩ := h seen b [] rfl hs
        cases hx
      · obtain ⟨x, hx, hx0⟩ := h pre d (post ++ [b]) (by simp [heq]) hd
        rcases mem_append.mp hx with hx | hx
        · exact ⟨x, hx, hx0⟩
        · exact absurd (mem_singleton.mp hx ▸ hx0) hb
  · intro h pre d post heq hd
    rcases eq_nil_or_concat post with rfl | ⟨post, y, rfl⟩
    · -- the last buffer is data of `k`, so it is neither plain nor of another speculation
      obtain rfl : b = d := by simpa using (append_inj' heq rfl).2
      rcases h with hb | ⟨hne, -⟩
      · exact absurd (hd ▸ hb.1) hk
      · exact absurd hd hne
    · have heq' : seen ++ [b] = (pre ++ d :: post) ++ [y] := by simpa using heq
      obtain ⟨hseen, hy⟩ := append_inj' heq' rfl
      obtain rfl : b = y := by simpa using hy
      rcases h with hb | ⟨-, hf⟩
      · exact ⟨b, by simp, hb⟩
      · obtain ⟨x, hx, hx0⟩ := hf pre d post hseen hd
        exact ⟨x, by simp [hx], hx0⟩

/-- There is a verdict after some records if there was one, or one of them is a verdict and data has
been seen. -/
theorem judge_mode_isSome (acts : List Act) :
    ((trail k seen).judge k acts).mode.isSome ↔
      (trail k seen).mode.isSome ∨
        ((∃ a ∈ acts, (a.verdict k).isSome) ∧ ∃ d ∈ seen, d.spec = k) := by
  cases hm : (trail k seen).mode with
  | some c => simp [judge_of_mode hm, hm]
  | none =>
    rw [← dataOf_ne_nil_iff, ← trail_waiting_of_mode_none hk hm]
    unfold judge
    cases (trail k seen).waiting <;> simp [hm]

/-- `Started` is about the order of the buffers, and `mode` is what the consumer knows of it. -/
theorem started_iff (seen : List (Buf α)) :
    Started k seen ↔ (trail k seen).mode.isSome := by
  induction seen using List.reverseRecOn with
  | nil => simp [Started, Trail.start]
  | append_singleton seen b ih =>
    rw [started_snoc, trail_snoc, ih]
    rcases see_cases k b (trail k seen) with ⟨hb, heq⟩ | ⟨hb, -, heq⟩ | ⟨hb, -, heq⟩ <;> rw [heq]
    · rw [flush_mode, judge_mode_isSome hk]
      simp [hb]
    · simp [hb]
    · simp [hb]

/-- **Nothing is left waiting exactly when the order was timely.** -/
theorem waiting_eq_nil_iff (seen : List (Buf α)) :
    (trail k seen).waiting = [] ↔ Timely k seen := by
  unfold Timely
  induction seen using List.reverseRecOn with
  | nil => simp [Trail.start]
  | append_singleton seen b ih =>
    rw [started_iff hk, followed_snoc hk, trail_snoc]
    rcases see_cases k b (trail k seen) with ⟨hb, heq⟩ | ⟨hb, hs, heq⟩ | ⟨hb, hs, heq⟩ <;> rw [heq]
    · have hne : b.spec ≠ k := fun h => hk (h ▸ hb.1)
      rw [flush_mode]
      cases hm : ((trail k seen).judge k b.acts).mode with
      | some c => simp [flush_of_some hm, hb]
      | none =>
        have hm' : (trail k seen).mode = none := by
          cases h : (trail k seen).mode with
          | none => rfl
          | some c => rw [judge_of_mode h, h] at hm; cases hm
        -- no verdict yet: everything that was seen waits, so nothing waits iff nothing was seen
        rw [flush_of_none hm, judge_waiting, trail_waiting_of_mode_none hk hm',
          ← not_iff_not, ← ne_eq, dataOf_ne_nil_iff]
        simp [hne]
    · simp [hs, hb]
    · rw [ih, started_iff hk]
      simp [hs hk, hb]

/-- Whatever the verdict, nothing comes out twice or in another order. -/
theorem trail_out_sublist (seen : List (Buf α)) :
    (trail k seen).out.Sublist (dataOf k seen) := by
  by_cases hm : (trail k seen).mode = some false
  · rw [trail_out_eq_nil (by simp [hm])]
    exact nil_sublist _
  · rw [← trail_out_append_waiting hk hm]
    exact sublist_append_left _ _

end

end

end DTrace.Speculation
