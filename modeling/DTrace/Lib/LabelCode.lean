import Mathlib.Data.List.Nodup

/-!
# Labelled code — a small-step machine over code suffixes

A program is a list of nodes, each carrying an instruction and an optional label. The
machine never counts instructions: a configuration is the **remaining code** (a suffix of
the program) together with a state, and a jump replaces the remaining code by the suffix
that starts at the target label. What an instruction does is a parameter (`exec`).

* **`Steps`** — finitely many machine steps inside a fixed program.
* **`Frag c s s'`** — the fragment `c` takes `s` to `s'` *wherever it is placed*: in any
  program that defines none of its labels before it, running from the start of `c` reaches
  the code right after `c`. Fragments compose (`Frag.append`), fall through (`Frag.next`)
  and jump forward over one another (`Frag.jump`). A **`Block`** is a fragment if its labels are
  distinct.
* **`Leads c s Q`** — the same for a fragment that may leave before its end: it comes to a
  configuration with `Q`.
* **`Runs c s s'`** — the closed run of a whole program, unique by `Runs.unique`.
-/

namespace LabelCode

open List

variable {I S : Type}

/-- What executing one instruction asks the machine to do next. -/
inductive Outcome (S : Type) where
  | next (s : S)
  | skip (s : S)
  | goto (l : Nat) (s : S)
  | halt (s : S)
  | stuck

/-- One node of a code list; label `0` means the node is unlabelled. -/
structure Node (I : Type) where
  label : Nat
  insn : I
  deriving DecidableEq, Repr

abbrev Code (I : Type) := List (Node I)

/-! ## Labels and label lookup -/

/-- The labels a code list defines, in order. -/
def labels : Code I → List Nat
  | [] => []
  | n :: c => if n.label = 0 then labels c else n.label :: labels c

@[simp] theorem labels_nil : labels ([] : Code I) = [] := rfl

@[simp] theorem labels_cons_zero (i : I) (c : Code I) : labels (⟨0, i⟩ :: c) = labels c := rfl

variable {l : Nat}

theorem labels_cons_pos (i : I) (c : Code I) (h : l ≠ 0) :
    labels (⟨l, i⟩ :: c) = l :: labels c := by
  simp [labels, h]

@[simp] theorem labels_append (c1 c2 : Code I) : labels (c1 ++ c2) = labels c1 ++ labels c2 := by
  induction c1 with
  | nil => rfl
  | cons n c ih =>
    rw [cons_append]
    by_cases h : n.label = 0
    · simp only [labels, h, if_true, ih]
    · simp only [labels, h, if_false, ih, cons_append]

theorem labels_flatMap_eq_nil {α : Type} {f : α → Code I} (h : ∀ a, labels (f a) = [])
    (as : List α) : labels (as.flatMap f) = [] := by
  induction as with
  | nil => rfl
  | cons a as ih => rw [flatMap_cons, labels_append, h, ih, append_nil]

theorem labels_singleton_nodup (l : Nat) (i : I) : (labels [(⟨l, i⟩ : Node I)]).Nodup := by
  unfold labels
  split <;> simp

section
variable {c1 c2 : Code I} (h : (labels (c1 ++ c2)).Nodup)
include h

theorem nodup_labels_left : (labels c1).Nodup := by
  rw [labels_append] at h
  exact h.of_append_left

theorem nodup_labels_right : (labels c2).Nodup := by
  rw [labels_append] at h
  exact h.of_append_right

end

theorem nodup_labels_tail {n : Node I} {c : Code I} (h : (labels (n :: c)).Nodup) :
    (labels c).Nodup := by
  rw [show n :: c = [n] ++ c from rfl] at h
  exact nodup_labels_right h

section
variable {pre c1 c2 : Code I} (h : ∀ l ∈ labels (c1 ++ c2), l ∉ labels pre)
include h

theorem fresh_left : ∀ l ∈ labels c1, l ∉ labels pre := by
  rw [labels_append] at h
  exact fun l hl => h l (mem_append_left _ hl)

/-- Labels that are fresh before `c1 ++ c2` are fresh before `c2`, if they are distinct. -/
theorem fresh_right (hnd : (labels (c1 ++ c2)).Nodup) :
    ∀ l ∈ labels c2, l ∉ labels (pre ++ c1) := by
  rw [labels_append] at h hnd ⊢
  intro l hl
  rw [mem_append, not_or]
  exact ⟨h l (mem_append_right _ hl), fun hl1 => disjoint_of_nodup_append hnd hl1 hl⟩

end

/-- The suffix of a code list that starts at the first node labelled `l`. -/
def lookup (l : Nat) : Code I → Option (Code I)
  | [] => none
  | n :: c => if n.label = l then some (n :: c) else lookup l c

theorem lookup_self (l : Nat) (i : I) (c : Code I) :
    lookup l (⟨l, i⟩ :: c) = some (⟨l, i⟩ :: c) := by
  simp [lookup]

/-- A prefix that does not define `l` is invisible to a lookup of `l`. -/
theorem lookup_append_of_not_mem (hl : l ≠ 0) {pre : Code I} (h : l ∉ labels pre) (c : Code I) :
    lookup l (pre ++ c) = lookup l c := by
  induction pre with
  | nil => rfl
  | cons n pre ih =>
    by_cases hn : n.label = 0
    · have hpre : l ∉ labels pre := by simpa only [labels, hn, if_true] using h
      rw [cons_append, lookup, if_neg (by rw [hn]; exact hl.symm), ih hpre]
    · simp only [labels, hn, if_false, mem_cons, not_or] at h
      rw [cons_append, lookup, if_neg (fun hne => h.1 hne.symm), ih h.2]

theorem zero_not_mem_labels (c : Code I) : 0 ∉ labels c := by
  induction c with
  | nil => exact not_mem_nil
  | cons n c ih =>
    by_cases h0 : n.label = 0
    · rw [labels, if_pos h0]
      exact ih
    · rw [labels, if_neg h0, mem_cons, not_or]
      exact ⟨fun h => h0 h.symm, ih⟩

/-- What a lookup finds is the end of the list. -/
theorem lookup_suffix {c rest : Code I} (h : lookup l c = some rest) : ∃ pre, c = pre ++ rest := by
  induction c with
  | nil => cases h
  | cons n c ih =>
    rw [lookup] at h
    split at h
    · exact ⟨[], (Option.some.inj h)⟩
    · obtain ⟨pre, rfl⟩ := ih h
      exact ⟨n :: pre, rfl⟩

/-! ## The machine -/

/-- One machine step: execute the head of the remaining code. -/
def step (exec : I → S → Outcome S) (prog : Code I) : Code I × S → Option (Code I × S)
  | ([], _) => none
  | (n :: c, s) =>
    match exec n.insn s with
    | .next s' => some (c, s')
    | .skip s' => some (c.tail, s')
    | .goto l s' => (lookup l prog).map fun c' => (c', s')
    | .halt _ => none
    | .stuck => none

/-- Run at most `fuel` steps; the executable counterpart of `Steps`. -/
def run (exec : I → S → Outcome S) (prog : Code I) : Nat → Code I × S → Code I × S
  | 0, a => a
  | fuel + 1, a =>
    match step exec prog a with
    | none => a
    | some b => run exec prog fuel b

section
variable (exec : I → S → Outcome S)

/-- Finitely many machine steps inside `prog`. -/
inductive Steps (prog : Code I) : Code I × S → Code I × S → Prop where
  | refl (a : Code I × S) : Steps prog a a
  | head {a b c : Code I × S} (h : step exec prog a = some b) (rest : Steps prog b c) :
      Steps prog a c

variable {exec}

variable {prog : Code I} {a : Code I × S} {c : Code I} {l : Nat} {i : I} {s s1 s2 : S}
  {Q : Code I → S → Prop}

theorem Steps.trans {b c : Code I × S} (h1 : Steps exec prog a b) (h2 : Steps exec prog b c) :
    Steps exec prog a c := by
  induction h1 with
  | refl _ => exact h2
  | head h _ ih => exact .head h (ih h2)

theorem Steps.ofRun (fuel : Nat) (a : Code I × S) : Steps exec prog a (run exec prog fuel a) := by
  induction fuel generalizing a with
  | zero => exact .refl a
  | succ fuel ih =>
    unfold run
    cases h : step exec prog a with
    | none => exact .refl a
    | some b => exact .head h (ih b)

/-- Two runs of a deterministic machine that both end where no step is possible agree. -/
theorem Steps.unique {b c : Code I × S} (h1 : Steps exec prog a b) (h2 : Steps exec prog a c)
    (hb : step exec prog b = none) (hc : step exec prog c = none) : b = c := by
  induction h1 with
  | refl _ =>
    cases h2 with
    | refl _ => rfl
    | head h _ => rw [hb] at h; cases h
  | head h _ ih =>
    cases h2 with
    | refl _ => rw [hc] at h; cases h
    | head h' rest' =>
      rw [h] at h'
      cases h'
      exact ih rest' hb

variable {s' : S} {t : Nat} {c1 : Code I} {j : I} {d : Code I}

theorem Steps.next (h : exec i s = .next s') (rest : Steps exec prog (c, s') a) :
    Steps exec prog (⟨l, i⟩ :: c, s) a :=
  .head (by simp [step, h]) rest

theorem Steps.goto {c' : Code I} (h : exec i s = .goto t s') (ht : lookup t prog = some c')
    (rest : Steps exec prog (c', s') a) : Steps exec prog (⟨l, i⟩ :: c, s) a :=
  .head (by simp [step, h, ht]) rest

/-! ## Fragments -/

variable (exec) in
/-- The fragment `c` takes `s` to `s'` in every program that defines none of its labels
before it, whatever code follows. -/
def Frag (c : Code I) (s s' : S) : Prop :=
  ∀ pre k : Code I, (∀ l ∈ labels c, l ∉ labels pre) →
    Steps exec (pre ++ c ++ k) (c ++ k, s) (k, s')

theorem Frag.nil (s : S) : Frag exec [] s s := fun _ _ _ => .refl _

/-- The machine runs a fragment and goes on in the code behind it. -/
theorem Frag.steps {pre c2 k : Code I} (h : Frag exec c1 s s1)
    (hpre : ∀ l ∈ labels (c1 ++ c2), l ∉ labels pre)
    (r : Steps exec (pre ++ c1 ++ c2 ++ k) (c2 ++ k, s1) a) :
    Steps exec (pre ++ (c1 ++ c2) ++ k) (c1 ++ c2 ++ k, s) a := by
  have r1 := h pre (c2 ++ k) (fresh_left hpre)
  simp only [append_assoc] at r1 r ⊢
  exact r1.trans r

/-- Running one fragment after another. -/
theorem Frag.append {c2 : Code I} (h1 : Frag exec c1 s s1) (h2 : Frag exec c2 s1 s2)
    (hnd : (labels (c1 ++ c2)).Nodup) : Frag exec (c1 ++ c2) s s2 :=
  fun pre k hpre => h1.steps hpre (h2 (pre ++ c1) k (fresh_right hpre hnd))

/-- A single instruction that falls through. -/
theorem Frag.single (h : exec i s = .next s') : Frag exec [⟨l, i⟩] s s' :=
  fun _ _ _ => .next h (.refl _)

/-- Falling through one instruction. -/
theorem Frag.next (h : exec i s = .next s1) (hc : Frag exec c s1 s2)
    (hnd : (labels (⟨l, i⟩ :: c)).Nodup) : Frag exec (⟨l, i⟩ :: c) s s2 :=
  (Frag.single h).append hc hnd

/-- A two-slot instruction falls through past its second slot. -/
theorem Frag.skip (h : exec i s = .skip s1) (hc : Frag exec c s1 s2) :
    Frag exec (⟨0, i⟩ :: ⟨0, j⟩ :: c) s s2 := by
  intro pre k hpre
  have r := hc (pre ++ [⟨0, i⟩, ⟨0, j⟩]) k fun l hl => by
    simpa using hpre l (by simpa using hl)
  simp only [append_assoc] at r ⊢
  exact .head (by simp [step, h]) r

/-- A label that is fresh before the code behind it is found there. -/
theorem lookup_target {pre k : Code I} (ht : t ≠ 0)
    (h : ∀ l ∈ labels (⟨t, j⟩ :: d), l ∉ labels pre) :
    lookup t (pre ++ (⟨t, j⟩ :: d) ++ k) = some (⟨t, j⟩ :: d ++ k) := by
  rw [append_assoc, lookup_append_of_not_mem ht (h t (by simp [labels_cons_pos _ _ ht]))]
  exact lookup_self t j (d ++ k)

/-- A forward jump: the code `c` between the jump and its target is skipped. -/
theorem Steps.jump {pre k : Code I} (h : exec i s = .goto t s1) (ht : t ≠ 0)
    (hpre : ∀ l ∈ labels (⟨t, j⟩ :: d), l ∉ labels (pre ++ ⟨0, i⟩ :: c))
    (r : Steps exec (pre ++ ⟨0, i⟩ :: c ++ ⟨t, j⟩ :: d ++ k) (⟨t, j⟩ :: d ++ k, s1) a) :
    Steps exec (pre ++ ⟨0, i⟩ :: (c ++ ⟨t, j⟩ :: d) ++ k) (⟨0, i⟩ :: (c ++ ⟨t, j⟩ :: d) ++ k, s)
      a := by
  have hlook := lookup_target (k := k) ht hpre
  simp only [append_assoc, cons_append] at r hlook ⊢
  exact .goto h hlook r

theorem Frag.jump (h : exec i s = .goto t s1) (ht : t ≠ 0) (hd : Frag exec (⟨t, j⟩ :: d) s1 s2)
    (hnd : (labels (c ++ ⟨t, j⟩ :: d)).Nodup) : Frag exec (⟨0, i⟩ :: (c ++ ⟨t, j⟩ :: d)) s s2 := by
  intro pre k hpre
  have hctx := @fresh_right _ pre (⟨0, i⟩ :: c) (⟨t, j⟩ :: d) hpre hnd
  exact .jump h ht hctx (hd (pre ++ ⟨0, i⟩ :: c) k hctx)

variable (exec) in
/-- A fragment if its labels are distinct. What is put together from blocks needs that once, for
the whole. -/
def Block (c : Code I) (s s' : S) : Prop := (labels c).Nodup → Frag exec c s s'

theorem Frag.block (h : Frag exec c s s') : Block exec c s s' := fun _ => h

theorem Block.append {c2 : Code I} (h1 : Block exec c1 s s1) (h2 : Block exec c2 s1 s2) :
    Block exec (c1 ++ c2) s s2 :=
  fun hnd => (h1 (nodup_labels_left hnd)).append (h2 (nodup_labels_right hnd)) hnd

theorem Frag.seq {c2 : Code I} (h1 : Frag exec c1 s s1) (h2 : Block exec c2 s1 s2) :
    Block exec (c1 ++ c2) s s2 :=
  h1.block.append h2

theorem Block.next (h : exec i s = .next s1) (hc : Block exec c s1 s2) :
    Block exec (⟨l, i⟩ :: c) s s2 :=
  fun hnd => .next h (hc (nodup_labels_tail hnd)) hnd

theorem Block.single (h : exec i s = .next s') : Block exec [⟨l, i⟩] s s' :=
  (Frag.single h).block

theorem Block.jump (h : exec i s = .goto t s1) (ht : t ≠ 0)
    (hd : Block exec (⟨t, j⟩ :: d) s1 s2) : Block exec (⟨0, i⟩ :: (c ++ ⟨t, j⟩ :: d)) s s2 :=
  fun hnd => .jump h ht (hd (nodup_labels_right (nodup_labels_tail hnd))) (nodup_labels_tail hnd)

variable (exec) in
/-- Wherever it is placed, running `c` from `s` comes to a configuration with `Q`, inside the
fragment or not. -/
def Leads (c : Code I) (s : S) (Q : Code I → S → Prop) : Prop :=
  ∀ pre k : Code I, (∀ l ∈ labels c, l ∉ labels pre) →
    ∃ d s', Steps exec (pre ++ c ++ k) (c ++ k, s) (d, s') ∧ Q d s'

/-- What comes after a fragment does not matter once it has led somewhere. -/
theorem Leads.append (h : Leads exec c1 s Q) (c2 : Code I) : Leads exec (c1 ++ c2) s Q := by
  intro pre k hpre
  obtain ⟨d, s', r, hq⟩ := h pre (c2 ++ k) (fresh_left hpre)
  refine ⟨d, s', ?_, hq⟩
  simpa only [append_assoc] using r

theorem Frag.leads {c2 : Code I} (h1 : Frag exec c1 s s1) (h2 : Leads exec c2 s1 Q)
    (hnd : (labels (c1 ++ c2)).Nodup) : Leads exec (c1 ++ c2) s Q := by
  intro pre k hpre
  obtain ⟨d, s', r, hq⟩ := h2 (pre ++ c1) k (fresh_right hpre hnd)
  exact ⟨d, s', h1.steps hpre r, hq⟩

variable (exec) in
/-- The same, if the labels of `c` are distinct. -/
def BlockLeads (c : Code I) (s : S) (Q : Code I → S → Prop) : Prop :=
  (labels c).Nodup → Leads exec c s Q

theorem BlockLeads.next (h : exec i s = .next s1) (hc : BlockLeads exec c s1 Q) :
    BlockLeads exec (⟨l, i⟩ :: c) s Q :=
  fun hnd => (Frag.single h).leads (hc (nodup_labels_tail hnd)) hnd

/-- A forward jump to code that leads somewhere. -/
theorem BlockLeads.jump (h : exec i s = .goto t s1) (ht : t ≠ 0)
    (hd : BlockLeads exec (⟨t, j⟩ :: d) s1 Q) :
    BlockLeads exec (⟨0, i⟩ :: (c ++ ⟨t, j⟩ :: d)) s Q := by
  intro hnd pre k hpre
  have hctx := @fresh_right _ pre (⟨0, i⟩ :: c) (⟨t, j⟩ :: d) hpre hnd
  obtain ⟨d', s', r, hq⟩ := hd (nodup_labels_right (nodup_labels_tail hnd)) _ k hctx
  exact ⟨d', s', .jump h ht hctx r, hq⟩

variable (exec) in
/-- The closed run of a whole program. -/
def Runs (c : Code I) (s s' : S) : Prop :=
  Steps exec c (c, s) ([], s')

theorem Frag.runs (h : Frag exec c s s') : Runs exec c s s' := by
  simpa [Runs] using h [] [] fun _ _ => by simp

theorem Runs.ofRun {fuel : Nat} (h : (run exec c fuel (c, s)).1 = []) :
    Runs exec c s (run exec c fuel (c, s)).2 := by
  have r : Steps exec c (c, s) (run exec c fuel (c, s)) := Steps.ofRun fuel (c, s)
  rwa [show run exec c fuel (c, s) = ([], (run exec c fuel (c, s)).2) from
    Prod.ext h rfl] at r

theorem Runs.unique (h1 : Runs exec c s s1) (h2 : Runs exec c s s2) : s1 = s2 := by
  have h := Steps.unique h1 h2 rfl rfl
  simpa using h

end

/-! ## Straight-line code and open exits

`fallThrough` runs code that takes no jump. `Exits c l s s'` is the counterpart of `Frag` for code
that leaves by a jump to a label `l` of its surroundings; `Exits.frag` closes it where the label
is defined. -/

def fallThrough (exec : I → S → Outcome S) : Code I → S → Option S
  | [], s => some s
  | n :: c, s =>
    match exec n.insn s with
    | .next s' => fallThrough exec c s'
    | _ => none

section
variable {exec : I → S → Outcome S}

variable {c : Code I} {s : S}

variable {s' s1 s2 : S}

theorem Frag.of_fallThrough (h : fallThrough exec c s = some s') (hnd : (labels c).Nodup) :
    Frag exec c s s' := by
  induction c generalizing s with
  | nil =>
    obtain rfl := Option.some.inj h
    exact Frag.nil s
  | cons n c ih =>
    rw [fallThrough] at h
    cases hn : exec n.insn s with
    | next s1 =>
      rw [hn] at h
      exact Frag.next hn (ih h (nodup_labels_tail hnd)) hnd
    | skip _ | goto _ _ | halt _ | stuck => rw [hn] at h; cases h

variable (exec) in
/-- The fragment `c` leaves by a jump to the label `l`, wherever that is defined. -/
def Exits (c : Code I) (l : Nat) (s s' : S) : Prop :=
  ∀ pre k : Code I, (∀ t ∈ labels c, t ∉ labels pre) →
    ∀ d, lookup l (pre ++ c ++ k) = some d → Steps exec (pre ++ c ++ k) (c ++ k, s) (d, s')

theorem Exits.here {l m : Nat} {i : I} (h : exec i s = .goto l s') :
    Exits exec (⟨m, i⟩ :: c) l s s' :=
  fun _ _ _ _ hd => .goto h hd (.refl _)

theorem Exits.append {c1 : Code I} {l : Nat} (h : Exits exec c1 l s s') (c2 : Code I) :
    Exits exec (c1 ++ c2) l s s' := by
  intro pre k hpre d hd
  have r := h pre (c2 ++ k) (fresh_left hpre) d
    (by simpa only [append_assoc] using hd)
  simpa only [append_assoc] using r

theorem Frag.exits {c1 c2 : Code I} {l : Nat} (h1 : Frag exec c1 s s1)
    (h2 : Exits exec c2 l s1 s2) (hnd : (labels (c1 ++ c2)).Nodup) :
    Exits exec (c1 ++ c2) l s s2 := by
  intro pre k hpre d hd
  exact h1.steps hpre (h2 (pre ++ c1) k (fresh_right hpre hnd) d
    (by simpa only [append_assoc] using hd))

/-- The label is defined right behind the code that jumps to it. -/
theorem Exits.frag {d : Code I} {l : Nat} {j : I} (h : Exits exec c l s s1) (hl : l ≠ 0)
    (hd : Frag exec (⟨l, j⟩ :: d) s1 s2) (hnd : (labels (c ++ ⟨l, j⟩ :: d)).Nodup) :
    Frag exec (c ++ ⟨l, j⟩ :: d) s s2 := by
  intro pre k hpre
  have hctx := fresh_right hpre hnd
  have hlook := lookup_target (k := k) hl hctx
  have r2 := hd (pre ++ c) k hctx
  rw [append_assoc (pre ++ c)] at hlook
  have r1 := h pre (⟨l, j⟩ :: d ++ k) (fresh_left hpre) _ hlook
  simp only [append_assoc] at r1 r2 ⊢
  exact r1.trans r2

variable (exec) in
/-- A program that comes to an instruction that ends it. -/
def Halts (c : Code I) (s s' : S) : Prop :=
  ∃ n rest, Steps exec c (c, s) (n :: rest, s') ∧ exec n.insn s' = .halt s'

theorem Halts.unique (h1 : Halts exec c s s1) (h2 : Halts exec c s s2) : s1 = s2 := by
  obtain ⟨_, _, run1, e1⟩ := h1
  obtain ⟨_, _, run2, e2⟩ := h2
  have h := Steps.unique run1 run2 (by simp [step, e1]) (by simp [step, e2])
  exact (Prod.mk.inj h).2

/-- A fragment, and behind it an instruction that ends the program. -/
theorem Frag.halts {m : Nat} {i : I} (h : Frag exec c s s') (hi : exec i s' = .halt s') :
    Halts exec (c ++ [⟨m, i⟩]) s s' := by
  have r := h [] [⟨m, i⟩] fun _ _ => by simp
  exact ⟨⟨m, i⟩, [], by simpa using r, hi⟩

end

/-! ## Embedding one machine in another

A machine with more instructions and more state runs a fragment of the smaller machine as the
smaller machine does. The fragment may use none of the surroundings it does not know, and
`Frag` at a surrounding of instructions that stop shows that it uses none at all. -/

section
variable {J T : Type}

def Node.map (f : I → J) (n : Node I) : Node J := ⟨n.label, f n.insn⟩

def Outcome.map (g : S → T) : Outcome S → Outcome T
  | .next s => .next (g s)
  | .skip s => .skip (g s)
  | .goto l s => .goto l (g s)
  | .halt s => .halt (g s)
  | .stuck => .stuck

@[simp] theorem labels_map (f : I → J) (c : Code I) : labels (c.map (Node.map f)) = labels c := by
  induction c with
  | nil => rfl
  | cons n c ih => simp only [map_cons, labels, Node.map, ih]

theorem lookup_map (f : I → J) (l : Nat) (c : Code I) :
    lookup l (c.map (Node.map f)) = (lookup l c).map (List.map (Node.map f)) := by
  induction c with
  | nil => rfl
  | cons n c ih =>
    by_cases h : n.label = l
    · simp [lookup, Node.map, h]
    · simp [lookup, Node.map, h, ih]

variable {c : Code I}

theorem lookup_append {l : Nat} {rest : Code I} (h : lookup l c = some rest) (k : Code I) :
    lookup l (c ++ k) = some (rest ++ k) := by
  induction c with
  | nil => cases h
  | cons n c ih =>
    rw [lookup] at h
    rw [cons_append, lookup]
    split at h
    · next hn =>
      rw [if_pos hn, ← Option.some.inj h, cons_append]
    · next hn =>
      rw [if_neg hn]
      exact ih h

theorem not_mem_labels_of_lookup {l : Nat} (h : lookup l c = none) : l ∉ labels c := by
  induction c with
  | nil => exact not_mem_nil
  | cons n c ih =>
    rw [lookup] at h
    split at h
    · cases h
    · next hn =>
      rw [labels]
      split
      · exact ih h
      · exact fun hmem => ih h ((mem_cons.mp hmem).resolve_left fun e => hn e.symm)

theorem mem_labels_of_lookup {l : Nat} (hl : l ≠ 0) {rest : Code I} (h : lookup l c = some rest) :
    l ∈ labels c := by
  by_contra hn
  have hnone := lookup_append_of_not_mem hl hn ([])
  rw [append_nil, h] at hnone
  cases hnone

/-- A run that has come to where no step is possible stays there. -/
theorem Steps.eq_of_stopped {exec : I → S → Outcome S} {prog : Code I} {a b : Code I × S}
    (h : Steps exec prog a b) (hstop : step exec prog a = none) : b = a := by
  cases h with
  | refl _ => rfl
  | head h _ =>
    rw [hstop] at h
    cases h

/-- **Embedding a fragment**: where the larger machine does what the smaller one does, it runs
the fragment the same way. -/
theorem Frag.embed {exec : I → S → Outcome S} {exec' : J → T → Outcome T} {f : I → J} {g : S → T}
    (hexec : ∀ i s, exec i s ≠ .stuck → exec' (f i) (g s) = (exec i s).map g) {x : I}
    (hx : ∀ s, exec x s = .stuck) {s s' : S} (h : Frag exec c s s') :
    Frag exec' (c.map (Node.map f)) (g s) (g s') := by
  intro pre k hpre
  let stop : Code I := [⟨0, x⟩]
  have hstop : ∀ (d) (s), step exec (stop ++ c ++ stop) (⟨0, x⟩ :: d, s) = none :=
    fun d s => by simp [step, hx]
  have hrun := h stop stop fun _ _ => by simp [stop]
  -- the induction is on the run of the smaller machine, which never leaves the fragment
  suffices key : ∀ {a b : Code I × S}, Steps exec (stop ++ c ++ stop) a b →
      ∀ e d s, c = e ++ d → a = (d ++ stop, s) → b = (stop, s') →
        Steps exec' (pre ++ c.map (Node.map f) ++ k) (d.map (Node.map f) ++ k, g s) (k, g s') from
    key hrun [] c s rfl rfl rfl
  intro a b hsteps
  induction hsteps with
  | refl a =>
    rintro e d s - rfl hb
    obtain ⟨hd, rfl⟩ := Prod.mk.inj hb
    obtain rfl : d = [] := by simpa [stop] using hd
    exact .refl _
  | @head a b b' hstep rest ih =>
    rintro e d s hc rfl rfl
    cases d with
    | nil => rw [nil_append, hstop] at hstep; cases hstep
    | cons n d =>
      have hn' := hexec n.insn s
      cases hn : exec n.insn s with
      | next s1 =>
        have hb : (d ++ stop, s1) = b := by simpa [step, hn] using hstep
        rw [hn] at hn'
        exact .next (hn' (by simp)) (ih (e ++ [n]) d s1 (by simp [hc]) hb.symm rfl)
      | skip s1 =>
        have hb : ((d ++ stop).tail, s1) = b := by simpa [step, hn] using hstep
        rw [hn] at hn'
        cases d with
        | nil =>
          -- skipping the stop instruction would leave the program for good
          have := rest.eq_of_stopped (by rw [← hb]; rfl)
          rw [← hb] at this
          simp [stop] at this
        | cons m d =>
          refine .head (by simp [step, Node.map, hn' (by simp)]; rfl) ?_
          exact ih (e ++ [n, m]) d s1 (by simp [hc]) (by rw [← hb]; rfl) rfl
      | goto l s1 =>
        rw [hn] at hn'
        obtain ⟨target, hlook, hb⟩ : ∃ target, lookup l (stop ++ c ++ stop) = some target ∧
            (target, s1) = b := by
          simpa [step, hn] using hstep
        by_cases hl : l = 0
        · -- label `0` is nobody's: the first unlabelled node is the stop instruction
          subst hl
          have htarget : target = stop ++ c ++ stop := by
            simpa [stop, lookup] using hlook.symm
          have := rest.eq_of_stopped (by rw [← hb, htarget]; exact hstop _ _)
          rw [← hb, htarget] at this
          have hlen := congrArg (fun p => p.1.length) this
          simp [stop] at hlen
        · rw [append_assoc, lookup_append_of_not_mem hl (by simp [stop])] at hlook
          cases hc' : lookup l c with
          | none =>
            rw [lookup_append_of_not_mem hl (not_mem_labels_of_lookup hc')] at hlook
            simp [stop, lookup, Ne.symm hl] at hlook
          | some d' =>
            rw [lookup_append hc' stop] at hlook
            obtain rfl := Option.some.inj hlook
            obtain ⟨e', hc''⟩ := lookup_suffix hc'
            have hctx : lookup l (pre ++ c.map (Node.map f) ++ k)
                = some (d'.map (Node.map f) ++ k) := by
              rw [append_assoc, lookup_append_of_not_mem hl
                (hpre l (by rw [labels_map]; exact mem_labels_of_lookup hl hc'))]
              exact lookup_append (by rw [lookup_map, hc']; rfl) k
            exact .goto (hn' (by simp)) hctx (ih e' d' s1 hc'' hb.symm rfl)
      | halt s1 | stuck => simp [step, hn] at hstep

end

/-! ## Label ranges

A generator hands out labels from a counter; `InRange lo hi ls` says the labels `ls`, defined
while the counter went from `lo` to `hi`, are distinct and were handed out meanwhile. -/

structure InRange (lo hi : Nat) (ls : List Nat) : Prop where
  nodup : ls.Nodup
  mem : ∀ l ∈ ls, lo ≤ l ∧ l < hi

theorem InRange.nil (lo hi : Nat) : InRange lo hi [] :=
  ⟨by simp, by simp⟩

variable {lo : Nat}

theorem InRange.mono {hi lo' hi' : Nat} {ls : List Nat} (h : InRange lo hi ls) (hlo : lo' ≤ lo)
    (hhi : hi ≤ hi') : InRange lo' hi' ls := by
  refine ⟨h.nodup, fun l hl => ?_⟩
  have := h.mem l hl
  omega

/-- Two pieces of code from adjacent stretches of the counter. -/
theorem InRange.append {a b c : Nat} {ls1 ls2 : List Nat} (h1 : InRange a b ls1)
    (h2 : InRange b c ls2) (hab : a ≤ b) (hbc : b ≤ c) : InRange a c (ls1 ++ ls2) := by
  refine ⟨nodup_append.mpr ⟨h1.nodup, h2.nodup, fun x hx y hy hxy => ?_⟩, fun l hl => ?_⟩
  · have m1 := h1.mem x hx
    have m2 := h2.mem y hy
    omega
  · rcases mem_append.mp hl with hl | hl
    · have := h1.mem l hl; omega
    · have := h2.mem l hl; omega

/-- A label handed out before the rest of the code, defined anywhere in it. -/
theorem InRange.insert {hi : Nat} {ls1 ls2 : List Nat} (h : InRange lo hi (ls1 ++ ls2))
    (hl : l < lo) (hhi : lo ≤ hi) : InRange l hi (ls1 ++ l :: ls2) := by
  have hnot : l ∉ ls1 ++ ls2 := fun hmem => by have := h.mem l hmem; omega
  refine ⟨nodup_middle.mpr (nodup_cons.mpr ⟨hnot, h.nodup⟩), fun t ht => ?_⟩
  have ht' : t = l ∨ t ∈ ls1 ++ ls2 := by
    simp only [mem_append, mem_cons] at ht ⊢
    tauto
  rcases ht' with rfl | ht'
  · omega
  · have := h.mem t ht'; omega

theorem InRange.concat {hi : Nat} {ls : List Nat} (h : InRange lo hi ls) (hl : l < lo)
    (hhi : lo ≤ hi) : InRange l hi (ls ++ [l]) :=
  InRange.insert (by simpa using h) hl hhi

end LabelCode
