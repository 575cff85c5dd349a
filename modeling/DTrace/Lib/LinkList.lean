import Mathlib.Data.List.Nodup

/-!
# Lists linked through their elements

Elements have a pointer to the next and one to the previous element, and a list is the pointer to
its first one. `IsList h head l` says that the elements of the list at `head` are `l`.

`add` and `del` keep this as long as elements are added that are in no list (`add_isList`) and
deleted that are in this one (`del_isList`), and they touch no other element. Adding an element of
the list again makes a ring of it (`not_isList_add`), and deleting an element that is in no list
reads a null pointer (`del_eq_none`).
-/

namespace LinkList

open List Function

variable {E : Type} [DecidableEq E]

structure Links (E : Type) where
  next : Option E
  prev : Option E
  deriving DecidableEq, Repr

/-- The links of an element that is in no list. -/
def Links.null : Links E := ⟨none, none⟩

abbrev Heap (E : Type) := E → Links E

def setNext (h : Heap E) (e : E) (next : Option E) : Heap E :=
  update h e { h e with next := next }

def setPrev (h : Heap E) (e : E) (prev : Option E) : Heap E :=
  update h e { h e with prev := prev }

/-- A new first element. -/
def add (h : Heap E) (head : Option E) (new : E) : Heap E × E :=
  match head with
  | none => (h, new)
  | some hd => (setPrev (setNext h new (some hd)) hd (some new), new)

/-- The list without an element; `none` when a null pointer is read. -/
def del (h : Heap E) (head ent : E) : Option (Heap E × Option E) :=
  if head = ent then
    match (h ent).next with
    | none => some (h, none)
    | some next => some (setNext (setPrev h next none) ent none, some next)
  else
    match (h ent).prev, (h ent).next with
    | none, _ => none
    | some prev, none => some (setPrev (setNext h prev none) ent none, some head)
    | some prev, some next =>
      some (setNext (setPrev (setPrev (setNext h prev (some next)) next (some prev)) ent none) ent none,
        some head)

section
variable {h : Heap E} {e x : E}

theorem setNext_self (h : Heap E) (e : E) (next : Option E) :
    setNext h e next e = ⟨next, (h e).prev⟩ := update_self ..

theorem setNext_of_ne (hne : x ≠ e) (next : Option E) : setNext h e next x = h x :=
  update_of_ne hne _ _

theorem setPrev_self (h : Heap E) (e : E) (prev : Option E) :
    setPrev h e prev e = ⟨(h e).next, prev⟩ := update_self ..

theorem setPrev_of_ne (hne : x ≠ e) (prev : Option E) : setPrev h e prev x = h x :=
  update_of_ne hne _ _

end

/-! ## Lists -/

/-- The elements are linked in this order, between `prev` and `next`. -/
def Linked (h : Heap E) : Option E → List E → Option E → Prop
  | _, [], _ => True
  | prev, e :: l, next => h e = ⟨l.head?.or next, prev⟩ ∧ Linked h (some e) l next

def IsList (h : Heap E) (head : Option E) (l : List E) : Prop :=
  l.head? = head ∧ Linked h none l none

section
omit [DecidableEq E]

variable {h : Heap E} {next : Option E} {l : List E}

theorem Linked.congr {h' : Heap E} {prev : Option E} (hl : Linked h prev l next)
    (heq : ∀ e ∈ l, h' e = h e) : Linked h' prev l next := by
  induction l generalizing prev with
  | nil => trivial
  | cons e l ih =>
    exact ⟨(heq e mem_cons_self).trans hl.1,
      ih hl.2 fun x hx => heq x (mem_cons_of_mem e hx)⟩

theorem IsList.congr {h' : Heap E} {head : Option E} (hl : IsList h head l)
    (heq : ∀ e ∈ l, h' e = h e) : IsList h' head l := ⟨hl.1, hl.2.congr heq⟩

theorem linked_append {prev : Option E} {l' : List E} :
    Linked h prev (l ++ l') next ↔
      Linked h prev l (l'.head?.or next) ∧ Linked h (l.getLast?.or prev) l' next := by
  induction l generalizing prev with
  | nil => exact ⟨fun hl => ⟨trivial, hl⟩, fun hl => hl.2⟩
  | cons e l ih =>
    have hlast : (e :: l).getLast?.or prev = l.getLast?.or (some e) := by
      cases l with
      | nil => rfl
      | cons x l => rw [getLast?_cons_cons]; rfl
    rw [cons_append, Linked, Linked, ih, hlast, head?_append, Option.or_assoc, and_assoc]

/-- Every element but the first has one before it. -/
theorem Linked.prev_ne_none {p e : E} (hl : Linked h (some p) l next) (he : e ∈ l) :
    (h e).prev ≠ none := by
  induction l generalizing p with
  | nil => cases he
  | cons x l ih =>
    obtain rfl | he := mem_cons.mp he
    · rw [hl.1]
      exact Option.some_ne_none p
    · exact ih hl.2 he

end

variable {h : Heap E} {e : E} {l : List E}

theorem Linked.setPrev_first {prev next : Option E} (hl : Linked h prev (e :: l) next)
    (hnodup : (e :: l).Nodup) (prev' : Option E) :
    Linked (setPrev h e prev') prev' (e :: l) next := by
  refine ⟨?_, hl.2.congr fun x hx => setPrev_of_ne ?_ prev'⟩
  · rw [setPrev_self, hl.1]
  · rintro rfl
    exact (nodup_cons.mp hnodup).1 hx

theorem Linked.setNext_last {prev next : Option E} (hl : Linked h prev (l ++ [e]) next)
    (hnodup : (l ++ [e]).Nodup) (next' : Option E) :
    Linked (setNext h e next') prev (l ++ [e]) next' := by
  rw [linked_append] at hl ⊢
  have he : e ∉ l := fun hmem => disjoint_of_nodup_append hnodup hmem mem_cons_self
  refine ⟨hl.1.congr fun x hx => setNext_of_ne ?_ next', ?_, trivial⟩
  · rintro rfl
    exact he hx
  · rw [setNext_self, hl.2.1]
    rfl

/-! ## Adding -/

/-- An element that is in no list comes first. -/
theorem add_isList {head : Option E} (hl : IsList h head l) (hnodup : (e :: l).Nodup)
    (he : h e = .null) :
    (add h head e).2 = e ∧ IsList (add h head e).1 (some e) (e :: l) ∧
      ∀ x ∉ e :: l, (add h head e).1 x = h x := by
  obtain ⟨rfl, hl⟩ := hl
  cases l with
  | nil => exact ⟨rfl, ⟨rfl, he, trivial⟩, fun _ _ => rfl⟩
  | cons hd l =>
    have hne : e ≠ hd := fun heq => (nodup_cons.mp hnodup).1 (heq ▸ mem_cons_self)
    refine ⟨rfl, ⟨rfl, ?_, ?_⟩, fun x hx => ?_⟩
    · show setPrev _ hd _ e = _
      rw [setPrev_of_ne hne, setNext_self, he]
      rfl
    · have hrest : Linked (setNext h e (some hd)) none (hd :: l) none := by
        refine hl.congr fun x hx => setNext_of_ne ?_ _
        rintro rfl
        exact (nodup_cons.mp hnodup).1 hx
      exact hrest.setPrev_first (nodup_cons.mp hnodup).2 (some e)
    · rw [mem_cons, mem_cons, not_or, not_or] at hx
      show setPrev _ hd _ x = _
      rw [setPrev_of_ne hx.2.1, setNext_of_ne hx.1]

/-- **Adding an element of the list again makes a ring**: it has an element before it. -/
theorem not_isList_add {head : Option E} (hl : IsList h head l) (he : e ∈ l) (l' : List E) :
    ¬IsList (add h head e).1 (some e) l' := by
  rintro ⟨hhead, hlinked⟩
  obtain ⟨rfl, hl⟩ := hl
  obtain ⟨l1, rfl⟩ : ∃ l1, l' = e :: l1 := by
    cases l' with
    | nil => cases hhead
    | cons x l1 => exact ⟨l1, by rw [Option.some.inj hhead]⟩
  have hprev : ((add h l.head? e).1 e).prev = none := by rw [hlinked.1]
  cases l with
  | nil => cases he
  | cons hd l =>
    change (setPrev (setNext h e (some hd)) hd (some e) e).prev = none at hprev
    by_cases heq : e = hd
    · subst heq
      rw [setPrev_self] at hprev
      cases hprev
    · rw [setPrev_of_ne heq, setNext_self] at hprev
      exact hl.2.prev_ne_none ((mem_cons.mp he).resolve_left heq) hprev

/-! ## Deleting -/

/-- The first element is taken out. -/
theorem del_first (hl : Linked h none (e :: l) none) (hnodup : (e :: l).Nodup) :
    ∃ h', del h e e = some (h', l.head?) ∧ Linked h' none l none ∧ h' e = .null ∧
      ∀ x ∉ e :: l, h' x = h x := by
  have hne : ∀ x ∈ l, x ≠ e := by
    rintro x hx rfl
    exact (nodup_cons.mp hnodup).1 hx
  rw [del, if_pos rfl, hl.1]
  cases l with
  | nil => exact ⟨h, rfl, trivial, hl.1, fun _ _ => rfl⟩
  | cons n l =>
    refine ⟨_, rfl, ?_, ?_, fun x hx => ?_⟩
    · have hrest := hl.2.setPrev_first (nodup_cons.mp hnodup).2 none
      exact hrest.congr fun x hx => setNext_of_ne (hne x hx) none
    · rw [setNext_self, setPrev_of_ne (hne n mem_cons_self).symm, hl.1]
      rfl
    · rw [mem_cons, mem_cons, not_or, not_or] at hx
      rw [setNext_of_ne hx.1, setPrev_of_ne hx.2.1]

/-- An element behind `p` is taken out. -/
theorem del_behind {head p : E} {pre post : List E}
    (hl : Linked h none (pre ++ [p] ++ e :: post) none) (hnodup : (pre ++ [p] ++ e :: post).Nodup)
    (hne : head ≠ e) :
    ∃ h', del h head e = some (h', some head) ∧ Linked h' none (pre ++ [p] ++ post) none ∧
      h' e = .null ∧ ∀ x ∉ pre ++ [p] ++ e :: post, h' x = h x := by
  obtain ⟨hpre, he, hpost⟩ := linked_append.mp hl
  rw [getLast?_concat] at he
  obtain ⟨hnpre, hnpost, hdisj⟩ := nodup_append'.mp hnodup
  have hep : ∀ x ∈ pre ++ [p], x ≠ e := by
    rintro x hx rfl
    exact hdisj hx mem_cons_self
  have hpe : p ≠ e := hep p (mem_append_right pre mem_cons_self)
  rw [del, if_neg hne, he]
  cases post with
  | nil =>
    refine ⟨_, rfl, ?_, ?_, fun x hx => ?_⟩
    · rw [append_nil]
      exact (hpre.setNext_last hnpre none).congr fun x hx => setPrev_of_ne (hep x hx) none
    · rw [setPrev_self, setNext_of_ne hpe.symm, he]
      rfl
    · rw [mem_append, mem_append, mem_cons, mem_cons] at hx
      push Not at hx
      rw [setPrev_of_ne hx.2.1, setNext_of_ne hx.1.2.1]
  | cons n post =>
    have hen : ∀ x ∈ n :: post, x ≠ e := by
      rintro x hx rfl
      exact (nodup_cons.mp hnpost).1 hx
    -- neither side of the list has the elements that change on the other one
    have hside : ∀ x ∈ pre ++ [p], ∀ y ∈ n :: post, x ≠ y := by
      rintro x hx y hy rfl
      exact hdisj hx (mem_cons_of_mem e hy)
    have hp : p ∈ pre ++ [p] := mem_append_right pre mem_cons_self
    refine ⟨_, rfl, ?_, ?_, fun x hx => ?_⟩
    · rw [linked_append, getLast?_concat]
      constructor
      · refine (hpre.setNext_last hnpre (some n)).congr fun x hx => ?_
        rw [setNext_of_ne (hep x hx), setPrev_of_ne (hep x hx),
          setPrev_of_ne (hside x hx n mem_cons_self)]
      · have hrest : Linked (setNext h p (some n)) (some e) (n :: post) none :=
          hpost.congr fun x hx => setNext_of_ne (hside p hp x hx).symm _
        refine (hrest.setPrev_first (nodup_cons.mp hnpost).2 (some p)).congr fun x hx => ?_
        rw [setNext_of_ne (hen x hx), setPrev_of_ne (hen x hx)]
    · rw [setNext_self, setPrev_self]
      rfl
    · simp only [mem_append, mem_cons, not_mem_nil, or_false, not_or] at hx
      rw [setNext_of_ne hx.2.1, setPrev_of_ne hx.2.1, setPrev_of_ne hx.2.2.1, setNext_of_ne hx.1.2]

/-- An element of the list is taken out of it, and is in no list then. -/
theorem del_isList {head : E} (hl : IsList h (some head) l) (hnodup : l.Nodup) (he : e ∈ l) :
    ∃ h', del h head e = some (h', (l.erase e).head?) ∧ IsList h' (l.erase e).head? (l.erase e) ∧
      h' e = .null ∧ ∀ x ∉ l, h' x = h x := by
  obtain ⟨hhead, hl⟩ := hl
  obtain ⟨pre, post, rfl⟩ := append_of_mem he
  have hpre : e ∉ pre := fun hmem => disjoint_of_nodup_append hnodup hmem mem_cons_self
  rw [erase_append_right _ hpre, erase_cons_head]
  obtain rfl | ⟨pre, p, rfl⟩ := eq_nil_or_concat' pre
  · obtain rfl := Option.some.inj hhead
    obtain ⟨h', hdel, hlinked, hnull, hframe⟩ := del_first hl hnodup
    exact ⟨h', hdel, ⟨rfl, hlinked⟩, hnull, hframe⟩
  · -- the first element is before `e`
    obtain ⟨hd, rest, hcons⟩ : ∃ hd rest, pre ++ [p] = hd :: rest :=
      exists_cons_of_ne_nil (append_ne_nil_of_right_ne_nil pre (cons_ne_nil p []))
    obtain rfl : hd = head := by
      rw [hcons] at hhead
      exact Option.some.inj hhead
    have hne : hd ≠ e := by
      rintro rfl
      exact hpre (hcons ▸ mem_cons_self)
    have hfirst : (pre ++ [p] ++ post).head? = some hd := by
      rw [hcons]
      rfl
    obtain ⟨h', hdel, hlinked, hnull, hframe⟩ := del_behind hl hnodup hne
    rw [hfirst]
    exact ⟨h', hdel, ⟨hfirst, hlinked⟩, hnull, hframe⟩

/-- **Deleting an element that is in no list reads a null pointer.** -/
theorem del_eq_none {head : E} (hne : head ≠ e) (he : h e = .null) : del h head e = none := by
  rw [del, if_neg hne, he]
  rfl

end LinkList
