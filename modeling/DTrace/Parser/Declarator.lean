import Mathlib.Data.List.Basic
import Mathlib.Algebra.Group.Nat.Defs

/-!
# Declarators — `dt_decl_ptr`, `dt_decl_array`, `dt_decl_type`

The actions of the grammar push a declaration for every pointer and every array on a stack, and
`dt_decl_type` reads the stack from the top as a type. All pointers of a declarator are pushed
before the first of its arrays, and an array goes below the arrays that are on top.

* **`Declarator.cType`** — the type that C gives to a declarator.
* **`declare_type`** — the type that is read: the arrays in the order in which they are written,
  then the pointers. Parentheses make no difference.
* **`declare_denotes_iff`** — the types agree unless an array suffix follows a parenthesised
  declarator that has a pointer.
-/

namespace DTrace.Parser

open List

/-! ## The source -/

/-- A constant that has been cooked. -/
structure IntValue where
  value : BitVec 64
  signed : Bool
  deriving DecidableEq, Repr

/-- `dt_node_is_posconst` -/
def dtNodeIsPosconst (dnp : IntValue) : Bool :=
  dnp.value ≠ 0 && (!dnp.signed || decide (0 < dnp.value.toInt))

/-- `dd_kind`, with what it takes to read the type. -/
inductive DeclKind where
  | name (dd_name : String)
  | pointer
  | array (dd_node : IntValue)
  deriving DecidableEq, Repr

/-- An entry of the declaration stack; `paren` is `DT_DA_PAREN`. -/
structure Decl where
  kind : DeclKind
  paren : Bool
  deriving DecidableEq, Repr

def Decl.isArray (ddp : Decl) : Bool :=
  match ddp.kind with
  | .array _ => true
  | _ => false

inductive DeclError where
  | voidobj | arrsub | arrbig
  deriving DecidableEq, Repr

def dtDeclPush (kind : DeclKind) (stack : List Decl) : List Decl := ⟨kind, false⟩ :: stack

def dtDeclPtr (stack : List Decl) : List Decl := dtDeclPush .pointer stack

/-- `dt_decl_array`: the entry goes below the arrays on top. -/
def dtDeclArray (dnp : IntValue) (stack : List Decl) : Except DeclError (List Decl) :=
  let arrays := stack.takeWhile Decl.isArray
  let rest := stack.dropWhile Decl.isArray
  if rest.head?.map Decl.kind = some (.name "void") then .error .voidobj
  else if !dtNodeIsPosconst dnp then .error .arrsub
  else if 2 ^ 32 - 1 < dnp.value.toNat then .error .arrbig
  else .ok (arrays ++ dtDeclPush (.array dnp) rest)

/-- `dt_decl_top()->dd_attr |= DT_DA_PAREN` -/
def dtDeclParen : List Decl → List Decl
  | [] => []
  | ddp :: stack => { ddp with paren := true } :: stack

/-- A declarator: `direct_declarator array`, `pointer direct_declarator`, and so on. -/
inductive Declarator where
  | ident
  | paren (d : Declarator)
  | array (d : Declarator) (dnp : IntValue)
  | ptr (d : Declarator)
  deriving Repr

/-- The actions, in the order of the parse. -/
def Declarator.actions : Declarator → List Decl → Except DeclError (List Decl)
  | .ident, stack => .ok stack
  | .paren d, stack => d.actions (dtDeclParen stack)
  | .array d dnp, stack => d.actions stack >>= dtDeclArray dnp
  | .ptr d, stack => d.actions (dtDeclPtr stack)

inductive CType where
  | name (n : String)
  | pointer (t : CType)
  | array (nelems : Nat) (t : CType)
  deriving DecidableEq, Repr

/-- `dt_decl_type`. The type container accepts every type. -/
def dtDeclType : List Decl → Option CType
  | [] => none
  | ddp :: stack =>
    match ddp.kind with
    | .name n => some (.name n)
    | .pointer => (dtDeclType stack).map .pointer
    -- `ctr_nelems` is `(uint_t)dd_node->dn_value`
    | .array dnp => (dtDeclType stack).map (.array (dnp.value.toNat % 2 ^ 32))

/-- The stack for a declaration with the specifier `n`. -/
def declare (n : String) (d : Declarator) : Except DeclError (List Decl) :=
  d.actions (dtDeclPush (.name n) [])

/-! ## The types of C -/

/-- The type that C gives the identifier of a declarator, where the specifiers give `t`. -/
def Declarator.cType : Declarator → CType → CType
  | .ident, t => t
  | .paren d, t => d.cType t
  | .array d dnp, t => d.cType (.array dnp.value.toNat t)
  | .ptr d, t => d.cType (.pointer t)

/-- The dimensions, in the order in which they are written. -/
def Declarator.dims : Declarator → List IntValue
  | .ident => []
  | .paren d => d.dims
  | .array d dnp => d.dims ++ [dnp]
  | .ptr d => d.dims

def Declarator.ptrs : Declarator → Nat
  | .ident => 0
  | .paren d => d.ptrs
  | .array d _ => d.ptrs
  | .ptr d => d.ptrs + 1

/-- No array suffix follows a declarator with a pointer in it. -/
def Declarator.ArraysFirst : Declarator → Prop
  | .ident => True
  | .paren d => d.ArraysFirst
  | .array d _ => d.ptrs = 0
  | .ptr d => d.ArraysFirst

/-! ## The stack -/

/-- A list of arrays of pointers, read as a type. -/
def arraysOf (dims : List IntValue) (t : CType) : CType :=
  dims.foldr (fun dnp t => .array dnp.value.toNat t) t

def pointersTo : Nat → CType → CType
  | 0, t => t
  | k + 1, t => pointersTo k (.pointer t)

theorem pointersTo_succ (k : Nat) (t : CType) :
    pointersTo (k + 1) t = .pointer (pointersTo k t) := by
  induction k generalizing t with
  | zero => rfl
  | succ k ih => exact ih (.pointer t)

/-- `Reads stack dims k t`: on top of the stack are the arrays of `dims`, then other entries, which
read as `k` pointers to `t`. -/
structure Reads (stack : List Decl) (dims : List IntValue) (k : Nat) (t : CType) : Prop where
  split : ∃ arrays rest, stack = arrays ++ rest ∧
    arrays.map Decl.kind = dims.map DeclKind.array ∧ (∀ ddp ∈ rest.head?, ddp.isArray = false) ∧
    dtDeclType rest = some (pointersTo k t)
  small : ∀ dnp ∈ dims, dnp.value.toNat < 2 ^ 32

theorem isArray_of_kind {arrays : List Decl} {dims : List IntValue}
    (h : arrays.map Decl.kind = dims.map DeclKind.array) : ∀ ddp ∈ arrays, ddp.isArray = true := by
  intro ddp hddp
  have hmem : ddp.kind ∈ dims.map DeclKind.array := h ▸ mem_map_of_mem hddp
  obtain ⟨_, -, hk⟩ := mem_map.mp hmem
  unfold Decl.isArray
  rw [← hk]

section
variable {stack stack' : List Decl} {dims : List IntValue} {k : Nat} {t : CType}

theorem dtDeclType_arrays {arrays rest : List Decl} (h : arrays.map Decl.kind = dims.map .array)
    (hsmall : ∀ dnp ∈ dims, dnp.value.toNat < 2 ^ 32) (hrest : dtDeclType rest = some t) :
    dtDeclType (arrays ++ rest) = some (arraysOf dims t) := by
  induction arrays generalizing dims with
  | nil =>
    obtain rfl : dims = [] := by simpa using h.symm
    exact hrest
  | cons ddp arrays ih =>
    cases dims with
    | nil => simp at h
    | cons dnp dims =>
      obtain ⟨hk, htail⟩ := cons.inj h
      rw [cons_append, dtDeclType, hk]
      dsimp only
      rw [ih htail fun d hd => hsmall d (mem_cons_of_mem _ hd), Nat.mod_eq_of_lt (hsmall dnp (by simp))]
      rfl

theorem Reads.type (h : Reads stack dims k t) :
    dtDeclType stack = some (arraysOf dims (pointersTo k t)) := by
  obtain ⟨⟨_, _, rfl, hk, -, hrest⟩, hsmall⟩ := h
  exact dtDeclType_arrays hk hsmall hrest

theorem Reads.paren (h : Reads stack [] k t) : Reads (dtDeclParen stack) [] k t := by
  obtain ⟨⟨arrays, rest, rfl, hk, hhead, hrest⟩, hsmall⟩ := h
  obtain rfl : arrays = [] := by simpa using hk
  refine ⟨⟨[], _, rfl, rfl, ?_, ?_⟩, hsmall⟩
  · cases rest with
    | nil => simp
    | cons ddp rest =>
      have := hhead ddp rfl
      simpa [Decl.isArray] using this
  · cases rest with
    | nil => exact hrest
    | cons ddp rest => simpa [dtDeclType] using hrest

theorem Reads.ptr (h : Reads stack [] k t) : Reads (dtDeclPtr stack) [] (k + 1) t := by
  obtain ⟨⟨arrays, _, rfl, hk, -, hrest⟩, hsmall⟩ := h
  obtain rfl : arrays = [] := by simpa using hk
  refine ⟨⟨[], _, rfl, rfl, ?_, ?_⟩, hsmall⟩
  · simp [Decl.isArray]
  · simp [dtDeclType, hrest, pointersTo_succ]

theorem Reads.array {dnp : IntValue} (h : Reads stack dims k t)
    (hok : dtDeclArray dnp stack = .ok stack') : Reads stack' (dims ++ [dnp]) k t := by
  obtain ⟨⟨arrays, rest, rfl, hk, hhead, hrest⟩, hsmall⟩ := h
  have harr := isArray_of_kind hk
  have htake : (arrays ++ rest).takeWhile Decl.isArray = arrays := by
    rw [takeWhile_append_of_pos harr]
    cases rest with
    | nil => simp
    | cons ddp rest =>
      rw [takeWhile_cons_of_neg (by simpa using hhead ddp rfl), append_nil]
  have hdrop : (arrays ++ rest).dropWhile Decl.isArray = rest := by
    rw [dropWhile_append_of_pos harr]
    cases rest with
    | nil => rfl
    | cons ddp rest => rw [dropWhile_cons_of_neg (by simpa using hhead ddp rfl)]
  unfold dtDeclArray at hok
  rw [htake, hdrop] at hok
  dsimp only at hok
  split at hok
  · cases hok
  · split at hok
    · cases hok
    · split at hok
      · cases hok
      · next hbig =>
        obtain rfl := Except.ok.inj hok
        refine ⟨⟨arrays ++ [⟨.array dnp, false⟩], rest, by simp [dtDeclPush], ?_, hhead, hrest⟩, ?_⟩
        · simp [hk]
        · intro d hd
          rcases mem_append.mp hd with hd | hd
          · exact hsmall d hd
          · obtain rfl := mem_singleton.mp hd
            omega

/-- The actions of a declarator, from a stack without arrays on top. -/
theorem Reads.actions {d : Declarator} (h : Reads stack [] k t)
    (hok : d.actions stack = .ok stack') : Reads stack' d.dims (k + d.ptrs) t := by
  induction d generalizing stack stack' k with
  | ident =>
    obtain rfl := Except.ok.inj hok
    exact h
  | paren d ih => exact ih h.paren hok
  | ptr d ih =>
    have hr := ih h.ptr hok
    rwa [show k + 1 + d.ptrs = k + (d.ptrs + 1) by omega] at hr
  | array d dnp ih =>
    rw [Declarator.actions] at hok
    cases hd : d.actions stack with
    | error e =>
      rw [hd] at hok
      cases hok
    | ok s =>
      rw [hd] at hok
      exact (ih h hd).array hok

/-- **The type of a declaration that is accepted**: arrays of pointers, whatever the nesting. -/
theorem declare_type {n : String} {d : Declarator} (hok : declare n d = .ok stack) :
    dtDeclType stack = some (arraysOf d.dims (pointersTo d.ptrs (.name n))) := by
  have h0 : Reads (dtDeclPush (.name n) []) [] 0 (.name n) :=
    ⟨⟨[], _, rfl, rfl, by simp [Decl.isArray], rfl⟩, by simp⟩
  have h := (h0.actions hok).type
  rwa [Nat.zero_add] at h

end

/-! ## Comparison with C -/

section
variable {d : Declarator} {t : CType}

theorem cType_of_ptrs_eq_zero (h : d.ptrs = 0) : d.cType t = arraysOf d.dims t := by
  induction d generalizing t with
  | ident => rfl
  | paren d ih => exact ih h
  | ptr d ih => cases h
  | array d dnp ih =>
    rw [Declarator.cType, ih h, Declarator.dims, arraysOf, arraysOf, foldr_append]
    rfl

theorem cType_of_arraysFirst (h : d.ArraysFirst) :
    d.cType t = arraysOf d.dims (pointersTo d.ptrs t) := by
  induction d generalizing t with
  | ident => rfl
  | paren d ih => exact ih h
  | ptr d ih => exact ih h
  | array d dnp ih =>
    have hz : d.ptrs = 0 := h
    rw [cType_of_ptrs_eq_zero (d := .array d dnp) hz, Declarator.ptrs, hz]
    rfl

/-- There is an array somewhere in the type. -/
def CType.hasArray : CType → Bool
  | .name _ => false
  | .pointer t => t.hasArray
  | .array _ _ => true

/-- There is a pointer in the type, and an array somewhere behind it. -/
def CType.mixed : CType → Bool
  | .name _ => false
  | .pointer t => t.hasArray || t.mixed
  | .array _ t => t.mixed

theorem mixed_arraysOf (dims : List IntValue) (k : Nat) (n : String) :
    (arraysOf dims (pointersTo k (.name n))).mixed = false := by
  have hptrs : (pointersTo k (.name n)).hasArray = false ∧
      (pointersTo k (.name n)).mixed = false := by
    induction k with
    | zero => exact ⟨rfl, rfl⟩
    | succ k ih =>
      rw [pointersTo_succ]
      exact ⟨ih.1, by rw [CType.mixed, ih.1, ih.2]; rfl⟩
  induction dims with
  | nil => exact hptrs.2
  | cons dnp dims ih => exact ih

theorem mixed_cType (h : t.mixed = true) : (d.cType t).mixed = true := by
  induction d generalizing t with
  | ident => exact h
  | paren d ih => exact ih h
  | array d dnp ih => exact ih h
  | ptr d ih => exact ih (by rw [CType.mixed, h, Bool.or_true])

/-- A declarator with a pointer puts it in front of the type it is applied to. -/
theorem mixed_cType_of_ptrs (hp : d.ptrs ≠ 0) (h : t.hasArray = true) :
    (d.cType t).mixed = true := by
  induction d generalizing t with
  | ident => exact absurd rfl hp
  | paren d ih => exact ih hp h
  | array d dnp ih => exact ih hp rfl
  | ptr d ih =>
    show (d.cType (.pointer t)).mixed = true
    exact mixed_cType (by rw [CType.mixed, h, Bool.true_or])

theorem mixed_cType_of_not_arraysFirst (h : ¬ d.ArraysFirst) : (d.cType t).mixed = true := by
  induction d generalizing t with
  | ident => exact absurd trivial h
  | paren d ih => exact ih h
  | array d dnp ih =>
    show (d.cType (.array dnp.value.toNat t)).mixed = true
    exact mixed_cType_of_ptrs h rfl
  | ptr d ih => exact ih h

/-- **Declarators**: a declaration that is accepted has the type of C if and only if no array suffix
follows a declarator with a pointer in it. -/
theorem declare_denotes_iff {n : String} {stack : List Decl} (hok : declare n d = .ok stack) :
    dtDeclType stack = some (d.cType (.name n)) ↔ d.ArraysFirst := by
  rw [declare_type hok]
  constructor
  · intro heq
    by_contra hnot
    have hmixed := mixed_cType_of_not_arraysFirst (t := .name n) hnot
    rw [← Option.some.inj heq, mixed_arraysOf] at hmixed
    cases hmixed
  · intro h
    rw [cType_of_arraysFirst h]

end

/-- A dimension that is an `int` constant. -/
def dim (k : Nat) : IntValue := ⟨BitVec.ofNat 64 k, true⟩

/-- `int *x[3][5]` -/
theorem array_of_array_of_pointers : ∃ stack,
    declare "int" (.ptr (.array (.array .ident (dim 3)) (dim 5))) = .ok stack ∧
      dtDeclType stack = some (.array 3 (.array 5 (.pointer (.name "int")))) :=
  ⟨_, rfl, (declare_denotes_iff (d := .ptr (.array (.array .ident (dim 3)) (dim 5))) rfl).mpr rfl⟩

/-- `int (*x)[3]` is an array of pointers, as `int *x[3]` is. -/
theorem pointer_to_array_lost : ∃ stack,
    declare "int" (.array (.paren (.ptr .ident)) (dim 3)) = .ok stack ∧
      dtDeclType stack = some (.array 3 (.pointer (.name "int"))) ∧
      (Declarator.array (.paren (.ptr .ident)) (dim 3)).cType (.name "int") =
        .pointer (.array 3 (.name "int")) :=
  ⟨_, rfl, rfl, rfl⟩

end DTrace.Parser
