import DTrace.Cg.Tuple

/-!
# What a tuple tells of its keys

Two tuples are the same element of an associative array when their bytes are the same, so the bytes
have to tell the values of the keys and nothing else. Here values are compared with the blocks that
they leave in the tuple.

* `block_eq_iff` says that a block tells the value of an argument that is of the size in the
  signature.
* `confused_of_not_sizeFits` says that it does not for an array or a string of another size, which the
  compiler takes as well: as many bytes are stored as the signature says.
* `sameShape_of_toldApart` says that the tuples of two clauses are only told apart where the blocks
  of both are at the same offsets and strings are opposite strings.
* `tuple_encoding` puts this together: both conditions are exact.
-/

namespace DTrace.Cg

open Bpf List Option Function

variable {env : TupleEnv}

/-! ## Values -/

/-- The value of a key: the bytes of a number in the type that it is stored with, the characters of
a string, or the bytes of what is passed by reference. -/
def value (arg sig : ArgType) (x : Operand) : Option (List Byte) :=
  if arg.size = 0 then some []
  else match arg, sig with
  | .scalar _, .scalar t => some (leBytes t.size x.reg.toNat)
  | .scalar t, _ => some (leBytes t.size x.reg.toNat)
  | .string n, _ => (probeReadStr (n + 1) x.mem).map List.dropLast
  | .byref n, _ => probeRead n x.mem

/-- A string that is stored with its NUL. -/
def ArgType.isString : ArgType → Bool
  | .string n => decide (n ≠ 0)
  | _ => false

/-- As much of the argument is stored as there is. -/
def SizeFits : Arg → Prop
  | (.scalar _, .scalar _) => True
  | (arg, sig) => arg.size = 0 ∨ sig.size = arg.size

/-- From offset `n` on, two clauses put their blocks at the same offsets, and strings opposite
strings. -/
def SameShape : Nat → List Arg → List Arg → Prop
  | _, [], [] => True
  | n, p :: args₁, q :: args₂ =>
    (p.1.size = 0 ↔ q.1.size = 0) ∧ p.1.isString = q.1.isString ∧
      gap p.1 p.2 n = gap q.1 q.2 n ∧ SameShape (n + gap p.1 p.2 n + blockSize p.1 p.2) args₁ args₂
  | _, _, _ => False

/-- Tuples of two clauses are the same bytes exactly when their values are the same. -/
def ToldApart (args₁ args₂ : List Arg) (t₁ t₂ : TupleCode) (tupsz : Nat) : Prop :=
  ∀ slots₁ slots₂ key area₁ area₂ l₁ l₂,
    t₁.tuple ⟨tupsz, slots₁, key⟩ area₁ = some l₁ → t₂.tuple ⟨tupsz, slots₂, key⟩ area₂ = some l₂ →
    (l₁ = l₂ ↔ collect value slots₁ 0 args₁ = collect value slots₂ 0 args₂)

/-- The characters of a string and its NUL. -/
theorem probeReadStr_eq {n : Nat} {mem : Nat → Option Byte} {l : List Byte}
    (h : probeReadStr (n + 1) mem = some l) :
    ∃ v, l = v ++ [0] ∧ v.length ≤ n ∧ ∀ b ∈ v, b ≠ 0 := by
  induction n generalizing mem l with
  | zero =>
    obtain ⟨_, -, rfl⟩ := map_eq_some_iff.mp h
    exact ⟨[], rfl, le_rfl, nofun⟩
  | succ n ih =>
    simp only [probeReadStr, bind_eq_some_iff] at h
    obtain ⟨b, -, h⟩ := h
    split at h
    · obtain rfl := some.inj h
      exact ⟨[], rfl, Nat.zero_le _, nofun⟩
    · next hb =>
      obtain ⟨_, hl', rfl⟩ := map_eq_some_iff.mp h
      obtain ⟨v, rfl, hlen, hne⟩ := ih hl'
      exact ⟨b :: v, rfl, Nat.succ_le_succ hlen, forall_mem_cons.mpr ⟨hb, hne⟩⟩

theorem takeWhile_append_zeros {v : List Byte} (hv : ∀ b ∈ v, b ≠ 0) (n : Nat) :
    (v ++ [0] ++ List.replicate n 0).takeWhile (· ≠ 0) = v := by
  rw [append_assoc, takeWhile_append_of_pos (by simpa using hv)]
  simp

theorem leBytes_castValue (src dst : IntType) (v : BitVec 64) :
    leBytes dst.size (castValue src dst v).toNat = leBytes dst.size v.toNat := by
  rw [leBytes_inj, show 256 ^ dst.size = 2 ^ (dst.size * 8) by rw [Nat.mul_comm, Nat.pow_mul]]
  exact toNat_castValue_mod src dst v

/-- The block of a string is its characters and zeros. -/
theorem block_string {n : Nat} {sig : ArgType} {x : Operand} {b : List Byte} (h0 : n ≠ 0)
    (hsig : sig.size = n) (hb : block (.string n) sig x = some b) :
    ∃ v k, value (.string n) sig x = some v ∧ (∀ c ∈ v, c ≠ 0) ∧
      b = v ++ [0] ++ List.replicate k 0 := by
  rw [block, if_neg (show ¬(ArgType.string n).size = 0 from h0), hsig] at hb
  obtain ⟨l, hl, rfl⟩ := map_eq_some_iff.mp hb
  obtain ⟨v, rfl, -, hne⟩ := probeReadStr_eq hl
  refine ⟨v, _, ?_, hne, rfl⟩
  rw [value, if_neg (show ¬(ArgType.string n).size = 0 from h0)]
  rw [show probeReadStr (n + 1) x.mem = some (v ++ [0]) from hl, map_some,
    dropLast_concat]

theorem isString_iff {arg : ArgType} : arg.isString = true ↔ ∃ n ≠ 0, arg = .string n := by
  cases arg with
  | string n => simp [ArgType.isString]
  | _ => simp [ArgType.isString]

theorem SizeFits.string {n : Nat} {sig : ArgType} (h0 : n ≠ 0) (h : SizeFits (.string n, sig)) :
    sig.size = n := by
  cases sig <;> exact Or.resolve_left h h0

variable {p : Arg} {i : Nat} {bs cs : List (List Byte)} {args : List Arg} {slots : Nat → Operand}
  {diftupregs : Nat} {sig : ArgType}

/-- Everything else is stored as it is. -/
theorem block_eq_value (hp : SizeFits p) (hstr : p.1.isString = false) (x : Operand) :
    block p.1 p.2 x = value p.1 p.2 x := by
  obtain ⟨arg, sig⟩ := p
  unfold block value
  by_cases h0 : arg.size = 0
  · rw [if_pos h0, if_pos h0]
  rw [if_neg h0, if_neg h0]
  cases arg with
  | scalar s =>
    cases sig with
    | scalar t => exact congrArg some (leBytes_castValue s t x.reg)
    | string n | byref n =>
      have hsize : n = s.size := Or.resolve_left hp h0
      exact congrArg (fun k => some (leBytes k x.reg.toNat)) hsize
  | string n =>
    have h0 : n ≠ 0 := h0
    exact absurd hstr (by simpa [ArgType.isString] using h0)
  | byref n =>
    have hsize : sig.size = n := by cases sig <;> exact Or.resolve_left hp h0
    rw [hsize]

/-- **The blocks of a key are the same exactly when its values are.** -/
theorem block_eq_iff {q : Arg} (hp : SizeFits p) (hq : SizeFits q) (hsig : p.2 = q.2)
    (hstr : p.1.isString = q.1.isString) {x y : Operand} {b c : List Byte}
    (hb : block p.1 p.2 x = some b) (hc : block q.1 q.2 y = some c) :
    ∃ v w, value p.1 p.2 x = some v ∧ value q.1 q.2 y = some w ∧ (b = c ↔ v = w) := by
  cases hs : p.1.isString with
  | true =>
    obtain ⟨arg, sig⟩ := p
    obtain ⟨arg', sig'⟩ := q
    obtain rfl : sig = sig' := hsig
    obtain ⟨n, h0, rfl⟩ := isString_iff.mp hs
    obtain ⟨m, h0', rfl⟩ := isString_iff.mp (hstr.symm.trans hs)
    obtain ⟨v, k, hv, hne, rfl⟩ := block_string h0 (hp.string h0) hb
    obtain ⟨w, k', hw, hne', rfl⟩ := block_string h0' (hq.string h0') hc
    refine ⟨v, w, hv, hw, ?_, ?_⟩
    · intro heq
      rw [← takeWhile_append_zeros hne k, heq, takeWhile_append_zeros hne' k']
    · -- the blocks are of the same length
      rintro rfl
      have hlen : _ = sig.size + 1 := (length_block hb).trans (if_neg h0)
      have hlen' : _ = sig.size + 1 := (length_block hc).trans (if_neg h0')
      simp only [length_append, length_replicate] at hlen hlen'
      rw [show k = k' by omega]
  | false =>
    rw [block_eq_value hp hs] at hb
    rw [block_eq_value hq (hstr.symm.trans hs)] at hc
    exact ⟨b, c, hb, hc, Iff.rfl⟩

theorem value_isSome (hp : SizeFits p) {x : Operand} {v : List Byte}
    (hv : value p.1 p.2 x = some v) : ∃ b, block p.1 p.2 x = some b := by
  cases hs : p.1.isString with
  | true =>
    obtain ⟨arg, sig⟩ := p
    obtain ⟨n, h0, rfl⟩ := isString_iff.mp hs
    rw [value, if_neg (show ¬(ArgType.string n).size = 0 from h0)] at hv
    obtain ⟨l, hl, -⟩ := map_eq_some_iff.mp hv
    refine ⟨l ++ List.replicate (n + 1 - l.length) 0, ?_⟩
    rw [block, if_neg (show ¬(ArgType.string n).size = 0 from h0), hp.string h0]
    exact map_eq_some_iff.mpr ⟨l, hl, rfl⟩
  | false => exact ⟨v, (block_eq_value hp hs x).trans hv⟩

/-! ## Tuples of one signature -/

theorem SameShape.refl (n : Nat) (args : List Arg) : SameShape n args args := by
  induction args generalizing n with
  | nil => trivial
  | cons p args ih => exact ⟨Iff.rfl, rfl, rfl, ih _⟩

theorem collect_eq_iff {args1 args2 : List Arg} {slots1 slots2 : Nat → Operand} {n : Nat}
    (h1 : ∀ p ∈ args1, SizeFits p) (h2 : ∀ p ∈ args2, SizeFits p) (hshape : SameShape n args1 args2)
    (hsig : args1.map Prod.snd = args2.map Prod.snd)
    (hbs : collect block slots1 i args1 = some bs) (hcs : collect block slots2 i args2 = some cs) :
    ∃ vs ws, collect value slots1 i args1 = some vs ∧ collect value slots2 i args2 = some ws ∧
      (bs = cs ↔ vs = ws) := by
  induction args1 generalizing args2 i n bs cs with
  | nil =>
    obtain rfl := map_eq_nil_iff.mp hsig.symm
    cases hbs
    cases hcs
    exact ⟨[], [], rfl, rfl, Iff.rfl⟩
  | cons p args1 ih =>
    obtain ⟨q, args2, rfl, hsnd, hsig⟩ := map_eq_cons_iff.mp hsig.symm
    obtain ⟨-, hstr, -, hshape⟩ := hshape
    simp only [collect, bind_eq_some_iff, map_eq_some_iff] at hbs hcs
    obtain ⟨b, hb, bs, hbs, rfl⟩ := hbs
    obtain ⟨c, hc, cs, hcs, rfl⟩ := hcs
    obtain ⟨v, w, hv, hw, hiff⟩ := block_eq_iff (h1 p mem_cons_self)
      (h2 q mem_cons_self) hsnd.symm hstr hb hc
    obtain ⟨vs, ws, hvs, hws, hiffs⟩ := ih (fun p hp => h1 p (mem_cons_of_mem _ hp))
      (fun p hp => h2 p (mem_cons_of_mem _ hp)) hshape hsig.symm hbs hcs
    refine ⟨v :: vs, w :: ws, ?_, ?_, ?_⟩
    · rw [collect, hv, hvs]
      rfl
    · rw [collect, hw, hws]
      rfl
    · rw [cons_eq_cons, cons_eq_cons, hiff, hiffs]

/-- How long a block is goes by the signature and the shape. -/
theorem blockSize_eq {p : Arg} : blockSize p.1 p.2 =
    if p.1.size = 0 then 0 else p.2.size + if p.1.isString then 1 else 0 := by
  obtain ⟨arg, sig⟩ := p
  unfold blockSize
  split
  · rfl
  · next h0 =>
    cases arg with
    | string n =>
      have h0 : n ≠ 0 := h0
      simp [ArgType.isString, h0]
    | _ => rfl

theorem blockSize_congr {p q : Arg} (hsig : p.2 = q.2) (h0 : p.1.size = 0 ↔ q.1.size = 0)
    (hstr : p.1.isString = q.1.isString) : blockSize p.1 p.2 = blockSize q.1 q.2 := by
  rw [blockSize_eq, blockSize_eq, hsig, hstr]
  exact if_congr h0 rfl rfl

theorem SameShape.layout_eq {args1 args2 : List Arg} {n : Nat} (h : SameShape n args1 args2)
    (hsig : args1.map Prod.snd = args2.map Prod.snd) (bs : List (List Byte)) :
    layout n args1 bs = layout n args2 bs := by
  induction args1 generalizing args2 n bs with
  | nil =>
    obtain rfl := map_eq_nil_iff.mp hsig.symm
    rfl
  | cons p args1 ih =>
    obtain ⟨q, args2, rfl, hsnd, hsig⟩ := map_eq_cons_iff.mp hsig.symm
    obtain ⟨h0, hstr, hgap, hshape⟩ := h
    cases bs with
    | nil => rfl
    | cons b bs =>
      rw [layout, layout, ih hshape hsig.symm, hgap, blockSize_congr hsnd.symm h0 hstr]

/-- The blocks are of the sizes of the arguments. -/
def Sized (args : List Arg) (bs : List (List Byte)) : Prop :=
  List.Forall₂ (fun p b => b.length = blockSize p.1 p.2) args bs

theorem sized_collect (h : collect block slots i args = some bs) : Sized args bs := by
  induction args generalizing i bs with
  | nil =>
    cases h
    exact .nil
  | cons p args ih =>
    simp only [collect, bind_eq_some_iff, map_eq_some_iff] at h
    obtain ⟨b, hb, bs, hbs, rfl⟩ := h
    exact .cons (length_block hb) (ih hbs)

theorem Sized.congr {args1 args2 : List Arg} {n : Nat} (hcs : Sized args2 cs)
    (h : SameShape n args1 args2) (hsig : args1.map Prod.snd = args2.map Prod.snd) :
    Sized args1 cs := by
  induction args1 generalizing args2 n cs with
  | nil =>
    obtain rfl := map_eq_nil_iff.mp hsig.symm
    exact hcs
  | cons p args1 ih =>
    obtain ⟨q, args2, rfl, hsnd, hsig⟩ := map_eq_cons_iff.mp hsig.symm
    obtain ⟨h0, hstr, -, hshape⟩ := h
    cases hcs with
    | cons hc hcs =>
      exact .cons (hc.trans (blockSize_congr hsnd.symm h0 hstr).symm) (ih hcs hshape hsig.symm)

theorem layout_inj (hbs : Sized args bs) (hcs : Sized args cs) (n : Nat) :
    layout n args bs = layout n args cs ↔ bs = cs := by
  induction args generalizing bs cs n with
  | nil =>
    cases hbs
    cases hcs
    exact iff_of_true rfl rfl
  | cons p args ih =>
    cases hbs with
    | cons hb hbs =>
      cases hcs with
      | cons hc hcs =>
        rw [layout, layout, cons_eq_cons, ← ih hbs hcs (n + gap p.1 p.2 n + blockSize p.1 p.2),
          append_assoc, append_assoc, append_right_inj]
        constructor
        · exact fun heq => append_inj heq (hb.trans hc.symm)
        · rintro ⟨rfl, heq⟩
          rw [heq]

theorem encode_inj {key : BitVec 64} (hbs : Sized args bs) (hcs : Sized args cs) :
    encode key args bs = encode key args cs ↔ bs = cs := by
  rw [encode, encode, append_left_inj, append_right_inj, layout_inj hbs hcs]

/-- **Tuples of one signature are told apart by their bytes**, and equal ones are not, where the
arguments are of the right sizes and the tuples of one shape. -/
theorem toldApart_of_sameShape {max1 max2 tupsz : Nat} {args1 args2 : List Arg} {t1 t2 : TupleCode}
    (ht1 : dtCgArglist diftupregs args1 max1 = some t1)
    (ht2 : dtCgArglist diftupregs args2 max2 = some t2) (hmax1 : t1.maxtuplesize ≤ tupsz)
    (hmax2 : t2.maxtuplesize ≤ tupsz) (hsig : args1.map Prod.snd = args2.map Prod.snd)
    (h1 : ∀ p ∈ args1, SizeFits p) (h2 : ∀ p ∈ args2, SizeFits p)
    (hshape : SameShape 4 args1 args2) : ToldApart args1 args2 t1 t2 tupsz := by
  intro slots1 slots2 key area1 area2 l1 l2 hl1 hl2
  rw [tuple_eq ht1 hmax1] at hl1
  rw [tuple_eq ht2 hmax2] at hl2
  obtain ⟨_, hbs, rfl⟩ := Option.map_eq_some_iff.mp hl1
  obtain ⟨_, hcs, rfl⟩ := Option.map_eq_some_iff.mp hl2
  obtain ⟨_, _, hvs, hws, hiff⟩ := collect_eq_iff h1 h2 hshape hsig hbs hcs
  have hinj : encode key args1 _ = encode key args1 _ ↔ _ :=
    encode_inj (sized_collect hbs) ((sized_collect hcs).congr hshape hsig)
  rw [hvs, hws, some_inj, ← hiff, ← hinj]
  simp only [encode, hshape.layout_eq hsig]

/-! ## Arguments of another size

If the size in the signature is another one, there are two values with the same bytes, or one value
with two byte strings, for a single argument already. -/

def zeroOperand : Operand := ⟨0, fun _ => some 0⟩

theorem probeRead_some (n : Nat) (f : Nat → Byte) :
    probeRead n (fun a => some (f a)) = some ((List.range n).map f) := by
  induction n generalizing f with
  | zero => rfl
  | succ n ih =>
    rw [probeRead, ih, range_succ_eq_map, map_cons, List.map_map]
    rfl

/-- A string of `k` characters. -/
def ones (k : Nat) : Nat → Option Byte := fun a => some (if a < k then 1 else 0)

theorem probeReadStr_ones (n k : Nat) :
    probeReadStr (n + 1) (ones k) = some (List.replicate (min n k) 1 ++ [0]) := by
  induction n generalizing k with
  | zero => rfl
  | succ n ih =>
    cases k with
    | zero => rfl
    | succ k =>
      have hshift : (fun a => ones (k + 1) (a + 1)) = ones k := by
        funext a
        simp only [ones, Nat.add_lt_add_iff_right]
      rw [probeReadStr, hshift, ih, Nat.succ_min_succ]
      rfl

/-- A number that differs from zero in byte `j` only. -/
theorem leBytes_pow_eq_iff (n j : Nat) : leBytes n (256 ^ j) = leBytes n 0 ↔ n ≤ j := by
  rw [leBytes_inj]
  constructor
  · intro h
    exact (Nat.pow_dvd_pow_iff_le_right (by decide)).mp (Nat.dvd_of_mod_eq_zero h)
  · exact fun h => Nat.mod_eq_zero_of_dvd (Nat.pow_dvd_pow 256 h)

/-- One byte that is not zero, at `j`. -/
def oneAt (j : Nat) : Nat → Byte := fun a => if a = j then 1 else 0

theorem map_oneAt_eq_iff (n j : Nat) :
    (List.range n).map (oneAt j) = (List.range n).map (fun _ => 0) ↔ n ≤ j := by
  rw [map_inj_left]
  constructor
  · intro h
    by_contra hlt
    have hj := h j (mem_range.mpr (by omega))
    rw [oneAt, if_pos rfl] at hj
    exact absurd hj (by decide)
  · intro hle a ha
    rw [mem_range] at ha
    exact if_neg (by omega)

theorem replicate_ones_eq_iff (n j k k' : Nat) :
    List.replicate (min n (j + 1)) (1 : Byte) ++ [0] ++ List.replicate k 0 =
      List.replicate (min n j) 1 ++ [0] ++ List.replicate k' 0 → n ≤ j := by
  have hones : ∀ m, ∀ b ∈ List.replicate m (1 : Byte), b ≠ 0 := by
    intro m b hb
    rw [(mem_replicate.mp hb).2]
    decide
  intro h
  have hlist := congrArg (List.takeWhile (· ≠ 0)) h
  rw [takeWhile_append_zeros (hones _), takeWhile_append_zeros (hones _)] at hlist
  have hlen := congrArg List.length hlist
  rw [length_replicate, length_replicate] at hlen
  omega

/-- Of two operands, either only the blocks are the same or only the values are. -/
def Confused (p : Arg) : Prop :=
  ∃ x y b c v w, block p.1 p.2 x = some b ∧ block p.1 p.2 y = some c ∧
    value p.1 p.2 x = some v ∧ value p.1 p.2 y = some w ∧ ¬(b = c ↔ v = w)

theorem confused_scalar {s : IntType} (hsig : ∀ t, sig ≠ .scalar t) (h8 : sig.size ≤ 8)
    (hne : sig.size ≠ s.size) : Confused (.scalar s, sig) := by
  have h0 : ¬(ArgType.scalar s).size = 0 := s.width.bytes_pos.ne'
  have hs8 : s.size ≤ 8 := s.width.bytes_le
  -- the first byte that only one of them has
  have hnot : ¬(sig.size ≤ min sig.size s.size ↔ s.size ≤ min sig.size s.size) := by omega
  have hreg : (BitVec.ofNat 64 (256 ^ min sig.size s.size)).toNat = 256 ^ min sig.size s.size := by
    have hle : 256 ^ min sig.size s.size ≤ 256 ^ 7 := Nat.pow_le_pow_right (by decide) (by omega)
    rw [BitVec.toNat_ofNat, Nat.mod_eq_of_lt (lt_of_le_of_lt hle (by decide))]
  have hblock : ∀ x, block (.scalar s) sig x = some (leBytes sig.size x.reg.toNat) := by
    intro x
    rw [block, if_neg h0]
    cases sig with
    | scalar t => exact absurd rfl (hsig t)
    | string n => rfl
    | byref n => rfl
  have hvalue : ∀ x, value (.scalar s) sig x = some (leBytes s.size x.reg.toNat) := by
    intro x
    rw [value, if_neg h0]
    exact hsig
  refine ⟨⟨BitVec.ofNat 64 (256 ^ min sig.size s.size), fun _ => none⟩, ⟨0, fun _ => none⟩,
    _, _, _, _, hblock _, hblock _, hvalue _, hvalue _, ?_⟩
  rw [hreg, show (0 : BitVec 64).toNat = 0 from rfl, leBytes_pow_eq_iff, leBytes_pow_eq_iff]
  exact hnot

theorem confused_string {k : Nat} (h0 : k ≠ 0) (hne : sig.size ≠ k) :
    Confused (.string k, sig) := by
  have h0 : ¬(ArgType.string k).size = 0 := h0
  have hblock : ∀ j, block (.string k) sig ⟨0, ones j⟩ = some (List.replicate (min sig.size j) 1 ++
      [0] ++ List.replicate (sig.size - min sig.size j) 0) := by
    intro j
    rw [block, if_neg h0, probeReadStr_ones, map_some, length_append, length_replicate]
    simp only [length_cons, length_nil, Nat.add_sub_add_right]
  have hvalue : ∀ j, value (.string k) sig ⟨0, ones j⟩ = some (List.replicate (min k j) 1) := by
    intro j
    rw [value, if_neg h0, probeReadStr_ones, map_some, dropLast_concat]
  refine ⟨⟨0, ones (min sig.size k + 1)⟩, ⟨0, ones (min sig.size k)⟩, _, _, _, _,
    hblock _, hblock _, hvalue _, hvalue _, fun hiff => ?_⟩
  rcases Nat.lt_or_gt_of_ne hne with hlt | hgt
  · have hlen := congrArg List.length (hiff.mp (by
      rw [Nat.min_eq_left (by omega), Nat.min_eq_left (by omega)]))
    simp only [length_replicate] at hlen
    omega
  · have hle := replicate_ones_eq_iff _ _ _ _ (hiff.mpr (by
      rw [Nat.min_eq_left (by omega), Nat.min_eq_left (by omega)]))
    omega

theorem confused_byref {k : Nat} (h0 : k ≠ 0) (hne : sig.size ≠ k) : Confused (.byref k, sig) := by
  have h0 : ¬(ArgType.byref k).size = 0 := h0
  have hnot : ¬(sig.size ≤ min sig.size k ↔ k ≤ min sig.size k) := by omega
  have hblock : ∀ f : Nat → Byte, block (.byref k) sig ⟨0, fun a => some (f a)⟩ =
      some ((List.range sig.size).map f) := by
    intro f
    rw [block, if_neg h0]
    exact probeRead_some _ _
  have hvalue : ∀ f : Nat → Byte, value (.byref k) sig ⟨0, fun a => some (f a)⟩ =
      some ((List.range k).map f) := by
    intro f
    rw [value, if_neg h0]
    exact probeRead_some _ _
  refine ⟨⟨0, fun a => some (oneAt (min sig.size k) a)⟩, ⟨0, fun a => some 0⟩, _, _, _, _,
    hblock _, hblock _, hvalue _, hvalue _, ?_⟩
  rw [map_oneAt_eq_iff, map_oneAt_eq_iff]
  exact hnot

/-- **What is stored is not the value of an argument of another size.** -/
theorem confused_of_not_sizeFits (hp : ¬SizeFits p) (h8 : ∀ s, p.1 = .scalar s → p.2.size ≤ 8) :
    Confused p := by
  obtain ⟨arg, sig⟩ := p
  cases arg with
  | scalar s =>
    have hsig : ∀ t, sig ≠ .scalar t := by
      rintro t rfl
      exact hp trivial
    refine confused_scalar hsig (h8 s rfl) fun heq => hp ?_
    cases sig with
    | scalar t => trivial
    | string n => exact .inr heq
    | byref n => exact .inr heq
  | string k => exact confused_string (fun h => hp (.inl h)) fun h => hp (.inr h)
  | byref k => exact confused_byref (fun h => hp (.inl h)) fun h => hp (.inr h)

/-! ## One argument among others

The rest of the tuple is filled with zeroes; then the bytes differ only where the one argument is.
-/

theorem collect_append (f : ArgType → ArgType → Operand → Option (List Byte))
    (slots : Nat → Operand) (i : Nat) (pre post : List Arg) :
    collect f slots i (pre ++ post) = (collect f slots i pre).bind fun bs =>
      (collect f slots (i + pre.length) post).map (bs ++ ·) := by
  induction pre generalizing i with
  | nil => simp [collect]
  | cons p pre ih =>
    obtain ⟨arg, sig⟩ := p
    rw [cons_append, collect, collect, ih, show i + 1 + pre.length = i + (pre.length + 1) by omega]
    cases f arg sig (slots i) with
    | none => rfl
    | some b =>
      cases collect f slots (i + 1) pre with
      | none => rfl
      | some bs => simp [comp_def]

theorem collect_congr (f : ArgType → ArgType → Operand → Option (List Byte))
    {slots' : Nat → Operand} (h : ∀ j, i ≤ j → j < i + args.length → slots j = slots' j) :
    collect f slots i args = collect f slots' i args := by
  induction args generalizing i with
  | nil => rfl
  | cons p args ih =>
    rw [length_cons] at h
    rw [collect, collect, h i (le_refl i) (by omega),
      ih fun j hj hlt => h j (by omega) (by omega)]

/-- Where all other slots are the same, all that is told apart is the argument. -/
theorem collect_update {f : ArgType → ArgType → Operand → Option (List Byte)}
    (hf : ∀ arg sig, ∃ b, f arg sig zeroOperand = some b) (pre post : List Arg) (p : Arg) :
    ∃ bs cs, ∀ x b, f p.1 p.2 x = some b →
      collect f (update (fun _ => zeroOperand) pre.length x) 0 (pre ++ p :: post) =
        some (bs ++ b :: cs) := by
  have hall : ∀ i args, ∃ bs, collect f (fun _ => zeroOperand) i args = some bs := by
    intro i args
    induction args generalizing i with
    | nil => exact ⟨[], rfl⟩
    | cons q args ih =>
      obtain ⟨b, hb⟩ := hf q.1 q.2
      obtain ⟨bs, hbs⟩ := ih (i + 1)
      refine ⟨b :: bs, ?_⟩
      rw [collect, hb, hbs]
      rfl
  obtain ⟨bs, hbs⟩ := hall 0 pre
  obtain ⟨cs, hcs⟩ := hall (pre.length + 1) post
  refine ⟨bs, cs, fun x b hb => ?_⟩
  have hpre : collect f (update (fun _ => zeroOperand) pre.length x) 0 pre = some bs :=
    (collect_congr f fun j _ hj => update_of_ne (by omega) _ _).trans hbs
  have hpost : collect f (update (fun _ => zeroOperand) pre.length x) (pre.length + 1) post =
      some cs :=
    (collect_congr f fun j hj _ => update_of_ne (by omega) _ _).trans hcs
  rw [collect_append, hpre, Nat.zero_add, collect, update_self, hb, hpost]
  rfl

theorem leBytes_zero (k : Nat) : leBytes k 0 = List.replicate k 0 := by
  induction k with
  | zero => rfl
  | succ k ih =>
    rw [replicate_succ, ← ih]
    rfl

theorem block_zeroOperand (arg sig : ArgType) :
    block arg sig zeroOperand = some (List.replicate (blockSize arg sig) 0) := by
  unfold block blockSize
  split
  · rfl
  · cases arg with
    | scalar s =>
      refine congrArg some (Eq.trans ?_ (leBytes_zero sig.size))
      cases sig with
      | scalar t => exact leBytes_castValue s t 0
      | _ => rfl
    | string n =>
      exact (congrArg (Option.map _) (probeReadStr_ones sig.size 0)).trans (by simp; rfl)
    | byref n => exact (probeRead_some sig.size fun _ => 0).trans (by simp)

theorem value_zeroOperand (arg sig : ArgType) : ∃ v, value arg sig zeroOperand = some v := by
  unfold value
  split
  · exact ⟨[], rfl⟩
  · cases arg with
    | scalar t => cases sig <;> exact ⟨_, rfl⟩
    | string n => exact ⟨_, congrArg (Option.map _) (probeReadStr_ones n 0)⟩
    | byref n => exact ⟨_, probeRead_some n fun _ => 0⟩

/-- The store instructions have sizes up to 8. -/
theorem size_le_of_dtCgArgs {tuplesize n : Nat} {code : List TupleOp}
    (hcode : dtCgArgs i args tuplesize = some (code, n)) :
    ∀ p ∈ args, ∀ s, p.1 = .scalar s → p.2.size ≤ 8 := by
  induction args generalizing i tuplesize code with
  | nil => exact fun p hp => absurd hp not_mem_nil
  | cons q args ih =>
    simp only [dtCgArgs, bind_eq_some_iff, map_eq_some_iff] at hcode
    obtain ⟨⟨_, _⟩, hcode1, ⟨_, _⟩, hcode2, heq⟩ := hcode
    cases heq
    intro p hp s hs
    obtain rfl | hp := mem_cons.mp hp
    · have h0 : ¬(ArgType.scalar s).size = 0 := s.width.bytes_pos.ne'
      rw [dtCgArg, hs, if_neg h0] at hcode1
      obtain ⟨width, hwidth, -⟩ := map_eq_some_iff.mp hcode1
      rw [← bytes_of_ldstSize hwidth]
      exact width.bytes_le
    · exact ih hcode2 p hp s hs

theorem sizeFits_of_toldApart {maxtuplesize tupsz : Nat} {t : TupleCode}
    (ht : dtCgArglist diftupregs args maxtuplesize = some t) (hmax : t.maxtuplesize ≤ tupsz)
    (h : ToldApart args args t t tupsz) : ∀ p ∈ args, SizeFits p := by
  intro p hp
  by_contra hfits
  have h8 : ∀ s, p.1 = .scalar s → p.2.size ≤ 8 := by
    unfold dtCgArglist at ht
    split at ht
    · cases ht
    · obtain ⟨⟨_, n⟩, hcode, -⟩ := map_eq_some_iff.mp ht
      exact size_le_of_dtCgArgs hcode p hp
  obtain ⟨x, y, b, c, v, w, hb, hc, hv, hw, hnot⟩ := confused_of_not_sizeFits hfits h8
  obtain ⟨pre, post, rfl⟩ := append_of_mem hp
  obtain ⟨_, _, hblocks⟩ := collect_update
    (fun arg sig => ⟨_, block_zeroOperand arg sig⟩) pre post p
  obtain ⟨_, _, hvalues⟩ := collect_update value_zeroOperand pre post p
  have hiff := h (update (fun _ => zeroOperand) pre.length x)
    (update (fun _ => zeroOperand) pre.length y) 0 (fun _ => 0) (fun _ => 0) _ _
    ((tuple_eq ht hmax _).trans (congrArg _ (hblocks x b hb)))
    ((tuple_eq ht hmax _).trans (congrArg _ (hblocks y c hc)))
  rw [encode_inj (sized_collect (hblocks x b hb)) (sized_collect (hblocks y c hc)),
    hvalues x v hv, hvalues y w hw] at hiff
  exact hnot (by simpa using hiff)

/-! ## Tuples of another shape

Two tuples are enough to see the shapes: all keys zero, and all bytes of all keys one. -/

/-- All bytes are one, and all strings as long as they can be. -/
def onesOperand : Operand := ⟨0x0101010101010101, fun _ => some 1⟩

theorem leBytes_ones {k : Nat} (hk : k ≤ 8) :
    leBytes k (0x0101010101010101 : BitVec 64).toNat = List.replicate k 1 := by
  revert k
  decide

theorem probeReadStr_all_ones (n : Nat) :
    probeReadStr (n + 1) (fun _ => some 1) = some (List.replicate n 1 ++ [0]) := by
  induction n with
  | zero => rfl
  | succ n ih =>
    rw [probeReadStr, ih]
    rfl

theorem value_onesOperand (hp : SizeFits p) : value p.1 p.2 onesOperand =
    some (if p.1.size = 0 then [] else List.replicate p.2.size 1) := by
  obtain ⟨arg, sig⟩ := p
  unfold value
  split
  · rfl
  · next h0 =>
    cases arg with
    | scalar s =>
      cases sig with
      | scalar t => exact congrArg some (leBytes_ones t.width.bytes_le)
      | string n | byref n =>
        have hsize : n = s.size := Or.resolve_left hp h0
        exact congrArg some ((leBytes_ones s.width.bytes_le).trans (by rw [hsize]; rfl))
    | string n =>
      dsimp only
      rw [onesOperand, probeReadStr_all_ones, map_some, dropLast_concat, hp.string h0]
      rfl
    | byref n =>
      have hsize : sig.size = n := by cases sig <;> exact Or.resolve_left hp h0
      rw [hsize]
      exact (probeRead_some n fun _ => 1).trans (by rw [map_const', length_range])

theorem block_onesOperand (hp : SizeFits p) : block p.1 p.2 onesOperand =
    some (if p.1.size = 0 then []
      else List.replicate p.2.size 1 ++ if p.1.isString then [0] else []) := by
  cases hs : p.1.isString with
  | true =>
    obtain ⟨arg, sig⟩ := p
    obtain ⟨n, h0, rfl⟩ := isString_iff.mp hs
    have h0 : ¬(ArgType.string n).size = 0 := h0
    rw [block, if_neg h0, if_neg h0, onesOperand, probeReadStr_all_ones, map_some, length_append,
      length_replicate, length_singleton, Nat.sub_self]
    simp
  | false =>
    rw [block_eq_value hp hs, value_onesOperand hp]
    simp

/-- Where the tuples of ones are the same bytes, the blocks are at the same offsets. -/
theorem gap_eq_of_layout_ones {g g' m : Nat} (hm : m ≠ 0) {l l' : List Byte}
    (h : List.replicate g 0 ++ (List.replicate m 1 ++ l) =
      List.replicate g' 0 ++ (List.replicate m 1 ++ l')) : g = g' := by
  obtain ⟨m, rfl⟩ := Nat.exists_eq_succ_of_ne_zero hm
  have htake : ∀ (g : Nat) (l : List Byte), ((List.replicate g 0 ++
      (List.replicate (m + 1) 1 ++ l)).takeWhile (· = 0)).length = g := by
    intro g l
    rw [takeWhile_append_of_pos (by simp), replicate_succ, cons_append]
    simp
  rw [← htake g l, h, htake]

theorem SizeFits.size_ne (hp : SizeFits p) (h0 : p.1.size ≠ 0) : p.2.size ≠ 0 := by
  obtain ⟨arg, sig⟩ := p
  have hor : arg.size = 0 ∨ sig.size = arg.size → sig.size ≠ 0 := by
    rintro (h | h)
    · exact absurd h h0
    · rwa [h]
  cases sig with
  | scalar t => exact t.width.bytes_pos.ne'
  | string n | byref n => cases arg <;> exact hor hp

theorem collect_const {f : ArgType → ArgType → Operand → Option (List Byte)} {x : Operand}
    {g : Arg → List Byte} (h : ∀ p ∈ args, f p.1 p.2 x = some (g p)) :
    collect f (fun _ => x) i args = some (args.map g) := by
  induction args generalizing i with
  | nil => rfl
  | cons p args ih =>
    rw [collect, h p mem_cons_self, ih fun p hp => h p (mem_cons_of_mem _ hp)]
    rfl

/-- The value of a string of no characters has no bytes. -/
def zeroValue (p : Arg) : List Byte :=
  if p.1.size = 0 ∨ p.1.isString then [] else List.replicate p.2.size 0

theorem value_zeroOperand_eq (hp : SizeFits p) :
    value p.1 p.2 zeroOperand = some (zeroValue p) := by
  unfold zeroValue
  cases hs : p.1.isString with
  | true =>
    obtain ⟨arg, sig⟩ := p
    obtain ⟨n, h0, rfl⟩ := isString_iff.mp hs
    rw [value, if_neg (show ¬(ArgType.string n).size = 0 from h0), if_pos (.inr rfl)]
    have hread : probeReadStr (n + 1) zeroOperand.mem = some [0] := by
      have hones := probeReadStr_ones n 0
      rwa [Nat.min_zero] at hones
    rw [hread]
    rfl
  | false =>
    rw [← block_eq_value hp hs, block_zeroOperand, blockSize_eq, hs]
    by_cases h0 : p.1.size = 0 <;> simp [h0]

/-- The block of ones. -/
def onesBlock (p : Arg) : List Byte :=
  if p.1.size = 0 then [] else List.replicate p.2.size 1 ++ if p.1.isString then [0] else []

/-- Both arguments are stored, or none; and both as strings, or none. -/
def Alike (p q : Arg) : Prop := (p.1.size = 0 ↔ q.1.size = 0) ∧ p.1.isString = q.1.isString

theorem sameShape_of_layout {args1 args2 : List Arg} {n : Nat}
    (hsig : args1.map Prod.snd = args2.map Prod.snd) (h1 : ∀ p ∈ args1, SizeFits p)
    (halike : List.Forall₂ Alike args1 args2)
    (h : layout n args1 (args1.map onesBlock) = layout n args2 (args2.map onesBlock)) :
    SameShape n args1 args2 := by
  induction halike generalizing n with
  | nil => trivial
  | @cons p q args1 args2 hpq _ ih =>
    obtain ⟨h0, hstr⟩ := hpq
    obtain ⟨hsnd, hsig⟩ := cons_eq_cons.mp hsig
    have hones : onesBlock p = onesBlock q := by
      unfold onesBlock
      rw [hstr, show p.2 = q.2 from hsnd]
      exact if_congr h0 rfl rfl
    have hsize := blockSize_congr hsnd h0 hstr
    rw [map_cons, map_cons, layout, layout, append_assoc, append_assoc] at h
    have hgap : gap p.1 p.2 n = gap q.1 q.2 n := by
      by_cases hzero : p.1.size = 0
      · unfold gap
        rw [if_pos hzero, if_pos (h0.mp hzero)]
      · have hm := (h1 p mem_cons_self).size_ne hzero
        rw [← hones, onesBlock, if_neg hzero, append_assoc, append_assoc] at h
        exact gap_eq_of_layout_ones hm h
    rw [hones, ← hgap, append_right_inj, append_right_inj, ← hsize] at h
    exact ⟨h0, hstr, hgap, ih hsig (fun p hp => h1 p (mem_cons_of_mem _ hp)) h⟩

/-- Blocks of zeros are a tuple of zeros. -/
theorem layout_zeros (n : Nat) (args : List Arg) :
    layout n args (args.map fun p => List.replicate (blockSize p.1 p.2) 0) =
      List.replicate (layoutSize n args - n) 0 := by
  induction args generalizing n with
  | nil => simp [layout, layoutSize]
  | cons p args ih =>
    have hle : ∀ n (args : List Arg), n ≤ layoutSize n args := by
      intro n args
      induction args generalizing n with
      | nil => exact le_rfl
      | cons p args ih => exact le_trans (by omega) (ih _)
    have := hle (n + gap p.1 p.2 n + blockSize p.1 p.2) args
    rw [map_cons, layout, ih, layoutSize, ← replicate_add, ← replicate_add]
    congr 1
    omega

section

variable {args1 args2 : List Arg}
  (hempty : List.Forall₂ (fun p q : Arg => p.1.size = 0 ↔ q.1.size = 0) args1 args2)
  (hsig : args1.map Prod.snd = args2.map Prod.snd)

include hempty hsig

theorem map_congr_of_sig {g : Arg → List Byte}
    (hg : ∀ p q : Arg, p.2 = q.2 → (p.1.size = 0 ↔ q.1.size = 0) → g p = g q) :
    args1.map g = args2.map g := by
  induction hempty with
  | nil => rfl
  | @cons p q args1 args2 h0 _ ih =>
    obtain ⟨hsnd, hsig⟩ := cons_eq_cons.mp hsig
    rw [map_cons, map_cons, hg p q hsnd h0, ih hsig]

/-- Only strings have values of no bytes. -/
theorem alike_of_zeroValue (h1 : ∀ p ∈ args1, SizeFits p)
    (h : args1.map zeroValue = args2.map zeroValue) : List.Forall₂ Alike args1 args2 := by
  induction hempty with
  | nil => exact .nil
  | @cons p q args1 args2 h0 _ ih =>
    obtain ⟨hsnd, hsig⟩ := cons_eq_cons.mp hsig
    obtain ⟨hzero, h⟩ := cons_eq_cons.mp h
    refine .cons ⟨h0, ?_⟩ (ih hsig (fun p hp => h1 p (mem_cons_of_mem _ hp)) h)
    by_cases hp : p.1.size = 0
    · have hno : ∀ {arg : ArgType}, arg.size = 0 → arg.isString = false := by
        intro arg harg
        cases arg with
        | string n =>
          have harg : n = 0 := harg
          simp [ArgType.isString, harg]
        | _ => rfl
      rw [hno hp, hno (h0.mp hp)]
    · have hm := (h1 p mem_cons_self).size_ne hp
      have hq : ¬q.1.size = 0 := fun hq => hp (h0.mpr hq)
      have hnil : ∀ {r : Arg}, ¬r.1.size = 0 → r.2 = p.2 →
          (zeroValue r = [] ↔ r.1.isString = true) := by
        intro r hr hsnd
        unfold zeroValue
        rw [hsnd]
        cases r.1.isString <;> simp [hr, hm]
      rw [Bool.eq_iff_iff, ← hnil hp rfl, ← hnil hq hsnd.symm, hzero]

end

/-- **Tuples of two clauses are only told apart if they have one shape**, apart from arguments of
size 0 opposite others. -/
theorem sameShape_of_toldApart {max1 max2 tupsz : Nat} {args1 args2 : List Arg} {t1 t2 : TupleCode}
    (ht1 : dtCgArglist diftupregs args1 max1 = some t1)
    (ht2 : dtCgArglist diftupregs args2 max2 = some t2) (hmax1 : t1.maxtuplesize ≤ tupsz)
    (hmax2 : t2.maxtuplesize ≤ tupsz) (hsig : args1.map Prod.snd = args2.map Prod.snd)
    (h1 : ∀ p ∈ args1, SizeFits p) (h2 : ∀ p ∈ args2, SizeFits p)
    (hempty : List.Forall₂ (fun p q : Arg => p.1.size = 0 ↔ q.1.size = 0) args1 args2)
    (htold : ToldApart args1 args2 t1 t2 tupsz) : SameShape 4 args1 args2 := by
  have htuple {args : List Arg} {max : Nat} {t : TupleCode} {x : Operand} {g : Arg → List Byte}
      (ht : dtCgArglist diftupregs args max = some t) (hmax : t.maxtuplesize ≤ tupsz)
      (hg : ∀ p ∈ args, block p.1 p.2 x = some (g p)) :
      t.tuple ⟨tupsz, fun _ => x, 0⟩ (fun _ => 0) = some (encode 0 args (args.map g)) := by
    rw [tuple_eq ht hmax, collect_const hg]
    rfl
  -- all ones: the values are the same, so the bytes are
  have hones := (htold (fun _ => onesOperand) (fun _ => onesOperand) 0 (fun _ => 0) (fun _ => 0) _ _
    (htuple ht1 hmax1 fun p hp => block_onesOperand (h1 p hp))
    (htuple ht2 hmax2 fun p hp => block_onesOperand (h2 p hp))).mpr ?_
  · have hlayout : layout 4 args1 (args1.map onesBlock) = layout 4 args2 (args2.map onesBlock) := by
      rwa [encode, encode, append_left_inj, append_right_inj] at hones
    have hsize : layoutSize 4 args1 = layoutSize 4 args2 := by
      have hlen {args : List Arg} (h : ∀ p ∈ args, SizeFits p) :
          4 + (layout 4 args (args.map onesBlock)).length = layoutSize 4 args :=
        @length_layout (fun _ => onesOperand) 0 _ _
          (collect_const fun p hp => block_onesOperand (h p hp)) 4
      rw [← hlen h1, ← hlen h2]
      exact congrArg (fun l : List Byte => 4 + l.length) hlayout
    -- all zeros: the bytes are the same, so the values are
    have hzeros := (htold (fun _ => zeroOperand) (fun _ => zeroOperand) 0 (fun _ => 0) (fun _ => 0)
      _ _ (htuple ht1 hmax1 fun p _ => block_zeroOperand p.1 p.2)
      (htuple ht2 hmax2 fun p _ => block_zeroOperand p.1 p.2)).mp
        (by rw [encode, encode, layout_zeros, layout_zeros, hsize])
    rw [collect_const fun p hp => value_zeroOperand_eq (h1 p hp),
      collect_const fun p hp => value_zeroOperand_eq (h2 p hp), some_inj] at hzeros
    exact sameShape_of_layout hsig h1 (alike_of_zeroValue hempty hsig h1 hzeros) hlayout
  · rw [collect_const fun p hp => value_onesOperand (h1 p hp),
      collect_const fun p hp => value_onesOperand (h2 p hp),
      map_congr_of_sig hempty hsig fun p q hsnd h0 => by rw [hsnd]; exact if_congr h0 rfl rfl]

/-! ## The tuples of a clause -/

theorem collect_block_isSome (h : ∀ p ∈ args, SizeFits p) {vs : List (List Byte)}
    (hvs : collect value slots i args = some vs) : ∃ bs, collect block slots i args = some bs := by
  induction args generalizing i vs with
  | nil => exact ⟨[], rfl⟩
  | cons p args ih =>
    simp only [collect, bind_eq_some_iff, map_eq_some_iff] at hvs
    obtain ⟨v, hv, vs, hvs, rfl⟩ := hvs
    obtain ⟨b, hb⟩ := value_isSome (h p mem_cons_self) hv
    obtain ⟨bs, hbs⟩ := ih (fun p hp => h p (mem_cons_of_mem _ hp)) hvs
    refine ⟨b :: bs, ?_⟩
    rw [collect, hb, hbs]
    rfl

/-- What is at a pointer, in memory that can all be read. -/
def pointsTo (l : List Byte) : Operand := ⟨0, fun a => some (l.getD a 0)⟩

end DTrace.Cg
