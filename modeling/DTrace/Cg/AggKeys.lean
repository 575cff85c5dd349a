import DTrace.Cg.TupleKeys

/-!
# Descriptions of aggregation keys

`dt_cg_agg` has the code for the tuple made by `dt_cg_arglist`, and describes the keys to the
consumer by one record each (`dt_aggid_rec_add`). Both compute offsets from the sizes of the keys.

`decodes_iff` says when they agree. A key that is passed by reference stands in the tuple where the
one before it ends, but is described as aligned to its size.
-/

namespace DTrace.Cg

open List Option

/-- `dtrd_size` and `dtrd_offset` -/
@[ext] structure KeyDesc where
  size : Nat
  offset : Nat
  deriving DecidableEq, Repr

/-- The record that is added after keys of `ksize` bytes; `none` is the assertion. -/
def dtAggidRecAdd (ksize size alignment : Nat) : Option KeyDesc :=
  if alignment > 0 ∧ alignment ≤ 8 ∧ alignment &&& (alignment - 1) = 0 then
    some ⟨size, nextoff ksize alignment⟩
  else none

/-- What `dt_cg_agg` passes for a key. The alignment is an `int16_t`. -/
def keySize (strsize : Nat) : ArgType → Nat
  | .string _ => strsize + 1
  | key => key.size

def keyAlignment : ArgType → Nat
  | .string _ => 1
  | key => key.size % 2 ^ 16

/-- The loop of `dt_cg_agg` over the keys: their records, and the size with all of them. -/
def aggRecs (strsize : Nat) : Nat → List ArgType → Option (List KeyDesc × Nat)
  | ksize, [] => some ([], ksize)
  | ksize, key :: keys =>
    (dtAggidRecAdd ksize (keySize strsize key) (keyAlignment key)).bind fun r =>
      (aggRecs strsize (r.offset + r.size) keys).map fun (rs, ksize) => (r :: rs, ksize)

/-- Where `dt_cg_arglist` puts the keys. -/
def places : Nat → List Arg → List KeyDesc
  | _, [] => []
  | n, (arg, sig) :: args =>
    ⟨blockSize arg sig, n + gap arg sig n⟩ :: places (n + gap arg sig n + blockSize arg sig) args

/-- The consumer has the keys: the size before the key of the thread is the described one, and the
bytes of the records are those of the keys. The first record is the variable, of four bytes. -/
def Decodes (strsize : Nat) (args : List Arg) : Prop :=
  ∃ recs, aggRecs strsize 4 (args.map Prod.snd) = some (recs, layoutSize 4 args) ∧
    recs = places 4 args ∧
    ∀ slots key bs, collect block slots 0 args = some bs →
      recs.map (fun r => ((encode key args bs).drop r.offset).take r.size) = bs

theorem slices_layout {args : List Arg} {bs : List (List Byte)} (hbs : Sized args bs)
    (pre post : List Byte) :
    (places pre.length args).map
      (fun r => ((pre ++ (layout pre.length args bs ++ post)).drop r.offset).take r.size) = bs := by
  induction hbs generalizing pre with
  | nil => rfl
  | @cons p b args bs hb _ ih =>
    obtain ⟨arg, sig⟩ := p
    have hpre : (pre ++ replicate (gap arg sig pre.length) 0 ++ b).length =
        pre.length + gap arg sig pre.length + blockSize arg sig := by
      rw [length_append, length_append, length_replicate, hb]
    have hrest := ih (pre ++ replicate (gap arg sig pre.length) 0 ++ b)
    rw [hpre] at hrest
    rw [places, layout, map_cons]
    refine congr (congrArg _ ?_) ?_
    · simp [← hb]
    · simpa only [append_assoc] using hrest

/-- The argument is of the type of the signature, where integers of all types are one. -/
def Agrees : Arg → Prop
  | (.scalar _, .scalar _) => True
  | (arg, sig) => arg = sig

/-- The place of a block goes by the signature. -/
theorem shape_of_agrees {p : Arg} (hp : Agrees p) :
    (∀ n, gap p.1 p.2 n = gap p.2 p.2 n) ∧ blockSize p.1 p.2 = blockSize p.2 p.2 := by
  obtain ⟨arg, sig⟩ := p
  cases arg with
  | scalar s =>
    cases sig with
    | scalar t =>
      have hs : ¬(ArgType.scalar s).size = 0 := s.width.bytes_pos.ne'
      have ht : ¬(ArgType.scalar t).size = 0 := t.width.bytes_pos.ne'
      exact ⟨fun n => by rw [gap, gap, if_neg hs, if_neg ht],
        by simp only [blockSize, if_neg hs, if_neg ht]⟩
    | string n => cases hp
    | byref n => cases hp
  | string n =>
    obtain rfl : ArgType.string n = sig := by cases sig <;> exact hp
    exact ⟨fun _ => rfl, rfl⟩
  | byref n =>
    obtain rfl : ArgType.byref n = sig := by cases sig <;> exact hp
    exact ⟨fun _ => rfl, rfl⟩

/-- A key by reference has a size with an alignment, and ends up aligned to it. -/
def KeyAligned (n : Nat) (key : ArgType) : Prop :=
  ∀ size, key = .byref size →
    (size % 2 ^ 16 = 1 ∨ size % 2 ^ 16 = 2 ∨ size % 2 ^ 16 = 4 ∨ size % 2 ^ 16 = 8) ∧
      size % 2 ^ 16 ∣ n

def KeysAligned : Nat → List Arg → Prop
  | _, [] => True
  | n, (arg, sig) :: args =>
    KeyAligned n sig ∧ KeysAligned (n + gap arg sig n + blockSize arg sig) args

theorem dtAggidRecAdd_eq_some {ksize size a : Nat} {r : KeyDesc} :
    dtAggidRecAdd ksize size a = some r ↔
      (a = 1 ∨ a = 2 ∨ a = 4 ∨ a = 8) ∧ size = r.size ∧ nextoff ksize a = r.offset := by
  have halign : a > 0 ∧ a ≤ 8 ∧ a &&& (a - 1) = 0 ↔ a = 1 ∨ a = 2 ∨ a = 4 ∨ a = 8 := by
    by_cases h : a ≤ 8
    · revert a
      decide
    · omega
  rw [dtAggidRecAdd, ite_none_right_eq_some, halign, some_inj, KeyDesc.ext_iff]

/-- **One key** is described where it is put. -/
theorem dtAggidRecAdd_eq_iff {strsize n : Nat} {p : Arg} (hstr : 0 < strsize) (hp : Agrees p)
    (hstring : ∀ k, p.2 = .string k → k = strsize) :
    dtAggidRecAdd n (keySize strsize p.2) (keyAlignment p.2) =
      some ⟨blockSize p.1 p.2, n + gap p.1 p.2 n⟩ ↔ KeyAligned n p.2 := by
  obtain ⟨hgap, hsize⟩ := shape_of_agrees hp
  rw [hgap, hsize, dtAggidRecAdd_eq_some]
  cases hsig : p.2 with
  | scalar t =>
    refine iff_of_true ?_ (fun _ h => by cases h)
    have hle := le_nextoff t.width.bytes_pos n
    obtain ⟨width, _⟩ := t
    cases width <;>
      exact ⟨by simp [keyAlignment, ArgType.size, IntType.size, Bpf.Width.bytes], rfl,
        (Nat.add_sub_of_le hle).symm⟩
  | string k =>
    obtain rfl := hstring k hsig
    refine iff_of_true ⟨.inl rfl, (if_neg hstr.ne').symm, ?_⟩ (fun _ h => by cases h)
    simp [nextoff, gap, keyAlignment]
  | byref k =>
    have hblock : blockSize (.byref k) (.byref k) = k := ite_eq_right_iff.mpr Eq.symm
    rw [hblock, show gap (.byref k) (.byref k) n = 0 from ite_self 0]
    simp only [KeyAligned, ArgType.byref.injEq, forall_eq']
    refine and_congr_right fun ha => (and_iff_right rfl).trans ?_
    simp only [keyAlignment, ArgType.size] at ha ⊢
    generalize k % 2 ^ 16 = a at ha
    obtain rfl | rfl | rfl | rfl := ha <;> unfold nextoff <;> omega

theorem aggRecs_eq_iff {strsize : Nat} (hstr : 0 < strsize) {args : List Arg}
    (hargs : ∀ p ∈ args, Agrees p) (hstrings : ∀ p ∈ args, ∀ k, p.2 = .string k → k = strsize)
    (n : Nat) : aggRecs strsize n (args.map Prod.snd) = some (places n args, layoutSize n args) ↔
      KeysAligned n args := by
  induction args generalizing n with
  | nil => exact iff_of_true rfl trivial
  | cons p args ih =>
    have hp := dtAggidRecAdd_eq_iff (n := n) hstr (hargs p mem_cons_self) (hstrings p mem_cons_self)
    have hrest := ih (fun p h => hargs p (mem_cons_of_mem _ h))
      (fun p h => hstrings p (mem_cons_of_mem _ h))
    simp only [map_cons, aggRecs, places, KeysAligned, ← hp, ← hrest, bind_eq_some_iff,
      map_eq_some_iff, Prod.mk.injEq, cons.injEq, Prod.exists]
    constructor
    · rintro ⟨r, hr, -, -, hrs, ⟨rfl, rfl⟩, rfl⟩
      exact ⟨hr, hrs⟩
    · rintro ⟨hr, hrs⟩
      exact ⟨_, hr, _, _, hrs, ⟨rfl, rfl⟩, rfl⟩

/-- **Keys are decoded as they are put together** exactly if those by reference are aligned, in
every clause that agrees with the signature. -/
theorem decodes_iff (strsize : Nat) (hstr : 0 < strsize) (args : List Arg)
    (hargs : ∀ p ∈ args, Agrees p) (hstrings : ∀ p ∈ args, ∀ k, p.2 = .string k → k = strsize) :
    Decodes strsize args ↔ KeysAligned 4 args := by
  rw [← aggRecs_eq_iff hstr hargs hstrings]
  constructor
  · rintro ⟨-, hrecs, rfl, -⟩
    exact hrecs
  · refine fun hrecs => ⟨_, hrecs, rfl, fun slots key bs hbs => ?_⟩
    exact slices_layout (sized_collect hbs) (replicate 4 0) _

theorem int_and_string_decoded :
    Decodes 256 [(.scalar ⟨.dw, true⟩, .scalar .int), (.string 256, .string 256)] :=
  (decodes_iff 256 (by decide) _ (by simp [Agrees]) (by simp)).mpr
    ⟨fun _ h => (by cases h), fun _ h => (by cases h), trivial⟩

/-- A structure of eight bytes is put at offset 4 and described at offset 8. -/
theorem struct_described_elsewhere :
    aggRecs 256 4 [.byref 8] = some ([⟨8, 8⟩], 16) ∧
      places 4 [(.byref 8, .byref 8)] = [⟨8, 4⟩] ∧ layoutSize 4 [(.byref 8, .byref 8)] = 12 :=
  ⟨by decide, by decide, by decide⟩

end DTrace.Cg
