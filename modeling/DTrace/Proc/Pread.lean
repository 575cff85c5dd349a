import Mathlib.Data.List.Range
import Mathlib.Algebra.Group.Nat.Defs

/-!
# Reading high addresses — `Pread`

Addresses from `LONG_MAX` on are no file offsets, and `Pread` reads them word by word with
`PTRACE_PEEKDATA`. The range is widened to whole words, the words go to an array `rbuf` of `long`,
and the bytes are copied from there to the caller's buffer.

* The copy starts at `rbuf + (address - saddr)`, where `rbuf` points to words, not bytes.
* The count after a failed request is that of the bytes read from `saddr`, not from `address`.

Whatever memory holds, both are right exactly for aligned addresses, or if there is nothing to be
copied (`pread_right_iff`).
-/

namespace DTrace.Proc

abbrev Byte := BitVec 8

def longMax : Nat := 2 ^ 63 - 1

/-- `sizeof(long)` -/
def sizeofLong : Nat := 8

/-- The process: its memory, the words `PTRACE_PEEKDATA` can read, and what `pread` on its memory
file gives. -/
structure Target where
  mem : Nat → Byte
  peekable : Nat → Bool
  lowRead : Nat → Nat → Nat × List Byte

/-- `PTRACE_PEEKDATA`: the bytes of a `long`. -/
def Target.peekdata (P : Target) (addr : Nat) : Option (Nat → Byte) :=
  if P.peekable addr then some fun j => P.mem (addr + j) else none

/-- What `Pread` relies on in its own process: whether there is memory for `rbuf`, what that
memory and the memory behind it hold, and whether `Ptrace` succeeds. -/
structure Host where
  malloc : Nat → Bool
  heap : Nat → Byte
  ptrace : Bool

/-- `rbuf[i] = data` -/
def setLong (rbuf : Nat → Byte) (i : Nat) (data : Nat → Byte) : Nat → Byte :=
  fun k => if k / sizeofLong = i then data (k % sizeofLong) else rbuf k

/-- The loop over the words. -/
def peekLoop (P : Target) (saddr len : Nat) : Nat → Nat → Nat → (Nat → Byte) → Nat × (Nat → Byte)
  | 0, _, sz, rbuf => (sz, rbuf)
  | fuel + 1, i, sz, rbuf =>
    if sz < len then
      match P.peekdata ((saddr + sz) % 2 ^ 64) with
      | none => (sz, rbuf)
      | some data => peekLoop P saddr len fuel (i + 1) (sz + sizeofLong) (setLong rbuf i data)
    else (sz, rbuf)

/-- `Pread`: the count, and the bytes in the caller's buffer. -/
def pread (P : Target) (h : Host) (nbyte address : Nat) : Nat × List Byte :=
  if address < longMax then P.lowRead nbyte address
  else
    let saddr := address - address % sizeofLong
    let len := (nbyte + (address - saddr)) % 2 ^ 64
    let len := if len % sizeofLong ≠ 0 then len + (sizeofLong - len % sizeofLong) else len
    if h.malloc len && h.ptrace then
      let (sz, rbuf) := peekLoop P saddr len len 0 0 h.heap
      let nbyte := if nbyte < sz then nbyte else sz
      -- the pointer to `long` moves by `address - saddr` words
      (nbyte, (List.range nbyte).map fun k => rbuf (sizeofLong * (address - saddr) + k))
    else (0, [])

/-! ## What is to be read -/

/-- The byte at `a` is part of a word that can be read. -/
def Target.Readable (P : Target) (a : Nat) : Prop := P.peekable (a - a % sizeofLong) = true

/-- The count is that of the readable bytes from `address` on, `nbyte` at most, and the buffer
holds them. -/
structure ReadsAll (P : Target) (nbyte address : Nat) (r : Nat × List Byte) : Prop where
  count_le : r.1 ≤ nbyte
  readable : ∀ k < r.1, P.Readable (address + k)
  maximal : r.1 < nbyte → ¬ P.Readable (address + r.1)
  bytes : r.2 = (List.range r.1).map fun k => P.mem (address + k)

/-! ## The loop

After `k` rounds the buffer holds the first `k` words from the aligned address on. -/

/-- What the loop leaves: `sz` bytes from `saddr` on are in `rbuf`, whole words of them, and either
that is enough or the next word cannot be read. -/
structure Peeked (P : Target) (saddr len sz : Nat) (rbuf : Nat → Byte) : Prop where
  words : sz % sizeofLong = 0
  readable : ∀ k < sz, P.Readable (saddr + k)
  bytes : ∀ k < sz, rbuf k = P.mem (saddr + k)
  stop : len ≤ sz ∨ ¬ P.Readable (saddr + sz)

section
variable {P : Target} {saddr len : Nat}

theorem peekLoop_spec (hsaddr : saddr % sizeofLong = 0) (hwrap : saddr + len ≤ 2 ^ 64)
    (fuel i : Nat) (rbuf : Nat → Byte) (hfuel : len ≤ sizeofLong * i + fuel)
    (hread : ∀ k < sizeofLong * i, P.Readable (saddr + k))
    (hbytes : ∀ k < sizeofLong * i, rbuf k = P.mem (saddr + k)) :
    Peeked P saddr len (peekLoop P saddr len fuel i (sizeofLong * i) rbuf).1
      (peekLoop P saddr len fuel i (sizeofLong * i) rbuf).2 := by
  unfold sizeofLong at *
  induction fuel generalizing i rbuf with
  | zero =>
    have hdone : len ≤ 8 * i := by simpa using hfuel
    exact ⟨by simp [peekLoop, sizeofLong], hread, hbytes, .inl hdone⟩
  | succ fuel ih =>
    rw [peekLoop]
    split
    · next hlt =>
      have hmod : (saddr + 8 * i) % 2 ^ 64 = saddr + 8 * i := Nat.mod_eq_of_lt (by omega)
      rw [hmod, Target.peekdata]
      have hword : ∀ k, 8 * i ≤ k → k < 8 * i + 8 →
          saddr + k - (saddr + k) % 8 = saddr + 8 * i := by omega
      by_cases hp : P.peekable (saddr + 8 * i) = true
      · rw [if_pos hp]
        have hnext := ih (i + 1) (setLong rbuf i fun j => P.mem (saddr + 8 * i + j)) (by omega)
          ?_ ?_
        · exact hnext
        · intro k hk
          by_cases hold : k < 8 * i
          · exact hread k hold
          · unfold Target.Readable sizeofLong
            rw [hword k (by omega) (by omega), hp]
        · intro k hk
          unfold setLong sizeofLong
          by_cases hold : k < 8 * i
          · rw [if_neg (by omega)]
            exact hbytes k hold
          · rw [if_pos (by omega), show saddr + k = saddr + 8 * i + k % 8 by omega]
      · rw [if_neg hp]
        refine ⟨by simp [sizeofLong], hread, hbytes, .inr ?_⟩
        unfold Target.Readable sizeofLong
        rwa [hword (8 * i) (by omega) (by omega)]
    · next hge => exact ⟨by simp [sizeofLong], hread, hbytes, .inl (by simpa using hge)⟩

/-- What the loop has not read is left as it was. -/
theorem peekLoop_kept (fuel i : Nat) (rbuf : Nat → Byte) :
    sizeofLong * i ≤ (peekLoop P saddr len fuel i (sizeofLong * i) rbuf).1 ∧
      ∀ k, (peekLoop P saddr len fuel i (sizeofLong * i) rbuf).1 ≤ k →
        (peekLoop P saddr len fuel i (sizeofLong * i) rbuf).2 k = rbuf k := by
  induction fuel generalizing i rbuf with
  | zero => exact ⟨le_rfl, fun _ _ => rfl⟩
  | succ fuel ih =>
    rw [peekLoop]
    split
    · split
      · exact ⟨le_rfl, fun _ _ => rfl⟩
      · next data _ =>
        obtain ⟨hle, hkept⟩ := ih (i + 1) (setLong rbuf i data)
        rw [Nat.mul_succ] at hle hkept
        refine ⟨by omega, fun k hk => ?_⟩
        rw [hkept k hk]
        unfold setLong sizeofLong
        unfold sizeofLong at hle hk
        exact if_neg (by omega)
    · exact ⟨le_rfl, fun _ _ => rfl⟩

end

/-! ## Aligned addresses -/

section
variable {P : Target} {h : Host} {nbyte address : Nat}

/-- The length of `rbuf`. -/
def rbufLen (nbyte address : Nat) : Nat :=
  (nbyte + address % sizeofLong + (sizeofLong - 1)) / sizeofLong * sizeofLong

/-- `Pread` of a high address, with its local variables put in. -/
theorem pread_high (hhigh : longMax ≤ address) (hwrap : address + nbyte ≤ 2 ^ 64) :
    pread P h nbyte address =
      if h.malloc (rbufLen nbyte address) && h.ptrace then
        let r := peekLoop P (address - address % sizeofLong) (rbufLen nbyte address)
          (rbufLen nbyte address) 0 0 h.heap
        (min nbyte r.1, (List.range (min nbyte r.1)).map fun k =>
          r.2 (sizeofLong * (address % sizeofLong) + k))
      else (0, []) := by
  have hlen : (let len := (nbyte + (address - (address - address % sizeofLong))) % 2 ^ 64
      if len % sizeofLong ≠ 0 then len + (sizeofLong - len % sizeofLong) else len) =
        rbufLen nbyte address := by
    unfold longMax at hhigh
    unfold rbufLen sizeofLong
    dsimp only
    rw [Nat.mod_eq_of_lt (show nbyte + (address - (address - address % 8)) < 2 ^ 64 by omega)]
    split <;> omega
  have hoff : address - (address - address % sizeofLong) = address % sizeofLong := by
    unfold sizeofLong
    omega
  have hmin : ∀ sz, (if nbyte < sz then nbyte else sz) = min nbyte sz := by
    intro sz
    split <;> omega
  unfold pread
  rw [if_neg (by omega)]
  dsimp only at ⊢
  rw [hlen, hoff]
  simp only [hmin]

/-- If the first word cannot be read, nothing is. -/
theorem peekLoop_unreadable (haddr : address < 2 ^ 64) (hread : ¬ P.Readable address) {len fuel : Nat} {rbuf : Nat → Byte} :
    peekLoop P (address - address % sizeofLong) len fuel 0 0 rbuf = (0, rbuf) := by
  cases fuel with
  | zero => rfl
  | succ fuel =>
    rw [peekLoop]
    split
    · have hmod : (address - address % sizeofLong + 0) % 2 ^ 64 = address - address % sizeofLong :=
        Nat.mod_eq_of_lt (by omega)
      unfold Target.Readable at hread
      rw [hmod, Target.peekdata, if_neg hread]
    · rfl

/-- An aligned read, with memory for `rbuf` and the process stopped. -/
theorem readsAll_of_aligned (hhigh : longMax ≤ address) (hwrap : address + nbyte ≤ 2 ^ 64)
    (hmalloc : h.malloc (rbufLen nbyte address) = true) (hptrace : h.ptrace = true)
    (haligned : address % sizeofLong = 0) : ReadsAll P nbyte address (pread P h nbyte address) := by
  have hlen : nbyte ≤ rbufLen nbyte address ∧ address + rbufLen nbyte address ≤ 2 ^ 64 := by
    unfold rbufLen sizeofLong at *
    omega
  rw [pread_high hhigh hwrap, hmalloc, hptrace, haligned, Nat.sub_zero]
  have hp := peekLoop_spec (P := P) haligned hlen.2 (rbufLen nbyte address) 0 h.heap (by omega)
    (by omega) (by omega)
  rw [Nat.mul_zero] at hp
  obtain ⟨-, hread, hbytes, hstop⟩ := hp
  simp only [Bool.and_self, if_true, Nat.mul_zero, Nat.zero_add]
  refine ⟨Nat.min_le_left _ _, fun k hk => hread k (by omega), fun hlt => ?_, ?_⟩
  · rcases hstop with hstop | hstop
    · omega
    · rwa [show min nbyte _ = _ from Nat.min_eq_right (by omega)]
  · refine List.map_congr_left fun k hk => hbytes k ?_
    have := List.mem_range.mp hk
    omega

/-- The memory with `c` in the byte at `a` and `b` elsewhere. -/
def filled (a : Nat) (c b : Byte) : Nat → Byte := fun k => if k = a then c else b

/-- At the wrong offset the code finds the byte that is everywhere else, in `rbuf` or behind it. -/
theorem peeked_filled (P : Target)
    (hwrap : address - address % sizeofLong + rbufLen nbyte address ≤ 2 ^ 64)
    (halign : address % sizeofLong ≠ 0) (heap : Nat → Byte) (c : Byte) :
    (peekLoop { P with mem := filled address c (heap (sizeofLong * (address % sizeofLong))) }
      (address - address % sizeofLong) (rbufLen nbyte address) (rbufLen nbyte address) 0 0
      heap).2 (sizeofLong * (address % sizeofLong)) =
      heap (sizeofLong * (address % sizeofLong)) := by
  let P : Target := { P with mem := filled address c (heap (sizeofLong * (address % sizeofLong))) }
  have hsaddr : (address - address % sizeofLong) % sizeofLong = 0 := by
    unfold sizeofLong
    omega
  have hp := peekLoop_spec (P := P) hsaddr hwrap (rbufLen nbyte address) 0 heap (by omega)
    (by omega) (by omega)
  have hkept := @peekLoop_kept P (address - address % sizeofLong) (rbufLen nbyte address)
    (rbufLen nbyte address) 0 heap
  rw [Nat.mul_zero] at hp hkept
  by_cases hin : sizeofLong * (address % sizeofLong) < (peekLoop P (address - address % sizeofLong)
      (rbufLen nbyte address) (rbufLen nbyte address) 0 0 heap).1
  · rw [hp.bytes _ hin]
    unfold sizeofLong at *
    exact if_neg (by omega)
  · exact hkept.2 _ (by omega)

/-- Without the first word there is nothing to read, whatever `malloc` and `Ptrace` do. -/
theorem pread_of_unreadable (P : Target) (h : Host) (hhigh : longMax ≤ address)
    (hwrap : address + nbyte ≤ 2 ^ 64) (hpos : 0 < nbyte) (hread : ¬ P.Readable address) :
    pread P h nbyte address = (0, []) := by
  rw [pread_high hhigh hwrap]
  split
  · rw [peekLoop_unreadable (by omega) hread]
    simp
  · rfl

/-- At an address that is not aligned, some contents of memory show that the code takes its bytes
from the wrong offset. -/
theorem aligned_of_right (hhigh : longMax ≤ address)
    (hwrap : address + nbyte ≤ 2 ^ 64)
    (hright : ∀ mem, ReadsAll { P with mem } nbyte address (pread { P with mem } h nbyte address))
    (hcount : ∀ mem, 0 < (pread { P with mem } h nbyte address).1)
    (hhost : (h.malloc (rbufLen nbyte address) && h.ptrace) = true) :
    address % sizeofLong = 0 := by
  by_contra halign
  -- all of memory but the first byte holds what the code finds at the wrong offset
  let off := sizeofLong * (address % sizeofLong)
  let mem := filled address (h.heap off + 1) (h.heap off)
  have hfirst := (hright mem).bytes
  have hpos := hcount mem
  rw [pread_high hhigh hwrap, if_pos hhost] at hfirst hpos
  dsimp only at hpos hfirst
  have hbyte := List.map_inj_left.mp hfirst 0 (List.mem_range.mpr hpos)
  have hlen : address - address % sizeofLong + rbufLen nbyte address ≤ 2 ^ 64 := by
    unfold rbufLen sizeofLong
    omega
  rw [Nat.add_zero, Nat.add_zero, show mem address = h.heap off + 1 from if_pos rfl,
    peeked_filled P hlen halign] at hbyte
  have hne : ∀ b : Byte, b ≠ b + 1 := by decide
  exact hne _ hbyte

/-- **High reads**: with given readable words, `Pread` is right whatever they hold if and only if
nothing is to be read, or the first word cannot be read, or the address is aligned and `malloc` and
`Ptrace` succeed. -/
theorem pread_right_iff (P : Target) (h : Host) (hhigh : longMax ≤ address)
    (hwrap : address + nbyte ≤ 2 ^ 64) :
    (∀ mem, ReadsAll { P with mem } nbyte address (pread { P with mem } h nbyte address)) ↔
      nbyte = 0 ∨ ¬ P.Readable address ∨ (h.malloc (rbufLen nbyte address) = true ∧
        h.ptrace = true ∧ address % sizeofLong = 0) := by
  constructor
  · intro hright
    rcases Nat.eq_zero_or_pos nbyte with hzero | hpos
    · exact .inl hzero
    refine .inr (Classical.or_iff_not_imp_left.mpr fun hread => ?_)
    have hread : P.Readable address := not_not.mp hread
    -- a byte can be read, so the count is not zero
    have hcount : ∀ mem, 0 < (pread { P with mem } h nbyte address).1 := by
      intro mem
      by_contra hzero
      have hzero : (pread { P with mem } h nbyte address).1 = 0 := by omega
      have hmax := (hright mem).maximal
      rw [hzero] at hmax
      exact hmax hpos hread
    have hhost : (h.malloc (rbufLen nbyte address) && h.ptrace) = true := by
      by_contra hfail
      have hret := hcount P.mem
      rw [pread_high hhigh hwrap, if_neg hfail] at hret
      exact absurd hret (Nat.lt_irrefl 0)
    exact ⟨(Bool.and_eq_true _ _ ▸ hhost).1, (Bool.and_eq_true _ _ ▸ hhost).2,
      aligned_of_right hhigh hwrap hright hcount hhost⟩
  · intro hcond mem
    rcases Nat.eq_zero_or_pos nbyte with rfl | hpos
    · rw [pread_high hhigh hwrap]
      refine ⟨?_, ?_, ?_, ?_⟩ <;> split <;> simp
    rcases hcond.resolve_left hpos.ne' with hread | ⟨hmalloc, hptrace, haligned⟩
    · rw [pread_of_unreadable { P with mem } h hhigh hwrap hpos hread]
      exact ⟨Nat.zero_le _, by simp, fun _ => hread, rfl⟩
    · exact readsAll_of_aligned hhigh hwrap hmalloc hptrace haligned

end

/-- A process in which nothing fails, with a heap of zeros. -/
def quietHost : Host := ⟨fun _ => true, fun _ => 0, true⟩

/-- A traced process all of whose words can be read. -/
def readable (mem : Nat → Byte) : Target := ⟨mem, fun _ => true, fun _ _ => (0, [])⟩

theorem aligned_read : ReadsAll (readable (filled (2 ^ 63) 7 0)) 8 (2 ^ 63)
    (pread (readable (filled (2 ^ 63) 7 0)) quietHost 8 (2 ^ 63)) :=
  (pread_right_iff (readable fun _ => 0) quietHost (by decide) (by decide)).mpr
    (.inr (.inr ⟨rfl, rfl, rfl⟩)) _

/-- One byte is read at an odd address: the buffer gets a byte from behind `rbuf`. -/
theorem odd_read : let P := readable (filled (2 ^ 63 + 1) 1 0)
    pread P quietHost 1 (2 ^ 63 + 1) = (1, [0]) ∧ P.mem (2 ^ 63 + 1) = 1 ∧
      ¬ ReadsAll P 1 (2 ^ 63 + 1) (pread P quietHost 1 (2 ^ 63 + 1)) := by
  intro P
  have hread : pread P quietHost 1 (2 ^ 63 + 1) = (1, [0]) := by decide
  refine ⟨hread, by decide, fun h => ?_⟩
  have hbytes := h.bytes
  exact absurd hbytes (by decide)

end DTrace.Proc
