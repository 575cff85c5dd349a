import Mathlib.Algebra.GroupWithZero.Nat
import Mathlib.Data.Fin.Basic
import Mathlib.Data.List.GetD

/-!
# Byte memory

A memory of bytes with addresses of 64 bits that wrap, little-endian numbers in it, strings that
end with a zero byte, and arrays of 32-bit words. What is written is read back (`u32_writeWords`).
-/

/-- By this name the literals of bytes are the same terms wherever they stand. -/
instance neZeroByte : NeZero 256 := ⟨by decide⟩

abbrev ByteMem := Nat → Fin 256

namespace ByteMem

open List Nat

variable (m m' : ByteMem)

/-! ## Reading -/

def u8 (p : Nat) : Nat := m (p % 2 ^ 64)

def u16 (p : Nat) : Nat := m.u8 p + 2 ^ 8 * m.u8 (p + 1)

def u32 (p : Nat) : Nat := m.u16 p + 2 ^ 16 * m.u16 (p + 2)

def u64 (p : Nat) : Nat := m.u32 p + 2 ^ 32 * m.u32 (p + 4)

variable {m m'}

theorem u8_lt (p : Nat) : m.u8 p < 2 ^ 8 := (m (p % 2 ^ 64)).isLt

theorem u16_lt (p : Nat) : m.u16 p < 2 ^ 16 := by
  have h0 := u8_lt (m := m) p
  have h1 := u8_lt (m := m) (p + 1)
  unfold u16
  omega

theorem u32_lt (p : Nat) : m.u32 p < 2 ^ 32 := by
  have h0 := u16_lt (m := m) p
  have h1 := u16_lt (m := m) (p + 2)
  unfold u32
  omega

variable (m) in
/-- The `n` bytes at `p`. -/
def bytes (p n : Nat) : List (Fin 256) := (List.range n).map fun i => m ((p + i) % 2 ^ 64)

@[simp]
theorem length_bytes (p n : Nat) : (m.bytes p n).length = n := by simp [bytes]

theorem bytes_add (p a b : Nat) : m.bytes p (a + b) = m.bytes p a ++ m.bytes (p + a) b := by
  simp only [bytes, range_add, map_append, map_map, Function.comp_def, add_assoc]

/-- A memory that begins with the bytes. -/
def ofBytes (l : List (Fin 256)) : ByteMem := fun a => l.getD a 0

variable {p n i k q : Nat}

theorem u8_ofBytes_bytes (rest : List (Fin 256)) (hi : i < n) (hn : n ≤ 2 ^ 64) :
    (ofBytes (m.bytes p n ++ rest)).u8 i = m.u8 (p + i) := by
  have hlt : i < (m.bytes p n).length := by rwa [length_bytes]
  rw [u8, ofBytes, mod_eq_of_lt (by omega), getD_append _ _ _ _ hlt,
    getD_eq_getElem _ _ hlt]
  simp [bytes, u8]

theorem u64_ofBytes_bytes (rest : List (Fin 256)) (hi : i + 8 ≤ n) (hn : n ≤ 2 ^ 64) :
    (ofBytes (m.bytes p n ++ rest)).u64 i = m.u64 (p + i) := by
  have h : ∀ j < 8, (ofBytes (m.bytes p n ++ rest)).u8 (i + j) = m.u8 (p + i + j) := by
    intro j hj
    rw [u8_ofBytes_bytes rest (by omega) hn, add_assoc]
  have h0 := h 0 (by omega)
  have h1 := h 1 (by omega)
  have h2 := h 2 (by omega)
  have h3 := h 3 (by omega)
  have h4 := h 4 (by omega)
  have h5 := h 5 (by omega)
  have h6 := h 6 (by omega)
  have h7 := h 7 (by omega)
  simp only [u64, u32, u16, add_zero] at h0 ⊢
  rw [h0, h1, h2, h3, h4, h5, h6, h7]

/-! ## Strings -/

variable (m) in
/-- The number of bytes before the first zero, within a limit. -/
def strnlen : Nat → Nat → Nat
  | 0, _ => 0
  | n + 1, p => if m.u8 p = 0 then 0 else strnlen n (p + 1) + 1

variable (m) in
/-- A string that does not end goes round all of the memory. -/
def strlen (p : Nat) : Nat := m.strnlen (2 ^ 64) p

/-! ## Words -/

variable (m) in
def words (p n : Nat) : List Nat := (List.range n).map fun i => m.u32 (p + 4 * i)

@[simp]
theorem length_words (p n : Nat) : (m.words p n).length = n := by simp [words]

/-! ## Writing -/

def le32 (v : Nat) : List (Fin 256) :=
  [Fin.ofNat 256 v, Fin.ofNat 256 (v / 2 ^ 8), Fin.ofNat 256 (v / 2 ^ 16), Fin.ofNat 256 (v / 2 ^ 24)]

def le64 (v : Nat) : List (Fin 256) := le32 v ++ le32 (v / 2 ^ 32)

variable (m) in
/-- The bytes are put at `p` and the addresses after it. -/
def write (p : Nat) (bytes : List (Fin 256)) : ByteMem := fun a =>
  bytes.getD ((a + (2 ^ 64 - p % 2 ^ 64)) % 2 ^ 64) (m a)

variable (m) in
def writeWords (p : Nat) (ws : List Nat) : ByteMem := m.write p (ws.flatMap le32)

theorem length_flatMap_le32 (ws : List Nat) : (ws.flatMap le32).length = 4 * ws.length := by
  induction ws with
  | nil => rfl
  | cons w ws ih =>
    rw [flatMap_cons, length_append]
    simp only [le32, length_cons, length_nil]
    omega

/-- What was written is read back. -/
theorem u8_write {bytes : List (Fin 256)} (hi : i < bytes.length) (hlen : bytes.length ≤ 2 ^ 64) :
    (m.write p bytes).u8 (p + i) = bytes[i] := by
  have hd : ((p + i) % 2 ^ 64 + (2 ^ 64 - p % 2 ^ 64)) % 2 ^ 64 = i := by omega
  rw [ByteMem.u8, write, hd, getD_eq_getElem _ _ hi]

theorem getElem?_flatMap_le32 (ws : List Nat) (k j : Nat) (hj : j < 4) :
    (ws.flatMap le32)[4 * k + j]? = ws[k]?.bind fun w => (le32 w)[j]? := by
  induction ws generalizing k with
  | nil => rfl
  | cons w ws ih =>
    have hlen : (le32 w).length = 4 := rfl
    rw [flatMap_cons]
    cases k with
    | zero => rw [getElem?_append_left (by omega)]; simp
    | succ k =>
      rw [getElem?_append_right (by omega), hlen,
        show 4 * (k + 1) + j - 4 = 4 * k + j from by omega, ih k, getElem?_cons_succ]

theorem u32_writeWords {ws : List Nat} (hk : k < ws.length) (hlen : 4 * ws.length ≤ 2 ^ 64) :
    (m.writeWords p ws).u32 (p + 4 * k) = ws[k] % 2 ^ 32 := by
  have hbytes := length_flatMap_le32 ws
  have hbyte : ∀ j (hj : j < 4), (m.writeWords p ws).u8 (p + 4 * k + j) =
      ((le32 ws[k]).get ⟨j, hj⟩) := by
    intro j hj
    have hidx : 4 * k + j < (ws.flatMap le32).length := by omega
    have hget := getElem?_flatMap_le32 ws k j hj
    rw [getElem?_eq_getElem hidx, getElem?_eq_getElem hk, Option.bind_some,
      getElem?_eq_getElem (show j < (le32 ws[k]).length from hj)] at hget
    rw [writeWords, add_assoc, u8_write hidx (by omega),
      Option.some.inj hget]
    rfl
  have h0 := hbyte 0 (by omega)
  have h1 := hbyte 1 (by omega)
  have h2 := hbyte 2 (by omega)
  have h3 := hbyte 3 (by omega)
  simp only [le32, get_eq_getElem, getElem_cons_zero, getElem_cons_succ,
    Fin.val_ofNat, add_zero] at h0 h1 h2 h3
  rw [u32, u16, u16, show p + 4 * k + 2 + 1 = p + 4 * k + 3 from rfl]
  omega

end ByteMem
