import Mathlib.Order.Basic

/-!
# Loops

Loops with a test, and loops as assembly code has them: a counter that grows by a fixed step up to
a bound, with the test at the end or at the start of the body. A loop is given fuel; the rules say
that with enough of it the loop ends, and that what the body keeps holds then.
-/

namespace Loop

variable {σ : Type*}

/-- `do { body; i += step; } while (i < len)` -/
def doWhile (step len : Nat) (body : Nat → σ → σ) : Nat → Nat → σ → Option σ
  | 0, _, _ => none
  | fuel + 1, i, s =>
    if i + step < len then doWhile step len body fuel (i + step) (body i s) else some (body i s)

/-- `while (i < len) { body; i += step; }` -/
def whileLt (step len : Nat) (body : Nat → σ → σ) : Nat → Nat → σ → Option σ
  | 0, _, _ => none
  | fuel + 1, i, s =>
    if i < len then whileLt step len body fuel (i + step) (body i s) else some s

/-- `while (test) { body; }` -/
def whileDo (test : σ → Bool) (body : σ → σ) : Nat → σ → Option σ
  | 0, _ => none
  | fuel + 1, s => if test s then whileDo test body fuel (body s) else some s

/-- **The rule for `whileDo`**: the body keeps `I` and makes its index smaller. -/
theorem whileDo_spec {test : σ → Bool} {body : σ → σ} (I : Nat → σ → Prop)
    (hbody : ∀ k s, I k s → test s = true → ∃ k' < k, I k' (body s)) {fuel k : Nat} {s : σ}
    (hI : I k s) (hfuel : k < fuel) :
    ∃ s', whileDo test body fuel s = some s' ∧ (∃ k, I k s') ∧ test s' = false := by
  induction fuel generalizing k s with
  | zero => omega
  | succ fuel ih =>
    unfold whileDo
    by_cases ht : test s = true
    · obtain ⟨k', _, hI'⟩ := hbody k s hI ht
      rw [if_pos ht]
      exact ih hI' (by omega)
    · rw [if_neg ht]
      exact ⟨s, rfl, ⟨k, hI⟩, Bool.eq_false_iff.mpr ht⟩

section
variable {step len fuel i : Nat} {body : Nat → σ → σ} {s : σ}

/-- The counter after one more step is still a number of steps from the bound. -/
theorem add_step_le (hdvd : step ∣ len - i) (hi : i < len) :
    i + step ≤ len ∧ step ∣ len - (i + step) := by
  obtain ⟨k, hk⟩ := hdvd
  cases k with
  | zero => omega
  | succ k =>
    rw [Nat.mul_succ] at hk
    exact ⟨by omega, k, by omega⟩

/-- **The rule for `doWhile`.** -/
theorem doWhile_spec (I : Nat → σ → Prop) (hstep : 0 < step) (hdvd : step ∣ len - i)
    (hi : i < len) (hfuel : len ≤ i + fuel) (hI : I i s)
    (hbody : ∀ i s, i < len → step ∣ len - i → I i s → I (i + step) (body i s)) :
    ∃ s', doWhile step len body fuel i s = some s' ∧ I len s' := by
  induction fuel generalizing i s with
  | zero => omega
  | succ fuel ih =>
    obtain ⟨_, hdvd'⟩ := add_step_le hdvd hi
    have hI' := hbody i s hi hdvd hI
    unfold doWhile
    by_cases hlt : i + step < len
    · rw [if_pos hlt]
      exact ih hdvd' hlt (by omega) hI'
    · rw [if_neg hlt]
      obtain hlen : i + step = len := by omega
      exact ⟨_, rfl, hlen ▸ hI'⟩

/-- **The rule for `whileLt`.** -/
theorem whileLt_spec (I : Nat → σ → Prop) (hstep : 0 < step) (hdvd : step ∣ len - i)
    (hi : i ≤ len) (hfuel : len < i + fuel) (hI : I i s)
    (hbody : ∀ i s, i < len → step ∣ len - i → I i s → I (i + step) (body i s)) :
    ∃ s', whileLt step len body fuel i s = some s' ∧ I len s' := by
  induction fuel generalizing i s with
  | zero => omega
  | succ fuel ih =>
    unfold whileLt
    by_cases hlt : i < len
    · rw [if_pos hlt]
      obtain ⟨hle, hdvd'⟩ := add_step_le hdvd hlt
      exact ih hdvd' hle (by omega) (hbody i s hlt hdvd hI)
    · rw [if_neg hlt]
      obtain rfl : i = len := by omega
      exact ⟨s, rfl, hI⟩

/-! ### Loops that go through an array

The body at a counter replaces each element of one step by a function of itself. -/

variable {α : Type*} {f : Nat → α → α} {work : Nat → (Nat → α) → Nat → α} {s : Nat → α}

/-- Below the counter the elements are replaced, from the counter on they are as before. -/
def Replaced (f : Nat → α → α) (s : Nat → α) (i : Nat) (s' : Nat → α) : Prop :=
  ∀ j, s' j = if j < i then f j (s j) else s j

section

variable (hwork : ∀ i s j, work i s j = if i ≤ j ∧ j < i + step then f j (s j) else s j)

include hwork

theorem Replaced.advance
    {s' : Nat → α} (h : Replaced f s i s') : Replaced f s (i + step) (work i s') := by
  intro j
  rw [hwork, h j]
  by_cases hlt : j < i
  · rw [if_neg (by omega), if_pos hlt, if_pos (by omega)]
  · by_cases hin : j < i + step
    · rw [if_pos ⟨by omega, hin⟩, if_neg hlt, if_pos hin]
    · rw [if_neg (by omega), if_neg hlt, if_neg hin]

theorem doWhile_replaced
    (hstep : 0 < step) (hdvd : step ∣ len) (hpos : 0 < len) (hfuel : len ≤ fuel) :
    ∃ s', doWhile step len work fuel 0 s = some s' ∧ Replaced f s len s' :=
  doWhile_spec (Replaced f s) hstep hdvd hpos (by omega) (fun _ => rfl)
    fun _ _ _ _ h => h.advance hwork

theorem whileLt_replaced
    (hstep : 0 < step) (hdvd : step ∣ len) (hfuel : len < fuel) :
    ∃ s', whileLt step len work fuel 0 s = some s' ∧ Replaced f s len s' :=
  whileLt_spec (Replaced f s) hstep hdvd (Nat.zero_le _) (by omega) (fun _ => rfl)
    fun _ _ _ _ h => h.advance hwork

end

end

end Loop
