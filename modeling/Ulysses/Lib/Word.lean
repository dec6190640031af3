import Mathlib.Data.Nat.Bitwise
import Mathlib.Tactic.NormNum

/-!
# 32-bit words as natural numbers

Unsigned 32-bit arithmetic on `Nat`, wrapping at `2 ^ 32`, the signed reading of
a word, and the masks a 4096-byte page size gives rise to. Each operation has one
lemma that removes the wrap when nothing wraps; `omega` does the rest.
-/

namespace Ulysses.Lib

/-- Unsigned addition modulo `2 ^ 32`. -/
def add32 (a b : Nat) : Nat := (a + b) % 4294967296

/-- Unsigned subtraction modulo `2 ^ 32`. -/
def sub32 (a b : Nat) : Nat := (a + (4294967296 - b % 4294967296)) % 4294967296

/-- Unsigned multiplication modulo `2 ^ 32`. -/
def mul32 (a b : Nat) : Nat := (a * b) % 4294967296

/-- The value of an integer stored in a signed 32-bit word. -/
def s32 (x : Int) : Int := Int.bmod x 4294967296

/-- The value of an integer stored in an unsigned 32-bit word. -/
def u32 (x : Int) : Nat := (x % 4294967296).toNat

theorem add32_lt (a b : Nat) : add32 a b < 4294967296 := Nat.mod_lt _ (by decide)

theorem add32_eq {a b : Nat} (h : a + b < 4294967296) : add32 a b = a + b := Nat.mod_eq_of_lt h

theorem sub32_eq {a b : Nat} (hb : b ≤ a) (ha : a < 4294967296) : sub32 a b = a - b := by
  unfold sub32
  omega

theorem mul32_eq {a b : Nat} (h : a * b < 4294967296) : mul32 a b = a * b := Nat.mod_eq_of_lt h

theorem s32_eq {x : Int} (hlo : -2147483648 ≤ x) (hhi : x < 2147483648) : s32 x = x :=
  Int.bmod_eq_of_le (by omega) (by omega)

theorem s32_range (x : Int) : -2147483648 ≤ s32 x ∧ s32 x < 2147483648 := by
  have hlo := Int.le_bmod (x := x) (m := 4294967296) (by decide)
  have hhi := Int.bmod_lt (x := x) (m := 4294967296) (by decide)
  exact ⟨by unfold s32; omega, by unfold s32; omega⟩

theorem s32_emod (x : Int) : s32 x % 4294967296 = x % 4294967296 := Int.bmod_emod

theorem s32_add_emod (x y : Int) : (s32 x + y) % 4294967296 = (x + y) % 4294967296 := by
  rw [← Int.emod_add_emod, s32_emod, Int.emod_add_emod]

theorem u32_cast (x : Int) : (u32 x : Int) = x % 4294967296 :=
  Int.toNat_of_nonneg (Int.emod_nonneg x (by decide))

theorem s32_s32_add (x y : Int) : s32 (s32 x + y) = s32 (x + y) := Int.bmod_add_bmod

theorem and_pageMask {x : Nat} (hx : x < 4294967296) : x &&& 0xFFFFF000 = x / 4096 * 4096 := by
  have hm : (0xFFFFF000 : Nat) = (2 ^ 20 - 1) * 2 ^ 12 := by norm_num
  have hp : (4096 : Nat) = 2 ^ 12 := by norm_num
  apply Nat.eq_of_testBit_eq
  intro i
  rw [hm, hp, Nat.testBit_and, Nat.testBit_mul_two_pow, Nat.testBit_mul_two_pow,
    Nat.testBit_two_pow_sub_one, Nat.testBit_div_two_pow]
  by_cases hi : 12 ≤ i
  · have hs : i - 12 + 12 = i := by omega
    by_cases hj : i - 12 < 20
    · simp [hi, hj, hs]
    · have hz : x.testBit i = false := by
        apply Nat.testBit_lt_two_pow
        calc x < 2 ^ 32 := hx
          _ ≤ 2 ^ i := Nat.pow_le_pow_right (by norm_num) (by omega)
      simp [hi, hs, hz]
  · simp [hi]

theorem and_pageOffset (x : Nat) : x &&& 0xFFF = x % 4096 :=
  Nat.and_two_pow_sub_one_eq_mod x 12

/-- A page mask is zero exactly below the first page boundary. -/
theorem and_pageMask_eq_zero {x : Nat} (hx : x < 4294967296) :
    x &&& 0xFFFFF000 = 0 ↔ x < 4096 := by
  rw [and_pageMask hx]
  omega

theorem and_bit12 (x : Nat) : x &&& 0x1000 = x / 4096 % 2 * 4096 := by
  have h := Nat.and_two_pow x 12
  rw [Nat.testBit_eq_decide_div_mod_eq] at h
  norm_num at h
  rw [h]
  rcases Nat.mod_two_eq_zero_or_one (x / 4096) with h0 | h0 <;> simp [h0]

end Ulysses.Lib
