import Mathlib.Logic.Function.Basic
import Mathlib.Data.List.Basic
import Mathlib.Data.Finset.Card

/-!
# Bitmaps in 32-bit words

A bitmap is an array of words; bit `f` is bit `f % 32` of word `f / 32`. The
search for a clear bit goes word by word and skips the full ones.
-/

namespace Ulysses.Lib

/-- An array of words. -/
abbrev Bitmap := Nat → BitVec 32

namespace Bitmap

def test (m : Bitmap) (f : Nat) : Bool := (m (f / 32)).getLsbD (f % 32)

def set (m : Bitmap) (f : Nat) : Bitmap :=
  Function.update m (f / 32) (m (f / 32) ||| 1#32 <<< (f % 32))

def clear (m : Bitmap) (f : Nat) : Bitmap :=
  Function.update m (f / 32) (m (f / 32) &&& ~~~(1#32 <<< (f % 32)))

/-- The lowest clear bit of a word. -/
def clearBit (w : BitVec 32) : Option Nat :=
  (List.range 32).find? fun j => w &&& 1#32 <<< j == 0#32

/-- The first clear bit of the first `n` words. -/
def firstClear (m : Bitmap) (n : Nat) : Option Nat :=
  (List.range n).findSome? fun i =>
    if m i = 0xFFFFFFFF#32 then none else (clearBit (m i)).map (i * 4 * 8 + ·)

theorem getLsbD_one_shiftLeft {i j : Nat} (hj : j < 32) :
    (1#32 <<< j).getLsbD i = decide (i = j) := by
  rw [BitVec.getLsbD_shiftLeft, BitVec.getLsbD_one]
  by_cases h : i = j
  · subst h
    simp [hj]
  · simpa [h] using fun h1 h2 => by omega

/-- Two bits of one word are one bit when their offsets agree. -/
theorem div_mod_ne {f g : Nat} (h : g ≠ f) (hw : g / 32 = f / 32) : g % 32 ≠ f % 32 := by
  omega

theorem test_set (m : Bitmap) (f g : Nat) :
    (m.set f).test g = (decide (g = f) || m.test g) := by
  unfold test set
  by_cases hw : g / 32 = f / 32
  · rw [hw, Function.update_self, BitVec.getLsbD_or, getLsbD_one_shiftLeft (by omega)]
    by_cases h : g = f
    · simp [h]
    · simp [h, div_mod_ne h hw]
  · rw [Function.update_of_ne hw]
    have h : g ≠ f := fun h => hw (by rw [h])
    simp [h]

theorem test_clear (m : Bitmap) (f g : Nat) :
    (m.clear f).test g = (!decide (g = f) && m.test g) := by
  unfold test clear
  by_cases hw : g / 32 = f / 32
  · have hg : g % 32 < 32 := by omega
    rw [hw, Function.update_self, BitVec.getLsbD_and, BitVec.getLsbD_not,
      getLsbD_one_shiftLeft (by omega)]
    by_cases h : g = f
    · simp [h]
    · simp [h, div_mod_ne h hw, hg]
  · rw [Function.update_of_ne hw]
    have h : g ≠ f := fun h => hw (by rw [h])
    simp [h]

theorem getLsbD_of_clearBit {w : BitVec 32} {j : Nat} (h : clearBit w = some j) :
    j < 32 ∧ w.getLsbD j = false := by
  have hj : j < 32 := List.mem_range.1 (List.mem_of_find?_eq_some h)
  have hz := List.find?_some h
  rw [beq_iff_eq] at hz
  have hb := congrArg (BitVec.getLsbD · j) hz
  simp only [BitVec.getLsbD_and, getLsbD_one_shiftLeft hj, decide_true, Bool.and_true,
    BitVec.getLsbD_zero] at hb
  exact ⟨hj, hb⟩

/-- The bit the search finds is clear and among the first `n` words. -/
theorem firstClear_spec {m : Bitmap} {n f : Nat} (h : m.firstClear n = some f) :
    f < n * 32 ∧ m.test f = false := by
  obtain ⟨i, hi, hf⟩ := List.exists_of_findSome?_eq_some h
  have hi : i < n := List.mem_range.1 hi
  split at hf
  · cases hf
  · obtain ⟨j, hj, rfl⟩ := Option.map_eq_some_iff.1 hf
    obtain ⟨hlt, hb⟩ := getLsbD_of_clearBit hj
    have hdiv : (i * 4 * 8 + j) / 32 = i := by omega
    have hmod : (i * 4 * 8 + j) % 32 = j := by omega
    refine ⟨by omega, ?_⟩
    unfold test
    rw [hdiv, hmod, hb]

/-! ## How many bits are clear -/

/-- The clear bits among the first `n` words. -/
def clearBits (m : Bitmap) (n : Nat) : Finset Nat :=
  (Finset.range (n * 32)).filter fun f => m.test f = false

theorem mem_clearBits {m : Bitmap} {n f : Nat} :
    f ∈ m.clearBits n ↔ f < n * 32 ∧ m.test f = false := by
  rw [clearBits, Finset.mem_filter, Finset.mem_range]

theorem getLsbD_of_clearBit_eq_none {w : BitVec 32} (h : clearBit w = none) {j : Nat}
    (hj : j < 32) : w.getLsbD j = true := by
  have hne := List.find?_eq_none.1 h j (List.mem_range.2 hj)
  rw [beq_iff_eq] at hne
  by_contra hfalse
  refine hne (BitVec.eq_of_getLsbD_eq fun i hi => ?_)
  rw [BitVec.getLsbD_and, getLsbD_one_shiftLeft hj, BitVec.getLsbD_zero]
  by_cases heq : i = j
  · simpa [heq] using hfalse
  · simp [heq]

/-- The search fails only when no bit is clear. -/
theorem exists_firstClear {m : Bitmap} {n f : Nat} (hf : f ∈ m.clearBits n) :
    ∃ g, m.firstClear n = some g := by
  obtain ⟨hlt, hclear⟩ := mem_clearBits.1 hf
  refine Option.ne_none_iff_exists'.1 fun hnone => ?_
  have hword := List.findSome?_eq_none_iff.1 hnone (f / 32) (List.mem_range.2 (by omega))
  have hbit : (m (f / 32)).getLsbD (f % 32) = true := by
    split at hword
    · next hfull =>
      rw [hfull, show 0xFFFFFFFF#32 = BitVec.allOnes 32 by decide, BitVec.getLsbD_allOnes]
      exact decide_eq_true (by omega)
    · exact getLsbD_of_clearBit_eq_none (Option.map_eq_none_iff.1 hword) (by omega)
  rw [test, hbit] at hclear
  cases hclear

theorem le_of_clearBit {w : BitVec 32} {i j : Nat} (h : clearBit w = some j)
    (hi : w.getLsbD i = false) : j ≤ i := by
  by_contra hlt
  obtain ⟨-, -, hbelow⟩ := List.find?_range_eq_some.1 h
  have hj := (getLsbD_of_clearBit h).1
  have hne := hbelow i (by omega)
  rw [Bool.not_eq_true', beq_eq_false_iff_ne] at hne
  refine hne (BitVec.eq_of_getLsbD_eq fun k hk => ?_)
  rw [BitVec.getLsbD_and, getLsbD_one_shiftLeft (by omega), BitVec.getLsbD_zero]
  by_cases heq : k = i
  · simp [heq, hi]
  · simp [heq]

/-- The search finds the lowest clear bit. -/
theorem firstClear_le {m : Bitmap} {n f g : Nat} (h : m.firstClear n = some g)
    (hf : m.test f = false) : g ≤ f := by
  induction n with
  | zero => cases h
  | succ n ih =>
    unfold firstClear at h
    rw [List.range_succ, List.findSome?_append] at h
    cases hrec : m.firstClear n with
    | some g' =>
      have hor := h
      unfold firstClear at hrec
      rw [hrec] at hor
      obtain rfl := Option.some.inj hor
      exact ih hrec
    | none =>
      -- every bit of the words before is set
      have hge : n * 32 ≤ f := by
        by_contra hlt
        obtain ⟨g', hg'⟩ := exists_firstClear (mem_clearBits.2 ⟨Nat.lt_of_not_le hlt, hf⟩)
        rw [hrec] at hg'
        cases hg'
      unfold firstClear at hrec
      rw [hrec, Option.none_or] at h
      simp only [List.findSome?_cons, List.findSome?_nil] at h
      split at h
      · next g' hword =>
        obtain rfl := Option.some.inj h
        split at hword
        · cases hword
        · obtain ⟨j, hj, rfl⟩ := Option.map_eq_some_iff.1 hword
          have hlt := (getLsbD_of_clearBit hj).1
          by_cases hw : f / 32 = n
          · unfold test at hf
            rw [hw] at hf
            have := le_of_clearBit hj hf
            omega
          · omega
      · cases h

/-- With the bits below `f` set and `f` clear, the search finds `f`. -/
theorem firstClear_eq {m : Bitmap} {n f : Nat} (hlt : f < n * 32)
    (hbelow : ∀ g < f, m.test g = true) (hclear : m.test f = false) :
    m.firstClear n = some f := by
  obtain ⟨g, hg⟩ := exists_firstClear (mem_clearBits.2 ⟨hlt, hclear⟩)
  have hle := firstClear_le hg hclear
  have hge : ¬g < f := fun hgf => by
    have hset := hbelow g hgf
    rw [(firstClear_spec hg).2] at hset
    cases hset
  rw [hg, Nat.le_antisymm hle (Nat.le_of_not_lt hge)]

theorem card_clearBits_set {m : Bitmap} {n f : Nat} (hf : f ∈ m.clearBits n) :
    ((m.set f).clearBits n).card + 1 = (m.clearBits n).card := by
  have herase : (m.set f).clearBits n = (m.clearBits n).erase f := by
    ext g
    rw [mem_clearBits, Finset.mem_erase, mem_clearBits, test_set]
    by_cases hg : g = f
    · simp [hg]
    · simp [hg]
  rw [herase, Finset.card_erase_add_one hf]

end Bitmap

end Ulysses.Lib
