import Mathlib.Data.Nat.Digits.Defs
import Ulysses.Lib.CString
import Ulysses.Lib.Word

/-!
# Octal fields

`ato8` of `tar.cpp`. Its first loop goes past the zeros in front, up to any other character;
the second one multiplies behind every digit but the last, so that before the digit at index
`i` the result is eight times the number that the digits in front of it denote
(`ato8Loop_digits`). `ato8Reads` is the same function with the indices that it reads.
-/

namespace Ulysses.Tar

open Lib

/-- A `char` as an `int`. -/
def charVal (c : UInt8) : Int := if c.toNat < 128 then c.toNat else c.toNat - 256

/-- The second loop of `ato8`. It is over when `i` comes to `size`, so `size - i` turns are
enough. -/
def ato8Loop (buf : Bytes) (size : Nat) : Nat → Nat → Nat → Nat
  | 0, _, out => out
  | n + 1, i, out =>
    if i < size ∧ buf i ≠ 0 then
      let out := ((out + (charVal (buf i) - 48)) % 4294967296).toNat
      let out := if i < size - 1 then mul32 out 8 else out
      ato8Loop buf size n (i + 1) out
    else out

/-- `ato8` of a field from which `limit` bytes of the buffer `out` are left. Its first loop
has no bound of its own. -/
def ato8 (limit : Nat) (buf : Bytes) (size : Nat) : Nat :=
  let i := (((List.range limit).map buf).takeWhile (· == 48)).length
  ato8Loop buf size (size - i) i 0

/-! ## With the indices read -/

/-- The first loop. Without fuel there is no result. -/
def skipZeros (buf : Bytes) : Nat → Nat → List Nat → Option (Nat × List Nat)
  | 0, _, _ => none
  | fuel + 1, i, reads =>
    if buf i = 48 then skipZeros buf fuel (i + 1) (i :: reads) else some (i, i :: reads)

/-- The second loop. -/
def addDigits (buf : Bytes) (size : Nat) : Nat → Nat → Nat → List Nat → Option (Nat × List Nat)
  | 0, _, _, _ => none
  | fuel + 1, i, out, reads =>
    if i < size then
      let reads := i :: reads
      if buf i ≠ 0 then
        let out := ((out + (charVal (buf i) - 48)) % 4294967296).toNat
        let out := if i < size - 1 then mul32 out 8 else out
        addDigits buf size fuel (i + 1) out reads
      else some (out, reads)
    else some (out, reads)

def ato8Reads (fuel : Nat) (buf : Bytes) (size : Nat) : Option (Nat × List Nat) :=
  (skipZeros buf fuel 0 []).bind fun (i, reads) => addDigits buf size fuel i 0 reads

/-! ## The number -/

/-- The number that the first `i` digits denote. -/
def valueUpTo (digits : List Nat) (i : Nat) : Nat := Nat.ofDigits 8 (digits.take i).reverse

theorem valueUpTo_length (digits : List Nat) :
    valueUpTo digits digits.length = Nat.ofDigits 8 digits.reverse := by
  unfold valueUpTo
  rw [List.take_length]

theorem valueUpTo_succ {digits : List Nat} {i : Nat} (hi : i < digits.length) :
    valueUpTo digits (i + 1) = digits[i] + 8 * valueUpTo digits i := by
  unfold valueUpTo
  rw [← List.take_append_getElem hi, List.reverse_append, List.reverse_singleton,
    List.singleton_append, Nat.ofDigits_cons]

theorem charVal_digit {d : Nat} (hd : d < 8) : charVal (UInt8.ofNat (48 + d)) = 48 + d := by
  unfold charVal
  rw [UInt8.toNat_ofNat', Nat.mod_eq_of_lt (by omega), if_pos (by omega)]
  omega

theorem digit_ne_zero {d : Nat} (hd : d < 8) : UInt8.ofNat (48 + d) ≠ 0 := by
  intro h
  have := congrArg UInt8.toNat h
  rw [UInt8.toNat_ofNat', Nat.mod_eq_of_lt (by omega)] at this
  simp at this

section

variable {buf : Bytes} {digits : List Nat}

/-- In front of the digit at `i` the result is eight times the value up to there. -/
theorem ato8Loop_digits (hdigits : ∀ d ∈ digits, d < 8)
    (hbuf : ∀ i (hi : i < digits.length), buf i = UInt8.ofNat (48 + digits[i])) {i n : Nat}
    (hi : i + n = digits.length) :
    ato8Loop buf digits.length n i
        (if n = 0 then valueUpTo digits i % 4294967296 else 8 * valueUpTo digits i % 4294967296) =
      Nat.ofDigits 8 digits.reverse % 4294967296 := by
  induction n generalizing i with
  | zero =>
    obtain rfl : i = digits.length := hi
    rw [if_pos rfl, valueUpTo_length]
    rfl
  | succ n ih =>
    have hlt : i < digits.length := by omega
    have hd : digits[i] < 8 := hdigits _ (List.getElem_mem hlt)
    have hout : (((8 * valueUpTo digits i % 4294967296 : Nat) +
        (48 + (digits[i] : Int) - 48)) % 4294967296).toNat =
          valueUpTo digits (i + 1) % 4294967296 := by
      rw [valueUpTo_succ hlt]
      omega
    have hrest := ih (i := i + 1) (by omega)
    rw [if_neg (Nat.succ_ne_zero n), ato8Loop, hbuf i hlt, if_pos ⟨hlt, digit_ne_zero hd⟩,
      charVal_digit hd, hout]
    dsimp only
    by_cases hn : n = 0
    · rw [if_pos hn] at hrest
      rw [if_neg (by omega)]
      exact hrest
    · have hmul : mul32 (valueUpTo digits (i + 1) % 4294967296) 8 =
          8 * valueUpTo digits (i + 1) % 4294967296 := by
        unfold mul32
        rw [Nat.mod_mul_mod, Nat.mul_comm]
      rw [if_neg hn] at hrest
      rw [if_pos (by omega), hmul]
      exact hrest

theorem valueUpTo_of_zeros (hdigits : ∀ d ∈ digits, d < 8)
    (hbuf : ∀ i (hi : i < digits.length), buf i = UInt8.ofNat (48 + digits[i])) {i : Nat}
    (hi : i ≤ digits.length) (hzeros : ∀ j < i, buf j = 48) : valueUpTo digits i = 0 := by
  induction i with
  | zero => rfl
  | succ i ih =>
    have hprev := ih (Nat.le_of_succ_le hi) fun j hj => hzeros j (Nat.lt_succ_of_lt hj)
    have hd : digits[i] < 8 := hdigits _ (List.getElem_mem hi)
    have hdigit := congrArg UInt8.toNat ((hbuf i hi).symm.trans (hzeros i (Nat.lt_succ_self i)))
    rw [UInt8.toNat_ofNat', Nat.mod_eq_of_lt (by omega)] at hdigit
    have h48 : (48 : UInt8).toNat = 48 := rfl
    rw [valueUpTo_succ hi, hprev]
    omega

theorem ato8Loop_of_zeros (hdigits : ∀ d ∈ digits, d < 8)
    (hbuf : ∀ i (hi : i < digits.length), buf i = UInt8.ofNat (48 + digits[i])) {i : Nat}
    (hi : i ≤ digits.length) (hzeros : ∀ j < i, buf j = 48) :
    ato8Loop buf digits.length (digits.length - i) i 0 =
      Nat.ofDigits 8 digits.reverse % 4294967296 := by
  have hloop := ato8Loop_digits hdigits hbuf (Nat.add_sub_cancel' hi)
  rw [valueUpTo_of_zeros hdigits hbuf hi hzeros] at hloop
  rwa [Nat.mul_zero, Nat.zero_mod, ite_self] at hloop

theorem ato8_digits (hdigits : ∀ d ∈ digits, d < 8)
    (hbuf : ∀ i (hi : i < digits.length), buf i = UInt8.ofNat (48 + digits[i]))
    (hend : buf digits.length ≠ 48) (limit : Nat) :
    ato8 limit buf digits.length = Nat.ofDigits 8 digits.reverse % 4294967296 := by
  unfold ato8
  generalize hi : (((List.range limit).map buf).takeWhile (· == 48)).length = i
  -- the bytes that the first loop goes past are zeros
  have hzeros : ∀ j < i, buf j = 48 := by
    intro j hj
    have hlen : j < (((List.range limit).map buf).takeWhile (· == 48)).length := hi ▸ hj
    have hmem := List.mem_takeWhile_imp (List.getElem_mem hlen)
    rw [(List.takeWhile_prefix _).getElem, List.getElem_map, List.getElem_range] at hmem
    exact eq_of_beq hmem
  have hle : i ≤ digits.length := by
    by_contra hgt
    exact hend (hzeros _ (Nat.lt_of_not_le hgt))
  exact ato8Loop_of_zeros hdigits hbuf hle hzeros

/-! ## The loops -/

theorem skipZeros_eq {n i fuel : Nat} {reads : List Nat} (hend : buf n ≠ 48) (hi : i ≤ n)
    (hfuel : n - i < fuel) (hreads : ∀ j ∈ reads, j ≤ n) (hzeros : ∀ j < i, buf j = 48) :
    ∃ k reads', skipZeros buf fuel i reads = some (k, reads') ∧ k ≤ n ∧ (∀ j < k, buf j = 48) ∧
      ∀ j ∈ reads', j ≤ n := by
  induction fuel generalizing i reads with
  | zero => exact absurd hfuel (Nat.not_lt_zero _)
  | succ fuel ih =>
    have hreads' : ∀ j ∈ i :: reads, j ≤ n := by
      intro j hj
      rcases List.mem_cons.1 hj with rfl | hj
      · exact hi
      · exact hreads j hj
    unfold skipZeros
    by_cases hzero : buf i = 48
    · have hne : i ≠ n := by
        rintro rfl
        exact hend hzero
      rw [if_pos hzero]
      refine ih (by omega) (by omega) hreads' ?_
      intro j hj
      rcases Nat.lt_succ_iff_lt_or_eq.1 hj with hj | rfl
      · exact hzeros j hj
      · exact hzero
    · rw [if_neg hzero]
      exact ⟨i, i :: reads, rfl, hi, hzeros, hreads'⟩

/-- The second loop computes what `ato8Loop` does. -/
theorem addDigits_eq {size i fuel out : Nat} {reads : List Nat} (hfuel : size - i < fuel)
    (hreads : ∀ j ∈ reads, j ≤ size) :
    ∃ reads', addDigits buf size fuel i out reads =
        some (ato8Loop buf size (size - i) i out, reads') ∧ ∀ j ∈ reads', j ≤ size := by
  induction fuel generalizing i out reads with
  | zero => exact absurd hfuel (Nat.not_lt_zero _)
  | succ fuel ih =>
    unfold addDigits
    by_cases hi : i < size
    · have hreads' : ∀ j ∈ i :: reads, j ≤ size := by
        intro j hj
        rcases List.mem_cons.1 hj with rfl | hj
        · exact Nat.le_of_lt hi
        · exact hreads j hj
      rw [if_pos hi, show size - i = size - (i + 1) + 1 by omega]
      unfold ato8Loop
      by_cases hzero : buf i = 0
      · rw [if_neg (not_not.2 hzero), if_neg fun h => h.2 hzero]
        exact ⟨i :: reads, rfl, hreads'⟩
      · rw [if_pos hzero, if_pos ⟨hi, hzero⟩]
        exact ih (by omega) hreads'
    · rw [if_neg hi, show size - i = 0 by omega]
      exact ⟨reads, rfl, hreads⟩

end

/-- **Octal fields**: eleven octal digits and a NUL give the number that the digits denote, in
32 bits, and no character behind the NUL is read. -/
theorem ato8Reads_field {buf : Bytes} {digits : List Nat} (hlen : digits.length = 11)
    (hdigits : ∀ d ∈ digits, d < 8)
    (hbuf : buf.HasCString 0 (digits.map fun d => UInt8.ofNat (48 + d))) {fuel : Nat}
    (hfuel : 11 < fuel) :
    ∃ reads, ato8Reads fuel buf 11 =
        some (Nat.ofDigits 8 digits.reverse % 4294967296, reads) ∧ ∀ i ∈ reads, i ≤ 11 := by
  obtain ⟨hchars, hnul⟩ := hbuf
  rw [List.length_map, hlen] at hnul
  have hbuf : ∀ i (hi : i < digits.length), buf i = UInt8.ofNat (48 + digits[i]) := by
    intro i hi
    have hchar := hchars i (by rwa [List.length_map])
    rwa [Nat.zero_add, List.getElem_map] at hchar
  have hend : buf 11 ≠ 48 := by
    rw [show 11 = 0 + 11 from rfl, hnul]
    decide
  obtain ⟨i, reads, hskip, hi, hzeros, hreads⟩ :=
    skipZeros_eq hend (Nat.zero_le 11) hfuel (List.forall_mem_nil (· ≤ 11)) nofun
  obtain ⟨reads', hloop, hreads'⟩ :=
    @addDigits_eq buf 11 i fuel 0 reads (Nat.lt_of_le_of_lt (Nat.sub_le 11 i) hfuel) hreads
  refine ⟨reads', ?_, hreads'⟩
  rw [← hlen] at hi
  have hvalue := ato8Loop_of_zeros hdigits hbuf hi hzeros
  rw [hlen] at hvalue
  unfold ato8Reads
  rw [hskip, Option.bind_some]
  dsimp only
  rw [hloop, hvalue]

/-- The largest field, and the one of zeros only. -/
theorem ato8Reads_field_bounds :
    (∃ reads, ato8Reads 12 (fun i => if i < 11 then 55 else 0) 11 = some (4294967295, reads) ∧
      ∀ i ∈ reads, i ≤ 11) ∧
    ∃ reads, ato8Reads 12 (fun i => if i < 11 then 48 else 0) 11 = some (0, reads) ∧
      ∀ i ∈ reads, i ≤ 11 := by
  have hfield : ∀ d, d < 8 → Bytes.HasCString
      (fun i => if i < 11 then UInt8.ofNat (48 + d) else 0) 0
      ((List.replicate 11 d).map fun d => UInt8.ofNat (48 + d)) := by
    intro d _
    refine ⟨?_, rfl⟩
    intro i hi
    rw [List.map_replicate, List.length_replicate] at hi
    simp only [List.map_replicate, List.getElem_replicate, Nat.zero_add, if_pos hi]
  constructor
  · exact ato8Reads_field List.length_replicate (by decide) (hfield 7 (by decide)) (by decide)
  · exact ato8Reads_field List.length_replicate (by decide) (hfield 0 (by decide)) (by decide)

end Ulysses.Tar
