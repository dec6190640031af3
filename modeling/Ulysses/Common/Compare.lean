import Ulysses.Lib.CString
import Ulysses.Lib.Word
import Ulysses.SysString

/-!
# Comparing strings

`strcmp` and `strncmp` of `common.cpp`, over the memory that the strings lie in, with the
addresses that are read through each argument. An index is an `int`; the address that it
gives is counted modulo `2 ^ 32`, so that a string may be longer than the indices that are not
negative. Neither function reads a string past its end (`compare_strings`).
-/

namespace Ulysses.Common

open Lib Lib.Bytes

/-- The addresses read through the first and the second argument. -/
structure Reads where
  first : List Nat
  second : List Nat

namespace Reads

def readFirst (x : Nat) (r : Reads) : Reads := { r with first := x :: r.first }

def readSecond (x : Nat) (r : Reads) : Reads := { r with second := x :: r.second }

end Reads

/-- The address of `str[i]`. -/
def index (str : Nat) (i : Int) : Nat := u32 (str + i)

/-- The loop of `strcmp`, to `i` and `failed`. Without fuel there is no result. -/
def strcmpLoop (m : Bytes) (str1 str2 : Nat) : Nat → Int → Reads → Option (Int × Int × Reads)
  | 0, _, _ => none
  | fuel + 1, i, r =>
    let r := r.readFirst (index str1 i)
    if m (index str1 i) ≠ 0 then
      let r := r.readSecond (index str2 i)
      if m (index str2 i) ≠ 0 then
        if m (index str1 i) ≠ m (index str2 i) then some (i, 1, r)
        else strcmpLoop m str1 str2 fuel (s32 (i + 1)) r
      else some (i, 0, r)
    else some (i, 0, r)

/-- "why did the loop exit?" -/
def strcmpExit (m : Bytes) (str1 str2 : Nat) (exit : Int × Int × Reads) : Int × Reads :=
  let i := exit.1
  let r := (exit.2.2.readFirst (index str1 i)).readSecond (index str2 i)
  if (m (index str1 i) = 0 ∧ m (index str2 i) ≠ 0) ∨ (m (index str1 i) ≠ 0 ∧ m (index str2 i) = 0)
  then (1, r) else (exit.2.1, r)

def strcmp (m : Bytes) (str1 str2 : Nat) : Option (Int × Reads) :=
  (strcmpLoop m str1 str2 4294967296 0 ⟨[], []⟩).map (strcmpExit m str1 str2)

/-- The loop of `strncmp`. -/
def strncmpLoop (m : Bytes) (str1 str2 : Nat) (len : Int) :
    Nat → Int → Reads → Option (Int × Reads)
  | 0, _, _ => none
  | fuel + 1, i, r =>
    if i < len then
      let r := r.readFirst (index str1 i)
      if m (index str1 i) = 0 then
        let r := r.readSecond (index str2 i)
        if m (index str2 i) = 0 then some (0, r) else some (-1, r)
      else
        let r := r.readSecond (index str2 i)
        if m (index str1 i) ≠ m (index str2 i) then some (1, r)
        else strncmpLoop m str1 str2 len fuel (s32 (i + 1)) r
    else some (0, r)

def strncmp (m : Bytes) (str1 str2 : Nat) (len : Int) : Option (Int × Reads) :=
  strncmpLoop m str1 str2 len 4294967296 0 ⟨[], []⟩

/-! ## The loops -/

theorem index_natCast {str k : Nat} (h : str + k < 4294967296) : index str k = str + k := by
  have hcast := u32_cast (str + k : Nat)
  rw [Int.emod_eq_of_lt (by omega) (by omega)] at hcast
  exact Int.ofNat_inj.1 hcast

theorem index_s32 {str k : Nat} (h : str + k < 4294967296) : index str (s32 k) = str + k := by
  have hmod : ((str : Int) + s32 k) % 4294967296 = (str + k : Int) % 4294967296 := by
    rw [Int.add_comm, s32_add_emod, Int.add_comm]
  rw [← index_natCast h]
  unfold index u32
  rw [hmod]

/-- The reads lie in `[a, a')` and in `[b, b')`. -/
structure Reads.Inside (r : Reads) (a a' b b' : Nat) : Prop where
  first : ∀ x ∈ r.first, a ≤ x ∧ x < a'
  second : ∀ x ∈ r.second, b ≤ x ∧ x < b'

section

variable {m : Bytes} {a a' b b' : Nat} {r : Reads}

theorem Reads.Inside.readFirst {x : Nat} (h : r.Inside a a' b b') (hlo : a ≤ x) (hhi : x < a') :
    (r.readFirst x).Inside a a' b b' := by
  refine ⟨?_, h.second⟩
  intro y hy
  rcases List.mem_cons.1 hy with rfl | hy
  · exact ⟨hlo, hhi⟩
  · exact h.first y hy

theorem Reads.Inside.readSecond {x : Nat} (h : r.Inside a a' b b') (hlo : b ≤ x) (hhi : x < b') :
    (r.readSecond x).Inside a a' b b' := by
  refine ⟨h.first, ?_⟩
  intro y hy
  rcases List.mem_cons.1 hy with rfl | hy
  · exact ⟨hlo, hhi⟩
  · exact h.second y hy

theorem strcmpExit_eq {k : Nat} (ha : a + k < 4294967296) (hb : b + k < 4294967296) (failed : Int)
    (r : Reads) :
    strcmpExit m a b (s32 k, failed, r) =
      (if m (a + k) = 0 ↔ m (b + k) = 0 then failed else 1,
        (r.readFirst (a + k)).readSecond (b + k)) := by
  unfold strcmpExit
  dsimp only
  rw [index_s32 ha, index_s32 hb]
  by_cases h1 : m (a + k) = 0
  · by_cases h2 : m (b + k) = 0
    · rw [if_neg (by simp [h1, h2]), if_pos (iff_of_true h1 h2)]
    · rw [if_pos (.inl ⟨h1, h2⟩), if_neg fun h => h2 (h.1 h1)]
  · by_cases h2 : m (b + k) = 0
    · rw [if_pos (.inr ⟨h1, h2⟩), if_neg fun h => h1 (h.2 h2)]
    · rw [if_neg (by simp [h1, h2]), if_pos (iff_of_false h1 h2)]

theorem Reads.Inside.readBoth {k : Nat} (h : r.Inside a a' b b') (ha : a + k < a')
    (hb : b + k < b') : ((r.readFirst (a + k)).readSecond (b + k)).Inside a a' b b' :=
  (h.readFirst (by omega) ha).readSecond (by omega) hb

/-- What the first bytes say about two strings: both end, they differ, or they go on with the
same character. -/
theorem first_cases {x y : Nat} {s t : List UInt8} (hs : HasCString m x s) (hs0 : 0 ∉ s)
    (ht : HasCString m y t) (ht0 : 0 ∉ t) :
    (m x = 0 ∧ m y = 0 ∧ s = [] ∧ t = []) ∨ (m x ≠ m y ∧ s.head? ≠ t.head?) ∨
      ∃ c s' t', s = c :: s' ∧ t = c :: t' ∧ m x = m y ∧ m y ≠ 0 ∧ HasCString m (x + 1) s' ∧
        HasCString m (y + 1) t' ∧ 0 ∉ s' ∧ 0 ∉ t' := by
  cases s with
  | nil =>
    have hx := hasCString_nil.1 hs
    cases t with
    | nil => exact .inl ⟨hx, hasCString_nil.1 ht, rfl, rfl⟩
    | cons d t =>
      refine .inr (.inl ⟨?_, nofun⟩)
      rw [hx, (hasCString_cons.1 ht).1]
      exact List.ne_of_not_mem_cons ht0
  | cons c s =>
    obtain ⟨hx, hs'⟩ := hasCString_cons.1 hs
    have hc := (List.ne_of_not_mem_cons hs0).symm
    cases t with
    | nil =>
      refine .inr (.inl ⟨?_, nofun⟩)
      rw [hx, hasCString_nil.1 ht]
      exact hc
    | cons d t =>
      obtain ⟨hy, ht'⟩ := hasCString_cons.1 ht
      by_cases hcd : c = d
      · subst hcd
        exact .inr (.inr ⟨c, s, t, rfl, rfl, hx.trans hy.symm, hy ▸ hc, hs', ht',
          List.not_mem_of_not_mem_cons hs0, List.not_mem_of_not_mem_cons ht0⟩)
      · refine .inr (.inl ⟨?_, fun h => hcd (Option.some.inj h)⟩)
        rw [hx, hy]
        exact hcd

/-- A turn that sees two different characters is the last one. -/
theorem strcmpLoop_differ {k : Nat} (hak : a + k < a') (hbk : b + k < b') (ha' : a' ≤ 4294967296)
    (hb' : b' ≤ 4294967296) (hr : r.Inside a a' b b') (hne : m (a + k) ≠ m (b + k)) (fuel : Nat) :
    ∃ exit, strcmpLoop m a b (fuel + 1) (s32 k) r = some exit ∧
      (strcmpExit m a b exit).1 = 1 ∧ (strcmpExit m a b exit).2.Inside a a' b b' := by
  have hak' : a + k < 4294967296 := by omega
  have hbk' : b + k < 4294967296 := by omega
  unfold strcmpLoop
  rw [index_s32 hak', index_s32 hbk']
  by_cases hx : m (a + k) = 0
  · have hy : m (b + k) ≠ 0 := fun hy => hne (hx.trans hy.symm)
    refine ⟨_, if_neg (not_not.2 hx), ?_, ?_⟩
    · rw [strcmpExit_eq hak' hbk']
      exact if_neg fun h => hy (h.1 hx)
    · rw [strcmpExit_eq hak' hbk']
      exact (hr.readFirst (by omega) hak).readBoth hak hbk
  · have hread := (hr.readBoth hak hbk).readBoth hak hbk
    rw [if_pos hx]
    by_cases hy : m (b + k) = 0
    · refine ⟨_, if_neg (not_not.2 hy), ?_, ?_⟩
      · rw [strcmpExit_eq hak' hbk']
        exact if_neg fun h => hx (h.2 hy)
      · rw [strcmpExit_eq hak' hbk']
        exact hread
    · rw [if_pos hy]
      refine ⟨_, if_pos hne, ?_, ?_⟩
      · rw [strcmpExit_eq hak' hbk']
        exact if_pos (iff_of_false hx hy)
      · rw [strcmpExit_eq hak' hbk']
        exact hread

/-- The loop from index `k` on, where `s` and `t` are left of the strings. -/
theorem strcmpLoop_eq {s t : List UInt8} {k fuel : Nat} (hs : HasCString m (a + k) s)
    (hs0 : 0 ∉ s) (ht : HasCString m (b + k) t) (ht0 : 0 ∉ t) (ha : a + k + s.length < a')
    (hb : b + k + t.length < b') (ha' : a' ≤ 4294967296) (hb' : b' ≤ 4294967296)
    (hfuel : s.length < fuel) (hr : r.Inside a a' b b') :
    ∃ exit, strcmpLoop m a b fuel (s32 k) r = some exit ∧
      ((strcmpExit m a b exit).1 = 0 ↔ s = t) ∧ (strcmpExit m a b exit).2.Inside a a' b b' := by
  induction fuel generalizing s t k r with
  | zero => exact absurd hfuel (Nat.not_lt_zero _)
  | succ fuel ih =>
    have hak : a + k < a' := by omega
    have hbk : b + k < b' := by omega
    rcases first_cases hs hs0 ht ht0 with ⟨hx, hy, rfl, rfl⟩ | ⟨hne, hhead⟩ |
      ⟨c, s, t, rfl, rfl, hxy, hy, hs', ht', hs0', ht0'⟩
    · refine ⟨(s32 k, 0, r.readFirst (a + k)), ?_, ?_, ?_⟩
      · unfold strcmpLoop
        rw [index_s32 (by omega), if_neg (not_not.2 hx)]
      · rw [strcmpExit_eq (by omega) (by omega)]
        exact iff_of_true (if_pos (iff_of_true hx hy)) rfl
      · rw [strcmpExit_eq (by omega) (by omega)]
        exact (hr.readFirst (by omega) hak).readBoth hak hbk
    · obtain ⟨exit, hloop, hone, hinside⟩ := strcmpLoop_differ hak hbk ha' hb' hr hne fuel
      refine ⟨exit, hloop, ?_, hinside⟩
      rw [hone]
      exact iff_of_false Int.one_ne_zero fun h => hhead (congrArg List.head? h)
    · rw [List.length_cons] at ha hb hfuel
      have hsucc : s32 (s32 k + 1) = s32 (k + 1 : Nat) := s32_s32_add k 1
      unfold strcmpLoop
      rw [index_s32 (by omega), index_s32 (by omega), hxy, if_pos hy, if_pos hy,
        if_neg (not_not.2 rfl), hsucc, List.cons_inj_right]
      exact ih hs' hs0' ht' ht0' (by omega) (by omega) (Nat.lt_of_succ_lt_succ hfuel)
        (hr.readBoth hak hbk)

/-- The loop from index `k` on, with `j` characters to compare. -/
theorem strncmpLoop_eq {s t : List UInt8} {k j n fuel : Nat} (hn : n < 2147483648)
    (hj : k + j = n) (hs : HasCString m (a + k) s) (hs0 : 0 ∉ s) (ht : HasCString m (b + k) t)
    (ht0 : 0 ∉ t) (hs' : a + k + s.length < 4294967296) (ht' : b + k + t.length < 4294967296)
    (ha : a + k + min (s.length + 1) j ≤ a') (hb : b + k + min (t.length + 1) j ≤ b')
    (hfuel : j < fuel) (hr : r.Inside a a' b b') :
    ∃ result reads, strncmpLoop m a b n fuel k r = some (result, reads) ∧
      (result = 0 ↔ s.take j = t.take j) ∧ reads.Inside a a' b b' := by
  induction j generalizing s t k fuel r with
  | zero =>
    obtain ⟨fuel, rfl⟩ := Nat.exists_eq_succ_of_ne_zero (Nat.ne_of_gt hfuel)
    refine ⟨0, r, ?_, iff_of_true rfl rfl, hr⟩
    unfold strncmpLoop
    rw [if_neg (by omega)]
  | succ j ih =>
    obtain ⟨fuel, rfl⟩ := Nat.exists_eq_succ_of_ne_zero (Nat.ne_of_gt (Nat.zero_lt_of_lt hfuel))
    have hread : ((r.readFirst (a + k)).readSecond (b + k)).Inside a a' b b' :=
      hr.readBoth (by omega) (by omega)
    unfold strncmpLoop
    rw [if_pos (by omega), index_natCast (by omega), index_natCast (by omega)]
    rcases first_cases hs hs0 ht ht0 with ⟨hx, hy, rfl, rfl⟩ | ⟨hne, hhead⟩ |
      ⟨c, s, t, rfl, rfl, hxy, hy, hs₁, ht₁, hs0', ht0'⟩
    · exact ⟨0, _, by rw [if_pos hx, if_pos hy], iff_of_true rfl rfl, hread⟩
    · have htake : s.take (j + 1) ≠ t.take (j + 1) := by
        intro h
        have hfirst := congrArg List.head? h
        rw [List.head?_take, List.head?_take, if_neg (Nat.succ_ne_zero j)] at hfirst
        exact hhead hfirst
      by_cases hx : m (a + k) = 0
      · rw [if_pos hx, if_neg fun hy => hne (hx.trans hy.symm)]
        exact ⟨-1, _, rfl, iff_of_false (by decide) htake, hread⟩
      · rw [if_neg hx, if_pos hne]
        exact ⟨1, _, rfl, iff_of_false Int.one_ne_zero htake, hread⟩
    · rw [List.length_cons] at hs' ht' ha hb
      have hnext := ih (k := k + 1) (by omega) hs₁ hs0' ht₁ ht0' (by omega) (by omega) (by omega)
        (by omega) (Nat.lt_of_succ_lt_succ hfuel) hread
      rw [hxy, if_neg hy, if_neg (not_not.2 rfl), s32_eq (by omega) (by omega),
        List.take_succ_cons, List.take_succ_cons, List.cons_inj_right]
      exact hnext

theorem strncmpLoop_value {k j n fuel : Nat} (hn : n < 2147483648) (hj : k + j = n)
    (hfuel : j < fuel) :
    (strncmpLoop m a b n fuel k r).map Prod.fst =
      some (Fs.Name.strncmp ((List.range' k j).map fun i : Nat => m (index a i))
        ((List.range' k j).map fun i : Nat => m (index b i))) := by
  induction j generalizing k fuel r with
  | zero =>
    obtain ⟨fuel, rfl⟩ := Nat.exists_eq_succ_of_ne_zero (Nat.ne_of_gt hfuel)
    unfold strncmpLoop
    rw [if_neg (by omega)]
    rfl
  | succ j ih =>
    obtain ⟨fuel, rfl⟩ := Nat.exists_eq_succ_of_ne_zero (Nat.ne_of_gt (Nat.zero_lt_of_lt hfuel))
    rw [List.range'_succ, List.map_cons, List.map_cons]
    unfold strncmpLoop Fs.Name.strncmp
    rw [if_pos (by omega), s32_eq (by omega) (by omega)]
    split_ifs
    · rfl
    · rfl
    · rfl
    · exact ih (k := k + 1) (by omega) (Nat.lt_of_succ_lt_succ hfuel)

/-- The value of `strncmp` is the one that the names and the strings are compared with. -/
theorem strncmp_value {len : Int} (hlen : len < 2147483648) :
    (strncmp m a b len).map Prod.fst =
      some (SysString.strncmp (fun i => m (index a i)) (fun i => m (index b i)) len) := by
  unfold strncmp SysString.strncmp
  rcases Int.lt_or_le len 0 with hneg | hpos
  · rw [Int.toNat_of_nonpos hneg.le]
    unfold strncmpLoop
    rw [if_neg (by omega)]
    rfl
  · obtain ⟨n, rfl⟩ := Int.eq_ofNat_of_zero_le hpos
    rw [Int.toNat_natCast, List.range_eq_range']
    exact strncmpLoop_value (k := 0) (by omega) (Nat.zero_add n) (by omega)

end

theorem take_eq_take_iff {s t : List UInt8} (n : Nat) :
    s.take n = t.take n ↔
      (n ≤ s.length ∧ n ≤ t.length ∧ s.take n = t.take n) ∨ (s = t ∧ s.length < n) := by
  constructor
  · intro h
    have hlength := congrArg List.length h
    rw [List.length_take, List.length_take] at hlength
    rcases Nat.lt_or_ge s.length n with hs | hs
    · right
      rw [List.take_of_length_le (by omega), List.take_of_length_le (by omega)] at h
      exact ⟨h, hs⟩
    · exact .inl ⟨hs, by omega, h⟩
  · rintro (⟨_, _, h⟩ | ⟨rfl, _⟩)
    · exact h
    · rfl

/-- `strcmp` tells whether the strings are equal, `strncmp` whether they agree on their first
`n` characters or are equal and shorter. No string is read past its zero byte, and `strncmp`
reads only the first `n` bytes. -/
theorem compare_strings {m : Bytes} {a b : Nat} {s t : List UInt8} (hs : HasCString m a s)
    (hs0 : 0 ∉ s) (ha : a + s.length < 4294967296) (ht : HasCString m b t) (ht0 : 0 ∉ t)
    (hb : b + t.length < 4294967296) :
    (∃ result reads, strcmp m a b = some (result, reads) ∧ (result = 0 ↔ s = t) ∧
      reads.Inside a (a + s.length + 1) b (b + t.length + 1)) ∧
    ∀ n : Nat, n < 2147483648 →
      ∃ result reads, strncmp m a b n = some (result, reads) ∧
        (result = 0 ↔ (n ≤ s.length ∧ n ≤ t.length ∧ s.take n = t.take n) ∨
          (s = t ∧ s.length < n)) ∧
        reads.Inside a (a + min (s.length + 1) n) b (b + min (t.length + 1) n) := by
  constructor
  · have hnone : Reads.Inside ⟨[], []⟩ a (a + s.length + 1) b (b + t.length + 1) := ⟨nofun, nofun⟩
    obtain ⟨exit, hloop, hiff, hinside⟩ :=
      strcmpLoop_eq (k := 0) hs hs0 ht ht0 (Nat.lt_succ_self _) (Nat.lt_succ_self _) ha hb
        (Nat.lt_of_le_of_lt (Nat.le_add_left _ _) ha) hnone
    refine ⟨_, _, ?_, hiff, hinside⟩
    unfold strcmp
    exact congrArg (Option.map _) hloop
  · intro n hn
    have hfuel : n < 4294967296 := by omega
    have hnone : Reads.Inside ⟨[], []⟩ a (a + min (s.length + 1) n) b (b + min (t.length + 1) n) :=
      ⟨nofun, nofun⟩
    obtain ⟨result, reads, hloop, hiff, hinside⟩ :=
      strncmpLoop_eq (k := 0) hn (Nat.zero_add n) hs hs0 ht ht0 ha hb (Nat.le_refl _)
        (Nat.le_refl _) hfuel hnone
    rw [take_eq_take_iff] at hiff
    exact ⟨result, reads, hloop, hiff, hinside⟩

/-- "ab" lies at 100, and "abc" at 200. -/
def twoStrings : Bytes
  | 100 => 97
  | 101 => 98
  | 200 => 97
  | 201 => 98
  | 202 => 99
  | _ => 0

theorem compare_strings_two :
    (HasCString twoStrings 100 [97, 98] ∧ HasCString twoStrings 200 [97, 98, 99]) ∧
    (∃ result reads, strcmp twoStrings 100 200 = some (result, reads) ∧ result ≠ 0) ∧
    (∃ result reads, strncmp twoStrings 100 200 2 = some (result, reads) ∧ result = 0) := by
  have hs : HasCString twoStrings 100 [97, 98] := by
    rw [hasCString_cons, hasCString_cons, hasCString_nil]
    exact ⟨rfl, rfl, rfl⟩
  have ht : HasCString twoStrings 200 [97, 98, 99] := by
    rw [hasCString_cons, hasCString_cons, hasCString_cons, hasCString_nil]
    exact ⟨rfl, rfl, rfl, rfl⟩
  obtain ⟨⟨x, r, hx, hiff, _⟩, hn⟩ :=
    compare_strings hs (by decide) (by decide) ht (by decide) (by decide)
  obtain ⟨y, r', hy, hiff', _⟩ := hn 2 (by decide)
  refine ⟨⟨hs, ht⟩, ⟨x, r, hx, ?_⟩, y, r', hy, hiff'.2 (.inl (by decide))⟩
  intro h
  exact absurd (hiff.1 h) (by decide)

end Ulysses.Common
