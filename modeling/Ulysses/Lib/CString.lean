import Mathlib.Data.List.TakeWhile
import Ulysses.Lib.Bytes

/-!
# C strings in memory

`HasCString m a s` says that the bytes of `s` and a zero byte lie at `a`. For a string
without zero bytes this is what a reader finds who stops at the first zero byte
(`cstring_eq`, `strlen_of_hasCString`). A copy that goes forward one byte at a time is
right when it does not write over what it has yet to read (`memcpy_eq_fill`); when it
does, it repeats its first bytes and never comes to the zero byte (`memcpy_ne_zero`).
-/

namespace Ulysses.Lib.Bytes

def HasCString (m : Bytes) (a : Nat) (s : List UInt8) : Prop :=
  (∀ i (h : i < s.length), m (a + i) = s[i]) ∧ m (a + s.length) = 0

variable {a : Nat} {m : Bytes} {s : List UInt8}

theorem hasCString_nil : HasCString m a [] ↔ m a = 0 :=
  ⟨fun h => h.2, fun h => ⟨nofun, h⟩⟩

theorem hasCString_cons {b : UInt8} :
    HasCString m a (b :: s) ↔ m a = b ∧ HasCString m (a + 1) s := by
  have hend : a + (b :: s).length = a + 1 + s.length := by
    rw [List.length_cons]
    omega
  unfold HasCString
  rw [hend, ← and_assoc]
  exact and_congr_left' hasBytes_cons

/-- The C string at `a`, of which at most `n` bytes are read. -/
def cstring (m : Bytes) (a n : Nat) : List UInt8 :=
  ((List.range n).map fun i => m (a + i)).takeWhile (· != 0)

theorem cstring_eq {n : Nat} (h : HasCString m a s) (hs : 0 ∉ s) (hn : s.length < n) :
    m.cstring a n = s := by
  have hsplit : (List.range n).map (fun i => m (a + i)) =
      s ++ 0 :: (List.range (n - s.length - 1)).map fun i => m (a + (s.length + 1 + i)) := by
    refine List.ext_getElem (by simp; omega) fun i h₁ h₂ => ?_
    simp only [List.getElem_map, List.getElem_range, List.getElem_append]
    split
    · exact h.1 i ‹_›
    · rw [List.getElem_cons]
      split
      · rw [show i = s.length by omega]
        exact h.2
      · rw [List.getElem_map, List.getElem_range]
        congr 2
        omega
  unfold cstring
  rw [hsplit, List.takeWhile_append_of_pos fun x hx => by
    simpa using fun h0 : x = 0 => hs (h0 ▸ hx)]
  simp

theorem HasCString.congr {m' : Bytes} (h : HasCString m a s)
    (hm : ∀ x, a ≤ x → x < a + s.length + 1 → m' x = m x) : HasCString m' a s :=
  ⟨fun i hi => (hm _ (by omega) (by omega)).trans (h.1 i hi),
    (hm _ (by omega) (by omega)).trans h.2⟩

theorem HasCString.getElem? {k : Nat} {b : UInt8} (h : HasCString m a s)
    (hb : (s ++ [0])[k]? = some b) : m (a + k) = b := by
  rw [List.getElem?_append] at hb
  split at hb
  · obtain ⟨hk, rfl⟩ := List.getElem?_eq_some_iff.1 hb
    exact h.1 k hk
  · obtain ⟨hk, rfl⟩ := List.getElem?_eq_some_iff.1 hb
    rw [List.length_singleton] at hk
    rw [List.getElem_singleton, show k = s.length by omega]
    exact h.2

/-- Comparing the first bytes of a C string with a string asks whether it begins with it. -/
theorem HasCString.range_map_eq_iff {q : List UInt8} (h : HasCString m 0 s) (hq : 0 ∉ q) :
    (List.range q.length).map m = q ↔ q <+: s := by
  have hget : ∀ i, i < s.length → m i = s[i]?.getD 0 := fun i hi => by
    have := h.1 i hi
    rw [Nat.zero_add] at this
    rw [this, List.getElem?_eq_getElem hi, Option.getD_some]
  have hend : m s.length = 0 := by simpa using h.2
  constructor
  · intro heq
    have hm : ∀ i (hi : i < q.length), q[i] = m i := fun i hi => by
      have := congrArg (fun l : List UInt8 => l[i]?) heq
      simp only [List.getElem?_map, List.getElem?_range hi, List.getElem?_eq_getElem hi,
        Option.map_some, Option.some.injEq] at this
      exact this.symm
    have hle : q.length ≤ s.length := by
      by_contra hlt
      -- the terminating zero would be a byte of `q`
      have hz := hm s.length (by omega)
      rw [hend] at hz
      exact hq (hz ▸ List.getElem_mem _)
    refine List.prefix_iff_eq_take.2 (List.ext_getElem (by simp [hle]) fun i h₁ h₂ => ?_)
    rw [hm i h₁, hget i (by omega), List.getElem_take, List.getElem?_eq_getElem (by omega),
      Option.getD_some]
  · intro hpre
    have hle := hpre.length_le
    refine List.ext_getElem (by simp) fun i h₁ h₂ => ?_
    rw [List.getElem_map, List.getElem_range, hget i (by omega), hpre.getElem h₂,
      List.getElem?_eq_getElem (by omega), Option.getD_some]

theorem hasCString_fill (m : Bytes) (a : Nat) (s : List UInt8) :
    HasCString (m.fill a (s.length + 1) fun j => s.getD j 0) a s := by
  refine ⟨fun i hi => ?_, ?_⟩
  · rw [fill_in _ _ ⟨by omega, by omega⟩, Nat.add_sub_cancel_left, List.getD_eq_getElem _ _ hi]
  · rw [fill_in _ _ ⟨by omega, by omega⟩, Nat.add_sub_cancel_left,
      List.getD_eq_default _ _ (Nat.le_refl _)]

/-! ## Lengths -/

/-- The loop of `strlen`, at index `i`. -/
def strlenFrom (m : Bytes) (a i : Nat) : Nat → Option Nat
  | 0 => none
  | fuel + 1 => if m (a + i) = 0 then some i else strlenFrom m a (i + 1) fuel

/-- `strlen`; `none` when no zero byte follows in the address space. -/
def strlen (m : Bytes) (a : Nat) : Option Nat := m.strlenFrom a 0 (4294967296 - a)

theorem strlenFrom_eq_some {n fuel i : Nat} :
    m.strlenFrom a i fuel = some n ↔
      i ≤ n ∧ n < i + fuel ∧ m (a + n) = 0 ∧ ∀ j, i ≤ j → j < n → m (a + j) ≠ 0 := by
  induction fuel generalizing i with
  | zero => exact iff_of_false (by simp [strlenFrom]) (by omega)
  | succ fuel ih =>
    unfold strlenFrom
    by_cases h0 : m (a + i) = 0
    · rw [if_pos h0, Option.some_inj]
      constructor
      · rintro rfl
        exact ⟨Nat.le_refl _, by omega, h0, fun j h₁ h₂ => by omega⟩
      · rintro ⟨hle, -, -, hne⟩
        by_contra hn
        exact hne i (Nat.le_refl i) (by omega) h0
    · rw [if_neg h0, ih]
      constructor
      · rintro ⟨hle, hlt, hz, hne⟩
        refine ⟨by omega, by omega, hz, fun j h₁ h₂ => ?_⟩
        by_cases hj : j = i
        · rwa [hj]
        · exact hne j (by omega) h₂
      · rintro ⟨hle, hlt, hz, hne⟩
        have hni : n ≠ i := by
          rintro rfl
          exact h0 hz
        exact ⟨by omega, by omega, hz, fun j h₁ h₂ => hne j (by omega) h₂⟩

theorem strlen_eq_some {n : Nat} :
    m.strlen a = some n ↔
      a + n < 4294967296 ∧ m (a + n) = 0 ∧ ∀ j < n, m (a + j) ≠ 0 := by
  unfold strlen
  rw [strlenFrom_eq_some]
  constructor
  · rintro ⟨-, hlt, hz, hne⟩
    exact ⟨by omega, hz, fun j hj => hne j (Nat.zero_le j) hj⟩
  · rintro ⟨hlt, hz, hne⟩
    exact ⟨Nat.zero_le n, by omega, hz, fun j _ hj => hne j hj⟩

theorem HasCString.ne_zero (h : HasCString m a s) (hs : 0 ∉ s) {i : Nat} (hi : i < s.length) :
    m (a + i) ≠ 0 := by
  rw [h.1 i hi]
  exact fun h0 => hs (h0 ▸ List.getElem_mem hi)

theorem strlen_of_hasCString (h : HasCString m a s) (hs : 0 ∉ s) (ha : a + s.length < 4294967296) :
    m.strlen a = some s.length :=
  strlen_eq_some.2 ⟨ha, h.2, fun _ hj => h.ne_zero hs hj⟩

theorem HasCString.length_eq {n : Nat} (h : HasCString m a s) (hs : 0 ∉ s) (hz : m (a + n) = 0)
    (hne : ∀ j < n, m (a + j) ≠ 0) : s.length = n := by
  rcases Nat.lt_trichotomy s.length n with hlt | heq | hlt
  · exact absurd h.2 (hne _ hlt)
  · exact heq
  · exact absurd hz (h.ne_zero hs hlt)

theorem HasCString.unique {s' : List UInt8} (h : HasCString m a s) (h' : HasCString m a s')
    (hs : 0 ∉ s) (hs' : 0 ∉ s') : s = s' := by
  have hlen : s.length = s'.length := h.length_eq hs h'.2 fun _ hj => h'.ne_zero hs' hj
  exact List.ext_getElem hlen fun i h₁ h₂ => (h.1 i h₁).symm.trans (h'.1 i h₂)

/-! ## Copies -/

/-- `memcpy`. -/
def memcpy (m : Bytes) (dest src len : Nat) : Bytes :=
  (List.range len).foldl (fun m i => m.write8 (dest + i) (m (src + i))) m

theorem memcpy_succ (m : Bytes) (dest src len : Nat) :
    m.memcpy dest src (len + 1) =
      (m.memcpy dest src len).write8 (dest + len) (m.memcpy dest src len (src + len)) := by
  unfold memcpy
  rw [List.range_succ, List.foldl_append]
  rfl

theorem memcpy_off (m : Bytes) {dest src len x : Nat} (h : x < dest ∨ dest + len ≤ x) :
    m.memcpy dest src len x = m x := by
  induction len with
  | zero => rfl
  | succ len ih => rw [memcpy_succ, write8_ne _ _ (by omega), ih (by omega)]

theorem memcpy_eq_fill (m : Bytes) {dest src len : Nat} (h : dest ≤ src ∨ src + len ≤ dest) :
    m.memcpy dest src len = m.fill dest len fun i => m (src + i) := by
  rw [← foldl_write8]
  induction len with
  | zero => rfl
  | succ len ih =>
    rw [memcpy_succ, List.range_succ, List.foldl_append, ← ih (by omega),
      memcpy_off m (by omega : src + len < dest ∨ dest + len ≤ src + len)]
    rfl

theorem memcpy_of_hasCString {dest src : Nat} (h : HasCString m src s)
    (hover : dest ≤ src ∨ src + s.length < dest) :
    m.memcpy dest src (s.length + 1) = m.fill dest (s.length + 1) fun j => s.getD j 0 := by
  rw [memcpy_eq_fill m (by omega)]
  funext x
  unfold fill
  refine ite_congr rfl (fun hx => ?_) fun _ => rfl
  show m (src + (x - dest)) = s.getD (x - dest) 0
  by_cases hk : x - dest < s.length
  · rw [List.getD_eq_getElem _ _ hk]
    exact h.1 _ hk
  · rw [List.getD_eq_default _ _ (by omega), show x - dest = s.length by omega]
    exact h.2

/-- A copy that runs into its own output stays free of zero bytes. -/
theorem memcpy_ne_zero {dest src : Nat} (hlt : src < dest) (hne : ∀ i < dest - src, m (src + i) ≠ 0)
    (len : Nat) : ∀ i < len, m.memcpy dest src len (dest + i) ≠ 0 := by
  induction len with
  | zero => exact fun i hi => absurd hi (Nat.not_lt_zero i)
  | succ len ih =>
    intro i hi
    rw [memcpy_succ]
    by_cases hil : i = len
    · rw [hil, write8_same]
      by_cases hin : src + len < dest
      · rw [memcpy_off m (.inl hin)]
        exact hne len (by omega)
      · -- the byte read was written by the copy itself
        rw [show src + len = dest + (src + len - dest) by omega]
        exact ih _ (by omega)
    · rw [write8_ne _ _ (by omega)]
      exact ih i (by omega)

/-- What a copy says about its source: the string was there and was not overtaken, or the
copy ran into its own output before the end of the string. -/
theorem hasCString_of_memcpy {m' : Bytes} {dest src n : Nat} (hlen : m.strlen src = some n)
    (hm' : ∀ j < n + 1, m' (dest + j) = m.memcpy dest src (n + 1) (dest + j))
    (h : HasCString m' dest s) (hs : 0 ∉ s) :
    (HasCString m src s ∧ (dest ≤ src ∨ src + s.length < dest)) ∨
      (src < dest ∧ dest ≤ src + n ∧ n < s.length) := by
  obtain ⟨-, hz, hne⟩ := strlen_eq_some.1 hlen
  by_cases hover : dest ≤ src ∨ src + n < dest
  · have hcopy : ∀ j < n + 1, m' (dest + j) = m (src + j) := fun j hj => by
      rw [hm' j hj, memcpy_eq_fill m (by omega), fill_in _ _ ⟨by omega, by omega⟩,
        Nat.add_sub_cancel_left]
    have hn : s.length = n := h.length_eq hs ((hcopy n (by omega)).trans hz)
      fun j hj => by rw [hcopy j (by omega)]; exact hne j hj
    refine .inl ⟨⟨fun i hi => ?_, hn ▸ hz⟩, hn ▸ hover⟩
    rw [← hcopy i (by omega)]
    exact h.1 i hi
  · refine .inr ⟨by omega, by omega, Nat.lt_of_not_le fun hle => ?_⟩
    have hstay := memcpy_ne_zero (by omega : src < dest) (fun i hi => hne i (by omega)) (n + 1)
      s.length (by omega)
    rw [← hm' _ (by omega)] at hstay
    exact hstay h.2

end Ulysses.Lib.Bytes
