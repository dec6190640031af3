import Ulysses.Lib.Word

/-!
# Byte memories

A memory is a function from addresses to bytes. A 32-bit word is stored little
endian in four consecutive bytes at any address, so two word accesses interact
exactly when their byte ranges meet. `AgreeOff lo hi m m'` says that two memories
differ at most inside `[lo, hi)`: an operation that writes only inside a range is
described by it, and everything stored outside the range is read back unchanged.
-/

namespace Ulysses.Lib

/-- A byte memory. -/
abbrev Bytes := Nat → UInt8

namespace Bytes

/-- Store one byte. -/
def write8 (m : Bytes) (a : Nat) (b : UInt8) : Bytes := fun x => if x = a then b else m x

/-- Store a little-endian word. -/
def write32 (m : Bytes) (a v : Nat) : Bytes := fun x =>
  if a ≤ x ∧ x < a + 4 then UInt8.ofNat (v / 256 ^ (x - a)) else m x

/-- Store a little-endian half word. -/
def write16 (m : Bytes) (a v : Nat) : Bytes := (m.write8 a (UInt8.ofNat v)).write8 (a + 1)
  (UInt8.ofNat (v / 256))

/-- Store the `n` bytes `f 0`, `f 1`, … from `a` on. -/
def fill (m : Bytes) (a n : Nat) (f : Nat → UInt8) : Bytes := fun x =>
  if a ≤ x ∧ x < a + n then f (x - a) else m x

/-- Load a little-endian half word. -/
def read16 (m : Bytes) (a : Nat) : Nat := (m a).toNat + 256 * (m (a + 1)).toNat

/-- Load a little-endian word. -/
def read32 (m : Bytes) (a : Nat) : Nat :=
  (m a).toNat + 256 * (m (a + 1)).toNat + 65536 * (m (a + 2)).toNat + 16777216 * (m (a + 3)).toNat

theorem read32_lt (m : Bytes) (a : Nat) : m.read32 a < 4294967296 := by
  have h0 := (m a).toNat_lt
  have h1 := (m (a + 1)).toNat_lt
  have h2 := (m (a + 2)).toNat_lt
  have h3 := (m (a + 3)).toNat_lt
  unfold read32
  omega

theorem read16_lt (m : Bytes) (a : Nat) : m.read16 a < 65536 := by
  have h0 := (m a).toNat_lt
  have h1 := (m (a + 1)).toNat_lt
  unfold read16
  omega

@[simp] theorem write8_same (m : Bytes) (a : Nat) (b : UInt8) : m.write8 a b a = b := by
  simp [write8]

variable {a hi lo : Nat} {m m' : Bytes}

theorem write8_ne (m : Bytes) {x : Nat} (b : UInt8) (h : x ≠ a) : m.write8 a b x = m x := by
  simp [write8, h]

theorem write32_off (m : Bytes) {x : Nat} (v : Nat) (h : x < a ∨ a + 4 ≤ x) :
    m.write32 a v x = m x := by
  unfold write32
  rw [if_neg (by omega)]

theorem fill_in (m : Bytes) {n x : Nat} (f : Nat → UInt8) (h : a ≤ x ∧ x < a + n) :
    m.fill a n f x = f (x - a) := if_pos h

theorem fill_off (m : Bytes) {n x : Nat} (f : Nat → UInt8) (h : x < a ∨ a + n ≤ x) :
    m.fill a n f x = m x := if_neg (by omega)

theorem fill_congr {x : Nat} (a n : Nat) (f : Nat → UInt8) (h : m' x = m x) :
    m'.fill a n f x = m.fill a n f x := by
  unfold fill
  rw [h]

theorem fill_append (m : Bytes) (a n k : Nat) (f g : Nat → UInt8) :
    (m.fill a n f).fill (a + n) k g =
      m.fill a (n + k) fun i => if i < n then f i else g (i - n) := by
  funext x
  unfold fill
  by_cases hsecond : a + n ≤ x ∧ x < a + n + k
  · rw [if_pos hsecond, if_pos (by omega)]
    show _ = if x - a < n then _ else _
    rw [if_neg (by omega), Nat.sub_sub]
  · rw [if_neg hsecond]
    by_cases hfirst : a ≤ x ∧ x < a + n
    · rw [if_pos hfirst, if_pos (by omega)]
      show _ = if x - a < n then _ else _
      rw [if_pos (by omega)]
    · rw [if_neg hfirst, if_neg (by omega)]

theorem fill_ext {n : Nat} {f g : Nat → UInt8} (h : ∀ i < n, f i = g i) :
    m.fill a n f = m.fill a n g := by
  funext x
  unfold fill
  split
  · exact h _ (by omega)
  · rfl

theorem fill_consecutive (m src : Bytes) {b out n k : Nat} (hb : b = a + n) :
    (m.fill out n fun i => src (a + i)).fill (out + n) k (fun i => src (b + i)) =
      m.fill out (n + k) fun i => src (a + i) := by
  rw [fill_append]
  refine fill_ext fun i _ => ?_
  split
  · rfl
  · rw [hb, show a + n + (i - n) = a + i by omega]

theorem foldl_write8 (m : Bytes) (a n : Nat) (f : Nat → UInt8) :
    (List.range n).foldl (fun m i => m.write8 (a + i) (f i)) m = m.fill a n f := by
  induction n with
  | zero =>
    funext x
    exact (fill_off m f (by omega)).symm
  | succ n ih =>
    rw [List.range_succ, List.foldl_append, ih]
    funext x
    show (m.fill a n f).write8 (a + n) (f n) x = m.fill a (n + 1) f x
    unfold write8 fill
    by_cases hx : x = a + n
    · rw [if_pos hx, if_pos (by omega), hx, Nat.add_sub_cancel_left]
    · rw [if_neg hx]
      exact ite_congr (propext (by omega)) (fun _ => rfl) fun _ => rfl

theorem read32_write32_same (m : Bytes) (a : Nat) {v : Nat} (hv : v < 4294967296) :
    (m.write32 a v).read32 a = v := by
  simp only [read32, write32]
  simp only [show a ≤ a ∧ a < a + 4 by omega, show a ≤ a + 1 ∧ a + 1 < a + 4 by omega,
    show a ≤ a + 2 ∧ a + 2 < a + 4 by omega, show a ≤ a + 3 ∧ a + 3 < a + 4 by omega,
    and_self, if_true, Nat.sub_self, Nat.add_sub_cancel_left, UInt8.toNat_ofNat']
  norm_num
  omega

theorem read16_write16_same (m : Bytes) (a : Nat) {v : Nat} (hv : v < 65536) :
    (m.write16 a v).read16 a = v := by
  unfold read16 write16
  rw [write8_same, write8_ne _ _ (by omega), write8_same, UInt8.toNat_ofNat', UInt8.toNat_ofNat']
  omega

theorem read32_congr {b : Nat} (h : ∀ x, b ≤ x → x < b + 4 → m' x = m x) :
    m'.read32 b = m.read32 b := by
  unfold read32
  rw [h b (by omega) (by omega), h (b + 1) (by omega) (by omega), h (b + 2) (by omega) (by omega),
    h (b + 3) (by omega) (by omega)]

theorem read32_write32_off (m : Bytes) {b : Nat} (v : Nat) (h : b + 4 ≤ a ∨ a + 4 ≤ b) :
    (m.write32 a v).read32 b = m.read32 b :=
  read32_congr fun _ h1 h2 => write32_off m v (by omega)

theorem read32_write8_off (m : Bytes) {b : Nat} (v : UInt8) (h : a < b ∨ b + 4 ≤ a) :
    (m.write8 a v).read32 b = m.read32 b :=
  read32_congr fun _ h1 h2 => write8_ne m v (by omega)

/-- A word read at another place, where the same bytes lie. -/
theorem read32_shift {b : Nat} (h : ∀ i < 4, m' (b + i) = m (a + i)) :
    m'.read32 b = m.read32 a := by
  have h0 := h 0 (by decide)
  unfold read32
  rw [Nat.add_zero, Nat.add_zero] at h0
  rw [h0, h 1 (by decide), h 2 (by decide), h 3 (by decide)]

/-- The bytes of the list lie at `a`. -/
def HasBytes (m : Bytes) (a : Nat) (bs : List UInt8) : Prop :=
  ∀ i (h : i < bs.length), m (a + i) = bs[i]

theorem hasBytes_append {xs ys : List UInt8} :
    HasBytes m a (xs ++ ys) ↔ HasBytes m a xs ∧ HasBytes m (a + xs.length) ys := by
  constructor
  · intro h
    refine ⟨fun i hi => ?_, fun i hi => ?_⟩
    · rw [h i (by rw [List.length_append]; omega), List.getElem_append_left hi]
    · rw [Nat.add_assoc, h (xs.length + i) (by rw [List.length_append]; omega),
        List.getElem_append_right (Nat.le_add_right _ _)]
      congr 1
      omega
  · rintro ⟨hxs, hys⟩ i hi
    rw [List.getElem_append]
    split
    · exact hxs i ‹_›
    · rw [List.length_append] at hi
      have := hys (i - xs.length) (by omega)
      rwa [show a + xs.length + (i - xs.length) = a + i by omega] at this

theorem hasBytes_cons {b : UInt8} {bs : List UInt8} :
    HasBytes m a (b :: bs) ↔ m a = b ∧ HasBytes m (a + 1) bs := by
  have happend : HasBytes m a ([b] ++ bs) ↔ HasBytes m a [b] ∧ HasBytes m (a + 1) bs :=
    hasBytes_append
  refine happend.trans (and_congr_left' ⟨fun h => h 0 Nat.one_pos, fun h i hi => ?_⟩)
  obtain rfl : i = 0 := by simpa using hi
  exact h

theorem HasBytes.map_range {n : Nat} {f : Nat → UInt8} (h : HasBytes m a ((List.range n).map f))
    {i : Nat} (hi : i < n) : m (a + i) = f i := by
  rw [h i (by simpa using hi), List.getElem_map, List.getElem_range]

theorem hasBytes_getD (a : Nat) (bs : List UInt8) : HasBytes (fun x => bs.getD (x - a) 0) a bs := by
  intro i hi
  beta_reduce
  rw [Nat.add_sub_cancel_left, List.getD_eq_getElem _ _ hi]

/-- The memories agree outside `[lo, hi)`. -/
def AgreeOff (lo hi : Nat) (m m' : Bytes) : Prop := ∀ x, x < lo ∨ hi ≤ x → m' x = m x

theorem AgreeOff.refl (lo hi : Nat) (m : Bytes) : AgreeOff lo hi m m := fun _ _ => rfl

theorem AgreeOff.trans {m₁ m₂ m₃ : Bytes} (h₁ : AgreeOff lo hi m₁ m₂) (h₂ : AgreeOff lo hi m₂ m₃) :
    AgreeOff lo hi m₁ m₃ :=
  fun x hx => (h₂ x hx).trans (h₁ x hx)

theorem AgreeOff.mono {lo' hi' : Nat} (h : AgreeOff lo hi m m') (hlo : lo' ≤ lo) (hhi : hi ≤ hi') :
    AgreeOff lo' hi' m m' :=
  fun x hx => h x (by omega)

theorem AgreeOff.write32 (h : AgreeOff lo hi m m') (v : Nat) (hlo : lo ≤ a) (hhi : a + 4 ≤ hi) :
    AgreeOff lo hi m (m'.write32 a v) :=
  fun x hx => (write32_off m' v (by omega)).trans (h x hx)

theorem AgreeOff.write8 (h : AgreeOff lo hi m m') (b : UInt8) (hlo : lo ≤ a) (hhi : a < hi) :
    AgreeOff lo hi m (m'.write8 a b) :=
  fun x hx => (write8_ne m' b (by omega)).trans (h x hx)

theorem AgreeOff.write16 (h : AgreeOff lo hi m m') (v : Nat) (hlo : lo ≤ a) (hhi : a + 2 ≤ hi) :
    AgreeOff lo hi m (m'.write16 a v) :=
  (h.write8 _ hlo (by omega)).write8 _ (by omega) (by omega)

theorem AgreeOff.fill (h : AgreeOff lo hi m m') {n : Nat} (f : Nat → UInt8) (hlo : lo ≤ a)
    (hhi : a + n ≤ hi) : AgreeOff lo hi m (m'.fill a n f) :=
  fun x hx => (fill_off m' f (by omega)).trans (h x hx)

theorem AgreeOff.read16 (h : AgreeOff lo hi m m') {b : Nat} (hb : b + 2 ≤ lo ∨ hi ≤ b) :
    m'.read16 b = m.read16 b := by
  unfold Bytes.read16
  rw [h b (by omega), h (b + 1) (by omega)]

theorem AgreeOff.read32 (h : AgreeOff lo hi m m') {b : Nat} (hb : b + 4 ≤ lo ∨ hi ≤ b) :
    m'.read32 b = m.read32 b :=
  read32_congr fun x h1 h2 => h x (by omega)

end Bytes

end Ulysses.Lib
