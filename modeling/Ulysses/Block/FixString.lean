import Ulysses.Lib.Bytes

/-!
# The strings of a drive

`fixstring` of `ata.cpp`, which brings the model name of a drive into order in its place:
the bytes of each word are exchanged, blanks at both ends are taken away, each run of blanks
becomes one, and the rest is filled with zeros (`normalised`). The reads and writes are
recorded, to say that none is outside the buffer.
-/

namespace Ulysses.FixString

open Lib

/-- The memory, and the addresses read or written so far. -/
structure Mem where
  bytes : Bytes
  touched : List Nat

def Mem.touch (a : Nat) (m : Mem) : Mem := { m with touched := a :: m.touched }

def Mem.write (a : Nat) (b : UInt8) (m : Mem) : Mem :=
  { bytes := m.bytes.write8 a b, touched := a :: m.touched }

/-- The blank. -/
def blank : UInt8 := 0x20

/-- The loop that exchanges the bytes of each word, from the end to `s`. -/
def swapLoop (s : Nat) : Nat → Nat → Mem → Option (Nat × Mem)
  | 0, _, _ => none
  | fuel + 1, p, m =>
    if p = s then some (p, m)
    else
      let p := p - 2
      let val := m.bytes.read16 p
      swapLoop s fuel p
        { bytes := m.bytes.write16 p ((val &&& 0xff) <<< 8 ||| val >>> 8)
          touched := (p + 1) :: p :: m.touched }

/-- The loop over the blanks in front. -/
def skipLoop (stop : Nat) : Nat → Nat → Mem → Option (Nat × Mem)
  | 0, _, _ => none
  | fuel + 1, s, m =>
    if s = stop then some (s, m)
    else
      let m := m.touch s
      if m.bytes s = blank then skipLoop stop fuel (s + 1) m else some (s, m)

/-- `s != end && *s && *s != ' '`. -/
def wordAt (stop s : Nat) (m : Mem) : Bool × Mem :=
  if s = stop then (false, m) else (m.bytes s ≠ 0 && m.bytes s ≠ blank, m.touch s)

/-- The loop that copies the text to `p`. -/
def compressLoop (stop : Nat) : Nat → Nat → Nat → Mem → Option (Nat × Mem)
  | 0, _, _, _ => none
  | fuel + 1, s, p, m =>
    if s = stop then some (p, m)
    else
      let m := m.touch s
      if m.bytes s = 0 then some (p, m)
      else
        let keep := if m.bytes s ≠ blank then (true, m) else wordAt stop (s + 1) m
        let m := keep.2
        if keep.1 then compressLoop stop fuel (s + 1) (p + 1) ((m.touch s).write p (m.bytes s))
        else compressLoop stop fuel (s + 1) p m

/-- The loop that fills the rest. -/
def wipeLoop (stop : Nat) : Nat → Nat → Mem → Option Mem
  | 0, _, _ => none
  | fuel + 1, p, m => if p = stop then some m else wipeLoop stop fuel (p + 1) (m.write p 0)

/-- `fixstring`. Without fuel there is no result. -/
def fixstring (s count : Nat) (m : Mem) : Option Mem :=
  let count := if count &&& 1 ≠ 0 then count - 1 else count
  let stop := s + count
  (swapLoop s (count + 1) stop m).bind fun (p, m) =>
    (skipLoop stop (count + 1) s m).bind fun (s, m) =>
      (compressLoop stop (count + 1) s p m).bind fun (p, m) => wipeLoop stop (count + 1) p m

/-! ## The text -/

def swapPairs : List UInt8 → List UInt8
  | a :: b :: rest => b :: a :: swapPairs rest
  | rest => rest

/-- Without the blanks at the end. -/
def stripTrailing (text : List UInt8) : List UInt8 :=
  (text.reverse.dropWhile (· = blank)).reverse

/-- One blank for each run of them. -/
def collapse : List UInt8 → List UInt8
  | a :: b :: rest =>
    if a = blank ∧ b = blank then collapse (b :: rest) else a :: collapse (b :: rest)
  | rest => rest

/-- The text of the words of `buffer`. -/
def normalised (buffer : List UInt8) : List UInt8 :=
  collapse (stripTrailing (((swapPairs buffer).dropWhile (· = blank)).takeWhile (· ≠ 0)))

/-- The `n` bytes at `s`. -/
def bytesAt (b : Bytes) (s n : Nat) : List UInt8 := (List.range n).map fun i => b (s + i)

/-- The text with zeros behind it, up to `n`. -/
def padded (n : Nat) (text : List UInt8) : List UInt8 :=
  text ++ List.replicate (n - text.length) 0

/-- What the loop copies: a blank only in front of another character. -/
def squeeze : List UInt8 → List UInt8
  | [] => []
  | c :: rest =>
    if c = blank ∧ rest.head?.all (· = blank) then squeeze rest else c :: squeeze rest

theorem stripTrailing_cons (c : UInt8) (rest : List UInt8) :
    stripTrailing (c :: rest) =
      if c = blank ∧ stripTrailing rest = [] then [] else c :: stripTrailing rest := by
  unfold stripTrailing
  rw [List.reverse_cons, List.dropWhile_append]
  by_cases hnil : rest.reverse.dropWhile (· = blank) = []
  · rw [hnil]
    by_cases hc : c = blank <;> simp [hc]
  · simp [hnil]

theorem collapse_cons_of_ne {c : UInt8} (hc : c ≠ blank) (rest : List UInt8) :
    collapse (c :: rest) = c :: collapse rest := by
  cases rest with
  | nil => rfl
  | cons d rest => exact if_neg fun h => hc h.1

theorem squeeze_eq (text : List UInt8) : squeeze text = collapse (stripTrailing text) := by
  induction text with
  | nil => rfl
  | cons c rest ih =>
    unfold squeeze
    rw [stripTrailing_cons, ih]
    by_cases hc : c = blank
    · subst hc
      cases rest with
      | nil => rfl
      | cons d rest =>
        by_cases hd : d = blank
        · subst hd
          rw [if_pos ⟨rfl, rfl⟩]
          by_cases hnil : stripTrailing (blank :: rest) = []
          · rw [if_pos ⟨rfl, hnil⟩, hnil]
          · rw [if_neg fun h => hnil h.2]
            rw [stripTrailing_cons] at hnil ⊢
            rw [if_neg fun h => hnil (if_pos h)]
            exact (if_pos ⟨rfl, rfl⟩).symm
        · have hcons : stripTrailing (d :: rest) = d :: stripTrailing rest := by
            rw [stripTrailing_cons, if_neg fun h => hd h.1]
          rw [if_neg fun h => hd (of_decide_eq_true h.2), hcons, if_neg (by simp)]
          exact (if_neg fun h => hd h.2).symm
    · rw [if_neg fun h => hc h.1, if_neg fun h => hc h.1, collapse_cons_of_ne hc]

/-! ## The loops -/

/-- What the loops keep: nothing is touched outside `[lo, hi)`. -/
structure Confined (lo hi : Nat) (m m' : Mem) : Prop where
  touched : ∀ a ∈ m'.touched, a ∈ m.touched ∨ lo ≤ a ∧ a < hi
  outside : Bytes.AgreeOff lo hi m.bytes m'.bytes

section

variable {lo hi : Nat} {m m' m'' : Mem}

theorem Confined.refl (lo hi : Nat) (m : Mem) : Confined lo hi m m :=
  ⟨fun _ ha => .inl ha, .refl lo hi m.bytes⟩

theorem Confined.trans (h : Confined lo hi m m') (h' : Confined lo hi m' m'') :
    Confined lo hi m m'' := by
  refine ⟨fun a ha => ?_, h.outside.trans h'.outside⟩
  rcases h'.touched a ha with ha | ha
  · exact h.touched a ha
  · exact .inr ha

theorem confined_touch {a : Nat} (hlo : lo ≤ a) (hhi : a < hi) (m : Mem) :
    Confined lo hi m (m.touch a) := by
  refine ⟨fun b hb => ?_, .refl lo hi m.bytes⟩
  rcases List.mem_cons.1 hb with rfl | hb
  · exact .inr ⟨hlo, hhi⟩
  · exact .inl hb

theorem confined_write {a : Nat} (hlo : lo ≤ a) (hhi : a < hi) (b : UInt8) (m : Mem) :
    Confined lo hi m (m.write a b) := by
  refine ⟨fun c hc => ?_, (Bytes.AgreeOff.refl lo hi m.bytes).write8 b hlo hhi⟩
  rcases List.mem_cons.1 hc with rfl | hc
  · exact .inr ⟨hlo, hhi⟩
  · exact .inl hc

theorem write16_swap (b : Bytes) (p : Nat) :
    b.write16 p ((b.read16 p &&& 0xff) <<< 8 ||| b.read16 p >>> 8) =
      (b.write8 p (b (p + 1))).write8 (p + 1) (b p) := by
  have hlow : (b p).toNat < 256 := (b p).toNat_lt
  have hhigh : (b (p + 1)).toNat < 256 := (b (p + 1)).toNat_lt
  have hval : (b.read16 p &&& 0xff) <<< 8 ||| b.read16 p >>> 8 =
      256 * (b p).toNat + (b (p + 1)).toNat := by
    unfold Bytes.read16
    rw [Nat.and_two_pow_sub_one_eq_mod _ 8, Nat.shiftRight_eq_div_pow,
      ← Nat.shiftLeft_add_eq_or_of_lt (by omega), Nat.shiftLeft_eq]
    omega
  have hfirst : UInt8.ofNat (256 * (b p).toNat + (b (p + 1)).toNat) = b (p + 1) := by
    apply UInt8.toNat_inj.1
    rw [UInt8.toNat_ofNat']
    omega
  have hsecond : UInt8.ofNat ((256 * (b p).toNat + (b (p + 1)).toNat) / 256) = b p := by
    apply UInt8.toNat_inj.1
    rw [UInt8.toNat_ofNat']
    omega
  rw [hval, Bytes.write16, hfirst, hsecond]

/-- Where the byte at index `i` comes from. -/
def partner (i : Nat) : Nat := if i % 2 = 0 then i + 1 else i - 1

theorem partner_lt {i k : Nat} (h : i < 2 * k) : partner i < 2 * k := by
  unfold partner
  split <;> omega

theorem swapLoop_eq (s : Nat) (k fuel : Nat) (hfuel : k < fuel) (m : Mem) (hhi : s + 2 * k ≤ hi) :
    ∃ m', swapLoop s fuel (s + 2 * k) m = some (s, m') ∧ Confined s hi m m' ∧
      ∀ i, m'.bytes (s + i) = if i < 2 * k then m.bytes (s + partner i) else m.bytes (s + i) := by
  induction k generalizing fuel m with
  | zero =>
    obtain ⟨fuel, rfl⟩ := Nat.exists_eq_succ_of_ne_zero (Nat.ne_of_gt hfuel)
    exact ⟨m, if_pos rfl, .refl _ _ m, fun i => (if_neg (Nat.not_lt_zero i)).symm⟩
  | succ k ih =>
    obtain ⟨fuel, rfl⟩ := Nat.exists_eq_succ_of_ne_zero (Nat.ne_of_gt (Nat.zero_lt_of_lt hfuel))
    obtain ⟨m₁, hm₁⟩ : ∃ m₁, m₁ = (m.write (s + 2 * k) (m.bytes (s + 2 * k + 1))).write
        (s + 2 * k + 1) (m.bytes (s + 2 * k)) := ⟨_, rfl⟩
    obtain ⟨m', hloop, hconf, hbytes⟩ := ih fuel (Nat.lt_of_succ_lt_succ hfuel) m₁ (by omega)
    have hconf₁ : Confined s hi m m₁ := by
      rw [hm₁]
      exact (confined_write (by omega) (by omega) _ m).trans
        (confined_write (by omega) (by omega) _ _)
    refine ⟨m', ?_, hconf₁.trans hconf, fun i => ?_⟩
    · have hp : s + 2 * (k + 1) - 2 = s + 2 * k := by omega
      unfold swapLoop
      simp only [hp, write16_swap]
      rw [if_neg (by omega)]
      rw [hm₁] at hloop
      exact hloop
    · have hother : ∀ x, x ≠ s + 2 * k → x ≠ s + 2 * k + 1 → m₁.bytes x = m.bytes x := by
        intro x h₁ h₂
        rw [hm₁]
        exact (Bytes.write8_ne _ _ h₂).trans (Bytes.write8_ne _ _ h₁)
      rw [hbytes i]
      by_cases hlt : i < 2 * k
      · have hpartner := partner_lt hlt
        rw [if_pos hlt, if_pos (by omega), hother _ (by omega) (by omega)]
      · rw [if_neg hlt]
        by_cases hlast : i < 2 * (k + 1)
        · rw [if_pos hlast, hm₁]
          rcases (by omega : i = 2 * k ∨ i = 2 * k + 1) with rfl | rfl
          · have hpartner : partner (2 * k) = 2 * k + 1 := if_pos (by omega)
            rw [hpartner]
            exact (Bytes.write8_ne _ _ (by omega)).trans (Bytes.write8_same _ _ _)
          · have hpartner : partner (2 * k + 1) = 2 * k := if_neg (by omega)
            rw [hpartner]
            exact Bytes.write8_same _ _ _
        · rw [if_neg hlast, hother _ (by omega) (by omega)]

theorem getElem?_swapPairs {buffer : List UInt8} (heven : buffer.length % 2 = 0) (i : Nat) :
    (swapPairs buffer)[i]? = buffer[partner i]? := by
  induction buffer using swapPairs.induct generalizing i with
  | case1 a b rest ih =>
    rw [swapPairs]
    have hrest : rest.length % 2 = 0 := by
      simp only [List.length_cons] at heven
      omega
    match i with
    | 0 => rfl
    | 1 => rfl
    | i + 2 =>
      have hpartner : partner (i + 2) = partner i + 2 := by
        unfold partner
        split <;> split <;> omega
      rw [hpartner, List.getElem?_cons_succ, List.getElem?_cons_succ, List.getElem?_cons_succ,
        List.getElem?_cons_succ]
      exact ih hrest i
  | case2 rest hrest =>
    match rest with
    | [] => rfl
    | [a] => cases heven
    | a :: b :: rest => exact absurd rfl (hrest a b rest)

theorem length_swapPairs (buffer : List UInt8) : (swapPairs buffer).length = buffer.length := by
  induction buffer using swapPairs.induct with
  | case1 a b rest ih => simp only [swapPairs, List.length_cons, ih]
  | case2 rest hrest =>
    match rest with
    | [] => rfl
    | [a] => rfl
    | a :: b :: rest => exact absurd rfl (hrest a b rest)

theorem length_bytesAt (b : Bytes) (s n : Nat) : (bytesAt b s n).length = n := by
  rw [bytesAt, List.length_map, List.length_range]

theorem hasBytes_bytesAt (b : Bytes) (s n : Nat) : b.HasBytes s (bytesAt b s n) := by
  intro i hi
  simp only [bytesAt, List.getElem_map, List.getElem_range]

theorem swapLoop_hasBytes {s : Nat} {buffer : List UInt8} {k : Nat} (hlen : buffer.length = 2 * k)
    (hm : m.bytes.HasBytes s buffer) :
    ∃ m', swapLoop s (2 * k + 1) (s + 2 * k) m = some (s, m') ∧
      Confined s (s + 2 * k) m m' ∧ m'.bytes.HasBytes s (swapPairs buffer) := by
  obtain ⟨m', hloop, hconf, hbytes⟩ :=
    swapLoop_eq s k (2 * k + 1) (by omega) m (Nat.le_refl (s + 2 * k))
  refine ⟨m', hloop, hconf, fun i hi => ?_⟩
  have hi' : i < 2 * k := by rwa [length_swapPairs, hlen] at hi
  have hget := getElem?_swapPairs (by omega : buffer.length % 2 = 0) i
  rw [List.getElem?_eq_getElem hi, List.getElem?_eq_getElem (by have := partner_lt hi'; omega),
    Option.some_inj] at hget
  rw [hbytes i, if_pos hi', hget]
  exact hm _ _

theorem skipLoop_eq {s fuel : Nat} {text : List UInt8} (hm : m.bytes.HasBytes s text) (hlo : lo ≤ s)
    (hfuel : text.length < fuel) :
    ∃ s' m', skipLoop (s + text.length) fuel s m = some (s', m') ∧ s ≤ s' ∧
      s + text.length = s' + (text.dropWhile (· = blank)).length ∧
      m'.bytes.HasBytes s' (text.dropWhile (· = blank)) ∧ Confined lo (s + text.length) m m' := by
  induction text generalizing s fuel m with
  | nil =>
    obtain ⟨fuel, rfl⟩ := Nat.exists_eq_succ_of_ne_zero (Nat.ne_of_gt hfuel)
    exact ⟨s, m, if_pos rfl, Nat.le_refl s, rfl, hm, .refl _ _ m⟩
  | cons c rest ih =>
    obtain ⟨fuel, rfl⟩ := Nat.exists_eq_succ_of_ne_zero (Nat.ne_of_gt (Nat.zero_lt_of_lt hfuel))
    obtain ⟨hc, hrest⟩ := Bytes.hasBytes_cons.1 hm
    have hstop : s + (c :: rest).length = s + 1 + rest.length := by
      rw [List.length_cons]
      omega
    have htouch : Confined lo (s + 1 + rest.length) m (m.touch s) :=
      confined_touch hlo (by omega) m
    unfold skipLoop
    rw [hstop, if_neg (by omega)]
    by_cases hblank : c = blank
    · obtain ⟨s', m', hloop, hle, hend, hbytes, hconf⟩ :=
        ih (m := m.touch s) hrest (Nat.le_succ_of_le hlo) (Nat.lt_of_succ_lt_succ hfuel)
      refine ⟨s', m', ?_, by omega, ?_, ?_, htouch.trans hconf⟩
      · exact (if_pos (hc.trans hblank)).trans hloop
      · rw [List.dropWhile_cons_of_pos (by simpa using hblank)]
        exact hend
      · rw [List.dropWhile_cons_of_pos (by simpa using hblank)]
        exact hbytes
    · refine ⟨s, m.touch s, if_neg fun h => hblank (hc.symm.trans h), Nat.le_refl s, ?_, ?_, htouch⟩
      · rw [List.dropWhile_cons_of_neg (by simpa using hblank), hstop]
      · rw [List.dropWhile_cons_of_neg (by simpa using hblank)]
        exact hm

theorem wordAt_eq {s : Nat} {rest : List UInt8} (hm : m.bytes.HasBytes s rest) (hlo : lo ≤ s) :
    (wordAt (s + rest.length) s m).1 = !(rest.takeWhile (· ≠ 0)).head?.all (· = blank) ∧
      (wordAt (s + rest.length) s m).2.bytes = m.bytes ∧
      Confined lo (s + rest.length) m (wordAt (s + rest.length) s m).2 := by
  unfold wordAt
  cases rest with
  | nil =>
    rw [if_pos (show s = s + ([] : List UInt8).length from rfl)]
    exact ⟨rfl, rfl, .refl _ _ m⟩
  | cons d rest =>
    have hlen : (d :: rest).length = rest.length + 1 := List.length_cons
    obtain ⟨hd, -⟩ := Bytes.hasBytes_cons.1 hm
    rw [if_neg (by omega), hd]
    refine ⟨?_, rfl, confined_touch hlo (by omega) m⟩
    by_cases hzero : d = 0
    · simp [hzero]
    · simp [hzero]

/-- Whether the loop copies `c`, with `rest` behind it. -/
def kept (c : UInt8) (rest : List UInt8) : Bool :=
  if c ≠ blank then true else !rest.head?.all (· = blank)

theorem squeeze_cons (c : UInt8) (rest : List UInt8) :
    squeeze (c :: rest) = if kept c rest then c :: squeeze rest else squeeze rest := by
  rw [squeeze, kept]
  by_cases hc : c = blank
  · by_cases hall : rest.head?.all (· = blank) = true
    · rw [if_pos ⟨hc, hall⟩, if_neg (by simp [hc, hall])]
    · rw [if_neg fun h => hall h.2, if_pos (by simp [hc, hall])]
  · rw [if_neg fun h => hc h.1, if_pos (by simp [hc])]

theorem compressLoop_cons {s : Nat} {c : UInt8} {rest : List UInt8} (hc : m.bytes s = c)
    (hrest : m.bytes.HasBytes (s + 1) rest) (hlo : lo ≤ s) (hzero : c ≠ 0) (fuel p : Nat) :
    ∃ m₁, m₁.bytes = m.bytes ∧ Confined lo (s + 1 + rest.length) m m₁ ∧
      compressLoop (s + 1 + rest.length) (fuel + 1) s p m =
        if kept c (rest.takeWhile (· ≠ 0)) then
          compressLoop (s + 1 + rest.length) fuel (s + 1) (p + 1) ((m₁.touch s).write p c)
        else compressLoop (s + 1 + rest.length) fuel (s + 1) p m₁ := by
  have htouch : Confined lo (s + 1 + rest.length) m (m.touch s) :=
    confined_touch hlo (by omega) m
  obtain ⟨keep, hkeep⟩ : ∃ keep, keep =
      if c ≠ blank then (true, m.touch s)
      else wordAt (s + 1 + rest.length) (s + 1) (m.touch s) := ⟨_, rfl⟩
  have hloop : compressLoop (s + 1 + rest.length) (fuel + 1) s p m =
      if keep.1 then compressLoop (s + 1 + rest.length) fuel (s + 1) (p + 1)
        ((keep.2.touch s).write p (keep.2.bytes s))
      else compressLoop (s + 1 + rest.length) fuel (s + 1) p keep.2 := by
    rw [compressLoop, if_neg (by omega), hkeep, ← hc]
    exact if_neg fun h => hzero (hc.symm.trans h)
  have hfacts : keep.1 = kept c (rest.takeWhile (· ≠ 0)) ∧ keep.2.bytes = m.bytes ∧
      Confined lo (s + 1 + rest.length) (m.touch s) keep.2 := by
    rw [hkeep, kept]
    by_cases hblank : c = blank
    · rw [if_neg (not_not.2 hblank), if_neg (not_not.2 hblank)]
      exact wordAt_eq (m := m.touch s) hrest (Nat.le_succ_of_le hlo)
    · rw [if_pos hblank, if_pos hblank]
      exact ⟨rfl, rfl, .refl _ _ _⟩
  obtain ⟨hfst, hsame, hconf⟩ := hfacts
  refine ⟨keep.2, hsame, htouch.trans hconf, ?_⟩
  rw [hloop, hfst, hsame, hc]

/-- The loop copies the text, up to the first zero, to `p`. -/
theorem compressLoop_eq {s p fuel : Nat} {text : List UInt8} (hm : m.bytes.HasBytes s text)
    (hlo : lo ≤ p) (hp : p ≤ s) (hfuel : text.length < fuel) :
    ∃ p' m', compressLoop (s + text.length) fuel s p m = some (p', m') ∧
      p' = p + (squeeze (text.takeWhile (· ≠ 0))).length ∧ p' ≤ s + text.length ∧
      m'.bytes.HasBytes p (squeeze (text.takeWhile (· ≠ 0))) ∧
      (∀ x < p, m'.bytes x = m.bytes x) ∧ Confined lo (s + text.length) m m' := by
  induction text generalizing s p fuel m with
  | nil =>
    obtain ⟨fuel, rfl⟩ := Nat.exists_eq_succ_of_ne_zero (Nat.ne_of_gt hfuel)
    exact ⟨p, m, if_pos rfl, rfl, hp, nofun, fun _ _ => rfl, .refl _ _ m⟩
  | cons c rest ih =>
    obtain ⟨fuel, rfl⟩ := Nat.exists_eq_succ_of_ne_zero (Nat.ne_of_gt (Nat.zero_lt_of_lt hfuel))
    obtain ⟨hc, hrest⟩ := Bytes.hasBytes_cons.1 hm
    have hstop : s + (c :: rest).length = s + 1 + rest.length := by
      rw [List.length_cons]
      omega
    rw [hstop]
    by_cases hzero : c = 0
    · rw [List.takeWhile_cons_of_neg (by simpa using hzero)]
      refine ⟨p, m.touch s, ?_, rfl, by omega, nofun, fun _ _ => rfl,
        confined_touch (hlo.trans hp) (by omega) m⟩
      unfold compressLoop
      rw [if_neg (by omega)]
      exact if_pos (hc.trans hzero)
    · obtain ⟨m₁, hsame, hconf, hloop⟩ :=
        compressLoop_cons hc hrest (hlo.trans hp) hzero fuel p
      rw [List.takeWhile_cons_of_pos (by simpa using hzero), squeeze_cons, hloop]
      cases kept c (rest.takeWhile (· ≠ 0)) with
      | false =>
        obtain ⟨p', m', hres, hp', hend, hbytes, hbefore, hconf'⟩ :=
          ih (m := m₁) (hsame ▸ hrest) hlo (Nat.le_succ_of_le hp) (Nat.lt_of_succ_lt_succ hfuel)
        refine ⟨p', m', hres, hp', hend, hbytes, fun x hx => ?_, hconf.trans hconf'⟩
        rw [hbefore x hx, hsame]
      | true =>
        -- The copy lands at or before the byte just read, so the rest is not yet overwritten.
        have hwritten : Confined lo (s + 1 + rest.length) m ((m₁.touch s).write p c) :=
          hconf.trans <| (confined_touch (hlo.trans hp) (by omega) _).trans
            (confined_write hlo (by omega) c _)
        have hother : ∀ x, x ≠ p → ((m₁.touch s).write p c).bytes x = m.bytes x := by
          intro x hx
          rw [← hsame]
          exact Bytes.write8_ne _ _ hx
        have hkept : ((m₁.touch s).write p c).bytes.HasBytes (s + 1) rest := by
          intro i hi
          rw [hother _ (by omega)]
          exact hrest i hi
        obtain ⟨p', m', hres, hp', hend, hbytes, hbefore, hconf'⟩ :=
          ih hkept (Nat.le_succ_of_le hlo) (Nat.succ_le_succ hp) (Nat.lt_of_succ_lt_succ hfuel)
        refine ⟨p', m', hres, ?_, hend, Bytes.hasBytes_cons.2 ⟨?_, hbytes⟩, fun x hx => ?_,
          hwritten.trans hconf'⟩
        · rw [hp', if_pos rfl, List.length_cons]
          omega
        · rw [hbefore p (Nat.lt_succ_self p)]
          exact Bytes.write8_same _ _ _
        · rw [hbefore x (Nat.lt_succ_of_lt hx), hother x (Nat.ne_of_lt hx)]

/-- The loop leaves zeros from `p` on. -/
theorem wipeLoop_eq {stop p fuel : Nat} (hlo : lo ≤ p) (hp : p ≤ stop) (hfuel : stop - p < fuel) :
    ∃ m', wipeLoop stop fuel p m = some m' ∧ (∀ x < p, m'.bytes x = m.bytes x) ∧
      (∀ x, p ≤ x → x < stop → m'.bytes x = 0) ∧ Confined lo stop m m' := by
  induction fuel generalizing p m with
  | zero => exact absurd hfuel (Nat.not_lt_zero _)
  | succ fuel ih =>
    unfold wipeLoop
    by_cases hend : p = stop
    · rw [if_pos hend]
      exact ⟨m, rfl, fun _ _ => rfl, fun x _ _ => by omega, .refl _ _ m⟩
    · rw [if_neg hend]
      obtain ⟨m', hres, hbefore, hzero, hconf⟩ :=
        ih (p := p + 1) (m := m.write p 0) (Nat.le_succ_of_le hlo) (by omega) (by omega)
      refine ⟨m', hres, fun x hx => ?_, fun x hx hlt => ?_,
        (confined_write hlo (by omega) 0 m).trans hconf⟩
      · rw [hbefore x (Nat.lt_succ_of_lt hx)]
        exact Bytes.write8_ne _ _ (Nat.ne_of_lt hx)
      · rcases Nat.eq_or_lt_of_le hx with rfl | hx
        · rw [hbefore p (Nat.lt_succ_self p)]
          exact Bytes.write8_same _ _ _
        · exact hzero x hx hlt

end

/-- `fixstring` returns, reads and writes nothing outside the whole words of the buffer, and
leaves the text of these words there, with zeros behind it. -/
theorem fixstring_eq (b : Bytes) (s count : Nat) :
    ∃ m, fixstring s count ⟨b, []⟩ = some m ∧
      (∀ a ∈ m.touched, s ≤ a ∧ a < s + count / 2 * 2) ∧
      b.AgreeOff s (s + count / 2 * 2) m.bytes ∧
      (normalised (bytesAt b s (count / 2 * 2))).length ≤ count / 2 * 2 ∧
      m.bytes.HasBytes s (padded (count / 2 * 2) (normalised (bytesAt b s (count / 2 * 2)))) := by
  obtain ⟨k, hk⟩ : ∃ k, k = count / 2 := ⟨_, rfl⟩
  have heven : (if count &&& 1 ≠ 0 then count - 1 else count) = 2 * k := by
    rw [Nat.and_one_is_mod]
    split <;> omega
  have htwice : count / 2 * 2 = 2 * k := by omega
  obtain ⟨m₁, hswap, hconf₁, hbytes₁⟩ :=
    swapLoop_hasBytes (m := ⟨b, []⟩) (length_bytesAt b s (2 * k)) (hasBytes_bytesAt b s (2 * k))
  have hlen : (swapPairs (bytesAt b s (2 * k))).length = 2 * k :=
    (length_swapPairs _).trans (length_bytesAt b s (2 * k))
  obtain ⟨s', m₂, hskip, hle, hend, hbytes₂, hconf₂⟩ :=
    skipLoop_eq hbytes₁ (Nat.le_refl s) (show _ < 2 * k + 1 by omega)
  rw [hlen] at hskip hend hconf₂
  obtain ⟨p, m₃, hcompress, hp, hstop, hbytes₃, -, hconf₃⟩ :=
    compressLoop_eq hbytes₂ (Nat.le_refl s) hle (show _ < 2 * k + 1 by omega)
  rw [← hend] at hcompress hstop hconf₃
  obtain ⟨m₄, hwipe, hbefore, hzero, hconf₄⟩ :=
    wipeLoop_eq (m := m₃) (by omega : s ≤ p) hstop (show _ < 2 * k + 1 by omega)
  have hconf := ((hconf₁.trans hconf₂).trans hconf₃).trans hconf₄
  rw [htwice, normalised, ← squeeze_eq]
  refine ⟨m₄, ?_, fun a ha => ?_, hconf.outside, by omega, Bytes.hasBytes_append.2 ⟨?_, ?_⟩⟩
  · unfold fixstring
    rw [heven]
    simp only [hswap, hskip, hcompress, Option.bind_some, hwipe]
  · exact (hconf.touched a ha).resolve_left List.not_mem_nil
  · intro i hi
    rw [hbefore _ (by omega)]
    exact hbytes₃ i hi
  · intro i hi
    rw [List.length_replicate] at hi
    rw [List.getElem_replicate]
    exact hzero _ (by omega) (by omega)

example :
    let bytes : List UInt8 := [0x41, 0x20, 0x20, 0x20, 0x42, 0x20, 0x20, 0x43, 0x44]
    (fixstring 0 9 ⟨(bytes.getD · 0), []⟩).map (bytesAt ·.bytes 0 9) =
      some [0x41, 0x20, 0x42, 0x43, 0, 0, 0, 0, 0x44] := by
  decide +kernel

end Ulysses.FixString
