import Ulysses.Console.Basic
import Ulysses.Lib.Reach

/-!
# The keyboard

`pressed` of `keyboard.cpp`, which reads one scan code per interrupt. `shifted_` is turned
over by every code of a shift key, those that a held key repeats included, so it follows the
keys just as long as no shift key is pressed, or repeats, while one is held
(`shiftRight_iff`).
-/

namespace Ulysses

open Lib

inductive KeyboardKeyType
  | none | reg | enter | ctrl | lshift | rshift | leftalt | caps | fc
  | home | up | pageUp | left | right | «end» | down | pageDown
deriving DecidableEq

/-- `Buffer::put`; `none` when it is full. -/
def CharBuffer.put (byte : UInt8) (b : CharBuffer) : Option CharBuffer :=
  if h : b.bytes.length = b.size then none
  else some ⟨b.size, b.bytes ++ [byte], by
    rw [List.length_append]
    exact Nat.lt_of_le_of_ne b.fits h⟩

/-- `Keyboard`. `puts` and `alerts` are the calls of `put` so far and those for which the
buffer was full. -/
structure Keyboard where
  shifted : Nat
  buffer : CharBuffer
  puts : List Char
  alerts : Nat

namespace Keyboard

open KeyboardKeyType

/-- `Keyboard::mapping`; the rest of its 128 entries is `none`. -/
def mapping : List KeyboardKeyType :=
  -- 0x0 to 0xe
  [.none, .none, reg, reg, reg, reg, reg, reg, reg, reg, reg, reg, reg, reg, reg,
  -- 0xf to 0x1c
    reg, reg, reg, reg, reg, reg, reg, reg, reg, reg, reg, reg, reg, enter,
  -- 0x1d to 0x29
    ctrl, reg, reg, reg, reg, reg, reg, reg, reg, reg, reg, reg, reg,
  -- 0x2a to 0x36
    lshift, reg, reg, reg, reg, reg, reg, reg, reg, reg, reg, reg, rshift,
  -- 0x37 to 0x46
    .none, leftalt, reg, caps, fc, fc, fc, fc, fc, fc, fc, fc, fc, fc, fc, fc,
  -- 0x47 to 0x51
    home, up, pageUp, .none, left, .none, right, .none, «end», down, pageDown]

def keyType (scanCode : UInt8) : KeyboardKeyType := mapping.getD (scanCode &&& 0x7f).toNat .none

/-- The columns of `dv_map`, by scan code. -/
def dvMap (shifted : Nat) : List Char :=
  if shifted = 0 then
    "\x00\x001234567890-=\x08\t',.pyfgcrl/=\n\x00aoeuidhtns-`\x00\\;qjkxbmwvz\x00\x00\x00 ".toList
  else
    "\x00\x00!@#$%^&*()_+\x08\t\"<>PYFGCRL?+\n\x00AOEUIDHTNS_~\x00|:QJKXBMWVZ\x00\x00\x00 ".toList

/-- `map_[scan_code][shifted_]`. -/
def charAt (scanCode : UInt8) (shifted : Nat) : Char := (dvMap shifted).getD scanCode.toNat '\x00'

/-- `init`; the buffer has a page. -/
def init : Keyboard := ⟨0, .allocate 4096, [], 0⟩

def put (keycode : Char) (k : Keyboard) : Keyboard :=
  let k := { k with puts := k.puts ++ [keycode] }
  match k.buffer.put (UInt8.ofNat keycode.toNat) with
  | some buffer => { k with buffer }
  | Option.none => { k with alerts := k.alerts + 1 }

def pressed (k : Keyboard) (scanCode : UInt8) : Keyboard :=
  match keyType scanCode with
  | reg | enter => if scanCode ≤ 0x3a then k.put (charAt scanCode k.shifted) else k
  | lshift | rshift => { k with shifted := k.shifted ^^^ 1 }
  | _ => k

/-! ## The keys that are held -/

structure Held where
  left : Bool
  right : Bool
deriving DecidableEq

def Held.none : Held := ⟨false, false⟩

/-- A make code, also one that is repeated, and a break code of the shift keys. -/
def Held.step (h : Held) (scanCode : UInt8) : Held :=
  if scanCode = 0x2a then { h with left := true }
  else if scanCode = 0xaa then { h with left := false }
  else if scanCode = 0x36 then { h with right := true }
  else if scanCode = 0xb6 then { h with right := false }
  else h

/-- The column for the keys held. -/
def Held.shifted (h : Held) : Nat := if h.left || h.right then 1 else 0

/-- The break code of a shift key follows its make code. -/
def Held.Allows (scanCode : UInt8) (h : Held) : Prop :=
  (scanCode = 0xaa → h.left = true) ∧ (scanCode = 0xb6 → h.right = true)

/-- What a code should put: the make code of a regular key its character. -/
def expected (scanCode : UInt8) (h : Held) : List Char :=
  if (keyType scanCode = reg ∨ keyType scanCode = enter) ∧ scanCode < 0x80 then
    [charAt scanCode h.shifted]
  else []

/-- The keyboard and the keys held, code by code. -/
def step (s : Keyboard × Held) (scanCode : UInt8) : Keyboard × Held :=
  (s.1.pressed scanCode, s.2.step scanCode)

/-- After a code the shift state is that of the keys, and it has put what it should. -/
def Follows (scanCode : UInt8) (s : Keyboard × Held) : Prop :=
  (s.1.pressed scanCode).shifted = (s.2.step scanCode).shifted ∧
    (s.1.pressed scanCode).puts = s.1.puts ++ expected scanCode s.2

/-- A make code of a shift key comes when none is held. -/
def Held.Alone (scanCode : UInt8) (h : Held) : Prop :=
  scanCode = 0x2a ∨ scanCode = 0x36 → h = Held.none

example : (dvMap 0).length = 0x3a ∧ (dvMap 1).length = 0x3a := by decide +kernel

/-! ## What a code does -/

section

variable {k : Keyboard} {h : Held} {scanCode : UInt8}

theorem forall_scanCode {P : UInt8 → Prop} (hP : ∀ n < 256, P (UInt8.ofNat n)) (scanCode : UInt8) :
    P scanCode := by
  have hcode := hP scanCode.toNat scanCode.toNat_lt
  rwa [UInt8.ofNat_toNat] at hcode

theorem put_shifted (c : Char) (k : Keyboard) : (k.put c).shifted = k.shifted := by
  unfold put
  dsimp only
  split <;> rfl

theorem put_puts (c : Char) (k : Keyboard) : (k.put c).puts = k.puts ++ [c] := by
  unfold put
  dsimp only
  split <;> rfl

theorem keyType_shift (scanCode : UInt8) :
    (keyType scanCode = lshift ∨ keyType scanCode = rshift) ↔
      scanCode = 0x2a ∨ scanCode = 0xaa ∨ scanCode = 0x36 ∨ scanCode = 0xb6 := by
  refine forall_scanCode (P := fun c => (keyType c = lshift ∨ keyType c = rshift) ↔
    c = 0x2a ∨ c = 0xaa ∨ c = 0x36 ∨ c = 0xb6) ?_ scanCode
  decide +kernel

/-- The check in `pressed` tells the make codes of regular keys. -/
theorem le_iff_make (hreg : keyType scanCode = reg ∨ keyType scanCode = enter) :
    scanCode ≤ 0x3a ↔ scanCode < 0x80 := by
  revert hreg
  refine forall_scanCode (P := fun c => keyType c = reg ∨ keyType c = enter →
    (c ≤ 0x3a ↔ c < 0x80)) ?_ scanCode
  decide +kernel

theorem pressed_shift (hshift : keyType scanCode = lshift ∨ keyType scanCode = rshift) :
    k.pressed scanCode = { k with shifted := k.shifted ^^^ 1 } ∧ expected scanCode h = [] := by
  unfold pressed expected
  rcases hshift with hshift | hshift <;> rw [hshift] <;> exact ⟨rfl, if_neg (by simp)⟩

theorem pressed_other (hleft : keyType scanCode ≠ lshift) (hright : keyType scanCode ≠ rshift)
    (hk : k.shifted = h.shifted) :
    (k.pressed scanCode).shifted = k.shifted ∧
      (k.pressed scanCode).puts = k.puts ++ expected scanCode h := by
  by_cases hreg : keyType scanCode = reg ∨ keyType scanCode = enter
  · have hpressed : k.pressed scanCode =
        if scanCode ≤ 0x3a then k.put (charAt scanCode k.shifted) else k := by
      unfold pressed
      rcases hreg with hreg | hreg <;> rw [hreg]
    unfold expected
    rw [hpressed]
    by_cases hmake : scanCode ≤ 0x3a
    · rw [if_pos hmake, if_pos ⟨hreg, (le_iff_make hreg).1 hmake⟩, ← hk]
      exact ⟨put_shifted _ k, put_puts _ k⟩
    · rw [if_neg hmake, if_neg fun h => hmake ((le_iff_make hreg).2 h.2), List.append_nil]
      exact ⟨rfl, rfl⟩
  · have hpressed : k.pressed scanCode = k := by
      unfold pressed
      split <;> simp_all
    unfold expected
    rw [hpressed, if_neg fun h => hreg h.1, List.append_nil]
    exact ⟨rfl, rfl⟩

/-- The shift state is that of the keys, of which one is held at most. -/
structure Inv (s : Keyboard × Held) : Prop where
  shifted : s.1.shifted = s.2.shifted
  one : s.2.left = false ∨ s.2.right = false

theorem Held.step_other (hleft : keyType scanCode ≠ lshift) (hright : keyType scanCode ≠ rshift)
    (h : Held) : h.step scanCode = h := by
  have hnone : ¬(scanCode = 0x2a ∨ scanCode = 0xaa ∨ scanCode = 0x36 ∨ scanCode = 0xb6) := by
    rw [← keyType_shift]
    exact not_or.2 ⟨hleft, hright⟩
  simp only [not_or] at hnone
  unfold Held.step
  rw [if_neg hnone.1, if_neg hnone.2.1, if_neg hnone.2.2.1, if_neg hnone.2.2.2]

theorem follows_iff {s : Keyboard × Held} (hs : Inv s) (hallows : Held.Allows scanCode s.2) :
    Follows scanCode s ↔ Held.Alone scanCode s.2 := by
  obtain ⟨k, left, right⟩ := s
  obtain ⟨hshifted, hone⟩ := hs
  dsimp only at hshifted hone
  by_cases hshift : keyType scanCode = lshift ∨ keyType scanCode = rshift
  · obtain ⟨hpressed, hnothing⟩ := pressed_shift (k := k) (h := ⟨left, right⟩) hshift
    unfold Follows Held.Alone
    dsimp only
    rw [hpressed, hnothing, List.append_nil, and_iff_left rfl, hshifted]
    unfold Held.Allows at hallows
    rcases (keyType_shift scanCode).1 hshift with rfl | rfl | rfl | rfl <;>
      cases left <;> cases right <;> simp_all [Held.step, Held.shifted, Held.none]
  · obtain ⟨hleft, hright⟩ := not_or.1 hshift
    have hpressed := pressed_other (k := k) (h := ⟨left, right⟩) hleft hright hshifted
    refine iff_of_true ⟨?_, hpressed.2⟩ fun hmake => ?_
    · rw [Held.step_other hleft hright]
      exact hpressed.1.trans hshifted
    · refine absurd ((keyType_shift scanCode).2 ?_) hshift
      rcases hmake with rfl | rfl
      · exact .inl rfl
      · exact .inr (.inr (.inl rfl))

theorem Inv.step {s : Keyboard × Held} (hs : Inv s) (hallows : Held.Allows scanCode s.2)
    (hfollows : Follows scanCode s) : Inv (step s scanCode) := by
  refine ⟨hfollows.1, ?_⟩
  have halone := (follows_iff hs hallows).1 hfollows
  have hone := hs.one
  unfold Held.Alone at halone
  show (s.2.step scanCode).left = false ∨ (s.2.step scanCode).right = false
  unfold Held.step
  split_ifs with h1 h2 h3 h4
  · rw [halone (.inl h1)]
    exact .inr rfl
  · exact .inl rfl
  · rw [halone (.inr h3)]
    exact .inl rfl
  · exact .inr rfl
  · exact hone

end

/-- For shift keys that repeat while they are held, the shift state follows the keys, and
what is put is right, just when no make code of a shift key comes while one is held. -/
theorem shiftRight_iff (codes : List UInt8) (h : Along Held.step Held.Allows codes .none) :
    Along step Follows codes (init, .none) ↔ Along Held.step Held.Alone codes .none := by
  have hproj : ∀ (T : UInt8 → Held → Prop), Along step (fun c s => T c s.2) codes (init, .none) ↔
      Along Held.step T codes .none := fun T =>
        along_comap (fun _ _ => rfl) codes (init, Held.none)
  rw [← hproj Held.Alone]
  exact Along.congr (I := Inv) (R := fun c s => Held.Allows c s.2)
    (fun _ _ hs hallows hfollows => hs.step hallows hfollows)
    (fun _ _ hs hallows => follows_iff hs hallows) ⟨rfl, .inl rfl⟩ ((hproj Held.Allows).2 h)

/-- Shift, a letter, and a letter without it. -/
theorem shiftRight_iff_letters :
    Along Held.step Held.Allows [0x2a, 0x1e, 0x9e, 0xaa, 0x1e] .none ∧
    Along step Follows [0x2a, 0x1e, 0x9e, 0xaa, 0x1e] (init, .none) := by
  have hallows : Along Held.step Held.Allows [0x2a, 0x1e, 0x9e, 0xaa, 0x1e] .none := by
    unfold Along Along Along Along Along Along Held.Allows
    decide
  refine ⟨hallows, (shiftRight_iff _ hallows).2 ?_⟩
  unfold Along Along Along Along Along Along Held.Alone
  decide

/-- The second code of a held shift key. -/
theorem shift_repeats :
    Along Held.step Held.Allows [0x2a, 0x2a, 0x1e] .none ∧
    ¬Along step Follows [0x2a, 0x2a, 0x1e] (init, .none) ∧
    ([0x2a, 0x2a, 0x1e].foldl pressed init).puts = ['a'] ∧
    ([0x2a, 0x2a].foldl Held.step .none).shifted = 1 := by
  refine ⟨?_, fun h => ?_, by decide +kernel, by decide⟩
  · unfold Along Along Along Along Held.Allows
    decide
  · have hshifted := h.2.1.1
    exact absurd hshifted (by decide)

end Keyboard

end Ulysses
