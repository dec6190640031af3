import Mathlib.Data.List.TakeWhile
import Ulysses.HashTable.Basic

/-!
# Names

The contents of a `sys::String` that holds a name, and the operations of
`OOHash<sys::String, _>` on it. Names come from C strings, so no byte of one is zero,
and two names compare equal just when they are equal (`nameOps_compareKeys`).
-/

namespace Ulysses.Fs

structure Name where
  bytes : List UInt8
  nul_free : 0 ∉ bytes
  deriving DecidableEq

namespace Name

/-- `strncmp` of two strings of `len` bytes each. -/
def strncmp : List UInt8 → List UInt8 → Int
  | x :: xs, y :: ys =>
    if x = 0 then
      if y = 0 then 0 else -1
    else if x ≠ y then 1
    else strncmp xs ys
  | _, _ => 0

/-- `String::update_hash`. -/
def updateHash (hv : UInt32) (byte : UInt8) : UInt32 := (hv ^^^ byte.toUInt32) * 16777619

/-- `String::finish_hash`. -/
def finishHash (hv : UInt32) : UInt32 := hv >>> 31 ^^^ hv

/-- `String::hash`. -/
def hash (n : Name) : UInt32 := finishHash (n.bytes.foldl updateHash 2166136261)

/-- `String::operator==`. -/
def equal (n str : Name) : Bool :=
  if str.bytes.length ≠ n.bytes.length then false else strncmp n.bytes str.bytes == 0

/-- `OOHashOperations<sys::String>`. -/
def nameOps : HashOps Name where
  computeHash k := mixHash k.hash
  compareKeys a b := a.equal b

/-- `strncmp` is 0 when the strings are equal up to their first zero byte. -/
theorem strncmp_eq_zero_iff {xs ys : List UInt8} (hlen : ys.length = xs.length) :
    strncmp xs ys = 0 ↔ xs.takeWhile (· ≠ 0) = ys.takeWhile (· ≠ 0) := by
  induction xs generalizing ys with
  | nil =>
    obtain rfl := List.eq_nil_of_length_eq_zero hlen
    exact iff_of_true rfl rfl
  | cons x xs ih =>
    cases ys with
    | nil => cases hlen
    | cons y ys =>
      have htail := ih (Nat.succ.inj hlen)
      unfold strncmp
      by_cases hx : x = 0
      · by_cases hy : y = 0 <;> simp [hx, hy]
      · by_cases hxy : x = y
        · subst hxy
          simpa [hx] using htail
        · by_cases hy : y = 0 <;> simp [hx, hxy, hy]

theorem takeWhile_eq_iff {xs ys : List UInt8} (hlen : ys.length = xs.length) (hxs : 0 ∉ xs) :
    xs.takeWhile (· ≠ 0) = ys.takeWhile (· ≠ 0) ↔ xs = ys := by
  have hself : xs.takeWhile (· ≠ 0) = xs :=
    List.takeWhile_eq_self_iff.2 fun x hx => by simpa using fun h : x = 0 => hxs (h ▸ hx)
  rw [hself]
  refine ⟨fun h => h.trans (( List.takeWhile_prefix _).eq_of_length ?_), fun h => ?_⟩
  · rw [← h, hlen]
  · rw [← h, hself]

theorem strncmp_eq_zero {xs ys : List UInt8} (hlen : ys.length = xs.length) (hxs : 0 ∉ xs) :
    strncmp xs ys = 0 ↔ xs = ys :=
  (strncmp_eq_zero_iff hlen).trans (takeWhile_eq_iff hlen hxs)

/-- The same when the other string has no zero byte: one in the first string ends the
comparison, with a difference. -/
theorem strncmp_eq_zero_right {xs ys : List UInt8} (hlen : xs.length = ys.length) (hys : 0 ∉ ys) :
    strncmp xs ys = 0 ↔ xs = ys :=
  (strncmp_eq_zero_iff hlen.symm).trans
    (eq_comm.trans ((takeWhile_eq_iff hlen hys).trans eq_comm))

theorem nameOps_compareKeys {a b : Name} : nameOps.compareKeys a b = true ↔ a = b := by
  show a.equal b = true ↔ a = b
  unfold equal
  by_cases hlen : b.bytes.length = a.bytes.length
  · rw [if_neg (by simpa using hlen), beq_iff_eq, strncmp_eq_zero hlen a.nul_free]
    exact ⟨fun h => by cases a; cases b; simpa using h, fun h => h ▸ rfl⟩
  · rw [if_pos hlen]
    exact iff_of_false Bool.false_ne_true fun h => hlen (h ▸ rfl)

theorem nameOps_lawful : nameOps.Lawful := by
  constructor
  · intro a
    exact nameOps_compareKeys.2 rfl
  · intro a b h
    exact nameOps_compareKeys.2 (nameOps_compareKeys.1 h).symm
  · intro a b c hab hbc
    exact nameOps_compareKeys.2 ((nameOps_compareKeys.1 hab).trans (nameOps_compareKeys.1 hbc))
  · intro a b h
    rw [nameOps_compareKeys.1 h]

/-- The name "a". -/
def a : Name := ⟨[97], by decide⟩

end Name

end Ulysses.Fs
