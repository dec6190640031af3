import Mathlib.Data.List.Basic
import Mathlib.Tactic.IntervalCases
import Ulysses.Lib.CString
import Ulysses.Lib.Word

/-!
# Formatted output

`vprintf` of `console.cpp` with the functions that print numbers. What is put on the screen
is a list of characters. Numbers without a width are printed as `Nat.toDigits` writes them,
except for the most negative `int`; with a width `vprintf` puts as many zeros in front as
the number has characters, whenever that is less than the width (`vprintf_padded_iff`).
-/

namespace Ulysses

open Lib

namespace Printf

/-! ## Numbers -/

/-- `tmp + '0'`. -/
def decChar (tmp : Nat) : Char := Char.ofNat (tmp + 48)

/-- The first loop of `write_dec`, which fills `c`. -/
def decLoop : Nat → Int → List Char
  | 0, _ => []
  | room + 1, acc => if acc > 0 then decChar (acc % 10).toNat :: decLoop room (acc / 10) else []

/-- `write_dec`; `c` has room for 31 characters and a zero byte. -/
def writeDec (n : Int) : List Char :=
  if n = 0 then ['0']
  else if n < 0 then '-' :: (decLoop 31 (s32 (-n))).reverse
  else (decLoop 31 n).reverse

/-- An `s64`. -/
def s64 (x : Int) : Int := Int.bmod x 18446744073709551616

/-- `write_dec_ll`. -/
def writeDecLl (n : Nat) : List Char :=
  if n = 0 then ['0']
  else if s64 n < 0 then '-' :: (decLoop 31 (s64 (18446744073709551616 - n))).reverse
  else (decLoop 31 (s64 n)).reverse

/-- The loop of `dec_width`. -/
def decWidthLoop : Nat → Int → Nat
  | 0, _ => 0
  | fuel + 1, acc => if acc > 0 then decWidthLoop fuel (acc / 10) + 1 else 0

/-- `dec_width`; a number has no more than 31 digits. -/
def decWidth (n : Int) : Nat :=
  if n = 0 then 1
  else if n < 0 then decWidthLoop 31 (s32 (-n)) + 1
  else decWidthLoop 31 n

/-- `(n >> i) & 0xF`. -/
def nibble (n : Int) (i : Nat) : Nat := (n / 2 ^ i % 16).toNat

def hexChar (tmp : Nat) : Char := if tmp ≥ 0xA then Char.ofNat (tmp - 0xA + 97) else decChar tmp

/-- The loop of `write_hex_np` over the shifts `i`. -/
def hexLoop (n : Int) : List Nat → Bool → List Char
  | [], _ => []
  | i :: is, noZeroes =>
    if nibble n i = 0 ∧ noZeroes then hexLoop n is noZeroes
    else hexChar (nibble n i) :: hexLoop n is false

/-- The values of `i` in the loops over the digits but the last. -/
def shifts : List Nat := [28, 24, 20, 16, 12, 8, 4]

/-- `write_hex_np`. -/
def writeHexNp (n : Int) : List Char := hexLoop n shifts true ++ [hexChar (nibble n 0)]

/-- The loop of `hex_width`. -/
def hexWidthLoop (n : Int) : List Nat → Bool → Nat
  | [], _ => 1
  | i :: is, noZeroes =>
    if nibble n i = 0 ∧ noZeroes then hexWidthLoop n is noZeroes else hexWidthLoop n is false + 1

/-- `hex_width`. -/
def hexWidth (n : Int) : Nat := hexWidthLoop n shifts true

/-! ## Formats -/

/-- What `vprintf` reads a character after `%` as. -/
inductive Directive
  | percent | string | decimal | quad | hex | char | float | long | thread | ignored
  | width (n : Nat)
  | other

def directive : Char → Directive
  | '%' => .percent
  | 's' | 'S' => .string
  | 'd' | 'i' | 'o' | 'u' | 'D' | 'O' | 'U' => .decimal
  | 'q' => .quad
  | 'x' | 'X' | 'p' => .hex
  | 'C' | 'c' => .char
  | 'e' | 'E' | 'f' | 'F' | 'g' | 'G' | 'a' | 'A' => .float
  | 'l' => .long
  | 't' => .thread
  | 'h' | 'j' | 'z' | '0' | ' ' => .ignored
  | '1' => .width 1
  | '2' => .width 2
  | '3' => .width 4
  | '4' => .width 4
  | '5' => .width 5
  | '6' => .width 6
  | '7' => .width 7
  | '8' => .width 8
  | '9' => .width 9
  | _ => .other

/-- What `%t` prints of a `Thread`. -/
structure ThreadInfo where
  pid : Int
  id : Int
  eip : Int

/-- The memory that arguments point to. -/
structure Env where
  mem : Bytes
  thread : Nat → ThreadInfo

/-- The arguments left, a word each, the variable `d` and the characters put. -/
structure State where
  args : List Nat
  d : Int
  out : List Char

def State.write (cs : List Char) (s : State) : State := { s with out := s.out ++ cs }

/-- `va_arg` of one word; `none` is an argument that was not passed. -/
def State.vaArg (s : State) : Option (Nat × State) :=
  match s.args with
  | [] => none
  | word :: args => some (word, { s with args })

/-- The characters of the C string at `a`. -/
def cstr (m : Bytes) (a : Nat) : Option (List Char) :=
  (m.strlen a).map fun n => (List.range n).map fun i => Char.ofNat (m (a + i)).toNat

/-- The zeros in front of a number of `dw` characters. -/
def zeros (width dw : Nat) : List Char :=
  if width ≠ 0 ∧ (width : Int) - dw ≥ 1 then List.replicate dw '0' else []

/-- A conversion, with the width and the number of `l` before it. `%ld` measures `d`, which
is left from an earlier conversion. -/
def convert (env : Env) (width isLong : Nat) (dir : Directive) (s : State) : Option State :=
  match dir with
  | .percent => some (s.write ['%'])
  | .string => s.vaArg.bind fun (word, s) =>
    if word = 0 then some (s.write "<null>".toList)
    else (cstr env.mem word).map fun cs => s.write cs
  | .decimal =>
    if isLong = 1 then s.vaArg.map fun (word, s) =>
      (s.write (zeros width (decWidth s.d))).write (writeDec (s32 word))
    else if isLong = 2 then s.vaArg.bind fun (low, s) => s.vaArg.map fun (high, s) =>
      s.write (writeDecLl (low + 4294967296 * high))
    else s.vaArg.map fun (word, s) =>
      let s := { s with d := s32 word }
      (s.write (zeros width (decWidth s.d))).write (writeDec s.d)
  | .quad => s.vaArg.map fun (word, s) =>
    s.write (writeDecLl (env.mem.read32 word + 4294967296 * env.mem.read32 (word + 4)))
  | .hex => s.vaArg.map fun (word, s) =>
    let s := { s with d := s32 word }
    (s.write (zeros width (hexWidth s.d))).write (writeHexNp s.d)
  | .char => s.vaArg.map fun (word, s) => s.write [Char.ofNat (word % 256)]
  | .float => some (s.write "<some float>".toList)
  | .thread => s.vaArg.map fun (word, s) =>
    s.write ("<Thread:0x".toList ++ writeHexNp (s32 word) ++ " (".toList ++
      writeDec (env.thread word).pid ++ ":".toList ++ writeDec (env.thread word).id ++
      ") at ".toList ++ writeHexNp (env.thread word).eip ++ ">".toList)
  | _ => some s

/-- `vprintf`; inside a conversion with its `width` and `is_long`. A format that ends there
is read beyond its end. -/
def vprintf (env : Env) : Option (Nat × Nat) → List Char → State → Option State
  | none, [], s => some s
  | some _, [], _ => none
  | none, cur :: fmt, s =>
    if cur = '%' then vprintf env (some (0, 0)) fmt s else vprintf env none fmt (s.write [cur])
  | some (width, isLong), c :: fmt, s =>
    match directive c with
    | .long => vprintf env (some (width, isLong + 1)) fmt s
    | .ignored => vprintf env (some (width, isLong)) fmt s
    | .width n => vprintf env (some (n, isLong)) fmt s
    | dir => (convert env width isLong dir s).bind fun s => vprintf env none fmt s

/-! ## What is printed of a number -/

theorem decChar_eq {k : Nat} (h : k < 10) : decChar k = Nat.digitChar k := by
  interval_cases k <;> rfl

theorem hexChar_eq {k : Nat} (h : k < 16) : hexChar k = Nat.digitChar k := by
  interval_cases k <;> rfl

theorem decLoop_reverse {room acc : Nat} (hpos : 0 < acc) (hlt : acc < 10 ^ room) :
    (decLoop room acc).reverse = Nat.toDigits 10 acc := by
  induction room generalizing acc with
  | zero => omega
  | succ room ih =>
    have hmod : ((acc : Int) % 10).toNat = acc % 10 := by omega
    have hdiv : (acc : Int) / 10 = (acc / 10 : Nat) := by omega
    rw [decLoop, if_pos (by omega), hmod, hdiv, List.reverse_cons,
      decChar_eq (Nat.mod_lt _ (by omega))]
    by_cases hsmall : acc < 10
    · rw [Nat.div_eq_of_lt hsmall, Nat.mod_eq_of_lt hsmall, Nat.toDigits_of_lt_base hsmall]
      cases room <;> rfl
    · rw [ih (by omega) (by rw [Nat.pow_succ] at hlt; omega),
        ← Nat.toDigits_of_lt_base (Nat.mod_lt acc (by decide : 10 > 0)),
        Nat.toDigits_append_toDigits (by decide) (by omega) (Nat.mod_lt _ (by decide))]
      congr 1
      omega

theorem decWidthLoop_eq (fuel : Nat) (acc : Int) :
    decWidthLoop fuel acc = (decLoop fuel acc).length := by
  induction fuel generalizing acc with
  | zero => rfl
  | succ fuel ih =>
    unfold decWidthLoop decLoop
    split
    · rw [ih, List.length_cons]
    · rfl

/-- `dec_width` measures what `write_dec` prints. -/
theorem decWidth_eq (n : Int) : decWidth n = (writeDec n).length := by
  unfold decWidth writeDec
  split_ifs
  · rfl
  · rw [decWidthLoop_eq, List.length_cons, List.length_reverse]
  · rw [decWidthLoop_eq, List.length_reverse]

theorem hexWidthLoop_eq (n : Int) (is : List Nat) (noZeroes : Bool) :
    hexWidthLoop n is noZeroes = (hexLoop n is noZeroes).length + 1 := by
  induction is generalizing noZeroes with
  | nil => rfl
  | cons i is ih =>
    unfold hexWidthLoop hexLoop
    split
    · exact ih noZeroes
    · rw [ih, List.length_cons]

theorem hexWidth_eq (n : Int) : hexWidth n = (writeHexNp n).length := by
  unfold hexWidth writeHexNp
  rw [hexWidthLoop_eq, List.length_append, List.length_singleton]

/-- The number with the digits of `is`, after `acc`. -/
def value (n : Int) (acc : Nat) (is : List Nat) : Nat :=
  is.foldl (fun acc i => 16 * acc + nibble n i) acc

theorem nibble_lt (n : Int) (i : Nat) : nibble n i < 16 := by
  unfold nibble
  omega

theorem value_concat (n : Int) (acc : Nat) (is : List Nat) (j : Nat) :
    value n acc (is ++ [j]) = 16 * value n acc is + nibble n j := by
  unfold value
  rw [List.foldl_append]
  rfl

theorem value_pos (n : Int) {acc : Nat} (hacc : 0 < acc) (is : List Nat) : 0 < value n acc is := by
  induction is generalizing acc with
  | nil => exact hacc
  | cons i is ih => exact ih (Nat.add_pos_left (Nat.mul_pos (by decide) hacc) _)

theorem toDigits_append_nibble {acc : Nat} (hacc : 0 < acc) (n : Int) (i : Nat) :
    Nat.toDigits 16 acc ++ [hexChar (nibble n i)] = Nat.toDigits 16 (16 * acc + nibble n i) := by
  rw [hexChar_eq (nibble_lt n i), ← Nat.toDigits_of_lt_base (nibble_lt n i),
    Nat.toDigits_append_toDigits (by decide) hacc (nibble_lt n i)]

theorem hexLoop_false (n : Int) {acc : Nat} (hacc : 0 < acc) (is : List Nat) :
    Nat.toDigits 16 acc ++ hexLoop n is false = Nat.toDigits 16 (value n acc is) := by
  induction is generalizing acc with
  | nil => exact List.append_nil _
  | cons i is ih =>
    rw [hexLoop, if_neg (by simp), List.append_cons, toDigits_append_nibble hacc]
    exact ih (by omega)

theorem hexLoop_true (n : Int) (is : List Nat) (j : Nat) :
    hexLoop n is true ++ [hexChar (nibble n j)] = Nat.toDigits 16 (value n 0 (is ++ [j])) := by
  induction is with
  | nil =>
    show [hexChar (nibble n j)] = Nat.toDigits 16 (16 * 0 + nibble n j)
    rw [Nat.mul_zero, Nat.zero_add, Nat.toDigits_of_lt_base (nibble_lt n j),
      hexChar_eq (nibble_lt n j)]
  | cons i is ih =>
    unfold hexLoop
    by_cases hzero : nibble n i = 0
    · rw [if_pos ⟨hzero, rfl⟩, ih]
      show _ = Nat.toDigits 16 (value n (16 * 0 + nibble n i) (is ++ [j]))
      rw [hzero]
    · have hpos : 0 < nibble n i := Nat.pos_of_ne_zero hzero
      rw [if_neg (fun h => hzero h.1), hexChar_eq (nibble_lt n i), ← List.singleton_append,
        ← Nat.toDigits_of_lt_base (nibble_lt n i), hexLoop_false n hpos is,
        toDigits_append_nibble (value_pos n hpos is), ← value_concat]
      show _ = Nat.toDigits 16 (value n (16 * 0 + nibble n i) (is ++ [j]))
      rw [Nat.mul_zero, Nat.zero_add]

theorem nibble_eq (n : Int) {i : Nat} (hi : i ∈ shifts ++ [0]) :
    nibble n i = (n % 4294967296).toNat / 2 ^ i % 16 := by
  unfold nibble
  simp only [shifts, List.cons_append, List.nil_append, List.mem_cons, List.not_mem_nil,
    or_false] at hi
  rcases hi with rfl | rfl | rfl | rfl | rfl | rfl | rfl | rfl <;> omega

theorem value_shifts (n : Int) : value n 0 (shifts ++ [0]) = (n % 4294967296).toNat := by
  have hlt : (n % 4294967296).toNat < 4294967296 := by omega
  have hvalue : value n 0 (shifts ++ [0]) =
      (shifts ++ [0]).foldl (fun acc i => 16 * acc + (n % 4294967296).toNat / 2 ^ i % 16) 0 :=
    List.foldl_ext _ _ _ fun acc i hi => by rw [nibble_eq n hi]
  rw [hvalue]
  generalize (n % 4294967296).toNat = u at hlt
  have hstep : ∀ i, 16 * (u / 2 ^ (i + 4)) + u / 2 ^ i % 16 = u / 2 ^ i := by
    intro i
    rw [Nat.pow_add, ← Nat.div_div_eq_div_mul]
    exact Nat.div_add_mod _ 16
  have hfirst := hstep 28
  rw [show u / 2 ^ (28 + 4) = 0 from Nat.div_eq_of_lt hlt] at hfirst
  simp only [shifts, List.cons_append, List.nil_append, List.foldl_cons, List.foldl_nil]
  rw [hfirst, hstep 24, hstep 20, hstep 16, hstep 12, hstep 8, hstep 4, hstep 0]
  exact Nat.div_one u

theorem writeHexNp_eq (n : Int) : writeHexNp n = Nat.toDigits 16 (n % 4294967296).toNat := by
  unfold writeHexNp
  rw [hexLoop_true, value_shifts]

theorem writeDec_of_pos {n : Int} (hpos : 0 < n) (hlt : n < 2147483648) :
    writeDec n = Nat.toDigits 10 n.natAbs := by
  obtain ⟨k, rfl⟩ := Int.eq_ofNat_of_zero_le (Int.le_of_lt hpos)
  unfold writeDec
  rw [if_neg (by omega), if_neg (by omega), decLoop_reverse (by omega) (by omega)]
  rfl

theorem writeDec_of_neg {n : Int} (hneg : n < 0) (hlt : -2147483648 < n) :
    writeDec n = '-' :: Nat.toDigits 10 n.natAbs := by
  obtain ⟨k, hk⟩ := Int.eq_ofNat_of_zero_le (show 0 ≤ -n by omega)
  unfold writeDec
  rw [if_neg (by omega), if_pos hneg, s32_eq (by omega) (by omega), hk,
    decLoop_reverse (by omega) (by omega)]
  congr 2
  omega

/-! ## Zero-padded numbers -/

inductive Conversion
  | dec
  | hex
deriving DecidableEq

/-- Where the zeros of a negative number go. -/
inductive Place
  | signFirst
  | zerosFirst
deriving DecidableEq

def Conversion.letter : Conversion → Char
  | .dec => 'd'
  | .hex => 'x'

def sign (d : Int) : Conversion → List Char
  | .dec => if d < 0 then ['-'] else []
  | .hex => []

/-- The digits of `d`, as a `u32` in hexadecimal. -/
def digits (d : Int) : Conversion → List Char
  | .dec => Nat.toDigits 10 d.natAbs
  | .hex => Nat.toDigits 16 (d % 4294967296).toNat

def natural (d : Int) (conv : Conversion) : List Char := sign d conv ++ digits d conv

/-- The number with zeros in front, to at least `w` characters. -/
def padded (place : Place) (conv : Conversion) (d : Int) (w : Nat) : List Char :=
  let front := List.replicate (w - (natural d conv).length) '0'
  match place with
  | .signFirst => sign d conv ++ front ++ digits d conv
  | .zerosFirst => front ++ sign d conv ++ digits d conv

/-- What `vprintf` puts for `%0wd` or `%0wx`; `stale` is its variable `d` before. -/
def printed (env : Env) (stale : Int) (conv : Conversion) (d : Int) (w : Nat) :
    Option (List Char) :=
  (vprintf env none ['%', '0', Nat.digitChar w, conv.letter]
    ⟨[(d % 4294967296).toNat], stale, []⟩).map State.out

/-- What is put without a width. -/
def written (d : Int) : Conversion → List Char
  | .dec => writeDec d
  | .hex => writeHexNp d

theorem vprintf_width (env : Env) {w : Nat} (h1 : 1 ≤ w) (h9 : w ≤ 9) (isLong : Nat)
    (fmt : List Char) (s : State) :
    vprintf env (some (0, isLong)) (Nat.digitChar w :: fmt) s =
      vprintf env (some (if w = 3 then 4 else w, isLong)) fmt s := by
  interval_cases w <;> rfl

theorem vprintf_decimal (env : Env) (width word : Nat) (stale : Int) :
    vprintf env (some (width, 0)) ['d'] ⟨[word], stale, []⟩ =
      some ⟨[], s32 word, zeros width (decWidth (s32 word)) ++ writeDec (s32 word)⟩ := by
  have hdir : directive 'd' = .decimal := rfl
  rw [vprintf, hdir]
  simp only [vprintf, convert, State.vaArg, State.write, Option.map_some, Option.bind_some,
    List.nil_append, Nat.zero_ne_one, OfNat.zero_ne_ofNat, if_false]

theorem vprintf_hex (env : Env) (width word : Nat) (stale : Int) :
    vprintf env (some (width, 0)) ['x'] ⟨[word], stale, []⟩ =
      some ⟨[], s32 word, zeros width (hexWidth (s32 word)) ++ writeHexNp (s32 word)⟩ := by
  have hdir : directive 'x' = .hex := rfl
  rw [vprintf, hdir]
  simp only [vprintf, convert, State.vaArg, State.write, Option.map_some, Option.bind_some,
    List.nil_append]

theorem zeros_eq {width dw : Nat} (h : width ≠ 0) :
    zeros width dw = List.replicate (if dw < width then dw else 0) '0' := by
  unfold zeros
  by_cases hlt : dw < width
  · rw [if_pos ⟨h, by omega⟩, if_pos hlt]
  · rw [if_neg (by omega), if_neg hlt]
    rfl

section

variable {d : Int} {w : Nat}

theorem printed_eq (env : Env) (stale : Int) (conv : Conversion)
    (hlo : -2147483648 ≤ d) (hhi : d < 2147483648) (h1 : 1 ≤ w) (h9 : w ≤ 9) :
    printed env stale conv d w =
      some (List.replicate
          (if (written d conv).length < (if w = 3 then 4 else w) then (written d conv).length
            else 0)
          '0' ++ written d conv) := by
  have hd : s32 (d % 4294967296).toNat = d := by
    rw [Int.toNat_of_nonneg (by omega)]
    exact (Int.emod_bmod ..).trans (s32_eq hlo hhi)
  have hwidth : (if w = 3 then 4 else w) ≠ 0 := by
    split <;> omega
  unfold printed
  generalize (d % 4294967296).toNat = word at hd
  have hstart : vprintf env none ['%', '0', Nat.digitChar w, conv.letter] ⟨[word], stale, []⟩ =
      vprintf env (some (0, 0)) [Nat.digitChar w, conv.letter] ⟨[word], stale, []⟩ := rfl
  rw [hstart, vprintf_width env h1 h9, ← zeros_eq hwidth]
  cases conv with
  | dec =>
    rw [Conversion.letter, vprintf_decimal, hd, decWidth_eq]
    rfl
  | hex =>
    rw [Conversion.letter, vprintf_hex, hd, hexWidth_eq]
    rfl

theorem written_eq {conv : Conversion} (hlo : -2147483648 ≤ d) (hhi : d < 2147483648)
    (hmin : conv = .dec → d ≠ -2147483648) : written d conv = natural d conv := by
  cases conv with
  | hex => exact writeHexNp_eq d
  | dec =>
    have hmin := hmin rfl
    show writeDec d = (if d < 0 then ['-'] else []) ++ Nat.toDigits 10 d.natAbs
    rcases Int.lt_trichotomy d 0 with hneg | rfl | hpos
    · rw [writeDec_of_neg hneg (by omega), if_pos hneg]
      rfl
    · rfl
    · rw [writeDec_of_pos hpos hhi, if_neg (by omega)]
      rfl

theorem natural_pos (d : Int) (conv : Conversion) : 0 < (natural d conv).length := by
  have hdigits : ∀ b n, 0 < (Nat.toDigits b n).length := fun b n => Nat.length_toDigits_pos
  unfold natural
  rw [List.length_append]
  cases conv with
  | dec => exact Nat.add_pos_right _ (hdigits 10 _)
  | hex => exact Nat.add_pos_right _ (hdigits 16 _)

theorem sign_cases (d : Int) (conv : Conversion) : sign d conv = [] ∨ sign d conv = ['-'] := by
  cases conv with
  | dec =>
    by_cases hd : d < 0
    · exact .inr (if_pos hd)
    · exact .inl (if_neg hd)
  | hex => exact .inl rfl

/-- As many zeros in front as the padded number has: at the place where `vprintf` puts them,
or none. -/
theorem replicate_eq_padded_iff (place : Place) (conv : Conversion) (z : Nat) :
    List.replicate z '0' ++ natural d conv = padded place conv d w ↔
      z = w - (natural d conv).length ∧ (z = 0 ∨ place = .zerosFirst ∨ sign d conv = []) := by
  obtain ⟨front, hfront⟩ : ∃ front, front = w - (natural d conv).length := ⟨_, rfl⟩
  have hcount : List.replicate z '0' ++ natural d conv =
      List.replicate front '0' ++ natural d conv ↔ z = front := by
    rw [List.append_left_inj, List.replicate_left_inj]
  unfold padded
  rw [← hfront]
  cases place with
  | zerosFirst =>
    dsimp only
    rw [List.append_assoc]
    exact hcount.trans (and_iff_left (.inr (.inl rfl))).symm
  | signFirst =>
    dsimp only
    rcases sign_cases d conv with hsign | hsign
    · have hdigits : natural d conv = digits d conv := by rw [natural, hsign, List.nil_append]
      rw [hsign, List.nil_append, ← hdigits]
      exact hcount.trans (and_iff_left (.inr (.inr rfl))).symm
    · rw [natural, hsign]
      cases z with
      | zero =>
        refine ⟨fun heq => ⟨?_, .inl rfl⟩, fun h => ?_⟩
        · have hlen := congrArg List.length heq
          simp only [List.length_append, List.length_replicate, List.length_singleton] at hlen
          omega
        · rw [← h.1]
          rfl
      | succ z =>
        refine iff_of_false (fun heq => ?_) fun h => ?_
        · -- a zero against the sign
          cases heq
        · rcases h.2 with h | h | h <;> cases h

theorem length_padded (place : Place) (conv : Conversion) (d : Int) (w : Nat) :
    (padded place conv d w).length = w - (natural d conv).length + (natural d conv).length := by
  have hnatural : (natural d conv).length = (sign d conv).length + (digits d conv).length :=
    List.length_append
  cases place with
  | signFirst =>
    simp only [padded, List.length_append, List.length_replicate]
    omega
  | zerosFirst =>
    simp only [padded, List.length_append, List.length_replicate]
    omega

/-- The zeros that a number of `n` characters gets are those that are due. -/
theorem zeros_due_iff {n : Nat} (hn : 0 < n) (may : Prop) :
    (if n < (if w = 3 then 4 else w) then n else 0) = w - n ∧
        ((if n < (if w = 3 then 4 else w) then n else 0) = 0 ∨ may) ↔
      w ≤ n ∧ ¬(w = 3 ∧ n = 3) ∨ w = 2 * n ∧ may := by
  obtain ⟨width, hwidth, hthree⟩ : ∃ width, width = (if w = 3 then 4 else w) ∧
      (w = 3 ∧ width = 4 ∨ w ≠ 3 ∧ width = w) := by
    by_cases h3 : w = 3
    · exact ⟨4, (if_pos h3).symm, .inl ⟨h3, rfl⟩⟩
    · exact ⟨w, (if_neg h3).symm, .inr ⟨h3, rfl⟩⟩
  rw [← hwidth]
  by_cases hshort : n < width
  · rw [if_pos hshort, or_iff_right (Nat.ne_of_gt hn),
      or_iff_right (a := w ≤ n ∧ ¬(w = 3 ∧ n = 3)) (by omega)]
    exact and_congr_left' (by omega)
  · rw [if_neg hshort]
    exact iff_of_true ⟨by omega, .inl rfl⟩ (.inl (by omega))

/-- `vprintf` pads as it should just when no zeros are due and it sees so, or as many as the
number has characters and they may stand where it puts them. -/
theorem vprintf_padded_iff (env : Env) (stale : Int) (place : Place) (conv : Conversion)
    (hlo : -2147483648 ≤ d) (hhi : d < 2147483648) (h1 : 1 ≤ w) (h9 : w ≤ 9) :
    printed env stale conv d w = some (padded place conv d w) ↔
      (conv = .dec → d ≠ -2147483648) ∧
      (w ≤ (natural d conv).length ∧ ¬(w = 3 ∧ (natural d conv).length = 3) ∨
        w = 2 * (natural d conv).length ∧ (place = .zerosFirst ∨ sign d conv = [])) := by
  rw [printed_eq env stale conv hlo hhi h1 h9, Option.some_inj]
  by_cases hmin : conv = .dec → d ≠ -2147483648
  · have hpos := natural_pos d conv
    rw [written_eq hlo hhi hmin, replicate_eq_padded_iff]
    rw [and_iff_right hmin]
    generalize (natural d conv).length = n at hpos
    exact zeros_due_iff hpos _
  · refine iff_of_false (fun heq => ?_) fun h => hmin h.1
    obtain ⟨rfl, rfl⟩ : conv = .dec ∧ d = -2147483648 := by
      simpa only [ne_eq, Classical.not_imp, not_not] using hmin
    -- only the sign is printed
    have hwritten : written (-2147483648) .dec = ['-'] := by decide
    have hnatural : (natural (-2147483648) .dec).length = 11 := by decide +kernel
    have hlen := congrArg List.length heq
    simp only [hwritten, length_padded, hnatural, List.length_append, List.length_replicate,
      List.length_singleton] at hlen
    split_ifs at hlen <;> omega

end

/-- Two digits in a field of four, and five digits in one of three. -/
theorem vprintf_padded_iff_holds :
    printed ⟨fun _ => 0, fun _ => ⟨0, 0, 0⟩⟩ 0 .dec 42 4 = some "0042".toList ∧
    printed ⟨fun _ => 0, fun _ => ⟨0, 0, 0⟩⟩ 0 .hex 74565 3 = some "12345".toList :=
  ⟨(vprintf_padded_iff _ 0 .signFirst .dec (by decide) (by decide) (by decide) (by decide)).2
      (by decide +kernel),
    (vprintf_padded_iff _ 0 .signFirst .hex (by decide) (by decide) (by decide) (by decide)).2
      (by decide +kernel)⟩

/-- `%05d` of 42 has four characters, and of the most negative number only the sign is
printed. -/
theorem vprintf_unpadded :
    printed ⟨fun _ => 0, fun _ => ⟨0, 0, 0⟩⟩ 0 .dec 42 5 = some "0042".toList ∧
    (∀ place, padded place .dec 42 5 = "00042".toList) ∧
    printed ⟨fun _ => 0, fun _ => ⟨0, 0, 0⟩⟩ 0 .dec (-2147483648) 1 = some "-".toList ∧
    ∀ place, padded place .dec (-2147483648) 1 = "-2147483648".toList := by
  refine ⟨by decide +kernel, fun place => ?_, by decide +kernel, fun place => ?_⟩ <;>
    cases place <;> decide +kernel

end Printf

end Ulysses
