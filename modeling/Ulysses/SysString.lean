import Ulysses.Fs.Name
import Ulysses.HashTable.Fetch
import Ulysses.Lib.CString
import Ulysses.Lib.Reach

/-!
# Strings

`sys::String`, which keeps its bytes in the object, in a block of the heap or in memory of
its caller. Which of these it is shows in `flags_`, and `data()` reads it there. The
assignment clears `flags_` before it asks for the bytes of the other string, so a string
that is assigned to itself loses bytes that are not in the object (`assign_self`). In all
other runs each string holds the bytes it was made from or copied from
(`storageIndependent_run`).
-/

namespace Ulysses

open Lib

structure SysString where
  flags : Nat
  size : Nat
  data : Nat
  /-- `local_`, with what lies behind it. -/
  local_ : Bytes

namespace SysString

def eOwn : Nat := 1

def eMalloc : Nat := 2

def cLocalBuffer : Nat := 15

/-- The bytes at `data()`. -/
def at_ (m : Bytes) (s : SysString) (i : Nat) : UInt8 :=
  if s.flags &&& eMalloc ≠ 0 then m (s.data + i) else s.local_ i

/-- `memcpy` of `size` bytes to `dest`, with the zero byte that `set` puts behind them. -/
def copy (dest size : Nat) (src : Nat → UInt8) (m : Bytes) : Bytes :=
  (m.fill dest size src).write8 (dest + size) 0

/-- `set(str, size, own)`; `block` is what `kmalloc` gives. -/
def set (str size : Nat) (own : Bool) (block : Nat) (m : Bytes) (s : SysString) :
    Option (Bytes × SysString) :=
  if str = 0 then some (m, { s with size := 0, data := 0, flags := 0 })
  else
    (if size = 0 then m.strlen str else some size).map fun size =>
      if own then
        if size > 0 then
          if size < cLocalBuffer then
            (m, ⟨eOwn, size, 0, copy 0 size (fun i => m (str + i)) s.local_⟩)
          else
            (copy block size (fun i => m (str + i)) m, ⟨eMalloc ||| eOwn, size, block, s.local_⟩)
        else (m, ⟨0, size, 0, s.local_⟩)
      else (m, ⟨eMalloc, size, str, s.local_⟩)

def bytes (m : Bytes) (s : SysString) : List UInt8 := (List.range s.size).map (s.at_ m)

/-- `hash`. -/
def hash (m : Bytes) (s : SysString) : UInt32 :=
  Fs.Name.finishHash ((s.bytes m).foldl Fs.Name.updateHash 2166136261)

/-- `strncmp` with the length as an `int`. -/
def strncmp (str1 str2 : Nat → UInt8) (len : Int) : Int :=
  Fs.Name.strncmp ((List.range len.toNat).map str1) ((List.range len.toNat).map str2)

/-- `operator==`. -/
def equal (m : Bytes) (s str : SysString) : Bool :=
  if str.size ≠ s.size then false else strncmp (s.at_ m) (str.at_ m) (s32 s.size) == 0

/-- `OOHashOperations<sys::String>`. -/
def stringOps (m : Bytes) : HashOps SysString where
  computeHash k := mixHash (k.hash m)
  compareKeys a b := a.equal m b

/-! ## Strings that hold bytes -/

/-- The string has the bytes `b`. -/
structure Holds (m : Bytes) (s : SysString) (b : List UInt8) : Prop where
  size : s.size = b.length
  bytes : ∀ i (h : i < b.length), s.at_ m i = b[i]

section

variable {m m' : Bytes} {s t : SysString} {b c : List UInt8}

theorem at_of_malloc (h : s.flags &&& eMalloc ≠ 0) (i : Nat) : s.at_ m i = m (s.data + i) :=
  if_pos h

theorem at_of_local (h : s.flags &&& eMalloc = 0) (i : Nat) : s.at_ m i = s.local_ i :=
  if_neg (not_not.2 h)

theorem Holds.bytes_eq (h : Holds m s b) : s.bytes m = b := by
  unfold SysString.bytes
  rw [h.size]
  refine List.ext_getElem (by simp) fun i h₁ h₂ => ?_
  rw [List.getElem_map, List.getElem_range]
  exact h.bytes i h₂

theorem Holds.congr (h : Holds m s b)
    (hm : s.flags &&& eMalloc ≠ 0 → ∀ i < s.size, m' (s.data + i) = m (s.data + i)) :
    Holds m' s b := by
  refine ⟨h.size, fun i hi => ?_⟩
  rw [← h.bytes i hi]
  by_cases hflag : s.flags &&& eMalloc = 0
  · rw [at_of_local hflag, at_of_local hflag]
  · rw [at_of_malloc hflag, at_of_malloc hflag]
    exact hm hflag i (h.size ▸ hi)

theorem copy_in {dest size i : Nat} {src : Nat → UInt8} (hi : i < size) :
    copy dest size src m (dest + i) = src i := by
  unfold copy
  rw [Bytes.write8_ne _ _ (by omega), Bytes.fill_in _ _ ⟨by omega, by omega⟩,
    Nat.add_sub_cancel_left]

theorem copy_off {dest size x : Nat} {src : Nat → UInt8} (hx : x < dest ∨ dest + size < x) :
    copy dest size src m x = m x := by
  unfold copy
  rw [Bytes.write8_ne _ _ (by omega), Bytes.fill_off _ _ (by omega)]

/-- A copy of the bytes `src` that belongs to the string, in memory and object. -/
def owned (block size : Nat) (src : Nat → UInt8) (l m : Bytes) : Bytes × SysString :=
  if size < cLocalBuffer then (m, ⟨eOwn, size, 0, copy 0 size src l⟩)
  else (copy block size src m, ⟨eMalloc ||| eOwn, size, block, l⟩)

theorem holds_owned {src : Nat → UInt8} {l : Bytes} {block : Nat}
    (hsrc : ∀ i (h : i < b.length), src i = b[i]) :
    Holds (owned block b.length src l m).1 (owned block b.length src l m).2 b := by
  unfold owned
  split
  · refine ⟨rfl, fun i hi => ?_⟩
    have hcopy : copy 0 b.length src l (0 + i) = src i := copy_in hi
    rw [Nat.zero_add] at hcopy
    exact (at_of_local (show eOwn &&& eMalloc = 0 by decide) i).trans (hcopy.trans (hsrc i hi))
  · refine ⟨rfl, fun i hi => ?_⟩
    rw [at_of_malloc (show (eMalloc ||| eOwn) &&& eMalloc ≠ 0 by decide)]
    exact (copy_in hi).trans (hsrc i hi)

theorem owned_malloc {src : Nat → UInt8} {l : Bytes} {block size : Nat}
    (h : (owned block size src l m).2.flags &&& eMalloc = 0) : size < cLocalBuffer := by
  unfold owned at h
  split at h
  · assumption
  · exact absurd h (show (eMalloc ||| eOwn) &&& eMalloc ≠ 0 by decide)

theorem Holds.hash_eq (hs : Holds m s b) (ht : Holds m t b) : s.hash m = t.hash m := by
  unfold hash
  rw [hs.bytes_eq, ht.bytes_eq]

theorem strncmp_eq (hs : s.bytes m = b) (ht : t.bytes m = c) (hsize : t.size = s.size)
    (hlen : s.size < 2147483648) :
    strncmp (s.at_ m) (t.at_ m) (s32 s.size) = Fs.Name.strncmp b c := by
  have hn : (s32 (s.size : Int)).toNat = s.size := by
    rw [s32_eq (by omega) (by omega)]
    rfl
  unfold strncmp
  rw [hn, ← hs, ← ht]
  unfold SysString.bytes
  rw [hsize]

theorem Holds.equal_eq (ht : Holds m t c) (hlen : c.length < 2147483648) (s : SysString) :
    s.equal m t =
      if c.length ≠ s.size then false else Fs.Name.strncmp (s.bytes m) c == 0 := by
  unfold equal
  rw [ht.size]
  refine ite_congr rfl (fun _ => rfl) fun hsize => ?_
  have hsize : c.length = s.size := not_not.1 hsize
  rw [strncmp_eq rfl ht.bytes_eq (ht.size.trans hsize) (hsize ▸ hlen)]

theorem Holds.equal_iff (hs : Holds m s b) (ht : Holds m t c) (hb : 0 ∉ b)
    (hlen : c.length < 2147483648) : s.equal m t = true ↔ b = c := by
  rw [ht.equal_eq hlen, hs.size, hs.bytes_eq]
  by_cases hsize : c.length = b.length
  · rw [if_neg (not_not.2 hsize), beq_iff_eq]
    exact Fs.Name.strncmp_eq_zero hsize hb
  · rw [if_pos hsize]
    refine iff_of_false Bool.false_ne_true ?_
    rintro rfl
    exact hsize rfl

end

/-! ## The objects -/

/-- The memory, and the `String` objects. -/
structure Objects where
  mem : Bytes
  obj : Nat → SysString

def Objects.modify (i : Nat) (f : SysString → SysString) (o : Objects) : Objects :=
  { o with obj := Function.update o.obj i (f (o.obj i)) }

/-- `set(str, size, own)` of object `i`. -/
def Objects.set (i str size : Nat) (own : Bool) (block : Nat) (o : Objects) : Option Objects :=
  ((o.obj i).set str size own block o.mem).map fun r => ⟨r.1, Function.update o.obj i r.2⟩

/-- `set(other)` of object `i`, with object `j` as the other. -/
def Objects.setString (i j block : Nat) (o : Objects) : Objects :=
  let o := o.modify i fun s => { s with flags := 0 }
  let o := o.modify i fun s => { s with size := (o.obj j).size }
  let size := (o.obj i).size
  if size < cLocalBuffer then
    let o := o.modify i fun s => { s with data := 0 }
    let other := (o.obj j).at_ o.mem
    let o := o.modify i fun s => { s with local_ := copy 0 size other s.local_ }
    o.modify i fun s => { s with flags := s.flags ||| eOwn }
  else
    let o := o.modify i fun s => { s with data := block }
    let other := (o.obj j).at_ o.mem
    let o := { o with mem := copy block size other o.mem }
    let o := o.modify i fun s => { s with flags := s.flags ||| eMalloc }
    o.modify i fun s => { s with flags := s.flags ||| eOwn }

/-- The bytes that `set(other)` copies: of a string itself, those in the object. -/
def Objects.source (i j : Nat) (o : Objects) : Nat → UInt8 :=
  if j = i then (o.obj i).local_ else (o.obj j).at_ o.mem

theorem Objects.setString_eq (i j block : Nat) (o : Objects) :
    o.setString i j block =
      ⟨(owned block (o.obj j).size (o.source i j) (o.obj i).local_ o.mem).1,
        Function.update o.obj i
          (owned block (o.obj j).size (o.source i j) (o.obj i).local_ o.mem).2⟩ := by
  have hcleared : ∀ size data l, at_ o.mem ⟨0, size, data, l⟩ = l := fun size data l =>
    funext fun k => at_of_local (Nat.zero_and eMalloc) k
  unfold setString source modify owned
  by_cases hj : j = i
  · subst hj
    simp only [Function.update_self, Function.update_idem, if_true, hcleared, Nat.zero_or]
    split <;> rfl
  · simp only [Function.update_self, Function.update_idem, Function.update_of_ne hj, if_neg hj,
      Nat.zero_or]
    split <;> rfl

/-! ## Runs -/

inductive Op
  /-- `String(str, own)` for the C string `b` at `str`. -/
  | cstr (i str : Nat) (own : Bool) (block : Nat) (b : List UInt8)
  /-- `String(str, size, own)` for the bytes `b` at `str`. -/
  | sized (i str : Nat) (own : Bool) (block : Nat) (b : List UInt8)
  /-- `String(other)` and `operator=`. -/
  | set (i j block : Nat)

def Objects.step (o : Objects) : Op → Option Objects
  | .cstr i str own block _ => (o.mem.strlen str).bind fun size => o.set i str size own block
  | .sized i str own block b => o.set i str b.length own block
  | .set i j block => some (o.setString i j block)

/-- The bytes that each string should have. -/
abbrev Contents := Nat → Option (List UInt8)

def Contents.step (c : Contents) : Op → Contents
  | .cstr i _ _ _ b => Function.update c i (some b)
  | .sized i _ _ _ b => Function.update c i (some b)
  | .set i j _ => Function.update c i (c j)

/-- The objects, unless a call has not returned, and the bytes they should have. -/
abbrev Run := Option Objects × Contents

def Run.step (r : Run) (op : Op) : Run := (r.1.bind (·.step op), Contents.step r.2 op)

/-- What `kmalloc` gives for a string of `size` bytes that does not fit into the object: a
block that no string reads. -/
def Free (o : Objects) (c : Contents) (block size : Nat) : Prop :=
  cLocalBuffer ≤ size → ∀ i, (c i).isSome → (o.obj i).flags &&& eMalloc ≠ 0 →
    block + size < (o.obj i).data ∨ (o.obj i).data + (o.obj i).size ≤ block

/-- A call as its users make it: the bytes are there, without a zero byte, and strings are
copied once they are constructed. -/
def Op.Given : Op → Run → Prop
  | .cstr _ str own block b, (o, c) =>
    str ≠ 0 ∧ str + b.length < 4294967296 ∧ 0 ∉ b ∧ ∀ o', o = some o' →
      Bytes.HasCString o'.mem str b ∧ (own = true → Free o' c block b.length)
  | .sized _ str own block b, (o, c) =>
    str ≠ 0 ∧ str + b.length < 4294967296 ∧ 0 ∉ b ∧ 1 ≤ b.length ∧ ∀ o', o = some o' →
      Bytes.HasBytes o'.mem str b ∧ (own = true → Free o' c block b.length)
  | .set _ j block, (o, c) =>
    ∃ b, c j = some b ∧ ∀ o', o = some o' → Free o' c block b.length

/-- The calls that are right: lengths are `int`s, and a string that is assigned to itself
has its bytes in the object. -/
def Op.Plain : Op → Run → Prop
  | .cstr _ _ _ _ b, _ => b.length < 2147483648
  | .sized _ _ _ _ b, _ => b.length < 2147483648
  | .set i j _, (o, _) => j = i → ∀ o', o = some o' → (o'.obj i).flags &&& eMalloc = 0

/-- The strings have their bytes, compare and hash by them, and one of them finds in a
directory what is stored under another with the same bytes. -/
structure StorageIndependent (o : Objects) (c : Contents) : Prop where
  bytes : ∀ i b, c i = some b → (o.obj i).size = b.length ∧ (o.obj i).bytes o.mem = b
  equal : ∀ i j b b', c i = some b → c j = some b' →
    ((o.obj i).equal o.mem (o.obj j) = true ↔ b = b')
  hash : ∀ i j b, c i = some b → c j = some b → (o.obj i).hash o.mem = (o.obj j).hash o.mem
  found : ∀ i j b, c i = some b → c j = some b →
    ∀ (entries : HashTable SysString Nat) (file : Nat),
      HashTable.fetch (stringOps o.mem) (o.obj j)
        (HashTable.store (stringOps o.mem) (o.obj i) file entries) = some file

/-- What each call keeps. -/
structure Run.Inv (r : Run) (o : Objects) : Prop where
  returned : r.1 = some o
  holds : ∀ i b, r.2 i = some b → Holds o.mem (o.obj i) b
  plain : ∀ i b, r.2 i = some b → 0 ∉ b ∧ b.length < 2147483648
  small : ∀ i b, r.2 i = some b → (o.obj i).flags &&& eMalloc = 0 → b.length < cLocalBuffer

section

variable {r : Run} {o : Objects} {i : Nat} {b : List UInt8}

theorem Run.Inv.update (h : r.Inv o) {m : Bytes} {s : SysString} (hs : Holds m s b) (hnul : 0 ∉ b)
    (hlen : b.length < 2147483648)
    (hsmall : s.flags &&& eMalloc = 0 → b.length < cLocalBuffer)
    (hm : ∀ k c, r.2 k = some c → (o.obj k).flags &&& eMalloc ≠ 0 →
      ∀ x < (o.obj k).size, m ((o.obj k).data + x) = o.mem ((o.obj k).data + x)) :
    Run.Inv (some ⟨m, Function.update o.obj i s⟩, Function.update r.2 i (some b))
      ⟨m, Function.update o.obj i s⟩ := by
  refine ⟨rfl, fun k c hk => ?_, fun k c hk => ?_, fun k c hk => ?_⟩ <;> dsimp only at hk ⊢ <;>
    by_cases hki : k = i
  · subst hki
    rw [Function.update_self] at hk ⊢
    obtain rfl := Option.some.inj hk
    exact hs
  · rw [Function.update_of_ne hki] at hk ⊢
    exact (h.holds k c hk).congr (hm k c hk)
  · subst hki
    rw [Function.update_self] at hk
    obtain rfl := Option.some.inj hk
    exact ⟨hnul, hlen⟩
  · rw [Function.update_of_ne hki] at hk
    exact h.plain k c hk
  · subst hki
    rw [Function.update_self] at hk ⊢
    obtain rfl := Option.some.inj hk
    exact hsmall
  · rw [Function.update_of_ne hki] at hk ⊢
    exact h.small k c hk

theorem Run.Inv.owned (h : r.Inv o) {src : Nat → UInt8} {block : Nat}
    (hsrc : ∀ i (h : i < b.length), src i = b[i]) (hnul : 0 ∉ b) (hlen : b.length < 2147483648)
    (hfree : Free o r.2 block b.length) (l : Bytes) :
    Run.Inv
      (some ⟨(SysString.owned block b.length src l o.mem).1,
        Function.update o.obj i (SysString.owned block b.length src l o.mem).2⟩,
        Function.update r.2 i (some b))
      ⟨(SysString.owned block b.length src l o.mem).1,
        Function.update o.obj i (SysString.owned block b.length src l o.mem).2⟩ := by
  refine h.update (holds_owned hsrc) hnul hlen owned_malloc fun k c hk hflag x hx => ?_
  unfold SysString.owned
  split
  next => rfl
  next hheap =>
    have hapart := hfree (Nat.le_of_not_lt hheap) k (by rw [hk]; rfl) hflag
    exact copy_off (by omega)

theorem Run.Inv.set (h : r.Inv o) {str size block : Nat} {own : Bool} (hstr : str ≠ 0)
    (hb : Bytes.HasBytes o.mem str b) (hnul : 0 ∉ b) (hlen : b.length < 2147483648)
    (hsize : (if size = 0 then o.mem.strlen str else some size) = some b.length)
    (hfree : own = true → Free o r.2 block b.length) :
    ∃ o', o.set i str size own block = some o' ∧
      Run.Inv (some o', Function.update r.2 i (some b)) o' := by
  unfold Objects.set SysString.set
  rw [if_neg hstr, hsize, Option.map_some, Option.map_some]
  refine ⟨_, rfl, ?_⟩
  cases own with
  | true =>
    rw [if_pos rfl]
    by_cases hpos : b.length > 0
    · rw [if_pos hpos]
      exact h.owned hb hnul hlen (hfree rfl) (o.obj i).local_
    · rw [if_neg hpos]
      refine h.update ⟨rfl, fun k hk => absurd hk (by omega)⟩ hnul hlen ?_ fun _ _ _ _ _ _ => rfl
      intro _
      unfold cLocalBuffer
      omega
  | false =>
    rw [if_neg Bool.false_ne_true]
    refine h.update ⟨rfl, fun k hk => ?_⟩ hnul hlen (fun hflag => ?_) fun _ _ _ _ _ _ => rfl
    · rw [at_of_malloc (show eMalloc &&& eMalloc ≠ 0 by decide)]
      exact hb k hk
    · exact absurd hflag (show eMalloc &&& eMalloc ≠ 0 by decide)

theorem Run.Inv.setString (h : r.Inv o) {j block : Nat} (hb : r.2 j = some b)
    (hfree : Free o r.2 block b.length) (hself : j = i → (o.obj i).flags &&& eMalloc = 0) :
    Run.Inv (some (o.setString i j block), Function.update r.2 i (some b))
      (o.setString i j block) := by
  have hj := h.holds j b hb
  obtain ⟨hnul, hlen⟩ := h.plain j b hb
  rw [Objects.setString_eq, hj.size]
  refine h.owned (fun k hk => ?_) hnul hlen hfree _
  rw [← hj.bytes k hk]
  unfold Objects.source
  split
  next heq =>
    subst heq
    exact (at_of_local (hself rfl) k).symm
  next => rfl

theorem Run.Inv.step (h : r.Inv o) (op : Op) (hgiven : op.Given r) (hplain : op.Plain r) :
    ∃ o', (r.step op).Inv o' := by
  obtain ⟨ro, c⟩ := r
  obtain rfl : ro = some o := h.returned
  cases op with
  | cstr i str own block b =>
    obtain ⟨hstr, htop, hnul, hmem⟩ := hgiven
    obtain ⟨hb, hfree⟩ := hmem o rfl
    have hstrlen := Bytes.strlen_of_hasCString hb hnul htop
    have hsize : (if b.length = 0 then o.mem.strlen str else some b.length) = some b.length := by
      rw [hstrlen, ite_self]
    obtain ⟨o', hset, hinv⟩ := h.set (i := i) hstr hb.1 hnul hplain hsize hfree
    refine ⟨o', ?_⟩
    simp only [Run.step, Objects.step, Option.bind_some, hstrlen, hset]
    exact hinv
  | sized i str own block b =>
    obtain ⟨hstr, -, hnul, hpos, hmem⟩ := hgiven
    obtain ⟨hb, hfree⟩ := hmem o rfl
    have hsize : (if b.length = 0 then o.mem.strlen str else some b.length) = some b.length :=
      if_neg (Nat.ne_of_gt hpos)
    obtain ⟨o', hset, hinv⟩ := h.set (i := i) hstr hb hnul hplain hsize hfree
    refine ⟨o', ?_⟩
    simp only [Run.step, Objects.step, Option.bind_some, hset]
    exact hinv
  | set i j block =>
    obtain ⟨b, hb, hfree⟩ := hgiven
    have hinv := h.setString hb (hfree o rfl) fun hji => hplain hji o rfl
    refine ⟨o.setString i j block, ?_⟩
    simp only [Run.step, Objects.step, Option.bind_some, Contents.step]
    rw [show c j = some b from hb]
    exact hinv

theorem Run.Inv.run (h : r.Inv o) {ops : List Op}
    (hops : Along Run.step (fun op r => op.Given r ∧ op.Plain r) ops r) :
    ∃ o', Run.Inv (ops.foldl Run.step r) o' := by
  induction ops generalizing r o with
  | nil => exact ⟨o, h⟩
  | cons op ops ih =>
    obtain ⟨o', h'⟩ := h.step op hops.1.1 hops.1.2
    exact ih h' hops.2

/-- The table knows a string by its bytes. -/
theorem Holds.found {m : Bytes} {s t : SysString} (hs : Holds m s b) (ht : Holds m t b)
    (hnul : 0 ∉ b) (hlen : b.length < 2147483648) (entries : HashTable SysString Nat)
    (file : Nat) :
    HashTable.fetch (stringOps m) t (HashTable.store (stringOps m) s file entries) =
      some file := by
  have hhash : (stringOps m).computeHash t = (stringOps m).computeHash s :=
    congrArg mixHash (ht.hash_eq hs)
  have hcompare : ∀ a, (stringOps m).compareKeys a t = (stringOps m).compareKeys a s := by
    intro a
    show a.equal m t = a.equal m s
    rw [ht.equal_eq hlen, hs.equal_eq hlen]
  rw [HashTable.fetch_congr hhash hcompare]
  exact HashTable.fetch_store_same ((hs.equal_iff hs hnul hlen).2 rfl) file entries

theorem Run.Inv.storageIndependent (h : r.Inv o) : StorageIndependent o r.2 where
  bytes i b hb := ⟨(h.holds i b hb).size, (h.holds i b hb).bytes_eq⟩
  equal i j b b' hb hb' :=
    (h.holds i b hb).equal_iff (h.holds j b' hb') (h.plain i b hb).1 (h.plain j b' hb').2
  hash i j b hb hb' := (h.holds i b hb).hash_eq (h.holds j b hb')
  found i j b hb hb' :=
    (h.holds i b hb).found (h.holds j b hb') (h.plain i b hb).1 (h.plain i b hb).2

end

/-- **Strings**: whatever memory a string has its bytes in, it has the bytes that it was
made from, if no string is assigned to itself whose bytes are not in the object. -/
theorem storageIndependent_run (o : Objects) (ops : List Op)
    (h : Along Run.step (fun op r => op.Given r ∧ op.Plain r) ops (some o, fun _ => none)) :
    ∃ o', (ops.foldl Run.step (some o, fun _ => none)).1 = some o' ∧
      StorageIndependent o' (ops.foldl Contents.step fun _ => none) := by
  have hstart : Run.Inv (some o, fun _ => none) o :=
    ⟨rfl, nofun, nofun, nofun⟩
  obtain ⟨o', hinv⟩ := hstart.run h
  have hcontents : (ops.foldl Run.step (some o, fun _ => none)).2 =
      ops.foldl Contents.step fun _ => none := (List.foldl_hom Prod.snd fun _ _ => rfl).symm
  have hsound := hinv.storageIndependent
  rw [hcontents] at hsound
  exact ⟨o', hinv.returned, hsound⟩

/-- The memory has "0123456789abcdef" at 100. -/
def digits : List UInt8 := [48, 49, 50, 51, 52, 53, 54, 55, 56, 57, 97, 98, 99, 100, 101, 102]

def fresh : Objects := ⟨fun x => digits.getD (x - 100) 0, fun _ => ⟨0, 0, 0, fun _ => 0⟩⟩

/-- `fresh` with a string for the bytes. -/
def made : Objects :=
  ⟨copy 200 16 (fun i => fresh.mem (100 + i)) fresh.mem,
    Function.update fresh.obj 0 ⟨eMalloc ||| eOwn, 16, 200, fun _ => 0⟩⟩

theorem fresh_digits : Bytes.HasCString fresh.mem 100 digits := by
  constructor <;> decide

theorem step_fresh : fresh.step (.cstr 0 100 true 200 digits) = some made := by
  have hstrlen := Bytes.strlen_of_hasCString fresh_digits (by decide) (by decide)
  simp only [Objects.step, hstrlen, Option.bind_some]
  rfl

theorem given_cstr : Op.Given (.cstr 0 100 true 200 digits) (some fresh, fun _ => none) := by
  refine ⟨by decide, by decide, by decide, ?_⟩
  rintro _ ⟨⟩
  exact ⟨fresh_digits, fun _ _ => nofun⟩

theorem given_set {i : Nat} :
    Op.Given (.set i 0 300) (some made, Function.update (fun _ => none) 0 (some digits)) := by
  refine ⟨digits, rfl, ?_⟩
  rintro _ ⟨⟩ - k hk -
  by_cases hk0 : k = 0
  · subst hk0
    right
    decide
  · rw [Function.update_of_ne hk0] at hk
    cases hk

/-- An entry is stored under a copy, and found by a key that borrows the bytes. -/
theorem storageIndependent_run_borrowed :
    Along Run.step (fun op r => op.Given r ∧ op.Plain r)
      [.cstr 0 100 true 200 digits, .set 1 0 300, .sized 2 100 false 0 digits]
      (some fresh, fun _ => none) ∧
    ∃ o, ([.cstr 0 100 true 200 digits, .set 1 0 300, .sized 2 100 false 0 digits].foldl
        Run.step (some fresh, fun _ => none)).1 = some o ∧
      ∀ (entries : HashTable SysString Nat) (file : Nat),
        HashTable.fetch (stringOps o.mem) (o.obj 2)
          (HashTable.store (stringOps o.mem) (o.obj 1) file entries) = some file := by
  have hops : Along Run.step (fun op r => op.Given r ∧ op.Plain r)
      [.cstr 0 100 true 200 digits, .set 1 0 300, .sized 2 100 false 0 digits]
      (some fresh, fun _ => none) := by
    have hlen : digits.length < 2147483648 := by decide
    refine ⟨⟨given_cstr, hlen⟩, ?_⟩
    unfold Run.step
    rw [Option.bind_some, step_fresh]
    refine ⟨⟨given_set, nofun⟩, ⟨⟨by decide, by decide, by decide, by decide, ?_⟩, hlen⟩,
      trivial⟩
    rintro _ ⟨⟩
    refine ⟨?_, nofun⟩
    unfold Bytes.HasBytes
    decide
  obtain ⟨o, hret, hsound⟩ := storageIndependent_run fresh _ hops
  exact ⟨hops, o, hret, hsound.found 1 2 digits rfl rfl⟩

/-- A string of 16 bytes is assigned to itself. -/
theorem assign_self :
    Along Run.step Op.Given [.cstr 0 100 true 200 digits, .set 0 0 300]
      (some fresh, fun _ => none) ∧
    ∃ o, ([.cstr 0 100 true 200 digits, .set 0 0 300].foldl Run.step
        (some fresh, fun _ => none)).1 = some o ∧
      (o.obj 0).bytes o.mem = List.replicate 16 0 ∧
      ¬StorageIndependent o ([.cstr 0 100 true 200 digits, .set 0 0 300].foldl Contents.step
        fun _ => none) := by
  have hbytes : ((made.setString 0 0 300).obj 0).bytes (made.setString 0 0 300).mem =
      List.replicate 16 0 := by decide
  refine ⟨⟨given_cstr, ?_⟩, made.setString 0 0 300, ?_, hbytes, fun h => ?_⟩
  · unfold Run.step
    rw [Option.bind_some, step_fresh]
    exact ⟨given_set, trivial⟩
  · simp only [List.foldl_cons, List.foldl_nil, Run.step, Option.bind_some, step_fresh]
    rfl
  · have hlost := (h.bytes 0 digits rfl).2
    rw [hbytes] at hlost
    exact absurd hlost (by decide)

end SysString

end Ulysses
