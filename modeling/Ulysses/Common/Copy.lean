import Ulysses.Initrd.Image

/-!
# Copying strings

`strcpy` and `strcat` of `common.cpp`, over the memory that both strings lie in, with the
addresses that are written. Both loops copy a byte before they look for the end, so the zero
byte of a string that is not empty is never copied: what follows the copy is what memory held
there. The loop that looks for the end of the destination in `strcat` writes each byte over the
next one, and ends only when the destination is empty (`leaves_copy_iff`).
-/

namespace Ulysses.Common

open Lib Lib.Bytes

structure Memory where
  bytes : Bytes
  written : List Nat

def Memory.store (m : Memory) (a : Nat) (b : UInt8) : Memory :=
  ⟨m.bytes.write8 a b, a :: m.written⟩

/-- The loop of `strcpy`, and the second one of `strcat`. Without fuel there is no result. -/
def copyLoop : Nat → Nat → Nat → Memory → Option (Nat × Memory)
  | 0, _, _, _ => none
  | fuel + 1, dest, src, m =>
    let m := m.store dest (m.bytes src)
    let dest := add32 dest 1
    let src := add32 src 1
    if m.bytes src ≠ 0 then copyLoop fuel dest src m else some (dest, m)

def strcpy (m : Memory) (dest src fuel : Nat) : Option (Nat × Memory) := copyLoop fuel dest src m

/-- The first loop of `strcat`. -/
def catLoop : Nat → Nat → Memory → Option (Nat × Memory)
  | 0, _, _ => none
  | fuel + 1, dest, m =>
    if m.bytes dest ≠ 0 then
      let c := m.bytes dest
      let dest := add32 dest 1
      catLoop fuel dest (m.store dest c)
    else some (dest, m)

def strcat (m : Memory) (dest src fuel : Nat) : Option (Nat × Memory) :=
  (catLoop fuel dest m).bind fun st => copyLoop fuel st.1 src st.2

/-! ## Runs that end -/

theorem copyLoop_mono {fuel dest src : Nat} {m : Memory} {result : Nat × Memory}
    (h : copyLoop fuel dest src m = some result) (k : Nat) :
    copyLoop (fuel + k) dest src m = some result := by
  induction fuel generalizing dest src m with
  | zero => cases h
  | succ fuel ih =>
    rw [Nat.succ_add]
    unfold copyLoop at h ⊢
    dsimp only at h ⊢
    split_ifs at h ⊢ with hgo
    · exact ih h
    · exact h

theorem copyLoop_written {fuel dest src p : Nat} {m m' : Memory}
    (h : copyLoop fuel dest src m = some (p, m')) : dest :: m.written ⊆ m'.written := by
  induction fuel generalizing dest src m with
  | zero => cases h
  | succ fuel ih =>
    unfold copyLoop at h
    dsimp only at h
    split_ifs at h with hgo
    · exact List.Subset.trans (List.subset_cons_self _ _) (ih h)
    · cases h
      exact List.Subset.refl _

/-- What the first `k` turns of a copy leave. -/
def copied (m : Bytes) (dest src k : Nat) : Memory :=
  ⟨m.memcpy dest src k, (List.range' dest k).reverse⟩

theorem copied_succ (m : Bytes) (dest src k : Nat) :
    (copied m dest src k).store (dest + k) ((copied m dest src k).bytes (src + k)) =
      copied m dest src (k + 1) := by
  unfold copied Memory.store
  rw [memcpy_succ, List.range'_concat, List.reverse_append, Nat.one_mul]
  rfl

section

variable {m : Bytes} {dest src : Nat} {s : List UInt8}

/-- The turn of index `k`, of a copy that does not write over what it has yet to read. -/
theorem copyLoop_turn {k n fuel : Nat} (hsrc : src + n < 4294967296) (hroom : dest + n < 4294967296)
    (hover : dest ≤ src ∨ src + n < dest) (hk : k < n) :
    copyLoop (fuel + 1) (dest + k) (src + k) (copied m dest src k) =
      if m (src + (k + 1)) ≠ 0 then
        copyLoop fuel (dest + (k + 1)) (src + (k + 1)) (copied m dest src (k + 1))
      else some (dest + (k + 1), copied m dest src (k + 1)) := by
  have hread : (copied m dest src (k + 1)).bytes (src + (k + 1)) = m (src + (k + 1)) :=
    memcpy_off m (by omega)
  rw [← hread, copyLoop, copied_succ, add32_eq (by omega), add32_eq (by omega)]
  rfl

theorem copyLoop_copied {k j : Nat} (hs : HasCString m src s) (hs0 : 0 ∉ s)
    (hsrc : src + s.length < 4294967296) (hroom : dest + s.length < 4294967296)
    (hover : dest ≤ src ∨ src + s.length < dest) (hj : k + (j + 1) = s.length) :
    copyLoop (j + 1) (dest + k) (src + k) (copied m dest src k) =
      some (dest + s.length, copied m dest src s.length) := by
  induction j generalizing k with
  | zero =>
    rw [copyLoop_turn hsrc hroom hover (by omega), hj, if_neg (not_not.2 hs.2)]
  | succ j ih =>
    rw [copyLoop_turn hsrc hroom hover (by omega), if_pos (hs.ne_zero hs0 (by omega))]
    exact ih (by omega)

theorem strcpy_eq_copied (hs : HasCString m src s) (hs0 : 0 ∉ s) (hne : s ≠ [])
    (hsrc : src + s.length < 4294967296) (hroom : dest + s.length < 4294967296)
    (hover : dest ≤ src ∨ src + s.length < dest) :
    strcpy ⟨m, []⟩ dest src s.length = some (dest + s.length, copied m dest src s.length) := by
  have hpos := List.length_pos_iff.2 hne
  have hrun := copyLoop_copied (k := 0) (j := s.length - 1) hs hs0 hsrc hroom hover (by omega)
  rw [Nat.sub_add_cancel hpos] at hrun
  exact hrun

theorem copied_bytes (hs : HasCString m src s) (hover : dest ≤ src ∨ src + s.length < dest)
    {i : Nat} (hi : i < s.length) : (copied m dest src s.length).bytes (dest + i) = s[i] := by
  have hfill : (copied m dest src s.length).bytes = m.fill dest s.length fun i => m (src + i) :=
    memcpy_eq_fill m (by omega)
  rw [hfill, fill_in _ _ (by omega), Nat.add_sub_cancel_left]
  exact hs.1 i hi

theorem copied_off {n x : Nat} (h : x < dest ∨ dest + n ≤ x) :
    (copied m dest src n).bytes x = m x := memcpy_off m h

/-- The copy is the one that the nodes of the initrd are named by. -/
theorem strcpy_node (hs : HasCString m src s) (hs0 : 0 ∉ s) (hne : s ≠ [])
    (hsrc : src + s.length < 4294967296) (hroom : dest + s.length < 4294967296)
    (hover : dest ≤ src ∨ src + s.length < dest) :
    ∃ p m', strcpy ⟨m, []⟩ dest src s.length = some (p, m') ∧
      Initrd.strcpy (fun x => m (dest + x)) m src = some fun x => m'.bytes (dest + x) := by
  refine ⟨_, _, strcpy_eq_copied hs hs0 hne hsrc hroom hover, ?_⟩
  rw [Initrd.strcpy_eq _ hs hs0 (List.length_pos_iff.2 hne) hsrc, Option.some_inj]
  funext x
  rcases Nat.lt_or_ge x s.length with hx | hx
  · rw [copied_bytes hs hover hx, fill_in _ _ (by omega), Nat.sub_zero, List.getD_eq_getElem]
  · rw [copied_off (by omega), fill_off _ _ (by omega)]

/-! ## Runs that do not end -/

/-- A copy that writes behind what it reads, over the zero byte. -/
theorem copyLoop_smears {M : Memory} {n : Nat} (hn : 0 < n) (hlt : n < 4294967296)
    (hsrc : src < 4294967296) (hne : ∀ i < n, M.bytes (add32 src i) ≠ 0) (fuel : Nat) :
    copyLoop fuel (add32 src n) src M = none := by
  induction fuel generalizing src M with
  | zero => rfl
  | succ fuel ih =>
    have hnext : ∀ i < n,
        (M.store (add32 src n) (M.bytes src)).bytes (add32 (add32 src 1) i) ≠ 0 := by
      intro i hi
      have hzero := hne 0 hn
      have hshift : add32 (add32 src 1) i = add32 src (i + 1) := by
        unfold add32
        omega
      rw [show add32 src 0 = src from add32_eq hsrc] at hzero
      rw [hshift]
      unfold Memory.store write8
      dsimp only
      split_ifs with hlast
      · exact hzero
      · refine hne _ (Nat.lt_of_le_of_ne hi ?_)
        rintro rfl
        exact hlast rfl
    have hdest : add32 (add32 src n) 1 = add32 (add32 src 1) n := by
      unfold add32
      omega
    have hgo := hnext 0 hn
    rw [show add32 (add32 src 1) 0 = add32 src 1 from add32_eq (add32_lt src 1)] at hgo
    unfold copyLoop
    dsimp only
    rw [if_pos hgo, hdest]
    exact ih (add32_lt src 1) hnext

theorem catLoop_smears {M : Memory} (hne : M.bytes dest ≠ 0) (fuel : Nat) :
    catLoop fuel dest M = none := by
  induction fuel generalizing dest M with
  | zero => rfl
  | succ fuel ih =>
    unfold catLoop
    rw [if_pos hne]
    refine ih ?_
    unfold Memory.store
    dsimp only
    rw [write8_same]
    exact hne

end

/-! ## Copying and appending -/

/-- The run ends, `dest` holds the string, and nothing past its zero byte is written. -/
def Leaves (run : Nat → Option (Nat × Memory)) (dest : Nat) (s : List UInt8) : Prop :=
  ∃ fuel p m', run fuel = some (p, m') ∧ HasCString m'.bytes dest s ∧
    ∀ x ∈ m'.written, dest ≤ x ∧ x ≤ dest + s.length

/-- Memory holds a zero byte where the copy does not write one. The zero byte of an empty string
is copied, and the byte behind it is looked at. -/
def Ends (m : Bytes) (dest src : Nat) (s : List UInt8) : Prop :=
  if s = [] then add32 src 1 = dest ∨ m (add32 src 1) = 0
  else m (dest + s.length) = 0 ∧ (dest ≤ src ∨ src + s.length < dest)

section

variable {m : Bytes} {dest src : Nat} {s : List UInt8}

theorem leaves_nil_iff (hs : m src = 0) :
    Leaves (strcpy ⟨m, []⟩ dest src) dest [] ↔ add32 src 1 = dest ∨ m (add32 src 1) = 0 := by
  have hread : (m.write8 dest 0 (add32 src 1) = 0) ↔ add32 src 1 = dest ∨ m (add32 src 1) = 0 := by
    unfold write8
    split_ifs with heq
    · exact iff_of_true rfl (.inl heq)
    · exact (or_iff_right heq).symm
  rw [← hread]
  constructor
  · rintro ⟨fuel, p, m', hrun, -, hwritten⟩
    cases fuel with
    | zero => cases hrun
    | succ fuel =>
      by_contra hgo
      unfold strcpy copyLoop Memory.store at hrun
      dsimp only at hrun
      rw [hs, if_pos hgo] at hrun
      have hpast := hwritten _ (copyLoop_written hrun List.mem_cons_self)
      unfold add32 at hpast
      rw [List.length_nil] at hpast
      omega
  · intro hend
    refine ⟨1, add32 dest 1, Memory.store ⟨m, []⟩ dest 0, ?_, ?_, ?_⟩
    · unfold strcpy copyLoop Memory.store
      dsimp only
      rw [hs, if_neg (not_not.2 hend)]
    · exact hasCString_nil.2 (write8_same m dest 0)
    · intro x hx
      cases List.mem_singleton.1 hx
      exact ⟨Nat.le_refl _, Nat.le_refl _⟩

theorem leaves_iff_of_ne_nil (hs : HasCString m src s) (hs0 : 0 ∉ s) (hne : s ≠ [])
    (hsrc : src + s.length < 4294967296) (hroom : dest + s.length < 4294967296) :
    Leaves (strcpy ⟨m, []⟩ dest src) dest s ↔
      m (dest + s.length) = 0 ∧ (dest ≤ src ∨ src + s.length < dest) := by
  have hcopied (hover : dest ≤ src ∨ src + s.length < dest) :
      HasCString (copied m dest src s.length).bytes dest s ↔ m (dest + s.length) = 0 := by
    unfold HasCString
    rw [copied_off (by omega)]
    exact and_iff_right fun i hi => copied_bytes hs hover hi
  constructor
  · rintro ⟨fuel, p, m', hrun, hstring, -⟩
    by_cases hover : dest ≤ src ∨ src + s.length < dest
    · have hall := copyLoop_mono (strcpy_eq_copied hs hs0 hne hsrc hroom hover) fuel
      have hrun' := copyLoop_mono hrun s.length
      rw [Nat.add_comm, hall] at hrun'
      cases hrun'
      exact ⟨(hcopied hover).1 hstring, hover⟩
    · have hbytes : ∀ i < dest - src, m (add32 src i) ≠ 0 := by
        intro i hi
        rw [add32_eq (by omega)]
        exact hs.ne_zero hs0 (by omega)
      have hnone := copyLoop_smears (M := ⟨m, []⟩) (n := dest - src) (by omega) (by omega)
        (by omega) hbytes fuel
      rw [add32_eq (by omega), show src + (dest - src) = dest by omega] at hnone
      exact nomatch hnone.symm.trans hrun
  · rintro ⟨hend, hover⟩
    refine ⟨_, _, _, strcpy_eq_copied hs hs0 hne hsrc hroom hover, (hcopied hover).2 hend, ?_⟩
    intro x hx
    have hrange := List.mem_range'_1.1 (List.mem_reverse.1 hx)
    omega

theorem leaves_iff (hs : HasCString m src s) (hs0 : 0 ∉ s) (hsrc : src + s.length < 4294967296)
    (hroom : dest + s.length < 4294967296) :
    Leaves (strcpy ⟨m, []⟩ dest src) dest s ↔ Ends m dest src s := by
  unfold Ends
  split_ifs with hnil
  · subst hnil
    exact leaves_nil_iff (hasCString_nil.1 hs)
  · exact leaves_iff_of_ne_nil hs hs0 hnil hsrc hroom

theorem strcat_nil (hd : m dest = 0) : strcat ⟨m, []⟩ dest src = strcpy ⟨m, []⟩ dest src := by
  funext fuel
  cases fuel with
  | zero => rfl
  | succ fuel =>
    unfold strcat catLoop
    rw [if_neg (not_not.2 hd)]
    rfl

/-- `strcpy` leaves the string in `dest` just when memory already holds what ends it, and
`strcat` does so only to an empty string. -/
theorem leaves_copy_iff (hs : HasCString m src s) (hs0 : 0 ∉ s)
    (hsrc : src + s.length < 4294967296) :
    (dest + s.length < 4294967296 →
      (Leaves (strcpy ⟨m, []⟩ dest src) dest s ↔ Ends m dest src s)) ∧
    ∀ d : List UInt8, HasCString m dest d → 0 ∉ d → dest + (d ++ s).length < 4294967296 →
      (Leaves (strcat ⟨m, []⟩ dest src) dest (d ++ s) ↔ d = [] ∧ Ends m dest src s) := by
  refine ⟨leaves_iff hs hs0 hsrc, ?_⟩
  intro d hd hd0 hroom
  cases d with
  | nil =>
    rw [strcat_nil (hasCString_nil.1 hd), List.nil_append]
    exact (leaves_iff hs hs0 hsrc hroom).trans (and_iff_right rfl).symm
  | cons c d =>
    refine iff_of_false ?_ fun h => nomatch h.1
    rintro ⟨fuel, p, m', hrun, -, -⟩
    have hc : m dest ≠ 0 := by
      rw [(hasCString_cons.1 hd).1]
      exact (List.ne_of_not_mem_cons hd0).symm
    unfold strcat at hrun
    rw [catLoop_smears hc] at hrun
    cases hrun

end

/-- "xy" lies at 100, and "a" at 200. -/
def longer : Bytes
  | 100 => 120
  | 101 => 121
  | 200 => 97
  | _ => 0

theorem longer_src : HasCString longer 200 [97] := by
  rw [hasCString_cons, hasCString_nil]
  exact ⟨rfl, rfl⟩

theorem copies_zeroed :
    HasCString longer 200 [97] ∧ HasCString longer 300 [] ∧
    Leaves (strcpy ⟨longer, []⟩ 300 200) 300 [97] ∧
    Leaves (strcat ⟨longer, []⟩ 300 200) 300 [97] := by
  have hdest : HasCString longer 300 [] := hasCString_nil.2 rfl
  obtain ⟨hcpy, hcat⟩ := @leaves_copy_iff longer 300 200 [97] longer_src (by decide) (by decide)
  have hends : Ends longer 300 200 [97] := ⟨rfl, .inr (by decide)⟩
  exact ⟨longer_src, hdest, (hcpy (by decide)).2 hends,
    (hcat [] hdest (by decide) (by decide)).2 ⟨rfl, hends⟩⟩

/-- "a" copied over "xy" is "ay", and "a" is never appended to it. -/
theorem a_copied_over_xy :
    HasCString longer 200 [97] ∧ HasCString longer 100 [120, 121] ∧
    ¬ Leaves (strcpy ⟨longer, []⟩ 100 200) 100 [97] ∧
    (∃ p m', strcpy ⟨longer, []⟩ 100 200 1 = some (p, m') ∧ HasCString m'.bytes 100 [97, 121]) ∧
    ∀ fuel, strcat ⟨longer, []⟩ 100 200 fuel = none := by
  have hdest : HasCString longer 100 [120, 121] := by
    rw [hasCString_cons, hasCString_cons, hasCString_nil]
    exact ⟨rfl, rfl, rfl⟩
  have hrun : strcpy ⟨longer, []⟩ 100 200 1 = some (101, copied longer 100 200 1) :=
    strcpy_eq_copied longer_src (by decide) (by decide) (by decide) (by decide) (.inl (by decide))
  refine ⟨longer_src, hdest, ?_, ⟨_, _, hrun, ?_⟩, ?_⟩
  · rw [leaves_iff longer_src (by decide) (by decide) (by decide)]
    intro hends
    exact absurd hends.1 (by decide)
  · rw [hasCString_cons, hasCString_cons, hasCString_nil]
    exact ⟨rfl, rfl, rfl⟩
  · intro fuel
    unfold strcat
    rw [catLoop_smears (by decide)]
    rfl

end Ulysses.Common
