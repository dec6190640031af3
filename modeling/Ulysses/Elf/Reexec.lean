import Ulysses.Elf.Args

/-!
# The environment of a program that calls exec

A program that hands its own environment to `exec` hands over a table and strings in the
block that `setup_args` is about to write. Both blocks end at the top of the stack, and
their environments differ in place by the padding and the size of the arguments. When
the new table lies above the old one, pointers are overwritten before they are read; when
the new strings lie above the old ones, bytes are. The environment survives exactly if
what is overwritten has been overwritten with the same (`reexec_iff`).
-/

namespace Ulysses

open Lib Bytes

namespace Elf

open InMemory

/-! ## Where the environment moves -/

/-- A table and its strings that move by less than what lies between them. -/
structure Moves (oldTable oldData newTable newData : Nat) (table : List (List UInt8)) : Prop where
  old : oldTable + 4 * (table.length + 1) ≤ oldData
  new : newTable + 4 * (table.length + 1) ≤ newData
  table_data : oldTable + 4 * (table.length + 1) ≤ newData
  data_table : newTable + 4 * (table.length + 1) ≤ oldData
  old_lt : oldData + (TableInfo.make table).bytes ≤ 4294967296
  new_lt : newData + (TableInfo.make table).bytes ≤ 4294967296
  words : oldTable % 4 = newTable % 4
  nul_free : ∀ str ∈ table, 0 ∉ str

section Moves

variable {oldTable oldData newTable newData : Nat} {table : List (List UInt8)} {m : Bytes}
  (h : Moves oldTable oldData newTable newData table) (hm : Laid m oldTable oldData table)
  {i : Nat} (hi : i < table.length)

include h in
theorem Moves.copied (m : Bytes) (i : Nat) :
    Copied m newTable newData (table.take i) (upTo newTable newData table m i) :=
  copied_upTo m i (by have := h.new; omega) h.new_lt

include h hi in
theorem Moves.pos : (upTo newTable newData table m i).2.1 = newData + offset table i ∧
    (upTo newTable newData table m i).2.2 = i := by
  have hcopied := h.copied m i
  refine ⟨?_, ?_⟩
  · rw [hcopied.pos, offset, length_stringBytes]
  · rw [hcopied.index, List.length_take_of_le (Nat.le_of_lt hi)]

include h hi in
theorem Moves.frame {x : Nat} (hx : x < newTable ∨ newTable + 4 * i ≤ x)
    (hx' : x < newData ∨ newData + offset table i ≤ x) :
    (upTo newTable newData table m i).1 x = m x := by
  refine (h.copied m i).frame x ?_ ?_
  · rwa [List.length_take_of_le (Nat.le_of_lt hi)]
  · rwa [← length_stringBytes]

include h hm hi in
theorem Moves.pointer_kept (hk : newTable ≤ oldTable ∨ oldTable + 4 * i < newTable) :
    (upTo newTable newData table m i).1.read32 (oldTable + 4 * i) = oldData + offset table i := by
  rw [← hm.words i hi]
  have hwords := h.words
  have htable := h.table_data
  exact read32_congr fun x h₁ h₂ => h.frame hi (by omega) (by omega)

include h hi in
theorem Moves.pointer_lost {k : Nat} (hk : newTable = oldTable + 4 * k) (hk0 : 0 < k)
    (hki : k ≤ i) :
    (upTo newTable newData table m i).1.read32 (oldTable + 4 * i) =
      newData + offset table (i - k) := by
  have hword := (h.copied m i).words (i - k)
    (by rw [List.length_take_of_le (Nat.le_of_lt hi)]; omega)
  rwa [offset_take table (by omega), show newTable + 4 * (i - k) = oldTable + 4 * i by omega]
    at hword

include h hi in
theorem Moves.hasCString {j : Nat} (hj : j < i) :
    HasCString (upTo newTable newData table m i).1 (newData + offset table j) table[j] := by
  have hlen : j < (table.take i).length := by
    rw [List.length_take_of_le (Nat.le_of_lt hi)]
    exact hj
  have hstr := (h.copied m i).hasCString hlen
  rwa [offset_take table (Nat.le_of_lt hj), List.getElem_take] at hstr

/-- What turn `i` needs: the pointer was not overwritten and the string repeats what was
written over it, or the pointer was overwritten by that of the same string. -/
def Repeats (tableShift dataShift : Nat) (table : List (List UInt8)) (i : Nat) : Prop :=
  if tableShift = 0 ∨ i < tableShift then
    ∀ y, offset table i ≤ y → y < offset table (i + 1) → dataShift ≤ y →
      (stringBytes table)[y]? = (stringBytes table)[y - dataShift]?
  else table[i]? = table[i - tableShift]?

include hi in
theorem exists_getElem?_offset {y : Nat} (hlo : offset table i ≤ y)
    (hhi : y < offset table (i + 1)) :
    ∃ b, (stringBytes table)[y]? = some b ∧ (table[i] ++ [0])[y - offset table i]? = some b := by
  rw [offset_succ hi] at hhi
  have hbyte := stringBytes_getElem? hi (show y - offset table i ≤ table[i].length by omega)
  rw [Nat.add_sub_cancel' hlo] at hbyte
  have hlen : y - offset table i < (table[i] ++ [0]).length := by
    rw [List.length_append, List.length_singleton]
    omega
  exact ⟨_, hbyte.trans (List.getElem?_eq_getElem hlen), List.getElem?_eq_getElem hlen⟩

include h in
theorem Moves.byte_copied (hle : oldData ≤ newData) {y : Nat} (hy : newData - oldData ≤ y)
    (hyi : y - (newData - oldData) < offset table i) {b : UInt8}
    (hb : (stringBytes table)[y - (newData - oldData)]? = some b) :
    (upTo newTable newData table m i).1 (oldData + y) = b := by
  rw [show oldData + y = newData + (y - (newData - oldData)) by omega]
  refine (h.copied m i).data _ b ?_
  rwa [stringBytes_take_getElem? hyi]

include h hi in
theorem Moves.repeats_of_hasCString
    (hstr : HasCString (upTo newTable newData table m i).1 (oldData + offset table i) table[i])
    (hover : newData ≤ oldData ∨ oldData + table[i].length < newData) {y : Nat}
    (hlo : offset table i ≤ y) (hhi : y < offset table (i + 1)) (hy : newData - oldData ≤ y) :
    (stringBytes table)[y]? = (stringBytes table)[y - (newData - oldData)]? := by
  have hsucc := offset_succ hi
  have hbytes := offset_le_bytes table (i + 1)
  rcases hover with hle | hlt
  · rw [Nat.sub_eq_zero_of_le hle, Nat.sub_zero]
  · obtain ⟨b, hb, hbi⟩ := exists_getElem?_offset hi hlo hhi
    have hlast : y - (newData - oldData) < (stringBytes table).length := by
      rw [length_stringBytes]
      omega
    have hread := hstr.getElem? hbi
    rw [Nat.add_assoc, Nat.add_sub_cancel' hlo, h.byte_copied (by omega) hy (by omega)
      (List.getElem?_eq_getElem hlast)] at hread
    rw [hb, List.getElem?_eq_getElem hlast, hread]

include hi in
/-- A string that repeats what comes before it is not longer than the shift: the zero byte at
its end would repeat a byte of the string. -/
theorem lt_of_repeats {shift : Nat} (hshift : 0 < shift) (hfree : 0 ∉ table[i])
    (hrep : ∀ y, offset table i ≤ y → y < offset table (i + 1) → shift ≤ y →
      (stringBytes table)[y]? = (stringBytes table)[y - shift]?) : table[i].length < shift := by
  have hsucc := offset_succ hi
  by_contra hlong
  have hlen : table[i].length - shift < table[i].length := by omega
  have hzero := stringBytes_getElem? hi (Nat.le_refl table[i].length)
  have hbyte := stringBytes_getElem? hi (Nat.le_of_lt hlen)
  have hsame := hrep (offset table i + table[i].length) (by omega) (by omega) (by omega)
  rw [show offset table i + table[i].length - shift = offset table i + (table[i].length - shift) by
    omega, hzero, hbyte, List.getElem?_append_left hlen, List.getElem?_concat_length] at hsame
  exact hfree (List.mem_of_getElem? hsame.symm)

include h hm hi in
theorem Moves.hasCString_of_repeats
    (hrep : ∀ y, offset table i ≤ y → y < offset table (i + 1) → newData - oldData ≤ y →
      (stringBytes table)[y]? = (stringBytes table)[y - (newData - oldData)]?) :
    HasCString (upTo newTable newData table m i).1 (oldData + offset table i) table[i] := by
  have hsucc := offset_succ hi
  have hdata := h.data_table
  refine (hm.hasCString hi).congr fun x h₁ h₂ => ?_
  by_cases hin : x < newData ∨ newData + offset table i ≤ x
  · exact h.frame hi (by omega) hin
  · have hlo : offset table i ≤ x - oldData := by omega
    obtain ⟨b, hb, -⟩ := exists_getElem?_offset hi hlo (by omega)
    have hsame := hrep (x - oldData) hlo (by omega) (by omega)
    have hx : oldData + (x - oldData) = x := by omega
    have hread := hm.data _ b hb
    have hcopied := h.byte_copied (m := m) (i := i) (by omega) (by omega) (by omega)
      (hsame.symm.trans hb)
    rw [hx] at hread hcopied
    rw [hread, hcopied]

include h hm hi in
theorem Moves.copies_kept (hk : newTable ≤ oldTable ∨ oldTable + 4 * i < newTable) :
    Copies oldTable (upTo newTable newData table m i) table[i] ↔
      ∀ y, offset table i ≤ y → y < offset table (i + 1) → newData - oldData ≤ y →
        (stringBytes table)[y]? = (stringBytes table)[y - (newData - oldData)]? := by
  obtain ⟨hpos, hindex⟩ := h.pos (m := m) hi
  have hbytes := offset_add_le hi
  have hlt := h.old_lt
  unfold Copies
  rw [hindex, hpos, h.pointer_kept hm hi hk]
  constructor
  · rintro ⟨hstr, -, hover⟩ y hlo hhi hy
    exact h.repeats_of_hasCString hi hstr (by omega) hlo hhi hy
  · intro hrep
    have hover : newData ≤ oldData ∨ oldData + table[i].length < newData := by
      refine or_iff_not_imp_left.2 fun hle => ?_
      have hshort := lt_of_repeats hi (by omega) (h.nul_free _ (List.getElem_mem hi)) hrep
      omega
    exact ⟨h.hasCString_of_repeats hm hi hrep, by omega, by omega⟩

include h hi in
theorem Moves.copies_lost {k : Nat} (hk : newTable = oldTable + 4 * k) (hk0 : 0 < k) (hki : k ≤ i) :
    Copies oldTable (upTo newTable newData table m i) table[i] ↔ table[i]? = table[i - k]? := by
  obtain ⟨hpos, hindex⟩ := h.pos (m := m) hi
  have hlt : i - k < table.length := by omega
  have hstr := h.hasCString (m := m) hi (show i - k < i by omega)
  have hsucc := offset_succ hlt
  have hmono : offset table (i - k + 1) ≤ offset table i := offset_mono (by omega)
  have hbytes := offset_le_bytes table i
  have hnew := h.new_lt
  unfold Copies
  rw [hindex, hpos, h.pointer_lost hi hk hk0 hki, List.getElem?_eq_getElem hi,
    List.getElem?_eq_getElem hlt, Option.some_inj]
  constructor
  · rintro ⟨hstr', -⟩
    exact hstr'.unique hstr (h.nul_free _ (List.getElem_mem hi))
      (h.nul_free _ (List.getElem_mem hlt))
  · intro heq
    rw [heq]
    exact ⟨hstr, by omega, .inr (by omega)⟩

include h hm hi in
/-- A copy that overtakes its source has come past the end of the string: it is written over
the bytes before, and what it comes to is still the old string. -/
theorem Moves.length_le {n : Nat} (hn : (upTo newTable newData table m i).1.strlen
      ((upTo newTable newData table m i).1.read32 (oldTable + 4 * i)) = some n)
    (hhigh : newData + offset table i ≤
      (upTo newTable newData table m i).1.read32 (oldTable + 4 * i) + n) :
    table[i].length ≤ n := by
  obtain ⟨-, hz, hne⟩ := strlen_eq_some.1 hn
  by_cases hk : newTable ≤ oldTable ∨ oldTable + 4 * i < newTable
  · rw [h.pointer_kept hm hi hk] at hz hhigh
    have hdata := h.data_table
    rw [h.frame hi (by omega) (by omega)] at hz
    by_contra hlt
    exact (hm.hasCString hi).ne_zero (h.nul_free _ (List.getElem_mem hi)) (by omega) hz
  · have hwords := h.words
    have hlost := h.pointer_lost (m := m) hi (k := (newTable - oldTable) / 4) (by omega) (by omega)
      (by omega)
    have hj : i - (newTable - oldTable) / 4 < i := by omega
    rw [hlost] at hz hne hhigh
    have hlen := (h.hasCString (m := m) hi hj).length_eq (h.nul_free _ (List.getElem_mem _)) hz hne
    have hsucc := offset_succ (Nat.lt_trans hj hi)
    have hmono : offset table (i - (newTable - oldTable) / 4 + 1) ≤ offset table i :=
      offset_mono (by omega)
    omega

include h hm in
theorem Moves.copies_iff (hi : i < table.length) :
    Copies oldTable (upTo newTable newData table m i) table[i] ↔
      Repeats ((newTable - oldTable) / 4) (newData - oldData) table i := by
  have hwords := h.words
  unfold Repeats
  split
  · exact h.copies_kept hm hi (by omega)
  · exact h.copies_lost hi (by omega) (by omega) (by omega)

end Moves

/-! ## Runs -/

section Runs

variable {tbl tableAddr : Nat}

theorem copyStrings_add (i j : Nat) (st : Bytes × Nat × Nat) :
    copyStrings tbl tableAddr (i + j) st =
      (copyStrings tbl tableAddr i st).bind (copyStrings tbl tableAddr j) := by
  induction j with
  | zero => exact (Option.bind_fun_some _).symm
  | succ j ih =>
    rw [← Nat.add_assoc, copyStrings_succ, ih, Option.bind_assoc]
    exact congrArg _ (funext fun st => (copyStrings_succ j st).symm)

theorem copyString_eq_some {st st' : Bytes × Nat × Nat}
    (h : InMemory.copyString tbl tableAddr st = some st') :
    ∃ n, st.1.strlen (st.1.read32 (tbl + 4 * st.2.2)) = some n ∧
      st' = ((st.1.memcpy st.2.1 (st.1.read32 (tbl + 4 * st.2.2)) (n + 1)).write32
        (tableAddr + 4 * st.2.2) st.2.1, st.2.1 + (n + 1), st.2.2 + 1) := by
  obtain ⟨n, hn, rfl⟩ := Option.map_eq_some_iff.1 h
  exact ⟨n, hn, rfl⟩

theorem copyStrings_frame {n : Nat} {st st' : Bytes × Nat × Nat}
    (h : copyStrings tbl tableAddr n st = some st') {x : Nat} (hx : x < st.2.1)
    (hslot : x < tableAddr + 4 * st.2.2 ∨ tableAddr + 4 * (st.2.2 + n) ≤ x) :
    st'.1 x = st.1 x := by
  induction n generalizing st with
  | zero =>
    obtain rfl := Option.some.inj h
    rfl
  | succ n ih =>
    obtain ⟨st₁, hstep, hrun⟩ := Option.bind_eq_some_iff.1 h
    obtain ⟨k, -, rfl⟩ := copyString_eq_some hstep
    rw [ih hrun (by simp only; omega) (by simp only; omega)]
    simp only
    rw [write32_off _ _ (by omega), memcpy_off _ (.inl hx)]

end Runs

section Final

variable {oldTable oldData newTable newData : Nat} {table : List (List UInt8)} {m m' : Bytes}
  (h : Moves oldTable oldData newTable newData table) (hm : Laid m oldTable oldData table)

include h hm in
theorem Moves.copies_of_run {st : Bytes × Nat × Nat}
    (hrun : copyStrings oldTable newTable table.length (m, newData, 0) = some st)
    (hm' : ∀ x, newTable ≤ x ∧ x < newTable + 4 * table.length ∨ newData ≤ x → m' x = st.1 x)
    (hstr : ∀ i (hi : i < table.length),
      HasCString m' (m'.read32 (newTable + 4 * i)) table[i]) :
    ∀ i (hi : i < table.length),
      Copies oldTable (upTo newTable newData table m i) table[i] := by
  intro i
  induction i using Nat.strong_induction_on with
  | _ i ih =>
    intro hi
    obtain ⟨hpos, hindex⟩ := h.pos (m := m) hi
    have hnew := h.new
    have hlt := h.new_lt
    have hbytes := offset_add_le hi
    have hfree := h.nul_free _ (List.getElem_mem hi)
    -- the first `i` turns were right; turn `i` and the rest follow
    have hsofar := copyStrings_of_copies h.nul_free (Nat.le_of_lt hi) fun j hj hji => ih j hji hj
    have hsplit : table.length = i + (table.length - i - 1 + 1) := by omega
    rw [hsplit, copyStrings_add, hsofar, Option.bind_some] at hrun
    obtain ⟨st₁, hstep, hrest⟩ := Option.bind_eq_some_iff.1 hrun
    obtain ⟨n, hn, rfl⟩ := copyString_eq_some hstep
    rw [hindex] at hn
    simp only [hindex, hpos] at hrest
    have hlater {x : Nat} (hx : x < newData + offset table i + (n + 1))
        (hslot : x < newTable + 4 * (i + 1) ∨ newTable + 4 * table.length ≤ x) :=
      copyStrings_frame hrest hx (by simp only; omega)
    have hword : m'.read32 (newTable + 4 * i) = newData + offset table i :=
      (read32_congr fun x h₁ h₂ => (hm' x (by omega)).trans (hlater (by omega) (by omega))).trans
        (read32_write32_same _ _ (by omega))
    have hbyte : ∀ j < n + 1, _ := fun j hj =>
      (hm' (newData + offset table i + j) (by omega)).trans
        ((hlater (by omega) (by omega)).trans (write32_off _ _ (by omega)))
    have hfinal := hstr i hi
    rw [hword] at hfinal
    rcases hasCString_of_memcpy hn hbyte hfinal hfree with ⟨hsrc, hover⟩ | ⟨-, hhigh, hshort⟩
    · obtain ⟨hend, hz, hne⟩ := strlen_eq_some.1 hn
      unfold Copies
      rw [hindex, hpos]
      exact ⟨hsrc, hsrc.length_eq hfree hz hne ▸ hend, hover⟩
    · exact absurd hshort (Nat.not_lt_of_le (h.length_le hm hi hn hhigh))

end Final

/-! ## The environment of the caller -/

/-- The bytes of the environment in the block of a request. -/
def InEnv (req : Request) (x : Nat) : Prop :=
  envTable req ≤ x ∧ x < auxvTable req ∨
    envData req ≤ x ∧ x < envData req + (TableInfo.make req.env).bytes

/-- By how many words the table of the environment moves up. -/
def tableShift (old new : Request) : Nat := (envTable new - envTable old) / 4

/-- By how many bytes the strings of the environment move up. -/
def dataShift (old new : Request) : Nat := envData new - envData old

/-- The strings whose pointers are read before the new table is written over them. -/
def unharmed (old new : Request) : List (List UInt8) :=
  if tableShift old new = 0 then old.env else old.env.take (tableShift old new)

/-- A list that moves up over itself repeats itself, in the pointers and in the bytes. -/
def Survives (old new : Request) : Prop :=
  old.env.drop (tableShift old new) <+: old.env ∧
    (stringBytes (unharmed old new)).drop (dataShift old new) <+: stringBytes (unharmed old new)

theorem drop_prefix_iff {α : Type*} {l : List α} {k : Nat} :
    l.drop k <+: l ↔ ∀ i, k ≤ i → i < l.length → l[i]? = l[i - k]? := by
  rw [List.prefix_iff_getElem?]
  constructor
  · intro h i hk hi
    have hlt : i - k < (l.drop k).length := by
      rw [List.length_drop]
      omega
    rw [h (i - k) hlt, List.getElem_drop, List.getElem?_eq_getElem hi]
    simp only [Nat.add_sub_cancel' hk]
  · intro h i hi
    rw [List.length_drop] at hi
    have hsame := h (k + i) (Nat.le_add_right _ _) (by omega)
    rw [Nat.add_sub_cancel_left] at hsame
    rw [← hsame, List.getElem_drop, List.getElem?_eq_getElem]

theorem bytes_drop_prefix_iff {table : List (List UInt8)} {j d : Nat} :
    (stringBytes (table.take j)).drop d <+: stringBytes (table.take j) ↔
      ∀ i < table.length, i < j → ∀ y, offset table i ≤ y → y < offset table (i + 1) → d ≤ y →
        (stringBytes table)[y]? = (stringBytes table)[y - d]? := by
  rw [drop_prefix_iff]
  have htake {y : Nat} (hy : y < offset table j) :
      (stringBytes (table.take j))[y]? = (stringBytes (table.take j))[y - d]? ↔
        (stringBytes table)[y]? = (stringBytes table)[y - d]? := by
    rw [stringBytes_take_getElem? hy,
      stringBytes_take_getElem? (Nat.lt_of_le_of_lt (Nat.sub_le y d) hy)]
  constructor
  · intro h i _ hij y _ hhi hd
    have hy : y < offset table j := Nat.lt_of_lt_of_le hhi (offset_mono hij)
    exact (htake hy).1 (h y hd hy)
  · intro h y hd hy
    have hmin : y < offset table (min j table.length) := by
      rcases Nat.le_total j table.length with hle | hle
      · rwa [Nat.min_eq_left hle]
      · rw [Nat.min_eq_right hle, offset_of_le (Nat.le_refl _), ← offset_of_le hle]
        exact hy
    obtain ⟨i, hi, hlo, hhi⟩ := exists_offset (Nat.min_le_right _ _) hmin
    exact (htake hy).2 (h i (by omega) (by omega) y hlo hhi hd)

theorem survives_iff (old new : Request) :
    Survives old new ↔
      ∀ i < old.env.length, Repeats (tableShift old new) (dataShift old new) old.env i := by
  have hunharmed : unharmed old new = old.env.take
      (if tableShift old new = 0 then old.env.length else tableShift old new) := by
    unfold unharmed
    split
    · rw [List.take_length]
    · rfl
  unfold Survives
  rw [hunharmed, bytes_drop_prefix_iff, drop_prefix_iff]
  unfold Repeats
  constructor
  · rintro ⟨htable, hbytes⟩ i hi
    split
    · next hkept => exact hbytes i hi (by split <;> omega)
    · exact htable i (by omega) hi
  · intro h
    refine ⟨fun i hk hi => ?_, fun i hi hj => ?_⟩
    · by_cases h0 : tableShift old new = 0
      · rw [h0, Nat.sub_zero]
      · have hlost := h i hi
        rwa [if_neg (by omega)] at hlost
    · have hkept := h i hi
      rwa [if_pos (by split at hj <;> omega)] at hkept

section Reexec

variable {old new : Request} (hold : argsBytes old ≤ stackTop)
  (hnew : argsBytes new ≤ stackTop) (henv : new.env = old.env)
  (hfree : ∀ str ∈ old.env, 0 ∉ str)

include hold hnew henv hfree in
theorem moves_env :
    Moves (envTable old) (envData old) (envTable new) (envData new) old.env := by
  obtain ⟨hargv₀, henv₀, hauxv₀, hargvData₀, henvData₀, htop₀, hpad₀, halign₀⟩ := addresses hold
  obtain ⟨hargv₁, henv₁, hauxv₁, hargvData₁, henvData₁, htop₁, hpad₁, halign₁⟩ := addresses hnew
  rw [henv] at hauxv₁ htop₁ hpad₁
  exact ⟨by omega, by omega, by omega, by omega, by omega, by omega, by omega, hfree⟩

include hnew in
theorem copyStringTable_below {envp : Nat} {m m' : Bytes}
    (h : InMemory.copyStringTable (envData new) (envTable new) envp new.env.length m = some m')
    {x : Nat} (hx : x < newEsp new) : m' x = m x := by
  obtain ⟨hargv, henvAddr, hauxv, hargvData, henvData, -⟩ := addresses hnew
  obtain ⟨st, hrun, rfl⟩ := Option.map_eq_some_iff.1 h
  rw [write32_off _ _ (by omega)]
  exact copyStrings_frame hrun (by simp only; omega) (by simp only; omega)

include hnew in
theorem hasCString_of_readEnv {hdr : Header} {base interpBase : Nat} {m : Bytes}
    {es : List (Nat × List UInt8)}
    (h : readEnv (writeRest hdr new base interpBase m) (newEsp new) = some es) {i : Nat}
    (hi : i < (es.map Prod.snd).length) :
    HasCString (writeRest hdr new base interpBase m)
      ((writeRest hdr new base interpBase m).read32 (envTable new + 4 * i))
      (es.map Prod.snd)[i] := by
  obtain ⟨hargv, henvAddr, -⟩ := addresses hnew
  have hargc := (writeRest_spec hdr base interpBase hnew m).1
  unfold readEnv at h
  rw [hargc, show newEsp new + 8 + 4 * new.argv.length = envTable new by omega] at h
  obtain ⟨ps, hps, hes⟩ := Option.bind_eq_some_iff.1 h
  obtain ⟨-, -, hwords⟩ := readPointers_eq_some.1 hps
  obtain ⟨hlen, hall⟩ := List.forall₂_iff_get.1 (readStrings_eq_some.1 hes)
  rw [List.length_map] at hi
  have hps : i < ps.length := hlen ▸ hi
  obtain ⟨-, hstr, -⟩ := readString_eq_some.1 (hall i hps hi)
  rw [(hwords i _ (List.getElem?_eq_getElem hps)).1, List.getElem_map]
  exact hstr

end Reexec

/-- A program hands the environment that `setup_args` once laid out, and that it has not
changed, to `exec`, with arguments that lie below the new block. It is the environment of
the new program just when it survives. -/
theorem reexec_iff (hdr₀ : Header) (base₀ interpBase₀ : Nat) (s₀ : Space) (old : Request)
    (hold : argsBytes old ≤ stackTop) (hfree : ∀ str ∈ old.env, 0 ∉ str) (s : Space)
    (hs : ∀ x, InEnv old x → s.mem x = (setupArgs hdr₀ old base₀ interpBase₀ s₀).1.mem x)
    (hdr : Header) (base interpBase : Nat) (new : Request)
    (hnew : argsBytes new ≤ stackTop) (henv : new.env = old.env) (argp : Nat)
    (hargv : Stored s.mem (· < newEsp new) argp new.argv) :
    ((InMemory.setupArgs hdr argp (envTable old) base interpBase s).bind fun r =>
        (readEnv r.1.mem r.2).map (·.map Prod.snd)) = some old.env ↔ Survives old new := by
  have hmoves := moves_env hold hnew henv hfree
  have htable : Table s.mem (envTable old) (envData old) old.env :=
    (setupArgs_env hdr₀ base₀ interpBase₀ hold s₀).congr (fun x h₁ h₂ => hs x (.inl ⟨h₁, h₂⟩))
      fun x h₁ h₂ => hs x (.inr ⟨h₁, h₂⟩)
  have hinfo : tableInfo s.mem (envTable old) = some (TableInfo.make new.env) := by
    have hle := hmoves.old
    have hlt := hmoves.old_lt
    rw [henv]
    exact tableInfo_of_stored (stored_of_table htable hfree (by omega) (by omega) hlt)
      (fun x hx => hx) (by omega)
  have hesp : newEsp new ≤ 3221225472 := Nat.sub_le _ _
  rw [setupArgs_of_env hdr base interpBase hnew hinfo hargv
    (fun x hx => ⟨Nat.lt_trans hx (by omega), .inl hx⟩)
    fun mem hmem x hx => copyStringTable_below hnew hmem hx, survives_iff]
  constructor
  · intro hread
    obtain ⟨r, hr, hes⟩ := Option.bind_eq_some_iff.1 hread
    obtain ⟨mem, hmem, rfl⟩ := Option.map_eq_some_iff.1 hr
    obtain ⟨es, hes, hstrings⟩ := Option.map_eq_some_iff.1 hes
    obtain ⟨st, hrun, rfl⟩ := Option.map_eq_some_iff.1 hmem
    have hstr := fun i hi => hasCString_of_readEnv hnew hes (i := i) hi
    obtain ⟨-, -, hauxv, -⟩ := addresses hnew
    have hdata := hmoves.new
    rw [hstrings] at hstr
    rw [henv] at hauxv hrun
    have hcopies := hmoves.copies_of_run htable.toLaid hrun (fun x hx => by
      rw [writeRest_env hdr base interpBase hnew _ (hx.imp_left fun hx => ⟨hx.1, by omega⟩), henv,
        write32_off _ _ (by omega)]) hstr
    exact fun i hi => (hmoves.copies_iff htable.toLaid hi).1 (hcopies i hi)
  · intro hrepeats
    have hcopy := copyStringTable_of_copies (m := s.mem) hfree fun i hi =>
      (hmoves.copies_iff htable.toLaid hi).2 (hrepeats i hi)
    have hread := readEnv_setupArgs hdr base interpBase hnew (henv ▸ hfree) s
    rw [Elf.setupArgs_eq hdr base interpBase hnew] at hread
    rw [henv, hcopy, Option.map_some, Option.bind_some]
    rw [henv] at hread
    rw [hread, Option.map_some, entries_map_snd]

/-- The environment "A=1", "B=2" and one argument. -/
def twoVariables (arg : List UInt8) : Request where
  node := ⟨fun _ => 0, 0⟩
  argv := [arg]
  env := [[65, 61, 49], [66, 61, 50]]

/-- The space of a program that was started with one argument and has the next one at 8192,
with its table at 4096. -/
def caller (arg next : List UInt8) : Space :=
  (setupArgs (.ofBytes fun _ => 0) (twoVariables arg) 0 0
    { resident := fun _ => false
      writable := fun _ => false
      mem := fill (write32 (fun _ => 0) 4096 8192) 8192 next.length fun i => next.getD i 0 }).1

/-- From the argument "bbb" to "a" the strings move down. -/
theorem reexec_shorter :
    ((InMemory.setupArgs (.ofBytes fun _ => 0) 4096 (envTable (twoVariables [98, 98, 98])) 0 0
        (caller [98, 98, 98] [97])).bind fun r => (readEnv r.1.mem r.2).map (·.map Prod.snd)) =
      some (twoVariables [98, 98, 98]).env := by
  have hesp : newEsp (twoVariables [97]) = 3221225360 := by decide
  refine (reexec_iff (.ofBytes fun _ => 0) 0 0 _ (twoVariables [98, 98, 98]) (by decide) (by decide)
    (caller [98, 98, 98] [97]) (fun x _ => rfl) (.ofBytes fun _ => 0) 0 0 (twoVariables [97])
    (by decide) rfl 4096 ?_).2 ?_
  · refine stored_singleton (p := 8192) (by decide +kernel) (by decide) (by decide +kernel)
      (by decide +kernel) (by decide +kernel) (by decide) (fun x _ hx => ?_) fun x _ hx => ?_
    · show x < newEsp (twoVariables [97])
      omega
    · show x < newEsp (twoVariables [97])
      omega
  · unfold Survives
    decide +kernel

/-- From "a" to "bbb" they move up by two bytes. -/
theorem reexec_longer :
    ((InMemory.setupArgs (.ofBytes fun _ => 0) 4096 (envTable (twoVariables [97])) 0 0
        (caller [97] [98, 98, 98])).bind fun r => (readEnv r.1.mem r.2).map (·.map Prod.snd)) =
      some [[65, 61, 65, 61, 65, 61, 65, 61], [65, 61, 65, 61]] ∧
    (twoVariables [97]).env = [[65, 61, 49], [66, 61, 50]] := by
  decide +kernel

end Elf

end Ulysses
