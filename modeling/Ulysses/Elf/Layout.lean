import Ulysses.Lib.CString
import Ulysses.Elf.Exec

/-!
# The layout of the arguments

`setup_args` puts, from `new_esp` up to the top of the stack, the number of arguments,
the pointer table of the arguments and that of the environment, the auxiliary table,
and then the strings, those of the arguments first. The addresses are functions of the
request; a table and its strings are described by `Laid`.
-/

namespace Ulysses

open Lib Bytes

namespace Elf

/-! ## Strings one after the other -/

/-- The strings, each with its terminating zero. -/
def stringBytes (table : List (List UInt8)) : List UInt8 := table.flatMap fun str => str ++ [0]

/-- Where string `i` begins. -/
def offset (table : List (List UInt8)) (i : Nat) : Nat := (stringBytes (table.take i)).length

variable {table : List (List UInt8)} {i j : Nat}

theorem length_stringBytes (table : List (List UInt8)) :
    (stringBytes table).length = (TableInfo.make table).bytes := by
  simp [stringBytes, TableInfo.make, List.length_flatMap]

theorem stringBytes_append (xs ys : List (List UInt8)) :
    stringBytes (xs ++ ys) = stringBytes xs ++ stringBytes ys := List.flatMap_append

theorem stringBytes_cons (str : List UInt8) (table : List (List UInt8)) :
    stringBytes (str :: table) = (str ++ [0]) ++ stringBytes table := List.flatMap_cons

theorem offset_succ (hi : i < table.length) :
    offset table (i + 1) = offset table i + (table[i].length + 1) := by
  unfold offset
  rw [List.take_succ_eq_append_getElem hi, stringBytes_append]
  simp [stringBytes]

theorem offset_of_le (hi : table.length ≤ i) : offset table i = (TableInfo.make table).bytes := by
  unfold offset
  rw [List.take_of_length_le hi, length_stringBytes]

theorem offset_mono (h : i ≤ j) : offset table i ≤ offset table j := by
  induction h with
  | refl => exact Nat.le_refl _
  | @step j _ ih =>
    by_cases hj : j < table.length
    · rw [offset_succ hj]
      omega
    · have hlen : table.length ≤ j := by omega
      rw [offset_of_le hlen] at ih
      rwa [offset_of_le (Nat.le_succ_of_le hlen)]

theorem offset_le_bytes (table : List (List UInt8)) (i : Nat) :
    offset table i ≤ (TableInfo.make table).bytes := by
  rw [← offset_of_le (Nat.le_max_right i table.length)]
  exact offset_mono (Nat.le_max_left _ _)

theorem offset_add_le (hi : i < table.length) :
    offset table i + (table[i].length + 1) ≤ (TableInfo.make table).bytes := by
  rw [← offset_succ hi]
  exact offset_le_bytes table (i + 1)

theorem offset_take (table : List (List UInt8)) (h : j ≤ i) :
    offset (table.take i) j = offset table j := by
  unfold offset
  rw [List.take_take, Nat.min_eq_left h]

theorem stringBytes_getElem? (hi : i < table.length) {k : Nat} (hk : k ≤ table[i].length) :
    (stringBytes table)[offset table i + k]? = (table[i] ++ [0])[k]? := by
  have hsplit : stringBytes table =
      stringBytes (table.take i) ++ ((table[i] ++ [0]) ++ stringBytes (table.drop (i + 1))) := by
    rw [← stringBytes_cons, ← stringBytes_append, ← List.drop_eq_getElem_cons hi,
      List.take_append_drop]
  rw [hsplit, offset, List.getElem?_append_right (Nat.le_add_right _ _), Nat.add_sub_cancel_left,
    List.getElem?_append_left (by simp; omega)]

theorem stringBytes_take_getElem? {y : Nat} (hy : y < offset table i) :
    (stringBytes (table.take i))[y]? = (stringBytes table)[y]? := by
  conv_rhs => rw [← List.take_append_drop i table, stringBytes_append]
  exact (List.getElem?_append_left hy).symm

theorem exists_offset {y : Nat} (hj : j ≤ table.length) (hy : y < offset table j) :
    ∃ i, i < j ∧ offset table i ≤ y ∧ y < offset table (i + 1) := by
  induction j with
  | zero => exact absurd hy (Nat.not_lt_zero y)
  | succ j ih =>
    by_cases hlt : y < offset table j
    · obtain ⟨i, hi, h⟩ := ih (by omega) hlt
      exact ⟨i, by omega, h⟩
    · exact ⟨j, by omega, by omega, hy⟩

/-! ## A table and its strings -/

/-- The strings lie at `dataAddr`, and the words at `tableAddr` point to them. -/
structure Laid (m : Bytes) (tableAddr dataAddr : Nat) (table : List (List UInt8)) : Prop where
  words : ∀ i < table.length, m.read32 (tableAddr + 4 * i) = dataAddr + offset table i
  data : ∀ y b, (stringBytes table)[y]? = some b → m (dataAddr + y) = b

theorem Laid.congr {m m' : Bytes} {tableAddr dataAddr : Nat} (h : Laid m tableAddr dataAddr table)
    (htable : ∀ x, tableAddr ≤ x → x < tableAddr + 4 * table.length → m' x = m x)
    (hdata : ∀ x, dataAddr ≤ x → x < dataAddr + (TableInfo.make table).bytes → m' x = m x) :
    Laid m' tableAddr dataAddr table := by
  refine ⟨fun i hi => ?_, fun y b hb => ?_⟩
  · rw [read32_congr fun x h₁ h₂ => htable x (by omega) (by omega), h.words i hi]
  · have hy := (List.getElem?_eq_some_iff.1 hb).1
    rw [length_stringBytes] at hy
    rw [hdata _ (by omega) (by omega), h.data y b hb]

theorem Laid.hasCString {m : Bytes} {tableAddr dataAddr : Nat} (h : Laid m tableAddr dataAddr table)
    (hi : i < table.length) : HasCString m (dataAddr + offset table i) table[i] := by
  refine ⟨fun k hk => ?_, ?_⟩
  · rw [Nat.add_assoc]
    refine h.data _ _ ?_
    rw [stringBytes_getElem? hi (by omega), List.getElem?_append_left hk,
      List.getElem?_eq_getElem hk]
  · rw [Nat.add_assoc]
    refine h.data _ _ ?_
    rw [stringBytes_getElem? hi (Nat.le_refl _)]
    simp

/-- What the loop of `copy_string_table` has done. -/
structure Copied (m : Bytes) (tableAddr dataAddr : Nat) (table : List (List UInt8))
    (st : Bytes × Nat × Nat) : Prop extends Laid st.1 tableAddr dataAddr table where
  pos : st.2.1 = dataAddr + (TableInfo.make table).bytes
  index : st.2.2 = table.length
  frame : ∀ x, x < tableAddr ∨ tableAddr + 4 * table.length ≤ x →
    x < dataAddr ∨ dataAddr + (TableInfo.make table).bytes ≤ x → st.1 x = m x

theorem make_bytes_concat (table : List (List UInt8)) (str : List UInt8) :
    (TableInfo.make (table ++ [str])).bytes = (TableInfo.make table).bytes + (str.length + 1) := by
  simp [TableInfo.make]

theorem offset_concat (table : List (List UInt8)) (str : List UInt8) (hi : i ≤ table.length) :
    offset (table ++ [str]) i = offset table i := by
  unfold offset
  rw [List.take_append_of_le_length hi]

theorem Copied.step {m : Bytes} {tableAddr dataAddr : Nat} {st : Bytes × Nat × Nat}
    (h : Copied m tableAddr dataAddr table st) (str : List UInt8)
    (hapart : tableAddr + 4 * (table.length + 1) ≤ dataAddr)
    (hlt : dataAddr + (TableInfo.make table).bytes < 4294967296) :
    Copied m tableAddr dataAddr (table ++ [str]) (copyString tableAddr st str) := by
  obtain ⟨mem, pos, index⟩ := st
  obtain ⟨hlaid, hpos, hindex, hframe⟩ := h
  simp only at hlaid hpos hindex hframe
  subst hpos hindex
  have hbytes := make_bytes_concat table str
  have hoff {x : Nat} (hx : x < tableAddr + 4 * table.length ∨
      tableAddr + 4 * (table.length + 1) ≤ x) (hx' : x < dataAddr + (TableInfo.make table).bytes ∨
      dataAddr + (TableInfo.make table).bytes + (str.length + 1) ≤ x) :
      (copyString tableAddr (mem, dataAddr + (TableInfo.make table).bytes, table.length) str).1 x =
        mem x := (write32_off _ _ (by omega)).trans (fill_off _ _ (by omega))
  have hkeep := hlaid.congr (fun x h₁ h₂ => hoff (x := x) (by omega) (by omega))
    fun x h₁ h₂ => hoff (x := x) (by omega) (by omega)
  have hstr : HasCString
      (copyString tableAddr (mem, dataAddr + (TableInfo.make table).bytes, table.length) str).1
      (dataAddr + (TableInfo.make table).bytes) str :=
    (hasCString_fill _ _ _).congr fun x h₁ h₂ => write32_off _ _ (.inr (by simp only; omega))
  refine ⟨⟨fun i hi => ?_, fun y b hb => ?_⟩, ?_, ?_, fun x h₁ h₂ => ?_⟩
  · rw [List.length_append, List.length_singleton] at hi
    rw [offset_concat table str (by omega)]
    by_cases hil : i < table.length
    · exact hkeep.words i hil
    · obtain rfl : i = table.length := by omega
      rw [offset_of_le (Nat.le_refl _)]
      exact read32_write32_same _ _ hlt
  · rw [stringBytes_append] at hb
    by_cases hy : y < (stringBytes table).length
    · rw [List.getElem?_append_left hy] at hb
      exact hkeep.data y b hb
    · rw [List.getElem?_append_right (by omega), stringBytes_cons] at hb
      have hbyte := hstr.getElem? ((List.append_nil _).symm ▸ hb : (str ++ [0])[_]? = some b)
      rw [length_stringBytes] at hy hbyte
      rwa [show dataAddr + y = dataAddr + (TableInfo.make table).bytes +
        (y - (TableInfo.make table).bytes) by omega]
  · rw [hbytes]
    exact Nat.add_assoc _ _ _
  · simp [copyString]
  · rw [List.length_append, List.length_singleton] at h₁
    rw [hbytes] at h₂
    rw [hoff (by omega) (by omega)]
    exact hframe x (by omega) (by omega)

theorem copied_nil (m : Bytes) (tableAddr dataAddr : Nat) :
    Copied m tableAddr dataAddr [] (m, dataAddr, 0) :=
  ⟨⟨fun _ hi => absurd hi (Nat.not_lt_zero _), fun y b hb => by simp [stringBytes] at hb⟩, rfl, rfl,
    fun _ _ _ => rfl⟩

theorem copied_foldl (m : Bytes) (tableAddr : Nat) {dataAddr : Nat} (table : List (List UInt8))
    (hapart : tableAddr + 4 * table.length ≤ dataAddr)
    (hlt : dataAddr + (TableInfo.make table).bytes ≤ 4294967296) :
    Copied m tableAddr dataAddr table (table.foldl (copyString tableAddr) (m, dataAddr, 0)) := by
  induction table using List.reverseRecOn with
  | nil => exact copied_nil m tableAddr dataAddr
  | append_singleton table str ih =>
    rw [List.length_append, List.length_singleton] at hapart
    have hbytes := make_bytes_concat table str
    rw [List.foldl_append]
    exact (ih (by omega) (by omega)).step str hapart (by omega)

/-- A table with its strings and the null word at its end. -/
structure Table (m : Bytes) (tableAddr dataAddr : Nat) (table : List (List UInt8)) : Prop extends
    Laid m tableAddr dataAddr table where
  null : m.read32 (tableAddr + 4 * table.length) = 0

theorem Table.congr {m m' : Bytes} {tableAddr dataAddr : Nat} (h : Table m tableAddr dataAddr table)
    (htable : ∀ x, tableAddr ≤ x → x < tableAddr + (TableInfo.make table).tableSize → m' x = m x)
    (hdata : ∀ x, dataAddr ≤ x → x < dataAddr + (TableInfo.make table).bytes → m' x = m x) :
    Table m' tableAddr dataAddr table := by
  have hsize : (TableInfo.make table).tableSize = 4 * (table.length + 1) := rfl
  refine ⟨h.toLaid.congr (fun x h₁ h₂ => htable x h₁ (by omega)) hdata, ?_⟩
  rw [read32_congr fun x h₁ h₂ => htable x (by omega) (by omega), h.null]

theorem copyStringTable_spec (m : Bytes) (tableAddr dataAddr : Nat) (table : List (List UInt8))
    (hapart : tableAddr + (TableInfo.make table).tableSize ≤ dataAddr)
    (hlt : dataAddr + (TableInfo.make table).bytes ≤ 4294967296) :
    Table (copyStringTable dataAddr tableAddr table m) tableAddr dataAddr table ∧
      ∀ x, x < tableAddr ∨ tableAddr + (TableInfo.make table).tableSize ≤ x →
        x < dataAddr ∨ dataAddr + (TableInfo.make table).bytes ≤ x →
        copyStringTable dataAddr tableAddr table m x = m x := by
  have hsize : (TableInfo.make table).tableSize = 4 * (table.length + 1) := rfl
  have hcopied := copied_foldl m tableAddr table (by omega) hlt
  refine ⟨⟨hcopied.toLaid.congr (fun x h₁ h₂ => write32_off _ _ (by omega)) fun x h₁ h₂ =>
    write32_off _ _ (by omega), read32_write32_same _ _ (by decide)⟩, fun x h₁ h₂ => ?_⟩
  exact (write32_off _ _ (by omega)).trans (hcopied.frame x (by omega) h₂)

theorem writeWords_read32 {ws : List Nat} {m : Bytes} {addr w : Nat} (h : ws[i]? = some w)
    (hw : w < 4294967296) : (writeWords addr ws m).read32 (addr + 4 * i) = w := by
  induction ws generalizing m addr i with
  | nil => cases h
  | cons w' ws ih =>
    have hcons : writeWords addr (w' :: ws) m = writeWords (addr + 4) ws (m.write32 addr w') := rfl
    rw [hcons]
    cases i with
    | zero =>
      obtain rfl := Option.some.inj h
      have hagree := writeWords_agree (AgreeOff.refl (addr + 4) (addr + 4 + 4 * ws.length)
        (m.write32 addr w')) (Nat.le_refl _) (Nat.le_refl _)
      exact (hagree.read32 (.inl (Nat.le_refl _))).trans (read32_write32_same _ _ hw)
    | succ i =>
      rw [show addr + 4 * (i + 1) = addr + 4 + 4 * i by omega]
      exact ih h

/-! ## The addresses -/

section Addresses

variable (req : Request)

def newEsp : Nat := stackTop - headerBytes req

def argvTable : Nat := newEsp req + 4

def envTable : Nat := argvTable req + (TableInfo.make req.argv).tableSize

def auxvTable : Nat := envTable req + (TableInfo.make req.env).tableSize

def argvData : Nat := auxvTable req + auxvSize

def envData : Nat := argvData req + (TableInfo.make req.argv).bytes

variable {req}

theorem sub32_newEsp (h : argsBytes req ≤ stackTop) :
    sub32 stackTop (headerBytes req) = newEsp req :=
  sub32_eq (headerBytes_bounds h).2.2.1 (by decide)

/-- The parts of the block in their order. The strings of the environment end less than 16
bytes below the top of the stack. -/
theorem addresses (h : argsBytes req ≤ stackTop) :
    argvTable req = newEsp req + 4 ∧
      envTable req = argvTable req + 4 * (req.argv.length + 1) ∧
      auxvTable req = envTable req + 4 * (req.env.length + 1) ∧
      argvData req = auxvTable req + 64 ∧
      envData req = argvData req + (TableInfo.make req.argv).bytes ∧
      envData req + (TableInfo.make req.env).bytes ≤ 3221225472 ∧
      3221225472 < envData req + (TableInfo.make req.env).bytes + 16 ∧ newEsp req % 16 = 0 := by
  obtain ⟨hlo, hhi, hheader, -⟩ := headerBytes_bounds h
  have hmod : headerBytes req % 16 = 0 := Nat.mul_mod_left _ _
  have hsum : argsBytes req = (TableInfo.make req.env).tableSize + (TableInfo.make req.env).bytes +
      ((TableInfo.make req.argv).tableSize + (TableInfo.make req.argv).bytes) + 64 + 4 := rfl
  refine ⟨rfl, rfl, rfl, rfl, rfl, ?_⟩
  unfold stackTop kernelVirtualBase at h hheader
  unfold envData argvData auxvTable envTable argvTable newEsp auxvSize stackTop kernelVirtualBase
  omega

end Addresses

/-! ## What is written -/

section Writes

variable (hdr : Header) (req : Request) (base interpBase : Nat)

/-- What `setup_args` writes after the environment. -/
def writeRest (mem : Bytes) : Bytes :=
  (writeWords (auxvTable req) (auxv hdr base interpBase)
    (copyStringTable (argvData req) (argvTable req) req.argv mem)).write32 (newEsp req)
      (TableInfo.make req.argv).entries

variable {req}

theorem setupArgs_eq (h : argsBytes req ≤ stackTop) (s : Space) :
    setupArgs hdr req base interpBase s =
      ({ allocatePagesForHeader (headerBytes req) s with
          mem := writeRest hdr req base interpBase
            (copyStringTable (envData req) (envTable req) req.env s.mem) }, newEsp req) := by
  unfold setupArgs
  simp only [sub32_newEsp h, allocatePagesForHeader_mem]
  rfl

variable (h : argsBytes req ≤ stackTop)

include h

theorem writeRest_env (mem : Bytes) {x : Nat}
    (hx : envTable req ≤ x ∧ x < auxvTable req ∨ envData req ≤ x) :
    writeRest hdr req base interpBase mem x = mem x := by
  obtain ⟨hargv, henv, hauxv, hargvData, henvData, htop, -⟩ := addresses h
  have hsize : (TableInfo.make req.argv).tableSize = 4 * (req.argv.length + 1) := rfl
  have hcopy := (copyStringTable_spec mem (argvTable req) (argvData req) req.argv
    (by omega) (by omega)).2 x (by omega) (by omega)
  have hwords := writeWords_agree (AgreeOff.refl (auxvTable req) (argvData req)
    (copyStringTable (argvData req) (argvTable req) req.argv mem)) (Nat.le_refl _)
    (show _ + 4 * (auxv hdr base interpBase).length ≤ _ from Nat.le_of_eq hargvData.symm)
  unfold writeRest
  rw [write32_off _ _ (by omega), hwords x (by omega), hcopy]

theorem writeRest_spec (mem : Bytes) :
    (writeRest hdr req base interpBase mem).read32 (newEsp req) = req.argv.length ∧
      Table (writeRest hdr req base interpBase mem) (argvTable req) (argvData req) req.argv ∧
      ∀ i w, (auxv hdr base interpBase)[i]? = some w → w < 4294967296 →
        (writeRest hdr req base interpBase mem).read32 (auxvTable req + 4 * i) = w := by
  obtain ⟨hargv, henv, hauxv, hargvData, henvData, htop, -⟩ := addresses h
  have hsize : (TableInfo.make req.argv).tableSize = 4 * (req.argv.length + 1) := rfl
  have hlen : (auxv hdr base interpBase).length = 16 := rfl
  have hwords := writeWords_agree (AgreeOff.refl (auxvTable req) (argvData req)
    (copyStringTable (argvData req) (argvTable req) req.argv mem)) (Nat.le_refl _)
    (show _ + 4 * (auxv hdr base interpBase).length ≤ _ from Nat.le_of_eq hargvData.symm)
  refine ⟨read32_write32_same _ _ ?_, ?_, fun i w hi hw => ?_⟩
  · show req.argv.length < 4294967296
    omega
  · refine (copyStringTable_spec mem (argvTable req) (argvData req) req.argv
      (by omega) (by omega)).1.congr (fun x h₁ h₂ => ?_) fun x h₁ h₂ => ?_
    · exact (write32_off _ _ (by omega)).trans (hwords x (by omega))
    · exact (write32_off _ _ (by omega)).trans (hwords x (by omega))
  · exact (read32_write32_off _ _ (by omega)).trans (writeWords_read32 hi hw)

theorem setupArgs_env (s : Space) :
    Table (setupArgs hdr req base interpBase s).1.mem (envTable req) (envData req) req.env := by
  obtain ⟨hargv, henv, hauxv, hargvData, henvData, htop, -⟩ := addresses h
  have hsize : (TableInfo.make req.env).tableSize = 4 * (req.env.length + 1) := rfl
  rw [setupArgs_eq hdr base interpBase h]
  refine (copyStringTable_spec s.mem (envTable req) (envData req) req.env
    (by omega) (by omega)).1.congr (fun x h₁ h₂ => ?_) fun x h₁ h₂ => ?_
  · exact writeRest_env hdr base interpBase h _ (.inl ⟨h₁, by omega⟩)
  · exact writeRest_env hdr base interpBase h _ (.inr h₁)

theorem setupArgs_resident (s : Space) {x : Nat} (hlo : newEsp req ≤ x) (hhi : x < stackTop) :
    (setupArgs hdr req base interpBase s).1.resident (x / pageSize) = true := by
  obtain ⟨-, -, htop, hpages⟩ := headerBytes_bounds h
  have hstart : argsStart req ≤ newEsp req := by
    unfold argsStart newEsp
    omega
  exact ((setupArgs_spec hdr h base interpBase s).2 _).2 (.inr ⟨hstart.trans hlo, hhi⟩)

end Writes

end Elf

end Ulysses
