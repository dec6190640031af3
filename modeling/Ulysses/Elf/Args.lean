import Ulysses.Elf.Layout

/-!
# Arguments in memory

`Elf.setupArgs` takes the strings of arguments and environment as values. In memory
`setup_args` walks over the two tables of pointers to find the sizes, and
`copy_string_table` then reads every pointer and its string again, while it writes. If
tables and strings lie outside the block, the copies are those of the values
(`setupArgs_of_stored`), and a program that reads its stack as the i386 convention has it
finds them (`setupArgs_parseFrame`).

Addresses are not reduced: a walk that leaves the address space is `none`.
-/

namespace Ulysses

open Lib Bytes

namespace Elf

namespace InMemory

/-! ## The model -/

/-- The loop of the constructor of `TableInfo`. -/
def tableInfoFrom (m : Bytes) (tbl i bytes : Nat) : Nat → Option TableInfo
  | 0 => none
  | fuel + 1 =>
    let str := m.read32 (tbl + 4 * i)
    if str = 0 then some ⟨i, bytes, 4 * (i + 1)⟩
    else (m.strlen str).bind fun n => tableInfoFrom m tbl (i + 1) (add32 bytes (n + 1)) fuel

/-- The constructor of `TableInfo`; the address space has `2 ^ 30` words. -/
def tableInfo (m : Bytes) (tbl : Nat) : Option TableInfo := tableInfoFrom m tbl 0 0 1073741824

/-- One turn of the loop of `copy_string_table`, on memory, `pos` and `i`. -/
def copyString (tbl tableAddr : Nat) (st : Bytes × Nat × Nat) : Option (Bytes × Nat × Nat) :=
  let str := st.1.read32 (tbl + 4 * st.2.2)
  (st.1.strlen str).map fun n =>
    let mem := st.1.memcpy st.2.1 str (n + 1)
    (mem.write32 (tableAddr + 4 * st.2.2) st.2.1, st.2.1 + (n + 1), st.2.2 + 1)

def copyStrings (tbl tableAddr : Nat) : Nat → Bytes × Nat × Nat → Option (Bytes × Nat × Nat)
  | 0, st => some st
  | n + 1, st => (copyString tbl tableAddr st).bind (copyStrings tbl tableAddr n)

def copyStringTable (dataAddr tableAddr tbl entries : Nat) (mem : Bytes) : Option Bytes :=
  (copyStrings tbl tableAddr entries (mem, dataAddr, 0)).map fun st =>
    st.1.write32 (tableAddr + 4 * entries) 0

/-- `setup_args`, with the tables at `envp` and `argp`. -/
def setupArgs (hdr : Header) (argp envp baseAddress interpBase : Nat) (s : Space) :
    Option (Space × Nat) :=
  (tableInfo s.mem envp).bind fun env =>
    (tableInfo s.mem argp).bind fun argv =>
      let headerBytes := alignUp (env.totalSize + argv.totalSize + auxvSize + 4) 16
      let s := allocatePagesForHeader headerBytes s
      let newEsp := sub32 stackTop headerBytes
      let argvTable := newEsp + 4
      let envTable := argvTable + argv.tableSize
      let auxvTable := envTable + env.tableSize
      let argvData := auxvTable + auxvSize
      let envData := argvData + argv.bytes
      (copyStringTable envData envTable envp env.entries s.mem).bind fun mem =>
        (copyStringTable argvData argvTable argp argv.entries mem).map fun mem =>
          let mem := writeWords auxvTable (auxv hdr baseAddress interpBase) mem
          let mem := mem.write32 newEsp argv.entries
          ({ s with mem }, newEsp)

/-! ## Tables in memory -/

/-- A table of pointers to the strings. The table and the strings lie in `P`. -/
structure Stored (m : Bytes) (P : Nat → Prop) (tbl : Nat) (table : List (List UInt8)) : Prop where
  null : m.read32 (tbl + 4 * table.length) = 0
  ptr_ne : ∀ i < table.length, m.read32 (tbl + 4 * i) ≠ 0
  string : ∀ i (h : i < table.length), HasCString m (m.read32 (tbl + 4 * i)) table[i]
  nul_free : ∀ str ∈ table, 0 ∉ str
  table_mem : ∀ x, tbl ≤ x → x < tbl + 4 * (table.length + 1) → P x
  string_mem : ∀ i (h : i < table.length) x, m.read32 (tbl + 4 * i) ≤ x →
    x ≤ m.read32 (tbl + 4 * i) + table[i].length → P x

variable {m m' : Bytes} {P : Nat → Prop} {tbl tableAddr : Nat} {table : List (List UInt8)}

theorem Stored.read32_eq (h : Stored m P tbl table) (hm : ∀ x, P x → m' x = m x) {i : Nat}
    (hi : i ≤ table.length) : m'.read32 (tbl + 4 * i) = m.read32 (tbl + 4 * i) :=
  read32_congr fun x h₁ h₂ => hm x (h.table_mem x (by omega) (by omega))

theorem Stored.congr (h : Stored m P tbl table) (hm : ∀ x, P x → m' x = m x) :
    Stored m' P tbl table where
  null := (h.read32_eq hm (Nat.le_refl _)).trans h.null
  ptr_ne i hi := (h.read32_eq hm (Nat.le_of_lt hi)).symm ▸ h.ptr_ne i hi
  string i hi := by
    rw [h.read32_eq hm (Nat.le_of_lt hi)]
    exact (h.string i hi).congr fun x h₁ h₂ => hm x (h.string_mem i hi x h₁ (by omega))
  nul_free := h.nul_free
  table_mem := h.table_mem
  string_mem i hi x := by
    rw [h.read32_eq hm (Nat.le_of_lt hi)]
    exact h.string_mem i hi x

theorem Stored.strlen_eq (h : Stored m P tbl table) (hP : ∀ x, P x → x < 4294967296) {i : Nat}
    (hi : i < table.length) : m.strlen (m.read32 (tbl + 4 * i)) = some table[i].length :=
  strlen_of_hasCString (h.string i hi) (h.nul_free _ (List.getElem_mem hi))
    (hP _ (h.string_mem i hi _ (Nat.le_add_right _ _) (Nat.le_refl _)))

theorem tableInfoFrom_of_stored (h : Stored m P tbl table) (hP : ∀ x, P x → x < 4294967296)
    (hbytes : (TableInfo.make table).bytes < 4294967296) {i fuel : Nat} (hi : i ≤ table.length)
    (hfuel : table.length < i + fuel) :
    tableInfoFrom m tbl i (offset table i) fuel = some (TableInfo.make table) := by
  induction fuel generalizing i with
  | zero => omega
  | succ fuel ih =>
    unfold tableInfoFrom
    by_cases hlast : i = table.length
    · subst hlast
      rw [if_pos h.null, offset_of_le (Nat.le_refl _)]
      rfl
    · have hlt : i < table.length := by omega
      have hoffset := offset_add_le hlt
      rw [if_neg (h.ptr_ne i hlt), h.strlen_eq hP hlt, Option.bind_some, add32_eq (by omega),
        ← offset_succ hlt]
      exact ih hlt (by omega)

theorem tableInfo_of_stored (h : Stored m P tbl table) (hP : ∀ x, P x → x < 4294967296)
    (hbytes : (TableInfo.make table).bytes < 4294967296) :
    tableInfo m tbl = some (TableInfo.make table) := by
  have hend := hP _ (h.table_mem (tbl + 4 * table.length) (by omega) (by omega))
  exact tableInfoFrom_of_stored h hP hbytes (Nat.zero_le _) (by omega)

variable {dataAddr : Nat}

theorem stored_of_table (h : Table m tbl dataAddr table) (hfree : ∀ str ∈ table, 0 ∉ str)
    (hdata : dataAddr ≠ 0) (htable : tbl + 4 * (table.length + 1) ≤ 4294967296)
    (hlt : dataAddr + (TableInfo.make table).bytes ≤ 4294967296) :
    Stored m (· < 4294967296) tbl table where
  null := h.null
  ptr_ne i hi := by
    rw [h.words i hi]
    omega
  string i hi := by
    rw [h.words i hi]
    exact h.hasCString hi
  nul_free := hfree
  table_mem x _ hx := Nat.lt_of_lt_of_le hx htable
  string_mem i hi x _ hx := by
    have hle := offset_add_le hi
    rw [h.words i hi] at hx
    show x < 4294967296
    omega

/-! ## Copies -/

/-- The next turn of the loop copies `str`: it is what the next pointer leads to, and the
copy does not overtake it. -/
def Copies (tbl : Nat) (st : Bytes × Nat × Nat) (str : List UInt8) : Prop :=
  HasCString st.1 (st.1.read32 (tbl + 4 * st.2.2)) str ∧
    st.1.read32 (tbl + 4 * st.2.2) + str.length < 4294967296 ∧
    (st.2.1 ≤ st.1.read32 (tbl + 4 * st.2.2) ∨
      st.1.read32 (tbl + 4 * st.2.2) + str.length < st.2.1)

theorem copyString_of_copies {st : Bytes × Nat × Nat} {str : List UInt8} (h : Copies tbl st str)
    (hstr : 0 ∉ str) (tableAddr : Nat) :
    copyString tbl tableAddr st = some (Elf.copyString tableAddr st str) := by
  obtain ⟨hstring, hlt, hover⟩ := h
  unfold copyString Elf.copyString
  simp only [strlen_of_hasCString hstring hstr hlt, Option.map_some,
    memcpy_of_hasCString hstring hover]

theorem copyStrings_succ (i : Nat) (st : Bytes × Nat × Nat) :
    copyStrings tbl tableAddr (i + 1) st =
      (copyStrings tbl tableAddr i st).bind (copyString tbl tableAddr) := by
  induction i generalizing st with
  | zero =>
    show (copyString tbl tableAddr st).bind some = copyString tbl tableAddr st
    exact Option.bind_fun_some _
  | succ i ih =>
    rw [copyStrings, copyStrings, Option.bind_assoc]
    exact congrArg _ (funext ih)

/-- The state of the loop on the values after `i` turns. -/
def upTo (tableAddr dataAddr : Nat) (table : List (List UInt8)) (m : Bytes) (i : Nat) :
    Bytes × Nat × Nat :=
  (table.take i).foldl (Elf.copyString tableAddr) (m, dataAddr, 0)

theorem upTo_succ {i : Nat} (hi : i < table.length) :
    upTo tableAddr dataAddr table m (i + 1) =
      Elf.copyString tableAddr (upTo tableAddr dataAddr table m i) table[i] := by
  unfold upTo
  rw [List.take_succ_eq_append_getElem hi, List.foldl_append]
  rfl

theorem copied_upTo (m : Bytes) (i : Nat) (hapart : tableAddr + 4 * table.length ≤ dataAddr)
    (hlt : dataAddr + (TableInfo.make table).bytes ≤ 4294967296) :
    Copied m tableAddr dataAddr (table.take i) (upTo tableAddr dataAddr table m i) := by
  have hlen := List.length_take_le' i table
  have hbytes := offset_le_bytes table i
  rw [offset, length_stringBytes] at hbytes
  exact copied_foldl m tableAddr _ (by omega) (by omega)

theorem copyStrings_of_copies (hfree : ∀ str ∈ table, 0 ∉ str) {i : Nat} (hi : i ≤ table.length)
    (h : ∀ j (hj : j < table.length), j < i →
      Copies tbl (upTo tableAddr dataAddr table m j) table[j]) :
    copyStrings tbl tableAddr i (m, dataAddr, 0) = some (upTo tableAddr dataAddr table m i) := by
  induction i with
  | zero => rfl
  | succ i ih =>
    rw [copyStrings_succ, ih (by omega) fun j hj hji => h j hj (by omega), Option.bind_some,
      upTo_succ hi]
    exact copyString_of_copies (h i hi (by omega)) (hfree _ (List.getElem_mem _)) tableAddr

theorem copyStringTable_of_copies (hfree : ∀ str ∈ table, 0 ∉ str)
    (h : ∀ i (hi : i < table.length), Copies tbl (upTo tableAddr dataAddr table m i) table[i]) :
    copyStringTable dataAddr tableAddr tbl table.length m =
      some (Elf.copyStringTable dataAddr tableAddr table m) := by
  unfold copyStringTable Elf.copyStringTable
  rw [copyStrings_of_copies hfree (Nat.le_refl _) fun i hi _ => h i hi, upTo, List.take_length]
  rfl

theorem copyStringTable_of_stored (h : Stored m P tbl table) (tableAddr dataAddr : Nat)
    (hP : ∀ x, P x → x < 4294967296 ∧
      (x < tableAddr ∨ tableAddr + 4 * (table.length + 1) ≤ x) ∧
      (x < dataAddr ∨ dataAddr + (TableInfo.make table).bytes ≤ x))
    (hapart : tableAddr + 4 * table.length ≤ dataAddr)
    (hlt : dataAddr + (TableInfo.make table).bytes ≤ 4294967296) :
    copyStringTable dataAddr tableAddr tbl table.length m =
      some (Elf.copyStringTable dataAddr tableAddr table m) := by
  refine copyStringTable_of_copies h.nul_free fun i hi => ?_
  have hcopied := copied_upTo m i hapart hlt
  have hlen : (table.take i).length = i := List.length_take_of_le (by omega)
  have hbytes := offset_add_le hi
  have hoffset : offset table i = (TableInfo.make (table.take i)).bytes := length_stringBytes _
  have hpos := hcopied.pos
  have hframe := hcopied.frame
  rw [hlen] at hframe
  have hstored : Stored (upTo tableAddr dataAddr table m i).1 P tbl table := h.congr fun x hx => by
    obtain ⟨-, h₁, h₂⟩ := hP x hx
    exact hframe x (by omega) (by omega)
  unfold Copies
  rw [hcopied.index, hlen, hpos]
  have hstring := hstored.string i hi
  have hmem := hstored.string_mem i hi
  generalize (upTo tableAddr dataAddr table m i).1.read32 (tbl + 4 * i) = src at hstring hmem ⊢
  refine ⟨hstring, (hP _ (hmem _ (Nat.le_add_right _ _) (Nat.le_refl _))).1, ?_⟩
  -- the string and the next `length + 1` bytes of the block have no byte in common
  by_contra hover
  have hcommon := (hP (dataAddr + (TableInfo.make (table.take i)).bytes)
    (hmem _ (by omega) (by omega))).2.2
  omega

/-! ## The block -/

/-- The address is not in the block. -/
def Outside (req : Request) (x : Nat) : Prop :=
  x < 4294967296 ∧ (x < newEsp req ∨ stackTop ≤ x)

section Block

variable (hdr : Header) {req : Request} {argp envp : Nat} (base interpBase : Nat) {s : Space}
  (h : argsBytes req ≤ stackTop)

include h in
/-- `setup_args` when the arguments are outside the block and the environment, wherever it
is, is copied without harm to them. -/
theorem setupArgs_of_env (henv : tableInfo s.mem envp = some (TableInfo.make req.env))
    (hargv : Stored s.mem P argp req.argv) (hP : ∀ x, P x → Outside req x)
    (hkeep : ∀ mem, copyStringTable (envData req) (envTable req) envp req.env.length s.mem =
      some mem → ∀ x, P x → mem x = s.mem x) :
    setupArgs hdr argp envp base interpBase s =
      (copyStringTable (envData req) (envTable req) envp req.env.length s.mem).map fun mem =>
        ({ allocatePagesForHeader (headerBytes req) s with
            mem := writeRest hdr req base interpBase mem }, newEsp req) := by
  obtain ⟨hargvAddr, henvAddr, hauxv, hargvData, henvData, htop, -⟩ := addresses h
  have hesp : newEsp req ≤ stackTop := Nat.sub_le _ _
  have hinfo := tableInfo_of_stored hargv (fun x hx => (hP x hx).1) (by omega)
  have hheader : alignUp ((TableInfo.make req.env).totalSize + (TableInfo.make req.argv).totalSize +
    auxvSize + 4) 16 = headerBytes req := rfl
  unfold setupArgs
  simp only [henv, hinfo, Option.bind_some, hheader, sub32_newEsp h, allocatePagesForHeader_mem]
  show (copyStringTable (envData req) (envTable req) envp req.env.length s.mem).bind (fun mem =>
    (copyStringTable (argvData req) (argvTable req) argp req.argv.length mem).map _) = _
  cases hcopy : copyStringTable (envData req) (envTable req) envp req.env.length s.mem with
  | none => rfl
  | some mem =>
    have hcopyArgv := copyStringTable_of_stored (hargv.congr (hkeep mem hcopy)) (argvTable req)
      (argvData req) (fun x hx => by
        obtain ⟨hlt, hout⟩ := hP x hx
        unfold stackTop kernelVirtualBase at hout
        omega) (by omega) (by omega)
    rw [Option.bind_some, hcopyArgv, Option.map_some, Option.map_some]
    unfold writeRest
    rfl

include h in
theorem setupArgs_of_stored (hargv : Stored s.mem (Outside req) argp req.argv)
    (henv : Stored s.mem (Outside req) envp req.env) :
    setupArgs hdr argp envp base interpBase s = some (Elf.setupArgs hdr req base interpBase s) := by
  obtain ⟨hargvAddr, henvAddr, hauxv, hargvData, henvData, htop, -⟩ := addresses h
  have hesp : newEsp req ≤ stackTop := Nat.sub_le _ _
  have hsize : (TableInfo.make req.env).tableSize = 4 * (req.env.length + 1) := rfl
  have hinfo := tableInfo_of_stored henv (fun x hx => hx.1) (by omega)
  have hcopy := copyStringTable_of_stored henv (envTable req) (envData req) (fun x hx => by
    obtain ⟨hlt, hout⟩ := hx
    unfold stackTop kernelVirtualBase at hout
    omega) (by omega) (by omega)
  rw [setupArgs_of_env hdr base interpBase h hinfo hargv (fun x hx => hx) fun mem hmem x hx => ?_,
    hcopy, Elf.setupArgs_eq hdr base interpBase h]
  · rfl
  · obtain rfl := Option.some.inj (hcopy.symm.trans hmem)
    obtain ⟨hlt, hout⟩ := hx
    unfold stackTop kernelVirtualBase at hout
    exact (copyStringTable_spec s.mem (envTable req) (envData req) req.env (by omega)
      (by omega)).2 x (by omega) (by omega)

end Block

end InMemory

/-! ## Process entry -/

/-- The words from `a` on up to a null word. -/
def readPointers (m : Bytes) (a : Nat) : Nat → Option (List Nat)
  | 0 => none
  | fuel + 1 =>
    if m.read32 a = 0 then some [] else (readPointers m (a + 4) fuel).map (m.read32 a :: ·)

/-- The pairs from `a` on up to one of type `AT_NULL`. -/
def readAuxv (m : Bytes) (a : Nat) : Nat → Option (List (Nat × Nat))
  | 0 => none
  | fuel + 1 =>
    if m.read32 a = 0 then some [(0, m.read32 (a + 4))]
    else (readAuxv m (a + 8) fuel).map ((m.read32 a, m.read32 (a + 4)) :: ·)

/-- A pointer and the string it leads to. -/
def readString (m : Bytes) (p : Nat) : Option (Nat × List UInt8) :=
  (m.strlen p).map fun n => (p, (List.range n).map fun i => m (p + i))

def readStrings (m : Bytes) : List Nat → Option (List (Nat × List UInt8))
  | [] => some []
  | p :: ps => (readString m p).bind fun e => (readStrings m ps).map (e :: ·)

/-- The environment of a process that begins with its stack at `esp`. -/
def readEnv (m : Bytes) (esp : Nat) : Option (List (Nat × List UInt8)) :=
  (readPointers m (esp + 8 + 4 * m.read32 esp) 1073741824).bind (readStrings m)

/-- What the i386 convention for process entry has at `esp`. -/
structure Frame where
  argc : Nat
  argv : List (Nat × List UInt8)
  env : List (Nat × List UInt8)
  auxv : List (Nat × Nat)

def parseFrame (m : Bytes) (esp : Nat) : Option Frame :=
  let argc := m.read32 esp
  if m.read32 (esp + 4 + 4 * argc) ≠ 0 then none
  else
    (readStrings m ((List.range argc).map fun i => m.read32 (esp + 4 + 4 * i))).bind fun argv =>
      (readEnv m esp).bind fun env =>
        (readAuxv m (esp + 8 + 4 * argc + 4 * (env.length + 1)) 1073741824).map fun auxv =>
          ⟨argc, argv, env, auxv⟩

/-- Address and size of the parts of a frame. -/
def Frame.regions (f : Frame) (esp : Nat) : List (Nat × Nat) :=
  (esp, 4) :: (esp + 4, 4 * (f.argc + 1)) :: (esp + 8 + 4 * f.argc, 4 * (f.env.length + 1)) ::
    (esp + 8 + 4 * f.argc + 4 * (f.env.length + 1), 8 * f.auxv.length) ::
      (f.argv ++ f.env).map fun e => (e.1, e.2.length + 1)

def Apart (r r' : Nat × Nat) : Prop := r.1 + r.2 ≤ r'.1 ∨ r'.1 + r'.2 ≤ r.1

/-- The process finds the request on its stack, in parts that lie apart in the block between
`esp` and the top of the stack, all of it on pages with frames. -/
structure Entry (req : Request) (aux : List (Nat × Nat)) (s : Space) (esp : Nat) (f : Frame) :
    Prop where
  parse : parseFrame s.mem esp = some f
  argc : f.argc = req.argv.length
  argv : f.argv.map Prod.snd = req.argv
  env : f.env.map Prod.snd = req.env
  auxv : f.auxv = aux
  apart : (f.regions esp).Pairwise Apart
  inside : ∀ r ∈ f.regions esp, esp ≤ r.1 ∧ r.1 + r.2 ≤ stackTop
  aligned : esp % 16 = 0
  resident : ∀ x, esp ≤ x → x < stackTop → s.resident (x / pageSize) = true

theorem readString_eq_some {m : Bytes} {p : Nat} {e : Nat × List UInt8} :
    readString m p = some e ↔
      e.1 = p ∧ HasCString m p e.2 ∧ 0 ∉ e.2 ∧ p + e.2.length < 4294967296 := by
  obtain ⟨p', str⟩ := e
  unfold readString
  simp only [Option.map_eq_some_iff, Prod.mk.injEq]
  constructor
  · rintro ⟨n, hn, rfl, rfl⟩
    obtain ⟨hlt, hz, hne⟩ := strlen_eq_some.1 hn
    refine ⟨rfl, ⟨fun i hi => by simp, by simpa using hz⟩, ?_, by simpa using hlt⟩
    simpa using hne
  · rintro ⟨rfl, hstr, hfree, hlt⟩
    refine ⟨str.length, strlen_of_hasCString hstr hfree hlt, rfl, ?_⟩
    exact List.ext_getElem (by simp) fun i h₁ h₂ => by simpa using hstr.1 i h₂

theorem readStrings_eq_some {m : Bytes} {ps : List Nat} {es : List (Nat × List UInt8)} :
    readStrings m ps = some es ↔ List.Forall₂ (fun p e => readString m p = some e) ps es := by
  induction ps generalizing es with
  | nil => simp [readStrings, eq_comm]
  | cons p ps ih =>
    unfold readStrings
    simp only [Option.bind_eq_some_iff, Option.map_eq_some_iff, ih, List.forall₂_cons_left_iff]
    constructor
    · rintro ⟨e, he, es', hes, rfl⟩
      exact ⟨e, es', he, hes, rfl⟩
    · rintro ⟨e, es', he, hes, rfl⟩
      exact ⟨e, he, es', hes, rfl⟩

theorem readPointers_eq_some {m : Bytes} {a fuel : Nat} {ps : List Nat} :
    readPointers m a fuel = some ps ↔ ps.length < fuel ∧ m.read32 (a + 4 * ps.length) = 0 ∧
      ∀ i p, ps[i]? = some p → m.read32 (a + 4 * i) = p ∧ p ≠ 0 := by
  induction fuel generalizing a ps with
  | zero => simp [readPointers]
  | succ fuel ih =>
    unfold readPointers
    by_cases h0 : m.read32 a = 0
    · rw [if_pos h0]
      constructor
      · rintro h
        obtain rfl := Option.some.inj h
        exact ⟨Nat.succ_pos _, h0, fun i p hp => by cases hp⟩
      · rintro ⟨-, -, hps⟩
        cases ps with
        | nil => rfl
        | cons p ps =>
          obtain ⟨hp, hne⟩ := hps 0 p rfl
          exact absurd (hp ▸ h0) hne
    · rw [if_neg h0, Option.map_eq_some_iff]
      constructor
      · rintro ⟨ps', hps', rfl⟩
        obtain ⟨hlt, hnull, hall⟩ := ih.1 hps'
        refine ⟨Nat.succ_lt_succ hlt, ?_, fun i p hp => ?_⟩
        · rwa [List.length_cons, show a + 4 * (ps'.length + 1) = a + 4 + 4 * ps'.length by omega]
        · cases i with
          | zero =>
            obtain rfl := Option.some.inj hp
            exact ⟨rfl, h0⟩
          | succ i =>
            rw [show a + 4 * (i + 1) = a + 4 + 4 * i by omega]
            exact hall i p hp
      · rintro ⟨hlt, hnull, hall⟩
        cases ps with
        | nil => exact absurd hnull h0
        | cons p ps =>
          obtain ⟨hp, -⟩ := hall 0 p rfl
          refine ⟨ps, ih.2 ⟨Nat.lt_of_succ_lt_succ hlt, ?_, fun i q hq => ?_⟩, ?_⟩
          · rwa [show a + 4 + 4 * ps.length = a + 4 * (ps.length + 1) by omega]
          · rw [show a + 4 + 4 * i = a + 4 * (i + 1) by omega]
            exact hall (i + 1) q hq
          · exact congrArg (· :: ps) hp

theorem readAuxv_eq {m : Bytes} {a fuel v : Nat} {ps : List (Nat × Nat)} (hfuel : ps.length < fuel)
    (hne : ∀ p ∈ ps, p.1 ≠ 0) (h : ∀ i p, (ps ++ [(0, v)])[i]? = some p →
      m.read32 (a + 8 * i) = p.1 ∧ m.read32 (a + 8 * i + 4) = p.2) :
    readAuxv m a fuel = some (ps ++ [(0, v)]) := by
  induction ps generalizing a fuel with
  | nil =>
    obtain ⟨h₁, h₂⟩ := h 0 (0, v) rfl
    cases fuel with
    | zero => exact absurd hfuel (Nat.not_lt_zero _)
    | succ fuel =>
      unfold readAuxv
      rw [if_pos (show m.read32 a = 0 from h₁)]
      exact congrArg (fun w => some [(0, w)]) h₂
  | cons p ps ih =>
    obtain ⟨h₁, h₂⟩ := h 0 p rfl
    cases fuel with
    | zero => exact absurd hfuel (Nat.not_lt_zero _)
    | succ fuel =>
      have hrec := ih (Nat.lt_of_succ_lt_succ hfuel) (fun q hq => hne q (List.mem_cons_of_mem _ hq))
        (a := a + 8) fun i q hq => by
          rw [show a + 8 + 8 * i = a + 8 * (i + 1) by omega]
          exact h (i + 1) q hq
      unfold readAuxv
      rw [if_neg (h₁.symm ▸ hne p List.mem_cons_self), hrec]
      exact congrArg (fun q => some (q :: (ps ++ [(0, v)]))) (Prod.ext h₁ h₂)

/-- The strings of a table with their addresses. -/
def entries (dataAddr : Nat) (table : List (List UInt8)) : List (Nat × List UInt8) :=
  table.mapIdx fun i str => (dataAddr + offset table i, str)

section Entries

variable {m : Bytes} {tableAddr dataAddr : Nat} {table : List (List UInt8)}

theorem entries_map_snd (dataAddr : Nat) (table : List (List UInt8)) :
    (entries dataAddr table).map Prod.snd = table :=
  List.ext_getElem (by simp [entries]) fun i h₁ h₂ => by simp [entries]

theorem length_entries (dataAddr : Nat) (table : List (List UInt8)) :
    (entries dataAddr table).length = table.length := by simp [entries]

theorem mem_entries {e : Nat × List UInt8} (he : e ∈ entries dataAddr table) :
    dataAddr ≤ e.1 ∧ e.1 + (e.2.length + 1) ≤ dataAddr + (TableInfo.make table).bytes := by
  obtain ⟨i, hi, rfl⟩ := List.mem_iff_getElem.1 he
  rw [length_entries] at hi
  have hle := offset_add_le hi
  simp only [entries, List.getElem_mapIdx]
  omega

theorem entries_pairwise (dataAddr : Nat) (table : List (List UInt8)) :
    (entries dataAddr table).Pairwise fun e e' => e.1 + (e.2.length + 1) ≤ e'.1 := by
  rw [List.pairwise_iff_getElem]
  intro i j hi hj hij
  rw [length_entries] at hi hj
  have hle : offset table (i + 1) ≤ offset table j := offset_mono hij
  rw [offset_succ hi] at hle
  simp only [entries, List.getElem_mapIdx]
  omega

theorem Laid.readStrings (h : Laid m tableAddr dataAddr table) (hfree : ∀ str ∈ table, 0 ∉ str)
    (hlt : dataAddr + (TableInfo.make table).bytes ≤ 4294967296) :
    readStrings m ((List.range table.length).map fun i => dataAddr + offset table i) =
      some (entries dataAddr table) := by
  rw [readStrings_eq_some, List.forall₂_iff_get]
  refine ⟨by simp [entries], fun i h₁ h₂ => ?_⟩
  rw [length_entries] at h₂
  have hle := offset_add_le h₂
  simp only [entries, List.get_eq_getElem, List.getElem_map, List.getElem_range,
    List.getElem_mapIdx]
  rw [readString_eq_some]
  exact ⟨rfl, h.hasCString h₂, hfree _ (List.getElem_mem _), by simp only; omega⟩

theorem Table.readPointers (h : Table m tableAddr dataAddr table) (hdata : dataAddr ≠ 0)
    {fuel : Nat} (hfuel : table.length < fuel) :
    readPointers m tableAddr fuel =
      some ((List.range table.length).map fun i => dataAddr + offset table i) := by
  rw [readPointers_eq_some, List.length_map, List.length_range]
  refine ⟨hfuel, h.null, fun i p hp => ?_⟩
  rw [List.getElem?_map, Option.map_eq_some_iff] at hp
  obtain ⟨j, hj, rfl⟩ := hp
  obtain ⟨hi, rfl⟩ := List.getElem?_eq_some_iff.1 hj
  rw [List.length_range] at hi
  rw [List.getElem_range]
  exact ⟨h.words i hi, by omega⟩

end Entries

theorem getElem?_flatMap_pair {ps : List (Nat × Nat)} {i : Nat} {p : Nat × Nat}
    (h : ps[i]? = some p) :
    (ps.flatMap fun p => [p.1, p.2])[2 * i]? = some p.1 ∧
      (ps.flatMap fun p => [p.1, p.2])[2 * i + 1]? = some p.2 := by
  induction ps generalizing i with
  | nil => cases h
  | cons q ps ih =>
    cases i with
    | zero =>
      obtain rfl := Option.some.inj h
      exact ⟨rfl, rfl⟩
    | succ i => exact ih h

/-- The auxiliary table: `AT_PHDR`, `AT_PHENT`, `AT_PHNUM`, `AT_PAGESZ`, `AT_BASE`,
`AT_FLAGS`, `AT_ENTRY` and `AT_NULL`. -/
def auxvPairs (hdr : Header) (base interpBase : Nat) : List (Nat × Nat) :=
  [(3, add32 base hdr.ePhoff), (4, 32), (5, hdr.ePhnum), (6, 4096), (7, interpBase), (8, 0),
    (9, hdr.eEntry), (0, 0)]

section Entered

variable (hdr : Header) {req : Request} (base interpBase : Nat)
  (h : argsBytes req ≤ stackTop) (hwords : ∀ w ∈ auxv hdr base interpBase, w < 4294967296)
  (hargv : ∀ str ∈ req.argv, 0 ∉ str) (henv : ∀ str ∈ req.env, 0 ∉ str)

include h in
theorem readArgc_setupArgs (s : Space) :
    (setupArgs hdr req base interpBase s).1.mem.read32 (newEsp req) = req.argv.length := by
  rw [setupArgs_eq hdr base interpBase h]
  exact (writeRest_spec hdr base interpBase h _).1

include h henv in
theorem readEnv_setupArgs (s : Space) :
    readEnv (setupArgs hdr req base interpBase s).1.mem (newEsp req) =
      some (entries (envData req) req.env) := by
  obtain ⟨hargvAddr, henvAddr, hauxv, hargvData, henvData, htop, -⟩ := addresses h
  have htable := setupArgs_env hdr base interpBase h s
  have hargc := readArgc_setupArgs hdr base interpBase h s
  unfold readEnv
  rw [hargc, show newEsp req + 8 + 4 * req.argv.length = envTable req by omega,
    htable.readPointers (by omega) (by omega), Option.bind_some]
  exact htable.readStrings henv (by omega)

include h hwords in
theorem readAuxv_setupArgs (s : Space) :
    readAuxv (setupArgs hdr req base interpBase s).1.mem (auxvTable req) 1073741824 =
      some (auxvPairs hdr base interpBase) := by
  rw [setupArgs_eq hdr base interpBase h]
  have hword := (writeRest_spec hdr base interpBase h
    (copyStringTable (envData req) (envTable req) req.env s.mem)).2.2
  have hsplit : auxvPairs hdr base interpBase =
      (auxvPairs hdr base interpBase).dropLast ++ [(0, 0)] := rfl
  rw [hsplit]
  refine readAuxv_eq (show 7 < 1073741824 by decide) ?_ ?_
  · simp [auxvPairs]
  intro i p hp
  obtain ⟨h₁, h₂⟩ := getElem?_flatMap_pair (hsplit ▸ hp : (auxvPairs hdr base interpBase)[i]? = _)
  refine ⟨?_, ?_⟩
  · rw [show 8 * i = 4 * (2 * i) by omega]
    exact hword (2 * i) p.1 h₁ (hwords _ (List.mem_of_getElem? h₁))
  · rw [show auxvTable req + 8 * i + 4 = auxvTable req + 4 * (2 * i + 1) by omega]
    exact hword (2 * i + 1) p.2 h₂ (hwords _ (List.mem_of_getElem? h₂))

include h hwords hargv henv in
theorem parseFrame_setupArgs (s : Space) :
    parseFrame (setupArgs hdr req base interpBase s).1.mem (newEsp req) =
      some ⟨req.argv.length, entries (argvData req) req.argv, entries (envData req) req.env,
        auxvPairs hdr base interpBase⟩ := by
  obtain ⟨hargvAddr, henvAddr, hauxv, hargvData, henvData, htop, -⟩ := addresses h
  have henvRead := readEnv_setupArgs hdr base interpBase h henv s
  have hauxvRead := readAuxv_setupArgs hdr base interpBase h hwords s
  have hargc := readArgc_setupArgs hdr base interpBase h s
  have htable : Table (setupArgs hdr req base interpBase s).1.mem (argvTable req) (argvData req)
      req.argv := by
    rw [setupArgs_eq hdr base interpBase h]
    exact (writeRest_spec hdr base interpBase h _).2.1
  have hptrs : (List.range req.argv.length).map (fun i =>
      (setupArgs hdr req base interpBase s).1.mem.read32 (newEsp req + 4 + 4 * i)) =
      (List.range req.argv.length).map fun i => argvData req + offset req.argv i :=
    List.map_congr_left fun i hi => hargvAddr ▸ htable.words i (List.mem_range.1 hi)
  unfold parseFrame
  simp only [hargc]
  rw [← hargvAddr, if_neg (not_not_intro htable.null)]
  rw [← hargvAddr] at hptrs
  rw [hptrs, htable.readStrings hargv (by omega), Option.bind_some, henvRead, Option.bind_some,
    length_entries, show newEsp req + 8 + 4 * req.argv.length + 4 * (req.env.length + 1) =
      auxvTable req by omega, hauxvRead]
  rfl

include h in
theorem regions_pairwise (auxv : List (Nat × Nat)) (hlen : auxv.length = 8) :
    (Frame.regions ⟨req.argv.length, entries (argvData req) req.argv,
      entries (envData req) req.env, auxv⟩ (newEsp req)).Pairwise (fun r r' => r.1 + r.2 ≤ r'.1) ∧
    ∀ r ∈ Frame.regions ⟨req.argv.length, entries (argvData req) req.argv,
      entries (envData req) req.env, auxv⟩ (newEsp req),
      newEsp req ≤ r.1 ∧ r.1 + r.2 ≤ stackTop := by
  obtain ⟨hargvAddr, henvAddr, hauxv, hargvData, henvData, htop, -⟩ := addresses h
  have hstrings : ∀ e ∈ entries (argvData req) req.argv ++ entries (envData req) req.env,
      argvData req ≤ e.1 ∧ e.1 + (e.2.length + 1) ≤ 3221225472 := by
    intro e he
    rcases List.mem_append.1 he with he | he
    · have := mem_entries he
      omega
    · have := mem_entries he
      omega
  have hbelow {n : Nat} (hn : n ≤ argvData req) :
      ∀ r ∈ (entries (argvData req) req.argv ++ entries (envData req) req.env).map
        (fun e => (e.1, e.2.length + 1)), n ≤ r.1 ∧ r.1 + r.2 ≤ 3221225472 := by
    intro r hr
    obtain ⟨e, he, rfl⟩ := List.mem_map.1 hr
    exact ⟨hn.trans (hstrings e he).1, (hstrings e he).2⟩
  unfold Frame.regions stackTop kernelVirtualBase
  simp only [length_entries, hlen, List.pairwise_cons, List.mem_cons, forall_eq_or_imp]
  refine ⟨⟨⟨by omega, by omega, by omega, fun r hr => (hbelow (by omega) r hr).1⟩,
    ⟨by omega, by omega, fun r hr => (hbelow (by omega) r hr).1⟩,
    ⟨by omega, fun r hr => (hbelow (by omega) r hr).1⟩,
    fun r hr => (hbelow (by omega) r hr).1, ?_⟩,
    by omega, by omega, by omega, by omega, hbelow (by omega)⟩
  rw [List.pairwise_map]
  refine List.pairwise_append.2 ⟨entries_pairwise _ _, entries_pairwise _ _, fun e he e' he' => ?_⟩
  have h₁ := mem_entries he
  have h₂ := mem_entries he'
  omega

end Entered

/-- `setup_args` lays the arguments and the environment out as a process expects them on
entry. -/
theorem setupArgs_entry (b : Bytes) (req : Request) (argp envp base interpBase : Nat) (s : Space)
    (hinterp : interpBase < 4294967296) (hsize : argsBytes req < userStackSize)
    (hargv : InMemory.Stored s.mem (InMemory.Outside req) argp req.argv)
    (henv : InMemory.Stored s.mem (InMemory.Outside req) envp req.env) :
    ∃ s' esp f, InMemory.setupArgs (.ofBytes b) argp envp base interpBase s = some (s', esp) ∧
      Entry req (auxvPairs (.ofBytes b) base interpBase) s' esp f := by
  have h : argsBytes req ≤ stackTop := by
    unfold userStackSize at hsize
    unfold stackTop kernelVirtualBase
    omega
  have hwords : ∀ w ∈ auxv (.ofBytes b) base interpBase, w < 4294967296 := by
    have hphnum : b.read16 44 < 4294967296 := Nat.lt_trans (read16_lt b 44) (by decide)
    simp [auxv, Header.ofBytes, pageSize, add32_lt, read32_lt, hphnum, hinterp]
  obtain ⟨-, -, -, -, -, -, -, haligned⟩ := addresses h
  obtain ⟨hpairwise, hinside⟩ := regions_pairwise h (auxvPairs (.ofBytes b) base interpBase) rfl
  have hresult := InMemory.setupArgs_of_stored (.ofBytes b) base interpBase h hargv henv
  refine ⟨(setupArgs (.ofBytes b) req base interpBase s).1, newEsp req, _, ?_,
    { parse := parseFrame_setupArgs (.ofBytes b) base interpBase h hwords hargv.nul_free
        henv.nul_free s
      argc := rfl
      argv := entries_map_snd _ _
      env := entries_map_snd _ _
      auxv := rfl
      apart := hpairwise.imp fun hle => .inl hle
      inside := hinside
      aligned := haligned
      resident := fun x => setupArgs_resident (.ofBytes b) base interpBase h s }⟩
  rw [hresult]
  exact congrArg some (Prod.ext rfl (sub32_newEsp h))

/-- A program with the argument "a" and the environment "b". -/
def oneArgument : Request where
  node := ⟨fun _ => 0, 0⟩
  argv := [[97]]
  env := [[98]]

/-- The two tables at 4096 and 4112, their strings at 8192 and 8208. -/
def oneArgumentSpace : Space where
  resident _ := false
  writable _ := false
  mem := write8 (write8 (write32 (write32 (fun _ => 0) 4096 8192) 4112 8208) 8192 97) 8208 98

theorem stored_singleton {m : Bytes} {P : Nat → Prop} {tbl p : Nat} {c : UInt8}
    (hp : m.read32 tbl = p) (hne : p ≠ 0) (hnull : m.read32 (tbl + 4) = 0) (hc : m p = c)
    (hzero : m (p + 1) = 0) (hfree : c ≠ 0) (htable : ∀ x, tbl ≤ x → x < tbl + 8 → P x)
    (hmem : ∀ x, p ≤ x → x ≤ p + 1 → P x) : InMemory.Stored m P tbl [[c]] := by
  subst hp
  have hfirst {i : Nat} {xs : List UInt8} (hi : i < [xs].length) : i = 0 := Nat.lt_one_iff.1 hi
  refine ⟨hnull, fun i hi => ?_, fun i hi => ?_, by simpa using hfree.symm, htable, fun i hi => ?_⟩
  · obtain rfl := hfirst hi
    exact hne
  · obtain rfl := hfirst hi
    refine ⟨fun j hj => ?_, hzero⟩
    obtain rfl := Nat.lt_one_iff.1 hj
    exact hc
  · obtain rfl := hfirst hi
    exact hmem

theorem outside_oneArgument {x : Nat} (hx : x < 16384) : InMemory.Outside oneArgument x := by
  have hesp : newEsp oneArgument = 3221225376 := by decide
  unfold InMemory.Outside
  omega

theorem setupArgs_entry_oneArgument :
    ∃ s' esp f, InMemory.setupArgs (.ofBytes fun _ => 0) 4096 4112 0 0 oneArgumentSpace =
        some (s', esp) ∧
      Entry oneArgument (auxvPairs (.ofBytes fun _ => 0) 0 0) s' esp f :=
  setupArgs_entry (fun _ => 0) oneArgument 4096 4112 0 0 oneArgumentSpace (by decide) (by decide)
    (stored_singleton (p := 8192) (by decide) (by decide) (by decide) (by decide) (by decide)
      (by decide) (fun x _ hx => outside_oneArgument (by omega)) fun x _ hx =>
        outside_oneArgument (by omega))
    (stored_singleton (p := 8208) (by decide) (by decide) (by decide) (by decide) (by decide)
      (by decide) (fun x _ hx => outside_oneArgument (by omega)) fun x _ hx =>
        outside_oneArgument (by omega))

end Elf

end Ulysses
