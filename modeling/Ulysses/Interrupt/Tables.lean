import Mathlib.Tactic.IntervalCases
import Ulysses.Lib.X86

/-!
# The descriptor tables

`descriptor_tables.cpp` writes the global descriptor table, the interrupt descriptor table and
the task state segment field by field into memory; the processor reads them back by its own
format, and marks in a descriptor that it has been loaded. The two agree on every field except the
limit of the task state segment, which `write_tss` computes from the wrong end (`tables_decode`).
-/

namespace Ulysses

open Lib Lib.Bytes Lib.X86

namespace Interrupt

/-- `idt_set_gate`, with `idt_entries` at `idt`. -/
def idtSetGate (idt : Nat) (num : UInt8) (base : UInt32) (sel : UInt16) (flags : UInt8)
    (m : Bytes) : Bytes :=
  let a := idt + 8 * num.toNat
  let m := m.write16 a (base.toNat % 65536)
  let m := m.write16 (a + 6) (base.toNat / 65536 % 65536)
  let m := m.write16 (a + 2) sel.toNat
  let m := m.write8 (a + 4) 0
  m.write8 (a + 5) (flags ||| 0x60)

/-- The vectors `init_idt` sets a gate for. -/
def idtVectors : List UInt8 := (List.range 48).map UInt8.ofNat ++ [128]

/-- The gates of `init_idt`, for stubs at the addresses `stub`. -/
def initIdt (idt : Nat) (stub : UInt8 → UInt32) (m : Bytes) : Bytes :=
  idtVectors.foldl (fun m v => idtSetGate idt v (stub v) 0x08 0x8E m) (m.fill idt 2048 fun _ => 0)

/-- `gdt_set_gate`, with `gdt_entries` at `gdt`. -/
def gdtSetGate (gdt num : Nat) (base limit : UInt32) (access gran : UInt8) (m : Bytes) : Bytes :=
  let a := gdt + 8 * num
  let m := m.write16 (a + 2) (base.toNat % 65536)
  let m := m.write8 (a + 4) (UInt8.ofNat (base.toNat / 65536))
  let m := m.write8 (a + 7) (UInt8.ofNat (base.toNat / 16777216))
  let m := m.write16 a (limit.toNat % 65536)
  let m := m.write8 (a + 6) (UInt8.ofNat (limit.toNat / 65536 % 16))
  let m := m.write8 (a + 6) (m (a + 6) ||| (gran &&& 0xF0))
  m.write8 (a + 5) access

/-- `write_tss`, with `tss_entry` at `tss`. -/
def writeTss (gdt num tss : Nat) (ss0 : UInt16) (esp0 : UInt32) (m : Bytes) : Bytes :=
  let m := gdtSetGate gdt num (UInt32.ofNat tss) (UInt32.ofNat (tss + 104)) 0xE9 0x00 m
  let m := m.fill tss 104 fun _ => 0
  let m := m.write32 (tss + 8) ss0.toNat
  let m := m.write32 (tss + 4) esp0.toNat
  let m := m.write32 (tss + 76) 0x0b
  -- `gs`, `fs`, `es`, `ds` and `ss`, from the inside of the assignment out
  [92, 88, 72, 84, 80].foldl (fun m off => m.write32 (tss + off) 0x13) m

/-- What the processor does to the access byte of a descriptor that it loads: a segment has been
accessed, a task state segment is busy. -/
def markLoaded (gdt num : Nat) (m : Bytes) : Bytes :=
  let a := gdt + 8 * num + 5
  if m a &&& 0x80 = 0 then m else m.write8 a (m a ||| if m a &&& 0x10 = 0 then 2 else 1)

/-- `gdt_flush`: `ds`, `es`, `gs` and `ss`, then `fs`, then `cs`. -/
def gdtFlush (gdt : Nat) (m : Bytes) : Bytes :=
  [2, 2, 2, 2, 7, 1].foldl (fun m num => markLoaded gdt num m) m

/-- `tss_flush`. -/
def tssFlush (gdt : Nat) (m : Bytes) : Bytes := markLoaded gdt 6 m

/-- `init_gdt`. -/
def initGdt (gdt tss : Nat) (m : Bytes) : Bytes :=
  let m := gdtSetGate gdt 0 0 0 0 0 m
  let m := gdtSetGate gdt 1 0 0xFFFFFFFF 0x9A 0xCF m
  let m := gdtSetGate gdt 2 0 0xFFFFFFFF 0x92 0xCF m
  let m := gdtSetGate gdt 3 0 0xFFFFFFFF 0xFA 0xCF m
  let m := gdtSetGate gdt 4 0 0xFFFFFFFF 0xF2 0xCF m
  let m := gdtSetGate gdt 5 0 0 0xF2 0xCF m
  let m := writeTss gdt 6 tss 0x10 0x0 m
  let m := gdtSetGate gdt 7 0 0 0x92 0xCF m
  tssFlush gdt (gdtFlush gdt m)

/-- `set_kernel_stack`. -/
def setKernelStack (tss : Nat) (stack : UInt32) (m : Bytes) : Bytes :=
  m.write32 (tss + 4) stack.toNat

/-- `set_fs`. -/
def setFs (gdt : Nat) (base limit : UInt32) (m : Bytes) : Bytes :=
  gdtSetGate gdt 7 base limit 0xF2 0xCF m

/-- `set_gs`. -/
def setGs (gdt : Nat) (base limit : UInt32) (m : Bytes) : Bytes :=
  gdtSetGate gdt 5 base limit 0xF2 0xCF m

/-! ## What the processor reads -/

/-- An access byte without the mark. -/
def unmarked (access : UInt8) : UInt8 := access &&& if access &&& 0x10 = 0 then 0xFD else 0xFE

/-- A segment descriptor as the processor takes it apart, with the access byte unmarked;
`granular` counts the limit in pages. -/
structure Descriptor where
  base : UInt32
  limit : Nat
  access : UInt8
  granular : Bool
  deriving DecidableEq

def descriptorAt (m : Bytes) (gdt num : Nat) : Descriptor :=
  let a := gdt + 8 * num
  { base := UInt32.ofNat
      (m.read16 (a + 2) + 65536 * (m (a + 4)).toNat + 16777216 * (m (a + 7)).toNat)
    limit := m.read16 a + 65536 * ((m (a + 6)).toNat % 16)
    access := unmarked (m (a + 5))
    granular := 128 ≤ (m (a + 6)).toNat }

section

variable {m m' : Bytes}

theorem idtSetGate_off (idt : Nat) (num : UInt8) (base : UInt32) (sel : UInt16) (flags : UInt8)
    (m : Bytes) :
    AgreeOff (idt + 8 * num.toNat) (idt + 8 * num.toNat + 8) m
      (idtSetGate idt num base sel flags m) := by
  unfold idtSetGate
  refine ((((AgreeOff.refl _ _ m).write16 _ ?_ ?_).write16 _ ?_ ?_).write16 _ ?_ ?_).write8 _ ?_ ?_
    |>.write8 _ ?_ ?_ <;> omega

theorem gateAt_idtSetGate (idt : UInt32) (num : UInt8) (base : UInt32) (sel : UInt16)
    (flags : UInt8) (m : Bytes) :
    gateAt (idtSetGate idt.toNat num base sel flags m) idt num = ⟨base, sel, flags ||| 0x60⟩ := by
  unfold gateAt idtSetGate read16 write16
  generalize idt.toNat + 8 * num.toNat = a
  have hbase := base.toNat_lt
  have hsel := sel.toNat_lt
  -- each byte is read past the bytes written after it
  simp (disch := omega) only [write8_same, write8_ne, UInt8.toNat_ofNat', Gate.mk.injEq, and_true]
  constructor
  · have hoffset : base.toNat % 65536 % 2 ^ 8 + 256 * (base.toNat % 65536 / 256 % 2 ^ 8) +
        65536 * (base.toNat / 65536 % 65536 % 2 ^ 8 +
          256 * (base.toNat / 65536 % 65536 / 256 % 2 ^ 8)) = base.toNat := by omega
    rw [hoffset, UInt32.ofNat_toNat]
  · have hselector : sel.toNat % 2 ^ 8 + 256 * (sel.toNat / 256 % 2 ^ 8) = sel.toNat := by omega
    rw [hselector, UInt16.ofNat_toNat]

theorem gateAt_idtSetGate_ne (idt : UInt32) {num n : UInt8} (hn : n ≠ num) (base : UInt32)
    (sel : UInt16) (flags : UInt8) (m : Bytes) :
    gateAt (idtSetGate idt.toNat num base sel flags m) idt n = gateAt m idt n := by
  have hne : n.toNat ≠ num.toNat := fun h => hn (UInt8.toNat_inj.1 h)
  have hoff := idtSetGate_off idt.toNat num base sel flags m
  unfold gateAt
  dsimp only
  rw [hoff.read16 (by omega), hoff.read16 (by omega), hoff.read16 (by omega), hoff _ (by omega)]

/-- The gates after a row of `idt_set_gate` calls with the same selector and flags. -/
theorem gateAt_foldl (idt : UInt32) (stub : UInt8 → UInt32) (vs : List UInt8) (m : Bytes)
    (v : UInt8) :
    gateAt (vs.foldl (fun m v => idtSetGate idt.toNat v (stub v) 0x08 0x8E m) m) idt v =
      if v ∈ vs then ⟨stub v, 0x08, 0xEE⟩ else gateAt m idt v := by
  induction vs generalizing m with
  | nil => rfl
  | cons w vs ih =>
    rw [List.foldl_cons, ih]
    by_cases hv : v = w
    · subst hv
      rw [gateAt_idtSetGate, if_pos List.mem_cons_self]
      exact ite_self _
    · rw [gateAt_idtSetGate_ne idt hv]
      simp [hv]

/-- The gates that `init_idt` leaves; the others are not present. -/
theorem gateAt_initIdt (idt : UInt32) (stub : UInt8 → UInt32) (m : Bytes) (v : UInt8) :
    gateAt (initIdt idt.toNat stub m) idt v =
      if v ∈ idtVectors then ⟨stub v, 0x08, 0xEE⟩ else ⟨0, 0, 0⟩ := by
  unfold initIdt
  rw [gateAt_foldl]
  congr 1
  have hv := v.toNat_lt
  unfold gateAt read16
  simp (disch := omega) only [fill_in]
  rfl

theorem initIdt_off (idt : Nat) (stub : UInt8 → UInt32) (m : Bytes) :
    AgreeOff idt (idt + 2048) m (initIdt idt stub m) := by
  unfold initIdt
  generalize idtVectors = vs
  have hfill := (AgreeOff.refl idt (idt + 2048) m).fill (fun _ => 0) le_rfl le_rfl
  generalize m.fill idt 2048 (fun _ => 0) = m₁ at hfill ⊢
  induction vs generalizing m₁ with
  | nil => exact hfill
  | cons v vs ih =>
    have hv := v.toNat_lt
    exact ih _ (hfill.trans ((idtSetGate_off idt v _ _ _ m₁).mono (by omega) (by omega)))

theorem gdtSetGate_off (gdt num : Nat) (base limit : UInt32) (access gran : UInt8) (m : Bytes) :
    AgreeOff (gdt + 8 * num) (gdt + 8 * num + 8) m
      (gdtSetGate gdt num base limit access gran m) := by
  unfold gdtSetGate
  refine (((((((AgreeOff.refl _ _ m).write16 _ ?_ ?_).write8 _ ?_ ?_).write8 _ ?_ ?_).write16 _ ?_
    ?_).write8 _ ?_ ?_).write8 _ ?_ ?_).write8 _ ?_ ?_ <;> omega

/-- The granularity byte keeps the flags in its high half and the limit in its low half. -/
theorem granularity (l : Nat) (gran : UInt8) :
    (UInt8.ofNat (l % 16) ||| (gran &&& 0xF0)).toNat = gran.toNat / 16 * 16 + l % 16 := by
  have hl : l % 16 < 2 ^ 4 := Nat.mod_lt _ (by omega)
  have hmask : ∀ g < 256, g &&& 240 = (g / 16) <<< 4 := by decide +kernel
  rw [UInt8.toNat_or, UInt8.toNat_and, UInt8.toNat_ofNat', Nat.mod_eq_of_lt (by omega),
    show (240 : UInt8).toNat = 240 from rfl, hmask _ gran.toNat_lt, Nat.lor_comm,
    ← Nat.shiftLeft_add_eq_or_of_lt hl, Nat.shiftLeft_eq]

/-- The descriptor that was written is the descriptor that is read, with a limit of 20 bits. -/
theorem descriptorAt_gdtSetGate (gdt num : Nat) (base limit : UInt32) (access gran : UInt8)
    (m : Bytes) :
    descriptorAt (gdtSetGate gdt num base limit access gran m) gdt num =
      ⟨base, limit.toNat % 1048576, unmarked access, 128 ≤ gran.toNat⟩ := by
  unfold descriptorAt gdtSetGate read16 write16
  generalize gdt + 8 * num = a
  have hbase := base.toNat_lt
  have hlimit := limit.toNat_lt
  have hgran := gran.toNat_lt
  simp (disch := omega) only [write8_same, write8_ne, UInt8.toNat_ofNat', granularity,
    Descriptor.mk.injEq, true_and]
  refine ⟨?_, by omega, by simp only [decide_eq_decide]; omega⟩
  have hval : base.toNat % 65536 % 2 ^ 8 + 256 * (base.toNat % 65536 / 256 % 2 ^ 8) +
      65536 * (base.toNat / 65536 % 2 ^ 8) + 16777216 * (base.toNat / 16777216 % 2 ^ 8) =
      base.toNat := by omega
  rw [hval, UInt32.ofNat_toNat]

theorem descriptorAt_off {lo hi gdt num : Nat} (h : AgreeOff lo hi m m')
    (hoff : gdt + 8 * num + 8 ≤ lo ∨ hi ≤ gdt + 8 * num) :
    descriptorAt m' gdt num = descriptorAt m gdt num := by
  unfold descriptorAt
  dsimp only
  rw [h.read16 (by omega), h.read16 (by omega), h (gdt + 8 * num + 4) (by omega),
    h (gdt + 8 * num + 5) (by omega), h (gdt + 8 * num + 6) (by omega),
    h (gdt + 8 * num + 7) (by omega)]

theorem markLoaded_off (gdt num : Nat) (m : Bytes) :
    AgreeOff (gdt + 8 * num + 5) (gdt + 8 * num + 6) m (markLoaded gdt num m) := by
  unfold markLoaded
  dsimp only
  split
  · exact AgreeOff.refl _ _ m
  · exact (AgreeOff.refl _ _ m).write8 _ le_rfl (Nat.lt_succ_self _)

theorem unmarked_mark (access : UInt8) :
    unmarked (access ||| if access &&& 0x10 = 0 then 2 else 1) = unmarked access := by
  have hall : ∀ n < 256, unmarked (UInt8.ofNat n ||| if UInt8.ofNat n &&& 0x10 = 0 then 2 else 1) =
      unmarked (UInt8.ofNat n) := by decide +kernel
  rw [← UInt8.ofNat_toNat (x := access)]
  exact hall _ access.toNat_lt

/-- A mark does not show. -/
theorem descriptorAt_markLoaded (gdt num n : Nat) (m : Bytes) :
    descriptorAt (markLoaded gdt num m) gdt n = descriptorAt m gdt n := by
  have hoff := markLoaded_off gdt num m
  by_cases hn : n = num
  · subst hn
    have hmark : unmarked (markLoaded gdt n m (gdt + 8 * n + 5)) =
        unmarked (m (gdt + 8 * n + 5)) := by
      unfold markLoaded
      split
      · rfl
      · rw [write8_same, unmarked_mark]
    unfold descriptorAt
    dsimp only
    rw [hoff.read16 (by omega), hoff.read16 (by omega), hoff (gdt + 8 * n + 4) (by omega), hmark,
      hoff (gdt + 8 * n + 6) (by omega), hoff (gdt + 8 * n + 7) (by omega)]
  · exact descriptorAt_off hoff (by omega)

theorem gateAt_off {lo hi : Nat} {idt : UInt32} (h : AgreeOff lo hi m m')
    (hoff : idt.toNat + 2048 ≤ lo ∨ hi ≤ idt.toNat) (v : UInt8) :
    gateAt m' idt v = gateAt m idt v := by
  have hv := v.toNat_lt
  unfold gateAt
  dsimp only
  rw [h.read16 (by omega), h.read16 (by omega), h.read16 (by omega), h _ (by omega)]

end

/-! ## Runs -/

/-- Where the linker has put the tables: apart from each other. -/
structure Places where
  gdt : UInt32
  idt : UInt32
  tss : UInt32
  gdt_idt : gdt.toNat + 64 ≤ idt.toNat ∨ idt.toNat + 2048 ≤ gdt.toNat
  gdt_tss : gdt.toNat + 64 ≤ tss.toNat ∨ tss.toNat + 104 ≤ gdt.toNat
  idt_tss : idt.toNat + 2048 ≤ tss.toNat ∨ tss.toNat + 104 ≤ idt.toNat

/-- `init_descriptor_tables`, without `idt_flush` and `interrupt::init`, which leave the tables
alone. -/
def initDescriptorTables (P : Places) (stub : UInt8 → UInt32) (m : Bytes) : Bytes :=
  initIdt P.idt.toNat stub (initGdt P.gdt.toNat P.tss.toNat m)

/-- What changes the tables later. -/
inductive TableCall
  /-- The processor loads a descriptor. -/
  | load (num : Fin 8)
  | setKernelStack (stack : UInt32)
  | setFs (base limit : UInt32)
  | setGs (base limit : UInt32)

def TableCall.apply (P : Places) (m : Bytes) : TableCall → Bytes
  | .load num => markLoaded P.gdt.toNat num m
  | .setKernelStack stack => Interrupt.setKernelStack P.tss.toNat stack m
  | .setFs base limit => Interrupt.setFs P.gdt.toNat base limit m
  | .setGs base limit => Interrupt.setGs P.gdt.toNat base limit m

/-- What the tables are for: the kernel stack of the running thread, the per-CPU segment and the
thread segment. -/
structure TableSpec where
  esp0 : UInt32 := 0
  percpu : Descriptor := ⟨0, 0, 0x92, true⟩
  thread : Descriptor := ⟨0, 0, 0xF2, true⟩

def TableSpec.apply (s : TableSpec) : TableCall → TableSpec
  | .load _ => s
  | .setKernelStack stack => { s with esp0 := stack }
  | .setFs base limit => { s with percpu := ⟨base, limit.toNat % 1048576, 0xF2, true⟩ }
  | .setGs base limit => { s with thread := ⟨base, limit.toNat % 1048576, 0xF2, true⟩ }

/-- The eight descriptors. The limit of the task state segment should be 103; it is the low
part of the address behind it. -/
def TableSpec.descriptor (P : Places) (s : TableSpec) : Nat → Descriptor
  | 1 => ⟨0, 0xFFFFF, 0x9A, true⟩
  | 2 => ⟨0, 0xFFFFF, 0x92, true⟩
  | 3 => ⟨0, 0xFFFFF, 0xFA, true⟩
  | 4 => ⟨0, 0xFFFFF, 0xF2, true⟩
  | 5 => s.thread
  | 6 => ⟨P.tss, (P.tss.toNat + 104) % 1048576, 0xE9, false⟩
  | 7 => s.percpu
  | _ => ⟨0, 0, 0, false⟩

/-- The processor reads the tables as they are meant. -/
structure Decodes (P : Places) (stub : UInt8 → UInt32) (s : TableSpec) (m : Bytes) : Prop where
  gate : ∀ v, gateAt m P.idt v = if v ∈ idtVectors then ⟨stub v, 0x08, 0xEE⟩ else ⟨0, 0, 0⟩
  descriptor : ∀ n < 8, descriptorAt m P.gdt.toNat n = s.descriptor P n
  esp0 : m.read32 (P.tss.toNat + 4) = s.esp0.toNat
  ss0 : m.read16 (P.tss.toNat + 8) = 0x10

section

variable {P : Places} {stub : UInt8 → UInt32} {s : TableSpec} {m : Bytes}

theorem descriptorAt_gdtSetGate_ne {gdt num n : Nat} (hn : n ≠ num) (base limit : UInt32)
    (access gran : UInt8) (m : Bytes) :
    descriptorAt (gdtSetGate gdt num base limit access gran m) gdt n = descriptorAt m gdt n :=
  descriptorAt_off (gdtSetGate_off gdt num base limit access gran m) (by omega)

theorem writeTss_off (gdt num tss : Nat) (ss0 : UInt16) (esp0 : UInt32) (m : Bytes) :
    AgreeOff tss (tss + 104)
      (gdtSetGate gdt num (UInt32.ofNat tss) (UInt32.ofNat (tss + 104)) 0xE9 0x00 m)
      (writeTss gdt num tss ss0 esp0 m) := by
  unfold writeTss
  simp only [List.foldl_cons, List.foldl_nil]
  refine ((((((((AgreeOff.refl _ _ _).fill _ ?_ ?_).write32 _ ?_ ?_).write32 _ ?_ ?_).write32 _ ?_
    ?_).write32 _ ?_ ?_).write32 _ ?_ ?_).write32 _ ?_ ?_).write32 _ ?_ ?_ |>.write32 _ ?_ ?_
    <;> omega

/-- The stack segment and the stack pointer of `write_tss` are not overwritten by what follows
them. -/
theorem writeTss_stack (gdt num tss : Nat) (ss0 : UInt16) (esp0 : UInt32) (m : Bytes) :
    (writeTss gdt num tss ss0 esp0 m).read32 (tss + 4) = esp0.toNat ∧
      (writeTss gdt num tss ss0 esp0 m).read32 (tss + 8) = ss0.toNat := by
  have hss0 := ss0.toNat_lt
  unfold writeTss
  simp only [List.foldl_cons, List.foldl_nil]
  refine ⟨?_, ?_⟩
  · simp (disch := omega) only [read32_write32_off]
    exact read32_write32_same _ _ esp0.toNat_lt
  · simp (disch := omega) only [read32_write32_off]
    exact read32_write32_same _ _ (by omega)

theorem descriptorAt_writeTss {gdt num tss n : Nat} (ss0 : UInt16) (esp0 : UInt32) (m : Bytes)
    (hapart : gdt + 64 ≤ tss ∨ tss + 104 ≤ gdt) (hn : n < 8) :
    descriptorAt (writeTss gdt num tss ss0 esp0 m) gdt n =
      descriptorAt (gdtSetGate gdt num (UInt32.ofNat tss) (UInt32.ofNat (tss + 104)) 0xE9 0x00 m)
        gdt n :=
  descriptorAt_off (writeTss_off gdt num tss ss0 esp0 m) (by omega)

theorem read16_of_read32 {a v : Nat} (h : m.read32 a = v) (hv : v < 65536) : m.read16 a = v := by
  have h0 := (m a).toNat_lt
  have h1 := (m (a + 1)).toNat_lt
  unfold read32 at h
  unfold read16
  omega

theorem Decodes.init (P : Places) (stub : UInt8 → UInt32) (m : Bytes) :
    Decodes P stub {} (initDescriptorTables P stub m) := by
  have hidt := initIdt_off P.idt.toNat stub (initGdt P.gdt.toNat P.tss.toNat m)
  have hgi := P.gdt_idt
  have hgt := P.gdt_tss
  have hit := P.idt_tss
  have hgdt : ∀ n < 8, descriptorAt (initDescriptorTables P stub m) P.gdt.toNat n =
      descriptorAt (initGdt P.gdt.toNat P.tss.toNat m) P.gdt.toNat n := fun n hn =>
    descriptorAt_off hidt (by omega)
  -- the task state segment is written before the last descriptor, the marks and the gates
  have htss : ∀ a, P.tss.toNat ≤ a → a + 4 ≤ P.tss.toNat + 104 → ∀ {v},
      (∀ m, (writeTss P.gdt.toNat 6 P.tss.toNat 0x10 0x0 m).read32 a = v) →
      (initDescriptorTables P stub m).read32 a = v := by
    intro a hlo hhi v hv
    unfold initDescriptorTables
    rw [hidt.read32 (by omega)]
    unfold initGdt tssFlush gdtFlush
    simp only [List.foldl_cons, List.foldl_nil]
    iterate 7 rw [(markLoaded_off _ _ _).read32 (by omega)]
    exact ((gdtSetGate_off P.gdt.toNat 7 0 0 0x92 0xCF _).read32 (by omega)).trans (hv _)
  have hlimit : (UInt32.ofNat (P.tss.toNat + 104)).toNat % 1048576 =
      (P.tss.toNat + 104) % 1048576 := by
    rw [UInt32.toNat_ofNat']
    omega
  refine ⟨gateAt_initIdt P.idt stub _, fun n hn => ?_,
    htss _ (by omega) (by omega) fun m => (writeTss_stack _ _ _ _ _ m).1,
    read16_of_read32 (htss _ (by omega) (by omega) fun m => (writeTss_stack _ _ _ _ _ m).2)
      (by decide)⟩
  rw [hgdt n hn]
  unfold initGdt tssFlush gdtFlush
  simp only [List.foldl_cons, List.foldl_nil, descriptorAt_markLoaded]
  interval_cases n <;>
  · simp (disch := omega) only [descriptorAt_gdtSetGate_ne, descriptorAt_writeTss,
      descriptorAt_gdtSetGate, UInt32.ofNat_toNat, hlimit]
    rfl

theorem Decodes.of_agreeOff (h : Decodes P stub s m) {m' : Bytes} {lo hi : Nat}
    (hoff : AgreeOff lo hi m m') (hgdt : P.gdt.toNat + 64 ≤ lo ∨ hi ≤ P.gdt.toNat)
    (hidt : P.idt.toNat + 2048 ≤ lo ∨ hi ≤ P.idt.toNat)
    (htss : P.tss.toNat + 104 ≤ lo ∨ hi ≤ P.tss.toNat) : Decodes P stub s m' :=
  ⟨fun v => (gateAt_off hoff hidt v).trans (h.gate v),
    fun n hn => (descriptorAt_off hoff (by omega)).trans (h.descriptor n hn),
    (hoff.read32 (by omega)).trans h.esp0, (hoff.read16 (by omega)).trans h.ss0⟩

theorem Decodes.setGate (h : Decodes P stub s m) {s' : TableSpec} (num : Nat) (hnum : num < 8)
    (base limit : UInt32)
    (hnew : s'.descriptor P num = ⟨base, limit.toNat % 1048576, 0xF2, true⟩)
    (hold : ∀ n, n ≠ num → s'.descriptor P n = s.descriptor P n) (hesp0 : s'.esp0 = s.esp0) :
    Decodes P stub s' (gdtSetGate P.gdt.toNat num base limit 0xF2 0xCF m) := by
  have hgi := P.gdt_idt
  have hgt := P.gdt_tss
  have hoff := gdtSetGate_off P.gdt.toNat num base limit 0xF2 0xCF m
  refine ⟨fun v => (gateAt_off hoff (by omega) v).trans (h.gate v), fun n hn => ?_, ?_,
    (hoff.read16 (by omega)).trans h.ss0⟩
  · by_cases hn' : n = num
    · subst hn'
      rw [descriptorAt_gdtSetGate, hnew]
      rfl
    · rw [descriptorAt_gdtSetGate_ne hn', h.descriptor n hn, hold n hn']
  · rw [hoff.read32 (by omega), h.esp0, hesp0]

theorem Decodes.apply (h : Decodes P stub s m) (c : TableCall) :
    Decodes P stub (s.apply c) (c.apply P m) := by
  cases c with
  | load num =>
    have hgi := P.gdt_idt
    have hgt := P.gdt_tss
    have hnum := num.isLt
    have hoff := markLoaded_off P.gdt.toNat num m
    exact ⟨fun v => (gateAt_off hoff (by omega) v).trans (h.gate v),
      fun n hn => (descriptorAt_markLoaded _ _ n m).trans (h.descriptor n hn),
      (hoff.read32 (by omega)).trans h.esp0, (hoff.read16 (by omega)).trans h.ss0⟩
  | setKernelStack stack =>
    have hgt := P.gdt_tss
    have hit := P.idt_tss
    have hoff := (AgreeOff.refl (P.tss.toNat + 4) (P.tss.toNat + 8) m).write32 stack.toNat
      (a := P.tss.toNat + 4) le_rfl le_rfl
    exact ⟨fun v => (gateAt_off hoff (by omega) v).trans (h.gate v),
      fun n hn => (descriptorAt_off hoff (by omega)).trans (h.descriptor n hn),
      read32_write32_same m _ stack.toNat_lt, (hoff.read16 (.inr le_rfl)).trans h.ss0⟩
  | setFs base limit =>
    refine h.setGate 7 (by omega) base limit rfl (fun n hn => ?_) rfl
    unfold TableSpec.descriptor
    split <;> first | rfl | contradiction
  | setGs base limit =>
    refine h.setGate 5 (by omega) base limit rfl (fun n hn => ?_) rfl
    unfold TableSpec.descriptor
    split <;> first | rfl | contradiction

end

end Interrupt

end Ulysses
