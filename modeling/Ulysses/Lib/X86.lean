import Mathlib.Data.UInt
import Mathlib.Logic.Function.Basic
import Mathlib.Logic.Relation
import Ulysses.Lib.Bytes

/-!
# A 32-bit x86 processor

The registers, the stack instructions, and the way the processor enters and leaves interrupt
handlers. Memory is the linear address space with flat segments; the marks that a segment load
leaves in its descriptor are not part of it. An instruction has an address and the address behind
it; how it is encoded is left open.

A value lies on the stack as a word, and `WordsAt` says which words lie from an address on.
`pushAll` is what a row of pushes does, and `CodeAt.runs` runs a row of instructions without
jumps.
-/

namespace Ulysses.Lib

namespace Bytes

/-- The words lie one behind the other from `a` on. -/
def WordsAt (m : Bytes) : Nat → List UInt32 → Prop
  | _, [] => True
  | a, w :: ws => m.read32 a = w.toNat ∧ m.WordsAt (a + 4) ws

theorem wordsAt_append {m : Bytes} {a : Nat} {vs ws : List UInt32} :
    m.WordsAt a (vs ++ ws) ↔ m.WordsAt a vs ∧ m.WordsAt (a + 4 * vs.length) ws := by
  induction vs generalizing a with
  | nil => simp [WordsAt]
  | cons v vs ih =>
    have haddr : a + 4 + 4 * vs.length = a + 4 * (v :: vs).length := by
      rw [List.length_cons]
      omega
    rw [List.cons_append, WordsAt, WordsAt, ih, haddr, and_assoc]

theorem AgreeOff.wordsAt {m m' : Bytes} {lo hi a : Nat} {ws : List UInt32}
    (h : AgreeOff lo hi m m') (ha : hi ≤ a) (hws : m.WordsAt a ws) : m'.WordsAt a ws := by
  induction ws generalizing a with
  | nil => trivial
  | cons w ws ih => exact ⟨(h.read32 (.inr ha)).trans hws.1, ih (by omega) hws.2⟩

end Bytes

namespace X86

open Bytes

inductive Reg
  | eax | ecx | edx | ebx | esp | ebp | esi | edi
  deriving DecidableEq

inductive Seg
  | es | cs | ss | ds | fs | gs
  deriving DecidableEq

/-- The processor and its memory. `gdtr`, `idtr` and `tss` are the addresses of the descriptor
tables and of the task state segment. -/
structure Machine where
  reg : Reg → UInt32
  sel : Seg → UInt16
  eip : UInt32
  eflags : UInt32
  cr3 : UInt32
  gdtr : UInt32
  idtr : UInt32
  tss : UInt32
  mem : Bytes

/-- The interrupt flag. -/
def flagIF : UInt32 := 0x200

/-- The flags that every gate clears: TF, NT, RF and VM. -/
def flagsTrap : UInt32 := 0x34100

/-- A gate of the interrupt descriptor table. -/
structure Gate where
  offset : UInt32
  selector : UInt16
  attr : UInt8
  deriving DecidableEq

namespace Gate

def present (g : Gate) : Bool := 128 ≤ g.attr.toNat

/-- The privilege an `int` instruction needs. -/
def dpl (g : Gate) : Nat := g.attr.toNat / 32 % 4

/-- An interrupt gate clears the interrupt flag, a trap gate keeps it. -/
def masks (g : Gate) : Bool := g.attr.toNat % 16 = 14

end Gate

/-- The privilege level in a segment descriptor. -/
def descriptorDpl (m : Bytes) (gdtr : UInt32) (s : UInt16) : Nat :=
  (m (gdtr.toNat + s.toNat / 8 * 8 + 5)).toNat / 32 % 4

def gateAt (m : Bytes) (idtr : UInt32) (n : UInt8) : Gate :=
  let a := idtr.toNat + 8 * n.toNat
  ⟨UInt32.ofNat (m.read16 a + 65536 * m.read16 (a + 6)), UInt16.ofNat (m.read16 (a + 2)),
    m (a + 5)⟩

namespace Machine

def setReg (r : Reg) (v : UInt32) (m : Machine) : Machine :=
  { m with reg := Function.update m.reg r v }

def setSel (g : Seg) (s : UInt16) (m : Machine) : Machine :=
  { m with sel := Function.update m.sel g s }

def load (a : UInt32) (m : Machine) : UInt32 := UInt32.ofNat (m.mem.read32 a.toNat)

def store (a v : UInt32) (m : Machine) : Machine :=
  { m with mem := m.mem.write32 a.toNat v.toNat }

def push (v : UInt32) (m : Machine) : Machine :=
  (m.setReg .esp (m.reg .esp - 4)).store (m.reg .esp - 4) v

/-- The word on top of the stack. -/
def top (m : Machine) : UInt32 := m.load (m.reg .esp)

/-- The stack without `n` bytes at its top. -/
def drop (n : UInt32) (m : Machine) : Machine := m.setReg .esp (m.reg .esp + n)

/-- The current privilege level. -/
def cpl (m : Machine) : Nat := (m.sel .cs).toNat % 4

end Machine

/-! ## Instructions -/

/-- The status flags of an addition; the other flags stay. -/
def addFlags (a b f : UInt32) : UInt32 :=
  let r := a + b
  let bit (c : Bool) (v : UInt32) : UInt32 := if c then v else 0
  let parity := ((List.range 8).filter fun i => (r.toNat / 2 ^ i) % 2 = 1).length % 2 = 0
  (f &&& 0xFFFFF72A) ||| bit (r < a) 0x1 ||| bit parity 0x4 |||
    bit ((a ^^^ b ^^^ r) &&& 0x10 ≠ 0) 0x10 ||| bit (r = 0) 0x40 ||| bit (0x80000000 ≤ r) 0x80 |||
    bit (0x80000000 ≤ ((a ^^^ r) &&& (b ^^^ r))) 0x800

/-- The instructions that go on to the next one. -/
inductive Op
  /-- A move to the low half of a register. -/
  | movLow (d : Reg) (v : UInt16)
  | movSeg (g : Seg) (s : Reg)
  | pushImm (v : UInt32)
  | pushSeg (g : Seg)
  | popSeg (g : Seg)
  | pusha
  | popa
  | add (d : Reg) (v : UInt32)
  | cli
  | sti

inductive Instr
  | op (o : Op)
  | jmp (target : UInt32)
  | call (target : UInt32)
  | int (n : UInt8)
  | iret

/-- A row of pushes, the head first. -/
def Machine.pushAll (vs : List UInt32) (m : Machine) : Machine := vs.foldl (fun m v => m.push v) m

/-- The registers of `pusha`, in the order they are pushed. -/
def pushaRegs : List Reg := [.eax, .ecx, .edx, .ebx, .esp, .ebp, .esi, .edi]

/-- The word `i` words above the top of the stack. -/
def Machine.slot (i : Nat) (m : Machine) : UInt32 := m.load (m.reg .esp + UInt32.ofNat (4 * i))

def Op.apply (o : Op) (m : Machine) : Machine :=
  match o with
  | .movLow d v => m.setReg d (m.reg d &&& 0xFFFF0000 ||| v.toUInt32)
  | .movSeg g s => m.setSel g (m.reg s).toUInt16
  | .pushImm v => m.push v
  | .pushSeg g => m.push (m.sel g).toUInt32
  | .popSeg g => (m.setSel g m.top.toUInt16).drop 4
  | .pusha => m.pushAll (pushaRegs.map m.reg)
  -- the stack pointer in the row is skipped
  | .popa =>
    (((((((m.setReg .edi (m.slot 0)).setReg .esi (m.slot 1)).setReg .ebp (m.slot 2)).setReg
      .ebx (m.slot 4)).setReg .edx (m.slot 5)).setReg .ecx (m.slot 6)).setReg
      .eax (m.slot 7)).drop 32
  | .add d v => { m.setReg d (m.reg d + v) with eflags := addFlags (m.reg d) v m.eflags }
  | .cli => { m with eflags := m.eflags &&& ~~~ flagIF }
  | .sti => { m with eflags := m.eflags ||| flagIF }

/-- The way through a gate: on a stack of the inner ring when the handler has more privileges,
which the task state segment gives, with the state to go back to pushed on it. -/
def Machine.enter (g : Gate) (err : Option UInt32) (m : Machine) : Machine :=
  let inward := g.selector.toNat % 4 < m.cpl
  let inner :=
    if inward then
      (m.setReg .esp (UInt32.ofNat (m.mem.read32 (m.tss.toNat + 4)))).setSel .ss
        (UInt16.ofNat (m.mem.read16 (m.tss.toNat + 8)))
    else m
  let outer := if inward then [(m.sel .ss).toUInt32, m.reg .esp] else []
  let pushed := inner.pushAll (outer ++ [m.eflags, (m.sel .cs).toUInt32, m.eip] ++ err.toList)
  { pushed.setSel .cs g.selector with
    eip := g.offset
    eflags := m.eflags &&& ~~~ (if g.masks then flagsTrap ||| flagIF else flagsTrap) }

/-- The exceptions for which the processor pushes an error code. -/
def codeExceptions : List UInt8 := [8, 10, 11, 12, 13, 14, 17, 21, 29, 30]

/-- An interrupt or an exception, with the error code the processor pushes for it. -/
def Machine.interrupt (n : UInt8) (err : Option UInt32) (m : Machine) : Option Machine :=
  let g := gateAt m.mem m.idtr n
  if g.present then some (m.enter g err) else none

/-- A data segment that an outer ring may not use is null from then on. -/
def Machine.expelSeg (ring : Nat) (m : Machine) (g : Seg) : Machine :=
  if descriptorDpl m.mem m.gdtr (m.sel g) < ring then m.setSel g 0 else m

def Machine.expel (ring : Nat) (m : Machine) : Machine :=
  [Seg.es, .ds, .fs, .gs].foldl (Machine.expelSeg ring) m

/-- The return from an interrupt; to an outer ring it takes the stack along. -/
def Machine.iret (m : Machine) : Option Machine :=
  let cs := (m.slot 1).toUInt16
  let back := { m.setSel .cs cs with eip := m.slot 0, eflags := m.slot 2 }
  if cs.toNat % 4 = m.cpl then some (back.drop 12)
  else if m.cpl < cs.toNat % 4 then
    some (((back.setReg .esp (m.slot 3)).setSel .ss (m.slot 4).toUInt16).expel (cs.toNat % 4))
  else none

/-- One instruction, with the address of the next one; `none` is a fault. -/
def Instr.exec (i : Instr) (next : UInt32) (m : Machine) : Option Machine :=
  match i with
  | .op o => some { o.apply m with eip := next }
  | .jmp target => some { m with eip := target }
  | .call target => some { m.push next with eip := target }
  | .int n =>
    if m.cpl ≤ (gateAt m.mem m.idtr n).dpl then ({ m with eip := next } : Machine).interrupt n none
    else none
  | .iret => m.iret

/-- The instructions in memory, each with the address behind it. -/
abbrev Code := UInt32 → Option (Instr × UInt32)

def step (code : Code) (m : Machine) : Option Machine :=
  (code m.eip).bind fun c => c.1.exec c.2 m

/-- The machine gets from one state to the other. -/
def Runs (code : Code) : Machine → Machine → Prop :=
  Relation.ReflTransGen fun m m' => step code m = some m'

/-- The instructions lie one behind the other from `a` to `b`. -/
def CodeAt (code : Code) : UInt32 → List Instr → UInt32 → Prop
  | a, [], b => a = b
  | a, i :: is, b => ∃ next, code a = some (i, next) ∧ CodeAt code next is b

/-! ## Running -/

variable {code : Code} {m m' m'' : Machine}

theorem Runs.step (h : X86.step code m = some m') : Runs code m m' := .single h

theorem Runs.trans (h : Runs code m m') (h' : Runs code m' m'') : Runs code m m'' :=
  Relation.ReflTransGen.trans h h'

theorem CodeAt.append {a b : UInt32} {is js : List Instr} (h : CodeAt code a (is ++ js) b) :
    ∃ c, CodeAt code a is c ∧ CodeAt code c js b := by
  induction is generalizing a with
  | nil => exact ⟨a, rfl, h⟩
  | cons i is ih =>
    obtain ⟨next, hi, h⟩ := h
    obtain ⟨c, his, hjs⟩ := ih h
    exact ⟨c, ⟨next, hi, his⟩, hjs⟩

/-- A straight-line instruction does not look at where it is. -/
theorem Op.apply_eip (o : Op) (m : Machine) (e : UInt32) :
    o.apply { m with eip := e } = { o.apply m with eip := e } := by
  cases o <;> rfl

/-- A row of straight-line instructions. -/
def applyAll (os : List Op) (m : Machine) : Machine := os.foldl (fun m o => o.apply m) m

theorem applyAll_append (os os' : List Op) (m : Machine) :
    applyAll (os ++ os') m = applyAll os' (applyAll os m) :=
  List.foldl_append

theorem CodeAt.runs {os : List Op} {a b : UInt32} (h : CodeAt code a (os.map .op) b)
    (m : Machine) :
    Runs code { m with eip := a } { applyAll os m with eip := b } := by
  induction os generalizing a m with
  | nil =>
    obtain rfl : a = b := h
    exact .refl
  | cons o os ih =>
    obtain ⟨next, hi, h⟩ := h
    have hstep : X86.step code { m with eip := a } = some { o.apply m with eip := next } := by
      unfold X86.step
      rw [hi]
      show some { o.apply { m with eip := a } with eip := next } = _
      rw [Op.apply_eip]
    exact (Runs.step hstep).trans (ih h (o.apply m))

theorem Runs.exec {i : Instr} {a next : UInt32} (h : code a = some (i, next))
    (hi : i.exec next { m with eip := a } = some m') : Runs code { m with eip := a } m' := by
  apply Runs.step
  unfold X86.step
  rw [h]
  exact hi

theorem Runs.jmp {a target next : UInt32} (h : code a = some (.jmp target, next)) (m : Machine) :
    Runs code { m with eip := a } { m with eip := target } :=
  Runs.exec h rfl

theorem Runs.call {a target next : UInt32} (h : code a = some (.call target, next)) (m : Machine) :
    Runs code { m with eip := a } { m.push next with eip := target } :=
  Runs.exec h rfl

theorem Runs.iret {a next : UInt32} (h : code a = some (.iret, next)) (hm : m.iret = some m') :
    Runs code { m with eip := a } m' :=
  Runs.exec h hm

/-- Rows of instructions put into memory, row `k` at `256 * k`, an instruction at every
address. -/
def assemble (text : Nat → List Instr) : Code := fun a =>
  (text (a.toNat / 256))[a.toNat % 256]?.map fun i => (i, a + 1)

theorem codeAt_assemble (text : Nat → List Instr) {k : Nat} (hk : k < 16777216)
    (hlen : (text k).length < 256) :
    CodeAt (assemble text) (UInt32.ofNat (256 * k)) (text k)
      (UInt32.ofNat (256 * k + (text k).length)) := by
  suffices h : ∀ is j, (text k).drop j = is → j ≤ (text k).length →
      CodeAt (assemble text) (UInt32.ofNat (256 * k + j)) is
        (UInt32.ofNat (256 * k + (text k).length)) from h (text k) 0 rfl (Nat.zero_le _)
  intro is
  induction is with
  | nil =>
    intro j hj hle
    have hge := List.drop_eq_nil_iff.1 hj
    rw [Nat.le_antisymm hle hge]
    rfl
  | cons i is ih =>
    intro j hj hle
    have hlt : j < (text k).length := by
      by_contra hge
      rw [List.drop_eq_nil_iff.2 (by omega)] at hj
      cases hj
    rw [List.drop_eq_getElem_cons hlt, List.cons.injEq] at hj
    have haddr : (UInt32.ofNat (256 * k + j)).toNat = 256 * k + j :=
      UInt32.toNat_ofNat_of_lt' (by simp only [UInt32.size]; omega)
    refine ⟨UInt32.ofNat (256 * k + (j + 1)), ?_, ih (j + 1) hj.2 hlt⟩
    unfold assemble
    have hrow : (256 * k + j) / 256 = k := by omega
    have hplace : (256 * k + j) % 256 = j := by omega
    rw [haddr, hrow, hplace, List.getElem?_eq_getElem hlt, hj.1, ← Nat.add_assoc,
      UInt32.ofNat_add (256 * k + j) 1]
    rfl

/-! ## The stack -/

/-- The memory after a row of pushes, the head first, from the stack pointer `sp` on. -/
def pushWords (mem : Bytes) (sp : UInt32) : List UInt32 → Bytes
  | [] => mem
  | v :: vs => pushWords (mem.write32 (sp - 4).toNat v.toNat) (sp - 4) vs

theorem toNat_sub_word {sp : UInt32} (h : 4 ≤ sp.toNat) : (sp - 4).toNat = sp.toNat - 4 :=
  UInt32.toNat_sub_of_le sp 4 (UInt32.le_iff_toNat_le.2 h)

theorem toNat_add_ofNat {sp : UInt32} {n : Nat} (h : sp.toNat + n < 4294967296) :
    (sp + UInt32.ofNat n).toNat = sp.toNat + n := by
  rw [UInt32.toNat_add, UInt32.toNat_ofNat']
  omega

/-- The words pushed lie below the old top, the last one lowest, and nothing else is written. -/
theorem pushWords_spec (mem : Bytes) (sp : UInt32) {vs : List UInt32}
    (h : 4 * vs.length ≤ sp.toNat) :
    (pushWords mem sp vs).WordsAt (sp.toNat - 4 * vs.length) vs.reverse ∧
      AgreeOff (sp.toNat - 4 * vs.length) sp.toNat mem (pushWords mem sp vs) := by
  induction vs generalizing mem sp with
  | nil => exact ⟨trivial, AgreeOff.refl _ _ mem⟩
  | cons v vs ih =>
    rw [List.length_cons] at h
    have hsp : (sp - 4).toNat = sp.toNat - 4 := toNat_sub_word (by omega)
    obtain ⟨hwords, hoff⟩ := ih (mem.write32 (sp - 4).toNat v.toNat) (sp - 4) (by omega)
    have hlow : (sp - 4).toNat - 4 * vs.length = sp.toNat - 4 * (v :: vs).length := by
      rw [hsp, List.length_cons]
      omega
    rw [hlow] at hwords hoff
    refine ⟨?_, fun x hx => ?_⟩
    · rw [List.reverse_cons, wordsAt_append, List.length_reverse]
      refine ⟨hwords, ?_, trivial⟩
      -- the first word pushed lies above the others
      have htop : sp.toNat - 4 * (v :: vs).length + 4 * vs.length = (sp - 4).toNat := by
        rw [hsp, List.length_cons]
        omega
      rw [htop]
      have hread : (pushWords (mem.write32 (sp - 4).toNat v.toNat) (sp - 4) vs).read32
          (sp - 4).toNat = (mem.write32 (sp - 4).toNat v.toNat).read32 (sp - 4).toNat :=
        hoff.read32 (.inr le_rfl)
      exact hread.trans (read32_write32_same mem _ v.toNat_lt)
    · refine (hoff x (by omega)).trans (write32_off mem _ ?_)
      rw [List.length_cons] at hx
      omega

theorem sub_words_succ (sp : UInt32) (n : Nat) :
    sp - 4 - UInt32.ofNat (4 * n) = sp - UInt32.ofNat (4 * (n + 1)) := by
  rw [Nat.mul_succ, UInt32.ofNat_add]
  show sp - 4 - UInt32.ofNat (4 * n) = sp - (UInt32.ofNat (4 * n) + 4)
  grind

theorem pushWords_append (mem : Bytes) (sp : UInt32) (vs ws : List UInt32) :
    pushWords mem sp (vs ++ ws) =
      pushWords (pushWords mem sp vs) (sp - UInt32.ofNat (4 * vs.length)) ws := by
  induction vs generalizing mem sp with
  | nil =>
    show pushWords mem sp ws = pushWords mem (sp - 0) ws
    rw [UInt32.sub_zero]
  | cons v vs ih =>
    rw [List.length_cons, ← sub_words_succ]
    exact ih _ _

namespace Machine

@[simp] theorem setReg_same (r : Reg) (v : UInt32) (m : Machine) : (m.setReg r v).reg r = v :=
  Function.update_self ..

theorem setReg_ne {r r' : Reg} (v : UInt32) (m : Machine) (h : r' ≠ r) :
    (m.setReg r v).reg r' = m.reg r' :=
  Function.update_of_ne h ..

theorem setSel_same (g : Seg) (s : UInt16) (m : Machine) : (m.setSel g s).sel g = s :=
  Function.update_self ..

theorem setSel_ne {g g' : Seg} (s : UInt16) (m : Machine) (h : g' ≠ g) :
    (m.setSel g s).sel g' = m.sel g' :=
  Function.update_of_ne h ..

theorem pushAll_eq (vs : List UInt32) (m : Machine) :
    m.pushAll vs = { m with
      mem := pushWords m.mem (m.reg .esp) vs
      reg := Function.update m.reg .esp (m.reg .esp - UInt32.ofNat (4 * vs.length)) } := by
  induction vs generalizing m with
  | nil =>
    have hesp : m.reg .esp - UInt32.ofNat (4 * ([] : List UInt32).length) = m.reg .esp :=
      UInt32.sub_zero _
    rw [hesp, Function.update_eq_self]
    rfl
  | cons v vs ih =>
    have hstep := ih (m.push v)
    unfold pushAll at hstep ⊢
    rw [List.foldl_cons, hstep, List.length_cons, ← sub_words_succ]
    simp [push, setReg, store, pushWords]

theorem pushAll_reg {r : Reg} (hr : r ≠ .esp) (vs : List UInt32) (m : Machine) :
    (m.pushAll vs).reg r = m.reg r := by
  rw [pushAll_eq]
  exact Function.update_of_ne hr ..

theorem pushAll_sel (vs : List UInt32) (m : Machine) : (m.pushAll vs).sel = m.sel := by
  rw [pushAll_eq]

/-- From the stack pointer `sp` on, the words `vs` have been pushed onto the memory `mem`. -/
structure Pushed (mem : Bytes) (sp : UInt32) (vs : List UInt32) (m : Machine) : Prop where
  mem : m.mem = pushWords mem sp vs
  esp : m.reg .esp = sp - UInt32.ofNat (4 * vs.length)

theorem Pushed.nil (m : Machine) : Pushed m.mem (m.reg .esp) [] m := ⟨rfl, (UInt32.sub_zero _).symm⟩

theorem Pushed.pushAll {mem : Bytes} {sp : UInt32} {vs : List UInt32} (h : Pushed mem sp vs m)
    (ws : List UInt32) : Pushed mem sp (vs ++ ws) (m.pushAll ws) := by
  rw [pushAll_eq]
  refine ⟨?_, ?_⟩
  · rw [pushWords_append, ← h.mem, ← h.esp]
  · rw [List.length_append, Nat.mul_add, UInt32.ofNat_add]
    simp only [Function.update_self, h.esp]
    grind

theorem Pushed.push {mem : Bytes} {sp : UInt32} {vs : List UInt32} (h : Pushed mem sp vs m)
    (v : UInt32) : Pushed mem sp (vs ++ [v]) (m.push v) :=
  h.pushAll [v]

/-- The words that have been pushed lie below those that were on the stack. -/
theorem Pushed.wordsAt {mem : Bytes} {sp : UInt32} {vs ws : List UInt32} (h : Pushed mem sp vs m)
    (hroom : 4 * vs.length ≤ sp.toNat) (hws : mem.WordsAt sp.toNat ws) :
    m.mem.WordsAt (m.reg .esp).toNat (vs.reverse ++ ws) ∧
      (m.reg .esp).toNat + 4 * vs.length = sp.toNat ∧
      AgreeOff (m.reg .esp).toNat sp.toNat mem m.mem := by
  have hesp : (m.reg .esp).toNat = sp.toNat - 4 * vs.length := by
    have hlt := sp.toNat_lt
    have hnat : (UInt32.ofNat (4 * vs.length)).toNat = 4 * vs.length :=
      UInt32.toNat_ofNat_of_lt' (by simp only [UInt32.size]; omega)
    rw [h.esp, UInt32.toNat_sub_of_le _ _ (UInt32.le_iff_toNat_le.2 (by rwa [hnat])), hnat]
  obtain ⟨hwords, hoff⟩ := pushWords_spec mem sp hroom
  rw [← h.mem, ← hesp] at hwords hoff
  refine ⟨wordsAt_append.2 ⟨hwords, hoff.wordsAt ?_ ?_⟩, by omega, hoff⟩
  · rw [List.length_reverse]
    omega
  · rwa [List.length_reverse, hesp, Nat.sub_add_cancel hroom]

theorem load_eq {a w : UInt32} {ws : List UInt32} (h : m.mem.WordsAt a.toNat ws)
    (hroom : a.toNat + 4 * ws.length ≤ 4294967296) {i : Nat} (hi : ws[i]? = some w) :
    m.load (a + UInt32.ofNat (4 * i)) = w := by
  obtain ⟨hlt, rfl⟩ := List.getElem?_eq_some_iff.1 hi
  have haddr : (a + UInt32.ofNat (4 * i)).toNat = a.toNat + 4 * i := toNat_add_ofNat (by omega)
  rw [← List.take_append_drop i ws, wordsAt_append, List.length_take_of_le (Nat.le_of_lt hlt),
    List.drop_eq_getElem_cons hlt] at h
  unfold load
  rw [haddr, h.2.1, UInt32.ofNat_toNat]

theorem slot_eq {ws : List UInt32} {w : UInt32} (h : m.mem.WordsAt (m.reg .esp).toNat ws)
    (hroom : (m.reg .esp).toNat + 4 * ws.length < 4294967296) {i : Nat} (hi : ws[i]? = some w) :
    m.slot i = w :=
  load_eq h (Nat.le_of_lt hroom) hi

theorem expelSeg_kept (ring : Nat) (m : Machine) (g : Seg) :
    (m.expelSeg ring g).reg = m.reg ∧ (m.expelSeg ring g).mem = m.mem ∧
      (m.expelSeg ring g).gdtr = m.gdtr ∧ (m.expelSeg ring g).cr3 = m.cr3 ∧
      (m.expelSeg ring g).eip = m.eip ∧ (m.expelSeg ring g).eflags = m.eflags := by
  unfold expelSeg
  split <;> exact ⟨rfl, rfl, rfl, rfl, rfl, rfl⟩

theorem expelSeg_sel (ring : Nat) (m : Machine) (g g' : Seg) :
    (m.expelSeg ring g).sel g' =
      if g' = g ∧ descriptorDpl m.mem m.gdtr (m.sel g') < ring then 0 else m.sel g' := by
  unfold expelSeg
  by_cases hg : g' = g
  · subst hg
    split
    · next hlt => rw [if_pos ⟨rfl, hlt⟩, setSel_same]
    · next hlt => rw [if_neg fun h => hlt h.2]
  · have hkept : (if g' = g ∧ descriptorDpl m.mem m.gdtr (m.sel g') < ring then 0 else m.sel g') =
        m.sel g' := if_neg fun h => hg h.1
    rw [hkept]
    split
    · exact setSel_ne _ m hg
    · rfl

/-- Everything but the data selectors survives the way to an outer ring. -/
theorem expel_spec (ring : Nat) (m : Machine) :
    (m.expel ring).reg = m.reg ∧ (m.expel ring).mem = m.mem ∧ (m.expel ring).cr3 = m.cr3 ∧
      (m.expel ring).eip = m.eip ∧ (m.expel ring).eflags = m.eflags ∧
      (m.expel ring).sel .cs = m.sel .cs ∧ (m.expel ring).sel .ss = m.sel .ss ∧
      ∀ g, g ≠ .cs → g ≠ .ss → (m.expel ring).sel g =
        if descriptorDpl m.mem m.gdtr (m.sel g) < ring then 0 else m.sel g := by
  unfold expel
  simp only [List.foldl_cons, List.foldl_nil, expelSeg_sel, expelSeg_kept, true_and]
  refine ⟨by simp, by simp, fun g hcs hss => ?_⟩
  cases g with
  | cs => exact absurd rfl hcs
  | ss => exact absurd rfl hss
  | _ => simp

/-- What `iret` takes from the stack, in the same ring or to an outer one. -/
structure Back (m m' : Machine) : Prop where
  eip : m'.eip = m.slot 0
  cs : m'.sel .cs = (m.slot 1).toUInt16
  eflags : m'.eflags = m.slot 2
  esp : m'.reg .esp =
    if (m.slot 1).toUInt16.toNat % 4 = m.cpl then m.reg .esp + 12 else m.slot 3
  ss : m'.sel .ss =
    if (m.slot 1).toUInt16.toNat % 4 = m.cpl then m.sel .ss else (m.slot 4).toUInt16
  reg : ∀ r, r ≠ .esp → m'.reg r = m.reg r
  sel : ∀ g, g ≠ .cs → g ≠ .ss → m'.sel g =
    if (m.slot 1).toUInt16.toNat % 4 ≠ m.cpl ∧
      descriptorDpl m.mem m.gdtr (m.sel g) < (m.slot 1).toUInt16.toNat % 4 then 0 else m.sel g
  mem : m'.mem = m.mem
  cr3 : m'.cr3 = m.cr3

theorem iret_back (h : m.cpl ≤ (m.slot 1).toUInt16.toNat % 4) :
    ∃ m', m.iret = some m' ∧ Back m m' := by
  by_cases hring : (m.slot 1).toUInt16.toNat % 4 = m.cpl
  · refine ⟨_, if_pos hring, rfl, rfl, rfl, (if_pos hring).symm, (if_pos hring).symm, ?_, ?_, rfl,
      rfl⟩
    · exact fun r hr => setReg_ne _ _ hr
    · intro g hcs _
      rw [if_neg fun h => h.1 hring]
      exact setSel_ne _ m hcs
  · have hout : m.cpl < (m.slot 1).toUInt16.toNat % 4 := by omega
    obtain ⟨hreg, hmem, hcr3, heip, hflags, hcs, hss, hsel⟩ :=
      expel_spec ((m.slot 1).toUInt16.toNat % 4) ((({ m.setSel .cs (m.slot 1).toUInt16 with
        eip := m.slot 0, eflags := m.slot 2 } : Machine).setReg .esp (m.slot 3)).setSel .ss
        (m.slot 4).toUInt16)
    refine ⟨_, (if_neg hring).trans (if_pos hout), heip, hcs, hflags, ?_, ?_, ?_, ?_, hmem, hcr3⟩
    · rw [hreg, if_neg hring]
      rfl
    · rw [hss, if_neg hring]
      rfl
    · intro r hr
      rw [hreg]
      exact setReg_ne _ _ hr
    · intro g hg hg'
      have hold : ((({ m.setSel .cs (m.slot 1).toUInt16 with
          eip := m.slot 0, eflags := m.slot 2 } : Machine).setReg .esp (m.slot 3)).setSel .ss
          (m.slot 4).toUInt16).sel g = m.sel g :=
        (setSel_ne _ _ hg').trans (setSel_ne _ m hg)
      rw [hsel g hg hg', hold]
      simp only [ne_eq, hring, not_false_eq_true, true_and]
      rfl

end Machine

end X86

end Ulysses.Lib
