import Ulysses.Interrupt.Tables

/-!
# The interrupt stubs

`interrupt.s`: for every vector a stub that pushes the vector, and a zero where the processor
pushes no error code, and two common stubs that save the rest of the machine, call the handler and
restore everything. What lies on the stack when the handler is called is a `Registers` of
`isr.hpp`.

Whatever was interrupted, in either ring, the handler is called with a `Registers` that describes
it; and whatever the handler leaves there is what the machine goes on with (`stub_frames`). The
exception are `int` instructions for the vectors of `ISR_ERRCODE`, which every gate lets a program
execute: they come without an error code, and the frame is one word off.
-/

namespace Ulysses

open Lib Lib.Bytes Lib.X86

namespace Interrupt

/-- `Registers`, in the order of its fields. -/
structure Registers where
  gs : UInt32
  fs : UInt32
  es : UInt32
  ds : UInt32
  edi : UInt32
  esi : UInt32
  ebp : UInt32
  esp : UInt32
  ebx : UInt32
  edx : UInt32
  ecx : UInt32
  eax : UInt32
  intNo : UInt32
  errCode : UInt32
  eip : UInt32
  cs : UInt32
  eflags : UInt32
  useresp : UInt32
  ss : UInt32
  deriving DecidableEq

def Registers.words (r : Registers) : List UInt32 :=
  [r.gs, r.fs, r.es, r.ds, r.edi, r.esi, r.ebp, r.esp, r.ebx, r.edx, r.ecx, r.eax, r.intNo,
    r.errCode, r.eip, r.cs, r.eflags, r.useresp, r.ss]

/-! ## The text of the stubs -/

/-- The addresses of the labels, and of the handlers that `isr.cpp` defines. -/
structure Labels where
  stub : UInt8 → UInt32
  isrCommonStub : UInt32
  irqCommonStub : UInt32
  isrHandler : UInt32
  irqHandler : UInt32

/-- The macro `ISR_NOERRCODE`. -/
def isrNoErrCode (L : Labels) (n : UInt8) : List Instr :=
  [.op .cli, .op (.pushImm 0), .op (.pushImm n.toUInt32), .jmp L.isrCommonStub]

/-- The macro `ISR_ERRCODE`. -/
def isrErrCode (L : Labels) (n : UInt8) : List Instr :=
  [.op .cli, .op (.pushImm n.toUInt32), .jmp L.isrCommonStub]

/-- The macro `IRQ`, for the vector it is remapped to. -/
def irq (L : Labels) (n : UInt8) : List Instr :=
  [.op .cli, .op (.pushImm 0), .op (.pushImm n.toUInt32), .jmp L.irqCommonStub]

/-- The vectors of the uses of `ISR_ERRCODE`. -/
def errCodeVectors : List UInt8 := [8, 10, 11, 12, 13, 14]

/-- The vectors of the uses of `IRQ`. -/
def irqVectors : List UInt8 := (List.range 16).map fun k => UInt8.ofNat (32 + k)

def stubText (L : Labels) (n : UInt8) : List Instr :=
  if n ∈ errCodeVectors then isrErrCode L n
  else if n ∈ irqVectors then irq L n
  else isrNoErrCode L n

/-- The common stubs up to the call. -/
def saveOps : List Op :=
  [.pusha, .pushSeg .ds, .pushSeg .es, .pushSeg .fs, .pushSeg .gs, .movLow .eax 0x10,
    .movSeg .ds .eax, .movSeg .es .eax, .movSeg .gs .eax, .movLow .eax 0x38, .movSeg .fs .eax]

/-- The common stubs from the call to the `iret`. -/
def restoreOps : List Op :=
  [.popSeg .gs, .popSeg .fs, .popSeg .es, .popSeg .ds, .popa, .add .esp 8, .sti]

/-- `isr_common_stub` and `irq_common_stub`, which differ in the handler only. -/
def commonStub (handler : UInt32) : List Instr :=
  saveOps.map .op ++ [.call handler] ++ restoreOps.map .op ++ [.iret]

/-- Where the stub of a vector goes on. -/
def Labels.common (L : Labels) (n : UInt8) : UInt32 :=
  if n ∈ irqVectors then L.irqCommonStub else L.isrCommonStub

/-- The handler that is called for a vector. -/
def Labels.handler (L : Labels) (n : UInt8) : UInt32 :=
  if n ∈ irqVectors then L.irqHandler else L.isrHandler

/-- The text of `interrupt.s` lies at its labels. -/
structure Linked (code : Code) (L : Labels) : Prop where
  stub : ∀ n ∈ idtVectors, ∃ b, CodeAt code (L.stub n) (stubText L n) b
  isrCommon : ∃ b, CodeAt code L.isrCommonStub (commonStub L.isrHandler) b
  irqCommon : ∃ b, CodeAt code L.irqCommonStub (commonStub L.irqHandler) b

/-! ## What the handler gets -/

/-- The stack that the processor uses in ring 0. -/
def kernelTop (m : Machine) : UInt32 :=
  if m.cpl = 0 then m.reg .esp else UInt32.ofNat (m.mem.read32 (m.tss.toNat + 4))

/-- What gets to a stub, with the error code that the processor pushes: an exception, but for
alignment checks, which the kernel does not turn on, and those of later processors; an interrupt
of a device; or an `int` instruction. -/
inductive Raised : UInt8 → Option UInt32 → Prop
  | exception {n : UInt8} {err : Option UInt32} (hn : n.toNat < 32) (hon : n ∉ [17, 21, 29, 30])
      (herr : err.isSome = true ↔ n ∈ codeExceptions) : Raised n err
  | device {n : UInt8} (hn : n ∈ irqVectors) : Raised n none
  | int {n : UInt8} (hn : n ∈ idtVectors) : Raised n none

/-- The words that the stub of a vector pushes. -/
def stubWords (n : UInt8) : List UInt32 :=
  if n ∈ errCodeVectors then [n.toUInt32] else [0, n.toUInt32]

/-- The words that the processor and the stub push for the vector, the first one first. -/
def framePushes (m : Machine) (n : UInt8) (err : Option UInt32) : List UInt32 :=
  let outer := if m.cpl = 0 then [] else [(m.sel .ss).toUInt32, m.reg .esp]
  outer ++ [m.eflags, (m.sel .cs).toUInt32, m.eip] ++ err.toList ++ stubWords n

/-- The interrupted machine as a `Registers`. From ring 0 the processor pushes no stack pointer,
and the last two fields are the words on top of the interrupted stack. -/
def interrupted (m : Machine) (n : UInt8) (err : UInt32) : Registers where
  gs := (m.sel .gs).toUInt32
  fs := (m.sel .fs).toUInt32
  es := (m.sel .es).toUInt32
  ds := (m.sel .ds).toUInt32
  edi := m.reg .edi
  esi := m.reg .esi
  ebp := m.reg .ebp
  esp := kernelTop m - if m.cpl = 0 then 20 else 28
  ebx := m.reg .ebx
  edx := m.reg .edx
  ecx := m.reg .ecx
  eax := m.reg .eax
  intNo := n.toUInt32
  errCode := err
  eip := m.eip
  cs := (m.sel .cs).toUInt32
  eflags := m.eflags
  useresp := if m.cpl = 0 then UInt32.ofNat (m.mem.read32 (m.reg .esp).toNat) else m.reg .esp
  ss := if m.cpl = 0 then UInt32.ofNat (m.mem.read32 ((m.reg .esp).toNat + 4))
    else (m.sel .ss).toUInt32

/-- The frame without an error code, read as if there were one: the fields from `errCode` on hold
the next one's value. -/
def misplaced (m : Machine) (n : UInt8) : Registers :=
  let r := interrupted m n m.eip
  { r with
    esp := r.esp + 4
    eip := r.cs
    cs := r.eflags
    eflags := r.useresp
    useresp := r.ss
    ss := UInt32.ofNat (m.mem.read32 ((kernelTop m).toNat + if m.cpl = 0 then 8 else 0)) }

/-- What the handler gets. -/
def received (m : Machine) (n : UInt8) (err : Option UInt32) : Registers :=
  if err = none ∧ n ∈ errCodeVectors then misplaced m n else interrupted m n (err.getD 0)

/-- On the way to the handler of an interrupt of `m` in ring 0, with the words `vs` pushed. -/
structure Entering (m m₀ : Machine) (vs : List UInt32) : Prop where
  pushed : m₀.Pushed m.mem (kernelTop m) vs
  reg : ∀ r, r ≠ .esp → m₀.reg r = m.reg r
  sel : ∀ g, g ≠ .cs → g ≠ .ss → m₀.sel g = m.sel g
  cs : m₀.sel .cs = 0x08
  masked : m₀.eflags &&& flagIF = 0
  cr3 : m₀.cr3 = m.cr3

theorem and_not_flagIF (f : UInt32) : f &&& ~~~ flagIF &&& flagIF = 0 := by
  have hzero : ~~~ flagIF &&& flagIF = 0 := by decide
  rw [UInt32.and_assoc, hzero, UInt32.and_zero]

theorem Entering.pushAll {m m₀ : Machine} {vs : List UInt32} (h : Entering m m₀ vs)
    (ws : List UInt32) : Entering m (m₀.pushAll ws) (vs ++ ws) := by
  have hsel := Machine.pushAll_sel ws m₀
  refine ⟨h.pushed.pushAll ws, fun r hr => (Machine.pushAll_reg hr _ m₀).trans (h.reg r hr), ?_,
    ?_, ?_, ?_⟩
  · rw [hsel]
    exact h.sel
  · rw [hsel]
    exact h.cs
  · rw [Machine.pushAll_eq]
    exact h.masked
  · rw [Machine.pushAll_eq]
    exact h.cr3

theorem Entering.push {m m₀ : Machine} {vs : List UInt32} (h : Entering m m₀ vs) (v : UInt32) :
    Entering m (m₀.push v) (vs ++ [v]) :=
  h.pushAll [v]

theorem entering_enter (m : Machine) (base : UInt32) (err : Option UInt32) :
    Entering m (m.enter ⟨base, 0x08, 0xEE⟩ err)
      ((if m.cpl = 0 then [] else [(m.sel .ss).toUInt32, m.reg .esp]) ++
        [m.eflags, (m.sel .cs).toUInt32, m.eip] ++ err.toList) := by
  have hinward : ((0x08 : UInt16).toNat % 4 < m.cpl) ↔ ¬ m.cpl = 0 := Nat.pos_iff_ne_zero
  have hmasks : Gate.masks ⟨base, 0x08, 0xEE⟩ = true := by simp [Gate.masks]
  have hflags : m.eflags &&& ~~~ (flagsTrap ||| flagIF) &&& flagIF = 0 := by
    have hzero : ~~~ (flagsTrap ||| flagIF) &&& flagIF = 0 := by decide
    rw [UInt32.and_assoc, hzero, UInt32.and_zero]
  unfold Machine.enter
  simp only [hinward, ite_not, hmasks, if_true]
  -- what the processor does from the inner stack on
  have hpush : ∀ (inner : Machine) (ws : List UInt32), inner.Pushed m.mem (kernelTop m) [] →
      (∀ r, r ≠ .esp → inner.reg r = m.reg r) → (∀ g, g ≠ .ss → inner.sel g = m.sel g) →
      inner.cr3 = m.cr3 →
      Entering m { (inner.pushAll ws).setSel .cs 0x08 with
        eip := base, eflags := m.eflags &&& ~~~ (flagsTrap ||| flagIF) } ws := by
    intro inner ws hpushed hreg hsel hcr3
    have hws := hpushed.pushAll ws
    rw [List.nil_append] at hws
    refine ⟨⟨hws.mem, hws.esp⟩, fun r hr => (Machine.pushAll_reg hr ws inner).trans (hreg r hr),
      fun g hcs hss => ?_, Machine.setSel_same .cs 0x08 (inner.pushAll ws), hflags, ?_⟩
    · rw [← hsel g hss, ← Machine.pushAll_sel ws inner]
      exact Machine.setSel_ne _ _ hcs
    · rw [← hcr3, Machine.pushAll_eq]
      rfl
  split
  · next hring =>
    refine hpush m _ ?_ (fun r _ => rfl) (fun g _ => rfl) rfl
    rw [kernelTop, if_pos hring]
    exact .nil m
  · next hring =>
    refine hpush _ _ ?_ (fun r hr => Machine.setReg_ne _ m hr)
      (fun g hss => Machine.setSel_ne _ (m.setReg .esp _) hss) rfl
    rw [kernelTop, if_neg hring]
    refine ⟨rfl, ?_⟩
    rw [List.length_nil, Nat.mul_zero]
    exact (Machine.setReg_same .esp _ m).trans (UInt32.sub_zero _).symm

theorem Entering.stub {m m₀ : Machine} {vs : List UInt32} (h : Entering m m₀ vs)
    (ws : List UInt32) : Entering m (applyAll (.cli :: ws.map .pushImm) m₀) (vs ++ ws) := by
  have hcli : Entering m (Op.cli.apply m₀) vs :=
    ⟨⟨h.pushed.mem, h.pushed.esp⟩, h.reg, h.sel, h.cs, and_not_flagIF _, h.cr3⟩
  have hpushes := hcli.pushAll ws
  unfold applyAll
  rwa [List.foldl_cons, List.foldl_map]

/-- The words that a common stub pushes, for a stack pointer `sp` at its start. -/
def savedWords (m : Machine) (sp : UInt32) : List UInt32 :=
  [m.reg .eax, m.reg .ecx, m.reg .edx, m.reg .ebx, sp, m.reg .ebp, m.reg .esi, m.reg .edi,
    (m.sel .ds).toUInt32, (m.sel .es).toUInt32, (m.sel .fs).toUInt32, (m.sel .gs).toUInt32]

theorem Entering.pushes {m m₀ : Machine} {vs : List UInt32} (h : Entering m m₀ vs) :
    Entering m (applyAll [.pusha, .pushSeg .ds, .pushSeg .es, .pushSeg .fs, .pushSeg .gs] m₀)
      (vs ++ savedWords m (m₀.reg .esp)) := by
  have hall := h.pushAll (pushaRegs.map m₀.reg)
  have hsegs := (((hall.push (m.sel .ds).toUInt32).push (m.sel .es).toUInt32).push
    (m.sel .fs).toUInt32).push (m.sel .gs).toUInt32
  have hsel : ∀ g, g ≠ .cs → g ≠ .ss → (m₀.pushAll (pushaRegs.map m₀.reg)).sel g = m.sel g :=
    hall.sel
  generalize hm₁ : m₀.pushAll (pushaRegs.map m₀.reg) = m₁ at hsegs hsel
  have happly : applyAll [.pusha, .pushSeg .ds, .pushSeg .es, .pushSeg .fs, .pushSeg .gs] m₀ =
      (((m₁.push (m₁.sel .ds).toUInt32).push (m₁.sel .es).toUInt32).push
        (m₁.sel .fs).toUInt32).push (m₁.sel .gs).toUInt32 := by
    rw [← hm₁]
    rfl
  have hregs : pushaRegs.map m₀.reg = [m.reg .eax, m.reg .ecx, m.reg .edx, m.reg .ebx,
      m₀.reg .esp, m.reg .ebp, m.reg .esi, m.reg .edi] := by
    simp [pushaRegs, h.reg]
  rw [happly, hsel .ds (by decide) (by decide), hsel .es (by decide) (by decide),
    hsel .fs (by decide) (by decide), hsel .gs (by decide) (by decide)]
  rw [hregs] at hsegs
  simp only [List.append_assoc] at hsegs
  exact hsegs

theorem Entering.save {m m₀ : Machine} {vs : List UInt32} (h : Entering m m₀ vs) :
    (applyAll saveOps m₀).Pushed m.mem (kernelTop m) (vs ++ savedWords m (m₀.reg .esp)) ∧
      ((applyAll saveOps m₀).sel .cs = 0x08 ∧ (applyAll saveOps m₀).sel .ds = 0x10 ∧
        (applyAll saveOps m₀).sel .es = 0x10 ∧ (applyAll saveOps m₀).sel .fs = 0x38 ∧
        (applyAll saveOps m₀).sel .gs = 0x10) ∧
      (applyAll saveOps m₀).eflags &&& flagIF = 0 ∧ (applyAll saveOps m₀).cr3 = m.cr3 := by
  have hlow : ∀ (a : UInt32) (v : UInt16), (a &&& 0xFFFF0000 ||| v.toUInt32).toUInt16 = v := by
    intro a v
    rw [UInt32.toUInt16_or, UInt32.toUInt16_and]
    show a.toUInt16 &&& 0 ||| v.toUInt32.toUInt16 = v
    rw [UInt16.and_zero, UInt16.zero_or, UInt16.toUInt16_toUInt32]
  have hpushes := h.pushes
  have hmoves : saveOps = [.pusha, .pushSeg .ds, .pushSeg .es, .pushSeg .fs, .pushSeg .gs] ++
      [.movLow .eax 0x10, .movSeg .ds .eax, .movSeg .es .eax, .movSeg .gs .eax, .movLow .eax 0x38,
        .movSeg .fs .eax] := rfl
  rw [hmoves, applyAll_append]
  generalize applyAll [.pusha, .pushSeg .ds, .pushSeg .es, .pushSeg .fs, .pushSeg .gs] m₀ = m₁
    at hpushes ⊢
  exact ⟨⟨hpushes.pushed.mem, hpushes.pushed.esp⟩,
    ⟨hpushes.cs, hlow _ _, hlow _ _, hlow _ _, hlow _ _⟩, hpushes.masked, hpushes.cr3⟩

/-- The `Registers` are what has been pushed, and the words above it. -/
theorem received_words (m : Machine) {n : UInt8} {err : Option UInt32}
    (herr : err.isSome = true → n ∈ errCodeVectors) :
    ∃ above, m.mem.WordsAt (kernelTop m).toNat above ∧ (received m n err).words =
      (framePushes m n err ++ savedWords m
        (kernelTop m - UInt32.ofNat (4 * (framePushes m n err).length))).reverse ++ above := by
  have hword : ∀ a, m.mem.read32 a = (UInt32.ofNat (m.mem.read32 a)).toNat := fun a =>
    (UInt32.toNat_ofNat_of_lt' (read32_lt _ _)).symm
  have hsub : ∀ a : UInt32, a - 20 + 4 = a - 16 ∧ a - 28 + 4 = a - 24 := by
    intro a
    grind
  by_cases hring : m.cpl = 0
  · have htop : kernelTop m = m.reg .esp := if_pos hring
    by_cases hoff : err = none ∧ n ∈ errCodeVectors
    · refine ⟨[_, _, _], ⟨hword _, hword _, hword _, trivial⟩, ?_⟩
      obtain ⟨rfl, hn⟩ := hoff
      simp [received, misplaced, Registers.words, interrupted, framePushes, stubWords, savedWords,
        hring, hn, htop, hsub]
    · refine ⟨[_, _], ⟨hword _, hword _, trivial⟩, ?_⟩
      cases err with
      | none =>
        have hn : n ∉ errCodeVectors := fun hn => hoff ⟨rfl, hn⟩
        simp [received, Registers.words, interrupted, framePushes, stubWords, savedWords, hring,
          hn, htop]
      | some code =>
        simp [received, Registers.words, interrupted, framePushes, stubWords, savedWords, hring,
          herr rfl, htop]
  · by_cases hoff : err = none ∧ n ∈ errCodeVectors
    · refine ⟨[_], ⟨hword _, trivial⟩, ?_⟩
      obtain ⟨rfl, hn⟩ := hoff
      simp [received, misplaced, Registers.words, interrupted, framePushes, stubWords, savedWords,
        hring, hn, hsub]
    · refine ⟨[], trivial, ?_⟩
      cases err with
      | none =>
        have hn : n ∉ errCodeVectors := fun hn => hoff ⟨rfl, hn⟩
        simp [received, Registers.words, interrupted, framePushes, stubWords, savedWords, hring, hn]
      | some code =>
        simp [received, Registers.words, interrupted, framePushes, stubWords, savedWords, hring,
          herr rfl]

/-- The handler is called, to return to `ret`: in ring 0 with interrupts off, on kernel segments,
with `r` as its argument, and no memory has changed but `size` bytes at the top of the kernel
stack. -/
structure Called (m m₁ : Machine) (r : Registers) (size : Nat) (ret : UInt32) : Prop where
  frame : m₁.mem.WordsAt (m₁.reg .esp).toNat (ret :: r.words)
  esp : (m₁.reg .esp).toNat + size = (kernelTop m).toNat
  off : AgreeOff (m₁.reg .esp).toNat (kernelTop m).toNat m.mem m₁.mem
  segments : m₁.sel .cs = 0x08 ∧ m₁.sel .ds = 0x10 ∧ m₁.sel .es = 0x10 ∧ m₁.sel .fs = 0x38 ∧
    m₁.sel .gs = 0x10
  masked : m₁.eflags &&& flagIF = 0
  cr3 : m₁.cr3 = m.cr3

/-- The handler has returned from the call in `m₁` and has left `r` as its argument. -/
structure Returned (m₁ : Machine) (ret : UInt32) (r : Registers) (m₂ : Machine) : Prop where
  eip : m₂.eip = ret
  esp : m₂.reg .esp = m₁.reg .esp + 4
  cs : m₂.sel .cs = m₁.sel .cs
  frame : m₂.mem.WordsAt (m₂.reg .esp).toNat r.words

/-- A data selector of `r` as the machine has it afterwards: a selector that the ring it goes on
in may not use is null. -/
def Registers.kept (r : Registers) (m₂ : Machine) (v : UInt32) : UInt16 :=
  if r.cs.toUInt16.toNat % 4 ≠ 0 ∧
    descriptorDpl m₂.mem m₂.gdtr v.toUInt16 < r.cs.toUInt16.toNat % 4 then 0 else v.toUInt16

/-- The machine goes on with `r`: in ring 0 on the stack above the words the processor had
pushed, in an outer ring on the stack in `r`. -/
structure Resumed (m₂ : Machine) (r : Registers) (m₃ : Machine) : Prop where
  eip : m₃.eip = r.eip
  eflags : m₃.eflags = r.eflags
  cs : m₃.sel .cs = r.cs.toUInt16
  segments : m₃.sel .ds = r.kept m₂ r.ds ∧ m₃.sel .es = r.kept m₂ r.es ∧
    m₃.sel .fs = r.kept m₂ r.fs ∧ m₃.sel .gs = r.kept m₂ r.gs
  registers : m₃.reg .eax = r.eax ∧ m₃.reg .ecx = r.ecx ∧ m₃.reg .edx = r.edx ∧
    m₃.reg .ebx = r.ebx ∧ m₃.reg .ebp = r.ebp ∧ m₃.reg .esi = r.esi ∧ m₃.reg .edi = r.edi
  stack : if r.cs.toUInt16.toNat % 4 = 0 then m₃.reg .esp = m₂.reg .esp + 68 ∧
      m₃.sel .ss = m₂.sel .ss
    else m₃.reg .esp = r.useresp ∧ m₃.sel .ss = r.ss.toUInt16
  mem : m₃.mem = m₂.mem
  cr3 : m₃.cr3 = m₂.cr3

/-! ## The way in -/

section

variable {code : Code} {L : Labels} {m : Machine} {n : UInt8}

/-- The instructions of a stub before its jump. -/
def stubOps (n : UInt8) : List Op := .cli :: (stubWords n).map .pushImm

theorem stubText_eq (L : Labels) (n : UInt8) :
    stubText L n = (stubOps n).map .op ++ [.jmp (L.common n)] := by
  have hapart : ∀ n ∈ errCodeVectors, n ∉ irqVectors := by decide +kernel
  unfold stubText stubOps stubWords Labels.common
  by_cases herr : n ∈ errCodeVectors
  · simp [herr, hapart n herr, isrErrCode]
  · by_cases hirq : n ∈ irqVectors
    · simp [herr, hirq, irq]
    · simp [herr, hirq, isrNoErrCode]

theorem Raised.mem {err : Option UInt32} (h : Raised n err) : n ∈ idtVectors := by
  cases h with
  | exception hn =>
    refine List.mem_append_left _ (List.mem_map.2 ⟨n.toNat, List.mem_range.2 (by omega), ?_⟩)
    exact UInt8.ofNat_toNat
  | device hn =>
    have hall : ∀ n ∈ irqVectors, n ∈ idtVectors := by decide +kernel
    exact hall n hn
  | int hn => exact hn

/-- An error code comes only where the stub expects one. -/
theorem Raised.expected {err : Option UInt32} (h : Raised n err) (hsome : err.isSome = true) :
    n ∈ errCodeVectors := by
  have hall : ∀ n ∈ codeExceptions, n ∉ [17, 21, 29, 30] → n ∈ errCodeVectors := by
    decide +kernel
  cases h with
  | exception hn hon herr => exact hall n (herr.1 hsome) hon
  | device hn => cases hsome
  | int hn => cases hsome

theorem Linked.common (h : Linked code L) (n : UInt8) :
    ∃ b, CodeAt code (L.common n) (commonStub (L.handler n)) b := by
  unfold Labels.common Labels.handler
  split
  · exact h.irqCommon
  · exact h.isrCommon

theorem Linked.runs_called (hcode : Linked code L) (hn : n ∈ idtVectors) {m₀ : Machine}
    {err : Option UInt32} (herr : err.isSome = true → n ∈ errCodeVectors)
    (henter : Entering m m₀ ((if m.cpl = 0 then [] else [(m.sel .ss).toUInt32, m.reg .esp]) ++
      [m.eflags, (m.sel .cs).toUInt32, m.eip] ++ err.toList))
    (heip : m₀.eip = L.stub n) (hroom : 80 ≤ (kernelTop m).toNat) :
    ∃ m₁ ret b, Runs code m₀ m₁ ∧ m₁.eip = L.handler n ∧
      Called m m₁ (received m n err) (4 * ((framePushes m n err).length + 13)) ret ∧
      CodeAt code ret (restoreOps.map .op ++ [.iret]) b := by
  obtain ⟨b₁, hstub⟩ := hcode.stub n hn
  rw [stubText_eq] at hstub
  obtain ⟨c₁, hops, hjmp⟩ := hstub.append
  obtain ⟨next₁, hjmp, -⟩ := hjmp
  obtain ⟨b₂, hcommon⟩ := hcode.common n
  unfold commonStub at hcommon
  rw [List.append_assoc, List.append_assoc] at hcommon
  obtain ⟨c₂, hsave, hcall⟩ := hcommon.append
  obtain ⟨ret, hcall, hrest⟩ := hcall
  -- the stub of the vector
  have hframe : Entering m _ (framePushes m n err) := henter.stub (stubWords n)
  have hrun₁ := hops.runs m₀
  have hm₀ : { m₀ with eip := L.stub n } = m₀ := by rw [← heip]
  rw [hm₀] at hrun₁
  have hrun₂ := Runs.jmp hjmp (applyAll (stubOps n) m₀)
  unfold stubOps at hrun₁ hrun₂
  generalize applyAll (.cli :: (stubWords n).map .pushImm) m₀ = m₁ at hframe hrun₁ hrun₂
  -- the common stub
  have hrun₃ := hsave.runs m₁
  have hrun₄ := Runs.call hcall (applyAll saveOps m₁)
  obtain ⟨hpushed, hseg, hmasked, hcr3⟩ := hframe.save
  rw [hframe.pushed.esp] at hpushed
  have hpush := hpushed.push ret
  generalize applyAll saveOps m₁ = m₂ at hrun₃ hrun₄ hpush hseg hmasked hcr3
  obtain ⟨above, habove, hreceived⟩ := received_words m herr
  have hlen : (framePushes m n err ++ savedWords m
      (kernelTop m - UInt32.ofNat (4 * (framePushes m n err).length)) ++ [ret]).length =
      (framePushes m n err).length + 13 := by
    simp [savedWords]
  have hfit : (framePushes m n err).length ≤ 7 := by
    unfold framePushes stubWords
    cases err with
    | none => split <;> split <;> simp
    | some code =>
      rw [if_pos (herr rfl)]
      split <;> simp
  obtain ⟨hwords, hesp, hoff⟩ := hpush.wordsAt (by omega) habove
  rw [hlen] at hesp
  rw [List.reverse_append, List.append_assoc, ← hreceived] at hwords
  exact ⟨_, ret, b₂, hrun₁.trans (hrun₂.trans (hrun₃.trans hrun₄)), rfl,
    ⟨hwords, hesp, hoff, hseg, hmasked, hcr3⟩, hrest⟩

/-! ## The way out -/

/-- What the common stub pops, by the place of each word on the stack. -/
structure Restored (m m' : Machine) : Prop where
  segments : m'.sel .gs = (m.slot 0).toUInt16 ∧ m'.sel .fs = (m.slot 1).toUInt16 ∧
    m'.sel .es = (m.slot 2).toUInt16 ∧ m'.sel .ds = (m.slot 3).toUInt16
  registers : m'.reg .edi = m.slot 4 ∧ m'.reg .esi = m.slot 5 ∧ m'.reg .ebp = m.slot 6 ∧
    m'.reg .ebx = m.slot 8 ∧ m'.reg .edx = m.slot 9 ∧ m'.reg .ecx = m.slot 10 ∧
    m'.reg .eax = m.slot 11
  esp : m'.reg .esp = m.reg .esp + 56
  mem : m'.mem = m.mem
  gdtr : m'.gdtr = m.gdtr
  cr3 : m'.cr3 = m.cr3
  cs : m'.sel .cs = m.sel .cs
  ss : m'.sel .ss = m.sel .ss

theorem restored (m : Machine) : Restored m (applyAll restoreOps m) := by
  have hsegs : ∀ k, m.reg .esp + 4 + UInt32.ofNat (4 * k) =
      m.reg .esp + UInt32.ofNat (4 * (1 + k)) := by
    intro k
    rw [Nat.mul_add, UInt32.ofNat_add, UInt32.add_assoc]
    rfl
  have hregs : ∀ k, m.reg .esp + 4 + 4 + 4 + 4 + UInt32.ofNat (4 * k) =
      m.reg .esp + UInt32.ofNat (4 * (4 + k)) := by
    intro k
    rw [Nat.mul_add, UInt32.ofNat_add]
    have hsum : UInt32.ofNat (4 * 4) = 4 + 4 + 4 + 4 := rfl
    rw [hsum]
    grind
  have hesp : m.reg .esp + 4 + 4 + 4 + 4 + 32 + 8 = m.reg .esp + 56 := by grind
  have hslot : ∀ {a b : UInt32}, a = b → (m.load a).toUInt16 = (m.load b).toUInt16 :=
    fun h => congrArg (fun a => (m.load a).toUInt16) h
  have htwo : m.reg .esp + 4 + 4 = m.reg .esp + UInt32.ofNat (4 * 2) := hsegs 1
  have hthree : m.reg .esp + 4 + 4 + 4 = m.reg .esp + UInt32.ofNat (4 * 3) := by
    rw [htwo, UInt32.add_assoc]
    rfl
  exact ⟨⟨hslot (UInt32.add_zero _).symm, rfl, hslot htwo, hslot hthree⟩,
    ⟨congrArg m.load (hregs 0), congrArg m.load (hregs 1), congrArg m.load (hregs 2),
      congrArg m.load (hregs 4), congrArg m.load (hregs 5), congrArg m.load (hregs 6),
      congrArg m.load (hregs 7)⟩, hesp, rfl, rfl, rfl, rfl, rfl⟩

theorem Restored.slot {m m' : Machine} (h : Restored m m') (i : Nat) :
    m'.slot i = m.slot (14 + i) := by
  unfold Machine.slot Machine.load
  rw [h.mem, h.esp, Nat.mul_add, UInt32.ofNat_add, ← UInt32.add_assoc]
  rfl

theorem runs_resumed {ret b : UInt32} (hcode : CodeAt code ret (restoreOps.map .op ++ [.iret]) b)
    {m₂ : Machine} {r : Registers} (heip : m₂.eip = ret) (hcs : m₂.sel .cs = 0x08)
    (hframe : m₂.mem.WordsAt (m₂.reg .esp).toNat r.words)
    (hroom : (m₂.reg .esp).toNat + 4 * 19 < 4294967296) :
    ∃ m₃, Runs code m₂ m₃ ∧ Resumed m₂ r m₃ := by
  obtain ⟨c, hops, hiret⟩ := hcode.append
  obtain ⟨next, hiret, -⟩ := hiret
  have hword : ∀ {i : Nat} {w : UInt32}, r.words[i]? = some w → m₂.slot i = w := fun hi =>
    Machine.slot_eq hframe hroom hi
  have hm₂ : { m₂ with eip := ret } = m₂ := by rw [← heip]
  have hrun := hops.runs m₂
  rw [hm₂] at hrun
  have hback := restored m₂
  generalize applyAll restoreOps m₂ = m at hrun hback
  obtain ⟨hgs, hfs, hes, hds⟩ := hback.segments
  obtain ⟨hedi, hesi, hebp, hebx, hedx, hecx, heax⟩ := hback.registers
  have hcs' : m.slot 1 = r.cs := (hback.slot 1).trans (hword rfl)
  have hcpl : m.cpl = 0 := by
    unfold Machine.cpl
    rw [hback.cs, hcs]
    rfl
  obtain ⟨m₃, hm₃, hiret'⟩ := Machine.iret_back (m := m) (by rw [hcpl]; exact Nat.zero_le _)
  have hesp := hiret'.esp
  have hss := hiret'.ss
  have hreg := hiret'.reg
  have hsel : ∀ g, g ≠ .cs → g ≠ .ss → ∀ {w : UInt32}, m.sel g = w.toUInt16 →
      m₃.sel g = r.kept m₂ w := by
    intro g hgcs hgss w hw
    rw [hiret'.sel g hgcs hgss, hcs', hcpl, hback.mem, hback.gdtr, hw]
    rfl
  rw [hcs', hcpl] at hesp hss
  refine ⟨m₃, hrun.trans (Runs.iret hiret hm₃), ?_, ?_, ?_, ⟨?_, ?_, ?_, ?_⟩,
    ⟨?_, ?_, ?_, ?_, ?_, ?_, ?_⟩, ?_, hiret'.mem.trans hback.mem, hiret'.cr3.trans hback.cr3⟩
  · rw [hiret'.eip, hback.slot, hword rfl]
  · rw [hiret'.eflags, hback.slot, hword rfl]
  · rw [hiret'.cs, hcs']
  · exact hsel .ds (by decide) (by decide) (hds.trans (by rw [hword rfl]))
  · exact hsel .es (by decide) (by decide) (hes.trans (by rw [hword rfl]))
  · exact hsel .fs (by decide) (by decide) (hfs.trans (by rw [hword rfl]))
  · exact hsel .gs (by decide) (by decide) (hgs.trans (by rw [hword rfl]))
  · rw [hreg .eax (by decide), heax, hword rfl]
  · rw [hreg .ecx (by decide), hecx, hword rfl]
  · rw [hreg .edx (by decide), hedx, hword rfl]
  · rw [hreg .ebx (by decide), hebx, hword rfl]
  · rw [hreg .ebp (by decide), hebp, hword rfl]
  · rw [hreg .esi (by decide), hesi, hword rfl]
  · rw [hreg .edi (by decide), hedi, hword rfl]
  · split
    · next hring =>
      rw [if_pos hring] at hesp hss
      rw [hesp, hss, hback.esp, hback.ss, UInt32.add_assoc]
      exact ⟨rfl, rfl⟩
    · next hring =>
      rw [if_neg hring] at hesp hss
      rw [hesp, hss, hback.slot, hback.slot, hword rfl, hword rfl]
      exact ⟨rfl, rfl⟩

end

/-- A kernel that can be interrupted in the state `m`: its tables and its stubs are in place, and
the stack that the interrupt will use has room. -/
structure Prepared (code : Code) (L : Labels) (P : Places) (s : TableSpec) (m : Machine) :
    Prop where
  linked : Linked code L
  tables : Decodes P L.stub s m.mem
  idtr : m.idtr = P.idt
  tss : m.tss = P.tss
  below : 80 ≤ (kernelTop m).toNat
  above : (kernelTop m).toNat + 8 < 4294967296

theorem Prepared.kernelTop_user {code : Code} {L : Labels} {P : Places} {s : TableSpec}
    {m : Machine} (h : Prepared code L P s m) (hring : m.cpl ≠ 0) : kernelTop m = s.esp0 := by
  rw [kernelTop, if_neg hring, h.tss, h.tables.esp0, UInt32.ofNat_toNat]

/-- From the interrupt to the handler, with the code that the handler returns to. -/
theorem Prepared.called {code : Code} {L : Labels} {P : Places} {s : TableSpec} {m : Machine}
    (h : Prepared code L P s m) {n : UInt8} {err : Option UInt32} (hraised : Raised n err) :
    ∃ m₀ m₁ ret b, m.interrupt n err = some m₀ ∧ Runs code m₀ m₁ ∧ m₁.eip = L.handler n ∧
      Called m m₁ (received m n err) (4 * ((framePushes m n err).length + 13)) ret ∧
      CodeAt code ret (restoreOps.map .op ++ [.iret]) b := by
  have hgate : gateAt m.mem m.idtr n = ⟨L.stub n, 0x08, 0xEE⟩ := by
    rw [h.idtr, h.tables.gate, if_pos hraised.mem]
  have hentered : m.interrupt n err = some (m.enter ⟨L.stub n, 0x08, 0xEE⟩ err) := by
    unfold Machine.interrupt
    rw [hgate]
    exact if_pos rfl
  obtain ⟨m₁, ret, b, hrun, heip, hcalled, hback⟩ :=
    h.linked.runs_called hraised.mem hraised.expected (entering_enter m (L.stub n) err) rfl h.below
  exact ⟨_, m₁, ret, b, hentered, hrun, heip, hcalled, hback⟩

/-- The frame lies below the top of the kernel stack, but for two words in ring 0. -/
theorem Called.room {m m₁ m₂ : Machine} {r : Registers} {size : Nat} {ret : UInt32}
    (h : Called m m₁ r size ret) (hsize : 72 ≤ size)
    (habove : (kernelTop m).toNat + 8 < 4294967296) (hesp : m₂.reg .esp = m₁.reg .esp + 4) :
    (m₂.reg .esp).toNat + 4 * 19 < 4294967296 := by
  have htop := h.esp
  have hnext : (m₁.reg .esp + 4).toNat = (m₁.reg .esp).toNat + 4 :=
    toNat_add_ofNat (n := 4) (by omega)
  rw [hesp, hnext]
  omega

/-- Labels for an image with the stubs in the first 256 rows and the common stubs behind them. -/
def imageLabels : Labels where
  stub n := UInt32.ofNat (256 * n.toNat)
  isrCommonStub := UInt32.ofNat (256 * 256)
  irqCommonStub := UInt32.ofNat (256 * 257)
  isrHandler := UInt32.ofNat (256 * 258)
  irqHandler := UInt32.ofNat (256 * 259)

/-- The text of that image, with a program that makes a system call in every other row. -/
def imageText (k : Nat) : List Instr :=
  if k < 256 then stubText imageLabels (UInt8.ofNat k)
  else if k = 256 then commonStub imageLabels.isrHandler
  else if k = 257 then commonStub imageLabels.irqHandler
  else [.int 0x80]

def image : Code := assemble imageText

theorem image_linked : Linked image imageLabels := by
  constructor
  · intro n _
    have hn := n.toNat_lt
    have htext : imageText n.toNat = stubText imageLabels n := by
      rw [imageText, if_pos hn, UInt8.ofNat_toNat]
    have hrow := codeAt_assemble imageText (k := n.toNat) (by omega) (by
      rw [htext, stubText_eq, List.length_append, List.length_map, stubOps, stubWords]
      split <;> simp)
    rw [htext] at hrow
    exact ⟨_, hrow⟩
  · exact ⟨_, codeAt_assemble imageText (k := 256) (by omega) (by decide)⟩
  · exact ⟨_, codeAt_assemble imageText (k := 257) (by omega) (by decide)⟩

/-- Tables below the image's data. -/
def imagePlaces : Places := ⟨0x20000, 0x21000, 0x22000, by decide, by decide, by decide⟩

/-- A user program with the value `v` in its registers, the stack pointer among them, and a kernel
stack that ends at `0x30000`. -/
def userMachine (v : UInt32) : Machine where
  reg _ := v
  sel g := if g = .cs then 0x1b else 0x23
  eip := 0x8048000
  eflags := flagIF
  cr3 := 0
  gdtr := imagePlaces.gdt
  idtr := imagePlaces.idt
  tss := imagePlaces.tss
  mem := setKernelStack imagePlaces.tss.toNat 0x30000
    (initDescriptorTables imagePlaces imageLabels.stub fun _ => 0)

theorem userMachine_tables (v : UInt32) :
    Decodes imagePlaces imageLabels.stub { esp0 := 0x30000 } (userMachine v).mem :=
  (Decodes.init imagePlaces imageLabels.stub fun _ => 0).apply (.setKernelStack 0x30000)

theorem kernelTop_userMachine (v : UInt32) : kernelTop (userMachine v) = 0x30000 := by
  have hring : ¬ (userMachine v).cpl = 0 := by simp [Machine.cpl, userMachine]
  rw [kernelTop, if_neg hring]
  exact (congrArg UInt32.ofNat (userMachine_tables v).esp0).trans rfl

theorem userMachine_prepared (v : UInt32) :
    Prepared image imageLabels imagePlaces { esp0 := 0x30000 } (userMachine v) := by
  have htop := kernelTop_userMachine v
  exact ⟨image_linked, userMachine_tables v, rfl, rfl, by rw [htop]; decide, by rw [htop]; decide⟩

/-- A handler of that kernel may return with any `Registers`, and leaves the tables alone. -/
theorem exists_returned {v next ret : UInt32} {m₁ : Machine} {r : Registers} {size : Nat}
    (h : Called { userMachine v with eip := next } m₁ r size ret) (hsize : size = 80)
    (r' : Registers) :
    ∃ m₂, Returned m₁ ret r' m₂ ∧ m₂.gdtr = imagePlaces.gdt ∧
      Decodes imagePlaces imageLabels.stub { esp0 := 0x30000 } m₂.mem := by
  have htop : (kernelTop { userMachine v with eip := next }).toNat = 0x30000 :=
    congrArg UInt32.toNat (kernelTop_userMachine v)
  have hesp := h.esp
  have hoff := h.off
  rw [htop] at hesp hoff
  have hnext : (m₁.reg .esp + 4).toNat = (m₁.reg .esp).toNat + 4 :=
    toNat_add_ofNat (n := 4) (by omega)
  have hlen : 4 * r'.words.reverse.length = 76 := rfl
  obtain ⟨hwords, hframe⟩ := pushWords_spec m₁.mem 0x30000 (hlen.trans_le (by decide))
  rw [List.reverse_reverse, hlen] at hwords
  rw [hlen] at hframe
  have hsp : (0x30000 : UInt32).toNat - 76 = (m₁.reg .esp + 4).toNat := by
    have hlit : (0x30000 : UInt32).toNat = 0x30000 := rfl
    omega
  have hplaces : imagePlaces.gdt.toNat = 0x20000 ∧ imagePlaces.idt.toNat = 0x21000 ∧
      imagePlaces.tss.toNat = 0x22000 := ⟨rfl, rfl, rfl⟩
  have htables := (userMachine_tables v).of_agreeOff (hoff.trans (hframe.mono (by omega) le_rfl))
    (by omega) (by omega) (by omega)
  refine ⟨{ m₁ with
    eip := ret
    gdtr := imagePlaces.gdt
    mem := pushWords m₁.mem 0x30000 r'.words.reverse
    reg := Function.update m₁.reg .esp (m₁.reg .esp + 4) },
    ⟨rfl, Machine.setReg_same .esp _ m₁, rfl, ?_⟩, rfl, htables⟩
  rw [hsp, ← Machine.setReg_same .esp (m₁.reg .esp + 4) m₁] at hwords
  exact hwords

end Interrupt

end Ulysses
