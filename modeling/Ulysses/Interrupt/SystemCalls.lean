import Ulysses.Interrupt.Stubs
import Ulysses.Syscalls

/-!
# System calls

A program puts the number of a call into `eax` and its arguments into `ebx`, `ecx`, `edx`, `esi`
and `edi`, and executes `int 0x80`. The gate, the stub and `isr_handler` lead to
`SyscallDispatcher::handle`, and the trampoline it finds reads the arguments from the saved
registers and stores the result in the saved `eax`.

Seen from the program the instruction is a function call: the implementation gets the arguments
that the registers held, and nothing else of the program's registers changes than `eax`
(`syscall_roundtrip`). A raw call, which is `exec`, replaces the program
(`exec_enters_user`).
-/

namespace Ulysses

open Lib Lib.Bytes Lib.X86

namespace Interrupt

variable {σ : Type*}

/-- A `Handler`: what it does to the registers it is given and to the rest of the system. -/
abbrev Handler (σ : Type*) := Registers → σ → Registers × σ

/-- `interrupt::handlers`. -/
abbrev Handlers (σ : Type*) := UInt8 → Option (Handler σ)

def registerIsr (n : UInt8) (h : Handler σ) (t : Handlers σ) : Handlers σ :=
  Function.update t n (some h)

/-- `isr_handler`; a vector without a handler stops the machine. -/
def isrHandler (t : Handlers σ) (r : Registers) (st : σ) : Option (Registers × σ) :=
  (t (r.intNo &&& 0xFF).toUInt8).map fun h => h r st

/-- The value of a register by its name in the generated text. -/
def Registers.named (r : Registers) (name : Syscalls.Text) : UInt32 :=
  if name = "ebx".toList then r.ebx
  else if name = "ecx".toList then r.ecx
  else if name = "edx".toList then r.edx
  else if name = "esi".toList then r.esi
  else if name = "edi".toList then r.edi
  else 0

/-- The functions that the `SYSCALL` declarations define. -/
structure Implementations (σ : Type*) where
  call : Syscalls.Text → List UInt32 → σ → UInt32 × σ
  raw : Syscalls.Text → Handler σ

/-- A generated trampoline. -/
def trampoline (I : Implementations σ) (t : Syscalls.Trampoline) : Handler σ := fun r st =>
  match t.args with
  | some regs =>
    let result := I.call t.name (regs.map fun a => r.named a.1) st
    ({ r with eax := result.1 }, result.2)
  | none => I.raw t.name r st

/-- `SyscallDispatcher::handle` over the generated table. -/
def dispatcher (I : Implementations σ) (ds : List Syscalls.Syscall) : Handler σ := fun r st =>
  match (Syscalls.trampolines ds)[r.eax.toNat]? with
  | some t => trampoline I t r st
  | none => (r, st)

/-- `initialise_syscalls`. -/
def initialiseSyscalls (I : Implementations σ) (ds : List Syscalls.Syscall) (t : Handlers σ) :
    Handlers σ :=
  registerIsr 0x80 (dispatcher I ds) t

/-- The registers of a program that `exec` has loaded. -/
def Registers.loaded (r : Registers) (target newEsp : UInt32) : Registers :=
  { r with
    eax := 0
    edx := 0
    eip := target
    ds := 0x23
    ss := 0x23
    cs := 0x1b
    useresp := newEsp }

/-- `exec`, for a loader that gets the path, the arguments and the environment and gives back the
entry of the program and its stack pointer, or fails. -/
def exec (load : UInt32 → UInt32 → UInt32 → σ → Option (UInt32 × UInt32) × σ) : Handler σ :=
  fun r st =>
  match load r.ebx r.ecx r.edx st with
  | (none, st') => ({ r with eax := 0xFFFFFFFF }, st')
  | (some (target, newEsp), st') => (r.loaded target newEsp, st')

/-! ## The dispatcher -/

section

variable {I : Implementations σ} {ds : List Syscalls.Syscall} {d : Syscalls.Syscall}

theorem map_named_argRegs (r : Registers) :
    d.argRegs.map (fun a => r.named a.1) =
      [r.ebx, r.ecx, r.edx, r.esi, r.edi].take d.args.length := by
  have hregs : Syscalls.Syscall.regs.map r.named = [r.ebx, r.ecx, r.edx, r.esi, r.edi] := rfl
  have hlen : ((Syscalls.Syscall.regs.take d.args.length).length) ≤ d.argTypes.length := by
    rw [Syscalls.Syscall.argTypes, List.length_map, List.length_take]
    exact Nat.min_le_left _ _
  have hfst : d.argRegs.map Prod.fst = Syscalls.Syscall.regs.take d.args.length :=
    List.map_fst_zip hlen
  rw [← hregs, ← List.map_take, ← hfst, List.map_map]
  rfl

/-- A call that stands at its own number in the table gets its own trampoline. -/
theorem isrHandler_trampoline (t : Handlers σ) (hplaced : (Syscalls.sorted ds)[d.num]? = some d)
    {r : Registers} (hint : r.intNo = 0x80) (heax : r.eax.toNat = d.num) (st : σ) :
    isrHandler (initialiseSyscalls I ds t) r st =
      some (trampoline I ⟨d.name, d.num, if d.raw then none else some d.argRegs⟩ r st) := by
  have hvector : (r.intNo &&& 0xFF).toUInt8 = 0x80 := by
    rw [hint]
    rfl
  have htramp : (Syscalls.trampolines ds)[r.eax.toNat]? =
      some ⟨d.name, d.num, if d.raw then none else some d.argRegs⟩ := by
    rw [heax, Syscalls.trampolines, List.getElem?_map, hplaced]
    rfl
  unfold isrHandler initialiseSyscalls registerIsr
  rw [hvector, Function.update_self, Option.map_some]
  unfold dispatcher
  simp only [htramp]

theorem isrHandler_syscall (t : Handlers σ) (hplaced : (Syscalls.sorted ds)[d.num]? = some d)
    (hraw : d.raw = false) {r : Registers}
    (hint : r.intNo = 0x80) (heax : r.eax.toNat = d.num) (st : σ) :
    isrHandler (initialiseSyscalls I ds t) r st =
      some ({ r with
        eax := (I.call d.name ([r.ebx, r.ecx, r.edx, r.esi, r.edi].take d.args.length) st).1 },
        (I.call d.name ([r.ebx, r.ecx, r.edx, r.esi, r.edi].take d.args.length) st).2) := by
  rw [isrHandler_trampoline t hplaced hint heax, hraw]
  simp only [trampoline, Bool.false_eq_true, if_false, map_named_argRegs]

theorem isrHandler_raw (t : Handlers σ) (hplaced : (Syscalls.sorted ds)[d.num]? = some d)
    (hraw : d.raw = true) {r : Registers} (hint : r.intNo = 0x80) (heax : r.eax.toNat = d.num)
    (st : σ) : isrHandler (initialiseSyscalls I ds t) r st = some (I.raw d.name r st) := by
  rw [isrHandler_trampoline t hplaced hint heax, hraw]
  rfl

end

/-! ## The program's view -/

section

variable {code : Code} {L : Labels} {P : Places} {s : TableSpec} {m : Machine} {next : UInt32}

theorem Prepared.int_called (h : Prepared code L P s m)
    (hint : code m.eip = some (.int 0x80, next)) :
    ∃ m₁ ret b, Runs code m m₁ ∧ m₁.eip = L.isrHandler ∧
      Called { m with eip := next } m₁ (interrupted { m with eip := next } 0x80 0)
        (if m.cpl = 0 then 72 else 80) ret ∧
      CodeAt code ret (restoreOps.map .op ++ [.iret]) b := by
  have hmem : (0x80 : UInt8) ∈ idtVectors := by decide
  have hdpl : (gateAt m.mem m.idtr 0x80).dpl = 3 := by
    rw [h.idtr, h.tables.gate, if_pos hmem]
    simp [Gate.dpl]
  have hcpl : m.cpl ≤ 3 := Nat.le_of_lt_succ (Nat.mod_lt _ (by omega))
  have hready : Prepared code L P s { m with eip := next } :=
    ⟨h.linked, h.tables, h.idtr, h.tss, h.below, h.above⟩
  obtain ⟨m₀, m₁, ret, b, henter, hrun, heip, hcalled, hback⟩ := hready.called (.int hmem)
  have hreceived : received { m with eip := next } 0x80 none =
      interrupted { m with eip := next } 0x80 0 := if_neg (by decide)
  have hsize : 4 * ((framePushes { m with eip := next } 0x80 none).length + 13) =
      if m.cpl = 0 then 72 else 80 := by
    have hwords : stubWords 0x80 = [0, 0x80] := rfl
    have hcpl' : Machine.cpl { m with eip := next } = m.cpl := rfl
    rw [framePushes, hwords, hcpl']
    split <;> rfl
  rw [hreceived, hsize] at hcalled
  have hstep : X86.step code m = some m₀ := by
    unfold X86.step
    rw [hint]
    exact (if_pos (by rw [hdpl]; exact hcpl)).trans henter
  exact ⟨m₁, ret, b, (Runs.step hstep).trans hrun, heip, hcalled, hback⟩

/-- A data selector the interrupted ring may use comes back as it was. -/
theorem kept_eq {r : Registers} {m₂ : Machine} {v : UInt16} (hcs : r.cs = (m.sel .cs).toUInt32)
    (hv : v = 0 ∨ m.cpl ≤ descriptorDpl m₂.mem m₂.gdtr v) : r.kept m₂ v.toUInt32 = v := by
  unfold Registers.kept
  rw [hcs, UInt16.toUInt16_toUInt32, UInt16.toUInt16_toUInt32]
  split
  · next hout =>
    rcases hv with rfl | hv
    · rfl
    · exact absurd hout.2 (Nat.not_lt.2 hv)
  · rfl

/-- The stack that the program goes on with is the one it had. -/
theorem Resumed.esp_eq {m m₁ m₂ m₃ : Machine} {ret : UInt32} {r r' : Registers}
    (h : Resumed m₂ r m₃) (hcalled : Called m m₁ r' (if m.cpl = 0 then 72 else 80) ret)
    (hesp : m₂.reg .esp = m₁.reg .esp + 4) (hcs : r.cs = (m.sel .cs).toUInt32)
    (huser : m.cpl ≠ 0 → r.useresp = m.reg .esp) : m₃.reg .esp = m.reg .esp := by
  have hstack := h.stack
  rw [hcs, UInt16.toUInt16_toUInt32, ← Machine.cpl] at hstack
  by_cases hring : m.cpl = 0
  · have htop : (m₁.reg .esp).toNat + 72 = (m.reg .esp).toNat := by
      have := hcalled.esp
      rwa [if_pos hring, kernelTop, if_pos hring] at this
    rw [if_pos hring] at hstack
    rw [hstack.1, hesp, UInt32.add_assoc]
    apply UInt32.toNat_inj.1
    rw [← htop]
    exact toNat_add_ofNat (n := 72) (by have := (m.reg .esp).toNat_lt; omega)
  · rw [if_neg hring] at hstack
    exact hstack.1.trans (huser hring)

/-- The program goes on at `next` with the value `v` in `eax`, and otherwise as it was. -/
structure Continued (m : Machine) (next v : UInt32) (m₃ : Machine) : Prop where
  eip : m₃.eip = next
  eax : m₃.reg .eax = v
  reg : ∀ q, q ≠ .eax → m₃.reg q = m.reg q
  sel : ∀ g, g ≠ .ss ∨ m.cpl ≠ 0 → m₃.sel g = m.sel g
  eflags : m₃.eflags = m.eflags

/-- A handler that stores a result in `eax` lets the program go on with it. -/
theorem Prepared.continued (h : Prepared code L P s m) {m₁ m₂ : Machine} {ret b v : UInt32}
    (hcalled : Called { m with eip := next } m₁ (interrupted { m with eip := next } 0x80 0)
      (if m.cpl = 0 then 72 else 80) ret)
    (hback : CodeAt code ret (restoreOps.map .op ++ [.iret]) b)
    (hret : Returned m₁ ret { interrupted { m with eip := next } 0x80 0 with eax := v } m₂)
    (hsegs : ∀ g, g ≠ .cs → m.sel g = 0 ∨ m.cpl ≤ descriptorDpl m₂.mem m₂.gdtr (m.sel g)) :
    ∃ m₃, Runs code m₂ m₃ ∧ Continued m next v m₃ ∧ m₃.mem = m₂.mem := by
  obtain ⟨m₃, hrun, hres⟩ := runs_resumed hback hret.eip (hret.cs.trans hcalled.segments.1)
    hret.frame (hcalled.room (by split <;> decide) h.above hret.esp)
  obtain ⟨hds, hes, hfs, hgs⟩ := hres.segments
  obtain ⟨heax, hecx, hedx, hebx, hebp, hesi, hedi⟩ := hres.registers
  have hesp : m₃.reg .esp = m.reg .esp :=
    hres.esp_eq (m := { m with eip := next }) hcalled hret.esp rfl fun hring => if_neg hring
  refine ⟨m₃, hrun, ⟨hres.eip, heax, fun q hq => ?_, fun g hg => ?_, hres.eflags⟩, hres.mem⟩
  · cases q with
    | eax => exact absurd rfl hq
    | ecx => exact hecx
    | edx => exact hedx
    | ebx => exact hebx
    | ebp => exact hebp
    | esi => exact hesi
    | edi => exact hedi
    | esp => exact hesp
  · cases g with
    | cs => exact hres.cs.trans (UInt16.toUInt16_toUInt32 _)
    | ds => exact hds.trans (kept_eq rfl (hsegs .ds (by decide)))
    | es => exact hes.trans (kept_eq rfl (hsegs .es (by decide)))
    | fs => exact hfs.trans (kept_eq rfl (hsegs .fs (by decide)))
    | gs => exact hgs.trans (kept_eq rfl (hsegs .gs (by decide)))
    | ss =>
      have hring : m.cpl ≠ 0 := hg.resolve_left (absurd rfl)
      have hstack := hres.stack
      rw [interrupted, UInt16.toUInt16_toUInt32] at hstack
      have hss : (interrupted { m with eip := next } 0x80 0).ss = (m.sel .ss).toUInt32 :=
        if_neg hring
      exact ((if_neg hring).mp hstack).2.trans
        ((congrArg UInt32.toUInt16 hss).trans (UInt16.toUInt16_toUInt32 _))

/-- The program at `target` begins in ring 3 with the stack pointer `newEsp`: the segments that it
has none of its own for are ones that it may use. -/
structure Begun (m m₂ : Machine) (target newEsp : UInt32) (m₃ : Machine) : Prop where
  eip : m₃.eip = target
  cs : m₃.sel .cs = 0x1b
  stack : m₃.sel .ss = 0x23 ∧ m₃.reg .esp = newEsp
  ds : m₃.sel .ds = 0x23
  sel : ∀ g, g ≠ .cs → m₃.sel g = 0 ∨ 3 ≤ descriptorDpl m₂.mem m₂.gdtr (m₃.sel g)
  cleared : m₃.reg .eax = 0 ∧ m₃.reg .edx = 0
  reg : ∀ q, q ≠ .eax → q ≠ .edx → q ≠ .esp → m₃.reg q = m.reg q
  eflags : m₃.eflags = m.eflags

theorem Decodes.dpl_user {stub : UInt8 → UInt32} {mem : Bytes} (h : Decodes P stub s mem) :
    descriptorDpl mem P.gdt 0x23 = 3 := by
  have haccess : unmarked (mem (P.gdt.toNat + 8 * 4 + 5)) = 0xF2 :=
    congrArg Descriptor.access (h.descriptor 4 (by omega))
  have hdpl : ∀ n < 256, unmarked (UInt8.ofNat n) = 0xF2 → n / 32 % 4 = 3 := by decide +kernel
  refine hdpl _ (mem (P.gdt.toNat + 8 * 4 + 5)).toNat_lt ?_
  rw [UInt8.ofNat_toNat]
  exact haccess

/-- A selector of a program in ring 3 is null or one that it may use. -/
theorem kept_user {r : Registers} {m₂ : Machine} {v : UInt32} (hcs : r.cs = 0x1b) :
    r.kept m₂ v = 0 ∨ 3 ≤ descriptorDpl m₂.mem m₂.gdtr (r.kept m₂ v) := by
  have hring : r.cs.toUInt16.toNat % 4 = 3 := by
    rw [hcs]
    rfl
  unfold Registers.kept
  rw [hring]
  by_cases hdpl : descriptorDpl m₂.mem m₂.gdtr v.toUInt16 < 3
  · rw [if_pos ⟨by decide, hdpl⟩]
    exact .inl rfl
  · rw [if_neg fun hout => hdpl hout.2]
    exact .inr (Nat.not_lt.1 hdpl)

/-- A handler that has loaded a program lets it begin, whatever ring the call came from. -/
theorem Prepared.begun (h : Prepared code L P s m) {m₁ m₂ : Machine}
    {ret b target newEsp : UInt32}
    (hcalled : Called { m with eip := next } m₁ (interrupted { m with eip := next } 0x80 0)
      (if m.cpl = 0 then 72 else 80) ret)
    (hback : CodeAt code ret (restoreOps.map .op ++ [.iret]) b)
    (hret : Returned m₁ ret ((interrupted { m with eip := next } 0x80 0).loaded target newEsp) m₂)
    (huser : descriptorDpl m₂.mem m₂.gdtr 0x23 = 3) :
    ∃ m₃, Runs code m₂ m₃ ∧ Begun m m₂ target newEsp m₃ ∧ m₃.mem = m₂.mem := by
  obtain ⟨m₃, hrun, hres⟩ := runs_resumed hback hret.eip (hret.cs.trans hcalled.segments.1)
    hret.frame (hcalled.room (by split <;> decide) h.above hret.esp)
  obtain ⟨hds, hes, hfs, hgs⟩ := hres.segments
  obtain ⟨heax, hecx, hedx, hebx, hebp, hesi, hedi⟩ := hres.registers
  have hring : ¬ (0x1b : UInt32).toUInt16.toNat % 4 = 0 := by decide
  have hstack : m₃.reg .esp = newEsp ∧ m₃.sel .ss = 0x23 := (if_neg hring).mp hres.stack
  have hkept : ¬ ((0x1b : UInt32).toUInt16.toNat % 4 ≠ 0 ∧
      descriptorDpl m₂.mem m₂.gdtr (0x23 : UInt32).toUInt16 < (0x1b : UInt32).toUInt16.toNat % 4) :=
    fun hout => absurd hout.2 (Nat.not_lt.2 huser.ge)
  have hds' : m₃.sel .ds = 0x23 := hds.trans (if_neg hkept)
  refine ⟨m₃, hrun, ⟨hres.eip, hres.cs, hstack.symm, hds', fun g hg => ?_, ⟨heax, hedx⟩,
    fun q ha hd hs => ?_, hres.eflags⟩, hres.mem⟩
  · cases g with
    | cs => exact absurd rfl hg
    | ds => exact .inr (by rw [hds', huser])
    | ss => exact .inr (by rw [hstack.2, huser])
    | es =>
      rw [hes]
      exact kept_user rfl
    | fs =>
      rw [hfs]
      exact kept_user rfl
    | gs =>
      rw [hgs]
      exact kept_user rfl
  · cases q with
    | eax => exact absurd rfl ha
    | edx => exact absurd rfl hd
    | esp => exact absurd rfl hs
    | ecx => exact hecx
    | ebx => exact hebx
    | ebp => exact hebp
    | esi => exact hesi
    | edi => exact hedi

end

/-- **A system call is a function call.** For every program, in either ring, that executes
`int 0x80` with the number of a call in `eax`: the implementation of that call gets the first of
`ebx`, `ecx`, `edx`, `esi` and `edi` as its arguments, and once it is done the program goes on
behind the instruction with the result in `eax` and all its other registers, its flags and its
segments as they were. -/
theorem syscall_roundtrip {code : Code} {L : Labels} {P : Places} {s : TableSpec} {m : Machine}
    (h : Prepared code L P s m) {next : UInt32} (hint : code m.eip = some (.int 0x80, next))
    (I : Implementations σ) (ds : List Syscalls.Syscall) {d : Syscalls.Syscall}
    (hplaced : (Syscalls.sorted ds)[d.num]? = some d) (hraw : d.raw = false)
    (heax : (m.reg .eax).toNat = d.num) (t : Handlers σ) (st : σ) :
    ∃ m₁ ret r result, Runs code m m₁ ∧ m₁.eip = L.isrHandler ∧
      Called { m with eip := next } m₁ r (if m.cpl = 0 then 72 else 80) ret ∧
      result = I.call d.name ([m.reg .ebx, m.reg .ecx, m.reg .edx, m.reg .esi, m.reg .edi].take
        d.args.length) st ∧
      isrHandler (initialiseSyscalls I ds t) r st = some ({ r with eax := result.1 }, result.2) ∧
      ∀ m₂, Returned m₁ ret { r with eax := result.1 } m₂ →
        (∀ g, g ≠ .cs → m.sel g = 0 ∨ m.cpl ≤ descriptorDpl m₂.mem m₂.gdtr (m.sel g)) →
        ∃ m₃, Runs code m₂ m₃ ∧ Continued m next result.1 m₃ ∧ m₃.mem = m₂.mem := by
  obtain ⟨m₁, ret, b, hrun, heip, hcalled, hback⟩ := h.int_called hint
  refine ⟨m₁, ret, _, _, hrun, heip, hcalled, rfl,
    isrHandler_syscall t hplaced hraw rfl heax st, ?_⟩
  intro m₂ hret hsegs
  exact h.continued hcalled hback hret hsegs

/-- The first calls of the table, `open` and `exec` with their arguments. -/
def firstCalls : List Syscalls.Syscall :=
  (List.range 18).map fun n =>
    if n = 7 then ⟨7, "open".toList, ["const char* name".toList, "int mode".toList]⟩
    else if n = 17 then ⟨17, "exec".toList, ["Registers* regs".toList]⟩
    else ⟨n, [], []⟩

/-- Calls that count their arguments, and an `exec` that always loads the same program. -/
def countingCalls : Implementations Unit where
  call _ args st := (UInt32.ofNat args.length, st)
  raw _ := exec fun _ _ _ st => (some (0x8048000, 0xBFFFFFF0), st)

theorem userMachine_int (v : UInt32) :
    image (userMachine v).eip = some (.int 0x80, 0x8048001) := by
  have hrow : imageText 0x80480 = [.int 0x80] := rfl
  have hcode := codeAt_assemble imageText (k := 0x80480) (by omega) (by rw [hrow]; decide)
  rw [hrow] at hcode
  obtain ⟨next, hfetch, rfl⟩ := hcode
  exact hfetch

theorem userMachine_segment {v : UInt32} {mem : Bytes} {s : TableSpec}
    (h : Decodes imagePlaces imageLabels.stub s mem) {g : Seg} (hg : g ≠ .cs) :
    (userMachine v).cpl ≤ descriptorDpl mem imagePlaces.gdt ((userMachine v).sel g) := by
  have hsel : (userMachine v).sel g = 0x23 := if_neg hg
  rw [hsel, h.dpl_user]
  exact Nat.le_of_lt_succ (Nat.mod_lt _ (by omega))

/-- The call `open` gets two arguments, and the program goes on with the result. -/
theorem syscall_roundtrip_open : ∃ m₁ ret r m₂ m₃, Runs image (userMachine 7) m₁ ∧
    m₁.eip = imageLabels.isrHandler ∧
    isrHandler (initialiseSyscalls countingCalls firstCalls fun _ => none) r () =
      some ({ r with eax := 2 }, ()) ∧
    Returned m₁ ret { r with eax := 2 } m₂ ∧ Runs image m₂ m₃ ∧
    Continued (userMachine 7) 0x8048001 2 m₃ := by
  obtain ⟨m₁, ret, r, result, hrun, heip, hcalled, rfl, hhandled, hback⟩ :=
    syscall_roundtrip (userMachine_prepared 7) (userMachine_int 7) countingCalls firstCalls
      (d := ⟨7, "open".toList, ["const char* name".toList, "int mode".toList]⟩)
      (by decide +kernel) (by decide) rfl (fun _ => none) ()
  obtain ⟨m₂, hret, hgdtr, htables⟩ := exists_returned hcalled rfl { r with eax := 2 }
  obtain ⟨m₃, hrun', hcontinued, -⟩ := hback m₂ hret fun g hg =>
    .inr (by rw [hgdtr]; exact userMachine_segment htables hg)
  exact ⟨m₁, ret, r, m₂, m₃, hrun, heip, hhandled, hret, hrun', hcontinued⟩

/-- **`exec` replaces the program or leaves it alone.** From either ring: when the loader accepts
the program, the machine goes on in ring 3 at its entry, on its stack, with no segment left that
only the kernel may use; when the loader fails, the caller goes on with `-1`. -/
theorem exec_enters_user {code : Code} {L : Labels} {P : Places} {s : TableSpec} {m : Machine}
    (h : Prepared code L P s m) {next : UInt32} (hint : code m.eip = some (.int 0x80, next))
    (I : Implementations σ) (ds : List Syscalls.Syscall) {d : Syscalls.Syscall}
    (hplaced : (Syscalls.sorted ds)[d.num]? = some d) (hraw : d.raw = true)
    (heax : (m.reg .eax).toNat = d.num)
    (load : UInt32 → UInt32 → UInt32 → σ → Option (UInt32 × UInt32) × σ)
    (hexec : I.raw d.name = exec load) (t : Handlers σ) (st : σ) :
    ∃ m₁ ret r r', Runs code m m₁ ∧ m₁.eip = L.isrHandler ∧
      Called { m with eip := next } m₁ r (if m.cpl = 0 then 72 else 80) ret ∧
      isrHandler (initialiseSyscalls I ds t) r st =
        some (r', (load (m.reg .ebx) (m.reg .ecx) (m.reg .edx) st).2) ∧
      (∀ target newEsp, (load (m.reg .ebx) (m.reg .ecx) (m.reg .edx) st).1 = some (target, newEsp) →
        ∀ m₂ s', Returned m₁ ret r' m₂ → m₂.gdtr = P.gdt → Decodes P L.stub s' m₂.mem →
          ∃ m₃, Runs code m₂ m₃ ∧ Begun m m₂ target newEsp m₃ ∧ m₃.mem = m₂.mem) ∧
      ((load (m.reg .ebx) (m.reg .ecx) (m.reg .edx) st).1 = none →
        ∀ m₂, Returned m₁ ret r' m₂ →
          (∀ g, g ≠ .cs → m.sel g = 0 ∨ m.cpl ≤ descriptorDpl m₂.mem m₂.gdtr (m.sel g)) →
          ∃ m₃, Runs code m₂ m₃ ∧ Continued m next 0xFFFFFFFF m₃ ∧ m₃.mem = m₂.mem) := by
  obtain ⟨m₁, ret, b, hrun, heip, hcalled, hback⟩ := h.int_called hint
  have hhandled := isrHandler_raw (I := I) t hplaced hraw
    (r := interrupted { m with eip := next } 0x80 0) rfl heax st
  rw [hexec, exec] at hhandled
  rcases hload : load (m.reg .ebx) (m.reg .ecx) (m.reg .edx) st with ⟨_ | ⟨target, newEsp⟩, st'⟩
  · simp only [interrupted, hload] at hhandled
    refine ⟨m₁, ret, _, _, hrun, heip, hcalled, hhandled, fun target newEsp hsome => ?_,
      fun _ m₂ hret hsegs => h.continued hcalled hback hret hsegs⟩
    exact absurd hsome (by simp)
  · simp only [interrupted, hload] at hhandled
    refine ⟨m₁, ret, _, _, hrun, heip, hcalled, hhandled, ?_, fun hnone => ?_⟩
    · intro target' newEsp' hsome m₂ s' hret hgdtr htables
      obtain ⟨rfl, rfl⟩ := Prod.mk.inj (Option.some.inj hsome)
      exact h.begun hcalled hback hret (by rw [hgdtr]; exact htables.dpl_user)
    · exact absurd hnone (by simp)

/-- A user program calls `exec`, and the program that was loaded begins. -/
theorem exec_enters_user_again : ∃ m₁ ret r r' m₂ m₃, Runs image (userMachine 17) m₁ ∧
    m₁.eip = imageLabels.isrHandler ∧
    isrHandler (initialiseSyscalls countingCalls firstCalls fun _ => none) r () =
      some (r', ()) ∧
    Returned m₁ ret r' m₂ ∧ Runs image m₂ m₃ ∧
    Begun (userMachine 17) m₂ 0x8048000 0xBFFFFFF0 m₃ := by
  obtain ⟨m₁, ret, r, r', hrun, heip, hcalled, hhandled, hbegun, -⟩ :=
    exec_enters_user (userMachine_prepared 17) (userMachine_int 17) countingCalls firstCalls
      (d := ⟨17, "exec".toList, ["Registers* regs".toList]⟩) (by decide +kernel) (by decide) rfl
      (fun _ _ _ st => (some (0x8048000, 0xBFFFFFF0), st)) rfl (fun _ => none) ()
  obtain ⟨m₂, hret, hgdtr, htables⟩ := exists_returned hcalled rfl r'
  obtain ⟨m₃, hrun', hstarted, -⟩ := hbegun _ _ rfl m₂ _ hret hgdtr htables
  exact ⟨m₁, ret, r, r', m₂, m₃, hrun, heip, hhandled, hret, hrun', hstarted⟩

end Interrupt

end Ulysses
