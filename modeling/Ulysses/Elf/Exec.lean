import Mathlib.Data.List.Pairwise
import Ulysses.Elf.Basic

/-!
# Exec and the old image

`load_into` appends the mappings of the new program to those of the old one and
leaves the resident pages where they are. An access finds a resident page first,
then the first mapping that contains the address, so it reads the new file exactly
where the old process had nothing, or had the same byte.
-/

namespace Ulysses

open Lib Bytes

namespace Elf

/-! ## What `load_into` changes -/

/-- The mapping of a `PT_LOAD` segment. -/
def segmentMapping (node : Fs.Node) (ph : ProgramHeader) : MemoryMapping :=
  .make ph.pVaddr ph.pMemsz (some node) ph.pOffset ph.pFilesz ph.mmapFlags

theorem foldl_mapSegment (node : Fs.Node) (phs : List ProgramHeader) (st : Process × Nat × Nat) :
    (phs.foldl (mapSegment node) st).1 =
      { st.1 with mmaps := st.1.mmaps ++ (phs.filter (·.loadP)).map (segmentMapping node) } := by
  induction phs generalizing st with
  | nil => simp
  | cons ph phs ih =>
    rw [List.foldl_cons, ih]
    unfold mapSegment
    cases hload : ph.loadP with
    | false => simp [hload]
    | true => simp [hload, Process.addMmap, segmentMapping]

theorem mapMemory_spec (node : Fs.Node) (phs : List ProgramHeader) (proc : Process) :
    (mapMemory node phs proc).1.space = proc.space ∧
      ∃ brk, (mapMemory node phs proc).1.mmaps =
        proc.mmaps ++ (phs.filter (·.loadP)).map (segmentMapping node) ++ [brk] := by
  unfold mapMemory Process.positionBrk
  simp only [foldl_mapSegment, true_and]
  exact ⟨_, rfl⟩

theorem mapLibSegment_spec (node : Fs.Node) (hdr : Header) (st : Process × Nat × Nat)
    (ph : ProgramHeader) :
    (mapLibSegment node hdr st ph).1.space = st.1.space ∧
      ∃ ms, (mapLibSegment node hdr st ph).1.mmaps = st.1.mmaps ++ ms := by
  unfold mapLibSegment
  split
  · simp only [Process.addMmap]
    split
    · exact ⟨rfl, _, rfl⟩
    · exact ⟨rfl, _, rfl⟩
  · exact ⟨rfl, [], by simp⟩

theorem loadAsLib_spec {stale : Nat → UInt8} {node : Fs.Node} {proc : Process}
    {r : Process × Nat × Nat} (h : loadAsLib stale node proc = some r) :
    r.1.space = proc.space ∧ ∃ ms, r.1.mmaps = proc.mmaps ++ ms := by
  obtain ⟨hdr, -, h⟩ := Option.bind_eq_some_iff.1 h
  split at h
  · cases h
  · obtain rfl := Option.some.inj h
    unfold mapLibMemory
    generalize hdr.programHeaders stale node = phs
    have hfold : ∀ st : Process × Nat × Nat,
        (phs.foldl (mapLibSegment node hdr) st).1.space = st.1.space ∧
          ∃ ms, (phs.foldl (mapLibSegment node hdr) st).1.mmaps = st.1.mmaps ++ ms := by
      induction phs with
      | nil => exact fun st => ⟨rfl, [], by simp⟩
      | cons ph phs ih =>
        intro st
        obtain ⟨hspace, ms, hms⟩ := mapLibSegment_spec node hdr st ph
        obtain ⟨hspace', ms', hms'⟩ := ih (mapLibSegment node hdr st ph)
        rw [List.foldl_cons]
        exact ⟨hspace'.trans hspace, ms ++ ms', by rw [hms', hms, List.append_assoc]⟩
    exact hfold (proc, 0, 0)

/-! ## The arguments -/

theorem foldl_copyString (tableAddr : Nat) (table : List (List UInt8)) (st : Bytes × Nat × Nat)
    {lo hi : Nat} (hlo : lo ≤ tableAddr ∧ lo ≤ st.2.1)
    (htable : tableAddr + 4 * (st.2.2 + table.length) ≤ hi)
    (hdata : st.2.1 + (table.map fun str => str.length + 1).sum ≤ hi) :
    AgreeOff lo hi st.1 (table.foldl (copyString tableAddr) st).1 := by
  induction table generalizing st with
  | nil => exact AgreeOff.refl _ _ _
  | cons str table ih =>
    simp only [List.length_cons, List.map_cons, List.sum_cons] at htable hdata
    have hstep : AgreeOff lo hi st.1 (copyString tableAddr st str).1 :=
      ((AgreeOff.refl _ _ _).fill _ hlo.2 (by omega)).write32 _ (by omega) (by omega)
    refine hstep.trans (ih _ ?_ ?_ ?_) <;> simp only [copyString] <;> omega

theorem copyStringTable_agree {lo hi : Nat} {m mem : Bytes} (h : AgreeOff lo hi m mem)
    {dataAddr tableAddr : Nat} {table : List (List UInt8)} (hlo : lo ≤ tableAddr ∧ lo ≤ dataAddr)
    (htable : tableAddr + (TableInfo.make table).tableSize ≤ hi)
    (hdata : dataAddr + (TableInfo.make table).bytes ≤ hi) :
    AgreeOff lo hi m (copyStringTable dataAddr tableAddr table mem) := by
  simp only [TableInfo.make] at htable hdata
  have hfold := foldl_copyString tableAddr table (mem, dataAddr, 0) hlo (by simp only; omega) hdata
  exact (h.trans hfold).write32 _ (by omega) (by omega)

theorem writeWords_agree {lo hi : Nat} {m mem : Bytes} (h : AgreeOff lo hi m mem) {addr : Nat}
    {ws : List Nat} (hlo : lo ≤ addr) (hhi : addr + 4 * ws.length ≤ hi) :
    AgreeOff lo hi m (writeWords addr ws mem) := by
  unfold writeWords
  induction ws generalizing addr mem with
  | nil => exact h
  | cons w ws ih =>
    rw [List.length_cons] at hhi
    exact ih (h.write32 w hlo (by omega)) (by omega) (by omega)

/-- Bytes of the arguments before they are rounded up. -/
def argsBytes (req : Request) : Nat :=
  (TableInfo.make req.env).totalSize + (TableInfo.make req.argv).totalSize + auxvSize + 4

/-- The first address of the pages with the arguments. -/
def argsStart (req : Request) : Nat := stackTop - pageAlignUp (headerBytes req)

theorem headerBytes_bounds {req : Request} (h : argsBytes req ≤ stackTop) :
    argsBytes req ≤ headerBytes req ∧ headerBytes req ≤ argsBytes req + 15 ∧
      headerBytes req ≤ stackTop ∧
      pageAlignUp (headerBytes req) = (headerBytes req + 4095) / 4096 * 4096 := by
  unfold stackTop kernelVirtualBase at *
  have hheader : headerBytes req = (argsBytes req + 15) / 16 * 16 := by
    unfold headerBytes alignUp
    rw [add32_eq]
    · rfl
    · exact Nat.lt_of_le_of_lt (Nat.add_le_add_right h 15) (by decide)
  refine ⟨by omega, by omega, by omega, ?_⟩
  unfold pageAlignUp
  rw [add32_eq (by omega), and_pageMask (by omega)]

/-- The address lies in the pages of the arguments. -/
def InArgs (req : Request) (a : Nat) : Prop := argsStart req ≤ a ∧ a < stackTop

theorem foldl_allocateUser (page : Nat → Nat) (is : List Nat) (s : Space) :
    (is.foldl (fun s i => s.allocateUser (page i) true) s).mem = s.mem ∧
      ∀ n, (is.foldl (fun s i => s.allocateUser (page i) true) s).resident n =
        (s.resident n || is.any fun i => n == page i / pageSize) := by
  induction is generalizing s with
  | nil => simp
  | cons i is ih =>
    rw [List.foldl_cons]
    obtain ⟨hmem, hres⟩ := ih (s.allocateUser (page i) true)
    refine ⟨hmem.trans (Space.allocateUser_mem _ _ _), fun n => ?_⟩
    rw [hres, Space.allocateUser_resident, List.any_cons, Bool.or_assoc]

theorem allocatePagesForHeader_mem (bytes : Nat) (s : Space) :
    (allocatePagesForHeader bytes s).mem = s.mem :=
  (foldl_allocateUser (fun i => sub32 stackTop (mul32 i pageSize)) _ s).1

/-- The pages from `argsStart` to the top of the stack have frames. -/
theorem allocatePagesForHeader_resident {req : Request} (h : argsBytes req ≤ stackTop) (s : Space)
    (a : Nat) : (allocatePagesForHeader (headerBytes req) s).resident (a / pageSize) = true ↔
      s.resident (a / pageSize) = true ∨ InArgs req a := by
  obtain ⟨-, -, htop, hpages⟩ := headerBytes_bounds h
  unfold allocatePagesForHeader
  rw [(foldl_allocateUser (fun i => sub32 stackTop (mul32 i pageSize)) _ s).2, Bool.or_eq_true,
    List.any_eq_true]
  refine or_congr_right ?_
  unfold InArgs argsStart
  rw [hpages]
  unfold stackTop kernelVirtualBase pageSize at *
  constructor
  · rintro ⟨i, hi, hn⟩
    have hi := List.mem_range'_1.1 hi
    rw [mul32_eq (by omega), sub32_eq (by omega) (by omega), beq_iff_eq] at hn
    omega
  · rintro ⟨hlo, hhi⟩
    refine ⟨786432 - a / 4096, List.mem_range'_1.2 ⟨by omega, by omega⟩, ?_⟩
    rw [mul32_eq (by omega), sub32_eq (by omega) (by omega), beq_iff_eq]
    omega

/-- `setup_args` keeps to the pages of the arguments. -/
theorem setupArgs_spec (hdr : Header) {req : Request} (h : argsBytes req ≤ stackTop)
    (base interpBase : Nat) (s : Space) :
    AgreeOff (argsStart req) stackTop s.mem (setupArgs hdr req base interpBase s).1.mem ∧
      ∀ a, (setupArgs hdr req base interpBase s).1.resident (a / pageSize) = true ↔
        s.resident (a / pageSize) = true ∨ InArgs req a := by
  obtain ⟨hlo, hhi, htop, hpages⟩ := headerBytes_bounds h
  have hge : headerBytes req ≤ pageAlignUp (headerBytes req) := by omega
  have hesp : sub32 stackTop (headerBytes req) = stackTop - headerBytes req :=
    sub32_eq htop (by decide)
  have hsum : argsBytes req = (TableInfo.make req.env).tableSize + (TableInfo.make req.env).bytes +
      ((TableInfo.make req.argv).tableSize + (TableInfo.make req.argv).bytes) + 64 + 4 := rfl
  have hstart : argsStart req ≤ stackTop - headerBytes req := by
    unfold argsStart
    omega
  have hend : stackTop - headerBytes req + argsBytes req ≤ stackTop := by omega
  unfold setupArgs
  simp only [hesp, allocatePagesForHeader_mem]
  refine ⟨?_, allocatePagesForHeader_resident h s⟩
  generalize stackTop - headerBytes req = esp at hstart hend ⊢
  generalize argsStart req = lo at hstart ⊢
  unfold auxvSize
  refine AgreeOff.write32 (writeWords_agree (copyStringTable_agree
    (copyStringTable_agree (AgreeOff.refl lo stackTop s.mem) ?_ ?_ ?_) ?_ ?_ ?_) ?_ ?_) _ ?_ ?_
  all_goals try simp only [auxv, List.length_cons, List.length_nil]
  all_goals omega

/-- The space that `setup_args` leaves, with the `base_address_` of the program and the
`interp_base_address_` of its interpreter. -/
def argsSpace (finddir : List UInt8 → Option Fs.Node) (stale : Nat → Nat → UInt8)
    (interpBase : Nat) (req : Request) (hdr : Header) (proc : Process) : Space :=
  let mapped := mapMemory req.node (hdr.programHeaders (stale 1) req.node) proc
  let interpReq := (setupInterp finddir req.node (hdr.programHeaders (stale 0) req.node)).join
  let interp := interpReq.bind fun node => loadAsLib (stale 2) node mapped.1
  (setupArgs hdr req mapped.2 ((interp.map fun r => r.2.1).getD interpBase) proc.space).1

theorem loadInto_spec {finddir : List UInt8 → Option Fs.Node} {stale : Nat → Nat → UInt8}
    {interpBase : Nat} {req : Request} {proc : Process} {r : Loaded} {hdr : Header}
    (hload : loadInto finddir stale interpBase req proc = some r)
    (hhdr : loadHeader req.node = some hdr) :
    (∃ rest, r.proc.mmaps = proc.mmaps ++
      ((hdr.programHeaders (stale 1) req.node).filter (·.loadP)).map (segmentMapping req.node) ++
      rest) ∧ r.proc.space = argsSpace finddir stale interpBase req hdr proc := by
  unfold loadInto at hload
  rw [hhdr] at hload
  obtain ⟨interpReq, hreq, rfl⟩ := Option.map_eq_some_iff.1 hload
  unfold argsSpace
  rw [hreq]
  obtain ⟨hspace, brk, hmaps⟩ :=
    mapMemory_spec req.node (hdr.programHeaders (stale 1) req.node) proc
  generalize mapMemory req.node (hdr.programHeaders (stale 1) req.node) proc = mapped at *
  -- with or without an interpreter, mappings are appended and the space is kept
  have hinterp : ∃ rest, (((interpReq.bind fun node =>
        loadAsLib (stale 2) node mapped.1).map Prod.fst).getD mapped.1).mmaps =
        mapped.1.mmaps ++ rest ∧
      (((interpReq.bind fun node =>
        loadAsLib (stale 2) node mapped.1).map Prod.fst).getD mapped.1).space =
        mapped.1.space := by
    cases hlib : interpReq.bind fun node => loadAsLib (stale 2) node mapped.1 with
    | none => exact ⟨[], by simp, rfl⟩
    | some lib =>
      obtain ⟨node, -, hlib⟩ := Option.bind_eq_some_iff.1 hlib
      obtain ⟨hspace', ms, hms⟩ := loadAsLib_spec hlib
      exact ⟨ms, hms, hspace'⟩
  obtain ⟨rest, hrest, hspace'⟩ := hinterp
  simp only [Process.addMmap, Option.join_some]
  rw [hrest, hmaps, hspace', hspace]
  exact ⟨⟨_, by simp only [List.append_assoc]; rfl⟩, rfl⟩

/-! ## The image -/

/-- The program headers in the file, `e_phentsize` bytes apart. -/
def Header.fileHeaders (node : Fs.Node) (h : Header) : List ProgramHeader :=
  (List.range h.ePhnum).map fun i => ProgramHeader.ofBytes node.bytes (h.ePhoff + h.ePhentsize * i)

/-- The segments of the program in a file. -/
def segments (node : Fs.Node) (hdr : Header) : List ProgramHeader :=
  (hdr.fileHeaders node).filter (·.loadP)

def ProgramHeader.Covers (ph : ProgramHeader) (a : Nat) : Prop :=
  ph.pVaddr ≤ a ∧ a < ph.pVaddr + ph.pMemsz

/-- The segment has bytes on the page, or its address lies on it. -/
def ProgramHeader.OnPage (ph : ProgramHeader) (page : Nat) : Prop :=
  ph.pVaddr / pageSize ≤ page ∧ page * pageSize < ph.pVaddr + ph.pMemsz

/-- The byte a segment has at an address. -/
def imageByte (node : Fs.Node) (ph : ProgramHeader) (a : Nat) : UInt8 :=
  if a - ph.pVaddr < ph.pFilesz then node.bytes (ph.pOffset + (a - ph.pVaddr)) else 0

/-- The byte that the mapping of a segment gives at an address. -/
def mappedByte (node : Fs.Node) (ph : ProgramHeader) (a : Nat) : UInt8 :=
  if a - ph.pVaddr < ph.pFilesz then node.bytes ((segmentMapping node ph).fileOffset a) else 0

/-- A program whose headers are where the loader looks for them, with segments on pages of their
own, and whose arguments fit below the kernel. -/
structure WellFormed (hdr : Header) (req : Request) : Prop where
  table : hdr.ePhnum = 0 ∨ hdr.ePhentsize = 32 ∨ (hdr.ePhnum = 1 ∧ 32 ≤ hdr.ePhentsize)
  pages : (segments req.node hdr).Pairwise fun ph ph' => ∀ page, ¬(ph.OnPage page ∧ ph'.OnPage page)
  args : argsBytes req ≤ stackTop

theorem programHeaders_eq {hdr : Header}
    (h : hdr.ePhnum = 0 ∨ hdr.ePhentsize = 32 ∨ (hdr.ePhnum = 1 ∧ 32 ≤ hdr.ePhentsize))
    (stale : Nat → UInt8) (node : Fs.Node) :
    hdr.programHeaders stale node = hdr.fileHeaders node := by
  unfold Header.programHeaders Header.fileHeaders
  refine List.map_congr_left fun i hi => ?_
  have hi := List.mem_range.1 hi
  obtain ⟨hsize, hstep⟩ : 32 * i + 32 ≤ hdr.phSize ∧ hdr.ePhentsize * i = 32 * i := by
    unfold Header.phSize
    rcases h with hzero | hsize | ⟨hone, hsize⟩
    · omega
    · rw [hsize]
      omega
    · obtain rfl : i = 0 := by omega
      rw [hone]
      omega
  rw [hstep]
  generalize 32 * i = a at hsize ⊢
  have hbyte : ∀ k, k + 4 ≤ 32 →
      (hdr.loadPh stale node).read32 (a + k) = read32 node.bytes (hdr.ePhoff + a + k) := by
    intro k hk
    have hbuf : ∀ x, a + k ≤ x → x < a + k + 4 →
        hdr.loadPh stale node x = node.bytes (hdr.ePhoff + x) := fun x h₁ h₂ =>
      Bytes.fill_in stale (fun i => node.bytes (hdr.ePhoff + i)) ⟨Nat.zero_le _, by omega⟩
    unfold read32
    rw [hbuf (a + k) (by omega) (by omega), hbuf (a + k + 1) (by omega) (by omega),
      hbuf (a + k + 2) (by omega) (by omega), hbuf (a + k + 3) (by omega) (by omega)]
    simp only [Nat.add_assoc]
  unfold ProgramHeader.ofBytes
  rw [hbyte 4 (by omega), hbyte 8 (by omega), hbyte 16 (by omega), hbyte 20 (by omega),
    hbyte 24 (by omega), ← Nat.add_zero a, hbyte 0 (by omega)]
  rfl

/-- The end of the segment's pages, as the mapping has it, lies above the address. It is a word and
wraps. -/
def ProgramHeader.Reaches (ph : ProgramHeader) (a : Nat) : Prop :=
  a < alignUp (add32 ph.pVaddr ph.pMemsz) pageSize

theorem containsP_segment (node : Fs.Node) {ph : ProgramHeader} {a : Nat}
    (hlt : ph.pVaddr < 4294967296) :
    (segmentMapping node ph).containsP a = true ↔
      ph.pVaddr / pageSize ≤ a / pageSize ∧ ph.Reaches a := by
  unfold segmentMapping MemoryMapping.make MemoryMapping.containsP ProgramHeader.Reaches
  simp only [Bool.and_eq_true, decide_eq_true_eq]
  rw [and_pageMask hlt]
  unfold pageSize
  omega

theorem OnPage.of_reaches {ph : ProgramHeader} {a : Nat} (hlt : ph.pMemsz < 4294967296)
    (hlo : ph.pVaddr / pageSize ≤ a / pageSize) (h : ph.Reaches a) : ph.OnPage (a / pageSize) := by
  unfold ProgramHeader.Reaches alignUp add32 at h
  unfold ProgramHeader.OnPage
  unfold pageSize at *
  omega

theorem OnPage.of_covers {ph : ProgramHeader} {a : Nat} (h : ph.Covers a) :
    ph.OnPage (a / pageSize) := by
  unfold ProgramHeader.Covers at h
  unfold ProgramHeader.OnPage pageSize
  omega

theorem segment_words {hdr : Header} {req : Request} {ph : ProgramHeader}
    (hph : ph ∈ segments req.node hdr) :
    ph.pVaddr < 4294967296 ∧ ph.pMemsz < 4294967296 ∧ ph.pFilesz < 4294967296 := by
  obtain ⟨i, -, rfl⟩ := List.mem_map.1 (List.mem_of_mem_filter hph)
  exact ⟨read32_lt _ _, read32_lt _ _, read32_lt _ _⟩

/-- Of the segments only the one that has the address can be found there. -/
theorem of_find_segment {hdr : Header} {req : Request} (hwf : WellFormed hdr req)
    {ph : ProgramHeader} (hph : ph ∈ segments req.node hdr) {a : Nat} (ha : ph.Covers a)
    {m : MemoryMapping} (hfind : ((segments req.node hdr).map (segmentMapping req.node)).find?
      (fun m => m.containsP a) = some m) : m = segmentMapping req.node ph := by
  obtain ⟨ph', hph', rfl⟩ := List.mem_map.1 (List.mem_of_find?_eq_some hfind)
  obtain ⟨hlt, hmem, -⟩ := segment_words hph'
  obtain ⟨hlo, hreach⟩ := (containsP_segment req.node hlt).1 (List.find?_some hfind)
  -- two segments on one page are one segment
  by_cases heq : ph' = ph
  · rw [heq]
  · have : Std.Symm fun ph ph' : ProgramHeader => ∀ page, ¬(ph.OnPage page ∧ ph'.OnPage page) :=
      ⟨fun _ _ h page hp => h page hp.symm⟩
    exact absurd ⟨OnPage.of_reaches hmem hlo hreach, OnPage.of_covers ha⟩
      (hwf.pages.forall hph' hph heq _)

theorem find_segment {hdr : Header} {req : Request} (hwf : WellFormed hdr req)
    {ph : ProgramHeader} (hph : ph ∈ segments req.node hdr) {a : Nat} (ha : ph.Covers a) :
    (ph.Reaches a → ((segments req.node hdr).map (segmentMapping req.node)).find?
        (fun m => m.containsP a) = some (segmentMapping req.node ph)) ∧
      (¬ph.Reaches a → ((segments req.node hdr).map (segmentMapping req.node)).find?
        (fun m => m.containsP a) = none) := by
  have hcontains := containsP_segment req.node (a := a) (segment_words hph).1
  have hlo := Nat.div_le_div_right (c := pageSize) ha.1
  constructor
  · intro hreach
    obtain ⟨m, hm⟩ := Option.isSome_iff_exists.1 (List.find?_isSome.2
      ⟨_, List.mem_map_of_mem hph, hcontains.2 ⟨hlo, hreach⟩⟩)
    rw [hm, of_find_segment hwf hph ha hm]
  · intro hout
    refine Option.eq_none_iff_forall_ne_some.2 fun m hm => hout ?_
    rw [of_find_segment hwf hph ha hm] at hm
    exact (hcontains.1 (List.find?_some (p := MemoryMapping.containsP a) hm)).2

/-- Nothing of the old process answers at the address. -/
def Vacant (a : Nat) (proc : Process) : Prop :=
  proc.space.resident (a / pageSize) = false ∧ proc.findMapping a = none

/-- The new process with only the mappings behind those of the segments: the break, the
interpreter's and the stack. -/
def Loaded.others (r : Loaded) (proc : Process) (req : Request) (hdr : Header) : Process :=
  { r.proc with mmaps := r.proc.mmaps.drop (proc.mmaps.length + (segments req.node hdr).length) }

section

variable {finddir : List UInt8 → Option Fs.Node} {stale : Nat → Nat → UInt8} {interpBase : Nat}
  {req : Request} {proc : Process} {r : Loaded} {hdr : Header}

section

variable (hload : loadInto finddir stale interpBase req proc = some r)
  (hhdr : loadHeader req.node = some hdr)

include hload hhdr

theorem read_args (hargs : argsBytes req ≤ stackTop) {a : Nat} (ha : InArgs req a) :
    r.proc.read a = some ((argsSpace finddir stale interpBase req hdr proc).mem a) := by
  rw [← (loadInto_spec hload hhdr).2]
  refine Process.read_of_resident ?_
  rw [(loadInto_spec hload hhdr).2]
  exact ((setupArgs_spec hdr hargs _ _ _).2 _).2 (.inr ha)

theorem space_kept (hargs : argsBytes req ≤ stackTop) {a : Nat} (ha : ¬InArgs req a) :
    r.proc.space.mem a = proc.space.mem a ∧
      r.proc.space.resident (a / pageSize) = proc.space.resident (a / pageSize) := by
  rw [(loadInto_spec hload hhdr).2]
  obtain ⟨hmem, hres⟩ := setupArgs_spec hdr hargs
    (mapMemory req.node (hdr.programHeaders (stale 1) req.node) proc).2 _ proc.space
  refine ⟨hmem a ?_, Bool.eq_iff_iff.2 ((hres _).trans (or_iff_left ha))⟩
  unfold InArgs at ha
  omega

/-- Where the old process has something, it stays. -/
theorem read_kept (hargs : argsBytes req ≤ stackTop) {a : Nat} (ha : ¬InArgs req a)
    (hold : ¬Vacant a proc) : r.proc.read a = proc.read a := by
  obtain ⟨⟨rest, hmaps⟩, -⟩ := loadInto_spec hload hhdr
  obtain ⟨hmem, hres⟩ := space_kept hload hhdr hargs ha
  unfold Process.read
  rw [hres, hmem]
  cases hr : proc.space.resident (a / pageSize) with
  | true => rfl
  | false =>
    cases hfind : proc.findMapping a with
    | none => exact absurd ⟨hr, hfind⟩ hold
    | some m =>
      have hfind' : r.proc.findMapping a = some m := by
        unfold Process.findMapping at hfind ⊢
        rw [hmaps, List.append_assoc, List.find?_append, hfind]
        rfl
      have hfill := m.fulfill_congr a hmem
      unfold Process.handleFault
      simpa [hfind, hfind', Option.map_map, Function.comp_def] using hfill

theorem find_vacant (hwf : WellFormed hdr req) {a : Nat} (hnone : proc.findMapping a = none) :
    r.proc.findMapping a = (((segments req.node hdr).map (segmentMapping req.node)).find?
      (fun m => m.containsP a)).or ((r.others proc req hdr).findMapping a) := by
  obtain ⟨⟨rest, hmaps⟩, -⟩ := loadInto_spec hload hhdr
  rw [programHeaders_eq hwf.table] at hmaps
  have hdrop : (r.others proc req hdr).mmaps = rest := by
    unfold Loaded.others
    rw [hmaps]
    exact List.drop_left' (by rw [List.length_append, List.length_map]; rfl)
  unfold Process.findMapping at hnone ⊢
  rw [hdrop, hmaps, List.append_assoc, List.find?_append, hnone, List.find?_append]
  rfl

/-- Where it has nothing, the file is read. -/
theorem read_vacant (hwf : WellFormed hdr req) {ph : ProgramHeader}
    (hph : ph ∈ segments req.node hdr) {a : Nat} (ha : ph.Covers a) (hout : ¬InArgs req a)
    (hnew : Vacant a proc) (hreach : ph.Reaches a) :
    r.proc.read a = some (mappedByte req.node ph a) := by
  obtain ⟨-, hres⟩ := space_kept hload hhdr hwf.args hout
  have hfind := find_vacant hload hhdr hwf hnew.2
  rw [(find_segment hwf hph ha).1 hreach, Option.some_or] at hfind
  obtain ⟨hlo, hhi⟩ := ha
  have hwrap : a / pageSize * pageSize + pageSize < 4294967296 := by
    unfold ProgramHeader.Reaches alignUp add32 at hreach
    unfold pageSize at *
    omega
  have hstart : (segmentMapping req.node ph).address < a / pageSize * pageSize + pageSize := by
    show ph.pVaddr < _
    unfold pageSize
    omega
  obtain ⟨s', hfill, hfilled, -⟩ :=
    MemoryMapping.fulfill_spec rfl hwrap hstart (segment_words hph).2.2 r.proc.space
  have hbyte : s'.mem a = mappedByte req.node ph a := by
    rw [hfilled.page a (by unfold pageSize; omega) (by unfold pageSize; omega),
      MemoryMapping.byteAt_some rfl]
    refine if_congr ?_ rfl rfl
    show ph.pVaddr ≤ a ∧ a < ph.pVaddr + ph.pFilesz ↔ _
    omega
  unfold Process.read Process.handleFault
  simp [hres, hnew.1, hfind, hfill, hbyte]

/-- A segment whose end wraps is not found. -/
theorem read_missed (hwf : WellFormed hdr req) {ph : ProgramHeader}
    (hph : ph ∈ segments req.node hdr) {a : Nat} (ha : ph.Covers a) (hnew : Vacant a proc)
    (hreach : ¬ph.Reaches a) : r.proc.read a = (r.others proc req hdr).read a := by
  have hfind := find_vacant hload hhdr hwf hnew.2
  rw [(find_segment hwf hph ha).2 hreach, Option.none_or] at hfind
  exact Process.read_congr rfl hfind

end

/-- What has to stand at an address of a segment for the process to read its new image there. In
the pages of the arguments it is the byte that `setup_args` leaves, elsewhere the byte that the
old process reads. Where that has nothing, the mapping has to give the byte of the file, or a
later mapping does if the end of the segment wraps. -/
inductive Shows (proc : Process) (args : Space) (others : Process) (req : Request)
    (ph : ProgramHeader) (a : Nat) : Prop
  | args (h : InArgs req a) (hbyte : args.mem a = imageByte req.node ph a)
  | kept (h : ¬InArgs req a) (hold : ¬Vacant a proc)
      (hbyte : proc.read a = some (imageByte req.node ph a))
  | file (h : ¬InArgs req a) (hnew : Vacant a proc) (hreach : ph.Reaches a)
      (hbyte : mappedByte req.node ph a = imageByte req.node ph a)
  | missed (h : ¬InArgs req a) (hnew : Vacant a proc) (hreach : ¬ph.Reaches a)
      (hbyte : others.read a = some (imageByte req.node ph a))

end

/-! ## One program after another -/

/-- No user page is resident. -/
def emptySpace : Space where
  resident _ := false
  writable _ := false
  mem _ := 0

/-- An executable of one page at `0x8048000`: the headers and, after them, the byte
of `ret` or of `nop`. -/
def smallProgram (ret : Bool) : Fs.Node where
  bytes i := [0x7f, 0x45, 0x4c, 0x46, 1, 1, 1, 0, 0, 0, 0, 0, 0, 0, 0, 0, 2, 0, 3, 0, 1, 0, 0, 0,
    0x54, 0x80, 4, 8, 52, 0, 0, 0, 0, 0, 0, 0, 0, 0, 0, 0, 52, 0, 32, 0, 1, 0, 0, 0, 0, 0, 0, 0,
    1, 0, 0, 0, 0, 0, 0, 0, 0, 0x80, 4, 8, 0, 0x80, 4, 8, 0x55, 0, 0, 0, 0x55, 0, 0, 0,
    5, 0, 0, 0, 0, 0x10, 0, 0, if ret then 0xc3 else 0x90].getD i 0
  length := 85

def smallHeader (ret : Bool) : Header := .ofBytes (smallProgram ret).bytes

def smallSegment : ProgramHeader := ⟨1, 0, 0x8048000, 85, 85, 5⟩

def smallRequest (ret : Bool) : Request where
  node := smallProgram ret
  argv := []
  env := []

def smallExec (ret : Bool) (proc : Process) : Option Loaded :=
  loadInto (fun _ => none) (fun _ _ => 0) 0 (smallRequest ret) proc

theorem loadHeader_small (ret : Bool) : loadHeader (smallProgram ret) = some (smallHeader ret) := by
  have hvalid : (smallHeader ret).validate = true := by
    cases ret <;> decide +kernel
  unfold loadHeader
  rw [if_neg (by show ¬85 < 52; decide)]
  exact if_pos hvalid

theorem segments_small (ret : Bool) :
    segments (smallProgram ret) (smallHeader ret) = [smallSegment] := by
  cases ret <;> decide +kernel

theorem wellFormed_small (ret : Bool) : WellFormed (smallHeader ret) (smallRequest ret) := by
  have hseg : segments (smallRequest ret).node (smallHeader ret) = [smallSegment] :=
    segments_small ret
  constructor
  · refine .inr (.inl ?_)
    cases ret <;> decide +kernel
  · rw [hseg]
    exact List.pairwise_singleton _ _
  · cases ret <;> decide +kernel

theorem covers_small : smallSegment.Covers 0x8048054 := by
  unfold ProgramHeader.Covers
  decide

/-- The kernel has all pages of its half. -/
def kernelHalf (page : Nat) : Bool := decide (kernelVirtualBase / pageSize ≤ page)

theorem shows_small {args : Space} {others : Process} {a : Nat} (h : smallSegment.Covers a) :
    kernelHalf (a / pageSize) = false ∧
      Shows (.make emptySpace) args others (smallRequest true) smallSegment a := by
  have hlt : a < argsStart (smallRequest true) :=
    Nat.lt_trans h.2 (by decide +kernel)
  have hpage : a / pageSize < kernelVirtualBase / pageSize :=
    Nat.lt_of_le_of_lt (Nat.div_le_div_right h.2.le) (by decide)
  refine ⟨decide_eq_false (Nat.not_le.2 hpage), .file (fun hin => absurd hlt (Nat.not_lt.2 hin.1))
    ⟨rfl, rfl⟩ (Nat.lt_trans h.2 (by decide)) ?_⟩
  unfold mappedByte
  rw [MemoryMapping.fileOffset_eq h.1 h.2 (by decide)]
  rfl

end Elf

end Ulysses
