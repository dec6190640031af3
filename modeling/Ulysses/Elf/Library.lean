import Ulysses.Elf.Basic

/-!
# Shared objects

`map_lib_memory` of `elf.cpp` places the first segment of a shared object at a new base
address and the others at the base plus their own address, and takes the entry for an
offset from the base within its segment. The three agree only when the first segment has
the entry, and the address 0 if there are others (`mapLibMemory_entry_iff`).
-/

namespace Ulysses

open Lib

namespace Elf

/-- The segments that are mapped. -/
def loads (phs : List ProgramHeader) : List ProgramHeader := phs.filter (·.loadP)

/-- The address lies in the file part of the segment. -/
def ProgramHeader.InFile (addr : Nat) (ph : ProgramHeader) : Prop :=
  ph.pVaddr ≤ addr ∧ addr < ph.pVaddr + ph.pFilesz

/-- The test of `map_lib_memory` for the entry. -/
def ProgramHeader.HasEntry (hdr : Header) (ph : ProgramHeader) : Prop :=
  hdr.eEntry ≥ ph.pVaddr ∧ hdr.eEntry < add32 ph.pVaddr ph.pFilesz

instance (hdr : Header) (ph : ProgramHeader) : Decidable (ph.HasEntry hdr) :=
  inferInstanceAs (Decidable (_ ∧ _))

/-- The mapping of a segment at an address. -/
def mappingAt (node : Fs.Node) (addr : Nat) (ph : ProgramHeader) : MemoryMapping :=
  .make addr ph.pMemsz (some node) ph.pOffset ph.pFilesz ph.mmapFlags

/-- The entry that the segments leave, over the one found before. -/
def entryFrom (hdr : Header) (base : Nat) (ls : List ProgramHeader) (entry : Nat) : Nat :=
  ls.foldl (fun entry ph => if ph.HasEntry hdr then add32 base (sub32 hdr.eEntry ph.pVaddr)
    else entry) entry

/-! ## The loop -/

section

variable {node : Fs.Node} {hdr : Header} {proc : Process} {base entry : Nat}

theorem mapLibMemory_loads (phs : List ProgramHeader) (st : Process × Nat × Nat) :
    phs.foldl (mapLibSegment node hdr) st = (loads phs).foldl (mapLibSegment node hdr) st := by
  unfold loads
  rw [List.foldl_filter]
  congr 1
  funext st ph
  unfold mapLibSegment
  split <;> rfl

theorem mapLibSegment_based {ph : ProgramHeader} (hload : ph.loadP = true) (hbase : base ≠ 0) :
    mapLibSegment node hdr (proc, base, entry) ph =
      ({ proc with mmaps := proc.mmaps ++ [mappingAt node (add32 base ph.pVaddr) ph] }, base,
        entryFrom hdr base [ph] entry) := by
  unfold mapLibSegment
  rw [if_pos hload]
  simp only [if_neg hbase]
  rfl

theorem mapLibSegments_based (node : Fs.Node) (hdr : Header) (proc : Process) (entry : Nat)
    {ls : List ProgramHeader} (hload : ∀ ph ∈ ls, ph.loadP = true)
    (hbase : base ≠ 0) :
    (ls.foldl (mapLibSegment node hdr) (proc, base, entry)).1.mmaps =
        proc.mmaps ++ ls.map (fun ph => mappingAt node (add32 base ph.pVaddr) ph) ∧
      (ls.foldl (mapLibSegment node hdr) (proc, base, entry)).2.2 =
        entryFrom hdr base ls entry := by
  induction ls generalizing proc entry with
  | nil => exact ⟨(List.append_nil _).symm, rfl⟩
  | cons ph ls ih =>
    rw [List.foldl_cons, mapLibSegment_based (hload ph List.mem_cons_self) hbase]
    obtain ⟨hmaps, hentry⟩ := ih _ _ (fun p hp => hload p (List.mem_cons_of_mem ph hp))
    refine ⟨hmaps.trans ?_, hentry⟩
    rw [List.append_assoc]
    rfl

/-- What the loop leaves: the first segment at the base, the others at the base plus their
address. -/
theorem mapLibMemory_spec (node : Fs.Node) (hdr : Header) {phs ls : List ProgramHeader}
    {first : ProgramHeader} (hphs : loads phs = first :: ls) (hbase : proc.nextMmapStart ≠ 0) :
    (mapLibMemory node hdr phs proc).1.mmaps = proc.mmaps ++
        (mappingAt node proc.nextMmapStart first ::
          ls.map fun ph => mappingAt node (add32 proc.nextMmapStart ph.pVaddr) ph) ∧
      (mapLibMemory node hdr phs proc).2.2 =
        entryFrom hdr proc.nextMmapStart (first :: ls) 0 := by
  have hload : ∀ ph ∈ first :: ls, ph.loadP = true := fun ph hph =>
    (List.mem_filter.1 (hphs ▸ hph)).2
  have hfirst : mapLibSegment node hdr (proc, 0, 0) first =
      ({ proc with
          nextMmapStart := add32 proc.nextMmapStart first.pMemsz
          mmaps := proc.mmaps ++ [mappingAt node proc.nextMmapStart first] },
        proc.nextMmapStart, entryFrom hdr proc.nextMmapStart [first] 0) := by
    unfold mapLibSegment
    rw [if_pos (hload first List.mem_cons_self)]
    rfl
  unfold mapLibMemory
  rw [mapLibMemory_loads, hphs, List.foldl_cons, hfirst]
  obtain ⟨hmaps, hentry⟩ := mapLibSegments_based node hdr
    { proc with
      nextMmapStart := add32 proc.nextMmapStart first.pMemsz
      mmaps := proc.mmaps ++ [mappingAt node proc.nextMmapStart first] }
    (entryFrom hdr proc.nextMmapStart [first] 0)
    (fun ph hph => hload ph (List.mem_cons_of_mem first hph)) hbase
  refine ⟨hmaps.trans ?_, hentry⟩
  rw [List.append_assoc]
  rfl

/-- The entry is 0 if no segment has it, and otherwise comes from one that has it. -/
theorem entryFrom_cases (hdr : Header) (base : Nat) (ls : List ProgramHeader) (entry : Nat) :
    ((∀ ph ∈ ls, ¬ph.HasEntry hdr) ∧ entryFrom hdr base ls entry = entry) ∨
      ∃ ph ∈ ls, ph.HasEntry hdr ∧
        entryFrom hdr base ls entry = add32 base (sub32 hdr.eEntry ph.pVaddr) := by
  induction ls generalizing entry with
  | nil => exact .inl ⟨by simp, rfl⟩
  | cons ph ls ih =>
    have hcons : entryFrom hdr base (ph :: ls) entry =
        entryFrom hdr base ls (if ph.HasEntry hdr then add32 base (sub32 hdr.eEntry ph.pVaddr)
          else entry) := rfl
    rw [hcons]
    rcases ih (if ph.HasEntry hdr then add32 base (sub32 hdr.eEntry ph.pVaddr) else entry) with
      ⟨hnone, heq⟩ | ⟨p, hp, hhas, heq⟩
    · by_cases hhas : ph.HasEntry hdr
      · rw [if_pos hhas] at heq ⊢
        exact .inr ⟨ph, List.mem_cons_self, hhas, heq⟩
      · rw [if_neg hhas] at heq ⊢
        exact .inl ⟨List.forall_mem_cons.2 ⟨hhas, hnone⟩, heq⟩
    · exact .inr ⟨p, List.mem_cons_of_mem ph hp, hhas, heq⟩

end

/-! ## Entry and distances -/

/-- A shared object whose segments are in order and do not overlap, with the entry in the
file part of one of them. -/
structure SharedObject (hdr : Header) (phs : List ProgramHeader) : Prop where
  words : ∀ ph ∈ loads phs, ph.pVaddr < 4294967296 ∧ ph.pFilesz < 4294967296
  entry_lt : hdr.eEntry < 4294967296
  fileFits : ∀ ph ∈ loads phs, ph.pFilesz ≤ ph.pMemsz
  ordered : (loads phs).Pairwise fun p q => p.pVaddr < q.pVaddr ∧ p.pVaddr + p.pMemsz ≤ q.pVaddr
  entry : ∃ ph ∈ loads phs, ph.InFile hdr.eEntry

/-- The address is covered by the mapping and has the byte of the file that the entry has in
the segment. -/
structure EntryIn (hdr : Header) (ph : ProgramHeader) (m : MemoryMapping) (addr : Nat) : Prop where
  covered : m.address ≤ addr ∧ addr < m.address + m.memSize
  fromFile : addr - m.address < m.fileSize
  byte : m.offset + (addr - m.address) = ph.pOffset + (hdr.eEntry - ph.pVaddr)

/-- A mapping was added for each segment; the entry lies in that of its segment, and the
mappings are as far apart as the segments. -/
def Placed (hdr : Header) (phs : List ProgramHeader) (proc : Process)
    (r : Process × Nat × Nat) : Prop :=
  ∃ ms, r.1.mmaps = proc.mmaps ++ ms ∧ ms.length = (loads phs).length ∧
    (∀ x ∈ (loads phs).zip ms, x.1.InFile hdr.eEntry → EntryIn hdr x.1 x.2 r.2.2) ∧
    ∀ x ∈ (loads phs).zip ms, ∀ y ∈ (loads phs).zip ms,
      (y.2.address : Int) - x.2.address = (y.1.pVaddr : Int) - x.1.pVaddr

/-- The first segment has the entry, and the others follow it from address 0 on; nothing
reaches beyond the address space. -/
def EntryFirst (hdr : Header) (phs : List ProgramHeader) (base : Nat) : Prop :=
  ∃ ph ls, loads phs = ph :: ls ∧ ph.InFile hdr.eEntry ∧
    ph.pVaddr + ph.pFilesz < 4294967296 ∧ base + (hdr.eEntry - ph.pVaddr) < 4294967296 ∧
    ∀ q ∈ ls, ph.pVaddr = 0 ∧ base + q.pVaddr < 4294967296

section

variable {node : Fs.Node} {hdr : Header} {base : Nat} {ph : ProgramHeader}

/-- The test asks for the file part, as long as that does not reach the end of the address
space. -/
theorem hasEntry_iff (hentry : hdr.eEntry < 4294967296) (hv : ph.pVaddr < 4294967296)
    (hf : ph.pFilesz < 4294967296) :
    ph.HasEntry hdr ↔ ph.InFile hdr.eEntry ∧ ph.pVaddr + ph.pFilesz < 4294967296 := by
  unfold ProgramHeader.HasEntry ProgramHeader.InFile add32
  omega

theorem entryIn_iff {addr at_ : Nat} (hfits : ph.pFilesz ≤ ph.pMemsz)
    (hin : ph.InFile hdr.eEntry) :
    EntryIn hdr ph (mappingAt node at_ ph) addr ↔
      addr = at_ + (hdr.eEntry - ph.pVaddr) := by
  unfold ProgramHeader.InFile at hin
  constructor
  · rintro ⟨hcovered, -, hbyte⟩
    simp only [mappingAt, MemoryMapping.make] at hcovered hbyte
    omega
  · intro h
    refine ⟨?_, ?_, ?_⟩
    · show at_ ≤ addr ∧ addr < at_ + ph.pMemsz
      omega
    · show addr - at_ < ph.pFilesz
      omega
    · show ph.pOffset + (addr - at_) = _
      omega

end

section

variable {node : Fs.Node} {hdr : Header} {phs ls : List ProgramHeader} {first : ProgramHeader}
  {proc : Process}

theorem placed_of_mmaps {r : Process × Nat × Nat} {ms : List MemoryMapping}
    (hmaps : r.1.mmaps = proc.mmaps ++ ms) (hlen : ms.length = (loads phs).length) :
    Placed hdr phs proc r ↔
      (∀ x ∈ (loads phs).zip ms, x.1.InFile hdr.eEntry → EntryIn hdr x.1 x.2 r.2.2) ∧
      ∀ x ∈ (loads phs).zip ms, ∀ y ∈ (loads phs).zip ms,
        (y.2.address : Int) - x.2.address = (y.1.pVaddr : Int) - x.1.pVaddr := by
  unfold Placed
  rw [hmaps]
  constructor
  · rintro ⟨ms', hms, -, hin, hdist⟩
    rw [List.append_cancel_left_eq] at hms
    subst hms
    exact ⟨hin, hdist⟩
  · rintro ⟨hin, hdist⟩
    exact ⟨ms, rfl, hlen, hin, hdist⟩

theorem distances_iff (x : ProgramHeader × MemoryMapping)
    (xs : List (ProgramHeader × MemoryMapping)) :
    (∀ y ∈ x :: xs, ∀ z ∈ x :: xs,
        (z.2.address : Int) - y.2.address = (z.1.pVaddr : Int) - y.1.pVaddr) ↔
      ∀ z ∈ xs, (z.2.address : Int) - x.2.address = (z.1.pVaddr : Int) - x.1.pVaddr := by
  constructor
  · intro hall z hz
    exact hall x List.mem_cons_self z (List.mem_cons_of_mem x hz)
  · intro hfirst
    have hfrom : ∀ y ∈ x :: xs,
        (y.2.address : Int) - x.2.address = (y.1.pVaddr : Int) - x.1.pVaddr := by
      rw [List.forall_mem_cons]
      exact ⟨by omega, hfirst⟩
    intro y hy z hz
    have hy' := hfrom y hy
    have hz' := hfrom z hz
    omega

theorem placed_iff (hphs : loads phs = first :: ls) (hbase : proc.nextMmapStart ≠ 0) :
    Placed hdr phs proc (mapLibMemory node hdr phs proc) ↔
      (first.InFile hdr.eEntry → EntryIn hdr first (mappingAt node proc.nextMmapStart first)
        (entryFrom hdr proc.nextMmapStart (first :: ls) 0)) ∧
      (∀ q ∈ ls, q.InFile hdr.eEntry →
        EntryIn hdr q (mappingAt node (add32 proc.nextMmapStart q.pVaddr) q)
          (entryFrom hdr proc.nextMmapStart (first :: ls) 0)) ∧
      ∀ q ∈ ls, (add32 proc.nextMmapStart q.pVaddr : Int) =
        proc.nextMmapStart + q.pVaddr - first.pVaddr := by
  obtain ⟨hmaps, hentry⟩ := mapLibMemory_spec node hdr hphs hbase
  have hzip : (first :: ls).zip (mappingAt node proc.nextMmapStart first ::
      ls.map fun ph => mappingAt node (add32 proc.nextMmapStart ph.pVaddr) ph) =
      (first, mappingAt node proc.nextMmapStart first) ::
        ls.map fun q => (q, mappingAt node (add32 proc.nextMmapStart q.pVaddr) q) := by
    rw [List.zip_cons_cons, List.map_prod_left_eq_zip]
  rw [placed_of_mmaps hmaps (by simp [hphs]), hentry, hphs, hzip, distances_iff,
    List.forall_mem_cons, List.forall_mem_map, List.forall_mem_map, and_assoc]
  refine and_congr_right fun _ => and_congr_right fun _ => forall₂_congr fun q _ => ?_
  show (add32 proc.nextMmapStart q.pVaddr : Int) - proc.nextMmapStart =
    (q.pVaddr : Int) - first.pVaddr ↔ _
  omega

/-- The others are where they should be exactly when the first segment has the address 0. -/
theorem distance_iff {base : Nat} {q : ProgramHeader} (hbase : base < 4294967296)
    (hq : q.pVaddr < 4294967296) (hlt : first.pVaddr < q.pVaddr) :
    (add32 base q.pVaddr : Int) = base + q.pVaddr - first.pVaddr ↔
      first.pVaddr = 0 ∧ base + q.pVaddr < 4294967296 := by
  unfold add32
  omega

/-- The file parts of the first segment and of a later one are apart. -/
theorem SharedObject.apart (h : SharedObject hdr phs) (hphs : loads phs = first :: ls)
    {q : ProgramHeader} (hq : q ∈ ls) (hfirst : first.InFile hdr.eEntry) :
    ¬q.InFile hdr.eEntry := by
  have hordered := h.ordered
  have hfits := h.fileFits first (hphs ▸ List.mem_cons_self)
  rw [hphs] at hordered
  have hafter := (List.pairwise_cons.1 hordered).1 q hq
  unfold ProgramHeader.InFile at hfirst ⊢
  omega

/-- With the entry in the first segment, it is taken from there unless something reaches
beyond the address space. -/
theorem SharedObject.entry_first (h : SharedObject hdr phs) (hphs : loads phs = first :: ls)
    {base : Nat} (hpos : 0 < base) (hlt : base < 4294967296)
    (hfirst : first.InFile hdr.eEntry) :
    entryFrom hdr base (first :: ls) 0 = base + (hdr.eEntry - first.pVaddr) ↔
      first.pVaddr + first.pFilesz < 4294967296 ∧
        base + (hdr.eEntry - first.pVaddr) < 4294967296 := by
  have hentry := h.entry_lt
  have hword := h.words first (hphs ▸ List.mem_cons_self)
  have hhas := hasEntry_iff hentry hword.1 hword.2
  rcases entryFrom_cases hdr base (first :: ls) 0 with ⟨hnone, heq⟩ | ⟨ph, hph, hph', heq⟩
  · have hnot := hnone first List.mem_cons_self
    rw [hhas] at hnot
    rw [heq]
    constructor
    · omega
    · rintro ⟨hfile, -⟩
      exact absurd ⟨hfirst, hfile⟩ hnot
  · have hin : ph.InFile hdr.eEntry ∧ ph.pVaddr + ph.pFilesz < 4294967296 := by
      have hword' := h.words ph (hphs ▸ hph)
      exact (hasEntry_iff hentry hword'.1 hword'.2).1 hph'
    rcases List.mem_cons.1 hph with rfl | hlater
    · rw [heq, sub32_eq hin.1.1 hentry]
      unfold add32
      omega
    · exact absurd hin.1 (h.apart hphs hlater hfirst)

/-- Entry and distances are not both right when the entry is in a later segment. -/
theorem SharedObject.first_of_placed (h : SharedObject hdr phs) (hphs : loads phs = first :: ls)
    (hpos : 0 < proc.nextMmapStart) (hlt : proc.nextMmapStart < 4294967296)
    (hplaced : Placed hdr phs proc (mapLibMemory node hdr phs proc)) :
    first.InFile hdr.eEntry := by
  obtain ⟨-, hrest, hdist⟩ := (placed_iff hphs hpos.ne').1 hplaced
  have hentry := h.entry_lt
  have hordered := h.ordered
  rw [hphs] at hordered
  by_contra hnot
  have hlater : ∀ ph ∈ first :: ls, ph.InFile hdr.eEntry → ph ∈ ls := by
    intro ph hph hin
    rcases List.mem_cons.1 hph with rfl | hls
    · exact absurd hin hnot
    · exact hls
  -- the entry's distance from its segment, and the segment's from the base
  have hat : ∀ q ∈ ls, q.InFile hdr.eEntry →
      first.pVaddr < q.pVaddr ∧ q.pVaddr < 4294967296 ∧
      (add32 proc.nextMmapStart q.pVaddr : Int) =
        proc.nextMmapStart + q.pVaddr - first.pVaddr ∧
      entryFrom hdr proc.nextMmapStart (first :: ls) 0 =
        add32 proc.nextMmapStart q.pVaddr + (hdr.eEntry - q.pVaddr) := by
    intro q hq hin
    have hmem : q ∈ loads phs := hphs ▸ List.mem_cons_of_mem first hq
    exact ⟨((List.pairwise_cons.1 hordered).1 q hq).1, (h.words q hmem).1, hdist q hq,
      (entryIn_iff (h.fileFits q hmem) hin).1 (hrest q hq hin)⟩
  rcases entryFrom_cases hdr proc.nextMmapStart (first :: ls) 0 with
    ⟨-, heq⟩ | ⟨ph, hph, hhas, heq⟩
  · obtain ⟨q, hq, hin⟩ := h.entry
    obtain ⟨hafter, -, hfar, hsum⟩ := hat q (hlater q (hphs ▸ hq) hin) hin
    omega
  · have hword := h.words ph (hphs ▸ hph)
    have hin := ((hasEntry_iff hentry hword.1 hword.2).1 hhas).1
    obtain ⟨hafter, hq, -, hsum⟩ := hat ph (hlater ph hph hin) hin
    rw [heq, sub32_eq hin.1 hentry] at hsum
    unfold add32 at hsum
    omega

/-- **Interpreter entry**: entry and distances are right exactly when the first segment has the
entry, and starts at address 0 if there are others. -/
theorem mapLibMemory_entry_iff (h : SharedObject hdr phs) (hpos : 0 < proc.nextMmapStart)
    (hlt : proc.nextMmapStart < 4294967296) :
    Placed hdr phs proc (mapLibMemory node hdr phs proc) ↔
      EntryFirst hdr phs proc.nextMmapStart := by
  cases hphs : loads phs with
  | nil =>
    obtain ⟨ph, hph, -⟩ := h.entry
    rw [hphs] at hph
    cases hph
  | cons first ls =>
    have hfits := h.fileFits first (hphs ▸ List.mem_cons_self)
    have hordered := h.ordered
    rw [hphs] at hordered
    have hdistance : ∀ q ∈ ls, (add32 proc.nextMmapStart q.pVaddr : Int) =
        proc.nextMmapStart + q.pVaddr - first.pVaddr ↔
          first.pVaddr = 0 ∧ proc.nextMmapStart + q.pVaddr < 4294967296 := fun q hq =>
      distance_iff hlt (h.words q (hphs ▸ List.mem_cons_of_mem first hq)).1
        ((List.pairwise_cons.1 hordered).1 q hq).1
    constructor
    · intro hplaced
      have hfirst := h.first_of_placed hphs hpos hlt hplaced
      obtain ⟨hin, -, hdist⟩ := (placed_iff hphs hpos.ne').1 hplaced
      obtain ⟨hfile, hend⟩ :=
        (h.entry_first hphs hpos hlt hfirst).1 ((entryIn_iff hfits hfirst).1 (hin hfirst))
      exact ⟨first, ls, hphs, hfirst, hfile, hend, fun q hq =>
        (hdistance q hq).1 (hdist q hq)⟩
    · rintro ⟨ph, ls', heq, hfirst, hfile, hend, hdist⟩
      rw [hphs] at heq
      obtain ⟨rfl, rfl⟩ := List.cons.inj heq
      rw [placed_iff hphs hpos.ne']
      refine ⟨fun _ => ?_, fun q hq hin => ?_, fun q hq => (hdistance q hq).2 (hdist q hq)⟩
      · exact (entryIn_iff hfits hfirst).2 ((h.entry_first hphs hpos hlt hfirst).2 ⟨hfile, hend⟩)
      · exact absurd hin (h.apart hphs hq hfirst)

end

/-- A shared object with code at the front and data in a second segment. -/
def twoSegments : List ProgramHeader :=
  [⟨1, 0, 0, 0x1000, 0x1000, 5⟩, ⟨1, 0x1000, 0x2000, 0x100, 0x200, 6⟩]

/-- The header of a shared object with the entry. -/
def libraryHeader (eEntry : Nat) : Header where
  eIdent i := [0x7f, 0x45, 0x4c, 0x46, 1, 1, 1].getD i 0
  eType := 3
  eMachine := 3
  eVersion := 1
  eEntry
  ePhoff := 52
  ePhentsize := 32
  ePhnum := 2

theorem sharedObject_twoSegments :
    SharedObject (libraryHeader 0x10) twoSegments ∧
      SharedObject (libraryHeader 0x2010) twoSegments := by
  refine ⟨⟨by decide, by decide, by decide, by decide, ⟨1, 0, 0, 0x1000, 0x1000, 5⟩, by decide, ?_⟩,
    ⟨by decide, by decide, by decide, by decide, ⟨1, 0x1000, 0x2000, 0x100, 0x200, 6⟩, by decide,
      ?_⟩⟩
  · exact ⟨by decide, by decide⟩
  · exact ⟨by decide, by decide⟩

/-- A new process in an empty address space. -/
def newProcess : Process := .make ⟨fun _ => false, fun _ => false, fun _ => 0⟩

theorem mapLibMemory_entry_front :
    Placed (libraryHeader 0x10) twoSegments newProcess
      (mapLibMemory ⟨fun _ => 0, 0⟩ (libraryHeader 0x10) twoSegments newProcess) :=
  (mapLibMemory_entry_iff sharedObject_twoSegments.1 (by decide) (by decide)).2
    ⟨_, _, rfl, ⟨by decide, by decide⟩, by decide, by decide, by decide⟩

/-- With the entry at the second segment's address `0x2000 + 0x10` the program starts at
`0x10` of the first one. -/
theorem mapLibMemory_entry_behind :
    SharedObject (libraryHeader 0x2010) twoSegments ∧
    (mapLibMemory ⟨fun _ => 0, 0⟩ (libraryHeader 0x2010) twoSegments newProcess).2.2 =
      0x1000010 ∧
    (mapLibMemory ⟨fun _ => 0, 0⟩ (libraryHeader 0x2010) twoSegments newProcess).1.mmaps.map
      (fun m => (m.address, m.memSize)) = [(0x1000000, 0x1000), (0x1002000, 0x200)] ∧
    ¬Placed (libraryHeader 0x2010) twoSegments newProcess
      (mapLibMemory ⟨fun _ => 0, 0⟩ (libraryHeader 0x2010) twoSegments newProcess) := by
  refine ⟨sharedObject_twoSegments.2, by decide +kernel, by decide +kernel, fun h => ?_⟩
  have hfirst := sharedObject_twoSegments.2.first_of_placed rfl (by decide) (by decide) h
  exact absurd hfirst.2 (by decide)

end Elf

end Ulysses
