import Ulysses.KHeap.Carve

/-!
# Giving the end of the heap back

`contract` means to round the new length up to a page, but masks it with the single bit
`0x1000`, and its loop stops before the page the heap now ends at. So it cuts the heap as it
should only when there is nothing to cut: when the heap has `HEAP_MIN_SIZE` bytes already
(`givesBack_iff`).
-/

namespace Ulysses

open Lib Bytes Heap

namespace Kernel

/-! ## The pages of the loop -/

/-- The loop unmaps the pages behind the one the heap now ends at. -/
theorem mem_contractPages {start oldSize newSize address : Nat} (hlt : start + oldSize < 4294967296)
    (hpage : oldSize % 4096 = 0) (hle : 4096 ≤ oldSize) :
    address ∈ contractPages start oldSize newSize ↔
      ∃ i, i % 4096 = 0 ∧ newSize < i ∧ i < oldSize ∧ address = start + i := by
  unfold contractPages
  simp only [List.mem_map, List.mem_range]
  rw [sub32_eq hle (by omega)]
  constructor
  · rintro ⟨j, hj, rfl⟩
    exact ⟨oldSize - 0x1000 - j * 0x1000, by omega, by omega, by omega, add32_eq (by omega)⟩
  · rintro ⟨i, hi, hnew, hold, rfl⟩
    refine ⟨(oldSize - 0x1000 - i) / 0x1000, by omega, ?_⟩
    rw [add32_eq (by omega)]
    omega

/-! ## What the call is for -/

/-- The frame of the page at an address. -/
def frameAt (address : Nat) (s : VirtualMemory) : Option Nat :=
  (s.getKernelPage address false (0, 0)).1.map fun e => (s.page e).frame

/-- What `contract` is for: the length it returns is a multiple of a page, not less than what
was asked for, and the pages behind it are those passed to `free_frame`. -/
structure Contracted (n : Nat) (k : Kernel) (r : Nat × Kernel) : Prop where
  page : r.1 % 4096 = 0
  ge : max n heapMinSize ≤ r.1
  le : r.1 ≤ k.heap.length
  endAddress : r.2.heap.endAddress = k.heap.startAddress + r.1
  keeps : ∀ i, i % 4096 = 0 → i < r.1 →
    frameAt (k.heap.startAddress + i) r.2.vmem = frameAt (k.heap.startAddress + i) k.vmem
  frees : ∀ i, i % 4096 = 0 → r.1 ≤ i → i < k.heap.length →
    k.heap.startAddress + i ∈ contractPages k.heap.startAddress k.heap.length r.1

/-- The last part of `free`, when the hole at `header` reaches the end of the heap. -/
def giveBack (header testHeader : Nat) (doAdd : Bool) (k : Kernel) : Option Kernel :=
  (shrink header testHeader k).map fun k =>
    if doAdd then { k with heap := k.heap.indexInsert header } else k

/-- The hole at `header` ends where the heap does, or it is not in the index. -/
def Trailing (header : Nat) (h : Heap) : Prop :=
  header + sizeAt h.mem header = h.endAddress ∨ header ∉ h.index.toList

/-- `contract` cuts the heap as it should, and `free` leaves the hole as it should when it
calls `contract` for a hole that is the last segment. -/
def GivesBack (n : Nat) (k : Kernel) : Prop :=
  (∃ r, contract n k = some r ∧ Contracted n k r) ∧
    ∀ total testHeader doAdd k',
      HeaderAt k.heap.mem ⟨k.heap.startAddress + n, total, true⟩ → 20 ≤ total →
      k.heap.startAddress + n + total = k.heap.endAddress →
      giveBack (k.heap.startAddress + n) testHeader doAdd k = some k' →
      Trailing (k.heap.startAddress + n) k'.heap

theorem giveBack_trailing {header total testHeader : Nat} {doAdd : Bool} {k k' : Kernel}
    (hg : giveBack header testHeader doAdd k = some k')
    (hheader : HeaderAt k.heap.mem ⟨header, total, true⟩) (htotal : 20 ≤ total)
    (hend : header + total = k.heap.endAddress) (hlt : k.heap.endAddress < 4294967296)
    (hstart : k.heap.startAddress ≤ header)
    (hmin : k.heap.endAddress = k.heap.startAddress + heapMinSize) :
    header + sizeAt k'.heap.mem header = k'.heap.endAddress := by
  obtain ⟨k₁, hs, rfl⟩ := Option.map_eq_some_iff.1 hg
  obtain ⟨m, vmem, rfl, -, hheader'⟩ :=
    shrink_spec hheader hend hlt hstart (by omega) (by omega) hs
  have hsize : sizeAt m header = k.heap.startAddress + heapMinSize - header := hheader'.2.2
  generalize heapMinSize = min at hmin hsize ⊢
  have hsum : header + sizeAt m header = k.heap.startAddress + min := by omega
  cases doAdd
  · exact hsum
  · exact hsum

/-- In a heap of `HEAP_MIN_SIZE` bytes a hole that reaches the end when `free` has joined it
still does so when `free` returns. -/
theorem free_trailing {p size : Nat} {k k' : Kernel} {gs : List (Seg Bool)}
    (hl : Layout k.heap gs) (hp : (p, size) ∈ k.heap.live) (hleft : LeftOk p k.heap)
    (hmin : k.heap.length = heapMinSize) (hreach : holeEnd p k.heap = k.heap.endAddress)
    (hf : free p k = some k') :
    holeStart p k.heap + sizeAt k'.heap.mem (holeStart p k.heap) = k'.heap.endAddress := by
  obtain ⟨⟨H, s, tag⟩, hB, rfl, rfl, -⟩ := hl.of_live hp
  simp only at hleft hreach hf hp ⊢
  have hb := hl.bounds hB
  have hlen := length_eq hl
  simp only at hb
  obtain ⟨u, xs, lefts, rights, ys, size', total, m, index, k₁, heq, rfl, hu, hr, -,
    ⟨-, hstart, hend⟩, hk₁, rfl⟩ := free_cases hl hB hleft hf
  obtain ⟨a, b, hx, hmid, hy⟩ := hl.run
  obtain ⟨rfl, rfl, h20, -⟩ := joined_run hmid hu hr
  have hle := hx.le
  rw [hend] at hreach
  rw [if_pos hreach] at hk₁
  have hg : giveBack u.2.1 (H + s) u.2.2 _ = _ := congrArg (Option.map _) hk₁
  rw [hstart]
  exact giveBack_trailing hg hr.header h20 hreach hl.end_lt hle (by simp only; omega)

/-- **Giving the end of the heap back.** For a heap whose length is a multiple of a page and at
least `HEAP_MIN_SIZE`, whatever is asked for: the call does what it is for exactly if the heap
has `HEAP_MIN_SIZE` bytes, so that nothing is given back. -/
theorem givesBack_iff {n : Nat} {k : Kernel} (hle : k.heap.startAddress ≤ k.heap.endAddress)
    (hlt : k.heap.endAddress < 4294967296) (hpage : k.heap.length % 4096 = 0)
    (hmin : heapMinSize ≤ k.heap.length) (hn : n < k.heap.length) :
    GivesBack n k ↔ k.heap.length = heapMinSize := by
  have hlen : k.heap.length = k.heap.endAddress - k.heap.startAddress := sub32_eq hle hlt
  have h4096 : 4096 ≤ k.heap.length := by
    unfold heapMinSize at hmin
    omega
  have hpages : ∀ newSize address, _ ↔ _ := fun newSize address =>
    @mem_contractPages k.heap.startAddress k.heap.length newSize address (by omega) hpage h4096
  constructor
  · rintro ⟨⟨r, hr, hok⟩, -⟩
    obtain ⟨vmem, rfl⟩ := contract_eq hr
    by_contra hne
    have hcut : contractSize n < k.heap.length := by
      rw [contractSize_eq]
      split <;> omega
    -- the page the heap now ends at is not one of the loop
    obtain ⟨i, -, hi, -, heq⟩ := (hpages _ _).1 (hok.frees _ hok.page (Nat.le_refl _) hcut)
    simp only at hi heq
    omega
  · intro heq
    have hsize : contractSize n = k.heap.length := by
      rw [contractSize_of_lt (by omega), heq]
    have hend : k.heap.startAddress + k.heap.length = k.heap.endAddress := by omega
    have hnone : contractPages k.heap.startAddress k.heap.length k.heap.length = [] := by
      refine List.eq_nil_iff_forall_not_mem.2 fun address hmem => ?_
      obtain ⟨i, -, h₁, h₂, -⟩ := (hpages _ _).1 hmem
      omega
    have hcontract : contract n k = some (k.heap.length,
        { k with heap := { k.heap with endAddress := k.heap.endAddress } }) := by
      unfold contract
      simp only
      rw [if_pos hn, hsize, hnone, add32_eq (by omega)]
      simp only [List.foldlM_nil, Option.pure_def, Option.map_some, hend]
    refine ⟨⟨_, hcontract, hpage, by omega, Nat.le_refl _, hend.symm, fun _ _ _ => rfl,
      fun i _ h₁ h₂ => absurd h₂ (Nat.not_lt.2 h₁)⟩, ?_⟩
    intro total testHeader doAdd k' hheader htotal hreach hg
    exact .inl (giveBack_trailing hg hheader htotal hreach hlt (by omega) (by omega))

/-- A new heap of `HEAP_MIN_SIZE` bytes. -/
theorem givesBack_minimal :
    ∃ h, Heap.create (fun _ => 0) 0xC0100000 0xC01F2000 0xCFFFF000 false false = some h ∧
      GivesBack 5000 ⟨h, VirtualMemory.blankMemory⟩ := by
  have hrun : (Heap.create (fun _ => 0) 0xC0100000 0xC01F2000 0xCFFFF000 false false).map
      (fun h => (h.startAddress, h.endAddress, h.length)) =
      some (0xC0182000, 0xC01F2000, heapMinSize) := by
    decide +kernel
  obtain ⟨h, hc, heq⟩ := Option.map_eq_some_iff.1 hrun
  simp only [Prod.mk.injEq] at heq
  obtain ⟨hstart, hend, hlen⟩ := heq
  have hk : GivesBack 5000 ⟨h, VirtualMemory.blankMemory⟩ ↔ h.length = heapMinSize :=
    givesBack_iff (by simp only; omega) (by simp only; omega) (by simp only; rw [hlen]; decide)
      (by simp only; omega) (by simp only; rw [hlen]; decide)
  exact ⟨h, hc, hk.2 hlen⟩

/-- A block of `0x71000` bytes with header and footer, and a small one behind it. -/
def cutCalls : List Call := [.alloc 0x70FEC false, .alloc 100 false]

/-- In a heap of `0x80000` bytes the small block is freed: `contract` is asked for `0x71000`
bytes, leaves `0x70000`, and the heap ends in the middle of the first block. -/
theorem contract_cuts_block :
    ∃ h k k' r, Heap.create (fun _ => 0) 0xC0100000 0xC0202000 0xCFFFF000 false false = some h ∧
      h.length = 0x80000 ∧ execAll cutCalls ⟨h, mappedMemory⟩ = some k ∧
      contract 0x71000 k = some r ∧ r.1 = 0x70000 ∧ free 0xC01F300C k = some k' ∧
      k'.heap.live = [(0xC018200C, 0x70FEC)] ∧ k'.heap.endAddress = 0xC0182000 + 0x70000 := by
  have hrun : ((Heap.create (fun _ => 0) 0xC0100000 0xC0202000 0xCFFFF000 false false).bind
      fun h => (execAll cutCalls ⟨h, mappedMemory⟩).bind fun k =>
        (contract 0x71000 k).bind fun r => (free 0xC01F300C k).map fun k' =>
          (h.length, r.1, k'.heap.live, k'.heap.endAddress)) =
      some (0x80000, 0x70000, [(0xC018200C, 0x70FEC)], 0xC0182000 + 0x70000) := by
    decide +kernel
  obtain ⟨h, hc, hrest⟩ := Option.bind_eq_some_iff.1 hrun
  obtain ⟨k, he, hrest⟩ := Option.bind_eq_some_iff.1 hrest
  obtain ⟨r, hr, hrest⟩ := Option.bind_eq_some_iff.1 hrest
  obtain ⟨k', hf, heq⟩ := Option.map_eq_some_iff.1 hrest
  simp only [Prod.mk.injEq] at heq
  obtain ⟨hlen, hsize, hlive, hend⟩ := heq
  exact ⟨h, k, k', r, hc, hlen, he, hr, hsize, hf, hlive, hend⟩

end Kernel

end Ulysses
