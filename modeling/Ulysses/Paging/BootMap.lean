import Ulysses.Paging.Boot

/-!
# The boot mapping

The loop of `VirtualMemory::init` maps the pages from `KERNEL_VIRTUAL_BASE` on, making page
tables as it goes, and the frames have to come out in order, since the kernel is already
there. Before turn `k` the frames below `k` are taken and every table that was made has its
pages in order (`Linear`); the search for a clear bit then finds `k` (`boot_mapping_linear`).
-/

namespace Ulysses

open Lib

namespace Boot

/-- Where the `j`-th table is made. -/
def tableAddr (b : Boot) (j : Nat) : Nat := (pageAlignUp b.allocp + 4096 * j) % 4294967296

/-- The entry of a page that the loop has mapped. -/
def mappedPage (f : Nat) : Page := { present := true, user := true, frame := f }

/-- From `b₀` on, `t` tables were made and `k` pages mapped. -/
structure Linear (b₀ : Boot) (t k : Nat) (b : Boot) : Prop where
  kernel : b.vmem.kernelDirectory = b₀.vmem.kernelDirectory
  nframes : b.vmem.nframes = b₀.vmem.nframes
  next : pageAlignUp b.allocp = b₀.tableAddr t
  tables : ∀ i, b.vmem.tableAt b₀.vmem.kernelDirectory i =
    if 768 ≤ i ∧ i < 768 + t then some (b₀.tableAddr (i - 768)) else none
  pages : ∀ j < t, ∀ i, b.vmem.page ⟨b₀.tableAddr j, i⟩ =
    if i < 1024 ∧ j * 1024 + i < k then mappedPage (j * 1024 + i) else {}
  others : ∀ e : Entry, (∀ j < t, e.table ≠ b₀.tableAddr j) → b.vmem.page e = b₀.vmem.page e
  frames : ∀ f, b.vmem.frames.test f = decide (f < k)

theorem linear_zero {b : Boot} (hclear : ∀ f, b.vmem.frames.test f = false)
    (hempty : ∀ i, b.vmem.tableAt b.vmem.kernelDirectory i = none) : Linear b 0 0 b where
  kernel := rfl
  nframes := rfl
  next := by
    unfold tableAddr pageAlignUp
    rw [and_pageMask (add32_lt ..)]
    have := add32_lt b.allocp 0xFFF
    omega
  tables i := by rw [hempty, if_neg (by omega)]
  pages _ hj := absurd hj (Nat.not_lt_zero _)
  others _ _ := rfl
  frames f := by simp [hclear]

/-! ## Making a table -/

section

variable {b₀ b : Boot} {t k : Nat}

theorem tableAddr_ne {i j : Nat} (hij : i < j) (hj : j < 1048576) :
    b₀.tableAddr i ≠ b₀.tableAddr j := by
  unfold tableAddr
  omega

/-- The bump pointer is at a page boundary after a table was made. -/
theorem pageAlignUp_tableAddr (b₀ : Boot) (t : Nat) :
    pageAlignUp (add32 (b₀.tableAddr t) pageSize) = b₀.tableAddr (t + 1) := by
  have haligned : pageAlignUp b₀.allocp % 4096 = 0 := by
    unfold pageAlignUp
    rw [and_pageMask (add32_lt ..)]
    exact Nat.mul_mod_left ..
  have hsum : add32 (b₀.tableAddr t) pageSize = b₀.tableAddr (t + 1) := by
    unfold add32 tableAddr pageSize
    omega
  have hlt : b₀.tableAddr (t + 1) < 4294967296 := Nat.mod_lt _ (by decide)
  have hmod : b₀.tableAddr (t + 1) % 4096 = 0 := by
    unfold tableAddr
    omega
  rw [hsum]
  generalize b₀.tableAddr (t + 1) = x at hlt hmod
  unfold pageAlignUp
  rw [and_pageMask (add32_lt ..), add32_eq (by omega)]
  omega

theorem Linear.makeTable (h : Linear b₀ t k b) (ht : t < 1048576) (hk : k ≤ t * 1024)
    (hnull : b₀.tableAddr t ≠ 0) :
    Linear b₀ (t + 1) k (b.makeTable b.vmem.kernelDirectory (768 + t)) := by
  have hpage : ∀ e, (b.makeTable b.vmem.kernelDirectory (768 + t)).vmem.page e =
      if e.table = b₀.tableAddr t then {} else b.vmem.page e := fun e => by
    rw [makeTable_page, h.next]
  refine ⟨?_, ?_, ?_, fun i => ?_, fun j hj i => ?_, fun e he => ?_, ?_⟩
  · rw [makeTable_kernelDirectory, h.kernel]
  · rw [makeTable_nframes, h.nframes]
  · rw [makeTable_allocp, h.next, pageAlignUp_tableAddr]
  · rw [makeTable_tableAt _ _ (h.next ▸ hnull), h.tables, h.next, h.kernel]
    by_cases hi : i = 768 + t
    · rw [if_pos ⟨rfl, hi⟩, if_pos (by omega), hi, Nat.add_sub_cancel_left]
    · rw [if_neg fun hi' => hi hi'.2]
      exact ite_congr (propext (by omega)) (fun _ => rfl) fun _ => rfl
  · rw [hpage]
    by_cases hjt : j = t
    · rw [if_pos (by rw [hjt]), if_neg (by omega)]
    · rw [if_neg (tableAddr_ne (by omega) ht), h.pages j (by omega)]
  · rw [hpage, if_neg (he t (by omega)), h.others e fun j hj => he j (by omega)]
  · rw [makeTable_frames]
    exact h.frames

theorem Linear.getPage (h : Linear b₀ ((k + 1023) / 1024) k b) (hk : k < 262144)
    (hnull : k % 1024 = 0 → b₀.tableAddr (k / 1024) ≠ 0) :
    ∃ b', b.getPage (kernelVirtualBase + k * 4096) true b.vmem.kernelDirectory =
        (some ⟨b₀.tableAddr (k / 1024), k % 1024⟩, b') ∧ Linear b₀ (k / 1024 + 1) k b' := by
  have hnumber : (kernelVirtualBase + k * 4096) / pageSize = 786432 + k := by
    unfold kernelVirtualBase pageSize
    omega
  have hidx : (786432 + k) / 1024 = 768 + k / 1024 := by omega
  have hoff : (786432 + k) % 1024 = k % 1024 := by omega
  have htable := h.tables (768 + k / 1024)
  by_cases hmod : k % 1024 = 0
  · have hcount : (k + 1023) / 1024 = k / 1024 := by omega
    rw [hcount] at h htable
    rw [if_neg (by omega), ← h.kernel] at htable
    rw [getPage_of_none (by rw [hnumber, hidx]; exact htable), hnumber, hidx, hoff, h.next]
    exact ⟨_, rfl, h.makeTable (by omega) (by omega) (hnull hmod)⟩
  · have hcount : (k + 1023) / 1024 = k / 1024 + 1 := by omega
    rw [hcount] at h htable
    rw [if_pos (by omega), ← h.kernel, Nat.add_sub_cancel_left] at htable
    rw [getPage_of_some (by rw [hnumber, hidx]; exact htable), hnumber, hoff]
    exact ⟨b, rfl, h⟩

/-! ## Taking a frame -/

theorem Linear.allocFrame (h : Linear b₀ (k / 1024 + 1) k b) (hk : k < 262144)
    (hframe : k < 32 * (b₀.vmem.nframes / 32)) :
    ∃ vmem, b.vmem.allocFrame ⟨b₀.tableAddr (k / 1024), k % 1024⟩ false false = some vmem ∧
      Linear b₀ (k / 1024 + 1) (k + 1) { b with vmem } := by
  have hblank : b.vmem.page ⟨b₀.tableAddr (k / 1024), k % 1024⟩ = {} := by
    rw [h.pages _ (by omega), if_neg (by omega)]
  have hfirst : b.vmem.firstFrame = some k := by
    refine Bitmap.firstClear_eq (by rw [h.nframes]; omega) (fun g hg => ?_) ?_
    · rw [h.frames]
      exact decide_eq_true hg
    · rw [h.frames]
      exact decide_eq_false (Nat.lt_irrefl k)
  have halloc : ∃ vmem, b.vmem.allocFrame ⟨b₀.tableAddr (k / 1024), k % 1024⟩ false false =
      some vmem := by
    unfold VirtualMemory.allocFrame
    rw [hblank, hfirst]
    exact ⟨_, rfl⟩
  obtain ⟨vmem, hvmem⟩ := halloc
  refine ⟨vmem, hvmem, ?_⟩
  obtain ⟨hframes, -, hnframes, hpages⟩ :=
    VirtualMemory.allocFrame_of_firstFrame hfirst (by omega) (by rw [hblank]) hvmem
  have hspaces := VirtualMemory.allocFrame_sameSpaces hvmem
  have hassign : (b.vmem.page ⟨b₀.tableAddr (k / 1024), k % 1024⟩).assign k false false =
      mappedPage k := by
    rw [hblank, Page.assign, Nat.mod_eq_of_lt (by omega)]
    rfl
  rw [hassign] at hpages
  refine ⟨hspaces.2.1.trans h.kernel, hnframes.trans h.nframes, h.next,
    fun i => (hspaces.tableAt _ i).trans (h.tables i), fun j hj i => ?_, fun e he => ?_,
    fun f => ?_⟩
  · rw [hpages]
    by_cases heq : j = k / 1024 ∧ i = k % 1024
    · obtain ⟨rfl, rfl⟩ := heq
      rw [if_pos rfl, if_pos (by omega), Nat.div_add_mod']
    · have hne : (⟨b₀.tableAddr j, i⟩ : Entry) ≠ ⟨b₀.tableAddr (k / 1024), k % 1024⟩ := by
        rintro hsame
        obtain ⟨haddr, rfl⟩ := Entry.mk.inj hsame
        by_cases hjk : j = k / 1024
        · exact heq ⟨hjk, rfl⟩
        · exact tableAddr_ne (by omega) (by omega) haddr
      rw [if_neg hne, h.pages j hj]
      exact ite_congr (propext (by omega)) (fun _ => rfl) fun _ => rfl
  · rw [hpages, if_neg fun heq => he (k / 1024) (by omega) (by rw [heq]), h.others e he]
  · rw [hframes, h.frames, ← Bool.decide_or]
    exact decide_eq_decide.2 (by omega)

theorem Linear.mapPage (h : Linear b₀ ((k + 1023) / 1024) k b) (hk : k < 262144)
    (hframe : k < 32 * (b₀.vmem.nframes / 32))
    (hnull : k % 1024 = 0 → b₀.tableAddr (k / 1024) ≠ 0) :
    ∃ b', b.mapPage (kernelVirtualBase + k * 4096) = some b' ∧
      Linear b₀ ((k + 1 + 1023) / 1024) (k + 1) b' := by
  obtain ⟨b₁, hget, h₁⟩ := h.getPage hk hnull
  obtain ⟨vmem, halloc, h₂⟩ := h₁.allocFrame hk hframe
  refine ⟨{ b₁ with vmem }, ?_, ?_⟩
  · unfold Boot.mapPage
    rw [hget]
    simp only [Option.bind_some, halloc, Option.map_some]
  · have hcount : (k + 1 + 1023) / 1024 = k / 1024 + 1 := by omega
    rw [hcount]
    exact h₂

/-! ## The loop -/

/-- The loop runs over `n` pages up to `heapEnd`, and its counter does not pass the end of
memory. -/
structure Pages (heapEnd n : Nat) : Prop where
  below : ∀ k < n, kernelVirtualBase + k * 4096 < heapEnd
  stops : heapEnd ≤ kernelVirtualBase + n * 4096
  fits : kernelVirtualBase + n * 4096 < 4294967296

theorem Linear.mapLoop {heapEnd n : Nat} (hpages : Pages heapEnd n)
    (hframes : n ≤ 32 * (b₀.vmem.nframes / 32))
    (hnull : ∀ j, j * 1024 < n → b₀.tableAddr j ≠ 0) {m : Nat} (hkm : k + m = n)
    (h : Linear b₀ ((k + 1023) / 1024) k b) :
    ∃ b', (∀ fuel, m ≤ fuel →
        mapLoop heapEnd fuel (kernelVirtualBase + k * 4096) b = some b') ∧
      Linear b₀ ((n + 1023) / 1024) n b' := by
  have hfits := hpages.fits
  unfold kernelVirtualBase at hfits
  induction m generalizing k b with
  | zero =>
    obtain rfl : k = n := by omega
    refine ⟨b, fun fuel _ => ?_, h⟩
    cases fuel with
    | zero => exact if_neg (Nat.not_lt.2 hpages.stops)
    | succ fuel => exact if_neg (Nat.not_lt.2 hpages.stops)
  | succ m ih =>
    obtain ⟨b₁, hmap, h₁⟩ := h.mapPage (by omega) (by omega) fun hmod =>
      hnull (k / 1024) (by omega)
    obtain ⟨b', hloop, hlinear⟩ := ih (k := k + 1) (by omega) h₁
    refine ⟨b', fun fuel hfuel => ?_, hlinear⟩
    obtain ⟨fuel, rfl⟩ : ∃ fuel', fuel = fuel' + 1 := ⟨fuel - 1, by omega⟩
    have hnext : add32 (kernelVirtualBase + k * 4096) pageSize =
        kernelVirtualBase + (k + 1) * 4096 := by
      unfold kernelVirtualBase pageSize
      rw [add32_eq (by omega)]
      omega
    rw [Boot.mapLoop, if_pos (hpages.below k (by omega)), hmap, Option.bind_some, hnext]
    exact hloop fuel (by omega)

theorem Linear.getKernelPage (h : Linear b₀ t k b) (address : Nat) :
    (b.vmem.getKernelPage address false (0, 0)).1 =
      if 768 ≤ address / pageSize / 1024 ∧ address / pageSize / 1024 < 768 + t then
        some ⟨b₀.tableAddr (address / pageSize / 1024 - 768), address / pageSize % 1024⟩
      else none := by
  rw [VirtualMemory.getKernelPage_false, h.kernel, h.tables]
  split
  · rfl
  · rfl

/-- Page `i` of the mapping is entry `i % 1024` of table `i / 1024`. -/
theorem Linear.entry (h : Linear b₀ t k b) {i : Nat} (hi : i / 1024 < t) :
    (b.vmem.getKernelPage (kernelVirtualBase + i * 0x1000) false (0, 0)).1 =
      some ⟨b₀.tableAddr (i / 1024), i % 1024⟩ := by
  have hnumber : (kernelVirtualBase + i * 4096) / pageSize = 786432 + i := by
    unfold kernelVirtualBase pageSize
    omega
  have hidx : (786432 + i) / 1024 - 768 = i / 1024 := by omega
  have hoff : (786432 + i) % 1024 = i % 1024 := by omega
  rw [h.getKernelPage, hnumber, if_pos (by omega), hidx, hoff]

end

/-- With the bitmap clear and the kernel's directory empty, the loop ends, page `k` has the
frame `k`, the frames below the number of pages are taken, and no other entry is assigned. -/
theorem boot_mapping_linear {heapEnd n : Nat} {b : Boot}
    (hclear : ∀ f, b.vmem.frames.test f = false)
    (hempty : ∀ i, b.vmem.tableAt b.vmem.kernelDirectory i = none) (hpages : Pages heapEnd n)
    (hframes : n ≤ 32 * (b.vmem.nframes / 32))
    (hnull : ∀ j, j * 1024 < n → b.tableAddr j ≠ 0) :
    ∃ b', (∀ fuel, n ≤ fuel → mapLoop heapEnd fuel kernelVirtualBase b = some b') ∧
      (∀ k < n, ∃ e,
        (b'.vmem.getKernelPage (kernelVirtualBase + k * 0x1000) false (0, 0)).1 = some e ∧
          (b'.vmem.page e).present = true ∧ (b'.vmem.page e).frame = k) ∧
      (∀ f, b'.vmem.frames.test f = decide (f < n)) ∧
      (∀ address e, (b'.vmem.getKernelPage address false (0, 0)).1 = some e →
        (∀ k < n, address / pageSize ≠ kernelVirtualBase / pageSize + k) →
          b'.vmem.page e = {}) ∧
      ∀ e, (∀ k < n,
          (b'.vmem.getKernelPage (kernelVirtualBase + k * 0x1000) false (0, 0)).1 ≠ some e) →
        b'.vmem.page e = b.vmem.page e ∨ b'.vmem.page e = {} := by
  obtain ⟨b', hloop, h⟩ := (linear_zero hclear hempty).mapLoop hpages hframes hnull (Nat.zero_add n)
  have hbase : kernelVirtualBase / pageSize = 786432 := by decide
  refine ⟨b', hloop, fun k hk => ?_, h.frames, fun address e he hother => ?_, fun e he => ?_⟩
  · refine ⟨_, h.entry (by omega), ?_⟩
    rw [h.pages _ (by omega), if_pos (by omega), Nat.div_add_mod']
    exact ⟨rfl, rfl⟩
  · rw [h.getKernelPage] at he
    split at he
    · next hin =>
      obtain rfl := Option.some.inj he
      rw [h.pages _ (by omega), if_neg]
      intro hlt
      exact hother _ hlt.2 (by omega)
    · cases he
  · by_cases hmade : ∃ j < (n + 1023) / 1024, e.table = b.tableAddr j
    · obtain ⟨j, hj, htable⟩ := hmade
      obtain ⟨table, i⟩ := e
      obtain rfl : table = b.tableAddr j := htable
      rw [h.pages j hj]
      split
      · next hin =>
        refine absurd (h.entry (show (j * 1024 + i) / 1024 < _ by omega)) ?_
        have hdiv : (j * 1024 + i) / 1024 = j := by omega
        have hmod : (j * 1024 + i) % 1024 = i := by omega
        rw [hdiv, hmod]
        exact he _ hin.2
      · exact .inr rfl
    · exact .inl (h.others e fun j hj heq => hmade ⟨j, hj, heq⟩)

/-- Three pages on a machine with 32 frames. -/
theorem boot_mapping_linear_three :
    ∃ b', mapLoop 0xC0002800 3 kernelVirtualBase ⟨0xC0150004, 0, .blankMemory, [], []⟩ = some b' ∧
      b'.vmem.frames.test 2 = true ∧ b'.vmem.frames.test 3 = false := by
  have hclear : ∀ f, VirtualMemory.blankMemory.frames.test f = false := fun f => by
    simp [VirtualMemory.blankMemory, Bitmap.test]
  obtain ⟨b', hloop, -, hframes, -⟩ := boot_mapping_linear (n := 3)
    (b := ⟨0xC0150004, 0, .blankMemory, [], []⟩) hclear (fun _ => rfl)
    (⟨by decide, by decide, by decide⟩ : Pages 0xC0002800 3) (by decide) fun j hj => by
      obtain rfl : j = 0 := by omega
      decide
  exact ⟨b', hloop 3 (Nat.le_refl 3), by rw [hframes]; rfl, by rw [hframes]; rfl⟩

end Boot

end Ulysses
