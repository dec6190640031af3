import Ulysses.Lib.Tiling
import Ulysses.KHeap.Basic

/-!
# What a heap looks like

`Layout h gs`: the segments `gs` tile `[start_address, end_address)`, each with
its header in memory; the index lists the headers of the holes, each once; the
live pointers are those of the blocks, and each block has room for what was asked
for and its header and footer.

An operation of the heap replaces a run of neighbouring segments by another run
over the same bytes and writes nowhere else. `Segments.replace` is the one lemma
about that, and `Layout.of_segments` adds the live pointers to it; the modules on `alloc`
and `free` say which run becomes which.
-/

namespace Ulysses

open Lib

/-! ## Headers and footers in memory -/

/-- The header of a segment; the tag says whether it is a hole. -/
def HeaderAt (m : Bytes) (g : Seg Bool) : Prop :=
  magicAt m g.addr = heapMagic ∧ isHoleAt m g.addr = (if g.tag then 1 else 0) ∧
    sizeAt m g.addr = g.size

/-- The footer of a segment. -/
def FooterAt (m : Bytes) (g : Seg Bool) : Prop :=
  magicAt m (g.addr + g.size - 8) = heapMagic ∧ hdrAt m (g.addr + g.size - 8) = g.addr

section Bytes

open Bytes

variable {m m' : Bytes} {lo hi : Nat}

theorem putHeader_agree (m : Bytes) (a : Nat) (i : UInt8) (s : Nat) :
    AgreeOff a (a + 12) m (putHeader m a i s) :=
  (((AgreeOff.refl a (a + 12) m).write32 _ (by omega) (by omega)).write8 _ (by omega)
    (by omega)).write32 _ (by omega) (by omega)

theorem putFooter_agree (m : Bytes) (a hdr : Nat) : AgreeOff a (a + 8) m (putFooter m a hdr) :=
  ((AgreeOff.refl a (a + 8) m).write32 _ (by omega) (by omega)).write32 _ (by omega) (by omega)

theorem putSize_agree (m : Bytes) (a s : Nat) : AgreeOff (a + 8) (a + 12) m (putSize m a s) :=
  (AgreeOff.refl (a + 8) (a + 12) m).write32 _ (by omega) (by omega)

theorem magicAt_agree (h : AgreeOff lo hi m m') {a : Nat} (ha : a + 4 ≤ lo ∨ hi ≤ a) :
    magicAt m' a = magicAt m a := h.read32 ha

theorem isHoleAt_agree (h : AgreeOff lo hi m m') {a : Nat} (ha : a + 4 < lo ∨ hi ≤ a + 4) :
    isHoleAt m' a = isHoleAt m a := h _ ha

theorem sizeAt_agree (h : AgreeOff lo hi m m') {a : Nat} (ha : a + 12 ≤ lo ∨ hi ≤ a + 8) :
    sizeAt m' a = sizeAt m a := h.read32 (by omega)

theorem hdrAt_agree (h : AgreeOff lo hi m m') {a : Nat} (ha : a + 8 ≤ lo ∨ hi ≤ a + 4) :
    hdrAt m' a = hdrAt m a := h.read32 (by omega)

theorem HeaderAt.agree {g : Seg Bool} (hg : HeaderAt m g) (h : AgreeOff lo hi m m')
    (ha : g.addr + 12 ≤ lo ∨ hi ≤ g.addr) : HeaderAt m' g :=
  ⟨(magicAt_agree h (by omega)).trans hg.1, (isHoleAt_agree h (by omega)).trans hg.2.1,
    (sizeAt_agree h (by omega)).trans hg.2.2⟩

theorem FooterAt.agree {g : Seg Bool} (hg : FooterAt m g) (h : AgreeOff lo hi m m')
    (hs : 8 ≤ g.addr + g.size) (ha : g.addr + g.size ≤ lo ∨ hi + 8 ≤ g.addr + g.size) :
    FooterAt m' g :=
  ⟨(magicAt_agree h (by omega)).trans hg.1, (hdrAt_agree h (by omega)).trans hg.2⟩

theorem headerAt_putHeader (m : Bytes) (a : Nat) (tag : Bool) {s : Nat} (hs : s < 4294967296) :
    HeaderAt (putHeader m a (if tag then 1 else 0) s) ⟨a, s, tag⟩ := by
  refine ⟨?_, ?_, ?_⟩
  · unfold magicAt putHeader
    rw [read32_write32_off _ _ (by simp only; omega), read32_write8_off _ _ (by simp only; omega)]
    exact read32_write32_same _ _ (by decide)
  · unfold isHoleAt putHeader
    rw [write32_off _ _ (by simp only; omega), write8_same]
  · exact read32_write32_same _ _ hs

theorem HeaderAt.putSize {a s : Nat} {tag : Bool} (hg : HeaderAt m ⟨a, s, tag⟩) {s' : Nat}
    (hs : s' < 4294967296) : HeaderAt (putSize m a s') ⟨a, s', tag⟩ := by
  have hagree := putSize_agree m a s'
  refine ⟨?_, ?_, read32_write32_same _ _ hs⟩
  · exact (magicAt_agree hagree (by simp only; omega)).trans hg.1
  · exact (isHoleAt_agree hagree (by simp only; omega)).trans hg.2.1

theorem footerAt_putFooter (m : Bytes) {g : Seg Bool} (ha : g.addr < 4294967296) {f : Nat}
    (hf : f = g.addr + g.size - 8) : FooterAt (putFooter m f g.addr) g := by
  subst hf
  refine ⟨?_, read32_write32_same _ _ ha⟩
  unfold magicAt putFooter
  rw [read32_write32_off _ _ (by omega)]
  exact read32_write32_same _ _ (by decide)

end Bytes

/-! ## Segments and the index -/

/-- There is room for one more entry of the index: `create` leaves the page behind the array to
nobody, and the heap begins behind that page. -/
def Heap.IndexRoom (h : Heap) : Prop := h.index.size < h.index.maxSize + 1024

/-- The segments tile the heap, each with its header, and the index lists the holes. -/
structure Segments (h : Heap) (gs : List (Seg Bool)) : Prop where
  tiles : Tiles 20 h.startAddress gs h.endAddress
  end_lt : h.endAddress < 4294967296
  header : ∀ g ∈ gs, HeaderAt h.mem g
  index_nodup : h.index.toList.Nodup
  mem_index : ∀ c, c ∈ h.index.toList ↔ ∃ g ∈ gs, g.tag = true ∧ g.addr = c

namespace Segments

variable {h h' : Heap} {gs : List (Seg Bool)}

theorem bounds (hs : Segments h gs) {g : Seg Bool} (hg : g ∈ gs) :
    h.startAddress ≤ g.addr ∧ 20 ≤ g.size ∧ g.addr + g.size ≤ h.endAddress ∧
      h.endAddress < 4294967296 :=
  ⟨(hs.tiles.bounds hg).1, (hs.tiles.bounds hg).2.1, (hs.tiles.bounds hg).2.2, hs.end_lt⟩

theorem eq_of_addr (hs : Segments h gs) {g g' : Seg Bool} (hg : g ∈ gs) (hg' : g' ∈ gs)
    (ha : g.addr = g'.addr) : g = g' := hs.tiles.eq_of_addr (by omega) hg hg' ha

variable {mid xs ys : List (Seg Bool)}

theorem run (hs : Segments h (xs ++ mid ++ ys)) :
    ∃ a b, Tiles 20 h.startAddress xs a ∧ Tiles 20 a mid b ∧ Tiles 20 b ys h.endAddress := by
  obtain ⟨b, hxm, hy⟩ := tiles_append.1 hs.tiles
  obtain ⟨a, hx, hm⟩ := tiles_append.1 hxm
  exact ⟨a, b, hx, hm, hy⟩

theorem mem_run (hs : Segments h (xs ++ mid ++ ys)) {a b : Nat} (hx : Tiles 20 h.startAddress xs a)
    (hy : Tiles 20 b ys h.endAddress) {g : Seg Bool} (hg : g ∈ xs ++ mid ++ ys) (ha : a ≤ g.addr)
    (hb : g.addr < b) : g ∈ mid := by
  have h20 := (hs.bounds hg).2.1
  rcases List.mem_append.1 hg with hg | hg
  · rcases List.mem_append.1 hg with hg | hg
    · have := hx.bounds hg
      omega
    · exact hg
  · have := hy.bounds hg
    omega

theorem index_run (hs : Segments h (xs ++ mid ++ ys)) {a b : Nat}
    (hx : Tiles 20 h.startAddress xs a) (hy : Tiles 20 b ys h.endAddress) {c : Nat}
    (hc : c ∈ h.index.toList) (ha : a ≤ c) (hb : c < b) : ∃ g ∈ mid, g.tag = true ∧ g.addr = c := by
  obtain ⟨g, hg, ht, rfl⟩ := (hs.mem_index c).1 hc
  exact ⟨g, hs.mem_run hx hy hg ha hb, ht, rfl⟩

/-- The other entries are headers before or behind the run. -/
theorem index_apart (hs : Segments h (xs ++ mid ++ ys)) {a b : Nat}
    (hx : Tiles 20 h.startAddress xs a) (hy : Tiles 20 b ys h.endAddress) {c : Nat}
    (hc : c ∈ h.index.toList) (hmid : ∀ g ∈ mid, g.tag = true → g.addr ≠ c) :
    c + 20 ≤ a ∨ b ≤ c ∧ c + 20 ≤ h.endAddress := by
  obtain ⟨g, hg, ht, rfl⟩ := (hs.mem_index c).1 hc
  simp only [List.mem_append] at hg
  rcases hg with (hg | hg) | hg
  · have := hx.bounds hg
    omega
  · exact absurd rfl (hmid g hg ht)
  · have := hy.bounds hg
    omega

theorem run_singleton {g : Seg Bool} (hs : Segments h (xs ++ [g] ++ ys)) :
    Tiles 20 h.startAddress xs g.addr ∧ Tiles 20 (g.addr + g.size) ys h.endAddress := by
  obtain ⟨a, b, hx, hmid, hy⟩ := hs.run
  obtain ⟨rfl, -, rfl⟩ := tiles_singleton.1 hmid
  exact ⟨hx, hy⟩

/-- The other holes lie beside a hole. -/
theorem index_apart_hole {pos s c : Nat} (hs : Segments h (xs ++ [⟨pos, s, true⟩] ++ ys))
    (hc : c ∈ h.index.toList) (hne : c ≠ pos) :
    c + 20 ≤ pos ∨ pos + s ≤ c ∧ c + 20 ≤ h.endAddress := by
  obtain ⟨hx, hy⟩ := hs.run_singleton
  refine hs.index_apart hx hy hc fun g hg _ heq => hne ?_
  rw [← heq, List.mem_singleton.1 hg]

/-- Of the addresses in a hole the index lists the first one. -/
theorem index_hole {pos s c : Nat} (hs : Segments h (xs ++ [⟨pos, s, true⟩] ++ ys))
    (hc : c ∈ h.index.toList) (h₁ : pos ≤ c) (h₂ : c < pos + s) : c = pos := by
  obtain ⟨hx, hy⟩ := hs.run_singleton
  obtain ⟨g, hg, -, rfl⟩ := hs.index_run hx hy hc h₁ h₂
  rw [List.mem_singleton.1 hg]

theorem hole (hs : Segments h gs) {pos : Nat} (hpos : pos ∈ h.index.toList) :
    ∃ xs ys, gs = xs ++ [⟨pos, sizeAt h.mem pos, true⟩] ++ ys := by
  obtain ⟨g, hg, ht, ha⟩ := (hs.mem_index pos).1 hpos
  obtain ⟨xs, ys, heq⟩ := List.append_of_mem hg
  have hsize : g = ⟨pos, sizeAt h.mem pos, true⟩ := by
    obtain ⟨addr, size, tag⟩ := g
    simp only at ht ha
    subst ht ha
    rw [(hs.header _ hg).2.2]
  exact ⟨xs, ys, by simp [heq, hsize]⟩

theorem index_bounds (hs : Segments h gs) {pos : Nat} (hpos : pos ∈ h.index.toList) :
    h.startAddress ≤ pos ∧ 20 ≤ sizeAt h.mem pos ∧ pos + sizeAt h.mem pos ≤ h.endAddress ∧
      h.endAddress < 4294967296 := by
  obtain ⟨xs, ys, rfl⟩ := hs.hole hpos
  exact hs.bounds (g := ⟨pos, sizeAt h.mem pos, true⟩) (by simp)

/-- **Replacing a run of segments.** The segments `mid` become `mid'`, which tile
`[a, b)`; memory changes in `[a, b)` only, and so does the index. The end of the heap may
move when `mid` was its last run. -/
theorem replace {mid' : List (Seg Bool)} (hs : Segments h (xs ++ mid ++ ys)) {a b : Nat}
    (hx : Tiles 20 h.startAddress xs a) (hmid : ∀ g ∈ mid, a ≤ g.addr ∧ g.addr < b)
    (hmid' : Tiles 20 a mid' b) (hy : Tiles 20 b ys h'.endAddress)
    (hstart : h'.startAddress = h.startAddress) (hend : h'.endAddress < 4294967296)
    (hmem : Bytes.AgreeOff a b h.mem h'.mem) (hheader : ∀ g ∈ mid', HeaderAt h'.mem g)
    (hnodup : h'.index.toList.Nodup)
    (hout : ∀ c, c < a ∨ b ≤ c → (c ∈ h'.index.toList ↔ c ∈ h.index.toList))
    (hin : ∀ c, a ≤ c → c < b → (c ∈ h'.index.toList ↔ ∃ g ∈ mid', g.tag = true ∧ g.addr = c)) :
    Segments h' (xs ++ mid' ++ ys) := by
  refine ⟨?_, hend, ?_, hnodup, ?_⟩
  · rw [hstart, tiles_append]
    exact ⟨b, tiles_append.2 ⟨a, hx, hmid'⟩, hy⟩
  · intro g hg
    simp only [List.mem_append] at hg
    rcases hg with (hg | hg) | hg
    · have := hx.bounds hg
      exact (hs.header g (by simp [hg])).agree hmem (by omega)
    · exact hheader g hg
    · exact (hs.header g (by simp [hg])).agree hmem (.inr (hy.bounds hg).1)
  · exact Tiles.replace_iff (d := 0) (by decide) hx hmid hmid' hy hs.mem_index hout hin

end Segments

/-! ## The layout -/

structure Layout (h : Heap) (gs : List (Seg Bool)) : Prop extends Segments h gs where
  live_nodup : (h.live.map Prod.fst).Nodup
  mem_live : ∀ p, (∃ n, (p, n) ∈ h.live) ↔ ∃ g ∈ gs, g.tag = false ∧ g.addr + 12 = p
  room : ∀ p n g, (p, n) ∈ h.live → g ∈ gs → g.addr + 12 = p → n + 20 ≤ g.size

namespace Layout

variable {h h' : Heap} {gs : List (Seg Bool)}

theorem of_live (hl : Layout h gs) {p n : Nat} (hp : (p, n) ∈ h.live) :
    ∃ g ∈ gs, g.tag = false ∧ g.addr + 12 = p ∧ n + 20 ≤ g.size := by
  obtain ⟨g, hg, ht, ha⟩ := (hl.mem_live p).1 ⟨n, hp⟩
  exact ⟨g, hg, ht, ha, hl.room p n g hp hg ha⟩

/-- Bytes that no segment's header lies in may change. -/
theorem congr_mem (hl : Layout h gs) {m : Bytes} (hm : ∀ g ∈ gs, HeaderAt m g) :
    Layout { h with mem := m } gs :=
  ⟨⟨hl.tiles, hl.end_lt, hm, hl.index_nodup, hl.mem_index⟩, hl.live_nodup, hl.mem_live, hl.room⟩

theorem write (hl : Layout h gs) {p n : Nat} (hp : (p, n) ∈ h.live) {m : Bytes}
    (hm : Bytes.AgreeOff p (p + n) h.mem m) : Layout { h with mem := m } gs := by
  obtain ⟨g, hg, -, ha, hn⟩ := hl.of_live hp
  refine hl.congr_mem fun g' hg' => (hl.header g' hg').agree hm ?_
  have hb' := hl.bounds hg'
  by_cases hgg : g = g'
  · subst hgg
    omega
  · have := hl.tiles.disjoint hg hg' hgg
    omega

/-- Memory outside the heap is not the heap's. -/
theorem outside (hl : Layout h gs) {m : Bytes}
    (hm : ∀ x, h.startAddress ≤ x → x < h.endAddress → m x = h.mem x) :
    Layout { h with mem := m } gs := by
  refine hl.congr_mem fun g hg => ?_
  have hb := hl.bounds hg
  have hr : ∀ b, g.addr ≤ b → b + 4 ≤ g.addr + g.size → m.read32 b = h.mem.read32 b :=
    fun b h₁ h₂ => Bytes.read32_congr fun x h₃ h₄ => hm x (by omega) (by omega)
  obtain ⟨h₁, h₂, h₃⟩ := hl.header g hg
  exact ⟨(hr _ (by omega) (by omega)).trans h₁, (hm _ (by omega) (by omega)).trans h₂,
    (hr _ (by omega) (by omega)).trans h₃⟩

variable {xs ys : List (Seg Bool)}

theorem live_run {mid : List (Seg Bool)} (hl : Layout h (xs ++ mid ++ ys)) {a b : Nat}
    (hx : Tiles 20 h.startAddress xs a) (hy : Tiles 20 b ys h.endAddress) {p n : Nat}
    (hp : (p, n) ∈ h.live) (ha : a + 12 ≤ p) (hb : p < b + 12) :
    ∃ g ∈ mid, g.tag = false ∧ g.addr + 12 = p := by
  obtain ⟨g, hg, ht, rfl, -⟩ := hl.of_live hp
  exact ⟨g, hl.mem_run hx hy hg (by omega) (by omega), ht, rfl⟩

theorem live_hole {pos s p n : Nat} (hl : Layout h (xs ++ [⟨pos, s, true⟩] ++ ys))
    (h₁ : pos + 12 ≤ p) (h₂ : p < pos + s + 12) : (p, n) ∉ h.live := by
  intro hpn
  obtain ⟨hx, hy⟩ := hl.run_singleton
  obtain ⟨g, hg, ht, -⟩ := hl.live_run hx hy hpn h₁ h₂
  rw [List.mem_singleton.1 hg] at ht
  cases ht

/-- A run of segments was replaced; what is left to say is what became of the live
pointers. -/
theorem of_segments {mid mid' : List (Seg Bool)} (hl : Layout h (xs ++ mid ++ ys)) {a b : Nat}
    (hx : Tiles 20 h.startAddress xs a) (hmid : ∀ g ∈ mid, a ≤ g.addr ∧ g.addr < b)
    (hmid' : Tiles 20 a mid' b) (hy : Tiles 20 b ys h'.endAddress)
    (hs : Segments h' (xs ++ mid' ++ ys)) (hlnodup : (h'.live.map Prod.fst).Nodup)
    (hlout : ∀ p n, p < a + 12 ∨ b + 12 ≤ p → ((p, n) ∈ h'.live ↔ (p, n) ∈ h.live))
    (hlin : ∀ p, a + 12 ≤ p → p < b + 12 →
      ((∃ n, (p, n) ∈ h'.live) ↔ ∃ g ∈ mid', g.tag = false ∧ g.addr + 12 = p))
    (hroom : ∀ p n g, (p, n) ∈ h'.live → g ∈ mid' → g.addr + 12 = p → n + 20 ≤ g.size) :
    Layout h' (xs ++ mid' ++ ys) := by
  refine ⟨hs, hlnodup, ?_, ?_⟩
  · exact Tiles.replace_iff (by decide) hx hmid hmid' hy hl.mem_live
      (fun p hp => exists_congr fun n => hlout p n hp) hlin
  · intro p n g hp hg ha
    simp only [List.mem_append] at hg
    rcases hg with (hg | hg) | hg
    · have := hx.bounds hg
      exact hl.room p n g ((hlout p n (by omega)).1 hp) (by simp [hg]) ha
    · exact hroom p n g hp hg ha
    · have := hy.bounds hg
      exact hl.room p n g ((hlout p n (by omega)).1 hp) (by simp [hg]) ha

/-- The last hole of the heap ends at a new end of the heap, further up or down. -/
theorem resizeLast {pos s endAddress : Nat} (hl : Layout h (xs ++ [⟨pos, s, true⟩] ++ ys))
    (hlast : pos + s = h.endAddress) (hmin : pos + 20 ≤ endAddress) (hlt : endAddress < 4294967296)
    {m : Bytes} (hm : Bytes.AgreeOff pos endAddress h.mem m)
    (hheader : HeaderAt m ⟨pos, endAddress - pos, true⟩) :
    Layout { h with mem := m, endAddress := endAddress }
      (xs ++ [⟨pos, endAddress - pos, true⟩] ++ []) := by
  obtain ⟨hx, hy⟩ := hl.run_singleton
  simp only at hx hy
  -- nothing comes after the hole
  have hys : ys = [] := by
    cases ys with
    | nil => rfl
    | cons g ys =>
      have := hy.bounds (g := g) (by simp)
      omega
  subst hys
  have hmid' : Tiles 20 pos [⟨pos, endAddress - pos, true⟩] endAddress :=
    tiles_singleton.2 ⟨rfl, by simp only; omega, by simp only; omega⟩
  have hin : ∀ c, pos ≤ c → c ∈ h.index.toList → c = pos := by
    intro c h₁ hc
    obtain ⟨g, hg, -, rfl⟩ := (hl.mem_index c).1 hc
    have hgb := hl.bounds hg
    exact hl.index_hole hc h₁ (by omega)
  have hlive : ∀ p n, pos + 12 ≤ p → (p, n) ∉ h.live := by
    intro p n h₁ hpn
    obtain ⟨g, hg, -, rfl, -⟩ := hl.of_live hpn
    have hgb := hl.bounds hg
    exact hl.live_hole h₁ (by omega) hpn
  have hpos : pos ∈ h.index.toList := (hl.mem_index pos).2 ⟨⟨pos, s, true⟩, by simp, rfl, rfl⟩
  have hmid : ∀ g ∈ [(⟨pos, s, true⟩ : Seg Bool)], pos ≤ g.addr ∧ g.addr < endAddress := by
    intro g hg
    rw [List.mem_singleton.1 hg]
    exact ⟨Nat.le_refl _, by simp only; omega⟩
  refine hl.of_segments hx hmid hmid' rfl (hl.toSegments.replace hx hmid hmid' rfl rfl hlt hm ?_
    hl.index_nodup ?_ ?_) hl.live_nodup ?_ ?_ ?_
  · intro g hg
    rw [List.mem_singleton.1 hg]
    exact hheader
  · intro c _
    exact Iff.rfl
  · intro c h₁ _
    simp only [List.mem_singleton, exists_eq_left, true_and]
    constructor
    · intro hc
      exact (hin c h₁ hc).symm
    · rintro rfl
      exact hpos
  · intro p n _
    exact Iff.rfl
  · intro p h₁ _
    simp only [List.mem_singleton, exists_eq_left, Bool.true_eq_false, false_and, iff_false]
    rintro ⟨n, hn⟩
    exact hlive p n h₁ hn
  · intro p n g hp hg hga
    rw [List.mem_singleton.1 hg] at hga
    simp only at hga
    exact absurd hp (hlive p n (by omega))

end Layout

end Ulysses
