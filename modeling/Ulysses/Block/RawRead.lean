import Ulysses.Block.Device

/-!
# Raw reads

`Device::read_bytes` of `block.cpp`: the rest of the first region, then region after region.
Whether the read ends in the first region is decided by its size alone, so that a short read
across the end of a region copies what lies behind the buffer (`readBytes_exact_iff`).
-/

namespace Ulysses

open Lib Bytes

/-- A `memcpy` of `count` bytes from `data() + off` of the buffer of one region. -/
structure RegionCopy where
  region : Nat
  off : Nat
  count : Nat

/-- All bytes of the copy lie in a buffer of 1024 bytes. -/
def RegionCopy.Inside (c : RegionCopy) : Prop := c.off + c.count ≤ 1024

/-- What `read_bytes` works on, with the copies it made. -/
structure RawRead where
  device : BlockDevice
  memory : Bytes
  copies : List RegionCopy

namespace RawRead

variable (disk : Disk)

/-- `buffer->data()` after `wait`. -/
def dataOf (device : BlockDevice) (buffer : Nat) : Bytes :=
  match device.rangeOf buffer with
  | some range => disk.data range
  | none => fun _ => 0

/-- A request for one region, and the `memcpy` from its buffer. -/
def copyRegion (region off count out : Nat) (t : RawRead) : RawRead :=
  let r := t.device.request ⟨region, 1⟩
  { device := r.2
    memory := t.memory.fill out count fun i => dataOf disk r.2 r.1 (off + i)
    copies := t.copies ++ [⟨region, off, count⟩] }

/-- The loop of `read_bytes`. Without fuel there is no result. -/
def readLoop : Nat → Nat → Nat → Nat → RawRead → Option RawRead
  | _, _, 0, _, t => some t
  | 0, _, _ + 1, _, _ => none
  | fuel + 1, curRegion, left + 1, out, t =>
    let curRegion := add32 curRegion 1
    if left + 1 > 1024 then
      readLoop fuel curRegion (sub32 (left + 1) 1024) (add32 out 1024)
        (t.copyRegion disk curRegion 0 1024 out)
    else readLoop fuel curRegion 0 out (t.copyRegion disk curRegion 0 (left + 1) out)

def readBytes (offset size out : Nat) (t : RawRead) : Option (Nat × RawRead) :=
  let curRegion := offset / 1024
  let initialOffset := offset % 1024
  if size > 1024 then
    let copyBytes := sub32 1024 initialOffset
    (readLoop disk size curRegion (sub32 size copyBytes) (add32 out copyBytes)
      (t.copyRegion disk curRegion initialOffset copyBytes out)).map fun t => (size, t)
  else some (size, t.copyRegion disk curRegion initialOffset size out)

variable {disk} {t : RawRead}

theorem numBytes_region (region : Nat) : RegionRange.numBytes ⟨region, 1⟩ = 1024 := by
  rw [RegionRange.numBytes, mul32_eq (by norm_num), Nat.one_mul]

theorem data_region {region j : Nat} (hj : j < 1024) :
    disk.data ⟨region, 1⟩ j = disk.image (1024 * region + j) := by
  rw [Disk.data, numBytes_region, if_pos hj, Nat.mul_comm]

theorem dataOf_eq {device : BlockDevice} {buffer : Nat} {range : RegionRange}
    (h : device.rangeOf buffer = some range) : dataOf disk device buffer = disk.data range := by
  rw [dataOf, h]

theorem copyRegion_spec (region off count out : Nat) (h : t.device.Keyed)
    (hin : off + count ≤ 1024) :
    (t.copyRegion disk region off count out).device.Keyed ∧
      (t.copyRegion disk region off count out).memory =
        t.memory.fill out count fun i => disk.image (1024 * region + off + i) := by
  obtain ⟨hrange, hkeyed, -⟩ := h.request ⟨region, 1⟩
  refine ⟨hkeyed, ?_⟩
  simp only [copyRegion]
  refine fill_ext fun i hi => ?_
  rw [dataOf_eq hrange, data_region (by omega), Nat.add_assoc]

theorem readLoop_last {fuel cur left out : Nat} (hpos : 0 < left) (hle : left ≤ 1024) :
    readLoop disk (fuel + 1) cur left out t =
      some (t.copyRegion disk (add32 cur 1) 0 left out) := by
  obtain ⟨left, rfl⟩ := Nat.exists_eq_succ_of_ne_zero hpos.ne'
  simp only [readLoop, Nat.succ_eq_add_one, if_neg (Nat.not_lt.2 hle)]

theorem readLoop_whole {fuel cur left out : Nat} (hlt : 1024 < left) :
    readLoop disk (fuel + 1) cur left out t =
      readLoop disk fuel (add32 cur 1) (sub32 left 1024) (add32 out 1024)
        (t.copyRegion disk (add32 cur 1) 0 1024 out) := by
  obtain ⟨left, rfl⟩ := Nat.exists_eq_succ_of_ne_zero (show left ≠ 0 by omega)
  simp only [readLoop, Nat.succ_eq_add_one, if_pos hlt]

/-- The loop stores the bytes of the image behind the current region, from inside buffers. -/
theorem readLoop_spec (fuel cur left out : Nat) (h : t.device.Keyed) (hfuel : left ≤ fuel)
    (hend : 1024 * (cur + 1) + left ≤ 4294967296) (hout : out + left ≤ 4294967296) :
    ∃ t' copies, readLoop disk fuel cur left out t = some t' ∧
      t'.memory = t.memory.fill out left (fun i => disk.image (1024 * (cur + 1) + i)) ∧
      t'.copies = t.copies ++ copies ∧ ∀ c ∈ copies, c.Inside := by
  induction fuel generalizing cur left out t with
  | zero =>
    obtain rfl := Nat.le_zero.1 hfuel
    exact ⟨t, [], rfl, (funext fun x => fill_off _ _ (by omega)).symm, by simp, by simp⟩
  | succ fuel ih =>
    rcases Nat.eq_zero_or_pos left with rfl | hpos
    · exact ⟨t, [], rfl, (funext fun x => fill_off _ _ (by omega)).symm, by simp, by simp⟩
    have hcur : cur + 1 < 4294967296 := by omega
    rcases Nat.lt_or_ge 1024 left with hmore | hlast
    · rw [readLoop_whole hmore, add32_eq hcur, sub32_eq (by omega) (by omega), add32_eq (by omega)]
      obtain ⟨hkeyed, hmem⟩ := copyRegion_spec (cur + 1) 0 1024 out h (by omega)
      obtain ⟨t', copies, hrun, hmem', hcopies, hin⟩ := ih (cur + 1) (left - 1024) (out + 1024)
        hkeyed (by omega) (by omega) (by omega)
      refine ⟨t', ⟨cur + 1, 0, 1024⟩ :: copies, hrun, ?_, ?_, ?_⟩
      · rw [hmem', hmem, Nat.add_zero, fill_consecutive _ _ (by omega),
          Nat.add_sub_cancel' hmore.le]
      · rw [hcopies, copyRegion, List.append_assoc]
        rfl
      · rw [List.forall_mem_cons]
        exact ⟨Nat.le_of_eq (Nat.zero_add 1024), hin⟩
    · rw [readLoop_last hpos hlast, add32_eq hcur]
      obtain ⟨-, hmem⟩ := copyRegion_spec (cur + 1) 0 left out h (by omega)
      refine ⟨_, [⟨cur + 1, 0, left⟩], rfl, hmem.trans ?_, rfl, ?_⟩
      · exact fill_ext fun i _ => congrArg disk.image (by omega)
      · rw [List.forall_mem_singleton]
        exact (Nat.zero_add left).le.trans hlast

/-- `read_bytes` returns `size`, stores exactly the bytes of the image from `offset` on, and
takes every one from inside a region's buffer. -/
def Exact (disk : Disk) (offset size out : Nat) (t : RawRead) : Prop :=
  ∃ t' copies, readBytes disk offset size out t = some (size, t') ∧
    t'.memory = t.memory.fill out size (fun i => disk.image (offset + i)) ∧
    t'.copies = t.copies ++ copies ∧ ∀ c ∈ copies, c.Inside

theorem exact_short {offset size out : Nat} (h : t.device.Keyed) (hsize : size ≤ 1024) :
    Exact disk offset size out t ↔ offset % 1024 + size ≤ 1024 := by
  have hrun : readBytes disk offset size out t =
      some (size, t.copyRegion disk (offset / 1024) (offset % 1024) size out) :=
    if_neg (Nat.not_lt.2 hsize)
  constructor
  · rintro ⟨t', copies, hread, -, hcopies, hin⟩
    rw [hrun, Option.some.injEq, Prod.mk.injEq] at hread
    rw [← hread.2, copyRegion, List.append_cancel_left_eq] at hcopies
    exact hin ⟨offset / 1024, offset % 1024, size⟩ (by simp [← hcopies])
  · intro hin
    obtain ⟨-, hmem⟩ := copyRegion_spec (offset / 1024) (offset % 1024) size out h hin
    refine ⟨_, [⟨offset / 1024, offset % 1024, size⟩], hrun, ?_, rfl, ?_⟩
    · rw [hmem, Nat.div_add_mod]
    · rw [List.forall_mem_singleton]
      exact hin

theorem exact_long {offset size out : Nat} (h : t.device.Keyed) (hsize : 1024 < size)
    (hend : offset + size < 4294967296) (hout : out + size ≤ 4294967296) :
    Exact disk offset size out t := by
  obtain ⟨n, hn⟩ : ∃ n, 1024 - offset % 1024 = n := ⟨_, rfl⟩
  have hsub : sub32 1024 (offset % 1024) = n := by
    rw [sub32_eq (by omega) (by norm_num), hn]
  obtain ⟨hkeyed, hmem⟩ := copyRegion_spec (offset / 1024) (offset % 1024) n out h (by omega)
  obtain ⟨t', copies, hrun, hmem', hcopies, hin⟩ := readLoop_spec size (offset / 1024)
    (size - n) (out + n) hkeyed (by omega) (by omega) (by omega)
  refine ⟨t', ⟨offset / 1024, offset % 1024, n⟩ :: copies, ?_, ?_, ?_, ?_⟩
  · unfold readBytes
    simp only [hsub]
    rw [if_pos hsize, sub32_eq (by omega) (by omega), add32_eq (by omega), hrun]
    rfl
  · rw [hmem', hmem, Nat.div_add_mod, fill_consecutive _ _ (by omega),
      show n + (size - n) = size by omega]
  · rw [hcopies, copyRegion, List.append_assoc]
    rfl
  · rw [List.forall_mem_cons]
    exact ⟨show offset % 1024 + n ≤ 1024 by omega, hin⟩

/-- **Raw reads**: a read is exact unless it is of at most 1024 bytes and crosses the end of
its first region. -/
theorem readBytes_exact_iff {offset size out : Nat} (h : t.device.Keyed)
    (hend : offset + size < 4294967296) (hout : out + size ≤ 4294967296) :
    Exact disk offset size out t ↔ 1024 < size ∨ offset % 1024 + size ≤ 1024 := by
  rcases Nat.lt_or_ge 1024 size with hlong | hshort
  · exact ⟨fun _ => .inl hlong, fun _ => exact_long h hlong hend hout⟩
  · rw [exact_short h hshort]
    exact ⟨.inr, fun hor => hor.resolve_left (Nat.not_lt.2 hshort)⟩

/-- Every byte of a region has its number, counted from 1; behind the buffers lie zeros. -/
def numberedDisk : Disk where
  image a := UInt8.ofNat (a / 1024 + 1)
  behind _ _ := 0

/-- A device without buffers, before any read. -/
def unread : RawRead := ⟨{}, fun _ => 0, []⟩

theorem readBytes_exact_across : Exact numberedDisk 1000 2000 0 unread :=
  (readBytes_exact_iff BlockDevice.keyed_init (by norm_num) (by norm_num)).2
    (.inl (by norm_num))

/-- 100 bytes from offset 1000 on: the 25th should come from the second region, and it comes
from behind the buffer of the first. -/
theorem readBytes_past_buffer :
    (readBytes numberedDisk 1000 100 0 unread).map (fun r => (r.1, r.2.memory 23, r.2.memory 24)) =
      some (100, 1, 0) ∧ numberedDisk.image 1024 = 2 ∧ ¬Exact numberedDisk 1000 100 0 unread := by
  refine ⟨by decide +kernel, by decide +kernel, fun h => ?_⟩
  have hin := (exact_short BlockDevice.keyed_init (by norm_num)).1 h
  norm_num at hin

end RawRead

end Ulysses
