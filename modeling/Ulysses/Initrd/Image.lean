import Mathlib.Data.List.Basic
import Ulysses.Lib.Loop
import Ulysses.Initrd.Basic

/-!
# Images

What `make_initrd` writes, `initrd::FS::init` opens: the table has a header for every
file (`putHeaders_describes`), and after `init` every header gives the place of the
contents in memory and every node the length of its file (`init_opened`). With 64 files
the number of headers does not fit the `char`, and the image is not one that can be opened
(`init_eq_none`).
-/

namespace Ulysses.Initrd

open Lib Fs Bytes

/-! ## Files and their places in the image -/

/-- At most 64 files with distinct names of 1 to 63 bytes that are not taken, and contents
of less than `2 ^ 31` bytes in all. -/
structure ValidFiles (files : List File) : Prop where
  count : files.length ≤ 64
  names : (files.map File.name).Nodup
  lengths : ∀ f ∈ files, 1 ≤ f.name.bytes.length ∧ f.name.bytes.length ≤ 63
  free : ∀ f ∈ files, f.name ≠ dev ∧ f.name ≠ data ∧ f.name ≠ tmp
  total : (files.flatMap File.contents).length < 2147483648

/-- Where the contents of a file begin. -/
def contentsAt (files : List File) (i : Nat) : Nat :=
  4868 + ((files.take i).flatMap File.contents).length

variable {f : File} {files : List File}

theorem contentsAt_succ {i : Nat} (h : files[i]? = some f) :
    contentsAt files (i + 1) = contentsAt files i + f.contents.length := by
  unfold contentsAt
  rw [List.take_add_one, h, List.flatMap_append, List.length_append, Nat.add_assoc]
  simp

theorem flatMap_split {i : Nat} (h : files[i]? = some f) :
    files.flatMap File.contents = (files.take i).flatMap File.contents ++
      (f.contents ++ (files.drop (i + 1)).flatMap File.contents) := by
  obtain ⟨hi, rfl⟩ := List.getElem?_eq_some_iff.1 h
  conv_lhs => rw [← List.take_append_drop i files, List.drop_eq_getElem_cons hi]
  rw [List.flatMap_append, List.flatMap_cons]

theorem contentsAt_bound {i : Nat} (h : files[i]? = some f) :
    contentsAt files i + f.contents.length ≤ 4868 + (files.flatMap File.contents).length := by
  unfold contentsAt
  rw [flatMap_split h, List.length_append, List.length_append]
  omega

theorem ValidFiles.name_bounds (hfiles : ValidFiles files) {i : Nat} (h : files[i]? = some f) :
    1 ≤ f.name.bytes.length ∧ f.name.bytes.length ≤ 63 :=
  hfiles.lengths f (List.mem_of_getElem? h)

theorem ValidFiles.length_lt (hfiles : ValidFiles files) {i : Nat} (h : files[i]? = some f) :
    f.contents.length < 2147483648 := by
  have htotal := hfiles.total
  rw [flatMap_split h, List.length_append, List.length_append] at htotal
  omega

/-! ## The header of a file -/

structure Describes (m : Bytes) (a : Nat) (f : File) (off : Nat) : Prop where
  name : HasCString m (a + 1) f.name.bytes
  offset : m.read32 (a + 68) = off
  length : m.read32 (a + 72) = f.contents.length

theorem Describes.shift {m m' : Bytes} {a b off : Nat} (h : Describes m a f off)
    (hname : f.name.bytes.length ≤ 63) (hm : ∀ i < 76, m' (b + i) = m (a + i)) :
    Describes m' b f off := by
  have hshift : ∀ k ≤ 72, m'.read32 (b + k) = m.read32 (a + k) := fun k hk =>
    read32_shift fun i hi => by rw [Nat.add_assoc, Nat.add_assoc, hm _ (by omega)]
  refine ⟨⟨fun i hi => ?_, ?_⟩, ?_, ?_⟩
  · rw [Nat.add_assoc, hm _ (by omega), ← Nat.add_assoc, h.name.1 i hi]
  · rw [Nat.add_assoc, hm _ (by omega), ← Nat.add_assoc, h.name.2]
  · rw [hshift 68 (by decide), h.offset]
  · rw [hshift 72 (by decide), h.length]

/-! ## Writing the headers -/

theorem putHeader_describes (st : Bytes × Nat) (i : Nat) (hname : f.name.bytes.length ≤ 63)
    (hlen : f.contents.length < 4294967296) (hoff : st.2 < 4294967296) :
    Describes (putHeader st i f).1 (76 * i) f st.2 := by
  unfold putHeader
  simp only
  constructor
  · refine (hasCString_fill st.1 (76 * i + 1) f.name.bytes).congr fun x h₁ h₂ => ?_
    rw [write8_ne _ _ (by omega), write32_off _ _ (by omega), write32_off _ _ (by omega)]
  · rw [read32_write8_off _ _ (by omega), read32_write32_off _ _ (by omega),
      read32_write32_same _ _ hoff]
  · rw [read32_write8_off _ _ (by omega), read32_write32_same _ _ hlen]

theorem putHeader_agreeOff (st : Bytes × Nat) (i : Nat) (hname : f.name.bytes.length ≤ 63) :
    AgreeOff (76 * i) (76 * i + 76) st.1 (putHeader st i f).1 := by
  unfold putHeader
  exact (((((AgreeOff.refl _ _ _).fill _ (by omega) (by omega)).write32 _ (by omega)
    (by omega)).write32 _ (by omega) (by omega)).write8 _ (by omega) (by omega))

theorem nheaders_eq {n : Nat} (h : n < 64) : nheaders n = n := by
  unfold nheaders
  rw [Int.bmod_eq_of_le (by omega) (by omega), show (1 + 2 * n - 1 : Int) = 2 * n by omega,
    Int.mul_tdiv_cancel_left _ (by decide)]

theorem putHeaders_describes (stack : Bytes) (hfiles : ValidFiles files) (hlt : files.length < 64)
    {i : Nat} (hf : files[i]? = some f) :
    Describes (putHeaders stack files).1 (76 * i) f (contentsAt files i) := by
  have htotal := hfiles.total
  -- after `k` turns `off` is the place of file `k`, and the headers before it are written
  have hrun : ∀ k ≤ files.length,
      ((List.range k).foldl (putHeaderAt files) (stack, 4868)).2 = contentsAt files k ∧
      ∀ i f, i < k → files[i]? = some f → Describes
        ((List.range k).foldl (putHeaderAt files) (stack, 4868)).1 (76 * i) f
        (contentsAt files i) := by
    intro k
    induction k with
    | zero => exact fun _ => ⟨rfl, fun i f hi => absurd hi (Nat.not_lt_zero i)⟩
    | succ k ih =>
      intro hk
      obtain ⟨hoff, hdesc⟩ := ih (Nat.le_of_succ_le hk)
      obtain ⟨g, hg⟩ : ∃ g, files[k]? = some g := ⟨_, List.getElem?_eq_getElem hk⟩
      have hbound := contentsAt_bound hg
      have hname := (hfiles.name_bounds hg).2
      rw [List.range_succ, List.foldl_append]
      generalize (List.range k).foldl _ _ = st at hoff hdesc ⊢
      simp only [List.foldl_cons, List.foldl_nil, putHeaderAt, hg]
      refine ⟨?_, fun i f hi hf => ?_⟩
      · show add32 st.2 g.contents.length = _
        rw [add32_eq (by omega), hoff, contentsAt_succ hg]
      · by_cases hik : i = k
        · subst hik
          obtain rfl : g = f := Option.some.inj (hg.symm.trans hf)
          rw [← hoff]
          exact putHeader_describes st i hname (by omega) (by omega)
        · refine (hdesc i f (by omega) hf).shift (hfiles.name_bounds hf).2 fun x hx => ?_
          exact putHeader_agreeOff st k hname _ (by omega)
  unfold putHeaders
  rw [nheaders_eq hlt, Int.toNat_natCast]
  exact (hrun files.length (Nat.le_refl _)).2 i f (List.getElem?_eq_some_iff.1 hf).1 hf

/-! ## The image in memory -/

section Loaded

variable {stack : Bytes} {files : List File} {mem : Bytes} {location : Nat}
  (hmem : mem.HasBytes location (makeInitrd stack files))

include hmem

theorem read32_location : mem.read32 location = u32 (nheaders files.length) := by
  unfold makeInitrd wordBytes at hmem
  rw [List.append_assoc, hasBytes_append] at hmem
  have hlt : u32 (nheaders files.length) < 4294967296 := by
    have := u32_cast (nheaders files.length)
    omega
  rw [← read32_write32_same (fun _ => 0) 0 hlt]
  exact read32_shift fun i hi => by rw [hmem.1.map_range hi, Nat.zero_add]

theorem loaded_describes (hfiles : ValidFiles files) (hlt : files.length < 64) {i : Nat} {f : File}
    (hf : files[i]? = some f) : Describes mem (location + 4 + 76 * i) f (contentsAt files i) := by
  have hi := (List.getElem?_eq_some_iff.1 hf).1
  unfold makeInitrd at hmem
  rw [List.append_assoc, hasBytes_append, hasBytes_append] at hmem
  refine (putHeaders_describes stack hfiles hlt hf).shift (hfiles.name_bounds hf).2 fun x hx => ?_
  have := hmem.2.1.map_range (show 76 * i + x < 4864 by omega)
  rwa [show (wordBytes (u32 (nheaders files.length))).length = 4 by simp [wordBytes],
    ← Nat.add_assoc] at this

theorem loaded_contents (hlt : files.length < 64) {i : Nat} {f : File} (hf : files[i]? = some f) :
    mem.HasBytes (location + contentsAt files i) f.contents := by
  unfold makeInitrd at hmem
  rw [nheaders_eq hlt, Int.toNat_natCast, List.take_length, flatMap_split hf, hasBytes_append,
    hasBytes_append, hasBytes_append, hasBytes_append] at hmem
  have := hmem.2.2.1
  rwa [show location + contentsAt files i = location + (wordBytes (u32 files.length) ++
    (List.range 4864).map (putHeaders stack files).1).length +
      ((files.take i).flatMap File.contents).length by
    simp [contentsAt, wordBytes, Nat.add_assoc]]

end Loaded

theorem length_makeInitrd (stack : Bytes) (hlt : files.length < 64) :
    (makeInitrd stack files).length = 4868 + (files.flatMap File.contents).length := by
  unfold makeInitrd wordBytes
  rw [nheaders_eq hlt, Int.toNat_natCast, List.take_length]
  simp only [List.length_append, List.length_map, List.length_range]

/-! ## Opening -/

/-- The name field of a node after `FS::init`. -/
def nodeName (raw : Bytes) (name : Name) : Bytes :=
  (construct raw).fill 0 name.bytes.length fun j => name.bytes.getD j 0

theorem strcpy_eq (dest : Bytes) {m : Bytes} {src : Nat} {s : List UInt8} (h : HasCString m src s)
    (hs : 0 ∉ s) (hpos : 1 ≤ s.length) (hend : src + s.length < 4294967296) :
    strcpy dest m src = some (dest.fill 0 s.length fun j => s.getD j 0) := by
  have hlen : m.strlenFrom src 1 (4294967296 - src) = some s.length :=
    strlenFrom_eq_some.2 ⟨hpos, by omega, h.2, fun _ _ hj => h.ne_zero hs hj⟩
  unfold strcpy
  rw [hlen, Option.map_some, Option.some_inj]
  funext x
  unfold fill
  refine ite_congr rfl (fun hx => ?_) fun _ => rfl
  beta_reduce
  rw [h.1 _ (by omega), List.getD_eq_getElem]

/-- What holds after `k` turns of the loop of `FS::init`. -/
structure Opened (files : List File) (raw : Nat → Bytes) (location : Nat) (mem : Bytes) (k : Nat)
    (st : Bytes × List Node) : Prop where
  frame : AgreeOff (location + 4) (location + 4 + 76 * k) mem st.1
  headers : ∀ i f, i < k → files[i]? = some f →
    Describes st.1 (location + 4 + 76 * i) f (add32 (contentsAt files i) location)
  nodes : st.2 = (files.take k).mapIdx fun i f =>
    ⟨nodeName (raw i) f.name, f.contents.length, i⟩

section Init

variable {stack : Bytes} {files : List File} {mem : Bytes} {location : Nat}
  (hmem : mem.HasBytes location (makeInitrd stack files)) (hfiles : ValidFiles files)
  (hlt : files.length < 64) (hend : location + (makeInitrd stack files).length ≤ 4294967296)

include hmem hfiles hlt hend

theorem initNode_opened {raw : Nat → Bytes} {k : Nat} (hk : k < files.length)
    {st : Bytes × List Node} (h : Opened files raw location mem k st) :
    ∃ st', initNode location raw st k = some st' ∧
      Opened files raw location mem (k + 1) st' := by
  rw [length_makeInitrd stack hlt] at hend
  obtain ⟨f, hf⟩ : ∃ f, files[k]? = some f := ⟨_, List.getElem?_eq_getElem hk⟩
  obtain ⟨hpos, hle⟩ := hfiles.name_bounds hf
  have hdesc : Describes st.1 (location + 4 + 76 * k) f (contentsAt files k) :=
    (loaded_describes hmem hfiles hlt hf).shift hle fun x hx => h.frame _ (by omega)
  -- the offset is the only word that changes
  obtain ⟨m', hm'⟩ : ∃ m', m' = st.1.write32 (location + 4 + 76 * k + 68)
      (add32 (contentsAt files k) location) := ⟨_, rfl⟩
  have hdesc' : Describes m' (location + 4 + 76 * k) f (add32 (contentsAt files k) location) := by
    rw [hm']
    refine ⟨hdesc.name.congr fun x h₁ h₂ => write32_off _ _ (by omega), ?_, ?_⟩
    · rw [read32_write32_same _ _ (add32_lt _ _)]
    · rw [read32_write32_off _ _ (by omega), hdesc.length]
  refine ⟨(m', st.2 ++ [⟨nodeName (raw k) f.name, f.contents.length, k⟩]), ?_, ?_, ?_, ?_⟩
  · unfold initNode
    simp only [hdesc.offset, ← hm']
    rw [strcpy_eq _ hdesc'.name f.name.nul_free hpos (by omega), Option.map_some, hdesc'.length]
    rfl
  · rw [hm']
    exact (h.frame.mono (Nat.le_refl _) (by omega)).write32 _ (by omega) (by omega)
  · intro i g hi hg
    by_cases hik : i = k
    · subst hik
      obtain rfl : f = g := Option.some.inj (hf.symm.trans hg)
      exact hdesc'
    · rw [hm']
      exact (h.headers i g (by omega) hg).shift (hfiles.name_bounds hg).2 fun x hx =>
        write32_off _ _ (by omega)
  · show st.2 ++ _ = _
    rw [h.nodes, List.take_add_one, hf, Option.toList_some, List.mapIdx_concat, List.length_take,
      Nat.min_eq_left (Nat.le_of_lt hk)]

theorem init_opened {kmalloc : Nat → Bool} (hsmall : ∀ n ≤ 10496, kmalloc n = true)
    (raw : Nat → Bytes) :
    ∃ st, init kmalloc raw location mem = some ⟨st.1, location + 4, st.2⟩ ∧
      Opened files raw location mem files.length st := by
  have hn : mem.read32 location = files.length := by
    have := u32_cast (nheaders files.length)
    rw [read32_location hmem]
    rw [nheaders_eq hlt] at this ⊢
    omega
  have hstart : Opened files raw location mem 0 (mem, []) :=
    ⟨AgreeOff.refl _ _ _, fun i f hi => absurd hi (Nat.not_lt_zero i), rfl⟩
  obtain ⟨st, hst, hopen⟩ := foldlM_range_total
    (fun k st hk h => initNode_opened hmem hfiles hlt hend hk h) hstart
  refine ⟨st, ?_, hopen⟩
  unfold init
  simp only [hn]
  rw [if_pos (hsmall _ (by rw [mul32_eq (by omega)]; omega)), hst, Option.map_some]

end Init

/-- An image that was asked to hold 64 files has a count of -64 and is not opened. -/
theorem init_eq_none {stack : Bytes} {mem : Bytes} {location : Nat}
    (hmem : mem.HasBytes location (makeInitrd stack files)) (h64 : files.length = 64)
    {kmalloc : Nat → Bool} (hlarge : ∀ n, 2147483648 ≤ n → kmalloc n = false) (raw : Nat → Bytes) :
    init kmalloc raw location mem = none := by
  have hn : mem.read32 location = 4294967232 := by
    rw [read32_location hmem, h64]
    decide
  unfold init
  simp only [hn]
  rw [if_neg (by rw [hlarge _ (by decide)]; decide)]

end Ulysses.Initrd
