import Ulysses.Initrd.Image

/-!
# Looking up and reading the files of an image

A lookup compares only as many bytes as the name looked up has, so it stops at the first
node whose name, followed by the bytes that lay behind it in memory, begins with that name
(`matchesName_iff`). A read is cut to the length of the file unless the sum of offset and
size wraps (`read_eq`, `read_of_wrap`).
-/

namespace Ulysses.Initrd

open Lib Fs Bytes

/-! ## What is promised, and when it holds -/

/-- What the file system does for one name, and for one offset and size. -/
structure RoundTrips (files : List File) (fs : FS) (q : Name) (offset size : Nat) : Prop where
  found : ∀ i (f : File), files[i]? = some f → f.name = q → fs.finddir true q = some (.file i)
  missing : (∀ f ∈ files, f.name ≠ q) → fs.finddir true q = none
  node : ∀ i (f : File), files[i]? = some f → ∃ node : Node, fs.rootNodes[i]? = some node ∧
    node.inode = i ∧ node.length = f.contents.length
  contents : ∀ i (f : File), files[i]? = some f →
    fs.read i 0 f.contents.length = (f.contents.length, f.contents)
  bounded : ∀ i (f : File), files[i]? = some f →
    (fs.read i offset size).1 ≤ f.contents.length - offset ∧
      (fs.read i offset size).2 <+: f.contents.drop offset

/-- The bytes from the name of a node on, when its memory held `raw`. -/
def nodeByte (raw : Bytes) (name : Name) (j : Nat) : UInt8 :=
  if j < name.bytes.length then name.bytes.getD j 0 else if j < 128 then raw j else 0

/-- The name of the node, with what follows it in memory, begins with `q`. -/
def Begins (raw : Bytes) (name q : Name) : Prop :=
  q.bytes = (List.range q.bytes.length).map (nodeByte raw name)

/-- There are less than 64 files, the name is not taken, a node of another name that begins
with it comes behind the file of that name, and the sum of offset and size does not wrap. -/
structure Regular (raw : Nat → Bytes) (files : List File) (q : Name) (offset size : Nat) :
    Prop where
  count : files.length < 64
  free : q ≠ dev ∧ q ≠ data ∧ q ≠ tmp
  first : ∀ i (f : File), files[i]? = some f → f.name ≠ q → Begins (raw i) f.name q →
    ∃ j < i, ∃ g : File, files[j]? = some g ∧ g.name = q
  fits : ∀ f ∈ files, offset ≤ f.contents.length → offset + size < 4294967296

/-! ## Reading -/

section Read

variable {files : List File} {raw : Nat → Bytes} {location : Nat} {mem : Bytes}
  {st : Bytes × List Node} (hopen : Opened files raw location mem files.length st)
  {i : Nat} {f : File} (hf : files[i]? = some f)

include hopen hf

theorem read_length : st.1.read32 (location + 4 + 76 * i + 72) = f.contents.length :=
  (hopen.headers i f (List.getElem?_eq_some_iff.1 hf).1 hf).length

/-- A read whose sum of offset and size wraps is not cut. -/
theorem read_of_wrap {offset size : Nat} (hoff : offset ≤ f.contents.length)
    (hlt : offset < 4294967296) (hsize : size < 4294967296) (hwrap : 4294967296 ≤ offset + size) :
    (FS.read ⟨st.1, location + 4, st.2⟩ i offset size).1 = size := by
  have hsum : ¬add32 offset size > f.contents.length := by
    unfold add32
    omega
  unfold FS.read
  simp only [read_length hopen hf]
  rw [if_neg (Nat.not_lt.2 hoff), if_neg hsum]

/-- Any other read returns what the file has from the offset on, up to the size. -/
theorem read_eq {stack : Bytes} (hmem : mem.HasBytes location (makeInitrd stack files))
    (hcount : files.length < 64) (hend : location + (makeInitrd stack files).length ≤ 4294967296)
    {offset size : Nat}
    (hfits : offset ≤ f.contents.length → offset + size < 4294967296) :
    FS.read ⟨st.1, location + 4, st.2⟩ i offset size =
      (min size (f.contents.length - offset), (f.contents.drop offset).take size) := by
  have hi := (List.getElem?_eq_some_iff.1 hf).1
  have hbound := contentsAt_bound hf
  have hstart : 4868 ≤ contentsAt files i := Nat.le_add_right _ _
  rw [length_makeInitrd stack hcount] at hend
  -- the contents lie behind the table, which is all that `init` writes to
  have hbyte : ∀ j (h : j < f.contents.length),
      st.1 (location + contentsAt files i + j) = f.contents[j] := fun j h => by
    rw [hopen.frame _ (by omega), loaded_contents hmem hcount hf j h]
  unfold FS.read
  simp only [read_length hopen hf, (hopen.headers i f hi hf).offset]
  by_cases hoff : offset > f.contents.length
  · rw [if_pos hoff, List.drop_eq_nil_of_le (by omega), List.take_nil,
      show min size (f.contents.length - offset) = 0 by omega]
  · have hsum := hfits (by omega)
    have hsize : (if add32 offset size > f.contents.length then sub32 f.contents.length offset
        else size) = min size (f.contents.length - offset) := by
      rw [add32_eq hsum, sub32_eq (by omega) (by omega)]
      split <;> omega
    rw [if_neg hoff, hsize, Prod.mk.injEq]
    refine ⟨rfl, List.ext_getElem (by simp) fun j h₁ h₂ => ?_⟩
    have hj : j < min size (f.contents.length - offset) := by simpa using h₁
    rw [List.getElem_map, List.getElem_range, List.getElem_take, List.getElem_drop,
      ← hbyte (offset + j) (by omega)]
    refine congrArg st.1 ?_
    unfold add32
    omega

end Read

/-! ## Looking up -/

theorem nameByte_nodeName (raw : Bytes) {name : Name} (hpos : 1 ≤ name.bytes.length)
    (hle : name.bytes.length ≤ 63) : nameByte (nodeName raw name) = nodeByte raw name := by
  funext j
  unfold nameByte nodeName nodeByte
  by_cases hj : j < name.bytes.length
  · rw [if_pos (by omega), if_pos hj, fill_in _ _ ⟨by omega, by omega⟩, Nat.sub_zero]
  · rw [if_neg hj, fill_off _ _ (by omega)]
    unfold construct
    rw [write8_ne _ _ (by omega)]

theorem matchesName_iff (raw : Bytes) {name : Name} (hpos : 1 ≤ name.bytes.length)
    (hle : name.bytes.length ≤ 63) (q : Name) (length inode : Nat) :
    matchesName q ⟨nodeName raw name, length, inode⟩ = true ↔ Begins raw name q := by
  unfold matchesName Begins
  rw [beq_iff_eq, Name.strncmp_eq_zero (by simp) q.nul_free, nameByte_nodeName raw hpos hle]

theorem begins_self (raw : Bytes) (name : Name) : Begins raw name name := by
  refine List.ext_getElem (by simp) fun j h₁ h₂ => ?_
  rw [List.getElem_map, List.getElem_range, nodeByte, if_pos h₁, List.getD_eq_getElem _ _ h₁]

theorem strncmp_name {q name : Name} :
    q.bytes.length = name.bytes.length ∧ Name.strncmp q.bytes name.bytes = 0 ↔ q = name := by
  constructor
  · rintro ⟨hlen, hcmp⟩
    have hbytes := (Name.strncmp_eq_zero hlen.symm q.nul_free).1 hcmp
    cases q
    cases name
    simpa using hbytes
  · rintro rfl
    exact ⟨rfl, (Name.strncmp_eq_zero rfl q.nul_free).2 rfl⟩

/-- The loop of `finddir`. -/
def FS.search (fs : FS) (q : Name) : Option Nat :=
  (List.range fs.rootNodes.length).find? fun i => (fs.rootNodes[i]?).any (matchesName q)

theorem finddir_root (fs : FS) (q : Name) :
    fs.finddir true q =
      if q = dev then some .dev else if q = data then some .data
      else if q = tmp then some .tmp else (fs.search q).map .file := by
  have hdev : q.bytes.length = 3 ∧ Name.strncmp q.bytes dev.bytes = 0 ↔ q = dev :=
    @strncmp_name q dev
  have hdata : q.bytes.length = 4 ∧ Name.strncmp q.bytes data.bytes = 0 ↔ q = data :=
    @strncmp_name q data
  have htmp : q.bytes.length = 3 ∧ Name.strncmp q.bytes tmp.bytes = 0 ↔ q = tmp :=
    @strncmp_name q tmp
  unfold FS.finddir FS.search
  simp only [true_and, hdev, hdata, htmp]

theorem finddir_free (fs : FS) {q : Name} (h : q ≠ dev ∧ q ≠ data ∧ q ≠ tmp) :
    fs.finddir true q = (fs.search q).map .file := by
  rw [finddir_root, if_neg h.1, if_neg h.2.1, if_neg h.2.2]

/-- The first place where `P` holds is the only one where `Q` does. -/
theorem find?_range_eq_iff {n : Nat} {P : Nat → Bool} {Q : Nat → Prop}
    (hQP : ∀ i, Q i → P i = true) (hQ : ∀ i j, Q i → Q j → i = j) (hn : ∀ i, Q i → i < n) :
    ((∀ i, Q i → (List.range n).find? P = some i) ∧
        ((∀ i, ¬Q i) → (List.range n).find? P = none)) ↔
      ∀ i < n, P i = true → ¬Q i → ∃ j < i, Q j := by
  constructor
  · rintro ⟨hsome, hnone⟩ i hi hP hnQ
    by_cases hex : ∃ k, Q k
    · obtain ⟨k, hk⟩ := hex
      obtain ⟨-, -, hbefore⟩ := List.find?_range_eq_some.1 (hsome k hk)
      have hki : k ≠ i := fun h => hnQ (h ▸ hk)
      have hle : ¬i < k := fun h => by simpa [hP] using hbefore i h
      exact ⟨k, by omega, hk⟩
    · have := List.find?_eq_none.1 (hnone (not_exists.1 hex)) i (List.mem_range.2 hi)
      exact absurd hP this
  · intro hfirst
    refine ⟨fun i hi => ?_, fun hno => ?_⟩
    · refine List.find?_range_eq_some.2 ⟨hQP i hi, List.mem_range.2 (hn i hi), fun j hj => ?_⟩
      by_contra hP
      have hPj : P j = true := by simpa using hP
      have hnQ : ¬Q j := fun hQj => absurd (hQ i j hi hQj) (by omega)
      obtain ⟨k, hk, hQk⟩ := hfirst j (Nat.lt_trans hj (hn i hi)) hPj hnQ
      exact absurd (hQ i k hi hQk) (by omega)
    · refine List.find?_eq_none.2 fun i hi hP => ?_
      obtain ⟨k, -, hk⟩ := hfirst i (List.mem_range.1 hi) hP (hno i)
      exact hno k hk

theorem search_iff {files : List File} (hfiles : ValidFiles files) {raw : Nat → Bytes}
    {location : Nat} {mem : Bytes} {st : Bytes × List Node}
    (hopen : Opened files raw location mem files.length st) (fs : FS) (hfs : fs.rootNodes = st.2)
    (q : Name) :
    ((∀ i f, files[i]? = some f → f.name = q → fs.search q = some i) ∧
        ((∀ f ∈ files, f.name ≠ q) → fs.search q = none)) ↔
      ∀ i f, files[i]? = some f → f.name ≠ q → Begins (raw i) f.name q →
        ∃ j < i, ∃ g, files[j]? = some g ∧ g.name = q := by
  have hnodes : fs.rootNodes = files.mapIdx fun i f =>
      ⟨nodeName (raw i) f.name, f.contents.length, i⟩ := by
    rw [hfs, hopen.nodes, List.take_length]
  have hP : ∀ i f, files[i]? = some f →
      ((fs.rootNodes[i]?).any (matchesName q) = true ↔ Begins (raw i) f.name q) := fun i f hf => by
    obtain ⟨hpos, hle⟩ := hfiles.name_bounds hf
    rw [hnodes, List.getElem?_mapIdx, hf, Option.map_some, Option.any_some]
    exact matchesName_iff (raw i) hpos hle q _ _
  have hlen : fs.rootNodes.length = files.length := by rw [hnodes, List.length_mapIdx]
  have key := find?_range_eq_iff
    (n := fs.rootNodes.length) (P := fun i => (fs.rootNodes[i]?).any (matchesName q))
    (Q := fun i => ∃ f, files[i]? = some f ∧ f.name = q)
    (fun i ⟨f, hf, hq⟩ => (hP i f hf).2 (hq ▸ begins_self _ _))
    (fun i j ⟨f, hf, hq⟩ ⟨g, hg, hq'⟩ => by
      have hget : (files.map File.name)[i]? = (files.map File.name)[j]? := by
        rw [List.getElem?_map, List.getElem?_map, hf, hg, Option.map_some, Option.map_some, hq, hq']
      exact (List.getElem?_inj
        (by rw [List.length_map]; exact (List.getElem?_eq_some_iff.1 hf).1) hfiles.names).1 hget)
    (fun i ⟨f, hf, _⟩ => hlen ▸ (List.getElem?_eq_some_iff.1 hf).1)
  constructor
  · rintro ⟨hfound, hmissing⟩ i f hf hne hbegins
    refine key.1 ⟨fun j ⟨g, hg, hq⟩ => hfound j g hg hq, fun hno => hmissing fun g hg hq => ?_⟩ i
      (hlen ▸ (List.getElem?_eq_some_iff.1 hf).1) ((hP i f hf).2 hbegins) ?_
    · obtain ⟨j, hj⟩ := List.mem_iff_getElem?.1 hg
      exact hno j ⟨g, hj, hq⟩
    · rintro ⟨g, hg, hq⟩
      exact hne (Option.some.inj (hf.symm.trans hg) ▸ hq)
  · intro hfirst
    obtain ⟨hsome, hnone⟩ := key.2 fun i hi hbegins hno => by
      rw [hlen] at hi
      have hf := List.getElem?_eq_getElem hi
      exact hfirst i _ hf (fun hq => hno ⟨_, hf, hq⟩) ((hP i _ hf).1 hbegins)
    refine ⟨fun i f hf hq => hsome i ⟨f, hf, hq⟩, fun hno => hnone ?_⟩
    rintro i ⟨f, hf, hq⟩
    exact hno f (List.mem_of_getElem? hf) hq

/-! ## The round trip -/

section Opened

variable {files : List File} (hfiles : ValidFiles files) {raw : Nat → Bytes} {location : Nat}
  {mem : Bytes} {st : Bytes × List Node} (hopen : Opened files raw location mem files.length st)
  {q : Name} {offset size : Nat}

include hfiles hopen

theorem regular_of_roundTrips (hcount : files.length < 64) (hoff : offset < 4294967296)
    (hsize : size < 4294967296) (h : RoundTrips files ⟨st.1, location + 4, st.2⟩ q offset size) :
    Regular raw files q offset size := by
  have hfree : q ≠ dev ∧ q ≠ data ∧ q ≠ tmp := by
    by_contra htaken
    -- a taken name is not one of the files, and still something is found
    have hmissing := h.missing fun f hf hq => htaken (hq ▸ hfiles.free f hf)
    rw [finddir_root] at hmissing
    split_ifs at hmissing with h₁ h₂ h₃
    exact htaken ⟨h₁, h₂, h₃⟩
  have hroot := finddir_free ⟨st.1, location + 4, st.2⟩ hfree
  refine ⟨hcount, hfree, (search_iff hfiles hopen ⟨st.1, location + 4, st.2⟩ rfl q).1
    ⟨fun i f hf hq => ?_, fun hno => ?_⟩, fun f hf hle => ?_⟩
  · have hfound := h.found i f hf hq
    rw [hroot, Option.map_eq_some_iff] at hfound
    obtain ⟨j, hj, hji⟩ := hfound
    rw [hj, Found.file.inj hji]
  · have hmissing := h.missing hno
    rwa [hroot, Option.map_eq_none_iff] at hmissing
  · obtain ⟨i, hi⟩ := List.mem_iff_getElem?.1 hf
    by_contra hwrap
    have hread := (h.bounded i f hi).1
    rw [read_of_wrap hopen hi hle hoff hsize (by omega)] at hread
    have hlen := hfiles.length_lt hi
    omega

theorem roundTrips_of_regular {stack : Bytes}
    (hmem : mem.HasBytes location (makeInitrd stack files))
    (hend : location + (makeInitrd stack files).length ≤ 4294967296)
    (h : Regular raw files q offset size) :
    RoundTrips files ⟨st.1, location + 4, st.2⟩ q offset size := by
  have hroot := finddir_free ⟨st.1, location + 4, st.2⟩ h.free
  obtain ⟨hfound, hmissing⟩ :=
    (search_iff hfiles hopen ⟨st.1, location + 4, st.2⟩ rfl q).2 h.first
  constructor
  · intro i f hf hq
    rw [hroot, hfound i f hf hq, Option.map_some]
  · intro hno
    rw [hroot, hmissing hno, Option.map_none]
  · intro i f hf
    refine ⟨⟨nodeName (raw i) f.name, f.contents.length, i⟩, ?_, rfl, rfl⟩
    show st.2[i]? = _
    rw [hopen.nodes, List.take_length, List.getElem?_mapIdx, hf, Option.map_some]
  · intro i f hf
    have hlen := hfiles.length_lt hf
    rw [read_eq hopen hf hmem h.count hend (fun _ => by omega), Nat.sub_zero, Nat.min_self,
      List.drop_zero, List.take_length]
  · intro i f hf
    rw [read_eq hopen hf hmem h.count hend (h.fits f (List.mem_of_getElem? hf))]
    exact ⟨Nat.min_le_right _ _, List.take_prefix _ _⟩

end Opened

/-- **Images round-trip.** For every list of files, every name looked up and every offset and
size, the image that `make_initrd` writes is opened by `init`, finds and reads its files and
nothing else, exactly in the `Regular` cases. -/
theorem roundTrips_iff {files : List File} (hfiles : ValidFiles files) (stack : Bytes)
    {kmalloc : Nat → Bool} (hsmall : ∀ n ≤ 10496, kmalloc n = true)
    (hlarge : ∀ n, 2147483648 ≤ n → kmalloc n = false) (raw : Nat → Bytes) {location : Nat}
    {mem : Bytes} (hmem : mem.HasBytes location (makeInitrd stack files))
    (hend : location + (makeInitrd stack files).length ≤ 4294967296) (q : Name)
    {offset size : Nat} (hoff : offset < 4294967296) (hsize : size < 4294967296) :
    (∃ fs, init kmalloc raw location mem = some fs ∧ RoundTrips files fs q offset size) ↔
      Regular raw files q offset size := by
  by_cases hcount : files.length < 64
  · obtain ⟨st, hinit, hopen⟩ := init_opened hmem hfiles hcount hend hsmall raw
    constructor
    · rintro ⟨fs, hfs, h⟩
      obtain rfl := Option.some.inj (hinit.symm.trans hfs)
      exact regular_of_roundTrips hfiles hopen hcount hoff hsize h
    · exact fun h => ⟨_, hinit, roundTrips_of_regular hfiles hopen hmem hend h⟩
  · have h64 : files.length = 64 := Nat.le_antisymm hfiles.count (Nat.not_lt.1 hcount)
    refine iff_of_false ?_ fun h => hcount h.count
    rintro ⟨fs, hfs, -⟩
    rw [init_eq_none hmem h64 hlarge raw] at hfs
    cases hfs

/-- The memory that has the image of the files at `0x100000`. -/
def imageOf (files : List File) : Bytes :=
  fun x => (makeInitrd (fun _ => 0) files).getD (x - 0x100000) 0

/-- The name "ab". -/
def ab : Name := ⟨[97, 98], by decide⟩

/-- A file "a" with one byte and a file "ab" with two, in memory without rest. -/
def twoFiles : List File := [⟨Name.a, [7]⟩, ⟨ab, [8, 9]⟩]

/-- Each of the two is found under its name, "a" although "ab" begins with it. -/
theorem roundTrips_two :
    ∃ fs, init (fun n => decide (n ≤ 10496)) (fun _ _ => 0) 0x100000 (imageOf twoFiles) = some fs ∧
      RoundTrips twoFiles fs Name.a 0 5 := by
  have hfiles : ValidFiles twoFiles := ⟨by decide, by decide, by decide, by decide, by decide⟩
  refine (roundTrips_iff hfiles (fun _ => 0) (by simp) (fun n hn => decide_eq_false (by omega)) _
    (hasBytes_getD 0x100000 _) ?_ Name.a (by decide) (by decide)).2
    ⟨by decide, by decide, fun i f hf hne _ => ?_, by decide⟩
  · rw [length_makeInitrd _ (by decide)]
    decide
  · rcases i with - | i
    · obtain rfl := Option.some.inj hf
      exact absurd rfl hne
    · exact ⟨0, Nat.succ_pos i, _, rfl, rfl⟩

/-- In an image whose only file is "ab", the name "a" is found. -/
theorem ab_found_as_a :
    ∃ fs, init (fun n => decide (n ≤ 10496)) (fun _ _ => 0) 0x100000
        (imageOf [⟨ab, []⟩]) = some fs ∧ fs.finddir true Name.a = some (.file 0) := by
  have hfiles : ValidFiles [⟨ab, []⟩] := ⟨by decide, by decide, by decide, by decide, by decide⟩
  have hend : 0x100000 + (makeInitrd (fun _ => 0) [⟨ab, []⟩]).length ≤ 4294967296 := by
    rw [length_makeInitrd _ (by decide)]
    decide
  obtain ⟨st, hinit, hopen⟩ := init_opened (hasBytes_getD 0x100000 _) hfiles (by decide) hend
    (fun n hn => decide_eq_true hn) fun _ _ => 0
  refine ⟨_, hinit, ?_⟩
  rw [finddir_free _ (by decide)]
  unfold FS.search
  simp only [hopen.nodes]
  decide

end Ulysses.Initrd
