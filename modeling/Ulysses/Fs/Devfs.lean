import Mathlib.Data.List.Find
import Mathlib.Data.List.Induction
import Ulysses.Lib.Chain
import Ulysses.Lib.CString
import Ulysses.Fs.Name

/-!
# The device file system

`devfs.cpp`: the devices are nodes in a list that starts at `head_`. Both functions that
add a device hang its node behind the head, in the place of what was there, so the list
holds the first device and the latest one (`chain_addAll`). `finddir` compares as many
bytes as the name it looks for has, so it stops at the first device whose name begins with
that name (`finddir_eq`).
-/

namespace Ulysses.Devfs

open Lib Fs Bytes

/-- A device: its address, and for a block device its `id()`. -/
inductive Device
  | block (dev id : Nat)
  | character (dev : Nat)
  deriving DecidableEq

/-- `FS_BLOCKDEVICE`. -/
def fsBlockDevice : Nat := 0x04

/-- `devfs::Node` with the field that `BlockNode` or `CharacterNode` adds. -/
structure Node where
  name : Bytes
  flags : Nat
  inode : Nat
  device : Device
  next : Option Nat

/-- `DevFS`, and the nodes by their addresses. -/
structure DevFS where
  head : Option Nat
  nodes : Nat → Node

/-- `name` after the copy into it. `raw` is what the memory held before. -/
def nameField (raw : Bytes) (name : Name) : Bytes :=
  let size := name.bytes.length
  let size := if size > 127 then 127 else size
  (raw.fill 0 size fun i => name.bytes.getD i 0).write8 size 0

namespace DevFS

/-- `DevFS::init`. -/
def init (nodes : Nat → Node) : DevFS := ⟨none, nodes⟩

/-- The end of `add_block_device` and `add_char_device`, with the new node at `p`. -/
def link (p : Nat) (node : Node) (fs : DevFS) : DevFS :=
  let nodes := Function.update fs.nodes p node
  match fs.head with
  | none => ⟨some p, nodes⟩
  | some h => ⟨some h, Function.update nodes h { nodes h with next := some p }⟩

def addBlockDevice (p : Nat) (raw : Bytes) (dev id : Nat) (name : Name) (fs : DevFS) : DevFS :=
  fs.link p
    { name := nameField raw name
      flags := fsBlockDevice
      inode := id
      device := .block dev id
      next := none }

/-- `add_char_device`. The node has the flag of a block device too. -/
def addCharDevice (p : Nat) (raw : Bytes) (dev : Nat) (name : Name) (fs : DevFS) : DevFS :=
  fs.link p
    { name := nameField raw name
      flags := fsBlockDevice
      inode := 0
      device := .character dev
      next := none }

/-- Does the name in the node at `p` compare equal to `name`? -/
def matchesName (fs : DevFS) (name : Name) (p : Nat) : Bool :=
  Name.strncmp ((List.range name.bytes.length).map (fs.nodes p).name) name.bytes == 0

/-- The loop of `finddir`. Without fuel there is no result. -/
def findFrom (fs : DevFS) (name : Name) : Nat → Option Nat → Option (Option Nat)
  | 0, _ => none
  | _ + 1, none => some none
  | fuel + 1, some p =>
    if fs.matchesName name p then some (some p) else findFrom fs name fuel (fs.nodes p).next

/-- `Node::finddir`. -/
def finddir (fuel : Nat) (fs : DevFS) (name : Name) : Option (Option Nat) :=
  fs.findFrom name fuel fs.head

end DevFS

/-! ## Runs -/

/-- A call of `add_block_device` or `add_char_device`: the device, its name, and the memory
that the heap gave for the node. -/
structure Call where
  device : Device
  name : Name
  node : Nat
  raw : Bytes

def DevFS.add (fs : DevFS) (c : Call) : DevFS :=
  match c.device with
  | .block dev id => fs.addBlockDevice c.node c.raw dev id c.name
  | .character dev => fs.addCharDevice c.node c.raw dev c.name

def addAll (nodes : Nat → Node) (cs : List Call) : DevFS := cs.foldl DevFS.add (DevFS.init nodes)

/-- The names are pairwise distinct and have 1 to 127 bytes, and each node has memory of
its own. -/
structure ValidCalls (cs : List Call) : Prop where
  names : (cs.map Call.name).Nodup
  lengths : ∀ c ∈ cs, 1 ≤ c.name.bytes.length ∧ c.name.bytes.length ≤ 127
  nodes : (cs.map Call.node).Nodup

/-- The node of the device with the name. -/
def registered (cs : List Call) (name : Name) : Option Nat :=
  (cs.find? fun c => c.name = name).map Call.node

/-- When `finddir` finds what was registered. The name of a device must be that of the first
one, or of the last one and not begin the name of the first. No other name may begin the
name of the first or the last device. -/
def Found (cs : List Call) (name : Name) : Prop :=
  (∀ c ∈ cs, c.name = name → cs.head? = some c ∨
    (cs.getLast? = some c ∧ ∀ c', cs.head? = some c' → ¬name.bytes <+: c'.name.bytes)) ∧
  ((∀ c ∈ cs, c.name ≠ name) → ∀ c, cs.head? = some c ∨ cs.getLast? = some c →
    ¬name.bytes <+: c.name.bytes)

/-! ## Comparing names -/

theorem hasCString_nameField (raw : Bytes) {name : Name} (h : name.bytes.length ≤ 127) :
    HasCString (nameField raw name) 0 name.bytes := by
  unfold nameField
  simp only [if_neg (Nat.not_lt.2 h)]
  refine ⟨fun i hi => ?_, ?_⟩
  · rw [write8_ne _ _ (by omega), fill_in _ _ ⟨by omega, by omega⟩, Nat.zero_add, Nat.sub_zero,
      List.getD_eq_getElem _ _ hi]
  · rw [Nat.zero_add, write8_same]

theorem matchesName_iff {fs : DevFS} {p : Nat} {name own : Name}
    (h : HasCString (fs.nodes p).name 0 own.bytes) :
    fs.matchesName name p = true ↔ name.bytes <+: own.bytes := by
  unfold DevFS.matchesName
  rw [beq_iff_eq, Name.strncmp_eq_zero_right (by simp) name.nul_free,
    h.range_map_eq_iff name.nul_free]

/-! ## The list -/

/-- The calls whose nodes are in the list: the first one and the latest one. -/
def kept : List Call → List Call
  | [] => []
  | c :: cs => c :: cs.getLast?.toList

theorem kept_append (c : Call) (cs : List Call) (d : Call) : kept (c :: cs ++ [d]) = [c, d] := by
  simp [kept]

theorem kept_sublist (cs : List Call) : (kept cs).Sublist cs := by
  cases cs with
  | nil => exact List.Sublist.refl _
  | cons c cs =>
    refine List.Sublist.cons_cons c ?_
    cases hlast : cs.getLast? with
    | none => exact List.nil_sublist _
    | some d => exact List.singleton_sublist.2 (List.mem_of_getLast? hlast)

theorem add_eq (fs : DevFS) (c : Call) : ∃ node : Node,
    node.name = nameField c.raw c.name ∧ node.next = none ∧ fs.add c = fs.link c.node node := by
  unfold DevFS.add
  split
  · exact ⟨_, rfl, rfl, rfl⟩
  · exact ⟨_, rfl, rfl, rfl⟩

theorem chain_addAll (nodes : Nat → Node) {cs : List Call} (hnodes : (cs.map Call.node).Nodup) :
    Chain (fun p => ((addAll nodes cs).nodes p).next) (addAll nodes cs).head
        ((kept cs).map Call.node) ∧
      ∀ c ∈ kept cs, ((addAll nodes cs).nodes c.node).name = nameField c.raw c.name := by
  induction cs using List.reverseRecOn with
  | nil => exact ⟨rfl, fun c hc => by cases hc⟩
  | append_singleton cs d ih =>
    have hstep : addAll nodes (cs ++ [d]) = (addAll nodes cs).add d := by simp [addAll]
    rw [hstep]
    rw [List.map_append] at hnodes
    obtain ⟨hchain, hnames⟩ := ih (List.nodup_append.1 hnodes).1
    generalize addAll nodes cs = fs at hchain hnames ⊢
    obtain ⟨node, hname, hnext, hadd⟩ := add_eq fs d
    rw [hadd]
    cases cs with
    | nil =>
      have hlink : fs.link d.node node = ⟨some d.node, Function.update fs.nodes d.node node⟩ := by
        unfold DevFS.link
        rw [show fs.head = none from hchain]
      rw [hlink]
      refine ⟨⟨rfl, ?_⟩, fun c hc => ?_⟩
      · simpa using hnext
      · obtain rfl := List.mem_singleton.1 hc
        simpa using hname
    | cons c cs =>
      have hne : d.node ≠ c.node := fun heq =>
        (List.nodup_append.1 hnodes).2.2 c.node (by simp) d.node (by simp) heq.symm
      have hlink : fs.link d.node node = ⟨some c.node, Function.update
          (Function.update fs.nodes d.node node) c.node
          { fs.nodes c.node with next := some d.node }⟩ := by
        unfold DevFS.link
        rw [show fs.head = some c.node from hchain.1]
        simp only [Function.update_of_ne hne.symm]
      rw [hlink, kept_append]
      refine ⟨⟨rfl, ?_⟩, fun c' hc' => ?_⟩
      · simp [Function.update_of_ne hne, hnext]
      · simp only [List.mem_cons, List.not_mem_nil, or_false] at hc'
        rcases hc' with rfl | rfl
        · simpa using hnames c' List.mem_cons_self
        · simpa [Function.update_of_ne hne] using hname

theorem findFrom_chain {fs : DevFS} {name : Name} {xs : List Nat} {p : Option Nat}
    (h : Chain (fun p => (fs.nodes p).next) p xs) {fuel : Nat} (hfuel : xs.length < fuel) :
    fs.findFrom name fuel p = some (xs.find? (fs.matchesName name)) := by
  induction xs generalizing p fuel with
  | nil =>
    obtain rfl : p = none := h
    cases fuel with
    | zero => cases hfuel
    | succ fuel => rfl
  | cons a xs ih =>
    obtain ⟨rfl, htail⟩ := h
    cases fuel with
    | zero => cases hfuel
    | succ fuel =>
      unfold DevFS.findFrom
      cases hm : fs.matchesName name a with
      | true => rw [if_pos rfl, List.find?_cons_of_pos hm]
      | false =>
        rw [if_neg Bool.false_ne_true, List.find?_cons_of_neg (by simp [hm])]
        exact ih htail (Nat.lt_of_succ_lt_succ hfuel)

/-- `finddir` stops at the first device of the list whose name begins with the name. -/
theorem finddir_eq (nodes : Nat → Node) {cs : List Call} (hcs : ValidCalls cs) (name : Name)
    {fuel : Nat} (hfuel : cs.length < fuel) :
    (addAll nodes cs).finddir fuel name =
      some (((kept cs).find? fun c => name.bytes.isPrefixOf c.name.bytes).map Call.node) := by
  obtain ⟨hchain, hnames⟩ := chain_addAll nodes hcs.nodes
  have hlen := (kept_sublist cs).length_le
  unfold DevFS.finddir
  rw [findFrom_chain hchain (by rw [List.length_map]; omega), List.find?_map]
  refine congrArg (fun o : Option Call => some (o.map Call.node))
    (List.find?_congr fun c hc => ?_)
  have hown := hasCString_nameField c.raw (hcs.lengths c ((kept_sublist cs).subset hc)).2
  rw [← hnames c hc] at hown
  rw [Bool.eq_iff_iff, List.isPrefixOf_iff_prefix]
  exact matchesName_iff hown

/-! ## The theorem -/

theorem registered_eq {cs : List Call} (hcs : ValidCalls cs) {c : Call} (hc : c ∈ cs) :
    registered cs c.name = some c.node := by
  unfold registered
  cases hfind : cs.find? fun c' => c'.name = c.name with
  | none =>
    have := List.find?_eq_none.1 hfind c hc
    simp at this
  | some c' =>
    have hname : c'.name = c.name := by simpa using List.find?_some hfind
    rw [List.inj_on_of_nodup_map hcs.names (List.mem_of_find?_eq_some hfind) hc hname]
    rfl

theorem registered_eq_none {cs : List Call} {name : Name} (h : ∀ c ∈ cs, c.name ≠ name) :
    registered cs name = none := by
  unfold registered
  rw [List.find?_eq_none.2 fun c hc => by simpa using h c hc]
  rfl

section Kept

variable {cs : List Call} {first last : Call} (hfirst : cs.head? = some first)
  (hlast : cs.getLast? = some last)

include hfirst hlast

theorem find_kept (P : Call → Bool) :
    (kept cs).find? P = if P first then some first else if P last then some last else none := by
  cases cs with
  | nil => cases hfirst
  | cons c cs =>
    obtain rfl : c = first := Option.some.inj hfirst
    cases cs with
    | nil =>
      obtain rfl : c = last := Option.some.inj hlast
      cases h : P c <;> simp [kept, h]
    | cons d cs =>
      have hlast' : (d :: cs).getLast? = some last := by
        rw [List.getLast?_cons_cons] at hlast
        exact hlast
      show List.find? P (c :: (d :: cs).getLast?.toList) = _
      rw [hlast']
      cases h : P c <;> cases h' : P last <;> simp [h, h']

/-- The search for the name of a device stops at it if it is the first, or the last and the
search does not stop at the first. -/
theorem find_kept_device (hcs : ValidCalls cs) {c : Call} (hc : c ∈ cs) :
    ((kept cs).find? fun c' => c.name.bytes.isPrefixOf c'.name.bytes).map Call.node =
        some c.node ↔
      first = c ∨ last = c ∧ ¬c.name.bytes <+: first.name.bytes := by
  have hnode : ∀ {c'}, c' ∈ cs → c'.node = c.node → c' = c := fun hc' heq =>
    List.inj_on_of_nodup_map hcs.nodes hc' hc heq
  have hself : c.name.bytes <+: c.name.bytes := List.prefix_rfl
  rw [find_kept hfirst hlast]
  simp only [List.isPrefixOf_iff_prefix]
  constructor
  · intro h
    split at h
    · exact .inl (hnode (List.mem_of_head? hfirst) (Option.some.inj h))
    · next hno =>
      split at h
      · exact .inr ⟨hnode (List.mem_of_getLast? hlast) (Option.some.inj h), hno⟩
      · cases h
  · rintro (rfl | ⟨rfl, hno⟩)
    · rw [if_pos hself]
      rfl
    · rw [if_neg hno, if_pos hself]
      rfl

theorem find_kept_none (name : Name) :
    ((kept cs).find? fun c => name.bytes.isPrefixOf c.name.bytes).map Call.node = none ↔
      ¬name.bytes <+: first.name.bytes ∧ ¬name.bytes <+: last.name.bytes := by
  rw [find_kept hfirst hlast]
  simp only [List.isPrefixOf_iff_prefix]
  constructor
  · intro h
    split at h
    · cases h
    · next hno =>
      split at h
      · cases h
      · next hno' => exact ⟨hno, hno'⟩
  · rintro ⟨hno, hno'⟩
    rw [if_neg hno, if_neg hno']
    rfl

end Kept

/-- **Devices that are found.** After any sequence of calls that add devices, `finddir`
returns for a name the node of the device with that name, and null if there is none,
exactly when the name is `Found`. -/
theorem finddir_iff (nodes : Nat → Node) {cs : List Call} (hcs : ValidCalls cs) (name : Name)
    {fuel : Nat} (hfuel : cs.length < fuel) :
    (addAll nodes cs).finddir fuel name = some (registered cs name) ↔ Found cs name := by
  rw [finddir_eq nodes hcs name hfuel, Option.some_inj]
  by_cases hnil : cs = []
  · subst hnil
    refine iff_of_true rfl ⟨fun c hc => absurd hc List.not_mem_nil, fun _ c hc => ?_⟩
    rcases hc with hc | hc <;> cases hc
  have hfirst := List.head?_eq_some_head hnil
  have hlast := List.getLast?_eq_some_getLast hnil
  unfold Found
  by_cases hname : ∃ c ∈ cs, c.name = name
  · -- a device has the name, and no other
    obtain ⟨c, hc, rfl⟩ := hname
    rw [registered_eq hcs hc, find_kept_device hfirst hlast hcs hc]
    simp only [hfirst, hlast, Option.some.injEq]
    constructor
    · intro h
      refine ⟨fun c' hc' heq => ?_, fun hno => absurd rfl (hno c hc)⟩
      obtain rfl := List.inj_on_of_nodup_map hcs.names hc' hc heq
      exact h.imp id fun h => ⟨h.1, fun _ heq => heq ▸ h.2⟩
    · rintro ⟨hdev, -⟩
      exact (hdev c hc rfl).imp id fun h => ⟨h.1, h.2 _ rfl⟩
  · -- no device has it
    have hno : ∀ c ∈ cs, c.name ≠ name := fun c hc heq => hname ⟨c, hc, heq⟩
    rw [registered_eq_none hno, find_kept_none hfirst hlast]
    simp only [hfirst, hlast, Option.some.injEq]
    constructor
    · rintro ⟨h₁, h₂⟩
      refine ⟨fun c hc heq => absurd heq (hno c hc), fun _ c hc => ?_⟩
      rcases hc with rfl | rfl
      · exact h₁
      · exact h₂
    · rintro ⟨-, hother⟩
      exact ⟨hother hno _ (.inl rfl), hother hno _ (.inr rfl)⟩

/-! ## Three devices -/

def console : Name := ⟨"console".toUTF8.toList, by decide +kernel⟩

def ada : Name := ⟨"ada".toUTF8.toList, by decide +kernel⟩

def ada0 : Name := ⟨"ada0".toUTF8.toList, by decide +kernel⟩

/-- A console and two disks, each with a node in memory that was not cleared. -/
def threeDevices : List Call :=
  [⟨.character 0xC0500000, console, 0xC0600000, fun _ => 0xFF⟩,
    ⟨.block 0xC0500100 1, ada, 0xC0600100, fun _ => 0xFF⟩,
    ⟨.block 0xC0500200 2, ada0, 0xC0600200, fun _ => 0xFF⟩]

def blankNodes (_ : Nat) : Node := ⟨fun _ => 0, 0, 0, .character 0, none⟩

theorem threeDevices_valid : ValidCalls threeDevices := by
  constructor <;> decide +kernel

theorem threeDevices_found : Found threeDevices ada0 := by
  have hbegins : ¬ada0.bytes <+: console.bytes := by decide +kernel
  have hother : console ≠ ada0 ∧ ada ≠ ada0 := by decide +kernel
  refine ⟨fun c hc hname => .inr ⟨?_, fun c' hc' => ?_⟩, fun hno => ?_⟩
  · simp only [threeDevices, List.mem_cons, List.not_mem_nil, or_false] at hc
    rcases hc with rfl | rfl | rfl
    · exact absurd hname hother.1
    · exact absurd hname hother.2
    · rfl
  · obtain rfl := Option.some.inj hc'
    exact hbegins
  · exact absurd rfl (hno ⟨.block 0xC0500200 2, ada0, 0xC0600200, fun _ => 0xFF⟩
      (by simp [threeDevices]))

/-- The device that was added last is found. -/
theorem finddir_iff_last :
    (addAll blankNodes threeDevices).finddir 4 ada0 = some (registered threeDevices ada0) :=
  (finddir_iff blankNodes threeDevices_valid ada0 (Nat.lt_succ_self 3)).2 threeDevices_found

/-- The device that was added in the middle is not in the list, and its name finds the
device after it, whose name it begins. -/
theorem second_device_lost : ValidCalls threeDevices ∧
    registered threeDevices ada = some 0xC0600100 ∧
    (addAll blankNodes threeDevices).finddir 4 ada = some (some 0xC0600200) := by
  refine ⟨threeDevices_valid, ?_, ?_⟩
  · decide +kernel
  · decide +kernel

end Ulysses.Devfs
