import Mathlib.Data.List.Sort
import Mathlib.Data.List.Perm.Subperm
import Mathlib.Data.List.Induction

/-!
# The generated system-call table

`mksyscalls.rb` reads the lines `SYSCALL(num, name, args)` of `syscall.cpp` into a hash
keyed by the number, and walks the hash in the order of its keys to write the user stubs
and the table of trampolines. A stub passes the declared number in `eax`. The table has no
numbers: a trampoline stands where its number comes in the order, and
`SyscallDispatcher::handle` looks it up at `eax`.

A number that is declared again overwrites the earlier call, and a number that is left out
moves the later ones down. Nothing is rejected. `dispatched_iff` says which sets of
declarations survive this.
-/

namespace Ulysses.Syscalls

/-! ## Reading the declarations -/

abbrev Text := List Char

/-- `Syscall` of `mksyscalls.rb`. -/
structure Syscall where
  num : Nat
  name : Text
  args : List Text
  deriving DecidableEq

/-- The class `\s`. -/
def isSpace (c : Char) : Bool := c ∈ [' ', '\t', '\n', '\x0b', '\x0c', '\r']

/-- The class `\w`. -/
def isWord (c : Char) : Bool := c.isAlphanum || c == '_'

def skipSpace (cs : Text) : Text := cs.dropWhile isSpace

/-- `to_i` of a string of digits. -/
def toNumber (digits : Text) : Nat := digits.foldl (fun n c => 10 * n + (c.toNat - 48)) 0

/-- Drop the empty strings at the end, as `split` does. -/
def dropEmpty (pieces : List Text) : List Text :=
  (pieces.reverse.dropWhile List.isEmpty).reverse

/-- `split(/\s*,\s*/)`. -/
def splitArgs (text : Text) : List Text :=
  match text.splitOn ',' with
  | [] => []
  | first :: rest =>
    let left := first :: rest.map skipSpace
    let right := left.dropLast.map (fun piece => (skipSpace piece.reverse).reverse) ++
      left.getLast?.toList
    dropEmpty right

/-- The text after a literal part of a pattern. -/
def literal (text cs : Text) : Option Text :=
  if text.isPrefixOf cs then some (cs.drop text.length) else none

/-- `/^\s*SYSCALL\((\d+),\s*(\w+)(,\s*([^)]*))?\)/` on one line. -/
def scan (line : Text) : Option Syscall :=
  (literal "SYSCALL(".toList (skipSpace line)).bind fun cs =>
    let digits := cs.takeWhile Char.isDigit
    if digits = [] then none
    else
      (literal [','] (cs.dropWhile Char.isDigit)).bind fun cs =>
        let cs := skipSpace cs
        let name := cs.takeWhile isWord
        if name = [] then none
        else
          match cs.dropWhile isWord with
          | ')' :: _ => some ⟨toNumber digits, name, []⟩
          | ',' :: cs =>
            let args := skipSpace cs
            if ')' ∈ args then
              some ⟨toNumber digits, name, splitArgs (args.takeWhile (· != ')'))⟩
            else none
          | _ => none

/-- The declarations in the lines of a source file. -/
def declarations (source : List Text) : List Syscall := source.filterMap scan

/-! ## The hash -/

/-- `syscalls[num] = …`. -/
def enter (syscalls : List Syscall) (s : Syscall) : List Syscall :=
  if s.num ∈ syscalls.map Syscall.num then
    syscalls.map fun t => if t.num = s.num then s else t
  else syscalls ++ [s]

def syscalls (ds : List Syscall) : List Syscall := ds.foldl enter []

/-- The calls in the order of `syscalls.keys.sort`. -/
def sorted (ds : List Syscall) : List Syscall :=
  (((syscalls ds).map Syscall.num).insertionSort (· ≤ ·)).filterMap fun num =>
    (syscalls ds).find? fun s => s.num == num

/-! ## What is written -/

namespace Syscall

def argTypes (s : Syscall) : List Text :=
  s.args.map fun arg =>
    if arg = "...".toList then arg
    else
      match arg.splitOnP isSpace with
      | [] => []
      | first :: rest =>
        List.intercalate [' '] (first :: rest.filter fun word => !word.isEmpty).dropLast

/-- `REGS`. -/
def regs : List Text := ["ebx".toList, "ecx".toList, "edx".toList, "esi".toList, "edi".toList]

/-- The registers the arguments are taken from, with the types they are cast to. -/
def argRegs (s : Syscall) : List (Text × Text) := (regs.take s.args.length).zip s.argTypes

def raw (s : Syscall) : Bool := s.args == ["Registers* regs".toList]

end Syscall

/-- A stub `DEFN_SYSCALLn(name, num, types)`. It passes `num` in `eax`. -/
structure Stub where
  name : Text
  num : Nat
  types : List Text
  deriving DecidableEq

/-- The function `_syscall_tramp_name`. A raw call gets the registers themselves. -/
structure Trampoline where
  name : Text
  num : Nat
  args : Option (List (Text × Text))
  deriving DecidableEq

def stubs (ds : List Syscall) : List Stub :=
  ((sorted ds).filter fun s => !s.raw).map fun s => ⟨s.name, s.num, s.argTypes⟩

def trampolines (ds : List Syscall) : List Trampoline :=
  (sorted ds).map fun s => ⟨s.name, s.num, if s.raw then none else some s.argRegs⟩

/-- The array `syscalls`: the trampolines by name, and a null pointer at the end. -/
def table (ds : List Syscall) : List (Option Text) :=
  (sorted ds).map (fun s => some s.name) ++ [none]

def numSyscalls (ds : List Syscall) : Nat := (syscalls ds).length

/-- `SyscallDispatcher::handle`: the trampoline that is called, if any. -/
def handle (ds : List Syscall) (eax : Nat) : Option Text :=
  if eax < numSyscalls ds then ((table ds)[eax]?).join else none

/-! ## Agreement -/

/-- The call `d` is dispatched under its number, the one trampoline of its name is the one
made for that number, and so is the one stub; a raw call has none. -/
structure Dispatched (ds : List Syscall) (d : Syscall) : Prop where
  bound : d.num < numSyscalls ds
  handled : handle ds d.num = some d.name
  trampoline : ((trampolines ds).filter fun t => t.name = d.name).map Trampoline.num = [d.num]
  stub : ((stubs ds).filter fun s => s.name = d.name).map Stub.num =
    if d.raw then [] else [d.num]

/-- Numbers and names determine each other, and no number is left out. -/
structure Numbered (ds : List Syscall) : Prop where
  name : ∀ d ∈ ds, ∀ d' ∈ ds, d.num = d'.num ↔ d.name = d'.name
  raw : ∀ d ∈ ds, ∀ d' ∈ ds, d.num = d'.num → d.raw = d'.raw
  dense : ∀ d ∈ ds, ∀ m < d.num, ∃ d' ∈ ds, d'.num = m

/-! ## The calls in order -/

theorem map_num_enter (syscalls : List Syscall) (s : Syscall) :
    (enter syscalls s).map Syscall.num =
      if s.num ∈ syscalls.map Syscall.num then syscalls.map Syscall.num
      else syscalls.map Syscall.num ++ [s.num] := by
  unfold enter
  split
  · rw [List.map_map]
    refine List.map_congr_left fun t _ => ?_
    simp only [Function.comp_apply]
    split
    · next h => exact h.symm
    · rfl
  · simp

theorem mem_enter {syscalls : List Syscall} {s t : Syscall} (h : t ∈ enter syscalls s) :
    t = s ∨ t ∈ syscalls := by
  unfold enter at h
  split at h
  · obtain ⟨u, hu, rfl⟩ := List.mem_map.1 h
    split
    · exact .inl rfl
    · exact .inr hu
  · rcases List.mem_append.1 h with h | h
    · exact .inr h
    · exact .inl (List.mem_singleton.1 h)

/-- The hash has a call for every declared number, one each, and no other calls. -/
theorem syscalls_spec (ds : List Syscall) :
    ((syscalls ds).map Syscall.num).Nodup ∧ (∀ s ∈ syscalls ds, s ∈ ds) ∧
      ∀ k, k ∈ (syscalls ds).map Syscall.num ↔ k ∈ ds.map Syscall.num := by
  induction ds using List.reverseRecOn with
  | nil => exact ⟨List.nodup_nil, fun _ h => h, fun _ => Iff.rfl⟩
  | append_singleton ds d ih =>
    obtain ⟨hnodup, hmem, hkeys⟩ := ih
    have hstep : syscalls (ds ++ [d]) = enter (syscalls ds) d := by simp [syscalls]
    rw [hstep, map_num_enter]
    refine ⟨?_, fun s hs => ?_, fun k => ?_⟩
    · split
      · exact hnodup
      · next hnew => exact List.nodup_append_comm.1 (List.nodup_cons.2 ⟨hnew, hnodup⟩)
    · rcases mem_enter hs with rfl | hs
      · simp
      · exact List.mem_append_left _ (hmem s hs)
    · split
      · next hold =>
        rw [hkeys, List.map_append, List.mem_append]
        refine ⟨.inl, fun h => h.elim id fun hk => ?_⟩
        rw [List.map_singleton, List.mem_singleton] at hk
        rw [hk]
        exact (hkeys _).1 hold
      · rw [List.map_append, List.mem_append, List.mem_append, hkeys, List.map_singleton]

theorem map_num_sorted (ds : List Syscall) :
    (sorted ds).map Syscall.num = ((syscalls ds).map Syscall.num).insertionSort (· ≤ ·) := by
  have hall : ∀ keys : List Nat, (∀ k ∈ keys, k ∈ (syscalls ds).map Syscall.num) →
      (keys.filterMap fun num => (syscalls ds).find? fun s => s.num == num).map Syscall.num =
        keys := by
    intro keys hkeys
    induction keys with
    | nil => rfl
    | cons k keys ih =>
      obtain ⟨s, hs, hk⟩ := List.mem_map.1 (hkeys k List.mem_cons_self)
      have hrest := ih fun k' hk' => hkeys k' (List.mem_cons_of_mem k hk')
      cases hfind : (syscalls ds).find? fun s => s.num == k with
      | none =>
        have := List.find?_eq_none.1 hfind s hs
        simp [hk] at this
      | some t =>
        have ht : t.num = k := by simpa using List.find?_some hfind
        rw [List.filterMap_cons, hfind, List.map_cons, ht, hrest]
  exact hall _ fun k hk => (List.mem_insertionSort _).1 hk

theorem mem_sorted {ds : List Syscall} {s : Syscall} (h : s ∈ sorted ds) : s ∈ ds := by
  obtain ⟨k, -, hfind⟩ := List.mem_filterMap.1 h
  exact (syscalls_spec ds).2.1 s (List.mem_of_find?_eq_some hfind)

theorem mem_num_sorted {ds : List Syscall} {k : Nat} :
    k ∈ (sorted ds).map Syscall.num ↔ ∃ d ∈ ds, d.num = k := by
  rw [map_num_sorted, List.mem_insertionSort, (syscalls_spec ds).2.2, List.mem_map]

theorem nodup_num_sorted (ds : List Syscall) : ((sorted ds).map Syscall.num).Nodup := by
  rw [map_num_sorted]
  exact (List.perm_insertionSort _ _).nodup_iff.2 (syscalls_spec ds).1

theorem length_sorted (ds : List Syscall) : (sorted ds).length = numSyscalls ds := by
  have hlen := congrArg List.length (map_num_sorted ds)
  rwa [List.length_map, List.length_insertionSort, List.length_map] at hlen

/-- Numbers below their count, in order and each once, are all there are. -/
theorem num_sorted_eq_range {ds : List Syscall}
    (hlt : ∀ k ∈ (sorted ds).map Syscall.num, k < numSyscalls ds) :
    (sorted ds).map Syscall.num = List.range (numSyscalls ds) := by
  have hle : ((sorted ds).map Syscall.num).Pairwise (· ≤ ·) := by
    rw [map_num_sorted]
    exact List.pairwise_insertionSort _ _
  have hsub : (sorted ds).map Syscall.num ⊆ List.range (numSyscalls ds) :=
    fun k hk => List.mem_range.2 (hlt k hk)
  have hperm := ((nodup_num_sorted ds).subperm hsub).perm_of_length_le (by simp [length_sorted])
  exact hperm.eq_of_pairwise' hle (List.pairwise_lt_range.imp Nat.le_of_lt)

theorem num_lt_of_dense {ds : List Syscall} (hdense : ∀ d ∈ ds, ∀ m < d.num, ∃ d' ∈ ds, d'.num = m)
    {k : Nat} (hk : k ∈ (sorted ds).map Syscall.num) : k < numSyscalls ds := by
  obtain ⟨d, hd, rfl⟩ := mem_num_sorted.1 hk
  have hsub : List.range (d.num + 1) ⊆ (sorted ds).map Syscall.num := by
    intro m hm
    rcases Nat.lt_succ_iff_lt_or_eq.1 (List.mem_range.1 hm) with hlt | rfl
    · exact mem_num_sorted.2 (hdense d hd m hlt)
    · exact hk
  have hlen := (List.nodup_range.subperm hsub).length_le
  rw [List.length_range, List.length_map, length_sorted] at hlen
  exact hlen

/-! ## The theorem -/

section Agreement

variable {ds : List Syscall}

theorem sorted_getElem? (hrange : (sorted ds).map Syscall.num = List.range (numSyscalls ds))
    {k : Nat} (hk : k < numSyscalls ds) :
    ∃ s ∈ sorted ds, (sorted ds)[k]? = some s ∧ s.num = k := by
  have hget : ((sorted ds).map Syscall.num)[k]? = some k := by
    rw [hrange, List.getElem?_range hk]
  rw [List.getElem?_map] at hget
  obtain ⟨s, hs, hnum⟩ := Option.map_eq_some_iff.1 hget
  exact ⟨s, List.mem_of_getElem? hs, hs, hnum⟩

theorem handle_eq {k : Nat} (hk : k < numSyscalls ds) :
    handle ds k = ((sorted ds)[k]?).map Syscall.name := by
  have hlen : k < ((sorted ds).map fun s => some s.name).length := by
    rwa [List.length_map, length_sorted]
  unfold handle table
  rw [if_pos hk, List.getElem?_append_left hlen, List.getElem?_map]
  cases (sorted ds)[k]? <;> rfl

theorem filter_name (hname : ∀ d ∈ ds, ∀ d' ∈ ds, d.num = d'.num ↔ d.name = d'.name) {s : Syscall}
    (hs : s ∈ sorted ds) : ((sorted ds).filter fun t => t.name = s.name) = [s] := by
  have hmem : ∀ t, t ∈ (sorted ds).filter (fun t => t.name = s.name) ↔ t = s := by
    intro t
    rw [List.mem_filter, decide_eq_true_eq]
    refine ⟨fun ⟨ht, heq⟩ => ?_, fun h => by rw [h]; exact ⟨hs, rfl⟩⟩
    have hnum := (hname t (mem_sorted ht) s (mem_sorted hs)).2 heq
    exact List.inj_on_of_nodup_map (nodup_num_sorted ds) ht hs hnum
  have hnodup : ((sorted ds).filter fun t => t.name = s.name).Nodup :=
    (nodup_num_sorted ds).of_map.filter _
  have hperm : ((sorted ds).filter fun t => t.name = s.name).Perm [s] :=
    (List.perm_ext_iff_of_nodup hnodup (List.nodup_singleton s)).2 fun t => by
      rw [hmem, List.mem_singleton]
  exact List.perm_singleton.1 hperm

theorem trampolines_name (name : Text) :
    ((trampolines ds).filter fun t => t.name = name).map Trampoline.num =
      ((sorted ds).filter fun t => t.name = name).map Syscall.num := by
  unfold trampolines
  rw [List.filter_map, List.map_map]
  rfl

theorem stubs_name (name : Text) :
    ((stubs ds).filter fun s => s.name = name).map Stub.num =
      (((sorted ds).filter fun t => t.name = name).filter fun s => !s.raw).map Syscall.num := by
  unfold stubs
  rw [List.filter_map, List.map_map, List.filter_filter, List.filter_filter]
  refine congrArg (List.map Syscall.num) (List.filter_congr fun s _ => Bool.and_comm _ _)

theorem Numbered.dispatched (h : Numbered ds) {d : Syscall} (hd : d ∈ ds) : Dispatched ds d := by
  have hrange := num_sorted_eq_range fun k hk => num_lt_of_dense h.dense hk
  have hlt : d.num < numSyscalls ds := num_lt_of_dense h.dense (mem_num_sorted.2 ⟨d, hd, rfl⟩)
  obtain ⟨s, hs, hget, hnum⟩ := sorted_getElem? hrange hlt
  have hname : s.name = d.name := (h.name s (mem_sorted hs) d hd).1 hnum
  have hraw : s.raw = d.raw := h.raw s (mem_sorted hs) d hd hnum
  have hfilter := filter_name h.name hs
  rw [hname] at hfilter
  refine ⟨hlt, ?_, ?_, ?_⟩
  · rw [handle_eq hlt, hget, Option.map_some, hname]
  · rw [trampolines_name, hfilter, List.map_singleton, hnum]
  · rw [stubs_name, hfilter, ← hraw, List.filter_singleton]
    cases s.raw
    · simp [hnum]
    · rfl

theorem numbered_of_dispatched (h : ∀ d ∈ ds, Dispatched ds d) : Numbered ds := by
  have hrange : (sorted ds).map Syscall.num = List.range (numSyscalls ds) := by
    refine num_sorted_eq_range fun k hk => ?_
    obtain ⟨d, hd, rfl⟩ := mem_num_sorted.1 hk
    exact (h d hd).bound
  have hname : ∀ d ∈ ds, ∀ d' ∈ ds, d.num = d'.num ↔ d.name = d'.name := by
    intro d hd d' hd'
    constructor
    · intro hnum
      have hsame := (h d hd).handled
      rw [hnum, (h d' hd').handled] at hsame
      exact (Option.some.inj hsame).symm
    · intro hname
      have hsame := (h d hd).trampoline
      rw [hname, (h d' hd').trampoline] at hsame
      exact (List.singleton_inj.1 hsame).symm
  refine ⟨hname, fun d hd d' hd' hnum => ?_, fun d hd m hm => ?_⟩
  · have hsame := (h d hd).stub
    rw [(hname d hd d' hd').1 hnum, (h d' hd').stub] at hsame
    cases hr : d.raw <;> cases hr' : d'.raw <;> simp_all
  · have hlt := (h d hd).bound
    have hmem : m ∈ (sorted ds).map Syscall.num := by
      rw [hrange]
      exact List.mem_range.2 (by omega)
    exact mem_num_sorted.1 hmem

end Agreement

/-- **Stubs and dispatcher.** For every source file, every declared call is dispatched
under the number its stub passes exactly when numbers and names determine each other and
no number is left out. -/
theorem dispatched_iff (source : List Text) :
    (∀ d ∈ declarations source, Dispatched (declarations source) d) ↔
      Numbered (declarations source) :=
  ⟨numbered_of_dispatched, fun h _ hd => h.dispatched hd⟩

/-- The declarations in `syscall.cpp`, line by line. -/
def syscallCpp : List Text :=
  [
    "SYSCALL(0, kprint, const char* p) \x7b",
    "SYSCALL(17, exec, Registers* regs) \x7b",
    "SYSCALL(1, fork) \x7b",
    "SYSCALL(2, getpid) \x7b",
    "SYSCALL(3, pause) \x7b",
    "SYSCALL(4, exit, int code) \x7b",
    "SYSCALL(22, exit_group, int code) \x7b",
    "SYSCALL(5, sleep, int seconds) \x7b",
    "SYSCALL(6, wait_any, int* status) \x7b",
    "SYSCALL(7, open, const char* name, int mode) \x7b",
    "SYSCALL(8, read, int fd, char* buffer, int size) \x7b",
    "SYSCALL(11, write, int fd, char* buffer, int size) \x7b",
    "SYSCALL(22, dup, int fd) \x7b",
    "SYSCALL(9, mount, const char* path, const char* fstype, const char* dev) \x7b",
    "SYSCALL(10, seek, int fd, int pos, int whence) \x7b",
    "SYSCALL(12, sbrk, int bytes) \x7b",
    "SYSCALL(21, brk, u32 target) \x7b",
    "SYSCALL(13, getdents, int fd, void* dp, int count) \x7b",
    "SYSCALL(14, channel_connect, int pid, int cid) \x7b",
    "SYSCALL(15, channel_create) \x7b",
    "SYSCALL(16, msg_recv, int cid, void* msg, int len) \x7b",
    "SYSCALL(18, notimpl, Registers* regs) \x7b",
    "SYSCALL(19, writev, int fd, struct iovec* vec, int veccnt) \x7b",
    "SYSCALL(20, ioctl, int fd, unsigned long req, unsigned long arg) \x7b",
    "SYSCALL(23, set_thread_area, struct region* reg) \x7b",
    "SYSCALL(24, rt_sigprocmask, int how, void* set, void* old, int size) \x7b",
    "SYSCALL(25, set_tid_address, int* addr) \x7b",
    "SYSCALL(26, kill, int pid, int sig) \x7b",
    "SYSCALL(27, getpgrp) \x7b",
    "SYSCALL(29, geteuid) \x7b",
    "SYSCALL(30, getppid, int pid) \x7b",
    "SYSCALL(31, getcwd, char* buf, int size) \x7b",
    "SYSCALL(32, rt_sigaction, int sig, void* set, void* old, int mask_size) \x7b",
    "SYSCALL(33, fcntl, int fd, int cmd, void* arg) \x7b",
    "SYSCALL(34, close, int fd) \x7b",
    "SYSCALL(28, stat, char* path, struct stat* info) \x7b"].map String.toList

theorem exit_group_declared :
    ⟨22, "exit_group".toList, ["int code".toList]⟩ ∈ declarations syscallCpp :=
  List.mem_filterMap.2 ⟨"SYSCALL(22, exit_group, int code) \x7b".toList,
    List.mem_map_of_mem (by simp), by decide +kernel⟩

theorem dup_declared : ⟨22, "dup".toList, ["int fd".toList]⟩ ∈ declarations syscallCpp :=
  List.mem_filterMap.2 ⟨"SYSCALL(22, dup, int fd) \x7b".toList,
    List.mem_map_of_mem (by simp), by decide +kernel⟩

/-- `exit_group` is declared with number 22, and so is `dup` after it. -/
theorem exit_group_overwritten :
    ¬∀ d ∈ declarations syscallCpp, Dispatched (declarations syscallCpp) d := by
  intro h
  have hsame := (h _ exit_group_declared).handled.symm.trans (h _ dup_declared).handled
  exact absurd hsame (by decide +kernel)

end Ulysses.Syscalls
