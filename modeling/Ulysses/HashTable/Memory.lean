import Ulysses.Lib.Chain
import Ulysses.Lib.Loop
import Ulysses.HashTable.Sound

/-!
# The hash table in memory

The table as the code has it: entries at addresses, with `next` pointers, and an array
of pointers to the first entry of every bin. `Refines` connects it to the table of
lists. Every call keeps it, so every walk along a chain ends, and `redistribute`, which
rewrites the `next` pointers of the entries it has visited while it walks, reaches
every entry once.
-/

namespace Ulysses

open Lib

/-- `HashTable::Entry`. -/
structure HashNode (K V : Type*) where
  key : K
  value : V
  next : Option Nat

/-- The table with the memory of its entries; `live` are the addresses that have been
allocated and not freed. -/
structure HashMemory (K V : Type*) where
  nodes : Nat → HashNode K V
  live : List Nat
  values : Nat → Option Nat
  bins : Nat
  entries : Nat

namespace HashMemory

open HashTable (binOf minSize)

variable {K V : Type*} (ops : HashOps K)

/-- The constructor. -/
def init (nodes : Nat → HashNode K V) : HashMemory K V :=
  { nodes, live := [], values := fun _ => none, bins := minSize, entries := 0 }

def maxDensityP (m : HashMemory K V) : Bool := decide (m.entries ≥ mul32 m.bins 3 / 4)

def minDensityP (m : HashMemory K V) : Bool := decide (m.entries < mul32 m.bins 3 / 10)

def setNext (a : Nat) (next : Option Nat) (nodes : Nat → HashNode K V) : Nat → HashNode K V :=
  Function.update nodes a { nodes a with next }

/-- The body of the inner loop of `redistribute`, on the nodes and `new_values`. -/
def relink (size : Nat) (st : (Nat → HashNode K V) × (Nat → Option Nat)) (entry : Nat) :
    (Nat → HashNode K V) × (Nat → Option Nat) :=
  let nodes := setNext entry none st.1
  let bin := binOf ops size (nodes entry).key
  match st.2 bin with
  | some slot => (setNext slot (some entry) nodes, st.2)
  | none => (nodes, Function.update st.2 bin (some entry))

/-- The inner loop; `none` is a chain that goes on after so many turns. -/
def relinkChain (size : Nat) : Nat → Option Nat →
    (Nat → HashNode K V) × (Nat → Option Nat) →
    Option ((Nat → HashNode K V) × (Nat → Option Nat))
  | _, none, st => some st
  | 0, some _, _ => none
  | n + 1, some entry, st => relinkChain size n (st.1 entry).next (relink ops size st entry)

def redistribute (size : Nat) (m : HashMemory K V) : Option (HashMemory K V) :=
  ((List.range m.bins).foldlM (fun st i => relinkChain ops size m.live.length (m.values i) st)
    (m.nodes, fun _ => none)).map fun st =>
      { m with nodes := st.1, values := st.2, bins := size }

/-- The loop of `store`, `fetch` and `remove`: `last`, and the entry for the key. -/
def walk (key : K) (nodes : Nat → HashNode K V) :
    Nat → Option Nat → Option Nat → Option (Option Nat × Option Nat)
  | _, last, none => some (last, none)
  | 0, _, some _ => none
  | n + 1, last, some entry =>
    if ops.compareKeys (nodes entry).key key then some (last, some entry)
    else walk key nodes n (some entry) (nodes entry).next

/-- The walk along the bin of the key. -/
def find (key : K) (m : HashMemory K V) : Option (Option Nat × Option Nat) :=
  walk ops key m.nodes m.live.length none (m.values (binOf ops m.bins key))

/-- What `last` points to, or the bin if there is no `last`. -/
def setLink (last : Option Nat) (bin : Nat) (p : Option Nat) (m : HashMemory K V) :
    HashMemory K V :=
  match last with
  | some last => { m with nodes := setNext last p m.nodes }
  | none => { m with values := Function.update m.values bin p }

def setValue (a : Nat) (value : V) (m : HashMemory K V) : HashMemory K V :=
  { m with nodes := Function.update m.nodes a { m.nodes a with value } }

/-- `new(kheap) Entry`, at the address `a`. -/
def allocate (a : Nat) (key : K) (value : V) (m : HashMemory K V) : HashMemory K V :=
  { m with
    nodes := Function.update m.nodes a ⟨key, value, none⟩
    live := a :: m.live
    entries := add32 m.entries 1 }

/-- `kfree`. -/
def free (a : Nat) (m : HashMemory K V) : HashMemory K V :=
  { m with live := m.live.erase a, entries := sub32 m.entries 1 }

/-- `store` after its rehash; a new entry is at the address `a`. -/
def storeAt (a : Nat) (key : K) (value : V) (m : HashMemory K V) : Option (HashMemory K V) :=
  (m.find ops key).map fun r =>
    match r.2 with
    | some entry => m.setValue entry value
    | none => (m.allocate a key value).setLink r.1 (binOf ops m.bins key) (some a)

def store (a : Nat) (key : K) (value : V) (m : HashMemory K V) : Option (HashMemory K V) :=
  (if m.maxDensityP then m.redistribute ops (mul32 m.bins 2) else some m).bind
    (storeAt ops a key value)

/-- `fetch`; the inner `none` is the answer `false`. -/
def fetch (key : K) (m : HashMemory K V) : Option (Option V) :=
  (m.find ops key).map fun r => r.2.map fun entry => (m.nodes entry).value

/-- `remove` after its rehash. -/
def removeAt (key : K) (m : HashMemory K V) : Option (HashMemory K V × Bool) :=
  (m.find ops key).map fun r =>
    match r.2 with
    | some entry =>
      ((m.setLink r.1 (binOf ops m.bins key) (m.nodes entry).next).free entry, true)
    | none => (m, false)

def remove (key : K) (m : HashMemory K V) : Option (HashMemory K V × Bool) :=
  (if m.minDensityP then m.redistribute ops (m.bins / 2) else some m).bind (removeAt ops key)

/-! ## The table of lists -/

/-- The entry at an address. -/
def entryAt (nodes : Nat → HashNode K V) (a : Nat) : HashEntry K V :=
  ⟨(nodes a).key, (nodes a).value⟩

def next (m : HashMemory K V) (a : Nat) : Option Nat := (m.nodes a).next

/-- The bins are null-terminated chains of live entries that share nothing. -/
structure Rep (m : HashMemory K V) (chains : Nat → List Nat) : Prop where
  chain : ∀ i < m.bins, Chain m.next (m.values i) (chains i)
  nodup : ∀ i < m.bins, (chains i).Nodup
  disjoint : ∀ i < m.bins, ∀ j < m.bins, ∀ a, a ∈ chains i → a ∈ chains j → i = j
  live : ∀ i < m.bins, ∀ a ∈ chains i, a ∈ m.live

/-- The memory holds the table of lists `t`, by the chains given. -/
structure Refines (m : HashMemory K V) (t : HashTable K V) (chains : Nat → List Nat) : Prop
    extends Rep m chains where
  bins : t.bins = m.bins
  entries : t.entries = m.entries
  values : ∀ i < m.bins, t.values i = (chains i).map (entryAt m.nodes)

end HashMemory

end Ulysses
