import Ulysses.Fs.File
import Ulysses.Tmpfs.Directory

/-!
# Listing a directory

A reader calls `File::get_entries` with one buffer after the other and walks the records
of each by their `d_reclen`. Whatever the buffers are, as long as each has room for the
largest record, the records are those of ".", ".." and the entries in iterator order,
and the listing ends (`listing_complete`).

One call that starts at a record boundary returns the longest run of records that fits
its buffer (`Page`), so the next one starts at a record boundary again.
-/

namespace Ulysses.Tmpfs.DirectoryNode

open Lib Fs

/-! ## The reader -/

structure Record where
  reclen : Nat
  name : List UInt8
  deriving DecidableEq

/-- The records in `[pos, fin)`. -/
def readRecords (m : Bytes) : Nat → Nat → Nat → List Record
  | 0, _, _ => []
  | fuel + 1, pos, fin =>
    if pos < fin then
      let reclen := m.read16 (pos + 16)
      ⟨reclen, m.cstring (pos + 19) (reclen - 19)⟩ :: readRecords m fuel (pos + reclen) fin
    else []

/-- The record for a name. -/
def record (name : List UInt8) : Record := ⟨entSize name.length, name⟩

/-- All records of a directory, in order. -/
def listing (d : DirectoryNode) : List Record :=
  record [46] :: record [46, 46] :: d.entries.reachable.map fun e => record e.key.bytes

def size (rs : List Record) : Nat := (rs.map Record.reclen).sum

@[simp] theorem size_nil : size [] = 0 := rfl

@[simp] theorem size_cons (r : Record) (rs : List Record) :
    size (r :: rs) = r.reclen + size rs := rfl

@[simp] theorem size_append (rs rs' : List Record) : size (rs ++ rs') = size rs + size rs' := by
  simp [size]

/-- The record is one for a name. -/
def Record.Valid (r : Record) : Prop :=
  ∃ name : List UInt8, 0 ∉ name ∧ name.length ≤ 254 ∧ r = record name

theorem entSize_bounds {sz : Nat} (h : sz ≤ 254) : 21 + sz ≤ entSize sz ∧ entSize sz ≤ 24 + sz := by
  unfold entSize alignUp sizeofDirent
  rw [add32_eq (by omega)]
  omega

theorem Record.Valid.reclen_pos {r : Record} (h : r.Valid) : 0 < r.reclen := by
  obtain ⟨name, -, hlen, rfl⟩ := h
  have := entSize_bounds hlen
  show 0 < entSize name.length
  omega

/-! ## Records in memory -/

def RecordAt (m : Bytes) (pos : Nat) (r : Record) : Prop :=
  m.read16 (pos + 16) = r.reclen ∧ m.cstring (pos + 19) (r.reclen - 19) = r.name

/-- The records lie one behind the other from `pos` on. -/
def Stored (m : Bytes) : Nat → List Record → Prop
  | _, [] => True
  | pos, r :: rs => RecordAt m pos r ∧ Stored m (pos + r.reclen) rs

theorem readRecords_eq {m : Bytes} {rs : List Record} (hrs : ∀ r ∈ rs, r.Valid) {pos fuel : Nat}
    (h : Stored m pos rs) (hfuel : rs.length ≤ fuel) :
    readRecords m fuel pos (pos + size rs) = rs := by
  induction rs generalizing pos fuel with
  | nil =>
    cases fuel with
    | zero => rfl
    | succ fuel => exact if_neg (by simp)
  | cons r rs ih =>
    obtain ⟨fuel, rfl⟩ : ∃ n, fuel = n + 1 := ⟨fuel - 1, by simp at hfuel; omega⟩
    have hpos := (hrs r List.mem_cons_self).reclen_pos
    have htail := ih (fun x hx => hrs x (List.mem_cons_of_mem r hx)) h.2
      (Nat.le_of_succ_le_succ hfuel)
    unfold readRecords
    rw [if_pos (by rw [size_cons]; omega), size_cons, ← Nat.add_assoc]
    simp only [h.1.1, h.1.2, htail]

theorem recordAt_putRecord (m : Bytes) (pos : Nat) {name : List UInt8} (hname : 0 ∉ name)
    (hlen : name.length ≤ 254) :
    RecordAt (putRecord m pos (entSize name.length) name) pos (record name) := by
  have hent := entSize_bounds hlen
  have hagree : Bytes.AgreeOff (pos + 19) (pos + 20 + name.length)
      (((m.write32 pos 1).write32 (pos + 4) 0).write16 (pos + 16) (entSize name.length))
      (putRecord m pos (entSize name.length) name) :=
    ((Bytes.AgreeOff.refl _ _ _).fill _ (Nat.le_refl _) (by omega)).write8 _ (by omega) (by omega)
  constructor
  · rw [hagree.read16 (by omega), Bytes.read16_write16_same _ _ (by omega)]
    rfl
  · refine Bytes.cstring_eq (s := name) ⟨fun i hi => ?_, Bytes.write8_same _ _ _⟩ hname ?_
    · unfold putRecord
      rw [Bytes.write8_ne _ _ (by omega), Bytes.fill_in _ _ (by omega),
        show pos + 19 + i - (pos + 19) = i by omega, List.getD_eq_getElem _ _ hi]
    · show name.length < entSize name.length - 19
      omega

theorem RecordAt.congr {m m' : Bytes} {lo hi pos : Nat} {r : Record} (h : RecordAt m pos r)
    (hr : 19 ≤ r.reclen) (hm : Bytes.AgreeOff lo hi m m') (hpos : pos + r.reclen ≤ lo) :
    RecordAt m' pos r := by
  constructor
  · rw [hm.read16 (by omega)]
    exact h.1
  · rw [← h.2]
    unfold Bytes.cstring
    congr 1
    refine List.map_congr_left fun i hi => ?_
    have := List.mem_range.1 hi
    exact hm _ (by omega)

/-! ## Pages -/

/-- `taken` was written behind what `l` has. -/
structure Wrote (l l' : Listed) (taken : List Record) : Prop where
  bufPos : l'.bufPos = l.bufPos + size taken
  total : l'.total = l.total + size taken
  stored : Stored l'.mem l.bufPos taken
  agree : Bytes.AgreeOff l.bufPos l'.bufPos l.mem l'.mem

theorem wrote_nil (l : Listed) : Wrote l l [] := ⟨rfl, by simp, trivial, .refl _ _ _⟩

theorem wrote_put (l : Listed) (name : List UInt8) (hname : 0 ∉ name) (hlen : name.length ≤ 254)
    (hpos : l.bufPos + entSize name.length < 4294967296) (htotal : 0 ≤ l.total)
    (hsum : l.total + entSize name.length < 2147483648) :
    Wrote l (l.put name (entSize name.length)) [record name] := by
  have hent := entSize_bounds hlen
  have hput : l.put name (entSize name.length) =
      ⟨putRecord l.mem l.bufPos (entSize name.length) name, l.bufPos + entSize name.length,
        l.total + entSize name.length⟩ := by
    have hmod : entSize name.length % 65536 = entSize name.length := Nat.mod_eq_of_lt (by omega)
    simp only [Listed.put, hmod, add32_eq hpos, s32_eq (by omega) hsum]
  rw [hput]
  refine ⟨rfl, rfl, ⟨recordAt_putRecord l.mem l.bufPos hname hlen, trivial⟩, ?_⟩
  show Bytes.AgreeOff l.bufPos (l.bufPos + entSize name.length) l.mem (Bytes.write8 _ _ _)
  refine .write8 (.fill (.write16 (.write32 (.write32 (.refl _ _ _) _ ?_ ?_) _ ?_ ?_) _ ?_ ?_) _
    ?_ ?_) _ ?_ ?_ <;> omega

variable {l : Listed} {es : List (HashEntry Name Nat)} {it : HashTable.Iterator Name Nat}
  {d : DirectoryNode}

theorem Wrote.cons {l₁ l' : Listed} {r : Record} {rs : List Record} (hr : r.Valid)
    (h : Wrote l l₁ [r]) (hs : Wrote l₁ l' rs) : Wrote l l' (r :: rs) := by
  obtain ⟨name, -, hlen, rfl⟩ := hr
  have hent := entSize_bounds hlen
  have hpos : l₁.bufPos = l.bufPos + (record name).reclen := h.bufPos
  have hend := hs.bufPos
  refine ⟨?_, ?_, ⟨?_, ?_⟩, ?_⟩
  · rw [hend, hpos, size_cons, Nat.add_assoc]
  · rw [hs.total, h.total]
    simp only [size_cons, size_nil]
    omega
  · refine h.stored.1.congr ?_ hs.agree (by omega)
    show 19 ≤ entSize name.length
    omega
  · rw [← hpos]
    exact hs.stored
  · exact (h.agree.mono (Nat.le_refl _) (by omega)).trans (hs.agree.mono (by omega) (Nat.le_refl _))

/-- `l'` has as many of the records `rest` behind what `l` has as fit. -/
def Page (bufFin : Nat) (l : Listed) (rest : List Record) (l' : Listed) : Prop :=
  ∃ taken rest', rest = taken ++ rest' ∧ Wrote l l' taken ∧ l'.bufPos ≤ bufFin ∧
    ∀ r ∈ rest'.head?, bufFin < l'.bufPos + r.reclen

theorem page_nil {bufFin : Nat} (h : l.bufPos ≤ bufFin) : Page bufFin l [] l :=
  ⟨[], [], rfl, wrote_nil l, h, by simp⟩

theorem page_stop {bufFin : Nat} {r : Record} (rs : List Record) (h : l.bufPos ≤ bufFin)
    (hr : bufFin < l.bufPos + r.reclen) : Page bufFin l (r :: rs) l :=
  ⟨[], r :: rs, rfl, wrote_nil l, h, by simpa using hr⟩

theorem Page.cons {bufFin : Nat} {l₁ l' : Listed} {r : Record} {rs : List Record} (hr : r.Valid)
    (h : Wrote l l₁ [r]) (hs : Page bufFin l₁ rs l') : Page bufFin l (r :: rs) l' := by
  obtain ⟨taken, rest', rfl, hwrote, hfin, hmax⟩ := hs
  exact ⟨r :: taken, rest', rfl, Wrote.cons hr h hwrote, hfin, hmax⟩

/-! ## The loop -/

/-- The names fit a record. -/
def Named (es : List (HashEntry Name Nat)) : Prop := ∀ e ∈ es, e.key.bytes.length ≤ 254

def records (es : List (HashEntry Name Nat)) : List Record := es.map fun e => record e.key.bytes

theorem valid_record {e : HashEntry Name Nat} (h : e.key.bytes.length ≤ 254) :
    (record e.key.bytes).Valid := ⟨_, e.key.nul_free, h, rfl⟩

variable {t : HashTable Name Nat} {bufFin : Nat} {seek : Int}

theorem listLoop_skip {e : HashEntry Name Nat} (he : e.key.bytes.length ≤ 254)
    (hit : it.remaining t = e :: es) (hpos : l.bufPos < bufFin) {pos : Int} (hseek : pos < seek)
    (fuel : Nat) :
    listLoop t bufFin seek (fuel + 1) it pos l =
      listLoop t bufFin seek fuel (it.next t).2 (s32 (pos + (record e.key.bytes).reclen)) l := by
  have hnext : it.next t = (some e, (it.next t).2) :=
    Prod.ext (HashTable.Iterator.next_of_cons hit).1 rfl
  rw [listLoop, if_pos hpos, hnext]
  simp only [Nat.min_eq_left he, if_pos hseek.gt]
  rfl

theorem listLoop_put {e : HashEntry Name Nat} (he : e.key.bytes.length ≤ 254)
    (hit : it.remaining t = e :: es) (hpos : l.bufPos < bufFin) {pos : Int} (hseek : seek ≤ pos)
    (fuel : Nat) :
    listLoop t bufFin seek (fuel + 1) it pos l =
      if add32 l.bufPos (entSize e.key.bytes.length) > bufFin then some l
      else listLoop t bufFin seek fuel (it.next t).2 pos
        (l.put e.key.bytes (entSize e.key.bytes.length)) := by
  have hnext : it.next t = (some e, (it.next t).2) :=
    Prod.ext (HashTable.Iterator.next_of_cons hit).1 rfl
  rw [listLoop, if_pos hpos, hnext]
  simp only [Nat.min_eq_left he, if_neg hseek.not_gt, List.take_length]

theorem listLoop_end (hit : it.remaining t = []) (pos : Int) (fuel : Nat) :
    listLoop t bufFin seek (fuel + 1) it pos l = some l := by
  have hnext : it.next t = (none, (it.next t).2) :=
    Prod.ext (HashTable.Iterator.next_of_nil hit) rfl
  rw [listLoop, hnext]
  exact ite_self _

/-- From the place to go on from, the loop writes what fits. -/
theorem listLoop_page (hes : Named es) {fuel : Nat} (hit : it.remaining t = es)
    (hfuel : es.length < fuel) {pos : Int} (hseek : seek ≤ pos) (hpos : l.bufPos ≤ bufFin)
    (hfin : bufFin ≤ 0xC0000000) (htotal : 0 ≤ l.total)
    (hsum : l.total + size (records es) < 2147483648) :
    ∃ l', listLoop t bufFin seek fuel it pos l = some l' ∧ Page bufFin l (records es) l' := by
  induction es generalizing fuel it l with
  | nil =>
    obtain ⟨fuel, rfl⟩ := Nat.exists_eq_add_one_of_ne_zero (Nat.ne_of_gt hfuel)
    exact ⟨l, listLoop_end hit pos fuel, page_nil hpos⟩
  | cons e es ih =>
    obtain ⟨fuel, rfl⟩ := Nat.exists_eq_add_one_of_ne_zero (Nat.ne_of_gt (Nat.zero_lt_of_lt hfuel))
    have he : e.key.bytes.length ≤ 254 := hes e List.mem_cons_self
    have hent := entSize_bounds he
    have hrec : (record e.key.bytes).reclen = entSize e.key.bytes.length := rfl
    have hsize : size (records (e :: es)) = entSize e.key.bytes.length + size (records es) := rfl
    rw [hsize] at hsum
    by_cases hfull : l.bufPos < bufFin
    · rw [listLoop_put he hit hfull hseek, add32_eq (by omega)]
      by_cases hroom : l.bufPos + entSize e.key.bytes.length > bufFin
      · rw [if_pos hroom]
        exact ⟨l, rfl, page_stop (r := record e.key.bytes) (records es) hpos (by omega)⟩
      · rw [if_neg hroom]
        have hwrote := wrote_put l e.key.bytes e.key.nul_free he (by omega) htotal (by omega)
        have hbuf := hwrote.bufPos
        have htot := hwrote.total
        simp only [size_cons, size_nil, hrec] at hbuf htot
        obtain ⟨l', hloop, hpage⟩ := ih (fun x hx => hes x (List.mem_cons_of_mem e hx))
          (HashTable.Iterator.next_of_cons hit).2 (Nat.lt_of_succ_lt_succ hfuel)
          (l := l.put e.key.bytes (entSize e.key.bytes.length)) (by omega) (by omega) (by omega)
        exact ⟨l', hloop, hpage.cons (valid_record he) hwrote⟩
    · refine ⟨l, ?_, page_stop (r := record e.key.bytes) (records es) hpos (by omega)⟩
      rw [listLoop, if_neg hfull]

/-- Before it, the loop goes past the records already returned. -/
theorem listLoop_skips {done : List (HashEntry Name Nat)} (hes : Named done) (fuel : Nat)
    (hit : it.remaining t = done ++ es) (hpos : l.bufPos < bufFin) (pos : Int) (h0 : 0 ≤ pos)
    (hseek : seek = pos + size (records done)) (hlt : seek < 2147483648) :
    ∃ it' : HashTable.Iterator Name Nat, it'.remaining t = es ∧
      listLoop t bufFin seek (done.length + fuel) it pos l =
        listLoop t bufFin seek fuel it' seek l := by
  induction done generalizing it pos with
  | nil =>
    refine ⟨it, hit, ?_⟩
    rw [hseek, List.length_nil, Nat.zero_add]
    simp [records]
  | cons e done ih =>
    have he : e.key.bytes.length ≤ 254 := hes e List.mem_cons_self
    have hpos' := (valid_record he).reclen_pos
    have hsize : size (records (e :: done)) =
      (record e.key.bytes).reclen + size (records done) := rfl
    rw [hsize] at hseek
    obtain ⟨it', hit', hloop⟩ := ih (fun x hx => hes x (List.mem_cons_of_mem e hx))
      (HashTable.Iterator.next_of_cons hit).2 (pos + (record e.key.bytes).reclen) (by omega)
      (by omega)
    refine ⟨it', hit', ?_⟩
    rw [List.length_cons, Nat.add_right_comm, listLoop_skip he hit hpos (by omega),
      s32_eq (by omega) (by omega)]
    exact hloop

/-! ## One call -/

theorem listing_eq (d : DirectoryNode) :
    d.listing = record [46] :: record [46, 46] :: records d.entries.reachable := rfl

/-- What `get_entries` does from the record for ".." on. -/
theorem dotdot_page (hd : Named d.entries.reachable) (hseek : seek ≤ 24) (hpos : l.bufPos ≤ bufFin)
    (hfin : bufFin ≤ 0xC0000000) (htotal : 0 ≤ l.total)
    (hsum : l.total + 24 + size (records d.entries.reachable) < 2147483648) :
    ∃ l', (if l.bufPos > bufFin then some l
        else if add32 l.bufPos 24 > bufFin then some l
        else listLoop d.entries bufFin seek (d.entries.reachable.length + 1) .make
          (((24 : Nat) : Int) + ((24 : Nat) : Int)) (l.put [46, 46] 24)) = some l' ∧
      Page bufFin l (record [46, 46] :: records d.entries.reachable) l' := by
  have hreclen : (record [46, 46]).reclen = 24 := rfl
  rw [if_neg (by omega), add32_eq (by omega)]
  by_cases hroom : l.bufPos + 24 > bufFin
  · rw [if_pos hroom]
    exact ⟨l, rfl, page_stop _ hpos (by omega)⟩
  · rw [if_neg hroom]
    have hwrote : Wrote l (l.put [46, 46] 24) [record [46, 46]] :=
      wrote_put l [46, 46] (by decide) (by decide) (show l.bufPos + 24 < _ by omega) htotal
        (show l.total + 24 < _ by omega)
    have hbuf := hwrote.bufPos
    have htot := hwrote.total
    simp only [size_cons, size_nil, hreclen] at hbuf htot
    obtain ⟨l', hloop, hpage⟩ := listLoop_page hd
      (HashTable.Iterator.remaining_make d.entries) (Nat.lt_succ_self _)
      (show seek ≤ 48 by omega) (l := l.put [46, 46] 24) (by omega) hfin (by omega) (by omega)
    exact ⟨l', hloop, hpage.cons ⟨[46, 46], by decide, by decide, rfl⟩ hwrote⟩

theorem bufFin_eq {dp count : Nat} (h : dp + count ≤ 0xC0000000) :
    (((dp : Int) + (count : Int)) % 4294967296).toNat = dp + count := by
  omega

theorem getEntries_later (d : DirectoryNode) (hseek : 24 < seek) (mem : Bytes) {dp count : Nat}
    (hbuf : dp + count ≤ 0xC0000000) :
    d.getEntries seek mem dp count = listLoop d.entries (dp + count) seek
      (d.entries.reachable.length + 1) .make 48 ⟨mem, dp, 0⟩ := by
  have h24 : entSize 1 = 24 := rfl
  have hseek0 : ¬seek = 0 := by omega
  unfold getEntries
  simp only [bufFin_eq hbuf, h24, hseek0, false_and, if_false]
  rw [if_neg (by omega), if_neg (by omega)]
  rfl

theorem getEntries_dotdot (hd : Named d.entries.reachable) (hsize : size d.listing < 2147483648)
    (mem : Bytes) {dp count : Nat} (hbuf : dp + count ≤ 0xC0000000) :
    ∃ l', d.getEntries 24 mem dp count = some l' ∧
      Page (dp + count) ⟨mem, dp, 0⟩ (record [46, 46] :: records d.entries.reachable) l' := by
  have h24 : entSize 1 = 24 := rfl
  have h24' : entSize 2 = 24 := rfl
  have hsum : 24 + (24 + size (records d.entries.reachable)) < 2147483648 := hsize
  obtain ⟨l', hrest, hpage⟩ := dotdot_page hd (show (24 : Int) ≤ 24 by decide)
    (l := ⟨mem, dp, 0⟩) (show dp ≤ dp + count by omega) (by omega) (by simp) (by simp only; omega)
  refine ⟨l', ?_, hpage⟩
  rw [← hrest]
  unfold getEntries
  simp only [bufFin_eq hbuf, h24, h24']
  rw [if_neg (by omega)]
  rfl

theorem getEntries_start (hd : Named d.entries.reachable) (hsize : size d.listing < 2147483648)
    (mem : Bytes) {dp count : Nat} (hbuf : dp + count ≤ 0xC0000000) :
    ∃ l', d.getEntries 0 mem dp count = some l' ∧
      Page (dp + count) ⟨mem, dp, 0⟩ d.listing l' := by
  have h24 : entSize 1 = 24 := rfl
  have h24' : entSize 2 = 24 := rfl
  have hreclen : (record [46]).reclen = 24 := rfl
  have hsum : 24 + (24 + size (records d.entries.reachable)) < 2147483648 := hsize
  unfold getEntries
  simp only [bufFin_eq hbuf, h24, h24', true_and, if_true]
  rw [if_neg (by omega), add32_eq (by omega)]
  by_cases hroom : dp + 24 > dp + count
  · rw [if_pos hroom]
    exact ⟨_, rfl, page_stop _ (by simp only; omega) (by simp only; omega)⟩
  · rw [if_neg hroom, if_pos (by omega)]
    have hwrote : Wrote ⟨mem, dp, 0⟩ (Listed.put [46] 24 ⟨mem, dp, 0⟩) [record [46]] :=
      wrote_put ⟨mem, dp, 0⟩ [46] (by decide) (by decide) (show dp + 24 < _ by omega)
        (Int.le_refl 0) (show (0 : Int) + 24 < _ by decide)
    have hpos := hwrote.bufPos
    have htot := hwrote.total
    simp only [size_cons, size_nil, hreclen] at hpos htot
    obtain ⟨l', hrest, hpage⟩ := dotdot_page hd (show (0 : Int) ≤ 24 by decide)
      (l := Listed.put [46] 24 ⟨mem, dp, 0⟩) (show _ ≤ dp + count by omega) (by omega) (by omega)
      (by omega)
    exact ⟨l', hrest, hpage.cons ⟨[46], by decide, by decide, rfl⟩ hwrote⟩

/-- A call that starts at a record boundary returns what fits. -/
theorem getEntries_page (hd : Named d.entries.reachable) {done rest : List Record}
    (hlist : d.listing = done ++ rest) (hsize : size d.listing < 2147483648) (mem : Bytes)
    {dp count : Nat} (hcount : 0 < count) (hbuf : dp + count ≤ 0xC0000000) :
    ∃ l', d.getEntries (size done) mem dp count = some l' ∧
      Page (dp + count) ⟨mem, dp, 0⟩ rest l' := by
  rcases done with _ | ⟨r, _ | ⟨r', done⟩⟩
  · rw [← show d.listing = rest from hlist]
    exact getEntries_start hd hsize mem hbuf
  · obtain ⟨rfl, rfl⟩ := List.cons.inj hlist
    exact getEntries_dotdot hd hsize mem hbuf
  · obtain ⟨hr, htail⟩ := List.cons.inj hlist
    obtain ⟨hr', hmap⟩ := List.cons.inj htail
    subst hr hr'
    obtain ⟨skipped, es, hes, rfl, rfl⟩ := List.map_eq_append_iff.1 hmap
    have hsum : 24 + (24 + size (records (skipped ++ es))) < 2147483648 := hes ▸ hsize
    rw [records, List.map_append, size_append] at hsum
    have hseek : ((size (record [46] :: record [46, 46] :: records skipped) : Nat) : Int) =
        48 + size (records skipped) := by
      show ((24 + (24 + size (records skipped)) : Nat) : Int) = _
      omega
    obtain ⟨it, hit, hloop⟩ := listLoop_skips (t := d.entries)
      (show Named skipped from fun x hx => hd x (hes ▸ List.mem_append_left es hx)) (es.length + 1)
      ((HashTable.Iterator.remaining_make d.entries).trans hes) (l := ⟨mem, dp, 0⟩)
      (show dp < dp + count by omega) 48 (by decide) rfl (by unfold records; omega)
    obtain ⟨l', hrest, hpage⟩ := listLoop_page (t := d.entries)
      (fun x hx => hd x (hes ▸ List.mem_append_right skipped hx)) hit (Nat.lt_succ_self _)
      (Int.le_refl (48 + size (records skipped))) (l := ⟨mem, dp, 0⟩)
      (show dp ≤ dp + count by omega)
      (by omega) (Int.le_refl 0) (by unfold records; simp only; omega)
    refine ⟨l', ?_, hpage⟩
    have hlen : d.entries.reachable.length + 1 = skipped.length + (es.length + 1) := by
      rw [hes, List.length_append, Nat.add_assoc]
    show d.getEntries (size (record [46] :: record [46, 46] :: records skipped) : Nat) mem dp
      count = _
    rw [hseek, getEntries_later d (by omega) mem hbuf, hlen, hloop, hrest]

/-! ## A whole listing -/

/-- The arguments of a call, with the memory it finds. -/
structure Buffer where
  mem : Bytes
  addr : Nat
  count : Nat

/-- `File::get_entries` of an open directory: its result, the memory and the file. -/
def fileGetEntries (d : DirectoryNode) (f : File) (b : Buffer) : Option (Int × Bytes × File) :=
  (d.getEntries (s32 f.offset) b.mem b.addr b.count).map fun l => (l.total, l.mem, f.listed l.total)

/-- The file after `n` calls on a fresh one, and the records read. -/
def readAll (d : DirectoryNode) (bufs : Nat → Buffer) : Nat → Option (File × List Record)
  | 0 => some (.make, [])
  | n + 1 =>
    (readAll d bufs n).bind fun st => (fileGetEntries d st.1 (bufs n)).map fun r =>
      (r.2.2, st.2 ++
        readRecords r.2.1 r.1.toNat (bufs n).addr ((bufs n).addr + r.1.toNat))

/-- The result of call `n`. -/
def result (d : DirectoryNode) (bufs : Nat → Buffer) (n : Nat) : Option Int :=
  (readAll d bufs n).bind fun st => (fileGetEntries d st.1 (bufs n)).map Prod.fst

/-- The entries of the table, with their names, are in the kernel's part of the address
space: an `Entry` has 36 bytes, and a name of more than 14 bytes has a block of its
own. -/
def InKernel (d : DirectoryNode) : Prop :=
  (d.entries.reachable.map fun e =>
    36 + if e.key.bytes.length < 15 then 0 else e.key.bytes.length + 1).sum ≤
      4294967296 - 0xC0000000

/-- The buffer is in the user's part of the address space and has room for every record. -/
structure Buffer.Fits (d : DirectoryNode) (b : Buffer) : Prop where
  user : b.addr + b.count ≤ 0xC0000000
  room : ∀ r ∈ d.listing, r.reclen ≤ b.count

theorem size_records_le (hes : Named es) :
    size (records es) ≤ (es.map fun e =>
      36 + if e.key.bytes.length < 15 then 0 else e.key.bytes.length + 1).sum := by
  unfold size records
  rw [List.map_map]
  refine List.sum_le_sum fun e he => ?_
  have hent := entSize_bounds (hes e he)
  show entSize e.key.bytes.length ≤ _
  unfold entSize alignUp sizeofDirent at hent ⊢
  rw [add32_eq (by have := hes e he; omega)] at hent ⊢
  split <;> omega

theorem size_listing_lt (hd : Named d.entries.reachable) (hk : d.InKernel) :
    size d.listing < 2147483648 := by
  have hle := size_records_le hd
  unfold InKernel at hk
  show 24 + (24 + size (records d.entries.reachable)) < 2147483648
  omega

theorem valid_of_mem_listing (hd : Named d.entries.reachable) {r : Record} (h : r ∈ d.listing) :
    r.Valid := by
  rw [listing_eq, List.mem_cons, List.mem_cons] at h
  rcases h with rfl | rfl | h
  · exact ⟨[46], by decide, by decide, rfl⟩
  · exact ⟨[46, 46], by decide, by decide, rfl⟩
  · obtain ⟨e, he, rfl⟩ := List.mem_map.1 h
    exact valid_record (hd e he)

theorem length_le_size {rs : List Record} (h : ∀ r ∈ rs, r.Valid) : rs.length ≤ size rs := by
  induction rs with
  | nil => rfl
  | cons r rs ih =>
    have hpos := (h r List.mem_cons_self).reclen_pos
    have htail := ih fun x hx => h x (List.mem_cons_of_mem r hx)
    rw [List.length_cons, size_cons]
    omega

/-- One call of the reader: some of the records to come, and at least one if there are
any. -/
theorem readAll_succ (hd : Named d.entries.reachable) (hk : d.InKernel) {bufs : Nat → Buffer}
    {n : Nat} (hb : (bufs n).Fits d) {done rest : List Record} (hlist : d.listing = done ++ rest)
    (h : readAll d bufs n = some (⟨size done⟩, done)) :
    ∃ taken rest', rest = taken ++ rest' ∧ (taken = [] → rest = []) ∧
      readAll d bufs (n + 1) = some (⟨size (done ++ taken)⟩, done ++ taken) ∧
      result d bufs n = some (size taken : Nat) := by
  have hsize := size_listing_lt hd hk
  have hsum : size done + size rest < 2147483648 := by rwa [hlist, size_append] at hsize
  have hcount : 24 ≤ (bufs n).count := hb.room (record [46]) List.mem_cons_self
  obtain ⟨l', hcall, taken, rest', rfl, hwrote, hfin, hmax⟩ :=
    getEntries_page hd hlist hsize (bufs n).mem (Nat.lt_of_lt_of_le (by decide) hcount) hb.user
  have hvalid : ∀ r ∈ taken, r.Valid := fun r hr => valid_of_mem_listing hd
    (hlist ▸ List.mem_append_right done (List.mem_append_left rest' hr))
  have htotal : l'.total = (size taken : Nat) := by
    rw [hwrote.total]
    simp
  rw [size_append] at hsum
  have hfile : fileGetEntries d ⟨size done⟩ (bufs n) =
      some (((size taken : Nat) : Int), l'.mem, ⟨size (done ++ taken)⟩) := by
    unfold fileGetEntries File.listed
    rw [s32_eq (by simp only; omega) (by simp only; omega), hcall, Option.map_some, htotal,
      size_append]
    congr 4
    simp only
    omega
  refine ⟨taken, rest', rfl, fun htaken => ?_, ?_, ?_⟩
  · subst htaken
    cases rest' with
    | nil => rfl
    | cons r rest' =>
      -- the first record fits, so something was written
      have hroom := hb.room r (hlist ▸ List.mem_append_right done List.mem_cons_self)
      have hlast := hmax r rfl
      have hpos := hwrote.bufPos
      simp only [size_nil] at hpos
      omega
  · rw [readAll, h, Option.bind_some, hfile, Option.map_some]
    simp only [Int.toNat_natCast]
    rw [readRecords_eq hvalid hwrote.stored (length_le_size hvalid)]
  · rw [result, h, Option.bind_some, hfile]
    rfl

theorem readAll_rest (hd : Named d.entries.reachable) (hk : d.InKernel) {bufs : Nat → Buffer}
    (hb : ∀ n, (bufs n).Fits d) (m : Nat) {n : Nat} {done rest : List Record} (hm : rest.length ≤ m)
    (hlist : d.listing = done ++ rest) (h : readAll d bufs n = some (⟨size done⟩, done)) :
    ∃ k, n ≤ k ∧ readAll d bufs k = some (⟨size d.listing⟩, d.listing) ∧
      result d bufs k = some 0 ∧
      ∀ i, n ≤ i → i < k → ∃ r : Int, result d bufs i = some r ∧ r ≠ 0 := by
  induction m generalizing n done rest with
  | zero =>
    obtain rfl := List.eq_nil_of_length_eq_zero (Nat.le_zero.1 hm)
    obtain ⟨taken, rest', hrest, -, -, hres⟩ := readAll_succ hd hk (hb n) hlist h
    obtain ⟨rfl, rfl⟩ := List.append_eq_nil_iff.1 hrest.symm
    rw [List.append_nil] at hlist
    exact ⟨n, Nat.le_refl n, hlist ▸ h, hres, fun i h₁ h₂ => absurd h₂ (Nat.not_lt.2 h₁)⟩
  | succ m ih =>
    obtain ⟨taken, rest', rfl, hnil, hnext, hres⟩ := readAll_succ hd hk (hb n) hlist h
    by_cases htaken : taken = []
    · subst htaken
      obtain rfl : rest' = [] := hnil rfl
      rw [List.append_nil, List.append_nil] at hlist
      exact ⟨n, Nat.le_refl n, hlist ▸ h, hres, fun i h₁ h₂ => absurd h₂ (Nat.not_lt.2 h₁)⟩
    · have hlen : 0 < taken.length := List.length_pos_iff.2 htaken
      rw [List.length_append] at hm
      obtain ⟨k, hk₁, hk₂, hk₃, hk₄⟩ := ih (by omega)
        (hlist.trans (List.append_assoc done taken rest').symm) hnext
      refine ⟨k, by omega, hk₂, hk₃, fun i h₁ h₂ => ?_⟩
      rcases Nat.lt_or_ge n i with hi | hi
      · exact hk₄ i hi h₂
      · obtain rfl : i = n := by omega
        have hvalid : ∀ r ∈ taken, r.Valid := fun r hr => valid_of_mem_listing hd
          (hlist ▸ List.mem_append_right done (List.mem_append_left rest' hr))
        have hsize := length_le_size hvalid
        exact ⟨_, hres, by omega⟩

/-- Whatever the buffers are, the records read before the first call that returns 0 are
those of the directory, and there is such a call. -/
theorem listing_complete (d : DirectoryNode) (hk : d.InKernel)
    (hd : ∀ e ∈ d.entries.reachable, e.key.bytes.length ≤ 254) (bufs : Nat → Buffer)
    (hb : ∀ n, (bufs n).Fits d) :
    ∃ k f, readAll d bufs k = some (f, d.listing) ∧ result d bufs k = some 0 ∧
      ∀ i < k, ∃ r : Int, result d bufs i = some r ∧ r ≠ 0 := by
  obtain ⟨k, -, hread, hend, hbefore⟩ := readAll_rest hd hk hb d.listing.length (n := 0)
    (Nat.le_refl _) (show d.listing = [] ++ d.listing from rfl) rfl
  exact ⟨k, _, hread, hend, fun i hi => hbefore i (Nat.zero_le i) hi⟩

/-- A directory with one file. -/
def oneFile : DirectoryNode := make.createFile .a 7

/-- The directory is read with room for two records. -/
theorem listing_complete_oneFile :
    oneFile.listing = [⟨24, [46]⟩, ⟨24, [46, 46]⟩, ⟨24, [97]⟩] ∧
      ∃ k f, readAll oneFile (fun _ => ⟨fun _ => 0, 4096, 50⟩) k = some (f, oneFile.listing) ∧
        result oneFile (fun _ => ⟨fun _ => 0, 4096, 50⟩) k = some 0 ∧
        ∀ i < k, ∃ r : Int,
          result oneFile (fun _ => ⟨fun _ => 0, 4096, 50⟩) i = some r ∧ r ≠ 0 :=
  ⟨by decide, listing_complete oneFile (by unfold InKernel; decide) (by decide)
    (fun _ => ⟨fun _ => 0, 4096, 50⟩) fun _ => ⟨by decide, by decide⟩⟩

end Ulysses.Tmpfs.DirectoryNode
