import Mathlib.Logic.Function.Basic
import Mathlib.Data.List.GetD
import Mathlib.Tactic.SplitIfs
import Mathlib.Tactic.Tauto

/-!
# The screen

`put`, `scroll`, `move_cursor` and `clear` of `console.cpp`, over the video memory of the
VGA board. `Text` is what has been put as lines, of which the screen shows the last 25
(`Shows`).
-/

namespace Ulysses

/-- `Console`, with the video memory, the cursor registers of the board (14 and 15) and the
indices at which the video memory was written, the last one first. -/
structure Screen where
  video : Nat → Nat
  x : Nat
  y : Nat
  high : Nat
  low : Nat
  writes : List Nat

namespace Screen

/-- White on black. -/
def attributeWord : Nat := 15 <<< 8

def blank : Nat := 0x20 ||| attributeWord

def write (i v : Nat) (s : Screen) : Screen :=
  { s with video := Function.update s.video i v, writes := i :: s.writes }

def moveCursor (s : Screen) : Screen :=
  let loc := (s.y * 80 + s.x) % 65536
  { s with high := loc / 256, low := loc % 256 }

/-- The first loop of `scroll`. -/
def moveUp (s : Screen) : Screen :=
  (List.range (24 * 80)).foldl (fun s i => s.write i (s.video (i + 80))) s

/-- `n` blanks from index `a` on. -/
def blanks (a n : Nat) (s : Screen) : Screen :=
  (List.range n).foldl (fun s i => s.write (a + i) blank) s

def scroll (s : Screen) : Screen :=
  if s.y ≥ 25 then { blanks (24 * 80) 80 s.moveUp with y := 24 } else s

/-- What `put` does with a character before it looks at the ends of the screen. The
comparison with a blank is that of a signed `char`. -/
def place (c : UInt8) (s : Screen) : Screen :=
  if c = 0x08 ∧ s.x ≠ 0 then { s with x := s.x - 1 }
  else if c = 0x09 then { s with x := (s.x + 8) / 8 * 8 % 256 }
  else if c = 13 then { s with x := 0 }
  else if c = 10 then { s with x := 0, y := (s.y + 1) % 256 }
  else if 0x20 ≤ c ∧ c < 0x80 then
    { s.write (s.y * 80 + s.x) (c.toNat ||| attributeWord) with x := (s.x + 1) % 256 }
  else s

def put (c : UInt8) (s : Screen) : Screen :=
  let s := s.place c
  let s := if s.x ≥ 80 then { s with x := 0, y := (s.y + 1) % 256 } else s
  s.scroll.moveCursor

def clear (s : Screen) : Screen :=
  moveCursor { blanks 0 (80 * 25) s with x := 0, y := 0 }

/-! ## What the loops do -/

theorem foldl_moveUp (s : Screen) (n : Nat) :
    (List.range n).foldl (fun s i => s.write i (s.video (i + 80))) s =
      { s with
        video := fun j => if j < n then s.video (j + 80) else s.video j
        writes := (List.range n).reverse ++ s.writes } := by
  induction n with
  | zero => simp
  | succ n ih =>
    rw [List.range_succ, List.foldl_append, ih, List.foldl_cons, List.foldl_nil, write]
    simp only [mk.injEq, true_and]
    refine ⟨funext fun j => ?_, by simp⟩
    rw [Function.update_apply]
    grind

theorem blanks_eq (a n : Nat) (s : Screen) :
    blanks a n s =
      { s with
        video := fun j => if a ≤ j ∧ j < a + n then blank else s.video j
        writes := ((List.range n).map (a + ·)).reverse ++ s.writes } := by
  unfold blanks
  induction n with
  | zero =>
    have hnone : ∀ j, ¬(a ≤ j ∧ j < a + 0) := fun j => by omega
    simp only [hnone, if_false]
    rfl
  | succ n ih =>
    rw [List.range_succ, List.foldl_append, ih, List.foldl_cons, List.foldl_nil, write]
    simp only [mk.injEq, true_and]
    refine ⟨funext fun j => ?_, by simp⟩
    rw [Function.update_apply]
    grind

end Screen

/-! ## Lines of text -/

/-- The lines that are ended, and the one that the next character goes to. -/
structure Text where
  previous : List (List UInt8)
  current : List UInt8

namespace Text

def empty : Text := ⟨[], []⟩

def lines (t : Text) : List (List UInt8) := t.previous ++ [t.current]

/-- A line ends at a newline and with its 80th character. -/
def put (t : Text) (c : UInt8) : Text :=
  if c = 10 then ⟨t.lines, []⟩
  else if t.current.length + 1 = 80 then ⟨t.previous ++ [t.current ++ [c]], []⟩
  else ⟨t.previous, t.current ++ [c]⟩

/-- The number of lines above the last 25. -/
def top (t : Text) : Nat := t.lines.length - 25

/-- The character of row `r` and column `col` of the last 25 lines. -/
def cell (t : Text) (r col : Nat) : UInt8 := (t.lines.getD (t.top + r) []).getD col 0x20

theorem length_lines (t : Text) : t.lines.length = t.previous.length + 1 := by
  rw [lines, List.length_append, List.length_singleton]

theorem top_eq (t : Text) : t.top = t.previous.length - 24 := by
  unfold top
  rw [length_lines]
  omega

theorem top_congr (previous : List (List UInt8)) (current current' : List UInt8) :
    top ⟨previous, current⟩ = top ⟨previous, current'⟩ := by
  rw [top_eq, top_eq]

theorem cell_append (previous : List (List UInt8)) (current : List UInt8) (c : UInt8)
    {r col : Nat} :
    cell ⟨previous, current ++ [c]⟩ r col =
      if top ⟨previous, current⟩ + r = previous.length ∧ col = current.length then c
      else cell ⟨previous, current⟩ r col := by
  unfold cell
  rw [top_congr previous (current ++ [c]) current]
  generalize top ⟨previous, current⟩ + r = k
  simp only [lines, List.getD_eq_getElem?_getD, List.getElem?_append]
  by_cases hlt : k < previous.length
  · rw [if_pos hlt, if_pos hlt, if_neg (by omega)]
  · rw [if_neg hlt, if_neg hlt]
    by_cases heq : k = previous.length
    · subst heq
      simp only [Nat.sub_self, List.getElem?_cons_zero, Option.getD_some, true_and,
        List.getElem?_append]
      grind
    · have hnone : ∀ line : List UInt8, [line][k - previous.length]? = none := fun line =>
        List.getElem?_eq_none (show 1 ≤ k - previous.length by omega)
      rw [if_neg (by omega), hnone, hnone]

theorem getD_newline (t : Text) (k : Nat) :
    (lines ⟨t.lines, []⟩).getD k [] = t.lines.getD k [] := by
  show (t.lines ++ [[]]).getD k [] = _
  rw [List.getD_eq_getElem?_getD, List.getD_eq_getElem?_getD, List.getElem?_append]
  split
  · rfl
  · rw [List.getElem?_eq_none (l := t.lines) (by omega)]
    cases k - t.lines.length <;> rfl

theorem cell_newline_of_lt {t : Text} (h : t.previous.length < 24) (r col : Nat) :
    cell ⟨t.lines, []⟩ r col = t.cell r col := by
  have htop : top ⟨t.lines, []⟩ = t.top := by
    rw [top_eq, top_eq, length_lines]
    omega
  unfold cell
  rw [getD_newline, htop]

theorem cell_newline_of_le {t : Text} (h : 24 ≤ t.previous.length) (r col : Nat) :
    cell ⟨t.lines, []⟩ r col = t.cell (r + 1) col := by
  have htop : top ⟨t.lines, []⟩ + r = t.top + (r + 1) := by
    rw [top_eq, top_eq, length_lines]
    omega
  unfold cell
  rw [getD_newline, htop]

theorem cell_beyond {t : Text} {r col : Nat} (h : t.previous.length < t.top + r) :
    t.cell r col = 0x20 := by
  unfold cell
  rw [List.getD_eq_default t.lines _ (by rw [length_lines]; omega)]
  rfl

theorem length_le_put (t : Text) (h : ∀ line ∈ t.lines, line.length ≤ 80)
    (hcurrent : t.current.length < 80) (c : UInt8) :
    ∀ line ∈ (t.put c).lines, line.length ≤ 80 := by
  intro line hline
  have hnew : (t.current ++ [c]).length ≤ 80 := by
    rw [List.length_append]
    exact hcurrent
  have hmem : line ∈ t.lines ∨ line = [] ∨ line = t.current ++ [c] := by
    unfold put at hline
    unfold lines at hline ⊢
    split_ifs at hline <;>
      simp only [List.mem_append, List.mem_singleton] at hline ⊢ <;>
      tauto
  rcases hmem with hmem | rfl | rfl
  · exact h line hmem
  · exact Nat.zero_le 80
  · exact hnew

end Text

/-! ## The screen shows the text -/

namespace Screen

/-- The rows of the video memory are the last lines of the text. -/
def Filled (video : Nat → Nat) (t : Text) : Prop :=
  ∀ r < 25, ∀ col < 80, video (r * 80 + col) = (t.cell r col).toNat ||| attributeWord

/-- So they are, and the cursor is at the end of the text. -/
structure Shows (s : Screen) (t : Text) : Prop where
  filled : Filled s.video t
  x : s.x = t.current.length
  y : t.top + s.y = t.previous.length
  x_lt : s.x < 80
  y_lt : s.y < 25

section

variable {s : Screen} {t : Text}

theorem filled_write {c : UInt8} {previous : List (List UInt8)} {current : List UInt8}
    (h : Filled s.video ⟨previous, current⟩) (hx : s.x = current.length)
    (hy : Text.top ⟨previous, current⟩ + s.y = previous.length) (hlt : s.x < 80) :
    Filled (s.write (s.y * 80 + s.x) (c.toNat ||| attributeWord)).video
      ⟨previous, current ++ [c]⟩ := by
  intro r hr col hcol
  show Function.update s.video (s.y * 80 + s.x) _ (r * 80 + col) = _
  rw [Text.cell_append, ← hx, Function.update_apply]
  by_cases hat : r * 80 + col = s.y * 80 + s.x
  · rw [if_pos hat, if_pos ⟨by omega, by omega⟩]
  · rw [if_neg hat, if_neg (by omega)]
    exact h r hr col hcol

theorem scroll_of_lt (h : s.y < 25) : s.scroll = s := if_neg (Nat.not_le.2 h)

theorem scroll_video (h : s.y = 25) {r col : Nat} (hcol : col < 80) :
    s.scroll.video (r * 80 + col) =
      if r < 24 then s.video ((r + 1) * 80 + col)
      else if r = 24 then blank else s.video (r * 80 + col) := by
  unfold scroll
  rw [if_pos (by omega), blanks_eq, moveUp, foldl_moveUp]
  show (if 24 * 80 ≤ r * 80 + col ∧ r * 80 + col < 24 * 80 + 80 then blank
    else if r * 80 + col < 24 * 80 then s.video (r * 80 + col + 80)
    else s.video (r * 80 + col)) = _
  by_cases hr : r < 24
  · rw [if_neg (by omega), if_pos (by omega), if_pos hr]
    congr 1
    omega
  · rw [if_neg hr]
    by_cases hr' : r = 24
    · rw [if_pos (by omega), if_pos hr']
    · rw [if_neg (by omega), if_neg (by omega), if_neg hr']

theorem shows_newline (h : Filled s.video t) (hy : t.top + s.y = t.previous.length)
    (hlt : s.y < 25) :
    Shows (scroll { s with x := 0, y := (s.y + 1) % 256 }) ⟨t.lines, []⟩ := by
  have htop := t.top_eq
  have htop' : Text.top ⟨t.lines, []⟩ = t.previous.length + 1 - 24 := by
    rw [Text.top_eq, t.length_lines]
  have hmod : (s.y + 1) % 256 = s.y + 1 := Nat.mod_eq_of_lt (by omega)
  rw [hmod]
  by_cases hlast : s.y = 24
  · have hscroll : s.y + 1 = 25 := by omega
    have hy' : (scroll { s with x := 0, y := s.y + 1 }).y = 24 := by
      unfold scroll
      rw [if_pos (Nat.le_of_eq hscroll.symm)]
    have hx' : (scroll { s with x := 0, y := s.y + 1 }).x = 0 := by
      unfold scroll
      rw [if_pos (Nat.le_of_eq hscroll.symm), blanks_eq, moveUp, foldl_moveUp]
    refine ⟨fun r hr col hcol => ?_, hx', ?_, by omega, by omega⟩
    · rw [scroll_video hscroll hcol, Text.cell_newline_of_le (by omega)]
      by_cases hr24 : r < 24
      · rw [if_pos hr24, h (r + 1) (by omega) col hcol]
      · rw [if_neg hr24, if_pos (by omega), Text.cell_beyond (by omega)]
        rfl
    · rw [hy', htop', t.length_lines]
      omega
  · have hroom : s.y + 1 < 25 := by omega
    rw [scroll_of_lt hroom]
    refine ⟨fun r hr col hcol => ?_, rfl, ?_, Nat.zero_lt_succ 79, hroom⟩
    · rw [h r hr col hcol, Text.cell_newline_of_lt (by omega)]
    · show Text.top ⟨t.lines, []⟩ + (s.y + 1) = t.lines.length
      rw [htop', t.length_lines]
      omega

/-- A character that is printed, or a newline. -/
def Printable (c : UInt8) : Prop := c = 10 ∨ 0x20 ≤ c ∧ c ≤ 0x7e

instance (c : UInt8) : Decidable (Printable c) := inferInstanceAs (Decidable (_ ∨ _))

theorem Shows.moveCursor (h : Shows s t) : Shows s.moveCursor t :=
  ⟨h.filled, h.x, h.y, h.x_lt, h.y_lt⟩

theorem place_of_le {c : UInt8} (hlo : 0x20 ≤ c) (hhi : c ≤ 0x7e) (hx : s.x < 80) :
    s.place c = { s.write (s.y * 80 + s.x) (c.toNat ||| attributeWord) with x := s.x + 1 } := by
  have hne : ∀ d : UInt8, d < 0x20 → c ≠ d := by
    rintro d hd rfl
    exact absurd hlo (UInt8.not_le.2 hd)
  have hlt : c < 0x80 := UInt8.lt_of_le_of_lt hhi (by decide)
  unfold place
  rw [if_neg fun h => hne _ (by decide) h.1, if_neg (hne _ (by decide)), if_neg (hne _ (by decide)),
    if_neg (hne _ (by decide)), if_pos ⟨hlo, hlt⟩, Nat.mod_eq_of_lt (by omega)]

theorem Shows.put (h : Shows s t) {c : UInt8} (hc : Printable c) : Shows (s.put c) (t.put c) := by
  unfold Screen.put
  refine Shows.moveCursor ?_
  rcases hc with rfl | ⟨hlo, hhi⟩
  · have hplace : s.place 10 = { s with x := 0, y := (s.y + 1) % 256 } := rfl
    rw [hplace, if_neg (Nat.not_le.2 (Nat.zero_lt_succ 79))]
    exact shows_newline h.filled h.y h.y_lt
  · obtain ⟨previous, current⟩ := t
    have hfilled := filled_write (c := c) h.filled h.x h.y h.x_lt
    have hten : c ≠ 10 := by
      rintro rfl
      exact absurd hlo (by decide)
    have hx : s.x = current.length := h.x
    have hy : Text.top ⟨previous, current ++ [c]⟩ + s.y = previous.length := by
      rw [Text.top_congr previous (current ++ [c]) current]
      exact h.y
    rw [place_of_le hlo hhi h.x_lt, Text.put, if_neg hten, ← hx]
    by_cases hwrap : s.x + 1 = 80
    · rw [if_pos hwrap, if_pos (Nat.le_of_eq hwrap.symm)]
      exact shows_newline hfilled hy h.y_lt
    · have hlt : s.x + 1 < 80 := Nat.lt_of_le_of_ne h.x_lt hwrap
      rw [if_neg hwrap, if_neg (Nat.not_le.2 hlt), scroll_of_lt (by exact h.y_lt)]
      refine ⟨hfilled, ?_, hy, hlt, h.y_lt⟩
      show s.x + 1 = (current ++ [c]).length
      rw [hx, List.length_append, List.length_singleton]

theorem shows_clear (s : Screen) : Shows s.clear .empty := by
  refine Shows.moveCursor
    ⟨fun r hr col hcol => ?_, rfl, rfl, Nat.zero_lt_succ 79, Nat.zero_lt_succ 24⟩
  rw [blanks_eq]
  show (if 0 ≤ r * 80 + col ∧ r * 80 + col < 0 + 80 * 25 then blank else _) = _
  rw [if_pos (by omega)]
  have hcell : Text.empty.cell r col = 0x20 := by
    cases r with
    | zero => rfl
    | succ r => exact Text.cell_beyond (Nat.zero_lt_succ _)
  rw [hcell]
  rfl

/-! ## The indices written and the cursor of the board -/

/-- The indices written since are those of cells of the screen. -/
def Within (before : List Nat) (s : Screen) : Prop := ∀ i ∈ s.writes, i ∈ before ∨ i < 80 * 25

variable {before : List Nat}

theorem Within.scroll (h : Within before s) : Within before s.scroll := by
  unfold Screen.scroll
  split
  · rw [blanks_eq, moveUp, foldl_moveUp]
    intro i hi
    simp only [List.mem_append, List.mem_reverse, List.mem_map, List.mem_range] at hi
    rcases hi with ⟨k, hk, rfl⟩ | hi | hi
    · right
      omega
    · right
      omega
    · exact h i hi
  · exact h

theorem Within.place (h : Within before s) (c : UInt8) (hat : s.y * 80 + s.x < 80 * 25) :
    Within before (s.place c) := by
  unfold Screen.place
  split_ifs
  · exact h
  · exact h
  · exact h
  · exact h
  · intro i hi
    rcases List.mem_cons.1 hi with rfl | hi
    · exact .inr hat
    · exact h i hi
  · exact h

theorem Within.put (h : Within before s) (c : UInt8) (hs : Shows s t) :
    Within before (s.put c) := by
  have hplace := h.place c (by have := hs.x_lt; have := hs.y_lt; omega)
  unfold Screen.put
  refine Within.scroll ?_
  split
  · exact hplace
  · exact hplace

theorem within_clear (s : Screen) : Within s.writes s.clear := by
  unfold clear
  rw [blanks_eq]
  intro i hi
  rcases List.mem_append.1 hi with hi | hi
  · simp only [List.mem_reverse, List.mem_map, List.mem_range] at hi
    right
    omega
  · exact .inl hi

/-- The board has the place of the cursor. -/
def Cursor (s : Screen) : Prop := s.high * 256 + s.low = s.y * 80 + s.x

theorem cursor_moveCursor (h : s.y * 80 + s.x < 65536) : Cursor s.moveCursor := by
  show (s.y * 80 + s.x) % 65536 / 256 * 256 + (s.y * 80 + s.x) % 65536 % 256 = s.y * 80 + s.x
  omega

theorem Shows.cursor_put {c : UInt8} (h : Shows (s.put c) t) : Cursor (s.put c) := by
  have hx := h.x_lt
  have hy := h.y_lt
  refine cursor_moveCursor ?_
  show (s.put c).y * 80 + (s.put c).x < 65536
  omega

/-- What each character keeps. -/
structure Inv (before : List Nat) (s : Screen) (t : Text) : Prop where
  shows : Shows s t
  within : Within before s
  cursor : Cursor s
  width : ∀ line ∈ t.lines, line.length ≤ 80

theorem inv_clear (s : Screen) : Inv s.writes s.clear .empty := by
  refine ⟨shows_clear s, within_clear s, cursor_moveCursor (Nat.zero_lt_succ 65535), ?_⟩
  intro line hline
  rw [List.mem_singleton.1 hline]
  exact Nat.zero_le 80

theorem Inv.put (h : Inv before s t) {c : UInt8} (hc : Printable c) :
    Inv before (s.put c) (t.put c) where
  shows := h.shows.put hc
  within := h.within.put c h.shows
  cursor := (h.shows.put hc).cursor_put
  width := t.length_le_put h.width (h.shows.x ▸ h.shows.x_lt) c

theorem Inv.run (h : Inv before s t) {text : List UInt8} (htext : ∀ c ∈ text, Printable c) :
    Inv before (text.foldl (fun s c => s.put c) s) (text.foldl Text.put t) := by
  induction text generalizing s t with
  | nil => exact h
  | cons c text ih =>
    exact ih (h.put (htext c List.mem_cons_self)) fun d hd => htext d (List.mem_cons_of_mem c hd)

end

/-- **The screen**: after `clear` and any printed characters and newlines, the rows are the
last 25 lines of the text, the cursor is at its end, and all writes were to the screen. -/
theorem shows_run (s : Screen) (text : List UInt8) (h : ∀ c ∈ text, Printable c) :
    Inv s.writes (text.foldl (fun s c => s.put c) s.clear) (text.foldl Text.put .empty) :=
  (inv_clear s).run h

theorem shows_run_lines :
    (∀ c ∈ ([72, 105, 10, 33] : List UInt8), Printable c) ∧
    Inv [] (([72, 105, 10, 33] : List UInt8).foldl (fun s c => s.put c)
      (clear ⟨fun _ => 0, 7, 30, 0, 0, []⟩)) ⟨[[72, 105]], [33]⟩ := by
  have hprintable : ∀ c ∈ ([72, 105, 10, 33] : List UInt8), Printable c := by
    simp [Printable]
  exact ⟨hprintable, shows_run ⟨fun _ => 0, 7, 30, 0, 0, []⟩ _ hprintable⟩

end Screen

end Ulysses
