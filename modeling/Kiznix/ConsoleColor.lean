import Kiznix.Console
import Mathlib.Logic.Function.Basic

/-! The colours on the screen: each cell should have the colour that was in force when its glyph was written, or
when it was blanked. -/

namespace Kiznix.Console

/-- The high byte of an entry. -/
def colorOf (entry : BitVec 16) : BitVec 8 := (entry >>> 8).setWidth 8

/-! ### What the screen should be -/

/-- A screen whose cells hold a glyph and a colour. -/
structure Screen where
  row : Nat
  column : Nat
  color : BitVec 8
  cell : Nat → Char8 × BitVec 8

namespace Screen

/-- The blank screen. -/
def init : Screen := ⟨0, 0, vgaMakeColor lightGrey black, fun _ => (blank, vgaMakeColor lightGrey black)⟩

def setcolor (color : BitVec 8) (p : Screen) : Screen := { p with color := color }

/-- The cell of the cursor. -/
def cursor (p : Screen) : Nat := p.row * vgaWidth + p.column

/-- A glyph in the colour in force, or a new row. -/
def advance (c : Char8) (p : Screen) : Screen :=
  if c = newline then { p with column := 0, row := p.row + 1 }
  else
    let p := { p with cell := Function.update p.cell p.cursor (c, p.color) }
    if p.column + 1 = vgaWidth then { p with column := 0, row := p.row + 1 } else { p with column := p.column + 1 }

/-- The cells move up with their colours, and the last row is blank in the colour in force. -/
def scroll (p : Screen) : Screen :=
  { p with
    row := p.row - 1
    cell := fun i => if i < vgaWidth * (vgaHeight - 1) then p.cell (i + vgaWidth) else (blank, p.color) }

def putchar (c : Char8) (p : Screen) : Screen :=
  let p := p.advance c
  if p.row = vgaHeight then p.scroll else p

end Screen

/-! ### Runs, one byte at a time -/

inductive Action where
  | init
  | setcolor (color : BitVec 8)
  | putchar (c : Char8)

def Action.apply (s : State) : Action → State
  | init => consoleInit s
  | setcolor color => consoleSetcolor color s
  | putchar c => consolePutchar c s

def Screen.apply (p : Screen) : Action → Screen
  | .init => init
  | .setcolor color => p.setcolor color
  | .putchar c => p.putchar c

/-- The calls of a run. -/
inductive Call where
  | init
  | op (o : Op)

namespace Call

def apply (s : State) : Call → State
  | init => consoleInit s
  | op o => o.apply s

def actions : Call → List Action
  | .init => [.init]
  | .op (.setcolor color) => [.setcolor color]
  | .op (.putchar c) => [.putchar c]
  | .op (.write data) => data.map .putchar
  | .op (.writestring data) => (data.takeWhile (· ≠ 0)).map .putchar

theorem foldl_putchar (data : List Char8) (s : State) :
    (data.map Action.putchar).foldl Action.apply s = consoleWrite data s := by
  induction data generalizing s with
  | nil => rfl
  | cons c data ih =>
      rw [List.map_cons, List.foldl_cons, consoleWrite]
      exact ih _

theorem apply_eq (s : State) (call : Call) : call.apply s = call.actions.foldl Action.apply s := by
  cases call with
  | init => rw [apply, actions, List.foldl_cons, List.foldl_nil, Action.apply]
  | op o =>
      cases o with
      | putchar c => rfl
      | setcolor color => rfl
      | write data => exact (foldl_putchar data s).symm
      | writestring data =>
          rw [apply, Op.apply, consoleWritestring_eq]
          exact (foldl_putchar _ s).symm

theorem foldl_apply (calls : List Call) (s : State) :
    calls.foldl apply s = (calls.flatMap actions).foldl Action.apply s := by
  induction calls generalizing s with
  | nil => rfl
  | cons call calls ih => rw [List.foldl_cons, ih, apply_eq, List.flatMap_cons, List.foldl_append]

end Call

/-! ### The entries of the buffer -/

variable {s s' : State} {p p' : Screen} {c : Char8} {color : BitVec 8} {i j : Nat}

/-- A `char` from 0x80 on fills the attribute with ones. -/
theorem colorOf_entry (c : Char8) (color : BitVec 8) :
    colorOf (vgaMakeEntry c color) = if c.msb then 0xFF else color := by
  ext i hi
  by_cases hc : c.msb = true
  · rw [if_pos hc, show (0xFF : BitVec 8) = BitVec.allOnes 8 from rfl, BitVec.getElem_allOnes]
    simp [colorOf, vgaMakeEntry, BitVec.getLsbD_signExtend, hc, show 8 + i < 16 by omega]
  · rw [if_neg hc]
    simp [colorOf, vgaMakeEntry, BitVec.getLsbD_signExtend, hc]
    grind

/-- The entry holds the glyph and the colour of a cell. -/
def Matches (entry : BitVec 16) (cell : Char8 × BitVec 8) : Prop := glyph entry = cell.1 ∧ colorOf entry = cell.2

theorem matches_entry_iff : Matches (vgaMakeEntry c color) (c, color) ↔ c.msb = false ∨ color = 0xFF := by
  rw [Matches, and_iff_right glyph_entry, colorOf_entry]
  cases hc : c.msb with
  | false => simp
  | true =>
      simp only [if_true, Bool.true_eq_false, false_or]
      exact eq_comm

theorem matches_blank (color : BitVec 8) : Matches (vgaMakeEntry 0x20 color) (blank, color) :=
  matches_entry_iff.mpr (Or.inl rfl)

/-! ### One step -/

/-- The cursor and the colour in force are those of the screen. -/
structure Tracks (p : Screen) (s : State) : Prop where
  row : s.consoleRow = p.row
  column : s.consoleColumn = p.column
  color : s.consoleColor = p.color
  row_lt : p.row < vgaHeight
  column_lt : p.column < vgaWidth

/-- Every cell of the buffer has its glyph and its colour. -/
def Coloured (p : Screen) (s : State) : Prop := ∀ i, i < vgaWidth * vgaHeight → Matches (s.buffer i) (p.cell i)

/-- What `console_putchar` does before it looks for the end of the screen. -/
def advance (c : Char8) (s : State) : State :=
  if c = newline then { s with consoleColumn := 0, consoleRow := s.consoleRow + 1 }
  else if s.consoleColumn + 1 = vgaWidth then
    { consolePutentryat c s.consoleColor s.consoleColumn s.consoleRow s with
      consoleColumn := 0, consoleRow := s.consoleRow + 1 }
  else
    { consolePutentryat c s.consoleColor s.consoleColumn s.consoleRow s with consoleColumn := s.consoleColumn + 1 }

/-- The index that `console_putchar` writes. -/
def cursor (s : State) : Nat := s.consoleRow * vgaWidth + s.consoleColumn

theorem consolePutchar_advance (c : Char8) (s : State) : consolePutchar c s = settle (advance c s) := rfl

theorem advance_color (c : Char8) (s : State) : (advance c s).consoleColor = s.consoleColor := by
  rw [advance]
  split
  · rfl
  · split <;> rfl

/-- Only the cell of the cursor is written, and only by a glyph. -/
theorem advance_buffer (c : Char8) (s : State) : (advance c s).buffer =
    if c = newline then s.buffer else Function.update s.buffer (cursor s) (vgaMakeEntry c s.consoleColor) := by
  have hput : (consolePutentryat c s.consoleColor s.consoleColumn s.consoleRow s).buffer =
      Function.update s.buffer (cursor s) (vgaMakeEntry c s.consoleColor) := by
    funext j
    rw [Function.update_apply]
    rfl
  rw [advance]
  split
  · rfl
  · split
    · exact hput
    · exact hput

theorem settle_of_eq (h : s.consoleRow = vgaHeight) :
    settle s = { consoleScroll s with consoleRow := (consoleScroll s).consoleRow - 1 } := if_pos h

/-- What a scroll makes of the cells. -/
theorem settle_buffer (h : s.consoleRow = vgaHeight) (hj : j < vgaWidth * vgaHeight) : (settle s).buffer j =
    if j < vgaWidth * (vgaHeight - 1) then s.buffer (j + vgaWidth) else vgaMakeEntry 0x20 s.consoleColor := by
  rw [settle_of_eq h]
  exact (consoleScroll_spec s).2.1 j hj

/-- A byte changes the cell of the cursor only, or the screen scrolls and all entries move up as they are. -/
def OneCell (c : Char8) (s s' : State) : Prop :=
  if (advance c s).consoleRow = vgaHeight then
    ∃ entries : Nat → BitVec 16, (∀ j, j ≠ cursor s → entries j = s.buffer j) ∧
      ∀ j, j < vgaWidth * vgaHeight → s'.buffer j =
        if j < vgaWidth * (vgaHeight - 1) then entries (j + vgaWidth) else vgaMakeEntry 0x20 s.consoleColor
  else ∀ j, j ≠ cursor s → s'.buffer j = s.buffer j

theorem oneCell_putchar (c : Char8) (s : State) : OneCell c s (consolePutchar c s) := by
  have hother : ∀ j, j ≠ cursor s → (advance c s).buffer j = s.buffer j := by
    intro j hj
    rw [advance_buffer]
    split
    · rfl
    · exact Function.update_of_ne hj _ _
  rw [OneCell, consolePutchar_advance]
  split
  · next hscroll =>
      refine ⟨(advance c s).buffer, hother, fun j hj => ?_⟩
      rw [settle_buffer hscroll hj, advance_color]
  · next hstay =>
      rw [settle, if_neg hstay]
      exact hother

/-! ### The screen follows the buffer -/

namespace Screen

theorem advance_cell (c : Char8) (p : Screen) :
    (p.advance c).cell = if c = newline then p.cell else Function.update p.cell p.cursor (c, p.color) := by
  rw [advance]
  split
  · rfl
  · dsimp only
    split <;> rfl

theorem advance_color (c : Char8) (p : Screen) : (p.advance c).color = p.color := by
  rw [advance]
  split
  · rfl
  · dsimp only
    split <;> rfl

theorem advance_row_le (c : Char8) (p : Screen) : (p.advance c).row ≤ p.row + 1 := by
  rw [advance]
  split
  · exact Nat.le_refl _
  · dsimp only
    split
    · exact Nat.le_refl _
    · exact Nat.le_succ _

end Screen

section Tracks

variable (h : Tracks p s)

include h

theorem Tracks.cursor : cursor s = p.cursor := by
  rw [Console.cursor, Screen.cursor, h.row, h.column]

theorem Tracks.cursor_lt : p.cursor < vgaWidth * vgaHeight := by
  have hrow := h.row_lt
  have hcolumn := h.column_lt
  rw [Screen.cursor]
  rw [vgaWidth, vgaHeight] at *
  omega

theorem Tracks.advance (c : Char8) : (advance c s).consoleRow = (p.advance c).row ∧
    (Console.advance c s).consoleColumn = (p.advance c).column ∧ (p.advance c).row ≤ vgaHeight ∧
      (p.advance c).column < vgaWidth := by
  have hrow := h.row
  have hcolumn := h.column
  have hlt := h.row_lt
  have hcolumn_lt := h.column_lt
  rw [Console.advance, Screen.advance]
  dsimp only
  rw [hcolumn]
  split
  · exact ⟨congrArg (· + 1) hrow, rfl, hlt, Nat.succ_pos 79⟩
  · split
    · exact ⟨congrArg (· + 1) hrow, rfl, hlt, Nat.succ_pos 79⟩
    · next hroom => exact ⟨hrow, rfl, Nat.le_of_lt hlt, Nat.lt_of_le_of_ne hcolumn_lt hroom⟩

theorem Tracks.putchar (c : Char8) : Tracks (p.putchar c) (consolePutchar c s) := by
  obtain ⟨hrow, hcolumn, hle, hlt⟩ := h.advance c
  have hcolor : (Console.advance c s).consoleColor = (p.advance c).color := by
    rw [advance_color, Screen.advance_color, h.color]
  rw [consolePutchar_advance, Screen.putchar]
  split
  · next hfull =>
      have hsame := (consoleScroll_spec (Console.advance c s)).1
      rw [settle_of_eq (hrow.trans hfull), hsame]
      refine ⟨?_, hcolumn, hcolor, ?_, hlt⟩
      · exact congrArg (· - 1) hrow
      · show (p.advance c).row - 1 < _
        rw [hfull]
        decide
  · next hroom =>
      rw [settle, if_neg (hrow.trans_ne hroom)]
      exact ⟨hrow, hcolumn, hcolor, Nat.lt_of_le_of_ne hle hroom, hlt⟩

/-- The cells before the end of the screen is looked for. -/
theorem Tracks.coloured_advance (hcoloured : Coloured p s) (hc : c = newline ∨ c.msb = false ∨ s.consoleColor = 0xFF) :
    Coloured (p.advance c) (Console.advance c s) := by
  intro j hj
  rw [advance_buffer, Screen.advance_cell, h.cursor, h.color]
  split
  · exact hcoloured j hj
  · next hglyph =>
      by_cases hat : j = p.cursor
      · rw [hat, Function.update_self, Function.update_self]
        rw [h.color] at hc
        exact matches_entry_iff.mpr (hc.resolve_left hglyph)
      · rw [Function.update_of_ne hat, Function.update_of_ne hat]
        exact hcoloured j hj

theorem Tracks.coloured_putchar (hcoloured : Coloured p s) (hc : c = newline ∨ c.msb = false ∨ s.consoleColor = 0xFF) :
    Coloured (p.putchar c) (consolePutchar c s) := by
  have hadvance := h.coloured_advance hcoloured hc
  have hrow := (h.advance c).1
  rw [consolePutchar_advance, Screen.putchar]
  split
  · next hfull =>
      intro j hj
      rw [settle_buffer (hrow.trans hfull) hj, Screen.scroll]
      dsimp only
      split
      · next hlow =>
          refine hadvance (j + vgaWidth) ?_
          rw [vgaWidth, vgaHeight] at *
          omega
      · rw [advance_color, Screen.advance_color, h.color]
        exact matches_blank p.color
  · next hroom =>
      rw [settle, if_neg (hrow.trans_ne hroom)]
      exact hadvance

/-- A glyph that would get the wrong colour is still on the screen after the scroll. -/
theorem Tracks.glyph_coloured (hcoloured : Coloured (p.putchar c) (consolePutchar c s)) :
    c = newline ∨ c.msb = false ∨ s.consoleColor = 0xFF := by
  by_cases hglyph : c = newline
  · exact Or.inl hglyph
  · have hcell : (p.advance c).cell p.cursor = (c, p.color) := by
      rw [Screen.advance_cell, if_neg hglyph, Function.update_self]
    have hentry : (Console.advance c s).buffer p.cursor = vgaMakeEntry c p.color := by
      rw [advance_buffer, if_neg hglyph, h.cursor, Function.update_self, h.color]
    have hmatches : Matches (vgaMakeEntry c p.color) (c, p.color) := by
      have hrow := (h.advance c).1
      have hlt := h.cursor_lt
      rw [consolePutchar_advance, Screen.putchar] at hcoloured
      rw [← hcell, ← hentry]
      split at hcoloured
      · next hfull =>
          -- The glyph was the last one of the last row.
          have hlast : vgaWidth * (vgaHeight - 1) ≤ p.cursor := by
            have hrow_le := Screen.advance_row_le c p
            rw [Screen.cursor]
            rw [vgaWidth, vgaHeight] at *
            omega
          have hindex : p.cursor - vgaWidth + vgaWidth = p.cursor := by
            rw [vgaWidth, vgaHeight] at *
            omega
          have hmoved := hcoloured (p.cursor - vgaWidth) (by rw [vgaWidth, vgaHeight] at *; omega)
          rw [settle_buffer (hrow.trans hfull) (by rw [vgaWidth, vgaHeight] at *; omega), Screen.scroll] at hmoved
          dsimp only at hmoved
          have hlow : p.cursor - vgaWidth < vgaWidth * (vgaHeight - 1) := by
            rw [vgaWidth, vgaHeight] at *
            omega
          rwa [if_pos hlow, if_pos hlow, hindex] at hmoved
      · next hroom =>
          rw [settle, if_neg (hrow.trans_ne hroom)] at hcoloured
          exact hcoloured p.cursor hlt
    rw [h.color]
    exact Or.inr (matches_entry_iff.mp hmatches)

end Tracks

theorem tracks_init (s : State) : Tracks Screen.init (consoleInit s) ∧ Coloured Screen.init (consoleInit s) := by
  have hfill : Filled 0 (vgaHeight * vgaWidth) _ (consoleInit s) := foldl_fill_rows _ vgaHeight
  have hcolor : (consoleInit s).consoleColor = vgaMakeColor lightGrey black := by rw [hfill.same]
  refine ⟨⟨?_, ?_, hcolor, by decide, by decide⟩, fun j hj => ?_⟩
  · rw [hfill.same]
    rfl
  · rw [hfill.same]
    rfl
  · rw [hfill.buffer, if_pos ⟨Nat.zero_le j, by rwa [Nat.mul_comm] at hj⟩]
    exact matches_blank _

/-! ### Runs -/

/-- The byte gets its colour: it is no `char` below zero, or the colour is all ones. -/
def Action.Sound (s : State) : Action → Prop
  | putchar c => c = newline ∨ c.msb = false ∨ s.consoleColor = 0xFF
  | _ => True

theorem Tracks.apply (h : Tracks p s) (a : Action) : Tracks (p.apply a) (a.apply s) := by
  cases a with
  | init => exact (tracks_init s).1
  | setcolor color => exact ⟨h.row, h.column, rfl, h.row_lt, h.column_lt⟩
  | putchar c => exact h.putchar c

theorem Tracks.coloured_apply {a : Action} (h : Tracks p s) (hcoloured : Coloured p s) (ha : a.Sound s) :
    Coloured (p.apply a) (a.apply s) := by
  cases a with
  | init => exact (tracks_init s).2
  | setcolor color => exact hcoloured
  | putchar c => exact h.coloured_putchar hcoloured ha

theorem Tracks.sound {a : Action} (h : Tracks p s) (hcoloured : Coloured (p.apply a) (a.apply s)) : a.Sound s := by
  cases a with
  | init => trivial
  | setcolor color => trivial
  | putchar c => exact h.glyph_coloured hcoloured

/-- Every state that is reached satisfies `P` with its screen. -/
def Throughout (P : Screen → State → Prop) : List Action → Screen → State → Prop
  | [], p, s => P p s
  | a :: actions, p, s => P p s ∧ Throughout P actions (p.apply a) (a.apply s)

/-- Every action satisfies `P` in the state in which it is taken. -/
def EachStep (P : Action → State → Prop) : List Action → State → Prop
  | [], _ => True
  | a :: actions, s => P a s ∧ EachStep P actions (a.apply s)

theorem Tracks.throughout_iff (h : Tracks p s) (hcoloured : Coloured p s) (actions : List Action) :
    Throughout Coloured actions p s ↔ EachStep (fun a s => a.Sound s) actions s := by
  induction actions generalizing p s with
  | nil => exact iff_of_true hcoloured trivial
  | cons a actions ih =>
      have hnext := h.apply a
      constructor
      · rintro ⟨-, hrest⟩
        have hafter : Coloured (p.apply a) (a.apply s) := by
          cases actions with
          | nil => exact hrest
          | cons a' actions => exact hrest.1
        exact ⟨h.sound hafter, (ih hnext hafter).mp hrest⟩
      · rintro ⟨ha, hrest⟩
        exact ⟨hcoloured, (ih hnext (h.coloured_apply hcoloured ha)).mpr hrest⟩

theorem eachStep_oneCell (actions : List Action) (s : State) :
    EachStep (fun a s => ∀ c, a = .putchar c → OneCell c s (a.apply s)) actions s := by
  induction actions generalizing s with
  | nil => trivial
  | cons a actions ih =>
      refine ⟨fun c ha => ?_, ih _⟩
      rw [ha]
      exact oneCell_putchar c s

/-- In every run each byte leaves the other cells alone or moves all of them, and the cells have their colours
throughout just when every byte gets its own. -/
theorem console_colours_follow (s₀ : State) (calls : List Call) :
    let actions := calls.flatMap Call.actions
    calls.foldl Call.apply (consoleInit s₀) = actions.foldl Action.apply (consoleInit s₀) ∧
      EachStep (fun a s => ∀ c, a = .putchar c → OneCell c s (a.apply s)) actions (consoleInit s₀) ∧
      (Throughout Coloured actions Screen.init (consoleInit s₀) ↔
        EachStep (fun a s => a.Sound s) actions (consoleInit s₀)) := by
  intro actions
  obtain ⟨htracks, hcoloured⟩ := tracks_init s₀
  exact ⟨Call.foldl_apply calls _, eachStep_oneCell actions _, htracks.throughout_iff hcoloured actions⟩

/-- The byte 0x80 on the fresh screen is bright white on a bright white ground, not light grey on black. -/
theorem console_colour_lost :
    let s₀ : State := ⟨0, 0, 0, fun _ => 0, []⟩
    colorOf ((consolePutchar 0x80 (consoleInit s₀)).buffer 0) = 0xFF ∧
      (Screen.init.putchar 0x80).cell 0 = (0x80, 0x07) ∧
      ¬ Throughout Coloured [.putchar 0x80] Screen.init (consoleInit s₀) := by
  intro s₀
  have htracks := (tracks_init s₀).1
  have hrow : (advance 0x80 (consoleInit s₀)).consoleRow = 0 := (htracks.advance 0x80).1
  have hbuffer : (consolePutchar 0x80 (consoleInit s₀)).buffer 0 = vgaMakeEntry 0x80 0x07 := by
    have hcursor : cursor (consoleInit s₀) = 0 := htracks.cursor
    rw [consolePutchar_advance, settle, hrow, if_neg (by decide), advance_buffer, if_neg (by decide), hcursor,
      Function.update_self, htracks.color]
    rfl
  refine ⟨?_, rfl, fun hcoloured => ?_⟩
  · rw [hbuffer, colorOf_entry]
    rfl
  · have hsound := htracks.sound (a := .putchar 0x80) hcoloured.2
    rw [Action.Sound, htracks.color] at hsound
    exact absurd hsound (by decide)

end Kiznix.Console
