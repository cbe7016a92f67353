import Mathlib.Algebra.Order.Ring.Nat
import Mathlib.Data.List.GetD
import Mathlib.Order.Basic

/-! Text on a page of unbounded length: glyphs of any type are put into rows of a fixed width, and a break
begins the next row. -/

namespace Kiznix.WrappedPage

variable {G : Type}

/-- The rows before that of the cursor, and the row of the cursor up to the cursor. -/
structure Page (G : Type) where
  complete : List (List G)
  current : List G

namespace Page

def empty : Page G := ⟨[], []⟩

variable (p : Page G) (width : Nat) (blank g : G)

def row : Nat := p.complete.length

def column : Nat := p.current.length

def put : Page G := ⟨p.complete, p.current ++ [g]⟩

def newRow : Page G := ⟨p.complete ++ [p.current], []⟩

/-- A glyph that fills its row begins the next one. -/
def glyph : Page G := if p.column + 1 = width then (p.put g).newRow else p.put g

def rowAt (y : Nat) : List G := (p.complete ++ [p.current]).getD y []

/-- What stands in a row and a column. -/
def cell (y x : Nat) : G := (p.rowAt y).getD x blank

variable {p width blank g} {y x : Nat}

theorem rowAt_row : p.rowAt p.row = p.current := by
  rw [rowAt, row, List.getD_append_right _ _ _ _ (Nat.le_refl _), Nat.sub_self]
  rfl

theorem rowAt_of_lt (h : y < p.row) : p.rowAt y = p.complete.getD y [] := List.getD_append _ _ _ _ h

theorem rowAt_of_gt (h : p.row < y) : p.rowAt y = [] := by
  refine List.getD_eq_default _ _ ?_
  rwa [List.length_append, List.length_singleton]

theorem cell_of_gt (h : p.row < y) : p.cell blank y x = blank := by
  rw [cell, rowAt_of_gt h]
  rfl

theorem row_newRow : p.newRow.row = p.row + 1 := by
  rw [row, newRow, List.length_append, List.length_singleton, row]

theorem cell_empty : (empty : Page G).cell blank y x = blank := by
  cases y <;> rfl

/-- A break changes nothing that is seen. -/
theorem cell_newRow : p.newRow.cell blank y x = p.cell blank y x := by
  rw [cell, cell]
  rcases Nat.lt_trichotomy y p.row with hlt | rfl | hgt
  · have hlt' : y < p.newRow.row := row_newRow ▸ Nat.lt_succ_of_lt hlt
    rw [rowAt_of_lt hlt', rowAt_of_lt hlt]
    exact congrArg (List.getD · x blank) (List.getD_append _ _ _ _ hlt)
  · have hlt : p.row < p.newRow.row := row_newRow ▸ Nat.lt_succ_self _
    rw [rowAt_of_lt hlt]
    rfl
  · rw [rowAt_of_gt hgt]
    rcases Nat.eq_or_lt_of_le (Nat.succ_le_of_lt hgt) with rfl | hgt'
    · have hnew : p.newRow.rowAt (p.row + 1) = [] := by
        rw [← row_newRow]
        exact rowAt_row
      rw [hnew]
    · rw [rowAt_of_gt (row_newRow ▸ hgt')]

theorem cell_put : (p.put g).cell blank y x = if y = p.row ∧ x = p.column then g else p.cell blank y x := by
  rw [cell, cell]
  rcases Nat.lt_trichotomy y p.row with hlt | rfl | hgt
  · have hlt' : y < (p.put g).row := hlt
    rw [if_neg fun h => Nat.ne_of_lt hlt h.1, rowAt_of_lt hlt, rowAt_of_lt hlt']
    rfl
  · have hput : (p.put g).rowAt p.row = p.current ++ [g] := rowAt_row (p := p.put g)
    rw [hput, rowAt_row]
    rcases Nat.lt_trichotomy x p.column with hlt | rfl | hgt
    · rw [if_neg fun h => Nat.ne_of_lt hlt h.2, List.getD_append _ _ _ _ hlt]
    · rw [if_pos ⟨rfl, rfl⟩, column, List.getD_append_right _ _ _ _ (Nat.le_refl _), Nat.sub_self]
      rfl
    · rw [if_neg fun h => Nat.ne_of_gt hgt h.2, List.getD_eq_default _ _ (Nat.le_of_lt hgt)]
      refine List.getD_eq_default _ _ ?_
      rwa [List.length_append, List.length_singleton]
  · have hgt' : (p.put g).row < y := hgt
    rw [if_neg fun h => Nat.ne_of_gt hgt h.1, rowAt_of_gt hgt, rowAt_of_gt hgt']

end Page

/-- The page that a text gives, where `isBreak` tells breaks from glyphs. -/
def wrapped (width : Nat) (isBreak : G → Bool) (text : List G) : Page G :=
  text.foldl (fun p g => if isBreak g then p.newRow else p.glyph width g) Page.empty

end Kiznix.WrappedPage
