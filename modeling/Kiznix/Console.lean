import Kiznix.WrappedPage
import Mathlib.Data.List.TakeWhile

/-! The text console of `console.c` on the VGA buffer, and the page it shows: the transcript broken into
rows at every newline and after every 80 glyphs. -/

namespace Kiznix.Console

open WrappedPage

def vgaWidth : Nat := 80
def vgaHeight : Nat := 25

abbrev Char8 := BitVec 8

def newline : Char8 := 10

/-- `vga_make_color`. -/
def vgaMakeColor (fg bg : BitVec 8) : BitVec 8 := fg ||| bg <<< 4

def lightGrey : BitVec 8 := 7
def black : BitVec 8 := 0

/-- `vga_make_entry`; a `char` is signed. -/
def vgaMakeEntry (c : Char8) (color : BitVec 8) : BitVec 16 := c.signExtend 16 ||| color.setWidth 16 <<< 8

/-- The character of a cell. -/
def glyph (entry : BitVec 16) : Char8 := entry.setWidth 8

structure State where
  consoleRow : Nat
  consoleColumn : Nat
  consoleColor : BitVec 8
  /-- `console_buffer`, which is `VGA_MEMORY`. -/
  buffer : Nat → BitVec 16
  /-- Every index of the buffer that was used since `console_init`: no variable of the program. -/
  used : List Nat

namespace State

variable (s : State)

def write (index : Nat) (entry : BitVec 16) : State :=
  { s with buffer := fun i => if i = index then entry else s.buffer i, used := index :: s.used }

/-- `VGA_MEMORY[i] = VGA_MEMORY[j]`. -/
def copy (i j : Nat) : State := { s with used := j :: s.used }.write i (s.buffer j)

def fill (i : Nat) : State := s.write i (vgaMakeEntry 0x20 s.consoleColor)

end State

/-- `console_init`, but for the cursor of the hardware. -/
def consoleInit (s : State) : State :=
  (List.range vgaHeight).foldl (fun s y => (List.range vgaWidth).foldl (fun s x => s.fill (y * vgaWidth + x)) s)
    { s with
      consoleRow := 0
      consoleColumn := 0
      consoleColor := vgaMakeColor lightGrey black
      used := [] }

def consoleSetcolor (color : BitVec 8) (s : State) : State := { s with consoleColor := color }

def consolePutentryat (c : Char8) (color : BitVec 8) (x y : Nat) (s : State) : State :=
  s.write (y * vgaWidth + x) (vgaMakeEntry c color)

def consoleScroll (s : State) : State :=
  let s := (List.range (vgaWidth * (vgaHeight - 1))).foldl (fun s i => s.copy i (i + vgaWidth)) s
  (List.range vgaWidth).foldl (fun s i => s.fill (vgaWidth * (vgaHeight - 1) + i)) s

def consolePutchar (c : Char8) (s : State) : State :=
  let s :=
    if c = newline then { s with consoleColumn := 0, consoleRow := s.consoleRow + 1 }
    else
      let s := consolePutentryat c s.consoleColor s.consoleColumn s.consoleRow s
      if s.consoleColumn + 1 = vgaWidth then { s with consoleColumn := 0, consoleRow := s.consoleRow + 1 }
      else { s with consoleColumn := s.consoleColumn + 1 }
  if s.consoleRow = vgaHeight then
    let s := consoleScroll s
    { s with consoleRow := s.consoleRow - 1 }
  else s

/-- `console_write` of as many bytes as the list has. -/
def consoleWrite : List Char8 → State → State
  | [], s => s
  | c :: data, s => consoleWrite data (consolePutchar c s)

/-- `console_writestring`: the bytes up to the first zero, and their number. -/
def consoleWritestring : List Char8 → State → Nat × State
  | [], s => (0, s)
  | c :: data, s =>
      if c = 0 then (0, s)
      else
        let (n, s) := consoleWritestring data (consolePutchar c s)
        (n + 1, s)

/-! ### Loops over the buffer -/

variable {s s' : State} {c color : BitVec 8} {p : Page Char8} {i j n base : Nat}

theorem glyph_entry : glyph (vgaMakeEntry c color) = c := by
  ext i hi
  simp [glyph, vgaMakeEntry, BitVec.getLsbD_signExtend, hi]
  omega

/-- The entries from `base` up to `stop` were made blank. -/
structure Filled (base stop : Nat) (s s' : State) : Prop where
  same : s' = { s with buffer := s'.buffer, used := s'.used }
  buffer : ∀ j, s'.buffer j =
    if base ≤ j ∧ j < stop then vgaMakeEntry 0x20 s.consoleColor else s.buffer j
  used : ∀ i ∈ s'.used, i ∈ s.used ∨ i < stop

theorem filled_refl (base : Nat) : Filled base base s s :=
  ⟨rfl, fun j => (if_neg (by omega)).symm, fun _ => Or.inl⟩

theorem Filled.trans {middle stop : Nat} {s₁ : State} (h : Filled base middle s s₁) (h' : Filled middle stop s₁ s')
    (hle : base ≤ middle) (hle' : middle ≤ stop) : Filled base stop s s' := by
  have hcolor : s₁.consoleColor = s.consoleColor := by rw [h.same]
  refine ⟨?_, fun j => ?_, fun i hi => ?_⟩
  · rw [h'.same, h.same]
  · rw [h'.buffer, h.buffer, hcolor]
    by_cases hlate : middle ≤ j ∧ j < stop
    · rw [if_pos hlate, if_pos ⟨Nat.le_trans hle hlate.1, hlate.2⟩]
    · rw [if_neg hlate]
      by_cases hearly : base ≤ j ∧ j < middle
      · rw [if_pos hearly, if_pos ⟨hearly.1, Nat.lt_of_lt_of_le hearly.2 hle'⟩]
      · rw [if_neg hearly, if_neg (by omega)]
  · rcases h'.used i hi with hi | hi
    · exact (h.used i hi).imp_right fun hlt => Nat.lt_of_lt_of_le hlt hle'
    · exact Or.inr hi

theorem filled_fill (i : Nat) : Filled i (i + 1) s (s.fill i) := by
  refine ⟨rfl, fun j => ?_, fun j hj => ?_⟩
  · show (if j = i then _ else _) = _
    by_cases hj : j = i
    · rw [if_pos hj, if_pos (by omega)]
    · rw [if_neg hj, if_neg (by omega)]
  · rcases List.mem_cons.mp hj with rfl | hj
    · exact Or.inr (Nat.lt_succ_self j)
    · exact Or.inl hj

theorem foldl_fill (s : State) (base n : Nat) :
    Filled base (base + n) s ((List.range n).foldl (fun s i => s.fill (base + i)) s) := by
  induction n with
  | zero => exact filled_refl base
  | succ n ih =>
      rw [List.range_succ, List.foldl_append, List.foldl_cons, List.foldl_nil]
      exact ih.trans (filled_fill (base + n)) (Nat.le_add_right _ _) (Nat.le_succ _)

theorem foldl_fill_rows (s : State) (n : Nat) : Filled 0 (n * vgaWidth) s
    ((List.range n).foldl (fun s y => (List.range vgaWidth).foldl (fun s x => s.fill (y * vgaWidth + x)) s) s) := by
  induction n with
  | zero => exact filled_refl 0
  | succ n ih =>
      rw [List.range_succ, List.foldl_append, List.foldl_cons, List.foldl_nil, Nat.succ_mul]
      exact ih.trans (foldl_fill _ (n * vgaWidth) vgaWidth) (Nat.zero_le _) (Nat.le_add_right _ _)

/-- The loop that moves the rows up. -/
theorem foldl_copy (s : State) (n d : Nat) :
    let s' := (List.range n).foldl (fun s i => s.copy i (i + d)) s
    s' = { s with buffer := s'.buffer, used := s'.used } ∧
      (∀ j, s'.buffer j = if j < n then s.buffer (j + d) else s.buffer j) ∧
      ∀ i ∈ s'.used, i ∈ s.used ∨ i < n + d := by
  induction n with
  | zero => exact ⟨rfl, fun _ => rfl, fun _ => Or.inl⟩
  | succ n ih =>
      obtain ⟨hsame, hbuffer, hused⟩ := ih
      rw [List.range_succ, List.foldl_append, List.foldl_cons, List.foldl_nil]
      set s₁ := (List.range n).foldl (fun s i => s.copy i (i + d)) s
      refine ⟨?_, fun j => ?_, fun i hi => ?_⟩
      · rw [hsame]
        rfl
      · show (if j = n then s₁.buffer (n + d) else s₁.buffer j) = _
        rw [hbuffer, hbuffer, if_neg (by omega : ¬ n + d < n)]
        by_cases hj : j = n
        · rw [if_pos hj, if_pos (by omega), hj]
        · rw [if_neg hj]
          by_cases hlt : j < n
          · rw [if_pos hlt, if_pos (by omega)]
          · rw [if_neg hlt, if_neg (by omega)]
      · rcases List.mem_cons.mp hi with rfl | hi
        · exact Or.inr (by omega)
        · rcases List.mem_cons.mp hi with rfl | hi
          · exact Or.inr (by omega)
          · exact (hused i hi).imp_right fun hlt => by omega

/-- Every row moves up, and the last one is blank. -/
theorem consoleScroll_spec (s : State) :
    consoleScroll s = { s with buffer := (consoleScroll s).buffer, used := (consoleScroll s).used } ∧
      (∀ j, j < vgaWidth * vgaHeight → (consoleScroll s).buffer j =
        if j < vgaWidth * (vgaHeight - 1) then s.buffer (j + vgaWidth) else vgaMakeEntry 0x20 s.consoleColor) ∧
      ∀ i ∈ (consoleScroll s).used, i ∈ s.used ∨ i < vgaWidth * vgaHeight := by
  obtain ⟨hsame, hbuffer, hused⟩ := foldl_copy s (vgaWidth * (vgaHeight - 1)) vgaWidth
  set s₁ := (List.range (vgaWidth * (vgaHeight - 1))).foldl (fun s i => s.copy i (i + vgaWidth)) s with hs₁
  have hfill : Filled (vgaWidth * (vgaHeight - 1)) (vgaWidth * (vgaHeight - 1) + vgaWidth) s₁ (consoleScroll s) :=
    foldl_fill s₁ _ vgaWidth
  have hcolor : s₁.consoleColor = s.consoleColor := by rw [hsame]
  refine ⟨?_, fun j hj => ?_, fun i hi => ?_⟩
  · rw [hfill.same, hsame]
  · rw [hfill.buffer, hbuffer, hcolor]
    by_cases hlt : j < vgaWidth * (vgaHeight - 1)
    · rw [if_neg (by omega), if_pos hlt, if_pos hlt]
    · rw [if_pos ⟨Nat.le_of_not_lt hlt, by rwa [vgaWidth, vgaHeight] at *⟩, if_neg hlt]
  · rcases hfill.used i hi with hi | hi
    · exact hused i hi
    · exact Or.inr hi

/-! ### The page on the screen -/

def blank : Char8 := 0x20

/-- The first row of the page that is on the screen. -/
def firstRow (p : Page Char8) : Nat := p.row - (vgaHeight - 1)

/-- The buffer shows the rows of the page up to that of the cursor, or the first ones. -/
structure Visible (p : Page Char8) (s : State) : Prop where
  row : firstRow p + s.consoleRow = p.row
  row_lt : s.consoleRow < vgaHeight
  used : ∀ i ∈ s.used, i < vgaWidth * vgaHeight
  cells : ∀ y x, y < vgaHeight → x < vgaWidth →
    glyph (s.buffer (y * vgaWidth + x)) = p.cell blank (firstRow p + y) x

theorem index_inj {x y x' y' : Nat} (hx : x < vgaWidth) (hx' : x' < vgaWidth)
    (h : y * vgaWidth + x = y' * vgaWidth + x') : y = y' ∧ x = x' := by
  rw [vgaWidth] at *
  omega

/-- The end of `console_putchar`. -/
def settle (s : State) : State :=
  if s.consoleRow = vgaHeight then
    let s := consoleScroll s
    { s with consoleRow := s.consoleRow - 1 }
  else s

theorem settle_of_lt (h : s.consoleRow < vgaHeight) : settle s = s := if_neg (Nat.ne_of_lt h)

theorem Visible.put (h : Visible p s) (hcolumn : p.column < vgaWidth) :
    Visible (p.put c) (consolePutentryat c color p.column s.consoleRow s) := by
  have hlt := h.row_lt
  refine ⟨h.row, hlt, fun i hi => ?_, fun y x hy hx => ?_⟩
  · rcases List.mem_cons.mp hi with rfl | hi
    · rw [vgaWidth, vgaHeight] at *
      omega
    · exact h.used i hi
  · have hfirst : firstRow (p.put c) = firstRow p := rfl
    rw [hfirst, Page.cell_put]
    show glyph (if y * vgaWidth + x = s.consoleRow * vgaWidth + p.column then _ else _) = _
    have hrow := h.row
    by_cases hcell : y = s.consoleRow ∧ x = p.column
    · rw [if_pos (by rw [hcell.1, hcell.2]), if_pos ⟨by omega, hcell.2⟩, glyph_entry]
    · have hindex : ¬ y * vgaWidth + x = s.consoleRow * vgaWidth + p.column :=
        fun heq => hcell (index_inj hx hcolumn heq)
      rw [if_neg hindex, if_neg fun hat => hcell ⟨by omega, hat.2⟩, h.cells y x hy hx]

theorem Visible.newRow (h : Visible p s) :
    Visible p.newRow (settle { s with consoleColumn := 0, consoleRow := s.consoleRow + 1 }) := by
  have hrow := h.row
  have hlt := h.row_lt
  have hfirst : firstRow p.newRow = p.row + 1 - (vgaHeight - 1) := by rw [firstRow, Page.row_newRow]
  rw [firstRow] at hrow
  rcases Nat.lt_or_eq_of_le (Nat.succ_le_of_lt hlt) with hlast | hlast
  · -- There is room for one more row.
    rw [settle_of_lt hlast]
    have hsame : firstRow p.newRow = firstRow p := by
      rw [hfirst, firstRow, vgaHeight] at *
      omega
    refine ⟨?_, hlast, h.used, fun y x hy hx => ?_⟩
    · rw [Page.row_newRow, hsame, firstRow]
      show p.row - (vgaHeight - 1) + (s.consoleRow + 1) = _
      omega
    · rw [Page.cell_newRow, hsame]
      exact h.cells y x hy hx
  · have hscroll : settle { s with consoleColumn := 0, consoleRow := s.consoleRow + 1 } =
        { consoleScroll { s with consoleColumn := 0, consoleRow := s.consoleRow + 1 } with
          consoleRow := (consoleScroll { s with consoleColumn := 0, consoleRow := s.consoleRow + 1 }).consoleRow - 1 } :=
      if_pos hlast
    rw [hscroll]
    obtain ⟨hsame, hbuffer, hused⟩ :=
      consoleScroll_spec { s with consoleColumn := 0, consoleRow := s.consoleRow + 1 }
    set s' := consoleScroll { s with consoleColumn := 0, consoleRow := s.consoleRow + 1 }
    have hnext : firstRow p.newRow = firstRow p + 1 := by
      rw [hfirst, firstRow, vgaHeight] at *
      omega
    have hcursor : s'.consoleRow = s.consoleRow + 1 := by rw [hsame]
    refine ⟨?_, ?_, fun i hi => (hused i hi).elim (h.used i) id, fun y x hy hx => ?_⟩
    · show firstRow p.newRow + (s'.consoleRow - 1) = _
      rw [Page.row_newRow, hnext, hcursor, firstRow]
      omega
    · show s'.consoleRow - 1 < _
      omega
    · show glyph (s'.buffer (y * vgaWidth + x)) = _
      rw [hbuffer _ (by rw [vgaWidth, vgaHeight] at *; omega), Page.cell_newRow, hnext]
      by_cases hlow : y < vgaHeight - 1
      · rw [if_pos (by rw [vgaWidth, vgaHeight] at *; omega)]
        have hindex : y * vgaWidth + x + vgaWidth = (y + 1) * vgaWidth + x := by
          rw [Nat.succ_mul]
          omega
        rw [hindex, Nat.add_assoc, Nat.add_comm 1 y]
        exact h.cells (y + 1) x (by omega) hx
      · rw [if_neg (by rw [vgaWidth, vgaHeight] at *; omega), glyph_entry, Page.cell_of_gt]
        · rfl
        · rw [firstRow]
          omega

/-- The whole invariant: the cursor stands where the next glyph goes. -/
structure Shows (p : Page Char8) (s : State) : Prop where
  visible : Visible p s
  column : s.consoleColumn = p.column
  column_lt : p.column < vgaWidth

theorem shows_init (s : State) : Shows Page.empty (consoleInit s) := by
  have hfill : Filled 0 (vgaHeight * vgaWidth) _ (consoleInit s) := foldl_fill_rows _ vgaHeight
  have hrow : (consoleInit s).consoleRow = 0 := by rw [hfill.same]
  have hcolumn : (consoleInit s).consoleColumn = 0 := by rw [hfill.same]
  refine ⟨⟨?_, ?_, fun i hi => ?_, fun y x hy hx => ?_⟩, hcolumn, by decide⟩
  · rw [hrow]
    rfl
  · rw [hrow]
    decide
  · rcases hfill.used i hi with hi | hi
    · cases hi
    · rwa [Nat.mul_comm] at hi
  · rw [hfill.buffer, if_pos, glyph_entry, Page.cell_empty]
    · rfl
    · rw [vgaWidth, vgaHeight] at *
      omega

theorem consolePutchar_eq (c : Char8) (s : State) : consolePutchar c s = settle
    (if c = newline then { s with consoleColumn := 0, consoleRow := s.consoleRow + 1 }
    else if s.consoleColumn + 1 = vgaWidth then
      { consolePutentryat c s.consoleColor s.consoleColumn s.consoleRow s with
        consoleColumn := 0, consoleRow := s.consoleRow + 1 }
    else
      { consolePutentryat c s.consoleColor s.consoleColumn s.consoleRow s with
        consoleColumn := s.consoleColumn + 1 }) := rfl

/-- What a character does to the page. -/
def addChar (p : Page Char8) (c : Char8) : Page Char8 := if c = newline then p.newRow else p.glyph vgaWidth c

theorem Shows.putchar (h : Shows p s) : Shows (addChar p c) (consolePutchar c s) := by
  have hcolumn := h.column
  have hlt := h.column_lt
  have hput : Visible (p.put c) (consolePutentryat c s.consoleColor s.consoleColumn s.consoleRow s) := by
    rw [hcolumn]
    exact h.visible.put hlt
  have hcursor : ∀ s' : State, s'.consoleColumn = 0 → (settle s').consoleColumn = 0 := by
    intro s' hzero
    have hscroll : (consoleScroll s').consoleColumn = s'.consoleColumn := by rw [(consoleScroll_spec s').1]
    rw [settle]
    split
    · dsimp only
      rw [hscroll, hzero]
    · exact hzero
  rw [consolePutchar_eq, addChar]
  by_cases hnewline : c = newline
  · rw [if_pos hnewline, if_pos hnewline]
    exact ⟨h.visible.newRow, hcursor _ rfl, Nat.succ_pos 79⟩
  · rw [if_neg hnewline, if_neg hnewline, Page.glyph, hcolumn]
    rw [hcolumn] at hput
    by_cases hfull : p.column + 1 = vgaWidth
    · rw [if_pos hfull, if_pos hfull]
      exact ⟨hput.newRow, hcursor _ rfl, Nat.succ_pos 79⟩
    · have hsettle : settle { consolePutentryat c s.consoleColor p.column s.consoleRow s with
          consoleColumn := p.column + 1 } = { consolePutentryat c s.consoleColor p.column s.consoleRow s with
          consoleColumn := p.column + 1 } := settle_of_lt h.visible.row_lt
      rw [if_neg hfull, if_neg hfull, hsettle]
      have hlength : (p.put c).column = p.column + 1 := by
        rw [Page.column, Page.put, List.length_append, List.length_singleton, Page.column]
      refine ⟨⟨hput.row, hput.row_lt, hput.used, hput.cells⟩, hlength.symm, ?_⟩
      rw [hlength]
      omega

/-! ### Runs -/

inductive Op where
  | putchar (c : Char8)
  | write (data : List Char8)
  | writestring (data : List Char8)
  | setcolor (color : BitVec 8)

namespace Op

def apply (s : State) : Op → State
  | putchar c => consolePutchar c s
  | write data => consoleWrite data s
  | writestring data => (consoleWritestring data s).2
  | setcolor color => consoleSetcolor color s

/-- The characters that an operation writes. -/
def text : Op → List Char8
  | putchar c => [c]
  | write data => data
  | writestring data => data.takeWhile (· ≠ 0)
  | setcolor _ => []

end Op

theorem Shows.write (h : Shows p s) (data : List Char8) :
    Shows (data.foldl addChar p) (consoleWrite data s) := by
  induction data generalizing p s with
  | nil => exact h
  | cons c data ih => exact ih h.putchar

theorem consoleWritestring_eq (data : List Char8) (s : State) :
    consoleWritestring data s = ((data.takeWhile (· ≠ 0)).length, consoleWrite (data.takeWhile (· ≠ 0)) s) := by
  induction data generalizing s with
  | nil => rfl
  | cons c data ih =>
      rw [consoleWritestring]
      by_cases hc : c = 0
      · rw [if_pos hc, List.takeWhile_cons_of_neg (by simpa using hc)]
        rfl
      · rw [if_neg hc, List.takeWhile_cons_of_pos (by simpa using hc), ih]
        rfl

theorem Shows.apply (h : Shows p s) (op : Op) : Shows (op.text.foldl addChar p) (op.apply s) := by
  cases op with
  | putchar c => exact h.putchar
  | write data => exact h.write data
  | writestring data =>
      rw [Op.apply, consoleWritestring_eq]
      exact h.write _
  | setcolor color => exact ⟨⟨h.visible.row, h.visible.row_lt, h.visible.used, h.visible.cells⟩, h.column, h.column_lt⟩

theorem Shows.run (h : Shows p s) (ops : List Op) :
    Shows ((ops.flatMap Op.text).foldl addChar p) (ops.foldl Op.apply s) := by
  induction ops generalizing p s with
  | nil => exact h
  | cons op ops ih =>
      rw [List.flatMap_cons, List.foldl_append]
      exact ih (h.apply op)

/-- The page of a transcript. -/
def page (transcript : List Char8) : Page Char8 := wrapped vgaWidth (· = newline) transcript

theorem page_eq (transcript : List Char8) : page transcript = transcript.foldl addChar Page.empty := by
  rw [page, wrapped]
  congr 1
  funext p c
  rw [addChar]
  simp

/-- After any operations the screen is the end of the wrapped transcript. -/
theorem console_shows_tail (s₀ : State) (ops : List Op) :
    let s := ops.foldl Op.apply (consoleInit s₀)
    let p := page (ops.flatMap Op.text)
    s.consoleRow < 25 ∧ s.consoleColumn < 80 ∧ (∀ i ∈ s.used, i < 2000) ∧
      s.consoleRow = min p.row 24 ∧ s.consoleColumn = p.column ∧
      ∀ y x, y < 25 → x < 80 →
        glyph (s.buffer (80 * y + x)) = p.cell 0x20 (if p.row < 25 then y else p.row - 24 + y) x := by
  intro s p
  have hshows : Shows p s := by
    show Shows (page _) _
    rw [page_eq]
    exact (shows_init s₀).run ops
  have hrow := hshows.visible.row
  have hlt := hshows.visible.row_lt
  have hcolumn := hshows.column
  have hcolumn_lt := hshows.column_lt
  rw [firstRow] at hrow
  rw [vgaHeight] at hrow hlt
  rw [vgaWidth] at hcolumn_lt
  refine ⟨hlt, by omega, hshows.visible.used, by omega, hcolumn, fun y x hy hx => ?_⟩
  have hcell := hshows.visible.cells y x hy hx
  have hfirst : firstRow p + y = if p.row < 25 then y else p.row - 24 + y := by
    rw [firstRow, vgaHeight]
    split <;> omega
  rwa [hfirst, vgaWidth, Nat.mul_comm] at hcell

end Kiznix.Console
