import Twcos.Console.Basic
import Mathlib.Algebra.Ring.Nat
import Mathlib.Data.Fin.Basic

/-!
# The console as a terminal

What the console is for: `Terminal` has 25 rows of 80 cells, each with a character and its attribute, and a place in them.
`consolePutchar_iff` compares the two over all runs. They are the same up to the first character that is not ASCII, as
its sign is extended into the colour, or the first tab that has something to blank, as `console_putchar_nocursor` blanks
the cell that it goes to and not the cells that it skips.

`Placed` says that the two are at the same place, which every character keeps, and `SameScreen` that they show the same.
-/

namespace Twcos.Console

/-! ### The terminal -/

structure Cell where
  char : BitVec 8
  color : BitVec 8

/-- The cell in the memory of the display. -/
def Cell.entry (c : Cell) : BitVec 16 := BitVec.ofNat 16 (256 * c.color.toNat + c.char.toNat)

/-- The colour that nothing changes. -/
def grey : BitVec 8 := makeColor .lightGrey .black

def Cell.blank : Cell := ⟨0x20, grey⟩

structure Terminal where
  row : Fin 25
  column : Fin 80
  screen : Fin 25 → Fin 80 → Cell

namespace Terminal

def start : Terminal := ⟨0, 0, fun _ _ => .blank⟩

/-- The next row; below the last one, all rows move up and the last one is blank. -/
def lineFeed (t : Terminal) : Terminal :=
  if h : t.row.val + 1 < 25 then
    { t with row := ⟨t.row + 1, h⟩ }
  else
    { t with screen := fun y x => if h : y.val + 1 < 25 then t.screen ⟨y + 1, h⟩ x else .blank }

/-- Blank some cells of the row. -/
def clear (t : Terminal) (lo hi : Nat) : Terminal :=
  { t with screen := fun y x => if y = t.row ∧ lo ≤ x.val ∧ x.val < hi then .blank else t.screen y x }

/-- The next multiple of eight. -/
def stop (t : Terminal) : Nat := 8 * (t.column.val / 8 + 1)

/-- A tab stop is at most the end of the line. -/
lemma stop_le (t : Terminal) : t.stop ≤ 80 := by
  have := t.column.isLt
  rw [stop]
  omega

/-- The cells up to the next multiple of eight are blank, on the new row when there is one. -/
def tab (t : Terminal) : Terminal :=
  if h : t.stop < 80 then
    { t.clear t.column t.stop with column := ⟨t.stop, h⟩ }
  else
    let t := ({ t with column := ⟨t.stop - 80, by have := t.stop_le; omega⟩ } : Terminal).lineFeed
    t.clear 0 t.column

/-- A character in the cell. -/
def write (c : BitVec 8) (t : Terminal) : Terminal :=
  { t with screen := fun y x => if y = t.row ∧ x = t.column then ⟨c, grey⟩ else t.screen y x }

def advance (t : Terminal) : Terminal :=
  if h : t.column.val + 1 < 80 then
    { t with column := ⟨t.column + 1, h⟩ }
  else
    ({ t with column := 0 } : Terminal).lineFeed

def putchar (c : BitVec 8) (t : Terminal) : Terminal :=
  if c = 0x0A then { t.lineFeed with column := 0 }
  else if c = 0x0D then { t with column := 0 }
  else if c = 0x08 then { t with column := ⟨t.column - 1, by omega⟩ }
  else if c = 0x09 then t.tab
  else (t.write c).advance

/-- A line feed stays in the column. -/
@[simp] lemma lineFeed_column (t : Terminal) : t.lineFeed.column = t.column := by
  rw [lineFeed]
  split
  · rfl
  · rfl

/-- The screen after a line feed: the same, or one line up. -/
lemma lineFeed_screen (t : Terminal) (y : Fin 25) (x : Fin 80) : t.lineFeed.screen y x =
    if t.row.val + 1 < 25 then t.screen y x else if h : y.val + 1 < 25 then t.screen ⟨y + 1, h⟩ x else .blank := by
  rw [lineFeed]
  split
  · rfl
  · rfl

end Terminal

/-! ### Entries -/

/-- Different cells have different entries. -/
lemma Cell.entry_inj {c d : Cell} : c.entry = d.entry ↔ c = d := by
  refine ⟨fun same => ?_, fun same => by rw [same]⟩
  obtain ⟨c, a⟩ := c
  obtain ⟨d, b⟩ := d
  have values := congrArg BitVec.toNat same
  simp only [Cell.entry, BitVec.toNat_ofNat] at values
  have := c.isLt
  have := d.isLt
  have := a.isLt
  have := b.isLt
  have chars : c = d := BitVec.eq_of_toNat_eq (by omega)
  have colors : a = b := BitVec.eq_of_toNat_eq (by omega)
  rw [chars, colors]

/-- A space of the console is a blank cell. -/
lemma space_entry : space grey = Cell.blank.entry := by decide

/-- The entry is that of the character with its colour only for ASCII. -/
lemma makeVgaentry_iff : ∀ c : BitVec 8, makeVgaentry c grey = (⟨c, grey⟩ : Cell).entry ↔ c.toNat < 128 := by
  decide +kernel

/-! ### Places -/

/-- The two are at the same place. -/
structure Placed (s : State) (t : Terminal) : Prop where
  row : s.row.toNat = t.row
  column : s.column.toNat = t.column
  color : s.color = grey

/-- The entries are those of the cells. -/
def SameScreen (s : State) (t : Terminal) : Prop :=
  ∀ (y : Fin 25) (x : Fin 80), s.buffer (80 * y + x) = (t.screen y x).entry

variable {s : State} {t : Terminal}

/-- Different places have different indexes. -/
lemma cell_inj {y y' : Fin 25} {x x' : Fin 80} : 80 * y.val + x.val = 80 * y'.val + x'.val ↔ y = y' ∧ x = x' := by
  have := x.isLt
  have := x'.isLt
  rw [Fin.ext_iff, Fin.ext_iff]
  omega

/-- An index below the end of the buffer. -/
lemma cell_lt (y : Fin 25) (x : Fin 80) : 80 * y.val + x.val < 2000 := by
  have := y.isLt
  have := x.isLt
  omega

/-- The index of a place does not wrap around. -/
lemma index_toNat {x y : BitVec 32} (hx : x.toNat < 80) (hy : y.toNat < 25) :
    (y * BitVec.ofNat 32 vgaWidth + x).toNat = 80 * y.toNat + x.toNat := by
  show ((y.toNat * 80) % 2 ^ 32 + x.toNat) % 2 ^ 32 = _
  omega

/-- An entry is put in the cell. -/
lemma putentryat_buffer (h : Placed s t) (c : BitVec 8) (j : Nat) :
    (consolePutentryat c s.color s.column s.row s).buffer j =
      if j = 80 * t.row.val + t.column.val then makeVgaentry c grey else s.buffer j := by
  have place := index_toNat (h.column ▸ t.column.isLt) (h.row ▸ t.row.isLt)
  rw [h.row, h.column] at place
  show Function.update s.buffer _ _ j = _
  rw [Function.update_apply, place, h.color]

/-! ### The next row -/

/-- The next column does not wrap around. -/
lemma toNat_succ {x : BitVec 32} (lt : x.toNat < 80) : (x + 1).toNat = x.toNat + 1 := by
  rw [BitVec.toNat_add]
  show (x.toNat + 1) % 2 ^ 32 = _
  omega

/-- The last row. -/
lemma last_iff (h : Placed s t) : s.row + 1 = BitVec.ofNat 32 vgaHeight ↔ ¬t.row.val + 1 < 25 := by
  have row := h.row
  have lt := t.row.isLt
  have next := @toNat_succ s.row (by omega)
  rw [← BitVec.toNat_inj, next, row]
  show t.row.val + 1 = 25 ↔ _
  omega

/-- The cursor after a line feed. -/
lemma nextRow_placed (h : Placed s t) : Placed (nextRow s) t.lineFeed := by
  have row := h.row
  have lt := t.row.isLt
  have last := last_iff h
  rw [nextRow, Terminal.lineFeed]
  by_cases more : t.row.val + 1 < 25
  · rw [dif_pos more, if_neg fun e => last.mp e more]
    refine ⟨?_, h.column, h.color⟩
    show (s.row + 1).toNat = t.row.val + 1
    rw [toNat_succ (by omega), row]
  · rw [dif_neg more, if_pos (last.mpr more)]
    refine ⟨?_, h.column, h.color⟩
    show (s.row + 1 - 1).toNat = _
    rw [BitVec.add_sub_cancel, row]

/-- The buffer after a line feed. -/
lemma nextRow_buffer (h : Placed s t) (y : Fin 25) (x : Fin 80) : (nextRow s).buffer (80 * y + x) =
    if t.row.val + 1 < 25 then s.buffer (80 * y + x)
    else if y.val + 1 < 25 then s.buffer (80 * (y + 1) + x) else Cell.blank.entry := by
  have last := last_iff h
  rw [nextRow]
  by_cases more : t.row.val + 1 < 25
  · rw [if_pos more, if_neg fun e => last.mp e more]
  · rw [if_neg more, if_pos (last.mpr more)]
    refine (consoleScroll_buffer (cell_lt y x)).trans ?_
    have := x.isLt
    rw [show 80 * y.val + x.val + 80 = 80 * (y.val + 1) + x.val by omega, ← space_entry, ← h.color]
    exact ite_congr (propext (by omega)) (fun _ => rfl) fun _ => rfl

/-- Both go on to the next row. -/
lemma SameScreen.nextRow (same : SameScreen s t) (h : Placed s t) : SameScreen (nextRow s) t.lineFeed := by
  intro y x
  rw [nextRow_buffer h, Terminal.lineFeed_screen]
  by_cases more : t.row.val + 1 < 25
  · rw [if_pos more, if_pos more]
    exact same y x
  · rw [if_neg more, if_neg more]
    by_cases lt : y.val + 1 < 25
    · rw [if_pos lt, dif_pos lt]
      exact same ⟨y + 1, lt⟩ x
    · rw [if_neg lt, dif_neg lt]

/-- A cell of the row that differs still does on the next row. -/
lemma nextRow_differs (h : Placed s t) {x : Fin 80} (ne : s.buffer (80 * t.row + x) ≠ (t.screen t.row x).entry) :
    ¬SameScreen (nextRow s) t.lineFeed := by
  intro same
  have lt := t.row.isLt
  by_cases more : t.row.val + 1 < 25
  · have here := same t.row x
    rw [nextRow_buffer h, Terminal.lineFeed_screen, if_pos more, if_pos more] at here
    exact ne here
  · -- the last row, which moves up by one
    have here := same ⟨t.row - 1, by omega⟩ x
    have up : t.row.val - 1 + 1 = t.row.val := by omega
    rw [nextRow_buffer h, Terminal.lineFeed_screen, if_neg more, if_neg more] at here
    simp only [up, if_pos lt, dif_pos lt] at here
    exact ne here

/-! ### Characters -/

/-- What the terminal blanks for a tab is blank already, and so is the next cell; or the tab goes on to the next row. -/
def TabBlank (t : Terminal) : Prop :=
  80 ≤ t.stop ∨ ∀ x : Fin 80, t.column ≤ x → x.val ≤ t.stop → t.screen t.row x = .blank

/-- A character that the console shows as the terminal does. -/
def Shown (t : Terminal) (c : BitVec 8) : Prop := c.toNat < 128 ∧ (c = 0x09 → TabBlank t)

/-- The next multiple of eight, for each column. -/
lemma stop_toNat : ∀ n < 80, ((BitVec.ofNat 32 n + 8) &&& ~~~7).toNat = 8 * (n / 8 + 1) := by
  decide

/-! #### Tabs -/

/-- The loop puts the same entry again and again. -/
lemma upto_putentryat {i n : Nat} (lt : i < n) :
    upto (fun _ s => consolePutentryat 0x20 s.color s.column s.row s) i n s =
      consolePutentryat 0x20 s.color s.column s.row s := by
  have again : ∀ s, consolePutentryat 0x20 s.color s.column s.row (consolePutentryat 0x20 s.color s.column s.row s) =
      consolePutentryat 0x20 s.color s.column s.row s := fun s => by
    simp only [consolePutentryat, Function.update_idem]
  have all := @upto_rule _ (fun _ s => consolePutentryat 0x20 s.color s.column s.row s) i n s
    (fun j s' => j = i ∧ s' = s ∨ s' = consolePutentryat 0x20 s.color s.column s.row s) (Nat.le_of_lt lt)
    (.inl ⟨rfl, rfl⟩) ?_
  · rcases all with ⟨e, -⟩ | e
    · omega
    · exact e
  · rintro j s' - - (⟨-, rfl⟩ | rfl)
    · exact .inr rfl
    · exact .inr (again s)

/-- A line feed stays in the column. -/
lemma nextRow_column (s : State) : (nextRow s).column = s.column := by
  rw [nextRow]
  split
  · rfl
  · rfl

/-- The column of a tab is the tab stop. -/
lemma tab_toNat (h : Placed s t) : ((s.column + 8) &&& ~~~7).toNat = t.stop := by
  have stop := stop_toNat t.column t.column.isLt
  rwa [← h.column, BitVec.ofNat_toNat, BitVec.setWidth_eq, h.column] at stop

/-- The last tab stop is the end of the line. -/
lemma tab_wraps (h : Placed s t) (wraps : 80 ≤ t.stop) : (s.column + 8) &&& ~~~7 = BitVec.ofNat 32 vgaWidth := by
  apply BitVec.eq_of_toNat_eq
  rw [tab_toNat h]
  exact Nat.le_antisymm t.stop_le wraps

/-- A tab to the next row. -/
lemma putTab_wraps (h : Placed s t) (wraps : 80 ≤ t.stop) : putTab s = nextRow { s with column := 0 } := by
  rw [putTab]
  simp only [tab_wraps h wraps, BitVec.le_refl, if_true, BitVec.sub_self]
  exact upto_empty (by rw [nextRow_column]; exact Nat.le_refl 0)

/-- A tab within the row. -/
lemma putTab_stays (h : Placed s t) (stays : t.stop < 80) : ∃ column : BitVec 32, column.toNat = t.stop ∧
    putTab s = consolePutentryat 0x20 s.color column s.row { s with column := column } := by
  have stop := tab_toNat h
  refine ⟨_, stop, ?_⟩
  have below : ¬BitVec.ofNat 32 vgaWidth ≤ (s.column + 8) &&& ~~~7 := by
    rw [BitVec.le_def, stop]
    exact Nat.not_le.mpr stays
  have lt : s.column.toNat < ((s.column + 8) &&& ~~~7).toNat := by
    rw [stop, h.column, Terminal.stop]
    omega
  rw [putTab]
  simp only [below, if_false]
  exact upto_putentryat lt

/-- The cursor after a tab. -/
lemma putTab_placed (h : Placed s t) : Placed (putTab s) t.tab := by
  rw [Terminal.tab]
  by_cases stays : t.stop < 80
  · obtain ⟨column, stop, run⟩ := putTab_stays h stays
    rw [dif_pos stays, run]
    exact ⟨h.row, stop, h.color⟩
  · rw [dif_neg stays, putTab_wraps h (Nat.not_lt.mp stays)]
    have zero : t.stop - 80 = 0 := Nat.sub_eq_zero_of_le t.stop_le
    have placed : Placed { s with column := 0 } { t with column := ⟨t.stop - 80, by omega⟩ } :=
      ⟨h.row, zero.symm, h.color⟩
    have next := nextRow_placed placed
    exact ⟨next.row, next.column, next.color⟩

/-- After a tab the screens agree exactly if the terminal has blanks where the console writes them. -/
lemma putTab_same (h : Placed s t) (same : SameScreen s t) : SameScreen (putTab s) t.tab ↔ TabBlank t := by
  rw [Terminal.tab, TabBlank]
  by_cases stays : t.stop < 80
  · obtain ⟨column, stop, run⟩ := putTab_stays h stays
    have placed : Placed { s with column := column } { t with column := ⟨t.stop, stays⟩ } := ⟨h.row, stop, h.color⟩
    have buffer := putentryat_buffer placed 0x20
    rw [dif_pos stays, run, or_iff_right (Nat.not_le.mpr stays)]
    -- the cell that the console blanks is the next one
    have cell (y : Fin 25) (x : Fin 80) : (consolePutentryat 0x20 s.color column s.row { s with column := column }).buffer
        (80 * y + x) = if y = t.row ∧ x = ⟨t.stop, stays⟩ then Cell.blank.entry else (t.screen y x).entry := by
      refine (buffer _).trans ?_
      rw [← same y x, ← space_entry]
      exact ite_congr (propext cell_inj) (fun _ => rfl) fun _ => rfl
    constructor
    · intro shown x lo hi
      have here := shown t.row x
      rw [cell] at here
      by_cases next : x = ⟨t.stop, stays⟩
      · subst next
        rw [if_pos ⟨rfl, rfl⟩] at here
        exact ((Cell.entry_inj.mp here).trans (if_neg fun e => Nat.lt_irrefl _ e.2.2)).symm
      · rw [if_neg fun e => next e.2] at here
        refine (Cell.entry_inj.mp here).trans (if_pos ⟨rfl, lo, ?_⟩)
        exact Nat.lt_of_le_of_ne hi fun e => next (Fin.ext e)
    · intro blank y x
      rw [cell]
      by_cases cleared : y = t.row ∧ t.column.val ≤ x.val ∧ x.val < t.stop
      · refine Eq.trans ?_ (congrArg Cell.entry (if_pos cleared)).symm
        obtain ⟨rfl, lo, hi⟩ := cleared
        rw [blank x lo (Nat.le_of_lt hi), ite_self]
      · refine Eq.trans ?_ (congrArg Cell.entry (if_neg cleared)).symm
        by_cases next : y = t.row ∧ x = ⟨t.stop, stays⟩
        · obtain ⟨rfl, rfl⟩ := next
          have lo : t.column.val ≤ t.stop := by
            rw [Terminal.stop]
            omega
          rw [if_pos ⟨rfl, rfl⟩, blank ⟨t.stop, stays⟩ lo (Nat.le_refl _)]
        · rw [if_neg next]
  · rw [dif_neg stays, putTab_wraps h (Nat.not_lt.mp stays)]
    refine iff_of_true ?_ (.inl (Nat.not_lt.mp stays))
    have zero : t.stop - 80 = 0 := Nat.sub_eq_zero_of_le t.stop_le
    have placed : Placed { s with column := 0 } { t with column := ⟨t.stop - 80, by omega⟩ } :=
      ⟨h.row, zero.symm, h.color⟩
    have same' : SameScreen { s with column := 0 } { t with column := ⟨t.stop - 80, by omega⟩ } := same
    intro y x
    refine (same'.nextRow placed y x).trans (congrArg Cell.entry ?_)
    refine (if_neg ?_).symm
    rw [Terminal.lineFeed_column]
    rintro ⟨-, -, below⟩
    have below : x.val < t.stop - 80 := below
    omega

/-! #### Other characters -/

/-- The last column. -/
lemma full_iff (h : Placed s t) : s.column + 1 = BitVec.ofNat 32 vgaWidth ↔ ¬t.column.val + 1 < 80 := by
  have column := h.column
  have lt := t.column.isLt
  have next := @toNat_succ s.column (by omega)
  rw [← BitVec.toNat_inj, next, column]
  show t.column.val + 1 = 80 ↔ _
  omega

/-- The cursor after a character. -/
lemma nextColumn_placed (h : Placed s t) : Placed (nextColumn s) t.advance := by
  have full := full_iff h
  rw [nextColumn, Terminal.advance]
  by_cases more : t.column.val + 1 < 80
  · rw [dif_pos more, if_neg fun e => full.mp e more]
    refine ⟨h.row, ?_, h.color⟩
    show (s.column + 1).toNat = t.column.val + 1
    rw [toNat_succ (h.column ▸ t.column.isLt), h.column]
  · rw [dif_neg more, if_pos (full.mpr more)]
    exact nextRow_placed ⟨h.row, rfl, h.color⟩

/-- Going to the next column keeps screens the same. -/
lemma SameScreen.nextColumn (same : SameScreen s t) (h : Placed s t) : SameScreen (nextColumn s) t.advance := by
  have full := full_iff h
  rw [Console.nextColumn, Terminal.advance]
  by_cases more : t.column.val + 1 < 80
  · rw [dif_pos more, if_neg fun e => full.mp e more]
    exact same
  · rw [dif_neg more, if_pos (full.mpr more)]
    have same' : SameScreen { s with column := 0 } { t with column := 0 } := same
    exact same'.nextRow ⟨h.row, rfl, h.color⟩

/-- A wrong entry stays on the screen, also if it scrolls. -/
lemma nextColumn_differs (h : Placed s t) {x : Fin 80} (ne : s.buffer (80 * t.row + x) ≠ (t.screen t.row x).entry) :
    ¬SameScreen (nextColumn s) t.advance := by
  have full := full_iff h
  rw [nextColumn, Terminal.advance]
  by_cases more : t.column.val + 1 < 80
  · rw [dif_pos more, if_neg fun e => full.mp e more]
    exact fun same => ne (same t.row x)
  · rw [dif_neg more, if_pos (full.mpr more)]
    have placed : Placed { s with column := 0 } { t with column := 0 } := ⟨h.row, rfl, h.color⟩
    exact nextRow_differs placed ne

/-- The cursor after a character that is shown. -/
lemma putEntry_placed (h : Placed s t) (c : BitVec 8) :
    Placed (nextColumn (consolePutentryat c s.color s.column s.row s)) (t.write c).advance :=
  nextColumn_placed ⟨h.row, h.column, h.color⟩

/-- The screens agree exactly if the character has no high bit. -/
lemma putEntry_same (h : Placed s t) (same : SameScreen s t) (c : BitVec 8) :
    SameScreen (nextColumn (consolePutentryat c s.color s.column s.row s)) (t.write c).advance ↔ c.toNat < 128 := by
  have placed : Placed (consolePutentryat c s.color s.column s.row s) (t.write c) := ⟨h.row, h.column, h.color⟩
  have cell (y : Fin 25) (x : Fin 80) : (consolePutentryat c s.color s.column s.row s).buffer (80 * y + x) =
      if y = t.row ∧ x = t.column then makeVgaentry c grey else (t.screen y x).entry := by
    rw [putentryat_buffer h, same y x]
    exact ite_congr (propext cell_inj) (fun _ => rfl) fun _ => rfl
  have here : (t.write c).screen t.row t.column = ⟨c, grey⟩ := if_pos ⟨rfl, rfl⟩
  rw [← makeVgaentry_iff]
  constructor
  · intro shown
    by_contra ne
    refine nextColumn_differs placed (x := t.column) ?_ shown
    show (consolePutentryat c s.color s.column s.row s).buffer (80 * t.row + t.column) ≠
      ((t.write c).screen t.row t.column).entry
    rwa [cell, if_pos ⟨rfl, rfl⟩, here]
  · intro entry
    refine SameScreen.nextColumn (fun y x => ?_) placed
    rw [cell]
    by_cases e : y = t.row ∧ x = t.column
    · rw [if_pos e, entry, show (t.write c).screen y x = ⟨c, grey⟩ from if_pos e]
    · rw [if_neg e, show (t.write c).screen y x = t.screen y x from if_neg e]

/-! ### Runs -/

/-- The column before, for each column. -/
lemma back_toNat : ∀ n < 80, (if (BitVec.ofNat 32 n - 1).slt 0 then 0 else BitVec.ofNat 32 n - 1).toNat = n - 1 := by
  decide

/-- The cursor after any character, without moving the hardware's. -/
lemma putcharNocursor_placed (h : Placed s t) (c : BitVec 8) : Placed (consolePutcharNocursor c s) (t.putchar c) := by
  rw [consolePutcharNocursor, Terminal.putchar]
  split
  · have next := nextRow_placed h
    exact ⟨next.row, rfl, next.color⟩
  split
  · exact ⟨h.row, rfl, h.color⟩
  split
  · refine ⟨h.row, ?_, h.color⟩
    have back := back_toNat t.column t.column.isLt
    rw [← h.column, BitVec.ofNat_toNat, BitVec.setWidth_eq, h.column] at back
    exact back
  split
  · exact putTab_placed h
  · exact putEntry_placed h c

/-- One character. -/
lemma putcharNocursor_same (h : Placed s t) (same : SameScreen s t) (c : BitVec 8) :
    SameScreen (consolePutcharNocursor c s) (t.putchar c) ↔ Shown t c := by
  rw [consolePutcharNocursor, Terminal.putchar, Shown]
  split
  · next e =>
    subst e
    exact iff_of_true (same.nextRow h) ⟨by decide, fun tab => absurd tab (by decide)⟩
  split
  · next e =>
    subst e
    exact iff_of_true same ⟨by decide, fun tab => absurd tab (by decide)⟩
  split
  · next e =>
    subst e
    exact iff_of_true same ⟨by decide, fun tab => absurd tab (by decide)⟩
  split
  · next e =>
    subst e
    exact (putTab_same h same).trans ⟨fun blank => ⟨by decide, fun _ => blank⟩, fun shown => shown.2 rfl⟩
  · next no =>
    exact (putEntry_same h same c).trans ⟨fun ascii => ⟨ascii, fun tab => absurd tab no⟩, fun shown => shown.1⟩

/-- The cursor after any character. -/
lemma consolePutchar_placed (h : Placed s t) (c : BitVec 8) : Placed (consolePutchar c s) (t.putchar c) := by
  have placed := putcharNocursor_placed h c
  exact ⟨placed.row, placed.column, placed.color⟩

/-- The screens agree after a character exactly if it is one that the console shows. -/
lemma consolePutchar_same (h : Placed s t) (same : SameScreen s t) (c : BitVec 8) :
    SameScreen (consolePutchar c s) (t.putchar c) ↔ Shown t c := putcharNocursor_same h same c

def putchars (cs : List (BitVec 8)) (s : State) : State := cs.foldl (fun s c => consolePutchar c s) s

def Terminal.putchars (cs : List (BitVec 8)) (t : Terminal) : Terminal := cs.foldl (fun t c => t.putchar c) t

/-- The screens agree at every prefix exactly if every character is one that the console shows where it
    comes. -/
lemma putchars_iff (h : Placed s t) (same : SameScreen s t) (cs : List (BitVec 8)) :
    (∀ k, SameScreen (putchars (cs.take k) s) (t.putchars (cs.take k))) ↔
      ∀ done c rest, cs = done ++ c :: rest → Shown (t.putchars done) c := by
  induction cs generalizing s t with
  | nil =>
    refine iff_of_true (fun k => ?_) fun done c rest e => ?_
    · rw [List.take_nil]
      exact same
    · exact absurd e.symm (List.append_ne_nil_of_right_ne_nil done (List.cons_ne_nil c rest))
  | cons c cs ih =>
    constructor
    · intro shows done d rest e
      have first := (consolePutchar_same h same c).mp (shows 1)
      have later := (ih (consolePutchar_placed h c) ((consolePutchar_same h same c).mpr first)).mp fun k => shows (k + 1)
      cases done with
      | nil =>
        cases e
        exact first
      | cons c' done =>
        cases e
        exact later done d rest rfl
    · intro shown k
      have first := (consolePutchar_same h same c).mpr (shown [] c cs rfl)
      cases k with
      | zero => exact same
      | succ k =>
        refine (ih (consolePutchar_placed h c) first).mpr (fun done d rest e => ?_) k
        exact shown (c :: done) d rest (by rw [e, List.cons_append])

/-- The cursor starts at the top left. -/
lemma initialize_placed (s : State) : Placed (consoleInitialize s) .start := ⟨rfl, rfl, rfl⟩

/-- The screen starts blank. -/
lemma initialize_same (s : State) : SameScreen (consoleInitialize s) .start := fun y x =>
  (consoleInitialize_buffer (cell_lt y x)).trans space_entry

/-- From the initial state, the console shows what the terminal does all along exactly if every character is ASCII and
    no tab within a row has something to blank. -/
theorem consolePutchar_iff (s : State) (cs : List (BitVec 8)) :
    (∀ k, SameScreen (putchars (cs.take k) (consoleInitialize s)) (Terminal.start.putchars (cs.take k))) ↔
      ∀ done c rest, cs = done ++ c :: rest → Shown (Terminal.start.putchars done) c :=
  putchars_iff (initialize_placed s) (initialize_same s) cs

/-- A string that has only such characters is shown as it is by the terminal, and the console is where the terminal is. -/
theorem consoleWritestring_shows (h : Placed s t) (same : SameScreen s t) (data : List (BitVec 8))
    (shown : ∀ done c rest, data = done ++ c :: rest → Shown (t.putchars done) c) :
    Placed (consoleWritestring data s) (t.putchars data) ∧ SameScreen (consoleWritestring data s) (t.putchars data) := by
  suffices all : Placed (data.foldl (fun s c => consolePutcharNocursor c s) s) (t.putchars data) ∧
      SameScreen (data.foldl (fun s c => consolePutcharNocursor c s) s) (t.putchars data) from
    ⟨⟨all.1.row, all.1.column, all.1.color⟩, all.2⟩
  induction data generalizing s t with
  | nil => exact ⟨h, same⟩
  | cons c data ih =>
    have first := (putcharNocursor_same h same c).mpr (shown [] c data rfl)
    refine ih (putcharNocursor_placed h c) first fun done d rest e => ?_
    exact shown (c :: done) d rest (by rw [e, List.cons_append])

/-- Before `console_initialize`. -/
def off : State := ⟨0, 0, 0, fun _ => 0, []⟩

/-- The letter with the code 0xE9 gets another colour, and a tab over a letter leaves it where it is. -/
theorem putchar_differs : ¬SameScreen (putchars [0xE9] (consoleInitialize off)) (Terminal.start.putchars [0xE9]) ∧
    ¬SameScreen (putchars [0x61, 0x0D, 0x09] (consoleInitialize off)) (Terminal.start.putchars [0x61, 0x0D, 0x09]) := by
  have placed := initialize_placed off
  have same := initialize_same off
  constructor
  · intro shows
    have shown := (consolePutchar_same placed same 0xE9).mp shows
    exact absurd shown.1 (by decide)
  · intro shows
    have letter := (consolePutchar_same placed same 0x61).mpr ⟨by decide, fun tab => absurd tab (by decide)⟩
    have placed := consolePutchar_placed placed 0x61
    have back := (consolePutchar_same placed letter 0x0D).mpr ⟨by decide, fun tab => absurd tab (by decide)⟩
    have shown := (consolePutchar_same (consolePutchar_placed placed 0x0D) back 0x09).mp shows
    rcases shown.2 rfl with far | blank
    · exact absurd far (by decide)
    · exact absurd (congrArg Cell.char (blank 0 (by decide) (by decide))) (by decide)

end Twcos.Console
