import Mathlib.Logic.Function.Basic
import Mathlib.Order.Basic
import Mathlib.Tactic.Common

/-!
# The console

Port of `arch/i386/console.c` from `make_color` to `console_writestring`: 25 rows of 80 entries, each a character with its
colour, in the memory of the display. A `char` is signed, and so is its conversion to an entry. The loops have bounds that
their bodies leave alone, and are folds (`upto`). The keyboard is left out, as are the interrupt and the segment that
`console_initialize` sets up.

C names carry over in camel case (`console_putchar` is `consolePutchar`); `State` has the static variables, with what has
been written to the ports of the cursor.
-/

namespace Twcos.Console

/-- `enum vga_color`. -/
inductive VgaColor where
  | black
  | blue
  | green
  | cyan
  | red
  | magenta
  | brown
  | lightGrey
  | darkGrey
  | lightBlue
  | lightGreen
  | lightCyan
  | lightRed
  | lightMagenta
  | lightBrown
  | white
deriving DecidableEq

def VgaColor.toBitVec (c : VgaColor) : BitVec 8 := BitVec.ofNat 8 c.ctorIdx

def makeColor (fg bg : VgaColor) : BitVec 8 := fg.toBitVec ||| bg.toBitVec <<< 4

def makeVgaentry (c color : BitVec 8) : BitVec 16 :=
  let c16 : BitVec 16 := c.signExtend 16
  let color16 : BitVec 16 := color.setWidth 16
  c16 ||| color16 <<< 8

def vgaWidth : Nat := 80

def vgaHeight : Nat := 25

structure State where
  row : BitVec 32
  column : BitVec 32
  color : BitVec 8
  buffer : Nat → BitVec 16
  /-- The calls of `outb`. -/
  ports : List (BitVec 16 × BitVec 8)

/-- `for (; i < n; i++)`. -/
def upto {σ : Type} (body : Nat → σ → σ) (i n : Nat) (s : σ) : σ := (List.range' i (n - i)).foldl (fun s i => body i s) s

/-- A space. -/
def space (color : BitVec 8) : BitVec 16 := makeVgaentry 0x20 color

def consoleInitialize (s : State) : State :=
  let color := makeColor .lightGrey .black
  { s with
    row := 0
    column := 0
    color := color
    buffer := upto (fun y =>
      upto (fun x buffer => Function.update buffer (y * vgaWidth + x) (space color)) 0 vgaWidth) 0 vgaHeight s.buffer }

/-- `size_t` is as wide as the coordinates. -/
def consolePutentryat (c color : BitVec 8) (x y : BitVec 32) (s : State) : State :=
  let index := (y * BitVec.ofNat 32 vgaWidth + x).toNat
  { s with buffer := Function.update s.buffer index (makeVgaentry c color) }

def consoleScroll (s : State) : State :=
  -- scroll up one line
  let buffer := upto (fun i buffer => Function.update buffer (i - vgaWidth) (buffer i)) vgaWidth
    (vgaHeight * vgaWidth) s.buffer
  -- clear the last line
  let buffer := upto (fun i buffer => Function.update buffer i (space s.color)) (vgaHeight * vgaWidth - vgaWidth)
    (vgaHeight * vgaWidth) buffer
  { s with buffer := buffer, row := s.row - 1 }

def consoleCursor (row col : BitVec 32) (s : State) : State :=
  let position : BitVec 16 := (row * BitVec.ofNat 32 vgaWidth + col).setWidth 16
  let low : BitVec 8 := (position &&& 0xFF).setWidth 8
  let high : BitVec 8 := ((position >>> 8) &&& 0xFF).setWidth 8
  { s with ports := s.ports ++ [(0x3D4#16, 0x0F#8), (0x3D5#16, low), (0x3D4#16, 0x0E#8), (0x3D5#16, high)] }

/-- `if (++console_row == VGA_HEIGHT) console_scroll()`. -/
def nextRow (s : State) : State :=
  let s := { s with row := s.row + 1 }
  if s.row = BitVec.ofNat 32 vgaHeight then consoleScroll s else s

/-- The case of a tab. -/
def putTab (s : State) : State :=
  let column := (s.column + 8) &&& ~~~7
  if BitVec.ofNat 32 vgaWidth ≤ column then
    let s := nextRow { s with column := column - BitVec.ofNat 32 vgaWidth }
    upto (fun _ s => consolePutentryat 0x20 s.color s.column s.row s) 0 s.column.toNat s
  else
    let i := s.column.toNat
    let s := { s with column := column }
    upto (fun _ s => consolePutentryat 0x20 s.color s.column s.row s) i s.column.toNat s

/-- The column after a character. -/
def nextColumn (s : State) : State :=
  let s := { s with column := s.column + 1 }
  if s.column = BitVec.ofNat 32 vgaWidth then nextRow { s with column := 0 } else s

def consolePutcharNocursor (c : BitVec 8) (s : State) : State :=
  -- newline, and on to a carriage return
  if c = 0x0A then { nextRow s with column := 0 }
  else if c = 0x0D then { s with column := 0 }
  -- backspace
  else if c = 0x08 then
    let column := s.column - 1
    { s with column := if column.slt 0 then 0 else column }
  else if c = 0x09 then putTab s
  else nextColumn (consolePutentryat c s.color s.column s.row s)

def consolePutchar (c : BitVec 8) (s : State) : State :=
  let s := consolePutcharNocursor c s
  consoleCursor s.row s.column s

/-- The characters up to the null character. -/
def consoleWritestring (data : List (BitVec 8)) (s : State) : State :=
  let s := data.foldl (fun s c => consolePutcharNocursor c s) s
  consoleCursor s.row s.column s

/-! ### Loops -/

section Upto
variable {σ : Type} {body : Nat → σ → σ} {i n : Nat} {s : σ}

/-- The invariant rule. -/
lemma upto_rule {I : Nat → σ → Prop} (le : i ≤ n) (start : I i s)
    (turn : ∀ j s, i ≤ j → j < n → I j s → I (j + 1) (body j s)) : I n (upto body i n s) := by
  rw [upto]
  generalize len : n - i = k
  induction k generalizing i s with
  | zero =>
    obtain rfl : i = n := by omega
    exact start
  | succ k ih =>
    rw [List.range'_succ, List.foldl_cons]
    refine ih (by omega) (turn i s (Nat.le_refl i) (by omega) start) ?_ (by omega)
    exact fun j s lo => turn j s (Nat.le_of_succ_le lo)

/-- A loop whose bound is reached. -/
lemma upto_empty (h : n ≤ i) : upto body i n s = s := by
  rw [upto, Nat.sub_eq_zero_of_le h]
  rfl

/-- A loop that fills cells. -/
lemma upto_fill {buffer : Nat → BitVec 16} {e : BitVec 16} (base : Nat) (le : i ≤ n) (j : Nat) :
    upto (fun i buffer => Function.update buffer (base + i) e) i n buffer j =
      if base + i ≤ j ∧ j < base + n then e else buffer j := by
  refine @upto_rule _ _ i n buffer (fun m b => b j = if base + i ≤ j ∧ j < base + m then e else buffer j) le ?_ ?_
  · rw [if_neg]
    omega
  · intro m b lo _ same
    rw [Function.update_apply]
    by_cases here : j = base + m
    · rw [if_pos here, if_pos (by omega)]
    · rw [if_neg here, same]
      exact ite_congr (propext (by omega)) (fun _ => rfl) fun _ => rfl

end Upto

/-! ### The buffer -/

section Buffer
variable {s : State} {j : Nat}

/-- The screen is cleared. -/
lemma consoleInitialize_buffer (h : j < 2000) : (consoleInitialize s).buffer j = space (makeColor .lightGrey .black) := by
  have rows : ∀ j, (consoleInitialize s).buffer j =
      if j < 80 * 25 then space (makeColor .lightGrey .black) else s.buffer j := by
    show ∀ j, upto (fun y =>
      upto (fun x buffer => Function.update buffer (y * 80 + x) (space (makeColor .lightGrey .black))) 0 80) 0 25
        s.buffer j = _
    refine @upto_rule _ _ 0 25 s.buffer (fun y b => ∀ j, b j = if j < 80 * y then space (makeColor .lightGrey .black) else
      s.buffer j) (by decide) (fun j => (if_neg (Nat.not_lt_zero j)).symm) ?_
    intro y b _ _ same j
    have row := @upto_fill 0 80 b (space (makeColor .lightGrey .black)) (y * 80) (Nat.zero_le 80) j
    refine row.trans ?_
    by_cases here : y * 80 + 0 ≤ j ∧ j < y * 80 + 80
    · rw [if_pos here, if_pos (by omega)]
    · rw [if_neg here, same]
      exact ite_congr (propext (by omega)) (fun _ => rfl) fun _ => rfl
  rw [rows, if_pos h]

/-- Every row moves up by one, and the last one is blank. -/
lemma consoleScroll_buffer (h : j < 2000) :
    (consoleScroll s).buffer j = if j < 1920 then s.buffer (j + 80) else space s.color := by
  have up : upto (fun i buffer => Function.update buffer (i - vgaWidth) (buffer i)) vgaWidth
    (vgaHeight * vgaWidth) s.buffer j =
      if j + 80 < 2000 then s.buffer (j + 80) else s.buffer j := by
    refine @upto_rule _ _ 80 2000 s.buffer (fun m b => ∀ j, b j = if j + 80 < m then s.buffer (j + 80) else s.buffer j)
      (by decide) ?_ ?_ j
    · intro j
      rw [if_neg]
      show ¬j + 80 < 80
      omega
    · intro m b lo _ same j
      have width : vgaWidth = 80 := rfl
      rw [Function.update_apply]
      by_cases here : j = m - vgaWidth
      · rw [if_pos here, same m, if_neg (by omega), if_pos (by omega)]
        congr 1
        omega
      · rw [if_neg here, same j]
        exact ite_congr (propext (by omega)) (fun _ => rfl) fun _ => rfl
  rw [consoleScroll]
  have clear := fun b => @upto_fill 1920 2000 b (space s.color) 0 (by decide) j
  simp only [Nat.zero_add] at clear
  refine (clear _).trans ?_
  by_cases last : j < 1920
  · rw [if_neg (by omega), if_pos last, up, if_pos (by omega)]
  · rw [if_pos (by omega), if_neg last]

end Buffer

end Twcos.Console
