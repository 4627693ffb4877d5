import Twcos.Console.Terminal
import Twcos.Prog.Emits

/-!
# The stores of the console

The code of the console once more, with every store into the memory of the display: `emit` has the index of the entry.
`InBounds` says that code does what the function of the model does and that all its stores are within the 25 rows of 80
entries. The functions keep their names.

The coordinates are advanced in several places and tested for equality with the bounds. They stay those of a terminal
(`Placed`), so that no test is ever skipped.
-/

namespace Twcos.Console.Stores
open Twcos.Prog

/-- Code of the console, with the indices of its stores. -/
abbrev Code (α : Type) := Prog Empty (State × List Nat) α

/-- `console_buffer[index] = ...`. -/
def store (index : Nat) (entry : State → BitVec 16) : Code Unit := do
  emit index
  lift (update fun s => { s with buffer := Function.update s.buffer index (entry s) })

/-- `for (; i < n; i++)`. -/
def upto (body : Nat → Code Unit) (i n : Nat) : Code Unit := each body (List.range' i (n - i))

def consoleInitialize : Code Unit := do
  lift (update fun s => { s with row := 0, column := 0, color := makeColor .lightGrey .black })
  upto (fun y => upto (fun x => store (y * vgaWidth + x) fun s => space s.color) 0 vgaWidth) 0 vgaHeight

def consolePutentryat (c color : BitVec 8) (x y : BitVec 32) : Code Unit :=
  let index := (y * BitVec.ofNat 32 vgaWidth + x).toNat
  store index fun _ => makeVgaentry c color

def consoleScroll : Code Unit := do
  -- scroll up one line
  upto (fun i => store (i - vgaWidth) fun s => s.buffer i) vgaWidth (vgaHeight * vgaWidth)
  -- clear the last line
  upto (fun i => store i fun s => space s.color) (vgaHeight * vgaWidth - vgaWidth) (vgaHeight * vgaWidth)
  lift (update fun s => { s with row := s.row - 1 })

def consoleCursor (row col : BitVec 32) : Code Unit := lift (update (Console.consoleCursor row col))

/-- `if (++console_row == VGA_HEIGHT) console_scroll()`. -/
def nextRow : Code Unit := do
  lift (update fun s => { s with row := s.row + 1 })
  let row ← lift (asks State.row)
  if row = BitVec.ofNat 32 vgaHeight then consoleScroll else pure ()

/-- The loop of a tab. -/
def putSpaces (i : Nat) : Code Unit := do
  let column ← lift (asks State.column)
  upto (fun _ => do
    let s ← lift (asks id)
    consolePutentryat 0x20 s.color s.column s.row) i column.toNat

/-- The case of a tab. -/
def putTab : Code Unit := do
  let i ← lift (asks State.column)
  lift (update fun s => { s with column := (s.column + 8) &&& ~~~7 })
  let column ← lift (asks State.column)
  if BitVec.ofNat 32 vgaWidth ≤ column then do
    lift (update fun s => { s with column := s.column - BitVec.ofNat 32 vgaWidth })
    nextRow
    putSpaces 0
  else putSpaces i.toNat

/-- The column after a character. -/
def nextColumn : Code Unit := do
  lift (update fun s => { s with column := s.column + 1 })
  let column ← lift (asks State.column)
  if column = BitVec.ofNat 32 vgaWidth then do
    lift (update fun s => { s with column := 0 })
    nextRow
  else pure ()

def consolePutcharNocursor (c : BitVec 8) : Code Unit :=
  -- newline, and on to a carriage return
  if c = 0x0A then do
    nextRow
    lift (update fun s => { s with column := 0 })
  else if c = 0x0D then lift (update fun s => { s with column := 0 })
  -- backspace
  else if c = 0x08 then do
    lift (update fun s => { s with column := s.column - 1 })
    let column ← lift (asks State.column)
    if column.slt 0 then lift (update fun s => { s with column := 0 }) else pure ()
  else if c = 0x09 then putTab
  else do
    let s ← lift (asks id)
    consolePutentryat c s.color s.column s.row
    nextColumn

def consolePutchar (c : BitVec 8) : Code Unit := do
  consolePutcharNocursor c
  let s ← lift (asks id)
  consoleCursor s.row s.column

def consoleWritestring (data : List (BitVec 8)) : Code Unit := do
  each consolePutcharNocursor data
  let s ← lift (asks id)
  consoleCursor s.row s.column

/-! ### Code that stays in bounds -/

def InBounds (p : Code Unit) (s s' : State) : Prop := ∃ is, Emits p s () is s' ∧ ∀ i ∈ is, i < 2000

section Rules
variable {s s1 s2 : State}

/-- No stores. -/
lemma InBounds.pure (s : State) : InBounds (Pure.pure ()) s s :=
  ⟨[], .pure () s, fun _ mem => absurd mem List.not_mem_nil⟩

/-- A change of a variable. -/
lemma InBounds.update (f : State → State) (s : State) : InBounds (lift (update f)) s (f s) :=
  ⟨[], .lift (.update f s), fun _ mem => absurd mem List.not_mem_nil⟩

/-- Reading a variable. -/
lemma InBounds.asks {α : Type} {f : State → α} {k : α → Code Unit} (h : InBounds (k (f s)) s s1) :
    InBounds (lift (asks f) >>= k) s s1 := by
  obtain ⟨is, run, below⟩ := h
  exact ⟨is, .andThen (.lift (.asks f s)) run, below⟩

/-- The stores of two pieces of code, one after the other. -/
lemma InBounds.bind {p : Code Unit} {k : Unit → Code Unit} (hp : InBounds p s s1) (hk : InBounds (k ()) s1 s2) :
    InBounds (p >>= k) s s2 := by
  obtain ⟨is, first, low⟩ := hp
  obtain ⟨js, second, low'⟩ := hk
  refine ⟨is ++ js, .bind first second, fun i mem => ?_⟩
  rcases List.mem_append.mp mem with mem | mem
  · exact low i mem
  · exact low' i mem

/-- The stores of a branch. -/
lemma InBounds.ite {c : Prop} [Decidable c] {p q : Code Unit} (hp : c → InBounds p s s1) (hq : ¬c → InBounds q s s2) :
    InBounds (if c then p else q) s (if c then s1 else s2) := by
  by_cases h : c
  · rw [if_pos h, if_pos h]
    exact hp h
  · rw [if_neg h, if_neg h]
    exact hq h

/-- A store within the display. -/
lemma InBounds.store {index : Nat} (entry : State → BitVec 16) (s : State) (below : index < 2000) :
    InBounds (store index entry) s { s with buffer := Function.update s.buffer index (entry s) } := by
  refine ⟨[index], .bind (.emit index s) (.lift (.update _ s)), fun i mem => ?_⟩
  rw [List.mem_singleton.mp mem]
  exact below

/-- A statement for each element, with an invariant. -/
lemma InBounds.each {α : Type} {p : α → Code Unit} {f : α → State → State} {as : List α} (I : State → Prop)
    (turn : ∀ a ∈ as, ∀ s, I s → InBounds (p a) s (f a s) ∧ I (f a s)) (start : I s) :
    InBounds (each p as) s (as.foldl (fun s a => f a s) s) ∧ I (as.foldl (fun s a => f a s) s) := by
  induction as generalizing s with
  | nil => exact ⟨.pure s, start⟩
  | cons a as ih =>
    obtain ⟨first, next⟩ := turn a List.mem_cons_self s start
    obtain ⟨rest, final⟩ := ih (fun b mem => turn b (List.mem_cons_of_mem a mem)) next
    exact ⟨.bind first rest, final⟩

/-- The loop is that of the model. -/
lemma InBounds.upto {body : Nat → Code Unit} {f : Nat → State → State} {i n : Nat} (I : State → Prop)
    (turn : ∀ j s, i ≤ j → j < n → I s → InBounds (body j) s (f j s) ∧ I (f j s)) (start : I s) :
    InBounds (upto body i n) s (Console.upto f i n s) := by
  refine (InBounds.each I (fun j mem s hs => ?_) start).1
  obtain ⟨lo, hi⟩ := List.mem_range'_1.mp mem
  exact turn j s lo (by omega) hs

end Rules

/-! ### The functions -/

section Functions
variable {s : State} {t : Terminal}

/-- Stores into the display do not touch the rest. -/
lemma upto_buffer {f : Nat → (Nat → BitVec 16) → Nat → BitVec 16} (i n : Nat) (s : State) :
    Console.upto (fun j s => { s with buffer := f j s.buffer }) i n s =
      { s with buffer := Console.upto f i n s.buffer } := by
  rw [Console.upto, Console.upto]
  generalize List.range' i (n - i) = js
  induction js generalizing s with
  | nil => rfl
  | cons j js ih => exact ih { s with buffer := f j s.buffer }

/-- A loop over the entries of the display. -/
lemma InBounds.stores (index : Nat → Nat) (entry : Nat → BitVec 8 → (Nat → BitVec 16) → BitVec 16) {color : BitVec 8}
    (i n : Nat) (below : ∀ j < n, index j < 2000) (same : s.color = color) :
    InBounds (Stores.upto (fun j => Stores.store (index j) fun s => entry j s.color s.buffer) i n) s
      { s with
        buffer := Console.upto (fun j buffer => Function.update buffer (index j) (entry j color buffer)) i n s.buffer } := by
  have all := @InBounds.upto s (fun j => Stores.store (index j) fun s => entry j s.color s.buffer)
    (fun j s' => { s' with buffer := Function.update s'.buffer (index j) (entry j color s'.buffer) }) i n
    (fun s' => s'.color = color) ?_ same
  · rwa [@upto_buffer fun j buffer => Function.update buffer (index j) (entry j color buffer)] at all
  · intro j s' _ lt same
    refine ⟨?_, same⟩
    rw [← same]
    exact .store _ s' (below j lt)

/-- The store of an entry is inside the buffer if its place is on the screen. -/
lemma putentryat_inBounds {x y : BitVec 32} (c color : BitVec 8) (hx : x.toNat < 80) (hy : y.toNat < 25) :
    InBounds (consolePutentryat c color x y) s (Console.consolePutentryat c color x y s) := by
  refine .store _ s ?_
  rw [index_toNat hx hy]
  omega

/-- All stores of a scroll. -/
lemma scroll_inBounds (s : State) : InBounds consoleScroll s (Console.consoleScroll s) := by
  have up := @InBounds.stores s (· - vgaWidth) (fun i _ buffer => buffer i) s.color vgaWidth (vgaHeight * vgaWidth)
    (fun j lt => lt_of_le_of_lt (Nat.sub_le j vgaWidth) lt) rfl
  have clear := fun r => @InBounds.stores r (fun i => i) (fun _ color _ => space color) s.color
    (vgaHeight * vgaWidth - vgaWidth) (vgaHeight * vgaWidth) fun _ lt => lt
  rw [Console.consoleScroll]
  generalize Console.upto (fun i buffer => Function.update buffer (i - vgaWidth) (buffer i)) vgaWidth
    (vgaHeight * vgaWidth) s.buffer = scrolled at up ⊢
  refine .bind up (.bind (clear { s with buffer := scrolled } rfl) ?_)
  exact .update (fun s => { s with row := s.row - 1 }) _

/-- All stores of the start. -/
lemma initialize_inBounds (s : State) : InBounds consoleInitialize s (Console.consoleInitialize s) := by
  have row (y : Nat) (hy : y < 25) (r : State) := @InBounds.stores r (y * vgaWidth + ·) (fun _ color _ => space color)
    (makeColor .lightGrey .black) 0 vgaWidth fun x lt => by
      show y * 80 + x < 2000
      have lt : x < 80 := lt
      omega
  have rows := fun r => @InBounds.upto r _ _ 0 vgaHeight (fun s => s.color = makeColor .lightGrey .black)
    fun y r _ below grey => ⟨row y below r grey, grey⟩
  simp only [@upto_buffer fun y => Console.upto (fun x buffer => Function.update buffer (y * vgaWidth + x) _) 0 vgaWidth]
    at rows
  exact .bind (.update _ s) (rows _ rfl)

/-- The stores of a line feed. -/
lemma nextRow_inBounds (s : State) : InBounds nextRow s (Console.nextRow s) := by
  refine .bind (.update _ s) (.asks ?_)
  exact .ite (fun _ => scroll_inBounds _) fun _ => .pure _

/-- Nothing moves while the cell is filled. -/
lemma putSpaces_inBounds (i : Nat) (hx : s.column.toNat < 80) (hy : s.row.toNat < 25) : InBounds (putSpaces i) s
    (Console.upto (fun _ s => Console.consolePutentryat 0x20 s.color s.column s.row s) i s.column.toNat s) := by
  refine .asks (.upto (fun s' => s'.column = s.column ∧ s'.row = s.row) (fun j s' _ _ same => ⟨.asks ?_, same⟩) ⟨rfl, rfl⟩)
  exact putentryat_inBounds _ _ (same.1 ▸ hx) (same.2 ▸ hy)

/-- The stores of a tab. -/
lemma putTab_inBounds (h : Placed s t) : InBounds putTab s (Console.putTab s) := by
  refine .asks (.bind (.update _ s) (.asks (.ite (fun wraps => ?_) fun stays => ?_)))
  · have wraps := BitVec.le_def.mp wraps
    have wraps : 80 ≤ t.stop := tab_toNat h ▸ wraps
    have placed : Placed { s with column := ((s.column + 8) &&& ~~~7) - BitVec.ofNat 32 vgaWidth } { t with column := 0 } :=
      ⟨h.row, by rw [tab_wraps h wraps, BitVec.sub_self]; rfl, h.color⟩
    have next := nextRow_placed placed
    refine .bind (.update _ _) (.bind (nextRow_inBounds _) (putSpaces_inBounds 0 ?_ ?_))
    · exact lt_of_eq_of_lt next.column (Fin.isLt _)
    · exact lt_of_eq_of_lt next.row (Fin.isLt _)
  · have stays : ((s.column + 8) &&& ~~~7).toNat < 80 := BitVec.lt_def.mp (BitVec.not_le.mp stays)
    exact putSpaces_inBounds _ stays (lt_of_eq_of_lt h.row t.row.isLt)

/-- The stores of going to the next column. -/
lemma nextColumn_inBounds (s : State) : InBounds nextColumn s (Console.nextColumn s) :=
  .bind (.update _ s) (.asks (.ite (fun _ => .bind (.update _ _) (nextRow_inBounds _)) fun _ => .pure _))

/-- The stores of a character, without the cursor. -/
lemma putcharNocursor_inBounds (h : Placed s t) (c : BitVec 8) :
    InBounds (consolePutcharNocursor c) s (Console.consolePutcharNocursor c s) := by
  refine .ite (fun _ => .bind (nextRow_inBounds s) (.update _ _)) fun _ => ?_
  refine .ite (fun _ => .update _ s) fun _ => ?_
  refine .ite (fun _ => .bind (.update _ s) (.asks ?_)) fun _ => ?_
  · by_cases below : (s.column - 1).slt 0
    · rw [if_pos below]
      simp only [if_pos below]
      exact .update (fun s => { s with column := 0 }) _
    · rw [if_neg below]
      simp only [if_neg below]
      exact .pure _
  refine .ite (fun _ => putTab_inBounds h) fun _ => .asks (.bind ?_ (nextColumn_inBounds _))
  exact putentryat_inBounds _ _ (lt_of_eq_of_lt h.column t.column.isLt) (lt_of_eq_of_lt h.row t.row.isLt)

/-- The stores of a character. -/
lemma putchar_inBounds (h : Placed s t) (c : BitVec 8) : InBounds (consolePutchar c) s (Console.consolePutchar c s) :=
  .bind (putcharNocursor_inBounds h c) (.asks (.update _ _))

/-- The place is within the rows and columns. -/
lemma placed_bounds (h : Placed s t) :
    (0 ≤ s.row.toInt ∧ s.row.toInt < 25) ∧ 0 ≤ s.column.toInt ∧ s.column.toInt < 80 := by
  have row := h.row
  have column := h.column
  have low := t.row.isLt
  have low' := t.column.isLt
  rw [BitVec.toInt_eq_toNat_of_lt (by omega), BitVec.toInt_eq_toNat_of_lt (by omega)]
  omega

/-- The stores of a list of characters. -/
lemma putchars_inBounds (h : Placed s t) (cs : List (BitVec 8)) :
    InBounds (each consolePutchar cs) s (putchars cs s) ∧ Placed (putchars cs s) (t.putchars cs) := by
  induction cs generalizing s t with
  | nil => exact ⟨.pure s, h⟩
  | cons c cs ih =>
    obtain ⟨rest, final⟩ := ih (consolePutchar_placed h c)
    exact ⟨.bind (putchar_inBounds h c) rest, final⟩

end Functions

/-- Whatever is put on the console after it has been initialized, the cursor is within the 25 rows and 80 columns after it,
    and every store so far is of an entry of the display. -/
theorem putchar_stores (s : State) (cs : List (BitVec 8)) :
    InBounds (consoleInitialize >>= fun _ => each consolePutchar cs) s (putchars cs (Console.consoleInitialize s)) ∧
      (0 ≤ (putchars cs (Console.consoleInitialize s)).row.toInt ∧
        (putchars cs (Console.consoleInitialize s)).row.toInt < 25) ∧
      0 ≤ (putchars cs (Console.consoleInitialize s)).column.toInt ∧
      (putchars cs (Console.consoleInitialize s)).column.toInt < 80 := by
  obtain ⟨chars, placed⟩ := putchars_inBounds (initialize_placed s) cs
  exact ⟨.bind (initialize_inBounds s) chars, placed_bounds placed⟩

/-- A string is put on the console in the same way. -/
theorem writestring_stores {s : State} {t : Terminal} (h : Placed s t) (data : List (BitVec 8)) :
    InBounds (consoleWritestring data) s (Console.consoleWritestring data s) ∧
      Placed (Console.consoleWritestring data s) (t.putchars data) := by
  suffices all : InBounds (each consolePutcharNocursor data) s
      (data.foldl (fun s c => Console.consolePutcharNocursor c s) s) ∧
      Placed (data.foldl (fun s c => Console.consolePutcharNocursor c s) s) (t.putchars data) from
    ⟨.bind all.1 (.asks (.update _ _)), all.2.row, all.2.column, all.2.color⟩
  induction data generalizing s t with
  | nil => exact ⟨.pure s, h⟩
  | cons c data ih =>
    obtain ⟨rest, final⟩ := ih (putcharNocursor_placed h c)
    exact ⟨.bind (putcharNocursor_inBounds h c) rest, final⟩

end Twcos.Console.Stores
