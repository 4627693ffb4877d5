import Twcos.Prog.Calls
import Twcos.Text.Format
import Twcos.Console.Terminal

/-!
# Printing to the console

Model of `kernel_printk` of `kernel/printk.c` on the stream of `arch/i386/console.c`. The first call sets the console up;
each one formats its text by `stream_vprintf` for `console_putc`, which hands every character to `console_putchar` and
counts it. `printks_shown` says that over any sequence of calls the screen is that of a terminal that is given the texts
one after the other.

The display, the variables of the console and the count are apart from the memory that formats read and store to: `own`
has their addresses. What is in that memory may change in any way between two calls, also what lies next to the table of
digits, which `stream_putint` reads for a negative number. Such a number stands for no text.

C → Lean naming: `console_putc` → `consolePutc`, `console_ops` → `consoleOps`, `console_stream` → `consoleStream`,
`kernel_printk` → `kernelPrintk`; `opened` tells whether `console` points to the stream.
-/

namespace Twcos.Console
open Twcos.Prog Twcos.Text

/-- `sconsole` and the console, beside memory. -/
structure StreamConsole where
  screen : State
  chars : Int
  opened : Bool
  memory : Memory

/-- `console_putc`. -/
def consolePutc (c : Byte) : Prog Text.Fault StreamConsole Unit := do
  update fun s => { s with screen := consolePutchar c s.screen }
  let chars ← asks StreamConsole.chars
  check (chars + 1 < 2 ^ 31) .overflow
  update fun s => { s with chars := s.chars + 1 }

/-- `console_ops`. -/
def consoleOps : Text.Stream Text.Fault StreamConsole where
  putc := consolePutc
  tell := StreamConsole.chars
  memory := StreamConsole.memory
  setMemory mem s := { s with memory := mem }

/-- `console_stream`. -/
def consoleStream : Prog Text.Fault StreamConsole Unit :=
  update fun s => { s with screen := consoleInitialize s.screen, chars := 0 }

/-- A call of `kernel_printk`, the bytes next to `digits` and the memory that it finds, the text that it stands for, and the
    memory that it leaves. -/
structure Printk where
  near : BitVec 32 → Byte
  fmt : Nat → Byte
  ap : Nat → BitVec 32
  before : Memory
  text : Str
  after : Memory

/-- A terminal, the number of characters that it was given, and memory. -/
structure Screen where
  terminal : Terminal
  chars : Nat
  memory : Memory

section Printk
variable (own : BitVec 32 → Prop)

/-- `kernel_printk`. -/
def kernelPrintk (near : BitVec 32 → Byte) (fmt : Nat → Byte) (ap : Nat → BitVec 32) : Prog Text.Fault StreamConsole Int := do
  let opened ← asks StreamConsole.opened
  when (opened = false) (do
    consoleStream
    update fun s => { s with opened := true })
  streamVprintf consoleOps near fmt ap

def Printk.run (c : Printk) : Prog Text.Fault StreamConsole Int := do
  update fun s => { s with memory := c.before }
  kernelPrintk c.near c.fmt c.ap

/-- The text is put on the terminal. -/
def Screen.print (t : Screen) (c : Printk) : Int × Screen :=
  (c.text.length, ⟨t.terminal.putchars c.text, t.chars + c.text.length, c.after⟩)

/-- The format and its arguments stand for the text, whatever is next to `digits`, and the console shows every character of
    it as it should; and the characters can be counted. -/
structure Screen.Fits (t : Screen) (c : Printk) : Prop where
  prints : ∀ near, Prints near own c.fmt c.ap c.before 0 0 0 c.text c.after
  shown : ∀ done d rest, c.text = done ++ d :: rest → Shown (t.terminal.putchars done) d
  count : t.chars + c.text.length < 2 ^ 31

/-- The console shows what the terminal does. -/
structure Shows (s : StreamConsole) (t : Screen) : Prop where
  opened : s.opened = true
  placed : Placed s.screen t.terminal
  same : SameScreen s.screen t.terminal
  chars : s.chars = t.chars
  memory : s.memory = t.memory

variable {own} {s : StreamConsole} {t : Screen} {c : Printk} {screen : State} {terminal : Terminal}

/-- The cursor after a list of characters. -/
lemma putchars_placed (h : Placed screen terminal) (cs : Str) :
    Placed (putchars cs screen) (terminal.putchars cs) := by
  induction cs generalizing screen terminal with
  | nil => exact h
  | cons c cs ih => exact ih (consolePutchar_placed h c)

/-- The stream puts what it is given on the console. -/
lemma follows_consoleOps (own : BitVec 32 → Prop) (screen : State) (chars : Nat) :
    Follows consoleOps own chars (2 ^ 31 - 1 - chars) fun mem u s =>
      s = ⟨putchars u screen, chars + u.length, true, mem⟩ where
  tell := by
    rintro mem u s rfl
    rfl
  memory := by
    rintro mem u s rfl a outside
    rfl
  putc := by
    rintro mem u s c rfl room
    refine ⟨_, .bind (.update _ _) (.bind (.asks _ _) (.bind (.check ?_) (.update _ _))), ?_⟩
    · show (chars : Int) + u.length + 1 < 2 ^ 31
      omega
    · have put : putchars (u ++ [c]) screen = consolePutchar c (putchars u screen) := List.foldl_append ..
      rw [put, List.length_append, Int.natCast_add, ← Int.add_assoc]
      rfl
  store := by
    rintro mem u s p v rfl outside
    rfl

/-- `stream_vprintf` on a console that shows what the terminal does. -/
lemma vprintf_shows (h : Placed screen t.terminal) (same : SameScreen screen t.terminal) (fits : t.Fits own c) :
    ∃ s', Returns (streamVprintf consoleOps c.near c.fmt c.ap) ⟨screen, t.chars, true, c.before⟩ (t.print c).1 s' ∧
      Shows s' (t.print c).2 := by
  have count := fits.count
  have start : (⟨screen, t.chars, true, c.before⟩ : StreamConsole) =
      ⟨putchars [] screen, t.chars + ([] : Str).length, true, c.before⟩ := rfl
  obtain ⟨s', run, rfl⟩ := (follows_consoleOps own screen t.chars).prints (u := []) (fits.prints c.near) start rfl (by
    rw [List.length_nil]
    omega)
  rw [List.nil_append] at run
  have printed : (t.print c).1 = (t.chars : Int) + c.text.length - t.chars := by
    rw [Screen.print]
    omega
  refine ⟨⟨putchars c.text screen, t.chars + c.text.length, true, c.after⟩, ?_, rfl, putchars_placed h c.text, ?_,
    (Int.natCast_add ..).symm, rfl⟩
  · rw [printed]
    exact .bind (.asks _ _) (.bind run (.bind (.asks _ _) (.pure _ _)))
  have all := (putchars_iff h same c.text).mpr fits.shown c.text.length
  rwa [List.take_length] at all

/-- A call, the first one or a later one. -/
lemma printk_shows (h : s.opened = false ∧ t.terminal = .start ∧ t.chars = 0 ∨ Shows s t) (fits : t.Fits own c) :
    ∃ s', Returns c.run s (t.print c).1 s' ∧ Shows s' (t.print c).2 := by
  obtain ⟨screen, chars, opened, memory⟩ := s
  rcases h with ⟨closed, start, none⟩ | shows
  · have closed : opened = false := closed
    subst closed
    have first : Placed (consoleInitialize screen) t.terminal := start ▸ initialize_placed screen
    have blank : SameScreen (consoleInitialize screen) t.terminal := start ▸ initialize_same screen
    obtain ⟨s', run, shows⟩ := vprintf_shows first blank fits
    rw [none] at run
    exact ⟨s', .bind (.update _ _) (.bind (.asks _ _) (.bind (.when_pos rfl (.bind (.update _ _) (.update _ _))) run)),
      shows⟩
  · have opened' : opened = true := shows.opened
    have same : chars = t.chars := shows.chars
    subst opened' same
    obtain ⟨s', run, shows⟩ := vprintf_shows shows.placed shows.same fits
    exact ⟨s', .bind (.update _ _) (.bind (.asks _ _) (.bind (.when_neg Bool.true_eq_false_eq_False) run)), shows⟩

end Printk

/-- From the first call on, over any sequence of calls that stand for texts: each one returns the number of characters of
    its text, and the console then shows what a terminal does that was given all the texts. -/
theorem printks_shown (own : BitVec 32 → Prop) (s : StreamConsole) (closed : s.opened = false)
    (calls : List Printk) (fits : Allowed Screen.print (Screen.Fits own) ⟨.start, 0, s.memory⟩ calls) :
    Simulates Printk.run Screen.print (fun _ _ s' t' => Shows s' t') s ⟨.start, 0, s.memory⟩ calls := by
  refine simulates_of_allowed (R := fun s t => s.opened = false ∧ t.terminal = .start ∧ t.chars = 0 ∨ Shows s t)
    (fun s t c h fits => ?_) (.inl ⟨closed, rfl, rfl⟩) fits
  obtain ⟨s', run, shows⟩ := printk_shows h fits
  exact ⟨s', run, shows, .inr shows⟩

/-- Characters that are ASCII and no tabs are shown wherever they are. -/
lemma shown_plain {text : Str} (plain : ∀ c ∈ text, c.toNat < 128 ∧ c ≠ 0x09) (t : Terminal) (done : Str) (d : Byte)
    (rest : Str) (e : text = done ++ d :: rest) : Shown (t.putchars done) d := by
  have mem : d ∈ text := e ▸ List.mem_append_right done List.mem_cons_self
  exact ⟨(plain d mem).1, fun tab => absurd tab (plain d mem).2⟩

/-- `kernel_printk("%c\n", 'A')`. -/
def printLetter : Printk where
  near _ := 0
  fmt := formatAt (fun _ => 0) [0x25, 0x63, 0x0a]
  ap _ := 0x41
  before _ := 0
  text := [0x41, 0x0a]
  after _ := 0

/-- A line with one letter can be printed anywhere. -/
lemma printLetter_fits (t : Screen) (count : t.chars + 2 < 2 ^ 31) :
    t.Fits (fun _ => False) printLetter where
  prints near :=
    have rest : Prints near (fun _ => False) printLetter.fmt printLetter.ap (fun _ => 0) 1 2 1 [0x0a]
        fun _ => 0 := .plain (by decide) (by decide) (.done rfl)
    have text : printLetter.text = [0x41] ++ [0x0a] := rfl
    text ▸ Prints.value rfl rfl rest
  shown := shown_plain (by decide) t.terminal
  count := count

/-- Two such lines. -/
theorem printks_shown_letters : Simulates Printk.run Screen.print (fun _ _ s' t' => Shows s' t')
    ⟨off, 0, false, fun _ => 0⟩ ⟨.start, 0, fun _ => 0⟩ [printLetter, printLetter] :=
  printks_shown (fun _ => False) ⟨off, 0, false, fun _ => 0⟩ rfl [printLetter, printLetter]
    ⟨printLetter_fits _ (by decide), printLetter_fits _ (by decide), trivial⟩

end Twcos.Console
