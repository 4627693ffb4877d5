import Mathlib.Tactic.Common

/-!
# Strings

Model of functions of `libk/string.c`. A string is the list of its characters before the terminating NUL; a `char` is
signed.

C → Lean naming: `memcmp`, `strcmp`, `ssplit`, `dirname` and `basename` keep their names, `basedirname` is the function
behind the last two.
-/

namespace Twcos.Text

/-- `char`. -/
abbrev Byte := BitVec 8

/-- The characters of a string. -/
abbrev Str := List Byte

/-- `'/'` and `'.'`. -/
def slash : Byte := 0x2f

def dot : Byte := 0x2e

/-- `memcmp`. The loop counts up to `n`, but its pointers stay where they are. -/
def memcmp (s1 s2 : List Byte) : Nat → Int
  | 0 => 0
  | n + 1 =>
    let c1 := s1.headD 0
    let c2 := s2.headD 0
    if c1.slt c2 then -1
    else if c2.slt c1 then 1
    else memcmp s1 s2 n

/-- `strcmp`. -/
def strcmp : Str → Str → Int
  | [], [] => 0
  | [], b :: _ => -b.toInt
  | a :: _, [] => a.toInt
  | a :: s, b :: t => if a = b then strcmp s t else a.toInt - b.toInt

/-- `ssplit`: the pieces between separators, from the piece that has been read so far on. -/
def splitFrom (sep : Byte) (piece : Str) : Str → List Str
  | [] => [piece]
  | c :: s => if c = sep then piece :: splitFrom sep [] s else splitFrom sep (piece ++ [c]) s

/-- `ssplit`. -/
def ssplit (s : Str) (sep : Byte) : List Str := splitFrom sep [] s

/-- The first loop of `basedirname`, which strips slashes from the end. -/
def stripSlashes (path : Str) : Str := (path.reverse.dropWhile (· = slash)).reverse

/-- `strrchr`, as an index. -/
def strrchr (c : Byte) : Str → Option Nat
  | [] => none
  | b :: s =>
    match strrchr c s with
    | some i => some (i + 1)
    | none => if b = c then some 0 else none

/-- `basedirname`. -/
def basedirname (path : Str) (dirname : Bool) : Str :=
  let path := stripSlashes path
  match strrchr slash path with
  | none => if dirname then [dot] else path
  | some 0 => if dirname then [slash] else path.drop 1
  | some i => if dirname then path.take i else path.drop (i + 1)

def dirname (path : Str) : Str := basedirname path true

def basename (path : Str) : Str := basedirname path false

/-- Only the first bytes are ever compared. -/
lemma memcmp_cons (a b : Byte) (s t : List Byte) {n : Nat} (pos : n ≠ 0) :
    memcmp (a :: s) (b :: t) n = if a.slt b then -1 else if b.slt a then 1 else 0 := by
  induction n with
  | zero => exact absurd rfl pos
  | succ n ih =>
    rw [memcmp, List.headD_cons, List.headD_cons]
    cases n with
    | zero => rfl
    | succ n =>
      rw [ih (Nat.succ_ne_zero n)]
      split_ifs <;> rfl

end Twcos.Text
