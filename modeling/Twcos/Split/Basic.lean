import Twcos.Arenas.Basic
import Twcos.Heap.Malloc
import Twcos.Heap.Mark
import Twcos.Prog.Keeps
import Twcos.Prog.Sim
import Twcos.Text.Str
import Mathlib.Data.List.GetD

/-!
# Splitting strings

Model of `ssplit` of `libk/string.c`, on the heap of `malloc` and the arena of the thread. The pieces and the array that
is returned are in blocks of the heap, byte by byte. The temporary arrays are in the arena, from one of which the
pointers are copied to the next; each is given by its words and the number of them. What the arena hands out behind its
top is not memory of its own, so that this is a fault.

The string is given by its characters, and is not written. The difference of two pointers is an `int`; one that is not
is a fault.

C → Lean naming: `tmalloc` → `tmalloc`, `strndup` → `strndup`, `ssplit` → `ssplit`; `empty` is the address of `""`.
-/

namespace Twcos.Split
open Twcos.Prog Twcos.Text Twcos.Heap

/-- The heap, and the arena of the thread. -/
structure Store where
  heap : Malloc
  arena : Arenas.Arena

/-- How a call ends without a result: as `malloc` does, behind the top of the arena or the end of an array, or with a
    length that is not an `int`. -/
inductive Failure where
  | heap (e : Heap.Fault)
  | arena
  | overrun
  | overflow

/-- Code that works on the heap. -/
def onHeap {α : Type} (p : Prog Heap.Fault Malloc α) : Prog Failure Store α := fun n s =>
  match p n s.heap with
  | .ok (a, heap) => .ok (a, { s with heap := heap })
  | .error .budget => .error .budget
  | .error (.fault e) => .error (.fault (.heap e))

/-- Bytes written to memory. -/
def write (memory : Nat → BitVec 8) (p : Nat) (bytes : List (BitVec 8)) : Nat → BitVec 8 := fun x =>
  if p ≤ x ∧ x < p + bytes.length then bytes.getD (x - p) 0 else memory x

/-- The bytes of a word, the lowest first. -/
def bytesOf (w : Nat) : List (BitVec 8) :=
  [BitVec.ofNat 8 w, BitVec.ofNat 8 (w / 2 ^ 8), BitVec.ofNat 8 (w / 2 ^ 16), BitVec.ofNat 8 (w / 2 ^ 24)]

def store (p : Nat) (bytes : List (BitVec 8)) : Prog Failure Store Unit :=
  update fun s => { s with heap := { s.heap with memory := write s.heap.memory p bytes } }

/-- `tmalloc`, for an array. -/
def tmalloc (size : BitVec 32) : Prog Failure Store Unit := do
  let arena ← asks Store.arena
  check (arena.state.toNat + size.toNat ≤ arena.top.toNat) .arena
  update fun s => { s with arena := (Arenas.arenaAlloc arena size).2 }

section Ssplit
variable (addr : BitVec 32) (empty : Nat) (junk : Nat → Nat) (sep : Int)

/-- `strndup`, for the characters that are copied. -/
def strndup (s : Str) : Prog Failure Store Nat := do
  let ret ← onHeap (malloc addr (BitVec.ofNat 32 s.length + 1))
  store (ret + s.length) [0]
  store ret s
  return ret

/-- The locals of `ssplit`; `strs` has room for `max` pointers. -/
structure Locals where
  i : Nat
  max : Nat
  strs : Nat → Nat
  s : Str

/-- Expand the array if necessary. -/
def expand (i max : Nat) (strs : Nat → Nat) : Prog Failure Store ((Nat → Nat) × Nat) :=
  if i = max then do
    tmalloc (BitVec.ofNat 32 (max + 8) * 4)
    return ((List.range i).foldl (fun new n => Function.update new n (strs n)) junk, max + 8)
  else return (strs, max)

/-- The end of the input: the array that is returned. -/
def collect (i : Nat) (strs : Nat → Nat) : Prog Failure Store Nat := do
  let ret ← onHeap (malloc addr (4 * BitVec.ofNat 32 i + 1))
  store (ret + 4 * i) (bytesOf 0)
  each (fun n => store (ret + 4 * n) (bytesOf (strs n))) (List.range i)
  return ret

/-- The pointer to a piece. -/
def copyPiece (piece : Str) : Prog Failure Store Nat := do
  check (piece.length < 2 ^ 31) .overflow
  if 0 < piece.length then strndup addr piece else return empty

/-- What follows the pieces up to `i`: the end of the input, or a separator that is skipped. -/
def finish (i max : Nat) (strs : Nat → Nat) : Str → Prog Failure Store (Locals ⊕ Nat)
  | [] => do
    let ret ← collect addr i strs
    return .inr ret
  | _ :: s => return .inl ⟨i, max, strs, s⟩

/-- The loop of `ssplit`. -/
def ssplitBody (l : Locals) : Prog Failure Store (Locals ⊕ Nat) := do
  let p ← copyPiece addr empty (l.s.takeWhile fun c => c.toInt ≠ sep)
  check (l.i < l.max) .overrun
  let r ← expand junk (l.i + 1) l.max (Function.update l.strs l.i p)
  finish addr (l.i + 1) r.2 r.1 (l.s.dropWhile fun c => c.toInt ≠ sep)

/-- `ssplit`. -/
def ssplit (str : Str) : Prog Failure Store Nat := do
  tmalloc (8 * 4)
  loop (ssplitBody addr empty junk sep) ⟨0, 8, Function.update junk 0 0, str⟩

end Ssplit

/-! ### Memory -/

section Memory
variable {memory m : Nat → BitVec 8} {p q w : Nat} {bytes : List (BitVec 8)}

/-- Memory outside of what is written. -/
lemma write_outside {x : Nat} (h : x < p ∨ p + bytes.length ≤ x) : write memory p bytes x = memory x :=
  if_neg fun inside => by omega

/-- Memory that is written. -/
lemma write_inside {i : Nat} (hi : i < bytes.length) : write memory p bytes (p + i) = bytes[i] := by
  rw [write, if_pos ⟨Nat.le_add_right _ _, by omega⟩, Nat.add_sub_cancel_left, List.getD_eq_getElem _ _ hi]

/-- A word that is written. -/
lemma word_write (lt : w < 2 ^ 32) : word (write memory p (bytesOf w)) p = w := by
  have byte (i : Nat) (hi : i < (bytesOf w).length) : write memory p (bytesOf w) (p + i) = (bytesOf w)[i] :=
    write_inside hi
  have four : (bytesOf w).length = 4 := rfl
  have b0 : write memory p (bytesOf w) p = BitVec.ofNat 8 w := byte 0 (by omega)
  have b1 : write memory p (bytesOf w) (p + 1) = BitVec.ofNat 8 (w / 2 ^ 8) := byte 1 (by omega)
  have b2 : write memory p (bytesOf w) (p + 2) = BitVec.ofNat 8 (w / 2 ^ 16) := byte 2 (by omega)
  have b3 : write memory p (bytesOf w) (p + 3) = BitVec.ofNat 8 (w / 2 ^ 24) := byte 3 (by omega)
  rw [word, b0, b1, b2, b3, BitVec.toNat_ofNat, BitVec.toNat_ofNat, BitVec.toNat_ofNat, BitVec.toNat_ofNat]
  omega

/-- A word is read from its four bytes. -/
lemma word_congr (h : ∀ k < 4, m (p + k) = memory (p + k)) : word m p = word memory p := by
  rw [word, word, h 1 (by decide), h 2 (by decide), h 3 (by decide)]
  rw [show m p = memory p from h 0 (by decide)]

/-- The string in memory. -/
structure StringIn (memory : Nat → BitVec 8) (p : Nat) (t : Str) : Prop where
  chars : ∀ i (hi : i < t.length), memory (p + i) = t[i]
  nul : memory (p + t.length) = 0
  proper : 0 ∉ t

/-- A string is read from its bytes. -/
lemma StringIn.congr {t : Str} (h : StringIn memory p t) (same : ∀ i ≤ t.length, m (p + i) = memory (p + i)) :
    StringIn m p t where
  chars i hi := (same i (Nat.le_of_lt hi)).trans (h.chars i hi)
  nul := (same _ (Nat.le_refl _)).trans h.nul
  proper := h.proper

/-- What `strndup` writes. -/
lemma stringIn_written {t : Str} (proper : 0 ∉ t) : StringIn (write (write memory (p + t.length) [0]) p t) p t where
  chars i hi := write_inside hi
  nul := by
    rw [write_outside (.inr (Nat.le_refl _))]
    exact @write_inside memory (p + t.length) [0] 0 Nat.zero_lt_one
  proper := proper

end Memory

/-! ### Calls of malloc -/

section Malloc
variable {addr size : BitVec 32} {s s' : Malloc} {p : Nat}

/-- Code of the heap. -/
lemma onHeap_returns {α : Type} {p : Prog Heap.Fault Malloc α} {s : Store} {a : α} {heap : Malloc}
    (h : Returns p s.heap a heap) : Returns (onHeap p) s a { s with heap := heap } := by
  obtain ⟨N, h⟩ := h
  exact ⟨N, fun n hn => by rw [Split.onHeap, h n hn]⟩

/-- A fault of the heap. -/
lemma onHeap_raises {α : Type} {p : Prog Heap.Fault Malloc α} {s : Store} {e : Heap.Fault}
    (h : Raises p s.heap e) : Raises (onHeap p) s (.heap e) := by
  obtain ⟨N, h⟩ := h
  exact ⟨N, fun n hn => by rw [Split.onHeap, h n hn]⟩

/-- What is zero stays zero, as new pages are cleared, and the heap starts where it did. -/
lemma malloc_zero (x b : Nat) (h : s.memory x = 0 ∧ s.base = b) (run : Returns (malloc addr size) s p s') :
    s'.memory x = 0 ∧ s'.base = b := by
  refine Keeps.returns (I := fun s : Malloc => s.memory x = 0 ∧ s.base = b) ?_ run h
  rw [malloc]
  split
  · next i _ =>
    refine Keeps.loop (fun _ => .bind (.asks _) fun found => ?_) ()
    rcases found with _ | ⟨⟨k, slab⟩, slabs⟩
    · refine .bind ?_ fun _ => .pure _
      intro n t u t' h run
      obtain ⟨r, t1, found, run⟩ := bind_result run
      rw [demand] at found
      cases page : Pools.pageHeapAlloc t with
      | none =>
        rw [page] at found
        cases found
      | some r' =>
        rw [page] at found
        cases found
        cases run
        obtain ⟨-, -, -, cleared⟩ := view_pageHeapAlloc page i
        have base : r.2.base = t.base := by
          rw [Pools.pageHeapAlloc] at page
          split at page
          · cases page
            rfl
          · split at page
            · cases page
              rfl
            · cases page
        refine ⟨?_, base.trans h.2⟩
        show r.2.memory x = 0
        rw [cleared, clearPage]
        split
        · rfl
        · exact h.1
    · exact .bind (.update fun t h => h) fun _ => .pure _
  · exact .raise _

/-- Heaps that are the same but for what is in memory. -/
def SameHeap (s t : Malloc) : Prop := ∃ memory, t = { s with memory := memory }

/-- A new slab does not depend on what memory holds. -/
lemma sim_slabNew (types : Fin sizes.length → SlabType) (i : Fin sizes.length) :
    Sim SameHeap Eq (Pools.slabNew types i) (Pools.slabNew types i) := by
  refine .bind (A := fun r r' => r.1 = r'.1 ∧ SameHeap r.2 r'.2) (.demand ?_) ?_
  · rintro ⟨base, next, cache, others, slabs, live, mem⟩ t ⟨p, s1⟩ ⟨memory, rfl⟩ found
    cases cache with
    | cons q rest =>
      cases found
      exact ⟨_, rfl, rfl, _, rfl⟩
    | nil =>
      rw [Pools.pageHeapAlloc] at found ⊢
      dsimp only at found ⊢
      split at found
      · next room =>
        cases found
        rw [if_pos room]
        exact ⟨_, rfl, rfl, _, rfl⟩
      · cases found
  · rintro ⟨p, s1⟩ ⟨_, _⟩ ⟨rfl, memory, rfl⟩
    exact .update fun _ _ _ => ⟨memory, rfl⟩

/-- `malloc` does not depend on what memory holds. -/
lemma sim_malloc : Sim SameHeap Eq (malloc addr size) (malloc addr size) := by
  rw [malloc]
  split
  · next i _ =>
    refine .loop (A := Eq) (fun _ _ _ => ?_) rfl
    refine Sim.andThen (.asks ?_) fun found => ?_
    · rintro s t ⟨memory, rfl⟩
      rfl
    · rcases found with _ | ⟨⟨k, slab⟩, slabs⟩
      · exact Sim.andThen (sim_slabNew _ i) fun _ => .pure (.inl rfl)
      · refine Sim.andThen (.update ?_) fun _ => .pure (.inr rfl)
        rintro s t ⟨memory, rfl⟩
        exact ⟨memory, rfl⟩
  · exact .raise _ _

end Malloc

end Twcos.Split
