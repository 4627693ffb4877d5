import Twcos.Prog.Turns
import Twcos.Text.Str
import Mathlib.Logic.Function.Basic
import Mathlib.Data.List.GetD

/-!
# Streams

Model of `libk/stream.c`, which formats texts for streams, and of the stream of `libk/string.c` that writes them to a
buffer.

A string is read from memory up to its NUL, wherever that is. A format is constant, and given by its bytes from the first
one on. The words of a `va_list` are those on the stack from the first one on, as `va_arg` does not know how many there
are. The counts of characters are signed, and one that overflows is a fault.

C → Lean naming: `stream_putc` → `Stream.putc`, `stream_tell` → `Stream.tell`, `stream_vprintf` → `streamVprintf`,
`stream_string_t` → `StreamString`, `string_putc` → `stringPutc` and so on.
-/

namespace Twcos.Text
open Twcos.Prog

abbrev Memory := BitVec 32 → Byte

/-- `stream_t`, with its operations, for states that memory is a part of. -/
structure Stream (ε σ : Type) where
  putc : Byte → Prog ε σ Unit
  tell : σ → Int
  memory : σ → Memory
  setMemory : Memory → σ → σ

/-- An assignment to an `int` in memory. -/
def storeInt (mem : Memory) (p : BitVec 32) (i : BitVec 32) : Memory := fun a =>
  if a - p < 4 then (i >>> (8 * (a - p).toNat)).setWidth 8 else mem a

section Stream
variable {ε σ : Type} (stream : Stream ε σ) (near : BitVec 32 → Byte)

/-- `digits[i]`. What is near the table is read for an index that is not in it. -/
def digits (i : BitVec 32) : Byte :=
  [0x30, 0x31, 0x32, 0x33, 0x34, 0x35, 0x36, 0x37, 0x38, 0x39, 0x61, 0x62, 0x63, 0x64, 0x65, 0x66, 0].getD i.toNat (near i)

/-- `stream_putuint`. The `abs` of an unsigned number is the number. -/
def streamPutuint (base : BitVec 32) : BitVec 32 → Prog ε σ Unit :=
  recur fun call i =>
    if i < base then stream.putc (digits near i)
    else do
      call (i / base)
      stream.putc (digits near (i % base))

/-- `stream_putulong`. -/
def streamPutulong (base : BitVec 32) : BitVec 64 → Prog ε σ Unit :=
  recur fun call i =>
    if i < base.signExtend 64 then stream.putc (digits near (i.setWidth 32))
    else do
      call (i / base.signExtend 64)
      stream.putc (digits near ((i % base.signExtend 64).setWidth 32))

/-- `stream_putint`. -/
def streamPutint (base : BitVec 32) : BitVec 32 → Prog ε σ Unit :=
  recur fun call i =>
    if i.slt base then do
      when (i.slt 0) (stream.putc 0x2d)
      stream.putc (digits near i)
    else do
      call (i.sdiv base)
      stream.putc (digits near (i.srem base))

/-- The loop of `stream_putstr`. -/
def putstrBody (s : BitVec 32) : Prog ε σ (BitVec 32 ⊕ Unit) := do
  let c ← asks fun st => stream.memory st s
  if c = 0 then return .inr ()
  else do
    stream.putc c
    return .inl (s + 1)

/-- `stream_putstr`. -/
def streamPutstr (s : BitVec 32) : Prog ε σ Unit := loop (putstrBody stream) s

/-- `stream_putptr`. -/
def streamPutptr (p : BitVec 32) : Prog ε σ Unit := do
  stream.putc 0x30
  stream.putc 0x78
  streamPutulong stream near 16 (p.zeroExtend 64)

/-- The conversions that take an argument: `c`, `d`, `i`, `o`, `x`, `p`, `s` and `n`. -/
def conversion (start : Int) (c : Byte) (arg : BitVec 32) : Option (Prog ε σ Unit) :=
  if c = 0x63 then some (stream.putc (arg.setWidth 8))
  else if c = 0x64 ∨ c = 0x69 then some (streamPutint stream near 10 arg)
  else if c = 0x6f then some (streamPutuint stream near 8 arg)
  else if c = 0x78 then some (streamPutuint stream near 16 arg)
  else if c = 0x70 then some (streamPutptr stream near arg)
  else if c = 0x73 then some (streamPutstr stream arg)
  else if c = 0x6e then
    some (update fun st => stream.setMemory (storeInt (stream.memory st) arg (BitVec.ofInt 32 (stream.tell st - start))) st)
  else none

/-- The loop of `stream_vprintf`, at a byte of the format and a word of the arguments. After a `%`, every other character
    stands for itself, also the NUL at the end of the format. -/
def vprintfBody (start : Int) (fmt : Nat → Byte) (ap : Nat → BitVec 32) (i : Nat × Nat) :
    Prog ε σ ((Nat × Nat) ⊕ Unit) :=
  if fmt i.1 = 0 then return .inr ()
  else if fmt i.1 = 0x25 then
    match conversion stream near start (fmt (i.1 + 1)) (ap i.2) with
    | some put => do
      put
      return .inl (i.1 + 2, i.2 + 1)
    | none => do
      stream.putc (fmt (i.1 + 1))
      return .inl (i.1 + 2, i.2)
  else do
    stream.putc (fmt i.1)
    return .inl (i.1 + 1, i.2)

/-- `stream_vprintf`. -/
def streamVprintf (fmt : Nat → Byte) (ap : Nat → BitVec 32) : Prog ε σ Int := do
  let start ← asks stream.tell
  loop (vprintfBody stream near start fmt ap) (0, 0)
  let chars ← asks stream.tell
  return chars - start

/-! ### The turns of `stream_vprintf` -/

section Turns
variable {stream : Stream ε σ} {near : BitVec 32 → Byte} {start : Int} {fmt : Nat → Byte} {ap : Nat → BitVec 32} {i a : Nat}

/-- A turn at the end of the format. -/
lemma vprintfBody_end (h : fmt i = 0) : vprintfBody stream near start fmt ap (i, a) = pure (.inr ()) := by
  rw [vprintfBody, if_pos h]

/-- A turn at a plain character. -/
lemma vprintfBody_plain (h : fmt i ≠ 0) (percent : fmt i ≠ 0x25) : vprintfBody stream near start fmt ap (i, a) =
    (stream.putc (fmt i) >>= fun _ => pure (.inl (i + 1, a))) := by
  rw [vprintfBody, if_neg h, if_neg percent]

/-- A turn at a string. -/
lemma vprintfBody_string (percent : fmt i = 0x25) (h : fmt (i + 1) = 0x73) :
    vprintfBody stream near start fmt ap (i, a) =
      (streamPutstr stream (ap a) >>= fun _ => pure (.inl (i + 2, a + 1))) := by
  have string : conversion stream near start 0x73 (ap a) = some (streamPutstr stream (ap a)) := rfl
  have nul : fmt i ≠ 0 := by
    rw [percent]
    decide
  rw [vprintfBody, if_neg nul, if_pos percent, h, string]

/-! From the result of the loop to what it did first. -/

variable {n : Nat} {st s' : σ} {u : Unit}

/-- The run at the end of the format. -/
lemma vprintf_end (h : fmt i = 0) (run : loop (vprintfBody stream near start fmt ap) (i, a) n st = .ok (u, s')) : s' = st := by
  obtain ⟨m, -, ⟨j, s1, turn, -⟩ | leave⟩ := loop_first run
  · rw [vprintfBody_end h] at turn
    cases turn
  · rw [vprintfBody_end h] at leave
    cases leave
    rfl

/-- The run at a plain character. -/
lemma vprintf_plain (h : fmt i ≠ 0) (percent : fmt i ≠ 0x25)
    (run : loop (vprintfBody stream near start fmt ap) (i, a) n st = .ok (u, s')) :
    ∃ m s1, stream.putc (fmt i) m st = .ok ((), s1) ∧
      loop (vprintfBody stream near start fmt ap) (i + 1, a) m s1 = .ok (u, s') := by
  obtain ⟨m, -, ⟨j, s1, turn, rest⟩ | leave⟩ := loop_first run
  · rw [vprintfBody_plain h percent] at turn
    obtain ⟨_, s2, put, turn⟩ := bind_result turn
    cases turn
    exact ⟨m, s1, put, rest⟩
  · rw [vprintfBody_plain h percent] at leave
    obtain ⟨_, s2, _, leave⟩ := bind_result leave
    cases leave

/-- The run at a string. -/
lemma vprintf_string (percent : fmt i = 0x25) (h : fmt (i + 1) = 0x73)
    (run : loop (vprintfBody stream near start fmt ap) (i, a) n st = .ok (u, s')) :
    ∃ m s1, streamPutstr stream (ap a) m st = .ok ((), s1) ∧
      loop (vprintfBody stream near start fmt ap) (i + 2, a + 1) m s1 = .ok (u, s') := by
  obtain ⟨m, -, ⟨j, s1, turn, rest⟩ | leave⟩ := loop_first run
  · rw [vprintfBody_string percent h] at turn
    obtain ⟨_, s2, put, turn⟩ := bind_result turn
    cases turn
    exact ⟨m, s1, put, rest⟩
  · rw [vprintfBody_string percent h] at leave
    obtain ⟨_, s2, _, leave⟩ := bind_result leave
    cases leave

end Turns

end Stream

/-! ### Writing to a buffer -/

inductive Fault where
  | overflow

/-- `stream_string_t`, with the memory that its buffer is in. -/
structure StreamString where
  memory : Memory
  buf : BitVec 32
  size : Int
  chars : Int

/-- The character is put if there is room. -/
def StreamString.put (c : Byte) (s : StreamString) : StreamString :=
  if s.chars < s.size then { s with memory := Function.update s.memory (s.buf + BitVec.ofInt 32 s.chars) c } else s

/-- `string_putc`. -/
def stringPutc (c : Byte) : Prog Fault StreamString Unit := do
  update (StreamString.put c)
  let chars ← asks StreamString.chars
  check (chars + 1 < 2 ^ 31) .overflow
  update fun s => { s with chars := s.chars + 1 }

/-- `string_ops`. -/
def stringStream : Stream Fault StreamString where
  putc := stringPutc
  tell := StreamString.chars
  memory := StreamString.memory
  setMemory mem s := { s with memory := mem }

section Vsnprintf
variable (near : BitVec 32 → Byte) (buf : BitVec 32) (size : Int) (fmt : Nat → Byte) (ap : Nat → BitVec 32)

/-- The body of `vsnprintf`, with its `stream_string_t`. The NUL is not written when the buffer is full. -/
def vsnprintfString : Prog Fault StreamString Int := do
  let printed ← streamVprintf stringStream near fmt ap
  when (printed < size) (update fun s => { s with memory := Function.update s.memory (s.buf + BitVec.ofInt 32 s.chars) 0 })
  asks StreamString.chars

/-- `vsnprintf`. -/
def vsnprintf : Prog Fault Memory Int :=
  enclose (fun mem => ⟨mem, buf, size, 0⟩) StreamString.memory (vsnprintfString near size fmt ap)

/-- `snprintf`, with its arguments. -/
def snprintf : Prog Fault Memory Int := vsnprintf near buf size fmt ap

end Vsnprintf

/-! ### What is written -/

/-- The string in memory from `p` on. -/
structure StringAt (mem : Memory) (p : BitVec 32) (s : Str) : Prop where
  chars : ∀ i (hi : i < s.length), mem (p + BitVec.ofNat 32 i) = s[i]
  nul : mem (p + BitVec.ofNat 32 s.length) = 0
  proper : 0 ∉ s

/-- The stream after it was given a text. What does not fit is counted only. -/
def written (mem : Memory) (buf : BitVec 32) (size : Int) (text : Str) : StreamString where
  memory a := if (a - buf).toNat < text.length ∧ ((a - buf).toNat : Int) < size then text.getD (a - buf).toNat 0 else mem a
  buf := buf
  size := size
  chars := text.length

section Written
variable {mem : Memory} {buf p : BitVec 32} {size : Int} {text t : Str} {c : Byte}

/-- The state of the stream before anything is written. -/
lemma written_nil : written mem buf size [] = ⟨mem, buf, size, 0⟩ := by
  have none (a : BitVec 32) : ¬((a - buf).toNat < ([] : Str).length ∧ ((a - buf).toNat : Int) < size) :=
    fun h => Nat.not_lt_zero _ h.1
  rw [written]
  simp only [if_neg (none _)]
  rfl

/-- Memory outside of the buffer is as it was. -/
lemma written_outside {a : BitVec 32} (h : size ≤ ((a - buf).toNat : Int)) : (written mem buf size text).memory a = mem a :=
  if_neg fun inside => absurd inside.2 (by omega)

/-- The characters in the buffer. -/
lemma written_char {i : Nat} (hi : i < text.length) (fits : (i : Int) < size) (lt : i < 2 ^ 32) :
    (written mem buf size text).memory (buf + BitVec.ofNat 32 i) = text[i] := by
  have index : (buf + BitVec.ofNat 32 i - buf).toNat = i := by
    rw [BitVec.add_comm, BitVec.add_sub_cancel, BitVec.toNat_ofNat, Nat.mod_eq_of_lt lt]
  show (if _ ∧ _ then _ else _) = _
  rw [index, if_pos ⟨hi, fits⟩, List.getD_eq_getElem _ _ hi]

/-- One more character. -/
lemma written_put (mem : Memory) (buf : BitVec 32) (size : Int) (c : Byte) (len : text.length < 2 ^ 31) :
    (written mem buf size text).put c = { written mem buf size (text ++ [c]) with chars := text.length } := by
  have at_end (a : BitVec 32) : a = buf + BitVec.ofNat 32 text.length ↔ (a - buf).toNat = text.length := by
    constructor
    · rintro rfl
      rw [BitVec.add_comm, BitVec.add_sub_cancel, BitVec.toNat_ofNat, Nat.mod_eq_of_lt (by omega)]
    · intro h
      rw [← h, BitVec.ofNat_toNat, BitVec.setWidth_eq, BitVec.add_comm, BitVec.sub_add_cancel]
  have long : (text ++ [c]).length = text.length + 1 := List.length_append
  have same (a : BitVec 32) (ne : (a - buf).toNat ≠ text.length ∨ ¬(text.length : Int) < size) :
      (written mem buf size text).memory a = (written mem buf size (text ++ [c])).memory a := by
    show (if _ ∧ _ then _ else _) = if _ ∧ _ then _ else _
    by_cases inside : (a - buf).toNat < text.length ∧ ((a - buf).toNat : Int) < size
    · rw [if_pos inside, if_pos ⟨by omega, inside.2⟩, List.getD_append _ _ _ _ inside.1]
    · rw [if_neg inside, if_neg (by omega)]
  have chars : (written mem buf size text).chars = text.length := rfl
  have bound : (written mem buf size text).size = size := rfl
  rw [StreamString.put, chars, bound]
  by_cases fits : (text.length : Int) < size
  · have memory : Function.update (written mem buf size text).memory (buf + BitVec.ofInt 32 text.length) c =
        (written mem buf size (text ++ [c])).memory := by
      funext a
      rw [BitVec.ofInt_natCast, Function.update_apply]
      by_cases here : (a - buf).toNat = text.length
      · rw [if_pos ((at_end a).mpr here)]
        show c = if _ ∧ _ then _ else _
        rw [here, if_pos ⟨by omega, fits⟩, List.getD_append_right _ _ _ _ (Nat.le_refl _), Nat.sub_self]
        rfl
      · rw [if_neg fun e => here ((at_end a).mp e), same a (.inl here)]
    rw [if_pos fits]
    exact congrArg (fun m => StreamString.mk m buf size text.length) memory
  · have memory : (written mem buf size text).memory = (written mem buf size (text ++ [c])).memory :=
      funext fun a => same a (.inr fits)
    rw [if_neg fits]
    exact congrArg (fun m => StreamString.mk m buf size text.length) memory

/-- The state of the stream after one more character. -/
lemma written_chars : ({ written mem buf size (text ++ [c]) with chars := (text.length : Int) + 1 } : StreamString) =
    written mem buf size (text ++ [c]) := by
  have long : ((text ++ [c]).length : Int) = text.length + 1 := by
    rw [List.length_append]
    rfl
  rw [← long]
  rfl

/-- Putting a character into the buffer. -/
lemma stringPutc_returns (len : text.length + 1 < 2 ^ 31) :
    Returns (stringPutc c) (written mem buf size text) () (written mem buf size (text ++ [c])) := by
  refine .bind (.update _ _) ?_
  rw [written_put mem buf size c (by omega)]
  refine .bind (.asks _ _) (.bind (.check (show (text.length : Int) + 1 < 2 ^ 31 by omega)) ?_)
  rw [← written_chars]
  exact .update _ _

/-- The result of putting a character into the buffer. -/
lemma stringPutc_result {n : Nat} {u : Unit} {s' : StreamString}
    (h : stringPutc c n (written mem buf size text) = .ok (u, s')) (len : text.length < 2 ^ 31) :
    s' = written mem buf size (text ++ [c]) ∧ text.length + 1 < 2 ^ 31 := by
  obtain ⟨_, s1, first, h⟩ := bind_result h
  cases first
  rw [written_put mem buf size c len] at h
  obtain ⟨chars, s2, counted, h⟩ := bind_result h
  cases counted
  obtain ⟨_, s3, checked, h⟩ := bind_result h
  obtain ⟨lt, rfl⟩ := check_result checked
  cases h
  refine ⟨written_chars, ?_⟩
  have lt' : (text.length : Int) + 1 < 2 ^ 31 := lt
  omega

/-- The address after the next one. -/
lemma address_succ (p : BitVec 32) (i : Nat) : p + 1 + BitVec.ofNat 32 i = p + BitVec.ofNat 32 (i + 1) := by
  rw [BitVec.add_assoc, Nat.add_comm i 1, BitVec.ofNat_add]
  rfl

/-- The rest of a string. -/
lemma StringAt.tail {c : Byte} (h : StringAt mem p (c :: t)) : StringAt mem (p + 1) t := by
  constructor
  · intro i hi
    rw [address_succ]
    exact h.chars (i + 1) (Nat.succ_lt_succ hi)
  · rw [address_succ]
    exact h.nul
  · exact fun mem => h.proper (List.mem_cons_of_mem _ mem)

/-- A string outside of the buffer is put. -/
lemma streamPutstr_returns (h : StringAt mem p t)
    (outside : ∀ i ≤ t.length, size ≤ ((p + BitVec.ofNat 32 i - buf).toNat : Int))
    (len : text.length + t.length < 2 ^ 31) :
    Returns (streamPutstr stringStream p) (written mem buf size text) () (written mem buf size (text ++ t)) := by
  induction t generalizing p text with
  | nil =>
    have nul : (written mem buf size text).memory p = 0 := by
      have start := outside 0 (Nat.le_refl _)
      have read := h.nul
      rw [List.length_nil, BitVec.add_zero] at read
      rw [BitVec.add_zero] at start
      rw [written_outside start, read]
    rw [List.append_nil]
    exact .exit (.bind (.asks _ _) (.ite_pos nul (.pure _ _)))
  | cons c t ih =>
    have read : (written mem buf size text).memory p = c := by
      have start := outside 0 (Nat.zero_le _)
      have first := h.chars 0 (Nat.succ_pos _)
      rw [BitVec.add_zero] at start first
      rw [written_outside start, first]
      rfl
    have ne : ¬(written mem buf size text).memory p = 0 := by
      rw [read]
      rintro rfl
      exact h.proper List.mem_cons_self
    have rest := @ih (p + 1) (text ++ [c]) h.tail (fun i hi => ?_) ?_
    · rw [List.append_assoc] at rest
      have put : Returns (stringPutc ((written mem buf size text).memory p)) (written mem buf size text) ()
          (written mem buf size (text ++ [c])) := by
        rw [read]
        exact stringPutc_returns (by rw [List.length_cons] at len; omega)
      exact .turn (.bind (.asks _ _) (.ite_neg ne (.bind put (.pure _ _)))) rest
    · have next := outside (i + 1) (Nat.succ_le_succ hi)
      rwa [← address_succ] at next
    · rw [List.length_append, List.length_singleton]
      rw [List.length_cons] at len
      omega

/-- A turn of the loop ends it at a NUL, or puts another character. -/
lemma putstrBody_result {n : Nat} {r : BitVec 32 ⊕ Unit} {s' : StreamString}
    (h : putstrBody stringStream p n (written mem buf size text) = .ok (r, s')) (len : text.length < 2 ^ 31) :
    (written mem buf size text).memory p = 0 ∧ r = .inr () ∧ s' = written mem buf size text ∨
      ∃ c, c ≠ 0 ∧ r = .inl (p + 1) ∧ s' = written mem buf size (text ++ [c]) ∧ (text ++ [c]).length < 2 ^ 31 := by
  obtain ⟨c, s1, read, h⟩ := bind_result h
  cases read
  split at h
  · next nul =>
    cases h
    exact .inl ⟨nul, rfl, rfl⟩
  · next nul =>
    obtain ⟨_, s2, put, h⟩ := bind_result h
    cases h
    obtain ⟨rfl, lt⟩ := stringPutc_result put len
    refine .inr ⟨_, nul, rfl, rfl, ?_⟩
    rwa [List.length_append, List.length_singleton]

/-- Whatever string is put, it has the characters outside of the buffer that are there, and none of it is NUL. -/
lemma streamPutstr_result {n k : Nat} {u : Unit} {s' : StreamString}
    (h : streamPutstr stringStream p n (written mem buf size text) = .ok (u, s')) (len : text.length < 2 ^ 31)
    (outside : ∀ i < k, size ≤ ((p + BitVec.ofNat 32 i - buf).toNat : Int))
    (chars : ∀ i < k, mem (p + BitVec.ofNat 32 i) ≠ 0) :
    ∃ t, s' = written mem buf size (text ++ t) ∧ (text ++ t).length < 2 ^ 31 ∧ 0 ∉ t ∧ k ≤ t.length := by
  induction n generalizing p text k with
  | zero => cases h
  | succ n ih =>
    obtain ⟨m, hm, ⟨p', s1, turn, rest⟩ | leave⟩ := loop_first h
    · obtain rfl := Nat.succ.inj hm
      obtain ⟨-, other, -⟩ | ⟨c, nul, next, rfl, lt⟩ := putstrBody_result turn len
      · cases other
      · cases next
        obtain ⟨t, rfl, len', proper, long⟩ := @ih (p + 1) (text ++ [c]) (k - 1) rest lt
          (fun i hi => by rw [address_succ]; exact outside (i + 1) (by omega))
          (fun i hi => by rw [address_succ]; exact chars (i + 1) (by omega))
        rw [List.append_assoc] at len' ⊢
        refine ⟨c :: t, rfl, len', ?_, ?_⟩
        · rintro (_ | ⟨_, mem⟩)
          · exact nul rfl
          · exact proper mem
        · rw [List.length_cons]
          omega
    · obtain ⟨nul, -, rfl⟩ | ⟨c, -, other, -⟩ := putstrBody_result leave len
      · refine ⟨[], ?_, ?_, List.not_mem_nil, ?_⟩
        · rw [List.append_nil]
        · rwa [List.append_nil]
        · by_contra some
          have first : 0 < k := by
            rw [List.length_nil] at some
            omega
          have start := outside 0 first
          have char := chars 0 first
          rw [BitVec.add_zero] at start char
          rw [written_outside start] at nul
          exact char nul
      · cases other

end Written

/-! ### The NUL behind it -/

/-- Memory after a text has been printed to a buffer. A text that is too long has no NUL. -/
def printed (mem : Memory) (buf : BitVec 32) (size : Int) (text : Str) : Memory :=
  if (text.length : Int) < size then
    Function.update (written mem buf size text).memory (buf + BitVec.ofNat 32 text.length) 0
  else (written mem buf size text).memory

section Printed
variable {near : BitVec 32 → Byte} {mem mem' : Memory} {buf : BitVec 32} {size : Int} {fmt : Nat → Byte}
  {ap : Nat → BitVec 32} {text : Str}

/-- Memory outside of the buffer is as it was. -/
lemma printed_outside {a : BitVec 32} (h : size ≤ ((a - buf).toNat : Int)) : printed mem buf size text a = mem a := by
  rw [printed]
  by_cases short : (text.length : Int) < size
  · rw [if_pos short, Function.update_of_ne, written_outside h]
    rintro rfl
    rw [BitVec.add_comm, BitVec.add_sub_cancel, BitVec.toNat_ofNat] at h
    have le := Nat.mod_le text.length (2 ^ 32)
    omega
  · rw [if_neg short, written_outside h]

/-- The characters in the buffer. -/
lemma printed_char {i : Nat} (hi : i < text.length) (fits : (i : Int) < size) (lt : text.length < 2 ^ 32) :
    printed mem buf size text (buf + BitVec.ofNat 32 i) = text[i] := by
  rw [printed]
  by_cases short : (text.length : Int) < size
  · rw [if_pos short, Function.update_of_ne, written_char hi fits (by omega)]
    intro same
    have index := congrArg BitVec.toNat (BitVec.add_right_inj _ |>.mp same)
    rw [BitVec.toNat_ofNat, BitVec.toNat_ofNat, Nat.mod_eq_of_lt lt, Nat.mod_eq_of_lt (by omega)] at index
    omega
  · rw [if_neg short, written_char hi fits (by omega)]

/-- A text that is shorter than the buffer is a string in it. -/
lemma printed_string (short : (text.length : Int) < size) (lt : text.length < 2 ^ 32) (proper : 0 ∉ text) :
    StringAt (printed mem buf size text) buf text where
  chars i hi := printed_char hi (by omega) lt
  nul := by rw [printed, if_pos short, Function.update_self]
  proper := proper

/-- `vsnprintf` writes what is put into its stream. -/
lemma vsnprintf_returns
    (body : Returns (streamVprintf stringStream near fmt ap) (written mem buf size []) text.length
      (written mem' buf size text)) :
    Returns (vsnprintf near buf size fmt ap) mem text.length (printed mem' buf size text) := by
  rw [written_nil] at body
  have put : Returns (vsnprintfString near size fmt ap) ⟨mem, buf, size, 0⟩ text.length
      { written mem' buf size text with memory := printed mem' buf size text } := by
    rw [printed]
    by_cases short : (text.length : Int) < size
    · rw [if_pos short, ← BitVec.ofInt_natCast]
      exact .bind body (.bind (.when_pos short (.update _ _)) (.asks StreamString.chars _))
    · rw [if_neg short]
      exact .bind body (.bind (.when_neg short) (.asks StreamString.chars _))
  exact @Returns.enclose _ _ _ _ (fun mem => ⟨mem, buf, size, 0⟩) StreamString.memory _ mem _ _ put

/-- What `vsnprintf` returns, it returns after such a run. -/
lemma vsnprintf_result {n : Nat} {r : Int} (h : vsnprintf near buf size fmt ap n mem = .ok (r, mem')) :
    ∃ count s, streamVprintf stringStream near fmt ap n (written mem buf size []) = .ok (count, s) ∧
      ∀ text : Str, count = text.length → s = written mem buf size text → mem' = printed mem buf size text := by
  obtain ⟨s', run, rfl⟩ := enclose_result h
  obtain ⟨count, s, body, run⟩ := bind_result run
  rw [← written_nil] at body
  refine ⟨count, s, body, ?_⟩
  rintro text rfl rfl
  obtain ⟨_, s1, put, run⟩ := bind_result run
  cases run
  rw [when] at put
  rw [printed]
  by_cases short : (text.length : Int) < size
  · rw [if_pos (decide_eq_true short)] at put
    cases put
    rw [if_pos short, ← BitVec.ofInt_natCast]
    rfl
  · rw [if_neg (by simpa using short)] at put
    cases put
    rw [if_neg short]

end Printed

end Twcos.Text
