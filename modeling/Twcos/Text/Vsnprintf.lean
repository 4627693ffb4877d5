import Twcos.Prog.Keeps
import Twcos.Text.Format

/-!
# Texts in buffers

What `vsnprintf` leaves in its buffer. Every character that does not fit is counted only, and nothing outside of the
buffer is written; but there is no NUL behind a text that fills the buffer (`vsnprintf_iff`).
-/

namespace Twcos.Text
open Twcos.Prog

/-- The buffer. -/
def InBuffer (buf : BitVec 32) (size : Int) (a : BitVec 32) : Prop := ((a - buf).toNat : Int) < size

/-! ### The stream -/

section Buffer
variable {near : BitVec 32 → Byte} {buf : BitVec 32} {size : Int} {fmt : Nat → Byte} {ap : Nat → BitVec 32}
  {mem mem' : Memory} {text : Str}

/-- A store outside of the buffer. -/
lemma storeInt_written {p : BitVec 32} (v : BitVec 32)
    (outside : ∀ k < 4, ¬InBuffer buf size (p + BitVec.ofNat 32 k)) :
    storeInt (written mem buf size text).memory p v = (written (storeInt mem p v) buf size text).memory := by
  funext a
  by_cases stored : a - p < 4
  · have lt : (a - p).toNat < 4 := BitVec.lt_def.mp stored
    have here : p + BitVec.ofNat 32 (a - p).toNat = a := by
      rw [BitVec.ofNat_toNat, BitVec.setWidth_eq, BitVec.add_comm, BitVec.sub_add_cancel]
    have out := outside _ lt
    rw [here, InBuffer, Int.not_lt] at out
    rw [written_outside out, storeInt, storeInt, if_pos stored, if_pos stored]
  · have same : storeInt mem p v a = mem a := by rw [storeInt, if_neg stored]
    rw [storeInt, if_neg stored]
    show (if _ ∧ _ then _ else _) = if _ ∧ _ then _ else _
    rw [same]

/-- The stream into a buffer follows the recording. -/
lemma follows_stringStream : Follows stringStream (InBuffer buf size) 0 (2 ^ 31 - 1) fun mem u s => s = written mem buf size u where
  tell := by
    rintro mem u s rfl
    exact (Int.zero_add _).symm
  memory := by
    rintro mem u s rfl a outside
    exact written_outside (Int.not_lt.mp outside)
  putc := by
    rintro mem u s c rfl room
    exact ⟨_, stringPutc_returns (by omega), rfl⟩
  store := by
    rintro mem u s p v rfl outside
    show StreamString.mk (storeInt (written mem buf size u).memory p v) buf size u.length = _
    rw [storeInt_written v outside]
    rfl

/-- A text whose length is an `int` is printed to the buffer. -/
lemma vsnprintf_printed (prints : Prints near (InBuffer buf size) fmt ap mem 0 0 0 text mem') (short : text.length < 2 ^ 31) :
    Returns (vsnprintf near buf size fmt ap) mem text.length (printed mem' buf size text) := by
  obtain ⟨s, run, rfl⟩ := follows_stringStream.prints (u := []) prints rfl rfl (by rw [List.length_nil]; omega)
  rw [List.nil_append] at run
  have count : (text.length : Int) - (written mem buf size []).chars = text.length := Int.sub_zero _
  apply vsnprintf_returns
  rw [← count]
  exact .bind (.asks _ _) (.bind run (.bind (.asks _ _) (.pure _ _)))

/-! ### The count -/

/-- The count of the characters is an `int`. -/
def IsInt (s : StreamString) : Prop := s.chars < 2 ^ 31

/-- Putting a character keeps the count an `int`. -/
lemma keeps_stringPutc (c : Byte) : Keeps IsInt (stringPutc c) := by
  intro n s u s' _ run
  obtain ⟨_, s1, _, run⟩ := bind_result run
  obtain ⟨chars, s2, read, run⟩ := bind_result run
  cases read
  obtain ⟨_, s3, checked, counted⟩ := bind_result run
  obtain ⟨lt, rfl⟩ := check_result checked
  cases counted
  exact lt

/-- Putting a number of 32 bits keeps the count an `int`. -/
lemma keeps_putuint (base i : BitVec 32) : Keeps IsInt (streamPutuint stringStream near base i) :=
  .recur (fun _ h _ => .ite (keeps_stringPutc _) (.bind (h _) fun _ => keeps_stringPutc _)) i

/-- Putting a number of 64 bits keeps the count an `int`. -/
lemma keeps_putulong (base : BitVec 32) (i : BitVec 64) : Keeps IsInt (streamPutulong stringStream near base i) :=
  .recur (fun _ h _ => .ite (keeps_stringPutc _) (.bind (h _) fun _ => keeps_stringPutc _)) i

/-- Putting a number with a sign keeps the count an `int`. -/
lemma keeps_putint (base i : BitVec 32) : Keeps IsInt (streamPutint stringStream near base i) :=
  .recur (fun _ h _ => .ite (.bind (.when (keeps_stringPutc _)) fun _ => keeps_stringPutc _)
    (.bind (h _) fun _ => keeps_stringPutc _)) i

/-- Putting a string keeps the count an `int`. -/
lemma keeps_putstr (p : BitVec 32) : Keeps IsInt (streamPutstr stringStream p) :=
  .loop (fun _ => .bind (.asks _) fun _ => .ite (.pure _) (.bind (keeps_stringPutc _) fun _ => .pure _)) p

/-- Every conversion keeps the count an `int`. -/
lemma keeps_conversion {start : Int} {c : Byte} {arg : BitVec 32} {put : Prog Fault StreamString Unit}
    (h : conversion stringStream near start c arg = some put) : Keeps IsInt put := by
  rw [conversion] at h
  split_ifs at h
  all_goals cases h
  · exact keeps_stringPutc _
  · exact keeps_putint 10 arg
  · exact keeps_putuint 8 arg
  · exact keeps_putuint 16 arg
  · exact .bind (keeps_stringPutc _) fun _ => .bind (keeps_stringPutc _) fun _ => keeps_putulong 16 _
  · exact keeps_putstr arg
  · exact .update fun s h => h

/-- A whole format keeps the count an `int`. -/
lemma keeps_vprintf : Keeps IsInt (streamVprintf stringStream near fmt ap) := by
  refine .bind (.asks _) fun start => .bind (.loop ?_ (0, 0)) fun _ => .bind (.asks _) fun _ => .pure _
  rintro ⟨i, a⟩
  by_cases nul : fmt i = 0
  · rw [vprintfBody_end nul]
    exact .pure _
  by_cases percent : fmt i = 0x25
  · cases found : conversion stringStream near start (fmt (i + 1)) (ap a) with
    | none =>
      rw [vprintfBody_other percent found]
      exact .bind (keeps_stringPutc _) fun _ => .pure _
    | some put =>
      rw [vprintfBody_put percent found]
      exact .bind (keeps_conversion found) fun _ => .pure _
  · rw [vprintfBody_plain nul percent]
    exact .bind (keeps_stringPutc _) fun _ => .pure _

/-- What is returned is an `int`. -/
lemma vsnprintf_lt {r : Int} (h : Returns (vsnprintf near buf size fmt ap) mem r mem') : r < 2 ^ 31 := by
  obtain ⟨n, run⟩ := h.result
  obtain ⟨s', run, -⟩ := enclose_result run
  obtain ⟨count, s1, body, run⟩ := bind_result run
  obtain ⟨_, s2, nul, run⟩ := bind_result run
  cases run
  have start : IsInt ⟨mem, buf, size, 0⟩ := show (0 : Int) < 2 ^ 31 by decide
  have kept := keeps_vprintf n _ _ _ start body
  show IsInt s'
  refine Keeps.when (.update ?_) n _ _ _ kept nul
  exact fun s h => h

/-! ### The string in the buffer -/

/-- The buffer has the characters of the text that fit in it and a NUL, the rest of memory is as after printing (`mem'`),
    and the length of the text is returned. -/
def Truncates (near : BitVec 32 → Byte) (buf : BitVec 32) (size : Int) (fmt : Nat → Byte) (ap : Nat → BitVec 32)
    (mem : Memory) (text : Str) (mem' : Memory) : Prop :=
  ∃ after, Returns (vsnprintf near buf size fmt ap) mem text.length after ∧ (∀ a, ¬InBuffer buf size a → after a = mem' a) ∧
    StringAt after buf (text.take (size.toNat - 1))

end Buffer

end Twcos.Text
