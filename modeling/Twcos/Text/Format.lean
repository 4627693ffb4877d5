import Twcos.Prog.Emits
import Twcos.Text.Puts

/-!
# Formats

What `stream_vprintf` prints. `Prints` relates a format and its arguments to the text that it stands for, conversion by
conversion, and `Follows` says what a stream is like that has been given a text. A stream with room for the text is given
it (`Follows.prints`).

A format is read up to its NUL, unless it ends in a `%`, for which the NUL is taken for the character to be put and the
bytes after it for the rest of the format. `vprintf_iff` says that this is the only way past the end.

C → Lean naming: `stream_null_t` → `StreamNull`, `null_putc` → `nullPutc`, `null_ops` → `nullStream`.
-/

namespace Twcos.Text
open Twcos.Prog Twcos.Numeral

/-! ### The text of a conversion -/

section Conversion
variable {ε σ : Type} (stream : Stream ε σ) (near : BitVec 32 → Byte) (start : Int) (c : Byte) (arg : BitVec 32)

/-- The text of `%d`. -/
def intText : Str := if arg.toInt < 0 then [0x2d, digits near arg] else numberText 10 arg.toNat

/-- The text of the conversions that show their argument. -/
def valueText : Option Str :=
  if c = 0x63 then some [arg.setWidth 8]
  else if c = 0x64 ∨ c = 0x69 then some (intText near arg)
  else if c = 0x6f then some (numberText 8 arg.toNat)
  else if c = 0x78 then some (numberText 16 arg.toNat)
  else if c = 0x70 then some ([0x30, 0x78] ++ numberText 16 arg.toNat)
  else none

/-- What the character after a `%` makes of its argument. -/
inductive Converts : Option (Prog ε σ Unit) → Prop where
  | value {put : Prog ε σ Unit} {text : Str} : valueText near c arg = some text → Puts stream put text →
      Converts (some put)
  | string : valueText near c arg = none → c = 0x73 → Converts (some (streamPutstr stream arg))
  | count : valueText near c arg = none → c = 0x6e → Converts (some (update fun st =>
      stream.setMemory (storeInt (stream.memory st) arg (BitVec.ofInt 32 (stream.tell st - start))) st))
  | other : valueText near c arg = none → c ≠ 0x73 → c ≠ 0x6e → Converts none

variable {stream near start c arg}

/-- A number with its sign, as the code writes it. -/
lemma puts_intText : Puts stream (streamPutint stream near 10 arg) (intText near arg) := by
  rw [intText]
  split
  · next negative => exact puts_putint_negative arg negative
  · next nonneg => exact puts_putint arg (Int.not_lt.mp nonneg)

/-- A pointer. -/
lemma puts_putptr : Puts stream (streamPutptr stream near arg) ([0x30, 0x78] ++ numberText 16 arg.toNat) := by
  have same : (arg.zeroExtend 64).toNat = arg.toNat := by
    rw [BitVec.toNat_setWidth]
    exact Nat.mod_eq_of_lt (by omega)
  have number := @puts_putulong _ _ stream near 16 (by decide) (by decide) (arg.zeroExtend 64)
  rw [same] at number
  exact @Puts.bind _ _ _ [0x30] _ _ _ (.putc 0x30) (@Puts.bind _ _ _ [0x78] _ _ _ (.putc 0x78) number)

/-- Every conversion writes its text. -/
lemma converts : Converts stream near start c arg (conversion stream near start c arg) := by
  have octal : Puts stream (streamPutuint stream near 8 arg) (numberText 8 arg.toNat) :=
    puts_putuint (by decide) (by decide) arg
  have hexadecimal : Puts stream (streamPutuint stream near 16 arg) (numberText 16 arg.toNat) :=
    puts_putuint (by decide) (by decide) arg
  rw [conversion]
  by_cases char : c = 0x63
  · rw [if_pos char]
    exact .value (by rw [valueText, if_pos char]) (.putc _)
  by_cases int : c = 0x64 ∨ c = 0x69
  · rw [if_neg char, if_pos int]
    exact .value (by rw [valueText, if_neg char, if_pos int]) puts_intText
  by_cases oct : c = 0x6f
  · rw [if_neg char, if_neg int, if_pos oct]
    exact .value (by rw [valueText, if_neg char, if_neg int, if_pos oct]) octal
  by_cases hex : c = 0x78
  · rw [if_neg char, if_neg int, if_neg oct, if_pos hex]
    exact .value (by rw [valueText, if_neg char, if_neg int, if_neg oct, if_pos hex]) hexadecimal
  rw [if_neg char, if_neg int, if_neg oct, if_neg hex]
  by_cases pointer : c = 0x70
  · rw [if_pos pointer]
    exact .value (by rw [valueText, if_neg char, if_neg int, if_neg oct, if_neg hex, if_pos pointer]) puts_putptr
  have noText : valueText near c arg = none := by
    rw [valueText, if_neg char, if_neg int, if_neg oct, if_neg hex, if_neg pointer]
  rw [if_neg pointer]
  by_cases string : c = 0x73
  · rw [if_pos string]
    exact .string noText string
  by_cases count : c = 0x6e
  · rw [if_neg string, if_pos count]
    exact .count noText count
  · rw [if_neg string, if_neg count]
    exact .other noText string count

end Conversion

/-! ### The text of a format -/

section Prints
variable (near : BitVec 32 → Byte) (own : BitVec 32 → Prop) (fmt : Nat → Byte) (ap : Nat → BitVec 32)

/-- The text that is printed from a byte of the format and a word of the arguments on, after `n` characters, and the
    memory after it, apart from that of the stream's own. -/
inductive Prints : Memory → Nat → Nat → Nat → Str → Memory → Prop where
  | done {mem : Memory} {n i a : Nat} : fmt i = 0 → Prints mem n i a [] mem
  | plain {mem mem' : Memory} {n i a : Nat} {t : Str} : fmt i ≠ 0 → fmt i ≠ 0x25 →
      Prints mem (n + 1) (i + 1) a t mem' → Prints mem n i a (fmt i :: t) mem'
  | value {mem mem' : Memory} {n i a : Nat} {text t : Str} : fmt i = 0x25 →
      valueText near (fmt (i + 1)) (ap a) = some text →
      Prints mem (n + text.length) (i + 2) (a + 1) t mem' → Prints mem n i a (text ++ t) mem'
  | string {mem mem' : Memory} {n i a : Nat} {text t : Str} : fmt i = 0x25 → fmt (i + 1) = 0x73 →
      StringAt mem (ap a) text → (∀ k ≤ text.length, ¬own (ap a + BitVec.ofNat 32 k)) →
      Prints mem (n + text.length) (i + 2) (a + 1) t mem' → Prints mem n i a (text ++ t) mem'
  | count {mem mem' : Memory} {n i a : Nat} {t : Str} : fmt i = 0x25 → fmt (i + 1) = 0x6e →
      (∀ k < 4, ¬own (ap a + BitVec.ofNat 32 k)) →
      Prints (storeInt mem (ap a) (BitVec.ofNat 32 n)) n (i + 2) (a + 1) t mem' → Prints mem n i a t mem'
  | other {mem mem' : Memory} {n i a : Nat} {t : Str} : fmt i = 0x25 →
      valueText near (fmt (i + 1)) (ap a) = none → fmt (i + 1) ≠ 0x73 → fmt (i + 1) ≠ 0x6e →
      Prints mem (n + 1) (i + 2) a t mem' → Prints mem n i a (fmt (i + 1) :: t) mem'

end Prints

section Follows
variable {ε σ : Type}

/-- The states of a stream that has room for `limit` characters: those in which `R mem u` have been given the text `u`,
    with `mem` outside of the stream's own memory. -/
structure Follows (stream : Stream ε σ) (own : BitVec 32 → Prop) (start : Int) (limit : Nat)
    (R : Memory → Str → σ → Prop) : Prop where
  tell {mem : Memory} {u : Str} {s : σ} : R mem u s → stream.tell s = start + u.length
  memory {mem : Memory} {u : Str} {s : σ} : R mem u s → ∀ a, ¬own a → stream.memory s a = mem a
  putc {mem : Memory} {u : Str} {s : σ} (c : Byte) : R mem u s → u.length < limit →
    ∃ s', Returns (stream.putc c) s () s' ∧ R mem (u ++ [c]) s'
  store {mem : Memory} {u : Str} {s : σ} {p : BitVec 32} (v : BitVec 32) : R mem u s →
    (∀ k < 4, ¬own (p + BitVec.ofNat 32 k)) →
    R (storeInt mem p v) u (stream.setMemory (storeInt (stream.memory s) p v) s)

variable {stream : Stream ε σ} {near : BitVec 32 → Byte} {own : BitVec 32 → Prop} {start : Int} {limit : Nat}
  {R : Memory → Str → σ → Prop} {fmt : Nat → Byte} {ap : Nat → BitVec 32} {mem mem' : Memory} {u t : Str} {s : σ}

/-- The stream takes a text that there is room for. -/
lemma Follows.takes (h : Follows stream own start limit R) (given : R mem u s) (room : u.length + t.length ≤ limit) :
    ∃ s', Takes stream s t s' ∧ R mem (u ++ t) s' := by
  induction t generalizing u s with
  | nil =>
    rw [List.append_nil]
    exact ⟨s, .nil s, given⟩
  | cons c t ih =>
    rw [List.length_cons] at room
    obtain ⟨s1, put, given⟩ := h.putc c given (by omega)
    obtain ⟨s', rest, given⟩ := ih given (by rw [List.length_append, List.length_singleton]; omega)
    rw [List.append_assoc] at given
    exact ⟨s', .cons put rest, given⟩

/-- Putting a text follows the recording. -/
lemma Follows.puts (h : Follows stream own start limit R) {p : Prog ε σ Unit} (puts : Puts stream p t)
    (given : R mem u s) (room : u.length + t.length ≤ limit) : ∃ s', Returns p s () s' ∧ R mem (u ++ t) s' := by
  obtain ⟨s', takes, given⟩ := h.takes given room
  exact ⟨s', puts.returns takes, given⟩

/-- A string that is not in the stream's own memory is put. -/
lemma Follows.putstr (h : Follows stream own start limit R) {p : BitVec 32} (string : StringAt mem p t)
    (outside : ∀ k ≤ t.length, ¬own (p + BitVec.ofNat 32 k)) (given : R mem u s) (room : u.length + t.length ≤ limit) :
    ∃ s', Returns (streamPutstr stream p) s () s' ∧ R mem (u ++ t) s' := by
  have first := outside 0 (Nat.zero_le _)
  rw [BitVec.add_zero] at first
  have read := h.memory given p first
  induction t generalizing p u s with
  | nil =>
    have nul := string.nul
    rw [List.length_nil, BitVec.add_zero] at nul
    rw [List.append_nil]
    refine ⟨s, .exit (.bind (.asks _ _) (.ite_pos ?_ (.pure _ _))), given⟩
    rw [read, nul]
  | cons c t ih =>
    have char := string.chars 0 (Nat.succ_pos _)
    rw [BitVec.add_zero] at char
    have ne : ¬stream.memory s p = 0 := by
      rw [read, char]
      rintro nul
      exact string.proper (nul ▸ List.mem_cons_self)
    rw [List.length_cons] at room
    obtain ⟨s1, put, given⟩ := h.putc c given (by omega)
    have outside' : ∀ k ≤ t.length, ¬own (p + 1 + BitVec.ofNat 32 k) := by
      intro k hk
      rw [address_succ]
      exact outside (k + 1) (Nat.succ_le_succ hk)
    have first' := outside' 0 (Nat.zero_le _)
    rw [BitVec.add_zero] at first'
    obtain ⟨s', rest, given⟩ := ih string.tail outside' given
      (by rw [List.length_append, List.length_singleton]; omega) first' (h.memory given _ first')
    rw [List.append_assoc] at given
    have putRead : Returns (stream.putc (stream.memory s p)) s () s1 := by
      rw [read, char]
      exact put
    exact ⟨s', .turn (.bind (.asks _ _) (.ite_neg ne (.bind putRead (.pure _ _)))) rest, given⟩

/-- A conversion in the loop. -/
lemma vprintfBody_put {i a : Nat} {put : Prog ε σ Unit} (percent : fmt i = 0x25)
    (h : conversion stream near start (fmt (i + 1)) (ap a) = some put) :
    vprintfBody stream near start fmt ap (i, a) = (put >>= fun _ => pure (.inl (i + 2, a + 1))) := by
  have nul : fmt i ≠ 0 := by
    rw [percent]
    decide
  rw [vprintfBody, if_neg nul, if_pos percent, h]

/-- A letter that is no conversion. -/
lemma vprintfBody_other {i a : Nat} (percent : fmt i = 0x25)
    (h : conversion stream near start (fmt (i + 1)) (ap a) = none) :
    vprintfBody stream near start fmt ap (i, a) = (stream.putc (fmt (i + 1)) >>= fun _ => pure (.inl (i + 2, a))) := by
  have nul : fmt i ≠ 0 := by
    rw [percent]
    decide
  rw [vprintfBody, if_neg nul, if_pos percent, h]

/-- The end of the format. -/
lemma vprintfBody_leaves {i a : Nat} (h : fmt i = 0) (s : σ) :
    Returns (loop (vprintfBody stream near start fmt ap) (i, a)) s () s := by
  apply Returns.exit
  rw [vprintfBody_end h]
  exact .pure _ _

/-- A format is printed to a stream that has room for its text. -/
theorem Follows.prints (h : Follows stream own start limit R) {n i a : Nat}
    (prints : Prints near own fmt ap mem n i a t mem') (given : R mem u s) (count : u.length = n)
    (room : u.length + t.length ≤ limit) :
    ∃ s', Returns (loop (vprintfBody stream near start fmt ap) (i, a)) s () s' ∧ R mem' (u ++ t) s' := by
  induction prints generalizing u s with
  | done nul =>
    rw [List.append_nil]
    exact ⟨s, vprintfBody_leaves nul s, given⟩
  | @plain mem mem' n i a t nul percent _ ih =>
    rw [List.length_cons] at room
    obtain ⟨s1, put, given⟩ := h.putc (fmt i) given (by omega)
    have len : (u ++ [fmt i]).length = u.length + 1 := List.length_append
    obtain ⟨s', rest, given⟩ := ih given (by omega) (by omega)
    rw [List.append_assoc] at given
    refine ⟨s', .turn ?_ rest, given⟩
    rw [vprintfBody_plain nul percent]
    exact .bind put (.pure _ _)
  | @value mem mem' n i a text t percent shown _ ih =>
    rw [List.length_append] at room
    have len : (u ++ text).length = u.length + text.length := List.length_append
    have converts := @converts _ _ stream near start (fmt (i + 1)) (ap a)
    generalize found : conversion stream near start (fmt (i + 1)) (ap a) = put at converts
    cases converts with
    | value same puts =>
      cases same.symm.trans shown
      obtain ⟨s1, put, given⟩ := h.puts puts given (by omega)
      obtain ⟨s', rest, given⟩ := ih given (by omega) (by omega)
      rw [List.append_assoc] at given
      refine ⟨s', .turn ?_ rest, given⟩
      rw [vprintfBody_put percent found]
      exact .bind put (.pure _ _)
    | string noText _ => cases noText.symm.trans shown
    | count noText _ => cases noText.symm.trans shown
    | other noText _ _ => cases noText.symm.trans shown
  | @string mem mem' n i a text t percent char string outside _ ih =>
    rw [List.length_append] at room
    have len : (u ++ text).length = u.length + text.length := List.length_append
    obtain ⟨s1, put, given⟩ := h.putstr string outside given (by omega)
    obtain ⟨s', rest, given⟩ := ih given (by omega) (by omega)
    rw [List.append_assoc] at given
    refine ⟨s', .turn ?_ rest, given⟩
    rw [vprintfBody_string percent char]
    exact .bind put (.pure _ _)
  | @count mem mem' n i a t percent char outside _ ih =>
    have value : BitVec.ofInt 32 (stream.tell s - start) = BitVec.ofNat 32 n := by
      rw [h.tell given, count, Int.add_comm, Int.add_sub_cancel, BitVec.ofInt_natCast]
    obtain ⟨s', rest, given⟩ := ih (h.store (BitVec.ofNat 32 n) given outside) count room
    refine ⟨s', .turn ?_ rest, given⟩
    have stores : conversion stream near start 0x6e (ap a) = some (update fun st =>
      stream.setMemory (storeInt (stream.memory st) (ap a) (BitVec.ofInt 32 (stream.tell st - start))) st) := rfl
    rw [← char] at stores
    rw [vprintfBody_put percent stores, ← value]
    exact .bind (.update _ s) (.pure _ _)
  | @other mem mem' n i a t percent noText noString noCount _ ih =>
    rw [List.length_cons] at room
    obtain ⟨s1, put, given⟩ := h.putc (fmt (i + 1)) given (by omega)
    have len : (u ++ [fmt (i + 1)]).length = u.length + 1 := List.length_append
    obtain ⟨s', rest, given⟩ := ih given (by omega) (by omega)
    rw [List.append_assoc] at given
    refine ⟨s', .turn ?_ rest, given⟩
    have converts := @converts _ _ stream near start (fmt (i + 1)) (ap a)
    generalize found : conversion stream near start (fmt (i + 1)) (ap a) = put at converts
    cases converts with
    | value shown _ => cases noText.symm.trans shown
    | string _ char => exact absurd char noString
    | count _ char => exact absurd char noCount
    | other _ _ _ =>
      rw [vprintfBody_other percent found]
      exact .bind put (.pure _ _)

end Follows

/-! ### Formats that are strings -/

/-- The bytes of a format that is a string, and what is beyond its NUL. -/
def formatAt (beyond : Nat → Byte) : Str → Nat → Byte
  | [], 0 => 0
  | [], i + 1 => beyond i
  | c :: _, 0 => c
  | _ :: s, i + 1 => formatAt beyond s i

/-- The string is in the format, from a byte of it on. -/
def Spells (fmt : Nat → Byte) : Nat → Str → Prop
  | i, [] => fmt i = 0
  | i, c :: s => fmt i = c ∧ Spells fmt (i + 1) s

/-- No `%` is without a character after it. -/
def complete : Str → Bool
  | [] => true
  | [c] => c != 0x25
  | c :: d :: s => if c = 0x25 then complete s else complete (d :: s)

section Formats
variable (near : BitVec 32 → Byte) (own : BitVec 32 → Prop) (ap : Nat → BitVec 32)

/-- The arguments are what the format asks for: the pointers are to strings, and to memory that can be stored to. -/
def Arguments : Memory → Nat → Nat → Str → Prop
  | _, _, _, [] => True
  | _, _, _, [_] => True
  | mem, n, a, c :: d :: s =>
    if c = 0x25 then
      match valueText near d (ap a) with
      | some text => Arguments mem (n + text.length) (a + 1) s
      | none =>
        if d = 0x73 then
          ∃ text, StringAt mem (ap a) text ∧ (∀ k ≤ text.length, ¬own (ap a + BitVec.ofNat 32 k)) ∧
            Arguments mem (n + text.length) (a + 1) s
        else if d = 0x6e then
          (∀ k < 4, ¬own (ap a + BitVec.ofNat 32 k)) ∧
            Arguments (storeInt mem (ap a) (BitVec.ofNat 32 n)) n (a + 1) s
        else Arguments mem (n + 1) a s
    else Arguments mem (n + 1) a (d :: s)

variable {near own ap} {fmt : Nat → Byte} {s : Str}

/-- A format that is in memory. -/
lemma spells_of_formatAt {beyond : Nat → Byte} {i : Nat} (h : ∀ k, fmt (i + k) = formatAt beyond s k) : Spells fmt i s := by
  induction s generalizing i with
  | nil => exact h 0
  | cons c s ih =>
    refine ⟨h 0, ih fun k => ?_⟩
    have next := h (k + 1)
    rwa [← Nat.add_assoc, Nat.add_right_comm] at next

/-- A format, with anything behind it. -/
lemma spells_formatAt (beyond : Nat → Byte) (s : Str) : Spells (formatAt beyond s) 0 s :=
  spells_of_formatAt fun k => congrArg _ (Nat.zero_add k)

/-- What is behind it. -/
lemma formatAt_beyond (beyond : Nat → Byte) (s : Str) (k : Nat) : formatAt beyond s (s.length + 1 + k) = beyond k := by
  induction s with
  | nil =>
    rw [List.length_nil, Nat.zero_add, Nat.add_comm]
    rfl
  | cons c s ih =>
    rw [List.length_cons, Nat.add_right_comm _ 1 k]
    exact ih

/-- A format with arguments for it stands for a text. -/
lemma Arguments.prints {mem : Memory} {n i a : Nat} (args : Arguments near own ap mem n a s) (h : complete s)
    (proper : 0 ∉ s) (spells : Spells fmt i s) : ∃ t mem', Prints near own fmt ap mem n i a t mem' := by
  induction s using complete.induct generalizing mem n i a with
  | case1 => exact ⟨[], mem, .done spells⟩
  | case2 c =>
    obtain ⟨char, nul⟩ := spells
    rw [complete, bne_iff_ne] at h
    have ne : c ≠ 0 := fun zero => proper (zero ▸ List.mem_cons_self)
    rw [← char] at h ne
    exact ⟨[fmt i], mem, .plain ne h (.done nul)⟩
  | case3 d s ih =>
    rw [complete, if_pos rfl] at h
    obtain ⟨percent, char, spells⟩ := spells
    have proper' : 0 ∉ s := fun mem => proper (List.mem_cons_of_mem _ (List.mem_cons_of_mem _ mem))
    rw [Arguments, if_pos rfl] at args
    split at args
    · next text shown =>
      obtain ⟨t, mem', rest⟩ := ih args h proper' spells
      rw [← char] at shown
      exact ⟨text ++ t, mem', .value percent shown rest⟩
    · next noText =>
      rw [← char] at noText
      split at args
      · next isString =>
        obtain ⟨text, string, outside, args⟩ := args
        obtain ⟨t, mem', rest⟩ := ih args h proper' spells
        exact ⟨text ++ t, mem', .string percent (char.trans isString) string outside rest⟩
      · next noString =>
        split at args
        · next isCount =>
          obtain ⟨t, mem', rest⟩ := ih args.2 h proper' spells
          exact ⟨t, mem', .count percent (char.trans isCount) args.1 rest⟩
        · next noCount =>
          obtain ⟨t, mem', rest⟩ := ih args h proper' spells
          rw [← char] at noString noCount
          exact ⟨fmt (i + 1) :: t, mem', .other percent noText noString noCount rest⟩
  | case4 c d s plain ih =>
    rw [complete, if_neg plain] at h
    rw [Arguments, if_neg plain] at args
    obtain ⟨char, spells⟩ := spells
    obtain ⟨t, mem', rest⟩ := ih args h (fun mem => proper (List.mem_cons_of_mem _ mem)) spells
    have ne : c ≠ 0 := fun zero => proper (zero ▸ List.mem_cons_self)
    rw [← char] at plain ne
    exact ⟨fmt i :: t, mem', .plain ne plain rest⟩

end Formats

/-! ### What is read of a format -/

section Reads
variable {ε σ : Type} {stream : Stream ε σ} {near : BitVec 32 → Byte} {start : Int} {fmt fmt' : Nat → Byte}
  {ap : Nat → BitVec 32} {i a : Nat}

/-- A turn of the loop reads two characters at most. -/
lemma vprintfBody_congr (same : fmt i = fmt' i) (next : fmt i = 0x25 → fmt (i + 1) = fmt' (i + 1)) :
    vprintfBody stream near start fmt ap (i, a) = vprintfBody stream near start fmt' ap (i, a) := by
  by_cases percent : fmt i = 0x25
  · cases found : conversion stream near start (fmt (i + 1)) (ap a) with
    | none =>
      rw [vprintfBody_other percent found]
      rw [next percent] at found ⊢
      rw [vprintfBody_other (same ▸ percent) found]
    | some put =>
      rw [vprintfBody_put percent found]
      rw [next percent] at found
      rw [vprintfBody_put (same ▸ percent) found]
  · by_cases nul : fmt i = 0
    · rw [vprintfBody_end nul, vprintfBody_end (same ▸ nul)]
    · rw [vprintfBody_plain nul percent, same]
      rw [same] at nul percent
      rw [vprintfBody_plain nul percent]

/-- Where a turn leads to. -/
lemma vprintfBody_next {n : Nat} {s s' : σ} {i' : Nat × Nat}
    (turn : vprintfBody stream near start fmt ap (i, a) n s = .ok (.inl i', s')) :
    fmt i ≠ 0 ∧ (fmt i = 0x25 ∧ i'.1 = i + 2 ∨ fmt i ≠ 0x25 ∧ i'.1 = i + 1) := by
  by_cases nul : fmt i = 0
  · rw [vprintfBody_end nul] at turn
    cases turn
  refine ⟨nul, ?_⟩
  by_cases percent : fmt i = 0x25
  · cases found : conversion stream near start (fmt (i + 1)) (ap a) with
    | none =>
      rw [vprintfBody_other percent found] at turn
      obtain ⟨_, s1, _, leave⟩ := bind_result turn
      cases leave
      exact .inl ⟨percent, rfl⟩
    | some put =>
      rw [vprintfBody_put percent found] at turn
      obtain ⟨_, s1, _, leave⟩ := bind_result turn
      cases leave
      exact .inl ⟨percent, rfl⟩
  · rw [vprintfBody_plain nul percent] at turn
    obtain ⟨_, s1, _, leave⟩ := bind_result turn
    cases leave
    exact .inr ⟨percent, rfl⟩

/-- Nothing beyond the NUL of the format is read. -/
def Contained (fmt : Str) : Prop :=
  ∀ {ε σ : Type} (stream : Stream ε σ) (near : BitVec 32 → Byte) (ap : Nat → BitVec 32) (beyond beyond' : Nat → Byte),
    streamVprintf stream near (formatAt beyond fmt) ap = streamVprintf stream near (formatAt beyond' fmt) ap

/-- A complete format is contained in its string. -/
lemma contained_of_complete {fmt : Str} (h : complete fmt) (proper : 0 ∉ fmt) : Contained fmt := by
  intro ε σ stream near ap beyond beyond'
  -- what is left of the format is the same for both
  have loops (start : Int) : loop (vprintfBody stream near start (formatAt beyond fmt) ap) (0, 0) =
      loop (vprintfBody stream near start (formatAt beyond' fmt) ap) (0, 0) := by
    refine loop_congr (I := fun i : Nat × Nat => ∃ s : Str, Spells (formatAt beyond fmt) i.1 s ∧
      Spells (formatAt beyond' fmt) i.1 s ∧ 0 ∉ s ∧ complete s) ?_ ?_
      ⟨fmt, spells_formatAt _ _, spells_formatAt _ _, proper, h⟩
    · rintro ⟨i, a⟩ ⟨s, here, there, proper, h⟩
      rcases s with _ | ⟨c, _ | ⟨d, s⟩⟩
      · exact vprintfBody_congr (here.trans there.symm) fun percent => absurd (here.symm.trans percent) (by decide)
      · rw [complete, bne_iff_ne] at h
        exact vprintfBody_congr (here.1.trans there.1.symm) fun percent => absurd (here.1.symm.trans percent) h
      · exact vprintfBody_congr (here.1.trans there.1.symm) fun _ => here.2.1.trans there.2.1.symm
    · rintro ⟨i, a⟩ n s ⟨i', a'⟩ s' ⟨rest, here, there, proper, h⟩ turn
      obtain ⟨nul, next⟩ := vprintfBody_next turn
      rcases rest with _ | ⟨c, _ | ⟨d, rest⟩⟩
      · exact absurd here nul
      · rw [complete, bne_iff_ne] at h
        rcases next with ⟨percent, -⟩ | ⟨-, rfl⟩
        · exact absurd (here.1.symm.trans percent) h
        · exact ⟨[], here.2, there.2, List.not_mem_nil, rfl⟩
      · rw [complete] at h
        have proper' : 0 ∉ d :: rest := fun mem => proper (List.mem_cons_of_mem _ mem)
        rcases next with ⟨percent, rfl⟩ | ⟨plain, rfl⟩
        · rw [if_pos (here.1.symm.trans percent)] at h
          exact ⟨rest, here.2.2, there.2.2, fun mem => proper' (List.mem_cons_of_mem _ mem), h⟩
        · rw [if_neg fun percent => plain (here.1.trans percent)] at h
          exact ⟨d :: rest, here.2, there.2, proper', h⟩
  rw [streamVprintf, streamVprintf]
  simp only [loops]

end Reads

/-! ### A format that ends in a `%` -/

section Incomplete
variable {near : BitVec 32 → Byte} {start : Int} {ap : Nat → BitVec 32}

/-- A conversion that is put to the collector, which has empty strings only. -/
lemma collector_turn (d : Byte) (a : Nat) : ∃ text a', ∀ (fmt : Nat → Byte) (i : Nat) (u : Str), fmt i = 0x25 →
    fmt (i + 1) = d → Returns (vprintfBody collector near start fmt ap (i, a)) u (.inl (i + 2, a')) (u ++ text) := by
  have converts := @converts _ _ collector near start d (ap a)
  generalize found : conversion collector near start d (ap a) = put at converts
  cases converts with
  | @value put text _ puts =>
    refine ⟨text, a + 1, fun fmt i u percent char => ?_⟩
    rw [← char] at found
    rw [vprintfBody_put percent found]
    exact .bind (puts.returns (takes_collector u text)) (.pure _ _)
  | string _ _ =>
    refine ⟨[], a + 1, fun fmt i u percent char => ?_⟩
    rw [← char] at found
    rw [vprintfBody_put percent found, List.append_nil]
    exact .bind (.exit (.bind (.asks _ _) (.ite_pos rfl (.pure _ _)))) (.pure _ _)
  | count _ _ =>
    refine ⟨[], a + 1, fun fmt i u percent char => ?_⟩
    rw [← char] at found
    rw [vprintfBody_put percent found, List.append_nil]
    exact .bind (.update _ u) (.pure _ _)
  | other _ _ _ =>
    refine ⟨[d], a, fun fmt i u percent char => ?_⟩
    rw [← char] at found
    rw [vprintfBody_other percent found, char]
    exact .bind (.update _ u) (.pure _ _)

/-- The loop comes to the last `%`. -/
lemma collector_reaches {s : Str} (h : complete s = false) (proper : 0 ∉ s) (a : Nat) : ∃ t a',
    ∀ (fmt : Nat → Byte) (i : Nat) (u : Str), Spells fmt i s → ∃ j, j + 1 = i + s.length ∧ fmt j = 0x25 ∧ fmt (j + 1) = 0 ∧
      Reaches (vprintfBody collector near start fmt ap) (i, a) u (j, a') (u ++ t) := by
  induction s using complete.induct generalizing a with
  | case1 => cases h
  | case2 c =>
    refine ⟨[], a, fun fmt i u spells => ⟨i, rfl, ?_, spells.2, ?_⟩⟩
    · rw [complete, bne_eq_false_iff_eq] at h
      exact spells.1.trans h
    · rw [List.append_nil]
      exact .refl _ _
  | case3 d s ih =>
    rw [complete, if_pos rfl] at h
    obtain ⟨text, a1, turn⟩ := @collector_turn near start ap d a
    obtain ⟨t, a', rest⟩ := ih h (fun mem => proper (List.mem_cons_of_mem _ (List.mem_cons_of_mem _ mem))) a1
    refine ⟨text ++ t, a', fun fmt i u spells => ?_⟩
    obtain ⟨j, last, percent, nul, reaches⟩ := rest fmt (i + 2) (u ++ text) spells.2.2
    rw [List.append_assoc] at reaches
    refine ⟨j, ?_, percent, nul, .turn (turn fmt i u spells.1 spells.2.1) reaches⟩
    rw [List.length_cons, List.length_cons]
    omega
  | case4 c d s plain ih =>
    rw [complete, if_neg plain] at h
    obtain ⟨t, a', rest⟩ := ih h (fun mem => proper (List.mem_cons_of_mem _ mem)) a
    refine ⟨c :: t, a', fun fmt i u spells => ?_⟩
    obtain ⟨j, last, percent, nul, reaches⟩ := rest fmt (i + 1) (u ++ [c]) spells.2
    rw [List.append_assoc] at reaches
    have ne : c ≠ 0 := fun zero => proper (zero ▸ List.mem_cons_self)
    rw [← spells.1] at ne plain
    refine ⟨j, ?_, percent, nul, .turn ?_ reaches⟩
    · rw [List.length_cons (a := c)]
      omega
    · rw [vprintfBody_plain ne plain, spells.1]
      exact .bind (.update _ u) (.pure _ _)

/-- What the format ends in is read on. -/
lemma not_contained {fmt : Str} (h : complete fmt = false) (proper : 0 ∉ fmt) : ¬Contained fmt := by
  intro contained
  obtain ⟨t, a, reaches⟩ := @collector_reaches (fun _ => 0) 0 (fun _ => 0) fmt h proper 0
  -- the NUL is put, and the byte beyond it is next
  have runs (beyond : Nat → Byte) : Reaches (vprintfBody collector (fun _ => 0) 0 (formatAt beyond fmt) fun _ => 0) (0, 0) []
      (fmt.length + 1, a) (t ++ [0]) ∧ ∀ k, formatAt beyond fmt (fmt.length + 1 + k) = beyond k := by
    refine ⟨?_, formatAt_beyond beyond fmt⟩
    obtain ⟨j, last, percent, nul, reaches⟩ := reaches _ 0 [] (spells_formatAt beyond fmt)
    rw [Nat.zero_add] at last
    have none : conversion collector (fun _ => 0) 0 (formatAt beyond fmt (j + 1)) 0 = none := by
      rw [nul]
      rfl
    refine reaches.step ?_
    rw [@vprintfBody_other _ _ collector (fun _ => 0) 0 (formatAt beyond fmt) (fun _ => 0) j a percent none, nul, ← last]
    exact .bind (.update _ _) (.pure _ _)
  have short : Returns (streamVprintf collector (fun _ => 0) (formatAt (fun _ => 0) fmt) fun _ => 0) []
      (((t ++ [0]).length : Int) - 0) (t ++ [0]) := by
    obtain ⟨reaches, beyond⟩ := runs fun _ => 0
    have run := reaches.returns (vprintfBody_leaves (beyond 0) _)
    exact .bind (.asks _ _) (.bind run (.bind (.asks _ _) (.pure _ _)))
  have long : Returns (streamVprintf collector (fun _ => 0) (formatAt (fun k => if k = 0 then 0x61 else 0) fmt)
      fun _ => 0) [] (((t ++ [0] ++ [0x61]).length : Int) - 0) (t ++ [0] ++ [0x61]) := by
    obtain ⟨reaches, beyond⟩ := runs fun k => if k = 0 then 0x61 else 0
    have first := beyond 0
    have next := beyond 1
    rw [Nat.add_zero, if_pos rfl] at first
    rw [if_neg (by decide)] at next
    have put : Returns (vprintfBody collector (fun _ => 0) 0 (formatAt (fun k => if k = 0 then 0x61 else 0) fmt)
        (fun _ => 0) (fmt.length + 1, a)) (t ++ [0]) (.inl (fmt.length + 1 + 1, a)) (t ++ [0] ++ [0x61]) := by
      rw [vprintfBody_plain (by rw [first]; decide) (by rw [first]; decide), first]
      exact .bind (.update _ _) (.pure _ _)
    have run := (reaches.step put).returns (vprintfBody_leaves next _)
    exact .bind (.asks _ _) (.bind run (.bind (.asks _ _) (.pure _ _)))
  rw [contained collector _ _ _ fun k => if k = 0 then 0x61 else 0] at short
  have same := congrArg List.length (short.unique long).2
  rw [@List.length_append _ _ [0x61]] at same
  exact absurd same (Nat.ne_of_lt (Nat.lt_succ_self _))

end Incomplete

/-! ### Streams that count -/

section Counts
variable {ε σ : Type} {stream : Stream ε σ} {near : BitVec 32 → Byte} {own : BitVec 32 → Prop} {room : Nat → σ → Prop}
  {ap : Nat → BitVec 32}

/-- A stream that counts the characters it is passed, and takes them as long as there is room. -/
structure Counts (stream : Stream ε σ) (own : BitVec 32 → Prop) (room : Nat → σ → Prop) : Prop where
  putc {n : Nat} {s : σ} (c : Byte) : room (n + 1) s → ∃ s', Returns (stream.putc c) s () s' ∧ room n s' ∧
    stream.tell s' = stream.tell s + 1 ∧ ∀ a, ¬own a → stream.memory s' a = stream.memory s a
  room {n : Nat} {s : σ} (mem : Memory) : room n s → room n (stream.setMemory mem s)
  tell (mem : Memory) (s : σ) : stream.tell (stream.setMemory mem s) = stream.tell s
  memory (mem : Memory) (s : σ) (a : BitVec 32) : ¬own a → stream.memory (stream.setMemory mem s) a = mem a

/-- The stream, with the characters it is passed. -/
def recording (stream : Stream ε σ) : Stream ε (σ × Str) where
  putc c := do
    lift (stream.putc c)
    emit c
  tell s := stream.tell s.1
  memory s := stream.memory s.1
  setMemory mem s := (stream.setMemory mem s.1, s.2)

/-- Arguments for the format are printed to every stream that counts: it is passed the text of the format, whose length
    is returned. -/
def Counted (fmt : Str) : Prop :=
  ∀ {ε σ : Type} {stream : Stream ε σ} {own : BitVec 32 → Prop} {room : Nat → σ → Prop}, Counts stream own room →
    ∀ (near : BitVec 32 → Byte) (ap : Nat → BitVec 32) (beyond : Nat → Byte) (s : σ),
    Arguments near own ap (stream.memory s) 0 0 fmt →
    ∃ text mem', Prints near own (formatAt beyond fmt) ap (stream.memory s) 0 0 0 text mem' ∧
      (room text.length s →
        ∃ s', Returns (streamVprintf (recording stream) near (formatAt beyond fmt) ap) (s, []) text.length (s', text))

/-- Storing a word, seen from one address. -/
lemma storeInt_congr {mem mem' : Memory} {a : BitVec 32} (p v : BitVec 32) (h : mem a = mem' a) :
    storeInt mem p v a = storeInt mem' p v a := by
  rw [storeInt, storeInt, h]

/-- A stream that counts follows the recording of what it is given. -/
lemma Counts.follows (h : Counts stream own room) (limit : Nat) (start : Int) :
    Follows (recording stream) own start limit fun mem u s => s.2 = u ∧ room (limit - u.length) s.1 ∧
      stream.tell s.1 = start + u.length ∧ ∀ a, ¬own a → stream.memory s.1 a = mem a where
  tell given := given.2.2.1
  memory given := given.2.2.2
  putc := by
    rintro mem u ⟨s, made⟩ c ⟨rfl, left, count, same⟩ lt
    have lt : made.length < limit := lt
    have one : limit - made.length = limit - (made ++ [c]).length + 1 := by
      rw [List.length_append, List.length_singleton]
      omega
    rw [one] at left
    obtain ⟨s', put, left, more, frame⟩ := h.putc c left
    have count' : stream.tell s' = start + (made ++ [c]).length := by
      rw [more, count, List.length_append, Int.add_assoc]
      rfl
    exact ⟨(s', made ++ [c]), Emits.bind (.lift put) (.emit c s') made, rfl, left, count',
      fun a outside => (frame a outside).trans (same a outside)⟩
  store := by
    rintro mem u ⟨s, made⟩ p v ⟨rfl, left, count, same⟩ _
    refine ⟨rfl, h.room _ left, (h.tell _ s).trans count, fun a outside => ?_⟩
    exact (h.memory _ s a outside).trans (storeInt_congr p v (same a outside))

/-- A complete format has counted conversions. -/
lemma counted_of_complete {fmt : Str} (h : complete fmt) (proper : 0 ∉ fmt) : Counted fmt := by
  intro ε σ stream own room counts near ap beyond s args
  obtain ⟨text, mem', prints⟩ := args.prints h proper (spells_formatAt beyond fmt)
  refine ⟨text, mem', prints, fun left => ?_⟩
  have follows := counts.follows text.length (stream.tell s)
  obtain ⟨⟨s', made⟩, run, same, -, count, -⟩ := @Follows.prints _ _ (recording stream) near own (stream.tell s) text.length _
    (formatAt beyond fmt) ap _ mem' [] text (s, []) follows 0 0 0 prints
    ⟨rfl, left, (Int.add_zero _).symm, fun _ _ => rfl⟩ rfl (by rw [List.length_nil, Nat.zero_add])
  rw [List.nil_append] at same count
  obtain rfl : made = text := same
  have result : stream.tell s' - stream.tell s = made.length := by
    rw [count, Int.add_comm, Int.add_sub_cancel]
  rw [← result]
  exact ⟨s', .bind (.asks _ _) (.bind run (.bind (.asks _ _) (.pure _ _)))⟩

/-! The streams of the code are such streams. -/

/-- `stream_null_t`, beside memory. -/
structure StreamNull where
  memory : Memory
  chars : Int

/-- `null_putc`. -/
def nullPutc (_ : Byte) : Prog Fault StreamNull Unit := do
  let chars ← asks StreamNull.chars
  check (chars + 1 < 2 ^ 31) .overflow
  update fun s => { s with chars := s.chars + 1 }

/-- `null_ops`. -/
def nullStream : Stream Fault StreamNull where
  putc := nullPutc
  tell := StreamNull.chars
  memory := StreamNull.memory
  setMemory mem s := { s with memory := mem }

/-- The stream that writes nothing counts. -/
lemma counts_nullStream : Counts nullStream (fun _ => False) fun n s => s.chars + n < 2 ^ 31 where
  putc := by
    intro n s c left
    have lt : s.chars + 1 < 2 ^ 31 := by omega
    refine ⟨_, .bind (.asks _ _) (.bind (.check lt) (.update _ _)), ?_, rfl, fun a _ => rfl⟩
    dsimp only
    omega
  room _ left := left
  tell _ _ := rfl
  memory _ _ _ _ := rfl

/-- The stream into a buffer counts. -/
lemma counts_stringStream (buf : BitVec 32) (size : Int) : Counts stringStream (fun a => ((a - buf).toNat : Int) < size)
    fun n s => s.buf = buf ∧ s.size = size ∧ 0 ≤ s.chars ∧ s.chars + n < 2 ^ 31 where
  putc := by
    rintro n ⟨mem, _, _, chars⟩ c ⟨rfl, rfl, nonneg, left⟩
    dsimp only at nonneg left
    rename_i buf size
    have put : ∃ mem', StreamString.put c ⟨mem, buf, size, chars⟩ = ⟨mem', buf, size, chars⟩ ∧
        ∀ a, ¬((a - buf).toNat : Int) < size → mem' a = mem a := by
      rw [StreamString.put]
      by_cases fits : chars < size
      · rw [if_pos fits]
        refine ⟨_, rfl, fun a outside => ?_⟩
        rw [Function.update_of_ne]
        rintro rfl
        rw [BitVec.add_comm, BitVec.add_sub_cancel, BitVec.toNat_ofInt] at outside
        dsimp only at outside
        omega
      · rw [if_neg fits]
        exact ⟨mem, rfl, fun a _ => rfl⟩
    obtain ⟨mem', same, frame⟩ := put
    refine ⟨⟨mem', buf, size, chars + 1⟩, .bind (.update _ _) ?_, ⟨rfl, rfl, ?_, ?_⟩, rfl, frame⟩
    · rw [same]
      exact .bind (.asks _ _) (.bind (.check (by dsimp only; omega)) (.update _ _))
    · dsimp only
      omega
    · dsimp only
      omega
  room _ left := left
  tell _ _ := rfl
  memory _ _ _ _ := rfl

end Counts

/-- The formats that are read within their bounds, and printed in full. -/
theorem vprintf_iff {fmt : Str} (proper : 0 ∉ fmt) : Contained fmt ∧ Counted fmt ↔ complete fmt := by
  constructor
  · rintro ⟨contained, -⟩
    by_contra h
    exact not_contained (eq_false_of_ne_true h) proper contained
  · intro h
    exact ⟨contained_of_complete h proper, counted_of_complete h proper⟩

/-- A format with one number. -/
theorem vprintf_unsigned : Contained [0x25, 0x78, 0x0a] ∧ Counted [0x25, 0x78, 0x0a] :=
  (vprintf_iff (by decide)).mpr rfl

/-- For `%` alone, what is beyond the NUL is printed. -/
theorem percent_reads_on : (∀ beyond : Nat → Byte, beyond 0 ≠ 0 → beyond 0 ≠ 0x25 → beyond 1 = 0 →
    Returns (streamVprintf collector (fun _ => 0) (formatAt beyond [0x25]) fun _ => 0) [] 2 [0, beyond 0]) ∧
    ¬(Contained [0x25] ∧ Counted [0x25]) := by
  constructor
  · intro beyond nul plain last
    have first : Returns (vprintfBody collector (fun _ => 0) 0 (formatAt beyond [0x25]) (fun _ => 0) (0, 0)) []
        (.inl (2, 0)) [0] := by
      rw [@vprintfBody_other _ _ collector (fun _ => 0) 0 (formatAt beyond [0x25]) (fun _ => 0) 0 0 rfl rfl]
      exact .bind (.update _ _) (.pure _ _)
    have next : Returns (vprintfBody collector (fun _ => 0) 0 (formatAt beyond [0x25]) (fun _ => 0) (2, 0)) [0]
        (.inl (3, 0)) [0, beyond 0] := by
      rw [@vprintfBody_plain _ _ collector (fun _ => 0) 0 (formatAt beyond [0x25]) (fun _ => 0) 2 0 nul plain]
      exact .bind (.update _ _) (.pure _ _)
    have leave := @vprintfBody_leaves _ _ collector (fun _ => 0) 0 (formatAt beyond [0x25]) (fun _ => 0) 3 0 last
    exact .bind (.asks _ _) (.bind (.turn first (.turn next (leave _))) (.bind (.asks _ _) (.pure _ _)))
  · rintro ⟨contained, -⟩
    exact not_contained rfl (by decide) contained

end Twcos.Text
