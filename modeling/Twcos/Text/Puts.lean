import Twcos.Numeral.Basic
import Twcos.Text.Stream

/-!
# Printing numbers

What the functions of `libk/stream.c` for numbers put to a stream. `Puts stream p text` says that the code `p` does to
the stream what the characters of the text do one after the other, whether it takes them or faults at one.
`putuint_canonical` is about unsigned numbers, whose numerals are right for every base from 2 to 16. A negative number is
less than the base, so that `stream_putint` takes it for a digit (`putint_iff`).
-/

namespace Twcos.Text
open Twcos.Prog Twcos.Numeral

/-- The stream takes the text. -/
inductive Takes {ε σ : Type} (stream : Stream ε σ) : σ → Str → σ → Prop where
  | nil (s : σ) : Takes stream s [] s
  | cons {s s1 s2 : σ} {c : Byte} {t : Str} : Returns (stream.putc c) s () s1 → Takes stream s1 t s2 →
      Takes stream s (c :: t) s2

/-- The stream faults at a character of the text. -/
inductive Fails {ε σ : Type} (stream : Stream ε σ) : σ → Str → ε → Prop where
  | first {s : σ} {c : Byte} {t : Str} {e : ε} : Raises (stream.putc c) s e → Fails stream s (c :: t) e
  | next {s s1 : σ} {c : Byte} {t : Str} {e : ε} : Returns (stream.putc c) s () s1 → Fails stream s1 t e →
      Fails stream s (c :: t) e

/-- The code puts the text. -/
structure Puts {ε σ : Type} (stream : Stream ε σ) (p : Prog ε σ Unit) (text : Str) : Prop where
  returns : ∀ {s s'}, Takes stream s text s' → Returns p s () s'
  raises : ∀ {s e}, Fails stream s text e → Raises p s e

section Puts
variable {ε σ : Type} {stream : Stream ε σ} {s s1 s2 : σ} {t u : Str} {c : Byte} {e : ε} {p q : Prog ε σ Unit}

/-- Taking a text in two parts. -/
lemma takes_append : Takes stream s (t ++ u) s2 ↔ ∃ s1, Takes stream s t s1 ∧ Takes stream s1 u s2 := by
  constructor
  · intro h
    induction t generalizing s with
    | nil => exact ⟨s, .nil s, h⟩
    | cons c t ih =>
      cases h with
      | cons first rest =>
        obtain ⟨s1, h1, h2⟩ := ih rest
        exact ⟨s1, .cons first h1, h2⟩
  · rintro ⟨s1, h1, h2⟩
    induction h1 with
    | nil s => exact h2
    | cons first _ ih => exact .cons first (ih h2)

/-- Failing in the first part, or in the second. -/
lemma fails_append (h : Fails stream s (t ++ u) e) : Fails stream s t e ∨ ∃ s1, Takes stream s t s1 ∧ Fails stream s1 u e := by
  induction t generalizing s with
  | nil => exact .inr ⟨s, .nil s, h⟩
  | cons c t ih =>
    cases h with
    | first fault => exact .inl (.first fault)
    | next first rest =>
      rcases ih rest with h | ⟨s1, h1, h2⟩
      · exact .inl (.next first h)
      · exact .inr ⟨s1, .cons first h1, h2⟩

/-- Putting a character. -/
lemma Puts.putc (c : Byte) : Puts stream (stream.putc c) [c] where
  returns h := by
    cases h with
    | cons first rest =>
      cases rest
      exact first
  raises h := by
    cases h with
    | first fault => exact fault
    | next _ rest => cases rest

/-- Putting one text after the other. -/
lemma Puts.bind (hp : Puts stream p t) (hq : Puts stream q u) : Puts stream (p >>= fun _ => q) (t ++ u) where
  returns h := by
    obtain ⟨s1, h1, h2⟩ := takes_append.mp h
    exact .bind (hp.returns h1) (hq.returns h2)
  raises h := by
    rcases fails_append h with h | ⟨s1, h1, h2⟩
    · exact .first (hp.raises h)
    · exact .rest (hp.returns h1) (hq.raises h2)

/-- A recursive call. -/
lemma Puts.call {α : Type} {body : (α → Prog ε σ Unit) → α → Prog ε σ Unit} {a : α} (hlocal : Local fun f => body f a)
    (h : Puts stream (body (recur body) a) t) : Puts stream (recur body a) t where
  returns takes := .call hlocal (h.returns takes)
  raises fails := .call hlocal (h.raises fails)

end Puts

/-! ### Representations of numbers -/

/-- The character of a digit. -/
def digitChar (d : Nat) : Byte :=
  [0x30, 0x31, 0x32, 0x33, 0x34, 0x35, 0x36, 0x37, 0x38, 0x39, 0x61, 0x62, 0x63, 0x64, 0x65, 0x66].getD d 0

/-- The digit that a character is. -/
def digitOf (b : Nat) (c : Byte) : Option Nat := (List.range b).find? fun d => digitChar d = c

/-- The number that a text stands for. -/
def parse (b : Nat) (text : Str) : Option Nat := if text = [] then none else (text.mapM (digitOf b)).map (value b)

/-- The text is the number, without leading zeros. -/
structure IsNumber (b : Nat) (text : Str) (n : Nat) : Prop where
  parse : parse b text = some n
  lead : text.head? = some (digitChar 0) → text = [digitChar 0]

/-- The decimal representation of a signed number. -/
def IsDecimal (text : Str) (i : Int) : Prop :=
  if i < 0 then ∃ digits, text = 0x2d :: digits ∧ IsNumber 10 digits i.natAbs else IsNumber 10 text i.natAbs

/-- The representation of a number. -/
def numberText (b n : Nat) : Str := (numeral b n).map digitChar

/-- Different digits have different characters. -/
lemma digitChar_injective {d d' : Nat} (h : d < 16) (h' : d' < 16) (same : digitChar d = digitChar d') : d = d' := by
  have all : ∀ d < 16, ∀ d' < 16, digitChar d = digitChar d' → d = d' := by decide
  exact all d h d' h' same

/-- The digit of a character. -/
lemma digitOf_digitChar {b d : Nat} (hb : b ≤ 16) (h : d < b) : digitOf b (digitChar d) = some d := by
  cases found : digitOf b (digitChar d) with
  | none =>
    have no := List.find?_eq_none.mp found d (List.mem_range.mpr h)
    exact absurd (decide_eq_true rfl) no
  | some d' =>
    rw [digitOf] at found
    have same := List.find?_some found
    rw [decide_eq_true_iff] at same
    have lt := List.mem_range.mp (List.mem_of_find?_eq_some found)
    rw [digitChar_injective (by omega) (by omega) same]

/-- The text of a number is a numeral of it. -/
lemma isNumber_numberText {b : Nat} (lo : 1 < b) (hi : b ≤ 16) (n : Nat) : IsNumber b (numberText b n) n := by
  obtain ⟨digits, nonempty, lead⟩ := canonical_numeral lo n
  have read : ∀ ds : List Nat, (∀ d ∈ ds, d < b) → (ds.map digitChar).mapM (digitOf b) = some ds := by
    intro ds
    induction ds with
    | nil => exact fun _ => rfl
    | cons d ds ih =>
      intro lt
      obtain ⟨first, rest⟩ := List.forall_mem_cons.mp lt
      rw [List.map_cons, List.mapM_cons, digitOf_digitChar hi first, ih rest]
      rfl
  constructor
  · rw [parse, numberText, if_neg (fun nil => nonempty (List.map_eq_nil_iff.mp nil)), read _ digits, Option.map_some,
      value_numeral]
  · intro zero
    rw [numberText, List.head?_map] at zero
    obtain ⟨d, first, same⟩ := Option.map_eq_some_iff.mp zero
    have lt := digits d (List.mem_of_head? first)
    rw [digitChar_injective (by omega) (by omega) same] at first
    rw [numberText, lead first]
    rfl

/-! ### Unsigned numbers -/

section Numbers
variable {ε σ : Type} {stream : Stream ε σ} {near : BitVec 32 → Byte} {base : BitVec 32}

/-- A digit that is in the table. -/
lemma digits_eq {i : BitVec 32} (h : i.toNat < 16) : digits near i = digitChar i.toNat := by
  have table : digits near i = (([0x30, 0x31, 0x32, 0x33, 0x34, 0x35, 0x36, 0x37, 0x38, 0x39, 0x61, 0x62, 0x63, 0x64,
      0x65, 0x66] : Str) ++ [0]).getD i.toNat (near i) := rfl
  rw [table, List.getD_append _ _ _ _ h, digitChar, List.getD_eq_getElem _ _ h, List.getD_eq_getElem _ _ h]

/-- A recursion that divides by the base and puts the remainder after that. -/
lemma puts_recur {α : Type} {body : (α → Prog ε σ Unit) → α → Prog ε σ Unit} {b : Nat} (lo : 1 < b) {I : α → Prop}
    {num : α → Nat} (small : ∀ i, I i → num i < b → ∀ f, body f i = stream.putc (digitChar (num i)))
    (large : ∀ i, I i → b ≤ num i → ∃ i', I i' ∧ num i' = num i / b ∧
      ∀ f, body f i = (f i' >>= fun _ => stream.putc (digitChar (num i % b)))) (i : α) (hi : I i) :
    Puts stream (recur body i) (numberText b (num i)) := by
  induction h : num i using Nat.strong_induction_on generalizing i with
  | _ n ih =>
    subst h
    rw [numberText]
    rcases Nat.lt_or_ge (num i) b with lt | ge
    · have put := small i hi lt
      apply Puts.call
      · simp only [put]
        exact .const _
      · rw [put, numeral_of_lt lt]
        exact .putc _
    · obtain ⟨i', hi', quotient, put⟩ := large i hi ge
      have smaller : num i' < num i := by
        rw [quotient]
        exact Nat.div_lt_self (by omega) lo
      apply Puts.call
      · simp only [put]
        exact .bind (.self i') fun _ => .const _
      · rw [put, numeral_of_le lo ge, List.map_append, List.map_singleton, ← quotient]
        exact .bind (ih _ smaller i' hi' rfl) (.putc _)

/-- A number of 32 bits. -/
lemma puts_putuint (lo : 2 ≤ base.toNat) (hi : base.toNat ≤ 16) (i : BitVec 32) :
    Puts stream (streamPutuint stream near base i) (numberText base.toNat i.toNat) := by
  refine puts_recur (I := fun _ => True) lo (fun i _ lt f => ?_) (fun i _ ge => ⟨i / base, trivial, ?_, fun f => ?_⟩) i
    trivial
  · rw [if_pos (BitVec.lt_def.mpr lt), digits_eq (by omega)]
  · exact BitVec.toNat_udiv
  · have digit : (i % base).toNat < 16 := by
      rw [BitVec.toNat_umod]
      exact Nat.lt_of_lt_of_le (Nat.mod_lt _ (by omega)) hi
    rw [if_neg fun lt => Nat.not_lt.mpr ge (BitVec.lt_def.mp lt), digits_eq digit, BitVec.toNat_umod]

/-- The base as an unsigned number of 64 bits. -/
lemma toNat_base (hi : base.toNat ≤ 16) : (base.signExtend 64).toNat = base.toNat := by
  have msb : base.msb = false := BitVec.msb_eq_false_iff_two_mul_lt.mpr (by omega)
  rw [BitVec.toNat_signExtend, msb, BitVec.toNat_setWidth]
  exact Nat.mod_eq_of_lt (by omega)

/-- A number of 64 bits. -/
lemma puts_putulong (lo : 2 ≤ base.toNat) (hi : base.toNat ≤ 16) (i : BitVec 64) :
    Puts stream (streamPutulong stream near base i) (numberText base.toNat i.toNat) := by
  have wide := toNat_base hi
  have narrow {d : BitVec 64} (h : d.toNat < 16) : digits near (d.setWidth 32) = digitChar d.toNat := by
    have same : (d.setWidth 32).toNat = d.toNat := by
      rw [BitVec.toNat_setWidth]
      exact Nat.mod_eq_of_lt (by omega)
    rw [digits_eq (by omega), same]
  refine puts_recur (I := fun _ => True) lo (fun i _ lt f => ?_)
    (fun i _ ge => ⟨i / base.signExtend 64, trivial, ?_, fun f => ?_⟩) i trivial
  · rw [if_pos (BitVec.lt_def.mpr (by omega)), narrow (by omega)]
  · rw [BitVec.toNat_udiv, wide]
  · have digit : (i % base.signExtend 64).toNat < 16 := by
      rw [BitVec.toNat_umod, wide]
      exact Nat.lt_of_lt_of_le (Nat.mod_lt _ (by omega)) hi
    have large : ¬i < base.signExtend 64 := by
      rw [BitVec.lt_def]
      omega
    rw [if_neg large, narrow digit, BitVec.toNat_umod, wide]

/-! ### Signed numbers -/

/-- A condition that is false. -/
lemma when_false (p q : Prog ε σ Unit) : (when false p >>= fun _ => q) = q := rfl

/-- A number that is not negative. -/
lemma puts_putint (i : BitVec 32) (nonneg : 0 ≤ i.toInt) :
    Puts stream (streamPutint stream near 10 i) (numberText 10 i.toNat) := by
  have value {i : BitVec 32} (h : 0 ≤ i.toInt) : i.toInt = i.toNat ∧ i.msb = false := by
    have msb : i.msb = false := by
      rw [BitVec.msb_eq_toInt]
      exact decide_eq_false (Int.not_lt.mpr h)
    exact ⟨BitVec.toInt_eq_toNat_of_msb msb, msb⟩
  have ten : (10 : BitVec 32).toInt = 10 := rfl
  refine puts_recur (I := fun i : BitVec 32 => 0 ≤ i.toInt) (by decide) (fun i h lt f => ?_)
    (fun i h ge => ⟨i.sdiv 10, ?_, ?_, fun f => ?_⟩) i nonneg
  · have less : i.slt 10 = true := by
      rw [BitVec.slt_eq_decide, ten, (value h).1]
      exact decide_eq_true (by omega)
    have sign : i.slt 0 = false := by
      rw [BitVec.slt_eq_decide]
      exact decide_eq_false (Int.not_lt.mpr h)
    rw [if_pos less, sign, when_false, digits_eq (by omega)]
  · rw [BitVec.sdiv_eq, (value h).2]
    show 0 ≤ (i / 10).toInt
    rw [BitVec.toInt_eq_toNat_of_lt]
    · exact Int.natCast_nonneg _
    · rw [BitVec.toNat_udiv]
      have lt := i.isLt
      have base : (10 : BitVec 32).toNat = 10 := rfl
      rw [base]
      omega
  · rw [BitVec.sdiv_eq, (value h).2]
    exact BitVec.toNat_udiv
  · have large : ¬i.slt 10 = true := by
      rw [BitVec.slt_eq_decide, ten, (value h).1, decide_eq_true_iff]
      omega
    have rest : (i.srem 10).toNat = i.toNat % 10 := by
      rw [BitVec.srem_eq, (value h).2]
      exact BitVec.toNat_umod
    rw [if_neg large, digits_eq (by omega), rest]

/-- A negative number is put as a minus sign and the byte that it leads to from the table. -/
lemma puts_putint_negative (i : BitVec 32) (negative : i.toInt < 0) :
    Puts stream (streamPutint stream near 10 i) [0x2d, digits near i] := by
  have less : i.slt 10 = true := by
    rw [BitVec.slt_eq_decide]
    exact decide_eq_true (Int.lt_trans negative (by decide))
  have sign : i.slt 0 = true := by
    rw [BitVec.slt_eq_decide]
    exact decide_eq_true negative
  apply Puts.call
  · simp only [if_pos less]
    exact .const _
  · rw [if_pos less, sign]
    exact .bind (.putc _) (.putc _)

end Numbers

/-! ### What is printed -/

/-- A stream that keeps the text, and knows of no memory. -/
def collector : Stream Empty Str where
  putc c := update (· ++ [c])
  tell text := text.length
  memory _ _ := 0
  setMemory _ text := text

/-- A collector takes every text. -/
lemma takes_collector (s t : Str) : Takes collector s t (s ++ t) := by
  induction t generalizing s with
  | nil =>
    rw [List.append_nil]
    exact .nil s
  | cons c t ih =>
    have rest := ih (s ++ [c])
    rw [List.append_assoc] at rest
    exact .cons (.update _ s) rest

/-- What a program puts is collected. -/
lemma Puts.collects {p : Prog Empty Str Unit} {t : Str} (h : Puts collector p t) : Returns p [] () t :=
  h.returns (takes_collector [] t)

/-- `stream_putint` puts the decimal representation of a number, whatever is near the table of the digits. -/
def PutsDecimal (i : BitVec 32) : Prop :=
  ∃ text, IsDecimal text i.toInt ∧
    ∀ {ε σ : Type} (stream : Stream ε σ) (near : BitVec 32 → Byte), Puts stream (streamPutint stream near 10 i) text

/-- What is printed for a negative number is no numeral: what is near the table may be a NUL. -/
lemma not_putsDecimal {i : BitVec 32} (negative : i.toInt < 0) : ¬PutsDecimal i := by
  rintro ⟨text, decimal, puts⟩
  have large : ¬i.toNat < 17 := by
    intro lt
    have pos := BitVec.toInt_eq_toNat_of_lt (x := i) (by omega)
    omega
  have outside : digits (fun _ => 0) i = 0 := List.getD_eq_default _ _ (Nat.not_lt.mp large)
  have printed := (puts collector fun _ => 0).collects
  have actual := (@puts_putint_negative _ _ collector (fun _ => 0) i negative).collects
  rw [outside] at actual
  obtain rfl := (printed.unique actual).2
  rw [IsDecimal, if_pos negative] at decimal
  obtain ⟨digits, same, number⟩ := decimal
  cases same
  cases number.parse

/-- The numbers that are printed in decimal are those that are not negative. -/
theorem putint_iff (i : BitVec 32) : PutsDecimal i ↔ 0 ≤ i.toInt := by
  constructor
  · intro puts
    by_contra negative
    exact not_putsDecimal (Int.not_le.mp negative) puts
  · intro nonneg
    have value : i.toInt = i.toNat := by
      have msb : i.msb = false := by
        rw [BitVec.msb_eq_toInt]
        exact decide_eq_false (Int.not_lt.mpr nonneg)
      exact BitVec.toInt_eq_toNat_of_msb msb
    refine ⟨numberText 10 i.toNat, ?_, fun stream near => puts_putint i nonneg⟩
    rw [IsDecimal, if_neg (Int.not_lt.mpr nonneg), value]
    exact isNumber_numberText (by decide) (by decide) i.toNat

/-- Minus one is printed as a minus sign and the byte before the table. -/
theorem putint_minus_one :
    (∀ near : BitVec 32 → Byte, Returns (streamPutint collector near 10 0xffffffff) [] () [0x2d, near 0xffffffff]) ∧
      ¬PutsDecimal 0xffffffff :=
  ⟨fun _ => (puts_putint_negative _ (by decide)).collects, not_putsDecimal (by decide)⟩

/-- Unsigned numbers of both sizes are printed in every base, and in the same way. -/
theorem putuint_canonical {base : BitVec 32} (lo : 2 ≤ base.toInt) (hi : base.toInt ≤ 16) :
    (∀ i : BitVec 32, ∃ text, IsNumber base.toNat text i.toNat ∧
      ∀ {ε σ : Type} (stream : Stream ε σ) (near : BitVec 32 → Byte),
        Puts stream (streamPutuint stream near base i) text ∧
        Puts stream (streamPutulong stream near base (i.zeroExtend 64)) text) ∧
    ∀ i : BitVec 64, ∃ text, IsNumber base.toNat text i.toNat ∧
      ∀ {ε σ : Type} (stream : Stream ε σ) (near : BitVec 32 → Byte),
        Puts stream (streamPutulong stream near base i) text := by
  have value : base.toInt = base.toNat := by
    have msb : base.msb = false := by
      rw [BitVec.msb_eq_toInt]
      exact decide_eq_false (by omega)
    exact BitVec.toInt_eq_toNat_of_msb msb
  have lo' : 2 ≤ base.toNat := by omega
  have hi' : base.toNat ≤ 16 := by omega
  constructor
  · intro i
    have same : (i.zeroExtend 64).toNat = i.toNat := by
      rw [BitVec.toNat_setWidth]
      exact Nat.mod_eq_of_lt (by omega)
    refine ⟨numberText base.toNat i.toNat, isNumber_numberText lo' hi' _, fun stream near => ⟨?_, ?_⟩⟩
    · exact puts_putuint lo' hi' i
    · rw [← same]
      exact puts_putulong lo' hi' (i.zeroExtend 64)
  · intro i
    exact ⟨numberText base.toNat i.toNat, isNumber_numberText lo' hi' _, fun stream near => puts_putulong lo' hi' i⟩

/-- In the base of `stream_putptr`. -/
theorem putuint_canonical_sixteen : (∀ i : BitVec 32, ∃ text, IsNumber 16 text i.toNat ∧
      ∀ {ε σ : Type} (stream : Stream ε σ) (near : BitVec 32 → Byte),
        Puts stream (streamPutuint stream near 16 i) text ∧
        Puts stream (streamPutulong stream near 16 (i.zeroExtend 64)) text) ∧
    ∀ i : BitVec 64, ∃ text, IsNumber 16 text i.toNat ∧
      ∀ {ε σ : Type} (stream : Stream ε σ) (near : BitVec 32 → Byte),
        Puts stream (streamPutulong stream near 16 i) text :=
  @putuint_canonical 16 (by decide) (by decide)

end Twcos.Text
