import Twcos.Text.Str
import Mathlib.Algebra.Ring.Nat
import Mathlib.Algebra.Ring.Int.Defs
import Mathlib.Data.List.GetD

/-!
# Comparing strings

Model of the comparisons of `libk/string.c`. `strncmp` returns the difference of the characters where it stops, also when
it stops at its bound, so that `starts_with` only finds a string at the start of itself. `compares_iff` has the strings
and bounds for which all of them are right.

The counters are signed, and one that overflows is a fault.

C → Lean naming: `strncmp` and `strlen` keep their names, `starts_with` → `startsWith`, `ends_with` → `endsWith`.
-/

namespace Twcos.Text

/-- `strncmp`, after `i` characters. -/
def strncmpFrom (n i : Nat) : Str → Str → Option Int
  | a :: s, b :: t =>
    if i < n ∧ a = b then
      if i + 1 < 2 ^ 31 then strncmpFrom n (i + 1) s t else none
    else some (a.toInt - b.toInt)
  | s, t => some ((s.headD 0).toInt - (t.headD 0).toInt)

/-- `strncmp`. -/
def strncmp (s1 s2 : Str) (n : Nat) : Option Int := strncmpFrom n 0 s1 s2

/-- `strlen`, after `l` characters. -/
def strlenFrom (l : Nat) : Str → Option Nat
  | [] => some l
  | _ :: s => if l + 1 < 2 ^ 31 then strlenFrom (l + 1) s else none

/-- `strlen`. -/
def strlen (s : Str) : Option Nat := strlenFrom 0 s

/-- `starts_with`. -/
def startsWith (s head : Str) : Option Bool := do
  let slen ← strlen s
  let hlen ← strlen head
  if hlen > slen then return false
  else
    let r ← strncmp s head hlen
    return r = 0

/-- `ends_with`. -/
def endsWith (s tail : Str) : Option Bool := do
  let slen ← strlen s
  let tlen ← strlen tail
  if tlen > slen then return false
  else return strcmp (s.drop (slen - tlen)) tail = 0

/-! ### Lengths -/

section Compare
variable {s t : Str} {n : Nat}

/-- `strlen` counts the characters, up to the largest `int`. -/
lemma strlenFrom_eq (l : Nat) (s : Str) (start : l < 2 ^ 31) :
    strlenFrom l s = if l + s.length < 2 ^ 31 then some (l + s.length) else none := by
  induction s generalizing l with
  | nil =>
    rw [List.length_nil, Nat.add_zero, if_pos start]
    rfl
  | cons c s ih =>
    have len : l + (c :: s).length = l + 1 + s.length := by
      rw [List.length_cons]
      omega
    rw [strlenFrom, len]
    by_cases next : l + 1 < 2 ^ 31
    · rw [if_pos next, ih (l + 1) next]
    · rw [if_neg next, if_neg (by omega)]

/-- The length of a string that is short enough. -/
lemma strlen_eq (h : s.length < 2 ^ 31) : strlen s = some s.length := by
  rw [strlen, strlenFrom_eq 0 s (by decide), Nat.zero_add, if_pos h]

/-- A string has a length only if it is. -/
lemma strlen_result {l : Nat} (h : strlen s = some l) : s.length < 2 ^ 31 := by
  rw [strlen, strlenFrom_eq 0 s (by decide), Nat.zero_add] at h
  by_contra long
  rw [if_neg long] at h
  cases h

/-! ### The first difference -/

/-- A string has no NUL in it. -/
lemma head_ne_nul {c : Byte} (h : 0 ∉ c :: s) : c ≠ 0 := by
  rintro rfl
  exact h List.mem_cons_self

/-- The difference of the characters at an index, with the NUL behind the others. -/
def charDiff (s t : Str) (k : Nat) : Int := (s.getD k 0).toInt - (t.getD k 0).toInt

/-- Characters that do not differ. -/
lemma charDiff_eq_zero {k : Nat} : charDiff s t k = 0 ↔ s.getD k 0 = t.getD k 0 := by
  rw [charDiff, Int.sub_eq_zero, BitVec.toInt_inj]

/-- A string does not differ from itself. -/
lemma charDiff_self (k : Nat) : charDiff s s k = 0 := charDiff_eq_zero.mpr rfl

/-- Strings that agree up to a bound have the same characters before it. -/
lemma getD_eq_of_take {k : Nat} (h : s.take n = t.take n) (lt : k < n) : s.getD k 0 = t.getD k 0 := by
  have same := congrArg (fun u : Str => u.getD k 0) h
  rwa [List.getD_eq_getElem?_getD, List.getD_eq_getElem?_getD, List.getElem?_take_of_lt lt, List.getElem?_take_of_lt lt,
    ← List.getD_eq_getElem?_getD, ← List.getD_eq_getElem?_getD] at same

/-- Where `strncmp` stops: at the bound, at a difference, or at the end of both. -/
lemma strncmpFrom_stops (i m : Nat) (hs : 0 ∉ s) (ht : 0 ∉ t) (len : i + s.length < 2 ^ 31) :
    ∃ k ≤ m, strncmpFrom (i + m) i s t = some (charDiff s t k) ∧ s.take k = t.take k ∧
      (k = m ∨ s.getD k 0 ≠ t.getD k 0 ∨ s = t) := by
  induction s generalizing i m t with
  | nil =>
    refine ⟨0, Nat.zero_le _, ?_, rfl, .inr ?_⟩
    · cases t with
      | nil => rfl
      | cons b t => rfl
    · cases t with
      | nil => exact .inr rfl
      | cons b t => exact .inl (head_ne_nul ht).symm
  | cons a s ih =>
    cases t with
    | nil => exact ⟨0, Nat.zero_le _, rfl, rfl, .inr (.inl (head_ne_nul hs))⟩
    | cons b t =>
      rw [strncmpFrom]
      by_cases bound : m = 0
      · subst bound
        rw [if_neg fun h => Nat.lt_irrefl _ h.1]
        exact ⟨0, Nat.le_refl _, rfl, rfl, .inl rfl⟩
      by_cases same : a = b
      · subst same
        rw [List.length_cons] at len
        obtain ⟨k, le, result, agree, stop⟩ := ih (i + 1) (m - 1) (fun mem => hs (List.mem_cons_of_mem _ mem))
          (fun mem => ht (List.mem_cons_of_mem _ mem)) (by omega)
        have total : i + 1 + (m - 1) = i + m := by omega
        rw [if_pos ⟨by omega, rfl⟩, if_pos (by omega), ← total, result]
        refine ⟨k + 1, by omega, rfl, by rw [List.take_succ_cons, List.take_succ_cons, agree], ?_⟩
        rcases stop with last | other | same
        · exact .inl (by omega)
        · exact .inr (.inl other)
        · exact .inr (.inr (congrArg _ same))
      · rw [if_neg fun h => same h.2]
        exact ⟨0, Nat.zero_le _, rfl, rfl, .inr (.inl same)⟩

/-- `strncmp` stops at the bound, or where the strings differ or end. -/
lemma strncmp_stops (n : Nat) (hs : 0 ∉ s) (ht : 0 ∉ t) (len : s.length < 2 ^ 31) : ∃ k ≤ n,
    strncmp s t n = some (charDiff s t k) ∧ s.take k = t.take k ∧ (k = n ∨ s.getD k 0 ≠ t.getD k 0 ∨ s = t) := by
  have stops := strncmpFrom_stops 0 n hs ht (by rwa [Nat.zero_add])
  rwa [Nat.zero_add] at stops

/-! ### What the comparisons should return -/

/-- `strncmp` is zero for strings that agree on their first characters, and has the sign of the first difference of
    others. -/
def StrncmpRight (s t : Str) (n : Nat) : Prop :=
  ∃ r, strncmp s t n = some r ∧ (r = 0 ↔ s.take n = t.take n) ∧
    ∀ k < n, s.take k = t.take k → s.getD k 0 ≠ t.getD k 0 → r.sign = (charDiff s t k).sign

/-- The comparisons are right. -/
structure Compares (s t : Str) (n : Nat) : Prop where
  strncmp : StrncmpRight s t n
  startsWith : startsWith s t = some (decide (t <+: s))
  endsWith : endsWith s t = some (decide (t <:+ s))

/-- The bound must not be reached before a difference right behind it. -/
lemma strncmpRight_iff (hs : 0 ∉ s) (ht : 0 ∉ t) (len : s.length < 2 ^ 31) :
    StrncmpRight s t n ↔ (s.take n = t.take n → s.getD n 0 = t.getD n 0) := by
  obtain ⟨k, le, result, agree, stop⟩ := strncmp_stops n hs ht len
  have first : s.getD k 0 ≠ t.getD k 0 → k < n → s.take n ≠ t.take n := fun other lt same => other (getD_eq_of_take same lt)
  constructor
  · rintro ⟨r, result', zero, -⟩ same
    cases result.symm.trans result'
    have last := charDiff_eq_zero.mp (zero.mpr same)
    rcases stop with rfl | other | rfl
    · exact last
    · exact absurd last other
    · rfl
  · intro h
    refine ⟨_, result, ?_, ?_⟩
    · rw [charDiff_eq_zero]
      rcases stop with rfl | other | rfl
      · exact ⟨fun _ => agree, h⟩
      · rcases Nat.lt_or_eq_of_le le with lt | rfl
        · exact ⟨fun same => absurd same other, fun same => absurd same (first other lt)⟩
        · exact ⟨fun _ => agree, h⟩
      · exact ⟨fun _ => rfl, fun _ => rfl⟩
    · intro k' lt agree' other'
      rcases Nat.lt_trichotomy k' k with before | rfl | after
      · exact absurd (getD_eq_of_take agree before) other'
      · rfl
      · have same := getD_eq_of_take agree' after
        rcases stop with rfl | other | rfl
        · omega
        · exact absurd same other
        · exact absurd rfl other'

/-- `strcmp` is zero exactly for equal strings. -/
lemma strcmp_eq_zero (hs : 0 ∉ s) (ht : 0 ∉ t) : strcmp s t = 0 ↔ s = t := by
  induction s generalizing t with
  | nil =>
    cases t with
    | nil => exact ⟨fun _ => rfl, fun _ => rfl⟩
    | cons b t =>
      rw [strcmp, Int.neg_eq_zero, ← BitVec.toInt_zero, BitVec.toInt_inj]
      exact ⟨fun zero => absurd zero (head_ne_nul ht), fun same => absurd same.symm (List.cons_ne_nil _ _)⟩
  | cons a s ih =>
    cases t with
    | nil =>
      rw [strcmp, ← BitVec.toInt_zero, BitVec.toInt_inj]
      exact ⟨fun zero => absurd zero (head_ne_nul hs), fun same => absurd same (List.cons_ne_nil _ _)⟩
    | cons b t =>
      rw [strcmp]
      by_cases same : a = b
      · subst same
        rw [if_pos rfl, ih (fun mem => hs (List.mem_cons_of_mem _ mem)) (fun mem => ht (List.mem_cons_of_mem _ mem)),
          List.cons_inj_right]
      · rw [if_neg same, Int.sub_eq_zero, BitVec.toInt_inj]
        exact ⟨fun h => absurd h same, fun h => absurd (List.cons.inj h).1 same⟩

/-- `ends_with` is right for all strings. -/
lemma endsWith_eq (hs : 0 ∉ s) (ht : 0 ∉ t) (len : s.length < 2 ^ 31) (len' : t.length < 2 ^ 31) :
    endsWith s t = some (decide (t <:+ s)) := by
  have run : endsWith s t = if t.length > s.length then some false
      else some (decide (strcmp (s.drop (s.length - t.length)) t = 0)) := by
    rw [endsWith, strlen_eq len, strlen_eq len']
    rfl
  rw [run]
  by_cases longer : t.length > s.length
  · rw [if_pos longer, decide_eq_false fun suffix => absurd suffix.length_le (Nat.not_le.mpr longer)]
  · have proper : 0 ∉ s.drop (s.length - t.length) := fun mem => hs (List.mem_of_mem_drop mem)
    rw [if_neg longer]
    exact congrArg some (decide_eq_decide.mpr (((strcmp_eq_zero proper ht).trans eq_comm).trans
      List.suffix_iff_eq_drop.symm))

/-- `starts_with` only finds a string at the start of itself. -/
lemma startsWith_eq (hs : 0 ∉ s) (ht : 0 ∉ t) (len : s.length < 2 ^ 31) (len' : t.length < 2 ^ 31) :
    startsWith s t = some (decide (s = t)) := by
  obtain ⟨k, le, result, agree, stop⟩ := strncmp_stops t.length hs ht len
  have run : startsWith s t = if t.length > s.length then some false else some (decide (charDiff s t k = 0)) := by
    rw [startsWith, strlen_eq len, strlen_eq len']
    show (if _ then _ else strncmp s t t.length >>= _) = _
    rw [result]
    rfl
  rw [run]
  by_cases longer : t.length > s.length
  · rw [if_pos longer, decide_eq_false fun same => absurd (congrArg List.length same) (Nat.ne_of_lt longer)]
  · rw [if_neg longer]
    refine congrArg some (decide_eq_decide.mpr ⟨fun zero => ?_, fun same => same ▸ charDiff_self k⟩)
    have last := charDiff_eq_zero.mp zero
    rcases stop with rfl | other | same
    · -- the character behind the start of `s` is the NUL of `t`
      rw [List.getD_eq_default t 0 (Nat.le_refl _)] at last
      rw [List.take_length] at agree
      have short : s.length ≤ t.length := by
        by_contra more
        rw [List.getD_eq_getElem s 0 (Nat.not_le.mp more)] at last
        exact hs (last ▸ List.getElem_mem _)
      rw [← agree, List.take_of_length_le short]
    · exact absurd last other
    · exact same

/-- The strings and bounds for which the comparisons are right: those with no difference right behind a bound that is
    reached, and without a proper start. -/
theorem compares_iff (hs : 0 ∉ s) (ht : 0 ∉ t) : Compares s t n ↔
    s.length < 2 ^ 31 ∧ t.length < 2 ^ 31 ∧ (s.take n = t.take n → s.getD n 0 = t.getD n 0) ∧ (t <+: s → s = t) := by
  constructor
  · intro h
    have lengths : s.length < 2 ^ 31 ∧ t.length < 2 ^ 31 := by
      have run := h.endsWith
      rw [endsWith] at run
      obtain ⟨slen, first, run⟩ := Option.bind_eq_some_iff.mp run
      obtain ⟨tlen, second, -⟩ := Option.bind_eq_some_iff.mp run
      exact ⟨strlen_result first, strlen_result second⟩
    refine ⟨lengths.1, lengths.2, (strncmpRight_iff hs ht lengths.1).mp h.strncmp, fun start => ?_⟩
    have found := h.startsWith
    rw [startsWith_eq hs ht lengths.1 lengths.2, decide_eq_true start] at found
    exact of_decide_eq_true (Option.some.inj found)
  · rintro ⟨len, len', bound, start⟩
    refine ⟨(strncmpRight_iff hs ht len).mpr bound, ?_, endsWith_eq hs ht len len'⟩
    rw [startsWith_eq hs ht len len']
    refine congrArg some (decide_eq_decide.mpr ⟨?_, start⟩)
    rintro rfl
    exact List.prefix_refl s

/-- Strings that differ within the bound. -/
theorem compares_within : Compares [0x61, 0x62] [0x61, 0x63] 2 :=
  (compares_iff (by decide) (by decide)).mpr (by decide)

end Compare

/-- The first character is the same, but the next one is compared too; and a string does not start with its start. -/
theorem strncmp_past_bound : strncmp [0x61, 0x62] [0x61] 1 = some 0x62 ∧ startsWith [0x61, 0x62] [0x61] = some false ∧
    ¬Compares [0x61, 0x62] [0x61] 1 := by
  refine ⟨by decide, by decide, fun h => ?_⟩
  exact absurd h.startsWith (by decide)

end Twcos.Text
