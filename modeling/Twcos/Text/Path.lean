import Twcos.Text.Stream
import Mathlib.Data.List.DropRight

/-!
# Paths

Model of `dirname` and `basename` of `libk/string.c` at the level of memory: the path is edited in place, and what is
returned points into it or to one of two constants. `basedirname_returns` relates it to the function on strings, and
`path_iff` has the paths for which both return what POSIX specifies.

C → Lean naming: `strlen` → `strlenAt`, `strrchr` → `strrchrAt`, `dirname` → `dirnameAt`, `basename` → `basenameAt`.
-/

namespace Twcos.Text
open Twcos.Prog

/-! ### What POSIX specifies -/

/-- A path up to its last slash, and the component after it. -/
def dirPart (path : Str) : Str := path.rdropWhile (· ≠ slash)

def namePart (path : Str) : Str := path.rtakeWhile (· ≠ slash)

/-- The parent directory: `.` for an empty path and for one without a slash, and a single slash for the root. -/
def posixDirname (path : Str) : Str :=
  if path = [] then [dot]
  else if path.all fun c => c = slash then [slash]
  else if dirPart (stripSlashes path) = [] then [dot]
  else if stripSlashes (dirPart (stripSlashes path)) = [] then [slash]
  else stripSlashes (dirPart (stripSlashes path))

/-- The last component: `.` for an empty path, and a single slash for a path of slashes. -/
def posixBasename (path : Str) : Str :=
  if path = [] then [dot]
  else if path.all fun c => c = slash then [slash]
  else namePart (stripSlashes path)

section Strings
variable {c : Byte} {s u v : Str}

/-- A slash at the end is stripped. -/
lemma stripSlashes_slash (s : Str) : stripSlashes (s ++ [slash]) = stripSlashes s :=
  List.rdropWhile_concat_pos _ _ _ (decide_eq_true rfl)

/-- Another character is not. -/
lemma stripSlashes_char (s : Str) (h : c ≠ slash) : stripSlashes (s ++ [c]) = s ++ [c] :=
  List.rdropWhile_concat_neg _ _ _ (by rwa [decide_eq_true_iff])

/-- Only slashes are stripped to nothing. -/
lemma stripSlashes_eq_nil : stripSlashes s = [] ↔ ∀ c ∈ s, c = slash := by
  have nil := @List.rdropWhile_eq_nil_iff _ (fun c : Byte => decide (c = slash)) s
  simp only [decide_eq_true_iff] at nil
  exact nil

/-- Stripping makes no path longer. -/
lemma length_stripSlashes (s : Str) : (stripSlashes s).length ≤ s.length :=
  (List.rdropWhile_prefix (fun c : Byte => decide (c = slash)) s).length_le

/-- A character that is not there. -/
lemma strrchr_none (h : c ∉ s) : strrchr c s = none := by
  induction s with
  | nil => rfl
  | cons b s ih =>
    have ne : b ≠ c := fun same => h (same ▸ List.mem_cons_self)
    rw [strrchr, ih fun mem => h (List.mem_cons_of_mem _ mem)]
    exact if_neg ne

/-- A character that is there for the last time. -/
lemma strrchr_last (u : Str) (h : c ∉ v) : strrchr c (u ++ c :: v) = some u.length := by
  induction u with
  | nil =>
    rw [List.nil_append, strrchr, strrchr_none h]
    exact if_pos rfl
  | cons b u ih => rw [List.cons_append, strrchr, ih, List.length_cons]

/-- The two parts of a path. -/
lemma parts (s : Str) : s = dirPart s ++ namePart s ∧ slash ∉ namePart s ∧
    (dirPart s = [] ∨ ∃ e, dirPart s = e ++ [slash]) := by
  refine ⟨List.rdropWhile_append_rtakeWhile.symm, fun mem => ?_, ?_⟩
  · rw [namePart] at mem
    have ne := List.mem_rtakeWhile_imp mem
    rw [decide_eq_true_iff] at ne
    exact ne rfl
  · by_cases nil : dirPart s = []
    · exact .inl nil
    · have last := List.rdropWhile_last_not _ s nil
      rw [decide_eq_true_iff, not_not] at last
      have whole := List.dropLast_append_getLast nil
      rw [show (dirPart s).getLast nil = slash from last] at whole
      exact .inr ⟨_, whole.symm⟩

/-- A path of one name. -/
lemma basedirname_name (d : Bool) (h : stripSlashes s = v) (proper : slash ∉ v) :
    basedirname s d = if d then [dot] else v := by
  rw [basedirname, h, strrchr_none proper]

/-- A name in the root. -/
lemma basedirname_root (d : Bool) (h : stripSlashes s = slash :: v) (proper : slash ∉ v) :
    basedirname s d = if d then [slash] else v := by
  have last := strrchr_last [] proper
  rw [List.nil_append] at last
  rw [basedirname, h, last]
  rfl

/-- A name in a directory. -/
lemma basedirname_dir (d : Bool) (h : stripSlashes s = u ++ slash :: v) (ne : u ≠ []) (proper : slash ∉ v) :
    basedirname s d = if d then u else v := by
  obtain ⟨n, len⟩ := Nat.exists_eq_succ_of_ne_zero fun zero => ne (List.length_eq_zero_iff.mp zero)
  have drop : (u ++ slash :: v).drop (n + 1 + 1) = v := by
    rw [← Nat.succ_eq_add_one n, ← len, ← List.drop_drop, List.drop_left]
    rfl
  have take : (u ++ slash :: v).take (n + 1) = u := by
    rw [← Nat.succ_eq_add_one n, ← len, List.take_left]
  rw [basedirname, h, strrchr_last u proper, len]
  cases d with
  | true => exact take
  | false => exact drop

/-- `basename` is the name at the end of the stripped path. -/
lemma basename_eq (s : Str) : basename s = namePart (stripSlashes s) := by
  obtain ⟨whole, proper, nil | ⟨e, last⟩⟩ := parts (stripSlashes s)
  · rw [nil, List.nil_append] at whole
    exact basedirname_name false whole proper
  · rw [last, List.append_assoc] at whole
    by_cases root : e = []
    · rw [root] at whole
      exact basedirname_root false whole proper
    · exact basedirname_dir false whole root proper

/-- `dirname` is what is before it. -/
lemma dirname_eq (s : Str) : dirname s = if dirPart (stripSlashes s) = [] then [dot]
    else if dirPart (stripSlashes s) = [slash] then [slash] else (dirPart (stripSlashes s)).dropLast := by
  obtain ⟨whole, proper, nil | ⟨e, last⟩⟩ := parts (stripSlashes s)
  · rw [if_pos nil]
    rw [nil, List.nil_append] at whole
    exact basedirname_name true whole proper
  · have some : e ++ [slash] ≠ [] := List.append_ne_nil_of_right_ne_nil _ (List.cons_ne_nil _ _)
    rw [last, if_neg some]
    rw [last, List.append_assoc] at whole
    by_cases root : e = []
    · rw [root] at whole
      rw [root, List.nil_append, if_pos rfl]
      exact basedirname_root true whole proper
    · have more : e ++ [slash] ≠ [slash] := fun same => root (List.append_left_eq_self.mp same)
      rw [if_neg more, List.dropLast_concat]
      exact basedirname_dir true whole root proper

/-! ### The paths for which the functions are right -/

/-- A path with another character than slashes is not empty. -/
lemma not_nil_of_char (h : ¬∀ c ∈ s, c = slash) : s ≠ [] := by
  rintro rfl
  exact h fun c mem => absurd mem List.not_mem_nil

/-- A path with another character than slashes is not all slashes. -/
lemma not_all_of_char (h : ¬∀ c ∈ s, c = slash) : ¬(s.all fun c => c = slash) = true := by
  intro all
  exact h fun c mem => of_decide_eq_true (List.all_eq_true.mp all c mem)

/-- The paths with a character that is not a slash. -/
lemma basename_posix : basename s = posixBasename s ↔ ¬∀ c ∈ s, c = slash := by
  rw [basename_eq, posixBasename]
  constructor
  · intro right slashes
    rw [stripSlashes_eq_nil.mpr slashes, if_pos (List.all_eq_true.mpr fun c mem => decide_eq_true (slashes c mem))] at right
    split at right
    · cases right
    · cases right
  · intro char
    rw [if_neg (not_nil_of_char char), if_neg (not_all_of_char char)]

/-- The empty path, and those with a character that is not a slash, where what is before the last component does not end
    in two slashes or is nothing else. -/
lemma dirname_posix (char : ¬∀ c ∈ s, c = slash) : dirname s = posixDirname s ↔
    ([slash, slash] <:+ dirPart (stripSlashes s) → dirPart (stripSlashes s) = [slash, slash]) := by
  rw [dirname_eq, posixDirname, if_neg (not_nil_of_char char), if_neg (not_all_of_char char)]
  obtain ⟨-, -, nil | ⟨e, last⟩⟩ := parts (stripSlashes s)
  · rw [nil, if_pos rfl, if_pos rfl]
    exact ⟨fun _ suffix => absurd suffix.length_le (by decide), fun _ => rfl⟩
  · have some : e ++ [slash] ≠ [] := List.append_ne_nil_of_right_ne_nil _ (List.cons_ne_nil _ _)
    rw [last, if_neg some, if_neg some, stripSlashes_slash]
    have short (b : Byte) (e : Str) : e ++ [b] ++ [slash] ≠ [slash] := by
      intro same
      have len := congrArg List.length same
      rw [List.length_append, List.length_append, List.length_singleton, List.length_singleton] at len
      omega
    rcases List.eq_nil_or_concat e with rfl | ⟨e, b, rfl⟩
    · exact ⟨fun _ suffix => absurd suffix.length_le (by decide), fun _ => rfl⟩
    rw [List.concat_eq_append, if_neg (short b e), List.dropLast_concat]
    have suffix : [slash, slash] <:+ e ++ [b] ++ [slash] ↔ b = slash := by
      rw [List.append_assoc]
      constructor
      · rintro ⟨t, same⟩
        obtain ⟨-, same⟩ := List.append_inj' same rfl
        exact (List.cons.inj same).1.symm
      · rintro rfl
        exact List.suffix_append e _
    have root : e ++ [b] ++ [slash] = [slash, slash] ↔ e = [] ∧ b = slash := by
      rw [List.append_assoc]
      constructor
      · intro same
        have same : e ++ [b, slash] = [] ++ [slash, slash] := same
        obtain ⟨nil, same⟩ := List.append_inj' same rfl
        exact ⟨nil, (List.cons.inj same).1⟩
      · rintro ⟨rfl, rfl⟩
        rfl
    rw [suffix, root]
    by_cases same : b = slash
    · subst same
      rw [stripSlashes_slash]
      constructor
      · intro right _
        refine ⟨?_, rfl⟩
        by_contra ne
        split at right
        · exact ne (List.append_left_eq_self.mp right)
        · have len := congrArg List.length right
          have le := length_stripSlashes e
          rw [List.length_append, List.length_singleton] at len
          omega
      · intro nil
        rw [(nil rfl).1]
        rfl
    · rw [stripSlashes_char e same, if_neg (List.append_ne_nil_of_right_ne_nil _ (List.cons_ne_nil _ _))]
      exact ⟨fun _ slashes => absurd slashes same, fun _ => rfl⟩

end Strings

/-! ### The functions -/

/-- The loop of `strlen`. -/
def strlenBody (s : BitVec 32) (l : Nat) : Prog Fault Memory (Nat ⊕ Nat) := do
  let c ← asks fun mem => mem (s + BitVec.ofNat 32 l)
  if c = 0 then return .inr l
  else do
    check (l + 1 < 2 ^ 31) .overflow
    return .inl (l + 1)

/-- `strlen`. -/
def strlenAt (s : BitVec 32) : Prog Fault Memory Nat := loop (strlenBody s) 0

/-- The loop of `strrchr`, with the counter and the last match. -/
def strrchrBody (s : BitVec 32) (c : Byte) (i : Nat × Option (BitVec 32)) :
    Prog Fault Memory ((Nat × Option (BitVec 32)) ⊕ Option (BitVec 32)) := do
  let b ← asks fun mem => mem (s + BitVec.ofNat 32 i.1)
  if b = 0 then return .inr i.2
  else do
    check (i.1 + 1 < 2 ^ 31) .overflow
    return .inl (i.1 + 1, if b = c then some (s + BitVec.ofNat 32 i.1) else i.2)

/-- `strrchr`. -/
def strrchrAt (s : BitVec 32) (c : Byte) : Prog Fault Memory (Option (BitVec 32)) := loop (strrchrBody s c) (0, none)

/-- The first loop of `basedirname`. -/
def stripBody (path : BitVec 32) (plen : Nat) : Prog Fault Memory (Nat ⊕ Unit) :=
  if plen = 0 then return .inr ()
  else do
    let c ← asks fun mem => mem (path + BitVec.ofNat 32 (plen - 1))
    if c = slash then do
      update fun mem => Function.update mem (path + BitVec.ofNat 32 (plen - 1)) 0
      return .inl (plen - 1)
    else return .inr ()

section Functions
variable (dotAt slashAt path : BitVec 32)

/-- `basedirname`, with the addresses of `dot` and `slash`. -/
def basedirnameAt (dirname : Bool) : Prog Fault Memory (BitVec 32) := do
  let plen ← strlenAt path
  loop (stripBody path) plen
  let lastslash ← strrchrAt path slash
  match lastslash with
  | none => return if dirname then dotAt else path
  | some last =>
    if last = path then return if dirname then slashAt else path + 1
    else do
      update fun mem => Function.update mem last 0
      return if dirname then path else last + 1

/-- `dirname`. -/
def dirnameAt : Prog Fault Memory (BitVec 32) := basedirnameAt dotAt slashAt path true

/-- `basename`. -/
def basenameAt : Prog Fault Memory (BitVec 32) := basedirnameAt dotAt slashAt path false

end Functions

/-! ### Strings in memory -/

section InMemory
variable {mem mem' : Memory} {p : BitVec 32} {s t u v : Str} {c : Byte}

/-- There is one string at an address. -/
lemma StringAt.unique (h : StringAt mem p s) (h' : StringAt mem p t) : s = t := by
  induction s generalizing p t with
  | nil =>
    cases t with
    | nil => rfl
    | cons b t => exact absurd ((h'.chars 0 (Nat.succ_pos _)).symm.trans h.nul) (fun zero => h'.proper (zero ▸ List.mem_cons_self))
  | cons a s ih =>
    cases t with
    | nil => exact absurd ((h.chars 0 (Nat.succ_pos _)).symm.trans h'.nul) (fun zero => h.proper (zero ▸ List.mem_cons_self))
    | cons b t =>
      have first : a = b := (h.chars 0 (Nat.succ_pos _)).symm.trans (h'.chars 0 (Nat.succ_pos _))
      rw [first, ih h.tail h'.tail]

/-- Different addresses within a string. -/
lemma address_ne {i j : Nat} (hi : i < 2 ^ 32) (hj : j < 2 ^ 32) (ne : i ≠ j) :
    p + BitVec.ofNat 32 i ≠ p + BitVec.ofNat 32 j := by
  intro same
  have index := congrArg BitVec.toNat ((BitVec.add_right_inj _).mp same)
  rw [BitVec.toNat_ofNat, BitVec.toNat_ofNat, Nat.mod_eq_of_lt hi, Nat.mod_eq_of_lt hj] at index
  exact ne index

/-- A NUL inside of a string ends it. -/
lemma StringAt.cut (h : StringAt mem p (u ++ c :: v)) (short : (u ++ c :: v).length < 2 ^ 31) :
    StringAt (Function.update mem (p + BitVec.ofNat 32 u.length) 0) p u ∧
      StringAt (Function.update mem (p + BitVec.ofNat 32 u.length) 0) (p + BitVec.ofNat 32 u.length + 1) v := by
  rw [List.length_append, List.length_cons] at short
  have behind (i : Nat) : p + BitVec.ofNat 32 u.length + 1 + BitVec.ofNat 32 i = p + BitVec.ofNat 32 (u.length + (i + 1)) := by
    rw [address_succ, BitVec.add_assoc, ← BitVec.ofNat_add]
  have len : (u ++ c :: v).length = u.length + (v.length + 1) := List.length_append
  constructor
  · refine ⟨fun i hi => ?_, by rw [Function.update_self], fun mem => h.proper (List.mem_append_left _ mem)⟩
    rw [Function.update_of_ne (address_ne (by omega) (by omega) (by omega)), h.chars i (by omega),
      List.getElem_append_left hi]
  · refine ⟨fun i hi => ?_, ?_, fun mem => h.proper (List.mem_append_right _ (List.mem_cons_of_mem _ mem))⟩
    · rw [behind, Function.update_of_ne (address_ne (by omega) (by omega) (by omega)), h.chars _ (by omega),
        List.getElem_append_right (by omega)]
      simp only [Nat.add_sub_cancel_left, List.getElem_cons_succ]
    · have nul := h.nul
      rw [len] at nul
      rw [behind, Function.update_of_ne (address_ne (by omega) (by omega) (by omega)), nul]

/-- What is left of a string. -/
lemma StringAt.drop (h : StringAt mem p (u ++ v)) : StringAt mem (p + BitVec.ofNat 32 u.length) v := by
  induction u generalizing p with
  | nil => rwa [List.length_nil, BitVec.add_zero]
  | cons c u ih =>
    have rest := ih h.tail
    rwa [address_succ] at rest

/-- A character of a string. -/
lemma StringAt.char (h : StringAt mem p (u ++ c :: v)) : mem (p + BitVec.ofNat 32 u.length) = c ∧ c ≠ 0 := by
  have char := h.drop.chars 0 (Nat.succ_pos _)
  rw [BitVec.add_zero] at char
  refine ⟨char, ?_⟩
  rintro rfl
  exact h.drop.proper List.mem_cons_self

/-! ### What the functions return -/

/-- `strlen`, in memory. -/
lemma strlenAt_returns (h : StringAt mem p s) (short : s.length < 2 ^ 31) : Returns (strlenAt p) mem s.length mem := by
  have count : ∀ v u : Str, u ++ v = s → Returns (loop (strlenBody p) u.length) mem s.length mem := by
    intro v
    induction v with
    | nil =>
      rintro u rfl
      rw [List.append_nil] at h ⊢
      exact .exit (.bind (.asks _ _) (.ite_pos h.nul (.pure _ _)))
    | cons c v ih =>
      rintro u rfl
      have len : (u ++ c :: v).length = u.length + (v.length + 1) := List.length_append
      have rest := ih (u ++ [c]) (List.append_assoc _ _ _)
      rw [List.length_append, List.length_singleton] at rest
      have ne : ¬mem (p + BitVec.ofNat 32 u.length) = 0 := by
        rw [h.char.1]
        exact h.char.2
      exact .turn (.bind (.asks _ _) (.ite_neg ne (.bind (.check (by omega)) (.pure _ _)))) rest
  exact count s [] rfl

/-- The length of a string that is too long overflows. -/
lemma strlenAt_raises (h : StringAt mem p s) (long : 2 ^ 31 ≤ s.length) : Raises (strlenAt p) mem .overflow := by
  have count : ∀ v u : Str, u ++ v = s → u.length < 2 ^ 31 → Raises (loop (strlenBody p) u.length) mem .overflow := by
    intro v
    induction v with
    | nil =>
      rintro u rfl lt
      rw [List.append_nil] at long
      omega
    | cons c v ih =>
      rintro u rfl lt
      have rest := ih (u ++ [c]) (List.append_assoc _ _ _)
      rw [List.length_append, List.length_singleton] at rest
      have ne : ¬mem (p + BitVec.ofNat 32 u.length) = 0 := by
        rw [h.char.1]
        exact h.char.2
      by_cases last : u.length + 1 < 2 ^ 31
      · refine .turn (.bind (.asks _ _) (.ite_neg ne (.bind (.check last) (.pure _ _)))) (rest last)
      · refine .loop (.rest (.asks _ _) ?_)
        rw [if_neg ne]
        exact .first (.check last)
  exact count s [] rfl (by decide)

/-- Slashes at the end are replaced by NULs, and nothing else is written. -/
lemma strip_returns (h : StringAt mem p s) (short : s.length < 2 ^ 31) :
    ∃ mem', Returns (loop (stripBody p) s.length) mem () mem' ∧ StringAt mem' p (stripSlashes s) ∧
      ∀ a, (∀ k < s.length, a ≠ p + BitVec.ofNat 32 k) → mem' a = mem a := by
  induction s using List.reverseRecOn generalizing mem with
  | nil => exact ⟨mem, .exit (.ite_pos rfl (.pure _ _)), h, fun a _ => rfl⟩
  | append_singleton u c ih =>
    have len : (u ++ [c]).length = u.length + 1 := List.length_append
    have char := h.char.1
    have some : ¬u.length + 1 = 0 := Nat.succ_ne_zero _
    rw [len]
    by_cases last : c = slash
    · subst last
      obtain ⟨mem', run, string, frame⟩ := ih (h.cut short).1 (by omega)
      refine ⟨mem', .turn ?_ run, ?_, fun a outside => ?_⟩
      · exact .ite_neg some (.bind (.asks _ _) (.ite_pos char (.bind (.update _ _) (.pure _ _))))
      · rwa [stripSlashes_slash]
      · rw [frame a fun k hk => outside k (Nat.lt_succ_of_lt hk), Function.update_of_ne (outside _ (Nat.lt_succ_self _))]
    · refine ⟨mem, .exit (.ite_neg some (.bind (.asks _ _) (.ite_neg ?_ (.pure _ _)))), ?_, fun a _ => rfl⟩
      · rwa [show mem (p + BitVec.ofNat 32 (u.length + 1 - 1)) = c from char]
      · rwa [stripSlashes_char u last]

/-- `strrchr`, in memory. -/
lemma strrchrAt_returns (c : Byte) (h : StringAt mem p s) (short : s.length < 2 ^ 31) :
    Returns (strrchrAt p c) mem ((strrchr c s).map fun i => p + BitVec.ofNat 32 i) mem := by
  have scan : ∀ (v u : Str) (last : Option (BitVec 32)), u ++ v = s →
      Returns (loop (strrchrBody p c) (u.length, last)) mem
        (((strrchr c v).map fun i => p + BitVec.ofNat 32 (u.length + i)).or last) mem := by
    intro v
    induction v with
    | nil =>
      rintro u last rfl
      rw [List.append_nil] at h
      exact .exit (.bind (.asks _ _) (.ite_pos h.nul (.pure _ _)))
    | cons b v ih =>
      rintro u last rfl
      have len : (u ++ b :: v).length = u.length + (v.length + 1) := List.length_append
      have rest := ih (u ++ [b]) (if b = c then some (p + BitVec.ofNat 32 u.length) else last) (List.append_assoc _ _ _)
      rw [List.length_append, List.length_singleton] at rest
      obtain ⟨char, nul⟩ := h.char
      have ne : ¬mem (p + BitVec.ofNat 32 u.length) = 0 := by
        rwa [char]
      have turn : Returns (strrchrBody p c (u.length, last)) mem
          (.inl (u.length + 1, if b = c then some (p + BitVec.ofNat 32 u.length) else last)) mem := by
        rw [← char]
        exact .bind (.asks _ _) (.ite_neg ne (.bind (.check (show u.length + 1 < 2 ^ 31 by omega)) (.pure _ _)))
      have result : (((strrchr c v).map fun i => p + BitVec.ofNat 32 (u.length + 1 + i)).or
          (if b = c then some (p + BitVec.ofNat 32 u.length) else last)) =
          ((strrchr c (b :: v)).map fun i => p + BitVec.ofNat 32 (u.length + i)).or last := by
        rw [strrchr]
        cases strrchr c v with
        | some i =>
          rw [Option.map_some, Option.map_some, Nat.add_assoc, Nat.add_comm 1]
          rfl
        | none =>
          by_cases found : b = c
          · rw [if_pos found]
            dsimp only
            rw [if_pos found]
            rfl
          · rw [if_neg found]
            dsimp only
            rw [if_neg found]
            rfl
      rw [← result]
      exact .turn turn rest
  have run := scan s [] none rfl
  rw [List.length_nil, Option.or_none] at run
  simp only [Nat.zero_add] at run
  exact run

/-- The constants, and a path that is none of them. -/
structure Apart (dotAt slashAt path : BitVec 32) (s : Str) (mem : Memory) : Prop where
  dot : StringAt mem dotAt [dot]
  slash : StringAt mem slashAt [slash]
  dotApart : ∀ i ≤ 1, ∀ k < s.length, dotAt + BitVec.ofNat 32 i ≠ path + BitVec.ofNat 32 k
  slashApart : ∀ i ≤ 1, ∀ k < s.length, slashAt + BitVec.ofNat 32 i ≠ path + BitVec.ofNat 32 k

/-- A string whose bytes did not change. -/
lemma StringAt.frame (h : StringAt mem p t) (same : ∀ i ≤ t.length, mem' (p + BitVec.ofNat 32 i) = mem (p + BitVec.ofNat 32 i)) :
    StringAt mem' p t where
  chars i hi := (same i (Nat.le_of_lt hi)).trans (h.chars i hi)
  nul := (same _ (Nat.le_refl _)).trans h.nul
  proper := h.proper

/-- The constants are as they were. -/
lemma Apart.frame {dotAt slashAt path : BitVec 32} (h : Apart dotAt slashAt path s mem)
    (same : ∀ a, (∀ k < s.length, a ≠ path + BitVec.ofNat 32 k) → mem' a = mem a) : Apart dotAt slashAt path s mem' where
  dot := h.dot.frame fun i hi => same _ (h.dotApart i hi)
  slash := h.slash.frame fun i hi => same _ (h.slashApart i hi)
  dotApart := h.dotApart
  slashApart := h.slashApart

/-- The edits of the path leave the string that the function on strings gives. -/
theorem basedirname_returns {dotAt slashAt path : BitVec 32} (d : Bool) (h : StringAt mem path s)
    (apart : Apart dotAt slashAt path s mem) (short : s.length < 2 ^ 31) :
    ∃ r mem', Returns (basedirnameAt dotAt slashAt path d) mem r mem' ∧ StringAt mem' r (basedirname s d) ∧
      ∀ a, (∀ k < s.length, a ≠ path + BitVec.ofNat 32 k) → mem' a = mem a := by
  obtain ⟨mem1, strip, stripped, frame⟩ := strip_returns h short
  have len := length_stripSlashes s
  have apart1 := apart.frame frame
  have search := strrchrAt_returns slash stripped (Nat.lt_of_le_of_lt len short)
  have start {f : Option (BitVec 32) → Prog Fault Memory (BitVec 32)} {r : BitVec 32} {mem' : Memory}
      (rest : Returns (f ((strrchr slash (stripSlashes s)).map fun i => path + BitVec.ofNat 32 i)) mem1 r mem') :
      Returns (strlenAt path >>= fun plen => loop (stripBody path) plen >>= fun _ => strrchrAt path slash >>= f) mem r mem' :=
    .bind (strlenAt_returns h short) (.bind strip (.bind search rest))
  rw [basedirnameAt]
  by_cases none : slash ∉ stripSlashes s
  · rw [strrchr_none none] at start
    rw [basedirname_name d rfl none]
    cases d with
    | true => exact ⟨dotAt, mem1, start (.pure _ _), apart1.dot, frame⟩
    | false => exact ⟨path, mem1, start (.pure _ _), stripped, frame⟩
  obtain ⟨whole, proper, nil | ⟨u, last⟩⟩ := parts (stripSlashes s)
  · rw [nil, List.nil_append] at whole
    rw [whole] at none
    exact absurd proper none
  generalize namePart (stripSlashes s) = v at whole proper
  rw [last, List.append_assoc] at whole
  have whole : stripSlashes s = u ++ slash :: v := whole
  rw [whole, strrchr_last u proper] at start
  rw [whole] at stripped len
  by_cases root : u = []
  · subst root
    rw [basedirname_root d whole proper]
    have here : path + BitVec.ofNat 32 ([] : Str).length = path := BitVec.add_zero path
    cases d with
    | true => exact ⟨slashAt, mem1, start (.ite_pos here (.pure _ _)), apart1.slash, frame⟩
    | false => exact ⟨path + 1, mem1, start (.ite_pos here (.pure _ _)), stripped.tail, frame⟩
  · rw [basedirname_dir d whole root proper]
    have some : u.length ≠ 0 := fun zero => root (List.length_eq_zero_iff.mp zero)
    rw [List.length_append, List.length_cons] at len
    have there : ¬path + BitVec.ofNat 32 u.length = path := by
      have ne := @address_ne path u.length 0 (by omega) (by decide) some
      rwa [BitVec.add_zero] at ne
    obtain ⟨dir, name⟩ := stripped.cut (by rw [List.length_append, List.length_cons]; omega)
    have frame2 : ∀ a, (∀ k < s.length, a ≠ path + BitVec.ofNat 32 k) →
        Function.update mem1 (path + BitVec.ofNat 32 u.length) 0 a = mem a := by
      intro a outside
      rw [Function.update_of_ne (outside _ (by omega)), frame a outside]
    cases d with
    | true => exact ⟨path, _, start (.ite_neg there (.bind (.update _ _) (.pure _ _))), dir, frame2⟩
    | false => exact ⟨_, _, start (.ite_neg there (.bind (.update _ _) (.pure _ _))), name, frame2⟩

/-- Both functions return what POSIX specifies. -/
def Posix (dotAt slashAt path : BitVec 32) (mem : Memory) (s : Str) : Prop :=
  (∃ r mem', Returns (dirnameAt dotAt slashAt path) mem r mem' ∧ StringAt mem' r (posixDirname s)) ∧
    ∃ r mem', Returns (basenameAt dotAt slashAt path) mem r mem' ∧ StringAt mem' r (posixBasename s)

/-- The paths for which both functions are right: those with a component, before which there are no two slashes, except
    for those that a path may begin with. -/
theorem path_iff {dotAt slashAt path : BitVec 32} (h : StringAt mem path s) (apart : Apart dotAt slashAt path s mem) :
    Posix dotAt slashAt path mem s ↔ s.length < 2 ^ 31 ∧ (∃ c ∈ s, c ≠ slash) ∧
      ([slash, slash] <:+ dirPart (stripSlashes s) → dirPart (stripSlashes s) = [slash, slash]) := by
  have char : (∃ c ∈ s, c ≠ slash) ↔ ¬∀ c ∈ s, c = slash := by
    rw [not_forall]
    exact exists_congr fun c => Classical.not_imp.symm
  rw [char]
  constructor
  · rintro ⟨⟨r, mem1, dir, right⟩, ⟨r', mem2, base, right'⟩⟩
    have short : s.length < 2 ^ 31 := by
      by_contra long
      exact ((strlenAt_raises h (Nat.not_lt.mp long)).first).not_returns dir
    obtain ⟨_, _, dir', string, -⟩ := basedirname_returns true h apart short
    obtain ⟨_, _, base', string', -⟩ := basedirname_returns false h apart short
    obtain ⟨rfl, rfl⟩ := dir.unique dir'
    obtain ⟨rfl, rfl⟩ := base.unique base'
    have char := basename_posix.mp (string'.unique right')
    exact ⟨short, char, (dirname_posix char).mp (string.unique right)⟩
  · rintro ⟨short, char, slashes⟩
    obtain ⟨r, mem1, dir, string, -⟩ := basedirname_returns true h apart short
    obtain ⟨r', mem2, base, string', -⟩ := basedirname_returns false h apart short
    refine ⟨⟨r, mem1, dir, ?_⟩, ⟨r', mem2, base, ?_⟩⟩
    · rw [← (dirname_posix char).mpr slashes]
      exact string
    · rw [← basename_posix.mpr char]
      exact string'

end InMemory

/-- A path at an address, and the constants at others. -/
def pathMemory (path : Str) : Memory := fun a =>
  if a = 0x2000 then dot
  else if a = 0x2010 then slash
  else path.getD (a - 0x1000).toNat 0

/-- A relative path. -/
theorem path_relative : Posix 0x2000 0x2010 0x1000 (pathMemory [0x61, 0x2f, 0x62, 0x2f]) [0x61, 0x2f, 0x62, 0x2f] :=
  (path_iff ⟨by decide, by decide, by decide⟩ ⟨⟨by decide, by decide, by decide⟩, ⟨by decide, by decide, by decide⟩, by decide,
    by decide⟩).mpr ⟨by decide, ⟨0x61, by decide, by decide⟩, by decide⟩

/-- The directory of `a//b` is `a/`, and the root has neither the directory nor the base that it should have. -/
theorem path_slashes : (∃ r mem', Returns (dirnameAt 0x2000 0x2010 0x1000) (pathMemory [0x61, 0x2f, 0x2f, 0x62]) r mem' ∧
      StringAt mem' r [0x61, 0x2f]) ∧
    ¬Posix 0x2000 0x2010 0x1000 (pathMemory [0x61, 0x2f, 0x2f, 0x62]) [0x61, 0x2f, 0x2f, 0x62] ∧
    ¬Posix 0x2000 0x2010 0x1000 (pathMemory [0x2f]) [0x2f] := by
  have double : StringAt (pathMemory [0x61, 0x2f, 0x2f, 0x62]) 0x1000 [0x61, 0x2f, 0x2f, 0x62] :=
    ⟨by decide, by decide, by decide⟩
  have apart : Apart 0x2000 0x2010 0x1000 [0x61, 0x2f, 0x2f, 0x62] (pathMemory [0x61, 0x2f, 0x2f, 0x62]) :=
    ⟨⟨by decide, by decide, by decide⟩, ⟨by decide, by decide, by decide⟩, by decide, by decide⟩
  have root : StringAt (pathMemory [0x2f]) 0x1000 [0x2f] := ⟨by decide, by decide, by decide⟩
  have apart' : Apart 0x2000 0x2010 0x1000 [0x2f] (pathMemory [0x2f]) :=
    ⟨⟨by decide, by decide, by decide⟩, ⟨by decide, by decide, by decide⟩, by decide, by decide⟩
  obtain ⟨r, mem, dir, string, -⟩ := basedirname_returns true double apart (by decide)
  refine ⟨⟨r, mem, dir, string⟩, ?_, ?_⟩
  · rintro ⟨⟨_, _, dir', right⟩, -⟩
    obtain ⟨rfl, rfl⟩ := dir.unique dir'
    exact absurd (string.unique right) (by decide)
  · rintro ⟨-, _, _, base', right⟩
    obtain ⟨_, _, base, string, -⟩ := basedirname_returns false root apart' (by decide)
    obtain ⟨rfl, rfl⟩ := base.unique base'
    exact absurd (string.unique right) (by decide)

end Twcos.Text
