import Twcos.Tarfs.Device
import Twcos.Text.Stream
import Mathlib.Data.List.TakeWhile

/-!
# Full names

`tarfs_fullname` of `fs/tarfs/tarfs.c` puts the prefix and the name of a header together. A field that is full has no NUL
behind it, and `snprintf` reads on from it into the fields that follow; moreover it is given one byte less than the block
has, and puts a NUL only if the text is shorter than that. `fullname_iff` says for which headers the name is right, and
`fullname_string` that what `tarfsFullname` says of a header is the string in the block.

The block may hold anything when `malloc` returns it.
-/

namespace Twcos.Tarfs
open Twcos.Prog Twcos.Text

/-- `"%s/%s"`. -/
def fullnameFormat (i : Nat) : Byte := [0x25, 0x73, 0x2f, 0x25, 0x73].getD i 0

/-- `strndup`, with what `malloc` has returned. -/
def strndup (mem : Memory) (ret s len : BitVec 32) : Memory :=
  memcpy (Function.update mem (ret + len) 0) ret s len

/-- `tarfs_fullname`, for the header at `h`, with what `malloc` has returned. -/
def fullname (near : BitVec 32 → Byte) (h ret : BitVec 32) : Prog Text.Fault Memory (BitVec 32) := do
  let c ← asks fun mem => mem (h + 345)
  if c ≠ 0 then do
    let _ ← snprintf near ret 255 fullnameFormat fun i => if i = 0 then h + 345 else h
    return ret
  else do
    update fun mem => strndup mem ret h 100
    return ret

/-- The header in memory. -/
def header (mem : Memory) (h : BitVec 32) : Block := fun i => mem (h + BitVec.ofNat 32 i)

/-- The text of a field, which has no NUL behind it if the field is full. -/
def fieldText (b : Block) (offset size : Nat) : Str := (field b offset size).takeWhile (· ≠ 0)

/-- The full name of a file: the prefix and the name, or just the name. -/
def joined (b : Block) : Str :=
  if b 345 ≠ 0 then fieldText b 345 155 ++ slash :: fieldText b 0 100 else fieldText b 0 100

/-- The size of the block that is allocated for it. -/
def allocated (b : Block) : Nat := if b 345 ≠ 0 then 256 else 101

/-- Whatever the block holds that is allocated, the full name is returned in it, and nothing else is changed. -/
def FullnameOk (near : BitVec 32 → Byte) (mem : Memory) (h ret : BitVec 32) : Prop :=
  ∀ mem', (∀ a, allocated (header mem h) ≤ (a - ret).toNat → mem' a = mem a) →
    ∃ mem'', Returns (fullname near h ret) mem' ret mem'' ∧
      StringAt mem'' ret (joined (header mem h)) ∧ (joined (header mem h)).length < allocated (header mem h) ∧
      ∀ a, allocated (header mem h) ≤ (a - ret).toNat → mem'' a = mem a

/-- There is no prefix. Or neither field is full, or what follows it is a NUL, and the full name is shorter than 255. -/
def FullnameFits (b : Block) : Prop :=
  b 345 = 0 ∨ ((fieldText b 345 155).length < 155 ∨ b 500 = 0) ∧ ((fieldText b 0 100).length < 100 ∨ b 100 = 0) ∧
    (fieldText b 345 155).length + 1 + (fieldText b 0 100).length < 255

/-! ### Fields -/

section Fields
variable {b : Block} {offset size : Nat}

/-- A prefix without NUL that is not everything ends at a NUL. -/
lemma takeWhile_stop {l : Str} (h : (l.takeWhile (· ≠ 0)).length < l.length) : l[(l.takeWhile (· ≠ 0)).length] = 0 := by
  induction l with
  | nil => exact absurd h (Nat.not_lt_zero _)
  | cons c l ih =>
    by_cases nul : c = 0
    · subst nul
      rfl
    · have go : (c :: l).takeWhile (· ≠ 0) = c :: l.takeWhile (· ≠ 0) := List.takeWhile_cons_of_pos (by simpa using nul)
      simp only [go, List.length_cons] at h ⊢
      exact ih (Nat.lt_of_succ_lt_succ h)

/-- A field has as many bytes as it says. -/
lemma length_field : (field b offset size).length = size := by
  rw [field, List.length_map, List.length_range]

/-- The text of a field is not longer than the field. -/
lemma length_fieldText : (fieldText b offset size).length ≤ size := by
  have le := ( List.takeWhile_prefix (· ≠ (0 : Byte)) (l := field b offset size)).length_le
  rwa [length_field] at le

/-- The characters of the text are those of the field. -/
lemma fieldText_char {i : Nat} (hi : i < (fieldText b offset size).length) : (fieldText b offset size)[i] = b (offset + i) := by
  have char := ( List.takeWhile_prefix (· ≠ (0 : Byte)) (l := field b offset size)).getElem hi
  refine char.trans ?_
  simp only [field, List.getElem_map, List.getElem_range]

/-- The text of a field has no NUL. -/
lemma fieldText_proper : 0 ∉ fieldText b offset size := by
  intro mem
  exact absurd (List.mem_takeWhile_imp mem) (by decide)

/-- The text of a field ends at a NUL, if it is shorter than the field. -/
lemma fieldText_stop (h : (fieldText b offset size).length < size) : b (offset + (fieldText b offset size).length) = 0 := by
  have stop := takeWhile_stop (l := field b offset size) (by rw [length_field]; exact h)
  simp only [field, List.getElem_map, List.getElem_range] at stop
  exact stop

/-- A field with a NUL behind it is a string. -/
lemma stringAt_field {mem : Memory} {h : BitVec 32} (same : ∀ i < 512, mem (h + BitVec.ofNat 32 i) = b i)
    (inside : offset + (fieldText b offset size).length < 512) (nul : (fieldText b offset size).length < size ∨ b (offset + size) = 0) :
    StringAt mem (h + BitVec.ofNat 32 offset) (fieldText b offset size) := by
  have le := @length_fieldText b offset size
  have address (i : Nat) : h + BitVec.ofNat 32 offset + BitVec.ofNat 32 i = h + BitVec.ofNat 32 (offset + i) := by
    rw [BitVec.add_assoc, BitVec.ofNat_add]
  constructor
  · intro i hi
    rw [address, same _ (by omega), fieldText_char hi]
  · rw [address, same _ (by omega)]
    rcases Nat.lt_or_ge (fieldText b offset size).length size with short | full
    · exact fieldText_stop short
    · have length : (fieldText b offset size).length = size := Nat.le_antisymm le full
      rcases nul with short | nul
      · omega
      · rwa [length]
  · exact fieldText_proper

/-- How many characters follow each other for certain. -/
def stretch (b : Block) (offset size : Nat) : Nat :=
  if (fieldText b offset size).length < size ∨ b (offset + size) = 0 then (fieldText b offset size).length
  else (fieldText b offset size).length + 1

/-- The text is part of what is read. -/
lemma length_le_stretch : (fieldText b offset size).length ≤ stretch b offset size := by
  rw [stretch]
  split <;> omega

/-- What is read is at most one byte longer than the field. -/
lemma stretch_le : stretch b offset size ≤ size + 1 := by
  have le := @length_fieldText b offset size
  rw [stretch]
  split <;> omega

/-- What is read has no NUL. -/
lemma stretch_char {i : Nat} (hi : i < stretch b offset size) : b (offset + i) ≠ 0 := by
  have char {i : Nat} (hi : i < (fieldText b offset size).length) : b (offset + i) ≠ 0 := by
    rw [← fieldText_char hi]
    intro nul
    exact fieldText_proper (nul ▸ List.getElem_mem hi)
  rw [stretch] at hi
  split at hi
  · exact char hi
  · next full =>
    have le := @length_fieldText b offset size
    rcases Nat.lt_or_ge i (fieldText b offset size).length with inside | behind
    · exact char inside
    · have last : i = size := by omega
      rw [last]
      exact fun nul => full (.inr nul)

end Fields

/-! ### The text of two strings -/

section Print
variable {near : BitVec 32 → Byte} {mem : Memory} {ret p q : BitVec 32} {s t : Str}

/-- The two strings that are printed. -/
def two (p q : BitVec 32) (i : Nat) : BitVec 32 := if i = 0 then p else q

/-- What `snprintf` writes: the two parts of the name with a slash between them. -/
lemma snprintf_returns (hs : StringAt mem p s) (ht : StringAt mem q t)
    (apart_s : ∀ i ≤ s.length, (255 : Int) ≤ ((p + BitVec.ofNat 32 i - ret).toNat : Int))
    (apart_t : ∀ i ≤ t.length, (255 : Int) ≤ ((q + BitVec.ofNat 32 i - ret).toNat : Int))
    (len : (s ++ slash :: t).length < 2 ^ 31) :
    Returns (snprintf near ret 255 fullnameFormat (two p q)) mem (s ++ slash :: t).length
      (printed mem ret 255 (s ++ slash :: t)) := by
  have sum : (s ++ slash :: t).length = s.length + (t.length + 1) := List.length_append
  have first : Returns (vprintfBody stringStream near 0 fullnameFormat (two p q) (0, 0)) (written mem ret 255 [])
      (.inl (2, 1)) (written mem ret 255 s) := by
    rw [vprintfBody_string rfl rfl]
    exact .bind (streamPutstr_returns hs apart_s (show 0 + s.length < 2 ^ 31 by omega)) (.pure _ _)
  have second : Returns (vprintfBody stringStream near 0 fullnameFormat (two p q) (2, 1)) (written mem ret 255 s)
      (.inl (3, 1)) (written mem ret 255 (s ++ [slash])) := by
    rw [vprintfBody_plain (by decide) (by decide)]
    exact .bind (stringPutc_returns (by omega)) (.pure _ _)
  have third : Returns (vprintfBody stringStream near 0 fullnameFormat (two p q) (3, 1))
      (written mem ret 255 (s ++ [slash])) (.inl (5, 2)) (written mem ret 255 (s ++ [slash] ++ t)) := by
    rw [vprintfBody_string rfl rfl]
    refine .bind (streamPutstr_returns ht apart_t ?_) (.pure _ _)
    rw [List.length_append, List.length_singleton]
    omega
  have last : Returns (vprintfBody stringStream near 0 fullnameFormat (two p q) (5, 2))
      (written mem ret 255 (s ++ [slash] ++ t)) (.inr ()) (written mem ret 255 (s ++ [slash] ++ t)) := by
    rw [vprintfBody_end rfl]
    exact .pure _ _
  rw [List.append_assoc] at third last
  have walk : Returns (loop (vprintfBody stringStream near 0 fullnameFormat (two p q)) (0, 0)) (written mem ret 255 []) ()
      (written mem ret 255 (s ++ slash :: t)) :=
    .turn first (.turn second (.turn third (.exit last)))
  have body : Returns (streamVprintf stringStream near fullnameFormat (two p q)) (written mem ret 255 [])
      (((s ++ slash :: t).length : Int) - 0) (written mem ret 255 (s ++ slash :: t)) :=
    .bind (.asks _ _) (.bind walk (.bind (.asks _ _) (.pure _ _)))
  rw [Int.sub_zero] at body
  exact vsnprintf_returns body

/-- Whatever strings are printed, they have the characters outside of the block that are there. -/
lemma snprintf_result {k l n : Nat} {r : Int} {mem' : Memory}
    (h : snprintf near ret 255 fullnameFormat (two p q) n mem = .ok (r, mem'))
    (apart_s : ∀ i < k, (255 : Int) ≤ ((p + BitVec.ofNat 32 i - ret).toNat : Int))
    (apart_t : ∀ i < l, (255 : Int) ≤ ((q + BitVec.ofNat 32 i - ret).toNat : Int))
    (chars_s : ∀ i < k, mem (p + BitVec.ofNat 32 i) ≠ 0) (chars_t : ∀ i < l, mem (q + BitVec.ofNat 32 i) ≠ 0) :
    ∃ text, mem' = printed mem ret 255 text ∧ text.length < 2 ^ 31 ∧ 0 ∉ text ∧ k + 1 + l ≤ text.length := by
  obtain ⟨count, s', body, final⟩ := vsnprintf_result h
  obtain ⟨start, s1, started, body⟩ := bind_result body
  cases started
  obtain ⟨_, s2, walk, body⟩ := bind_result body
  cases body
  obtain ⟨m1, s3, first, walk⟩ := vprintf_string rfl rfl walk
  obtain ⟨s, rfl, len1, proper_s, long_s⟩ := streamPutstr_result first (by decide) apart_s chars_s
  rw [List.nil_append] at walk len1
  obtain ⟨m2, s4, second, walk⟩ := vprintf_plain (by decide) (by decide) walk
  obtain ⟨rfl, len2⟩ := stringPutc_result second len1
  obtain ⟨m3, s5, third, walk⟩ := vprintf_string rfl rfl walk
  obtain ⟨t, rfl, len3, proper_t, long_t⟩ := streamPutstr_result third
    (by rw [List.length_append, List.length_singleton]; exact len2) apart_t chars_t
  obtain rfl := vprintf_end rfl walk
  refine ⟨_, final _ (Int.sub_zero _) rfl, len3, ?_, ?_⟩
  · intro nul
    rcases List.mem_append.mp nul with nul | nul
    · rcases List.mem_append.mp nul with nul | nul
      · exact proper_s nul
      · exact absurd (List.mem_singleton.mp nul) (by decide)
    · exact proper_t nul
  · rw [List.length_append, List.length_append, List.length_singleton]
    omega

end Print

/-! ### The full name -/

section Fullname
variable {near : BitVec 32 → Byte} {mem mem' : Memory} {h ret : BitVec 32}

/-- The header is not part of what is allocated. -/
def Apart (mem : Memory) (h ret : BitVec 32) : Prop :=
  ∀ i < 512, allocated (header mem h) ≤ (h + BitVec.ofNat 32 i - ret).toNat

/-- The header is the same where nothing was written. -/
lemma header_same (apart : Apart mem h ret) (outside : ∀ a, allocated (header mem h) ≤ (a - ret).toNat → mem' a = mem a)
    (i : Nat) (hi : i < 512) : mem' (h + BitVec.ofNat 32 i) = header mem h i := outside _ (apart i hi)

/-- The characters that `strndup` copies. -/
lemma strndup_char {s : BitVec 32} {n i : Nat} (hn : n < 2 ^ 32) (hi : i < n)
    (apart : n < (s + BitVec.ofNat 32 i - ret).toNat) :
    strndup mem ret s (BitVec.ofNat 32 n) (ret + BitVec.ofNat 32 i) = mem (s + BitVec.ofNat 32 i) := by
  rw [strndup, memcpy, if_pos, Function.update_of_ne, add_sub_base]
  · intro here
    rw [add_sub_base] at here
    rw [here, add_sub_base, BitVec.toNat_ofNat] at apart
    omega
  · rw [add_sub_base, BitVec.lt_def, BitVec.toNat_ofNat, BitVec.toNat_ofNat]
    omega

/-- `strndup` adds a NUL. -/
lemma strndup_nul (s len : BitVec 32) : strndup mem ret s len (ret + len) = 0 := by
  rw [strndup, memcpy, if_neg]
  · exact Function.update_self _ _ _
  · rw [add_sub_base]
    exact BitVec.lt_irrefl _

/-- `strndup` writes nothing else. -/
lemma strndup_outside {s len a : BitVec 32} (out : len.toNat < (a - ret).toNat) :
    strndup mem ret s len a = mem a := by
  rw [strndup, memcpy, if_neg, Function.update_of_ne]
  · rintro rfl
    rw [add_sub_base] at out
    exact Nat.lt_irrefl _ out
  · rw [BitVec.lt_def]
    omega

/-- Without a prefix the name is copied. -/
lemma fullname_name (empty : header mem h 345 = 0) (apart : Apart mem h ret) : FullnameOk near mem h ret := by
  intro mem' outside
  have same := header_same apart outside
  have size : allocated (header mem h) = 101 := if_neg fun some => some empty
  have name : joined (header mem h) = fieldText (header mem h) 0 100 := if_neg fun some => some empty
  have le := @length_fieldText (header mem h) 0 100
  have copied {i : Nat} (hi : i < 100) : strndup mem' ret h 100 (ret + BitVec.ofNat 32 i) = header mem h i := by
    have far := apart i (by omega)
    rw [size] at far
    rw [← same i (by omega)]
    exact strndup_char (by decide) hi far
  rw [size] at outside
  rw [size, name]
  refine ⟨strndup mem' ret h 100, ?_, ⟨?_, ?_, fieldText_proper⟩, by omega, ?_⟩
  · have read : ¬mem' (h + 345) ≠ 0 := by
      have zero := same 345 (by decide)
      rw [empty] at zero
      exact fun ne => ne zero
    exact .bind (.asks _ _) (.ite_neg read (.bind (.update _ _) (.pure _ _)))
  · intro i hi
    rw [copied (by omega), fieldText_char hi, Nat.zero_add]
  · rcases Nat.lt_or_ge (fieldText (header mem h) 0 100).length 100 with short | full
    · rw [copied short]
      have stop := fieldText_stop short
      rwa [Nat.zero_add] at stop
    · rw [Nat.le_antisymm le full]
      exact strndup_nul _ _
  · intro a ha
    have out : (100 : BitVec 32).toNat < (a - ret).toNat := ha
    rw [strndup_outside out, outside a ha]

/-- With a prefix, two strings that are short are put together. -/
lemma fullname_strings {s t : Str} (some : header mem h 345 ≠ 0) (apart : Apart mem h ret)
    (outside : ∀ a, allocated (header mem h) ≤ (a - ret).toNat → mem' a = mem a)
    (hs : StringAt mem' (h + 345) s) (ht : StringAt mem' h t) (inside_s : 345 + s.length < 512)
    (inside_t : t.length < 512) (short : (s ++ slash :: t).length < 255) :
    ∃ mem'', Returns (fullname near h ret) mem' ret mem'' ∧ StringAt mem'' ret (s ++ slash :: t) ∧
      ∀ a, allocated (header mem h) ≤ (a - ret).toNat → mem'' a = mem a := by
  have same := header_same apart outside
  have size : allocated (header mem h) = 256 := if_pos some
  rw [Apart, size] at apart
  rw [size] at outside ⊢
  have far_s (i : Nat) (hi : i ≤ s.length) : (255 : Int) ≤ ((h + 345 + BitVec.ofNat 32 i - ret).toNat : Int) := by
    have le := apart (345 + i) (by omega)
    rw [BitVec.ofNat_add, ← BitVec.add_assoc] at le
    exact Int.ofNat_le.mpr (Nat.le_trans (by decide) le)
  have far_t (i : Nat) (hi : i ≤ t.length) : (255 : Int) ≤ ((h + BitVec.ofNat 32 i - ret).toNat : Int) := by
    have le := apart i (by omega)
    omega
  have run := @snprintf_returns near _ ret _ _ _ _ hs ht far_s far_t (by omega)
  have proper : 0 ∉ s ++ slash :: t := by
    intro nul
    rcases List.mem_append.mp nul with nul | nul
    · exact hs.proper nul
    · rcases List.mem_cons.mp nul with nul | nul
      · exact absurd nul (by decide)
      · exact ht.proper nul
  refine ⟨printed mem' ret 255 (s ++ slash :: t), ?_, printed_string (by omega) (by omega) proper, ?_⟩
  · have read : mem' (h + 345) ≠ 0 := by
      have byte := same 345 (by decide)
      exact fun nul => some (byte ▸ nul)
    exact .bind (.asks _ _) (.ite_pos read (.bind run (.pure _ _)))
  · intro a ha
    rw [printed_outside (by omega), outside a ha]

/-- With a prefix, the full name is right if neither field goes on in the next one. -/
lemma fullname_fields (some : header mem h 345 ≠ 0) (apart : Apart mem h ret)
    (nul_s : (fieldText (header mem h) 345 155).length < 155 ∨ header mem h 500 = 0)
    (nul_t : (fieldText (header mem h) 0 100).length < 100 ∨ header mem h 100 = 0)
    (short : (fieldText (header mem h) 345 155).length + 1 + (fieldText (header mem h) 0 100).length < 255) :
    FullnameOk near mem h ret := by
  intro mem' outside
  have same := header_same apart outside
  have size : allocated (header mem h) = 256 := if_pos some
  have le_s := @length_fieldText (header mem h) 345 155
  have le_t := @length_fieldText (header mem h) 0 100
  have hs := stringAt_field same (by omega) nul_s
  have ht := stringAt_field same (by omega) nul_t
  rw [BitVec.add_zero] at ht
  have length : (fieldText (header mem h) 345 155 ++ slash :: fieldText (header mem h) 0 100).length < 255 := by
    rw [List.length_append, List.length_cons]
    omega
  obtain ⟨mem'', run, string, kept⟩ := @fullname_strings near mem mem' h ret _ _ some apart outside hs ht (by omega)
    (by omega) length
  rw [joined, if_pos some]
  exact ⟨mem'', run, string, by omega, kept⟩

/-- With a prefix, a text is printed that is at least as long as the fields are for certain. -/
lemma fullname_printed {mem'' : Memory} (some : header mem h 345 ≠ 0) (apart : Apart mem h ret)
    (outside : ∀ a, allocated (header mem h) ≤ (a - ret).toNat → mem' a = mem a)
    (run : Returns (fullname near h ret) mem' ret mem'') :
    ∃ text, mem'' = printed mem' ret 255 text ∧ text.length < 2 ^ 31 ∧ 0 ∉ text ∧
      stretch (header mem h) 345 155 + 1 + stretch (header mem h) 0 100 ≤ text.length := by
  have same := header_same apart outside
  have size : allocated (header mem h) = 256 := if_pos some
  rw [Apart, size] at apart
  obtain ⟨n, run⟩ := run.result
  obtain ⟨c, s1, read, run⟩ := bind_result run
  cases read
  have first : mem' (h + 345) ≠ 0 := by
    have byte := same 345 (by decide)
    exact fun nul => some (byte ▸ nul)
  rw [if_pos first] at run
  obtain ⟨r, s2, print, run⟩ := bind_result run
  cases run
  have far (o i : Nat) (hi : o + i < 512) :
      (255 : Int) ≤ ((h + BitVec.ofNat 32 o + BitVec.ofNat 32 i - ret).toNat : Int) := by
    have le := apart (o + i) hi
    rw [BitVec.add_assoc, ← BitVec.ofNat_add]
    omega
  have char (o size : Nat) (inside : o + size < 512) (i : Nat) (hi : i < stretch (header mem h) o size) :
      mem' (h + BitVec.ofNat 32 o + BitVec.ofNat 32 i) ≠ 0 := by
    have le := @stretch_le (header mem h) o size
    rw [BitVec.add_assoc, ← BitVec.ofNat_add, same (o + i) (by omega)]
    exact stretch_char hi
  have le_s := @stretch_le (header mem h) 345 155
  have le_t := @stretch_le (header mem h) 0 100
  have far_t := far 0
  have char_t := char 0 100 (by decide)
  have start : h + BitVec.ofNat 32 0 = h := BitVec.add_zero h
  rw [start] at far_t char_t
  exact snprintf_result print (fun i hi => far 345 i (by omega)) (fun i hi => far_t i (by omega))
    (char 345 155 (by decide)) char_t

/-- With a prefix, the full name ends in a NUL only if that has been put. -/
lemma fits_of_fullname (some : header mem h 345 ≠ 0) (apart : Apart mem h ret) (ok : FullnameOk near mem h ret) :
    FullnameFits (header mem h) := by
  have size : allocated (header mem h) = 256 := if_pos some
  have full : (joined (header mem h)).length =
      (fieldText (header mem h) 345 155).length + 1 + (fieldText (header mem h) 0 100).length := by
    rw [joined, if_pos some, List.length_append, List.length_cons]
    omega
  -- a block that is full of ones
  obtain ⟨mem', ones, outside⟩ : ∃ mem' : Memory, (∀ a, (a - ret).toNat < 256 → mem' a = 1) ∧
      ∀ a, allocated (header mem h) ≤ (a - ret).toNat → mem' a = mem a := by
    rw [size]
    refine ⟨fun a => if (a - ret).toNat < 256 then 1 else mem a, fun a ha => ?_, fun a ha => ?_⟩
    · exact if_pos ha
    · exact if_neg (Nat.not_lt.mpr ha)
  obtain ⟨mem'', run, string, within, -⟩ := ok mem' outside
  obtain ⟨text, final, lt, proper, long⟩ := fullname_printed some apart outside run
  rw [final] at string
  have more_s := @length_le_stretch (header mem h) 345 155
  have more_t := @length_le_stretch (header mem h) 0 100
  rw [size] at within
  have nul := string.nul
  have index : (ret + BitVec.ofNat 32 (joined (header mem h)).length - ret).toNat = (joined (header mem h)).length := by
    rw [add_sub_base, BitVec.toNat_ofNat]
    omega
  -- the NUL is in the 255 bytes that are written
  have short : (joined (header mem h)).length < 255 := by
    by_contra last
    rw [printed_outside (by omega), ones _ (by omega)] at nul
    exact absurd nul (by decide)
  have length : text.length = (joined (header mem h)).length := by
    by_contra ne
    have inside : (joined (header mem h)).length < text.length := by omega
    rw [printed_char inside (by omega) (by omega)] at nul
    exact proper (nul ▸ List.getElem_mem inside)
  refine .inr ⟨?_, ?_, by omega⟩
  · by_contra filled
    have longer : stretch (header mem h) 345 155 = (fieldText (header mem h) 345 155).length + 1 := if_neg filled
    omega
  · by_contra filled
    have longer : stretch (header mem h) 0 100 = (fieldText (header mem h) 0 100).length + 1 := if_neg filled
    omega

end Fullname

/-- For which headers the full name is right. -/
theorem fullname_iff (near : BitVec 32 → Byte) {mem : Memory} {h ret : BitVec 32} (apart : Apart mem h ret) :
    FullnameOk near mem h ret ↔ FullnameFits (header mem h) := by
  by_cases empty : header mem h 345 = 0
  · exact iff_of_true (fullname_name empty apart) (.inl empty)
  · constructor
    · exact fits_of_fullname empty apart
    · rintro (zero | ⟨nul_s, nul_t, short⟩)
      · exact absurd zero empty
      · exact fullname_fields empty apart nul_s nul_t short

/-- A header at 0x1000 with a prefix and a name of one character each. -/
def shortNames : Memory := fun a => if a = 0x1000 then 0x61 else if a = 0x1159 then 0x75 else 0

/-- One with the longest prefix and the longest name. -/
def longNames : Memory := fun a => if a - 0x1000 < 100 then 0x61 else if a - 0x1159 < 155 then 0x75 else 0

/-- A header and a buffer in different pages. -/
lemma apart_page {mem : Memory} : Apart mem 0x1000 0x2000 := by
  intro i hi
  have size : allocated (header mem 0x1000) ≤ 256 := by
    rw [allocated]
    split <;> omega
  have page : (0x1000 : BitVec 32).toNat = 0x1000 := rfl
  have next : (0x2000 : BitVec 32).toNat = 0x2000 := rfl
  rw [BitVec.toNat_sub, BitVec.toNat_add, BitVec.toNat_ofNat, page, next]
  omega

/-- A name that fits. -/
theorem fullname_short : FullnameOk (fun _ => 0) shortNames 0x1000 0x2000 :=
  (fullname_iff (fun _ => 0) apart_page).mpr (.inr ⟨by decide +kernel, by decide +kernel, by decide +kernel⟩)

/-- The longest full name of 256 characters has no NUL in its block of 256 bytes. -/
theorem fullname_long : (joined (header longNames 0x1000)).length = 256 ∧ allocated (header longNames 0x1000) = 256 ∧
    ¬FullnameOk (fun _ => 0) longNames 0x1000 0x2000 := by
  refine ⟨by decide +kernel, by decide +kernel, fun ok => ?_⟩
  rcases fits_of_fullname (by decide) apart_page ok with empty | ⟨-, -, short⟩
  · exact absurd empty (by decide)
  · exact absurd short (by decide +kernel)

/-! ### What the header tells -/

/-- A string of the header is one in memory. -/
lemma stringAt_cstring {mem : Memory} {h : BitVec 32} {b : Block} {offset : Nat} {s : Str}
    (same : ∀ i < 512, mem (h + BitVec.ofNat 32 i) = b i) (le : offset ≤ 512) (hs : cstring b offset = some s) :
    StringAt mem (h + BitVec.ofNat 32 offset) s ∧ offset + s.length < 512 := by
  rw [cstring] at hs
  split at hs
  · next nul =>
    have short : (fieldText b offset (512 - offset)).length < 512 - offset := by
      rcases Nat.lt_or_ge (fieldText b offset (512 - offset)).length (512 - offset) with short | full
      · exact short
      · have whole := ( List.takeWhile_prefix (· ≠ (0 : Byte)) (l := field b offset (512 - offset))).eq_of_length_le
          (by rw [length_field]; exact full)
        rw [← whole] at nul
        exact absurd nul fieldText_proper
    cases hs
    have inside : offset + (fieldText b offset (512 - offset)).length < 512 := by omega
    exact ⟨stringAt_field same inside (.inl short), inside⟩
  · cases hs

/-- The name that `tarfsFullname` tells is the string that `tarfs_fullname` returns. -/
theorem fullname_string (near : BitVec 32 → Byte) {mem mem' : Memory} {h ret : BitVec 32} {s : Str}
    (apart : Apart mem h ret) (outside : ∀ a, allocated (header mem h) ≤ (a - ret).toNat → mem' a = mem a)
    (hs : tarfsFullname (header mem h) = some s) :
    ∃ mem'', Returns (fullname near h ret) mem' ret mem'' ∧ StringAt mem'' ret s := by
  rw [tarfsFullname] at hs
  by_cases empty : header mem h 345 = 0
  · rw [if_neg fun some => some empty] at hs
    cases hs
    obtain ⟨mem'', run, string, -⟩ := fullname_name empty apart mem' outside
    rw [joined, if_neg fun some => some empty] at string
    exact ⟨mem'', run, string⟩
  · rw [if_pos empty] at hs
    have same := header_same apart outside
    cases first : cstring (header mem h) 345 with
    | none =>
      rw [first] at hs
      cases hs
    | some pre =>
      cases second : cstring (header mem h) 0 with
      | none =>
        rw [first, second] at hs
        cases hs
      | some name =>
        rw [first, second] at hs
        replace hs : (if (pre ++ slash :: name).length < 255 then some (pre ++ slash :: name) else none) = some s := hs
        split at hs
        · next short =>
          cases hs
          obtain ⟨at_s, inside_s⟩ := stringAt_cstring same (by decide) first
          obtain ⟨at_t, inside_t⟩ := stringAt_cstring same (by decide) second
          rw [BitVec.add_zero] at at_t
          obtain ⟨mem'', run, string, -⟩ := @fullname_strings near mem mem' h ret _ _ empty apart outside at_s at_t
            inside_s (by omega) short
          exact ⟨mem'', run, string⟩
        · cases hs

end Twcos.Tarfs
