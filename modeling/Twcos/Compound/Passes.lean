import Mathlib.Data.List.GetD
import Twcos.Compound.Key

/-!
# The passes over a format

`map_compound_key` of `libk/map.c` goes over its format twice, first for the length of the key and then to fill it, and
`map_compound_tempkey` goes over it once, to fill a buffer of 24 bytes. When the filling pass comes to a string it
copies as many bytes as are missing and returns, whatever the format still holds. `passesAgree_iff` says for which
formats the two passes agree, `tempAgrees_iff` when a temporary key is the same as one on the heap.

A string is given by its characters, which do not include the NUL; what lies in memory behind the NUL of each string is
arbitrary. As in `Twcos.Compound.Key`, the `malloc` between the passes is taken to succeed.
-/

namespace Twcos.Compound
open Twcos.Text

/-- The bytes of a number, the most significant one first. -/
def bigEndian {w : Nat} (n : Nat) (v : BitVec w) : List Byte :=
  (List.range n).map fun k => (v >>> (8 * (n - 1 - k))).setWidth 8

/-- A field of a format with its argument. -/
inductive Field where
  | num (x : Value)
  | s (chars : Str)
deriving DecidableEq

namespace Field

/-- The specifier of a field. -/
def spec : Field → Str
  | .num x => x.kind.spec
  | .s _ => [0x73]

/-- The argument for a field; the memory behind a string is given. -/
def arg (beyond : Nat → Byte) : Field → Arg
  | .num x => x.arg
  | .s chars => .s chars beyond

/-- What the key should have for a field. -/
def bytes : Field → List Byte
  | .num (.i4 v) => bigEndian 4 v
  | .num (.i8 v) => bigEndian 8 v
  | .s chars => chars ++ [0]

/-- What the sizing pass counts for a field. -/
def size : Field → Nat
  | .num x => x.kind.size
  | .s chars => chars.length + 1

end Field

/-- The format string for some fields. -/
def specs (fs : List Field) : Str := fs.flatMap Field.spec

/-- The arguments; `beyond k` is the memory behind the string of field `k`. -/
def arguments (beyond : Nat → Nat → Byte) : List Field → List Arg
  | [] => []
  | f :: fs => f.arg (beyond 0) :: arguments (fun k => beyond (k + 1)) fs

/-- The number of bytes of all fields. -/
def total (fs : List Field) : Nat := (fs.map Field.size).sum

/-- The bytes of all fields. -/
def concatenation (fs : List Field) : List Byte := fs.flatMap Field.bytes

/-- No string is followed by another field. -/
def StringLast : List Field → Prop
  | [] => True
  | .num _ :: fs => StringLast fs
  | .s _ :: fs => fs = []

/-- The number of bytes before the first string. -/
def stringOffset : List Field → Option Nat
  | [] => none
  | .num x :: fs => (stringOffset fs).map fun n => x.kind.size + n
  | .s _ :: _ => some 0

/-- The key is as long as the sizing pass says, it has exactly the bytes of the fields, and no byte behind a string
    makes a difference to it. -/
structure PassesAgree (junk : Nat → Byte) (beyond : Nat → Nat → Byte) (fs : List Field) : Prop where
  sizing : (mapCompoundKeyProcess junk none (specs fs) (arguments beyond fs)).map Key.buflen = .ok (total fs)
  key : mapCompoundKey junk (specs fs) (arguments beyond fs) = .ok ⟨total fs, concatenation fs⟩
  unread : ∀ beyond', mapCompoundKey junk (specs fs) (arguments beyond' fs) =
    mapCompoundKey junk (specs fs) (arguments beyond fs)

/-- A temporary key: it has room for 24 bytes, and `buflen` is zero or was set by an earlier use. -/
structure Temp (temp : Key) : Prop where
  length : temp.buf.length = 24
  le : temp.buflen ≤ 24

/-- How many bytes a filling pass expects the key to have. -/
def capacity (key : Key) : Nat := if key.buflen = 0 then 24 else key.buflen

/-- The temporary key has the length and the bytes of the key on the heap if these fit, and nothing is written beyond
    its buffer if they do not. -/
structure TempAgrees (junk : Nat → Byte) (beyond : Nat → Nat → Byte) (temp : Key) (fs : List Field) : Prop where
  same : total fs ≤ 24 → ∃ key temp', mapCompoundKey junk (specs fs) (arguments beyond fs) = .ok key ∧
    mapCompoundTempkey junk temp (specs fs) (arguments beyond fs) = .ok temp' ∧ temp'.buflen = key.buflen ∧
      temp'.buf.take temp'.buflen = key.buf
  within : 24 < total fs → mapCompoundTempkey junk temp (specs fs) (arguments beyond fs) ≠ .error .overflow

/-- Without a string the bytes fit. With one, the key has exactly the bytes that the buffer is expected to have, or
    these do not fit and the bytes before the string are not too many. -/
def TempFits (temp : Key) (fs : List Field) : Prop :=
  match stringOffset fs with
  | none => total fs ≤ 24
  | some n => if total fs ≤ 24 then total fs = capacity temp else n ≤ capacity temp

/-! ### Numbers -/

/-- Rotating a number by a byte. -/
lemma getLsbD_rotate {w : Nat} (i : BitVec w) {j : Nat} (hw : 8 ≤ w) (hj : j < w) :
    ((i <<< 8) ||| (i >>> (w - 8))).getLsbD j = if j < 8 then i.getLsbD (w - 8 + j) else i.getLsbD (j - 8) := by
  rw [BitVec.getLsbD_or, BitVec.getLsbD_shiftLeft, BitVec.getLsbD_ushiftRight, decide_eq_true hj, Bool.true_and]
  by_cases low : j < 8
  · simp [low]
  · have out : i.getLsbD (w - 8 + j) = false := BitVec.getLsbD_of_ge i _ (by omega)
    simp [low, out]

/-- The rotations bring out the bytes in order. -/
lemma rotateBytes_eq {w n : Nat} (i : BitVec w) (h : 8 * n ≤ w) :
    rotateBytes (w - 8) n i = (List.range n).map fun k => (i >>> (w - 8 * (k + 1))).setWidth 8 := by
  induction n generalizing i with
  | zero => rfl
  | succ n ih =>
    rw [rotateBytes, ih _ (by omega), List.range_succ_eq_map, List.map_cons, List.map_map, rotated_byte _ i (by omega)]
    congr 1
    apply List.map_congr_left
    intro k hk
    rw [List.mem_range] at hk
    apply BitVec.eq_of_getLsbD_eq
    intro j hj
    simp only [Function.comp_apply, BitVec.getLsbD_setWidth, BitVec.getLsbD_ushiftRight, hj, decide_true, Bool.true_and]
    rw [getLsbD_rotate i (by omega) (by omega), if_neg (by omega)]
    congr 1
    omega

/-- The bytes of a number field. -/
lemma bytes_num (x : Value) : (Field.num x).bytes = x.bytes := by
  cases x with
  | i4 v => exact (rotateBytes_eq v (n := 4) (by decide)).symm
  | i8 v => exact (rotateBytes_eq v (n := 8) (by decide)).symm

/-! ### The passes -/

section Passes
variable {junk : Nat → Byte} {beyond : Nat → Nat → Byte} {key : Key} {fs post : List Field} {t : List Value}
  {chars : Str}

/-- A list of fields is all numbers, or it has a first string. -/
lemma split_fields (fs : List Field) : (∃ t : List Value, fs = t.map .num) ∨
    ∃ (t : List Value) (chars : Str) (post : List Field), fs = t.map .num ++ .s chars :: post := by
  induction fs with
  | nil => exact .inl ⟨[], rfl⟩
  | cons f fs ih =>
    cases f with
    | num x =>
      rcases ih with ⟨t, rfl⟩ | ⟨t, chars, post, rfl⟩
      · exact .inl ⟨x :: t, rfl⟩
      · exact .inr ⟨x :: t, chars, post, rfl⟩
    | s chars => exact .inr ⟨[], chars, fs, rfl⟩

/-- The format of a key that starts with numbers. -/
lemma specs_append (t : List Value) (fs : List Field) : specs (t.map .num ++ fs) = format t ++ specs fs := by
  induction t with
  | nil => rfl
  | cons x t ih =>
    show x.kind.spec ++ specs (t.map .num ++ fs) = _
    rw [ih, ← List.append_assoc]
    rfl

/-- The arguments of a key that starts with numbers. -/
lemma arguments_append (beyond : Nat → Nat → Byte) (t : List Value) (fs : List Field) :
    arguments beyond (t.map .num ++ fs) = t.map Value.arg ++ arguments (fun k => beyond (k + t.length)) fs := by
  induction t generalizing beyond with
  | nil => rfl
  | cons x t ih =>
    show x.arg :: arguments (fun k => beyond (k + 1)) (t.map .num ++ fs) = _
    rw [ih]
    rfl

/-- The size of a key that starts with numbers. -/
lemma total_append (t : List Value) (fs : List Field) : total (t.map .num ++ fs) = size (kinds t) + total fs := by
  induction t with
  | nil => exact (Nat.zero_add _).symm
  | cons x t ih =>
    show x.kind.size + total (t.map .num ++ fs) = _
    rw [ih, size_cons, Nat.add_assoc]

/-- The bytes of a key that starts with numbers. -/
lemma concatenation_append (t : List Value) (fs : List Field) :
    concatenation (t.map .num ++ fs) = encode t ++ concatenation fs := by
  induction t with
  | nil => rfl
  | cons x t ih =>
    show (Field.num x).bytes ++ concatenation (t.map .num ++ fs) = _
    rw [ih, bytes_num, ← List.append_assoc]
    rfl

/-- Where its string starts. -/
lemma stringOffset_append (t : List Value) (fs : List Field) :
    stringOffset (t.map .num ++ fs) = (stringOffset fs).map fun n => size (kinds t) + n := by
  induction t with
  | nil =>
    have id : (fun n => size (kinds []) + n) = fun n => n := funext Nat.zero_add
    rw [id]
    exact Option.map_id'.symm
  | cons x t ih =>
    show (stringOffset (t.map .num ++ fs)).map _ = _
    rw [ih, Option.map_map]
    congr 1
    funext n
    rw [Function.comp_apply, size_cons, Nat.add_assoc]

/-- Whether its string comes last. -/
lemma stringLast_append (t : List Value) (fs : List Field) : StringLast (t.map .num ++ fs) ↔ StringLast fs := by
  induction t with
  | nil => exact Iff.rfl
  | cons x t ih => exact ih

/-- As many bytes as the kinds of the values say. -/
lemma length_encode (t : List Value) : (encode t).length = size (kinds t) := by
  induction t with
  | nil => rfl
  | cons x t ih =>
    show (x.bytes ++ encode t).length = _
    rw [List.length_append, ih, length_bytes, size_cons]

/-- A string in the first pass: its characters are counted, and its NUL. -/
lemma processFrom_string_none {pos len : Nat} (F : Str) (A : List Arg) {b : Nat → Byte} :
    processFrom junk none pos len (0x73 :: F) (.s chars b :: A) =
      processFrom junk none (pos + 1) (len + chars.length + 1) F A := by
  rw [processFrom.eq_def]
  rfl

/-- A string in the second pass: it takes all that is left of the buffer. -/
lemma processFrom_string_some {pos len : Nat} (F : Str) (A : List Arg) {b : Nat → Byte} :
    processFrom junk (some key) pos len (0x73 :: F) (.s chars b :: A) =
      if len ≤ key.buflen then put key len (stringBytes chars b (key.buflen - len)) else .error .overflow := by
  rw [processFrom.eq_def]
  rfl

/-- The sizing pass counts all fields. -/
lemma processFrom_sizing (junk : Nat → Byte) (beyond : Nat → Nat → Byte) (pos len : Nat) (fs : List Field) :
    processFrom junk none pos len (specs fs) (arguments beyond fs) =
      .ok ⟨len + total fs, (List.range (len + total fs)).map junk⟩ := by
  induction fs generalizing beyond pos len with
  | nil => rfl
  | cons f fs ih =>
    have count : len + total (f :: fs) = len + f.size + total fs := (Nat.add_assoc _ _ _).symm
    rw [count]
    cases f with
    | num x =>
      cases x with
      | i4 v => exact ih _ _ _
      | i8 v => exact ih _ _ _
    | s chars =>
      have size : len + (Field.s chars).size = len + chars.length + 1 := rfl
      rw [size]
      exact (processFrom_string_none _ _).trans (ih _ _ _)

/-- A piece that is put in leaves the lengths as they are. -/
lemma put_ok {key key' : Key} {len : Nat} {b : List Byte} (wrote : put key len b = .ok key') :
    key'.buflen = key.buflen ∧ len + b.length ≤ key.buf.length ∧
      (len ≤ key.buf.length → key'.buf.length = key.buf.length) := by
  rw [put] at wrote
  split at wrote
  · next fits =>
    cases wrote
    refine ⟨rfl, fits, fun le => ?_⟩
    rw [List.length_append, List.length_append, List.length_take, List.length_drop]
    omega
  · cases wrote

/-- Writing fails in one way only, at the end of the buffer. -/
lemma put_error {key : Key} {len : Nat} {b : List Byte} {e : Fault} (h : put key len b = .error e) : e = .overflow := by
  rw [put] at h
  split at h
  · cases h
  · cases h
    rfl

/-- Two pieces that follow each other. -/
lemma put_put {key : Key} {len n : Nat} {b1 b2 : List Byte} (le : len ≤ key.buf.length) (hn : len + b1.length = n) :
    ((put key len b1).bind fun key => put key n b2) = put key len (b1 ++ b2) := by
  subst hn
  rw [put, put]
  by_cases fits : len + b1.length ≤ key.buf.length
  · have wrote : (key.buf.take len ++ b1).length = len + b1.length := by
      rw [List.length_append, List.length_take, Nat.min_eq_left le]
    have same : (key.buf.take len ++ b1 ++ key.buf.drop (len + b1.length)).length = key.buf.length := by
      rw [List.length_append, wrote, List.length_drop]
      omega
    rw [if_pos fits]
    show put _ _ _ = _
    rw [put, same, List.length_append, ← Nat.add_assoc]
    split
    · rw [List.take_left' wrote, List.append_assoc (key.buf.take len) b1 b2]
      congr 3
      rw [← List.drop_drop, List.drop_left' wrote, List.drop_drop]
    · rfl
  · rw [if_neg fits, if_neg]
    · rfl
    · rw [List.length_append]
      omega

/-- A filling pass over numbers. -/
lemma processFrom_numbers {F : Str} {A : List Arg} {pos len : Nat} (le : len ≤ key.buf.length) (t : List Value) :
    processFrom junk (some key) pos len (format t ++ F) (t.map Value.arg ++ A) =
      (put key len (encode t)).bind fun key =>
        processFrom junk (some key) (pos + 2 * t.length) (len + size (kinds t)) F A := by
  induction t generalizing key pos len with
  | nil =>
    have nothing : put key len [] = .ok key := by
      rw [put, if_pos (by simpa using le), List.append_nil, List.length_nil, Nat.add_zero, List.take_append_drop]
    show processFrom junk (some key) pos len F A = (put key len []).bind _
    rw [nothing]
    rfl
  | cons x t ih =>
    have first : processFrom junk (some key) pos len (format (x :: t) ++ F) ((x :: t).map Value.arg ++ A) =
        (put key len x.bytes).bind fun key =>
          processFrom junk (some key) (pos + 2) (len + x.kind.size) (format t ++ F) (t.map Value.arg ++ A) := by
      have step : processFrom junk (some key) pos len (format (x :: t) ++ F) ((x :: t).map Value.arg ++ A) =
          (putIf (some key) len x.bytes).bind fun key =>
            processFrom junk key (pos + 2) (len + x.kind.size) (format t ++ F) (t.map Value.arg ++ A) := by
        cases x with
        | i4 v => rfl
        | i8 v => rfl
      rw [step, putIf]
      cases put key len x.bytes with
      | error e => rfl
      | ok key' => rfl
    have split : encode (x :: t) = x.bytes ++ encode t := rfl
    rw [first, split, ← put_put (n := len + x.kind.size) le (by rw [length_bytes]), size_cons]
    cases wrote : put key len x.bytes with
    | error e => rfl
    | ok key' =>
      have le' : len + x.kind.size ≤ key'.buf.length := by
        obtain ⟨-, fits, same⟩ := put_ok wrote
        rwa [same le, ← length_bytes]
      show processFrom junk (some key') _ _ _ _ = (put key' _ _).bind _
      rw [ih le', List.length_cons]
      congr 1
      funext key
      congr 1
      · omega
      · omega

/-- The filling pass over fields without a string. -/
lemma fill_numbers (t : List Value) : processFrom junk (some key) 0 0 (specs (t.map .num)) (arguments beyond (t.map .num)) =
    if size (kinds t) ≤ key.buf.length then .ok ⟨size (kinds t), encode t ++ key.buf.drop (size (kinds t))⟩
    else .error .overflow := by
  have fields : processFrom junk (some key) 0 0 (format t ++ []) (t.map Value.arg ++ []) = _ :=
    processFrom_numbers (Nat.zero_le _) t
  have hs := specs_append t []
  have ha := arguments_append beyond t []
  rw [List.append_nil] at hs ha
  rw [hs, ha]
  refine fields.trans ?_
  rw [put, length_encode, Nat.zero_add]
  split
  · rfl
  · rfl

/-- The filling pass over fields with a string ends with it. -/
lemma fill_string (t : List Value) (chars : Str) (post : List Field) :
    processFrom junk (some key) 0 0 (specs (t.map .num ++ .s chars :: post))
        (arguments beyond (t.map .num ++ .s chars :: post)) =
      if size (kinds t) ≤ key.buflen ∧ key.buflen ≤ key.buf.length then
        .ok ⟨key.buflen, encode t ++ stringBytes chars (beyond t.length) (key.buflen - size (kinds t)) ++
          key.buf.drop key.buflen⟩
      else .error .overflow := by
  rw [specs_append, arguments_append, processFrom_numbers (Nat.zero_le _)]
  have string : ∀ (key : Key) (pos len : Nat),
      processFrom junk (some key) pos len (specs (.s chars :: post))
          (arguments (fun k => beyond (k + t.length)) (.s chars :: post)) =
        if len ≤ key.buflen then put key len (stringBytes chars (beyond t.length) (key.buflen - len))
        else .error .overflow := by
    intro key pos len
    have behind : beyond t.length = (fun k => beyond (k + t.length)) 0 := congrArg beyond (Nat.zero_add _).symm
    rw [behind]
    exact processFrom_string_some _ _
  simp only [string]
  by_cases le : size (kinds t) ≤ key.buflen
  · have both : ((put key 0 (encode t)).bind fun key' =>
          put key' (0 + size (kinds t)) (stringBytes chars (beyond t.length) (key.buflen - size (kinds t)))) = _ :=
      put_put (Nat.zero_le _) (congrArg (0 + ·) (length_encode t))
    have length : (encode t ++ stringBytes chars (beyond t.length) (key.buflen - size (kinds t))).length = key.buflen := by
      rw [List.length_append, length_encode, stringBytes, List.length_map, List.length_range]
      omega
    have same : ((put key 0 (encode t)).bind fun key =>
        if 0 + size (kinds t) ≤ key.buflen then
          put key (0 + size (kinds t)) (stringBytes chars (beyond t.length) (key.buflen - (0 + size (kinds t))))
        else .error .overflow) =
        (put key 0 (encode t)).bind fun key' =>
          put key' (0 + size (kinds t)) (stringBytes chars (beyond t.length) (key.buflen - size (kinds t))) := by
      cases wrote : put key 0 (encode t) with
      | error e => rfl
      | ok key' =>
        show (if 0 + size (kinds t) ≤ key'.buflen then _ else _) = put key' _ _
        rw [(put_ok wrote).1, Nat.zero_add, if_pos le]
    rw [same, both, put, length, Nat.zero_add]
    simp only [le, true_and, List.take_zero, List.nil_append]
  · rw [if_neg fun h => le h.1]
    cases wrote : put key 0 (encode t) with
    | error e =>
      rw [put_error wrote]
      rfl
    | ok key' =>
      show (if 0 + size (kinds t) ≤ key'.buflen then _ else _) = _
      rw [(put_ok wrote).1, Nat.zero_add, if_neg le]

/-! ### The keys -/

/-- The first pass gives the size, and a buffer as `malloc` leaves it. -/
lemma mapCompoundKeyProcess_none (junk : Nat → Byte) (beyond : Nat → Nat → Byte) (fs : List Field) :
    mapCompoundKeyProcess junk none (specs fs) (arguments beyond fs) = .ok ⟨total fs, (List.range (total fs)).map junk⟩ := by
  have sizing := processFrom_sizing junk beyond 0 0 fs
  rw [Nat.zero_add] at sizing
  exact sizing

/-- The filling pass of `map_compound_key`. -/
lemma mapCompoundKey_eq (junk : Nat → Byte) (beyond : Nat → Nat → Byte) (fs : List Field) :
    mapCompoundKey junk (specs fs) (arguments beyond fs) =
      processFrom junk (some ⟨if total fs = 0 then 24 else total fs, (List.range (total fs)).map junk⟩) 0 0 (specs fs)
        (arguments beyond fs) := by
  rw [mapCompoundKey, mapCompoundKeyProcess_none]
  show mapCompoundKeyProcess junk (some _) _ _ = _
  rw [mapCompoundKeyProcess, Option.map_some]
  congr 2
  split
  · rfl
  · rfl

/-- A temporary key is one second pass into its buffer. -/
lemma mapCompoundTempkey_eq (temp : Key) (fs : List Field) :
    mapCompoundTempkey junk temp (specs fs) (arguments beyond fs) =
      processFrom junk (some ⟨capacity temp, temp.buf⟩) 0 0 (specs fs) (arguments beyond fs) := by
  rw [mapCompoundTempkey, mapCompoundKeyProcess, Option.map_some, capacity]
  congr 2
  split
  · rfl
  · rfl

/-- The size of a key of numbers. -/
lemma total_numbers (t : List Value) : total (t.map .num) = size (kinds t) := by
  have h := total_append t []
  rwa [List.append_nil] at h

/-- Both passes over a key of numbers agree. -/
lemma mapCompoundKey_numbers (t : List Value) :
    mapCompoundKey junk (specs (t.map .num)) (arguments beyond (t.map .num)) = .ok ⟨size (kinds t), encode t⟩ := by
  rw [mapCompoundKey_eq, fill_numbers, total_numbers]
  simp only [List.length_map, List.length_range, le_refl, if_true]
  rw [List.drop_of_length_le (by simp), List.append_nil]

/-- With a string, the key ends with it, and what follows the string in memory fills the rest. -/
lemma mapCompoundKey_string (t : List Value) (chars : Str) (post : List Field) :
    mapCompoundKey junk (specs (t.map .num ++ .s chars :: post)) (arguments beyond (t.map .num ++ .s chars :: post)) =
      .ok ⟨total (t.map .num ++ .s chars :: post), encode t ++
        stringBytes chars (beyond t.length) (total (t.map .num ++ .s chars :: post) - size (kinds t))⟩ := by
  have sum : total (t.map .num ++ .s chars :: post) = size (kinds t) + (chars.length + 1 + total post) :=
    total_append t (.s chars :: post)
  have pos : total (t.map .num ++ .s chars :: post) ≠ 0 := by
    omega
  rw [mapCompoundKey_eq, fill_string, if_neg pos]
  simp only [List.length_map, List.length_range]
  rw [if_pos (by omega), List.drop_of_length_le (by simp), List.append_nil]

/-- The buffer of a temporary key has 24 bytes. -/
lemma capacity_le {temp : Key} (h : Temp temp) : capacity temp ≤ 24 := by
  have := h.le
  rw [capacity]
  split <;> omega

/-- A temporary key of numbers. -/
lemma mapCompoundTempkey_numbers {temp : Key} (h : Temp temp) (t : List Value) :
    mapCompoundTempkey junk temp (specs (t.map .num)) (arguments beyond (t.map .num)) =
      if size (kinds t) ≤ 24 then .ok ⟨size (kinds t), encode t ++ temp.buf.drop (size (kinds t))⟩
      else .error .overflow := by
  rw [mapCompoundTempkey_eq, fill_numbers]
  simp only [h.length]

/-- A temporary key with a string. -/
lemma mapCompoundTempkey_string {temp : Key} (h : Temp temp) (t : List Value) (chars : Str) (post : List Field) :
    mapCompoundTempkey junk temp (specs (t.map .num ++ .s chars :: post))
        (arguments beyond (t.map .num ++ .s chars :: post)) =
      if size (kinds t) ≤ capacity temp then
        .ok ⟨capacity temp, encode t ++ stringBytes chars (beyond t.length) (capacity temp - size (kinds t)) ++
          temp.buf.drop (capacity temp)⟩
      else .error .overflow := by
  rw [mapCompoundTempkey_eq, fill_string]
  simp only [h.length, capacity_le h, and_true]

/-- A string takes as many bytes as there is room for. -/
lemma length_stringBytes (chars : Str) (b : Nat → Byte) (n : Nat) : (stringBytes chars b n).length = n := by
  rw [stringBytes, List.length_map, List.length_range]

/-- A string that is copied up to and including its NUL. -/
lemma stringBytes_all (chars : Str) (b : Nat → Byte) : stringBytes chars b (chars.length + 1) = chars ++ [0] := by
  apply List.ext_getElem
  · rw [length_stringBytes, List.length_append, List.length_singleton]
  · intro i hi hj
    simp only [stringBytes, List.getElem_map, List.getElem_range]
    exact List.getD_eq_getElem _ _ hj

/-- The first byte behind the NUL. -/
lemma stringBytes_behind (chars : Str) (b : Nat → Byte) {n : Nat} (hn : chars.length + 1 < n) :
    (stringBytes chars b n)[chars.length + 1]? = some (b (chars.length + 1)) := by
  have out : (chars ++ [0])[chars.length + 1]? = none := by
    rw [List.getElem?_eq_none_iff, List.length_append, List.length_singleton]
  rw [stringBytes, List.getElem?_map, List.getElem?_range hn, Option.map_some, List.getD_eq_getElem?_getD, out]
  rfl

/-- A field has at least one byte. -/
lemma total_pos {fs : List Field} (h : fs ≠ []) : 0 < total fs := by
  cases fs with
  | nil => exact absurd rfl h
  | cons f fs =>
    have size : 0 < f.size := by
      cases f with
      | num x =>
        cases x with
        | i4 v => exact Nat.succ_pos 3
        | i8 v => exact Nat.succ_pos 7
      | s chars => exact Nat.succ_pos _
    exact Nat.lt_of_lt_of_le size (Nat.le_add_right _ _)

end Passes

/-- The passes agree on exactly the formats in which no string is followed by another field. -/
theorem passesAgree_iff (junk : Nat → Byte) (beyond : Nat → Nat → Byte) (fs : List Field) :
    PassesAgree junk beyond fs ↔ StringLast fs := by
  have sizing : (mapCompoundKeyProcess junk none (specs fs) (arguments beyond fs)).map Key.buflen = .ok (total fs) := by
    rw [mapCompoundKeyProcess_none]
    rfl
  rcases split_fields fs with ⟨t, rfl⟩ | ⟨t, chars, post, rfl⟩
  · have last : StringLast (t.map .num) := by
      have h := (stringLast_append t []).mpr trivial
      rwa [List.append_nil] at h
    refine iff_of_true ⟨sizing, ?_, ?_⟩ last
    · have bytes := concatenation_append t []
      rw [List.append_nil] at bytes
      rw [mapCompoundKey_numbers, total_numbers, bytes]
      exact congrArg (fun b => Except.ok (Key.mk _ b)) (List.append_nil _).symm
    · intro beyond'
      rw [mapCompoundKey_numbers, mapCompoundKey_numbers]
  · have sum : total (t.map .num ++ .s chars :: post) = size (kinds t) + (chars.length + 1 + total post) :=
      total_append t (.s chars :: post)
    rw [stringLast_append]
    show _ ↔ post = []
    constructor
    · intro agree
      by_contra more
      have pos := total_pos more
      -- change the byte behind the string
      have other := agree.unread fun _ _ => beyond t.length (chars.length + 1) + 1
      rw [mapCompoundKey_string, mapCompoundKey_string] at other
      have bufs := congrArg Key.buf (Except.ok.inj other)
      have pieces := List.append_cancel_left bufs
      have byte := congrArg (fun l => l[chars.length + 1]?) pieces
      simp only [stringBytes_behind chars _ (show chars.length + 1 <
        total (t.map .num ++ .s chars :: post) - size (kinds t) by omega)] at byte
      exact absurd (Option.some.inj byte) (by bv_omega)
    · rintro rfl
      have length : total (t.map .num ++ [.s chars]) - size (kinds t) = chars.length + 1 := by
        have zero : total [] = 0 := rfl
        omega
      refine ⟨sizing, ?_, ?_⟩
      · have one : concatenation [.s chars] = chars ++ [0] := List.append_nil _
        rw [mapCompoundKey_string, length, stringBytes_all, concatenation_append, one]
      · intro beyond'
        rw [mapCompoundKey_string, mapCompoundKey_string, length, stringBytes_all, stringBytes_all]

/-- The number behind the string is missing from the key. -/
theorem passes_string_number : mapCompoundKey (fun _ => 0) (specs [.s [0x61], .num (.i4 1)])
      (arguments (fun _ _ => 0x7f) [.s [0x61], .num (.i4 1)]) = .ok ⟨6, [0x61, 0, 0x7f, 0x7f, 0x7f, 0x7f]⟩ ∧
    ¬PassesAgree (fun _ => 0) (fun _ _ => 0x7f) [.s [0x61], .num (.i4 1)] := by
  have run : mapCompoundKey (fun _ => 0) (specs [.s [0x61], .num (.i4 1)])
      (arguments (fun _ _ => 0x7f) [.s [0x61], .num (.i4 1)]) = .ok ⟨6, [0x61, 0, 0x7f, 0x7f, 0x7f, 0x7f]⟩ :=
    mapCompoundKey_string [] [0x61] [.num (.i4 1)]
  refine ⟨run, fun agree => ?_⟩
  have same := Except.ok.inj (run.symm.trans agree.key)
  exact absurd same (by decide)

/-! ### Temporary keys -/

/-- A cleared temporary key. -/
lemma temp_zero : Temp ⟨0, List.replicate 24 0⟩ := ⟨rfl, by decide⟩

/-- A temporary key can be used again. -/
lemma Temp.again {junk : Nat → Byte} {beyond : Nat → Nat → Byte} {temp temp' : Key} {fs : List Field} (h : Temp temp)
    (use : mapCompoundTempkey junk temp (specs fs) (arguments beyond fs) = .ok temp') : Temp temp' := by
  have cap := capacity_le h
  have length := h.length
  rcases split_fields fs with ⟨t, rfl⟩ | ⟨t, chars, post, rfl⟩
  · rw [mapCompoundTempkey_numbers h] at use
    split at use
    · next fits =>
      cases use
      refine ⟨?_, fits⟩
      rw [List.length_append, length_encode, List.length_drop, length]
      omega
    · cases use
  · rw [mapCompoundTempkey_string h] at use
    split at use
    · next fits =>
      cases use
      refine ⟨?_, cap⟩
      rw [List.length_append, List.length_append, length_encode, length_stringBytes, List.length_drop, length]
      omega
    · cases use

section Tempkey
variable {junk : Nat → Byte} {beyond : Nat → Nat → Byte} {temp : Key}

/-- Numbers need room in the buffer. -/
lemma tempAgrees_of_numbers (h : Temp temp) (t : List Value) :
    TempAgrees junk beyond temp (t.map .num) ↔ size (kinds t) ≤ 24 := by
  have temp' := @mapCompoundTempkey_numbers junk beyond temp h t
  constructor
  · intro agree
    by_contra toolong
    rw [if_neg toolong] at temp'
    have large : 24 < total (t.map .num) := by
      rw [total_numbers]
      omega
    exact agree.within large temp'
  · intro le
    rw [if_pos le] at temp'
    refine ⟨fun _ => ⟨_, _, mapCompoundKey_numbers t, temp', rfl, ?_⟩, fun large => ?_⟩
    · exact List.take_left' (length_encode t)
    · rw [total_numbers] at large
      omega

/-- The first string is copied up to the capacity. So the encoding has to have this length, or else not to fit. -/
lemma tempAgrees_of_string (h : Temp temp) (t : List Value) (chars : Str) (post : List Field) :
    TempAgrees junk beyond temp (t.map .num ++ .s chars :: post) ↔
      if total (t.map .num ++ .s chars :: post) ≤ 24 then total (t.map .num ++ .s chars :: post) = capacity temp
      else size (kinds t) ≤ capacity temp := by
  have sum : total (t.map .num ++ .s chars :: post) = size (kinds t) + (chars.length + 1 + total post) :=
    total_append t (.s chars :: post)
  have temp' := @mapCompoundTempkey_string junk beyond temp h t chars post
  have heap := @mapCompoundKey_string junk beyond t chars post
  by_cases small : total (t.map .num ++ .s chars :: post) ≤ 24
  · rw [if_pos small]
    constructor
    · intro agree
      obtain ⟨key, used, hkey, hused, len, -⟩ := agree.same small
      rw [hused] at temp'
      split at temp'
      · cases temp'
        rw [heap] at hkey
        cases hkey
        exact len.symm
      · cases temp'
    · intro exact_length
      rw [if_pos (by omega), ← exact_length] at temp'
      refine ⟨fun _ => ⟨_, _, heap, temp', rfl, ?_⟩, fun large => absurd large (Nat.not_lt.mpr small)⟩
      apply List.take_left'
      show _ = total (t.map .num ++ .s chars :: post)
      rw [List.length_append, length_encode, length_stringBytes]
      omega
  · rw [if_neg small]
    constructor
    · intro agree
      by_contra toolong
      rw [if_neg toolong] at temp'
      exact agree.within (Nat.not_le.mp small) temp'
    · intro le
      rw [if_pos le] at temp'
      refine ⟨fun fit => absurd fit small, fun _ => ?_⟩
      rw [temp']
      intro overflow
      cases overflow

end Tempkey

/-- When a temporary key is the same as one on the heap, and its buffer is not overrun. -/
theorem tempAgrees_iff (junk : Nat → Byte) (beyond : Nat → Nat → Byte) {temp : Key} (h : Temp temp) (fs : List Field) :
    TempAgrees junk beyond temp fs ↔ TempFits temp fs := by
  rw [TempFits]
  rcases split_fields fs with ⟨t, rfl⟩ | ⟨t, chars, post, rfl⟩
  · have offset : stringOffset (t.map .num) = none := by
      have append := stringOffset_append t []
      rwa [List.append_nil] at append
    rw [offset, tempAgrees_of_numbers h, total_numbers]
  · have offset : stringOffset (t.map .num ++ .s chars :: post) = some (size (kinds t)) :=
      stringOffset_append t (.s chars :: post)
    rw [offset, tempAgrees_of_string h]

/-- The prefix of two numbers in a temporary key that was zero. -/
theorem tempAgrees_numbers : TempAgrees (fun _ => 0) (fun _ _ => 0) ⟨0, List.replicate 24 0⟩ [.num (.i4 10), .num (.i8 32)] :=
  (tempAgrees_iff _ _ temp_zero _).mpr (show 12 ≤ 24 by decide)

/-- A temporary key for a string of two characters has 24 bytes, the key on the heap has three. -/
theorem temp_string_longer :
    mapCompoundKey (fun _ => 0) (specs [.s [0x61, 0x62]]) (arguments (fun _ _ => 0x7f) [.s [0x61, 0x62]]) =
      .ok ⟨3, [0x61, 0x62, 0]⟩ ∧
    mapCompoundTempkey (fun _ => 0) ⟨0, List.replicate 24 0⟩ (specs [.s [0x61, 0x62]])
        (arguments (fun _ _ => 0x7f) [.s [0x61, 0x62]]) =
      .ok ⟨24, [0x61, 0x62, 0] ++ List.replicate 21 0x7f⟩ ∧
    ¬TempAgrees (fun _ => 0) (fun _ _ => 0x7f) ⟨0, List.replicate 24 0⟩ [.s [0x61, 0x62]] := by
  have heap := @mapCompoundKey_string (fun _ => 0) (fun _ _ => 0x7f) [] [0x61, 0x62] []
  have temp := @mapCompoundTempkey_string (fun _ => 0) (fun _ _ => 0x7f) _ temp_zero [] [0x61, 0x62] []
  refine ⟨heap, temp, fun agree => ?_⟩
  obtain ⟨key, temp', hkey, htemp, len, -⟩ := agree.same (by decide)
  cases heap.symm.trans hkey
  cases temp.symm.trans htemp
  exact absurd len (by decide)

end Twcos.Compound
