import Twcos.Text.Str
import Mathlib.Algebra.Ring.Nat
import Mathlib.Algebra.Ring.Int.Defs
import Mathlib.Data.BitVec

/-!
# Compound keys

Model of the compound keys of `libk/map.c`: a format and the arguments for it are packed into a buffer, the numbers
most significant byte first, so that comparing buffers compares the tuples of arguments. `compoundKeys_iff` says for
which tuples it does: `memcmp` compares the first byte only, and as a signed number.

The memory of a buffer is the list of its bytes, and what lies in memory that has just been allocated is arbitrary. The
`malloc` of a key is taken to succeed (`Twcos.Heap.Malloc` says for which sizes it does). Writing beyond the buffer and
reading an argument that is not there are faults.

C → Lean naming: `map_compound_key_t` and `map_compound_tempkey_t` → `Key`, `map_compound_key_process` →
`mapCompoundKeyProcess` with its loop `processFrom`, `map_compound_key` → `mapCompoundKey` and so on.
-/

namespace Twcos.Compound
open Twcos.Text

/-! ### The encoder -/

/-- An argument; a string stands in memory with its NUL, and more memory beyond. -/
inductive Arg where
  | i4 (v : BitVec 32)
  | i8 (v : BitVec 64)
  | s (chars : Str) (beyond : Nat → Byte)

/-- `map_compound_key_t`. -/
structure Key where
  buflen : Nat
  buf : List Byte
deriving DecidableEq

inductive Fault where
  | panic (position : Nat)
  | varargs
  | overflow
deriving DecidableEq

/-- `i = (i << 8) | (i >> top); *buf++ = i & 0xff`, repeated. -/
def rotateBytes {w : Nat} (top : Nat) : Nat → BitVec w → List Byte
  | 0, _ => []
  | n + 1, i =>
    let i := (i <<< 8) ||| (i >>> top)
    (i &&& 0xff).setWidth 8 :: rotateBytes top n i

/-- `memcpy(buf, s, n)` reads these bytes of a string. -/
def stringBytes (chars : Str) (beyond : Nat → Byte) (n : Nat) : List Byte :=
  (List.range n).map fun i => (chars ++ [0]).getD i (beyond i)

/-- Write bytes into the buffer. -/
def put (key : Key) (len : Nat) (bytes : List Byte) : Except Fault Key :=
  if len + bytes.length ≤ key.buf.length then
    .ok { key with buf := key.buf.take len ++ bytes ++ key.buf.drop (len + bytes.length) }
  else .error .overflow

/-- `if (buf) …`: without a key only the length is counted. -/
def putIf (key : Option Key) (len : Nat) (bytes : List Byte) : Except Fault (Option Key) :=
  match key with
  | none => .ok none
  | some key => (put key len bytes).map some

section Process
variable (junk : Nat → Byte)

/-- The end of `map_compound_key_process`: `malloc` gives a buffer with anything in it. -/
def finishKey (key : Option Key) (len : Nat) : Key :=
  match key with
  | some key => { key with buflen := len }
  | none => ⟨len, (List.range len).map junk⟩

/-- The loop of `map_compound_key_process` over the format, at a position of it. The characters are `'i'`, `'4'`,
    `'8'` and `'s'`. -/
def processFrom (key : Option Key) (pos len : Nat) : Str → List Arg → Except Fault Key
  | [], _ => .ok (finishKey junk key len)
  | c :: f, args =>
    if c = 0x69 then
      match f, args with
      | 0x34#8 :: f, .i4 v :: args => do
        let key ← putIf key len (rotateBytes 24 4 v)
        processFrom key (pos + 2) (len + 4) f args
      | 0x38#8 :: f, .i8 v :: args => do
        let key ← putIf key len (rotateBytes 56 8 v)
        processFrom key (pos + 2) (len + 8) f args
      | d :: _, _ => .error (if d = 0x34 ∨ d = 0x38 then .varargs else .panic (pos + 1))
      | [], _ => .error (.panic (pos + 1))
    else if c = 0x73 then
      match args with
      | .s chars beyond :: args =>
        match key with
        | some key =>
          -- the rest of the buffer is filled, and the rest of the format ignored
          if len ≤ key.buflen then put key len (stringBytes chars beyond (key.buflen - len))
          else .error .overflow
        | none => processFrom none (pos + 1) (len + chars.length + 1) f args
      | _ => .error .varargs
    else .error (.panic pos)

/-- `map_compound_key_process`; `sizeof(tkey->buf)` is 24. -/
def mapCompoundKeyProcess (key : Option Key) (fmt : Str) (args : List Arg) : Except Fault Key :=
  let key := key.map fun key => if key.buflen = 0 then { key with buflen := 24 } else key
  processFrom junk key 0 0 fmt args

/-- `map_compound_key`. -/
def mapCompoundKey (fmt : Str) (args : List Arg) : Except Fault Key := do
  let key ← mapCompoundKeyProcess junk none fmt args
  mapCompoundKeyProcess junk (some key) fmt args

/-- `map_compound_tempkey`. -/
def mapCompoundTempkey (key : Key) (fmt : Str) (args : List Arg) : Except Fault Key :=
  mapCompoundKeyProcess junk (some key) fmt args

end Process

/-- `map_compound_key_comp`. -/
def mapCompoundKeyComp (key1 key2 : Key) : Int :=
  if key1.buflen < key2.buflen then
    let d := memcmp key1.buf key2.buf key1.buflen
    if d ≠ 0 then d else -1
  else if key1.buflen > key2.buflen then
    let d := memcmp key1.buf key2.buf key2.buflen
    if d ≠ 0 then d else 1
  else memcmp key1.buf key2.buf key1.buflen

/-- `map_compound_key_prefix(p, k)`. -/
def mapCompoundKeyPrefix (p k : Key) : Bool :=
  if p.buflen > k.buflen then false
  else memcmp p.buf k.buf p.buflen = 0

/-! ### Tuples -/

/-- A number that a key is made of. -/
inductive Value where
  | i4 (v : BitVec 32)
  | i8 (v : BitVec 64)
deriving DecidableEq

/-- The kind of a field. -/
inductive Kind where
  | i4
  | i8
deriving DecidableEq

namespace Value

def kind : Value → Kind
  | .i4 _ => .i4
  | .i8 _ => .i8

/-- The number, read as unsigned. -/
def toNat : Value → Nat
  | .i4 v => v.toNat
  | .i8 v => v.toNat

def arg : Value → Arg
  | .i4 v => .i4 v
  | .i8 v => .i8 v

/-- The bytes of a field. -/
def bytes : Value → List Byte
  | .i4 v => rotateBytes 24 4 v
  | .i8 v => rotateBytes 56 8 v

/-- The most significant byte. -/
def top : Value → Byte
  | .i4 v => (v >>> 24).setWidth 8
  | .i8 v => (v >>> 56).setWidth 8

end Value

/-- The specifier of a field in a format. -/
def Kind.spec : Kind → Str
  | .i4 => [0x69, 0x34]
  | .i8 => [0x69, 0x38]

def Kind.size : Kind → Nat
  | .i4 => 4
  | .i8 => 8

/-- The fields of a tuple. -/
def kinds (t : List Value) : List Kind := t.map Value.kind

/-- The format for a tuple. -/
def format (t : List Value) : Str := (kinds t).flatMap Kind.spec

/-- The length of the keys of a format. -/
def size (f : List Kind) : Nat := (f.map Kind.size).sum

def encode (t : List Value) : List Byte := t.flatMap Value.bytes

/-- The numbers of a tuple; lists of numbers are ordered lexicographically. -/
def numbers (t : List Value) : List Nat := t.map Value.toNat

/-- The key was made from the tuple, in memory of its own or in a temporary buffer. -/
def Built (key : Key) (t : List Value) : Prop :=
  ∃ junk, mapCompoundKey junk (format t) (t.map Value.arg) = .ok key ∨
    ∃ temp, mapCompoundTempkey junk temp (format t) (t.map Value.arg) = .ok key

/-- The result of a comparison says how the tuples are ordered. -/
structure Compares (comp : Int) (t1 t2 : List Value) : Prop where
  lt : comp < 0 ↔ numbers t1 < numbers t2
  gt : 0 < comp ↔ numbers t2 < numbers t1
  eq : comp = 0 ↔ t1 = t2

/-- The most significant byte of a tuple. -/
def topByte (t : List Value) : Option Byte := t.head?.map Value.top

/-- Both tuples have a most significant byte, and these differ but not in sign. -/
def TopsOrder (t1 t2 : List Value) : Prop :=
  ∃ a b, topByte t1 = some a ∧ topByte t2 = some b ∧ a ≠ b ∧ a.msb = b.msb

/-! ### What the encoder writes -/

/-- A rotation gives as many bytes as are asked for. -/
lemma length_rotateBytes {w : Nat} (top n : Nat) (i : BitVec w) : (rotateBytes top n i).length = n := by
  induction n generalizing i with
  | zero => rfl
  | succ n ih => rw [rotateBytes, List.length_cons, ih]

/-- A value has as many bytes as its kind says. -/
lemma length_bytes (x : Value) : x.bytes.length = x.kind.size := by
  cases x with
  | i4 v => exact length_rotateBytes 24 4 v
  | i8 v => exact length_rotateBytes 56 8 v

/-- The first byte that is written is the most significant one. -/
lemma rotated_byte {w : Nat} (top : Nat) (i : BitVec w) (hw : 8 ≤ w) :
    (((i <<< 8) ||| (i >>> top)) &&& 0xff).setWidth 8 = (i >>> top).setWidth 8 := by
  apply BitVec.eq_of_getLsbD_eq
  intro j hj
  have low : j < w := by omega
  have mask : (0xff#w).getLsbD j = true := by
    rw [BitVec.getLsbD_ofNat, show 255 = 2 ^ 8 - 1 from rfl, Nat.testBit_two_pow_sub_one]
    simp [hj, low]
  simp only [BitVec.getLsbD_setWidth, BitVec.getLsbD_and, BitVec.getLsbD_or, BitVec.getLsbD_shiftLeft, hj, low,
    mask, BitVec.ofNat_eq_ofNat]
  simp

/-- The first byte of a value is its top byte. -/
lemma bytes_head (x : Value) : ∃ rest, x.bytes = x.top :: rest := by
  cases x with
  | i4 v => exact ⟨_, congrArg (· :: _) (rotated_byte 24 v (by decide))⟩
  | i8 v => exact ⟨_, congrArg (· :: _) (rotated_byte 56 v (by decide))⟩

/-- The size of a key grows by the size of the value. -/
lemma size_cons (x : Value) (t : List Value) : size (kinds (x :: t)) = x.kind.size + size (kinds t) := by
  rw [kinds, List.map_cons, size, List.map_cons, List.sum_cons]
  rfl

/-- One field of the format. -/
lemma processFrom_cons (junk : Nat → Byte) (key : Option Key) (pos len : Nat) (x : Value) (t : List Value) :
    processFrom junk key pos len (format (x :: t)) ((x :: t).map Value.arg) =
      (putIf key len x.bytes).bind fun key =>
        processFrom junk key (pos + 2) (len + x.kind.size) (format t) (t.map Value.arg) := by
  cases x with
  | i4 v => rfl
  | i8 v => rfl

/-- Without a key, the length is counted and memory for it allocated. -/
lemma processFrom_none (junk : Nat → Byte) (pos len : Nat) (t : List Value) :
    processFrom junk none pos len (format t) (t.map Value.arg) =
      .ok ⟨len + size (kinds t), (List.range (len + size (kinds t))).map junk⟩ := by
  induction t generalizing pos len with
  | nil => rfl
  | cons x t ih =>
    rw [processFrom_cons, size_cons, ← Nat.add_assoc]
    exact ih _ _

/-- With a key, the buffer keeps what it has up to `len`, and then has the encoded tuple. -/
lemma processFrom_some {junk : Nat → Byte} {key key' : Key} {pos len : Nat} {t : List Value}
    (le : len ≤ key.buf.length)
    (h : processFrom junk (some key) pos len (format t) (t.map Value.arg) = .ok key') :
    key'.buflen = len + size (kinds t) ∧ ∃ rest, key'.buf = key.buf.take len ++ encode t ++ rest := by
  induction t generalizing key pos len with
  | nil =>
    cases h
    refine ⟨rfl, key.buf.drop len, ?_⟩
    rw [encode, List.flatMap_nil, List.append_nil]
    exact (List.take_append_drop len key.buf).symm
  | cons x t ih =>
    rw [processFrom_cons, putIf, put] at h
    by_cases fits : len + x.bytes.length ≤ key.buf.length
    · rw [if_pos fits] at h
      have wrote : (key.buf.take len ++ x.bytes).length = len + x.kind.size := by
        rw [List.length_append, List.length_take, length_bytes, Nat.min_eq_left le]
      obtain ⟨hlen, rest, hbuf⟩ := ih (by rw [List.length_append, wrote]; exact Nat.le_add_right _ _) h
      refine ⟨?_, rest, ?_⟩
      · rw [hlen, size_cons, Nat.add_assoc]
      · rw [hbuf, List.take_left' wrote, encode, encode, List.flatMap_cons, List.append_assoc (key.buf.take len)]
    · rw [if_neg fits] at h
      cases h

/-- A buffer that is large enough is filled. -/
lemma processFrom_fits {junk : Nat → Byte} {key : Key} {pos len : Nat} {t : List Value}
    (fits : len + size (kinds t) ≤ key.buf.length) :
    ∃ key', processFrom junk (some key) pos len (format t) (t.map Value.arg) = .ok key' := by
  induction t generalizing key pos len with
  | nil => exact ⟨_, rfl⟩
  | cons x t ih =>
    rw [size_cons] at fits
    have room : len + x.bytes.length ≤ key.buf.length := by
      rw [length_bytes]
      omega
    rw [processFrom_cons, putIf, put, if_pos room]
    apply ih
    show _ ≤ (_ ++ _ ++ List.drop _ _).length
    rw [List.length_append, List.length_append, List.length_take, List.length_drop, length_bytes]
    omega

/-- Every tuple has a key. -/
lemma mapCompoundKey_built (junk : Nat → Byte) (t : List Value) :
    ∃ key, mapCompoundKey junk (format t) (t.map Value.arg) = .ok key := by
  have first : mapCompoundKeyProcess junk none (format t) (t.map Value.arg) =
      .ok ⟨size (kinds t), (List.range (size (kinds t))).map junk⟩ := by
    have h := processFrom_none junk 0 0 t
    rwa [Nat.zero_add] at h
  rw [mapCompoundKey, first]
  apply processFrom_fits
  dsimp only
  split_ifs
  · simp
  · simp

/-- The buffer of a key starts with the encoded tuple, whose length it has. -/
lemma Built.buf {key : Key} {t : List Value} (h : Built key t) :
    key.buflen = size (kinds t) ∧ ∃ rest, key.buf = encode t ++ rest := by
  -- the last pass over the format writes into some buffer
  have last : ∃ (junk : Nat → Byte) (key0 : Key),
      processFrom junk (some key0) 0 0 (format t) (t.map Value.arg) = .ok key := by
    obtain ⟨junk, h | ⟨temp, h⟩⟩ := h
    · rw [mapCompoundKey] at h
      cases first : mapCompoundKeyProcess junk none (format t) (t.map Value.arg) with
      | error e =>
        rw [first] at h
        cases h
      | ok key0 =>
        rw [first] at h
        exact ⟨junk, _, h⟩
    · exact ⟨junk, _, h⟩
  obtain ⟨junk, key0, h⟩ := last
  obtain ⟨hlen, rest, hbuf⟩ := processFrom_some (Nat.zero_le _) h
  rw [Nat.zero_add] at hlen
  exact ⟨hlen, rest, by rw [hbuf, List.take_zero, List.nil_append]⟩

/-! ### What comparing keys says -/

/-- The sign of the comparison of two signed bytes. -/
def byteSign (a b : Byte) : Int := if a.slt b then -1 else if b.slt a then 1 else 0

/-- `memcmp` on the keys of nonempty tuples. -/
lemma Built.memcmp {k1 k2 : Key} {x y : Value} {t1 t2 : List Value} (h1 : Built k1 (x :: t1))
    (h2 : Built k2 (y :: t2)) {n : Nat} (pos : n ≠ 0) : memcmp k1.buf k2.buf n = byteSign x.top y.top := by
  obtain ⟨-, r1, e1⟩ := h1.buf
  obtain ⟨-, r2, e2⟩ := h2.buf
  obtain ⟨s1, b1⟩ := bytes_head x
  obtain ⟨s2, b2⟩ := bytes_head y
  rw [e1, e2, encode, encode, List.flatMap_cons, List.flatMap_cons, b1, b2]
  exact memcmp_cons _ _ _ _ pos

/-- A key with a value is not empty. -/
lemma size_cons_ne (x : Value) (t : List Value) : size (kinds (x :: t)) ≠ 0 := by
  rw [size_cons]
  cases x <;> simp only [Value.kind, Kind.size] <;> omega

/-- The keys of tuples of one format are compared by their first bytes. -/
lemma Built.comp {k1 k2 : Key} {x y : Value} {t1 t2 : List Value} (h1 : Built k1 (x :: t1))
    (h2 : Built k2 (y :: t2)) (hk : kinds (x :: t1) = kinds (y :: t2)) :
    mapCompoundKeyComp k1 k2 = byteSign x.top y.top := by
  have len : k1.buflen = k2.buflen := by rw [h1.buf.1, h2.buf.1, hk]
  have pos : k1.buflen ≠ 0 := by
    rw [h1.buf.1]
    exact size_cons_ne x t1
  rw [mapCompoundKeyComp, if_neg (Nat.not_lt.mpr len.ge), if_neg (Nat.not_lt.mpr len.le)]
  exact h1.memcmp h2 pos

/-- The most significant byte of a number. -/
lemma toNat_top (x : Value) : x.top.toNat = x.toNat / 2 ^ (8 * x.kind.size - 8) := by
  cases x with
  | i4 v =>
    have := v.isLt
    show ((v >>> 24).setWidth 8).toNat = v.toNat / 2 ^ 24
    rw [BitVec.toNat_setWidth, BitVec.toNat_ushiftRight, Nat.shiftRight_eq_div_pow]
    omega
  | i8 v =>
    have := v.isLt
    show ((v >>> 56).setWidth 8).toNat = v.toNat / 2 ^ 56
    rw [BitVec.toNat_setWidth, BitVec.toNat_ushiftRight, Nat.shiftRight_eq_div_pow]
    omega

/-- A smaller top byte makes a smaller tuple. -/
lemma numbers_lt {x y : Value} (t1 t2 : List Value) (hk : x.kind = y.kind) (lt : x.top < y.top) :
    numbers (x :: t1) < numbers (y :: t2) := by
  have less : x.toNat < y.toNat := by
    rw [BitVec.lt_def, toNat_top, toNat_top, hk] at lt
    exact Nat.lt_of_div_lt_div lt
  exact List.cons_lt_cons_iff.mpr (.inl less)

/-- Bytes of one sign are ordered as unsigned ones, bytes of different signs the other way round. -/
lemma byteSign_lt {a b : Byte} (lt : a < b) : byteSign a b = if a.msb = b.msb then -1 else 1 := by
  have ult : a.ult b = true := BitVec.ult_iff_lt.mpr lt
  have not : b.ult a = false := by
    rw [← Bool.not_eq_true, BitVec.ult_iff_lt]
    exact BitVec.not_lt.mpr (BitVec.le_of_lt lt)
  rw [byteSign]
  by_cases h : a.msb = b.msb
  · rw [BitVec.slt_eq_ult_of_msb_eq h, ult, if_pos rfl, if_pos h]
  · rw [BitVec.slt_eq_not_ult_of_msb_neq h, BitVec.slt_eq_not_ult_of_msb_neq (Ne.symm h), ult, not, if_neg h]
    rfl

/-- The sign of a comparison of bytes as `char`s. -/
lemma byteSign_eq (a b : Byte) : byteSign a b = (a.toInt - b.toInt).sign := by
  rw [byteSign, BitVec.slt_eq_decide, BitVec.slt_eq_decide]
  rcases Int.lt_trichotomy a.toInt b.toInt with lt | eq | gt
  · rw [Int.sign_eq_neg_one_of_neg (by omega), if_pos (decide_eq_true lt)]
  · rw [eq, Int.sub_self]
    simp
  · rw [Int.sign_eq_one_of_pos (by omega)]
    simp [gt, Int.le_of_lt gt]

/-- A byte compares equal to itself. -/
lemma byteSign_self (a : Byte) : byteSign a a = 0 := by
  rw [byteSign_eq, Int.sub_self]
  rfl

/-- Bytes compare equal if they are. -/
lemma byteSign_eq_zero {a b : Byte} : byteSign a b = 0 ↔ a = b := by
  rw [byteSign_eq, Int.sign_eq_zero_iff_zero, Int.sub_eq_zero, BitVec.toInt_inj]

/-- Swapping the bytes swaps the sign. -/
lemma byteSign_swap (a b : Byte) : byteSign b a = -byteSign a b := by
  rw [byteSign_eq, byteSign_eq, ← Int.sign_neg, Int.neg_sub]

/-- A comparison the other way round. -/
lemma Compares.swap {comp : Int} {t1 t2 : List Value} (h : Compares comp t1 t2) : Compares (-comp) t2 t1 := by
  refine ⟨?_, ?_, ?_⟩
  · rw [← h.gt]
    omega
  · rw [← h.lt]
    omega
  · rw [eq_comm (a := t2), ← h.eq]
    omega

/-- A tuple compares equal to itself. -/
lemma compares_self (t : List Value) : Compares 0 t t := by
  refine ⟨?_, ?_, ?_⟩
  · exact iff_of_false (by decide) (List.lt_irrefl _)
  · exact iff_of_false (by decide) (List.lt_irrefl _)
  · exact iff_of_true rfl rfl

/-- The order of the top bytes of the first values. -/
lemma topsOrder_cons {x y : Value} {t1 t2 : List Value} :
    TopsOrder (x :: t1) (y :: t2) ↔ x.top ≠ y.top ∧ x.top.msb = y.top.msb := by
  constructor
  · rintro ⟨a, b, ha, hb, h⟩
    cases ha
    cases hb
    exact h
  · intro h
    exact ⟨_, _, rfl, rfl, h⟩

/-- The comparison of tuples whose most significant bytes are in order. -/
lemma compares_lt {x y : Value} {t1 t2 : List Value} (hk : x.kind = y.kind) (lt : x.top < y.top) :
    Compares (byteSign x.top y.top) (x :: t1) (y :: t2) ↔ x.top.msb = y.top.msb := by
  have less := numbers_lt t1 t2 hk lt
  rw [byteSign_lt lt]
  by_cases h : x.top.msb = y.top.msb
  · rw [if_pos h]
    refine iff_of_true ⟨?_, ?_, ?_⟩ h
    · exact iff_of_true (by decide) less
    · exact iff_of_false (by decide) (List.lt_asymm less)
    · refine iff_of_false (by decide) fun e => ?_
      rw [e] at less
      exact List.lt_irrefl _ less
  · rw [if_neg h]
    refine iff_of_false (fun c => ?_) h
    exact absurd (c.lt.mpr less) (by decide)

/-- Tuples of one format are compared as they should be exactly if they are equal, or if their most significant bytes
    differ and have the same sign. -/
lemma key_compares_iff {k1 k2 : Key} {t1 t2 : List Value} (h1 : Built k1 t1) (h2 : Built k2 t2)
    (hk : kinds t1 = kinds t2) :
    Compares (mapCompoundKeyComp k1 k2) t1 t2 ↔ t1 = t2 ∨ TopsOrder t1 t2 := by
  cases t1 with
  | nil =>
    cases t2 with
    | nil =>
      have zero : mapCompoundKeyComp k1 k2 = 0 := by
        rw [mapCompoundKeyComp, h1.buf.1, h2.buf.1]
        rfl
      rw [zero]
      exact iff_of_true (compares_self []) (.inl rfl)
    | cons y t2 => cases hk
  | cons x t1 =>
    cases t2 with
    | nil => cases hk
    | cons y t2 =>
      have hxy : x.kind = y.kind := (List.cons.inj hk).1
      rw [h1.comp h2 hk, topsOrder_cons]
      rcases BitVec.lt_trichotomy x.top y.top with lt | eq | gt
      · have ne : x.top ≠ y.top := fun e => BitVec.lt_irrefl _ (e ▸ lt)
        have ne' : x :: t1 ≠ y :: t2 := fun e => ne (congrArg Value.top (List.cons.inj e).1)
        simp only [compares_lt hxy lt, ne, ne', false_or, not_false_eq_true, true_and, ne_eq]
      · rw [eq, byteSign_self]
        constructor
        · intro c
          exact .inl (c.eq.mp rfl)
        · rintro (e | ⟨ne, -⟩)
          · rw [e]
            exact compares_self _
          · exact absurd rfl ne
      · have ne : x.top ≠ y.top := fun e => BitVec.lt_irrefl _ (e ▸ gt)
        have ne' : x :: t1 ≠ y :: t2 := fun e => ne (congrArg Value.top (List.cons.inj e).1)
        have back : Compares (byteSign x.top y.top) (x :: t1) (y :: t2) ↔
            Compares (byteSign y.top x.top) (y :: t2) (x :: t1) := by
          rw [byteSign_swap x.top y.top]
          constructor
          · exact Compares.swap
          · intro c
            have c := c.swap
            rwa [Int.neg_neg] at c
        simp only [back, compares_lt hxy.symm gt, ne, ne', false_or, not_false_eq_true, true_and, ne_eq]
        exact eq_comm

/-- The first kinds of a format take less than all. -/
lemma size_le {f g : List Kind} (h : f <+: g) : size f ≤ size g := by
  obtain ⟨rest, rfl⟩ := h
  rw [size, size, List.map_append, List.sum_append]
  exact Nat.le_add_right _ _

/-- The first values have the first kinds. -/
lemma kinds_initial {p t : List Value} (h : p <+: t) : kinds p <+: kinds t := by
  obtain ⟨rest, rfl⟩ := h
  exact ⟨kinds rest, (List.map_append ..).symm⟩

/-- Of two formats that agree as far as they go, the one with the shorter keys is an initial part of the other. -/
lemma initial_of_size {f g : List Kind} (h : f <+: g ∨ g <+: f) (le : size f ≤ size g) : f <+: g := by
  rcases h with h | ⟨rest, rfl⟩
  · exact h
  · cases rest with
    | nil => rw [List.append_nil]
    | cons k rest =>
      rw [size, size, List.map_append, List.sum_append, List.map_cons, List.sum_cons] at le
      cases k <;> simp only [Kind.size] at le <;> omega

/-- The test says yes as soon as the format is an initial part, and the first bytes, if any, are the same. -/
lemma Built.initial {p k : Key} {tp tk : List Value} (hp : Built p tp) (hk : Built k tk)
    (hf : kinds tp <+: kinds tk ∨ kinds tk <+: kinds tp) :
    mapCompoundKeyPrefix p k = true ↔ kinds tp <+: kinds tk ∧ (tp = [] ∨ topByte tp = topByte tk) := by
  rw [mapCompoundKeyPrefix]
  by_cases gt : p.buflen > k.buflen
  · rw [if_pos gt]
    rw [hp.buf.1, hk.buf.1] at gt
    refine iff_of_false (by decide) fun h => ?_
    exact absurd (size_le h.1) (Nat.not_le.mpr gt)
  · rw [if_neg gt, decide_eq_true_iff]
    rw [hp.buf.1, hk.buf.1] at gt
    have initial := initial_of_size hf (Nat.not_lt.mp gt)
    cases tp with
    | nil =>
      rw [hp.buf.1]
      exact iff_of_true rfl ⟨initial, .inl rfl⟩
    | cons x tp =>
      cases tk with
      | nil => exact absurd initial (by simp [kinds])
      | cons y tk =>
        have pos : p.buflen ≠ 0 := by
          rw [hp.buf.1]
          exact size_cons_ne x tp
        rw [hp.memcmp hk pos, byteSign_eq_zero]
        constructor
        · intro e
          exact ⟨initial, .inr (congrArg some e)⟩
        · rintro ⟨-, e | e⟩
          · cases e
          · exact Option.some.inj e

/-- The test for an initial part is right exactly if the tuple is one, or if the format is not one or the most
    significant bytes differ. -/
lemma initial_iff {p k : Key} {tp tk : List Value} (hp : Built p tp) (hk : Built k tk)
    (hf : kinds tp <+: kinds tk ∨ kinds tk <+: kinds tp) :
    (mapCompoundKeyPrefix p k = true ↔ tp <+: tk) ↔
      tp <+: tk ∨ ¬kinds tp <+: kinds tk ∨ topByte tp ≠ topByte tk := by
  rw [hp.initial hk hf]
  constructor
  · intro h
    by_cases initial : kinds tp <+: kinds tk
    · by_cases top : topByte tp = topByte tk
      · exact .inl (h.mp ⟨initial, .inr top⟩)
      · exact .inr (.inr top)
    · exact .inr (.inl initial)
  · intro h
    constructor
    · rintro ⟨initial, rfl | top⟩
      · exact List.nil_prefix
      · rcases h with h | h | h
        · exact h
        · exact absurd initial h
        · exact absurd top h
    · rintro ⟨rest, rfl⟩
      refine ⟨kinds_initial ⟨rest, rfl⟩, ?_⟩
      cases tp with
      | nil => exact .inl rfl
      | cons x tp => exact .inr rfl

/-- For which tuples the keys do what they are for: comparing tuples of one format needs tuples that are equal or whose
    most significant bytes differ and have one sign, and testing for an initial part needs one, or else formats or
    most significant bytes that rule it out. -/
theorem compoundKeys_iff {k1 k2 : Key} {t1 t2 : List Value} (h1 : Built k1 t1) (h2 : Built k2 t2) :
    (kinds t1 = kinds t2 → (Compares (mapCompoundKeyComp k1 k2) t1 t2 ↔ t1 = t2 ∨ TopsOrder t1 t2)) ∧
    (kinds t1 <+: kinds t2 ∨ kinds t2 <+: kinds t1 →
      ((mapCompoundKeyPrefix k1 k2 = true ↔ t1 <+: t2) ↔
        t1 <+: t2 ∨ ¬kinds t1 <+: kinds t2 ∨ topByte t1 ≠ topByte t2)) :=
  ⟨key_compares_iff h1 h2, initial_iff h1 h2⟩

/-- The key of a tuple of one field, in memory that was zero. -/
lemma built_i4 (v : BitVec 32) : Built ⟨4, rotateBytes 24 4 v⟩ [.i4 v] := ⟨fun _ => 0, .inl rfl⟩

/-- Numbers with different most significant bytes are compared and tested as they should be. -/
theorem compoundKeys_tops :
    Compares (mapCompoundKeyComp ⟨4, [1, 0, 0, 5]⟩ ⟨4, [2, 0, 0, 3]⟩) [.i4 0x01000005] [.i4 0x02000003] ∧
    (mapCompoundKeyPrefix ⟨4, [1, 0, 0, 5]⟩ ⟨4, [2, 0, 0, 3]⟩ = true ↔
      [Value.i4 0x01000005] <+: [Value.i4 0x02000003]) := by
  have h1 : Built ⟨4, [1, 0, 0, 5]⟩ [.i4 0x01000005] := built_i4 0x01000005
  have h2 : Built ⟨4, [2, 0, 0, 3]⟩ [.i4 0x02000003] := built_i4 0x02000003
  obtain ⟨comparing, testing⟩ := compoundKeys_iff h1 h2
  constructor
  · exact (comparing rfl).mpr (.inr ⟨1, 2, rfl, rfl, by decide, by decide⟩)
  · exact (testing (.inl ⟨[], rfl⟩)).mpr (.inr (.inr (by decide)))

/-- The keys of the numbers 1 and 2 compare as equal, and each counts as an initial part of the other. -/
theorem compoundKeys_small :
    Built ⟨4, [0, 0, 0, 1]⟩ [.i4 1] ∧ Built ⟨4, [0, 0, 0, 2]⟩ [.i4 2] ∧ kinds [.i4 1] = kinds [.i4 2] ∧
    ¬Compares (mapCompoundKeyComp ⟨4, [0, 0, 0, 1]⟩ ⟨4, [0, 0, 0, 2]⟩) [.i4 1] [.i4 2] ∧
    ¬(mapCompoundKeyPrefix ⟨4, [0, 0, 0, 1]⟩ ⟨4, [0, 0, 0, 2]⟩ = true ↔ [Value.i4 1] <+: [Value.i4 2]) := by
  refine ⟨built_i4 1, built_i4 2, rfl, fun h => ?_, by decide⟩
  exact absurd (h.eq.mp (by decide)) (by decide)

end Twcos.Compound
