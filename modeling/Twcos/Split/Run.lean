import Twcos.Split.Basic
import Mathlib.Data.List.TakeWhile

/-!
# Runs of ssplit

What `ssplit` returns: `ssplit_iff` says that it is the pieces between the separators exactly if every request that it
makes of `malloc` and of the arena is served. A request for the array is for four bytes less than the array has, or
three: the element sizes of the pools are multiples of four, so that the slot has room for all of it (`collect_room`).

`Held` is a pointer to a piece, and `Head` the invariant at the head of the loop.
-/

namespace Twcos.Split
open Twcos.Prog Twcos.Text Twcos.Heap

/-! ### Requests that are served -/

section Served
variable {addr : BitVec 32} {s t s' : Malloc} {requests : List Nat}

/-- Every request is below the size of the largest pool that has slots, and finds a slot or a page. -/
def Served (addr : BitVec 32) : Malloc → List Nat → Prop
  | _, [] => True
  | s, size :: rest => (size < 2044 ∧ s.HasRoom addr (BitVec.ofNat 32 size)) ∧
      ∀ p s', Returns (malloc addr (BitVec.ofNat 32 size)) s p s' → Served addr s' rest

/-- Equal heaps, the other way round. -/
lemma SameHeap.symm (h : SameHeap s t) : SameHeap t s := by
  obtain ⟨memory, rfl⟩ := h
  exact ⟨s.memory, rfl⟩

/-- `malloc` gives one result. -/
lemma steady_malloc {size : BitVec 32} : Sim Eq Eq (malloc addr size) (malloc addr size) := by
  rw [malloc]
  split
  · refine .loop (A := Eq) (fun _ _ _ => ?_) rfl
    refine Sim.andThen (.asks fun s t same => by rw [same]) fun found => ?_
    rcases found with _ | ⟨⟨k, slab⟩, slabs⟩
    · have page : Sim Eq Eq (demand Pools.pageHeapAlloc .noPage : Prog Heap.Fault Malloc _) _ :=
        .demand fun s t a same found => ⟨a, same ▸ found, rfl⟩
      refine Sim.andThen (Sim.andThen page fun r => .update ?_) fun _ => .pure (.inl rfl)
      exact fun _ _ _ => rfl
    · exact Sim.andThen (.update fun s t same => by rw [same]) fun _ => .pure (.inr rfl)
  · exact .raise _ _

/-- What is in memory makes no difference. -/
lemma Served.same (h : Served addr s requests) (same : SameHeap s t) : Served addr t requests := by
  induction requests generalizing s t with
  | nil => trivial
  | cons size rest ih =>
    obtain ⟨room, next⟩ := h
    refine ⟨?_, fun p t' run => ?_⟩
    · obtain ⟨memory, rfl⟩ := same
      exact room
    · obtain ⟨s', run', same'⟩ := sim_malloc.returns steady_malloc run same.symm
      exact ih (next p s' run') same'.symm

/-- A call of `malloc` that does not return. -/
lemma malloc_fails (h : PoolsInv (pools addr) s) {size : BitVec 32} (no : ¬(size.toNat < 2044 ∧ s.HasRoom addr size)) :
    ∃ e, Raises (malloc addr size) s e := by
  rcases malloc_ends h with ⟨p, s', run, -⟩ | raises
  · obtain ⟨small, room, -⟩ := malloc_returns h run
    exact absurd ⟨small, room⟩ no
  · exact raises

end Served

/-! ### Pointers to pieces -/

section Held
variable {addr : BitVec 32} {empty : Nat} {s s' : Malloc} {p q : Nat} {t : Str}

/-- A pointer to a piece: to the constant, or to a block that holds it. -/
def Held (addr : BitVec 32) (empty : Nat) (s : Malloc) (q : Nat) (t : Str) : Prop :=
  q = empty ∧ t = [] ∨ ∃ j, ∃ b ∈ s.live j, b.1 = q ∧ t.length < (pools addr j).esize.toNat ∧ StringIn s.memory q t

/-- The heap, with the constant below it. -/
structure HeapInv (addr : BitVec 32) (empty : Nat) (s : Malloc) : Prop where
  inv : PoolsInv (pools addr) s
  zero : s.memory empty = 0
  low : empty < s.base

/-- The heap after a block was allocated, of which some bytes were written: what pieces there were are there. -/
structure Grown (addr : BitVec 32) (empty : Nat) (s s' : Malloc) : Prop where
  heap : HeapInv addr empty s'
  held : ∀ q t, Held addr empty s q t → Held addr empty s' q t

/-- Doing nothing keeps what is held. -/
lemma HeapInv.grown_refl (h : HeapInv addr empty s) : Grown addr empty s s := ⟨h, fun _ _ held => held⟩

/-- A block ends below the end of memory. -/
lemma block_lt (h : PoolsInv (pools addr) s) {j : Fin sizes.length} {b : Nat × Nat} (hb : b ∈ s.live j) :
    s.base ≤ b.1 ∧ b.1 + (pools addr j).esize.toNat < 2 ^ 32 := by
  obtain ⟨page, -, lo, hi⟩ := h.inside (pools_fits j) hb
  obtain ⟨-, low, high⟩ := (h j).page _ (List.mem_append_right _ page)
  have top := (h j).top
  have low' : s.base ≤ b.2 := low
  have high' : b.2 + 4096 ≤ s.nextalloc := high
  have top' : s.nextalloc < 2 ^ 32 := top
  omega

/-- A block has an address. -/
lemma Held.lt (h : HeapInv addr empty s) (held : Held addr empty s q t) : q < 2 ^ 32 := by
  rcases held with ⟨rfl, -⟩ | ⟨j, b, hb, rfl, -, -⟩
  · have base := (h.inv ⟨0, by decide⟩).base
    have top := (h.inv ⟨0, by decide⟩).top
    have low := h.low
    have base' : s.base ≤ s.nextalloc := base
    have top' : s.nextalloc < 2 ^ 32 := top
    omega
  · have := (block_lt h.inv hb).2
    omega

/-- A string that is held is in memory. -/
lemma Held.string (h : HeapInv addr empty s) (held : Held addr empty s q t) : StringIn s.memory q t := by
  rcases held with ⟨rfl, rfl⟩ | ⟨j, b, hb, rfl, -, string⟩
  · exact ⟨fun i hi => absurd hi (Nat.not_lt_zero i), h.zero, List.not_mem_nil⟩
  · exact string

/-- The block is allocated afterwards, next to those that were. -/
lemma new_block {i : Fin sizes.length} (a : Allocated (pools addr) i s p s') : ∃ page, s'.live i = (p, page) :: s.live i := by
  obtain ⟨page, live⟩ := a.live
  exact ⟨page, by rw [live, Function.update_self]⟩

/-- An allocated block, when nothing else is written. -/
lemma allocated_grown {i : Fin sizes.length} {size : BitVec 32} (h : HeapInv addr empty s)
    (run : Returns (malloc addr size) s p s') (a : Allocated (pools addr) i s p s') {m : Nat → BitVec 8}
    (frame : ∀ x, x < p ∨ p + (pools addr i).esize.toNat ≤ x → m x = s'.memory x) :
    Grown addr empty s { s' with memory := m } := by
  obtain ⟨page, live'⟩ := new_block a
  have new : (p, page) ∈ s'.live i := by
    rw [live']
    exact List.mem_cons_self
  obtain ⟨zero, base⟩ := malloc_zero empty s.base ⟨h.zero, rfl⟩ run
  have low := h.low
  refine ⟨⟨a.inv, ?_, ?_⟩, ?_⟩
  · have lo := (block_lt a.inv new).1
    show m empty = 0
    rw [frame empty (.inl (by omega)), zero]
  · show empty < s'.base
    omega
  · rintro q t (none | ⟨j, b, hb, rfl, fits, string⟩)
    · exact .inl none
    · refine .inr ⟨j, b, a.mem_live hb, rfl, fits, string.congr fun k hk => ?_⟩
      have nodup := (a.inv i).live
      have view : (s'.view i).live = (p, page) :: s.live i := live'
      rw [view, List.nodup_cons] at nodup
      have apart := a.inv.apart (pools_fits i) (pools_fits j) new (a.mem_live hb) (by
        rintro rfl rfl
        exact nodup.1 hb)
      have apart : p + (pools addr i).esize.toNat ≤ b.1 ∨ b.1 + (pools addr j).esize.toNat ≤ p := apart
      show m (b.1 + k) = _
      rw [frame (b.1 + k) (by omega)]
      exact a.bytes h.inv hb (by omega)

end Held

/-! ### Copying a piece -/

section Pieces
variable {addr : BitVec 32} {empty : Nat} {junk : Nat → Nat} {s : Store} {piece : Str} {pieces : List Str}
  {strs : Nat → Nat}

/-- The size that is asked for. -/
lemma request_toNat {n : Nat} (lt : n + 1 < 2 ^ 32) : (BitVec.ofNat 32 n + 1 : BitVec 32).toNat = n + 1 := by
  have sum : (BitVec.ofNat 32 n + 1 : BitVec 32) = BitVec.ofNat 32 (n + 1) := (BitVec.ofNat_add n 1).symm
  rw [sum, BitVec.toNat_ofNat, Nat.mod_eq_of_lt lt]

/-- An empty piece is the empty string. -/
lemma copyPiece_nil : Returns (copyPiece addr empty []) s empty s :=
  .bind (.check (by decide)) (.ite_neg (Nat.lt_irrefl 0) (.pure _ _))

/-- A piece is copied if its request is served. -/
lemma copyPiece_served (h : HeapInv addr empty s.heap) (ne : piece ≠ []) (proper : 0 ∉ piece)
    (ok : piece.length + 1 < 2044 ∧ s.heap.HasRoom addr (BitVec.ofNat 32 (piece.length + 1))) :
    ∃ p heap, Returns (copyPiece addr empty piece) s p { s with heap := heap } ∧ Grown addr empty s.heap heap ∧
      Held addr empty heap p piece ∧
      ∀ more, Served addr s.heap ((piece.length + 1) :: more) ↔ Served addr heap more := by
  obtain ⟨small, room⟩ := id ok
  have sum : (BitVec.ofNat 32 (piece.length + 1) : BitVec 32) = BitVec.ofNat 32 piece.length + 1 := BitVec.ofNat_add _ 1
  have len : (BitVec.ofNat 32 piece.length + 1 : BitVec 32).toNat = piece.length + 1 := request_toNat (by omega)
  rw [sum] at room
  obtain ⟨i, p, s1, pool, run, a⟩ := malloc_small h.inv (by omega) room
  have larger := (poolFor_some pool).1
  rw [len] at larger
  have size : (pools addr i).esize.toNat = (Heap.sizes.get i).toNat := rfl
  have string := @stringIn_written s1.memory p piece proper
  have frame : ∀ x, x < p ∨ p + (pools addr i).esize.toNat ≤ x →
      write (write s1.memory (p + piece.length) [0]) p piece x = s1.memory x := by
    intro x outside
    have one : ([0] : List (BitVec 8)).length = 1 := rfl
    rw [write_outside (by omega), write_outside (by omega)]
  have pos : 0 < piece.length := List.length_pos_of_ne_nil ne
  refine ⟨p, { s1 with memory := write (write s1.memory (p + piece.length) [0]) p piece }, ?_,
    allocated_grown h run a frame, ?_, ?_⟩
  · exact .bind (.check (by omega)) (.ite_pos pos
      (.bind (onHeap_returns run) (.bind (.update _ _) (.bind (.update _ _) (.pure _ _)))))
  · obtain ⟨page, live⟩ := new_block a
    exact .inr ⟨i, (p, page), live ▸ List.mem_cons_self, rfl, by omega, string⟩
  · refine fun more => ⟨fun served => ?_, fun served => ⟨ok, fun q t call => ?_⟩⟩
    · exact (served.2 p s1 (sum ▸ run)).same ⟨_, rfl⟩
    · rw [sum] at call
      obtain ⟨-, rfl⟩ := run.unique call
      exact served.same (SameHeap.symm ⟨_, rfl⟩)

/-- Copying a piece fails if the heap does not serve its size. -/
lemma copyPiece_fails (h : HeapInv addr empty s.heap) (ne : piece ≠ [])
    (no : ¬(piece.length + 1 < 2044 ∧ s.heap.HasRoom addr (BitVec.ofNat 32 (piece.length + 1)))) :
    ∃ e, Raises (copyPiece addr empty piece) s e := by
  have pos : 0 < piece.length := List.length_pos_of_ne_nil ne
  by_cases int : piece.length < 2 ^ 31
  · have sum : (BitVec.ofNat 32 (piece.length + 1) : BitVec 32) = BitVec.ofNat 32 piece.length + 1 := BitVec.ofNat_add _ 1
    have len : (BitVec.ofNat 32 piece.length + 1 : BitVec 32).toNat = piece.length + 1 := request_toNat (by omega)
    rw [sum, ← len] at no
    obtain ⟨e, raises⟩ := malloc_fails h.inv no
    refine ⟨.heap e, .rest (.check int) ?_⟩
    rw [if_pos pos]
    exact .first (onHeap_raises raises)
  · exact ⟨.overflow, .first (.check int)⟩

/-! ### The array that is returned -/

/-- The pieces in an array with a null pointer at the end, in a block with room for all of it. -/
def IsArray (addr : BitVec 32) (s : Malloc) (ret : Nat) (pieces : List Str) : Prop :=
  (∀ n (hn : n < pieces.length), StringIn s.memory (word s.memory (ret + 4 * n)) pieces[n]) ∧
    word s.memory (ret + 4 * pieces.length) = 0 ∧ ∃ e, s.Holds (pools addr) ret e ∧ 4 * (pieces.length + 1) ≤ e

/-- The first words of the array are the pointers, and the last one is null. -/
lemma collect_words (ret i : Nat) (lt : ∀ n < i, strs n < 2 ^ 32) (s : Store) :
    ∃ memory, Returns (each (fun n => store (ret + 4 * n) (bytesOf (strs n))) (List.range i))
        { s with heap := { s.heap with memory := write s.heap.memory (ret + 4 * i) (bytesOf 0) } } ()
        { s with heap := { s.heap with memory := memory } } ∧
      (∀ n < i, word memory (ret + 4 * n) = strs n) ∧ word memory (ret + 4 * i) = 0 ∧
      ∀ x, x < ret ∨ ret + 4 * (i + 1) ≤ x → memory x = s.heap.memory x := by
  have four (w : Nat) : (bytesOf w).length = 4 := rfl
  have stored : ∀ k ≤ i, ∃ memory, Returns (each (fun n => store (ret + 4 * n) (bytesOf (strs n))) (List.range k))
        { s with heap := { s.heap with memory := write s.heap.memory (ret + 4 * i) (bytesOf 0) } } ()
        { s with heap := { s.heap with memory := memory } } ∧
      (∀ n < k, word memory (ret + 4 * n) = strs n) ∧ word memory (ret + 4 * i) = 0 ∧
      ∀ x, x < ret ∨ ret + 4 * (i + 1) ≤ x → memory x = s.heap.memory x := by
    intro k
    induction k with
    | zero =>
      refine fun _ => ⟨_, .pure _ _, fun n hn => absurd hn (Nat.not_lt_zero n), word_write (by decide),
        fun x outside => ?_⟩
      exact write_outside (by rw [four]; omega)
    | succ k ih =>
      intro le
      obtain ⟨memory, run, words, null, frame⟩ := ih (Nat.le_of_succ_le le)
      refine ⟨write memory (ret + 4 * k) (bytesOf (strs k)), ?_, fun n hn => ?_, ?_, fun x outside => ?_⟩
      · rw [List.range_succ, each_append, each_singleton]
        exact .bind run (.update _ _)
      · rcases Nat.lt_succ_iff_lt_or_eq.mp hn with lt' | rfl
        · rw [← words n lt']
          exact word_congr fun j hj => write_outside (.inl (by omega))
        · exact word_write (lt n (by omega))
      · rw [← null]
        exact word_congr fun j hj => write_outside (.inr (by rw [four]; omega))
      · rw [write_outside (by rw [four]; omega), frame x outside]
  exact stored i (Nat.le_refl i)

/-- The sizes of the pools are multiples of a word. -/
lemma sizes_four : ∀ i : Fin Heap.sizes.length, (Heap.sizes.get i).toNat % 4 = 0 := by
  decide

/-- The size of the array of pieces. -/
lemma collect_toNat {n : Nat} (lt : 4 * n + 1 < 2 ^ 32) : (4 * BitVec.ofNat 32 n + 1 : BitVec 32).toNat = 4 * n + 1 ∧
    BitVec.ofNat 32 (4 * n + 1) = 4 * BitVec.ofNat 32 n + 1 := by
  have product : BitVec.ofNat 32 (4 * n + 1) = 4 * BitVec.ofNat 32 n + 1 := by
    rw [BitVec.ofNat_add, BitVec.ofNat_mul]
    rfl
  rw [← product, BitVec.toNat_ofNat, Nat.mod_eq_of_lt lt]
  exact ⟨rfl, rfl⟩

/-- The slot for the array has room for all of its pointers, whenever `malloc` returns one. -/
lemma collect_room {s s' : Malloc} {p n : Nat} (h : PoolsInv (pools addr) s) (lt : 4 * n + 1 < 2 ^ 32)
    (run : Returns (malloc addr (4 * BitVec.ofNat 32 n + 1)) s p s') :
    ∃ i, Allocated (pools addr) i s p s' ∧ 4 * (n + 1) ≤ (pools addr i).esize.toNat := by
  obtain ⟨-, -, i, pool, a⟩ := malloc_returns h run
  have larger := (poolFor_some pool).1
  rw [(collect_toNat lt).1] at larger
  have four := sizes_four i
  have size : (pools addr i).esize.toNat = (Heap.sizes.get i).toNat := rfl
  exact ⟨i, a, by omega⟩

/-- The array of pieces is made if the heap serves its size. -/
lemma collect_served (h : HeapInv addr empty s.heap)
    (held : ∀ n (hn : n < pieces.length), Held addr empty s.heap (strs n) pieces[n])
    (served : Served addr s.heap [4 * pieces.length + 1]) :
    ∃ ret s', Returns (collect addr pieces.length strs) s ret s' ∧ IsArray addr s'.heap ret pieces := by
  obtain ⟨⟨small, room⟩, -⟩ := served
  obtain ⟨request, same⟩ := @collect_toNat pieces.length (by omega)
  rw [same] at room
  obtain ⟨-, p, s1, -, run, -⟩ := malloc_small h.inv (by omega) room
  obtain ⟨i, a, enough⟩ := collect_room h.inv (by omega) run
  obtain ⟨memory, stores, words, null, frame⟩ := @collect_words strs p pieces.length (fun n hn => (held n hn).lt h)
    { s with heap := s1 }
  have grown := allocated_grown h run a (m := memory) fun x outside => frame x (by omega)
  refine ⟨p, _, .bind (onHeap_returns run) (.bind (.update _ _) (.bind stores (.pure _ _))), ?_, null, ?_⟩
  · intro n hn
    rw [words n hn]
    exact (grown.held _ _ (held n hn)).string grown.heap
  · obtain ⟨page, live⟩ := new_block a
    exact ⟨_, ⟨i, (p, page), live ▸ List.mem_cons_self, rfl, rfl⟩, enough⟩

/-- The array of pieces is not made if the heap does not serve its size. -/
lemma collect_fails {n : Nat} (h : HeapInv addr empty s.heap) (lt : 4 * n + 1 < 2 ^ 32)
    (no : ¬(4 * n + 1 < 2044 ∧ s.heap.HasRoom addr (BitVec.ofNat 32 (4 * n + 1)))) :
    ∃ e, Raises (collect addr n strs) s e := by
  obtain ⟨request, same⟩ := collect_toNat lt
  rw [same, ← request] at no
  obtain ⟨e, raises⟩ := malloc_fails h.inv no
  exact ⟨.heap e, .first (onHeap_raises raises)⟩

end Pieces

/-! ### The loop -/

section Loop
variable {addr : BitVec 32} {empty : Nat} {junk : Nat → Nat} {sep : Int} {top start : Nat}

/-- The separator as a character. -/
def sepChar (sep : Int) : Byte := BitVec.ofInt 8 sep

/-- A character is the separator. -/
lemma toInt_eq_sep (lo : 1 ≤ sep) (hi : sep ≤ 127) (c : Byte) : c.toInt = sep ↔ c = sepChar sep := by
  have same : (sepChar sep).toInt = sep := BitVec.toInt_ofInt_eq_self (by decide) (by omega) (by omega)
  constructor
  · intro h
    rw [← BitVec.toInt_inj, same, h]
  · rintro rfl
    exact same

/-- The first piece, and the pieces behind the separator. -/
lemma splitOn_parts (lo : 1 ≤ sep) (hi : sep ≤ 127) (s : Str) :
    (∃ r, s.dropWhile (fun c => c.toInt ≠ sep) = sepChar sep :: r ∧ r.length < s.length ∧
      s.splitOn (sepChar sep) = s.takeWhile (fun c => c.toInt ≠ sep) :: r.splitOn (sepChar sep)) ∨
    s.dropWhile (fun c => c.toInt ≠ sep) = [] ∧
      s.splitOn (sepChar sep) = [s.takeWhile fun c => c.toInt ≠ sep] := by
  have whole := @List.takeWhile_append_dropWhile _ (fun c : Byte => decide (c.toInt ≠ sep)) s
  have proper : sepChar sep ∉ s.takeWhile fun c => c.toInt ≠ sep := by
    intro mem
    have ne := List.mem_takeWhile_imp mem
    rw [decide_eq_true_iff] at ne
    exact ne ((toInt_eq_sep lo hi _).mpr rfl)
  cases rest : s.dropWhile fun c => c.toInt ≠ sep with
  | nil =>
    rw [rest, List.append_nil] at whole
    refine .inr ⟨rfl, ?_⟩
    rw [whole] at proper ⊢
    exact List.splitOn_eq_singleton proper
  | cons d r =>
    have first : d.toInt = sep := by
      have head := List.head?_dropWhile_not (fun c : Byte => decide (c.toInt ≠ sep)) s
      rw [rest, List.head?_cons] at head
      simpa using head
    obtain rfl := (toInt_eq_sep lo hi d).mp first
    rw [rest] at whole
    refine .inl ⟨r, rfl, ?_, ?_⟩
    · rw [← whole, List.length_append, List.length_cons]
      omega
    · have split := List.splitOn_append_cons_self_of_not_mem proper r
      rwa [whole] at split

/-- The requests that are made of `malloc` for the pieces from the `i`th on. -/
def requests (i : Nat) (pieces : List Str) : List Nat :=
  (pieces.filter (· ≠ [])).map (fun piece => piece.length + 1) ++ [4 * (i + pieces.length) + 1]

/-- The bytes of the temporary arrays for a number of pieces. -/
def arrays (k : Nat) : Nat := 16 * (k / 8 + 1) * (k / 8 + 2)

/-- More pieces take more of the arena. -/
lemma arrays_mono {j k : Nat} (le : j ≤ k) : arrays j ≤ arrays k := by
  have blocks : j / 8 ≤ k / 8 := Nat.div_le_div_right le
  exact Nat.mul_le_mul (Nat.mul_le_mul_left 16 (Nat.add_le_add_right blocks 1)) (Nat.add_le_add_right blocks 2)

/-- There are not many pieces when their arrays are in memory. -/
lemma arrays_bound {k : Nat} (h : arrays k < 2 ^ 32) : k < 2 ^ 18 := by
  by_contra many
  have blocks : 2 ^ 15 ≤ k / 8 := by omega
  have large : 16 * 2 ^ 15 * 2 ^ 15 ≤ arrays k :=
    Nat.mul_le_mul (Nat.mul_le_mul_left 16 (by omega)) (by omega)
  omega

/-- The head of the loop, with the pieces that are done. The arena started at `start`. -/
structure Head (addr : BitVec 32) (empty start top : Nat) (done : List Str) (s : Store) (l : Locals) : Prop where
  heap : HeapInv addr empty s.heap
  count : l.i = done.length
  max : l.max = 8 * (l.i / 8 + 1)
  held : ∀ n (hn : n < done.length), Held addr empty s.heap (l.strs n) done[n]
  state : s.arena.state.toNat = start + arrays l.i
  arenaTop : s.arena.top.toNat = top
  room : start + arrays l.i ≤ top

variable {done : List Str} {s : Store} {l : Locals}

/-- The request for a piece. -/
def pieceRequests (piece : Str) : List Nat := if piece = [] then [] else [piece.length + 1]

/-- The requests for one piece more. -/
lemma requests_cons (i : Nat) (piece : Str) (pieces : List Str) :
    requests i (piece :: pieces) = pieceRequests piece ++ requests (i + 1) pieces := by
  have last : i + (piece :: pieces).length = i + 1 + pieces.length := by
    rw [List.length_cons]
    omega
  rw [requests, requests, pieceRequests, last, ← List.append_assoc]
  by_cases nil : piece = []
  · rw [if_pos nil, List.filter_cons_of_neg (by simpa using nil), List.nil_append]
  · rw [if_neg nil, List.filter_cons_of_pos (by simpa using nil), List.map_cons, List.singleton_append]

/-- A piece is copied, or its request is not served. -/
lemma copyPiece_cases (h : HeapInv addr empty s.heap) {piece : Str} (proper : 0 ∉ piece) :
    (∃ p heap, Returns (copyPiece addr empty piece) s p { s with heap := heap } ∧ Grown addr empty s.heap heap ∧
      Held addr empty heap p piece ∧
      ∀ more, Served addr s.heap (pieceRequests piece ++ more) ↔ Served addr heap more) ∨
    (∃ e, Raises (copyPiece addr empty piece) s e) ∧ ∀ more, ¬Served addr s.heap (pieceRequests piece ++ more) := by
  by_cases nil : piece = []
  · subst nil
    exact .inl ⟨empty, s.heap, copyPiece_nil, h.grown_refl, .inl ⟨rfl, rfl⟩, fun more => Iff.rfl⟩
  rw [pieceRequests, if_neg nil]
  by_cases ok : piece.length + 1 < 2044 ∧ s.heap.HasRoom addr (BitVec.ofNat 32 (piece.length + 1))
  · exact .inl (copyPiece_served h nil proper ok)
  · exact .inr ⟨copyPiece_fails h nil ok, fun more served => ok served.1⟩

/-- The pointers are copied to the next array. -/
lemma foldl_copies (strs : Nat → Nat) (k n : Nat) :
    (List.range k).foldl (fun new n => Function.update new n (strs n)) junk n =
      if n < k then strs n else junk n := by
  induction k with
  | zero => rfl
  | succ k ih =>
    rw [List.range_succ, List.foldl_append, List.foldl_cons, List.foldl_nil, Function.update_apply, ih]
    by_cases last : n = k
    · subst last
      rw [if_pos rfl, if_pos (Nat.lt_succ_self n)]
    · rw [if_neg last]
      exact ite_congr (propext (by omega)) (fun _ => rfl) fun _ => rfl

/-- The next temporary array, when the one there is is full. -/
lemma expand_cases (h : Head addr empty start top done s l) (strs : Nat → Nat) :
    (∃ strs' max' arena, Returns (expand junk (l.i + 1) l.max strs) s (strs', max') { s with arena := arena } ∧
      max' = 8 * ((l.i + 1) / 8 + 1) ∧ (∀ n < l.i + 1, strs' n = strs n) ∧
      arena.state.toNat = start + arrays (l.i + 1) ∧ arena.top.toNat = top ∧ start + arrays (l.i + 1) ≤ top) ∨
    (∃ e, Raises (expand junk (l.i + 1) l.max strs) s e) ∧ ¬start + arrays (l.i + 1) ≤ top := by
  have max := h.max
  have room := h.room
  have state := h.state
  have arenaTop := h.arenaTop
  have memory := s.arena.top.isLt
  by_cases full : l.i + 1 = l.max
  · have next : (l.i + 1) / 8 = l.i / 8 + 1 := by omega
    have more : arrays (l.i + 1) = arrays l.i + 4 * (l.max + 8) := by
      rw [arrays, arrays, next, max]
      have product : (l.i / 8 + 1 + 1) * (l.i / 8 + 1 + 2) = (l.i / 8 + 1) * (l.i / 8 + 2) + 2 * (l.i / 8 + 2) := by
        rw [← Nat.add_mul, Nat.mul_comm]
      rw [Nat.mul_assoc, Nat.mul_assoc, product]
      omega
    have bound := arrays_bound (k := l.i) (by omega)
    have size : (BitVec.ofNat 32 (l.max + 8) * 4 : BitVec 32).toNat = 4 * (l.max + 8) := by
      rw [BitVec.toNat_mul, BitVec.toNat_ofNat, Nat.mod_eq_of_lt (show l.max + 8 < 2 ^ 32 by omega)]
      show (l.max + 8) * 4 % 2 ^ 32 = _
      rw [Nat.mod_eq_of_lt (show (l.max + 8) * 4 < 2 ^ 32 by omega), Nat.mul_comm]
    by_cases fits : start + arrays (l.i + 1) ≤ top
    · refine .inl ⟨(List.range (l.i + 1)).foldl (fun new n => Function.update new n (strs n)) junk, l.max + 8,
      (Arenas.arenaAlloc s.arena (BitVec.ofNat 32 (l.max + 8) * 4)).2, ?_, by omega, ?_, ?_, arenaTop,
        fits⟩
      · rw [expand, if_pos full]
        exact .bind (.bind (.asks _ _) (.bind (.check (by omega)) (.update _ _))) (.pure _ _)
      · exact fun n hn => (foldl_copies strs (l.i + 1) n).trans (if_pos hn)
      · have round := Arenas.roundUp_toNat (BitVec.ofNat 32 (l.max + 8) * 4)
        rw [size] at round
        show (s.arena.state + ((BitVec.ofNat 32 (l.max + 8) * 4 + (4 - 1)) &&& ~~~(4 - 1))).toNat = _
        rw [BitVec.toNat_add, round]
        omega
    · refine .inr ⟨⟨.arena, ?_⟩, fits⟩
      rw [expand, if_pos full]
      exact .first (.rest (.asks _ _) (.first (.check (by omega))))
  · have next : (l.i + 1) / 8 = l.i / 8 := by omega
    have same : arrays (l.i + 1) = arrays l.i := by rw [arrays, arrays, next]
    refine .inl ⟨strs, l.max, s.arena, ?_, by omega, fun _ _ => rfl, by rw [state, same], arenaTop, by omega⟩
    rw [expand, if_neg full]
    exact .pure _ _

/-- One turn, up to what follows the piece. -/
lemma turn_cases (h : Head addr empty start top done s l) (proper : 0 ∉ l.s) :
    (∃ max strs s1,
      (∀ o s2, Returns (finish addr (l.i + 1) max strs (l.s.dropWhile fun c => c.toInt ≠ sep)) s1 o s2 →
        Returns (ssplitBody addr empty junk sep l) s o s2) ∧
      (∀ e, Raises (finish addr (l.i + 1) max strs (l.s.dropWhile fun c => c.toInt ≠ sep)) s1 e →
        Raises (ssplitBody addr empty junk sep l) s e) ∧
      (∀ rest, Head addr empty start top (done ++ [l.s.takeWhile fun c => c.toInt ≠ sep]) s1 ⟨l.i + 1, max, strs, rest⟩) ∧
      ∀ more, Served addr s.heap (pieceRequests (l.s.takeWhile fun c => c.toInt ≠ sep) ++ more) ↔
        Served addr s1.heap more) ∨
    (∃ e, Raises (ssplitBody addr empty junk sep l) s e) ∧
      ∀ more, ¬(Served addr s.heap (pieceRequests (l.s.takeWhile fun c => c.toInt ≠ sep) ++ more) ∧
        start + arrays (l.i + 1) ≤ top) := by
  have max := h.max
  have count := h.count
  have free : l.i < l.max := by omega
  rcases @copyPiece_cases addr empty s h.heap _ (fun mem => proper ((List.takeWhile_sublist _).subset mem)) with
    ⟨p, heap, copy, grown, held, served⟩ | ⟨⟨e, raises⟩, no⟩
  · have h' : Head addr empty start top done { s with heap := heap } l :=
      ⟨grown.heap, h.count, h.max, fun n hn => grown.held _ _ (h.held n hn), h.state, h.arenaTop, h.room⟩
    rcases @expand_cases addr empty junk top start done _ l h' (Function.update l.strs l.i p) with
      ⟨strs, max', arena, expands, size, same, state, arenaTop, room⟩ | ⟨⟨e, raises⟩, full⟩
    · refine .inl ⟨max', strs, ⟨heap, arena⟩, fun o s2 run => ?_, fun e raises => ?_, fun rest => ?_, served⟩
      · exact .bind copy (.bind (.check free) (.bind expands run))
      · exact .rest copy (.rest (.check free) (.rest expands raises))
      · refine ⟨grown.heap, ?_, size, fun n hn => ?_, state, arenaTop, room⟩
        · rw [List.length_append, List.length_singleton, ← h.count]
        · rw [List.length_append, List.length_singleton, ← h.count] at hn
          show Held addr empty heap (strs n) _
          rw [same n hn]
          rcases Nat.lt_succ_iff_lt_or_eq.mp hn with lt | rfl
          · have lt' : n < done.length := by omega
            rw [Function.update_of_ne (Nat.ne_of_lt lt), List.getElem_append_left lt']
            exact h'.held n lt'
          · rw [Function.update_self, List.getElem_append_right (Nat.le_of_eq count.symm)]
            simpa using held
    · exact .inr ⟨⟨e, .rest copy (.rest (.check free) (.first raises))⟩, fun more h => full h.2⟩
  · exact .inr ⟨⟨e, .first raises⟩, fun more h => no more h.1⟩

/-- Every request of the loop is served, and its arrays are within the arena. -/
def Feasible (addr : BitVec 32) (start top : Nat) (s : Malloc) (i : Nat) (pieces : List Str) : Prop :=
  Served addr s (requests i pieces) ∧ start + arrays (i + pieces.length) ≤ top

/-- Whether the rest can be split, one piece at a time. -/
lemma feasible_cons {s' : Malloc} {i : Nat} {piece : Str} {pieces : List Str} :
    Feasible addr start top s' i (piece :: pieces) ↔
      Served addr s' (pieceRequests piece ++ requests (i + 1) pieces) ∧ start + arrays (i + 1 + pieces.length) ≤ top := by
  rw [Feasible, requests_cons, List.length_cons, Nat.add_right_comm, Nat.add_assoc i]

/-- The last piece. -/
lemma loop_last (h : Head addr empty start top done s l) (proper : 0 ∉ l.s)
    (rest : (l.s.dropWhile fun c => c.toInt ≠ sep) = []) :
    (Feasible addr start top s.heap l.i [l.s.takeWhile fun c => c.toInt ≠ sep] ∧
      ∃ ret s', Returns (loop (ssplitBody addr empty junk sep) l) s ret s' ∧
        IsArray addr s'.heap ret (done ++ [l.s.takeWhile fun c => c.toInt ≠ sep])) ∨
    ¬Feasible addr start top s.heap l.i [l.s.takeWhile fun c => c.toInt ≠ sep] ∧
      ∃ e, Raises (loop (ssplitBody addr empty junk sep) l) s e := by
  have only : requests (l.i + 1) [] = [4 * (l.i + 1) + 1] := rfl
  rw [feasible_cons, only, List.length_nil, Nat.add_zero]
  rcases @turn_cases addr empty junk sep top start done s l h proper with
    ⟨max, strs, s1, returns, faults, head, served⟩ | ⟨⟨e, raises⟩, no⟩
  · rw [rest] at returns faults
    have head := head []
    have memory := s1.arena.top.isLt
    have top' := head.arenaTop
    have room := head.room
    have room' : start + arrays (l.i + 1) ≤ top := room
    have bound := arrays_bound (k := l.i + 1) (by omega)
    have count : l.i + 1 = (done ++ [l.s.takeWhile fun c => c.toInt ≠ sep]).length := head.count
    by_cases ok : 4 * (l.i + 1) + 1 < 2044 ∧ s1.heap.HasRoom addr (BitVec.ofNat 32 (4 * (l.i + 1) + 1))
    · have last : Served addr s1.heap [4 * (l.i + 1) + 1] := ⟨ok, fun _ _ _ => trivial⟩
      obtain ⟨ret, s', run, array⟩ := @collect_served addr empty s1 _ strs head.heap head.held (count ▸ last)
      rw [← count] at run
      exact .inl ⟨⟨(served _).mpr last, room'⟩, ret, s', .exit (returns _ s' (.bind run (.pure _ _))), array⟩
    · obtain ⟨e, raises⟩ := @collect_fails addr empty s1 strs _ head.heap (by omega) ok
      exact .inr ⟨fun fit => ok ((served _).mp fit.1).1, e, .loop (faults e (.first raises))⟩
  · exact .inr ⟨no _, e, .loop raises⟩

/-- The loop ends, with the array of pieces or with an error. -/
lemma loop_ends (lo : 1 ≤ sep) (hi : sep ≤ 127) (h : Head addr empty start top done s l) (proper : 0 ∉ l.s) :
    (Feasible addr start top s.heap l.i (l.s.splitOn (sepChar sep)) ∧
      ∃ ret s', Returns (loop (ssplitBody addr empty junk sep) l) s ret s' ∧
        IsArray addr s'.heap ret (done ++ l.s.splitOn (sepChar sep))) ∨
    ¬Feasible addr start top s.heap l.i (l.s.splitOn (sepChar sep)) ∧
      ∃ e, Raises (loop (ssplitBody addr empty junk sep) l) s e := by
  generalize len : l.s.length = n
  induction n using Nat.strong_induction_on generalizing done s l with
  | _ n ih =>
    rcases splitOn_parts lo hi l.s with ⟨r, rest, shorter, split⟩ | ⟨rest, split⟩
    · rw [split, feasible_cons]
      rcases @turn_cases addr empty junk sep top start done s l h proper with
        ⟨max, strs, s1, returns, -, head, served⟩ | ⟨⟨e, raises⟩, no⟩
      · rw [rest] at returns
        have turn := returns _ s1 (.pure _ _)
        have proper' : 0 ∉ r := fun mem => proper ((List.dropWhile_sublist _).subset (rest ▸ List.mem_cons_of_mem _ mem))
        rw [served]
        rcases ih r.length (by omega) (head r) proper' rfl with ⟨ok, ret, s', run, array⟩ | ⟨bad, e, raises⟩
        · rw [List.append_assoc] at array
          exact .inl ⟨ok, ret, s', .turn turn run, array⟩
        · exact .inr ⟨bad, e, .turn turn raises⟩
      · refine .inr ⟨?_, e, .loop raises⟩
        rintro ⟨served, room⟩
        exact no _ ⟨served, Nat.le_trans (Nat.add_le_add_left (arrays_mono (Nat.le_add_right _ _)) start) room⟩
    · rw [split]
      exact loop_last h proper rest

end Loop

/-! ### The pieces -/

section Whole
variable {addr : BitVec 32} {empty : Nat} {junk : Nat → Nat} {sep : Int} {s : Store} {str : Str}

/-- One more piece than there are separators, none of which is in a piece; the separator between the pieces gives the
    string. -/
structure IsSplit (sep : Int) (str : Str) (pieces : List Str) : Prop where
  count : pieces.length = str.countP (fun c => c.toInt = sep) + 1
  proper : ∀ piece ∈ pieces, ∀ c ∈ piece, c.toInt ≠ sep
  join : [sepChar sep].intercalate pieces = str

/-- Splitting at the separator is the split that is asked for. -/
lemma splitOn_isSplit (lo : 1 ≤ sep) (hi : sep ≤ 127) (str : Str) : IsSplit sep str (str.splitOn (sepChar sep)) := by
  have whole := fun s : Str => @List.takeWhile_append_dropWhile _ (fun c : Byte => decide (c.toInt ≠ sep)) s
  have before : ∀ s : Str, ∀ c ∈ s.takeWhile (fun c => c.toInt ≠ sep), c.toInt ≠ sep := fun s c mem => by
    simpa using List.mem_takeWhile_imp mem
  have none : ∀ s : Str, (s.takeWhile fun c => c.toInt ≠ sep).countP (fun c => c.toInt = sep) = 0 := fun s =>
    List.countP_eq_zero.mpr fun c mem => by simpa using before s c mem
  suffices parts : (str.splitOn (sepChar sep)).length = str.countP (fun c => c.toInt = sep) + 1 ∧
      ∀ piece ∈ str.splitOn (sepChar sep), ∀ c ∈ piece, c.toInt ≠ sep from ⟨parts.1, parts.2, List.intercalate_splitOn _⟩
  generalize len : str.length = n
  induction n using Nat.strong_induction_on generalizing str with
  | _ n ih =>
    have here := whole str
    rcases splitOn_parts lo hi str with ⟨r, rest, shorter, split⟩ | ⟨rest, split⟩
    · obtain ⟨count, proper⟩ := ih r.length (by omega) r rfl
      rw [rest] at here
      refine ⟨?_, fun piece mem => ?_⟩
      · conv_rhs => rw [← here]
        rw [split, List.length_cons, count, List.countP_append, none, List.countP_cons, Nat.zero_add,
          if_pos (decide_eq_true ((toInt_eq_sep lo hi _).mpr rfl))]
      · rw [split] at mem
        rcases List.mem_cons.mp mem with rfl | mem
        · exact before str
        · exact proper piece mem
    · rw [rest, List.append_nil] at here
      refine ⟨?_, fun piece mem => ?_⟩
      · conv_rhs => rw [← here]
        rw [split, none]
        rfl
      · rw [split, List.mem_singleton] at mem
        rw [mem]
        exact before str

/-- `ssplit` returns the pieces of the string, in an array with room for them and the null pointer. -/
def Splits (addr : BitVec 32) (empty : Nat) (junk : Nat → Nat) (sep : Int) (str : Str) (s : Store) : Prop :=
  ∃ ret s' pieces, Returns (ssplit addr empty junk sep str) s ret s' ∧ IsSplit sep str pieces ∧
    IsArray addr s'.heap ret pieces

/-- `ssplit` ends, with the pieces or with an error. -/
lemma ssplit_ends (lo : 1 ≤ sep) (hi : sep ≤ 127) (h : HeapInv addr empty s.heap) (proper : 0 ∉ str) :
    (Feasible addr s.arena.state.toNat s.arena.top.toNat s.heap 0 (str.splitOn (sepChar sep)) ∧
      Splits addr empty junk sep str s) ∨
    ¬Feasible addr s.arena.state.toNat s.arena.top.toNat s.heap 0 (str.splitOn (sepChar sep)) ∧
      ∃ e, Raises (ssplit addr empty junk sep str) s e := by
  have first : arrays 0 = 32 := rfl
  have memory := s.arena.top.isLt
  by_cases room : s.arena.state.toNat + 32 ≤ s.arena.top.toNat
  · have state : (s.arena.state + ((8 * 4 + (4 - 1)) &&& ~~~(4 - 1)) : BitVec 32).toNat = s.arena.state.toNat + 32 := by
      rw [BitVec.toNat_add]
      show (s.arena.state.toNat + 32) % 2 ^ 32 = _
      rw [Nat.mod_eq_of_lt (by omega)]
    have alloc : Returns (tmalloc (8 * 4)) s () { s with arena := (Arenas.arenaAlloc s.arena (8 * 4)).2 } :=
      .bind (.asks _ _) (.bind (.check room) (.update _ _))
    have head : Head addr empty s.arena.state.toNat s.arena.top.toNat []
        { s with arena := (Arenas.arenaAlloc s.arena (8 * 4)).2 } ⟨0, 8, Function.update junk 0 0, str⟩ :=
      by
      refine ⟨h, rfl, ?_, fun n hn => absurd hn (Nat.not_lt_zero n), ?_, rfl, ?_⟩
      · show 8 = 8 * (0 / 8 + 1)
        omega
      · show (Arenas.arenaAlloc s.arena (8 * 4)).2.state.toNat = s.arena.state.toNat + arrays 0
        rw [first]
        exact state
      · show s.arena.state.toNat + arrays 0 ≤ s.arena.top.toNat
        rw [first]
        exact room
    rcases @loop_ends addr empty junk sep _ _ [] _ _ lo hi head proper with ⟨fits, ret, s', run, array⟩ | ⟨no, e, raises⟩
    · exact .inl ⟨fits, ret, s', _, .bind alloc run, splitOn_isSplit lo hi str, array⟩
    · exact .inr ⟨no, e, .rest alloc raises⟩
  · refine .inr ⟨fun fits => room ?_, .arena, .first (.rest (.asks _ _) (.first (.check room)))⟩
    have least := @arrays_mono 0 (0 + (str.splitOn (sepChar sep)).length) (Nat.zero_le _)
    have all := fits.2
    omega

/-- From every state of the heap, with `""` in the kernel below it, `ssplit` returns the pieces of the string exactly if
    each request for a piece, and the one for the array, is below 2044 bytes and is served, and the temporary arrays
    are within the arena. -/
theorem ssplit_iff (boot : Boot) (reached : Reached addr boot s.heap) (zero : s.heap.memory empty = 0)
    (low : empty < s.heap.base) (lo : 1 ≤ sep) (hi : sep ≤ 127) (proper : 0 ∉ str) :
    Splits addr empty junk sep str s ↔
      Feasible addr s.arena.state.toNat s.arena.top.toNat s.heap 0 (str.splitOn (sepChar sep)) := by
  rcases @ssplit_ends addr empty junk sep s str lo hi ⟨reached.inv, zero, low⟩ proper with
    ⟨fits, splits⟩ | ⟨no, e, raises⟩
  · exact iff_of_true splits fits
  · refine iff_of_false ?_ no
    rintro ⟨_, _, _, run, _⟩
    exact raises.not_returns run

/-- The heap when nothing has been allocated, and a new arena. -/
def emptyStore : Store := ⟨emptyHeap, (Arenas.arenaCreate 0xd0000000 0x400000).1⟩

/-- The two pieces of `"/"`. -/
theorem ssplit_slash : Splits 0xc0110000 0xc0100000 (fun _ => 0) 47 [47#8] emptyStore := by
  refine (ssplit_iff _ emptyHeap_reached rfl (by decide) (by decide) (by decide) (by decide)).mpr ⟨?_, by decide⟩
  exact ⟨⟨by decide, .inr (.inr (by decide))⟩, fun _ _ _ => trivial⟩

/-- A piece of 2043 characters is too long. -/
lemma long_piece {n : Nat} (long : 2043 ≤ n) :
    ¬Splits 0xc0110000 0xc0100000 (fun _ => 0) 47 (List.replicate n 97#8) emptyStore := by
  have only : ∀ c ∈ List.replicate n 97#8, c = 97#8 := fun c mem => List.eq_of_mem_replicate mem
  have single : (List.replicate n 97#8).splitOn (sepChar 47) = [List.replicate n 97#8] :=
    List.splitOn_eq_singleton fun mem => absurd (only _ mem) (by decide)
  have proper : 0 ∉ List.replicate n 97#8 := fun mem => absurd (only _ mem) (by decide)
  rcases @ssplit_ends 0xc0110000 0xc0100000 (fun _ => 0) 47 emptyStore _ (by decide) (by decide)
      ⟨emptyHeap_reached.inv, rfl, by decide⟩ proper with ⟨⟨served, -⟩, -⟩ | ⟨-, e, raises⟩
  · have ne : List.replicate n 97#8 ≠ [] := List.ne_nil_of_length_pos (by rw [List.length_replicate]; omega)
    rw [single, requests_cons, pieceRequests, if_neg ne] at served
    have small := served.1.1
    rw [List.length_replicate] at small
    omega
  · rintro ⟨_, _, _, run, _⟩
    exact raises.not_returns run

/-- A piece of 2043 characters takes every page of the heap. -/
theorem ssplit_long_piece : ¬Splits 0xc0110000 0xc0100000 (fun _ => 0) 47 (List.replicate 2043 97#8) emptyStore :=
  long_piece (Nat.le_refl 2043)

end Whole

end Twcos.Split
