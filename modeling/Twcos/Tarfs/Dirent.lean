import Twcos.Assoc.Order
import Twcos.Tarfs.Basic
import Twcos.Text.Compare

/-!
# The order of directory entries

`tarfs_dirent_cmp` cuts the difference of two inodes off to an `int`, so that directories are compared around a circle of
2^32. `direntCmp_iff` says for which sets of entries it is an order, as the tree needs: their directories are within half
of the circle (`Near`), and no two of them are at the same place of it with the same name (`NamesApart`). Then it is the
lexicographic order of the places and the characters of the names, in which the NUL counts as a character.
-/

namespace Twcos.Tarfs
open Twcos.Assoc Twcos.Text

/-- The sign of the comparator is a total order of the entries. -/
structure TotalOn (S : Set TarfsDirent) : Prop where
  flip : ∀ d ∈ S, ∀ e ∈ S, tarfsDirentCmp d e < 0 ↔ 0 < tarfsDirentCmp e d
  trans : ∀ d ∈ S, ∀ e ∈ S, ∀ f ∈ S, tarfsDirentCmp d e ≤ 0 → tarfsDirentCmp e f ≤ 0 → tarfsDirentCmp d f ≤ 0
  equal : ∀ d ∈ S, ∀ e ∈ S, tarfsDirentCmp d e = 0 ↔ d.dir = e.dir ∧ d.name = e.name

/-- The place of a directory on the circle, from another one on. -/
def place (base dir : BitVec 64) : Nat := (dir - base).toNat % 2 ^ 32

/-- All directories are within half of the circle. -/
def Near (S : Set TarfsDirent) : Prop := ∃ base, ∀ d ∈ S, place base d.dir < 2 ^ 31

/-- Different directories at the same place do not have the same name in them. -/
def NamesApart (S : Set TarfsDirent) : Prop :=
  ∀ d ∈ S, ∀ e ∈ S, d.name = e.name → d.dir.toNat % 2 ^ 32 = e.dir.toNat % 2 ^ 32 → d.dir = e.dir

/-! ### Names -/

/-- The characters with the NUL behind them. -/
def chars (s : Str) : List Int := s.map BitVec.toInt ++ [0]

/-- A character that is not NUL is not zero as a `char`. -/
lemma toInt_ne_zero {c : Byte} (ne : c ≠ 0) : c.toInt ≠ 0 := by
  rw [Ne, ← BitVec.toInt_zero, BitVec.toInt_inj]
  exact ne

/-- `strcmp` has the sign of the first difference. -/
lemma strcmp_sameSign {s t : Str} (hs : 0 ∉ s) (ht : 0 ∉ t) : SameSign (strcmp s t) (compareIn (chars s) (chars t)) := by
  induction s generalizing t with
  | nil =>
    cases t with
    | nil => exact ⟨Iff.rfl, Iff.rfl⟩
    | cons b t =>
      have ne := toInt_ne_zero (head_ne_nul ht)
      rw [strcmp, chars, chars, List.map_nil, List.nil_append, List.map_cons, List.cons_append, compareIn_cons ne.symm,
        ← Int.zero_sub]
      exact sub_sameSign 0 _
  | cons a s ih =>
    cases t with
    | nil =>
      have ne := toInt_ne_zero (head_ne_nul hs)
      rw [strcmp, chars, chars, List.map_nil, List.nil_append, List.map_cons, List.cons_append, compareIn_cons ne]
      have sign := sub_sameSign a.toInt 0
      rwa [Int.sub_zero] at sign
    | cons b t =>
      rw [strcmp, chars, chars, List.map_cons, List.map_cons, List.cons_append, List.cons_append]
      by_cases same : a = b
      · subst same
        rw [if_pos rfl, compareIn_cons_self]
        exact ih (fun mem => hs (List.mem_cons_of_mem _ mem)) fun mem => ht (List.mem_cons_of_mem _ mem)
      · rw [if_neg same, compareIn_cons fun e => same (BitVec.toInt_inj.mp e)]
        exact sub_sameSign _ _

/-- Names are the same if their characters are. -/
lemma chars_inj {s t : Str} : chars s = chars t ↔ s = t := by
  rw [chars, chars, List.append_left_inj]
  exact (List.map_injective_iff.mpr fun _ _ => BitVec.toInt_inj.mp).eq_iff

/-! ### Directories -/

/-- The difference that is compared. -/
def dirDiff (d e : BitVec 64) : Int := ((d - e).setWidth 32).toInt

/-- It is the difference of the inodes up to turns of the circle. -/
lemma dirDiff_eq (d e : BitVec 64) : ∃ q : Int, dirDiff d e = d.toNat - e.toNat + 2 ^ 32 * q ∧
    -2 ^ 31 ≤ dirDiff d e ∧ dirDiff d e < 2 ^ 31 := by
  have hd := d.isLt
  have he := e.isLt
  refine ⟨(dirDiff d e - (d.toNat - e.toNat)) / 2 ^ 32, ?_⟩
  rw [dirDiff, BitVec.toInt_eq_toNat_cond, BitVec.toNat_setWidth, BitVec.toNat_sub]
  split_ifs <;> omega

/-- How far a directory is behind the base, in 32 bits. -/
lemma place_eq (b d : BitVec 64) : ∃ q : Int, (place b d : Int) = d.toNat - b.toNat + 2 ^ 32 * q ∧ place b d < 2 ^ 32 := by
  have hd := d.isLt
  have hb := b.isLt
  refine ⟨(place b d - (d.toNat - b.toNat)) / 2 ^ 32, ?_⟩
  rw [place, BitVec.toNat_sub]
  omega

/-- Entries are compared by their directories first. -/
lemma tarfsDirentCmp_eq (d e : TarfsDirent) :
    tarfsDirentCmp d e = if dirDiff d.dir e.dir = 0 then strcmp d.name e.name else dirDiff d.dir e.dir := rfl

/-- Within half of the circle the difference is that of the places. -/
lemma dirDiff_place {b d e : BitVec 64} (hd : place b d < 2 ^ 31) (he : place b e < 2 ^ 31) :
    dirDiff d e = (place b d : Int) - place b e := by
  obtain ⟨q, eq, lo, hi⟩ := dirDiff_eq d e
  obtain ⟨r, placeD, -⟩ := place_eq b d
  obtain ⟨r', placeE, -⟩ := place_eq b e
  omega

/-- Two directories at the same place. -/
lemma dirDiff_zero {d e : BitVec 64} : dirDiff d e = 0 ↔ d.toNat % 2 ^ 32 = e.toNat % 2 ^ 32 := by
  obtain ⟨q, eq, lo, hi⟩ := dirDiff_eq d e
  omega

/-! ### The order -/

section Total
variable {S : Set TarfsDirent}

/-- The place and the characters of the name. -/
def rank (base : BitVec 64) (d : TarfsDirent) : List Int := (place base d.dir : Int) :: chars d.name

/-- Near the base the comparison has the sign of the order of directory and name. -/
lemma cmp_sameSign {base : BitVec 64} {d e : TarfsDirent} (hd : place base d.dir < 2 ^ 31) (he : place base e.dir < 2 ^ 31)
    (name : 0 ∉ d.name) (name' : 0 ∉ e.name) :
    SameSign (tarfsDirentCmp d e) (compareIn (rank base d) (rank base e)) := by
  rw [tarfsDirentCmp_eq, dirDiff_place hd he, rank, rank]
  by_cases same : (place base d.dir : Int) = place base e.dir
  · rw [if_pos (Int.sub_eq_zero.mpr same), same, compareIn_cons_self]
    exact strcmp_sameSign name name'
  · rw [if_neg fun zero => same (Int.sub_eq_zero.mp zero), compareIn_cons same]
    exact sub_sameSign _ _

/-- For entries near each other the comparison is a total order. -/
lemma totalOn_of_near (names : ∀ d ∈ S, 0 ∉ d.name) (near : Near S) (apart : NamesApart S) : TotalOn S := by
  obtain ⟨base, near⟩ := near
  have sign (d) (hd : d ∈ S) (e) (he : e ∈ S) := cmp_sameSign (near d hd) (near e he) (names d hd) (names e he)
  have order := compareIn_signPreorder (α := List Int)
  constructor
  · intro d hd e he
    rw [(sign d hd e he).neg, (sign e he d hd).pos]
    exact order.flip _ _
  · intro d hd e he f hf de ef
    rw [← Int.not_lt, (sign _ hd _ he).pos, Int.not_lt] at de
    rw [← Int.not_lt, (sign _ he _ hf).pos, Int.not_lt] at ef
    rw [← Int.not_lt, (sign _ hd _ hf).pos, Int.not_lt]
    exact order.trans _ _ _ de ef
  · intro d hd e he
    rw [(sign d hd e he).zero, compareIn_zero, rank, rank, List.cons.injEq, chars_inj]
    constructor
    · rintro ⟨same, name⟩
      have zero : dirDiff d.dir e.dir = 0 := by
        rw [dirDiff_place (near d hd) (near e he)]
        exact Int.sub_eq_zero.mpr same
      exact ⟨apart d hd e he name (dirDiff_zero.mp zero), name⟩
    · rintro ⟨dir, name⟩
      rw [dir, name]
      exact ⟨rfl, rfl⟩

/-- A difference that is not zero is what is returned. -/
lemma cmp_of_ne {d e : TarfsDirent} (ne : dirDiff d.dir e.dir ≠ 0) : tarfsDirentCmp d e = dirDiff d.dir e.dir := if_neg ne

/-- Directories half of the circle apart are each below the other. -/
lemma TotalOn.not_opposite (h : TotalOn S) {d e : TarfsDirent} (hd : d ∈ S) (he : e ∈ S) :
    dirDiff d.dir e.dir ≠ -2 ^ 31 := by
  intro opposite
  obtain ⟨q, eq, -, -⟩ := dirDiff_eq d.dir e.dir
  obtain ⟨r, eq', lo, hi⟩ := dirDiff_eq e.dir d.dir
  have back : dirDiff e.dir d.dir = -2 ^ 31 := by omega
  have below : tarfsDirentCmp d e < 0 := by
    rw [cmp_of_ne (by omega)]
    omega
  have above := (h.flip d hd e he).mp below
  rw [cmp_of_ne (by omega)] at above
  omega

/-- Of the entries up to half of the circle before some entry, the one that is furthest before it. -/
lemma exists_furthest {d : TarfsDirent} (hd : d ∈ S) : ∃ e ∈ S, place e.dir d.dir < 2 ^ 31 ∧
    ∀ f ∈ S, place f.dir d.dir < 2 ^ 31 → place f.dir d.dir ≤ place e.dir d.dir := by
  classical
  have here : place d.dir d.dir = 0 := by
    rw [place, BitVec.sub_self]
    rfl
  have some : ∃ k, ∃ e ∈ S, place e.dir d.dir + k + 1 = 2 ^ 31 := ⟨2 ^ 31 - 1, d, hd, by omega⟩
  obtain ⟨e, he, far⟩ := Nat.find_spec some
  refine ⟨e, he, by omega, fun f hf near => ?_⟩
  by_contra further
  exact Nat.find_min some (show 2 ^ 31 - 1 - place f.dir d.dir < Nat.find some by omega) ⟨f, hf, by omega⟩

/-- An order has a lowest directory, and the others are up to half of the circle behind it. -/
lemma TotalOn.near (h : TotalOn S) : Near S := by
  rcases S.eq_empty_or_nonempty with rfl | ⟨d, hd⟩
  · exact ⟨0, fun d mem => absurd mem (Set.notMem_empty d)⟩
  obtain ⟨e, he, below, furthest⟩ := exists_furthest hd
  refine ⟨e.dir, fun f hf => ?_⟩
  by_contra behind
  have opposite := h.not_opposite hf he
  have opposite' := h.not_opposite hf hd
  have further := furthest f hf
  obtain ⟨q1, fe, lo1, hi1⟩ := dirDiff_eq f.dir e.dir
  obtain ⟨q2, fd, lo2, hi2⟩ := dirDiff_eq f.dir d.dir
  obtain ⟨q3, ed, lo3, hi3⟩ := dirDiff_eq e.dir d.dir
  obtain ⟨r1, ef, top1⟩ := place_eq e.dir f.dir
  obtain ⟨r2, ed', top2⟩ := place_eq e.dir d.dir
  obtain ⟨r3, fd', top3⟩ := place_eq f.dir d.dir
  -- `f` is below `e`, which is at the place of `d` or below it
  have lower : tarfsDirentCmp f e < 0 := by
    rw [cmp_of_ne (by omega)]
    omega
  by_cases same : dirDiff e.dir d.dir = 0
  · omega
  · have low : tarfsDirentCmp e d < 0 := by
      rw [cmp_of_ne same]
      omega
    have le := h.trans f hf e he d hd (Int.le_of_lt lower) (Int.le_of_lt low)
    by_cases zero : dirDiff f.dir d.dir = 0
    · omega
    · rw [cmp_of_ne zero] at le
      omega

/-- Where it is one, different names do not compare equal. -/
lemma TotalOn.namesApart (h : TotalOn S) : NamesApart S := by
  intro d hd e he name same
  have self : tarfsDirentCmp d d = 0 := (h.equal d hd d hd).mpr ⟨rfl, rfl⟩
  rw [tarfsDirentCmp_eq, if_pos (dirDiff_zero.mpr rfl)] at self
  refine ((h.equal d hd e he).mp ?_).1
  rw [tarfsDirentCmp_eq, if_pos (dirDiff_zero.mpr same), ← name, self]

/-- The comparator is a total order of the entries exactly if their directories are within half of the circle and no two
    entries with the same name are at the same place of it. -/
theorem direntCmp_iff (S : Set TarfsDirent) (names : ∀ d ∈ S, 0 ∉ d.name) : TotalOn S ↔ Near S ∧ NamesApart S :=
  ⟨fun h => ⟨h.near, h.namesApart⟩, fun h => totalOn_of_near names h.1 h.2⟩

end Total

/-- The entry `a` of a directory. -/
def entryA (dir : BitVec 64) : TarfsDirent := ⟨dir, [0x61]⟩

/-- The entries of two directories. -/
theorem direntCmp_two : TotalOn {entryA 1, entryA 2} := by
  refine (direntCmp_iff {entryA 1, entryA 2} ?_).mpr ⟨⟨1, ?_⟩, ?_⟩
  · rintro d (rfl | rfl)
    · decide
    · decide
  · rintro d (rfl | rfl)
    · decide
    · decide
  · rintro d (rfl | rfl) e (rfl | rfl) - same
    · rfl
    · exact absurd same (by decide)
    · exact absurd same (by decide)
    · rfl

/-- The directories 1 and 2^32 + 1 are taken for one, 1 and 2^31 + 1 are each below the other, and three thirds of the circle
    are each below the next. -/
theorem direntCmp_circle : ¬TotalOn {d | 0 ∉ d.name} ∧ tarfsDirentCmp (entryA 1) (entryA 0x100000001) = 0 ∧
    (tarfsDirentCmp (entryA 1) (entryA 0x80000001) < 0 ∧ tarfsDirentCmp (entryA 0x80000001) (entryA 1) < 0) ∧
    tarfsDirentCmp (entryA 1) (entryA 0x60000001) < 0 ∧ tarfsDirentCmp (entryA 0x60000001) (entryA 0xC0000001) < 0 ∧
    tarfsDirentCmp (entryA 0xC0000001) (entryA 1) < 0 := by
  have same : tarfsDirentCmp (entryA 1) (entryA 0x100000001) = 0 := by decide
  refine ⟨fun h => ?_, same, by decide, by decide, by decide, by decide⟩
  have name (dir : BitVec 64) : entryA dir ∈ {d : TarfsDirent | 0 ∉ d.name} := by
    show 0 ∉ [0x61]
    decide
  exact absurd ((h.equal _ (name 1) _ (name 0x100000001)).mp same).1 (by decide)

end Twcos.Tarfs
