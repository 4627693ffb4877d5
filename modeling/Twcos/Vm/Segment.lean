import Twcos.Tree.Map
import Twcos.Word.Basic

/-!
# Segments and address spaces

Model of `segment_t` of `kernel/vm.c` and of the maps of segments that make up an address space. An
address space is a tree map keyed by the base address, so what a lookup in it gives is what `tree_get`
picks from the segments in order (`treeGet_segments`).

Addresses and sizes are 32-bit words, file offsets (`off_t`) 64-bit words. A segment covers the addresses
whose distance from its base is less than its size.
-/

namespace Twcos.Vm
open Twcos.Prog Twcos.Tree

/-- A virtual address. -/
abbrev Addr := BitVec 32

/-- `ARCH_PAGE_SIZE`. -/
def ARCH_PAGE_SIZE : BitVec 32 := 1 <<< 12

/-- `ARCH_PAGE_ALIGN`. -/
def archPageAlign (p : Addr) : Addr := p &&& (0xffffffff#32 <<< 12)

/-- `segment_t`; `dirty` and `clean` are the identities of its objects. -/
structure Segment where
  base : Addr
  size : BitVec 32
  perms : BitVec 32
  dirty : Nat
  read_offset : BitVec 64
  clean : Nat
deriving DecidableEq

/-- `SEGMENT_R`, `SEGMENT_W`, `SEGMENT_X`, `SEGMENT_U`, `SEGMENT_P`. -/
def SEGMENT_R : BitVec 32 := 0x1
@[inherit_doc SEGMENT_R] def SEGMENT_W : BitVec 32 := 0x2
@[inherit_doc SEGMENT_R] def SEGMENT_X : BitVec 32 := 0x4
@[inherit_doc SEGMENT_R] def SEGMENT_U : BitVec 32 := 0x8
@[inherit_doc SEGMENT_R] def SEGMENT_P : BitVec 32 := 0x10

/-- The segment covers the address. -/
def Segment.Has (seg : Segment) (q : Addr) : Prop := q - seg.base < seg.size

/-- Writing is permitted. -/
def Segment.Writable (seg : Segment) : Prop := seg.perms &&& SEGMENT_W ≠ 0

instance (seg : Segment) : Decidable seg.Writable := inferInstanceAs (Decidable (_ ≠ _))

/-- The segments of an address space in the order of their bases, no two of which cover one address. -/
structure AddressSpace where
  segments : List Segment
  ordered : segments.Pairwise fun a b => a.base < b.base
  disjoint : segments.Pairwise fun a b => ∀ q, ¬(a.Has q ∧ b.Has q)

/-- `map_keycmp` of a base address and a segment. -/
def keySign (key : Addr) (seg : Segment) : Int := mapKeycmp key.toNat seg.base.toNat

/-- `map_getpp_cond` on an address space. -/
def AddressSpace.get (as : AddressSpace) (key : Addr) (cond : MapEqTest) : Option Segment :=
  pick (keySign key) as.segments cond

/-- A segment compares equal to its base. -/
lemma keySign_eq {key : Addr} {seg : Segment} : keySign key seg = 0 ↔ seg.base = key := by
  rw [keySign, mapKeycmp]
  constructor
  · intro h
    apply BitVec.eq_of_toNat_eq
    split_ifs at h <;> omega
  · rintro rfl
    simp

/-- A segment compares less or equal to the addresses from its base on. -/
lemma keySign_nonneg {key : Addr} {seg : Segment} : 0 ≤ keySign key seg ↔ seg.base ≤ key := by
  rw [keySign, mapKeycmp, BitVec.le_def]
  split_ifs <;> omega

/-- A lookup gives a segment of the address space. -/
lemma AddressSpace.get_mem {as : AddressSpace} {key : Addr} {cond : MapEqTest} {seg : Segment}
    (h : as.get key cond = some seg) : seg ∈ as.segments := pick_mem h

/-- `MAP_LE` finds a segment at or below the address. -/
lemma AddressSpace.get_le {as : AddressSpace} {key : Addr} {seg : Segment}
    (h : as.get key .le = some seg) : seg.base ≤ key := by
  have mem := List.mem_of_getLast? h
  rw [List.mem_filter] at mem
  exact keySign_nonneg.mp (of_decide_eq_true mem.2)

/-- `MAP_EQ` finds the segment at the address. -/
lemma AddressSpace.get_eq {as : AddressSpace} {key : Addr} {seg : Segment}
    (h : as.get key .eq = some seg) : seg.base = key := by
  have mem := List.mem_of_head? h
  rw [List.mem_filter] at mem
  exact keySign_eq.mp (of_decide_eq_true mem.2)

/-- No two segments have the same base. -/
lemma AddressSpace.base_inj {as : AddressSpace} {a b : Segment} (ha : a ∈ as.segments) (hb : b ∈ as.segments)
    (e : a.base = b.base) : a = b := by
  by_contra ne
  have apart : as.segments.Pairwise fun a b => a.base ≠ b.base := by
    refine as.ordered.imp fun {a b} lt same => ?_
    rw [same] at lt
    exact BitVec.lt_irrefl _ lt
  have : Std.Symm fun a b : Segment => a.base ≠ b.base := ⟨fun _ _ h e => h e.symm⟩
  exact apart.forall ha hb ne e

/-- `MAP_EQ` finds any segment by its base. -/
lemma AddressSpace.get_base {as : AddressSpace} {seg : Segment} (mem : seg ∈ as.segments) :
    as.get seg.base .eq = some seg := by
  cases found : as.get seg.base .eq with
  | none =>
    rw [AddressSpace.get, pick, List.head?_eq_none_iff, List.filter_eq_nil_iff] at found
    exact absurd (decide_eq_true (keySign_eq.mpr rfl)) (found seg mem)
  | some other => rw [as.base_inj (as.get_mem found) mem (as.get_eq found)]

/-- `MAP_LE` finds the last of the segments at or below the address. -/
lemma AddressSpace.get_le_max {as : AddressSpace} {key : Addr} {seg other : Segment} (h : as.get key .le = some seg)
    (mem : other ∈ as.segments) (le : other.base ≤ key) : other.base ≤ seg.base := by
  obtain ⟨before, split⟩ := List.getLast?_eq_some_iff.mp h
  have ordered := as.ordered.sublist (List.filter_sublist (p := fun a => decide (0 ≤ keySign key a)))
  have mem : other ∈ before ++ [seg] := by
    rw [← split, List.mem_filter]
    exact ⟨mem, decide_eq_true (keySign_nonneg.mpr le)⟩
  rw [split, List.pairwise_append] at ordered
  rcases List.mem_append.mp mem with mem | mem
  · exact BitVec.le_of_lt (ordered.2.2 other mem seg List.mem_cons_self)
  · rw [List.mem_singleton.mp mem]
    exact BitVec.le_refl _

/-- Segments that cover one address are the same. -/
lemma AddressSpace.unique {as : AddressSpace} {a b : Segment} {q : Addr} (ha : a ∈ as.segments)
    (hb : b ∈ as.segments) (qa : a.Has q) (qb : b.Has q) : a = b := by
  by_contra ne
  have : Std.Symm fun a b : Segment => ∀ q, ¬(a.Has q ∧ b.Has q) := ⟨fun _ _ h q hq => h q hq.symm⟩
  exact as.disjoint.forall ha hb ne q ⟨qa, qb⟩

/-- The first address of a page. -/
lemma archPageAlign_toNat (p : Addr) : (archPageAlign p).toNat = p.toNat / 4096 * 4096 := by
  have mask : archPageAlign p = p &&& ~~~BitVec.ofNat 32 (2 ^ 12 - 1) := rfl
  rw [mask]
  exact Word.toNat_and_not p 12

/-! ### Lookups in the tree -/

/-- A pointer to a segment as the data of a map; the null pointer is `none`. -/
abbrev SegmentPtr := Option Segment

instance : Zero SegmentPtr := ⟨none⟩

/-- `tree_get` on a tree that holds the segments under their bases gives what `get` gives, and the tree
    still holds them. -/
theorem treeGet_segments {m : Mem Nat SegmentPtr} {u : Shape Nat SegmentPtr} {as : AddressSpace}
    (mode : Treemode) (key : Addr) (cond : MapEqTest) (h : Stores m u)
    (hu : bindings u = as.segments.map fun seg => (seg.base.toNat, some seg)) :
    ∃ m' u', Returns (treeGet ⟨mode, mapKeycmp⟩ key.toNat cond) m (as.get key cond) m' ∧ Stores m' u' ∧
      bindings u' = as.segments.map fun seg => (seg.base.toNat, some seg) := by
  have ordered : Assoc.Ordered mapKeycmp (bindings u) := by
    rw [hu, Assoc.Ordered, List.pairwise_map]
    refine as.ordered.imp fun {a b} lt => ?_
    rw [BitVec.lt_def] at lt
    rw [mapKeycmp]
    split_ifs <;> omega
  obtain ⟨m', u', run, hs, same⟩ := treeGet_returns (t := ⟨mode, mapKeycmp⟩) mapKeycmp_signPreorder
    key.toNat cond h ordered
  refine ⟨m', u', ?_, hs, same.trans hu⟩
  -- what is picked from the nodes is what is picked from the segments
  let sign := fun b : Nat × SegmentPtr => mapKeycmp key.toNat b.1
  have picked : (pick (signAt ⟨mode, mapKeycmp⟩ key.toNat) u.cells cond).map Cell.binding =
      (as.get key cond).map fun seg => (seg.base.toNat, some seg) := by
    have nodes := pick_map sign Cell.binding u.cells cond
    have segments := pick_map sign (fun seg : Segment => (seg.base.toNat, some seg)) as.segments cond
    rw [← hu] at segments
    exact nodes.symm.trans segments
  have data : (pick (signAt ⟨mode, mapKeycmp⟩ key.toNat) u.cells cond).map Cell.data =
      (as.get key cond).map some := by
    have snd := congrArg (Option.map Prod.snd) picked
    rwa [Option.map_map, Option.map_map] at snd
  rw [data] at run
  cases found : as.get key cond with
  | none =>
    rw [found] at run
    exact run
  | some seg =>
    rw [found] at run
    exact run

end Twcos.Vm
