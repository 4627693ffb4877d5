import Twcos.Assoc.Nearest
import Twcos.Tree.Alike

/-!
# Looking up the nearest key

`tree_get_node` for each of the conditions, on every tree that is linked correctly and whose keys are in order, in every
mode. What the node is that it returns is said by the keys alone, and it is null exactly if there is no such node.
-/

namespace Twcos.Tree
open Twcos.Prog Twcos.Bin Twcos.Assoc

variable {K V : Type}

/-- The keys of the nodes. -/
def HasKey (u : Shape K V) (k : K) : Prop := ∃ x ∈ u.cells, x.key = k

/-- The address is that of the node with the nearest key that the condition asks for, or null if there is none. -/
inductive Looked (t : TreeT K) (key : K) (cond : MapEqTest) (u : Shape K V) : Ptr → Prop where
  | node {x : Cell K V} : x ∈ u.cells → x.addr ≠ 0 → Nearest t.comp key cond (HasKey u) x.key →
      Looked t key cond u x.addr
  | none : (∀ x ∈ u.cells, ¬Wanted cond (t.comp key x.key)) → Looked t key cond u 0

/-- The first or the last of those that are wanted. -/
lemma pick_eq {α : Type} (sign : α → Int) (l : List α) (cond : MapEqTest) :
    pick sign l cond = match cond with
      | .lt | .le => (l.filter fun a => Wanted cond (sign a)).getLast?
      | .eq | .ge | .gt => (l.filter fun a => Wanted cond (sign a)).head? := by
  cases cond <;> rfl

/-- Nothing is picked if no element satisfies the condition. -/
lemma pick_none {α : Type} {sign : α → Int} {l : List α} {cond : MapEqTest} (h : pick sign l cond = none) :
    ∀ a ∈ l, ¬Wanted cond (sign a) := by
  have empty : l.filter (fun a => Wanted cond (sign a)) = [] := by
    rw [pick_eq] at h
    cases cond with
    | lt => exact List.getLast?_eq_none_iff.mp h
    | le => exact List.getLast?_eq_none_iff.mp h
    | eq => exact List.head?_eq_none_iff.mp h
    | ge => exact List.head?_eq_none_iff.mp h
    | gt => exact List.head?_eq_none_iff.mp h
  intro a mem wanted
  exact List.filter_eq_nil_iff.mp empty a mem (decide_eq_true wanted)

/-- What is picked is wanted, and before or behind all others that are. -/
lemma pick_some {α : Type} {sign : α → Int} {l : List α} {cond : MapEqTest} {x : α} (h : pick sign l cond = some x)
    {S : α → α → Prop} (ordered : l.Pairwise S) : Wanted cond (sign x) ∧
      ∀ a ∈ l, Wanted cond (sign a) → a = x ∨ match cond with
        | .lt | .le => S a x
        | .eq | .ge | .gt => S x a := by
  have ordered := ordered.filter fun a => Wanted cond (sign a)
  have mem {a : α} : a ∈ l.filter (fun a => Wanted cond (sign a)) ↔ a ∈ l ∧ Wanted cond (sign a) := by
    rw [List.mem_filter, decide_eq_true_iff]
  have last (h : (l.filter fun a => Wanted cond (sign a)).getLast? = some x) : Wanted cond (sign x) ∧
      ∀ a ∈ l, Wanted cond (sign a) → a = x ∨ S a x := by
    obtain ⟨ys, e⟩ := List.getLast?_eq_some_iff.mp h
    rw [e] at ordered mem
    refine ⟨(mem.mp (by simp)).2, fun a ha wanted => ?_⟩
    rcases List.mem_append.mp (mem.mpr ⟨ha, wanted⟩) with ha | ha
    · exact .inr ((List.pairwise_append.mp ordered).2.2 a ha x (by simp))
    · exact .inl (List.mem_singleton.mp ha)
  have first (h : (l.filter fun a => Wanted cond (sign a)).head? = some x) : Wanted cond (sign x) ∧
      ∀ a ∈ l, Wanted cond (sign a) → a = x ∨ S x a := by
    obtain ⟨ys, e⟩ := List.head?_eq_some_iff.mp h
    rw [e] at ordered mem
    refine ⟨(mem.mp (by simp)).2, fun a ha wanted => ?_⟩
    rcases List.mem_cons.mp (mem.mpr ⟨ha, wanted⟩) with ha | ha
    · exact .inl ha
    · exact .inr ((List.pairwise_cons.mp ordered).1 a ha)
  rw [pick_eq] at h
  cases cond with
  | lt => exact last h
  | le => exact last h
  | eq => exact first h
  | ge => exact first h
  | gt => exact first h

/-- What is picked is the nearest key. -/
lemma pick_nearest {t : TreeT K} (hc : SignPreorder t.comp) {key : K} {cond : MapEqTest} {u : Shape K V}
    (ho : Ordered t.comp (bindings u)) {x : Cell K V} (h : pick (signAt t key) u.cells cond = some x) :
    Nearest t.comp key cond (HasKey u) x.key := by
  have ordered : u.cells.Pairwise fun a b => t.comp a.key b.key < 0 := List.pairwise_map.mp ho
  obtain ⟨wanted, nearest⟩ := pick_some h ordered
  refine ⟨wanted, ?_⟩
  rintro _ ⟨y, mem, rfl⟩ wanted'
  rcases nearest y mem wanted' with rfl | beyond
  · have same := hc.refl y.key
    cases cond with
    | lt => exact same.le
    | le => exact same.le
    | eq => exact same
    | ge => exact same.le
    | gt => exact same.le
  · cases cond with
    | lt => exact beyond.le
    | le => exact beyond.le
    | eq => exact hc.equiv_trans (hc.symm wanted') wanted
    | ge => exact beyond.le
    | gt => exact beyond.le

/-- `tree_get_node` returns the node that the condition asks for, and null exactly if there is none. The nodes stay linked
    and in their order. -/
theorem treeGetNode_nearest (t : TreeT K) (hc : SignPreorder t.comp) (m : Mem K V) (u : Shape K V) (links : Links m u)
    (ordered : Ordered t.comp (bindings u)) (key : K) (cond : MapEqTest) :
    ∃ p m' u', Returns (treeGetNode t key cond) m p m' ∧ Looked t key cond u p ∧ Links m' u' ∧ u'.cells = u.cells := by
  obtain ⟨m', u', run, links', same⟩ := treeGetNode_links hc key cond links ordered
  refine ⟨_, m', u', run, ?_, links', same⟩
  cases found : pick (signAt t key) u.cells cond with
  | none => exact .none (pick_none found)
  | some x =>
    have mem := pick_mem found
    obtain ⟨m0, stores, -⟩ := links
    have addr : x.addr ≠ 0 := stores.holds.rep.ne_zero (List.mem_map_of_mem mem)
    exact .node mem addr (pick_nearest hc ordered found)

/-- Three nodes, with the counts given. -/
def threeNodes (left top right : Int) : Mem Nat Nat where
  node p := if p = 1 then some ⟨10, 100, left, 0, 2, 0, 0⟩ else if p = 2 then some ⟨20, 200, top, 0, 0, 1, 3⟩ else
    if p = 3 then some ⟨30, 300, right, 0, 2, 0, 0⟩ else none
  root := 2
  allocs := 3

def threeShape : Shape Nat Nat :=
  .node (.node .nil ⟨1, 10, 100, 0⟩ .nil) ⟨2, 20, 200, 0⟩ (.node .nil ⟨3, 30, 300, 0⟩ .nil)

/-- Three nodes, with their balance. -/
lemma stores_threeNodes : Stores (threeNodes 1 3 1) threeShape where
  holds := by
    refine ⟨?_, by decide, fun p absent => ?_⟩
    · exact ⟨by decide, rfl, ⟨by decide, rfl, trivial, trivial⟩, by decide, rfl, trivial, trivial⟩
    · have ne : p ≠ 1 ∧ p ≠ 2 ∧ p ≠ 3 := by simpa [addrs, threeShape, cells] using absent
      show (if p = 1 then _ else _) = _
      rw [if_neg ne.1, if_neg ne.2.1, if_neg ne.2.2]
  root := rfl

/-- Three nodes, with any counts. -/
lemma links_threeNodes (left top right : Int) : Links (threeNodes left top right) threeShape := by
  refine ⟨threeNodes 1 3 1, stores_threeNodes, fun p n found => ?_, fun p empty => ?_, rfl, rfl⟩
  · simp only [threeNodes] at found ⊢
    split_ifs at found ⊢ <;> cases found <;> exact ⟨_, rfl, _, rfl, trivial⟩
  · simp only [threeNodes] at empty ⊢
    split_ifs at empty ⊢
    rfl

/-- The keys of the three nodes are in order. -/
lemma ordered_threeShape : Ordered mapKeycmp (bindings threeShape) := by
  unfold Ordered
  decide

/-- A lookup between two keys. -/
theorem treeGetNode_threeNodes : Links (threeNodes 0 0 0) threeShape ∧ Ordered mapKeycmp (bindings threeShape) ∧
    ∃ p m' u', Returns (treeGetNode ⟨.splay, mapKeycmp⟩ 25 .le) (threeNodes 0 0 0) p m' ∧
      Looked ⟨.splay, mapKeycmp⟩ 25 .le threeShape p ∧ Links m' u' ∧ u'.cells = threeShape.cells :=
  ⟨links_threeNodes 0 0 0, ordered_threeShape, treeGetNode_nearest ⟨.splay, mapKeycmp⟩ mapKeycmp_signPreorder _ _
    (links_threeNodes 0 0 0) ordered_threeShape 25 .le⟩

end Twcos.Tree
