import Mathlib.Data.Set.Card
import Twcos.Tree.Map

/-!
# Runs of a tree map

Any sequence of calls on a tree made by `tree_new`, in any of the four modes. `runCalls_refines_map` says
that the replies are those of a finite map keyed by the equivalence of the comparator, and
`runCalls_wellFormed` that no assertion fails and that the nodes form a search tree with correct links and
counts after every call. Both rest on one invariant (`Stores` a tree whose bindings are in order), which
every call keeps.
-/

namespace Twcos.Tree
open Twcos.Prog Twcos.Bin Twcos.Assoc

variable {K V : Type} {m : Mem K V} {t : TreeT K}

/-- A call of a map operation on the tree. -/
inductive Call (K V : Type) where
  | put (key : K) (data : V)
  | get (key : K) (cond : MapEqTest)
  | remove (key : K)
  | optimize

/-- Run a call; `tree_optimize` returns nothing. -/
def call [Zero V] (env : Env K V) (t : TreeT K) : Call K V → Code K V (Option V)
  | .put key data => do return some (← treePut env t key data)
  | .get key cond => do return some (← treeGet t key cond)
  | .remove key => do return some (← treeRemove t key)
  | .optimize => do
    treeOptimize
    return none

/-- Run calls one after the other and collect what they return. -/
def runCalls [Zero V] (env : Env K V) (t : TreeT K) : List (Call K V) → Code K V (List (Option V))
  | [] => return []
  | c :: cs => do
    let r ← call env t c
    let rs ← runCalls env t cs
    return r :: rs

/-! ### Against a finite map -/

/-- A call of an operation that a finite map has. -/
inductive MapCall (K V : Type) where
  | put (key : K) (data : V)
  | get (key : K)
  | remove (key : K)
  | optimize

/-- The call on the tree: a map is read with `MAP_EQ`. -/
def MapCall.toCall : MapCall K V → Call K V
  | .put key data => .put key data
  | .get key => .get key .eq
  | .remove key => .remove key
  | .optimize => .optimize

section Refine
variable (hc : SignPreorder t.comp)

/-- What the call returns on a finite map, and the map after it. -/
def mapStep [Zero V] (M : Finmap fun _ : hc.Class => V) :
    MapCall K V → Option V × Finmap fun _ : hc.Class => V
  | .put key data => (some ((M.lookup (hc.classOf key)).getD 0), M.insert (hc.classOf key) data)
  | .get key => (some ((M.lookup (hc.classOf key)).getD 0), M)
  | .remove key => (some ((M.lookup (hc.classOf key)).getD 0), M.erase (hc.classOf key))
  | .optimize => (none, M)

/-- What calls return on a finite map, one after the other. -/
def mapReplies [Zero V] : List (MapCall K V) → (Finmap fun _ : hc.Class => V) → List (Option V)
  | [], _ => []
  | c :: cs, M => (mapStep hc M c).1 :: mapReplies cs (mapStep hc M c).2

/-- One call on a tree that stands for a map. -/
lemma call_refines [Zero V] (env : Env K V) {u : Shape K V} {M : Finmap fun _ : hc.Class => V}
    (h : Stores m u) (hM : Denotes hc (bindings u) M) (c : MapCall K V) :
    ∃ m' u', Returns (call env t c.toCall) m (mapStep hc M c).1 m' ∧ Stores m' u' ∧
      Denotes hc (bindings u') (mapStep hc M c).2 := by
  cases c with
  | put key data =>
    obtain ⟨m', u', run, hs, hM'⟩ := treePut_returns hc env key data h hM
    exact ⟨m', u', .bind run (.pure _ _), hs, hM'⟩
  | get key =>
    obtain ⟨m', u', run, hs, same⟩ := treeGet_returns hc key .eq h hM.ordered
    rw [pick_eq_lookup hc hM] at run
    refine ⟨m', u', .bind run (.pure _ _), hs, ?_⟩
    rw [same]
    exact hM
  | remove key =>
    obtain ⟨m', u', run, hs, hM'⟩ := treeRemove_returns hc key h hM
    exact ⟨m', u', .bind run (.pure _ _), hs, hM'⟩
  | optimize =>
    obtain ⟨m', u', run, hs, same, -⟩ := treeOptimize_returns h
    refine ⟨m', u', .bind run (.pure _ _), hs, ?_⟩
    rw [bindings_of_entries same]
    exact hM

/-- The calls of the map, one by one, refine the calls of a finite map. -/
lemma calls_refine [Zero V] (env : Env K V) {u : Shape K V} {M : Finmap fun _ : hc.Class => V}
    (h : Stores m u) (hM : Denotes hc (bindings u) M) (calls : List (MapCall K V)) :
    ∃ m', Returns (runCalls env t (calls.map MapCall.toCall)) m (mapReplies hc calls M) m' := by
  induction calls generalizing m u M with
  | nil => exact ⟨m, .pure _ _⟩
  | cons c cs ih =>
    obtain ⟨m1, u1, run, h1, hM1⟩ := call_refines hc env h hM c
    obtain ⟨m', rest⟩ := ih h1 hM1
    exact ⟨m', .bind run (.bind rest (.pure _ _))⟩

omit t hc in
/-- A new tree. -/
lemma stores_treeNew : Stores (treeNew : Mem K V) .nil :=
  ⟨⟨trivial, List.nodup_nil, fun _ _ => rfl⟩, rfl⟩

/-- Whatever the mode, the slots and the priorities, calls on a new tree return what they return on an
    empty finite map keyed by the equivalence of the comparator. -/
theorem runCalls_refines_map [Zero V] (env : Env K V) (calls : List (MapCall K V)) :
    ∃ m', Returns (runCalls env t (calls.map MapCall.toCall)) treeNew (mapReplies hc calls ∅) m' :=
  calls_refine hc env stores_treeNew (Denotes.nil hc) calls

end Refine

/-- A memory with an endless supply of slots: the slot taken is some free one. -/
noncomputable def anyFree (K V : Type) : Env K V where
  slot _ node := Classical.epsilon fun p => p ≠ 0 ∧ node p = none
  junk _ := 0
  priority _ p := codePriority p
  slot_free := by
    intro n node used h
    have free : ∃ p, p ≠ 0 ∧ node p = none := by
      obtain ⟨p, hp⟩ := Infinite.exists_notMem_finset (0 :: used).toFinset
      rw [List.mem_toFinset, List.mem_cons, not_or] at hp
      exact ⟨p, hp.1, h p hp.2⟩
    exact Classical.epsilon_spec free

/-- The replies of a splay tree with the default comparator. -/
theorem runCalls_refines_map_keycmp :
    SignPreorder mapKeycmp ∧ ∃ m', Returns (runCalls (anyFree Nat Nat) ⟨.splay, mapKeycmp⟩
        ([.put 3 7, .put 1 9, .get 3, .remove 3, .optimize, .get 3].map MapCall.toCall)) treeNew
      [some 0, some 0, some 7, some 7, none, some 0] m' :=
  ⟨mapKeycmp_signPreorder, runCalls_refines_map (t := ⟨.splay, mapKeycmp⟩) mapKeycmp_signPreorder
    (anyFree Nat Nat) [.put 3 7, .put 1 9, .get 3, .remove 3, .optimize, .get 3]⟩

/-! ### The nodes of a reachable tree -/

/-- `q` is a node of the subtree at `p`, going down the child links. -/
inductive Under (m : Mem K V) : Ptr → Ptr → Prop where
  | self {p : Ptr} :
    (m.node p).isSome →
    Under m p p
  | child {p q : Ptr} {n : Node K V} (s : Side) :
    m.node p = some n →
    Under m (n.child s) q →
    Under m p q

/-- The nodes form a search tree with correct links and counts. -/
structure WellFormed (comp : K → K → Int) (m : Mem K V) : Prop where
  /-- The keys below a node on the left are smaller. -/
  left : ∀ p n q k, m.node p = some n → Under m n.left q → m.node q = some k → comp k.key n.key < 0
  /-- The keys below a node on the right are greater. -/
  right : ∀ p n q k, m.node p = some n → Under m n.right q → m.node q = some k → comp n.key k.key < 0
  /-- The parent pointer of every child is the node that links to it. -/
  parent : ∀ p n s, m.node p = some n → n.child s ≠ 0 →
    ∃ c, m.node (n.child s) = some c ∧ c.parent = p
  /-- The root has parent `0`. -/
  root_parent : m.root ≠ 0 → ∃ n, m.node m.root = some n ∧ n.parent = 0
  /-- The root reaches every node. -/
  root_reaches : ∀ q, (m.node q).isSome → Under m m.root q
  /-- Every count is the number of nodes in the subtree. -/
  count : ∀ p n, m.node p = some n → n.count = {q | Under m p q}.ncard

/-- What is under the root are the nodes of the tree. -/
lemma under_iff {u : Shape K V} {q a : Ptr} (h : Rep m.node u q) (null : m.node 0 = none) :
    Under m (root u) a ↔ a ∈ addrs u := by
  induction u generalizing q with
  | nil =>
    refine ⟨fun hu => ?_, nofun⟩
    cases hu with
    | self hs =>
      rw [root_nil, null] at hs
      cases hs
    | child s hn _ =>
      rw [root_nil, null] at hn
      cases hn
  | node l x r ihl ihr =>
    obtain ⟨-, hx, hl, hr⟩ := h
    rw [show Bin.node l x r = mk .left l x r from rfl, mem_addrs_mk, ← ihl hl, ← ihr hr]
    constructor
    · intro hu
      cases hu with
      | self _ => exact .inr (.inl rfl)
      | child s hn hu =>
        rw [root_mk, hx] at hn
        cases hn
        cases s with
        | left => exact .inl hu
        | right => exact .inr (.inr hu)
    · rintro (hu | rfl | hu)
      · exact .child .left hx hu
      · exact .self (Option.isSome_iff_exists.mpr ⟨_, hx⟩)
      · exact .child .right hx hu

/-- A node in memory is at a position of the tree. -/
lemma focus_of_node {u : Shape K V} {p : Ptr} {n : Node K V} (h : Stores m u) (hn : m.node p = some n) :
    ∃ q l x r, u = plug q (.node l x r) ∧ x.addr = p ∧
      n = record .left x (1 + l.size + r.size) (above q) (root l) (root r) := by
  have hp : p ∈ addrs u := by
    by_contra e
    rw [h.holds.rest p e] at hn
    cases hn
  obtain ⟨q, l, x, r, rfl, rfl⟩ := exists_focus hp
  exact ⟨q, l, x, r, rfl, rfl, Option.some.inj (hn.symm.trans h.holds.top)⟩

/-- The key of a node of a subtree is among the bindings of the subtree. -/
lemma key_mem_bindings {q : Path (Cell K V)} {u : Shape K V} {a : Ptr} {k : Node K V}
    (h : Stores m (plug q u)) (ha : a ∈ addrs u) (hk : m.node a = some k) :
    ∃ b ∈ bindings u, b.1 = k.key := by
  obtain ⟨p, l, x, r, rfl, rfl⟩ := exists_focus ha
  rw [← plug_append] at h
  have same := Option.some.inj (hk.symm.trans h.holds.top)
  refine ⟨x.binding, ?_, ?_⟩
  · rw [bindings_focus]
    exact List.mem_append_right _ List.mem_cons_self
  · rw [same, record_key]
    rfl

/-- A tree in memory whose bindings are in order is well formed. -/
lemma wellFormed_of_stores {u : Shape K V} (h : Stores m u) (ho : Ordered t.comp (bindings u)) :
    WellFormed t.comp m where
  left := by
    intro p n q k hn hu hk
    obtain ⟨f, l, x, r, rfl, rfl, rfl⟩ := focus_of_node h hn
    have hl := (rep_plug.mp h.holds.rep).2.2.2.1
    have ha := (under_iff hl h.holds.null).mp hu
    obtain ⟨b, hb, key⟩ := key_mem_bindings (q := ⟨.left, x, r⟩ :: f) h ha hk
    rw [bindings_focus, Ordered, List.pairwise_append] at ho
    rw [← key]
    exact ho.2.2 b (List.mem_append_right _ hb) x.binding List.mem_cons_self
  right := by
    intro p n q k hn hu hk
    obtain ⟨f, l, x, r, rfl, rfl, rfl⟩ := focus_of_node h hn
    have hr := (rep_plug.mp h.holds.rep).2.2.2.2
    have ha := (under_iff hr h.holds.null).mp hu
    obtain ⟨b, hb, key⟩ := key_mem_bindings (q := ⟨.right, x, l⟩ :: f) h ha hk
    rw [bindings_focus, Ordered, List.pairwise_append, List.pairwise_cons] at ho
    rw [← key]
    exact ho.2.1.1 b (List.mem_append_left _ hb)
  parent := by
    intro p n s hn h0
    obtain ⟨f, l, x, r, rfl, rfl, rfl⟩ := focus_of_node h hn
    obtain ⟨-, -, -, hl, hr⟩ := rep_plug.mp h.holds.rep
    cases s with
    | left =>
      cases l with
      | nil => exact absurd rfl h0
      | node a y b => exact ⟨_, hl.2.1, rfl⟩
    | right =>
      cases r with
      | nil => exact absurd rfl h0
      | node a y b => exact ⟨_, hr.2.1, rfl⟩
  root_parent := by
    intro h0
    rw [h.root] at h0 ⊢
    cases u with
    | nil => exact absurd rfl h0
    | node l x r => exact ⟨_, h.holds.rep.2.1, rfl⟩
  root_reaches := by
    intro q hq
    obtain ⟨n, hn⟩ := Option.isSome_iff_exists.mp hq
    obtain ⟨f, l, x, r, rfl, rfl, -⟩ := focus_of_node h hn
    rw [h.root, under_iff h.holds.rep h.holds.null, mem_addrs_plug]
    exact .inr ((mem_addrs_mk (s := .left)).mpr (.inr (.inl rfl)))
  count := by
    intro p n hn
    obtain ⟨f, l, x, r, rfl, rfl, rfl⟩ := focus_of_node h hn
    obtain ⟨-, ht⟩ := rep_plug.mp h.holds.rep
    have nodup := (nodup_plug.mp h.holds.nodup).2.1
    have set : {q | Under m x.addr q} = ((addrs (.node l x r)).toFinset : Set Ptr) := by
      ext q
      rw [Finset.mem_coe, List.mem_toFinset]
      exact under_iff ht h.holds.null
    rw [set, Set.ncard_coe_finset, List.toFinset_card_of_nodup nodup, addrs, List.length_map, length_cells,
      record_count, size]

section Reachable
variable (hc : SignPreorder t.comp)

/-- Every call keeps a tree in memory with its bindings in order. -/
lemma call_keeps [Zero V] (env : Env K V) {u : Shape K V} {M : Finmap fun _ : hc.Class => V}
    (h : Stores m u) (hM : Denotes hc (bindings u) M) (c : Call K V) :
    ∃ r m' u' M', Returns (call env t c) m r m' ∧ Stores m' u' ∧ Denotes hc (bindings u') M' := by
  cases c with
  | put key data =>
    obtain ⟨m', u', run, hs, hM'⟩ := call_refines hc env h hM (.put key data)
    exact ⟨_, m', u', _, run, hs, hM'⟩
  | get key cond =>
    obtain ⟨m', u', run, hs, same⟩ := treeGet_returns hc key cond h hM.ordered
    rw [← same] at hM
    exact ⟨_, m', u', M, .bind run (.pure _ _), hs, hM⟩
  | remove key =>
    obtain ⟨m', u', run, hs, hM'⟩ := call_refines hc env h hM (.remove key)
    exact ⟨_, m', u', _, run, hs, hM'⟩
  | optimize =>
    obtain ⟨m', u', run, hs, hM'⟩ := call_refines hc env h hM .optimize
    exact ⟨_, m', u', _, run, hs, hM'⟩

/-- All calls keep the tree in order, those that no map has as well. -/
lemma calls_keep [Zero V] (env : Env K V) {u : Shape K V} {M : Finmap fun _ : hc.Class => V}
    (h : Stores m u) (hM : Denotes hc (bindings u) M) (calls : List (Call K V)) :
    ∃ rs m' u' M', Returns (runCalls env t calls) m rs m' ∧ Stores m' u' ∧
      Denotes hc (bindings u') M' := by
  induction calls generalizing m u M with
  | nil => exact ⟨[], m, u, M, .pure _ _, h, hM⟩
  | cons c cs ih =>
    obtain ⟨r, m1, u1, M1, run, h1, hM1⟩ := call_keeps hc env h hM c
    obtain ⟨rs, m', u', M', rest, hs, hM'⟩ := ih h1 hM1
    exact ⟨r :: rs, m', u', M', .bind run (.bind rest (.pure _ _)), hs, hM'⟩

include hc in
/-- Calls on a new tree all return, so none of the assertions fails, and leave a well-formed tree. -/
theorem runCalls_wellFormed [Zero V] (env : Env K V) (calls : List (Call K V)) :
    ∃ rs m', Returns (runCalls env t calls) treeNew rs m' ∧ WellFormed t.comp m' := by
  obtain ⟨rs, m', u', M', run, hs, hM⟩ := calls_keep hc env stores_treeNew (Denotes.nil hc) calls
  exact ⟨rs, m', run, wellFormed_of_stores hs hM.ordered⟩

/-- A treap with the default comparator. -/
theorem runCalls_wellFormed_keycmp :
    SignPreorder mapKeycmp ∧ ∃ rs m', Returns (runCalls (anyFree Nat Nat) ⟨.treap, mapKeycmp⟩
        [.put 3 7, .put 1 9, .get 2 .ge, .remove 3, .optimize]) treeNew rs m' ∧
      WellFormed mapKeycmp m' :=
  ⟨mapKeycmp_signPreorder, runCalls_wellFormed (t := ⟨.treap, mapKeycmp⟩) mapKeycmp_signPreorder
    (anyFree Nat Nat) [.put 3 7, .put 1 9, .get 2 .ge, .remove 3, .optimize]⟩

end Reachable

end Twcos.Tree
