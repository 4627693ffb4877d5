import Twcos.Assoc.Basic
import Twcos.Tree.Update

/-!
# The map operations

`tree_put`, `tree_get` and `tree_remove` on a tree in memory whose bindings are in key order. Each
terminates with no assertion failing, leaves such a tree again, and acts on the finite map that the
bindings stand for as the operation of the same name does: `put` inserts, `remove` erases, `get` reads.
-/

namespace Twcos.Tree
open Twcos.Prog Twcos.Bin Twcos.Assoc

variable {K V : Type} {m : Mem K V} {t : TreeT K} {key : K}

/-- The default comparator. -/
lemma mapKeycmp_signPreorder : SignPreorder mapKeycmp := by
  constructor
  · intro a b
    unfold mapKeycmp
    split_ifs <;> omega
  · intro a b c
    unfold mapKeycmp
    split_ifs <;> omega

/-! ### Searching -/

/-- The bindings before a left child. -/
lemma before_left (x : Cell K V) (r : Shape K V) (p : Path (Cell K V)) :
    before (⟨.left, x, r⟩ :: p) = before p := rfl

/-- The bindings behind a left child. -/
lemma after_left (x : Cell K V) (r : Shape K V) (p : Path (Cell K V)) :
    after (⟨.left, x, r⟩ :: p) = x.binding :: bindings r ++ after p := by
  simp only [after, around, List.map_append, List.map_cons, bindings]

/-- The bindings before a right child. -/
lemma before_right (x : Cell K V) (l : Shape K V) (p : Path (Cell K V)) :
    before (⟨.right, x, l⟩ :: p) = before p ++ bindings l ++ [x.binding] := by
  simp only [before, around, List.map_append, List.map_cons, List.map_nil, bindings]

/-- The bindings behind a right child. -/
lemma after_right (x : Cell K V) (l : Shape K V) (p : Path (Cell K V)) :
    after (⟨.right, x, l⟩ :: p) = after p := rfl

/-- The comparisons with the key that lead down to a position. -/
def Routed (comp : K → K → Int) (key : K) : Path (Cell K V) → Prop
  | [] => True
  | f :: p => (match f.side with
      | .left => comp key f.elem.key < 0
      | .right => 0 < comp key f.elem.key) ∧ Routed comp key p

/-- Every key leads somewhere: to a node with an equivalent key, or to where there is no node any more. -/
lemma exists_route (comp : K → K → Int) (key : K) {p : Path (Cell K V)} (u : Shape K V) (hp : Routed comp key p) :
    (∃ q l x r, plug q (.node l x r) = plug p u ∧ Routed comp key q ∧ comp key x.key = 0) ∨
    ∃ q, plug q .nil = plug p u ∧ Routed comp key q := by
  induction u generalizing p with
  | nil => exact .inr ⟨p, rfl, hp⟩
  | node l x r ihl ihr =>
    rcases Int.lt_trichotomy (comp key x.key) 0 with lt | eq | gt
    · exact ihl (p := ⟨.left, x, r⟩ :: p) ⟨lt, hp⟩
    · exact .inl ⟨p, l, x, r, rfl, hp, eq⟩
    · exact ihr (p := ⟨.right, x, l⟩ :: p) ⟨gt, hp⟩

/-- The search loop comes to every position that the comparisons lead to. -/
lemma searchLoop_down {q : Path (Cell K V)} {u : Shape K V} (h : Holds m.node (plug q u)) (hq : Routed t.comp key q)
    {found : Found} (rest : Returns (loop (searchStep t key) (root u, above q, linkAbove q)) m found m) :
    Returns (loop (searchStep t key) (root (plug q u), 0, .root)) m found m := by
  induction q generalizing u with
  | nil => exact rest
  | cons f q ih =>
    refine ih h hq.2 ?_
    rw [root_attach]
    have h0 : f.elem.addr ≠ 0 := (rep_plug.mp h.rep).1.1
    have read := returns_deref h.parent
    obtain ⟨s, x, b⟩ := f
    cases s with
    | left => exact .turn (.ite_neg h0 (.bind read (.ite_pos hq.1 (.pure _ _)))) rest
    | right =>
      have gt : 0 < t.comp key x.key := hq.1
      exact .turn (.ite_neg h0 (.bind read (.ite_neg (not_lt.mpr gt.le) (.ite_pos gt (.pure _ _))))) rest

/-- A search that comes to a node with the key. -/
lemma treeSearch_node {q : Path (Cell K V)} {l r : Shape K V} {x : Cell K V} (h : Stores m (plug q (.node l x r)))
    (hq : Routed t.comp key q) (hx : t.comp key x.key = 0) : Returns (treeSearch t key) m (.node x.addr) m := by
  have h0 : x.addr ≠ 0 := (rep_plug.mp h.holds.rep).2.1
  refine .bind (.asks _ _) ?_
  rw [h.root]
  refine searchLoop_down h.holds hq (.exit (.ite_neg h0 (.bind (returns_deref h.holds.top) ?_)))
  exact .ite_neg (by rw [record_key]; omega) (.ite_neg (by rw [record_key]; omega) (.pure _ _))

/-- A search that comes to a gap. -/
lemma treeSearch_gap {q : Path (Cell K V)} (h : Stores m (plug q .nil)) (hq : Routed t.comp key q) :
    Returns (treeSearch t key) m (.missing (above q) (linkAbove q)) m := by
  refine .bind (.asks _ _) ?_
  rw [h.root]
  exact searchLoop_down h.holds hq (.exit (.pure _ _))

/-- The search of `tree_put` and `tree_remove`, whatever the comparator. -/
lemma treeSearch_returns (t : TreeT K) (key : K) {u : Shape K V} (h : Stores m u) :
    (∃ q l x r, plug q (.node l x r) = u ∧ t.comp key x.key = 0 ∧ Returns (treeSearch t key) m (.node x.addr) m) ∨
    ∃ q, plug q .nil = u ∧ Routed t.comp key q ∧
      Returns (treeSearch t key) m (.missing (above q) (linkAbove q)) m := by
  rcases exists_route t.comp key (p := []) u trivial with ⟨q, l, x, r, e, hq, hx⟩ | ⟨q, e, hq⟩
  · rw [← show plug q (.node l x r) = u from e] at h
    exact .inl ⟨q, l, x, r, e, hx, treeSearch_node h hq hx⟩
  · rw [← show plug q .nil = u from e] at h
    exact .inr ⟨q, e, hq, treeSearch_gap h hq⟩

/-! ### Putting and removing -/

/-- `tree_put` with an equivalent key: its node gets the new key and data. -/
lemma treePut_found [Zero V] (env : Env K V) (data : V) {q : Path (Cell K V)} {l r : Shape K V} {x : Cell K V}
    (h : Stores m (plug q (.node l x r))) (search : Returns (treeSearch t key) m (.node x.addr) m) :
    ∃ m', Returns (treePut env t key data) m x.data m' ∧
      Stores m' (plug q (.node l { x with key := key, data := data } r)) := by
  let y : Cell K V := { x with key := key, data := data }
  let m' := m.modify x.addr fun n => { n with key := key, data := data }
  have hy : Holds m'.node (plug q (.node l y r)) := h.holds.setCell rfl fun _ _ _ _ => rfl
  have root' : m'.root = root (plug q (.node l y r)) := h.root.trans (root_plug_congr q rfl)
  have store' := returns_store (f := fun n => { n with key := key, data := data })
    (Option.isSome_iff_exists.mpr ⟨_, h.holds.top⟩)
  have verify := treeVerify_null_returns h.holds h.root
  have verify' : Returns (treeVerify x.addr) m' () m' := treeVerify_returns (t := .node l y r) hy nofun root'
  refine ⟨m', .bind verify (.bind search ?_), hy, root'⟩
  exact .bind (returns_deref h.holds.top) (.bind store' (.bind verify' (.pure _ _)))

/-- `tree_put` with a new key: a leaf where the search ended. -/
lemma treePut_new [Zero V] (env : Env K V) (data : V) {q : Path (Cell K V)} (h : Stores m (plug q .nil))
    (search : Returns (treeSearch t key) m (.missing (above q) (linkAbove q)) m) :
    ∃ m' x, Returns (treePut env t key data) m 0 m' ∧ x.binding = (key, data) ∧ m'.allocs = m.allocs + 1 ∧
      Stores m' (balanced t.mode (env.priority (m.allocs + 1) x.addr) q x) := by
  obtain ⟨x, g, new, hk, hd, hx0, hxp, hp, hx, hrest⟩ := treeNodeNew_returns env key data h.holds
  obtain ⟨m2, link, h2, hr2, allocs⟩ := link_returns (m := { m with node := g, allocs := m.allocs + 1 }) hx0 hxp
    (nodup_plug.mp h.holds.nodup).1 hp hx hrest h.root
  obtain ⟨g3, bal, h3⟩ := balance_returns env t h2
  rw [allocs] at h3
  have same := addrs_of_entries (balanced_entries t.mode (env.priority (m.allocs + 1) x.addr) q x)
  have hxu : x.addr ∈ addrs (balanced t.mode (env.priority (m.allocs + 1) x.addr) q x) := by
    rw [same, mem_addrs_plug]
    exact .inr (List.mem_singleton.mpr rfl)
  obtain ⟨m4, repair, h4, allocs4⟩ := repairRoot_returns (m := { m2 with node := g3 }) h3 hxu (by rw [same]; exact hr2)
  have verify := treeVerify_null_returns h.holds h.root
  have verify4 := treeVerify_null_returns h4.holds h4.root
  refine ⟨m4, x, .bind verify (.bind search (.bind new (.bind link (.bind bal ?_)))), by rw [← hk, ← hd]; rfl,
    allocs4.trans allocs, h4⟩
  exact .bind repair (.bind verify4 (.pure _ _))

/-- `tree_remove` with an equivalent key: its node is taken out. -/
lemma treeRemove_found [Zero V] {q : Path (Cell K V)} {l r : Shape K V} {x : Cell K V}
    (h : Stores m (plug q (.node l x r))) (search : Returns (treeSearch t key) m (.node x.addr) m) :
    ∃ m', Returns (treeRemove t key) m x.data m' ∧ Stores m' (plug q (graft l r)) := by
  obtain ⟨m1, q1, bubble, h1, shape⟩ := bubbleDown_returns h
  obtain ⟨m2, unlink, h2⟩ := unlinkLeaf_returns h1
  have verify := treeVerify_null_returns h.holds h.root
  have verify2 := treeVerify_null_returns h2.holds h2.root
  rw [shape] at h2
  refine ⟨m2, .bind verify (.bind search (.bind (returns_deref h.holds.top) ?_)), h2⟩
  exact .bind bubble (.bind unlink (.bind verify2 (.pure _ _)))

/-- Removing a key that is not there. -/
lemma treeRemove_absent [Zero V] {u : Shape K V} {q : Path (Cell K V)} (h : Stores m u)
    (search : Returns (treeSearch t key) m (.missing (above q) (linkAbove q)) m) : Returns (treeRemove t key) m 0 m :=
  .bind (treeVerify_null_returns h.holds h.root) (.bind search (.pure _ _))

section Order
variable (hc : SignPreorder t.comp)
include hc

/-- The key still fits around the position after a step of the search to the left. -/
lemma between_left {p : Path (Cell K V)} {l r : Shape K V} {x : Cell K V}
    (ho : Ordered t.comp (bindings (plug p (.node l x r)))) (hb : Between t.comp key (before p) (after p))
    (hk : t.comp key x.key < 0) :
    Between t.comp key (before (⟨.left, x, r⟩ :: p)) (after (⟨.left, x, r⟩ :: p)) := by
  rw [bindings_focus] at ho
  rw [before_left, after_left]
  refine ⟨hb.before, fun b hm => ?_⟩
  rcases List.mem_cons.mp hm with rfl | hm
  · exact hk
  · exact ho.lt_after hc hk.le b hm

/-- Going right leaves the key between the bindings. -/
lemma between_right {p : Path (Cell K V)} {l r : Shape K V} {x : Cell K V}
    (ho : Ordered t.comp (bindings (plug p (.node l x r)))) (hb : Between t.comp key (before p) (after p))
    (hk : 0 < t.comp key x.key) :
    Between t.comp key (before (⟨.right, x, l⟩ :: p)) (after (⟨.right, x, l⟩ :: p)) := by
  rw [bindings_focus] at ho
  rw [before_right, after_right]
  refine ⟨fun b hm => ?_, hb.after⟩
  rcases List.mem_append.mp hm with hm | hm
  · exact ho.gt_before hc hk.le b hm
  · rw [List.mem_singleton.mp hm]
    exact hk

/-- In a tree in order, a key fits where the comparisons lead. -/
lemma Routed.between {q : Path (Cell K V)} {u : Shape K V} (hq : Routed t.comp key q)
    (ho : Ordered t.comp (bindings (plug q u))) : Between t.comp key (before q) (after q) := by
  induction q generalizing u with
  | nil => exact ⟨nofun, nofun⟩
  | cons f q ih =>
    have rest := ih hq.2 ho
    obtain ⟨s, x, b⟩ := f
    cases s with
    | left => exact between_left hc (l := u) ho rest hq.1
    | right => exact between_right hc (r := u) ho rest hq.1

/-- `tree_put` returns the old data and inserts the binding. -/
theorem treePut_returns [Zero V] (env : Env K V) (key : K) (data : V) {u : Shape K V}
    {M : Finmap fun _ : hc.Class => V} (h : Stores m u) (hM : Denotes hc (bindings u) M) :
    ∃ m' u', Returns (treePut env t key data) m ((M.lookup (hc.classOf key)).getD 0) m' ∧ Stores m' u' ∧
      Denotes hc (bindings u') (M.insert (hc.classOf key) data) := by
  rw [← hM.agree]
  rcases treeSearch_returns t key h with ⟨q, l, x, r, rfl, hx, search⟩ | ⟨q, rfl, hq, search⟩
  · obtain ⟨m', run, hs⟩ := treePut_found env data h search
    rw [bindings_focus] at hM
    rw [bindings_focus, lookup_mid hc hM.ordered, if_pos (show t.comp key x.binding.1 = 0 from hx)]
    refine ⟨m', _, run, hs, ?_⟩
    rw [bindings_focus]
    exact hM.replace hc hx
  · obtain ⟨m', x, run, binding, -, hs⟩ := treePut_new env data h search
    have between := hq.between hc hM.ordered
    have eq (priority : Int) : bindings (balanced t.mode priority q x) = before q ++ (key, data) :: after q := by
      rw [bindings_of_entries (balanced_entries _ _ _ _), bindings_focus, ← binding]
      show (before q ++ []) ++ _ = _
      rw [List.append_nil]
      rfl
    rw [bindings_gap] at hM ⊢
    rw [lookup_between between]
    refine ⟨m', _, run, hs, ?_⟩
    rw [eq]
    exact hM.put hc between

/-- `tree_remove` returns the data and erases the binding. -/
theorem treeRemove_returns [Zero V] (key : K) {u : Shape K V} {M : Finmap fun _ : hc.Class => V} (h : Stores m u)
    (hM : Denotes hc (bindings u) M) :
    ∃ m' u', Returns (treeRemove t key) m ((M.lookup (hc.classOf key)).getD 0) m' ∧ Stores m' u' ∧
      Denotes hc (bindings u') (M.erase (hc.classOf key)) := by
  rw [← hM.agree]
  rcases treeSearch_returns t key h with ⟨q, l, x, r, rfl, hx, search⟩ | ⟨q, rfl, hq, search⟩
  · obtain ⟨m', run, hs⟩ := treeRemove_found h search
    have eq : bindings (plug q (graft l r)) = (before q ++ bindings l) ++ (bindings r ++ after q) := by
      rw [bindings_plug, bindings, graft_cells, List.map_append]
      simp only [bindings, List.append_assoc]
    rw [bindings_focus] at hM
    rw [bindings_focus, lookup_mid hc hM.ordered, if_pos (show t.comp key x.binding.1 = 0 from hx)]
    refine ⟨m', _, run, hs, ?_⟩
    rw [eq]
    exact hM.remove hc hx
  · have absent : Assoc.lookup t.comp (bindings (plug q .nil)) key = none := by
      rw [bindings_gap, lookup_between (hq.between hc hM.ordered)]
    rw [absent]
    refine ⟨m, _, treeRemove_absent h search, h, hM.erase hc hM.ordered fun k' => ?_⟩
    by_cases hk : t.comp k' key = 0
    · rw [if_pos hk, hM.agree, hc.classOf_eq.mpr hk, ← hM.agree, absent]
    · rw [if_neg hk]

end Order

/-! ### Getting -/

/-- The element that `tree_get` looks for, in a list in order, by the sign of the key against each. -/
def pick {α : Type} (sign : α → Int) (l : List α) : MapEqTest → Option α
  | .lt => (l.filter fun a => 0 < sign a).getLast?
  | .le => (l.filter fun a => 0 ≤ sign a).getLast?
  | .eq => (l.filter fun a => sign a = 0).head?
  | .ge => (l.filter fun a => sign a ≤ 0).head?
  | .gt => (l.filter fun a => sign a < 0).head?

/-- What is picked around the place of the key, where `x` is the element with an equal key, if any. -/
def pickAround {α : Type} (before : List α) (x : Option α) (after : List α) : MapEqTest → Option α
  | .lt => before.getLast?
  | .le => x.or before.getLast?
  | .eq => x
  | .ge => x.or after.head?
  | .gt => after.head?

/-- Picking among images. -/
lemma pick_map {α β : Type} (sign : β → Int) (f : α → β) (l : List α) (cond : MapEqTest) :
    pick sign (l.map f) cond = (pick (sign ∘ f) l cond).map f := by
  cases cond with
  | lt => rw [pick, List.filter_map, List.getLast?_map]; rfl
  | le => rw [pick, List.filter_map, List.getLast?_map]; rfl
  | eq => rw [pick, List.filter_map, List.head?_map]; rfl
  | ge => rw [pick, List.filter_map, List.head?_map]; rfl
  | gt => rw [pick, List.filter_map, List.head?_map]; rfl

/-- What is picked is in the list. -/
lemma pick_mem {α : Type} {sign : α → Int} {l : List α} {cond : MapEqTest} {x : α}
    (h : pick sign l cond = some x) : x ∈ l := by
  cases cond with
  | lt => exact List.mem_of_mem_filter (List.mem_of_getLast? h)
  | le => exact List.mem_of_mem_filter (List.mem_of_getLast? h)
  | eq => exact List.mem_of_mem_filter (List.mem_of_head? h)
  | ge => exact List.mem_of_mem_filter (List.mem_of_head? h)
  | gt => exact List.mem_of_mem_filter (List.mem_of_head? h)

/-- Picking among elements before, at and behind the key. -/
lemma pick_around {α : Type} {sign : α → Int} {A B : List α} {x : Option α} (hA : ∀ a ∈ A, 0 < sign a)
    (hx : ∀ a ∈ x, sign a = 0) (hB : ∀ b ∈ B, sign b < 0) (cond : MapEqTest) :
    pick sign (A ++ (x.toList ++ B)) cond = pickAround A x B cond := by
  have keep : ∀ {P Q : α → Prop} [DecidablePred P] {l : List α}, (∀ a ∈ l, Q a) → (∀ a, Q a → P a) →
      l.filter (P ·) = l := fun hl hP =>
    List.filter_eq_self.mpr fun a ha => decide_eq_true (hP a (hl a ha))
  have drop : ∀ {P Q : α → Prop} [DecidablePred P] {l : List α}, (∀ a ∈ l, Q a) → (∀ a, Q a → ¬P a) →
      l.filter (P ·) = [] := fun hl hP =>
    List.filter_eq_nil_iff.mpr fun a ha h => hP a (hl a ha) (of_decide_eq_true h)
  have hX : ∀ a ∈ x.toList, sign a = 0 := fun a ha => hx a (Option.mem_toList.mp ha)
  cases cond with
  | lt =>
    rw [pick, List.filter_append, List.filter_append, keep hA (by omega), drop hX (by omega),
      drop hB (by omega), List.nil_append, List.append_nil, pickAround]
  | le =>
    rw [pick, List.filter_append, List.filter_append, keep hA (by omega), keep hX (by omega),
      drop hB (by omega), List.append_nil, pickAround]
    cases x <;> simp
  | eq =>
    rw [pick, List.filter_append, List.filter_append, drop hA (by omega), keep hX (by omega),
      drop hB (by omega), List.append_nil, pickAround]
    cases x <;> rfl
  | ge =>
    rw [pick, List.filter_append, List.filter_append, drop hA (by omega), keep hX (by omega),
      keep hB (by omega), pickAround]
    cases x <;> rfl
  | gt =>
    rw [pick, List.filter_append, List.filter_append, drop hA (by omega), drop hX (by omega),
      keep hB (by omega), pickAround]
    rfl

/-- The sign of a key against a node. -/
def signAt (t : TreeT K) (key : K) (x : Cell K V) : Int := t.comp key x.key

/-- Where the comparisons with a key lead: the nodes before the place, the node with an equivalent key if there is one,
    and the nodes behind. -/
inductive Place (comp : K → K → Int) (key : K) :
    Shape K V → List (Cell K V) → Option (Cell K V) → List (Cell K V) → Prop where
  | node {q : Path (Cell K V)} {l r : Shape K V} {x : Cell K V} :
    Routed comp key q →
    comp key x.key = 0 →
    Place comp key (plug q (.node l x r)) ((around q).1 ++ l.cells) (some x) (r.cells ++ (around q).2)
  | gap {q : Path (Cell K V)} :
    Routed comp key q →
    Place comp key (plug q .nil) (around q).1 none (around q).2

/-- The conditions that an equal key meets. -/
def Exact (cond : MapEqTest) : Prop := cond ≠ .lt ∧ cond ≠ .gt

/-- A read that ends at a node with an equal key, which is splayed if the mode says so. -/
lemma returns_found {p : Path (Cell K V)} {l r : Shape K V} {x : Cell K V}
    (h : Stores m (plug p (.node l x r))) :
    ∃ m' u', Returns (when (t.mode = .splay) do
        nodeSplay x.addr
        fixRoot) m () m' ∧ Stores m' u' ∧ u'.cells = (plug p (.node l x r)).cells ∧
      (t.mode ≠ .splay → u' = plug p (.node l x r)) ∧ (t.mode = .splay → root u' = x.addr) := by
  by_cases hs : t.mode = .splay
  · obtain ⟨g, splay, hg⟩ := nodeSplay_returns h.holds (by simp)
    have same := splayUp_cells p (.node l x r)
    have mem : m.root ∈ addrs (splayUp p (.node l x r)) := by
      rw [addrs, same, h.root]
      have ne : plug p (.node l x r) ≠ .nil := plug_ne_nil p node_ne_nil
      exact root_mem (root_ne_zero h.holds ne)
    have fix := fixRoot_returns (m := { m with node := g }) hg mem
    exact ⟨_, _, .when_pos hs (.bind splay fix), ⟨hg, rfl⟩, same, fun ne => absurd hs ne,
      fun _ => root_splayUp p (by simp)⟩
  · exact ⟨m, _, .when_neg hs, h, rfl, fun _ => rfl, fun e => absurd e hs⟩

/-- A turn at a node with a lesser key that has no left subtree. -/
lemma getStep_gap_left (cond : MapEqTest) {p : Path (Cell K V)} {r : Shape K V} {x : Cell K V}
    (h : Stores m (plug p (.node .nil x r))) (lt : t.comp key x.key < 0) :
    Returns (getStep t key cond x.addr) m (.inr (addrOf (pickAround (around p).1 none (x :: r.cells ++ (around p).2) cond)))
      m := by
  obtain ⟨-, h0, -⟩ := rep_plug.mp h.holds.rep
  have prev := nodePrev_returns h.holds
  rw [cells, List.append_nil] at prev
  refine .ite_neg h0 (.bind (returns_deref h.holds.top) (.ite_pos lt (.ite_neg (fun left => left rfl) ?_)))
  cases cond with
  | gt => exact .pure _ _
  | ge => exact .pure _ _
  | lt => exact .bind prev (.pure _ _)
  | le => exact .bind prev (.pure _ _)
  | eq => exact .pure _ _

/-- A turn at a node with a greater key that has no right subtree. -/
lemma getStep_gap_right (cond : MapEqTest) {p : Path (Cell K V)} {l : Shape K V} {x : Cell K V}
    (h : Stores m (plug p (.node l x .nil))) (gt : 0 < t.comp key x.key) :
    Returns (getStep t key cond x.addr) m
      (.inr (addrOf (pickAround ((around p).1 ++ l.cells ++ [x]) none (around p).2 cond))) m := by
  obtain ⟨-, h0, -⟩ := rep_plug.mp h.holds.rep
  have next := nodeNext_returns h.holds
  rw [cells, List.nil_append] at next
  have last : ((around p).1 ++ l.cells ++ [x]).getLast? = some x := List.getLast?_concat
  refine .ite_neg h0 (.bind (returns_deref h.holds.top) (.ite_neg (not_lt.mpr gt.le) (.ite_pos gt
    (.ite_neg (fun right => right rfl) ?_))))
  cases cond with
  | gt => exact .bind next (.pure _ _)
  | ge => exact .bind next (.pure _ _)
  | lt =>
    rw [pickAround, last]
    exact .pure _ _
  | le =>
    rw [pickAround, last]
    exact .pure _ _
  | eq => exact .pure _ _

/-- A turn at a node with an equal key. -/
lemma getStep_found (cond : MapEqTest) {p : Path (Cell K V)} {l r : Shape K V} {x : Cell K V}
    (h : Stores m (plug p (.node l x r))) (eq : t.comp key x.key = 0) :
    ∃ m' u', Returns (getStep t key cond x.addr) m
        (.inr (addrOf (pickAround ((around p).1 ++ l.cells) (some x) (r.cells ++ (around p).2) cond))) m' ∧
      Stores m' u' ∧ u'.cells = (plug p (.node l x r)).cells ∧ (t.mode ≠ .splay → u' = plug p (.node l x r)) ∧
      (t.mode = .splay → Exact cond → root u' = x.addr) := by
  obtain ⟨-, h0, -⟩ := rep_plug.mp h.holds.rep
  have top := returns_deref h.holds.top
  have prev := nodePrev_returns h.holds
  have next := nodeNext_returns h.holds
  have nlt : ¬t.comp key (record .left x (1 + l.size + r.size) (above p) (root l) (root r)).key < 0 := by
    rw [record_key]
    omega
  have ngt : ¬t.comp key (record .left x (1 + l.size + r.size) (above p) (root l) (root r)).key > 0 := by
    rw [record_key]
    omega
  obtain ⟨m', u', splay, hs, same, other, up⟩ := returns_found (t := t) h
  have splayed : Stores m' u' ∧ u'.cells = (plug p (.node l x r)).cells ∧ (t.mode ≠ .splay → u' = plug p (.node l x r)) ∧
      (t.mode = .splay → Exact cond → root u' = x.addr) := ⟨hs, same, other, fun mode _ => up mode⟩
  cases cond with
  | lt =>
    exact ⟨m, _, .ite_neg h0 (.bind top (.ite_neg nlt (.ite_neg ngt (.bind prev (.pure _ _))))), h, rfl, fun _ => rfl,
      fun _ exact' => absurd rfl exact'.1⟩
  | gt =>
    exact ⟨m, _, .ite_neg h0 (.bind top (.ite_neg nlt (.ite_neg ngt (.bind next (.pure _ _))))), h, rfl, fun _ => rfl,
      fun _ exact' => absurd rfl exact'.2⟩
  | le => exact ⟨m', u', .ite_neg h0 (.bind top (.ite_neg nlt (.ite_neg ngt (.bind splay (.pure _ _))))), splayed⟩
  | eq => exact ⟨m', u', .ite_neg h0 (.bind top (.ite_neg nlt (.ite_neg ngt (.bind splay (.pure _ _))))), splayed⟩
  | ge => exact ⟨m', u', .ite_neg h0 (.bind top (.ite_neg nlt (.ite_neg ngt (.bind splay (.pure _ _))))), splayed⟩

/-- The loop of `tree_get_node` ends at the place that the comparisons lead to, whatever the comparator. -/
lemma getLoop_returns (cond : MapEqTest) {p : Path (Cell K V)} {u : Shape K V} (h : Stores m (plug p u))
    (hu : u ≠ .nil) (hp : Routed t.comp key p) :
    ∃ A x B, Place t.comp key (plug p u) A x B ∧ ∃ m' u',
      Returns (loop (getStep t key cond) (root u)) m (addrOf (pickAround A x B cond)) m' ∧
      Stores m' u' ∧ u'.cells = (plug p u).cells ∧ (t.mode ≠ .splay → u' = plug p u) ∧
      (t.mode = .splay → Exact cond → ∀ y ∈ x, root u' = y.addr) := by
  induction u generalizing p with
  | nil => exact absurd rfl hu
  | node l x r ihl ihr =>
    obtain ⟨-, h0, -, hl, hr⟩ := rep_plug.mp h.holds.rep
    have top := returns_deref h.holds.top
    rcases Int.lt_trichotomy (t.comp key x.key) 0 with lt | eq | gt
    · by_cases e : l = .nil
      · subst e
        have place : Place t.comp key (plug (⟨.left, x, r⟩ :: p) .nil) _ _ _ := .gap ⟨lt, hp⟩
        exact ⟨_, _, _, place, m, _, .exit (getStep_gap_left (p := p) cond h lt), h, rfl, fun _ => rfl,
          fun _ _ _ mem => absurd mem (Option.not_mem_none _)⟩
      · have ne : root l ≠ 0 := fun e0 => e (hl.root_eq_zero.mp e0)
        obtain ⟨A, y, B, place, m', u', rest, hs⟩ := ihl (p := ⟨.left, x, r⟩ :: p) h e ⟨lt, hp⟩
        exact ⟨A, y, B, place, m', u', .turn (.ite_neg h0 (.bind top (.ite_pos lt (.ite_pos ne (.pure _ _))))) rest, hs⟩
    · obtain ⟨m', u', run, hs, same, other, up⟩ := getStep_found cond h eq
      refine ⟨_, _, _, .node hp eq, m', u', .exit run, hs, same, other, fun mode exact' y mem => ?_⟩
      cases mem
      exact up mode exact'
    · by_cases e : r = .nil
      · subst e
        have place : Place t.comp key (plug (⟨.right, x, l⟩ :: p) .nil) _ _ _ := .gap ⟨gt, hp⟩
        exact ⟨_, _, _, place, m, _, .exit (getStep_gap_right (p := p) cond h gt), h, rfl, fun _ => rfl,
          fun _ _ _ mem => absurd mem (Option.not_mem_none _)⟩
      · have ne : root r ≠ 0 := fun e0 => e (hr.root_eq_zero.mp e0)
        obtain ⟨A, y, B, place, m', u', rest, hs⟩ := ihr (p := ⟨.right, x, l⟩ :: p) h e ⟨gt, hp⟩
        refine ⟨A, y, B, place, m', u', .turn (.ite_neg h0 (.bind top ?_)) rest, hs⟩
        exact .ite_neg (not_lt.mpr gt.le) (.ite_pos gt (.ite_pos ne (.pure _ _)))

/-- `tree_get_node` ends at the place that the comparisons lead to; only a splay tree is changed. -/
lemma treeGetNode_ends (t : TreeT K) (key : K) (cond : MapEqTest) {u : Shape K V} (h : Stores m u) :
    ∃ A x B, Place t.comp key u A x B ∧ ∃ m' u', Returns (treeGetNode t key cond) m (addrOf (pickAround A x B cond)) m' ∧
      Stores m' u' ∧ u'.cells = u.cells ∧ (t.mode ≠ .splay → u' = u) ∧
      (t.mode = .splay → Exact cond → ∀ y ∈ x, root u' = y.addr) := by
  by_cases e : u = .nil
  · subst e
    have place : Place t.comp key (plug [] (.nil : Shape K V)) _ _ _ := .gap trivial
    refine ⟨_, _, _, place, m, .nil, .bind (.asks _ _) (.exit ?_), h, rfl, fun _ => rfl,
      fun _ _ _ mem => absurd mem (Option.not_mem_none _)⟩
    rw [h.root]
    cases cond <;> exact .pure _ _
  · obtain ⟨A, x, B, place, m', u', run, hs⟩ := getLoop_returns (t := t) cond (p := []) h e (show Routed t.comp key [] from trivial)
    rw [← h.root] at run
    exact ⟨A, x, B, place, m', u', .bind (.asks _ _) run, hs⟩

/-- What is picked is one of them. -/
lemma pickAround_mem {α : Type} {A B : List α} {x : Option α} {cond : MapEqTest} {y : α}
    (h : pickAround A x B cond = some y) : y ∈ A ++ (x.toList ++ B) := by
  simp only [List.mem_append, Option.mem_toList]
  cases cond with
  | lt => exact .inl (List.mem_of_getLast? h)
  | le =>
    rcases Option.or_eq_some_iff.mp h with e | ⟨-, e⟩
    · exact .inr (.inl e)
    · exact .inl (List.mem_of_getLast? e)
  | eq => exact .inr (.inl h)
  | ge =>
    rcases Option.or_eq_some_iff.mp h with e | ⟨-, e⟩
    · exact .inr (.inl e)
    · exact .inr (.inr (List.mem_of_head? e))
  | gt => exact .inr (.inr (List.mem_of_head? h))

/-- The cells around the place of a key. -/
lemma Place.cells_eq {u : Shape K V} {A B : List (Cell K V)} {x : Option (Cell K V)} (h : Place t.comp key u A x B) :
    u.cells = A ++ (x.toList ++ B) := by
  cases h with
  | node _ _ =>
    rw [plug_cells, cells]
    simp only [List.append_assoc, Option.toList, List.cons_append, List.nil_append]
  | gap _ =>
    rw [plug_cells, cells, List.append_nil]
    rfl

/-- `tree_get` reads the data of the node it has found, or nothing. -/
lemma treeGet_ends [Zero V] (t : TreeT K) (key : K) (cond : MapEqTest) {u : Shape K V} (h : Stores m u) :
    ∃ A x B, Place t.comp key u A x B ∧ ∃ m' u',
      Returns (treeGet t key cond) m (((pickAround A x B cond).map Cell.data).getD 0) m' ∧
      Stores m' u' ∧ u'.cells = u.cells ∧ (t.mode ≠ .splay → u' = u) := by
  obtain ⟨A, x, B, place, m', u', run, hs, same, other, -⟩ := treeGetNode_ends t key cond h
  refine ⟨A, x, B, place, m', u', .bind run ?_, hs, same, other⟩
  cases found : pickAround A x B cond with
  | none => exact .ite_pos rfl (.pure _ _)
  | some y =>
    have mem := pickAround_mem found
    rw [← place.cells_eq, ← same] at mem
    obtain ⟨p, l, r, rfl⟩ := exists_position mem
    have h0 : y.addr ≠ 0 := (rep_plug.mp hs.holds.rep).2.1
    exact .ite_neg h0 (.bind (returns_deref hs.holds.top) (.pure _ _))

section Order
variable (hc : SignPreorder t.comp)
include hc

/-- In a tree in order, what is picked is around the place of the key. -/
lemma Place.pick_eq {u : Shape K V} {A B : List (Cell K V)} {x : Option (Cell K V)} (h : Place t.comp key u A x B)
    (ho : Ordered t.comp (bindings u)) (cond : MapEqTest) : pick (signAt t key) u.cells cond = pickAround A x B cond := by
  have signs : (∀ a ∈ A, 0 < signAt t key a) ∧ (∀ a ∈ x, signAt t key a = 0) ∧ ∀ b ∈ B, signAt t key b < 0 := by
    cases h with
    | node hq hx =>
      rw [bindings_focus] at ho
      have hb := ho.between hc hx
      simp only [before, after, bindings, ← List.map_append] at hb
      refine ⟨fun a ha => hb.before a.binding (List.mem_map_of_mem ha), ?_,
        fun a ha => hb.after a.binding (List.mem_map_of_mem ha)⟩
      rintro a ⟨⟩
      exact hx
    | gap hq =>
      have hb := hq.between hc ho
      exact ⟨fun a ha => hb.before a.binding (List.mem_map_of_mem ha), fun _ mem => absurd mem (Option.not_mem_none _),
        fun a ha => hb.after a.binding (List.mem_map_of_mem ha)⟩
  rw [h.cells_eq]
  exact pick_around signs.1 signs.2.1 signs.2.2 cond

/-- `tree_get_node` finds the node that the condition picks and keeps the nodes in order. -/
theorem treeGetNode_returns (key : K) (cond : MapEqTest) {u : Shape K V} (h : Stores m u)
    (ho : Ordered t.comp (bindings u)) :
    ∃ m' u', Returns (treeGetNode t key cond) m (addrOf (pick (signAt t key) u.cells cond)) m' ∧
      Stores m' u' ∧ u'.cells = u.cells := by
  obtain ⟨A, x, B, place, m', u', run, hs, same, -⟩ := treeGetNode_ends t key cond h
  rw [← place.pick_eq hc ho] at run
  exact ⟨m', u', run, hs, same⟩

/-- `tree_get` reads the data of the binding that the condition picks. -/
theorem treeGet_returns [Zero V] (key : K) (cond : MapEqTest) {u : Shape K V} (h : Stores m u)
    (ho : Ordered t.comp (bindings u)) :
    ∃ m' u', Returns (treeGet t key cond) m
        (((pick (signAt t key) u.cells cond).map Cell.data).getD 0) m' ∧
      Stores m' u' ∧ bindings u' = bindings u := by
  obtain ⟨A, x, B, place, m', u', run, hs, same, -⟩ := treeGet_ends t key cond h
  rw [← place.pick_eq hc ho] at run
  exact ⟨m', u', run, hs, congrArg (List.map Cell.binding) same⟩

/-- `tree_get` with `MAP_EQ` reads the map. -/
lemma pick_eq_lookup {u : Shape K V} {M : Finmap fun _ : hc.Class => V} (hM : Denotes hc (bindings u) M) :
    (pick (signAt t key) u.cells .eq).map Cell.data = M.lookup (hc.classOf key) := by
  rw [← hM.agree, pick, List.head?_filter, Assoc.lookup, bindings, List.find?_map, Option.map_map]
  rfl

end Order

end Twcos.Tree
