import Twcos.Prog.Keeps
import Twcos.Tree.Lookup

/-!
# Walking over a tree in key order

`tree_walk_nodes` and what is built on it: `tree_walk`, from the first node to the last, and `tree_walk_range`, from the
first node that is not below one key to the last one below another. The step from a node to the next goes through the
parent links, with nothing kept on the way; it ends where the shape of the tree says, whatever the counts are.
-/

namespace Twcos.Tree
open Twcos.Prog Twcos.Bin Twcos.Assoc

variable {K V : Type}

/-- Code that calls a `walk_func` with a key and its data. -/
abbrev WalkCode (K V α : Type) := Prog Fault (Mem K V × List (K × V)) α

/-- The body shared by `tree_node_first` (`s` left) and `tree_node_last` (`s` right). -/
def treeNodeEnd (s : Side) : Code K V Ptr := do
  let node ← asks Mem.root
  if node = 0 then return 0 else descend s node

/-- `tree_node_first`. -/
def treeNodeFirst : Code K V Ptr := treeNodeEnd .left

/-- `tree_node_last`. -/
def treeNodeLast : Code K V Ptr := treeNodeEnd .right

/-- A turn of the loop of `tree_walk_nodes`. -/
def walkStep (last node : Ptr) : WalkCode K V (Ptr ⊕ Unit) := do
  if node = 0 then return .inr () else
  let n ← Prog.lift (deref node)
  emit (n.key, n.data)
  if node = last then return .inl 0 else
  let next ← Prog.lift (nodeNext node)
  return .inl next

/-- `tree_walk_nodes`. -/
def treeWalkNodes (start last : Ptr) : WalkCode K V Unit := loop (walkStep last) start

/-- `tree_walk`. -/
def treeWalk : WalkCode K V Unit := do
  let start ← Prog.lift treeNodeFirst
  let last ← Prog.lift treeNodeLast
  treeWalkNodes start last

/-- `tree_walk_range`. -/
def treeWalkRange (t : TreeT K) (start stop : K) : WalkCode K V Unit := do
  let first ← Prog.lift (treeGetNode t start .ge)
  let last ← Prog.lift (treeGetNode t stop .lt)
  treeWalkNodes first last

/-! ### Steps -/

variable {m : Mem K V} {u : Shape K V}

/-- Every node is at a position between the nodes before and behind it. -/
lemma exists_between {α : Type} {t : Bin α} {A B : List α} {x : α} (h : t.cells = A ++ x :: B) :
    ∃ p l r, t = plug p (.node l x r) ∧ (around p).1 ++ l.cells = A ∧ r.cells ++ (around p).2 = B := by
  induction t generalizing A B with
  | nil => cases A <;> cases h
  | node l y r ihl ihr =>
    rw [cells] at h
    rcases List.append_eq_append_iff.mp h with ⟨C, hA, hC⟩ | ⟨C, hl, hC⟩
    · cases C with
      | nil =>
        cases hC
        exact ⟨[], l, r, rfl, by simpa [around] using hA.symm, by simp [around]⟩
      | cons z C =>
        obtain ⟨rfl, hr⟩ := List.cons.inj hC
        obtain ⟨p, l', r', rfl, before, after⟩ := ihr hr
        refine ⟨p ++ [⟨.right, y, l⟩], l', r', by rw [plug_append]; rfl, ?_, ?_⟩
        · rw [around_append, hA, ← before]
          simp [around]
        · rw [around_append, ← after]
          simp [around]
    · cases C with
      | nil =>
        cases hC
        exact ⟨[], l, r, rfl, by simpa [around] using hl, by simp [around]⟩
      | cons z C =>
        obtain ⟨rfl, rfl⟩ := List.cons.inj hC
        obtain ⟨p, l', r', rfl, before, after⟩ := ihl hl
        refine ⟨p ++ [⟨.left, y, r⟩], l', r', by rw [plug_append]; rfl, ?_, ?_⟩
        · rw [around_append, ← before]
          simp [around]
        · rw [around_append, ← after]
          simp [around]

section
variable (I : Mem K V → Prop)

/-- Reading a node keeps every invariant. -/
lemma deref_keeps (p : Ptr) : Keeps I (deref p) := .demand _ _

/-- Reading the parent keeps every invariant. -/
lemma parentOf_keeps (p : Ptr) : Keeps I (parentOf p) := .bind (deref_keeps I p) fun _ => .pure _

/-- Asking for the side keeps every invariant. -/
lemma nodeIs_keeps (s : Side) (p : Ptr) : Keeps I (nodeIs s p) :=
  .bind (deref_keeps I p) fun _ => .ite (.pure _) (.bind (deref_keeps I _) fun _ => .pure _)

/-- Going down keeps every invariant. -/
lemma descend_keeps (s : Side) (p : Ptr) : Keeps I (descend s p) :=
  .loop (fun p => .bind (deref_keeps I p) fun _ => .ite (.pure _) (.pure _)) p

/-- Going up keeps every invariant. -/
lemma ascend_keeps (s : Side) (p : Ptr) : Keeps I (ascend s p) := by
  refine .loop (fun p => .bind (nodeIs_keeps I s p) fun _ => .ite ?_ (.pure _)) p
  exact .bind (parentOf_keeps I p) fun _ => .pure _

/-- Going to the next node keeps every invariant. -/
lemma nodeStep_keeps (s : Side) (p : Ptr) : Keeps I (nodeStep s p) := by
  refine .bind (deref_keeps I p) fun _ => .ite (descend_keeps I _ _) (.bind (ascend_keeps I s p) fun q => ?_)
  exact .bind (nodeIs_keeps I _ q) fun _ => .ite (parentOf_keeps I q) (.pure _)

/-- Going to the end keeps every invariant. -/
lemma treeNodeEnd_keeps (s : Side) : Keeps I (treeNodeEnd s : Code K V Ptr) :=
  .bind (.asks _) fun _ => .ite (.pure _) (descend_keeps I s _)

end

/-- Code that changes nothing does so with any counts. -/
lemma blind_looks {α : Type} {p : Code K V α} (blind : ∀ C, Additive C → Blind C p) (keeps : ∀ I, Keeps I p)
    {m0 m : Mem K V} {a : α} (run : Returns p m0 a m0) (alike : Alike (fun _ _ => True) m0 m) : Returns p m a m := by
  obtain ⟨m', run', -⟩ := blind_returns blind run alike
  have same : m' = m := (keeps fun s => s = m).returns run' rfl
  rw [same] at run'
  exact run'

/-- A node of a tree that is linked correctly. -/
lemma links_deref (h : Links m u) {x : Cell K V} (mem : x ∈ u.cells) :
    x.addr ≠ 0 ∧ ∃ n, Returns (deref x.addr) m n m ∧ (n.key, n.data) = x.binding := by
  obtain ⟨m0, stores, alike⟩ := h
  obtain ⟨p, l, r, rfl⟩ := exists_position mem
  obtain ⟨n, found, k, rfl, -⟩ := alike.node _ _ stores.holds.top
  exact ⟨(rep_plug.mp stores.holds.rep).2.1, _, .demand found, rfl⟩

/-- The next node of a tree with any counts. -/
lemma links_next (h : Links m u) {A B : List (Cell K V)} {x : Cell K V} (split : u.cells = A ++ x :: B) :
    Returns (nodeNext x.addr) m (addrOf B.head?) m := by
  obtain ⟨m0, stores, alike⟩ := h
  obtain ⟨p, l, r, rfl, -, rfl⟩ := exists_between split
  exact blind_looks (fun _ _ => blind_nodeStep _ _) (fun I => nodeStep_keeps I _ _) (nodeNext_returns stores.holds) alike

/-- The node before, in a tree with any counts. -/
lemma links_prev (h : Links m u) {A B : List (Cell K V)} {x : Cell K V} (split : u.cells = A ++ x :: B) :
    Returns (nodePrev x.addr) m (addrOf A.getLast?) m := by
  obtain ⟨m0, stores, alike⟩ := h
  obtain ⟨p, l, r, rfl, rfl, -⟩ := exists_between split
  exact blind_looks (fun _ _ => blind_nodeStep _ _) (fun I => nodeStep_keeps I _ _) (nodePrev_returns stores.holds) alike

/-- Going to the end does not look at the counts. -/
lemma blind_treeNodeEnd {C : Int → Int → Prop} (s : Side) : Blind C (treeNodeEnd s : Code K V Ptr) := by
  have root : Blind C (asks Mem.root : Code K V Ptr) := .asks fun _ _ h => h.root.symm
  exact .andThen root fun _ => .ite (.pure rfl) (blind_descend s _)

/-- The end of a tree with any counts. -/
lemma links_end (h : Links m u) (s : Side) : Returns (treeNodeEnd s) m (addrOf (outermost s u)) m := by
  obtain ⟨m0, stores, alike⟩ := h
  refine blind_looks (fun _ _ => blind_treeNodeEnd s) (fun I => treeNodeEnd_keeps I s) (.bind (.asks _ _) ?_) alike
  rw [stores.root]
  by_cases e : u = .nil
  · subst e
    exact .ite_pos rfl (.pure _ _)
  · exact .ite_neg (root_ne_zero stores.holds e) (descend_returns stores.holds.rep e)

/-! ### The walk -/

/-- The bindings up to a node, or all if it is not among them. -/
def upTo (last : Ptr) : List (Cell K V) → List (K × V)
  | [] => []
  | x :: xs => x.binding :: if x.addr = last then [] else upTo last xs

/-- The walk from a node on. -/
lemma treeWalkNodes_emits (h : Links m u) (last : Ptr) {A B : List (Cell K V)} (split : u.cells = A ++ B) :
    Emits (treeWalkNodes (addrOf B.head?) last) m () (upTo last B) m := by
  induction B generalizing A with
  | nil => exact .exit (.pure _ _)
  | cons x B ih =>
    obtain ⟨addr, n, read, binding⟩ := links_deref h (show x ∈ u.cells by rw [split]; simp)
    have next := links_next h split
    have rest := ih (A := A ++ [x]) (by rw [split, List.append_assoc]; rfl)
    rw [upTo, ← binding]
    by_cases here : x.addr = last
    · have step : Emits (walkStep last x.addr) m (.inl 0) [(n.key, n.data)] m := by
        rw [walkStep, if_neg addr]
        refine .andThen (.lift read) (.bind (.emit _ _) ?_)
        rw [if_pos here]
        exact .pure _ _
      have stop : Emits (loop (walkStep last) 0) m () [] m := .exit (.pure _ _)
      rw [if_pos here]
      exact .turn step stop
    · have step : Emits (walkStep last x.addr) m (.inl (addrOf B.head?)) [(n.key, n.data)] m := by
        rw [walkStep, if_neg addr]
        refine .andThen (.lift read) (.bind (.emit _ _) ?_)
        rw [if_neg here]
        exact .andThen (.lift next) (.pure _ _)
      rw [if_neg here]
      exact .turn step rest

/-- The walk ends behind its last node. -/
lemma upTo_append {A B : List (Cell K V)} {x : Cell K V} (h : ∀ y ∈ A, y.addr ≠ x.addr) :
    upTo x.addr (A ++ x :: B) = (A ++ [x]).map Cell.binding := by
  induction A with
  | nil => rw [List.nil_append, upTo, if_pos rfl]; rfl
  | cons y A ih =>
    rw [List.cons_append, upTo, if_neg (h y List.mem_cons_self), ih fun z mem => h z (List.mem_cons_of_mem y mem)]
    rfl

/-- The walk goes to the end if it does not come to its last node. -/
lemma upTo_absent {last : Ptr} {A : List (Cell K V)} (h : ∀ y ∈ A, y.addr ≠ last) :
    upTo last A = A.map Cell.binding := by
  induction A with
  | nil => rfl
  | cons y A ih =>
    rw [upTo, if_neg (h y List.mem_cons_self), ih fun z mem => h z (List.mem_cons_of_mem y mem)]
    rfl

/-- The nodes have different addresses. -/
lemma Links.nodup (h : Links m u) : (u.cells.map Cell.addr).Nodup := by
  obtain ⟨m0, stores, -⟩ := h
  exact stores.holds.nodup

/-- Two nodes of a tree are at different addresses. -/
lemma Links.addr_ne (h : Links m u) {A B : List (Cell K V)} {x : Cell K V} (split : u.cells = A ++ x :: B) :
    (∀ y ∈ A, y.addr ≠ x.addr) ∧ ∀ y ∈ B, y.addr ≠ x.addr := by
  have nodup := h.nodup
  rw [split, List.map_append, List.map_cons, List.nodup_append, List.nodup_cons] at nodup
  constructor
  · intro y mem
    exact nodup.2.2 _ (List.mem_map_of_mem mem) _ List.mem_cons_self
  · intro y mem e
    exact nodup.2.1.1 (e ▸ List.mem_map_of_mem mem)

/-- The walk comes to all bindings in their order. -/
lemma treeWalk_emits (h : Links m u) : Emits treeWalk m () (bindings u) m := by
  have first := links_end h .left
  have last := links_end h .right
  rw [outermost_left] at first
  rw [outermost_right] at last
  have walk := treeWalkNodes_emits h (addrOf u.cells.getLast?) (A := []) (B := u.cells) rfl
  have all : upTo (addrOf u.cells.getLast?) u.cells = bindings u := by
    cases e : u.cells.getLast? with
    | none =>
      rw [bindings, List.getLast?_eq_none_iff.mp e]
      rfl
    | some x =>
      obtain ⟨A, split⟩ := List.getLast?_eq_some_iff.mp e
      rw [bindings, split]
      exact upTo_append (h.addr_ne split).1
  rw [all] at walk
  exact .andThen (.lift first) (.andThen (.lift last) walk)

/-- The address of a neighbour is null only if there is none. -/
lemma Links.addrOf_eq_zero (h : Links m u) {o : Option (Cell K V)} (mem : ∀ y ∈ o, y ∈ u.cells) :
    addrOf o = 0 ↔ o = none := by
  cases o with
  | none => exact ⟨fun _ => rfl, fun _ => rfl⟩
  | some y => exact ⟨fun e => absurd e (links_deref h (mem y rfl)).1, fun e => by cases e⟩

/-- Only the last node has no next one. -/
lemma next_null_iff (h : Links m u) {x : Cell K V} (mem : x ∈ u.cells) :
    Returns (nodeNext x.addr) m 0 m ↔ u.cells.getLast? = some x := by
  obtain ⟨A, B, split⟩ := List.append_of_mem mem
  have next := links_next h split
  have inside : ∀ y ∈ B.head?, y ∈ u.cells := fun y hy => by
    rw [split]
    exact List.mem_append_right A (List.mem_cons_of_mem x (List.mem_of_mem_head? hy))
  constructor
  · intro null
    have none := (h.addrOf_eq_zero inside).mp (next.unique null).1
    rw [split, List.head?_eq_none_iff.mp none]
    exact List.getLast?_concat
  · intro last
    have empty : B = [] := by
      by_contra ne
      rw [split, List.getLast?_append_cons, List.getLast?_cons_of_ne_nil ne] at last
      exact (h.addr_ne split).2 x (List.mem_of_getLast? last) rfl
    rw [empty] at next
    exact next

/-- Only the first node has none before. -/
lemma prev_null_iff (h : Links m u) {x : Cell K V} (mem : x ∈ u.cells) :
    Returns (nodePrev x.addr) m 0 m ↔ u.cells.head? = some x := by
  obtain ⟨A, B, split⟩ := List.append_of_mem mem
  have prev := links_prev h split
  have inside : ∀ y ∈ A.getLast?, y ∈ u.cells := fun y hy => by
    rw [split]
    exact List.mem_append_left _ (List.mem_of_getLast? hy)
  constructor
  · intro null
    have none := (h.addrOf_eq_zero inside).mp (prev.unique null).1
    rw [split, List.getLast?_eq_none_iff.mp none]
    rfl
  · intro first
    cases A with
    | nil => exact prev
    | cons y A =>
      rw [split] at first
      cases first
      exact absurd rfl ((h.addr_ne split).1 x List.mem_cons_self)

/-- `tree_walk` calls the callback once for each binding, in the order of the keys. `node_next` and `node_prev` lead from
    each node to its neighbours, and to null exactly from the last and the first. -/
theorem treeWalk_calls (comp : K → K → Int) (m : Mem K V) (u : Shape K V) (links : Links m u)
    (ordered : Ordered comp (bindings u)) :
    (∃ calls, Emits treeWalk m () calls m ∧ calls.Pairwise (fun a b => comp a.1 b.1 < 0) ∧
      ∀ k v, (k, v) ∈ calls ↔ ∃ x ∈ u.cells, x.key = k ∧ x.data = v) ∧
    (∀ A x y B, u.cells = A ++ x :: y :: B →
      Returns (nodeNext x.addr) m y.addr m ∧ Returns (nodePrev y.addr) m x.addr m) ∧
    ∀ x ∈ u.cells, (Returns (nodeNext x.addr) m 0 m ↔ u.cells.getLast? = some x) ∧
      (Returns (nodePrev x.addr) m 0 m ↔ u.cells.head? = some x) := by
  refine ⟨⟨bindings u, treeWalk_emits links, ordered, fun k v => ?_⟩, fun A x y B split => ?_, fun x mem => ?_⟩
  · rw [bindings, List.mem_map]
    refine exists_congr fun x => and_congr_right fun _ => ?_
    exact Prod.mk_inj
  · have prev := links_prev links (A := A ++ [x]) (x := y) (B := B) (by rw [split, List.append_assoc]; rfl)
    rw [List.getLast?_concat] at prev
    exact ⟨links_next links split, prev⟩
  · exact ⟨next_null_iff links mem, prev_null_iff links mem⟩

/-- A walk over three nodes. -/
theorem treeWalk_threeNodes : Links (threeNodes 0 0 0) threeShape ∧ Ordered mapKeycmp (bindings threeShape) ∧
    ∃ calls, Emits treeWalk (threeNodes 0 0 0) () calls (threeNodes 0 0 0) ∧
      calls.Pairwise (fun a b => mapKeycmp a.1 b.1 < 0) ∧
      ∀ k v, (k, v) ∈ calls ↔ ∃ x ∈ threeShape.cells, x.key = k ∧ x.data = v :=
  ⟨links_threeNodes 0 0 0, ordered_threeShape,
    (treeWalk_calls mapKeycmp _ _ (links_threeNodes 0 0 0) ordered_threeShape).1⟩

end Twcos.Tree
