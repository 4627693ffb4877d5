import Twcos.Prog.Basic
import Twcos.Bin.Basic

/-!
# The tree map

Model of `libk/tree.c`: nodes linked by `parent`, `left` and `right` pointers, the rotations, the four
ways of rebalancing after an insertion, and the map operations on top of them. A node lives at an
address; address `0` is `NULL`. Reading through an address that holds no node is a fault, as is a
failing `assert`.

C → Lean naming (snake case becomes camel case): `node_t` → `Node`, `tree_t` → `TreeT` (its fixed part:
`mode` and `comp`) and `Mem` (its `root` and the node slots); `node_rotate_left`/`node_rotate_right`
→ `nodeRotateLeft`/`nodeRotateRight`, both instances of `nodeRotate`; `tree_put` → `treePut`, and so on.

What the tree takes from outside is an `Env`: the slot `slab_alloc` hands out, and the priority of a new
node. The code computes the latter from the address (`codePriority`); the model lets it be anything.
-/

namespace Twcos.Tree
open Twcos.Prog

/-- An address; `0` is `NULL`. -/
abbrev Ptr := Nat

/-- `enum treemode`, with the default mode `0` of `tree_new`. -/
inductive Treemode where
  | default
  | splay
  | treap
  | count
deriving DecidableEq, Repr

/-- `enum map_eq_test`. -/
inductive MapEqTest where
  | lt
  | le
  | eq
  | ge
  | gt
deriving DecidableEq, Repr

/-- `node_t`. Its counts are exact integers: `2 ^ 31` nodes do not fit into a 32-bit address space. -/
structure Node (K V : Type) where
  key : K
  data : V
  count : Int
  priority : Int
  parent : Ptr
  left : Ptr
  right : Ptr

variable {K V : Type}

/-- The child on a side. -/
def Node.child (n : Node K V) : Side → Ptr
  | .left => n.left
  | .right => n.right

/-- Replace the child on a side. -/
def Node.setChild (n : Node K V) : Side → Ptr → Node K V
  | .left, p => { n with left := p }
  | .right, p => { n with right := p }

/-- What can stop an operation: a null dereference, a failed assertion, `OutOfBoundsException`. -/
inductive Fault where
  | null
  | assertion
  | outOfBounds
deriving DecidableEq, Repr

/-- The node slots, the root pointer of the tree, and the number of slots handed out so far. -/
structure Mem (K V : Type) where
  node : Ptr → Option (Node K V)
  root : Ptr
  allocs : Nat

/-- The fixed part of `tree_t`. -/
structure TreeT (K : Type) where
  mode : Treemode
  comp : K → K → Int

/-- What an operation takes from outside, as a function of the number of earlier allocations: the slot
    that `slab_alloc` returns, which is not null and not in use, what an unset priority field holds, and
    the priority given to a new treap node. -/
structure Env (K V : Type) where
  slot : Nat → (Ptr → Option (Node K V)) → Ptr
  junk : Nat → Int
  priority : Nat → Ptr → Int
  slot_free : ∀ n (node : Ptr → Option (Node K V)) (used : List Ptr),
    (∀ p, p ∉ used → node p = none) → slot n node ≠ 0 ∧ node (slot n node) = none

/-- `((uintptr_t)node * 997) & 0xff`. -/
def codePriority (p : Ptr) : Int := ((p * 997 % 2 ^ 32) &&& 0xff : Nat)

/-- `map_keycmp`, the comparator of a tree made with a null `comp`. -/
def mapKeycmp (k1 k2 : Nat) : Int := if k1 > k2 then 1 else if k2 > k1 then -1 else 0

/-- Code on the nodes of one tree. -/
abbrev Code (K V α : Type) := Prog Fault (Mem K V) α

/-- The memory after changing the node at `p`. -/
def Mem.modify (m : Mem K V) (p : Ptr) (f : Node K V → Node K V) : Mem K V :=
  { m with node := fun q => if q = p then (m.node p).map f else m.node q }

/-- `*p`. -/
def deref (p : Ptr) : Code K V (Node K V) := demand (fun m => m.node p) .null

/-- Assign fields of `*p`. -/
def store (p : Ptr) (f : Node K V → Node K V) : Code K V Unit := do
  let _ ← deref p
  update fun m => m.modify p f

/-- `assert(c)`. -/
def assert (c : Bool) : Code K V Unit := check c .assertion

/-- `p->parent`. -/
def parentOf (p : Ptr) : Code K V Ptr := do
  let n ← deref p
  return n.parent

/-- `node_count`. -/
def nodeCount (p : Ptr) : Code K V Int := do
  if p = 0 then return 0 else
  let n ← deref p
  return n.count

/-- `assert(NULL == p->parent || p->parent->left == p || p->parent->right == p)`. -/
def assertLinked (p : Ptr) : Code K V Unit := do
  let n ← deref p
  when (n.parent ≠ 0) do
    let q ← deref n.parent
    assert (q.left = p ∨ q.right = p)

/-- The body shared by the two rotations: node `x` moves down to side `s`, its child `y` on the other
    side takes its place. -/
def nodeRotate (s : Side) (x : Ptr) : Code K V Unit := do
  let nx ← deref x
  let a := nx.child s
  let y := nx.child s.opp
  let ny ← deref y
  let c := ny.child s
  let e := ny.child s.opp
  assert (y ≠ 0)
  assert (ny.parent = x)
  when (c ≠ 0) do
    let nc ← deref c
    assert (nc.parent = y)
  assertLinked x
  -- link `y` into the parent of `x`, then `x` and `c` below it
  store y fun n => { n with parent := nx.parent }
  store x fun n => { n with parent := y }
  store y fun n => n.setChild s x
  store x fun n => n.setChild s.opp c
  when (c ≠ 0) do store c fun n => { n with parent := x }
  let q ← parentOf y
  when (q ≠ 0) do
    let nq ← deref q
    if x = nq.left then store q fun n => { n with left := y }
    else store q fun n => { n with right := y }
  -- the counts, bottom up
  let ca ← nodeCount a
  let cc ← nodeCount c
  store x fun n => { n with count := 1 + ca + cc }
  let cx ← nodeCount x
  let ce ← nodeCount e
  store y fun n => { n with count := 1 + cx + ce }
  assertLinked y

/-- `node_rotate_left`. -/
def nodeRotateLeft (b : Ptr) : Code K V Unit := nodeRotate .left b

/-- `node_rotate_right`. -/
def nodeRotateRight (d : Ptr) : Code K V Unit := nodeRotate .right d

/-- The test shared by `node_is_left` and `node_is_right`. -/
def nodeIs (s : Side) (p : Ptr) : Code K V Bool := do
  let n ← deref p
  if n.parent = 0 then return false else
  let q ← deref n.parent
  return decide (p = q.child s)

/-- `node_is_left`. -/
def nodeIsLeft (p : Ptr) : Code K V Bool := nodeIs .left p

/-- `node_is_right`. -/
def nodeIsRight (p : Ptr) : Code K V Bool := nodeIs .right p

/-- One turn of the loop of `node_splay`. -/
def nodeSplayStep (node : Ptr) : Code K V Unit := do
  if ← nodeIsLeft node then
    if ← nodeIsLeft (← parentOf node) then
      nodeRotateRight (← parentOf (← parentOf node))
      nodeRotateRight (← parentOf node)
    else if ← nodeIsRight (← parentOf node) then
      nodeRotateRight (← parentOf node)
      nodeRotateLeft (← parentOf node)
    else
      nodeRotateRight (← parentOf node)
  else if ← nodeIsRight node then
    if ← nodeIsRight (← parentOf node) then
      nodeRotateLeft (← parentOf (← parentOf node))
      nodeRotateLeft (← parentOf node)
    -- the source tests `node_is_right` again here, so this branch is never taken
    else if ← nodeIsRight (← parentOf node) then
      nodeRotateLeft (← parentOf node)
      nodeRotateRight (← parentOf node)
    else
      nodeRotateLeft (← parentOf node)

/-- `node->parent` as a truth value. -/
def hasParent (node : Ptr) : Code K V Bool := do
  return decide ((← parentOf node) ≠ 0)

/-- `node_splay`. -/
def nodeSplay (node : Ptr) : Code K V Unit := whileDo (hasParent node) (nodeSplayStep node)

/-- The body of the loop of `node_prioritize`: rotate `node` over its parent. -/
def nodeRotateUp (node : Ptr) : Code K V Unit := do
  if ← nodeIsLeft node then nodeRotateRight (← parentOf node)
  else if ← nodeIsRight node then nodeRotateLeft (← parentOf node)

/-- `node->priority < node->parent->priority`. -/
def priorityLess (node : Ptr) : Code K V Bool := do
  let n ← deref node
  let q ← deref n.parent
  return decide (n.priority < q.priority)

/-- `node_prioritize`; `priority` stands for `((uintptr_t)node * 997) & 0xff`. -/
def nodePrioritize (priority : Int) (node : Ptr) : Code K V Unit := do
  store node fun n => { n with priority := priority }
  whileDo (both (hasParent node) (priorityLess node)) (nodeRotateUp node)

/-- `node_is_s(p) && node_count(p->parent->s.opp) < node_count(p->s)`: the outer grandchild outweighs
    the sibling. -/
def outweighs (s : Side) (p : Ptr) : Code K V Bool := both (nodeIs s p) do
  let n ← deref p
  let q ← deref n.parent
  let sibling ← nodeCount (q.child s.opp)
  let outer ← nodeCount (n.child s)
  return decide (sibling < outer)

/-- The rotation, if any, in a turn of the loop of `node_count_balance`. -/
def countRotate (balance : Ptr) : Code K V Unit := do
  if ← outweighs .right balance then nodeRotateLeft (← parentOf balance)
  else if ← outweighs .left balance then nodeRotateRight (← parentOf balance)

/-- `node_count_balance`. -/
def nodeCountBalance (node : Ptr) : Code K V Unit :=
  loop (fun balance => do
    if balance = 0 then return .inr () else
    if ← hasParent balance then
      countRotate balance
      return .inl (← parentOf balance)
    else return .inr ()) node

/-- The four link bits of `node_simple_balance`: parent left, parent right, node left, node right. -/
def linkBits (p n : Node K V) : Nat :=
  8 * (if p.left ≠ 0 then 1 else 0) + 4 * (if p.right ≠ 0 then 1 else 0) +
    2 * (if n.left ≠ 0 then 1 else 0) + (if n.right ≠ 0 then 1 else 0)

/-- The `switch` of `node_simple_balance`, with its fall-through cases. -/
def simpleSwitch (i : Nat) (node parent : Ptr) : Code K V Unit :=
  match i with
  | 9 => do
    nodeRotateLeft node
    nodeRotateRight parent
  | 10 => nodeRotateRight parent
  | 6 => do
    nodeRotateRight node
    nodeRotateLeft parent
  | 5 => nodeRotateLeft parent
  | _ => return ()

/-- The rotations, if any, in a turn of the loop of `node_simple_balance`. -/
def simpleRotate (node parent : Ptr) : Code K V Unit := do
  let p ← deref parent
  let n ← deref node
  simpleSwitch (linkBits p n) node parent

/-- The loop of `node_simple_balance`. -/
def simpleLoop (node parent : Ptr) : Code K V Unit :=
  loop (fun (node, parent) => do
    if parent = 0 then return .inr () else
    simpleRotate node parent
    return .inl (parent, ← parentOf parent)) (node, parent)

/-- `node_simple_balance`. -/
def nodeSimpleBalance (node : Ptr) : Code K V Unit := do
  let parent ← parentOf node
  simpleLoop node parent

/-- Add `d` to the count of a node and all its ancestors, as the loops of `tree_node_new` and
    `tree_remove` do. -/
def countPath (d : Int) (parent : Ptr) : Code K V Unit :=
  loop (fun parent => do
    if parent = 0 then return .inr () else
    store parent fun n => { n with count := n.count + d }
    return .inl (← parentOf parent)) parent

/-- `tree_node_new`: take a slot, fill it in, and count it in at all its ancestors. -/
def treeNodeNew (env : Env K V) (parent : Ptr) (key : K) (data : V) : Code K V Ptr := do
  let node ← asks fun m => env.slot m.allocs m.node
  let priority ← asks fun m => env.junk m.allocs
  update fun m => { m with
    node := fun q => if q = node then some ⟨key, data, 1, priority, parent, 0, 0⟩ else m.node q
    allocs := m.allocs + 1 }
  countPath 1 parent
  return node

/-- Follow the children on side `s` to the last one. -/
def descend (s : Side) (node : Ptr) : Code K V Ptr :=
  loop (fun node => do
    let n ← deref node
    if n.child s = 0 then return .inr node else return .inl (n.child s)) node

/-- Go up as long as the node hangs on side `s`. -/
def ascend (s : Side) (node : Ptr) : Code K V Ptr :=
  loop (fun node => do
    if ← nodeIs s node then return .inl (← parentOf node) else return .inr node) node

/-- The body shared by `node_prev` (`s` left) and `node_next` (`s` right). -/
def nodeStep (s : Side) (current : Ptr) : Code K V Ptr := do
  let n ← deref current
  if n.child s ≠ 0 then descend s.opp (n.child s) else
  let node ← ascend s current
  if ← nodeIs s.opp node then parentOf node else return 0

/-- `node_prev`. -/
def nodePrev (current : Ptr) : Code K V Ptr := nodeStep .left current

/-- `node_next`. -/
def nodeNext (current : Ptr) : Code K V Ptr := nodeStep .right current

/-- The body of `node_verify`, with `self` for its recursive calls. -/
def nodeVerifyBody (self : Ptr → Code K V Unit) (node : Ptr) : Code K V Unit := do
  if node = 0 then return () else
  let n ← deref node
  when (n.left ≠ 0) do
    let l ← deref n.left
    assert (node = l.parent)
    self n.left
  when (n.right ≠ 0) do
    let r ← deref n.right
    assert (node = r.parent)
    self n.right

/-- `node_verify`. -/
def nodeVerify : Ptr → Code K V Unit := recur nodeVerifyBody

/-- The topmost ancestor of a node. -/
def topOf (node : Ptr) : Code K V Ptr :=
  loop (fun root => do
    let parent ← parentOf root
    if parent = 0 then return .inr root else return .inl parent) node

/-- `tree_verify`. -/
def treeVerify (node : Ptr) : Code K V Unit := do
  when (node ≠ 0) do
    let top ← topOf node
    let root ← asks Mem.root
    assert (root = top)
  let root ← asks Mem.root
  when (root ≠ 0) do
    let n ← deref root
    assert (n.count = (← nodeCount root))
    assert (n.parent = 0)
  nodeVerify root

/-- A place that holds a link: `&tree->root`, `&node->left` or `&node->right`. -/
inductive Link where
  | root
  | child (p : Ptr) (s : Side)

/-- `*plast = p`. -/
def Link.set (l : Link) (p : Ptr) : Code K V Unit :=
  match l with
  | .root => update fun m => { m with root := p }
  | .child q s => store q fun n => n.setChild s p

/-- The balancing step of `tree_put`. -/
def balance (env : Env K V) (t : TreeT K) (node : Ptr) : Code K V Unit :=
  match t.mode with
  | .splay => nodeSplay node
  | .treap => do nodePrioritize (env.priority (← asks Mem.allocs) node) node
  | .count => nodeCountBalance node
  | .default => nodeSimpleBalance node

/-- `while (tree->root->parent) tree->root = tree->root->parent`. -/
def fixRoot : Code K V Unit :=
  whileDo (do hasParent (← asks Mem.root)) (do
    let parent ← parentOf (← asks Mem.root)
    update fun m => { m with root := parent })

/-- The root fix-up of `tree_put` after the balancing step. -/
def repairRoot (node : Ptr) : Code K V Unit := do
  let parent ← parentOf node
  when (parent = 0) do update fun m => { m with root := node }
  fixRoot

/-- The result of walking down from the root: the node with an equal key, or the place to link one. -/
inductive Found where
  | node (p : Ptr)
  | missing (parent : Ptr) (plast : Link)

/-- A turn of the search loop of `tree_put` and `tree_remove`. -/
def searchStep (t : TreeT K) (key : K) : Ptr × Ptr × Link → Code K V (Ptr × Ptr × Link ⊕ Found)
  | (node, parent, plast) => do
    if node = 0 then return .inr (.missing parent plast) else
    let n ← deref node
    let diff := t.comp key n.key
    if diff < 0 then return .inl (n.left, node, .child node .left)
    else if diff > 0 then return .inl (n.right, node, .child node .right)
    else return .inr (.node node)

/-- The search loop of `tree_put` and `tree_remove`. -/
def treeSearch (t : TreeT K) (key : K) : Code K V Found := do
  let root ← asks Mem.root
  loop (searchStep t key) (root, 0, .root)

/-- `tree_put`. -/
def treePut [Zero V] (env : Env K V) (t : TreeT K) (key : K) (data : V) : Code K V V := do
  treeVerify 0
  match ← treeSearch t key with
  | .node node =>
    let n ← deref node
    store node fun n => { n with key := key, data := data }
    treeVerify node
    return n.data
  | .missing parent plast =>
    let node ← treeNodeNew env parent key data
    plast.set node
    balance env t node
    repairRoot node
    treeVerify 0
    return 0

/-- A turn of the loop of `tree_get_node`. -/
def getStep (t : TreeT K) (key : K) (cond : MapEqTest) (node : Ptr) : Code K V (Ptr ⊕ Ptr) := do
  if node = 0 then return .inr 0 else
  let n ← deref node
  let diff := t.comp key n.key
  if diff < 0 then
    if n.left ≠ 0 then return .inl n.left else
    match cond with
    | .gt | .ge => return .inr node
    | .lt | .le => return .inr (← nodePrev node)
    | .eq => return .inr 0
  else if diff > 0 then
    if n.right ≠ 0 then return .inl n.right else
    match cond with
    | .gt | .ge => return .inr (← nodeNext node)
    | .lt | .le => return .inr node
    | .eq => return .inr 0
  else
    match cond with
    | .lt => return .inr (← nodePrev node)
    | .gt => return .inr (← nodeNext node)
    | _ =>
      when (t.mode = .splay) do
        nodeSplay node
        fixRoot
      return .inr node

/-- `tree_get_node`. -/
def treeGetNode (t : TreeT K) (key : K) (cond : MapEqTest) : Code K V Ptr := do
  let root ← asks Mem.root
  loop (getStep t key cond) root

/-- `tree_get`. -/
def treeGet [Zero V] (t : TreeT K) (key : K) (cond : MapEqTest) : Code K V V := do
  let node ← treeGetNode t key cond
  if node = 0 then return 0 else
  let n ← deref node
  return n.data

/-- `node->left || node->right`. -/
def hasChild (node : Ptr) : Code K V Bool := do
  let n ← deref node
  return decide (n.left ≠ 0 ∨ n.right ≠ 0)

/-- The rotation in a turn of the loop of `tree_remove`. -/
def bubbleRotate (node : Ptr) : Code K V Unit := do
  let n ← deref node
  if n.left ≠ 0 then nodeRotateRight node else nodeRotateLeft node

/-- The loop of `tree_remove` that bubbles a node down to a leaf. -/
def bubbleDown (node : Ptr) : Code K V Unit :=
  whileDo (hasChild node) (do
    bubbleRotate node
    let parent ← parentOf node
    let above ← parentOf parent
    when (above = 0) do update fun m => { m with root := parent })

/-- `slab_free` of a node: the slot holds no node any more. -/
def slabFree (node : Ptr) : Code K V Unit :=
  update fun m => { m with node := fun q => if q = node then none else m.node q }

/-- Clear the links from a parent to a node. -/
def clearLinks (node parent : Ptr) : Code K V Unit :=
  when (parent ≠ 0) do
    let q ← deref parent
    when (node = q.left) do store parent fun q => { q with left := 0 }
    let q ← deref parent
    when (node = q.right) do store parent fun q => { q with right := 0 }

/-- The part of `tree_remove` that takes a leaf out: unlink it, count it out at all its ancestors, and
    free it. -/
def unlinkLeaf (node : Ptr) : Code K V Unit := do
  let n ← deref node
  assert (n.count = 1)
  clearLinks node n.parent
  when (n.parent = 0) do update fun m => { m with root := 0 }
  countPath (-1) n.parent
  slabFree node

/-- `tree_remove`. -/
def treeRemove [Zero V] (t : TreeT K) (key : K) : Code K V V := do
  treeVerify 0
  match ← treeSearch t key with
  | .missing _ _ => return 0
  | .node node =>
    let n ← deref node
    bubbleDown node
    unlinkLeaf node
    treeVerify 0
    return n.data

/-- The loop of `node_ordinal`. -/
def ordinalLoop (node : Ptr) (i : Int) : Code K V Ptr :=
  loop (fun (node, i) => do
    if node = 0 then return .inr 0 else
    let n ← deref node
    let countLeft ← nodeCount n.left
    if i < countLeft then return .inl (n.left, i)
    else if i = countLeft then return .inr node
    else return .inl (n.right, i - (countLeft + 1))) (node, i)

/-- `node_ordinal`. -/
def nodeOrdinal (root : Ptr) (i : Int) : Code K V Ptr := do
  let n ← deref root
  check (¬i ≥ n.count) .outOfBounds
  ordinalLoop root i

/-- The loop of `node_optimize`: rotate a node up until `parent` is its parent. -/
def raiseBelow (node parent : Ptr) : Code K V Unit :=
  whileDo (do return decide ((← parentOf node) ≠ parent)) (do
    if ← nodeIsLeft node then nodeRotateRight (← parentOf node)
    else nodeRotateLeft (← parentOf node))

/-- `(parent) ? parent->priority + 10 : 10`. -/
def priorityBelow (parent : Ptr) : Code K V Int := do
  if parent = 0 then return 10 else
  let q ← deref parent
  return q.priority + 10

/-- The first half of `node_optimize`: the middle node of a subtree gets its priority and goes to the top
    of the subtree. -/
def raiseMiddle (root : Ptr) : Code K V Ptr := do
  let n ← deref root
  let parent := n.parent
  let node ← nodeOrdinal root (n.count / 2)
  let priority ← priorityBelow parent
  store node fun n => { n with priority := priority }
  raiseBelow node parent
  return node

/-- The body of `node_optimize`, with `self` for its recursive calls. -/
def nodeOptimizeBody (self : Ptr → Code K V Ptr) (root : Ptr) : Code K V Ptr := do
  if root = 0 then return 0 else
  let node ← raiseMiddle root
  let n ← deref node
  let left ← self n.left
  store node fun n => { n with left := left }
  let n ← deref node
  let right ← self n.right
  store node fun n => { n with right := right }
  return node

/-- `node_optimize`. -/
def nodeOptimize : Ptr → Code K V Ptr := recur nodeOptimizeBody

/-- `tree_optimize`. -/
def treeOptimize : Code K V Unit := do
  let root ← nodeOptimize (← asks Mem.root)
  update fun m => { m with root := root }

/-- The state that `tree_new` leaves: no nodes. -/
def treeNew : Mem K V := ⟨fun _ => none, 0, 0⟩

end Twcos.Tree
