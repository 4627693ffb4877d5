import Twcos.Prog.Sim
import Twcos.Tree.Map

/-!
# Counts do not matter

The counts of the nodes are kept up by the rotations, but walking, searching and splaying a tree never look at them to
decide anything. `Alike C m m'` says that two memories are the same but for the counts, which `C` relates; the functions
of the tree that do not decide by counts take memories that are alike to memories that are alike. With equal counts this
says that their results do not depend on the budget; with any counts it carries what is known of them over from trees
with correct counts to trees that are only linked correctly (`Links`).
-/

namespace Twcos.Tree
open Twcos.Prog Twcos.Bin

variable {K V : Type}

/-- A relation of counts that adding up keeps. -/
structure Additive (C : Int → Int → Prop) : Prop where
  zero : C 0 0
  add : ∀ a b c d, C a b → C c d → C (1 + a + c) (1 + b + d)

/-- Equal counts add up to equal counts. -/
lemma additive_eq : Additive Eq := ⟨rfl, fun _ _ _ _ e e' => by rw [e, e']⟩

/-- Any counts do to any. -/
lemma additive_any : Additive fun _ _ => True := ⟨trivial, fun _ _ _ _ _ _ => trivial⟩

/-- The same but for the count. -/
def AlikeNode (C : Int → Int → Prop) (n n' : Node K V) : Prop := ∃ k, n' = { n with count := k } ∧ C n.count k

structure Alike (C : Int → Int → Prop) (m m' : Mem K V) : Prop where
  node : ∀ p n, m.node p = some n → ∃ n', m'.node p = some n' ∧ AlikeNode C n n'
  empty : ∀ p, m.node p = none → m'.node p = none
  root : m'.root = m.root
  allocs : m'.allocs = m.allocs

variable {C : Int → Int → Prop}

/-- Memories with equal counts are equal. -/
lemma alike_eq {m m' : Mem K V} : Alike Eq m m' ↔ m = m' := by
  constructor
  · intro h
    have node : m.node = m'.node := by
      funext p
      cases hp : m.node p with
      | none => rw [h.empty p hp]
      | some n =>
        obtain ⟨n', hp', k, rfl, rfl⟩ := h.node p n hp
        rw [hp']
    obtain ⟨node', root, allocs⟩ := m
    cases node
    cases h.root
    cases h.allocs
    rfl
  · rintro rfl
    exact ⟨fun p n hp => ⟨n, hp, n.count, rfl, rfl⟩, fun p hp => hp, rfl, rfl⟩

/-- Changing a node in both memories. -/
lemma Alike.modify {m m' : Mem K V} (h : Alike C m m') {p : Ptr} {f f' : Node K V → Node K V}
    (hf : ∀ n n', AlikeNode C n n' → AlikeNode C (f n) (f' n')) : Alike C (m.modify p f) (m'.modify p f') := by
  refine ⟨fun q n hq => ?_, fun q hq => ?_, h.root, h.allocs⟩
  · simp only [Mem.modify] at hq ⊢
    split at hq
    · next e =>
      obtain ⟨n0, hp, rfl⟩ := Option.map_eq_some_iff.mp hq
      obtain ⟨n', hp', alike⟩ := h.node p n0 hp
      refine ⟨f' n', ?_, hf n0 n' alike⟩
      rw [if_pos e, hp']
      rfl
    · next e =>
      rw [if_neg e]
      exact h.node q n hq
  · simp only [Mem.modify] at hq ⊢
    split at hq
    · next e =>
      rw [if_pos e, h.empty p (Option.map_eq_none_iff.mp hq)]
      rfl
    · next e =>
      rw [if_neg e]
      exact h.empty q hq

/-- The code takes memories that are alike to memories that are alike, and returns the same. -/
def Blind (C : Int → Int → Prop) {α : Type} (p : Code K V α) : Prop := Sim (Alike C) Eq p p

/-- Reading a node. -/
lemma sim_deref (p : Ptr) : Sim (Alike C) (AlikeNode C) (deref p : Code K V (Node K V)) (deref p) :=
  .demand fun _ _ n h found => h.node p n found

/-- Writing a node. -/
lemma sim_store (p : Ptr) {f f' : Node K V → Node K V} (hf : ∀ n n', AlikeNode C n n' → AlikeNode C (f n) (f' n')) :
    Sim (Alike C) Eq (store p f) (store p f') :=
  .bind (sim_deref p) fun _ _ _ => .update fun _ _ h => h.modify hf

/-- Writing a parent link does not look at the counts. -/
lemma blind_setParent (p q : Ptr) : Blind C (store p fun n : Node K V => { n with parent := q }) := by
  refine sim_store p ?_
  rintro n _ ⟨k, rfl, hk⟩
  exact ⟨k, rfl, hk⟩

/-- Writing a child link does not look at the counts. -/
lemma blind_setChild (p : Ptr) (s : Side) (q : Ptr) : Blind C (store p fun n : Node K V => n.setChild s q) := by
  refine sim_store p ?_
  rintro n _ ⟨k, rfl, hk⟩
  cases s with
  | left => exact ⟨k, rfl, hk⟩
  | right => exact ⟨k, rfl, hk⟩

/-- Reading the parent does not look at the counts. -/
lemma blind_parentOf (p : Ptr) : Blind C (parentOf p : Code K V Ptr) := by
  refine .bind (sim_deref p) ?_
  rintro n _ ⟨k, rfl, hk⟩
  exact .pure rfl

/-- Asking for a parent does not look at the counts. -/
lemma blind_hasParent (p : Ptr) : Blind C (hasParent p : Code K V Bool) :=
  .andThen (blind_parentOf p) fun _ => .pure rfl

/-- Asking on which side a node is does not look at the counts. -/
lemma blind_nodeIs (s : Side) (p : Ptr) : Blind C (nodeIs s p : Code K V Bool) := by
  refine .bind (sim_deref p) ?_
  rintro n _ ⟨k, rfl, hk⟩
  refine .ite (.pure rfl) (.bind (sim_deref _) ?_)
  rintro q _ ⟨k', rfl, hk'⟩
  cases s with
  | left => exact .pure rfl
  | right => exact .pure rfl

/-- The counts of a node. -/
lemma sim_nodeCount (additive : Additive C) (p : Ptr) : Sim (Alike C) C (nodeCount p : Code K V Int) (nodeCount p) := by
  refine .ite (.pure additive.zero) (.bind (sim_deref p) ?_)
  rintro n _ ⟨k, rfl, hk⟩
  exact .pure hk

/-- The check of the links of a node does not look at the counts. -/
lemma blind_assertLinked (p : Ptr) : Blind C (assertLinked p : Code K V Unit) := by
  refine .bind (sim_deref p) ?_
  rintro n _ ⟨k, rfl, hk⟩
  refine .when (.bind (sim_deref _) ?_)
  rintro q _ ⟨k', rfl, hk'⟩
  exact .check _ _

/-- Setting a count to the sum of two others. -/
lemma sim_setCount (additive : Additive C) (p : Ptr) {a b c d : Int} (h : C a b) (h' : C c d) :
    Sim (Alike C) Eq (store p fun n : Node K V => { n with count := 1 + a + c })
      (store p fun n => { n with count := 1 + b + d }) := by
  refine sim_store p ?_
  rintro n _ ⟨k, rfl, hk⟩
  exact ⟨_, rfl, additive.add a b c d h h'⟩

section
variable (additive : Additive C)
include additive

/-- A rotation does not look at the counts. -/
lemma blind_nodeRotate (s : Side) (x : Ptr) : Blind C (nodeRotate s x : Code K V Unit) := by
  refine .bind (sim_deref x) ?_
  rintro nx _ ⟨kx, rfl, hx⟩
  have child (s : Side) (k : Int) (n : Node K V) : Node.child { n with count := k } s = n.child s := by cases s <;> rfl
  simp only [child]
  refine .bind (sim_deref _) ?_
  rintro ny _ ⟨ky, rfl, hy⟩
  simp only [child]
  refine .andThen (.check _ _) fun _ => .andThen (.check _ _) fun _ => .andThen (.when ?_) fun _ => ?_
  · refine .bind (sim_deref _) ?_
    rintro nc _ ⟨kc, rfl, hc⟩
    exact .check _ _
  refine .andThen (blind_assertLinked x) fun _ => .andThen (blind_setParent _ _) fun _ => ?_
  refine .andThen (blind_setParent _ _) fun _ => .andThen (blind_setChild _ _ _) fun _ => ?_
  refine .andThen (blind_setChild _ _ _) fun _ => .andThen (.when (blind_setParent _ _)) fun _ => ?_
  refine .andThen (blind_parentOf _) fun q => .andThen (.when ?_) fun _ => ?_
  · refine .bind (sim_deref q) ?_
    rintro nq _ ⟨kq, rfl, hq⟩
    exact .ite (blind_setChild q .left _) (blind_setChild q .right _)
  refine .bind (sim_nodeCount additive _) fun ca ca' ha => .bind (sim_nodeCount additive _) fun cc cc' hc => ?_
  refine .andThen (sim_setCount additive _ ha hc) fun _ => ?_
  refine .bind (sim_nodeCount additive _) fun cx cx' hx => .bind (sim_nodeCount additive _) fun ce ce' he => ?_
  exact .andThen (sim_setCount additive _ hx he) fun _ => blind_assertLinked _

/-- Rotate the parent of a node. -/
lemma blind_rotateParent (s : Side) (p : Ptr) : Blind C (do nodeRotate s (← parentOf p) : Code K V Unit) :=
  .andThen (blind_parentOf p) fun _ => blind_nodeRotate additive s _

/-- Rotate the grandparent of a node, then its parent. -/
lemma blind_rotateGrand (s : Side) (p : Ptr) : Blind C (do
    nodeRotate s (← parentOf (← parentOf p))
    nodeRotate s (← parentOf p) : Code K V Unit) :=
  .andThen (blind_parentOf p) fun _ => .andThen (blind_parentOf _) fun _ =>
    .andThen (blind_nodeRotate additive s _) fun _ => blind_rotateParent additive s p

/-- Rotate the parent of a node, then its next parent the other way. -/
lemma blind_rotateTwice (s s' : Side) (p : Ptr) : Blind C (do
    nodeRotate s (← parentOf p)
    nodeRotate s' (← parentOf p) : Code K V Unit) :=
  .andThen (blind_parentOf p) fun _ => .andThen (blind_nodeRotate additive s _) fun _ => blind_rotateParent additive s' p

/-- A step of splaying does not look at the counts. -/
lemma blind_nodeSplayStep (p : Ptr) : Blind C (nodeSplayStep p : Code K V Unit) := by
  refine .andThen (blind_nodeIs .left p) fun _ => .ite ?_ (.andThen (blind_nodeIs .right p) fun _ => .ite ?_ (.pure rfl))
  · refine .andThen (blind_parentOf p) fun q => .andThen (blind_nodeIs .left q) fun _ => .ite ?_ ?_
    · exact blind_rotateGrand additive .right p
    · refine .andThen (blind_parentOf p) fun q => .andThen (blind_nodeIs .right q) fun _ => .ite ?_ ?_
      · exact blind_rotateTwice additive .right .left p
      · exact blind_rotateParent additive .right p
  · refine .andThen (blind_parentOf p) fun q => .andThen (blind_nodeIs .right q) fun _ => .ite ?_ ?_
    · exact blind_rotateGrand additive .left p
    · refine .andThen (blind_parentOf p) fun q => .andThen (blind_nodeIs .right q) fun _ => .ite ?_ ?_
      · exact blind_rotateTwice additive .left .right p
      · exact blind_rotateParent additive .left p

/-- Splaying does not look at the counts. -/
lemma blind_nodeSplay (p : Ptr) : Blind C (nodeSplay p : Code K V Unit) :=
  .whileDo (blind_hasParent p) (blind_nodeSplayStep additive p)

omit additive in
/-- Finding the root again does not look at the counts. -/
lemma blind_fixRoot : Blind C (fixRoot : Code K V Unit) := by
  have root : Blind C (asks Mem.root : Code K V Ptr) := .asks fun _ _ h => h.root.symm
  refine .whileDo (.andThen root fun _ => blind_hasParent _) (.andThen root fun _ => .andThen (blind_parentOf _) fun q => ?_)
  exact .update fun _ _ h => ⟨h.node, h.empty, rfl, h.allocs⟩

omit additive in
/-- Going down one side does not look at the counts. -/
lemma blind_descend (s : Side) (p : Ptr) : Blind C (descend s p : Code K V Ptr) := by
  refine .loop (A := Eq) (fun p _ e => ?_) rfl
  subst e
  refine .bind (sim_deref p) ?_
  rintro n _ ⟨k, rfl, hk⟩
  cases s with
  | left => exact .ite (.pure (.inr rfl)) (.pure (.inl rfl))
  | right => exact .ite (.pure (.inr rfl)) (.pure (.inl rfl))

omit additive in
/-- Going up does not look at the counts. -/
lemma blind_ascend (s : Side) (p : Ptr) : Blind C (ascend s p : Code K V Ptr) := by
  refine .loop (A := Eq) (fun p _ e => ?_) rfl
  subst e
  refine .andThen (blind_nodeIs s p) fun t => .ite ?_ (.pure (.inr rfl))
  exact .andThen (blind_parentOf p) fun _ => .pure (.inl rfl)

omit additive in
/-- Going to the next node does not look at the counts. -/
lemma blind_nodeStep (s : Side) (p : Ptr) : Blind C (nodeStep s p : Code K V Ptr) := by
  refine .bind (sim_deref p) ?_
  rintro n _ ⟨k, rfl, hk⟩
  have child : Node.child { n with count := k } s = n.child s := by cases s <;> rfl
  rw [child]
  refine .ite (blind_descend _ _) (.andThen (blind_ascend s p) fun q => .andThen (blind_nodeIs _ q) fun t => ?_)
  exact .ite (blind_parentOf q) (.pure rfl)

/-- A turn of the search does not look at the counts. -/
lemma blind_getStep (t : TreeT K) (key : K) (cond : MapEqTest) (p : Ptr) :
    Sim (Alike C) (Branch Eq Eq) (getStep t key cond p : Code K V (Ptr ⊕ Ptr)) (getStep t key cond p) := by
  have found : Sim (Alike C) (Branch Eq Eq) (do
      when (t.mode = .splay) do
        nodeSplay p
        fixRoot
      return .inr p : Code K V (Ptr ⊕ Ptr)) _ :=
    .andThen (.when (.andThen (blind_nodeSplay additive p) fun _ => blind_fixRoot)) fun _ => .pure (.inr rfl)
  have next (s : Side) : Sim (Alike C) (Branch Eq Eq) (do return .inr (← nodeStep s p) : Code K V (Ptr ⊕ Ptr)) _ :=
    .andThen (blind_nodeStep s p) fun _ => .pure (.inr rfl)
  have here (q : Ptr) : Sim (Alike C) (Branch Eq Eq) (pure (.inr q) : Code K V (Ptr ⊕ Ptr)) (pure (.inr q)) :=
    .pure (.inr rfl)
  refine .ite (here 0) (.bind (sim_deref p) ?_)
  rintro n _ ⟨k, rfl, hk⟩
  refine .ite (.ite (.pure (.inl rfl)) ?_) (.ite (.ite (.pure (.inl rfl)) ?_) ?_)
  · cases cond with
    | gt => exact here p
    | ge => exact here p
    | lt => exact next .left
    | le => exact next .left
    | eq => exact here 0
  · cases cond with
    | gt => exact next .right
    | ge => exact next .right
    | lt => exact here p
    | le => exact here p
    | eq => exact here 0
  · cases cond with
    | lt => exact next .left
    | gt => exact next .right
    | le => exact found
    | eq => exact found
    | ge => exact found

/-- The search does not look at the counts. -/
lemma blind_treeGetNode (t : TreeT K) (key : K) (cond : MapEqTest) : Blind C (treeGetNode t key cond : Code K V Ptr) := by
  have root : Blind C (asks Mem.root : Code K V Ptr) := .asks fun _ _ h => h.root.symm
  refine .andThen root fun p => .loop (A := Eq) (fun q _ e => ?_) rfl
  subst e
  exact blind_getStep additive t key cond q

end

/-! ### Trees with any counts -/

/-- The memory is that of the tree but for the counts. -/
def Links (m : Mem K V) (u : Shape K V) : Prop := ∃ m', Stores m' u ∧ Alike (fun _ _ => True) m' m

/-- What is known of a memory with correct counts, of code that does not decide by counts. -/
lemma blind_returns {α : Type} {p : Code K V α} (h : ∀ C, Additive C → Blind C p) {m m1 m' : Mem K V} {a : α}
    (run : Returns p m a m1) (alike : Alike (fun _ _ => True) m m') :
    ∃ m1', Returns p m' a m1' ∧ Alike (fun _ _ => True) m1 m1' := by
  refine Sim.returns (h _ additive_any) ?_ run alike
  intro n k s t a s' le e result
  obtain ⟨b, t', run, value, alike⟩ := h Eq additive_eq n k s t a s' le (alike_eq.mpr e) result
  exact ⟨b, t', run, value, alike_eq.mp alike⟩

/-- `tree_get_node` on a tree that is linked correctly. -/
lemma treeGetNode_links {t : TreeT K} (hc : SignPreorder t.comp) (key : K) (cond : MapEqTest) {m : Mem K V}
    {u : Shape K V} (h : Links m u) (ho : Assoc.Ordered t.comp (bindings u)) :
    ∃ m' u', Returns (treeGetNode t key cond) m (addrOf (pick (signAt t key) u.cells cond)) m' ∧
      Links m' u' ∧ u'.cells = u.cells := by
  obtain ⟨m0, stores, alike⟩ := h
  obtain ⟨m1, u', run, stores', same⟩ := treeGetNode_returns hc key cond stores ho
  obtain ⟨m', run', alike'⟩ := blind_returns (fun C hC => blind_treeGetNode hC t key cond) run alike
  exact ⟨m', u', run', ⟨m1, stores', alike'⟩, same⟩

end Twcos.Tree
