import Mathlib.Data.Fintype.Card
import Mathlib.Data.Set.Finite.Lattice
import Mathlib.Logic.Relation
import Twcos.Prog.Basic

/-!
# When a recursion ends

`Settles I n p P` says that in every state with the property `I`, the program `p` returns with the budget `n` (and then
with every larger one) exactly if `P` holds, and that it keeps `I`. The rules follow the control flow. `settles_recur` is the rule for a recursive function:
where a call with the argument `a` makes the calls `R a`, it returns with the budget `n` exactly if the calls from `a` are
nested less than `n` deep, `Within R n a`. Over a finite type of arguments that comes down to the relation alone
(`within_iff`): no argument that the calls come to leads back to itself.
-/

namespace Twcos.Prog

variable {ε σ α β γ : Type} {I : σ → Prop} {n : Nat}

structure Settles (I : σ → Prop) (n : Nat) (p : Prog ε σ α) (P : Prop) : Prop where
  returns : P → ∀ s, I s → ∃ a s', (∀ m, n ≤ m → p m s = .ok (a, s')) ∧ I s'
  holds : ∀ s a s', I s → p n s = .ok (a, s') → P

/-- Code that always returns. -/
lemma Settles.of_ok {p : Prog ε σ α} (h : ∀ s, I s → ∃ a s', (∀ m, p m s = .ok (a, s')) ∧ I s') :
    Settles I n p True where
  returns _ s hs := by
    obtain ⟨a, s', run, hs'⟩ := h s hs
    exact ⟨a, s', fun m _ => run m, hs'⟩
  holds _ _ _ _ _ := trivial

/-- A value settles. -/
lemma Settles.pure (a : α) : Settles I n (Pure.pure a : Prog ε σ α) True :=
  .of_ok fun s hs => ⟨a, s, fun _ => rfl, hs⟩

/-- A change that keeps the invariant settles. -/
lemma Settles.update {f : σ → σ} (h : ∀ s, I s → I (f s)) : Settles I n (update f : Prog ε σ Unit) True :=
  .of_ok fun s hs => ⟨(), f s, fun _ => rfl, h s hs⟩

/-- A condition that is equivalent to another. -/
lemma Settles.congr {p : Prog ε σ α} {P Q : Prop} (h : Settles I n p P) (e : P ↔ Q) : Settles I n p Q where
  returns hq := h.returns (e.mpr hq)
  holds s a s' hs run := e.mp (h.holds s a s' hs run)

/-- Sequencing, where the rest does not depend on what the first part returns. -/
lemma Settles.bind {p : Prog ε σ α} {f : α → Prog ε σ β} {P Q : Prop} (hp : Settles I n p P)
    (hf : ∀ a, Settles I n (f a) Q) : Settles I n (p >>= f) (P ∧ Q) where
  returns h s hs := by
    obtain ⟨a, s1, first, hs1⟩ := hp.returns h.1 s hs
    obtain ⟨b, s2, rest, hs2⟩ := (hf a).returns h.2 s1 hs1
    refine ⟨b, s2, fun m le => ?_, hs2⟩
    show Prog.bind p f m s = _
    simp only [Prog.bind, first m le]
    exact rest m le
  holds s b s2 hs run := by
    obtain ⟨a, s1, first, rest⟩ := bind_result run
    have h := hp.holds s a s1 hs first
    obtain ⟨a', s1', first', hs1⟩ := hp.returns h s hs
    cases first.symm.trans (first' n (le_refl n))
    exact ⟨h, (hf a).holds s1 b s2 hs1 rest⟩

/-- A statement that always returns. -/
lemma Settles.andThen {p : Prog ε σ α} {f : α → Prog ε σ β} {Q : Prop} (hp : Settles I n p True)
    (hf : ∀ a, Settles I n (f a) Q) : Settles I n (p >>= f) Q :=
  (hp.bind hf).congr (iff_of_eq (true_and Q))

/-- A value that is the same in all states with the property. -/
lemma Settles.asks {g : σ → α} {a : α} {f : α → Prog ε σ β} {Q : Prop} (h : ∀ s, I s → g s = a)
    (hf : Settles I n (f a) Q) : Settles I n (asks g >>= f) Q where
  returns hq s hs := by
    obtain ⟨b, s', run, hs'⟩ := hf.returns hq s hs
    rw [← h s hs] at run
    exact ⟨b, s', fun m le => run m le, hs'⟩
  holds s b s' hs run := by
    change f (g s) n s = _ at run
    rw [h s hs] at run
    exact hf.holds s b s' hs run

/-- Code under a condition settles if the code does, or the condition is false. -/
lemma Settles.when {c : Prop} [Decidable c] {p : Prog ε σ Unit} {P : Prop} (hp : Settles I n p P) :
    Settles I n (when (decide c) p) (c → P) := by
  rw [Prog.when]
  by_cases h : c
  · rw [if_pos (decide_eq_true h)]
    exact hp.congr ⟨fun hp _ => hp, fun hp => hp h⟩
  · rw [if_neg fun e => h (of_decide_eq_true e)]
    exact (Settles.pure ()).congr (iff_of_true trivial fun hc => absurd hc h)

/-- A loop over a list settles if its turns do. -/
lemma Settles.each {p : α → Prog ε σ Unit} {P : α → Prop} {as : List α} (h : ∀ a ∈ as, Settles I n (p a) (P a)) :
    Settles I n (each p as) (∀ a ∈ as, P a) := by
  induction as with
  | nil => exact (Settles.pure ()).congr (iff_of_true trivial fun a ha => absurd ha List.not_mem_nil)
  | cons a as ih =>
    have rest := ih fun b mem => h b (List.mem_cons_of_mem a mem)
    exact ((h a List.mem_cons_self).bind fun _ => rest).congr List.forall_mem_cons.symm

/-! ### Recursion -/

/-- The calls that start with `a` are nested less than `n` deep. -/
def Within (R : α → α → Prop) : Nat → α → Prop
  | 0, _ => False
  | n + 1, a => ∀ b, R a b → Within R n b

variable {R : α → α → Prop}

/-- A recursive function whose body makes the calls `R a`. -/
lemma settles_recur {body : (α → Prog ε σ β) → α → Prog ε σ β} (hlocal : ∀ a, Local fun f => body f a)
    (h : ∀ (f : α → Prog ε σ β) (n : Nat) (P : α → Prop) (a : α), (∀ b, Settles I n (f b) (P b)) →
      Settles I n (body f a) (∀ b, R a b → P b)) (n : Nat) (a : α) :
    Settles I n (recur body a) (Within R n a) := by
  induction n generalizing a with
  | zero => exact ⟨fun h => h.elim, fun s b s' _ run => by cases run⟩
  | succ n ih =>
    have call (m : Nat) (s : σ) : recur body a (m + 1) s = body (recur body) a m s := hlocal a (recur body) m s
    have run := h (recur body) n (Within R n) a ih
    constructor
    · intro within s hs
      obtain ⟨b, s', result, hs'⟩ := run.returns within s hs
      refine ⟨b, s', fun m le => ?_, hs'⟩
      obtain ⟨k, rfl⟩ := Nat.exists_eq_succ_of_ne_zero (Nat.ne_of_gt (Nat.lt_of_lt_of_le (Nat.succ_pos n) le))
      exact (call k s).trans (result k (Nat.le_of_succ_le_succ le))
    · intro s b s' hs result
      exact run.holds s b s' hs ((call n s).symm.trans result)

/-- A larger depth is enough as well. -/
lemma Within.mono {m : Nat} {a : α} (h : Within R n a) (le : n ≤ m) : Within R m a := by
  induction n generalizing m a with
  | zero => exact h.elim
  | succ n ih =>
    obtain ⟨k, rfl⟩ := Nat.exists_eq_succ_of_ne_zero (Nat.ne_of_gt (Nat.lt_of_lt_of_le (Nat.succ_pos n) le))
    intro b leads
    exact ih (h b leads) (Nat.le_of_succ_le_succ le)

/-- Within some depth there is no endless path. -/
lemma Within.acc {a : α} (h : Within R n a) : Acc (flip R) a := by
  induction n generalizing a with
  | zero => exact h.elim
  | succ n ih => exact .intro a fun b leads => ih (h b leads)

/-- Over a finite type, where no path goes on without an end there is some depth. -/
lemma exists_within [Finite α] {a : α} (h : Acc (flip R) a) : ∃ n, Within R n a := by
  induction h with
  | intro a _ ih =>
    -- one bound for all the calls from `a`
    have bound (b : α) : ∃ n, R a b → Within R n b := by
      by_cases leads : R a b
      · obtain ⟨n, hn⟩ := ih b leads
        exact ⟨n, fun _ => hn⟩
      · exact ⟨0, fun e => absurd e leads⟩
    choose depth hdepth using bound
    obtain ⟨m, hm⟩ := (Set.finite_range depth).bddAbove
    exact ⟨m + 1, fun b leads => (hdepth b leads).mono (hm ⟨b, rfl⟩)⟩

/-- A depth that is enough for all elements of a list. -/
lemma exists_within_all {as : List α} (h : ∀ a ∈ as, ∃ n, Within R n a) : ∃ n, ∀ a ∈ as, Within R n a := by
  induction as with
  | nil => exact ⟨0, fun a mem => absurd mem List.not_mem_nil⟩
  | cons a as ih =>
    obtain ⟨n, hn⟩ := h a List.mem_cons_self
    obtain ⟨m, hm⟩ := ih fun b mem => h b (List.mem_cons_of_mem a mem)
    refine ⟨max n m, List.forall_mem_cons.mpr ⟨hn.mono (le_max_left n m), fun b mem => ?_⟩⟩
    exact (hm b mem).mono (le_max_right n m)

/-- `a` leads to an argument that leads back to itself. -/
def Loops (R : α → α → Prop) (a : α) : Prop :=
  ∃ b, Relation.ReflTransGen R a b ∧ Relation.TransGen R b b

/-- What has no endless path has no cycle. -/
lemma not_cycle {a : α} (h : Acc (flip R) a) : ¬Relation.TransGen R a a := by
  induction h with
  | intro a _ ih =>
    intro back
    obtain ⟨b, leads, rest⟩ := Relation.TransGen.head'_iff.mp back
    exact ih b leads (.tail' rest leads)

/-- A loop is an endless path. -/
lemma Loops.not_acc {a : α} (h : Loops R a) : ¬Acc (flip R) a := by
  obtain ⟨b, reach, back⟩ := h
  intro acc
  induction reach using Relation.ReflTransGen.head_induction_on with
  | refl => exact not_cycle acc back
  | head leads _ ih => exact ih (acc.inv leads)

/-- Over a finite type, an argument that leads into no cycle leads only finitely deep. -/
lemma acc_of_not_loops [Finite α] {a : α} (h : ¬Loops R a) : Acc (flip R) a := by
  -- the relation among what `a` leads to is irreflexive, so it is well-founded
  let S := fun c b => Relation.ReflTransGen R a b ∧ R b c
  have back {b c : α} (path : Relation.TransGen S c b) : Relation.ReflTransGen R a b ∧ Relation.TransGen R b c := by
    induction path with
    | single e => exact ⟨e.1, .single e.2⟩
    | tail _ e ih => exact ⟨e.1, .head e.2 ih.2⟩
  have irrefl : Std.Irrefl (Relation.TransGen S) := ⟨fun b path => h ⟨b, (back path).1, (back path).2⟩⟩
  have wf : WellFounded (Relation.TransGen S) := Finite.wellFounded_of_trans_of_irrefl _
  have acc (b : α) : Relation.ReflTransGen R a b → Acc (flip R) b := by
    induction b using wf.induction with
    | _ b ih =>
      intro reach
      exact .intro b fun c leads => ih c (.single ⟨reach, leads⟩) (reach.tail leads)
  exact acc a .refl

/-- Over a finite type there is a depth exactly if there is no loop. -/
lemma within_iff [Finite α] {a : α} : (∃ n, Within R n a) ↔ ¬Loops R a := by
  constructor
  · rintro ⟨n, h⟩ loops
    exact loops.not_acc h.acc
  · intro h
    exact exists_within (acc_of_not_loops h)

end Twcos.Prog
