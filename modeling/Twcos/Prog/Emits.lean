import Twcos.Prog.Turns

/-!
# Calls of a callback

Code that works on a state and calls a callback as it goes: the arguments of the calls are recorded next to the state.
`lift` is code that makes no call and `emit` a call. `Emits p s a cs s'` says that `p` started in `s` terminates, returns
`a`, leaves `s'` and has made the calls `cs`, in that order.
-/

namespace Twcos.Prog

variable {ε σ γ α β : Type}

/-- Code that makes no call. -/
def lift (p : Prog ε σ α) : Prog ε (σ × List γ) α := fun n s =>
  match p n s.1 with
  | .ok (a, s') => .ok (a, s', s.2)
  | .error e => .error e

/-- A call with the arguments `c`. -/
def emit (c : γ) : Prog ε (σ × List γ) Unit := update fun s => (s.1, s.2 ++ [c])

def Emits (p : Prog ε (σ × List γ) α) (s : σ) (a : α) (cs : List γ) (s' : σ) : Prop :=
  ∀ made, Returns p (s, made) a (s', made ++ cs)

variable {s s1 s2 : σ} {a : α} {b : β} {cs cs' : List γ}

/-- A value emits nothing. -/
lemma Emits.pure (a : α) (s : σ) : Emits (Pure.pure a : Prog ε (σ × List γ) α) s a [] s := by
  intro made
  rw [List.append_nil]
  exact .pure _ _

/-- Code that knows nothing of the output emits nothing. -/
lemma Emits.lift {p : Prog ε σ α} (h : Returns p s a s1) : Emits (lift p : Prog ε (σ × List γ) α) s a [] s1 := by
  obtain ⟨N, h⟩ := h
  refine fun made => ⟨N, fun n hn => ?_⟩
  rw [List.append_nil]
  simp only [Prog.lift, h n hn]

/-- Emitting one output. -/
lemma Emits.emit (c : γ) (s : σ) : Emits (emit c : Prog ε (σ × List γ) Unit) s () [c] s :=
  fun made => .update _ (s, made)

/-- The output of a sequence. -/
lemma Emits.bind {p : Prog ε (σ × List γ) α} {f : α → Prog ε (σ × List γ) β} (hp : Emits p s a cs s1)
    (hf : Emits (f a) s1 b cs' s2) : Emits (p >>= f) s b (cs ++ cs') s2 := by
  intro made
  rw [← List.append_assoc]
  exact .bind (hp made) (hf (made ++ cs))

/-- A first part that makes no call. -/
lemma Emits.andThen {p : Prog ε (σ × List γ) α} {f : α → Prog ε (σ × List γ) β} (hp : Emits p s a [] s1)
    (hf : Emits (f a) s1 b cs s2) : Emits (p >>= f) s b cs s2 :=
  Emits.bind hp hf

/-- The output of a loop, a turn at a time. -/
lemma Emits.turn {body : α → Prog ε (σ × List γ) (α ⊕ β)} {a' : α} (hb : Emits (body a) s (.inl a') cs s1)
    (hl : Emits (loop body a') s1 b cs' s2) : Emits (loop body a) s b (cs ++ cs') s2 := by
  intro made
  rw [← List.append_assoc]
  exact .turn (hb made) (hl (made ++ cs))

/-- The output of the last turn of a loop. -/
lemma Emits.exit {body : α → Prog ε (σ × List γ) (α ⊕ β)} (hb : Emits (body a) s (.inr b) cs s1) :
    Emits (loop body a) s b cs s1 :=
  fun made => .exit (hb made)

/-- The output of a call. -/
lemma Emits.call {body : (α → Prog ε (σ × List γ) β) → α → Prog ε (σ × List γ) β}
    (hlocal : Local fun f => body f a) (hb : Emits (body (recur body) a) s b cs s1) :
    Emits (recur body a) s b cs s1 :=
  fun made => .call hlocal (hb made)

/-- Statements that leave the state as it is. -/
lemma Emits.each {p : α → Prog ε (σ × List γ) Unit} {f : α → List γ} {as : List α}
    (h : ∀ a ∈ as, Emits (p a) s () (f a) s) : Emits (each p as) s () (as.flatMap f) s := by
  induction as with
  | nil => exact .pure () s
  | cons a as ih => exact .bind (h a List.mem_cons_self) (ih fun b mem => h b (List.mem_cons_of_mem a mem))

/-- A program that does not end, whatever was emitted before. -/
lemma Endless.lift {p : Prog ε σ α} (h : Endless p s) (made : List γ) : Endless (lift p) (s, made) := by
  obtain ⟨N, h⟩ := h
  refine ⟨N, fun n hn => ?_⟩
  simp only [Prog.lift, h n hn]

/-- Code that ends with a fault makes no call either. -/
lemma Raises.lift {p : Prog ε σ α} {e : ε} (h : Raises p s e) (made : List γ) : Raises (lift p) (s, made) e := by
  obtain ⟨N, h⟩ := h
  refine ⟨N, fun n hn => ?_⟩
  simp only [Prog.lift, h n hn]

/-- The calls are determined by the code. -/
lemma Emits.unique {p : Prog ε (σ × List γ) α} {a' : α} (h : Emits p s a cs s1) (h' : Emits p s a' cs' s2) : cs = cs' := by
  have same := ((h []).unique (h' [])).2
  exact congrArg Prod.snd same

end Twcos.Prog
