import Twcos.Prog.Basic

/-!
# Sequences of calls

An object with a state `σ` whose operations are programs, against a specification with a state `τ` that tells the
reply to each call and the state after it. `Simulates` says that every call of a sequence terminates with the reply
of the specification, `Meets` that every call meets a condition on the state before it, and `simulates_of_meets`
leads from one call to a whole sequence. `Stays` says that every call terminates and that a property holds in every state
on the way. `Allowed` and `simulates_of_allowed` are the same for a condition on the state
of the specification.
-/

namespace Twcos.Prog

variable {ε σ τ γ ρ : Type} (call : γ → Prog ε σ ρ)

/-- Every call of the sequence meets the condition. -/
def Meets (C : σ → γ → Prop) : σ → List γ → Prop
  | _, [] => True
  | s, c :: cs => C s c ∧ ∀ r s', Returns (call c) s r s' → Meets C s' cs

/-- Every call of the sequence returns what the specification replies, and has the effect `Q`. -/
def Simulates (spec : τ → γ → ρ × τ) (Q : σ → ρ → σ → τ → Prop) : σ → τ → List γ → Prop
  | _, _, [] => True
  | s, t, c :: cs => ∃ s', Returns (call c) s (spec t c).1 s' ∧ Q s (spec t c).1 s' (spec t c).2 ∧
    Simulates spec Q s' (spec t c).2 cs

/-- Every call of the sequence terminates, and the property holds in every state on the way. -/
def Stays (P : σ → Prop) : σ → List γ → Prop
  | s, [] => P s
  | s, c :: cs => P s ∧ ∃ r s', Returns (call c) s r s' ∧ Stays P s' cs

variable {call} {C : σ → γ → Prop} {spec : τ → γ → ρ × τ} {Q : σ → ρ → σ → τ → Prop}

/-- The condition is met if it is met along the way that the calls take. -/
lemma Meets.cons {s s' : σ} {c : γ} {cs : List γ} {r : ρ} (h : C s c) (run : Returns (call c) s r s')
    (rest : Meets call C s' cs) : Meets call C s (c :: cs) := by
  refine ⟨h, fun r' s'' run' => ?_⟩
  rw [(run'.unique run).2]
  exact rest

/-- A relation between the states that calls meeting the condition keep. -/
lemma simulates_of_meets {R : σ → τ → Prop}
    (keep : ∀ s t c, R s t → C s c → ∃ s', Returns (call c) s (spec t c).1 s' ∧
      Q s (spec t c).1 s' (spec t c).2 ∧ R s' (spec t c).2)
    {s : σ} {t : τ} {cs : List γ} (h : R s t) (hk : Meets call C s cs) : Simulates call spec Q s t cs := by
  induction cs generalizing s t with
  | nil => trivial
  | cons c cs ih =>
    obtain ⟨s', run, effect, h'⟩ := keep s t c h hk.1
    exact ⟨s', run, effect, ih h' (hk.2 _ _ run)⟩

/-- What holds over a list of calls holds at the start. -/
lemma Stays.head {P : σ → Prop} {s : σ} {cs : List γ} (h : Stays call P s cs) : P s := by
  cases cs with
  | nil => exact h
  | cons c cs => exact h.1

/-- What holds over a list of calls holds from the next call on. -/
lemma Stays.next {P : σ → Prop} {s s' : σ} {c : γ} {cs : List γ} {r : ρ} (h : Stays call P s (c :: cs))
    (run : Returns (call c) s r s') : Stays call P s' cs := by
  obtain ⟨-, r', s'', run', rest⟩ := h
  rwa [(run.unique run').2]

/-- A property that exactly the calls meeting the condition keep holds throughout exactly the sequences of such calls. -/
lemma stays_iff_meets {P I : σ → Prop}
    (keep : ∀ s c, I s → ∃ r s', Returns (call c) s r s' ∧ I s' ∧ (P s → (P s' ↔ C s c)))
    {s : σ} {cs : List γ} (hi : I s) (hp : P s) : Stays call P s cs ↔ Meets call C s cs := by
  induction cs generalizing s with
  | nil => exact iff_of_true hp trivial
  | cons c cs ih =>
    obtain ⟨r, s', run, hi', step⟩ := keep s c hi
    constructor
    · intro stays
      have rest := stays.next run
      exact .cons ((step hp).mp rest.head) run ((ih hi' rest.head).mp rest)
    · intro meets
      have hp' := (step hp).mpr meets.1
      exact ⟨hp, r, s', run, (ih hi' hp').mpr (meets.2 r s' run)⟩

/-- Every call of the sequence meets a condition on the state of the specification. -/
def Allowed (spec : τ → γ → ρ × τ) (C : τ → γ → Prop) : τ → List γ → Prop
  | _, [] => True
  | t, c :: cs => C t c ∧ Allowed spec C (spec t c).2 cs

instance Allowed.decidable {C : τ → γ → Prop} [∀ t c, Decidable (C t c)] :
    ∀ (t : τ) (cs : List γ), Decidable (Allowed spec C t cs)
  | _, [] => isTrue trivial
  | t, c :: cs =>
    have : Decidable (Allowed spec C (spec t c).2 cs) := Allowed.decidable (spec t c).2 cs
    inferInstanceAs (Decidable (C t c ∧ Allowed spec C (spec t c).2 cs))

/-- A relation between the states that calls which are allowed keep. -/
lemma simulates_of_allowed {R : σ → τ → Prop} {C : τ → γ → Prop}
    (keep : ∀ s t c, R s t → C t c → ∃ s', Returns (call c) s (spec t c).1 s' ∧
      Q s (spec t c).1 s' (spec t c).2 ∧ R s' (spec t c).2)
    {s : σ} {t : τ} {cs : List γ} (h : R s t) (hk : Allowed spec C t cs) : Simulates call spec Q s t cs := by
  induction cs generalizing s t with
  | nil => trivial
  | cons c cs ih =>
    obtain ⟨s', run, effect, h'⟩ := keep s t c h hk.1
    exact ⟨s', run, effect, ih h' hk.2⟩

end Twcos.Prog
