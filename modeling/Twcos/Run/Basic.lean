import Mathlib.Algebra.Ring.Nat
import Mathlib.Algebra.Ring.Int.Defs
import Mathlib.Tactic.Common

/-!
# Runs of a state machine

A state machine is given by its step function: `step s e` is the state after the event `e` in state `s`,
or `none` if `e` cannot happen there. A run is a list of events. `Always` says that a property holds in
every state the run goes through, `Meets` that every step it takes meets a condition on the state before
it; `always_of_meets` and `always_iff_meets` are the two ways in which such facts about whole runs follow
from facts about single steps.
-/

namespace Twcos.Run

variable {σ ε : Type} (step : σ → ε → Option σ)

/-- The state after a run. -/
def exec : σ → List ε → Option σ
  | s, [] => some s
  | s, e :: es => (step s e).bind fun s' => exec s' es

/-- The property holds in every state of the run. -/
def Always (P : σ → Prop) : σ → List ε → Prop
  | s, [] => P s
  | s, e :: es => P s ∧ ∀ s', step s e = some s' → Always P s' es

/-- Every step of the run meets the condition. -/
def Meets (C : σ → ε → Prop) : σ → List ε → Prop
  | _, [] => True
  | s, e :: es => ∀ s', step s e = some s' → C s e ∧ Meets C s' es

variable {step} {P : σ → Prop} {C : σ → ε → Prop}

/-- A property that always holds holds at the start. -/
lemma Always.head {s : σ} {es : List ε} (h : Always step P s es) : P s := by
  cases es with
  | nil => exact h
  | cons e es => exact h.1

/-- The property holds in the last state. -/
lemma Always.last {s s' : σ} {es : List ε} (h : Always step P s es) (hr : exec step s es = some s') :
    P s' := by
  induction es generalizing s with
  | nil =>
    cases hr
    exact h
  | cons e es ih =>
    obtain ⟨s1, h1, hr⟩ := Option.bind_eq_some_iff.mp hr
    exact ih (h.2 s1 h1) hr

/-- The property holds in the state after the first part of a run. -/
lemma Always.left {s s' : σ} {es es' : List ε} (h : Always step P s (es ++ es')) (hr : exec step s es = some s') : P s' := by
  induction es generalizing s with
  | nil =>
    cases hr
    exact h.head
  | cons e es ih =>
    obtain ⟨s1, h1, hr⟩ := Option.bind_eq_some_iff.mp hr
    exact ih (h.2 s1 h1) hr

/-- A property that follows from one that always holds. -/
lemma Always.imp {Q : σ → Prop} (h : ∀ s, P s → Q s) {s : σ} {es : List ε} (ha : Always step P s es) :
    Always step Q s es := by
  induction es generalizing s with
  | nil => exact h s ha
  | cons e es ih => exact ⟨h s ha.1, fun s' hs => ih (ha.2 s' hs)⟩

/-- The two parts of a run. -/
lemma Meets.append {s s' : σ} {es es' : List ε} (h : Meets step C s (es ++ es')) (hr : exec step s es = some s') :
    Meets step C s es ∧ Meets step C s' es' := by
  induction es generalizing s with
  | nil =>
    cases hr
    exact ⟨trivial, h⟩
  | cons e es ih =>
    obtain ⟨s1, h1, hr⟩ := Option.bind_eq_some_iff.mp hr
    obtain ⟨hc, rest⟩ := h s1 h1
    obtain ⟨first, second⟩ := ih rest hr
    refine ⟨fun s2 h2 => ?_, second⟩
    cases h1.symm.trans h2
    exact ⟨hc, first⟩

/-- Whether a run meets a condition can be computed. -/
instance Meets.decidable [∀ s e, Decidable (C s e)] : ∀ (s : σ) (es : List ε), Decidable (Meets step C s es)
  | _, [] => isTrue trivial
  | s, e :: es =>
    match h : step s e with
    | none => isTrue fun _ h' => nomatch h.symm.trans h'
    | some s' =>
      have : Decidable (Meets step C s' es) := Meets.decidable s' es
      decidable_of_iff (C s e ∧ Meets step C s' es)
        ⟨fun hc _ h' => Option.some.inj (h.symm.trans h') ▸ hc, fun hm => hm s' h⟩

/-- A property that every step keeps holds throughout every run. -/
lemma always_of_step (keep : ∀ s e s', P s → step s e = some s' → P s') {s : σ} (h : P s)
    (es : List ε) : Always step P s es := by
  induction es generalizing s with
  | nil => exact h
  | cons e es ih => exact ⟨h, fun s' hs => ih (keep s e s' h hs)⟩

/-- A property that steps meeting the condition keep holds throughout runs of such steps. -/
lemma always_of_meets (keep : ∀ s e s', P s → step s e = some s' → C s e → P s') {s : σ} {es : List ε}
    (h : P s) (hm : Meets step C s es) : Always step P s es := by
  induction es generalizing s with
  | nil => exact h
  | cons e es ih =>
    refine ⟨h, fun s' hs => ?_⟩
    obtain ⟨hc, hm⟩ := hm s' hs
    exact ih (keep s e s' h hs hc) hm

/-- A property that exactly the steps meeting the condition keep holds throughout exactly the runs of such
    steps. An invariant that these steps keep helps. -/
lemma always_iff_meets {I : σ → Prop}
    (keep : ∀ s e s', I s → P s → step s e = some s' → (P s' ↔ C s e))
    (inv : ∀ s e s', I s → P s → step s e = some s' → C s e → I s') {s : σ} {es : List ε}
    (hi : I s) (hp : P s) : Always step P s es ↔ Meets step C s es := by
  constructor
  · intro ha
    induction es generalizing s with
    | nil => trivial
    | cons e es ih =>
      intro s' hs
      have ha' := ha.2 s' hs
      have hc := (keep s e s' hi hp hs).mp ha'.head
      exact ⟨hc, ih (inv s e s' hi hp hs hc) ha'.head ha'⟩
  · intro hm
    have both : Always step (fun s => I s ∧ P s) s es := by
      apply always_of_meets _ ⟨hi, hp⟩ hm
      intro s e s' h hs hc
      exact ⟨inv s e s' h.1 h.2 hs hc, (keep s e s' h.1 h.2 hs).mpr hc⟩
    exact both.imp fun s h => h.2

/-- The same for runs in which all steps meet another condition. -/
lemma always_iff_meets_of {L : σ → ε → Prop} (keep : ∀ s e s', P s → L s e → step s e = some s' → (P s' ↔ C s e)) {s : σ}
    {es : List ε} (hp : P s) (legal : Meets step L s es) : Always step P s es ↔ Meets step C s es := by
  induction es generalizing s with
  | nil => exact iff_of_true hp trivial
  | cons e es ih =>
    constructor
    · intro ha s' hs
      obtain ⟨hl, rest⟩ := legal s' hs
      have after := ha.2 s' hs
      exact ⟨(keep s e s' hp hl hs).mp after.head, (ih after.head rest).mp after⟩
    · intro hm
      refine ⟨hp, fun s' hs => ?_⟩
      obtain ⟨hl, rest⟩ := legal s' hs
      obtain ⟨hc, hm⟩ := hm s' hs
      have hp' := (keep s e s' hp hl hs).mpr hc
      exact (ih hp' rest).mpr hm

end Twcos.Run
