import Twcos.Prog.Inside
import Twcos.Vector.Run
import Twcos.Vector.Walk

/-!
# Copying a vector

Model of `map_put_all` and `map_put_all_walk` (`libk/map.c`) for two vectors. The function puts into the vector that is
made, which the walk of the other one does not look at, so the puts come after the walk here.
-/

namespace Twcos.Vector
open Twcos.Prog

/-- `map_put_all`, with `from` as the vector `source`. -/
def mapPutAll (env : Env) (source : Mem) : Code Unit := do
  let (calls, _) ← inside id (collect vectorWalk) source
  each (fun call => do
    let _ ← vectorPut env call.1 call.2
    return ()) calls

variable {env : Env} {m m' source : Mem} {f g : BitVec 32 → Word} {cs : List (Nat × Word)}

/-- The walk of a vector goes through the entries that are not null. -/
lemma Rep.walk (h : Rep m f) : ∃ cs, Emits vectorWalk m () cs m ∧ cs.Pairwise (fun c c' => c.1 < c'.1) ∧
    (∀ c ∈ cs, c.1 < 2 ^ 30) ∧ ∀ (i : BitVec 32) w, (i.toNat, w) ∈ cs ↔ f i = w ∧ w ≠ 0 := by
  have tables : Tables m (levelOf m) := ⟨h.linked.null, h.level, h.linked.levelled h.root⟩
  have size : 64 ^ (levelOf m + 1) ≤ 64 ^ 5 := Nat.pow_le_pow_right (by decide) (Nat.succ_le_succ h.level)
  refine ⟨_, vectorWalk_emits tables, calls_ascending, fun c mem => ?_, fun i w => ?_⟩
  · obtain ⟨i, lt, e, -⟩ := mem_calls.mp mem
    omega
  · rw [mem_calls, h.data]
    constructor
    · rintro ⟨j, lt, e, value, nz⟩
      obtain rfl : j = i.toNat := by omega
      rw [if_pos lt]
      exact ⟨value, nz⟩
    · rintro ⟨value, nz⟩
      by_cases lt : i.toNat < 64 ^ (levelOf m + 1)
      · rw [if_pos lt] at value
        exact ⟨i.toNat, lt, by omega, value, nz⟩
      · rw [if_neg lt] at value
        exact absurd value.symm nz

/-- An entry for which a new vector does not grow far enough: its index is the size of a vector. -/
def AtSize (i : Nat) : Prop := ∃ k, i = 64 ^ (k + 1)

/-- Puts, one after the other. -/
lemma puts_returns (h : Rep m g) (small : ∀ c ∈ cs, c.1 < 2 ^ 30 ∧ ¬AtSize c.1) :
    ∃ m', Returns (each (fun call => do
      let _ ← vectorPut env call.1 call.2
      return ()) cs) m () m' ∧ Rep m' (cs.foldl (fun g c => Function.update g (BitVec.ofNat 32 c.1) c.2) g) := by
  induction cs generalizing m g with
  | nil => exact ⟨m, .pure _ _, h⟩
  | cons c cs ih =>
    obtain ⟨⟨lt, size⟩, small⟩ := List.forall_mem_cons.mp small
    have index : (BitVec.ofNat 32 c.1).toNat = c.1 := by
      rw [BitVec.toNat_ofNat]
      omega
    have fits : Fits m (.put (BitVec.ofNat 32 c.1) c.2) := by
      refine ⟨by rwa [index], fun k e => ?_⟩
      rw [index] at e
      cases k with
      | zero => exact Nat.zero_le _
      | succ k => exact absurd ⟨k, e⟩ size
    obtain ⟨m1, put, h1⟩ := put_returns env h fits
    rw [call, index] at put
    obtain ⟨m', rest, h'⟩ := ih h1 small
    exact ⟨m', .bind (.bind put (.pure _ _)) rest, h'⟩

/-- What a function is after it was updated at indices in ascending order. -/
lemma foldl_update (ascending : cs.Pairwise fun c c' => c.1 < c'.1) (small : ∀ c ∈ cs, c.1 < 2 ^ 30)
    (i : BitVec 32) : cs.foldl (fun g c => Function.update g (BitVec.ofNat 32 c.1) c.2) g i =
      ((cs.find? fun c => c.1 = i.toNat).map Prod.snd).getD (g i) := by
  induction cs generalizing g with
  | nil => rfl
  | cons c cs ih =>
    obtain ⟨above, ascending⟩ := List.pairwise_cons.mp ascending
    obtain ⟨lt, small⟩ := List.forall_mem_cons.mp small
    rw [List.foldl_cons, ih ascending small, List.find?_cons, Function.update_apply]
    have index : i = BitVec.ofNat 32 c.1 ↔ c.1 = i.toNat := by
      rw [BitVec.toNat_eq, BitVec.toNat_ofNat]
      omega
    by_cases e : c.1 = i.toNat
    · have none : cs.find? (fun c => c.1 = i.toNat) = none := by
        rw [List.find?_eq_none]
        intro c' mem
        have := above c' mem
        simp only [decide_eq_true_eq]
        omega
      rw [none, if_pos (index.mpr e), decide_eq_true e]
      rfl
    · rw [if_neg (index.not.mpr e), decide_eq_false e]

/-- `map_put_all` gives a new vector the data of another one, unless this has an entry at the size of a vector. -/
theorem mapPutAll_copies (env : Env) (source : Mem) (f : BitVec 32 → Word) (h : Rep source f)
    (sizes : ∀ i, f i ≠ 0 → ¬AtSize i.toNat) :
    ∃ m', Returns (mapPutAll env source) (vectorNew env) () m' ∧ Rep m' f := by
  obtain ⟨cs, walk, ascending, small, data⟩ := h.walk
  have fits : ∀ c ∈ cs, c.1 < 2 ^ 30 ∧ ¬AtSize c.1 := by
    intro c mem
    have index : (BitVec.ofNat 32 c.1).toNat = c.1 := by
      have := small c mem
      rw [BitVec.toNat_ofNat]
      omega
    have entry := (data (BitVec.ofNat 32 c.1) c.2).mp (by rwa [index])
    have size := sizes (BitVec.ofNat 32 c.1) (by rw [entry.1]; exact entry.2)
    rw [index] at size
    exact ⟨small c mem, size⟩
  obtain ⟨m', run, h'⟩ := puts_returns (rep_new env) fits
  refine ⟨m', .bind (walk.collect.inside _) run, ?_⟩
  have same : cs.foldl (fun g c => Function.update g (BitVec.ofNat 32 c.1) c.2) (fun _ => 0) = f := by
    funext i
    rw [foldl_update ascending small]
    cases found : cs.find? fun c => c.1 = i.toNat with
    | none =>
      by_contra ne
      have mem := (data i (f i)).mpr ⟨rfl, fun e => ne e.symm⟩
      have off := List.find?_eq_none.mp found _ mem
      exact off (decide_eq_true rfl)
    | some c =>
      have index := List.find?_some found
      have mem := List.mem_of_find?_eq_some found
      have entry := (data i c.2).mp (by rw [← of_decide_eq_true index]; exact mem)
      exact entry.1.symm
  rwa [same] at h'

end Twcos.Vector
