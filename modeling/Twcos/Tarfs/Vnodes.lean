import Twcos.Prog.Turns
import Twcos.Tarfs.Basic

/-!
# The vector of nodes

What `map_getip` finds and `map_putip` leaves. A node is in one of the tables, or, if it has the inode 64 and there was only
one table, in the word behind that (`TarfsT.Holds`).
-/

namespace Twcos.Tarfs
open Twcos.Prog

/-- The node is in the vector, or behind it. -/
def TarfsT.Holds (fs : TarfsT) (i : BitVec 32) (node : TarfsNode) : Prop :=
  fs.vnodes i = some node ∨ i = 64 ∧ fs.behind = some node

/-- The lower half of an inode, as the map of directory entries gives it. -/
lemma setWidth_signExtend (x : BitVec 32) : (x.signExtend 64).setWidth 32 = x := by
  ext i hi
  simp only [BitVec.getElem_setWidth, BitVec.getLsbD_signExtend]
  simp [hi, show i < 64 by omega]

/-- What `map_getip` has for an inode. -/
def vnodeAt (fs : TarfsT) (i : BitVec 32) : Except (Stop Fault) (Option TarfsNode) :=
  match vectorEntryGet fs.level i with
  | .within => .ok (fs.vnodes i)
  | .behind => if i = 64 then .ok fs.behind else .error (.fault (.bounds i))
  | .null => .ok none

/-- There is no loop in `map_getip`. -/
lemma vnodesGet_run (i : BitVec 32) (n : Nat) (fs : TarfsT) :
    vnodesGet (i.signExtend 64) n fs = (vnodeAt fs i).map fun r => (r, fs) := by
  have run : vnodesGet (i.signExtend 64) n fs =
      (match vectorEntryGet fs.level ((i.signExtend 64).setWidth 32) with
        | .within => asks fun fs => fs.vnodes ((i.signExtend 64).setWidth 32)
        | .behind => if (i.signExtend 64).setWidth 32 = 64 then asks TarfsT.behind
          else raise (.bounds ((i.signExtend 64).setWidth 32))
        | .null => return none : Code (Option TarfsNode)) n fs := rfl
  rw [run, setWidth_signExtend, vnodeAt]
  cases vectorEntryGet fs.level i with
  | within => rfl
  | behind =>
    dsimp only
    split <;> rfl
  | null => rfl

/-- What `map_getip` finds is one of the nodes. -/
lemma vnodeAt_some {fs : TarfsT} {i : BitVec 32} {v : TarfsNode} (h : vnodeAt fs i = .ok (some v)) : fs.Holds i v := by
  rw [vnodeAt] at h
  cases place : vectorEntryGet fs.level i with
  | within =>
    rw [place] at h
    exact .inl (Except.ok.inj h)
  | behind =>
    rw [place] at h
    dsimp only at h
    split at h
    · next last => exact .inr ⟨last, Except.ok.inj h⟩
    · cases h
  | null =>
    rw [place] at h
    cases h

/-- The level never goes down. -/
lemma le_checksize (turns : List Nat) (level : Nat) (i : BitVec 32) :
    level ≤ turns.foldl (fun level _ => if 64 ^ (level + 1) < i.toNat then level + 1 else level) level := by
  induction turns generalizing level with
  | nil => exact le_refl _
  | cons _ turns ih =>
    refine le_trans ?_ (ih _)
    dsimp only
    split
    · exact Nat.le_succ _
    · exact le_refl _

/-- A vector with one table has been asked for one entry too many at most. -/
lemma checksize_zero {level : Nat} {i : BitVec 32} (h : vectorChecksize level i = 0) : i.toNat ≤ 64 := by
  have first := le_checksize [1, 2, 3, 4] (if 64 ^ (level + 1) < i.toNat then level + 1 else level) i
  have last : [1, 2, 3, 4].foldl (fun level _ => if 64 ^ (level + 1) < i.toNat then level + 1 else level)
      (if 64 ^ (level + 1) < i.toNat then level + 1 else level) = 0 := h
  rw [last] at first
  split at first
  · exact absurd first (Nat.not_succ_le_zero _)
  · next small =>
    rw [Nat.le_zero.mp first] at small
    exact Nat.not_lt.mp small

/-- One table has room for the first indices. -/
lemma checksize_low {i : BitVec 32} (low : i.toNat < 64) : vectorChecksize 0 i = 0 := by
  have stays : ∀ turns : List Nat,
      turns.foldl (fun level _ => if 64 ^ (level + 1) < i.toNat then level + 1 else level) 0 = 0 := by
    intro turns
    induction turns with
    | nil => rfl
    | cons _ turns ih =>
      have fits : ¬64 ^ (0 + 1) < i.toNat := Nat.not_lt_of_lt low
      rw [List.foldl_cons, if_neg fits]
      exact ih
  exact stays (List.range 5)

/-- The first nodes go into the table that is there. -/
lemma vnodesPut_low {inode : BitVec 64} (low : (inode.setWidth 32).toNat < 64) (node : TarfsNode) {fs : TarfsT}
    (level : fs.level = 0) :
    Returns (vnodesPut inode node) fs () { fs with vnodes := Function.update fs.vnodes (inode.setWidth 32) (some node) } := by
  have grown : ({ fs with level := vectorChecksize fs.level (inode.setWidth 32) } : TarfsT) = fs := by
    rw [level, checksize_low low, ← level]
  have place : vectorEntryGet fs.level (inode.setWidth 32) = .within := by
    rw [vectorEntryGet, if_neg (not_not.mpr level), if_pos low]
  refine .bind (.update _ _) ?_
  rw [grown]
  refine .bind (.asks _ _) ?_
  rw [place]
  exact .update _ _

/-- What `map_putip` puts is there afterwards, and so is what was there before, unless it had that inode. -/
lemma vnodesPut_result {inode : BitVec 64} {node : TarfsNode} {n : Nat} {fs fs' : TarfsT}
    (run : vnodesPut inode node n fs = .ok ((), fs')) :
    fs'.Holds (inode.setWidth 32) node ∧
      ∀ i v, fs'.Holds i v → fs.Holds i v ∨ i = inode.setWidth 32 ∧ v = node := by
  have put : vnodesPut inode node n fs =
      (match vectorEntryGet (vectorChecksize fs.level (inode.setWidth 32)) (inode.setWidth 32) with
        | .within => update fun fs => { fs with vnodes := Function.update fs.vnodes (inode.setWidth 32) (some node) }
        | .behind => update fun fs => { fs with behind := some node }
        | .null => raise .null : Code Unit) n { fs with level := vectorChecksize fs.level (inode.setWidth 32) } := rfl
  rw [put] at run
  cases place : vectorEntryGet (vectorChecksize fs.level (inode.setWidth 32)) (inode.setWidth 32) with
  | within =>
    rw [place] at run
    cases run
    refine ⟨.inl (Function.update_self _ _ _), fun i v held => ?_⟩
    rcases held with found | behind
    · by_cases e : i = inode.setWidth 32
      · subst e
        have same := (Function.update_self (inode.setWidth 32) (some node) fs.vnodes).symm.trans found
        exact .inr ⟨rfl, (Option.some.inj same).symm⟩
      · exact .inl (.inl ((Function.update_of_ne e (some node) fs.vnodes).symm.trans found))
    · exact .inl (.inr behind)
  | behind =>
    rw [place] at run
    cases run
    have last : inode.setWidth 32 = 64 := by
      rw [vectorEntryGet] at place
      split_ifs at place with high
      have le := checksize_zero (not_not.mp high)
      exact BitVec.eq_of_toNat_eq (Nat.le_antisymm le (Nat.not_lt.mp ‹_›))
    refine ⟨.inr ⟨last, rfl⟩, fun i v held => ?_⟩
    rcases held with found | ⟨here, behind⟩
    · exact .inl (.inl found)
    · exact .inr ⟨here.trans last.symm, (Option.some.inj behind).symm⟩
  | null =>
    rw [place] at run
    cases run

/-- There is no loop in `map_putip`. -/
lemma vnodesPut_straight (inode : BitVec 64) (node : TarfsNode) : Straight (vnodesPut inode node) := by
  refine .bind (.update _) fun _ => .bind (.asks _) fun level => ?_
  cases vectorEntryGet level (inode.setWidth 32) with
  | within => exact .update _
  | behind => exact .update _
  | null => exact .raise _

/-- A null pointer is all that `map_putip` fails for. -/
lemma vnodesPut_faults (inode : BitVec 64) (node : TarfsNode) : Faults .null (vnodesPut inode node) := by
  refine .bind (.update _) fun _ => .bind (.asks _) fun level => ?_
  cases vectorEntryGet level (inode.setWidth 32) with
  | within => exact .update _
  | behind => exact .update _
  | null => exact .raise _

end Twcos.Tarfs
