import Mathlib.Data.List.Infix
import Twcos.Bin.Basic

/-!
# Splaying and mirror images

Bottom-up splaying of the top of a subtree along the way to the root, and mirror images of trees and positions. Splaying
commutes with taking the mirror image. The elements that the top has passed on a side hang below it in a row (`flank`),
each with the subtree beyond it; nothing that is passed later changes what is in the row already, so the rows tell in
which groups the elements were passed.
-/

namespace Twcos

variable {α : Type}

namespace Bin

/-- The mirror image. -/
def mirror : Bin α → Bin α
  | nil => nil
  | node l x r => node r.mirror x l.mirror

end Bin

/-- The mirror image of a step up. -/
def Frame.mirror (f : Frame α) : Frame α := ⟨f.side.opp, f.elem, f.sibling.mirror⟩

namespace Bin

/-- The mirror image of a node. -/
lemma mirror_mk (s : Side) (a : Bin α) (x : α) (b : Bin α) : (mk s a x b).mirror = mk s.opp a.mirror x b.mirror := by
  cases s <;> rfl

/-- The mirror image of a rotation. -/
lemma mirror_lift (f : Frame α) (t : Bin α) : (lift f t).mirror = lift f.mirror t.mirror := by
  obtain ⟨s, y, a⟩ := f
  cases t with
  | nil => cases s <;> rfl
  | node l x r => cases s <;> rfl

/-- The mirror image of a tree around a subtree. -/
lemma mirror_plug (p : Path α) (t : Bin α) : (plug p t).mirror = plug (p.map Frame.mirror) t.mirror := by
  induction p generalizing t with
  | nil => rfl
  | cons f p ih =>
    rw [plug, ih, attach, mirror_mk]
    rfl

/-- The mirror image has as many nodes. -/
@[simp] lemma size_mirror (t : Bin α) : t.mirror.size = t.size := by
  induction t with
  | nil => rfl
  | node l x r ihl ihr =>
    rw [mirror, size, size, ihl, ihr]
    omega

/-- The cells of the mirror image are in reverse order. -/
lemma cells_mirror (t : Bin α) : t.mirror.cells = t.cells.reverse := by
  induction t with
  | nil => rfl
  | node l x r ihl ihr => simp only [mirror, cells, ihl, ihr, List.reverse_append, List.reverse_cons, List.append_assoc,
      List.singleton_append]

/-- A tree that is not empty has a mirror image that is not. -/
lemma mirror_ne_nil {t : Bin α} (h : t ≠ .nil) : t.mirror ≠ .nil := by
  cases t with
  | nil => exact absurd rfl h
  | node l x r => nofun

/-! ### Splaying -/

/-- Two steps up on the same side as one: the upper element is rotated below the lower one first. -/
def zigzig (f g : Frame α) : Frame α := ⟨f.side, f.elem, mk g.side f.sibling g.elem g.sibling⟩

/-- Rotating the parent over the grandparent first. -/
lemma lift_attach {f g : Frame α} (h : f.side = g.side) (t : Bin α) : lift g (attach f t) = attach (zigzig f g) t := by
  obtain ⟨sf, x, a⟩ := f
  obtain ⟨sg, y, b⟩ := g
  subst h
  cases sf <;> rfl

/-- Splaying: two steps at a time, with the parent first if they are on the same side (zig-zig) and with the node first if
    they are not (zig-zag), and a single step below the root (zig). -/
def splay : Path α → Bin α → Bin α
  | [], t => t
  | [f], t => lift f t
  | f :: g :: p, t => if f.side = g.side then splay p (lift (zigzig f g) t) else splay p (lift g (lift f t))

/-- The mirror image of a double rotation. -/
lemma mirror_zigzig (f g : Frame α) : (zigzig f g).mirror = zigzig f.mirror g.mirror := by
  rw [zigzig, Frame.mirror, mirror_mk]
  rfl

/-- Two frames are on the same side if their mirror images are. -/
lemma mirror_side_eq {f g : Frame α} : f.mirror.side = g.mirror.side ↔ f.side = g.side := Side.opp_inj

/-- Splaying the mirror image gives the mirror image. -/
theorem mirror_splay (p : Path α) (t : Bin α) : (splay p t).mirror = splay (p.map Frame.mirror) t.mirror := by
  induction p, t using splay.induct with
  | case1 t => rfl
  | case2 f t => exact mirror_lift f t
  | case3 f g p t same ih =>
    rw [splay, if_pos same, ih, mirror_lift, mirror_zigzig, List.map_cons, List.map_cons, splay,
      if_pos (mirror_side_eq.mpr same)]
  | case4 f g p t other ih =>
    rw [splay, if_neg other, ih, mirror_lift, mirror_lift, List.map_cons, List.map_cons, splay,
      if_neg (mt mirror_side_eq.mp other)]

/-- The steps of the way up are on alternating sides. -/
def Alternates : Path α → Prop
  | f :: g :: p => f.side ≠ g.side ∧ Alternates (g :: p)
  | _ => True

/-- A path alternates if its mirror image does. -/
lemma alternates_mirror (p : Path α) : Alternates (p.map Frame.mirror) ↔ Alternates p := by
  induction p using Alternates.induct with
  | case1 f g p ih => exact and_congr (not_congr mirror_side_eq) ih
  | case2 p short =>
    match p with
    | [] => exact Iff.rfl
    | [f] => exact Iff.rfl
    | f :: g :: p => exact absurd rfl (short f g p)

/-- On a way with alternating sides all rotations are single ones. -/
lemma splay_alternates {p : Path α} (h : Alternates p) (t : Bin α) : splay p t = lifts p t := by
  induction p, t using splay.induct with
  | case1 t => rfl
  | case2 f t => rfl
  | case3 f g p t same ih => exact absurd same h.1
  | case4 f g p t other ih =>
    rw [splay, if_neg other]
    cases p with
    | nil => rfl
    | cons k p => exact ih h.2.2

/-! ### What has been passed -/

/-- The elements down a side, from the bottom, each with its subtree on the other side. -/
def spine : Side → Bin α → List (α × Bin α)
  | _, nil => []
  | .left, node l x r => spine .left l ++ [(x, r)]
  | .right, node l x r => spine .right r ++ [(x, l)]

/-- The elements that the top has passed on a side. -/
def flank (s : Side) (t : Bin α) : List (α × Bin α) := spine s (child s.opp t)

/-- A rotation puts the parent at the end of the flank. -/
lemma flank_lift (f : Frame α) {t : Bin α} (ht : t ≠ .nil) :
    flank f.side (lift f t) = flank f.side t ++ [(f.elem, f.sibling)] := by
  obtain ⟨s, y, a⟩ := f
  cases t with
  | nil => exact absurd rfl ht
  | node l x r => cases s <;> rfl

/-- What has been passed stays as it is. -/
lemma flank_prefix_lift (s : Side) (f : Frame α) {t : Bin α} (ht : t ≠ .nil) : flank s t <+: flank s (lift f t) := by
  by_cases same : f.side = s
  · subst same
    rw [flank_lift f ht]
    exact List.prefix_append _ _
  · obtain ⟨s', y, a⟩ := f
    cases t with
    | nil => exact absurd rfl ht
    | node l x r => cases s <;> cases s' <;> first | exact absurd rfl same | exact List.prefix_rfl

/-- Splaying only makes a flank longer. -/
lemma flank_prefix_splay (s : Side) (p : Path α) {t : Bin α} (ht : t ≠ .nil) : flank s t <+: flank s (splay p t) := by
  induction p, t using splay.induct with
  | case1 t => exact List.prefix_rfl
  | case2 f t => exact flank_prefix_lift s f ht
  | case3 f g p t same ih =>
    rw [splay, if_pos same]
    exact (flank_prefix_lift s _ ht).trans (ih (lift_ne_nil ht))
  | case4 f g p t other ih =>
    rw [splay, if_neg other]
    have up := (flank_prefix_lift s f ht).trans (flank_prefix_lift s g (lift_ne_nil ht))
    exact up.trans (ih (lift_ne_nil (lift_ne_nil ht)))

/-- Two trees for which the next element was passed in one group with the one above it, and on its own. -/
lemma ne_of_flank {f g : Frame α} {t u v : Bin α} (ht : t ≠ .nil) (hu : flank f.side (lift (zigzig f g) t) <+: flank f.side u)
    (hv : flank f.side (lift f t) <+: flank f.side v) : u ≠ v := by
  rintro rfl
  have passed : flank f.side (lift (zigzig f g) t) = flank f.side t ++ [(f.elem, (zigzig f g).sibling)] :=
    flank_lift (zigzig f g) ht
  rw [passed] at hu
  rw [flank_lift f ht] at hv
  have same : flank f.side t ++ [(f.elem, (zigzig f g).sibling)] = flank f.side t ++ [(f.elem, f.sibling)] :=
    (List.prefix_of_prefix_length_le hu hv (by simp)).eq_of_length (by simp)
  have entry := (List.cons.inj (List.append_cancel_left same)).1
  have sizes := congrArg (fun e => (Prod.snd e).size) entry
  have size : (zigzig f g).sibling.size = 1 + f.sibling.size + g.sibling.size := size_mk _ _ _ _
  dsimp only at sizes
  omega

end Bin

end Twcos
