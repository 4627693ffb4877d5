import Twcos.Run.Basic
import Twcos.Vm.Segment
import Mathlib.Data.List.Nodup
import Mathlib.Logic.Function.Basic

/-!
# The reverse map

Model of the reverse map of `kernel/vm.c`: for each physical page a record in the heap with the pairs of address space
and address where the page is mapped. `vmpages_correct` says that over any sequence of calls the entries of a record
are the pairs mapped and not unmapped since.

`realloc` is a parameter. It may throw, and otherwise it keeps what the block has, in place or in a block that was
free (`Preserves`). The map `vmpages` is a finite map from pages to blocks; in C it is a vector, so that no record may be
the first one to be put at an index `64 ^ (k + 1)` (`Twcos.Vector.Run`). Entries beyond the end of a block cannot be read
or written.

C → Lean naming: `vmpage_t` → `Vmpage`, `vm_vmpage_map` → `vmVmpageMap` and so on.
-/

namespace Twcos.Vm
open Twcos.Run Function

/-- An element of `maps`. -/
structure Mapping where
  as : Addr
  p : Addr
deriving DecidableEq

/-- `vmpage_t`; `maps` has all the entries that the block has room for. -/
structure Vmpage where
  count : Nat
  flags : BitVec 32
  age : BitVec 32
  maps : List Mapping
deriving DecidableEq

/-- `vmpages` and the heap that the records are in. -/
structure Vmpages where
  heap : Nat → Option Vmpage
  vmpages : BitVec 32 → Option Nat

/-- The entries that are in use. -/
def Vmpage.entries (vmpage : Vmpage) : List Mapping := vmpage.maps.take vmpage.count

/-- The record of a page. -/
def Vmpages.record (s : Vmpages) (page : BitVec 32) : Option Vmpage := (s.vmpages page).bind s.heap

/-- The entries of the record of a page. -/
def Vmpages.entries (s : Vmpages) (page : BitVec 32) : List Mapping :=
  match s.record page with
  | none => []
  | some vmpage => vmpage.entries

/-- `realloc(p, …)` of a record, for the given number of entries. -/
abbrev Realloc := (Nat → Option Vmpage) → Option Nat → Nat → Option (Nat × (Nat → Option Vmpage))

/-- What a call of `realloc` gives: a block that was free or the one it was given, with room for the entries. The other
    blocks stay as they are. -/
structure Gives (heap : Nat → Option Vmpage) (old : Option Nat) (n a : Nat) (heap' : Nat → Option Vmpage)
    (vmpage : Vmpage) : Prop where
  block : heap' a = some vmpage
  place : old = some a ∨ heap a = none
  room : n ≤ vmpage.maps.length
  others : ∀ b, b ≠ a → old ≠ some b → heap' b = heap b

/-- `realloc` preserves what the block has, as far as it fits. -/
structure Preserves (realloc : Realloc) : Prop where
  fresh : ∀ {heap n a heap'}, realloc heap none n = some (a, heap') → ∃ vmpage, Gives heap none n a heap' vmpage
  kept : ∀ {heap n a heap' b old}, heap b = some old → realloc heap (some b) n = some (a, heap') →
    ∃ vmpage, Gives heap (some b) n a heap' vmpage ∧ vmpage.count = old.count ∧ vmpage.flags = old.flags ∧
      vmpage.age = old.age ∧ vmpage.maps.take (min n old.maps.length) = old.maps.take n

/-! ### The operations -/

/-- The loop over the `n` entries from `i` on, up to the one that is looked for. -/
def findMapping (vmpage : Vmpage) (m : Mapping) (i : Nat) : Nat → Option (Option Nat)
  | 0 => some none
  | n + 1 =>
    match vmpage.maps[i]? with
    | none => none
    | some e => if e = m then some (some i) else findMapping vmpage m (i + 1) n

/-- `maps[i] = m`. -/
def Vmpage.setMapping (vmpage : Vmpage) (i : Nat) (m : Mapping) : Option Vmpage :=
  if i < vmpage.maps.length then some { vmpage with maps := vmpage.maps.set i m } else none

/-- The end of `vm_vmpage_map`: the record gets a new last entry, and is entered into `vmpages` again. -/
def growMapping (realloc : Realloc) (s : Vmpages) (page : BitVec 32) (old : Option Nat) (count : Nat) (m : Mapping) :
    Option Vmpages := do
  let (a, heap) ← realloc s.heap old count
  let vmpage ← heap a
  let vmpage ← { vmpage with count := count }.setMapping (count - 1) m
  return ⟨update heap a (some vmpage), update s.vmpages page (some a)⟩

/-- `vm_vmpage_map`. -/
def vmVmpageMap (realloc : Realloc) (s : Vmpages) (page : BitVec 32) (m : Mapping) : Option Vmpages :=
  match s.vmpages page with
  | none => growMapping realloc s page none 1 m
  | some a => do
    let vmpage ← s.heap a
    match ← findMapping vmpage m 0 vmpage.count with
    | some _ => return s
    | none => growMapping realloc s page (some a) (vmpage.count + 1) m

/-- `vm_vmpage_unmap`: the last entry is moved to the place of the one that goes. -/
def vmVmpageUnmap (s : Vmpages) (page : BitVec 32) (m : Mapping) : Option Vmpages :=
  match s.vmpages page with
  | none => some s
  | some a => do
    let vmpage ← s.heap a
    match ← findMapping vmpage m 0 vmpage.count with
    | none => return s
    | some i =>
      let last ← vmpage.maps[vmpage.count - 1]?
      let vmpage ← vmpage.setMapping i last
      return { s with heap := update s.heap a (some { vmpage with count := vmpage.count - 1 }) }

/-- Change the record of a page, if there is one. -/
def Vmpages.withRecord (s : Vmpages) (page : BitVec 32) (f : Vmpage → Vmpage) : Option Vmpages :=
  match s.vmpages page with
  | none => some s
  | some a => do
    let vmpage ← s.heap a
    return { s with heap := update s.heap a (some (f vmpage)) }

/-- `vm_vmpage_setflags`. -/
def vmVmpageSetflags (s : Vmpages) (page flags : BitVec 32) : Option Vmpages :=
  s.withRecord page fun vmpage => { vmpage with flags := vmpage.flags ||| flags }

/-- `vm_vmpage_resetflags`. -/
def vmVmpageResetflags (s : Vmpages) (page flags : BitVec 32) : Option Vmpages :=
  s.withRecord page fun vmpage => { vmpage with flags := vmpage.flags &&& ~~~flags }

/-- A call. -/
inductive Call where
  | map (page : BitVec 32) (m : Mapping)
  | unmap (page : BitVec 32) (m : Mapping)
deriving DecidableEq

/-- The page that a call is about. -/
def Call.page : Call → BitVec 32
  | .map page _ => page
  | .unmap page _ => page

def callStep (realloc : Realloc) (s : Vmpages) : Call → Option Vmpages
  | .map page m => vmVmpageMap realloc s page m
  | .unmap page m => vmVmpageUnmap s page m

/-- The pair was mapped for the page and not unmapped since. -/
def Mapped (calls : List Call) (page : BitVec 32) (m : Mapping) : Prop :=
  ∃ before after, calls = before ++ .map page m :: after ∧ .unmap page m ∉ after

/-! ### Lists of entries -/

/-- Moving the last element to the place of another one takes that one away. -/
lemma perm_move_last {α : Type} {l : List α} {i : Nat} {a last : α} (ha : l[i]? = some a)
    (hl : l[l.length - 1]? = some last) : l.Perm (a :: (l.set i last).take (l.length - 1)) := by
  obtain ⟨hi, hget⟩ := List.getElem?_eq_some_iff.mp ha
  rw [← List.getLast?_eq_getElem?] at hl
  have split : l = l.take i ++ a :: l.drop (i + 1) := by
    rw [← hget, List.cons_getElem_drop_succ, List.take_append_drop]
  have drop : (l.set i last).take (l.length - 1) = (l.set i last).dropLast := by
    rw [List.dropLast_eq_take, List.length_set]
  have set : l.set i last = l.take i ++ last :: l.drop (i + 1) :=
    List.set_eq_take_append_cons_drop.trans (if_pos hi)
  rw [drop, set]
  rcases List.eq_nil_or_concat (l.drop (i + 1)) with nil | ⟨rest, z, concat⟩
  · -- it is the last element that goes
    rw [nil] at split ⊢
    rw [List.dropLast_concat, split, List.take_left' (by rw [List.length_take]; omega)]
    exact List.perm_middle.trans (by rw [List.append_nil])
  · rw [List.concat_eq_append] at concat
    rw [concat] at split ⊢
    have same : z = last := by
      rw [split, ← List.cons_append, ← List.append_assoc, List.getLast?_concat] at hl
      exact Option.some.inj hl
    rw [same] at split ⊢
    have dropped : (l.take i ++ last :: (rest ++ [last])).dropLast = l.take i ++ last :: rest := by
      rw [← List.cons_append, ← List.append_assoc, List.dropLast_concat]
    rw [dropped]
    conv_lhs => rw [split]
    refine List.perm_middle.trans (.cons a ?_)
    exact .append_left _ (List.perm_append_singleton _ _)

/-- The search from an entry on finds the first place of the pair, if there is one. -/
lemma findMapping_result {vmpage : Vmpage} {m : Mapping} {i n : Nat} (fits : i + n ≤ vmpage.maps.length) :
    (findMapping vmpage m i n = some none ∧ ∀ j, i ≤ j → j < i + n → vmpage.maps[j]? ≠ some m) ∨
      ∃ j, findMapping vmpage m i n = some (some j) ∧ j < i + n ∧ vmpage.maps[j]? = some m := by
  induction n generalizing i with
  | zero => exact .inl ⟨rfl, fun j h1 h2 => absurd h2 (by omega)⟩
  | succ n ih =>
    have get : vmpage.maps[i]? = some vmpage.maps[i] := List.getElem?_eq_getElem (by omega)
    rw [findMapping, get]
    by_cases eq : vmpage.maps[i] = m
    · refine .inr ⟨i, if_pos eq, by omega, ?_⟩
      rw [get, eq]
    · dsimp only
      rw [if_neg eq]
      rcases ih (i := i + 1) (by omega) with ⟨found, none⟩ | ⟨j, found, lt, at_j⟩
      · refine .inl ⟨found, fun j h1 h2 => ?_⟩
        by_cases here : j = i
        · rw [here, get]
          exact fun e => eq (Option.some.inj e)
        · exact none j (by omega) (by omega)
      · exact .inr ⟨j, found, by omega, at_j⟩

/-- A record whose entries are in its block, each one once. -/
structure Vmpage.WF (vmpage : Vmpage) : Prop where
  fits : vmpage.count ≤ vmpage.maps.length
  nodup : vmpage.entries.Nodup

namespace Vmpage.WF
variable {vmpage : Vmpage} {m : Mapping}

/-- There are as many entries as the count says. -/
lemma length_entries (wf : vmpage.WF) : vmpage.entries.length = vmpage.count := by
  rw [entries, List.length_take, Nat.min_eq_left wf.fits]

/-- The entries are those of the array. -/
lemma getElem_entries {i : Nat} (lt : i < vmpage.count) : vmpage.entries[i]? = vmpage.maps[i]? := by
  rw [entries, List.getElem?_take_of_lt lt]

/-- The search over all entries. -/
lemma find (wf : vmpage.WF) :
    (findMapping vmpage m 0 vmpage.count = some none ∧ m ∉ vmpage.entries) ∨
      ∃ i, findMapping vmpage m 0 vmpage.count = some (some i) ∧ i < vmpage.count ∧ vmpage.maps[i]? = some m := by
  have fits : 0 + vmpage.count ≤ vmpage.maps.length := by
    rw [Nat.zero_add]
    exact wf.fits
  rcases findMapping_result (m := m) fits with ⟨found, none⟩ | ⟨i, found, lt, at_i⟩
  · refine .inl ⟨found, fun mem => ?_⟩
    obtain ⟨j, hj⟩ := List.getElem?_of_mem mem
    have lt : j < vmpage.count := by
      rw [← wf.length_entries]
      exact (List.getElem?_eq_some_iff.mp hj).1
    rw [getElem_entries lt] at hj
    exact none j (Nat.zero_le j) (by omega) hj
  · exact .inr ⟨i, found, by omega, at_i⟩

/-- The record without the entry at `i`, to which the last one has been moved. -/
lemma move_last (wf : vmpage.WF) {i : Nat} (lt : i < vmpage.count) (at_i : vmpage.maps[i]? = some m) :
    ∃ last vmpage', vmpage.maps[vmpage.count - 1]? = some last ∧ vmpage.setMapping i last = some vmpage' ∧
      WF { vmpage' with count := vmpage'.count - 1 } ∧
      ∀ x, x ∈ entries { vmpage' with count := vmpage'.count - 1 } ↔ x ∈ vmpage.entries ∧ x ≠ m := by
  have fits := wf.fits
  have hlast : vmpage.maps[vmpage.count - 1]? = some vmpage.maps[vmpage.count - 1] :=
    List.getElem?_eq_getElem (by omega)
  refine ⟨_, _, hlast, if_pos (by omega), ?_⟩
  -- what is left of the entries
  have left : entries { vmpage with
      count := vmpage.count - 1, maps := vmpage.maps.set i vmpage.maps[vmpage.count - 1] } =
      (vmpage.entries.set i vmpage.maps[vmpage.count - 1]).take (vmpage.entries.length - 1) := by
    rw [wf.length_entries, entries, entries, ← List.take_set, List.take_take, Nat.min_eq_left (Nat.sub_le _ _)]
  have first : vmpage.entries[i]? = some m := by rw [getElem_entries lt, at_i]
  have second : vmpage.entries[vmpage.entries.length - 1]? = some vmpage.maps[vmpage.count - 1] := by
    rw [wf.length_entries, getElem_entries (by omega), hlast]
  have perm := perm_move_last first second
  rw [← left] at perm
  have nodup := perm.nodup_iff.mp wf.nodup
  refine ⟨⟨?_, (List.nodup_cons.mp nodup).2⟩, fun x => ?_⟩
  · show vmpage.count - 1 ≤ (vmpage.maps.set _ _).length
    rw [List.length_set]
    omega
  · rw [perm.mem_iff, List.mem_cons]
    constructor
    · intro h
      refine ⟨.inr h, fun e => ?_⟩
      rw [e] at h
      exact (List.nodup_cons.mp nodup).1 h
    · rintro ⟨e | h, ne⟩
      · exact absurd e ne
      · exact h

end Vmpage.WF

/-- A block with room for one more entry after those that it has gets it. -/
lemma Vmpage.setMapping_last {vmpage : Vmpage} {entries : List Mapping} {n : Nat} {m : Mapping}
    (room : n + 1 ≤ vmpage.maps.length) (has : vmpage.maps.take n = entries) (nodup : entries.Nodup)
    (fresh : m ∉ entries) :
    ∃ vmpage', { vmpage with count := n + 1 }.setMapping n m = some vmpage' ∧ vmpage'.WF ∧
      vmpage'.entries = entries ++ [m] := by
  have added : (vmpage.maps.set n m).take (n + 1) = entries ++ [m] := by
    rw [List.take_add_one, List.getElem?_set_self room, List.take_set_of_le (Nat.le_refl n), has]
    rfl
  refine ⟨_, if_pos room, ⟨?_, ?_⟩, added⟩
  · show n + 1 ≤ (vmpage.maps.set n m).length
    rw [List.length_set]
    exact room
  · show ((vmpage.maps.set n m).take (n + 1)).Nodup
    rw [added, ← List.concat_eq_append]
    exact List.Nodup.concat fresh nodup

/-! ### The records of all pages -/

/-- Every page has a record of its own. -/
structure Vmpages.Inv (s : Vmpages) : Prop where
  block : ∀ {page a}, s.vmpages page = some a → ∃ vmpage, s.heap a = some vmpage ∧ vmpage.WF
  apart : ∀ {p q a}, s.vmpages p = some a → s.vmpages q = some a → p = q

/-- What a call about a page does: other records stay as they are, and the pairs of the record change as told. -/
structure Effect (s s' : Vmpages) (page : BitVec 32) (has : Mapping → Prop) : Prop where
  inv : s'.Inv
  others : ∀ q, q ≠ page → s'.record q = s.record q
  mem : ∀ m, m ∈ s'.entries page ↔ has m

namespace Vmpages
variable {s : Vmpages} {page : BitVec 32} {a : Nat} {vmpage : Vmpage}

/-- The record of a page. -/
lemma record_eq (h : s.vmpages page = some a) : s.record page = s.heap a := by rw [record, h, Option.bind_some]

/-- The entries of a page are those of its record. -/
lemma entries_eq (h : s.vmpages page = some a) (ha : s.heap a = some vmpage) :
    s.entries page = vmpage.entries := by rw [entries, record_eq h, ha]

/-- A page without a record has no entries. -/
lemma entries_none (h : s.vmpages page = none) : s.entries page = [] := by
  rw [entries, record, h]
  rfl

/-- A record is put into its block, or into one that was free. -/
lemma Inv.put (inv : s.Inv) {heap : Nat → Option Vmpage} (place : s.vmpages page = some a ∨ s.heap a = none)
    (others : ∀ b, b ≠ a → s.vmpages page ≠ some b → heap b = s.heap b) (wf : vmpage.WF) :
    Effect s ⟨update heap a (some vmpage), update s.vmpages page (some a)⟩ page (· ∈ vmpage.entries) := by
  -- no other page has the block
  have sole : ∀ {q b}, q ≠ page → s.vmpages q = some b → b ≠ a ∧ s.vmpages page ≠ some b := by
    intro q b ne hq
    constructor
    · intro e
      rw [e] at hq
      rcases place with mine | free
      · exact ne (inv.apart hq mine)
      · obtain ⟨v, hv, -⟩ := inv.block hq
        rw [free] at hv
        cases hv
    · intro e
      exact ne (inv.apart hq e)
  have same : ∀ {q b}, q ≠ page → s.vmpages q = some b → update heap a (some vmpage) b = s.heap b := by
    intro q b ne hq
    obtain ⟨ne1, ne2⟩ := sole ne hq
    rw [update_of_ne ne1, others b ne1 ne2]
  have owner : ∀ {q b}, update s.vmpages page (some a) q = some b →
      (q = page ∧ b = a) ∨ (q ≠ page ∧ s.vmpages q = some b) := by
    intro q b hq
    by_cases e : q = page
    · rw [e, update_self] at hq
      exact .inl ⟨e, (Option.some.inj hq).symm⟩
    · rw [update_of_ne e] at hq
      exact .inr ⟨e, hq⟩
  refine ⟨⟨?_, ?_⟩, ?_, ?_⟩
  · intro q b hq
    obtain ⟨rfl, rfl⟩ | ⟨ne, hq⟩ := owner hq
    · exact ⟨vmpage, update_self .., wf⟩
    · obtain ⟨v, hv, hwf⟩ := inv.block hq
      exact ⟨v, (same ne hq).trans hv, hwf⟩
  · intro p q b hp hq
    obtain ⟨rfl, rfl⟩ | ⟨nep, oldp⟩ := owner hp
    · obtain ⟨rfl, -⟩ | ⟨neq, oldq⟩ := owner hq
      · rfl
      · exact absurd rfl (sole neq oldq).1
    · obtain ⟨rfl, rfl⟩ | ⟨neq, oldq⟩ := owner hq
      · exact absurd rfl (sole nep oldp).1
      · exact inv.apart oldp oldq
  · intro q ne
    show (update s.vmpages page (some a) q).bind _ = (s.vmpages q).bind _
    rw [update_of_ne ne]
    cases hq : s.vmpages q with
    | none => rfl
    | some b => exact same ne hq
  · intro m
    rw [entries_eq (update_self ..) (update_self ..)]

/-- A change of a record that leaves its entries alone. -/
lemma Inv.withRecord (inv : s.Inv) {f : Vmpage → Vmpage} (hf : ∀ v, (f v).count = v.count ∧ (f v).maps = v.maps) :
    ∃ s', s.withRecord page f = some s' ∧ s'.Inv ∧ (∀ q, q ≠ page → s'.record q = s.record q) ∧
      s'.record page = (s.record page).map f := by
  cases h : s.vmpages page with
  | none =>
    refine ⟨s, by rw [Vmpages.withRecord, h], inv, fun _ _ => rfl, ?_⟩
    rw [record, h]
    rfl
  | some a =>
    obtain ⟨v, ha, wf⟩ := inv.block h
    have wf' : (f v).WF := by
      obtain ⟨count, maps⟩ := hf v
      refine ⟨?_, ?_⟩
      · rw [count, maps]
        exact wf.fits
      · rw [Vmpage.entries, count, maps]
        exact wf.nodup
    have effect := inv.put (.inl h) (fun (_ : Nat) _ _ => (rfl : s.heap _ = _)) wf'
    rw [← h, update_eq_self] at effect
    refine ⟨⟨update s.heap a (some (f v)), s.vmpages⟩, ?_, effect.inv, effect.others, ?_⟩
    · simp only [Vmpages.withRecord, h, ha, Option.bind_eq_bind, Option.bind_some, Option.pure_def]
    · rw [record_eq h, ha]
      show (s.vmpages page).bind (update s.heap a (some (f v))) = _
      rw [h, Option.bind_some, update_self]
      rfl

/-- A call that changes nothing. -/
lemma Inv.refl (inv : s.Inv) : Effect s s page (· ∈ s.entries page) := ⟨inv, fun _ _ => rfl, fun _ => Iff.rfl⟩

end Vmpages

/-- An effect in other words. -/
lemma Effect.congr {s s' : Vmpages} {page : BitVec 32} {has has' : Mapping → Prop} (h : Effect s s' page has)
    (same : ∀ m, has m ↔ has' m) : Effect s s' page has' :=
  ⟨h.inv, h.others, fun m => (h.mem m).trans (same m)⟩

section Calls
variable {realloc : Realloc} (preserves : Preserves realloc) {s s' : Vmpages} {page : BitVec 32} {m : Mapping}
include preserves

/-- The end of `vm_vmpage_map` for a page without a record. -/
lemma growMapping_fresh (inv : s.Inv) :
    (growMapping realloc s page none 1 m = none ∧ ∃ old n, realloc s.heap old n = none) ∨
      ∃ s', growMapping realloc s page none 1 m = some s' ∧ Effect s s' page (· = m) := by
  cases hr : realloc s.heap none 1 with
  | none => exact .inl ⟨by rw [growMapping, hr]; rfl, none, 1, hr⟩
  | some r =>
    obtain ⟨a, heap⟩ := r
    obtain ⟨vmpage, gives⟩ := preserves.fresh hr
    obtain ⟨vmpage', hset, wf, added⟩ := Vmpage.setMapping_last (n := 0) (m := m) gives.room List.take_zero
      List.nodup_nil List.not_mem_nil
    refine .inr ⟨⟨update heap a (some vmpage'), update s.vmpages page (some a)⟩, ?_, ?_⟩
    · simp only [growMapping, hr, gives.block, Option.bind_eq_bind, Option.bind_some, hset, Option.pure_def]
    · have free : s.heap a = none := gives.place.resolve_left nofun
      have place : s.vmpages page = some a ∨ s.heap a = none := .inr free
      have effect := inv.put place (fun b ne _ => gives.others b ne nofun) wf
      refine effect.congr fun x => ?_
      rw [added, List.nil_append, List.mem_singleton]

/-- The end of `vm_vmpage_map` for a page whose record does not have the pair. -/
lemma growMapping_kept (inv : s.Inv) {b : Nat} {old : Vmpage} (h : s.vmpages page = some b)
    (hb : s.heap b = some old) (fresh : m ∉ old.entries) :
    (growMapping realloc s page (some b) (old.count + 1) m = none ∧ ∃ old n, realloc s.heap old n = none) ∨
      ∃ s', growMapping realloc s page (some b) (old.count + 1) m = some s' ∧
        Effect s s' page (fun x => x = m ∨ x ∈ old.entries) := by
  obtain ⟨v, hv, wf⟩ := inv.block h
  cases hb.symm.trans hv
  cases hr : realloc s.heap (some b) (old.count + 1) with
  | none => exact .inl ⟨by rw [growMapping, hr]; rfl, some b, old.count + 1, hr⟩
  | some r =>
    obtain ⟨a, heap⟩ := r
    obtain ⟨vmpage, gives, -, -, -, same⟩ := preserves.kept hb hr
    have has : vmpage.maps.take old.count = old.entries := by
      have cut := congrArg (List.take old.count) same
      have fits := wf.fits
      rwa [List.take_take, List.take_take, Nat.min_eq_left (by omega), Nat.min_eq_left (by omega)] at cut
    obtain ⟨vmpage', hset, wf', added⟩ := Vmpage.setMapping_last (n := old.count) (m := m) gives.room has wf.nodup fresh
    refine .inr ⟨⟨update heap a (some vmpage'), update s.vmpages page (some a)⟩, ?_, ?_⟩
    · simp only [growMapping, hr, gives.block, Option.bind_eq_bind, Option.bind_some, Nat.add_sub_cancel, hset,
        Option.pure_def]
    · have place : s.vmpages page = some a ∨ s.heap a = none := by
        rw [h]
        exact gives.place
      have others : ∀ c, c ≠ a → s.vmpages page ≠ some c → heap c = s.heap c := by
        rw [h]
        exact gives.others
      refine (inv.put place others wf').congr fun x => ?_
      rw [added, List.mem_append, List.mem_singleton, or_comm]

omit preserves in
/-- The record that the end of `vm_vmpage_map` makes has the flags of the block it is in. -/
lemma growMapping_flags {old : Option Nat} {count : Nat} (run : growMapping realloc s page old count m = some s') :
    ∃ a heap v v', realloc s.heap old count = some (a, heap) ∧ heap a = some v ∧ s'.record page = some v' ∧
      v'.flags = v.flags := by
  rw [growMapping] at run
  obtain ⟨⟨a, heap⟩, hr, run⟩ := Option.bind_eq_some_iff.mp run
  obtain ⟨v, ha, run⟩ := Option.bind_eq_some_iff.mp run
  obtain ⟨v', hset, run⟩ := Option.bind_eq_some_iff.mp run
  cases run
  refine ⟨a, heap, v, v', hr, ha, ?_, ?_⟩
  · exact (Vmpages.record_eq (update_self ..)).trans (update_self ..)
  · rw [Vmpage.setMapping] at hset
    split_ifs at hset
    cases hset
    rfl

/-- What `vm_vmpage_map` does, unless there is no memory. -/
lemma vmVmpageMap_effect (inv : s.Inv) :
    (vmVmpageMap realloc s page m = none ∧ ∃ old n, realloc s.heap old n = none) ∨
      ∃ s', vmVmpageMap realloc s page m = some s' ∧ Effect s s' page (fun x => x = m ∨ x ∈ s.entries page) := by
  cases h : s.vmpages page with
  | none =>
    have run : vmVmpageMap realloc s page m = growMapping realloc s page none 1 m := by rw [vmVmpageMap, h]
    rw [run, Vmpages.entries_none h]
    simp only [List.not_mem_nil, or_false]
    exact growMapping_fresh preserves inv
  | some a =>
    obtain ⟨vmpage, ha, wf⟩ := inv.block h
    rw [Vmpages.entries_eq h ha]
    rcases wf.find (m := m) with ⟨found, fresh⟩ | ⟨i, found, lt, at_i⟩
    · have run : vmVmpageMap realloc s page m = growMapping realloc s page (some a) (vmpage.count + 1) m := by
        simp only [vmVmpageMap, h, ha, Option.bind_eq_bind, Option.bind_some, found]
      rw [run]
      exact growMapping_kept preserves inv h ha fresh
    · have run : vmVmpageMap realloc s page m = some s := by
        simp only [vmVmpageMap, h, ha, Option.bind_eq_bind, Option.bind_some, found, Option.pure_def]
      have has : m ∈ vmpage.entries := by
        apply List.mem_of_getElem? (i := i)
        rw [Vmpage.WF.getElem_entries lt, at_i]
      refine .inr ⟨s, run, inv.refl.congr fun x => ?_⟩
      rw [Vmpages.entries_eq h ha]
      constructor
      · exact .inr
      · rintro (rfl | hx)
        · exact has
        · exact hx

omit preserves in
/-- What `vm_vmpage_unmap` does. -/
lemma vmVmpageUnmap_effect (inv : s.Inv) :
    ∃ s', vmVmpageUnmap s page m = some s' ∧ Effect s s' page (fun x => x ∈ s.entries page ∧ x ≠ m) := by
  -- the pair is not there
  have none_left : m ∉ s.entries page → Effect s s page (fun x => x ∈ s.entries page ∧ x ≠ m) := by
    intro absent
    refine inv.refl.congr fun x => ⟨fun hx => ⟨hx, fun e => ?_⟩, And.left⟩
    rw [e] at hx
    exact absent hx
  cases h : s.vmpages page with
  | none =>
    refine ⟨s, by rw [vmVmpageUnmap, h], none_left ?_⟩
    rw [Vmpages.entries_none h]
    exact List.not_mem_nil
  | some a =>
    obtain ⟨vmpage, ha, wf⟩ := inv.block h
    have entries := Vmpages.entries_eq h ha
    rcases wf.find (m := m) with ⟨found, fresh⟩ | ⟨i, found, lt, at_i⟩
    · refine ⟨s, ?_, none_left (by rwa [entries])⟩
      simp only [vmVmpageUnmap, h, ha, Option.bind_eq_bind, Option.bind_some, found, Option.pure_def]
    · obtain ⟨last, vmpage', hlast, hset, wf', mem⟩ := wf.move_last lt at_i
      have effect := inv.put (.inl h) (fun (_ : Nat) _ _ => (rfl : s.heap _ = _)) wf'
      rw [← h, update_eq_self] at effect
      refine ⟨_, ?_, effect.congr fun x => ?_⟩
      · simp only [vmVmpageUnmap, h, ha, Option.bind_eq_bind, Option.bind_some, found, hlast, hset, Option.pure_def]
      · rw [mem, entries]

/-- What a call does, unless there is no memory. -/
lemma callStep_effect (inv : s.Inv) (c : Call) :
    (callStep realloc s c = none ∧ ∃ old n, realloc s.heap old n = none) ∨
      ∃ s', callStep realloc s c = some s' ∧
        Effect s s' c.page (fun m => c = .map c.page m ∨ m ∈ s.entries c.page ∧ c ≠ .unmap c.page m) := by
  cases c with
  | map page m =>
    refine (vmVmpageMap_effect preserves inv).imp_right ?_
    rintro ⟨s', run, effect⟩
    refine ⟨s', run, effect.congr fun x => ?_⟩
    simp only [Call.page, Call.map.injEq, true_and, ne_eq, reduceCtorEq, not_false_eq_true, and_true, eq_comm]
  | unmap page m =>
    obtain ⟨s', run, effect⟩ := @vmVmpageUnmap_effect s page m inv
    refine .inr ⟨s', run, effect.congr fun x => ?_⟩
    simp only [Call.page, Call.unmap.injEq, true_and, ne_eq, reduceCtorEq, false_or, eq_comm]

end Calls

/-! ### Sequences of calls -/

/-- One more call. -/
lemma mapped_append {calls : List Call} {c : Call} {page : BitVec 32} {m : Mapping} :
    Mapped (calls ++ [c]) page m ↔ c = .map page m ∨ Mapped calls page m ∧ c ≠ .unmap page m := by
  constructor
  · rintro ⟨before, after, h, live⟩
    rcases List.eq_nil_or_concat after with rfl | ⟨after, d, rfl⟩
    · obtain ⟨-, h⟩ := List.append_inj' h rfl
      exact .inl (List.cons.inj h).1
    · rw [List.concat_eq_append] at h live
      rw [← List.cons_append, ← List.append_assoc] at h
      obtain ⟨rfl, last⟩ := List.append_inj' h rfl
      cases last
      refine .inr ⟨⟨before, after, rfl, fun mem => live (List.mem_append_left _ mem)⟩, fun e => live ?_⟩
      rw [e]
      exact List.mem_append_right _ (List.mem_singleton_self _)
  · rintro (rfl | ⟨⟨before, after, rfl, live⟩, ne⟩)
    · exact ⟨calls, [], rfl, List.not_mem_nil⟩
    · refine ⟨before, after ++ [c], ?_, fun mem => ?_⟩
      · rw [List.append_assoc, List.cons_append]
      · rcases List.mem_append.mp mem with mem | mem
        · exact live mem
        · exact ne (List.mem_singleton.mp mem).symm

/-- The records are those of the calls so far. -/
structure Tracks (s : Vmpages) (calls : List Call) : Prop where
  inv : s.Inv
  mem : ∀ page m, m ∈ s.entries page ↔ Mapped calls page m

/-- The entries of the other pages. -/
lemma Effect.entries {s s' : Vmpages} {page q : BitVec 32} {has : Mapping → Prop} (h : Effect s s' page has)
    (ne : q ≠ page) : s'.entries q = s.entries q := by
  rw [Vmpages.entries, Vmpages.entries, h.others q ne]

/-- Every call keeps track. -/
lemma Tracks.step {realloc : Realloc} (preserves : Preserves realloc) {s s' : Vmpages} {calls : List Call} {c : Call}
    (h : Tracks s calls) (run : callStep realloc s c = some s') : Tracks s' (calls ++ [c]) := by
  rcases callStep_effect preserves h.inv c with ⟨none, -⟩ | ⟨s1, run1, effect⟩
  · rw [none] at run
    cases run
  · cases run1.symm.trans run
    refine ⟨effect.inv, fun page m => ?_⟩
    rw [mapped_append, ← h.mem]
    by_cases e : page = c.page
    · rw [e]
      exact effect.mem m
    · rw [effect.entries e]
      constructor
      · intro mem
        exact .inr ⟨mem, by rintro rfl; exact e rfl⟩
      · rintro (rfl | ⟨mem, -⟩)
        · exact absurd rfl e
        · exact mem

/-- Sequences of calls keep track. -/
lemma Tracks.exec {realloc : Realloc} (preserves : Preserves realloc) {s s' : Vmpages} {calls more : List Call}
    (h : Tracks s calls) (run : exec (callStep realloc) s more = some s') : Tracks s' (calls ++ more) := by
  induction more generalizing s calls with
  | nil =>
    cases run
    rwa [List.append_nil]
  | cons c more ih =>
    obtain ⟨s1, h1, run⟩ := Option.bind_eq_some_iff.mp run
    have tracks := ih (h.step preserves h1) run
    rwa [List.append_assoc] at tracks

/-- No page has a record yet. -/
def noVmpages (heap : Nat → Option Vmpage) : Vmpages := ⟨heap, fun _ => none⟩

/-- At first nothing is mapped. -/
lemma noVmpages_tracks (heap : Nat → Option Vmpage) : Tracks (noVmpages heap) [] := by
  refine ⟨⟨nofun, nofun⟩, fun page m => ?_⟩
  rw [Vmpages.entries_none rfl]
  refine iff_of_false List.not_mem_nil ?_
  rintro ⟨before, after, h, -⟩
  cases before <;> cases h

/-- No entry comes twice. -/
lemma Vmpages.Inv.nodup {s : Vmpages} (inv : s.Inv) (page : BitVec 32) : (s.entries page).Nodup := by
  cases h : s.vmpages page with
  | none =>
    rw [entries_none h]
    exact List.nodup_nil
  | some a =>
    obtain ⟨vmpage, ha, wf⟩ := inv.block h
    rw [entries_eq h ha]
    exact wf.nodup

/-- After any sequence of calls, the entries of each record are the pairs that were mapped for the page and not
    unmapped since, each one once. The next call returns if there is memory, and changes no record but that of its
    page. -/
theorem vmpages_correct {realloc : Realloc} (preserves : Preserves realloc) (heap : Nat → Option Vmpage)
    (calls : List Call) (s : Vmpages) (run : exec (callStep realloc) (noVmpages heap) calls = some s) :
    (∀ page, (s.entries page).Nodup ∧ ∀ m, m ∈ s.entries page ↔ Mapped calls page m) ∧
    (∀ c, callStep realloc s c = none → ∃ old n, realloc s.heap old n = none) ∧
    ∀ c s', callStep realloc s c = some s' → ∀ page, page ≠ c.page → s'.record page = s.record page := by
  have tracks : Tracks s calls := (noVmpages_tracks heap).exec preserves run
  refine ⟨fun page => ⟨tracks.inv.nodup page, tracks.mem page⟩, fun c hc => ?_, fun c s' hc => ?_⟩
  · rcases callStep_effect preserves tracks.inv c with ⟨-, no⟩ | ⟨s1, h1, -⟩
    · exact no
    · rw [hc] at h1
      cases h1
  · rcases callStep_effect preserves tracks.inv c with ⟨no, -⟩ | ⟨s1, h1, effect⟩
    · rw [hc] at no
      cases no
    · cases h1.symm.trans hc
      exact effect.others

/-! ### The allocator -/

/-- The sizes of the blocks of `malloc`. -/
def pools : List Nat := [8, 12, 16, 24, 32, 48, 64, 96, 128, 196, 256, 384, 512, 768, 1024, 1536, 2044, 4088]

/-- The number of entries in the block that `malloc` takes for a record with `n` entries. A record has 12 bytes and 8
    for each entry. -/
def mallocEntries (n : Nat) : Option Nat := (pools.find? (12 + 8 * n < ·)).map fun esize => (esize - 12) / 8

/-- A block that is free, in a heap of 64 blocks. -/
def freeBlock (heap : Nat → Option Vmpage) : Option Nat := (List.range 64).find? fun a => (heap a).isNone

/-- `realloc` of `libk/slab.c`: a record that does not fit into its block any more is copied to a new one. -/
def slabRealloc : Realloc := fun heap old n =>
  match old with
  | none => do
    let entries ← mallocEntries n
    let a ← freeBlock heap
    return (a, update heap a (some ⟨0, 0, 0, List.replicate entries ⟨0, 0⟩⟩))
  | some b => do
    let vmpage ← heap b
    if n ≤ vmpage.maps.length then return (b, heap)
    else
      let entries ← mallocEntries n
      let a ← freeBlock heap
      return (a, update heap a (some { vmpage with
        maps := vmpage.maps ++ List.replicate (entries - vmpage.maps.length) ⟨0, 0⟩ }))

/-- An array has room for the entries. -/
lemma mallocEntries_le {n entries : Nat} (h : mallocEntries n = some entries) : n ≤ entries := by
  obtain ⟨esize, found, rfl⟩ := Option.map_eq_some_iff.mp h
  have large := List.find?_some found
  rw [decide_eq_true_iff] at large
  omega

/-- A block that is taken was free. -/
lemma freeBlock_free {heap : Nat → Option Vmpage} {a : Nat} (h : freeBlock heap = some a) : heap a = none := by
  have free := List.find?_some h
  exact Option.isNone_iff_eq_none.mp free

/-- The allocator does what is expected of it. -/
lemma slabRealloc_preserves : Preserves slabRealloc := by
  constructor
  · intro heap n a heap' run
    obtain ⟨entries, he, run⟩ := Option.bind_eq_some_iff.mp run
    obtain ⟨a, ha, run⟩ := Option.bind_eq_some_iff.mp run
    cases run
    refine ⟨_, update_self .., .inr (freeBlock_free ha), ?_, fun b ne _ => update_of_ne ne ..⟩
    rw [List.length_replicate]
    exact mallocEntries_le he
  · intro heap n a heap' b old hb run
    obtain ⟨vmpage, hv, run⟩ := Option.bind_eq_some_iff.mp run
    cases hb.symm.trans hv
    by_cases fits : n ≤ old.maps.length
    · rw [if_pos fits] at run
      cases run
      refine ⟨old, ⟨hb, .inl rfl, fits, fun _ _ _ => rfl⟩, rfl, rfl, rfl, ?_⟩
      rw [Nat.min_eq_left fits]
    · rw [if_neg fits] at run
      obtain ⟨entries, he, run⟩ := Option.bind_eq_some_iff.mp run
      obtain ⟨a, ha, run⟩ := Option.bind_eq_some_iff.mp run
      cases run
      have room := mallocEntries_le he
      refine ⟨_, ⟨update_self .., .inr (freeBlock_free ha), ?_, fun b ne _ => update_of_ne ne ..⟩, rfl, rfl, rfl, ?_⟩
      · rw [List.length_append, List.length_replicate]
        omega
      · rw [Nat.min_eq_right (by omega), List.take_left, List.take_of_length_le (by omega)]

/-- Two pages are mapped, one of them twice, and one of its mappings goes. -/
def someCalls : List Call :=
  [.map 7 ⟨1, 0x1000⟩, .map 7 ⟨2, 0x2000⟩, .map 8 ⟨1, 0x1000⟩, .unmap 7 ⟨1, 0x1000⟩]

/-- A list of calls. -/
theorem vmpages_someCalls : ∃ s, exec (callStep slabRealloc) (noVmpages fun _ => none) someCalls = some s ∧
    ∀ page m, m ∈ s.entries page ↔ Mapped someCalls page m :=
  ⟨_, rfl, fun page => ((vmpages_correct slabRealloc_preserves (fun _ => none) someCalls _ rfl).1 page).2⟩

end Twcos.Vm
