import Mathlib.Data.List.Sort
import Twcos.Prog.Calls
import Twcos.Tree.Table
import Twcos.Vector.Copy
import Twcos.Vm.Fault

/-!
# Processes

Model of `kernel/process.c`: `process_nextpid`, `process_duplicate_as` and `process_fork`, with the container of
`kernel/container.c`, on the trees of `libk/tree.c`, the vectors of `libk/vector.c` and the segments of `kernel/vm.c`. A
process is a record with a tree and a vector of its own. `process_nextpid` holds a spin lock, and a process forks in its
own thread, so the forks come one after the other.

C → Lean naming: `process_t` → `Process`, pointers to which count the processes from 1 on; `container_t` → `nextpid` and
`pids` of `System`; `process_fork` → `processFork`.
-/

namespace Twcos.Process
open Twcos.Prog Twcos.Tree Twcos.Vm

/-- A process and its maps. -/
structure Record where
  pid : BitVec 32
  parent : Nat
  as : Mem Nat SegmentPtr
  files : Vector.Mem

/-- The objects of virtual memory, the root container and the processes. -/
structure System (D : Type) where
  vm : Kernel D
  nextpid : BitVec 32
  pids : Mem Nat Nat
  procs : List Record

inductive Fault where
  | tree (e : Tree.Fault)
  | vector (e : Vector.Fault)
  | null
  | object

/-- The allocators of the nodes and tables. -/
structure Slabs where
  pids : Env Nat Nat
  as : Env Nat SegmentPtr
  files : Vector.Env

def keys : TreeT Nat := ⟨.treap, mapKeycmp⟩

section Code
variable {D : Type} (slabs : Slabs)

abbrev Code (D α : Type) := Prog Fault (System D) α

/-- `vm_segment_copy(seg, 1)`. -/
def copySegment (seg : Segment) : Code D Segment := do
  let (copy, vm) ← demand (fun s => vmSegmentCopy s.vm seg) .object
  update fun s => { s with vm := vm }
  return copy

/-- `process_duplicate_as_copy_seg` for each call of the walk. -/
def copySegs : List (Nat × SegmentPtr) → Mem Nat SegmentPtr → Code D (Mem Nat SegmentPtr)
  | [], as => return as
  | (key, data) :: calls, as => do
    let seg ← demand (fun _ => data) .null
    let copy ← copySegment seg
    let (_, as) ← inside .tree (treePut slabs.as keys key (some copy)) as
    copySegs calls as

/-- `process_duplicate_as`. -/
def processDuplicateAs (source : Mem Nat SegmentPtr) : Code D (Mem Nat SegmentPtr) := do
  let (calls, _) ← inside .tree (collect treeWalk) source
  copySegs slabs calls treeNew

/-- The next pid, and whether it is in use. -/
def nextStep (_ : Unit) : Code D (Unit ⊕ BitVec 32) := do
  let pid ← asks System.nextpid
  update fun s => { s with nextpid := pid + 1 }
  let (found, pids) ← inside .tree (treeGet keys pid.toNat .eq) (← asks System.pids)
  update fun s => { s with pids := pids }
  if found ≠ 0 then return .inl () else return .inr pid

/-- `process_nextpid`. -/
def processNextpid (process : Nat) : Code D (BitVec 32) := do
  let pid ← loop nextStep ()
  let (_, pids) ← inside .tree (treePut slabs.pids keys pid.toNat process) (← asks System.pids)
  update fun s => { s with pids := pids }
  return pid

/-- `process_fork` in the process with the number `cur`; what the parent gets. -/
def processFork (cur : Nat) : Code D (BitVec 32) := do
  let current ← demand (fun s => s.procs[cur]?) .null
  let new ← asks fun s => s.procs.length + 1
  let as ← processDuplicateAs slabs current.as
  let (_, files) ← inside .vector (Vector.mapPutAll slabs.files current.files) (Vector.vectorNew slabs.files)
  let pid ← processNextpid slabs new
  update fun s => { s with procs := s.procs ++ [⟨pid, cur + 1, as, files⟩] }
  return pid

/-- `container_init`. -/
def containerInit (vm : Kernel D) : System D := ⟨vm, 0, treeNew, []⟩

/-- `process_init`. -/
def processInit : Code D Unit := do
  let pid ← processNextpid slabs 1
  update fun s => { s with procs := [⟨pid, 0, treeNew, Vector.vectorNew slabs.files⟩] }

end Code

/-! ### The table of processes -/

/-- A process, without its address space. -/
structure Entry where
  pid : BitVec 32
  parent : Nat
  files : BitVec 32 → Vector.Word

/-- Virtual memory with the address spaces of all processes, the next pid and the processes. -/
structure Table (D : Type) where
  vm : Kernel D
  nextpid : BitVec 32
  procs : List Entry

/-- The first of `pid`, `pid + 1`, … that is not in use. -/
def freshPid (used : List (BitVec 32)) : BitVec 32 → Nat → BitVec 32
  | pid, 0 => pid
  | pid, n + 1 => if used.contains pid then freshPid used (pid + 1) n else pid

def Table.newPid {D : Type} (t : Table D) : BitVec 32 := freshPid (t.procs.map Entry.pid) t.nextpid t.procs.length

/-- A fork: a process with a new pid, copies of the segments, and the same files. -/
def Table.fork {D : Type} (t : Table D) (cur : Nat) : BitVec 32 × Table D :=
  match Vm.processFork t.vm (cur + 1), t.procs[cur]? with
  | some vm, some e => (t.newPid, ⟨vm, t.newPid + 1, t.procs ++ [⟨t.newPid, cur + 1, e.files⟩]⟩)
  | _, _ => (0, t)

/-- There is the process, its segments can be copied, and pids are left. -/
def Table.Forks {D : Type} (t : Table D) (cur : Nat) : Prop :=
  cur < t.procs.length ∧ (Vm.processFork t.vm (cur + 1)).isSome ∧ t.procs.length < 2 ^ 32

/-! ### Pids -/

section Pid
variable {used : List (BitVec 32)} {pid : BitVec 32} {n : Nat}

/-- All numbers that were passed over are in use. -/
lemma freshPid_used (h : freshPid used pid n ∈ used) {i : Nat} (le : i ≤ n) : pid + BitVec.ofNat 32 i ∈ used := by
  induction n generalizing pid i with
  | zero =>
    obtain rfl := Nat.le_zero.mp le
    rw [BitVec.add_zero]
    exact h
  | succ n ih =>
    rw [freshPid] at h
    split at h
    · next mem =>
      cases i with
      | zero =>
        rw [BitVec.add_zero]
        exact List.contains_iff_mem.mp mem
      | succ i =>
        have next := ih h (Nat.le_of_succ_le_succ le)
        rw [BitVec.add_assoc] at next
        rw [Nat.add_comm, BitVec.ofNat_add]
        exact next
    · next free => exact absurd (List.contains_iff_mem.mpr h) free

/-- Some pid is left, if fewer than `2 ^ 32` are in use. -/
lemma freshPid_fresh (few : used.length < 2 ^ 32) (pid : BitVec 32) : freshPid used pid used.length ∉ used := by
  intro h
  have nodup : ((List.range (used.length + 1)).map fun i => pid + BitVec.ofNat 32 i).Nodup := by
    refine List.Nodup.map_on (fun i hi j hj e => ?_) List.nodup_range
    have hi := List.mem_range.mp hi
    have hj := List.mem_range.mp hj
    have e := congrArg BitVec.toNat ((BitVec.add_right_inj pid).mp e)
    rwa [BitVec.toNat_ofNat, BitVec.toNat_ofNat, Nat.mod_eq_of_lt, Nat.mod_eq_of_lt] at e <;> omega
  have sub : ((List.range (used.length + 1)).map fun i => pid + BitVec.ofNat 32 i) ⊆ used := by
    intro q mem
    obtain ⟨i, hi, rfl⟩ := List.mem_map.mp mem
    exact freshPid_used h (Nat.lt_succ_iff.mp (List.mem_range.mp hi))
  have length := (List.subperm_of_subset nodup sub).length_le
  rw [List.length_map, List.length_range] at length
  omega

end Pid

/-! ### Address spaces -/

section Space
variable {D : Type} {segs done copies : List Segment} {seg copy : Segment} {m as : Mem Nat SegmentPtr} {vm vm' : Kernel D}

/-- The segment with the base. -/
def segmentAt (segs : List Segment) (base : Nat) : Option SegmentPtr :=
  (segs.find? fun seg => seg.base.toNat = base).map some

/-- The bases ascend. -/
def Ascend (segs : List Segment) : Prop := segs.Pairwise fun a b => a.base.toNat < b.base.toNat

/-- What the walk of an address space calls the function with. -/
def bindingsOf (segs : List Segment) : List (Nat × SegmentPtr) := segs.map fun seg => (seg.base.toNat, some seg)

/-- The map of segments with one more copy. -/
lemma segmentAt_snoc (new : ∀ a ∈ done, a.base.toNat ≠ copy.base.toNat) :
    segmentAt (done ++ [copy]) = Function.update (segmentAt done) copy.base.toNat (some (some copy)) := by
  funext base
  rw [segmentAt, List.find?_append, Function.update_apply]
  by_cases e : base = copy.base.toNat
  · have none : done.find? (fun seg => seg.base.toNat = base) = none := by
      rw [List.find?_eq_none]
      intro a mem
      rw [e]
      exact fun h => new a mem (of_decide_eq_true h)
    rw [if_pos e, none, List.find?_singleton, if_pos (decide_eq_true e.symm)]
    rfl
  · rw [if_neg e, List.find?_singleton, if_neg (fun h => e (of_decide_eq_true h).symm), Option.or_none]
    rfl

/-- The bindings of the map of segments. -/
lemma mem_bindingsOf (ascend : Ascend segs) (base : Nat) (d : SegmentPtr) :
    (base, d) ∈ bindingsOf segs ↔ segmentAt segs base = some d := by
  induction segs with
  | nil => exact iff_of_false List.not_mem_nil (Option.some_ne_none d).symm
  | cons seg segs ih =>
    obtain ⟨above, ascend⟩ := List.pairwise_cons.mp ascend
    rw [bindingsOf, List.map_cons, List.mem_cons, segmentAt, List.find?_cons]
    by_cases e : seg.base.toNat = base
    · rw [decide_eq_true e]
      constructor
      · rintro (same | mem)
        · exact congrArg some (Prod.mk.inj same).2.symm
        · obtain ⟨other, mem, same⟩ := List.mem_map.mp mem
          have := above other mem
          have := (Prod.mk.inj same).1
          omega
      · intro same
        exact .inl (Prod.ext e.symm (Option.some.inj same).symm)
    · rw [decide_eq_false e, or_iff_right (fun same => e (Prod.mk.inj same).1.symm)]
      exact ih ascend

/-- `tree_walk` on the tree of an address space. -/
lemma walk_space (h : Tree.Table (t := keys) mapKeycmp_strict m (segmentAt segs)) (ascend : Ascend segs) :
    Emits treeWalk m () (bindingsOf segs) m := by
  obtain ⟨calls, walk, ordered, mem⟩ := h.walk
  have irrefl : Std.Irrefl fun a b : Nat × SegmentPtr => a.1 < b.1 := ⟨fun a => Nat.lt_irrefl a.1⟩
  have antisymm : Std.Antisymm fun a b : Nat × SegmentPtr => a.1 < b.1 :=
    ⟨fun a b lt gt => absurd lt (Nat.lt_asymm gt)⟩
  have sorted : calls.Pairwise fun a b => a.1 < b.1 := by
    refine ordered.imp fun {a b} neg => ?_
    have neg : mapKeycmp a.1 b.1 < 0 := neg
    unfold mapKeycmp at neg
    split_ifs at neg <;> omega
  have sorted' : (bindingsOf segs).Pairwise fun a b => a.1 < b.1 := List.pairwise_map.mpr ascend
  have same := sorted.eq_of_mem_iff sorted' fun b => (mem b.1 b.2).trans (mem_bindingsOf ascend b.1 b.2).symm
  rwa [same] at walk

/-- Virtual memory without the address spaces of the processes. -/
def bare (vm : Kernel D) : Kernel D := { vm with procs := [] }

/-- New objects have nothing to do with the address spaces. -/
lemma vmObjectAnonCopy_bare {o : Nat} {r : Nat × Kernel D} (h : vmObjectAnonCopy vm o = some r) :
    vmObjectAnonCopy (bare vm) o = some (r.1, bare r.2) ∧ r.2.procs = vm.procs := by
  rw [vmObjectAnonCopy] at h ⊢
  rw [show (bare vm).objects o = vm.objects o from rfl]
  split at h
  · cases h
    exact ⟨rfl, rfl⟩
  · cases h

/-- A new object does not depend on the processes. -/
lemma vmObjectAnon_bare {o : Nat} {r : Nat × Kernel D} (h : vmObjectAnon vm o = some r) :
    vmObjectAnon (bare vm) o = some (r.1, bare r.2) ∧ r.2.procs = vm.procs := by
  rw [vmObjectAnon] at h ⊢
  rw [show (bare vm).objects o = vm.objects o from rfl]
  split at h
  · cases h
    exact ⟨rfl, rfl⟩
  · cases h
    exact ⟨rfl, rfl⟩
  · cases h
    exact ⟨rfl, rfl⟩
  · cases h

/-- Copying a segment has nothing to do with the address spaces, and keeps the base. -/
lemma vmSegmentCopy_bare (h : vmSegmentCopy vm seg = some (copy, vm')) :
    vmSegmentCopy (bare vm) seg = some (copy, bare vm') ∧ vm'.procs = vm.procs ∧ copy.base = seg.base := by
  rw [vmSegmentCopy] at h ⊢
  split at h
  · next ne =>
    obtain ⟨made, copy, h⟩ := Option.bind_eq_some_iff.mp h
    cases h
    obtain ⟨copy, procs⟩ := vmObjectAnonCopy_bare copy
    rw [if_pos ne, copy]
    exact ⟨rfl, procs, rfl⟩
  · next same =>
    obtain ⟨made, anon, h⟩ := Option.bind_eq_some_iff.mp h
    cases h
    obtain ⟨anon, procs⟩ := vmObjectAnon_bare anon
    rw [if_neg same, anon]
    exact ⟨rfl, procs, rfl⟩

/-- Copies, one after the other, in a tree that has the ones made before. -/
lemma copySegs_returns {slabs : Slabs} {s : System D} (h : Tree.Table (t := keys) mapKeycmp_strict as (segmentAt done))
    (copied : Vm.processDuplicateAs vm segs = some (copies, vm')) (ascend : Ascend (done ++ segs))
    (state : s.vm = bare vm) : ∃ as', Returns (copySegs slabs (bindingsOf segs) as) s as' { s with vm := bare vm' } ∧
      Tree.Table (t := keys) mapKeycmp_strict as' (segmentAt (done ++ copies)) ∧ Ascend (done ++ copies) ∧
      vm'.procs = vm.procs := by
  induction segs generalizing vm done as s copies with
  | nil =>
    cases copied
    rw [List.append_nil, ← state]
    rw [List.append_nil] at ascend
    exact ⟨as, .pure _ _, h, ascend, rfl⟩
  | cons seg segs ih =>
    obtain ⟨⟨copy, vm1⟩, first, copied⟩ := Option.bind_eq_some_iff.mp copied
    obtain ⟨⟨rest, vm2⟩, copied, last⟩ := Option.bind_eq_some_iff.mp copied
    cases last
    obtain ⟨bare1, procs, base⟩ := vmSegmentCopy_bare first
    have new : ∀ a ∈ done, a.base.toNat ≠ copy.base.toNat := fun a mem => by
      have := (List.pairwise_append.mp ascend).2.2 a mem seg List.mem_cons_self
      rw [base]
      omega
    obtain ⟨as1, put, h1⟩ := h.put slabs.as copy.base.toNat (some copy)
    rw [← segmentAt_snoc new] at h1
    have ascend1 : Ascend ((done ++ [copy]) ++ segs) := by
      have same : (done ++ [copy] ++ segs).map (fun seg => seg.base.toNat) =
          (done ++ seg :: segs).map fun seg => seg.base.toNat := by
        simp only [List.map_append, List.map_cons, List.append_assoc, List.singleton_append, base]
      have sorted := List.pairwise_map.mpr ascend
      rw [← same] at sorted
      exact List.pairwise_map.mp sorted
    obtain ⟨as', run, h', ascend', procs'⟩ := ih (s := { s with vm := bare vm1 }) h1 copied ascend1 rfl
    rw [List.append_assoc] at h' ascend'
    refine ⟨as', ?_, h', ascend', procs'.trans procs⟩
    have copy : Returns (copySegment seg) s copy { s with vm := bare vm1 } := by
      rw [← state] at bare1
      exact .bind (.demand bare1) (.bind (.update _ _) (.pure _ _))
    rw [base] at put
    exact .bind (.demand rfl) (.bind copy (.bind (put.inside _) run))

/-- `process_duplicate_as` makes the tree of the copies. -/
lemma duplicate_returns (slabs : Slabs) {s : System D} (h : Tree.Table (t := keys) mapKeycmp_strict m (segmentAt segs))
    (ascend : Ascend segs) (copied : Vm.processDuplicateAs vm segs = some (copies, vm')) (state : s.vm = bare vm) :
    ∃ as', Returns (processDuplicateAs slabs m) s as' { s with vm := bare vm' } ∧
      Tree.Table (t := keys) mapKeycmp_strict as' (segmentAt copies) ∧ Ascend copies ∧ vm'.procs = vm.procs := by
  have empty : Tree.Table (t := keys) mapKeycmp_strict treeNew (segmentAt []) := table_new
  obtain ⟨as', run, h', ascend', procs⟩ := copySegs_returns (s := s) empty copied ascend state
  exact ⟨as', .bind ((walk_space h ascend).collect.inside s) run, h', ascend', procs⟩

end Space

/-! ### Runs of forks -/

/-- The maps of a process. -/
structure Stands (p : Record) (e : Entry) (segs : List Segment) : Prop where
  pid : p.pid = e.pid
  parent : p.parent = e.parent
  as : Tree.Table (t := keys) mapKeycmp_strict p.as (segmentAt segs)
  ascend : Ascend segs
  files : Vector.Rep p.files e.files
  sizes : ∀ i, e.files i ≠ 0 → ¬Vector.AtSize i.toNat

/-- The processes are those of the table, and `pids` leads from a pid to the process. -/
structure Rep {D : Type} (s : System D) (t : Table D) : Prop where
  vm : s.vm = bare t.vm
  nextpid : s.nextpid = t.nextpid
  length : s.procs.length = t.procs.length
  spaces : t.vm.procs.length = t.procs.length
  procs : ∀ (i : Nat) (p : Record) (e : Entry) (segs : List Segment), s.procs[i]? = some p → t.procs[i]? = some e →
    t.vm.procs[i]? = some segs → Stands p e segs
  pids : ∃ f, Tree.Table (t := keys) mapKeycmp_strict s.pids f ∧
    ∀ (k x : Nat), f k = some x ↔ ∃ i e, t.procs[i]? = some e ∧ e.pid.toNat = k ∧ x = i + 1
  nodup : (t.procs.map Entry.pid).Nodup

section Run
variable {D : Type} {slabs : Slabs} {s : System D} {t : Table D}

/-- The search for a pid that is not in use. -/
lemma nextLoop_returns {used : List (BitVec 32)} {f : Nat → Option Nat} {n : Nat}
    (table : Tree.Table (t := keys) mapKeycmp_strict s.pids f)
    (found : ∀ pid : BitVec 32, (f pid.toNat).getD 0 ≠ 0 ↔ pid ∈ used) (fresh : freshPid used s.nextpid n ∉ used) :
    ∃ pids, Returns (loop nextStep ()) s (freshPid used s.nextpid n)
        { s with nextpid := freshPid used s.nextpid n + 1, pids := pids } ∧
      Tree.Table (t := keys) mapKeycmp_strict pids f := by
  induction n generalizing s with
  | zero =>
    obtain ⟨pids, get, table'⟩ := table.get s.nextpid.toNat
    have none := (found s.nextpid).not.mpr fresh
    exact ⟨pids, .exit (.bind (.asks _ _) (.bind (.update _ _) (.bind (.asks _ _) (.bind (get.inside _)
      (.bind (.update _ _) (.ite_neg none (.pure _ _))))))), table'⟩
  | succ n ih =>
    obtain ⟨pids, get, table'⟩ := table.get s.nextpid.toNat
    rw [freshPid] at fresh ⊢
    split at fresh
    · next mem =>
      rw [if_pos mem]
      obtain ⟨pids', run, table''⟩ := ih (s := { s with nextpid := s.nextpid + 1, pids := pids }) table' fresh
      have some := (found s.nextpid).mpr (List.contains_iff_mem.mp mem)
      exact ⟨pids', .turn (.bind (.asks _ _) (.bind (.update _ _) (.bind (.asks _ _) (.bind (get.inside _)
        (.bind (.update _ _) (.ite_pos some (.pure _ _))))))) run, table''⟩
    · next free =>
      rw [if_neg free]
      have none := (found s.nextpid).not.mpr fun mem => free (List.contains_iff_mem.mpr mem)
      exact ⟨pids, .exit (.bind (.asks _ _) (.bind (.update _ _) (.bind (.asks _ _) (.bind (get.inside _)
        (.bind (.update _ _) (.ite_neg none (.pure _ _))))))), table'⟩

/-- What `process_nextpid` does to the pids of the table. -/
lemma nextpid_returns (slabs : Slabs) {procs : List Entry} {f : Nat → Option Nat}
    (table : Tree.Table (t := keys) mapKeycmp_strict s.pids f)
    (data : ∀ (k x : Nat), f k = some x ↔ ∃ i e, procs[i]? = some e ∧ e.pid.toNat = k ∧ x = i + 1)
    (few : procs.length < 2 ^ 32) (process : Nat) : ∃ pids pid,
      pid = freshPid (procs.map Entry.pid) s.nextpid procs.length ∧ pid ∉ procs.map Entry.pid ∧
      Returns (processNextpid slabs process) s pid { s with nextpid := pid + 1, pids := pids } ∧
      Tree.Table (t := keys) mapKeycmp_strict pids (Function.update f pid.toNat (some process)) := by
  have found : ∀ pid : BitVec 32, (f pid.toNat).getD 0 ≠ 0 ↔ pid ∈ procs.map Entry.pid := by
    intro pid
    rw [List.mem_map]
    constructor
    · intro nz
      cases hx : f pid.toNat with
      | none =>
        rw [hx] at nz
        exact absurd rfl nz
      | some x =>
        obtain ⟨i, e, he, same, -⟩ := (data _ _).mp hx
        exact ⟨e, List.mem_of_getElem? he, BitVec.eq_of_toNat_eq same⟩
    · rintro ⟨e, mem, rfl⟩
      obtain ⟨i, he⟩ := List.mem_iff_getElem?.mp mem
      rw [(data _ _).mpr ⟨i, e, he, rfl, rfl⟩]
      exact Nat.succ_ne_zero i
  have few : (procs.map Entry.pid).length < 2 ^ 32 := by rwa [List.length_map]
  have fresh := freshPid_fresh few s.nextpid
  rw [List.length_map] at fresh
  obtain ⟨pids, search, table⟩ := nextLoop_returns table found fresh
  obtain ⟨pids', put, table'⟩ := table.put slabs.pids (freshPid (procs.map Entry.pid) s.nextpid procs.length).toNat
    process
  exact ⟨pids', _, rfl, fresh, .bind search (.bind (.asks _ _) (.bind (put.inside _) (.bind (.update _ _) (.pure _ _)))),
    table'⟩

/-- An element of a list with one more. -/
lemma getElem?_snoc {α : Type} {l : List α} {x a : α} {i : Nat} (h : (l ++ [x])[i]? = some a) :
    l[i]? = some a ∨ i = l.length ∧ a = x := by
  rcases Nat.lt_or_ge i l.length with lt | ge
  · rw [List.getElem?_append_left lt] at h
    exact .inl h
  · have lt : i < (l ++ [x]).length := (List.getElem?_eq_some_iff.mp h).1
    rw [List.length_append, List.length_singleton] at lt
    obtain rfl : i = l.length := by omega
    rw [List.getElem?_concat_length] at h
    exact .inr ⟨rfl, (Option.some.inj h).symm⟩

/-- A process more. -/
lemma Rep.snoc (h : Rep s t) {vm : Kernel D} {pids : Mem Nat Nat} {f : Nat → Option Nat} {p : Record} {e : Entry}
    {segs : List Segment} (procs : vm.procs = t.vm.procs) (stands : Stands p e segs)
    (data : ∀ (k x : Nat), f k = some x ↔ ∃ i e, t.procs[i]? = some e ∧ e.pid.toNat = k ∧ x = i + 1)
    (fresh : e.pid ∉ t.procs.map Entry.pid)
    (table : Tree.Table (t := keys) mapKeycmp_strict pids (Function.update f e.pid.toNat (some (t.procs.length + 1)))) :
    Rep ⟨bare vm, e.pid + 1, pids, s.procs ++ [p]⟩
      ⟨{ vm with procs := vm.procs ++ [segs] }, e.pid + 1, t.procs ++ [e]⟩ where
  vm := rfl
  nextpid := rfl
  length := by
    rw [List.length_append, List.length_append, h.length]
    rfl
  spaces := by
    show (vm.procs ++ [segs]).length = _
    rw [List.length_append, List.length_append, procs, h.spaces]
    rfl
  procs i p' e' segs' hp he hs := by
    have size := congrArg List.length procs
    have length := h.length
    have spaces := h.spaces
    rcases getElem?_snoc hp with hp | ⟨at_p, rfl⟩
    · have lt := (List.getElem?_eq_some_iff.mp hp).1
      rcases getElem?_snoc he with he | ⟨at_e, -⟩
      · rcases getElem?_snoc hs with hs | ⟨at_s, -⟩
        · exact h.procs i p' e' segs' hp he (procs ▸ hs)
        · omega
      · omega
    · rcases getElem?_snoc he with he | ⟨-, rfl⟩
      · have := (List.getElem?_eq_some_iff.mp he).1
        omega
      · rcases getElem?_snoc hs with hs | ⟨-, rfl⟩
        · have := (List.getElem?_eq_some_iff.mp hs).1
          omega
        · exact stands
  pids := by
    refine ⟨_, table, fun k x => ?_⟩
    rw [Function.update_apply]
    split
    · next here =>
      constructor
      · rintro ⟨⟩
        exact ⟨t.procs.length, e, List.getElem?_concat_length, here.symm, rfl⟩
      · rintro ⟨i, e', he, same, rfl⟩
        rcases getElem?_snoc he with he | ⟨rfl, -⟩
        · have pid : e'.pid = e.pid := BitVec.eq_of_toNat_eq (same.trans here)
          exact absurd (pid ▸ List.mem_map_of_mem (List.mem_of_getElem? he)) fresh
        · rfl
    · next other =>
      rw [data]
      constructor
      · rintro ⟨i, e', he, same, rfl⟩
        have lt := (List.getElem?_eq_some_iff.mp he).1
        exact ⟨i, e', (List.getElem?_append_left lt).trans he, same, rfl⟩
      · rintro ⟨i, e', he, same, rfl⟩
        rcases getElem?_snoc he with he | ⟨-, rfl⟩
        · exact ⟨i, e', he, same, rfl⟩
        · exact absurd same.symm other
  nodup := by
    rw [List.map_append, List.map_singleton]
    exact List.nodup_append.mpr ⟨h.nodup, List.nodup_singleton _, fun a ha b hb e' =>
      fresh (List.mem_singleton.mp hb ▸ e' ▸ ha)⟩

/-- A fork adds the process of the table. -/
lemma processFork_returns (slabs : Slabs) {cur : Nat} (h : Rep s t) (forks : t.Forks cur) :
    ∃ s', Returns (processFork slabs cur) s (t.fork cur).1 s' ∧ Rep s' (t.fork cur).2 := by
  obtain ⟨lt, some_vm, few⟩ := forks
  obtain ⟨vm', copied⟩ := Option.isSome_iff_exists.mp some_vm
  obtain ⟨e, he⟩ : ∃ e, t.procs[cur]? = some e := ⟨_, List.getElem?_eq_getElem lt⟩
  obtain ⟨p, hp⟩ : ∃ p, s.procs[cur]? = some p := ⟨_, List.getElem?_eq_getElem (h.length ▸ lt)⟩
  obtain ⟨segs, hsegs⟩ : ∃ segs, t.vm.procs[cur]? = some segs := ⟨_, List.getElem?_eq_getElem (h.spaces ▸ lt)⟩
  have stands := h.procs cur p e segs hp he hsegs
  have space : t.vm.space (cur + 1) = segs := by
    show t.vm.procs.getD cur [] = segs
    rw [List.getD_eq_getElem?_getD, hsegs]
    rfl
  rw [Table.fork, copied, he]
  obtain ⟨⟨copies, vm1⟩, dup, last⟩ := Option.bind_eq_some_iff.mp copied
  cases last
  rw [space] at dup
  obtain ⟨as, dup_run, as_table, ascend, procs⟩ := duplicate_returns slabs stands.as stands.ascend dup h.vm
  obtain ⟨files, files_run, files_rep⟩ := Vector.mapPutAll_copies slabs.files p.files e.files stands.files stands.sizes
  obtain ⟨f, table, data⟩ := h.pids
  obtain ⟨pids, pid, e_pid, fresh, pid_run, table'⟩ :=
    nextpid_returns slabs (s := { s with vm := bare vm1 }) table data few (s.procs.length + 1)
  have new : pid = t.newPid := by
    rw [e_pid, Table.newPid, ← h.nextpid]
  rw [← new]
  have run : Returns (processFork slabs cur) s pid
      ⟨bare vm1, pid + 1, pids, s.procs ++ [⟨pid, cur + 1, as, files⟩]⟩ :=
    .bind (.demand hp) (.bind (.asks _ _) (.bind dup_run (.bind (files_run.inside _) (.bind pid_run
      (.bind (.update _ _) (.pure _ _))))))
  rw [h.length] at table'
  exact ⟨_, run, h.snoc procs (e := ⟨pid, cur + 1, e.files⟩) ⟨rfl, rfl, as_table, ascend, files_rep, stands.sizes⟩ data
    fresh table'⟩

/-- The table after `process_init`. -/
def Table.init (vm : Kernel D) : Table D := ⟨{ vm with procs := [[]] }, 1, [⟨0, 0, fun _ => 0⟩]⟩

/-- The first process gets the pid `0`. -/
lemma first_returns (slabs : Slabs) (vm : Kernel D) {as : Mem Nat SegmentPtr} {files : Vector.Mem}
    {f : BitVec 32 → Vector.Word} {segs : List Segment} (stands : Stands ⟨0, 0, as, files⟩ ⟨0, 0, f⟩ segs) :
    ∃ pids, Returns (processNextpid slabs 1) (containerInit (bare vm)) 0 ⟨bare vm, 1, pids, []⟩ ∧
      Rep ⟨bare vm, 1, pids, [⟨0, 0, as, files⟩]⟩ ⟨{ vm with procs := [segs] }, 1, [⟨0, 0, f⟩]⟩ := by
  have none : ∀ (k x : Nat), (fun _ => none : Nat → Option Nat) k = some x ↔
      ∃ i e, ([] : List Entry)[i]? = some e ∧ e.pid.toNat = k ∧ x = i + 1 := fun k x =>
    iff_of_false (Option.some_ne_none x).symm fun h => by
      obtain ⟨i, e, he, -⟩ := h
      exact Option.some_ne_none e (he.symm.trans List.getElem?_nil)
  obtain ⟨pids, pid, e_pid, -, run, table⟩ := nextpid_returns slabs (s := containerInit (bare vm)) table_new none
    (by decide) 1
  obtain rfl : pid = 0 := e_pid
  have empty : Rep (containerInit (bare vm)) ⟨bare vm, 0, []⟩ :=
    ⟨rfl, rfl, rfl, rfl, fun i p e segs hp => absurd (hp.symm.trans List.getElem?_nil) (Option.some_ne_none p),
      ⟨_, table_new, none⟩, .nil⟩
  have same : (bare vm).procs = (⟨bare vm, 0, []⟩ : Table D).vm.procs := rfl
  exact ⟨pids, run, empty.snoc same stands none List.not_mem_nil table⟩

/-- The first process has no segments and no files. -/
lemma processInit_returns (slabs : Slabs) (vm : Kernel D) :
    ∃ s, Returns (processInit slabs) (containerInit (bare vm)) () s ∧ Rep s (Table.init vm) := by
  have stands : Stands ⟨0, 0, treeNew, Vector.vectorNew slabs.files⟩ ⟨0, 0, fun _ => 0⟩ [] :=
    ⟨rfl, rfl, table_new, .nil, Vector.rep_new slabs.files, fun _ nz => absurd rfl nz⟩
  obtain ⟨pids, run, rep⟩ := first_returns slabs vm stands
  exact ⟨_, .bind run (.update _ _), rep⟩

/-- There is a tree with these segments. -/
lemma exists_space (slabs : Slabs) {segs : List Segment} (ascend : Ascend segs) :
    ∃ as, Tree.Table (t := keys) mapKeycmp_strict as (segmentAt segs) := by
  induction segs using List.reverseRecOn with
  | nil => exact ⟨treeNew, table_new⟩
  | append_singleton segs seg ih =>
    obtain ⟨before, -, above⟩ := List.pairwise_append.mp ascend
    obtain ⟨as, table⟩ := ih before
    obtain ⟨as', -, table'⟩ := table.put slabs.as seg.base.toNat (some seg)
    rw [← segmentAt_snoc fun a mem => (above a mem seg List.mem_cons_self).ne] at table'
    exact ⟨as', table'⟩

/-- Some free slots. -/
noncomputable def anySlabs : Slabs := ⟨anyFree Nat Nat, anyFree Nat SegmentPtr, Vector.oneFirst⟩

/-- Nothing is mapped. -/
def noMemory : Kernel Unit where
  objects _ := none
  fresh := 1
  page_cache _ _ := 0
  contents _ := ()
  pool := []
  tables _ _ := none
  kas := []
  procs := []

/-- A stack, a private segment of a file and memory of a device, and an open file. -/
def busyKernel : Kernel Unit where
  objects o := [none, some (.anon (fun _ => 0) none), some (.vnode 0), some (.anon (fun _ => 0) (some (.vnode 0))),
    some (.direct 0xb8 0x2000)].getD o none
  fresh := 5
  page_cache _ _ := 0
  contents _ := ()
  pool := [1, 2]
  tables _ _ := none
  kas := []
  procs := [[⟨0x10000, 0x1000, SEGMENT_R ||| SEGMENT_W ||| SEGMENT_P, 1, 0, 0⟩,
    ⟨0x20000, 0x2000, SEGMENT_R ||| SEGMENT_P, 3, 0, 2⟩, ⟨0x30000, 0x2000, SEGMENT_R ||| SEGMENT_W, 4, 0, 4⟩]]

@[inherit_doc busyKernel]
def busyTable : Table Unit := ⟨busyKernel, 1, [⟨0, 0, Function.update (fun _ => 0) 1 7⟩]⟩

/-- There are systems that are like this. -/
lemma exists_busy : ∃ s, Rep s busyTable := by
  have ascend : Ascend (busyKernel.procs.headD []) := by
    rw [Ascend]
    decide
  obtain ⟨as, table⟩ := exists_space anySlabs ascend
  have power : ∀ k, 1 = 64 ^ k → k = 0 := fun k e => by
    by_contra nz
    have := Nat.le_self_pow nz 64
    omega
  have fits : Vector.Fits (Vector.vectorNew anySlabs.files) (.put 1 7) :=
    ⟨by decide, fun k e => power k e ▸ Nat.zero_le _⟩
  obtain ⟨files, -, rep⟩ := Vector.put_returns anySlabs.files (Vector.rep_new anySlabs.files) fits
  have sizes : ∀ i, Function.update (fun _ => 0) (1 : BitVec 32) (7 : Vector.Word) i ≠ 0 → ¬Vector.AtSize i.toNat := by
    intro i nz
    rw [Function.update_apply] at nz
    split at nz
    · next here =>
      rw [here]
      rintro ⟨k, e⟩
      exact Nat.succ_ne_zero k (power _ e)
    · exact absurd rfl nz
  obtain ⟨pids, -, rep⟩ := first_returns anySlabs busyKernel ⟨rfl, rfl, table, ascend, rep, sizes⟩
  exact ⟨_, rep⟩

end Run

end Twcos.Process
