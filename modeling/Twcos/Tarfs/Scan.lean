import Twcos.Prog.Keeps
import Twcos.Tarfs.Vnodes
import Mathlib.Algebra.Order.BigOperators.Group.List
import Mathlib.Algebra.Order.Group.Nat

/-!
# What a scan makes of an archive

An archive of regular files, and what resolving names in it should give (`Serves`).
-/

namespace Twcos.Tarfs
open Twcos.Prog Twcos.Text

/-- A component of a path. -/
def IsComponent (c : Str) : Prop := c ≠ [] ∧ ∀ b ∈ c, b ≠ slash ∧ b ≠ 0

/-- The text of a path. -/
def render (rooted : Bool) (path : List Str) : Str :=
  (if rooted then [slash] else []) ++ [slash].intercalate path

/-- An entry of an archive: its header, and the path that the header gives. -/
structure Entry where
  header : Block
  rooted : Bool
  path : List Str

/-- A valid header of a regular file with that path. -/
structure Entry.Valid (e : Entry) : Prop where
  valid : tarfsValidate e.header = true
  regular : isRegular e.header = true
  fullname : tarfsFullname e.header = some (render e.rooted e.path)
  nonempty : e.path ≠ []
  components : ∀ c ∈ e.path, IsComponent c

/-- From the offset on, the device has the entries one after the other, and then no valid header. -/
def Archive (dev : BitVec 64 → Option Block) : BitVec 64 → List Entry → Prop
  | offset, [] => ∀ h, dev (offset &&& ~~~511) = some h → tarfsValidate h = false
  | offset, e :: es => dev (offset &&& ~~~511) = some e.header ∧ e.Valid ∧
    Archive dev (tarfsNextheader e.header offset) es

/-- A file: its path, its size and the offset of its header. -/
structure File where
  path : List Str
  size : BitVec 32
  offset : BitVec 64

/-- The files of an archive. -/
def files : BitVec 64 → List Entry → List File
  | _, [] => []
  | offset, e :: es =>
    ⟨e.path, tarfsOtoi (field e.header 124 12), offset⟩ :: files (tarfsNextheader e.header offset) es

/-- Paths resolve to the last files with these paths, their prefixes to directories, and nothing else resolves. -/
structure Correct (fs : TarfsT) (root : TarfsNode) (files : List File) : Prop where
  file : ∀ earlier f later, files = earlier ++ f :: later → (∀ g ∈ later, g.path ≠ f.path) →
    ∃ v, Returns (resolve root f.path) fs (some v) fs ∧ v.size = f.size ∧ v.offset = f.offset
  directory : ∀ f ∈ files, ∀ path, path <+: f.path → path ≠ f.path →
    ∃ v, Returns (resolve root path) fs (some v) fs ∧ v.type = .directory
  other : ∀ path, (∀ c ∈ path, IsComponent c) → path ≠ [] → (∀ f ∈ files, ¬path <+: f.path) →
    Returns (resolve root path) fs none fs

/-- The scan ends, and whatever the new memory held before, resolving names is correct. -/
def Serves (dev : BitVec 64 → Option Block) (es : List Entry) : Prop :=
  ∀ junk, ∃ fs root, Returns (tarfsScan dev junk) tarfsNew () fs ∧ fs.vnodes 1 = some root ∧
    Correct fs root (files 0 es)

/-! ### Resolving -/

/-- What the map of directory entries has for a name in a directory. -/
def lookupInode (fs : TarfsT) (dir : BitVec 64) (name : Str) : BitVec 32 :=
  ((fs.tree.find? fun b => tarfsDirentCmp ⟨dir, name⟩ b.1 = 0).map Prod.snd).getD 0

/-- The low word of a difference. -/
lemma setWidth_sub (x y : BitVec 64) : (x - y).setWidth 32 = x.setWidth 32 - y.setWidth 32 := by
  apply BitVec.eq_of_toNat_eq
  simp only [BitVec.toNat_setWidth, BitVec.toNat_sub]
  omega

section Resolve
variable {fs : TarfsT} {node node' v : TarfsNode} {path path' : List Str}

/-- Resolving a path goes on with the node of the first name. -/
lemma resolve_cons (node : TarfsNode) (name : Str) (path : List Str) (n : Nat) (fs : TarfsT) :
    resolve node (name :: path) n fs =
      match vnodeAt fs (lookupInode fs node.inode name) with
      | .ok none => .ok (none, fs)
      | .ok (some next) => resolve next path n fs
      | .error e => .error e := by
  have get : tarfsGetVnode node name n fs = (vnodeAt fs (lookupInode fs node.inode name)).map fun r => (r, fs) :=
    vnodesGet_run (lookupInode fs node.inode name) n fs
  have run : resolve node (name :: path) n fs =
      match tarfsGetVnode node name n fs with
      | .ok (none, s) => .ok (none, s)
      | .ok (some next, s) => resolve next path n s
      | .error e => .error e := by
    show Prog.bind _ _ n fs = _
    rw [Prog.bind]
    cases tarfsGetVnode node name n fs with
    | error e => rfl
    | ok r =>
      obtain ⟨next, s⟩ := r
      cases next with
      | none => rfl
      | some next => rfl
  rw [run, get]
  rcases vnodeAt fs (lookupInode fs node.inode name) with e | _ | next <;> rfl

/-- There is no loop in it. -/
lemma resolve_budget (n : Nat) : resolve node path n fs = resolve node path 0 fs := by
  induction path generalizing node with
  | nil => rfl
  | cons c path ih => simp only [resolve_cons, ih]

/-- Resolving a path needs no budget. -/
lemma returns_resolve {r : Option TarfsNode} :
    Returns (resolve node path) fs r fs ↔ resolve node path 0 fs = .ok (r, fs) := by
  constructor
  · rintro ⟨n, run⟩
    rw [← resolve_budget n]
    exact run n (le_refl n)
  · intro run
    refine .of_eq fun n => ?_
    rw [resolve_budget]
    exact run

/-- Resolving a path in two parts. -/
lemma resolve_append {r : Option TarfsNode} (h : Returns (resolve node path) fs (some v) fs)
    (h' : Returns (resolve v path') fs r fs) : Returns (resolve node (path ++ path')) fs r fs := by
  rw [returns_resolve] at h h' ⊢
  induction path generalizing node with
  | nil =>
    cases h
    exact h'
  | cons c path ih =>
    rw [resolve_cons] at h
    rw [List.cons_append, resolve_cons]
    split at h
    · cases h
    · exact ih h
    · cases h

/-- A node that names lead to is one of the vnodes. -/
lemma vnode_of_resolve (h : Returns (resolve node path) fs (some v) fs) (ne : path ≠ []) :
    ∃ i, fs.Holds i v := by
  rw [returns_resolve] at h
  induction path generalizing node with
  | nil => exact absurd rfl ne
  | cons c path ih =>
    rw [resolve_cons] at h
    split at h
    · cases h
    · next next found =>
      by_cases last : path = []
      · subst last
        cases h
        exact ⟨_, vnodeAt_some found⟩
      · exact ih h last
    · cases h

/-- Only the lower half of an inode makes a difference. -/
lemma resolve_congr (same : node.inode.setWidth 32 = node'.inode.setWidth 32) (ne : path ≠ []) :
    resolve node path 0 fs = resolve node' path 0 fs := by
  have cmp : ∀ name e, tarfsDirentCmp ⟨node.inode, name⟩ e = tarfsDirentCmp ⟨node'.inode, name⟩ e := by
    intro name e
    have diff : (node.inode - e.dir).setWidth 32 = (node'.inode - e.dir).setWidth 32 := by
      rw [setWidth_sub, setWidth_sub, same]
    simp only [tarfsDirentCmp, diff]
  cases path with
  | nil => exact absurd rfl ne
  | cons c path =>
    have lookup : lookupInode fs node.inode c = lookupInode fs node'.inode c := by
      simp only [lookupInode, cmp]
    rw [resolve_cons, resolve_cons, lookup]

end Resolve

/-! ### What is left in the nodes -/

/-- The inode of a file and the offset of a directory are what the memory held before. -/
def Uncleared (j : Junk) (fs : TarfsT) : Prop :=
  ∀ i v, fs.Holds i v → v.inode = j.inode ∨ v.offset = j.offset ∧ v.inode.setWidth 32 = i

section Uncleared
variable {j : Junk}

/-- A node that is good may be put. -/
lemma vnodesPut_keeps {inode : BitVec 64} {node : TarfsNode}
    (h : node.inode = j.inode ∨ node.offset = j.offset ∧ node.inode = inode) :
    Keeps (Uncleared j) (vnodesPut inode node) := by
  intro n fs _ fs' hfs run i v held
  rcases (vnodesPut_result run).2 i v held with held | ⟨rfl, rfl⟩
  · exact hfs i v held
  · rcases h with h | ⟨h, rfl⟩
    · exact .inl h
    · exact .inr ⟨h, rfl⟩

/-- Adding an entry keeps the nodes uncleared. -/
lemma treePut_keeps (dirent : TarfsDirent) (inode : BitVec 64) : Keeps (Uncleared j) (treePut dirent inode) :=
  .update fun _ hfs => hfs

/-- Taking a number keeps the nodes uncleared. -/
lemma nextInode_keeps : Keeps (Uncleared j) nextInode :=
  .bind (.asks _) fun _ => .bind (.update fun _ hfs => hfs) fun _ => .pure _

/-- Allocating a node keeps the nodes uncleared. -/
lemma mallocNode_keeps (junk : Nat → Junk) : Keeps (Uncleared j) (mallocNode junk) :=
  .bind (.asks _) fun _ => .bind (.update fun _ hfs => hfs) fun _ => .pure _

/-- A new node holds what memory held. -/
lemma mallocNode_result (n : Nat) (fs : TarfsT) (j' : Junk) (fs' : TarfsT)
    (h : mallocNode (fun _ => j) n fs = .ok (j', fs')) : j' = j := by
  cases h
  rfl

/-- Making up a directory keeps the nodes uncleared. -/
lemma addDir_keeps (dnode : BitVec 64) (dir : Str) : Keeps (Uncleared j) (addDir (fun _ => j) dnode dir) := by
  rw [addDir]
  split
  · exact .pure _
  · refine .bind (.asks _) fun inode => .bind (.when ?_) fun _ => .pure _
    refine .bind_of (mallocNode_keeps _) mallocNode_result ?_
    rintro _ rfl
    exact .bind nextInode_keeps fun new => .bind (treePut_keeps _ _) fun _ => vnodesPut_keeps (.inr ⟨rfl, rfl⟩)

/-- Making up all missing directories keeps the nodes uncleared. -/
lemma addDirs_keeps (dnode : BitVec 64) (dirs : List Str) :
    Keeps (Uncleared j) (addDirs (fun _ => j) dnode dirs) := by
  induction dirs generalizing dnode with
  | nil => exact .pure _
  | cons dir dirs ih => exact .bind (addDir_keeps dnode dir) fun dnode => ih dnode

/-- Adding a node keeps the nodes uncleared. -/
lemma tarfsAddNode_keeps (fullname : Str) {node : TarfsNode} (h : node.inode = j.inode) :
    Keeps (Uncleared j) (tarfsAddNode (fun _ => j) fullname node) := by
  refine .bind (addDirs_keeps _ _) fun dnode => .bind (.asks _) fun inode => ?_
  split
  · exact vnodesPut_keeps (.inl h)
  · exact .bind nextInode_keeps fun inode => .bind (vnodesPut_keeps (.inl h)) fun _ => treePut_keeps _ _

/-- A turn of the scan keeps the nodes uncleared. -/
lemma scanBody_keeps (dev : BitVec 64 → Option Block) (offset : BitVec 64) :
    Keeps (Uncleared j) (scanBody dev (fun _ => j) offset) := by
  rw [scanBody]
  split
  · exact .pure _
  · split
    · exact .pure _
    · refine .bind (.when ?_) fun _ => .pure _
      refine .bind_of (mallocNode_keeps _) mallocNode_result ?_
      rintro _ rfl
      exact tarfsAddNode_keeps _ rfl

/-- The scan keeps the nodes uncleared. -/
lemma tarfsScan_keeps (dev : BitVec 64 → Option Block) : Keeps (Uncleared j) (tarfsScan dev fun _ => j) := by
  refine .bind_of (mallocNode_keeps _) mallocNode_result ?_
  rintro _ rfl
  exact .bind (vnodesPut_keeps (.inr ⟨rfl, rfl⟩)) fun _ =>
    .bind (.update fun _ hfs => hfs) fun _ => .loop (scanBody_keeps dev) 0

end Uncleared

/-! ### The archives that are served -/

/-- The last file of an archive. -/
lemma files_concat (offset : BitVec 64) {es : List Entry} (ne : es ≠ []) :
    ∃ earlier f, files offset es = earlier ++ [f] := by
  have nonempty : files offset es ≠ [] := by
    cases es with
    | nil => exact absurd rfl ne
    | cons e es => exact List.cons_ne_nil _ _
  exact ⟨_, _, (List.dropLast_concat_getLast nonempty).symm⟩

/-- The paths of an archive are paths. -/
lemma files_valid {dev : BitVec 64 → Option Block} {offset : BitVec 64} {es : List Entry}
    (archive : Archive dev offset es) :
    ∀ f ∈ files offset es, f.path ≠ [] ∧ ∀ c ∈ f.path, IsComponent c := by
  induction es generalizing offset with
  | nil => exact nofun
  | cons e es ih =>
    obtain ⟨-, valid, rest⟩ := archive
    intro f hf
    rcases List.mem_cons.mp hf with rfl | hf
    · exact ⟨valid.nonempty, valid.components⟩
    · exact ih rest f hf

/-- A path, `k` times. -/
def again (k : Nat) (path : List Str) : List Str := (List.replicate k path).flatten

/-- A path that is repeated gets longer. -/
lemma length_again (k : Nat) {path : List Str} (ne : path ≠ []) : k ≤ (again k path).length := by
  have pos := List.length_pos_iff.mpr ne
  rw [again, List.length_flatten, List.map_replicate, List.sum_replicate_nat]
  exact Nat.le_mul_of_pos_right k pos

/-- If the inode of a file is the root's, its path can be resolved again and again. -/
lemma resolve_again {fs : TarfsT} {root v : TarfsNode} {path : List Str} (ne : path ≠ [])
    (h : Returns (resolve root path) fs (some v) fs) (same : v.inode.setWidth 32 = root.inode.setWidth 32) (k : Nat) :
    Returns (resolve root (again (k + 1) path)) fs (some v) fs := by
  have here : Returns (resolve v path) fs (some v) fs := by
    rw [returns_resolve, resolve_congr same ne, ← returns_resolve]
    exact h
  have step : ∀ k, Returns (resolve v (again k path)) fs (some v) fs := by
    intro k
    induction k with
    | zero => exact .pure _ _
    | succ k ih => exact resolve_append here ih
  exact resolve_append h (step k)

/-- An archive with entries is not served, whatever they are: memory may hold the inode of the root where that of a
    file should be. -/
lemma not_serves {dev : BitVec 64 → Option Block} {es : List Entry} (archive : Archive dev 0 es) (ne : es ≠ []) :
    ¬Serves dev es := by
  intro serves
  obtain ⟨earlier, f, split⟩ := files_concat 0 ne
  obtain ⟨fs, root, scan, hroot, correct⟩ := serves fun _ => ⟨f.offset + 1, 0, 1, [], []⟩
  have uncleared := (tarfsScan_keeps dev).returns scan nofun
  have mem : f ∈ files 0 es := by
    rw [split]
    exact List.mem_append_right _ List.mem_cons_self
  obtain ⟨nonempty, components⟩ := files_valid archive f mem
  obtain ⟨v, resolved, -, offset⟩ := correct.file earlier f [] split nofun
  -- the node is one of a file, with the inode of the root
  have inode : v.inode = 1 := by
    obtain ⟨i, hv⟩ := vnode_of_resolve resolved nonempty
    rcases uncleared i v hv with inode | ⟨other, -⟩
    · exact inode
    · rw [offset] at other
      simp at other
  have rootInode : root.inode.setWidth 32 = 1 := by
    rcases uncleared 1 root (.inl hroot) with inode | ⟨-, inode⟩
    · rw [inode]
      rfl
    · exact inode
  have same : v.inode.setWidth 32 = root.inode.setWidth 32 := by
    rw [inode, rootInode]
    rfl
  let bound := ((files 0 es).map fun g => g.path.length).sum
  have resolves := resolve_again nonempty resolved same bound
  have long : ∀ g ∈ files 0 es, ¬again (bound + 1) f.path <+: g.path := by
    intro g hg pre
    have le := pre.length_le
    have big := length_again (bound + 1) nonempty
    have small : g.path.length ≤ bound := List.le_sum_of_mem (List.mem_map_of_mem hg)
    omega
  have none := correct.other (again (bound + 1) f.path) ?_ ?_ long
  · cases (resolves.unique none).1
  · intro c hc
    obtain ⟨l, hl, hc⟩ := List.mem_flatten.mp hc
    rw [List.eq_of_mem_replicate hl] at hc
    exact components c hc
  · intro e
    have big := length_again (bound + 1) nonempty
    rw [e] at big
    exact absurd big (by simp)

/-- The scan of an archive without entries. -/
lemma serves_nil {dev : BitVec 64 → Option Block} (archive : Archive dev 0 []) : Serves dev [] := by
  intro junk
  let root : TarfsNode := ⟨.directory, (junk 0).offset, (junk 0).size, 1⟩
  let fs : TarfsT := ⟨Function.update (fun _ => none) 1 (some root), 0, none, [], 2, 1⟩
  have body : Returns (scanBody dev junk 0) fs (.inr ()) fs := by
    rw [scanBody]
    split
    · exact .pure _ _
    · rename_i h hdev
      rw [if_pos (by simp [archive h hdev])]
      exact .pure _ _
  have malloc : Returns (mallocNode junk) tarfsNew (junk 0) { tarfsNew with mallocs := 1 } :=
    .bind (.asks _ _) (.bind (.update _ _) (.pure _ _))
  have put : Returns (vnodesPut 1 root) { tarfsNew with mallocs := 1 } () { fs with inext := 0 } :=
    vnodesPut_low (by decide) root rfl
  refine ⟨fs, root, .bind malloc (.bind put (.bind (.update _ _) (.exit body))), rfl, ?_, nofun, ?_⟩
  · intro earlier f later split
    exact absurd split.symm (by simp [files])
  · intro path components ne _
    cases path with
    | nil => exact absurd rfl ne
    | cons c path =>
      rw [returns_resolve, resolve_cons]
      rfl

/-- The archives that are served. -/
theorem serves_iff {dev : BitVec 64 → Option Block} {es : List Entry} (archive : Archive dev 0 es) :
    Serves dev es ↔ es = [] := by
  constructor
  · intro serves
    by_contra ne
    exact not_serves archive ne serves
  · rintro rfl
    exact serves_nil archive

/-- A device without blocks holds the empty archive. -/
lemma archive_no_blocks : Archive (fun _ => none) 0 [] := fun _ h => nomatch h

/-- The empty archive is served. -/
theorem serves_no_blocks : Archive (fun _ => none) 0 [] ∧ Serves (fun _ => none) [] :=
  ⟨archive_no_blocks, (serves_iff archive_no_blocks).mpr rfl⟩

/-! ### The first file of a directory -/

/-- The header of an empty file `a/x`. -/
def headerAX : Block
  | 0 => 0x61
  | 1 => slash
  | 2 => 0x78
  -- the checksum
  | 148 => 0x31
  | 149 => 0x30
  | 150 => 0x37
  | 151 => 0x30
  | 156 => 0x30
  | _ => 0

/-- A device with this header and nothing else. -/
def deviceAX (offset : BitVec 64) : Option Block := if offset = 0 then some headerAX else none

def entryAX : Entry := ⟨headerAX, false, [[0x61], [0x78]]⟩

/-- The header of the archive with one file is valid. -/
lemma validAX : tarfsValidate headerAX = true := by decide +kernel

/-- The name in the header of the archive with one file. -/
lemma fullnameAX : tarfsFullname headerAX = some [0x61, slash, 0x78] := by decide +kernel

/-- The end of the archive with one file. -/
lemma nextAX : tarfsNextheader headerAX 0 = 512 := by decide +kernel

/-- The size in the header of the archive with one file. -/
lemma sizeAX : tarfsOtoi (field headerAX 124 12) = 0 := by decide +kernel

/-- The archive with one file. -/
lemma archiveAX : Archive deviceAX 0 [entryAX] := by
  have valid : entryAX.Valid := by
    refine ⟨validAX, by decide, fullnameAX, nofun, ?_⟩
    intro c hc
    have cases : c = [0x61] ∨ c = [0x78] := by simpa [entryAX] using hc
    rcases cases with rfl | rfl
    · exact ⟨nofun, by decide⟩
    · exact ⟨nofun, by decide⟩
  refine ⟨rfl, valid, fun h hdev => ?_⟩
  change deviceAX (tarfsNextheader headerAX 0 &&& ~~~511) = some h at hdev
  rw [nextAX] at hdev
  cases hdev

/-- The scan makes the directory, and then puts the file into a directory with the inode 0: the file is not found,
    whatever the memory held. -/
theorem first_file_hidden : Archive deviceAX 0 [entryAX] ∧ ¬Serves deviceAX [entryAX] ∧
    ∀ junk, ∃ fs root, Returns (tarfsScan deviceAX junk) tarfsNew () fs ∧ fs.vnodes 1 = some root ∧
      Returns (resolve root [[0x61], [0x78]]) fs none fs := by
  refine ⟨archiveAX, not_serves archiveAX nofun, fun junk => ?_⟩
  let root : TarfsNode := ⟨.directory, (junk 0).offset, (junk 0).size, 1⟩
  let dir : TarfsNode := ⟨.directory, (junk 2).offset, (junk 2).size, 2⟩
  let file : TarfsNode := ⟨.regular, 0, 0, (junk 1).inode⟩
  let fs1 : TarfsT := ⟨Function.update (fun _ => none) 1 (some root), 0, none, [], 2, 1⟩
  let fs2 : TarfsT := ⟨Function.update fs1.vnodes 2 (some dir), 0, none, [(⟨1, [0x61]⟩, 2)], 3, 3⟩
  let fs : TarfsT := ⟨Function.update fs2.vnodes 3 (some file), 0, none, (⟨0, [0x78]⟩, 3) :: fs2.tree, 4, 3⟩
  have make : Returns (vnodesPut 2 dir) { fs2 with vnodes := fs1.vnodes } () fs2 := vnodesPut_low (by decide) dir rfl
  have dirs : Returns (addDirs junk 1 [[0x61]]) { fs1 with mallocs := 2 } 0 fs2 := by
    have body : Returns (addDir junk 1 [0x61]) { fs1 with mallocs := 2 } 0 fs2 := by
      rw [addDir, if_neg (List.cons_ne_nil _ _)]
      refine .bind (.asks _ _) (.bind (a := ()) ?_ (.pure _ _))
      refine .bind (.bind (.asks _ _) (.bind (.update _ _) (.pure _ _))) ?_
      exact .bind (.bind (.asks _ _) (.bind (.update _ _) (.pure _ _))) (.bind (.update _ _) make)
    exact .bind body (.pure _ _)
  have missing : Returns (treeGet ⟨0, [0x78]⟩) fs2 0 fs2 := .of_eq fun _ => rfl
  have number : Returns nextInode fs2 3 { fs2 with inext := 4 } := .of_eq fun _ => rfl
  have put : Returns (vnodesPut 3 file) { fs2 with inext := 4 } () { fs with tree := fs2.tree } :=
    vnodesPut_low (by decide) file rfl
  have add : Returns (tarfsAddNode junk [0x61, slash, 0x78] file) { fs1 with mallocs := 2 } () fs :=
    .bind dirs (.bind missing (.bind number (.bind put (.update _ _))))
  have regular : Returns (tarfsRegularfile junk headerAX 0) fs1 () fs := by
    refine .bind (.bind (.asks _ _) (.bind (.update _ _) (.pure _ _))) ?_
    rw [fullnameIn, fullnameAX, sizeAX]
    exact add
  have body : Returns (scanBody deviceAX junk 0) fs1 (.inl 512) fs := by
    have read : deviceAX (0 &&& ~~~511) = some headerAX := rfl
    simp only [scanBody, read, validAX, not_true_eq_false, if_false, nextAX]
    exact .bind regular (.pure _ _)
  have last : Returns (scanBody deviceAX junk 512) fs (.inr ()) fs := .pure _ _
  refine ⟨fs, root, .bind (.of_eq fun _ => rfl) (.bind (vnodesPut_low (by decide) root rfl) (.bind (.update _ _)
    (.turn body (.exit last)))), rfl, returns_resolve.mpr ?_⟩
  have first : lookupInode fs 1 [0x61] = 2 := rfl
  have second : lookupInode fs 2 [0x78] = 0 := rfl
  rw [resolve_cons, first]
  show resolve dir [[0x78]] 0 fs = _
  rw [resolve_cons, second]
  rfl

end Twcos.Tarfs
