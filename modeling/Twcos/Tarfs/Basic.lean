import Twcos.Prog.Basic
import Twcos.Text.Str
import Mathlib.Logic.Function.Basic

/-!
# The tar file system

Model of `fs/tarfs/tarfs.c`: `tarfs_scan` goes through the headers of an archive and enters each regular file into a
map of directory entries and a vector of vnodes, both by inode; `tarfs_get_vnode` looks a name up in them.

The map of directory entries is used as what it is shown to be in `Twcos.Tree.Run`: a lookup finds the data last put
for a key that compares equal. The vector is used as what `libk/vector.c` makes of an index (`Twcos.Vector`): it is in one of
the tables, or, if it is the first one that they have no room for, in the word behind the only table, or at a null pointer
if there are several levels. Nothing else is taken to use that word until there is a second level, which it is no part of.
Memory from `malloc` is not cleared: the fields of a node that are not set hold what was there before, and a name that does
not end in its buffer goes on behind it; this is the `Junk` of a run.

C → Lean naming: `tarfs_t` → `TarfsT`, `tarfsnode_t` → `TarfsNode`, `tarfs_dirent_t` → `TarfsDirent`,
`tarfs_add_node` → `tarfsAddNode` and so on. A header is the block it stands in. Reading a block gives nothing if the
device throws `DeviceException`.
-/

namespace Twcos.Tarfs
open Twcos.Prog Twcos.Text

/-- A block of 512 bytes. -/
abbrev Block := Nat → Byte

/-- The bytes of a field of a header. -/
def field (h : Block) (offset size : Nat) : Str := (List.range size).map fun i => h (offset + i)

/-- `tarfs_otoi`. -/
def tarfsOtoi (cp : Str) : BitVec 32 :=
  (cp.takeWhile (· ≠ 0)).foldl
    (fun v c =>
      let digit : BitVec 32 := c.signExtend 32 - 0x30
      if digit < 8#32 then (v <<< 3) + digit else v) 0

/-- `tarfs_validate_field`. -/
def tarfsValidateField (header value : Str) : Bool := header = value

/-- The sum of the bytes of a header, the checksum taken as spaces. -/
def checksum (h : Block) (value : Byte → Int) : Int :=
  ((List.range 500).map fun i => if 148 ≤ i ∧ i < 156 then 0x20 else value (h i)).sum

/-- `tarfs_validate`. The magic and the version are looked at, but make no difference. -/
def tarfsValidate (h : Block) : Bool :=
  let sum := (tarfsOtoi (field h 148 8)).toInt
  if checksum h (fun b => b.toNat) ≠ sum ∧ checksum h BitVec.toInt ≠ sum then false
  else if tarfsValidateField (field h 257 6) [0x75, 0x73, 0x74, 0x61, 0x72, 0] then
    if tarfsValidateField (field h 263 2) [0x30, 0x30] then true else true
  else if tarfsValidateField (field h 257 6) [0x75, 0x73, 0x74, 0x61, 0x72, 0x20] then
    if tarfsValidateField (field h 263 2) [0x20, 0] then true else true
  else true

/-- The string that starts at an offset of the block, if it ends in it. -/
def cstring (h : Block) (offset : Nat) : Option Str :=
  let rest := field h offset (512 - offset)
  if 0 ∈ rest then some (rest.takeWhile (· ≠ 0)) else none

/-- `tarfs_fullname`, if there is a NUL in the buffer: not if the text has 255 characters or more. -/
def tarfsFullname (h : Block) : Option Str :=
  if h 345 ≠ 0 then do
    let pre ← cstring h 345
    let name ← cstring h 0
    let full := pre ++ slash :: name
    if full.length < 255 then some full else none
  else some ((field h 0 100).takeWhile (· ≠ 0))

/-- `REGTYPE` or `AREGTYPE`. -/
def isRegular (h : Block) : Bool := h 156 = 0x30 ∨ h 156 = 0

/-- `tarfs_nextheader`. -/
def tarfsNextheader (h : Block) (offset : BitVec 64) : BitVec 64 :=
  let offset := offset + 512
  if isRegular h then
    let size := (tarfsOtoi (field h 124 12) + 511) &&& ~~~511
    offset + size.zeroExtend 64
  else offset

/-- `enum vnode_type`, as far as it is used. -/
inductive VnodeType where
  | regular
  | directory
deriving DecidableEq

/-- `tarfsnode_t`. -/
structure TarfsNode where
  type : VnodeType
  offset : BitVec 64
  size : BitVec 32
  inode : BitVec 64

/-- What new memory holds: the fields of a node, the buffer of a name behind its first 255 characters, and what is behind
    the block of the header. -/
structure Junk where
  offset : BitVec 64
  size : BitVec 32
  inode : BitVec 64
  name : Str
  block : Str

/-- `tarfs_dirent_t`. -/
structure TarfsDirent where
  dir : BitVec 64
  name : Str

/-- `tarfs_dirent_cmp`: the difference of the directories is cut off to an `int`. -/
def tarfsDirentCmp (d1 d2 : TarfsDirent) : Int :=
  let dirDiff := ((d1.dir - d2.dir).setWidth 32).toInt
  if dirDiff = 0 then strcmp d1.name d2.name else dirDiff

/-- The string at an offset of the block, which may end behind it. -/
def stringIn (h : Block) (junk : Junk) (offset : Nat) : Str :=
  (field h offset (512 - offset) ++ junk.block).takeWhile (· ≠ 0)

/-- The string that `tarfs_fullname` returns. A name of 255 characters or more goes on with what is in memory. -/
def fullnameIn (h : Block) (junk : Junk) : Str :=
  match tarfsFullname h with
  | some fullname => fullname
  | none =>
    let fullname := stringIn h junk 345 ++ slash :: stringIn h junk 0
    if fullname.length < 255 then fullname else fullname.take 255 ++ junk.name.takeWhile (· ≠ 0)

/-- `tarfs_t`, with the level of the root table and the word behind it, and the number of nodes allocated so far. -/
structure TarfsT where
  vnodes : BitVec 32 → Option TarfsNode
  level : Nat
  behind : Option TarfsNode
  tree : List (TarfsDirent × BitVec 32)
  inext : BitVec 64
  mallocs : Nat

inductive Fault where
  | bounds (i : BitVec 32)
  | null

abbrev Code (α : Type) := Prog Fault TarfsT α

/-- `map_getpi(fs->tree, &dirent)`. -/
def treeGet (dirent : TarfsDirent) : Code (BitVec 64) :=
  asks fun fs => (((fs.tree.find? fun b => tarfsDirentCmp dirent b.1 = 0).map Prod.snd).getD 0).signExtend 64

/-- `map_putpi(fs->tree, dirent, inode)`. -/
def treePut (dirent : TarfsDirent) (inode : BitVec 64) : Code Unit :=
  update fun fs => { fs with tree := (dirent, inode.setWidth 32) :: fs.tree }

/-- `vector_checksize`: the level of the root table afterwards. An index of 32 bits takes five turns at most. -/
def vectorChecksize (level : Nat) (i : BitVec 32) : Nat :=
  (List.range 5).foldl (fun level _ => if 64 ^ (level + 1) < i.toNat then level + 1 else level) level

/-- Where an entry is. -/
inductive Place where
  | within
  | behind
  | null

/-- `vector_entry_get`. -/
def vectorEntryGet (level : Nat) (i : BitVec 32) : Place :=
  if level ≠ 0 then if 64 ^ (level + 1) ≤ i.toNat then .null else .within
  else if i.toNat < 64 then .within else .behind

/-- `map_getip(fs->vnodes, inode)`. -/
def vnodesGet (inode : BitVec 64) : Code (Option TarfsNode) := do
  let i := inode.setWidth 32
  match vectorEntryGet (← asks TarfsT.level) i with
  | .within => asks fun fs => fs.vnodes i
  | .behind => if i = 64 then asks TarfsT.behind else raise (.bounds i)
  | .null => return none

/-- `map_putip(fs->vnodes, inode, node)`. -/
def vnodesPut (inode : BitVec 64) (node : TarfsNode) : Code Unit := do
  let i := inode.setWidth 32
  update fun fs => { fs with level := vectorChecksize fs.level i }
  match vectorEntryGet (← asks TarfsT.level) i with
  | .within => update fun fs => { fs with vnodes := Function.update fs.vnodes i (some node) }
  | .behind => update fun fs => { fs with behind := some node }
  | .null => raise .null

/-- `fs->inext++`. -/
def nextInode : Code (BitVec 64) := do
  let inode ← asks TarfsT.inext
  update fun fs => { fs with inext := fs.inext + 1 }
  return inode

section Scan
variable (dev : BitVec 64 → Option Block) (junk : Nat → Junk)

/-- `malloc(sizeof(tarfsnode_t))`. -/
def mallocNode : Code Junk := do
  let n ← asks TarfsT.mallocs
  update fun fs => { fs with mallocs := fs.mallocs + 1 }
  return junk n

/-- The body of the loop of `tarfs_add_node` over the directories of a path: the directory of the next turn. -/
def addDir (dnode : BitVec 64) (dir : Str) : Code (BitVec 64) := do
  if dir = [] then return dnode
  else
    let inode ← treeGet ⟨dnode, dir⟩
    when (inode = 0) do
      -- fake a directory
      let j ← mallocNode junk
      let new ← nextInode
      treePut ⟨dnode, dir⟩ new
      vnodesPut new ⟨.directory, j.offset, j.size, new⟩
    return inode

/-- The loop. -/
def addDirs : BitVec 64 → List Str → Code (BitVec 64)
  | dnode, [] => return dnode
  | dnode, dir :: dirs => do
    let dnode ← addDir junk dnode dir
    addDirs dnode dirs

/-- `tarfs_add_node`. -/
def tarfsAddNode (fullname : Str) (node : TarfsNode) : Code Unit := do
  -- skip over a leading slash
  let fullname := if fullname.head? = some slash then fullname.tail else fullname
  let dnode ← addDirs junk 1 (ssplit (dirname fullname) slash)
  let file := basename fullname
  let inode ← treeGet ⟨dnode, file⟩
  if inode ≠ 0 then
    -- the file already exists, discard the old one
    vnodesPut inode node
  else
    let inode ← nextInode
    vnodesPut inode node
    treePut ⟨dnode, file⟩ inode

/-- `tarfs_regularfile`. -/
def tarfsRegularfile (h : Block) (offset : BitVec 64) : Code Unit := do
  let j ← mallocNode junk
  tarfsAddNode junk (fullnameIn h j) ⟨.regular, offset, tarfsOtoi (field h 124 12), j.inode⟩

/-- The body of the loop of `tarfs_scan`. Headers of directories and links are only printed. -/
def scanBody (offset : BitVec 64) : Code (BitVec 64 ⊕ Unit) := do
  match dev (offset &&& ~~~511) with
  | none => return .inr ()
  | some h =>
    if ¬tarfsValidate h then return .inr ()
    else
      when (isRegular h) (tarfsRegularfile junk h offset)
      return .inl (tarfsNextheader h offset)

/-- `tarfs_scan`. -/
def tarfsScan : Code Unit := do
  let j ← mallocNode junk
  vnodesPut 1 ⟨.directory, j.offset, j.size, 1⟩
  update fun fs => { fs with inext := 2 }
  loop (scanBody dev junk) 0

/-- A file system before the scan. -/
def tarfsNew : TarfsT := ⟨fun _ => none, 0, none, [], 0, 0⟩

end Scan

/-- `tarfs_get_vnode`. -/
def tarfsGetVnode (dir : TarfsNode) (name : Str) : Code (Option TarfsNode) := do
  let inode ← treeGet ⟨dir.inode, name⟩
  vnodesGet inode

/-- Resolve names one after the other, as long as there is a vnode. -/
def resolve : TarfsNode → List Str → Code (Option TarfsNode)
  | node, [] => return some node
  | node, name :: names => do
    match ← tarfsGetVnode node name with
    | none => return none
    | some next => resolve next names

end Twcos.Tarfs
