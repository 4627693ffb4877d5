import Twcos.Prog.Keeps
import Twcos.Tarfs.Walk

/-!
# Reading from a static device

Model of the static devices of `kernel/dev.c`, which are an image in memory, and of what `fs/tarfs/tarfs.c` reads from
them: `tarfs_scan` the headers, and `tarfs_get_page` the data of a file. `dev_static_submit` does not look at the size of
the image, and never fails; `DeviceException` is not thrown anywhere.

So all that is read lies in the image only if the image is well-formed (`Bounded`): the headers are in it up to a block that
is none, and so is the data of each file. The nodes of directories tell an offset and a size that nobody has set, and reading
from one of these may lead anywhere (`device_bounds`).

C → Lean naming: `dev_static_t` → `DevStatic`, `buf_op_t` → `BufOp`, `dev_op_submit` → `devOpSubmit`, without its lock,
`tarfs_readblock` → `tarfsReadblock` and so on. `dev_op_wait` has nothing to wait for.
-/

namespace Twcos.Tarfs
open Twcos.Prog Twcos.Text

abbrev Memory := BitVec 32 → Byte

/-- `dev_static_t`: the image in memory. -/
structure DevStatic where
  p : BitVec 32
  size : BitVec 32

/-- `enum dev_op_status`. -/
inductive DevOpStatus where
  | submitted
  | complete
  | timedout
  | failed
deriving DecidableEq

/-- `buf_op_t`. -/
structure BufOp where
  status : DevOpStatus
  write : Bool
  p : BitVec 32
  offset : BitVec 64
  size : BitVec 32

def memcpy (mem : Memory) (dst src n : BitVec 32) : Memory := fun a =>
  if a - dst < n then mem (src + (a - dst)) else mem a

def memset (mem : Memory) (p : BitVec 32) (byte : Byte) (n : BitVec 32) : Memory := fun a =>
  if a - p < n then byte else mem a

/-- `dev_static_submit`. -/
def devStaticSubmit (sdev : DevStatic) (mem : Memory) (op : BufOp) : Memory × BufOp :=
  let mem :=
    if op.write then memcpy mem (sdev.p + op.offset.setWidth 32) op.p op.size
    else memcpy mem op.p (sdev.p + op.offset.setWidth 32) op.size
  (mem, { op with status := .complete })

/-- `dev_op_submit`. -/
def devOpSubmit (sdev : DevStatic) (mem : Memory) (op : BufOp) : Memory × BufOp :=
  devStaticSubmit sdev mem { op with status := .submitted }

/-- The operation of `tarfs_readblock`. -/
def readOp (offset : BitVec 64) (buf : BitVec 32) : BufOp := ⟨.submitted, false, buf, offset &&& ~~~511, 512⟩

/-- `tarfs_readblock`. -/
def tarfsReadblock (sdev : DevStatic) (mem : Memory) (offset : BitVec 64) (buf : BitVec 32) : Memory :=
  (devOpSubmit sdev mem (readOp offset buf)).1

/-- The block at an offset of the device. -/
def staticBlock (sdev : DevStatic) (mem : Memory) (offset : BitVec 64) : Block := fun i =>
  mem (sdev.p + offset.setWidth 32 + BitVec.ofNat 32 i)

/-- How far an address is behind the one it starts from. -/
lemma add_sub_base (base i : BitVec 32) : base + i - base = i := by rw [BitVec.add_comm, BitVec.add_sub_cancel]

/-- `readmax` in `tarfs_get_page`, an `int`. -/
def readmax (node : TarfsNode) (offset : BitVec 64) : Int :=
  let readmax := ((node.size.zeroExtend 64 - offset).setWidth 32).toInt
  if readmax > 4096 then 4096 else readmax

/-- The blocks that `tarfs_get_page` reads: the offset on the device, and where in the page it goes. -/
def pageBlocks (node : TarfsNode) (offset : BitVec 64) : List (BitVec 64 × BitVec 32) :=
  (List.range (((readmax node offset).toNat + 511) / 512)).map fun j =>
    (offset + 512 + node.offset + BitVec.ofNat 64 (512 * j), BitVec.ofNat 32 (512 * j))

/-- `tarfs_get_page`, with the page at `p`. -/
def tarfsGetPage (sdev : DevStatic) (node : TarfsNode) (offset : BitVec 64) (p : BitVec 32) (mem : Memory) : Memory :=
  let mem := (pageBlocks node offset).foldl (fun mem b => tarfsReadblock sdev mem b.1 (p + b.2)) mem
  if readmax node offset < 4096 then
    memset mem (p + BitVec.ofInt 32 (readmax node offset)) 0 (BitVec.ofInt 32 (4096 - readmax node offset))
  else mem

/-! ### What is read -/

section Safe
variable (sdev : DevStatic) (mem : Memory) (junk : Nat → Junk)

/-- The operation of reading a block lies in the image, or is refused. -/
def Guarded (offset : BitVec 64) : Prop :=
  ∀ mem buf, (devOpSubmit sdev mem (readOp offset buf)).2.status = .complete →
    (readOp offset buf).offset.toNat + (readOp offset buf).size.toNat ≤ sdev.size.toNat

/-- The device for the scan. -/
def static (offset : BitVec 64) : Option Block := some (staticBlock sdev mem offset)

/-- The scan comes to the head of its loop. -/
def Scanned (offset : BitVec 64) (fs : TarfsT) : Prop :=
  Reaches (scanBody (static sdev mem) junk) 0 (rooted junk) offset fs

/-- A node that the scan has produced. -/
def Produced (node : TarfsNode) : Prop := ∃ offset fs i, Scanned sdev mem junk offset fs ∧ fs.Holds i node

/-- All pages of the node are read from the image. -/
def PagesGuarded (node : TarfsNode) : Prop :=
  ∀ offset : BitVec 64, offset.toNat % 4096 = 0 → offset.toNat < node.size.toNat →
    ∀ b ∈ pageBlocks node offset, Guarded sdev b.1

/-- `tarfs_open` ends, and it reads from the image only, and so does `tarfs_get_page` for the nodes of a kind. -/
structure Safe (kind : TarfsNode → Prop) : Prop where
  ends : (∃ fs, Returns (tarfsScan (static sdev mem) junk) tarfsNew () fs) ∨
    ∃ e, Raises (tarfsScan (static sdev mem) junk) tarfsNew e
  scan : ∀ offset fs, Scanned sdev mem junk offset fs → Guarded sdev offset
  pages : ∀ node, Produced sdev mem junk node → kind node → PagesGuarded sdev node

/-- The block lies in the image. -/
def Inside (offset : BitVec 64) : Prop := offset.toNat + 512 ≤ sdev.size.toNat

/-- The data of a file lies in the image. -/
def DataInside (offset : BitVec 64) (size : BitVec 32) : Prop :=
  size = 0 ∨ offset.toNat + 512 + (size.toNat + 511) / 512 * 512 ≤ sdev.size.toNat

/-- From an offset on, the headers lie in the image, with the data of the files, up to a block that is no header, or to a
    file for whose inode the vector of nodes has a null pointer. -/
inductive Bounded : BitVec 64 → TarfsT → Prop where
  | stop {offset fs} : Inside sdev offset → tarfsValidate (staticBlock sdev mem offset) = false → Bounded offset fs
  | other {offset fs} : Inside sdev offset → tarfsValidate (staticBlock sdev mem offset) = true →
      isRegular (staticBlock sdev mem offset) = false →
      Bounded (tarfsNextheader (staticBlock sdev mem offset) offset) fs → Bounded offset fs
  | file {offset fs fs'} : Inside sdev offset → tarfsValidate (staticBlock sdev mem offset) = true →
      isRegular (staticBlock sdev mem offset) = true →
      Returns (tarfsRegularfile junk (staticBlock sdev mem offset) offset) fs () fs' →
      DataInside sdev offset (tarfsOtoi (field (staticBlock sdev mem offset) 124 12)) →
      Bounded (tarfsNextheader (staticBlock sdev mem offset) offset) fs' → Bounded offset fs
  | null {offset fs} : Inside sdev offset → tarfsValidate (staticBlock sdev mem offset) = true →
      isRegular (staticBlock sdev mem offset) = true →
      Raises (tarfsRegularfile junk (staticBlock sdev mem offset) offset) fs .null → Bounded offset fs

end Safe

section Reads
variable {sdev : DevStatic}

/-- An aligned offset is not rounded. -/
lemma aligned_and {offset : BitVec 64} (aligned : offset.toNat % 512 = 0) : offset &&& ~~~511 = offset := by
  apply BitVec.eq_of_toNat_eq
  refine Eq.trans (Word.toNat_and_not offset 9) ?_
  omega

/-- No operation is refused. -/
lemma guarded_iff {offset : BitVec 64} (aligned : offset.toNat % 512 = 0) :
    Guarded sdev offset ↔ Inside sdev offset := by
  have op : ∀ buf, (readOp offset buf).offset = offset := fun buf => aligned_and aligned
  have block : ∀ buf, (readOp offset buf).size.toNat = 512 := fun buf => rfl
  constructor
  · intro guarded
    have inside := guarded (fun _ => 0) 0 rfl
    rwa [op, block] at inside
  · intro inside mem buf _
    rw [op, block]
    exact inside

/-- How much of a page is read: nothing if there are 2 GiB or more left. -/
lemma readmax_toNat {node : TarfsNode} {offset : BitVec 64} (lt : offset.toNat < node.size.toNat) :
    (readmax node offset).toNat =
      if node.size.toNat - offset.toNat < 2 ^ 31 then min (node.size.toNat - offset.toNat) 4096 else 0 := by
  have small := node.size.isLt
  have left : ((node.size.zeroExtend 64 - offset).setWidth 32).toNat = node.size.toNat - offset.toNat := by
    rw [BitVec.toNat_setWidth, BitVec.toNat_sub, BitVec.zeroExtend_eq_setWidth, BitVec.toNat_setWidth]
    omega
  rw [readmax, BitVec.toInt_eq_toNat_cond, left]
  split_ifs <;> omega

/-- The blocks of a page, as numbers. -/
lemma pageBlocks_offset {node : TarfsNode} {offset : BitVec 64} (small : node.offset.toNat < 2 ^ 32)
    (lt : offset.toNat < node.size.toNat) {j : Nat} (hj : j < 8) :
    (offset + 512 + node.offset + BitVec.ofNat 64 (512 * j)).toNat =
      node.offset.toNat + 512 + offset.toNat + 512 * j := by
  have size := node.size.isLt
  have block : (512 : BitVec 64).toNat = 512 := rfl
  rw [BitVec.toNat_add, BitVec.toNat_add, BitVec.toNat_add, BitVec.toNat_ofNat, block]
  omega

/-- The pages of a file are read from the image if and only if its data lies in it. -/
lemma pages_iff {node : TarfsNode} (aligned : node.offset.toNat % 512 = 0) (small : node.offset.toNat < 2 ^ 32) :
    PagesGuarded sdev node ↔ DataInside sdev node.offset node.size := by
  have size := node.size.isLt
  constructor
  · intro guarded
    rcases Nat.eq_zero_or_pos node.size.toNat with zero | pos
    · exact .inl (BitVec.eq_of_toNat_eq zero)
    -- the last block of the last page
    have last : (BitVec.ofNat 64 ((node.size.toNat - 1) / 4096 * 4096)).toNat = (node.size.toNat - 1) / 4096 * 4096 := by
      rw [BitVec.toNat_ofNat]
      omega
    generalize BitVec.ofNat 64 ((node.size.toNat - 1) / 4096 * 4096) = offset at last
    have lt : offset.toNat < node.size.toNat := by omega
    obtain ⟨j, hj⟩ : ∃ j, j = (node.size.toNat - offset.toNat + 511) / 512 - 1 := ⟨_, rfl⟩
    have turns : j ∈ List.range (((readmax node offset).toNat + 511) / 512) := by
      rw [List.mem_range, readmax_toNat lt, if_pos (by omega)]
      omega
    have eq := pageBlocks_offset small lt (show j < 8 by omega)
    have block := guarded offset (by omega) lt _ (List.mem_map_of_mem turns)
    have inside := (guarded_iff (by rw [eq]; omega)).mp block
    rw [Inside, eq] at inside
    right
    omega
  · intro data offset page lt b mem
    obtain ⟨j, hj, rfl⟩ := List.mem_map.mp mem
    rw [List.mem_range, readmax_toNat lt] at hj
    have hj8 : j < 8 := by
      split_ifs at hj <;> omega
    have eq := pageBlocks_offset small lt hj8
    refine (guarded_iff (by rw [eq]; omega)).mpr ?_
    rw [Inside, eq]
    rcases data with zero | inside
    · rw [zero] at lt
      cases lt
    · split_ifs at hj <;> omega

end Reads

/-! ### The nodes of the scan -/

/-- All nodes are good. -/
def AllNodes (good : TarfsNode → Prop) (fs : TarfsT) : Prop := ∀ i node, fs.Holds i node → good node

section Nodes
variable {good : TarfsNode → Prop} {junk : Nat → Junk}

/-- Putting in a node that is good. -/
lemma AllNodes.vnodesPut {node : TarfsNode} (h : good node) (inode : BitVec 64) :
    Keeps (AllNodes good) (vnodesPut inode node) := by
  intro n fs _ fs' all run i node' held
  rcases (vnodesPut_result run).2 i node' held with held | ⟨-, rfl⟩
  · exact all i node' held
  · exact h

/-- Taking a number for a node. -/
lemma AllNodes.nextInode : Keeps (AllNodes good) nextInode :=
  .bind (.asks _) fun _ => .bind (.update fun _ all i node held => all i node held) fun _ => .pure _

/-- Allocating a node. -/
lemma AllNodes.mallocNode : Keeps (AllNodes good) (mallocNode junk) :=
  .bind (.asks _) fun _ => .bind (.update fun _ all i node held => all i node held) fun _ => .pure _

variable (dirs : ∀ offset size inode, good ⟨.directory, offset, size, inode⟩)
include dirs

/-- The directories that are made up on the way. -/
lemma AllNodes.addDirs (dnode : BitVec 64) (names : List Str) : Keeps (AllNodes good) (addDirs junk dnode names) := by
  induction names generalizing dnode with
  | nil => exact .pure _
  | cons name names ih =>
    refine .bind ?_ fun dnode => ih dnode
    rw [addDir]
    split
    · exact .pure _
    · refine .bind (.asks _) fun inode => .bind (.when ?_) fun _ => .pure _
      refine .bind AllNodes.mallocNode fun j => .bind AllNodes.nextInode fun new => ?_
      exact .bind (.update fun _ all i node held => all i node held) fun _ => AllNodes.vnodesPut (dirs _ _ _) new

/-- The nodes that `tarfs_regularfile` adds are directories and the one for the file. -/
lemma AllNodes.regularfile {h : Block} {offset : BitVec 64}
    (file : ∀ inode, good ⟨.regular, offset, tarfsOtoi (field h 124 12), inode⟩) :
    Keeps (AllNodes good) (tarfsRegularfile junk h offset) := by
  refine .bind AllNodes.mallocNode fun j => .bind (AllNodes.addDirs dirs _ _) fun dnode => .bind (.asks _) fun inode => ?_
  split
  · exact AllNodes.vnodesPut (file _) inode
  · refine .bind AllNodes.nextInode fun inode => .bind (AllNodes.vnodesPut (file _) inode) fun _ => ?_
    exact .update fun _ all i node held => all i node held

end Nodes

/-- The file is put into the vector of nodes. -/
lemma regularfile_node {junk : Nat → Junk} {h : Block} {offset : BitVec 64} {n : Nat} {fs fs' : TarfsT}
    (run : tarfsRegularfile junk h offset n fs = .ok ((), fs')) :
    ∃ i inode, fs'.Holds i ⟨.regular, offset, tarfsOtoi (field h 124 12), inode⟩ := by
  obtain ⟨j, fs1, -, run⟩ := bind_result run
  obtain ⟨dnode, fs2, -, run⟩ := bind_result run
  obtain ⟨inode, fs3, -, run⟩ := bind_result run
  split at run
  · exact ⟨_, j.inode, (vnodesPut_result run).1⟩
  · obtain ⟨new, fs4, -, run⟩ := bind_result run
    obtain ⟨_, fs5, puts, run⟩ := bind_result run
    have there := (vnodesPut_result puts).1
    cases run
    exact ⟨_, j.inode, there⟩

section Scan
variable {sdev : DevStatic} {mem : Memory} {junk : Nat → Junk} {offset : BitVec 64} {fs fs' : TarfsT}

/-- The offset of the next header is aligned. -/
lemma nextheader_aligned (h : Block) (aligned : offset.toNat % 512 = 0) :
    (tarfsNextheader h offset).toNat % 512 = 0 := by
  have block : (512 : BitVec 64).toNat = 512 := rfl
  rw [tarfsNextheader]
  dsimp only
  split
  · have rounded := Word.toNat_and_not (tarfsOtoi (field h 124 12) + 511) 9
    rw [BitVec.toNat_add, BitVec.toNat_add, block, BitVec.zeroExtend_eq_setWidth, BitVec.toNat_setWidth]
    have multiple : (tarfsOtoi (field h 124 12) + 511 &&& ~~~511 : BitVec 32).toNat % 512 = 0 := by
      rw [show (tarfsOtoi (field h 124 12) + 511 &&& ~~~511 : BitVec 32).toNat = _ from rounded]
      exact Nat.mul_mod_left _ _
    omega
  · rw [BitVec.toNat_add, block]
    omega

/-- Reading a block from a static device. -/
lemma static_read (aligned : offset.toNat % 512 = 0) :
    static sdev mem (offset &&& ~~~511) = some (staticBlock sdev mem offset) := by
  rw [aligned_and aligned]
  rfl

/-- The turn for a header, of whatever kind. -/
lemma scanBody_header (aligned : offset.toNat % 512 = 0)
    (valid : tarfsValidate (staticBlock sdev mem offset) = true) :
    scanBody (static sdev mem) junk offset = (do
      when (isRegular (staticBlock sdev mem offset)) (tarfsRegularfile junk (staticBlock sdev mem offset) offset)
      return .inl (tarfsNextheader (staticBlock sdev mem offset) offset)) :=
  scanBody_valid (static_read aligned) valid

/-- A header that is not one of a file. -/
lemma returns_other (aligned : offset.toNat % 512 = 0) (valid : tarfsValidate (staticBlock sdev mem offset) = true)
    (regular : isRegular (staticBlock sdev mem offset) = false) :
    Returns (scanBody (static sdev mem) junk offset) fs (.inl (tarfsNextheader (staticBlock sdev mem offset) offset)) fs := by
  rw [scanBody_header aligned valid, regular]
  exact .bind (.pure _ _) (.pure _ _)

/-- A turn that enters a regular file. -/
lemma returns_file (aligned : offset.toNat % 512 = 0) (valid : tarfsValidate (staticBlock sdev mem offset) = true)
    (regular : isRegular (staticBlock sdev mem offset) = true)
    (entered : Returns (tarfsRegularfile junk (staticBlock sdev mem offset) offset) fs () fs') :
    Returns (scanBody (static sdev mem) junk offset) fs (.inl (tarfsNextheader (staticBlock sdev mem offset) offset)) fs' := by
  rw [scanBody_header aligned valid, regular]
  exact .bind entered (.pure _ _)

/-- A turn that stops at a block that is no header. -/
lemma returns_stop (aligned : offset.toNat % 512 = 0) (invalid : tarfsValidate (staticBlock sdev mem offset) = false) :
    Returns (scanBody (static sdev mem) junk offset) fs (.inr ()) fs := by
  rw [scanBody_invalid (static_read aligned) invalid]
  exact .pure _ _

/-- A turn that comes to the null pointer of the vector. -/
lemma raises_null {e : Fault} (aligned : offset.toNat % 512 = 0)
    (valid : tarfsValidate (staticBlock sdev mem offset) = true) (regular : isRegular (staticBlock sdev mem offset) = true)
    (thrown : Raises (tarfsRegularfile junk (staticBlock sdev mem offset) offset) fs e) :
    Raises (scanBody (static sdev mem) junk offset) fs e := by
  rw [scanBody_header aligned valid, regular]
  exact thrown.first

/-- A scan whose blocks are in the image ends. -/
lemma Bounded.ends (h : Bounded sdev mem junk offset fs) (aligned : offset.toNat % 512 = 0) :
    (∃ fs', Returns (loop (scanBody (static sdev mem) junk) offset) fs () fs') ∨
      ∃ e, Raises (loop (scanBody (static sdev mem) junk) offset) fs e := by
  induction h with
  | stop _ invalid => exact .inl ⟨_, .exit (returns_stop aligned invalid)⟩
  | other _ valid regular _ ih =>
    refine (ih (nextheader_aligned _ aligned)).imp ?_ ?_
    · rintro ⟨fs', run⟩
      exact ⟨fs', .turn (returns_other aligned valid regular) run⟩
    · rintro ⟨e, run⟩
      exact ⟨e, .turn (returns_other aligned valid regular) run⟩
  | file _ valid regular entered _ _ ih =>
    refine (ih (nextheader_aligned _ aligned)).imp ?_ ?_
    · rintro ⟨fs', run⟩
      exact ⟨fs', .turn (returns_file aligned valid regular entered) run⟩
    · rintro ⟨e, run⟩
      exact ⟨e, .turn (returns_file aligned valid regular entered) run⟩
  | null _ valid regular raises => exact .inr ⟨_, (raises_null aligned valid regular raises).loop⟩

/-- A node of a file has its data in the image. -/
def FileInside (sdev : DevStatic) (node : TarfsNode) : Prop :=
  node.type = .regular → node.offset.toNat % 512 = 0 ∧ node.offset.toNat < 2 ^ 32 ∧ DataInside sdev node.offset node.size

/-- What the scan reads lies in the image, and the files that it enters have their data there. -/
lemma Bounded.reads (h : Bounded sdev mem junk offset fs) (aligned : offset.toNat % 512 = 0)
    (files : AllNodes (FileInside sdev) fs) {offset' : BitVec 64}
    (reach : Reaches (scanBody (static sdev mem) junk) offset fs offset' fs') :
    Guarded sdev offset' ∧ AllNodes (FileInside sdev) fs' := by
  induction h with
  | stop inside invalid =>
    cases reach with
    | refl => exact ⟨(guarded_iff aligned).mpr inside, files⟩
    | turn step _ => cases (step.unique (returns_stop aligned invalid)).1
  | other inside valid regular _ ih =>
    cases reach with
    | refl => exact ⟨(guarded_iff aligned).mpr inside, files⟩
    | turn step rest =>
      obtain ⟨next, same⟩ := step.unique (returns_other aligned valid regular)
      cases next
      subst same
      exact ih (nextheader_aligned _ aligned) files rest
  | @file offset fs fs1 inside valid regular entered data _ ih =>
    cases reach with
    | refl => exact ⟨(guarded_iff aligned).mpr inside, files⟩
    | turn step rest =>
      obtain ⟨next, same⟩ := step.unique (returns_file aligned valid regular entered)
      cases next
      subst same
      have small : offset.toNat < 2 ^ 32 := by
        have size := sdev.size.isLt
        rw [Inside] at inside
        omega
      refine ih (nextheader_aligned _ aligned) ?_ rest
      exact (AllNodes.regularfile (fun _ _ _ => nofun) fun _ _ => ⟨aligned, small, data⟩).returns entered files
  | null inside valid regular raises =>
    cases reach with
    | refl => exact ⟨(guarded_iff aligned).mpr inside, files⟩
    | turn step _ => exact absurd step (raises_null aligned valid regular raises).not_returns

/-- The end of a loop within a budget, with a result or a fault. -/
def Ended {α : Type} (r : Except (Stop Fault) α) : Prop := r ≠ .error .budget

/-- A safe scan reads headers from the image until it ends. -/
lemma Safe.bounded (safe : Safe sdev mem junk (·.type = .regular)) {n : Nat}
    (scanned : Scanned sdev mem junk offset fs) (aligned : offset.toNat % 512 = 0)
    (ended : Ended (loop (scanBody (static sdev mem) junk) offset n fs)) : Bounded sdev mem junk offset fs := by
  induction n generalizing offset fs with
  | zero => exact absurd rfl ended
  | succ n ih =>
    have inside := (guarded_iff aligned).mp (safe.scan offset fs scanned)
    cases valid : tarfsValidate (staticBlock sdev mem offset) with
    | false => exact .stop inside valid
    | true =>
      cases regular : isRegular (staticBlock sdev mem offset) with
      | false =>
        have turn : Returns (scanBody (static sdev mem) junk offset) fs (.inl _) fs := returns_other aligned valid regular
        refine .other inside valid regular (ih (scanned.step turn) (nextheader_aligned _ aligned) ?_)
        rw [loop, turn.at_budget (scanBody_straight _) n] at ended
        exact ended
      | true =>
        have straight : Straight (tarfsRegularfile junk (staticBlock sdev mem offset) offset) :=
          tarfsRegularfile_straight _ _
        cases run : tarfsRegularfile junk (staticBlock sdev mem offset) offset n fs with
        | ok r =>
          obtain ⟨_, fs'⟩ := r
          have entered := straight.returns run
          have turn := returns_file aligned valid regular entered
          have next := scanned.step turn
          obtain ⟨i, inode, there⟩ := regularfile_node run
          have pages := safe.pages _ ⟨_, _, i, next, there⟩ rfl
          have small : offset.toNat < 2 ^ 32 := by
            have size := sdev.size.isLt
            rw [Inside] at inside
            omega
          refine .file inside valid regular entered ((pages_iff aligned small).mp pages)
            (ih next (nextheader_aligned _ aligned) ?_)
          rw [loop, turn.at_budget (scanBody_straight _) n] at ended
          exact ended
        | error e =>
          cases e with
          | fault e =>
            cases tarfsRegularfile_faults _ _ _ _ _ run
            exact .null inside valid regular (straight.raises run)
          | budget =>
            refine absurd ?_ ended
            have body : scanBody (static sdev mem) junk offset n fs = .error .budget := by
              rw [scanBody_header aligned valid, regular]
              show Prog.bind _ _ n fs = _
              rw [Prog.bind, Prog.when, if_pos rfl, run]
            rw [loop, body]

/-- The root directory may be a file of one byte, far behind the image. -/
lemma not_safe_root (sdev : DevStatic) (mem : Memory) : ¬∀ junk, Safe sdev mem junk fun _ => True := by
  intro safe
  have root : Produced sdev mem (fun _ => ⟨2 ^ 40, 1, 0, [], []⟩) ⟨.directory, 2 ^ 40, 1, 1⟩ := ⟨0, _, 1, .refl _ _, .inl rfl⟩
  have pages := (safe fun _ => ⟨2 ^ 40, 1, 0, [], []⟩).pages _ root trivial
  have inside := (guarded_iff rfl).mp (pages 0 rfl (by decide) (2 ^ 40 + 512, 0) (by decide))
  have size := sdev.size.isLt
  have far : (2 ^ 40 + 512 : BitVec 64).toNat = 2 ^ 40 + 512 := rfl
  rw [Inside, far] at inside
  omega

/-- A safe scan stays in the image up to its end. -/
lemma Safe.bounded_rooted (safe : Safe sdev mem junk (·.type = .regular)) : Bounded sdev mem junk 0 (rooted junk) := by
  rcases id safe.ends with ⟨fs, run⟩ | ⟨e, run⟩
  · obtain ⟨n, run⟩ := run.result
    rw [tarfsScan_loop] at run
    refine safe.bounded (n := n) (.refl _ _) rfl ?_
    rw [run]
    exact nofun
  · obtain ⟨n, run⟩ := run
    have run := run n (le_refl n)
    rw [tarfsScan_loop] at run
    refine safe.bounded (n := n) (.refl _ _) rfl ?_
    rw [run]
    exact nofun

/-- At the start there is no file. -/
lemma allNodes_rooted (sdev : DevStatic) (junk : Nat → Junk) : AllNodes (FileInside sdev) (rooted junk) := by
  rintro i node (found | ⟨-, behind⟩) regular
  swap
  · cases behind
  have root : Function.update (fun _ => none) 1 (some ⟨.directory, (junk 0).offset, (junk 0).size, 1⟩) i = some node :=
    found
  by_cases e : i = 1
  · rw [e, Function.update_self] at root
    cases root
    cases regular
  · rw [Function.update_of_ne e] at root
    cases root

/-- A scan that stays in the image is safe, and so are the files that it makes. -/
lemma Bounded.safe (bounded : Bounded sdev mem junk 0 (rooted junk)) : Safe sdev mem junk (·.type = .regular) := by
  have files := allNodes_rooted sdev junk
  refine ⟨?_, fun offset fs scanned => (bounded.reads rfl files scanned).1, ?_⟩
  · refine (bounded.ends rfl).imp ?_ ?_
    · rintro ⟨fs, N, run⟩
      exact ⟨fs, N, fun n hn => (tarfsScan_loop n).trans (run n hn)⟩
    · rintro ⟨e, N, run⟩
      exact ⟨e, N, fun n hn => (tarfsScan_loop n).trans (run n hn)⟩
  · rintro node ⟨offset, fs, i, scanned, found⟩ regular
    obtain ⟨aligned, small, data⟩ := (bounded.reads rfl files scanned).2 i node found regular
    exact (pages_iff aligned small).mpr data

end Scan

/-- An image that is one header and nothing else. -/
def truncated : DevStatic := ⟨0, 512⟩

/-- The memory with the image: a global extended header. -/
def truncatedMemory : Memory := fun a => if a < 512 then extended1 a.toNat else 0

/-- An image of one header, which has no room for its data. -/
lemma truncated_header : tarfsValidate (staticBlock truncated truncatedMemory 0) = true ∧
    isRegular (staticBlock truncated truncatedMemory 0) = false ∧
    tarfsNextheader (staticBlock truncated truncatedMemory 0) 0 = 512 := by decide +kernel

end Twcos.Tarfs
