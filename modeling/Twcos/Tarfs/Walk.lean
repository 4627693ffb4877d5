import Twcos.Tarfs.Vnodes
import Twcos.Word.Basic
import Mathlib.Tactic.IntervalCases

/-!
# Walking through an archive

Where `tarfs_scan` reads headers. An archive is a sequence of headers, those of files and of extended headers followed by
the blocks of their data, with a block of zeros at the end. The scan gets from one header to the next if `tarfs_nextheader`
skips the data, which it does for regular files only, and as long as the size does not wrap around when it is rounded up
(`walks_iff`). Besides, the vector of nodes has no entry for the inode 4096: the file that is to get it ends the scan with a
null pointer.
-/

namespace Twcos.Tarfs
open Twcos.Prog Twcos.Text

/-- The types with data: regular and contiguous files, and extended headers. -/
def carriesData (type : Byte) : Bool := type = 0x30 ∨ type = 0 ∨ type = 0x37 ∨ type = 0x78 ∨ type = 0x67

/-- Links, devices, directories and FIFOs. -/
def isSpecial (type : Byte) : Bool := 0x31 ≤ type ∧ type ≤ 0x36

/-- The value of octal digits. -/
def octal (digits : Str) : Nat := digits.foldl (fun v c => 8 * v + (c.toNat - 0x30)) 0

/-- The size that a header tells. -/
def sizeField (h : Block) : Nat := octal (field h 124 11)

/-- A valid header, with a size of eleven octal digits. -/
structure Header (h : Block) : Prop where
  valid : tarfsValidate h = true
  type : carriesData (h 156) = true ∨ isSpecial (h 156) = true
  digits : ∀ c ∈ field h 124 11, 0x30 ≤ c.toNat ∧ c.toNat ≤ 0x37
  last : h 135 = 0 ∨ h 135 = 0x20

/-- The number of blocks between a header and the next one. -/
def dataBlocks (h : Block) : Nat := if carriesData (h 156) then (sizeField h + 511) / 512 else 0

/-- The offset of a block. -/
def blockOffset (k : Nat) : BitVec 64 := BitVec.ofNat 64 (512 * k)

def zeroBlock : Block := fun _ => 0

/-- From a block on, the device has the headers with their data, and then zeros. -/
def Image (dev : BitVec 64 → Option Block) : Nat → List Block → Prop
  | k, [] => dev (blockOffset k) = some zeroBlock ∧ 512 * (k + 1) ≤ 2 ^ 64
  | k, h :: hs => dev (blockOffset k) = some h ∧ Header h ∧
    (∀ i, i < dataBlocks h → dev (blockOffset (k + 1 + i)) ≠ none) ∧ Image dev (k + 1 + dataBlocks h) hs

/-- The offsets of the headers, and of the block of zeros. -/
def headerOffsets : Nat → List Block → List (BitVec 64)
  | k, [] => [blockOffset k]
  | k, h :: hs => blockOffset k :: headerOffsets (k + 1 + dataBlocks h) hs

/-- The file system when the loop of the scan starts. -/
def rooted (junk : Nat → Junk) : TarfsT :=
  ⟨Function.update (fun _ => none) 1 (some ⟨.directory, (junk 0).offset, (junk 0).size, 1⟩), 0, none, [], 2, 1⟩

/-- The scan reads at these offsets, one after the other, and ends. -/
def Walks (dev : BitVec 64 → Option Block) (junk : Nat → Junk) (hs : List Block) : Prop :=
  ∃ fs, Returns (tarfsScan dev junk) tarfsNew () fs ∧
    Visits (scanBody dev junk) 0 (rooted junk) (headerOffsets 0 hs) () fs

/-- The data of the header is skipped. -/
def Skipped (h : Block) : Prop :=
  if isRegular h then sizeField h ≤ 2 ^ 32 - 512 else carriesData (h 156) = true → sizeField h = 0

/-- Enter the regular files, each with the offset of its header. -/
def enterAll (junk : Nat → Junk) : Nat → List Block → Code Unit
  | _, [] => return ()
  | k, h :: hs => do
    when (isRegular h) (tarfsRegularfile junk h (blockOffset k))
    enterAll junk (k + 1 + dataBlocks h) hs

/-- All regular files can be entered: the vector does not answer an inode with a null pointer. -/
def Entered (junk : Nat → Junk) (hs : List Block) : Prop := ¬Raises (enterAll junk 0 hs) (rooted junk) .null

/-! ### The size of a file -/

/-- The value of an octal digit. -/
lemma digit_value {c : Byte} (digit : 0x30 ≤ c.toNat ∧ c.toNat ≤ 0x37) :
    c.signExtend 32 - 0x30#32 = BitVec.ofNat 32 (c.toNat - 0x30) ∧ c ≠ 0 := by
  obtain ⟨low, high⟩ := digit
  have byte : c = BitVec.ofNat 8 c.toNat := by simp
  generalize c.toNat = v at *
  subst byte
  interval_cases v <;> decide

/-- The digits one after the other. -/
lemma otoi_digits (digits : Str) (v : Nat) (h : ∀ c ∈ digits, 0x30 ≤ c.toNat ∧ c.toNat ≤ 0x37) :
    digits.foldl (fun (v : BitVec 32) c =>
      let digit : BitVec 32 := c.signExtend 32 - 0x30
      if digit < 8#32 then (v <<< 3) + digit else v) (BitVec.ofNat 32 v) =
    BitVec.ofNat 32 (digits.foldl (fun v c => 8 * v + (c.toNat - 0x30)) v) := by
  induction digits generalizing v with
  | nil => rfl
  | cons c digits ih =>
    have digit := h c List.mem_cons_self
    have value := (digit_value digit).1
    have small : BitVec.ofNat 32 (c.toNat - 0x30) < 8#32 := by
      rw [BitVec.lt_def, BitVec.toNat_ofNat, BitVec.toNat_ofNat]
      omega
    have next : BitVec.ofNat 32 v <<< 3 + BitVec.ofNat 32 (c.toNat - 0x30) =
        BitVec.ofNat 32 (8 * v + (c.toNat - 0x30)) := by
      apply BitVec.eq_of_toNat_eq
      rw [BitVec.toNat_add, BitVec.toNat_shiftLeft, BitVec.toNat_ofNat, BitVec.toNat_ofNat, BitVec.toNat_ofNat,
        Nat.shiftLeft_eq]
      omega
    rw [List.foldl_cons, List.foldl_cons]
    dsimp only
    rw [show c.signExtend 32 - 0x30 = BitVec.ofNat 32 (c.toNat - 0x30) from value, if_pos small, next]
    exact ih _ fun c hc => h c (List.mem_cons_of_mem _ hc)

/-- The size that a header gives. -/
lemma otoi_size {h : Block} (header : Header h) : tarfsOtoi (field h 124 12) = BitVec.ofNat 32 (sizeField h) := by
  have split : field h 124 12 = field h 124 11 ++ [h 135] := by
    rw [field, List.range_succ, List.map_append]
    rfl
  have nonzero : ∀ c ∈ field h 124 11, decide (c ≠ 0) = true := fun c hc =>
    decide_eq_true (digit_value (header.digits c hc)).2
  rw [tarfsOtoi, split, List.takeWhile_append_of_pos nonzero, List.foldl_append, sizeField, octal,
    show (0 : BitVec 32) = BitVec.ofNat 32 0 from rfl, otoi_digits _ _ header.digits]
  rcases header.last with last | last
  · rw [last]
    rfl
  · rw [last]
    rfl

/-! ### From one header to the next -/

/-- A regular file carries data. -/
lemma isRegular_carriesData {h : Block} (regular : isRegular h = true) : carriesData (h 156) = true := by
  rcases of_decide_eq_true regular with e | e
  · exact decide_eq_true (.inl e)
  · exact decide_eq_true (.inr (.inl e))

/-- The offset behind the data of a regular file. -/
lemma nextheader_regular {h : Block} (header : Header h) (regular : isRegular h = true) {k : Nat}
    (fits : 512 * (k + 1 + dataBlocks h) < 2 ^ 64) :
    (tarfsNextheader h (blockOffset k)).toNat = 512 * k + 512 + (sizeField h % 2 ^ 32 + 511) % 2 ^ 32 / 512 * 512 := by
  rw [dataBlocks, if_pos (isRegular_carriesData regular)] at fits
  have rounded := Word.toNat_and_not (tarfsOtoi (field h 124 12) + 511) 9
  rw [BitVec.toNat_add, otoi_size header, BitVec.toNat_ofNat] at rounded
  rw [tarfsNextheader, if_pos regular, BitVec.toNat_add, BitVec.toNat_add, blockOffset, BitVec.toNat_ofNat,
    BitVec.zeroExtend_eq_setWidth, BitVec.toNat_setWidth, otoi_size header]
  have same : ((BitVec.ofNat 32 (sizeField h) + 511 &&& ~~~511) : BitVec 32).toNat =
      (sizeField h % 2 ^ 32 + 511) % 2 ^ 32 / 512 * 512 := rounded
  rw [same]
  have block : (512 : BitVec 64).toNat = 512 := rfl
  rw [block]
  omega

/-- Behind a header that is no regular file comes the next one. -/
lemma nextheader_other {h : Block} (regular : isRegular h = false) {k : Nat} (fits : 512 * (k + 1) < 2 ^ 64) :
    (tarfsNextheader h (blockOffset k)).toNat = 512 * k + 512 := by
  rw [tarfsNextheader, regular, if_neg Bool.false_ne_true, BitVec.toNat_add, blockOffset, BitVec.toNat_ofNat]
  have block : (512 : BitVec 64).toNat = 512 := rfl
  rw [block]
  omega

/-- `tarfs_nextheader` finds the next header if the data is skipped, and only then. -/
lemma nextheader_iff {h : Block} (header : Header h) {k : Nat} (fits : 512 * (k + 1 + dataBlocks h) < 2 ^ 64) :
    tarfsNextheader h (blockOffset k) = blockOffset (k + 1 + dataBlocks h) ↔ Skipped h := by
  have next : (blockOffset (k + 1 + dataBlocks h)).toNat = 512 * (k + 1 + dataBlocks h) := by
    rw [blockOffset, BitVec.toNat_ofNat, Nat.mod_eq_of_lt fits]
  rw [← BitVec.toNat_inj, next, Skipped]
  cases regular : isRegular h with
  | true =>
    rw [nextheader_regular header regular fits, if_pos rfl, dataBlocks, if_pos (isRegular_carriesData regular)]
    omega
  | false =>
    rw [nextheader_other regular (by omega), if_neg Bool.false_ne_true, dataBlocks]
    split_ifs with data
    · constructor
      · intro same _
        omega
      · intro empty
        have := empty data
        omega
    · exact ⟨fun _ carries => absurd carries data, fun _ => by omega⟩

/-! ### The walk -/

section Walk
variable {dev : BitVec 64 → Option Block} {junk : Nat → Junk}

/-- The blocks of an image have offsets of 64 bits. -/
lemma Image.fits {k : Nat} {hs : List Block} (image : Image dev k hs) : 512 * (k + 1) ≤ 2 ^ 64 := by
  induction hs generalizing k with
  | nil => exact image.2
  | cons h hs ih =>
    have := ih image.2.2.2
    omega

/-- Making up a directory needs no budget. -/
lemma addDir_straight (dnode : BitVec 64) (dir : Str) : Straight (addDir junk dnode dir) := by
  refine .ite (.pure _) (.bind (.asks _) fun inode => .bind (.when ?_) fun _ => .pure _)
  refine .bind (.bind (.asks _) fun _ => .bind (.update _) fun _ => .pure _) fun j => ?_
  refine .bind (.bind (.asks _) fun _ => .bind (.update _) fun _ => .pure _) fun new => ?_
  exact .bind (.update _) fun _ => vnodesPut_straight _ _

/-- Making up directories needs no budget. -/
lemma addDirs_straight (dnode : BitVec 64) (dirs : List Str) : Straight (addDirs junk dnode dirs) := by
  induction dirs generalizing dnode with
  | nil => exact .pure _
  | cons dir dirs ih => exact .bind (addDir_straight dnode dir) fun dnode => ih dnode

/-- Entering a file needs no budget. -/
lemma tarfsRegularfile_straight (h : Block) (offset : BitVec 64) : Straight (tarfsRegularfile junk h offset) := by
  refine .bind (.bind (.asks _) fun _ => .bind (.update _) fun _ => .pure _) fun j => ?_
  refine .bind (addDirs_straight _ _) fun dnode => .bind (.asks _) fun inode => ?_
  refine .ite (vnodesPut_straight _ _) (.bind (.bind (.asks _) fun _ => .bind (.update _) fun _ => .pure _) ?_)
  exact fun inode => .bind (vnodesPut_straight _ _) fun _ => .update _

/-- Entering all files needs no budget. -/
lemma enterAll_straight (k : Nat) (hs : List Block) : Straight (enterAll junk k hs) := by
  induction hs generalizing k with
  | nil => exact .pure _
  | cons h hs ih => exact .bind (.when (tarfsRegularfile_straight h _)) fun _ => ih _

/-- Making up directories fails at a null pointer only. -/
lemma addDirs_faults (dnode : BitVec 64) (dirs : List Str) : Faults .null (addDirs junk dnode dirs) := by
  induction dirs generalizing dnode with
  | nil => exact .pure _
  | cons dir dirs ih =>
    refine .bind (.ite (.pure _) (.bind (.asks _) fun inode => .bind (.when ?_) fun _ => .pure _)) fun dnode => ih dnode
    refine .bind (.bind (.asks _) fun _ => .bind (.update _) fun _ => .pure _) fun j => ?_
    refine .bind (.bind (.asks _) fun _ => .bind (.update _) fun _ => .pure _) fun new => ?_
    exact .bind (.update _) fun _ => vnodesPut_faults _ _

/-- Nothing but a null pointer from the vector keeps `tarfs_regularfile` from entering a file. -/
lemma tarfsRegularfile_faults (h : Block) (offset : BitVec 64) : Faults .null (tarfsRegularfile junk h offset) := by
  refine .bind (.bind (.asks _) fun _ => .bind (.update _) fun _ => .pure _) fun j => ?_
  refine .bind (addDirs_faults _ _) fun dnode => .bind (.asks _) fun inode => ?_
  refine .ite (vnodesPut_faults _ _) (.bind (.bind (.asks _) fun _ => .bind (.update _) fun _ => .pure _) ?_)
  exact fun inode => .bind (vnodesPut_faults _ _) fun _ => .update _

/-- Entering files fails at a null pointer only. -/
lemma enterAll_faults (k : Nat) (hs : List Block) : Faults .null (enterAll junk k hs) := by
  induction hs generalizing k with
  | nil => exact .pure _
  | cons h hs ih => exact .bind (.when (tarfsRegularfile_faults h _)) fun _ => ih _

/-- Files that can be entered are. -/
lemma entered_iff (hs : List Block) : Entered junk hs ↔ ∃ fs, Returns (enterAll junk 0 hs) (rooted junk) () fs := by
  rw [Entered, ← (enterAll_faults 0 hs).returns_iff (enterAll_straight 0 hs)]
  exact ⟨fun ⟨_, fs, run⟩ => ⟨fs, run⟩, fun ⟨fs, run⟩ => ⟨(), fs, run⟩⟩

/-- A turn of the scan needs no budget. -/
lemma scanBody_straight (offset : BitVec 64) : Straight (scanBody dev junk offset) := by
  rw [scanBody]
  cases dev (offset &&& ~~~511) with
  | none => exact .pure _
  | some h => exact .ite (.pure _) (.bind (.when (tarfsRegularfile_straight h offset)) fun _ => .pure _)

/-- The turn for a valid header. -/
lemma scanBody_valid {offset : BitVec 64} {h : Block} (read : dev (offset &&& ~~~511) = some h)
    (valid : tarfsValidate h = true) : scanBody dev junk offset = (do
      when (isRegular h) (tarfsRegularfile junk h offset)
      return .inl (tarfsNextheader h offset)) := by
  rw [scanBody, read]
  dsimp only
  rw [if_neg (not_not_intro valid)]

/-- The turn for a block that is no header. -/
lemma scanBody_invalid {offset : BitVec 64} {h : Block} (read : dev (offset &&& ~~~511) = some h)
    (invalid : tarfsValidate h = false) : scanBody dev junk offset = (return .inr ()) := by
  rw [scanBody, read]
  dsimp only
  rw [if_pos (by rw [invalid]; exact Bool.false_ne_true)]

/-- Offsets of blocks are not rounded. -/
lemma blockOffset_aligned (k : Nat) : blockOffset k &&& ~~~511 = blockOffset k := by
  apply BitVec.eq_of_toNat_eq
  have rounded := Word.toNat_and_not (blockOffset k) 9
  refine Eq.trans rounded ?_
  rw [blockOffset, BitVec.toNat_ofNat]
  omega

/-- The first header is read first. -/
lemma headerOffsets_head (k : Nat) (hs : List Block) : (headerOffsets k hs).head? = some (blockOffset k) := by
  cases hs <;> rfl

/-- A block of zeros is no header. -/
lemma zeroBlock_invalid : tarfsValidate zeroBlock = false := by decide +kernel

/-- From any block of an archive on, the loop visits the headers if their data is skipped and the files are entered. -/
lemma visits_iff {k : Nat} {hs : List Block} (image : Image dev k hs) (fs : TarfsT) :
    (∃ fs', Visits (scanBody dev junk) (blockOffset k) fs (headerOffsets k hs) () fs') ↔
      (∀ h ∈ hs, Skipped h) ∧ ∃ fs', Returns (enterAll junk k hs) fs () fs' := by
  induction hs generalizing k fs with
  | nil =>
    have read : dev (blockOffset k &&& ~~~511) = some zeroBlock := by
      rw [blockOffset_aligned]
      exact image.1
    refine ⟨fun _ => ⟨nofun, fs, .pure _ _⟩, fun _ => ⟨fs, .leave ?_⟩⟩
    rw [scanBody_invalid read zeroBlock_invalid]
    exact .pure _ _
  | cons h hs ih =>
    obtain ⟨block, header, -, rest⟩ := image
    have read : dev (blockOffset k &&& ~~~511) = some h := by
      rw [blockOffset_aligned]
      exact block
    have fits : 512 * (k + 1 + dataBlocks h) < 2 ^ 64 := by
      have := rest.fits
      omega
    have turn : scanBody dev junk (blockOffset k) = _ := scanBody_valid read header.valid
    have straight : Straight (when (isRegular h) (tarfsRegularfile junk h (blockOffset k))) :=
      .when (tarfsRegularfile_straight h (blockOffset k))
    constructor
    · rintro ⟨fs', visits⟩
      rw [headerOffsets] at visits
      generalize later : headerOffsets (k + 1 + dataBlocks h) hs = offsets at visits
      cases visits with
      | leave _ =>
        have head := headerOffsets_head (k + 1 + dataBlocks h) hs
        rw [later] at head
        cases head
      | turn first others =>
        rw [turn] at first
        obtain ⟨_, fs1, entered, last⟩ := straight.bind_returns first
        obtain ⟨next, same⟩ := last.unique (.pure _ _)
        cases next
        rw [same] at others
        have head := others.head
        rw [← later, headerOffsets_head] at head
        have skipped := (nextheader_iff header fits).mp (Option.some.inj head).symm
        rw [← Option.some.inj head, ← later] at others
        obtain ⟨all, fs2, enters⟩ := (ih rest fs1).mp ⟨fs', others⟩
        exact ⟨List.forall_mem_cons.mpr ⟨skipped, all⟩, fs2, .bind entered enters⟩
    · rintro ⟨all, fs', enters⟩
      obtain ⟨skipped, others⟩ := List.forall_mem_cons.mp all
      obtain ⟨_, fs1, entered, enters⟩ := straight.bind_returns enters
      obtain ⟨fs2, visits⟩ := (ih rest fs1).mpr ⟨others, fs', enters⟩
      rw [← (nextheader_iff header fits).mpr skipped] at visits
      refine ⟨fs2, .turn ?_ visits⟩
      rw [turn]
      exact .bind entered (.pure _ _)

/-- The scan is its loop, after the root. -/
lemma tarfsScan_loop (n : Nat) : tarfsScan dev junk n tarfsNew = loop (scanBody dev junk) 0 n (rooted junk) := rfl

end Walk

/-- Memory that is all zeros. -/
def noJunk : Junk := ⟨0, 0, 0, [], []⟩

/-- The header of an entry `a` with a size of 1. -/
def header1 (type : Byte) (sum : Str) : Block
  | 0 => 0x61
  | i => if 124 ≤ i ∧ i < 134 then 0x30 else if i = 134 then 0x31 else if i = 156 then type else
    if 148 ≤ i then sum.getD (i - 148) 0 else 0

/-- The header, a block of data, and the block at the end. -/
def device1 (h : Block) (offset : BitVec 64) : Option Block :=
  if offset = 0 then some h else if offset = 512 ∨ offset = 1024 then some zeroBlock else none

/-- An image of one header and one block. -/
lemma image1 {h : Block} (header : Header h) (data : dataBlocks h = 1) : Image (device1 h) 0 [h] := by
  refine ⟨rfl, header, fun i hi => ?_, ?_⟩
  · rw [data] at hi
    interval_cases i
    exact nofun
  · rw [data]
    exact ⟨rfl, by decide⟩

/-- A regular file. -/
def regular1 : Block := header1 0x30 [0x30, 0x30, 0x30, 0x31, 0x36, 0x34, 0x32]

/-- A global extended header. -/
def extended1 : Block := header1 0x67 [0x30, 0x30, 0x30, 0x31, 0x37, 0x33, 0x31]

/-- A regular file, with a size of eleven digits. -/
lemma header_regular1 : Header regular1 := ⟨by decide +kernel, by decide, by decide, by decide⟩

/-- An extended header. -/
lemma header_extended1 : Header extended1 := ⟨by decide +kernel, by decide, by decide, by decide⟩

/-- The regular file can be entered. -/
lemma entered_regular1 : ∃ fs, Returns (tarfsRegularfile (fun _ => noJunk) regular1 0) (rooted fun _ => noJunk) () fs := by
  have ok : (tarfsRegularfile (fun _ => noJunk) regular1 0 0 (rooted fun _ => noJunk)).isOk = true := by decide +kernel
  cases run : tarfsRegularfile (fun _ => noJunk) regular1 0 0 (rooted fun _ => noJunk) with
  | ok r => exact ⟨r.2, (tarfsRegularfile_straight regular1 0).returns run⟩
  | error stop =>
    rw [run] at ok
    cases ok

end Twcos.Tarfs
