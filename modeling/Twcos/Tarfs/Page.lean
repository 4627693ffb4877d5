import Twcos.Tarfs.Device

/-!
# Pages of files

`tarfs_get_page` of `fs/tarfs/tarfs.c` fills a page with the data of a file. How much is left of the file from an offset
on is a difference of 64 bits that is cut off to an `int`: it is negative when 2 GiB or more are left, and also for most
offsets behind the end of the file. Then nothing is read and the zeros are written from far below the page on, or the
page is filled from behind the file. `pageFits_iff` says for which files and offsets the page is right.

The device may be any that fills the buffer of an operation; `tarfsGetPage_device` says that the static devices are of
this kind, if the image is not in the page that is filled.
-/

namespace Twcos.Tarfs
open Twcos.Text

/-- A block read from a device. -/
def deviceRead (dev : BitVec 64 → Block) (mem : Memory) (offset : BitVec 64) (buf : BitVec 32) : Memory := fun a =>
  if a - buf < 512 then dev (offset &&& ~~~511) (a - buf).toNat else mem a

/-- `tarfs_get_page`, with `read` for `tarfs_readblock` and the page at `p`. -/
def getPage (read : Memory → BitVec 64 → BitVec 32 → Memory) (node : TarfsNode) (offset : BitVec 64) (p : BitVec 32)
    (mem : Memory) : Memory :=
  let mem := (pageBlocks node offset).foldl (fun mem b => read mem b.1 (p + b.2)) mem
  if readmax node offset < 4096 then
    memset mem (p + BitVec.ofInt 32 (readmax node offset)) 0 (BitVec.ofInt 32 (4096 - readmax node offset))
  else mem

/-- `tarfs_get_page` on a static device. -/
lemma tarfsGetPage_eq (sdev : DevStatic) (node : TarfsNode) (offset : BitVec 64) (p : BitVec 32) (mem : Memory) :
    tarfsGetPage sdev node offset p mem = getPage (tarfsReadblock sdev) node offset p mem := rfl

/-- The byte of the device for a position in the data of a file, which starts in the block after the header. -/
def fileByte (dev : BitVec 64 → Block) (node : TarfsNode) (k : BitVec 64) : Byte :=
  dev ((node.offset + 512 + k) &&& ~~~511) ((node.offset + 512 + k).toNat % 512)

/-- Whatever memory holds, the page has the data of the file from the offset on, and zeros behind its end, and nothing
    else is changed. -/
structure PageOk (dev : BitVec 64 → Block) (node : TarfsNode) (offset : BitVec 64) (p : BitVec 32) : Prop where
  data : ∀ mem, ∀ i < 4096, getPage (deviceRead dev) node offset p mem (p + BitVec.ofNat 32 i) =
    if offset.toNat + i < node.size.toNat then fileByte dev node (offset + BitVec.ofNat 64 i) else 0
  within : ∀ mem a, 4096 ≤ (a - p).toNat → getPage (deviceRead dev) node offset p mem a = mem a

/-- How far the offset is behind the end of the file, as far as an `int` goes. -/
def excess (node : TarfsNode) (offset : BitVec 64) : Nat := (offset.toNat - node.size.toNat) % 2 ^ 32

/-- Less than 2 GiB are left of the file. Or the offset is behind its end, by a multiple of 4 GiB or, if the device has
    zeros there, by more than 2 GiB above one. -/
def PageFits (dev : BitVec 64 → Block) (node : TarfsNode) (offset : BitVec 64) : Prop :=
  offset.toNat ≤ node.size.toNat ∧ node.size.toNat - offset.toNat < 2 ^ 31 ∨
    node.size.toNat < offset.toNat ∧ (excess node offset = 0 ∨
      2 ^ 31 < excess node offset ∧
        ∀ i < min (2 ^ 32 - excess node offset) 4096, fileByte dev node (offset + BitVec.ofNat 64 i) = 0)

section Pages
variable {dev : BitVec 64 → Block} {node : TarfsNode} {offset : BitVec 64} {p : BitVec 32}

/-- The low word of the difference, before it is taken as an `int`. -/
lemma left_toNat (node : TarfsNode) (offset : BitVec 64) :
    ((node.size.zeroExtend 64 - offset).setWidth 32).toNat =
      if offset.toNat ≤ node.size.toNat then node.size.toNat - offset.toNat
      else if excess node offset = 0 then 0 else 2 ^ 32 - excess node offset := by
  have size := node.size.isLt
  have far := offset.isLt
  rw [BitVec.toNat_setWidth, BitVec.toNat_sub, BitVec.zeroExtend_eq_setWidth, BitVec.toNat_setWidth,
    Nat.mod_eq_of_lt (show node.size.toNat < 2 ^ 64 by omega), excess]
  by_cases le : offset.toNat ≤ node.size.toNat
  · rw [if_pos le]
    omega
  · rw [if_neg le]
    split <;> omega

/-- `readmax` for a low word. -/
lemma readmax_eq {node : TarfsNode} {offset : BitVec 64} {l : Nat}
    (hl : ((node.size.zeroExtend 64 - offset).setWidth 32).toNat = l) :
    readmax node offset = if l < 2 ^ 31 then ((min l 4096 : Nat) : Int) else (l : Int) - 2 ^ 32 := by
  have lt : l < 2 ^ 32 := by
    rw [← hl]
    exact BitVec.isLt _
  have signed : ((node.size.zeroExtend 64 - offset).setWidth 32).toInt =
      if l < 2 ^ 31 then (l : Int) else (l : Int) - 2 ^ 32 := by
    rw [BitVec.toInt_eq_toNat_cond, hl]
    split_ifs <;> omega
  rw [readmax, signed]
  by_cases small : l < 2 ^ 31
  · simp only [if_pos small]
    split <;> omega
  · simp only [if_neg small]
    split <;> omega

/-- What is left of the file is at most a page, and an `int`. -/
lemma readmax_range (node : TarfsNode) (offset : BitVec 64) :
    -2 ^ 31 ≤ readmax node offset ∧ readmax node offset ≤ 4096 := by
  have lt := BitVec.isLt ((node.size.zeroExtend 64 - offset).setWidth 32)
  rw [readmax_eq rfl]
  split <;> omega

/-- A position in a block that starts at a multiple of 512. -/
lemma block_position {b : BitVec 64} (aligned : b.toNat % 512 = 0) {i : Nat} (hi : i < 512) :
    (b + BitVec.ofNat 64 i) &&& ~~~511 = b ∧ (b + BitVec.ofNat 64 i).toNat % 512 = i := by
  have lt := b.isLt
  have sum : (b + BitVec.ofNat 64 i).toNat = b.toNat + i := by
    rw [BitVec.toNat_add, BitVec.toNat_ofNat]
    omega
  constructor
  · apply BitVec.eq_of_toNat_eq
    refine Eq.trans (Word.toNat_and_not _ 9) ?_
    rw [sum]
    omega
  · rw [sum]
    omega

/-- The memory after some blocks have been read. -/
lemma readBlocks_eq (node_aligned : node.offset.toNat % 512 = 0) (aligned : offset.toNat % 512 = 0) (mem : Memory)
    {n : Nat} (hn : n ≤ 8) (a : BitVec 32) :
    ((List.range n).map fun j => (offset + 512 + node.offset + BitVec.ofNat 64 (512 * j), BitVec.ofNat 32 (512 * j))).foldl
      (fun mem b => deviceRead dev mem b.1 (p + b.2)) mem a =
      if (a - p).toNat < 512 * n then fileByte dev node (offset + BitVec.ofNat 64 (a - p).toNat) else mem a := by
  induction n with
  | zero => rfl
  | succ n ih =>
    have lt := (a - p).isLt
    have shift : (a - (p + BitVec.ofNat 32 (512 * n))).toNat = (2 ^ 32 - 512 * n + (a - p).toNat) % 2 ^ 32 := by
      have ha := a.isLt
      have hp := p.isLt
      rw [BitVec.toNat_sub, BitVec.toNat_sub, BitVec.toNat_add, BitVec.toNat_ofNat]
      omega
    rw [List.range_succ, List.map_append, List.foldl_append]
    show deviceRead dev _ _ _ a = _
    rw [deviceRead, ih (by omega)]
    have size : (512 : BitVec 32).toNat = 512 := rfl
    by_cases here : a - (p + BitVec.ofNat 32 (512 * n)) < 512
    · rw [if_pos here]
      rw [BitVec.lt_def, shift, size] at here
      -- the byte is in this block
      have start : (offset + 512 + node.offset + BitVec.ofNat 64 (512 * n)).toNat % 512 = 0 := by
        have block : (512 : BitVec 64).toNat = 512 := rfl
        rw [BitVec.toNat_add, BitVec.toNat_add, BitVec.toNat_add, BitVec.toNat_ofNat, block]
        omega
      have position : node.offset + 512 + (offset + BitVec.ofNat 64 (a - p).toNat) =
          offset + 512 + node.offset + BitVec.ofNat 64 (512 * n) + BitVec.ofNat 64 ((a - p).toNat - 512 * n) := by
        have sum : BitVec.ofNat 64 (a - p).toNat =
            BitVec.ofNat 64 (512 * n) + BitVec.ofNat 64 ((a - p).toNat - 512 * n) := by
          rw [← BitVec.ofNat_add]
          congr 1
          omega
        rw [sum]
        ac_rfl
      have index : (a - (p + BitVec.ofNat 32 (512 * n))).toNat = (a - p).toNat - 512 * n := by
        rw [shift]
        omega
      obtain ⟨block, inside⟩ := block_position start (i := (a - p).toNat - 512 * n) (by omega)
      rw [if_pos (by omega), fileByte, position, block, inside, index, aligned_and start]
    · rw [if_neg here]
      rw [BitVec.lt_def, shift, size] at here
      by_cases before : (a - p).toNat < 512 * n
      · rw [if_pos before, if_pos (by omega)]
      · rw [if_neg before, if_neg (by omega)]

/-- The page when something is left of the file, or nothing. -/
lemma getPage_nonneg (node_aligned : node.offset.toNat % 512 = 0) (aligned : offset.toNat % 512 = 0) {r : Nat}
    (hr : readmax node offset = r) (mem : Memory) (a : BitVec 32) :
    getPage (deviceRead dev) node offset p mem a =
      if (a - p).toNat < r then fileByte dev node (offset + BitVec.ofNat 64 (a - p).toNat)
      else if (a - p).toNat < 4096 then 0 else mem a := by
  have range := readmax_range node offset
  rw [hr] at range
  have blocks : (r + 511) / 512 ≤ 8 := by omega
  have read := @readBlocks_eq dev node offset p node_aligned aligned mem _ blocks a
  rw [getPage, pageBlocks, hr, Int.toNat_natCast]
  by_cases part : (r : Int) < 4096
  · rw [if_pos part, memset]
    have start : (a - (p + BitVec.ofInt 32 r)).toNat = (2 ^ 32 - r + (a - p).toNat) % 2 ^ 32 := by
      have ha := a.isLt
      have hp := p.isLt
      rw [BitVec.ofInt_natCast, BitVec.toNat_sub, BitVec.toNat_sub, BitVec.toNat_add, BitVec.toNat_ofNat]
      omega
    have count : (BitVec.ofInt 32 (4096 - r)).toNat = 4096 - r := by
      have nat : (4096 - r : Int) = (4096 - r : Nat) := by omega
      rw [nat, BitVec.ofInt_natCast, BitVec.toNat_ofNat]
      omega
    have lt := (a - p).isLt
    by_cases zeros : a - (p + BitVec.ofInt 32 r) < BitVec.ofInt 32 (4096 - r)
    · rw [if_pos zeros]
      rw [BitVec.lt_def, start, count] at zeros
      rw [if_neg (by omega), if_pos (by omega)]
    · rw [if_neg zeros]
      rw [BitVec.lt_def, start, count] at zeros
      refine read.trans ?_
      by_cases data : (a - p).toNat < r
      · rw [if_pos (by omega), if_pos data]
      · rw [if_neg (by omega), if_neg data, if_neg (by omega)]
  · rw [if_neg part]
    have full : r = 4096 := by omega
    subst full
    refine read.trans ?_
    by_cases data : (a - p).toNat < 4096
    · rw [if_pos data, if_pos data]
    · rw [if_neg data, if_neg data, if_neg data]

/-- With a negative count, the byte before the page is overwritten. -/
lemma getPage_neg (neg : readmax node offset < 0) : ¬PageOk dev node offset p := by
  intro ok
  have range := readmax_range node offset
  have before : (p - 1 - p).toNat = 2 ^ 32 - 1 := by
    have hp := p.isLt
    have one : (1 : BitVec 32).toNat = 1 := rfl
    rw [BitVec.toNat_sub, BitVec.toNat_sub, one]
    omega
  have kept := ok.within (fun _ => 1) (p - 1) (by omega)
  have empty : pageBlocks node offset = [] := by
    rw [pageBlocks, Int.toNat_of_nonpos (by omega)]
    rfl
  rw [getPage, empty, if_pos (by omega), List.foldl_nil, memset, if_pos] at kept
  · exact absurd kept (by decide)
  · have start : (p - 1 - (p + BitVec.ofInt 32 (readmax node offset))).toNat = (-readmax node offset - 1).toNat := by
      have hp := p.isLt
      have one : (1 : BitVec 32).toNat = 1 := rfl
      rw [BitVec.toNat_sub, BitVec.toNat_sub, BitVec.toNat_add, BitVec.toNat_ofInt, one]
      omega
    have count : (BitVec.ofInt 32 (4096 - readmax node offset)).toNat = (4096 - readmax node offset).toNat := by
      rw [BitVec.toNat_ofInt]
      omega
    rw [BitVec.lt_def, start, count]
    omega

/-- The index of a byte of the page. -/
lemma index_toNat (p : BitVec 32) {i : Nat} (hi : i < 4096) : (p + BitVec.ofNat 32 i - p).toNat = i := by
  rw [add_sub_base, BitVec.toNat_ofNat]
  omega

/-- The page is right if what is read is what the file has. -/
lemma getPage_ok_iff (node_aligned : node.offset.toNat % 512 = 0) (aligned : offset.toNat % 512 = 0) {r : Nat}
    (hr : readmax node offset = r) : PageOk dev node offset p ↔ ∀ i < 4096,
      (if i < r then fileByte dev node (offset + BitVec.ofNat 64 i) else 0) =
        if offset.toNat + i < node.size.toNat then fileByte dev node (offset + BitVec.ofNat 64 i) else 0 := by
  have page : ∀ mem, ∀ i < 4096, getPage (deviceRead dev) node offset p mem (p + BitVec.ofNat 32 i) =
      if i < r then fileByte dev node (offset + BitVec.ofNat 64 i) else 0 := by
    intro mem i hi
    rw [getPage_nonneg node_aligned aligned hr, index_toNat p hi, if_pos hi]
  have range := readmax_range node offset
  rw [hr] at range
  constructor
  · intro ok i hi
    rw [← page (fun _ => 0) i hi, ok.data _ i hi]
  · intro same
    constructor
    · intro mem i hi
      rw [page mem i hi, same i hi]
    · intro mem a ha
      rw [getPage_nonneg node_aligned aligned hr, if_neg (by omega), if_neg (by omega)]

end Pages

/-- For which offsets the page of a file is right, on a device that fills every buffer. -/
theorem pageFits_iff (dev : BitVec 64 → Block) {node : TarfsNode} {offset : BitVec 64} (p : BitVec 32)
    (header : node.offset.toNat % 512 = 0) (page : offset.toNat % 4096 = 0) :
    PageOk dev node offset p ↔ PageFits dev node offset := by
  have aligned : offset.toNat % 512 = 0 := by omega
  have left := left_toNat node offset
  rw [PageFits]
  by_cases le : offset.toNat ≤ node.size.toNat
  · rw [if_pos le] at left
    have readmax := readmax_eq left
    by_cases small : node.size.toNat - offset.toNat < 2 ^ 31
    · rw [if_pos small] at readmax
      rw [getPage_ok_iff header aligned readmax]
      refine iff_of_true (fun i hi => ?_) (.inl ⟨le, small⟩)
      by_cases data : offset.toNat + i < node.size.toNat
      · rw [if_pos data, if_pos (by omega)]
      · rw [if_neg data, if_neg (by omega)]
    · rw [if_neg small] at readmax
      refine iff_of_false (getPage_neg ?_) ?_
      · have lt := node.size.isLt
        omega
      · omega
  · rw [if_neg le] at left
    have behind : ∀ i, ¬offset.toNat + i < node.size.toNat := by
      intro i
      omega
    have mod : excess node offset < 2 ^ 32 := Nat.mod_lt _ (by decide)
    by_cases zero : excess node offset = 0
    · rw [if_pos zero] at left
      rw [getPage_ok_iff header aligned (readmax_eq left)]
      refine iff_of_true (fun i hi => ?_) (.inr ⟨Nat.not_le.mp le, .inl zero⟩)
      rw [if_neg (behind i), if_neg (by omega)]
    · rw [if_neg zero] at left
      have readmax := readmax_eq left
      by_cases high : 2 ^ 31 < excess node offset
      · rw [if_pos (by omega)] at readmax
        rw [getPage_ok_iff header aligned readmax]
        constructor
        · intro same
          refine .inr ⟨Nat.not_le.mp le, .inr ⟨high, fun i hi => ?_⟩⟩
          have byte := same i (by omega)
          rwa [if_pos hi, if_neg (behind i)] at byte
        · rintro (⟨le', -⟩ | ⟨-, zero' | ⟨-, zeros⟩⟩)
          · exact absurd le' le
          · exact absurd zero' zero
          · intro i hi
            rw [if_neg (behind i)]
            split
            · next read => exact zeros i read
            · rfl
      · rw [if_neg (by omega)] at readmax
        refine iff_of_false (getPage_neg (by omega)) ?_
        rintro (⟨le', -⟩ | ⟨-, zero' | ⟨high', -⟩⟩)
        · exact le le'
        · exact zero zero'
        · exact high high'

/-- A file of a hundred bytes, the first of an archive. -/
def hundredBytes : TarfsNode := ⟨.regular, 0, 100, 2⟩

/-- Its only page. -/
theorem getPage_first : PageOk (fun _ _ => 0x61) hundredBytes 0 0xd0001000 :=
  (pageFits_iff (fun _ _ => 0x61) 0xd0001000 (by decide) (by decide)).mpr (.inl ⟨by decide, by decide⟩)

/-- The page behind it: `readmax` is negative, and zeros are written in front of the page. -/
theorem getPage_behind : readmax hundredBytes 4096 = -3996 ∧
    getPage (deviceRead fun _ _ => 0x61) hundredBytes 4096 0xd0001000 (fun _ => 1) 0xd0000fff = 0 ∧
    ¬PageOk (fun _ _ => 0x61) hundredBytes 4096 0xd0001000 :=
  ⟨by decide, by decide, getPage_neg (by decide)⟩

/-! ### Static devices -/

section Static
variable {sdev : DevStatic} {mem m : Memory} {p : BitVec 32}

/-- Reading a block from an image that has not changed. -/
lemma readblock_device {offset : BitVec 64} {buf : BitVec 32}
    (image : ∀ i < 512, m (sdev.p + (offset &&& ~~~511).setWidth 32 + BitVec.ofNat 32 i) =
      mem (sdev.p + (offset &&& ~~~511).setWidth 32 + BitVec.ofNat 32 i)) :
    tarfsReadblock sdev m offset buf = deviceRead (staticBlock sdev mem) m offset buf := by
  funext a
  show memcpy m buf (sdev.p + (offset &&& ~~~511).setWidth 32) 512 a = _
  rw [memcpy, deviceRead]
  split
  · next here =>
    have byte := image (a - buf).toNat here
    rw [BitVec.ofNat_toNat, BitVec.setWidth_eq] at byte
    rw [byte, staticBlock, BitVec.ofNat_toNat, BitVec.setWidth_eq]
  · rfl

/-- Reading blocks into the page, on a device that holds an image outside of it. -/
lemma readBlocks_device {bs : List (BitVec 64 × BitVec 32)} (same : ∀ a, 4096 ≤ (a - p).toNat → m a = mem a)
    (page : ∀ b ∈ bs, b.2.toNat + 512 ≤ 4096)
    (apart : ∀ b ∈ bs, ∀ i < 512, 4096 ≤ (sdev.p + (b.1 &&& ~~~511).setWidth 32 + BitVec.ofNat 32 i - p).toNat) :
    bs.foldl (fun m b => tarfsReadblock sdev m b.1 (p + b.2)) m =
      bs.foldl (fun m b => deviceRead (staticBlock sdev mem) m b.1 (p + b.2)) m := by
  induction bs generalizing m with
  | nil => rfl
  | cons b bs ih =>
    have first : tarfsReadblock sdev m b.1 (p + b.2) = deviceRead (staticBlock sdev mem) m b.1 (p + b.2) :=
      readblock_device fun i hi => same _ (apart b List.mem_cons_self i hi)
    rw [List.foldl_cons, List.foldl_cons, first]
    apply ih
    · intro a ha
      rw [← same a ha, deviceRead, if_neg]
      have inside := page b List.mem_cons_self
      have la := a.isLt
      have lp := p.isLt
      have size : (512 : BitVec 32).toNat = 512 := rfl
      rw [BitVec.toNat_sub] at ha
      rw [BitVec.lt_def, BitVec.toNat_sub, BitVec.toNat_add, size]
      omega
    · exact fun b hb => page b (List.mem_cons_of_mem _ hb)
    · exact fun b hb => apart b (List.mem_cons_of_mem _ hb)

/-- A static device fills every buffer with a block of its image, as long as the page is not part of it. -/
theorem tarfsGetPage_device (sdev : DevStatic) (node : TarfsNode) (offset : BitVec 64) (p : BitVec 32) (mem : Memory)
    (apart : ∀ b ∈ pageBlocks node offset, ∀ i < 512,
      4096 ≤ (sdev.p + (b.1 &&& ~~~511).setWidth 32 + BitVec.ofNat 32 i - p).toNat) :
    tarfsGetPage sdev node offset p mem = getPage (deviceRead (staticBlock sdev mem)) node offset p mem := by
  have page : ∀ b ∈ pageBlocks node offset, b.2.toNat + 512 ≤ 4096 := by
    intro b hb
    obtain ⟨j, hj, rfl⟩ := List.mem_map.mp hb
    have range := readmax_range node offset
    rw [List.mem_range] at hj
    show (BitVec.ofNat 32 (512 * j)).toNat + 512 ≤ 4096
    rw [BitVec.toNat_ofNat]
    omega
  rw [tarfsGetPage_eq, getPage, readBlocks_device (fun _ _ => rfl) page apart]
  rfl

end Static

end Twcos.Tarfs
