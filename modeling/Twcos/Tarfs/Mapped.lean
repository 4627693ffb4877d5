import Twcos.Tarfs.Page
import Twcos.Vm.File

/-!
# Files of the archive in memory

Where the faults of a vnode segment and `tarfs_get_page` meet. The pages that the page cache reads in are those that
`tarfs_get_page` fills, so a fault at the first byte of a page, in a segment that starts at the beginning of the file,
maps the bytes that the archive has for the file, with zeros behind its end.
-/

namespace Twcos.Tarfs
open Twcos.Text Twcos.Vm

/-- What a page has after `tarfs_get_page`: the page is at `p`, and memory is `mem` before. -/
def tarfsFiles (dev : BitVec 64 → Block) (nodes : Vnode → TarfsNode) (p : BitVec 32) (mem : Memory) :
    Vnode → Offset → Fin 4096 → Byte :=
  fun vnode offset i => getPage (deviceRead dev) (nodes vnode) offset p mem (p + BitVec.ofNat 32 i)

section Mapped
variable {dev : BitVec 64 → Block} {nodes : Vnode → TarfsNode} {p : BitVec 32} {mem : Memory} {vnode : Vnode}

/-- A page of a file of less than 2 GiB, at an offset that is not behind its end. -/
lemma tarfsFiles_byte {offset : Offset} (header : (nodes vnode).offset.toNat % 512 = 0)
    (page : offset.toNat % 4096 = 0) (small : (nodes vnode).size.toNat < 2 ^ 31)
    (inside : offset.toNat ≤ (nodes vnode).size.toNat) (i : Fin 4096) :
    tarfsFiles dev nodes p mem vnode offset i = if offset.toNat + i < (nodes vnode).size.toNat then
      fileByte dev (nodes vnode) (offset + BitVec.ofNat 64 i) else 0 := by
  have left := left_toNat (nodes vnode) offset
  rw [if_pos inside] at left
  have readmax := readmax_eq left
  rw [if_pos (by omega)] at readmax
  have ok : PageOk dev (nodes vnode) offset p := by
    rw [getPage_ok_iff header (by omega) readmax]
    intro j hj
    by_cases data : offset.toNat + j < (nodes vnode).size.toNat
    · rw [if_pos data, if_pos (by omega)]
    · rw [if_neg data, if_neg (by omega)]
  exact ok.data mem i i.isLt

/-- A fault in a file segment maps the bytes of the file, where it maps the right page of the page cache. -/
theorem fault_bytes {tbl : Nat → Nat} {s : Kernel (Fin 4096 → Byte)} {cur as : Nat} {seg : FileSegment} {q : Addr}
    (ready : Ready (tarfsFiles dev nodes p mem) tbl s cur as seg vnode q) (hq : seg.Has q)
    (read : seg.read_offset = 0) (aligned : archPageAlign q = q) (near : (q - seg.base).toNat < 2 ^ 31)
    (header : (nodes vnode).offset.toNat % 512 = 0) (small : (nodes vnode).size.toNat < 2 ^ 31)
    (inside : (q - seg.base).toNat ≤ (nodes vnode).size.toNat) (write : Bool) :
    ∃ s1 pte, vmPageFault (tarfsFiles dev nodes p mem) tbl s cur q write = some s1 ∧
      s1.tables (tbl as) (q >>> 12) = some pte ∧ ∀ i : Fin 4096, s1.contents pte.page i =
        if (q - seg.base).toNat + i < (nodes vnode).size.toNat then
          fileByte dev (nodes vnode) ((q - seg.base).setWidth 64 + BitVec.ofNat 64 i) else 0 := by
  obtain ⟨s1, pte, fault, entry, -, -, contents, -⟩ := ready.fileFaults hq read aligned near write write
  rw [aligned] at entry
  have offset : seg.fileOffset q = (q - seg.base).setWidth 64 := by
    rw [FileSegment.fileOffset, read, aligned]
    exact BitVec.zero_add _
  have same : ((q - seg.base).setWidth 64 : Offset).toNat = (q - seg.base).toNat := by
    rw [BitVec.toNat_setWidth]
    omega
  have page : (q - seg.base).toNat % 4096 = 0 := by
    have align := archPageAlign_toNat q
    rw [aligned] at align
    have base := seg.base_aligned
    rw [(FileSegment.base_le hq).2]
    have := (FileSegment.base_le hq).1
    omega
  refine ⟨s1, pte, fault, entry, fun i => ?_⟩
  rw [contents, offset, tarfsFiles_byte header (by rwa [same]) small (by rwa [same]), same]

end Mapped

end Twcos.Tarfs
