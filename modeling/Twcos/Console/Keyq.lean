import Twcos.Fifo.Basic

/-!
# The keyboard queue

Port of `keyb_isr`, `keyq_empty` and `keyq_get` of `arch/i386/console.c`. The interrupt handler puts what it reads from the
port, which is its argument here, and `keyq_get` runs with interrupts disabled, so that neither is interrupted by the
other. The counters are never reduced, and wrap around.

`Holds` says what is in the queue: the counters are as far apart as it is long, and one cell of the ring is never used.
`keyq_fifo` compares all runs with those of a bounded queue.

C → Lean naming: `keyq_ptr` → `keyqPtr`, `keyb_isr` → `keybIsr`, `keyq_empty` → `keyqEmpty`, `keyq_get` → `keyqGet`. `Keyq`
has the static variables.
-/

namespace Twcos.Console
open Twcos.Fifo

structure Keyq where
  keyq : Fin 256 → BitVec 8
  keyhead : BitVec 32
  keytail : BitVec 32

/-- The remainder is that of unsigned numbers, as the size of the array is one. -/
def keyqPtr (i : BitVec 32) : Fin 256 := ⟨i.toNat % 256, Nat.mod_lt _ (by decide)⟩

def keybIsr (scancode : BitVec 8) (k : Keyq) : Keyq :=
  let head := k.keyhead
  if keyqPtr (head + 1) ≠ keyqPtr k.keytail then
    { k with keyq := Function.update k.keyq (keyqPtr head) scancode, keyhead := head + 1 }
  else k

def keyqEmpty (k : Keyq) : Bool := k.keyhead == k.keytail

def keyqGet (k : Keyq) : BitVec 8 × Keyq :=
  if keyqPtr k.keyhead ≠ keyqPtr k.keytail then
    (k.keyq (keyqPtr k.keytail), { k with keytail := k.keytail + 1 })
  else (0, k)

/-- What `console_initialize` does to the queue. -/
def keyqInitialize (k : Keyq) : Keyq := { k with keyhead := 0, keytail := 0 }

/-! ### What is in the queue -/

structure Holds (k : Keyq) (q : Bounded 255 (BitVec 8)) : Prop where
  length : k.keyhead = k.keytail + BitVec.ofNat 32 q.pending.length
  window : Window k.keyq k.keytail.toNat q.pending

variable {k : Keyq} {q : Bounded 255 (BitVec 8)}

/-- The empty queue. -/
lemma initialize_holds (k : Keyq) : Holds (keyqInitialize k) .empty := ⟨rfl, .nil⟩

/-- Wrapping around does not change the remainder. -/
lemma keyqPtr_add (x : BitVec 32) (n : Nat) : (keyqPtr (x + BitVec.ofNat 32 n)).val = (x.toNat + n) % 256 := by
  show (x + BitVec.ofNat 32 n).toNat % 256 = _
  rw [BitVec.toNat_add, BitVec.toNat_ofNat]
  omega

/-- The head points behind the pending scancodes. -/
lemma keyqPtr_head (h : Holds k q) : (keyqPtr k.keyhead).val = (k.keytail.toNat + q.pending.length) % 256 := by
  rw [h.length, keyqPtr_add]

/-- There is room exactly if the next cell is not that of the tail. -/
lemma full_iff_keyqPtr (h : Holds k q) : keyqPtr (k.keyhead + 1) ≠ keyqPtr k.keytail ↔ q.pending.length < 255 := by
  have fits := q.fits
  have next : (keyqPtr (k.keyhead + 1)).val = (k.keytail.toNat + (q.pending.length + 1)) % 256 := by
    rw [h.length, BitVec.add_assoc, ← keyqPtr_add, BitVec.ofNat_add]
    rfl
  have tail : (keyqPtr k.keytail).val = k.keytail.toNat % 256 := rfl
  rw [Ne, Fin.ext_iff, next, tail]
  omega

/-- Something is there exactly if the head and the tail have different cells. -/
lemma nonempty_iff_keyqPtr (h : Holds k q) : keyqPtr k.keyhead ≠ keyqPtr k.keytail ↔ q.pending ≠ [] := by
  have fits := q.fits
  have tail : (keyqPtr k.keytail).val = k.keytail.toNat % 256 := rfl
  rw [Ne, Fin.ext_iff, keyqPtr_head h, tail, ← List.length_pos_iff]
  omega

/-- The queue says that it is empty exactly if nothing is pending. -/
lemma keyqEmpty_iff (h : Holds k q) : keyqEmpty k = true ↔ q.pending = [] := by
  have fits := q.fits
  rw [keyqEmpty, beq_iff_eq, h.length, ← List.length_eq_zero_iff, ← BitVec.toNat_inj, BitVec.toNat_add, BitVec.toNat_ofNat]
  have := k.keytail.isLt
  omega

/-! ### The operations -/

/-- The interrupt puts a scancode, if there is room. -/
lemma keybIsr_holds (scancode : BitVec 8) (h : Holds k q) : Holds (keybIsr scancode k) (q.put scancode) := by
  by_cases room : q.pending.length < 255
  · rw [keybIsr, if_pos ((full_iff_keyqPtr h).mpr room)]
    constructor
    · rw [Bounded.put_pending room, List.length_append, List.length_singleton, BitVec.ofNat_add, ← BitVec.add_assoc,
        ← h.length]
      rfl
    · rw [Bounded.put_pending room]
      exact h.window.put (Nat.lt_succ_of_lt room) (keyqPtr_head h)
  · rw [keybIsr, if_neg fun other => room ((full_iff_keyqPtr h).mp other), Bounded.put_full room]
    exact h

/-- Exactly what comes when there is no room is dropped. -/
lemma keybIsr_drops (scancode : BitVec 8) (h : Holds k q) : keybIsr scancode k = k ↔ q.pending.length = 255 := by
  have fits := q.fits
  constructor
  · intro same
    by_contra room
    rw [keybIsr, if_pos ((full_iff_keyqPtr h).mpr (by omega))] at same
    have head : k.keyhead + 1 = k.keyhead := congrArg Keyq.keyhead same
    have head := congrArg BitVec.toNat head
    have lt := k.keyhead.isLt
    rw [BitVec.toNat_add, show (1 : BitVec 32).toNat = 1 from rfl] at head
    omega
  · intro full
    rw [keybIsr, if_neg fun other => by
      have := (full_iff_keyqPtr h).mp other
      omega]

/-- Reading takes the oldest scancode, or gives zero. -/
lemma keyqGet_holds (h : Holds k q) : (keyqGet k).1 = q.get.1.getD 0 ∧ Holds (keyqGet k).2 q.get.2 := by
  obtain ⟨pending, fits⟩ := q
  cases pending with
  | nil =>
    rw [keyqGet, if_neg fun other => (nonempty_iff_keyqPtr h).mp other rfl]
    exact ⟨rfl, h⟩
  | cons a pending =>
    rw [keyqGet, if_pos ((nonempty_iff_keyqPtr h).mpr (List.cons_ne_nil a pending))]
    obtain ⟨first, rest⟩ := h.window.get (rfl : (keyqPtr k.keytail).val = _)
    refine ⟨first, ?_, rest.congr ?_⟩
    · show k.keyhead = k.keytail + 1 + BitVec.ofNat 32 pending.length
      rw [h.length, List.length_cons, Nat.add_comm, BitVec.ofNat_add, BitVec.add_assoc]
      rfl
    · exact (keyqPtr_add k.keytail 1).symm

/-- In any order of interrupts and calls, of any number, the ring is a queue with room for 255 scancodes: it returns what
    that queue returns, or 0 when it is empty, and drops a scancode exactly when it is full. -/
theorem keyq_fifo (k : Keyq) (cs : List (Call (BitVec 8))) :
    let ring := runs keybIsr keyqGet (keyqInitialize k) cs
    let queue := runs Bounded.put (fun q => (q.get.1.getD 0, q.get.2)) (.empty : Bounded 255 (BitVec 8)) cs
    ring.1 = queue.1 ∧ Holds ring.2 queue.2 ∧ (∀ scancode, keybIsr scancode ring.2 = ring.2 ↔ queue.2.pending.length = 255) ∧
      (keyqEmpty ring.2 = true ↔ queue.2.pending = []) := by
  obtain ⟨same, last⟩ := @runs_refines _ _ _ _ keybIsr keyqGet Bounded.put (fun q => (q.get.1.getD 0, q.get.2)) _ _ Holds
    (fun scancode _ _ => keybIsr_holds scancode) (fun _ _ => keyqGet_holds) (initialize_holds k) cs
  exact ⟨same, last, fun scancode => keybIsr_drops scancode last, keyqEmpty_iff last⟩

end Twcos.Console
