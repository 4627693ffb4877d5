import Twcos.Prog.Settles

/-!
# PCI enumeration

Port of `kernel/pci.c` from `pci_config_byte` to `pci_scan`. `pci_scanbus`, `pci_probe_device` and `pci_probe_function`
call each other; the two probe functions take the scan of a bus as an argument here, and `pciScanbus` ties the knot.

The configuration space belongs to the hardware: `Hardware` has the state of the devices, what a read gives in it and what
a write makes of it. What the code needs of it is `restore`: a base address register that is set to all ones and then to
what it was leaves the devices as they were. `kernel_printk` adds a line to what has been printed, so the lines of
`pci_probe_function` say which functions were probed, in order.

C names carry over in camel case (`pci_probe_function` is `pciProbeFunction`).
-/

namespace Twcos.Pci
open Twcos.Prog

/-- The content of the configuration space: bus, slot, function and offset of a register. -/
abbrev Config := BitVec 8 → BitVec 8 → BitVec 8 → BitVec 8 → BitVec 32

/-- The offset of a base address register. -/
def barOffset (bar : BitVec 8) : BitVec 8 := 0x10 + bar * 4

structure Hardware (δ : Type) where
  read : δ → Config
  write : δ → BitVec 8 → BitVec 8 → BitVec 8 → BitVec 8 → BitVec 32 → δ
  restore : ∀ d bus slot function bar, bar < 6 →
    write (write d bus slot function (barOffset bar) 0xffffffff) bus slot function (barOffset bar)
      (read d bus slot function (barOffset bar)) = d

/-- Devices that are nothing but registers, each with some bits that can be written. -/
def Hardware.registers (writable : Config) : Hardware Config where
  read c := c
  write c bus slot function offset value := fun bus' slot' function' offset' =>
    if bus' = bus ∧ slot' = slot ∧ function' = function ∧ offset' = offset then
      let w := writable bus slot function offset
      (c bus slot function offset &&& ~~~w) ||| (value &&& w)
    else
      c bus' slot' function' offset'
  restore c bus slot function bar _ := by
    funext bus' slot' function' offset'
    dsimp only
    split
    · next same =>
      obtain ⟨rfl, rfl, rfl, rfl⟩ := same
      rw [if_pos ⟨rfl, rfl, rfl, rfl⟩]
      ext i
      simp only [BitVec.getElem_or, BitVec.getElem_and, BitVec.getElem_not]
      cases (writable bus' slot' function' (barOffset bar))[i] with
      | false => simp
      | true => simp
    · rfl

/-! ### Registers -/

def pciConfigByte (c : Config) (bus slot function offset : BitVec 8) : BitVec 8 :=
  let reg := c bus slot function (offset &&& 0xfc)
  ((reg >>> (8 * (offset &&& 3).toNat)) &&& 0xFF).setWidth 8

def pciConfigShort (c : Config) (bus slot function offset : BitVec 8) : BitVec 16 :=
  let reg := c bus slot function (offset &&& 0xfc)
  ((reg >>> (8 * (offset &&& 3).toNat)) &&& 0xFFFF).setWidth 16

def pciVendor (c : Config) (bus slot function : BitVec 8) : BitVec 16 := pciConfigShort c bus slot function 0

def pciDevice (c : Config) (bus slot function : BitVec 8) : BitVec 16 := pciConfigShort c bus slot function 2

def pciHeadertype (c : Config) (bus slot function : BitVec 8) : BitVec 8 := pciConfigByte c bus slot function 0xe

def pciClass (c : Config) (bus slot function : BitVec 8) : BitVec 8 := pciConfigByte c bus slot function 0xb

def pciSubclass (c : Config) (bus slot function : BitVec 8) : BitVec 8 := pciConfigByte c bus slot function 0xa

def pciSecondaryBus (c : Config) (bus slot function : BitVec 8) : BitVec 8 := pciConfigByte c bus slot function 0x19

def pciBarBase (c : Config) (bus slot function bar : BitVec 8) : BitVec 32 :=
  let reg := c bus slot function (barOffset bar)
  if reg &&& 1 ≠ 0 then
    -- I/O space
    reg &&& 0xFFFFFFFC
  else if (reg >>> 1) &&& 3 = 0 then
    reg &&& 0xFFFFFFF0
  else
    reg

/-! ### The scan -/

/-- What `kernel_printk` prints. -/
inductive Line where
  | function (bus slot function : BitVec 8) (vendor device : BitVec 16)
  | base (base size : BitVec 32)
deriving DecidableEq, Repr

structure State (δ : Type) where
  devices : δ
  printed : List Line

section
variable {δ : Type} (hw : Hardware δ)

/-- Read the configuration space. -/
def config {α : Type} (f : Config → α) : Prog Empty (State δ) α := asks fun s => f (hw.read s.devices)

def pciConfigWrite (bus slot function offset : BitVec 8) (value : BitVec 32) : Prog Empty (State δ) Unit :=
  update fun s => { s with devices := hw.write s.devices bus slot function offset value }

def kernelPrintk (line : Line) : Prog Empty (State δ) Unit :=
  update fun s => { s with printed := s.printed ++ [line] }

def pciBarSize (bus slot function bar : BitVec 8) : Prog Empty (State δ) (BitVec 32) := do
  let reg ← config hw fun c => c bus slot function (barOffset bar)
  let mask : BitVec 32 := if reg &&& 1 ≠ 0 then 0xFFFFFFFC else 0xFFFFFFF0
  pciConfigWrite hw bus slot function (barOffset bar) 0xffffffff
  let size ← config hw fun c => 1 + ~~~(c bus slot function (barOffset bar) &&& mask)
  pciConfigWrite hw bus slot function (barOffset bar) reg
  pure size

/-- One base address register of a function. -/
def probeBar (bus device function bar : BitVec 8) : Prog Empty (State δ) Unit := do
  let size ← pciBarSize hw bus device function bar
  when (decide (size ≠ 0)) do
    let base ← config hw fun c => pciBarBase c bus device function bar
    kernelPrintk (.base base size)

def bars : List (BitVec 8) := [0, 1, 2, 3, 4, 5]

/-- There are six base addresses. -/
lemma bars_lt : ∀ bar ∈ bars, bar < 6 := by
  have all : bars.all (fun bar => decide (bar < 6)) = true := by decide
  intro bar mem
  exact of_decide_eq_true (List.all_eq_true.mp all bar mem)

def pciProbeFunction (scanbus : BitVec 8 → Prog Empty (State δ) Unit) (bus device function : BitVec 8) :
    Prog Empty (State δ) Unit := do
  let cls ← config hw fun c => pciClass c bus device function
  let subclass ← config hw fun c => pciSubclass c bus device function
  let type ← config hw fun c => pciHeadertype c bus device function &&& 0x7f
  let vendor ← config hw fun c => pciVendor c bus device function
  let id ← config hw fun c => pciDevice c bus device function
  kernelPrintk (.function bus device function vendor id)
  when (decide (type = 0)) (each (probeBar hw bus device function) bars)
  when (decide (cls = 6 ∧ subclass = 4)) do
    let bus2 ← config hw fun c => pciSecondaryBus c bus device function
    scanbus bus2

/-- The functions of a device after the first. -/
def functions : List (BitVec 8) := [1, 2, 3, 4, 5, 6, 7]

/-- One of them. -/
def probeNext (scanbus : BitVec 8 → Prog Empty (State δ) Unit) (bus device i : BitVec 8) :
    Prog Empty (State δ) Unit := do
  let vendor ← config hw fun c => pciVendor c bus device i
  when (decide (vendor ≠ 0xFFFF)) (pciProbeFunction hw scanbus bus device i)

def pciProbeDevice (scanbus : BitVec 8 → Prog Empty (State δ) Unit) (bus device : BitVec 8) :
    Prog Empty (State δ) Unit := do
  let vendor ← config hw fun c => pciVendor c bus device 0
  when (decide (vendor ≠ 0xFFFF)) do
    pciProbeFunction hw scanbus bus device 0
    let header ← config hw fun c => pciHeadertype c bus device 0
    -- a device with several functions
    when (decide (header &&& 0x80 ≠ 0)) (each (probeNext hw scanbus bus device) functions)

def devices : List (BitVec 8) := (List.range 32).map (BitVec.ofNat 8)

def scanbusBody (scanbus : BitVec 8 → Prog Empty (State δ) Unit) (bus : BitVec 8) : Prog Empty (State δ) Unit :=
  each (pciProbeDevice hw scanbus bus) devices

def pciScanbus : BitVec 8 → Prog Empty (State δ) Unit := recur (scanbusBody hw)

/-- The loop of `pci_scan`: it ends at the first function of the host bridge that is there. -/
def scanHosts : List (BitVec 8) → Prog Empty (State δ) Unit
  | [] => pure ()
  | function :: rest => do
    let vendor ← config hw fun c => pciVendor c 0 0 function
    when (decide (vendor = 0xFFFF)) do
      pciScanbus hw function
      scanHosts rest

def pciScan : Prog Empty (State δ) Unit := do
  let header ← config hw fun c => pciHeadertype c 0 0 0
  if 0x80 &&& header ≠ 0 then
    scanHosts hw (0 :: functions)
  else
    pciScanbus hw 0

end

/-! ### Where the scan goes -/

/-- `pci_probe_device` probes the function. -/
def Probed (c : Config) (bus device function : BitVec 8) : Prop :=
  pciVendor c bus device 0 ≠ 0xFFFF ∧
    (function = 0 ∨ function ∈ functions ∧ pciHeadertype c bus device 0 &&& 0x80 ≠ 0 ∧
      pciVendor c bus device function ≠ 0xFFFF)

/-- The function is a bridge from one bus to another. -/
def Bridge (c : Config) (bus device function bus2 : BitVec 8) : Prop :=
  pciClass c bus device function = 6 ∧ pciSubclass c bus device function = 4 ∧
    pciSecondaryBus c bus device function = bus2

/-- A bridge that is probed on one bus leads to the other. -/
def Leads (c : Config) (bus bus2 : BitVec 8) : Prop :=
  ∃ device ∈ devices, ∃ function, Probed c bus device function ∧ Bridge c bus device function bus2

/-- The hosts before the first function that is there. -/
def hostBuses (c : Config) : List (BitVec 8) → List (BitVec 8)
  | [] => []
  | function :: rest => if pciVendor c 0 0 function = 0xFFFF then function :: hostBuses c rest else []

/-- The buses that the scan starts from. -/
def firstBuses (c : Config) : List (BitVec 8) :=
  if 0x80 &&& pciHeadertype c 0 0 0 ≠ 0 then hostBuses c (0 :: functions) else [0]

section
variable {δ : Type} {hw : Hardware δ} {d : δ} {n : Nat}

/-- The devices are as they were. -/
def Same (d : δ) (s : State δ) : Prop := s.devices = d

/-- Reading the configuration space settles. -/
lemma settles_config {α β : Type} {f : Config → α} {k : α → Prog Empty (State δ) β} {Q : Prop}
    (h : Settles (Same d) n (k (f (hw.read d))) Q) : Settles (Same d) n (config hw f >>= k) Q := by
  refine .asks (fun s hs => ?_) h
  rw [show s.devices = d from hs]

/-- Printing a line settles. -/
lemma settles_printk (line : Line) : Settles (Same d) n (kernelPrintk line : Prog Empty (State δ) Unit) True :=
  .update fun _ hs => hs

/-- Sizing a register leaves the devices as they were. -/
lemma settles_barSize {bus slot function bar : BitVec 8} (h : bar < 6) :
    Settles (Same d) n (pciBarSize hw bus slot function bar) True := by
  refine .of_ok fun s hs => ⟨_, _, fun _ => rfl, ?_⟩
  exact (hw.restore s.devices bus slot function bar h).trans hs

/-- Probing a base address settles. -/
lemma settles_probeBar {bus device function bar : BitVec 8} (h : bar < 6) :
    Settles (Same d) n (probeBar hw bus device function bar) True := by
  refine .andThen (settles_barSize h) fun size => ?_
  have print : Settles (Same d) n
      (config hw (fun c => pciBarBase c bus device function bar) >>= fun base => kernelPrintk (.base base size)) True :=
    settles_config (settles_printk _)
  exact print.when.congr (iff_of_true (fun _ => trivial) trivial)

/-- A function is probed to its end if the bus behind it is scanned to its end, where it is a bridge. -/
lemma settles_probeFunction {scanbus : BitVec 8 → Prog Empty (State δ) Unit} {P : BitVec 8 → Prop}
    (h : ∀ bus2, Settles (Same d) n (scanbus bus2) (P bus2)) (bus device function : BitVec 8) :
    Settles (Same d) n (pciProbeFunction hw scanbus bus device function)
      (∀ bus2, Bridge (hw.read d) bus device function bus2 → P bus2) := by
  have sized : Settles (Same d) n (each (probeBar hw bus device function) bars) _ :=
    .each fun bar mem => settles_probeBar (bars_lt bar mem)
  refine settles_config (settles_config (settles_config (settles_config (settles_config ?_))))
  refine .andThen (settles_printk _) fun _ => .andThen ?_ fun _ => ?_
  · exact sized.when.congr (iff_of_true (fun _ _ _ => trivial) trivial)
  · have go : Settles (Same d) n (config hw (fun c => pciSecondaryBus c bus device function) >>= scanbus) _ :=
      settles_config (h (pciSecondaryBus (hw.read d) bus device function))
    refine go.when.congr ⟨fun e bus2 bridge => ?_, fun e bridge => e _ ⟨bridge.1, bridge.2, rfl⟩⟩
    rw [← bridge.2.2]
    exact e ⟨bridge.1, bridge.2.1⟩

/-- Probing a device settles if the scans of the buses behind it do. -/
lemma settles_probeDevice {scanbus : BitVec 8 → Prog Empty (State δ) Unit} {P : BitVec 8 → Prop}
    (h : ∀ bus2, Settles (Same d) n (scanbus bus2) (P bus2)) (bus device : BitVec 8) :
    Settles (Same d) n (pciProbeDevice hw scanbus bus device)
      (∀ function, Probed (hw.read d) bus device function →
        ∀ bus2, Bridge (hw.read d) bus device function bus2 → P bus2) := by
  have probe (i : BitVec 8) : Settles (Same d) n (pciProbeFunction hw scanbus bus device i) _ :=
    settles_probeFunction h bus device i
  have next (i : BitVec 8) : Settles (Same d) n (probeNext hw scanbus bus device i) _ := settles_config (probe i).when
  have others : Settles (Same d) n (each (probeNext hw scanbus bus device) functions) _ := .each fun i _ => next i
  have multi : Settles (Same d) n (config hw (fun c => pciHeadertype c bus device 0) >>= fun header =>
      when (decide (header &&& 0x80 ≠ 0)) (each (probeNext hw scanbus bus device) functions)) _ :=
    settles_config others.when
  have all := (probe 0).bind fun _ => multi
  refine (settles_config all.when).congr ⟨fun e function probed => ?_, fun e there => ?_⟩
  · obtain ⟨there, rfl | ⟨mem, multi, found⟩⟩ := probed
    · exact (e there).1
    · exact (e there).2 multi function mem found
  · exact ⟨e 0 ⟨there, .inl rfl⟩, fun multi i mem found => e i ⟨there, .inr ⟨mem, multi, found⟩⟩⟩

/-- What a probe does depends on the scans of other buses. -/
lemma probeFunction_local (bus device function : BitVec 8) :
    Local fun scanbus => pciProbeFunction hw scanbus bus device function := by
  refine .bind (.const _) fun cls => .bind (.const _) fun subclass => .bind (.const _) fun type => ?_
  refine .bind (.const _) fun vendor => .bind (.const _) fun id => .bind (.const _) fun _ => .bind (.const _) fun _ => ?_
  exact .when (.bind (.const _) fun bus2 => .self bus2)

/-- What the scan of a bus does depends on the scans of other buses. -/
lemma scanbusBody_local (bus : BitVec 8) : Local fun scanbus => scanbusBody hw scanbus bus := by
  refine .each (fun device => .bind (.const _) fun vendor => .when ?_) devices
  refine .bind (probeFunction_local bus device 0) fun _ => .bind (.const _) fun header => .when ?_
  exact .each (fun i => .bind (.const _) fun vendor => .when (probeFunction_local bus device i)) functions

/-- The scan of a bus settles if no path of bridges from it is too long. -/
lemma settles_scanbus (bus : BitVec 8) :
    Settles (Same d) n (pciScanbus hw bus) (Within (Leads (hw.read d)) n bus) := by
  refine settles_recur scanbusBody_local (fun scanbus n P bus h => ?_) n bus
  refine (Settles.each fun device _ => settles_probeDevice h bus device).congr ⟨fun e bus2 leads => ?_, fun e device mem => ?_⟩
  · obtain ⟨device, mem, function, probed, bridge⟩ := leads
    exact e device mem function probed bus2 bridge
  · exact fun function probed bus2 bridge => e bus2 ⟨device, mem, function, probed, bridge⟩

/-- The scans of the host buses settle if no path of bridges is too long. -/
lemma settles_scanHosts (fs : List (BitVec 8)) :
    Settles (Same d) n (scanHosts hw fs) (∀ bus ∈ hostBuses (hw.read d) fs, Within (Leads (hw.read d)) n bus) := by
  induction fs with
  | nil => exact (Settles.pure ()).congr (iff_of_true trivial fun _ h => absurd h List.not_mem_nil)
  | cons f fs ih =>
    refine (settles_config ((settles_scanbus f).bind fun _ => ih).when).congr ?_
    rw [hostBuses]
    split
    · next absent => rw [List.forall_mem_cons, forall_prop_of_true absent]
    · next there => exact iff_of_true (fun absent => absurd absent there) fun _ h => absurd h List.not_mem_nil

/-- The whole scan settles if no path of bridges is too long. -/
lemma settles_scan :
    Settles (Same d) n (pciScan hw) (∀ bus ∈ firstBuses (hw.read d), Within (Leads (hw.read d)) n bus) := by
  refine settles_config ?_
  rw [firstBuses]
  split
  · exact settles_scanHosts _
  · exact (settles_scanbus 0).congr List.forall_mem_singleton.symm

end

instance finite_bitVec8 : Finite (BitVec 8) := Finite.of_injective BitVec.toFin fun _ _ => BitVec.toFin_inj.mp

/-- If the scan returns, no path of bridges goes on without an end. -/
lemma not_loops_of_returns {δ : Type} {hw : Hardware δ} {s s' : State δ} (run : Returns (pciScan hw) s () s') :
    ∀ bus ∈ firstBuses (hw.read s.devices), ¬Loops (Leads (hw.read s.devices)) bus := by
  intro bus first
  obtain ⟨n, run⟩ := run.result
  exact within_iff.mp ⟨n, settles_scan.holds s () s' rfl run bus first⟩

/-- If no path of bridges goes on without an end, the scan returns. -/
lemma returns_of_not_loops {δ : Type} {hw : Hardware δ} {s : State δ}
    (h : ∀ bus ∈ firstBuses (hw.read s.devices), ¬Loops (Leads (hw.read s.devices)) bus) :
    ∃ s', Returns (pciScan hw) s () s' := by
  obtain ⟨n, within⟩ := exists_within_all fun bus first => within_iff.mpr (h bus first)
  obtain ⟨_, s', run, -⟩ := settles_scan.returns within s rfl
  exact ⟨s', n, run⟩

/-- The scan comes to an end exactly if no bus that it comes to leads back to itself. -/
theorem pciScan_returns_iff {δ : Type} (hw : Hardware δ) (s : State δ) :
    (∃ s', Returns (pciScan hw) s () s') ↔
      ∀ bus ∈ firstBuses (hw.read s.devices), ¬Loops (Leads (hw.read s.devices)) bus := by
  constructor
  · rintro ⟨s', run⟩
    exact not_loops_of_returns run
  · exact returns_of_not_loops

/-- One bridge on bus 0, as it is before a bus number is given to it. -/
def freshBridge : Config := fun bus slot function offset =>
  if bus = 0 ∧ slot = 0 ∧ function = 0 then
    if offset = 0 then 0x00011014
    else if offset = 8 then 0x06040000
    else if offset = 0xc then 0x00010000
    else 0
  else
    0xffffffff

/-- With a bridge as the hardware starts it, the scan does not return. -/
theorem freshBridge_not_returns :
    ¬∃ s', Returns (pciScan (.registers fun _ _ _ _ => 0)) ⟨freshBridge, []⟩ () s' := by
  rintro ⟨s', run⟩
  have first : (0 : BitVec 8) ∈ firstBuses freshBridge := by decide
  have leads : Leads freshBridge 0 0 :=
    ⟨0, by decide, 0, ⟨by decide, .inl rfl⟩, by decide, by decide, by decide⟩
  exact not_loops_of_returns run 0 first ⟨0, .refl, .single leads⟩

end Twcos.Pci
