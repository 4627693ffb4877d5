import Twcos.Pci.Scan
import Twcos.Prog.Forest

/-!
# What the scan finds

The functions that `pci_scan` probes, by the lines that it prints for them. The bridges lead from bus to bus, and where
no two of them have the same secondary bus, and none a host bus, they form a tree below the host buses.
`pciScan_covers_iff` says when the scan probes every function on it exactly once. `pci_scan` leaves its loop over the
host buses at the first function that is there, where it should go on, so that a host bridge with several functions
hides everything.

`pciScanbus` is a walk over a forest: the functions that it probes on a bus are the items of the bus.
-/

namespace Twcos.Pci
open Twcos.Prog

/-- A bus, a device and a function. -/
abbrev Place := BitVec 8 × BitVec 8 × BitVec 8

/-- The function that is probed, if the line is about one. -/
def Line.place : Line → Option Place
  | .function bus slot f _ _ => some (bus, slot, f)
  | .base _ _ => none

/-- The functions that have been probed. -/
def State.probed {δ : Type} (s : State δ) : List Place := s.printed.filterMap Line.place

/-! ### The buses -/

/-- The functions of a device that are there. -/
def present (c : Config) (bus device : BitVec 8) : List (BitVec 8) :=
  if pciVendor c bus device 0 ≠ 0xFFFF then
    0 ::
      if pciHeadertype c bus device 0 &&& 0x80 ≠ 0 then functions.filter (fun i => pciVendor c bus device i ≠ 0xFFFF)
      else []
  else
    []

def places (c : Config) (bus : BitVec 8) : List Place :=
  devices.flatMap fun device => (present c bus device).map fun function => (bus, device, function)

/-- The bus behind a function, if it is a bridge. -/
def secondary (c : Config) (p : Place) : Option (BitVec 8) :=
  if pciClass c p.1 p.2.1 p.2.2 = 6 ∧ pciSubclass c p.1 p.2.1 p.2.2 = 4 then
    some (pciSecondaryBus c p.1 p.2.1 p.2.2)
  else
    none

/-- The host buses: bus 0, and one for each function of the device at the start of it. -/
def hosts (c : Config) : List (BitVec 8) := 0 :: (present c 0 0).tail

variable {c : Config}

/-- The functions that the scan finds in a device. -/
lemma mem_present {bus device function : BitVec 8} : function ∈ present c bus device ↔ Probed c bus device function := by
  rw [present, Probed]
  split
  · next there =>
    rw [List.mem_cons]
    split
    · next multi =>
      rw [List.mem_filter, decide_eq_true_iff]
      exact ⟨fun h => ⟨there, h.imp_right fun h => ⟨h.1, multi, h.2⟩⟩, fun h => h.2.imp_right fun h => ⟨h.1, h.2.2⟩⟩
    · next single =>
      exact ⟨fun h => ⟨there, h.imp_right fun h => absurd h List.not_mem_nil⟩,
        fun h => h.2.imp_right fun h => absurd h.2.1 single⟩
  · next absent => exact ⟨fun h => absurd h List.not_mem_nil, fun h => absurd h.1 absent⟩

/-- The functions that it finds on a bus. -/
lemma mem_places {bus : BitVec 8} {p : Place} :
    p ∈ places c bus ↔ p.1 = bus ∧ p.2.1 ∈ devices ∧ Probed c bus p.2.1 p.2.2 := by
  rw [places, List.mem_flatMap]
  constructor
  · rintro ⟨device, mem, h⟩
    obtain ⟨function, probed, rfl⟩ := List.mem_map.mp h
    exact ⟨rfl, mem, mem_present.mp probed⟩
  · rintro ⟨rfl, mem, probed⟩
    exact ⟨p.2.1, mem, List.mem_map.mpr ⟨p.2.2, mem_present.mpr probed, rfl⟩⟩

/-- The bus behind a bridge. -/
lemma secondary_eq_some {p : Place} {bus2 : BitVec 8} : secondary c p = some bus2 ↔ Bridge c p.1 p.2.1 p.2.2 bus2 := by
  rw [secondary, Bridge]
  split
  · next bridge => exact ⟨fun e => ⟨bridge.1, bridge.2, Option.some.inj e⟩, fun h => congrArg some h.2.2⟩
  · next no => exact ⟨fun e => absurd e.symm (Option.some_ne_none bus2), fun h => absurd ⟨h.1, h.2.1⟩ no⟩

/-- The buses are joined by their bridges. -/
lemma joins_eq : Joins (places c) (secondary c) = Leads c := by
  funext bus bus2
  apply propext
  constructor
  · rintro ⟨p, mem, e⟩
    obtain ⟨rfl, device, probed⟩ := mem_places.mp mem
    exact ⟨p.2.1, device, p.2.2, probed, secondary_eq_some.mp e⟩
  · rintro ⟨device, mem, function, probed, bridge⟩
    exact ⟨(bus, device, function), mem_places.mpr ⟨rfl, mem, probed⟩, secondary_eq_some.mpr bridge⟩

/-- The scan finds no function of a device twice. -/
lemma nodup_present (bus device : BitVec 8) : (present c bus device).Nodup := by
  rw [present]
  split
  · have others : functions.Nodup := by decide
    split
    · refine List.nodup_cons.mpr ⟨fun mem => ?_, others.filter _⟩
      exact absurd (List.mem_of_mem_filter mem) (by decide)
    · exact List.nodup_singleton 0
  · exact List.nodup_nil

/-- No function of a bus twice. -/
lemma nodup_places (bus : BitVec 8) : (places c bus).Nodup := by
  have all : devices.Nodup := by decide
  rw [places, List.nodup_flatMap]
  refine ⟨fun device _ => (nodup_present bus device).map fun a b e => (Prod.mk.inj (Prod.mk.inj e).2).2, ?_⟩
  refine all.imp fun {a b} ne => ?_
  intro p here there
  obtain ⟨_, -, rfl⟩ := List.mem_map.mp here
  obtain ⟨_, -, e⟩ := List.mem_map.mp there
  exact ne (Prod.mk.inj (Prod.mk.inj e).2).1.symm

/-- A bus below one of the host buses. -/
def OnBus (c : Config) (bus : BitVec 8) : Prop := ∃ host ∈ hosts c, Relation.ReflTransGen (Leads c) host bus

/-- What is reached from the host buses. -/
lemma reachable_eq : Reachable (places c) (secondary c) (hosts c) = OnBus c := by
  funext bus
  rw [Reachable, joins_eq, OnBus]

/-- The bridges form a tree below the host buses. -/
structure BridgeTree (c : Config) : Prop where
  distinct : ∀ bus device function bus' device' function' bus2, OnBus c bus → device ∈ devices → OnBus c bus' →
    device' ∈ devices → Probed c bus device function → Bridge c bus device function bus2 →
    Probed c bus' device' function' → Bridge c bus' device' function' bus2 → bus = bus' ∧ device = device' ∧ function = function'
  below : ∀ bus device function bus2, OnBus c bus → device ∈ devices → Probed c bus device function →
    Bridge c bus device function bus2 → bus2 ∉ hosts c

/-- Bridges that make a tree. -/
lemma BridgeTree.forest (tree : BridgeTree c) : Forest (places c) (secondary c) (hosts c) where
  nodup := nodup_places
  owner a b p here there := (mem_places.mp here).1.symm.trans (mem_places.mp there).1
  distinct := by
    rw [reachable_eq]
    intro a b ha hb p memp q memq bridge same
    obtain ⟨bus2, e⟩ := Option.ne_none_iff_exists'.mp bridge
    obtain ⟨rfl, dp, probedp⟩ := mem_places.mp memp
    obtain ⟨rfl, dq, probedq⟩ := mem_places.mp memq
    obtain ⟨e1, e2, e3⟩ := tree.distinct _ _ _ _ _ _ bus2 ha dp hb dq probedp (secondary_eq_some.mp e) probedq
      (secondary_eq_some.mp (same ▸ e))
    exact Prod.ext e1 (Prod.ext e2 e3)
  below := by
    rw [reachable_eq]
    intro a ha p memp root mem e
    obtain ⟨rfl, dp, probedp⟩ := mem_places.mp memp
    exact tree.below _ _ _ _ ha dp probedp (secondary_eq_some.mp e) mem

/-! ### The lines of the scan -/

section
variable {δ : Type} {hw : Hardware δ} {d : δ} {n : Nat} {l : List Place}

/-- Reading the configuration space adds nothing to the log. -/
lemma logs_config {α β : Type} {f : Config → α} {k : α → Prog Empty (State δ) β}
    (h : Logs (Same d) State.probed n (k (f (hw.read d))) l) : Logs (Same d) State.probed n (config hw f >>= k) l := by
  refine .asks (fun s hs => ?_) h
  rw [show s.devices = d from hs]

/-- A line adds the place that it tells of. -/
lemma logs_printk (line : Line) :
    Logs (Same d) State.probed n (kernelPrintk line : Prog Empty (State δ) Unit) line.place.toList := by
  refine .update fun s hs => ⟨hs, ?_⟩
  rw [State.probed, State.probed, List.filterMap_append]
  cases e : line.place with
  | none => rw [List.filterMap_cons_none e]; rfl
  | some p => rw [List.filterMap_cons_some e]; rfl

/-- Sizing a base address adds nothing to the log. -/
lemma logs_barSize {bus slot function bar : BitVec 8} (h : bar < 6) :
    Logs (Same d) State.probed n (pciBarSize hw bus slot function bar) [] := by
  intro s a s' hs run
  cases run
  exact ⟨(hw.restore s.devices bus slot function bar h).trans hs, (List.append_nil _).symm⟩

/-- Probing a base address adds nothing to the log. -/
lemma logs_probeBar {bus device function bar : BitVec 8} (h : bar < 6) :
    Logs (Same d) State.probed n (probeBar hw bus device function bar) [] := by
  refine (logs_barSize h).bind fun size => ?_
  have print : Logs (Same d) State.probed n
      (config hw (fun c => pciBarBase c bus device function bar) >>= fun base => kernelPrintk (.base base size)) [] :=
    logs_config (logs_printk _)
  exact print.when.of_eq (ite_self _)

/-- The function is probed, and after it those behind it. -/
lemma logs_probeFunction {scanbus : BitVec 8 → Prog Empty (State δ) Unit} {L : BitVec 8 → List Place}
    (h : ∀ bus2, Logs (Same d) State.probed n (scanbus bus2) (L bus2)) (bus device function : BitVec 8) :
    Logs (Same d) State.probed n (pciProbeFunction hw scanbus bus device function)
      ((bus, device, function) :: behind (secondary (hw.read d)) L (bus, device, function)) := by
  have sized : Logs (Same d) State.probed n (each (probeBar hw bus device function) bars) (bars.flatMap fun _ => []) :=
    .each fun bar mem => logs_probeBar (bars_lt bar mem)
  have none : Logs (Same d) State.probed n (each (probeBar hw bus device function) bars) [] := sized
  have go : Logs (Same d) State.probed n (config hw (fun c => pciSecondaryBus c bus device function) >>= scanbus) _ :=
    logs_config (h (pciSecondaryBus (hw.read d) bus device function))
  refine logs_config (logs_config (logs_config (logs_config (logs_config ?_))))
  refine Logs.of_eq ((logs_printk _).bind fun _ => none.when.bind fun _ => go.when) ?_
  rw [ite_self, behind, secondary]
  split
  · rfl
  · rfl

/-- A loop that skips some elements. -/
lemma flatMap_filter {α β : Type} (p : α → Prop) [DecidablePred p] (f : α → List β) (l : List α) :
    (l.filter fun a => p a).flatMap f = l.flatMap fun a => if p a then f a else [] := by
  induction l with
  | nil => rfl
  | cons a l ih =>
    rw [List.flatMap_cons, ← ih]
    by_cases h : p a
    · rw [List.filter_cons_of_pos (p := fun a => decide (p a)) (decide_eq_true h), List.flatMap_cons, if_pos h]
    · rw [List.filter_cons_of_neg (p := fun a => decide (p a)) (by rwa [decide_eq_true_iff]), if_neg h, List.nil_append]

/-- Probing a device adds its functions, and what is behind its bridges. -/
lemma logs_probeDevice {scanbus : BitVec 8 → Prog Empty (State δ) Unit} {L : BitVec 8 → List Place}
    (h : ∀ bus2, Logs (Same d) State.probed n (scanbus bus2) (L bus2)) (bus device : BitVec 8) :
    Logs (Same d) State.probed n (pciProbeDevice hw scanbus bus device)
      ((present (hw.read d) bus device).flatMap fun function =>
        (bus, device, function) :: behind (secondary (hw.read d)) L (bus, device, function)) := by
  have probe (i : BitVec 8) : Logs (Same d) State.probed n (pciProbeFunction hw scanbus bus device i) _ :=
    logs_probeFunction h bus device i
  have next (i : BitVec 8) : Logs (Same d) State.probed n (probeNext hw scanbus bus device i) _ :=
    logs_config (probe i).when
  have others : Logs (Same d) State.probed n (each (probeNext hw scanbus bus device) functions) _ :=
    .each fun i _ => next i
  have multi : Logs (Same d) State.probed n (config hw (fun c => pciHeadertype c bus device 0) >>= fun header =>
      when (decide (header &&& 0x80 ≠ 0)) (each (probeNext hw scanbus bus device) functions)) _ :=
    logs_config others.when
  have all := (probe 0).bind fun _ => multi
  refine Logs.of_eq (logs_config all.when) ?_
  rw [present]
  split
  · rw [List.flatMap_cons]
    split
    · rw [flatMap_filter]
    · rfl
  · rfl

/-- Scanning a bus. -/
lemma logs_scanbus (bus : BitVec 8) :
    Logs (Same d) State.probed n (pciScanbus hw bus) (trace (places (hw.read d)) (secondary (hw.read d)) n bus) := by
  refine logs_recur scanbusBody_local (fun scanbus n L bus h => ?_) n bus
  refine Logs.of_eq (Logs.each fun device _ => logs_probeDevice h bus device) ?_
  rw [traceStep, places, List.flatMap_assoc]
  congr 1
  funext device
  rw [List.flatMap_map]

/-- Scanning the host buses. -/
lemma logs_scanHosts (fs : List (BitVec 8)) : Logs (Same d) State.probed n (scanHosts hw fs)
    ((hostBuses (hw.read d) fs).flatMap (trace (places (hw.read d)) (secondary (hw.read d)) n)) := by
  induction fs with
  | nil => exact .pure ()
  | cons f fs ih =>
    refine Logs.of_eq (logs_config ((logs_scanbus f).bind fun _ => ih).when) ?_
    rw [hostBuses]
    split
    · rfl
    · rfl

/-- The whole scan. -/
lemma logs_scan : Logs (Same d) State.probed n (pciScan hw)
    ((firstBuses (hw.read d)).flatMap (trace (places (hw.read d)) (secondary (hw.read d)) n)) := by
  refine logs_config ?_
  rw [firstBuses]
  split
  · exact logs_scanHosts _
  · exact (logs_scanbus 0).of_eq (List.flatMap_singleton _ _).symm

end

/-! ### Coverage -/

/-- The scan ends, and has probed every function once that is there on a bus below the host buses. -/
def Covers {δ : Type} (hw : Hardware δ) (s : State δ) : Prop :=
  ∃ s', Returns (pciScan hw) s () s' ∧
    ∀ bus device function, OnBus (hw.read s.devices) bus → device ∈ devices →
      Probed (hw.read s.devices) bus device function →
      s'.probed.count (bus, device, function) = s.probed.count (bus, device, function) + 1

/-- None of the further buses that are scanned leads into a loop, or to a function that bus 0 leads to. -/
def Apart (c : Config) : Prop :=
  ∀ bus ∈ hostBuses c functions, ¬Loops (Leads c) bus ∧
    ∀ shared, Relation.ReflTransGen (Leads c) 0 shared → Relation.ReflTransGen (Leads c) bus shared →
      ∀ device ∈ devices, ∀ function, ¬Probed c shared device function

/-- How often a place is probed by a scan that comes to its end. -/
lemma count_of_returns {δ : Type} {hw : Hardware δ} {s s' : State δ} (run : Returns (pciScan hw) s () s') (p : Place) :
    ∃ n, (∀ bus ∈ firstBuses (hw.read s.devices), Within (Leads (hw.read s.devices)) n bus) ∧
      s'.probed.count p = s.probed.count p + ((firstBuses (hw.read s.devices)).flatMap
        (trace (places (hw.read s.devices)) (secondary (hw.read s.devices)) n)).count p := by
  obtain ⟨n, run⟩ := run.result
  refine ⟨n, settles_scan.holds s () s' rfl run, ?_⟩
  rw [((logs_scan : Logs (Same s.devices) _ n (pciScan hw) _) s () s' rfl run).2, List.count_append]

/-- What a bus leads to is listed for it. -/
lemma mem_trace_place {n : Nat} {bus : BitVec 8} {p : Place} (within : Within (Leads c) n bus) :
    p ∈ trace (places c) (secondary c) n bus ↔
      Relation.ReflTransGen (Leads c) bus p.1 ∧ p.2.1 ∈ devices ∧ Probed c p.1 p.2.1 p.2.2 := by
  rw [← joins_eq] at within ⊢
  rw [mem_trace within]
  constructor
  · rintro ⟨bus', path, mem⟩
    obtain ⟨rfl, device, probed⟩ := mem_places.mp mem
    exact ⟨path, device, probed⟩
  · rintro ⟨path, device, probed⟩
    exact ⟨p.1, path, mem_places.mpr ⟨rfl, device, probed⟩⟩

/-- A tree of bridges has no loop. -/
lemma BridgeTree.not_loops (tree : BridgeTree c) {bus : BitVec 8} (h : OnBus c bus) : ¬Loops (Leads c) bus := by
  rw [OnBus, ← joins_eq] at h
  rw [← joins_eq]
  exact tree.forest.not_loops h

/-- A function below bus 0 is listed once for it. -/
lemma BridgeTree.count_eq_one (tree : BridgeTree c) {n : Nat} (within : Within (Leads c) n 0) {p : Place}
    (path : Relation.ReflTransGen (Leads c) 0 p.1) (device : p.2.1 ∈ devices) (probed : Probed c p.1 p.2.1 p.2.2) :
    (trace (places c) (secondary c) n 0).count p = 1 := by
  apply List.count_eq_one_of_mem
  · refine tree.forest.nodup_trace ⟨0, List.mem_cons_self, .refl⟩ ?_
    rw [joins_eq]
    exact within
  · exact (mem_trace_place within).mpr ⟨path, device, probed⟩

/-- A host with a single function has one bus. -/
lemma alone_of_single (h : 0x80 &&& pciHeadertype c 0 0 0 = 0) : hosts c = [0] := by
  rw [hosts, present]
  split
  · rw [BitVec.and_comm] at h
    rw [if_neg (not_not.mpr h)]
    rfl
  · rfl

/-- A machine without a host bridge has one bus. -/
lemma alone_of_absent (h : pciVendor c 0 0 0 = 0xFFFF) : hosts c = [0] := by
  rw [hosts, present, if_neg (not_not.mpr h)]
  rfl

/-- Bus 0 is the only host bus, and is scanned, with other buses that are apart from it. -/
lemma covers_of_alone {δ : Type} {hw : Hardware δ} {s : State δ} (tree : BridgeTree (hw.read s.devices))
    (alone : hosts (hw.read s.devices) = [0]) (others : List (BitVec 8))
    (first : firstBuses (hw.read s.devices) = 0 :: others)
    (apart : ∀ bus ∈ others, ¬Loops (Leads (hw.read s.devices)) bus ∧
      ∀ shared, Relation.ReflTransGen (Leads (hw.read s.devices)) 0 shared →
        Relation.ReflTransGen (Leads (hw.read s.devices)) bus shared →
          ∀ device ∈ devices, ∀ function, ¬Probed (hw.read s.devices) shared device function) : Covers hw s := by
  have ends : ∀ bus ∈ firstBuses (hw.read s.devices), ¬Loops (Leads (hw.read s.devices)) bus := by
    rw [first]
    exact List.forall_mem_cons.mpr ⟨tree.not_loops ⟨0, List.mem_cons_self, .refl⟩, fun bus mem => (apart bus mem).1⟩
  obtain ⟨s', run⟩ := returns_of_not_loops ends
  refine ⟨s', run, fun bus device function onBus memd probed => ?_⟩
  rw [OnBus, alone] at onBus
  obtain ⟨host, mem, path⟩ := onBus
  obtain rfl := List.mem_singleton.mp mem
  obtain ⟨n, within, count⟩ := count_of_returns run (bus, device, function)
  rw [first] at within count
  obtain ⟨within0, within⟩ := List.forall_mem_cons.mp within
  have elsewhere : (bus, device, function) ∉
      others.flatMap (trace (places (hw.read s.devices)) (secondary (hw.read s.devices)) n) := by
    intro listed
    obtain ⟨bus', mem', listed⟩ := List.mem_flatMap.mp listed
    obtain ⟨path', -, -⟩ := (mem_trace_place (within bus' mem')).mp listed
    exact (apart bus' mem').2 bus path path' device memd function probed
  have once := @BridgeTree.count_eq_one _ tree n within0 (bus, device, function) path memd probed
  rw [count, List.flatMap_cons, List.count_append, once, List.count_eq_zero_of_not_mem elsewhere]

/-- Buses that are scanned after bus 0 are apart from it if the scan covers it. -/
lemma apart_of_covers {δ : Type} {hw : Hardware δ} {s : State δ} (tree : BridgeTree (hw.read s.devices))
    (first : firstBuses (hw.read s.devices) = 0 :: hostBuses (hw.read s.devices) functions) (covers : Covers hw s) :
    Apart (hw.read s.devices) := by
  intro bus mem
  obtain ⟨s', run, covers⟩ := covers
  have member : bus ∈ firstBuses (hw.read s.devices) := by
    rw [first]
    exact List.mem_cons_of_mem 0 mem
  refine ⟨not_loops_of_returns run bus member, ?_⟩
  intro shared here there device memd function probed
  obtain ⟨n, within, count⟩ := count_of_returns run (shared, device, function)
  rw [first] at within count
  obtain ⟨within0, within⟩ := List.forall_mem_cons.mp within
  have once := @BridgeTree.count_eq_one _ tree n within0 (shared, device, function) here memd probed
  rw [covers shared device function ⟨0, List.mem_cons_self, here⟩ memd probed, List.flatMap_cons, List.count_append,
    once] at count
  have again : (shared, device, function) ∈ (hostBuses (hw.read s.devices) functions).flatMap
      (trace (places (hw.read s.devices)) (secondary (hw.read s.devices)) n) :=
    List.mem_flatMap.mpr ⟨bus, mem, (mem_trace_place (within bus mem)).mpr ⟨there, memd, probed⟩⟩
  have := List.count_pos_iff.mpr again
  omega

/-- A first device with several functions is not even probed itself. -/
lemma not_covers {δ : Type} {hw : Hardware δ} {s : State δ} (multi : 0x80 &&& pciHeadertype (hw.read s.devices) 0 0 0 ≠ 0)
    (there : pciVendor (hw.read s.devices) 0 0 0 ≠ 0xFFFF) : ¬Covers hw s := by
  rintro ⟨s', run, covers⟩
  have none : firstBuses (hw.read s.devices) = [] := by
    rw [firstBuses, if_pos multi, hostBuses, if_neg there]
  obtain ⟨n, -, count⟩ := count_of_returns run (0, 0, 0)
  rw [covers 0 0 0 ⟨0, List.mem_cons_self, .refl⟩ (by decide) ⟨there, .inl rfl⟩, none] at count
  exact absurd count (Nat.succ_ne_self _)

/-- With bridges that form a tree, the scan covers it exactly if the header of the first function is not that of a
    device with several functions, or the function is not there and the further buses scanned for it are apart. -/
theorem pciScan_covers_iff {δ : Type} (hw : Hardware δ) (s : State δ) (tree : BridgeTree (hw.read s.devices)) :
    Covers hw s ↔ 0x80 &&& pciHeadertype (hw.read s.devices) 0 0 0 = 0 ∨
      pciVendor (hw.read s.devices) 0 0 0 = 0xFFFF ∧ Apart (hw.read s.devices) := by
  by_cases single : 0x80 &&& pciHeadertype (hw.read s.devices) 0 0 0 = 0
  · refine iff_of_true ?_ (.inl single)
    have first : firstBuses (hw.read s.devices) = [0] := by rw [firstBuses, if_neg (not_not.mpr single)]
    exact covers_of_alone tree (alone_of_single single) [] first fun bus mem => absurd mem List.not_mem_nil
  by_cases absent : pciVendor (hw.read s.devices) 0 0 0 = 0xFFFF
  · have first : firstBuses (hw.read s.devices) = 0 :: hostBuses (hw.read s.devices) functions := by
      rw [firstBuses, if_pos single, hostBuses, if_pos absent]
    refine ⟨fun covers => .inr ⟨absent, apart_of_covers tree first covers⟩, ?_⟩
    rintro (h | ⟨-, apart⟩)
    · exact absurd h single
    · exact covers_of_alone tree (alone_of_absent absent) _ first apart
  · refine iff_of_false (not_covers single absent) ?_
    rintro (h | ⟨h, -⟩)
    · exact single h
    · exact absent h

/-- A host bridge with the header, a bridge to bus 1, and a device there. -/
def machine (header : BitVec 32) : Config := fun bus slot function offset =>
  if bus = 0 ∧ slot = 0 ∧ function = 0 then
    if offset = 0 then 0x12378086 else if offset = 8 then 0x06000000 else if offset = 0xc then header else 0
  else if bus = 0 ∧ slot = 1 ∧ function = 0 then
    if offset = 0 then 0x00011014 else if offset = 8 then 0x06040000 else if offset = 0xc then 0x00010000
    else if offset = 0x18 then 0x00010100 else 0
  else if bus = 1 ∧ slot = 0 ∧ function = 0 then
    if offset = 0 then 0x100e8086 else if offset = 8 then 0x02000000 else 0
  else
    0xffffffff

/-- The functions of the machine of the examples. -/
lemma machine_probed {header : BitVec 32} {bus device function : BitVec 8}
    (h : Probed (machine header) bus device function) :
    bus = 0 ∧ device = 0 ∧ function = 0 ∨ bus = 0 ∧ device = 1 ∧ function = 0 ∨ bus = 1 ∧ device = 0 ∧ function = 0 := by
  have there : pciVendor (machine header) bus device function ≠ 0xFFFF := by
    obtain ⟨first, rfl | ⟨-, -, found⟩⟩ := h
    · exact first
    · exact found
  by_contra none
  rw [not_or, not_or] at none
  refine there ?_
  rw [pciVendor, pciConfigShort, machine, if_neg none.1, if_neg none.2.1, if_neg none.2.2]
  decide

/-- The bridge of the machine of the examples. -/
lemma machine_bridge {header : BitVec 32} {bus device function bus2 : BitVec 8}
    (probed : Probed (machine header) bus device function)
    (bridge : Bridge (machine header) bus device function bus2) : bus = 0 ∧ device = 1 ∧ function = 0 ∧ bus2 = 1 := by
  obtain ⟨cls, subclass, behind⟩ := bridge
  rcases machine_probed probed with ⟨rfl, rfl, rfl⟩ | ⟨rfl, rfl, rfl⟩ | ⟨rfl, rfl, rfl⟩
  · have zero : pciSubclass (machine header) 0 0 0 = 0 := by simp [pciSubclass, pciConfigByte, machine]
    exact absurd (zero.symm.trans subclass) (by decide)
  · have one : pciSecondaryBus (machine header) 0 1 0 = 1 := by simp [pciSecondaryBus, pciConfigByte, machine]
    exact ⟨rfl, rfl, rfl, behind.symm.trans one⟩
  · have two : pciClass (machine header) 1 0 0 = 2 := by simp [pciClass, pciConfigByte, machine]
    exact absurd (two.symm.trans cls) (by decide)

/-- The buses of the machine of the examples are a tree. -/
lemma machine_tree {header : BitVec 32} (alone : hosts (machine header) = [0]) : BridgeTree (machine header) where
  distinct := by
    intro bus device function bus' device' function' bus2 _ _ _ _ probed bridge probed' bridge'
    obtain ⟨rfl, rfl, rfl, -⟩ := machine_bridge probed bridge
    obtain ⟨rfl, rfl, rfl, -⟩ := machine_bridge probed' bridge'
    exact ⟨rfl, rfl, rfl⟩
  below := by
    intro bus device function bus2 _ _ probed bridge
    obtain ⟨-, -, -, rfl⟩ := machine_bridge probed bridge
    rw [alone]
    decide

/-- With one function, the host bridge hides nothing. -/
theorem machine_covered : Covers (.registers fun _ _ _ _ => 0) ⟨machine 0, []⟩ :=
  (pciScan_covers_iff (.registers fun _ _ _ _ => 0) ⟨machine 0, []⟩ (machine_tree (by decide))).mpr (.inl (by decide))

/-- With the header of a device with several functions it hides all there is, itself included. -/
theorem multifunction_hides :
    BridgeTree (machine 0x00800000) ∧ ¬Covers (.registers fun _ _ _ _ => 0) ⟨machine 0x00800000, []⟩ := by
  refine ⟨machine_tree (by decide), ?_⟩
  exact not_covers (by decide) (by decide)

end Twcos.Pci
