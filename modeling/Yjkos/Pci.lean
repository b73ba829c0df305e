import Yjkos.Machine
import Yjkos.TreeWalk

/-!
# PCI enumeration

`probe_dev`, `probe_bus` and `pci_probe_bus` of `kernel/dev/pci.c` over an
arbitrary content of the configuration space.  The calls of `callback` are
listed in order; the warnings which go to the console are left out.  A bridge
recurses to the bus it reports, so `probe_bus` gets fuel.
-/

namespace Yjkos
namespace Pci

abbrev Bus := BitVec 8

/-- `PCIPATH` -/
abbrev Path := BitVec 16

/-- The words which `arch_pci_read_config` reads. -/
abbrev Config := Path → ℕ → BitVec 32

/-! ## Paths -/

/-- The value which `pci_make_path` returns. -/
def pathOf (bus : Bus) (device function : ℕ) : Path :=
  BitVec.ofNat 16 (bus.toNat <<< 8 ||| device <<< 3 ||| function)

def pciMakePath (bus : Bus) (device function : ℕ) : Except Fault Path := do
  cAssert (device < 32) "device < 32"
  cAssert (function < 8) "function < 8"
  .ok (pathOf bus device function)

def pcipathGetBus (path : Path) : Bus := (path >>> 8).setWidth 8

def pcipathGetDevice (path : Path) : ℕ := (path.toNat >>> 3) &&& 0x1f

def pcipathGetFunc (path : Path) : ℕ := path.toNat &&& 0x7

/-! ## Configuration registers -/

section Registers

variable (config : Config)

/-- Vendor and device. -/
def pciReadVenDevId (path : Path) : BitVec 16 × BitVec 16 :=
  let word := config path 0x00
  (word.setWidth 16, (word >>> 16).setWidth 16)

/-- Base class and sub class. -/
def pciReadClass (path : Path) : BitVec 8 × BitVec 8 :=
  let word := config path 0x08
  (((word >>> 24) &&& 0xff).setWidth 8, ((word >>> 16) &&& 0xff).setWidth 8)

def pciReadConfigHeaderType (path : Path) : BitVec 8 :=
  ((config path 0x0c >>> 16) &&& 0xff).setWidth 8

def secondarybus (path : Path) : Bus :=
  ((config path 0x18 >>> 8) &&& 0xff).setWidth 8

/-- The number of the functions which are looked at if this is function 0. -/
def maxfunccount (path : Path) : ℕ :=
  if pciReadConfigHeaderType config path &&& 0x80 ≠ 0 then 8 else 1

end Registers

/-! ## Enumeration -/

/-- The arguments of a call of `callback`. -/
structure Call where
  path : Path
  venid : BitVec 16
  devid : BitVec 16
  baseclass : BitVec 8
  subclass : BitVec 8
deriving DecidableEq, Repr

/-- A loop over numbers, with the calls of every round in order. -/
def collect (visit : ℕ → Except Fault (List Call)) :
    List ℕ → Except Fault (List Call)
  | [] => .ok []
  | n :: rest => do
      let first ← visit n
      let after ← collect visit rest
      .ok (first ++ after)

section Probe

variable (config : Config)

/-- One round of the loop of `probe_dev`. -/
def probeFunc (probeBus : Bus → Except Fault (List Call)) (bus : Bus)
    (device func : ℕ) : Except Fault (List Call) := do
  let path ← pciMakePath bus device func
  let (venid, devid) := pciReadVenDevId config path
  if venid = 0xffff then
    .ok []
  else
    let (baseclass, subclass) := pciReadClass config path
    let calls ← if baseclass = 0x6 ∧ subclass = 0x4 then
        probeBus (secondarybus config path)
      else .ok []
    .ok (calls ++ [⟨path, venid, devid, baseclass, subclass⟩])

def probeDev (probeBus : Bus → Except Fault (List Call)) (bus : Bus)
    (device : ℕ) : Except Fault (List Call) := do
  let path ← pciMakePath bus device 0
  if (pciReadVenDevId config path).1 = 0xffff then
    .ok []
  else
    collect (probeFunc config probeBus bus device)
      (List.range (maxfunccount config path))

def probeBus : ℕ → Bus → Except Fault (List Call)
  | 0, _ => .error .outOfFuel
  | fuel + 1, bus =>
      collect (probeDev config (probeBus fuel) bus) (List.range 32)

/-- One round of the loop of `pci_probe_bus`. -/
def probeHostBridge (fuel : ℕ) (bus : ℕ) : Except Fault (List Call) := do
  let path ← pciMakePath 0 0 bus
  if (pciReadVenDevId config path).1 = 0xffff then
    .ok []
  else
    let (baseclass, subclass) := pciReadClass config path
    if baseclass ≠ 0x60 ∧ subclass ≠ 0x00 then
      .ok []
    else
      probeBus config fuel (BitVec.ofNat 8 bus)

def pciProbeBus (fuel : ℕ) : Except Fault (List Call) := do
  let path ← pciMakePath 0 0 0
  collect (probeHostBridge config fuel) (List.range (maxfunccount config path))

end Probe

/-! ## Buses and their functions -/

section Buses

variable (config : Config)

/-- Function 0 of the device answers, the function answers, and it is
function 0 or one of the further functions of a device which has them. -/
def Present (path : Path) : Prop :=
  let head := pathOf (pcipathGetBus path) (pcipathGetDevice path) 0
  (pciReadVenDevId config head).1 ≠ 0xffff ∧
    (pciReadVenDevId config path).1 ≠ 0xffff ∧
    pcipathGetFunc path < maxfunccount config head

instance (path : Path) : Decidable (Present config path) :=
  inferInstanceAs (Decidable (_ ∧ _ ∧ _))

/-- The bus behind a PCI-PCI bridge. -/
def busBehind (path : Path) : Option Bus :=
  if pciReadClass config path = (0x6, 0x4) then
    some (secondarybus config path)
  else none

/-- The paths of a bus in the order of `probe_bus`. -/
def pathsOf (bus : Bus) : List Path :=
  (List.range 32).flatMap fun device =>
    (List.range 8).map (pathOf bus device)

/-- The present functions of a bus. -/
def functionsOf (bus : Bus) : List Path :=
  (pathsOf bus).filter (Present config)

/-- The call of `callback` for a function. -/
def callFor (path : Path) : Call where
  path := path
  venid := (pciReadVenDevId config path).1
  devid := (pciReadVenDevId config path).2
  baseclass := (pciReadClass config path).1
  subclass := (pciReadClass config path).2

/-- The functions of the device 0 on bus 0 which answer. -/
def Answers (bus : ℕ) : Prop :=
  bus < maxfunccount config (pathOf 0 0 0) ∧
    (pciReadVenDevId config (pathOf 0 0 bus)).1 ≠ 0xffff

/-- The bus of a host bridge: a function of this device of class 6, sub class
0, whose number is that of the bus. -/
def HostBus (bus : Bus) : Prop :=
  Answers config bus.toNat ∧
    pciReadClass config (pathOf 0 0 bus.toNat) = (0x6, 0x0)

instance (bus : Bus) : Decidable (HostBus config bus) :=
  inferInstanceAs (Decidable ((_ ∧ _) ∧ _))

/-- The buses which `pci_probe_bus` starts from. -/
def ProbedBus (bus : Bus) : Prop :=
  Answers config bus.toNat ∧
    ((pciReadClass config (pathOf 0 0 bus.toNat)).1 = 0x60 ∨
      (pciReadClass config (pathOf 0 0 bus.toNat)).2 = 0x0)

instance (bus : Bus) : Decidable (ProbedBus config bus) :=
  inferInstanceAs (Decidable ((_ ∧ _) ∧ _))

/-- Following bridges from the bus never leads back to a bus. -/
def NoBridgeCycle (bus : Bus) : Prop :=
  TreeWalk.AcyclicFrom (functionsOf config) (busBehind config) bus

/-- The secondary buses form a tree below the buses of the host bridges. -/
def BusTree : Prop :=
  TreeWalk.Forest (functionsOf config) (busBehind config) (HostBus config)

/-- The function is present on a bus of this tree. -/
def InTree (path : Path) : Prop :=
  ∃ root bus, HostBus config root ∧
    TreeWalk.Reaches (functionsOf config) (busBehind config) root bus ∧
    pcipathGetBus path = bus ∧ Present config path

end Buses

end Pci
end Yjkos
