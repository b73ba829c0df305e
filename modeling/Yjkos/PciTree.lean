import Yjkos.Pci

/-!
# Exactness of the PCI enumeration

The probing of a bus is the depth-first walk over the present functions.  So
it ends exactly if no bridge cycle is reached, and over a tree of buses it is
exact if and only if nothing stands on the buses which are probed for a
function that is not a host bridge.
-/

namespace Yjkos
namespace Pci

open TreeWalk

/-! ## Paths -/

theorem pathOf_toNat (bus : Bus) {device function : ℕ} (hdevice : device < 32)
    (hfunction : function < 8) :
    (pathOf bus device function).toNat =
      bus.toNat * 256 + device * 8 + function := by
  have hbus := bus.isLt
  have hlow : device <<< 3 ||| function = device * 8 + function := by
    rw [← Nat.shiftLeft_add_eq_or_of_lt hfunction, Nat.shiftLeft_eq]
  have hword : bus.toNat <<< 8 ||| (device <<< 3 ||| function) =
      bus.toNat * 256 + (device * 8 + function) := by
    rw [hlow, ← Nat.shiftLeft_add_eq_or_of_lt (by omega), Nat.shiftLeft_eq]
  rw [pathOf, Nat.or_assoc, hword, BitVec.toNat_ofNat]
  omega

theorem pcipathGetBus_toNat (path : Path) :
    (pcipathGetBus path).toNat = path.toNat / 256 := by
  have hlt := path.isLt
  simp [pcipathGetBus, Nat.shiftRight_eq_div_pow]
  omega

theorem pcipathGetDevice_eq (path : Path) :
    pcipathGetDevice path = path.toNat / 8 % 32 := by
  have hand := Nat.and_two_pow_sub_one_eq_mod (path.toNat >>> 3) 5
  simpa [pcipathGetDevice, Nat.shiftRight_eq_div_pow] using hand

theorem pcipathGetFunc_eq (path : Path) :
    pcipathGetFunc path = path.toNat % 8 :=
  Nat.and_two_pow_sub_one_eq_mod path.toNat 3

section Getters

variable (bus : Bus) {device function : ℕ} (hdevice : device < 32)
  (hfunction : function < 8)
include hdevice hfunction

theorem pcipathGetBus_pathOf :
    pcipathGetBus (pathOf bus device function) = bus := by
  rw [← BitVec.toNat_inj, pcipathGetBus_toNat,
    pathOf_toNat bus hdevice hfunction]
  omega

theorem pcipathGetDevice_pathOf :
    pcipathGetDevice (pathOf bus device function) = device := by
  rw [pcipathGetDevice_eq, pathOf_toNat bus hdevice hfunction]
  omega

theorem pcipathGetFunc_pathOf :
    pcipathGetFunc (pathOf bus device function) = function := by
  rw [pcipathGetFunc_eq, pathOf_toNat bus hdevice hfunction]
  omega

theorem pciMakePath_eq :
    pciMakePath bus device function = .ok (pathOf bus device function) := by
  have hfirst : cAssert (decide (device < 32)) "device < 32" = .ok () :=
    cAssert_of (decide_eq_true hdevice)
  have hsecond : cAssert (decide (function < 8)) "function < 8" = .ok () :=
    cAssert_of (decide_eq_true hfunction)
  rw [pciMakePath, hfirst, ok_bind, hsecond, ok_bind]

end Getters

theorem pathOf_getters (path : Path) :
    pathOf (pcipathGetBus path) (pcipathGetDevice path)
      (pcipathGetFunc path) = path := by
  have hdevice : pcipathGetDevice path < 32 := by
    rw [pcipathGetDevice_eq]
    omega
  have hfunction : pcipathGetFunc path < 8 := by
    rw [pcipathGetFunc_eq]
    omega
  rw [← BitVec.toNat_inj, pathOf_toNat _ hdevice hfunction,
    pcipathGetBus_toNat, pcipathGetDevice_eq, pcipathGetFunc_eq]
  omega

theorem mem_pathsOf {bus : Bus} {path : Path} :
    path ∈ pathsOf bus ↔ pcipathGetBus path = bus := by
  simp only [pathsOf, List.mem_flatMap, List.mem_range, List.mem_map]
  constructor
  · rintro ⟨device, hdevice, function, hfunction, rfl⟩
    exact pcipathGetBus_pathOf bus hdevice hfunction
  · intro hbus
    refine ⟨pcipathGetDevice path, ?_, pcipathGetFunc path, ?_, ?_⟩
    · rw [pcipathGetDevice_eq]
      omega
    · rw [pcipathGetFunc_eq]
      omega
    · rw [← hbus, pathOf_getters]

theorem pathsOf_nodup (bus : Bus) : (pathsOf bus).Nodup := by
  rw [pathsOf, List.nodup_flatMap]
  constructor
  · intro device hdevice
    refine List.nodup_range.map_on ?_
    intro f hf g hg heq
    have hdevice := List.mem_range.mp hdevice
    rw [← pcipathGetFunc_pathOf bus hdevice (List.mem_range.mp hf), heq,
      pcipathGetFunc_pathOf bus hdevice (List.mem_range.mp hg)]
  · refine List.Pairwise.imp_of_mem ?_ List.nodup_range
    intro d e hd he hne x hx hx'
    obtain ⟨f, hf, rfl⟩ := List.mem_map.mp hx
    obtain ⟨g, hg, heq⟩ := List.mem_map.mp hx'
    apply hne
    rw [← pcipathGetDevice_pathOf bus (List.mem_range.mp hd)
      (List.mem_range.mp hf), ← heq, pcipathGetDevice_pathOf bus
      (List.mem_range.mp he) (List.mem_range.mp hg)]

section Buses

variable (config : Config)

theorem mem_functionsOf {bus : Bus} {path : Path} :
    path ∈ functionsOf config bus ↔
      pcipathGetBus path = bus ∧ Present config path := by
  simp [functionsOf, mem_pathsOf]

theorem functionsOf_placed : Placed (functionsOf config) where
  nodup bus := (pathsOf_nodup bus).filter _
  unique := by
    intro path bus other hbus hother
    exact ((mem_functionsOf config).mp hbus).1.symm.trans
      ((mem_functionsOf config).mp hother).1

theorem below_iff_inTree {path : Path} :
    Below (functionsOf config) (busBehind config) (HostBus config) path ↔
      InTree config path := by
  simp only [Below, InTree, mem_functionsOf]

end Buses

/-! ## The walk behind the loops -/

section Walk

variable (config : Config)

/-- The calls for a walk; without fuel there is none. -/
def callsOf : Option (List Path) → Except Fault (List Call)
  | none => .error .outOfFuel
  | some paths => .ok (paths.map (callFor config))

theorem collect_callsOf {visit : ℕ → Except Fault (List Call)}
    {f : ℕ → Option (List Path)} {ns : List ℕ}
    (h : ∀ n ∈ ns, visit n = callsOf config (f n)) :
    collect visit ns = callsOf config (gather f ns) := by
  induction ns with
  | nil => rfl
  | cons n ns ih =>
      have hrest := ih fun m hm => h m (List.mem_cons_of_mem n hm)
      rw [collect, h n List.mem_cons_self, hrest, gather_cons]
      cases f n with
      | none => rfl
      | some first =>
          cases gather f ns with
          | none => rfl
          | some after =>
              simp only [callsOf, ok_bind, Option.bind_some, List.map_append]

/-- The functions which one round of a loop visits. -/
def answering (paths : List Path) : List Path :=
  paths.filter fun path => (pciReadVenDevId config path).1 ≠ 0xffff

theorem probeFunc_eq {fuel : ℕ}
    (hbus : ∀ bus, probeBus config fuel bus = callsOf config
      (walk (functionsOf config) (busBehind config) fuel bus))
    (bus : Bus) {device func : ℕ} (hdevice : device < 32) (hfunc : func < 8) :
    probeFunc config (probeBus config fuel) bus device func =
      callsOf config (gather (listed (busBehind config)
        (walk (functionsOf config) (busBehind config) fuel))
        (answering config [pathOf bus device func])) := by
  rw [probeFunc, pciMakePath_eq bus hdevice hfunc, ok_bind]
  generalize pathOf bus device func = path
  simp only [answering]
  by_cases hvendor : (pciReadVenDevId config path).1 = 0xffff
  · simp [hvendor, gather, callsOf]
  · have hfilter : [path].filter (fun path =>
        decide ((pciReadVenDevId config path).1 ≠ 0xffff)) = [path] :=
      List.filter_cons_of_pos (decide_eq_true hvendor)
    rw [hfilter, gather_singleton, if_neg hvendor]
    by_cases hbridge : pciReadClass config path = (0x6, 0x4)
    · have hclass : (pciReadClass config path).1 = 0x6 ∧
          (pciReadClass config path).2 = 0x4 := by
        rw [hbridge]
        exact ⟨rfl, rfl⟩
      have hbehind : busBehind config path =
          some (secondarybus config path) := if_pos hbridge
      simp only [if_pos hclass, hbus, listed, hbehind]
      cases walk (functionsOf config) (busBehind config) fuel
          (secondarybus config path) with
      | none => rfl
      | some under => simp [callsOf, callFor, ok_bind]
    · have hclass : ¬((pciReadClass config path).1 = 0x6 ∧
          (pciReadClass config path).2 = 0x4) := by
        intro h
        exact hbridge (Prod.ext h.1 h.2)
      have hbehind : busBehind config path = none := if_neg hbridge
      simp only [if_neg hclass, listed, hbehind, ok_bind]
      rfl

/-- The functions of a device. -/
def deviceFunctions (bus : Bus) (device : ℕ) : List Path :=
  ((List.range 8).map (pathOf bus device)).filter (Present config)

theorem functionsOf_eq (bus : Bus) :
    functionsOf config bus =
      (List.range 32).flatMap (deviceFunctions config bus) := by
  simp only [functionsOf, pathsOf, List.filter_flatMap]
  rfl

theorem present_pathOf (bus : Bus) {device func : ℕ} (hdevice : device < 32)
    (hfunc : func < 8) :
    Present config (pathOf bus device func) ↔
      (pciReadVenDevId config (pathOf bus device 0)).1 ≠ 0xffff ∧
      (pciReadVenDevId config (pathOf bus device func)).1 ≠ 0xffff ∧
      func < maxfunccount config (pathOf bus device 0) := by
  simp only [Present, pcipathGetBus_pathOf bus hdevice hfunc,
    pcipathGetDevice_pathOf bus hdevice hfunc,
    pcipathGetFunc_pathOf bus hdevice hfunc]

theorem deviceFunctions_of_absent (bus : Bus) {device : ℕ}
    (hdevice : device < 32)
    (habsent : (pciReadVenDevId config (pathOf bus device 0)).1 = 0xffff) :
    deviceFunctions config bus device = [] := by
  refine List.filter_eq_nil_iff.mpr ?_
  intro path hpath hpresent
  obtain ⟨func, hfunc, rfl⟩ := List.mem_map.mp hpath
  have h := (present_pathOf config bus hdevice (List.mem_range.mp hfunc)).mp
    (of_decide_eq_true hpresent)
  exact h.1 habsent

theorem maxfunccount_le (path : Path) : maxfunccount config path ≤ 8 := by
  unfold maxfunccount
  split <;> omega

theorem deviceFunctions_of_present (bus : Bus) {device : ℕ}
    (hdevice : device < 32)
    (hpresent : (pciReadVenDevId config (pathOf bus device 0)).1 ≠ 0xffff) :
    deviceFunctions config bus device =
      (List.range (maxfunccount config (pathOf bus device 0))).flatMap
        fun func => answering config [pathOf bus device func] := by
  have hmax := maxfunccount_le config (pathOf bus device 0)
  obtain ⟨others, hothers⟩ := Nat.exists_eq_add_of_le hmax
  generalize hcount : maxfunccount config (pathOf bus device 0) = count at *
  have htail : (((List.range others).map (count + ·)).map
      (pathOf bus device)).filter (Present config) = [] := by
    refine List.filter_eq_nil_iff.mpr ?_
    intro path hpath hin
    obtain ⟨func, hfunc, rfl⟩ := List.mem_map.mp hpath
    obtain ⟨k, hk, rfl⟩ := List.mem_map.mp hfunc
    have hk := List.mem_range.mp hk
    have h := (present_pathOf config bus hdevice (by omega)).mp
      (of_decide_eq_true hin)
    rw [hcount] at h
    omega
  rw [deviceFunctions, hothers, List.range_add, List.map_append,
    List.filter_append, htail, List.append_nil]
  have hsame : (List.range count).flatMap
      (fun func => answering config [pathOf bus device func]) =
        answering config ((List.range count).map (pathOf bus device)) := by
    rw [answering, List.map_eq_flatMap, List.filter_flatMap]
    rfl
  rw [hsame]
  refine List.filter_congr ?_
  intro path hpath
  obtain ⟨func, hfunc, rfl⟩ := List.mem_map.mp hpath
  have hfunc := List.mem_range.mp hfunc
  rw [decide_eq_decide, present_pathOf config bus hdevice (by omega), hcount]
  simp only [hpresent, hfunc, ne_eq, not_false_eq_true, true_and, and_true]

theorem probeDev_eq {fuel : ℕ}
    (hbus : ∀ bus, probeBus config fuel bus = callsOf config
      (walk (functionsOf config) (busBehind config) fuel bus))
    (bus : Bus) {device : ℕ} (hdevice : device < 32) :
    probeDev config (probeBus config fuel) bus device =
      callsOf config (gather (listed (busBehind config)
        (walk (functionsOf config) (busBehind config) fuel))
        (deviceFunctions config bus device)) := by
  rw [probeDev, pciMakePath_eq bus hdevice (by decide), ok_bind]
  by_cases hvendor : (pciReadVenDevId config (pathOf bus device 0)).1 = 0xffff
  · rw [if_pos hvendor, deviceFunctions_of_absent config bus hdevice hvendor]
    rfl
  · rw [if_neg hvendor, deviceFunctions_of_present config bus hdevice hvendor,
      gather_flatMap]
    refine collect_callsOf config fun func hfunc => ?_
    exact probeFunc_eq config hbus bus hdevice
      ((List.mem_range.mp hfunc).trans_le (maxfunccount_le config _))

theorem probeBus_eq (fuel : ℕ) (bus : Bus) :
    probeBus config fuel bus = callsOf config
      (walk (functionsOf config) (busBehind config) fuel bus) := by
  induction fuel generalizing bus with
  | zero => rfl
  | succ fuel ih =>
      rw [probeBus, walk, functionsOf_eq, gather_flatMap]
      exact collect_callsOf config fun device hdevice =>
        probeDev_eq config ih bus (List.mem_range.mp hdevice)

/-- The buses which `pci_probe_bus` starts from, in order. -/
def starts : List Bus :=
  (List.range (maxfunccount config (pathOf 0 0 0))).flatMap fun n =>
    if ProbedBus config (BitVec.ofNat 8 n) then [BitVec.ofNat 8 n] else []

theorem toNat_ofNat_of_lt {n : ℕ} (hn : n < 8) :
    (BitVec.ofNat 8 n : Bus).toNat = n := by
  rw [BitVec.toNat_ofNat]
  omega

theorem eq_of_mem_start {bus start : Bus}
    (h : bus ∈ if ProbedBus config start then [start] else []) :
    ProbedBus config start ∧ bus = start := by
  split at h
  · next hprobed => exact ⟨hprobed, List.mem_singleton.mp h⟩
  · cases h

theorem mem_starts {bus : Bus} : bus ∈ starts config ↔ ProbedBus config bus := by
  rw [starts, List.mem_flatMap]
  constructor
  · rintro ⟨n, hn, hmem⟩
    obtain ⟨hprobed, rfl⟩ := eq_of_mem_start config hmem
    exact hprobed
  · intro hprobed
    refine ⟨bus.toNat, List.mem_range.mpr hprobed.1.1, ?_⟩
    rw [BitVec.ofNat_toNat, BitVec.setWidth_eq, if_pos hprobed]
    exact List.mem_singleton_self bus

theorem starts_nodup : (starts config).Nodup := by
  rw [starts, List.nodup_flatMap]
  constructor
  · intro n hn
    split
    · exact List.nodup_singleton _
    · exact List.nodup_nil
  · refine List.Pairwise.imp_of_mem ?_ List.nodup_range
    intro n m hn hm hne bus hbus hbus'
    have hmax := maxfunccount_le config (pathOf 0 0 0)
    have hn := (List.mem_range.mp hn).trans_le hmax
    have hm := (List.mem_range.mp hm).trans_le hmax
    have heq := (eq_of_mem_start config hbus).2.symm.trans
      (eq_of_mem_start config hbus').2
    rw [← BitVec.toNat_inj, toNat_ofNat_of_lt hn, toNat_ofNat_of_lt hm] at heq
    exact hne heq

theorem probeHostBridge_eq (fuel : ℕ) {n : ℕ}
    (hn : n < maxfunccount config (pathOf 0 0 0)) :
    probeHostBridge config fuel n = callsOf config
      (gather (walk (functionsOf config) (busBehind config) fuel)
        (if ProbedBus config (BitVec.ofNat 8 n) then [BitVec.ofNat 8 n]
          else [])) := by
  have hlt := hn.trans_le (maxfunccount_le config _)
  have hprobed : ProbedBus config (BitVec.ofNat 8 n) ↔
      (pciReadVenDevId config (pathOf 0 0 n)).1 ≠ 0xffff ∧
      ((pciReadClass config (pathOf 0 0 n)).1 = 0x60 ∨
        (pciReadClass config (pathOf 0 0 n)).2 = 0x0) := by
    rw [ProbedBus, Answers, toNat_ofNat_of_lt hlt]
    simp only [hn, true_and]
  rw [probeHostBridge, pciMakePath_eq 0 (by decide) hlt, ok_bind]
  by_cases hvendor : (pciReadVenDevId config (pathOf 0 0 n)).1 = 0xffff
  · have hskip : ¬ProbedBus config (BitVec.ofNat 8 n) :=
      fun h => (hprobed.mp h).1 hvendor
    rw [if_pos hvendor, if_neg hskip]
    rfl
  · rw [if_neg hvendor]
    by_cases hclass : (pciReadClass config (pathOf 0 0 n)).1 ≠ 0x60 ∧
        (pciReadClass config (pathOf 0 0 n)).2 ≠ 0x0
    · have hskip : ¬ProbedBus config (BitVec.ofNat 8 n) := by
        intro h
        cases (hprobed.mp h).2 with
        | inl h => exact hclass.1 h
        | inr h => exact hclass.2 h
      rw [if_neg hskip]
      exact if_pos hclass
    · have hvisit : ProbedBus config (BitVec.ofNat 8 n) := by
        refine hprobed.mpr ⟨hvendor, ?_⟩
        by_contra hnot
        exact hclass (not_or.mp hnot)
      rw [if_pos hvisit, gather_singleton, ← probeBus_eq]
      exact if_neg hclass

theorem pciProbeBus_eq (fuel : ℕ) :
    pciProbeBus config fuel = callsOf config
      (walkAll (functionsOf config) (busBehind config) fuel
        (starts config)) := by
  rw [pciProbeBus, pciMakePath_eq 0 (by decide) (by decide), ok_bind,
    walkAll, starts, gather_flatMap]
  exact collect_callsOf config fun n hn =>
    probeHostBridge_eq config fuel (List.mem_range.mp hn)

/-! ## Exactness -/

instance : Finite Bus :=
  Finite.of_injective BitVec.toFin fun _ _ h => BitVec.eq_of_toFin_eq h

/-- The calls are one for every function in the tree, and nothing else. -/
def Enumerates (calls : List Call) : Prop :=
  calls.Nodup ∧ ∀ call,
    call ∈ calls ↔ ∃ path, InTree config path ∧ call = callFor config path

theorem callFor_injective : Function.Injective (callFor config) :=
  fun _ _ h => congrArg Call.path h

theorem enumerates_map_iff {paths : List Path} :
    Enumerates config (paths.map (callFor config)) ↔
      paths.Nodup ∧ ∀ path, path ∈ paths ↔ Below (functionsOf config)
        (busBehind config) (HostBus config) path := by
  have hinj := callFor_injective config
  simp only [Enumerates, List.nodup_map_iff hinj, below_iff_inTree]
  refine and_congr_right fun _ => ⟨fun h path => ?_, fun h call => ?_⟩
  · rw [← List.mem_map_of_injective hinj, h]
    constructor
    · rintro ⟨other, hother, heq⟩
      exact hinj heq ▸ hother
    · exact fun hpath => ⟨path, hpath, rfl⟩
  · rw [List.mem_map]
    constructor
    · rintro ⟨path, hpath, rfl⟩
      exact ⟨path, (h path).mp hpath, rfl⟩
    · rintro ⟨path, hpath, rfl⟩
      exact ⟨path, (h path).mpr hpath, rfl⟩

theorem hostBus_probed {bus : Bus} (h : HostBus config bus) :
    ProbedBus config bus := by
  refine ⟨h.1, .inr ?_⟩
  rw [h.2]

theorem callsOf_eq_ok {found : Option (List Path)} {calls : List Call}
    (h : callsOf config found = .ok calls) :
    ∃ paths, found = some paths ∧ calls = paths.map (callFor config) := by
  cases found with
  | none => cases h
  | some paths =>
      cases h
      exact ⟨paths, rfl, rfl⟩

theorem pciProbeBus_ends_iff :
    (∃ fuel calls, pciProbeBus config fuel = .ok calls) ↔
      ∀ bus, ProbedBus config bus → NoBridgeCycle config bus := by
  have hends : (∃ fuel l, walkAll (functionsOf config) (busBehind config)
      fuel (starts config) = some l) ↔ ∀ start ∈ starts config,
        AcyclicFrom (functionsOf config) (busBehind config) start :=
    exists_walkAll_iff
  simp only [mem_starts] at hends
  refine Iff.trans ?_ hends
  simp only [pciProbeBus_eq]
  constructor
  · rintro ⟨fuel, calls, hcalls⟩
    obtain ⟨paths, hwalk, -⟩ := callsOf_eq_ok config hcalls
    exact ⟨fuel, paths, hwalk⟩
  · rintro ⟨fuel, paths, hwalk⟩
    exact ⟨fuel, paths.map (callFor config), by rw [hwalk]; rfl⟩

theorem pciProbeBus_exact_iff (htree : BusTree config) {fuel : ℕ}
    {calls : List Call} (h : pciProbeBus config fuel = .ok calls) :
    Enumerates config calls ↔
      ∀ bus, ProbedBus config bus → ¬HostBus config bus →
        functionsOf config bus = [] := by
  rw [pciProbeBus_eq] at h
  obtain ⟨paths, hwalk, rfl⟩ := callsOf_eq_ok config h
  rw [enumerates_map_iff, Forest.walkAll_exact_iff
    (functionsOf_placed config) htree (starts_nodup config)
    (fun bus hbus => (mem_starts config).mpr (hostBus_probed config hbus))
    hwalk]
  simp only [mem_starts]

theorem enumeration_iff :
    (∃ fuel calls, pciProbeBus config fuel = .ok calls ∧
        (BusTree config → Enumerates config calls)) ↔
      (∀ bus, ProbedBus config bus → NoBridgeCycle config bus) ∧
      (BusTree config → ∀ bus, ProbedBus config bus → ¬HostBus config bus →
        functionsOf config bus = []) := by
  constructor
  · rintro ⟨fuel, calls, hcalls, henum⟩
    exact ⟨(pciProbeBus_ends_iff config).mp ⟨fuel, calls, hcalls⟩,
      fun htree => (pciProbeBus_exact_iff config htree hcalls).mp (henum htree)⟩
  · rintro ⟨hacyclic, hempty⟩
    obtain ⟨fuel, calls, hcalls⟩ := (pciProbeBus_ends_iff config).mpr hacyclic
    exact ⟨fuel, calls, hcalls, fun htree =>
      (pciProbeBus_exact_iff config htree hcalls).mpr (hempty htree)⟩

end Walk

/-! ## Two machines -/

/-- A host bridge, and a bridge on bus 0 which reports bus 0 as secondary. -/
def loopedConfig : Config := fun path offset =>
  if path = 0 then
    if offset = 0x00 then 0x12378086 else if offset = 0x08 then 0x06000000
    else 0
  else if path = 8 then
    if offset = 0x00 then 0x00011011 else if offset = 0x08 then 0x06040000
    else if offset = 0x0c then 0x00010000 else 0
  else 0xffffffff

/-- A host bridge with a storage controller as its function 1, and a device
on bus 1 to which no bridge leads. -/
def storageConfig : Config := fun path offset =>
  if path = 0 then
    if offset = 0x00 then 0x12378086 else if offset = 0x08 then 0x06000000
    else if offset = 0x0c then 0x00800000 else 0
  else if path = 1 then
    if offset = 0x00 then 0x70108086 else if offset = 0x08 then 0x01000000
    else 0
  else if path = 256 then
    if offset = 0x00 then 0x10001af4 else if offset = 0x08 then 0x02000000
    else 0
  else 0xffffffff

theorem storageConfig_no_bridge (path : Path) :
    busBehind storageConfig path = none := by
  by_cases h0 : path = 0
  · subst h0
    decide
  by_cases h1 : path = 1
  · subst h1
    decide
  by_cases h256 : path = 256
  · subst h256
    decide
  have hword : storageConfig path 0x08 = 0xffffffff := by
    simp only [storageConfig, if_neg h0, if_neg h1, if_neg h256]
  have hclass : pciReadClass storageConfig path ≠ (0x6, 0x4) := by
    simp only [pciReadClass, hword]
    decide
  exact if_neg hclass

theorem storageConfig_tree : BusTree storageConfig where
  leads_once := by
    intro i j node _ _ hchild
    rw [storageConfig_no_bridge] at hchild
    cases hchild
  leads_off := by
    intro i node _ hchild
    rw [storageConfig_no_bridge] at hchild
    cases hchild

theorem loopedConfig_cycle : ¬NoBridgeCycle loopedConfig 0 := by
  intro hacyclic
  have hbridge : 8 ∈ functionsOf loopedConfig 0 :=
    (mem_functionsOf loopedConfig).mpr (by decide)
  exact hacyclic 0 .refl (.single ⟨8, hbridge, by decide⟩)

theorem storageConfig_acyclic (bus : Bus) :
    NoBridgeCycle storageConfig bus := by
  intro node _ hcycle
  obtain ⟨below, ⟨path, -, hchild⟩, -⟩ := Relation.TransGen.head'_iff.mp hcycle
  rw [storageConfig_no_bridge] at hchild
  cases hchild

theorem looped_and_storage_fail :
    (∀ fuel calls, pciProbeBus loopedConfig fuel ≠ .ok calls) ∧
      BusTree storageConfig ∧ ∃ fuel calls,
        pciProbeBus storageConfig fuel = .ok calls ∧
        ¬Enumerates storageConfig calls := by
  refine ⟨?_, storageConfig_tree, ?_⟩
  · intro fuel calls hcalls
    exact loopedConfig_cycle
      ((pciProbeBus_ends_iff loopedConfig).mp ⟨fuel, calls, hcalls⟩ 0
        (by decide))
  · obtain ⟨fuel, calls, hcalls⟩ := (pciProbeBus_ends_iff storageConfig).mpr
      fun bus _ => storageConfig_acyclic bus
    refine ⟨fuel, calls, hcalls, fun henum => ?_⟩
    have hempty := (pciProbeBus_exact_iff storageConfig storageConfig_tree
      hcalls).mp henum 1 (by decide) (by decide)
    have hdevice : 256 ∈ functionsOf storageConfig 1 :=
      (mem_functionsOf storageConfig).mpr (by decide)
    rw [hempty] at hdevice
    cases hdevice

end Pci
end Yjkos
