import Yjkos.IdeBusmaster
import Yjkos.PmmPlaces

/-!
# The blocks of the bus master

What `init_busmaster` gets from `pmm_alloc`: the block of the descriptor table
and then the buffers, in the order of their descriptors.  A buffer is in one
64 KiB window exactly when the pool it is from starts with one.
-/

namespace Yjkos
namespace IdeBus

open OwnedTrace
open Ata (prdCount maxTransferSizePerPrd)
open Pmm (Allocation Apart PoolsInv places windowPages)

/-- What a caller knows of a block. -/
def known (a : Allocation) : ℕ × ℕ := (a.ptr, a.rounded)

section Calls

variable {m m' : Memory} {a : Allocation} {count ptr written : ℕ}

/-- A block has become live. -/
structure Takes (m m' : Memory) (a : Allocation) : Prop where
  inv : PoolsInv m'.pmm
  live : m'.pmm.live = a :: m.pmm.live
  vm : m'.vm = m.vm
  trace : m'.trace = m.trace ++ [.alloc (known a)]

/-- A live block has been freed. -/
structure Gives (m m' : Memory) (a : Allocation) : Prop where
  inv : PoolsInv m'.pmm
  live : m'.pmm.live = m.pmm.live.erase a
  vm : m'.vm = m.vm
  trace : m'.trace = m.trace ++ [.free (known a)]

theorem pmmAlloc_cases (h : PoolsInv m.pmm) (hcount : 1 ≤ count)
    (hcall : pmmAlloc m count = .ok (ptr, written, m')) :
    places m'.pmm.pools = places m.pmm.pools ∧
      ((ptr = 0 ∧ m' = m) ∨
        (ptr ≠ 0 ∧ Takes m m' ⟨ptr, count, written⟩)) := by
  obtain ⟨⟨result, n, pools⟩, hpmm, hrest⟩ := bind_eq_ok hcall
  obtain ⟨hplaces, hcases⟩ := h.alloc_cases hcount hpmm
  dsimp only at hrest
  rcases hcases with ⟨hzero, hpools⟩ | ⟨hne, hinv⟩
  · rw [if_pos hzero] at hrest
    cases hrest
    subst hpools
    exact ⟨rfl, .inl ⟨rfl, rfl⟩⟩
  · rw [if_neg hne] at hrest
    cases hrest
    exact ⟨hplaces, .inr ⟨hne, hinv, rfl, rfl, rfl⟩⟩

theorem touch_vm {kernelVmStart p : ℕ}
    (h : touch kernelVmStart m p ptr = .ok m') :
    ∃ vm, m' = { m with vm := vm } := by
  unfold touch at h
  split at h
  next =>
    cases h
    exact ⟨m.vm, rfl⟩
  next =>
    obtain ⟨vm, -, hrest⟩ := bind_eq_ok h
    cases hrest
    exact ⟨vm, rfl⟩

end Calls

/-! ## The loop over the descriptors -/

/-- The buffers of the descriptors from one on, by their page counts. -/
def blocksFrom (bus : Bus) : ℕ → List ℕ → List (ℕ × ℕ)
  | _, [] => []
  | i, pageCount :: rest =>
      ((bus.prdt i).bufferPhysaddr, pageCount) :: blocksFrom bus (i + 1) rest

/-- What the loop does from descriptor `i` on: it has got the blocks `new`,
and every access to the table has kept `P`. -/
structure Fills (P : Vmm.VmState → Prop) (bus bus' : Bus) (i left : ℕ)
    (m m' : Memory) (filled : Bool) (new : List Allocation) : Prop where
  inv : PoolsInv m'.pmm
  places : places m'.pmm.pools = places m.pmm.pools
  live : m'.pmm.live = new.reverse ++ m.pmm.live
  trace : m'.trace = m.trace ++ new.map (fun a => .alloc (known a))
  buffers : blocksFrom bus' i (new.map (fun a => a.rounded)) = new.map known
  before : ∀ j < i, bus'.prdt j = bus.prdt j
  start : bus'.prdtStart = bus.prdtStart
  physbase : bus'.prdtPhysbase = bus.prdtPhysbase
  prdCount : bus'.prdCount = bus.prdCount
  requested : ∀ a ∈ new, a.requested = windowPages
  filled : filled = true → new.length = left
  vm : P m'.vm
  count : new.length ≤ left

theorem sizeToBlocks_window : sizeToBlocks maxTransferSizePerPrd archPageSize =
    windowPages := by
  decide

section Loop

variable {kernelVmStart object : ℕ} {P : Vmm.VmState → Prop}

theorem fillTable_fills {left i : ℕ} {pageCounts pageCounts' : List ℕ}
    {bus bus' : Bus} {m m' : Memory} {filled : Bool} {start : ℕ}
    (hstart : bus.prdtStart = start) (htable : i + left ≤ prdCount)
    (hP : ∀ m m' j, j < prdCount → P m.vm →
      touch kernelVmStart m object (start + j * sizeofPrd) = .ok m' → P m'.vm)
    (h : PoolsInv m.pmm) (hvm : P m.vm)
    (hcall : fillTable kernelVmStart object left i
      (left * maxTransferSizePerPrd) pageCounts bus m =
        .ok (filled, pageCounts', bus', m')) :
    ∃ new, pageCounts' = pageCounts ++ new.map (fun a => a.rounded) ∧
      Fills P bus bus' i left m m' filled new := by
  induction left generalizing i pageCounts bus m with
  | zero =>
      cases hcall
      refine ⟨[], (List.append_nil _).symm, ?_⟩
      exact ⟨h, rfl, rfl, (List.append_nil _).symm, rfl, fun _ _ => rfl, rfl,
        rfl, rfl, (fun _ ha => nomatch ha), (fun _ => rfl), hvm, le_rfl⟩
  | succ left ih =>
      rw [fillTable] at hcall
      have hcurrent : min ((left + 1) * maxTransferSizePerPrd)
          maxTransferSizePerPrd = maxTransferSizePerPrd := by
        unfold maxTransferSizePerPrd
        omega
      have hremaining : (left + 1) * maxTransferSizePerPrd -
          maxTransferSizePerPrd = left * maxTransferSizePerPrd := by
        unfold maxTransferSizePerPrd
        omega
      rw [hcurrent, sizeToBlocks_window, hremaining] at hcall
      obtain ⟨⟨buffer, pageCount, m₁⟩, halloc, hbehind⟩ := bind_eq_ok hcall
      obtain ⟨m₂, htouch, hrest⟩ := bind_eq_ok hbehind
      clear hcall hbehind
      obtain ⟨hplaces, hcases⟩ := pmmAlloc_cases h (by decide) halloc
      dsimp only at htouch hrest
      rw [hstart] at htouch
      have hvm₁ : P m₁.vm := by
        rcases hcases with ⟨-, rfl⟩ | ⟨-, htakes⟩
        · exact hvm
        · rw [htakes.vm]
          exact hvm
      have hvm₂ := hP m₁ m₂ i (by omega) hvm₁ htouch
      obtain ⟨vm, rfl⟩ := touch_vm htouch
      rcases hcases with ⟨rfl, rfl⟩ | ⟨hne, htakes⟩
      · rw [if_pos rfl] at hrest
        cases hrest
        refine ⟨[], (List.append_nil _).symm, h, rfl, rfl,
          (List.append_nil _).symm, rfl, ?_, rfl, rfl, rfl,
          (fun _ ha => nomatch ha), (fun hfilled => nomatch hfilled), hvm₂,
          Nat.zero_le _⟩
        intro j hj
        exact Function.update_of_ne (Nat.ne_of_lt hj) _ _
      · rw [if_neg hne] at hrest
        obtain ⟨phys, -, hloop⟩ := bind_eq_ok hrest
        have hnext := fun hbus hroom hinv hvm => ih hbus hroom hinv hvm hloop
        obtain ⟨new, hcounts, hfills⟩ :=
          hnext hstart (by omega) htakes.inv hvm₂
        refine ⟨⟨buffer, windowPages, pageCount⟩ :: new, ?_, ?_⟩
        · rw [hcounts, List.append_assoc]
          rfl
        · have hentry := hfills.before i (Nat.lt_succ_self i)
          refine
            { inv := hfills.inv
              places := hfills.places.trans hplaces
              live := ?_
              trace := ?_
              buffers := ?_
              before := ?_
              start := hfills.start
              physbase := hfills.physbase
              prdCount := hfills.prdCount
              requested := List.forall_mem_cons.2 ⟨rfl, hfills.requested⟩
              filled := fun hfilled => ?_
              vm := hfills.vm
              count := Nat.succ_le_succ hfills.count }
          · rw [hfills.live, List.reverse_cons, List.append_assoc]
            exact congrArg (new.reverse ++ ·) htakes.live
          · rw [hfills.trace, List.map_cons]
            show m₁.trace ++ _ = _
            rw [htakes.trace, List.append_assoc]
            rfl
          · rw [List.map_cons, List.map_cons, blocksFrom, hfills.buffers,
              hentry]
            dsimp only
            rw [Function.update_self]
            rfl
          · intro j hj
            rw [hfills.before j (by omega)]
            exact Function.update_of_ne (Nat.ne_of_lt hj) _ _
          · rw [List.length_cons, hfills.filled hfilled]

end Loop

/-! ## The whole call -/

/-- The size of the whole is that of the buffers. -/
theorem maxDmaTransferSizeNeeded_eq :
    maxDmaTransferSizeNeeded = prdCount * maxTransferSizePerPrd := by
  decide

theorem sizeToBlocks_prdCount :
    sizeToBlocks maxDmaTransferSizeNeeded maxTransferSizePerPrd = prdCount := by
  decide

section Whole

variable {kernelVmStart object prdtPageCount : ℕ} {bus bus' : Bus}
  {m m' : Memory} {ok : Bool} {pageCounts : List ℕ}
  {answers : List (Option ℕ)}

/-- What is undone behind `fail_oom` when the table is mapped. -/
def Undoes (kernelVmStart object prdtPageCount : ℕ) (bus : Bus)
    (pageCounts : List ℕ) (m m' : Memory) : Prop :=
  ∃ m₁ m₂, releaseBuffers kernelVmStart object bus 0 pageCounts m = .ok m₁ ∧
    vmmFree kernelVmStart m₁ object = .ok m₂ ∧
    pmmFree m₂ bus.prdtPhysbase prdtPageCount = .ok m'

theorem setUpTable_cases
    (hcall : setUpTable kernelVmStart object prdtPageCount bus m =
      .ok (ok, pageCounts, bus', m')) :
    ∃ o m₁ m₂, m.vm.vmm.getObject object = .ok o ∧
      touch kernelVmStart m object o.start = .ok m₁ ∧
      fillTable kernelVmStart object bus.prdCount 0 maxDmaTransferSizeNeeded
        [] (bus.cleared o.start) m₁ = .ok (ok, pageCounts, bus', m₂) ∧
      ((ok = true ∧ m' = m₂) ∨ (ok = false ∧
        Undoes kernelVmStart object prdtPageCount bus' pageCounts m₂ m')) := by
  obtain ⟨o, hobject, hrest⟩ := bind_eq_ok hcall
  obtain ⟨m₁, htouch, hrest⟩ := bind_eq_ok hrest
  obtain ⟨⟨filled, counts, bus₁, m₂⟩, hfill, hrest⟩ := bind_eq_ok hrest
  dsimp only at hrest
  cases filled with
  | true =>
      rw [if_pos rfl] at hrest
      cases hrest
      exact ⟨o, m₁, m', hobject, htouch, hfill, .inl ⟨rfl, rfl⟩⟩
  | false =>
      rw [if_neg Bool.false_ne_true] at hrest
      obtain ⟨m₃, hrelease, hrest⟩ := bind_eq_ok hrest
      obtain ⟨m₄, hfree, hrest⟩ := bind_eq_ok hrest
      obtain ⟨m₅, hprdt, hrest⟩ := bind_eq_ok hrest
      cases hrest
      exact ⟨o, m₁, m₂, hobject, htouch, hfill,
        .inr ⟨rfl, m₃, m₄, hrelease, hfree, hprdt⟩⟩

theorem setUpTable_fills {P : Vmm.VmState → Prop}
    (hcount : bus.prdCount = prdCount) (h : PoolsInv m.pmm)
    (hP : ∀ o, m.vm.vmm.getObject object = .ok o → ∀ m₁,
      touch kernelVmStart m object o.start = .ok m₁ → P m₁.vm)
    (hkeeps : ∀ o, m.vm.vmm.getObject object = .ok o → ∀ m₁ m₂ j,
      j < prdCount → P m₁.vm →
      touch kernelVmStart m₁ object (o.start + j * sizeofPrd) = .ok m₂ →
      P m₂.vm)
    (hcall : setUpTable kernelVmStart object prdtPageCount bus m =
      .ok (ok, pageCounts, bus', m')) :
    ∃ o vm m₂ new, m.vm.vmm.getObject object = .ok o ∧
      pageCounts = new.map (fun a => a.rounded) ∧
      Fills P (bus.cleared o.start) bus' 0 prdCount { m with vm := vm } m₂ ok
        new ∧
      ((ok = true ∧ m' = m₂) ∨ (ok = false ∧
        Undoes kernelVmStart object prdtPageCount bus' pageCounts m₂ m')) := by
  obtain ⟨o, m₁, m₂, hobject, htouch, hfill, hend⟩ := setUpTable_cases hcall
  have hvm := hP o hobject m₁ htouch
  obtain ⟨vm, rfl⟩ := touch_vm htouch
  rw [hcount, maxDmaTransferSizeNeeded_eq] at hfill
  obtain ⟨new, hcounts, hfills⟩ := @fillTable_fills kernelVmStart object P
    prdCount 0 [] pageCounts (bus.cleared o.start) bus' { m with vm := vm } m₂
    ok o.start rfl (Nat.zero_add prdCount).le (hkeeps o hobject) h hvm hfill
  exact ⟨o, vm, m₂, new, hobject, hcounts, hfills, hend⟩

/-- `initBusmaster` by what it has got when it returns. -/
inductive Outcome (kernelVmStart : ℕ) (answers : List (Option ℕ)) (bus : Bus)
    (m : Memory) : Bool → List ℕ → Bus → Memory → Prop where
  /-- There is no block for the table. -/
  | noBlock : Outcome kernelVmStart answers bus m false []
      { bus with prdtPhysbase := 0, prdCount := prdCount } m
  /-- The block of the table is not mapped. -/
  | unmapped (t : Allocation) (m₁ m₂ m' : Memory) (htakes : Takes m m₁ t)
      (hrequested : t.requested = 1)
      (hplaces : places m₁.pmm.pools = places m.pmm.pools)
      (hmap : vmmMapMem answers m₁ t.ptr (t.rounded * archPageSize) =
        .ok (none, m₂))
      (hfree : pmmFree m₂ t.ptr t.rounded = .ok m') :
      Outcome kernelVmStart answers bus m false []
        { bus with prdtPhysbase := t.ptr, prdCount := prdCount } m'
  | mapped (t : Allocation) (object : ℕ) (m₁ m₂ m' : Memory) (ok : Bool)
      (pageCounts : List ℕ) (bus' : Bus) (htakes : Takes m m₁ t)
      (hrequested : t.requested = 1)
      (hplaces : places m₁.pmm.pools = places m.pmm.pools)
      (hmap : vmmMapMem answers m₁ t.ptr (t.rounded * archPageSize) =
        .ok (some object, m₂))
      (hset : setUpTable kernelVmStart object t.rounded
        { bus with prdtPhysbase := t.ptr, prdCount := prdCount } m₂ =
          .ok (ok, pageCounts, bus', m')) :
      Outcome kernelVmStart answers bus m ok pageCounts bus' m'

theorem initBusmaster_outcome (h : PoolsInv m.pmm)
    (hcall : initBusmaster kernelVmStart answers bus m =
      .ok (ok, pageCounts, bus', m')) :
    Outcome kernelVmStart answers bus m ok pageCounts bus' m' := by
  unfold initBusmaster at hcall
  rw [sizeToBlocks_prdCount] at hcall
  obtain ⟨_, -, hbehind⟩ := bind_eq_ok hcall
  obtain ⟨⟨prdt, written, m₁⟩, halloc, hrest⟩ := bind_eq_ok hbehind
  clear hcall hbehind
  have hone : sizeToBlocks (prdCount * sizeofPrd) archPageSize = 1 := by
    decide
  dsimp only at halloc hrest
  rw [hone] at halloc
  obtain ⟨hplaces, ⟨rfl, rfl⟩ | ⟨hne, htakes⟩⟩ :=
    pmmAlloc_cases h le_rfl halloc
  · rw [if_pos rfl] at hrest
    cases hrest
    exact .noBlock
  · rw [if_neg hne] at hrest
    obtain ⟨⟨object, m₂⟩, hmap, hbehind⟩ := bind_eq_ok hrest
    dsimp only at hbehind
    cases object with
    | none =>
        obtain ⟨m₃, hfree, hend⟩ := bind_eq_ok hbehind
        cases hend
        exact .unmapped _ m₁ m₂ m' htakes rfl hplaces hmap hfree
    | some object =>
        exact .mapped _ object m₁ m₂ m' ok pageCounts bus' htakes rfl hplaces
          hmap hbehind

theorem vmmMapMem_vm {physBase size : ℕ} {object : Option ℕ}
    (h : vmmMapMem answers m physBase size = .ok (object, m')) :
    ∃ vm, m' = { m with vm := vm } := by
  obtain ⟨_, -, hrest⟩ := bind_eq_ok h
  obtain ⟨⟨result, s⟩, -, hrest⟩ := bind_eq_ok hrest
  dsimp only at hrest
  cases result with
  | none =>
      cases hrest
      exact ⟨_, rfl⟩
  | some p =>
      cases hrest
      exact ⟨_, rfl⟩

/-- The buffers were all live at one time, in pools which have stayed where
they were. -/
theorem initBusmaster_buffers (h : PoolsInv m.pmm)
    (hcall : initBusmaster kernelVmStart answers bus m =
      .ok (ok, pageCounts, bus', m')) :
    ∃ (s : Pmm.PmmState) (new : List Allocation), PoolsInv s ∧
      places s.pools = places m.pmm.pools ∧
      blocksFrom bus' 0 pageCounts = new.map known ∧
      pageCounts = new.map (fun a => a.rounded) ∧
      (∀ a ∈ new, a ∈ s.live ∧ a.requested = windowPages) ∧
      new.Pairwise Apart ∧
      (ok = true → new.length = prdCount ∧ bus'.prdCount = prdCount) := by
  have houtcome := initBusmaster_outcome h hcall
  cases houtcome with
  | noBlock =>
      exact ⟨m.pmm, [], h, rfl, rfl, rfl, (fun _ ha => nomatch ha),
        List.Pairwise.nil, fun hok => nomatch hok⟩
  | unmapped =>
      exact ⟨m.pmm, [], h, rfl, rfl, rfl, (fun _ ha => nomatch ha),
        List.Pairwise.nil, fun hok => nomatch hok⟩
  | mapped t object m₁ m₂ _ _ _ _ htakes _ hplaces hmap hset =>
      obtain ⟨vm, rfl⟩ := vmmMapMem_vm hmap
      obtain ⟨o, vm', m₃, new, -, hcounts, hfills, -⟩ :=
        setUpTable_fills (P := fun _ => True)
          (m := { m₁ with vm := vm }) rfl htakes.inv
          (fun _ _ _ _ => trivial) (fun _ _ _ _ _ _ _ _ => trivial) hset
      subst hcounts
      have hlive : ∀ a ∈ new, a ∈ m₃.pmm.live := by
        intro a ha
        rw [hfills.live]
        exact List.mem_append_left _ (List.mem_reverse.2 ha)
      have hapart := hfills.inv.live_apart
      rw [hfills.live, List.pairwise_append] at hapart
      refine ⟨m₃.pmm, new, hfills.inv, hfills.places.trans hplaces,
        hfills.buffers, rfl, fun a ha => ⟨hlive a ha, hfills.requested a ha⟩,
        ?_, fun hok => ⟨hfills.filled hok, hfills.prdCount⟩⟩
      exact (List.pairwise_reverse.1 hapart.1).imp Or.symm

end Whole

/-! ## Windows -/

section Windows

variable {kernelVmStart : ℕ} {bus bus' : Bus} {m m' : Memory} {ok : Bool}
  {pageCounts : List ℕ} {answers : List (Option ℕ)}

/-- The pool which a block starts in, if any, starts with a window. -/
def FromAligned (pools : List PagePool) (ptr : ℕ) : Prop :=
  ∀ pool ∈ pools, ptr ∈ Pmm.addresses pool → Pmm.windowSize ∣ pool.baseAddr

theorem fromAligned_congr {pools pools' : List PagePool} {ptr : ℕ}
    (h : places pools = places pools') :
    FromAligned pools ptr ↔ FromAligned pools' ptr := by
  have hiff : ∀ pools : List PagePool, FromAligned pools ptr ↔
      ∀ place ∈ places pools,
        place.1 ≤ ptr ∧ ptr < place.1 + place.2 * archPageSize →
        Pmm.windowSize ∣ place.1 := by
    intro pools
    unfold places
    rw [List.forall_mem_map]
    exact Iff.rfl
  rw [hiff, hiff, h]

/-- A buffer is in one window exactly when its pool starts with one.  So all
of them are when every region of 64 KiB or more which was registered starts
with one. -/
theorem buffers_inWindow_iff
    (hreach : TransitionRun.Reachable Pmm.PmmState.Starts
      Pmm.PmmState.Admits Pmm.PmmState.step m.pmm)
    (hcall : initBusmaster kernelVmStart answers bus m =
      .ok (ok, pageCounts, bus', m')) :
    (∀ buffer ∈ blocksFrom bus' 0 pageCounts,
      Pmm.InWindow buffer.1 ↔ FromAligned m.pmm.pools buffer.1) ∧
    (TransitionRun.Reachable Pmm.PmmState.Starts
        (fun s op => s.Admits op ∧ Pmm.RegionAligned op) Pmm.PmmState.step
        m.pmm →
      ∀ buffer ∈ blocksFrom bus' 0 pageCounts, Pmm.InWindow buffer.1) := by
  have hinv := Pmm.poolsInv_of_reachable hreach
  obtain ⟨s, new, hs, hplaces, hblocks, -, hnew, -⟩ :=
    initBusmaster_buffers hinv hcall
  rw [hblocks, List.forall_mem_map, List.forall_mem_map]
  constructor
  · intro a ha
    obtain ⟨hlive, hpages⟩ := hnew a ha
    rw [← fromAligned_congr hplaces]
    unfold known FromAligned
    rw [hs.inWindow_iff hlive hpages]
    simp only [Pmm.owns_iff]
  · intro haligned a ha
    obtain ⟨hlive, hpages⟩ := hnew a ha
    have hpools := (Pmm.alignedPools_of_reachable haligned).aligned
    exact ((Pmm.windowAligned_congr hplaces).2 hpools).inWindow hs hlive hpages

end Windows

def newBus : Bus := ⟨0, fun _ => ⟨0, 0, 0⟩, 0, 0⟩

/-- One free region of 64 pages. -/
def freeRegion (base : ℕ) : Memory :=
  ⟨⟨[⟨⟨[1, 0, 0, 0]⟩, base, 64⟩], []⟩, Vmm.kernelPages, fun _ => 0, []⟩

theorem freeRegion_reachable {base : ℕ}
    {admits : Pmm.PmmState → Pmm.PmmOp → Prop}
    (hadmits : admits ⟨[], []⟩ (.register (fun _ _ => true) 2 base 64))
    (hregister : (⟨[], []⟩ : Pmm.PmmState).step
      (.register (fun _ _ => true) 2 base 64) = .ok (freeRegion base).pmm) :
    TransitionRun.Reachable Pmm.PmmState.Starts admits Pmm.PmmState.step
      (freeRegion base).pmm :=
  (TransitionRun.Reachable.start (s := ⟨[], []⟩) ⟨rfl, rfl⟩).next hadmits
    hregister

set_option maxRecDepth 10000 in
/-- A region from 1 MiB on. -/
theorem buffers_inWindow_one_mib : ∃ bus m,
    initBusmaster 4290760704 [some 2, some 3] newBus (freeRegion 0x100000) =
      .ok (true, [16, 16], bus, m) ∧
    blocksFrom bus 0 [16, 16] = [(0x110000, 16), (0x120000, 16)] ∧
    ∀ buffer ∈ blocksFrom bus 0 [16, 16], Pmm.InWindow buffer.1 := by
  have hregister : (⟨[], []⟩ : Pmm.PmmState).step
      (.register (fun _ _ => true) 2 0x100000 64) =
        .ok (freeRegion 0x100000).pmm := by
    decide +kernel
  have hadmits : (⟨[], []⟩ : Pmm.PmmState).Admits
      (.register (fun _ _ => true) 2 0x100000 64) :=
    ⟨by decide, fun _ hpool => nomatch hpool⟩
  obtain ⟨bus, m, hcall, hblocks⟩ : ∃ bus m,
      initBusmaster 4290760704 [some 2, some 3] newBus
        (freeRegion 0x100000) = .ok (true, [16, 16], bus, m) ∧
      blocksFrom bus 0 [16, 16] = [(0x110000, 16), (0x120000, 16)] :=
    ⟨_, _, rfl, rfl⟩
  refine ⟨bus, m, hcall, hblocks, ?_⟩
  exact (buffers_inWindow_iff (freeRegion_reachable hadmits hregister)
    hcall).2 (freeRegion_reachable ⟨hadmits, fun _ => by decide⟩ hregister)

set_option maxRecDepth 10000 in
/-- A region from the page behind 1 MiB on. -/
theorem buffer_crosses_window : ∃ bus m,
    TransitionRun.Reachable Pmm.PmmState.Starts Pmm.PmmState.Admits
      Pmm.PmmState.step (freeRegion 0x101000).pmm ∧
    initBusmaster 4290760704 [some 2, some 3] newBus (freeRegion 0x101000) =
      .ok (true, [16, 16], bus, m) ∧
    (0x111000, 16) ∈ blocksFrom bus 0 [16, 16] ∧
    ¬Pmm.InWindow 0x111000 := by
  refine ⟨_, _, ?_, rfl, List.mem_cons_self, by decide⟩
  exact freeRegion_reachable
    ⟨by decide, fun _ hpool => nomatch hpool⟩ (by decide +kernel)

end IdeBus
end Yjkos
