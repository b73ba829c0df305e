import Yjkos.VmmPartition

/-!
# Runs of the virtual memory manager

The state of the manager together with the objects its callers hold and the
frames which were committed for each of them.  The environment chooses the
heap blocks and the frames which the allocators return.
-/

namespace Yjkos
namespace Vmm

open Mmu SetPartition TransitionRun

structure VmState where
  vmm : State
  live : List ℕ
  commited : ℕ → List ℕ

inductive VmOp where
  | alloc (physBase size : ℕ) (mapflags : BitVec 8)
      (answers : List (Option ℕ))
  | free (p : ℕ)
  | fault (p ptr : ℕ) (wasWrite wasUser : Bool) (answers : List ℕ)

namespace VmState

/-- `vmm_init_address_space` over the range has returned true. -/
structure Starts (start endAddr : ℕ) (r : VmState) : Prop where
  init : ∃ before isUser, before.console = [] ∧
    vmmInitAddressSpace before start endAddr isUser = .ok (true, r.vmm)
  live : r.live = []
  commited : r.commited = fun _ => []

/-- Both requests of an allocation are answered with unused heap blocks. -/
def FreshBlocks (s : State) (answers : List (Option ℕ)) : Prop :=
  ∃ new u, answers = [some new, some u] ∧ new ≠ u ∧
    s.objects new = none ∧ s.uobjects new = none ∧
    s.objects u = none ∧ s.uobjects u = none

def Admits (r : VmState) : VmOp → Prop
  | .alloc _ size _ answers =>
      1 ≤ size ∧ FreshBlocks r.vmm answers ∧
        HasRoom r.vmm (sizeToBlocks size archPageSize)
  | .free p => p ∈ r.live
  | .fault _ _ _ _ _ => True

/-- The frames which a fault took from `pmm_alloc` are booked for the object
it was in. -/
def step (kernelVmStart : ℕ) (r : VmState) : VmOp → Except Fault VmState
  | .alloc physBase size mapflags answers => do
      match ← vmmAllocObject { r.vmm with heapAnswers := answers } physBase
          size mapflags with
      | (none, s) => .ok { r with vmm := s }
      | (some p, s) =>
          .ok ⟨s, p :: r.live, Function.update r.commited p []⟩
  | .free p => do
      let s ← vmmFree r.vmm p
      .ok { r with vmm := s, live := r.live.erase p }
  | .fault p ptr wasWrite wasUser answers => do
      let s ← vmmPageFault kernelVmStart
        { r.vmm with frames := ⟨r.vmm.frames.inUse, answers⟩ } ptr false
        wasWrite wasUser
      .ok { r with
        vmm := s
        commited := Function.update r.commited p
          (s.frames.inUse.diff r.vmm.frames.inUse ++ r.commited p) }

end VmState

section Run

variable {start endAddr kernelVmStart : ℕ} {r r' : VmState}

/-- A non-empty range of whole pages below the last address. -/
def PageRange (start endAddr : ℕ) : Prop :=
  Object.Paged ⟨start, endAddr, physaddrNomap, 0⟩

/-- What `vmm_init_address_space` sets up. -/
structure Initialised (start endAddr : ℕ) (isUser : Bool) (before s : State) :
    Prop where
  object : ∃ p, s.objects p = some ⟨start, endAddr, physaddrNomap, 0⟩ ∧
    s.space.objectList = [p]
  uncommited : s.space.uncommitedObjects = []
  isUser : s.space.isUser = isUser
  tables : s.tables = before.tables
  frames : s.frames = before.frames
  console : s.console = before.console

theorem vmmInitAddressSpace_spec (hrange : PageRange start endAddr)
    {before s : State} {isUser : Bool}
    (hinit : vmmInitAddressSpace before start endAddr isUser =
      .ok (true, s)) : Initialised start endAddr isUser before s := by
  unfold vmmInitAddressSpace createObject State.heapAlloc at hinit
  simp only at hinit
  cases hanswers : before.heapAnswers with
  | nil => simp [hanswers] at hinit
  | cons answer rest =>
      rw [hanswers] at hinit
      cases answer with
      | none => simp at hinit
      | some p =>
          obtain ⟨t, hadd, heq⟩ := bind_eq_ok hinit
          simp only [Except.ok.injEq, Prod.mk.injEq, true_and] at heq
          subst heq
          obtain ⟨list, hadd', hperm⟩ := addObjectToAddressSpace_spec
            (s := State.setObject
              { before with space := ⟨[], [], isUser⟩, heapAnswers := rest }
              p ⟨start, endAddr, physaddrNomap, 0⟩) (p := p)
            (by simp [State.setObject]) hrange
            (by simp [Apart, State.setObject]) (by simp [State.setObject])
          rw [hadd, Except.ok.injEq] at hadd'
          subst hadd'
          exact ⟨⟨p, by simp [State.withObjectList, State.setObject],
            List.perm_singleton.mp hperm⟩, rfl, rfl, rfl, rfl, rfl⟩

theorem Initialised.partitioned {before s : State} {isUser : Bool}
    (hrange : PageRange start endAddr) (hconsole : before.console = [])
    (h : Initialised start endAddr isUser before s) :
    Partitioned start endAddr s [] := by
  obtain ⟨p, hobject, hlist⟩ := h.object
  constructor
  · rw [hlist, List.append_nil, List.map_singleton, rangeOf_eq hobject]
    exact isPartition_singleton (Set.nonempty_Icc.mpr hrange.ordered)
  · rw [hlist]
    intro q hq o ho
    simp only [List.append_nil, List.mem_singleton] at hq
    subst hq
    rw [hobject, Option.some.injEq] at ho
    exact ho ▸ hrange
  · rw [h.console, hconsole]

theorem partitioned_of_starts (hrange : PageRange start endAddr)
    (hstarts : VmState.Starts start endAddr r) :
    Partitioned start endAddr r.vmm r.live := by
  obtain ⟨before, isUser, hconsole, hinit⟩ := hstarts.init
  rw [hstarts.live]
  exact (vmmInitAddressSpace_spec hrange hinit).partitioned hrange hconsole

theorem partitioned_alloc (hinv : Partitioned start endAddr r.vmm r.live)
    {physBase size : ℕ} {mapflags : BitVec 8} {answers : List (Option ℕ)}
    (hadmits : r.Admits (.alloc physBase size mapflags answers))
    (hphys : physBase = physaddrNomap ∨ physBase % 4096 = 0) :
    ∃ new u s', answers = [some new, some u] ∧
      vmmAllocObject { r.vmm with heapAnswers := answers } physBase size
        mapflags = .ok (some new, s') ∧
      Allocated start endAddr r.live r.vmm s' new u
        (sizeToBlocks size archPageSize) physBase mapflags := by
  obtain ⟨hsize, ⟨new, u, rfl, hne, hnew, -⟩, hroom⟩ := hadmits
  have hinv' : Partitioned start endAddr
      { r.vmm with heapAnswers := [some new, some u] } r.live :=
    hinv.congr rfl rfl rfl
  obtain ⟨s', hs', halloc⟩ :=
    @vmmAllocObject_spec _ _ _ _ new u physBase size mapflags [] hinv' hsize
      hphys rfl hnew hroom
  exact ⟨new, u, s', rfl, hs', halloc.partitioned, halloc.object,
    halloc.others, halloc.uobjects, halloc.uncommited, halloc.isUser,
    halloc.tables, halloc.frames⟩

theorem aligned_of_vmmAllocObject {s s' : State} {physBase size : ℕ}
    {mapflags : BitVec 8} {p : Option ℕ}
    (h : vmmAllocObject s physBase size mapflags = .ok (p, s')) :
    physBase = physaddrNomap ∨ physBase % 4096 = 0 := by
  obtain ⟨_, hassert, -⟩ := bind_eq_ok h
  unfold cAssert at hassert
  split at hassert
  next hcond => simpa [isAligned, archPageSize] using hcond
  · contradiction

theorem partitioned_step (hinv : Partitioned start endAddr r.vmm r.live)
    {op : VmOp} (hadmits : r.Admits op)
    (hstep : r.step kernelVmStart op = .ok r') :
    Partitioned start endAddr r'.vmm r'.live := by
  cases op with
  | alloc physBase size mapflags answers =>
      obtain ⟨⟨p, s⟩, hs, hstep⟩ := bind_eq_ok hstep
      obtain ⟨new, u, s', -, hs', halloc⟩ :=
        partitioned_alloc hinv hadmits (aligned_of_vmmAllocObject hs)
      rw [hs, Except.ok.injEq, Prod.mk.injEq] at hs'
      obtain ⟨rfl, rfl⟩ := hs'
      simp only [Except.ok.injEq] at hstep
      exact hstep ▸ halloc.partitioned
  | free p =>
      obtain ⟨s, hs, hstep⟩ := bind_eq_ok hstep
      unfold vmmFree at hs
      obtain ⟨object, -, hs⟩ := bind_eq_ok hs
      obtain ⟨record, -, hs⟩ := bind_eq_ok hs
      obtain ⟨t, hdrop, hs⟩ := bind_eq_ok hs
      obtain ⟨t', hpages, hs⟩ := bind_eq_ok hs
      have hsame := (dropRecord_sameObjects hdrop).trans
        (freePages_sameObjects hpages)
      obtain ⟨s', hs', hfree, -⟩ := (hsame.partitioned hinv).free hadmits
      rw [hs, Except.ok.injEq] at hs'
      subst hs'
      simp only [Except.ok.injEq] at hstep
      exact hstep ▸ hfree
  | fault p ptr wasWrite wasUser answers =>
      obtain ⟨s, hs, hstep⟩ := bind_eq_ok hstep
      have hsame := vmmPageFault_sameObjects hs
      simp only [Except.ok.injEq] at hstep
      subst hstep
      exact hinv.congr hsame.objects hsame.list hsame.console

theorem partitioned_of_reachable (hrange : PageRange start endAddr)
    (hreach : Reachable (VmState.Starts start endAddr) VmState.Admits
      (VmState.step kernelVmStart) r) :
    Partitioned start endAddr r.vmm r.live :=
  hreach.invariant (fun _ hstarts => partitioned_of_starts hrange hstarts)
    fun _ _ _ hinv hadmits hstep => partitioned_step hinv hadmits hstep

/-- In every reachable state the free and the live objects partition the
range into whole pages, no object was dropped, and an allocation which finds
room succeeds. -/
theorem address_space_conserved (hrange : PageRange start endAddr)
    (hreach : Reachable (VmState.Starts start endAddr) VmState.Admits
      (VmState.step kernelVmStart) r) :
    IsPartition ((r.vmm.space.objectList ++ r.live).map r.vmm.rangeOf)
        (Set.Icc start endAddr) ∧
      (r.vmm.space.objectList ++ r.live).Nodup ∧
      (∀ p ∈ r.vmm.space.objectList ++ r.live,
        ∃ object, r.vmm.objects p = some object ∧
          PageRange object.start object.endAddr) ∧
      r.vmm.console = [] ∧
      ∀ physBase size mapflags answers,
        r.Admits (.alloc physBase size mapflags answers) →
        physBase = physaddrNomap ∨ physBase % 4096 = 0 →
        ∃ r', r.step kernelVmStart
          (.alloc physBase size mapflags answers) = .ok r' := by
  have hinv := partitioned_of_reachable hrange hreach
  refine ⟨hinv.parts, hinv.covers.nodup, ?_, hinv.console, ?_⟩
  · intro p hp
    obtain ⟨object, hobject, hpaged⟩ := hinv.covers.object hp
    exact ⟨object, hobject, hpaged.ordered, hpaged.startAligned,
      hpaged.endAligned, hpaged.below⟩
  · intro physBase size mapflags answers hadmits hphys
    obtain ⟨new, u, s', -, hs', -⟩ := partitioned_alloc hinv hadmits hphys
    simp only [VmState.step, hs', ok_bind]
    exact ⟨_, rfl⟩

end Run

/-- A machine with empty page tables, an unused heap and a range of two free
pages. -/
def twoPages : VmState :=
  ⟨⟨Function.update (fun _ => none) 1
      (some ⟨4096, 12287, physaddrNomap, 0⟩),
    fun _ => none, ⟨[1], [], false⟩, [], ⟨fun _ => 0, fun _ _ => 0, []⟩,
    ⟨[], []⟩, []⟩, [], fun _ => []⟩

theorem starts_twoPages : VmState.Starts 4096 12287 twoPages :=
  ⟨⟨{ twoPages.vmm with
      objects := fun _ => none
      heapAnswers := [some 1] }, false, rfl, rfl⟩, rfl, rfl⟩

/-- Both pages are allocated, and the lower one is freed. -/
theorem twoPages_freed : ∃ r₁ r₂ r₃ : VmState,
    (twoPages.step 4096 (.alloc physaddrNomap 1 3 [some 2, some 3]) =
        .ok r₁ ∧
      (r₁.vmm.objects 4 = none ∧ r₁.vmm.uobjects 4 = none ∧
        r₁.vmm.objects 5 = none ∧ r₁.vmm.uobjects 5 = none) ∧
      r₁.vmm.space.objectList = [1] ∧
      r₁.vmm.objects 1 = some ⟨8192, 12287, physaddrNomap, 0⟩) ∧
    (r₁.step 4096 (.alloc physaddrNomap 4096 3 [some 4, some 5]) = .ok r₂ ∧
      r₂.live = [4, 2] ∧ r₂.vmm.space.objectList = []) ∧
    (r₂.step 4096 (.free 2) = .ok r₃ ∧
      r₃.live = [4] ∧ r₃.vmm.space.objectList = [2] ∧
      r₃.vmm.objects 2 = some ⟨4096, 8191, physaddrNomap, 3⟩ ∧
      r₃.vmm.objects 4 = some ⟨8192, 12287, physaddrNomap, 3⟩) ∧
    ∃ r₄, r₃.step 4096 (.free 4) = .ok r₄ ∧
      r₄.vmm.space.objectList = [2, 4] :=
  ⟨_, _, _, ⟨rfl, ⟨rfl, rfl, rfl, rfl⟩, rfl, rfl⟩, ⟨rfl, rfl, rfl⟩,
    ⟨rfl, rfl, rfl, rfl, rfl⟩, _, rfl, rfl⟩

/-- Both pages are taken, and the lower one is given back. -/
theorem address_space_conserved_of_one_freed :
    ∃ r : VmState, r.live = [4] ∧ r.vmm.space.objectList = [2] ∧
      IsPartition ((r.vmm.space.objectList ++ r.live).map r.vmm.rangeOf)
        (Set.Icc 4096 12287) := by
  have hrange : PageRange 4096 12287 := by
    constructor <;> decide
  obtain ⟨r₁, r₂, r₃, ⟨hstep₁, ⟨h₁, h₂, h₃, h₄⟩, hlist₁, hpage₁⟩,
    ⟨hstep₂, hlive₂, -⟩, ⟨hstep₃, hlive₃, hlist₃, -⟩, -⟩ := twoPages_freed
  have hadmits₁ : twoPages.Admits
      (.alloc physaddrNomap 1 3 [some 2, some 3]) :=
    ⟨le_rfl, ⟨2, 3, rfl, by decide, rfl, rfl, rfl, rfl⟩,
      1, List.mem_singleton_self 1, _, rfl, by decide⟩
  have hadmits₂ : r₁.Admits
      (.alloc physaddrNomap 4096 3 [some 4, some 5]) :=
    ⟨by decide, ⟨4, 5, rfl, by decide, h₁, h₂, h₃, h₄⟩,
      1, by simp [hlist₁], _, hpage₁, by decide⟩
  have hadmits₃ : r₂.Admits (.free 2) := by
    simp [VmState.Admits, hlive₂]
  have hreach : Reachable (VmState.Starts 4096 12287) VmState.Admits
      (VmState.step 4096) r₃ :=
    (((Reachable.start starts_twoPages).next hadmits₁ hstep₁).next hadmits₂
      hstep₂).next hadmits₃ hstep₃
  exact ⟨r₃, hlive₃, hlist₃, (address_space_conserved hrange hreach).1⟩

end Vmm
end Yjkos
