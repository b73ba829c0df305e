import Yjkos.IdeBusBlocks

/-!
# Transfers of the bus master

`atadisk_op_dma_init_transfter` and the functions behind it of
`kernel/arch/i586/dev/idebus.c`.  The descriptors keep what the transfer
before has left in them.  Between two calls the device may change physical
memory and the caller may change its own.  The blocks of the bus master are
mapped for nobody else, so that physical memory and the memory of the caller
are apart.
-/

namespace Yjkos
namespace IdeBus

open Ata (prdCount maxTransferSizePerPrd copyBytes)
open Pstring (pmemcpyIn pmemcpyOut pmemcpyIn_eq pmemcpyOut_eq)
open Pmm (Allocation Apart PoolsInv)

/-! ## The functions -/

/-- `PRD_FLAG_LAST_ENTRY_IN_PRDT`. -/
def prdFlagLastEntryInPrdt : BitVec 16 := 1#16 <<< 15

def busmasterCmdflagStart : BitVec 8 := 1#8 <<< 0

def busmasterCmdflagRead : BitVec 8 := 1#8 <<< 3

/-- The descriptor is flagged as the last one. -/
def PrdEntry.isLast (entry : PrdEntry) : Bool :=
  entry.flags &&& prdFlagLastEntryInPrdt != 0

/-- The number of bytes which a descriptor stands for. -/
def PrdEntry.size (entry : PrdEntry) : ℕ :=
  if entry.len = 0 then 65536 else entry.len

/-- The bus with the registers which its bus master was written last, physical
memory and the memory of the caller. -/
structure Dma where
  bus : Bus
  busmasterEnabled : Bool
  dmaBuffer : ℕ
  isDmaRead : Bool
  prdtAddr : ℕ
  cmd : BitVec 8
  status : BitVec 8
  phys : ℕ → BitVec 8
  memory : ℕ → BitVec 8

/-- What becomes of a descriptor for the next `current` bytes of those which
remain. -/
def PrdEntry.filled (entry : PrdEntry) (remaining current : ℕ) : PrdEntry :=
  { entry with
    len := if current = maxTransferSizePerPrd then 0 else current % 65536
    flags := if remaining ≤ maxTransferSizePerPrd then
        entry.flags ||| prdFlagLastEntryInPrdt
      else 0 }

/-- The loop over the descriptors, with the bytes which remain. -/
def initLoop (buffer : ℕ) (isRead : Bool) :
    ℕ → ℕ → ℕ → Dma → Except Fault Dma
  | 0, _, _, _ => .error .outOfFuel
  | fuel + 1, i, remaining, d =>
      if remaining = 0 then .ok d
      else do
        cAssert (i < d.bus.prdCount) "i < bus->prd_count"
        let current := min remaining maxTransferSizePerPrd
        let entry := (d.bus.prdt i).filled remaining current
        let phys ← (
          if isRead then .ok d.phys
          else pmemcpyOut d.phys d.memory entry.bufferPhysaddr
            (wrap (buffer + i * maxTransferSizePerPrd)) current)
        let prdt := Function.update d.bus.prdt i entry
        initLoop buffer isRead fuel (i + 1) (remaining - current)
          { d with bus := { d.bus with prdt := prdt }, phys := phys }

/-- `atadisk_op_dma_init_transfter`. -/
def dmaInitTransfer (d : Dma) (buffer len : ℕ) (isRead : Bool) :
    Except Fault Dma := do
  cAssert d.busmasterEnabled "bus->busmaster_enabled"
  cAssert (len ≤ maxDmaTransferSizeNeeded) "len <= MAX_DMA_TRANSFER_SIZE_NEEDED"
  let d ← initLoop buffer isRead (len + 1) 0 len
    { d with dmaBuffer := buffer, isDmaRead := isRead }
  .ok { d with
    prdtAddr := d.bus.prdtPhysbase
    cmd := if isRead then 0 ||| busmasterCmdflagRead
      else 0 &&& ~~~busmasterCmdflagRead
    status := 0x06 }

def dmaBeginTransfer (d : Dma) : Dma :=
  { d with cmd := d.cmd ||| busmasterCmdflagStart }

/-- The loop which copies what was read, over the descriptors from `i` on. -/
def endLoop : ℕ → ℕ → Dma → Except Fault Dma
  | 0, _, d => .ok d
  | left + 1, i, d => do
      let entry := d.bus.prdt i
      let memory ← pmemcpyIn d.phys d.memory
        (wrap (d.dmaBuffer + i * maxTransferSizePerPrd)) entry.bufferPhysaddr
        entry.size
      let d := { d with memory := memory }
      if entry.isLast then .ok d else endLoop left (i + 1) d

def dmaEndTransfer (d : Dma) (wassuccess : Bool) : Except Fault Dma :=
  let d := { d with cmd := d.cmd &&& ~~~busmasterCmdflagStart }
  if d.isDmaRead && wassuccess then endLoop d.bus.prdCount 0 d else .ok d

def dmaDeinitTransfer (d : Dma) : Except Fault Dma := do
  cAssert d.busmasterEnabled "bus->busmaster_enabled"
  .ok d

/-! ## Runs -/

inductive DmaOp where
  | initTransfer (buffer len : ℕ) (isRead : Bool)
  | beginTransfer
  /-- The device changes physical memory. -/
  | device (phys : ℕ → BitVec 8)
  /-- The caller changes its memory. -/
  | caller (memory : ℕ → BitVec 8)
  | endTransfer (wassuccess : Bool)
  | deinitTransfer

namespace Dma

/-- `init_busmaster` has just succeeded. -/
def Starts (d : Dma) : Prop :=
  d.busmasterEnabled = true ∧
    ∃ kernelVmStart answers bus m pageCounts m',
      TransitionRun.Reachable Pmm.PmmState.Starts Pmm.PmmState.Admits
        Pmm.PmmState.step m.pmm ∧
      initBusmaster kernelVmStart answers bus m =
        .ok (true, pageCounts, d.bus, m')

/-- What is transferred is in the address space of the caller. -/
def Admits : Dma → DmaOp → Prop
  | _, .initTransfer buffer len _ =>
      0 < len ∧ len ≤ maxDmaTransferSizeNeeded ∧ buffer + len ≤ 4294967296
  | _, _ => True

def step (d : Dma) : DmaOp → Except Fault Dma
  | .initTransfer buffer len isRead => dmaInitTransfer d buffer len isRead
  | .beginTransfer => .ok (dmaBeginTransfer d)
  | .device phys => .ok { d with phys := phys }
  | .caller memory => .ok { d with memory := memory }
  | .endTransfer wassuccess => dmaEndTransfer d wassuccess
  | .deinitTransfer => dmaDeinitTransfer d

end Dma

/-! ## What the descriptors describe -/

/-- The first descriptor which is flagged as the last one. -/
structure EndsAt (prdt : ℕ → PrdEntry) (k : ℕ) : Prop where
  last : (prdt k).isLast = true
  first : ∀ j < k, (prdt j).isLast = false

/-- The addresses of the bytes which the first descriptors describe, in their
order. -/
def described (prdt : ℕ → PrdEntry) (count : ℕ) : List ℕ :=
  (List.range count).flatMap fun j =>
    (List.range (prdt j).size).map ((prdt j).bufferPhysaddr + ·)

/-- The address of a byte when every descriptor but the last one is full. -/
def bounceAddress (prdt : ℕ → PrdEntry) (n : ℕ) : ℕ :=
  (prdt (n / 65536)).bufferPhysaddr + n % 65536

/-- The first descriptors are filled for `len` bytes. -/
def FilledTo (prdt : ℕ → PrdEntry) (len count : ℕ) : Prop :=
  ∀ j < count, 65536 * j < len →
    (prdt j).size = min (len - 65536 * j) 65536 ∧
      ((prdt j).isLast = true ↔ len ≤ 65536 * (j + 1))

section Described

variable {prdt : ℕ → PrdEntry} {len count k n : ℕ}

/-- The descriptor which the last byte is in. -/
theorem exists_last (hlen : 0 < len) :
    ∃ k, 65536 * k < len ∧ len ≤ 65536 * (k + 1) :=
  ⟨(len - 1) / 65536, by omega, by omega⟩

theorem bounceAddress_add (hn : n < 65536) :
    bounceAddress prdt (65536 * k + n) = (prdt k).bufferPhysaddr + n := by
  have hdiv : (65536 * k + n) / 65536 = k := by omega
  have hmod : (65536 * k + n) % 65536 = n := by omega
  unfold bounceAddress
  rw [hdiv, hmod]

theorem FilledTo.mono (h : FilledTo prdt len count) (hk : k ≤ count) :
    FilledTo prdt len k :=
  fun j hj => h j (lt_of_lt_of_le hj hk)

theorem FilledTo.described_eq (h : FilledTo prdt len count)
    (hcount : count ≠ 0 → 65536 * (count - 1) < len) :
    described prdt count =
      (List.range (min (65536 * count) len)).map (bounceAddress prdt) := by
  induction count with
  | zero =>
      rw [Nat.mul_zero, Nat.zero_min]
      rfl
  | succ count ih =>
      have hmore : 65536 * count < len := hcount (Nat.succ_ne_zero count)
      have hend : min (65536 * (count + 1)) len =
          65536 * count + min (len - 65536 * count) 65536 := by
        omega
      have hbefore := ih (h.mono (Nat.le_succ count)) (fun _ => by omega)
      obtain ⟨hsize, -⟩ := h count (Nat.lt_succ_self count) hmore
      have hstep : described prdt (count + 1) = described prdt count ++
          (List.range (prdt count).size).map
            ((prdt count).bufferPhysaddr + ·) := by
        unfold described
        rw [List.range_succ, List.flatMap_append, List.flatMap_singleton]
      rw [hstep, hbefore, Nat.min_eq_left hmore.le, hend, List.range_add,
        List.map_append, List.map_map, hsize]
      congr 1
      refine List.map_congr_left fun n hn => ?_
      have hlt := lt_of_lt_of_le (List.mem_range.1 hn) (Nat.min_le_right _ _)
      exact (bounceAddress_add hlt).symm

/-- The descriptors up to the first which is flagged as the last one describe
all bytes. -/
theorem FilledTo.whole (h : FilledTo prdt len count) (hlen : 0 < len)
    (hfits : len ≤ 65536 * count) :
    ∃ k < count, EndsAt prdt k ∧
      described prdt (k + 1) =
        (List.range len).map (bounceAddress prdt) := by
  obtain ⟨k, hbegins, hends⟩ := exists_last hlen
  have hk : k < count := by omega
  refine ⟨k, hk, ⟨(h k hk hbegins).2.2 hends, ?_⟩, ?_⟩
  · intro j hj
    rw [← Bool.not_eq_true, (h j (by omega) (by omega)).2]
    omega
  · rw [(h.mono hk).described_eq fun _ => hbegins, Nat.min_eq_right hends]

end Described

/-! ## Before a transfer -/

theorem PrdEntry.size_filled (entry : PrdEntry) {remaining : ℕ}
    (h : 0 < remaining) :
    (entry.filled remaining (min remaining maxTransferSizePerPrd)).size =
      min remaining 65536 := by
  unfold PrdEntry.size PrdEntry.filled maxTransferSizePerPrd
  dsimp only
  generalize hcurrent : min remaining 65536 = current
  by_cases hfull : current = 65536
  · rw [if_pos hfull, if_pos rfl, hfull]
  · rw [if_neg hfull, if_neg (by omega), Nat.mod_eq_of_lt (by omega)]

theorem PrdEntry.isLast_filled (entry : PrdEntry) (remaining current : ℕ) :
    (entry.filled remaining current).isLast = true ↔
      remaining ≤ 65536 := by
  have hset : (entry.flags ||| prdFlagLastEntryInPrdt) &&&
      prdFlagLastEntryInPrdt = prdFlagLastEntryInPrdt := by
    ext i
    grind
  unfold PrdEntry.isLast PrdEntry.filled maxTransferSizePerPrd
  dsimp only
  by_cases hend : remaining ≤ 65536
  · rw [if_pos hend, hset]
    exact iff_of_true (by decide) hend
  · rw [if_neg hend]
    exact iff_of_false (by decide) hend

/-- The buffers of the first descriptors are in physical memory, and no two
have a byte in common. -/
structure Buffers (prdt : ℕ → PrdEntry) (count : ℕ) : Prop where
  fits : ∀ j < count, (prdt j).bufferPhysaddr + 65536 ≤ 4294967296
  apart : ∀ i < count, ∀ j < count, i < j →
    (prdt i).bufferPhysaddr + 65536 ≤ (prdt j).bufferPhysaddr ∨
      (prdt j).bufferPhysaddr + 65536 ≤ (prdt i).bufferPhysaddr

theorem Buffers.congr {prdt prdt' : ℕ → PrdEntry} {count : ℕ}
    (h : Buffers prdt count)
    (heq : ∀ j, (prdt' j).bufferPhysaddr = (prdt j).bufferPhysaddr) :
    Buffers prdt' count := by
  constructor
  · intro j hj
    rw [heq]
    exact h.fits j hj
  · intro i hi j hj hlt
    rw [heq, heq]
    exact h.apart i hi j hj hlt

theorem bounceAddress_congr {prdt prdt' : ℕ → PrdEntry}
    (heq : ∀ j, (prdt' j).bufferPhysaddr = (prdt j).bufferPhysaddr) :
    bounceAddress prdt' = bounceAddress prdt := by
  funext n
  unfold bounceAddress
  rw [heq]

/-- The state after the descriptors before `i` have been filled. -/
structure InitTo (d₀ : Dma) (buffer len : ℕ) (isRead : Bool) (i : ℕ)
    (d : Dma) : Prop where
  filled : FilledTo d.bus.prdt len i
  addresses : ∀ j,
    (d.bus.prdt j).bufferPhysaddr = (d₀.bus.prdt j).bufferPhysaddr
  held : isRead = false → ∀ n < len, n < 65536 * i →
    d.phys (bounceAddress d₀.bus.prdt n) = d₀.memory (buffer + n)
  frame : d = { d₀ with
    bus := { d₀.bus with prdt := d.bus.prdt }, phys := d.phys }

section Init

variable {d₀ d : Dma} {buffer len count i : ℕ} {isRead : Bool}

/-- The pieces of the first `i` buffers which a write leaves as they are. -/
theorem copyBytes_held {phys memory : ℕ → BitVec 8} {prdt : ℕ → PrdEntry}
    {size : ℕ} (hbuffers : Buffers prdt count) (hi : i < count)
    (hsize : size = min (len - 65536 * i) 65536)
    (hheld : ∀ n < len, n < 65536 * i →
      phys (bounceAddress prdt n) = memory (buffer + n)) :
    ∀ n < len, n < 65536 * (i + 1) →
      copyBytes phys (prdt i).bufferPhysaddr memory
        (buffer + 65536 * i) size (bounceAddress prdt n) =
          memory (buffer + n) := by
  intro n hn hnext
  unfold copyBytes
  by_cases hearlier : n < 65536 * i
  · have hj : n / 65536 < i := by omega
    have hapart := hbuffers.apart _ (lt_trans hj hi) _ hi hj
    rw [if_neg, hheld n hn hearlier]
    unfold bounceAddress
    omega
  · obtain ⟨k, rfl⟩ := Nat.exists_eq_add_of_le (Nat.le_of_not_lt hearlier)
    have hk : k < 65536 := by omega
    rw [bounceAddress_add hk, if_pos (by omega)]
    congr 1
    omega

theorem InitTo.next (h : InitTo d₀ buffer len isRead i d)
    (hbuffers : Buffers d₀.bus.prdt d₀.bus.prdCount)
    (hfits : len ≤ 65536 * d₀.bus.prdCount)
    (hbuffer : buffer + len ≤ 4294967296) (hmore : 65536 * i < len)
    (fuel : ℕ) :
    ∃ d', InitTo d₀ buffer len isRead (i + 1) d' ∧
      initLoop buffer isRead (fuel + 1) i (len - 65536 * i) d =
        initLoop buffer isRead fuel (i + 1) (len - 65536 * (i + 1)) d' := by
  obtain ⟨hfilled, haddresses, hheld, hframe⟩ := h
  have hi : i < d₀.bus.prdCount := by omega
  obtain ⟨prdt, phys, rfl⟩ : ∃ prdt phys, d =
      { d₀ with bus := { d₀.bus with prdt := prdt }, phys := phys } :=
    ⟨_, _, hframe⟩
  dsimp only at hfilled haddresses hheld
  clear hframe
  have hremaining : 0 < len - 65536 * i := by omega
  have hcurrent : i * maxTransferSizePerPrd = 65536 * i := Nat.mul_comm _ _
  have hrest : len - 65536 * i -
      min (len - 65536 * i) maxTransferSizePerPrd = len - 65536 * (i + 1) := by
    unfold maxTransferSizePerPrd
    omega
  have hsize := (prdt i).size_filled hremaining
  have hlast := (prdt i).isLast_filled (len - 65536 * i)
    (min (len - 65536 * i) maxTransferSizePerPrd)
  have haddress : ((prdt i).filled (len - 65536 * i)
      (min (len - 65536 * i) maxTransferSizePerPrd)).bufferPhysaddr =
        (d₀.bus.prdt i).bufferPhysaddr := haddresses i
  rw [initLoop, if_neg hremaining.ne', decide_eq_true hi, cAssert_true,
    ok_bind]
  dsimp only
  rw [hrest, hcurrent]
  generalize (prdt i).filled (len - 65536 * i)
    (min (len - 65536 * i) maxTransferSizePerPrd) = entry at *
  have hfilled' : FilledTo (Function.update prdt i entry) len (i + 1) := by
    intro j hj hbegins
    rcases Nat.lt_succ_iff_lt_or_eq.1 hj with hlt | rfl
    · rw [Function.update_of_ne hlt.ne]
      exact hfilled j hlt hbegins
    · rw [Function.update_self, hlast]
      exact ⟨hsize, by omega⟩
  have haddresses' : ∀ j, (Function.update prdt i entry j).bufferPhysaddr =
      (d₀.bus.prdt j).bufferPhysaddr := by
    intro j
    by_cases hj : j = i
    · subst hj
      rw [Function.update_self]
      exact haddress
    · rw [Function.update_of_ne hj]
      exact haddresses j
  cases isRead with
  | true =>
      exact ⟨_, ⟨hfilled', haddresses', (fun hwrite => nomatch hwrite), rfl⟩,
        rfl⟩
  | false =>
      have hplace : wrap (buffer + 65536 * i) = buffer + 65536 * i :=
        wrap_of_lt (by omega)
      have hroom := hbuffers.fits i hi
      have hcopy := @pmemcpyOut_eq phys d₀.memory entry.bufferPhysaddr
        (buffer + 65536 * i) (min (len - 65536 * i) maxTransferSizePerPrd)
        (by unfold maxTransferSizePerPrd; omega)
      rw [if_neg Bool.false_ne_true, hplace, hcopy, ok_bind]
      refine ⟨_, ⟨hfilled', haddresses', fun hwrite => ?_, rfl⟩, rfl⟩
      rw [haddress]
      exact copyBytes_held hbuffers hi rfl (hheld hwrite)

theorem InitTo.loop (h : InitTo d₀ buffer len isRead i d)
    (hbuffers : Buffers d₀.bus.prdt d₀.bus.prdCount)
    (hfits : len ≤ 65536 * d₀.bus.prdCount)
    (hbuffer : buffer + len ≤ 4294967296) {fuel : ℕ}
    (hfuel : len - 65536 * i < fuel) :
    ∃ k d', len ≤ 65536 * k ∧ InitTo d₀ buffer len isRead k d' ∧
      initLoop buffer isRead fuel i (len - 65536 * i) d = .ok d' := by
  induction fuel generalizing i d with
  | zero => omega
  | succ fuel ih =>
      by_cases hmore : 65536 * i < len
      · obtain ⟨d₁, hnext, heq⟩ :=
          h.next hbuffers hfits hbuffer hmore fuel
        obtain ⟨k, d', hk, hend, hloop⟩ := ih hnext (by omega)
        exact ⟨k, d', hk, hend, heq.trans hloop⟩
      · have hnone : len - 65536 * i = 0 := by omega
        refine ⟨i, d, by omega, h, ?_⟩
        rw [initLoop, if_pos hnone]

/-- The state in front of a transfer. -/
structure SetUp (d₀ : Dma) (buffer len : ℕ) (isRead : Bool)
    (d : Dma) : Prop where
  filled : FilledTo d.bus.prdt len d.bus.prdCount
  buffers : Buffers d.bus.prdt d.bus.prdCount
  prdCount : d.bus.prdCount = d₀.bus.prdCount
  enabled : d.busmasterEnabled = d₀.busmasterEnabled
  dmaBuffer : d.dmaBuffer = buffer
  isDmaRead : d.isDmaRead = isRead
  memory : d.memory = d₀.memory
  held : isRead = false → ∀ n < len,
    d.phys (bounceAddress d.bus.prdt n) = d.memory (buffer + n)

theorem dmaInitTransfer_setUp
    (henabled : d.busmasterEnabled = true)
    (hbuffers : Buffers d.bus.prdt d.bus.prdCount)
    (hmax : len ≤ maxDmaTransferSizeNeeded)
    (hfits : len ≤ 65536 * d.bus.prdCount)
    (hbuffer : buffer + len ≤ 4294967296) :
    ∃ d', dmaInitTransfer d buffer len isRead = .ok d' ∧
      SetUp d buffer len isRead d' := by
  have hstart : InitTo { d with dmaBuffer := buffer, isDmaRead := isRead }
      buffer len isRead 0
      { d with dmaBuffer := buffer, isDmaRead := isRead } :=
    ⟨fun j hj => absurd hj (Nat.not_lt_zero j), fun _ => rfl,
      fun _ n _ hn => absurd hn (Nat.not_lt_zero n), rfl⟩
  obtain ⟨k, d₁, hk, ⟨hfilled, haddresses, hheld, hframe⟩, hloop⟩ :=
    hstart.loop hbuffers hfits hbuffer (Nat.lt_add_one len)
  rw [Nat.mul_zero, Nat.sub_zero] at hloop
  dsimp only at haddresses hheld
  have hbounce := bounceAddress_congr haddresses
  have hcount : d₁.bus.prdCount = d.bus.prdCount := by rw [hframe]
  have hwhole : FilledTo d₁.bus.prdt len d₁.bus.prdCount :=
    fun j _ hbegins => hfilled j (by omega) hbegins
  have hmemory : d₁.memory = d.memory := by rw [hframe]
  have hassert : cAssert d.busmasterEnabled "bus->busmaster_enabled" =
      .ok () := by
    rw [henabled, cAssert_true]
  unfold dmaInitTransfer
  rw [hassert, decide_eq_true hmax, cAssert_true, ok_bind, ok_bind, hloop,
    ok_bind]
  refine ⟨_, rfl, ?_⟩
  exact
    { filled := hwhole
      buffers := by rw [hcount]; exact hbuffers.congr haddresses
      prdCount := hcount
      enabled := by rw [hframe]
      dmaBuffer := by rw [hframe]
      isDmaRead := by rw [hframe]
      memory := hmemory
      held := fun hwrite n hn => by
        rw [hbounce, hmemory]
        exact hheld hwrite n hn (by omega) }

end Init

/-! ## After a transfer -/

/-- The memory of the caller with the bytes from `start` to `len` of the
buffers. -/
def received (d : Dma) (start len : ℕ) : ℕ → BitVec 8 := fun p =>
  if d.dmaBuffer + start ≤ p ∧ p < d.dmaBuffer + len then
    d.phys (bounceAddress d.bus.prdt (p - d.dmaBuffer))
  else d.memory p

section End

variable {d : Dma} {len left i : ℕ}

/-- One piece, and then the pieces behind it. -/
theorem received_next {memory : ℕ → BitVec 8} {size : ℕ}
    (hmore : 65536 * i < len) (hsize : size = min (len - 65536 * i) 65536)
    (hmemory : memory = copyBytes d.memory (d.dmaBuffer + 65536 * i) d.phys
      (d.bus.prdt i).bufferPhysaddr size) :
    received { d with memory := memory } (65536 * (i + 1)) len =
      received d (65536 * i) len := by
  funext p
  unfold received
  dsimp only
  rw [hmemory]
  unfold copyBytes
  by_cases hlater : d.dmaBuffer + 65536 * (i + 1) ≤ p ∧ p < d.dmaBuffer + len
  · rw [if_pos hlater, if_pos (by omega)]
  · rw [if_neg hlater]
    by_cases hpiece : d.dmaBuffer + 65536 * i ≤ p ∧
        p < d.dmaBuffer + 65536 * i + size
    · obtain ⟨k, rfl⟩ := Nat.exists_eq_add_of_le hpiece.1
      have hk : k < 65536 := by omega
      have harg : d.dmaBuffer + 65536 * i + k - d.dmaBuffer =
          65536 * i + k := by omega
      have hoffset : d.dmaBuffer + 65536 * i + k -
          (d.dmaBuffer + 65536 * i) = k := by omega
      rw [if_pos hpiece, if_pos (by omega), harg, hoffset,
        bounceAddress_add hk]
    · rw [if_neg hpiece, if_neg (by omega)]

theorem endLoop_eq (hfilled : FilledTo d.bus.prdt len d.bus.prdCount)
    (hbuffers : Buffers d.bus.prdt d.bus.prdCount)
    (hfits : len ≤ 65536 * d.bus.prdCount)
    (hbuffer : d.dmaBuffer + len ≤ 4294967296)
    (hleft : i + left = d.bus.prdCount) (hmore : 65536 * i < len) :
    endLoop left i d =
      .ok { d with memory := received d (65536 * i) len } := by
  induction left generalizing i d with
  | zero => omega
  | succ left ih =>
      have hi : i < d.bus.prdCount := by omega
      obtain ⟨hsize, hlast⟩ := hfilled i hi hmore
      have hroom := hbuffers.fits i hi
      have hleft' : i + 1 + left = d.bus.prdCount := by omega
      have hcurrent : i * maxTransferSizePerPrd = 65536 * i :=
        Nat.mul_comm _ _
      have hplace : wrap (d.dmaBuffer + 65536 * i) =
          d.dmaBuffer + 65536 * i := wrap_of_lt (by omega)
      have hcopy := @pmemcpyIn_eq d.phys d.memory (d.dmaBuffer + 65536 * i)
        (d.bus.prdt i).bufferPhysaddr (d.bus.prdt i).size (by omega)
      have hnext := @received_next d len i _ _ hmore hsize rfl
      rw [endLoop]
      dsimp only
      rw [hcurrent, hplace, hcopy, ok_bind]
      generalize copyBytes d.memory _ d.phys _ _ = memory at hnext ⊢
      cases hend : (d.bus.prdt i).isLast with
      | true =>
          have hle := hlast.1 hend
          have hdone : received { d with memory := memory }
              (65536 * (i + 1)) len = memory := by
            funext p
            unfold received
            dsimp only
            rw [if_neg (by omega)]
          rw [if_pos rfl, ← hnext, hdone]
      | false =>
          have hmore' : 65536 * (i + 1) < len := by
            by_contra hle
            rw [hlast.2 (Nat.le_of_not_lt hle)] at hend
            cases hend
          have hrest := @ih { d with memory := memory } (i + 1) hfilled
            hbuffers hfits hbuffer hleft' hmore'
          rw [if_neg Bool.false_ne_true, hrest, hnext]

theorem dmaEndTransfer_eq (hread : d.isDmaRead = true)
    (hfilled : FilledTo d.bus.prdt len d.bus.prdCount)
    (hbuffers : Buffers d.bus.prdt d.bus.prdCount)
    (hfits : len ≤ 65536 * d.bus.prdCount)
    (hbuffer : d.dmaBuffer + len ≤ 4294967296) (hlen : 0 < len) :
    dmaEndTransfer d true =
      .ok { d with
        cmd := d.cmd &&& ~~~busmasterCmdflagStart
        memory := received d 0 len } := by
  have hend := @endLoop_eq
    { d with cmd := d.cmd &&& ~~~busmasterCmdflagStart } len d.bus.prdCount 0
    hfilled hbuffers hfits hbuffer (Nat.zero_add _) hlen
  have hflag : (d.isDmaRead && true) = true := by
    rw [hread, Bool.and_true]
  unfold dmaEndTransfer
  dsimp only
  rw [if_pos hflag]
  exact hend

end End

/-! ## Every run -/

/-- The bus can transfer. -/
structure Ready (d : Dma) : Prop where
  enabled : d.busmasterEnabled = true
  prdCount : d.bus.prdCount = Ata.prdCount
  buffers : Buffers d.bus.prdt d.bus.prdCount

section Runs

variable {d d' : Dma}

/-- The buffers are live blocks of 16 pages. -/
theorem ready_of_starts (h : d.Starts) : Ready d := by
  obtain ⟨henabled, kernelVmStart, answers, bus, m, pageCounts, m', hreach,
    hcall⟩ := h
  obtain ⟨s, new, hs, -, hblocks, hcounts, hnew, hapart, hwhole⟩ :=
    initBusmaster_buffers (Pmm.poolsInv_of_reachable hreach) hcall
  obtain ⟨hlength, hcount⟩ := hwhole rfl
  have hblock : ∀ a ∈ new, a.rounded = 16 ∧ a.ptr + 65536 ≤ 4294967296 := by
    intro a ha
    obtain ⟨hlive, hpages⟩ := hnew a ha
    obtain ⟨pool, hpool, howns, -, hrounded, -⟩ := hs.placed hlive
    have hclog : Nat.clog 2 Pmm.windowPages = 4 := by decide
    rw [hpages, hclog] at hrounded
    have hend := (hs.block_in_pool hlive hpool howns).2.2
    have hbounds := (hs.good pool hpool).bounds.2.2
    rw [hrounded] at hend
    unfold archPageSize at hend hbounds
    exact ⟨hrounded, by omega⟩
  obtain ⟨a, b, rfl⟩ := List.length_eq_two.1 hlength
  subst hcounts
  obtain ⟨ha, hafits⟩ := hblock a List.mem_cons_self
  obtain ⟨hb, hbfits⟩ :=
    hblock b (List.mem_cons_of_mem a List.mem_cons_self)
  simp only [List.map_cons, List.map_nil, blocksFrom, known,
    List.cons.injEq, Prod.mk.injEq, and_true] at hblocks
  have hab := (List.pairwise_cons.1 hapart).1 b List.mem_cons_self
  unfold Apart archPageSize at hab
  rw [ha, hb] at hab
  refine ⟨henabled, hcount, ⟨?_, ?_⟩⟩
  · intro j hj
    rw [hcount] at hj
    have hcases : j = 0 ∨ j = 1 := Nat.le_one_iff_eq_zero_or_eq_one.1
      (Nat.lt_succ_iff.1 hj)
    rcases hcases with rfl | rfl
    · rw [hblocks.1]
      exact hafits
    · rw [hblocks.2]
      exact hbfits
  · intro i hi j hj hlt
    rw [hcount] at hj
    obtain ⟨rfl, rfl⟩ : i = 0 ∧ j = 1 := by
      have hle := Nat.lt_succ_iff.1 hj
      omega
    rw [hblocks.1, hblocks.2]
    omega

theorem endLoop_memory {left i : ℕ} (h : endLoop left i d = .ok d') :
    ∃ memory, d' = { d with memory := memory } := by
  induction left generalizing i d with
  | zero =>
      cases h
      exact ⟨_, rfl⟩
  | succ left ih =>
      rw [endLoop] at h
      obtain ⟨memory, -, hrest⟩ := bind_eq_ok h
      dsimp only at hrest
      split at hrest
      next =>
        cases hrest
        exact ⟨_, rfl⟩
      next =>
        obtain ⟨memory', rfl⟩ := ih hrest
        exact ⟨memory', rfl⟩

theorem dmaEndTransfer_memory {wassuccess : Bool}
    (h : dmaEndTransfer d wassuccess = .ok d') :
    ∃ cmd memory, d' = { d with cmd := cmd, memory := memory } := by
  unfold dmaEndTransfer at h
  dsimp only at h
  split at h
  next =>
    obtain ⟨memory, rfl⟩ := endLoop_memory h
    exact ⟨_, memory, rfl⟩
  next =>
    cases h
    exact ⟨_, _, rfl⟩

theorem fits_prdCount {len : ℕ} (h : Ready d)
    (hmax : len ≤ maxDmaTransferSizeNeeded) :
    len ≤ 65536 * d.bus.prdCount := by
  rw [h.prdCount]
  exact hmax

theorem Ready.step {op : DmaOp} (h : Ready d) (hadmits : d.Admits op)
    (hstep : d.step op = .ok d') : Ready d' := by
  cases op with
  | initTransfer buffer len isRead =>
      obtain ⟨d₁, heq, hset⟩ := @dmaInitTransfer_setUp d buffer len isRead
        h.enabled h.buffers hadmits.2.1 (fits_prdCount h hadmits.2.1)
        hadmits.2.2
      cases heq.symm.trans hstep
      exact ⟨hset.enabled.trans h.enabled, hset.prdCount.trans h.prdCount,
        hset.buffers⟩
  | beginTransfer =>
      cases hstep
      exact ⟨h.enabled, h.prdCount, h.buffers⟩
  | device phys =>
      cases hstep
      exact ⟨h.enabled, h.prdCount, h.buffers⟩
  | caller memory =>
      cases hstep
      exact ⟨h.enabled, h.prdCount, h.buffers⟩
  | endTransfer wassuccess =>
      obtain ⟨cmd, memory, rfl⟩ := dmaEndTransfer_memory hstep
      exact ⟨h.enabled, h.prdCount, h.buffers⟩
  | deinitTransfer =>
      obtain ⟨_, -, heq⟩ := bind_eq_ok hstep
      cases heq
      exact h

theorem ready_of_reachable
    (hreach : TransitionRun.Reachable Dma.Starts Dma.Admits Dma.step d) :
    Ready d :=
  hreach.invariant (fun _ => ready_of_starts) fun _ _ _ => Ready.step

/-- What happens between the two ends of a transfer. -/
def DmaOp.Between : DmaOp → Prop
  | .beginTransfer | .device _ | .caller _ => True
  | _ => False

/-- The states between the two ends of a transfer. -/
def During (d : Dma) : Dma → Prop :=
  TransitionRun.Reachable (· = d) (fun _ op => op.Between) Dma.step

theorem During.unchanged {d d' : Dma} (h : During d d') :
    ∃ cmd phys memory,
      d' = { d with cmd := cmd, phys := phys, memory := memory } := by
  unfold During at h
  induction h with
  | start hstart =>
      subst hstart
      exact ⟨_, _, _, rfl⟩
  | next hreach hbetween hstep ih =>
      rename_i op
      obtain ⟨cmd, phys, memory, rfl⟩ := ih
      cases op with
      | beginTransfer =>
          cases hstep
          exact ⟨_, _, _, rfl⟩
      | device phys =>
          cases hstep
          exact ⟨_, _, _, rfl⟩
      | caller memory =>
          cases hstep
          exact ⟨_, _, _, rfl⟩
      | initTransfer => exact hbetween.elim
      | endTransfer => exact hbetween.elim
      | deinitTransfer => exact hbetween.elim

/-- `n` bytes of a memory from an address on. -/
def bytesAt (memory : ℕ → BitVec 8) (address n : ℕ) : List (BitVec 8) :=
  (List.range n).map fun j => memory (address + j)

/-- What the caller gets at the end of a transfer from the bounce buffers
which `addresses` lists. -/
structure Receives (addresses : List ℕ) (buffer len : ℕ) (d d' : Dma) :
    Prop where
  bytes : bytesAt d'.memory buffer len = addresses.map d.phys
  rest : ∀ p, p < buffer ∨ buffer + len ≤ p → d'.memory p = d.memory p

/-- A transfer which has been set up, until it ends. -/
structure Matches (buffer len : ℕ) (isRead : Bool) (k : ℕ) (d : Dma) :
    Prop where
  ends : EndsAt d.bus.prdt k
  inTable : k < d.bus.prdCount
  length : (described d.bus.prdt (k + 1)).length = len
  held : isRead = false →
    (described d.bus.prdt (k + 1)).map d.phys = bytesAt d.memory buffer len
  received : isRead = true → ∀ d₁, During d d₁ →
    ∃ d₂, dmaEndTransfer d₁ true = .ok d₂ ∧
      Receives (described d.bus.prdt (k + 1)) buffer len d₁ d₂

theorem SetUp.matches {d₀ : Dma} {buffer len : ℕ} {isRead : Bool}
    (h : SetUp d₀ buffer len isRead d) (hlen : 0 < len)
    (hfits : len ≤ 65536 * d.bus.prdCount)
    (hbuffer : buffer + len ≤ 4294967296) :
    ∃ k, Matches buffer len isRead k d := by
  obtain ⟨k, hk, hends, hdescribed⟩ := h.filled.whole hlen hfits
  refine ⟨k, ⟨hends, hk, ?_, ?_, ?_⟩⟩
  · rw [hdescribed, List.length_map, List.length_range]
  · intro hwrite
    rw [hdescribed, List.map_map]
    exact List.map_congr_left fun n hn =>
      h.held hwrite n (List.mem_range.1 hn)
  · intro hread d₁ hduring
    obtain ⟨cmd, phys, memory, rfl⟩ := hduring.unchanged
    have hplace : d.dmaBuffer + len ≤ 4294967296 := by
      rw [h.dmaBuffer]
      exact hbuffer
    have hend := @dmaEndTransfer_eq
      { d with cmd := cmd, phys := phys, memory := memory } len
      (h.isDmaRead.trans hread) h.filled h.buffers hfits hplace hlen
    refine ⟨_, hend, ⟨?_, ?_⟩⟩
    · rw [hdescribed, List.map_map]
      refine List.map_congr_left fun n hn => ?_
      have hlt := List.mem_range.1 hn
      have harg := @Nat.add_sub_cancel_left buffer n
      unfold received
      dsimp only
      rw [h.dmaBuffer, if_pos (by omega), harg]
      rfl
    · intro p hp
      unfold received
      dsimp only
      rw [h.dmaBuffer, if_neg (by omega)]

end Runs

section Claim

variable {d : Dma} {buffer len : ℕ} {isRead : Bool}

/-- In every run, the descriptors match the transfer which is set up. -/
theorem descriptors_match
    (hreach : TransitionRun.Reachable Dma.Starts Dma.Admits Dma.step d)
    (hlen : 0 < len) (hmax : len ≤ maxDmaTransferSizeNeeded)
    (hbuffer : buffer + len ≤ 4294967296) :
    ∃ d' k, dmaInitTransfer d buffer len isRead = .ok d' ∧
      d'.memory = d.memory ∧ Matches buffer len isRead k d' := by
  have hready := ready_of_reachable hreach
  have hfits := fits_prdCount hready hmax
  obtain ⟨d', heq, hset⟩ := @dmaInitTransfer_setUp d buffer len isRead
    hready.enabled hready.buffers hmax hfits hbuffer
  rw [← hset.prdCount] at hfits
  obtain ⟨k, hmatches⟩ := hset.matches hlen hfits hbuffer
  exact ⟨d', k, heq, hset.memory, hmatches⟩

/-- A bus in front of its first transfer. -/
def firstDma (bus : Bus) : Dma :=
  ⟨bus, true, 0, false, 0, 0, 0, fun _ => 0, fun _ => 0⟩

set_option maxRecDepth 10000 in
/-- A read of one sector behind a write of 128 KiB. -/
theorem descriptors_match_read_sector : ∃ bus m d d' k,
    initBusmaster 4290760704 [some 2, some 3] newBus (freeRegion 0x100000) =
      .ok (true, [16, 16], bus, m) ∧
    dmaInitTransfer (firstDma bus) 0x1000 131072 false = .ok d ∧
    dmaInitTransfer d 0x3000 512 true = .ok d' ∧
    Matches 0x3000 512 true k d' := by
  have hregister : (⟨[], []⟩ : Pmm.PmmState).step
      (.register (fun _ _ => true) 2 0x100000 64) =
        .ok (freeRegion 0x100000).pmm := by
    decide +kernel
  have hadmits : (⟨[], []⟩ : Pmm.PmmState).Admits
      (.register (fun _ _ => true) 2 0x100000 64) :=
    ⟨by decide, fun _ hpool => nomatch hpool⟩
  obtain ⟨bus, m, hcall⟩ : ∃ bus m,
      initBusmaster 4290760704 [some 2, some 3] newBus
        (freeRegion 0x100000) = .ok (true, [16, 16], bus, m) :=
    ⟨_, _, rfl⟩
  have hstart : TransitionRun.Reachable Dma.Starts Dma.Admits Dma.step
      (firstDma bus) :=
    .start ⟨rfl, _, _, _, _, _, _,
      freeRegion_reachable hadmits hregister, hcall⟩
  obtain ⟨d, _, hwrite, -, -⟩ := @descriptors_match _ 0x1000 131072 false
    hstart (by decide) (by decide) (by decide)
  obtain ⟨d', k, hread, -, hmatches⟩ := @descriptors_match d 0x3000 512 true
    (hstart.next (a := .initTransfer 0x1000 131072 false)
      ⟨by decide, by decide, by decide⟩ hwrite)
    (by decide) (by decide) (by decide)
  exact ⟨bus, m, d, d', k, hcall, hwrite, hread, hmatches⟩

end Claim

end IdeBus
end Yjkos
