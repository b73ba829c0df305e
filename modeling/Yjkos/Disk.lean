import Yjkos.MiscMath

/-!
# Logical disks

`kernel/io/disk.c`.  A logical disk is a range of blocks of a physical disk;
requests to it are clipped to that range.  A transfer is observed through its
return value and the requests which it makes to the physical disk.
-/

namespace Yjkos
namespace Disk

structure Ldisk where
  startblockaddr : ℕ
  blockCount : ℕ
deriving DecidableEq

/-- A request to the physical disk. -/
structure Request where
  blockAddr : ℕ
  blockCount : ℕ
deriving DecidableEq

/-- The first block and the number of blocks of a clipped request. -/
def toAbsBlockRange (self : Ldisk) (blockAddr blockCount : ℕ) : ℕ × ℕ :=
  let diskFirst := self.startblockaddr
  let diskLast := wrap (self.startblockaddr + wrapSub self.blockCount 1)
  if wrapSub diskLast diskFirst < blockAddr then (0, 0)
  else
    let first := wrap (diskFirst + blockAddr)
    let available := wrap (wrapSub diskLast first + 1)
    if available < blockCount then (first, available)
    else (first, blockCount)

/-- `op` is what the operation of the physical disk returns. -/
def transfer (op : Request → ℤ) (self : Ldisk) (blockAddr blockCount : ℕ) :
    ℤ × List Request :=
  let range := toAbsBlockRange self blockAddr blockCount
  if range.2 ≠ 0 then
    let ret := op ⟨range.1, range.2⟩
    if ret < 0 then (ret, [⟨range.1, range.2⟩])
    else (toSigned range.2, [⟨range.1, range.2⟩])
  else (toSigned range.2, [])

def ldiskRead := transfer

def ldiskWrite := transfer

/-! ## The master boot record -/

/-- `memory` and `iodev` are what `heap_alloc` and `iodev_register`
return. -/
def registerLdisk (memory : Bool) (iodev : ℤ) (startblockaddr blockCount : ℕ) :
    Option Ldisk :=
  if memory then
    if iodev < 0 then none else some ⟨startblockaddr, blockCount⟩
  else none

structure MbrEntry where
  startlba : ℕ
  sectorcount : ℕ
  partitiontype : BitVec 8
  flags : BitVec 8

def mbrEntryAt (block : ℕ → BitVec 8) (pos : ℕ) : MbrEntry :=
  ⟨u32leAt block (pos + 0x8), u32leAt block (pos + 0xc), block (pos + 0x4),
    block pos⟩

def mbrEntries (firstBlock : ℕ → BitVec 8) : List MbrEntry :=
  [mbrEntryAt firstBlock 0x1be, mbrEntryAt firstBlock 0x1ce,
    mbrEntryAt firstBlock 0x1de, mbrEntryAt firstBlock 0x1ee]

/-- The partitions of the entries which are in use.  `answers` are the
results of the calls which each registration makes. -/
def registerEntries (answers : MbrEntry → Bool × ℤ) :
    List MbrEntry → List Ldisk
  | [] => []
  | entry :: rest =>
      let disks := registerEntries answers rest
      if entry.partitiontype = 0 then disks
      else
        match registerLdisk (answers entry).1 (answers entry).2
          entry.startlba entry.sectorcount with
        | some disk => disk :: disks
        | none => disks

/-- Returns the partitions which were registered, or nothing when there is no
valid MBR. -/
def parseMbr (answers : MbrEntry → Bool × ℤ) (firstBlock : ℕ → BitVec 8)
    (blockSize : ℕ) : Except Fault (Option (List Ldisk)) := do
  cAssert (blockSize = 512) "MBR_BLOCK_SIZE == block_size"
  if firstBlock 510 ≠ 0x55 ∨ firstBlock 511 ≠ 0xaa then .ok none
  else .ok (some (registerEntries answers (mbrEntries firstBlock)))

theorem mem_registerEntries {answers : MbrEntry → Bool × ℤ}
    {entries : List MbrEntry} {self : Ldisk}
    (h : self ∈ registerEntries answers entries) :
    ∃ entry ∈ entries, self = ⟨entry.startlba, entry.sectorcount⟩ := by
  induction entries with
  | nil => simp [registerEntries] at h
  | cons entry rest ih =>
      have hrest : self ∈ registerEntries answers rest →
          ∃ e ∈ entry :: rest, self = ⟨e.startlba, e.sectorcount⟩ := by
        intro hmem
        obtain ⟨e, he, heq⟩ := ih hmem
        exact ⟨e, List.mem_cons_of_mem entry he, heq⟩
      unfold registerEntries at h
      simp only at h
      split at h
      next => exact hrest h
      next =>
        split at h
        next disk hdisk =>
          unfold registerLdisk at hdisk
          rcases List.mem_cons.mp h with rfl | hmem
          · refine ⟨entry, List.mem_cons_self, ?_⟩
            split at hdisk
            next =>
              split at hdisk
              next => cases hdisk
              next =>
                rw [Option.some.injEq] at hdisk
                exact hdisk.symm
            next => cases hdisk
          · exact hrest hmem
        next => exact hrest h

theorem lt_of_parseMbr {answers : MbrEntry → Bool × ℤ}
    {firstBlock : ℕ → BitVec 8} {disks : List Ldisk} {self : Ldisk}
    (hparse : parseMbr answers firstBlock 512 = .ok (some disks))
    (hself : self ∈ disks) :
    self.startblockaddr < 4294967296 ∧ self.blockCount < 4294967296 := by
  obtain ⟨_, -, hparse⟩ := bind_eq_ok hparse
  split at hparse
  next => simp at hparse
  next =>
    simp only [Except.ok.injEq, Option.some.injEq] at hparse
    subst hparse
    obtain ⟨entry, hentry, rfl⟩ := mem_registerEntries hself
    simp only [mbrEntries, List.mem_cons, List.not_mem_nil, or_false]
      at hentry
    rcases hentry with rfl | rfl | rfl | rfl <;>
      exact ⟨u32leAt_lt _ _, u32leAt_lt _ _⟩

/-! ## Containment -/

/-- Whatever the physical disk answers, it is asked for blocks of the
partition only; and the number of blocks is returned when it succeeds. -/
def StaysInside
    (ldiskOp : (Request → ℤ) → Ldisk → ℕ → ℕ → ℤ × List Request)
    (self : Ldisk) (blockAddr blockCount : ℕ) : Prop :=
  ∀ op,
    (∀ q ∈ (ldiskOp op self blockAddr blockCount).2,
      self.startblockaddr ≤ q.blockAddr ∧ q.blockAddr + q.blockCount ≤
        self.startblockaddr + self.blockCount) ∧
    ((∀ q, 0 ≤ op q) →
      (ldiskOp op self blockAddr blockCount).1 =
        if blockAddr < self.blockCount then
          (min blockCount (self.blockCount - blockAddr) : ℕ)
        else 0)

/-- The requests which are clipped as intended. -/
def Clippable (self : Ldisk) (blockAddr blockCount : ℕ) : Prop :=
  blockCount = 0 ∨ (self.blockCount = 0 ∧ blockAddr = 0) ∨
    (0 < self.blockCount ∧ (self.blockCount ≤ blockAddr ∨
      (self.startblockaddr + blockAddr < 4294967296 ∧
        (blockCount < 2147483648 ∨
          self.blockCount - blockAddr < 2147483648))))

section Clip

variable {self : Ldisk} {blockAddr blockCount : ℕ}

theorem toAbsBlockRange_eq {last : ℕ}
    (hstart : self.startblockaddr < 4294967296) (hlast : last < 4294967296)
    (hcount : wrapSub self.blockCount 1 = last) :
    toAbsBlockRange self blockAddr blockCount =
      if last < blockAddr then (0, 0)
      else (wrap (self.startblockaddr + blockAddr),
        min blockCount (wrap (last - blockAddr + 1))) := by
  simp only [toAbsBlockRange, hcount, wrapSub_wrap_add hstart hlast]
  split
  next => rfl
  next hge =>
    rw [wrapSub_wrap_wrap (not_lt.mp hge) hlast]
    split
    next hlt => rw [Nat.min_eq_right hlt.le]
    next hle => rw [Nat.min_eq_left (not_lt.mp hle)]

theorem toAbsBlockRange_of_le (hstart : self.startblockaddr < 4294967296)
    (hcount : self.blockCount < 4294967296) (hpos : 0 < self.blockCount)
    (h : self.blockCount ≤ blockAddr) :
    toAbsBlockRange self blockAddr blockCount = (0, 0) := by
  rw [toAbsBlockRange_eq hstart (by omega) (wrapSub_of_le hpos hcount),
    if_pos (by omega)]

theorem toAbsBlockRange_of_lt (hstart : self.startblockaddr < 4294967296)
    (hcount : self.blockCount < 4294967296)
    (h : blockAddr < self.blockCount) :
    toAbsBlockRange self blockAddr blockCount =
      (wrap (self.startblockaddr + blockAddr),
        min blockCount (self.blockCount - blockAddr)) := by
  have hpos : 1 ≤ self.blockCount := by omega
  have havailable : wrap (self.blockCount - 1 - blockAddr + 1) =
      self.blockCount - blockAddr := by
    rw [wrap_of_lt (by omega)]
    omega
  rw [toAbsBlockRange_eq hstart (by omega) (wrapSub_of_le hpos hcount),
    if_neg (by omega), havailable]

theorem toAbsBlockRange_of_zero (hstart : self.startblockaddr < 4294967296)
    (hzero : self.blockCount = 0) (haddr : blockAddr < 4294967296) :
    toAbsBlockRange self blockAddr blockCount =
      (wrap (self.startblockaddr + blockAddr),
        min blockCount (wrap (4294967295 - blockAddr + 1))) := by
  have hlast : wrapSub self.blockCount 1 = 4294967295 := by
    unfold wrapSub wrap
    omega
  rw [toAbsBlockRange_eq hstart (by omega) hlast, if_neg (by omega)]

theorem toAbsBlockRange_of_none (hstart : self.startblockaddr < 4294967296)
    (hcount : self.blockCount < 4294967296) (haddr : blockAddr < 4294967296)
    (hnone : blockCount = 0) :
    ∃ first, toAbsBlockRange self blockAddr blockCount = (first, 0) := by
  subst hnone
  rcases Nat.lt_or_ge blockAddr self.blockCount with hlt | hge
  · exact ⟨_, (toAbsBlockRange_of_lt hstart hcount hlt).trans
      (by rw [Nat.zero_min])⟩
  · rcases Nat.eq_zero_or_pos self.blockCount with hzero | hsome
    · exact ⟨_, (toAbsBlockRange_of_zero hstart hzero haddr).trans
        (by rw [Nat.zero_min])⟩
    · exact ⟨0, toAbsBlockRange_of_le hstart hcount hsome hge⟩

theorem transfer_zero {op : Request → ℤ} {first : ℕ}
    (h : toAbsBlockRange self blockAddr blockCount = (first, 0)) :
    transfer op self blockAddr blockCount = (0, []) := by
  rw [transfer, h]
  rfl

theorem transfer_requests {op : Request → ℤ} {first final : ℕ}
    (h : toAbsBlockRange self blockAddr blockCount = (first, final))
    (hfinal : final ≠ 0) :
    (transfer op self blockAddr blockCount).2 = [⟨first, final⟩] := by
  rw [transfer, h]
  dsimp only
  rw [if_pos hfinal]
  split <;> rfl

theorem transfer_return {op : Request → ℤ} {first final : ℕ}
    (h : toAbsBlockRange self blockAddr blockCount = (first, final))
    (hop : ∀ q, 0 ≤ op q) :
    (transfer op self blockAddr blockCount).1 = toSigned final := by
  have hret : ¬op ⟨first, final⟩ < 0 := not_lt.mpr (hop _)
  rw [transfer, h]
  dsimp only
  rw [if_neg hret]
  split <;> rfl

theorem staysInside_of_zero {first : ℕ}
    (hrange : toAbsBlockRange self blockAddr blockCount = (first, 0))
    (hwanted : min blockCount (self.blockCount - blockAddr) = 0) :
    StaysInside transfer self blockAddr blockCount := by
  intro op
  rw [transfer_zero hrange, hwanted]
  simp

theorem staysInside_iff_of_lt (hstart : self.startblockaddr < 4294967296)
    (hcount : self.blockCount < 4294967296)
    (h : blockAddr < self.blockCount) (hpos : blockCount ≠ 0) :
    StaysInside transfer self blockAddr blockCount ↔
      self.startblockaddr + blockAddr < 4294967296 ∧
        (blockCount < 2147483648 ∨
          self.blockCount - blockAddr < 2147483648) := by
  have hrange : toAbsBlockRange self blockAddr blockCount =
      (wrap (self.startblockaddr + blockAddr),
        min blockCount (self.blockCount - blockAddr)) :=
    toAbsBlockRange_of_lt hstart hcount h
  have hne : min blockCount (self.blockCount - blockAddr) ≠ 0 := by omega
  have hsigned := toSigned_eq_iff
    (x := min blockCount (self.blockCount - blockAddr)) (by omega)
  constructor
  · intro hinside
    obtain ⟨hrequest, hreturn⟩ := hinside fun _ => 0
    have hfirst := hrequest _
      (by rw [transfer_requests hrange hne]; exact List.mem_singleton_self _)
    have hret := hreturn fun _ => le_rfl
    rw [transfer_return hrange fun _ => le_rfl, if_pos h, hsigned] at hret
    have hlow : self.startblockaddr ≤
        wrap (self.startblockaddr + blockAddr) := hfirst.1
    unfold wrap at hlow
    omega
  · rintro ⟨hfits, hsmall⟩ op
    rw [wrap_of_lt hfits] at hrange
    constructor
    · intro q hq
      rw [transfer_requests hrange hne, List.mem_singleton] at hq
      subst hq
      simp only
      omega
    · intro hop
      rw [transfer_return hrange hop, if_pos h]
      exact hsigned.mpr (by omega)

theorem not_staysInside_of_zero
    (hstart : self.startblockaddr < 4294967296)
    (hzero : self.blockCount = 0) (haddr : blockAddr < 4294967296)
    (haddrPos : blockAddr ≠ 0) (hpos : blockCount ≠ 0) :
    ¬StaysInside transfer self blockAddr blockCount := by
  intro hinside
  have hrange : toAbsBlockRange self blockAddr blockCount =
      (wrap (self.startblockaddr + blockAddr),
        min blockCount (wrap (4294967295 - blockAddr + 1))) :=
    toAbsBlockRange_of_zero hstart hzero haddr
  have hwrap : wrap (4294967295 - blockAddr + 1) ≠ 0 := by
    rw [wrap_of_lt (by omega)]
    omega
  have hne : min blockCount (wrap (4294967295 - blockAddr + 1)) ≠ 0 := by
    omega
  have hrequest := (hinside fun _ => 0).1 _
    (by rw [transfer_requests hrange hne]; exact List.mem_singleton_self _)
  rw [hzero] at hrequest
  dsimp only at hrequest
  omega

theorem staysInside_iff (hstart : self.startblockaddr < 4294967296)
    (hcount : self.blockCount < 4294967296) (haddr : blockAddr < 4294967296) :
    StaysInside transfer self blockAddr blockCount ↔
      Clippable self blockAddr blockCount := by
  unfold Clippable
  by_cases hpos : blockCount = 0
  · refine iff_of_true ?_ (Or.inl hpos)
    obtain ⟨first, hrange⟩ :=
      toAbsBlockRange_of_none hstart hcount haddr hpos
    exact staysInside_of_zero hrange (by omega)
  · rcases Nat.eq_zero_or_pos self.blockCount with hzero | hsome
    · by_cases hfirst : blockAddr = 0
      · refine iff_of_true ?_ (Or.inr (Or.inl ⟨hzero, hfirst⟩))
        have hrange : toAbsBlockRange self blockAddr blockCount =
            (wrap (self.startblockaddr + blockAddr), 0) := by
          have hwrap : wrap (4294967295 - blockAddr + 1) = 0 := by
            unfold wrap
            omega
          rw [toAbsBlockRange_of_zero hstart hzero haddr, hwrap, Nat.min_zero]
        exact staysInside_of_zero hrange (by omega)
      · refine iff_of_false (not_staysInside_of_zero hstart hzero haddr
          hfirst hpos) ?_
        omega
    · rcases Nat.lt_or_ge blockAddr self.blockCount with hlt | hge
      · rw [staysInside_iff_of_lt hstart hcount hlt hpos]
        omega
      · refine iff_of_true (staysInside_of_zero
          (toAbsBlockRange_of_le hstart hcount hsome hge) (by omega)) ?_
        exact Or.inr (Or.inr ⟨hsome, Or.inl hge⟩)

end Clip

/-- For every partition of every MBR, exactly the clippable requests stay
inside of the partition and return the number of its blocks. -/
theorem partition_contained_iff {answers : MbrEntry → Bool × ℤ}
    {firstBlock : ℕ → BitVec 8} {disks : List Ldisk} {self : Ldisk}
    {blockAddr : ℕ} (blockCount : ℕ)
    (hparse : parseMbr answers firstBlock 512 = .ok (some disks))
    (hself : self ∈ disks) (haddr : blockAddr < 4294967296) :
    (StaysInside ldiskRead self blockAddr blockCount ∧
      StaysInside ldiskWrite self blockAddr blockCount) ↔
      Clippable self blockAddr blockCount := by
  obtain ⟨hstart, hcount⟩ := lt_of_parseMbr hparse hself
  rw [← staysInside_iff hstart hcount haddr]
  exact and_self_iff

/-- An MBR whose first entry is a Linux partition at block 2048 with the
given number of blocks below 256. -/
def mbrWith (sectorcount : BitVec 8) : ℕ → BitVec 8 :=
  fun pos =>
    if pos = 0x1c2 then 0x83
    else if pos = 0x1c7 then 0x08
    else if pos = 0x1ca then sectorcount
    else if pos = 510 then 0x55
    else if pos = 511 then 0xaa
    else 0

theorem parseMbr_mbrWith_eight :
    parseMbr (fun _ => (true, 0)) (mbrWith 8) 512 =
      .ok (some [⟨2048, 8⟩]) := by
  decide

theorem parseMbr_mbrWith_zero :
    parseMbr (fun _ => (true, 0)) (mbrWith 0) 512 =
      .ok (some [⟨2048, 0⟩]) := by
  decide

/-- The last two of eight blocks, when four are asked for. -/
theorem partition_contained_at_end :
    StaysInside ldiskRead ⟨2048, 8⟩ 6 4 ∧
      StaysInside ldiskWrite ⟨2048, 8⟩ 6 4 :=
  (partition_contained_iff 4 parseMbr_mbrWith_eight
    (List.mem_singleton_self _) (by decide)).mpr
    (Or.inr (Or.inr ⟨by decide, Or.inr ⟨by decide, Or.inl (by decide)⟩⟩))

/-- The partition table entry has no blocks, and block 2049 is read. -/
theorem empty_partition_not_contained :
    parseMbr (fun _ => (true, 0)) (mbrWith 0) 512 =
        .ok (some [⟨2048, 0⟩]) ∧
      ldiskRead (fun _ => 0) ⟨2048, 0⟩ 1 1 = (1, [⟨2049, 1⟩]) ∧
      ¬StaysInside ldiskRead ⟨2048, 0⟩ 1 1 := by
  refine ⟨parseMbr_mbrWith_zero, by decide, fun hinside => ?_⟩
  have hrequest := (hinside fun _ => 0).1 ⟨2049, 1⟩ (by decide)
  simp at hrequest

end Disk
end Yjkos
