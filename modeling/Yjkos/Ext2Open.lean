import Yjkos.Ext2File
import Yjkos.Ext2MountSafe

/-!
# Opening an inode

`openinode` and `openfile` of `kernel/fs/fs_ext2.c`.  An inode is opened with
its first block as the current one.  That move is not allowed to fail, although
an empty file has no block and a sparse one may have none in front.
-/

namespace Yjkos
namespace Ext2

def inodeTypeMask : ℕ := 0xf000

def inodeTypeDirectory : ℕ := 0x4000

/-- The first two allocations are the buffers of the descriptor and of the
block with the inode. -/
def openinode (env : Env) (allocs inode : ℕ) :
    Except Fault (Except Errno InoContext) := do
  match ← openinodeRecord env.fs env.disk (env.memory allocs)
      (env.memory (allocs + 1)) inode with
  | .error e => .ok (.error e)
  | .ok record => do
      let out ← openWalk env record (allocs + 2)
      .ok (.ok out)

def openfile (env : Env) (allocs inode : ℕ) :
    Except Fault (Except Errno InoContext) := do
  match ← openinode env allocs inode with
  | .error .enoent => .error (.assertion "ret != -ENOENT")
  | .error e => .ok (.error e)
  | .ok out =>
      if out.record.typeandpermissions &&& inodeTypeMask = inodeTypeDirectory
      then .ok (.error .eisdir)
      else .ok (.ok out)

/-! ## What is opened -/

/-- The record of the inode can be read, its size is accepted, and its first
direct block pointer is zero. -/
def FirstBlockMissing (env : Env) (allocs inode : ℕ) : Prop :=
  ∃ blockAddr offset blkdata,
    locateInode env.fs env.disk (env.memory allocs) inode =
      .ok (.ok (blockAddr, offset)) ∧
    readblocksAlloc env.fs env.disk (env.memory (allocs + 1)) blockAddr 1 =
      .ok (.ok blkdata) ∧
    SizeFits env.fs blkdata.data offset.toNat ∧
    u32leAt blkdata.data (offset.toNat + 0x28) = 0

/-- The inode can be opened, as it is and as a file, or there is an error, and
a file without bytes is read as such. -/
structure OpensSafely (env : Env) (allocs inode : ℕ) : Prop where
  opens : ∃ ret, openinode env allocs inode = .ok ret
  opensFile : ∃ ret, openfile env allocs inode = .ok ret
  readsEmpty : ∀ out, openfile env allocs inode = .ok (.ok out) →
    out.record.size = 0 → ∀ len, len ≤ streamMaxTransferSize →
      ∃ fd, fdOpRead env ⟨out, 0⟩ len = .ok (.ok [], fd)

/-- The drivers report `EIO`, `ENODEV`, `ENOMEM` or `EINVAL`. -/
def Env.NeverMissing (env : Env) : Prop :=
  ∀ addr count, env.disk addr count ≠ .error .enoent

variable {env : Env} {allocs inode : ℕ}

/-! ## Errors -/

section Errors

variable (hdisk : env.NeverMissing)
include hdisk

theorem readblocksAlloc_ne_enoent {memory : Bool} {blockAddr blockCount : ℕ} :
    readblocksAlloc env.fs env.disk memory blockAddr blockCount ≠
      .ok (.error .enoent) := by
  intro h
  unfold readblocksAlloc at h
  cases memory with
  | false => cases h
  | true =>
      obtain ⟨r, hread, h⟩ := bind_eq_ok h
      unfold readBlocks at hread
      obtain ⟨_, -, hread⟩ := bind_eq_ok hread
      obtain rfl := Except.ok.inj hread
      split at h
      next e heq =>
        obtain rfl := Except.error.inj (Except.ok.inj h)
        exact hdisk _ _ heq
      next => cases h

theorem readBlockGroupDescriptor_ne_enoent {memory : Bool} {group : ℕ} :
    readBlockGroupDescriptor env.fs env.disk memory group ≠
      .ok (.error .enoent) := by
  intro h
  unfold readBlockGroupDescriptor at h
  obtain ⟨_, -, h⟩ := bind_eq_ok h
  dsimp only at h
  split at h
  next => cases h
  next =>
    obtain ⟨_, -, h⟩ := bind_eq_ok h
    obtain ⟨r, hread, h⟩ := bind_eq_ok h
    cases r with
    | error e =>
        obtain rfl := Except.error.inj (Except.ok.inj h)
        exact readblocksAlloc_ne_enoent hdisk hread
    | ok buf =>
        obtain ⟨_, -, h⟩ := bind_eq_ok h
        cases h

theorem locateInode_ne_enoent {memory : Bool} :
    locateInode env.fs env.disk memory inode ≠ .ok (.error .enoent) := by
  intro h
  unfold locateInode at h
  obtain ⟨_, -, h⟩ := bind_eq_ok h
  obtain ⟨r, hread, h⟩ := bind_eq_ok h
  cases r with
  | error e =>
      obtain rfl := Except.error.inj (Except.ok.inj h)
      exact readBlockGroupDescriptor_ne_enoent hdisk hread
  | ok blkgroup =>
      obtain ⟨_, -, h⟩ := bind_eq_ok h
      cases h

end Errors

/-! ## Opening -/

section Opening

variable {blocksize : ℕ}

/-- All the ways in which the record is read. -/
theorem openinode_cases (h : Blocks env.fs blocksize)
    (hfit : RecordsFit env.fs) (hdisk : env.NeverMissing)
    (hinode : InodeNumber env.fs inode) :
    (∃ e, e ≠ .enoent ∧ openinode env allocs inode = .ok (.error e) ∧
      ¬FirstBlockMissing env allocs inode) ∨
    ∃ record : InodeRecord,
      openinode env allocs inode =
        (openWalk env record (allocs + 2)).map .ok ∧
      (FirstBlockMissing env allocs inode ↔
        record.directBlockPtrs.getD 0 0 = 0) := by
  obtain ⟨located, hlocate, hinside⟩ := locateInode_ok env.disk
    (env.memory allocs) h hfit hinode
  unfold openinode openinodeRecord
  rw [hlocate, ok_bind]
  cases located with
  | error e =>
      refine Or.inl ⟨e, ?_, rfl, ?_⟩
      · rintro rfl
        exact locateInode_ne_enoent hdisk hlocate
      · rintro ⟨blockAddr, offset, blkdata, hlocate', -⟩
        rw [hlocate] at hlocate'
        cases hlocate'
  | ok position =>
      obtain ⟨blockAddr, offset⟩ := position
      obtain ⟨hlow, hhigh⟩ := hinside blockAddr offset rfl
      obtain ⟨r, hread, hsize, -⟩ := readblocksAlloc_ok env.disk
        (env.memory (allocs + 1)) h blockAddr
      dsimp only
      rw [hread, ok_bind]
      cases r with
      | error e =>
          refine Or.inl ⟨e, ?_, rfl, ?_⟩
          · rintro rfl
            exact readblocksAlloc_ne_enoent hdisk hread
          · rintro ⟨blockAddr', offset', blkdata, hlocate', hread', -⟩
            rw [hlocate] at hlocate'
            cases hlocate'
            rw [hread] at hread'
            cases hread'
      | ok buf =>
          have hroom : offset.toNat + 128 ≤ buf.size := by
            rw [hsize buf rfl]
            rw [h.blocksize_eq] at hhigh
            omega
          have hmissing : FirstBlockMissing env allocs inode ↔
              SizeFits env.fs buf.data offset.toNat ∧
                u32leAt buf.data (offset.toNat + 0x28) = 0 := by
            constructor
            · rintro ⟨blockAddr', offset', blkdata, hlocate', hread', hrest⟩
              rw [hlocate] at hlocate'
              cases hlocate'
              rw [hread] at hread'
              cases hread'
              exact hrest
            · exact fun hrest => ⟨blockAddr, offset, buf, hlocate, hread, hrest⟩
          dsimp only
          rw [hmissing]
          rcases inodeAt_ok env.fs hroom with
            ⟨hfits, hat⟩ | ⟨hfits, record, hat, hptr⟩
          · left
            rw [hat, ok_bind]
            exact ⟨.einval, by decide, rfl, fun hrest => hfits hrest.1⟩
          · right
            refine ⟨record, ?_, ?_⟩
            · rw [hat, ok_bind]
              dsimp only
              cases openWalk env record (allocs + 2) <;> rfl
            · rw [hptr]
              exact and_iff_right hfits

theorem fdOpRead_empty {out : InoContext} {len : ℕ}
    (hempty : out.record.size = 0) (hlen : len ≤ streamMaxTransferSize) :
    fdOpRead env ⟨out, 0⟩ len = .ok (.ok [], ⟨out, 0⟩) := by
  have hnone := readlen_eq (le_refl 0) hlen
  have hread : readInode env out 0 = .ok (.ok [], out) := rfl
  unfold fdOpRead
  rw [cAssert_of (decide_eq_true hlen), ok_bind]
  dsimp only
  rw [hempty, hnone, Nat.sub_self, Nat.min_zero, hread, ok_bind]

theorem opens_safely_iff (h : Blocks env.fs blocksize)
    (hfit : RecordsFit env.fs) (hdisk : env.NeverMissing)
    (hinode : InodeNumber env.fs inode) :
    OpensSafely env allocs inode ↔ ¬FirstBlockMissing env allocs inode := by
  rcases @openinode_cases _ allocs _ _ h hfit hdisk hinode with
    ⟨e, hne, hopen, hpresent⟩ | ⟨record, hopen, hmissing⟩
  · refine iff_of_true ⟨⟨_, hopen⟩, ?_, ?_⟩ hpresent
    · refine ⟨.error e, ?_⟩
      unfold openfile
      rw [hopen, ok_bind]
      cases e with
      | enoent => exact absurd rfl hne
      | _ => rfl
    · intro out hfile hempty len hlen
      exact ⟨_, fdOpRead_empty hempty hlen⟩
  · rw [hmissing]
    rw [openWalk_eq] at hopen
    constructor
    · rintro ⟨⟨ret, hret⟩, -, -⟩ hzero
      rw [hopen, if_pos hzero] at hret
      cases hret
    · intro hptr
      rw [if_neg hptr] at hopen
      refine ⟨⟨_, hopen⟩, ?_, ?_⟩
      · unfold openfile
        rw [hopen]
        dsimp only [Except.map]
        rw [ok_bind]
        dsimp only
        split <;> exact ⟨_, rfl⟩
      · intro out hfile hempty len hlen
        exact ⟨_, fdOpRead_empty hempty hlen⟩

end Opening

/-- A volume with one group, whose inode 11 is a regular file of size 0 and
whose inode 12 is one of three bytes in block 7. -/
def smallFiles : Env where
  fs :=
    { totalInodes := 64
      totalBlocks := 64
      blocksize := 1024
      blocksInBlockGroup := 8192
      inodesInBlockGroup := 64
      majorVer := 0
      inodeSize := 128
      requiredFeatures := 0
      requiredFeaturesRw := 0
      blkGroupCount := 1
      blkGroupDescriptorBlk := 2 }
  disk := fun addr _ => .ok fun i =>
    match addr * diskBlockSize + i with
    | 2056 => 5
    | 6400 => 0xa4
    | 6401 => 0x81
    | 6426 => 1
    | 6528 => 0xa4
    | 6529 => 0x81
    | 6532 => 3
    | 6554 => 1
    | 6568 => 7
    | _ => 0
  memory := fun _ => true

theorem smallFiles_blocks : Blocks smallFiles.fs 1024 where
  blocksize_eq := rfl
  dvd := dvd_refl 1024
  pos := by decide
  le := by decide
  descriptor := le_refl 2

theorem smallFiles_recordsFit : RecordsFit smallFiles.fs where
  inodeSize := by decide
  inodes := by decide
  table := by decide
  records := by decide

theorem smallFiles_neverMissing : smallFiles.NeverMissing := nofun

theorem opens_safely_threeBytes : OpensSafely smallFiles 0 12 := by
  refine (opens_safely_iff smallFiles_blocks smallFiles_recordsFit
    smallFiles_neverMissing ⟨by decide, by decide, by decide⟩).2 ?_
  rintro ⟨blockAddr, offset, blkdata, hlocate, hread, -, hzero⟩
  have hat : locateInode smallFiles.fs smallFiles.disk
      (smallFiles.memory 0) 12 = .ok (.ok (6, 384)) := by
    decide +kernel
  rw [hat] at hlocate
  cases hlocate
  have hptr : (readblocksAlloc smallFiles.fs smallFiles.disk
      (smallFiles.memory (0 + 1)) 6 1).toOption.bind
        (fun r => r.toOption.map (fun b => u32leAt b.data (384 + 0x28))) =
      some 7 := by
    decide +kernel
  rw [hread] at hptr
  cases hzero.symm.trans (Option.some.inj hptr)

/-- The file of size 0 has no first block. -/
theorem emptyFile_not_opened : ¬OpensSafely smallFiles 0 11 := by
  rintro ⟨⟨ret, hret⟩, -, -⟩
  have hfault : (openinode smallFiles 0 11).isOk = false := by
    decide +kernel
  rw [hret] at hfault
  cases hfault

end Ext2
end Yjkos
