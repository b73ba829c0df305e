import Yjkos.Ext2Mount

/-!
# Which superblocks are safe to mount

Nothing but the signature, the block size exponent and the feature flags is
checked when a volume is mounted.  The other fields are trusted by the
assertions, divisions and buffer offsets of the functions which find an
inode, and here is what they need.
-/

namespace Yjkos
namespace Ext2

/-! ## Buffers -/

section Buffers

variable {buf : Buffer} {pos : ℕ}

theorem u16At_ok (h : pos + 2 ≤ buf.size) :
    buf.u16At pos = .ok (u16leAt buf.data pos) :=
  if_pos h

theorem u32At_ok (h : pos + 4 ≤ buf.size) :
    buf.u32At pos = .ok (u32leAt buf.data pos) :=
  if_pos h

theorem descriptorAt_ok (h : pos + descriptorSize ≤ buf.size) :
    ∃ descriptor, descriptorAt buf pos = .ok descriptor := by
  unfold descriptorSize at h
  unfold descriptorAt
  rw [u32At_ok (by omega), u32At_ok (by omega), u32At_ok (by omega),
    u16At_ok (by omega), u16At_ok (by omega), u16At_ok (by omega)]
  exact ⟨_, rfl⟩

theorem directPtrsAt_ok {left i : ℕ}
    (h : pos + (0x28 + 4 * (i + left)) ≤ buf.size) :
    ∃ ptrs, directPtrsAt buf pos left i = .ok ptrs ∧
      (0 < left →
        ptrs.getD 0 0 = u32leAt buf.data (pos + (0x28 + 4 * i))) := by
  induction left generalizing i with
  | zero => exact ⟨[], rfl, fun h => absurd h (lt_irrefl 0)⟩
  | succ left ih =>
      obtain ⟨rest, hrest, -⟩ := ih (i := i + 1) (by omega)
      unfold directPtrsAt
      rw [u32At_ok (by omega), hrest]
      exact ⟨_, rfl, fun _ => rfl⟩

/-- The upper half of the file size, where it is there, has its sign bit
clear. -/
def SizeFits (self : FsContext) (inodedata : ℕ → BitVec 8) (pos : ℕ) : Prop :=
  1 ≤ self.majorVer ∧
      self.requiredFeaturesRw &&& rwmountFeatureflag64bitFileSize ≠ 0 →
    u32leAt inodedata (pos + 0x6c) < 2147483648

instance (self : FsContext) (inodedata : ℕ → BitVec 8) (pos : ℕ) :
    Decidable (SizeFits self inodedata pos) :=
  inferInstanceAs (Decidable (_ → _))

theorem sizehAt_ok (self : FsContext) (h : pos + 128 ≤ buf.size) :
    ∃ sizeh, sizehAt self buf pos = .ok sizeh ∧
      (sizeh >>> 31 = 0 ↔ SizeFits self buf.data pos) := by
  unfold sizehAt SizeFits
  split
  next hthere =>
    refine ⟨_, u32At_ok (by omega), ?_⟩
    rw [Nat.shiftRight_eq_div_pow, Nat.div_eq_zero_iff]
    simp [hthere]
  next hnone => exact ⟨0, rfl, by simp [hnone]⟩

theorem inodeAt_ok (self : FsContext) (h : pos + 128 ≤ buf.size) :
    ¬SizeFits self buf.data pos ∧
      inodeAt self buf pos = .ok (.error .einval) ∨
    SizeFits self buf.data pos ∧ ∃ record,
      inodeAt self buf pos = .ok (.ok record) ∧
      record.directBlockPtrs.getD 0 0 = u32leAt buf.data (pos + 0x28) := by
  have hptrs : pos + (0x28 + 4 * (0 + 12)) ≤ buf.size := by omega
  obtain ⟨ptrs, hptrs, hfirst⟩ := directPtrsAt_ok hptrs
  obtain ⟨sizeh, hsizeh, hfits⟩ := sizehAt_ok self h
  unfold inodeAt
  rw [u16At_ok (by omega), u16At_ok (by omega), u32At_ok (by omega),
    u32At_ok (by omega), u32At_ok (by omega), u32At_ok (by omega),
    u32At_ok (by omega), u16At_ok (by omega), u16At_ok (by omega),
    u32At_ok (by omega), u32At_ok (by omega), hptrs, u32At_ok (by omega),
    u32At_ok (by omega), u32At_ok (by omega), u32At_ok (by omega), hsizeh]
  by_cases hlarge : sizeh >>> 31 ≠ 0
  · exact Or.inl ⟨fun h => hlarge (hfits.2 h), if_pos hlarge⟩
  · exact Or.inr ⟨hfits.1 (not_not.1 hlarge), _, if_neg hlarge,
      hfirst (by decide)⟩

end Buffers

/-! ## Finding an inode -/

/-- The block size is a power of two from 1024 on which `blksize_t` holds. -/
structure Blocks (fs : FsContext) (blocksize : ℕ) : Prop where
  blocksize_eq : fs.blocksize = blocksize
  dvd : 1024 ∣ blocksize
  pos : 0 < blocksize
  le : blocksize ≤ 1073741824
  descriptor : fs.blkGroupDescriptorBlk ≤ 2

section Finding

variable {fs : FsContext} {blocksize : ℕ} {disk : DiskRead} {memory : Bool}

theorem Blocks.toSize_blocksize (h : Blocks fs blocksize) :
    toSize fs.blocksize = blocksize := by
  have hle := h.le
  rw [h.blocksize_eq, toSize_natCast (by omega)]

variable (disk memory) in
theorem readblocksAlloc_ok (h : Blocks fs blocksize) (blockAddr : ℕ) :
    ∃ r, readblocksAlloc fs disk memory blockAddr 1 = .ok r ∧
      (∀ buf, r = .ok buf → buf.size = blocksize) ∧
      (memory = true → (∀ addr count, ∃ data, disk addr count = .ok data) →
        ∃ buf, r = .ok buf) := by
  have hle := h.le
  have hmod : blocksize % 512 = 0 := by
    have := h.dvd
    omega
  have hread : readBlocks fs disk blockAddr 1 =
      .ok (disk (wrap (blockAddr * (blocksize / diskBlockSize)))
        (wrap (1 * (blocksize / diskBlockSize)))) := by
    simp only [readBlocks, h.toSize_blocksize, diskBlockSize, hmod, cAssert]
    rfl
  unfold readblocksAlloc
  cases memory with
  | false => exact ⟨.error .enomem, rfl, by simp, by simp⟩
  | true =>
      rw [if_pos rfl, hread]
      generalize hdata : disk _ _ = data
      cases data with
      | error e =>
          refine ⟨.error e, rfl, by simp, ?_⟩
          intro _ hall
          obtain ⟨data, hok⟩ := hall
            (wrap (blockAddr * (blocksize / diskBlockSize)))
            (wrap (1 * (blocksize / diskBlockSize)))
          rw [hdata] at hok
          contradiction
      | ok data =>
          refine ⟨.ok _, rfl, ?_, fun _ _ => ⟨_, rfl⟩⟩
          intro buf hbuf
          cases hbuf
          rw [h.toSize_blocksize, Nat.one_mul, wrap_of_lt (by omega)]

theorem descriptor_inside (group : ℕ) (h : Blocks fs blocksize) :
    ((group : ℤ) * descriptorSize).tmod fs.blocksize =
        (group * descriptorSize % blocksize : ℕ) ∧
      group * descriptorSize % blocksize + descriptorSize ≤ blocksize := by
  have hdvd : descriptorSize ∣ blocksize :=
    dvd_trans (by decide) h.dvd
  obtain ⟨count, hcount⟩ := hdvd
  have hpos := h.pos
  constructor
  · rw [h.blocksize_eq]
    exact_mod_cast Int.ofNat_tmod _ _ |>.symm
  · have hlt : group * descriptorSize % blocksize < blocksize :=
      Nat.mod_lt _ hpos
    have hdvd' : descriptorSize ∣ group * descriptorSize % blocksize :=
      (Nat.dvd_mod_iff ⟨count, hcount⟩).mpr (Nat.dvd_mul_left _ _)
    obtain ⟨k, hk⟩ := hdvd'
    unfold descriptorSize at *
    omega

variable (disk memory) in
theorem readBlockGroupDescriptor_ok {group : ℕ} (h : Blocks fs blocksize)
    (hgroup : group < 134217727) :
    ∃ r, readBlockGroupDescriptor fs disk memory group = .ok r ∧
      (memory = true → (∀ addr count, ∃ data, disk addr count = .ok data) →
        ∃ descriptor, r = .ok descriptor) := by
  have hpos := h.pos
  have hle := h.le
  have hdescriptor := h.descriptor
  obtain ⟨hinside, hfits⟩ := descriptor_inside group h
  have hne : fs.blocksize ≠ 0 := by
    rw [h.blocksize_eq]
    omega
  have hoffset : toSize (((group : ℤ) * descriptorSize).tdiv fs.blocksize) <
      wrapSub sizeMax fs.blkGroupDescriptorBlk := by
    have hdiv : ((group : ℤ) * descriptorSize).tdiv fs.blocksize =
        (group * descriptorSize / blocksize : ℕ) := by
      rw [h.blocksize_eq]
      exact_mod_cast Int.ofNat_tdiv _ _ |>.symm
    have hsmall : group * descriptorSize / blocksize ≤ 4194304 := by
      apply Nat.div_le_of_le_mul
      have hlow : 1024 ≤ blocksize := Nat.le_of_dvd hpos h.dvd
      unfold descriptorSize
      nlinarith
    rw [hdiv, toSize_natCast (by omega)]
    unfold wrapSub wrap sizeMax
    omega
  obtain ⟨r, hread, hsize, hsome⟩ := readblocksAlloc_ok disk memory h
    (wrap (toSize (((group : ℤ) * descriptorSize).tdiv fs.blocksize) +
      fs.blkGroupDescriptorBlk))
  unfold readBlockGroupDescriptor
  have hassert : group < sizeMax / descriptorSize := by
    unfold sizeMax descriptorSize
    omega
  simp only [cAssert, hassert, decide_true, if_true, hne, if_false, hoffset]
  rw [hread, hinside, Int.toNat_natCast]
  cases r with
  | error e =>
      refine ⟨.error e, rfl, ?_⟩
      intro hmemory hdisk
      obtain ⟨buf, hbuf⟩ := hsome hmemory hdisk
      contradiction
  | ok buf =>
      rw [← hsize buf rfl] at hfits
      obtain ⟨descriptor, hat⟩ := descriptorAt_ok hfits
      rw [hsize buf rfl] at hat
      refine ⟨.ok descriptor, ?_, fun _ _ => ⟨descriptor, rfl⟩⟩
      show (do
        let descriptor ← descriptorAt buf (group * descriptorSize % blocksize)
        Except.ok (Except.ok descriptor)) = _
      rw [hat]
      rfl

def groupOf (fs : FsContext) (inode : ℕ) : ℕ :=
  (inode - 1) / fs.inodesInBlockGroup

/-- The descriptor of the inode's group can be counted in bytes. -/
structure InodeNumber (fs : FsContext) (inode : ℕ) : Prop where
  pos : 1 ≤ inode
  word : inode ≤ sizeMax
  group : groupOf fs inode < sizeMax / descriptorSize

/-- What the fields of a superblock have to satisfy so that the inodes of a
group have their records inside of blocks. -/
structure RecordsFit (fs : FsContext) : Prop where
  inodeSize : fs.inodeSize ≠ 0
  inodes : fs.inodesInBlockGroup ≠ 0
  table : fs.inodesInBlockGroup ≤ sizeMax / fs.inodeSize
  records : ∀ index < fs.inodesInBlockGroup,
    ((index * fs.inodeSize : ℕ) : ℤ) % fs.blocksize + 128 ≤ fs.blocksize

/-- What the fields of a superblock have to satisfy so that every number up to
the largest leads to a record inside its block. -/
structure FieldsFit (fs : FsContext) : Prop extends RecordsFit fs where
  groups : 33 ≤ fs.inodesInBlockGroup

theorem FieldsFit.inodeNumber (hfit : FieldsFit fs) {inode : ℕ}
    (hinode : 1 ≤ inode) (hword : inode ≤ sizeMax) : InodeNumber fs inode := by
  refine ⟨hinode, hword, ?_⟩
  have hdiv := Nat.div_le_div_left (a := inode - 1) hfit.groups (by omega)
  unfold groupOf
  unfold sizeMax descriptorSize at *
  omega

/-- The inode number leads to a record inside its block, whatever is on the
disk, or to an error. -/
def InodeSafe (fs : FsContext) (inode : ℕ) : Prop :=
  ∀ disk descriptorMemory inodeMemory,
    (∃ r, openinodeRecord fs disk descriptorMemory inodeMemory inode =
      .ok r) ∧
    ∀ blockAddr offset,
      locateInode fs disk descriptorMemory inode =
        .ok (.ok (blockAddr, offset)) →
      0 ≤ offset ∧ offset + 128 ≤ fs.blocksize

/-- `locate_inode` once the descriptor has been read. -/
theorem locateInode_of_read {inode : ℕ} (hinode : 1 ≤ inode)
    (hword : inode ≤ sizeMax) (hipg : fs.inodesInBlockGroup ≠ 0)
    {blkgroup : BlockGroupDescriptor}
    (hread : readBlockGroupDescriptor fs disk memory
      ((inode - 1) / fs.inodesInBlockGroup) = .ok (.ok blkgroup)) :
    locateInode fs disk memory inode =
      (inodePosition fs inode blkgroup.inodetable).map .ok := by
  have hsub : wrapSub inode 1 = inode - 1 := wrapSub_of_le hinode (by
    unfold sizeMax at hword
    omega)
  unfold locateInode blockGroupOfInode
  rw [if_neg hipg, hsub]
  change (readBlockGroupDescriptor fs disk memory
    ((inode - 1) / fs.inodesInBlockGroup) >>= _) = _
  rw [hread]
  change (inodePosition fs inode blkgroup.inodetable >>= _) = _
  cases inodePosition fs inode blkgroup.inodetable <;> rfl

theorem inodePosition_ok (inode inodetable : ℕ) (h : Blocks fs blocksize)
    (hfit : RecordsFit fs) :
    ∃ blockAddr offset, inodePosition fs inode inodetable =
        .ok (blockAddr, offset) ∧
      0 ≤ offset ∧ offset + 128 ≤ fs.blocksize := by
  have hindex : wrapSub inode 1 % fs.inodesInBlockGroup <
      fs.inodesInBlockGroup := Nat.mod_lt _ (Nat.pos_of_ne_zero hfit.inodes)
  have hne : fs.blocksize ≠ 0 := by
    have := h.pos
    rw [h.blocksize_eq]
    omega
  have hassert : wrapSub inode 1 % fs.inodesInBlockGroup <
      sizeMax / fs.inodeSize := lt_of_lt_of_le hindex hfit.table
  unfold inodePosition
  rw [if_neg (not_or.2 ⟨hfit.inodes, hfit.inodeSize⟩)]
  simp only [cAssert, hassert, decide_true, if_true, hne, if_false]
  refine ⟨_, _, rfl, ?_⟩
  rw [Int.tmod_eq_emod_of_nonneg
    (mul_nonneg (Int.natCast_nonneg _) (Int.natCast_nonneg _))]
  have hrecord := hfit.records _ hindex
  rw [Nat.cast_mul] at hrecord
  exact ⟨Int.emod_nonneg _ hne, hrecord⟩

variable (disk memory) in
theorem locateInode_ok {inode : ℕ} (h : Blocks fs blocksize)
    (hfit : RecordsFit fs) (hinode : InodeNumber fs inode) :
    ∃ r, locateInode fs disk memory inode = .ok r ∧
      ∀ blockAddr offset, r = .ok (blockAddr, offset) →
        0 ≤ offset ∧ offset + 128 ≤ fs.blocksize := by
  obtain ⟨hpos, hword, hgroup⟩ := hinode
  obtain ⟨r, hread, -⟩ := readBlockGroupDescriptor_ok disk memory h hgroup
  unfold groupOf at hread
  cases r with
  | error e =>
      refine ⟨.error e, ?_, by simp⟩
      have hsub : wrapSub inode 1 = inode - 1 := wrapSub_of_le hpos (by
        unfold sizeMax at hword
        omega)
      unfold locateInode blockGroupOfInode
      rw [if_neg hfit.inodes, hsub]
      change (readBlockGroupDescriptor fs disk memory
        ((inode - 1) / fs.inodesInBlockGroup) >>= _) = _
      rw [hread]
      rfl
  | ok blkgroup =>
      obtain ⟨blockAddr, offset, hposition, hinside⟩ := inodePosition_ok
        inode blkgroup.inodetable h hfit
      refine ⟨.ok (blockAddr, offset), ?_, ?_⟩
      · rw [locateInode_of_read hpos hword hfit.inodes hread, hposition]
        rfl
      · intro blockAddr' offset' heq
        cases heq
        exact hinside

theorem inodeSafe_of_fieldsFit {inode : ℕ} (h : Blocks fs blocksize)
    (hfit : FieldsFit fs) (hinode : 1 ≤ inode) (hword : inode ≤ sizeMax) :
    InodeSafe fs inode := by
  intro disk descriptorMemory inodeMemory
  obtain ⟨r, hlocate, hinside⟩ := locateInode_ok disk descriptorMemory h
    hfit.toRecordsFit (hfit.inodeNumber hinode hword)
  refine ⟨?_, ?_⟩
  · unfold openinodeRecord
    rw [hlocate]
    cases r with
    | error e => exact ⟨_, rfl⟩
    | ok located =>
        obtain ⟨blockAddr, offset⟩ := located
        obtain ⟨hlow, hhigh⟩ := hinside blockAddr offset rfl
        obtain ⟨r, hread, hsize, -⟩ := readblocksAlloc_ok disk
          inodeMemory h blockAddr
        change ∃ r', (readblocksAlloc fs disk inodeMemory blockAddr 1 >>= _) =
          .ok r'
        rw [hread]
        cases r with
        | error e => exact ⟨_, rfl⟩
        | ok buf =>
            have hroom : offset.toNat + 128 ≤ buf.size := by
              rw [hsize buf rfl]
              rw [h.blocksize_eq] at hhigh
              omega
            rcases inodeAt_ok fs hroom with ⟨-, hat⟩ | ⟨-, record, hat, -⟩
            · exact ⟨_, hat⟩
            · exact ⟨_, hat⟩
  · intro blockAddr offset heq
    rw [hlocate] at heq
    exact hinside blockAddr offset (Except.ok.inj heq)

variable (disk memory) in
/-- A fault of `locate_inode` is one of `openinode`. -/
theorem locateInode_of_inodeSafe {inode : ℕ} (hsafe : InodeSafe fs inode) :
    ∃ r, locateInode fs disk memory inode = .ok r := by
  obtain ⟨⟨r, hopen⟩, -⟩ := hsafe disk memory true
  obtain ⟨r', hlocate, -⟩ := bind_eq_ok hopen
  exact ⟨r', hlocate⟩

theorem groups_of_inodeSafe (hipg : fs.inodesInBlockGroup ≠ 0)
    (hsafe : InodeSafe fs sizeMax) : 33 ≤ fs.inodesInBlockGroup := by
  by_contra hsmall
  obtain ⟨r, hlocate⟩ := locateInode_of_inodeSafe
    (fun _ _ => .error .eio) true hsafe
  obtain ⟨group, hgroup, hlocate⟩ := bind_eq_ok hlocate
  obtain ⟨r', hread, -⟩ := bind_eq_ok hlocate
  unfold readBlockGroupDescriptor at hread
  obtain ⟨_, hassert, -⟩ := bind_eq_ok hread
  have hlt : group < sizeMax / descriptorSize := by
    simpa using cAssert_eq_ok hassert
  unfold blockGroupOfInode at hgroup
  rw [if_neg hipg] at hgroup
  obtain rfl := Except.ok.inj hgroup
  have hge : 4294967294 / 32 ≤ 4294967294 / fs.inodesInBlockGroup :=
    Nat.div_le_div_left (by omega) (by omega)
  have hsub : wrapSub sizeMax 1 = 4294967294 := by decide
  rw [hsub] at hlt
  unfold sizeMax descriptorSize at hlt
  omega

theorem inodePosition_eq_ok {inode inodetable blockAddr : ℕ} {offset : ℤ}
    (h : inodePosition fs inode inodetable = .ok (blockAddr, offset)) :
    fs.inodeSize ≠ 0 ∧
      wrapSub inode 1 % fs.inodesInBlockGroup < sizeMax / fs.inodeSize ∧
      offset = ((wrapSub inode 1 % fs.inodesInBlockGroup * fs.inodeSize :
        ℕ) : ℤ) % fs.blocksize := by
  unfold inodePosition at h
  split at h
  · contradiction
  next hzero =>
    rw [not_or] at hzero
    obtain ⟨_, hassert, h⟩ := bind_eq_ok h
    split at h
    · contradiction
    · cases h
      refine ⟨hzero.2, by simpa using cAssert_eq_ok hassert, ?_⟩
      rw [Int.tmod_eq_emod_of_nonneg
        (mul_nonneg (Int.natCast_nonneg _) (Int.natCast_nonneg _)),
        Nat.cast_mul]

/-- The inode in place `index` of its group, seen through `InodeSafe`. -/
theorem record_of_inodeSafe {index : ℕ} (h : Blocks fs blocksize)
    (hgroups : 33 ≤ fs.inodesInBlockGroup)
    (hword : fs.inodesInBlockGroup ≤ sizeMax)
    (hindex : index < fs.inodesInBlockGroup)
    (hsafe : InodeSafe fs (index + 1)) :
    fs.inodeSize ≠ 0 ∧ index < sizeMax / fs.inodeSize ∧
      ((index * fs.inodeSize : ℕ) : ℤ) % fs.blocksize + 128 ≤
        fs.blocksize := by
  have hgroup : (index + 1 - 1) / fs.inodesInBlockGroup < 134217727 := by
    rw [Nat.add_sub_cancel, Nat.div_eq_of_lt hindex]
    decide
  obtain ⟨r, hread, hsome⟩ := readBlockGroupDescriptor_ok
    (fun _ _ => .ok (fun _ => 0)) true h hgroup
  obtain ⟨blkgroup, rfl⟩ := hsome rfl (fun _ _ => ⟨_, rfl⟩)
  have hlocate := locateInode_of_read (Nat.le_add_left 1 index) (by omega)
    (by omega) hread
  obtain ⟨r, hr⟩ := locateInode_of_inodeSafe
    (fun _ _ => .ok (fun _ => 0)) true hsafe
  rw [hlocate] at hr
  cases hposition : inodePosition fs (index + 1) blkgroup.inodetable with
  | error e =>
      rw [hposition] at hr
      contradiction
  | ok position =>
      obtain ⟨blockAddr, offset⟩ := position
      rw [hposition] at hlocate
      have hinside := (hsafe _ _ true).2 blockAddr offset hlocate
      obtain ⟨hsize, hassert, hoffset⟩ := inodePosition_eq_ok hposition
      have hsub : wrapSub (index + 1) 1 = index := by
        unfold sizeMax at hword
        rw [wrapSub_of_le (by omega) (by omega)]
        omega
      rw [hsub, Nat.mod_eq_of_lt hindex] at hassert hoffset
      rw [hoffset] at hinside
      exact ⟨hsize, hassert, hinside.2⟩

theorem fieldsFit_of_inodeSafe (h : Blocks fs blocksize)
    (hipg : fs.inodesInBlockGroup ≠ 0)
    (hword : fs.inodesInBlockGroup ≤ sizeMax)
    (hsafe : ∀ inode, 1 ≤ inode → inode ≤ sizeMax → InodeSafe fs inode) :
    FieldsFit fs := by
  have hgroups := groups_of_inodeSafe hipg (hsafe sizeMax (by decide) le_rfl)
  have hrecord : ∀ index < fs.inodesInBlockGroup, _ := fun index hindex =>
    record_of_inodeSafe h hgroups hword hindex
      (hsafe (index + 1) (by omega) (by omega))
  refine ⟨⟨(hrecord 0 (by omega)).1, hipg, ?_,
    fun index hindex => (hrecord index hindex).2.2⟩, hgroups⟩
  have hlast := (hrecord (fs.inodesInBlockGroup - 1) (by omega)).2.1
  omega

end Finding

/-! ## Mounting -/

/-- `vfs_op_mount` comes to an end, and what it accepts has a positive block
size and leads every inode number to a record inside its block. -/
def MountSafe (superblk : ℕ → BitVec 8) : Prop :=
  ∃ r, vfsOpMount (.ok superblk) = .ok r ∧ ∀ fs, r = .ok fs →
    0 < fs.blocksize ∧
    fs.blocksize = 1024 * 2 ^ u32leAt superblk 0x018 ∧
    ∀ inode, 1 ≤ inode → inode ≤ sizeMax → InodeSafe fs inode

/-- The checks in front of the group counts. -/
def Rejected (superblk : ℕ → BitVec 8) : Prop :=
  u16leAt superblk 0x038 ≠ ext2Signature ∨ 21 < u32leAt superblk 0x018

/-- The checks of the feature flags. -/
def Unsupported (fs : FsContext) : Prop :=
  unsupported fs.requiredFeatures supportedRequiredFlags = true ∨
    unsupported fs.requiredFeaturesRw supportedRwmountFlags = true

/-- The fields of the superblock are safe to be used. -/
def SuperblockFits (superblk : ℕ → BitVec 8) : Prop :=
  Rejected superblk ∨
    ((parseSuperblock superblk).blocksInBlockGroup ≠ 0 ∧
      (parseSuperblock superblk).inodesInBlockGroup ≠ 0 ∧
      (Unsupported (parseSuperblock superblk) ∨
        u32leAt superblk 0x018 ≠ 21 ∧
          FieldsFit (parseSuperblock superblk)))

section Mounting

variable {superblk : ℕ → BitVec 8}

theorem blocksizeOf_eq {raw : ℕ} (h : raw ≤ 20) :
    blocksizeOf raw = 1024 * 2 ^ raw := by
  interval_cases raw <;> decide

theorem vfsOpMount_of_rejected (h : Rejected superblk) :
    vfsOpMount (.ok superblk) = .ok (.error .einval) := by
  unfold vfsOpMount
  by_cases hsignature : u16leAt superblk 0x038 ≠ ext2Signature
  · simp [cAssert, diskBlockSize, hsignature]
  · have hlarge := h.resolve_left hsignature
    simp [cAssert, diskBlockSize, hsignature, hlarge]

/-- The context which is built when the counts can be made. -/
def mountedContext (superblk : ℕ → BitVec 8) : FsContext :=
  let context := parseSuperblock superblk
  { context with
    blkGroupCount := sizeToBlocks context.totalBlocks
      context.blocksInBlockGroup
    blkGroupDescriptorBlk := if context.blocksize = 1024 then 2 else 1 }

theorem vfsOpMount_of_counted (h : ¬Rejected superblk)
    (hblocks : (parseSuperblock superblk).blocksInBlockGroup ≠ 0)
    (hinodes : (parseSuperblock superblk).inodesInBlockGroup ≠ 0) :
    (Unsupported (parseSuperblock superblk) ∧
      vfsOpMount (.ok superblk) = .ok (.error .einval)) ∨
    (¬Unsupported (parseSuperblock superblk) ∧
      vfsOpMount (.ok superblk) = .ok (.ok (mountedContext superblk))) := by
  rw [Rejected, not_or] at h
  have hmount : vfsOpMount (.ok superblk) =
      if unsupported (parseSuperblock superblk).requiredFeatures
          supportedRequiredFlags then .ok (.error .einval)
      else if unsupported (parseSuperblock superblk).requiredFeaturesRw
          supportedRwmountFlags then .ok (.error .einval)
      else .ok (.ok (mountedContext superblk)) := by
    unfold vfsOpMount sizeToBlocksChecked
    simp only [cAssert, diskBlockSize, if_neg h.1, if_neg h.2, hblocks,
      hinodes, ne_eq, not_false_eq_true, decide_true, if_true]
    rfl
  rw [hmount, Unsupported]
  cases unsupported (parseSuperblock superblk).requiredFeatures
      supportedRequiredFlags with
  | true => exact Or.inl ⟨Or.inl rfl, rfl⟩
  | false =>
      cases unsupported (parseSuperblock superblk).requiredFeaturesRw
          supportedRwmountFlags with
      | true => exact Or.inl ⟨Or.inr rfl, rfl⟩
      | false => exact Or.inr ⟨by simp, rfl⟩

theorem sizeToBlocksChecked_eq_ok {size blockSize n : ℕ}
    (h : sizeToBlocksChecked size blockSize = .ok n) : blockSize ≠ 0 := by
  unfold sizeToBlocksChecked at h
  obtain ⟨_, hassert, -⟩ := bind_eq_ok h
  simpa using cAssert_eq_ok hassert

/-- A group count of zero inodes or zero blocks is not accepted by the
assertion of `size_to_blocks`. -/
theorem counts_of_vfsOpMount (h : ¬Rejected superblk)
    {r : Except Errno FsContext}
    (hmount : vfsOpMount (.ok superblk) = .ok r) :
    (parseSuperblock superblk).blocksInBlockGroup ≠ 0 ∧
      (parseSuperblock superblk).inodesInBlockGroup ≠ 0 := by
  have hbind : ∃ k : ℕ → ℕ → Except Fault (Except Errno FsContext),
      vfsOpMount (.ok superblk) =
      sizeToBlocksChecked (parseSuperblock superblk).totalBlocks
        (parseSuperblock superblk).blocksInBlockGroup >>= fun n =>
      sizeToBlocksChecked (parseSuperblock superblk).totalInodes
        (parseSuperblock superblk).inodesInBlockGroup >>= k n := by
    rw [Rejected, not_or] at h
    unfold vfsOpMount
    simp only [cAssert, diskBlockSize, if_neg h.1, if_neg h.2]
    exact ⟨_, rfl⟩
  obtain ⟨k, hbind⟩ := hbind
  rw [hbind] at hmount
  obtain ⟨_, hblocks, hmount⟩ := bind_eq_ok hmount
  obtain ⟨_, hinodes, -⟩ := bind_eq_ok hmount
  exact ⟨sizeToBlocksChecked_eq_ok hblocks,
    sizeToBlocksChecked_eq_ok hinodes⟩

theorem blocks_mountedContext (h : u32leAt superblk 0x018 ≤ 20) :
    Blocks (mountedContext superblk)
      (1024 * 2 ^ u32leAt superblk 0x018) := by
  have hpow : 2 ^ u32leAt superblk 0x018 ≤ 2 ^ 20 :=
    Nat.pow_le_pow_right (by decide) h
  refine ⟨?_, Nat.dvd_mul_right _ _, by positivity, by omega, ?_⟩
  · show blocksizeOf (u32leAt superblk 0x018) = _
    rw [blocksizeOf_eq h]
    push_cast
    rfl
  · unfold mountedContext
    simp only
    split <;> decide

theorem fieldsFit_mountedContext :
    FieldsFit (mountedContext superblk) ↔
      FieldsFit (parseSuperblock superblk) :=
  ⟨fun ⟨⟨size, inodes, table, records⟩, groups⟩ =>
    ⟨⟨size, inodes, table, records⟩, groups⟩,
  fun ⟨⟨size, inodes, table, records⟩, groups⟩ =>
    ⟨⟨size, inodes, table, records⟩, groups⟩⟩

/-- A superblock is safe to mount when its fields are, and only then. -/
theorem mount_safe_iff (superblk : ℕ → BitVec 8) :
    MountSafe superblk ↔ SuperblockFits superblk := by
  by_cases hrejected : Rejected superblk
  · refine iff_of_true ⟨_, vfsOpMount_of_rejected hrejected, by simp⟩ ?_
    exact Or.inl hrejected
  have hraw : u32leAt superblk 0x018 ≤ 21 := by
    rw [Rejected, not_or] at hrejected
    omega
  have hword : (mountedContext superblk).inodesInBlockGroup ≤ sizeMax := by
    have := u32leAt_lt superblk 0x028
    show u32leAt superblk 0x028 ≤ 4294967295
    omega
  constructor
  · rintro ⟨r, hmount, hsafe⟩
    obtain ⟨hblocks, hinodes⟩ := counts_of_vfsOpMount hrejected hmount
    refine Or.inr ⟨hblocks, hinodes, ?_⟩
    rcases vfsOpMount_of_counted hrejected hblocks hinodes with
      ⟨hunsupported, -⟩ | ⟨-, haccepts⟩
    · exact Or.inl hunsupported
    · right
      rw [hmount] at haccepts
      obtain ⟨hpos, -, hinode⟩ := hsafe _ (Except.ok.inj haccepts)
      have hne : u32leAt superblk 0x018 ≠ 21 := by
        intro heq
        have hsize : (mountedContext superblk).blocksize = blocksizeOf 21 := by
          rw [← heq]
          rfl
        rw [hsize] at hpos
        exact absurd hpos (by decide)
      refine ⟨hne, fieldsFit_mountedContext.mp ?_⟩
      exact fieldsFit_of_inodeSafe (blocks_mountedContext (by omega)) hinodes
        hword hinode
  · intro hfits
    obtain ⟨hblocks, hinodes, hrest⟩ := hfits.resolve_left hrejected
    rcases vfsOpMount_of_counted hrejected hblocks hinodes with
      ⟨-, hrefuses⟩ | ⟨hsupported, haccepts⟩
    · exact ⟨_, hrefuses, by simp⟩
    · obtain ⟨hne, hfit⟩ := hrest.resolve_left hsupported
      have hshift : u32leAt superblk 0x018 ≤ 20 := by omega
      have hgeometry := blocks_mountedContext hshift
      refine ⟨_, haccepts, ?_⟩
      intro fs heq
      cases heq
      rw [hgeometry.blocksize_eq]
      refine ⟨by positivity, by push_cast; rfl, ?_⟩
      intro inode hinode hmax
      exact inodeSafe_of_fieldsFit hgeometry
        (fieldsFit_mountedContext.mpr hfit) hinode hmax

end Mounting

/-- A superblock with a signature and nothing else. -/
def blankSuperblock : ℕ → BitVec 8 := fun pos =>
  if pos = 0x038 then 0x53 else if pos = 0x039 then 0xef else 0

/-- Its block groups have no blocks, and the assertion of `size_to_blocks`
stops the kernel. -/
theorem blankSuperblock_not_safe : ¬MountSafe blankSuperblock := by
  rintro ⟨r, hmount, -⟩
  have hfault : vfsOpMount (.ok blankSuperblock) =
      .error (.assertion "block_size != 0") := by
    decide +kernel
  rw [hfault] at hmount
  contradiction

end Ext2
end Yjkos
