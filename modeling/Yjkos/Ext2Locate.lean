import Yjkos.Ext2Open

/-!
# Where an inode is

`locate_inode` and the decoding in `openinode` against the ext2 format.  The
descriptors of the groups stand one behind the other from their block on, and
each names the first block of a table with the inodes of its group.
-/

namespace Yjkos
namespace Ext2

/-! ## The format -/

section Format

variable (fs : FsContext) (e : ℕ) (content : ℕ → BitVec 8) (inode : ℕ)

def indexOf : ℕ := (inode - 1) % fs.inodesInBlockGroup

/-- The first block of the inode table of the group. -/
def inodeTableOf : ℕ :=
  u32leAt content
    (fs.blkGroupDescriptorBlk * (4 * e) + groupOf fs inode * descriptorSize + 8)

/-- The first byte of the inode on the disk. -/
def inodeByte : ℕ :=
  inodeTableOf fs e content inode * (4 * e) + indexOf fs inode * fs.inodeSize

end Format

/-- The inode whose first byte is at `pos`. -/
def decodeInode (fs : FsContext) (data : ℕ → BitVec 8) (pos : ℕ) :
    InodeRecord where
  typeandpermissions := u16leAt data (pos + 0x00)
  uid := u16leAt data (pos + 0x02)
  lastaccesstime := u32leAt data (pos + 0x08)
  creationtime := u32leAt data (pos + 0x0c)
  lastmodifiedtime := u32leAt data (pos + 0x10)
  deletiontime := u32leAt data (pos + 0x14)
  gid := u16leAt data (pos + 0x18)
  hardlinks := u16leAt data (pos + 0x1a)
  disksectors := u32leAt data (pos + 0x1c)
  flags := u32leAt data (pos + 0x20)
  directBlockPtrs :=
    (List.range 12).map fun i => u32leAt data (pos + (0x28 + 4 * i))
  singlyIndirectTable := u32leAt data (pos + 0x58)
  doublyindirecttable := u32leAt data (pos + 0x5c)
  triplyindirecttable := u32leAt data (pos + 0x60)
  generationnumber := u32leAt data (pos + 0x64)
  size :=
    (if 1 ≤ fs.majorVer ∧
        fs.requiredFeaturesRw &&& rwmountFeatureflag64bitFileSize ≠ 0 then
      u32leAt data (pos + 0x6c)
    else 0) <<< 32 ||| u32leAt data (pos + 0x04)

/-- A mounted volume, for which the allocations succeed. -/
structure Volume (env : Env) (e : ℕ) : Prop where
  tableSize : TableSize env.fs e
  memory : ∀ n, env.memory n = true
  recordsFit : RecordsFit env.fs
  descriptor : env.fs.blkGroupDescriptorBlk ≤ 2

/-- The blocks with the inode and with the descriptor of its group are read as
the disk holds them. -/
structure InodeOnDisk (env : Env) (e : ℕ) (content : ℕ → BitVec 8)
    (inode : ℕ) : Prop extends InodeNumber env.fs inode where
  descriptor : env.Delivers e content (env.fs.blkGroupDescriptorBlk +
    groupOf env.fs inode * descriptorSize / (4 * e)) 1
  table : env.Delivers e content (inodeTableOf env.fs e content inode +
    indexOf env.fs inode * env.fs.inodeSize / (4 * e)) 1
  sizeFits : SizeFits env.fs content (inodeByte env.fs e content inode)

/-! ## Decoding -/

section Decoding

variable {fs : FsContext} {buf : Buffer} {pos : ℕ}

theorem directPtrsAt_eq {left i : ℕ}
    (h : pos + (0x28 + 4 * (i + left)) ≤ buf.size) :
    directPtrsAt buf pos left i =
      .ok ((List.range' i left).map fun j =>
        u32leAt buf.data (pos + (0x28 + 4 * j))) := by
  induction left generalizing i with
  | zero => rfl
  | succ left ih =>
      rw [directPtrsAt, u32At_ok (by omega), ok_bind, ih (by omega), ok_bind,
        List.range'_succ, List.map_cons]

theorem descriptorAt_eq (h : pos + descriptorSize ≤ buf.size) :
    ∃ descriptor, descriptorAt buf pos = .ok descriptor ∧
      descriptor.inodetable = u32leAt buf.data (pos + 8) := by
  unfold descriptorSize at h
  unfold descriptorAt
  rw [u32At_ok (by omega), u32At_ok (by omega), u32At_ok (by omega),
    u16At_ok (by omega), u16At_ok (by omega), u16At_ok (by omega)]
  exact ⟨_, rfl, rfl⟩

theorem inodeAt_eq (h : pos + 128 ≤ buf.size)
    (hfits : SizeFits fs buf.data pos) :
    inodeAt fs buf pos = .ok (.ok (decodeInode fs buf.data pos)) := by
  have hptrs : pos + (0x28 + 4 * (0 + 12)) ≤ buf.size := by omega
  have hsizeh : sizehAt fs buf pos = .ok (if 1 ≤ fs.majorVer ∧
      fs.requiredFeaturesRw &&& rwmountFeatureflag64bitFileSize ≠ 0 then
        u32leAt buf.data (pos + 0x6c) else 0) := by
    unfold sizehAt
    split
    next => exact u32At_ok (by omega)
    next => rfl
  have hsign : (if 1 ≤ fs.majorVer ∧
      fs.requiredFeaturesRw &&& rwmountFeatureflag64bitFileSize ≠ 0 then
        u32leAt buf.data (pos + 0x6c) else 0) >>> 31 = 0 := by
    split
    next hthere =>
      rw [Nat.shiftRight_eq_div_pow]
      exact Nat.div_eq_of_lt (hfits hthere)
    next => rfl
  unfold inodeAt
  rw [u16At_ok (by omega), u16At_ok (by omega), u32At_ok (by omega),
    u32At_ok (by omega), u32At_ok (by omega), u32At_ok (by omega),
    u32At_ok (by omega), u16At_ok (by omega), u16At_ok (by omega),
    u32At_ok (by omega), u32At_ok (by omega), directPtrsAt_eq hptrs,
    u32At_ok (by omega), u32At_ok (by omega), u32At_ok (by omega),
    u32At_ok (by omega), hsizeh]
  simp only [ok_bind]
  rw [if_neg (not_not.2 hsign), ← List.range_eq_range']
  rfl

theorem decodeInode_congr {f g : ℕ → BitVec 8} {p q : ℕ}
    (h : ∀ i, i < 128 → f (p + i) = g (q + i)) :
    decodeInode fs f p = decodeInode fs g q := by
  have hword : ∀ i, i + 4 ≤ 128 → u32leAt f (p + i) = u32leAt g (q + i) := by
    intro i hi
    refine u32leAt_congr fun j hj => ?_
    rw [Nat.add_assoc, Nat.add_assoc]
    exact h (i + j) (by omega)
  have hhalf : ∀ i, i + 2 ≤ 128 → u16leAt f (p + i) = u16leAt g (q + i) := by
    intro i hi
    refine u16leAt_congr fun j hj => ?_
    rw [Nat.add_assoc, Nat.add_assoc]
    exact h (i + j) (by omega)
  have hptrs : ((List.range 12).map fun i => u32leAt f (p + (0x28 + 4 * i))) =
      (List.range 12).map fun i => u32leAt g (q + (0x28 + 4 * i)) := by
    refine List.map_congr_left fun i hi => hword _ ?_
    rw [List.mem_range] at hi
    omega
  unfold decodeInode
  rw [hhalf _ (by decide), hhalf _ (by decide), hhalf _ (by decide),
    hhalf _ (by decide), hword _ (by decide), hword _ (by decide),
    hword _ (by decide), hword _ (by decide), hword _ (by decide),
    hword _ (by decide), hword _ (by decide), hword _ (by decide),
    hword _ (by decide), hword _ (by decide), hword _ (by decide),
    hword _ (by decide), hptrs]

end Decoding

/-! ## Finding -/

/-- A byte behind `n` others, from the block which it is in. -/
theorem cut_byte (addr n blocksize i : ℕ) :
    (addr + n / blocksize) * blocksize + (n % blocksize + i) =
      addr * blocksize + n + i := by
  have hsplit := Nat.div_add_mod' n blocksize
  rw [Nat.add_mul]
  omega

namespace Volume

variable {env : Env} {e : ℕ} {content : ℕ → BitVec 8} {inode : ℕ}
  (h : Volume env e)
include h

theorem readblocksAlloc_at {addr : ℕ} (alloc : ℕ)
    (hdelivers : env.Delivers e content addr 1) :
    ∃ buf, readblocksAlloc env.fs env.disk (env.memory alloc) addr 1 =
        .ok (.ok buf) ∧ buf.size = 4 * e ∧
      ∀ i, i < 4 * e → buf.data i = content (addr * (4 * e) + i) := by
  have hle := h.tableSize.le
  obtain ⟨data, hread, hdata⟩ := hdelivers.block_read h.tableSize
  rw [h.tableSize.toSize_eq] at hread
  refine ⟨⟨wrap (1 * (4 * e)), data⟩, ?_, ?_, hdata⟩
  · unfold readblocksAlloc
    rw [h.memory, if_pos rfl, readBlocks_eq h.tableSize, ok_bind, hread,
      h.tableSize.toSize_eq]
  · exact (wrap_of_lt (by omega)).trans (one_mul _)

theorem blocks : Blocks env.fs (4 * e) := by
  obtain ⟨raw, -, hraw⟩ := h.tableSize.power
  exact ⟨h.tableSize.blocksize_eq, hraw ▸ Nat.dvd_mul_right 1024 _,
    Nat.mul_pos (by decide) h.tableSize.pos, h.tableSize.le, h.descriptor⟩

/-- A number of bytes cut into blocks, as `off_t` does it. -/
theorem tdiv_blocksize (n : ℕ) :
    (n : ℤ).tdiv env.fs.blocksize = (n / (4 * e) : ℕ) ∧
      (n : ℤ).tmod env.fs.blocksize = (n % (4 * e) : ℕ) := by
  rw [h.tableSize.blocksize_eq]
  exact ⟨(Int.ofNat_tdiv n (4 * e)).symm, (Int.ofNat_tmod n (4 * e)).symm⟩

theorem readBlockGroupDescriptor_at (hinode : InodeOnDisk env e content inode)
    (alloc : ℕ) :
    ∃ blkgroup, readBlockGroupDescriptor env.fs env.disk (env.memory alloc)
        (groupOf env.fs inode) = .ok (.ok blkgroup) ∧
      blkgroup.inodetable = inodeTableOf env.fs e content inode := by
  have hdescriptor := h.descriptor
  have hroom := h.tableSize.ge
  have hgroup := hinode.group
  have hassert : groupOf env.fs inode < sizeMax / descriptorSize := hgroup
  unfold sizeMax descriptorSize at hgroup
  obtain ⟨hdiv, hmod⟩ :=
    h.tdiv_blocksize (groupOf env.fs inode * descriptorSize)
  have hinside := (descriptor_inside (groupOf env.fs inode) h.blocks).2
  obtain ⟨buf, hread, hsize, hdata⟩ := h.readblocksAlloc_at alloc
    hinode.descriptor
  have hne : env.fs.blocksize ≠ 0 := by
    rw [h.tableSize.blocksize_eq]
    omega
  have hblocks : groupOf env.fs inode * descriptorSize / (4 * e) ≤ 4194304 := by
    refine Nat.div_le_of_le_mul ?_
    have hmul := Nat.mul_le_mul_right 4194304 hroom
    unfold descriptorSize
    omega
  have hoffset : groupOf env.fs inode * descriptorSize / (4 * e) <
      wrapSub sizeMax env.fs.blkGroupDescriptorBlk := by
    unfold wrapSub wrap sizeMax
    omega
  have haddr : wrap (groupOf env.fs inode * descriptorSize / (4 * e) +
      env.fs.blkGroupDescriptorBlk) = env.fs.blkGroupDescriptorBlk +
        groupOf env.fs inode * descriptorSize / (4 * e) := by
    rw [Nat.add_comm]
    exact wrap_of_lt (by omega)
  unfold readBlockGroupDescriptor
  rw [cAssert_of (decide_eq_true hassert), ok_bind]
  dsimp only
  rw [if_neg hne, ← Nat.cast_mul, hdiv, hmod, toSize_natCast (by omega),
    cAssert_of (decide_eq_true hoffset), ok_bind, haddr, hread, ok_bind,
    Int.toNat_natCast]
  dsimp only
  obtain ⟨blkgroup, hat, htable⟩ := descriptorAt_eq
    (hinside.trans hsize.ge)
  rw [hat]
  refine ⟨blkgroup, rfl, htable.trans ?_⟩
  refine u32leAt_congr fun i hi => ?_
  unfold descriptorSize at hinside
  rw [Nat.add_assoc, hdata _ (by unfold descriptorSize; omega), cut_byte]
  exact congrArg content (Nat.add_assoc _ 8 i).symm

theorem inodePosition_at (hinode : InodeOnDisk env e content inode) :
    inodePosition env.fs inode (inodeTableOf env.fs e content inode) =
      .ok (inodeTableOf env.fs e content inode +
          indexOf env.fs inode * env.fs.inodeSize / (4 * e),
        (indexOf env.fs inode * env.fs.inodeSize % (4 * e) : ℕ)) := by
  have hpos := hinode.pos
  have hword := hinode.word
  have htable := hinode.table.onDisk
  have hroom := h.tableSize.ge
  have hsectors := h.tableSize.sectors_pos
  have hindex : indexOf env.fs inode < env.fs.inodesInBlockGroup :=
    Nat.mod_lt _ (Nat.pos_of_ne_zero h.recordsFit.inodes)
  obtain ⟨hdiv, hmod⟩ := h.tdiv_blocksize
    (indexOf env.fs inode * env.fs.inodeSize)
  have hne : env.fs.blocksize ≠ 0 := by
    rw [h.tableSize.blocksize_eq]
    omega
  have hsub : wrapSub inode 1 = inode - 1 := wrapSub_of_le hpos (by
    unfold sizeMax at hword
    omega)
  have hassert : indexOf env.fs inode < sizeMax / env.fs.inodeSize :=
    hindex.trans_le h.recordsFit.table
  have hzero : ¬(env.fs.inodesInBlockGroup = 0 ∨ env.fs.inodeSize = 0) :=
    not_or.2 ⟨h.recordsFit.inodes, h.recordsFit.inodeSize⟩
  unfold inodePosition
  unfold indexOf at hdiv hmod hassert htable ⊢
  rw [if_neg hzero, hsub]
  dsimp only
  rw [cAssert_of (decide_eq_true hassert), ok_bind, if_neg hne,
    ← Nat.cast_mul, hdiv, hmod, ← Nat.cast_add, toSize_natCast]
  -- the address is below the number of sectors, of which a block has two
  have hmul := Nat.mul_le_mul_left (inodeTableOf env.fs e content inode +
    (inode - 1) % env.fs.inodesInBlockGroup * env.fs.inodeSize / (4 * e) + 1)
    hsectors
  omega

/-- The inode is where the format has it. -/
theorem openinodeRecord_at (hinode : InodeOnDisk env e content inode)
    (alloc alloc' : ℕ) :
    openinodeRecord env.fs env.disk (env.memory alloc) (env.memory alloc')
        inode =
      .ok (.ok (decodeInode env.fs content
        (inodeByte env.fs e content inode))) := by
  obtain ⟨blkgroup, hread, htable⟩ :=
    h.readBlockGroupDescriptor_at hinode alloc
  obtain ⟨buf, hbuf, hsize, hdata⟩ := h.readblocksAlloc_at alloc' hinode.table
  have hinside : indexOf env.fs inode * env.fs.inodeSize % (4 * e) + 128 ≤
      4 * e := by
    have hrecord := h.recordsFit.records (indexOf env.fs inode)
      (Nat.mod_lt _ (Nat.pos_of_ne_zero h.recordsFit.inodes))
    rw [h.tableSize.blocksize_eq] at hrecord
    exact_mod_cast hrecord
  have hbytes : ∀ i, i < 128 →
      buf.data (indexOf env.fs inode * env.fs.inodeSize % (4 * e) + i) =
        content (inodeByte env.fs e content inode + i) := by
    intro i hi
    rw [hdata _ (by omega), cut_byte]
    rfl
  have hfits : SizeFits env.fs buf.data
      (indexOf env.fs inode * env.fs.inodeSize % (4 * e)) := by
    intro hthere
    have hhigh : u32leAt buf.data
        (indexOf env.fs inode * env.fs.inodeSize % (4 * e) + 0x6c) =
          u32leAt content (inodeByte env.fs e content inode + 0x6c) := by
      refine u32leAt_congr fun i hi => ?_
      rw [Nat.add_assoc, Nat.add_assoc]
      exact hbytes (0x6c + i) (by omega)
    rw [hhigh]
    exact hinode.sizeFits hthere
  unfold openinodeRecord
  rw [locateInode_of_read hinode.pos hinode.word h.recordsFit.inodes hread,
    htable, h.inodePosition_at hinode]
  dsimp only [Except.map]
  rw [ok_bind]
  dsimp only
  rw [hbuf, ok_bind]
  dsimp only
  rw [Int.toNat_natCast, inodeAt_eq (hinside.trans hsize.ge) hfits,
    decodeInode_congr hbytes]

end Volume

end Ext2
end Yjkos
