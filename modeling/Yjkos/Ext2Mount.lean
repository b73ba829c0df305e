import Yjkos.MiscMath

/-!
# Mounting an ext2 volume

`vfs_op_mount` of `kernel/fs/fs_ext2.c` and the functions which find an inode
with the values it leaves.  The only physical disks are ATA disks with
sectors of 512 bytes, `off_t` has 64 bits and `blksize_t` is a signed 32-bit
type.  A block buffer is a function with the size it was allocated with, and
a read behind that size is a fault.
-/

namespace Yjkos
namespace Ext2

/-- `physdisk->block_size`. -/
def diskBlockSize : ℕ := 512

def ext2Signature : ℕ := 0xef53

def supportedRequiredFlags : ℕ := 1 <<< 1

def supportedRwmountFlags : ℕ := 1 <<< 0 ||| 1 <<< 1

def rwmountFeatureflag64bitFileSize : ℕ := 1 <<< 1

/-- `flags & ~supported`, as a condition. -/
def unsupported (flags supported : ℕ) : Bool :=
  BitVec.ofNat 32 flags &&& ~~~BitVec.ofNat 32 supported != 0

/-- The fields of `struct fscontext` which are read again. -/
structure FsContext where
  totalInodes : ℕ
  totalBlocks : ℕ
  blocksize : ℤ
  blocksInBlockGroup : ℕ
  inodesInBlockGroup : ℕ
  majorVer : ℕ
  inodeSize : ℕ
  requiredFeatures : ℕ
  requiredFeaturesRw : ℕ
  blkGroupCount : ℕ
  blkGroupDescriptorBlk : ℕ
deriving Repr, DecidableEq

/-- `(blksize_t)(1024UL << blocksize_raw)`. -/
def blocksizeOf (raw : ℕ) : ℤ := toSigned (wrap (1024 <<< raw))

/-- `size_to_blocks` with its assertion. -/
def sizeToBlocksChecked (size blockSize : ℕ) : Except Fault ℕ := do
  cAssert (blockSize ≠ 0) "block_size != 0"
  .ok (sizeToBlocks size blockSize)

/-- The context as the superblock describes it, before the groups are
counted. -/
def parseSuperblock (superblk : ℕ → BitVec 8) : FsContext :=
  let majorVer := u32leAt superblk 0x04c
  { totalInodes := u32leAt superblk 0x000
    totalBlocks := u32leAt superblk 0x004
    blocksize := blocksizeOf (u32leAt superblk 0x018)
    blocksInBlockGroup := u32leAt superblk 0x020
    inodesInBlockGroup := u32leAt superblk 0x028
    majorVer := majorVer
    inodeSize := if 1 ≤ majorVer then u16leAt superblk 0x058 else 128
    requiredFeatures := if 1 ≤ majorVer then u32leAt superblk 0x060 else 0
    requiredFeaturesRw := if 1 ≤ majorVer then u32leAt superblk 0x064 else 0
    blkGroupCount := 0
    blkGroupDescriptorBlk := 0 }

/-- `vfs_op_mount`, with a context allocated: `superblk` is what
`ldisk_read_exact` answers. -/
def vfsOpMount (superblk : Except Errno (ℕ → BitVec 8)) :
    Except Fault (Except Errno FsContext) := do
  cAssert (1024 % diskBlockSize = 0) "1024 % disk->physdisk->block_size == 0"
  match superblk with
  | .error e => .ok (.error e)
  | .ok superblk =>
      if u16leAt superblk 0x038 ≠ ext2Signature then .ok (.error .einval)
      else if 21 < u32leAt superblk 0x018 then .ok (.error .einval)
      else do
        let context := parseSuperblock superblk
        let blkGroupCount ← sizeToBlocksChecked context.totalBlocks
          context.blocksInBlockGroup
        -- the second count is only compared and reported
        let _ ← sizeToBlocksChecked context.totalInodes
          context.inodesInBlockGroup
        let context := { context with
          blkGroupCount := blkGroupCount
          blkGroupDescriptorBlk := if context.blocksize = 1024 then 2 else 1 }
        if unsupported context.requiredFeatures supportedRequiredFlags then
          .ok (.error .einval)
        else if unsupported context.requiredFeaturesRw
            supportedRwmountFlags then
          .ok (.error .einval)
        else .ok (.ok context)

/-! ## Blocks -/

structure Buffer where
  size : ℕ
  data : ℕ → BitVec 8

def Buffer.u16At (buf : Buffer) (pos : ℕ) : Except Fault ℕ :=
  if pos + 2 ≤ buf.size then .ok (u16leAt buf.data pos)
  else .error .outOfBounds

def Buffer.u32At (buf : Buffer) (pos : ℕ) : Except Fault ℕ :=
  if pos + 4 ≤ buf.size then .ok (u32leAt buf.data pos)
  else .error .outOfBounds

/-- What `ldisk_read_exact` reads, or its error, for an address and a count
of sectors. -/
abbrev DiskRead := ℕ → ℕ → Except Errno (ℕ → BitVec 8)

def readBlocks (self : FsContext) (disk : DiskRead)
    (blockAddr blkcount : ℕ) :
    Except Fault (Except Errno (ℕ → BitVec 8)) := do
  let blocksize := toSize self.blocksize
  cAssert (blocksize % diskBlockSize = 0)
    "(self->blocksize % self->disk->physdisk->block_size) == 0"
  .ok (disk (wrap (blockAddr * (blocksize / diskBlockSize)))
    (wrap (blkcount * (blocksize / diskBlockSize))))

/-- `memory` tells whether `heap_calloc` finds room for the buffer. -/
def readblocksAlloc (self : FsContext) (disk : DiskRead) (memory : Bool)
    (blockAddr blockCount : ℕ) : Except Fault (Except Errno Buffer) := do
  if memory then
    match ← readBlocks self disk blockAddr blockCount with
    | .error e => .ok (.error e)
    | .ok data =>
        .ok (.ok ⟨wrap (blockCount * toSize self.blocksize), data⟩)
  else .ok (.error .enomem)

structure BlockGroupDescriptor where
  blkusagebitmap : ℕ
  inodeusagebitmap : ℕ
  inodetable : ℕ
  unallocatedblocks : ℕ
  unallocatedinodes : ℕ
  directories : ℕ
deriving Repr, DecidableEq

/-- The fields of a descriptor at a position of the buffer. -/
def descriptorAt (buf : Buffer) (data : ℕ) :
    Except Fault BlockGroupDescriptor := do
  .ok
    { blkusagebitmap := ← buf.u32At (data + 0x00)
      inodeusagebitmap := ← buf.u32At (data + 0x04)
      inodetable := ← buf.u32At (data + 0x08)
      unallocatedblocks := ← buf.u16At (data + 0x0c)
      unallocatedinodes := ← buf.u16At (data + 0x0e)
      directories := ← buf.u16At (data + 0x10) }

def descriptorSize : ℕ := 32

def readBlockGroupDescriptor (self : FsContext) (disk : DiskRead)
    (memory : Bool) (blockGroup : ℕ) :
    Except Fault (Except Errno BlockGroupDescriptor) := do
  cAssert (blockGroup < sizeMax / descriptorSize)
    "block_group < (SIZE_MAX / DESCRIPTOR_SIZE)"
  let byteoffset : ℤ := blockGroup * descriptorSize
  if self.blocksize = 0 then .error .divideByZero
  else
    let blockoffset := toSize (byteoffset.tdiv self.blocksize)
    let byteoffsetinblk := byteoffset.tmod self.blocksize
    cAssert (blockoffset < wrapSub sizeMax self.blkGroupDescriptorBlk)
      "blockoffset < (SIZE_MAX - self->blk_group_descriptor_blk)"
    let blockoffset := wrap (blockoffset + self.blkGroupDescriptorBlk)
    match ← readblocksAlloc self disk memory blockoffset 1 with
    | .error e => .ok (.error e)
    | .ok buf => do
        let descriptor ← descriptorAt buf byteoffsetinblk.toNat
        .ok (.ok descriptor)

/-! ## Inodes -/

def blockGroupOfInode (self : FsContext) (inodeaddr : ℕ) :
    Except Fault ℕ :=
  if self.inodesInBlockGroup = 0 then .error .divideByZero
  else .ok (wrapSub inodeaddr 1 / self.inodesInBlockGroup)

/-- The block of the inode and the offset in it, once the descriptor of its
group has been read. -/
def inodePosition (self : FsContext) (inodeaddr inodetable : ℕ) :
    Except Fault (ℕ × ℤ) :=
  if self.inodesInBlockGroup = 0 ∨ self.inodeSize = 0 then
    .error .divideByZero
  else do
    let index := wrapSub inodeaddr 1 % self.inodesInBlockGroup
    cAssert (index < sizeMax / self.inodeSize)
      "index < (SIZE_MAX / self->inode_size)"
    if self.blocksize = 0 then .error .divideByZero
    else
      let bytes : ℤ := index * self.inodeSize
      .ok (toSize (inodetable + bytes.tdiv self.blocksize),
        bytes.tmod self.blocksize)

def locateInode (self : FsContext) (disk : DiskRead) (memory : Bool)
    (inodeaddr : ℕ) : Except Fault (Except Errno (ℕ × ℤ)) := do
  let blockGroup ← blockGroupOfInode self inodeaddr
  match ← readBlockGroupDescriptor self disk memory blockGroup with
  | .error e => .ok (.error e)
  | .ok blkgroup => do
      let position ← inodePosition self inodeaddr blkgroup.inodetable
      .ok (.ok position)

/-- What `openinode` decodes. -/
structure InodeRecord where
  typeandpermissions : ℕ
  uid : ℕ
  lastaccesstime : ℕ
  creationtime : ℕ
  lastmodifiedtime : ℕ
  deletiontime : ℕ
  gid : ℕ
  hardlinks : ℕ
  disksectors : ℕ
  flags : ℕ
  directBlockPtrs : List ℕ
  singlyIndirectTable : ℕ
  doublyindirecttable : ℕ
  triplyindirecttable : ℕ
  generationnumber : ℕ
  size : ℕ
deriving Repr, DecidableEq

/-- The loop over the direct block pointers. -/
def directPtrsAt (buf : Buffer) (inodedata : ℕ) :
    ℕ → ℕ → Except Fault (List ℕ)
  | 0, _ => .ok []
  | left + 1, i => do
      let ptr ← buf.u32At (inodedata + (0x28 + 4 * i))
      let rest ← directPtrsAt buf inodedata left (i + 1)
      .ok (ptr :: rest)

/-- The upper half of the file size is only there with its feature flag. -/
def sizehAt (self : FsContext) (buf : Buffer) (inodedata : ℕ) :
    Except Fault ℕ :=
  if 1 ≤ self.majorVer ∧
      self.requiredFeaturesRw &&& rwmountFeatureflag64bitFileSize ≠ 0 then
    buf.u32At (inodedata + 0x6c)
  else .ok 0

def inodeAt (self : FsContext) (buf : Buffer) (inodedata : ℕ) :
    Except Fault (Except Errno InodeRecord) := do
  let record : InodeRecord :=
    { typeandpermissions := ← buf.u16At (inodedata + 0x00)
      uid := ← buf.u16At (inodedata + 0x02)
      size := ← buf.u32At (inodedata + 0x04)
      lastaccesstime := ← buf.u32At (inodedata + 0x08)
      creationtime := ← buf.u32At (inodedata + 0x0c)
      lastmodifiedtime := ← buf.u32At (inodedata + 0x10)
      deletiontime := ← buf.u32At (inodedata + 0x14)
      gid := ← buf.u16At (inodedata + 0x18)
      hardlinks := ← buf.u16At (inodedata + 0x1a)
      disksectors := ← buf.u32At (inodedata + 0x1c)
      flags := ← buf.u32At (inodedata + 0x20)
      directBlockPtrs := ← directPtrsAt buf inodedata 12 0
      singlyIndirectTable := ← buf.u32At (inodedata + 0x58)
      doublyindirecttable := ← buf.u32At (inodedata + 0x5c)
      triplyindirecttable := ← buf.u32At (inodedata + 0x60)
      generationnumber := ← buf.u32At (inodedata + 0x64) }
  let sizeh ← sizehAt self buf inodedata
  if sizeh >>> 31 ≠ 0 then .ok (.error .einval)
  else .ok (.ok { record with size := sizeh <<< 32 ||| record.size })

/-- `openinode` up to the move to the first block. -/
def openinodeRecord (self : FsContext) (disk : DiskRead)
    (descriptorMemory inodeMemory : Bool) (inode : ℕ) :
    Except Fault (Except Errno InodeRecord) := do
  match ← locateInode self disk descriptorMemory inode with
  | .error e => .ok (.error e)
  | .ok (blockAddr, offset) =>
      match ← readblocksAlloc self disk inodeMemory blockAddr 1 with
      | .error e => .ok (.error e)
      | .ok blkdata => inodeAt self blkdata offset.toNat

end Ext2
end Yjkos
