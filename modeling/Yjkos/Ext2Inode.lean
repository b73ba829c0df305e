import Yjkos.Ext2Mount

/-!
# Open ext2 inodes

The cursor of `kernel/fs/fs_ext2.c` over the blocks of an inode, and the
functions which read through it.  Three tables on the way to a block are
buffered, each with the offset of its next entry; a table is replaced by the
next one when its entries are used up.  What the heap answers comes from a
function of the number of the allocation.

Bytes which are read are lists: a function returns what it has stored from
`dest` on, in order.
-/

namespace Yjkos
namespace Ext2

/-- `STREAM_MAX_TRANSFER_SIZE`. -/
def streamMaxTransferSize : ℕ := 0x7fffffff

def directBlockPointerCount : ℕ := 12

/-- A buffered block. -/
structure BlockBuf where
  offsetInBuf : ℕ
  buf : Option Buffer

/-- `vmemset` of a buffer to zero. -/
def BlockBuf.empty : BlockBuf := ⟨0, none⟩

structure InoContext where
  record : InodeRecord
  currentBlockAddr : ℕ
  nextDirectPtrIndex : ℕ
  cnt : ℕ
  singlyIndirectBuf : BlockBuf
  doublyIndirectBuf : BlockBuf
  triplyIndirectBuf : BlockBuf
  blockbuf : BlockBuf
  singlyIndirectUsed : Bool
  doublyIndirectUsed : Bool
  triplyIndirectUsed : Bool
  /-- The allocations made so far. -/
  allocs : ℕ

/-- The volume, and what the disk and the heap answer. -/
structure Env where
  fs : FsContext
  disk : DiskRead
  memory : ℕ → Bool

/-- What a function returns, and the context behind it. -/
abbrev Outcome (α : Type) := Except Errno α × InoContext

/-- `readblocks_alloc` of one block. -/
def readBlock (env : Env) (self : InoContext) (addr : ℕ) :
    Except Fault (Outcome Buffer) := do
  let r ← readblocksAlloc env.fs env.disk (env.memory self.allocs) addr 1
  .ok (r, { self with allocs := self.allocs + 1 })

/-- There is no entry left in the buffer. -/
def BlockBuf.usedUp (self : BlockBuf) (blocksize : ℤ) : Bool :=
  self.buf.isNone || blocksize ≤ self.offsetInBuf

/-- `u32le_at` at the offset of the buffer. -/
def BlockBuf.entry (self : BlockBuf) : Except Fault ℕ :=
  match self.buf with
  | none => .error .nullDereference
  | some buf => buf.u32At self.offsetInBuf

def BlockBuf.advance (self : BlockBuf) : BlockBuf :=
  { self with offsetInBuf := self.offsetInBuf + 4 }

/-! ## The next block -/

/-- The array has twelve entries. -/
def nextDirectBlockPtr (self : InoContext) : Except Errno ℕ × InoContext :=
  let resultAddr := self.record.directBlockPtrs.getD self.nextDirectPtrIndex 0
  if resultAddr = 0 then (.error .enoent, self)
  else (.ok resultAddr,
    { self with nextDirectPtrIndex := self.nextDirectPtrIndex + 1 })

def nextTriplyIndirectTable (env : Env) (self : InoContext) :
    Except Fault (Outcome Unit) :=
  if self.triplyIndirectUsed then .ok (.error .enoent, self)
  else
    let tableaddr := self.record.triplyindirecttable
    if tableaddr = 0 then
      .ok (.error .enoent, { self with triplyIndirectBuf := .empty })
    else do
      match ← readBlock env self tableaddr with
      | (.error e, self) => .ok (.error e, self)
      | (.ok newtable, self) =>
          .ok (.ok (), { self with triplyIndirectBuf := ⟨0, some newtable⟩ })

def nextTriplyBlockPtr (env : Env) (self : InoContext) :
    Except Fault (Outcome ℕ) := do
  let r ← if self.triplyIndirectBuf.usedUp env.fs.blocksize then
      nextTriplyIndirectTable env self
    else .ok (.ok (), self)
  match r with
  | (.error e, self) => .ok (.error e, self)
  | (.ok (), self) => do
      let tableaddr ← self.triplyIndirectBuf.entry
      .ok (.ok tableaddr,
        { self with
          triplyIndirectUsed := true
          triplyIndirectBuf := self.triplyIndirectBuf.advance })

def nextDoublyIndirectTable (env : Env) (self : InoContext) :
    Except Fault (Outcome Unit) := do
  let r ← if self.doublyIndirectUsed then nextTriplyBlockPtr env self
    else
      let tableaddr := self.record.doublyindirecttable
      .ok (if tableaddr ≠ 0 then .ok tableaddr else .error .enoent,
        { self with doublyIndirectUsed := true })
  match r with
  | (.error e, self) =>
      .ok (.error e, { self with doublyIndirectBuf := .empty })
  | (.ok tableaddr, self) => do
      match ← readBlock env self tableaddr with
      | (.error e, self) => .ok (.error e, self)
      | (.ok newtable, self) =>
          .ok (.ok (), { self with doublyIndirectBuf := ⟨0, some newtable⟩ })

def nextDoublyBlockPtr (env : Env) (self : InoContext) :
    Except Fault (Outcome ℕ) := do
  let r ← if self.doublyIndirectBuf.usedUp env.fs.blocksize then
      nextDoublyIndirectTable env self
    else .ok (.ok (), self)
  match r with
  | (.error e, self) => .ok (.error e, self)
  | (.ok (), self) => do
      let resultAddr ← self.doublyIndirectBuf.entry
      let self := { self with
        doublyIndirectBuf := self.doublyIndirectBuf.advance }
      if resultAddr = 0 then .ok (.error .enoent, self)
      else .ok (.ok resultAddr, self)

def nextSinglyIndirectTable (env : Env) (self : InoContext) :
    Except Fault (Outcome Unit) := do
  let r ← if self.singlyIndirectUsed then nextDoublyBlockPtr env self
    else
      let tableaddr := self.record.singlyIndirectTable
      .ok (if tableaddr ≠ 0 then .ok tableaddr else .error .enoent, self)
  match r with
  | (.error _, self) =>
      .ok (.error .enoent, { self with singlyIndirectBuf := .empty })
  | (.ok tableaddr, self) => do
      match ← readBlock env self tableaddr with
      | (.error e, self) => .ok (.error e, self)
      | (.ok newtable, self) =>
          .ok (.ok (),
            { self with
              singlyIndirectBuf := ⟨0, some newtable⟩
              singlyIndirectUsed := true })

/-- A zero entry ends the file, but right behind a new table `ret` is 0 and
`*addr_out` keeps the caller's 0. -/
def nextSinglyBlockPtr (env : Env) (self : InoContext) :
    Except Fault (Outcome ℕ) := do
  let loads := self.singlyIndirectBuf.usedUp env.fs.blocksize
  let r ← if loads then nextSinglyIndirectTable env self
    else .ok (.ok (), self)
  match r with
  | (.error e, self) => .ok (.error e, self)
  | (.ok (), self) => do
      let resultAddr ← self.singlyIndirectBuf.entry
      if resultAddr = 0 then
        .ok (if loads then .ok 0 else .error .enoent, self)
      else
        .ok (.ok resultAddr,
          { self with singlyIndirectBuf := self.singlyIndirectBuf.advance })

def nextInodeBlock (env : Env) (self : InoContext) :
    Except Fault (Outcome Unit) := do
  let r ← if self.nextDirectPtrIndex < directBlockPointerCount then
      .ok (nextDirectBlockPtr self)
    else nextSinglyBlockPtr env self
  match r with
  | (.error e, self) => .ok (.error e, self)
  | (.ok resultAddr, self) =>
      .ok (.ok (),
        { self with currentBlockAddr := resultAddr, cnt := self.cnt + 1 })

/-! ## The first block -/

/-- The context which `openinode` and `rewindinode` start from. -/
def InoContext.fresh (record : InodeRecord) (allocs : ℕ) : InoContext :=
  { record := record
    currentBlockAddr := 0
    nextDirectPtrIndex := 0
    cnt := 0
    singlyIndirectBuf := .empty
    doublyIndirectBuf := .empty
    triplyIndirectBuf := .empty
    blockbuf := .empty
    singlyIndirectUsed := false
    doublyIndirectUsed := false
    triplyIndirectUsed := false
    allocs := allocs }

/-- The move to the very first block, with `MUST_SUCCEED`. -/
def firstBlock (env : Env) (self : InoContext) : Except Fault InoContext := do
  match ← nextInodeBlock env self with
  | (.error _, _) => .error (.assertion "0 <= (ret)")
  | (.ok (), self) => .ok self

/-- The end of `openinode`. -/
def openWalk (env : Env) (record : InodeRecord) (allocs : ℕ) :
    Except Fault InoContext :=
  firstBlock env (.fresh record allocs)

def rewindinode (env : Env) (self : InoContext) : Except Fault InoContext :=
  firstBlock env (.fresh self.record self.allocs)

/-! ## Skipping -/

def nextInodeBlockAndResetBlockbuf (env : Env) (self : InoContext) :
    Except Fault (Outcome Unit) := do
  match ← nextInodeBlock env self with
  | (.error e, self) => .ok (.error e, self)
  | (.ok (), self) => .ok (.ok (), { self with blockbuf := .empty })

/-- The loop over the blocks which are skipped as a whole. -/
def skipBlocks (env : Env) : ℕ → InoContext → Except Fault (Outcome Unit)
  | 0, self => .ok (.ok (), self)
  | count + 1, self => do
      match ← nextInodeBlock env self with
      | (.error e, self) => .ok (.error e, self)
      | (.ok (), self) => skipBlocks env count self

/-- The move to the next block when the current one is used up. -/
def leaveBlock (env : Env) (self : InoContext) : Except Fault (Outcome Unit) :=
  if env.fs.blocksize ≤ self.blockbuf.offsetInBuf then
    nextInodeBlockAndResetBlockbuf env self
  else .ok (.ok (), self)

/-- The number of whole blocks in front, when the current one is untouched. -/
def wholeBlocks (env : Env) (self : InoContext) (remainingLen : ℕ) : ℕ :=
  if self.blockbuf.offsetInBuf = 0 ∧
      toSize env.fs.blocksize ≤ remainingLen then
    remainingLen / toSize env.fs.blocksize
  else 0

/-- What is left of the current block, or of the request. -/
def partLen (env : Env) (self : InoContext) (remainingLen : ℕ) : ℕ :=
  let maxlen := toSize (env.fs.blocksize - self.blockbuf.offsetInBuf)
  if maxlen < remainingLen then maxlen else remainingLen

def skipreadLoop (env : Env) : ℕ → ℕ → InoContext → Except Fault (Outcome Unit)
  | 0, _, _ => .error .outOfFuel
  | fuel + 1, remainingLen, self =>
      if remainingLen = 0 then .ok (.ok (), self)
      else do
        match ← leaveBlock env self with
        | (.error e, self) => .ok (.error e, self)
        | (.ok (), self) =>
            let count := wholeBlocks env self remainingLen
            match ← skipBlocks env count self with
            | (.error e, self) => .ok (.error e, self)
            | (.ok (), self) => do
                let remainingLen :=
                  wrapSub remainingLen (wrap (toSize env.fs.blocksize * count))
                let self := if count = 0 then self
                  else { self with
                    blockbuf := { self.blockbuf with buf := none } }
                if remainingLen = 0 then .ok (.ok (), self)
                else do
                  cAssert (self.blockbuf.offsetInBuf < env.fs.blocksize)
                    "self->blockbuf.offset_in_buf < self->fs->blocksize"
                  let skiplen := partLen env self remainingLen
                  cAssert (skiplen ≠ 0) "skiplen != 0"
                  let self := { self with
                    blockbuf := { self.blockbuf with
                      offsetInBuf := self.blockbuf.offsetInBuf + skiplen } }
                  skipreadLoop env fuel (wrapSub remainingLen skiplen) self

def skipreadInode (env : Env) (self : InoContext) (len : ℕ) :
    Except Fault (Outcome Unit) := do
  cAssert (len ≤ streamMaxTransferSize) "len <= STREAM_MAX_TRANSFER_SIZE"
  skipreadLoop env (len + 1) len self

/-! ## Reading -/

abbrev Bytes := List (BitVec 8)

/-- Bytes of a buffer from an offset on. -/
def bytesFrom (data : ℕ → BitVec 8) (offset len : ℕ) : Bytes :=
  (List.range len).map (fun i => data (offset + i))

/-- The loop of `read_inode_blocks`, over the blocks behind the current one:
`lastBase` and `contiguousLen` are a run of blocks not read yet. -/
def readRuns (env : Env) : ℕ → ℕ → ℕ → Bytes → InoContext →
    Except Fault (Outcome (Bytes × ℕ × ℕ))
  | 0, lastBase, contiguousLen, done, self =>
      .ok (.ok (done, lastBase, contiguousLen), self)
  | left + 1, lastBase, contiguousLen, done, self => do
      match ← nextInodeBlock env self with
      | (.error e, self) => .ok (.error e, self)
      | (.ok (), self) =>
          if self.currentBlockAddr ≠ wrap (lastBase + contiguousLen) then do
            match ← readBlocks env.fs env.disk lastBase contiguousLen with
            | .error e => .ok (.error e, self)
            | .ok data =>
                let readSize := wrap (toSize env.fs.blocksize * contiguousLen)
                readRuns env left self.currentBlockAddr 1
                  (done ++ bytesFrom data 0 readSize) self
          else readRuns env left lastBase (wrap (contiguousLen + 1)) done self

/-- Gives the bytes and what remains of the request. -/
def readInodeBlocks (env : Env) (self : InoContext) (count remainingLen : ℕ) :
    Except Fault (Outcome (Bytes × ℕ)) := do
  match ← readRuns env (count - 1) self.currentBlockAddr 1 [] self with
  | (.error e, self) => .ok (.error e, self)
  | (.ok (done, lastBase, contiguousLen), self) => do
      match ← readBlocks env.fs env.disk lastBase contiguousLen with
      | .error e => .ok (.error e, self)
      | .ok data => do
          let readsize := wrap (toSize env.fs.blocksize * contiguousLen)
          let done := done ++ bytesFrom data 0 readsize
          let remainingLen := wrapSub remainingLen (wrap done.length)
          let self := { self with
            blockbuf := { self.blockbuf with buf := none } }
          match ← nextInodeBlock env self with
          | (.error e, self) =>
              if e ≠ .enoent ∨ remainingLen ≠ 0 then .ok (.error e, self)
              else .ok (.ok (done, remainingLen), self)
          | (.ok (), self) => .ok (.ok (done, remainingLen), self)

/-- The direct read of whole blocks. -/
def readWhole (env : Env) (self : InoContext) (remainingLen : ℕ) :
    Except Fault (Outcome (Bytes × ℕ)) :=
  let count := wholeBlocks env self remainingLen
  if count = 0 then .ok (.ok ([], remainingLen), self)
  else readInodeBlocks env self count remainingLen

/-- Buffers the current block. -/
def fillBlockbuf (env : Env) (self : InoContext) :
    Except Fault (Outcome Buffer) :=
  match self.blockbuf.buf with
  | some buf => .ok (.ok buf, self)
  | none => do
      match ← readBlock env self self.currentBlockAddr with
      | (.error e, self) => .ok (.error e, self)
      | (.ok newbuf, self) =>
          .ok (.ok newbuf,
            { self with
              blockbuf := { self.blockbuf with buf := some newbuf } })

def readLoop (env : Env) : ℕ → ℕ → Bytes → InoContext →
    Except Fault (Outcome Bytes)
  | 0, _, _, _ => .error .outOfFuel
  | fuel + 1, remainingLen, done, self =>
      if remainingLen = 0 then .ok (.ok done, self)
      else do
        match ← leaveBlock env self with
        | (.error e, self) => .ok (.error e, self)
        | (.ok (), self) =>
            match ← readWhole env self remainingLen with
            | (.error e, self) => .ok (.error e, self)
            | (.ok (bytes, remainingLen), self) =>
                let done := done ++ bytes
                if remainingLen = 0 then .ok (.ok done, self)
                else do
                  match ← fillBlockbuf env self with
                  | (.error e, self) => .ok (.error e, self)
                  | (.ok buf, self) => do
                      cAssert (self.blockbuf.offsetInBuf < env.fs.blocksize)
                        "self->blockbuf.offset_in_buf < self->fs->blocksize"
                      let readlen := partLen env self remainingLen
                      cAssert (readlen ≠ 0) "readlen != 0"
                      let offset := self.blockbuf.offsetInBuf
                      if offset + readlen ≤ buf.size then
                        readLoop env fuel (wrapSub remainingLen readlen)
                          (done ++ bytesFrom buf.data offset readlen)
                          { self with
                            blockbuf := { self.blockbuf with
                              offsetInBuf := offset + readlen } }
                      else .error .outOfBounds

def readInode (env : Env) (self : InoContext) (len : ℕ) :
    Except Fault (Outcome Bytes) := do
  cAssert (len ≤ streamMaxTransferSize) "len <= STREAM_MAX_TRANSFER_SIZE"
  readLoop env (len + 1) len [] self

/-! ## File descriptors -/

/-- The loop of `seek_inode` for `SEEK_SET`. -/
def seekLoop (env : Env) : ℕ → ℕ → InoContext → Except Fault (Outcome Unit)
  | 0, _, _ => .error .outOfFuel
  | fuel + 1, remaining, self =>
      if remaining = 0 then .ok (.ok (), self)
      else do
        let skiplen := if sizeMax < remaining then sizeMax else remaining
        cAssert (skiplen ≠ 0) "skiplen != 0"
        match ← skipreadInode env self skiplen with
        | (.error .enoent, _) => .error (.assertion "!\"TODO\"")
        | (.error e, self) => .ok (.error e, self)
        | (.ok (), self) => seekLoop env fuel (remaining - skiplen) self

/-- `seek_inode` with `SEEK_SET` and an offset which is not negative. -/
def seekInode (env : Env) (self : InoContext) (offset : ℕ) :
    Except Fault (Outcome Unit) := do
  let self ← rewindinode env self
  seekLoop env (offset + 1) offset self

structure OpenFdContext where
  inocontext : InoContext
  cursorpos : ℕ

/-- Gives the bytes which were read, or the error. -/
def fdOpRead (env : Env) (self : OpenFdContext) (len : ℕ) :
    Except Fault (Except Errno Bytes × OpenFdContext) := do
  cAssert (len ≤ streamMaxTransferSize) "len <= STREAM_MAX_TRANSFER_SIZE"
  let maxlen : ℤ := self.inocontext.record.size - self.cursorpos
  let readlen := if maxlen < len then toSize maxlen else len
  match ← readInode env self.inocontext readlen with
  | (.error .enoent, _) => .error (.assertion "ret != -ENOENT")
  | (.error e, inocontext) =>
      .ok (.error e, { self with inocontext := inocontext })
  | (.ok bytes, inocontext) =>
      .ok (.ok bytes, ⟨inocontext, self.cursorpos + readlen⟩)

/-- The cursor of the descriptor stays. -/
def fdOpSeek (env : Env) (self : OpenFdContext) (offset : ℕ) :
    Except Fault (Except Errno Unit × OpenFdContext) := do
  match ← seekInode env self.inocontext offset with
  | (.error .enoent, _) => .error (.assertion "ret != -ENOENT")
  | (r, inocontext) => .ok (r, { self with inocontext := inocontext })

end Ext2
end Yjkos
