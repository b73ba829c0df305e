import Yjkos.Ext2Cursor

/-!
# Reading an inode

`read_inode` and `skipread_inode` against the bytes of the file.  A context is
in a block of the file, with the bytes in front of its offset consumed, or it
has consumed the last block.  Whole blocks are read in runs which are
contiguous on the disk, and the block behind them is looked up even at the end
of the file.
-/

namespace Yjkos
namespace Ext2

/-! ## The bytes of the file -/

/-- Blocks which are contiguous on the disk. -/
def Contiguous (content : ℕ → BitVec 8) (e : ℕ) (r : InodeRecord) (k n : ℕ) :
    Prop :=
  ∀ i, i < n → fileBlock content e r (k + i) = fileBlock content e r k + i

/-- A file without holes below its block `blocks`, the contiguous blocks of
which can be read together, as far as a request goes. -/
structure File (env : Env) (e : ℕ) (r : InodeRecord) (blocks : ℕ)
    (content : ℕ → BitVec 8) : Prop extends FileMap env e r blocks content where
  data : ∀ k n, k + n ≤ blocks → 0 < n → n * (4 * e) ≤ streamMaxTransferSize →
    Contiguous content e r k n →
      env.Delivers e content (fileBlock content e r k) n

section Bytes

variable (e : ℕ) (r : InodeRecord) (content : ℕ → BitVec 8)

/-- Byte `p` of the file, its blocks in logical order. -/
def fileByte (p : ℕ) : BitVec 8 :=
  content (fileBlock content e r (p / (4 * e)) * (4 * e) + p % (4 * e))

def fileBytes (p len : ℕ) : Bytes :=
  (List.range len).map fun i => fileByte e r content (p + i)

theorem fileBytes_append (p a b : ℕ) :
    fileBytes e r content p a ++ fileBytes e r content (p + a) b =
      fileBytes e r content p (a + b) := by
  unfold fileBytes
  rw [List.range_add, List.map_append, List.map_map]
  refine congrArg _ (List.map_congr_left ?_)
  intro i _
  rw [Function.comp_apply, Nat.add_assoc]

theorem fileBytes_blocks (k m n : ℕ) :
    fileBytes e r content (k * (4 * e)) (m * (4 * e)) ++
      fileBytes e r content ((k + m) * (4 * e)) (n * (4 * e)) =
        fileBytes e r content (k * (4 * e)) ((m + n) * (4 * e)) := by
  rw [Nat.add_mul k, fileBytes_append, ← Nat.add_mul]

theorem length_fileBytes (p len : ℕ) :
    (fileBytes e r content p len).length = len := by
  simp [fileBytes]

end Bytes

variable {env : Env} {e : ℕ} {r : InodeRecord} {blocks : ℕ}
  {content : ℕ → BitVec 8}

theorem contiguous_one (content : ℕ → BitVec 8) (e : ℕ) (r : InodeRecord)
    (k : ℕ) : Contiguous content e r k 1 := by
  intro i hi
  obtain rfl : i = 0 := by omega
  rfl

namespace File

variable (h : File env e r blocks content)
include h

theorem run_lt {k n : ℕ} (hrun : Contiguous content e r k (n + 1))
    (hk : k + n < blocks) (hsmall : (n + 1) * (4 * e) ≤ streamMaxTransferSize) :
    fileBlock content e r k + (n + 1) ≤ 2147483648 := by
  have hle := (h.data k (n + 1) hk (Nat.succ_pos n) hsmall hrun).onDisk
  have hsectors := h.tableSize.sectors_pos
  have hmul := Nat.mul_le_mul_left (fileBlock content e r k + (n + 1)) hsectors
  omega

theorem readBlocks_run {k n : ℕ} (hrun : Contiguous content e r k (n + 1))
    (hk : k + n < blocks) (hsmall : (n + 1) * (4 * e) ≤ streamMaxTransferSize) :
    ∃ data, readBlocks env.fs env.disk (fileBlock content e r k) (n + 1) =
      .ok (.ok data) ∧ ∀ i, i < (n + 1) * (4 * e) →
        data i = content (fileBlock content e r k * (4 * e) + i) := by
  have hdelivers := h.data k (n + 1) hk (Nat.succ_pos n) hsmall hrun
  unfold streamMaxTransferSize at hsmall
  obtain ⟨data, hread, hdata⟩ :=
    hdelivers.sectors_read h.tableSize (Nat.succ_pos n) (by omega)
  refine ⟨data, ?_, hdata⟩
  rw [h.tableSize.toSize_eq] at hread
  rw [readBlocks_eq h.tableSize, hread]

theorem bytes_run {k n : ℕ} (hrun : Contiguous content e r k n)
    {data : ℕ → BitVec 8}
    (hdata : ∀ i, i < n * (4 * e) →
      data i = content (fileBlock content e r k * (4 * e) + i)) :
    bytesFrom data 0 (n * (4 * e)) =
      fileBytes e r content (k * (4 * e)) (n * (4 * e)) := by
  have hpos : 0 < 4 * e := Nat.mul_pos (by omega) h.tableSize.pos
  unfold bytesFrom fileBytes
  refine List.map_congr_left ?_
  intro i hi
  rw [List.mem_range] at hi
  have hblock : (k * (4 * e) + i) / (4 * e) = k + i / (4 * e) := by
    rw [Nat.mul_comm, Nat.mul_add_div hpos]
  have hoffset : (k * (4 * e) + i) % (4 * e) = i % (4 * e) := by
    rw [Nat.mul_comm, Nat.mul_add_mod]
  rw [Nat.zero_add, hdata i hi, fileByte, hblock, hoffset,
    hrun _ (Nat.div_lt_of_lt_mul (by rwa [Nat.mul_comm])), Nat.add_mul,
    Nat.add_assoc, Nat.div_add_mod']

end File

/-! ## Looking up a block behind the last one -/

/-- Block `p` is the first one below an entry of the triply indirect table
which is zero. -/
def ZeroTableAt (entry : ℕ → ℕ → ℕ) (e : ℕ) (r : InodeRecord) (p : ℕ) : Prop :=
  ∃ l < e, p = 12 + ((l + 1) * e + 1) * e ∧ r.triplyindirecttable ≠ 0 ∧
    triplyPtr entry r l = 0

/-- A zero entry of the triply indirect table which the next call takes for the
address of a table is right in front of the cursor. -/
theorem Stands.zeroTableAt (hsize : TableSize env.fs e) {p : ℕ}
    {self : InoContext} (h : Stands env e r p self)
    (hge : directBlockPointerCount ≤ p)
    (htakes : TakesZeroTable env e r (p - directBlockPointerCount) self) :
    ZeroTableAt env.entry e r p := by
  have he := hsize.pos
  obtain ⟨n, rfl⟩ : ∃ n, p = 12 + n := Nat.exists_eq_add_of_le hge
  have hmod := h.singly_behind hsize htakes.1
  have hn : 12 + n - directBlockPointerCount = n := Nat.add_sub_cancel_left _ n
  rw [hn] at htakes
  rw [Nat.add_sub_cancel_left] at hmod
  obtain ⟨t, rfl⟩ : ∃ t, n = t * e :=
    ⟨n / e, (Nat.div_mul_cancel (Nat.dvd_of_mod_eq_zero hmod)).symm⟩
  obtain ⟨-, -, hzero⟩ := htakes
  rw [Nat.mul_div_cancel t he] at hzero
  obtain ⟨hs, hrow, hgives, hptr⟩ := hzero
  obtain ⟨d, hd⟩ : ∃ d, t - 1 = d * e :=
    ⟨(t - 1) / e, (Nat.div_mul_cancel (Nat.dvd_of_mod_eq_zero hrow)).symm⟩
  rw [hd] at hs hgives hptr
  obtain ⟨l, rfl⟩ : ∃ l, d = l + 1 := by
    refine Nat.exists_eq_succ_of_ne_zero ?_
    rintro rfl
    rw [Nat.zero_mul] at hs
    exact lt_irrefl 0 hs
  rw [pred_mul_div he] at hgives hptr
  refine ⟨l, hgives.1, ?_, hgives.2.1, hptr⟩
  rw [show t = (l + 1) * e + 1 by omega]

/-- What the lookup behind the last block reads can be read.  A zero entry of
the triply indirect table is taken for the address of a table, and what block 0
starts with for the address of a table below it. -/
structure LookaheadReads (env : Env) (e : ℕ) (r : InodeRecord) (blocks : ℕ) :
    Prop where
  tables : ∀ addr, TableTo env.entry e r blocks addr → env.Readable addr
  zeroTable : ZeroTableAt env.entry e r blocks →
    env.Readable 0 ∧ (env.entry 0 0 ≠ 0 → env.Readable (env.entry 0 0))

/-- A lookup which returns in a context of the inode, without an error other
than the end of the file. -/
def EndsAtMost {α : Type} (r : InodeRecord) (x : Except Fault (Outcome α)) :
    Prop :=
  ∃ ret context, x = .ok (ret, context) ∧ context.record = r ∧
    ∀ err, ret = .error err → err = .enoent

theorem Env.block_size (hsize : TableSize env.fs e) (addr : ℕ) :
    (env.block addr).size = 4 * e := hsize.toSize_eq

theorem loadedBuf_entry (hsize : TableSize env.fs e) (addr : ℕ) :
    BlockBuf.entry ⟨0, some (env.block addr)⟩ = .ok (env.entry addr 0) :=
  env.block_u32At hsize addr hsize.pos

/-- Block 0 as a doubly indirect table. -/
theorem nextDoublyBlockPtr_zero (hsize : TableSize env.fs e)
    {self next : InoContext}
    (hup : self.doublyIndirectBuf.usedUp env.fs.blocksize = true)
    (hused : self.doublyIndirectUsed = true)
    (hptr : nextTriplyBlockPtr env self = .ok (.ok 0, next))
    (hread : ∀ alloc, env.Reads alloc 0) :
    ∃ last, nextDoublyBlockPtr env self =
        .ok (if env.entry 0 0 = 0 then .error .enoent
          else .ok (env.entry 0 0), last) ∧
      last.record = next.record := by
  unfold nextDoublyBlockPtr nextDoublyIndirectTable
  rw [if_pos hup, if_pos hused, hptr, ok_bind]
  dsimp only
  rw [readBlock_of_reads hsize next (hread _), ok_bind]
  dsimp only
  rw [ok_bind]
  dsimp only
  rw [loadedBuf_entry hsize, ok_bind]
  split <;> exact ⟨_, rfl, rfl⟩

/-- What block 0 starts with as the address of a singly indirect table. -/
theorem nextSinglyBlockPtr_zero (hsize : TableSize env.fs e)
    {self next : InoContext} {addr : ℕ}
    (hup : self.singlyIndirectBuf.usedUp env.fs.blocksize = true)
    (hused : self.singlyIndirectUsed = true)
    (hptr : nextDoublyBlockPtr env self =
      .ok (if addr = 0 then .error .enoent else .ok addr, next))
    (hrecord : next.record = r)
    (hread : addr ≠ 0 → ∀ alloc, env.Reads alloc addr) :
    EndsAtMost r (nextSinglyBlockPtr env self) := by
  unfold nextSinglyBlockPtr nextSinglyIndirectTable
  dsimp only
  rw [if_pos hup, if_pos hused, hptr, ok_bind]
  by_cases hzero : addr = 0
  · rw [if_pos hzero]
    refine ⟨_, _, rfl, hrecord, ?_⟩
    intro err heq
    cases heq
    rfl
  · rw [if_neg hzero]
    dsimp only
    rw [readBlock_of_reads hsize next (hread hzero _), ok_bind]
    dsimp only
    rw [ok_bind]
    dsimp only
    rw [loadedBuf_entry hsize, ok_bind]
    split <;> exact ⟨_, _, rfl, hrecord, nofun⟩

/-- The lookup where a zero entry of the triply indirect table is taken for an
address. -/
theorem Stands.nextInodeBlock_zero (hsize : TableSize env.fs e)
    (hmemory : ∀ n, env.memory n = true) {p : ℕ} {self : InoContext}
    (hreads : LookaheadReads env e r p) (h : Stands env e r p self)
    (hge : directBlockPointerCount ≤ p)
    (htakes : TakesZeroTable env e r (p - directBlockPointerCount) self) :
    EndsAtMost r (nextInodeBlock env self) := by
  obtain ⟨hzero, hfirst⟩ := hreads.zeroTable (h.zeroTableAt hsize hge htakes)
  obtain ⟨hup, hn, hm, hmod, hgives, hptr⟩ := htakes
  have hindex : ¬self.nextDirectPtrIndex < directBlockPointerCount := by
    rw [h.direct_lt_iff]
    exact Nat.not_lt_of_le hge
  have hsingly : self.singlyIndirectUsed = true ∧
      DoublyStands env e r ((p - directBlockPointerCount) / e - 1) self := by
    cases h.singly with
    | ready _ hbuf =>
        rw [hbuf] at hup
        exact absurd hup (readyBuf_not_usedUp hsize _ _)
    | behind _ hused _ hdoubly =>
        exact ⟨hused.trans (decide_eq_true hn), hdoubly⟩
  obtain ⟨hused, hdoubly⟩ := hsingly
  obtain ⟨ret, buf, triplyUsed, allocs, hload, houtcome⟩ :=
    nextTriplyBlockPtr_cases hsize h.record hdoubly.triply
  rcases houtcome with ⟨-, -, -, -, hnone⟩ | ⟨rfl, -⟩
  · exact absurd hgives hnone
  rw [hptr] at hload
  obtain ⟨next, hdoublyPtr, hnext⟩ := nextDoublyBlockPtr_zero hsize
    (hdoubly.behind hmod) (hdoubly.used.trans (decide_eq_true hm)) hload
    fun alloc => ⟨hmemory alloc, hzero⟩
  obtain ⟨ret, last, hok, hlast, hret⟩ := nextSinglyBlockPtr_zero hsize hup
    hused hdoublyPtr (hnext.trans h.record)
    fun hsome alloc => ⟨hmemory alloc, hfirst hsome⟩
  unfold nextInodeBlock
  rw [if_neg hindex, hok, ok_bind]
  cases ret with
  | error err =>
      refine ⟨_, _, rfl, hlast, ?_⟩
      intro other heq
      cases heq
      exact hret err rfl
  | ok addr => exact ⟨_, _, rfl, hlast, nofun⟩

/-- The end of the file is the only error of the lookup behind its last
block. -/
theorem WalkAt.lookahead (hsize : TableSize env.fs e)
    (hmemory : ∀ n, env.memory n = true)
    (hfree : HoleFree env.entry e r blocks)
    (hreads : LookaheadReads env e r blocks) {self : InoContext}
    (h : WalkAt env e r blocks self) :
    EndsAtMost r (nextInodeBlock env self) := by
  have hstands := h.stands hsize hfree
  by_cases htakes : directBlockPointerCount ≤ blocks ∧
      TakesZeroTable env e r (blocks - directBlockPointerCount) self
  · exact hstands.nextInodeBlock_zero hsize hmemory hreads htakes.1 htakes.2
  · obtain ⟨ret, next, hok, -, houtcome⟩ :=
      nextInodeBlock_cases hsize hstands htakes
    refine ⟨ret, next, hok, ?_⟩
    rcases houtcome with ⟨err, p, rfl, herr, -, hnext, -⟩ | ⟨rfl, hnext, -⟩ |
      ⟨rfl, hnext, -⟩
    · refine ⟨hnext.record, ?_⟩
      intro err' heq
      cases heq
      exact herr ⟨hmemory, hreads.tables⟩
    · exact ⟨hnext.record, nofun⟩
    · exact ⟨hnext.record, nofun⟩

/-! ## Where a context stands -/

/-- The context is in block `k`, with the bytes in front of `offset` consumed.
A buffered block is the current one. -/
structure InBlock (env : Env) (e : ℕ) (r : InodeRecord) (k offset : ℕ)
    (context : InoContext) : Prop where
  current : CurrentAt env e r k context
  offset_eq : context.blockbuf.offsetInBuf = offset
  offset_le : offset ≤ 4 * e
  buffered : ∀ b, context.blockbuf.buf = some b →
    b = env.block (blockAddress env.entry e r k)

/-- The first `p` bytes of the file are consumed. -/
def Positioned (env : Env) (e : ℕ) (r : InodeRecord) (blocks p : ℕ)
    (context : InoContext) : Prop :=
  (∃ k offset, k < blocks ∧ p = k * (4 * e) + offset ∧
    InBlock env e r k offset context) ∨
  p = blocks * (4 * e) ∧ context.record = r

theorem Positioned.record {p : ℕ} {context : InoContext}
    (h : Positioned env e r blocks p context) : context.record = r := by
  rcases h with ⟨k, offset, -, -, hin⟩ | ⟨-, hrecord⟩
  · exact hin.current.walk.record
  · exact hrecord

theorem CurrentAt.withBlockbuf {k : ℕ} {context : InoContext}
    (h : CurrentAt env e r k context) (blockbuf : BlockBuf) (allocs : ℕ) :
    CurrentAt env e r k { context with
      blockbuf := blockbuf
      allocs := allocs } where
  walk :=
    { record := h.walk.record
      direct := h.walk.direct
      cnt := h.walk.cnt
      singly := ⟨h.walk.singly.level,
        ⟨h.walk.singly.above.level, h.walk.singly.above.above⟩⟩ }
  address := h.address

namespace File

variable (h : File env e r blocks content)
include h

theorem leaveBlock_at {k offset : ℕ} {self : InoContext}
    (hin : InBlock env e r k offset self)
    (hlt : k * (4 * e) + offset < blocks * (4 * e)) :
    ∃ k' offset' self', leaveBlock env self = .ok (.ok (), self') ∧
      k' < blocks ∧ offset' < 4 * e ∧
      k' * (4 * e) + offset' = k * (4 * e) + offset ∧
      InBlock env e r k' offset' self' := by
  have hpos : 0 < 4 * e := Nat.mul_pos (by omega) h.tableSize.pos
  have hk : k < blocks := by
    by_contra hge
    have hmul := Nat.mul_le_mul_right (4 * e) (Nat.le_of_not_lt hge)
    omega
  unfold leaveBlock
  rw [hin.offset_eq, h.tableSize.blocksize_eq]
  by_cases hend : 4 * e ≤ offset
  · obtain rfl : offset = 4 * e := le_antisymm hin.offset_le hend
    have hnext : k + 1 < blocks := by
      rw [← Nat.succ_mul] at hlt
      exact Nat.lt_of_mul_lt_mul_right hlt
    obtain ⟨self', hok, hcurrent, -⟩ :=
      h.walkable.nextInodeBlock hnext hin.current.walk
    refine ⟨k + 1, 0, { self' with blockbuf := .empty }, ?_, hnext, hpos, ?_,
      ⟨hcurrent.withBlockbuf _ _, rfl, Nat.zero_le _, nofun⟩⟩
    · rw [if_pos (by exact_mod_cast hend), nextInodeBlockAndResetBlockbuf, hok,
        ok_bind]
    · rw [Nat.succ_mul, Nat.add_zero]
  · refine ⟨k, offset, self, ?_, hk, by omega, rfl, hin⟩
    rw [if_neg (by exact_mod_cast hend)]

theorem readSize_eq {n : ℕ} (hn : n * (4 * e) < 4294967296) :
    wrap (toSize env.fs.blocksize * n) = n * (4 * e) := by
  rw [h.tableSize.toSize_eq, Nat.mul_comm, wrap_of_lt hn]

/-- Block `k + n` is the last one of a run which has not been read yet.  What
is done and what is left stay the same together. -/
theorem readRuns_at (left : ℕ) :
    ∀ {k n : ℕ} (done : Bytes) {self : InoContext},
      CurrentAt env e r (k + n) self → Contiguous content e r k (n + 1) →
      k + n + left < blocks →
      (n + 1 + left) * (4 * e) ≤ streamMaxTransferSize →
      ∃ k' n' done' self',
        readRuns env left (fileBlock content e r k) (n + 1) done self =
          .ok (.ok (done', fileBlock content e r k', n' + 1), self') ∧
        k' + n' = k + n + left ∧ n' ≤ n + left ∧
        Contiguous content e r k' (n' + 1) ∧ CurrentAt env e r (k' + n') self' ∧
        self'.blockbuf = self.blockbuf ∧
        done' ++ fileBytes e r content (k' * (4 * e))
            ((n' + 1) * (4 * e)) =
          done ++ fileBytes e r content (k * (4 * e))
            ((n + 1 + left) * (4 * e)) := by
  induction left with
  | zero =>
      intro k n done self hcurrent hrun _ _
      exact ⟨k, n, done, self, rfl, rfl, le_rfl, hrun, hcurrent, rfl, rfl⟩
  | succ left ih =>
      intro k n done self hcurrent hrun hlt hsmall
      have hk : k + n + 1 < blocks := by omega
      obtain ⟨next, hnext, hcurrent', hbuf⟩ :=
        h.walkable.nextInodeBlock hk hcurrent.walk
      have haddress := hcurrent'.address.trans (h.address_eq hk)
      have hsize : (n + 1) * (4 * e) ≤ streamMaxTransferSize :=
        (Nat.mul_le_mul_right _ (by omega)).trans hsmall
      have hlast := h.run_lt hrun (by omega) hsize
      have hwrap : wrap (fileBlock content e r k + (n + 1)) =
          fileBlock content e r k + (n + 1) := wrap_of_lt (by omega)
      unfold readRuns
      rw [hnext, ok_bind]
      dsimp only
      rw [hwrap, haddress]
      split
      next hgap =>
        obtain ⟨data, hread, hdata⟩ := h.readBlocks_run hrun (by omega) hsize
        have hone := contiguous_one content e r (k + n + 1)
        have hsmall' : (0 + 1 + left) * (4 * e) ≤ streamMaxTransferSize :=
          (Nat.mul_le_mul_right _ (by omega)).trans hsmall
        obtain ⟨k', n', done', self', hok, hsum, hle, hrun', hcurrent₁, hbuf',
          hbytes⟩ := ih (k := k + n + 1) (n := 0) _ hcurrent' hone
            (by omega) hsmall'
        refine ⟨k', n', done', self', ?_, by omega, by omega, hrun', hcurrent₁,
          hbuf'.trans hbuf, ?_⟩
        · rw [hread, ok_bind]
          dsimp only
          rw [h.readSize_eq (by unfold streamMaxTransferSize at hsize; omega),
            h.bytes_run hrun hdata]
          exact hok
        · rw [hbytes, List.append_assoc, Nat.add_assoc k,
            fileBytes_blocks]
          congr 3
          omega
      next hnogap =>
        have hnogap' := not_not.1 hnogap
        have hlonger : Contiguous content e r k (n + 1 + 1) := by
          intro i hi
          rcases Nat.lt_succ_iff_lt_or_eq.1 hi with hold | rfl
          · exact hrun i hold
          · exact hnogap'
        have hcount : n + 1 + 1 + left = n + 1 + (left + 1) := by omega
        rw [← hcount] at hsmall ⊢
        obtain ⟨k', n', done', self', hok, hsum, hle, hrun', hcurrent₁, hbuf',
          hbytes⟩ := ih (k := k) (n := n + 1) _ hcurrent' hlonger
            (by omega) hsmall
        refine ⟨k', n', done', self', ?_, by omega, by omega, hrun', hcurrent₁,
          hbuf'.trans hbuf, ?_⟩
        · rw [wrap_of_lt (by omega)]
          exact hok
        · exact hbytes

theorem readInodeBlocks_at (hahead : LookaheadReads env e r blocks)
    {k m remaining : ℕ} {self : InoContext}
    (hcurrent : CurrentAt env e r k self) (hle : k + m < blocks)
    (hwhole : (m + 1) * (4 * e) ≤ remaining)
    (hsmall : remaining ≤ streamMaxTransferSize)
    (hend : k + m + 1 = blocks → remaining = (m + 1) * (4 * e)) :
    ∃ self', readInodeBlocks env self (m + 1) remaining =
        .ok (.ok (fileBytes e r content (k * (4 * e))
          ((m + 1) * (4 * e)), remaining - (m + 1) * (4 * e)), self') ∧
      self'.record = r ∧
      (k + m + 1 < blocks → CurrentAt env e r (k + m + 1) self' ∧
        self'.blockbuf = { self.blockbuf with buf := none }) := by
  have hone := contiguous_one content e r k
  obtain ⟨k', n', done, next, hruns, hsum, hn, hrun, hlast, hbuf, hbytes⟩ :=
    h.readRuns_at m (k := k) (n := 0) [] hcurrent hone hle
      (by rw [Nat.zero_add, Nat.add_comm 1]; exact hwhole.trans hsmall)
  have hsize : (n' + 1) * (4 * e) ≤ streamMaxTransferSize :=
    ((Nat.mul_le_mul_right _ (by omega)).trans hwhole).trans hsmall
  obtain ⟨data, hread, hdata⟩ := h.readBlocks_run hrun (by omega) hsize
  unfold streamMaxTransferSize at hsmall hsize
  rw [List.nil_append, Nat.zero_add, Nat.add_comm 1] at hbytes
  have hremaining : wrapSub remaining (wrap (fileBytes e r content
      (k * (4 * e)) ((m + 1) * (4 * e))).length) =
      remaining - (m + 1) * (4 * e) := by
    rw [length_fileBytes, wrap_of_lt (by omega)]
    exact wrapSub_of_le hwhole (by omega)
  have hlast' := hlast.withBlockbuf { next.blockbuf with buf := none }
    next.allocs
  have hindex : k' + n' = k + m := by omega
  rw [hindex] at hlast'
  unfold readInodeBlocks
  rw [Nat.add_sub_cancel, hcurrent.address, h.address_eq (by omega),
    hruns, ok_bind]
  dsimp only
  rw [hread, ok_bind]
  dsimp only
  rw [h.readSize_eq (by omega), h.bytes_run hrun hdata, hbytes, hremaining]
  by_cases hmore : k + m + 1 < blocks
  · obtain ⟨self', hnext, hcurrent', hsame⟩ :=
      h.walkable.nextInodeBlock hmore hlast'.walk
    rw [hnext, ok_bind]
    refine ⟨self', rfl, hcurrent'.walk.record, fun _ => ⟨hcurrent', ?_⟩⟩
    rw [hsame, hbuf]
  · -- Nothing remains, so the end of the file is no error.
    obtain rfl : blocks = k + m + 1 := by omega
    obtain ⟨ret, self', hnext, hrecord, hret⟩ := hlast'.walk.lookahead
      h.tableSize h.memory h.walkable.mapped hahead
    rw [hnext, ok_bind]
    refine ⟨self', ?_, hrecord, fun hlt => absurd hlt hmore⟩
    cases ret with
    | ok => rfl
    | error err =>
        have hzero : remaining - (m + 1) * (4 * e) = 0 := by
          rw [hend rfl, Nat.sub_self]
        dsimp only
        rw [hret err rfl, hzero, if_neg (by simp)]

theorem block_delivers {k : ℕ} (hk : k < blocks) :
    env.Delivers e content (fileBlock content e r k) 1 := by
  have hle := h.tableSize.le
  refine h.data k 1 hk Nat.one_pos ?_ (contiguous_one content e r k)
  unfold streamMaxTransferSize
  omega

theorem block_data {k : ℕ} (hk : k < blocks) {i : ℕ} (hi : i < 4 * e) :
    (env.block (blockAddress env.entry e r k)).data i =
      content (fileBlock content e r k * (4 * e) + i) := by
  rw [h.address_eq hk]
  exact (h.block_delivers hk).block_data h.tableSize hi

theorem bytes_block {k offset n : ℕ} (hk : k < blocks)
    (hn : offset + n ≤ 4 * e) :
    bytesFrom (env.block (blockAddress env.entry e r k)).data offset n =
      fileBytes e r content (k * (4 * e) + offset) n := by
  have hpos : 0 < 4 * e := Nat.mul_pos (by omega) h.tableSize.pos
  unfold bytesFrom fileBytes
  refine List.map_congr_left ?_
  intro i hi
  rw [List.mem_range] at hi
  have hblock : (k * (4 * e) + offset + i) / (4 * e) = k := by
    rw [Nat.add_assoc, Nat.mul_comm, Nat.mul_add_div hpos,
      Nat.div_eq_of_lt (by omega), Nat.add_zero]
  have hoffset : (k * (4 * e) + offset + i) % (4 * e) = offset + i := by
    rw [Nat.add_assoc, Nat.mul_comm, Nat.mul_add_mod,
      Nat.mod_eq_of_lt (by omega)]
  rw [fileByte, hblock, hoffset]
  exact h.block_data hk (by omega)

theorem fillBlockbuf_at {k offset : ℕ} {self : InoContext} (hk : k < blocks)
    (hin : InBlock env e r k offset self) :
    ∃ self', fillBlockbuf env self =
        .ok (.ok (env.block (blockAddress env.entry e r k)), self') ∧
      InBlock env e r k offset self' := by
  unfold fillBlockbuf
  cases hbuf : self.blockbuf.buf with
  | some buf =>
      rw [hin.buffered buf hbuf]
      exact ⟨self, rfl, hin⟩
  | none =>
      have hreadable := (h.block_delivers hk).readable h.tableSize
      rw [← h.address_eq hk] at hreadable
      dsimp only
      rw [hin.current.address,
        readBlock_of_reads h.tableSize self ⟨h.memory _, hreadable⟩, ok_bind]
      refine ⟨_, rfl, hin.current.withBlockbuf _ _, hin.offset_eq,
        hin.offset_le, ?_⟩
      rintro b heq
      cases heq
      rfl

end File

theorem TableSize.partLen_eq (hsize : TableSize env.fs e)
    {self : InoContext} {offset : ℕ}
    (hoffset : self.blockbuf.offsetInBuf = offset) (hle : offset ≤ 4 * e)
    (remaining : ℕ) :
    partLen env self remaining = min (4 * e - offset) remaining := by
  have hblock := hsize.le
  have hleft : toSize (env.fs.blocksize - self.blockbuf.offsetInBuf) =
      4 * e - offset := by
    rw [hsize.blocksize_eq, hoffset, ← Nat.cast_sub hle]
    exact toSize_natCast (by omega)
  unfold partLen
  dsimp only
  rw [hleft]
  split
  next hlt => exact (min_eq_left hlt.le).symm
  next hge => exact (min_eq_right (by omega)).symm

theorem TableSize.wholeBlocks_eq (hsize : TableSize env.fs e)
    {self : InoContext} {offset : ℕ}
    (hoffset : self.blockbuf.offsetInBuf = offset) (remaining : ℕ) :
    wholeBlocks env self remaining =
      if offset = 0 ∧ 4 * e ≤ remaining then remaining / (4 * e) else 0 := by
  unfold wholeBlocks
  rw [hoffset, hsize.toSize_eq]

/-! ## The loops -/

/-- The end of a turn of the loop, with what is left of the current block. -/
def readPart (env : Env) (fuel remainingLen : ℕ) (done : Bytes)
    (self : InoContext) : Except Fault (Outcome Bytes) :=
  if remainingLen = 0 then .ok (.ok done, self)
  else do
    match ← fillBlockbuf env self with
    | (.error e, self) => .ok (.error e, self)
    | (.ok buf, self) => do
        cAssert (self.blockbuf.offsetInBuf < env.fs.blocksize)
          "self->blockbuf.offset_in_buf < self->fs->blocksize"
        let readlen := partLen env self remainingLen
        cAssert (readlen ≠ 0) "readlen != 0"
        let offset := self.blockbuf.offsetInBuf
        if offset + readlen ≤ buf.size then
          readLoop env fuel (wrapSub remainingLen readlen)
            (done ++ bytesFrom buf.data offset readlen)
            { self with
              blockbuf := { self.blockbuf with
                offsetInBuf := offset + readlen } }
        else .error .outOfBounds

theorem readLoop_succ (fuel remainingLen : ℕ) (done : Bytes)
    (self : InoContext) :
    readLoop env (fuel + 1) remainingLen done self =
      if remainingLen = 0 then .ok (.ok done, self)
      else (do
        match ← leaveBlock env self with
        | (.error e, self) => .ok (.error e, self)
        | (.ok (), self) =>
            match ← readWhole env self remainingLen with
            | (.error e, self) => .ok (.error e, self)
            | (.ok (bytes, remainingLen), self) =>
                readPart env fuel remainingLen (done ++ bytes) self) := rfl

namespace File

variable (h : File env e r blocks content)
include h

theorem readPart_at {fuel k offset remaining : ℕ} {done : Bytes}
    {self : InoContext} (hk : k < blocks) (hlt : offset < 4 * e)
    (hin : InBlock env e r k offset self) (hpos : 0 < remaining)
    (hsmall : remaining ≤ streamMaxTransferSize) :
    ∃ n self', n = min (4 * e - offset) remaining ∧
      readPart env fuel remaining done self =
        readLoop env fuel (remaining - n)
          (done ++ fileBytes e r content (k * (4 * e) + offset) n) self' ∧
      InBlock env e r k (offset + n) self' := by
  unfold streamMaxTransferSize at hsmall
  obtain ⟨next, hfill, hnext⟩ := h.fillBlockbuf_at hk hin
  obtain ⟨n, hn⟩ : ∃ n, n = min (4 * e - offset) remaining := ⟨_, rfl⟩
  have hroom : offset + n ≤ 4 * e := by omega
  have hsome : n ≠ 0 := by omega
  refine ⟨n, { next with
    blockbuf := { next.blockbuf with offsetInBuf := offset + n } }, hn, ?_, ?_⟩
  · unfold readPart
    rw [if_neg hpos.ne', hfill, ok_bind]
    dsimp only
    rw [h.tableSize.partLen_eq hnext.offset_eq hnext.offset_le, ← hn,
      hnext.offset_eq, h.tableSize.blocksize_eq,
      cAssert_of (decide_eq_true (by exact_mod_cast hlt)), ok_bind,
      cAssert_of (decide_eq_true hsome), ok_bind,
      Env.block_size h.tableSize, if_pos hroom, h.bytes_block hk hroom,
      wrapSub_of_le (by omega) (by omega)]
  · exact ⟨hnext.current.withBlockbuf _ _, rfl, hroom, hnext.buffered⟩

theorem readWhole_at (hahead : LookaheadReads env e r blocks)
    {k offset remaining : ℕ} {self : InoContext}
    (hk : k < blocks) (hlt : offset < 4 * e)
    (hin : InBlock env e r k offset self)
    (hfile : k * (4 * e) + offset + remaining ≤ blocks * (4 * e))
    (hsmall : remaining ≤ streamMaxTransferSize) :
    ∃ n self', n ≤ remaining ∧
      readWhole env self remaining = .ok (.ok (fileBytes e r content
        (k * (4 * e) + offset) n, remaining - n), self') ∧
      (k * (4 * e) + offset + n = blocks * (4 * e) ∧ self'.record = r ∨
        ∃ k' offset', k' < blocks ∧ offset' < 4 * e ∧
          k' * (4 * e) + offset' = k * (4 * e) + offset + n ∧
          InBlock env e r k' offset' self') := by
  have hpos : 0 < 4 * e := Nat.mul_pos (by omega) h.tableSize.pos
  have hcount := h.tableSize.wholeBlocks_eq hin.offset_eq remaining
  unfold readWhole
  dsimp only
  by_cases hwhole : offset = 0 ∧ 4 * e ≤ remaining
  · rw [if_pos hwhole] at hcount
    obtain ⟨rfl, hroom⟩ := hwhole
    rw [Nat.add_zero] at hfile ⊢
    obtain ⟨m, hm⟩ : ∃ m, remaining / (4 * e) = m + 1 :=
      Nat.exists_eq_succ_of_ne_zero (Nat.div_pos hroom hpos).ne'
    have hdiv := Nat.div_mul_le_self remaining (4 * e)
    rw [hm] at hdiv
    have hend : (k + (m + 1)) * (4 * e) ≤ blocks * (4 * e) := by
      rw [Nat.add_mul]
      omega
    have hblocks : k + (m + 1) ≤ blocks := Nat.le_of_mul_le_mul_right hend hpos
    have hlast : k + m + 1 = blocks → remaining = (m + 1) * (4 * e) := by
      intro heq
      rw [← heq, Nat.add_assoc, Nat.add_mul] at hfile
      omega
    obtain ⟨self', hok, hrecord, hnext⟩ := h.readInodeBlocks_at hahead
      hin.current (by omega) hdiv hsmall hlast
    refine ⟨(m + 1) * (4 * e), self', hdiv, ?_, ?_⟩
    · rw [hcount, hm, if_neg (Nat.succ_ne_zero m), hok]
    · rw [← Nat.add_mul]
      rcases Nat.lt_or_eq_of_le hblocks with hmore | heq
      · obtain ⟨hcurrent, hbuf⟩ := hnext hmore
        refine Or.inr ⟨k + m + 1, 0, hmore, hpos, rfl, hcurrent, ?_,
          Nat.zero_le _, ?_⟩
        · rw [hbuf]
          exact hin.offset_eq
        · rw [hbuf]
          nofun
      · exact Or.inl ⟨by rw [heq], hrecord⟩
  · rw [hcount, if_neg hwhole, if_pos rfl]
    exact ⟨0, self, Nat.zero_le _, rfl, Or.inr ⟨k, offset, hk, hlt, rfl, hin⟩⟩

theorem readLoop_at (hahead : LookaheadReads env e r blocks) (fuel : ℕ) :
    ∀ {p remaining : ℕ} (done : Bytes) {self : InoContext},
      remaining < fuel → Positioned env e r blocks p self →
      p + remaining ≤ blocks * (4 * e) →
      remaining ≤ streamMaxTransferSize →
      ∃ self', readLoop env fuel remaining done self =
          .ok (.ok (done ++ fileBytes e r content p remaining), self') ∧
        Positioned env e r blocks (p + remaining) self' := by
  induction fuel with
  | zero =>
      intro p remaining done self hfuel
      exact absurd hfuel (Nat.not_lt_zero _)
  | succ fuel ih =>
      intro p remaining done self hfuel hat hfile hsmall
      rw [readLoop_succ]
      by_cases hzero : remaining = 0
      · subst hzero
        rw [if_pos rfl]
        refine ⟨self, ?_, hat⟩
        rw [fileBytes, List.range_zero, List.map_nil, List.append_nil]
      · rw [if_neg hzero]
        obtain ⟨k, offset, hk, rfl, hin⟩ : ∃ k offset, k < blocks ∧
            p = k * (4 * e) + offset ∧ InBlock env e r k offset self := by
          rcases hat with hat | ⟨rfl, -⟩
          · exact hat
          · omega
        obtain ⟨k₁, offset₁, self₁, hleave, hk₁, hlt₁, hp₁, hin₁⟩ :=
          h.leaveBlock_at hin (by omega)
        rw [← hp₁] at hfile ⊢
        obtain ⟨n, self₂, hn, hwhole, hrest⟩ := h.readWhole_at hahead hk₁ hlt₁
          hin₁ hfile hsmall
        rw [hleave, ok_bind]
        dsimp only
        rw [hwhole, ok_bind]
        dsimp only
        by_cases hdone : remaining - n = 0
        · obtain rfl : n = remaining := by omega
          unfold readPart
          rw [if_pos hdone]
          refine ⟨self₂, rfl, ?_⟩
          rcases hrest with hend | ⟨k₂, offset₂, hk₂, hlt₂, hp₂, hin₂⟩
          · exact Or.inr hend
          · exact Or.inl ⟨k₂, offset₂, hk₂, hp₂.symm, hin₂⟩
        · rcases hrest with hend | ⟨k₂, offset₂, hk₂, hlt₂, hp₂, hin₂⟩
          · omega
          obtain ⟨m, self₃, hm, hpart, hin₃⟩ := h.readPart_at hk₂ hlt₂ hin₂
            (Nat.pos_of_ne_zero hdone)
            (le_trans (Nat.sub_le _ _) hsmall)
          have hsome : 0 < m := by omega
          have hleft : m ≤ remaining - n := hm ▸ min_le_right _ _
          have hat₃ : Positioned env e r blocks
              (k₂ * (4 * e) + (offset₂ + m)) self₃ :=
            Or.inl ⟨k₂, offset₂ + m, hk₂, rfl, hin₃⟩
          have hsum : k₂ * (4 * e) + (offset₂ + m) + (remaining - n - m) =
              k₁ * (4 * e) + offset₁ + remaining := by omega
          have hfuel' : remaining - n - m < fuel := by omega
          obtain ⟨self', hok, hat'⟩ := ih _ hfuel' hat₃ (hsum ▸ hfile)
            (le_trans (Nat.sub_le _ _) (le_trans (Nat.sub_le _ _) hsmall))
          refine ⟨self', ?_, ?_⟩
          · have hlength : n + (m + (remaining - n - m)) = remaining := by
              omega
            rw [hpart, hok, List.append_assoc, List.append_assoc,
              ← Nat.add_assoc, fileBytes_append, hp₂, fileBytes_append,
              hlength]
          · rw [← hsum]
            exact hat'

/-- Whole blocks are skipped without their bytes, up to a byte which is in
the file. -/
theorem skipWhole_at {k offset remaining : ℕ} {self : InoContext}
    (hk : k < blocks) (hin : InBlock env e r k offset self)
    (hfile : k * (4 * e) + offset + remaining < blocks * (4 * e)) :
    ∃ count self', wholeBlocks env self remaining = count ∧
      skipBlocks env count self = .ok (.ok (), self') ∧
      count * (4 * e) ≤ remaining ∧ k + count < blocks ∧
      InBlock env e r (k + count) offset (if count = 0 then self' else
        { self' with blockbuf := { self'.blockbuf with buf := none } }) := by
  have hpos : 0 < 4 * e := Nat.mul_pos (by omega) h.tableSize.pos
  rw [h.tableSize.wholeBlocks_eq hin.offset_eq]
  by_cases hwhole : offset = 0 ∧ 4 * e ≤ remaining
  · rw [if_pos hwhole]
    obtain ⟨rfl, hroom⟩ := hwhole
    have hdiv := Nat.div_mul_le_self remaining (4 * e)
    have hcount := Nat.div_pos hroom hpos
    generalize remaining / (4 * e) = count at hdiv hcount
    have hblocks : k + count < blocks := by
      apply Nat.lt_of_mul_lt_mul_right (a := 4 * e)
      rw [Nat.add_mul]
      omega
    obtain ⟨self', hok, hcurrent, hbuf⟩ :=
      h.walkable.skipBlocks count hin.current hblocks
    refine ⟨count, self', rfl, hok, hdiv, hblocks, ?_⟩
    rw [if_neg hcount.ne']
    refine ⟨hcurrent.withBlockbuf _ _, ?_, Nat.zero_le _, nofun⟩
    show self'.blockbuf.offsetInBuf = 0
    rw [hbuf]
    exact hin.offset_eq
  · rw [if_neg hwhole]
    exact ⟨0, self, rfl, rfl, by omega, hk, hin⟩

theorem skipreadLoop_at (fuel : ℕ) :
    ∀ {p remaining : ℕ} {self : InoContext},
      remaining < fuel → Positioned env e r blocks p self →
      p + remaining < blocks * (4 * e) →
      remaining ≤ streamMaxTransferSize →
      ∃ self', skipreadLoop env fuel remaining self = .ok (.ok (), self') ∧
        Positioned env e r blocks (p + remaining) self' := by
  induction fuel with
  | zero =>
      intro p remaining self hfuel
      exact absurd hfuel (Nat.not_lt_zero _)
  | succ fuel ih =>
      intro p remaining self hfuel hat hfile hsmall
      unfold skipreadLoop
      by_cases hzero : remaining = 0
      · subst hzero
        rw [if_pos rfl]
        exact ⟨self, rfl, hat⟩
      · rw [if_neg hzero]
        obtain ⟨k, offset, hk, rfl, hin⟩ : ∃ k offset, k < blocks ∧
            p = k * (4 * e) + offset ∧ InBlock env e r k offset self := by
          rcases hat with hat | ⟨rfl, -⟩
          · exact hat
          · omega
        obtain ⟨k₁, offset₁, self₁, hleave, hk₁, hlt₁, hp₁, hin₁⟩ :=
          h.leaveBlock_at hin (by omega)
        rw [← hp₁] at hfile ⊢
        obtain ⟨count, self₂, hcount, hskip, hle, hk₂, hin₂⟩ :=
          h.skipWhole_at hk₁ hin₁ hfile
        unfold streamMaxTransferSize at hsmall
        have hremaining : wrapSub remaining (wrap (toSize env.fs.blocksize *
            count)) = remaining - count * (4 * e) := by
          rw [h.readSize_eq (by omega)]
          exact wrapSub_of_le hle (by omega)
        rw [hleave, ok_bind]
        dsimp only
        rw [hcount, hskip, ok_bind]
        dsimp only
        rw [hremaining]
        generalize hself₃ : (if count = 0 then self₂ else { self₂ with
          blockbuf := { self₂.blockbuf with buf := none } }) = self₃ at hin₂ ⊢
        have hp₂ : (k₁ + count) * (4 * e) = k₁ * (4 * e) + count * (4 * e) :=
          Nat.add_mul _ _ _
        by_cases hdone : remaining - count * (4 * e) = 0
        · rw [if_pos hdone]
          refine ⟨self₃, rfl, Or.inl ⟨k₁ + count, offset₁, hk₂, ?_, hin₂⟩⟩
          omega
        · obtain ⟨n, hn⟩ : ∃ n, n = min (4 * e - offset₁)
            (remaining - count * (4 * e)) := ⟨_, rfl⟩
          have hroom : offset₁ + n ≤ 4 * e := by omega
          have hsome : n ≠ 0 := by omega
          have hat₃ : Positioned env e r blocks
              ((k₁ + count) * (4 * e) + (offset₁ + n))
              { self₃ with blockbuf := { self₃.blockbuf with
                offsetInBuf := offset₁ + n } } :=
            Or.inl ⟨k₁ + count, offset₁ + n, hk₂, rfl,
              hin₂.current.withBlockbuf _ _, rfl, hroom, hin₂.buffered⟩
          have hsum : (k₁ + count) * (4 * e) + (offset₁ + n) +
              (remaining - count * (4 * e) - n) =
              k₁ * (4 * e) + offset₁ + remaining := by omega
          have hfuel' : remaining - count * (4 * e) - n < fuel := by omega
          obtain ⟨self', hok, hat'⟩ := ih hfuel' hat₃ (hsum ▸ hfile)
            (by unfold streamMaxTransferSize; omega)
          refine ⟨self', ?_, hsum ▸ hat'⟩
          rw [if_neg hdone, hin₂.offset_eq, h.tableSize.blocksize_eq,
            cAssert_of (decide_eq_true (by exact_mod_cast hlt₁)), ok_bind,
            h.tableSize.partLen_eq hin₂.offset_eq hin₂.offset_le, ← hn,
            cAssert_of (decide_eq_true hsome), ok_bind,
            wrapSub_of_le (by omega) (by omega)]
          exact hok

/-- `read_inode` where the request stays in the file. -/
theorem readInode_at (hahead : LookaheadReads env e r blocks) {p len : ℕ}
    {self : InoContext} (hat : Positioned env e r blocks p self)
    (hfile : p + len ≤ blocks * (4 * e))
    (hsmall : len ≤ streamMaxTransferSize) :
    ∃ self', readInode env self len =
        .ok (.ok (fileBytes e r content p len), self') ∧
      Positioned env e r blocks (p + len) self' := by
  obtain ⟨self', hok, hat'⟩ := h.readLoop_at hahead (len + 1) []
    (Nat.lt_succ_self len) hat hfile hsmall
  refine ⟨self', ?_, hat'⟩
  unfold readInode
  rw [cAssert_of (decide_eq_true hsmall), ok_bind, hok, List.nil_append]

theorem skipreadInode_at {p len : ℕ} {self : InoContext}
    (hat : Positioned env e r blocks p self)
    (hfile : p + len < blocks * (4 * e))
    (hsmall : len ≤ streamMaxTransferSize) :
    ∃ self', skipreadInode env self len = .ok (.ok (), self') ∧
      Positioned env e r blocks (p + len) self' := by
  obtain ⟨self', hok, hat'⟩ := h.skipreadLoop_at (len + 1)
    (Nat.lt_succ_self len) hat hfile hsmall
  refine ⟨self', ?_, hat'⟩
  unfold skipreadInode
  rw [cAssert_of (decide_eq_true hsmall), ok_bind, hok]

end File

/-! ## Reads and skips in a row -/

/-- A call of `read_inode`, or of `skipread_inode`. -/
structure Piece where
  len : ℕ
  skipped : Bool

def total (pieces : List Piece) : ℕ := (pieces.map Piece.len).sum

/-- The buffers which the reads return, in order. -/
def readPieces (env : Env) :
    List Piece → InoContext → Except Fault (Outcome (List Bytes))
  | [], self => .ok (.ok [], self)
  | piece :: rest, self =>
      if piece.skipped then do
        match ← skipreadInode env self piece.len with
        | (.error e, self) => .ok (.error e, self)
        | (.ok (), self) => readPieces env rest self
      else do
        match ← readInode env self piece.len with
        | (.error e, self) => .ok (.error e, self)
        | (.ok bytes, self) => do
            match ← readPieces env rest self with
            | (.error e, self) => .ok (.error e, self)
            | (.ok chunks, self) => .ok (.ok (bytes :: chunks), self)

/-- The same lengths, with nothing skipped. -/
def asReads (pieces : List Piece) : List Piece :=
  pieces.map ({ · with skipped := false })

/-- What is left of the buffers without those of the skipped pieces. -/
def kept (pieces : List Piece) (chunks : List Bytes) : List Bytes :=
  ((pieces.zip chunks).filter (fun p => !p.1.skipped)).map Prod.snd

/-- Each skip leaves a byte in front of `capacity`. -/
def SkipsInside (capacity : ℕ) : ℕ → List Piece → Prop
  | _, [] => True
  | p, piece :: rest =>
      (piece.skipped = true → p + piece.len < capacity) ∧
        SkipsInside capacity (p + piece.len) rest

instance decidableSkipsInside (capacity : ℕ) :
    ∀ (p : ℕ) (pieces : List Piece), Decidable (SkipsInside capacity p pieces)
  | _, [] => inferInstanceAs (Decidable True)
  | p, piece :: rest =>
      have := decidableSkipsInside capacity (p + piece.len) rest
      inferInstanceAs (Decidable (_ ∧ _))

/-- The bytes of the pieces which are read. -/
def piecesOf (e : ℕ) (r : InodeRecord) (content : ℕ → BitVec 8) :
    ℕ → List Piece → List Bytes
  | _, [] => []
  | p, piece :: rest =>
      if piece.skipped then
        piecesOf e r content (p + piece.len) rest
      else
        fileBytes e r content p piece.len ::
          piecesOf e r content (p + piece.len) rest

theorem total_cons (piece : Piece) (rest : List Piece) :
    total (piece :: rest) = piece.len + total rest := by
  rw [total, List.map_cons, List.sum_cons]
  rfl

theorem total_asReads (pieces : List Piece) :
    total (asReads pieces) = total pieces := by
  simp only [total, asReads, List.map_map, Function.comp_def]

theorem skipsInside_asReads (capacity p : ℕ) (pieces : List Piece) :
    SkipsInside capacity p (asReads pieces) := by
  induction pieces generalizing p with
  | nil => exact trivial
  | cons piece rest ih =>
      refine ⟨?_, ih _⟩
      intro hskipped
      cases hskipped

theorem flatten_piecesOf_asReads (p : ℕ) (pieces : List Piece) :
    (piecesOf e r content p (asReads pieces)).flatten =
      fileBytes e r content p (total pieces) := by
  induction pieces generalizing p with
  | nil => rfl
  | cons piece rest ih =>
      rw [total_cons, ← fileBytes_append, ← ih]
      rfl

theorem kept_piecesOf_asReads (p : ℕ) (pieces : List Piece) :
    kept pieces (piecesOf e r content p (asReads pieces)) =
      piecesOf e r content p pieces := by
  induction pieces generalizing p with
  | nil => rfl
  | cons piece rest ih =>
      have hrest : kept (piece :: rest)
          (piecesOf e r content p (asReads (piece :: rest))) =
          if piece.skipped then
            kept rest (piecesOf e r content (p + piece.len)
              (asReads rest))
          else
            fileBytes e r content p piece.len ::
              kept rest (piecesOf e r content (p + piece.len)
                (asReads rest)) := by
        cases hskipped : piece.skipped <;>
          simp [kept, asReads, piecesOf, hskipped]
      rw [hrest, ih]
      rfl

theorem File.readPieces_at (h : File env e r blocks content)
    (hahead : LookaheadReads env e r blocks) {p : ℕ} {self : InoContext}
    {pieces : List Piece}
    (hat : Positioned env e r blocks p self)
    (hlens : ∀ piece ∈ pieces, piece.len ≤ streamMaxTransferSize)
    (hfile : p + total pieces ≤ blocks * (4 * e))
    (hskips : SkipsInside (blocks * (4 * e)) p pieces) :
    ∃ last, readPieces env pieces self =
      .ok (.ok (piecesOf e r content p pieces), last) := by
  induction pieces generalizing p self with
  | nil => exact ⟨self, rfl⟩
  | cons piece rest ih =>
      obtain ⟨hlen, hlens⟩ := List.forall_mem_cons.1 hlens
      obtain ⟨hskip, hskips⟩ := hskips
      rw [total_cons] at hfile
      by_cases hskipped : piece.skipped = true
      · obtain ⟨next, hok, hnext⟩ :=
          h.skipreadInode_at hat (hskip hskipped) hlen
        obtain ⟨last, hlast⟩ := ih hnext hlens (by omega) hskips
        refine ⟨last, ?_⟩
        rw [readPieces, if_pos hskipped, hok, ok_bind, piecesOf,
          if_pos hskipped]
        exact hlast
      · obtain ⟨next, hok, hnext⟩ := h.readInode_at hahead hat (by omega) hlen
        obtain ⟨last, hlast⟩ := ih hnext hlens (by omega) hskips
        refine ⟨last, ?_⟩
        rw [readPieces, if_neg hskipped, hok, ok_bind, piecesOf,
          if_neg hskipped]
        simp only [hlast, ok_bind]

theorem openWalk_eq (env : Env) (record : InodeRecord) (allocs : ℕ) :
    openWalk env record allocs =
      if record.directBlockPtrs.getD 0 0 = 0 then
        .error (.assertion "0 <= (ret)")
      else .ok
        { InoContext.fresh record allocs with
          nextDirectPtrIndex := 1
          currentBlockAddr := record.directBlockPtrs.getD 0 0
          cnt := 1 } := by
  have hfirst : (InoContext.fresh record allocs).nextDirectPtrIndex <
      directBlockPointerCount := Nat.zero_lt_succ 11
  have hptr : nextDirectBlockPtr (.fresh record allocs) =
      if record.directBlockPtrs.getD 0 0 = 0 then
        (.error .enoent, .fresh record allocs)
      else (.ok (record.directBlockPtrs.getD 0 0),
        { InoContext.fresh record allocs with nextDirectPtrIndex := 1 }) := rfl
  unfold openWalk firstBlock nextInodeBlock
  rw [if_pos hfirst, hptr]
  split
  next => rfl
  next => rfl

theorem openWalk_record {record : InodeRecord} {allocs : ℕ} {dir : InoContext}
    (h : openWalk env record allocs = .ok dir) : dir.record = record := by
  rw [openWalk_eq] at h
  split at h
  next => cases h
  next =>
    obtain rfl := Except.ok.inj h
    rfl

theorem File.openWalk_at (h : File env e r blocks content) {allocs : ℕ}
    {self : InoContext} (hopen : openWalk env r allocs = .ok self) :
    Positioned env e r blocks 0 self := by
  rcases Nat.eq_zero_or_pos blocks with rfl | hpos
  · exact .inr ⟨(zero_mul _).symm, openWalk_record hopen⟩
  · obtain ⟨first, _, hfirst, hcurrent, hbuf⟩ :=
      h.walkable.firstBlock hpos allocs
    obtain rfl := Except.ok.inj (hfirst.symm.trans hopen)
    refine .inl ⟨0, 0, hpos, by omega, hcurrent, ?_, Nat.zero_le _, ?_⟩
    · rw [hbuf]
      rfl
    · rw [hbuf]
      intro b hb
      cases hb

/-- The reads give the bytes of the file in order, however they are cut.  Reads
which are replaced by skips leave what the others return as it was. -/
theorem reads_give_file (h : File env e r blocks content)
    (hahead : LookaheadReads env e r blocks)
    (hmapped : r.size ≤ blocks * (4 * e)) {allocs : ℕ} {self : InoContext}
    (hopen : openWalk env r allocs = .ok self) {pieces : List Piece}
    (hlens : ∀ piece ∈ pieces, piece.len ≤ streamMaxTransferSize)
    (hsum : total pieces ≤ r.size) :
    ∃ chunks last,
      readPieces env (asReads pieces) self = .ok (.ok chunks, last) ∧
      chunks.flatten = fileBytes e r content 0 (total pieces) ∧
      (SkipsInside (blocks * (4 * e)) 0 pieces →
        ∃ last', readPieces env pieces self =
          .ok (.ok (kept pieces chunks), last')) := by
  have hat := h.openWalk_at hopen
  have hlens' : ∀ piece ∈ asReads pieces,
      piece.len ≤ streamMaxTransferSize := by
    intro piece hpiece
    obtain ⟨piece', hpiece', rfl⟩ := List.mem_map.1 hpiece
    exact hlens piece' hpiece'
  obtain ⟨last, hreads⟩ := h.readPieces_at hahead hat hlens'
    (by rw [total_asReads]; omega) (skipsInside_asReads _ _ _)
  refine ⟨_, last, hreads, flatten_piecesOf_asReads 0 pieces, ?_⟩
  intro hskips
  rw [kept_piecesOf_asReads]
  exact h.readPieces_at hahead hat hlens (by omega) hskips

theorem fourteenBlocks_addresses :
    ∀ k < 14, fileBlock sampleContent 256 fourteenBlocks k ≤ 34 := by
  decide

theorem fourteenBlocks_file :
    File sampleVolume 256 fourteenBlocks 14 sampleContent where
  toFileMap := fourteenBlocks_map
  data := by
    intro k n hk hn _ _
    have haddress := fourteenBlocks_addresses k (by omega)
    exact sampleVolume_delivers hn (by omega)

/-- The entry behind those of the file is in the same table. -/
theorem fourteenBlocks_lookahead :
    LookaheadReads sampleVolume 256 fourteenBlocks 14 where
  tables := by
    rintro addr ⟨-, hway⟩
    have hfirst : (14 - 12) / 256 = 0 := rfl
    rw [hfirst] at hway
    cases hway with
    | above later => exact absurd later (lt_irrefl 0)
    | table =>
        exact (sampleVolume_delivers Nat.one_pos
          (show 32 + 1 ≤ 512 by decide)).readable sampleVolume_tableSize
  zeroTable := fun ⟨_, _, _, htriply, _⟩ => absurd rfl htriply

/-- A block and a half are skipped between two reads. -/
def cutFourteen : List Piece := [⟨1000, false⟩, ⟨1536, true⟩, ⟨11464, false⟩]

theorem fourteenBlocks_cut :
    ∃ self, openWalk sampleVolume fourteenBlocks 0 = .ok self ∧
      ∃ chunks last,
        readPieces sampleVolume (asReads cutFourteen) self =
          .ok (.ok chunks, last) ∧
        chunks.flatten = fileBytes 256 fourteenBlocks sampleContent 0 14000 ∧
        ∃ last', readPieces sampleVolume cutFourteen self =
          .ok (.ok (kept cutFourteen chunks), last') := by
  obtain ⟨self, _, hself, _⟩ :=
    fourteenBlocks_map.walkable.firstBlock (by decide) 0
  have hlens : ∀ piece ∈ cutFourteen, piece.len ≤ streamMaxTransferSize := by
    decide
  obtain ⟨chunks, last, hreads, hbytes, hkept⟩ :=
    reads_give_file fourteenBlocks_file fourteenBlocks_lookahead (by decide)
      hself hlens (by decide)
  exact ⟨self, hself, chunks, last, hreads, hbytes, hkept (by decide)⟩

end Ext2
end Yjkos
