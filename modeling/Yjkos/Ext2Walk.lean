import Yjkos.Ext2BlockMap

/-!
# The walk over the blocks of an inode

`next_inode_block` against the block map.  The three buffered levels work in
the same way, so that one invariant describes the buffer of any of them: it
stands behind the last entry which the level has delivered.
-/

namespace Yjkos
namespace Ext2

variable {env : Env} {e : ℕ} {r : InodeRecord}

/-! ## Reading a table -/

theorem readBlocks_eq (hsize : TableSize env.fs e) (addr count : ℕ) :
    readBlocks env.fs env.disk addr count =
      .ok (env.disk (wrap (addr * (4 * e / diskBlockSize)))
        (wrap (count * (4 * e / diskBlockSize)))) := by
  unfold readBlocks
  rw [hsize.toSize_eq]
  dsimp only
  rw [decide_eq_true hsize.sectors, cAssert_true, ok_bind]

/-- A block can be buffered by the given allocation. -/
def Env.Reads (env : Env) (alloc addr : ℕ) : Prop :=
  env.memory alloc = true ∧ env.Readable addr

theorem Env.ReadsAll.reads {tables : ℕ → Prop} (h : env.ReadsAll tables)
    {addr : ℕ} (haddr : tables addr) (alloc : ℕ) : env.Reads alloc addr :=
  ⟨h.memory alloc, h.disk addr haddr⟩

theorem readBlock_of_reads (hsize : TableSize env.fs e) (self : InoContext)
    {addr : ℕ} (h : env.Reads self.allocs addr) :
    readBlock env self addr =
      .ok (.ok (env.block addr), { self with allocs := self.allocs + 1 }) := by
  obtain ⟨hmemory, data, hdata⟩ := h
  have hle := hsize.le
  rw [hsize.toSize_eq] at hdata
  have hblock : env.block addr =
      ⟨wrap (1 * toSize env.fs.blocksize), data⟩ := by
    unfold Env.block
    rw [hsize.toSize_eq, hdata, one_mul, wrap_of_lt (by omega)]
  unfold readBlock readblocksAlloc
  rw [hmemory, if_pos rfl, readBlocks_eq hsize, ok_bind, hdata, hblock]
  rfl

theorem Env.block_u32At (hsize : TableSize env.fs e) (addr : ℕ) {i : ℕ}
    (hi : i < e) :
    (env.block addr).u32At (4 * i) = .ok (env.entry addr i) := by
  have hroom : 4 * i + 4 ≤ (env.block addr).size := by
    show 4 * i + 4 ≤ toSize env.fs.blocksize
    rw [hsize.toSize_eq]
    omega
  unfold Buffer.u32At
  rw [if_pos hroom]
  rfl

/-! ## One level -/

section Level

variable (env : Env) (e : ℕ) (table : ℕ → ℕ)

/-- The buffer in front of entry `n` of the level. -/
def readyBuf (n : ℕ) : BlockBuf :=
  ⟨4 * (n % e), some (env.block (table (n / e)))⟩

/-- The level has delivered `n` entries. -/
def LevelAt : ℕ → BlockBuf → Bool → Prop
  | 0, buf, used => buf = .empty ∧ used = false
  | n + 1, buf, used => buf = (readyBuf env e table n).advance ∧ used = true

end Level

variable {table : ℕ → ℕ} {n : ℕ} {buf : BlockBuf} {used : Bool}

theorem readyBuf_entry (hsize : TableSize env.fs e) (table : ℕ → ℕ) (n : ℕ) :
    (readyBuf env e table n).entry =
      .ok (env.entry (table (n / e)) (n % e)) :=
  env.block_u32At hsize (table (n / e)) (Nat.mod_lt n hsize.pos)

theorem readyBuf_first (hn : n % e = 0) :
    readyBuf env e table n = ⟨0, some (env.block (table (n / e)))⟩ := by
  unfold readyBuf
  rw [hn]

theorem succ_mod_of_ne_zero (h : (n + 1) % e ≠ 0) :
    (n + 1) % e = n % e + 1 := by
  have hsplit := Nat.mod_add_div n e
  have hsplit' := Nat.mod_add_div (n + 1) e
  rw [Nat.succ_div_of_mod_ne_zero h] at hsplit'
  omega

theorem succ_mod_eq_zero_iff (he : 0 < e) :
    (n + 1) % e = 0 ↔ e ≤ n % e + 1 := by
  constructor
  · intro h
    have hsplit := Nat.mod_add_div n e
    have hsplit' := Nat.mod_add_div (n + 1) e
    rw [Nat.succ_div_of_mod_eq_zero h, Nat.mul_add] at hsplit'
    omega
  · intro h
    by_contra hne
    have hlt := Nat.mod_lt (n + 1) he
    rw [succ_mod_of_ne_zero hne] at hlt
    omega

theorem LevelAt.usedUp_iff (hsize : TableSize env.fs e)
    (h : LevelAt env e table n buf used) :
    buf.usedUp env.fs.blocksize = true ↔ n % e = 0 := by
  cases n with
  | zero =>
      obtain ⟨rfl, -⟩ := h
      simp [BlockBuf.usedUp, BlockBuf.empty]
  | succ n =>
      obtain ⟨rfl, -⟩ := h
      rw [succ_mod_eq_zero_iff hsize.pos]
      simp only [BlockBuf.usedUp, BlockBuf.advance, readyBuf,
        hsize.blocksize_eq, Option.isNone_some, Bool.false_or,
        decide_eq_true_eq]
      omega

theorem LevelAt.eq_readyBuf (h : LevelAt env e table n buf used)
    (hn : n % e ≠ 0) : buf = readyBuf env e table n := by
  cases n with
  | zero => exact absurd (Nat.zero_mod e) hn
  | succ n =>
      obtain ⟨rfl, -⟩ := h
      unfold readyBuf
      rw [Nat.succ_div_of_mod_ne_zero hn, succ_mod_of_ne_zero hn]
      rfl

/-! ## The triply indirect table -/

def TriplyAt (env : Env) (e : ℕ) (r : InodeRecord) (l : ℕ)
    (self : InoContext) : Prop :=
  LevelAt env e (fun _ => r.triplyindirecttable) l self.triplyIndirectBuf
    self.triplyIndirectUsed

theorem nextTriplyIndirectTable_at (hsize : TableSize env.fs e)
    {self : InoContext}
    (hread : env.Reads self.allocs r.triplyindirecttable)
    (hrecord : self.record = r) (h : TriplyAt env e r 0 self)
    (htable : r.triplyindirecttable ≠ 0) :
    nextTriplyIndirectTable env self =
      .ok (.ok (),
        { self with
          triplyIndirectBuf :=
            readyBuf env e (fun _ => r.triplyindirecttable) 0
          allocs := self.allocs + 1 }) := by
  subst hrecord
  unfold nextTriplyIndirectTable
  rw [if_neg (by simp [h.2])]
  simp only [if_neg htable, readBlock_of_reads hsize self hread, ok_bind]
  rw [readyBuf_first (Nat.zero_mod e)]

theorem nextTriplyBlockPtr_at (hsize : TableSize env.fs e) {l : ℕ}
    {self : InoContext} (hread : env.Reads self.allocs r.triplyindirecttable)
    (hrecord : self.record = r)
    (h : TriplyAt env e r l self) (hl : l < e)
    (htable : r.triplyindirecttable ≠ 0) :
    ∃ allocs,
      nextTriplyBlockPtr env self =
        .ok (.ok (triplyPtr env.entry r l),
          { self with
            triplyIndirectUsed := true
            triplyIndirectBuf :=
              (readyBuf env e (fun _ => r.triplyindirecttable) l).advance
            allocs := allocs }) := by
  have hentry := readyBuf_entry hsize (fun _ => r.triplyindirecttable) l
  rw [Nat.mod_eq_of_lt hl] at hentry
  unfold nextTriplyBlockPtr
  by_cases hzero : l % e = 0
  · obtain rfl : l = 0 := by rwa [Nat.mod_eq_of_lt hl] at hzero
    rw [if_pos ((h.usedUp_iff hsize).2 hzero),
      nextTriplyIndirectTable_at hsize hread hrecord h htable, ok_bind]
    dsimp only
    rw [hentry, ok_bind]
    exact ⟨_, rfl⟩
  · rw [if_neg (fun hused => hzero ((h.usedUp_iff hsize).1 hused)), ok_bind]
    dsimp only
    rw [h.eq_readyBuf hzero, hentry, ok_bind]
    exact ⟨_, rfl⟩

/-! ## The doubly indirect tables -/

/-- The triply indirect table has delivered a table for each one behind the
first. -/
structure DoublyAt (env : Env) (e : ℕ) (r : InodeRecord) (m : ℕ)
    (context : InoContext) : Prop where
  level : LevelAt env e (doublyTable env.entry r) m context.doublyIndirectBuf
    context.doublyIndirectUsed
  above : TriplyAt env e r ((m - 1) / e) context

theorem nextDoublyIndirectTable_at (hsize : TableSize env.fs e) {m : ℕ}
    (hs : env.ReadsAll (DoublyWay env.entry e r (m / e))) {self : InoContext}
    (hrecord : self.record = r) (h : DoublyAt env e r m self)
    (hm : m % e = 0) (hthere : DoublyThere env.entry e r (m / e)) :
    ∃ triplyBuf triplyUsed allocs,
      nextDoublyIndirectTable env self =
        .ok (.ok (),
          { self with
            doublyIndirectUsed := true
            doublyIndirectBuf := readyBuf env e (doublyTable env.entry r) m
            triplyIndirectUsed := triplyUsed
            triplyIndirectBuf := triplyBuf
            allocs := allocs }) ∧
      LevelAt env e (fun _ => r.triplyindirecttable) (m / e) triplyBuf
        triplyUsed := by
  have he := hsize.pos
  unfold nextDoublyIndirectTable
  cases m with
  | zero =>
      rw [Nat.zero_div] at hs hthere
      have hfirst : r.doublyindirecttable ≠ 0 := hthere.1
      have hread : env.Reads self.allocs r.doublyindirecttable :=
        hs.reads (.table hthere) _
      have hused : self.doublyIndirectUsed = false := h.level.2
      refine ⟨self.triplyIndirectBuf, self.triplyIndirectUsed,
        self.allocs + 1, ?_, ?_⟩
      · subst hrecord
        rw [if_neg (by simp [hused]), ok_bind]
        simp only [ne_eq, hfirst, not_false_eq_true, if_true]
        rw [readBlock_of_reads hsize { self with doublyIndirectUsed := true }
          hread, ok_bind, readyBuf_first hm, Nat.zero_div]
        rfl
      · have habove := h.above
        rw [Nat.zero_sub] at habove
        exact habove
  | succ m =>
      have hused : self.doublyIndirectUsed = true := h.level.2
      have hdiv : (m + 1) / e = m / e + 1 := Nat.succ_div_of_mod_eq_zero hm
      rw [hdiv] at hs hthere
      obtain ⟨hbound, htriply⟩ := hthere.2 (Nat.succ_pos _)
      have habove : TriplyAt env e r (m / e) self := h.above
      obtain ⟨allocs, hptr⟩ := nextTriplyBlockPtr_at hsize
        (hs.reads (.triply (Nat.succ_pos _) hbound htriply) _) hrecord habove
        hbound htriply
      refine ⟨(readyBuf env e (fun _ => r.triplyindirecttable) (m / e)).advance,
        true, allocs + 1, ?_, ?_⟩
      · have hread : ∀ alloc, env.Reads alloc (triplyPtr env.entry r (m / e)) :=
          hs.reads (.table hthere)
        rw [if_pos hused, hptr, ok_bind]
        dsimp only
        rw [readBlock_of_reads hsize _ (hread _), ok_bind, readyBuf_first hm,
          hdiv, hused]
        rfl
      · rw [hdiv]
        exact ⟨rfl, rfl⟩

theorem nextDoublyBlockPtr_at (hsize : TableSize env.fs e) {m : ℕ}
    (hs : env.ReadsAll (DoublyWay env.entry e r (m / e))) {self : InoContext}
    (hrecord : self.record = r)
    (h : DoublyAt env e r m self) (hthere : DoublyThere env.entry e r (m / e))
    (hptr : doublyPtr env.entry e r m ≠ 0) :
    ∃ triplyBuf triplyUsed allocs,
      nextDoublyBlockPtr env self =
        .ok (.ok (doublyPtr env.entry e r m),
          { self with
            doublyIndirectUsed := true
            doublyIndirectBuf :=
              (readyBuf env e (doublyTable env.entry r) m).advance
            triplyIndirectUsed := triplyUsed
            triplyIndirectBuf := triplyBuf
            allocs := allocs }) ∧
      LevelAt env e (fun _ => r.triplyindirecttable) (m / e) triplyBuf
        triplyUsed := by
  have hentry : (readyBuf env e (doublyTable env.entry r) m).entry =
      .ok (doublyPtr env.entry e r m) :=
    readyBuf_entry hsize (doublyTable env.entry r) m
  unfold nextDoublyBlockPtr
  by_cases hzero : m % e = 0
  · obtain ⟨triplyBuf, triplyUsed, allocs, hload, hlevel⟩ :=
      nextDoublyIndirectTable_at hsize hs hrecord h hzero hthere
    refine ⟨triplyBuf, triplyUsed, allocs, ?_, hlevel⟩
    rw [if_pos ((h.level.usedUp_iff hsize).2 hzero), hload, ok_bind]
    dsimp only
    rw [hentry, ok_bind, if_neg hptr]
  · have hready := h.level.eq_readyBuf hzero
    cases m with
    | zero => exact absurd (Nat.zero_mod e) hzero
    | succ m =>
        refine ⟨self.triplyIndirectBuf, self.triplyIndirectUsed, self.allocs,
          ?_, ?_⟩
        · rw [if_neg (fun hup => hzero ((h.level.usedUp_iff hsize).1 hup)),
            ok_bind]
          dsimp only
          rw [hready, hentry, ok_bind, if_neg hptr, h.level.2]
        · rw [Nat.succ_div_of_mod_ne_zero hzero]
          exact h.above

/-! ## The singly indirect tables -/

/-- The doubly indirect tables have delivered a table for each one behind
the first. -/
structure SinglyAt (env : Env) (e : ℕ) (r : InodeRecord) (n : ℕ)
    (context : InoContext) : Prop where
  level : LevelAt env e (singlyTable env.entry e r) n context.singlyIndirectBuf
    context.singlyIndirectUsed
  above : DoublyAt env e r ((n - 1) / e) context

/-- The cursors over the tables are all that differs. -/
structure InoContext.SameRest (context next : InoContext) : Prop where
  record : next.record = context.record
  currentBlockAddr : next.currentBlockAddr = context.currentBlockAddr
  nextDirectPtrIndex : next.nextDirectPtrIndex = context.nextDirectPtrIndex
  cnt : next.cnt = context.cnt
  blockbuf : next.blockbuf = context.blockbuf

theorem nextSinglyIndirectTable_at (hsize : TableSize env.fs e)
    (hs : env.ReadsAll (SinglyWay env.entry e r (n / e))) {self : InoContext}
    (hrecord : self.record = r) (h : SinglyAt env e r n self)
    (hn : n % e = 0) (hthere : SinglyThere env.entry e r (n / e)) :
    ∃ self',
      nextSinglyIndirectTable env self = .ok (.ok (), self') ∧
      self'.singlyIndirectBuf = readyBuf env e (singlyTable env.entry e r) n ∧
      self'.singlyIndirectUsed = true ∧
      DoublyAt env e r (n / e) self' ∧ self.SameRest self' := by
  unfold nextSinglyIndirectTable
  cases n with
  | zero =>
      rw [Nat.zero_div] at hs hthere
      have hfirst : r.singlyIndirectTable ≠ 0 := hthere.1
      have hread : env.Reads self.allocs r.singlyIndirectTable :=
        hs.reads (.table hthere) _
      have hused : self.singlyIndirectUsed = false := h.level.2
      have habove := h.above
      rw [Nat.zero_sub] at habove
      subst hrecord
      rw [if_neg (by simp [hused]), ok_bind]
      simp only [ne_eq, hfirst, not_false_eq_true, if_true,
        readBlock_of_reads hsize self hread, ok_bind]
      refine ⟨_, rfl, ?_, rfl, ⟨habove.level, habove.above⟩,
        ⟨rfl, rfl, rfl, rfl, rfl⟩⟩
      rw [readyBuf_first hn, Nat.zero_div]
      rfl
  | succ n =>
      have hused : self.singlyIndirectUsed = true := h.level.2
      have hdiv : (n + 1) / e = n / e + 1 := Nat.succ_div_of_mod_eq_zero hn
      rw [hdiv] at hs hthere
      have hread : ∀ alloc, env.Reads alloc (doublyPtr env.entry e r (n / e)) :=
        hs.reads (.table hthere)
      have habove : DoublyAt env e r (n / e) self := h.above
      have hreads : env.ReadsAll (DoublyWay env.entry e r (n / e / e)) :=
        hs.above (Nat.succ_pos _)
      obtain ⟨hne, hdoubly⟩ := hthere
      obtain ⟨triplyBuf, triplyUsed, allocs, hptr, hlevel⟩ :=
        nextDoublyBlockPtr_at hsize hreads hrecord habove
          (hdoubly (Nat.succ_pos _)) hne
      rw [if_pos hused, hptr, ok_bind]
      dsimp only
      rw [readBlock_of_reads hsize _ (hread _), ok_bind]
      refine ⟨_, rfl, ?_, rfl, ?_, ⟨rfl, rfl, rfl, rfl, rfl⟩⟩
      · rw [readyBuf_first hn, hdiv]
        rfl
      · rw [hdiv]
        exact ⟨⟨rfl, rfl⟩, hlevel⟩

theorem nextSinglyBlockPtr_at (hsize : TableSize env.fs e)
    (hs : env.ReadsAll (SinglyWay env.entry e r (n / e))) {self : InoContext}
    (hrecord : self.record = r)
    (h : SinglyAt env e r n self) (hthere : SinglyThere env.entry e r (n / e))
    (hptr : singlyPtr env.entry e r n ≠ 0) :
    ∃ self',
      nextSinglyBlockPtr env self =
        .ok (.ok (singlyPtr env.entry e r n), self') ∧
      SinglyAt env e r (n + 1) self' ∧ self.SameRest self' := by
  have hentry : (readyBuf env e (singlyTable env.entry e r) n).entry =
      .ok (singlyPtr env.entry e r n) :=
    readyBuf_entry hsize (singlyTable env.entry e r) n
  unfold nextSinglyBlockPtr
  by_cases hzero : n % e = 0
  · obtain ⟨self', hload, hbuf, hused, hdoubly, hrest⟩ :=
      nextSinglyIndirectTable_at hsize hs hrecord h hzero hthere
    dsimp only
    rw [if_pos ((h.level.usedUp_iff hsize).2 hzero), hload, ok_bind]
    dsimp only
    rw [hbuf, hentry, ok_bind, if_neg hptr]
    refine ⟨_, rfl, ⟨⟨rfl, hused⟩, ⟨hdoubly.level, hdoubly.above⟩⟩, ?_⟩
    exact ⟨hrest.record, hrest.currentBlockAddr, hrest.nextDirectPtrIndex,
      hrest.cnt, hrest.blockbuf⟩
  · have hready := h.level.eq_readyBuf hzero
    cases n with
    | zero => exact absurd (Nat.zero_mod e) hzero
    | succ n =>
        dsimp only
        rw [if_neg (fun hup => hzero ((h.level.usedUp_iff hsize).1 hup)),
          ok_bind]
        dsimp only
        rw [hready, hentry, ok_bind, if_neg hptr]
        refine ⟨_, rfl, ⟨⟨rfl, h.level.2⟩, ?_⟩, ⟨rfl, rfl, rfl, rfl, rfl⟩⟩
        rw [Nat.add_sub_cancel, Nat.succ_div_of_mod_ne_zero hzero]
        exact ⟨h.above.level, h.above.above⟩

/-! ## The whole walk -/

/-- `k` blocks of the inode have been delivered. -/
structure WalkAt (env : Env) (e : ℕ) (r : InodeRecord) (k : ℕ)
    (context : InoContext) : Prop where
  record : context.record = r
  direct : context.nextDirectPtrIndex = min k directBlockPointerCount
  cnt : context.cnt = k
  singly : SinglyAt env e r (k - directBlockPointerCount) context

theorem walkAt_fresh (env : Env) (e : ℕ) (r : InodeRecord) (allocs : ℕ) :
    WalkAt env e r 0 (.fresh r allocs) where
  record := rfl
  direct := rfl
  cnt := rfl
  singly :=
    { level := ⟨rfl, rfl⟩
      above :=
        { level := by
            rw [Nat.zero_sub, Nat.zero_sub, Nat.zero_div]
            exact ⟨rfl, rfl⟩
          above := by
            rw [Nat.zero_sub, Nat.zero_sub, Nat.zero_div, Nat.zero_sub,
              Nat.zero_div]
            exact ⟨rfl, rfl⟩ } }

theorem nextInodeBlock_at (hsize : TableSize env.fs e) {k : ℕ}
    (hs : env.ReadsAll (TableTo env.entry e r k)) {self : InoContext}
    (h : WalkAt env e r k self) (hmapped : Mapped env.entry e r k) :
    ∃ self',
      nextInodeBlock env self = .ok (.ok (), self') ∧
      WalkAt env e r (k + 1) self' ∧
      self'.currentBlockAddr = blockAddress env.entry e r k ∧
      self'.blockbuf = self.blockbuf := by
  have he := hsize.pos
  have haddr := hmapped.1
  unfold nextInodeBlock
  by_cases hdirect : k < 12
  · have hindex : self.nextDirectPtrIndex = k := by
      rw [h.direct]
      exact Nat.min_eq_left hdirect.le
    have haddress :
        blockAddress env.entry e r k = r.directBlockPtrs.getD k 0 := by
      unfold blockAddress
      rw [if_pos hdirect]
    have hptr : nextDirectBlockPtr self =
        (.ok (blockAddress env.entry e r k),
          { self with nextDirectPtrIndex := k + 1 }) := by
      unfold nextDirectBlockPtr
      rw [hindex, h.record, ← haddress]
      dsimp only
      rw [if_neg haddr]
    rw [if_pos (by rw [hindex]; exact hdirect), hptr, ok_bind]
    refine ⟨_, rfl, ⟨h.record, ?_, ?_, ?_⟩, rfl, rfl⟩
    · exact (Nat.min_eq_left (Nat.succ_le_of_lt hdirect)).symm
    · exact congrArg (· + 1) h.cnt
    · have hsingly := h.singly
      have hk : k - directBlockPointerCount = 0 :=
        Nat.sub_eq_zero_of_le hdirect.le
      have hk' : k + 1 - directBlockPointerCount = 0 :=
        Nat.sub_eq_zero_of_le hdirect
      rw [hk] at hsingly
      rw [hk']
      exact ⟨hsingly.level, ⟨hsingly.above.level, hsingly.above.above⟩⟩
  · have hk : 12 ≤ k := by omega
    have hindex : self.nextDirectPtrIndex = 12 := by
      rw [h.direct]
      exact Nat.min_eq_right hk
    rw [blockAddress_of_ge he hk] at haddr ⊢
    obtain ⟨self', hptr, hsingly, hrest⟩ := nextSinglyBlockPtr_at hsize
      (hs.mono fun _ hway => ⟨hk, hway⟩) h.record h.singly
      (hmapped.there he hk) haddr
    rw [if_neg (by rw [hindex]; exact lt_irrefl 12), hptr, ok_bind]
    refine ⟨_, rfl, ⟨?_, ?_, ?_, ?_⟩, rfl, hrest.blockbuf⟩
    · exact hrest.record.trans h.record
    · show self'.nextDirectPtrIndex = min (k + 1) directBlockPointerCount
      rw [hrest.nextDirectPtrIndex, hindex]
      exact (Nat.min_eq_right (by omega)).symm
    · show self'.cnt + 1 = k + 1
      rw [hrest.cnt, h.cnt]
    · have hnext : k + 1 - directBlockPointerCount =
          k - directBlockPointerCount + 1 := by
        unfold directBlockPointerCount
        omega
      rw [hnext]
      exact ⟨hsingly.level, ⟨hsingly.above.level, hsingly.above.above⟩⟩

/-- Logical block `k` is the current one. -/
structure CurrentAt (env : Env) (e : ℕ) (r : InodeRecord) (k : ℕ)
    (context : InoContext) : Prop where
  walk : WalkAt env e r (k + 1) context
  address : context.currentBlockAddr = blockAddress env.entry e r k

/-- The first `blocks` logical blocks are mapped, and the tables on the way to
them can be read. -/
structure Walkable (env : Env) (e : ℕ) (r : InodeRecord) (blocks : ℕ) :
    Prop where
  tableSize : TableSize env.fs e
  memory : ∀ n, env.memory n = true
  mapped : HoleFree env.entry e r blocks
  tables : ∀ k, k < blocks → ∀ addr, TableTo env.entry e r k addr →
    env.Readable addr

namespace Walkable

variable {blocks : ℕ} (h : Walkable env e r blocks)
include h

theorem nextInodeBlock {k : ℕ} (hk : k < blocks) {self : InoContext}
    (hat : WalkAt env e r k self) :
    ∃ self', nextInodeBlock env self = .ok (.ok (), self') ∧
      CurrentAt env e r k self' ∧ self'.blockbuf = self.blockbuf := by
  obtain ⟨self', hok, hwalk, haddress, hbuf⟩ := nextInodeBlock_at h.tableSize
    ⟨h.memory, h.tables k hk⟩ hat (h.mapped k hk)
  exact ⟨self', hok, ⟨hwalk, haddress⟩, hbuf⟩

theorem skipBlocks (calls : ℕ) :
    ∀ {k : ℕ} {self : InoContext}, CurrentAt env e r k self →
      k + calls < blocks →
      ∃ self', skipBlocks env calls self = .ok (.ok (), self') ∧
        CurrentAt env e r (k + calls) self' ∧
        self'.blockbuf = self.blockbuf := by
  induction calls with
  | zero => exact fun hat _ => ⟨_, rfl, hat, rfl⟩
  | succ calls ih =>
      intro k self hat hlt
      obtain ⟨next, hnext, hcurrent, hbuf⟩ :=
        h.nextInodeBlock (show k + 1 < blocks by omega) hat.walk
      obtain ⟨self', hrun, hcurrent', hbuf'⟩ := ih hcurrent (by omega)
      refine ⟨self', ?_, ?_, hbuf'.trans hbuf⟩
      · unfold Ext2.skipBlocks
        rw [hnext, ok_bind]
        exact hrun
      · rw [show k + (calls + 1) = k + 1 + calls by omega]
        exact hcurrent'

theorem firstBlock (hpos : 0 < blocks) (allocs : ℕ) :
    ∃ first,
      Ext2.nextInodeBlock env (.fresh r allocs) = .ok (.ok (), first) ∧
      firstBlock env (.fresh r allocs) = .ok first ∧
      CurrentAt env e r 0 first ∧ first.blockbuf = .empty := by
  obtain ⟨first, hnext, hcurrent, hbuf⟩ :=
    h.nextInodeBlock hpos (walkAt_fresh env e r allocs)
  refine ⟨first, hnext, ?_, hcurrent, hbuf⟩
  unfold Ext2.firstBlock
  rw [hnext, ok_bind]

end Walkable

/-! ## The blocks of a file -/

/-- The address of a logical block, by the tables which the disk holds. -/
def fileBlock (content : ℕ → BitVec 8) (e : ℕ) (r : InodeRecord) (k : ℕ) : ℕ :=
  blockAddress (tableEntry content e) e r k

/-- The block map of a file has no holes below its block `blocks`, the
allocations succeed, and so do the reads of the tables on the way to these
blocks, which are on the disk. -/
structure FileMap (env : Env) (e : ℕ) (r : InodeRecord) (blocks : ℕ)
    (content : ℕ → BitVec 8) : Prop where
  tableSize : TableSize env.fs e
  memory : ∀ n, env.memory n = true
  holeFree : HoleFree (tableEntry content e) e r blocks
  tables : ∀ k, k < blocks → ∀ addr,
    TableTo (tableEntry content e) e r k addr → env.Delivers e content addr 1

namespace FileMap

variable {content : ℕ → BitVec 8} {blocks k : ℕ}
  (h : FileMap env e r blocks content)
include h

theorem agree (hk : k < blocks) : AgreeOn (tableEntry content e) env.entry e
    (TableTo (tableEntry content e) e r k) :=
  agreeOn_of_delivers h.tableSize (h.tables k hk)

theorem walkable : Walkable env e r blocks where
  tableSize := h.tableSize
  memory := h.memory
  mapped := fun k hk =>
    ((h.agree hk).mapped_iff h.tableSize.pos).2 (h.holeFree k hk)
  tables := fun k hk addr haddr => (h.tables k hk addr
    (((h.agree hk).tableTo_iff h.tableSize.pos).1 haddr)).readable h.tableSize

/-- The address which is read is the one on the disk. -/
theorem address_eq (hk : k < blocks) :
    blockAddress env.entry e r k = fileBlock content e r k :=
  (h.agree hk).blockAddress_eq h.tableSize.pos (h.holeFree k hk)

end FileMap

/-- `skipBlocks` is a number of calls in a row.  They are counted from the
one which `openinode` and `rewindinode` make themselves. -/
theorem walk_delivers_blocks {content : ℕ → BitVec 8} {blocks : ℕ}
    (h : FileMap env e r blocks content) {k : ℕ} (hk : k < blocks)
    (allocs : ℕ) :
    ∃ first self',
      skipBlocks env (k + 1) (.fresh r allocs) = .ok (.ok (), self') ∧
      self'.currentBlockAddr = fileBlock content e r k ∧ self'.cnt = k + 1 ∧
      openWalk env r allocs = .ok first ∧
      (∀ self : InoContext, self.record = r → self.allocs = allocs →
        rewindinode env self = .ok first) ∧
      skipBlocks env k first = .ok (.ok (), self') := by
  obtain ⟨first, hnext, hfirst, hcurrent, -⟩ :=
    h.walkable.firstBlock (by omega) allocs
  obtain ⟨self', hrun, hat, -⟩ :=
    h.walkable.skipBlocks k hcurrent (by omega)
  rw [Nat.zero_add] at hat
  refine ⟨first, self', ?_, hat.address.trans (h.address_eq hk), hat.walk.cnt,
    hfirst, ?_, hrun⟩
  · unfold skipBlocks
    rw [hnext, ok_bind]
    exact hrun
  · rintro self rfl rfl
    exact hfirst

/-! ## A file on a partition -/

section Sample

open Disk

/-- Some bytes on a partition of 512 blocks, which starts at sector 2048. -/
def sampleDisk (content : ℕ → BitVec 8) : DiskRead :=
  diskReadOf (fun _ => .eio)
    ⟨diskBlockSize, fun pos => content (pos - 2048 * diskBlockSize), fun _ => 0⟩
    ⟨2048, 1024⟩ fun _ => 0

theorem sampleDisk_delivers {content : ℕ → BitVec 8}
    (hdisk : env.disk = sampleDisk content) (hsize : TableSize env.fs 256)
    {addr count : ℕ} (hpos : 0 < count) (hinside : addr + count ≤ 512) :
    env.Delivers 256 content addr count := by
  have hsectors : 4 * 256 / diskBlockSize = 2 := rfl
  have hpos' : 0 < count * (4 * 256 / diskBlockSize) := by
    rw [hsectors]
    omega
  have hsmall : count * (4 * 256 / diskBlockSize) < 2147483648 := by
    rw [hsectors]
    omega
  have hinside' : (addr + count) * (4 * 256 / diskBlockSize) ≤ 1024 := by
    rw [hsectors]
    omega
  have hdelivers := delivers_of_partition hdisk rfl (by decide) (by decide)
    (by decide) hpos' hsmall hinside' hsize le_rfl
  have hbytes : partitionBytes ⟨2048, 1024⟩
      (fun pos => content (pos - 2048 * diskBlockSize)) = content :=
    funext fun i => congrArg content (Nat.add_sub_cancel_left _ i)
  rwa [hbytes] at hdelivers

/-- Block 32 is a table of the blocks 33 and 34, the other bytes tell their
places. -/
def sampleContent (pos : ℕ) : BitVec 8 :=
  if pos / 1024 = 32 then
    if pos % 1024 = 0 then 33 else if pos % 1024 = 4 then 34 else 0
  else BitVec.ofNat 8 pos

def sampleVolume : Env where
  fs :=
    { totalInodes := 32
      totalBlocks := 512
      blocksize := 1024
      blocksInBlockGroup := 8192
      inodesInBlockGroup := 32
      majorVer := 0
      inodeSize := 128
      requiredFeatures := 0
      requiredFeaturesRw := 0
      blkGroupCount := 1
      blkGroupDescriptorBlk := 2 }
  disk := sampleDisk sampleContent
  memory := fun _ => true

/-- A file of fourteen blocks. -/
def fourteenBlocks : InodeRecord where
  typeandpermissions := 0x8000
  uid := 0
  lastaccesstime := 0
  creationtime := 0
  lastmodifiedtime := 0
  deletiontime := 0
  gid := 0
  hardlinks := 1
  disksectors := 30
  flags := 0
  directBlockPtrs := [20, 21, 22, 23, 24, 25, 26, 27, 28, 29, 30, 31]
  singlyIndirectTable := 32
  doublyindirecttable := 0
  triplyindirecttable := 0
  generationnumber := 0
  size := 14000

theorem sampleVolume_tableSize : TableSize sampleVolume.fs 256 :=
  ⟨rfl, 0, by decide, rfl⟩

theorem sampleVolume_delivers {addr count : ℕ} (hpos : 0 < count)
    (hinside : addr + count ≤ 512) :
    sampleVolume.Delivers 256 sampleContent addr count :=
  sampleDisk_delivers rfl sampleVolume_tableSize hpos hinside

theorem fourteenBlocks_map :
    FileMap sampleVolume 256 fourteenBlocks 14 sampleContent where
  tableSize := sampleVolume_tableSize
  memory := fun _ => rfl
  holeFree := by
    intro k hk
    unfold Mapped
    interval_cases k <;> decide
  tables := by
    rintro k hk addr ⟨hge, hway⟩
    have hfirst : (k - 12) / 256 = 0 := Nat.div_eq_of_lt (by omega)
    rw [hfirst] at hway
    cases hway with
    | above later => exact absurd later (lt_irrefl 0)
    | table => exact sampleVolume_delivers Nat.one_pos (by decide)

end Sample

theorem walk_delivers_fourteenth_block :
    ∃ first self',
      skipBlocks sampleVolume 14 (.fresh fourteenBlocks 0) =
        .ok (.ok (), self') ∧
      self'.currentBlockAddr = fileBlock sampleContent 256 fourteenBlocks 13 ∧
      self'.cnt = 14 ∧
      openWalk sampleVolume fourteenBlocks 0 = .ok first ∧
      (∀ self : InoContext, self.record = fourteenBlocks → self.allocs = 0 →
        rewindinode sampleVolume self = .ok first) ∧
      skipBlocks sampleVolume 13 first = .ok (.ok (), self') :=
  walk_delivers_blocks fourteenBlocks_map (by decide) 0

end Ext2
end Yjkos
