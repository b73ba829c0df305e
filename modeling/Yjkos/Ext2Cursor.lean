import Yjkos.Ext2Walk

/-!
# The cursor of an inode after errors

A context can be used again behind a call of `next_inode_block` which has
failed, and a level whose table could not be had then goes on with the next
table.  So the invariant of the walk is widened here: the cursor stands in
front of the entry of some logical block, the tables which it has buffered are
all mapped, and a level whose buffer is used up has asked for the tables in
front of the next one, with success or not.
-/

namespace Yjkos
namespace Ext2

/-! ## Where the cursor stands -/

section Position

variable (e : ℕ) (self : InoContext) (blocksize : ℤ)

/-- The number of an entry from the table it is in, counted by the level
above, and the offset in that table. -/
def BlockBuf.number (buf : BlockBuf) (used : Bool) (above : ℕ) : ℕ :=
  if used then
    if buf.usedUp blocksize then (above + 1) * e
    else above * e + buf.offsetInBuf / 4
  else 0

/-- The number of the entry which a level delivers next. -/
def triplyNumber : ℕ := self.triplyIndirectBuf.offsetInBuf / 4

def doublyNumber : ℕ :=
  self.doublyIndirectBuf.number e blocksize self.doublyIndirectUsed
    (triplyNumber self)

def singlyNumber : ℕ :=
  self.singlyIndirectBuf.number e blocksize self.singlyIndirectUsed
    (doublyNumber e self blocksize)

/-- The logical block in front of whose entry the cursor stands. -/
def nextLogical : ℕ :=
  if self.nextDirectPtrIndex < directBlockPointerCount then
    self.nextDirectPtrIndex
  else directBlockPointerCount + singlyNumber e self blocksize

end Position

variable {env : Env} {e : ℕ} {r : InodeRecord}

theorem readBlock_of_not_reads (hsize : TableSize env.fs e) (self : InoContext)
    {addr : ℕ} (h : ¬env.Reads self.allocs addr) :
    ∃ err, readBlock env self addr =
      .ok (.error err, { self with allocs := self.allocs + 1 }) := by
  unfold readBlock readblocksAlloc
  cases hmemory : env.memory self.allocs with
  | false => exact ⟨.enomem, rfl⟩
  | true =>
      rw [if_pos rfl, readBlocks_eq hsize, ok_bind]
      cases hdata : env.disk (wrap (addr * (4 * e / diskBlockSize)))
          (wrap (1 * (4 * e / diskBlockSize))) with
      | error err => exact ⟨err, rfl⟩
      | ok data =>
          refine absurd ⟨hmemory, data, ?_⟩ h
          rw [hsize.toSize_eq]
          exact hdata

theorem pred_mul_div (he : 0 < e) (d : ℕ) : ((d + 1) * e - 1) / e = d := by
  have hsplit : (d + 1) * e - 1 = e * d + (e - 1) := by
    rw [Nat.succ_mul, Nat.mul_comm]
    omega
  rw [hsplit, Nat.mul_add_div he, Nat.div_eq_of_lt (by omega), Nat.add_zero]

/-! ## The triply indirect table -/

/-- `l` entries have been delivered. -/
structure TriplyStands (env : Env) (e : ℕ) (r : InodeRecord) (l : ℕ)
    (buf : BlockBuf) (used : Bool) : Prop where
  level : LevelAt env e (fun _ => r.triplyindirecttable) l buf used
  bound : l ≤ e
  there : 0 < l → r.triplyindirecttable ≠ 0

/-- Entry `l` of the triply indirect table can be had. -/
def TriplyGives (env : Env) (e : ℕ) (r : InodeRecord) (alloc l : ℕ) : Prop :=
  l < e ∧ r.triplyindirecttable ≠ 0 ∧
    (l = 0 → env.Reads alloc r.triplyindirecttable)

/-- The first entry, for which the table has to be read. -/
theorem nextTriplyBlockPtr_first (hsize : TableSize env.fs e)
    {self : InoContext} (hrecord : self.record = r)
    (h : TriplyStands env e r 0 self.triplyIndirectBuf
      self.triplyIndirectUsed) :
    ∃ ret buf used allocs,
      nextTriplyBlockPtr env self = .ok (ret,
        { self with
          triplyIndirectBuf := buf
          triplyIndirectUsed := used
          allocs := allocs }) ∧
      ((∃ err, ret = .error err ∧
          (env.ReadsAll (DoublyWay env.entry e r 1) → err = .enoent) ∧
          TriplyStands env e r 0 buf used ∧
          ¬TriplyGives env e r self.allocs 0) ∨
        ret = .ok (triplyPtr env.entry r 0) ∧ TriplyStands env e r 1 buf used ∧
          TriplyGives env e r self.allocs 0 ∧ allocs = self.allocs + 1) := by
  have hentry := readyBuf_entry hsize (fun _ => r.triplyindirecttable) 0
  rw [Nat.zero_mod, readyBuf_first (Nat.zero_mod e)] at hentry
  obtain ⟨hbuf, hused⟩ : _ ∧ _ := h.level
  subst hrecord
  unfold nextTriplyBlockPtr nextTriplyIndirectTable
  rw [if_pos ((h.level.usedUp_iff hsize).2 (Nat.zero_mod e)),
    if_neg (by simp [hused])]
  dsimp only
  by_cases htable : self.record.triplyindirecttable = 0
  · rw [if_pos htable, ok_bind]
    exact ⟨_, _, self.triplyIndirectUsed, self.allocs, rfl, Or.inl ⟨_, rfl,
      fun _ => rfl, ⟨⟨rfl, hused⟩, h.bound, h.there⟩,
      fun hgives => hgives.2.1 htable⟩⟩
  rw [if_neg htable]
  by_cases hread : env.Reads self.allocs self.record.triplyindirecttable
  · rw [readBlock_of_reads hsize _ hread, ok_bind]
    dsimp only
    rw [ok_bind]
    dsimp only
    rw [hentry, ok_bind]
    refine ⟨_, _, _, _, rfl, Or.inr ⟨rfl, ⟨⟨?_, rfl⟩, hsize.pos,
      fun _ => htable⟩, ⟨hsize.pos, htable, fun _ => hread⟩, rfl⟩⟩
    rw [readyBuf_first (Nat.zero_mod e)]
  · obtain ⟨err, herr⟩ := readBlock_of_not_reads hsize _ hread
    rw [herr, ok_bind]
    dsimp only
    rw [ok_bind]
    exact ⟨_, self.triplyIndirectBuf, self.triplyIndirectUsed, _, rfl,
      Or.inl ⟨_, rfl, fun hs => absurd (hs.reads
        (.triply Nat.one_pos hsize.pos htable) _) hread, h,
        fun hgives => hread (hgives.2.2 rfl)⟩⟩

theorem nextTriplyBlockPtr_cases (hsize : TableSize env.fs e) {l : ℕ}
    {self : InoContext} (hrecord : self.record = r)
    (h : TriplyStands env e r l self.triplyIndirectBuf
      self.triplyIndirectUsed) :
    ∃ ret buf used allocs,
      nextTriplyBlockPtr env self = .ok (ret,
        { self with
          triplyIndirectBuf := buf
          triplyIndirectUsed := used
          allocs := allocs }) ∧
      ((∃ err, ret = .error err ∧
          (env.ReadsAll (DoublyWay env.entry e r (l + 1)) → err = .enoent) ∧
          TriplyStands env e r l buf used ∧
          ¬TriplyGives env e r self.allocs l) ∨
        ret = .ok (triplyPtr env.entry r l) ∧
          TriplyStands env e r (l + 1) buf used ∧
          TriplyGives env e r self.allocs l ∧
          allocs = self.allocs + if l = 0 then 1 else 0) := by
  rcases Nat.eq_zero_or_pos l with rfl | hpos
  · exact nextTriplyBlockPtr_first hsize hrecord h
  have hentry := readyBuf_entry hsize (fun _ => r.triplyindirecttable) l
  have hup := h.level.usedUp_iff hsize
  unfold nextTriplyBlockPtr
  rcases Nat.lt_or_eq_of_le h.bound with hlt | rfl
  · rw [Nat.mod_eq_of_lt hlt] at hentry hup
    have hready := h.level.eq_readyBuf (by rw [Nat.mod_eq_of_lt hlt]; omega)
    rw [if_neg (fun hnone => hpos.ne' (hup.1 hnone)), ok_bind]
    dsimp only
    rw [hready, hentry, ok_bind]
    refine ⟨_, _, _, _, rfl, Or.inr ⟨rfl, ⟨⟨rfl, rfl⟩, hlt,
      fun _ => h.there hpos⟩, ⟨hlt, h.there hpos, ?_⟩, ?_⟩⟩
    · exact fun hzero => absurd hzero hpos.ne'
    · rw [if_neg hpos.ne', Nat.add_zero]
  · have hused : self.triplyIndirectUsed = true := by
      obtain ⟨l, rfl⟩ := Nat.exists_eq_succ_of_ne_zero hpos.ne'
      exact h.level.2
    rw [if_pos (hup.2 (Nat.mod_self _))]
    unfold nextTriplyIndirectTable
    rw [if_pos hused, ok_bind]
    exact ⟨_, self.triplyIndirectBuf, self.triplyIndirectUsed, self.allocs,
      rfl, Or.inl ⟨_, rfl, fun _ => rfl, h,
        fun hgives => lt_irrefl _ hgives.1⟩⟩

/-! ## The doubly indirect tables -/

/-- The entries in front of entry `m` have been delivered or passed over. -/
structure DoublyStands (env : Env) (e : ℕ) (r : InodeRecord) (m : ℕ)
    (context : InoContext) : Prop where
  used : context.doublyIndirectUsed = decide (0 < m)
  behind : m % e = 0 →
    context.doublyIndirectBuf.usedUp env.fs.blocksize = true
  ready : m % e ≠ 0 →
    context.doublyIndirectBuf = readyBuf env e (doublyTable env.entry r) m ∧
      DoublyThere env.entry e r (m / e)
  triply : TriplyStands env e r ((m - 1) / e) context.triplyIndirectBuf
    context.triplyIndirectUsed

/-- The triply indirect table gives zero as the address of the table with
entry `m`. -/
def TriplyZero (env : Env) (e : ℕ) (r : InodeRecord) (alloc m : ℕ) : Prop :=
  0 < m ∧ m % e = 0 ∧ TriplyGives env e r alloc ((m - 1) / e) ∧
    triplyPtr env.entry r ((m - 1) / e) = 0

/-- The number of tables which are read for entry `m`. -/
def doublyLoads (e m : ℕ) : ℕ :=
  if m % e = 0 then if m = e then 2 else 1 else 0

/-- The tables for entry `m` can be read. -/
def DoublyReads (env : Env) (e : ℕ) (r : InodeRecord) (alloc m : ℕ) : Prop :=
  m % e = 0 →
    if m = e then env.Reads alloc r.triplyindirecttable ∧
      env.Reads (alloc + 1) (doublyTable env.entry r 1)
    else env.Reads alloc (doublyTable env.entry r (m / e))

/-- Entry `m` can be had and is not zero. -/
def DoublyGives (env : Env) (e : ℕ) (r : InodeRecord) (alloc m : ℕ) : Prop :=
  DoublyThere env.entry e r (m / e) ∧ DoublyReads env e r alloc m ∧
    doublyPtr env.entry e r m ≠ 0

theorem DoublyStands.withAllocs {m : ℕ} {self : InoContext}
    (h : DoublyStands env e r m self) (allocs : ℕ) :
    DoublyStands env e r m { self with allocs := allocs } :=
  ⟨h.used, h.behind, h.ready, h.triply⟩

theorem doublyStands_advanced (hsize : TableSize env.fs e) {m : ℕ}
    (self : InoContext) (hused : self.doublyIndirectUsed = true)
    (hbuf : self.doublyIndirectBuf =
      (readyBuf env e (doublyTable env.entry r) m).advance)
    (hthere : DoublyThere env.entry e r (m / e))
    (htriply : TriplyStands env e r (m / e) self.triplyIndirectBuf
      self.triplyIndirectUsed) :
    DoublyStands env e r (m + 1) self := by
  have hlevel : LevelAt env e (doublyTable env.entry r) (m + 1)
      self.doublyIndirectBuf self.doublyIndirectUsed := ⟨hbuf, hused⟩
  refine ⟨by simp [hused], (hlevel.usedUp_iff hsize).2, ?_, htriply⟩
  intro hne
  rw [Nat.succ_div_of_mod_ne_zero hne]
  exact ⟨hlevel.eq_readyBuf hne, hthere⟩

theorem doublyStands_passed (hsize : TableSize env.fs e) {d : ℕ}
    (self : InoContext) (hused : self.doublyIndirectUsed = true)
    (hbuf : self.doublyIndirectBuf.usedUp env.fs.blocksize = true)
    (htriply : TriplyStands env e r d self.triplyIndirectBuf
      self.triplyIndirectUsed) :
    DoublyStands env e r ((d + 1) * e) self := by
  have hpos : 0 < (d + 1) * e := Nat.mul_pos (Nat.succ_pos d) hsize.pos
  refine ⟨by simp [hused, hpos], fun _ => hbuf, ?_, ?_⟩
  · intro hne
    exact absurd (Nat.mul_mod_left (d + 1) e) hne
  · rw [pred_mul_div hsize.pos]
    exact htriply

/-- The first table has been passed over. -/
theorem doublyStands_passed_first (hsize : TableSize env.fs e)
    (self : InoContext) (hused : self.doublyIndirectUsed = true)
    (hbuf : self.doublyIndirectBuf.usedUp env.fs.blocksize = true)
    (htriply : TriplyStands env e r 0 self.triplyIndirectBuf
      self.triplyIndirectUsed) :
    DoublyStands env e r e self := by
  have hpassed := doublyStands_passed hsize self hused hbuf htriply
  rwa [Nat.zero_add, Nat.one_mul] at hpassed

theorem succ_mul_eq_iff (he : 0 < e) (d : ℕ) : (d + 1) * e = e ↔ d = 0 := by
  rw [Nat.succ_mul]
  constructor
  · intro heq
    have hzero : d * e = 0 := by omega
    exact (Nat.mul_eq_zero.1 hzero).resolve_right he.ne'
  · rintro rfl
    rw [Nat.zero_mul, Nat.zero_add]

/-- The first table is read at an address of the inode. -/
theorem doublyReads_first (he : 0 < e) (alloc : ℕ) :
    DoublyReads env e r alloc (0 * e) ↔
      env.Reads alloc r.doublyindirecttable := by
  unfold DoublyReads
  rw [Nat.zero_mul, if_neg he.ne, Nat.zero_div, Nat.zero_mod]
  exact forall_prop_of_true rfl

/-- A later table is read behind the triply indirect table, which has to be
read in front of its first entry only. -/
theorem doublyReads_later (he : 0 < e) {alloc l : ℕ}
    (hgives : TriplyGives env e r alloc l) :
    DoublyReads env e r alloc ((l + 1) * e) ↔
      env.Reads (alloc + if l = 0 then 1 else 0) (triplyPtr env.entry r l) := by
  unfold DoublyReads
  rw [Nat.mul_mod_left, Nat.mul_div_cancel _ he]
  simp only [succ_mul_eq_iff he, forall_const]
  split
  next hfirst =>
    subst hfirst
    exact and_iff_right (hgives.2.2 rfl)
  next => exact Iff.rfl

/-- The cursors over the doubly and triply indirect tables are all that
differs. -/
structure InoContext.SameAbove (context next : InoContext) : Prop extends
    context.SameRest next where
  singlyIndirectBuf : next.singlyIndirectBuf = context.singlyIndirectBuf
  singlyIndirectUsed : next.singlyIndirectUsed = context.singlyIndirectUsed

/-- The table is there, and the tables on the way to it can be read. -/
def DoublyLoads (env : Env) (e : ℕ) (r : InodeRecord) (alloc d : ℕ) : Prop :=
  DoublyThere env.entry e r d ∧ DoublyReads env e r alloc (d * e)

theorem nextDoublyIndirectTable_first (hsize : TableSize env.fs e)
    {self : InoContext} (hrecord : self.record = r)
    (h : DoublyStands env e r 0 self) :
    ∃ ret self', nextDoublyIndirectTable env self = .ok (ret, self') ∧
      self.SameAbove self' ∧
      ((∃ err, ret = .error err ∧
          (env.ReadsAll (DoublyWay env.entry e r 0) → err = .enoent) ∧
          DoublyStands env e r e self' ∧
          ¬DoublyLoads env e r self.allocs 0) ∨
        ret = .ok () ∧ self'.doublyIndirectUsed = true ∧
          self'.doublyIndirectBuf = readyBuf env e (doublyTable env.entry r) 0 ∧
          TriplyStands env e r 0 self'.triplyIndirectBuf
            self'.triplyIndirectUsed ∧
          DoublyLoads env e r self.allocs 0 ∧
          self'.allocs = self.allocs + 1) := by
  have he := hsize.pos
  have hused : self.doublyIndirectUsed = false := h.used
  have hup := h.behind (Nat.zero_mod e)
  have htriply := h.triply
  rw [Nat.zero_sub, Nat.zero_div] at htriply
  subst hrecord
  unfold nextDoublyIndirectTable
  rw [if_neg (by simp [hused]), ok_bind]
  by_cases htable : self.record.doublyindirecttable = 0
  · simp only [ne_eq, htable, not_true_eq_false, if_false]
    exact ⟨_, _, rfl, ⟨⟨rfl, rfl, rfl, rfl, rfl⟩, rfl, rfl⟩, Or.inl ⟨_, rfl,
      fun _ => rfl, doublyStands_passed_first hsize _ rfl rfl htriply,
      fun hloads => hloads.1.1 htable⟩⟩
  · have hthere : DoublyThere env.entry e self.record 0 :=
      doublyThere_zero.2 htable
    simp only [ne_eq, htable, not_false_eq_true, if_true]
    by_cases hread : env.Reads self.allocs self.record.doublyindirecttable
    · rw [readBlock_of_reads hsize
        { self with doublyIndirectUsed := true } hread, ok_bind]
      refine ⟨_, _, rfl, ⟨⟨rfl, rfl, rfl, rfl, rfl⟩, rfl, rfl⟩, Or.inr ⟨rfl,
        rfl, ?_, htriply, ⟨hthere, (doublyReads_first he _).2 hread⟩, rfl⟩⟩
      rw [readyBuf_first (Nat.zero_mod e), Nat.zero_div]
      rfl
    · obtain ⟨err, herr⟩ := readBlock_of_not_reads hsize
        { self with doublyIndirectUsed := true } hread
      rw [herr, ok_bind]
      exact ⟨_, _, rfl, ⟨⟨rfl, rfl, rfl, rfl, rfl⟩, rfl, rfl⟩, Or.inl ⟨_, rfl,
        fun hs => absurd (hs.reads (.table hthere) _) hread,
        doublyStands_passed_first hsize _ rfl hup htriply,
        fun hloads => hread ((doublyReads_first he _).1 hloads.2)⟩⟩

theorem nextDoublyIndirectTable_later (hsize : TableSize env.fs e)
    {self : InoContext} (hrecord : self.record = r) {l : ℕ}
    (h : DoublyStands env e r ((l + 1) * e) self)
    (hzero : ¬TriplyZero env e r self.allocs ((l + 1) * e)) :
    ∃ ret self', nextDoublyIndirectTable env self = .ok (ret, self') ∧
      self.SameAbove self' ∧
      ((∃ err m', ret = .error err ∧
          (env.ReadsAll (DoublyWay env.entry e r (l + 1)) → err = .enoent) ∧
          (l + 1) * e ≤ m' ∧ DoublyStands env e r m' self' ∧
          ¬DoublyLoads env e r self.allocs (l + 1)) ∨
        ret = .ok () ∧ self'.doublyIndirectUsed = true ∧
          self'.doublyIndirectBuf =
            readyBuf env e (doublyTable env.entry r) ((l + 1) * e) ∧
          TriplyStands env e r (l + 1) self'.triplyIndirectBuf
            self'.triplyIndirectUsed ∧
          DoublyLoads env e r self.allocs (l + 1) ∧
          self'.allocs = self.allocs + doublyLoads e ((l + 1) * e)) := by
  have he := hsize.pos
  have hpos : 0 < (l + 1) * e := Nat.mul_pos (Nat.succ_pos l) he
  have hmod := Nat.mul_mod_left (l + 1) e
  have hused : self.doublyIndirectUsed = true := by
    rw [h.used, decide_eq_true hpos]
  have hup := h.behind hmod
  have htriply := h.triply
  unfold TriplyZero at hzero
  rw [pred_mul_div he] at htriply hzero
  obtain ⟨ret, buf, used, allocs, hptr, houtcome⟩ :=
    nextTriplyBlockPtr_cases hsize hrecord htriply
  unfold nextDoublyIndirectTable
  rw [if_pos hused, hptr, ok_bind]
  rcases houtcome with ⟨err, rfl, herr, hstands, hnone⟩ |
    ⟨rfl, hstands, hgives, rfl⟩
  · refine ⟨_, _, rfl, ⟨⟨rfl, rfl, rfl, rfl, rfl⟩, rfl, rfl⟩, Or.inl ⟨_, _, rfl,
      herr, le_rfl, doublyStands_passed hsize _ hused rfl hstands, ?_⟩⟩
    rintro ⟨⟨hthere, habove⟩, hreads⟩
    obtain ⟨hbound, htable⟩ := habove (Nat.succ_pos l)
    refine hnone ⟨hbound, htable, ?_⟩
    rintro rfl
    have hreads := hreads hmod
    rw [if_pos ((succ_mul_eq_iff he 0).2 rfl)] at hreads
    exact hreads.1
  · have hthere : DoublyThere env.entry e r (l + 1) :=
      ⟨fun hnull => hzero ⟨hpos, hmod, hgives, hnull⟩,
        fun _ => ⟨hgives.1, hgives.2.1⟩⟩
    have hreads := doublyReads_later he hgives
    dsimp only
    by_cases hread : env.Reads (self.allocs + if l = 0 then 1 else 0)
        (triplyPtr env.entry r l)
    · rw [readBlock_of_reads hsize _ hread, ok_bind]
      refine ⟨_, _, rfl, ⟨⟨rfl, rfl, rfl, rfl, rfl⟩, rfl, rfl⟩, Or.inr ⟨rfl,
        hused, ?_, hstands, ⟨hthere, hreads.2 hread⟩, ?_⟩⟩
      · rw [readyBuf_first hmod, Nat.mul_div_cancel _ he]
        rfl
      · unfold doublyLoads
        rw [if_pos hmod]
        simp only [succ_mul_eq_iff he]
        split <;> rfl
    · obtain ⟨err, herr⟩ := readBlock_of_not_reads hsize
        { self with
          triplyIndirectBuf := buf
          triplyIndirectUsed := used
          allocs := self.allocs + if l = 0 then 1 else 0 } hread
      rw [herr, ok_bind]
      refine ⟨_, _, rfl, ⟨⟨rfl, rfl, rfl, rfl, rfl⟩, rfl, rfl⟩, Or.inl ⟨_,
        (l + 1 + 1) * e, rfl,
        fun hs => absurd (hs.reads (.table hthere) _) hread, ?_,
        doublyStands_passed hsize _ hused hup hstands,
        fun hloads => hread (hreads.1 hloads.2)⟩⟩
      exact Nat.mul_le_mul_right e (Nat.le_succ _)

theorem nextDoublyIndirectTable_cases (hsize : TableSize env.fs e)
    {self : InoContext} (hrecord : self.record = r) {d : ℕ}
    (h : DoublyStands env e r (d * e) self)
    (hzero : ¬TriplyZero env e r self.allocs (d * e)) :
    ∃ ret self', nextDoublyIndirectTable env self = .ok (ret, self') ∧
      self.SameAbove self' ∧
      ((∃ err m', ret = .error err ∧
          (env.ReadsAll (DoublyWay env.entry e r d) → err = .enoent) ∧
          d * e ≤ m' ∧ DoublyStands env e r m' self' ∧
          ¬DoublyLoads env e r self.allocs d) ∨
        ret = .ok () ∧ self'.doublyIndirectUsed = true ∧
          self'.doublyIndirectBuf =
            readyBuf env e (doublyTable env.entry r) (d * e) ∧
          TriplyStands env e r d self'.triplyIndirectBuf
            self'.triplyIndirectUsed ∧
          DoublyLoads env e r self.allocs d ∧
          self'.allocs = self.allocs + doublyLoads e (d * e)) := by
  cases d with
  | zero =>
      rw [Nat.zero_mul] at h ⊢
      obtain ⟨ret, self', hok, hsame, houtcome⟩ :=
        nextDoublyIndirectTable_first hsize hrecord h
      refine ⟨ret, self', hok, hsame, ?_⟩
      rcases houtcome with ⟨err, hret, herr, hstands, hnone⟩ |
        ⟨hret, hused, hbuf, htriply, hloads, hallocs⟩
      · exact Or.inl ⟨err, e, hret, herr, Nat.zero_le e, hstands, hnone⟩
      · refine Or.inr ⟨hret, hused, hbuf, htriply, hloads, ?_⟩
        rw [hallocs, doublyLoads, if_pos (Nat.zero_mod e),
          if_neg hsize.pos.ne]
  | succ l => exact nextDoublyIndirectTable_later hsize hrecord h hzero

theorem readyBuf_not_usedUp (hsize : TableSize env.fs e) (table : ℕ → ℕ)
    (n : ℕ) :
    ¬(readyBuf env e table n).usedUp env.fs.blocksize = true := by
  have hlt := Nat.mod_lt n hsize.pos
  simp only [BlockBuf.usedUp, readyBuf, hsize.blocksize_eq, Option.isNone_some,
    Bool.false_or, decide_eq_true_eq]
  omega

theorem pred_div_of_mod_ne_zero {m : ℕ} (h : m % e ≠ 0) :
    (m - 1) / e = m / e := by
  cases m with
  | zero => exact absurd (Nat.zero_mod e) h
  | succ m => exact (Nat.succ_div_of_mod_ne_zero h).symm

/-- The entry is taken from the buffer `next`, which stands in front of it. -/
theorem nextDoublyBlockPtr_of_ready (hsize : TableSize env.fs e)
    {self next : InoContext} {m : ℕ}
    (hload : (if self.doublyIndirectBuf.usedUp env.fs.blocksize then
      nextDoublyIndirectTable env self else .ok (.ok (), self)) =
        .ok (.ok (), next))
    (hsame : self.SameAbove next) (hused : next.doublyIndirectUsed = true)
    (hbuf : next.doublyIndirectBuf = readyBuf env e (doublyTable env.entry r) m)
    (hthere : DoublyThere env.entry e r (m / e))
    (htriply : TriplyStands env e r (m / e) next.triplyIndirectBuf
      next.triplyIndirectUsed) :
    ∃ ret self', nextDoublyBlockPtr env self = .ok (ret, self') ∧
      self.SameAbove self' ∧ DoublyStands env e r (m + 1) self' ∧
      self'.allocs = next.allocs ∧
      (ret = .error .enoent ∧ doublyPtr env.entry e r m = 0 ∨
        ret = .ok (doublyPtr env.entry e r m) ∧
          doublyPtr env.entry e r m ≠ 0) := by
  have hentry : next.doublyIndirectBuf.entry =
      .ok (doublyPtr env.entry e r m) := by
    rw [hbuf]
    exact readyBuf_entry hsize (doublyTable env.entry r) m
  have hstands := doublyStands_advanced hsize (m := m)
    { next with
      doublyIndirectBuf := next.doublyIndirectBuf.advance }
    hused (by rw [hbuf]) hthere htriply
  have hsame' : self.SameAbove { next with
      doublyIndirectBuf := next.doublyIndirectBuf.advance } :=
    ⟨⟨hsame.record, hsame.currentBlockAddr, hsame.nextDirectPtrIndex,
      hsame.cnt, hsame.blockbuf⟩, hsame.singlyIndirectBuf,
      hsame.singlyIndirectUsed⟩
  have hptr : nextDoublyBlockPtr env self =
      .ok (if doublyPtr env.entry e r m = 0 then
        (.error .enoent, { next with
          doublyIndirectBuf := next.doublyIndirectBuf.advance })
      else (.ok (doublyPtr env.entry e r m), { next with
        doublyIndirectBuf := next.doublyIndirectBuf.advance })) := by
    unfold nextDoublyBlockPtr
    split at hload
    next hup =>
      rw [if_pos hup, hload, ok_bind]
      dsimp only
      rw [hentry, ok_bind]
      split <;> rfl
    next hup =>
      obtain ⟨-, rfl⟩ := Prod.mk.inj (Except.ok.inj hload)
      rw [if_neg hup, ok_bind]
      dsimp only
      rw [hentry, ok_bind]
      split <;> rfl
  rw [hptr]
  split
  next hnull =>
    exact ⟨_, _, rfl, hsame', hstands, rfl, Or.inl ⟨rfl, hnull⟩⟩
  next hsome =>
    exact ⟨_, _, rfl, hsame', hstands, rfl, Or.inr ⟨rfl, hsome⟩⟩

theorem nextDoublyBlockPtr_cases (hsize : TableSize env.fs e)
    {self : InoContext} (hrecord : self.record = r) {m : ℕ}
    (h : DoublyStands env e r m self)
    (hzero : ¬TriplyZero env e r self.allocs m) :
    ∃ ret self', nextDoublyBlockPtr env self = .ok (ret, self') ∧
      self.SameAbove self' ∧
      ((∃ err m', ret = .error err ∧
          (env.ReadsAll (DoublyWay env.entry e r (m / e)) → err = .enoent) ∧
          m ≤ m' ∧ DoublyStands env e r m' self' ∧
          ¬DoublyGives env e r self.allocs m) ∨
        ret = .ok (doublyPtr env.entry e r m) ∧
          DoublyStands env e r (m + 1) self' ∧
          DoublyGives env e r self.allocs m ∧
          self'.allocs = self.allocs + doublyLoads e m) := by
  have he := hsize.pos
  by_cases hmod : m % e = 0
  · obtain ⟨d, rfl⟩ : ∃ d, m = d * e :=
      ⟨m / e, (Nat.div_mul_cancel (Nat.dvd_of_mod_eq_zero hmod)).symm⟩
    have hdiv := Nat.mul_div_cancel d he
    obtain ⟨ret, next, hload, hsame, houtcome⟩ :=
      nextDoublyIndirectTable_cases hsize hrecord h hzero
    rcases houtcome with ⟨err, m', rfl, herr, hle, hstands, hnone⟩ |
      ⟨rfl, hused, hbuf, htriply, hloads, hallocs⟩
    · unfold nextDoublyBlockPtr
      rw [if_pos (h.behind hmod), hload, ok_bind]
      refine ⟨_, _, rfl, hsame, Or.inl ⟨_, _, rfl, ?_, hle, hstands, ?_⟩⟩
      · rw [hdiv]
        exact herr
      · rintro ⟨hthere, hreads, -⟩
        rw [hdiv] at hthere
        exact hnone ⟨hthere, hreads⟩
    · have hthere : DoublyThere env.entry e r (d * e / e) := by
        rw [hdiv]
        exact hloads.1
      rw [← hdiv] at htriply
      obtain ⟨ret, self', hok, hsame', hstands, hallocs', hret⟩ :=
        nextDoublyBlockPtr_of_ready hsize
          (by rw [if_pos (h.behind hmod), hload]) hsame hused hbuf hthere
          htriply
      refine ⟨ret, self', hok, hsame', ?_⟩
      rcases hret with ⟨rfl, hnull⟩ | ⟨rfl, hsome⟩
      · exact Or.inl ⟨_, _, rfl, fun _ => rfl, Nat.le_succ _, hstands,
          fun hgives => hgives.2.2 hnull⟩
      · exact Or.inr ⟨rfl, hstands, ⟨hthere, hloads.2, hsome⟩,
          hallocs'.trans hallocs⟩
  · obtain ⟨hbuf, hthere⟩ := h.ready hmod
    have hpos : 0 < m := Nat.pos_of_ne_zero fun hnone =>
      hmod (by rw [hnone, Nat.zero_mod])
    have hused : self.doublyIndirectUsed = true := by
      rw [h.used, decide_eq_true hpos]
    have htriply := h.triply
    rw [pred_div_of_mod_ne_zero hmod] at htriply
    have hready : ¬self.doublyIndirectBuf.usedUp env.fs.blocksize = true := by
      rw [hbuf]
      exact readyBuf_not_usedUp hsize _ m
    obtain ⟨ret, self', hok, hsame', hstands, hallocs, hret⟩ :=
      nextDoublyBlockPtr_of_ready hsize (if_neg hready)
        ⟨⟨rfl, rfl, rfl, rfl, rfl⟩, rfl, rfl⟩ hused hbuf hthere htriply
    refine ⟨ret, self', hok, hsame', ?_⟩
    rcases hret with ⟨rfl, hnull⟩ | ⟨rfl, hsome⟩
    · exact Or.inl ⟨_, _, rfl, fun _ => rfl, Nat.le_succ _, hstands,
        fun hgives => hgives.2.2 hnull⟩
    · refine Or.inr ⟨rfl, hstands, ⟨hthere, fun h => absurd h hmod, hsome⟩, ?_⟩
      rw [hallocs, doublyLoads, if_neg hmod, Nat.add_zero]

/-! ## The singly indirect tables -/

/-- The entries in front of entry `n` have been delivered or passed over.  A
table whose first entry is zero stays in front of it. -/
inductive SinglyStands (env : Env) (e : ℕ) (r : InodeRecord) (n : ℕ)
    (context : InoContext) : Prop where
  | ready (used : context.singlyIndirectUsed = true)
      (buf : context.singlyIndirectBuf =
        readyBuf env e (singlyTable env.entry e r) n)
      (there : SinglyThere env.entry e r (n / e))
      (doubly : DoublyStands env e r (n / e) context)
  | behind (first : n % e = 0)
      (used : context.singlyIndirectUsed = decide (0 < n))
      (buf : context.singlyIndirectBuf.usedUp env.fs.blocksize = true)
      (doubly : DoublyStands env e r (n / e - 1) context)

/-- The table on the way to entry `n` and the tables above it are there and
can be read. -/
def SinglyLoads (env : Env) (e : ℕ) (r : InodeRecord) (alloc t : ℕ) : Prop :=
  SinglyThere env.entry e r t ∧
    if t = 0 then env.Reads alloc r.singlyIndirectTable
    else DoublyReads env e r alloc (t - 1) ∧
      env.Reads (alloc + doublyLoads e (t - 1)) (singlyTable env.entry e r t)

/-- Entry `n` can be had and is not zero. -/
def SinglyGives (env : Env) (e : ℕ) (r : InodeRecord) (n : ℕ)
    (self : InoContext) : Prop :=
  SinglyThere env.entry e r (n / e) ∧ singlyPtr env.entry e r n ≠ 0 ∧
    (self.singlyIndirectBuf.usedUp env.fs.blocksize = true →
      SinglyLoads env e r self.allocs (n / e))

theorem singlyStands_advanced (hsize : TableSize env.fs e) {n : ℕ}
    {self : InoContext} (hused : self.singlyIndirectUsed = true)
    (hbuf : self.singlyIndirectBuf =
      (readyBuf env e (singlyTable env.entry e r) n).advance)
    (hthere : SinglyThere env.entry e r (n / e))
    (hdoubly : DoublyStands env e r (n / e) self) :
    SinglyStands env e r (n + 1) self := by
  have hlevel : LevelAt env e (singlyTable env.entry e r) (n + 1)
      self.singlyIndirectBuf self.singlyIndirectUsed := ⟨hbuf, hused⟩
  by_cases hmod : (n + 1) % e = 0
  · refine .behind hmod (by simp [hused]) ((hlevel.usedUp_iff hsize).2 hmod) ?_
    rw [Nat.succ_div_of_mod_eq_zero hmod, Nat.add_sub_cancel]
    exact hdoubly
  · refine .ready hused (hlevel.eq_readyBuf hmod) ?_ ?_
    · rw [Nat.succ_div_of_mod_ne_zero hmod]
      exact hthere
    · rw [Nat.succ_div_of_mod_ne_zero hmod]
      exact hdoubly

theorem singlyStands_passed (hsize : TableSize env.fs e) {t : ℕ}
    {self : InoContext} (hused : self.singlyIndirectUsed = true)
    (hbuf : self.singlyIndirectBuf.usedUp env.fs.blocksize = true)
    (hdoubly : DoublyStands env e r t self) :
    SinglyStands env e r ((t + 1) * e) self := by
  have hpos : 0 < (t + 1) * e := Nat.mul_pos (Nat.succ_pos t) hsize.pos
  refine .behind (Nat.mul_mod_left _ _) (by simp [hused, hpos]) hbuf ?_
  rw [Nat.mul_div_cancel _ hsize.pos, Nat.add_sub_cancel]
  exact hdoubly

/-- The table is read at the address `addr`. -/
theorem nextSinglyIndirectTable_first (hsize : TableSize env.fs e)
    {self : InoContext} (hrecord : self.record = r)
    (h : DoublyStands env e r 0 self) (hused : self.singlyIndirectUsed = false)
    (hup : self.singlyIndirectBuf.usedUp env.fs.blocksize = true) :
    ∃ ret self', nextSinglyIndirectTable env self = .ok (ret, self') ∧
      self.SameRest self' ∧
      ((∃ err, ret = .error err ∧
          (env.ReadsAll (SinglyWay env.entry e r 0) → err = .enoent) ∧
          SinglyStands env e r 0 self' ∧
          ¬SinglyLoads env e r self.allocs 0) ∨
        ret = .ok () ∧ self'.singlyIndirectUsed = true ∧
          self'.singlyIndirectBuf =
            readyBuf env e (singlyTable env.entry e r) 0 ∧
          DoublyStands env e r 0 self' ∧
          SinglyLoads env e r self.allocs 0) := by
  have hmod := Nat.zero_mod e
  have hdoubly : DoublyStands env e r (0 / e - 1) self := by
    rw [Nat.zero_div]
    exact h
  subst hrecord
  unfold nextSinglyIndirectTable
  rw [if_neg (by simp [hused]), ok_bind]
  by_cases htable : self.record.singlyIndirectTable = 0
  · simp only [ne_eq, htable, not_true_eq_false, if_false]
    refine ⟨_, _, rfl, ⟨rfl, rfl, rfl, rfl, rfl⟩, Or.inl ⟨_, rfl,
      fun _ => rfl, .behind hmod hused rfl ?_, fun hloads =>
        hloads.1.1 htable⟩⟩
    exact ⟨hdoubly.used, hdoubly.behind, hdoubly.ready, hdoubly.triply⟩
  · have hthere : SinglyThere env.entry e self.record 0 :=
      singlyThere_zero.2 htable
    simp only [ne_eq, htable, not_false_eq_true, if_true]
    by_cases hread : env.Reads self.allocs self.record.singlyIndirectTable
    · rw [readBlock_of_reads hsize _ hread, ok_bind]
      refine ⟨_, _, rfl, ⟨rfl, rfl, rfl, rfl, rfl⟩, Or.inr ⟨rfl, rfl, ?_,
        ⟨h.used, h.behind, h.ready, h.triply⟩, hthere, hread⟩⟩
      rw [readyBuf_first hmod, Nat.zero_div]
      rfl
    · obtain ⟨err, herr⟩ := readBlock_of_not_reads hsize _ hread
      rw [herr, ok_bind]
      exact ⟨_, _, rfl, ⟨rfl, rfl, rfl, rfl, rfl⟩, Or.inl ⟨_, rfl,
        fun hs => absurd (hs.reads (.table hthere) _) hread,
        .behind hmod hused hup (hdoubly.withAllocs _),
        fun hloads => hread hloads.2⟩⟩

theorem nextSinglyIndirectTable_later (hsize : TableSize env.fs e)
    {self : InoContext} (hrecord : self.record = r) {s : ℕ}
    (h : DoublyStands env e r s self) (hused : self.singlyIndirectUsed = true)
    (hup : self.singlyIndirectBuf.usedUp env.fs.blocksize = true)
    (hzero : ¬TriplyZero env e r self.allocs s) :
    ∃ ret self', nextSinglyIndirectTable env self = .ok (ret, self') ∧
      self.SameRest self' ∧
      ((∃ err n', ret = .error err ∧
          (env.ReadsAll (SinglyWay env.entry e r (s + 1)) → err = .enoent) ∧
          (s + 1) * e ≤ n' ∧ SinglyStands env e r n' self' ∧
          ¬SinglyLoads env e r self.allocs (s + 1)) ∨
        ret = .ok () ∧ self'.singlyIndirectUsed = true ∧
          self'.singlyIndirectBuf =
            readyBuf env e (singlyTable env.entry e r) ((s + 1) * e) ∧
          DoublyStands env e r (s + 1) self' ∧
          SinglyLoads env e r self.allocs (s + 1)) := by
  have he := hsize.pos
  have hmod := Nat.mul_mod_left (s + 1) e
  obtain ⟨ret, next, hptr, hsame, houtcome⟩ :=
    nextDoublyBlockPtr_cases hsize hrecord h hzero
  have hrest := hsame.toSameRest
  unfold nextSinglyIndirectTable
  rw [if_pos hused, hptr, ok_bind]
  rcases houtcome with ⟨err, m', rfl, herr, hle, hstands, hnone⟩ |
    ⟨rfl, hstands, hgives, hallocs⟩
  · refine ⟨_, _, rfl, ⟨hrest.record, hrest.currentBlockAddr,
      hrest.nextDirectPtrIndex, hrest.cnt, hrest.blockbuf⟩, Or.inl ⟨_, _, rfl,
      fun _ => rfl, Nat.mul_le_mul_right e (Nat.succ_le_succ hle),
      singlyStands_passed hsize (hsame.singlyIndirectUsed.trans hused) rfl
        ⟨hstands.used, hstands.behind, hstands.ready, hstands.triply⟩, ?_⟩⟩
    rintro ⟨⟨htable, hthere⟩, hloads⟩
    rw [if_neg (Nat.succ_ne_zero s)] at hloads
    exact hnone ⟨hthere (Nat.succ_pos s), hloads.1, htable⟩
  · dsimp only
    by_cases hread : env.Reads next.allocs (doublyPtr env.entry e r s)
    · rw [readBlock_of_reads hsize _ hread, ok_bind]
      refine ⟨_, _, rfl, ⟨hrest.record, hrest.currentBlockAddr,
        hrest.nextDirectPtrIndex, hrest.cnt, hrest.blockbuf⟩, Or.inr ⟨rfl, rfl,
        ?_, ⟨hstands.used, hstands.behind, hstands.ready, hstands.triply⟩,
        ⟨hgives.2.2, fun _ => hgives.1⟩, ?_⟩⟩
      · rw [readyBuf_first hmod, Nat.mul_div_cancel _ he]
        rfl
      · rw [if_neg (Nat.succ_ne_zero s)]
        rw [hallocs] at hread
        exact ⟨hgives.2.1, hread⟩
    · obtain ⟨err, herr⟩ := readBlock_of_not_reads hsize _ hread
      rw [herr, ok_bind]
      refine ⟨_, _, rfl, ⟨hrest.record, hrest.currentBlockAddr,
        hrest.nextDirectPtrIndex, hrest.cnt, hrest.blockbuf⟩, Or.inl ⟨_, _, rfl,
        fun hs => absurd (hs.reads (.table
          ⟨hgives.2.2, fun _ => hgives.1⟩) _) hread,
        Nat.mul_le_mul_right e (Nat.le_succ (s + 1)),
        singlyStands_passed hsize (hsame.singlyIndirectUsed.trans hused) ?_
          (hstands.withAllocs _), ?_⟩⟩
      · show next.singlyIndirectBuf.usedUp env.fs.blocksize = true
        rw [hsame.singlyIndirectBuf]
        exact hup
      · rintro ⟨-, hloads⟩
        rw [if_neg (Nat.succ_ne_zero s)] at hloads
        rw [hallocs] at hread
        exact hread hloads.2

/-- The entry is taken from the buffer `next`, which stands in front of it.
Whether a zero entry is an error depends on where the buffer comes from. -/
theorem nextSinglyBlockPtr_of_ready (hsize : TableSize env.fs e)
    {self next : InoContext} {n : ℕ} {loads : Bool}
    (hloads : self.singlyIndirectBuf.usedUp env.fs.blocksize = loads)
    (hload : (if loads then nextSinglyIndirectTable env self
      else .ok (.ok (), self)) = .ok (.ok (), next))
    (hsame : self.SameRest next) (hused : next.singlyIndirectUsed = true)
    (hbuf : next.singlyIndirectBuf =
      readyBuf env e (singlyTable env.entry e r) n)
    (hthere : SinglyThere env.entry e r (n / e))
    (hdoubly : DoublyStands env e r (n / e) next) :
    ∃ ret self', nextSinglyBlockPtr env self = .ok (ret, self') ∧
      self.SameRest self' ∧
      (singlyPtr env.entry e r n = 0 ∧ SinglyStands env e r n self' ∧
          ret = (if loads then .ok 0 else .error .enoent) ∨
        singlyPtr env.entry e r n ≠ 0 ∧ SinglyStands env e r (n + 1) self' ∧
          ret = .ok (singlyPtr env.entry e r n)) := by
  have hentry : next.singlyIndirectBuf.entry =
      .ok (singlyPtr env.entry e r n) := by
    rw [hbuf]
    exact readyBuf_entry hsize (singlyTable env.entry e r) n
  have hptr : nextSinglyBlockPtr env self =
      .ok (if singlyPtr env.entry e r n = 0 then
        (if loads then .ok 0 else .error .enoent, next)
      else (.ok (singlyPtr env.entry e r n), { next with
        singlyIndirectBuf := next.singlyIndirectBuf.advance })) := by
    unfold nextSinglyBlockPtr
    dsimp only
    rw [hloads]
    cases loads with
    | false =>
        obtain ⟨-, rfl⟩ := Prod.mk.inj (Except.ok.inj hload)
        rw [if_neg Bool.false_ne_true, ok_bind]
        dsimp only
        rw [hentry, ok_bind]
        split <;> rfl
    | true =>
        rw [if_pos rfl] at hload ⊢
        rw [hload, ok_bind]
        dsimp only
        rw [hentry, ok_bind]
        split <;> rfl
  rw [hptr]
  split
  next hnull =>
    exact ⟨_, _, rfl, hsame,
      Or.inl ⟨hnull, .ready hused hbuf hthere hdoubly, rfl⟩⟩
  next hsome =>
    exact ⟨_, _, rfl, ⟨hsame.record, hsame.currentBlockAddr,
      hsame.nextDirectPtrIndex, hsame.cnt, hsame.blockbuf⟩, Or.inr ⟨hsome,
      singlyStands_advanced hsize hused (by rw [hbuf]) hthere
        ⟨hdoubly.used, hdoubly.behind, hdoubly.ready, hdoubly.triply⟩, rfl⟩⟩

/-- The next call takes a zero entry of the triply indirect table for the
address of a doubly indirect table. -/
def TakesZeroTable (env : Env) (e : ℕ) (r : InodeRecord) (n : ℕ)
    (self : InoContext) : Prop :=
  self.singlyIndirectBuf.usedUp env.fs.blocksize = true ∧ 0 < n ∧
    TriplyZero env e r self.allocs (n / e - 1)

/-- The next call reads a table whose first entry is zero. -/
def TakesZeroEntry (env : Env) (e : ℕ) (r : InodeRecord) (n : ℕ)
    (self : InoContext) : Prop :=
  self.singlyIndirectBuf.usedUp env.fs.blocksize = true ∧
    SinglyLoads env e r self.allocs (n / e) ∧ singlyPtr env.entry e r n = 0

theorem nextSinglyIndirectTable_cases (hsize : TableSize env.fs e)
    {self : InoContext} (hrecord : self.record = r) {n : ℕ}
    (h : SinglyStands env e r n self)
    (hup : self.singlyIndirectBuf.usedUp env.fs.blocksize = true)
    (hzero : ¬TakesZeroTable env e r n self) :
    ∃ ret self', nextSinglyIndirectTable env self = .ok (ret, self') ∧
      self.SameRest self' ∧
      ((∃ err n', ret = .error err ∧
          (env.ReadsAll (SinglyWay env.entry e r (n / e)) → err = .enoent) ∧
          n ≤ n' ∧ SinglyStands env e r n' self' ∧
          ¬SinglyLoads env e r self.allocs (n / e)) ∨
        ret = .ok () ∧ self'.singlyIndirectUsed = true ∧
          self'.singlyIndirectBuf =
            readyBuf env e (singlyTable env.entry e r) n ∧
          DoublyStands env e r (n / e) self' ∧
          SinglyLoads env e r self.allocs (n / e)) := by
  have he := hsize.pos
  cases h with
  | ready hused hbuf hthere hdoubly =>
      rw [hbuf] at hup
      exact absurd hup (readyBuf_not_usedUp hsize _ n)
  | behind hmod hused _ hdoubly =>
      obtain ⟨t, rfl⟩ : ∃ t, n = t * e :=
        ⟨n / e, (Nat.div_mul_cancel (Nat.dvd_of_mod_eq_zero hmod)).symm⟩
      have hdiv := Nat.mul_div_cancel t he
      rw [hdiv] at hdoubly ⊢
      cases t with
      | zero =>
          rw [Nat.zero_mul] at hused ⊢
          obtain ⟨ret, self', hok, hrest, houtcome⟩ :=
            nextSinglyIndirectTable_first hsize hrecord hdoubly hused hup
          refine ⟨ret, self', hok, hrest, ?_⟩
          rcases houtcome with ⟨err, hret, herr, hstands, hnone⟩ | houtcome
          · exact Or.inl ⟨err, 0, hret, herr, le_rfl, hstands, hnone⟩
          · exact Or.inr houtcome
      | succ s =>
          have hpos : 0 < (s + 1) * e := Nat.mul_pos (Nat.succ_pos s) he
          rw [decide_eq_true hpos] at hused
          rw [Nat.add_sub_cancel] at hdoubly
          refine nextSinglyIndirectTable_later hsize hrecord hdoubly hused hup
            fun htriply => hzero ⟨hup, hpos, ?_⟩
          rw [hdiv, Nat.add_sub_cancel]
          exact htriply

theorem nextSinglyBlockPtr_cases (hsize : TableSize env.fs e)
    {self : InoContext} (hrecord : self.record = r) {n : ℕ}
    (h : SinglyStands env e r n self)
    (hzero : ¬TakesZeroTable env e r n self) :
    ∃ ret self', nextSinglyBlockPtr env self = .ok (ret, self') ∧
      self.SameRest self' ∧
      ((∃ err n', ret = .error err ∧
          (env.ReadsAll (SinglyWay env.entry e r (n / e)) → err = .enoent) ∧
          n ≤ n' ∧ SinglyStands env e r n' self' ∧
          ¬SinglyGives env e r n self ∧ ¬TakesZeroEntry env e r n self) ∨
        ret = .ok 0 ∧ SinglyStands env e r n self' ∧
          TakesZeroEntry env e r n self ∨
        ret = .ok (singlyPtr env.entry e r n) ∧
          SinglyStands env e r (n + 1) self' ∧
          SinglyGives env e r n self ∧ ¬TakesZeroEntry env e r n self) := by
  cases hup : self.singlyIndirectBuf.usedUp env.fs.blocksize with
  | true =>
      obtain ⟨ret, next, hload, hrest, houtcome⟩ :=
        nextSinglyIndirectTable_cases hsize hrecord h hup hzero
      rcases houtcome with ⟨err, n', rfl, herr, hle, hstands, hnone⟩ |
        ⟨rfl, hused, hbuf, hdoubly, hloads⟩
      · unfold nextSinglyBlockPtr
        dsimp only
        rw [if_pos hup, hload, ok_bind]
        exact ⟨_, _, rfl, hrest, Or.inl ⟨_, _, rfl, herr, hle, hstands,
          fun hgives => hnone (hgives.2.2 hup), fun htakes => hnone htakes.2.1⟩⟩
      · obtain ⟨ret, self', hok, hrest', hret⟩ := nextSinglyBlockPtr_of_ready
          hsize hup (by rw [if_pos rfl, hload]) hrest hused hbuf hloads.1
          hdoubly
        refine ⟨ret, self', hok, hrest', ?_⟩
        rcases hret with ⟨hnull, hstands, rfl⟩ | ⟨hsome, hstands, rfl⟩
        · exact Or.inr (Or.inl ⟨rfl, hstands, hup, hloads, hnull⟩)
        · exact Or.inr (Or.inr ⟨rfl, hstands,
            ⟨hloads.1, hsome, fun _ => hloads⟩, fun htakes => hsome htakes.2.2⟩)
  | false =>
      have hready : ¬self.singlyIndirectBuf.usedUp env.fs.blocksize = true := by
        rw [hup]
        exact Bool.false_ne_true
      cases h with
      | behind _ _ hbuf _ => exact absurd hbuf hready
      | ready hused hbuf hthere hdoubly =>
          obtain ⟨ret, self', hok, hrest, hret⟩ := nextSinglyBlockPtr_of_ready
            hsize hup (if_neg Bool.false_ne_true) ⟨rfl, rfl, rfl, rfl, rfl⟩
            hused hbuf hthere hdoubly
          refine ⟨ret, self', hok, hrest, ?_⟩
          rcases hret with ⟨hnull, hstands, rfl⟩ | ⟨hsome, hstands, rfl⟩
          · exact Or.inl ⟨_, _, rfl, fun _ => rfl, le_rfl, hstands,
              fun hgives => hgives.2.1 hnull, fun htakes => hready htakes.1⟩
          · exact Or.inr (Or.inr ⟨rfl, hstands,
              ⟨hthere, hsome, fun h => absurd h hready⟩,
              fun htakes => hready htakes.1⟩)

/-! ## The whole cursor -/

/-- The blocks in front of logical block `p` have been delivered or passed
over. -/
structure Stands (env : Env) (e : ℕ) (r : InodeRecord) (p : ℕ)
    (context : InoContext) : Prop where
  record : context.record = r
  direct : context.nextDirectPtrIndex = min p directBlockPointerCount
  singly : SinglyStands env e r (p - directBlockPointerCount) context

theorem SinglyThere.loads {alloc t : ℕ} (he : 0 < e)
    (hthere : SinglyThere env.entry e r t)
    (hs : env.ReadsAll (SinglyWay env.entry e r t)) :
    SinglyLoads env e r alloc t := by
  refine ⟨hthere, ?_⟩
  split
  next hzero =>
    subst hzero
    exact hs.reads (.table hthere) _
  next hlater =>
    have ht : 0 < t := Nat.pos_of_ne_zero hlater
    have habove := hs.above ht
    have hdoubly := hthere.2 ht
    refine ⟨?_, hs.reads (.table hthere) _⟩
    intro _
    split
    next hrow =>
      rw [hrow, Nat.div_self he] at habove hdoubly
      obtain ⟨hbound, htriply⟩ := hdoubly.2 Nat.one_pos
      exact ⟨habove.reads (.triply Nat.one_pos hbound htriply) _,
        habove.reads (.table hdoubly) _⟩
    next => exact habove.reads (.table hdoubly) _

theorem Stands.singly_behind (hsize : TableSize env.fs e)
    {p : ℕ} {self : InoContext} (h : Stands env e r p self)
    (hup : self.singlyIndirectBuf.usedUp env.fs.blocksize = true) :
    (p - 12) % e = 0 := by
  cases h.singly with
  | ready _ hbuf =>
      rw [hbuf] at hup
      exact absurd hup (readyBuf_not_usedUp hsize _ _)
  | behind hmod => exact hmod

/-- One of the two ways in which the next call takes a zero for an address. -/
def TakesZero (env : Env) (e : ℕ) (r : InodeRecord) (p : ℕ)
    (self : InoContext) : Prop :=
  directBlockPointerCount ≤ p ∧
    (TakesZeroTable env e r (p - directBlockPointerCount) self ∨
      TakesZeroEntry env e r (p - directBlockPointerCount) self)

theorem stands_fresh (hsize : TableSize env.fs e) (r : InodeRecord)
    (allocs : ℕ) : Stands env e r 0 (.fresh r allocs) := by
  have he := hsize.pos
  have hmod := Nat.zero_mod e
  refine ⟨rfl, rfl, .behind hmod rfl rfl ⟨?_, ?_, ?_, ?_⟩⟩
  · rw [Nat.zero_sub, Nat.zero_div]
    rfl
  · exact fun _ => rfl
  · rw [Nat.zero_sub, Nat.zero_div]
    exact fun hne => absurd hmod hne
  · rw [Nat.zero_sub, Nat.zero_div, Nat.zero_sub, Nat.zero_div]
    exact ⟨⟨rfl, rfl⟩, Nat.zero_le e, fun h => absurd h (lt_irrefl 0)⟩

theorem Stands.direct_lt_iff {p : ℕ} {self : InoContext}
    (h : Stands env e r p self) :
    self.nextDirectPtrIndex < directBlockPointerCount ↔
      p < directBlockPointerCount := by
  rw [h.direct]
  omega

/-- The cursors over the tables are the same. -/
structure InoContext.SameTables (context next : InoContext) : Prop where
  singlyBuf : next.singlyIndirectBuf = context.singlyIndirectBuf
  singlyUsed : next.singlyIndirectUsed = context.singlyIndirectUsed
  doublyBuf : next.doublyIndirectBuf = context.doublyIndirectBuf
  doublyUsed : next.doublyIndirectUsed = context.doublyIndirectUsed
  triplyBuf : next.triplyIndirectBuf = context.triplyIndirectBuf
  triplyUsed : next.triplyIndirectUsed = context.triplyIndirectUsed

theorem DoublyStands.same {m : ℕ} {self next : InoContext}
    (h : DoublyStands env e r m self) (hsame : self.SameTables next) :
    DoublyStands env e r m next := by
  obtain ⟨hused, hbehind, hready, htriply⟩ := h
  rw [← hsame.doublyBuf] at hbehind hready
  rw [← hsame.triplyBuf, ← hsame.triplyUsed] at htriply
  exact ⟨hsame.doublyUsed.trans hused, hbehind, hready, htriply⟩

theorem SinglyStands.same {n : ℕ} {self next : InoContext}
    (h : SinglyStands env e r n self) (hsame : self.SameTables next) :
    SinglyStands env e r n next := by
  cases h with
  | ready hused hbuf hthere hdoubly =>
      exact .ready (hsame.singlyUsed.trans hused) (hsame.singlyBuf.trans hbuf)
        hthere (hdoubly.same hsame)
  | behind hmod hused hbuf hdoubly =>
      rw [← hsame.singlyBuf] at hbuf
      exact .behind hmod (hsame.singlyUsed.trans hused) hbuf
        (hdoubly.same hsame)

theorem Stands.same {p : ℕ} {self next : InoContext}
    (h : Stands env e r p self) (hrecord : next.record = self.record)
    (hindex : next.nextDirectPtrIndex = self.nextDirectPtrIndex)
    (hsame : self.SameTables next) : Stands env e r p next :=
  ⟨hrecord.trans h.record, hindex.trans h.direct, h.singly.same hsame⟩

/-- The direct pointers. -/
theorem nextInodeBlock_direct {p : ℕ} {self : InoContext}
    (h : Stands env e r p self) (hp : p < directBlockPointerCount) :
    ∃ ret self', nextInodeBlock env self = .ok (ret, self') ∧
      self'.blockbuf = self.blockbuf ∧
      (ret = .error .enoent ∧ Stands env e r p self' ∧ ¬Mapped env.entry e r p ∧
          self'.currentBlockAddr = self.currentBlockAddr ∨
        ret = .ok () ∧ Stands env e r (p + 1) self' ∧ Mapped env.entry e r p ∧
          self'.currentBlockAddr = blockAddress env.entry e r p) := by
  have hlt : p < 12 := hp
  have hindex : self.nextDirectPtrIndex = p := by
    rw [h.direct]
    exact min_eq_left hp.le
  have haddress :
      blockAddress env.entry e r p = r.directBlockPtrs.getD p 0 := by
    unfold blockAddress
    rw [if_pos hlt]
  have hmapped : Mapped env.entry e r p ↔ blockAddress env.entry e r p ≠ 0 := by
    unfold Mapped
    rw [if_pos hlt, and_true]
  have hptr : nextDirectBlockPtr self =
      if blockAddress env.entry e r p = 0 then (.error .enoent, self)
      else (.ok (blockAddress env.entry e r p),
        { self with nextDirectPtrIndex := p + 1 }) := by
    unfold nextDirectBlockPtr
    rw [hindex, h.record, ← haddress]
  unfold nextInodeBlock
  rw [if_pos (h.direct_lt_iff.2 hp), hptr]
  by_cases hnull : blockAddress env.entry e r p = 0
  · rw [if_pos hnull, ok_bind]
    exact ⟨_, _, rfl, rfl, Or.inl ⟨rfl, h, fun hm => hmapped.1 hm hnull, rfl⟩⟩
  · rw [if_neg hnull, ok_bind]
    have hnext : p + 1 - directBlockPointerCount =
        p - directBlockPointerCount := by
      unfold directBlockPointerCount
      omega
    refine ⟨_, _, rfl, rfl, Or.inr ⟨rfl, ⟨h.record, ?_, ?_⟩,
      hmapped.2 hnull, rfl⟩⟩
    · exact (min_eq_left (Nat.succ_le_of_lt hp)).symm
    · rw [hnext]
      exact h.singly.same ⟨rfl, rfl, rfl, rfl, rfl, rfl⟩

/-- The outcomes of a call which takes no zero for a table. -/
theorem nextInodeBlock_cases (hsize : TableSize env.fs e) {p : ℕ}
    {self : InoContext} (h : Stands env e r p self)
    (hzero : ¬(directBlockPointerCount ≤ p ∧
      TakesZeroTable env e r (p - directBlockPointerCount) self)) :
    ∃ ret self', nextInodeBlock env self = .ok (ret, self') ∧
      self'.blockbuf = self.blockbuf ∧
      ((∃ err p', ret = .error err ∧
          (env.ReadsAll (TableTo env.entry e r p) → err = .enoent) ∧
          p ≤ p' ∧ Stands env e r p' self' ∧ ¬TakesZero env e r p self ∧
          (env.ReadsAll (TableTo env.entry e r p) → ¬Mapped env.entry e r p) ∧
          self'.currentBlockAddr = self.currentBlockAddr) ∨
        ret = .ok () ∧ Stands env e r p self' ∧ TakesZero env e r p self ∧
          ¬Mapped env.entry e r p ∧ self'.currentBlockAddr = 0 ∨
        ret = .ok () ∧ Stands env e r (p + 1) self' ∧
          ¬TakesZero env e r p self ∧ Mapped env.entry e r p ∧
          self'.currentBlockAddr = blockAddress env.entry e r p) := by
  rcases Nat.lt_or_ge p directBlockPointerCount with hlt | hge
  · have htakes : ¬TakesZero env e r p self :=
      fun htakes => absurd htakes.1 (Nat.not_le_of_lt hlt)
    obtain ⟨ret, self', hok, hbuf, houtcome⟩ := nextInodeBlock_direct h hlt
    refine ⟨ret, self', hok, hbuf, ?_⟩
    rcases houtcome with ⟨hret, hstands, hmapped, hcurrent⟩ |
      ⟨hret, hstands, hmapped, hcurrent⟩
    · exact Or.inl ⟨_, p, hret, fun _ => rfl, le_rfl, hstands, htakes,
        fun _ => hmapped, hcurrent⟩
    · exact Or.inr (Or.inr ⟨hret, hstands, htakes, hmapped, hcurrent⟩)
  have hindex : ¬self.nextDirectPtrIndex < directBlockPointerCount := by
    rw [h.direct_lt_iff]
    exact Nat.not_lt_of_le hge
  have hmapped : Mapped env.entry e r p ↔ _ := mapped_iff hsize.pos hge
  have htakes : TakesZero env e r p self ↔
      TakesZeroEntry env e r (p - directBlockPointerCount) self :=
    ⟨fun htakes => htakes.2.resolve_left fun h => hzero ⟨hge, h⟩,
      fun h => ⟨hge, Or.inr h⟩⟩
  have haddress : blockAddress env.entry e r p =
      singlyPtr env.entry e r (p - directBlockPointerCount) :=
    blockAddress_of_ge hsize.pos hge
  have hnext : ∀ p', p ≤ p' → min p' directBlockPointerCount =
      self.nextDirectPtrIndex := by
    intro p' hle
    rw [h.direct, min_eq_right (hge.trans hle), min_eq_right hge]
  rw [htakes, hmapped, haddress]
  obtain ⟨ret, next, hptr, hrest, houtcome⟩ := nextSinglyBlockPtr_cases hsize
    h.record h.singly fun h => hzero ⟨hge, h⟩
  have hrecord := hrest.record.trans h.record
  unfold nextInodeBlock
  rw [if_neg hindex, hptr, ok_bind]
  rcases houtcome with ⟨err, n', rfl, herr, hle, hstands, hnone, hentry⟩ |
    ⟨rfl, hstands, hentry⟩ | ⟨rfl, hstands, hgives, hentry⟩
  · refine ⟨_, _, rfl, hrest.blockbuf, Or.inl ⟨_,
      directBlockPointerCount + n', rfl,
      fun hs => herr (hs.mono fun _ hway => ⟨hge, hway⟩), by omega,
      ⟨hrecord, ?_, ?_⟩, hentry, ?_, hrest.currentBlockAddr⟩⟩
    · rw [hrest.nextDirectPtrIndex, hnext _ (by omega)]
    · rw [Nat.add_sub_cancel_left]
      exact hstands
    · rintro hs ⟨hthere, hsome⟩
      exact hnone ⟨hthere, hsome, fun _ => hthere.loads hsize.pos
        (hs.mono fun _ hway => ⟨hge, hway⟩)⟩
  · refine ⟨_, _, rfl, hrest.blockbuf, Or.inr (Or.inl ⟨rfl, ⟨hrecord, ?_,
      hstands.same ⟨rfl, rfl, rfl, rfl, rfl, rfl⟩⟩, hentry, ?_, rfl⟩)⟩
    · rw [hnext p le_rfl]
      exact hrest.nextDirectPtrIndex
    · exact fun hm => hm.2 hentry.2.2
  · refine ⟨_, _, rfl, hrest.blockbuf, Or.inr (Or.inr ⟨rfl, ⟨hrecord, ?_, ?_⟩,
      hentry, ⟨hgives.1, hgives.2.1⟩, rfl⟩)⟩
    · rw [hnext _ (Nat.le_succ p)]
      exact hrest.nextDirectPtrIndex
    · rw [Nat.succ_sub hge]
      exact hstands.same ⟨rfl, rfl, rfl, rfl, rfl, rfl⟩

/-! ## From the walk to the cursor -/

section Walk

variable {self : InoContext}

/-- The tables of the blocks in front of block `k` are there. -/
theorem HoleFree.singlyThere (he : 0 < e) {k t : ℕ}
    (hfree : HoleFree env.entry e r k) (ht : 12 + t * e < k) :
    SinglyThere env.entry e r t := by
  have hthere := (hfree (12 + t * e) ht).there he (Nat.le_add_right 12 _)
  rwa [Nat.add_sub_cancel_left, Nat.mul_div_cancel t he] at hthere

theorem HoleFree.doublyThere (he : 0 < e) {k m : ℕ}
    (hfree : HoleFree env.entry e r k) (hm : 12 + (m + 1) * e < k) :
    DoublyThere env.entry e r (m / e) := by
  have hthere := (hfree.singlyThere he hm).2 (Nat.succ_pos m)
  rwa [Nat.add_sub_cancel] at hthere

theorem TriplyAt.stands (he : 0 < e) {k l : ℕ}
    (hfree : HoleFree env.entry e r k)
    (hl : 0 < l → 12 + (l * e + 1) * e < k) (h : TriplyAt env e r l self) :
    TriplyStands env e r l self.triplyIndirectBuf self.triplyIndirectUsed := by
  have hthere : 0 < l → l ≤ e ∧ r.triplyindirecttable ≠ 0 := by
    intro hpos
    have hdoubly := hfree.doublyThere he (hl hpos)
    rw [Nat.mul_div_cancel l he] at hdoubly
    exact hdoubly.2 hpos
  refine ⟨h, ?_, fun hpos => (hthere hpos).2⟩
  rcases Nat.eq_zero_or_pos l with rfl | hpos
  · exact Nat.zero_le e
  · exact (hthere hpos).1

theorem DoublyAt.stands (hsize : TableSize env.fs e) {k m : ℕ}
    (hfree : HoleFree env.entry e r k) (hm : 0 < m → 12 + m * e < k)
    (h : DoublyAt env e r m self) : DoublyStands env e r m self := by
  have he := hsize.pos
  refine ⟨?_, (h.level.usedUp_iff hsize).2, ?_, h.above.stands he hfree ?_⟩
  · cases m with
    | zero => exact h.level.2
    | succ m => exact h.level.2.trans (decide_eq_true (Nat.succ_pos m)).symm
  · intro hmod
    refine ⟨h.level.eq_readyBuf hmod, ?_⟩
    obtain ⟨m, rfl⟩ : ∃ i, m = i + 1 := by
      refine Nat.exists_eq_succ_of_ne_zero ?_
      rintro rfl
      exact hmod (Nat.zero_mod e)
    have hdoubly := hfree.doublyThere he (hm (Nat.succ_pos m))
    rwa [Nat.succ_div_of_mod_ne_zero hmod]
  · intro hpos
    have hm' : 0 < m := by
      by_contra hnone
      rw [Nat.eq_zero_of_not_pos hnone, Nat.zero_sub, Nat.zero_div] at hpos
      exact lt_irrefl 0 hpos
    have hle := Nat.div_mul_le_self (m - 1) e
    have hmul := Nat.mul_le_mul_right e (show (m - 1) / e * e + 1 ≤ m by omega)
    have hlt := hm hm'
    omega

theorem SinglyAt.stands (hsize : TableSize env.fs e) {k n : ℕ}
    (hfree : HoleFree env.entry e r k) (hn : 0 < n → 12 + n ≤ k)
    (h : SinglyAt env e r n self) : SinglyStands env e r n self := by
  have he := hsize.pos
  have hdoubly : DoublyStands env e r ((n - 1) / e) self := by
    refine h.above.stands hsize hfree fun hpos => ?_
    have hle := Nat.div_mul_le_self (n - 1) e
    have hmul := Nat.mul_pos hpos he
    have hlast := hn (by omega)
    omega
  by_cases hmod : n % e = 0
  · refine .behind hmod ?_ ((h.level.usedUp_iff hsize).2 hmod) ?_
    · cases n with
      | zero => exact h.level.2
      | succ n => exact h.level.2.trans (decide_eq_true (Nat.succ_pos n)).symm
    · obtain ⟨t, rfl⟩ : ∃ t, n = t * e :=
        ⟨n / e, (Nat.div_mul_cancel (Nat.dvd_of_mod_eq_zero hmod)).symm⟩
      rw [Nat.mul_div_cancel t he]
      cases t with
      | zero =>
          rw [Nat.zero_mul, Nat.zero_sub, Nat.zero_div] at hdoubly
          exact hdoubly
      | succ t =>
          rw [pred_mul_div he] at hdoubly
          exact hdoubly
  · obtain ⟨n, rfl⟩ : ∃ i, n = i + 1 := by
      refine Nat.exists_eq_succ_of_ne_zero ?_
      rintro rfl
      exact hmod (Nat.zero_mod e)
    have hle := Nat.div_mul_le_self n e
    have hlast := hn (Nat.succ_pos n)
    have hused : self.singlyIndirectUsed = true := h.level.2
    rw [Nat.add_sub_cancel] at hdoubly
    have hdiv := Nat.succ_div_of_mod_ne_zero hmod
    refine .ready hused (h.level.eq_readyBuf hmod) ?_ ?_
    · rw [hdiv]
      exact hfree.singlyThere he (by omega)
    · rw [hdiv]
      exact hdoubly

/-- The walk over mapped blocks is a case of the cursor after errors. -/
theorem WalkAt.stands (hsize : TableSize env.fs e) {k : ℕ}
    (hfree : HoleFree env.entry e r k) (h : WalkAt env e r k self) :
    Stands env e r k self := by
  refine ⟨h.record, h.direct, h.singly.stands hsize hfree fun hpos => ?_⟩
  unfold directBlockPointerCount at hpos ⊢
  omega

end Walk

/-! ## The position as a number -/

theorem BlockBuf.number_behind {buf : BlockBuf} {blocksize : ℤ}
    (hup : buf.usedUp blocksize = true) (above : ℕ) :
    buf.number e blocksize true above = (above + 1) * e := by
  unfold BlockBuf.number
  rw [if_pos rfl, if_pos hup]

theorem number_ready (hsize : TableSize env.fs e) (table : ℕ → ℕ) (n : ℕ) :
    (readyBuf env e table n).number e env.fs.blocksize true (n / e) = n := by
  unfold BlockBuf.number
  rw [if_pos rfl, if_neg (readyBuf_not_usedUp hsize table n)]
  show n / e * e + 4 * (n % e) / 4 = n
  rw [Nat.mul_div_cancel_left _ (by decide), Nat.div_add_mod']

theorem TriplyStands.number_eq {l : ℕ} {self : InoContext}
    (h : TriplyStands env e r l self.triplyIndirectBuf
      self.triplyIndirectUsed) : triplyNumber self = l := by
  have hbound := h.bound
  unfold triplyNumber
  cases l with
  | zero =>
      rw [h.level.1]
      rfl
  | succ l =>
      rw [h.level.1]
      show (4 * (l % e) + 4) / 4 = l + 1
      rw [Nat.mod_eq_of_lt hbound]
      omega

theorem succ_div_mul {m : ℕ} (he : 0 < e) (hm : m % e = 0) (hpos : 0 < m) :
    ((m - 1) / e + 1) * e = m := by
  obtain ⟨d, rfl⟩ : ∃ d, m = d * e :=
    ⟨m / e, (Nat.div_mul_cancel (Nat.dvd_of_mod_eq_zero hm)).symm⟩
  obtain ⟨d, rfl⟩ := Nat.exists_eq_succ_of_ne_zero (n := d) (by
    rintro rfl
    omega)
  rw [Nat.succ_eq_add_one, pred_mul_div he]

theorem DoublyStands.number_eq (hsize : TableSize env.fs e) {m : ℕ}
    {self : InoContext} (h : DoublyStands env e r m self) :
    doublyNumber e self env.fs.blocksize = m := by
  unfold doublyNumber
  rw [h.triply.number_eq, h.used]
  rcases Nat.eq_zero_or_pos m with rfl | hpos
  · rfl
  rw [decide_eq_true hpos]
  by_cases hmod : m % e = 0
  · rw [BlockBuf.number_behind (h.behind hmod),
      succ_div_mul hsize.pos hmod hpos]
  · rw [(h.ready hmod).1, pred_div_of_mod_ne_zero hmod, number_ready hsize]

theorem SinglyStands.number_eq (hsize : TableSize env.fs e) {n : ℕ}
    {self : InoContext} (h : SinglyStands env e r n self) :
    singlyNumber e self env.fs.blocksize = n := by
  unfold singlyNumber
  cases h with
  | ready hused hbuf hthere hdoubly =>
      rw [hdoubly.number_eq hsize, hused, hbuf, number_ready hsize]
  | behind hmod hused hbuf hdoubly =>
      rw [hdoubly.number_eq hsize, hused]
      rcases Nat.eq_zero_or_pos n with rfl | hpos
      · rfl
      rw [decide_eq_true hpos, BlockBuf.number_behind hbuf]
      obtain ⟨t, rfl⟩ : ∃ t, n = t * e :=
        ⟨n / e, (Nat.div_mul_cancel (Nat.dvd_of_mod_eq_zero hmod)).symm⟩
      obtain ⟨t, rfl⟩ := Nat.exists_eq_succ_of_ne_zero (n := t) (by
        rintro rfl
        omega)
      rw [Nat.mul_div_cancel _ hsize.pos]
      rfl

theorem Stands.nextLogical_eq (hsize : TableSize env.fs e) {p : ℕ}
    {self : InoContext} (h : Stands env e r p self) :
    nextLogical e self env.fs.blocksize = p := by
  unfold nextLogical
  rw [h.singly.number_eq hsize]
  have hdirect := h.direct
  split
  next hlt =>
    have hlt := h.direct_lt_iff.1 hlt
    rw [hdirect, min_eq_left hlt.le]
  next hge =>
    rw [h.direct_lt_iff] at hge
    omega

end Ext2
end Yjkos
