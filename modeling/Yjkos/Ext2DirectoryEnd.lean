import Yjkos.Ext2DirectorySafe

/-!
# Behind the last block

What `next_inode_block` does, call after call, at the end of an inode.  A
table whose last entry is delivered is replaced, and the levels above go on
over their zero entries with each call.  The calls agree that there is no
block until one meets an entry of the triply indirect table which is zero, or
a table which is there although it is empty: such a zero is taken for an
address.
-/

namespace Yjkos
namespace Ext2

variable {env : Env} {entry : ℕ → ℕ → ℕ} {e : ℕ} {r : InodeRecord}
  {blocks p : ℕ} {self : InoContext}

/-! ## Zeros behind the last block -/

/-- Block `p` is the first one of a singly indirect table which is there, but
starts with a zero. -/
def EmptyTableAt (entry : ℕ → ℕ → ℕ) (e : ℕ) (r : InodeRecord) (p : ℕ) :
    Prop :=
  ∃ t, p = 12 + t * e ∧ SinglyThere entry e r t ∧
    singlyPtr entry e r (t * e) = 0

/-- A zero is taken for an address where the cursor gets to block `p`. -/
def HoleAt (entry : ℕ → ℕ → ℕ) (e : ℕ) (r : InodeRecord) (p : ℕ) : Prop :=
  ZeroTableAt entry e r p ∨ EmptyTableAt entry e r p

/-- Block `p` is the first one of a singly indirect table. -/
def TableStart (e p : ℕ) : Prop :=
  12 ≤ p ∧ (p - 12) % e = 0

/-- From the end of the inode on, the cursor does not get to a hole.  It moves
on only where the last table is full. -/
def QuietEnd (entry : ℕ → ℕ → ℕ) (e : ℕ) (r : InodeRecord) (blocks : ℕ) :
    Prop :=
  TableStart e blocks → ∀ p, blocks ≤ p → ¬HoleAt entry e r p

theorem HoleAt.tableStart (h : HoleAt entry e r p) : TableStart e p := by
  rcases h with ⟨l, -, rfl, -⟩ | ⟨t, rfl, -⟩
  · exact ⟨Nat.le_add_right _ _, by
      rw [Nat.add_sub_cancel_left, Nat.mul_mod_left]⟩
  · exact ⟨Nat.le_add_right _ _, by
      rw [Nat.add_sub_cancel_left, Nat.mul_mod_left]⟩

theorem QuietEnd.not_holeAt (h : QuietEnd entry e r blocks)
    (hp : blocks ≤ p) (hmoved : p = blocks ∨ TableStart e blocks) :
    ¬HoleAt entry e r p := by
  intro hhole
  rcases hmoved with rfl | hstart
  · exact h hhole.tableStart p le_rfl hhole
  · exact h hstart p hp hhole

/-- Where the tables on the way agree, so do the holes. -/
theorem AgreeOn.holeAt_iff {given : ℕ → ℕ → ℕ} (he : 0 < e)
    (h : AgreeOn entry given e (TableTo entry e r p)) :
    HoleAt given e r p ↔ HoleAt entry e r p := by
  refine or_congr ?_ ?_
  · refine exists_congr fun l => and_congr_right fun hl => ?_
    refine and_congr_right fun hp => and_congr_right fun htriply => ?_
    have htable : TableTo entry e r p r.triplyindirecttable := by
      have hrow : (p - 12) / e = (l + 1) * e + 1 := by
        rw [hp, Nat.add_sub_cancel_left, Nat.mul_div_cancel _ he]
      refine ⟨hp ▸ Nat.le_add_right _ _, .above (by omega) ?_⟩
      rw [hrow, Nat.add_sub_cancel, Nat.mul_div_cancel _ he]
      exact .triply (Nat.succ_pos l) hl htriply
    unfold triplyPtr
    rw [h _ htable l hl]
  · refine exists_congr fun t => and_congr_right fun hp => ?_
    have hway : AgreeOn entry given e (SinglyWay entry e r t) := by
      intro addr hway
      refine h addr ⟨hp ▸ Nat.le_add_right _ _, ?_⟩
      rw [hp, Nat.add_sub_cancel_left, Nat.mul_div_cancel _ he]
      exact hway
    rw [hway.singlyThere_iff he]
    refine and_congr_right fun hthere => ?_
    rw [← Nat.mul_div_cancel t he] at hway hthere
    rw [hway.singlyPtr_eq he hthere]

theorem Stands.holeAt (hsize : TableSize env.fs e)
    (h : Stands env e r p self) (htakes : TakesZero env e r p self) :
    HoleAt env.entry e r p := by
  have he := hsize.pos
  obtain ⟨hge, htable | htakes⟩ := htakes
  · exact Or.inl (h.zeroTableAt hsize hge htable)
  obtain ⟨n, rfl⟩ : ∃ n, p = 12 + n := Nat.exists_eq_add_of_le hge
  have hmod := h.singly_behind hsize htakes.1
  have hn : 12 + n - directBlockPointerCount = n := Nat.add_sub_cancel_left _ n
  rw [hn] at htakes
  rw [Nat.add_sub_cancel_left] at hmod
  obtain ⟨t, rfl⟩ : ∃ t, n = t * e :=
    ⟨n / e, (Nat.div_mul_cancel (Nat.dvd_of_mod_eq_zero hmod)).symm⟩
  obtain ⟨-, hloads, hzero⟩ := htakes
  rw [Nat.mul_div_cancel t he] at hloads
  exact Or.inr ⟨t, rfl, hloads.1, hzero⟩

/-! ## The calls at the end -/

/-- The last block is used up, and the cursor stands in front of block `p`. -/
structure AtEnd (env : Env) (e : ℕ) (r : InodeRecord) (blocks p : ℕ)
    (context : InoContext) : Prop where
  stands : Stands env e r p context
  offset_eq : context.blockbuf.offsetInBuf = 4 * e
  behind : blocks ≤ p
  moved : p = blocks ∨ TableStart e blocks

/-- Where no table has to be replaced, the cursor stays. -/
theorem Stands.stays (hsize : TableSize env.fs e) (h : Stands env e r p self)
    (hstart : ¬TableStart e p) (hmapped : ¬Mapped env.entry e r p) :
    ∃ next, nextInodeBlock env self = .ok (.error .enoent, next) ∧
      next.blockbuf = self.blockbuf ∧ Stands env e r p next := by
  rcases Nat.lt_or_ge p directBlockPointerCount with hlt | hge
  · obtain ⟨ret, next, hok, hbuf, houtcome⟩ := nextInodeBlock_direct h hlt
    rcases houtcome with ⟨rfl, hstands, -⟩ | ⟨-, -, hthere, -⟩
    · exact ⟨next, hok, hbuf, hstands⟩
    · exact absurd hthere hmapped
  have hindex : ¬self.nextDirectPtrIndex < directBlockPointerCount := by
    rw [h.direct_lt_iff]
    exact Nat.not_lt_of_le hge
  have hmod : (p - directBlockPointerCount) % e ≠ 0 :=
    fun hmod => hstart ⟨hge, hmod⟩
  have hnot : ¬Mapped env.entry e r p ↔ _ :=
    not_congr (mapped_iff hsize.pos hge)
  cases hsingly : h.singly with
  | behind hzero => exact absurd hzero hmod
  | ready hused hbuf hthere hdoubly =>
      have hup : self.singlyIndirectBuf.usedUp env.fs.blocksize = false := by
        rw [hbuf]
        exact Bool.eq_false_iff.2 (readyBuf_not_usedUp hsize _ _)
      obtain ⟨ret, next, hptr, hrest, houtcome⟩ := nextSinglyBlockPtr_of_ready
        hsize hup (if_neg Bool.false_ne_true) ⟨rfl, rfl, rfl, rfl, rfl⟩ hused
        hbuf hthere hdoubly
      rcases houtcome with ⟨-, hstands, hret⟩ | ⟨hsome, -, -⟩
      · rw [if_neg Bool.false_ne_true] at hret
        subst hret
        refine ⟨next, ?_, hrest.blockbuf, hrest.record.trans h.record,
          hrest.nextDirectPtrIndex.trans h.direct, hstands⟩
        unfold nextInodeBlock
        rw [if_neg hindex, hptr, ok_bind]
      · exact absurd ⟨hthere, hsome⟩ (hnot.1 hmapped)

/-- Behind the last block there is no other one as far as the cursor gets, and
the tables on the way there can be read. -/
def EndsAt (env : Env) (e : ℕ) (r : InodeRecord) (blocks : ℕ) : Prop :=
  ∀ p, blocks ≤ p → (p = blocks ∨ TableStart e blocks) →
    env.ReadsAll (TableTo env.entry e r p) ∧ ¬Mapped env.entry e r p

/-- A call behind the last block. -/
theorem AtEnd.move (hsize : TableSize env.fs e) (hends : EndsAt env e r blocks)
    (h : AtEnd env e r blocks p self) (hquiet : ¬HoleAt env.entry e r p) :
    ∃ next p', nextInodeBlock env self = .ok (.error .enoent, next) ∧
      AtEnd env e r blocks p' next := by
  obtain ⟨hs, hmapped⟩ := hends p h.behind h.moved
  have htakes : ¬TakesZero env e r p self :=
    fun htakes => hquiet (h.stands.holeAt hsize htakes)
  by_cases hstart : TableStart e blocks
  · obtain ⟨ret, next, hok, hbuf, houtcome⟩ := nextInodeBlock_cases hsize
      h.stands fun htable => htakes ⟨htable.1, Or.inl htable.2⟩
    rcases houtcome with ⟨err, p', rfl, herr, hle, hstands, -⟩ |
      ⟨-, -, hzero, -⟩ | ⟨-, -, -, hthere, -⟩
    · obtain rfl := herr hs
      refine ⟨next, p', hok, hstands, ?_, h.behind.trans hle, Or.inr hstart⟩
      rw [hbuf]
      exact h.offset_eq
    · exact absurd hzero htakes
    · exact absurd hthere hmapped
  · obtain rfl : p = blocks := h.moved.resolve_right hstart
    obtain ⟨next, hok, hbuf, hstands⟩ := h.stands.stays hsize hstart hmapped
    refine ⟨next, p, hok, hstands, ?_, le_rfl, Or.inl rfl⟩
    rw [hbuf]
    exact h.offset_eq

/-- There is no further record. -/
theorem AtEnd.readRecords (hsize : TableSize env.fs e)
    (hends : EndsAt env e r blocks) (h : AtEnd env e r blocks p self)
    (hquiet : ¬HoleAt env.entry e r p) (fuel : ℕ) :
    ∃ next p', readRecords env (fuel + 1) self = .ok (.error .enoent, next) ∧
      AtEnd env e r blocks p' next := by
  obtain ⟨next, p', hok, hend⟩ := h.move hsize hends hquiet
  have hleave : leaveBlock env self = .ok (.error .enoent, next) := by
    unfold leaveBlock
    rw [h.offset_eq, hsize.blocksize_eq, if_pos le_rfl,
      nextInodeBlockAndResetBlockbuf, hok, ok_bind]
  have hread : readInode env self 8 = .ok (.error .enoent, next) := by
    unfold readInode
    rw [cAssert_of (by decide), ok_bind, readLoop_succ,
      if_neg (by decide), hleave, ok_bind]
  refine ⟨next, p', ?_, hend⟩
  rw [Ext2.readRecords, readRecord, readName, readHeader, hread]
  rfl

end Ext2
end Yjkos
