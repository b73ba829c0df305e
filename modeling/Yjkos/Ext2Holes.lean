import Yjkos.Ext2Cursor

/-!
# Holes in the block map

What `next_inode_block` does where an entry of the block map, or the address
of a table on the way to it, is zero.  Each level tests for zero in its own
way.  The triply indirect level does not test the addresses which it gives, and
the singly indirect level takes the first entry of a table it has just read
without regard to the test.
-/

namespace Yjkos
namespace Ext2

/-! ## The tables which are read -/

/-- Where the address of the next doubly indirect table comes from. -/
def doublyTableaddr (env : Env) (self : InoContext) :
    Except Fault (Outcome ℕ) :=
  if self.doublyIndirectUsed then nextTriplyBlockPtr env self
  else
    let tableaddr := self.record.doublyindirecttable
    .ok (if tableaddr ≠ 0 then .ok tableaddr else .error .enoent,
      { self with doublyIndirectUsed := true })

/-- Where the address of the next singly indirect table comes from. -/
def singlyTableaddr (env : Env) (self : InoContext) :
    Except Fault (Outcome ℕ) :=
  if self.singlyIndirectUsed then nextDoublyBlockPtr env self
  else
    let tableaddr := self.record.singlyIndirectTable
    .ok (if tableaddr ≠ 0 then .ok tableaddr else .error .enoent, self)

/-- An address which is given is read as a table. -/
def addressRead : Except Fault (Outcome ℕ) → List ℕ
  | .ok (.ok tableaddr, _) => [tableaddr]
  | _ => []

/-- What `next_triply_block_ptr` reads as a table. -/
def triplyTables (env : Env) (self : InoContext) : List ℕ :=
  if self.triplyIndirectBuf.usedUp env.fs.blocksize then
    if self.triplyIndirectUsed ∨ self.record.triplyindirecttable = 0 then []
    else [self.record.triplyindirecttable]
  else []

/-- What `next_doubly_block_ptr` reads as a table. -/
def doublyTables (env : Env) (self : InoContext) : List ℕ :=
  if self.doublyIndirectBuf.usedUp env.fs.blocksize then
    (if self.doublyIndirectUsed then triplyTables env self else []) ++
      addressRead (doublyTableaddr env self)
  else []

/-- What `next_singly_block_ptr` reads as a table. -/
def singlyTables (env : Env) (self : InoContext) : List ℕ :=
  if self.singlyIndirectBuf.usedUp env.fs.blocksize then
    (if self.singlyIndirectUsed then doublyTables env self else []) ++
      addressRead (singlyTableaddr env self)
  else []

/-- The addresses which a call of `next_inode_block` reads as tables. -/
def tablesRead (env : Env) (self : InoContext) : List ℕ :=
  if self.nextDirectPtrIndex < directBlockPointerCount then []
  else singlyTables env self

variable {env : Env} {e : ℕ} {r : InodeRecord}

theorem nextDoublyIndirectTable_eq (env : Env) (self : InoContext) :
    nextDoublyIndirectTable env self = (do
      match ← doublyTableaddr env self with
      | (.error e, self) =>
          .ok (.error e, { self with doublyIndirectBuf := .empty })
      | (.ok tableaddr, self) => do
          match ← readBlock env self tableaddr with
          | (.error e, self) => .ok (.error e, self)
          | (.ok newtable, self) =>
              .ok (.ok (),
                { self with doublyIndirectBuf := ⟨0, some newtable⟩ })) := by
  unfold nextDoublyIndirectTable doublyTableaddr
  split <;> rfl

theorem nextSinglyIndirectTable_eq (env : Env) (self : InoContext) :
    nextSinglyIndirectTable env self = (do
      match ← singlyTableaddr env self with
      | (.error _, self) =>
          .ok (.error .enoent, { self with singlyIndirectBuf := .empty })
      | (.ok tableaddr, self) => do
          match ← readBlock env self tableaddr with
          | (.error e, self) => .ok (.error e, self)
          | (.ok newtable, self) =>
              .ok (.ok (),
                { self with
                  singlyIndirectBuf := ⟨0, some newtable⟩
                  singlyIndirectUsed := true })) := by
  unfold nextSinglyIndirectTable singlyTableaddr
  split <;> rfl

/-! ## Zero among them -/

theorem zero_not_mem_triplyTables (env : Env) (self : InoContext) :
    0 ∉ triplyTables env self := by
  unfold triplyTables
  split
  next =>
    split
    next => exact List.not_mem_nil
    next hnone =>
      rw [not_or] at hnone
      exact fun hmem => hnone.2 (List.mem_singleton.1 hmem).symm
  next => exact List.not_mem_nil

theorem zero_mem_doublyTables_iff (hsize : TableSize env.fs e) {m : ℕ}
    {self : InoContext} (hrecord : self.record = r)
    (h : DoublyStands env e r m self) :
    0 ∈ doublyTables env self ↔ TriplyZero env e r self.allocs m := by
  have hnone : 0 ∉ (if self.doublyIndirectUsed then triplyTables env self
      else []) := by
    split
    next => exact zero_not_mem_triplyTables env self
    next => exact List.not_mem_nil
  unfold doublyTables
  by_cases hmod : m % e = 0
  · rw [if_pos (h.behind hmod), List.mem_append, or_iff_right hnone]
    unfold doublyTableaddr
    rcases Nat.eq_zero_or_pos m with rfl | hpos
    · rw [if_neg (by simp [h.used])]
      refine iff_of_false ?_ fun hzero => lt_irrefl 0 hzero.1
      dsimp only
      split
      next hsome => exact fun hmem => hsome (List.mem_singleton.1 hmem).symm
      next => exact List.not_mem_nil
    · rw [if_pos (by simp [h.used, hpos])]
      obtain ⟨ret, buf, used, allocs, hptr, houtcome⟩ :=
        nextTriplyBlockPtr_cases hsize hrecord h.triply
      rw [hptr]
      rcases houtcome with ⟨err, rfl, -, -, hgives⟩ | ⟨rfl, -, hgives, -⟩
      · exact iff_of_false List.not_mem_nil fun hzero => hgives hzero.2.2.1
      · constructor
        · exact fun hmem =>
            ⟨hpos, hmod, hgives, (List.mem_singleton.1 hmem).symm⟩
        · exact fun hzero => List.mem_singleton.2 hzero.2.2.2.symm
  · rw [(h.ready hmod).1, if_neg (readyBuf_not_usedUp hsize _ m)]
    exact iff_of_false List.not_mem_nil fun hzero => hmod hzero.2.1

theorem zero_mem_singlyTables_iff (hsize : TableSize env.fs e) {n : ℕ}
    {self : InoContext} (hrecord : self.record = r)
    (h : SinglyStands env e r n self) :
    0 ∈ singlyTables env self ↔ TakesZeroTable env e r n self := by
  unfold singlyTables
  cases h with
  | ready hused hbuf hthere hdoubly =>
      have hready : ¬self.singlyIndirectBuf.usedUp env.fs.blocksize = true := by
        rw [hbuf]
        exact readyBuf_not_usedUp hsize _ n
      rw [if_neg hready]
      exact iff_of_false List.not_mem_nil fun hzero => hready hzero.1
  | behind hmod hused hbuf hdoubly =>
      rw [if_pos hbuf, List.mem_append]
      unfold singlyTableaddr
      rcases Nat.eq_zero_or_pos n with rfl | hpos
      · rw [if_neg (by simp [hused]), if_neg (by simp [hused])]
        refine iff_of_false ?_ fun hzero => lt_irrefl 0 hzero.2.1
        rw [not_or]
        refine ⟨List.not_mem_nil, ?_⟩
        dsimp only
        split
        next hsome => exact fun hmem => hsome (List.mem_singleton.1 hmem).symm
        next => exact List.not_mem_nil
      · rw [if_pos (by simp [hused, hpos]), if_pos (by simp [hused, hpos]),
          zero_mem_doublyTables_iff hsize hrecord hdoubly]
        have htakes : TakesZeroTable env e r n self ↔
            TriplyZero env e r self.allocs (n / e - 1) :=
          ⟨fun h => h.2.2, fun h => ⟨hbuf, hpos, h⟩⟩
        rw [htakes]
        by_cases hzero : TriplyZero env e r self.allocs (n / e - 1)
        · exact iff_of_true (Or.inl hzero) hzero
        · refine iff_of_false (not_or.2 ⟨hzero, ?_⟩) hzero
          obtain ⟨ret, next, hptr, -, houtcome⟩ :=
            nextDoublyBlockPtr_cases hsize hrecord hdoubly hzero
          rw [hptr]
          rcases houtcome with ⟨err, m', rfl, -⟩ | ⟨rfl, -, hgives, -⟩
          · exact List.not_mem_nil
          · exact fun hmem => hgives.2.2 (List.mem_singleton.1 hmem).symm

theorem zero_mem_tablesRead_iff (hsize : TableSize env.fs e) {p : ℕ}
    {self : InoContext} (h : Stands env e r p self) :
    0 ∈ tablesRead env self ↔ directBlockPointerCount ≤ p ∧
      TakesZeroTable env e r (p - directBlockPointerCount) self := by
  unfold tablesRead
  split
  next hlt =>
    rw [h.direct_lt_iff] at hlt
    exact iff_of_false List.not_mem_nil
      fun hzero => Nat.not_le_of_lt hlt hzero.1
  next hge =>
    rw [h.direct_lt_iff, Nat.not_lt] at hge
    rw [zero_mem_singlyTables_iff hsize h.record h.singly]
    exact (and_iff_right hge).symm

/-! ## Every call -/

/-- The call delivers no block at address 0, reads no table there, and is
refused where the logical block in front of the cursor is not mapped. -/
structure RefusesUnmapped (env : Env) (e : ℕ) (context : InoContext) :
    Prop where
  returns : ∃ ret next, nextInodeBlock env context = .ok (ret, next)
  address : ∀ next, nextInodeBlock env context = .ok (.ok (), next) →
    next.currentBlockAddr ≠ 0
  tables : 0 ∉ tablesRead env context
  unmapped :
    ¬Mapped env.entry e context.record
        (nextLogical e context env.fs.blocksize) →
      ∃ err next, nextInodeBlock env context = .ok (.error err, next)

/-- The next call takes a zero entry of the triply indirect table for the
address of a table, or reads a singly indirect table with a zero in front. -/
def ReadsHole (env : Env) (e : ℕ) (self : InoContext) : Prop :=
  TakesZero env e self.record (nextLogical e self env.fs.blocksize) self

/-- `P` holds in front of the next call and in front of each one of a number
of calls behind it. -/
def HoldsAlong (env : Env) (P : InoContext → Prop) : ℕ → InoContext → Prop
  | 0, self => P self
  | calls + 1, self =>
      P self ∧ ∃ ret next, nextInodeBlock env self = .ok (ret, next) ∧
        HoldsAlong env P calls next

theorem HoldsAlong.last {P : InoContext → Prop} {calls : ℕ}
    {self last : InoContext} (h : HoldsAlong env P calls self)
    (hrun : skipBlocks env calls self = .ok (.ok (), last)) : P last := by
  induction calls generalizing self with
  | zero =>
      obtain ⟨-, rfl⟩ := Prod.mk.inj (Except.ok.inj hrun)
      exact h
  | succ calls ih =>
      obtain ⟨-, ret, next, hok, hrest⟩ := h
      unfold skipBlocks at hrun
      rw [hok, ok_bind] at hrun
      cases ret with
      | error err => cases hrun
      | ok => exact ih hrest hrun

theorem refusesUnmapped_iff (hsize : TableSize env.fs e) {p : ℕ}
    {self : InoContext} (h : Stands env e r p self) :
    RefusesUnmapped env e self ↔ ¬ReadsHole env e self := by
  have hzero := zero_mem_tablesRead_iff hsize h
  unfold ReadsHole
  rw [h.nextLogical_eq hsize, h.record]
  constructor
  · rintro ⟨-, haddress, htables, -⟩ htakes
    have htable := fun htable => htables (hzero.2 htable)
    obtain ⟨ret, next, hok, -, houtcome⟩ := nextInodeBlock_cases hsize h htable
    rcases houtcome with ⟨-, -, -, -, -, -, hnone, -⟩ | ⟨rfl, -, -, -, hnull⟩ |
      ⟨-, -, hnone, -⟩
    · exact hnone htakes
    · exact haddress next hok hnull
    · exact hnone htakes
  · intro hnone
    have htable := fun htable : _ ∧ _ => hnone ⟨htable.1, Or.inl htable.2⟩
    obtain ⟨ret, next, hok, -, houtcome⟩ := nextInodeBlock_cases hsize h htable
    refine ⟨⟨ret, next, hok⟩, ?_, fun hmem => htable (hzero.1 hmem), ?_⟩
    · intro next' hok'
      obtain ⟨rfl, rfl⟩ := Prod.mk.inj (Except.ok.inj (hok.symm.trans hok'))
      rcases houtcome with ⟨err, p', hret, -⟩ | ⟨-, -, htakes, -⟩ |
        ⟨-, -, -, hmapped, haddress⟩
      · cases hret
      · exact absurd htakes hnone
      · rw [haddress]
        exact hmapped.1
    · rw [h.nextLogical_eq hsize, h.record]
      intro hmapped
      rcases houtcome with ⟨err, -, rfl, -⟩ | ⟨-, -, htakes, -⟩ |
        ⟨-, -, -, hmapped', -⟩
      · exact ⟨err, next, hok⟩
      · exact absurd htakes hnone
      · exact absurd hmapped' hmapped

/-- The cursor stands somewhere behind each call which does not read a
hole. -/
theorem Stands.step (hsize : TableSize env.fs e) {p : ℕ}
    {self next : InoContext} (h : Stands env e r p self)
    (hnone : ¬ReadsHole env e self) {ret : Except Errno Unit}
    (hok : nextInodeBlock env self = .ok (ret, next)) :
    ∃ p', Stands env e r p' next := by
  unfold ReadsHole at hnone
  rw [h.nextLogical_eq hsize, h.record] at hnone
  obtain ⟨ret', next', hok', -, houtcome⟩ := nextInodeBlock_cases hsize h
    fun htable => hnone ⟨htable.1, Or.inl htable.2⟩
  obtain ⟨rfl, rfl⟩ := Prod.mk.inj (Except.ok.inj (hok.symm.trans hok'))
  rcases houtcome with ⟨-, p', -, -, -, hstands, -⟩ | ⟨-, hstands, -⟩ |
    ⟨-, hstands, -⟩
  · exact ⟨p', hstands⟩
  · exact ⟨p, hstands⟩
  · exact ⟨p + 1, hstands⟩

theorem holdsAlong_refusesUnmapped_iff (hsize : TableSize env.fs e)
    {calls p : ℕ} {self : InoContext} (h : Stands env e r p self) :
    HoldsAlong env (RefusesUnmapped env e) calls self ↔
      HoldsAlong env (fun self => ¬ReadsHole env e self) calls self := by
  induction calls generalizing p self with
  | zero => exact refusesUnmapped_iff hsize h
  | succ calls ih =>
      constructor
      · rintro ⟨hrefuses, ret, next, hok, hrest⟩
        have hnone := (refusesUnmapped_iff hsize h).1 hrefuses
        obtain ⟨p', hstands⟩ := h.step hsize hnone hok
        exact ⟨hnone, ret, next, hok, (ih hstands).1 hrest⟩
      · rintro ⟨hnone, ret, next, hok, hrest⟩
        obtain ⟨p', hstands⟩ := h.step hsize hnone hok
        exact ⟨(refusesUnmapped_iff hsize h).2 hnone, ret, next, hok,
          (ih hstands).2 hrest⟩

/-- Calls in any number from the start, also behind errors. -/
theorem walk_refuses_unmapped_iff (hsize : TableSize env.fs e)
    (r : InodeRecord) (allocs calls : ℕ) :
    HoldsAlong env (RefusesUnmapped env e) calls (.fresh r allocs) ↔
      HoldsAlong env (fun self => ¬ReadsHole env e self) calls
        (.fresh r allocs) :=
  holdsAlong_refusesUnmapped_iff hsize (stands_fresh hsize r allocs)

/-! ## The blocks of a file -/

/-- The tables in front of a block of the file are there, and so is the
block. -/
theorem Walkable.not_readsHole {blocks k : ℕ} (h : Walkable env e r blocks)
    (hk : k < blocks) {self : InoContext} (hat : WalkAt env e r k self) :
    ¬ReadsHole env e self := by
  have hsize := h.tableSize
  have he := hsize.pos
  have hstands := hat.stands hsize fun j hj => h.mapped j (hj.trans hk)
  unfold ReadsHole
  rw [hstands.nextLogical_eq hsize, hstands.record]
  rintro ⟨hge, htakes⟩
  obtain ⟨⟨-, hthere⟩, hptr⟩ := (mapped_iff he hge).1 (h.mapped k hk)
  rcases htakes with ⟨-, -, hm, hmod, -, hzero⟩ | ⟨-, -, hzero⟩
  · unfold directBlockPointerCount at hm hmod hzero
    have hdoubly := (hthere (by omega)).1
    generalize (k - 12) / e - 1 = m at hm hmod hzero hdoubly
    obtain ⟨d, rfl⟩ : ∃ d, m = d * e :=
      ⟨m / e, (Nat.div_mul_cancel (Nat.dvd_of_mod_eq_zero hmod)).symm⟩
    obtain ⟨l, rfl⟩ : ∃ l, d = l + 1 := by
      refine Nat.exists_eq_succ_of_ne_zero ?_
      rintro rfl
      rw [Nat.zero_mul] at hm
      exact lt_irrefl 0 hm
    rw [Nat.mul_div_cancel _ he] at hdoubly
    rw [pred_mul_div he] at hzero
    exact hdoubly hzero
  · exact hptr hzero

theorem Walkable.holdsAlong_not_readsHole {blocks : ℕ}
    (h : Walkable env e r blocks)
    (hlast : ∀ last, WalkAt env e r blocks last → ¬ReadsHole env e last)
    {left k : ℕ} (hleft : k + left = blocks) {self : InoContext}
    (hat : WalkAt env e r k self) :
    HoldsAlong env (fun self => ¬ReadsHole env e self) left self := by
  induction left generalizing k self with
  | zero =>
      obtain rfl : k = blocks := hleft
      exact hlast self hat
  | succ left ih =>
      have hk : k < blocks := by omega
      obtain ⟨next, hnext, hcurrent, -⟩ := h.nextInodeBlock hk hat
      exact ⟨h.not_readsHole hk hat, _, next, hnext,
        ih (by omega) hcurrent.walk⟩

/-- A volume with blocks of 1024 bytes, each byte of which is one. -/
def volumeOfOnes : Env where
  fs :=
    { totalInodes := 32
      totalBlocks := 64
      blocksize := 1024
      blocksInBlockGroup := 8192
      inodesInBlockGroup := 32
      majorVer := 0
      inodeSize := 128
      requiredFeatures := 0
      requiredFeaturesRw := 0
      blkGroupCount := 1
      blkGroupDescriptorBlk := 2 }
  disk := fun _ _ => .ok (fun _ => 1)
  memory := fun _ => true

theorem volumeOfOnes_tableSize : TableSize volumeOfOnes.fs 256 :=
  ⟨rfl, 0, by decide, rfl⟩

/-- The entry behind those of the fourteen blocks is zero. -/
theorem fourteenBlocks_unmapped :
    ¬Mapped sampleVolume.entry 256 fourteenBlocks 14 := by
  have hzero : blockAddress sampleVolume.entry 256 fourteenBlocks 14 = 0 := by
    decide +kernel
  exact fun hmapped => hmapped.1 hzero

/-- Fourteen blocks are delivered, the last two through the singly indirect
table, and the fifteenth is refused. -/
theorem walk_refuses_unmapped_fourteenBlocks :
    HoldsAlong sampleVolume (RefusesUnmapped sampleVolume 256) 14
        (.fresh fourteenBlocks 0) ∧
      ∃ last err next,
        skipBlocks sampleVolume 14 (.fresh fourteenBlocks 0) =
          .ok (.ok (), last) ∧
        nextInodeBlock sampleVolume last = .ok (.error err, next) := by
  have hwalk := fourteenBlocks_map.walkable
  have hsize := hwalk.tableSize
  have hstands : ∀ last, WalkAt sampleVolume 256 fourteenBlocks 14 last →
      Stands sampleVolume 256 fourteenBlocks 14 last :=
    fun last hat => hat.stands hsize hwalk.mapped
  have hlast : ∀ last, WalkAt sampleVolume 256 fourteenBlocks 14 last →
      ¬ReadsHole sampleVolume 256 last := by
    intro last hat htakes
    unfold ReadsHole at htakes
    rw [(hstands last hat).nextLogical_eq hsize, hat.record] at htakes
    have hbehind := (hstands last hat).singly_behind hsize
      (htakes.2.elim And.left And.left)
    exact absurd hbehind (by decide)
  have hrefuses := (walk_refuses_unmapped_iff hsize fourteenBlocks 0 14).2
    (hwalk.holdsAlong_not_readsHole hlast rfl
      (walkAt_fresh sampleVolume 256 fourteenBlocks 0))
  obtain ⟨first, hfirst, -, hcurrent, -⟩ := hwalk.firstBlock (by decide) 0
  obtain ⟨last, hrest, hat, -⟩ := hwalk.skipBlocks 13 hcurrent (by decide)
  have hrun : skipBlocks sampleVolume 14 (.fresh fourteenBlocks 0) =
      .ok (.ok (), last) := by
    unfold skipBlocks
    rw [hfirst, ok_bind]
    exact hrest
  have hat := hat.walk
  obtain ⟨err, next, hrefused⟩ := (hrefuses.last hrun).unmapped (by
    rw [(hstands last hat).nextLogical_eq hsize, hat.record]
    exact fourteenBlocks_unmapped)
  exact ⟨hrefuses, last, err, next, hrun, hrefused⟩

/-- A volume all of whose bytes are zero. -/
def volumeOfZeros : Env :=
  { volumeOfOnes with disk := fun _ _ => .ok (fun _ => 0) }

/-- The singly indirect table is there, and it is empty. -/
theorem emptyTable_not_refused :
    ¬HoldsAlong volumeOfZeros (RefusesUnmapped volumeOfZeros 256) 12
      (.fresh fourteenBlocks 0) := by
  intro h
  obtain ⟨last, next, hrun, hok, hnull⟩ : ∃ last next,
      skipBlocks volumeOfZeros 12 (.fresh fourteenBlocks 0) =
        .ok (.ok (), last) ∧
      nextInodeBlock volumeOfZeros last = .ok (.ok (), next) ∧
      next.currentBlockAddr = 0 :=
    ⟨_, _, rfl, rfl, rfl⟩
  exact (h.last hrun).address next hok hnull

end Ext2
end Yjkos
