import Yjkos.Ext2Directory
import Yjkos.Ext2Holes
import Yjkos.Ext2File

/-!
# Malformed directories

`read_directory` on blocks with any bytes, when reads and allocations may fail.
The length which is skipped is a difference of two fields of the record, so a
record which is shorter than its header and name makes it wrap around.  As
long as there is none, and `next_inode_block` meets no hole which it takes for
a block, the cursor moves forward through mapped blocks to a record or to an
error.
-/

namespace Yjkos
namespace Ext2

/-! ## The moves to a next block -/

/-- The contexts behind a call which has not failed. -/
def movesBehind {α : Type} (x : Except Fault (Outcome α))
    (f : α → InoContext → List InoContext) : List InoContext :=
  match x with
  | .ok (.ok a, self) => f a self
  | _ => []

section Moves

variable (env : Env)

/-- The contexts in front of the calls of `next_inode_block` which
`leaveBlock` makes. -/
def leaveMoves (self : InoContext) : List InoContext :=
  if env.fs.blocksize ≤ self.blockbuf.offsetInBuf then [self] else []

def skipBlocksMoves : ℕ → InoContext → List InoContext
  | 0, _ => []
  | count + 1, self =>
      self :: movesBehind (nextInodeBlock env self)
        fun _ self => skipBlocksMoves count self

/-- The context behind some blocks which are skipped as a whole. -/
def afterSkip (count : ℕ) (self : InoContext) : InoContext :=
  if count = 0 then self
  else { self with blockbuf := { self.blockbuf with buf := none } }

/-- The context behind some bytes of the current block. -/
def afterPart (len : ℕ) (self : InoContext) : InoContext :=
  { self with
    blockbuf := { self.blockbuf with
      offsetInBuf := self.blockbuf.offsetInBuf + len } }

def skipreadMoves : ℕ → ℕ → InoContext → List InoContext
  | 0, _, _ => []
  | fuel + 1, remainingLen, self =>
      if remainingLen = 0 then []
      else leaveMoves env self ++
        movesBehind (leaveBlock env self) fun _ self =>
          let count := wholeBlocks env self remainingLen
          skipBlocksMoves env count self ++
            movesBehind (skipBlocks env count self) fun _ self =>
              let remainingLen :=
                wrapSub remainingLen (wrap (toSize env.fs.blocksize * count))
              let self := afterSkip count self
              let len := partLen env self remainingLen
              skipreadMoves fuel (wrapSub remainingLen len)
                (afterPart len self)

/-- For requests which are shorter than a block. -/
def readMoves : ℕ → ℕ → InoContext → List InoContext
  | 0, _, _ => []
  | fuel + 1, remainingLen, self =>
      if remainingLen = 0 then []
      else leaveMoves env self ++
        movesBehind (leaveBlock env self) fun _ self =>
          movesBehind (fillBlockbuf env self) fun _ self =>
            let len := partLen env self remainingLen
            readMoves fuel (wrapSub remainingLen len) (afterPart len self)

/-- The contexts in front of the moves in a turn of `read_directory`. -/
def recordMoves (self : InoContext) : List InoContext :=
  readMoves env 9 8 self ++
    movesBehind (readHeader env self) fun header self =>
      readMoves env (namelen header + 1) (namelen header) self ++
        movesBehind (readInode env self (namelen header)) fun _ self =>
          skipreadMoves env (skiplen header + 1) (skiplen header) self

/-- The contexts in front of the turns of `read_directory`. -/
def turnsFrom : ℕ → InoContext → List InoContext
  | 0, _ => []
  | fuel + 1, self =>
      self :: movesBehind (readRecord env self) fun out self =>
        if out.dIno ≠ 0 then [] else turnsFrom fuel self

end Moves

/-! ## Inside of the mapped blocks -/

/-- The current block is a mapped one in front of logical block `p`, with the
bytes in front of `o` consumed. -/
structure InMap (env : Env) (e : ℕ) (r : InodeRecord) (p o : ℕ)
    (context : InoContext) : Prop where
  stands : Stands env e r p context
  offset_eq : context.blockbuf.offsetInBuf = o
  offset_le : o ≤ 4 * e
  inside : ∃ k < p, Mapped env.entry e r k ∧
    context.currentBlockAddr = blockAddress env.entry e r k
  sized : ∀ b, context.blockbuf.buf = some b → b.size = 4 * e

/-- The bytes which can be taken at most. -/
def bytesLeft (e p o : ℕ) : ℕ := 4 * e - o + (maxBlocks e - p) * (4 * e)

variable {env : Env} {e : ℕ} {r : InodeRecord} {p o n : ℕ}
  {self : InoContext}

/-- The allocations succeed, and so do the reads of the tables of an inode and
of the blocks which it maps. -/
structure Env.ReadsInode (env : Env) (e : ℕ) (r : InodeRecord) : Prop where
  memory : ∀ n, env.memory n = true
  tables : ∀ k addr, TableTo env.entry e r k addr → env.Readable addr
  blocks : ∀ k, Mapped env.entry e r k →
    env.Readable (blockAddress env.entry e r k)

/-- The call returns inside of the mapped blocks, not in front of where it has
started, and has taken `n` bytes at least unless it fails. -/
def Goes {α : Type} (env : Env) (e : ℕ) (r : InodeRecord) (p o n : ℕ)
    (x : Except Fault (Outcome α)) : Prop :=
  ∃ ret next p' o', x = .ok (ret, next) ∧ InMap env e r p' o' next ∧
    p * (4 * e) + o ≤ p' * (4 * e) + o' ∧
    (∀ err, ret = .error err → env.ReadsInode e r →
      err = .enoent ∨ err = .enametoolong) ∧
    ∀ a, ret = .ok a → bytesLeft e p' o' + n ≤ bytesLeft e p o

theorem Goes.unlessFailed {α β : Type} {x : Except Fault (Outcome α)}
    {f : α → InoContext → Except Fault (Outcome β)} {m : ℕ}
    (hx : Goes env e r p o n x)
    (hf : ∀ a next p' o', x = .ok (.ok a, next) → InMap env e r p' o' next →
      Goes env e r p' o' m (f a next)) :
    Goes env e r p o (n + m) (unlessFailed x f) := by
  obtain ⟨ret, next, p₁, o₁, rfl, hin, hle, herr, hleft⟩ := hx
  cases ret with
  | error err =>
      exact ⟨_, next, p₁, o₁, rfl, hin, hle, fun err' heq => by
        cases heq
        exact herr err rfl, nofun⟩
  | ok a =>
      obtain ⟨ret, last, p₂, o₂, hok, hin₂, hle₂, herr₂, hleft₂⟩ :=
        hf a next p₁ o₁ rfl hin
      refine ⟨ret, last, p₂, o₂, hok, hin₂, hle.trans hle₂, herr₂, ?_⟩
      intro b hb
      have hfirst := hleft a rfl
      have hsecond := hleft₂ b hb
      omega

theorem Goes.done {α : Type} (hin : InMap env e r p o self) (a : α) :
    Goes env e r p o 0 (.ok (.ok a, self)) :=
  ⟨_, self, p, o, rfl, hin, le_rfl, nofun, fun _ _ => le_rfl⟩

theorem Goes.mono {α : Type} {x : Except Fault (Outcome α)} {m : ℕ}
    (h : Goes env e r p o n x) (hle : m ≤ n) : Goes env e r p o m x := by
  obtain ⟨ret, next, p', o', hok, hin, hforward, herr, hleft⟩ := h
  refine ⟨ret, next, p', o', hok, hin, hforward, herr, fun a ha => ?_⟩
  have hbytes := hleft a ha
  omega

theorem Mapped.lt_maxBlocks {entry : ℕ → ℕ → ℕ} (he : 0 < e) {k : ℕ}
    (h : Mapped entry e r k) :
    k < maxBlocks e := by
  have hrest := h.2
  unfold maxBlocks
  split at hrest
  next => omega
  next =>
    split at hrest
    next => omega
    next =>
      split at hrest
      next => omega
      next =>
        have hj := hrest.1
        omega

theorem InMap.withBlockbuf (h : InMap env e r p o self) (blockbuf : BlockBuf)
    (allocs : ℕ) (hle : blockbuf.offsetInBuf ≤ 4 * e)
    (hsized : ∀ b, blockbuf.buf = some b → b.size = 4 * e) :
    InMap env e r p blockbuf.offsetInBuf
      { self with
        blockbuf := blockbuf
        allocs := allocs } where
  stands := h.stands.same rfl rfl ⟨rfl, rfl, rfl, rfl, rfl, rfl⟩
  offset_eq := rfl
  offset_le := hle
  inside := h.inside
  sized := hsized

/-! ## One move -/

/-- A move gives the next block, which is mapped, or stays in the current
one. -/
theorem InMap.move (hsize : TableSize env.fs e)
    (h : InMap env e r p o self) (hhole : ¬ReadsHole env e self) :
    ∃ ret next, nextInodeBlock env self = .ok (ret, next) ∧
      ((∃ err p', ret = .error err ∧ (env.ReadsInode e r → err = .enoent) ∧
          p ≤ p' ∧ InMap env e r p' o next) ∨
        ret = .ok () ∧ p < maxBlocks e ∧ InMap env e r (p + 1) o next) := by
  have hnone : ¬TakesZero env e r p self := by
    unfold ReadsHole at hhole
    rwa [h.stands.nextLogical_eq hsize, h.stands.record] at hhole
  obtain ⟨ret, next, hok, hbuf, houtcome⟩ := nextInodeBlock_cases hsize
    h.stands fun htable => hnone ⟨htable.1, Or.inl htable.2⟩
  refine ⟨ret, next, hok, ?_⟩
  have hoffset : next.blockbuf.offsetInBuf = o := by
    rw [hbuf]
    exact h.offset_eq
  have hsized : ∀ b, next.blockbuf.buf = some b → b.size = 4 * e := by
    rw [hbuf]
    exact h.sized
  rcases houtcome with ⟨err, p', hret, herr, hle, hstands, -, -, hcurrent⟩ |
    ⟨-, -, htakes, -⟩ | ⟨hret, hstands, -, hmapped, hcurrent⟩
  · obtain ⟨k, hk, hmapped, haddress⟩ := h.inside
    exact Or.inl ⟨err, p', hret, fun hs => herr ⟨hs.memory, hs.tables p⟩, hle,
      hstands, hoffset, h.offset_le,
      ⟨k, hk.trans_le hle, hmapped, hcurrent.trans haddress⟩, hsized⟩
  · exact absurd htakes hnone
  · exact Or.inr ⟨hret, hmapped.lt_maxBlocks hsize.pos, hstands, hoffset,
      h.offset_le, ⟨p, Nat.lt_succ_self p, hmapped, hcurrent⟩, hsized⟩

theorem bytesLeft_next (hp : p < maxBlocks e) :
    bytesLeft e (p + 1) 0 = bytesLeft e p (4 * e) := by
  obtain ⟨d, hd⟩ := Nat.exists_eq_add_of_lt hp
  have hleft : maxBlocks e - p = d + 1 := by omega
  have hnext : maxBlocks e - (p + 1) = d := by omega
  unfold bytesLeft
  rw [hleft, hnext, Nat.add_mul d 1 (4 * e)]
  omega

theorem InMap.leave (hsize : TableSize env.fs e)
    (h : InMap env e r p o self)
    (hholes : ∀ c ∈ leaveMoves env self, ¬ReadsHole env e c) :
    ∃ ret next p' o', leaveBlock env self = .ok (ret, next) ∧
      InMap env e r p' o' next ∧
      p * (4 * e) + o ≤ p' * (4 * e) + o' ∧
      (∀ err, ret = .error err → env.ReadsInode e r → err = .enoent) ∧
      (ret = .ok () → o' < 4 * e ∧ bytesLeft e p' o' = bytesLeft e p o) := by
  unfold leaveMoves at hholes
  unfold leaveBlock
  rw [h.offset_eq, hsize.blocksize_eq] at hholes ⊢
  by_cases hend : 4 * e ≤ o
  · have hend' : ((4 * e : ℕ) : ℤ) ≤ o := by exact_mod_cast hend
    obtain rfl : o = 4 * e := le_antisymm h.offset_le hend
    rw [if_pos hend'] at hholes ⊢
    obtain ⟨ret, next, hok, houtcome⟩ := h.move hsize
      (hholes self (List.mem_singleton_self self))
    rw [nextInodeBlockAndResetBlockbuf, hok, ok_bind]
    rcases houtcome with ⟨err, p', rfl, herr, hle, hin⟩ | ⟨rfl, hp, hin⟩
    · have hmul := Nat.mul_le_mul_right (4 * e) hle
      refine ⟨_, next, p', 4 * e, rfl, hin, by omega, ?_, ?_⟩
      · intro err' heq
        cases heq
        exact herr
      · intro heq
        cases heq
    · have hpos := hsize.pos
      have hmul := Nat.add_mul p 1 (4 * e)
      have hempty : ∀ b, BlockBuf.empty.buf = some b → b.size = 4 * e := by
        intro b heq
        cases heq
      refine ⟨_, _, p + 1, 0, rfl,
        hin.withBlockbuf .empty next.allocs (Nat.zero_le _) hempty, by omega,
        ?_, fun _ => ⟨by omega, bytesLeft_next hp⟩⟩
      intro err heq
      cases heq
  · have hend' : ¬((4 * e : ℕ) : ℤ) ≤ o := by exact_mod_cast hend
    rw [if_neg hend']
    refine ⟨_, self, p, o, rfl, h, le_rfl, ?_, fun _ => ⟨by omega, rfl⟩⟩
    intro err heq
    cases heq

/-! ## Skipping and reading -/

theorem bytesLeft_block (hp : p < maxBlocks e) :
    bytesLeft e (p + 1) 0 + 4 * e = bytesLeft e p 0 := by
  rw [bytesLeft_next hp]
  unfold bytesLeft
  omega

theorem InMap.passBlocks (hsize : TableSize env.fs e) (count : ℕ)
    (h : InMap env e r p 0 self)
    (hholes : ∀ c ∈ skipBlocksMoves env count self, ¬ReadsHole env e c) :
    ∃ ret next p', skipBlocks env count self = .ok (ret, next) ∧
      InMap env e r p' 0 next ∧ p ≤ p' ∧
      (∀ err, ret = .error err → env.ReadsInode e r → err = .enoent) ∧
      (ret = .ok () →
        bytesLeft e p' 0 + count * (4 * e) = bytesLeft e p 0) := by
  induction count generalizing p self with
  | zero =>
      refine ⟨_, self, p, rfl, h, le_rfl, nofun, fun _ => ?_⟩
      rw [Nat.zero_mul, Nat.add_zero]
  | succ count ih =>
      rw [skipBlocksMoves, List.forall_mem_cons] at hholes
      obtain ⟨ret, next, hok, houtcome⟩ := h.move hsize hholes.1
      rw [hok] at hholes
      rw [skipBlocks, hok, ok_bind]
      rcases houtcome with ⟨err, p', rfl, herr, hle, hin⟩ | ⟨rfl, hp, hin⟩
      · refine ⟨_, next, p', rfl, hin, hle, ?_, nofun⟩
        intro err' heq
        cases heq
        exact herr
      · obtain ⟨ret, last, p', hlast, hin', hle, herr, hleft⟩ :=
          ih hin hholes.2
        refine ⟨ret, last, p', hlast, hin', by omega, herr, fun hret => ?_⟩
        have hrest := hleft hret
        have hblock := bytesLeft_block hp
        rw [Nat.succ_mul]
        omega

theorem InMap.fill (hsize : TableSize env.fs e)
    (h : InMap env e r p o self) :
    ∃ ret next, fillBlockbuf env self = .ok (ret, next) ∧
      InMap env e r p o next ∧
      (∀ err, ret = .error err → ¬env.ReadsInode e r) ∧
      ∀ b, ret = .ok b → b.size = 4 * e := by
  unfold fillBlockbuf
  cases hbuf : self.blockbuf.buf with
  | some b =>
      refine ⟨_, self, rfl, h, nofun, ?_⟩
      intro b' heq
      cases heq
      exact h.sized b hbuf
  | none =>
      dsimp only
      by_cases hreads : env.Reads self.allocs self.currentBlockAddr
      · have hblock : (env.block self.currentBlockAddr).size = 4 * e :=
          hsize.toSize_eq
        rw [readBlock_of_reads hsize self hreads, ok_bind]
        have hin := h.withBlockbuf
          { self.blockbuf with buf := some (env.block self.currentBlockAddr) }
          (self.allocs + 1) (h.offset_eq ▸ h.offset_le) (by
            intro b heq
            cases heq
            exact hblock)
        rw [h.offset_eq] at hin
        refine ⟨_, _, rfl, hin, nofun, ?_⟩
        intro b heq
        cases heq
        exact hblock
      · obtain ⟨err, herr⟩ := readBlock_of_not_reads hsize self hreads
        rw [herr, ok_bind]
        have hin := h.withBlockbuf self.blockbuf (self.allocs + 1)
          (h.offset_eq ▸ h.offset_le) h.sized
        rw [h.offset_eq] at hin
        obtain ⟨k, -, hmapped, haddress⟩ := h.inside
        refine ⟨_, _, rfl, hin, fun _ _ hs => hreads ⟨hs.memory _, ?_⟩, nofun⟩
        rw [haddress]
        exact hs.blocks k hmapped

/-- Some bytes of the current block are taken. -/
theorem InMap.take (h : InMap env e r p o self) {len : ℕ}
    (hle : o + len ≤ 4 * e) :
    InMap env e r p (o + len) (afterPart len self) ∧
      bytesLeft e p (o + len) + len = bytesLeft e p o := by
  have hin := h.withBlockbuf
    { self.blockbuf with
      offsetInBuf := self.blockbuf.offsetInBuf + len }
    self.allocs (by rw [h.offset_eq]; exact hle) h.sized
  rw [h.offset_eq] at hin
  refine ⟨?_, ?_⟩
  · unfold afterPart
    rw [h.offset_eq]
    exact hin
  · unfold bytesLeft
    omega

/-- The blocks which are skipped as a whole in a turn of the loop. -/
theorem InMap.passWhole (hsize : TableSize env.fs e)
    (h : InMap env e r p o self) {remaining : ℕ}
    (hholes : ∀ c ∈ skipBlocksMoves env (wholeBlocks env self remaining) self,
      ¬ReadsHole env e c) :
    ∃ count ret next p', wholeBlocks env self remaining = count ∧
      skipBlocks env count self = .ok (ret, next) ∧
      InMap env e r p' o (afterSkip count next) ∧
      InMap env e r p' o next ∧ p ≤ p' ∧
      (∀ err, ret = .error err → env.ReadsInode e r → err = .enoent) ∧
      (ret = .ok () → count * (4 * e) ≤ remaining ∧
        bytesLeft e p' o + count * (4 * e) = bytesLeft e p o) := by
  have hcount := hsize.wholeBlocks_eq h.offset_eq remaining
  by_cases hwhole : o = 0 ∧ 4 * e ≤ remaining
  · rw [if_pos hwhole] at hcount
    obtain ⟨rfl, hroom⟩ := hwhole
    obtain ⟨ret, next, p', hok, hin, hle, herr, hleft⟩ :=
      h.passBlocks hsize _ hholes
    rw [hcount] at hok hleft ⊢
    have hafter : InMap env e r p' 0
        (afterSkip (remaining / (4 * e)) next) := by
      unfold afterSkip
      split
      next => exact hin
      next =>
        have h := hin.withBlockbuf { next.blockbuf with buf := none }
          next.allocs (hin.offset_eq ▸ hin.offset_le) nofun
        rw [hin.offset_eq] at h
        exact h
    exact ⟨_, ret, next, p', rfl, hok, hafter, hin, hle, herr, fun hret =>
      ⟨Nat.div_mul_le_self _ _, hleft hret⟩⟩
  · rw [if_neg hwhole] at hcount
    rw [hcount]
    refine ⟨0, _, self, p, rfl, rfl, h, h, le_rfl, nofun, fun _ => ?_⟩
    rw [Nat.zero_mul]
    exact ⟨Nat.zero_le _, rfl⟩

/-- The end of a turn of the loop, with what is left of the current block. -/
def skipPart (env : Env) (fuel remainingLen : ℕ) (self : InoContext) :
    Except Fault (Outcome Unit) :=
  if remainingLen = 0 then .ok (.ok (), self)
  else do
    cAssert (self.blockbuf.offsetInBuf < env.fs.blocksize)
      "self->blockbuf.offset_in_buf < self->fs->blocksize"
    let skiplen := partLen env self remainingLen
    cAssert (skiplen ≠ 0) "skiplen != 0"
    skipreadLoop env fuel (wrapSub remainingLen skiplen)
      (afterPart skiplen self)

theorem skipreadLoop_succ (env : Env) (fuel remainingLen : ℕ)
    (self : InoContext) :
    skipreadLoop env (fuel + 1) remainingLen self =
      if remainingLen = 0 then .ok (.ok (), self)
      else unlessFailed (leaveBlock env self) fun _ self =>
        let count := wholeBlocks env self remainingLen
        unlessFailed (skipBlocks env count self) fun _ self =>
          skipPart env fuel
            (wrapSub remainingLen (wrap (toSize env.fs.blocksize * count)))
            (afterSkip count self) := by
  rw [skipreadLoop]
  refine if_congr Iff.rfl rfl ?_
  cases leaveBlock env self with
  | error fault => rfl
  | ok outcome =>
      obtain ⟨ret, next⟩ := outcome
      cases ret with
      | error err => rfl
      | ok =>
          dsimp only [unlessFailed, ok_bind]
          cases skipBlocks env (wholeBlocks env next remainingLen) next with
          | error fault => rfl
          | ok outcome =>
              obtain ⟨ret, last⟩ := outcome
              cases ret <;> rfl

/-- The rest of the loop goes on behind a part of the current block. -/
theorem InMap.part (hsize : TableSize env.fs e) (h : InMap env e r p o self)
    (hlt : o < 4 * e) {remaining : ℕ} (hsome : remaining ≠ 0)
    (hsmall : remaining ≤ streamMaxTransferSize) :
    ∃ len, partLen env self remaining = len ∧ 0 < len ∧ len ≤ remaining ∧
      wrapSub remaining len = remaining - len ∧
      InMap env e r p (o + len) (afterPart len self) ∧
      bytesLeft e p (o + len) + len = bytesLeft e p o := by
  unfold streamMaxTransferSize at hsmall
  obtain ⟨len, hlen⟩ : ∃ len, len = min (4 * e - o) remaining := ⟨_, rfl⟩
  obtain ⟨hin, hleft⟩ := h.take (show o + len ≤ 4 * e by omega)
  refine ⟨len, ?_, by omega, by omega, wrapSub_of_le (by omega) (by omega),
    hin, hleft⟩
  rw [hsize.partLen_eq h.offset_eq h.offset_le, hlen]

theorem InMap.skipPart (hsize : TableSize env.fs e) {fuel remaining : ℕ}
    (ih : ∀ {p o remaining : ℕ} {self : InoContext}, remaining < fuel →
      remaining ≤ streamMaxTransferSize → InMap env e r p o self →
      (∀ c ∈ skipreadMoves env fuel remaining self, ¬ReadsHole env e c) →
        Goes env e r p o remaining (skipreadLoop env fuel remaining self))
    (h : InMap env e r p o self) (hlt : o < 4 * e) (hfuel : remaining ≤ fuel)
    (hsmall : remaining ≤ streamMaxTransferSize)
    (hholes : remaining ≠ 0 → ∀ c ∈ skipreadMoves env fuel
      (wrapSub remaining (partLen env self remaining))
      (afterPart (partLen env self remaining) self), ¬ReadsHole env e c) :
    Goes env e r p o remaining (Ext2.skipPart env fuel remaining self) := by
  unfold Ext2.skipPart
  by_cases hdone : remaining = 0
  · subst hdone
    rw [if_pos rfl]
    exact .done h _
  obtain ⟨len, hlen, hpos, hle, hwrap, hin, hleft⟩ :=
    h.part hsize hlt hdone hsmall
  have hholes := hholes hdone
  rw [hlen, hwrap] at hholes
  rw [if_neg hdone, h.offset_eq, hsize.blocksize_eq,
    cAssert_of (decide_eq_true (by exact_mod_cast hlt)), ok_bind, hlen]
  dsimp only
  rw [cAssert_of (decide_eq_true hpos.ne'), ok_bind, hwrap]
  obtain ⟨ret, last, p', o', hok, hin', hle', herr', hleft'⟩ :=
    ih (by omega) (by omega) hin hholes
  refine ⟨ret, last, p', o', hok, hin', by omega, herr', fun a ha => ?_⟩
  have hrest := hleft' a ha
  omega

/-- The move to the next block, when it is not the end of the call. -/
theorem InMap.goes_leave {α : Type} {n : ℕ}
    {f : Unit → InoContext → Except Fault (Outcome α)}
    (hsize : TableSize env.fs e) (h : InMap env e r p o self)
    (hholes : ∀ c ∈ leaveMoves env self, ¬ReadsHole env e c)
    (hf : ∀ next p' o', leaveBlock env self = .ok (.ok (), next) →
      InMap env e r p' o' next → o' < 4 * e →
        Goes env e r p' o' n (f () next)) :
    Goes env e r p o n (unlessFailed (leaveBlock env self) f) := by
  obtain ⟨ret, next, p₁, o₁, hok, hin, hle, herr, hleft⟩ := h.leave hsize hholes
  cases ret with
  | error err =>
      rw [hok]
      exact ⟨_, next, p₁, o₁, rfl, hin, hle, fun err' heq hs => by
        cases heq
        exact Or.inl (herr err rfl hs), nofun⟩
  | ok =>
      obtain ⟨hlt, hbytes⟩ := hleft rfl
      obtain ⟨ret, last, p', o', hlast, hin', hle', herr', hleft'⟩ :=
        hf next p₁ o₁ hok hin hlt
      rw [hok]
      exact ⟨ret, last, p', o', hlast, hin', by omega, herr', fun a ha =>
        (hleft' a ha).trans hbytes.le⟩

theorem InMap.skips (hsize : TableSize env.fs e) (fuel : ℕ)
    {remaining : ℕ} (hfuel : remaining < fuel)
    (hsmall : remaining ≤ streamMaxTransferSize)
    (h : InMap env e r p o self)
    (hholes : ∀ c ∈ skipreadMoves env fuel remaining self,
      ¬ReadsHole env e c) :
    Goes env e r p o remaining (skipreadLoop env fuel remaining self) := by
  induction fuel generalizing p o remaining self with
  | zero => exact absurd hfuel (Nat.not_lt_zero _)
  | succ fuel ih =>
      rw [skipreadLoop_succ]
      unfold skipreadMoves at hholes
      by_cases hzero : remaining = 0
      · subst hzero
        rw [if_pos rfl]
        exact .done h _
      rw [if_neg hzero] at hholes ⊢
      obtain ⟨hleaves, hholes⟩ := List.forall_mem_append.1 hholes
      refine h.goes_leave hsize hleaves ?_
      intro self₁ p₁ o₁ hleave hin₁ hlt₁
      rw [hleave] at hholes
      obtain ⟨hskips, hholes⟩ := List.forall_mem_append.1 hholes
      obtain ⟨count, ret, self₂, p₂, hcount, hskip, hafter, hin₂, hle₂, herr₂,
        hleft₂⟩ := hin₁.passWhole hsize hskips
      have hmul := Nat.mul_le_mul_right (4 * e) hle₂
      dsimp only
      rw [hcount] at hholes ⊢
      rw [hskip] at hholes ⊢
      cases ret with
      | error err =>
          exact ⟨_, self₂, p₂, o₁, rfl, hin₂, by omega, fun err' heq hs => by
            cases heq
            exact Or.inl (herr₂ err rfl hs), nofun⟩
      | ok =>
          obtain ⟨hwhole, hbytes⟩ := hleft₂ rfl
          have hremaining : wrapSub remaining
              (wrap (toSize env.fs.blocksize * count)) =
              remaining - count * (4 * e) := by
            unfold streamMaxTransferSize at hsmall
            rw [hsize.toSize_eq, Nat.mul_comm, wrap_of_lt (by omega),
              wrapSub_of_le hwhole (by omega)]
          change ∀ c ∈ skipreadMoves env fuel _ _, _ at hholes
          change Goes env e r p₁ o₁ remaining (Ext2.skipPart env fuel _ _)
          rw [hremaining] at hholes ⊢
          obtain ⟨ret, last, p', o', hok, hin', hle', herr', hleft'⟩ :=
            hafter.skipPart hsize ih hlt₁ (by omega) (by omega)
              fun _ => hholes
          refine ⟨ret, last, p', o', hok, hin', by omega, herr', fun a ha => ?_⟩
          have hrest := hleft' a ha
          omega

theorem readLoop_unlessFailed (env : Env) (fuel remainingLen : ℕ)
    (done : Bytes) (self : InoContext) :
    readLoop env (fuel + 1) remainingLen done self =
      if remainingLen = 0 then .ok (.ok done, self)
      else unlessFailed (leaveBlock env self) fun _ self =>
        unlessFailed (readWhole env self remainingLen)
          fun (bytes, remainingLen) self =>
            readPart env fuel remainingLen (done ++ bytes) self := by
  rw [readLoop_succ]
  refine if_congr Iff.rfl rfl ?_
  cases leaveBlock env self with
  | error fault => rfl
  | ok outcome =>
      obtain ⟨ret, next⟩ := outcome
      cases ret with
      | error err => rfl
      | ok =>
          dsimp only [unlessFailed, ok_bind]
          cases readWhole env next remainingLen with
          | error fault => rfl
          | ok outcome =>
              obtain ⟨ret, last⟩ := outcome
              cases ret <;> rfl

/-- The request is shorter than a block, so no block is read directly. -/
theorem InMap.reads (hsize : TableSize env.fs e) (fuel : ℕ)
    {remaining : ℕ} {done : Bytes} (hfuel : remaining < fuel)
    (hsmall : remaining < 4 * e) (h : InMap env e r p o self)
    (hholes : ∀ c ∈ readMoves env fuel remaining self, ¬ReadsHole env e c) :
    Goes env e r p o remaining (readLoop env fuel remaining done self) := by
  have hmax : remaining ≤ streamMaxTransferSize := by
    have hle := hsize.le
    unfold streamMaxTransferSize
    omega
  induction fuel generalizing p o remaining done self with
  | zero => exact absurd hfuel (Nat.not_lt_zero _)
  | succ fuel ih =>
      rw [readLoop_unlessFailed]
      unfold readMoves at hholes
      by_cases hzero : remaining = 0
      · subst hzero
        rw [if_pos rfl]
        exact .done h _
      rw [if_neg hzero] at hholes ⊢
      obtain ⟨hleaves, hholes⟩ := List.forall_mem_append.1 hholes
      refine h.goes_leave hsize hleaves ?_
      intro self₁ p₁ o₁ hleave hin₁ hlt₁
      rw [hleave] at hholes
      have hcount : wholeBlocks env self₁ remaining = 0 := by
        rw [hsize.wholeBlocks_eq hin₁.offset_eq, if_neg (by omega)]
      have hwhole : readWhole env self₁ remaining =
          .ok (.ok ([], remaining), self₁) := by
        unfold readWhole
        rw [hcount]
        rfl
      rw [hwhole]
      change Goes env e r p₁ o₁ remaining
        (readPart env fuel remaining (done ++ []) self₁)
      obtain ⟨ret, self₂, hfill, hin₂, herr, hbuf⟩ := hin₁.fill hsize
      change ∀ c ∈ movesBehind (fillBlockbuf env self₁) _, _ at hholes
      rw [hfill] at hholes
      unfold readPart
      rw [if_neg hzero, hfill, ok_bind]
      cases ret with
      | error err =>
          exact ⟨_, self₂, p₁, o₁, rfl, hin₂, le_rfl, fun err' heq hs =>
            absurd hs (herr err rfl), nofun⟩
      | ok buf =>
          obtain ⟨len, hlen, hpos, hle, hwrap, htake, hbytes⟩ :=
            hin₂.part hsize hlt₁ hzero hmax
          change ∀ c ∈ readMoves env fuel
            (wrapSub remaining (partLen env self₂ remaining))
            (afterPart (partLen env self₂ remaining) self₂), _ at hholes
          rw [hlen, hwrap] at hholes
          dsimp only
          have hroom : o₁ + len ≤ buf.size := by
            rw [hbuf buf rfl]
            exact htake.offset_le
          rw [hin₂.offset_eq, hsize.blocksize_eq,
            cAssert_of (decide_eq_true (by exact_mod_cast hlt₁)), ok_bind,
            hlen, cAssert_of (decide_eq_true hpos.ne'), ok_bind,
            if_pos hroom, hwrap]
          have hrest : Goes env e r p₁ (o₁ + len) (remaining - len)
              (readLoop env fuel (remaining - len)
                (done ++ [] ++ bytesFrom buf.data o₁ len)
                (afterPart len self₂)) :=
            ih (by omega) (by omega) htake hholes (by omega)
          obtain ⟨ret, last, p', o', hok, hin', hle', herr', hleft'⟩ := hrest
          rw [afterPart, hin₂.offset_eq] at hok
          refine ⟨ret, last, p', o', hok, hin', by omega, herr', fun a ha => ?_⟩
          have hrest := hleft' a ha
          omega

/-! ## One call -/

theorem InMap.readInode (hsize : TableSize env.fs e) {len : ℕ}
    (hsmall : len < 4 * e) (h : InMap env e r p o self)
    (hholes : ∀ c ∈ readMoves env (len + 1) len self, ¬ReadsHole env e c) :
    Goes env e r p o len (readInode env self len) := by
  have hmax : len ≤ streamMaxTransferSize := by
    have hle := hsize.le
    unfold streamMaxTransferSize
    omega
  unfold Ext2.readInode
  rw [cAssert_of (decide_eq_true hmax), ok_bind]
  exact h.reads hsize (len + 1) (Nat.lt_succ_self len) hsmall hholes

theorem InMap.skipreadInode (hsize : TableSize env.fs e) {len : ℕ}
    (hsmall : len ≤ streamMaxTransferSize) (h : InMap env e r p o self)
    (hholes : ∀ c ∈ skipreadMoves env (len + 1) len self,
      ¬ReadsHole env e c) :
    Goes env e r p o len (skipreadInode env self len) := by
  unfold Ext2.skipreadInode
  rw [cAssert_of (decide_eq_true hsmall), ok_bind]
  exact h.skips hsize (len + 1) (Nat.lt_succ_self len) hsmall hholes

theorem namelen_le (header : Bytes) : namelen header ≤ 255 :=
  Nat.le_of_lt_succ (BitVec.isLt _)

theorem entrysize_lt (header : Bytes) : entrysize header < 65536 := by
  unfold entrysize
  rw [u16leAt_eq]
  have hlow := (header.getD 4 0).isLt
  have hhigh := (header.getD 5 0).isLt
  omega

/-- The length which is skipped, when the record holds its header and name. -/
theorem skiplen_eq {header : Bytes} (h : readlen header ≤ entrysize header) :
    skiplen header = entrysize header - readlen header :=
  wrapSub_of_le h (by have hlt := entrysize_lt header; omega)

/-- It wraps around when the record does not. -/
theorem lt_skiplen {header : Bytes} (h : entrysize header < readlen header) :
    streamMaxTransferSize < skiplen header := by
  have hname := namelen_le header
  unfold skiplen wrapSub wrap streamMaxTransferSize
  unfold readlen at h ⊢
  omega

theorem unlessFailed_eq_ok {α β : Type} {x : Except Fault (Outcome α)}
    {f : α → InoContext → Except Fault (Outcome β)} {b : β}
    {last : InoContext} (h : unlessFailed x f = .ok (.ok b, last)) :
    ∃ a next, x = .ok (.ok a, next) ∧ f a next = .ok (.ok b, last) := by
  obtain ⟨⟨ret, next⟩, hx, h⟩ := bind_eq_ok h
  cases ret with
  | error err => cases h
  | ok a => exact ⟨a, next, hx, h⟩

/-- The record in front of the cursor holds its header and its name. -/
def LongRecord (env : Env) (self : InoContext) : Prop :=
  ∀ header name next, readName env self = .ok (.ok (header, name), next) →
    readlen header ≤ entrysize header

/-- No move in the turn takes a hole for a block. -/
def PassesNoHole (env : Env) (e : ℕ) (self : InoContext) : Prop :=
  ∀ c ∈ recordMoves env self, ¬ReadsHole env e c

theorem InMap.readHeader (hsize : TableSize env.fs e)
    (h : InMap env e r p o self)
    (hholes : ∀ c ∈ readMoves env 9 8 self, ¬ReadsHole env e c) :
    Goes env e r p o 8 (readHeader env self) := by
  have hge := hsize.ge
  refine (h.readInode hsize (by omega) hholes).unlessFailed (m := 0) ?_
  intro header next p' o' _ hin
  split
  next =>
    refine ⟨_, next, p', o', rfl, hin, le_rfl, fun err heq _ => ?_, nofun⟩
    cases heq
    exact Or.inr rfl
  next => exact .done hin _

/-- A turn of the loop: the two reads are in a block or two, and the skip gets
the length which is left. -/
theorem InMap.readRecord (hsize : TableSize env.fs e)
    (h : InMap env e r p o self)
    (hlong : LongRecord env self) (hholes : PassesNoHole env e self) :
    Goes env e r p o 8 (readRecord env self) := by
  have hge := hsize.ge
  obtain ⟨hheader, hholes⟩ := List.forall_mem_append.1 hholes
  have hname : Goes env e r p o 8 (readName env self) := by
    refine (h.readHeader hsize hheader).unlessFailed (m := 0) ?_
    intro header next p' o' hok hin
    have hle := namelen_le header
    rw [hok] at hholes
    have hmoves := (List.forall_mem_append.1 hholes).1
    exact ((hin.readInode hsize (by omega) hmoves).mono
      (Nat.zero_le _)).unlessFailed (m := 0) fun _ _ _ _ _ hin' => .done hin' _
  refine hname.unlessFailed (m := 0) ?_
  rintro ⟨header, name⟩ next p' o' hok hin
  have hskip : skiplen header ≤ streamMaxTransferSize := by
    have hlt := entrysize_lt header
    rw [skiplen_eq (hlong header name next hok)]
    unfold streamMaxTransferSize
    omega
  obtain ⟨header', mid, hread, hok⟩ := unlessFailed_eq_ok hok
  obtain ⟨name', next', hread', hok⟩ := unlessFailed_eq_ok hok
  cases hok
  rw [hread] at hholes
  have hmoves := (List.forall_mem_append.1 hholes).2
  rw [hread'] at hmoves
  exact ((hin.skipreadInode hsize hskip hmoves).mono
    (Nat.zero_le _)).unlessFailed (m := 0) fun _ _ _ _ _ hin' => .done hin' _

/-- Every turn takes the bytes of a header at least. -/
theorem InMap.readRecords (hsize : TableSize env.fs e) (fuel : ℕ)
    (hfuel : bytesLeft e p o < fuel) (h : InMap env e r p o self)
    (hlong : ∀ c ∈ turnsFrom env fuel self, LongRecord env c)
    (hholes : ∀ c ∈ turnsFrom env fuel self, PassesNoHole env e c) :
    Goes env e r p o 0 (readRecords env fuel self) := by
  induction fuel generalizing p o self with
  | zero => exact absurd hfuel (Nat.not_lt_zero _)
  | succ fuel ih =>
      rw [turnsFrom, List.forall_mem_cons] at hlong hholes
      obtain ⟨hfirst, hlong⟩ := hlong
      obtain ⟨hmoves, hholes⟩ := hholes
      obtain ⟨ret, next, p', o', hok, hin, hle, herr, hleft⟩ :=
        h.readRecord hsize hfirst hmoves
      rw [Ext2.readRecords, hok]
      rw [hok] at hlong hholes
      cases ret with
      | error err => exact ⟨_, next, p', o', rfl, hin, hle, herr, nofun⟩
      | ok out =>
          have hbytes := hleft out rfl
          change Goes env e r p o 0
            (if out.dIno ≠ 0 then .ok (.ok out, next) else _)
          change ∀ c ∈ (if out.dIno ≠ 0 then [] else turnsFrom env fuel next),
            _ at hlong hholes
          by_cases hused : out.dIno ≠ 0
          · rw [if_pos hused]
            exact ⟨_, next, p', o', rfl, hin, hle, nofun, fun _ _ => by omega⟩
          · rw [if_neg hused] at hlong hholes ⊢
            obtain ⟨ret, last, p₂, o₂, hlast, hin₂, hle₂, herr₂, hleft₂⟩ :=
              ih (by omega) hin hlong hholes
            refine ⟨ret, last, p₂, o₂, hlast, hin₂, by omega, herr₂,
              fun a ha => ?_⟩
            have hrest := hleft₂ a ha
            omega

/-- A record which is too short ends the call in an assertion. -/
theorem readRecord_error (h : ¬LongRecord env self) :
    ∃ fault, readRecord env self = .error fault := by
  unfold LongRecord at h
  simp only [not_forall, Nat.not_le] at h
  obtain ⟨header, name, next, hok, hshort⟩ := h
  have hlen : ¬skiplen header ≤ streamMaxTransferSize :=
    Nat.not_le_of_lt (lt_skiplen hshort)
  unfold readRecord
  rw [hok]
  dsimp only [unlessFailed, ok_bind]
  unfold skipreadInode
  rw [decide_eq_false hlen]
  exact ⟨_, rfl⟩

theorem readRecords_error {fuel : ℕ} {c : InoContext} {fault : Fault}
    (hc : c ∈ turnsFrom env fuel self)
    (hfault : readRecord env c = .error fault) :
    readRecords env fuel self = .error fault := by
  induction fuel generalizing self with
  | zero => cases hc
  | succ fuel ih =>
      rw [turnsFrom, List.mem_cons] at hc
      rw [readRecords]
      rcases hc with rfl | hc
      · rw [hfault]
        rfl
      · cases hrecord : readRecord env self with
        | error fault' =>
            rw [hrecord] at hc
            cases hc
        | ok outcome =>
            obtain ⟨ret, next⟩ := outcome
            rw [hrecord] at hc
            cases ret with
            | error err => cases hc
            | ok out =>
                change c ∈ (if out.dIno ≠ 0 then []
                  else turnsFrom env fuel next) at hc
                change (if out.dIno ≠ 0 then .ok (.ok out, next)
                  else readRecords env fuel next) = _
                split at hc
                next => cases hc
                next hfree =>
                  rw [if_neg hfree]
                  exact ih hc

/-! ## Calls in a row -/

/-- The contexts in front of the turns of a call. -/
def turns (env : Env) (self : InoContext) : List InoContext :=
  turnsFrom env (directoryFuel env) self

/-- The bytes which the cursor over the block map has left behind. -/
def cursorByte (e : ℕ) (blocksize : ℤ) (self : InoContext) : ℕ :=
  nextLogical e self blocksize * (4 * e) + self.blockbuf.offsetInBuf

/-- The current block is a mapped block behind which the cursor stands. -/
def OnBlock (env : Env) (e : ℕ) (self : InoContext) : Prop :=
  ∃ k < nextLogical e self env.fs.blocksize, Mapped env.entry e self.record k ∧
    self.currentBlockAddr = blockAddress env.entry e self.record k

/-- The call returns an entry or an error; what it hands to `read_inode` and
`skipread_inode` is small and not wrapped, and its cursor goes forward and
stays on the blocks of the directory. -/
structure Reported (env : Env) (e : ℕ) (context : InoContext) : Prop where
  returns : ∃ ret next, readDirectory env context = .ok (ret, next)
  lengths : ∀ c ∈ turns env context, ∀ header name next,
    readName env c = .ok (.ok (header, name), next) →
      namelen header ≤ streamMaxTransferSize ∧
        skiplen header ≤ streamMaxTransferSize ∧
        (skiplen header : ℤ) = (entrysize header : ℤ) - readlen header
  forward : ∀ ret next, readDirectory env context = .ok (ret, next) →
    cursorByte e env.fs.blocksize context ≤
      cursorByte e env.fs.blocksize next
  inside : ∀ ret next, readDirectory env context = .ok (ret, next) →
    OnBlock env e next
  ended : env.ReadsInode e context.record → ∀ err next,
    readDirectory env context = .ok (.error err, next) →
      err = .enoent ∨ err = .enametoolong

/-- All calls so far have met the two conditions; the errors do not matter. -/
inductive Reached (env : Env) (e : ℕ) (first : InoContext) :
    InoContext → Prop
  | opened : Reached env e first first
  | read {context next : InoContext} {ret : Except Errno Dirent}
      (before : Reached env e first context)
      (long : ∀ c ∈ turns env context, LongRecord env c)
      (holes : ∀ c ∈ turns env context, PassesNoHole env e c)
      (call : readDirectory env context = .ok (ret, next)) :
      Reached env e first next

theorem InMap.readDirectory (hsize : TableSize env.fs e)
    (h : InMap env e r p o self)
    (hlong : ∀ c ∈ turns env self, LongRecord env c)
    (hholes : ∀ c ∈ turns env self, PassesNoHole env e c) :
    Goes env e r p o 0 (readDirectory env self) := by
  refine h.readRecords hsize _ ?_ hlong hholes
  have hentries : toSize env.fs.blocksize / 4 = e := by
    rw [hsize.toSize_eq]
    omega
  unfold bytesLeft directoryFuel
  dsimp only
  rw [hentries, hsize.toSize_eq, Nat.add_mul]
  have hmul := Nat.mul_le_mul_right (4 * e) (Nat.sub_le (maxBlocks e) p)
  omega

theorem inMap_of_openWalk (hsize : TableSize env.fs e) {allocs : ℕ}
    (hopen : openWalk env r allocs = .ok self) : InMap env e r 1 0 self := by
  obtain ⟨ret, next, hok, hbuf, houtcome⟩ := nextInodeBlock_direct
    (stands_fresh hsize r allocs) (show 0 < directBlockPointerCount by decide)
  unfold openWalk firstBlock at hopen
  rw [hok, ok_bind] at hopen
  rcases houtcome with ⟨rfl, -⟩ | ⟨rfl, hstands, hmapped, hcurrent⟩
  · cases hopen
  · cases hopen
    refine ⟨hstands, ?_, Nat.zero_le _, ⟨0, Nat.zero_lt_one, hmapped, hcurrent⟩,
      ?_⟩
    · rw [hbuf]
      rfl
    · rw [hbuf]
      nofun

theorem Reached.inMap (hsize : TableSize env.fs e) {first : InoContext}
    (hfirst : InMap env e r p o first) (h : Reached env e first self) :
    ∃ p' o', InMap env e r p' o' self := by
  induction h with
  | opened => exact ⟨p, o, hfirst⟩
  | read before long holes call ih =>
      obtain ⟨p₁, o₁, hin⟩ := ih
      obtain ⟨ret, next, p', o', hok, hin', -⟩ :=
        hin.readDirectory hsize long holes
      cases hok.symm.trans call
      exact ⟨p', o', hin'⟩

theorem InMap.reported (hsize : TableSize env.fs e)
    (h : InMap env e r p o self)
    (hlong : ∀ c ∈ turns env self, LongRecord env c)
    (hholes : ∀ c ∈ turns env self, PassesNoHole env e c) :
    Reported env e self := by
  obtain ⟨ret, next, p', o', hok, hin, hle, herr, -⟩ :=
    h.readDirectory hsize hlong hholes
  refine ⟨⟨ret, next, hok⟩, ?_, ?_, ?_, ?_⟩
  · intro c hc header name next' hname
    have hle := hlong c hc header name next' hname
    have hsmall := namelen_le header
    have hlt := entrysize_lt header
    rw [skiplen_eq hle]
    unfold streamMaxTransferSize
    refine ⟨by omega, by omega, ?_⟩
    omega
  · intro ret' next' hok'
    cases hok.symm.trans hok'
    unfold cursorByte
    rw [h.stands.nextLogical_eq hsize, h.offset_eq,
      hin.stands.nextLogical_eq hsize, hin.offset_eq]
    exact hle
  · intro ret' next' hok'
    cases hok.symm.trans hok'
    unfold OnBlock
    rw [hin.stands.nextLogical_eq hsize, hin.stands.record]
    exact hin.inside
  · rw [h.stands.record]
    intro hs err next' hok'
    cases hok.symm.trans hok'
    exact herr err rfl hs

/-- In any run whose calls have met the two conditions so far, a call which
takes no hole for a block is as it should be exactly when no record it reads
is shorter than its header and name. -/
theorem reported_iff (hsize : TableSize env.fs e) {allocs : ℕ}
    {first : InoContext} (hopen : openWalk env r allocs = .ok first)
    (hreached : Reached env e first self)
    (hholes : ∀ c ∈ turns env self, PassesNoHole env e c) :
    Reported env e self ↔ ∀ c ∈ turns env self, LongRecord env c := by
  obtain ⟨p, o, hin⟩ := hreached.inMap hsize (inMap_of_openWalk hsize hopen)
  constructor
  · intro hreported c hc
    by_contra hshort
    obtain ⟨fault, hfault⟩ := readRecord_error hshort
    obtain ⟨ret, next, hok⟩ := hreported.returns
    have herror : readDirectory env self = .error fault :=
      readRecords_error hc hfault
    rw [hok] at herror
    cases herror
  · exact fun hlong => hin.reported hsize hlong hholes

/-- A block starts with a deleted record, and behind it stands one of 257 bytes
for a name of one. -/
def volumeOfRecords : Env :=
  { volumeOfOnes with
    disk := fun _ _ => .ok fun i =>
      if i = 4 then 12
      else if i < 4 ∨ i = 5 ∨ i = 7 ∨ i = 19 then 0 else 1 }

/-- The deleted record is passed in a turn of its own. -/
theorem second_record_reported :
    ∃ first, openWalk volumeOfRecords oneByte 0 = .ok first ∧
      (turns volumeOfRecords first).length = 2 ∧
      Reported volumeOfRecords 256 first := by
  obtain ⟨first, second, hopen, hturns, hmoves, hmoves', ⟨next, hname⟩,
      next', hname'⟩ :
      ∃ first second, openWalk volumeOfRecords oneByte 0 = .ok first ∧
        turns volumeOfRecords first = [first, second] ∧
        recordMoves volumeOfRecords first = [] ∧
        recordMoves volumeOfRecords second = [] ∧
        (∃ next, readName volumeOfRecords first =
          .ok (.ok ([0, 0, 0, 0, 12, 0, 1, 0], [1]), next)) ∧
        ∃ next, readName volumeOfRecords second =
          .ok (.ok ([1, 1, 1, 1, 1, 1, 1, 0], [1]), next) :=
    ⟨_, _, rfl, rfl, rfl, rfl, ⟨_, rfl⟩, _, rfl⟩
  have hsize : TableSize volumeOfRecords.fs 256 := volumeOfOnes_tableSize
  refine ⟨first, hopen, by rw [hturns]; rfl,
    (reported_iff hsize hopen .opened ?_).2 ?_⟩
  · rw [hturns, List.forall_mem_cons, List.forall_mem_singleton]
    refine ⟨fun c hc => ?_, fun c hc => ?_⟩
    · rw [hmoves] at hc
      cases hc
    · rw [hmoves'] at hc
      cases hc
  · rw [hturns, List.forall_mem_cons, List.forall_mem_singleton]
    refine ⟨fun header name after hok => ?_, fun header name after hok => ?_⟩
    · cases hname.symm.trans hok
      decide
    · cases hname'.symm.trans hok
      decide

/-- A directory of one block of zeros: the record has length 0. -/
theorem zeros_not_reported :
    ¬∀ (env : Env) (e : ℕ) (r : InodeRecord) (allocs : ℕ) (first : InoContext),
      TableSize env.fs e → openWalk env r allocs = .ok first →
        Reported env e first := by
  intro h
  obtain ⟨ret, next, hok⟩ := (h volumeOfZeros 256 oneByte 0 _
    volumeOfOnes_tableSize rfl).returns
  cases hok

end Ext2
end Yjkos
