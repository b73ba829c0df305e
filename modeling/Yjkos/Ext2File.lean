import Yjkos.Ext2Read

/-!
# File descriptors of ext2 files

`fd_op_read` and `fd_op_seek` in any order.  A read is limited by the cursor of
the descriptor, which only reads move, but takes its bytes from where the
context of the inode stands, which a seek moves as well.  As long as the two
limits agree, every read returns the bytes at the position which the calls
before it have set.
-/

namespace Yjkos
namespace Ext2

/-! ## Calls in a row -/

inductive FdCall where
  | read (len : ℕ)
  | seek (offset : ℕ)

/-- What a call returns. -/
inductive FdResult where
  | read (ret : Except Errno Bytes)
  | seek (ret : Except Errno Unit)

def runCalls (env : Env) : List FdCall → OpenFdContext →
    Except Fault (List FdResult × OpenFdContext)
  | [], self => .ok ([], self)
  | .read len :: rest, self => do
      let (ret, self) ← fdOpRead env self len
      let (results, self) ← runCalls env rest self
      .ok (.read ret :: results, self)
  | .seek offset :: rest, self => do
      let (ret, self) ← fdOpSeek env self offset
      let (results, self) ← runCalls env rest self
      .ok (.seek ret :: results, self)

/-- What the calls are to return from position `pos` on. -/
def fileResults (e : ℕ) (r : InodeRecord)
    (content : ℕ → BitVec 8) : ℕ → List FdCall → List FdResult
  | _, [] => []
  | pos, .read len :: rest =>
      let count := min len (r.size - pos)
      .read (.ok (fileBytes e r content pos count)) ::
        fileResults e r content (pos + count) rest
  | _, .seek offset :: rest =>
      .seek (.ok ()) :: fileResults e r content offset rest

/-- At each read, the bytes which are left behind those read since the file was
opened give the same limit as the bytes which are left behind `pos`.  A seek
stays in front of the end of the mapped blocks. -/
def KeepsStep (size capacity : ℕ) : ℕ → ℕ → List FdCall → Prop
  | _, _, [] => True
  | cursorpos, pos, .read len :: rest =>
      len ≤ streamMaxTransferSize ∧
        min len (size - cursorpos) = min len (size - pos) ∧
        KeepsStep size capacity (cursorpos + min len (size - pos))
          (pos + min len (size - pos)) rest
  | cursorpos, _, .seek offset :: rest =>
      offset ≤ size ∧ offset < capacity ∧ offset ≤ streamMaxTransferSize ∧
        KeepsStep size capacity cursorpos offset rest

variable {env : Env} {e : ℕ} {r : InodeRecord} {blocks : ℕ}
  {content : ℕ → BitVec 8}

/-! ## One call -/

/-- The next byte of the inode is the one at `pos`, and `cursorpos` bytes have
been counted. -/
structure FdAt (env : Env) (e : ℕ) (r : InodeRecord) (blocks cursorpos pos : ℕ)
    (fd : OpenFdContext) : Prop where
  cursor : fd.cursorpos = cursorpos
  cursor_le : cursorpos ≤ r.size
  pos_le : pos ≤ r.size
  stands : Positioned env e r blocks pos fd.inocontext

theorem readlen_eq {size cursorpos len : ℕ} (hcursor : cursorpos ≤ size)
    (hlen : len ≤ streamMaxTransferSize) :
    (if (size : ℤ) - cursorpos < len then toSize ((size : ℤ) - cursorpos)
      else len) = min len (size - cursorpos) := by
  unfold streamMaxTransferSize at hlen
  split
  next hshort =>
    have hlt : size - cursorpos < 4294967296 := by omega
    rw [← Nat.cast_sub hcursor, toSize_natCast hlt]
    omega
  next hlong => omega

namespace File

variable (h : File env e r blocks content)
include h

theorem fdOpRead_at (hahead : LookaheadReads env e r blocks)
    (hmapped : r.size ≤ blocks * (4 * e))
    {cursorpos pos len count : ℕ} {fd : OpenFdContext}
    (hat : FdAt env e r blocks cursorpos pos fd)
    (hlen : len ≤ streamMaxTransferSize)
    (hlimit : min len (r.size - cursorpos) = count)
    (hcount : pos + count ≤ r.size) :
    ∃ next, fdOpRead env fd len =
        .ok (.ok (fileBytes e r content pos count), next) ∧
      FdAt env e r blocks (cursorpos + count) (pos + count) next := by
  have hpos := hat.pos_le
  have hcursor := hat.cursor_le
  obtain ⟨inocontext, hread, hstands⟩ := h.readInode_at hahead hat.stands
    (show pos + count ≤ blocks * (4 * e) by omega)
    (show count ≤ streamMaxTransferSize by omega)
  refine ⟨⟨inocontext, cursorpos + count⟩, ?_,
    ⟨rfl, by omega, by omega, hstands⟩⟩
  unfold fdOpRead
  rw [cAssert_of (decide_eq_true hlen), ok_bind, hat.stands.record, hat.cursor]
  dsimp only
  rw [readlen_eq hcursor hlen, hlimit, hread, ok_bind]

theorem rewindinode_at {pos : ℕ} {self : InoContext}
    (hat : Positioned env e r blocks pos self) (hblocks : 0 < blocks) :
    ∃ first, rewindinode env self = .ok first ∧
      Positioned env e r blocks 0 first := by
  obtain ⟨first, -, hfirst, -⟩ := h.walkable.firstBlock hblocks self.allocs
  refine ⟨first, ?_, h.openWalk_at hfirst⟩
  unfold rewindinode
  rw [hat.record]
  exact hfirst

theorem seekInode_at {pos offset : ℕ} {self : InoContext}
    (hat : Positioned env e r blocks pos self)
    (hin : offset < blocks * (4 * e))
    (hsmall : offset ≤ streamMaxTransferSize) :
    ∃ next, seekInode env self offset = .ok (.ok (), next) ∧
      Positioned env e r blocks offset next := by
  have hblocks : 0 < blocks := by
    rcases Nat.eq_zero_or_pos blocks with rfl | hpos
    · omega
    · exact hpos
  obtain ⟨first, hrewind, hstart⟩ := h.rewindinode_at hat hblocks
  unfold seekInode seekLoop
  rw [hrewind, ok_bind]
  by_cases hzero : offset = 0
  · subst hzero
    rw [if_pos rfl]
    exact ⟨first, rfl, hstart⟩
  · obtain ⟨next, hskip, hnext⟩ := h.skipreadInode_at hstart
      (show 0 + offset < blocks * (4 * e) by omega) hsmall
    have hlen : ¬ sizeMax < offset := by
      unfold sizeMax
      unfold streamMaxTransferSize at hsmall
      omega
    rw [Nat.zero_add] at hnext
    refine ⟨next, ?_, hnext⟩
    rw [if_neg hzero, if_neg hlen]
    dsimp only
    rw [cAssert_of (decide_eq_true hzero), ok_bind, hskip, ok_bind]
    dsimp only
    -- All of the offset was skipped in one turn.
    rw [Nat.sub_self]
    obtain ⟨fuel, hfuel⟩ := Nat.exists_eq_succ_of_ne_zero hzero
    rw [hfuel]
    rfl

theorem fdOpSeek_at {cursorpos pos offset : ℕ} {fd : OpenFdContext}
    (hat : FdAt env e r blocks cursorpos pos fd) (hsize : offset ≤ r.size)
    (hin : offset < blocks * (4 * e))
    (hsmall : offset ≤ streamMaxTransferSize) :
    ∃ next, fdOpSeek env fd offset = .ok (.ok (), next) ∧
      FdAt env e r blocks cursorpos offset next := by
  obtain ⟨inocontext, hseek, hstands⟩ := h.seekInode_at hat.stands hin hsmall
  refine ⟨{ fd with inocontext := inocontext }, ?_,
    ⟨hat.cursor, hat.cursor_le, hsize, hstands⟩⟩
  unfold fdOpSeek
  rw [hseek, ok_bind]

/-! ## All of them -/

theorem runCalls_at (hahead : LookaheadReads env e r blocks)
    (hmapped : r.size ≤ blocks * (4 * e)) {cursorpos pos : ℕ}
    {fd : OpenFdContext} {calls : List FdCall}
    (hat : FdAt env e r blocks cursorpos pos fd)
    (hgood : KeepsStep r.size (blocks * (4 * e)) cursorpos pos calls) :
    ∃ last, runCalls env calls fd =
      .ok (fileResults e r content pos calls, last) := by
  induction calls generalizing cursorpos pos fd with
  | nil => exact ⟨fd, rfl⟩
  | cons call rest ih =>
      cases call with
      | read len =>
          obtain ⟨hlen, hlimit, hrest⟩ := hgood
          have hpos := hat.pos_le
          obtain ⟨next, hread, hnext⟩ :=
            h.fdOpRead_at hahead hmapped hat hlen hlimit (by omega)
          obtain ⟨last, hlast⟩ := ih hnext hrest
          refine ⟨last, ?_⟩
          rw [runCalls, hread, ok_bind]
          dsimp only
          rw [hlast, ok_bind, fileResults]
      | seek offset =>
          obtain ⟨hsize, hin, hsmall, hrest⟩ := hgood
          obtain ⟨next, hseek, hnext⟩ := h.fdOpSeek_at hat hsize hin hsmall
          obtain ⟨last, hlast⟩ := ih hnext hrest
          refine ⟨last, ?_⟩
          rw [runCalls, hseek, ok_bind]
          dsimp only
          rw [hlast, ok_bind, fileResults]

end File

/-- The calls on a descriptor which has been opened return what the file holds
at their positions. -/
theorem calls_give_file (h : File env e r blocks content)
    (hahead : LookaheadReads env e r blocks)
    (hmapped : r.size ≤ blocks * (4 * e)) {allocs : ℕ} {self : InoContext}
    (hopen : openWalk env r allocs = .ok self) {calls : List FdCall}
    (hgood : KeepsStep r.size (blocks * (4 * e)) 0 0 calls) :
    ∃ last, runCalls env calls ⟨self, 0⟩ =
      .ok (fileResults e r content 0 calls, last) :=
  h.runCalls_at hahead hmapped
    ⟨rfl, Nat.zero_le _, Nat.zero_le _, h.openWalk_at hopen⟩ hgood

theorem fourteenBlocks_calls :
    ∃ self, openWalk sampleVolume fourteenBlocks 0 = .ok self ∧
      ∃ last, runCalls sampleVolume
          [.read 1000, .seek 13500, .read 400, .seek 0, .read 2000] ⟨self, 0⟩ =
        .ok (fileResults 256 fourteenBlocks sampleContent 0
          [.read 1000, .seek 13500, .read 400, .seek 0, .read 2000], last) := by
  obtain ⟨self, _, hself, _⟩ :=
    fourteenBlocks_map.walkable.firstBlock (by decide) 0
  refine ⟨self, hself, calls_give_file fourteenBlocks_file
    fourteenBlocks_lookahead (by decide) hself ?_⟩
  simp only [KeepsStep]
  decide

/-- One byte in one block. -/
def oneByte : InodeRecord :=
  { fourteenBlocks with
    directBlockPtrs := [20, 0, 0, 0, 0, 0, 0, 0, 0, 0, 0, 0]
    singlyIndirectTable := 0
    size := 1 }

theorem oneByte_file : File sampleVolume 256 oneByte 1 sampleContent where
  tableSize := sampleVolume_tableSize
  memory := fun _ => rfl
  holeFree := by
    intro k hk
    unfold Mapped
    interval_cases k
    decide
  tables := fun k hk addr haddr => absurd haddr.1 (by omega)
  data := by
    intro k n hk hn _ _
    obtain rfl : k = 0 := by omega
    exact sampleVolume_delivers hn (show 20 + n ≤ 512 by omega)

theorem oneByte_lookahead : LookaheadReads sampleVolume 256 oneByte 1 where
  tables := fun addr haddr => absurd haddr.1 (by decide)
  zeroTable := fun ⟨_, _, _, htriply, _⟩ => absurd rfl htriply


theorem oneByte_bytes : fileBytes 256 oneByte sampleContent 0 1 = [0#8] := by
  decide

/-- The cursor of the descriptor is not set back by a seek to the start. -/
theorem rewound_read_is_empty :
    ∃ self last, openWalk sampleVolume oneByte 0 = .ok self ∧
      runCalls sampleVolume [.read 1, .seek 0, .read 1] ⟨self, 0⟩ =
        .ok ([.read (.ok [0#8]), .seek (.ok ()), .read (.ok [])], last) ∧
      fileResults 256 oneByte sampleContent 0 [.read 1, .seek 0, .read 1] =
        [.read (.ok [0#8]), .seek (.ok ()), .read (.ok [0#8])] ∧
      File sampleVolume 256 oneByte 1 sampleContent ∧
      LookaheadReads sampleVolume 256 oneByte 1 := by
  have hfile := oneByte_file
  have hahead := oneByte_lookahead
  have hmapped : oneByte.size ≤ 1 * (4 * 256) := by decide
  obtain ⟨self, -, hself, -⟩ := hfile.walkable.firstBlock Nat.one_pos 0
  have hopen : FdAt sampleVolume 256 oneByte 1 0 0 ⟨self, 0⟩ :=
    ⟨rfl, by decide, by decide, hfile.openWalk_at hself⟩
  obtain ⟨second, hfirst, hsecond⟩ := hfile.fdOpRead_at hahead hmapped
    hopen (show 1 ≤ streamMaxTransferSize by decide)
    (show min 1 (oneByte.size - 0) = 1 by decide) (by decide)
  obtain ⟨third, hseek, hthird⟩ := hfile.fdOpSeek_at hsecond
    (show 0 ≤ oneByte.size by decide) (by decide) (by decide)
  obtain ⟨last, hlast, -⟩ := hfile.fdOpRead_at hahead hmapped hthird
    (show 1 ≤ streamMaxTransferSize by decide)
    (show min 1 (oneByte.size - (0 + 1)) = 0 by decide) (by decide)
  refine ⟨self, last, hself, ?_, ?_, hfile, hahead⟩
  · simp only [runCalls, hfirst, hseek, hlast, ok_bind, oneByte_bytes]
    rfl
  · simp only [fileResults]
    rw [← oneByte_bytes]
    rfl

end Ext2
end Yjkos
