import Yjkos.Ext2DirectoryEnd
import Yjkos.Vfs

/-!
# Listing a directory

`read_directory` on directories which are well formed.  The blocks of a
directory are tiled by records, none of which crosses the end of its block,
and a record without an inode is a deleted one.  Every turn of the loop takes
one record, whichever block it is in, so the calls give the other records in
the order of the disk.
-/

namespace Yjkos
namespace Ext2

/-! ## The format -/

/-- A record of a directory. -/
structure DirRecord where
  ino : ℕ
  recLen : ℕ
  name : Bytes

def DirRecord.entry (self : DirRecord) : Dirent := ⟨self.ino, self.name⟩

/-- The length of a name, which has 16 bits unless the second byte is the type
of the file. -/
def nameLengthAt (fs : FsContext) (stream : ℕ → BitVec 8) (p : ℕ) : ℕ :=
  if fs.requiredFeatures &&& direntryContainsTypeField = 0 then
    u16leAt stream p
  else (stream p).toNat

/-- The record stands at byte `p` of a directory, inside of its block. -/
structure RecordAt (fs : FsContext) (blocksize : ℕ) (stream : ℕ → BitVec 8)
    (p : ℕ) (record : DirRecord) : Prop where
  ino : u32leAt stream p = record.ino
  recLen : u16leAt stream (p + 4) = record.recLen
  nameLength : nameLengthAt fs stream (p + 6) = record.name.length
  name : ∀ i, i < record.name.length →
    stream (p + 8 + i) = record.name.getD i 0
  fits : 8 + record.name.length ≤ record.recLen
  inside : p % blocksize + record.recLen ≤ blocksize
  short : record.name.length ≤ Vfs.nameMax
  noNul : record.ino ≠ 0 → 0 ∉ record.name

instance (fs : FsContext) (blocksize : ℕ) (stream : ℕ → BitVec 8) (p : ℕ)
    (record : DirRecord) : Decidable (RecordAt fs blocksize stream p record) :=
  decidable_of_iff
    (u32leAt stream p = record.ino ∧ u16leAt stream (p + 4) = record.recLen ∧
      nameLengthAt fs stream (p + 6) = record.name.length ∧
      (∀ i, i < record.name.length →
        stream (p + 8 + i) = record.name.getD i 0) ∧
      8 + record.name.length ≤ record.recLen ∧
      p % blocksize + record.recLen ≤ blocksize ∧
      record.name.length ≤ Vfs.nameMax ∧
      (record.ino ≠ 0 → 0 ∉ record.name))
    ⟨fun ⟨ino, recLen, nameLength, name, fits, inside, short, noNul⟩ =>
      ⟨ino, recLen, nameLength, name, fits, inside, short, noNul⟩,
    fun h => ⟨h.ino, h.recLen, h.nameLength, h.name, h.fits, h.inside, h.short,
      h.noNul⟩⟩

/-- The records stand one behind the other from byte `p` to byte `q`. -/
def Tiled (fs : FsContext) (blocksize : ℕ) (stream : ℕ → BitVec 8) :
    ℕ → List DirRecord → ℕ → Prop
  | p, [], q => p = q
  | p, record :: rest, q =>
      RecordAt fs blocksize stream p record ∧
        Tiled fs blocksize stream (p + record.recLen) rest q

instance Tiled.decidable (fs : FsContext) (blocksize : ℕ)
    (stream : ℕ → BitVec 8) :
    ∀ p records q, Decidable (Tiled fs blocksize stream p records q)
  | p, [], q => inferInstanceAs (Decidable (p = q))
  | p, record :: rest, q =>
      have := Tiled.decidable fs blocksize stream (p + record.recLen) rest q
      inferInstanceAs (Decidable (_ ∧ _))

/-- A directory: a file without holes, at least one block long, which records
tile block by block. -/
structure Directory (env : Env) (e : ℕ) (r : InodeRecord) (blocks : ℕ)
    (content : ℕ → BitVec 8) (records : List DirRecord) : Prop extends
    File env e r blocks content where
  blocks_pos : 0 < blocks
  ends : ∀ k, blocks ≤ k → ¬Mapped (tableEntry content e) e r k
  behind : ∀ k, blocks ≤ k → (k = blocks ∨ TableStart e blocks) → ∀ addr,
    TableTo (tableEntry content e) e r k addr → env.Delivers e content addr 1
  tiled : Tiled env.fs (4 * e) (fileByte e r content) 0 records
    (blocks * (4 * e))

/-- The entries of a directory, which are the records with an inode. -/
def entries (records : List DirRecord) : List Dirent :=
  (records.filter fun record => record.ino ≠ 0).map DirRecord.entry

theorem entries_cons_of_deleted {record : DirRecord} (rest : List DirRecord)
    (h : record.ino = 0) : entries (record :: rest) = entries rest := by
  unfold entries
  rw [List.filter_cons_of_neg (by simp [h])]

theorem entries_cons_of_used {record : DirRecord} (rest : List DirRecord)
    (h : record.ino ≠ 0) :
    entries (record :: rest) = record.entry :: entries rest := by
  unfold entries
  rw [List.filter_cons_of_pos (by simp [h]), List.map_cons]

/-! ## Inside of a block -/

variable {env : Env} {e : ℕ} {r : InodeRecord} {blocks p : ℕ}
  {content : ℕ → BitVec 8} {self : InoContext}

theorem getD_fileBytes {len i : ℕ} (hi : i < len) :
    (fileBytes e r content p len).getD i 0 =
      fileByte e r content (p + i) := by
  unfold fileBytes
  rw [List.getD_eq_getElem?_getD, List.getElem?_map, List.getElem?_range hi]
  rfl

/-- A read from the end of a block is one from the start of the next block. -/
theorem readInode_of_leave {next : InoContext} {len : ℕ} (hlen : len ≠ 0)
    (hleave : leaveBlock env self = .ok (.ok (), next))
    (hstay : leaveBlock env next = .ok (.ok (), next)) :
    readInode env self len = readInode env next len := by
  unfold readInode
  rw [readLoop_succ, readLoop_succ, if_neg hlen, if_neg hlen, hleave, hstay]

namespace File

variable (h : File env e r blocks content)
include h

theorem leaveBlock_inside {k o : ℕ} (hin : InBlock env e r k o self)
    (hlt : o < 4 * e) : leaveBlock env self = .ok (.ok (), self) := by
  unfold leaveBlock
  rw [hin.offset_eq, h.tableSize.blocksize_eq,
    if_neg (by exact_mod_cast Nat.not_le_of_lt hlt)]

theorem wholeBlocks_inside {k o len : ℕ} (hin : InBlock env e r k o self)
    (hpart : 0 < o ∨ len < 4 * e) : wholeBlocks env self len = 0 := by
  rw [h.tableSize.wholeBlocks_eq hin.offset_eq, if_neg (by omega)]

/-- A read which ends in its block, at the last byte of it or before. -/
theorem readInode_inBlock {k o len : ℕ} (hk : k < blocks)
    (hin : InBlock env e r k o self) (hle : o + len ≤ 4 * e)
    (hpart : 0 < o ∨ len < 4 * e) :
    ∃ next, readInode env self len =
        .ok (.ok (fileBytes e r content (k * (4 * e) + o) len), next) ∧
      InBlock env e r k (o + len) next := by
  have hsize := h.tableSize.le
  have hsmall : len ≤ streamMaxTransferSize := by
    unfold streamMaxTransferSize
    omega
  unfold readInode
  rw [cAssert_of (decide_eq_true hsmall), ok_bind, readLoop_succ]
  by_cases hnone : len = 0
  · subst hnone
    exact ⟨self, rfl, hin⟩
  have hcount := h.wholeBlocks_inside hin hpart
  have hwhole : readWhole env self len = .ok (.ok ([], len), self) := by
    unfold readWhole
    rw [hcount]
    rfl
  obtain ⟨n, next, hn, hread, hnext⟩ := @File.readPart_at _ _ _ _ _ h len k o
    len ([] ++ []) self hk (by omega) hin (Nat.pos_of_ne_zero hnone) hsmall
  obtain rfl : n = len := by omega
  refine ⟨next, ?_, hnext⟩
  rw [if_neg hnone, h.leaveBlock_inside hin (by omega), ok_bind]
  dsimp only
  rw [hwhole, ok_bind]
  dsimp only
  rw [hread, Nat.sub_self]
  cases n with
  | zero => exact absurd rfl hnone
  | succ fuel =>
      rw [readLoop_succ, if_pos rfl]
      rfl

theorem skipreadInode_inBlock {k o len : ℕ} (hin : InBlock env e r k o self)
    (hle : o + len ≤ 4 * e) (hpart : 0 < o ∨ len < 4 * e) :
    ∃ next, skipreadInode env self len = .ok (.ok (), next) ∧
      InBlock env e r k (o + len) next := by
  have hsize := h.tableSize.le
  have hsmall : len ≤ streamMaxTransferSize := by
    unfold streamMaxTransferSize
    omega
  unfold skipreadInode
  rw [cAssert_of (decide_eq_true hsmall), ok_bind, skipreadLoop_succ]
  by_cases hnone : len = 0
  · subst hnone
    exact ⟨self, rfl, hin⟩
  have hlen : partLen env self len = len := by
    rw [h.tableSize.partLen_eq hin.offset_eq hin.offset_le]
    omega
  have hzero : wrapSub len (wrap (toSize env.fs.blocksize * 0)) = len := by
    rw [Nat.mul_zero]
    exact wrapSub_of_le (Nat.zero_le len) (by omega)
  have hlast : wrapSub len len = 0 := by
    rw [wrapSub_of_le le_rfl (by omega), Nat.sub_self]
  have hbelow : (self.blockbuf.offsetInBuf : ℤ) < env.fs.blocksize := by
    rw [hin.offset_eq, h.tableSize.blocksize_eq]
    exact_mod_cast (show o < 4 * e by omega)
  have hpartLoop : skipPart env len len self =
      .ok (.ok (), afterPart len self) := by
    have hsome : len ≠ 0 := hnone
    unfold skipPart
    rw [if_neg hnone, cAssert_of (decide_eq_true hbelow), ok_bind, hlen]
    dsimp only
    rw [cAssert_of (decide_eq_true hsome), ok_bind, hlast]
    cases len with
    | zero => exact absurd rfl hnone
    | succ fuel => rw [skipreadLoop_succ, if_pos rfl]
  refine ⟨afterPart len self, ?_, hin.current.withBlockbuf _ _, ?_, hle,
    hin.buffered⟩
  · rw [if_neg hnone, h.leaveBlock_inside hin (by omega)]
    dsimp only [unlessFailed, ok_bind]
    rw [h.wholeBlocks_inside hin hpart, skipBlocks, hzero]
    exact hpartLoop
  · exact congrArg (· + len) hin.offset_eq

end File

/-! ## One record -/

/-- The first `p` bytes are consumed, and the current block is mapped. -/
def Inside (env : Env) (e : ℕ) (r : InodeRecord) (blocks p : ℕ)
    (context : InoContext) : Prop :=
  ∃ k o, k < blocks ∧ p = k * (4 * e) + o ∧ InBlock env e r k o context

/-- The fields of a record, as the code reads them from the header. -/
structure HeaderOf (fs : FsContext) (header : Bytes) (record : DirRecord) :
    Prop where
  ino : headerIno header = record.ino
  entrysize : entrysize header = record.recLen
  namelen : namelen header = record.name.length
  fits : ¬nameTooLong header fs

theorem RecordAt.header {fs : FsContext} {blocksize : ℕ}
    {stream : ℕ → BitVec 8} {record : DirRecord}
    (h : RecordAt fs blocksize stream p record) {header : Bytes}
    (hbytes : ∀ i, i < 8 → header.getD i 0 = stream (p + i)) :
    HeaderOf fs header record := by
  have hlength := h.nameLength
  have hshort := h.short
  have hlow := hbytes 6 (by decide)
  have hhigh := hbytes 7 (by decide)
  unfold nameLengthAt at hlength
  unfold Vfs.nameMax at hshort
  refine ⟨?_, ?_, ?_, ?_⟩
  · rw [← h.ino]
    exact u32leAt_congr fun i hi => by
      rw [Nat.zero_add]
      exact hbytes i (by omega)
  · rw [← h.recLen]
    exact u16leAt_congr fun i hi => by
      rw [Nat.add_assoc]
      exact hbytes (4 + i) (by omega)
  · unfold namelen
    rw [hlow, ← hlength]
    split
    next hplain =>
      rw [if_pos hplain, u16leAt_eq] at hlength
      rw [u16leAt_eq]
      omega
    next => rfl
  · rintro ⟨hplain, hlong⟩
    rw [if_pos hplain, u16leAt_eq] at hlength
    rw [hhigh] at hlong
    have hzero : (stream (p + 6 + 1)).toNat = 0 := by omega
    exact hlong (BitVec.eq_of_toNat_eq hzero)

theorem name_eq {fs : FsContext} {record : DirRecord} {blocksize : ℕ}
    (h : RecordAt fs blocksize (fileByte e r content) p record) :
    fileBytes e r content (p + 8) record.name.length = record.name := by
  refine List.ext_getElem (length_fileBytes _ _ _ _ _) fun i hi' hi => ?_
  have hread : (fileBytes e r content (p + 8) record.name.length).getD i 0 =
      record.name.getD i 0 := (getD_fileBytes hi).trans (h.name i hi)
  rw [List.getD_eq_getElem?_getD, List.getD_eq_getElem?_getD,
    List.getElem?_eq_getElem hi', List.getElem?_eq_getElem hi] at hread
  exact hread

theorem File.readRecord_at (h : File env e r blocks content)
    {record : DirRecord} (hin : Inside env e r blocks p self)
    (hat : RecordAt env.fs (4 * e) (fileByte e r content) p record)
    (hlt : p < blocks * (4 * e)) :
    ∃ next, readRecord env self = .ok (.ok record.entry, next) ∧
      Inside env e r blocks (p + record.recLen) next := by
  have hsize := h.tableSize.le
  have hroom := h.tableSize.ge
  have hfits := hat.fits
  have hinside := hat.inside
  obtain ⟨k, o, -, rfl, hin⟩ := hin
  obtain ⟨k, o', next, hleave, hk, ho, hp, hin⟩ := h.leaveBlock_at hin hlt
  rw [← hp] at hat hinside ⊢
  have hmod : (k * (4 * e) + o') % (4 * e) = o' := by
    rw [Nat.mul_comm, Nat.mul_add_mod, Nat.mod_eq_of_lt ho]
  rw [hmod] at hinside
  obtain ⟨behindHeader, hheader, hin₁⟩ := h.readInode_inBlock hk hin
    (show o' + 8 ≤ 4 * e by omega) (Or.inr (by omega))
  have hbytes := fun i (hi : i < 8) => @getD_fileBytes e r
    (k * (4 * e) + o') content 8 i hi
  generalize fileBytes e r content (k * (4 * e) + o') 8 = header
    at hheader hbytes
  obtain ⟨hino, hentry, hname, hshort⟩ := hat.header hbytes
  obtain ⟨behindName, hread, hin₂⟩ := h.readInode_inBlock hk hin₁
    (show o' + 8 + record.name.length ≤ 4 * e by omega) (Or.inl (by omega))
  rw [← Nat.add_assoc, name_eq hat] at hread
  have hskip : skiplen header = record.recLen - (8 + record.name.length) := by
    unfold skiplen readlen
    rw [hentry, hname, Nat.add_comm]
    exact wrapSub_of_le hfits (by omega)
  obtain ⟨last, hlast, hin₃⟩ := h.skipreadInode_inBlock hin₂
    (show o' + 8 + record.name.length +
      (record.recLen - (8 + record.name.length)) ≤ 4 * e by omega)
    (Or.inl (by omega))
  refine ⟨last, ?_, k, o' + record.recLen, hk, Nat.add_assoc _ _ _, ?_⟩
  · have hheader' : readHeader env self = .ok (.ok header, behindHeader) := by
      rw [readHeader, readInode_of_leave (by decide) hleave
        (h.leaveBlock_inside hin ho), hheader]
      exact if_neg hshort
    have hname' : readName env self =
        .ok (.ok (header, record.name), behindName) := by
      rw [readName, hheader']
      dsimp only [unlessFailed, ok_bind]
      rw [hname, hread]
      rfl
    rw [readRecord, hname']
    dsimp only [unlessFailed, ok_bind]
    rw [hskip, hlast, hino]
    rfl
  · rwa [show o' + 8 + record.name.length + (record.recLen -
      (8 + record.name.length)) = o' + record.recLen by omega] at hin₃

/-! ## One entry -/

theorem Tiled.length_le {fs : FsContext} {blocksize q : ℕ}
    {stream : ℕ → BitVec 8} {list : List DirRecord}
    (h : Tiled fs blocksize stream p list q) : p + 8 * list.length ≤ q := by
  induction list generalizing p with
  | nil => exact (show p = q from h).le
  | cons record rest ih =>
      have hrest := ih h.2
      have hfits := h.1.fits
      rw [List.length_cons]
      omega

theorem Tiled.noNul {fs : FsContext} {blocksize q : ℕ}
    {stream : ℕ → BitVec 8} {list : List DirRecord}
    (h : Tiled fs blocksize stream p list q) :
    ∀ record ∈ list, record.ino ≠ 0 → 0 ∉ record.name := by
  induction list generalizing p with
  | nil => exact fun _ hmem => absurd hmem List.not_mem_nil
  | cons record rest ih =>
      rw [List.forall_mem_cons]
      exact ⟨h.1.noNul, ih h.2⟩

/-- The entries which are still to come. -/
def Left (env : Env) (e : ℕ) (r : InodeRecord) (blocks : ℕ)
    (content : ℕ → BitVec 8) (list : List Dirent) (context : InoContext) :
    Prop :=
  ∃ records p, entries records = list ∧
    Tiled env.fs (4 * e) (fileByte e r content) p records
      (blocks * (4 * e)) ∧ Inside env e r blocks p context

theorem File.atEnd (h : File env e r blocks content)
    (hin : Inside env e r blocks (blocks * (4 * e)) self) :
    AtEnd env e r blocks blocks self := by
  obtain ⟨k, o, hk, hp, hin⟩ := hin
  have hle := hin.offset_le
  obtain rfl : blocks = k + 1 := by
    by_contra hne
    have hmul := Nat.mul_le_mul_right (4 * e) (show k + 2 ≤ blocks by omega)
    have hpos := h.tableSize.ge
    rw [Nat.add_mul] at hmul
    omega
  rw [Nat.succ_mul] at hp
  refine ⟨hin.current.walk.stands h.tableSize h.walkable.mapped, ?_, le_rfl,
    Or.inl rfl⟩
  rw [hin.offset_eq]
  omega

namespace Directory

variable {records : List DirRecord}
  (h : Directory env e r blocks content records)
include h

theorem agree_behind (hp : blocks ≤ p)
    (hmoved : p = blocks ∨ TableStart e blocks) :
    AgreeOn (tableEntry content e) env.entry e
      (TableTo (tableEntry content e) e r p) :=
  agreeOn_of_delivers h.tableSize (h.behind p hp hmoved)

theorem endsAt : EndsAt env e r blocks := by
  intro p hp hmoved
  have hagree := h.agree_behind hp hmoved
  refine ⟨⟨h.memory, fun addr haddr => ?_⟩, ?_⟩
  · rw [hagree.tableTo_iff h.tableSize.pos] at haddr
    exact (h.behind p hp hmoved addr haddr).readable h.tableSize
  · rw [hagree.mapped_iff h.tableSize.pos]
    exact h.ends p hp

theorem not_holeAt (hp : blocks ≤ p)
    (hmoved : p = blocks ∨ TableStart e blocks)
    (hquiet : ¬HoleAt (tableEntry content e) e r p) :
    ¬HoleAt env.entry e r p := by
  rwa [(h.agree_behind hp hmoved).holeAt_iff h.tableSize.pos]

/-- The first record with an inode ends the loop, or the end of the directory
does. -/
theorem readRecords_at {list : List DirRecord} {fuel : ℕ}
    (hfuel : list.length < fuel)
    (htiled : Tiled env.fs (4 * e) (fileByte e r content) p list
      (blocks * (4 * e))) (hin : Inside env e r blocks p self) :
    (∀ ent rest, entries list = ent :: rest →
      ∃ next, readRecords env fuel self = .ok (.ok ent, next) ∧
        Left env e r blocks content rest next) ∧
    (entries list = [] → ¬HoleAt (tableEntry content e) e r blocks →
      ∃ next p', readRecords env fuel self = .ok (.error .enoent, next) ∧
        AtEnd env e r blocks p' next) := by
  induction list generalizing p fuel self with
  | nil =>
      obtain rfl : p = blocks * (4 * e) := htiled
      obtain ⟨fuel, rfl⟩ := Nat.exists_eq_succ_of_ne_zero hfuel.ne'
      refine ⟨fun ent rest hnone => ?_, fun _ hquiet => ?_⟩
      · exact absurd hnone (List.cons_ne_nil ent rest).symm
      exact (h.toFile.atEnd hin).readRecords h.tableSize h.endsAt
        (h.not_holeAt le_rfl (Or.inl rfl) hquiet) fuel
  | cons record list ih =>
      obtain ⟨fuel, rfl⟩ := Nat.exists_eq_succ_of_ne_zero
        (Nat.ne_of_gt (Nat.zero_lt_of_lt hfuel))
      have hlt : p < blocks * (4 * e) := by
        have hle := htiled.length_le
        rw [List.length_cons] at hle
        omega
      obtain ⟨next, hread, hin'⟩ := h.readRecord_at hin htiled.1 hlt
      have hturn : readRecords env (fuel + 1) self =
          if record.ino ≠ 0 then .ok (.ok record.entry, next)
          else readRecords env fuel next := by
        rw [readRecords, hread]
        rfl
      rw [hturn]
      by_cases hino : record.ino = 0
      · rw [if_neg (not_not.2 hino), entries_cons_of_deleted list hino]
        exact ih (Nat.lt_of_succ_lt_succ hfuel) htiled.2 hin'
      · rw [if_pos hino, entries_cons_of_used list hino]
        refine ⟨?_, fun hnone => absurd hnone (List.cons_ne_nil _ _)⟩
        intro ent rest heq
        obtain ⟨rfl, rfl⟩ := List.cons.inj heq
        exact ⟨next, rfl, list, _, rfl, htiled.2, hin'⟩

theorem length_lt_fuel {list : List DirRecord}
    (htiled : Tiled env.fs (4 * e) (fileByte e r content) p list
      (blocks * (4 * e))) : list.length < directoryFuel env := by
  have hle := htiled.length_le
  have hpos := h.blocks_pos
  have hlast := (h.holeFree (blocks - 1) (by omega)).lt_maxBlocks
    h.tableSize.pos
  have hmul := Nat.mul_le_mul_right (4 * e)
    (show blocks ≤ maxBlocks e + 1 by omega)
  unfold directoryFuel
  dsimp only
  rw [h.tableSize.toSize_eq, Nat.mul_div_cancel_left e (by decide)]
  omega

/-- A call in front of an entry gives it. -/
theorem readDirectory_entry {ent : Dirent} {rest : List Dirent}
    (hleft : Left env e r blocks content (ent :: rest) self) :
    ∃ next, readDirectory env self = .ok (.ok ent, next) ∧
      Left env e r blocks content rest next := by
  obtain ⟨list, p, heq, htiled, hin⟩ := hleft
  exact (h.readRecords_at (h.length_lt_fuel htiled) htiled hin).1 ent rest heq

theorem readDirectory_end (hleft : Left env e r blocks content [] self)
    (hquiet : ¬HoleAt (tableEntry content e) e r blocks) :
    ∃ next p', readDirectory env self = .ok (.error .enoent, next) ∧
      AtEnd env e r blocks p' next := by
  obtain ⟨list, p, heq, htiled, hin⟩ := hleft
  exact (h.readRecords_at (h.length_lt_fuel htiled) htiled hin).2 heq hquiet

theorem openWalk_left (allocs : ℕ) :
    ∃ dir, openWalk env r allocs = .ok dir ∧
      Left env e r blocks content (entries records) dir := by
  obtain ⟨dir, -, hopen, hcurrent, hbuf⟩ :=
    h.walkable.firstBlock h.blocks_pos allocs
  have hzero : (0 : ℕ) = 0 * (4 * e) + 0 := (Nat.zero_mul _).symm
  refine ⟨dir, hopen, records, 0, rfl, h.tiled, 0, 0, h.blocks_pos, hzero,
    hcurrent, ?_, Nat.zero_le _, ?_⟩
  · rw [hbuf]
    rfl
  · rw [hbuf]
    nofun

end Directory

/-! ## One call after the other -/

/-- What a number of calls of `read_directory` return. -/
def readEntries (env : Env) :
    ℕ → InoContext → Except Fault (List (Except Errno Dirent))
  | 0, _ => .ok []
  | calls + 1, self => do
      let (ret, self) ← readDirectory env self
      let rest ← readEntries env calls self
      .ok (ret :: rest)

/-- The entries one after the other, and then an error for each call. -/
def answers : List Dirent → ℕ → List (Except Errno Dirent)
  | _, 0 => []
  | [], calls + 1 => .error .enoent :: answers [] calls
  | ent :: rest, calls + 1 => .ok ent :: answers rest calls

theorem Directory.readEntries_end {records : List DirRecord}
    (h : Directory env e r blocks content records)
    (hquiet : QuietEnd (tableEntry content e) e r blocks)
    (hend : AtEnd env e r blocks p self) (calls : ℕ) :
    readEntries env calls self = .ok (answers [] calls) := by
  induction calls generalizing p self with
  | zero => rfl
  | succ calls ih =>
      have hhole := h.not_holeAt hend.behind hend.moved
        (hquiet.not_holeAt hend.behind hend.moved)
      obtain ⟨next, p', hread, hnext⟩ := hend.readRecords h.tableSize h.endsAt
        hhole (directoryFuel env - 1)
      have hcall : readDirectory env self = .ok (.error .enoent, next) := hread
      rw [readEntries, hcall, ok_bind]
      dsimp only
      rw [ih hnext, ok_bind, answers]

theorem Directory.readEntries_at {records : List DirRecord}
    (h : Directory env e r blocks content records)
    (hquiet : QuietEnd (tableEntry content e) e r blocks) {list : List Dirent}
    (hleft : Left env e r blocks content list self) (calls : ℕ) :
    readEntries env calls self = .ok (answers list calls) := by
  induction calls generalizing list self with
  | zero =>
      rw [readEntries]
      cases list <;> rfl
  | succ calls ih =>
      cases list with
      | nil =>
          obtain ⟨next, p', hread, hnext⟩ := h.readDirectory_end hleft
            (hquiet.not_holeAt le_rfl (Or.inl rfl))
          rw [readEntries, hread, ok_bind]
          dsimp only
          rw [h.readEntries_end hquiet hnext, ok_bind, answers]
      | cons ent rest =>
          obtain ⟨next, hread, hnext⟩ := h.readDirectory_entry hleft
          rw [readEntries, hread, ok_bind]
          dsimp only
          rw [ih hnext, ok_bind, answers]

end Ext2
end Yjkos
