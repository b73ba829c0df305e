import Yjkos.Ext2Listing
import Yjkos.Ext2Locate
import Yjkos.Ext2Lookup

/-!
# Trees of directories

`read_directory` and `resolve_path` on a well-formed tree.  What a tree stands
for is a table of inodes, and looking a path up in that table is a matter of
the entries with its names.  The code agrees with the table unless it meets
one of two things: a zero behind the last block of a directory which it takes
for an address, or a file without a first block, which cannot be opened to see
that it is no directory.
-/

namespace Yjkos
namespace Ext2

open SlashPath Vfs

/-! ## Trees -/

/-- An inode, and for a directory its number of blocks and its records. -/
structure Node where
  record : InodeRecord
  blocks : ℕ
  records : List DirRecord

/-- The inodes which are found from the start, by entries of directories. -/
inductive Found (tree : ℕ → Node) (start : ℕ) : ℕ → Prop where
  | start : Found tree start start
  | entry {inode : ℕ} {ent : Dirent} (found : Found tree start inode)
      (directory : (tree inode).record.IsDirectory)
      (mem : ent ∈ entries (tree inode).records) :
      Found tree start ent.dIno

/-- The inode is on the disk and owns a block, and a directory has the records
of the node. -/
structure NodeAt (env : Env) (e : ℕ) (content : ℕ → BitVec 8) (inode : ℕ)
    (node : Node) : Prop where
  onDisk : InodeOnDisk env e content inode
  record : node.record =
    decodeInode env.fs content (inodeByte env.fs e content inode)
  owns : ∃ k, Mapped (tableEntry content e) e node.record k
  directory : node.record.IsDirectory →
    Directory env e node.record node.blocks content node.records

/-- A well-formed tree below the inode `start`. -/
structure WellFormedTree (env : Env) (e : ℕ) (content : ℕ → BitVec 8)
    (tree : ℕ → Node) (start : ℕ) : Prop extends Volume env e where
  nodes : ∀ inode, Found tree start inode →
    NodeAt env e content inode (tree inode)

/-- The entry with a name. -/
def Node.find (self : Node) (name : Text) : Option Dirent :=
  (entries self.records).find? fun ent => ent.dName = name

/-- The inode behind some names. -/
def lookup (tree : ℕ → Node) : ℕ → List Text → Except Errno ℕ
  | inode, [] => .ok inode
  | inode, name :: rest =>
      if (tree inode).record.IsDirectory then
        match (tree inode).find name with
        | some ent => lookup tree ent.dIno rest
        | none => .error .enoent
      else .error .enotdir

/-- The calls of `read_directory` give the entries of a directory, and then
nothing, however many there are. -/
def ListsEntries (env : Env) (tree : ℕ → Node) (inode : ℕ) : Prop :=
  ∀ allocs, ∃ dir, openDirectory env allocs inode = .ok (.ok dir) ∧
    ∀ calls, readEntries env calls dir =
      .ok (answers (entries (tree inode).records) calls)

/-- The path leads where its names do. -/
def ResolvesNames (env : Env) (tree : ℕ → Node) (start : ℕ) (path : Text) :
    Prop :=
  ∀ nameBuf allocs, nameBuf.length = nameMax + 1 →
    resolvePath env allocs start nameBuf path =
      .ok (lookup tree start (names slash path))

/-- Every directory is listed, and every path whose names fit is resolved. -/
structure Serves (env : Env) (tree : ℕ → Node) (start : ℕ) : Prop where
  lists : ∀ inode, Found tree start inode →
    (tree inode).record.IsDirectory → ListsEntries env tree inode
  resolves : ∀ path : PathString,
    (∀ name ∈ names slash path.bytes, name.length ≤ nameMax) →
    ResolvesNames env tree start path.bytes

/-- No zero is taken for an address behind the directory which does not have
the name, and a file in which a name is looked up has a first block. -/
def LookupSafe (content : ℕ → BitVec 8) (e : ℕ) (tree : ℕ → Node) :
    ℕ → List Text → Prop
  | _, [] => True
  | inode, name :: rest =>
      if (tree inode).record.IsDirectory then
        match (tree inode).find name with
        | some ent => LookupSafe content e tree ent.dIno rest
        | none => ¬HoleAt (tableEntry content e) e (tree inode).record
            (tree inode).blocks
      else (tree inode).record.directBlockPtrs.getD 0 0 ≠ 0

/-! ## Opening a directory -/

variable {env : Env} {e start inode : ℕ} {content : ℕ → BitVec 8}
  {tree : ℕ → Node}

namespace WellFormedTree

variable (h : WellFormedTree env e content tree start)
include h

theorem openinode_at (hfound : Found tree start inode) (allocs : ℕ) :
    openinode env allocs inode =
      (openWalk env (tree inode).record (allocs + 2)).map .ok := by
  have hnode := h.nodes inode hfound
  unfold openinode
  rw [h.openinodeRecord_at hnode.onDisk, ok_bind, ← hnode.record]
  dsimp only
  cases openWalk env (tree inode).record (allocs + 2) <;> rfl

theorem openDirectory_at (hfound : Found tree start inode) (allocs : ℕ) :
    openDirectory env allocs inode =
      (openWalk env (tree inode).record (allocs + 3)).map fun dir =>
        if (tree inode).record.IsDirectory then .ok dir
        else .error .enotdir := by
  unfold openDirectory
  rw [h.memory, if_pos rfl, h.openinode_at hfound]
  cases hopen : openWalk env (tree inode).record (allocs + 3) with
  | error fault => rfl
  | ok dir =>
      have hrecord := openWalk_record hopen
      dsimp only [Except.map, ok_bind]
      rw [hrecord]
      split <;> rfl

theorem openDirectory_directory (hfound : Found tree start inode)
    (hdirectory : (tree inode).record.IsDirectory) (allocs : ℕ) :
    ∃ dir, openDirectory env allocs inode = .ok (.ok dir) ∧
      Left env e (tree inode).record (tree inode).blocks content
        (entries (tree inode).records) dir := by
  obtain ⟨dir, hopen, hleft⟩ :=
    ((h.nodes inode hfound).directory hdirectory).openWalk_left (allocs + 3)
  refine ⟨dir, ?_, hleft⟩
  rw [h.openDirectory_at hfound, hopen, Except.map, if_pos hdirectory]

/-- What is no directory has to be opened before that is seen. -/
theorem openDirectory_file (hfound : Found tree start inode)
    (hfile : ¬(tree inode).record.IsDirectory) (allocs : ℕ) :
    openDirectory env allocs inode =
      if (tree inode).record.directBlockPtrs.getD 0 0 ≠ 0 then
        .ok (.error .enotdir)
      else .error (.assertion "0 <= (ret)") := by
  rw [h.openDirectory_at hfound, openWalk_eq]
  by_cases hfirst : (tree inode).record.directBlockPtrs.getD 0 0 = 0
  · rw [if_pos hfirst, if_neg (not_not.2 hfirst)]
    rfl
  · rw [if_neg hfirst, if_pos hfirst]
    exact congrArg Except.ok (if_neg hfile)

end WellFormedTree

/-! ## Searching a directory -/

theorem entries_noNul {fs : FsContext} {blocksize p q : ℕ}
    {stream : ℕ → BitVec 8} {records : List DirRecord}
    (h : Tiled fs blocksize stream p records q) :
    ∀ ent ∈ entries records, 0 ∉ ent.dName := by
  intro ent hent
  obtain ⟨record, hrecord, rfl⟩ := List.mem_map.1 hent
  obtain ⟨hmem, hino⟩ := List.mem_filter.1 hrecord
  exact h.noNul record hmem (of_decide_eq_true hino)

theorem length_entries_le (records : List DirRecord) :
    (entries records).length ≤ records.length := by
  unfold entries
  rw [List.length_map]
  exact List.length_filter_le _ _

namespace Directory

variable {r : InodeRecord} {blocks : ℕ} {records : List DirRecord}
  {self : InoContext} (h : Directory env e r blocks content records)
include h

theorem searchLoop_at {list : List Dirent} {name : Text} (hname : 0 ∉ name)
    (hlist : ∀ ent ∈ list, 0 ∉ ent.dName) {fuel : ℕ}
    (hfuel : list.length < fuel)
    (hleft : Left env e r blocks content list self) :
    match list.find? fun ent => ent.dName = name with
    | some ent => ∃ dir, searchLoop env name fuel self = .ok (.ok ent.dIno, dir)
    | none => ¬HoleAt (tableEntry content e) e r blocks →
        ∃ dir, searchLoop env name fuel self = .ok (.error .enoent, dir) := by
  induction list generalizing fuel self with
  | nil =>
      obtain ⟨fuel, rfl⟩ := Nat.exists_eq_succ_of_ne_zero hfuel.ne'
      intro hquiet
      obtain ⟨dir, p, hread, -⟩ := h.readDirectory_end hleft hquiet
      refine ⟨dir, ?_⟩
      rw [searchLoop, hread]
      rfl
  | cons ent list ih =>
      obtain ⟨fuel, rfl⟩ := Nat.exists_eq_succ_of_ne_zero
        (Nat.ne_of_gt (Nat.zero_lt_of_lt hfuel))
      obtain ⟨hent, hlist⟩ := List.forall_mem_cons.1 hlist
      obtain ⟨next, hread, hnext⟩ := h.readDirectory_entry hleft
      have hsame := kstrcmp_eq_zero hname hent
      have hturn : searchLoop env name (fuel + 1) self =
          if ent.dName = name then .ok (.ok ent.dIno, next)
          else searchLoop env name fuel next := by
        rw [searchLoop, hread]
        dsimp only [unlessFailed, ok_bind]
        exact if_congr (hsame.trans eq_comm) rfl rfl
      rw [hturn, List.find?_cons]
      by_cases heq : ent.dName = name
      · rw [decide_eq_true heq, if_pos heq]
        exact ⟨next, rfl⟩
      · rw [decide_eq_false heq, if_neg heq]
        exact ih hlist (Nat.lt_of_succ_lt_succ hfuel) hnext

end Directory

/-! ## Looking up a path -/

/-- The reader of a path whose names fit. -/
structure Reading (reader : PathReader) : Prop where
  noNul : 0 ∉ reader.remainingPath
  buffer : reader.nameBuf.length = nameMax + 1
  fits : ∀ name ∈ names slash reader.remainingPath, name.length ≤ nameMax

/-- A call gives the next name of the path, or there is none. -/
theorem Reading.next {reader : PathReader} (h : Reading reader) :
    (names slash reader.remainingPath = [] ∧
      ∃ reader', reader.next = .ok (.error .enoent, reader')) ∨
    ∃ name reader', reader.next = .ok (.ok name, reader') ∧
      names slash reader.remainingPath =
        name :: names slash reader'.remainingPath ∧
      0 ∉ name ∧ Reading reader' ∧
      reader'.remainingPath.length < reader.remainingPath.length := by
  obtain ⟨result, reader', hnext, hreads⟩ :=
    PathReader.next_spec h.noNul h.buffer
  have hnul : 0 ∉ reader'.remainingPath :=
    fun hmem => h.noNul (hreads.suffix.subset hmem)
  cases result with
  | ok name =>
      have hname := pathreaderNext_spec reader.remainingPath
      rw [hreads.agrees] at hname
      have hname : NextName reader.remainingPath name
        reader'.remainingPath := hname
      refine Or.inr ⟨name, reader', hnext, hname.names,
        fun hmem => h.noNul (hname.sub 0 hmem),
        ⟨hnul, hreads.buffer, fun other hother => h.fits other ?_⟩,
        hname.length_lt⟩
      rw [hname.names]
      exact List.mem_cons_of_mem name hother
  | error err =>
      have hcall := hreads.next
      generalize reader'.remainingPath = rest at hcall
      cases hcall with
      | done hnames _ => exact Or.inl ⟨hnames, reader', hnext⟩
      | @tooLong name _ _ hnames hlong _ =>
          have hfits := h.fits name (by rw [hnames]; exact List.mem_cons_self)
          exact absurd hfits (not_le.2 hlong)

/-- What comes of a path when its first name is looked up in a directory. -/
theorem WellFormedTree.searchDirectory_at
    (h : WellFormedTree env e content tree start)
    (hfound : Found tree start inode)
    (hdirectory : (tree inode).record.IsDirectory) {name : Text}
    (hname : 0 ∉ name) (allocs : ℕ) :
    ∃ dir, openDirectory env allocs inode = .ok (.ok dir) ∧
      match (tree inode).find name with
      | some ent => Found tree start ent.dIno ∧ ∃ dir',
          searchDirectory env name dir = .ok (.ok ent.dIno, dir')
      | none => ¬HoleAt (tableEntry content e) e (tree inode).record
          (tree inode).blocks →
          ∃ dir',
            searchDirectory env name dir = .ok (.error .enoent, dir') := by
  have hat := (h.nodes inode hfound).directory hdirectory
  obtain ⟨dir, hopen, hleft⟩ :=
    h.openDirectory_directory hfound hdirectory allocs
  refine ⟨dir, hopen, ?_⟩
  have hfuel : (entries (tree inode).records).length < directoryFuel env :=
    (length_entries_le _).trans_lt (hat.length_lt_fuel hat.tiled)
  have hsearch := hat.searchLoop_at hname (entries_noNul hat.tiled) hfuel hleft
  unfold searchDirectory Node.find
  cases hfind : (entries (tree inode).records).find?
      fun ent => ent.dName = name with
  | none =>
      rw [hfind] at hsearch
      exact hsearch
  | some ent =>
      rw [hfind] at hsearch
      have hmem := List.mem_of_find?_eq_some hfind
      exact ⟨.entry hfound hdirectory hmem, hsearch⟩

theorem WellFormedTree.resolveLoop_at
    (h : WellFormedTree env e content tree start) {fuel allocs : ℕ}
    {reader : PathReader} (hreading : Reading reader)
    (hfuel : reader.remainingPath.length < fuel)
    (hfound : Found tree start inode) :
    (LookupSafe content e tree inode (names slash reader.remainingPath) →
      resolveLoop env fuel allocs inode reader =
        .ok (lookup tree inode (names slash reader.remainingPath))) ∧
    (lookup tree inode (names slash reader.remainingPath) ≠ .error .enoent →
      ¬LookupSafe content e tree inode (names slash reader.remainingPath) →
      resolveLoop env fuel allocs inode reader =
        .error (.assertion "0 <= (ret)")) := by
  induction fuel generalizing allocs inode reader with
  | zero => exact absurd hfuel (Nat.not_lt_zero _)
  | succ fuel ih =>
      rw [resolveLoop]
      rcases hreading.next with ⟨hnames, reader', hnext⟩ |
        ⟨name, reader', hnext, hnames, hname, hreading', hshorter⟩
      · rw [hnames, hnext]
        exact ⟨fun _ => rfl, fun _ hsafe => absurd trivial hsafe⟩
      rw [hnames, hnext, ok_bind]
      dsimp only
      rw [lookup, LookupSafe]
      by_cases hdirectory : (tree inode).record.IsDirectory
      · rw [if_pos hdirectory, if_pos hdirectory]
        obtain ⟨dir, hopen, hsearch⟩ :=
          h.searchDirectory_at hfound hdirectory hname allocs
        rw [hopen, ok_bind]
        dsimp only
        cases hfind : (tree inode).find name with
        | none =>
            rw [hfind] at hsearch
            refine ⟨fun hquiet => ?_, fun hne => absurd rfl hne⟩
            obtain ⟨dir', hmissing⟩ := hsearch hquiet
            rw [hmissing]
            rfl
        | some ent =>
            rw [hfind] at hsearch
            obtain ⟨hfound', dir', hgiven⟩ := hsearch
            rw [hgiven, ok_bind]
            exact ih hreading' (by omega) hfound'
      · rw [if_neg hdirectory, if_neg hdirectory,
          h.openDirectory_file hfound hdirectory]
        refine ⟨fun hfirst => ?_, fun _ hfirst => ?_⟩
        · rw [if_pos hfirst]
          rfl
        · rw [if_neg hfirst]
          rfl

/-- Where no zero is taken for an address behind a directory, it gives its
entries and then nothing, and where besides each file in the way has a first
block, a path leads where its names do.  A file without one stops the kernel,
so that for a path whose names are not missing the condition is exact. -/
theorem tree_lists_and_resolves (h : WellFormedTree env e content tree start) :
    (∀ inode, Found tree start inode → (tree inode).record.IsDirectory →
      QuietEnd (tableEntry content e) e (tree inode).record
        (tree inode).blocks →
      ListsEntries env tree inode) ∧
    ∀ path : PathString,
      (∀ name ∈ names slash path.bytes, name.length ≤ nameMax) →
      (LookupSafe content e tree start (names slash path.bytes) →
        ResolvesNames env tree start path.bytes) ∧
      (lookup tree start (names slash path.bytes) ≠ .error .enoent →
        ResolvesNames env tree start path.bytes →
        LookupSafe content e tree start (names slash path.bytes)) := by
  refine ⟨?_, ?_⟩
  · intro inode hfound hdirectory hquiet allocs
    obtain ⟨dir, hopen, hleft⟩ :=
      h.openDirectory_directory hfound hdirectory allocs
    have hat := (h.nodes inode hfound).directory hdirectory
    exact ⟨dir, hopen, hat.readEntries_at hquiet hleft⟩
  · intro path hfits
    have hresolve := fun nameBuf allocs
      (hbuf : nameBuf.length = nameMax + 1) =>
        @WellFormedTree.resolveLoop_at _ _ _ _ _ _ h (path.bytes.length + 1)
          allocs (pathreaderInit nameBuf path.bytes) ⟨path.noNul, hbuf, hfits⟩
          (Nat.lt_succ_self _) .start
    refine ⟨fun hsafe nameBuf allocs hbuf =>
      (hresolve nameBuf allocs hbuf).1 hsafe, fun hne hresolved => ?_⟩
    by_contra hnot
    have hbuf : (List.replicate (nameMax + 1) (0 : BitVec 8)).length =
        nameMax + 1 := List.length_replicate
    have hstops : resolvePath env 0 start _ path.bytes = _ :=
      (hresolve _ 0 hbuf).2 hne hnot
    rw [hresolved _ 0 hbuf] at hstops
    cases hstops

/-! ## A small volume -/

/-- One group, whose inodes are in block 5.  Block 8 is the root directory: the
entries `"."` and `".."`, a deleted record, the file `"a"` with inode 12 and
block 7, and the file `"s"` with inode 11 and block 9, which starts with a
hole. -/
def smallContent (pos : ℕ) : BitVec 8 :=
  match pos with
  | 2056 => 5
  | 5248 => 0xed
  | 5249 => 0x41
  | 5253 => 4
  | 5274 => 2
  | 5288 => 8
  | 6400 => 0xa4
  | 6401 => 0x81
  | 6405 => 8
  | 6426 => 1
  | 6444 => 9
  | 6528 => 0xa4
  | 6529 => 0x81
  | 6532 => 3
  | 6554 => 1
  | 6568 => 7
  | 8192 => 2
  | 8196 => 12
  | 8198 => 1
  | 8200 => 0x2e
  | 8204 => 2
  | 8208 => 12
  | 8210 => 2
  | 8212 => 0x2e
  | 8213 => 0x2e
  | 8220 => 16
  | 8222 => 1
  | 8224 => 0x78
  | 8232 => 12
  | 8236 => 12
  | 8238 => 1
  | 8240 => 0x61
  | 8244 => 11
  | 8248 => 0xcc
  | 8249 => 3
  | 8250 => 1
  | 8252 => 0x73
  | _ => 0

def smallVolume : Env :=
  { smallFiles with disk := sampleDisk smallContent }

def rootRecords : List DirRecord :=
  [⟨2, 12, dot⟩, ⟨2, 12, dotdot⟩, ⟨0, 16, [0x78]⟩, ⟨12, 12, [0x61]⟩,
    ⟨11, 972, [0x73]⟩]

def smallTree (inode : ℕ) : Node where
  record := decodeInode smallVolume.fs smallContent
    (inodeByte smallVolume.fs 256 smallContent inode)
  blocks := if inode = 2 then 1 else 0
  records := if inode = 2 then rootRecords else []

theorem smallVolume_tableSize : TableSize smallVolume.fs 256 :=
  ⟨rfl, 0, by decide, rfl⟩

theorem smallVolume_volume : Volume smallVolume 256 where
  tableSize := smallVolume_tableSize
  memory := fun _ => rfl
  recordsFit := smallFiles_recordsFit
  descriptor := le_rfl

theorem smallVolume_delivers {addr count : ℕ} (hpos : 0 < count)
    (hinside : addr + count ≤ 512) :
    smallVolume.Delivers 256 smallContent addr count :=
  sampleDisk_delivers rfl smallVolume_tableSize hpos hinside

/-- What the inodes of the tree decode to, and the blocks which are read for
them. -/
theorem smallTree_decoded :
    ((smallTree 2).record.IsDirectory ∧
      ¬(smallTree 11).record.IsDirectory ∧
      ¬(smallTree 12).record.IsDirectory) ∧
    ((smallTree 2).record.directBlockPtrs =
        [8, 0, 0, 0, 0, 0, 0, 0, 0, 0, 0, 0] ∧
      (smallTree 2).record.singlyIndirectTable = 0 ∧
      (smallTree 2).record.doublyindirecttable = 0 ∧
      (smallTree 2).record.triplyindirecttable = 0) ∧
    ((smallTree 11).record.directBlockPtrs.getD 1 0 ≠ 0 ∧
      (smallTree 12).record.directBlockPtrs.getD 0 0 ≠ 0) ∧
    Tiled smallVolume.fs (4 * 256)
      (fileByte 256 (smallTree 2).record smallContent) 0
      rootRecords (1 * (4 * 256)) ∧
    ∀ inode ∈ [2, 11, 12],
      smallVolume.fs.blkGroupDescriptorBlk +
        groupOf smallVolume.fs inode * descriptorSize / (4 * 256) + 1 ≤ 512 ∧
      inodeTableOf smallVolume.fs 256 smallContent inode +
        indexOf smallVolume.fs inode * smallVolume.fs.inodeSize / (4 * 256) +
          1 ≤ 512 ∧
      groupOf smallVolume.fs inode < sizeMax / descriptorSize := by
  decide +kernel

theorem smallTree_root : (smallTree 2).record.IsDirectory :=
  smallTree_decoded.1.1

theorem smallTree_files : ¬(smallTree 11).record.IsDirectory ∧
    ¬(smallTree 12).record.IsDirectory :=
  smallTree_decoded.1.2

theorem smallTree_found {inode : ℕ} (h : Found smallTree 2 inode) :
    inode = 2 ∨ inode = 11 ∨ inode = 12 := by
  induction h with
  | start => exact Or.inl rfl
  | entry _ hdirectory hmem ih =>
      rcases ih with rfl | rfl | rfl
      · have hentries : entries (smallTree 2).records =
            [⟨2, dot⟩, ⟨2, dotdot⟩, ⟨12, [0x61]⟩, ⟨11, [0x73]⟩] := rfl
        rw [hentries] at hmem
        simp only [List.mem_cons, List.not_mem_nil, or_false] at hmem
        rcases hmem with rfl | rfl | rfl | rfl
        · exact Or.inl rfl
        · exact Or.inl rfl
        · exact Or.inr (Or.inr rfl)
        · exact Or.inr (Or.inl rfl)
      · exact absurd hdirectory smallTree_files.1
      · exact absurd hdirectory smallTree_files.2

theorem smallTree_onDisk {inode : ℕ}
    (h : inode = 2 ∨ inode = 11 ∨ inode = 12) :
    InodeOnDisk smallVolume 256 smallContent inode := by
  have hmem : inode ∈ [2, 11, 12] := by simpa using h
  obtain ⟨hdescriptor, htable, hgroup⟩ :=
    smallTree_decoded.2.2.2.2 inode hmem
  refine ⟨⟨by omega, by unfold sizeMax; omega, hgroup⟩,
    smallVolume_delivers Nat.one_pos hdescriptor,
    smallVolume_delivers Nat.one_pos htable, ?_⟩
  exact fun hthere => absurd hthere.1 (by decide)

/-- The pointers of the root directory. -/
theorem smallTree_pointers :
    (smallTree 2).record.directBlockPtrs =
        [8, 0, 0, 0, 0, 0, 0, 0, 0, 0, 0, 0] ∧
      (smallTree 2).record.singlyIndirectTable = 0 ∧
      (smallTree 2).record.doublyindirecttable = 0 ∧
      (smallTree 2).record.triplyindirecttable = 0 :=
  smallTree_decoded.2.1

theorem smallTree_noTable {k addr : ℕ} :
    ¬TableTo (tableEntry smallContent 256) 256 (smallTree 2).record k addr := by
  obtain ⟨-, hsingly, hdoubly, htriply⟩ := smallTree_pointers
  exact not_tableTo hsingly hdoubly htriply

theorem smallTree_block {k : ℕ} (hk : k < 12) :
    fileBlock smallContent 256 (smallTree 2).record k =
      [8, 0, 0, 0, 0, 0, 0, 0, 0, 0, 0, 0].getD k 0 := by
  unfold fileBlock blockAddress
  rw [if_pos hk, smallTree_pointers.1]

theorem smallTree_ends {k : ℕ} (hk : 1 ≤ k) :
    ¬Mapped (tableEntry smallContent 256) 256 (smallTree 2).record k := by
  intro hmapped
  rcases Nat.lt_or_ge k 12 with hlt | hge
  · refine hmapped.1 ((smallTree_block hlt).trans ?_)
    interval_cases k <;> rfl
  · exact smallTree_noTable
      ⟨hge, .table (hmapped.there (by decide) hge)⟩

theorem smallTree_directory :
    Directory smallVolume 256 (smallTree 2).record 1 smallContent
      rootRecords where
  tableSize := smallVolume_tableSize
  memory := fun _ => rfl
  holeFree := by
    intro k hk
    obtain rfl : k = 0 := by omega
    refine ⟨?_, trivial⟩
    rw [show blockAddress _ _ _ 0 = _ from smallTree_block (by decide)]
    decide
  tables := fun _ _ _ haddr => absurd haddr smallTree_noTable
  data := by
    intro k n hk hn _ _
    obtain rfl : k = 0 := by omega
    rw [smallTree_block (by decide)]
    exact smallVolume_delivers hn (show 8 + n ≤ 512 by omega)
  blocks_pos := Nat.one_pos
  ends := fun k hk => smallTree_ends hk
  behind := fun _ _ _ _ haddr => absurd haddr smallTree_noTable
  tiled := smallTree_decoded.2.2.2.1

theorem smallTree_wellFormed :
    WellFormedTree smallVolume 256 smallContent smallTree 2 := by
  refine ⟨smallVolume_volume, fun inode hfound => ?_⟩
  have hinode := smallTree_found hfound
  refine ⟨smallTree_onDisk hinode, rfl, ?_, fun hdirectory => ?_⟩
  · rcases hinode with rfl | rfl | rfl
    · exact ⟨0, smallTree_directory.holeFree 0 Nat.one_pos⟩
    · refine ⟨1, ?_, trivial⟩
      unfold blockAddress
      rw [if_pos (by decide)]
      exact smallTree_decoded.2.2.1.1
    · refine ⟨0, ?_, trivial⟩
      unfold blockAddress
      rw [if_pos (by decide)]
      exact smallTree_decoded.2.2.1.2
  · rcases hinode with rfl | rfl | rfl
    · exact smallTree_directory
    · exact absurd hdirectory smallTree_files.1
    · exact absurd hdirectory smallTree_files.2

/-- The root directory is listed, `"//a"` is found, and there is nothing
below it. -/
theorem smallTree_lists_and_resolves :
    ListsEntries smallVolume smallTree 2 ∧
    resolvePath smallVolume 0 2 (List.replicate 256 0)
      [slash, slash, 0x61] = .ok (.ok 12) ∧
    resolvePath smallVolume 0 2 (List.replicate 256 0)
      [0x61, slash, 0x62] = .ok (.error .enotdir) := by
  obtain ⟨hlists, hresolves⟩ := tree_lists_and_resolves smallTree_wellFormed
  have hquiet : QuietEnd (tableEntry smallContent 256) 256 (smallTree 2).record
      (smallTree 2).blocks := fun hstart => absurd hstart.1 (by decide)
  have hfind : (smallTree 2).find [0x61] = some ⟨12, [0x61]⟩ := rfl
  have hfirst : (smallTree 12).record.directBlockPtrs.getD 0 0 ≠ 0 := by
    decide +kernel
  have hempty : names slash [slash, slash, 0x61] = [[0x61]] := by decide
  have hbelow : names slash [0x61, slash, 0x62] = [[0x61], [0x62]] := by decide
  have hfound := hresolves ⟨[slash, slash, 0x61], by decide, by decide⟩
  have hfile := hresolves ⟨[0x61, slash, 0x62], by decide, by decide⟩
  unfold ResolvesNames at hfound hfile
  rw [hempty] at hfound
  rw [hbelow] at hfile
  simp only [LookupSafe, lookup, hfind, if_pos smallTree_root,
    if_neg smallTree_files.2] at hfound hfile
  exact ⟨hlists 2 .start smallTree_root hquiet,
    (hfound (by decide)).1 trivial _ 0 List.length_replicate,
    (hfile (by decide)).1 hfirst _ 0 List.length_replicate⟩

/-- The file `"s"` has no first block, and a name is looked up in it. -/
theorem sparse_file_not_opened :
    WellFormedTree smallVolume 256 smallContent smallTree 2 ∧
      ¬Serves smallVolume smallTree 2 := by
  refine ⟨smallTree_wellFormed, fun h => ?_⟩
  have hresolved := h.resolves ⟨[0x73, slash, 0x78], by decide, by decide⟩
    (by decide) (List.replicate 256 0) 0 List.length_replicate
  have hfault : (resolvePath smallVolume 0 2 (List.replicate 256 0)
      [0x73, slash, 0x78]).isOk = false := by
    decide +kernel
  rw [hresolved] at hfault
  cases hfault

end Ext2
end Yjkos
