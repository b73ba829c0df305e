import Yjkos.Ext2Inode

/-!
# Directories

`read_directory` of `kernel/fs/fs_ext2.c`.  A record is read as a stream in
three pieces: its header, its name, and what is skipped behind them up to the
length in the header.
-/

namespace Yjkos
namespace Ext2

/-- `REQUIRED_FEATUREFLAG_DIRENTRY_CONTAINS_TYPE_FIELD`. -/
def direntryContainsTypeField : ℕ := 2

/-- What follows a call unless it has failed. -/
def unlessFailed {α β : Type} (x : Except Fault (Outcome α))
    (f : α → InoContext → Except Fault (Outcome β)) :
    Except Fault (Outcome β) := do
  match ← x with
  | (.error e, self) => .ok (.error e, self)
  | (.ok a, self) => f a self

/-- `struct dirent`.  Behind the bytes of the name, `d_name` is cleared. -/
structure Dirent where
  dIno : ℕ
  dName : Bytes

/-! ## The header of a record -/

section Header

variable (header : Bytes)

def headerIno : ℕ := u32leAt (fun i => header.getD i 0) 0

def entrysize : ℕ := u16leAt (fun i => header.getD i 0) 4

def namelen : ℕ := (header.getD 6 0).toNat

/-- Header and name, `readlen`. -/
def readlen : ℕ := namelen header + 8

def skiplen : ℕ := wrapSub (entrysize header) (readlen header)

/-- Without the type field, the byte behind `namelen` belongs to the length. -/
def nameTooLong (fs : FsContext) : Prop :=
  fs.requiredFeatures &&& direntryContainsTypeField = 0 ∧
    header.getD 7 0 ≠ 0

instance (fs : FsContext) : Decidable (nameTooLong header fs) := by
  unfold nameTooLong
  infer_instance

end Header

/-! ## Reading -/

def readHeader (env : Env) (self : InoContext) : Except Fault (Outcome Bytes) :=
  unlessFailed (readInode env self 8) fun header self =>
    if nameTooLong header env.fs then .ok (.error .enametoolong, self)
    else .ok (.ok header, self)

def readName (env : Env) (self : InoContext) :
    Except Fault (Outcome (Bytes × Bytes)) :=
  unlessFailed (readHeader env self) fun header self =>
    unlessFailed (readInode env self (namelen header)) fun name self =>
      .ok (.ok (header, name), self)

/-- A turn of the loop of `read_directory`. -/
def readRecord (env : Env) (self : InoContext) :
    Except Fault (Outcome Dirent) :=
  unlessFailed (readName env self) fun (header, name) self =>
    unlessFailed (skipreadInode env self (skiplen header)) fun _ self =>
      .ok (.ok ⟨headerIno header, name⟩, self)

/-- The loop, with fuel: records without an inode are passed over. -/
def readRecords (env : Env) : ℕ → InoContext → Except Fault (Outcome Dirent)
  | 0, _ => .error .outOfFuel
  | fuel + 1, self =>
      unlessFailed (readRecord env self) fun out self =>
        if out.dIno ≠ 0 then .ok (.ok out, self)
        else readRecords env fuel self

/-- The blocks which an inode can have, with `e` entries in a table. -/
def maxBlocks (e : ℕ) : ℕ := 12 + e + e * e + e * e * e

def directoryFuel (env : Env) : ℕ :=
  let blocksize := toSize env.fs.blocksize
  (maxBlocks (blocksize / 4) + 1) * blocksize + 1

/-- A turn which does not end the loop takes a byte at least. -/
def readDirectory (env : Env) (self : InoContext) :
    Except Fault (Outcome Dirent) :=
  readRecords env (directoryFuel env) self

end Ext2
end Yjkos
