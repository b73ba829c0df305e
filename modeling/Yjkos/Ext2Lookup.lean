import Yjkos.Ext2Directory
import Yjkos.Ext2Open
import Yjkos.PathReader

/-!
# Looking up a path

`open_directory` and `resolve_path` of `kernel/fs/fs_ext2.c`.  For each name
of the path the directory is opened anew, and its entries are read until one
has the name.  The allocations are counted through the context of the
directory, which is where the last one of a step is made.
-/

namespace Yjkos
namespace Ext2

open Vfs

/-- The inode is a directory by its type. -/
def InodeRecord.IsDirectory (self : InodeRecord) : Prop :=
  self.typeandpermissions &&& inodeTypeMask = inodeTypeDirectory

instance (self : InodeRecord) : Decidable self.IsDirectory :=
  inferInstanceAs (Decidable (_ = _))

/-- Gives `inocontext` of the directory. -/
def openDirectory (env : Env) (allocs inode : ℕ) :
    Except Fault (Except Errno InoContext) :=
  if env.memory allocs then do
    match ← openinode env (allocs + 1) inode with
    | .error e => .ok (.error e)
    | .ok inocontext =>
        if inocontext.record.IsDirectory then .ok (.ok inocontext)
        else .ok (.error .enotdir)
  else .ok (.error .enomem)

/-- The loop over the entries of a directory, with fuel.  Gives the inode of
the entry with the name. -/
def searchLoop (env : Env) (name : Text) :
    ℕ → InoContext → Except Fault (Outcome ℕ)
  | 0, _ => .error .outOfFuel
  | fuel + 1, dir =>
      unlessFailed (readDirectory env dir) fun ent dir =>
        if kstrcmp name ent.dName = 0 then .ok (.ok ent.dIno, dir)
        else searchLoop env name fuel dir

/-- Each call which gives an entry takes a byte at least. -/
def searchDirectory (env : Env) (name : Text) (dir : InoContext) :
    Except Fault (Outcome ℕ) :=
  searchLoop env name (directoryFuel env) dir

/-- The loop over the names of the path, with fuel. -/
def resolveLoop (env : Env) :
    ℕ → ℕ → ℕ → PathReader → Except Fault (Except Errno ℕ)
  | 0, _, _, _ => .error .outOfFuel
  | fuel + 1, allocs, currentIno, reader => do
      match ← reader.next with
      | (.error .enoent, _) => .ok (.ok currentIno)
      | (.error e, _) => .ok (.error e)
      | (.ok name, reader) => do
          match ← openDirectory env allocs currentIno with
          | .error e => .ok (.error e)
          | .ok dir => do
              match ← searchDirectory env name dir with
              | (.error e, _) => .ok (.error e)
              | (.ok ino, dir) => resolveLoop env fuel dir.allocs ino reader

/-- The buffer of the reader is not initialised.  A name takes a byte of the
path at least. -/
def resolvePath (env : Env) (allocs parent : ℕ) (nameBuf path : Text) :
    Except Fault (Except Errno ℕ) :=
  resolveLoop env (path.length + 1) allocs parent (pathreaderInit nameBuf path)

end Ext2
end Yjkos
