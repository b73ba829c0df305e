import Yjkos.Machine
import Yjkos.SlashPath

/-!
# Paths and mounts

`kernel/lib/pathreader.c` and the paths of `kernel/fs/vfs.c`, over the string
functions of `kernel/lib/strutil.c`.  A string argument is the list of its
bytes in front of the terminator.  The buffer of `remove_rel_path` is memory:
the list of the bytes from its start on, past its end, so that a scan which
misses the terminator reads what lies behind.  A write past the end of the
allocation is a fault, and so is a scan past the end of the list.
-/

namespace Yjkos
namespace Vfs

open SlashPath

abbrev Text := List (BitVec 8)

def slash : BitVec 8 := 0x2f

/-- The name `"."`. -/
def dot : Text := [0x2e]

/-- The name `".."`. -/
def dotdot : Text := [0x2e, 0x2e]

def nameMax : ℕ := 255

/-! ## Strings -/

def kstrcmp : Text → Text → ℤ
  | [], s2 => -(s2.headD 0).toInt
  | c :: s1, s2 =>
      if c ≠ s2.headD 0 then c.toInt - (s2.headD 0).toInt
      else if c = 0 then 0
      else kstrcmp s1 s2.tail

def kstrncmp : Text → Text → ℕ → ℤ
  | _, _, 0 => 0
  | s1, s2, n + 1 =>
      if s1.headD 0 ≠ s2.headD 0 then (s1.headD 0).toInt - (s2.headD 0).toInt
      else if s1.headD 0 = 0 then 0
      else kstrncmp s1.tail s2.tail n

/-- The position of a character in front of the terminator. -/
def kstrchr (s : Text) (c : BitVec 8) : Option ℕ := s.findIdx? (· = c)

/-- The loop of `kstrrchr` over memory. -/
def kstrrchrLoop (c : BitVec 8) :
    Text → ℕ → Option ℕ → Except Fault (Option ℕ)
  | [], _, _ => .error .outOfBounds
  | next :: rest, i, result =>
      let result := if next = c then some i else result
      if next = 0 then .ok result
      else kstrrchrLoop c rest (i + 1) result

def kstrrchr (memory : Text) (c : BitVec 8) : Except Fault (Option ℕ) :=
  kstrrchrLoop c memory 0 none

/-- The string which starts at the memory. -/
def textAt (memory : Text) : Text := memory.takeWhile (fun c => c ≠ 0)

/-! ## Reading a path -/

/-- The next name, and the rest of the path. -/
def pathreaderNext : Text → Except Errno (Text × Text)
  | [] => .error .enoent
  | c :: rest =>
      match kstrchr (c :: rest) slash with
      | none => .ok (c :: rest, [])
      | some len =>
          if nameMax < len then .error .enametoolong
          else if len = 0 then pathreaderNext rest
          else .ok ((c :: rest).take len, (c :: rest).drop (len + 1))

/-! ## Normalising a path -/

/-- What the heap has for an allocation: whether there is room, and the memory
behind it. -/
structure HeapRoom where
  allocated : Bool
  behind : Text

/-- `POISONVALUES` of `kernel/mem/heap.c`. -/
def poisonValues : Text := [0xe9, 0x29, 0xf3, 0xfb, 0xd7, 0x67, 0xaa, 0x5a]

/-- The memory at a new allocation of `heap_alloc`. -/
def freshMemory (size : ℕ) (behind : Text) : Text :=
  List.replicate size 0x90 ++ (poisonValues ++ behind)

/-- A write to the allocation. -/
def store (size : ℕ) (memory : Text) (pos : ℕ) (bytes : Text) :
    Except Fault Text :=
  if pos + bytes.length ≤ size then
    .ok (memory.take pos ++ (bytes ++ memory.drop (pos + bytes.length)))
  else .error .outOfBounds

/-- The loop of `remove_rel_path`, with the offset of `dest`. -/
def removeRelPathLoop (size : ℕ) :
    ℕ → Text → ℕ → Text → Except Fault (Except Errno (ℕ × Text))
  | 0, _, _, _ => .error .outOfFuel
  | fuel + 1, remaining, dest, memory =>
      match pathreaderNext remaining with
      | .error .enoent => .ok (.ok (dest, memory))
      | .error e => .ok (.error e)
      | .ok (name, remaining) =>
          if kstrcmp name dot = 0 then
            removeRelPathLoop size fuel remaining dest memory
          else if kstrcmp name dotdot = 0 then do
            let foundPos ← kstrrchr memory slash
            let dest := foundPos.getD 0
            let memory ← store size memory dest [0]
            removeRelPathLoop size fuel remaining dest memory
          else if name.headD 0 ≠ 0 then do
            let memory ← store size memory dest [slash]
            let memory ← store size memory (dest + 1) name
            removeRelPathLoop size fuel remaining (dest + 1 + name.length)
              memory
          else removeRelPathLoop size fuel remaining dest memory

/-- Gives the memory at the new path. -/
def removeRelPath (room : HeapRoom) (path : Text) :
    Except Fault (Except Errno Text) :=
  let size := wrap (path.length + 2)
  if size = 0 then .ok (.error .enomem)
  else if !room.allocated then .ok (.error .enomem)
  else do
    match ← removeRelPathLoop size (path.length + 1) path 0
        (freshMemory size room.behind) with
    | .error e => .ok (.error e)
    | .ok (dest, memory) =>
        let memory ← store size memory dest [0]
        .ok (.ok memory)

/-! ## Mounts -/

/-- A `struct vfs_fscontext`. -/
structure FsContext where
  id : ℕ
  mountPath : Text
deriving DecidableEq, Repr

/-- The loop of `resolve_path`, with `result` and `lastmatchlen`. -/
def selectMount (path : Text) :
    List FsContext → Option FsContext → ℕ → Option FsContext × ℕ
  | [], result, lastmatchlen => (result, lastmatchlen)
  | entry :: rest, result, lastmatchlen =>
      let len := entry.mountPath.length
      if lastmatchlen ≤ len then
        if kstrncmp entry.mountPath path len = 0 then
          selectMount path rest (some entry) len
        else selectMount path rest result lastmatchlen
      else selectMount path rest result lastmatchlen

/-- Gives the result and the calls of the callback. -/
def resolvePath (room : HeapRoom) (mounts : List FsContext) (path : Text) :
    Except Fault (Except Errno Unit × List (FsContext × Text)) := do
  match ← removeRelPath room path with
  | .error e => .ok (.error e, [])
  | .ok newpath =>
      cAssert (!mounts.isEmpty) "s_mounts.front != nullptr"
      match selectMount path mounts none 0 with
      | (none, _) => .error (.assertion "result != nullptr")
      | (some entry, lastmatchlen) =>
          .ok (.ok (), [(entry, textAt (newpath.drop lastmatchlen))])

end Vfs
end Yjkos
