import Yjkos.OwnedTrace
import Yjkos.VfsMount

/-!
# The heap blocks of the path functions

`remove_rel_path`, `mount`, `findmount` and `resolve_path` of
`kernel/fs/vfs.c` with the blocks which they get from the heap and free.  Each
of them asks the heap for one block at most, the buffer of the normal form.
What the callbacks allocate is not recorded.

The search for the last slash can leave the buffer, and the code then writes
into the memory behind it.  Here such a write goes through: the memory is
mapped as far as a path leads, and it holds neither the path nor the table of
the mounts.
-/

namespace Yjkos
namespace VfsHeap

open SlashPath Vfs OwnedTrace

abbrev Heaped := Traced (Event ℕ) Fault

/-- What the heap answers: the pointer, null when there is no memory, and the
memory behind the block. -/
structure HeapAnswer (live : Finset ℕ) where
  pointer : ℕ
  behind : Text
  fresh : pointer ≠ 0 → pointer ∉ live

variable {live : Finset ℕ}

/-- The memory behind the buffer of a path: what is there, and zeros as far as
the path can lead. -/
def HeapAnswer.reached (heap : HeapAnswer live) (path : Text) : Text :=
  heap.behind ++ List.replicate (2 * wrap (path.length + 2)) 0

def HeapAnswer.room (heap : HeapAnswer live) (path : Text) : HeapRoom where
  allocated := heap.pointer ≠ 0
  behind := heap.reached path

def heapAlloc (heap : HeapAnswer live) : Heaped ℕ :=
  if heap.pointer = 0 then pure 0
  else Traced.touch (.alloc heap.pointer) (.ok heap.pointer)

/-- `heap_free`. -/
def heapFree (ptr : ℕ) : Heaped Unit :=
  if ptr = 0 then pure () else Traced.touch (.free ptr) (.ok ())

/-- Gives the pointer and the memory there.  A write can reach all of the
memory, not only the buffer. -/
def removeRelPath (heap : HeapAnswer live) (path : Text) :
    Heaped (Except Errno (ℕ × Text)) :=
  let size := wrap (path.length + 2)
  if size = 0 then do
    heapFree 0
    pure (.error .enomem)
  else do
    let newPath ← heapAlloc heap
    if newPath = 0 then do
      heapFree newPath
      pure (.error .enomem)
    else do
      let memory := freshMemory size (heap.reached path)
      match ← Traced.lift (removeRelPathLoop memory.length (path.length + 1)
          path 0 memory) with
      | .error e => pure (.error e)
      | .ok (dest, written) => do
          let written ← Traced.lift (store memory.length written dest [0])
          pure (.ok (newPath, written))

/-- `newmountpath` is the value which the variable happens to have.  Gives the
pointer of the mount path. -/
def mount (heap : HeapAnswer live) (newmountpath : ℕ) (fstype : FsType)
    (answer : Except Errno ℕ) (mountpath : Text) (s : MountState) :
    Heaped (Except Errno ℕ × MountState) := do
  match ← removeRelPath heap mountpath with
  | .error e => do
      heapFree newmountpath
      pure (.error e, s)
  | .ok (newmountpath, memory) =>
      match answer with
      | .error e => do
          heapFree newmountpath
          pure (.error e, s)
      | .ok context =>
          pure (.ok newmountpath,
            { mounts := s.mounts ++ [⟨⟨context, textAt memory⟩, fstype⟩]
              freed := s.freed.erase context })

def findmount (heap : HeapAnswer live) (mountpath : Text) (s : MountState) :
    Heaped (Except Errno Mount) := do
  match ← removeRelPath heap mountpath with
  | .error e => do
      heapFree 0
      pure (.error e)
  | .ok (newmountpath, memory) => do
      Traced.lift (cAssert (!s.mounts.isEmpty) "s_mounts.front != nullptr")
      match ← Traced.lift (findEntry s (textAt memory) s.mounts) with
      | none => do
          heapFree newmountpath
          pure (.error .einval)
      | some entry => do
          heapFree newmountpath
          pure (.ok entry)

/-- `mounts` is the table which the loop finds. -/
def resolvePath (heap : HeapAnswer live) (mounts : List FsContext)
    (path : Text) :
    Heaped (Except Errno Unit × List (FsContext × Text)) := do
  match ← removeRelPath heap path with
  | .error e => do
      heapFree 0
      pure (.error e, [])
  | .ok (_, newpath) => do
      Traced.lift (cAssert (!mounts.isEmpty) "s_mounts.front != nullptr")
      match selectMount path mounts none 0 with
      | (none, _) => Traced.fail (.assertion "result != nullptr")
      | (some entry, lastmatchlen) =>
          pure (.ok (), [(entry, textAt (newpath.drop lastmatchlen))])

theorem heapFree_of_ne {ptr : ℕ} (h : ptr ≠ 0) :
    heapFree ptr = Traced.touch (.free ptr) (.ok ()) := if_neg h

/-! ## Writes to the memory behind the buffer -/

/-- The memory ends in zeros, with room for a write at `dest`. -/
def Writable (limit dest room : ℕ) (memory : Text) : Prop :=
  memory.length = limit ∧ ∃ (front : Text) (zeros : ℕ),
    memory = front ++ List.replicate zeros 0 ∧ dest ≤ front.length ∧
      room ≤ zeros

theorem Writable.mono {limit dest dest' room room' : ℕ} {memory : Text}
    (h : Writable limit dest room memory) (hdest : dest' ≤ dest)
    (hroom : room' ≤ room) : Writable limit dest' room' memory := by
  obtain ⟨hlength, front, zeros, hmemory, hle, hzeros⟩ := h
  exact ⟨hlength, front, zeros, hmemory, hdest.trans hle, hroom.trans hzeros⟩

theorem Writable.store {limit dest room : ℕ} {memory : Text} (bytes : Text)
    (h : Writable limit dest (room + bytes.length) memory) :
    ∃ memory', store limit memory dest bytes = .ok memory' ∧
      Writable limit (dest + bytes.length) room memory' := by
  obtain ⟨hlength, front, zeros, hmemory, hle, hzeros⟩ := h
  have hlimit : front.length + zeros = limit := by
    rw [← hlength, hmemory, List.length_append, List.length_replicate]
  refine ⟨_, if_pos (by omega), ?_, front.take dest ++
    (bytes ++ front.drop (dest + bytes.length)),
    zeros - (dest + bytes.length - front.length), ?_, ?_, ?_⟩
  · rw [List.length_append, List.length_append, List.length_take,
      List.length_drop]
    omega
  · rw [hmemory, List.take_append_of_le_length hle, List.drop_append,
      List.drop_replicate, List.append_assoc, List.append_assoc]
  · rw [List.length_append, List.length_append, List.length_take]
    omega
  · omega

theorem kstrrchrLoop_zero (front rest : Text) (i : ℕ) (result : Option ℕ) :
    ∃ found, kstrrchrLoop slash (front ++ 0 :: rest) i result = .ok found ∧
      (found = result ∨ ∃ k, found = some k ∧ k < i + front.length) := by
  induction front generalizing i result with
  | nil => exact ⟨result, rfl, Or.inl rfl⟩
  | cons c front ih =>
      rw [List.cons_append]
      by_cases hc : c = 0
      · rw [hc]
        exact ⟨result, rfl, Or.inl rfl⟩
      · rw [kstrrchrLoop_cons hc, List.length_cons]
        obtain ⟨found, hfound, hwhere⟩ :=
          ih (i + 1) (if c = slash then some i else result)
        refine ⟨found, hfound, ?_⟩
        rcases hwhere with hkept | ⟨k, hk, hlt⟩
        · split at hkept
          next => exact Or.inr ⟨i, hkept, by omega⟩
          next => exact Or.inl hkept
        · exact Or.inr ⟨k, hk, by omega⟩

/-- The search ends at the zeros. -/
theorem Writable.search {limit dest room : ℕ} {memory : Text}
    (h : Writable limit dest (room + 1) memory) :
    ∃ found, kstrrchr memory slash = .ok found ∧
      Writable limit (found.getD 0) (room + 1) memory := by
  obtain ⟨hlength, front, zeros, hmemory, -, hzeros⟩ := h
  obtain ⟨more, rfl⟩ : ∃ more, zeros = more + 1 := ⟨zeros - 1, by omega⟩
  obtain ⟨found, hfound, hwhere⟩ :=
    kstrrchrLoop_zero front (List.replicate more 0) 0 none
  rw [← List.replicate_succ, ← hmemory] at hfound
  refine ⟨found, hfound, hlength, front, more + 1, hmemory, ?_, hzeros⟩
  rcases hwhere with hnone | ⟨k, hk, hlt⟩
  · rw [hnone]
    exact Nat.zero_le _
  · rw [hk, Option.getD_some]
    omega

theorem enterName_writable {limit dest room : ℕ} {name memory : Text}
    (h : Writable limit dest (room + 1 + name.length) memory) :
    ∃ dest' memory', enterName limit name dest memory =
        .ok (dest', memory') ∧ Writable limit dest' room memory' := by
  unfold enterName
  by_cases hdot : name = dot
  · rw [if_pos hdot]
    exact ⟨dest, memory, rfl, h.mono le_rfl (by omega)⟩
  · rw [if_neg hdot]
    by_cases hup : name = dotdot
    · rw [if_pos hup]
      obtain ⟨found, hfound, hwritable⟩ :=
        (h.mono le_rfl (by omega : room + 1 ≤ _)).search
      obtain ⟨memory', hstore, hwritten⟩ := hwritable.store [0]
      refine ⟨found.getD 0, memory', ?_, hwritten.mono (by omega) le_rfl⟩
      rw [hfound]
      show (Vfs.store limit memory (found.getD 0) [0] >>= _) = _
      rw [hstore]
      rfl
    · rw [if_neg hup]
      have hfirst : Writable limit dest (room + name.length + [slash].length)
          memory := h.mono le_rfl (by rw [List.length_singleton]; omega)
      obtain ⟨memory₁, hslash, hwritten⟩ := hfirst.store _
      obtain ⟨memory₂, hname, hwritten'⟩ := hwritten.store _
      refine ⟨_, memory₂, ?_, hwritten'⟩
      rw [hslash]
      show (Vfs.store limit memory₁ (dest + 1) name >>= _) = _
      rw [List.length_singleton] at hname
      rw [hname]
      rfl

/-- The loop ends.  A name takes at most twice its bytes of the path. -/
theorem removeRelPathLoop_writable {limit dest fuel : ℕ}
    {remaining memory : Text}
    (h : Writable limit dest (2 * remaining.length + 1) memory)
    (hnul : 0 ∉ remaining) (hfuel : remaining.length < fuel) :
    (NamesFit remaining ∧ ∃ dest' memory',
      removeRelPathLoop limit fuel remaining dest memory =
        .ok (.ok (dest', memory')) ∧ Writable limit dest' 1 memory') ∨
    (¬NamesFit remaining ∧
      removeRelPathLoop limit fuel remaining dest memory =
        .ok (.error .enametoolong)) := by
  induction fuel generalizing remaining dest memory with
  | zero => omega
  | succ fuel ih =>
      have hspec := pathreaderNext_spec remaining
      cases hnext : pathreaderNext remaining with
      | error e =>
          rw [hnext] at hspec
          rw [removeRelPathLoop, hnext]
          by_cases he : e = .enoent
          · subst he
            exact Or.inl ⟨hspec.2, dest, memory, rfl,
              h.mono le_rfl (by omega)⟩
          · rw [(namesRead_tooLong hnext he).1]
            exact Or.inr ⟨hspec.not_namesFit he, rfl⟩
      | ok next =>
          obtain ⟨name, rest⟩ := next
          rw [hnext] at hspec
          have hstep : NextName remaining name rest := hspec
          have hnul' : 0 ∉ name := fun hmem => hnul (hstep.sub 0 hmem)
          have hpos : 0 < name.length := List.length_pos_iff.2 hstep.ne_nil
          have hroom : 2 * rest.length + 1 + 1 + name.length ≤
              2 * remaining.length + 1 := by
            rcases hstep.room with hroom | ⟨hnil, hroom⟩
            · omega
            · rw [hnil, List.length_nil]
              omega
          have hlt := hstep.length_lt
          obtain ⟨dest', memory', henter, hwritable⟩ :=
            enterName_writable (h.mono le_rfl hroom)
          rw [removeRelPathLoop_next hnext hstep.ne_nil hnul', henter,
            hstep.fit]
          exact ih hwritable (fun hmem => hnul (hstep.subRest 0 hmem))
            (by omega)

/-! ## The values are those of the functions without the heap -/

theorem store_mono {size size' pos : ℕ} {memory bytes memory' : Text}
    (hle : size ≤ size') (h : store size memory pos bytes = .ok memory') :
    store size' memory pos bytes = .ok memory' := by
  unfold store at h ⊢
  split at h
  next hfits => rw [if_pos (hfits.trans hle), h]
  next => cases h

theorem removeRelPathLoop_mono {size size' fuel dest : ℕ}
    {remaining memory : Text} {r : Except Errno (ℕ × Text)}
    (hle : size ≤ size')
    (h : removeRelPathLoop size fuel remaining dest memory = .ok r) :
    removeRelPathLoop size' fuel remaining dest memory = .ok r := by
  induction fuel generalizing remaining dest memory with
  | zero => cases h
  | succ fuel ih =>
      unfold removeRelPathLoop at h ⊢
      split at h
      next => exact h
      next => exact h
      next name rest hnext =>
        split at h
        next hdot => rw [if_pos hdot, ih h]
        next hdot =>
          rw [if_neg hdot]
          split at h
          next hup =>
            rw [if_pos hup]
            obtain ⟨found, hfound, h⟩ := bind_eq_ok h
            obtain ⟨memory', hstore, h⟩ := bind_eq_ok h
            rw [hfound, ok_bind]
            dsimp only
            rw [store_mono hle hstore, ok_bind, ih h]
          next hup =>
            rw [if_neg hup]
            split at h
            next hhead =>
              rw [if_pos hhead]
              obtain ⟨memory₁, hslash, h⟩ := bind_eq_ok h
              obtain ⟨memory₂, hname, h⟩ := bind_eq_ok h
              rw [store_mono hle hslash, ok_bind, store_mono hle hname,
                ok_bind, ih h]
            next hhead => rw [if_neg hhead, ih h]

/-- There is a buffer for the normal form. -/
def HeapAnswer.HasRoom (heap : HeapAnswer live) (path : Text) : Prop :=
  wrap (path.length + 2) ≠ 0 ∧ heap.pointer ≠ 0

theorem HeapAnswer.HasRoom.short {heap : HeapAnswer live} {path : PathString}
    (h : heap.HasRoom path.bytes) : path.bytes.length + 2 < 4294967296 := by
  have hmapped := path.mapped
  have hsize := h.1
  unfold wrap at hsize
  omega

theorem removeRelPath_noRoom {heap : HeapAnswer live} {path : Text}
    (h : ¬heap.HasRoom path) :
    removeRelPath heap path = pure (.error .enomem) := by
  unfold HeapAnswer.HasRoom at h
  unfold removeRelPath heapAlloc heapFree
  dsimp only
  split
  next => rfl
  next hsize =>
    have hnull : heap.pointer = 0 := by
      by_contra hpointer
      exact h ⟨hsize, hpointer⟩
    rw [if_pos hnull]
    rfl

theorem removeRelPath_room {heap : HeapAnswer live} {path : Text}
    (h : heap.HasRoom path) :
    removeRelPath heap path = ⟨[.alloc heap.pointer],
      removeRelPathLoop
          (freshMemory (wrap (path.length + 2)) (heap.reached path)).length
          (path.length + 1) path 0
          (freshMemory (wrap (path.length + 2)) (heap.reached path)) >>=
        fun r => match r with
          | .error e => .ok (.error e)
          | .ok (dest, written) =>
              store (freshMemory (wrap (path.length + 2))
                  (heap.reached path)).length written dest [0] >>=
                fun written => .ok (.ok (heap.pointer, written))⟩ := by
  unfold removeRelPath heapAlloc
  dsimp only
  rw [if_neg h.1, if_neg h.2, Traced.bind_of_ok (Traced.result_touch _ _),
    if_neg h.2]
  cases removeRelPathLoop
      (freshMemory (wrap (path.length + 2)) (heap.reached path)).length
      (path.length + 1) path 0
      (freshMemory (wrap (path.length + 2)) (heap.reached path)) with
  | error fault => rfl
  | ok r =>
      cases r with
      | error e => rfl
      | ok r =>
          obtain ⟨dest, written⟩ := r
          rw [Traced.bind_of_ok (Traced.result_lift _), ok_bind]
          dsimp only
          cases store (freshMemory (wrap (path.length + 2))
            (heap.reached path)).length written dest [0] <;> rfl

/-- Where the writes stay inside the buffer, the value is the same. -/
theorem removeRelPath_result {heap : HeapAnswer live} {path : Text}
    {r : Except Errno Text}
    (h : Vfs.removeRelPath (heap.room path) path = .ok r) :
    (removeRelPath heap path).result =
      .ok (r.map (fun memory => (heap.pointer, memory))) := by
  unfold Vfs.removeRelPath HeapAnswer.room at h
  dsimp only at h
  by_cases hroom : heap.HasRoom path
  · have hallocated : (!decide (heap.pointer ≠ 0)) = false := by
      simpa using hroom.2
    rw [if_neg hroom.1, hallocated, if_neg Bool.false_ne_true] at h
    obtain ⟨r', hloop, h⟩ := bind_eq_ok h
    have hle : wrap (path.length + 2) ≤ (freshMemory (wrap (path.length + 2))
        (heap.reached path)).length := by
      unfold freshMemory
      rw [List.length_append, List.length_replicate]
      omega
    rw [removeRelPath_room hroom, removeRelPathLoop_mono hle hloop, ok_bind]
    cases r' with
    | error e =>
        cases h
        rfl
    | ok r' =>
        obtain ⟨dest, written⟩ := r'
        obtain ⟨memory, hstore, h⟩ := bind_eq_ok h
        cases h
        dsimp only
        rw [store_mono hle hstore]
        rfl
  · rw [removeRelPath_noRoom hroom]
    by_cases hsize : wrap (path.length + 2) = 0
    · rw [if_pos hsize] at h
      cases h
      rfl
    · have hnull : heap.pointer = 0 := by
        by_contra hpointer
        exact hroom ⟨hsize, hpointer⟩
      rw [if_neg hsize, hnull] at h
      cases h
      rfl

theorem heapFree_bind_result {α : Type} (ptr : ℕ) (f : Unit → Heaped α) :
    (heapFree ptr >>= f).result = (f ()).result := by
  unfold heapFree
  split <;> rfl

theorem findmount_result {heap : HeapAnswer live} {path : Text}
    {s : MountState} {r : Except Errno Mount}
    (h : Vfs.findmount (heap.room path) path s = .ok r) :
    (findmount heap path s).result = .ok r := by
  unfold Vfs.findmount at h
  obtain ⟨r', hpath, h⟩ := bind_eq_ok h
  unfold findmount
  rw [Traced.result_bind, removeRelPath_result hpath]
  cases r' with
  | error e => exact h
  | ok memory =>
      simp only [Except.map, Traced.result_bind, Traced.result_lift]
      obtain ⟨⟨⟩, hassert, h⟩ := bind_eq_ok h
      obtain ⟨found, hfind, h⟩ := bind_eq_ok h
      rw [hassert, hfind]
      cases found with
      | none => exact (heapFree_bind_result _ _).trans h
      | some entry => exact (heapFree_bind_result _ _).trans h

theorem resolvePath_result {heap : HeapAnswer live}
    {mounts : List FsContext} {path : Text}
    {r : Except Errno Unit × List (FsContext × Text)}
    (h : Vfs.resolvePath (heap.room path) mounts path = .ok r) :
    (resolvePath heap mounts path).result = .ok r := by
  unfold Vfs.resolvePath at h
  obtain ⟨r', hpath, h⟩ := bind_eq_ok h
  unfold resolvePath
  rw [Traced.result_bind, removeRelPath_result hpath]
  cases r' with
  | error e => exact h
  | ok memory =>
      simp only [Except.map, Traced.result_bind, Traced.result_lift]
      obtain ⟨⟨⟩, hassert, h⟩ := bind_eq_ok h
      rw [hassert]
      rcases hselect : selectMount path mounts none 0 with ⟨found, len⟩
      rw [hselect] at h
      cases found with
      | none => exact h
      | some entry => exact h

/-- With a normal form, `mount` does not read the variable it has not set. -/
theorem mount_result {heap : HeapAnswer live} {mountpath memory : Text}
    (hpath : Vfs.removeRelPath (heap.room mountpath) mountpath =
      .ok (.ok memory))
    (newmountpath : ℕ) (fstype : FsType) (answer : Except Errno ℕ)
    (s : MountState) :
    (mount heap newmountpath fstype answer mountpath s).result =
      (Vfs.mount fstype ⟨heap.room mountpath, answer⟩ mountpath s).map
        (fun r => (r.1.map (fun _ => heap.pointer), r.2)) := by
  unfold mount Vfs.mount
  rw [Traced.result_bind, removeRelPath_result hpath, hpath]
  cases answer with
  | error e => exact heapFree_bind_result _ _
  | ok context => rfl

/-- There is a buffer when a name is met which is too long. -/
structure HeapAnswer.Overlong (heap : HeapAnswer live) (path : Text) :
    Prop where
  room : heap.HasRoom path
  fit : ¬NamesFit path

/-- How a call with a buffer ends. -/
theorem removeRelPath_outcome {heap : HeapAnswer live} {path : PathString}
    (h : heap.HasRoom path.bytes) :
    (NamesFit path.bytes ∧
      ∃ memory, removeRelPath heap path.bytes =
        ⟨[.alloc heap.pointer], .ok (.ok (heap.pointer, memory))⟩) ∨
    (heap.Overlong path.bytes ∧ removeRelPath heap path.bytes =
      ⟨[.alloc heap.pointer], .ok (.error .enametoolong)⟩) := by
  rw [removeRelPath_room h]
  have hsize : wrap (path.bytes.length + 2) = path.bytes.length + 2 :=
    wrap_of_lt h.short
  have hwritable : Writable
      (freshMemory (wrap (path.bytes.length + 2))
        (heap.reached path.bytes)).length
      0 (2 * path.bytes.length + 1)
      (freshMemory (wrap (path.bytes.length + 2))
        (heap.reached path.bytes)) := by
    refine ⟨rfl, freshMemory (wrap (path.bytes.length + 2)) heap.behind,
      2 * wrap (path.bytes.length + 2), ?_, Nat.zero_le _, by omega⟩
    unfold freshMemory HeapAnswer.reached
    simp only [List.append_assoc]
  obtain ⟨hfit, dest, written, hloop, hend⟩ | ⟨hfit, hloop⟩ :=
    removeRelPathLoop_writable hwritable path.noNul (Nat.lt_succ_self _)
  · left
    have hlast : Writable _ dest (0 + [(0 : BitVec 8)].length) written := hend
    obtain ⟨memory, hstore, -⟩ := hlast.store _
    refine ⟨hfit, memory, ?_⟩
    rw [hloop, ok_bind]
    dsimp only
    rw [hstore]
    rfl
  · right
    rw [hloop]
    exact ⟨⟨h, hfit⟩, rfl⟩

/-! ## What each function leaves behind -/

/-- `remove_rel_path` leaves the string which it returns. -/
def keptPath : Except Errno (ℕ × Text) → Finset ℕ
  | .ok (newPath, _) => {newPath}
  | .error _ => ∅

/-- A successful `mount` leaves the mount path. -/
def keptMount : Except Errno ℕ × MountState → Finset ℕ
  | (.ok newmountpath, _) => {newmountpath}
  | (.error _, _) => ∅

section Functions

variable {heap : HeapAnswer live} {path : PathString}

theorem removeRelPath_keeps_iff :
    Keeps live keptPath (removeRelPath heap path.bytes) ↔
      ¬heap.Overlong path.bytes := by
  by_cases hroom : heap.HasRoom path.bytes
  · have hfresh := heap.fresh hroom.2
    obtain ⟨hfit, memory, hcall⟩ | ⟨hlong, hcall⟩ :=
      removeRelPath_outcome hroom
    · rw [hcall]
      exact iff_of_true (keeps_alloc rfl) (fun hlong => hlong.fit hfit)
    · rw [hcall]
      exact iff_of_false (not_keeps_alloc hfresh rfl)
        (fun hshort => hshort hlong)
  · rw [removeRelPath_noRoom hroom]
    exact iff_of_true (keeps_nil rfl) (fun hlong => hroom hlong.room)

theorem findmount_keeps_iff (s : MountState) :
    Keeps live (fun _ => ∅) (findmount heap path.bytes s) ↔
      ¬heap.Overlong path.bytes := by
  unfold findmount
  by_cases hroom : heap.HasRoom path.bytes
  · have hfresh := heap.fresh hroom.2
    obtain ⟨hfit, memory, hcall⟩ | ⟨hlong, hcall⟩ :=
      removeRelPath_outcome hroom
    · rw [hcall, Traced.bind_of_ok rfl]
      refine iff_of_true ?_ (fun hlong => hlong.fit hfit)
      dsimp only
      rw [heapFree_of_ne hroom.2]
      cases cAssert (!s.mounts.isEmpty) "s_mounts.front != nullptr" with
      | error fault => exact keeps_alloc_error _ _
      | ok =>
          rw [Traced.bind_of_ok (Traced.result_lift _)]
          cases findEntry s (textAt memory) s.mounts with
          | error fault => exact keeps_alloc_error _ _
          | ok found =>
              cases found with
              | none => exact keeps_alloc_free hfresh rfl
              | some entry => exact keeps_alloc_free hfresh rfl
    · rw [hcall, Traced.bind_of_ok rfl]
      exact iff_of_false (not_keeps_alloc hfresh rfl)
        (fun hshort => hshort hlong)
  · rw [removeRelPath_noRoom hroom]
    exact iff_of_true (keeps_nil rfl) (fun hlong => hroom hlong.room)

theorem mount_keeps_iff (newmountpath : ℕ) (fstype : FsType)
    (answer : Except Errno ℕ) (s : MountState) :
    Keeps live keptMount
        (mount heap newmountpath fstype answer path.bytes s) ↔
      (¬heap.HasRoom path.bytes → newmountpath = 0) ∧
        (heap.Overlong path.bytes → newmountpath = heap.pointer) := by
  unfold mount
  by_cases hroom : heap.HasRoom path.bytes
  · have hfresh := heap.fresh hroom.2
    rw [and_iff_right (fun h => absurd hroom h)]
    obtain ⟨hfit, memory, hcall⟩ | ⟨hlong, hcall⟩ :=
      removeRelPath_outcome hroom
    · rw [hcall, Traced.bind_of_ok rfl]
      refine iff_of_true ?_ (fun hlong => absurd hfit hlong.fit)
      cases answer with
      | error e =>
          dsimp only
          rw [heapFree_of_ne hroom.2]
          exact keeps_alloc_free hfresh rfl
      | ok context => exact keeps_alloc rfl
    · rw [hcall, Traced.bind_of_ok rfl, forall_prop_of_true hlong]
      dsimp only
      by_cases hnull : newmountpath = 0
      · rw [hnull]
        exact iff_of_false (not_keeps_alloc hfresh rfl) hroom.2.symm
      · rw [heapFree_of_ne hnull]
        exact keeps_alloc_free_iff hfresh rfl
  · rw [removeRelPath_noRoom hroom, forall_prop_of_true hroom]
    have hshort : heap.Overlong path.bytes → newmountpath = heap.pointer :=
      fun hlong => absurd hlong.room hroom
    rw [and_iff_left hshort]
    show Keeps live keptMount (heapFree newmountpath >>= _) ↔ _
    by_cases hnull : newmountpath = 0
    · rw [hnull]
      exact iff_of_true (keeps_nil rfl) rfl
    · rw [heapFree_of_ne hnull]
      exact iff_of_false (not_keeps_free _ _) hnull

/-- No mount path starts the path. -/
def NoMount (mounts : List FsContext) (path : Text) : Prop :=
  ∀ entry ∈ mounts,
    kstrncmp entry.mountPath path entry.mountPath.length ≠ 0

theorem selectMount_some (mounts : List FsContext) (path : Text)
    (result : FsContext) (lastmatchlen : ℕ) :
    ∃ entry len,
      selectMount path mounts (some result) lastmatchlen =
        (some entry, len) := by
  induction mounts generalizing result lastmatchlen with
  | nil => exact ⟨_, _, rfl⟩
  | cons entry rest ih =>
      unfold selectMount
      dsimp only
      split
      · split
        · exact ih _ _
        · exact ih _ _
      · exact ih _ _

theorem selectMount_none_iff (mounts : List FsContext) (path : Text) :
    (selectMount path mounts none 0).1 = none ↔ NoMount mounts path := by
  induction mounts with
  | nil =>
      exact iff_of_true rfl (fun _ hentry => absurd hentry List.not_mem_nil)
  | cons entry rest ih =>
      unfold selectMount NoMount
      dsimp only
      rw [if_pos (Nat.zero_le _), List.forall_mem_cons]
      split
      next hzero =>
        obtain ⟨other, len, hother⟩ :=
          selectMount_some rest path entry entry.mountPath.length
        rw [hother]
        exact iff_of_false (Option.some_ne_none _) (fun h => h.1 hzero)
      next hzero =>
        rw [ih, and_iff_right hzero]
        rfl

/-- `resolve_path` returns with a buffer, which it never frees. -/
theorem resolvePath_keeps_iff (mounts : List FsContext) :
    Keeps live (fun _ => ∅) (resolvePath heap mounts path.bytes) ↔
      (heap.HasRoom path.bytes →
        NamesFit path.bytes ∧ NoMount mounts path.bytes) := by
  unfold resolvePath
  by_cases hroom : heap.HasRoom path.bytes
  · have hfresh := heap.fresh hroom.2
    rw [forall_prop_of_true hroom]
    obtain ⟨hfit, memory, hcall⟩ | ⟨hlong, hcall⟩ :=
      removeRelPath_outcome hroom
    · rw [hcall, Traced.bind_of_ok rfl, and_iff_right hfit,
        ← selectMount_none_iff]
      dsimp only
      cases hassert : cAssert (!mounts.isEmpty) "s_mounts.front != nullptr" with
      | error fault =>
          have hempty : mounts = [] := by
            cases mounts with
            | nil => rfl
            | cons entry rest => cases hassert
          rw [hempty]
          exact iff_of_true (keeps_alloc_error _ _) rfl
      | ok =>
          rw [Traced.bind_of_ok (Traced.result_lift _)]
          obtain ⟨found, len⟩ := selectMount path.bytes mounts none 0
          cases found with
          | none => exact iff_of_true (keeps_alloc_error _ _) rfl
          | some entry =>
              exact iff_of_false (not_keeps_alloc hfresh rfl)
                (Option.some_ne_none _)
    · rw [hcall, Traced.bind_of_ok rfl]
      exact iff_of_false (not_keeps_alloc hfresh rfl)
        (fun h => hlong.fit h.1)
  · rw [removeRelPath_noRoom hroom]
    exact iff_of_true (keeps_nil rfl) (fun h => absurd h hroom)

variable (heap path) in
/-- Which calls free only their own blocks and leave what they should. -/
theorem paths_keep_iff :
    (Keeps live keptPath (removeRelPath heap path.bytes) ↔
      ¬heap.Overlong path.bytes) ∧
    (∀ newmountpath fstype answer s,
      Keeps live keptMount
          (mount heap newmountpath fstype answer path.bytes s) ↔
        (¬heap.HasRoom path.bytes → newmountpath = 0) ∧
          (heap.Overlong path.bytes → newmountpath = heap.pointer)) ∧
    (∀ s, Keeps live (fun _ => ∅) (findmount heap path.bytes s) ↔
      ¬heap.Overlong path.bytes) ∧
    ∀ mounts, Keeps live (fun _ => ∅) (resolvePath heap mounts path.bytes) ↔
      (heap.HasRoom path.bytes →
        NamesFit path.bytes ∧ NoMount mounts path.bytes) :=
  ⟨removeRelPath_keeps_iff, mount_keeps_iff, findmount_keeps_iff,
    resolvePath_keeps_iff⟩

end Functions

/-- A heap with a block at one page, and a terminator behind it. -/
def onePage : HeapAnswer ∅ where
  pointer := archPageSize
  behind := [0]
  fresh := fun _ => Finset.notMem_empty _

theorem resolved_root_leaks :
    ¬Keeps ∅ (fun _ => ∅)
      (resolvePath onePage [⟨0, []⟩] rootPath.bytes) := by
  rw [resolvePath_keeps_iff]
  intro h
  have hroom : onePage.HasRoom rootPath.bytes := ⟨by decide, by decide⟩
  exact (h hroom).2 ⟨0, []⟩ List.mem_cons_self rfl

end VfsHeap
end Yjkos
