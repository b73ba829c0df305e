import Yjkos.TransitionRun
import Yjkos.VfsResolve

/-!
# The mount table

`vfs_mount` and `vfs_umount` of `kernel/fs/vfs.c` over a table of contexts
which belong to the filesystem drivers.  A driver gives a context of its own
for every mount and frees it when it unmounts.  What the drivers and the heap
answer are parameters of a call.  Reading a context which has been freed, and
freeing the path pointer which `mount` has not set, are faults.
-/

namespace Yjkos
namespace Vfs

/-- A `struct vfs_fstype`. -/
structure FsType where
  name : Text
deriving DecidableEq

/-- An entry of `s_mounts`, with its type. -/
structure Mount extends FsContext where
  fstype : FsType
deriving DecidableEq

structure MountState where
  mounts : List Mount
  /-- The contexts which have been freed and not been allocated again. -/
  freed : List ℕ

/-- What the heap has for the path, and what `ops->mount` answers. -/
structure Attempt where
  room : HeapRoom
  answer : Except Errno ℕ

def mount (fstype : FsType) (attempt : Attempt) (mountpath : Text)
    (s : MountState) : Except Fault (Except Errno Unit × MountState) := do
  match ← removeRelPath attempt.room mountpath with
  | .error _ => .error .wildPointer
  | .ok newmountpath =>
      match attempt.answer with
      | .error e => .ok (.error e, s)
      | .ok context =>
          .ok (.ok (),
            { mounts := s.mounts ++ [⟨⟨context, textAt newmountpath⟩, fstype⟩]
              freed := s.freed.erase context })

/-- The loop of `findmount`. -/
def findEntry (s : MountState) (newmountpath : Text) :
    List Mount → Except Fault (Option Mount)
  | [] => .ok none
  | entry :: rest =>
      if entry.id ∈ s.freed then .error .wildPointer
      else if kstrcmp entry.mountPath newmountpath = 0 then .ok (some entry)
      else findEntry s newmountpath rest

def findmount (room : HeapRoom) (mountpath : Text) (s : MountState) :
    Except Fault (Except Errno Mount) := do
  match ← removeRelPath room mountpath with
  | .error e => .ok (.error e)
  | .ok newmountpath => do
      cAssert (!s.mounts.isEmpty) "s_mounts.front != nullptr"
      match ← findEntry s (textAt newmountpath) s.mounts with
      | none => .ok (.error .einval)
      | some entry => .ok (.ok entry)

/-- The loop which tries all filesystems, from type number `i` on. -/
def tryMounts (attempts : ℕ → Attempt) (mountpath : Text) :
    List FsType → ℕ → Except Errno Unit → MountState →
      Except Fault (Except Errno Unit × MountState)
  | [], _, ret, s => .ok (ret, s)
  | fstype :: rest, i, _, s => do
      match ← mount fstype (attempts i) mountpath s with
      | (.ok (), s) => .ok (.ok (), s)
      | (.error .einval, s) =>
          tryMounts attempts mountpath rest (i + 1) (.ok ()) s
      | (.error e, s) => .ok (.error e, s)

/-- The last type with the name. -/
def findFsType (fstypes : List FsType) (name : Text) : Option FsType :=
  fstypes.foldl
    (fun result fstype =>
      if kstrcmp fstype.name name = 0 then some fstype else result) none

def vfsMount (fstypes : List FsType) (fstype : Option Text)
    (attempts : ℕ → Attempt) (mountpath : Text) (s : MountState) :
    Except Fault (Except Errno Unit × MountState) :=
  match fstype with
  | none => tryMounts attempts mountpath fstypes 0 (.error .enodev) s
  | some name =>
      match findFsType fstypes name with
      | none => .ok (.error .enodev, s)
      | some fstype => mount fstype (attempts 0) mountpath s

/-- `umount` is what `ops->umount` answers; it frees the context. -/
def vfsUmount (room : HeapRoom) (umount : Except Errno Unit)
    (mountpath : Text) (s : MountState) :
    Except Fault (Except Errno Unit × MountState) := do
  match ← findmount room mountpath s with
  | .error e => .ok (.error e, s)
  | .ok context =>
      match umount with
      | .error e => .ok (.error e, s)
      | .ok () => .ok (.ok (), { s with freed := context.id :: s.freed })

/-- `resolve_path`, which reads every entry of the table. -/
def resolveMounted (room : HeapRoom) (path : Text) (s : MountState) :
    Except Fault (Except Errno Unit × List (FsContext × Text)) := do
  match ← removeRelPath room path with
  | .error e => .ok (.error e, [])
  | .ok _ =>
      if s.mounts.any (fun entry => entry.id ∈ s.freed) then
        .error .wildPointer
      else resolvePath room (s.mounts.map Mount.toFsContext) path

/-! ## Runs -/

inductive MountCall where
  | vfsMount (fstypes : List FsType) (fstype : Option Text)
      (attempts : ℕ → Attempt) (mountpath : PathString)
  | vfsUmount (room : HeapRoom) (umount : Except Errno Unit)
      (mountpath : PathString)

def MountCall.call : MountCall → MountState →
    Except Fault (Except Errno Unit × MountState)
  | .vfsMount fstypes fstype attempts mountpath =>
      Vfs.vfsMount fstypes fstype attempts mountpath.bytes
  | .vfsUmount room umount mountpath =>
      Vfs.vfsUmount room umount mountpath.bytes

def mountStep (s : MountState) (c : MountCall) : Except Fault MountState := do
  let (_, s) ← c.call s
  .ok s

/-- Nothing is mounted. -/
def unmounted : MountState := ⟨[], []⟩

/-- No context in the table has been freed, and no search of the table uses
one which has. -/
structure MountState.Live (s : MountState) : Prop where
  table : ∀ entry ∈ s.mounts, entry.id ∉ s.freed
  findmount : ∀ room path, findmount room path s ≠ .error .wildPointer
  resolve : ∀ room path, resolveMounted room path s ≠ .error .wildPointer

/-- A mount which answers 0 has added one entry, and no other one has changed
the table; an unmount which answers 0 has removed the entry it has found. -/
def TableFollows (s : MountState) :
    MountCall → Except Errno Unit → MountState → Prop
  | .vfsMount _ _ _ _, ret, s' =>
      (ret = .ok () ↔ ∃ entry, s'.mounts = s.mounts ++ [entry]) ∧
        (ret ≠ .ok () → s'.mounts = s.mounts)
  | .vfsUmount room _ mountpath, ret, s' =>
      ret = .ok () → ∃ entry,
        findmount room mountpath.bytes s = .ok (.ok entry) ∧
          s'.mounts = s.mounts.erase entry

/-- The call returns and keeps the table. -/
def KeepsTable (s : MountState) (c : MountCall) : Prop :=
  ∃ ret s', c.call s = .ok (ret, s') ∧ TableFollows s c ret s' ∧ s'.Live

/-- The path has a normal form, so that the driver is asked. -/
def Attempt.Normal (attempt : Attempt) (mountpath : Text) : Prop :=
  ∃ newmountpath, removeRelPath attempt.room mountpath =
    .ok (.ok newmountpath)

/-- The attempt is refused as the wrong type. -/
def Attempt.WrongType (attempt : Attempt) (mountpath : Text) : Prop :=
  attempt.Normal mountpath ∧ attempt.answer = .error .einval

/-- One of `n` attempts from number `i` on is the first which is not refused as
the wrong type, and its path has a normal form. -/
def Decided (attempts : ℕ → Attempt) (mountpath : Text) (i n : ℕ) : Prop :=
  ∃ j, j < n ∧ (∀ k, k < j → (attempts (i + k)).WrongType mountpath) ∧
    (attempts (i + j)).Normal mountpath ∧
    (attempts (i + j)).answer ≠ .error .einval

/-- When a type is looked for, one of those there are does not refuse the
disk, and a path which is mounted on has a normal form; the search for the path
of an unmount returns, and it is not a mount point or the driver refuses. -/
def TableKept (s : MountState) : MountCall → Prop
  | .vfsMount fstypes none attempts mountpath =>
      fstypes = [] ∨ Decided attempts mountpath.bytes 0 fstypes.length
  | .vfsMount fstypes (some name) attempts mountpath =>
      findFsType fstypes name = none ∨ (attempts 0).Normal mountpath.bytes
  | .vfsUmount room umount mountpath =>
      ∃ found, findmount room mountpath.bytes s = .ok found ∧
        (umount ≠ .ok () ∨ ∀ entry, found ≠ .ok entry)

/-! ## Searching a table of live contexts -/

theorem bind_ne_error {α β : Type} {fault : Fault} {x : Except Fault α}
    {f : α → Except Fault β} (hx : x ≠ .error fault)
    (hf : ∀ a, f a ≠ .error fault) : (x >>= f) ≠ .error fault := by
  cases x with
  | error e =>
      rw [error_bind]
      exact fun h => hx (congrArg Except.error (Except.error.inj h))
  | ok a => exact hf a

theorem store_not_wild (size : ℕ) (memory : Text) (pos : ℕ) (bytes : Text) :
    store size memory pos bytes ≠ .error .wildPointer := by
  unfold store
  split <;> simp

theorem kstrrchrLoop_not_wild (c : BitVec 8) (memory : Text) (i : ℕ)
    (result : Option ℕ) :
    kstrrchrLoop c memory i result ≠ .error .wildPointer := by
  induction memory generalizing i result with
  | nil => simp [kstrrchrLoop]
  | cons next rest ih =>
      unfold kstrrchrLoop
      dsimp only
      split
      · simp
      · exact ih (i + 1) _

theorem removeRelPathLoop_not_wild (size fuel : ℕ) (remaining : Text)
    (dest : ℕ) (memory : Text) :
    removeRelPathLoop size fuel remaining dest memory ≠
      .error .wildPointer := by
  induction fuel generalizing remaining dest memory with
  | zero => simp [removeRelPathLoop]
  | succ fuel ih =>
      unfold removeRelPathLoop
      split
      · simp
      · simp
      next name rest _ =>
        split
        · exact ih rest dest memory
        · split
          · refine bind_ne_error (kstrrchrLoop_not_wild _ _ _ _) ?_
            exact fun found => bind_ne_error (store_not_wild _ _ _ _)
              (fun memory => ih rest _ memory)
          · split
            · exact bind_ne_error (store_not_wild _ _ _ _) (fun memory =>
                bind_ne_error (store_not_wild _ _ _ _)
                  (fun memory => ih rest _ memory))
            · exact ih rest dest memory

theorem removeRelPath_not_wild (room : HeapRoom) (path : Text) :
    removeRelPath room path ≠ .error .wildPointer := by
  unfold removeRelPath
  dsimp only
  split
  · simp
  · split
    · simp
    · refine bind_ne_error (removeRelPathLoop_not_wild _ _ _ _ _) ?_
      rintro (e | ⟨dest, memory⟩)
      · simp
      · exact bind_ne_error (store_not_wild _ _ _ _) (fun _ => by simp)

theorem cAssert_not_wild (condition : Bool) (text : String) :
    cAssert condition text ≠ .error .wildPointer := by
  cases condition <;> simp

theorem resolvePath_not_wild (room : HeapRoom) (mounts : List FsContext)
    (path : Text) : resolvePath room mounts path ≠ .error .wildPointer := by
  unfold resolvePath
  refine bind_ne_error (removeRelPath_not_wild room path) ?_
  rintro (e | newpath)
  · simp
  · refine bind_ne_error (cAssert_not_wild _ _) (fun _ => ?_)
    split <;> simp

theorem findEntry_live {s : MountState} (newmountpath : Text)
    {entries : List Mount} (h : ∀ entry ∈ entries, entry.id ∉ s.freed) :
    ∃ found, findEntry s newmountpath entries = .ok found ∧
      ∀ entry, found = some entry → entry ∈ entries := by
  induction entries with
  | nil => exact ⟨none, rfl, by simp⟩
  | cons entry rest ih =>
      unfold findEntry
      rw [if_neg (h entry List.mem_cons_self)]
      split
      · refine ⟨some entry, rfl, ?_⟩
        rintro _ ⟨⟩
        exact List.mem_cons_self
      · obtain ⟨found, hfound, hmem⟩ :=
          ih (fun other hother => h other (List.mem_cons_of_mem _ hother))
        exact ⟨found, hfound, fun other hother =>
          List.mem_cons_of_mem _ (hmem other hother)⟩

theorem live_of_table {s : MountState}
    (h : ∀ entry ∈ s.mounts, entry.id ∉ s.freed) : s.Live where
  table := h
  findmount := by
    intro room path
    unfold Vfs.findmount
    refine bind_ne_error (removeRelPath_not_wild room path) ?_
    rintro (e | newmountpath)
    · simp
    · refine bind_ne_error (cAssert_not_wild _ _) (fun _ => ?_)
      obtain ⟨found, hfound, -⟩ := findEntry_live (textAt newmountpath) h
      rw [hfound, ok_bind]
      split <;> simp
  resolve := by
    intro room path
    unfold resolveMounted
    refine bind_ne_error (removeRelPath_not_wild room path) ?_
    rintro (e | newpath)
    · simp
    · have hlive : s.mounts.any (fun entry => entry.id ∈ s.freed) = false := by
        simpa using h
      dsimp only
      rw [hlive]
      exact resolvePath_not_wild _ _ _

theorem findmount_mem {room : HeapRoom} {path : Text} {s : MountState}
    (h : ∀ entry ∈ s.mounts, entry.id ∉ s.freed) {entry : Mount}
    (hfind : findmount room path s = .ok (.ok entry)) :
    entry ∈ s.mounts := by
  obtain ⟨r, -, hrest⟩ := bind_eq_ok hfind
  cases r with
  | error e => cases hrest
  | ok newmountpath =>
      obtain ⟨-, -, hsearch⟩ := bind_eq_ok hrest
      obtain ⟨found, hfound, hmem⟩ := findEntry_live (textAt newmountpath) h
      rw [hfound, ok_bind] at hsearch
      cases found with
      | none => cases hsearch
      | some found =>
          cases hsearch
          exact hmem entry rfl

/-! ## One mount -/

/-- An answer with its entry, or an error with the table as it was. -/
def MountFollows (s : MountState) (ret : Except Errno Unit)
    (s' : MountState) : Prop :=
  (∃ entry, ret = .ok () ∧ s'.mounts = s.mounts ++ [entry] ∧
    s'.freed = s.freed.erase entry.id) ∨ ∃ e, ret = .error e ∧ s' = s

theorem mount_cases {fstype : FsType} {attempt : Attempt} {mountpath : Text}
    {s s' : MountState} {ret : Except Errno Unit}
    (h : mount fstype attempt mountpath s = .ok (ret, s')) :
    attempt.Normal mountpath ∧
    ((∃ entry : Mount, attempt.answer = .ok entry.id ∧ ret = .ok () ∧
        s'.mounts = s.mounts ++ [entry] ∧
        s'.freed = s.freed.erase entry.id) ∨
      ∃ e, attempt.answer = .error e ∧ ret = .error e ∧ s' = s) := by
  obtain ⟨r, hremove, hrest⟩ := bind_eq_ok h
  cases r with
  | error e => cases hrest
  | ok newmountpath =>
      refine ⟨⟨newmountpath, hremove⟩, ?_⟩
      dsimp only at hrest
      cases hanswer : attempt.answer with
      | error e =>
          rw [hanswer] at hrest
          cases hrest
          exact .inr ⟨e, rfl, rfl, rfl⟩
      | ok context =>
          rw [hanswer] at hrest
          cases hrest
          exact .inl ⟨_, rfl, rfl, rfl, rfl⟩

/-- With a normal form of the path the attempt returns. -/
theorem mount_returns {fstype : FsType} {attempt : Attempt} {mountpath : Text}
    (h : attempt.Normal mountpath) (s : MountState) :
    ∃ ret s', mount fstype attempt mountpath s = .ok (ret, s') := by
  obtain ⟨newmountpath, hremove⟩ := h
  unfold mount
  rw [hremove, ok_bind]
  cases attempt.answer <;> exact ⟨_, _, rfl⟩

theorem mount_follows {fstype : FsType} {attempt : Attempt} {mountpath : Text}
    {s s' : MountState} {ret : Except Errno Unit}
    (h : mount fstype attempt mountpath s = .ok (ret, s')) :
    MountFollows s ret s' := by
  obtain ⟨-, ⟨entry, -, hret, hmounts, hfreed⟩ | ⟨e, -, hret, hs⟩⟩ :=
    mount_cases h
  · exact .inl ⟨entry, hret, hmounts, hfreed⟩
  · exact .inr ⟨e, hret, hs⟩

section Attempts

variable {attempts : ℕ → Attempt} {mountpath : Text} {i n : ℕ}

theorem Decided.first (hnormal : (attempts i).Normal mountpath)
    (hanswer : (attempts i).answer ≠ .error .einval) :
    Decided attempts mountpath i (n + 1) :=
  ⟨0, Nat.succ_pos n, fun k hk => absurd hk (Nat.not_lt_zero k), hnormal,
    hanswer⟩

theorem Decided.later (hwrong : (attempts i).WrongType mountpath)
    (h : Decided attempts mountpath (i + 1) n) :
    Decided attempts mountpath i (n + 1) := by
  obtain ⟨j, hj, hbefore, hright⟩ := h
  have hshift : ∀ k, i + 1 + k = i + (k + 1) := by
    intro k
    omega
  rw [hshift j] at hright
  refine ⟨j + 1, Nat.succ_lt_succ hj, fun k hk => ?_, hright⟩
  cases k with
  | zero => exact hwrong
  | succ k =>
      have hstep := hbefore k (Nat.lt_of_succ_lt_succ hk)
      rwa [hshift k] at hstep

/-- The first attempt decides, or it is of the wrong type and a later one
does. -/
theorem Decided.cases (h : Decided attempts mountpath i (n + 1)) :
    ((attempts i).Normal mountpath ∧ (attempts i).answer ≠ .error .einval) ∨
      (attempts i).WrongType mountpath ∧
        Decided attempts mountpath (i + 1) n := by
  obtain ⟨j, hj, hbefore, hright⟩ := h
  cases j with
  | zero => exact .inl hright
  | succ j =>
      have hshift : ∀ k, i + (k + 1) = i + 1 + k := by
        intro k
        omega
      rw [hshift j] at hright
      refine .inr ⟨hbefore 0 (Nat.succ_pos j), j, Nat.lt_of_succ_lt_succ hj,
        fun k hk => ?_, hright⟩
      have hstep := hbefore (k + 1) (Nat.succ_lt_succ hk)
      rwa [hshift k] at hstep

/-- Where the attempts end: one decides, or all are of the wrong type. -/
theorem tryMounts_cases {fstypes : List FsType}
    {first ret : Except Errno Unit} {s s' : MountState}
    (h : tryMounts attempts mountpath fstypes i first s = .ok (ret, s')) :
    (Decided attempts mountpath i fstypes.length ∧ MountFollows s ret s') ∨
      s' = s ∧ ret = if fstypes = [] then first else .ok () := by
  induction fstypes generalizing i first s with
  | nil =>
      cases h
      exact .inr ⟨rfl, rfl⟩
  | cons fstype rest ih =>
      obtain ⟨⟨r, next⟩, hmount, hrest⟩ := bind_eq_ok h
      obtain ⟨hpath, ⟨entry, hanswer, rfl, hmounts, hfreed⟩ |
        ⟨e, hanswer, rfl, rfl⟩⟩ := mount_cases hmount
      · cases hrest
        exact .inl ⟨.first hpath (by rw [hanswer]; simp),
          .inl ⟨entry, rfl, hmounts, hfreed⟩⟩
      · by_cases he : e = .einval
        · subst he
          rcases ih hrest with ⟨hdecided, hfollows⟩ | ⟨hs, hret⟩
          · exact .inl ⟨hdecided.later ⟨hpath, hanswer⟩, hfollows⟩
          · refine .inr ⟨hs, ?_⟩
            rw [if_neg (List.cons_ne_nil fstype rest), hret]
            exact ite_self _
        · have hrest' : ret = .error e ∧ s' = next := by
            cases e
            case einval => exact absurd rfl he
            all_goals
              cases hrest
              exact ⟨rfl, rfl⟩
          refine .inl ⟨.first hpath ?_, .inr ⟨e, hrest'⟩⟩
          rw [hanswer]
          exact fun heq => he (Except.error.inj heq)

/-- The attempts return when one decides. -/
theorem Decided.tryMounts {fstypes : List FsType}
    (h : Decided attempts mountpath i fstypes.length)
    (first : Except Errno Unit) (s : MountState) :
    ∃ ret s', tryMounts attempts mountpath fstypes i first s =
        .ok (ret, s') ∧ MountFollows s ret s' := by
  induction fstypes generalizing i first with
  | nil =>
      obtain ⟨j, hj, -⟩ := h
      exact absurd hj (Nat.not_lt_zero j)
  | cons fstype rest ih =>
      rcases h.cases with ⟨hnormal, hanswer⟩ | ⟨⟨hnormal, hwrong⟩, hlater⟩
      · obtain ⟨ret, s', hmount⟩ := mount_returns hnormal s
        refine ⟨ret, s', ?_, mount_follows hmount⟩
        rw [Vfs.tryMounts, hmount, ok_bind]
        obtain ⟨-, ⟨-, -, rfl, -⟩ | ⟨e, hgiven, rfl, -⟩⟩ := mount_cases hmount
        · rfl
        · cases e
          case einval => exact absurd hgiven hanswer
          all_goals rfl
      · obtain ⟨ret, s', hrest, hfollows⟩ := ih hlater (.ok ())
        refine ⟨ret, s', ?_, hfollows⟩
        obtain ⟨newmountpath, hremove⟩ := hnormal
        rw [Vfs.tryMounts, mount, hremove, ok_bind]
        dsimp only
        rw [hwrong]
        exact hrest

end Attempts

/-! ## Calls -/

theorem erase_ne_self {entries : List Mount} {entry : Mount}
    (h : entry ∈ entries) : entries ≠ entries.erase entry := by
  intro heq
  have hlength := congrArg List.length heq
  rw [List.length_erase_of_mem h] at hlength
  have hpos := List.length_pos_of_mem h
  omega

theorem ne_append_singleton (entries : List Mount) (entry : Mount) :
    entries ≠ entries ++ [entry] := by
  intro heq
  have hlength := congrArg List.length heq
  simp at hlength

/-- Nothing has been freed. -/
def NoneFreed (s : MountState) : Prop := s.freed = []

theorem NoneFreed.live {s : MountState} (h : NoneFreed s) : s.Live := by
  apply live_of_table
  intro entry _
  rw [h]
  exact List.not_mem_nil

theorem MountFollows.right {s s' : MountState} {ret : Except Errno Unit}
    (h : MountFollows s ret s') :
    (ret = .ok () ↔ ∃ entry, s'.mounts = s.mounts ++ [entry]) ∧
      (ret ≠ .ok () → s'.mounts = s.mounts) := by
  rcases h with ⟨entry, rfl, hmounts, -⟩ | ⟨e, rfl, rfl⟩
  · exact ⟨⟨fun _ => ⟨entry, hmounts⟩, fun _ => rfl⟩, fun h => absurd rfl h⟩
  · refine ⟨⟨(fun h => nomatch h), ?_⟩, fun _ => rfl⟩
    rintro ⟨entry, hentry⟩
    exact absurd hentry (ne_append_singleton _ _)

theorem MountFollows.noneFreed {s s' : MountState} {ret : Except Errno Unit}
    (h : MountFollows s ret s') (hs : NoneFreed s) : NoneFreed s' := by
  rcases h with ⟨entry, -, -, hfreed⟩ | ⟨e, -, rfl⟩
  · show s'.freed = []
    rw [hfreed, hs, List.erase_nil]
  · exact hs

theorem tableKept_of_vfsMount {fstypes : List FsType} {fstype : Option Text}
    {attempts : ℕ → Attempt} {mountpath : PathString} {s s' : MountState}
    {ret : Except Errno Unit}
    (h : vfsMount fstypes fstype attempts mountpath.bytes s = .ok (ret, s'))
    (hfollows : ret = .ok () → ∃ entry, s'.mounts = s.mounts ++ [entry]) :
    TableKept s (.vfsMount fstypes fstype attempts mountpath) := by
  unfold vfsMount at h
  cases fstype with
  | none =>
      rcases tryMounts_cases h with ⟨hdecided, -⟩ | ⟨rfl, rfl⟩
      · exact .inr hdecided
      · by_cases hnil : fstypes = []
        · exact .inl hnil
        · obtain ⟨entry, hentry⟩ := hfollows (if_neg hnil)
          exact absurd hentry (ne_append_singleton _ _)
  | some name =>
      dsimp only at h
      split at h
      next hnone => exact .inl hnone
      next => exact .inr (mount_cases h).1

theorem tableKept_of_vfsUmount {room : HeapRoom} {umount : Except Errno Unit}
    {mountpath : PathString} {s s' : MountState} {ret : Except Errno Unit}
    (hs : NoneFreed s)
    (h : vfsUmount room umount mountpath.bytes s = .ok (ret, s'))
    (hfollows : TableFollows s (.vfsUmount room umount mountpath) ret s') :
    TableKept s (.vfsUmount room umount mountpath) := by
  obtain ⟨found, hfind, hrest⟩ := bind_eq_ok h
  refine ⟨found, hfind, ?_⟩
  by_contra hnot
  simp only [not_or, not_forall, not_not] at hnot
  obtain ⟨rfl, entry, rfl⟩ := hnot
  cases hrest
  obtain ⟨taken, htaken, herase⟩ := hfollows rfl
  exact erase_ne_self (findmount_mem hs.live.table htaken) herase

theorem TableKept.vfsMount {fstypes : List FsType} {fstype : Option Text}
    {attempts : ℕ → Attempt} {mountpath : PathString} {s : MountState}
    (h : TableKept s (.vfsMount fstypes fstype attempts mountpath)) :
    ∃ ret s', vfsMount fstypes fstype attempts mountpath.bytes s =
        .ok (ret, s') ∧ MountFollows s ret s' := by
  unfold Vfs.vfsMount
  cases fstype with
  | none =>
      rcases h with rfl | hdecided
      · exact ⟨_, _, rfl, .inr ⟨_, rfl, rfl⟩⟩
      · exact hdecided.tryMounts (.error .enodev) s
  | some name =>
      dsimp only
      split
      next => exact ⟨_, _, rfl, .inr ⟨_, rfl, rfl⟩⟩
      next fstype hfind =>
        have hnormal := h.resolve_left (by rw [hfind]; simp)
        obtain ⟨ret, s', hmount⟩ := mount_returns hnormal s
        exact ⟨ret, s', hmount, mount_follows hmount⟩

/-- No context is taken. -/
theorem TableKept.vfsUmount {room : HeapRoom} {umount : Except Errno Unit}
    {mountpath : PathString} {s : MountState}
    (h : TableKept s (.vfsUmount room umount mountpath)) :
    ∃ e, vfsUmount room umount mountpath.bytes s = .ok (.error e, s) := by
  obtain ⟨found, hfind, hkept⟩ := h
  unfold Vfs.vfsUmount
  rw [hfind, ok_bind]
  cases found with
  | error e => exact ⟨e, rfl⟩
  | ok entry =>
      have hnot := hkept.resolve_right fun h => h entry rfl
      cases umount with
      | error e => exact ⟨e, rfl⟩
      | ok => exact absurd rfl hnot

theorem TableKept.call {s : MountState} {c : MountCall} (hs : NoneFreed s)
    (h : TableKept s c) :
    ∃ ret s', c.call s = .ok (ret, s') ∧ TableFollows s c ret s' ∧
      NoneFreed s' := by
  cases c with
  | vfsMount fstypes fstype attempts mountpath =>
      obtain ⟨ret, s', hcall, hfollows⟩ := h.vfsMount
      exact ⟨ret, s', hcall, hfollows.right, hfollows.noneFreed hs⟩
  | vfsUmount room umount mountpath =>
      obtain ⟨e, hcall⟩ := h.vfsUmount
      exact ⟨_, s, hcall, (fun h => nomatch h), hs⟩

theorem keepsTable_iff {s : MountState} (c : MountCall) (hs : NoneFreed s) :
    KeepsTable s c ↔ TableKept s c := by
  constructor
  · rintro ⟨ret, s', hcall, hfollows, -⟩
    cases c with
    | vfsMount fstypes fstype attempts mountpath =>
        exact tableKept_of_vfsMount hcall hfollows.1.1
    | vfsUmount room umount mountpath =>
        exact tableKept_of_vfsUmount hs hcall hfollows
  · intro hkept
    obtain ⟨ret, s', hcall, hfollows, hs'⟩ := hkept.call hs
    exact ⟨ret, s', hcall, hfollows, hs'.live⟩

theorem mountStep_noneFreed {s s' : MountState} {c : MountCall}
    (hs : NoneFreed s) (hkept : TableKept s c)
    (h : mountStep s c = .ok s') : NoneFreed s' := by
  obtain ⟨ret, next, hcall, -, hnext⟩ := hkept.call hs
  unfold mountStep at h
  rw [hcall] at h
  cases h
  exact hnext

/-- A run keeps the table in every call exactly when every call of it meets
the condition. -/
theorem mountRun_keepsTable_iff (calls : List MountCall) :
    TransitionRun.Admitted KeepsTable mountStep unmounted calls ↔
      TransitionRun.Admitted TableKept mountStep unmounted calls := by
  have hstart : NoneFreed unmounted := rfl
  have hiff : ∀ s c, NoneFreed s → (KeepsTable s c ↔ TableKept s c) :=
    fun _ c hs => keepsTable_iff c hs
  have hstep : ∀ s c s', NoneFreed s → TableKept s c →
      mountStep s c = .ok s' → NoneFreed s' :=
    fun _ _ _ hs hkept hstep => mountStep_noneFreed hs hkept hstep
  exact TransitionRun.admitted_iff hiff hstep hstart calls

/-- The path `/`. -/
def rootPath : PathString where
  bytes := [0x2f]
  noNul := by decide
  mapped := by decide

/-- A mount of the root, and its unmount. -/
def mountAndUmount : List MountCall :=
  [.vfsMount [⟨[0x64]⟩] (some [0x64]) (fun _ => ⟨⟨true, []⟩, .ok 0⟩) rootPath,
    .vfsUmount ⟨true, []⟩ (.ok ()) rootPath]

/-- An unmount leaves its context in the table, freed. -/
theorem unmounted_context_stays :
    ¬TransitionRun.Admitted KeepsTable mountStep unmounted
      mountAndUmount := by
  rintro ⟨-, hrest⟩
  obtain ⟨humount, -⟩ := hrest ⟨[⟨⟨0, []⟩, ⟨[0x64]⟩⟩], []⟩ (by rfl)
  have hcall : MountCall.call (.vfsUmount ⟨true, []⟩ (.ok ()) rootPath)
      ⟨[⟨⟨0, []⟩, ⟨[0x64]⟩⟩], []⟩ =
        .ok (.ok (), ⟨[⟨⟨0, []⟩, ⟨[0x64]⟩⟩], [0]⟩) := by rfl
  obtain ⟨ret, s', hcall', -, hlive⟩ := humount
  cases hcall.symm.trans hcall'
  exact hlive.table _ List.mem_cons_self List.mem_cons_self

end Vfs
end Yjkos
