import Yjkos.VfsPath

/-!
# Selection of a mount

`resolve_path` compares the mount paths with the path as it was given, byte by
byte, and hands out the rest of the normal form.  The reference is the last
of the longest mounts whose names are the first names of the normal form.
-/

namespace Yjkos
namespace Vfs

open SlashPath

/-- A name of a normal form. -/
structure IsName (name : Text) : Prop where
  ne_nil : name ≠ []
  noSlash : slash ∉ name
  noNul : 0 ∉ name
  notDot : name ≠ dot
  notUp : name ≠ dotdot

/-- The mounts, with normal paths and the root among them. -/
structure MountTable where
  mounts : List FsContext
  normal : ∀ entry ∈ mounts, ∃ list, (∀ name ∈ list, IsName name) ∧
    entry.mountPath = spell slash list
  root : ∃ entry ∈ mounts, entry.mountPath = []

/-- A string in memory: the terminator is not part of the list, and no byte
lies at the null pointer. -/
structure PathString where
  bytes : Text
  noNul : 0 ∉ bytes
  mapped : bytes.length + 1 < 4294967296

theorem MountTable.noNul (table : MountTable) {entry : FsContext}
    (hentry : entry ∈ table.mounts) : 0 ∉ entry.mountPath := by
  obtain ⟨list, hlist, hpath⟩ := table.normal entry hentry
  rw [hpath]
  exact nul_notMem_spell (fun name hname => (hlist name hname).noNul)

/-- The size of a mount path. -/
def FsContext.size (entry : FsContext) : ℕ := entry.mountPath.length

theorem selectMount_eq (path : Text) {mounts : List FsContext}
    (hnul : ∀ entry ∈ mounts, 0 ∉ entry.mountPath)
    (result : Option FsContext) :
    selectMount path mounts result (result.elim 0 FsContext.size) =
      (mounts.foldl (prefer (fun entry => entry.mountPath <+: path)
        FsContext.size) result,
      (mounts.foldl (prefer (fun entry => entry.mountPath <+: path)
        FsContext.size) result).elim 0 FsContext.size) := by
  induction mounts generalizing result with
  | nil => rfl
  | cons entry mounts ih =>
      have hrest := ih (fun other hother =>
        hnul other (List.mem_cons_of_mem entry hother))
      have hcmp := kstrncmp_eq_zero path (hnul entry (by simp))
      rw [selectMount, List.foldl_cons, prefer]
      by_cases hlen : result.elim 0 FsContext.size ≤ entry.mountPath.length
      · rw [if_pos hlen]
        by_cases hmatch : entry.mountPath <+: path
        · rw [if_pos (hcmp.2 hmatch), if_pos ⟨hlen, hmatch⟩]
          exact hrest (some entry)
        · rw [if_neg (fun h => hmatch (hcmp.1 h)),
            if_neg (fun h => hmatch h.2)]
          exact hrest result
      · rw [if_neg hlen, if_neg (fun h => hlen h.1)]
        exact hrest result

/-- The mount which `resolve_path` chooses. -/
def chosenMount (table : MountTable) (path : PathString) : Option FsContext :=
  lastLongest (fun entry => entry.mountPath <+: path.bytes) FsContext.size
    table.mounts

/-- The mount which the path lies on. -/
def rightMount (table : MountTable) (path : PathString) : Option FsContext :=
  lastLongest
    (fun entry => Above slash entry.mountPath
      (normal slash dot dotdot path.bytes))
    FsContext.size table.mounts

theorem rightMount_exists (table : MountTable) (path : PathString) :
    ∃ entry, rightMount table path = some entry := by
  obtain ⟨root, hroot, hempty⟩ := table.root
  have habove : Above slash root.mountPath
      (normal slash dot dotdot path.bytes) := by
    rw [hempty, above_iff]
    exact ⟨[], List.nil_prefix, rfl⟩
  obtain ⟨entry, hentry, -⟩ := lastLongest_bound
    (fun entry : FsContext => Above slash entry.mountPath
      (normal slash dot dotdot path.bytes)) FsContext.size hroot habove
  exact ⟨entry, hentry⟩

theorem chosenMount_exists (table : MountTable) (path : PathString) :
    ∃ entry, chosenMount table path = some entry := by
  obtain ⟨root, hroot, hempty⟩ := table.root
  have hstarts : root.mountPath <+: path.bytes := by
    rw [hempty]
    exact List.nil_prefix
  obtain ⟨entry, hentry, -⟩ := lastLongest_bound
    (fun entry : FsContext => entry.mountPath <+: path.bytes) FsContext.size
    hroot hstarts
  exact ⟨entry, hentry⟩

/-- `resolve_path` makes one call, with the mount the path lies on and what the
normal form has behind it. -/
def Resolves (room : HeapRoom) (table : MountTable) (path : PathString) :
    Prop :=
  ∃ entry, rightMount table path = some entry ∧
    resolvePath room table.mounts path.bytes =
      .ok (.ok (), [(entry, (spell slash
        (normal slash dot dotdot path.bytes)).drop entry.mountPath.length)])

/-- The path as it was given starts with the mount it lies on, and with no
longer mount path. -/
def Spelled (table : MountTable) (path : PathString) : Prop :=
  ∀ entry, rightMount table path = some entry →
    entry.mountPath <+: path.bytes ∧
      ∀ other ∈ table.mounts, other.mountPath <+: path.bytes →
        other.mountPath.length ≤ entry.mountPath.length

theorem eq_of_isPrefix {first second text : Text} (h : first <+: text)
    (h' : second <+: text) (hlength : first.length = second.length) :
    first = second :=
  (List.prefix_of_prefix_length_le h h' hlength.le).eq_of_length hlength

theorem chosenMount_eq_right_iff (table : MountTable) (path : PathString) :
    chosenMount table path = rightMount table path ↔ Spelled table path := by
  obtain ⟨entry, hentry⟩ := rightMount_exists table path
  constructor
  · intro heq entry' hentry'
    rw [hentry'] at heq
    unfold chosenMount at heq
    refine ⟨(lastLongest_mem heq).2, fun other hother hstarts => ?_⟩
    have hle : other.size ≤ entry'.size := lastLongest_le heq hother hstarts
    exact hle
  · intro hspelled
    obtain ⟨hstarts, hmax⟩ := hspelled entry hentry
    unfold rightMount at hentry
    obtain ⟨hmem, habove⟩ := lastLongest_mem hentry
    have hchosen := lastLongest_eq_getLast
      (fun other : FsContext => other.mountPath <+: path.bytes)
      FsContext.size hmax ⟨entry, hmem, hstarts, rfl⟩
    have hright := lastLongest_eq_getLast
      (fun other : FsContext => Above slash other.mountPath
        (normal slash dot dotdot path.bytes)) FsContext.size
      (fun other hother => lastLongest_le hentry hother)
      ⟨entry, hmem, habove, rfl⟩
    unfold chosenMount rightMount
    rw [hchosen, hright]
    congr 1
    apply List.filter_congr
    intro other _
    rw [decide_eq_decide]
    constructor
    · rintro ⟨hother, hsize⟩
      rw [eq_of_isPrefix hother hstarts hsize]
      exact ⟨habove, hsize⟩
    · rintro ⟨hother, hsize⟩
      rw [eq_of_isPrefix (hother.isPrefix slash) (habove.isPrefix slash) hsize]
      exact ⟨hstarts, hsize⟩

theorem resolvePath_eq {room : HeapRoom} {table : MountTable}
    {path : PathString} {entry : FsContext} {newpath : Text}
    (hremove : removeRelPath room path.bytes = .ok (.ok newpath))
    (hchosen : chosenMount table path = some entry) :
    resolvePath room table.mounts path.bytes =
      .ok (.ok (), [(entry, textAt (newpath.drop entry.mountPath.length))]) := by
  have hselect := selectMount_eq path.bytes
    (fun entry => @MountTable.noNul table entry) none
  have hfold : table.mounts.foldl (prefer (fun entry : FsContext =>
      entry.mountPath <+: path.bytes) FsContext.size) none = some entry :=
    hchosen
  have hne : (!table.mounts.isEmpty) = true := by
    obtain ⟨root, hroot, -⟩ := table.root
    cases hmounts : table.mounts with
    | nil =>
        rw [hmounts] at hroot
        cases hroot
    | cons entry mounts => rfl
  rw [hfold] at hselect
  unfold resolvePath
  rw [hremove]
  show (cAssert (!table.mounts.isEmpty) _ >>= _) = _
  have hselect' : selectMount path.bytes table.mounts none 0 =
      (some entry, entry.mountPath.length) := hselect
  rw [hne, cAssert_true, ok_bind, hselect']

theorem textAt_append {text : Text} (hnul : 0 ∉ text) (rest : Text) :
    textAt (text ++ 0 :: rest) = text := by
  unfold textAt
  rw [List.takeWhile_append_of_pos]
  · simp
  · intro c hc
    exact decide_eq_true (fun hzero => hnul (hzero ▸ hc))

/-- `resolve_path` does what it is for exactly when the path can be
normalised, and starts as written with the mount it lies on and with no longer
mount path. -/
theorem resolvePath_right_iff (room : HeapRoom) (table : MountTable)
    (path : PathString) :
    Resolves room table path ↔
      Normalisable room path.bytes ∧ Spelled table path := by
  obtain ⟨entry, hentry⟩ := rightMount_exists table path
  obtain ⟨chosen, hchosen⟩ := chosenMount_exists table path
  constructor
  · rintro ⟨entry', hentry', hresolve⟩
    have hnormal : Normalisable room path.bytes := by
      unfold resolvePath at hresolve
      obtain ⟨r, hremove, hrest⟩ := bind_eq_ok hresolve
      cases r with
      | error e => cases hrest
      | ok newpath => exact normalisable_of_ok path.noNul path.mapped hremove
    obtain ⟨-, rest, hremove⟩ := removeRelPath_normal path.noNul hnormal
    rw [resolvePath_eq hremove hchosen] at hresolve
    refine ⟨hnormal, (chosenMount_eq_right_iff table path).1 ?_⟩
    simp only [Except.ok.injEq, Prod.mk.injEq, List.cons.injEq] at hresolve
    rw [hchosen, hentry', hresolve.2.1.1]
  · rintro ⟨hnormal, hspelled⟩
    obtain ⟨hnul, rest, hremove⟩ := removeRelPath_normal path.noNul hnormal
    have hright := (chosenMount_eq_right_iff table path).2 hspelled
    have habove := (lastLongest_mem (rightMount.eq_def table path ▸ hentry)).2
    have hlength := (habove.isPrefix slash).length_le
    refine ⟨entry, hentry, ?_⟩
    rw [resolvePath_eq hremove (hright.trans hentry),
      List.drop_append_of_le_length hlength,
      textAt_append (fun hmem => hnul (List.mem_of_mem_drop hmem))]

theorem resolvePath_spellings {room room' : HeapRoom} {table : MountTable}
    {path path' : PathString} (h : Resolves room table path)
    (h' : Resolves room' table path')
    (heq : normal slash dot dotdot path.bytes =
      normal slash dot dotdot path'.bytes) :
    resolvePath room table.mounts path.bytes =
      resolvePath room' table.mounts path'.bytes := by
  obtain ⟨entry, hentry, hresolve⟩ := h
  obtain ⟨entry', hentry', hresolve'⟩ := h'
  unfold rightMount at hentry hentry'
  rw [heq, hentry'] at hentry
  cases hentry
  rw [hresolve, hresolve', heq]

/-- The root and a mount at `/mnt`. -/
def rootAndMnt : MountTable where
  mounts := [⟨0, []⟩, ⟨1, [0x2f, 0x6d, 0x6e, 0x74]⟩]
  normal := by
    intro entry hentry
    simp only [List.mem_cons, List.not_mem_nil, or_false] at hentry
    rcases hentry with rfl | rfl
    · exact ⟨[], fun _ h => absurd h List.not_mem_nil, rfl⟩
    · refine ⟨[[0x6d, 0x6e, 0x74]], ?_, rfl⟩
      intro name hname
      rw [List.mem_singleton.1 hname]
      exact ⟨by decide, by decide, by decide, by decide, by decide⟩
  root := ⟨⟨0, []⟩, by simp, rfl⟩

/-- The path `/mntx/a`. -/
def mntxPath : PathString where
  bytes := [0x2f, 0x6d, 0x6e, 0x74, 0x78, 0x2f, 0x61]
  noNul := by decide
  mapped := by decide

/-- A path which only shares its first letters with a mount is sent there. -/
theorem sibling_of_mount_misrouted :
    ¬Resolves ⟨true, []⟩ rootAndMnt mntxPath := by
  rintro ⟨entry, hentry, hresolve⟩
  have hcall : resolvePath ⟨true, []⟩ rootAndMnt.mounts mntxPath.bytes =
      .ok (.ok (), [(⟨1, [0x2f, 0x6d, 0x6e, 0x74]⟩, [0x78, 0x2f, 0x61])]) := by
    decide +kernel
  have hright : rightMount rootAndMnt mntxPath = some ⟨0, []⟩ := by
    decide +kernel
  rw [hright] at hentry
  cases hentry
  rw [hcall] at hresolve
  cases hresolve

end Vfs
end Yjkos
