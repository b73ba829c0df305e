import Yjkos.Ls
import Yjkos.VfsHeap

/-!
# The heap blocks of ls

`collect_entries` of `program_ls.c` keeps an array of the names it has copied,
which it makes longer with every entry.  When there is no memory it frees what
it has and hands the same array to `show_dir`, which frees it again.
-/

namespace Yjkos
namespace Ls

open OwnedTrace
open VfsHeap (Heaped heapFree)
open Printf (Byte)

section Heap

-- The pointer for each request, null when there is no memory.
variable (heap : ℕ → ℕ)

def heapAlloc (request : ℕ) : Heaped ℕ :=
  if heap request = 0 then pure 0
  else Traced.touch (.alloc (heap request)) (.ok (heap request))

def heapRealloc (request ptr : ℕ) : Heaped ℕ :=
  if ptr = 0 then heapAlloc heap request
  else do
    let newmem ← heapAlloc heap request
    if newmem = 0 then pure 0
    else do
      heapFree ptr
      pure newmem

def heapReallocArray (request ptr newsize newelements : ℕ) : Heaped ℕ :=
  if sizeMax / newsize < newelements then pure 0
  else heapRealloc heap request ptr

def strdup (request : ℕ) (s : List Byte) : Heaped ℕ :=
  if wrap (s.length + 1) = 0 then pure 0 else heapAlloc heap request

/-- The loop which frees the names. -/
def freeNames : List ℕ → Heaped Unit
  | [] => pure ()
  | name :: names => do
      heapFree name
      freeNames names

/-- What `collect_entries` hands to its caller: whether it has failed, the
array, and the pointers which stand in the array. -/
structure Collected where
  failed : Bool
  entries : ℕ
  names : List ℕ

-- The pointers which are read from an array after it has been freed.
variable (stale : ℕ → ℕ)

/-- Behind the label `oom`. -/
def outOfMemory (entries : ℕ) (names : List ℕ) : Heaped Collected := do
  freeNames names
  heapFree entries
  pure ⟨true, entries, (List.range names.length).map stale⟩

/-- The loop of `collect_entries` over the entries which are read before the
end or an error; each entry makes two requests. -/
def collectLoop (opts : Opts) :
    List (List Byte) → ℕ → List ℕ → Heaped Collected
  | [], entries, names => pure ⟨false, entries, names⟩
  | dName :: dirents, entries, names =>
      if shouldHideDirent dName opts then
        collectLoop opts dirents entries names
      else if sizeMax - 1 < names.length then outOfMemory stale entries names
      else do
        let newEntries ← heapReallocArray heap (2 * names.length) entries 4
          (names.length + 1)
        if newEntries = 0 then outOfMemory stale entries names
        else do
          let name ← strdup heap (2 * names.length + 1) dName
          if name = 0 then outOfMemory stale newEntries (names ++ [name])
          else collectLoop opts dirents newEntries (names ++ [name])

/-- The directory is none when it cannot be opened. -/
def collectEntries (opts : Opts) (directory : Option (List (List Byte))) :
    Heaped Collected :=
  match directory with
  | none => pure ⟨true, 0, []⟩
  | some dirents => collectLoop heap stale opts dirents 0 []

/-- `show_dir`, without what it prints. -/
def showDir (opts : Opts) (directory : Option (List (List Byte))) :
    Heaped Unit := do
  let collected ← collectEntries heap stale opts directory
  freeNames collected.names
  heapFree collected.entries

end Heap

/-! ## What is freed -/

theorem heaped_pure_bind {α β : Type} (a : α) (f : α → Heaped β) :
    (pure a >>= f) = f a := rfl

/-- The blocks of an array of names, without the null pointers. -/
def blocks (entries : ℕ) (names : List ℕ) : List ℕ :=
  (names ++ [entries]).filter (· ≠ 0)

theorem heapFree_eq (ptr : ℕ) :
    heapFree ptr = ⟨([ptr].filter (· ≠ 0)).map .free, .ok ()⟩ := by
  unfold heapFree
  by_cases hnull : ptr = 0
  · rw [if_pos hnull, hnull]
    rfl
  · rw [if_neg hnull, List.filter_singleton]
    simp [hnull, Traced.touch]

theorem freeNames_eq (names : List ℕ) :
    freeNames names = ⟨(names.filter (· ≠ 0)).map .free, .ok ()⟩ := by
  induction names with
  | nil => rfl
  | cons name names ih =>
      rw [freeNames, heapFree_eq, ih, Traced.bind_of_ok rfl]
      dsimp only
      rw [← List.map_append, ← List.filter_append, List.singleton_append]

/-- Both places which free an array free its blocks. -/
theorem freeNames_heapFree {α : Type} (names : List ℕ) (entries : ℕ)
    (next : Heaped α) :
    (freeNames names >>= fun _ => heapFree entries >>= fun _ => next) =
      ⟨(blocks entries names).map .free ++ next.touched, next.result⟩ := by
  rw [freeNames_eq, heapFree_eq, Traced.bind_of_ok rfl, Traced.bind_of_ok rfl]
  dsimp only
  rw [blocks, List.filter_append, List.map_append, List.append_assoc]

section Ownership

variable {heap : ℕ → ℕ} {stale : ℕ → ℕ}

theorem outOfMemory_eq (stale : ℕ → ℕ) (entries : ℕ) (names : List ℕ) :
    outOfMemory stale entries names =
      ⟨(blocks entries names).map .free,
        .ok ⟨true, entries, (List.range names.length).map stale⟩⟩ := by
  unfold outOfMemory
  rw [freeNames_heapFree]
  simp [pure]

/-- The request for the longer array and the one for the copy of the name are
both answered. -/
def Answered (heap : ℕ → ℕ) (i : ℕ) (dName : List Byte) : Prop :=
  i ≤ sizeMax - 1 ∧ i + 1 ≤ sizeMax / 4 ∧ heap (2 * i) ≠ 0 ∧
    wrap (dName.length + 1) ≠ 0 ∧ heap (2 * i + 1) ≠ 0

def AllAnswered (heap : ℕ → ℕ) : ℕ → List (List Byte) → Prop
  | _, [] => True
  | i, dName :: dNames =>
      Answered heap i dName ∧ AllAnswered heap (i + 1) dNames

/-- The array is there as soon as it has an entry, and the blocks are owned. -/
structure Holds (owned : List ℕ) (entries : ℕ) (names : List ℕ) : Prop where
  owned : owned.Perm (blocks entries names)
  array : names ≠ [] → entries ≠ 0

theorem blocks_null : blocks 0 [] = [] := rfl

theorem blocks_eq {entries : ℕ} (hentries : entries ≠ 0) (names : List ℕ) :
    blocks entries names = names.filter (· ≠ 0) ++ [entries] := by
  unfold blocks
  rw [List.filter_append]
  simp [hentries]

theorem Holds.null {owned : List ℕ} {names : List ℕ}
    (hholds : Holds owned 0 names) : names = [] ∧ owned = [] := by
  have hnames : names = [] := by
    by_contra hne
    exact hholds.array hne rfl
  have howned := hholds.owned
  rw [hnames, blocks_null] at howned
  exact ⟨hnames, List.perm_nil.1 howned⟩

/-- The array is handed over, with its blocks. -/
def Succeeds (owned : List ℕ) (x : Heaped Collected) : Prop :=
  ∃ entries names, x.result = .ok ⟨false, entries, names⟩ ∧
    FreesOwned owned x.touched ∧
    Holds (ownedAfter owned x.touched) entries names

/-- The array is handed over although its blocks have been freed. -/
def Fails (owned : List ℕ) (x : Heaped Collected) : Prop :=
  ∃ entries names, x.result = .ok ⟨true, entries, names⟩ ∧
    FreesOwned owned x.touched ∧ ownedAfter owned x.touched = [] ∧
    entries ≠ 0

theorem Holds.freed {owned : List ℕ} {entries : ℕ} {names : List ℕ}
    (hholds : Holds owned entries names) (hentries : entries ≠ 0)
    (stale : ℕ → ℕ) :
    Fails owned (outOfMemory stale entries names) := by
  have hperm : owned.Perm (blocks entries names ++ []) := by
    rw [List.append_nil]
    exact hholds.owned
  have hfree := frees_perm hperm
  rw [outOfMemory_eq]
  exact ⟨entries, _, rfl, hfree.1, List.perm_nil.1 hfree.2, hentries⟩

theorem outOfMemory_null (stale : ℕ → ℕ) :
    outOfMemory stale 0 [] = ⟨[], .ok ⟨true, 0, []⟩⟩ :=
  outOfMemory_eq stale 0 []

/-! ## One entry -/

theorem heapReallocArray_eq (heap : ℕ → ℕ) (request entries len : ℕ) :
    heapReallocArray heap request entries 4 len =
      if sizeMax / 4 < len ∨ heap request = 0 then pure 0
      else ⟨.alloc (heap request) :: ([entries].filter (· ≠ 0)).map .free,
        .ok (heap request)⟩ := by
  unfold heapReallocArray heapRealloc heapAlloc
  by_cases hlen : sizeMax / 4 < len
  · rw [if_pos hlen, if_pos (Or.inl hlen)]
  · by_cases hnull : heap request = 0
    · rw [if_neg hlen, if_pos (Or.inr hnull)]
      by_cases hentries : entries = 0
      · rw [if_pos hentries, if_pos hnull]
      · rw [if_neg hentries, if_pos hnull]
        rfl
    · have hboth : ¬(sizeMax / 4 < len ∨ heap request = 0) :=
        not_or.2 ⟨hlen, hnull⟩
      rw [if_neg hlen, if_neg hboth, if_neg hnull]
      by_cases hentries : entries = 0
      · rw [if_pos hentries, hentries]
        rfl
      · rw [if_neg hentries, heapFree_eq, Traced.bind_of_ok rfl, if_neg hnull,
          Traced.bind_of_ok rfl]
        simp [Traced.touch]

theorem strdup_eq (heap : ℕ → ℕ) (request : ℕ) (s : List Byte) :
    strdup heap request s =
      if wrap (s.length + 1) = 0 ∨ heap request = 0 then pure 0
      else ⟨[.alloc (heap request)], .ok (heap request)⟩ := by
  unfold strdup heapAlloc
  by_cases hsize : wrap (s.length + 1) = 0
  · rw [if_pos hsize, if_pos (Or.inl hsize)]
  · by_cases hnull : heap request = 0
    · rw [if_neg hsize, if_pos hnull, if_pos (Or.inr hnull)]
    · rw [if_neg hsize, if_neg hnull, if_neg (not_or.2 ⟨hsize, hnull⟩)]
      rfl

/-- The longer array takes the place of the old one. -/
theorem Holds.realloc {owned : List ℕ} {entries : ℕ} {names : List ℕ}
    (hholds : Holds owned entries names) {new : ℕ} (hnew : new ≠ 0) :
    FreesOwned owned
      (.alloc new :: ([entries].filter (· ≠ 0)).map .free) ∧
    (ownedAfter owned
      (.alloc new :: ([entries].filter (· ≠ 0)).map .free)).Perm
        (blocks new names) := by
  have hperm : (new :: owned).Perm
      ([entries].filter (· ≠ 0) ++ blocks new names) := by
    have howned := (hholds.owned.cons new)
    unfold blocks at howned ⊢
    rw [List.filter_append] at howned ⊢
    have hsingle : [new].filter (· ≠ 0) = [new] := by simp [hnew]
    rw [hsingle]
    apply howned.trans
    rw [← List.append_assoc]
    exact (List.perm_append_singleton new _).symm.trans
      (List.Perm.append_right [new] List.perm_append_comm)
  exact frees_perm hperm

theorem Succeeds.behind {owned : List ℕ} {front : List (Event ℕ)}
    {x : Heaped Collected} (hfront : FreesOwned owned front)
    (hx : Succeeds (ownedAfter owned front) x) :
    Succeeds owned ⟨front ++ x.touched, x.result⟩ := by
  obtain ⟨entries, names, hresult, hfrees, hholds⟩ := hx
  refine ⟨entries, names, hresult, ?_, ?_⟩
  · exact (freesOwned_append owned front x.touched).2 ⟨hfront, hfrees⟩
  · dsimp only
    rwa [ownedAfter_append]

theorem Fails.behind {owned : List ℕ} {front : List (Event ℕ)}
    {x : Heaped Collected} (hfront : FreesOwned owned front)
    (hx : Fails (ownedAfter owned front) x) :
    Fails owned ⟨front ++ x.touched, x.result⟩ := by
  obtain ⟨entries, names, hresult, hfrees, hleft, hentries⟩ := hx
  refine ⟨entries, names, hresult, ?_, ?_, hentries⟩
  · exact (freesOwned_append owned front x.touched).2 ⟨hfront, hfrees⟩
  · dsimp only
    rwa [ownedAfter_append]

/-! ## The collection -/

/-- Nothing happens when there is no memory for the first array. -/
def NoMemory (heap : ℕ → ℕ) (entries : ℕ) : Prop := entries = 0 ∧ heap 0 = 0

/-- How the collection goes on, by whether the requests are answered. -/
structure Collects (heap : ℕ → ℕ) (owned : List ℕ) (entries : ℕ)
    (answered : Prop) (x : Heaped Collected) : Prop where
  succeeds : answered → Succeeds owned x
  fails : ¬answered → ¬NoMemory heap entries → Fails owned x
  empty : ¬answered → NoMemory heap entries →
    x = ⟨[], .ok ⟨true, 0, []⟩⟩

/-- There is no longer array. -/
theorem Holds.noArray {owned : List ℕ} {entries : ℕ} {names : List ℕ}
    (hholds : Holds owned entries names) (stale : ℕ → ℕ) {answered : Prop}
    (hnot : ¬answered) (hnull : names = [] → heap 0 = 0) :
    Collects heap owned entries answered
      (outOfMemory stale entries names) where
  succeeds := fun h => absurd h hnot
  fails := by
    intro _ hmemory
    apply hholds.freed
    intro hentries
    subst hentries
    exact hmemory ⟨rfl, hnull hholds.null.1⟩
  empty := by
    rintro - ⟨hentries, -⟩
    subst hentries
    rw [hholds.null.1]
    exact outOfMemory_null stale

/-- The copy of a name joins the array; the null pointer stands there when
there is no copy. -/
theorem Holds.copied {owned : List ℕ} {entries : ℕ} {names : List ℕ}
    (hperm : owned.Perm (blocks entries names)) (hentries : entries ≠ 0)
    (name : ℕ) :
    Holds (ownedAfter owned (([name].filter (· ≠ 0)).map .alloc)) entries
      (names ++ [name]) := by
  refine ⟨?_, fun _ => hentries⟩
  rw [blocks_eq hentries] at hperm ⊢
  rw [List.filter_append]
  by_cases hname : name = 0
  · subst hname
    simpa [ownedAfter] using hperm
  · have hsingle : [name].filter (· ≠ 0) = [name] := by simp [hname]
    rw [hsingle, List.append_assoc]
    exact (hperm.cons name).trans List.perm_middle.symm

theorem freesOwned_alloc (owned : List ℕ) (blocks : List ℕ) :
    FreesOwned owned (blocks.map .alloc) := by
  induction blocks generalizing owned with
  | nil => trivial
  | cons block blocks ih => exact ih (block :: owned)

theorem collectLoop_collects {opts : Opts} {dirents : List (List Byte)}
    {owned : List ℕ} {entries : ℕ} {names : List ℕ}
    (hholds : Holds owned entries names) :
    Collects heap owned entries
      (AllAnswered heap names.length
        (dirents.filter fun d => !shouldHideDirent d opts))
      (collectLoop heap stale opts dirents entries names) := by
  induction dirents generalizing owned entries names with
  | nil =>
      constructor
      · exact fun _ => ⟨entries, names, rfl, trivial, hholds⟩
      · exact fun h => absurd trivial h
      · exact fun h => absurd trivial h
  | cons dName dirents ih =>
      by_cases hhide : shouldHideDirent dName opts = true
      · rw [collectLoop, if_pos hhide, List.filter_cons_of_neg (by simp [hhide])]
        exact ih hholds
      · rw [collectLoop, if_neg hhide, List.filter_cons_of_pos (by simp [hhide]),
          AllAnswered, heapReallocArray_eq]
        by_cases hmany : sizeMax - 1 < names.length
        · rw [if_pos hmany]
          apply hholds.noArray stale
          · exact fun h => absurd h.1.1 (Nat.not_le_of_lt hmany)
          · rintro rfl
            exact absurd hmany (Nat.not_lt_zero _)
        · rw [if_neg hmany]
          by_cases hrealloc : sizeMax / 4 < names.length + 1 ∨
              heap (2 * names.length) = 0
          · rw [if_pos hrealloc, heaped_pure_bind, if_pos rfl]
            apply hholds.noArray stale
            · rintro ⟨⟨-, hlen, hanswer, -⟩, -⟩
              exact hrealloc.elim (Nat.not_lt_of_le hlen) hanswer
            · rintro rfl
              exact hrealloc.resolve_left (by decide)
          · rw [if_neg hrealloc]
            obtain ⟨hlen, hanswer⟩ := not_or.1 hrealloc
            obtain ⟨hfrees, hperm⟩ := hholds.realloc hanswer
            have hmemory : ¬NoMemory heap entries := by
              rintro ⟨hentries, hnull⟩
              subst hentries
              rw [hholds.null.1] at hanswer
              exact hanswer hnull
            rw [Traced.bind_of_ok rfl, if_neg hanswer, strdup_eq]
            by_cases hdup : wrap (dName.length + 1) = 0 ∨
                heap (2 * names.length + 1) = 0
            · have hcopied := Holds.copied hperm hanswer 0
              rw [if_pos hdup, heaped_pure_bind, if_pos rfl]
              constructor
              · rintro ⟨⟨-, -, -, hsize, hname⟩, -⟩
                exact absurd hdup (not_or.2 ⟨hsize, hname⟩)
              · intro _ _
                exact (hcopied.freed hanswer stale).behind hfrees
              · exact fun _ h => absurd h hmemory
            · obtain ⟨hsize, hname⟩ := not_or.1 hdup
              have hsingle : [heap (2 * names.length + 1)].filter (· ≠ 0) =
                  [heap (2 * names.length + 1)] := by simp [hname]
              have hcopied := Holds.copied hperm hanswer
                (heap (2 * names.length + 1))
              have halloc := freesOwned_alloc (ownedAfter owned
                (.alloc (heap (2 * names.length)) ::
                  ([entries].filter (· ≠ 0)).map .free))
                [heap (2 * names.length + 1)]
              have hnext := ih hcopied
              rw [hsingle] at hnext
              rw [List.length_append, List.length_singleton] at hnext
              rw [if_neg hdup, Traced.bind_of_ok rfl, if_neg hname]
              constructor
              · rintro ⟨-, hrest⟩
                exact ((hnext.succeeds hrest).behind halloc).behind hfrees
              · intro hnot _
                refine ((hnext.fails (fun hrest => hnot ⟨?_, hrest⟩)
                  fun h => hanswer h.1).behind halloc).behind hfrees
                exact ⟨Nat.le_of_not_lt hmany, Nat.le_of_not_lt hlen, hanswer,
                  hsize, hname⟩
              · exact fun _ h => absurd h hmemory

/-! ## The end of show_dir -/

theorem cleanup_eq (names : List ℕ) (entries : ℕ) :
    (freeNames names >>= fun _ => heapFree entries) =
      ⟨(blocks entries names).map .free, .ok ()⟩ := by
  rw [freeNames_eq, heapFree_eq, Traced.bind_of_ok rfl]
  dsimp only
  rw [blocks, List.filter_append, List.map_append]

theorem showDir_touched {opts : Opts} {directory : Option (List (List Byte))}
    {c : Collected}
    (hresult : (collectEntries heap stale opts directory).result = .ok c) :
    (showDir heap stale opts directory).touched =
      (collectEntries heap stale opts directory).touched ++
        (blocks c.entries c.names).map .free := by
  unfold showDir
  rw [Traced.bind_of_ok hresult, cleanup_eq]

theorem Succeeds.showDir {opts : Opts} {directory : Option (List (List Byte))}
    (h : Succeeds [] (collectEntries heap stale opts directory)) :
    FreesOwned [] (showDir heap stale opts directory).touched ∧
      ownedAfter [] (showDir heap stale opts directory).touched = [] := by
  obtain ⟨entries, names, hresult, hfrees, hholds⟩ := h
  have hperm := hholds.owned
  rw [← List.append_nil (blocks entries names)] at hperm
  have hfree := frees_perm hperm
  rw [showDir_touched hresult, freesOwned_append, ownedAfter_append]
  exact ⟨⟨hfrees, hfree.1⟩, List.perm_nil.1 hfree.2⟩

theorem Fails.showDir {opts : Opts} {directory : Option (List (List Byte))}
    (h : Fails [] (collectEntries heap stale opts directory)) :
    ¬FreesOwned [] (showDir heap stale opts directory).touched := by
  obtain ⟨entries, names, hresult, -, hleft, hentries⟩ := h
  rw [showDir_touched hresult, freesOwned_append, hleft]
  rintro ⟨-, hfree⟩
  apply not_frees_nil _ hfree
  rw [blocks_eq hentries]
  exact List.append_ne_nil_of_right_ne_nil _ (List.cons_ne_nil entries [])

theorem showDir_empty {opts : Opts} {directory : Option (List (List Byte))}
    (h : collectEntries heap stale opts directory = ⟨[], .ok ⟨true, 0, []⟩⟩) :
    (showDir heap stale opts directory).touched = [] := by
  have hresult : (collectEntries heap stale opts directory).result =
      .ok ⟨true, 0, []⟩ := by rw [h]
  rw [showDir_touched hresult, h]
  rfl

end Ownership

/-- `show_dir` gives every block back once when each request is answered, and
also when there is no memory for the first one.  A failure anywhere else makes
it free a block which it does not own any more. -/
theorem showDir_frees (heap stale : ℕ → ℕ) (opts : Opts)
    (directory : Option (List (List Byte))) :
    (FreesOwned [] (showDir heap stale opts directory).touched ↔
      ∀ dirents, directory = some dirents →
        heap 0 = 0 ∨ AllAnswered heap 0
          (dirents.filter fun d => !shouldHideDirent d opts)) ∧
    (FreesOwned [] (showDir heap stale opts directory).touched →
      ownedAfter [] (showDir heap stale opts directory).touched = []) := by
  cases directory with
  | none =>
      have htouched : (showDir heap stale opts none).touched = [] :=
        showDir_empty rfl
      rw [htouched]
      refine ⟨⟨fun _ _ h => ?_, fun _ => trivial⟩, fun _ => rfl⟩
      cases h
  | some dirents =>
      have hholds : Holds [] 0 [] := ⟨List.Perm.nil, fun h => absurd rfl h⟩
      have hcollects : Collects heap [] 0
          (AllAnswered heap 0
            (dirents.filter fun d => !shouldHideDirent d opts))
          (collectEntries heap stale opts (some dirents)) :=
        collectLoop_collects hholds
      by_cases hall : AllAnswered heap 0
          (dirents.filter fun d => !shouldHideDirent d opts)
      · obtain ⟨hfrees, hleft⟩ := (hcollects.succeeds hall).showDir
        refine ⟨⟨fun _ d hd => ?_, fun _ => hfrees⟩, fun _ => hleft⟩
        cases hd
        exact Or.inr hall
      · by_cases hnull : heap 0 = 0
        · rw [showDir_empty (hcollects.empty hall ⟨rfl, hnull⟩)]
          exact ⟨⟨fun _ _ _ => Or.inl hnull, fun _ => trivial⟩, fun _ => rfl⟩
        · have hnot := (hcollects.fails hall fun h => hnull h.2).showDir
          refine ⟨⟨fun h => absurd h hnot, fun h => ?_⟩,
            fun h => absurd h hnot⟩
          exact absurd (h dirents rfl) (not_or.2 ⟨hnull, hall⟩)

end Ls
end Yjkos
