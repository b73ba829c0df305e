import Yjkos.ShellCmd

/-!
# The argument vector of a shell command

The array of a command and its strings are blocks of their own, none of which
was live before.  Putting a word into the vector, reading it and freeing it
are described for such a vector.
-/

namespace Yjkos
namespace ShellCmd

open Vfs (Text)

/-- The blocks of a vector on top of the heap which was there before.  Behind
the strings the array may have room for more. -/
structure Holds (before heap : Heap) (argv : ℕ) (ptrs room : List ℕ)
    (args : List Text) : Prop where
  array : heap argv = some (.pointers (ptrs ++ room))
  strings : ptrs.map heap = args.map fun word => some (.text (word ++ [0]))
  nodup : (argv :: ptrs).Nodup
  fresh : ∀ ptr ∈ argv :: ptrs, ptr ≠ 0 ∧ before ptr = none
  other : ∀ ptr, ptr ∉ argv :: ptrs → heap ptr = before ptr

/-- A vector without strings has no array yet. -/
inductive Built (before : Heap) : Heap → ℕ → List ℕ → List Text → Prop
  | nothing : Built before before 0 [] []
  | vector {heap : Heap} {argv : ℕ} {ptrs : List ℕ} {args : List Text}
      (h : Holds before heap argv ptrs [] args) :
      Built before heap argv ptrs args

namespace Heap

variable {heap : Heap} {ptr other : ℕ} {block block' : Option Block}

@[simp]
theorem update_self : heap.update ptr block ptr = block :=
  Function.update_self ..

theorem update_of_ne (h : other ≠ ptr) :
    heap.update ptr block other = heap other :=
  Function.update_of_ne h ..

theorem update_idem :
    (heap.update ptr block).update ptr block' = heap.update ptr block' :=
  Heap.ext (Function.update_idem ..)

theorem update_comm (h : ptr ≠ other) :
    (heap.update ptr block).update other block' =
      (heap.update other block').update ptr block :=
  Heap.ext (Function.update_comm h ..)

end Heap

variable {allocator : Allocator} {before heap : Heap} {argv ptr : ℕ}
  {ptrs room : List ℕ} {args : List Text}

theorem heapAlloc_fresh (allocator : Allocator) (heap : Heap) {size : ℕ}
    (hsize : size ≠ 0) (fill : ℕ → Block) :
    ∃ new, new ≠ 0 ∧ heap new = none ∧
      heapAlloc allocator heap size fill =
        (new, Heap.update heap new (some (fill size))) :=
  ⟨_, allocator.pick_ne_zero heap size, allocator.pick_free heap size,
    if_neg hsize⟩

namespace Holds

theorem live (h : Holds before heap argv ptrs room args)
    (hptr : ptr ∈ argv :: ptrs) : heap ptr ≠ none := by
  rcases List.mem_cons.1 hptr with rfl | hptr
  · rw [h.array]
    exact Option.some_ne_none _
  · have hmem := List.mem_map_of_mem (f := heap) hptr
    rw [h.strings] at hmem
    obtain ⟨word, -, hword⟩ := List.mem_map.1 hmem
    rw [← hword]
    exact Option.some_ne_none _

theorem length_eq (h : Holds before heap argv ptrs room args) :
    ptrs.length = args.length := by
  have hlength := congrArg List.length h.strings
  rwa [List.length_map, List.length_map] at hlength

theorem notin_of_free (h : Holds before heap argv ptrs room args)
    (hfree : heap ptr = none) : ptr ∉ argv :: ptrs :=
  fun hmem => h.live hmem hfree

end Holds

theorem wrap_arraySize {count : ℕ} (hcount : count + 1 < 1073741824) :
    wrap ((count + 1) * 4) = (count + 1) * 4 :=
  wrap_of_lt (by omega)

theorem freshPointers_arraySize (count : ℕ) :
    freshPointers ((count + 1) * 4) =
      .pointers (List.replicate (count + 1) 0x90909090) := by
  rw [freshPointers, Nat.mul_div_cancel _ (by decide)]

theorem heapRealloc_nothing (allocator : Allocator) (before : Heap) :
    ∃ argv heap, heapRealloc allocator before 0 (wrap ((0 + 1) * 4)) =
        .ok (argv, heap) ∧ Holds before heap argv [] [0x90909090] [] := by
  have hfree := allocator.pick_free before 4
  refine ⟨_, _, rfl, ?_, rfl, List.nodup_singleton _, ?_, ?_⟩
  · exact Heap.update_self
  · intro ptr hptr
    rw [List.mem_singleton.1 hptr]
    exact ⟨allocator.pick_ne_zero _ _, hfree⟩
  · intro ptr hptr
    exact Heap.update_of_ne (List.ne_of_not_mem_cons hptr)

theorem heapRealloc_vector (allocator : Allocator)
    (h : Holds before heap argv ptrs [] args)
    (hcount : ptrs.length + 1 < 1073741824) :
    ∃ argv' heap', heapRealloc allocator heap argv
        (wrap ((ptrs.length + 1) * 4)) = .ok (argv', heap') ∧
      Holds before heap' argv' ptrs [0x90909090] args := by
  obtain ⟨new, hnew0, hfree, halloc⟩ := heapAlloc_fresh allocator heap
    (Nat.mul_ne_zero ptrs.length.succ_ne_zero four_ne_zero) freshPointers
  have hnew := h.notin_of_free hfree
  have hargv : argv ≠ new := (List.ne_of_not_mem_cons hnew).symm
  have hnotin : argv ∉ ptrs := (List.nodup_cons.1 h.nodup).1
  have hzero : argv ≠ 0 := (h.fresh argv List.mem_cons_self).1
  have hlive : heap argv = some (.pointers ptrs) := by
    rw [h.array, List.append_nil]
  have hcopied : ptrs.take (ptrs.length + 1) = ptrs :=
    List.take_of_length_le (Nat.le_succ _)
  have hrest : (List.replicate (ptrs.length + 1) 0x90909090).drop
      ptrs.length = [0x90909090] := by
    rw [List.drop_replicate, Nat.add_sub_cancel_left]
    rfl
  have hrealloc : heapRealloc allocator heap argv
      (wrap ((ptrs.length + 1) * 4)) = .ok (new, Heap.update
        (Heap.update heap new (some (.pointers (ptrs ++ [0x90909090]))))
        argv none) := by
    rw [wrap_arraySize hcount, heapRealloc, if_neg hzero]
    simp only [readPointers, hlive, ok_bind, halloc, if_neg hnew0,
      freshPointers_arraySize, Heap.update_self, List.length_replicate,
      hcopied, hrest, Heap.update_idem, heapFree, if_neg hzero,
      Heap.update_of_ne hargv]
  have hsame : ∀ ptr ∈ ptrs, Heap.update (Heap.update heap new
      (some (.pointers (ptrs ++ [0x90909090])))) argv none ptr = heap ptr := by
    intro ptr hptr
    have hne : ptr ≠ argv := ne_of_mem_of_not_mem hptr hnotin
    have hne' : ptr ≠ new := by
      rintro rfl
      exact hnew (List.mem_cons_of_mem _ hptr)
    rw [Heap.update_of_ne hne, Heap.update_of_ne hne']
  refine ⟨_, _, hrealloc, ?_, ?_, ?_, ?_, ?_⟩
  · rw [Heap.update_of_ne hargv.symm, Heap.update_self]
  · rw [← h.strings]
    exact List.map_congr_left hsame
  · refine List.nodup_cons.2 ⟨fun hmem => hnew (List.mem_cons_of_mem _ hmem),
      (List.nodup_cons.1 h.nodup).2⟩
  · intro ptr hptr
    rcases List.mem_cons.1 hptr with rfl | hptr
    · exact ⟨hnew0, (h.other ptr hnew).symm.trans hfree⟩
    · exact h.fresh ptr (List.mem_cons_of_mem _ hptr)
  · intro ptr hptr
    rw [List.mem_cons, not_or] at hptr
    by_cases hne : ptr = argv
    · rw [hne, Heap.update_self]
      exact (h.fresh argv List.mem_cons_self).2.symm
    · rw [Heap.update_of_ne hne, Heap.update_of_ne hptr.1]
      exact h.other ptr (by simp [hne, hptr.2])

section Strings

variable {word : Text}

theorem writeText_eq {old : Text} (hlive : heap ptr = some (.text old))
    (i : ℕ) (bytes : Text) (hfits : i + bytes.length ≤ old.length) :
    writeText heap ptr i bytes = .ok (Heap.update heap ptr (some (.text
      (old.take i ++ bytes ++ old.drop (i + bytes.length))))) := by
  simp only [writeText, readText, hlive, ok_bind, if_pos hfits]

theorem writePointer_last {old : ℕ}
    (harray : heap argv = some (.pointers (ptrs ++ [old]))) (value : ℕ) :
    writePointer heap argv ptrs.length value =
      .ok (Heap.update heap argv (some (.pointers (ptrs ++ [value])))) := by
  have hlt : ptrs.length < (ptrs ++ [old]).length := by simp
  simp only [writePointer, readPointers, harray, ok_bind, if_pos hlt,
    List.set_append_right _ _ le_rfl, Nat.sub_self, List.set_cons_zero]

theorem Holds.push (h : Holds before heap argv ptrs [0x90909090] args)
    (hfree : heap ptr = none) (hptr : ptr ≠ 0) (word : Text) :
    Holds before (Heap.update (Heap.update heap argv
      (some (.pointers (ptrs ++ [ptr])))) ptr (some (.text (word ++ [0]))))
      argv (ptrs ++ [ptr]) [] (args ++ [word]) := by
  have hnotin := h.notin_of_free hfree
  have hargv : argv ≠ ptr := (List.ne_of_not_mem_cons hnotin).symm
  have hold : ptr ∉ ptrs := fun hmem => hnotin (List.mem_cons_of_mem _ hmem)
  obtain ⟨hself, hnodup⟩ := List.nodup_cons.1 h.nodup
  refine ⟨?_, ?_, ?_, ?_, ?_⟩
  · rw [Heap.update_of_ne hargv, Heap.update_self, List.append_nil]
  · rw [List.map_append, List.map_append, ← h.strings]
    congr 1
    · refine List.map_congr_left fun other hother => ?_
      rw [Heap.update_of_ne (ne_of_mem_of_not_mem hother hold),
        Heap.update_of_ne (ne_of_mem_of_not_mem hother hself)]
    · simp
  · rw [List.nodup_cons, List.mem_append, List.mem_singleton, not_or,
      List.nodup_append]
    refine ⟨⟨hself, hargv⟩, hnodup, List.nodup_singleton _, ?_⟩
    rintro other hother _ hlast rfl
    rw [List.mem_singleton.1 hlast] at hother
    exact hold hother
  · intro other hother
    rw [← List.cons_append, List.mem_append, List.mem_singleton] at hother
    rcases hother with hother | rfl
    · exact h.fresh other hother
    · exact ⟨hptr, (h.other other hnotin).symm.trans hfree⟩
  · intro other hother
    rw [← List.cons_append, List.mem_append, List.mem_singleton, not_or]
      at hother
    rw [Heap.update_of_ne hother.2,
      Heap.update_of_ne (List.ne_of_not_mem_cons hother.1)]
    exact h.other other hother.1

theorem fill_string {len : ℕ} {str : Text} (hlen : len ≤ str.length)
    (hlive : heap ptr = some (freshText (len + 1))) :
    ∃ heap', writeText heap ptr 0 (str.take len) = .ok heap' ∧
      writeText heap' ptr len [0] = .ok (Heap.update heap ptr
        (some (.text (str.take len ++ [0])))) := by
  have htake : (str.take len).length = len := by
    rw [List.length_take, min_eq_left hlen]
  have hfirst : 0 + (str.take len).length ≤
      (List.replicate (len + 1) (0x90 : BitVec 8)).length := by
    rw [htake, List.length_replicate]
    omega
  refine ⟨_, writeText_eq hlive 0 _ hfirst, ?_⟩
  rw [List.take_zero, List.nil_append, Nat.zero_add, htake,
    List.drop_replicate, Nat.add_sub_cancel_left]
  have hsecond : len + [(0 : BitVec 8)].length ≤
      (str.take len ++ List.replicate 1 0x90).length := by
    rw [List.length_append, htake]
    simp
  rw [writeText_eq Heap.update_self len _ hsecond,
    Heap.update_idem, List.take_left' htake,
    List.drop_of_length_le (by simp [htake]), List.append_nil]

theorem pushWord_built (allocator : Allocator)
    (h : Built before heap argv ptrs args)
    (hcount : args.length + 1 < 1073741824) {str : Text} {len : ℕ}
    (hlen : len ≤ str.length) (hfits : len + 1 < 4294967296) :
    ∃ argv' heap' ptr, pushWord allocator argv args.length str len heap =
        .ok (true, argv', heap') ∧
      Holds before heap' argv' (ptrs ++ [ptr]) [] (args ++ [str.take len]) := by
  obtain ⟨argv', mid, hrealloc, hmid⟩ : ∃ argv' mid,
      heapRealloc allocator heap argv (wrap ((args.length + 1) * 4)) =
        .ok (argv', mid) ∧
      Holds before mid argv' ptrs [0x90909090] args := by
    cases h with
    | nothing => exact heapRealloc_nothing allocator before
    | vector h =>
        rw [← h.length_eq] at hcount ⊢
        exact heapRealloc_vector allocator h hcount
  have hzero : argv' ≠ 0 := (hmid.fresh argv' List.mem_cons_self).1
  obtain ⟨ptr, hptr, hfree, halloc⟩ := heapAlloc_fresh allocator mid
    (Nat.add_one_ne_zero len) freshText
  have hnotin := hmid.notin_of_free hfree
  have hargv : argv' ≠ ptr := (List.ne_of_not_mem_cons hnotin).symm
  have harray : Heap.update mid ptr (some (freshText (len + 1))) argv' =
      some (.pointers (ptrs ++ [0x90909090])) := by
    rw [Heap.update_of_ne hargv, hmid.array]
  have hstring : Heap.update (Heap.update mid ptr
      (some (freshText (len + 1)))) argv' (some (.pointers (ptrs ++ [ptr])))
        ptr = some (freshText (len + 1)) := by
    rw [Heap.update_of_ne hargv.symm, Heap.update_self]
  obtain ⟨mid', hzeroth, hlast⟩ := fill_string hlen hstring
  refine ⟨argv', _, ptr, ?_, hmid.push hfree hptr (str.take len)⟩
  have hmax : ¬args.length = intMax := by
    rw [intMax]
    omega
  have hroom : ¬sizeMax / 4 < args.length := by
    rw [sizeMax]
    omega
  rw [pushWord, if_neg hmax, if_neg hroom]
  rw [← hmid.length_eq] at hrealloc ⊢
  simp only [hrealloc, ok_bind, if_neg hzero, wrap_of_lt hfits, halloc,
    Nat.add_sub_cancel, writePointer_last harray, if_neg hptr, hzeroth, hlast]
  rw [Heap.update_comm hargv, Heap.update_idem,
    Heap.update_comm hargv.symm]

/-- The size of an array of `2 ^ 30` words wraps to zero: the array and all
strings stay in the heap. -/
theorem pushWord_full (allocator : Allocator)
    (h : Holds before heap argv ptrs [] args)
    (hcount : args.length + 1 = 1073741824) (str : Text) (len : ℕ) :
    pushWord allocator argv args.length str len heap =
      .ok (false, 0, heap) := by
  have hmax : ¬args.length = intMax := by
    rw [intMax]
    omega
  have hroom : ¬sizeMax / 4 < args.length := by
    rw [sizeMax]
    omega
  have hsize : wrap ((args.length + 1) * 4) = 0 := by
    rw [hcount]
    rfl
  have hzero : argv ≠ 0 := (h.fresh argv List.mem_cons_self).1
  have hrealloc : heapRealloc allocator heap argv 0 = .ok (0, heap) := by
    simp only [heapRealloc, if_neg hzero, readPointers, h.array, ok_bind,
      heapAlloc, if_true]
  rw [pushWord, if_neg hmax, if_neg hroom]
  simp only [hsize, hrealloc, ok_bind, if_true]

end Strings

section Freeing

theorem readPointer_eq (h : heap argv = some (.pointers ptrs)) {i : ℕ}
    (hi : i < ptrs.length) : readPointer heap argv i = .ok ptrs[i] := by
  simp only [readPointer, readPointers, h, ok_bind,
    List.getElem?_eq_getElem hi]

/-- The strings from some position on are freed, with the ones before gone
already. -/
theorem freeStrings_eq {done todo : List ℕ}
    (h : Holds before heap argv (done ++ todo) [] args) {now : Heap}
    (hnow : ∀ ptr, now ptr = if ptr ∈ done then none else heap ptr) :
    ∃ after, freeStrings argv todo.length done.length now = .ok after ∧
      ∀ ptr, after ptr = if ptr ∈ done ++ todo then none else heap ptr := by
  induction todo generalizing done now with
  | nil =>
      refine ⟨now, rfl, ?_⟩
      rwa [List.append_nil]
  | cons ptr rest ih =>
      obtain ⟨hself, hnodup⟩ := List.nodup_cons.1 h.nodup
      have hdone : argv ∉ done :=
        fun hmem => hself (List.mem_append_left _ hmem)
      have harray : now argv = some (.pointers (done ++ ptr :: rest)) := by
        rw [hnow, if_neg hdone, h.array, List.append_nil]
      have hnotin : ptr ∉ done := by
        intro hmem
        exact List.disjoint_of_nodup_append hnodup hmem List.mem_cons_self
      have hmem : ptr ∈ argv :: (done ++ ptr :: rest) := by simp
      have hlt : done.length < (done ++ ptr :: rest).length := by simp
      have hread := readPointer_eq harray hlt
      rw [List.getElem_append_right le_rfl] at hread
      simp only [Nat.sub_self, List.getElem_cons_zero] at hread
      have hfree : heapFree now ptr = .ok (Heap.update now ptr none) := by
        obtain ⟨block, hblock⟩ := Option.ne_none_iff_exists'.1 (h.live hmem)
        rw [heapFree, if_neg (h.fresh ptr hmem).1, hnow, if_neg hnotin, hblock]
      rw [List.append_cons] at h
      have hnext : ∀ other, Heap.update now ptr none other =
          if other ∈ done ++ [ptr] then none else heap other := by
        intro other
        by_cases hother : other = ptr
        · simp [hother]
        · rw [Heap.update_of_ne hother, hnow]
          simp [hother]
      obtain ⟨after, hafter, heq⟩ := ih h hnext
      refine ⟨after, ?_, ?_⟩
      · rw [List.length_append, List.length_singleton] at hafter
        rw [List.length_cons, freeStrings, hread, ok_bind, hfree, ok_bind,
          hafter]
      · rwa [List.append_cons]

theorem freeArgv_eq (h : Holds before heap argv ptrs [] args) :
    freeArgv argv args.length heap = .ok before := by
  have hself := (List.nodup_cons.1 h.nodup).1
  have hnone : ∀ ptr, heap ptr =
      if ptr ∈ ([] : List ℕ) then none else heap ptr := by simp
  have hall : Holds before heap argv ([] ++ ptrs) [] args := h
  obtain ⟨after, hafter, heq⟩ := freeStrings_eq hall hnone
  rw [← h.length_eq, freeArgv]
  rw [List.length_nil] at hafter
  have hlive : after argv = some (.pointers ptrs) := by
    rw [heq, List.nil_append, if_neg hself, h.array, List.append_nil]
  rw [hafter, ok_bind, heapFree,
    if_neg (h.fresh argv List.mem_cons_self).1, hlive]
  refine congrArg Except.ok (Heap.ext (funext fun ptr => ?_))
  by_cases hargv : ptr = argv
  · rw [hargv, Heap.update_self]
    exact (h.fresh argv List.mem_cons_self).2.symm
  · rw [Heap.update_of_ne hargv, heq, List.nil_append]
    split
    next hmem => exact (h.fresh ptr (List.mem_cons_of_mem _ hmem)).2.symm
    next hmem => exact h.other ptr (by simp [hargv, hmem])

end Freeing

end ShellCmd
end Yjkos
