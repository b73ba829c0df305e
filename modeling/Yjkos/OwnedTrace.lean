import Mathlib.Data.Finset.Basic
import Yjkos.Traced

/-!
# Allocations and frees

A computation which records the blocks it gets from a heap and the ones it
gives back.  It keeps to its own blocks when it frees only what it has got and
not yet freed; what it leaves behind are the live blocks after its trace.
-/

namespace OwnedTrace

inductive Event (ι : Type*) where
  | alloc (block : ι)
  | free (block : ι)

variable {ι : Type*} [DecidableEq ι]

/-- Every block is owned when it is freed. -/
def FreesOwned : List ι → List (Event ι) → Prop
  | _, [] => True
  | owned, .alloc block :: trace => FreesOwned (block :: owned) trace
  | owned, .free block :: trace =>
      block ∈ owned ∧ FreesOwned (owned.erase block) trace

/-- The live blocks after a trace. -/
def liveAfter : Finset ι → List (Event ι) → Finset ι
  | live, [] => live
  | live, .alloc block :: trace => liveAfter (insert block live) trace
  | live, .free block :: trace => liveAfter (live.erase block) trace

/-- The blocks which are owned after a trace. -/
def ownedAfter : List ι → List (Event ι) → List ι
  | owned, [] => owned
  | owned, .alloc block :: trace => ownedAfter (block :: owned) trace
  | owned, .free block :: trace => ownedAfter (owned.erase block) trace

theorem freesOwned_append (owned : List ι) (trace more : List (Event ι)) :
    FreesOwned owned (trace ++ more) ↔
      FreesOwned owned trace ∧ FreesOwned (ownedAfter owned trace) more := by
  induction trace generalizing owned with
  | nil => exact ⟨fun h => ⟨trivial, h⟩, fun h => h.2⟩
  | cons event trace ih =>
      cases event with
      | alloc block => exact ih (block :: owned)
      | free block =>
          rw [List.cons_append, FreesOwned, FreesOwned, ih, and_assoc]
          rfl

theorem ownedAfter_append (owned : List ι) (trace more : List (Event ι)) :
    ownedAfter owned (trace ++ more) =
      ownedAfter (ownedAfter owned trace) more := by
  induction trace generalizing owned with
  | nil => rfl
  | cons event trace ih =>
      cases event with
      | alloc block => exact ih (block :: owned)
      | free block => exact ih (owned.erase block)

/-- Owned blocks can be freed in any order. -/
theorem frees_perm {owned blocks rest : List ι}
    (howned : owned.Perm (blocks ++ rest)) :
    FreesOwned owned (blocks.map .free) ∧
      (ownedAfter owned (blocks.map .free)).Perm rest := by
  induction blocks generalizing owned with
  | nil => exact ⟨trivial, howned⟩
  | cons block blocks ih =>
      have hmem : block ∈ owned := howned.mem_iff.2 List.mem_cons_self
      have herase : (owned.erase block).Perm (blocks ++ rest) := by
        have h := howned.erase block
        rwa [List.cons_append, List.erase_cons_head] at h
      exact ⟨⟨hmem, (ih herase).1⟩, (ih herase).2⟩

/-- Nothing can be freed when nothing is owned. -/
theorem not_frees_nil {blocks : List ι} (hnonempty : blocks ≠ []) :
    ¬FreesOwned [] (blocks.map .free) := by
  cases blocks with
  | nil => exact absurd rfl hnonempty
  | cons block blocks => exact fun h => absurd h.1 List.not_mem_nil

/-- A computation frees only its own blocks, and of these leaves behind
exactly the ones which `kept` names. -/
structure Keeps {ε α : Type*} (live : Finset ι) (kept : α → Finset ι)
    (x : Traced (Event ι) ε α) : Prop where
  frees : FreesOwned [] x.touched
  live : ∀ a, x.result = .ok a → liveAfter live x.touched = live ∪ kept a

section Keeps

variable {ε α : Type*} {live : Finset ι} {kept : α → Finset ι}

/-- A computation which frees nothing and does not return. -/
theorem keeps_alloc_error (block : ι) (e : ε) :
    Keeps live kept (Traced.mk [.alloc block] (.error e)) where
  frees := trivial
  live := fun a ha => by cases ha

theorem keeps_nil {a : α} (hkept : kept a = ∅) :
    Keeps live kept (Traced.mk [] (.ok a) : Traced (Event ι) ε α) where
  frees := trivial
  live := by
    rintro b ⟨⟩
    rw [hkept, Finset.union_empty]
    rfl

theorem keeps_alloc {a : α} {block : ι} (hkept : kept a = {block}) :
    Keeps live kept
      (Traced.mk [.alloc block] (.ok a) : Traced (Event ι) ε α) where
  frees := trivial
  live := by
    rintro b ⟨⟩
    rw [hkept, Finset.union_comm]
    rfl

theorem not_keeps_alloc {a : α} {block : ι} (hfresh : block ∉ live)
    (hkept : kept a = ∅) :
    ¬Keeps live kept
      (Traced.mk [.alloc block] (.ok a) : Traced (Event ι) ε α) := by
  intro h
  have hlive : insert block live = live ∪ kept a := h.live a rfl
  rw [hkept, Finset.union_empty] at hlive
  exact hfresh (hlive ▸ Finset.mem_insert_self block live)

/-- A block is got and something is freed. -/
theorem keeps_alloc_free_iff {a : α} {block other : ι}
    (hfresh : block ∉ live) (hkept : kept a = ∅) :
    Keeps live kept (Traced.mk [.alloc block, .free other] (.ok a) :
        Traced (Event ι) ε α) ↔
      other = block := by
  constructor
  · intro h
    exact List.mem_singleton.1 h.frees.1
  · rintro rfl
    refine ⟨⟨List.mem_cons_self, trivial⟩, ?_⟩
    rintro b ⟨⟩
    rw [hkept, Finset.union_empty]
    exact Finset.erase_insert hfresh

theorem keeps_alloc_free {a : α} {block : ι} (hfresh : block ∉ live)
    (hkept : kept a = ∅) :
    Keeps live kept (Traced.mk [.alloc block, .free block] (.ok a) :
        Traced (Event ι) ε α) :=
  (keeps_alloc_free_iff hfresh hkept).2 rfl

/-- Two blocks which are freed in the opposite order. -/
theorem keeps_nested {a : α} {outer inner : ι} (houter : outer ∉ live)
    (hinner : inner ∉ insert outer live) (hkept : kept a = ∅) :
    Keeps live kept
      (Traced.mk [.alloc outer, .alloc inner, .free inner, .free outer]
        (.ok a) : Traced (Event ι) ε α) where
  frees := by
    refine ⟨List.mem_cons_self, ?_⟩
    rw [List.erase_cons_head]
    exact ⟨List.mem_cons_self, trivial⟩
  live := by
    rintro b ⟨⟩
    show (((insert inner (insert outer live)).erase inner).erase outer) = _
    rw [Finset.erase_insert hinner, Finset.erase_insert houter, hkept,
      Finset.union_empty]

theorem not_keeps_free (block : ι) (result : Except ε α) :
    ¬Keeps live kept (Traced.mk [.free block] result) :=
  fun h => absurd h.frees.1 List.not_mem_nil

end Keeps

end OwnedTrace
