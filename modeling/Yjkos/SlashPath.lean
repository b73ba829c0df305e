import Mathlib.Tactic

/-!
# Paths of names

A path is a text in which a separator stands between names.  Its names are
the nonempty pieces, and the text of a list of names has a separator in front
of each.  Resolving the two special names, one for the directory itself and
one for the directory above, gives the normal form of a path.

The second part selects, from a list, the last of the longest elements which
satisfy a predicate.
-/

namespace SlashPath

section Names

variable {α : Type*} (sep : α)

/-- The text of a list of names. -/
def spell (list : List (List α)) : List α :=
  list.flatMap (fun name => sep :: name)

@[simp]
theorem spell_nil : spell sep ([] : List (List α)) = [] := rfl

theorem spell_append (first second : List (List α)) :
    spell sep (first ++ second) = spell sep first ++ spell sep second :=
  List.flatMap_append

theorem spell_concat (list : List (List α)) (name : List α) :
    spell sep (list ++ [name]) = spell sep list ++ sep :: name := by
  rw [spell_append]
  simp [spell]

/-- A component-wise prefix: the text of some of the first names. -/
def Above (text : List α) (list : List (List α)) : Prop :=
  text ∈ list.inits.map (spell sep)

theorem above_iff {text : List α} {list : List (List α)} :
    Above sep text list ↔ ∃ first, first <+: list ∧ spell sep first = text := by
  unfold Above
  simp only [List.mem_map, List.mem_inits]

theorem Above.isPrefix {text : List α} {list : List (List α)}
    (h : Above sep text list) : text <+: spell sep list := by
  obtain ⟨first, ⟨second, rfl⟩, rfl⟩ := (above_iff sep).1 h
  exact ⟨spell sep second, (spell_append sep first second).symm⟩

variable [DecidableEq α]

instance (text : List α) (list : List (List α)) :
    Decidable (Above sep text list) :=
  inferInstanceAs (Decidable (text ∈ list.inits.map (spell sep)))

/-- The names of a path. -/
def names (path : List α) : List (List α) :=
  (path.splitOn sep).filter (fun name => name ≠ [])

@[simp]
theorem names_nil : names sep ([] : List α) = [] := by
  simp [names]

theorem names_cons_sep (rest : List α) :
    names sep (sep :: rest) = names sep rest := by
  simp [names, List.splitOn_cons_eq_if_modifyHead]

theorem splitOn_name {name rest : List α} (hname : sep ∉ name) :
    (name ++ sep :: rest).splitOn sep = name :: rest.splitOn sep := by
  rw [List.splitOn_append_cons_self, List.splitOn_eq_singleton hname]
  rfl

theorem names_name {name : List α} (rest : List α) (hname : sep ∉ name)
    (hne : name ≠ []) :
    names sep (name ++ sep :: rest) = name :: names sep rest := by
  unfold names
  rw [splitOn_name sep hname, List.filter_cons_of_pos (by simpa using hne)]

theorem names_last {name : List α} (hname : sep ∉ name) (hne : name ≠ []) :
    names sep name = [name] := by
  unfold names
  rw [List.splitOn_eq_singleton hname,
    List.filter_cons_of_pos (by simpa using hne)]
  rfl

theorem names_name_spell {name : List α} (list : List (List α))
    (hname : sep ∉ name) (hne : name ≠ []) :
    names sep (name ++ spell sep list) =
      name :: names sep (spell sep list) := by
  cases list with
  | nil => simpa using names_last sep hname hne
  | cons other list =>
      show names sep (name ++ sep :: (other ++ spell sep list)) =
        name :: names sep (sep :: (other ++ spell sep list))
      rw [names_name sep _ hname hne, names_cons_sep]

theorem names_spell {list : List (List α)}
    (h : ∀ name ∈ list, sep ∉ name ∧ name ≠ []) :
    names sep (spell sep list) = list := by
  induction list with
  | nil => rfl
  | cons name list ih =>
      obtain ⟨hname, hlist⟩ := List.forall_mem_cons.1 h
      show names sep (sep :: (name ++ spell sep list)) = name :: list
      rw [names_cons_sep, names_name_spell sep list hname.1 hname.2, ih hlist]

variable (here up : List α)

/-- Resolving the next name of a path. -/
def enter (stack : List (List α)) (name : List α) : List (List α) :=
  if name = here then stack
  else if name = up then stack.dropLast
  else stack ++ [name]

/-- The names which are left of a path. -/
def normal (path : List α) : List (List α) :=
  (names sep path).foldl (enter here up) []

variable {here up}

theorem mem_foldl_enter {stack list : List (List α)} {name : List α}
    (h : name ∈ list.foldl (enter here up) stack) :
    name ∈ stack ∨ name ∈ list := by
  induction list generalizing stack with
  | nil => exact Or.inl h
  | cons other list ih =>
      rcases ih h with hmem | hmem
      · unfold enter at hmem
        split at hmem
        next => exact Or.inl hmem
        next =>
          split at hmem
          next => exact Or.inl (List.mem_of_mem_dropLast hmem)
          next =>
            rcases List.mem_append.1 hmem with hmem | hmem
            · exact Or.inl hmem
            · rw [List.mem_singleton.1 hmem]
              exact Or.inr List.mem_cons_self
      · exact Or.inr (List.mem_cons_of_mem other hmem)

theorem foldl_enter_ordinary {stack list : List (List α)}
    (h : ∀ name ∈ list, name ≠ here ∧ name ≠ up) :
    list.foldl (enter here up) stack = stack ++ list := by
  induction list generalizing stack with
  | nil => simp
  | cons name list ih =>
      obtain ⟨hname, hlist⟩ := List.forall_mem_cons.1 h
      rw [List.foldl_cons, ih hlist, enter, if_neg hname.1, if_neg hname.2,
        List.append_assoc]
      rfl

end Names

section Selection

variable {β : Type*} (p : β → Prop) [DecidablePred p] (size : β → ℕ)

/-- The choice between the best element so far and the next one. -/
def prefer (best : Option β) (x : β) : Option β :=
  if best.elim 0 size ≤ size x ∧ p x then some x else best

/-- The last one of the longest elements which satisfy the predicate. -/
def lastLongest (list : List β) : Option β :=
  list.foldl (prefer p size) none

theorem lastLongest_concat (list : List β) (x : β) :
    lastLongest p size (list ++ [x]) =
      prefer p size (lastLongest p size list) x := by
  unfold lastLongest
  rw [List.foldl_append]
  rfl

theorem lastLongest_bound {list : List β} {y : β} (hy : y ∈ list)
    (hp : p y) :
    ∃ x, lastLongest p size list = some x ∧ size y ≤ size x := by
  induction list using List.reverseRecOn with
  | nil => cases hy
  | append_singleton list z ih =>
      rw [lastLongest_concat]
      unfold prefer
      split
      next hz =>
        refine ⟨z, rfl, ?_⟩
        rcases List.mem_append.1 hy with hy | hy
        · obtain ⟨best, hbest, hle⟩ := ih hy
          have hprefer := hz.1
          rw [hbest] at hprefer
          exact hle.trans hprefer
        · rw [List.mem_singleton.1 hy]
      next hz =>
        rcases List.mem_append.1 hy with hy | hy
        · exact ih hy
        · rw [List.mem_singleton.1 hy] at hp ⊢
          cases hbest : lastLongest p size list with
          | none =>
              rw [hbest] at hz
              exact absurd ⟨Nat.zero_le _, hp⟩ hz
          | some best =>
              rw [hbest] at hz
              refine ⟨best, rfl, ?_⟩
              by_contra hlt
              exact hz ⟨(not_le.1 hlt).le, hp⟩

variable {p size}

theorem lastLongest_mem {list : List β} {x : β}
    (h : lastLongest p size list = some x) : x ∈ list ∧ p x := by
  induction list using List.reverseRecOn with
  | nil => cases h
  | append_singleton list y ih =>
      rw [lastLongest_concat] at h
      unfold prefer at h
      split at h
      next hy =>
        cases h
        exact ⟨by simp, hy.2⟩
      next =>
        obtain ⟨hx, hpx⟩ := ih h
        exact ⟨List.mem_append_left _ hx, hpx⟩

theorem lastLongest_le {list : List β} {x y : β}
    (h : lastLongest p size list = some x) (hy : y ∈ list) (hp : p y) :
    size y ≤ size x := by
  obtain ⟨x', hx', hle⟩ := lastLongest_bound p size hy hp
  rw [h] at hx'
  cases hx'
  exact hle

variable (p size) in
/-- The selected element is the last one of its size. -/
theorem lastLongest_eq_getLast {list : List β} {n : ℕ}
    (hle : ∀ y ∈ list, p y → size y ≤ n)
    (hex : ∃ y ∈ list, p y ∧ size y = n) :
    lastLongest p size list =
      (list.filter (fun x => p x ∧ size x = n)).getLast? := by
  induction list using List.reverseRecOn with
  | nil =>
      obtain ⟨y, hy, -⟩ := hex
      cases hy
  | append_singleton list z ih =>
      have hle' : ∀ y ∈ list, p y → size y ≤ n :=
        fun y hy => hle y (List.mem_append_left _ hy)
      rw [lastLongest_concat, List.filter_append]
      by_cases hz : p z ∧ size z = n
      · have hbest : (lastLongest p size list).elim 0 size ≤ size z := by
          cases hbest : lastLongest p size list with
          | none => exact Nat.zero_le _
          | some best =>
              obtain ⟨hmem, hp⟩ := lastLongest_mem hbest
              exact (hle' best hmem hp).trans hz.2.ge
        unfold prefer
        rw [if_pos ⟨hbest, hz.1⟩]
        simp [hz]
      · obtain ⟨y, hy, hpy, hsize⟩ := hex
        have hy' : y ∈ list := by
          rcases List.mem_append.1 hy with hy | hy
          · exact hy
          · rw [List.mem_singleton.1 hy] at hpy hsize
            exact absurd ⟨hpy, hsize⟩ hz
        have hrest := ih hle' ⟨y, hy', hpy, hsize⟩
        obtain ⟨best, hbest, hge⟩ := lastLongest_bound p size hy' hpy
        have hkeep : prefer p size (lastLongest p size list) z =
            lastLongest p size list := by
          unfold prefer
          rw [if_neg]
          rintro ⟨hprefer, hpz⟩
          rw [hbest] at hprefer
          have hzn := hle z (by simp) hpz
          exact hz ⟨hpz, le_antisymm hzn (hsize ▸ hge.trans hprefer)⟩
        rw [hkeep, hrest]
        simp [hz]

end Selection

end SlashPath
