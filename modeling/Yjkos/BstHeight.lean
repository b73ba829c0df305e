import Mathlib.Data.Nat.Fib.Basic
import Mathlib.Data.Nat.Log
import Yjkos.BstInsert

/-!
# The height of the tree over whole runs

A height-balanced tree of height `h` has at least `fib (h + 2) - 1` nodes.  In
a run whose removals leave the tree balanced, every walk down from the root
therefore visits logarithmically many nodes.
-/

namespace AvlTree

open BinaryTree

variable {α : Type*}

/-- The sparsest balanced trees are the Fibonacci trees. -/
theorem fib_le_of_balanced {t : BinaryTree α} (hbalanced : HeightBalanced t) :
    Nat.fib (t.height + 2) ≤ t.numNodes + 1 := by
  induction t with
  | nil => simp
  | node a l r ihl ihr =>
      obtain ⟨hlr, hrl, hl, hr⟩ := hbalanced
      have hleft := ihl hl
      have hright := ihr hr
      have hnext : Nat.fib (max l.height r.height + 1 + 2) =
          Nat.fib (max l.height r.height + 1) +
            Nat.fib (max l.height r.height + 2) := Nat.fib_add_two
      rw [height, numNodes, hnext]
      -- the lower subtree has at least the height of the higher one less one
      rcases le_total l.height r.height with hle | hle
      · have hmax : max l.height r.height = r.height := max_eq_right hle
        have hlow : Nat.fib (r.height + 1) ≤ Nat.fib (l.height + 2) := by
          apply Nat.fib_mono
          omega
        rw [hmax]
        omega
      · have hmax : max l.height r.height = l.height := max_eq_left hle
        have hlow : Nat.fib (l.height + 1) ≤ Nat.fib (r.height + 2) := by
          apply Nat.fib_mono
          omega
        rw [hmax]
        omega

theorem height_lt_of_lt_fib {t : BinaryTree α} (hbalanced : HeightBalanced t)
    {steps : ℕ} (hsteps : (inorder t).length + 1 < Nat.fib (steps + 2)) :
    t.height < steps := by
  rw [length_inorder] at hsteps
  have hlt : Nat.fib (t.height + 2) < Nat.fib (steps + 2) :=
    (fib_le_of_balanced hbalanced).trans_lt hsteps
  have := Nat.fib_mono.reflect_lt hlt
  omega

theorem two_pow_le_fib (k : ℕ) : 2 ^ k ≤ Nat.fib (2 * k + 2) := by
  induction k with
  | zero => decide
  | succ k ih =>
      have hmono : Nat.fib (2 * k + 2) ≤ Nat.fib (2 * k + 3) :=
        Nat.fib_mono (by omega)
      have hnext : Nat.fib (2 * (k + 1) + 2) =
          Nat.fib (2 * k + 2) + Nat.fib (2 * k + 3) := Nat.fib_add_two
      rw [pow_succ, hnext]
      omega

theorem lt_fib_of_log (n : ℕ) :
    n < Nat.fib (2 * (Nat.log 2 n + 1) + 2) := by
  have hlog : n < 2 ^ (Nat.log 2 n + 1) :=
    Nat.lt_pow_succ_log_self (by decide) n
  exact hlog.trans_le (two_pow_le_fib _)

end AvlTree

namespace Yjkos
namespace Bst

open AvlTree

namespace MapState

/-- Removals lose no key, and the nodes between the predecessor and the
removed node absorb that the subtree became lower. -/
def AdmitsAbsorbed (fuel : ℕ → ℕ) (s : MapState) (op : MapOp) : Prop :=
  s.AdmitsSafe fuel op ∧ ∀ node, op = .remove node →
    removalAbsorbed (fuel s.live.length) s.tree node = true

/-- Every walk down from the root ends within `steps` nodes. -/
structure WalksWithin (s : MapState) (steps : ℕ) : Prop where
  found : ∀ e ∈ s.live,
    findLoop s.tree.nodes e.key steps s.tree.root = .ok (some e.node)
  absent : ∀ key, (∀ e ∈ s.live, e.key ≠ key) →
    findLoop s.tree.nodes key steps s.tree.root = .ok none
  place : ∀ key, (∀ e ∈ s.live, e.key ≠ key) →
    ∃ place, insertLoop s.tree.nodes key steps s.tree.root none = .ok place
  least : ∃ a, bstMinOfTree steps s.tree = .ok a
  greatest : ∃ a, bstMaxOfTree steps s.tree = .ok a

variable {fuel : ℕ → ℕ} {s : MapState} {t : BinaryTree ℕ}

theorem Holds.length_lt (hholds : s.Holds t) (hfuel : ∀ n, n + 1 < fuel n) :
    (inorder t).length < fuel s.live.length := by
  have := hfuel s.live.length
  rw [hholds.length_eq]
  omega

theorem Holds.walksWithin (hholds : s.Holds t)
    (hfuel : ∀ n, n + 1 < fuel n) {steps : ℕ} (hheight : t.height < steps) :
    s.WalksWithin steps := by
  have hfaithful := hholds.faithful hfuel
  have hlength := hholds.length_lt hfuel
  have hlinked := hholds.valid.linked
  have hroot := hholds.valid.root
  -- with fewer steps the search returns what `bst_find_node` returns
  have hfind : ∀ key, findLoop s.tree.nodes key steps s.tree.root =
      bstFindNode (fuel s.live.length) s.tree key := by
    intro key
    rw [bstFindNode_eq hholds.valid hlength, hroot]
    exact findLoop_eq hlinked hholds.valid.sorted hheight
  constructor
  · intro e he
    rw [hfind]
    exact hfaithful.found e he
  · intro key habsent
    rw [hfind]
    exact hfaithful.absent key habsent
  · intro key habsent
    rw [hroot]
    exact ⟨_, (insertLoop_eq hlinked hholds.valid.sorted
      (hholds.key_ne habsent) hheight none).1⟩
  · rw [bstMinOfTree, hroot]
    exact ⟨_, bstMinOf_eq hlinked hheight⟩
  · rw [bstMaxOfTree, hroot]
    exact ⟨_, bstMaxOf_eq hlinked hheight⟩

/-! ## One step -/

theorem Holds.insert_balanced (hholds : s.Holds t)
    (hbalanced : HeightBalanced t) (hfuel : ∀ n, n + 1 < fuel n)
    {node : ℕ} {key : ℤ} {data : ℕ}
    (hadmits : s.Admits (.insert node key data)) :
    ∃ s' t', s.step fuel (.insert node key data) = .ok s' ∧ s'.Holds t' ∧
      HeightBalanced t' := by
  obtain ⟨s', hstep, hholds', _⟩ := hholds.insert hfuel hadmits
  refine ⟨s', _, hstep, hholds', ?_⟩
  apply balanced_climb_leaf
  rw [plug_insertPath]
  exact hbalanced

theorem Holds.remove_balanced (hholds : s.Holds t)
    (hbalanced : HeightBalanced t) (hfuel : ∀ n, n + 1 < fuel n)
    {node : ℕ} (hadmits : s.AdmitsAbsorbed fuel (.remove node)) :
    ∃ s' t', s.step fuel (.remove node) = .ok s' ∧ s'.Holds t' ∧
      HeightBalanced t' := by
  obtain ⟨⟨hadmits, hsafe⟩, habsorbed⟩ := hadmits
  have hlength := hholds.length_lt hfuel
  have hmem : node ∈ inorder t := hholds.mem_iff.mpr hadmits
  obtain ⟨s', t', hstep, hholds'⟩ :=
    hholds.remove hfuel hadmits (hsafe node rfl)
  refine ⟨s', t', hstep, hholds', ?_⟩
  cases hremove : bstRemoveNode (fuel s.live.length) s.tree node with
  | error e => simp [MapState.step, hremove, error_bind] at hstep
  | ok b' =>
      simp only [MapState.step, hremove, ok_bind, Except.ok.injEq] at hstep
      subst hstep
      have hnodes : inorderNodes b'.nodes (fuel s.live.length) b'.root =
          inorder t' := by
        have hheight := height_le_length t'
        have hle := List.length_filter_le (fun e : Entry => e.node ≠ node)
          s.live
        have hroot : b'.root = rootPtr t' := hholds'.valid.root
        rw [hroot]
        apply inorderNodes_eq hholds'.valid.linked
        rw [hholds'.length_eq] at hheight
        rw [hholds.length_eq] at hlength
        simp only at hheight
        omega
      have havl := (bstRemoveNode_avl_iff (hholds.valid.avl_iff.mpr hbalanced)
        hmem hlength ?_).mpr (habsorbed node rfl)
      · obtain ⟨b₁, t₁, hremove₁, havl₁⟩ := havl
        rw [hremove, Except.ok.injEq] at hremove₁
        subst hremove₁
        have heq : t' = t₁ := linked_unique hholds'.valid.linked
          havl₁.valid.linked (hholds'.valid.root.symm.trans havl₁.valid.root)
        rw [heq]
        exact havl₁.valid.avl_iff.mp havl₁
      · intro b₁ hremove₁ a ha hne
        rw [hremove, Except.ok.injEq] at hremove₁
        subst hremove₁
        obtain ⟨e, he, rfl⟩ := hholds.mem_iff.mp ha
        rw [hnodes, hholds'.mem_iff]
        refine ⟨e, ?_, rfl⟩
        rw [List.mem_filter]
        exact ⟨he, by simpa using hne⟩

theorem Holds.step_balanced (hholds : s.Holds t)
    (hbalanced : HeightBalanced t) (hfuel : ∀ n, n + 1 < fuel n) {op : MapOp}
    (hadmits : s.AdmitsAbsorbed fuel op) :
    ∃ s' t', s.step fuel op = .ok s' ∧ s'.Holds t' ∧ HeightBalanced t' := by
  cases op with
  | insert node key data =>
      exact hholds.insert_balanced hbalanced hfuel hadmits.1.1
  | remove node => exact hholds.remove_balanced hbalanced hfuel hadmits
  | find key =>
      refine ⟨s, t, ?_, hholds, hbalanced⟩
      simp only [MapState.step, bstFindNode_eq hholds.valid (hholds.length_lt hfuel),
        ok_bind]

end MapState

/-! ## Whole runs -/

/-- In every run whose removals are absorbed, a walk from the root which may
visit `steps` nodes ends as soon as the tree has fewer than
`fib (steps + 2) - 1` entries; twice the binary logarithm is enough. -/
theorem walks_logarithmic_of_reachable {fuel : ℕ → ℕ}
    (hfuel : ∀ n, n + 1 < fuel n) {s : MapState}
    (hreach : TransitionRun.Reachable MapState.Empty
      (MapState.AdmitsAbsorbed fuel) (MapState.step fuel) s) :
    (∀ steps, s.live.length + 1 < Nat.fib (steps + 2) →
      s.WalksWithin steps) ∧
    s.WalksWithin (2 * (Nat.log 2 (s.live.length + 1) + 1)) := by
  have hinv : ∃ t, s.Holds t ∧ HeightBalanced t := by
    apply TransitionRun.Reachable.invariant _ _ hreach
    · exact fun s hs => ⟨_, MapState.holds_empty hs, trivial⟩
    · rintro s op s' ⟨t, hholds, hbalanced⟩ hadmits hstep
      obtain ⟨s₁, t₁, hstep₁, hholds₁, hbalanced₁⟩ :=
        hholds.step_balanced hbalanced hfuel hadmits
      rw [hstep, Except.ok.injEq] at hstep₁
      exact ⟨t₁, hstep₁ ▸ hholds₁, hbalanced₁⟩
  obtain ⟨t, hholds, hbalanced⟩ := hinv
  have hwalks : ∀ steps, s.live.length + 1 < Nat.fib (steps + 2) →
      s.WalksWithin steps := by
    intro steps hsteps
    rw [← hholds.length_eq] at hsteps
    exact hholds.walksWithin hfuel (height_lt_of_lt_fib hbalanced hsteps)
  exact ⟨hwalks, hwalks _ (lt_fib_of_log _)⟩

/-- The nodes between the predecessor 3 and the root absorb the removal. -/
theorem MapState.Numbered.admitsAbsorbed {s : MapState}
    (hnumbered : s.Numbered fiveNodes) :
    s.AdmitsAbsorbed enoughFuel (.remove 4) := by
  refine ⟨hnumbered.admitsSafe, ?_⟩
  rintro node ⟨⟩
  have hvalid := hnumbered.1.valid
  obtain ⟨-, hleft, hright,
    ⟨-, -, hmiddle, -, hparent, -, hend, -⟩, -⟩ := hvalid.linked
  simp only [leaf, rootPtr] at hleft hright hmiddle hend
  have hinner : Valid s.tree (plug [⟨.left, 4, leaf 6⟩]
      (.node 2 (leaf 1) (leaf 3))) := hvalid
  have hbf : (s.tree.nodes 2).bf = 0 := hinner.bf_eq
  simp [removalAbsorbed, hnumbered.live_length, enoughFuel, bstMaxOf,
    extremeLoop, hleft, hright, hmiddle, hend, hparent, absorbedLoop, hbf]

/-- The theorem before and after the removal of the root of five nodes, which
has two children. -/
theorem walks_logarithmic_of_removal :
    ∃ s s' : MapState,
      inorderNodes s.tree.nodes 7 s.tree.root = [1, 2, 3, 4, 6] ∧
      (s.tree.nodes 4).children .left = some 2 ∧
      (s.tree.nodes 4).children .right = some 6 ∧
      s.AdmitsAbsorbed enoughFuel (.remove 4) ∧ s.WalksWithin 4 ∧
      s.step enoughFuel (.remove 4) = .ok s' ∧
      inorderNodes s'.tree.nodes 7 s'.tree.root = [1, 2, 3, 6] ∧
      s'.WalksWithin 4 := by
  obtain ⟨s, hnumbered, hreach⟩ :=
    @exists_numbered_fiveNodes (MapState.AdmitsAbsorbed enoughFuel)
      fun _ _ _ _ hadmits => ⟨⟨hadmits, by simp⟩, by simp⟩
  have hlength := hnumbered.live_length
  obtain ⟨-, hleft, hright, -⟩ := hnumbered.1.valid.linked
  obtain ⟨s', hstep, hlength', hnodes⟩ := hnumbered.remove_root
  have hreach' := hreach.next hnumbered.admitsAbsorbed hstep
  refine ⟨s, s', hnumbered.nodes_fiveNodes, hleft, hright,
    hnumbered.admitsAbsorbed, ?_, hstep, hnodes, ?_⟩
  · apply (walks_logarithmic_of_reachable lt_enoughFuel hreach).1
    simp [hlength, Nat.fib_add_two]
  · apply (walks_logarithmic_of_reachable lt_enoughFuel hreach').1
    have hfib : Nat.fib (4 + 2) = 8 := by decide
    omega

end Bst
end Yjkos
