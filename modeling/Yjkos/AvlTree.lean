import Mathlib.Data.Tree.Basic
import Mathlib.Tactic

/-!
# Rotations, contexts and height balance of binary trees

Binary trees are those of Mathlib.  A context is the path from a subtree to
the root, innermost frame first; `plug` puts a subtree back.  Rotations and
the climb of rotations towards the root keep the in-order sequence, and they
restore the height balance after one subtree has become one lower or one
higher.
-/

namespace AvlTree

open BinaryTree

variable {α : Type*}

inductive Side where
  | left
  | right
deriving DecidableEq, Repr

def Side.opposite : Side → Side
  | .left => .right
  | .right => .left

/-- The node which has `x` as its child on side `s`. -/
def branch (s : Side) (a : α) (x y : BinaryTree α) : BinaryTree α :=
  match s with
  | .left => .node a x y
  | .right => .node a y x

def inorder : BinaryTree α → List α
  | .nil => []
  | .node a l r => inorder l ++ a :: inorder r

/-! ## Contexts -/

structure Frame (α : Type*) where
  side : Side
  value : α
  sibling : BinaryTree α

def plug : List (Frame α) → BinaryTree α → BinaryTree α
  | [], t => t
  | f :: ctx, t => plug ctx (branch f.side f.value t f.sibling)

/-- What stands before the hole of one frame. -/
def Frame.before (f : Frame α) : List α :=
  match f.side with
  | .left => []
  | .right => inorder f.sibling ++ [f.value]

/-- What stands after the hole of one frame. -/
def Frame.after (f : Frame α) : List α :=
  match f.side with
  | .left => f.value :: inorder f.sibling
  | .right => []

def before : List (Frame α) → List α
  | [] => []
  | f :: ctx => before ctx ++ f.before

def after : List (Frame α) → List α
  | [] => []
  | f :: ctx => f.after ++ after ctx

/-- The values on the way from the hole to the root. -/
def spine (ctx : List (Frame α)) : List α :=
  ctx.map Frame.value

theorem spine_cons (f : Frame α) (ctx : List (Frame α)) :
    spine (f :: ctx) = f.value :: spine ctx := rfl

theorem spine_append (inner outer : List (Frame α)) :
    spine (inner ++ outer) = spine inner ++ spine outer :=
  List.map_append

theorem inorder_branch (f : Frame α) (t : BinaryTree α) :
    inorder (branch f.side f.value t f.sibling) =
      f.before ++ inorder t ++ f.after := by
  cases hside : f.side <;>
    simp [branch, inorder, Frame.before, Frame.after, hside]

theorem inorder_plug (ctx : List (Frame α)) (t : BinaryTree α) :
    inorder (plug ctx t) = before ctx ++ inorder t ++ after ctx := by
  induction ctx generalizing t with
  | nil => simp [plug, before, after]
  | cons f ctx ih =>
      rw [plug, ih, inorder_branch]
      simp [before, after]

theorem plug_append (inner outer : List (Frame α)) (t : BinaryTree α) :
    plug (inner ++ outer) t = plug outer (plug inner t) := by
  induction inner generalizing t with
  | nil => rfl
  | cons f inner ih => exact ih _

theorem before_append (inner outer : List (Frame α)) :
    before (inner ++ outer) = before outer ++ before inner := by
  induction inner with
  | nil => simp [before]
  | cons f inner ih => simp [before, ih]

theorem after_append (inner outer : List (Frame α)) :
    after (inner ++ outer) = after inner ++ after outer := by
  induction inner with
  | nil => rfl
  | cons f inner ih => simp [after, ih]

/-- The values outside of the hole. -/
def outside (ctx : List (Frame α)) : List α :=
  ctx.flatMap fun f => f.value :: inorder f.sibling

theorem inorder_branch_perm (s : Side) (a : α) (x y : BinaryTree α) :
    (inorder (branch s a x y)).Perm (a :: (inorder x ++ inorder y)) := by
  cases s
  · exact List.perm_middle
  · exact List.perm_middle.trans (List.perm_append_comm.cons a)

theorem inorder_plug_perm (ctx : List (Frame α)) (t : BinaryTree α) :
    (inorder (plug ctx t)).Perm (inorder t ++ outside ctx) := by
  induction ctx generalizing t with
  | nil => simp [plug, outside]
  | cons f ctx ih =>
      rw [plug]
      refine (ih _).trans ?_
      have hbranch := inorder_branch_perm f.side f.value t f.sibling
      refine (hbranch.append_right (outside ctx)).trans ?_
      simp only [outside, List.flatMap_cons, List.cons_append,
        List.append_assoc]
      exact List.perm_middle.symm

theorem spine_subset_outside (ctx : List (Frame α)) :
    ∀ a ∈ spine ctx, a ∈ outside ctx := by
  intro a ha
  obtain ⟨f, hf, rfl⟩ := List.mem_map.mp ha
  exact List.mem_flatMap.mpr ⟨f, hf, List.mem_cons_self⟩

theorem length_inorder (t : BinaryTree α) :
    (inorder t).length = t.numNodes := by
  induction t with
  | nil => rfl
  | node a l r ihl ihr =>
      simp only [inorder, List.length_append, List.length_cons, ihl, ihr,
        numNodes]
      omega

theorem height_le_length (t : BinaryTree α) :
    t.height ≤ (inorder t).length :=
  length_inorder t ▸ t.height_le_numNodes

/-- Every value of a tree has a context. -/
theorem exists_plug_of_mem {t : BinaryTree α} {a : α}
    (ha : a ∈ inorder t) : ∃ ctx l r, t = plug ctx (.node a l r) := by
  induction t with
  | nil => simp [inorder] at ha
  | node b l r ihl ihr =>
      simp only [inorder, List.mem_append, List.mem_cons] at ha
      rcases ha with hl | rfl | hr
      · obtain ⟨ctx, l', r', hplug⟩ := ihl hl
        refine ⟨ctx ++ [⟨.left, b, r⟩], l', r', ?_⟩
        rw [plug_append, ← hplug]
        rfl
      · exact ⟨[], l, r, rfl⟩
      · obtain ⟨ctx, l', r', hplug⟩ := ihr hr
        refine ⟨ctx ++ [⟨.right, b, l⟩], l', r', ?_⟩
        rw [plug_append, ← hplug]
        rfl

/-! ## Rotation -/

def rotate : Side → BinaryTree α → BinaryTree α
  | .left, .node a x (.node b y z) => .node b (.node a x y) z
  | .right, .node a (.node b z y) x => .node b z (.node a y x)
  | _, t => t

theorem rotate_branch (s : Side) (a b : α) (x y z : BinaryTree α) :
    rotate s (branch s a x (branch s b y z)) =
      branch s b (branch s a x y) z := by
  cases s <;> rfl

theorem inorder_rotate (s : Side) (t : BinaryTree α) :
    inorder (rotate s t) = inorder t := by
  unfold rotate
  split <;> simp [inorder]

/-- Height of the left subtree minus height of the right one. -/
def tilt : BinaryTree α → ℤ
  | .nil => 0
  | .node _ l r => (l.height : ℤ) - r.height

/-- One step of rebalancing at the root. -/
def rebalance : BinaryTree α → BinaryTree α
  | .nil => .nil
  | .node a l r =>
      if 1 < (l.height : ℤ) - r.height then
        rotate .right (.node a (if tilt l < 0 then rotate .left l else l) r)
      else if (l.height : ℤ) - r.height < -1 then
        rotate .left (.node a l (if 0 < tilt r then rotate .right r else r))
      else .node a l r

theorem branch_opposite (s : Side) (a : α) (x y : BinaryTree α) :
    branch s.opposite a y x = branch s a x y := by
  cases s <;> rfl

/-- The step when the subtree on side `s` is too high, with its own subtrees
`x` on the same side and `z` on the inner side. -/
theorem rebalance_heavy (s : Side) (a b : α) {x y z : BinaryTree α}
    (hheavy : y.height < max x.height z.height) :
    rebalance (branch s a (branch s b x z) y) =
      rotate s.opposite (branch s a
        (if x.height < z.height then rotate s (branch s b x z)
          else branch s b x z) y) := by
  cases s with
  | left =>
      have hleft :
          1 < ((BinaryTree.node b x z).height : ℤ) - y.height := by
        simp only [height]
        omega
      have hinner : tilt (BinaryTree.node b x z) < 0 ↔
          x.height < z.height := by
        simp only [tilt]
        omega
      simp only [rebalance, branch, if_pos hleft, hinner, Side.opposite]
  | right =>
      have hnot :
          ¬1 < (y.height : ℤ) - (BinaryTree.node b z x).height := by
        simp only [height]
        omega
      have hright :
          (y.height : ℤ) - (BinaryTree.node b z x).height < -1 := by
        simp only [height]
        omega
      have hinner : 0 < tilt (BinaryTree.node b z x) ↔
          x.height < z.height := by
        simp only [tilt]
        omega
      simp only [rebalance, branch, if_neg hnot, if_pos hright, hinner,
        Side.opposite]

theorem inorder_rebalance (t : BinaryTree α) :
    inorder (rebalance t) = inorder t := by
  cases t with
  | nil => rfl
  | node a l r =>
      simp only [rebalance]
      split
      · rw [inorder_rotate, inorder]
        split <;> simp [inorder_rotate, inorder]
      · split
        · rw [inorder_rotate, inorder]
          split <;> simp [inorder_rotate, inorder]
        · rfl

/-- Rebalance at every frame of a context, from the inside out. -/
def climb : List (Frame α) → BinaryTree α → BinaryTree α
  | [], t => t
  | f :: ctx, t => climb ctx (rebalance (branch f.side f.value t f.sibling))

theorem inorder_climb (ctx : List (Frame α)) (t : BinaryTree α) :
    inorder (climb ctx t) = before ctx ++ inorder t ++ after ctx := by
  induction ctx generalizing t with
  | nil => simp [climb, before, after]
  | cons f ctx ih =>
      rw [climb, ih, inorder_rebalance, inorder_branch]
      simp [before, after]

/-! ## Height balance -/

def HeightBalanced : BinaryTree α → Prop
  | .nil => True
  | .node _ l r =>
      l.height ≤ r.height + 1 ∧ r.height ≤ l.height + 1 ∧
        HeightBalanced l ∧ HeightBalanced r

/-- A context whose frames are balanced around a subtree of height `h`. -/
def ContextBalanced : List (Frame α) → ℕ → Prop
  | [], _ => True
  | f :: ctx, h =>
      h ≤ f.sibling.height + 1 ∧ f.sibling.height ≤ h + 1 ∧
        HeightBalanced f.sibling ∧
        ContextBalanced ctx (max h f.sibling.height + 1)

theorem height_branch (s : Side) (a : α) (x y : BinaryTree α) :
    (branch s a x y).height = max x.height y.height + 1 := by
  cases s
  · rfl
  · simp [branch, Nat.max_comm]

theorem balanced_branch (s : Side) (a : α) (x y : BinaryTree α) :
    HeightBalanced (branch s a x y) ↔
      x.height ≤ y.height + 1 ∧ y.height ≤ x.height + 1 ∧
        HeightBalanced x ∧ HeightBalanced y := by
  cases s
  · rfl
  · simp only [branch, HeightBalanced]
    tauto

theorem height_plug_congr (ctx : List (Frame α)) {t t' : BinaryTree α}
    (hheight : t'.height = t.height) :
    (plug ctx t').height = (plug ctx t).height := by
  induction ctx generalizing t t' with
  | nil => exact hheight
  | cons f ctx ih =>
      apply ih
      rw [height_branch, height_branch, hheight]

theorem balanced_plug (ctx : List (Frame α)) (t : BinaryTree α) :
    HeightBalanced (plug ctx t) ↔
      HeightBalanced t ∧ ContextBalanced ctx t.height := by
  induction ctx generalizing t with
  | nil => simp [plug, ContextBalanced]
  | cons f ctx ih =>
      rw [plug, ih, balanced_branch, height_branch, ContextBalanced]
      tauto

/-- Rebalancing leaves a root with an allowed tilt alone. -/
theorem rebalance_branch_of_balanced (s : Side) (a : α)
    {x y : BinaryTree α} (hxy : x.height ≤ y.height + 1)
    (hyx : y.height ≤ x.height + 1) :
    rebalance (branch s a x y) = branch s a x y := by
  cases s
  all_goals
    simp only [branch, rebalance]
    rw [if_neg (by omega), if_neg (by omega)]

theorem climb_of_contextBalanced {ctx : List (Frame α)} {t : BinaryTree α}
    (hctx : ContextBalanced ctx t.height) : climb ctx t = plug ctx t := by
  induction ctx generalizing t with
  | nil => rfl
  | cons f ctx ih =>
      obtain ⟨hle, hge, _, hrest⟩ := hctx
      rw [climb, rebalance_branch_of_balanced _ _ hle hge, plug]
      apply ih
      rwa [height_branch]

/-- The left-heavy case: a right rotation, after a left rotation below when
the left subtree leans to the right. -/
theorem balanced_rebalance_left {a : α} {l r : BinaryTree α}
    (hl : HeightBalanced l) (hr : HeightBalanced r)
    (hlr : l.height = r.height + 2) :
    HeightBalanced (rebalance (.node a l r)) ∧
      (rebalance (.node a l r)).height ≤ l.height + 1 ∧
      l.height ≤ (rebalance (.node a l r)).height := by
  cases l with
  | nil => simp at hlr
  | node b ll lr =>
      obtain ⟨hlt, hgt, hll, hlr'⟩ := hl
      simp only [height] at hlr
      have hheavy : 1 < ((BinaryTree.node b ll lr).height : ℤ) - r.height := by
        simp only [height]
        omega
      simp only [rebalance, if_pos hheavy]
      by_cases hinner : tilt (BinaryTree.node b ll lr) < 0
      · rw [if_pos hinner]
        rw [tilt] at hinner
        cases lr with
        | nil =>
            simp only [height] at hinner
            omega
        | node c y z =>
            obtain ⟨hyz, hzy, hy, hz⟩ := hlr'
            simp only [height] at *
            simp only [rotate, HeightBalanced, height]
            refine ⟨⟨?_, ?_, ⟨?_, ?_, hll, hy⟩, ?_, ?_, hz, hr⟩, ?_, ?_⟩
            all_goals omega
      · rw [if_neg hinner]
        rw [tilt] at hinner
        simp only [rotate, HeightBalanced, height]
        refine ⟨⟨?_, ?_, hll, ?_, ?_, hlr', hr⟩, ?_, ?_⟩
        all_goals omega

/-- The right-heavy case. -/
theorem balanced_rebalance_right {a : α} {l r : BinaryTree α}
    (hl : HeightBalanced l) (hr : HeightBalanced r)
    (hrl : r.height = l.height + 2) :
    HeightBalanced (rebalance (.node a l r)) ∧
      (rebalance (.node a l r)).height ≤ r.height + 1 ∧
      r.height ≤ (rebalance (.node a l r)).height := by
  cases r with
  | nil => simp at hrl
  | node b rl rr =>
      obtain ⟨hlt, hgt, hrl', hrr⟩ := hr
      simp only [height] at hrl
      have hleft : ¬1 < (l.height : ℤ) - (BinaryTree.node b rl rr).height := by
        simp only [height]
        omega
      have hheavy :
          (l.height : ℤ) - (BinaryTree.node b rl rr).height < -1 := by
        simp only [height]
        omega
      simp only [rebalance, if_neg hleft, if_pos hheavy]
      by_cases hinner : 0 < tilt (BinaryTree.node b rl rr)
      · rw [if_pos hinner]
        rw [tilt] at hinner
        cases rl with
        | nil =>
            simp only [height] at hinner
            omega
        | node c z y =>
            obtain ⟨hyz, hzy, hz, hy⟩ := hrl'
            simp only [height] at *
            simp only [rotate, HeightBalanced, height]
            refine ⟨⟨?_, ?_, ⟨?_, ?_, hl, hz⟩, ?_, ?_, hy, hrr⟩, ?_, ?_⟩
            all_goals omega
      · rw [if_neg hinner]
        rw [tilt] at hinner
        simp only [rotate, HeightBalanced, height]
        refine ⟨⟨?_, ?_, ⟨?_, ?_, hl, hrl'⟩, hrr⟩, ?_, ?_⟩
        all_goals omega

/-- Rebalancing a root whose subtrees are balanced and differ by at most two
in height gives a balanced tree which is at most one lower. -/
theorem balanced_rebalance {s : Side} {a : α} {x y : BinaryTree α}
    (hx : HeightBalanced x) (hy : HeightBalanced y)
    (hxy : x.height ≤ y.height + 2) (hyx : y.height ≤ x.height + 2) :
    HeightBalanced (rebalance (branch s a x y)) ∧
      (rebalance (branch s a x y)).height ≤ max x.height y.height + 1 ∧
      max x.height y.height ≤ (rebalance (branch s a x y)).height := by
  by_cases hallowed :
      x.height ≤ y.height + 1 ∧ y.height ≤ x.height + 1
  · rw [rebalance_branch_of_balanced s a hallowed.1 hallowed.2,
      balanced_branch, height_branch]
    exact ⟨⟨hallowed.1, hallowed.2, hx, hy⟩, le_rfl, by omega⟩
  · rcases Nat.lt_or_ge x.height y.height with hlt | hge
    · rw [max_eq_right hlt.le]
      cases s
      · exact balanced_rebalance_right hx hy (by omega)
      · exact balanced_rebalance_left hy hx (by omega)
    · rw [max_eq_left hge]
      cases s
      · exact balanced_rebalance_left hx hy (by omega)
      · exact balanced_rebalance_right hy hx (by omega)

/-- Climbing restores the balance when the subtree in the hole has become
one lower. -/
theorem balanced_climb_of_lower {ctx : List (Frame α)} {h : ℕ}
    {t : BinaryTree α} (hctx : ContextBalanced ctx h) (ht : HeightBalanced t)
    (hle : t.height ≤ h) (hge : h ≤ t.height + 1) :
    HeightBalanced (climb ctx t) := by
  induction ctx generalizing h t with
  | nil => exact ht
  | cons f ctx ih =>
      obtain ⟨hlow, hhigh, hsibling, hrest⟩ := hctx
      obtain ⟨hbalanced, hupper, hlower⟩ :=
        @balanced_rebalance _ f.side f.value _ _ ht hsibling (by omega)
          (by omega)
      rw [climb]
      by_cases hmax : max t.height f.sibling.height =
          max h f.sibling.height
      · exact ih hrest hbalanced (by omega) (by omega)
      · -- the subtree was the higher one, so no rotation took place
        have hsame := rebalance_branch_of_balanced f.side f.value
          (x := t) (y := f.sibling) (by omega) (by omega)
        rw [hsame]
        apply ih hrest
        · rw [balanced_branch]
          exact ⟨by omega, by omega, ht, hsibling⟩
        · rw [height_branch]
          omega
        · rw [height_branch]
          omega

/-- Climbing restores the balance when the subtree in the hole has become
one higher. -/
theorem balanced_climb_of_higher {ctx : List (Frame α)} {h : ℕ}
    {t : BinaryTree α} (hctx : ContextBalanced ctx h) (ht : HeightBalanced t)
    (hle : h ≤ t.height) (hge : t.height ≤ h + 1) :
    HeightBalanced (climb ctx t) := by
  induction ctx generalizing h t with
  | nil => exact ht
  | cons f ctx ih =>
      obtain ⟨hlow, hhigh, hsibling, hrest⟩ := hctx
      obtain ⟨hbalanced, hupper, hlower⟩ :=
        @balanced_rebalance _ f.side f.value _ _ ht hsibling (by omega)
          (by omega)
      rw [climb]
      by_cases hheavy : f.sibling.height + 2 ≤ t.height
      · -- the rotation may take the height back to what it was
        exact ih hrest hbalanced (by omega) (by omega)
      · have hsame := rebalance_branch_of_balanced f.side f.value
          (x := t) (y := f.sibling) (by omega) (by omega)
        rw [hsame] at hbalanced ⊢
        apply ih hrest hbalanced
        · rw [height_branch]
          omega
        · rw [height_branch]
          omega

/-! ## Shrinking without rebalancing -/

/-- A subtree of height `h + 1` in the hole has become one lower.  Going up,
each frame which leans towards the hole becomes lower too; the first frame
which does not has to be level. -/
def absorbs : List (Frame α) → ℕ → Bool
  | [], _ => true
  | f :: ctx, h =>
      if f.sibling.height = h then absorbs ctx (h + 1)
      else decide (f.sibling.height = h + 1)

theorem balanced_plug_of_absorbs {ctx : List (Frame α)} {h : ℕ}
    {t t' : BinaryTree α} (hctx : ContextBalanced ctx (h + 1))
    (ht' : HeightBalanced t') (hheight : t.height = h + 1)
    (hheight' : t'.height = h) (habsorbs : absorbs ctx h = true) :
    HeightBalanced (plug ctx t') ∧
      (plug ctx t').height ≤ (plug ctx t).height ∧
      (plug ctx t).height ≤ (plug ctx t').height + 1 := by
  induction ctx generalizing h t t' with
  | nil =>
      simp only [plug]
      exact ⟨ht', by omega, by omega⟩
  | cons f ctx ih =>
      obtain ⟨hlow, hhigh, hsibling, hrest⟩ := hctx
      rw [absorbs] at habsorbs
      have hbranch : HeightBalanced (branch f.side f.value t' f.sibling) ↔
          f.sibling.height ≤ h + 1 := by
        rw [balanced_branch, hheight']
        constructor
        · exact fun hb => hb.2.1
        · exact fun hb => ⟨by omega, hb, ht', hsibling⟩
      split at habsorbs
      next hlean =>
        rw [show max (h + 1) f.sibling.height + 1 = h + 1 + 1 by omega]
          at hrest
        apply ih hrest (hbranch.mpr (by omega)) _ _ habsorbs
        · rw [height_branch]
          omega
        · rw [height_branch]
          omega
      next _ =>
        have hlevel : f.sibling.height = h + 1 := by simpa using habsorbs
        have hsame : (branch f.side f.value t' f.sibling).height =
            (branch f.side f.value t f.sibling).height := by
          rw [height_branch, height_branch]
          omega
        have hplug := height_plug_congr ctx hsame
        simp only [plug]
        refine ⟨?_, by omega, by omega⟩
        rw [balanced_plug]
        refine ⟨hbranch.mpr (by omega), ?_⟩
        rwa [hsame, height_branch, hheight]

/-- When the shrinking is not absorbed, some node is left out of balance and
the height does not change. -/
theorem not_balanced_plug_of_not_absorbs {ctx : List (Frame α)} {h : ℕ}
    {t t' : BinaryTree α} (hctx : ContextBalanced ctx (h + 1))
    (hheight : t.height = h + 1) (hheight' : t'.height = h)
    (habsorbs : absorbs ctx h = false) :
    ¬HeightBalanced (plug ctx t') ∧
      (plug ctx t').height = (plug ctx t).height := by
  induction ctx generalizing h t t' with
  | nil => contradiction
  | cons f ctx ih =>
      obtain ⟨hlow, hhigh, hsibling, hrest⟩ := hctx
      rw [absorbs] at habsorbs
      split at habsorbs
      next hlean =>
        rw [show max (h + 1) f.sibling.height + 1 = h + 1 + 1 by omega]
          at hrest
        apply ih hrest _ _ habsorbs
        · rw [height_branch]
          omega
        · rw [height_branch]
          omega
      next hlean =>
        have hlevel : ¬f.sibling.height = h + 1 := by simpa using habsorbs
        have hsame : (branch f.side f.value t' f.sibling).height =
            (branch f.side f.value t f.sibling).height := by
          rw [height_branch, height_branch]
          omega
        refine ⟨?_, height_plug_congr ctx hsame⟩
        simp only [plug]
        rw [balanced_plug, balanced_branch]
        intro hb
        omega

end AvlTree
