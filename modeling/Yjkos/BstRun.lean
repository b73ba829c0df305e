import Yjkos.BstRemove
import Yjkos.TransitionRun

/-!
# The tree as a finite map

Runs of insertions, removals and searches, together with the entries which
were inserted and not removed.  As long as no removal meets a predecessor
with a left subtree, the tree holds exactly these entries; a removal which
does loses the keys of that subtree.
-/

namespace Yjkos
namespace Bst

open AvlTree

/-- The nodes below a pointer in key order, read from memory. -/
def inorderNodes (m : Nodes) : ℕ → Ptr → List ℕ
  | 0, _ => []
  | _ + 1, none => []
  | fuel + 1, some a =>
      inorderNodes m fuel ((m a).children .left) ++
        a :: inorderNodes m fuel ((m a).children .right)

theorem inorderNodes_eq {m : Nodes} {t : BinaryTree ℕ} {parent : Ptr}
    (hlinked : Linked m t parent) {fuel : ℕ} (hfuel : t.height < fuel) :
    inorderNodes m fuel (rootPtr t) = inorder t := by
  induction t generalizing parent fuel with
  | nil => cases fuel <;> rfl
  | node a l r ihl ihr =>
      obtain ⟨fuel, rfl⟩ := Nat.exists_eq_add_one_of_ne_zero
        (by omega : fuel ≠ 0)
      obtain ⟨_, hleft, hright, hl, hr⟩ := hlinked
      rw [BinaryTree.height] at hfuel
      rw [rootPtr, inorderNodes, hleft, hright, ihl hl (by omega),
        ihr hr (by omega), inorder]

/-- The node has two children, and the last node of its left subtree has a
left child. -/
def predecessorHasLeft (fuel : ℕ) (self : Bst) (node : ℕ) : Bool :=
  match (self.nodes node).children .left,
      (self.nodes node).children .right with
  | some l, some _ =>
      match bstMaxOf fuel self.nodes (some l) with
      | .ok (some predecessor) =>
          ((self.nodes predecessor).children .left).isSome
      | _ => false
  | _, _ => false

/-! ## Runs -/

/-- An entry which was inserted and not removed. -/
structure Entry where
  node : ℕ
  key : ℤ
  data : ℕ
deriving DecidableEq, Repr

structure MapState where
  tree : Bst
  live : List Entry

inductive MapOp where
  | insert (node : ℕ) (key : ℤ) (data : ℕ)
  | remove (node : ℕ)
  | find (key : ℤ)
deriving DecidableEq, Repr

namespace MapState

/-- An empty tree, over any memory. -/
structure Empty (s : MapState) : Prop where
  root : s.tree.root = none
  live : s.live = []

/-- Callers insert a node which is not in the tree under a key which is not
in the tree, and remove nodes which are in the tree. -/
def Admits (s : MapState) : MapOp → Prop
  | .insert node key _ =>
      (∀ e ∈ s.live, e.node ≠ node) ∧ ∀ e ∈ s.live, e.key ≠ key
  | .remove node => ∃ e ∈ s.live, e.node = node
  | .find _ => True

/-- One call.  The caller fills a new node with zeros before it inserts it;
`fuel` bounds the loops in terms of the number of entries. -/
def step (fuel : ℕ → ℕ) (s : MapState) : MapOp → Except Fault MapState
  | .insert node key data => do
      let zeroed : Bst :=
        ⟨s.tree.root, Function.update s.tree.nodes node BstNode.zeroed⟩
      let tree ← bstInsertNode (fuel s.live.length) zeroed node key data
      .ok ⟨tree, ⟨node, key, data⟩ :: s.live⟩
  | .remove node => do
      let tree ← bstRemoveNode (fuel s.live.length) s.tree node
      .ok ⟨tree, s.live.filter fun e => e.node ≠ node⟩
  | .find key => do
      let _ ← bstFindNode (fuel s.live.length) s.tree key
      .ok s

/-- Removals do not meet a predecessor with a left child. -/
def AdmitsSafe (fuel : ℕ → ℕ) (s : MapState) (op : MapOp) : Prop :=
  s.Admits op ∧ ∀ node, op = .remove node →
    predecessorHasLeft (fuel s.live.length) s.tree node = false

/-- The tree holds the live entries and nothing else, in key order, and
searches find them. -/
structure Faithful (fuel : ℕ → ℕ) (s : MapState) : Prop where
  sorted : ((inorderNodes s.tree.nodes (fuel s.live.length) s.tree.root).map
    fun a => (s.tree.nodes a).key).Pairwise (· < ·)
  entries : ∀ e : Entry, e ∈ s.live ↔
    e.node ∈ inorderNodes s.tree.nodes (fuel s.live.length) s.tree.root ∧
      (s.tree.nodes e.node).key = e.key ∧
      (s.tree.nodes e.node).data = e.data
  found : ∀ e ∈ s.live,
    bstFindNode (fuel s.live.length) s.tree e.key = .ok (some e.node)
  absent : ∀ key, (∀ e ∈ s.live, e.key ≠ key) →
    bstFindNode (fuel s.live.length) s.tree key = .ok none

/-- The invariant: memory represents a tree of the live nodes. -/
structure Holds (s : MapState) (t : BinaryTree ℕ) : Prop where
  valid : Valid s.tree t
  nodes : (s.live.map Entry.node).Perm (inorder t)
  payload : ∀ e ∈ s.live, (s.tree.nodes e.node).key = e.key ∧
    (s.tree.nodes e.node).data = e.data

variable {fuel : ℕ → ℕ} {s : MapState} {t : BinaryTree ℕ}

theorem Holds.length_eq (hholds : s.Holds t) :
    (inorder t).length = s.live.length := by
  rw [← hholds.nodes.length_eq, List.length_map]

theorem Holds.mem_iff (hholds : s.Holds t) {a : ℕ} :
    a ∈ inorder t ↔ ∃ e ∈ s.live, e.node = a := by
  rw [← hholds.nodes.mem_iff, List.mem_map]

theorem Holds.key_ne (hholds : s.Holds t) {key : ℤ}
    (habsent : ∀ e ∈ s.live, e.key ≠ key) :
    ∀ a ∈ inorder t, (s.tree.nodes a).key ≠ key := by
  intro a ha
  obtain ⟨e, he, rfl⟩ := hholds.mem_iff.mp ha
  rw [(hholds.payload e he).1]
  exact habsent e he

theorem holds_empty (hempty : s.Empty) : s.Holds .nil := by
  refine ⟨⟨hempty.root, trivial, List.Pairwise.nil, ?_, ?_⟩, ?_, ?_⟩
  · simp [inorder]
  · simp [inorder]
  · simp [hempty.live, inorder]
  · simp [hempty.live]

theorem Holds.faithful (hholds : s.Holds t) (hfuel : ∀ n, n + 1 < fuel n) :
    s.Faithful fuel := by
  have hlength : (inorder t).length < fuel s.live.length := by
    have := hfuel s.live.length
    rw [hholds.length_eq]
    omega
  have hheight := height_le_length t
  have hnodes : inorderNodes s.tree.nodes (fuel s.live.length) s.tree.root =
      inorder t := by
    rw [hholds.valid.root]
    exact inorderNodes_eq hholds.valid.linked (by omega)
  refine ⟨?_, ?_, ?_, ?_⟩
  · rw [hnodes, List.pairwise_map]
    exact hholds.valid.sorted
  · intro e
    rw [hnodes, hholds.mem_iff]
    constructor
    · intro he
      exact ⟨⟨e, he, rfl⟩, hholds.payload e he⟩
    · rintro ⟨⟨e', he', hnode⟩, hkey, hdata⟩
      obtain ⟨hkey', hdata'⟩ := hholds.payload e' he'
      rw [hnode] at hkey' hdata'
      obtain rfl : e' = e := by
        cases e
        cases e'
        simp_all
      exact he'
  · intro e he
    have hmem : e.node ∈ inorder t := hholds.mem_iff.mpr ⟨e, he, rfl⟩
    rw [bstFindNode_eq hholds.valid hlength]
    congr 1
    obtain ⟨left, right, hsplit⟩ := List.append_of_mem hmem
    have hsorted := hholds.valid.sorted
    rw [Sorted, hsplit, List.pairwise_append] at hsorted
    have hskip : left.find? (fun a => (s.tree.nodes a).key = e.key) =
        none := by
      rw [List.find?_eq_none]
      intro a ha
      have hlt := hsorted.2.2 a ha e.node List.mem_cons_self
      rw [(hholds.payload e he).1] at hlt
      simpa using hlt.ne
    rw [hsplit, List.find?_append, hskip, List.find?_cons]
    simp [(hholds.payload e he).1]
  · intro key habsent
    rw [bstFindNode_eq hholds.valid hlength]
    congr 1
    rw [List.find?_eq_none]
    intro a ha
    simpa using hholds.key_ne habsent a ha

/-! ## One step -/

theorem Holds.insert (hholds : s.Holds t) (hfuel : ∀ n, n + 1 < fuel n)
    {node : ℕ} {key : ℤ} {data : ℕ}
    (hadmits : s.Admits (.insert node key data)) :
    ∃ s', s.step fuel (.insert node key data) = .ok s' ∧
      s'.Holds (climb (insertPath (fun a => (s.tree.nodes a).key) key t)
        (leaf node)) ∧
      s'.live = ⟨node, key, data⟩ :: s.live := by
  obtain ⟨hfresh, habsent⟩ := hadmits
  have hnot : node ∉ inorder t := by
    rw [hholds.mem_iff]
    rintro ⟨e, he, heq⟩
    exact hfresh e he heq
  have hsame : ∀ a ∈ inorder t,
      Function.update s.tree.nodes node BstNode.zeroed a =
        s.tree.nodes a := by
    intro a ha
    have hne : a ≠ node := fun h => hnot (h ▸ ha)
    simp [hne]
  have hvalid : Valid ⟨s.tree.root,
      Function.update s.tree.nodes node BstNode.zeroed⟩ t :=
    Valid.congr hholds.valid hsame
  have hlength : (inorder t).length + 1 < fuel s.live.length := by
    rw [hholds.length_eq]
    exact hfuel _
  have habsent' : ∀ a ∈ inorder t,
      (Function.update s.tree.nodes node BstNode.zeroed a).key ≠ key := by
    intro a ha
    rw [hsame a ha]
    exact hholds.key_ne habsent a ha
  obtain ⟨b', hinsert, hvalid', hpayload⟩ := bstInsertNode_valid hvalid hnot
    (by simp [BstNode.zeroed]) habsent' data hlength
  have hpath : insertPath (fun a => (Function.update s.tree.nodes node
      BstNode.zeroed a).key) key t =
      insertPath (fun a => (s.tree.nodes a).key) key t :=
    insertPath_congr fun a ha => by rw [hsame a ha]
  rw [hpath] at hvalid'
  refine ⟨⟨b', ⟨node, key, data⟩ :: s.live⟩, ?_, ⟨hvalid', ?_, ?_⟩, rfl⟩
  · simp only [step, hinsert, ok_bind]
  · have hplug := plug_insertPath (fun a => (s.tree.nodes a).key) key t
    have hnodes := hholds.nodes
    rw [← hplug, inorder_plug, inorder, List.append_nil] at hnodes
    simp only [List.map_cons, inorder_climb, leaf, inorder,
      List.nil_append, List.append_assoc, List.cons_append]
    exact (hnodes.cons node).trans List.perm_middle.symm
  · intro e he
    rcases List.mem_cons.mp he with rfl | he
    · simp only [hpayload.key, hpayload.data, filledNodes_self, and_self]
    · have hne : e.node ≠ node := hfresh e he
      simp only [hpayload.key, hpayload.data, filledNodes_of_ne hne,
        Function.update_of_ne hne]
      exact hholds.payload e he

/-- The predecessor of a removed node with two children is a leaf of the
left subtree when it has no left child. -/
theorem below_eq_nil {b : Bst} {ctx path : List (Frame ℕ)} {node y n : ℕ}
    {below r : BinaryTree ℕ}
    (hvalid : Valid b (plug ctx
      (.node node (plug path (.node y below .nil)) r)))
    (hafter : after path = []) (hright : r ≠ .nil)
    (hfuel : (inorder (plug ctx
      (.node node (plug path (.node y below .nil)) r))).length < n)
    (hsafe : predecessorHasLeft n b node = false) : below = .nil := by
  obtain ⟨hmax, hleft, _⟩ := hvalid.predecessor hafter hfuel
  have hsub := (linked_plug.mp hvalid.linked).1
  have hchild_left : (b.nodes node).children .left ≠ none := by
    rw [hsub.2.1, Ne, rootPtr_eq_none]
    intro hnil
    have hlen := congrArg (fun t => (inorder t).length) hnil
    simp [inorder_plug, inorder] at hlen
  have hchild_right : (b.nodes node).children .right ≠ none := by
    rw [hsub.2.2.1, Ne, rootPtr_eq_none]
    exact hright
  obtain ⟨l', hl'⟩ := Option.ne_none_iff_exists'.mp hchild_left
  obtain ⟨r', hr'⟩ := Option.ne_none_iff_exists'.mp hchild_right
  rw [hl'] at hmax
  simp only [predecessorHasLeft, hl', hr', hmax, hleft] at hsafe
  rw [← rootPtr_eq_none]
  simpa using hsafe

theorem Holds.remove_valid {ctx : List (Frame ℕ)} {node : ℕ}
    {l r : BinaryTree ℕ} (hholds : s.Holds (plug ctx (.node node l r)))
    (hfuel : ∀ n, n + 1 < fuel n) :
    ∃ b', s.step fuel (.remove node) =
        .ok ⟨b', s.live.filter fun e => e.node ≠ node⟩ ∧
      Valid b' (climb ctx (joined l r)) ∧
      SamePayload s.tree.nodes b'.nodes := by
  have hlength : (inorder (plug ctx (.node node l r))).length <
      fuel s.live.length := by
    have := hfuel s.live.length
    rw [hholds.length_eq]
    omega
  obtain ⟨b', hremove, hvalid', hpayload⟩ :=
    bstRemoveNode_valid hholds.valid hlength
  refine ⟨b', ?_, hvalid', hpayload⟩
  simp only [step, hremove, ok_bind]

theorem Holds.remove (hholds : s.Holds t) (hfuel : ∀ n, n + 1 < fuel n)
    {node : ℕ} (hadmits : s.Admits (.remove node))
    (hsafe : predecessorHasLeft (fuel s.live.length) s.tree node = false) :
    ∃ s' t', s.step fuel (.remove node) = .ok s' ∧ s'.Holds t' := by
  have hmem : node ∈ inorder t := hholds.mem_iff.mpr hadmits
  have hlength : (inorder t).length < fuel s.live.length := by
    have := hfuel s.live.length
    rw [hholds.length_eq]
    omega
  obtain ⟨ctx, l, r, rfl⟩ := exists_plug_of_mem hmem
  obtain ⟨b', hstep, hvalid', hpayload⟩ := hholds.remove_valid hfuel
  have hjoined : inorder (joined l r) = inorder l ++ inorder r := by
    apply inorder_joined
    rintro path y below _ hright rfl hafter
    exact below_eq_nil hholds.valid hafter hright hlength hsafe
  refine ⟨_, climb ctx (joined l r), hstep, hvalid', ?_, ?_⟩
  · -- dropping the entry is dropping the node from the list of nodes
    have hnodup := hholds.valid.sorted.nodup
    have horder : inorder (plug ctx (.node node l r)) =
        (before ctx ++ inorder l) ++ node :: (inorder r ++ after ctx) := by
      simp [inorder_plug, inorder]
    rw [horder] at hnodup
    have hperm := List.perm_middle.nodup_iff.mp hnodup
    rw [List.nodup_cons] at hperm
    have hfilter : ((before ctx ++ inorder l) ++
        node :: (inorder r ++ after ctx)).filter (fun a => a ≠ node) =
        (before ctx ++ inorder l) ++ (inorder r ++ after ctx) := by
      rw [List.filter_append, List.filter_cons_of_neg (by simp),
        ← List.filter_append, List.filter_eq_self]
      intro a ha
      simp only [decide_eq_true_eq]
      rintro rfl
      exact hperm.1 ha
    have hnodes := hholds.nodes.filter fun a => a ≠ node
    rw [horder, hfilter, List.filter_map] at hnodes
    rw [inorder_climb, hjoined]
    simpa [Function.comp_def] using hnodes
  · intro e he
    simp only [hpayload.key, hpayload.data]
    exact hholds.payload e (List.mem_of_mem_filter he)

theorem Holds.step (hholds : s.Holds t) (hfuel : ∀ n, n + 1 < fuel n)
    {op : MapOp} (hadmits : s.AdmitsSafe fuel op) :
    ∃ s' t', s.step fuel op = .ok s' ∧ s'.Holds t' := by
  obtain ⟨hadmits, hsafe⟩ := hadmits
  cases op with
  | insert node key data =>
      obtain ⟨s', hstep, hholds', _⟩ := hholds.insert hfuel hadmits
      exact ⟨s', _, hstep, hholds'⟩
  | remove node => exact hholds.remove hfuel hadmits (hsafe node rfl)
  | find key =>
      have hlength : (inorder t).length < fuel s.live.length := by
        have := hfuel s.live.length
        rw [hholds.length_eq]
        omega
      refine ⟨s, t, ?_, hholds⟩
      simp only [MapState.step, bstFindNode_eq hholds.valid hlength, ok_bind]

end MapState

/-! ## Whole runs -/

/-- In every run whose removals do not meet a predecessor with a left child,
the tree is the finite map of the live entries, and no call fails. -/
theorem map_faithful_of_reachable {fuel : ℕ → ℕ}
    (hfuel : ∀ n, n + 1 < fuel n) {s : MapState}
    (hreach : TransitionRun.Reachable MapState.Empty
      (MapState.AdmitsSafe fuel) (MapState.step fuel) s) :
    s.Faithful fuel ∧
      ∀ op, s.AdmitsSafe fuel op → ∃ s', s.step fuel op = .ok s' := by
  have hinv : ∃ t, s.Holds t := by
    apply TransitionRun.Reachable.invariant _ _ hreach
    · exact fun s hs => ⟨_, MapState.holds_empty hs⟩
    · rintro s op s' ⟨t, hholds⟩ hadmits hstep
      obtain ⟨s₁, t₁, hstep₁, hholds₁⟩ := hholds.step hfuel hadmits
      rw [hstep, Except.ok.injEq] at hstep₁
      exact ⟨t₁, hstep₁ ▸ hholds₁⟩
  obtain ⟨t, hholds⟩ := hinv
  refine ⟨hholds.faithful hfuel, ?_⟩
  intro op hadmits
  obtain ⟨s', _, hstep, _⟩ := hholds.step hfuel hadmits
  exact ⟨s', hstep⟩

/-- Fuel which is just enough. -/
def enoughFuel (n : ℕ) : ℕ := n + 2

theorem lt_enoughFuel (n : ℕ) : n + 1 < enoughFuel n :=
  Nat.lt_succ_self _

/-! ## Runs over numbered nodes -/

/-- Nodes at the addresses 1, 2, ... which have their address as key. -/
def MapState.Numbered (s : MapState) (t : BinaryTree ℕ) : Prop :=
  s.Holds t ∧ ∀ e ∈ s.live, e.key = (e.node : ℤ)

section Numbered

variable {admits : MapState → MapOp → Prop}

theorem MapState.Numbered.insert
    (hinserts : ∀ s node key data, s.Admits (.insert node key data) →
      admits s (.insert node key data))
    {s : MapState} {t : BinaryTree ℕ}
    (hnumbered : s.Numbered t) {n : ℕ} (hn : n ∉ inorder t)
    (hreach : TransitionRun.Reachable MapState.Empty admits
      (MapState.step enoughFuel) s) :
    ∃ s', s'.Numbered (climb (insertPath Nat.cast n t) (leaf n)) ∧
      TransitionRun.Reachable MapState.Empty admits
        (MapState.step enoughFuel) s' := by
  obtain ⟨hholds, hkeys⟩ := hnumbered
  have hfresh : ∀ e ∈ s.live, e.node ≠ n := fun e he heq =>
    hn (hholds.mem_iff.mpr ⟨e, he, heq⟩)
  have hadmits : s.Admits (.insert n n 0) := by
    refine ⟨hfresh, ?_⟩
    intro e he
    rw [hkeys e he]
    exact_mod_cast hfresh e he
  obtain ⟨s', hstep, hholds', hlive⟩ := hholds.insert lt_enoughFuel hadmits
  have hpath : insertPath (fun a => (s.tree.nodes a).key) (n : ℤ) t =
      insertPath Nat.cast n t := by
    apply insertPath_congr
    intro a ha
    obtain ⟨e, he, rfl⟩ := hholds.mem_iff.mp ha
    rw [(hholds.payload e he).1, hkeys e he]
  rw [hpath] at hholds'
  refine ⟨s', ⟨hholds', ?_⟩,
    hreach.next (hinserts s n n 0 hadmits) hstep⟩
  intro e he
  rw [hlive] at he
  rcases List.mem_cons.mp he with rfl | he
  · rfl
  · exact hkeys e he

theorem exists_numbered_nil :
    ∃ s, MapState.Numbered s .nil ∧
      TransitionRun.Reachable MapState.Empty admits
        (MapState.step enoughFuel) s :=
  ⟨⟨⟨none, fun _ => BstNode.zeroed⟩, []⟩,
    ⟨MapState.holds_empty ⟨rfl, rfl⟩, by simp⟩, .start ⟨rfl, rfl⟩⟩

/-- The tree after the insertion of 4, 2, 6, 1 and 3: the predecessor of 4 is
deep in its left subtree and has no child. -/
def fiveNodes : BinaryTree ℕ :=
  .node 4 (.node 2 (leaf 1) (leaf 3)) (leaf 6)

theorem exists_numbered_fiveNodes
    (hinserts : ∀ s node key data, s.Admits (.insert node key data) →
      admits s (.insert node key data)) :
    ∃ s, MapState.Numbered s fiveNodes ∧
      TransitionRun.Reachable MapState.Empty admits
        (MapState.step enoughFuel) s := by
  obtain ⟨s₀, h₀, hreach₀⟩ := @exists_numbered_nil admits
  obtain ⟨s₁, h₁, hreach₁⟩ := h₀.insert hinserts (n := 4) (by decide) hreach₀
  obtain ⟨s₂, h₂, hreach₂⟩ := h₁.insert hinserts (n := 2) (by decide) hreach₁
  obtain ⟨s₃, h₃, hreach₃⟩ := h₂.insert hinserts (n := 6) (by decide) hreach₂
  obtain ⟨s₄, h₄, hreach₄⟩ := h₃.insert hinserts (n := 1) (by decide) hreach₃
  obtain ⟨s₅, h₅, hreach₅⟩ := h₄.insert hinserts (n := 3) (by decide) hreach₄
  exact ⟨s₅, h₅, hreach₅⟩

variable {s : MapState}

theorem MapState.Numbered.live_length (hnumbered : s.Numbered fiveNodes) :
    s.live.length = 5 := by
  rw [← hnumbered.1.length_eq]
  rfl

/-- The root may be removed: it has two children, and its predecessor has no
left child. -/
theorem MapState.Numbered.admitsSafe (hnumbered : s.Numbered fiveNodes) :
    s.AdmitsSafe enoughFuel (.remove 4) := by
  refine ⟨hnumbered.1.mem_iff.mp (by decide), ?_⟩
  rintro node ⟨⟩
  obtain ⟨-, hleft, hright, ⟨-, -, hmiddle, -, -, hlast, hend, -⟩, -⟩ :=
    hnumbered.1.valid.linked
  simp only [leaf, rootPtr] at hleft hright hmiddle hlast hend
  simp [predecessorHasLeft, hnumbered.live_length, enoughFuel, bstMaxOf,
    extremeLoop, hleft, hright, hmiddle, hlast, hend]

theorem MapState.Numbered.nodes_fiveNodes (hnumbered : s.Numbered fiveNodes) :
    inorderNodes s.tree.nodes 7 s.tree.root = [1, 2, 3, 4, 6] := by
  have hvalid := hnumbered.1.valid
  rw [hvalid.root, inorderNodes_eq hvalid.linked (by decide)]
  rfl

/-- The predecessor 3 takes the place of the root. -/
theorem MapState.Numbered.remove_root (hnumbered : s.Numbered fiveNodes) :
    ∃ s', s.step enoughFuel (.remove 4) = .ok s' ∧
      s'.live.length ≤ s.live.length ∧
      inorderNodes s'.tree.nodes 7 s'.tree.root = [1, 2, 3, 6] := by
  have hplug : s.Holds (plug [] fiveNodes) := hnumbered.1
  obtain ⟨b', hstep, hvalid', -⟩ := hplug.remove_valid lt_enoughFuel
  have htree : Valid b' (.node 3 (.node 2 (leaf 1) .nil) (leaf 6)) := hvalid'
  refine ⟨_, hstep, List.length_filter_le _ _, ?_⟩
  rw [htree.root, inorderNodes_eq htree.linked (by decide)]
  rfl

end Numbered

/-- The theorem for a run over five nodes and the removal of the root, which
has two children. -/
theorem map_faithful_of_removal :
    ∃ s s' : MapState, s.AdmitsSafe enoughFuel (.remove 4) ∧
      inorderNodes s.tree.nodes 7 s.tree.root = [1, 2, 3, 4, 6] ∧
      (s.tree.nodes 4).children .left = some 2 ∧
      (s.tree.nodes 4).children .right = some 6 ∧
      s.Faithful enoughFuel ∧
      s.step enoughFuel (.remove 4) = .ok s' ∧
      inorderNodes s'.tree.nodes 7 s'.tree.root = [1, 2, 3, 6] ∧
      s'.Faithful enoughFuel := by
  obtain ⟨s, hnumbered, hreach⟩ :=
    @exists_numbered_fiveNodes (MapState.AdmitsSafe enoughFuel)
      fun _ _ _ _ hadmits => ⟨hadmits, by simp⟩
  obtain ⟨-, hleft, hright, -⟩ := hnumbered.1.valid.linked
  obtain ⟨s', hstep, -, hnodes⟩ := hnumbered.remove_root
  have hreach' := hreach.next hnumbered.admitsSafe hstep
  exact ⟨s, s', hnumbered.admitsSafe, hnumbered.nodes_fiveNodes, hleft,
    hright, (map_faithful_of_reachable lt_enoughFuel hreach).1, hstep,
    hnodes, (map_faithful_of_reachable lt_enoughFuel hreach').1⟩

/-! ## A run which loses a key -/

/-- Keys 3, 2, 4 and 1 are inserted and 3 is removed: its predecessor 2 has
the left child 1, which is lost. -/
theorem removal_loses_key :
    ∃ s, TransitionRun.Reachable MapState.Empty MapState.Admits
        (MapState.step enoughFuel) s ∧
      ¬s.Faithful enoughFuel := by
  have hinserts : ∀ (s : MapState) node key data,
      s.Admits (.insert node key data) → s.Admits (.insert node key data) :=
    fun _ _ _ _ hadmits => hadmits
  obtain ⟨s₀, h₀, hreach₀⟩ := exists_numbered_nil
  obtain ⟨s₁, h₁, hreach₁⟩ := h₀.insert hinserts (n := 3) (by decide) hreach₀
  obtain ⟨s₂, h₂, hreach₂⟩ := h₁.insert hinserts (n := 2) (by decide) hreach₁
  obtain ⟨s₃, h₃, hreach₃⟩ := h₂.insert hinserts (n := 4) (by decide) hreach₂
  obtain ⟨s₄, h₄, hreach₄⟩ := h₃.insert hinserts (n := 1) (by decide) hreach₃
  have htree : MapState.Numbered s₄ (plug []
      (.node 3 (.node 2 (leaf 1) .nil) (leaf 4))) := h₄
  obtain ⟨hholds, hkeys⟩ := htree
  have hmem : ∀ a ∈ [1, 2, 3, 4], ∃ e ∈ s₄.live, e.node = a := by
    intro a ha
    apply hholds.mem_iff.mp
    simp only [plug, leaf, inorder, List.mem_append, List.mem_cons] at ha ⊢
    tauto
  have hadmits : s₄.Admits (.remove 3) := hmem 3 (by simp)
  obtain ⟨b', hstep, hvalid, hpayload⟩ :=
    hholds.remove_valid lt_enoughFuel
  refine ⟨_, hreach₄.next hadmits hstep, ?_⟩
  intro hfaithful
  obtain ⟨e, he, hnode⟩ := hmem 1 (by simp)
  have hlive : e ∈ s₄.live.filter fun e => e.node ≠ 3 := by
    rw [List.mem_filter]
    exact ⟨he, by simp [hnode]⟩
  have hfound := hfaithful.found e hlive
  have hpos := List.length_pos_of_mem hlive
  have hlength : (inorder (.node 2 .nil (leaf 4))).length <
      enoughFuel (s₄.live.filter fun e => e.node ≠ 3).length := by
    simp only [inorder, leaf, List.length_append, List.length_cons,
      List.length_nil, enoughFuel]
    omega
  have hvalid' : Valid b' (.node 2 .nil (leaf 4)) := hvalid
  rw [bstFindNode_eq hvalid' hlength, Except.ok.injEq, hnode] at hfound
  have hin := List.mem_of_find?_eq_some hfound
  simp [inorder, leaf] at hin

end Bst
end Yjkos
