import Yjkos.BstRebalance

/-!
# Insertion, search and removal

What the three operations do to the tree which memory represents.  Removal of
a node with two children puts the last node of its left subtree in its place
and cuts off whatever hangs below that node.
-/

namespace Yjkos
namespace Bst

open AvlTree BinaryTree

/-! ## Search -/

theorem findLoop_eq {m : Nodes} {t : BinaryTree ℕ} {parent : Ptr}
    (hlinked : Linked m t parent) (hsorted : Sorted m t) {key : ℤ}
    {fuel : ℕ} (hfuel : t.height < fuel) :
    findLoop m key fuel (rootPtr t) =
      .ok ((inorder t).find? fun a => (m a).key = key) := by
  induction t generalizing parent fuel with
  | nil =>
      obtain ⟨fuel, rfl⟩ := Nat.exists_eq_add_one_of_ne_zero
        (by omega : fuel ≠ 0)
      rfl
  | node a l r ihl ihr =>
      obtain ⟨fuel, rfl⟩ := Nat.exists_eq_add_one_of_ne_zero
        (by omega : fuel ≠ 0)
      obtain ⟨_, hleft, hright, hl, hr⟩ := hlinked
      rw [height] at hfuel
      rw [Sorted, inorder, List.pairwise_append, List.pairwise_cons] at hsorted
      obtain ⟨hsl, ⟨har, hsr⟩, hcross⟩ := hsorted
      have hlow : ∀ b ∈ inorder l, (m b).key < (m a).key :=
        fun b hb => hcross b hb a List.mem_cons_self
      rw [rootPtr, findLoop, inorder, List.find?_append, List.find?_cons]
      by_cases hlt : key < (m a).key
      · rw [if_pos hlt, hleft, ihl hl hsl (by omega)]
        have hrest : (inorder r).find? (fun b => (m b).key = key) = none := by
          rw [List.find?_eq_none]
          intro b hb
          have hgt := har b hb
          simp only [decide_eq_true_eq]
          omega
        have ha : ¬(m a).key = key := by omega
        simp [ha, hrest]
      · have hskip : (inorder l).find? (fun b => (m b).key = key) = none := by
          rw [List.find?_eq_none]
          intro b hb
          have hgt := hlow b hb
          simp only [decide_eq_true_eq]
          omega
        rw [if_neg hlt, hskip]
        by_cases hgt : key > (m a).key
        · have ha : ¬(m a).key = key := by omega
          rw [if_pos hgt, hright, ihr hr hsr (by omega)]
          simp [ha]
        · have ha : (m a).key = key := by omega
          rw [if_neg hgt]
          simp [ha]

/-- `bst_find_node` finds the node with the key. -/
theorem bstFindNode_eq {b : Bst} {t : BinaryTree ℕ} (hvalid : Valid b t)
    {fuel : ℕ} (hfuel : (inorder t).length < fuel) (key : ℤ) :
    bstFindNode fuel b key =
      .ok ((inorder t).find? fun a => (b.nodes a).key = key) := by
  have hheight := height_le_length t
  have hloop : findLoop b.nodes key fuel (rootPtr t) = _ :=
    findLoop_eq hvalid.linked hvalid.sorted (by omega)
  rw [bstFindNode, hvalid.checkTree hfuel, ok_bind, hvalid.root, hloop,
    ok_bind, hvalid.checkTree hfuel]
  rfl

/-! ## Insertion -/

/-- The place which a context ends in, as the source keeps it. -/
def placeOf (place : Option (ℕ × Dir)) : List (Frame ℕ) → Option (ℕ × Dir)
  | [] => place
  | f :: _ => some (f.value, f.side)

theorem placeOf_append (place : Option (ℕ × Dir)) (inner : List (Frame ℕ))
    (f : Frame ℕ) :
    placeOf place (inner ++ [f]) = placeOf (some (f.value, f.side)) inner := by
  cases inner <;> rfl

/-- The path from the empty place of a key to the root. -/
def insertPath (keyOf : ℕ → ℤ) (key : ℤ) : BinaryTree ℕ → List (Frame ℕ)
  | .nil => []
  | .node a l r =>
      if key < keyOf a then insertPath keyOf key l ++ [⟨.left, a, r⟩]
      else insertPath keyOf key r ++ [⟨.right, a, l⟩]

theorem plug_insertPath (keyOf : ℕ → ℤ) (key : ℤ) (t : BinaryTree ℕ) :
    plug (insertPath keyOf key t) .nil = t := by
  induction t with
  | nil => rfl
  | node a l r ihl ihr =>
      rw [insertPath]
      split
      · rw [plug_append, ihl]
        rfl
      · rw [plug_append, ihr]
        rfl

theorem insertPath_congr {keyOf keyOf' : ℕ → ℤ} {key : ℤ}
    {t : BinaryTree ℕ} (hsame : ∀ a ∈ inorder t, keyOf' a = keyOf a) :
    insertPath keyOf' key t = insertPath keyOf key t := by
  induction t with
  | nil => rfl
  | node a l r ihl ihr =>
      rw [insertPath, insertPath, hsame a (by simp [inorder]),
        ihl fun b hb => hsame b (by simp [inorder, hb]),
        ihr fun b hb => hsame b (by simp [inorder, hb])]

/-- The search for an absent key ends in the empty subtree where it
belongs. -/
theorem insertLoop_eq {m : Nodes} {t : BinaryTree ℕ} {parent : Ptr}
    (hlinked : Linked m t parent) (hsorted : Sorted m t) {key : ℤ}
    (habsent : ∀ a ∈ inorder t, (m a).key ≠ key) {fuel : ℕ}
    (hfuel : t.height < fuel) (place : Option (ℕ × Dir)) :
    insertLoop m key fuel (rootPtr t) place =
        .ok (placeOf place (insertPath (fun a => (m a).key) key t)) ∧
      (∀ a ∈ before (insertPath (fun a => (m a).key) key t),
        (m a).key < key) ∧
      ∀ a ∈ after (insertPath (fun a => (m a).key) key t),
        key < (m a).key := by
  induction t generalizing parent fuel place with
  | nil =>
      obtain ⟨fuel, rfl⟩ := Nat.exists_eq_add_one_of_ne_zero
        (by omega : fuel ≠ 0)
      exact ⟨rfl, by simp [insertPath, before], by simp [insertPath, after]⟩
  | node a l r ihl ihr =>
      obtain ⟨fuel, rfl⟩ := Nat.exists_eq_add_one_of_ne_zero
        (by omega : fuel ≠ 0)
      obtain ⟨_, hleft, hright, hl, hr⟩ := hlinked
      rw [height] at hfuel
      rw [Sorted, inorder, List.pairwise_append, List.pairwise_cons] at hsorted
      obtain ⟨hsl, ⟨har, hsr⟩, hcross⟩ := hsorted
      have hne := habsent a (by simp [inorder])
      rw [rootPtr, insertLoop, insertPath]
      by_cases hlt : key < (m a).key
      · obtain ⟨hloop, hbefore, hafter⟩ := ihl hl hsl
          (fun b hb => habsent b (by simp [inorder, hb]))
          (by omega : l.height < fuel) (some (a, .left))
        rw [if_pos hlt, if_pos hlt]
        refine ⟨?_, ?_, ?_⟩
        · rw [hleft, hloop, placeOf_append]
        · intro b hb
          rw [before_append] at hb
          exact hbefore b (by simpa [before, Frame.before] using hb)
        · intro b hb
          rw [after_append, List.mem_append] at hb
          rcases hb with hb | hb
          · exact hafter b hb
          · simp only [after, Frame.after, List.append_nil,
              List.mem_cons] at hb
            rcases hb with rfl | hb
            · exact hlt
            · exact hlt.trans (har b hb)
      · have hgt : key > (m a).key := by omega
        obtain ⟨hloop, hbefore, hafter⟩ := ihr hr hsr
          (fun b hb => habsent b (by simp [inorder, hb]))
          (by omega : r.height < fuel) (some (a, .right))
        rw [if_neg hlt, if_pos hgt, if_neg hlt]
        refine ⟨?_, ?_, ?_⟩
        · rw [hright, hloop, placeOf_append]
        · intro b hb
          rw [before_append, List.mem_append] at hb
          rcases hb with hb | hb
          · simp only [before, Frame.before, List.nil_append,
              List.mem_append, List.mem_singleton] at hb
            rcases hb with hb | rfl
            · exact (hcross b hb a List.mem_cons_self).trans hgt
            · exact hgt
          · exact hbefore b hb
        · intro b hb
          rw [after_append] at hb
          exact hafter b (by simpa [after, Frame.after] using hb)

/-- The memory after the fields of the new node have been filled in. -/
def filledNodes (m : Nodes) (node : ℕ) (key : ℤ) (data : ℕ) : Nodes :=
  Function.update m node
    { m node with
      children := fun _ => none, bf := 0, data := data, key := key }

section Filled

variable {m : Nodes} {node : ℕ} {key : ℤ} {data : ℕ}

theorem filledNodes_self :
    filledNodes m node key data node = { m node with
      children := fun _ => none, bf := 0, data := data, key := key } := by
  simp [filledNodes]

theorem filledNodes_of_ne {a : ℕ} (ha : a ≠ node) :
    filledNodes m node key data a = m a := by
  simp [filledNodes, ha]

theorem Valid.filled {root : Ptr} {t : BinaryTree ℕ}
    (hvalid : Valid ⟨root, m⟩ t) (hfresh : node ∉ inorder t) :
    Valid ⟨root, filledNodes m node key data⟩ t := by
  apply hvalid.congr
  intro a ha
  exact filledNodes_of_ne fun h => hfresh (h ▸ ha)

end Filled

/-- A tree with one node. -/
def leaf (a : ℕ) : BinaryTree ℕ := .node a .nil .nil

theorem linked_insert {m : Nodes} {ctx : List (Frame ℕ)} {node : ℕ}
    (hlinked : Linked m (plug ctx .nil) none)
    (hnodup : (inorder (plug ctx .nil)).Nodup)
    (hfresh : node ∉ outside ctx)
    (hchildren : (m node).children = fun _ => none) :
    Linked ((relink m ctx (some node)).setParent node (parentPtr ctx))
      (plug ctx (leaf node)) none := by
  have hctx := (linked_plug.mp hlinked).2
  have hout := (nodup_outside hnodup).2.1
  have hspine : node ∉ spine ctx :=
    fun h => hfresh (spine_subset_outside ctx _ h)
  rw [linked_plug]
  refine ⟨⟨?_, ?_, ?_, trivial, trivial⟩, ?_⟩
  · simp
  · simp [relink_children hspine, hchildren, rootPtr]
  · simp [relink_children hspine, hchildren, rootPtr]
  · apply (contextLinked_relink hctx hout (some node)).congr
    intro c hc
    have hne : c ≠ node := fun h => hfresh (h ▸ hc)
    simp [SameLinks, hne]

theorem sorted_insert {m : Nodes} {ctx : List (Frame ℕ)} {node : ℕ}
    (hsorted : Sorted m (plug ctx .nil))
    (hbefore : ∀ a ∈ before ctx, (m a).key < (m node).key)
    (hafter : ∀ a ∈ after ctx, (m node).key < (m a).key) :
    Sorted m (plug ctx (leaf node)) := by
  rw [Sorted, inorder_plug, inorder, List.append_nil,
    List.pairwise_append] at hsorted
  obtain ⟨hleft, hright, hcross⟩ := hsorted
  have horder : inorder (plug ctx (leaf node)) =
      before ctx ++ node :: after ctx := by
    simp [inorder_plug, leaf, inorder]
  rw [Sorted, horder, List.pairwise_append, List.pairwise_cons]
  refine ⟨hleft, ⟨hafter, hright⟩, ?_⟩
  intro a ha c hc
  rcases List.mem_cons.mp hc with rfl | hc
  · exact hbefore a ha
  · exact hcross a ha c hc

/-- The memory after the new node has been hung into its place. -/
def hungNodes (m : Nodes) (ctx : List (Frame ℕ)) (node : ℕ) (key : ℤ)
    (data : ℕ) : Nodes :=
  (relink (filledNodes m node key data) ctx (some node)).setParent node
    (parentPtr ctx)

theorem hungNodes_sameValues (m : Nodes) (ctx : List (Frame ℕ)) (node : ℕ)
    (key : ℤ) (data : ℕ) :
    SameValues (filledNodes m node key data) (hungNodes m ctx node key data) :=
  (relink_sameValues _ ctx (some node)).trans
    (setParent_sameValues _ node (parentPtr ctx))

theorem hungNodes_children {m : Nodes} {ctx : List (Frame ℕ)} {node : ℕ}
    {key : ℤ} {data a : ℕ} (ha : a ∉ spine ctx) :
    (hungNodes m ctx node key data a).children =
      (filledNodes m node key data a).children := by
  rw [hungNodes, setParent_children, relink_children ha]

/-- Where the search for an absent key ends, and the tree after the new node
has been hung in there. -/
structure HangsIn (b : Bst) (fuel node : ℕ) (key : ℤ) (data : ℕ)
    (ctx : List (Frame ℕ)) : Prop where
  place : insertLoop (filledNodes b.nodes node key data) key fuel b.root
    none = .ok (placeOf none ctx)
  outside : node ∉ outside ctx
  linked : Linked (hungNodes b.nodes ctx node key data)
    (plug ctx (leaf node)) none
  sorted : Sorted (hungNodes b.nodes ctx node key data) (plug ctx (leaf node))
  length : (inorder (plug ctx (leaf node))).length < fuel

theorem HangsIn.off_spine {b : Bst} {fuel node : ℕ} {key : ℤ} {data : ℕ}
    {ctx : List (Frame ℕ)} (h : HangsIn b fuel node key data ctx) :
    node ∉ spine ctx :=
  fun hmem => h.outside (spine_subset_outside ctx _ hmem)

theorem Valid.hangsIn {b : Bst} {t : BinaryTree ℕ} (hvalid : Valid b t)
    {node : ℕ} (hfresh : node ∉ inorder t) {key : ℤ}
    (habsent : ∀ a ∈ inorder t, (b.nodes a).key ≠ key) (data : ℕ)
    {fuel : ℕ} (hfuel : (inorder t).length + 1 < fuel)
    {ctx : List (Frame ℕ)}
    (hctx : insertPath (fun a => (b.nodes a).key) key t = ctx) :
    HangsIn b fuel node key data ctx := by
  have hfilled : Valid ⟨b.root, filledNodes b.nodes node key data⟩ t :=
    Valid.filled hvalid hfresh
  have hnode : filledNodes b.nodes node key data node = _ := filledNodes_self
  have hheight := height_le_length t
  have habsent' : ∀ a ∈ inorder t,
      (filledNodes b.nodes node key data a).key ≠ key := by
    intro a ha
    have hne : a ≠ node := fun h => hfresh (h ▸ ha)
    rw [filledNodes_of_ne hne]
    exact habsent a ha
  obtain ⟨hloop, hbefore, hafter⟩ := insertLoop_eq hfilled.linked
    hfilled.sorted habsent' (by omega : t.height < fuel) none
  have hpath : insertPath
      (fun a => (filledNodes b.nodes node key data a).key) key t = ctx := by
    rw [← hctx]
    apply insertPath_congr
    intro a ha
    have hne : a ≠ node := fun h => hfresh (h ▸ ha)
    rw [filledNodes_of_ne hne]
  rw [hpath, ← hvalid.root] at hloop
  rw [hpath] at hbefore hafter
  obtain rfl : plug ctx .nil = t := by
    rw [← hctx]
    exact plug_insertPath _ key t
  have hout : node ∉ outside ctx := by
    rw [(inorder_plug_perm ctx .nil).mem_iff] at hfresh
    exact fun h => hfresh (List.mem_append_right _ h)
  have hkey : (filledNodes b.nodes node key data node).key = key :=
    congrArg BstNode.key hnode
  refine ⟨hloop, hout, ?_, ?_, ?_⟩
  · exact linked_insert hfilled.linked hfilled.sorted.nodup hout
      (congrArg BstNode.children hnode)
  · exact (hungNodes_sameValues _ ctx node key data).sorted
      (sorted_insert hfilled.sorted
        (fun a ha => (hbefore a ha).trans_eq hkey.symm)
        (fun a ha => hkey.trans_lt (hafter a ha)))
  · simp only [inorder_plug, leaf, inorder, List.length_append,
      List.length_cons, List.length_nil] at hfuel ⊢
    omega

theorem HangsIn.unbalenced_eq {b : Bst} {t : BinaryTree ℕ} {fuel node : ℕ}
    {key : ℤ} {data : ℕ} {ctx : List (Frame ℕ)} (hvalid : Valid b t)
    (hfuel : (inorder t).length < fuel)
    (h : HangsIn b fuel node key data ctx) :
    bstInsertNodeUnbalenced fuel b node key data =
      recalculateFrom fuel (hungNodes b.nodes ctx node key data)
          (parentPtr ctx) >>= fun m =>
        checkTree fuel ⟨relinkRoot b.root ctx (some node), m⟩ false
            ⟨false, false⟩ >>= fun _ =>
          .ok ⟨relinkRoot b.root ctx (some node), m⟩ := by
  have hplace := h.place
  unfold filledNodes at hplace
  rw [bstInsertNodeUnbalenced, hvalid.checkTree hfuel, ok_bind]
  simp only [hplace, ok_bind]
  cases ctx with
  | nil => rfl
  | cons f ctx =>
      have hself : ∀ m : Nodes, ((m.setChild f.value f.side
          (some node)).setParent node (some f.value) node).parent =
          some f.value := by simp
      simp only [placeOf, hself]
      rfl

theorem bstInsertNodeUnbalenced_valid {b : Bst} {t : BinaryTree ℕ}
    (hvalid : Valid b t) {node : ℕ} (hfresh : node ∉ inorder t)
    (hzero : (b.nodes node).height = 0) {key : ℤ}
    (habsent : ∀ a ∈ inorder t, (b.nodes a).key ≠ key) (data : ℕ)
    {fuel : ℕ} (hfuel : (inorder t).length + 1 < fuel)
    {ctx : List (Frame ℕ)}
    (hctx : insertPath (fun a => (b.nodes a).key) key t = ctx) :
    ∃ b', bstInsertNodeUnbalenced fuel b node key data = .ok b' ∧
      Valid b' (plug ctx (leaf node)) ∧
      (b'.nodes node).parent = parentPtr ctx ∧
      SamePayload (filledNodes b.nodes node key data) b'.nodes := by
  have hangs := hvalid.hangsIn hfresh habsent data hfuel hctx
  have hfilled : Valid ⟨b.root, filledNodes b.nodes node key data⟩ t :=
    Valid.filled hvalid hfresh
  have hnode : filledNodes b.nodes node key data node = _ := filledNodes_self
  obtain rfl : plug ctx .nil = t := by
    rw [← hctx]
    exact plug_insertPath _ key t
  have hvalues := hungNodes_sameValues b.nodes ctx node key data
  have hok : ∀ c ∈ inorder (plug ctx (leaf node)), c ∉ spine ctx →
      HeightOk (hungNodes b.nodes ctx node key data) c ∧
        BfOk (hungNodes b.nodes ctx node key data) c := by
    intro c hc hcspine
    have htransfer := hvalues.valid (hungNodes_children hcspine)
    by_cases hcnode : c = node
    · subst hcnode
      constructor
      · apply htransfer.1
        rw [HeightOk, heightFromChildren, hnode]
        simpa [storedHeight] using hzero
      · apply htransfer.2
        rw [BfOk, bfFromChildren, hnode]
        simp [storedHeight]
    · have hcold : c ∈ inorder (plug ctx .nil) := by
        simp only [inorder_plug, leaf, inorder, List.mem_append,
          List.mem_singleton, hcnode, List.nil_append] at hc ⊢
        tauto
      exact ⟨htransfer.1 (hfilled.heights c hcold),
        htransfer.2 (hfilled.bfs c hcold)⟩
  obtain ⟨m', hrecalc, hshape, hvalid'⟩ :=
    recalculateFrom_valid hangs.linked hangs.sorted hok hangs.length
  have hroot : relinkRoot b.root ctx (some node) =
      rootPtr (plug ctx (leaf node)) := by
    rw [hvalid.root]
    exact relinkRoot_plug ctx .nil (leaf node)
  refine ⟨⟨rootPtr (plug ctx (leaf node)), m'⟩, ?_, hvalid', ?_,
    hvalues.payload.trans hshape.payload⟩
  · rw [hangs.unbalenced_eq hvalid (by omega), hroot, hrecalc, ok_bind,
      hvalid'.checkTree hangs.length, ok_bind]
  · rw [(hshape.links node).1]
    simp [hungNodes]

/-- `bst_insert_node` hangs the new node into the empty place of its key and
rebalances from there. -/
theorem bstInsertNode_valid {b : Bst} {t : BinaryTree ℕ}
    (hvalid : Valid b t) {node : ℕ} (hfresh : node ∉ inorder t)
    (hzero : (b.nodes node).height = 0) {key : ℤ}
    (habsent : ∀ a ∈ inorder t, (b.nodes a).key ≠ key) (data : ℕ)
    {fuel : ℕ} (hfuel : (inorder t).length + 1 < fuel) :
    ∃ b', bstInsertNode fuel b node key data = .ok b' ∧
      Valid b' (climb (insertPath (fun a => (b.nodes a).key) key t)
        (leaf node)) ∧
      SamePayload (filledNodes b.nodes node key data) b'.nodes := by
  obtain ⟨b₁, hinsert, hvalid₁, hparent, hpayload₁⟩ :=
    bstInsertNodeUnbalenced_valid hvalid hfresh hzero habsent data hfuel rfl
  have hlength : (inorder (plug (insertPath (fun a => (b.nodes a).key) key t)
      (leaf node))).length < fuel := by
    have hplug := plug_insertPath (fun a => (b.nodes a).key) key t
    rw [← hplug] at hfuel
    simp only [inorder_plug, leaf, inorder, List.length_append,
      List.length_cons, List.length_nil] at hfuel ⊢
    omega
  obtain ⟨b₂, hrebalence, hvalid₂, hpayload₂⟩ :=
    rebalenceFrom_valid hvalid₁ hlength
  refine ⟨b₂, ?_, hvalid₂, hpayload₁.trans hpayload₂⟩
  rw [bstInsertNode, hvalid.checkTree (by omega), ok_bind, hinsert, ok_bind,
    hparent, hrebalence]

end Bst
end Yjkos
