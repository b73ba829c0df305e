import Yjkos.BstRelink

/-!
# Rotation and rebalancing

`bst_rotate` performs the rotation of the tree which memory represents, and
`bst_check_and_rebalence` climbs to the root.
-/

namespace Yjkos
namespace Bst

open AvlTree BinaryTree

/-- The pointers after the writes of `bst_rotate`. -/
def rotatedNodes (m : Nodes) (ctx : List (Frame ℕ)) (dir : Dir)
    (nodeA nodeB : ℕ) (nodeC : Ptr) : Nodes :=
  let m := (relink m ctx (some nodeB)).setParent nodeB (parentPtr ctx)
  let m := m.setChild nodeB dir (some nodeA)
  let m := m.setParent nodeA (some nodeB)
  let m := m.setChild nodeA dir.opposite nodeC
  setParentOf m nodeC (some nodeA)

theorem rotatedNodes_sameValues (m : Nodes) (ctx : List (Frame ℕ))
    (dir : Dir) (nodeA nodeB : ℕ) (nodeC : Ptr) :
    SameValues m (rotatedNodes m ctx dir nodeA nodeB nodeC) := by
  have hrelink := relink_sameValues m ctx (some nodeB)
  have hB := (hrelink.trans
    (setParent_sameValues _ nodeB (parentPtr ctx))).trans
    (setChild_sameValues _ nodeB dir (some nodeA))
  have hA := (hB.trans (setParent_sameValues _ nodeA (some nodeB))).trans
    (setChild_sameValues _ nodeA dir.opposite nodeC)
  exact hA.trans (setParentOf_sameValues _ nodeC (some nodeA))

theorem rotatedNodes_parent (m : Nodes) (ctx : List (Frame ℕ)) (dir : Dir)
    (nodeA nodeB : ℕ) (nodeC : Ptr) (b : ℕ) :
    (rotatedNodes m ctx dir nodeA nodeB nodeC b).parent =
      if nodeC = some b then some nodeA
      else if b = nodeA then some nodeB
      else if b = nodeB then parentPtr ctx
      else (m b).parent := by
  simp [rotatedNodes]

theorem rotatedNodes_children (m : Nodes) (ctx : List (Frame ℕ)) (dir : Dir)
    (nodeA nodeB : ℕ) (nodeC : Ptr) (b : ℕ) (d : Dir) :
    (rotatedNodes m ctx dir nodeA nodeB nodeC b).children d =
      if b = nodeA ∧ d = dir.opposite then nodeC
      else if b = nodeB ∧ d = dir then some nodeA
      else (relink m ctx (some nodeB) b).children d := by
  simp [rotatedNodes]

section Rotate

variable {m : Nodes} {ctx : List (Frame ℕ)} {dir : Dir} {nodeA nodeB : ℕ}
  {x y z : BinaryTree ℕ}

theorem nodup_rotate
    (hnodup : (inorder (plug ctx
      (branch dir nodeA x (branch dir nodeB y z)))).Nodup) :
    (nodeA :: nodeB :: (inorder x ++ (inorder y ++ (inorder z ++
      outside ctx)))).Nodup := by
  refine List.Perm.nodup_iff ?_ |>.mp hnodup
  refine (inorder_plug_perm _ _).trans ?_
  have hA := inorder_branch_perm dir nodeA x (branch dir nodeB y z)
  have hB := inorder_branch_perm dir nodeB y z
  have hsub : (inorder (branch dir nodeA x (branch dir nodeB y z))).Perm
      (nodeA :: nodeB :: (inorder x ++ (inorder y ++ inorder z))) := by
    refine hA.trans (List.Perm.cons nodeA ?_)
    exact (hB.append_left (inorder x)).trans List.perm_middle
  refine (hsub.append_right _).trans ?_
  simp

theorem linked_rotatedNodes
    (hlinked : Linked m (plug ctx
      (branch dir nodeA x (branch dir nodeB y z))) none)
    (hnodup : (inorder (plug ctx
      (branch dir nodeA x (branch dir nodeB y z)))).Nodup) :
    Linked (rotatedNodes m ctx dir nodeA nodeB (rootPtr y))
      (plug ctx (branch dir nodeB (branch dir nodeA x y) z)) none := by
  obtain ⟨hsub, hctx⟩ := linked_plug.mp hlinked
  obtain ⟨_, hA_dir, _, hx, hB⟩ := linked_branch.mp hsub
  obtain ⟨_, hB_dir, hB_opp, hy, hz⟩ := linked_branch.mp hB
  have hout := (nodup_outside hnodup).2.1
  have hnodup := nodup_rotate hnodup
  simp only [List.nodup_cons, List.mem_cons, List.mem_append, not_or,
    List.nodup_append] at hnodup
  obtain ⟨⟨hAB, hAx, hAy, hAz, hActx⟩, ⟨hBx, hBy, hBz, hBctx⟩, hxn, ⟨hyn,
    ⟨hzn, hcn, hzc⟩, hyrest⟩, hxrest⟩ := hnodup
  have hopposite : dir.opposite ≠ dir := by
    cases dir <;> simp [Side.opposite]
  have hspine : ∀ b, b ∉ outside ctx → b ∉ spine ctx :=
    fun b hb hmem => hb (spine_subset_outside ctx b hmem)
  -- nodes which no write has touched
  have hkeep : ∀ b, b ≠ nodeA → b ≠ nodeB → rootPtr y ≠ some b →
      (rotatedNodes m ctx dir nodeA nodeB (rootPtr y) b).parent =
          (m b).parent ∧
        (rotatedNodes m ctx dir nodeA nodeB (rootPtr y) b).children =
          (relink m ctx (some nodeB) b).children := by
    intro b hbA hbB hbC
    constructor
    · simp [rotatedNodes_parent, hbA, hbB, hbC]
    · funext d
      simp [rotatedNodes_children, hbA, hbB]
  have hkeep' : ∀ b, b ≠ nodeA → b ≠ nodeB → rootPtr y ≠ some b →
      b ∉ outside ctx →
      SameLinks m (rotatedNodes m ctx dir nodeA nodeB (rootPtr y)) b := by
    intro b hbA hbB hbC hbctx
    obtain ⟨hparent, hchildren⟩ := hkeep b hbA hbB hbC
    exact ⟨hparent, hchildren.trans (relink_children (hspine b hbctx))⟩
  have hroot : ∀ b, b ∉ inorder y → rootPtr y ≠ some b :=
    fun b hb heq => hb (mem_of_rootPtr heq)
  have hA_children := fun d => rotatedNodes_children m ctx dir nodeA nodeB
    (rootPtr y) nodeA d
  have hB_children := fun d => rotatedNodes_children m ctx dir nodeA nodeB
    (rootPtr y) nodeB d
  simp only [relink_children (hspine _ hActx), hAB, false_and, true_and,
    if_false] at hA_children
  simp only [relink_children (hspine _ hBctx), Ne.symm hAB, false_and,
    true_and, if_false] at hB_children
  rw [linked_plug, linked_branch, linked_branch, rootPtr_branch,
    rootPtr_branch]
  refine ⟨⟨?_, ?_, ?_, ⟨?_, ?_, ?_, hx.congr ?_, hy.reparent ?_ ?_ hyn⟩,
    hz.congr ?_⟩, ?_⟩
  · simp [rotatedNodes_parent, hroot _ hBy, Ne.symm hAB]
  · simp [hB_children]
  · simp [hB_children, hopposite, hB_opp]
  · simp [rotatedNodes_parent, hroot _ hAy]
  · simp [hA_children, Ne.symm hopposite, hA_dir]
  · simp [hA_children]
  · intro b hb
    exact hkeep' b (fun h => hAx (h ▸ hb)) (fun h => hBx (h ▸ hb))
      (hroot b fun h => hxrest b hb b (.inl h) rfl)
      fun h => hxrest b hb b (.inr (.inr h)) rfl
  · intro b hb
    have hmem := mem_of_rootPtr hb
    have hbA : b ≠ nodeA := fun h => hAy (h ▸ hmem)
    have hbB : b ≠ nodeB := fun h => hBy (h ▸ hmem)
    have hbctx : b ∉ outside ctx := fun h => hyrest b hmem b (.inr h) rfl
    constructor
    · simp [rotatedNodes_parent, hb]
    · funext d
      simp [rotatedNodes_children, hbA, hbB, relink_children (hspine b hbctx)]
  · intro b hb hne
    exact hkeep' b (fun h => hAy (h ▸ hb)) (fun h => hBy (h ▸ hb)) hne
      fun h => hyrest b hb b (.inr h) rfl
  · intro b hb
    exact hkeep' b (fun h => hAz (h ▸ hb)) (fun h => hBz (h ▸ hb))
      (hroot b fun h => hyrest b h b (.inl hb) rfl)
      fun h => hzc b hb b h rfl
  · apply (contextLinked_relink hctx hout (some nodeB)).congr
    intro b hb
    obtain ⟨hparent, hchildren⟩ := hkeep b (fun h => hActx (h ▸ hb))
      (fun h => hBctx (h ▸ hb)) (hroot b fun h => hyrest b h b (.inr hb) rfl)
    exact ⟨by rw [hparent, relink_parent], hchildren⟩

theorem inorder_rotated :
    inorder (plug ctx (branch dir nodeB (branch dir nodeA x y) z)) =
      inorder (plug ctx (branch dir nodeA x (branch dir nodeB y z))) := by
  rw [inorder_plug, inorder_plug, ← rotate_branch, inorder_rotate]

/-- `bst_rotate` rotates the tree in memory. -/
theorem bstRotate_valid {b : Bst} {fuel : ℕ}
    (hvalid : Valid b
      (plug ctx (branch dir nodeA x (branch dir nodeB y z))))
    (hfuel : (inorder (plug ctx
      (branch dir nodeA x (branch dir nodeB y z)))).length < fuel) :
    ∃ b', bstRotate fuel b nodeA dir = .ok b' ∧
      Valid b' (plug ctx (branch dir nodeB (branch dir nodeA x y) z)) ∧
      SamePayload b.nodes b'.nodes := by
  have hnodup := hvalid.sorted.nodup
  obtain ⟨hsub, hctx⟩ := linked_plug.mp hvalid.linked
  rw [rootPtr_branch] at hctx
  have hA_out := (nodup_outside hnodup).2.2 nodeA
    (mem_of_rootPtr (rootPtr_branch _ _ _ _))
  obtain ⟨hA_parent, _, hA_opp, _, hB⟩ := linked_branch.mp hsub
  obtain ⟨_, hB_dir, _, _, _⟩ := linked_branch.mp hB
  have hvalues := rotatedNodes_sameValues b.nodes ctx dir nodeA nodeB
    (rootPtr y)
  have hlinked := linked_rotatedNodes hvalid.linked hnodup
  have hsorted : Sorted (rotatedNodes b.nodes ctx dir nodeA nodeB (rootPtr y))
      (plug ctx (branch dir nodeB (branch dir nodeA x y) z)) := by
    apply hvalues.sorted
    rw [Sorted, inorder_rotated]
    exact hvalid.sorted
  have hkeep : ∀ c, c ∉ spine (⟨dir, nodeA, y⟩ :: ⟨dir, nodeB, z⟩ :: ctx) →
      (rotatedNodes b.nodes ctx dir nodeA nodeB (rootPtr y) c).children =
        (b.nodes c).children := by
    intro c hc
    simp only [spine, List.map_cons, List.mem_cons, not_or] at hc
    funext d
    simp [rotatedNodes_children, hc.1, hc.2.1, relink_children hc.2.2]
  have hlength : (inorder (plug ctx
      (branch dir nodeB (branch dir nodeA x y) z))).length < fuel := by
    rwa [inorder_rotated]
  have hpath : ∀ c ∈ spine (⟨dir, nodeA, y⟩ :: ⟨dir, nodeB, z⟩ :: ctx),
      c ∈ inorder (branch dir nodeB (branch dir nodeA x y) z) ++
        spine ctx := by
    intro c hc
    simp only [spine, List.map_cons, List.mem_cons] at hc
    rw [List.mem_append, (inorder_branch_perm _ _ _ _).mem_iff,
      List.mem_cons, List.mem_append, (inorder_branch_perm _ _ _ _).mem_iff]
    rcases hc with rfl | rfl | hc
    · simp
    · simp
    · exact .inr hc
  obtain ⟨m₁, m', hheight, hbf, hshape, hvalid'⟩ :=
    @recalculate_valid _ ⟨dir, nodeA, y⟩ (⟨dir, nodeB, z⟩ :: ctx) ctx
      (plug ctx (branch dir nodeB (branch dir nodeA x y) z)) x
      (branch dir nodeB (branch dir nodeA x y) z) nodeB fuel rfl rfl
      (rootPtr_branch _ _ _ _) hlinked hsorted hpath
      (fun c hc hout => (hvalues.valid (hkeep c hout)).1
        (hvalid.heights c (inorder_rotated ▸ hc)))
      (fun c hc hout => (hvalues.valid
        (hkeep c fun hon => hout (hpath c hon))).2
        (hvalid.bfs c (inorder_rotated ▸ hc))) hlength
  refine ⟨_, ?_, hvalid', hvalues.payload.trans hshape.payload⟩
  have hroot := relinkRoot_plug ctx
    (branch dir nodeA x (branch dir nodeB y z))
    (branch dir nodeB (branch dir nodeA x y) z)
  rw [← hvalid.root, rootPtr_branch] at hroot
  rw [bstRotate, hvalid.checkTree hfuel, ok_bind, hA_opp, rootPtr_branch]
  unfold rotatedNodes at hheight
  simp only [hA_parent, hB_dir, replaceInParent_eq hA_parent hctx hA_out,
    ok_bind, hroot, hheight, hbf, hvalid'.checkTree hlength]

end Rotate

/-! ## One step of rebalancing -/

theorem Valid.bf_eq {b : Bst} {ctx : List (Frame ℕ)} {a : ℕ}
    {l r : BinaryTree ℕ} (hvalid : Valid b (plug ctx (.node a l r))) :
    (b.nodes a).bf = (l.height : ℤ) - r.height := by
  have hsub := (linked_plug.mp hvalid.linked).1
  have hmem : a ∈ inorder (plug ctx (.node a l r)) :=
    mem_inorder_of_hole (by simp [inorder])
  rw [hvalid.bfs a hmem]
  exact bfFromChildren_eq hsub fun c hc =>
    hvalid.heights c (mem_inorder_of_hole hc)

section Step

variable {b : Bst} {ctx : List (Frame ℕ)} {fuel : ℕ}

theorem length_plug_congr {t t' : BinaryTree ℕ}
    (horder : inorder t' = inorder t) :
    (inorder (plug ctx t')).length = (inorder (plug ctx t)).length := by
  rw [inorder_plug, inorder_plug, horder]

/-- The rotations for a subtree which is too high on side `s`. -/
theorem rotateHeavy_valid {s : Side} {a c : ℕ} {x y z : BinaryTree ℕ}
    (hvalid : Valid b (plug ctx (branch s a (branch s c x z) y)))
    (hfuel : (inorder (plug ctx
      (branch s a (branch s c x z) y))).length < fuel)
    (hheavy : y.height < max x.height z.height) :
    ∃ b', rotateHeavy fuel b a s = .ok b' ∧
      Valid b' (plug ctx (rebalance (branch s a (branch s c x z) y))) ∧
      SamePayload b.nodes b'.nodes := by
  have hsub := (linked_plug.mp hvalid.linked).1
  have hchild : (b.nodes a).children s = some c := by
    rw [(linked_branch.mp hsub).2.1, rootPtr_branch]
  -- the context of the heavy child
  have hframe : plug ctx (branch s a (branch s c x z) y) =
      plug (⟨s, a, y⟩ :: ctx) (branch s c x z) := rfl
  have hinner : leansInward s (b.nodes c).bf =
      decide (x.height < z.height) := by
    rw [hframe] at hvalid
    cases s
    · rw [hvalid.bf_eq, leansInward, decide_eq_decide]
      omega
    · rw [hvalid.bf_eq, leansInward, decide_eq_decide]
      omega
  rw [rebalance_heavy s a c hheavy, rotateHeavy, hchild]
  simp only [hinner, decide_eq_true_eq]
  by_cases hlt : x.height < z.height
  · rw [if_pos hlt, if_pos hlt]
    obtain ⟨e, u, v, rfl⟩ : ∃ e u v, z = branch s e u v := by
      cases z with
      | nil => simp at hlt
      | node e l r =>
          cases s
          · exact ⟨e, l, r, rfl⟩
          · exact ⟨e, r, l, rfl⟩
    rw [hframe] at hvalid hfuel
    obtain ⟨b₁, hrotate₁, hvalid₁, hpayload₁⟩ :=
      bstRotate_valid hvalid hfuel
    have hlength : (inorder (plug (⟨s, a, y⟩ :: ctx)
        (branch s e (branch s c x u) v))).length < fuel := by
      rwa [inorder_rotated]
    have hturn : plug (⟨s, a, y⟩ :: ctx) (branch s e (branch s c x u) v) =
        plug ctx (branch s.opposite a y
          (branch s.opposite e v (branch s c x u))) := by
      rw [branch_opposite, branch_opposite]
      rfl
    rw [hturn] at hvalid₁ hlength
    obtain ⟨b₂, hrotate₂, hvalid₂, hpayload₂⟩ :=
      bstRotate_valid hvalid₁ hlength
    refine ⟨b₂, ?_, ?_, hpayload₁.trans hpayload₂⟩
    · rw [hrotate₁, ok_bind, hrotate₂]
    · rw [rotate_branch, ← branch_opposite s a, ← branch_opposite s e,
        rotate_branch]
      exact hvalid₂
  · rw [if_neg hlt, if_neg hlt]
    have hturn : branch s a (branch s c x z) y =
        branch s.opposite a y (branch s.opposite c z x) := by
      rw [branch_opposite, branch_opposite]
    rw [hturn] at hvalid hfuel ⊢
    obtain ⟨b₁, hrotate₁, hvalid₁, hpayload₁⟩ :=
      bstRotate_valid hvalid hfuel
    refine ⟨b₁, hrotate₁, ?_, hpayload₁⟩
    rw [rotate_branch]
    exact hvalid₁

/-- What `bst_check_and_rebalence` does at one node. -/
theorem rebalenceStep_valid {a : ℕ} {l r : BinaryTree ℕ}
    (hvalid : Valid b (plug ctx (.node a l r)))
    (hfuel : (inorder (plug ctx (.node a l r))).length < fuel) :
    ∃ b', rebalenceStep fuel b a = .ok b' ∧
      Valid b' (plug ctx (rebalance (.node a l r))) ∧
      SamePayload b.nodes b'.nodes := by
  rw [rebalenceStep, hvalid.bf_eq]
  by_cases hleft : (l.height : ℤ) - r.height > 1
  · rw [if_pos hleft]
    cases l with
    | nil =>
        simp only [height] at hleft
        omega
    | node c x z =>
        simp only [height] at hleft
        exact @rotateHeavy_valid b ctx fuel .left a c x r z hvalid hfuel
          (by omega)
  · rw [if_neg hleft]
    by_cases hright : (l.height : ℤ) - r.height < -1
    · rw [if_pos hright]
      cases r with
      | nil =>
          simp only [height] at hright
          omega
      | node c z x =>
          simp only [height] at hright
          exact @rotateHeavy_valid b ctx fuel .right a c x l z hvalid hfuel
            (by omega)
    · rw [if_neg hright]
      refine ⟨b, rfl, ?_, SamePayload.refl _⟩
      have hsame : rebalance (.node a l r) = .node a l r :=
        rebalance_branch_of_balanced .left a (by omega) (by omega)
      rwa [hsame]

end Step

/-! ## Climbing to the root -/

theorem checkAndRebalenceLoop_valid {ctx : List (Frame ℕ)} :
    ∀ {b : Bst} {t : BinaryTree ℕ} {fuel left : ℕ},
      Valid b (plug ctx t) → (inorder (plug ctx t)).length < fuel →
      (spine ctx).length < left →
      ∃ b', checkAndRebalenceLoop fuel left b (parentPtr ctx) = .ok b' ∧
        Valid b' (climb ctx t) ∧ SamePayload b.nodes b'.nodes := by
  induction ctx with
  | nil =>
      intro b t fuel left hvalid _ hleft
      obtain ⟨left, rfl⟩ := Nat.exists_eq_add_one_of_ne_zero
        (by omega : left ≠ 0)
      exact ⟨b, rfl, hvalid, SamePayload.refl _⟩
  | cons f ctx ih =>
      intro b t fuel left hvalid hfuel hleft
      obtain ⟨left, rfl⟩ := Nat.exists_eq_add_one_of_ne_zero
        (by omega : left ≠ 0)
      simp only [spine, List.map_cons, List.length_cons] at hleft
      have hctx := (linked_plug.mp hvalid.linked).2
      have hself := (hctx.parent_ne (nodup_spine hvalid.sorted.nodup)).1
        f.value (by simp [spine])
      obtain ⟨l, r, hnode⟩ : ∃ l r,
          branch f.side f.value t f.sibling = .node f.value l r := by
        cases f.side
        · exact ⟨_, _, rfl⟩
        · exact ⟨_, _, rfl⟩
      rw [plug, hnode] at hvalid hfuel
      obtain ⟨b₁, hstep, hvalid₁, hpayload₁⟩ :=
        rebalenceStep_valid hvalid hfuel
      have hlength : (inorder (plug ctx
          (rebalance (.node f.value l r)))).length < fuel := by
        rwa [length_plug_congr (inorder_rebalance _)]
      obtain ⟨b₂, hloop, hvalid₂, hpayload₂⟩ :=
        ih hvalid₁ hlength (by simpa [spine] using hleft)
      refine ⟨b₂, ?_, ?_, hpayload₁.trans hpayload₂⟩
      · have hparent : (b.nodes f.value).parent = parentPtr ctx := hctx.1
        have hassert : decide (some f.value ≠ parentPtr ctx) = true := by
          rw [decide_eq_true_iff, ← hparent]
          exact Ne.symm hself
        change checkAndRebalenceLoop fuel (left + 1) b (some f.value) = _
        simp only [checkAndRebalenceLoop, hstep, ok_bind, hparent, hassert,
          cAssert_true, hloop]
      · rw [climb, hnode]
        exact hvalid₂

theorem rebalenceFrom_valid {b : Bst} {ctx : List (Frame ℕ)}
    {t : BinaryTree ℕ} {fuel : ℕ} (hvalid : Valid b (plug ctx t))
    (hfuel : (inorder (plug ctx t)).length < fuel) :
    ∃ b', rebalenceFrom fuel b (parentPtr ctx) = .ok b' ∧
      Valid b' (climb ctx t) ∧ SamePayload b.nodes b'.nodes := by
  have hspine := length_spine_le ctx t
  have hlength : (inorder (climb ctx t)).length < fuel := by
    rwa [inorder_climb, ← inorder_plug]
  obtain ⟨b', hloop, hvalid', hpayload⟩ := checkAndRebalenceLoop_valid hvalid
    hfuel (by omega : (spine ctx).length < fuel)
  refine ⟨b', ?_, hvalid', hpayload⟩
  cases ctx with
  | nil =>
      have hsame : b' = b := by
        cases fuel with
        | zero => omega
        | succ fuel =>
            simp only [parentPtr, checkAndRebalenceLoop,
              Except.ok.injEq] at hloop
            exact hloop.symm
      subst hsame
      simp only [rebalenceFrom, parentPtr, ok_bind,
        hvalid'.checkTree hlength]
  | cons f ctx =>
      rw [parentPtr] at hloop
      simp only [rebalenceFrom, parentPtr, bstCheckAndRebalence,
        hvalid.checkTree hfuel, ok_bind, hloop, hvalid'.checkTree hlength]

end Bst
end Yjkos
