import Yjkos.BstAvl

/-!
# Walks in key order

`bst_successor` and `bst_predecessor` compare keys with those of the
ancestors.  In a valid tree they are the steps forwards and backwards along
the in-order sequence, and a walk from one end comes through all of it.
-/

namespace Yjkos
namespace Bst

open AvlTree BinaryTree

/-- The nodes which a walk comes through until it ends in null. -/
def visits (next : ℕ → Except Fault Ptr) : ℕ → Ptr → Except Fault (List ℕ)
  | _, none => .ok []
  | 0, some _ => .error .outOfFuel
  | fuel + 1, some current => do
      let following ← next current
      let rest ← visits next fuel following
      .ok (current :: rest)

theorem visits_eq {next : ℕ → Except Fault Ptr} (done : List ℕ)
    {rest : List ℕ} {fuel : ℕ}
    (hnext : ∀ front a back, done ++ rest = front ++ a :: back →
      next a = .ok back.head?)
    (hfuel : rest.length ≤ fuel) : visits next fuel rest.head? = .ok rest := by
  induction rest generalizing done fuel with
  | nil => cases fuel <;> rfl
  | cons a rest ih =>
      cases fuel with
      | zero => simp at hfuel
      | succ fuel =>
          have hstep := hnext done a rest rfl
          have hrest := ih (done ++ [a])
            (fun front b back h => hnext front b back (by simpa using h))
            (Nat.le_of_succ_le_succ hfuel)
          rw [List.head?_cons, visits, hstep, ok_bind, hrest, ok_bind]

/-- The walk towards the root stops at the first node with a smaller key,
which is the one before in key order. -/
theorem predecessorLoop_eq {m : Nodes} {ctx : List (Frame ℕ)} {hole : Ptr}
    (hlinked : ContextLinked m ctx hole) {key : ℤ}
    (hbefore : ∀ b ∈ before ctx, (m b).key < key)
    (hafter : ∀ b ∈ after ctx, key < (m b).key) {fuel : ℕ}
    (hfuel : (spine ctx).length < fuel) :
    predecessorLoop m key fuel (parentPtr ctx) =
      .ok (before ctx).getLast? := by
  induction ctx generalizing hole fuel with
  | nil =>
      obtain ⟨fuel, rfl⟩ := Nat.exists_eq_add_one_of_ne_zero
        (by omega : fuel ≠ 0)
      rfl
  | cons f ctx ih =>
      obtain ⟨fuel, rfl⟩ := Nat.exists_eq_add_one_of_ne_zero
        (by omega : fuel ≠ 0)
      obtain ⟨hpar, _, _, _, hrest⟩ := hlinked
      simp only [spine, List.map_cons, List.length_cons] at hfuel
      rw [parentPtr, predecessorLoop]
      cases hside : f.side with
      | left =>
          have hkey : key < (m f.value).key :=
            hafter f.value (by simp [after, Frame.after, hside])
          rw [if_neg (by omega), hpar, ih hrest]
          · simp [before, Frame.before, hside]
          · exact fun b hb => hbefore b (by simp [before, hb])
          · exact fun b hb => hafter b (by simp [after, hb])
          · simp only [spine]
            omega
      | right =>
          have hkey : (m f.value).key < key :=
            hbefore f.value (by simp [before, Frame.before, hside])
          rw [if_pos hkey]
          simp [before, Frame.before, hside, ← List.append_assoc]

/-- `bst_predecessor` gives the node before in key order. -/
theorem bstPredecessor_eq {b : Bst} {ctx : List (Frame ℕ)} {a fuel : ℕ}
    {l r : BinaryTree ℕ} (hvalid : Valid b (plug ctx (.node a l r)))
    (hfuel : (inorder (plug ctx (.node a l r))).length < fuel) :
    bstPredecessor fuel b.nodes a =
      .ok (before ctx ++ inorder l).getLast? := by
  obtain ⟨hsub, hctx⟩ := linked_plug.mp hvalid.linked
  have hspine := length_spine_le ctx (.node a l r)
  have hheight := height_le_length (.node a l r)
  have hleft : (b.nodes a).children .left = rootPtr l := hsub.2.1
  have hparent : (b.nodes a).parent = parentPtr ctx := hsub.1
  rw [bstPredecessor, hleft]
  cases l with
  | nil =>
      have hsorted := hvalid.sorted
      rw [Sorted, inorder_plug, inorder, inorder] at hsorted
      simp only [List.append_assoc, List.cons_append, List.nil_append,
        List.pairwise_append, List.pairwise_cons, List.mem_append,
        List.mem_cons] at hsorted
      have hloop := predecessorLoop_eq hctx
        (fun c hc => hsorted.2.2 c hc a (.inl rfl))
        (fun c hc => hsorted.2.1.1 c (.inr hc)) (by omega : _ < fuel)
      have hcheck : checkSubtree b.nodes false ⟨false, false⟩ fuel (some a)
          (parentPtr ctx) = .ok () := by
        apply checkSubtree_ok hsub (by omega)
        intro c hc
        have hmem : c ∈ inorder (plug ctx (.node a .nil r)) :=
          mem_inorder_of_hole hc
        exact ⟨fun _ => hvalid.heights c hmem,
          fun _ => ⟨hvalid.heights c hmem, hvalid.bfs c hmem⟩⟩
      simp only [rootPtr, hparent, hloop, ok_bind, inorder, List.append_nil]
      cases (before ctx).getLast? with
      | none =>
          -- past the root, the maximum below null is null
          obtain ⟨fuel, rfl⟩ := Nat.exists_eq_add_one_of_ne_zero
            (by omega : fuel ≠ 0)
          rfl
      | some c => simp only [hcheck, ok_bind]
  | node c ll lr =>
      have hl : Linked b.nodes (.node c ll lr) (some a) := hsub.2.2.2.1
      have hmax : bstMaxOf fuel b.nodes (some c) =
          .ok (inorder (.node c ll lr)).getLast? := by
        apply bstMaxOf_eq hl
        simp only [height] at hheight ⊢
        omega
      have hne : inorder (.node c ll lr) ≠ [] := by simp [inorder]
      simp only [rootPtr]
      rw [hmax, List.getLast?_append_of_ne_nil _ hne]

section Steps

variable {b : Bst} {t : BinaryTree ℕ} {fuel a : ℕ} {front back : List ℕ}

theorem Valid.steps (hvalid : Valid b t) (hfuel : (inorder t).length < fuel)
    (horder : inorder t = front ++ a :: back) :
    bstSuccessor fuel b.nodes a = .ok back.head? ∧
      bstPredecessor fuel b.nodes a = .ok front.getLast? := by
  obtain ⟨ctx, l, r, rfl⟩ := exists_plug_of_mem
    (by rw [horder]; simp : a ∈ inorder t)
  have hplug : inorder (plug ctx (.node a l r)) =
      (before ctx ++ inorder l) ++ a :: (inorder r ++ after ctx) := by
    simp [inorder_plug, inorder]
  obtain ⟨hfront, hback⟩ := split_unique (horder ▸ hvalid.sorted.nodup)
    (horder.symm.trans hplug)
  rw [hfront, hback]
  refine ⟨?_, bstPredecessor_eq hvalid hfuel⟩
  apply bstSuccessor_eq hvalid.linked hvalid.sorted _ hfuel
  intro c hc
  have hmem : c ∈ inorder (plug ctx (.node a l r)) := by
    apply mem_inorder_of_hole
    simp only [inorder, List.mem_append, List.mem_cons] at hc ⊢
    tauto
  exact ⟨hvalid.heights c hmem, hvalid.bfs c hmem⟩

theorem Valid.successor_iff (hvalid : Valid b t)
    (hfuel : (inorder t).length < fuel) (ha : a ∈ inorder t) {c : ℕ} :
    bstSuccessor fuel b.nodes a = .ok (some c) ↔
      ∃ front back, inorder t = front ++ a :: c :: back := by
  constructor
  · intro hsuccessor
    obtain ⟨front, back, horder⟩ := List.append_of_mem ha
    rw [(hvalid.steps hfuel horder).1, Except.ok.injEq] at hsuccessor
    obtain ⟨back, rfl⟩ := List.head?_eq_some_iff.mp hsuccessor
    exact ⟨front, back, horder⟩
  · rintro ⟨front, back, horder⟩
    exact (hvalid.steps hfuel horder).1

theorem Valid.predecessor_iff (hvalid : Valid b t)
    (hfuel : (inorder t).length < fuel) {c : ℕ} (hc : c ∈ inorder t) :
    bstPredecessor fuel b.nodes c = .ok (some a) ↔
      ∃ front back, inorder t = front ++ a :: c :: back := by
  constructor
  · intro hpredecessor
    obtain ⟨front, back, horder⟩ := List.append_of_mem hc
    rw [(hvalid.steps hfuel horder).2, Except.ok.injEq] at hpredecessor
    obtain ⟨front, rfl⟩ := List.getLast?_eq_some_iff.mp hpredecessor
    exact ⟨front, back, by simpa using horder⟩
  · rintro ⟨front, back, horder⟩
    have hsplit : inorder t = (front ++ [a]) ++ c :: back := by
      simpa using horder
    rw [(hvalid.steps hfuel hsplit).2, List.getLast?_concat]

end Steps

/-- From the minimum on, `bst_successor` comes through every node once, in
ascending key order, and ends in null.  From the maximum on,
`bst_predecessor` comes through them the other way round.  The two are
inverse to each other. -/
theorem walks_visit_in_order {b : Bst} {t : BinaryTree ℕ}
    (hvalid : Valid b t) {fuel : ℕ} (hfuel : (inorder t).length < fuel) :
    (bstMinOfTree fuel b >>= visits (bstSuccessor fuel b.nodes) fuel) =
        .ok (inorder t) ∧
      (bstMaxOfTree fuel b >>= visits (bstPredecessor fuel b.nodes) fuel) =
        .ok (inorder t).reverse ∧
      (inorder t).Pairwise (fun a c => (b.nodes a).key < (b.nodes c).key) ∧
      (inorder t).Nodup ∧
      ∀ a ∈ inorder t, ∀ c ∈ inorder t,
        (bstSuccessor fuel b.nodes a = .ok (some c) ↔
          bstPredecessor fuel b.nodes c = .ok (some a)) := by
  have hheight := height_le_length t
  refine ⟨?_, ?_, hvalid.sorted, hvalid.sorted.nodup, ?_⟩
  · rw [bstMinOfTree, hvalid.root,
      bstMinOf_eq hvalid.linked (by omega : t.height < fuel), ok_bind]
    apply visits_eq [] _ (by omega)
    intro front a back horder
    exact (hvalid.steps hfuel horder).1
  · rw [bstMaxOfTree, hvalid.root,
      bstMaxOf_eq hvalid.linked (by omega : t.height < fuel), ok_bind,
      ← List.head?_reverse]
    apply visits_eq [] _ (by simpa using hfuel.le)
    intro front a back hreverse
    have horder : inorder t = back.reverse ++ a :: front.reverse := by
      rw [List.nil_append, List.reverse_eq_iff] at hreverse
      simpa using hreverse
    rw [(hvalid.steps hfuel horder).2, List.getLast?_reverse]
  · intro a ha c hc
    rw [hvalid.successor_iff hfuel ha, hvalid.predecessor_iff hfuel hc]

theorem leaningBst_walks :
    (bstMinOfTree 5 leaningBst >>= visits (bstSuccessor 5 leaningNodes) 5) =
        .ok [1, 2, 3, 4] ∧
      (bstMaxOfTree 5 leaningBst >>=
        visits (bstPredecessor 5 leaningNodes) 5) = .ok [4, 3, 2, 1] := by
  obtain ⟨hup, hdown, _⟩ := @walks_visit_in_order leaningBst leaningTree
    avl_leaningBst.valid 5 (by decide)
  exact ⟨hup, hdown⟩

end Bst
end Yjkos
