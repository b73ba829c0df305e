import Mathlib.Tactic
import Mathlib.Data.Fintype.EquivFin
import Mathlib.Order.WellFounded

/-!
# Depth-first walks

Every node of a graph holds a list of items, and an item may lead to a node
below.  The walk lists the items of a node in order, each behind everything
below it, and remembers nothing.  It ends exactly if no cycle is reached, and
lists every item once if the nodes reached from the roots form a forest.
-/

namespace TreeWalk

open Relation

/-! ## Gathering -/

section Gather

variable {α β ι : Type*}

/-- The results for all members in order, or none if one of them fails. -/
def gather (f : α → Option (List ι)) : List α → Option (List ι)
  | [] => some []
  | a :: rest => do
      let first ← f a
      let after ← gather f rest
      some (first ++ after)

variable {f : α → Option (List ι)} {xs : List α} {l : List ι}

theorem gather_cons (a : α) (rest : List α) :
    gather f (a :: rest) = (f a).bind fun first =>
      (gather f rest).bind fun after => some (first ++ after) := rfl

theorem gather_cons_eq {a : α} {rest : List α}
    (h : gather f (a :: rest) = some l) :
    ∃ first after, f a = some first ∧ gather f rest = some after ∧
      l = first ++ after := by
  rw [gather_cons, Option.bind_eq_some_iff] at h
  obtain ⟨first, hfirst, h⟩ := h
  rw [Option.bind_eq_some_iff] at h
  obtain ⟨after, hafter, h⟩ := h
  exact ⟨first, after, hfirst, hafter, (Option.some.inj h).symm⟩

theorem gather_singleton (a : α) : gather f [a] = f a := by
  rw [gather_cons]
  cases f a with
  | none => rfl
  | some part => simp [gather]

theorem gather_append (xs ys : List α) :
    gather f (xs ++ ys) = (gather f xs).bind fun first =>
      (gather f ys).bind fun second => some (first ++ second) := by
  induction xs with
  | nil => cases h : gather f ys <;> simp [gather, h]
  | cons a xs ih =>
      rw [List.cons_append, gather_cons, gather_cons, ih]
      cases f a with
      | none => rfl
      | some first =>
          cases gather f xs with
          | none => rfl
          | some second =>
              cases gather f ys with
              | none => rfl
              | some third => simp

theorem gather_flatMap (g : β → List α) (ys : List β) :
    gather f (ys.flatMap g) = gather (fun b => gather f (g b)) ys := by
  induction ys with
  | nil => rfl
  | cons b ys ih => rw [List.flatMap_cons, gather_append, ih, gather_cons]

theorem gather_mono {further : α → Option (List ι)}
    (hmono : ∀ a ∈ xs, ∀ part, f a = some part → further a = some part)
    (h : gather f xs = some l) : gather further xs = some l := by
  induction xs generalizing l with
  | nil => exact h
  | cons a xs ih =>
      obtain ⟨first, after, hfirst, hafter, rfl⟩ := gather_cons_eq h
      rw [gather_cons, hmono a List.mem_cons_self first hfirst,
        ih (fun b hb => hmono b (List.mem_cons_of_mem a hb)) hafter]
      rfl

theorem exists_of_gather (h : gather f xs = some l) {a : α} (ha : a ∈ xs) :
    ∃ part, f a = some part := by
  induction xs generalizing l with
  | nil => cases ha
  | cons b xs ih =>
      obtain ⟨first, after, hfirst, hafter, -⟩ := gather_cons_eq h
      cases ha with
      | head => exact ⟨first, hfirst⟩
      | tail _ ha => exact ih hafter ha

theorem mem_gather (h : gather f xs = some l) {x : ι} :
    x ∈ l ↔ ∃ a ∈ xs, ∃ part, f a = some part ∧ x ∈ part := by
  induction xs generalizing l with
  | nil =>
      cases h
      simp
  | cons a xs ih =>
      obtain ⟨first, after, hfirst, hafter, rfl⟩ := gather_cons_eq h
      simp [ih hafter, hfirst]

theorem gather_nodup (hxs : xs.Nodup)
    (hparts : ∀ a ∈ xs, ∀ part, f a = some part → part.Nodup)
    (happart : ∀ a ∈ xs, ∀ b ∈ xs, ∀ part other x, f a = some part →
      f b = some other → x ∈ part → x ∈ other → a = b)
    (h : gather f xs = some l) : l.Nodup := by
  induction xs generalizing l with
  | nil =>
      cases h
      exact List.nodup_nil
  | cons a xs ih =>
      obtain ⟨first, after, hfirst, hafter, rfl⟩ := gather_cons_eq h
      rw [List.nodup_cons] at hxs
      have htail : ∀ b ∈ xs, b ∈ a :: xs := fun b => List.mem_cons_of_mem a
      have hrest := ih hxs.2 (fun b hb => hparts b (htail b hb))
        (fun b hb c hc => happart b (htail b hb) c (htail c hc)) hafter
      refine List.nodup_append'.mpr
        ⟨hparts a List.mem_cons_self first hfirst, hrest, ?_⟩
      intro x hx hx'
      obtain ⟨b, hb, part, hpart, hmem⟩ := (mem_gather hafter).mp hx'
      have heq := happart a List.mem_cons_self b (htail b hb) first part x
        hfirst hpart hx hmem
      exact hxs.1 (heq ▸ hb)

/-- In a list without duplicates the parts have nothing in common. -/
theorem gather_apart (h : gather f xs = some l) (hnodup : l.Nodup) {a b : α}
    (ha : a ∈ xs) (hb : b ∈ xs) {part other : List ι} (hpart : f a = some part)
    (hother : f b = some other) {x : ι} (hx : x ∈ part) (hx' : x ∈ other) :
    a = b := by
  induction xs generalizing l with
  | nil => cases ha
  | cons c xs ih =>
      obtain ⟨first, after, hfirst, hafter, rfl⟩ := gather_cons_eq h
      have hparts := List.nodup_append'.mp hnodup
      cases ha with
      | head =>
          cases hb with
          | head => rfl
          | tail _ hb =>
              have hleft : x ∈ first :=
                Option.some.inj (hpart.symm.trans hfirst) ▸ hx
              exact (hparts.2.2 hleft
                ((mem_gather hafter).mpr ⟨b, hb, other, hother, hx'⟩)).elim
      | tail _ ha =>
          cases hb with
          | head =>
              have hleft : x ∈ first :=
                Option.some.inj (hother.symm.trans hfirst) ▸ hx'
              exact (hparts.2.2 hleft
                ((mem_gather hafter).mpr ⟨a, ha, part, hpart, hx⟩)).elim
          | tail _ hb => exact ih hafter hparts.2.1 ha hb

end Gather

/-! ## Walk -/

variable {ν ι : Type*} (items : ν → List ι) (child : ι → Option ν)

/-- An item behind everything below it. -/
def listed (descend : ν → Option (List ι)) (i : ι) : Option (List ι) :=
  match child i with
  | none => some [i]
  | some node => do
      let under ← descend node
      some (under ++ [i])

def walk : ℕ → ν → Option (List ι)
  | 0, _ => none
  | fuel + 1, node => gather (listed child (walk fuel)) (items node)

/-- The second node is directly below the first. -/
def Edge (above below : ν) : Prop :=
  ∃ i ∈ items above, child i = some below

def Reaches (start node : ν) : Prop :=
  ReflTransGen (Edge items child) start node

variable {items child}

theorem listed_of_leaf {descend : ν → Option (List ι)} {i : ι}
    (hchild : child i = none) : listed child descend i = some [i] := by
  simp only [listed, hchild]

theorem listed_of_child {descend : ν → Option (List ι)} {i : ι} {node : ν}
    {under : List ι} (hchild : child i = some node)
    (hunder : descend node = some under) :
    listed child descend i = some (under ++ [i]) := by
  simp only [listed, hchild, hunder]
  rfl

theorem listed_cases {descend : ν → Option (List ι)} {i : ι} {part : List ι}
    (h : listed child descend i = some part) :
    (child i = none ∧ part = [i]) ∨
      ∃ node under, child i = some node ∧ descend node = some under ∧
        part = under ++ [i] := by
  cases hchild : child i with
  | none =>
      rw [listed_of_leaf hchild, Option.some.injEq] at h
      exact .inl ⟨rfl, h.symm⟩
  | some node =>
      simp only [listed, hchild, Option.bind_eq_bind,
        Option.bind_eq_some_iff, Option.some.injEq] at h
      obtain ⟨under, hunder, rfl⟩ := h
      exact .inr ⟨node, under, rfl, hunder, rfl⟩

theorem mem_listed {descend : ν → Option (List ι)} {i x : ι} {part : List ι}
    (h : listed child descend i = some part) (hx : x ∈ part) :
    x = i ∨ ∃ node under, child i = some node ∧ descend node = some under ∧
      x ∈ under := by
  rcases listed_cases h with ⟨-, rfl⟩ | ⟨node, under, hchild, hunder, rfl⟩
  · exact .inl (List.mem_singleton.mp hx)
  · rcases List.mem_append.mp hx with hx | hx
    · exact .inr ⟨node, under, hchild, hunder, hx⟩
    · exact .inl (List.mem_singleton.mp hx)

theorem listed_mono {descend further : ν → Option (List ι)}
    (hmono : ∀ node l, descend node = some l → further node = some l) {i : ι}
    {part : List ι} (h : listed child descend i = some part) :
    listed child further i = some part := by
  rcases listed_cases h with ⟨hchild, rfl⟩ | ⟨node, under, hchild, hunder, rfl⟩
  · exact listed_of_leaf hchild
  · exact listed_of_child hchild (hmono node under hunder)

theorem walk_succ {fuel : ℕ} {node : ν} {l : List ι}
    (h : walk items child fuel node = some l) :
    walk items child (fuel + 1) node = some l := by
  induction fuel generalizing node l with
  | zero => cases h
  | succ fuel ih =>
      exact gather_mono (fun _ _ _ hpart =>
        listed_mono (fun _ _ hstep => ih hstep) hpart) h

theorem walk_mono {fuel more : ℕ} (hle : fuel ≤ more) {node : ν} {l : List ι}
    (h : walk items child fuel node = some l) :
    walk items child more node = some l := by
  induction more, hle using Nat.le_induction with
  | base => exact h
  | succ more hle ih => exact walk_succ ih

/-- An item of the walk which leads somewhere has been descended. -/
theorem walk_descends {fuel : ℕ} {node lower : ν} {l : List ι}
    (h : walk items child (fuel + 1) node = some l) {i : ι}
    (hi : i ∈ items node) (hchild : child i = some lower) :
    ∃ under, walk items child fuel lower = some under ∧
      listed child (walk items child fuel) i = some (under ++ [i]) := by
  obtain ⟨part, hpart⟩ := exists_of_gather h hi
  rcases listed_cases hpart with ⟨hnone, -⟩ | ⟨node, under, hsome, hunder, rfl⟩
  · rw [hchild] at hnone
    cases hnone
  · rw [hchild, Option.some.injEq] at hsome
    exact ⟨under, hsome ▸ hunder, hpart⟩

/-! ## Termination -/

theorem acc_of_walk {fuel : ℕ} {node : ν} {l : List ι}
    (h : walk items child fuel node = some l) :
    Acc (Function.swap (Edge items child)) node := by
  induction fuel generalizing node l with
  | zero => cases h
  | succ fuel ih =>
      constructor
      intro lower hedge
      obtain ⟨i, hi, hchild⟩ := hedge
      obtain ⟨under, hunder, -⟩ := walk_descends h hi hchild
      exact ih hunder

/-- Enough fuel for every member is enough for all of them. -/
theorem exists_gather {α : Type*} {f : ℕ → α → Option (List ι)} {xs : List α}
    (hmono : ∀ fuel more a part, fuel ≤ more → f fuel a = some part →
      f more a = some part)
    (h : ∀ a ∈ xs, ∃ fuel part, f fuel a = some part) :
    ∃ fuel l, gather (f fuel) xs = some l := by
  induction xs with
  | nil => exact ⟨0, [], rfl⟩
  | cons a xs ih =>
      obtain ⟨fuel, after, hafter⟩ :=
        ih fun b hb => h b (List.mem_cons_of_mem a hb)
      obtain ⟨deep, first, hfirst⟩ := h a List.mem_cons_self
      refine ⟨max fuel deep, first ++ after, ?_⟩
      rw [gather_cons, hmono _ _ a first (le_max_right fuel deep) hfirst,
        gather_mono (fun b _ part =>
          hmono _ _ b part (le_max_left fuel deep)) hafter]
      rfl

theorem exists_walk_of_acc {node : ν}
    (h : Acc (Function.swap (Edge items child)) node) :
    ∃ fuel l, walk items child fuel node = some l := by
  induction h with
  | intro node _ ih =>
      have hitems : ∀ i ∈ items node, ∃ fuel part,
          listed child (walk items child fuel) i = some part := by
        intro i hi
        cases hchild : child i with
        | none => exact ⟨0, [i], listed_of_leaf hchild⟩
        | some lower =>
            obtain ⟨fuel, under, hunder⟩ := ih lower ⟨i, hi, hchild⟩
            exact ⟨fuel, under ++ [i], listed_of_child hchild hunder⟩
      obtain ⟨fuel, l, hgather⟩ := exists_gather
        (f := fun fuel => listed child (walk items child fuel))
        (fun _ _ _ _ hle hpart =>
          listed_mono (fun _ _ hwalk => walk_mono hle hwalk) hpart) hitems
      exact ⟨fuel + 1, l, hgather⟩

/-- No cycle is reached from the node. -/
def AcyclicFrom (items : ν → List ι) (child : ι → Option ν) (start : ν) :
    Prop :=
  ∀ node, Reaches items child start node →
    ¬TransGen (Edge items child) node node

theorem Reaches.acc {start node : ν} (hreach : Reaches items child start node)
    (h : Acc (Function.swap (Edge items child)) start) :
    Acc (Function.swap (Edge items child)) node := by
  induction hreach with
  | refl => exact h
  | tail _ hedge ih => exact ih.inv hedge

theorem acc_irrefl {α : Type*} {r : α → α → Prop} {a : α} (h : Acc r a) :
    ¬r a a := by
  induction h with
  | intro a _ ih => exact fun hself => ih a hself hself

theorem acyclicFrom_of_acc {start : ν}
    (h : Acc (Function.swap (Edge items child)) start) :
    AcyclicFrom items child start := by
  intro node hreach hcycle
  exact acc_irrefl (acc_transGen_iff.mpr (hreach.acc h))
    (transGen_swap.mpr hcycle)

theorem AcyclicFrom.acc [Finite ν] {start : ν}
    (h : AcyclicFrom items child start) :
    Acc (Function.swap (Edge items child)) start := by
  -- Proper descent between reached nodes is a strict order on a finite type.
  let descent : ν → ν → Prop := fun lower upper =>
    Reaches items child start lower ∧
      TransGen (Edge items child) upper lower
  have htrans : IsTrans ν descent :=
    ⟨fun _ _ _ hab hbc => ⟨hab.1, hbc.2.trans hab.2⟩⟩
  have hirrefl : Std.Irrefl descent := ⟨fun node hself => h node hself.1 hself.2⟩
  have hwf : WellFounded descent := Finite.wellFounded_of_trans_of_irrefl descent
  have hacc : ∀ node, Reaches items child start node →
      Acc (Function.swap (Edge items child)) node := by
    intro node
    induction node using hwf.induction with
    | h node ih =>
        intro hreach
        constructor
        intro lower hedge
        have hlower : Reaches items child start lower := hreach.tail hedge
        exact ih lower ⟨hlower, .single hedge⟩ hlower
  exact hacc start .refl

theorem exists_walk_iff [Finite ν] {start : ν} :
    (∃ fuel l, walk items child fuel start = some l) ↔
      AcyclicFrom items child start := by
  constructor
  · rintro ⟨fuel, l, hwalk⟩
    exact acyclicFrom_of_acc (acc_of_walk hwalk)
  · intro h
    exact exists_walk_of_acc h.acc

/-! ## Items of the walk -/

/-- The walk lists the items of the nodes which it reaches. -/
theorem mem_walk {fuel : ℕ} {start : ν} {l : List ι}
    (h : walk items child fuel start = some l) {x : ι} :
    x ∈ l ↔ ∃ node, Reaches items child start node ∧ x ∈ items node := by
  induction fuel generalizing start l with
  | zero => cases h
  | succ fuel ih =>
      rw [mem_gather h]
      constructor
      · rintro ⟨i, hi, part, hpart, hx⟩
        rcases mem_listed hpart hx with rfl |
          ⟨node, under, hchild, hunder, hx⟩
        · exact ⟨start, .refl, hi⟩
        · obtain ⟨last, hreach, hitem⟩ := (ih hunder).mp hx
          exact ⟨last, hreach.head ⟨i, hi, hchild⟩, hitem⟩
      · rintro ⟨last, hreach, hx⟩
        cases hreach.cases_head with
        | inl heq =>
            subst heq
            obtain ⟨part, hpart⟩ := exists_of_gather h hx
            refine ⟨x, hx, part, hpart, ?_⟩
            rcases listed_cases hpart with ⟨-, rfl⟩ | ⟨-, -, -, -, rfl⟩
            · exact List.mem_singleton_self x
            · simp
        | inr hstep =>
            obtain ⟨node, ⟨i, hi, hchild⟩, hbelow⟩ := hstep
            obtain ⟨under, hunder, hpart⟩ := walk_descends h hi hchild
            have hmem : x ∈ under := (ih hunder).mpr ⟨last, hbelow, hx⟩
            exact ⟨i, hi, _, hpart, List.mem_append_left [i] hmem⟩

/-! ## Forests -/

/-- Every item stands at one node and once. -/
structure Placed (items : ν → List ι) : Prop where
  nodup : ∀ node, (items node).Nodup
  unique : ∀ {i node other}, i ∈ items node → i ∈ items other → node = other

/-- The item stands at a node which a root reaches. -/
def Below (items : ν → List ι) (child : ι → Option ν) (roots : ν → Prop)
    (i : ι) : Prop :=
  ∃ root node, roots root ∧ Reaches items child root node ∧ i ∈ items node

/-- Below the roots no two items lead to the same node and none leads back to
a root. -/
structure Forest (items : ν → List ι) (child : ι → Option ν)
    (roots : ν → Prop) : Prop where
  leads_once : ∀ {i j node}, Below items child roots i →
    Below items child roots j → child i = some node → child j = some node →
    i = j
  leads_off : ∀ {i node}, Below items child roots i → child i = some node →
    ¬roots node

section Forest

variable {roots : ν → Prop} (hplaced : Placed items)
  (hforest : Forest items child roots)

/-- A node which some root reaches. -/
def Inside (items : ν → List ι) (child : ι → Option ν) (roots : ν → Prop)
    (node : ν) : Prop :=
  ∃ root, roots root ∧ Reaches items child root node

theorem Inside.reaches {node lower : ν}
    (hinside : Inside items child roots node)
    (hreach : Reaches items child node lower) :
    Inside items child roots lower := by
  obtain ⟨root, hroot, hnode⟩ := hinside
  exact ⟨root, hroot, hnode.trans hreach⟩

theorem Inside.below {node : ν} (hinside : Inside items child roots node)
    {i : ι} (hi : i ∈ items node) : Below items child roots i := by
  obtain ⟨root, hroot, hnode⟩ := hinside
  exact ⟨root, node, hroot, hnode, hi⟩

include hplaced hforest

/-- Two nodes above a common node are above one another. -/
theorem Forest.comparable {first second node : ν}
    (hfirstIn : Inside items child roots first)
    (hsecondIn : Inside items child roots second)
    (hfirst : Reaches items child first node)
    (hsecond : Reaches items child second node) :
    Reaches items child first second ∨ Reaches items child second first := by
  induction hfirst with
  | refl => exact .inr hsecond
  | @tail upper node hupper hedge ih =>
      cases hsecond with
      | refl => exact .inl (hupper.tail hedge)
      | @tail other _ hother hlast =>
          obtain ⟨i, hi, hchild⟩ := hedge
          obtain ⟨j, hj, hchild'⟩ := hlast
          have heq : i = j := hforest.leads_once
            ((hfirstIn.reaches hupper).below hi)
            ((hsecondIn.reaches hother).below hj) hchild hchild'
          have hsame : upper = other := hplaced.unique hi (heq ▸ hj)
          exact ih (hsame ▸ hother)

/-- What two items of a node lead to has nothing in common. -/
theorem Forest.items_apart {node : ν}
    (hinside : Inside items child roots node)
    (hacyclic : AcyclicFrom items child node) {i j : ι}
    (hi : i ∈ items node) (hj : j ∈ items node) {lower other common : ν}
    (hchild : child i = some lower) (hchild' : child j = some other)
    (hlower : Reaches items child lower common)
    (hother : Reaches items child other common) : i = j := by
  have hcycle : ∀ {k sub}, k ∈ items node → child k = some sub →
      ¬Reaches items child sub node := by
    intro k sub hk hsub hback
    exact hacyclic node .refl (.head' ⟨k, hk, hsub⟩ hback)
  have hsame : ∀ {k m sub tip}, k ∈ items node → m ∈ items node →
      child k = some sub → child m = some tip → Reaches items child sub tip →
      k = m := by
    intro k m sub tip hk hm hsub htip hreach
    cases hreach with
    | refl =>
        exact hforest.leads_once (hinside.below hk) (hinside.below hm) hsub htip
    | @tail upper _ hupper hedge =>
        obtain ⟨n, hn, hchildn⟩ := hedge
        have hin : Inside items child roots upper :=
          (hinside.reaches (.single ⟨k, hk, hsub⟩)).reaches hupper
        have hnm : n = m := hforest.leads_once (hin.below hn)
          (hinside.below hm) hchildn htip
        have hback : upper = node := hplaced.unique hn (hnm ▸ hm)
        exact absurd (hback ▸ hupper) (hcycle hk hsub)
  have hlowerIn := hinside.reaches (.single ⟨i, hi, hchild⟩)
  have hotherIn := hinside.reaches (.single ⟨j, hj, hchild'⟩)
  cases hforest.comparable hplaced hlowerIn hotherIn hlower hother with
  | inl h => exact hsame hi hj hchild hchild' h
  | inr h => exact (hsame hj hi hchild' hchild h).symm

/-- What two roots reach has nothing in common. -/
theorem Forest.roots_apart {first second common : ν} (hroot : roots first)
    (hroot' : roots second) (hfirst : Reaches items child first common)
    (hsecond : Reaches items child second common) : first = second := by
  have hsame : ∀ {root other}, roots root → roots other →
      Reaches items child root other → root = other := by
    intro root other hin hother hreach
    cases hreach with
    | refl => rfl
    | @tail upper _ hupper hedge =>
        obtain ⟨i, hi, hchild⟩ := hedge
        exact absurd hother
          (hforest.leads_off ⟨root, upper, hin, hupper, hi⟩ hchild)
  cases hforest.comparable hplaced ⟨first, hroot, .refl⟩
      ⟨second, hroot', .refl⟩ hfirst hsecond with
  | inl h => exact hsame hroot hroot' h
  | inr h => exact (hsame hroot' hroot h).symm

theorem Forest.walk_nodup {fuel : ℕ} {node : ν}
    (hinside : Inside items child roots node) {l : List ι}
    (h : walk items child fuel node = some l) : l.Nodup := by
  induction fuel generalizing node l with
  | zero => cases h
  | succ fuel ih =>
      have hacyclic := acyclicFrom_of_acc (acc_of_walk h)
      -- Nothing below an item of the node stands at the node itself.
      have hlower : ∀ i ∈ items node, ∀ lower under, child i = some lower →
          walk items child fuel lower = some under →
          ∀ x ∈ under, x ∉ items node := by
        intro i hi lower under hchild hwalk x hx hown
        obtain ⟨last, hreach, hitem⟩ := (mem_walk hwalk).mp hx
        have hback : last = node := hplaced.unique hitem hown
        exact hacyclic node .refl (.head' ⟨i, hi, hchild⟩ (hback ▸ hreach))
      refine gather_nodup (hplaced.nodup node) ?_ ?_ h
      · intro i hi part hpart
        rcases listed_cases hpart with ⟨-, rfl⟩ |
          ⟨lower, under, hchild, hunder, rfl⟩
        · exact List.nodup_singleton i
        · have hunderNodup :=
            ih (hinside.reaches (.single ⟨i, hi, hchild⟩)) hunder
          refine List.nodup_append'.mpr
            ⟨hunderNodup, List.nodup_singleton i, ?_⟩
          intro x hx hx'
          have hxi : x = i := List.mem_singleton.mp hx'
          exact hlower i hi lower under hchild hunder x hx (hxi ▸ hi)
      · intro i hi j hj part other x hpart hother hx hx'
        rcases mem_listed hpart hx with rfl | ⟨lower, under, hchild, hunder, hx⟩
        · rcases mem_listed hother hx' with rfl |
            ⟨lower', under', hchild', hunder', hx'⟩
          · rfl
          · exact absurd hi (hlower j hj lower' under' hchild' hunder' x hx')
        · rcases mem_listed hother hx' with rfl |
            ⟨lower', under', hchild', hunder', hx'⟩
          · exact absurd hj (hlower i hi lower under hchild hunder x hx)
          · obtain ⟨last, hreach, hitem⟩ := (mem_walk hunder).mp hx
            obtain ⟨last', hreach', hitem'⟩ := (mem_walk hunder').mp hx'
            have hsame : last = last' := hplaced.unique hitem hitem'
            exact hforest.items_apart hplaced hinside hacyclic hi hj hchild
              hchild' hreach (hsame ▸ hreach')

end Forest

/-! ## Walks from several nodes -/

def walkAll (items : ν → List ι) (child : ι → Option ν) (fuel : ℕ)
    (starts : List ν) : Option (List ι) :=
  gather (walk items child fuel) starts

theorem mem_walkAll {fuel : ℕ} {starts : List ν} {l : List ι}
    (h : walkAll items child fuel starts = some l) {x : ι} :
    x ∈ l ↔ Below items child (· ∈ starts) x := by
  rw [mem_gather h]
  constructor
  · rintro ⟨start, hstart, part, hpart, hx⟩
    obtain ⟨node, hreach, hitem⟩ := (mem_walk hpart).mp hx
    exact ⟨start, node, hstart, hreach, hitem⟩
  · rintro ⟨start, node, hstart, hreach, hitem⟩
    obtain ⟨part, hpart⟩ := exists_of_gather h hstart
    exact ⟨start, hstart, part, hpart, (mem_walk hpart).mpr ⟨node, hreach, hitem⟩⟩

theorem exists_walkAll_iff [Finite ν] {starts : List ν} :
    (∃ fuel l, walkAll items child fuel starts = some l) ↔
      ∀ start ∈ starts, AcyclicFrom items child start := by
  constructor
  · rintro ⟨fuel, l, h⟩ start hstart
    obtain ⟨part, hpart⟩ := exists_of_gather h hstart
    exact exists_walk_iff.mp ⟨fuel, part, hpart⟩
  · intro h
    exact exists_gather (fun _ _ _ _ hle hwalk => walk_mono hle hwalk)
      fun start hstart => exists_walk_iff.mpr (h start hstart)

theorem reaches_of_empty {start node : ν} (hempty : items start = [])
    (hreach : Reaches items child start node) : node = start := by
  cases hreach.cases_head with
  | inl heq => exact heq.symm
  | inr hstep =>
      obtain ⟨_, ⟨i, hi, -⟩, -⟩ := hstep
      rw [hempty] at hi
      cases hi

/-- Over a forest, the walk from the roots and from further starts is exact
if and only if nothing stands at the further starts. -/
theorem Forest.walkAll_exact_iff {roots : ν → Prop} (hplaced : Placed items)
    (hforest : Forest items child roots) {starts : List ν}
    (hstarts : starts.Nodup) (hroots : ∀ root, roots root → root ∈ starts)
    {fuel : ℕ} {l : List ι} (h : walkAll items child fuel starts = some l) :
    (l.Nodup ∧ ∀ x, x ∈ l ↔ Below items child roots x) ↔
      ∀ start ∈ starts, ¬roots start → items start = [] := by
  constructor
  · rintro ⟨hnodup, hmem⟩ start hstart hnot
    refine List.eq_nil_iff_forall_not_mem.mpr fun x hx => hnot ?_
    have hlisted : x ∈ l :=
      (mem_walkAll h).mpr ⟨start, start, hstart, .refl, hx⟩
    obtain ⟨root, node, hroot, hreach, hitem⟩ := (hmem x).mp hlisted
    obtain ⟨own, hown⟩ := exists_of_gather h hstart
    obtain ⟨other, hother⟩ := exists_of_gather h (hroots root hroot)
    have hsame : start = root := gather_apart h hnodup hstart
      (hroots root hroot) hown hother ((mem_walk hown).mpr ⟨start, .refl, hx⟩)
      ((mem_walk hother).mpr ⟨node, hreach, hitem⟩)
    exact hsame ▸ hroot
  · intro hempty
    have hroot : ∀ {start node x}, start ∈ starts →
        Reaches items child start node → x ∈ items node → roots start := by
      intro start node x hstart hreach hx
      by_contra hnot
      have hnil := hempty start hstart hnot
      rw [reaches_of_empty hnil hreach, hnil] at hx
      cases hx
    constructor
    · refine gather_nodup hstarts ?_ ?_ h
      · intro start hstart part hpart
        by_cases hin : roots start
        · exact hforest.walk_nodup hplaced ⟨start, hin, .refl⟩ hpart
        · have hnil : part = [] := by
            refine List.eq_nil_iff_forall_not_mem.mpr fun x hx => hin ?_
            obtain ⟨node, hreach, hitem⟩ := (mem_walk hpart).mp hx
            exact hroot hstart hreach hitem
          exact hnil ▸ List.nodup_nil
      · intro start hstart other hother part part' x hpart hpart' hx hx'
        obtain ⟨node, hreach, hitem⟩ := (mem_walk hpart).mp hx
        obtain ⟨node', hreach', hitem'⟩ := (mem_walk hpart').mp hx'
        have hsame : node = node' := hplaced.unique hitem hitem'
        exact hforest.roots_apart hplaced (hroot hstart hreach hitem)
          (hroot hother hreach' hitem') hreach (hsame ▸ hreach')
    · intro x
      rw [mem_walkAll h]
      constructor
      · rintro ⟨start, node, hstart, hreach, hx⟩
        exact ⟨start, node, hroot hstart hreach hx, hreach, hx⟩
      · rintro ⟨root, node, hin, hreach, hx⟩
        exact ⟨root, node, hroots root hin, hreach, hx⟩

end TreeWalk
