import Mathlib.Tactic

/-!
# Computations which record what they touch

A `Traced ι ε α` computation ends with a value or an error, as in
`Except ε α`, and also carries the list of the `ι` it has touched up to that
point.  The trace survives an error.  Results are reasoned about through
`result_bind`, traces through `mem_touched_bind`.
-/

universe u v w

structure Traced (ι : Type u) (ε : Type v) (α : Type w) where
  touched : List ι
  result : Except ε α

namespace Traced

variable {ι : Type u} {ε : Type v}

/-- Run the second computation on the value of the first one. -/
def andThen {α β : Type w} (x : Traced ι ε α) (f : α → Traced ι ε β) :
    Traced ι ε β :=
  match x.result with
  | .ok a => ⟨x.touched ++ (f a).touched, (f a).result⟩
  | .error e => ⟨x.touched, .error e⟩

instance : Monad (Traced ι ε) where
  pure a := ⟨[], .ok a⟩
  bind := andThen

/-- A computation which touches nothing. -/
def lift {α : Type w} (x : Except ε α) : Traced ι ε α := ⟨[], x⟩

/-- A computation which touches one index. -/
def touch {α : Type w} (i : ι) (x : Except ε α) : Traced ι ε α := ⟨[i], x⟩

/-- Stop with an error. -/
def fail {α : Type w} (e : ε) : Traced ι ε α := ⟨[], .error e⟩

variable {α β : Type w}

@[simp]
theorem result_pure (a : α) : (pure a : Traced ι ε α).result = .ok a := rfl

@[simp]
theorem result_lift (x : Except ε α) :
    (lift x : Traced ι ε α).result = x := rfl

@[simp]
theorem result_touch (i : ι) (x : Except ε α) :
    (touch i x).result = x := rfl

@[simp]
theorem result_fail (e : ε) : (fail e : Traced ι ε α).result = .error e := rfl

@[simp]
theorem result_bind (x : Traced ι ε α) (f : α → Traced ι ε β) :
    (x >>= f).result =
      match x.result with
      | .ok a => (f a).result
      | .error e => .error e := by
  change (andThen x f).result = _
  unfold andThen
  cases x.result <;> rfl

@[simp]
theorem touched_pure (a : α) : (pure a : Traced ι ε α).touched = [] := rfl

@[simp]
theorem touched_lift (x : Except ε α) :
    (lift x : Traced ι ε α).touched = [] := rfl

@[simp]
theorem touched_touch (i : ι) (x : Except ε α) :
    (touch i x).touched = [i] := rfl

@[simp]
theorem touched_fail (e : ε) : (fail e : Traced ι ε α).touched = [] := rfl

theorem bind_of_ok {x : Traced ι ε α} {a : α} (h : x.result = .ok a)
    (f : α → Traced ι ε β) :
    x >>= f = ⟨x.touched ++ (f a).touched, (f a).result⟩ := by
  change andThen x f = _
  unfold andThen
  rw [h]

/-- A sequence touches what its first part touches and, when that part
returns, what the second part touches on its value. -/
theorem mem_touched_bind {x : Traced ι ε α} {f : α → Traced ι ε β} {i : ι} :
    i ∈ (x >>= f).touched ↔
      i ∈ x.touched ∨ ∃ a, x.result = .ok a ∧ i ∈ (f a).touched := by
  change i ∈ (andThen x f).touched ↔ _
  unfold andThen
  cases x.result <;> simp

/-- Everything touched satisfies `P`, and a returned value satisfies `Q`. -/
structure Ensures (P : ι → Prop) (Q : α → Prop) (x : Traced ι ε α) :
    Prop where
  touched : ∀ i ∈ x.touched, P i
  result : ∀ a, x.result = .ok a → Q a

variable {P : ι → Prop} {Q : α → Prop} {R : β → Prop}

theorem Ensures.bind {x : Traced ι ε α} {f : α → Traced ι ε β}
    (hx : x.Ensures P Q) (hf : ∀ a, Q a → (f a).Ensures P R) :
    (x >>= f).Ensures P R := by
  constructor
  · intro i hi
    rcases mem_touched_bind.mp hi with hfirst | ⟨a, ha, hrest⟩
    · exact hx.touched i hfirst
    · exact (hf a (hx.result a ha)).touched i hrest
  · intro b hb
    rw [result_bind] at hb
    cases ha : x.result with
    | error e =>
        rw [ha] at hb
        contradiction
    | ok a =>
        rw [ha] at hb
        exact (hf a (hx.result a ha)).result b hb

theorem ensures_pure {a : α} (ha : Q a) :
    (pure a : Traced ι ε α).Ensures P Q := by
  constructor
  · simp
  · intro b hb
    rw [result_pure, Except.ok.injEq] at hb
    exact hb ▸ ha

theorem ensures_lift {x : Except ε α} (hx : ∀ a, x = .ok a → Q a) :
    (lift x : Traced ι ε α).Ensures P Q := by
  constructor
  · simp
  · exact hx

theorem ensures_fail (e : ε) : (fail e : Traced ι ε α).Ensures P Q := by
  constructor <;> simp

theorem ensures_touch {i : ι} (hi : P i) {x : Except ε α}
    (hx : ∀ a, x = .ok a → Q a) : (touch i x).Ensures P Q := by
  constructor
  · simpa using hi
  · exact hx

end Traced
