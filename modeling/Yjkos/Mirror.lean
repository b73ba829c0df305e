import Mathlib.Data.Set.Basic

/-!
# A picture which follows its source

A picture holds, at each of its fresh places, the rendering of what the source
has there.  The other places are to be drawn again.  Whoever changes the
source has to say which places he left fresh; moving the source and the
picture alike moves the fresh places with them.
-/

namespace Mirror

variable {ι α β : Type*}

/-- Each fresh place shows what the source has there. -/
def Shows (render : α → β) (fresh : Set ι) (source : ι → α)
    (shown : ι → β) : Prop :=
  ∀ i ∈ fresh, shown i = render (source i)

variable {render : α → β} {fresh fresh' : Set ι} {source source' : ι → α}
  {shown shown' : ι → β}

/-- Source and picture are moved by the same map. -/
theorem Shows.move (h : Shows render fresh source shown) (f : ι → ι)
    (hfresh : ∀ i ∈ fresh', f i ∈ fresh)
    (hsource : ∀ i ∈ fresh', source' i = source (f i))
    (hshown : ∀ i ∈ fresh', shown' i = shown (f i)) :
    Shows render fresh' source' shown' := by
  intro i hi
  rw [hshown i hi, hsource i hi]
  exact h (f i) (hfresh i hi)

/-- Places which stay fresh have been left alone. -/
theorem Shows.change (h : Shows render fresh source shown)
    (hfresh : fresh' ⊆ fresh)
    (hsource : ∀ i ∈ fresh', source' i = source i)
    (hshown : ∀ i ∈ fresh', shown' i = shown i) :
    Shows render fresh' source' shown' :=
  h.move id hfresh hsource hshown

/-- A place becomes fresh by being drawn. -/
theorem Shows.draw (h : Shows render fresh source shown)
    (hdraw : ∀ i ∈ fresh', i ∈ fresh ∧ shown' i = shown i ∨
      shown' i = render (source i)) :
    Shows render fresh' source shown' := by
  intro i hi
  rcases hdraw i hi with ⟨hold, heq⟩ | hnew
  · rw [heq]
    exact h i hold
  · exact hnew

end Mirror
