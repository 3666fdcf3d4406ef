import Mathlib

/-!
Searching a list for the smallest element that is large enough. `scan` is the
running minimum; its result is a best fit of the list it has seen, or the
starting value when nothing in the list improves on it.
-/
namespace PiKernel.BestFit
variable {Node Size : Type} [LinearOrder Size]

def scan (size : Node → Size) (need : Size) : List Node → Size × Node → Size × Node
  | [], best => best
  | i :: rest, best =>
    scan size need rest (if need ≤ size i ∧ size i < best.1 then (size i, i) else best)

structure IsBestFit (size : Node → Size) (need : Size) (l : List Node) (b : Node) : Prop where
  member : b ∈ l
  enough : need ≤ size b
  least : ∀ i ∈ l, need ≤ size i → size b ≤ size i

theorem scan_cases (size : Node → Size) (need : Size) (l : List Node) (best : Size × Node) :
    (scan size need l best = best ∧ ∀ i ∈ l, need ≤ size i → best.1 ≤ size i) ∨
      (IsBestFit size need l (scan size need l best).2 ∧
        (scan size need l best).1 = size (scan size need l best).2 ∧
        (scan size need l best).1 < best.1) := by
  induction l generalizing best with
  | nil => exact Or.inl ⟨rfl, by simp⟩
  | cons a l ih =>
    simp only [scan]
    split
    · rename_i better
      rcases ih (size a, a) with ⟨same, least⟩ | ⟨fit, value, less⟩
      · right
        rw [same]
        refine ⟨⟨List.mem_cons_self, better.1, ?_⟩, rfl, better.2⟩
        intro i m enough
        rcases List.mem_cons.mp m with rfl | m
        · exact le_refl _
        · exact least i m enough
      · right
        refine ⟨⟨List.mem_cons_of_mem a fit.member, fit.enough, ?_⟩, value, lt_trans less better.2⟩
        intro i m enough
        rcases List.mem_cons.mp m with rfl | m
        · rw [← value]
          exact le_of_lt less
        · exact fit.least i m enough
    · rename_i worse
      have skip : need ≤ size a → best.1 ≤ size a := by
        intro enough
        by_contra less
        exact worse ⟨enough, not_le.mp less⟩
      rcases ih best with ⟨same, least⟩ | ⟨fit, value, less⟩
      · left
        refine ⟨same, ?_⟩
        intro i m enough
        rcases List.mem_cons.mp m with rfl | m
        · exact skip enough
        · exact least i m enough
      · right
        refine ⟨⟨List.mem_cons_of_mem a fit.member, fit.enough, ?_⟩, value, less⟩
        intro i m enough
        rcases List.mem_cons.mp m with rfl | m
        · rw [← value]
          exact le_trans (le_of_lt less) (skip enough)
        · exact fit.least i m enough

/-- A best fit of a shorter list is one of the whole list exactly when the
    shorter list already holds a best fit of the whole. -/
theorem bestFit_extends {size : Node → Size} {need : Size} {part whole : List Node} {b : Node}
    (sub : part ⊆ whole) (fit : IsBestFit size need part b) :
    IsBestFit size need whole b ↔ ∃ i ∈ part, IsBestFit size need whole i := by
  constructor
  · exact fun h => ⟨b, fit.member, h⟩
  · intro given
    obtain ⟨i, m, h⟩ := given
    refine ⟨sub fit.member, fit.enough, ?_⟩
    intro j mj enough
    exact le_trans (fit.least i m h.enough) (h.least j mj enough)

end PiKernel.BestFit
