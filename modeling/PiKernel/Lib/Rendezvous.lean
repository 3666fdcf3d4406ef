import Mathlib.Data.Fintype.Card
import Mathlib.Logic.Function.Basic

/-!
Cores on a course of numbered points, each at its own pace. What a one-shot
counting barrier counts is how many of them have not yet got to a point; what it
is for is that nobody gets to a later point before.
-/
namespace PiKernel.Rendezvous
variable {Core : Type} [Fintype Core]

def reached (pos : Core → Nat) (k : Nat) : Nat := (Finset.univ.filter fun c => k ≤ pos c).card

/-- Nobody is at `l` or beyond before everybody is at `k` or beyond. -/
def Gated (pos : Core → Nat) (k l : Nat) : Prop := ∀ c, l ≤ pos c → ∀ d, k ≤ pos d

variable {pos : Core → Nat} {k l r : Nat} {c : Core}

theorem reached_le (pos : Core → Nat) (k : Nat) : reached pos k ≤ Fintype.card Core :=
  Finset.card_le_univ _

theorem reached_all (pos : Core → Nat) (k : Nat) : reached pos k = Fintype.card Core ↔ ∀ c, k ≤ pos c := by
  unfold reached
  rw [Finset.card_eq_iff_eq_univ, Finset.filter_eq_self]
  simp

theorem reached_lt (behind : pos c < k) : reached pos k < Fintype.card Core := by
  apply lt_of_le_of_ne (reached_le pos k)
  intro all
  have there := (reached_all pos k).mp all c
  omega

theorem reached_none (behind : ∀ c, pos c < k) : reached pos k = 0 := by
  unfold reached
  rw [Finset.card_eq_zero, Finset.filter_eq_empty_iff]
  intro c _ there
  have here := behind c
  omega

variable [DecidableEq Core]

theorem reached_pass (behind : pos c < k) (there : k ≤ r) :
    reached (Function.update pos c r) k = reached pos k + 1 := by
  have grown : (Finset.univ.filter fun d => k ≤ Function.update pos c r d) =
      insert c (Finset.univ.filter fun d => k ≤ pos d) := by
    ext d
    by_cases same : d = c
    · simp [same, there]
    · simp [same]
  have fresh : c ∉ Finset.univ.filter fun d => k ≤ pos d := by
    simp only [Finset.mem_filter, Finset.mem_univ, true_and]
    omega
  unfold reached
  rw [grown, Finset.card_insert_of_notMem fresh]

theorem reached_keep (same : k ≤ pos c ↔ k ≤ r) :
    reached (Function.update pos c r) k = reached pos k := by
  have kept : (Finset.univ.filter fun d => k ≤ Function.update pos c r d) =
      Finset.univ.filter fun d => k ≤ pos d := by
    ext d
    by_cases own : d = c
    · simp [own, same]
    · simp [own]
  unfold reached
  rw [kept]

omit [Fintype Core] in
theorem gated_move (gated : Gated pos k l) (forward : pos c ≤ r)
    (opens : l ≤ r → l ≤ pos c ∨ ∀ d, k ≤ pos d) : Gated (Function.update pos c r) k l := by
  intro d beyond e
  have all : ∀ e, k ≤ pos e := by
    by_cases same : d = c
    · subst same
      rw [Function.update_self] at beyond
      cases opens beyond with
      | inl before => exact gated d before
      | inr all => exact all
    · rw [Function.update_of_ne same] at beyond
      exact gated d beyond
  by_cases same : e = c
  · subst same
    rw [Function.update_self]
    exact le_trans (all e) forward
  · rw [Function.update_of_ne same]
    exact all e

end PiKernel.Rendezvous
