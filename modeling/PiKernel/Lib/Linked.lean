import Mathlib.Data.List.Nodup

/-!
Doubly linked lists threaded through a store by a `next` and a `prev` link of
each node, closed by a null node at both ends. The two edits are pushing a node
at the head and unlinking any node.
-/
namespace PiKernel.LinkedList
variable {Node : Type} (next prev : Node → Node) (null : Node)

/-- `Linked before head l`: following `next` from `head` visits exactly `l`, and
    every node's `prev` names the node visited before it. -/
def Linked : Node → Node → List Node → Prop
  | _, head, [] => head = null
  | before, head, i :: rest => head = i ∧ i ≠ null ∧ prev i = before ∧ Linked i (next i) rest

variable {next prev null} {next' prev' : Node → Node}

theorem linked_ne_null {before head : Node} {l : List Node}
    (h : Linked next prev null before head l) : ∀ i ∈ l, i ≠ null := by
  induction l generalizing before head with
  | nil => simp
  | cons a l ih =>
    obtain ⟨_, some, _, rest⟩ := h
    intro i member
    rcases List.mem_cons.mp member with rfl | member
    · exact some
    · exact ih rest i member

theorem linked_head {before head : Node} {l : List Node}
    (h : Linked next prev null before head l) : head = l.headD null := by
  cases l with
  | nil => exact h
  | cons a l => exact h.1

theorem linked_nil_iff {before head : Node} {l : List Node}
    (h : Linked next prev null before head l) : head = null ↔ l = [] := by
  cases l with
  | nil => exact ⟨fun _ => rfl, fun _ => h⟩
  | cons a l =>
    obtain ⟨first, some, _, _⟩ := h
    simp only [first, reduceCtorEq, iff_false]
    exact some

theorem linked_unique {before head : Node} {l m : List Node}
    (h : Linked next prev null before head l) (h' : Linked next prev null before head m) :
    l = m := by
  induction l generalizing before head m with
  | nil => exact ((linked_nil_iff h').mp h).symm
  | cons a l ih =>
    cases m with
    | nil => exact (linked_nil_iff h).mp h'
    | cons b m =>
      obtain ⟨first, _, _, rest⟩ := h
      obtain ⟨first', _, _, rest'⟩ := h'
      obtain rfl : a = b := first.symm.trans first'
      rw [ih rest rest']

theorem linked_congr {before head : Node} {l : List Node}
    (h : Linked next prev null before head l)
    (sameNext : ∀ i ∈ l, next' i = next i) (samePrev : ∀ i ∈ l, prev' i = prev i) :
    Linked next' prev' null before head l := by
  induction l generalizing before head with
  | nil => exact h
  | cons a l ih =>
    obtain ⟨first, some, back, rest⟩ := h
    refine ⟨first, some, (samePrev a List.mem_cons_self).trans back, ?_⟩
    rw [sameNext a List.mem_cons_self]
    exact ih rest (fun i m => sameNext i (List.mem_cons_of_mem a m))
      (fun i m => samePrev i (List.mem_cons_of_mem a m))

theorem linked_rebase {before before' head : Node} {l : List Node}
    (h : Linked next prev null before head l) (distinct : l.Nodup)
    (sameNext : ∀ i ∈ l, next' i = next i)
    (headBack : l ≠ [] → prev' head = before')
    (samePrev : ∀ i ∈ l, i ≠ head → prev' i = prev i) :
    Linked next' prev' null before' head l := by
  cases l with
  | nil => exact h
  | cons a l =>
    obtain ⟨first, some, _, rest⟩ := h
    subst first
    have fresh := (List.nodup_cons.mp distinct).1
    refine ⟨rfl, some, headBack (by simp), ?_⟩
    rw [sameNext head List.mem_cons_self]
    refine linked_congr rest (fun i m => sameNext i (List.mem_cons_of_mem head m)) ?_
    intro i m
    refine samePrev i (List.mem_cons_of_mem head m) ?_
    rintro rfl
    exact fresh m

theorem linked_push {head i : Node} {l : List Node}
    (h : Linked next prev null null head l) (distinct : l.Nodup) (some : i ≠ null)
    (forward : next' i = head) (back : prev' i = null)
    (sameNext : ∀ j ∈ l, next' j = next j)
    (headBack : head ≠ null → prev' head = i)
    (samePrev : ∀ j ∈ l, j ≠ head → prev' j = prev j) :
    Linked next' prev' null null i (i :: l) := by
  refine ⟨rfl, some, back, ?_⟩
  rw [forward]
  refine linked_rebase h distinct sameNext ?_ samePrev
  intro full
  exact headBack (fun empty => full ((linked_nil_iff h).mp empty))

theorem linked_around {before head i : Node} {xs ys : List Node}
    (h : Linked next prev null before head (xs ++ i :: ys)) :
    prev i = (xs.getLast?).getD before ∧ Linked next prev null i (next i) ys ∧
      (xs ≠ [] → next (prev i) = i) ∧ (xs = [] → head = i) := by
  induction xs generalizing before head with
  | nil =>
    obtain ⟨first, _, back, rest⟩ := h
    exact ⟨by simpa using back, rest, by simp, fun _ => first⟩
  | cons a xs ih =>
    obtain ⟨first, some, back, rest⟩ := h
    obtain ⟨backI, after, forward, front⟩ := ih rest
    refine ⟨?_, after, ?_, by simp⟩
    · rw [backI]
      cases xs with
      | nil => simp
      | cons b xs =>
        rw [List.getLast?_cons_cons]
        simp [List.getLast?_eq_some_getLast]
    · intro _
      by_cases empty : xs = []
      · subst empty
        have : prev i = a := by simpa using backI
        rw [this]
        exact front rfl
      · exact forward empty

/-- Unlinking `i`: its predecessor (or the head) skips to its successor, and the
    successor's back link skips to its predecessor. -/
theorem linked_unlink [DecidableEq Node] {before head head' i : Node} {xs ys : List Node}
    (h : Linked next prev null before head (xs ++ i :: ys)) (distinct : (xs ++ i :: ys).Nodup)
    (outside : before ∉ xs ++ i :: ys)
    (front : head' = if prev i = before then next i else head)
    (forward : prev i ≠ before → next' (prev i) = next i)
    (backward : next i ≠ null → prev' (next i) = prev i)
    (sameNext : ∀ j ∈ xs ++ ys, j ≠ prev i → next' j = next j)
    (samePrev : ∀ j ∈ xs ++ ys, j ≠ next i → prev' j = prev j) :
    Linked next' prev' null before head' (xs ++ ys) := by
  induction xs generalizing before head head' with
  | nil =>
    obtain ⟨first, some, back, rest⟩ := h
    have distinctY : ys.Nodup := (List.nodup_cons.mp distinct).2
    have beforeY : before ∉ ys := fun m => outside (List.mem_cons_of_mem i m)
    rw [front, if_pos back]
    refine linked_rebase rest distinctY ?_ ?_ ?_
    · intro j m
      refine sameNext j m ?_
      rintro rfl
      exact beforeY (back ▸ m)
    · intro full
      rw [← back]
      exact backward (fun empty => full ((linked_nil_iff rest).mp empty))
    · exact fun j m => samePrev j m
  | cons a xs ih =>
    obtain ⟨first, some, back, rest⟩ := h
    have distinctT : (xs ++ i :: ys).Nodup := (List.nodup_cons.mp distinct).2
    have freshA : a ∉ xs ++ i :: ys := (List.nodup_cons.mp distinct).1
    obtain ⟨backI, after, _, _⟩ := linked_around rest
    have inside : prev i ∈ a :: xs := by
      rw [backI]
      cases last : xs.getLast? with
      | none => simp
      | some z => exact List.mem_cons_of_mem a (List.mem_of_getLast? last)
    have notBefore : prev i ≠ before := by
      intro same
      apply outside
      rw [← same]
      rcases List.mem_cons.mp inside with eq | m
      · rw [eq]; exact List.mem_cons_self
      · exact List.mem_cons_of_mem a (List.mem_append_left _ m)
    have backA : a ≠ next i := by
      intro same
      have nonempty : ys ≠ [] := by
        intro empty
        subst empty
        have : next i = null := after
        exact some (same.trans this)
      have headY := linked_head after
      cases ys with
      | nil => exact nonempty rfl
      | cons y ys =>
        have : a = y := same.trans headY
        subst this
        exact freshA (List.mem_append_right xs (List.mem_cons_of_mem i List.mem_cons_self))
    rw [front, if_neg notBefore]
    refine ⟨first, some, ?_, ?_⟩
    · rw [samePrev a (by simp) backA, back]
    · refine ih rest distinctT freshA ?_ ?_ ?_ ?_
      · by_cases same : prev i = a
        · rw [if_pos same, ← same, forward notBefore]
        · rw [if_neg same]
          exact sameNext a (by simp) (Ne.symm same)
      · exact fun ne => forward notBefore
      · exact fun j m => sameNext j (List.mem_cons_of_mem a m)
      · exact fun j m => samePrev j (List.mem_cons_of_mem a m)

end PiKernel.LinkedList
