import PiKernel.Lib.Linked
import PiKernel.Heap.Effects

/-!
The list from `avail`, threaded through words `i + 1` and `i + 2` of the free
blocks. Removing a node and pushing a new one keep it a doubly linked list and
touch no word but link words and the pushed block's own words.
-/
namespace PiKernel.HeapModel
open LinkedList

theorem asInt_eq {w : Int} (low : -2 ^ 31 ≤ w) (high : w < 2 ^ 31) : asInt w = w :=
  Int.bmod_eq_of_le (by omega) (by omega)

theorem abs_neg {x : Int} (pos : 0 ≤ x) : abs (-x) = x := by
  unfold abs
  split <;> omega

theorem abs_pos {x : Int} (pos : 0 ≤ x) : abs x = x := by
  unfold abs
  split <;> omega

theorem store_size {h : Heap} {i x n : Int} (value : x = n ∨ x = -n) (pos : 0 ≤ n) (small : n < 2 ^ 31) :
    (h.store i x).size i = n := by
  unfold Heap.size
  rw [store_array, if_pos rfl]
  cases value with
  | inl same => rw [same, asInt_eq (by omega) small, abs_pos pos]
  | inr same => rw [same, asInt_eq (by omega) (by omega), abs_neg pos]

structure FreeList (h : Heap) (order : List Int) : Prop where
  linked : Linked (fun i => h.array (i + 1)) (fun i => h.array (i + 2)) 0 0 h.avail order
  distinct : order.Nodup
  spaced : ∀ k ∈ order, ∀ l ∈ order, k < l → k + 4 ≤ l
  range : ∀ k ∈ order, 0 < k ∧ k < 2 ^ 31

def OffLinks (order : List Int) (j : Int) : Prop := ∀ k ∈ order, j ≠ k + 1 ∧ j ≠ k + 2

theorem offLinks_erase {order : List Int} {i j : Int} (h : OffLinks order j) :
    OffLinks (order.erase i) j := fun k m => h k (List.mem_of_mem_erase m)

theorem freeList_congr {h h' : Heap} {order : List Int} (f : FreeList h order)
    (front : h'.avail = h.avail)
    (forward : ∀ k ∈ order, h'.array (k + 1) = h.array (k + 1))
    (backward : ∀ k ∈ order, h'.array (k + 2) = h.array (k + 2)) : FreeList h' order := by
  refine ⟨?_, f.distinct, f.spaced, f.range⟩
  rw [front]
  exact linked_congr f.linked forward backward

theorem freeList_avail {h : Heap} {order : List Int} (f : FreeList h order) :
    h.avail = order.headD 0 := linked_head f.linked

theorem freeList_head_mem {h : Heap} {order : List Int} (f : FreeList h order)
    (some : h.avail ≠ 0) : h.avail ∈ order := by
  have front := freeList_avail f
  cases order with
  | nil => exact absurd front some
  | cons a order => rw [front]; exact List.mem_cons_self

/-- The neighbours of a listed block, as `next` and `prev` read them: the words
    themselves, each zero or another listed block. -/
theorem freeList_neighbours {h : Heap} {order : List Int} (f : FreeList h order) {i : Int}
    (member : i ∈ order) :
    h.next i = h.array (i + 1) ∧ h.prev i = h.array (i + 2) ∧
      (h.next i = 0 ∨ h.next i ∈ order.erase i) ∧
      (h.prev i = 0 ∨ h.prev i ∈ order.erase i) := by
  obtain ⟨xs, ys, split⟩ := List.append_of_mem member
  have linked := f.linked
  have distinct := f.distinct
  have range := f.range
  subst split
  have fresh : i ∉ xs := by
    intro m
    exact (List.nodup_append.mp distinct).2.2 i m i List.mem_cons_self rfl
  have erased : (xs ++ i :: ys).erase i = xs ++ ys := by
    rw [List.erase_append_right _ fresh, List.erase_cons_head]
  obtain ⟨back, after, _, _⟩ := linked_around linked
  have ahead := linked_head after
  have nextIn : h.array (i + 1) = 0 ∨ h.array (i + 1) ∈ ys := by
    cases ys with
    | nil => exact Or.inl ahead
    | cons y ys => exact Or.inr (by rw [ahead]; exact List.mem_cons_self)
  have prevIn : h.array (i + 2) = 0 ∨ h.array (i + 2) ∈ xs := by
    rw [back]
    cases last : xs.getLast? with
    | none => exact Or.inl rfl
    | some z => exact Or.inr (List.mem_of_getLast? last)
  have nextSmall : asInt (h.array (i + 1)) = h.array (i + 1) := by
    rcases nextIn with zero | m
    · rw [zero]; rfl
    · have := range _ (List.mem_append_right xs (List.mem_cons_of_mem i m))
      exact asInt_eq (by omega) this.2
  have prevSmall : asInt (h.array (i + 2)) = h.array (i + 2) := by
    rcases prevIn with zero | m
    · rw [zero]; rfl
    · have := range _ (List.mem_append_left (i :: ys) m)
      exact asInt_eq (by omega) this.2
  rw [erased]
  simp only [Heap.next, Heap.prev, nextSmall, prevSmall, true_and]
  exact ⟨nextIn.imp_right (List.mem_append_right xs), prevIn.imp_right (List.mem_append_left ys)⟩

theorem remove_avail (h : Heap) (i : Int) :
    (h.remove i).avail = if h.prev i = 0 then h.next i else h.avail := by
  unfold Heap.remove
  by_cases front : h.prev i = 0 <;> by_cases last : h.next i = 0 <;> simp [front, last]

theorem remove_array (h : Heap) (i j : Int) :
    (h.remove i).array j =
      if h.next i ≠ 0 ∧ j = h.next i + 2 then h.prev i
      else if h.prev i ≠ 0 ∧ j = h.prev i + 1 then h.next i else h.array j := by
  unfold Heap.remove
  by_cases front : h.prev i = 0 <;> by_cases last : h.next i = 0 <;> simp [front, last]

theorem remove_fields (h : Heap) (i : Int) :
    (h.remove i).base = h.base ∧ (h.remove i).len = h.len ∧ (h.remove i).theLock = h.theLock ∧
      (h.remove i).coresAwoken = h.coresAwoken := by
  unfold Heap.remove
  by_cases front : h.prev i = 0 <;> by_cases last : h.next i = 0 <;> simp [front, last]

theorem remove_off_links {h : Heap} {order : List Int} (f : FreeList h order) {i : Int}
    (member : i ∈ order) {j : Int} (off : OffLinks (order.erase i) j) :
    (h.remove i).array j = h.array j := by
  obtain ⟨_, _, ahead, behind⟩ := freeList_neighbours f member
  rw [remove_array, if_neg, if_neg]
  · intro given
    obtain ⟨some, same⟩ := given
    exact (off _ (behind.resolve_left some)).1 same
  · intro given
    obtain ⟨some, same⟩ := given
    exact (off _ (ahead.resolve_left some)).2 same

theorem remove_freeList {h : Heap} {order : List Int} (f : FreeList h order) {i : Int}
    (member : i ∈ order) : FreeList (h.remove i) (order.erase i) := by
  obtain ⟨nextWord, prevWord, ahead, behind⟩ := freeList_neighbours f member
  have apart : ∀ k ∈ order, ∀ l ∈ order, k + 1 ≠ l + 2 := by
    intro k mk l ml same
    have := f.spaced l ml k mk (by omega)
    omega
  have inside : ∀ {k}, k ∈ order.erase i → k ∈ order := List.mem_of_mem_erase
  refine ⟨?_, f.distinct.erase i, fun k mk l ml => f.spaced k (inside mk) l (inside ml),
    fun k mk => f.range k (inside mk)⟩
  obtain ⟨xs, ys, split⟩ := List.append_of_mem member
  have fresh : i ∉ xs := by
    intro m
    have distinct := f.distinct
    rw [split] at distinct
    exact (List.nodup_append.mp distinct).2.2 i m i List.mem_cons_self rfl
  have erased : order.erase i = xs ++ ys := by
    rw [split, List.erase_append_right _ fresh, List.erase_cons_head]
  rw [erased] at ahead behind ⊢
  have whole : ∀ {k}, k ∈ xs ++ ys → k ∈ order := fun m => inside (by rw [erased]; exact m)
  refine linked_unlink (i := i) (split ▸ f.linked) (split ▸ f.distinct) ?_ ?_ ?_ ?_ ?_ ?_
  · rw [← split]
    exact fun m => linked_ne_null f.linked 0 m rfl
  · rw [remove_avail, prevWord, nextWord]
  · intro some
    rw [← prevWord] at some
    show (h.remove i).array (h.array (i + 2) + 1) = h.array (i + 1)
    rw [← prevWord, ← nextWord, remove_array, if_neg, if_pos ⟨some, rfl⟩]
    intro given
    obtain ⟨someNext, same⟩ := given
    exact apart _ (whole (behind.resolve_left some)) _ (whole (ahead.resolve_left someNext)) same
  · intro some
    rw [← nextWord] at some
    show (h.remove i).array (h.array (i + 1) + 2) = h.array (i + 2)
    rw [← prevWord, ← nextWord, remove_array, if_pos ⟨some, rfl⟩]
  · intro j mj distinct
    rw [← prevWord] at distinct
    show (h.remove i).array (j + 1) = h.array (j + 1)
    rw [remove_array, if_neg, if_neg]
    · intro given
      obtain ⟨_, same⟩ := given
      exact distinct (by omega)
    · intro given
      obtain ⟨someNext, same⟩ := given
      exact apart _ (whole mj) _ (whole (ahead.resolve_left someNext)) same
  · intro j mj distinct
    rw [← nextWord] at distinct
    show (h.remove i).array (j + 2) = h.array (j + 2)
    rw [remove_array, if_neg, if_neg]
    · intro given
      obtain ⟨somePrev, same⟩ := given
      exact apart _ (whole (behind.resolve_left somePrev)) _ (whole mj) same.symm
    · intro given
      obtain ⟨_, same⟩ := given
      exact distinct (by omega)

theorem tag_array {h : Heap} {i n x : Int} (value : x = n ∨ x = -n) (pos : 0 ≤ n)
    (small : n < 2 ^ 31) (j : Int) :
    (h.tag i x).array j = if j = i ∨ j = i + n - 1 then x else h.array j := by
  have length := store_size (h := h) (i := i) value pos small
  simp only [Heap.tag, length, store_array]
  by_cases first : j = i <;> by_cases last : j = i + n - 1 <;> simp [first, last]

theorem tag_fields (h : Heap) (i x : Int) :
    (h.tag i x).base = h.base ∧ (h.tag i x).len = h.len ∧ (h.tag i x).theLock = h.theLock ∧
      (h.tag i x).coresAwoken = h.coresAwoken ∧ (h.tag i x).avail = h.avail :=
  ⟨rfl, rfl, rfl, rfl, rfl⟩

theorem makeTaken_array {h : Heap} {i n : Int} (pos : 0 ≤ n) (small : n < 2 ^ 31) (j : Int) :
    (h.makeTaken i n).array j = if j = i ∨ j = i + n - 1 then -n else h.array j :=
  tag_array (Or.inr rfl) pos small j

theorem makeAvail_fields (h : Heap) (i n : Int) :
    (h.makeAvail i n).base = h.base ∧ (h.makeAvail i n).len = h.len ∧
      (h.makeAvail i n).theLock = h.theLock ∧ (h.makeAvail i n).coresAwoken = h.coresAwoken ∧
      (h.makeAvail i n).avail = i := by
  unfold Heap.makeAvail
  dsimp only
  split <;> exact ⟨rfl, rfl, rfl, rfl, rfl⟩

/-- Later stores first: the old head's back link, the new node's links, its tags. -/
theorem makeAvail_array {h : Heap} {i n : Int} (pos : 0 ≤ n) (small : n < 2 ^ 31) (j : Int) :
    (h.makeAvail i n).array j =
      if h.avail ≠ 0 ∧ j = h.avail + 2 then i
      else if j = i + 2 then 0
      else if j = i + 1 then h.avail
      else if j = i ∨ j = i + n - 1 then n else h.array j := by
  have tagged := tag_array (h := h) (i := i) (Or.inl (rfl : n = n)) pos small j
  have front : (h.tag i n).avail = h.avail := rfl
  by_cases empty : h.avail = 0 <;> simp [Heap.makeAvail, front, empty, tagged]

theorem makeAvail_freeList {h : Heap} {order : List Int} (f : FreeList h order) {i n : Int}
    (apart : ∀ k ∈ order, k + 4 ≤ i ∨ i + n ≤ k) (pos : 4 ≤ n) (small : n < 2 ^ 31)
    (low : 0 < i) (high : i < 2 ^ 31) : FreeList (h.makeAvail i n) (i :: order) := by
  have words := makeAvail_array (h := h) (i := i) (n := n) (by omega) small
  have front := (makeAvail_fields h i n).2.2.2.2
  have full : h.avail ≠ 0 → h.avail ∈ order := freeList_head_mem f
  refine ⟨?_, List.nodup_cons.mpr ⟨?_, f.distinct⟩, ?_, ?_⟩
  · rw [front]
    refine linked_push f.linked f.distinct (by omega) ?_ ?_ ?_ ?_ ?_
    · show (h.makeAvail i n).array (i + 1) = h.avail
      rw [words, if_neg, if_neg (by omega), if_pos rfl]
      intro given
      obtain ⟨some, same⟩ := given
      have := apart _ (full some)
      omega
    · show (h.makeAvail i n).array (i + 2) = 0
      rw [words, if_neg, if_pos rfl]
      intro given
      obtain ⟨some, same⟩ := given
      have := apart _ (full some)
      omega
    · intro k mk
      show (h.makeAvail i n).array (k + 1) = h.array (k + 1)
      have away := apart k mk
      rw [words, if_neg, if_neg (by omega), if_neg (by omega), if_neg (by omega)]
      intro given
      obtain ⟨some, same⟩ := given
      have := f.spaced _ (full some) _ mk (by omega)
      omega
    · intro some
      show (h.makeAvail i n).array (h.avail + 2) = i
      rw [words, if_pos ⟨some, rfl⟩]
    · intro k mk distinct
      show (h.makeAvail i n).array (k + 2) = h.array (k + 2)
      have away := apart k mk
      rw [words, if_neg, if_neg (by omega), if_neg (by omega), if_neg (by omega)]
      intro given
      obtain ⟨_, same⟩ := given
      exact distinct (by omega)
  · intro m
    have := apart i m
    omega
  · intro k mk l ml less
    rcases List.mem_cons.mp mk with eqK | inK <;> rcases List.mem_cons.mp ml with eqL | inL
    · omega
    · have := apart l inL
      omega
    · have := apart k inK
      omega
    · exact f.spaced k inK l inL less
  · intro k mk
    rcases List.mem_cons.mp mk with rfl | mk
    · exact ⟨low, high⟩
    · exact f.range k mk

/-- Outside the block itself, putting it on the list changes link words only. -/
theorem makeAvail_off_links {h : Heap} {order : List Int} (f : FreeList h order) {i n j : Int}
    (pos : 4 ≤ n) (small : n < 2 ^ 31) (outside : j < i ∨ i + n ≤ j) (off : OffLinks order j) :
    (h.makeAvail i n).array j = h.array j := by
  rw [makeAvail_array (by omega) small, if_neg, if_neg (by omega), if_neg (by omega),
    if_neg (by omega)]
  intro given
  obtain ⟨some, same⟩ := given
  exact (off h.avail (freeList_head_mem f some)).2 same

end PiKernel.HeapModel
