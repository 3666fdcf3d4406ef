import PiKernel.Heap.Allocator

/-!
Lines 210 to 232 of `free` as a step of the allocator: the words it touches lie
in the heap, and the block joins its free neighbours. A second `free` of the
same block is noticed unless the first one joined it to a block on its left.
-/
namespace PiKernel.HeapModel
open Program Tiling

def InHeap : HeapOp → Heap → Prop
  | .loadArray i, h => 0 ≤ i ∧ i < h.len
  | .storeArray i _, h => 0 ≤ i ∧ i < h.len
  | _, _ => True

section Access
variable {h : Heap} {i : Int}

def ListInside (h : Heap) (order : List Int) : Prop := ∀ k ∈ order, k + 4 ≤ h.len

theorem remove_inside {order : List Int} (f : FreeList h order) (inside : ListInside h order)
    (member : i ∈ order) {post : Unit → Heap → Prop} (final : post () (h.remove i)) :
    (remove i).Solo heapExec InHeap post h := by
  obtain ⟨_, _, ahead, behind⟩ := freeList_neighbours f member
  have own := f.range i member
  have room := inside i member
  have links : ∀ k, k = 0 ∨ k ∈ order.erase i → k = 0 ∨ (0 < k ∧ k + 4 ≤ h.len) := by
    intro k listed
    apply listed.imp_right
    intro mk
    have mk := List.mem_of_mem_erase mk
    exact ⟨(f.range k mk).1, inside k mk⟩
  have next := links _ ahead
  have prev := links _ behind
  apply solo_run _ (run_remove i h) final
  simp only [remove, bind_eq, solo_bind_iff, solo_prev, solo_next, InHeap]
  refine ⟨by omega, by omega, ?_⟩
  by_cases first : h.prev i = 0 <;> by_cases last : h.next i = 0
  all_goals
    simp only [first, last, setNext, setPrev, ↓reduceIte, ne_eq, not_true_eq_false,
      not_false_eq_true, solo_bind_iff, solo_storeAvail, solo_storeArray, InHeap, pure_eq,
      store_len, true_and, and_true]
  · exact trivial
  · exact ⟨by omega, by omega⟩
  · exact ⟨⟨by omega, by omega⟩, trivial⟩
  · exact ⟨⟨by omega, by omega⟩, by omega, by omega⟩

theorem makeAvail_inside {n : Int} (size : 4 ≤ n) (small : n < 2 ^ 31) (low : 0 ≤ i)
    (high : i + n ≤ h.len) (head : h.avail ≠ 0 → 0 < h.avail ∧ h.avail + 4 ≤ h.len)
    {post : Unit → Heap → Prop} (final : post () (h.makeAvail i n)) :
    (makeAvail i n).Solo heapExec InHeap post h := by
  have length := store_size (h := h) (i := i) (Or.inl (rfl : n = n)) (by omega) small
  apply solo_run _ (run_makeAvail i n h) final
  simp only [makeAvail, footerFromHeader, bind_eq, pure_eq, solo_bind_iff, solo_storeArray,
    solo_size, solo_loadAvail, setNext, setPrev, InHeap, store_len, store_avail, true_and, length,
    Prog.Solo]
  refine ⟨⟨low, by omega⟩, ⟨low, by omega⟩, ⟨by omega, by omega⟩, ⟨by omega, by omega⟩,
    ⟨by omega, by omega⟩, ?_⟩
  by_cases empty : h.avail = 0
  · simp only [empty, ne_eq, not_true_eq_false, ↓reduceIte, solo_storeAvail, InHeap, and_self]
  · have bounds := head empty
    simp only [empty, ne_eq, not_false_eq_true, ↓reduceIte, solo_bind_iff, solo_storeArray,
      solo_loadAvail, solo_storeAvail, InHeap, store_avail, store_len, true_and, and_true]
    omega

theorem absorbRight_inside {order : List Int} {o : Option Block} {j n : Int} (total : Int)
    (f : FreeList h order) (inside : ListInside h order) (place : 0 ≤ j ∧ j < h.len)
    (found : ∀ c, o = some c → j = c.start ∧ h.array j > 0 ∧ (h.remove j).size j = c.size)
    (listed : ∀ c, o = some c → c.start ∈ order) (missing : o = none → h.array j < 0)
    (sum : total = n + (o.map Block.size).getD 0) (size : 4 ≤ total) (small : total < 2 ^ 31)
    (low : 0 ≤ i) (high : i + total ≤ h.len) :
    (absorbRight j i n).Solo heapExec InHeap (fun _ _ => True) h := by
  have head : ∀ {g : Heap} {l : List Int}, FreeList g l → g.len = h.len → ListInside h l →
      g.avail ≠ 0 → 0 < g.avail ∧ g.avail + 4 ≤ g.len := by
    intro g l fl len room full
    have member := freeList_head_mem fl full
    have bound := room _ member
    exact ⟨(fl.range _ member).1, by omega⟩
  simp only [absorbRight, bind_eq, solo_bind_iff, solo_isAvail]
  refine ⟨place, ?_⟩
  cases o with
  | none =>
    have taken : ¬ h.array j > 0 := by
      have := missing rfl
      omega
    have same : total = n := by simpa using sum
    subst same
    simp only [taken, decide_false, Bool.false_eq_true, ↓reduceIte]
    exact makeAvail_inside size small low high (head f rfl inside) trivial
  | some c =>
    obtain ⟨start, free, length⟩ := found c rfl
    have member : j ∈ order := start ▸ listed c rfl
    obtain ⟨_, len, _⟩ := remove_fields h j
    have rest : ListInside h (order.erase j) := fun k mk => inside k (List.mem_of_mem_erase mk)
    have same : total = n + c.size := by simpa using sum
    simp only [free, decide_true, ↓reduceIte, solo_bind_iff]
    apply remove_inside f inside member
    simp only [solo_size, length, ← same]
    refine ⟨?_, makeAvail_inside size small low (len ▸ high)
      (head (remove_freeList f member) len rest) trivial⟩
    simp only [InHeap, len]
    exact place

end Access

section Release
variable {h : Heap} {L : Layout} {b : Block}

theorem order_inside (r : Represents h L) : ListInside h L.order := by
  intro k mk
  have range := order_range L k mk
  have len := r.len_eq
  omega

theorem left_inside (r : Represents h L) (member : b ∈ L.blocks) :
    0 ≤ b.start - h.size (b.start - 1) ∧ b.start - h.size (b.start - 1) < b.start := by
  rcases tiles_before L.tiles member with first | ⟨a, ma, meet⟩
  · have length : h.size (b.start - 1) = 2 := by
      rw [first]
      exact sentinel_size r.first.2
    omega
  · have bounds := block_bounds ma
    have length := footer_size r ma
    rw [meet] at length
    simp only [Block.stop] at meet
    omega

theorem absorbLeft_inside (r : Represents h L) (s : Surroundings L b) :
    (absorbLeft (b.start - h.size (b.start - 1)) b.stop b.start b.size).Solo heapExec InHeap
      (fun _ t => t = s.heap h) h := by
  have bounds := s.merged_bounds
  have own := block_bounds s.member
  have len := r.len_eq
  obtain ⟨low, high⟩ := s.merged_size
  obtain ⟨lowL, highL⟩ := left_inside r s.member
  obtain ⟨leftSome, leftNone⟩ := left_probe r s
  obtain ⟨rightSome, rightNone⟩ := right_seen r s
  have list := withoutBlock_freeList (represents_freeList r) (fun _ => s.left_listed)
  have fields := (withoutBlock_fields h s.left).2.1
  have shorter : ListInside (h.withoutBlock s.left) (withoutBlock L.order s.left) := by
    intro k mk
    rw [withoutBlock_eq_filter (order_nodup L)] at mk
    rw [fields]
    exact order_inside r k (List.mem_of_mem_filter mk)
  have place : 0 ≤ b.stop ∧ b.stop < (h.withoutBlock s.left).len := by
    rw [fields]
    simp only [Block.stop]
    omega
  have room : s.merged.start + s.merged.size ≤ (h.withoutBlock s.left).len := by
    rw [fields]
    simp only [Block.stop] at bounds
    omega
  have absorb := fun i n => absorbRight_inside (i := i) (n := n) s.merged.size list shorter place
    rightSome (fun _ => s.right_listed) rightNone
  apply solo_run _ (absorbLeft_run r s) rfl
  simp only [absorbLeft, bind_eq, solo_bind_iff, solo_isAvail, InHeap]
  refine ⟨by omega, ?_⟩
  cases is : s.left with
  | none =>
    have refused : ¬ h.array (b.start - h.size (b.start - 1)) > 0 := by
      have := leftNone is
      omega
    have whole : s.merged.start = b.start ∧
        s.merged.size = b.size + (s.right.map Block.size).getD 0 := by
      simp [Surroundings.merged, is]
    have rest := absorb b.start b.size whole.2 low high (by omega) (whole.1 ▸ room)
    rw [is] at rest
    simp only [refused, decide_false, Bool.false_eq_true, ↓reduceIte]
    exact rest
  | some a =>
    obtain ⟨found, lengthA⟩ := left_seen r s is
    have boundsA := block_bounds (s.left_member is)
    have whole : s.merged.start = a.start ∧
        s.merged.size = b.size + a.size + (s.right.map Block.size).getD 0 := by
      simp [Surroundings.merged, is, Int.add_comm a.size b.size]
    have rest := absorb a.start (b.size + a.size) whole.2 low high (by omega) (whole.1 ▸ room)
    rw [is] at rest
    simp only [leftSome a is, found, decide_true, ↓reduceIte, solo_bind_iff]
    apply remove_inside (represents_freeList r) (order_inside r) (s.left_listed is)
    simp only [solo_size, lengthA, InHeap, (remove_fields h a.start).2.1]
    exact ⟨by omega, rest⟩

theorem freeBlock_inside (r : Represents h L) (s : Surroundings L b) (taken : b.free = false)
    (p : Int) : (freeBlock p b.start).Solo heapExec InHeap (fun _ t => t = s.heap h) h := by
  have header := taken_header_neg r s.member taken
  have length := header_size r s.member
  have own := block_bounds s.member
  have len := r.len_eq
  have left : b.start - 1 - h.size (b.start - 1) + 1 = b.start - h.size (b.start - 1) := by omega
  rw [freeBlock_eq]
  simp only [solo_bind_iff, solo_isTaken, header, decide_true, ↓reduceIte, solo_size, solo_left,
    solo_right, left, length, InHeap]
  exact ⟨by omega, by omega, by omega, by omega, absorbLeft_inside r s⟩

/-- Lines 210 to 232 of `free`, entered with the header of `b`: all accesses are
    inside the heap, nothing panics, and the end is a release of `b` that has
    left every word of the other taken blocks alone. -/
def FreeRefines (h : Heap) (L : Layout) (b : Block) (p : Int) : Prop :=
  (freeBlock p b.start).Solo heapExec InHeap (fun _ h' => ∃ M, Releases L b M ∧
    Represents h' M ∧ ∀ c ∈ L.blocks, c.free = false → c ≠ b →
      c ∈ M.blocks ∧ ∀ j, c.start ≤ j → j < c.stop → h'.array j = h.array j) h

theorem free_refines_release (r : Represents h L) (member : b ∈ L.blocks)
    (taken : b.free = false) (p : Int) : FreeRefines h L b p := by
  obtain ⟨s⟩ := exists_surroundings member
  apply solo_mono _ (freeBlock_inside r s taken p)
  intro _ h' final
  subst final
  refine ⟨s.release taken, release_releases s taken, release_represents r s taken, ?_⟩
  intro c mc takenC other
  have kept := release_keeps s taken mc takenC other
  refine ⟨kept, ?_⟩
  intro j low high
  exact release_words r s taken (not_freeWord kept takenC low high)

theorem left_none_iff (r : Represents h L) (s : Surroundings L b) :
    s.left = none ↔ ∀ a ∈ L.blocks, a.stop = b.start → a.free = false := by
  obtain ⟨_, _, meet, _⟩ := s.tiles
  constructor
  · intro none a ma stop
    have length := footer_size r ma
    have header := (left_probe r s).2 none
    rw [stop] at length
    simp only [Block.stop] at stop
    have place : b.start - a.size = a.start := by omega
    rw [length, place] at header
    by_contra free
    have positive := free_header_pos r ma (by simpa using free)
    omega
  · intro taken
    cases is : s.left with
    | none => rfl
    | some a =>
      have takenA := taken a (s.left_member is) (meet a is)
      exact absurd rfl (free_ne_taken (s.left_free a is) takenA)

/-- The header of a block that has been joined to its left neighbour stays behind. -/
theorem stale_header (r : Represents h L) (s : Surroundings L b) (taken : b.free = false)
    {a : Block} (is : s.left = some a) : (s.heap h).array b.start = h.array b.start := by
  obtain ⟨_, _, meet, _⟩ := s.tiles
  obtain ⟨low, high⟩ := s.merged_size
  have bounds := s.merged_bounds
  have own := block_bounds s.member
  have boundsA := block_bounds (s.left_member is)
  have stop := meet a is
  have start : s.merged.start = a.start := by simp [Surroundings.merged, is]
  have away : ¬ (((h.withoutBlock s.left).withoutBlock s.right).avail ≠ 0 ∧
      b.start = ((h.withoutBlock s.left).withoutBlock s.right).avail + 2) := by
    intro given
    obtain ⟨full, same⟩ := given
    have outside := s.rest_outside taken (freeList_head_mem (s.unlinked_freeList r) full)
    simp only [Block.stop] at bounds
    omega
  simp only [Block.stop] at bounds stop
  unfold Surroundings.heap
  rw [makeAvail_array (by omega) high, if_neg away, if_neg (by omega), if_neg (by omega),
    if_neg (by omega)]
  exact unlinked_word r s (tag_off_links s.member).1

def freePanic (p idx : Int) : HeapOp :=
  .panic "freeing free block, p:%x idx:%d\n" [p % 2 ^ 32, idx]

theorem freeBlock_panics {i : Int} (free : ¬ h.array i < 0) (p : Int) :
    (freeBlock p i).run heapExec h = .stuck (freePanic p i) h := by
  rw [freeBlock_eq]
  simp only [run_bind, run_isTaken, andThen_done, free, decide_false, Bool.false_eq_true,
    ↓reduceIte, run_panic]
  rfl

theorem absorbRight_ends (r i n : Int) (h : Heap) :
    ∃ t, (absorbRight r i n).run heapExec h = .done () t := by
  simp only [absorbRight, bind_eq, run_bind, run_isAvail, andThen_done]
  split
  · simp only [run_bind, run_remove, run_size, run_makeAvail, andThen_done]
    exact ⟨_, rfl⟩
  · exact ⟨_, run_makeAvail i n h⟩

theorem freeBlock_proceeds {i : Int} (taken : h.array i < 0) (p : Int) :
    ∃ t, (freeBlock p i).run heapExec h = .done () t := by
  rw [freeBlock_eq]
  simp only [run_bind, run_isTaken, andThen_done, taken, decide_true, ↓reduceIte, run_size,
    run_left, run_right, absorbLeft, bind_eq, run_isAvail]
  split
  · simp only [run_bind, run_remove, run_size, andThen_done]
    exact absorbRight_ends _ _ _ _
  · exact absorbRight_ends _ _ _ _

/-- The second `free` of a block panics and changes nothing. -/
def DoubleFreeCaught (h : Heap) (p idx : Int) : Prop :=
  ∃ h', (freeBlock p idx).run heapExec h = .done () h' ∧
    (freeBlock p idx).run heapExec h' = .stuck (freePanic p idx) h'

theorem double_free_missed (r : Represents h L) (s : Surroundings L b) (taken : b.free = false)
    {a : Block} (is : s.left = some a) (p : Int) : ¬ DoubleFreeCaught h p b.start := by
  intro given
  obtain ⟨h', first, second⟩ := given
  rw [freeBlock_run r s taken p] at first
  obtain rfl : s.heap h = h' := by simpa using first
  have negative : (s.heap h).array b.start < 0 := by
    rw [stale_header r s taken is]
    exact taken_header_neg r s.member taken
  obtain ⟨t, run⟩ := freeBlock_proceeds negative p
  rw [run] at second
  exact absurd second (by simp)

theorem double_free_caught_iff (r : Represents h L) (member : b ∈ L.blocks)
    (taken : b.free = false) (p : Int) :
    DoubleFreeCaught h p b.start ↔ ∀ a ∈ L.blocks, a.stop = b.start → a.free = false := by
  obtain ⟨s⟩ := exists_surroundings member
  rw [← left_none_iff r s]
  constructor
  · intro caught
    cases is : s.left with
    | none => rfl
    | some a => exact absurd caught (double_free_missed r s taken is p)
  · intro alone
    refine ⟨_, freeBlock_run r s taken p, ?_⟩
    have start : s.merged.start = b.start := by simp [Surroundings.merged, alone]
    have header := (release_tag r s taken).1
    have size := s.merged_size.1
    rw [start] at header
    apply freeBlock_panics
    omega

end Release

def sandwich : Layout where
  len := 16
  blocks := [⟨2, 4, true⟩, ⟨6, 4, false⟩, ⟨10, 4, true⟩]
  order := [2, 10]
  small := by decide
  tiles := by decide
  min_size := by decide
  separated := by decide
  listed := List.Perm.refl _

theorem free_refines_release_sandwich :
    FreeRefines (sandwich.spell 4096) sandwich ⟨6, 4, false⟩ 4152 :=
  free_refines_release (spell_represents sandwich 4096) (by decide) rfl 4152

theorem double_free_caught_sandwich : DoubleFreeCaught (sandwich.spell 4096) 4152 6 ↔
    ∀ a ∈ sandwich.blocks, a.stop = 6 → a.free = false :=
  double_free_caught_iff (b := ⟨6, 4, false⟩) (spell_represents sandwich 4096) (by decide) rfl 4152

/-- The second `free` of the middle block walks on with the stale header. -/
theorem double_free_unnoticed : Represents (sandwich.spell 4096) sandwich ∧
    ⟨6, 4, false⟩ ∈ sandwich.blocks ∧ ¬ DoubleFreeCaught (sandwich.spell 4096) 4152 6 := by
  have r := spell_represents sandwich 4096
  have member : (⟨6, 4, false⟩ : Block) ∈ sandwich.blocks := by decide
  refine ⟨r, member, ?_⟩
  obtain ⟨s⟩ := exists_surroundings member
  cases is : s.left with
  | none =>
    have taken := (left_none_iff r s).mp is ⟨2, 4, true⟩ (by decide) rfl
    exact absurd taken (by decide)
  | some a => exact double_free_missed r s rfl is 4152

end PiKernel.HeapModel
