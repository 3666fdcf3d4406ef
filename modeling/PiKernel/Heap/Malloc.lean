import Mathlib.Data.Int.Order.Basic
import PiKernel.Lib.BestFit
import PiKernel.Heap.WellFormed

/-!
`malloc` on a well-formed heap. The search looks at the first twenty listed
blocks and takes a best fit among them; taking it turns one block of the layout
into a taken block, followed by a free remainder when that has four words.
-/
namespace PiKernel.HeapModel
open Program LinkedList Tiling BestFit

/-- The number of list entries the `attempts` counter lets the search visit. -/
def attempts : Nat := 20

theorem search_run {h : Heap} {units : Int} (n : Nat) (l : List Int) (before head : Int)
    (best : Int × Int)
    (linked : Linked (fun i => h.array (i + 1)) (fun i => h.array (i + 2)) 0 before head l)
    (free : ∀ i ∈ l, h.array i > 0) (range : ∀ i ∈ l, 0 < i ∧ i < 2 ^ 31) :
    (search units n head best.1 best.2).run heapExec h =
      .done (scan h.size units (l.take n) best) h := by
  induction n generalizing l before head best with
  | zero => simp [search, scan]
  | succ n ih =>
    cases l with
    | nil =>
      have last : head = 0 := linked
      simp [search, last, scan]
    | cons i l =>
      obtain ⟨first, some, _, rest⟩ := linked
      subst first
      have pos := free head List.mem_cons_self
      have freeL : ∀ i ∈ l, h.array i > 0 := fun j m => free j (List.mem_cons_of_mem head m)
      have rangeL : ∀ i ∈ l, 0 < i ∧ i < 2 ^ 31 :=
        fun j m => range j (List.mem_cons_of_mem head m)
      have follow : h.next head = h.array (head + 1) := by
        have ahead : h.array (head + 1) = l.headD 0 := linked_head rest
        cases l with
        | nil => exact asInt_eq (by simp [ahead]) (by simp [ahead])
        | cons j l =>
          have bounds := rangeL j List.mem_cons_self
          rw [List.headD_cons] at ahead
          exact asInt_eq (by omega) (by omega)
      have visit : ∀ pair : Int × Int,
          (if n = 0 then (pure (pair.1, pair.2) : HeapM (Int × Int))
            else (next head).bind fun i => search units n i pair.1 pair.2).run heapExec h =
            .done (scan h.size units (l.take n) pair) h := by
        intro pair
        by_cases last : n = 0
        · subst last
          simp [scan]
        · rw [if_neg last]
          simp only [run_bind, run_next, andThen_done, follow]
          exact ih l head _ pair rest freeL rangeL
      simp only [List.take_succ_cons, scan, search, some, ↓reduceIte, bind_eq, run_bind,
        run_isAvail, andThen_done, pos, decide_true, Bool.not_true, Bool.false_eq_true, run_size]
      by_cases better : units ≤ h.size head ∧ h.size head < best.1
      · simpa only [ge_iff_le, better, and_self, ↓reduceIte] using visit (h.size head, head)
      · simpa only [ge_iff_le, better, ↓reduceIte] using visit best

def pieces (b : Block) (units : Int) : List Block :=
  if b.size - units ≥ 4 then
    [⟨b.start, units, false⟩, ⟨b.start + units, b.size - units, true⟩]
  else
    [⟨b.start, b.size, false⟩]

theorem apart_taken_left {a b : Block} (taken : a.free = false) : Apart a b := by
  simp [Apart, taken]

theorem apart_taken_right {a b : Block} (taken : b.free = false) : Apart a b := by
  simp [Apart, taken]

theorem pieces_tile {b : Block} {units lo hi : Int} (low : 4 ≤ units)
    (t : Tiles Block.start Block.stop lo hi [b]) :
    Tiles Block.start Block.stop lo hi (pieces b units) := by
  obtain ⟨first, valid, last⟩ := t
  simp only [Block.stop, Tiles] at valid last
  unfold pieces
  split
  · exact ⟨first, by simp only [Block.stop]; omega, rfl, by simp only [Block.stop]; omega,
      by simp only [Tiles, Block.stop]; omega⟩
  · exact ⟨first, valid, last⟩

theorem pieces_apart {pre post : List Block} {b : Block} (units : Int) (free : b.free = true)
    (separated : (pre ++ ([b] ++ post)).IsChain Apart) :
    (pre ++ (pieces b units ++ post)).IsChain Apart := by
  obtain ⟨chainPre, chainRest, _⟩ := List.isChain_append.mp separated
  obtain ⟨after, chainPost⟩ := List.isChain_cons.mp chainRest
  unfold pieces
  split
  · refine List.isChain_append.mpr ⟨chainPre, ?_, ?_⟩
    · refine List.isChain_cons.mpr ⟨?_, List.isChain_cons.mpr ⟨?_, chainPost⟩⟩
      · intro y _
        exact apart_taken_left rfl
      · intro y hy both
        exact after y hy ⟨free, both.2⟩
    · rintro x _ y ⟨rfl⟩
      exact apart_taken_right rfl
  · refine List.isChain_append.mpr ⟨chainPre, ?_, ?_⟩
    · exact List.isChain_cons.mpr ⟨fun y _ => apart_taken_left rfl, chainPost⟩
    · rintro x _ y ⟨rfl⟩
      exact apart_taken_right rfl

def carvedOrder (L : Layout) (b : Block) (units : Int) : List Int :=
  if b.size - units ≥ 4 then (b.start + units) :: L.order.erase b.start
  else L.order.erase b.start

theorem carved_listed {L : Layout} {pre post : List Block} {b : Block} (units : Int)
    (free : b.free = true) (split : L.blocks = pre ++ ([b] ++ post)) :
    (carvedOrder L b units).Perm (freeStarts (pre ++ (pieces b units ++ post))) := by
  have whole : L.order.Perm (b.start :: (freeStarts pre ++ freeStarts post)) := by
    have listed := L.listed
    rw [split, freeStarts_append, freeStarts_append] at listed
    refine listed.trans ?_
    simp [freeStarts, free]
  have rest : (L.order.erase b.start).Perm (freeStarts pre ++ freeStarts post) := by
    simpa using whole.erase b.start
  rw [freeStarts_append, freeStarts_append]
  unfold carvedOrder pieces
  split_ifs
  · refine (rest.cons _).trans ?_
    simpa [freeStarts] using List.perm_middle.symm
  · simpa [freeStarts] using rest

theorem carved_tiles {L : Layout} {b : Block} {units : Int} (member : b ∈ L.blocks)
    (low : 4 ≤ units) :
    Tiles Block.start Block.stop 2 (L.len - 2) (splice b (pieces b units) L.blocks) := by
  obtain ⟨pre, post, split, _, spliced⟩ := splice_eq (pieces b units) member
  rw [spliced]
  exact tiles_replace (split ▸ L.tiles) (fun lo hi => pieces_tile low)

theorem carved_min_size {L : Layout} {b : Block} {units : Int} (member : b ∈ L.blocks)
    (low : 4 ≤ units) : ∀ c ∈ splice b (pieces b units) L.blocks, 4 ≤ c.size := by
  obtain ⟨pre, post, split, _, spliced⟩ := splice_eq (pieces b units) member
  have sizes := L.min_size
  rw [split] at sizes
  rw [spliced]
  intro c mc
  simp only [List.mem_append] at mc sizes
  rcases mc with early | new | late
  · exact sizes c (Or.inl early)
  · have own := sizes b (Or.inr (Or.inl (by simp)))
    unfold pieces at new
    split_ifs at new with large
    · rcases List.mem_pair.mp new with rfl | rfl
      · exact low
      · exact large
    · rw [List.mem_singleton.mp new]
      exact own
  · exact sizes c (Or.inr (Or.inr late))

theorem carved_separated {L : Layout} {b : Block} (units : Int) (member : b ∈ L.blocks)
    (free : b.free = true) : (splice b (pieces b units) L.blocks).IsChain Apart := by
  obtain ⟨pre, post, split, _, spliced⟩ := splice_eq (pieces b units) member
  rw [spliced]
  exact pieces_apart units free (split ▸ L.separated)

theorem spliced_listed {L : Layout} {b : Block} (units : Int) (member : b ∈ L.blocks)
    (free : b.free = true) :
    (carvedOrder L b units).Perm (freeStarts (splice b (pieces b units) L.blocks)) := by
  obtain ⟨pre, post, split, _, spliced⟩ := splice_eq (pieces b units) member
  rw [spliced]
  exact carved_listed units free split

def Layout.carve (L : Layout) (b : Block) (units : Int) (member : b ∈ L.blocks)
    (free : b.free = true) (low : 4 ≤ units) : Layout where
  len := L.len
  blocks := splice b (pieces b units) L.blocks
  order := carvedOrder L b units
  small := L.small
  tiles := carved_tiles member low
  min_size := carved_min_size member low
  separated := carved_separated units member free
  listed := spliced_listed units member free

/-- Lines 182 to 191 of `malloc`, with the chosen block's header and size. -/
def Heap.carve (h : Heap) (start size units : Int) : Heap :=
  if size - units ≥ 4 then
    ((h.remove start).makeTaken start units).makeAvail (start + units) (size - units)
  else
    (h.remove start).makeTaken start size

theorem makeTaken_fields (h : Heap) (i n : Int) :
    (h.makeTaken i n).base = h.base ∧ (h.makeTaken i n).len = h.len ∧
      (h.makeTaken i n).theLock = h.theLock ∧
      (h.makeTaken i n).coresAwoken = h.coresAwoken ∧ (h.makeTaken i n).avail = h.avail :=
  tag_fields h i (-n)

theorem carve_fields (h : Heap) (start size units : Int) :
    (h.carve start size units).base = h.base ∧ (h.carve start size units).len = h.len ∧
      (h.carve start size units).theLock = h.theLock ∧
      (h.carve start size units).coresAwoken = h.coresAwoken := by
  obtain ⟨base, len, theLock, asleep⟩ := remove_fields h start
  unfold Heap.carve
  split
  · obtain ⟨base', len', theLock', asleep', _⟩ :=
      makeAvail_fields ((h.remove start).makeTaken start units) (start + units) (size - units)
    exact ⟨base'.trans base, len'.trans len, theLock'.trans theLock, asleep'.trans asleep⟩
  · exact ⟨base, len, theLock, asleep⟩

section Carve
variable {h : Heap} {L : Layout} {b : Block} {units : Int}

theorem listed_start (member : b ∈ L.blocks) (free : b.free = true) : b.start ∈ L.order :=
  mem_order.mpr ⟨b, member, free, rfl⟩

theorem other_links_outside (member : b ∈ L.blocks) {k : Int}
    (other : k ∈ L.order.erase b.start) : k + 4 ≤ b.start ∨ b.start + b.size ≤ k := by
  obtain ⟨distinct, listed⟩ := (order_nodup L).mem_erase_iff.mp other
  obtain ⟨c, mc, _, rfl⟩ := listed_block listed
  have hc := block_bounds mc
  rcases block_disjoint member mc with same | apart | apart
  · exact absurd (congrArg Block.start same).symm distinct
  · exact Or.inr apart
  · exact Or.inl (by omega)

theorem taken_freeList (r : Represents h L) (member : b ∈ L.blocks) (free : b.free = true)
    {n : Int} (pos : 0 < n) (fits : n ≤ b.size) :
    FreeList ((h.remove b.start).makeTaken b.start n) (L.order.erase b.start) := by
  have bounds := block_bounds member
  have small := L.small
  have removed := remove_freeList (represents_freeList r) (listed_start member free)
  refine freeList_congr removed rfl ?_ ?_ <;> intro k mk <;>
    have away := other_links_outside member mk <;>
    rw [makeTaken_array (by omega) (by omega), if_neg (by omega)]

theorem carve_freeList (r : Represents h L) (member : b ∈ L.blocks) (free : b.free = true)
    (low : 4 ≤ units) (fits : units ≤ b.size) :
    FreeList (h.carve b.start b.size units) (carvedOrder L b units) := by
  have bounds := block_bounds member
  have small := L.small
  unfold Heap.carve carvedOrder
  split
  · have taken := taken_freeList r member free (n := units) (by omega) fits
    refine makeAvail_freeList taken ?_ (by omega) (by omega) (by omega) (by omega)
    intro k mk
    have away := other_links_outside member mk
    omega
  · exact taken_freeList r member free (by omega) (le_refl _)

/-- Carving `b` changes words of `b` and link words of other free blocks only. -/
theorem carve_frame (r : Represents h L) (member : b ∈ L.blocks) (free : b.free = true)
    (low : 4 ≤ units) (fits : units ≤ b.size) {j : Int}
    (outside : j < b.start ∨ b.start + b.size ≤ j) (off : OffLinks L.order j) :
    (h.carve b.start b.size units).array j = h.array j := by
  have bounds := block_bounds member
  have small := L.small
  have unlinked := remove_off_links (represents_freeList r) (listed_start member free)
    (offLinks_erase off)
  unfold Heap.carve
  split
  · rw [makeAvail_off_links (taken_freeList r member free (by omega) fits) (by omega) (by omega)
      (by omega) (offLinks_erase off), makeTaken_array (by omega) (by omega), if_neg (by omega)]
    exact unlinked
  · rw [makeTaken_array (by omega) (by omega), if_neg (by omega)]
    exact unlinked

theorem carve_tags (r : Represents h L) (member : b ∈ L.blocks) (free : b.free = true)
    (low : 4 ≤ units) (fits : units ≤ b.size) : ∀ c ∈ pieces b units,
    (h.carve b.start b.size units).array c.start = c.tag ∧
      (h.carve b.start b.size units).array (c.stop - 1) = c.tag := by
  have bounds := block_bounds member
  have small := L.small
  unfold Heap.carve pieces
  split
  · have taken := taken_freeList r member free (n := units) (by omega) fits
    have words := makeAvail_array (h := (h.remove b.start).makeTaken b.start units)
      (i := b.start + units) (n := b.size - units) (by omega) (by omega)
    have head : ∀ j, b.start ≤ j → j < b.start + b.size →
        ¬ (((h.remove b.start).makeTaken b.start units).avail ≠ 0 ∧
          j = ((h.remove b.start).makeTaken b.start units).avail + 2) := by
      rintro j lo hi ⟨some, same⟩
      have away := other_links_outside member (freeList_head_mem taken some)
      omega
    intro c mc
    rcases List.mem_pair.mp mc with rfl | rfl <;>
      simp only [Block.tag, Block.stop, Bool.false_eq_true, ↓reduceIte]
    · constructor <;>
        rw [words, if_neg (head _ (by omega) (by omega)), if_neg (by omega), if_neg (by omega),
          if_neg (by omega), makeTaken_array (by omega) (by omega), if_pos (by omega)]
    · constructor <;>
        rw [words, if_neg (head _ (by omega) (by omega)), if_neg (by omega), if_neg (by omega),
          if_pos (by omega)]
  · intro c mc
    rw [List.mem_singleton.mp mc]
    simp only [Block.tag, Block.stop, Bool.false_eq_true, ↓reduceIte]
    constructor <;> rw [makeTaken_array (by omega) (by omega), if_pos (by omega)]

theorem mem_carved (member : b ∈ L.blocks) (free : b.free = true) (low : 4 ≤ units) {c : Block} :
    c ∈ (L.carve b units member free low).blocks ↔
      c ∈ pieces b units ∨ (c ∈ L.blocks ∧ c ≠ b) := by
  obtain ⟨pre, post, split, fresh, spliced⟩ := splice_eq (pieces b units) member
  have nodup : (pre ++ ([b] ++ post)).Nodup := by
    rw [← split]
    exact List.Nodup.of_map _ (tiles_starts_nodup L.tiles)
  have freshPost : b ∉ post := by
    have tail := (List.nodup_append.mp nodup).2.1
    simpa using (List.nodup_cons.mp tail).1
  show c ∈ splice b (pieces b units) L.blocks ↔ _
  rw [spliced, split]
  simp only [List.mem_append, List.mem_singleton]
  constructor
  · rintro (early | new | late)
    · exact Or.inr ⟨Or.inl early, fun same => fresh (same ▸ early)⟩
    · exact Or.inl new
    · exact Or.inr ⟨Or.inr (Or.inr late), fun same => freshPost (same ▸ late)⟩
  · rintro (new | ⟨early | same | late, distinct⟩)
    · exact Or.inr (Or.inl new)
    · exact Or.inl early
    · exact absurd same distinct
    · exact Or.inr (Or.inr late)

theorem first_piece (fits : units ≤ b.size) : ∃ c ∈ pieces b units,
    c.free = false ∧ c.start = b.start ∧ units ≤ c.size ∧ c.stop ≤ b.stop := by
  unfold pieces
  split
  · refine ⟨_, List.mem_cons_self, rfl, rfl, le_refl _, ?_⟩
    simp only [Block.stop]
    omega
  · exact ⟨_, List.mem_cons_self, rfl, rfl, fits, le_refl _⟩

theorem carved_block (member : b ∈ L.blocks) (free : b.free = true) (low : 4 ≤ units)
    (fits : units ≤ b.size) : ∃ c ∈ (L.carve b units member free low).blocks,
      c.free = false ∧ c.start = b.start ∧ units ≤ c.size := by
  obtain ⟨c, mc, taken, start, size, _⟩ := first_piece fits
  exact ⟨c, (mem_carved member free low).mpr (Or.inl mc), taken, start, size⟩

theorem carve_represents (r : Represents h L) (member : b ∈ L.blocks) (free : b.free = true)
    (low : 4 ≤ units) (fits : units ≤ b.size) :
    Represents (h.carve b.start b.size units) (L.carve b units member free low) := by
  obtain ⟨_, len, _, asleep⟩ := carve_fields h b.start b.size units
  have bounds := block_bounds member
  apply represents_region (M := L.carve b units member free low) r b.start (b.start + b.size)
    asleep len rfl ⟨bounds.1, bounds.2.2⟩
  · intro j outside off
    exact carve_frame r member free low fits outside off
  · intro c mc
    rcases (mem_carved member free low).mp mc with new | ⟨old, distinct⟩
    · exact Or.inl (carve_tags r member free low fits c new)
    · have away := (block_disjoint member old).resolve_left (Ne.symm distinct)
      exact Or.inr ⟨old, away.symm⟩
  · exact carve_freeList r member free low fits

end Carve

/-- The indices the search looks at: the list up to the `attempts` limit. -/
def examined (L : Layout) : List Int := L.order.take attempts

theorem examined_subset (L : Layout) : examined L ⊆ L.order := List.take_subset _ _

theorem mallocBody_cases {h : Heap} {L : Layout} (r : Represents h L) (units : Int) :
    ((∀ i ∈ examined L, h.size i < units) ∧ (mallocBody units).run heapExec h = .done 0 h) ∨
      ∃ b ∈ L.blocks, b.free = true ∧ IsBestFit h.size units (examined L) b.start ∧
        (mallocBody units).run heapExec h =
          .done (h.base + 8 * (b.start + 1)) (h.carve b.start b.size units) := by
  have list := represents_freeList r
  have free : ∀ i ∈ L.order, h.array i > 0 := by
    intro i m
    obtain ⟨b, mb, free, rfl⟩ := listed_block m
    exact free_header_pos r mb free
  have found := @search_run h units attempts L.order 0 h.avail (0x7FFFFFFF, 0) list.linked free
    list.range
  rcases scan_cases h.size units (examined L) (0x7FFFFFFF, 0) with ⟨same, least⟩ | ⟨fit, value, _⟩
  · left
    constructor
    · intro i m
      obtain ⟨b, mb, _, rfl⟩ := listed_block (examined_subset L m)
      have bounds := block_bounds mb
      have small := L.small
      have length := header_size r mb
      by_contra enough
      have := least b.start m (by omega)
      simp only at this
      omega
    · have result : scan h.size units (L.order.take attempts) (0x7FFFFFFF, 0) = (0x7FFFFFFF, 0) :=
        same
      simp only [attempts] at found result
      simp [mallocBody, run_bind, found, result]
  · right
    obtain ⟨b, mb, free, start⟩ := listed_block (examined_subset L fit.member)
    have bounds := block_bounds mb
    have length := header_size r mb
    refine ⟨b, mb, free, start ▸ fit, ?_⟩
    have result : scan h.size units (L.order.take attempts) (0x7FFFFFFF, 0) = (b.size, b.start) := by
      refine Prod.ext ?_ ?_
      · exact value.trans (by rw [← start, length])
      · exact start.symm
    have nonzero : b.start ≠ 0 := by omega
    have base := (carve_fields h b.start b.size units).1
    simp only [attempts] at found result
    by_cases large : b.size - units ≥ 4
    · simp only [Heap.carve, large, ↓reduceIte] at base
      simp [mallocBody, run_bind, found, result, nonzero, large, Heap.carve, base]
    · simp only [Heap.carve, large, ↓reduceIte] at base
      simp [mallocBody, run_bind, found, result, nonzero, large, Heap.carve, base]

end PiKernel.HeapModel
