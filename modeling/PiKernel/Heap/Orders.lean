import PiKernel.Heap.Coalescing

/-!
Sequences of calls. Freeing a set of blocks ends in the same tiling whatever
the order, because each release only marks its block free in the normal form;
and freeing what `malloc` has just returned gives back the old tiling.
-/
namespace PiKernel.HeapModel
open Program Tiling Coalesce

/-- Lines 210 to 232 of `free` for one header index after another; `p` is the
    pointer each call was given. -/
def freeEach (p : Int → Int) : List Int → HeapM Unit
  | [] => return ()
  | idx :: rest => do
    freeBlock (p idx) idx
    freeEach p rest

section Frees
variable {h : Heap} {L : Layout}

theorem afterFreeing_nil (L : Layout) : afterFreeing [] L.blocks = L.blocks := by
  unfold afterFreeing
  rw [map_unmarked fun _ _ => List.not_mem_nil]
  exact coalesce_parted L.separated

def TakenStarts (L : Layout) (xs : List Int) : Prop :=
  ∀ i ∈ xs, ∃ b ∈ L.blocks, b.free = false ∧ b.start = i

structure Freed (h : Heap) (L : Layout) (xs : List Int) (h' : Heap) (M : Layout) : Prop where
  represents : Represents h' M
  len_eq : M.len = L.len
  blocks : M.blocks = afterFreeing xs L.blocks
  base : h'.base = h.base
  theLock : h'.theLock = h.theLock
  grows : ∀ j, FreeWord L j → FreeWord M j
  words : ∀ j, ¬ FreeWord M j → h'.array j = h.array j

/-- By induction on the calls: the first one releases its block, and the blocks of
    the others are taken blocks of what is left. -/
theorem freeEach_run (r : Represents h L) {xs : List Int} (distinct : xs.Nodup)
    (taken : TakenStarts L xs) (p : Int → Int) :
    ∃ h' M, (freeEach p xs).run heapExec h = .done () h' ∧ Freed h L xs h' M := by
  induction xs generalizing h L with
  | nil =>
    exact ⟨h, L, rfl, r, rfl, (afterFreeing_nil L).symm, rfl, rfl, fun _ free => free,
      fun _ _ => rfl⟩
  | cons i xs ih =>
    obtain ⟨fresh, rest⟩ := List.nodup_cons.mp distinct
    obtain ⟨b, mb, takenB, start⟩ := taken i List.mem_cons_self
    subst start
    obtain ⟨s⟩ := exists_surroundings mb
    obtain ⟨base, _, theLock, _⟩ := release_fields s h
    have left : TakenStarts (s.release takenB) xs := by
      intro k mk
      obtain ⟨c, mc, takenC, rfl⟩ := taken k (List.mem_cons_of_mem _ mk)
      have other : c ≠ b := fun same => fresh (same ▸ mk)
      exact ⟨c, release_keeps s takenB mc takenC other, takenC, rfl⟩
    obtain ⟨h', M, run, freed⟩ := ih (release_represents r s takenB) rest left
    refine ⟨h', M, ?_, freed.represents, freed.len_eq, ?_, freed.base.trans base,
      freed.theLock.trans theLock, ?_, ?_⟩
    · simp only [freeEach, bind_eq, run_bind, freeBlock_run r s takenB, andThen_done]
      exact run
    · rw [freed.blocks, releases_blocks (release_releases s takenB), afterFreeing_again]
      rfl
    · intro j free
      exact freed.grows j (release_grows s takenB free)
    · intro j kept
      rw [freed.words j kept]
      exact release_words r s takenB fun free => kept (freed.grows j free)

/-- Two heaps with one tiling, the same free blocks and the same words in the
    taken ones, all of them words of `h`. -/
structure SameAllocation (h h₁ h₂ : Heap) (M N : Layout) : Prop where
  left : Represents h₁ M
  right : Represents h₂ N
  base : h₁.base = h₂.base
  theLock : h₁.theLock = h₂.theLock
  blocks : M.blocks = N.blocks
  order : M.order.Perm N.order
  taken : ∀ b ∈ M.blocks, b.free = false → ∀ j, b.start ≤ j → j < b.stop →
    h₁.array j = h.array j ∧ h₂.array j = h.array j
  words : ∀ j, h₁.array j = h₂.array j ∨
    ∃ b ∈ M.blocks, b.free = true ∧ b.start < j ∧ j < b.stop - 1

theorem freed_same {xs ys : List Int} {h₁ h₂ : Heap} {M N : Layout}
    (first : Freed h L xs h₁ M) (second : Freed h L ys h₂ N) (same : ∀ i, i ∈ xs ↔ i ∈ ys) :
    SameAllocation h h₁ h₂ M N := by
  have blocks : M.blocks = N.blocks := by
    rw [first.blocks, second.blocks, afterFreeing_congr same]
  have freeWord : ∀ {j}, FreeWord N j → FreeWord M j := by
    intro j free
    unfold FreeWord
    rw [blocks]
    exact free
  refine ⟨first.represents, second.represents, first.base.trans second.base.symm,
    first.theLock.trans second.theLock.symm, blocks, ?_, ?_, ?_⟩
  · exact M.listed.trans (blocks ▸ N.listed.symm)
  · intro b mb taken j low high
    have kept := not_freeWord mb taken low high
    exact ⟨first.words j kept, second.words j fun free => kept (freeWord free)⟩
  · intro j
    by_cases free : FreeWord M j
    · obtain ⟨b, mb, freeB, low, high⟩ := free
      by_cases header : j = b.start
      · left
        rw [header, first.represents.header b mb, second.represents.header b (blocks ▸ mb)]
      · by_cases footer : j = b.stop - 1
        · left
          rw [footer, first.represents.footer b mb, second.represents.footer b (blocks ▸ mb)]
        · exact Or.inr ⟨b, mb, freeB, by omega, by omega⟩
    · left
      rw [first.words j free, second.words j fun other => free (freeWord other)]

theorem afterFreeing_all (room : 8 ≤ L.len) {xs : List Int}
    (all : ∀ b ∈ L.blocks, b.free = false → b.start ∈ xs) :
    afterFreeing xs L.blocks = [⟨2, L.len - 4, true⟩] := by
  have some : L.blocks ≠ [] := by
    intro empty
    have tiles := L.tiles
    rw [empty] at tiles
    have short : 2 = L.len - 2 := tiles
    omega
  have marked : ∀ b ∈ L.blocks, (markFree xs b).free = true := by
    intro b mb
    cases free : b.free with
    | true => simp [markFree, free]
    | false => simp [markFree, all b mb free]
  have none : ∀ c ∈ ([] : List Block), c.start ∉ xs := fun _ member => absurd member List.not_mem_nil
  have joined := afterFreeing_run some marked none none L.tiles (List.isChain_singleton _)
  have size : L.len - 2 - 2 = L.len - 4 := by omega
  rw [List.nil_append, List.append_nil, size] at joined
  exact joined

theorem frees_order_independent (r : Represents h L) (room : 8 ≤ L.len) {xs ys : List Int}
    (distinct : xs.Nodup) (taken : TakenStarts L xs) (perm : xs.Perm ys) (p q : Int → Int) :
    ∃ h₁ h₂ M N, (freeEach p xs).run heapExec h = .done () h₁ ∧
      (freeEach q ys).run heapExec h = .done () h₂ ∧ SameAllocation h h₁ h₂ M N ∧
      ((∀ b ∈ L.blocks, b.free = false → b.start ∈ xs) → M.blocks = [⟨2, L.len - 4, true⟩]) := by
  have takenY : TakenStarts L ys := fun i mi => taken i (perm.mem_iff.mpr mi)
  obtain ⟨h₁, M, runX, first⟩ := freeEach_run r distinct taken p
  obtain ⟨h₂, N, runY, second⟩ := freeEach_run r (perm.nodup distinct) takenY q
  refine ⟨h₁, h₂, M, N, runX, runY, freed_same first second fun i => perm.mem_iff, ?_⟩
  intro all
  rw [first.blocks]
  exact afterFreeing_all room all

end Frees

def hollow : Layout where
  len := 20
  blocks := [⟨2, 4, false⟩, ⟨6, 8, true⟩, ⟨14, 4, false⟩]
  order := [6]
  small := by decide
  tiles := by decide
  min_size := by decide
  separated := by decide
  listed := List.Perm.refl _

theorem frees_order_independent_hollow : ∃ h₁ h₂ M N,
    (freeEach (fun _ => 0) [2, 14]).run heapExec (hollow.spell 4096) = .done () h₁ ∧
      (freeEach (fun _ => 0) [14, 2]).run heapExec (hollow.spell 4096) = .done () h₂ ∧
      SameAllocation (hollow.spell 4096) h₁ h₂ M N ∧
      ((∀ b ∈ hollow.blocks, b.free = false → b.start ∈ [(2 : Int), 14]) →
        M.blocks = [⟨2, 16, true⟩]) :=
  frees_order_independent (spell_represents hollow 4096) (by decide) (by decide)
    (by unfold TakenStarts; decide) (List.Perm.swap 14 2 []) _ _

section RoundTrip
variable {h : Heap} {L : Layout}

def headerIndex (base p : Int) : Int := (p - base) / 8 - 1

/-- Anything the owner of the block at `i` writes between its header and footer. -/
def Heap.fillPayload (h : Heap) (i : Int) (words : Int → Int) : Heap :=
  { h with array := fun j => if i < j ∧ j < i + h.size i - 1 then words j else h.array j }

theorem fillPayload_represents {c : Block} (r : Represents h L) (member : c ∈ L.blocks)
    (taken : c.free = false) (words : Int → Int) :
    Represents (h.fillPayload c.start words) L := by
  refine represents_payload r member taken rfl rfl rfl ?_
  intro j outside
  have length := header_size r member
  simp only [Block.stop] at outside
  simp only [Heap.fillPayload, length]
  rw [if_neg (by omega)]

section Allocated
variable {M : Layout} {b : Block} {units : Int}

theorem allocates_member (allocated : Allocates L units b M) : b ∈ L.blocks := by
  obtain ⟨pre, post, split, _⟩ := allocated.blocks
  rw [split]
  simp

theorem allocates_taken (allocated : Allocates L units b M) :
    ∃ c ∈ M.blocks, c.free = false ∧ c.start = b.start ∧ c.stop ≤ b.stop := by
  obtain ⟨pre, post, _, split⟩ := allocated.blocks
  obtain ⟨c, mc, taken, start, _, stop⟩ := first_piece allocated.enough
  refine ⟨c, ?_, taken, start, stop⟩
  rw [split]
  simp [mc]

theorem allocates_undone (allocated : Allocates L units b M) (low : 4 ≤ units) :
    afterFreeing [b.start] M.blocks = L.blocks := by
  obtain ⟨pre, post, splitL, splitM⟩ := allocated.blocks
  obtain ⟨before, after⟩ := starts_apart splitL (List.mem_singleton.mpr rfl)
  have bounds := block_bounds (allocates_member allocated)
  have own : Tiles Block.start Block.stop b.start b.stop [b] :=
    ⟨rfl, by simp only [Block.stop]; omega, rfl⟩
  have some : pieces b units ≠ [] := by
    unfold pieces
    split <;> simp
  have marked : ∀ c ∈ pieces b units, (markFree [b.start] c).free = true := by
    intro c mc
    unfold pieces at mc
    split at mc
    · rcases List.mem_pair.mp mc with rfl | rfl <;> simp [markFree]
    · rw [List.mem_singleton.mp mc]
      simp [markFree]
  have whole : (⟨b.start, b.stop - b.start, true⟩ : Block) = b :=
    block_ext rfl (by simp only [Block.stop]; omega) allocated.free.symm
  have apart : (pre ++ (⟨b.start, b.stop - b.start, true⟩ :: post)).IsChain Apart := by
    rw [whole]
    exact splitL ▸ L.separated
  rw [splitM, splitL, afterFreeing_run some marked before after (pieces_tile low own) apart, whole]
  rfl

theorem allocates_order (allocated : Allocates L units b M) (low : 4 ≤ units) :
    outsideOrder M b = L.order.erase b.start := by
  have member := allocates_member allocated
  have kept : (L.order.erase b.start).filter (fun k => decide (k < b.start ∨ b.stop ≤ k)) =
      L.order.erase b.start := by
    apply List.filter_eq_self.mpr
    intro k mk
    have away := other_links_outside member mk
    apply decide_eq_true
    simp only [Block.stop]
    omega
  unfold outsideOrder
  rw [allocated.order]
  unfold carvedOrder
  split
  · have inside : ¬ (b.start + units < b.start ∨ b.stop ≤ b.start + units) := by
      simp only [Block.stop]
      omega
    rw [List.filter_cons_of_neg (by simpa using inside)]
    exact kept
  · exact kept

theorem release_restores (allocated : Allocates L units b M) (low : 4 ≤ units) {c : Block}
    (start : c.start = b.start) (s : Surroundings M c) (taken : c.free = false) :
    (s.release taken).len = L.len ∧ (s.release taken).blocks = L.blocks ∧
      (s.release taken).order = b.start :: L.order.erase b.start := by
  obtain ⟨len, pre, run, post, m, found, blocks, order⟩ := release_releases s taken
  have member := allocates_member allocated
  have same : (s.release taken).blocks = L.blocks := by
    rw [releases_blocks (release_releases s taken), start]
    exact allocates_undone allocated low
  have whole : m = b := by
    have mm : m ∈ L.blocks := by
      rw [← same, blocks]
      simp
    have covers := tiles_bounds found.covers found.member
    have own := block_bounds member
    simp only [Block.stop] at covers
    rcases block_disjoint mm member with eq | apart | apart
    · exact eq
    · omega
    · omega
  refine ⟨len.trans allocated.len_eq, same, ?_⟩
  rw [order, whole, allocates_order allocated low]

theorem fillPayload_words {c : Block} (rM : Represents h M) (member : b ∈ L.blocks)
    (free : b.free = true) (mc : c ∈ M.blocks) (start : c.start = b.start) (stop : c.stop ≤ b.stop)
    (words : Int → Int) {j : Int} (kept : ¬ FreeWord L j) :
    (h.fillPayload c.start words).array j = h.array j := by
  have length := header_size rM mc
  simp only [Block.stop] at stop
  have away : ¬ (c.start < j ∧ j < c.start + h.size c.start - 1) := by
    intro inside
    apply kept
    refine ⟨b, member, free, by omega, ?_⟩
    simp only [Block.stop]
    omega
  exact if_neg away

end Allocated

theorem malloc_free_inverse (r : Represents h L) {bytes : Nat} {p : Int} {h₁ : Heap}
    (result : (malloc bytes).run heapExec h = .done p h₁) (success : p ≠ 0) (words : Int → Int)
    (q : Int) : ∃ h₂ M,
      (freeBlock q (headerIndex h.base p)).run heapExec
        (h₁.fillPayload (headerIndex h.base p) words) = .done () h₂ ∧
      Represents h₂ M ∧ M.len = L.len ∧ M.blocks = L.blocks ∧ headerIndex h.base p ∈ L.order ∧
      M.order = headerIndex h.base p :: L.order.erase (headerIndex h.base p) ∧
      ∀ c ∈ L.blocks, c.free = false → ∀ j, c.start ≤ j → j < c.stop →
        h₂.array j = h.array j := by
  obtain ⟨p', h', run, ending⟩ := malloc_step r bytes
  rw [result] at run
  obtain ⟨rfl, rfl⟩ : p = p' ∧ h₁ = h' := by simpa using run
  obtain ⟨b, A, allocated, rA, place, kept⟩ := ending.resolve_left fun null => success null.1
  have member := allocates_member allocated
  have index : headerIndex h.base p = b.start := by
    unfold headerIndex
    omega
  obtain ⟨c, mc, taken, start, stop⟩ := allocates_taken allocated
  have filled := fillPayload_represents rA mc taken words
  obtain ⟨s⟩ := exists_surroundings mc
  obtain ⟨len, blocks, order⟩ := release_restores allocated (mallocUnits_low bytes) start s taken
  rw [index, ← start]
  refine ⟨_, s.release taken, freeBlock_run filled s taken q, release_represents filled s taken,
    len, blocks, ?_, start ▸ order, ?_⟩
  · rw [start]
    exact listed_start member allocated.free
  · intro d md takenD j low high
    have before := not_freeWord md takenD low high
    have after := not_freeWord (blocks ▸ md : d ∈ (s.release taken).blocks) takenD low high
    rw [release_words filled s taken after,
      fillPayload_words rA member allocated.free mc start stop words before]
    exact kept d md takenD j low high

end RoundTrip

theorem malloc_free_inverse_hollow : ∃ h₁ h₂ M,
    (malloc 8).run heapExec (hollow.spell 4096) = .done 4152 h₁ ∧
      (freeBlock 4152 6).run heapExec (h₁.fillPayload 6 fun _ => 7) = .done () h₂ ∧
      Represents h₂ M ∧ M.blocks = hollow.blocks ∧ M.order = [6] ∧
      ∀ c ∈ hollow.blocks, c.free = false → ∀ j, c.start ≤ j → j < c.stop →
        h₂.array j = (hollow.spell 4096).array j := by
  have run : ∃ h₁, (malloc 8).run heapExec (hollow.spell 4096) = .done 4152 h₁ := ⟨_, rfl⟩
  obtain ⟨h₁, result⟩ := run
  obtain ⟨h₂, M, freed, r, _, blocks, _, order, kept⟩ := malloc_free_inverse
    (spell_represents hollow 4096) result (by decide) (fun _ => 7) 4152
  exact ⟨h₁, h₂, M, result, freed, r, blocks, order, kept⟩

end PiKernel.HeapModel
