import PiKernel.Lib.Coalesce
import PiKernel.Heap.Runs

/-!
The allocator the heap implements: a list of blocks and a list of the free
ones. Allocating replaces one free block, releasing joins a taken block with
its free neighbours. `malloc` and lines 210 to 232 of `free` refine the two.
-/
namespace PiKernel.HeapModel
open Program Tiling Coalesce

def Block.join (a c : Block) : Block := ⟨a.start, a.size + c.size, true⟩

def markFree (freed : List Int) (b : Block) : Block :=
  { b with free := b.free || decide (b.start ∈ freed) }

def afterFreeing (freed : List Int) (blocks : List Block) : List Block :=
  coalesce Block.free Block.join (blocks.map (markFree freed))

def FreeWord (L : Layout) (j : Int) : Prop :=
  ∃ b ∈ L.blocks, b.free = true ∧ b.start ≤ j ∧ j < b.stop

/-- `units` words come from the free block `b`; what is left of it stays free when
    it can be a block. -/
structure Allocates (L : Layout) (units : Int) (b : Block) (M : Layout) : Prop where
  free : b.free = true
  enough : units ≤ b.size
  len_eq : M.len = L.len
  blocks : ∃ pre post, L.blocks = pre ++ ([b] ++ post) ∧ M.blocks = pre ++ (pieces b units ++ post)
  order : M.order = carvedOrder L b units

/-- `run` is the maximal run of `b` and its free neighbours, `m` the free block
    that covers it. -/
structure FreeRun (L : Layout) (b : Block) (pre run post : List Block) (m : Block) : Prop where
  split : L.blocks = pre ++ (run ++ post)
  member : b ∈ run
  others_free : ∀ c ∈ run, c ≠ b → c.free = true
  before_taken : ∀ c ∈ pre.getLast?, c.free = false
  after_taken : ∀ c ∈ post.head?, c.free = false
  covers : Tiles Block.start Block.stop m.start m.stop run
  free : m.free = true

def outsideOrder (L : Layout) (m : Block) : List Int :=
  L.order.filter fun k => decide (k < m.start ∨ m.stop ≤ k)

structure Releases (L : Layout) (b : Block) (M : Layout) : Prop where
  len_eq : M.len = L.len
  merged : ∃ pre run post m, FreeRun L b pre run post m ∧ M.blocks = pre ++ ([m] ++ post) ∧
    M.order = m.start :: outsideOrder L m

theorem block_joinable : Joinable Block.free Block.join :=
  ⟨fun _ _ _ _ => rfl, fun a b c => by simp only [Block.join, Int.add_assoc]⟩

theorem join_stop (a c : Block) (meet : a.stop = c.start) : (a.join c).stop = c.stop := by
  simp only [Block.join, Block.stop] at *
  omega

theorem markFree_free {freed : List Int} {b : Block} (free : b.free = true) :
    markFree freed b = b := by
  obtain ⟨start, size, _⟩ := b
  obtain rfl : _ = true := free
  rfl

theorem markFree_other {freed : List Int} {b : Block} (other : b.start ∉ freed) :
    markFree freed b = b := by
  simp [markFree, other]

theorem markFree_mark (first second : List Int) (b : Block) :
    markFree second (markFree first b) = markFree (first ++ second) b := by
  unfold markFree
  congr 1
  rw [Bool.eq_iff_iff]
  simp [or_assoc]

theorem afterFreeing_again (first second : List Int) (blocks : List Block) :
    afterFreeing second (afterFreeing first blocks) = afterFreeing (first ++ second) blocks := by
  unfold afterFreeing
  rw [coalesce_map block_joinable (fun _ => markFree_free), List.map_map]
  congr 1
  exact List.map_congr_left fun b _ => markFree_mark first second b

theorem afterFreeing_congr {first second : List Int} (same : ∀ i, i ∈ first ↔ i ∈ second)
    (blocks : List Block) : afterFreeing first blocks = afterFreeing second blocks := by
  unfold afterFreeing
  congr 1
  apply List.map_congr_left
  intro b _
  simp only [markFree, same]

theorem coalesce_blocks {lo hi : Int} {run post : List Block} (some : run ≠ [])
    (free : ∀ c ∈ run, c.free = true) (tiles : Tiles Block.start Block.stop lo hi run)
    (separated : post.IsChain Apart) (behind : ∀ c ∈ post.head?, c.free = false) :
    coalesce Block.free Block.join (run ++ post) = ⟨lo, hi - lo, true⟩ :: post := by
  obtain ⟨m, joined, freeM, startM, stopM⟩ :=
    coalesce_run block_joinable (fun _ _ => rfl) join_stop some free tiles separated behind
  have whole : m = ⟨lo, hi - lo, true⟩ := by
    apply block_ext startM _ freeM
    rw [stopM]
    simp only [Block.stop]
    omega
  rw [joined, whole]

theorem tiles_markFree {freed : List Int} {lo hi : Int} {blocks : List Block}
    (tiles : Tiles Block.start Block.stop lo hi blocks) :
    Tiles Block.start Block.stop lo hi (blocks.map (markFree freed)) := by
  induction blocks generalizing lo with
  | nil => exact tiles
  | cons b rest ih => exact ⟨tiles.1, tiles.2.1, ih tiles.2.2⟩

theorem map_unmarked {freed : List Int} {blocks : List Block}
    (others : ∀ c ∈ blocks, c.start ∉ freed) : blocks.map (markFree freed) = blocks :=
  (List.map_congr_left fun c mc => markFree_other (others c mc)).trans (List.map_id blocks)

theorem afterFreeing_run {freed : List Int} {pre run post : List Block} {lo hi : Int}
    (some : run ≠ []) (marked : ∀ c ∈ run, (markFree freed c).free = true)
    (before : ∀ c ∈ pre, c.start ∉ freed) (after : ∀ c ∈ post, c.start ∉ freed)
    (tiles : Tiles Block.start Block.stop lo hi run)
    (apart : (pre ++ (⟨lo, hi - lo, true⟩ :: post)).IsChain Apart) :
    afterFreeing freed (pre ++ (run ++ post)) = pre ++ (⟨lo, hi - lo, true⟩ :: post) := by
  obtain ⟨behind, rest⟩ := List.isChain_cons.mp (List.isChain_append.mp apart).2.1
  have taken : ∀ c ∈ post.head?, c.free = false := by
    intro c mc
    simpa [Apart] using behind c mc
  have freeRun : ∀ c ∈ run.map (markFree freed), c.free = true := by
    intro c mc
    obtain ⟨d, md, rfl⟩ := List.mem_map.mp mc
    exact marked d md
  have nonempty : run.map (markFree freed) ≠ [] := fun empty => some (List.map_eq_nil_iff.mp empty)
  have joined := coalesce_blocks nonempty freeRun (tiles_markFree tiles) rest taken
  unfold afterFreeing
  rw [List.map_append, List.map_append, map_unmarked before, map_unmarked after,
    coalesce_append block_joinable, joined]
  exact coalesce_parted apart

theorem starts_apart {L : Layout} {pre run post : List Block}
    (split : L.blocks = pre ++ (run ++ post)) {b : Block} (member : b ∈ run) :
    (∀ c ∈ pre, c.start ∉ [b.start]) ∧ ∀ c ∈ post, c.start ∉ [b.start] := by
  have starts := tiles_starts_nodup L.tiles
  rw [split, List.map_append, List.map_append] at starts
  obtain ⟨_, later, apartPre⟩ := List.nodup_append.mp starts
  obtain ⟨_, _, apartPost⟩ := List.nodup_append.mp later
  have own := List.mem_map_of_mem (f := Block.start) member
  constructor
  · intro c mc same
    exact apartPre c.start (List.mem_map_of_mem mc) b.start (List.mem_append_left _ own)
      (List.mem_singleton.mp same)
  · intro c mc same
    exact apartPost b.start own c.start (List.mem_map_of_mem mc) (List.mem_singleton.mp same).symm

/-- Releasing a block yields the normal form of the list with the block marked free. -/
theorem releases_blocks {L M : Layout} {b : Block} (released : Releases L b M) :
    M.blocks = afterFreeing [b.start] L.blocks := by
  obtain ⟨_, pre, run, post, m, found, blocks, _⟩ := released
  obtain ⟨before, after⟩ := starts_apart found.split found.member
  have marked : ∀ c ∈ run, (markFree [b.start] c).free = true := by
    intro c mc
    by_cases same : c = b
    · simp [markFree, same]
    · simp [markFree, found.others_free c mc same]
  have whole : (⟨m.start, m.stop - m.start, true⟩ : Block) = m :=
    block_ext rfl (by simp only [Block.stop]; omega) found.free.symm
  have apart : (pre ++ (⟨m.start, m.stop - m.start, true⟩ :: post)).IsChain Apart := by
    rw [whole]
    exact blocks ▸ M.separated
  rw [blocks, found.split, afterFreeing_run (List.ne_nil_of_mem found.member) marked before after
    found.covers apart, whole]
  rfl

section Refinement
variable {h : Heap} {L : Layout} {b : Block}

theorem carve_allocates {units : Int} (member : b ∈ L.blocks) (free : b.free = true)
    (low : 4 ≤ units) (fits : units ≤ b.size) :
    Allocates L units b (L.carve b units member free low) := by
  obtain ⟨pre, post, split, _, spliced⟩ := splice_eq (pieces b units) member
  exact ⟨free, fits, rfl, ⟨pre, post, split, spliced⟩, rfl⟩

theorem offLinks_of_not_free {j : Int} (taken : ¬ FreeWord L j) : OffLinks L.order j := by
  intro k mk
  obtain ⟨c, mc, free, rfl⟩ := listed_block mk
  have bounds := block_bounds mc
  have outside : ¬ (c.start ≤ j ∧ j < c.stop) := fun inside => taken ⟨c, mc, free, inside⟩
  simp only [Block.stop] at outside
  omega

theorem not_freeWord {c : Block} (mc : c ∈ L.blocks) (taken : c.free = false) {j : Int}
    (low : c.start ≤ j) (high : j < c.stop) : ¬ FreeWord L j := by
  intro given
  obtain ⟨d, md, free, lowD, highD⟩ := given
  simp only [Block.stop] at high highD
  have apart := (block_disjoint mc md).resolve_left (free_ne_taken free taken).symm
  omega

theorem carve_words {units : Int} (r : Represents h L) (member : b ∈ L.blocks)
    (free : b.free = true) (low : 4 ≤ units) (fits : units ≤ b.size) {j : Int}
    (taken : ¬ FreeWord L j) : (h.carve b.start b.size units).array j = h.array j := by
  apply carve_frame r member free low fits _ (offLinks_of_not_free taken)
  have outside : ¬ (b.start ≤ j ∧ j < b.stop) := fun inside => taken ⟨b, member, free, inside⟩
  simp only [Block.stop] at outside
  omega

theorem Surroundings.covers (s : Surroundings L b) : Tiles Block.start Block.stop
    s.merged.start s.merged.stop (s.left.toList ++ ([b] ++ s.right.toList)) := by
  obtain ⟨before, after, _, _⟩ := s.tiles
  have tiles := L.tiles
  have split : L.blocks = s.pre ++ ((s.left.toList ++ ([b] ++ s.right.toList)) ++ s.post) := by
    rw [s.split]
    simp
  rw [split] at tiles
  obtain ⟨lo, first, rest⟩ := tiles_append.mp tiles
  obtain ⟨hi, middle, last⟩ := tiles_append.mp rest
  rw [tiles_hi_unique before first, tiles_lo_unique after last]
  exact middle

theorem release_grows (s : Surroundings L b) (taken : b.free = false) {j : Int}
    (free : FreeWord L j) : FreeWord (s.release taken) j := by
  obtain ⟨c, mc, freeC, low, high⟩ := free
  rw [s.split] at mc
  by_cases run : c ∈ s.left.toList ++ ([b] ++ s.right.toList)
  · have bounds := tiles_bounds s.covers run
    exact ⟨s.merged, by simp [Surroundings.release], rfl, by omega, by omega⟩
  · refine ⟨c, ?_, freeC, low, high⟩
    simp only [List.mem_append] at mc run
    simp only [Surroundings.release, List.mem_append]
    tauto

theorem release_words (r : Represents h L) (s : Surroundings L b) (taken : b.free = false)
    {j : Int} (kept : ¬ FreeWord (s.release taken) j) : (s.heap h).array j = h.array j := by
  apply release_frame r s _ (offLinks_of_not_free fun free => kept (release_grows s taken free))
  have outside : ¬ (s.merged.start ≤ j ∧ j < s.merged.stop) :=
    fun inside => kept ⟨s.merged, by simp [Surroundings.release], rfl, inside⟩
  simp only [Block.stop] at outside
  omega

theorem withoutBlock_eq_filter {order : List Int} (distinct : order.Nodup) (o : Option Block) :
    withoutBlock order o = order.filter fun k => decide (o.map Block.start ≠ some k) := by
  cases o with
  | none => simp [withoutBlock]
  | some a =>
    rw [withoutBlock, distinct.erase_eq_filter]
    apply List.filter_congr
    intro k _
    rw [Bool.eq_iff_iff]
    simp only [bne_iff_ne, ne_eq, Option.map_some, Option.some.injEq, decide_eq_true_eq]
    exact not_congr eq_comm

theorem Surroundings.rest_eq (s : Surroundings L b) (taken : b.free = false) :
    s.rest = outsideOrder L s.merged := by
  have once := withoutBlock_eq_filter (order_nodup L) s.left
  have twice := withoutBlock_eq_filter (once ▸ (order_nodup L).filter _) s.right
  have both : s.rest = L.order.filter fun k => decide (s.right.map Block.start ≠ some k) &&
      decide (s.left.map Block.start ≠ some k) := by
    rw [Surroundings.rest, twice, once, List.filter_filter]
  rw [both]
  apply List.filter_congr
  intro k mk
  rw [Bool.eq_iff_iff]
  simp only [Bool.and_eq_true, decide_eq_true_eq]
  constructor
  · intro other
    have listed : k ∈ s.rest := by
      rw [both]
      exact List.mem_filter.mpr ⟨mk, by simp [other]⟩
    have outside := s.rest_outside taken listed
    simp only [Block.stop]
    omega
  · intro outside
    have absorbed : ∀ c ∈ s.left.toList ++ ([b] ++ s.right.toList), c.start ≠ k := by
      intro c mc same
      have bounds := tiles_bounds s.covers mc
      omega
    constructor
    · intro same
      obtain ⟨c, is, start⟩ := Option.map_eq_some_iff.mp same
      exact absorbed c (by simp [is]) start
    · intro same
      obtain ⟨c, is, start⟩ := Option.map_eq_some_iff.mp same
      exact absorbed c (by simp [is]) start

theorem release_releases (s : Surroundings L b) (taken : b.free = false) :
    Releases L b (s.release taken) := by
  refine ⟨rfl, s.pre, s.left.toList ++ ([b] ++ s.right.toList), s.post, s.merged, ?_, rfl, ?_⟩
  · refine ⟨by rw [s.split]; simp, by simp, ?_, s.pre_taken, s.post_taken, s.covers, rfl⟩
    intro c mc other
    simp only [List.mem_append, Option.mem_toList, List.mem_singleton] at mc
    rcases mc with left | same | right
    · exact s.left_free c left
    · exact absurd same other
    · exact s.right_free c right
  · rw [← s.rest_eq taken]
    rfl

end Refinement

/-- `malloc` ends in the heap it was given, with a null pointer, or in one where
    a single free block has been allocated from. -/
def MallocRefines (h : Heap) (L : Layout) (bytes : Nat) : Prop :=
  ∃ p h', (malloc bytes).run heapExec h = .done p h' ∧
    ((p = 0 ∧ h' = h) ∨ ∃ b M, Allocates L (mallocUnits bytes) b M ∧ Represents h' M ∧
      p = h.base + 8 * (b.start + 1) ∧ ∀ c ∈ L.blocks, c.free = false →
        ∀ j, c.start ≤ j → j < c.stop → h'.array j = h.array j)

theorem mallocUnits_low (bytes : Nat) : 4 ≤ mallocUnits bytes := by
  unfold mallocUnits
  dsimp only
  split <;> omega

theorem malloc_step {h : Heap} {L : Layout} (r : Represents h L) (bytes : Nat) :
    MallocRefines h L bytes := by
  by_cases none : bytes = 0
  · subst none
    exact ⟨0, h, rfl, Or.inl ⟨rfl, rfl⟩⟩
  · have run := run_malloc (Nat.pos_of_ne_zero none) r.asleep
    have low := mallocUnits_low bytes
    rcases mallocBody_cases r (mallocUnits bytes) with ⟨_, result⟩ | ⟨b, mb, free, fit, result⟩
    · exact ⟨0, h, run.trans result, Or.inl ⟨rfl, rfl⟩⟩
    · have fits : mallocUnits bytes ≤ b.size := header_size r mb ▸ fit.enough
      refine ⟨_, _, run.trans result, Or.inr ⟨b, L.carve b (mallocUnits bytes) mb free low,
        carve_allocates mb free low fits, carve_represents r mb free low fits, rfl, ?_⟩⟩
      intro c mc taken j from_ below
      exact carve_words r mb free low fits (not_freeWord mc taken from_ below)

/-- `heapInit` sets up the allocator, and each `malloc` is one of its steps. -/
theorem malloc_refines_allocator :
    (∀ (h : Heap) (base bytes : Nat), Untouched h → 64 ≤ bytes → bytes < 2 ^ 34 →
      ∃ h', (heapInit base bytes).run heapExec h = .done () h' ∧ WellFormed h') ∧
    ∀ (h : Heap) (L : Layout) (bytes : Nat), Represents h L → MallocRefines h L bytes := by
  constructor
  · intro h base bytes fresh enough small
    obtain ⟨h', L, run, r, _⟩ := heapInit_represents fresh base enough small
    exact ⟨h', run, L, r⟩
  · intro h L bytes r
    exact malloc_step r bytes

theorem malloc_refines_allocator_crowded :
    (∃ h', (heapInit 4096 512).run heapExec blank = .done () h' ∧ WellFormed h') ∧
      MallocRefines (crowded.spell 4096) crowded 16 :=
  ⟨malloc_refines_allocator.1 blank 4096 512 ⟨rfl, rfl⟩ (by decide) (by decide),
    malloc_refines_allocator.2 _ _ 16 (spell_represents crowded 4096)⟩

end PiKernel.HeapModel
