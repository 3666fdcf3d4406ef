import PiKernel.Heap.Malloc
import PiKernel.Heap.Spell

/-!
What `malloc` owes its caller: the best fit of all free blocks, and a block as
large as the request. Exactly when the code pays either debt.
-/
namespace PiKernel.HeapModel
open Program BestFit

def requestUnits (bytes : Nat) : Int := max 4 ((((bytes + 7) / 8 : Nat) : Int) + 2)

def largestRequest : Nat := 2 ^ 34 - 24

theorem mallocUnits_exact {bytes : Nat} (fits : bytes ≤ largestRequest) :
    mallocUnits bytes = requestUnits bytes := by
  unfold largestRequest at fits
  have unwrapped : (bytes + 7) % 2 ^ 64 = bytes + 7 := Nat.mod_eq_of_lt (by omega)
  have value : asInt ((((bytes + 7) % 2 ^ 64) / 8 + 2 : Nat) : Int) =
      (((bytes + 7) / 8 : Nat) : Int) + 2 := by
    rw [unwrapped, Int.natCast_add]
    exact asInt_eq (by omega) (by omega)
  unfold mallocUnits requestUnits
  simp only [value]
  split <;> omega

section BestFit
variable {h : Heap} {L : Layout} {bytes : Nat}

structure IsBestFree (L : Layout) (units : Int) (b : Block) : Prop where
  member : b ∈ L.blocks
  free : b.free = true
  enough : units ≤ b.size
  least : ∀ c ∈ L.blocks, c.free = true → units ≤ c.size → b.size ≤ c.size

def NoneFits (L : Layout) (units : Int) : Prop :=
  ∀ b ∈ L.blocks, b.free = true → b.size < units

/-- `malloc` fails only when no free block is large enough, and otherwise returns
    the payload of a smallest one, which is taken afterwards. -/
def AllocatesBestFit (h : Heap) (L : Layout) (bytes : Nat) : Prop :=
  ∃ p h', (malloc bytes).run heapExec h = .done p h' ∧
    (p = 0 ↔ NoneFits L (requestUnits bytes)) ∧
    (p ≠ 0 → ∃ b, IsBestFree L (requestUnits bytes) b ∧ p = h.base + 8 * (b.start + 1) ∧
      h'.array b.start < 0)

theorem bestFree_iff (r : Represents h L) {units : Int} {b : Block} (member : b ∈ L.blocks)
    (free : b.free = true) :
    IsBestFree L units b ↔ IsBestFit h.size units L.order b.start := by
  have length := header_size r member
  constructor
  · intro best
    refine ⟨listed_start member free, length ▸ best.enough, ?_⟩
    intro i mi enough
    obtain ⟨c, mc, freeC, rfl⟩ := listed_block mi
    rw [header_size r mc] at enough ⊢
    rw [length]
    exact best.least c mc freeC enough
  · intro fit
    refine ⟨member, free, length ▸ fit.enough, ?_⟩
    intro c mc freeC enough
    have least := fit.least c.start (listed_start mc freeC)
    rw [header_size r mc, length] at least
    exact least enough

theorem carve_takes (r : Represents h L) {b : Block} (member : b ∈ L.blocks)
    (free : b.free = true) {units : Int} (low : 4 ≤ units) (fits : units ≤ b.size) :
    (h.carve b.start b.size units).array b.start < 0 := by
  have tags := carve_tags r member free low fits
  unfold pieces at tags
  split at tags
  · have first := (tags _ List.mem_cons_self).1
    simp only [Block.tag, Bool.false_eq_true, ↓reduceIte] at first
    omega
  · have first := (tags _ List.mem_cons_self).1
    simp only [Block.tag, Bool.false_eq_true, ↓reduceIte] at first
    omega

theorem malloc_best_fit_iff (r : Represents h L) (pos : 0 < bytes) (small : bytes < 2 ^ 33) :
    AllocatesBestFit h L bytes ↔ NoneFits L (requestUnits bytes) ∨
      ∃ b, IsBestFree L (requestUnits bytes) b ∧ b.start ∈ examined L := by
  have exactUnits : mallocUnits bytes = requestUnits bytes :=
    mallocUnits_exact (by unfold largestRequest; omega)
  have run := run_malloc pos r.asleep
  rw [exactUnits] at run
  rcases mallocBody_cases r (requestUnits bytes) with ⟨unfit, result⟩ | ⟨b, mb, free, fit, result⟩
  · constructor
    · intro given
      obtain ⟨p, h', same, null, _⟩ := given
      rw [run, result] at same
      obtain ⟨rfl, rfl⟩ : 0 = p ∧ h = h' := by simpa using same
      exact Or.inl (null.mp rfl)
    · rintro (none | ⟨b, best, early⟩)
      · exact ⟨0, h, run.trans result, ⟨fun _ => none, fun _ => rfl⟩, fun some => absurd rfl some⟩
      · have short := unfit b.start early
        rw [header_size r best.member] at short
        have enough := best.enough
        omega
  · have bounds := block_bounds mb
    have nonnull : (h.base : Int) + 8 * (b.start + 1) ≠ 0 := by omega
    have enough : requestUnits bytes ≤ b.size := header_size r mb ▸ fit.enough
    constructor
    · intro given
      obtain ⟨p, h', same, null, from_⟩ := given
      rw [run, result] at same
      obtain ⟨rfl, rfl⟩ : h.base + 8 * (b.start + 1) = p ∧ _ = h' := by simpa using same
      obtain ⟨c, best, place, _⟩ := from_ nonnull
      have start : b.start = c.start := by omega
      exact Or.inr ⟨c, best, start ▸ fit.member⟩
    · rintro (none | ⟨c, best, early⟩)
      · have := none b mb free
        omega
      · have whole := (bestFree_iff r best.member best.free).mp best
        have extended := (bestFit_extends (examined_subset L) fit).mpr ⟨c.start, early, whole⟩
        have bestB := (bestFree_iff r mb free).mpr extended
        refine ⟨_, _, run.trans result, ⟨fun zero => absurd zero nonnull, ?_⟩, ?_⟩
        · intro none
          have := none b mb free
          omega
        · intro _
          have low : 4 ≤ requestUnits bytes := le_max_left 4 _
          exact ⟨b, bestB, rfl, carve_takes r mb free low enough⟩

end BestFit

def crowdedBlocks : List Block :=
  (List.range 20).flatMap (fun k => [⟨2 + 8 * k, 4, true⟩, ⟨6 + 8 * k, 4, false⟩]) ++
    [⟨162, 8, true⟩]

def crowded : Layout where
  len := 172
  blocks := crowdedBlocks
  order := freeStarts crowdedBlocks
  small := by decide
  tiles := by decide
  min_size := by decide
  separated := by decide
  listed := List.Perm.refl _

theorem malloc_best_fit_crowded : AllocatesBestFit (crowded.spell 4096) crowded 16 :=
  (malloc_best_fit_iff (spell_represents _ _) (by decide) (by decide)).mpr
    (Or.inr ⟨⟨2, 4, true⟩, ⟨by decide, rfl, by decide, by decide⟩, by decide⟩)

theorem crowded_not_best_fit : Represents (crowded.spell 4096) crowded ∧
    ¬ AllocatesBestFit (crowded.spell 4096) crowded 40 := by
  have r := spell_represents crowded 4096
  refine ⟨r, ?_⟩
  intro given
  obtain ⟨p, h', same, null, _⟩ := given
  have units : mallocUnits 40 = 7 := by decide
  have short : ∀ b ∈ crowded.blocks, b.start ∈ examined crowded → b.size = 4 := by decide
  have result : (malloc 40).run heapExec (crowded.spell 4096) = .done 0 (crowded.spell 4096) := by
    rw [run_malloc (by decide) r.asleep, units]
    rcases mallocBody_cases r 7 with ⟨_, result⟩ | ⟨b, mb, _, fit, _⟩
    · exact result
    · have enough := fit.enough
      rw [header_size r mb, short b mb fit.member] at enough
      exact absurd enough (by decide)
  rw [result] at same
  obtain ⟨rfl, rfl⟩ : 0 = p ∧ crowded.spell 4096 = h' := by simpa using same
  have last := null.mp rfl ⟨162, 8, true⟩ (by decide) rfl
  exact absurd last (by decide)

/-- The unit count of a request after the additions have wrapped to 64 bits and
    the conversion to `int` has dropped the upper half. -/
def wrappedUnits (bytes : Nat) : Int :=
  max 4 ((((bytes + 7) % 2 ^ 64 / 8 + 2 : Nat) : Int).bmod (2 ^ 32))

theorem mallocUnits_wrapped (bytes : Nat) : mallocUnits bytes = wrappedUnits bytes := by
  unfold mallocUnits wrappedUnits asInt
  dsimp only
  split <;> omega

def Covers (base : Nat) (L : Layout) (p : Int) (bytes : Nat) : Prop :=
  ∃ b ∈ L.blocks, base + 8 * b.start < p ∧ p + bytes ≤ base + 8 * (b.stop - 1)

def HonoursSize (h : Heap) (bytes : Nat) : Prop :=
  ∃ p h', (malloc bytes).run heapExec h = .done p h' ∧
    (p ≠ 0 → ∃ L', Represents h' L' ∧ Covers h.base L' p bytes) ∧
    (8 * h.len < bytes → p = 0)

section Size
variable {h : Heap} {L : Layout} {bytes : Nat}

theorem covers_le {base : Nat} {p : Int} (covers : Covers base L p bytes) :
    bytes ≤ largestRequest := by
  obtain ⟨b, mb, after, inside⟩ := covers
  have bounds := block_bounds mb
  have small := L.small
  simp only [Block.stop] at inside
  unfold largestRequest
  omega

theorem carve_covers {b : Block} (member : b ∈ L.blocks) (free : b.free = true)
    (low : 4 ≤ requestUnits bytes) (enough : requestUnits bytes ≤ b.size) (base : Nat) :
    Covers base (L.carve b (requestUnits bytes) member free low)
      (base + 8 * (b.start + 1)) bytes := by
  have request : (((bytes + 7) / 8 : Nat) : Int) + 2 ≤ requestUnits bytes := le_max_right 4 _
  obtain ⟨c, mc, _, start, size⟩ := carved_block member free low enough
  refine ⟨c, mc, ?_, ?_⟩
  · omega
  · simp only [Block.stop]
    omega

theorem malloc_honours_size_iff (r : Represents h L) (pos : 0 < bytes) :
    HonoursSize h bytes ↔ bytes ≤ largestRequest ∨
      ∀ b ∈ L.blocks, b.start ∈ examined L → b.size < wrappedUnits bytes := by
  have run := run_malloc pos r.asleep
  rcases mallocBody_cases r (mallocUnits bytes) with ⟨unfit, result⟩ | ⟨b, mb, free, fit, result⟩
  · rw [result] at run
    refine iff_of_true ⟨0, h, run, fun some => absurd rfl some, fun _ => rfl⟩ (Or.inr ?_)
    intro b mb early
    rw [← mallocUnits_wrapped, ← header_size r mb]
    exact unfit b.start early
  · rw [result] at run
    have bounds := block_bounds mb
    have nonnull : (h.base : Int) + 8 * (b.start + 1) ≠ 0 := by omega
    have enough : mallocUnits bytes ≤ b.size := header_size r mb ▸ fit.enough
    constructor
    · intro given
      obtain ⟨p, h', same, honoured, _⟩ := given
      rw [run] at same
      obtain ⟨rfl, rfl⟩ : h.base + 8 * (b.start + 1) = p ∧ _ = h' := by simpa using same
      obtain ⟨L', _, covers⟩ := honoured nonnull
      exact Or.inl (covers_le covers)
    · rintro (fits | short)
      · rw [mallocUnits_exact fits] at run enough
        have low : 4 ≤ requestUnits bytes := le_max_left 4 _
        have request : (((bytes + 7) / 8 : Nat) : Int) + 2 ≤ requestUnits bytes := le_max_right 4 _
        refine ⟨_, _, run, ?_, ?_⟩
        · intro _
          exact ⟨_, carve_represents r mb free low enough, carve_covers mb free low enough h.base⟩
        · intro large
          have len := r.len_eq
          omega
      · have := short b mb fit.member
        rw [← mallocUnits_wrapped] at this
        omega

end Size

/-- A request of two words is met; one of 2^35 + 80 bytes counts as twelve words and
    finds no block. -/
theorem malloc_honours_size_crowded : HonoursSize (crowded.spell 4096) 16 ∧
    HonoursSize (crowded.spell 4096) (2 ^ 35 + 80) :=
  ⟨(malloc_honours_size_iff (spell_represents _ _) (by decide)).mpr (Or.inl (by decide)),
    (malloc_honours_size_iff (spell_represents _ _) (by decide)).mpr (Or.inr (by decide))⟩

def emptyHeap : Layout := freshLayout 64 (by decide) (by decide)

/-- `malloc(SIZE_MAX)` takes a block of four words. -/
theorem huge_request_not_honoured : Represents (emptyHeap.spell 4096) emptyHeap ∧
    ¬ HonoursSize (emptyHeap.spell 4096) (2 ^ 64 - 1) := by
  have r := spell_represents emptyHeap 4096
  refine ⟨r, ?_⟩
  intro given
  obtain ⟨p, h', same, honoured, _⟩ := given
  rw [run_malloc (by decide) r.asleep] at same
  rcases mallocBody_cases r (mallocUnits (2 ^ 64 - 1)) with ⟨unfit, _⟩ | ⟨b, mb, _, _, result⟩
  · exact absurd (unfit 2 (by decide)) (by decide +kernel)
  · rw [result] at same
    have bounds := block_bounds mb
    obtain ⟨rfl, rfl⟩ : _ = p ∧ _ = h' := by simpa using same
    obtain ⟨L', _, covers⟩ := honoured (by omega)
    exact absurd (covers_le covers) (by decide)

end PiKernel.HeapModel
