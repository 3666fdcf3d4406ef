import PiKernel.Heap.Orders

/-!
What the heap is for: objects that keep what their owners wrote into them, and
memory that comes back. A run is `heapInit`, then any `malloc`s, any writes of
owners and any releases, where a release is lines 210 to 232 of `free`, entered
with the header index of the object.
-/
namespace PiKernel.HeapModel
open Program Transition Tiling

def RunState.afterRelease (s : RunState) (p : Int) : RunState :=
  match (freeBlock p (headerIndex s.heap.base p)).run heapExec s.heap with
  | .done () h => ⟨h, s.live.filter fun x => x.1 ≠ p, false⟩
  | .stuck _ h => ⟨h, s.live, true⟩

/-- The requests are those whose unit count fits an `int`. -/
inductive ObjectStep : RunState → Event → RunState → Prop where
  | malloc {s : RunState} {n : Nat} (running : s.panicked = false) (pos : 0 < n)
      (fits : n ≤ largestRequest) : ObjectStep s (.malloc n) (s.afterMalloc n)
  | release {s : RunState} {p : Int} (running : s.panicked = false)
      (live : p ∈ s.live.map Prod.fst) : ObjectStep s (.free p) (s.afterRelease p)
  | write {s : RunState} {p : Int} {n : Nat} (running : s.panicked = false)
      (live : (p, n) ∈ s.live) (words : Int → Int) :
      ObjectStep s (.write p n words) { s with heap := s.heap.overwrite p n words }

def objectStart (h : Heap) (base bytes : Nat) : RunState :=
  RunState.start ((heapInit base bytes).run heapExec h)

def objectRuns (h : Heap) (base bytes : Nat) : System RunState Event where
  init s := s = objectStart h base bytes
  step := ObjectStep

def Touches (base : Nat) (p : Int) (n : Nat) (j : Int) : Prop :=
  p < base + 8 * j + 8 ∧ base + 8 * j < p + n

def lastWrite (p : Int) : List (RunState × Event) → Option (Int → Int)
  | [] => none
  | (_, .write q _ words) :: past => if q = p then some words else lastWrite p past
  | (_, .free q) :: past => if q = p then none else lastWrite p past
  | (_, .malloc _) :: past => lastWrite p past

def headers (base : Nat) (live : List (Int × Nat)) : List Int :=
  live.map fun x => headerIndex base x.1

/-- `words`: objects hold what was written; `returns`: giving all of them back would
    leave the blocks that `heapInit` left. -/
structure Objects (first : List Block) (base : Nat) (past : List (RunState × Event))
    (s : RunState) : Prop where
  inv : Inv base s
  stale : ∀ p, p ∉ s.live.map Prod.fst → lastWrite p past = none
  words : ∀ x ∈ s.live, ∀ w, lastWrite x.1 past = some w →
    ∀ j, Touches base x.1 x.2 j → s.heap.array j = w j
  returns : ∀ L, Represents s.heap L → afterFreeing (headers base s.live) L.blocks = first

section Owners
variable {base : Nat} {s : RunState} {L : Layout} {b : Block} {x : Int × Nat} {j : Int}

theorem owns_index (own : Owns base x b) : headerIndex base x.1 = b.start := by
  have start := own.start
  unfold headerIndex
  omega

theorem owns_touches (own : Owns base x b) (touches : Touches base x.1 x.2 j) :
    b.start < j ∧ j < b.stop - 1 := by
  have start := own.start
  have room := own.room
  unfold Touches at touches
  omega

theorem inv_owner (inv : Inv base s) (r : Represents s.heap L) (live : x ∈ s.live) :
    ∃ b ∈ L.blocks, Owns base x b := by
  obtain ⟨_, _, _, M, rM, owned⟩ := inv
  obtain rfl := represents_unique r rM
  exact owned x live

theorem inv_same {y : Int × Nat} (inv : Inv base s) (first : x ∈ s.live) (second : y ∈ s.live)
    (same : x.1 = y.1) : x = y := List.inj_on_of_nodup_map inv.distinct first second same

theorem owners_apart {y : Int × Nat} (inv : Inv base s) (first : x ∈ s.live) (second : y ∈ s.live)
    (other : x.1 ≠ y.1) (touches : Touches base x.1 x.2 j) : ¬ Touches base y.1 y.2 j := by
  intro both
  obtain ⟨L, r, _⟩ := inv.owned
  obtain ⟨b, mb, ownX⟩ := inv_owner inv r first
  obtain ⟨c, mc, ownY⟩ := inv_owner inv r second
  have insideB := owns_touches ownX touches
  have insideC := owns_touches ownY both
  have startX := ownX.start
  have startY := ownY.start
  simp only [Block.stop] at insideB insideC
  rcases block_disjoint mb mc with same | apart | apart
  · subst same
    omega
  · omega
  · omega

theorem overwrite_represents {p : Int} {n : Nat} (inv : Inv base s) (r : Represents s.heap L)
    (live : (p, n) ∈ s.live) (words : Int → Int) : Represents (s.heap.overwrite p n words) L := by
  obtain ⟨b, mb, own⟩ := inv_owner inv r live
  refine represents_payload r mb own.taken rfl rfl rfl ?_
  intro j outside
  have untouched : ¬ Touches base p n j := by
    intro touches
    have inside := owns_touches own touches
    omega
  have same := inv.base_eq
  unfold Touches at untouched
  rw [← same] at untouched
  exact if_neg untouched

end Owners

section Steps
variable {first : List Block} {base : Nat} {past : List (RunState × Event)} {s : RunState}

theorem objects_write {p : Int} {n : Nat} (objects : Objects first base past s)
    (live : (p, n) ∈ s.live) (words : Int → Int) :
    Objects first base ((s, .write p n words) :: past)
      { s with heap := s.heap.overwrite p n words } := by
  have inv := objects.inv
  refine ⟨write_inv inv live words, ?_, ?_, ?_⟩
  · intro q dead
    have other : p ≠ q := by
      rintro rfl
      exact dead (List.mem_map_of_mem live)
    simp only [lastWrite, if_neg other]
    exact objects.stale q dead
  · intro x mx w last j touches
    by_cases same : p = x.1
    · obtain rfl := inv_same inv live mx same
      simp only [lastWrite, ↓reduceIte, Option.some.injEq] at last
      subst last
      have baseEq := inv.base_eq
      unfold Touches at touches
      rw [← baseEq] at touches
      exact if_pos touches
    · simp only [lastWrite, if_neg same] at last
      have apart := owners_apart inv mx live (fun eq => same eq.symm) touches
      have baseEq := inv.base_eq
      unfold Touches at apart
      rw [← baseEq] at apart
      have kept : (s.heap.overwrite p n words).array j = s.heap.array j := if_neg apart
      rw [kept]
      exact objects.words x mx w last j touches
  · intro M rM
    obtain ⟨L, r, _⟩ := inv.owned
    obtain rfl := represents_unique rM (overwrite_represents inv r live words)
    exact objects.returns M r

theorem words_kept (objects : Objects first base past s) {h : Heap} {L : Layout}
    (r : Represents s.heap L) {x : Int × Nat} (live : x ∈ s.live)
    (same : ∀ b ∈ L.blocks, Owns base x b → ∀ j, b.start ≤ j → j < b.stop →
      h.array j = s.heap.array j) {w : Int → Int} (last : lastWrite x.1 past = some w) {j : Int}
    (touches : Touches base x.1 x.2 j) : h.array j = w j := by
  obtain ⟨b, mb, own⟩ := inv_owner objects.inv r live
  obtain ⟨low, high⟩ := owns_touches own touches
  rw [same b mb own j (by omega) (by omega)]
  exact objects.words x live w last j touches

theorem objects_malloc {n : Nat} (objects : Objects first base past s) (pos : 0 < n)
    (fits : n ≤ largestRequest) : Objects first base ((s, .malloc n) :: past) (s.afterMalloc n) := by
  have inv := objects.inv
  have invAfter := malloc_inv inv pos (Or.inl fits)
  obtain ⟨L, r, _⟩ := inv.owned
  obtain ⟨p, h, run, ending⟩ := malloc_step r n
  have after : s.afterMalloc n = ⟨h, if p = 0 then s.live else (p, n) :: s.live, false⟩ := by
    unfold RunState.afterMalloc
    rw [run]
  rw [after] at invAfter ⊢
  rcases ending with ⟨null, same⟩ | ⟨b, M, allocated, rM, place, kept⟩
  · subst same
    simp only [null, ↓reduceIte] at invAfter ⊢
    exact ⟨invAfter, objects.stale, objects.words, objects.returns⟩
  · have bounds := block_bounds (allocates_member allocated)
    have some : p ≠ 0 := by omega
    simp only [some, ↓reduceIte] at invAfter ⊢
    have fresh : p ∉ s.live.map Prod.fst := (List.nodup_cons.mp invAfter.distinct).1
    refine ⟨invAfter, ?_, ?_, ?_⟩
    · intro q dead
      exact objects.stale q fun live => dead (List.mem_cons_of_mem _ live)
    · intro x mx w last j touches
      rcases List.mem_cons.mp mx with rfl | mx
      · exact absurd ((objects.stale p fresh).symm.trans last) (by simp)
      · refine words_kept objects r mx ?_ last touches
        intro c mc own i low high
        exact kept c mc own.taken i low high
    · intro N rN
      obtain rfl := represents_unique rN rM
      have index : headerIndex base p = b.start := by
        have baseEq := inv.base_eq
        unfold headerIndex
        omega
      have parts : headers base ((p, n) :: s.live) = [b.start] ++ headers base s.live := by
        simp [headers, index]
      rw [parts, ← afterFreeing_again, allocates_undone allocated (mallocUnits_low n)]
      exact objects.returns L r

theorem objects_release {p : Int} (objects : Objects first base past s)
    (live : p ∈ s.live.map Prod.fst) :
    Objects first base ((s, .free p) :: past) (s.afterRelease p) := by
  have inv := objects.inv
  obtain ⟨x, mx, rfl⟩ := List.mem_map.mp live
  obtain ⟨L, r, _⟩ := inv.owned
  obtain ⟨b, mb, own⟩ := inv_owner inv r mx
  obtain ⟨around⟩ := exists_surroundings mb
  have index : headerIndex s.heap.base x.1 = b.start := by rw [inv.base_eq, owns_index own]
  have after : s.afterRelease x.1 =
      ⟨around.heap s.heap, s.live.filter fun y => y.1 ≠ x.1, false⟩ := by
    unfold RunState.afterRelease
    rw [index, freeBlock_run r around own.taken]
  have rM := release_represents r around own.taken
  -- the other live objects have blocks that the release leaves as they are
  have others : ∀ y ∈ s.live.filter (fun y => y.1 ≠ x.1), ∀ c ∈ L.blocks, Owns base y c →
      c ∈ (around.release own.taken).blocks := by
    intro y my c mc ownC
    refine release_keeps around own.taken mc ownC.taken ?_
    rintro rfl
    have other : y.1 ≠ x.1 := of_decide_eq_true (List.mem_filter.mp my).2
    exact other (ownC.start.trans own.start.symm)
  rw [after]
  refine ⟨⟨rfl, (release_fields around s.heap).1.trans inv.base_eq, ?_, _, rM, ?_⟩, ?_, ?_, ?_⟩
  · exact (List.filter_sublist.map Prod.fst).nodup inv.distinct
  · intro y my
    obtain ⟨c, mc, ownC⟩ := inv_owner inv r (List.mem_filter.mp my).1
    exact ⟨c, others y my c mc ownC, ownC⟩
  · intro q dead
    simp only [lastWrite]
    split
    · rfl
    · rename_i other
      apply objects.stale q
      intro there
      obtain ⟨y, my, rfl⟩ := List.mem_map.mp there
      exact dead (List.mem_map_of_mem (List.mem_filter.mpr ⟨my, by simpa using fun eq => other eq.symm⟩))
  · intro y my w last j touches
    obtain ⟨there, apart⟩ := List.mem_filter.mp my
    have other : x.1 ≠ y.1 := fun eq => of_decide_eq_true apart eq.symm
    simp only [lastWrite, if_neg other] at last
    refine words_kept objects r there ?_ last touches
    intro c mc ownC i low high
    exact release_words r around own.taken
      (not_freeWord (others y my c mc ownC) ownC.taken low high)
  · intro N rN
    obtain rfl := represents_unique rN rM
    rw [releases_blocks (release_releases around own.taken), afterFreeing_again,
      ← objects.returns L r]
    apply afterFreeing_congr
    intro i
    have own' := owns_index own
    simp only [headers, List.mem_append, List.mem_singleton, List.mem_map, List.mem_filter]
    constructor
    · rintro (rfl | ⟨y, ⟨my, _⟩, rfl⟩)
      · exact ⟨x, mx, own'⟩
      · exact ⟨y, my, rfl⟩
    · rintro ⟨y, my, rfl⟩
      by_cases same : y.1 = x.1
      · exact Or.inl (by rw [same, own'])
      · exact Or.inr ⟨y, ⟨my, by simpa using same⟩, rfl⟩

end Steps

theorem objects_start {h : Heap} (fresh : Untouched h) (base : Nat) {bytes : Nat} (enough : 64 ≤ bytes)
    (small : bytes < 2 ^ 34) : ∃ L, Represents (objectStart h base bytes).heap L ∧
      Objects L.blocks base [] (objectStart h base bytes) := by
  have inv : Inv base (objectStart h base bytes) := init_inv enough small ⟨h, fresh, rfl⟩
  obtain ⟨L, r, _⟩ := inv.owned
  have none : (objectStart h base bytes).live = [] := by
    unfold objectStart RunState.start
    split <;> rfl
  refine ⟨L, r, inv, fun _ _ => rfl, fun _ _ _ last => absurd last (by simp [lastWrite]), ?_⟩
  intro M rM
  obtain rfl := represents_unique rM r
  rw [none]
  exact afterFreeing_nil M

theorem objects_step {first : List Block} {base : Nat} {past : List (RunState × Event)}
    {s t : RunState} {e : Event} (objects : Objects first base past s) (step : ObjectStep s e t) :
    Objects first base ((s, e) :: past) t := by
  cases step with
  | malloc _ pos fits => exact objects_malloc objects pos fits
  | release _ live => exact objects_release objects live
  | write _ live words => exact objects_write objects live words

theorem objects_run {h : Heap} (fresh : Untouched h) {base bytes : Nat} (enough : 64 ≤ bytes)
    (small : bytes < 2 ^ 34) {L : Layout} (r : Represents (objectStart h base bytes).heap L)
    {past : List (RunState × Event)} {s : RunState} (run : Run (objectRuns h base bytes) past s) :
    Objects L.blocks base past s := by
  induction run with
  | start first =>
    obtain ⟨M, rM, objects⟩ := objects_start fresh base enough small
    obtain rfl := represents_unique r rM
    obtain rfl : _ = objectStart h base bytes := first
    exact objects
  | next _ last ih => exact objects_step ih last

/-- In every run the calls are safe, a live object holds what its owner wrote last, and
    releasing all that is live would give the blocks of the start: nothing is lost and
    nothing stays split. -/
theorem heap_keeps_objects {h : Heap} (fresh : Untouched h) {base bytes : Nat} (enough : 64 ≤ bytes)
    (small : bytes < 2 ^ 34) {past : List (RunState × Event)} {s : RunState}
    (run : Run (objectRuns h base bytes) past s) :
    Safe s ∧ (∀ x ∈ s.live, ∀ w, lastWrite x.1 past = some w →
      ∀ j, Touches base x.1 x.2 j → s.heap.array j = w j) ∧
    ∃ L M, Represents (objectStart h base bytes).heap L ∧ Represents s.heap M ∧
      afterFreeing (headers base s.live) M.blocks = L.blocks ∧
      (s.live = [] → M.blocks = L.blocks) := by
  obtain ⟨L, r, _⟩ := objects_start fresh base enough small
  have objects := objects_run fresh enough small r run
  obtain ⟨M, rM, _⟩ := objects.inv.owned
  have all := objects.returns M rM
  refine ⟨inv_safe objects.inv, objects.words, L, M, r, rM, all, ?_⟩
  intro none
  rw [none] at all
  exact (afterFreeing_nil M).symm.trans all

def bothWritten : RunState :=
  { written with heap := written.heap.overwrite 4184 24 fun _ => 9 }

theorem heap_keeps_objects_released : ∃ past s, Run (objectRuns blank 4096 256) past s ∧
    past.map Prod.snd = [.free 4152, .write 4184 24 fun _ => 9, .write 4152 8 fun _ => 7,
      .malloc 24, .malloc 8] ∧ s.live = [(4184, 24)] ∧
    Safe s ∧ (∀ j, Touches 4096 4184 24 j → s.heap.array j = 9) ∧
    ∃ L M, Represents (objectStart blank 4096 256).heap L ∧ Represents s.heap M ∧
      afterFreeing (headers 4096 s.live) M.blocks = L.blocks := by
  have first : ObjectStep booted (.malloc 8) allocated := .malloc rfl (by decide) (by decide)
  have second : ObjectStep allocated (.malloc 24) paired := .malloc rfl (by decide) (by decide)
  have write : ObjectStep paired (.write 4152 8 fun _ => 7) written :=
    .write rfl (by decide +kernel) _
  have other : ObjectStep written (.write 4184 24 fun _ => 9) bothWritten :=
    .write rfl (by decide +kernel) _
  have last : ObjectStep bothWritten (.free 4152) (bothWritten.afterRelease 4152) :=
    .release rfl (by decide +kernel)
  have run : Run (objectRuns blank 4096 256) _ _ :=
    .next (.next (.next (.next (.next (.start rfl) first) second) write) other) last
  have live : (bothWritten.afterRelease 4152).live = [(4184, 24)] := by decide +kernel
  obtain ⟨safe, words, L, M, r, rM, all, _⟩ :=
    heap_keeps_objects ⟨rfl, rfl⟩ (by decide) (by decide) run
  refine ⟨_, _, run, rfl, live, safe, ?_, L, M, r, rM, all⟩
  exact words (4184, 24) (live ▸ List.mem_singleton_self _) (fun _ => 9) rfl

end PiKernel.HeapModel
