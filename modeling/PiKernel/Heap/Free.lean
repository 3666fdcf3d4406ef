import PiKernel.Heap.Malloc

/-!
Lines 210 to 232 of `free`, entered with the header of a taken block: the block
and its free neighbours become one free block at the head of the list.
-/
namespace PiKernel.HeapModel
open Program LinkedList Tiling

/-- A block and its free neighbours in the block list. -/
structure Surroundings (L : Layout) (b : Block) where
  pre : List Block
  left : Option Block
  right : Option Block
  post : List Block
  split : L.blocks = pre ++ (left.toList ++ ([b] ++ (right.toList ++ post)))
  left_free : ∀ a ∈ left, a.free = true
  right_free : ∀ a ∈ right, a.free = true
  pre_taken : ∀ a ∈ pre.getLast?, a.free = false
  post_taken : ∀ a ∈ post.head?, a.free = false

theorem split_left (pre : List Block) (separated : pre.IsChain Apart) :
    ∃ rest, ∃ left : Option Block, pre = rest ++ left.toList ∧ (∀ a ∈ left, a.free = true) ∧
      ∀ a ∈ rest.getLast?, a.free = false := by
  cases last : pre.getLast? with
  | none =>
    rw [List.getLast?_eq_none_iff] at last
    exact ⟨[], none, by simp [last], by simp, by simp⟩
  | some a =>
    obtain ⟨rest, rfl⟩ := List.getLast?_eq_some_iff.mp last
    cases free : a.free with
    | false => exact ⟨rest ++ [a], none, by simp, by simp, by simp [free]⟩
    | true =>
      refine ⟨rest, some a, by simp, by simp [free], ?_⟩
      intro c mc
      have apart := (List.isChain_append.mp separated).2.2 c mc a (by simp)
      simpa [Apart, free] using apart

theorem split_right (post : List Block) (separated : post.IsChain Apart) :
    ∃ rest, ∃ right : Option Block, post = right.toList ++ rest ∧ (∀ a ∈ right, a.free = true) ∧
      ∀ a ∈ rest.head?, a.free = false := by
  cases post with
  | nil => exact ⟨[], none, by simp, by simp, by simp⟩
  | cons a rest =>
    cases free : a.free with
    | false => exact ⟨a :: rest, none, by simp, by simp, by simp [free]⟩
    | true =>
      refine ⟨rest, some a, by simp, by simp [free], ?_⟩
      intro c mc
      have apart := (List.isChain_cons.mp separated).1 c mc
      simpa [Apart, free] using apart

theorem exists_surroundings {L : Layout} {b : Block} (member : b ∈ L.blocks) :
    Nonempty (Surroundings L b) := by
  obtain ⟨before, after, split⟩ := List.append_of_mem member
  have separated := L.separated
  rw [split] at separated
  obtain ⟨chainBefore, chainAfter, _⟩ := List.isChain_append.mp separated
  obtain ⟨pre, left, splitL, leftFree, preTaken⟩ := split_left before chainBefore
  obtain ⟨post, right, splitR, rightFree, postTaken⟩ :=
    split_right after (List.isChain_cons.mp chainAfter).2
  exact ⟨⟨pre, left, right, post, by rw [split, splitL, splitR]; simp, leftFree, rightFree,
    preTaken, postTaken⟩⟩

section Release
variable {h : Heap} {L : Layout} {b : Block}

def Surroundings.merged (s : Surroundings L b) : Block where
  start := (s.left.map Block.start).getD b.start
  size := (s.left.map Block.size).getD 0 + b.size + (s.right.map Block.size).getD 0
  free := true

def withoutBlock (order : List Int) : Option Block → List Int
  | none => order
  | some a => order.erase a.start

def Surroundings.rest (s : Surroundings L b) : List Int :=
  withoutBlock (withoutBlock L.order s.left) s.right

theorem Surroundings.left_member (s : Surroundings L b) {a : Block} (is : s.left = some a) :
    a ∈ L.blocks := by
  rw [s.split, is]
  simp

theorem Surroundings.right_member (s : Surroundings L b) {a : Block} (is : s.right = some a) :
    a ∈ L.blocks := by
  rw [s.split, is]
  simp

theorem Surroundings.member (s : Surroundings L b) : b ∈ L.blocks := by
  rw [s.split]
  simp

theorem Surroundings.tiles (s : Surroundings L b) :
    Tiles Block.start Block.stop 2 s.merged.start s.pre ∧
      Tiles Block.start Block.stop s.merged.stop (L.len - 2) s.post ∧
      (∀ a, s.left = some a → a.stop = b.start) ∧ (∀ c, s.right = some c → b.stop = c.start) := by
  have tiles := L.tiles
  rw [s.split] at tiles
  simp only [tiles_append, List.singleton_append, Tiles] at tiles
  obtain ⟨lo, left, mid, lefts, startB, _, hi, rights, right⟩ := tiles
  have first : lo = s.merged.start ∧ ∀ a, s.left = some a → a.stop = b.start := by
    cases is : s.left with
    | none =>
      rw [is] at lefts
      have : lo = mid := lefts
      refine ⟨?_, by simp⟩
      simp only [merged, is, Option.map_none, Option.getD_none]
      omega
    | some a =>
      rw [is] at lefts
      obtain ⟨startA, _, stopA⟩ := lefts
      have : a.stop = mid := stopA
      refine ⟨?_, ?_⟩
      · simp only [merged, is, Option.map_some, Option.getD_some]
        omega
      · intro c same
        obtain rfl : a = c := Option.some.inj same
        omega
  have last : hi = s.merged.stop ∧ ∀ c, s.right = some c → b.stop = c.start := by
    have stop : s.merged.stop = b.stop + (s.right.map Block.size).getD 0 := by
      simp only [Block.stop, merged]
      cases is : s.left with
      | none =>
        simp only [Option.map_none, Option.getD_none]
        omega
      | some a =>
        have meet := first.2 a is
        simp only [Block.stop] at meet
        simp only [Option.map_some, Option.getD_some]
        omega
    rw [stop]
    cases is : s.right with
    | none =>
      rw [is] at rights
      have : b.stop = hi := rights
      exact ⟨by simp [this], by simp⟩
    | some c =>
      rw [is] at rights
      obtain ⟨startC, _, stopC⟩ := rights
      have : c.stop = hi := stopC
      simp only [Block.stop] at *
      refine ⟨?_, ?_⟩
      · simp only [Option.map_some, Option.getD_some]
        omega
      · intro d same
        obtain rfl : c = d := Option.some.inj same
        omega
  exact ⟨first.1 ▸ left, last.1 ▸ right, first.2, last.2⟩

theorem Surroundings.merged_bounds (s : Surroundings L b) :
    2 ≤ s.merged.start ∧ s.merged.start ≤ b.start ∧ b.stop ≤ s.merged.stop ∧
      s.merged.stop ≤ L.len - 2 := by
  obtain ⟨before, after, meetL, meetR⟩ := s.tiles
  have low := tiles_le before
  have high := tiles_le after
  have left := fun a is => block_bounds (s.left_member (a := a) is)
  have right := fun a is => block_bounds (s.right_member (a := a) is)
  refine ⟨low, ?_, ?_, high⟩
  · simp only [merged]
    cases is : s.left with
    | none => simp
    | some a =>
      have meet := meetL a is
      have bounds := left a is
      simp only [Block.stop, Option.map_some, Option.getD_some] at *
      omega
  · simp only [merged, Block.stop]
    cases isL : s.left <;> cases isR : s.right <;> simp [isL, isR, Block.stop] at * <;> omega

theorem Surroundings.blocks_perm (s : Surroundings L b) (taken : b.free = false) :
    L.order.Perm ((s.left.toList ++ s.right.toList).map Block.start ++
      freeStarts (s.pre ++ s.post)) := by
  have starts : ∀ o : Option Block, (∀ a ∈ o, a.free = true) →
      freeStarts o.toList = o.toList.map Block.start := by
    intro o free
    cases o with
    | none => rfl
    | some a => simp [freeStarts, free a rfl]
  have listed := L.listed
  rw [s.split] at listed
  simp only [freeStarts_append] at listed ⊢
  rw [starts _ s.left_free, starts _ s.right_free] at listed
  have own : freeStarts [b] = [] := by simp [freeStarts, taken]
  rw [own, List.nil_append] at listed
  rw [List.map_append]
  refine listed.trans ?_
  rw [← List.append_assoc, ← List.append_assoc, ← List.append_assoc]
  refine List.Perm.append_right _ ?_
  rw [List.append_assoc]
  exact List.perm_append_comm

theorem withoutBlock_perm {order rest : List Int} {o : Option Block}
    (whole : order.Perm (o.toList.map Block.start ++ rest)) : (withoutBlock order o).Perm rest := by
  cases o with
  | none => exact whole
  | some a => simpa [withoutBlock] using whole.erase a.start

theorem Surroundings.rest_perm (s : Surroundings L b) (taken : b.free = false) :
    s.rest.Perm (freeStarts (s.pre ++ s.post)) := by
  have whole := s.blocks_perm taken
  rw [List.map_append, List.append_assoc] at whole
  exact withoutBlock_perm (withoutBlock_perm whole)

theorem Surroundings.merged_tiles (s : Surroundings L b) :
    Tiles Block.start Block.stop 2 (L.len - 2) (s.pre ++ ([s.merged] ++ s.post)) := by
  obtain ⟨before, after, _, _⟩ := s.tiles
  have own := block_bounds s.member
  have bounds := s.merged_bounds
  simp only [Block.stop] at bounds
  exact tiles_append.mpr ⟨s.merged.start, before, rfl, by simp only [Block.stop]; omega, after⟩

theorem Surroundings.merged_min_size (s : Surroundings L b) :
    ∀ c ∈ s.pre ++ ([s.merged] ++ s.post), 4 ≤ c.size := by
  have own := block_bounds s.member
  have bounds := s.merged_bounds
  have sizes := L.min_size
  rw [s.split] at sizes
  intro c mc
  simp only [List.mem_append, List.mem_singleton] at mc
  rcases mc with early | same | late
  · exact sizes c (by simp [early])
  · simp only [Block.stop] at bounds
    rw [same]
    omega
  · exact sizes c (by simp [late])

theorem Surroundings.merged_separated (s : Surroundings L b) :
    (s.pre ++ ([s.merged] ++ s.post)).IsChain Apart := by
  have separated := L.separated
  rw [s.split] at separated
  obtain ⟨chainPre, rest, _⟩ := List.isChain_append.mp separated
  have chainPost := (List.isChain_append.mp
    (List.isChain_append.mp (List.isChain_append.mp rest).2.1).2.1).2.1
  refine List.isChain_append.mpr ⟨chainPre, List.isChain_cons.mpr ⟨?_, chainPost⟩, ?_⟩
  · intro c mc
    exact apart_taken_right (s.post_taken c mc)
  · intro c mc d _
    exact apart_taken_left (s.pre_taken c mc)

theorem Surroundings.merged_listed (s : Surroundings L b) (taken : b.free = false) :
    (s.merged.start :: s.rest).Perm (freeStarts (s.pre ++ ([s.merged] ++ s.post))) := by
  have rest := s.rest_perm taken
  rw [freeStarts_append] at rest ⊢
  rw [freeStarts_append]
  refine (rest.cons _).trans ?_
  simpa [freeStarts, merged] using List.perm_middle.symm

def Surroundings.release (s : Surroundings L b) (taken : b.free = false) : Layout where
  len := L.len
  blocks := s.pre ++ ([s.merged] ++ s.post)
  order := s.merged.start :: s.rest
  small := L.small
  tiles := s.merged_tiles
  min_size := s.merged_min_size
  separated := s.merged_separated
  listed := s.merged_listed taken

def Heap.withoutBlock (h : Heap) : Option Block → Heap
  | none => h
  | some a => h.remove a.start

def Surroundings.heap (s : Surroundings L b) (h : Heap) : Heap :=
  ((h.withoutBlock s.left).withoutBlock s.right).makeAvail s.merged.start s.merged.size

theorem withoutBlock_freeList {order : List Int} (f : FreeList h order) {o : Option Block}
    (listed : ∀ a, o = some a → a.start ∈ order) :
    FreeList (h.withoutBlock o) (withoutBlock order o) := by
  cases o with
  | none => exact f
  | some a => exact remove_freeList f (listed a rfl)

theorem withoutBlock_off_links {order : List Int} (f : FreeList h order) {o : Option Block}
    (listed : ∀ a, o = some a → a.start ∈ order) {j : Int} (off : OffLinks order j) :
    (h.withoutBlock o).array j = h.array j := by
  cases o with
  | none => rfl
  | some a => exact remove_off_links f (listed a rfl) (offLinks_erase off)

theorem offLinks_without {order : List Int} {o : Option Block} {j : Int}
    (off : OffLinks order j) : OffLinks (withoutBlock order o) j := by
  cases o with
  | none => exact off
  | some a => exact offLinks_erase off

/-- The header to the left, as `left` finds it from the footer below `b`. -/
theorem left_probe (r : Represents h L) (s : Surroundings L b) :
    (∀ a, s.left = some a → b.start - h.size (b.start - 1) = a.start) ∧
      (s.left = none → h.array (b.start - h.size (b.start - 1)) < 0) := by
  obtain ⟨before, _, meet, _⟩ := s.tiles
  constructor
  · intro a is
    have stop := meet a is
    have length := footer_size r (s.left_member is)
    rw [stop] at length
    rw [length]
    simp only [Block.stop] at stop
    omega
  · intro is
    have first : s.merged.start = b.start := by simp [Surroundings.merged, is]
    rw [first] at before
    cases last : s.pre.getLast? with
    | none =>
      rw [List.getLast?_eq_none_iff.mp last] at before
      have start : 2 = b.start := before
      have word := r.first.2
      rw [← start]
      have length : h.size (2 - 1) = 2 := sentinel_size word
      rw [length]
      have := r.first.1
      show h.array 0 < 0
      omega
    | some t =>
      obtain ⟨pre, split⟩ := List.getLast?_eq_some_iff.mp last
      have mt : t ∈ L.blocks := by
        rw [s.split, split]
        simp
      rw [split] at before
      obtain ⟨_, _, stop⟩ := tiles_split.mp before
      have stop : t.stop = b.start := stop
      have length := footer_size r mt
      rw [stop] at length
      rw [length]
      have header := taken_header_neg r mt (s.pre_taken t last)
      simp only [Block.stop] at stop
      have place : b.start - t.size = t.start := by omega
      rwa [place]

theorem right_probe (r : Represents h L) (s : Surroundings L b) :
    (∀ c, s.right = some c → b.stop = c.start) ∧
      (s.right = none → h.array b.stop < 0) ∧ OffLinks L.order b.stop := by
  obtain ⟨_, after, meetL, meet⟩ := s.tiles
  refine ⟨meet, ?_⟩
  cases is : s.right with
  | some c =>
    refine ⟨by simp, ?_⟩
    rw [meet c is]
    exact (tag_off_links (s.right_member is)).1
  | none =>
    have stop : s.merged.stop = b.stop := by
      simp only [Surroundings.merged, Block.stop, is]
      cases isL : s.left with
      | none => simp
      | some a =>
        have stop := meetL a isL
        simp only [Block.stop] at stop
        simp only [Option.map_some, Option.getD_some, Option.map_none, Option.getD_none]
        omega
    rw [stop] at after
    cases post : s.post with
    | nil =>
      rw [post] at after
      have last : b.stop = L.len - 2 := after
      rw [last]
      refine ⟨fun _ => ?_, sentinel_off_links (by omega)⟩
      have := r.last.1
      omega
    | cons c rest =>
      have mc : c ∈ L.blocks := by
        rw [s.split, post]
        simp
      rw [post] at after
      rw [← after.1]
      exact ⟨fun _ => taken_header_neg r mc (s.post_taken c (by simp [post])),
        (tag_off_links mc).1⟩

/-- Lines 226 to 232: `i` and `n` are the block so far, `r` is what lies to its right. -/
def absorbRight (r i n : Int) : HeapM Unit := do
  if ← isAvail r then
    remove r
    makeAvail i (n + (← size r))
  else
    makeAvail i n

/-- Lines 220 to 232. -/
def absorbLeft (l r i n : Int) : HeapM Unit := do
  if ← isAvail l then
    remove l
    absorbRight r l (n + (← size l))
  else
    absorbRight r i n

theorem freeBlock_eq (p i : Int) : freeBlock p i = (isTaken i).bind fun taken =>
    if taken = true then
      (size i).bind fun n => (left i).bind fun l => (right i).bind fun r => absorbLeft l r i n
    else panic "freeing free block, p:%x idx:%d\n" [p % 2 ^ 32, i] := by
  simp only [freeBlock, bind_eq, sanity_eq, Prog.bind]
  congr 1
  funext taken
  cases taken with
  | false => rfl
  | true => rfl

theorem absorbRight_run {o : Option Block} {i j n : Int}
    (some : ∀ c, o = some c → j = c.start ∧ h.array j > 0 ∧ (h.remove j).size j = c.size)
    (none : o = none → h.array j < 0) : (absorbRight j i n).run heapExec h =
      .done () ((h.withoutBlock o).makeAvail i (n + (o.map Block.size).getD 0)) := by
  unfold absorbRight
  cases o with
  | none =>
    have taken : ¬ h.array j > 0 := by
      have := none rfl
      omega
    simp [run_bind, taken, Heap.withoutBlock]
  | some c =>
    obtain ⟨place, free, length⟩ := some c rfl
    subst place
    simp [run_bind, free, length, Heap.withoutBlock]

theorem Surroundings.left_listed (s : Surroundings L b) {a : Block} (is : s.left = some a) :
    a.start ∈ L.order := listed_start (s.left_member is) (s.left_free a is)

theorem Surroundings.right_listed (s : Surroundings L b) {c : Block} (is : s.right = some c) :
    c.start ∈ withoutBlock L.order s.left := by
  have listed := listed_start (s.right_member is) (s.right_free c is)
  cases isL : s.left with
  | none => exact listed
  | some a =>
    obtain ⟨_, _, meetL, meetR⟩ := s.tiles
    have left := meetL a isL
    have right := meetR c is
    have boundsA := block_bounds (s.left_member isL)
    have boundsB := block_bounds s.member
    simp only [Block.stop] at left right
    exact (List.mem_erase_of_ne (by omega)).mpr listed

theorem unlinked_word (r : Represents h L) (s : Surroundings L b) {j : Int}
    (off : OffLinks L.order j) :
    ((h.withoutBlock s.left).withoutBlock s.right).array j = h.array j := by
  have list := represents_freeList r
  have once := withoutBlock_freeList list (fun _ => s.left_listed)
  rw [withoutBlock_off_links once (fun _ => s.right_listed) (offLinks_without off),
    withoutBlock_off_links list (fun _ => s.left_listed) off]

theorem left_seen (r : Represents h L) (s : Surroundings L b) {a : Block} (is : s.left = some a) :
    h.array a.start > 0 ∧ (h.remove a.start).size a.start = a.size := by
  have ma := s.left_member is
  have word := withoutBlock_off_links (represents_freeList r) (fun _ => s.left_listed)
    (tag_off_links ma).1
  rw [is] at word
  exact ⟨free_header_pos r ma (s.left_free a is), tag_size ma (word.trans (r.header a ma))⟩

theorem right_seen (r : Represents h L) (s : Surroundings L b) :
    (∀ c, s.right = some c → b.stop = c.start ∧ (h.withoutBlock s.left).array b.stop > 0 ∧
      ((h.withoutBlock s.left).remove b.stop).size b.stop = c.size) ∧
      (s.right = none → (h.withoutBlock s.left).array b.stop < 0) := by
  obtain ⟨rightSome, rightNone, rightOff⟩ := right_probe r s
  have kept : ∀ j, OffLinks L.order j → (h.withoutBlock s.left).array j = h.array j :=
    fun j => withoutBlock_off_links (represents_freeList r) (fun _ => s.left_listed)
  constructor
  · intro c is
    have mc := s.right_member is
    have off := (tag_off_links mc).1
    have after := unlinked_word r s off
    rw [is] at after
    rw [rightSome c is, kept _ off]
    exact ⟨rfl, free_header_pos r mc (s.right_free c is),
      tag_size mc (after.trans (r.header c mc))⟩
  · intro is
    rw [kept _ rightOff]
    exact rightNone is

theorem absorbLeft_run (r : Represents h L) (s : Surroundings L b) :
    (absorbLeft (b.start - h.size (b.start - 1)) b.stop b.start b.size).run heapExec h =
      .done () (s.heap h) := by
  obtain ⟨leftSome, leftNone⟩ := left_probe r s
  obtain ⟨rightSome, rightNone⟩ := right_seen r s
  have absorb := fun i n => absorbRight_run (i := i) (n := n) rightSome rightNone
  unfold absorbLeft Surroundings.heap Surroundings.merged
  simp only [bind_eq, run_bind]
  rw [run_isAvail, andThen_done]
  cases is : s.left with
  | none =>
    have refused : ¬ h.array (b.start - h.size (b.start - 1)) > 0 := by
      have := leftNone is
      omega
    rw [is] at absorb
    simp only [refused, decide_false, Bool.false_eq_true, ↓reduceIte, Option.map_none,
      Option.getD_none, Int.zero_add]
    exact absorb b.start b.size
  | some a =>
    obtain ⟨found, lengthA⟩ := left_seen r s is
    rw [is] at absorb
    simp only [leftSome a is, found, decide_true, ↓reduceIte, run_bind, run_remove, andThen_done,
      run_size, lengthA, Option.map_some, Option.getD_some]
    have sum : b.size + a.size = a.size + b.size := Int.add_comm _ _
    rw [sum]
    exact absorb a.start (a.size + b.size)

theorem freeBlock_run (r : Represents h L) (s : Surroundings L b) (taken : b.free = false)
    (p : Int) : (freeBlock p b.start).run heapExec h = .done () (s.heap h) := by
  have header := taken_header_neg r s.member taken
  have length := header_size r s.member
  have left : b.start - 1 - h.size (b.start - 1) + 1 = b.start - h.size (b.start - 1) := by omega
  rw [freeBlock_eq]
  simp only [run_bind, run_isTaken, andThen_done, header, decide_true, ↓reduceIte, run_size,
    run_left, run_right, left, length]
  exact absorbLeft_run r s

theorem withoutBlock_fields (h : Heap) (o : Option Block) :
    (h.withoutBlock o).base = h.base ∧ (h.withoutBlock o).len = h.len ∧
      (h.withoutBlock o).theLock = h.theLock ∧
      (h.withoutBlock o).coresAwoken = h.coresAwoken := by
  cases o with
  | none => exact ⟨rfl, rfl, rfl, rfl⟩
  | some a => exact remove_fields h a.start

theorem release_fields (s : Surroundings L b) (h : Heap) :
    (s.heap h).base = h.base ∧ (s.heap h).len = h.len ∧ (s.heap h).theLock = h.theLock ∧
      (s.heap h).coresAwoken = h.coresAwoken := by
  obtain ⟨base, len, theLock, asleep⟩ := withoutBlock_fields h s.left
  obtain ⟨base', len', theLock', asleep'⟩ := withoutBlock_fields (h.withoutBlock s.left) s.right
  obtain ⟨base'', len'', theLock'', asleep'', _⟩ := makeAvail_fields
    ((h.withoutBlock s.left).withoutBlock s.right) s.merged.start s.merged.size
  exact ⟨base''.trans (base'.trans base), len''.trans (len'.trans len),
    theLock''.trans (theLock'.trans theLock), asleep''.trans (asleep'.trans asleep)⟩

theorem Surroundings.unlinked_freeList (r : Represents h L) (s : Surroundings L b) :
    FreeList ((h.withoutBlock s.left).withoutBlock s.right) s.rest :=
  withoutBlock_freeList (withoutBlock_freeList (represents_freeList r) (fun _ => s.left_listed))
    (fun _ => s.right_listed)

theorem Surroundings.outside (s : Surroundings L b) {c : Block} (mc : c ∈ s.pre ++ s.post) :
    c ∈ L.blocks ∧ (c.stop ≤ s.merged.start ∨ s.merged.stop ≤ c.start) := by
  obtain ⟨before, after, _, _⟩ := s.tiles
  have member : c ∈ L.blocks := by
    rw [s.split]
    rcases List.mem_append.mp mc with early | late
    · simp [early]
    · simp [late]
  refine ⟨member, ?_⟩
  rcases List.mem_append.mp mc with early | late
  · exact Or.inl (tiles_bounds before early).2.2
  · exact Or.inr (tiles_bounds after late).1

theorem Surroundings.rest_outside (s : Surroundings L b) (taken : b.free = false) {k : Int}
    (listed : k ∈ s.rest) : k + 4 ≤ s.merged.start ∨ s.merged.start + s.merged.size ≤ k := by
  obtain ⟨c, mc, _, rfl⟩ := mem_freeStarts.mp ((s.rest_perm taken).mem_iff.mp listed)
  obtain ⟨member, away⟩ := s.outside mc
  have bounds := block_bounds member
  simp only [Block.stop] at away
  omega

theorem Surroundings.merged_size (s : Surroundings L b) :
    4 ≤ s.merged.size ∧ s.merged.size < 2 ^ 31 := by
  have own := block_bounds s.member
  have bounds := s.merged_bounds
  have small := L.small
  simp only [Block.stop] at bounds
  omega

/-- Freeing `b` changes words of the merged block and link words only. -/
theorem release_frame (r : Represents h L) (s : Surroundings L b) {j : Int}
    (outside : j < s.merged.start ∨ s.merged.start + s.merged.size ≤ j)
    (off : OffLinks L.order j) : (s.heap h).array j = h.array j := by
  obtain ⟨low, high⟩ := s.merged_size
  unfold Surroundings.heap
  rw [makeAvail_off_links (s.unlinked_freeList r) low high outside
    (offLinks_without (offLinks_without off))]
  exact unlinked_word r s off

theorem release_freeList (r : Represents h L) (s : Surroundings L b) (taken : b.free = false) :
    FreeList (s.heap h) (s.merged.start :: s.rest) := by
  obtain ⟨low, high⟩ := s.merged_size
  have bounds := s.merged_bounds
  have small := L.small
  have own := block_bounds s.member
  exact makeAvail_freeList (s.unlinked_freeList r) (fun k => s.rest_outside taken) low high
    (by omega) (by omega)

theorem release_tag (r : Represents h L) (s : Surroundings L b) (taken : b.free = false) :
    (s.heap h).array s.merged.start = s.merged.size ∧
      (s.heap h).array (s.merged.stop - 1) = s.merged.size := by
  obtain ⟨low, high⟩ := s.merged_size
  have words := makeAvail_array (h := (h.withoutBlock s.left).withoutBlock s.right)
    (i := s.merged.start) (n := s.merged.size) (by omega) high
  have away : ∀ j, s.merged.start ≤ j → j < s.merged.start + s.merged.size →
      ¬ (((h.withoutBlock s.left).withoutBlock s.right).avail ≠ 0 ∧
        j = ((h.withoutBlock s.left).withoutBlock s.right).avail + 2) := by
    rintro j first last ⟨some, same⟩
    have outside := s.rest_outside taken (freeList_head_mem (s.unlinked_freeList r) some)
    omega
  simp only [Surroundings.heap, Block.stop]
  constructor <;>
    rw [words, if_neg (away _ (by omega) (by omega)), if_neg (by omega), if_neg (by omega),
      if_pos (by omega)]

theorem release_represents (r : Represents h L) (s : Surroundings L b) (taken : b.free = false) :
    Represents (s.heap h) (s.release taken) := by
  obtain ⟨_, len, _, asleep⟩ := release_fields s h
  obtain ⟨low, _, _, high⟩ := s.merged_bounds
  apply represents_region (M := s.release taken) r s.merged.start s.merged.stop asleep len rfl
    ⟨low, high⟩
  · intro j outside off
    exact release_frame r s outside off
  · intro c mc
    have mc : c ∈ s.pre ++ ([s.merged] ++ s.post) := mc
    simp only [List.mem_append, List.mem_singleton] at mc
    rcases mc with early | same | late
    · exact Or.inr (s.outside (List.mem_append_left _ early))
    · rw [same]
      exact Or.inl (release_tag r s taken)
    · exact Or.inr (s.outside (List.mem_append_right _ late))
  · exact release_freeList r s taken

theorem release_keeps (s : Surroundings L b) (taken : b.free = false) {c : Block}
    (mc : c ∈ L.blocks) (takenC : c.free = false) (other : c ≠ b) :
    c ∈ (s.release taken).blocks := by
  show c ∈ s.pre ++ ([s.merged] ++ s.post)
  rw [s.split] at mc
  simp only [List.mem_append, Option.mem_toList, List.mem_singleton] at mc ⊢
  rcases mc with early | left | same | right | late
  · exact Or.inl early
  · exact absurd rfl (free_ne_taken (s.left_free c left) takenC)
  · exact absurd same other
  · exact absurd rfl (free_ne_taken (s.right_free c right) takenC)
  · exact Or.inr (Or.inr late)

end Release
end PiKernel.HeapModel
