import PiKernel.Heap.Malloc

/-!
`heapInit` on arbitrary memory: the words become one free block between the
sentinels, and the first allocation is the heap's own lock.
-/
namespace PiKernel.HeapModel
open Program LinkedList

/-- The statics of heap.cpp before `heapInit`; the memory behind them is arbitrary. -/
structure Untouched (h : Heap) : Prop where
  avail : h.avail = 0
  coresAwoken : h.coresAwoken = false

/-- Lines 130 to 136. -/
def Heap.laidOut (h : Heap) (base : Nat) (len : Int) : Heap :=
  ((({ h with base := base, len := len }).makeTaken 0 2).makeAvail 2 (asInt (len - 4))).makeTaken
    (asInt (len - 2)) 2

theorem laidOut_array {h : Heap} (fresh : Untouched h) (base : Nat) {len : Int} (room : 8 ≤ len)
    (small : len < 2 ^ 31) (j : Int) : (h.laidOut base len).array j =
      if j = len - 2 ∨ j = len - 2 + 2 - 1 then -2
      else if j = 2 + 2 then 0 else if j = 2 + 1 then 0
      else if j = 2 ∨ j = 2 + (len - 4) - 1 then len - 4
      else if j = 0 ∨ j = 0 + 2 - 1 then -2 else h.array j := by
  have free : asInt (len - 4) = len - 4 := asInt_eq (by omega) (by omega)
  have last : asInt (len - 2) = len - 2 := asInt_eq (by omega) (by omega)
  have empty : (({ h with base := base, len := len } : Heap).makeTaken 0 2).avail = 0 :=
    fresh.avail
  unfold Heap.laidOut
  rw [free, last, makeTaken_array (by omega) (by omega), makeAvail_array (by omega) (by omega),
    makeTaken_array (by omega) (by omega), empty]
  simp only [ne_eq, not_true_eq_false, false_and, ↓reduceIte]

theorem laidOut_fields {h : Heap} (base : Nat) (len : Int) :
    (h.laidOut base len).base = base ∧ (h.laidOut base len).len = len ∧
      (h.laidOut base len).coresAwoken = h.coresAwoken ∧ (h.laidOut base len).avail = 2 := by
  obtain ⟨baseEq, lenEq, _, asleep, avail⟩ := makeAvail_fields
    (({ h with base := base, len := len } : Heap).makeTaken 0 2) 2 (asInt (len - 4))
  exact ⟨baseEq, lenEq, asleep, avail⟩

theorem laidOut_represents {h : Heap} (fresh : Untouched h) (base : Nat) {len : Int}
    (room : 8 ≤ len) (small : len < 2 ^ 31) :
    Represents (h.laidOut base len) (freshLayout len room small) := by
  have words := laidOut_array fresh base room small
  obtain ⟨_, lenEq, asleep, avail⟩ := laidOut_fields (h := h) base len
  have first : (h.laidOut base len).array 2 = len - 4 := by
    rw [words, if_neg (by omega), if_neg (by omega), if_neg (by omega), if_pos (by omega)]
  refine ⟨asleep.trans fresh.coresAwoken, lenEq, ⟨?_, ?_⟩, ⟨?_, ?_⟩, ?_, ?_, ?_⟩
  · rw [words, if_neg (by omega), if_neg (by omega), if_neg (by omega), if_neg (by omega),
      if_pos (by omega)]
  · rw [words, if_neg (by omega), if_neg (by omega), if_neg (by omega), if_neg (by omega),
      if_pos (by omega)]
  · show (h.laidOut base len).array (len - 2) = -2
    rw [words, if_pos (by omega)]
  · show (h.laidOut base len).array (len - 1) = -2
    rw [words, if_pos (by omega)]
  · intro b mb
    rw [List.mem_singleton.mp mb]
    exact first
  · intro b mb
    rw [List.mem_singleton.mp mb]
    show (h.laidOut base len).array (2 + (len - 4) - 1) = len - 4
    rw [words, if_neg (by omega), if_neg (by omega), if_neg (by omega), if_pos (by omega)]
  · refine ⟨avail, by decide, ?_, ?_⟩
    · show (h.laidOut base len).array (2 + 2) = 0
      rw [words, if_neg (by omega), if_pos rfl]
    · show (h.laidOut base len).array (2 + 1) = 0
      rw [words, if_neg (by omega), if_neg (by omega), if_pos rfl]

theorem storeBytes_represents {h : Heap} {L : Layout} (r : Represents h L) {b : Block}
    (member : b ∈ L.blocks) (taken : b.free = false) (count : Nat) (x : Int) :
    Represents (h.storeBytes (h.base + 8 * (b.start + 1)) count x) L := by
  have bounds := block_bounds member
  have word : h.wordOf (h.base + 8 * (b.start + 1)) = b.start + 1 := by
    unfold Heap.wordOf
    omega
  refine represents_payload r member taken rfl rfl rfl ?_
  intro j outside
  simp only [Block.stop] at outside
  simp only [Heap.storeBytes, word, store_array]
  rw [if_neg (by omega)]

theorem heapInit_run (base bytes : Nat) (h : Heap) :
    (heapInit base bytes).run heapExec h =
      (newSpinLock.run heapExec (h.laidOut base (bytes / 8 : Nat))).andThen fun p t =>
        .done () { t with theLock := p } := by
  simp only [heapInit, bind_eq, run_bind, andThen_done, run_printfNoLock, run_storeBase,
    run_storeLen, run_loadLen, run_makeTaken, run_makeAvail, run_storeTheLock]
  rfl

theorem heapInit_represents {h : Heap} (fresh : Untouched h) (base : Nat) {bytes : Nat}
    (enough : 64 ≤ bytes) (small : bytes < 2 ^ 34) :
    ∃ h' L, (heapInit base bytes).run heapExec h = .done () h' ∧ Represents h' L ∧
      h'.base = base ∧ ∃ b ∈ L.blocks, b.free = false ∧ h'.theLock = base + 8 * (b.start + 1) := by
  have room : (8 : Int) ≤ (bytes / 8 : Nat) := by omega
  have short : ((bytes / 8 : Nat) : Int) < 2 ^ 31 := by omega
  have r := laidOut_represents fresh base room short
  obtain ⟨baseEq, _, _, _⟩ := laidOut_fields (h := h) base (bytes / 8 : Nat)
  have units : mallocUnits 1 = 4 := by decide
  have run := run_malloc (Nat.one_pos) r.asleep
  rw [units] at run
  rcases mallocBody_cases r 4 with ⟨unfit, _⟩ | ⟨b, mb, free, fit, result⟩
  · have alone := header_size r (List.mem_singleton.mpr rfl)
    have := unfit 2 (by simp [examined, freshLayout, attempts])
    simp only at alone
    omega
  · have enough := fit.enough
    rw [header_size r mb] at enough
    have carved := carve_represents r mb free (le_refl 4) enough
    obtain ⟨c, mc, taken, start, _⟩ := carved_block mb free (le_refl 4) enough
    have baseC := (carve_fields (h.laidOut base (bytes / 8 : Nat)) b.start b.size 4).1
    have bounds := block_bounds mb
    have nonnull : ((h.laidOut base (bytes / 8 : Nat)).base : Int) + 8 * (b.start + 1) ≠ 0 := by
      omega
    have stored := storeBytes_represents carved mc taken 1 0
    rw [baseC, start] at stored
    let p : Int := (h.laidOut base (bytes / 8 : Nat)).base + 8 * (b.start + 1)
    let t := ((h.laidOut base (bytes / 8 : Nat)).carve b.start b.size 4).storeBytes p 1 0
    refine ⟨{ t with theLock := p }, _, ?_, ⟨stored.asleep, stored.len_eq, stored.first,
      stored.last, stored.header, stored.footer, stored.linked⟩, ?_, c, mc, taken, ?_⟩
    · rw [heapInit_run]
      simp only [newSpinLock, operatorNew, bind_eq, run_bind, run, result, andThen_done, nonnull,
        ↓reduceIte, pure_eq, run_ret, run_storeBytes]
      rfl
    · exact baseC.trans baseEq
    · show (h.laidOut base (bytes / 8 : Nat)).base + 8 * (b.start + 1) = base + 8 * (c.start + 1)
      rw [baseEq, start]

end PiKernel.HeapModel
