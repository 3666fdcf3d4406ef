import PiKernel.Heap.Cores

/-!
The allocations of `kernel_init`, operation by operation: core 0 takes no lock,
and each new object leaves the words of the older ones alone.
-/
namespace PiKernel.HeapModel
open Program

/-- No lock operation, no change of the base, no store to word `w`. -/
def Spares (w : Int) : HeapOp → Heap → Prop
  | .storeArray i _, _ => i ≠ w
  | .storeBytes p _ _, h => h.wordOf p ≠ w
  | .lock _, _ | .unlock _, _ | .storeBase _, _ => False
  | _, _ => True

theorem spares_notLock {w : Int} {o : HeapOp} {h : Heap} (spares : Spares w o h) : NotLock o := by
  cases o <;> first | exact trivial | exact spares

theorem heapExec_state {o : HeapOp} {h t t' : Heap} {r r' : o.Res}
    (result : heapExec o h = some (r, t)) (known : heapExec o h = some (r', t')) : t = t' :=
  congrArg Prod.snd (Option.some.inj (result.symm.trans known))

theorem spares_word {w : Int} {o : HeapOp} {h t : Heap} {r : o.Res} (spares : Spares w o h)
    (result : heapExec o h = some (r, t)) : t.array w = h.array w ∧ t.base = h.base := by
  cases o with
  | storeArray i x =>
    obtain rfl := heapExec_state result rfl
    rw [store_array, if_neg (Ne.symm spares)]
    exact ⟨rfl, rfl⟩
  | storeBytes p count x =>
    obtain rfl := heapExec_state result rfl
    unfold Heap.storeBytes
    rw [store_array, if_neg (Ne.symm spares)]
    exact ⟨rfl, rfl⟩
  | lock p => exact absurd spares id
  | unlock p => exact absurd spares id
  | storeBase p => exact absurd spares id
  | panic fmt args => exact absurd result (by simp [heapExec])
  | _ =>
    obtain rfl := heapExec_state result rfl
    exact ⟨rfl, rfl⟩

section Parts
variable {w : Int} {h : Heap}

theorem makeTaken_solo {i n : Int} (low : 1 ≤ n) (small : n < 2 ^ 31)
    (outside : w < i ∨ i + n ≤ w) :
    (makeTaken i n).Solo heapExec (Spares w) (fun _ t => t = h.makeTaken i n) h := by
  have size := store_size (h := h) (i := i) (Or.inr (rfl : -n = -n)) (by omega) small
  simp only [makeTaken, footerFromHeader, bind_eq, solo_bind_iff, solo_storeArray, solo_size,
    Spares]
  have footer : i + (h.store i (-n)).size i - 1 ≠ w := by omega
  exact ⟨by omega, trivial, footer, rfl⟩

theorem makeAvail_solo {i n : Int} (empty : h.avail = 0) (low : 4 ≤ n) (small : n < 2 ^ 31)
    (outside : w < i ∨ i + n ≤ w) :
    (makeAvail i n).Solo heapExec (Spares w) (fun _ t => t = h.makeAvail i n) h := by
  have size := store_size (h := h) (i := i) (Or.inl (rfl : n = n)) (by omega) small
  have footer : i + (h.store i n).size i - 1 ≠ w := by omega
  have effect : h.makeAvail i n =
      { ((h.tag i n).store (i + 1) 0).store (i + 2) 0 with avail := i } := by
    have front : (h.tag i n).avail = 0 := empty
    simp [Heap.makeAvail, front]
  rw [effect]
  simp only [makeAvail, footerFromHeader, bind_eq, solo_bind_iff, solo_storeArray, solo_size,
    solo_loadAvail, setNext, setPrev, store_avail, ne_eq, Spares]
  refine ⟨by omega, trivial, footer, trivial, by omega, by omega, trivial, ?_⟩
  simp only [store_avail, empty, not_true_eq_false, ↓reduceIte]
  exact solo_storeAvail.mpr ⟨trivial, rfl⟩

theorem remove_solo {i : Int} (first : h.prev i = 0) (last : h.next i = 0) :
    (remove i).Solo heapExec (Spares w) (fun _ t => t = h.remove i) h := by
  simp only [remove, bind_eq, solo_bind_iff, solo_prev, solo_next, first, last, ↓reduceIte, ne_eq,
    not_true_eq_false, solo_storeAvail, Spares]
  exact ⟨trivial, trivial, trivial, solo_ret (by simp [Heap.remove, first, last])⟩

end Parts

structure Single (h : Heap) (i n : Int) : Prop where
  asleep : h.coresAwoken = false
  avail : h.avail = i
  header : h.array i = n
  next : h.array (i + 1) = 0
  prev : h.array (i + 2) = 0

section Single
variable {w i n : Int} {h : Heap}

theorem search_end (units : Int) (k : Nat) (minSize bestFit : Int) :
    search units k 0 minSize bestFit = .ret (minSize, bestFit) := by
  cases k <;> rfl

theorem search_solo (single : Single h i n) (pos : 0 < i) (low : 4 ≤ n) {limit : Int}
    (small : n < limit) (int : n < 2 ^ 31) (k : Nat) :
    (search 4 (k + 2) i limit 0).Solo heapExec (Spares w) (fun best t => best = (n, i) ∧ t = h)
      h := by
  have size : h.size i = n := by
    unfold Heap.size
    rw [single.header, asInt_eq (by omega) int, abs_pos (by omega)]
  have last : h.next i = 0 := by
    unfold Heap.next
    rw [single.next]
    rfl
  have some : i ≠ 0 := by omega
  have free : decide (h.array i > 0) = true := by
    rw [single.header]
    exact decide_eq_true (by omega)
  unfold search
  simp only [some, ↓reduceIte, isAvail, bind_eq, Program.bind_assoc, solo_bind_iff,
    solo_loadArray, pure_eq, Prog.bind, free, Bool.not_true, Bool.false_eq_true, solo_size, size,
    Nat.succ_ne_zero, solo_next, last, search_end]
  exact ⟨trivial, trivial, trivial, by simp [low, small], rfl⟩

theorem pick_solo (single : Single h i n) (pos : 0 < i) (low : 4 ≤ n) (small : n < 2 ^ 31 - 1) :
    (pick 4).Solo heapExec (Spares w) (fun best t => best = (n, i) ∧ t = h) h := by
  have found := search_solo (w := w) single pos low small (by omega : n < 2 ^ 31) 18
  rw [← single.avail] at found
  unfold pick
  rw [solo_bind_iff, solo_loadAvail]
  exact ⟨trivial, single.avail ▸ found⟩

theorem single_ends (single : Single h i n) : h.prev i = 0 ∧ h.next i = 0 := by
  unfold Heap.prev Heap.next
  rw [single.next, single.prev]
  exact ⟨rfl, rfl⟩

/-- Four words off the front of the only block, or the block when it is no longer than that. -/
theorem carve_single (single : Single h i n) (low : 4 ≤ n) (small : n < 2 ^ 31) :
    8 ≤ n → Single (h.carve i n 4) (i + 4) (n - 4) := by
  intro large
  obtain ⟨first, last⟩ := single_ends single
  have empty : ((h.remove i).makeTaken i 4).avail = 0 := by
    simpa [Heap.remove, first, last] using (makeTaken_fields (h.remove i) i 4).2.2.2.2
  obtain ⟨_, _, _, asleep, avail⟩ := makeAvail_fields ((h.remove i).makeTaken i 4) (i + 4) (n - 4)
  have words := makeAvail_array (h := (h.remove i).makeTaken i 4) (i := i + 4)
    (n := n - 4) (by omega) (by omega)
  simp only [empty, ne_eq, not_true_eq_false, false_and, ↓reduceIte] at words
  obtain ⟨_, _, _, awoken⟩ := carve_fields h i n 4
  have extra : n - 4 ≥ 4 := by omega
  unfold Heap.carve at awoken ⊢
  rw [if_pos extra] at awoken ⊢
  refine ⟨awoken.trans single.asleep, avail, ?_, ?_, ?_⟩
  · rw [words, if_neg (by omega), if_neg (by omega), if_pos (by omega)]
  · rw [words, if_neg (by omega), if_pos (by omega)]
  · rw [words, if_pos (by omega)]

theorem claim_solo (single : Single h i n) (pos : 0 < i) (low : 4 ≤ n) (small : n < 2 ^ 31)
    (outside : w < i ∨ i + n ≤ w) :
    (claim 4 (n, i)).Solo heapExec (Spares w)
      (fun p t => p = h.base + 8 * (i + 1) ∧ t = h.carve i n 4) h := by
  obtain ⟨first, last⟩ := single_ends single
  have some : i ≠ 0 := by omega
  have base := (carve_fields h i n 4).1
  have front : ((h.remove i).makeTaken i 4).avail = 0 := by
    simpa [Heap.remove, first, last] using (makeTaken_fields (h.remove i) i 4).2.2.2.2
  simp only [claim, some, ne_eq, not_false_eq_true, ↓reduceIte, bind_eq, solo_bind_iff]
  apply solo_mono _ (remove_solo first last)
  intro _ t removed
  subst removed
  unfold Heap.carve at base ⊢
  by_cases extra : n - 4 ≥ 4
  · simp only [extra, ↓reduceIte, solo_bind_iff] at base ⊢
    apply solo_mono _ (makeTaken_solo (by omega) (by omega) (by omega))
    intro _ t taken
    subst taken
    apply solo_mono _ (makeAvail_solo front (by omega) (by omega) (by omega))
    intro _ t rest
    subst rest
    rw [solo_loadBase, base]
    exact ⟨trivial, rfl, rfl⟩
  · simp only [extra, ↓reduceIte, solo_bind_iff] at base ⊢
    apply solo_mono _ (makeTaken_solo (by omega) (by omega) (by omega))
    intro _ t taken
    subst taken
    rw [solo_loadBase, base]
    exact ⟨trivial, rfl, rfl⟩

theorem closedGate_solo (asleep : h.coresAwoken = false) :
    lockGate.Solo heapExec (Spares w) (fun _ t => t = h) h := by
  unfold lockGate
  rw [bind_eq, solo_bind_iff, solo_loadCoresAwoken, asleep]
  exact ⟨trivial, rfl⟩

/-- An allocation of four words, before any other core is awake. -/
theorem new_solo (single : Single h i n) (pos : 0 < i) (low : 4 ≤ n) (small : n < 2 ^ 31 - 1)
    (outside : w < i ∨ i + n ≤ w) {bytes : Nat} (some : 0 < bytes)
    (units : mallocUnits bytes = 4) :
    (operatorNew bytes).Solo heapExec (Spares w)
      (fun p t => p = h.base + 8 * (i + 1) ∧ t = h.carve i n 4) h := by
  have nonzero : bytes ≠ 0 := by omega
  have nonnull : (h.base : Int) + 8 * (i + 1) ≠ 0 := by omega
  simp only [operatorNew, malloc, nonzero, ↓reduceIte, units, mallocBody_eq, bind_eq,
    Program.bind_assoc, solo_bind_iff]
  apply solo_mono _ (closedGate_solo single.asleep)
  intro _ t same
  subst same
  apply solo_mono _ (pick_solo single pos low small)
  intro best t found
  obtain ⟨rfl, rfl⟩ := found
  apply solo_mono _ (claim_solo single pos low (by omega) outside)
  intro p t got
  obtain ⟨rfl, rfl⟩ := got
  rw [if_neg nonnull]
  exact ⟨rfl, rfl⟩

structure Made (h t : Heap) (i n p : Int) : Prop where
  base : t.base = h.base
  place : p = h.base + 8 * (i + 1)
  rest : 8 ≤ n → Single t (i + 4) (n - 4)

theorem made_place {t : Heap} {p : Int} (made : Made h t i n p) (k : Heap)
    (base : k.base = h.base) : k.wordOf p = i + 1 := by
  rw [made.place]
  unfold Heap.wordOf
  rw [base]
  omega

theorem storeBytes_single {j m p : Int} (single : Single h j m) (outside : h.wordOf p < j)
    (count : Nat) (x : Int) : Single (h.storeBytes p count x) j m := by
  refine ⟨single.asleep, single.avail, ?_, ?_, ?_⟩ <;>
    unfold Heap.storeBytes <;> rw [store_array, if_neg (by omega)]
  · exact single.header
  · exact single.next
  · exact single.prev

theorem object_solo (single : Single h i n) (pos : 0 < i) (low : 4 ≤ n) (small : n < 2 ^ 31 - 1)
    (outside : w < i ∨ i + n ≤ w) {bytes : Nat} (some : 0 < bytes)
    (units : mallocUnits bytes = 4) (x : Int) :
    (do
      let p ← operatorNew bytes
      storeBytes p bytes x
      return p : HeapM Int).Solo heapExec (Spares w)
      (fun p t => Made h t i n p ∧ ∃ k : Heap, t = k.storeBytes p bytes x) h := by
  have base := (carve_fields h i n 4).1
  have word : (h.carve i n 4).wordOf (h.base + 8 * (i + 1)) = i + 1 := by
    unfold Heap.wordOf
    rw [base]
    omega
  simp only [bind_eq, solo_bind_iff]
  apply solo_mono _ (new_solo single pos low small outside some units)
  intro p t got
  obtain ⟨rfl, rfl⟩ := got
  apply solo_storeBytes.mpr
  refine ⟨?_, ⟨base, rfl, ?_⟩, _, rfl⟩
  · show (h.carve i n 4).wordOf _ ≠ w
    omega
  · intro large
    exact storeBytes_single (carve_single single low (by omega) large) (by omega) bytes x

end Single

theorem bytes_storeBytes (h : Heap) (p : Int) {x : Int} (low : 0 ≤ x) (high : x < 2 ^ 32) :
    (h.storeBytes p 4 x).bytes p 4 = x := by
  have same : ∀ y, (h.store (h.wordOf p) y).wordOf p = h.wordOf p := fun _ => rfl
  unfold Heap.storeBytes Heap.bytes
  rw [same, store_array, if_pos rfl]
  omega

theorem bytes_other (h : Heap) {p q : Int} (apart : h.wordOf p ≠ h.wordOf q) (x : Int) :
    (h.storeBytes p 4 x).bytes q 4 = h.bytes q 4 := by
  have same : ∀ y, (h.store (h.wordOf p) y).wordOf q = h.wordOf q := fun _ => rfl
  unfold Heap.storeBytes Heap.bytes
  rw [same, store_array, if_neg (Ne.symm apart)]

section Objects
variable {w i n : Int} {h : Heap}

theorem newBarrier_solo (single : Single h i n) (pos : 0 < i) (low : 4 ≤ n)
    (small : n < 2 ^ 31 - 1) (outside : w < i ∨ i + n ≤ w) (count : Int) (count0 : 0 ≤ count)
    (count32 : count < 2 ^ 32) :
    (newBarrier count).Solo heapExec (Spares w)
      (fun p t => Made h t i n p ∧ t.bytes p 4 = count) h := by
  apply solo_mono _ (object_solo single pos low small outside (by decide) (by decide) count)
  intro p t made
  obtain ⟨made, k, rfl⟩ := made
  exact ⟨made, bytes_storeBytes k p count0 count32⟩

theorem newSpinLock_solo (single : Single h i n) (pos : 0 < i) (low : 4 ≤ n)
    (small : n < 2 ^ 31 - 1) (outside : w < i ∨ i + n ≤ w) :
    newSpinLock.Solo heapExec (Spares w) (fun p t => Made h t i n p) h :=
  solo_mono (fun _ _ made => made.1)
    (object_solo single pos low small outside (by decide) (by decide) 0)

theorem laidOut_single (fresh : Untouched h) (base : Nat) {len : Int} (room : 8 ≤ len)
    (small : len < 2 ^ 31) : Single (h.laidOut base len) 2 (len - 4) := by
  have words := laidOut_array fresh base room small
  obtain ⟨_, _, awoken, avail⟩ := laidOut_fields (h := h) base len
  refine ⟨awoken.trans fresh.coresAwoken, avail, ?_, ?_, ?_⟩
  · rw [words, if_neg (by omega), if_neg (by omega), if_neg (by omega), if_pos (by omega)]
  · rw [words, if_neg (by omega), if_neg (by omega), if_pos (by omega)]
  · rw [words, if_neg (by omega), if_pos (by omega)]

/-- `heapInit` takes no lock, and leaves one block of free words behind its own lock. -/
theorem heapInit_solo (fresh : Untouched h) (base : Nat) {bytes : Nat} (room : 96 ≤ bytes)
    (small : bytes < 2 ^ 34) :
    (heapInit base bytes).Solo heapExec (fun o _ => NotLock o)
      (fun _ t => t.base = base ∧ Single t 6 ((bytes / 8 : Nat) - 8)) h := by
  let len : Int := (bytes / 8 : Nat)
  have room' : 12 ≤ len := by omega
  have small' : len < 2 ^ 31 := by omega
  have free : asInt (len - 4) = len - 4 := asInt_eq (by omega) (by omega)
  have last : asInt (len - 2) = len - 2 := asInt_eq (by omega) (by omega)
  have laidOut : h.laidOut base len =
      ((({ h with base := base, len := len } : Heap).makeTaken 0 2).makeAvail 2 (len - 4)).makeTaken
        (len - 2) 2 := by
    unfold Heap.laidOut
    rw [free, last]
  have spares : ∀ (o : HeapOp) (t : Heap), Spares (-1) o t → NotLock o :=
    fun o t allowed => spares_notLock allowed
  simp only [heapInit, bind_eq, solo_bind_iff, solo_printfNoLock, solo_storeBase,
    solo_storeLen, solo_loadLen, solo_storeTheLock]
  refine ⟨trivial, trivial, trivial, trivial, ?_⟩
  apply solo_mono _ (solo_weaken spares (makeTaken_solo (by omega) (by omega) (by omega)))
  intro _ t first
  subst first
  rw [show asInt (((bytes / 8 : Nat) : Int) - 4) = len - 4 from free]
  have empty : (({ h with base := base, len := len } : Heap).makeTaken 0 2).avail = 0 :=
    fresh.avail
  apply solo_mono _ (solo_weaken spares (makeAvail_solo empty (by omega) (by omega) (by omega)))
  intro _ t middle
  subst middle
  rw [show asInt (((bytes / 8 : Nat) : Int) - 2) = len - 2 from last]
  apply solo_mono _ (solo_weaken spares (makeTaken_solo (by omega) (by omega) (by omega)))
  intro _ t whole
  have state : t = h.laidOut base len := whole.trans laidOut.symm
  have single := laidOut_single fresh base (by omega : 8 ≤ len) small'
  have baseT := (laidOut_fields (h := h) base len).1
  rw [← state] at single baseT
  apply solo_mono _ (solo_weaken spares (newSpinLock_solo single (by omega) (by omega) (by omega)
    (by omega)))
  intro p u made
  have rest := made.rest (by omega)
  refine ⟨trivial, made.base.trans baseT, ?_⟩
  have place : (2 : Int) + 4 = 6 := by omega
  have size : len - 4 - 4 = len - 8 := by omega
  rw [place, size] at rest
  exact ⟨rest.asleep, rest.avail, rest.header, rest.next, rest.prev⟩

end Objects

end PiKernel.HeapModel
