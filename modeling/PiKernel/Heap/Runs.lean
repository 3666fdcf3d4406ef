import PiKernel.Lib.Transition
import PiKernel.Heap.Fit
import PiKernel.Heap.Free
import PiKernel.Heap.Init

/-!
Whole runs on one core: `heapInit`, then any calls of `malloc` and `free` and
any writes of the owners of live pointers into the bytes they asked for.
-/
namespace PiKernel.HeapModel
open Program Transition

structure RunState where
  heap : Heap
  live : List (Int × Nat)
  panicked : Bool

inductive Event where
  | malloc (bytes : Nat)
  | free (p : Int)
  | write (p : Int) (bytes : Nat) (words : Int → Int)

def RunState.start : Outcome HeapI Unit Heap → RunState
  | .done () h => ⟨h, [], false⟩
  | .stuck _ h => ⟨h, [], true⟩

def RunState.afterMalloc (s : RunState) (bytes : Nat) : RunState :=
  match (malloc bytes).run heapExec s.heap with
  | .done p h => ⟨h, if p = 0 then s.live else (p, bytes) :: s.live, false⟩
  | .stuck _ h => ⟨h, s.live, true⟩

def RunState.afterFree (s : RunState) (p : Int) : RunState :=
  match (free p).run heapExec s.heap with
  | .done () h => ⟨h, s.live.filter fun x => x.1 ≠ p, false⟩
  | .stuck _ h => ⟨h, s.live, true⟩

/-- Every word the bytes `[p, p + bytes)` touch gets an arbitrary value. -/
def Heap.overwrite (h : Heap) (p : Int) (bytes : Nat) (words : Int → Int) : Heap :=
  { h with array := fun j =>
      if p < h.base + 8 * j + 8 ∧ h.base + 8 * j < p + bytes then words j else h.array j }

inductive HeapStep (bytes : Nat) : RunState → Event → RunState → Prop where
  | malloc {s : RunState} {n : Nat} (running : s.panicked = false) (pos : 0 < n)
      (fits : n ≤ bytes) : HeapStep bytes s (.malloc n) (s.afterMalloc n)
  | free {s : RunState} {p : Int} (running : s.panicked = false)
      (live : p = 0 ∨ p ∈ s.live.map Prod.fst) : HeapStep bytes s (.free p) (s.afterFree p)
  | write {s : RunState} {p : Int} {n : Nat} (running : s.panicked = false)
      (live : (p, n) ∈ s.live) (words : Int → Int) :
      HeapStep bytes s (.write p n words) { s with heap := s.heap.overwrite p n words }

def heapRuns (base bytes : Nat) : System RunState Event where
  init s := ∃ h, Untouched h ∧ s = RunState.start ((heapInit base bytes).run heapExec h)
  step := HeapStep bytes

/-- What a whole run owes: no panic, disjoint aligned ranges between the
    sentinels, and words that spell out a layout. -/
structure Safe (s : RunState) : Prop where
  running : s.panicked = false
  disjoint : s.live.Pairwise fun x y => x.1 + (x.2 : Int) ≤ y.1 ∨ y.1 + (y.2 : Int) ≤ x.1
  aligned : ∀ x ∈ s.live, (x.1 - s.heap.base) % 8 = 0
  inside : ∀ x ∈ s.live,
    s.heap.base + 8 * 2 < x.1 ∧ x.1 + x.2 < s.heap.base + 8 * (s.heap.len - 2)
  tiled : WellFormed s.heap

/-- The calls that avoid the two arithmetic slips: a request whose unit count
    fits an `int`, or that meets an empty list, and a `free` of the null pointer.
    The index `free` computes of any other pointer is not that pointer's header. -/
def Sound (s : RunState) : Event → Prop
  | .malloc n => n ≤ largestRequest ∨ s.heap.avail = 0
  | .free p => p = 0
  | .write _ _ _ => True

structure Owns (base : Nat) (x : Int × Nat) (b : Block) : Prop where
  taken : b.free = false
  start : x.1 = base + 8 * (b.start + 1)
  room : x.1 + x.2 ≤ base + 8 * (b.stop - 1)

structure Inv (base : Nat) (s : RunState) : Prop where
  running : s.panicked = false
  base_eq : s.heap.base = base
  distinct : (s.live.map Prod.fst).Nodup
  owned : ∃ L, Represents s.heap L ∧ ∀ x ∈ s.live, ∃ b ∈ L.blocks, Owns base x b

theorem inv_safe {base : Nat} {s : RunState} (inv : Inv base s) : Safe s := by
  obtain ⟨running, baseEq, distinct, L, r, owned⟩ := inv
  refine ⟨running, ?_, ?_, ?_, L, r⟩
  · have pointers : s.live.Pairwise fun x y => x.1 ≠ y.1 := List.pairwise_map.mp distinct
    refine pointers.imp_of_mem ?_
    intro x y mx my different
    obtain ⟨b, mb, ownX⟩ := owned x mx
    obtain ⟨c, mc, ownY⟩ := owned y my
    have startX := ownX.start
    have startY := ownY.start
    have roomX := ownX.room
    have roomY := ownY.room
    simp only [Block.stop] at roomX roomY
    rcases block_disjoint mb mc with same | apart | apart
    · subst same
      omega
    · omega
    · omega
  · intro x mx
    obtain ⟨b, _, own⟩ := owned x mx
    have start := own.start
    omega
  · intro x mx
    obtain ⟨b, mb, own⟩ := owned x mx
    have bounds := block_bounds mb
    have start := own.start
    have room := own.room
    have len := r.len_eq
    simp only [Block.stop] at room
    omega

theorem init_inv {base bytes : Nat} (enough : 64 ≤ bytes) (small : bytes < 2 ^ 34)
    {s : RunState} (first : (heapRuns base bytes).init s) : Inv base s := by
  obtain ⟨h, fresh, rfl⟩ := first
  obtain ⟨h', L, run, r, baseEq, _⟩ := heapInit_represents fresh base enough small
  rw [run]
  exact ⟨rfl, baseEq, by simp [RunState.start], L, r, by simp [RunState.start]⟩

theorem malloc_inv {base : Nat} {s : RunState} (inv : Inv base s) {n : Nat} (pos : 0 < n)
    (sound : Sound s (.malloc n)) : Inv base (s.afterMalloc n) := by
  obtain ⟨running, baseEq, distinct, L, r, owned⟩ := inv
  have run := run_malloc pos r.asleep
  rcases mallocBody_cases r (mallocUnits n) with ⟨_, result⟩ | ⟨b, mb, free, fit, result⟩
  · rw [result] at run
    have after : s.afterMalloc n = ⟨s.heap, s.live, false⟩ := by
      unfold RunState.afterMalloc
      rw [run]
      rfl
    rw [after]
    exact ⟨rfl, baseEq, distinct, L, r, owned⟩
  · have fits : n ≤ largestRequest := by
      refine sound.resolve_right ?_
      intro empty
      have listed := listed_start mb free
      have order := (LinkedList.linked_nil_iff r.linked).mp empty
      rw [order] at listed
      exact absurd listed (List.not_mem_nil)
    have low : 4 ≤ requestUnits n := le_max_left 4 _
    have request : (((n + 7) / 8 : Nat) : Int) + 2 ≤ requestUnits n := le_max_right 4 _
    have enough : requestUnits n ≤ b.size := by
      rw [← mallocUnits_exact fits, ← header_size r mb]
      exact fit.enough
    rw [result, mallocUnits_exact fits] at run
    have bounds := block_bounds mb
    have nonnull : (s.heap.base : Int) + 8 * (b.start + 1) ≠ 0 := by omega
    obtain ⟨c, mc, taken, start, size⟩ := carved_block mb free low enough
    have after : s.afterMalloc n = ⟨s.heap.carve b.start b.size (requestUnits n),
        ((s.heap.base : Int) + 8 * (b.start + 1), n) :: s.live, false⟩ := by
      unfold RunState.afterMalloc
      rw [run]
      simp only [nonnull, ↓reduceIte]
    rw [after]
    refine ⟨rfl, (carve_fields _ _ _ _).1.trans baseEq, ?_, _,
      carve_represents r mb free low enough, ?_⟩
    · refine List.nodup_cons.mpr ⟨?_, distinct⟩
      intro repeated
      obtain ⟨x, mx, same⟩ := List.mem_map.mp repeated
      obtain ⟨d, md, own⟩ := owned x mx
      have place := own.start
      have equal := block_unique mb md (by simp only at same; omega)
      exact free_ne_taken free own.taken equal
    · intro x mx
      rcases List.mem_cons.mp mx with rfl | mx
      · refine ⟨c, mc, taken, by rw [baseEq, start], ?_⟩
        simp only [Block.stop]
        omega
      · obtain ⟨d, md, own⟩ := owned x mx
        have different : d ≠ b := (free_ne_taken free own.taken).symm
        exact ⟨d, (mem_carved mb free low).mpr (Or.inr ⟨md, different⟩), own⟩

theorem write_inv {base : Nat} {s : RunState} (inv : Inv base s) {p : Int} {n : Nat}
    (live : (p, n) ∈ s.live) (words : Int → Int) :
    Inv base { s with heap := s.heap.overwrite p n words } := by
  obtain ⟨running, baseEq, distinct, L, r, owned⟩ := inv
  obtain ⟨b, mb, own⟩ := owned (p, n) live
  have start := own.start
  have room := own.room
  refine ⟨running, baseEq, distinct, L, ?_, owned⟩
  refine represents_payload r mb own.taken rfl rfl rfl ?_
  intro j outside
  simp only at start room
  have untouched : ¬ (p < s.heap.base + 8 * j + 8 ∧ s.heap.base + 8 * j < p + n) := by omega
  simp only [Heap.overwrite, untouched, ↓reduceIte]

theorem free_inv {base : Nat} {s : RunState} (inv : Inv base s) {p : Int}
    (sound : Sound s (.free p)) : Inv base (s.afterFree p) := by
  obtain ⟨running, baseEq, distinct, L, r, owned⟩ := inv
  have null : p = 0 := sound
  have after : s.afterFree p = ⟨s.heap, s.live.filter fun x => x.1 ≠ p, false⟩ := by
    subst null
    rfl
  rw [after]
  refine ⟨rfl, baseEq, ?_, L, r, fun x mx => owned x (List.mem_of_mem_filter mx)⟩
  exact (List.filter_sublist.map Prod.fst).nodup distinct

theorem step_inv {base bytes : Nat} {s t : RunState} {e : Event} (inv : Inv base s)
    (sound : Sound s e) (step : (heapRuns base bytes).step s e t) : Inv base t := by
  cases step with
  | malloc _ pos _ => exact malloc_inv inv pos sound
  | free _ _ => exact free_inv inv sound
  | write _ live words => exact write_inv inv live words

theorem heap_runs_safe {base bytes : Nat} (enough : 64 ≤ bytes) (small : bytes < 2 ^ 34)
    {past : List (RunState × Event)} {s : RunState} (run : Run (heapRuns base bytes) past s)
    (sound : ∀ x ∈ past, Sound x.1 x.2) : ∀ t ∈ visited past s, Safe t := by
  intro t member
  have inv : Inv base t := run_visited (fun _ => init_inv enough small)
    (fun _ _ _ => step_inv) run sound t member
  exact inv_safe inv

def blank : Heap := ⟨0, fun _ => 0, 0, 0, 0, false⟩

def booted : RunState := .start ((heapInit 4096 256).run heapExec blank)

theorem booted_init : (heapRuns 4096 256).init booted := ⟨blank, ⟨rfl, rfl⟩, rfl⟩

def allocated : RunState := booted.afterMalloc 8

def paired : RunState := allocated.afterMalloc 24

def written : RunState :=
  { paired with heap := paired.heap.overwrite 4152 8 fun _ => 7 }

theorem allocated_run : Run (heapRuns 4096 256) [(booted, .malloc 8)] allocated :=
  .next (.start booted_init) (.malloc rfl (by decide) (by decide))

theorem heap_runs_safe_example : ∃ past s, Run (heapRuns 4096 256) past s ∧
    past.length = 4 ∧ s.live = [(4184, 24), (4152, 8)] ∧ ∀ t ∈ visited past s, Safe t := by
  have second : HeapStep 256 allocated (.malloc 24) paired := .malloc rfl (by decide) (by decide)
  have write : HeapStep 256 paired (.write 4152 8 fun _ => 7) written :=
    .write rfl (by decide +kernel) _
  have free : HeapStep 256 written (.free 0) (written.afterFree 0) := .free rfl (Or.inl rfl)
  have run : Run (heapRuns 4096 256) _ _ := .next (.next (.next allocated_run second) write) free
  refine ⟨_, _, run, rfl, by decide +kernel, heap_runs_safe (by decide) (by decide) run ?_⟩
  intro x mx
  simp only [List.mem_cons, List.not_mem_nil, or_false] at mx
  rcases mx with rfl | rfl | rfl | rfl
  · rfl
  · trivial
  · exact Or.inl (by decide)
  · exact Or.inl (by decide)

/-- `free` of the first pointer looks at word 13 instead of word 6 and panics. -/
theorem free_panics : ∃ past s, Run (heapRuns 4096 256) past s ∧
    past.map Prod.snd = [.free 4152, .malloc 8] ∧ ¬ Safe s := by
  have free : HeapStep 256 allocated (.free 4152) (allocated.afterFree 4152) :=
    .free rfl (Or.inr (by decide +kernel))
  refine ⟨_, _, .next allocated_run free, rfl, ?_⟩
  intro safe
  exact absurd safe.running (by decide +kernel)

end PiKernel.HeapModel
