import Mathlib.Algebra.BigOperators.Group.Finset.Piecewise
import PiKernel.Mmu.Map
import PiKernel.Boot.Woken

/-!
What `kernel_init` relies on, in every state that any interleaving of the cores
reaches: who may read through the barriers' pointers, who may use atomics, who may
enter `kernelMain` and leave `stopping`, and that nobody waits for ever.
-/
namespace PiKernel.Boot
open Program Transition Interleaving HeapModel Rendezvous

variable {n : Nat}

def Derefs (p : Int) : BootOp n → Prop
  | .addFetch q _ | .awaitZero q => q = p
  | _ => False

/-- `add_fetch` of `Barrier::sync`, and the exchange of `SpinLock::lock`. -/
def ReadModifyWrite : BootOp n → Prop
  | .addFetch _ _ | .heap (.lock _) => True
  | _ => False

def arrivals (s : Shared n) (p : Int) : Nat := ∑ c, (s.log c).count (.arrive p)

def IsBarrier (s : Shared n) (p : Int) : Prop := p ≠ 0 ∧ (p = s.starting ∨ p = s.stopping)

structure InOrder (b : Board) (S : Threads (Fin (n + 1)) (BootI n) (Shared n)) : Prop where
  constructed : ∀ (c : Fin (n + 1)) (o : BootOp n) k, S.code c = .op o k →
    ∀ p, Derefs p o → IsBarrier S.mem p
  exclusive : ∀ (c : Fin (n + 1)) (o : BootOp n) k, S.code c = .op o k → ReadModifyWrite o →
    .mmuEnable ∈ S.mem.log c
  entering : ∀ (c : Fin (n + 1)) k, S.code c = @Prog.op (BootI n) Unit .enterMain k →
    Ready b S.mem ∧ ∀ d, .mmuEnable ∈ S.mem.log d ∧ .arrive S.mem.starting ∈ S.mem.log d
  leaving : ∀ c, S.code c = .ret () → ∀ d, .returnMain ∈ S.mem.log d
  counters : ∀ p, IsBarrier S.mem p → arrivals S.mem p ≤ n + 1 ∧
    S.mem.heap.bytes p 4 = (n + 1 : Nat) - (arrivals S.mem p : Int)
  arriving : ∀ (c : Fin (n + 1)) p d k, S.code c = @Prog.op (BootI n) Unit (.addFetch p d) k →
    0 < S.mem.heap.bytes p 4
  settled : ∀ p, IsBarrier S.mem p → S.mem.heap.bytes p 4 = 0 →
    ∀ T, Reachable ((bootCores n b).onward S) T → IsBarrier T.mem p ∧ T.mem.heap.bytes p 4 = 0
  finishes : ∃ T, Reachable ((bootCores n b).onward S) T ∧ ∀ c, T.code c = .ret ()

variable {b : Board} {p q : Int} {S T : Threads (Fin (n + 1)) (BootI n) (Shared n)}
  {stages : Fin (n + 1) → Stage n}

theorem early_op (early : Early b S) {c : Fin (n + 1)} {o : BootOp n} {k : o.Res → BootM n Unit}
    (here : S.code c = .op o k) : o = .held ∨ Plain o := by
  by_cases primary : c = 0
  · obtain ⟨o', k', code, allowed, _⟩ := early.primary
    rw [primary, code] at here
    obtain ⟨rfl, _⟩ := Prog.op.inj here
    exact Or.inr allowed.1
  · rw [early.others c primary] at here
    exact Or.inl (Prog.op.inj here).1.symm

theorem early_unfinished (early : Early b S) (c : Fin (n + 1)) : S.code c ≠ .ret () := by
  intro done
  by_cases primary : c = 0
  · obtain ⟨o, k, code, _⟩ := early.primary
    rw [primary, code] at done
    exact absurd done (by simp [Prog.bind])
  · rw [early.others c primary] at done
    exact absurd done (by simp [Stage.code, perform, call, Prog.bind])

theorem early_full (early : Early b S) (some : IsBarrier S.mem p) :
    S.mem.heap.bytes p 4 = (n + 1 : Nat) ∧ arrivals S.mem p = 0 := by
  obtain ⟨o, k, _, ⟨_, first, last⟩, _⟩ := early.primary
  obtain ⟨nonnull, place⟩ := some
  constructor
  · cases place with
    | inl same =>
      rw [same] at nonnull ⊢
      exact first nonnull
    | inr same =>
      rw [same] at nonnull ⊢
      exact last nonnull
  · simp [arrivals, early.log]

theorem early_wakes {Sys : System (Threads (Fin (n + 1)) (BootI n) (Shared n)) (Fin (n + 1))}
    (steps : Sys.step = ThreadStep bootExec Spins) (early : Early b S) (reach : Reachable Sys S) :
    ∃ T p q stages, Reachable Sys T ∧ Woken b p q T stages := by
  obtain ⟨o, k, code, solo⟩ := early.primary
  have keep : ∀ (o : BootOp n) (u : Shared n) (r : o.Res) (v : Shared n), Building o u →
      (∀ c, u.log c = []) → bootExec 0 o u = some (r, v) → ∀ c, v.log c = [] := by
    intro o u r v allowed empty result c
    rw [(plain_quiet allowed.1 result).2]
    exact empty c
  obtain ⟨_, t, T, ⟨built, log⟩, there, rfl, codeT⟩ :=
    thread_runs steps (.op o k) _ (solo_invariant keep early.log solo) reach rfl code
  refine ⟨T, T.mem.starting, T.mem.stopping, firstStages n, there, ?_⟩
  apply built_woken _ _ log built
  · intro c secondary
    rw [codeT, Function.update_of_ne secondary]
    exact early.others c secondary
  · rw [codeT, Function.update_self]

def Stage.next (p q : Int) : Stage n → Option (BootOp n)
  | .held => some .held
  | .waking [] => some .sev
  | .waking (d :: _) => some (.storeEntry d)
  | .enabling => some .mmuEnable
  | .loading => some .loadStarting
  | .arriving => some (.addFetch p (-1))
  | .spinning => some (.awaitZero p)
  | .entering => some .enterMain
  | .running => some .returnMain
  | .reloading => some .loadStopping
  | .rearriving => some (.addFetch q (-1))
  | .respinning => some (.awaitZero q)
  | .done => none

theorem code_next {stage : Stage n} {o : BootOp n} {k : o.Res → BootM n Unit}
    (here : stage.code p q = .op o k) : stage.next p q = some o := by
  cases stage with
  | waking others => cases others <;> exact congrArg some (Prog.op.inj here).1
  | done => exact absurd here (by simp [Stage.code])
  | _ => exact congrArg some (Prog.op.inj here).1

theorem next_derefs {stage : Stage n} {o : BootOp n} {x : Int} (next : stage.next p q = some o)
    (derefs : Derefs x o) : x = p ∨ x = q := by
  cases stage with
  | waking others => cases others <;> (cases next; exact absurd derefs id)
  | arriving | spinning =>
    cases next
    exact Or.inl derefs.symm
  | rearriving | respinning =>
    cases next
    exact Or.inr derefs.symm
  | done => exact absurd next (by simp [Stage.next])
  | _ =>
    cases next
    exact absurd derefs id

/-- The only read-modify-writes left are the two arrivals. -/
theorem next_atomic {stage : Stage n} {o : BootOp n} (next : stage.next p q = some o)
    (atomic : ReadModifyWrite o) : 2 ≤ stage.pos := by
  cases stage with
  | held | enabling =>
    cases next
    exact absurd atomic id
  | waking others => cases others <;> (cases next; exact absurd atomic id)
  | _ => simp [Stage.pos]

theorem next_enterMain {stage : Stage n} (next : stage.next p q = some .enterMain) :
    stage.pos = 5 := by
  cases stage with
  | waking others => cases others <;> exact absurd next (by simp [Stage.next])
  | entering => rfl
  | _ => exact absurd next (by simp [Stage.next])

theorem next_addFetch {stage : Stage n} {x d : Int} (next : stage.next p q = some (.addFetch x d)) :
    (x = p ∧ stage.pos < 4) ∨ (x = q ∧ stage.pos < 9) := by
  cases stage with
  | waking others => cases others <;> exact absurd next (by simp [Stage.next])
  | arriving =>
    cases next
    exact Or.inl ⟨rfl, by simp [Stage.pos]⟩
  | rearriving =>
    cases next
    exact Or.inr ⟨rfl, by simp [Stage.pos]⟩
  | _ => exact absurd next (by simp [Stage.next])

theorem code_done {stage : Stage n} (here : stage.code p q = .ret ()) : stage = .done := by
  cases stage with
  | done => rfl
  | waking others =>
    cases others <;> exact absurd here (by simp [Stage.code, wakeUpCores, perform, call, Prog.bind])
  | _ =>
    exact absurd here (by simp [Stage.code, together, sync, kernelMain, perform, call, Prog.bind])

theorem log_mem (p q : Int) (stage : Stage n) :
    (2 ≤ stage.pos → Milestone.mmuEnable ∈ stage.log p q) ∧
      (4 ≤ stage.pos → Milestone.arrive p ∈ stage.log p q) ∧
      (7 ≤ stage.pos → Milestone.returnMain ∈ stage.log p q) := by
  cases stage <;> simp [Stage.log, Stage.pos]

theorem log_count (apart : p ≠ q) (stage : Stage n) :
    (stage.log p q).count (.arrive p) = (if 4 ≤ stage.pos then 1 else 0) ∧
      (stage.log p q).count (.arrive q) = (if 9 ≤ stage.pos then 1 else 0) := by
  cases stage <;> simp [Stage.log, Stage.pos, apart, Ne.symm apart]

theorem woken_arrivals (woken : Woken b p q S stages) :
    arrivals S.mem p = reached (positions stages) 4 ∧
      arrivals S.mem q = reached (positions stages) 9 := by
  have apart : p ≠ q := fun same => woken.sequence.apart (same ▸ rfl)
  have count := fun c => log_count apart (stages c)
  unfold arrivals reached
  rw [Finset.card_filter, Finset.card_filter]
  constructor <;> apply Finset.sum_congr rfl <;> intro c _ <;> rw [woken.sequence.log c]
  · exact (count c).1
  · exact (count c).2

theorem woken_onward (woken : Woken b p q S stages) (small : n + 1 < 2 ^ 32)
    (reach : Reachable ((bootCores n b).onward S) T) :
    ∃ stages', Woken b p q T stages' ∧ ∀ c, positions stages c ≤ positions stages' c := by
  apply @reachable_invariant _ _ ((bootCores n b).onward S)
    (fun T => ∃ stages', Woken b p q T stages' ∧ ∀ c, positions stages c ≤ positions stages' c)
    _ _ T reach
  · intro T first
    rw [show T = S from first]
    exact ⟨stages, woken, fun c => le_refl _⟩
  · intro T c U here step
    obtain ⟨stages', woken', forward⟩ := here
    obtain ⟨stages'', woken'', further⟩ := woken_step woken' small step
    exact ⟨stages'', woken'', fun d => le_trans (forward d) (further d)⟩

/-- All cores can be brought to the end, by induction on the steps that are left. -/
theorem woken_finishes {Sys : System (Threads (Fin (n + 1)) (BootI n) (Shared n)) (Fin (n + 1))}
    (steps : Sys.step = ThreadStep bootExec Spins) (small : n + 1 < 2 ^ 32)
    (woken : Woken b p q S stages) (reach : Reachable Sys S) :
    ∃ T, Reachable Sys T ∧ ∀ c, T.code c = .ret () := by
  generalize budget : ∑ c, (stages c).left = m
  induction m using Nat.strongRecOn generalizing S stages with
  | ind m ih =>
    by_cases unfinished : ∃ c, stages c ≠ .done
    · obtain ⟨c, stage', t, advance⟩ := sequence_progress woken.sequence unfinished
      obtain ⟨o, k, r, code, result, next⟩ :=
        advance_taken advance woken.sequence.starting woken.sequence.stopping
      obtain ⟨T, there, mem, codeT⟩ :=
        thread_takes steps reach ((woken.code c).trans code) result
      have woken' : Woken b p q T (Function.update stages c stage') := by
        constructor
        · intro d
          rw [codeT]
          by_cases same : d = c
          · subst same
            simp [next]
          · simpa [same] using woken.code d
        · rw [mem]
          exact sequence_advance woken.sequence small advance
      have less := left_update (advance_left advance)
      rw [budget] at less
      exact ih _ less woken' there rfl
    · refine ⟨S, reach, ?_⟩
      intro c
      have done : stages c = .done := by_contra fun more => unfinished ⟨c, more⟩
      rw [woken.code c, done]
      rfl

theorem woken_barrier (woken : Woken b p q S stages) {x : Int} :
    IsBarrier S.mem x ↔ x = p ∨ x = q := by
  obtain ⟨first, last⟩ := woken.sequence.nonnull
  unfold IsBarrier
  rw [woken.sequence.starting, woken.sequence.stopping]
  constructor
  · intro barrier
    exact barrier.2
  · intro place
    refine ⟨?_, place⟩
    cases place with
    | inl same => exact same ▸ first
    | inr same => exact same ▸ last

theorem woken_counts (woken : Woken b p q S stages) {x : Int} (barrier : IsBarrier S.mem x) :
    ∃ k, arrivals S.mem x = reached (positions stages) k ∧ Counts S.mem (positions stages) x k := by
  obtain ⟨first, last⟩ := woken_arrivals woken
  cases (woken_barrier woken).mp barrier with
  | inl same => exact ⟨4, same ▸ first, same ▸ woken.sequence.startCount⟩
  | inr same => exact ⟨9, same ▸ last, same ▸ woken.sequence.stopCount⟩

theorem early_inOrder (early : Early b S) (small : n + 1 < 2 ^ 32) : InOrder b S := by
  constructor
  case constructed =>
    intro c o k here p derefs
    rcases early_op early here with rfl | plain
    · exact absurd derefs id
    · cases o <;> first | exact absurd derefs id | exact absurd plain id
  case exclusive =>
    intro c o k here atomic
    rcases early_op early here with rfl | plain
    · exact absurd atomic id
    · cases o with
      | heap o => cases o <;> first | exact absurd atomic id | exact absurd plain id
      | addFetch => exact absurd plain id
      | _ => exact absurd atomic id
  case entering =>
    intro c k here
    rcases early_op early here with same | plain
    · exact absurd same (by simp)
    · exact absurd plain id
  case leaving =>
    intro c done
    exact absurd done (early_unfinished early c)
  case counters =>
    intro p barrier
    obtain ⟨full, none⟩ := early_full early barrier
    rw [full, none]
    simp
  case arriving =>
    intro c p d k here
    rcases early_op early here with same | plain
    · exact absurd same (by simp)
    · exact absurd plain id
  case settled =>
    intro p barrier zero
    obtain ⟨full, _⟩ := early_full early barrier
    omega
  case finishes =>
    obtain ⟨T, p, q, stages, there, woken⟩ :=
      @early_wakes n b S ((bootCores n b).onward S) rfl early (reachable_init rfl)
    exact woken_finishes rfl small woken there

theorem woken_inOrder (woken : Woken b p q S stages) (small : n + 1 < 2 ^ 32) : InOrder b S := by
  have sequence := woken.sequence
  have next : ∀ (c : Fin (n + 1)) (o : BootOp n) (k : o.Res → BootM n Unit),
      S.code c = .op o k → (stages c).next p q = some o := by
    intro c o k here
    rw [woken.code c] at here
    exact code_next here
  constructor
  case constructed =>
    intro c o k here x derefs
    exact (woken_barrier woken).mpr (next_derefs (next c o k here) derefs)
  case exclusive =>
    intro c o k here atomic
    rw [sequence.log c]
    exact (log_mem p q (stages c)).1 (next_atomic (next c o k here) atomic)
  case entering =>
    intro c k here
    have place := next_enterMain (next c .enterMain k here)
    refine ⟨sequence.ready, ?_⟩
    intro d
    have arrived := sequence.startGate c (le_of_eq place.symm) d
    obtain ⟨enabled, there, _⟩ := log_mem p q (stages d)
    rw [sequence.log d, sequence.starting]
    exact ⟨enabled (le_trans (by omega) arrived), there arrived⟩
  case leaving =>
    intro c done d
    rw [woken.code c] at done
    have last := code_done done
    have all := sequence.stopGate c (by simp [positions, last, Stage.pos]) d
    rw [sequence.log d]
    exact (log_mem p q (stages d)).2.2 (le_trans (by omega) all)
  case counters =>
    intro x barrier
    obtain ⟨k, count, counts⟩ := woken_counts woken barrier
    rw [count]
    have most := reached_le (positions stages) k
    rw [Fintype.card_fin] at most
    exact ⟨most, counts⟩
  case arriving =>
    intro c x d k here
    rcases next_addFetch (next c _ k here) with ⟨rfl, behind⟩ | ⟨rfl, behind⟩
    · exact counts_positive sequence.startCount behind
    · exact counts_positive sequence.stopCount behind
  case settled =>
    intro x barrier zero T reach
    obtain ⟨stages', woken', forward⟩ := woken_onward woken small reach
    have place := (woken_barrier woken).mp barrier
    refine ⟨(woken_barrier woken').mpr place, ?_⟩
    cases place with
    | inl same =>
      subst same
      have all := (counts_zero sequence.startCount).mp zero
      exact (counts_zero woken'.sequence.startCount).mpr fun d => le_trans (all d) (forward d)
    | inr same =>
      subst same
      have all := (counts_zero sequence.stopCount).mp zero
      exact (counts_zero woken'.sequence.stopCount).mpr fun d => le_trans (all d) (forward d)
  case finishes => exact woken_finishes rfl small woken (reachable_init rfl)

/-- Every state of every interleaving is in order, `kernelMain` returning, nothing
    raising an exception, and the heap having room for its lock and both barriers. -/
theorem boot_order (n : Nat) (b : Board) (room : 128 ≤ b.heapBytes) (fits : b.heapBytes < 2 ^ 34)
    (small : n + 1 < 2 ^ 32) {S : Threads (Fin (n + 1)) (BootI n) (Shared n)}
    (reach : Reachable (bootCores n b) S) : InOrder b S := by
  cases boot_reaches room fits small reach with
  | inl early => exact early_inOrder early small
  | inr after =>
    obtain ⟨p, q, stages, woken⟩ := after
    exact woken_inOrder woken small

def megabyteBoard : Board where
  heapStart := 0x96000
  heapBytes := 0x100000
  placement := Mmu.consecutive
  vcReply := some 0x3C000000

def fourCores : Threads (Fin 4) (BootI 3) (Shared 3) where
  mem := {
    heap := blank, starting := 0, stopping := 0, uart := false, printf := false, tables := none,
    heapReady := false, smpInitDone := false, coresAwoken := false, entry := fun _ => false,
    log := fun _ => [] }
  code := coreCode megabyteBoard
  phase := fun _ => .arm

theorem fourCores_init : (bootCores 3 megabyteBoard).init fourCores :=
  ⟨⟨⟨rfl, rfl⟩, rfl, rfl, rfl, rfl, rfl, rfl, rfl, rfl, fun _ => rfl, fun _ => rfl⟩, rfl, rfl⟩

theorem boot_order_four : ∃ S, Reachable (bootCores 3 megabyteBoard) S ∧
    (∀ c, S.code c = .ret ()) ∧ InOrder megabyteBoard S := by
  have start : Reachable (bootCores 3 megabyteBoard) fourCores := reachable_init fourCores_init
  have first := boot_order 3 megabyteBoard (by decide) (by decide) (by decide) start
  obtain ⟨S, after, done⟩ := first.finishes
  have reach := reachable_onward start after
  exact ⟨S, reach, done, boot_order 3 megabyteBoard (by decide) (by decide) (by decide) reach⟩

end PiKernel.Boot
