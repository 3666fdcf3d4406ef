import Mathlib.Algebra.Order.BigOperators.Group.Finset
import PiKernel.Boot.Stages

/-!
The boot order as one invariant of the machine: it ties the stages of all cores
to both counters, and from it every stage that waits can be left.
-/
namespace PiKernel.Boot
open Program Interleaving HeapModel Rendezvous

variable {n : Nat} {b : Board} {p q : Int} {s t : Shared n} {stages : Fin (n + 1) → Stage n}

def positions (stages : Fin (n + 1) → Stage n) (c : Fin (n + 1)) : Nat := (stages c).pos

structure Ready (b : Board) (s : Shared n) : Prop where
  uart : s.uart = true
  tables : s.tables = some (Mmu.mmuSetupPagetable b.placement b.vcReply)
  heapReady : s.heapReady = true

structure Sequence (b : Board) (p q : Int) (s : Shared n) (stages : Fin (n + 1) → Stage n) :
    Prop where
  log : ∀ c, s.log c = (stages c).log p q
  starting : s.starting = p
  stopping : s.stopping = q
  nonnull : p ≠ 0 ∧ q ≠ 0
  apart : s.heap.wordOf p ≠ s.heap.wordOf q
  ready : Ready b s
  startCount : Counts s (positions stages) p 4
  stopCount : Counts s (positions stages) q 9
  startGate : Gated (positions stages) 4 5
  stopGate : Gated (positions stages) 9 10
  first : stages 0 ≠ .held
  wakes : ∀ c, c ≠ 0 → s.entry c = true ∨ ∃ others, stages 0 = .waking others ∧ c ∈ others

theorem positions_update (c : Fin (n + 1)) (stage : Stage n) :
    positions (Function.update stages c stage) =
      Function.update (positions stages) c stage.pos := by
  funext d
  by_cases same : d = c
  · subst same
    simp [positions]
  · simp [positions, same]

theorem wakes_advance {c : Fin (n + 1)} {stage' : Stage n}
    (wakes : ∀ d, d ≠ 0 → s.entry d = true ∨ ∃ others, stages 0 = .waking others ∧ d ∈ others)
    (advance : Advance p q c (stages c) s stage' t) (d : Fin (n + 1)) (secondary : d ≠ 0) :
    t.entry d = true ∨ ∃ others, Function.update stages c stage' 0 = .waking others ∧
      d ∈ others := by
  rcases wakes d secondary with stored | ⟨others, waking, member⟩
  · exact Or.inl (advance_entry advance d stored)
  · by_cases own : c = 0
    · subst own
      rw [waking] at advance
      cases advance with
      | wake e rest =>
        rcases List.mem_cons.mp member with same | later
        · exact Or.inl (by simp [same])
        · exact Or.inr ⟨rest, by simp, later⟩
      | sev => exact absurd member List.not_mem_nil
    · exact Or.inr ⟨others, by rwa [Function.update_of_ne (Ne.symm own)], member⟩

theorem sequence_advance (sequence : Sequence b p q s stages) (small : n + 1 < 2 ^ 32)
    {c : Fin (n + 1)} {stage' : Stage n} (advance : Advance p q c (stages c) s stage' t) :
    Sequence b p q t (Function.update stages c stage') := by
  obtain ⟨starting, stopping, uart, tables, heapReady, wordOf⟩ := advance_fixed advance
  have forward : positions stages c ≤ stage'.pos := advance_pos advance
  obtain ⟨opens, closes⟩ := advance_gates advance
  constructor
  case log =>
    intro d
    rw [advance_log advance (sequence.log c)]
    by_cases same : d = c
    · subst same
      simp
    · simp only [Function.update_of_ne same]
      exact sequence.log d
  case starting => exact starting.trans sequence.starting
  case stopping => exact stopping.trans sequence.stopping
  case nonnull => exact sequence.nonnull
  case apart =>
    rw [wordOf, wordOf]
    exact sequence.apart
  case ready =>
    exact ⟨uart.trans sequence.ready.uart, tables.trans sequence.ready.tables,
      heapReady.trans sequence.ready.heapReady⟩
  case startCount =>
    rw [positions_update]
    rcases advance_start advance sequence.apart with ⟨same, word⟩ | ⟨behind, there, rfl⟩
    · exact counts_keep sequence.startCount word same
    · exact counts_arrive sequence.startCount small behind there
  case stopCount =>
    rw [positions_update]
    rcases advance_stop advance sequence.apart with ⟨same, word⟩ | ⟨behind, there, rfl⟩
    · exact counts_keep sequence.stopCount word same
    · exact counts_arrive sequence.stopCount small behind there
  case startGate =>
    rw [positions_update]
    exact gated_move sequence.startGate forward fun beyond =>
      (opens beyond).imp_right (counts_zero sequence.startCount).mp
  case stopGate =>
    rw [positions_update]
    exact gated_move sequence.stopGate forward fun beyond =>
      (closes beyond).imp_right (counts_zero sequence.stopCount).mp
  case first =>
    by_cases own : c = 0
    · subst own
      simpa using advance_not_held advance
    · rw [Function.update_of_ne (Ne.symm own)]
      exact sequence.first
  case wakes => exact wakes_advance sequence.wakes advance

theorem advance_or_waits (p q : Int) (c : Fin (n + 1)) (stage : Stage n) (s : Shared n) :
    (∃ stage' t, Advance p q c stage s stage' t) ∨ stage = .held ∨ stage = .spinning ∨
      stage = .respinning ∨ stage = .done := by
  cases stage with
  | held => simp
  | waking others =>
    cases others with
    | nil => exact Or.inl ⟨_, _, .sev⟩
    | cons d others => exact Or.inl ⟨_, _, .wake d others⟩
  | enabling => exact Or.inl ⟨_, _, .enable⟩
  | loading => exact Or.inl ⟨_, _, .load⟩
  | arriving => exact Or.inl ⟨_, _, .arrive⟩
  | spinning => simp
  | entering => exact Or.inl ⟨_, _, .enterMain⟩
  | running => exact Or.inl ⟨_, _, .returnMain⟩
  | reloading => exact Or.inl ⟨_, _, .reload⟩
  | rearriving => exact Or.inl ⟨_, _, .rearrive⟩
  | respinning => simp
  | done => simp

/-- While some core is not done, some core can go on: one that is held has its entry,
    or all have arrived where the others spin. -/
theorem sequence_progress (sequence : Sequence b p q s stages)
    (unfinished : ∃ c, stages c ≠ .done) :
    ∃ c stage' t, Advance p q c (stages c) s stage' t := by
  by_contra stuck
  have waits : ∀ c, stages c = .held ∨ stages c = .spinning ∨ stages c = .respinning ∨
      stages c = .done := by
    intro c
    apply (advance_or_waits p q c (stages c) s).resolve_left
    intro moves
    exact stuck ⟨c, moves⟩
  have released : ∀ c, stages c ≠ .held := by
    intro c here
    have secondary : c ≠ 0 := by
      intro same
      rw [same] at here
      exact sequence.first here
    rcases sequence.wakes c secondary with stored | ⟨others, waking, _⟩
    · exact stuck ⟨c, .enabling, s, here ▸ Advance.released stored⟩
    · have idle := waits 0
      rw [waking] at idle
      exact absurd idle (by simp)
  have started : ∀ c, stages c ≠ .spinning := by
    intro c here
    have all : ∀ d, 4 ≤ positions stages d := by
      intro d
      unfold positions
      rcases waits d with there | there | there | there
      · exact absurd there (released d)
      all_goals simp [there, Stage.pos]
    have zero := (counts_zero sequence.startCount).mpr all
    exact stuck ⟨c, .entering, s, here ▸ Advance.pass zero⟩
  obtain ⟨c, here⟩ := unfinished
  have all : ∀ d, 9 ≤ positions stages d := by
    intro d
    unfold positions
    rcases waits d with there | there | there | there
    · exact absurd there (released d)
    · exact absurd there (started d)
    all_goals simp [there, Stage.pos]
  have zero := (counts_zero sequence.stopCount).mpr all
  rcases waits c with there | there | there | there
  · exact released c there
  · exact started c there
  · exact stuck ⟨c, .done, s, there ▸ Advance.leave zero⟩
  · exact here there

def Stage.left : Stage n → Nat
  | .held => 10
  | .waking others => 10 + others.length
  | stage => 10 - stage.pos

theorem advance_left {c : Fin (n + 1)} {stage stage' : Stage n}
    (advance : Advance p q c stage s stage' t) : stage'.left < stage.left := by
  cases advance <;> simp [Stage.left, Stage.pos]

theorem left_update {c : Fin (n + 1)} {stage' : Stage n}
    (less : stage'.left < (stages c).left) :
    ∑ d, (Function.update stages c stage' d).left < ∑ d, (stages d).left := by
  apply Finset.sum_lt_sum
  · intro d _
    by_cases same : d = c
    · subst same
      simpa using le_of_lt less
    · simp [same]
  · exact ⟨c, Finset.mem_univ c, by simpa using less⟩

end PiKernel.Boot
