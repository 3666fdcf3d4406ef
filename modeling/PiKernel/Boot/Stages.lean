import PiKernel.Lib.Rendezvous
import PiKernel.Boot.Source
import PiKernel.Boot.Objects

/-!
What is left of `kernel_init` once both barriers exist, as a machine: every core
is at one of a few stages, and a step takes one core to its next stage. The
program text of a core determines its stage, and the machine does what the text
does.
-/
namespace PiKernel.Boot
open Program Interleaving HeapModel Rendezvous

inductive Stage (n : Nat) where
  | held
  | waking (others : List (Fin (n + 1)))
  | enabling
  | loading
  | arriving
  | spinning
  | entering
  | running
  | reloading
  | rearriving
  | respinning
  | done

variable {n : Nat}

def together : BootM n Unit := do
  perform .mmuEnable
  sync (← perform .loadStarting)
  kernelMain
  sync (← perform .loadStopping)

/-- What a core at a stage has still to do, the barriers being at `p` and `q`. -/
def Stage.code (p q : Int) : Stage n → BootM n Unit
  | .held => do perform .held; together
  | .waking others => do wakeUpCores others; together
  | .enabling => together
  | .loading => do sync (← perform .loadStarting); kernelMain; sync (← perform .loadStopping)
  | .arriving => do sync p; kernelMain; sync (← perform .loadStopping)
  | .spinning => do perform (.awaitZero p); kernelMain; sync (← perform .loadStopping)
  | .entering => do kernelMain; sync (← perform .loadStopping)
  | .running => do perform .returnMain; sync (← perform .loadStopping)
  | .reloading => do sync (← perform .loadStopping)
  | .rearriving => sync q
  | .respinning => perform (.awaitZero q)
  | .done => return ()

def Stage.pos : Stage n → Nat
  | .held | .waking _ => 0
  | .enabling => 1
  | .loading => 2
  | .arriving => 3
  | .spinning => 4
  | .entering => 5
  | .running => 6
  | .reloading => 7
  | .rearriving => 8
  | .respinning => 9
  | .done => 10

def Stage.log (p q : Int) : Stage n → List Milestone
  | .held | .waking _ | .enabling => []
  | .loading | .arriving => [.mmuEnable]
  | .spinning | .entering => [.arrive p, .mmuEnable]
  | .running => [.enterMain, .arrive p, .mmuEnable]
  | .reloading | .rearriving => [.returnMain, .enterMain, .arrive p, .mmuEnable]
  | .respinning | .done => [.arrive q, .returnMain, .enterMain, .arrive p, .mmuEnable]

def Shared.arrive (s : Shared n) (c : Fin (n + 1)) (p : Int) : Shared n :=
  { s with heap := s.heap.storeBytes p 4 ((s.heap.bytes p 4 + -1) % 2 ^ 32) }.note c (.arrive p)

inductive Advance (p q : Int) (c : Fin (n + 1)) : Stage n → Shared n → Stage n → Shared n → Prop
  | released {s : Shared n} (stored : s.entry c = true) : Advance p q c .held s .enabling s
  | wake {s : Shared n} (d : Fin (n + 1)) (others : List (Fin (n + 1))) :
      Advance p q c (.waking (d :: others)) s (.waking others)
        { s with entry := Function.update s.entry d true }
  | sev {s : Shared n} : Advance p q c (.waking []) s .enabling s
  | enable {s : Shared n} : Advance p q c .enabling s .loading (s.note c .mmuEnable)
  | load {s : Shared n} : Advance p q c .loading s .arriving s
  | arrive {s : Shared n} : Advance p q c .arriving s .spinning (s.arrive c p)
  | pass {s : Shared n} (zero : s.heap.bytes p 4 = 0) : Advance p q c .spinning s .entering s
  | enterMain {s : Shared n} : Advance p q c .entering s .running (s.note c .enterMain)
  | returnMain {s : Shared n} : Advance p q c .running s .reloading (s.note c .returnMain)
  | reload {s : Shared n} : Advance p q c .reloading s .rearriving s
  | rearrive {s : Shared n} : Advance p q c .rearriving s .respinning (s.arrive c q)
  | leave {s : Shared n} (zero : s.heap.bytes q 4 = 0) : Advance p q c .respinning s .done s

section Simulation
variable {p q : Int} {c : Fin (n + 1)} {s t : Shared n} {stage stage' : Stage n}

theorem op_result {o o' : BootOp n} {k : o.Res → BootM n Unit} {k' : o'.Res → BootM n Unit}
    {r : o.Res} {r' : o'.Res} {t' : Shared n}
    (here : (Prog.op o' k' : BootM n Unit) = .op o k) (result : bootExec c o s = some (r, t))
    (known : bootExec c o' s = some (r', t')) : k r = k' r' ∧ t = t' := by
  obtain ⟨rfl, same⟩ := Prog.op.inj here
  obtain rfl := eq_of_heq same
  rw [known] at result
  obtain ⟨rfl, rfl⟩ : r' = r ∧ t' = t := by simpa using result
  exact ⟨rfl, rfl⟩

/-- Every step of the text is a step of the machine. -/
theorem code_advances {o : BootOp n} {k : o.Res → BootM n Unit} {r : o.Res}
    (here : stage.code p q = .op o k) (result : bootExec c o s = some (r, t))
    (starting : s.starting = p) (stopping : s.stopping = q) :
    ∃ stage', k r = stage'.code p q ∧ Advance p q c stage s stage' t := by
  cases stage with
  | held =>
    by_cases stored : s.entry c = true
    · have known : bootExec c .held s = some ((), s) := by simp only [bootExec, stored, ↓reduceIte]
      obtain ⟨next, rfl⟩ := op_result here result known
      exact ⟨.enabling, next, .released stored⟩
    · obtain ⟨rfl, _⟩ := Prog.op.inj here
      exact absurd result (by simp [bootExec, stored])
  | waking others =>
    cases others with
    | nil =>
      obtain ⟨next, rfl⟩ := op_result here result rfl
      exact ⟨.enabling, next, .sev⟩
    | cons d others =>
      obtain ⟨next, rfl⟩ := op_result here result rfl
      exact ⟨.waking others, next, .wake d others⟩
  | enabling =>
    obtain ⟨next, rfl⟩ := op_result here result rfl
    exact ⟨.loading, next, .enable⟩
  | loading =>
    obtain ⟨next, rfl⟩ := op_result here result rfl
    rw [starting] at next
    exact ⟨.arriving, next, .load⟩
  | arriving =>
    obtain ⟨next, rfl⟩ := op_result here result rfl
    exact ⟨.spinning, next, .arrive⟩
  | spinning =>
    by_cases zero : s.heap.bytes p 4 = 0
    · have known : bootExec c (.awaitZero p) s = some ((), s) := by
        simp only [bootExec, zero, ↓reduceIte]
      obtain ⟨next, rfl⟩ := op_result here result known
      exact ⟨.entering, next, .pass zero⟩
    · obtain ⟨rfl, _⟩ := Prog.op.inj here
      exact absurd result (by simp [bootExec, zero])
  | entering =>
    obtain ⟨next, rfl⟩ := op_result here result rfl
    exact ⟨.running, next, .enterMain⟩
  | running =>
    obtain ⟨next, rfl⟩ := op_result here result rfl
    exact ⟨.reloading, next, .returnMain⟩
  | reloading =>
    obtain ⟨next, rfl⟩ := op_result here result rfl
    rw [stopping] at next
    exact ⟨.rearriving, next, .reload⟩
  | rearriving =>
    obtain ⟨next, rfl⟩ := op_result here result rfl
    exact ⟨.respinning, next, .rearrive⟩
  | respinning =>
    by_cases zero : s.heap.bytes q 4 = 0
    · have known : bootExec c (.awaitZero q) s = some ((), s) := by
        simp only [bootExec, zero, ↓reduceIte]
      obtain ⟨next, rfl⟩ := op_result here result known
      exact ⟨.done, next, .leave zero⟩
    · obtain ⟨rfl, _⟩ := Prog.op.inj here
      exact absurd result (by simp [bootExec, zero])
  | done => exact absurd here (by simp [Stage.code])

/-- Every step of the machine is taken by the text. -/
theorem advance_taken (advance : Advance p q c stage s stage' t) (starting : s.starting = p)
    (stopping : s.stopping = q) : ∃ (o : BootOp n) (k : o.Res → BootM n Unit) (r : o.Res),
      stage.code p q = .op o k ∧ bootExec c o s = some (r, t) ∧ k r = stage'.code p q := by
  cases advance with
  | released stored => exact ⟨.held, _, (), rfl, by simp only [bootExec, stored, ↓reduceIte], rfl⟩
  | wake d others => exact ⟨.storeEntry d, _, (), rfl, rfl, rfl⟩
  | sev => exact ⟨.sev, _, (), rfl, rfl, rfl⟩
  | enable => exact ⟨.mmuEnable, _, (), rfl, rfl, rfl⟩
  | load => exact ⟨.loadStarting, _, p, rfl, by simp only [bootExec, starting], rfl⟩
  | arrive => exact ⟨.addFetch p (-1), _, _, rfl, rfl, rfl⟩
  | pass zero => exact ⟨.awaitZero p, _, (), rfl, by simp only [bootExec, zero, ↓reduceIte], rfl⟩
  | enterMain => exact ⟨.enterMain, _, (), rfl, rfl, rfl⟩
  | returnMain => exact ⟨.returnMain, _, (), rfl, rfl, rfl⟩
  | reload => exact ⟨.loadStopping, _, q, rfl, by simp only [bootExec, stopping], rfl⟩
  | rearrive => exact ⟨.addFetch q (-1), _, _, rfl, rfl, rfl⟩
  | leave zero => exact ⟨.awaitZero q, _, (), rfl, by simp only [bootExec, zero, ↓reduceIte], rfl⟩

end Simulation

section Step
variable {p q : Int} {c : Fin (n + 1)} {s t : Shared n} {stage stage' : Stage n}

theorem advance_pos (advance : Advance p q c stage s stage' t) : stage.pos ≤ stage'.pos := by
  cases advance <;> simp [Stage.pos]

theorem advance_log (advance : Advance p q c stage s stage' t)
    (same : s.log c = stage.log p q) : t.log = Function.update s.log c (stage'.log p q) := by
  have kept : Function.update s.log c (stage.log p q) = s.log := by
    rw [← same]
    exact Function.update_eq_self c s.log
  cases advance with
  | enable | arrive | enterMain | returnMain | rearrive =>
    simp only [Shared.note, Shared.arrive, same]
    rfl
  | _ => exact kept.symm

theorem advance_fixed (advance : Advance p q c stage s stage' t) :
    t.starting = s.starting ∧ t.stopping = s.stopping ∧ t.uart = s.uart ∧ t.tables = s.tables ∧
      t.heapReady = s.heapReady ∧ ∀ x, t.heap.wordOf x = s.heap.wordOf x := by
  cases advance <;> exact ⟨rfl, rfl, rfl, rfl, rfl, fun _ => rfl⟩

theorem advance_not_held (advance : Advance p q c stage s stage' t) : stage' ≠ .held := by
  cases advance <;> simp

theorem arrive_other (apart : s.heap.wordOf p ≠ s.heap.wordOf q) :
    (s.arrive c p).heap.bytes q 4 = s.heap.bytes q 4 := bytes_other s.heap apart _

theorem advance_start (advance : Advance p q c stage s stage' t)
    (apart : s.heap.wordOf p ≠ s.heap.wordOf q) :
    ((4 ≤ stage.pos ↔ 4 ≤ stage'.pos) ∧ t.heap.bytes p 4 = s.heap.bytes p 4) ∨
      (stage.pos < 4 ∧ 4 ≤ stage'.pos ∧ t = s.arrive c p) := by
  cases advance with
  | arrive => exact Or.inr ⟨by simp [Stage.pos], by simp [Stage.pos], rfl⟩
  | rearrive => exact Or.inl ⟨by simp [Stage.pos], arrive_other (Ne.symm apart)⟩
  | _ => exact Or.inl ⟨by simp [Stage.pos], rfl⟩

theorem advance_stop (advance : Advance p q c stage s stage' t)
    (apart : s.heap.wordOf p ≠ s.heap.wordOf q) :
    ((9 ≤ stage.pos ↔ 9 ≤ stage'.pos) ∧ t.heap.bytes q 4 = s.heap.bytes q 4) ∨
      (stage.pos < 9 ∧ 9 ≤ stage'.pos ∧ t = s.arrive c q) := by
  cases advance with
  | arrive => exact Or.inl ⟨by simp [Stage.pos], arrive_other apart⟩
  | rearrive => exact Or.inr ⟨by simp [Stage.pos], by simp [Stage.pos], rfl⟩
  | _ => exact Or.inl ⟨by simp [Stage.pos], rfl⟩

/-- Past a barrier only from beyond it or over its zero. -/
theorem advance_gates (advance : Advance p q c stage s stage' t) :
    (5 ≤ stage'.pos → 5 ≤ stage.pos ∨ s.heap.bytes p 4 = 0) ∧
      (10 ≤ stage'.pos → 10 ≤ stage.pos ∨ s.heap.bytes q 4 = 0) := by
  cases advance with
  | pass zero => exact ⟨fun _ => Or.inr zero, by simp [Stage.pos]⟩
  | leave zero => exact ⟨by simp [Stage.pos], fun _ => Or.inr zero⟩
  | _ => simp [Stage.pos]

theorem advance_entry (advance : Advance p q c stage s stage' t) (d : Fin (n + 1))
    (stored : s.entry d = true) : t.entry d = true := by
  cases advance with
  | wake e others =>
    by_cases same : d = e
    · simp [same]
    · simpa [same] using stored
  | _ => exact stored

end Step

section Counts
variable {p q : Int} {c : Fin (n + 1)} {s t : Shared n} {pos : Fin (n + 1) → Nat} {k r : Nat}

def Counts (s : Shared n) (pos : Fin (n + 1) → Nat) (p : Int) (k : Nat) : Prop :=
  s.heap.bytes p 4 = (n + 1 : Nat) - (reached pos k : Int)

theorem counts_keep (counts : Counts s pos p k) (word : t.heap.bytes p 4 = s.heap.bytes p 4)
    (same : k ≤ pos c ↔ k ≤ r) : Counts t (Function.update pos c r) p k := by
  unfold Counts
  rw [word, reached_keep same]
  exact counts

theorem counts_arrive (counts : Counts s pos p k) (small : n + 1 < 2 ^ 32) (behind : pos c < k)
    (there : k ≤ r) : Counts (s.arrive c p) (Function.update pos c r) p k := by
  have room := reached_lt behind
  rw [Fintype.card_fin] at room
  unfold Counts at counts ⊢
  have less : (s.heap.bytes p 4 + -1) % 2 ^ 32 = s.heap.bytes p 4 + -1 := by omega
  have stored : (s.arrive c p).heap.bytes p 4 = s.heap.bytes p 4 + -1 := by
    unfold Shared.arrive
    rw [less]
    exact bytes_storeBytes s.heap p (by omega) (by omega)
  rw [stored, reached_pass behind there]
  omega

theorem counts_positive (counts : Counts s pos p k) (behind : pos c < k) :
    0 < s.heap.bytes p 4 := by
  have room := reached_lt behind
  rw [Fintype.card_fin] at room
  unfold Counts at counts
  omega

theorem counts_zero (counts : Counts s pos p k) : s.heap.bytes p 4 = 0 ↔ ∀ d, k ≤ pos d := by
  have most := reached_le pos k
  have all := reached_all pos k
  rw [Fintype.card_fin] at most all
  unfold Counts at counts
  constructor
  · intro zero
    exact all.mp (by omega)
  · intro there
    have full := all.mpr there
    omega

end Counts

end PiKernel.Boot
