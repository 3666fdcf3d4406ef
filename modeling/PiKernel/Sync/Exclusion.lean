import PiKernel.Lib.Interleaving
import PiKernel.Sync.SpinLock

/-!
`SpinLock` excludes, whatever its event registers do, and each of its runs is a
run of the plain lock loop in which the consoles and the heap are modelled: the
two `wfe` decide when a core tries the lock, never whether it gets it.
-/
namespace PiKernel.SpinLock
open Transition Program Interleaving

variable {Core : Type} [DecidableEq Core]

/-- The flag is up exactly while some core is between `lock` and `unlock`, and then
    it is one core. -/
structure Exclusive (s : State Core) : Prop where
  alone : ∀ c d, s.pc c = .held → s.pc d = .held → c = d
  taken : s.taken = true ↔ ∃ c, s.pc c = .held

omit [DecidableEq Core] in
theorem fresh_exclusive {s : State Core} (fresh : Fresh s) : Exclusive s := by
  constructor
  · intro c d held
    rw [fresh.outside c] at held
    exact absurd held (by decide)
  · constructor
    · intro taken
      rw [fresh.free] at taken
      exact absurd taken (by decide)
    · rintro ⟨c, held⟩
      rw [fresh.outside c] at held
      exact absurd held (by decide)

theorem exclusive_keep {s t : State Core} {c : Core} (pc : Pc) (exclusive : Exclusive s)
    (before : s.pc c ≠ .held) (after : pc ≠ .held) (moved : t.pc = Function.update s.pc c pc)
    (flag : t.taken = s.taken) : Exclusive t := by
  have same : ∀ d, t.pc d = .held ↔ s.pc d = .held := by
    intro d
    by_cases own : d = c
    · subst own
      simp [moved, before, after]
    · simp [moved, own]
  constructor
  · intro d e heldD heldE
    exact exclusive.alone d e ((same d).mp heldD) ((same e).mp heldE)
  · rw [flag, exclusive.taken]
    exact exists_congr fun d => (same d).symm

theorem step_exclusive {s t : State Core} {e : Core × Act} (exclusive : Exclusive s)
    (step : Step s e t) : Exclusive t := by
  cases step with
  | call here => exact exclusive_keep _ exclusive (by simp [here]) (by decide) rfl rfl
  | ldxr here => exact exclusive_keep _ exclusive (by simp [here]) (by decide) rfl rfl
  | @pass c site here set =>
    have awake : afterWfe site ≠ .held := by cases site <;> decide
    exact exclusive_keep _ exclusive (by simp [here]) awake rfl rfl
  | suspend here clear => exact exclusive_keep _ exclusive (by simp [here]) (by simp) rfl rfl
  | @wake c site here set =>
    have awake : afterWfe site ≠ .held := by cases site <;> decide
    exact exclusive_keep _ exclusive (by simp [here]) awake rfl rfl
  | @win c here free =>
    have nobody : ∀ d, s.pc d ≠ .held := by
      intro d held
      have taken := exclusive.taken.mpr ⟨d, held⟩
      rw [free] at taken
      exact absurd taken (by decide)
    have only : ∀ d, ((s.storeExclusive c true).goto c .held).pc d = .held → d = c := by
      intro d held
      by_contra other
      exact nobody d (by simpa [State.goto, State.storeExclusive, State.store, other] using held)
    constructor
    · intro d e heldD heldE
      rw [only d heldD, only e heldE]
    · constructor
      · intro _
        exact ⟨c, by simp [State.goto]⟩
      · intro _
        rfl
  | @lose c here taken =>
    apply exclusive_keep (.wfe .stuck) exclusive (c := c) (by simp [here]) (by simp) rfl
    exact taken.symm
  | @unlock c here =>
    have nobody : ∀ d, ((s.store c false).goto c .outside).pc d ≠ .held := by
      intro d held
      by_cases own : d = c
      · subst own
        simp [State.goto] at held
      · have still : s.pc d = .held := by simpa [State.goto, State.store, own] using held
        exact own (exclusive.alone d c still here)
    constructor
    · intro d e held
      exact absurd held (nobody d)
    · constructor
      · intro up
        exact absurd up (by simp [State.goto, State.store])
      · rintro ⟨d, held⟩
        exact absurd held (nobody d)

theorem reach_exclusive {s : State Core} (reach : Reachable (spinLock Fresh) s) :
    Exclusive s :=
  reachable_invariant (fun _ => fresh_exclusive) (fun _ _ _ => step_exclusive) reach

def winning (s : State Core) (c : Core) : List (State Core × (Core × Act)) :=
  let called := s.goto c .ldxr
  let loaded := { called.goto c (.wfe .monitor) with armed := Function.update called.armed c true }
  let passed := { loaded.goto c .exchange with event := Function.update loaded.event c false }
  [(passed, (c, .exchange)), (loaded, (c, .wfe)), (called, (c, .ldxr)), (s, (c, .call))]

theorem winning_run : ∃ s, Run (spinLock Fresh) (winning first 0) s ∧ s.pc 0 = .held := by
  have run₀ : Run (spinLock Fresh) [] first := .start ⟨rfl, fun _ => rfl⟩
  have run₁ := run₀.next (.call (c := 0) rfl)
  have run₂ := run₁.next (.ldxr (c := 0) rfl)
  have run₃ := run₂.next (.pass (c := 0) rfl rfl)
  exact ⟨_, run₃.next (.win (c := 0) rfl rfl), rfl⟩

inductive LockOp where
  | lock
  | unlock
  deriving DecidableEq

abbrev LockI : Interface := ⟨LockOp, fun _ => Unit⟩

def lockExec (c : Core) : Exec LockI (Option Core)
  | .lock, none => some ((), some c)
  | .lock, some _ => none
  | .unlock, _ => some ((), none)

def lockings (n : Nat) : Prog LockI Unit := sections LockOp.lock LockOp.unlock (.ret ()) n

def lockCores (N : Core → Nat) : System (Threads Core LockI (Option Core)) Core where
  init S := S.mem = none ∧ S.code = (fun c => lockings (N c)) ∧ S.phase = fun _ => .arm
  step := ThreadStep lockExec (· = .lock)

def remaining : Pc → Nat → Prog LockI Unit
  | .outside, n => lockings n
  | .held, n => (locked LockOp.unlock (.ret ())).bind fun _ => lockings n
  | _, n => lockings (n + 1)

/-- The first `wfe` comes before the exchange, the second after a lost one. -/
def phaseOf : Pc → Phase
  | .exchange => .attempt
  | .wfe .stuck | .asleep .stuck => .doze
  | _ => .arm

structure Abstracts (S : Threads Core LockI (Option Core)) (s : State Core)
    (left : Core → Nat) : Prop where
  mem : ∀ c, S.mem = some c ↔ s.pc c = .held
  code : ∀ c, S.code c = remaining (s.pc c) (left c)
  phase : ∀ c, S.phase c = phaseOf (s.pc c)

def calls (past : List (State Core × (Core × Act))) (c : Core) : Nat :=
  past.countP fun x => x.2 = (c, .call)

theorem calls_other {past : List (State Core × (Core × Act))} {s : State Core} {e : Core × Act}
    {c : Core} (other : e ≠ (c, .call)) : calls ((s, e) :: past) c = calls past c := by
  simp [calls, other]

theorem calls_same (past : List (State Core × (Core × Act))) (s : State Core) (c : Core) :
    calls ((s, (c, .call)) :: past) c = calls past c + 1 := by
  simp [calls]

section Follow
variable {S : Threads Core LockI (Option Core)} {s t : State Core} {left left' : Core → Nat}
  {c : Core} {pc : Pc}

theorem abstracts_turn (abstracts : Abstracts S s left) (before : s.pc c ≠ .held)
    (after : pc ≠ .held) (moved : t.pc = Function.update s.pc c pc)
    (own : remaining pc (left' c) = remaining (s.pc c) (left c))
    (others : ∀ d, d ≠ c → left' d = left d) : Abstracts (S.turn c (phaseOf pc)) t left' := by
  constructor
  · intro d
    rw [moved]
    by_cases same : d = c
    · subst same
      have idle := (abstracts.mem d).not.mpr before
      simpa [after] using idle
    · simpa [same] using abstracts.mem d
  · intro d
    rw [moved]
    by_cases same : d = c
    · subst same
      simpa [own] using abstracts.code d
    · simpa [same, others d same] using abstracts.code d
  · intro d
    rw [moved]
    by_cases same : d = c
    · subst same
      simp [Threads.turn]
    · simpa [Threads.turn, same] using abstracts.phase d

theorem abstracts_goOn {mem : Option Core} (abstracts : Abstracts S s left)
    (moved : t.pc = Function.update s.pc c pc) (mine : mem = some c ↔ pc = .held)
    (theirs : ∀ d, d ≠ c → mem ≠ some d ∧ s.pc d ≠ .held) (arm : phaseOf pc = .arm) :
    Abstracts (S.goOn c mem (remaining pc (left c))) t left := by
  constructor
  · intro d
    rw [moved]
    by_cases same : d = c
    · subst same
      simpa using mine
    · simpa [same] using iff_of_false (theirs d same).1 (theirs d same).2
  · intro d
    rw [moved]
    by_cases same : d = c
    · subst same
      simp [Threads.goOn]
    · simpa [Threads.goOn, same] using abstracts.code d
  · intro d
    rw [moved]
    by_cases same : d = c
    · subst same
      simp [Threads.goOn, arm]
    · simpa [Threads.goOn, same] using abstracts.phase d

def Turns (mem : Option Core) (before after : Phase) : Prop :=
  after = before ∨ (before = .arm ∧ after = .attempt) ∨ (before = .doze ∧ after = .arm) ∨
    (before = .attempt ∧ after = .doze ∧ mem ≠ none)

theorem turn_step {N : Core → Nat} {n : Nat} {phase : Phase} (here : S.code c = lockings (n + 1))
    (turns : Turns S.mem (S.phase c) phase) :
    S.turn c phase = S ∨ (lockCores N).step S c (S.turn c phase) := by
  rcases turns with same | ⟨arm, rfl⟩ | ⟨doze, rfl⟩ | ⟨attempt, rfl, taken⟩
  · left
    rw [same, turn_same]
  · right
    exact .arm here rfl arm
  · right
    exact .doze here rfl doze
  · right
    have refused : lockExec c .lock S.mem = none := by
      cases holder : S.mem with
      | none => exact absurd holder taken
      | some d => rfl
    exact .lose here rfl attempt refused

theorem wait_followed (pc : Pc) {past : List (State Core × (Core × Act))} {e : Core × Act}
    {N : Core → Nat} (abstracts : Abstracts S s fun c => N c - calls past c)
    (here : remaining (s.pc c) = fun n => lockings (n + 1))
    (there : remaining pc = fun n => lockings (n + 1)) (quiet : e.2 ≠ .call)
    (before : s.pc c ≠ .held) (after : pc ≠ .held) (moved : t.pc = Function.update s.pc c pc)
    (turns : Turns S.mem (phaseOf (s.pc c)) (phaseOf pc)) :
    ∃ T, Abstracts T t (fun c => N c - calls ((s, e) :: past) c) ∧
      (T = S ∨ ∃ c, (lockCores N).step S c T) := by
  have still : ∀ d, calls ((s, e) :: past) d = calls past d := by
    intro d
    apply calls_other
    rintro rfl
    exact quiet rfl
  refine ⟨S.turn c (phaseOf pc), ?_, ?_⟩
  · apply abstracts_turn abstracts before after moved
    · rw [here, there, still]
    · intro d _
      rw [still]
  · have code := abstracts.code c
    rw [here] at code
    rw [← abstracts.phase c] at turns
    rcases turn_step code turns with same | step
    · exact Or.inl same
    · exact Or.inr ⟨c, step⟩

end Follow

/-- Each step of the spin lock is a step of the lock loop, or none. -/
theorem step_followed {past : List (State Core × (Core × Act))} {s t : State Core}
    {e : Core × Act} {S : Threads Core LockI (Option Core)} {N : Core → Nat}
    (exclusive : Exclusive s) (abstracts : Abstracts S s fun c => N c - calls past c)
    (enough : ∀ c, calls ((s, e) :: past) c ≤ N c) (step : Step s e t) :
    ∃ T, Abstracts T t (fun c => N c - calls ((s, e) :: past) c) ∧
      (T = S ∨ ∃ c, (lockCores N).step S c T) := by
  cases step with
  | @call c here =>
    have more := enough c
    rw [calls_same] at more
    refine ⟨S, ?_, Or.inl rfl⟩
    have still : S.turn c (phaseOf .ldxr) = S := by
      rw [show phaseOf .ldxr = S.phase c by rw [abstracts.phase c, here]; rfl, turn_same]
    rw [← still]
    apply abstracts_turn abstracts (by simp [here]) (by decide) rfl
    · rw [here, calls_same]
      show lockings (N c - (calls past c + 1) + 1) = lockings (N c - calls past c)
      rw [show N c - (calls past c + 1) + 1 = N c - calls past c by omega]
    · intro d other
      rw [calls_other (by simpa using Ne.symm other)]
  | @ldxr c here =>
    apply wait_followed (.wfe .monitor) abstracts (c := c) (by rw [here]; rfl) rfl (by simp)
      (by simp [here]) (by simp) rfl
    rw [here]
    exact Or.inl rfl
  | @pass c site here set =>
    apply wait_followed (afterWfe site) abstracts (c := c) (by rw [here]; rfl)
      (by cases site <;> rfl) (by simp) (by simp [here]) (by cases site <;> decide) rfl
    rw [here]
    cases site with
    | monitor => exact Or.inr (Or.inl ⟨rfl, rfl⟩)
    | stuck => exact Or.inr (Or.inr (Or.inl ⟨rfl, rfl⟩))
  | @suspend c site here clear =>
    apply wait_followed (.asleep site) abstracts (c := c) (by rw [here]; rfl) rfl (by simp)
      (by simp [here]) (by simp) rfl
    rw [here]
    cases site <;> exact Or.inl rfl
  | @wake c site here set =>
    apply wait_followed (afterWfe site) abstracts (c := c) (by rw [here]; rfl)
      (by cases site <;> rfl) (by simp) (by simp [here]) (by cases site <;> decide) rfl
    rw [here]
    cases site with
    | monitor => exact Or.inr (Or.inl ⟨rfl, rfl⟩)
    | stuck => exact Or.inr (Or.inr (Or.inl ⟨rfl, rfl⟩))
  | @win c here free =>
    have nobody : ∀ d, s.pc d ≠ .held := by
      intro d held
      have taken := exclusive.taken.mpr ⟨d, held⟩
      rw [free] at taken
      exact absurd taken (by decide)
    have empty : S.mem = none := by
      cases holder : S.mem with
      | none => rfl
      | some d => exact absurd ((abstracts.mem d).mp holder) (nobody d)
    have code := abstracts.code c
    have phase := abstracts.phase c
    rw [here] at code phase
    have still : (fun d => N d - calls ((s, (c, Act.exchange)) :: past) d) =
        fun d => N d - calls past d := by
      funext d
      rw [calls_other (by simp)]
    rw [still]
    refine ⟨S.goOn c (some c) (remaining .held (N c - calls past c)), ?_, Or.inr ⟨c, ?_⟩⟩
    · apply abstracts_goOn abstracts rfl (by simp)
      · intro d other
        exact ⟨by simpa using Ne.symm other, nobody d⟩
      · rfl
    · have taken : lockExec c .lock S.mem = some ((), some c) := by rw [empty]; rfl
      exact .win code rfl phase taken
  | @lose c here taken =>
    apply wait_followed (.wfe .stuck) abstracts (c := c) (by rw [here]; rfl) rfl (by simp)
      (by simp [here]) (by simp) rfl
    rw [here]
    obtain ⟨d, held⟩ := exclusive.taken.mp taken
    refine Or.inr (Or.inr (Or.inr ⟨rfl, rfl, ?_⟩))
    rw [(abstracts.mem d).mpr held]
    simp
  | @unlock c here =>
    have code := abstracts.code c
    rw [here] at code
    have still : (fun d => N d - calls ((s, (c, Act.unlock)) :: past) d) =
        fun d => N d - calls past d := by
      funext d
      rw [calls_other (by simp)]
    rw [still]
    refine ⟨S.goOn c none (remaining .outside (N c - calls past c)), ?_, Or.inr ⟨c, ?_⟩⟩
    · apply abstracts_goOn abstracts rfl (by simp)
      · intro d other
        refine ⟨by simp, ?_⟩
        intro held
        exact other (exclusive.alone d c held here)
      · rfl
    · have given : lockExec c .unlock S.mem = some ((), none) := rfl
      exact .perform code (by decide) given

def Follows (N : Core → Nat) (past : List (State Core × (Core × Act))) (s : State Core)
    (S : Threads Core LockI (Option Core)) : Prop :=
  (∀ c, calls past c ≤ N c) → Abstracts S s fun c => N c - calls past c

/-- The spin lock, event registers and monitors at their worst, excludes, and every run of
    it is a run of the lock loop: a core holds the lock in the one exactly when it does
    in the other. -/
theorem spinLock_refines {past : List (State Core × (Core × Act))} {s : State Core}
    (run : Run (spinLock Fresh) past s) (N : Core → Nat) (enough : ∀ c, calls past c ≤ N c) :
    Exclusive s ∧ ∃ S, Reachable (lockCores N) S ∧ Abstracts S s fun c => N c - calls past c := by
  have base : ∀ s, Fresh s → ∃ S, (lockCores N).init S ∧ Follows N [] s S := by
    intro s fresh
    refine ⟨⟨none, fun c => lockings (N c), fun _ => .arm⟩, ⟨rfl, rfl, rfl⟩, ?_⟩
    intro _
    constructor
    · intro c
      simp [fresh.outside c]
    · intro c
      rw [fresh.outside c]
      rfl
    · intro c
      rw [fresh.outside c]
      rfl
  have follow : ∀ past s e t S, Run (spinLock Fresh) past s → Reachable (lockCores N) S →
      Follows N past s S → Step s e t →
      ∃ T, Follows N ((s, e) :: past) t T ∧ (T = S ∨ ∃ c, (lockCores N).step S c T) := by
    intro past s e t S before reach follows step
    by_cases more : ∀ c, calls ((s, e) :: past) c ≤ N c
    · have fewer : ∀ c, calls past c ≤ N c := by
        intro c
        exact Nat.le_trans (by simp [calls, List.countP_cons]) (more c)
      obtain ⟨T, after, same⟩ := step_followed (reach_exclusive ⟨past, before⟩) (follows fewer)
        more step
      exact ⟨T, fun _ => after, same⟩
    · exact ⟨S, fun all => absurd all more, Or.inl rfl⟩
  obtain ⟨S, reach, follows⟩ := run_simulated base follow run
  exact ⟨reach_exclusive ⟨past, run⟩, S, reach, follows enough⟩

theorem spinLock_refines_winning : ∃ S, Reachable (lockCores fun _ : Fin 2 => 1) S ∧
    S.mem = some 0 := by
  obtain ⟨s, run, held⟩ := winning_run
  have once : ∀ c : Fin 2, calls (winning first 0) c ≤ 1 := by decide
  obtain ⟨_, S, reach, abstracts⟩ := spinLock_refines run (fun _ => 1) once
  exact ⟨S, reach, (abstracts.mem 0).mpr held⟩

end PiKernel.SpinLock
