import PiKernel.Lib.Interleaving
import PiKernel.Console.Source

/-!
`printf`, `panic` and faults on any number of cores. Every program of the console
takes and gives back the printf lock in turn, except `panic`, which calls
`printf` while it holds it.
-/
namespace PiKernel.Console
open Program Transition Interleaving

variable {Core : Type}

inductive Job where
  | idle
  | printing
  | panicking (fmt : String) (va : List Arg)
  | faulted

structure Machine (Core : Type) extends Threads Core ConsoleI (Shared Core) where
  job : Core → Job

inductive Act where
  | turn
  | printf (fmt : String) (va : List Arg)
  | panic (fmt : String) (va : List Arg)
  | fault (e : Exception)

/-- Waiting for the printf lock that the core itself holds. -/
def SelfDeadlock (S : Machine Core) (c : Core) : Prop :=
  (∃ k, S.code c = @Prog.op ConsoleI Unit (ConsoleOp.lock .printf) k) ∧
    S.mem.owner .printf = some c

def panicText (out : List Char) : List Char :=
  cooked ("\n***** KERNEL PANIC *****\n".toList ++ out ++ ['\n'])

structure EmergencyOutput (S : Machine Core) : Prop where
  free : ∀ c, ¬ SelfDeadlock S c
  shown : ∀ c fmt va out, S.job c = .panicking fmt va → S.code c = wfiLoop →
    tfpFormat fmt va = some out → panicText out <:+: S.mem.text

/-- `panic`'s own exchange wins the lock, or the holder of the lock faults. -/
def Doomed (S : Machine Core) : Core × Act → Prop
  | (c, .turn) => (∃ fmt va, S.code c = panic fmt va) ∧ S.phase c = .attempt ∧
      S.mem.owner .printf = none
  | (c, .fault _) => S.mem.owner .printf = some c
  | _ => False

abbrev LockPaired {α : Type} (first last : Bool) (p : ConsoleM α) : Prop :=
  Paired (ConsoleOp.lock .printf : ConsoleI.Op) (ConsoleOp.unlock .printf) first last p

theorem putc_paired (held : Bool) (c : Char) : LockPaired held held (uartPutc c) :=
  .other (by simp) (by simp) fun _ => .ret ()

theorem putf_paired (held : Bool) (c : Char) : LockPaired held held (uartPutcWrapper c) := by
  unfold uartPutcWrapper
  split
  · exact paired_bind (putc_paired held '\r') fun _ => putc_paired held c
  · exact putc_paired held c

theorem putAll_paired (held : Bool) (out : List Char) : LockPaired held held (putAll out) := by
  induction out with
  | nil => exact .ret ()
  | cons c out ih => exact paired_bind (putf_paired held c) fun _ => ih

theorem format_paired (held : Bool) (fmt : String) (va : List Arg) :
    LockPaired held held (format fmt va) := by
  unfold format
  split
  · exact putAll_paired held _
  · exact .other (by simp) (by simp) fun _ => .ret ()

theorem printf_paired (fmt : String) (va : List Arg) : LockPaired false false (printf fmt va) := by
  apply Paired.take
  intro _
  apply paired_bind (format_paired true fmt va)
  intro _
  exact .give fun _ => .ret ()

theorem printType_paired (type : Nat) : LockPaired false false (printType type) := by
  unfold printType
  split
  · exact printf_paired _ _
  · exact printf_paired _ _
  · exact printf_paired _ _
  · exact printf_paired _ _
  · exact .ret ()

theorem excHandler_paired (e : Exception) : LockPaired false false (excHandler e) := by
  unfold excHandler
  apply paired_bind (printType_paired e.type)
  intro _
  apply paired_bind (printf_paired _ _)
  intro _
  apply paired_bind (printf_paired _ _)
  intro _
  have final : LockPaired false false (do
      printf ":\n  ESR_EL1 0x%X ELR_EL1 0x%X\n SPSR_EL1 0%xX FAR_EL1 0x%X\n"
        [.word e.esr, .word e.elr, .word e.spsr, .word e.far]
      spinLoop) :=
    paired_bind (printf_paired _ _) fun _ => .other (by simp) (by simp) fun _ => .ret ()
  split
  · apply paired_bind (printf_paired _ _)
    intro _
    apply paired_bind (printf_paired _ _)
    intro _
    exact paired_bind (printf_paired _ _) fun _ => final
  · exact final

theorem excHandler_locks (e : Exception) :
    ∃ k, excHandler e = @Prog.op ConsoleI Unit (ConsoleOp.lock .printf) k := by
  unfold excHandler printType
  split <;> exact ⟨_, rfl⟩

theorem printf_locks (fmt : String) (va : List Arg) (rest : Unit → ConsoleM Unit) :
    ∃ k, (printf fmt va).bind rest = @Prog.op ConsoleI Unit (ConsoleOp.lock .printf) k := ⟨_, rfl⟩

theorem panic_locks (fmt : String) (va : List Arg) :
    ∃ k, panic fmt va = @Prog.op ConsoleI Unit (ConsoleOp.lock .printf) k ∧
      ∃ rest, k () = (printf "\n***** KERNEL PANIC *****\n" []).bind rest := ⟨_, rfl, _, rfl⟩

variable [DecidableEq Core]

def Machine.jump (S : Machine Core) (c : Core) (code : ConsoleM Unit) (job : Job) :
    Machine Core where
  toThreads := S.toThreads.goOn c S.mem code
  job := Function.update S.job c job

inductive MachineStep : Machine Core → Core × Act → Machine Core → Prop where
  | turn {S : Machine Core} {c : Core} {T : Threads Core ConsoleI (Shared Core)}
      (step : ThreadStep consoleExec Waits S.toThreads c T) :
      MachineStep S (c, .turn) { S with toThreads := T }
  | printf {S : Machine Core} {c : Core} {fmt : String} {va : List Arg}
      (idle : S.code c = .ret ()) :
      MachineStep S (c, .printf fmt va) (S.jump c (Console.printf fmt va) .printing)
  | panic {S : Machine Core} {c : Core} {fmt : String} {va : List Arg}
      (idle : S.code c = .ret ()) :
      MachineStep S (c, .panic fmt va) (S.jump c (Console.panic fmt va) (.panicking fmt va))
  | fault {S : Machine Core} {c : Core} {e : Exception} :
      MachineStep S (c, .fault e) (S.jump c (excHandler e) .faulted)

structure Rested (S : Machine Core) : Prop where
  free : S.mem.owner .printf = none
  code : ∀ c, S.code c = .ret ()
  job : ∀ c, S.job c = .idle

def machine : System (Machine Core) (Core × Act) where
  init := Rested
  step := MachineStep

/-- A core that is not still before the lock of its panic holds the printf lock just
    when its code says so. -/
def Orderly (S : Machine Core) (c : Core) : Prop :=
  (∃ fmt va, S.job c = .panicking fmt va ∧ S.code c = panic fmt va ∧
    S.mem.owner .printf ≠ some c) ∨
  ((∀ fmt va, S.job c ≠ .panicking fmt va) ∧ ∃ held, LockPaired held false (S.code c) ∧
    (S.mem.owner .printf = some c ↔ held = true))

omit [DecidableEq Core] in
theorem orderly_free {S : Machine Core} {c : Core} (orderly : Orderly S c) :
    ¬ SelfDeadlock S c := by
  intro dead
  obtain ⟨⟨k, here⟩, mine⟩ := dead
  rcases orderly with ⟨_, _, _, _, other⟩ | ⟨_, held, paired, holds⟩
  · exact other mine
  · rw [here] at paired
    have taken := holds.mp mine
    rw [(paired_op (by simp) paired).1 rfl] at taken
    exact absurd taken (by decide)

omit [DecidableEq Core] in
theorem orderly_output {S : Machine Core} (orderly : ∀ c, Orderly S c) : EmergencyOutput S where
  free := fun c => orderly_free (orderly c)
  shown := by
    intro c fmt va out job loop
    rcases orderly c with ⟨fmt', va', _, code, _⟩ | ⟨calm, _⟩
    · obtain ⟨k, first, _⟩ := panic_locks fmt' va'
      rw [code, first] at loop
      exact absurd (Prog.op.inj loop).1 (by simp)
    · exact absurd job (calm fmt va)

omit [DecidableEq Core] in
/-- What other cores do leaves a core orderly: they take a free lock or give back theirs. -/
theorem orderly_frame {S T : Machine Core} {d : Core} (orderly : Orderly S d)
    (code : T.code d = S.code d) (job : T.job d = S.job d)
    (owner : T.mem.owner .printf = some d ↔ S.mem.owner .printf = some d) : Orderly T d := by
  unfold Orderly
  rw [code, job, ne_eq, owner]
  exact orderly

theorem orderly_perform {S : Machine Core} {c : Core} {o : ConsoleOp} {t : Shared Core} {r : o.Res}
    {k : o.Res → ConsoleM Unit} {held : Bool} (orderly : ∀ d, d ≠ c → Orderly S d)
    (calm : ∀ fmt va, S.job c ≠ .panicking fmt va)
    (paired : LockPaired held false (@Prog.op ConsoleI Unit o k))
    (holds : S.mem.owner .printf = some c ↔ held = true)
    (result : consoleExec c o S.mem = some (r, t)) :
    ∀ d, Orderly { S with toThreads := S.toThreads.goOn c t (k r) } d := by
  obtain ⟨taking, giving, rest⟩ := paired_op (by simp) paired
  obtain ⟨free, after⟩ := exec_owner .printf result
  intro d
  by_cases same : d = c
  · subst same
    have next : (S.toThreads.goOn d t (k r)).code d = k r := by simp [Threads.goOn]
    refine Or.inr ⟨calm, _, next ▸ rest r, ?_⟩
    have mem : (S.toThreads.goOn d t (k r)).mem = t := rfl
    rw [mem, after]
    by_cases lock : o = .lock .printf
    · simp [lock]
    · by_cases unlock : o = .unlock .printf
      · simp [unlock]
      · simp only [lock, unlock, ↓reduceIte]
        exact holds
  · apply orderly_frame (orderly d same)
    · simp [Threads.goOn, same]
    · rfl
    · have other : ¬ some c = some d := fun equal => same (Option.some.inj equal).symm
      simp only [Threads.goOn, after]
      by_cases lock : o = .lock .printf
      · simp [lock, free lock, Ne.symm same]
      · by_cases unlock : o = .unlock .printf
        · simp [unlock, holds.mpr (giving unlock), Ne.symm same]
        · simp only [lock, unlock, ↓reduceIte]

theorem orderly_turn {S : Machine Core} {c : Core} {T : Threads Core ConsoleI (Shared Core)}
    (orderly : ∀ d, Orderly S d) (sound : ¬ Doomed S (c, .turn))
    (step : ThreadStep consoleExec Waits S.toThreads c T) :
    ∀ d, Orderly { S with toThreads := T } d := by
  rcases step_cases step with ⟨o, k, r, t, here, result, attempt, rfl⟩ | ⟨phase, rfl⟩
  · rcases orderly c with ⟨fmt, va, _, code, _⟩ | ⟨calm, held, paired, holds⟩
    · obtain ⟨k', first, _⟩ := panic_locks fmt va
      rw [code, first] at here
      obtain ⟨rfl, _⟩ := Prog.op.inj here
      refine absurd ⟨⟨fmt, va, code⟩, attempt ⟨.printf, rfl⟩, ?_⟩ sound
      exact (exec_owner .printf result).1 rfl
    · rw [here] at paired
      exact orderly_perform (fun d _ => orderly d) calm paired holds result
  · intro d
    exact orderly_frame (orderly d) rfl rfl Iff.rfl

omit [DecidableEq Core] in
theorem orderly_idle {S : Machine Core} {c : Core} (orderly : Orderly S c)
    (idle : S.code c = .ret ()) : S.mem.owner .printf ≠ some c := by
  rcases orderly with ⟨_, _, _, _, other⟩ | ⟨_, held, paired, holds⟩
  · exact other
  · intro mine
    rw [idle, holds.mp mine] at paired
    cases paired

theorem orderly_jump {S : Machine Core} {c : Core} {code : ConsoleM Unit} {job : Job}
    (orderly : ∀ d, Orderly S d) (own : Orderly (S.jump c code job) c) :
    ∀ d, Orderly (S.jump c code job) d := by
  intro d
  by_cases same : d = c
  · subst same
    exact own
  · apply orderly_frame (orderly d)
    · simp [Machine.jump, Threads.goOn, same]
    · simp [Machine.jump, same]
    · exact Iff.rfl

theorem paired_orderly {S : Machine Core} {c : Core} {code : ConsoleM Unit} {job : Job}
    (paired : LockPaired false false code) (calm : ∀ fmt va, job ≠ .panicking fmt va)
    (other : S.mem.owner .printf ≠ some c) : Orderly (S.jump c code job) c := by
  refine Or.inr ⟨?_, false, ?_, ?_⟩
  · simpa [Machine.jump] using calm
  · simpa [Machine.jump, Threads.goOn] using paired
  · simpa [Machine.jump, Threads.goOn] using other

theorem orderly_step {S T : Machine Core} {e : Core × Act} (orderly : ∀ c, Orderly S c)
    (sound : ¬ Doomed S e) (step : MachineStep S e T) : ∀ c, Orderly T c := by
  cases step with
  | turn step => exact orderly_turn orderly sound step
  | @printf c fmt va idle =>
    have other := orderly_idle (orderly c) idle
    exact orderly_jump orderly (paired_orderly (printf_paired fmt va) (by simp) other)
  | @panic c fmt va idle =>
    have other := orderly_idle (orderly c) idle
    apply orderly_jump orderly
    refine Or.inl ⟨fmt, va, ?_, ?_, other⟩
    · simp [Machine.jump]
    · simp [Machine.jump, Threads.goOn]
  | @fault c e =>
    exact orderly_jump orderly (paired_orderly (excHandler_paired e) (by simp) sound)

theorem doomed_step {S T : Machine Core} {e : Core × Act} (doomed : Doomed S e)
    (step : MachineStep S e T) : SelfDeadlock T e.1 := by
  cases step with
  | @turn c T step =>
    obtain ⟨⟨fmt, va, code⟩, attempt, free⟩ := doomed
    obtain ⟨k, first, rest, second⟩ := panic_locks fmt va
    rw [first] at code
    have waiting : Waits (ConsoleOp.lock .printf) := ⟨.printf, rfl⟩
    have won := @lock_free Core c .printf S.mem free
    cases step with
    | perform here plain result =>
      rw [code] at here
      obtain ⟨rfl, _⟩ := Prog.op.inj here
      exact absurd waiting plain
    | arm here waiting phase =>
      rw [attempt] at phase
      exact absurd phase (by decide)
    | win here waiting phase result =>
      rw [code] at here
      obtain ⟨rfl, same⟩ := Prog.op.inj here
      obtain rfl := eq_of_heq same
      obtain rfl := exec_state result won
      obtain ⟨k', third⟩ := printf_locks "\n***** KERNEL PANIC *****\n" [] rest
      refine ⟨⟨k', ?_⟩, own_same S.mem .printf (some c)⟩
      rw [← third, ← second]
      simp only [Threads.goOn, Function.update_self]
      rfl
    | lose here waiting phase refused =>
      rw [code] at here
      obtain ⟨rfl, _⟩ := Prog.op.inj here
      rw [won] at refused
      exact absurd refused (by simp)
    | doze here waiting phase =>
      rw [attempt] at phase
      exact absurd phase (by decide)
  | printf idle => exact absurd doomed id
  | panic idle => exact absurd doomed id
  | @fault c e =>
    obtain ⟨k, first⟩ := excHandler_locks e
    refine ⟨⟨k, ?_⟩, doomed⟩
    rw [← first]
    simp [Machine.jump, Threads.goOn]

omit [DecidableEq Core] in
theorem rested_orderly {S : Machine Core} (rested : Rested S) (c : Core) : Orderly S c := by
  refine Or.inr ⟨?_, false, ?_, ?_⟩
  · simp [rested.job c]
  · rw [rested.code c]
    exact .ret ()
  · simp [rested.free]

/-- The whole of a run is as it should be exactly when none of its steps is doomed. -/
theorem emergency_output_iff (past : List (Machine Core × Core × Act)) (S : Machine Core)
    (run : Run machine past S) :
    (∀ T ∈ visited past S, EmergencyOutput T) ↔ ∀ x ∈ past, ¬ Doomed x.1 x.2 := by
  constructor
  · intro good x member doomed
    obtain ⟨T, later, step⟩ := run_after run member
    exact (good T later).free x.2.1 (doomed_step doomed step)
  · intro sound T member
    have orderly := @run_visited _ _ machine (fun S e => ¬ Doomed S e)
      (fun S => ∀ c, Orderly S c) (fun S rested => rested_orderly rested)
      (fun S e T before fine step => orderly_step before fine step) past S run sound T member
    exact orderly_output orderly

def atRest : Machine Core := ⟨⟨.fresh, fun _ => .ret (), fun _ => .arm⟩, fun _ => .idle⟩

omit [DecidableEq Core] in
theorem atRest_rested : Rested (atRest : Machine Core) := ⟨rfl, fun _ => rfl, fun _ => rfl⟩

theorem emergency_output_fault : ∃ past, ∃ S : Machine (Fin 2), Run machine past S ∧
    past.map (fun x => x.2.1) = [1, 0] ∧ ∀ T ∈ visited past S, EmergencyOutput T := by
  have first : Run machine [] (atRest : Machine (Fin 2)) := .start atRest_rested
  have second := Run.next first (@MachineStep.printf (Fin 2) _ _ 0 "hello" [] rfl)
  have third := Run.next second (@MachineStep.fault (Fin 2) _ _ 1 ⟨0, 0x96000045, 0, 0, 0⟩)
  refine ⟨_, _, third, rfl, (emergency_output_iff _ _ third).mpr ?_⟩
  intro x member
  simp only [List.mem_cons, List.not_mem_nil, or_false] at member
  rcases member with rfl | rfl
  · exact fun doomed => absurd doomed (by simp [Doomed, Machine.jump, Threads.goOn, atRest,
      Shared.fresh])
  · exact id

theorem machine_reach {S T : Machine Core} {e : Core × Act} (reach : Reachable machine S)
    (step : MachineStep S e T) : Reachable machine T :=
  reachable_step reach step

theorem reach_locked {S : Machine Core} {c : Core} {k : Unit → ConsoleM Unit}
    (reach : Reachable machine S)
    (here : S.code c = @Prog.op ConsoleI Unit (ConsoleOp.lock .printf) k)
    (phase : S.phase c = .arm) (free : S.mem.owner .printf = none) :
    ∃ T, Reachable machine T ∧ T.code c = k () ∧ T.mem.owner .printf = some c ∧
      T.job = S.job := by
  have waiting : Waits (ConsoleOp.lock .printf) := ⟨.printf, rfl⟩
  have armed := machine_reach reach (.turn (.arm here waiting phase))
  have attempt : (S.toThreads.turn c .attempt).phase c = .attempt := by simp [Threads.turn]
  have won := @lock_free Core c .printf S.mem free
  refine ⟨_, machine_reach armed (.turn (.win here waiting attempt won)), ?_,
    own_same S.mem .printf (some c), rfl⟩
  simp [Threads.goOn]

/-- A panic on one core with nothing else running, and a fault while it prints. -/
theorem emergency_deadlocks :
    (∃ S : Machine Unit, Reachable machine S ∧ S.job () = .panicking "out of memory" [] ∧
      SelfDeadlock S ()) ∧
    (∃ S : Machine Unit, Reachable machine S ∧ S.job () = .faulted ∧ SelfDeadlock S ()) := by
  have start : Reachable machine (atRest : Machine Unit) := reachable_init atRest_rested
  constructor
  · obtain ⟨k, first, rest, second⟩ := panic_locks "out of memory" []
    obtain ⟨k', third⟩ := printf_locks "\n***** KERNEL PANIC *****\n" [] rest
    have entered := machine_reach start
      (@MachineStep.panic Unit _ _ () "out of memory" [] rfl)
    have here : (atRest.jump () (panic "out of memory" []) (.panicking "out of memory" [])).code ()
        = .op (ConsoleOp.lock .printf) k := by simpa [Machine.jump, Threads.goOn] using first
    obtain ⟨S, reach, code, mine, job⟩ := reach_locked entered here rfl rfl
    refine ⟨S, reach, ?_, ⟨k', ?_⟩, mine⟩
    · simp [job, Machine.jump]
    · rw [code, second, third]
  · obtain ⟨k, first⟩ := printf_locks "hello" [] .ret
    rw [bind_ret] at first
    have entered := machine_reach start
      (@MachineStep.printf Unit _ _ () "hello" [] rfl)
    have here : (atRest.jump () (printf "hello" []) .printing).code ()
        = .op (ConsoleOp.lock .printf) k := by simpa [Machine.jump, Threads.goOn] using first
    obtain ⟨S, reach, _, mine, _⟩ := reach_locked entered here rfl rfl
    have faulted : MachineStep S ((), .fault ⟨0, 0x96000045, 0, 0, 0⟩) _ := .fault
    have doomed : Doomed S ((), .fault ⟨0, 0x96000045, 0, 0, 0⟩) := mine
    refine ⟨_, machine_reach reach faulted, ?_, doomed_step doomed faulted⟩
    simp [Machine.jump]

end PiKernel.Console
