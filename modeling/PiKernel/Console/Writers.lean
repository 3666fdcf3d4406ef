import PiKernel.Lib.Guarded
import PiKernel.Console.Source

/-!
Who writes to the terminal: in any mix of `printf`, `panic`, `exc_handler` and
`critical(work)` on any number of cores, only the holder of the lock of
printf.cpp. A core that panics with the lock keeps it, so it is the last writer.
-/
namespace PiKernel.Console
open Program Transition Interleaving

/-- Writing a character and giving the lock back. -/
def Writes (o : ConsoleOp) : Prop := (∃ ch, o = .putc ch) ∨ o = .unlock .printf

abbrev WriteGuarded {α : Type} (first last : Bool) (p : ConsoleM α) : Prop :=
  Guarded (ConsoleOp.lock .printf : ConsoleI.Op) (ConsoleOp.unlock .printf) Writes first last p

theorem putc_guarded (c : Char) : WriteGuarded true true (uartPutc c) :=
  .other (by simp) (by simp) (fun _ => rfl) fun _ => .ret ()

theorem putf_guarded (c : Char) : WriteGuarded true true (uartPutcWrapper c) := by
  unfold uartPutcWrapper
  split
  · exact guarded_bind (putc_guarded '\r') fun _ => putc_guarded c
  · exact putc_guarded c

theorem putAll_guarded (out : List Char) : WriteGuarded true true (putAll out) := by
  induction out with
  | nil => exact .ret ()
  | cons c out ih => exact guarded_bind (putf_guarded c) fun _ => ih

theorem format_guarded (fmt : String) (va : List Arg) : WriteGuarded true true (format fmt va) := by
  unfold format
  split
  · exact putAll_guarded _
  · exact .other (by simp) (by simp) (fun _ => rfl) fun _ => .ret ()

theorem printf_guarded (fmt : String) (va : List Arg) :
    WriteGuarded false false (printf fmt va) := by
  apply Guarded.take
  intro _
  apply guarded_bind (format_guarded fmt va)
  intro _
  exact .give fun _ => .ret ()

/-- Inside `panic` the lock is held, and the first `printf` waits for it. -/
theorem panic_guarded (fmt : String) (va : List Arg) : WriteGuarded false false (panic fmt va) :=
  .take fun _ => .again

theorem plain_guarded {α : Type} {held last : Bool} {o : ConsoleOp} {k : o.Res → ConsoleM α}
    (plain : ∀ l, o ≠ .lock l ∧ o ≠ .unlock l) (silent : ∀ ch, o ≠ .putc ch)
    (rest : ∀ r, WriteGuarded held last (k r)) :
    WriteGuarded held last (@Prog.op ConsoleI α o k) := by
  refine .other (plain _).1 (plain _).2 ?_ rest
  rintro (⟨ch, same⟩ | same)
  · exact absurd same (silent ch)
  · exact absurd same (plain _).2

theorem printType_guarded (type : Nat) : WriteGuarded false false (printType type) := by
  unfold printType
  split
  · exact printf_guarded _ _
  · exact printf_guarded _ _
  · exact printf_guarded _ _
  · exact printf_guarded _ _
  · exact .ret ()

theorem excHandler_guarded (e : Exception) : WriteGuarded false false (excHandler e) := by
  have final : WriteGuarded false false (do
      printf ":\n  ESR_EL1 0x%X ELR_EL1 0x%X\n SPSR_EL1 0%xX FAR_EL1 0x%X\n"
        [.word e.esr, .word e.elr, .word e.spsr, .word e.far]
      spinLoop) := by
    apply guarded_bind (printf_guarded _ _)
    intro _
    exact plain_guarded (by simp) (by simp) fun _ => .ret ()
  unfold excHandler
  apply guarded_bind (printType_guarded e.type)
  intro _
  apply guarded_bind (printf_guarded _ _)
  intro _
  apply guarded_bind (printf_guarded _ _)
  intro _
  split
  · apply guarded_bind (printf_guarded _ _)
    intro _
    apply guarded_bind (printf_guarded _ _)
    intro _
    exact guarded_bind (printf_guarded _ _) fun _ => final
  · exact final

theorem work_guarded : WriteGuarded false false work := by
  apply plain_guarded (by simp) (by simp)
  intro x
  apply guarded_bind (printf_guarded _ _)
  intro _
  apply plain_guarded (by simp) (by simp)
  intro y
  apply guarded_bind (printf_guarded _ _)
  intro _
  apply plain_guarded (by simp) (by simp)
  intro z
  exact plain_guarded (by simp) (by simp) fun _ => .ret ()

theorem critical_guarded : WriteGuarded false false (critical work) := by
  refine .other (by simp) (by simp) (by simp [Writes]) ?_
  intro _
  apply guarded_bind work_guarded
  intro _
  exact .other (by simp) (by simp) (by simp [Writes]) fun _ => .ret ()

inductive ConsoleCall where
  | printf (fmt : String) (va : List Arg)
  | panic (fmt : String) (va : List Arg)
  | excHandler (e : Exception)
  | critical

def ConsoleCall.code : ConsoleCall → ConsoleM Unit
  | .printf fmt va => Console.printf fmt va
  | .panic fmt va => Console.panic fmt va
  | .excHandler e => Console.excHandler e
  | .critical => Console.critical work

def callAll : List ConsoleCall → ConsoleM Unit
  | [] => pure ()
  | call :: calls => do
    call.code
    callAll calls

theorem callAll_guarded (calls : List ConsoleCall) : WriteGuarded false false (callAll calls) := by
  induction calls with
  | nil => exact .ret ()
  | cons call calls ih =>
    have first : WriteGuarded false false call.code := by
      cases call with
      | printf fmt va => exact printf_guarded fmt va
      | panic fmt va => exact panic_guarded fmt va
      | excHandler e => exact excHandler_guarded e
      | critical => exact critical_guarded
    exact guarded_bind first fun _ => ih

variable {Core : Type}

def writer (s : Shared Core) : Option Core := s.owner .printf

theorem console_owned : Owned (I := ConsoleI) (consoleExec : Core → Exec ConsoleI (Shared Core))
    (ConsoleOp.lock .printf) (ConsoleOp.unlock .printf) writer where
  distinct := by simp
  take c s r t result := by
    obtain ⟨free, after⟩ := exec_owner .printf result
    exact ⟨free rfl, by simpa [writer] using after⟩
  give c s r t result := by
    obtain ⟨_, after⟩ := exec_owner .printf result
    simpa [writer] using after
  keep c o s r t noLock noUnlock result := by
    obtain ⟨_, after⟩ := exec_owner .printf result
    rwa [if_neg noLock, if_neg noUnlock] at after

theorem silent_text {c : Core} {o : ConsoleOp} {s t : Shared Core} {r : o.Res}
    (result : consoleExec c o s = some (r, t)) (silent : ∀ ch, o ≠ .putc ch) : t.text = s.text := by
  cases o with
  | lock l =>
    cases held : s.owner l with
    | some d =>
      rw [lock_taken held] at result
      exact absurd result (by simp)
    | none =>
      obtain rfl := exec_state result (lock_free held)
      rfl
  | putc ch => exact absurd rfl (silent ch)
  | unlock l =>
    obtain rfl := exec_state result rfl
    rfl
  | loadCounter =>
    obtain rfl := exec_state result rfl
    rfl
  | storeCounter x =>
    obtain rfl := exec_state result rfl
    rfl
  | undefined => exact absurd result (by simp [consoleExec])
  | wfi => exact absurd result (by simp [consoleExec])
  | spin => exact absurd result (by simp [consoleExec])

variable [DecidableEq Core]

def consoleCores (todo : Core → List ConsoleCall) :
    System (Threads Core ConsoleI (Shared Core)) Core where
  init S := S.mem.owner .printf = none ∧ S.code = (fun c => callAll (todo c)) ∧
    S.phase = fun _ => .arm
  step := ThreadStep consoleExec Waits

abbrev WritersGuarded (S : Threads Core ConsoleI (Shared Core)) : Prop :=
  Disciplined (ConsoleOp.lock .printf : ConsoleI.Op) (ConsoleOp.unlock .printf) Writes writer S

theorem writers_guarded {todo : Core → List ConsoleCall} {S : Threads Core ConsoleI (Shared Core)}
    (reach : Reachable (consoleCores todo) S) : WritersGuarded S := by
  apply reachable_invariant _ _ reach
  · intro S ⟨free, code, _⟩ c
    refine ⟨false, false, ?_, ?_⟩
    · rw [code]
      exact callAll_guarded (todo c)
    · simp [writer, free]
  · intro S c T guarded step
    exact disciplined_step console_owned guarded step

theorem panic_stuck {S T : Threads Core ConsoleI (Shared Core)} {c : Core} {fmt : String}
    {va : List Arg} {rest : Unit → ConsoleM Unit} (here : S.code c = (panic fmt va).bind rest)
    (step : ThreadStep consoleExec Waits S c T) (won : T.mem.owner .printf = some c) :
    Stuck (ConsoleOp.lock .printf : ConsoleI.Op) writer T c := by
  have twice : ∃ k', (panic fmt va).bind rest = @Prog.op ConsoleI Unit (ConsoleOp.lock .printf)
      fun _ => .op (ConsoleOp.lock .printf) k' := ⟨_, rfl⟩
  obtain ⟨k', form⟩ := twice
  rcases step_cases step with ⟨o, k, r, t, next, result, _, rfl⟩ | ⟨phase, rfl⟩
  · rw [here, form] at next
    obtain ⟨rfl, same⟩ := Prog.op.inj next
    obtain rfl := eq_of_heq same
    exact ⟨⟨k', by simp [Threads.goOn]⟩, won⟩
  · exact ⟨⟨_, here.trans form⟩, won⟩

/-- Whatever the cores do, once one of them wins the lock in `panic` no character is
    written any more: not by it, and not by any other core. -/
theorem panic_silences {todo : Core → List ConsoleCall} {S T U : Threads Core ConsoleI (Shared Core)}
    {c : Core} {fmt : String} {va : List Arg} {rest : Unit → ConsoleM Unit}
    (reach : Reachable (consoleCores todo) S) (here : S.code c = (panic fmt va).bind rest)
    (step : (consoleCores todo).step S c T) (won : T.mem.owner .printf = some c)
    (later : Reachable ((consoleCores todo).onward T) U) :
    U.mem.text = T.mem.text ∧ U.mem.owner .printf = some c := by
  have silent : (U.mem.text = T.mem.text ∧ Stuck (ConsoleOp.lock .printf : ConsoleI.Op) writer U c) ∧
      WritersGuarded U := by
    apply reachable_invariant _ _ later
    · rintro V rfl
      exact ⟨⟨rfl, panic_stuck here step won⟩, writers_guarded (reachable_step reach step)⟩
    · intro V d W ⟨⟨text, stuck⟩, guarded⟩ next
      obtain ⟨still, same | ⟨o, r, result, notWrites, _⟩⟩ :=
        stuck_step console_owned guarded (Or.inr rfl) stuck next
      · exact ⟨⟨by rw [same, text], still⟩, disciplined_step console_owned guarded next⟩
      · have noPutc : ∀ ch, o ≠ .putc ch := fun ch equal => notWrites (Or.inl ⟨ch, equal⟩)
        exact ⟨⟨by rw [silent_text result noPutc, text], still⟩,
          disciplined_step console_owned guarded next⟩
  exact ⟨silent.1.1, silent.1.2.2⟩

def panicTodo (c : Fin 2) : List ConsoleCall :=
  if c.val = 0 then [.panic "out of memory" []] else [.printf "hello\n" []]

def panicBeside : Threads (Fin 2) ConsoleI (Shared (Fin 2)) :=
  ⟨.fresh, fun c => callAll (panicTodo c), fun _ => .arm⟩

theorem panic_silences_two : ∃ U, Reachable (consoleCores panicTodo) U ∧ U.phase 1 = .attempt ∧
    U.mem.text = [] ∧ U.mem.owner .printf = some 0 := by
  have start : Reachable (consoleCores panicTodo) panicBeside := reachable_init ⟨rfl, rfl, rfl⟩
  have arm : (consoleCores panicTodo).step panicBeside 0 (panicBeside.turn 0 .attempt) :=
    .arm rfl ⟨.printf, rfl⟩ rfl
  have armed := reachable_step start arm
  have free : (panicBeside.turn 0 .attempt).mem.owner .printf = none := rfl
  have win : ∃ T, (consoleCores panicTodo).step (panicBeside.turn 0 .attempt) 0 T ∧
      T.mem = panicBeside.mem.own .printf (some 0) ∧ T.code 1 = callAll (panicTodo 1) ∧
      T.phase 1 = .arm := ⟨_, .win rfl ⟨.printf, rfl⟩ rfl (lock_free free), rfl, rfl, rfl⟩
  obtain ⟨T, won, mem, code, phase⟩ := win
  have tries : (consoleCores panicTodo).step T 1 (T.turn 1 .attempt) := .arm code ⟨.printf, rfl⟩ phase
  have mine : T.mem.owner .printf = some 0 := by
    rw [mem]
    exact own_same _ _ _
  obtain ⟨text, owner⟩ := panic_silences armed rfl won mine
    (reachable_step (reachable_init rfl) tries)
  refine ⟨_, reachable_step (reachable_step armed won) tries, by simp [Threads.turn], ?_, owner⟩
  rw [text, mem]
  rfl

end PiKernel.Console
