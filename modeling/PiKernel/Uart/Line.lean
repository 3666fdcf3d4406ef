import PiKernel.Console.Writers
import PiKernel.Console.Messages

/-!
`uart_putc` of src/uart.cpp against the transmit FIFO of the UART: each core polls
the flag register and then stores to the data register, two accesses with any
steps of other cores and of the device between them. Under the lock of printf.cpp
no character is dropped, doubled or overtaken on its way to the line.
-/
namespace PiKernel.Uart
open Program Transition Interleaving Console

/-- The transmitter: what is on the line, what waits in the FIFO, and what was stored
    into a full FIFO. -/
structure Transmitter where
  sent : List Char
  fifo : List Char
  dropped : List Char

/-- The bits of UART0_FR about the transmitter: 7 FIFO empty, 5 FIFO full, 3 busy. -/
def Transmitter.fr (depth : Nat) (u : Transmitter) : Nat :=
  (if u.fifo.length = 0 then 0x80 else 0x08) + if depth ≤ u.fifo.length then 0x20 else 0

def Transmitter.put (depth : Nat) (u : Transmitter) (ch : Char) : Transmitter :=
  if u.fifo.length < depth then { u with fifo := u.fifo ++ [ch] }
  else { u with dropped := u.dropped ++ [ch] }

theorem fr_full (depth : Nat) (u : Transmitter) :
    u.fr depth &&& 0x20 ≠ 0 ↔ depth ≤ u.fifo.length := by
  unfold Transmitter.fr
  by_cases full : depth ≤ u.fifo.length
  · rw [if_pos full]
    split <;> exact iff_of_true (by decide) full
  · rw [if_neg full]
    split <;> exact iff_of_false (by decide) full

theorem fr_space {depth : Nat} {u : Transmitter} (space : u.fifo.length < depth) :
    u.fr depth &&& 0x20 = 0 := by
  by_contra full
  exact absurd ((fr_full depth u).mp full) (Nat.not_le_of_lt space)

variable {Core : Type}

/-- The cores, where `polled` says that a core has left the loop of `uart_putc` and not
    stored its character yet. -/
structure Wired (Core : Type) extends Threads Core ConsoleI (Shared Core) where
  uart : Transmitter
  polled : Core → Bool

inductive Event (Core : Type) where
  | core (c : Core)
  | transmit

variable [DecidableEq Core]

inductive WireStep (depth : Nat) : Wired Core → Event Core → Wired Core → Prop where
  | console {S : Wired Core} {c : Core} {T : Threads Core ConsoleI (Shared Core)}
      (elsewhere : ∀ ch k, S.code c ≠ .op (ConsoleOp.putc ch) k)
      (step : ThreadStep consoleExec Waits S.toThreads c T) :
      WireStep depth S (.core c) { S with toThreads := T }
  | busy {S : Wired Core} {c : Core} {ch : Char} {k : Unit → ConsoleM Unit}
      (here : S.code c = .op (ConsoleOp.putc ch) k) (polls : S.polled c = false)
      (full : S.uart.fr depth &&& 0x20 ≠ 0) : WireStep depth S (.core c) S
  | leave {S : Wired Core} {c : Core} {ch : Char} {k : Unit → ConsoleM Unit}
      (here : S.code c = .op (ConsoleOp.putc ch) k) (polls : S.polled c = false)
      (space : S.uart.fr depth &&& 0x20 = 0) :
      WireStep depth S (.core c) { S with polled := Function.update S.polled c true }
  | put {S : Wired Core} {c : Core} {ch : Char} {k : Unit → ConsoleM Unit}
      (here : S.code c = .op (ConsoleOp.putc ch) k) (polled : S.polled c = true) :
      WireStep depth S (.core c)
        { S with
          toThreads := S.goOn c (S.mem.write [ch]) (k ())
          uart := S.uart.put depth ch
          polled := Function.update S.polled c false }
  | transmit {S : Wired Core} {ch : Char} {rest : List Char} (head : S.uart.fifo = ch :: rest) :
      WireStep depth S .transmit
        { S with uart := { S.uart with sent := S.uart.sent ++ [ch], fifo := rest } }

def wiredCores (depth : Nat) (todo : Core → List ConsoleCall) :
    System (Wired Core) (Event Core) where
  init S := (S.mem.owner .printf = none ∧ S.mem.text = []) ∧ S.code = (fun c => callAll (todo c)) ∧
    S.phase = (fun _ => .arm) ∧ S.uart = ⟨[], [], []⟩ ∧ S.polled = fun _ => false
  step := WireStep depth

/-- Everything stored is on the line or in the FIFO, in order, and a core about to store
    is the writer and has room. -/
structure Faithful (depth : Nat) (S : Wired Core) : Prop where
  guarded : WritersGuarded S.toThreads
  kept : S.uart.dropped = []
  order : S.uart.sent ++ S.uart.fifo = S.mem.text
  bounded : S.uart.fifo.length ≤ depth
  room : ∀ c, S.polled c = true → (∃ ch k, S.code c = .op (ConsoleOp.putc ch) k) ∧
    S.uart.fifo.length < depth

omit [DecidableEq Core] in
theorem polled_writer {depth : Nat} {S : Wired Core} {c : Core} (faithful : Faithful depth S)
    (polled : S.polled c = true) : writer S.mem = some c := by
  obtain ⟨⟨ch, k, here⟩, _⟩ := faithful.room c polled
  exact guarded_owner faithful.guarded here (by simp) (Or.inl ⟨ch, rfl⟩)

theorem step_elsewhere {S T : Threads Core ConsoleI (Shared Core)} {c d : Core} (other : d ≠ c)
    (step : ThreadStep consoleExec Waits S c T) : T.code d = S.code d := by
  rcases step_cases step with ⟨o, k, r, t, _, _, _, rfl⟩ | ⟨phase, rfl⟩
  · simp [Threads.goOn, other]
  · rfl

theorem console_faithful {depth : Nat} {S : Wired Core} {c : Core}
    {T : Threads Core ConsoleI (Shared Core)} (faithful : Faithful depth S)
    (elsewhere : ∀ ch k, S.code c ≠ .op (ConsoleOp.putc ch) k)
    (step : ThreadStep consoleExec Waits S.toThreads c T) :
    Faithful depth { S with toThreads := T } := by
  refine ⟨disciplined_step console_owned faithful.guarded step, faithful.kept, ?_,
    faithful.bounded, ?_⟩
  · show S.uart.sent ++ S.uart.fifo = T.mem.text
    rw [faithful.order]
    rcases step_cases step with ⟨o, k, r, t, here, result, _, rfl⟩ | ⟨phase, rfl⟩
    · symm
      apply silent_text result
      rintro ch rfl
      exact elsewhere ch k here
    · rfl
  · intro d polled
    obtain ⟨⟨ch, k, here⟩, space⟩ := faithful.room d polled
    by_cases same : d = c
    · subst same
      exact absurd here (elsewhere ch k)
    · exact ⟨⟨ch, k, (step_elsewhere same step).trans here⟩, space⟩

/-- The store of a core that has seen room goes into the FIFO: until it is done no other
    core stores and the device only takes out. -/
theorem put_faithful {depth : Nat} {S : Wired Core} {c : Core} {ch : Char}
    {k : Unit → ConsoleM Unit} (faithful : Faithful depth S)
    (here : S.code c = .op (ConsoleOp.putc ch) k) (polled : S.polled c = true)
    (step : ThreadStep consoleExec Waits S.toThreads c (S.goOn c (S.mem.write [ch]) (k ()))) :
    Faithful depth
      { S with
        toThreads := S.goOn c (S.mem.write [ch]) (k ())
        uart := S.uart.put depth ch
        polled := Function.update S.polled c false } := by
  have space := (faithful.room c polled).2
  have pushed : S.uart.put depth ch = { S.uart with fifo := S.uart.fifo ++ [ch] } := if_pos space
  refine ⟨disciplined_step console_owned faithful.guarded step, ?_, ?_, ?_, ?_⟩
  · show (S.uart.put depth ch).dropped = []
    rw [pushed]
    exact faithful.kept
  · show (S.uart.put depth ch).sent ++ (S.uart.put depth ch).fifo = S.mem.text ++ [ch]
    rw [pushed, ← faithful.order, List.append_assoc]
  · show (S.uart.put depth ch).fifo.length ≤ depth
    rw [pushed]
    simpa using space
  · intro d other
    have notSame : d ≠ c := by
      rintro rfl
      simp at other
    have polled' : S.polled d = true := by simpa [notSame] using other
    have mine := polled_writer faithful polled
    rw [polled_writer faithful polled'] at mine
    exact absurd (Option.some.inj mine) notSame

theorem wire_step {depth : Nat} {S T : Wired Core} {e : Event Core} (faithful : Faithful depth S)
    (step : WireStep depth S e T) : Faithful depth T ∧ (T.toThreads = S.toThreads ∨
      ∃ c, ThreadStep consoleExec Waits S.toThreads c T.toThreads) := by
  cases step with
  | @console c T elsewhere step =>
    exact ⟨console_faithful faithful elsewhere step, Or.inr ⟨c, step⟩⟩
  | busy here polls full => exact ⟨faithful, Or.inl rfl⟩
  | @leave c ch k here polls space =>
    refine ⟨⟨faithful.guarded, faithful.kept, faithful.order, faithful.bounded, ?_⟩, Or.inl rfl⟩
    intro d polled
    by_cases same : d = c
    · subst same
      refine ⟨⟨ch, k, here⟩, ?_⟩
      by_contra full
      exact (fr_full depth S.uart).mpr (Nat.le_of_not_lt full) space
    · exact faithful.room d (by simpa [same] using polled)
  | @put c ch k here polled =>
    have step : ThreadStep consoleExec Waits S.toThreads c (S.goOn c (S.mem.write [ch]) (k ())) :=
      .perform here (by rintro ⟨l, same⟩; exact absurd same (by simp)) rfl
    exact ⟨put_faithful faithful here polled step, Or.inr ⟨c, step⟩⟩
  | @transmit ch rest head =>
    have bounded := faithful.bounded
    rw [head] at bounded
    refine ⟨⟨faithful.guarded, faithful.kept, ?_, Nat.le_of_succ_le bounded, ?_⟩, Or.inl rfl⟩
    · show (S.uart.sent ++ [ch]) ++ rest = S.mem.text
      rw [← faithful.order, head]
      simp
    · intro d polled
      obtain ⟨here, space⟩ := faithful.room d polled
      rw [head] at space
      exact ⟨here, Nat.lt_of_succ_lt space⟩

theorem wired_runs {depth : Nat} {todo : Core → List ConsoleCall} {S : Wired Core}
    {U : System (Threads Core ConsoleI (Shared Core)) Core}
    (steps : U.step = ThreadStep consoleExec Waits)
    (starts : ∀ S, (wiredCores depth todo).init S → U.init S.toThreads)
    (reach : Reachable (wiredCores depth todo) S) : Reachable U S.toThreads ∧ Faithful depth S := by
  obtain ⟨past, run⟩ := reach
  have base : ∀ S, (wiredCores depth todo).init S →
      ∃ u, U.init u ∧ u = S.toThreads ∧ Faithful depth S := by
    intro S first
    refine ⟨_, starts S first, rfl, ?_⟩
    obtain ⟨⟨free, text⟩, code, _, uart, polled⟩ := first
    refine ⟨?_, by rw [uart], by rw [uart, text]; rfl, by rw [uart]; exact Nat.zero_le _, ?_⟩
    · intro c
      refine ⟨false, false, ?_, by simp [writer, free]⟩
      rw [code]
      exact callAll_guarded (todo c)
    · intro c out
      rw [polled] at out
      exact absurd out (by simp)
  have follow : ∀ past S e T u, Run (wiredCores depth todo) past S → Reachable U u →
      u = S.toThreads ∧ Faithful depth S → WireStep depth S e T →
      ∃ v, (v = T.toThreads ∧ Faithful depth T) ∧ (v = u ∨ ∃ d, U.step u d v) := by
    rintro past S e T u before reach ⟨rfl, faithful⟩ step
    obtain ⟨after, same | ⟨c, step⟩⟩ := wire_step faithful step
    · exact ⟨_, ⟨rfl, after⟩, Or.inl same⟩
    · exact ⟨_, ⟨rfl, after⟩, Or.inr ⟨c, steps ▸ step⟩⟩
  obtain ⟨u, reach, rfl, faithful⟩ := run_simulated
    (R := fun _ S u => u = S.toThreads ∧ Faithful depth S) base follow run
  exact ⟨reach, faithful⟩

section Moves
variable {depth : Nat} {todo : Core → List ConsoleCall} {S : Wired Core} {c : Core}

theorem wired_console {T : Threads Core ConsoleI (Shared Core)} {o : ConsoleOp}
    {k : o.Res → ConsoleM Unit} (reach : Reachable (wiredCores depth todo) S)
    (here : S.code c = @Prog.op ConsoleI Unit o k) (silent : ∀ ch, o ≠ .putc ch)
    (step : ThreadStep consoleExec Waits S.toThreads c T) :
    Reachable (wiredCores depth todo) { S with toThreads := T } := by
  refine reachable_step reach (.console ?_ step)
  intro ch q code
  rw [here] at code
  exact silent ch (Prog.op.inj code).1

theorem wired_locks {l : LockId} {k : Unit → ConsoleM Unit}
    (reach : Reachable (wiredCores depth todo) S) (here : S.code c = .op (ConsoleOp.lock l) k)
    (phase : S.phase c = .arm) (free : S.mem.owner l = none) :
    Reachable (wiredCores depth todo)
      { S with toThreads := S.goOn c (S.mem.own l (some c)) (k ()) } := by
  have armed := wired_console reach here (by simp) (.arm here ⟨l, rfl⟩ phase)
  have won := wired_console armed (c := c) here (by simp)
    (.win here ⟨l, rfl⟩ (by simp [Threads.turn]) (lock_free free))
  simpa [Threads.goOn, Threads.turn] using won

theorem wired_loses {l : LockId} {d : Core} {k : Unit → ConsoleM Unit}
    (reach : Reachable (wiredCores depth todo) S) (here : S.code c = .op (ConsoleOp.lock l) k)
    (phase : S.phase c = .arm) (taken : S.mem.owner l = some d) :
    Reachable (wiredCores depth todo) { S with toThreads := S.turn c .doze } := by
  have armed := wired_console reach here (by simp) (.arm here ⟨l, rfl⟩ phase)
  have lost := wired_console armed (c := c) here (by simp)
    (.lose here ⟨l, rfl⟩ (by simp [Threads.turn]) (lock_taken taken))
  simpa [Threads.turn] using lost

theorem wired_unlocks {l : LockId} {k : Unit → ConsoleM Unit}
    (reach : Reachable (wiredCores depth todo) S) (here : S.code c = .op (ConsoleOp.unlock l) k) :
    Reachable (wiredCores depth todo)
      { S with toThreads := S.goOn c (S.mem.own l none) (k ()) } :=
  wired_console reach here (by simp) (.perform here (by simp [Waits]) rfl)

theorem wired_stores {ch : Char} {k : Unit → ConsoleM Unit}
    (reach : Reachable (wiredCores depth todo) S) (here : S.code c = .op (ConsoleOp.putc ch) k)
    (polls : S.polled c = false) (space : S.uart.fifo.length < depth) :
    Reachable (wiredCores depth todo)
      { S with
        toThreads := S.goOn c (S.mem.write [ch]) (k ())
        uart := { S.uart with fifo := S.uart.fifo ++ [ch] } } := by
  have left := reachable_step reach (.leave here polls (fr_space space))
  have stored := reachable_step left (.put here (by simp))
  have put : S.uart.put depth ch = { S.uart with fifo := S.uart.fifo ++ [ch] } := if_pos space
  have same : Function.update S.polled c false = S.polled := by
    rw [← polls, Function.update_eq_self]
  simpa [put, same] using stored

end Moves

/-- Whatever the cores print, panic or report and however slowly the line takes it: no
    store finds the FIFO full, and the line with the FIFO behind it carries the text of a
    run in which characters are written in one step. -/
theorem line_faithful {depth : Nat} {todo : Core → List ConsoleCall} {S : Wired Core}
    (reach : Reachable (wiredCores depth todo) S) :
    Reachable (consoleCores todo) S.toThreads ∧ S.uart.dropped = [] ∧
      S.uart.sent ++ S.uart.fifo = S.mem.text := by
  obtain ⟨run, faithful⟩ := wired_runs (U := consoleCores todo) rfl
    (fun S first => ⟨first.1.1, first.2.1, first.2.2.1⟩) reach
  exact ⟨run, faithful.kept, faithful.order⟩

def fourCalls : Fin 4 → List ConsoleCall :=
  ![[.printf "a" []], [.excHandler ⟨0, 0x96000045, 0x80000, 0x3C4, 0x10⟩], [.panic "b" []], [.critical]]

def wiredFour : Wired (Fin 4) where
  toThreads := ⟨.fresh, fun c => callAll (fourCalls c), fun _ => .arm⟩
  uart := ⟨[], [], []⟩
  polled _ := false

theorem between_poll_and_store : ∃ S : Wired (Fin 4), Reachable (wiredCores 16 fourCalls) S ∧
    S.uart = ⟨['a'], ['S'], []⟩ ∧ S.polled 1 = true ∧
    (∃ k, S.code 1 = .op (ConsoleOp.putc 'y') k) ∧ S.code 0 = .ret () ∧
    S.phase 2 = .doze ∧ S.mem.owner .critical = some 3 := by
  have start : Reachable (wiredCores 16 fourCalls) wiredFour :=
    reachable_init ⟨⟨rfl, rfl⟩, rfl, rfl, rfl, rfl⟩
  have report : ∃ rest, wiredFour.code 1 =
      @Prog.op ConsoleI Unit (ConsoleOp.lock .printf) fun _ =>
        @Prog.op ConsoleI Unit (ConsoleOp.putc 'S') fun _ =>
          @Prog.op ConsoleI Unit (ConsoleOp.putc 'y') rest := ⟨_, rfl⟩
  have panic : ∃ k, wiredFour.code 2 = @Prog.op ConsoleI Unit (ConsoleOp.lock .printf) k := ⟨_, rfl⟩
  have opens : ∀ (p : ConsoleM Unit) (q : Unit → ConsoleM Unit), ∃ k, (critical p).bind q =
      @Prog.op ConsoleI Unit (ConsoleOp.lock .critical) k := fun _ _ => ⟨_, rfl⟩
  obtain ⟨rest, report⟩ := report
  obtain ⟨_, panic⟩ := panic
  obtain ⟨_, work⟩ := opens work fun _ => callAll []
  have print : wiredFour.code 0 = @Prog.op ConsoleI Unit (ConsoleOp.lock .printf) fun _ =>
      @Prog.op ConsoleI Unit (ConsoleOp.putc 'a') fun _ =>
        @Prog.op ConsoleI Unit (ConsoleOp.unlock .printf) fun _ => .ret () := rfl
  have locked := wired_locks start print rfl rfl
  have a := wired_stores locked (c := 0) rfl rfl (by show 0 < 16; decide)
  have given := wired_unlocks a (c := 0) rfl
  have locked := wired_locks given (c := 1) report rfl rfl
  have panics := wired_loses locked (c := 2) (d := 1) panic rfl rfl
  have critical := wired_locks panics (c := 3) work rfl rfl
  have S := wired_stores critical (c := 1) rfl rfl (by show 1 < 16; decide)
  have polled := reachable_step S (.leave (c := 1) rfl rfl (fr_space (by show 2 < 16; decide)))
  have sent := reachable_step polled (.transmit rfl)
  exact ⟨_, sent, rfl, rfl, ⟨_, rfl⟩, rfl, rfl, rfl⟩
theorem line_faithful_four : ∃ S : Wired (Fin 4), S.uart = ⟨['a'], ['S'], []⟩ ∧ S.polled 1 = true ∧
    Reachable (consoleCores fourCalls) S.toThreads ∧ S.uart.dropped = [] ∧
    S.uart.sent ++ S.uart.fifo = S.mem.text := by
  obtain ⟨S, reach, uart, polled, _⟩ := between_poll_and_store
  exact ⟨S, uart, polled, line_faithful reach⟩

def printCalls (todo : Core → List Message) (c : Core) : List ConsoleCall :=
  (todo c).map fun m => .printf m.fmt m.va

omit [DecidableEq Core] in
theorem callAll_printCalls (todo : Core → List Message) (c : Core) :
    callAll (printCalls todo c) = printfAll (todo c) := by
  unfold printCalls
  induction todo c with
  | nil => rfl
  | cons m ms ih =>
    show (printf m.fmt m.va).bind (fun _ => callAll (ms.map _)) = _
    rw [ih]
    rfl

theorem wired_messages {depth : Nat} {todo : Core → List Message} {S : Wired Core}
    (reach : Reachable (wiredCores depth (printCalls todo)) S) :
    Reachable (printfCores todo) S.toThreads ∧ Faithful depth S := by
  apply wired_runs rfl _ reach
  intro S first
  refine ⟨first.1, ?_, first.2.2.1⟩
  rw [first.2.1]
  funext c
  exact callAll_printCalls todo c

section Onward
variable {depth : Nat} {todo : Core → List ConsoleCall} {S : Wired Core} {c : Core}

theorem putc_follows {ch : Char} {k : Unit → ConsoleM Unit} (some : 0 < depth)
    (faithful : Faithful depth S) (here : S.code c = .op (ConsoleOp.putc ch) k) :
    ∃ T, Reachable ((wiredCores depth todo).onward S) T ∧
      T.toThreads = S.goOn c (S.mem.write [ch]) (k ()) := by
  have store : ∀ R : Wired Core, Reachable ((wiredCores depth todo).onward S) R →
      R.toThreads = S.toThreads → R.polled c = true →
      ∃ T, Reachable ((wiredCores depth todo).onward S) T ∧
        T.toThreads = S.goOn c (S.mem.write [ch]) (k ()) := by
    intro R there same polled
    have code : R.code c = .op (ConsoleOp.putc ch) k := by rw [same, here]
    exact ⟨_, reachable_step there (.put code polled), by rw [← same]⟩
  have leave : ∀ R : Wired Core, Reachable ((wiredCores depth todo).onward S) R →
      R.toThreads = S.toThreads → R.polled c = false → R.uart.fifo.length < depth →
      ∃ T, Reachable ((wiredCores depth todo).onward S) T ∧
        T.toThreads = S.goOn c (S.mem.write [ch]) (k ()) := by
    intro R there same polls space
    have code : R.code c = .op (ConsoleOp.putc ch) k := by rw [same, here]
    exact store _ (reachable_step there (.leave code polls (fr_space space))) same (by simp)
  have start : Reachable ((wiredCores depth todo).onward S) S := reachable_init rfl
  cases polls : S.polled c with
  | true => exact store S start rfl polls
  | false =>
    by_cases space : S.uart.fifo.length < depth
    · exact leave S start rfl polls space
    · cases head : S.uart.fifo with
      | nil =>
        rw [head] at space
        exact absurd some space
      | cons ch' rest =>
        have bounded := faithful.bounded
        rw [head] at bounded
        exact leave _ (reachable_step start (.transmit head)) rfl polls bounded

theorem step_follows {T : Threads Core ConsoleI (Shared Core)} (some : 0 < depth)
    (faithful : Faithful depth S) (step : ThreadStep consoleExec Waits S.toThreads c T) :
    ∃ S', Reachable ((wiredCores depth todo).onward S) S' ∧ S'.toThreads = T := by
  have plain : (∀ ch k, S.code c ≠ .op (ConsoleOp.putc ch) k) →
      ∃ S', Reachable ((wiredCores depth todo).onward S) S' ∧ S'.toThreads = T := by
    intro elsewhere
    exact ⟨{ S with toThreads := T },
      reachable_step (reachable_init rfl) (.console elsewhere step), rfl⟩
  have waiting : ∀ {o : ConsoleOp} {k : o.Res → ConsoleM Unit}, S.code c = @Prog.op ConsoleI Unit o k →
      Waits o → ∀ ch k, S.code c ≠ .op (ConsoleOp.putc ch) k := by
    rintro o k here ⟨l, rfl⟩ ch k' code
    rw [here] at code
    exact absurd (Prog.op.inj code).1 (by simp)
  cases step with
  | @perform o k r t here notWaits result =>
    by_cases putc : ∃ ch, o = .putc ch
    · obtain ⟨ch, rfl⟩ := putc
      obtain rfl := exec_state result (c := c) (o := ConsoleOp.putc ch) rfl
      exact putc_follows some faithful here
    · apply plain
      intro ch k' code
      rw [here] at code
      exact putc ⟨ch, (Prog.op.inj code).1⟩
  | arm here waits phase => exact plain (waiting here waits)
  | win here waits phase result => exact plain (waiting here waits)
  | lose here waits phase refused => exact plain (waiting here waits)
  | doze here waits phase => exact plain (waiting here waits)

theorem run_follows {U : System (Threads Core ConsoleI (Shared Core)) Core}
    {T : Threads Core ConsoleI (Shared Core)} (steps : U.step = ThreadStep consoleExec Waits)
    (some : 0 < depth) (reach : Reachable (wiredCores depth todo) S)
    (after : Reachable (U.onward S.toThreads) T) :
    ∃ S', Reachable ((wiredCores depth todo).onward S) S' ∧ S'.toThreads = T := by
  apply reachable_invariant _ _ after
  · rintro T rfl
    exact ⟨S, reachable_init rfl, rfl⟩
  · rintro T c T' ⟨R, there, rfl⟩ step
    have faithful := (wired_runs (U := consoleCores todo) rfl
      (fun S first => ⟨first.1.1, first.2.1, first.2.2.1⟩) (reachable_onward reach there)).2
    have next : ThreadStep consoleExec Waits R.toThreads c T' := steps ▸ step
    have follows : ∃ R', Reachable ((wiredCores depth todo).onward R) R' ∧ R'.toThreads = T' :=
      step_follows some faithful next
    obtain ⟨R', further, same⟩ := follows
    exact ⟨R', reachable_trans there further, same⟩

theorem fifo_drains (fifo : List Char) (here : S.uart.fifo = fifo) :
    ∃ T, Reachable ((wiredCores depth todo).onward S) T ∧ T.toThreads = S.toThreads ∧
      T.uart.fifo = [] := by
  induction fifo generalizing S with
  | nil => exact ⟨S, reachable_init rfl, rfl, here⟩
  | cons ch rest ih =>
    have start : Reachable ((wiredCores depth todo).onward S) S := reachable_init rfl
    have sends := reachable_step start (.transmit here)
    obtain ⟨T, there, same, empty⟩ := ih (S := { S with
      uart := { S.uart with sent := S.uart.sent ++ [ch], fifo := rest } }) rfl
    exact ⟨T, reachable_trans sends there, same, empty⟩

end Onward

/-- At any time the line shows whole messages and the beginning of one more. -/
theorem line_messages {depth : Nat} {todo : Core → List Message} {S : Wired Core}
    (reach : Reachable (wiredCores depth (printCalls todo)) S) :
    ∃ text, Told todo text ∧ S.uart.sent <+: text ∧ text.length ≤ S.uart.sent.length + depth := by
  obtain ⟨run, faithful⟩ := wired_messages reach
  refine ⟨S.mem.text, printf_messages_whole run, ⟨S.uart.fifo, faithful.order⟩, ?_⟩
  rw [← faithful.order, List.length_append]
  exact Nat.add_le_add_left faithful.bounded _

theorem ready_format (x : Int) : tfpFormat "core %d ready\n" [.word x] =
    some ("core ".toList ++ i2a (toSigned x) ++ " ready\n".toList) := by
  simp [tfpFormat, formatLoop, directive, nextChar, convert, putchw]

def readyMessage (core : Int) : Message := ⟨_, _, _, ready_format core⟩

def wiredReady : Wired (Fin 2) where
  toThreads := ⟨.fresh, fun c => callAll (printCalls (fun d => [readyMessage d]) c), fun _ => .arm⟩
  uart := ⟨[], [], []⟩
  polled _ := false

theorem wiredReady_init :
    (wiredCores 16 (printCalls fun d : Fin 2 => [readyMessage d])).init wiredReady :=
  ⟨⟨rfl, rfl⟩, rfl, rfl, rfl, rfl⟩

theorem printf_begins (m : Message) {ch ch' : Char} {out : List Char}
    (begins : cooked m.out = ch :: ch' :: out) : ∃ rest, printfAll [m] =
      @Prog.op ConsoleI Unit (ConsoleOp.lock .printf) fun _ =>
        @Prog.op ConsoleI Unit (ConsoleOp.putc ch) fun _ =>
          @Prog.op ConsoleI Unit (ConsoleOp.putc ch') rest := by
  rw [printfAll_jobs]
  simp only [jobs, locked, begins]
  exact ⟨_, rfl⟩

theorem ready_begins (c : Int) : ∃ out, cooked (readyMessage c).out = 'c' :: 'o' :: out := by
  have split : "core ".toList = ['c', 'o', 'r', 'e', ' '] := by decide
  have text : (readyMessage c).out =
      "core ".toList ++ i2a (toSigned c) ++ " ready\n".toList := rfl
  rw [text, split, List.append_assoc]
  exact ⟨_, rfl⟩

theorem partly_sent : ∃ S : Wired (Fin 2),
    Reachable (wiredCores 16 (printCalls fun d : Fin 2 => [readyMessage d])) S ∧
    S.uart = ⟨['c'], ['o'], []⟩ ∧ S.mem.owner .printf = some 0 ∧ S.phase 1 = .doze := by
  have begins : ∀ c : Fin 2, ∃ rest, wiredReady.code c =
      @Prog.op ConsoleI Unit (ConsoleOp.lock .printf) fun _ =>
        @Prog.op ConsoleI Unit (ConsoleOp.putc 'c') fun _ =>
          @Prog.op ConsoleI Unit (ConsoleOp.putc 'o') rest := by
    intro c
    obtain ⟨out, text⟩ := ready_begins c
    obtain ⟨rest, code⟩ := printf_begins _ text
    exact ⟨rest, (callAll_printCalls (fun d : Fin 2 => [readyMessage d]) c).trans code⟩
  obtain ⟨rest, first⟩ := begins 0
  obtain ⟨_, second⟩ := begins 1
  have locked := wired_locks (reachable_init wiredReady_init) first rfl rfl
  have c := wired_stores locked (c := 0) rfl rfl (by show 0 < 16; decide)
  have o := wired_stores c (c := 0) rfl rfl (by show 1 < 16; decide)
  have lost := wired_loses o (c := 1) (d := 0) second rfl rfl
  exact ⟨_, reachable_step lost (.transmit rfl), rfl, rfl, rfl⟩

theorem line_messages_two : ∃ S : Wired (Fin 2), S.uart = ⟨['c'], ['o'], []⟩ ∧ S.phase 1 = .doze ∧
    ∃ text, Told (fun d : Fin 2 => [readyMessage d]) text ∧ S.uart.sent <+: text ∧
      text.length ≤ S.uart.sent.length + 16 := by
  obtain ⟨S, reach, uart, _, phase⟩ := partly_sent
  exact ⟨S, uart, phase, line_messages reach⟩

/-- And from any time on it can get to show them all, the sleep of a core that waits for
    the lock ending whenever it likes. -/
theorem line_complete [Fintype Core] {depth : Nat} {todo : Core → List Message} {S : Wired Core}
    (some : 0 < depth) (reach : Reachable (wiredCores depth (printCalls todo)) S) :
    ∃ T, Reachable ((wiredCores depth (printCalls todo)).onward S) T ∧ (∀ d, T.code d = .ret ()) ∧
      ∃ h : List (Core × Message), (∀ d, ofCore d h = todo d) ∧ T.uart.sent = shownMessages h := by
  obtain ⟨plain, after, finished⟩ := (printf_messages_complete (wired_messages reach).1).1
  obtain ⟨R, there, rfl⟩ := run_follows rfl some reach after
  have drains : ∃ T, Reachable ((wiredCores depth (printCalls todo)).onward R) T ∧
      T.toThreads = R.toThreads ∧ T.uart.fifo = [] := fifo_drains R.uart.fifo rfl
  obtain ⟨T, drained, same, empty⟩ := drains
  have later := reachable_trans there drained
  obtain ⟨run, faithful⟩ := wired_messages (reachable_onward reach later)
  have done : ∀ d, T.code d = .ret () := by
    intro d
    rw [same]
    exact finished d
  obtain ⟨h, order, text⟩ := (printf_messages_complete run).2 done
  refine ⟨T, later, done, h, order, ?_⟩
  rw [← text, ← faithful.order, empty, List.append_nil]

theorem line_complete_two : ∃ S T : Wired (Fin 2), S.uart = ⟨['c'], ['o'], []⟩ ∧
    Reachable ((wiredCores 16 (printCalls fun d : Fin 2 => [readyMessage d])).onward S) T ∧
    (∀ d, T.code d = .ret ()) ∧ ∃ h : List (Fin 2 × Message),
      (∀ d, ofCore d h = [readyMessage d]) ∧ T.uart.sent = shownMessages h := by
  obtain ⟨S, reach, uart, _⟩ := partly_sent
  obtain ⟨T, rest⟩ := line_complete (by decide) reach
  exact ⟨S, T, uart, rest⟩

end PiKernel.Uart
