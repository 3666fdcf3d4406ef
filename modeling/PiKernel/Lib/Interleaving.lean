import PiKernel.Lib.Transition
import PiKernel.Lib.Program

/-!
Programs as threads over one memory, one operation a step in any order. A
waiting operation (taking a lock) is a loop: sleep, try, sleep again after a
failed try; the sleeps may end at any time. Sections that a lock keeps apart
take effect as if they ran one after the other.
-/
namespace PiKernel.Interleaving
open Program Transition

/-- A schedule in which one thread alone moves. `At p s S`: in the system state `S`
    the thread is about to run `p` and sees `s`. When every operation of the thread
    can be taken by the system, the thread may be run to the end of its next part. -/
theorem reachable_solo {I : Interface} {α β σ State Event : Type} {exec : Exec I σ}
    {ok : I.Op → σ → Prop} {T : System State Event} (At : Prog I α → σ → State → Prop)
    (step : ∀ o k s r t S, ok o s → exec o s = some (r, t) → Reachable T S → At (.op o k) s S →
      ∃ S', Reachable T S' ∧ At (k r) t S')
    {p : Prog I β} {rest : β → Prog I α} {post : β → σ → Prop} {s : σ} {S : State}
    (solo : p.Solo exec ok post s) (reach : Reachable T S) (here : At (p.bind rest) s S) :
    ∃ b t S', post b t ∧ Reachable T S' ∧ At (rest b) t S' := by
  induction p generalizing s S with
  | ret b => exact ⟨b, s, S, solo, reach, here⟩
  | op o k ih =>
    obtain ⟨allowed, r, t, same, tail⟩ := solo
    obtain ⟨S', next, there⟩ := step o _ s r t S allowed same reach here
    exact ih r tail next there

inductive Phase where
  | arm
  | attempt
  | doze
  deriving DecidableEq

variable {Core : Type} [DecidableEq Core] {I : Interface} {σ : Type}

structure Threads (Core : Type) (I : Interface) (σ : Type) where
  mem : σ
  code : Core → Prog I Unit
  phase : Core → Phase

def Threads.goOn (S : Threads Core I σ) (c : Core) (mem : σ) (code : Prog I Unit) :
    Threads Core I σ where
  mem := mem
  code := Function.update S.code c code
  phase := Function.update S.phase c .arm

def Threads.turn (S : Threads Core I σ) (c : Core) (phase : Phase) : Threads Core I σ :=
  { S with phase := Function.update S.phase c phase }

@[simp] theorem goOn_mem (S : Threads Core I σ) (c : Core) (mem : σ) (code : Prog I Unit) :
    (S.goOn c mem code).mem = mem := rfl

@[simp] theorem turn_mem (S : Threads Core I σ) (c : Core) (phase : Phase) :
    (S.turn c phase).mem = S.mem := rfl

@[simp] theorem turn_code (S : Threads Core I σ) (c : Core) (phase : Phase) :
    (S.turn c phase).code = S.code := rfl

theorem turn_same (S : Threads Core I σ) (c : Core) : S.turn c (S.phase c) = S := by
  unfold Threads.turn
  rw [Function.update_eq_self]

/-- One step of core `c`; `waits` are the operations that loop until they succeed. -/
inductive ThreadStep (exec : Core → Exec I σ) (waits : I.Op → Prop) :
    Threads Core I σ → Core → Threads Core I σ → Prop where
  | perform {S : Threads Core I σ} {c : Core} {o : I.Op} {k : I.Res o → Prog I Unit}
      {r : I.Res o} {t : σ} (here : S.code c = .op o k) (plain : ¬ waits o)
      (result : exec c o S.mem = some (r, t)) : ThreadStep exec waits S c (S.goOn c t (k r))
  | arm {S : Threads Core I σ} {c : Core} {o : I.Op} {k : I.Res o → Prog I Unit}
      (here : S.code c = .op o k) (waiting : waits o) (phase : S.phase c = .arm) :
      ThreadStep exec waits S c (S.turn c .attempt)
  | win {S : Threads Core I σ} {c : Core} {o : I.Op} {k : I.Res o → Prog I Unit}
      {r : I.Res o} {t : σ} (here : S.code c = .op o k) (waiting : waits o)
      (phase : S.phase c = .attempt) (result : exec c o S.mem = some (r, t)) :
      ThreadStep exec waits S c (S.goOn c t (k r))
  | lose {S : Threads Core I σ} {c : Core} {o : I.Op} {k : I.Res o → Prog I Unit}
      (here : S.code c = .op o k) (waiting : waits o) (phase : S.phase c = .attempt)
      (refused : exec c o S.mem = none) : ThreadStep exec waits S c (S.turn c .doze)
  | doze {S : Threads Core I σ} {c : Core} {o : I.Op} {k : I.Res o → Prog I Unit}
      (here : S.code c = .op o k) (waiting : waits o) (phase : S.phase c = .doze) :
      ThreadStep exec waits S c (S.turn c .arm)

variable {exec : Core → Exec I σ} {waits : I.Op → Prop} {S T : Threads Core I σ} {c : Core}

theorem step_cases (step : ThreadStep exec waits S c T) :
    (∃ o k r t, S.code c = .op o k ∧ exec c o S.mem = some (r, t) ∧
      (waits o → S.phase c = .attempt) ∧ T = S.goOn c t (k r)) ∨ ∃ phase, T = S.turn c phase := by
  cases step with
  | perform here plain result =>
    exact Or.inl ⟨_, _, _, _, here, result, fun waiting => absurd waiting plain, rfl⟩
  | arm here waiting phase => exact Or.inr ⟨_, rfl⟩
  | win here waiting phase result => exact Or.inl ⟨_, _, _, _, here, result, fun _ => phase, rfl⟩
  | lose here waiting phase refused => exact Or.inr ⟨_, rfl⟩
  | doze here waiting phase => exact Or.inr ⟨_, rfl⟩

theorem thread_attempts {T : System (Threads Core I σ) Core} (steps : T.step = ThreadStep exec waits)
    {o : I.Op} {k : I.Res o → Prog I Unit} (reach : Reachable T S) (here : S.code c = .op o k)
    (waiting : waits o) :
    ∃ S', Reachable T S' ∧ S'.mem = S.mem ∧ S'.code = S.code ∧ S'.phase c = .attempt := by
  have arm : ∀ R : Threads Core I σ, Reachable T R → R.mem = S.mem → R.code = S.code →
      R.phase c = .arm →
      ∃ S', Reachable T S' ∧ S'.mem = S.mem ∧ S'.code = S.code ∧ S'.phase c = .attempt := by
    intro R there mem code phase
    refine ⟨R.turn c .attempt, ?_, mem, code, by simp [Threads.turn]⟩
    apply reachable_step there
    rw [steps]
    exact .arm (by rw [code]; exact here) waiting phase
  cases phase : S.phase c with
  | arm => exact arm S reach rfl rfl phase
  | attempt => exact ⟨S, reach, rfl, rfl, phase⟩
  | doze =>
    have woken : Reachable T (S.turn c .arm) := by
      apply reachable_step reach
      rw [steps]
      exact .doze here waiting phase
    exact arm _ woken rfl rfl (by simp [Threads.turn])

theorem thread_takes {T : System (Threads Core I σ) Core} (steps : T.step = ThreadStep exec waits)
    {o : I.Op} {k : I.Res o → Prog I Unit} {r : I.Res o} {t : σ} (reach : Reachable T S)
    (here : S.code c = .op o k) (result : exec c o S.mem = some (r, t)) :
    ∃ S', Reachable T S' ∧ S'.mem = t ∧ S'.code = Function.update S.code c (k r) := by
  by_cases waiting : waits o
  · obtain ⟨R, there, mem, code, phase⟩ := thread_attempts steps reach here waiting
    refine ⟨R.goOn c t (k r), ?_, rfl, by rw [← code]; rfl⟩
    apply reachable_step there
    rw [steps]
    exact .win (by rw [code]; exact here) waiting phase (by rw [mem]; exact result)
  · refine ⟨S.goOn c t (k r), ?_, rfl, rfl⟩
    apply reachable_step reach
    rw [steps]
    exact .perform here waiting result

theorem thread_runs {T : System (Threads Core I σ) Core} (steps : T.step = ThreadStep exec waits)
    {β : Type} {ok : I.Op → σ → Prop} {post : β → σ → Prop} {s : σ} (p : Prog I β)
    (rest : β → Prog I Unit) (solo : p.Solo (exec c) ok post s) (reach : Reachable T S)
    (mem : S.mem = s) (code : S.code c = p.bind rest) :
    ∃ b t S', post b t ∧ Reachable T S' ∧ S'.mem = t ∧
      S'.code = Function.update S.code c (rest b) := by
  have start : S.code = Function.update S.code c (p.bind rest) := by
    rw [← code, Function.update_eq_self]
  have step : ∀ o k s r t R, ok o s → exec c o s = some (r, t) → Reachable T R →
      R.mem = s ∧ R.code = Function.update S.code c (.op o k) →
      ∃ R', Reachable T R' ∧ R'.mem = t ∧ R'.code = Function.update S.code c (k r) := by
    intro o k s r t R _ performed there here
    obtain ⟨rfl, code⟩ := here
    have next : R.code c = .op o k := by simp [code]
    obtain ⟨R', there', mem', code'⟩ := thread_takes steps there next performed
    refine ⟨R', there', mem', ?_⟩
    rw [code', code, Function.update_idem]
  exact reachable_solo (fun p s R => R.mem = s ∧ R.code = Function.update S.code c p) step solo
    reach ⟨mem, start⟩

/-- Nothing more comes: the program is over, or at an operation that never succeeds. -/
def Ends (exec : Core → Exec I σ) (waits : I.Op → Prop) (p : Prog I Unit) : Prop :=
  p = .ret () ∨ ∃ o k, p = .op o k ∧ ¬ waits o ∧ ∀ c s, exec c o s = none

def Threads.tailed (S : Threads Core I σ) (tail : Core → Prog I Unit) : Threads Core I σ :=
  { S with code := fun c => (S.code c).bind fun _ => tail c }

theorem tailed_goOn (tail : Core → Prog I Unit) (S : Threads Core I σ) (c : Core) (t : σ)
    (p : Prog I Unit) :
    (S.tailed tail).goOn c t (p.bind fun _ => tail c) = (S.goOn c t p).tailed tail := by
  have code : Function.update (S.tailed tail).code c (p.bind fun _ => tail c) =
      ((S.goOn c t p).tailed tail).code := by
    funext d
    by_cases same : d = c
    · subst same
      simp [Threads.tailed, Threads.goOn]
    · simp [Threads.tailed, Threads.goOn, same]
  unfold Threads.goOn
  rw [code]
  rfl

omit [DecidableEq Core] in
theorem tailed_op {tail : Core → Prog I Unit} (ends : ∀ c, Ends exec waits (tail c)) {o : I.Op}
    {k : I.Res o → Prog I Unit} (here : (S.tailed tail).code c = .op o k) :
    (∃ q, S.code c = .op o q ∧ k = fun r => (q r).bind fun _ => tail c) ∨
      ¬ waits o ∧ ∀ s, exec c o s = none := by
  have form : (S.code c).bind (fun _ => tail c) = .op o k := here
  cases code : S.code c with
  | ret a =>
    rw [code, Prog.bind] at form
    rcases ends c with finished | ⟨o', k', loop, plain, stuck⟩
    · rw [finished] at form
      exact absurd form (by simp)
    · rw [loop] at form
      obtain ⟨rfl, _⟩ := Prog.op.inj form
      exact .inr ⟨plain, stuck c⟩
  | op o' q =>
    rw [code, Prog.bind] at form
    obtain ⟨rfl, same⟩ := Prog.op.inj form
    exact .inl ⟨q, rfl, (eq_of_heq same).symm⟩

theorem tailed_step {tail : Core → Prog I Unit} (ends : ∀ c, Ends exec waits (tail c)) :
    ThreadStep exec waits (S.tailed tail) c T ↔
      ∃ R, ThreadStep exec waits S c R ∧ T = R.tailed tail := by
  constructor
  · intro step
    cases step with
    | perform here plain result =>
      rcases tailed_op ends here with ⟨q, code, rfl⟩ | ⟨_, stuck⟩
      · exact ⟨_, .perform code plain result, tailed_goOn tail S c _ _⟩
      · exact absurd ((stuck _).symm.trans result) (by simp)
    | arm here waiting phase =>
      rcases tailed_op ends here with ⟨q, code, rfl⟩ | ⟨plain, _⟩
      · exact ⟨_, .arm code waiting phase, rfl⟩
      · exact absurd waiting plain
    | win here waiting phase result =>
      rcases tailed_op ends here with ⟨q, code, rfl⟩ | ⟨plain, _⟩
      · exact ⟨_, .win code waiting phase result, tailed_goOn tail S c _ _⟩
      · exact absurd waiting plain
    | lose here waiting phase refused =>
      rcases tailed_op ends here with ⟨q, code, rfl⟩ | ⟨plain, _⟩
      · exact ⟨_, .lose code waiting phase refused, rfl⟩
      · exact absurd waiting plain
    | doze here waiting phase =>
      rcases tailed_op ends here with ⟨q, code, rfl⟩ | ⟨plain, _⟩
      · exact ⟨_, .doze code waiting phase, rfl⟩
      · exact absurd waiting plain
  · rintro ⟨R, step, rfl⟩
    have behind : ∀ {o : I.Op} {k : I.Res o → Prog I Unit}, S.code c = .op o k →
        (S.tailed tail).code c = .op o fun r => (k r).bind fun _ => tail c := by
      intro o k here
      show (S.code c).bind _ = _
      rw [here]
      rfl
    cases step with
    | perform here plain result =>
      rw [← tailed_goOn]
      exact .perform (behind here) plain result
    | arm here waiting phase => exact .arm (behind here) waiting phase
    | win here waiting phase result =>
      rw [← tailed_goOn]
      exact .win (behind here) waiting phase result
    | lose here waiting phase refused => exact .lose (behind here) waiting phase refused
    | doze here waiting phase => exact .doze (behind here) waiting phase

theorem tailed_reachable {Sys Tailed : System (Threads Core I σ) Core} {tail : Core → Prog I Unit}
    (ends : ∀ c, Ends exec waits (tail c)) (steps : Sys.step = ThreadStep exec waits)
    (steps' : Tailed.step = ThreadStep exec waits)
    (first : ∀ S, Tailed.init S ↔ ∃ R, Sys.init R ∧ S = R.tailed tail) :
    Reachable Tailed S ↔ ∃ R, Reachable Sys R ∧ S = R.tailed tail := by
  constructor
  · intro reach
    apply reachable_invariant _ _ reach
    · intro S start
      obtain ⟨R, here, same⟩ := (first S).mp start
      exact ⟨R, reachable_init here, same⟩
    · rintro _ c T ⟨R, there, rfl⟩ step
      rw [steps'] at step
      obtain ⟨U, moved, same⟩ := (tailed_step ends).mp step
      exact ⟨U, reachable_step there (by rw [steps]; exact moved), same⟩
  · rintro ⟨R, reach, rfl⟩
    apply reachable_invariant _ _ reach
    · intro R start
      exact reachable_init ((first _).mpr ⟨R, start, rfl⟩)
    · intro R c U there step
      apply reachable_step there
      rw [steps] at step
      rw [steps']
      exact (tailed_step ends).mpr ⟨U, step, rfl⟩

section Sections
variable (lock unlock : I.Op) (body : Prog I Unit)

def locked : Prog I Unit := body.bind fun _ => .op unlock fun _ => .ret ()

def sections : Nat → Prog I Unit
  | 0 => .ret ()
  | n + 1 => .op lock fun _ => (locked unlock body).bind fun _ => sections n

end Sections

variable {lock unlock : I.Op} {body : Prog I Unit} {between : Nat → σ → Prop}
  {ok : Core → I.Op → σ → Prop}

/-- What makes sections serial: from a state between two sections the lock can be
    won and the rest runs alone to the next such state, and at each of its
    operations (`ok`) no other core can win the lock. -/
structure Serialised (exec : Core → Exec I σ) (lock unlock : I.Op) (body : Prog I Unit)
    (between : Nat → σ → Prop) (ok : Core → I.Op → σ → Prop) : Prop where
  opens : ∀ c k s, between k s → ∃ r t, exec c lock s = some (r, t) ∧
    (locked unlock body).Solo (exec c) (ok c) (fun _ => between (k + 1)) t
  shuts : ∀ c d o s, ok c o s → exec d lock s = none

def Serial (exec : Core → Exec I σ) (lock unlock : I.Op) (body : Prog I Unit)
    (between : Nat → σ → Prop) (ok : Core → I.Op → σ → Prop) (S : Threads Core I σ) : Prop :=
  ∃ k, (between k S.mem ∧ ∀ d, ∃ n, S.code d = sections lock unlock body n) ∨
    ∃ (c : Core) (o : I.Op) (q : I.Res o → Prog I Unit) (n : Nat),
      S.code c = (Prog.op o q).bind (fun _ => sections lock unlock body n) ∧
      (Prog.op o q).Solo (exec c) (ok c) (fun _ => between (k + 1)) S.mem ∧
      ∀ d, d ≠ c → ∃ n, S.code d = sections lock unlock body n

omit [DecidableEq Core] in
theorem locked_op (unlock : I.Op) (body : Prog I Unit) :
    ∃ o q, locked unlock body = .op o q := by
  cases body with
  | ret a => exact ⟨unlock, _, rfl⟩
  | op o k => exact ⟨o, _, rfl⟩

theorem serial_step (serialised : Serialised exec lock unlock body between ok)
    (serial : Serial exec lock unlock body between ok S) (step : ThreadStep exec waits S c T) :
    Serial exec lock unlock body between ok T := by
  rcases step_cases step with ⟨o, k, r, t, here, result, _, rfl⟩ | ⟨phase, rfl⟩
  · obtain ⟨j, ⟨quiet, all⟩ | ⟨d, o', q, n, code, solo, others⟩⟩ := serial
    · -- the core wins the lock
      obtain ⟨n, code⟩ := all c
      cases n with
      | zero =>
        rw [code] at here
        exact absurd here (by simp [sections])
      | succ n =>
        rw [code] at here
        obtain ⟨rfl, same⟩ := Prog.op.inj here
        obtain rfl := eq_of_heq same
        obtain ⟨r', t', won, solo⟩ := serialised.opens c j S.mem quiet
        rw [result] at won
        obtain ⟨rfl, rfl⟩ : r = r' ∧ t = t' := by simpa using won
        obtain ⟨o, q, form⟩ := locked_op unlock body
        refine ⟨j, Or.inr ⟨c, o, q, n, ?_, form ▸ solo, ?_⟩⟩
        · simp [Threads.goOn, form]
        · intro d other
          obtain ⟨m, there⟩ := all d
          exact ⟨m, by simpa [Threads.goOn, other] using there⟩
    · obtain ⟨allowed, r', t', performed, rest⟩ := solo
      by_cases same : c = d
      · -- the core inside goes on
        subst same
        rw [code] at here
        obtain ⟨rfl, equal⟩ := Prog.op.inj here
        obtain rfl := eq_of_heq equal
        rw [result] at performed
        obtain ⟨rfl, rfl⟩ : r = r' ∧ t = t' := by simpa using performed
        have elsewhere : ∀ e, e ≠ c → ∃ m, (S.goOn c t ((q r).bind fun _ =>
            sections lock unlock body n)).code e = sections lock unlock body m := by
          intro e other
          obtain ⟨m, there⟩ := others e other
          exact ⟨m, by simpa [Threads.goOn, other] using there⟩
        cases after : q r with
        | ret a =>
          rw [after] at rest elsewhere
          refine ⟨j + 1, Or.inl ⟨rest, ?_⟩⟩
          intro e
          by_cases own : e = c
          · exact ⟨n, by simp [Threads.goOn, own, after, Prog.bind]⟩
          · simpa [after] using elsewhere e own
        | op o' q' =>
          rw [after] at rest elsewhere
          exact ⟨j, Or.inr ⟨c, o', q', n, by simp [Threads.goOn, after], rest, by
            simpa [after] using elsewhere⟩⟩
      · -- nobody else gets past the lock
        obtain ⟨m, there⟩ := others c same
        rw [there] at here
        cases m with
        | zero => exact absurd here (by simp [sections])
        | succ m =>
          obtain ⟨rfl, _⟩ := Prog.op.inj here
          rw [serialised.shuts d c o' S.mem allowed] at result
          exact absurd result (by simp)
  · exact serial

omit [DecidableEq Core] in
theorem serial_progress (serialised : Serialised exec lock unlock body between ok)
    (serial : Serial exec lock unlock body between ok S)
    (unfinished : ∃ c, S.code c ≠ .ret ()) :
    ∃ c o k, S.code c = .op o k ∧ (exec c o S.mem).isSome := by
  obtain ⟨j, ⟨quiet, all⟩ | ⟨d, o, q, n, code, ⟨_, r, t, performed, _⟩, _⟩⟩ := serial
  · obtain ⟨c, more⟩ := unfinished
    obtain ⟨n, code⟩ := all c
    cases n with
    | zero => exact absurd code more
    | succ n =>
      obtain ⟨r, t, won, _⟩ := serialised.opens c j S.mem quiet
      exact ⟨c, lock, _, code, by simp [won]⟩
  · exact ⟨d, o, _, code, by simp [performed]⟩

theorem sections_run {T : System (Threads Core I σ) Core} (steps : T.step = ThreadStep exec waits)
    (serialised : Serialised exec lock unlock body between ok) (n k : Nat)
    (reach : Reachable T S) (code : S.code c = sections lock unlock body n)
    (quiet : between k S.mem) : ∃ S', Reachable T S' ∧ between (k + n) S'.mem := by
  induction n generalizing k S with
  | zero => exact ⟨S, reach, quiet⟩
  | succ n ih =>
    obtain ⟨r, t, won, solo⟩ := serialised.opens c k S.mem quiet
    obtain ⟨S', reach', mem', code'⟩ := thread_takes steps reach code won
    obtain ⟨_, u, S'', quiet', reach'', rfl, code''⟩ :=
      thread_runs steps (locked unlock body) (fun _ => sections lock unlock body n) solo reach' mem'
        (by simp [code'])
    have more := ih (k + 1) reach'' (by simp [code'']) quiet'
    have count : k + 1 + n = k + (n + 1) := by omega
    rwa [count] at more

def Threads.Inside (S : Threads Core I σ) (lock unlock : I.Op) (c : Core) : Prop :=
  ∃ q : Prog I Unit, q.Avoids (· = lock) ∧ ∃ rest, S.code c = q.bind fun _ => .op unlock rest

theorem serial_alone (distinct : unlock ≠ lock)
    (serial : Serial exec lock unlock body between ok S) {d : Core}
    (insideC : S.Inside lock unlock c) (insideD : S.Inside lock unlock d) : c = d := by
  have outside : ∀ e n, S.code e = sections lock unlock body n → ¬ S.Inside lock unlock e := by
    intro e n code inside
    obtain ⟨q, avoids, rest, form⟩ := inside
    rw [code] at form
    cases n with
    | zero => cases q <;> exact absurd form (by simp [sections, Prog.bind])
    | succ n =>
      cases q with
      | ret a =>
        obtain ⟨same, _⟩ := Prog.op.inj form
        exact distinct same.symm
      | op o k =>
        obtain ⟨same, _⟩ := Prog.op.inj form
        exact avoids.1 same.symm
  obtain ⟨j, ⟨_, all⟩ | ⟨e, o, q, n, _, _, others⟩⟩ := serial
  · obtain ⟨n, code⟩ := all c
    exact absurd insideC (outside c n code)
  · have holder : ∀ x, S.Inside lock unlock x → x = e := by
      intro x inside
      by_contra other
      obtain ⟨m, code⟩ := others x other
      exact outside x m code inside
    rw [holder c insideC, holder d insideD]

/-- What a step does to the memory: nothing, the lock operation, or an operation the
    core inside may perform. -/
theorem serial_mem (serial : Serial exec lock unlock body between ok S)
    (step : ThreadStep exec waits S c T) : T.mem = S.mem ∨
      ∃ o r, exec c o S.mem = some (r, T.mem) ∧ (o = lock ∨ ok c o S.mem) := by
  rcases step_cases step with ⟨o, k, r, t, here, result, _, rfl⟩ | ⟨phase, rfl⟩
  · refine Or.inr ⟨o, r, result, ?_⟩
    have atLock : ∀ n, S.code c = sections lock unlock body n → o = lock := by
      intro n code
      rw [code] at here
      cases n with
      | zero => exact absurd here (by simp [sections])
      | succ n => exact (Prog.op.inj here).1.symm
    obtain ⟨j, ⟨_, all⟩ | ⟨d, o', q, n, code, ⟨allowed, _⟩, others⟩⟩ := serial
    · obtain ⟨n, code⟩ := all c
      exact Or.inl (atLock n code)
    · by_cases same : c = d
      · subst same
        rw [code] at here
        obtain ⟨rfl, _⟩ := Prog.op.inj here
        exact Or.inr allowed
      · obtain ⟨n, code⟩ := others c same
        exact Or.inl (atLock n code)
  · exact Or.inl rfl

end PiKernel.Interleaving
