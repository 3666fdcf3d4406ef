import PiKernel.Lib.Interleaving
import PiKernel.Console.Source

/-!
Calls of `critical(work)` on any number of cores: sections under one lock, with
the printf lock taken and given back twice inside each of them.
-/
namespace PiKernel.Console
open Program Transition Interleaving

variable {Core : Type}

def workLines (number : List Char) : List Char :=
  cooked ("*** hello ".toList ++ number ++ ['\n']) ++
    cooked ("*** goodbye ".toList ++ number ++ ['\n'])

def transcript (shown : Nat → List Char) : Nat → List Char
  | 0 => []
  | k + 1 => transcript shown k ++ workLines (shown k)

def shownNumber (k : Nat) : List Char := (toString ((k : Int).bmod (2 ^ 32))).toList

structure Between (k : Nat) (s : Shared Core) : Prop where
  free : ∀ l, s.owner l = none
  text : s.text = transcript shownNumber k
  counter : s.counter = k % 2 ^ 32
  stored : s.stored = k

/-- An operation by the holder of the section lock; a store is an increment. -/
structure InSection (c : Core) (o : ConsoleOp) (s : Shared Core) : Prop where
  mine : s.owner .critical = some c
  increment : ∀ x, o = .storeCounter x → x = (s.counter + 1) % 2 ^ 32

theorem hello_format (x : Int) : tfpFormat "*** hello %d\n" [.word x] =
    some ("*** hello ".toList ++ i2a (toSigned x) ++ ['\n']) := by
  simp [tfpFormat, formatLoop, directive, nextChar, convert, putchw]

theorem goodbye_format (x : Int) : tfpFormat "*** goodbye %d\n" [.word x] =
    some ("*** goodbye ".toList ++ i2a (toSigned x) ++ ['\n']) := by
  simp [tfpFormat, formatLoop, directive, nextChar, convert, putchw]

theorem putc_solo {c : Core} {s : Shared Core} (mine : s.owner .critical = some c) (ch : Char) :
    (uartPutc ch).Solo (consoleExec c) (InSection c)
      (fun _ t => t = s.write [ch]) s := by
  apply solo_op
  · exact ⟨mine, fun x same => absurd same (by simp)⟩
  · rfl
  · exact solo_ret rfl

theorem putf_solo {c : Core} {s : Shared Core} (mine : s.owner .critical = some c) (ch : Char) :
    (uartPutcWrapper ch).Solo (consoleExec c) (InSection c)
      (fun _ t => t = s.write (cooked [ch])) s := by
  unfold uartPutcWrapper
  by_cases newline : ch = '\n'
  · subst newline
    simp only [↓reduceIte, bind_eq]
    apply solo_bind
    apply solo_mono _ (putc_solo mine '\r')
    intro _ t first
    subst first
    apply solo_mono _ (putc_solo (s := s.write ['\r']) mine '\n')
    intro _ u second
    subst second
    simp [cooked]
  · simp only [newline, ↓reduceIte]
    apply solo_mono _ (putc_solo mine ch)
    intro _ t written
    subst written
    simp [cooked, newline]

theorem putAll_solo {c : Core} {s : Shared Core} (mine : s.owner .critical = some c)
    (out : List Char) : (putAll out).Solo (consoleExec c) (InSection c)
      (fun _ t => t = s.write (cooked out)) s := by
  induction out generalizing s with
  | nil =>
    apply solo_ret
    simp [Shared.write]
  | cons ch out ih =>
    apply solo_bind
    apply solo_mono _ (putf_solo mine ch)
    intro _ t first
    subst first
    apply solo_mono _ (ih (s := s.write (cooked [ch])) mine)
    intro _ u rest
    subst rest
    rw [write_write, ← cooked_cons]

theorem printf_solo {c : Core} {s : Shared Core} {fmt : String} {va : List Arg}
    {out : List Char} (mine : s.owner .critical = some c) (free : s.owner .printf = none)
    (fits : tfpFormat fmt va = some out) :
    (printf fmt va).Solo (consoleExec c) (InSection c)
      (fun _ t => t = s.write (cooked out)) s := by
  have body : format fmt va = putAll out := by
    unfold format
    rw [fits]
  have mine' : (s.own .printf (some c)).owner .critical = some c := by
    rw [own_other s (by decide)]
    exact mine
  unfold printf
  rw [body]
  apply solo_op ⟨mine, fun x same => absurd same (by simp)⟩ (lock_free free)
  apply solo_bind (p := putAll out)
  apply solo_mono _ (putAll_solo mine' out)
  intro _ t written
  subst written
  apply solo_op ⟨mine', fun x same => absurd same (by simp)⟩ rfl
  apply solo_ret
  exact own_write_back free c (cooked out)

theorem line_solo {c : Core} {s : Shared Core} {fmt : String} {out : Nat → List Char}
    (mine : s.owner .critical = some c) (free : s.owner .printf = none)
    (fits : ∀ x : Nat, tfpFormat fmt [.word x] = some (out x)) :
    (loadCounter.bind fun x => printf fmt [.word x]).Solo (consoleExec c) (InSection c)
      (fun _ t => t = s.write (cooked (out s.counter))) s := by
  apply solo_op
  · exact ⟨mine, fun x same => absurd same (by simp)⟩
  · rfl
  · exact printf_solo mine free (fits s.counter)

theorem work_solo {c : Core} {s : Shared Core} (mine : s.owner .critical = some c)
    (free : s.owner .printf = none) :
    work.Solo (consoleExec c) (InSection c) (fun _ t => t =
      { s.write (workLines (i2a (toSigned s.counter))) with
        counter := (s.counter + 1) % 2 ^ 32
        stored := s.stored + 1 }) s := by
  have split : work = (loadCounter.bind fun x => printf "*** hello %d\n" [.word x]).bind fun _ =>
      (loadCounter.bind fun x => printf "*** goodbye %d\n" [.word x]).bind fun _ =>
        loadCounter.bind fun x => storeCounter ((x + 1) % 2 ^ 32) := by
    simp only [work, bind_eq, Program.bind_assoc]
  rw [split]
  apply solo_bind
  apply solo_mono _ (line_solo mine free fun x => hello_format x)
  intro _ t hello
  subst hello
  apply solo_bind
  apply solo_mono _ (line_solo (s := s.write _) mine free fun x => goodbye_format x)
  intro _ t goodbye
  subst goodbye
  rw [write_write]
  apply solo_op ⟨mine, fun x same => absurd same (by simp)⟩ rfl
  apply solo_op ⟨mine, fun x same => (ConsoleOp.storeCounter.inj same).symm⟩ rfl
  exact solo_ret rfl

theorem shown_counter (k : Nat) : i2a (toSigned ((k % 2 ^ 32 : Nat) : Int)) = shownNumber k := by
  rw [i2a_toSigned]
  unfold shownNumber
  rw [Int.natCast_emod, Int.emod_bmod]

theorem critical_eq (body : ConsoleM Unit) : critical body =
    .op (ConsoleOp.lock .critical) fun _ => locked (ConsoleOp.unlock .critical) body := rfl

theorem criticalCalls_eq (n : Nat) :
    criticalCalls n = sections (ConsoleOp.lock .critical) (ConsoleOp.unlock .critical) work n := by
  induction n with
  | zero => rfl
  | succ n ih =>
    simp only [criticalCalls, bind_eq, critical_eq, Prog.bind, ih, sections]

theorem work_serialised : Serialised consoleExec (ConsoleOp.lock .critical : ConsoleI.Op)
    (ConsoleOp.unlock .critical) work (@Between Core) InSection where
  opens := by
    intro c k s quiet
    refine ⟨(), s.own .critical (some c), lock_free (quiet.free .critical), ?_⟩
    have mine : (s.own .critical (some c)).owner .critical = some c := own_same s .critical _
    have free : (s.own .critical (some c)).owner .printf = none := by
      rw [own_other s (by decide)]
      exact quiet.free .printf
    apply solo_bind
    apply solo_mono _ (work_solo mine free)
    intro _ t done
    subst done
    apply solo_op ⟨mine, fun x same => absurd same (by simp)⟩ rfl
    apply solo_ret
    constructor
    · intro l
      cases l with
      | critical => simp [Shared.own]
      | printf => simpa [Shared.own] using quiet.free .printf
    · simp only [transcript, quiet.text, quiet.counter,
        shown_counter, Shared.own, Shared.write]
    · simp [Shared.own, quiet.counter]
    · simp [Shared.own, Shared.write, quiet.stored]
  shuts := by
    intro c d o s allowed
    exact lock_taken allowed.mine

abbrev InTurn (S : Threads Core ConsoleI (Shared Core)) : Prop :=
  Serial consoleExec (ConsoleOp.lock .critical) (ConsoleOp.unlock .critical) work Between
    InSection S

theorem fresh_between : Between 0 (Shared.fresh : Shared Core) :=
  ⟨fun _ => rfl, rfl, rfl, rfl⟩

theorem inTurn_text {S : Threads Core ConsoleI (Shared Core)} (serial : InTurn S) :
    ∃ k, S.mem.text <+: transcript shownNumber k := by
  obtain ⟨k, ⟨quiet, _⟩ | ⟨c, o, q, n, _, solo, _⟩⟩ := serial
  · exact ⟨k, quiet.text ▸ List.prefix_refl _⟩
  · obtain ⟨_, t, quiet, grown⟩ := @solo_reaches ConsoleI Unit (Shared Core) (consoleExec c)
      (InSection c) (fun s t => s.text <+: t.text) (fun s => List.prefix_refl _)
      (fun s t u first second => first.trans second) (fun o s r t result => exec_text result)
      _ _ _ solo
    exact ⟨k + 1, quiet.text ▸ grown⟩

theorem exec_counter {c : Core} {o : ConsoleOp} {s t : Shared Core} {r : o.Res}
    (kept : s.counter = s.stored % 2 ^ 32) (result : consoleExec c o s = some (r, t))
    (increment : ∀ x, o = .storeCounter x → x = (s.counter + 1) % 2 ^ 32) :
    t.counter = t.stored % 2 ^ 32 := by
  cases o with
  | lock l =>
    cases held : s.owner l with
    | some d =>
      rw [lock_taken held] at result
      exact absurd result (by simp)
    | none =>
      obtain rfl := exec_state result (lock_free held)
      exact kept
  | unlock l =>
    obtain rfl := exec_state result rfl
    exact kept
  | putc ch =>
    obtain rfl := exec_state result rfl
    exact kept
  | loadCounter =>
    obtain rfl := exec_state result rfl
    exact kept
  | storeCounter x =>
    obtain rfl := exec_state result rfl
    have value := increment x rfl
    simp only
    omega
  | undefined => exact absurd result (by simp [consoleExec])
  | wfi => exact absurd result (by simp [consoleExec])
  | spin => exact absurd result (by simp [consoleExec])

variable [DecidableEq Core]

def criticalCores (calls : Core → Nat) : System (Threads Core ConsoleI (Shared Core)) Core where
  init S := S = ⟨.fresh, fun c => criticalCalls (calls c), fun _ => .arm⟩
  step := ThreadStep consoleExec Waits

def InsideWork (S : Threads Core ConsoleI (Shared Core)) (c : Core) : Prop :=
  S.Inside (ConsoleOp.lock .critical) (ConsoleOp.unlock .critical) c

/-- The sections of a state look as if they had been run one after the other:
    `shown` are the numbers they print, `count` the counter after a number of stores. -/
structure Serialisable (shown : Nat → List Char) (count : Nat → Nat)
    (S : Threads Core ConsoleI (Shared Core)) : Prop where
  alone : ∀ c d, InsideWork S c → InsideWork S d → c = d
  text : ∃ k, S.mem.text <+: transcript shown k
  counter : S.mem.counter = count S.mem.stored
  progress : (∃ c, S.code c ≠ .ret ()) →
    ∃ c o k, S.code c = .op o k ∧ (consoleExec c o S.mem).isSome

theorem reachable_inTurn {calls : Core → Nat} {S : Threads Core ConsoleI (Shared Core)}
    (reach : Reachable (criticalCores calls) S) : InTurn S := by
  apply reachable_invariant _ _ reach
  · intro S first
    subst first
    exact ⟨0, Or.inl ⟨fresh_between, fun d => ⟨calls d, criticalCalls_eq (calls d)⟩⟩⟩
  · intro S c T serial step
    exact serial_step work_serialised serial step

theorem reachable_counter {calls : Core → Nat} {S : Threads Core ConsoleI (Shared Core)}
    (reach : Reachable (criticalCores calls) S) : S.mem.counter = S.mem.stored % 2 ^ 32 := by
  have both : InTurn S ∧ S.mem.counter = S.mem.stored % 2 ^ 32 := by
    apply @reachable_invariant _ _ (criticalCores calls)
      (fun S => InTurn S ∧ S.mem.counter = S.mem.stored % 2 ^ 32) _ _ S reach
    · intro S first
      refine ⟨reachable_inTurn (reachable_init first), ?_⟩
      subst first
      rfl
    · intro S c T before step
      obtain ⟨serial, kept⟩ := before
      refine ⟨serial_step work_serialised serial step, ?_⟩
      rcases serial_mem serial step with same | ⟨o, r, result, allowed⟩
      · rw [same]
        exact kept
      · apply exec_counter kept result
        intro x store
        rcases allowed with taking | inside
        · exact absurd (taking.symm.trans store) (by simp)
        · exact inside.increment x store
  exact both.2

/-- Every interleaving is serialisable, with the numbers `%d` shows for a `uint32_t`. -/
theorem critical_serialisable (calls : Core → Nat) (S : Threads Core ConsoleI (Shared Core))
    (reach : Reachable (criticalCores calls) S) :
    Serialisable shownNumber (fun stored => stored % 2 ^ 32) S where
  alone := fun c d insideC insideD =>
    serial_alone (by simp) (reachable_inTurn reach) insideC insideD
  text := inTurn_text (reachable_inTurn reach)
  counter := reachable_counter reach
  progress := serial_progress work_serialised (reachable_inTurn reach)

theorem calls_run (calls : Core → Nat) (c : Core) : ∃ S, Reachable (criticalCores calls) S ∧
    Between (calls c) S.mem := by
  obtain ⟨S, reach, quiet⟩ := @sections_run Core _ ConsoleI (Shared Core) consoleExec Waits
    ⟨.fresh, fun c => criticalCalls (calls c), fun _ => .arm⟩ c (ConsoleOp.lock .critical)
    (ConsoleOp.unlock .critical) work Between InSection (criticalCores calls) rfl work_serialised
    (calls c) 0 (reachable_init rfl) (criticalCalls_eq (calls c)) fresh_between
  rw [Nat.zero_add] at quiet
  exact ⟨S, reach, quiet⟩

theorem critical_serialisable_t0 : ∃ S, Reachable (criticalCores fun _ : Fin 4 => 1) S ∧
    S.mem.text = "*** hello 0\r\n*** goodbye 0\r\n".toList ∧
    Serialisable shownNumber (fun stored => stored % 2 ^ 32) S := by
  obtain ⟨S, reach, quiet⟩ := calls_run (fun _ : Fin 4 => 1) 0
  exact ⟨S, reach, quiet.text, critical_serialisable (fun _ => 1) S reach⟩

theorem mem_cooked {c : Char} (plain : c ≠ '\r') (out : List Char) :
    c ∈ cooked out ↔ c ∈ out := by
  induction out with
  | nil => simp
  | cons d out ih =>
    rw [cooked_cons, List.mem_append, ih, List.mem_cons]
    by_cases newline : d = '\n'
    · subst newline
      simp [cooked, plain]
    · simp [cooked, newline]

theorem minus_workLines (number : List Char) : '-' ∈ workLines number ↔ '-' ∈ number := by
  simp [workLines, mem_cooked]

theorem natural_no_minus (k : Nat) :
    '-' ∉ transcript (fun i => (toString i).toList) k := by
  induction k with
  | zero => simp [transcript]
  | succ k ih =>
    intro member
    rcases List.mem_append.mp member with before | lines
    · exact ih before
    · have minus : '-' ∈ Nat.toDigits 10 k := by simpa using (minus_workLines _).mp lines
      have digit := Nat.isDigit_of_mem_toDigits (by omega) (le_refl 10) minus
      exact absurd digit (by decide)

theorem shown_minus {k : Nat} (wide : 2 ^ 31 < k) : '-' ∈ transcript shownNumber k := by
  induction k with
  | zero => omega
  | succ k ih =>
    by_cases last : k = 2 ^ 31
    · apply List.mem_append_right
      rw [minus_workLines, last]
      decide
    · exact List.mem_append_left _ (ih (by omega))

/-- One core and `2 ^ 32` calls: negative numbers on the terminal, and the counter back at 0. -/
theorem counter_wraps : ∃ S, Reachable (criticalCores fun _ : Unit => 2 ^ 32) S ∧
    (∀ k, ¬ S.mem.text <+: transcript (fun i => (toString i).toList) k) ∧
    S.mem.counter ≠ S.mem.stored := by
  obtain ⟨S, reach, quiet⟩ := calls_run (fun _ : Unit => 2 ^ 32) ()
  refine ⟨S, reach, ?_, ?_⟩
  · intro k shown
    have minus : '-' ∈ S.mem.text := by
      rw [quiet.text]
      exact shown_minus (by decide)
    exact natural_no_minus k (shown.subset minus)
  · rw [quiet.counter, quiet.stored]
    decide

end PiKernel.Console
