import PiKernel.Lib.Sections
import PiKernel.Console.Source

/-!
Cores that call `printf`, each a list of messages of its own, in any order of
steps. The lock of printf.cpp keeps the messages whole: the terminal shows them
one after the other, those of one core in its order.
-/
namespace PiKernel.Console
open Program Transition Interleaving

/-- A call of `printf` whose arguments are what its format asks for. -/
structure Message where
  fmt : String
  va : List Arg
  out : List Char
  fits : tfpFormat fmt va = some out

def printfAll : List Message → ConsoleM Unit
  | [] => pure ()
  | m :: ms => do
    printf m.fmt m.va
    printfAll ms

def putChars : List Char → ConsoleM Unit
  | [] => pure ()
  | c :: out => do
    uartPutc c
    putChars out

theorem putChars_append (out more : List Char) :
    putChars (out ++ more) = (putChars out).bind fun _ => putChars more := by
  induction out with
  | nil => rfl
  | cons c out ih =>
    show (uartPutc c).bind (fun _ => putChars (out ++ more)) = _
    rw [ih]
    exact (bind_assoc (uartPutc c) _ _).symm

theorem putAll_cooked (out : List Char) : putAll out = putChars (cooked out) := by
  induction out with
  | nil => rfl
  | cons c out ih =>
    have first : uartPutcWrapper c = putChars (cooked [c]) := by
      unfold uartPutcWrapper
      by_cases newline : c = '\n'
      · subst newline
        rfl
      · simp only [newline, ↓reduceIte, cooked, List.flatMap_cons, List.flatMap_nil,
          List.append_nil]
        rfl
    rw [cooked_cons, putChars_append, ← first, ← ih]
    rfl

theorem message_format (m : Message) : format m.fmt m.va = putChars (cooked m.out) := by
  unfold format
  rw [m.fits]
  exact putAll_cooked m.out

theorem printfAll_jobs (ms : List Message) :
    printfAll ms = jobs (I := ConsoleI) (ConsoleOp.lock .printf) (ConsoleOp.unlock .printf)
      (fun m : Message => putChars (cooked m.out)) ms := by
  induction ms with
  | nil => rfl
  | cons m ms ih =>
    show (printf m.fmt m.va).bind (fun _ => printfAll ms) = _
    rw [ih]
    unfold printf
    rw [message_format]
    rfl

variable {Core : Type}

def shownMessages (h : List (Core × Message)) : List Char := h.flatMap fun x => cooked x.2.out

@[simp] theorem shownMessages_nil : shownMessages ([] : List (Core × Message)) = [] := rfl

theorem shownMessages_snoc (h : List (Core × Message)) (x : Core × Message) :
    shownMessages (h ++ [x]) = shownMessages h ++ cooked x.2.out := by
  simp [shownMessages]

structure Whole (h : List (Core × Message)) (s : Shared Core) : Prop where
  free : s.owner .printf = none
  text : s.text = shownMessages h

structure Writing (c : Core) (out : List Char) (h : List (Core × Message)) (s : Shared Core) :
    Prop where
  mine : s.owner .printf = some c
  text : ∃ done, done <+: out ∧ s.text = shownMessages h ++ done

theorem putChars_solo {c : Core} {out done rest : List Char} {h : List (Core × Message)}
    {s : Shared Core} (split : out = done ++ rest) (mine : s.owner .printf = some c)
    (text : s.text = shownMessages h ++ done) :
    (putChars rest).Solo (consoleExec c) (fun _ => Writing c out h)
      (fun _ t => t = s.write rest) s := by
  induction rest generalizing done s with
  | nil =>
    apply solo_ret
    simp [Shared.write]
  | cons ch rest ih =>
    have more : out = (done ++ [ch]) ++ rest := by simp [split]
    have begun : done <+: out := ⟨ch :: rest, split.symm⟩
    have tail := ih (s := s.write [ch]) more mine (by simp [text])
    apply solo_op (t := s.write [ch]) ⟨mine, done, begun, text⟩ rfl
    apply solo_mono _ tail
    intro _ t written
    rw [written, write_write]
    rfl

theorem message_section (c : Core) (m : Message) (h : List (Core × Message)) {s : Shared Core}
    (whole : Whole h s) : ∃ t, consoleExec c (.lock .printf) s = some ((), t) ∧
      (locked (I := ConsoleI) (ConsoleOp.unlock .printf) (putChars (cooked m.out))).Solo
        (consoleExec c) (fun _ => Writing c (cooked m.out) h) (fun _ => Whole (h ++ [(c, m)])) t := by
  refine ⟨s.own .printf (some c), lock_free whole.free, ?_⟩
  have begun : (s.own .printf (some c)).text = shownMessages h ++ [] := by simp [whole.text]
  apply solo_bind
  apply solo_mono _ (putChars_solo (List.nil_append (cooked m.out)).symm (own_same _ _ _) begun)
  intro _ t written
  subst written
  have full : ((s.own .printf (some c)).write (cooked m.out)).text =
      shownMessages h ++ cooked m.out := by simp [whole.text]
  apply solo_op ⟨by simp, cooked m.out, List.prefix_refl _, full⟩ rfl
  apply solo_ret
  constructor
  · simp
  · rw [shownMessages_snoc, own_text]
    exact full

theorem message_sections : Sectioned (I := ConsoleI)
    (consoleExec : Core → Exec ConsoleI (Shared Core)) (ConsoleOp.lock .printf) (ConsoleOp.unlock .printf)
    (fun m : Message => putChars (cooked m.out)) Whole
    (fun c m h _ => Writing c (cooked m.out) h) where
  opens c m h s whole := by
    obtain ⟨t, won, solo⟩ := message_section c m h whole
    exact ⟨(), t, won, solo⟩
  shuts c m h d o s writing := lock_taken writing.mine

variable [DecidableEq Core]

def printfCores (todo : Core → List Message) :
    System (Threads Core ConsoleI (Shared Core)) Core where
  init S := (S.mem.owner .printf = none ∧ S.mem.text = []) ∧
    S.code = (fun c => printfAll (todo c)) ∧ S.phase = fun _ => .arm
  step := ThreadStep consoleExec Waits

theorem printfCores_jobs (todo : Core → List Message) : printfCores todo =
    jobThreads consoleExec Waits (ConsoleOp.lock .printf) (ConsoleOp.unlock .printf)
      (fun m : Message => putChars (cooked m.out))
      (fun s : Shared Core => s.owner .printf = none ∧ s.text = []) todo := by
  unfold printfCores jobThreads
  simp only [printfAll_jobs]

/-- What the terminal may show: messages of the cores in some order that keeps the order
    of each core, and the beginning of one more. -/
inductive Told (todo : Core → List Message) : List Char → Prop where
  | whole (h : List (Core × Message)) (order : ∀ d, ofCore d h <+: todo d) :
      Told todo (shownMessages h)
  | cut (h : List (Core × Message)) (c : Core) (m : Message) (done : List Char)
      (order : ∀ d, ofCore d (h ++ [(c, m)]) <+: todo d) (begun : done <+: cooked m.out) :
      Told todo (shownMessages h ++ done)

theorem printf_inOrder {todo : Core → List Message} {S : Threads Core ConsoleI (Shared Core)}
    (reach : Reachable (printfCores todo) S) : InOrder consoleExec (ConsoleOp.lock .printf)
      (ConsoleOp.unlock .printf) (fun m : Message => putChars (cooked m.out)) Whole
      (fun c m h _ => Writing c (cooked m.out) h) todo S := by
  rw [printfCores_jobs] at reach
  exact jobThreads_inOrder message_sections (fun s fresh => ⟨fresh.1, fresh.2⟩) reach

theorem printf_messages_whole {todo : Core → List Message}
    {S : Threads Core ConsoleI (Shared Core)} (reach : Reachable (printfCores todo) S) :
    Told todo S.mem.text := by
  cases printf_inOrder reach with
  | @idle h left shares quiet code =>
    rw [quiet.text]
    exact .whole h fun d => ⟨left d, shares d⟩
  | @inside h left c m o q shares mine solo others =>
    obtain ⟨done, begun, text⟩ := solo.1.text
    rw [text]
    exact .cut h c m done (fun d => ⟨left d, shares d⟩) begun

/-- Nor is a message lost: from any state on all cores can finish, and the screen of cores
    that have finished shows each message of each core once. -/
theorem printf_messages_complete [Fintype Core] {todo : Core → List Message}
    {S : Threads Core ConsoleI (Shared Core)} (reach : Reachable (printfCores todo) S) :
    (∃ T, Reachable ((printfCores todo).onward S) T ∧ ∀ d, T.code d = .ret ()) ∧
      ((∀ d, S.code d = .ret ()) → ∃ h : List (Core × Message),
        (∀ d, ofCore d h = todo d) ∧ S.mem.text = shownMessages h) := by
  constructor
  · rw [printfCores_jobs] at reach ⊢
    exact jobThreads_finishes message_sections (fun s fresh => ⟨fresh.1, fresh.2⟩) reach
  · intro finished
    cases printf_inOrder reach with
    | @idle h left shares quiet code =>
      refine ⟨h, ?_, quiet.text⟩
      intro d
      have none : left d = [] := by
        cases rest : left d with
        | nil => rfl
        | cons m ms =>
          have more := code d
          rw [rest, finished d] at more
          exact absurd more (by simp [jobs])
      have all := shares d
      rwa [none, List.append_nil] at all
    | @inside h left c m o q shares mine solo others =>
      rw [finished c] at mine
      exact absurd mine (by simp [Prog.bind])

end PiKernel.Console
