import PiKernel.Console.Messages
import PiKernel.Console.Numbers

/-!
The reports of `exc_handler` of src/exec.cpp: on any number of cores that print
and then fault no part of a report is lost, and what a whole report says about
the exception is all but the high halves of three registers.
-/
namespace PiKernel.Console
open Program Transition Interleaving

def formatAll (fmt : List Char) (va : List Arg) : Option (List Char) := formatLoop fmt.length fmt va

theorem formatAll_plain {text : List Char} (plain : '%' ∉ text) (fmt : List Char) (va : List Arg) :
    formatAll (text ++ fmt) va = (formatAll fmt va).map (text ++ ·) := by
  unfold formatAll
  induction text with
  | nil => simp
  | cons c text ih =>
    rw [List.mem_cons, not_or] at plain
    have other : c ≠ '%' := fun same => plain.1 same.symm
    simp only [List.cons_append, List.length_cons, formatLoop, other, ne_eq, not_false_eq_true,
      ↓reduceIte, ih plain.2, Option.map_map]
    rfl

theorem formatAll_text {text : List Char} (plain : '%' ∉ text) (va : List Arg) :
    formatAll text va = some text := by
  have whole := formatAll_plain plain [] va
  rw [List.append_nil] at whole
  rw [whole]
  show some (text ++ []) = _
  rw [List.append_nil]

def shownRegister (uc : Bool) (w : Nat) : List Char := ui2a (w % 2 ^ 32) 16 uc

theorem formatAll_hex (uc : Bool) (w : Nat) (fmt : List Char) (va : List Arg) :
    formatAll ('%' :: (if uc then 'X' else 'x') :: fmt) (.word w :: va) =
      (formatAll fmt va).map (shownRegister uc w ++ ·) := by
  have word : toUnsigned w = w % 2 ^ 32 := by
    unfold toUnsigned
    omega
  have enough := formatLoop_enough (fmt.length + 1) fmt.length fmt va (by omega) (le_refl _)
  unfold formatAll shownRegister
  cases uc <;>
    simp [formatLoop, directive, nextChar, convert, putchw, word, enough]

def Message.plain (s : String) (noPercent : '%' ∉ s.toList) : Message where
  fmt := s
  va := []
  out := s.toList
  fits := formatAll_text noPercent []

def typeMessages (type : Nat) : List Message :=
  match type with
  | 0 => [.plain "Synchronous" (by decide)]
  | 1 => [.plain "IRQ" (by decide)]
  | 2 => [.plain "FIQ" (by decide)]
  | 3 => [.plain "SError" (by decide)]
  | _ => []

theorem className_plain (ec : Nat) : '%' ∉ (className ec).toList := by
  unfold className
  split <;> decide

theorem faultName_plain (status : Nat) : '%' ∉ (faultName status).toList := by
  unfold faultName
  split <;> decide

theorem levelName_plain (status : Nat) : '%' ∉ (levelName status).toList := by
  unfold levelName
  split <;> decide

def causeMessages (esr : Nat) : List Message :=
  if esr >>> 26 = 0b100100 ∨ esr >>> 26 = 0b100101 then
    [.plain ", " (by decide), .plain (faultName ((esr >>> 2) % 4)) (faultName_plain _),
      .plain (levelName (esr % 4)) (levelName_plain _)]
  else []

def registersText (e : Exception) : List Char :=
  ":\n  ESR_EL1 0x".toList ++ (shownRegister true e.esr ++
    (" ELR_EL1 0x".toList ++ (shownRegister true e.elr ++
      -- the `0%xX` of the source
      ("\n SPSR_EL1 0".toList ++ (shownRegister false e.spsr ++
        ("X FAR_EL1 0x".toList ++ (shownRegister true e.far ++ ['\n'])))))))

theorem registers_format (e : Exception) :
    tfpFormat ":\n  ESR_EL1 0x%X ELR_EL1 0x%X\n SPSR_EL1 0%xX FAR_EL1 0x%X\n"
      [.word e.esr, .word e.elr, .word e.spsr, .word e.far] = some (registersText e) := by
  have pieces : ":\n  ESR_EL1 0x%X ELR_EL1 0x%X\n SPSR_EL1 0%xX FAR_EL1 0x%X\n".toList =
      ":\n  ESR_EL1 0x".toList ++ '%' :: 'X' :: (" ELR_EL1 0x".toList ++ '%' :: 'X' ::
        ("\n SPSR_EL1 0".toList ++ '%' :: 'x' :: ("X FAR_EL1 0x".toList ++ '%' :: 'X' :: ['\n']))) := rfl
  have upper := formatAll_hex true
  have lower := formatAll_hex false
  simp only [↓reduceIte, Bool.false_eq_true] at upper lower
  show formatAll _ _ = _
  rw [pieces, formatAll_plain (by decide), upper, formatAll_plain (by decide), upper,
    formatAll_plain (by decide), lower, formatAll_plain (by decide), upper,
    formatAll_text (by decide)]
  rfl

def registersMessage (e : Exception) : Message := ⟨_, _, registersText e, registers_format e⟩

def reportMessages (e : Exception) : List Message :=
  typeMessages e.type ++ .plain ": " (by decide) ::
    .plain (className (e.esr >>> 26)) (className_plain _) ::
    (causeMessages e.esr ++ [registersMessage e])

def report (e : Exception) : List Char := (reportMessages e).flatMap Message.out

theorem printfAll_bind (m : Message) (ms : List Message) (k : Unit → ConsoleM Unit) :
    (printfAll (m :: ms)).bind k = (printf m.fmt m.va).bind fun _ => (printfAll ms).bind k :=
  bind_assoc (printf m.fmt m.va) _ k

theorem printfAll_append (ms ns : List Message) :
    printfAll (ms ++ ns) = (printfAll ms).bind fun _ => printfAll ns := by
  induction ms with
  | nil => rfl
  | cons m ms ih =>
    rw [printfAll_bind, ← ih]
    rfl

theorem printType_messages : ∀ type, printType type = printfAll (typeMessages type)
  | 0 | 1 | 2 | 3 => rfl
  | _ + 4 => rfl

theorem causeMessages_data {esr : Nat} (data : esr >>> 26 = 0b100100 ∨ esr >>> 26 = 0b100101) :
    causeMessages esr = [.plain ", " (by decide),
      .plain (faultName ((esr >>> 2) % 4)) (faultName_plain _),
      .plain (levelName (esr % 4)) (levelName_plain _)] := if_pos data

theorem causeMessages_other {esr : Nat}
    (other : ¬ (esr >>> 26 = 0b100100 ∨ esr >>> 26 = 0b100101)) : causeMessages esr = [] :=
  if_neg other

theorem excHandler_messages (e : Exception) :
    excHandler e = (printfAll (reportMessages e)).bind fun _ => spinLoop := by
  unfold reportMessages
  rw [printfAll_append, bind_assoc, ← printType_messages]
  unfold excHandler
  by_cases data : e.esr >>> 26 = 0b100100 ∨ e.esr >>> 26 = 0b100101
  · simp only [causeMessages_data data, data, ↓reduceIte, List.cons_append, List.nil_append,
      printfAll_bind]
    rfl
  · simp only [causeMessages_other data, data, ↓reduceIte, List.nil_append, printfAll_bind]
    rfl

def uncook : List Char → List Char
  | [] => []
  | c :: out => if c = '\r' ∧ out.head? = some '\n' then uncook out else c :: uncook out

theorem cooked_head (out : List Char) : (cooked out).head? ≠ some '\n' := by
  cases out with
  | nil => simp
  | cons c out =>
    by_cases newline : c = '\n'
    · simp [cooked, newline]
    · simp [cooked, newline]

theorem uncook_cooked (out : List Char) : uncook (cooked out) = out := by
  induction out with
  | nil => rfl
  | cons c out ih =>
    by_cases newline : c = '\n'
    · subst newline
      have text : cooked ('\n' :: out) = '\r' :: '\n' :: cooked out := rfl
      simp [text, uncook, ih]
    · have text : cooked (c :: out) = c :: cooked out := by simp [cooked, newline]
      simp [text, uncook, cooked_head out, ih]

theorem split_first {c : Char} {a a' b b' : List Char} (absent : c ∉ a) (absent' : c ∉ a')
    (same : a ++ c :: b = a' ++ c :: b') : a = a' ∧ b = b' := by
  induction a generalizing a' with
  | nil =>
    cases a' with
    | nil => exact ⟨rfl, (List.cons.inj same).2⟩
    | cons d a' =>
      obtain ⟨rfl, _⟩ := List.cons.inj same
      exact absurd List.mem_cons_self absent'
  | cons d a ih =>
    cases a' with
    | nil =>
      obtain ⟨rfl, _⟩ := List.cons.inj same
      exact absurd List.mem_cons_self absent
    | cons d' a' =>
      obtain ⟨rfl, rest⟩ := List.cons.inj same
      rw [List.mem_cons, not_or] at absent absent'
      obtain ⟨rfl, tail⟩ := ih absent.2 absent'.2 rest
      exact ⟨rfl, tail⟩

/-- What a shown register tells is read back by `a2i`. -/
theorem split_register {uc : Bool} {w w' : Nat} {c : Char} {b b' : List Char} (stops : Stops 16 c)
    (same : shownRegister uc w ++ c :: b = shownRegister uc w' ++ c :: b') :
    w % 2 ^ 32 = w' % 2 ^ 32 ∧ b = b' := by
  have first : readNumber 16 0 (shownRegister uc w ++ c :: b) =
      (toSigned (w % 2 ^ 32 : Nat), c, b) :=
    readNumber_ui2a (by omega) (by omega) (by omega) uc stops
  have second : readNumber 16 0 (shownRegister uc w' ++ c :: b') =
      (toSigned (w' % 2 ^ 32 : Nat), c, b') :=
    readNumber_ui2a (by omega) (by omega) (by omega) uc stops
  rw [same, second] at first
  injection first with value rest
  injection rest with _ tail
  exact ⟨toSigned_inj (by omega) (by omega) value.symm, tail.symm⟩

def reason (esr : Nat) : List Char :=
  (className (esr >>> 26)).toList ++ (causeMessages esr).flatMap Message.out

theorem report_text (e : Exception) : report e = (typeMessages e.type).flatMap Message.out ++
    ':' :: ' ' :: (reason e.esr ++ registersText e) := by
  unfold report reportMessages reason
  simp only [List.flatMap_append, List.flatMap_cons, List.flatMap_nil, List.append_nil,
    List.append_assoc]
  rfl

theorem type_colon (type : Nat) : ':' ∉ (typeMessages type).flatMap Message.out := by
  unfold typeMessages
  split <;> decide

theorem reason_colon (esr : Nat) : ':' ∉ reason esr := by
  have classes : ∀ ec, ':' ∉ (className ec).toList := by
    intro ec
    unfold className
    split <;> decide
  have faults : ∀ status, ':' ∉ (faultName status).toList := by
    intro status
    unfold faultName
    split <;> decide
  have levels : ∀ status, ':' ∉ (levelName status).toList := by
    intro status
    unfold levelName
    split <;> decide
  unfold reason causeMessages
  split
  · simp [Message.plain, classes, faults, levels]
  · simp [classes]

theorem type_text {type type' : Nat} (small : type < 4) (small' : type' < 4)
    (same : (typeMessages type).flatMap Message.out = (typeMessages type').flatMap Message.out) :
    type = type' := by
  have all : ∀ i < 4, ∀ j < 4,
      (typeMessages i).flatMap Message.out = (typeMessages j).flatMap Message.out → i = j := by
    decide
  exact all type small type' small' same

structure Alike (e e' : Exception) : Prop where
  type : e.type = e'.type
  esr : e.esr = e'.esr
  elr : e.elr % 2 ^ 32 = e'.elr % 2 ^ 32
  spsr : e.spsr % 2 ^ 32 = e'.spsr % 2 ^ 32
  far : e.far % 2 ^ 32 = e'.far % 2 ^ 32

theorem registers_split {e e' : Exception} (same : registersText e = registersText e') :
    e.esr % 2 ^ 32 = e'.esr % 2 ^ 32 ∧ e.elr % 2 ^ 32 = e'.elr % 2 ^ 32 ∧
      e.spsr % 2 ^ 32 = e'.spsr % 2 ^ 32 ∧ e.far % 2 ^ 32 = e'.far % 2 ^ 32 := by
  have stops : ∀ c, c ∉ numeralChars 16 → Stops 16 c := fun c => (stops_iff (Or.inr rfl) c).mpr
  unfold registersText at same
  obtain ⟨esr, same⟩ := split_register (stops ' ' (by decide)) (List.append_cancel_left same)
  obtain ⟨elr, same⟩ := split_register (stops '\n' (by decide)) (List.append_cancel_left same)
  obtain ⟨spsr, same⟩ := split_register (stops 'X' (by decide)) (List.append_cancel_left same)
  obtain ⟨far, _⟩ := split_register (stops '\n' (by decide)) (List.append_cancel_left same)
  exact ⟨esr, elr, spsr, far⟩

theorem report_alike {e e' : Exception} (alike : Alike e e') : report e = report e' := by
  rw [report_text, report_text]
  unfold registersText shownRegister
  rw [alike.type, alike.esr, alike.elr, alike.spsr, alike.far]

/-- A report on the terminal tells the type, the syndrome and the low halves of the other
    registers, and nothing else about the exception. -/
theorem report_identifies {e e' : Exception} (vector : e.type < 4) (vector' : e'.type < 4)
    (word : e.esr < 2 ^ 32) (word' : e'.esr < 2 ^ 32) :
    cooked (report e) = cooked (report e') ↔ Alike e e' := by
  constructor
  · intro shown
    have same : report e = report e' := by
      rw [← uncook_cooked (report e), shown, uncook_cooked]
    rw [report_text, report_text] at same
    obtain ⟨type, same⟩ := split_first (type_colon e.type) (type_colon e'.type) same
    obtain ⟨_, same⟩ := List.cons.inj same
    have form : ∀ e, registersText e = ':' :: (registersText e).tail := fun _ => rfl
    rw [form e, form e'] at same
    obtain ⟨_, rest⟩ := split_first (reason_colon e.esr) (reason_colon e'.esr) same
    have registers : registersText e = registersText e' := by rw [form e, form e', rest]
    obtain ⟨esr, elr, spsr, far⟩ := registers_split registers
    exact ⟨type_text vector vector' type, by omega, elr, spsr, far⟩
  · intro alike
    rw [report_alike alike]

/-- Two data aborts at addresses 4 GB apart are reported alike. -/
theorem report_identifies_halves :
    cooked (report ⟨0, 0x96000045, 0x80000, 0x3C4, 0x100000010⟩) =
      cooked (report ⟨0, 0x96000045, 0x80000, 0x3C4, 0x10⟩) :=
  (report_identifies (by decide) (by decide) (by decide) (by decide)).mpr ⟨rfl, rfl, rfl, rfl, rfl⟩

def faultCode (before : List Message) (fault : Option Exception) : ConsoleM Unit :=
  (printfAll before).bind fun _ =>
    match fault with
    | none => .ret ()
    | some e => excHandler e

def allMessages (before : List Message) (fault : Option Exception) : List Message :=
  before ++ match fault with
    | none => []
    | some e => reportMessages e

def ending : Option Exception → ConsoleM Unit
  | none => .ret ()
  | some _ => spinLoop

theorem faultCode_messages (before : List Message) (fault : Option Exception) :
    faultCode before fault = (printfAll (allMessages before fault)).bind fun _ => ending fault := by
  unfold faultCode allMessages
  rw [printfAll_append, bind_assoc]
  cases fault with
  | none => rfl
  | some e =>
    show (printfAll before).bind (fun _ => excHandler e) = _
    rw [excHandler_messages]
    rfl

variable {Core : Type}

theorem ending_ends (fault : Option Exception) :
    Ends (I := ConsoleI) (consoleExec : Core → Exec ConsoleI (Shared Core)) Waits (ending fault) := by
  cases fault with
  | none => exact .inl rfl
  | some e =>
    refine .inr ⟨ConsoleOp.spin, _, rfl, ?_, fun c s => rfl⟩
    rintro ⟨l, same⟩
    exact absurd same (by simp)

variable [DecidableEq Core]

def faultCores (before : Core → List Message) (fault : Core → Option Exception) :
    System (Threads Core ConsoleI (Shared Core)) Core where
  init S := (S.mem.owner .printf = none ∧ S.mem.text = []) ∧
    S.code = (fun c => faultCode (before c) (fault c)) ∧ S.phase = fun _ => .arm
  step := ThreadStep consoleExec Waits

variable {before : Core → List Message} {fault : Core → Option Exception}
  {S T : Threads Core ConsoleI (Shared Core)}

/-- They are cores that print all their messages, with their ends. -/
theorem faultCores_reachable : Reachable (faultCores before fault) S ↔
    ∃ R, Reachable (printfCores fun c => allMessages (before c) (fault c)) R ∧
      S = R.tailed fun c => ending (fault c) := by
  apply tailed_reachable (fun c => ending_ends (fault c)) rfl rfl
  intro S
  constructor
  · rintro ⟨fresh, code, phase⟩
    refine ⟨⟨S.mem, fun c => printfAll (allMessages (before c) (fault c)), S.phase⟩,
      ⟨fresh, rfl, phase⟩, ?_⟩
    have same : S.code = fun c =>
        (printfAll (allMessages (before c) (fault c))).bind fun _ => ending (fault c) := by
      rw [code]
      funext c
      exact faultCode_messages _ _
    unfold Threads.tailed
    rw [← same]
  · rintro ⟨R, ⟨fresh, code, phase⟩, rfl⟩
    refine ⟨fresh, ?_, phase⟩
    funext c
    show (R.code c).bind _ = _
    rw [code, faultCode_messages]

omit [DecidableEq Core] in
theorem ending_op {o : ConsoleOp} {k : o.Res → ConsoleM Unit} {fault : Option Exception}
    (ends : ((@Prog.op ConsoleI Unit o k).bind fun _ => ending fault) = ending fault) : o = .spin := by
  cases fault with
  | none => exact absurd ends (by simp [Prog.bind, ending])
  | some e =>
    obtain ⟨rfl, _⟩ := Prog.op.inj ends
    rfl

omit [DecidableEq Core] in
theorem ending_jobs {ms : List Message} {fault : Option Exception}
    (ends : ((jobs (I := ConsoleI) (ConsoleOp.lock .printf) (ConsoleOp.unlock .printf)
      (fun m : Message => putChars (cooked m.out)) ms).bind fun _ => ending fault) = ending fault) :
    ms = [] := by
  cases ms with
  | nil => rfl
  | cons m ms => exact absurd (ending_op ends) (by simp)

/-- However cores print, fault and report: the terminal shows whole messages in the order of
    each core, all can come to their end (a sleep may end at any time), and a core at its end
    has its whole report shown. -/
theorem faults_reported [Fintype Core] (reach : Reachable (faultCores before fault) S) :
    Told (fun c => allMessages (before c) (fault c)) S.mem.text ∧
      (∃ T, Reachable ((faultCores before fault).onward S) T ∧ ∀ c, T.code c = ending (fault c)) ∧
      ∀ c, S.code c = ending (fault c) → ∃ h done, S.mem.text = shownMessages h ++ done ∧
        ofCore c h = allMessages (before c) (fault c) := by
  obtain ⟨R, printing, rfl⟩ := faultCores_reachable.mp reach
  have told : Told (fun c => allMessages (before c) (fault c)) R.mem.text :=
    printf_messages_whole printing
  refine ⟨told, ?_, ?_⟩
  · obtain ⟨⟨U, onward, finished⟩, _⟩ := printf_messages_complete printing
    refine ⟨U.tailed fun c => ending (fault c), ?_, ?_⟩
    · apply (tailed_reachable (fun c => ending_ends (fault c)) rfl rfl _).mpr ⟨U, onward, rfl⟩
      intro V
      constructor
      · intro same
        exact ⟨R, rfl, same⟩
      · rintro ⟨_, rfl, same⟩
        exact same
    · intro c
      show (U.code c).bind _ = _
      rw [finished c]
      rfl
  · intro c ends
    have ends' : ((R.code c).bind fun _ => ending (fault c)) = ending (fault c) := ends
    cases printf_inOrder printing with
    | @idle h left shares quiet code =>
      refine ⟨h, [], by rw [List.append_nil]; exact quiet.text, ?_⟩
      have all := shares c
      rw [code c] at ends'
      rwa [ending_jobs ends', List.append_nil] at all
    | @inside h left d m o q shares mine solo others =>
      by_cases same : c = d
      · subst same
        rw [mine] at ends'
        obtain rfl := ending_op ends'
        obtain ⟨_, r, t, result, _⟩ := solo
        exact absurd result (by simp [consoleExec])
      · obtain ⟨done, _, text⟩ := solo.1.text
        refine ⟨h, done, text, ?_⟩
        have all := shares c
        rw [others c same] at ends'
        rwa [ending_jobs ends', List.append_nil, ofCore_other h same] at all

def bothFault (c : Fin 2) : Option Exception :=
  some (if c.val = 0 then ⟨0, 0x96000045, 0x80000, 0x3C4, 0x10⟩ else ⟨1, 0, 0x80200, 0x3C4, 0⟩)

def oneLine (c : Fin 2) : List Message := if c.val = 0 then [] else [.plain "ready\n" (by decide)]

theorem one_reports (before : Core → List Message) (fault : Core → Option Exception) (c : Core) :
    ∃ S, Reachable (faultCores before fault) S ∧ S.code c = ending (fault c) ∧
      ∀ d, d ≠ c → S.code d = faultCode (before d) (fault d) := by
  have start : Reachable (printfCores fun d => allMessages (before d) (fault d))
      ⟨.fresh, fun d => printfAll (allMessages (before d) (fault d)), fun _ => .arm⟩ :=
    reachable_init ⟨⟨rfl, rfl⟩, rfl, rfl⟩
  obtain ⟨R, reach, _, code⟩ := jobs_run rfl message_sections (allMessages (before c) (fault c))
    (c := c) (h := []) start (printfAll_jobs _) ⟨rfl, rfl⟩
  refine ⟨_, faultCores_reachable.mpr ⟨R, reach, rfl⟩, ?_, ?_⟩
  · show (R.code c).bind _ = _
    rw [code, Function.update_self]
    rfl
  · intro d other
    show (R.code d).bind _ = _
    rw [code, Function.update_of_ne other, faultCode_messages]

/-- Core 0 stands in `while (1)` and core 1 has not begun. -/
theorem faults_reported_two : ∃ S : Threads (Fin 2) ConsoleI (Shared (Fin 2)),
    Reachable (faultCores oneLine bothFault) S ∧ S.code 0 = spinLoop ∧
    S.code 1 = faultCode (oneLine 1) (bothFault 1) ∧
    Told (fun c => allMessages (oneLine c) (bothFault c)) S.mem.text ∧
    (∃ T, Reachable ((faultCores oneLine bothFault).onward S) T ∧
      ∀ c, T.code c = ending (bothFault c)) ∧
    ∃ (h : List (Fin 2 × Message)) (done : List Char), S.mem.text = shownMessages h ++ done ∧
      ofCore 0 h = reportMessages ⟨0, 0x96000045, 0x80000, 0x3C4, 0x10⟩ := by
  obtain ⟨S, reach, loops, waits⟩ := one_reports oneLine bothFault 0
  obtain ⟨told, finishes, reported⟩ := faults_reported reach
  exact ⟨S, reach, loops, waits 1 (by decide), told, finishes, reported 0 loops⟩

end PiKernel.Console
