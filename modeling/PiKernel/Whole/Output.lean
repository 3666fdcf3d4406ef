import PiKernel.Console.Critical
import PiKernel.Console.Messages
import PiKernel.Whole.Parts

/-!
What the kernel of the tests puts out: the line of `heapInit`, and the lines of
`work` once for each core, whatever the order of steps.
-/
namespace PiKernel.Whole
open Program Transition Interleaving Boot Console Rendezvous

section Line
variable {Core : Type}

def rangeNumber (x : Nat) : List Char := Nat.toDigits 16 (x % 2 ^ 32)

/-- The line of `heapInit`: of the heap's bounds the low 32 bits. -/
def rangeLine (b : Board) : List Char :=
  cooked ("| heap range 0x".toList ++ rangeNumber b.heapStart ++ " 0x".toList ++
    rangeNumber (b.heapStart + b.heapBytes) ++ ['\n'])

theorem hex_word (x : Nat) : ui2a (toUnsigned x) 16 false = rangeNumber x := by
  have same : toUnsigned x = x % 2 ^ 32 := by
    unfold toUnsigned
    omega
  rw [same, ui2a_eq (by omega) (by omega) (Nat.mod_lt _ (by decide))]
  rfl

theorem range_format (x y : Nat) :
    tfpFormat "| heap range 0x%x 0x%x\n" [.word x, .word y] =
      some ("| heap range 0x".toList ++ rangeNumber x ++ " 0x".toList ++ rangeNumber y ++ ['\n']) := by
  rw [← hex_word, ← hex_word]
  simp [tfpFormat, formatLoop, directive, nextChar, convert, putchw]

theorem putChars_writes (c : Core) (out : List Char) (s : Shared Core) :
    (putChars out).Solo (consoleExec c) (fun _ _ => True) (fun _ t => t = s.write out) s := by
  induction out generalizing s with
  | nil =>
    apply solo_ret
    simp [Shared.write]
  | cons ch out ih =>
    apply solo_op (t := s.write [ch]) trivial rfl
    apply solo_mono _ (ih (s.write [ch]))
    intro _ t written
    rw [written, write_write]
    rfl

theorem heapRange_solo (b : Board) (c : Core) (s : Shared Core) :
    (heapRange b).Solo (consoleExec c) (fun _ _ => True) (fun _ t => t = s.write (rangeLine b)) s := by
  have chars : heapRange b = putChars (rangeLine b) := by
    unfold heapRange printfNoLock format
    rw [show (Arg.word ((b.heapStart : Int) + b.heapBytes)) =
      Arg.word ((b.heapStart + b.heapBytes : Nat) : Int) by simp, range_format]
    exact putAll_cooked _
  rw [chars]
  exact putChars_writes c (rangeLine b) s

end Line

section Sections
variable {Core : Type}

structure Turn (head : List Char) (h : List (Core × Unit)) (s : Shared Core) : Prop where
  free : ∀ l, s.owner l = none
  text : s.text = head ++ transcript shownNumber h.length
  counter : s.counter = h.length % 2 ^ 32

theorem critical_jobs : critical work = jobs (I := ConsoleI) (ConsoleOp.lock .critical)
    (ConsoleOp.unlock .critical) (fun _ : Unit => work) [()] := by
  simp only [jobs, bind_end]
  rfl

theorem work_sectioned (head : List Char) : Sectioned (I := ConsoleI)
    (consoleExec : Core → Exec ConsoleI (Shared Core)) (ConsoleOp.lock .critical)
    (ConsoleOp.unlock .critical) (fun _ : Unit => work) (Turn head) (fun c _ _ => InSection c) where
  opens := by
    intro c j h s turn
    refine ⟨(), s.own .critical (some c), lock_free (turn.free .critical), ?_⟩
    have mine : (s.own .critical (some c)).owner .critical = some c := own_same s .critical _
    have free : (s.own .critical (some c)).owner .printf = none := by
      rw [own_other s (by decide)]
      exact turn.free .printf
    apply solo_bind
    apply solo_mono _ (work_solo mine free)
    intro _ t done
    subst done
    apply solo_op ⟨mine, fun x same => absurd same (by simp)⟩ rfl
    apply solo_ret
    constructor
    · intro l
      cases l with
      | critical => simp [Shared.own]
      | printf => simpa [Shared.own] using turn.free .printf
    · simp only [transcript, turn.text, turn.counter, shown_counter, Shared.own, Shared.write,
        List.length_append, List.length_singleton, List.append_assoc]
    · simp [Shared.own, turn.counter]
  shuts := by
    intro c j h d o s allowed
    exact lock_taken allowed.mine

end Sections

variable {n : Nat} {b : Board} {S T : Threads (Fin (n + 1)) (KernelI n) (Memory n)}
  {ps : Fin (n + 1) → List (Part (BootI n) ConsoleI)}

abbrev TakingTurns (b : Board) (R : Threads (Fin (n + 1)) ConsoleI (Console.Shared (Fin (n + 1)))) :
    Prop :=
  InOrder consoleExec (ConsoleOp.lock .critical) (ConsoleOp.unlock .critical) (fun _ : Unit => work)
    (Turn (rangeLine b)) (fun c _ _ => InSection c) (fun _ => [()]) R

/-- Core 0 is on its way to the line of `heapInit` or writes it. -/
structure Announcing (b : Board) (S : Threads (Fin (n + 1)) (KernelI n) (Memory n))
    (p : BootM n Unit) (q : ConsoleM Unit) : Prop where
  primary : S.code 0 = inParts (primaryParts b p q)
  others : ∀ c, c ≠ 0 → S.code c = inParts secondaryParts
  entry : ∀ c, S.mem.1.entry c = false
  log : ∀ c, S.mem.1.log c = []
  silent : p ≠ .ret () → S.mem.2 = .fresh
  opens : p.Solo (bootExec 0) Building
    (fun _ t => Sounding t ∧ (settingUp b).Solo (bootExec 0) Building (fun _ u => Built b u) t) S.mem.1
  line : q.Solo (consoleExec 0) (fun _ _ => True) (fun _ t => t = Shared.write .fresh (rangeLine b))
    S.mem.2

structure Running (b : Board) (S : Threads (Fin (n + 1)) (KernelI n) (Memory n))
    (ps : Fin (n + 1) → List (Part (BootI n) ConsoleI)) : Prop where
  code : ∀ c, S.code c = inParts (ps c)
  ordered : ∀ c, Ordered (ps c)
  booting : Booting b (viewed S.mem.1 fun c => lefts (ps c))
  turns : TakingTurns b (viewed S.mem.2 fun c => rights (ps c))
  sounding : Sounding S.mem.1

theorem turns_blind (b : Board) : Blind (TakingTurns (n := n) b) := by
  intro R phase turns
  cases turns with
  | idle shares quiet code => exact .idle shares quiet code
  | inside shares mine solo others => exact .inside shares mine solo others

theorem turns_step {c : Fin (n + 1)} {R R' : Threads (Fin (n + 1)) ConsoleI (Console.Shared (Fin (n + 1)))}
    (turns : TakingTurns b R) (step : ThreadStep consoleExec Waits R c R') : TakingTurns b R' :=
  inOrder_step (work_sectioned (rangeLine b)) turns step

theorem running_move (small : n + 1 < 2 ^ 32) (running : Running b S ps) {c : Fin (n + 1)}
    {ps' : Fin (n + 1) → List (Part (BootI n) ConsoleI)}
    (step : PartStep bootExec consoleExec ps c S.mem T.mem ps')
    (code : ∀ d, T.code d = inParts (ps' d)) : Running b T ps' where
  code := code
  ordered := by
    intro d
    have own : ∀ (o : BootOp n ⊕ ConsoleOp) ks r, Next (ps c) o ks →
        ps' = Function.update ps c (ks r) → Ordered (ps' d) := by
      intro o ks r next rest
      rw [rest]
      by_cases same : d = c
      · subst same
        rw [Function.update_self]
        exact ordered_next (running.ordered d) next r
      · rw [Function.update_of_ne same]
        exact running.ordered d
    cases step with
    | left next result kept rest => exact own _ _ _ next rest
    | right next kept result rest => exact own _ _ _ next rest
  booting := partStep_left (booting_blind b) (fun _ _ => booting_step small) step running.booting
  turns := partStep_right (turns_blind b) (fun _ _ => turns_step) step running.turns
  sounding := by
    cases step with
    | left next result kept rest => exact exec_sounding result running.sounding
    | right next kept result rest =>
      rw [kept]
      exact running.sounding

theorem running_step (small : n + 1 < 2 ^ 32) (running : Running b S ps) {c : Fin (n + 1)}
    (step : (kernelCores n b).step S c T) : ∃ ps', Running b T ps' := by
  rcases parts_step step running.code with ⟨mem, code⟩ | ⟨ps', moved, code⟩
  · refine ⟨ps, ?_, running.ordered, ?_, ?_, ?_⟩
    · intro d
      rw [code]
      exact running.code d
    · rw [mem]
      exact running.booting
    · rw [mem]
      exact running.turns
    · rw [mem]
      exact running.sounding
  · exact ⟨ps', running_move small running moved code⟩

def startParts (b : Board) (c : Fin (n + 1)) : List (Part (BootI n) ConsoleI) :=
  if c.val = 0 then mainParts (waking b) (critical work) leaving else secondaryParts

theorem announced (done : Announcing b S (.ret ()) (.ret ())) : Running b S (startParts b) where
  code := by
    intro c
    by_cases first : c = 0
    · rw [first, done.primary]
      rfl
    · rw [done.others c first]
      simp [startParts, first]
  ordered := by
    intro c
    unfold startParts
    split
    · exact ⟨_, _, _, rfl, fun _ => rfl, fun _ => rfl⟩
    · exact ⟨_, _, _, rfl, fun _ => rfl, fun _ => rfl⟩
  booting := by
    apply early_or_woken _ done.entry done.log (settingUp b) _ done.opens.2
    · intro c secondary
      simpa [viewed, startParts, secondary] using lefts_secondary
    · simpa [viewed, startParts] using lefts_waking b
  turns := by
    apply InOrder.idle (shares_nil _)
    · have written := done.line
      show Turn (rangeLine b) [] S.mem.2
      rw [show S.mem.2 = _ from written]
      exact ⟨fun _ => rfl, by simp [Shared.fresh, transcript], rfl⟩
    · intro c
      rw [← critical_jobs]
      by_cases first : c = 0
      · simp [viewed, startParts, first, mainParts, rights, bind_end]
      · simp [viewed, startParts, first, secondaryParts, mainParts, rights, bind_end]
  sounding := done.opens.1

def lineParts (b : Board) (p : BootM n Unit) (q : ConsoleM Unit) (c : Fin (n + 1)) :
    List (Part (BootI n) ConsoleI) :=
  if c.val = 0 then primaryParts b p q else secondaryParts

theorem secondary_next {o : BootOp n ⊕ ConsoleOp}
    {ks : bothRes (BootI n) ConsoleI o → List (Part (BootI n) ConsoleI)}
    (next : Next secondaryParts o ks) : o = .inl .held := (Prog.op.inj (next_code next)).1.symm

theorem announcing_others {p : BootM n Unit} {q : ConsoleM Unit} (announcing : Announcing b S p q)
    {c : Fin (n + 1)} (secondary : c ≠ 0) {mem : Memory n}
    {ps' : Fin (n + 1) → List (Part (BootI n) ConsoleI)} :
    ¬ PartStep bootExec consoleExec (lineParts b p q) c S.mem mem ps' := by
  intro step
  have held : lineParts b p q c = secondaryParts := by simp [lineParts, secondary]
  cases step with
  | left next result kept rest =>
    rw [held] at next
    cases secondary_next next
    exact absurd result (by simp [bootExec, announcing.entry c])
  | right next kept result rest =>
    rw [held] at next
    exact absurd (secondary_next next) (by simp)

theorem lineParts_update (p p' : BootM n Unit) (q q' : ConsoleM Unit) :
    Function.update (lineParts b p q) 0 (primaryParts b p' q') = lineParts b p' q' := by
  funext c
  by_cases first : c = 0
  · simp [first, lineParts]
  · simp [first, lineParts]

theorem announcing_code {p : BootM n Unit} {q : ConsoleM Unit} (announcing : Announcing b S p q)
    (c : Fin (n + 1)) : S.code c = inParts (lineParts b p q c) := by
  by_cases first : c = 0
  · rw [first, announcing.primary]
    rfl
  · rw [announcing.others c first]
    simp [lineParts, first]

theorem announcing_left {o : BootOp n} {k : o.Res → BootM n Unit} {q : ConsoleM Unit}
    (announcing : Announcing b S (.op o k) q) {r : o.Res}
    (result : bootExec 0 o S.mem.1 = some (r, T.mem.1)) (kept : T.mem.2 = S.mem.2)
    (code : ∀ c, T.code c = inParts (lineParts b (k r) q c)) : Announcing b T (k r) q := by
  obtain ⟨allowed, r', t', performed, solo⟩ := announcing.opens
  rw [result] at performed
  obtain ⟨rfl, rfl⟩ : r = r' ∧ T.mem.1 = t' := by simpa using performed
  obtain ⟨entry, log⟩ := plain_quiet allowed.1 result
  constructor
  · simpa [lineParts] using code 0
  · intro c secondary
    simpa [lineParts, secondary] using code c
  · intro c
    rw [entry]
    exact announcing.entry c
  · intro c
    rw [log]
    exact announcing.log c
  · intro _
    rw [kept]
    exact announcing.silent (by simp)
  · exact solo
  · rw [kept]
    exact announcing.line

theorem announcing_right {o : ConsoleOp} {k : o.Res → ConsoleM Unit}
    (announcing : Announcing b S (.ret ()) (.op o k)) {r : o.Res}
    (kept : T.mem.1 = S.mem.1) (result : consoleExec 0 o S.mem.2 = some (r, T.mem.2))
    (code : ∀ c, T.code c = inParts (lineParts b (.ret ()) (k r) c)) :
    Announcing b T (.ret ()) (k r) := by
  obtain ⟨_, r', t', performed, solo⟩ := announcing.line
  rw [result] at performed
  obtain ⟨rfl, rfl⟩ : r = r' ∧ T.mem.2 = t' := by simpa using performed
  constructor
  · simpa [lineParts] using code 0
  · intro c secondary
    simpa [lineParts, secondary] using code c
  · intro c
    rw [kept]
    exact announcing.entry c
  · intro c
    rw [kept]
    exact announcing.log c
  · exact fun more => absurd rfl more
  · rw [kept]
    exact announcing.opens
  · exact solo

theorem announcing_turn {p : BootM n Unit} {q : ConsoleM Unit} (announcing : Announcing b S p q)
    (mem : T.mem = S.mem) (code : T.code = S.code) : Announcing b T p q := by
  constructor
  · rw [code]
    exact announcing.primary
  · rw [code]
    exact announcing.others
  · rw [mem]
    exact announcing.entry
  · rw [mem]
    exact announcing.log
  · rw [mem]
    exact announcing.silent
  · rw [mem]
    exact announcing.opens
  · rw [mem]
    exact announcing.line

theorem announcing_step (small : n + 1 < 2 ^ 32) {p : BootM n Unit} {q : ConsoleM Unit}
    (announcing : Announcing b S p q) {c : Fin (n + 1)} (step : (kernelCores n b).step S c T) :
    (∃ p q, Announcing b T p q) ∨ ∃ ps, Running b T ps := by
  rcases parts_step step (announcing_code announcing) with ⟨mem, code⟩ | ⟨ps', moved, code⟩
  · exact Or.inl ⟨p, q, announcing_turn announcing mem code⟩
  · by_cases primary : c = 0
    · subst primary
      match p, q with
      | .ret (), .ret () => exact Or.inr (running_step small (announced announcing) step)
      | .op o k, q =>
        cases moved with
        | @left _ _ r next result kept rest =>
          cases next with
          | left o k tail =>
            obtain rfl := rest.trans (lineParts_update (.op o k) (k r) q q)
            exact Or.inl ⟨_, _, announcing_left announcing result kept code⟩
        | right next kept result rest => cases next
      | .ret (), .op o k =>
        cases moved with
        | left next result kept rest =>
          cases next with
          | leftOver later => cases later
        | @right _ _ r next kept result rest =>
          cases next with
          | leftOver later =>
            cases later with
            | right o k tail =>
              obtain rfl := rest.trans (lineParts_update (.ret ()) (.ret ()) (.op o k) (k r))
              exact Or.inl ⟨_, _, announcing_right announcing kept result code⟩
    · exact absurd moved (announcing_others announcing primary)

theorem opening_solo (b : Board) {s : Boot.Shared n} (reset : Reset s) (room : 128 ≤ b.heapBytes)
    (fits : b.heapBytes < 2 ^ 34) (small : n + 1 < 2 ^ 32) :
    (opening b).Solo (bootExec 0) Building (fun _ t => Sounding t ∧
      (settingUp b).Solo (bootExec 0) Building (fun _ u => Built b u) t) s := by
  have whole := initPrimary_solo room fits small reset
  rw [initPrimary_split, solo_bind_iff] at whole
  obtain ⟨first, _, _, uart, second, _, _, printf, third, _, _, tables, rest⟩ := whole
  cases uart
  cases printf
  cases tables
  exact ⟨first, _, _, rfl, second, _, _, rfl, third, _, _, rfl, ⟨rfl, rfl⟩, rest⟩

theorem kernel_reaches (room : 128 ≤ b.heapBytes) (fits : b.heapBytes < 2 ^ 34)
    (small : n + 1 < 2 ^ 32) (reach : Reachable (kernelCores n b) S) :
    (∃ p q, Announcing b S p q) ∨ ∃ ps, Running b S ps := by
  apply reachable_invariant _ _ reach
  · intro S first
    obtain ⟨reset, fresh, code, _⟩ := first
    refine Or.inl ⟨opening b, heapRange b, ?_⟩
    constructor
    · rw [code, coreCode_primary]
    · intro c secondary
      rw [code, coreCode_secondary b secondary]
    · exact reset.entry
    · exact reset.log
    · exact fun _ => fresh
    · exact opening_solo b reset room fits small
    · rw [fresh]
      exact heapRange_solo b 0 .fresh
  · intro S c T here step
    rcases here with ⟨p, q, announcing⟩ | ⟨ps, running⟩
    · exact announcing_step small announcing step
    · exact Or.inr (running_step small running step)

theorem transcript_grows (shown : Nat → List Char) {k m : Nat} (less : k ≤ m) :
    transcript shown k <+: transcript shown m := by
  induction less with
  | refl => exact List.prefix_refl _
  | step _ ih => exact ih.trans (List.prefix_append _ _)

/-- The lines of `work` from every core. Of four cores they are tests/t0.ok and tests/t1.ok. -/
def okText (n : Nat) : List Char := transcript shownNumber (n + 1)

example : okText 3 = ("*** hello 0\r\n*** goodbye 0\r\n*** hello 1\r\n*** goodbye 1\r\n" ++
    "*** hello 2\r\n*** goodbye 2\r\n*** hello 3\r\n*** goodbye 3\r\n").toList := by decide

def fullText (n : Nat) (b : Board) : List Char := rangeLine b ++ okText n

theorem turns_count {h : List (Fin (n + 1) × Unit)} {left : Fin (n + 1) → List Unit}
    (shares : Shares (fun _ => [()]) h left) : n + 1 = h.length + ∑ c, (left c).length := by
  simpa using shares_count shares

theorem turn_shown {h : List (Fin (n + 1) × Unit)} (few : h.length ≤ n + 1)
    {s : Console.Shared (Fin (n + 1))} (turn : Turn (rangeLine b) h s) : s.text <+: fullText n b := by
  rw [turn.text]
  exact List.prefix_append_right_inj _ |>.mpr (transcript_grows shownNumber few)

theorem solo_text {α : Type} {c : Fin (n + 1)} {q : ConsoleM α} {s : Console.Shared (Fin (n + 1))}
    {ok : ConsoleOp → Console.Shared (Fin (n + 1)) → Prop}
    {post : α → Console.Shared (Fin (n + 1)) → Prop} (solo : q.Solo (consoleExec c) ok post s) :
    ∃ a t, post a t ∧ s.text <+: t.text := by
  apply solo_reaches (R := fun s t => s.text <+: t.text) _ _ _ solo
  · exact fun s => List.prefix_refl s.text
  · intro s t u first second
    exact first.trans second
  · intro o s r t result
    exact exec_text result

/-- The line of `heapInit` is in the way of the lines the tests expect. -/
theorem shown_differs {text : List Char} (shown : text <+: fullText n b) : text ≠ okText n := by
  have star : ∃ rest, okText n = '*' :: rest := by
    obtain ⟨rest, same⟩ := transcript_grows shownNumber (show 1 ≤ n + 1 by omega)
    exact ⟨_, same.symm⟩
  obtain ⟨rest, ok⟩ := star
  rintro rfl
  rw [ok] at shown
  exact absurd (List.cons_prefix_cons.mp shown).1 (by decide)

theorem announcing_shown {p : BootM n Unit} {q : ConsoleM Unit} (announcing : Announcing b S p q) :
    S.mem.2.text <+: fullText n b := by
  obtain ⟨_, t, rfl, grown⟩ := solo_text announcing.line
  refine grown.trans ?_
  simp [Shared.fresh, fullText]

theorem running_shown (running : Running b S ps) : S.mem.2.text <+: fullText n b := by
  cases running.turns with
  | @idle h left shares quiet code =>
    have count := turns_count shares
    exact turn_shown (by omega) quiet
  | @inside h left c j o q shares mine solo others =>
    have count := turns_count shares
    obtain ⟨_, t, turn, grown⟩ := solo_text solo
    exact grown.trans (turn_shown (by omega) turn)

theorem returned {p q : Int} {stage : Stage n} {parts : List (Part (BootI n) ConsoleI)}
    (ordered : Ordered parts) (here : lefts parts = stage.code p q) (late : 9 ≤ stage.pos) :
    rights parts = .ret () := by
  obtain ⟨first, main, last, rfl, _, second⟩ := ordered
  by_cases inside : main = .ret ()
  · rw [inside]
    rfl
  · exfalso
    have form : (first.bind fun _ => leaving) = stage.code p q := by
      rw [← here, second inside]
      simp only [mainParts, lefts, bind_end]
    cases stage with
    | respinning =>
      cases first with
      | ret a => exact absurd (Prog.op.inj form).1 (by simp)
      | op o k =>
        obtain ⟨rfl, tail⟩ := Prog.op.inj form
        have empty : ((k ()).bind fun _ => leaving) = .ret () := congrFun (eq_of_heq tail) ()
        cases rest : k () with
        | ret a =>
          rw [rest] at empty
          exact absurd empty (by simp [leaving, perform, call, Prog.bind])
        | op o' k' =>
          rw [rest] at empty
          exact absurd empty (by simp [Prog.bind])
    | done =>
      cases first with
      | ret a => exact absurd form (by simp [leaving, perform, call, Prog.bind, Stage.code])
      | op o k => exact absurd form (by simp [Prog.bind, Stage.code])
    | _ => exact absurd late (by simp [Stage.pos])

theorem done_rights {p q : Int} {stages : Fin (n + 1) → Stage n} (running : Running b S ps)
    (woken : Woken b p q (viewed S.mem.1 fun c => lefts (ps c)) stages) {c : Fin (n + 1)}
    (done : stages c = .done) (d : Fin (n + 1)) : rights (ps d) = .ret () := by
  have last : 10 ≤ positions stages c := by simp [positions, done, Stage.pos]
  exact returned (running.ordered d) (woken.code d) (woken.sequence.stopGate c last d)

theorem done_text (running : Running b S ps) (all : ∀ d, rights (ps d) = .ret ()) :
    S.mem.2.text = fullText n b ∧ S.mem.2.counter = (n + 1) % 2 ^ 32 := by
  cases running.turns with
  | @idle h left shares quiet code =>
    have none : ∀ d, left d = [] := by
      intro d
      cases rest : left d with
      | nil => rfl
      | cons j js =>
        have more := (code d).symm.trans (all d)
        rw [rest] at more
        exact absurd more (by simp [jobs])
    have count := turns_count shares
    simp only [none, List.length_nil, Finset.sum_const_zero, Nat.add_zero] at count
    have text := quiet.text
    have counter := quiet.counter
    rw [← count] at text counter
    exact ⟨text, counter⟩
  | @inside h left c j o q shares mine solo others =>
    have more := mine.symm.trans (all c)
    exact absurd more (by simp [Prog.bind])

end PiKernel.Whole
