import PiKernel.Boot.Order
import PiKernel.Whole.Output

/-!
The end of the tests. From every state of every interleaving all cores can still
come to their end, and when one has, the console shows all there is to show.
-/
namespace PiKernel.Whole
open Program Transition Interleaving Boot Console Rendezvous

variable {n : Nat} {b : Board} {S : Threads (Fin (n + 1)) (KernelI n) (Memory n)}
  {ps : Fin (n + 1) → List (Part (BootI n) ConsoleI)} {c : Fin (n + 1)}
  {Sys : System (Threads (Fin (n + 1)) (KernelI n) (Memory n)) (Fin (n + 1))}

theorem ordered_right {parts : List (Part (BootI n) ConsoleI)} {o : ConsoleOp}
    {ks : o.Res → List (Part (BootI n) ConsoleI)} (ordered : Ordered parts)
    (next : Next parts (.inr o) ks) : ∃ q, parts = mainParts (.ret ()) q leaving := by
  obtain ⟨p, q, l, rfl, _, second⟩ := ordered
  cases next with
  | leftOver later =>
    cases later with
    | right o k rest => exact ⟨.op o k, by rw [second (by simp)]⟩
    | rightOver last =>
      cases last with
      | leftOver none => cases none

structure Idle (b : Board) (S : Threads (Fin (n + 1)) (KernelI n) (Memory n))
    (ps : Fin (n + 1) → List (Part (BootI n) ConsoleI)) (h : List (Fin (n + 1) × Unit))
    (left : Fin (n + 1) → List Unit) : Prop where
  shares : Shares (fun _ => [()]) h left
  quiet : Turn (rangeLine b) h S.mem.2
  code : ∀ d, rights (ps d) = jobs (I := ConsoleI) (ConsoleOp.lock .critical)
    (ConsoleOp.unlock .critical) (fun _ : Unit => work) (left d)

theorem main_runs (steps : Sys.step = (kernelCores n b).step) (reach : Reachable Sys S)
    (running : Running b S ps) {q : ConsoleM Unit} (here : ps c = mainParts (.ret ()) q leaving)
    {ok : ConsoleOp → Console.Shared (Fin (n + 1)) → Prop} {h : List (Fin (n + 1) × Unit)}
    {left : Fin (n + 1) → List Unit}
    (solo : q.Solo (consoleExec c) ok (fun _ t => Turn (rangeLine b) h t) S.mem.2)
    (shares : Shares (fun _ => [()]) h left) (none : left c = [])
    (others : ∀ d, d ≠ c → rights (ps d) = jobs (I := ConsoleI) (ConsoleOp.lock .critical)
      (ConsoleOp.unlock .critical) (fun _ : Unit => work) (left d)) :
    ∃ T, Reachable Sys T ∧ T.mem.1 = S.mem.1 ∧
      Running b T (Function.update ps c (mainParts (.ret ()) (.ret ()) leaving)) ∧
      Idle b T (Function.update ps c (mainParts (.ret ()) (.ret ()) leaving)) h left := by
  have code : S.code c = (onRight q).bind fun _ => inParts [.left leaving] := by
    rw [running.code c, here]
    rfl
  obtain ⟨_, _, T, ⟨t, turn, rfl⟩, there, mem, codeT⟩ :=
    thread_runs steps (onRight q) _ (solo_right S.mem.1 solo) reach rfl code
  have idle : Idle b T (Function.update ps c (mainParts (.ret ()) (.ret ()) leaving)) h left := by
    refine ⟨shares, by rw [mem]; exact turn, ?_⟩
    intro d
    by_cases same : d = c
    · subst same
      simp [none, jobs, mainParts, rights, Prog.bind]
    · simpa [same] using others d same
  refine ⟨T, there, by rw [mem], ⟨?_, ?_, ?_, ?_, ?_⟩, idle⟩
  · intro d
    rw [codeT]
    exact update_parts running.code (mainParts (.ret ()) (.ret ()) leaving) d
  · intro d
    by_cases same : d = c
    · subst same
      rw [Function.update_self]
      exact ⟨_, _, _, rfl, fun more => absurd rfl more, fun _ => rfl⟩
    · rw [Function.update_of_ne same]
      exact running.ordered d
  · rw [mem, viewed_stays S.mem.1 (by rw [here]; rfl)]
    exact running.booting
  · exact .idle idle.shares idle.quiet idle.code
  · rw [mem]
    exact running.sounding

theorem rights_main (q : ConsoleM Unit) (l : BootM n Unit) : rights (mainParts (.ret ()) q l) = q := bind_end q

theorem idle_over (steps : Sys.step = (kernelCores n b).step) (reach : Reachable Sys S)
    (running : Running b S ps) {h : List (Fin (n + 1) × Unit)} {left : Fin (n + 1) → List Unit}
    (idle : Idle b S ps h left) {o : ConsoleOp} {ks : o.Res → List (Part (BootI n) ConsoleI)}
    (next : Next (ps c) (.inr o) ks) : ∃ T, Reachable Sys T ∧ T.mem.1 = S.mem.1 ∧
      Running b T (Function.update ps c (mainParts (.ret ()) (.ret ()) leaving)) := by
  obtain ⟨q, here⟩ := ordered_right (running.ordered c) next
  have code := idle.code c
  have more := code.symm.trans (next_right next).1
  obtain ⟨j, js, first, _⟩ := jobs_op more
  have one := congrArg List.length (idle.shares c)
  have last : js = [] := by
    rw [first] at one
    simp at one
    exact List.eq_nil_of_length_eq_zero (by omega)
  subst last
  have solo := jobs_solo (c := c) (work_sectioned (rangeLine b)) [j] idle.quiet
  rw [first] at code
  rw [← code, here, rights_main] at solo
  have others : ∀ d, d ≠ c → rights (ps d) = jobs (I := ConsoleI) (ConsoleOp.lock .critical)
      (ConsoleOp.unlock .critical) (fun _ : Unit => work) (Function.update left c [] d) := by
    intro d other
    rw [Function.update_of_ne other]
    exact idle.code d
  obtain ⟨T, there, mem, running', _⟩ := main_runs steps reach running here solo
    (shares_take idle.shares first) (Function.update_self c [] left) others
  exact ⟨T, there, mem, running'⟩

theorem inside_begun {parts : List (Part (BootI n) ConsoleI)} (ordered : Ordered parts) {o : ConsoleOp}
    {q : o.Res → ConsoleM Unit} {rest : Unit → ConsoleM Unit} {post : Unit → Console.Shared (Fin (n + 1)) → Prop}
    {s : Console.Shared (Fin (n + 1))} (mine : rights parts = (@Prog.op ConsoleI Unit o q).bind rest)
    (solo : (@Prog.op ConsoleI Unit o q).Solo (consoleExec c) (InSection c) post s) :
    parts = mainParts (.ret ()) (rights parts) leaving := by
  obtain ⟨p, main, l, rfl, first, second⟩ := ordered
  have same : rights (mainParts p main l) = main := bind_end main
  rw [same] at mine ⊢
  have begun : p = .ret () := by
    by_contra before
    obtain ⟨allowed, r, t, performed, _⟩ := solo
    rw [first before] at mine
    obtain rfl : .lock .critical = o := (Prog.op.inj mine).1
    rw [lock_taken allowed.mine] at performed
    exact absurd performed (by simp)
  rw [begun, second (by rw [mine]; simp [Prog.bind])]

theorem main_over (steps : Sys.step = (kernelCores n b).step) (reach : Reachable Sys S)
    (running : Running b S ps) {o : ConsoleOp} {ks : o.Res → List (Part (BootI n) ConsoleI)}
    (next : Next (ps c) (.inr o) ks) : ∃ T ps', Reachable Sys T ∧ T.mem.1 = S.mem.1 ∧
      Running b T ps' ∧ (∀ d, lefts (ps' d) = lefts (ps d)) ∧ rights (ps' c) = .ret () := by
  have kept : ∀ (ps : Fin (n + 1) → List (Part (BootI n) ConsoleI)) (c : Fin (n + 1)) q,
      ps c = mainParts (.ret ()) q leaving → ∀ d,
      lefts (Function.update ps c (mainParts (.ret ()) (.ret ()) leaving) d) = lefts (ps d) := by
    intro ps c q here d
    by_cases same : d = c
    · subst same
      rw [Function.update_self, here]
      rfl
    · rw [Function.update_of_ne same]
  cases running.turns with
  | @idle h left shares quiet code =>
    obtain ⟨T, there, mem, running'⟩ := idle_over steps reach running ⟨shares, quiet, code⟩ next
    obtain ⟨q, here⟩ := ordered_right (running.ordered c) next
    exact ⟨T, _, there, mem, running', kept ps c q here, by simp [rights_main]⟩
  | @inside h left d j o' q shares mine solo others =>
    have here := inside_begun (running.ordered d) mine solo
    have one := congrArg List.length (shares d)
    rw [ofCore_same] at one
    have none : left d = [] := List.eq_nil_of_length_eq_zero (by simp at one; omega)
    have whole : rights (ps d) = @Prog.op ConsoleI Unit o' q := by
      have mine' : rights (ps d) = _ := mine
      rw [mine', none]
      exact bind_end _
    rw [whole] at here
    obtain ⟨T, there, mem, running', idle⟩ := main_runs steps reach running here solo shares none others
    by_cases same : c = d
    · subst same
      exact ⟨T, _, there, mem, running', kept ps c _ here, by simp [rights_main]⟩
    · have next' : Next (Function.update ps d (mainParts (.ret ()) (.ret ()) leaving) c) (.inr o) ks := by
        rw [Function.update_of_ne same]
        exact next
      obtain ⟨U, there', mem', running''⟩ := idle_over steps there running' idle next'
      obtain ⟨q', here'⟩ := ordered_right (running'.ordered c) next'
      refine ⟨U, _, there', mem'.trans mem, running'', ?_, by simp [rights_main]⟩
      intro e
      rw [kept _ c q' here' e]
      exact kept ps d _ here e

/-- Whatever the boot can do it does here too, where it is in `kernelMain` after that. -/
theorem boot_takes (steps : Sys.step = (kernelCores n b).step) (small : n + 1 < 2 ^ 32)
    (reach : Reachable Sys S) (running : Running b S ps) {o : BootOp n} {k : o.Res → BootM n Unit}
    {r : o.Res} {s : Boot.Shared n} (here : lefts (ps c) = .op o k)
    (result : bootExec c o S.mem.1 = some (r, s)) : ∃ T ps', Reachable Sys T ∧ Running b T ps' ∧
      T.mem.1 = s ∧ ∀ d, lefts (ps' d) = Function.update (fun d => lefts (ps d)) c (k r) d := by
  have plain : ∀ R ps₀, Reachable Sys R → Running b R ps₀ → R.mem.1 = S.mem.1 →
      (∀ d, lefts (ps₀ d) = lefts (ps d)) →
      ∀ ks : o.Res → List (Part (BootI n) ConsoleI), Next (ps₀ c) (.inl o) ks →
      ∃ T ps', Reachable Sys T ∧ Running b T ps' ∧
        T.mem.1 = s ∧ ∀ d, lefts (ps' d) = Function.update (fun d => lefts (ps d)) c (k r) d := by
    intro R ps₀ there running mem same ks next
    have step : PartStep bootExec consoleExec ps₀ c R.mem (s, R.mem.2)
        (Function.update ps₀ c (ks r)) := .left next (by rw [mem]; exact result) rfl rfl
    obtain ⟨T, there', memT, codeT⟩ := parts_take steps there running.code step
    rw [← memT] at step
    refine ⟨T, _, there', running_move small running step codeT, by rw [memT], ?_⟩
    intro d
    by_cases own : d = c
    · subst own
      have after := (next_left next).1
      rw [same d, here] at after
      rw [Function.update_self, Function.update_self, congrFun (eq_of_heq (Prog.op.inj after).2) r]
    · rw [Function.update_of_ne own, Function.update_of_ne own, same d]
  rcases left_or_right here with ⟨ks, next, _⟩ | ⟨o', ks, next⟩
  · exact plain S ps reach running rfl (fun _ => rfl) ks next
  · obtain ⟨R, ps₀, there, mem, running', same, done⟩ := main_over steps reach running next
    rcases left_or_right ((same c).trans here) with ⟨ks, next, _⟩ | ⟨o', ks, next⟩
    · exact plain R ps₀ there running' mem same ks next
    · exact absurd ((next_right next).1.symm.trans done) (by simp)

theorem early_runs (steps : Sys.step = (kernelCores n b).step) (small : n + 1 < 2 ^ 32)
    (before : BootM n Unit) (reach : Reachable Sys S) (running : Running b S ps)
    (first : lefts (ps 0) = before.bind fun _ => Stage.code 0 0 (.waking (secondaries n)))
    (others : ∀ d, d ≠ 0 → lefts (ps d) = Stage.code 0 0 .held) (log : ∀ d, S.mem.1.log d = [])
    (solo : before.Solo (bootExec 0) Building (fun _ t => Built b t) S.mem.1) :
    ∃ T ps' p q stages, Reachable Sys T ∧ Running b T ps' ∧
      Woken b p q (viewed T.mem.1 fun d => lefts (ps' d)) stages := by
  induction before generalizing S ps with
  | ret a => exact ⟨S, ps, _, _, _, reach, running, built_woken others first log solo⟩
  | op o k ih =>
    obtain ⟨allowed, r, t, result, rest⟩ := solo
    obtain ⟨T, ps', there, running', mem, code⟩ := boot_takes steps small reach running first result
    subst mem
    have same := (plain_quiet allowed.1 result).2
    apply ih r there running' _ _ (fun d => by rw [same]; exact log d) rest
    · simpa using code 0
    · intro d secondary
      rw [code d, Function.update_of_ne secondary]
      exact others d secondary

theorem woken_ends (steps : Sys.step = (kernelCores n b).step) (small : n + 1 < 2 ^ 32)
    (reach : Reachable Sys S) (running : Running b S ps) {p q : Int} {stages : Fin (n + 1) → Stage n}
    (woken : Woken b p q (viewed S.mem.1 fun d => lefts (ps d)) stages) :
    ∃ T, Reachable Sys T ∧ ∀ d, T.code d = .ret () := by
  generalize budget : ∑ d, (stages d).left = m
  induction m using Nat.strongRecOn generalizing S ps stages with
  | ind m ih =>
    by_cases unfinished : ∃ d, stages d ≠ .done
    · obtain ⟨c, stage', t, advance⟩ := sequence_progress woken.sequence unfinished
      obtain ⟨o, k, r, code, result, next⟩ :=
        advance_taken advance woken.sequence.starting woken.sequence.stopping
      obtain ⟨T, ps', there, running', mem, lefts'⟩ :=
        boot_takes steps small reach running ((woken.code c).trans code) result
      have woken' : Woken b p q (viewed T.mem.1 fun d => lefts (ps' d))
          (Function.update stages c stage') := by
        constructor
        · intro d
          show lefts (ps' d) = _
          rw [lefts' d]
          by_cases same : d = c
          · subst same
            simp [next]
          · rw [Function.update_of_ne same, Function.update_of_ne same]
            exact woken.code d
        · show Sequence b p q T.mem.1 _
          rw [mem]
          exact sequence_advance woken.sequence small advance
      have less := left_update (advance_left advance)
      rw [budget] at less
      exact ih _ less there running' woken' rfl
    · have done : ∀ d, stages d = .done := fun d => by_contra fun more => unfinished ⟨d, more⟩
      refine ⟨S, reach, ?_⟩
      intro d
      rw [running.code d]
      apply views_over _ (done_rights running woken (done d) d)
      exact (woken.code d).trans (by rw [done d]; rfl)

theorem running_ends (steps : Sys.step = (kernelCores n b).step) (small : n + 1 < 2 ^ 32)
    (reach : Reachable Sys S) (running : Running b S ps) :
    ∃ T, Reachable Sys T ∧ ∀ d, T.code d = .ret () := by
  rcases running.booting with early | ⟨p, q, stages, woken⟩
  · obtain ⟨o, k, code, solo⟩ := early.primary
    obtain ⟨T, ps', p, q, stages, there, running', woken⟩ :=
      early_runs steps small (.op o k) reach running code early.others early.log solo
    exact woken_ends steps small there running' woken
  · exact woken_ends steps small reach running woken

theorem announcing_ends (steps : Sys.step = (kernelCores n b).step) (small : n + 1 < 2 ^ 32)
    (reach : Reachable Sys S) {p : BootM n Unit} {q : ConsoleM Unit} (announcing : Announcing b S p q) :
    ∃ T, Reachable Sys T ∧ ∀ d, T.code d = .ret () := by
  have keep : ∀ (o : BootOp n) (u : Boot.Shared n) (r : o.Res) (v : Boot.Shared n), Building o u →
      (∀ d, u.entry d = false) ∧ (∀ d, u.log d = []) → bootExec 0 o u = some (r, v) →
      (∀ d, v.entry d = false) ∧ ∀ d, v.log d = [] := by
    intro o u r v allowed quiet result
    obtain ⟨entry, log⟩ := plain_quiet allowed.1 result
    rw [entry, log]
    exact quiet
  have opens := solo_invariant keep ⟨announcing.entry, announcing.log⟩ announcing.opens
  obtain ⟨_, _, R, ⟨s, ⟨opened, entry, log⟩, rfl⟩, there, memR, codeR⟩ :=
    thread_runs steps (onLeft p) (fun _ => inParts (primaryParts b (.ret ()) q))
      (solo_left S.mem.2 opens) reach rfl announcing.primary
  have line : q.Solo (consoleExec 0) (fun _ _ => True)
      (fun _ t => t = Shared.write .fresh (rangeLine b)) S.mem.2 := announcing.line
  obtain ⟨_, _, T, ⟨t, written, rfl⟩, there', memT, codeT⟩ :=
    thread_runs steps (onRight q) (fun _ => inParts (primaryParts b (.ret ()) (.ret ())))
      (solo_right s line) there memR (by rw [codeR]; exact Function.update_self 0 _ _)
  have done : Announcing b T (.ret ()) (.ret ()) := by
    constructor
    · rw [codeT]
      exact Function.update_self 0 _ _
    · intro d secondary
      rw [codeT, codeR, Function.update_of_ne secondary, Function.update_of_ne secondary]
      exact announcing.others d secondary
    · rw [memT]
      exact entry
    · rw [memT]
      exact log
    · exact fun more => absurd rfl more
    · rw [memT]
      exact opened
    · rw [memT]
      exact written
  exact running_ends steps small there' (announced done)

theorem critical_unfinished (rest : Unit → ConsoleM Unit) : (critical work).bind rest ≠ .ret () := by
  rw [critical_eq]
  simp [Prog.bind]

theorem announcing_unfinished {p : BootM n Unit} {q : ConsoleM Unit} (announcing : Announcing b S p q)
    (d : Fin (n + 1)) : S.code d ≠ .ret () := by
  intro done
  rw [announcing_code announcing d] at done
  have none := (parts_over done).2
  unfold lineParts at none
  split at none
  · cases q with
    | ret a => exact critical_unfinished _ none
    | op o k => exact absurd none (by simp [primaryParts, rights, Prog.bind])
  · exact critical_unfinished _ none

/-- What holds in every state of the kernel of the tests. `differs` is about the check of
    the Makefile, which compares all of the output with the lines of `work`; for `finishes`
    the sleep of a core that waits for a lock may end at any time. -/
structure TestRun (b : Board) (S : Threads (Fin (n + 1)) (KernelI n) (Memory n)) : Prop where
  shown : S.mem.2.text <+: fullText n b
  differs : S.mem.2.text ≠ okText n
  sounding : S.mem.2.text ≠ [] → Sounding S.mem.1
  complete : ∀ c, S.code c = .ret () →
    S.mem.2.text = rangeLine b ++ okText n ∧ S.mem.2.counter = (n + 1) % 2 ^ 32
  finishes : ∃ T, Reachable ((kernelCores n b).onward S) T ∧ ∀ c, T.code c = .ret ()

theorem announcing_sounding {p : BootM n Unit} {q : ConsoleM Unit}
    (announcing : Announcing b S p q) (some : S.mem.2.text ≠ []) : Sounding S.mem.1 := by
  by_cases opened : p = .ret ()
  · subst opened
    exact announcing.opens.1
  · have none := announcing.silent opened
    exact absurd (congrArg Shared.text none) some

theorem announcing_testRun (small : n + 1 < 2 ^ 32) {p : BootM n Unit} {q : ConsoleM Unit}
    (announcing : Announcing b S p q) : TestRun b S where
  shown := announcing_shown announcing
  differs := shown_differs (announcing_shown announcing)
  sounding := announcing_sounding announcing
  complete c done := absurd done (announcing_unfinished announcing c)
  finishes := announcing_ends rfl small (reachable_init rfl) announcing

theorem running_testRun (small : n + 1 < 2 ^ 32) (running : Running b S ps) : TestRun b S where
  shown := running_shown running
  differs := shown_differs (running_shown running)
  sounding _ := running.sounding
  complete := by
    intro c done
    rw [running.code c] at done
    have boot := (parts_over done).1
    rcases running.booting with early | ⟨p, q, stages, woken⟩
    · exact absurd boot (early_unfinished early c)
    · have last := code_done ((woken.code c).symm.trans boot)
      exact done_text running (done_rights running woken last)
  finishes := running_ends rfl small (reachable_init rfl) running

/-- The kernel of the tests, from reset on, in every order of steps. -/
theorem tests_run (b : Board) (room : 128 ≤ b.heapBytes) (fits : b.heapBytes < 2 ^ 34)
    (small : n + 1 < 2 ^ 32) (reach : Reachable (kernelCores n b) S) : TestRun b S := by
  rcases kernel_reaches room fits small reach with ⟨p, q, announcing⟩ | ⟨ps, running⟩
  · exact announcing_testRun small announcing
  · exact running_testRun small running

def fourKernels : Threads (Fin 4) (KernelI 3) (Memory 3) :=
  ⟨(fourCores.mem, .fresh), coreCode megabyteBoard, fun _ => .arm⟩

theorem fourKernels_init : (kernelCores 3 megabyteBoard).init fourKernels :=
  ⟨fourCores_init.1, rfl, rfl, rfl⟩

theorem tests_run_four : ∃ S, Reachable (kernelCores 3 megabyteBoard) S ∧ (∀ c, S.code c = .ret ()) ∧
    S.mem.2.text = "| heap range 0x96000 0x196000\r\n".toList ++ okText 3 := by
  have start : Reachable (kernelCores 3 megabyteBoard) fourKernels := reachable_init fourKernels_init
  obtain ⟨S, after, done⟩ :=
    (tests_run megabyteBoard (by decide) (by decide) (by decide) start).finishes
  have reach := reachable_onward start after
  have run := tests_run megabyteBoard (by decide) (by decide) (by decide) reach
  exact ⟨S, reach, done, (run.complete 0 (done 0)).1⟩

end PiKernel.Whole
