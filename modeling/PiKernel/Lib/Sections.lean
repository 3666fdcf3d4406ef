import Mathlib.Algebra.BigOperators.Group.Finset.Piecewise
import PiKernel.Lib.Interleaving

/-!
Sections under one lock that differ from call to call. Every thread has a list of
jobs; whatever the order of steps, the jobs take effect one after the other, in
an order that keeps the order of each thread, and every state can be continued
to one in which all are done.
-/
namespace PiKernel.Interleaving
open Program Transition

variable {Core : Type} [DecidableEq Core] {I : Interface} {σ J : Type}

def jobs (lock unlock : I.Op) (body : J → Prog I Unit) : List J → Prog I Unit
  | [] => .ret ()
  | j :: js => .op lock fun _ => (locked unlock (body j)).bind fun _ => jobs lock unlock body js

def ofCore (c : Core) (h : List (Core × J)) : List J :=
  (h.filter fun x => x.1 = c).map Prod.snd

/-- `h` is what the cores have done of `todo`, in this order, and `left` the rest. -/
def Shares (todo : Core → List J) (h : List (Core × J)) (left : Core → List J) : Prop :=
  ∀ c, ofCore c h ++ left c = todo c

@[simp] theorem ofCore_nil (c : Core) : ofCore c ([] : List (Core × J)) = [] := rfl

theorem ofCore_same (h : List (Core × J)) (c : Core) (j : J) :
    ofCore c (h ++ [(c, j)]) = ofCore c h ++ [j] := by
  simp [ofCore]

theorem ofCore_other (h : List (Core × J)) {c d : Core} (other : d ≠ c) (j : J) :
    ofCore d (h ++ [(c, j)]) = ofCore d h := by
  simp [ofCore, Ne.symm other]

theorem shares_nil (todo : Core → List J) : Shares todo [] todo := fun _ => rfl

theorem shares_take {todo left : Core → List J} {h : List (Core × J)} {c : Core} {j : J}
    {js : List J} (shares : Shares todo h left) (next : left c = j :: js) :
    Shares todo (h ++ [(c, j)]) (Function.update left c js) := by
  intro d
  by_cases same : d = c
  · subst same
    rw [ofCore_same, Function.update_self, List.append_assoc, List.singleton_append, ← next]
    exact shares d
  · rw [ofCore_other h same, Function.update_of_ne same]
    exact shares d

theorem ofCore_count [Fintype Core] (h : List (Core × J)) :
    ∑ c, (ofCore c h).length = h.length := by
  induction h with
  | nil => simp
  | cons x h ih =>
    have more : ∀ c, (ofCore c (x :: h)).length = (ofCore c h).length + if x.1 = c then 1 else 0 := by
      intro c
      by_cases same : x.1 = c <;> simp [ofCore, same]
    simp only [more, Finset.sum_add_distrib, ih, Finset.sum_ite_eq, Finset.mem_univ, ↓reduceIte,
      List.length_cons]

theorem shares_count [Fintype Core] {todo left : Core → List J} {h : List (Core × J)}
    (shares : Shares todo h left) :
    ∑ c, (todo c).length = h.length + ∑ c, (left c).length := by
  rw [← ofCore_count h, ← Finset.sum_add_distrib]
  apply Finset.sum_congr rfl
  intro c _
  rw [← shares c, List.length_append]

variable {exec : Core → Exec I σ} {waits : I.Op → Prop} {lock unlock : I.Op}
  {body : J → Prog I Unit} {between : List (Core × J) → σ → Prop}
  {ok : Core → J → List (Core × J) → I.Op → σ → Prop} {S T : Threads Core I σ} {c : Core}

/-- The rule for sections: from a state between two of them the lock can be won and
    the section runs alone to its end, and while it does (`ok`) nobody else wins the lock. -/
structure Sectioned (exec : Core → Exec I σ) (lock unlock : I.Op) (body : J → Prog I Unit)
    (between : List (Core × J) → σ → Prop)
    (ok : Core → J → List (Core × J) → I.Op → σ → Prop) : Prop where
  opens : ∀ c j h s, between h s → ∃ r t, exec c lock s = some (r, t) ∧
    (locked unlock (body j)).Solo (exec c) (ok c j h) (fun _ => between (h ++ [(c, j)])) t
  shuts : ∀ c j h d o s, ok c j h o s → exec d lock s = none

inductive InOrder (exec : Core → Exec I σ) (lock unlock : I.Op) (body : J → Prog I Unit)
    (between : List (Core × J) → σ → Prop)
    (ok : Core → J → List (Core × J) → I.Op → σ → Prop) (todo : Core → List J)
    (S : Threads Core I σ) : Prop where
  | idle {h : List (Core × J)} {left : Core → List J} (shares : Shares todo h left)
      (quiet : between h S.mem) (code : ∀ d, S.code d = jobs lock unlock body (left d)) :
      InOrder exec lock unlock body between ok todo S
  | inside {h : List (Core × J)} {left : Core → List J} {c : Core} {j : J} {o : I.Op}
      {q : I.Res o → Prog I Unit} (shares : Shares todo (h ++ [(c, j)]) left)
      (mine : S.code c = (Prog.op o q).bind fun _ => jobs lock unlock body (left c))
      (solo : (Prog.op o q).Solo (exec c) (ok c j h) (fun _ => between (h ++ [(c, j)])) S.mem)
      (others : ∀ d, d ≠ c → S.code d = jobs lock unlock body (left d)) :
      InOrder exec lock unlock body between ok todo S

omit [DecidableEq Core] in
theorem jobs_op {js : List J} {o : I.Op} {k : I.Res o → Prog I Unit}
    (here : jobs lock unlock body js = .op o k) : ∃ j rest, js = j :: rest ∧
      (⟨o, k⟩ : (o : I.Op) × (I.Res o → Prog I Unit)) =
        ⟨lock, fun _ => (locked unlock (body j)).bind fun _ => jobs lock unlock body rest⟩ := by
  cases js with
  | nil => exact absurd here (by simp [jobs])
  | cons j rest =>
    obtain ⟨rfl, same⟩ := Prog.op.inj here
    exact ⟨j, rest, rfl, by rw [eq_of_heq same]⟩

theorem inOrder_step {todo : Core → List J} (rule : Sectioned exec lock unlock body between ok)
    (inOrder : InOrder exec lock unlock body between ok todo S) (step : ThreadStep exec waits S c T) :
    InOrder exec lock unlock body between ok todo T := by
  rcases step_cases step with ⟨o, k, r, t, here, result, _, rfl⟩ | ⟨phase, rfl⟩
  · cases inOrder with
    | @idle h left shares quiet code =>
      -- the core wins the lock
      rw [code c] at here
      obtain ⟨j, rest, next, same⟩ := jobs_op here
      cases same
      obtain ⟨r', t', won, solo⟩ := rule.opens c j h S.mem quiet
      rw [result] at won
      obtain ⟨rfl, rfl⟩ : r = r' ∧ t = t' := by simpa using won
      obtain ⟨o, q, form⟩ := locked_op unlock (body j)
      apply InOrder.inside (shares_take shares next) (q := q)
      · simp [Threads.goOn, form]
      · exact form ▸ solo
      · intro d other
        simpa [Threads.goOn, other] using code d
    | @inside h left d j o' q shares mine solo others =>
      obtain ⟨allowed, r', t', performed, rest⟩ := solo
      by_cases same : c = d
      · -- the core inside goes on
        subst same
        rw [mine] at here
        obtain ⟨rfl, equal⟩ := Prog.op.inj here
        obtain rfl := eq_of_heq equal
        rw [result] at performed
        obtain ⟨rfl, rfl⟩ : r = r' ∧ t = t' := by simpa using performed
        cases after : q r with
        | ret a =>
          rw [after] at rest
          apply InOrder.idle shares rest
          intro e
          by_cases own : e = c
          · subst own
            simp [Threads.goOn, after, Prog.bind]
          · simpa [Threads.goOn, own] using others e own
        | op o' q' =>
          rw [after] at rest
          apply InOrder.inside shares (q := q') _ rest
          · intro e other
            simpa [Threads.goOn, other] using others e other
          · simp [Threads.goOn, after]
      · -- nobody else gets past the lock
        rw [others c same] at here
        obtain ⟨j', rest', _, equal⟩ := jobs_op here
        cases equal
        rw [rule.shuts d j h c o' S.mem allowed] at result
        exact absurd result (by simp)
  · cases inOrder with
    | idle shares quiet code => exact .idle shares quiet code
    | inside shares mine solo others => exact .inside shares mine solo others

def jobThreads (exec : Core → Exec I σ) (waits : I.Op → Prop) (lock unlock : I.Op)
    (body : J → Prog I Unit) (start : σ → Prop) (todo : Core → List J) :
    System (Threads Core I σ) Core where
  init S := start S.mem ∧ S.code = (fun c => jobs lock unlock body (todo c)) ∧
    S.phase = fun _ => .arm
  step := ThreadStep exec waits

theorem jobThreads_inOrder {todo : Core → List J} {start : σ → Prop}
    (rule : Sectioned exec lock unlock body between ok) (first : ∀ s, start s → between [] s)
    (reach : Reachable (jobThreads exec waits lock unlock body start todo) S) :
    InOrder exec lock unlock body between ok todo S := by
  apply reachable_invariant _ _ reach
  · intro S ⟨fresh, code, _⟩
    apply InOrder.idle (shares_nil todo) (first S.mem fresh)
    intro d
    rw [code]
  · intro S c T inOrder step
    exact inOrder_step rule inOrder step

omit [DecidableEq Core] in
theorem jobs_solo (rule : Sectioned exec lock unlock body between ok) (js : List J)
    {h : List (Core × J)} {s : σ} (quiet : between h s) :
    (jobs lock unlock body js).Solo (exec c) (fun _ _ => True)
      (fun _ => between (h ++ js.map fun j => (c, j))) s := by
  induction js generalizing h s with
  | nil =>
    apply solo_ret
    simpa using quiet
  | cons j js ih =>
    obtain ⟨r, t, won, solo⟩ := rule.opens c j h s quiet
    apply solo_op trivial won
    apply solo_bind
    apply solo_mono _ (solo_weaken (fun _ _ _ => trivial) solo)
    intro _ u quiet'
    apply solo_mono _ (ih quiet')
    intro _ v last
    simpa using last

/-- Nobody is stuck: what one core has left can be done without the others moving. -/
theorem jobs_run {Sys : System (Threads Core I σ) Core} (steps : Sys.step = ThreadStep exec waits)
    (rule : Sectioned exec lock unlock body between ok) (js : List J) {h : List (Core × J)}
    (reach : Reachable Sys S) (code : S.code c = jobs lock unlock body js)
    (quiet : between h S.mem) : ∃ S', Reachable Sys S' ∧
      between (h ++ js.map fun j => (c, j)) S'.mem ∧ S'.code = Function.update S.code c (.ret ()) := by
  obtain ⟨_, t, S', quiet', reach', rfl, code'⟩ := thread_runs steps (jobs lock unlock body js) .ret
    (jobs_solo rule js quiet) reach rfl (by rw [bind_ret, code])
  exact ⟨S', reach', quiet', code'⟩

theorem idle_finishes {Sys : System (Threads Core I σ) Core}
    (steps : Sys.step = ThreadStep exec waits) (rule : Sectioned exec lock unlock body between ok)
    (cs : List Core) {left : Core → List J} {h : List (Core × J)} (reach : Reachable Sys S)
    (quiet : between h S.mem) (code : ∀ d, S.code d = jobs lock unlock body (left d))
    (rest : ∀ d, d ∉ cs → left d = []) :
    ∃ S', Reachable Sys S' ∧ ∀ d, S'.code d = .ret () := by
  induction cs generalizing S h left with
  | nil =>
    refine ⟨S, reach, ?_⟩
    intro d
    rw [code d, rest d List.not_mem_nil]
    rfl
  | cons c cs ih =>
    obtain ⟨S', reach', quiet', code'⟩ := jobs_run steps rule (left c) reach (code c) quiet
    have onward : ∀ d, S'.code d = jobs lock unlock body (Function.update left c [] d) := by
      intro d
      rw [code']
      by_cases same : d = c
      · subst same
        simp [jobs]
      · simpa [same] using code d
    apply ih reach' quiet' onward
    intro d outside
    by_cases same : d = c
    · simp [same]
    · simpa [same] using rest d (by simp [same, outside])

theorem jobThreads_finishes [Fintype Core] {todo : Core → List J} {start : σ → Prop}
    (rule : Sectioned exec lock unlock body between ok) (first : ∀ s, start s → between [] s)
    (reach : Reachable (jobThreads exec waits lock unlock body start todo) S) :
    ∃ T, Reachable ((jobThreads exec waits lock unlock body start todo).onward S) T ∧
      ∀ d, T.code d = .ret () := by
  have finish : ∀ (R : Threads Core I σ) (h : List (Core × J)) (left : Core → List J),
      Reachable ((jobThreads exec waits lock unlock body start todo).onward S) R →
      between h R.mem → (∀ d, R.code d = jobs lock unlock body (left d)) →
      ∃ T, Reachable ((jobThreads exec waits lock unlock body start todo).onward S) T ∧
        ∀ d, T.code d = .ret () := by
    intro R h left there quiet code
    apply idle_finishes rfl rule Finset.univ.toList there quiet code
    intro d outside
    exact absurd (Finset.mem_toList.mpr (Finset.mem_univ d)) outside
  have here : Reachable ((jobThreads exec waits lock unlock body start todo).onward S) S :=
    reachable_init rfl
  cases jobThreads_inOrder rule first reach with
  | @idle h left shares quiet code => exact finish S h left here quiet code
  | @inside h left c j o q shares mine solo others =>
    obtain ⟨_, t, R, quiet, there, rfl, code⟩ := thread_runs rfl (Prog.op o q)
      (fun _ => jobs lock unlock body (left c)) solo here rfl mine
    apply finish R (h ++ [(c, j)]) left there quiet
    intro d
    rw [code]
    by_cases same : d = c
    · subst same
      simp
    · simpa [same] using others d same

end PiKernel.Interleaving
