import Mathlib.Logic.Function.Basic

/-!
Labelled transition systems and their finite runs. A run keeps the steps it
took, newest first, so that a condition on every step and a property of every
visited state are statements about one list.
-/
namespace PiKernel.Transition

structure System (State Event : Type) where
  init : State → Prop
  step : State → Event → State → Prop

variable {State Event : Type}

/-- `Run T past s`: the steps recorded in `past` lead from an initial state to `s`. -/
inductive Run (T : System State Event) : List (State × Event) → State → Prop where
  | start {s : State} (first : T.init s) : Run T [] s
  | next {past : List (State × Event)} {s t : State} {e : Event}
      (before : Run T past s) (last : T.step s e t) : Run T ((s, e) :: past) t

def Reachable (T : System State Event) (s : State) : Prop := ∃ past, Run T past s

def visited (past : List (State × Event)) (s : State) : List State := s :: past.map Prod.fst

theorem reachable_init {T : System State Event} {s : State} (first : T.init s) :
    Reachable T s := ⟨[], .start first⟩

theorem reachable_step {T : System State Event} {s t : State} {e : Event}
    (before : Reachable T s) (last : T.step s e t) : Reachable T t := by
  obtain ⟨past, run⟩ := before
  exact ⟨(s, e) :: past, .next run last⟩

theorem run_invariant {T : System State Event} {ok : State → Event → Prop}
    {inv : State → Prop} (base : ∀ s, T.init s → inv s)
    (keep : ∀ s e t, inv s → ok s e → T.step s e t → inv t)
    {past : List (State × Event)} {s : State} (run : Run T past s)
    (good : ∀ x ∈ past, ok x.1 x.2) : inv s := by
  induction run with
  | start first => exact base _ first
  | next before last ih =>
    have earlier := ih (fun x member => good x (List.mem_cons_of_mem _ member))
    exact keep _ _ _ earlier (good _ List.mem_cons_self) last

theorem run_visited {T : System State Event} {ok : State → Event → Prop}
    {inv : State → Prop} (base : ∀ s, T.init s → inv s)
    (keep : ∀ s e t, inv s → ok s e → T.step s e t → inv t)
    {past : List (State × Event)} {s : State} (run : Run T past s)
    (good : ∀ x ∈ past, ok x.1 x.2) : ∀ t ∈ visited past s, inv t := by
  induction run with
  | start first =>
    intro t member
    obtain rfl : t = _ := by simpa [visited] using member
    exact base _ first
  | @next past s u e before last ih =>
    have tail : ∀ x ∈ past, ok x.1 x.2 := fun x member => good x (List.mem_cons_of_mem _ member)
    intro t member
    rcases List.mem_cons.mp member with rfl | member
    · exact run_invariant base keep (.next before last) good
    · exact ih tail t member

theorem run_after {T : System State Event} {past : List (State × Event)} {s u : State} {e : Event}
    (run : Run T past s) (taken : (u, e) ∈ past) : ∃ t ∈ visited past s, T.step u e t := by
  induction run with
  | start first => exact absurd taken List.not_mem_nil
  | @next past r s d before last ih =>
    rcases List.mem_cons.mp taken with newest | earlier
    · injection newest with state event
      subst state
      subst event
      exact ⟨s, List.mem_cons_self, last⟩
    · obtain ⟨t, member, step⟩ := ih earlier
      exact ⟨t, List.mem_cons_of_mem _ member, step⟩

theorem reachable_invariant {T : System State Event} {inv : State → Prop}
    (base : ∀ s, T.init s → inv s) (keep : ∀ s e t, inv s → T.step s e t → inv t)
    {s : State} (reach : Reachable T s) : inv s := by
  obtain ⟨past, run⟩ := reach
  exact @run_invariant State Event T (fun _ _ => True) inv base
    (fun s e t hs _ => keep s e t hs) past s run (fun _ _ => trivial)

/-- Forward simulation: every step of `T` is one step of `U` or none. -/
theorem run_simulated {State' Event' : Type} {T : System State Event} {U : System State' Event'}
    {R : List (State × Event) → State → State' → Prop}
    (base : ∀ s, T.init s → ∃ u, U.init u ∧ R [] s u)
    (follow : ∀ past s e t u, Run T past s → Reachable U u → R past s u → T.step s e t →
      ∃ v, R ((s, e) :: past) t v ∧ (v = u ∨ ∃ d, U.step u d v))
    {past : List (State × Event)} {s : State} (run : Run T past s) :
    ∃ u, Reachable U u ∧ R past s u := by
  induction run with
  | start first =>
    obtain ⟨u, here, related⟩ := base _ first
    exact ⟨u, reachable_init here, related⟩
  | next before last ih =>
    obtain ⟨u, reach, related⟩ := ih
    obtain ⟨v, after, rfl | ⟨d, step⟩⟩ := follow _ _ _ _ u before reach related last
    · exact ⟨v, reach, after⟩
    · exact ⟨v, reachable_step reach step, after⟩

def System.onward (T : System State Event) (s : State) : System State Event where
  init t := t = s
  step := T.step

theorem reachable_onward {T : System State Event} {s t : State} (before : Reachable T s)
    (after : Reachable (T.onward s) t) : Reachable T t := by
  apply @reachable_invariant State Event (T.onward s) (Reachable T) _ _ t after
  · intro u first
    rw [show u = s from first]
    exact before
  · intro u e v there step
    exact reachable_step there step

theorem reachable_trans {T : System State Event} {s t u : State}
    (before : Reachable (T.onward s) t) (after : Reachable (T.onward t) u) :
    Reachable (T.onward s) u := by
  apply @reachable_invariant State Event (T.onward t) (Reachable (T.onward s)) _ _ u after
  · intro v first
    rw [show v = t from first]
    exact before
  · intro v e w there step
    exact reachable_step there step

/-- Every run from `s` comes to a state with `P`: until then it can always go on. -/
inductive Inevitable (T : System State Event) (P : State → Prop) : State → Prop where
  | now {s : State} (here : P s) : Inevitable T P s
  | later {s : State} (goes : ∃ e t, T.step s e t)
      (all : ∀ e t, T.step s e t → Inevitable T P t) : Inevitable T P s

theorem inevitable_trans {T : System State Event} {P Q : State → Prop} {s : State}
    (first : Inevitable T P s) (second : ∀ t, P t → Inevitable T Q t) : Inevitable T Q s := by
  induction first with
  | now here => exact second _ here
  | later goes all ih => exact .later goes ih

theorem inevitable_mono {T : System State Event} {P Q : State → Prop} {s : State}
    (first : Inevitable T P s) (weaker : ∀ t, P t → Q t) : Inevitable T Q s :=
  inevitable_trans first fun t here => .now (weaker t here)

theorem inevitable_exists {T : System State Event} {P : State → Prop} {s : State}
    (first : Inevitable T P s) : ∃ t, P t := by
  induction first with
  | now here => exact ⟨_, here⟩
  | later goes all ih =>
    obtain ⟨e, t, step⟩ := goes
    exact ih e t step

/-- As `Inevitable`, and none of the steps on the way is `bad`. -/
inductive Unhindered (T : System State Event) (bad : Event → Prop) (P : State → Prop) :
    State → Prop where
  | now {s : State} (here : P s) : Unhindered T bad P s
  | later {s : State} (goes : ∃ e t, T.step s e t) (good : ∀ e t, T.step s e t → ¬ bad e)
      (all : ∀ e t, T.step s e t → Unhindered T bad P t) : Unhindered T bad P s

theorem unhindered_inevitable {T : System State Event} {bad : Event → Prop} {P : State → Prop}
    {s : State} (unhindered : Unhindered T bad P s) : Inevitable T P s := by
  induction unhindered with
  | now here => exact .now here
  | later goes _ _ ih => exact .later goes ih

end PiKernel.Transition
