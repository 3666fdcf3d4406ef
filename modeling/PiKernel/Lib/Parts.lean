import PiKernel.Lib.Interleaving

/-!
Threads over two families of operations, each family with a state of its own. A
thread is a list of parts, each a program over one of the families; seen over one
family it runs the parts of that family one after the other.
-/
namespace PiKernel.Interleaving
open Program Transition

variable {I J : Interface} {α β σ τ Core : Type}

@[reducible] def bothRes (I J : Interface) : I.Op ⊕ J.Op → Type
  | .inl o => I.Res o
  | .inr o => J.Res o

abbrev Both (I J : Interface) : Interface := ⟨I.Op ⊕ J.Op, bothRes I J⟩

/-- An operation changes the state of its own family only. -/
def bothExec (e : Exec I σ) (f : Exec J τ) : Exec (Both I J) (σ × τ)
  | .inl o, s => (e o s.1).map fun out => (out.1, out.2, s.2)
  | .inr o, s => (f o s.2).map fun out => (out.1, s.1, out.2)

def onLeft (p : Prog I α) : Prog (Both I J) α := p.hoist fun o => @call (Both I J) (.inl o)

def onRight (q : Prog J α) : Prog (Both I J) α := q.hoist fun o => @call (Both I J) (.inr o)

theorem bind_end (p : Prog I Unit) : (p.bind fun _ => .ret ()) = p := bind_ret p

theorem onLeft_bind (p : Prog I α) (g : α → Prog I β) :
    (onLeft (p.bind g) : Prog (Both I J) β) = (onLeft p).bind fun a => onLeft (g a) := by
  induction p with
  | ret a => rfl
  | op o k ih => exact congrArg (@Prog.op (Both I J) β (.inl o)) (funext ih)

inductive Part (I J : Interface) where
  | left (p : Prog I Unit)
  | right (q : Prog J Unit)

def inParts : List (Part I J) → Prog (Both I J) Unit
  | [] => .ret ()
  | .left p :: rest => (onLeft p).bind fun _ => inParts rest
  | .right q :: rest => (onRight q).bind fun _ => inParts rest

def lefts : List (Part I J) → Prog I Unit
  | [] => .ret ()
  | .left p :: rest => p.bind fun _ => lefts rest
  | .right _ :: rest => lefts rest

def rights : List (Part I J) → Prog J Unit
  | [] => .ret ()
  | .left _ :: rest => rights rest
  | .right q :: rest => q.bind fun _ => rights rest

/-- The next operation of some parts, and the parts that are left after it. -/
inductive Next : List (Part I J) → (o : I.Op ⊕ J.Op) → (bothRes I J o → List (Part I J)) → Prop where
  | left (o : I.Op) (k : I.Res o → Prog I Unit) (rest : List (Part I J)) :
      Next (.left (.op o k) :: rest) (.inl o) fun r => .left (k r) :: rest
  | right (o : J.Op) (k : J.Res o → Prog J Unit) (rest : List (Part I J)) :
      Next (.right (.op o k) :: rest) (.inr o) fun r => .right (k r) :: rest
  | leftOver {rest : List (Part I J)} {o : I.Op ⊕ J.Op} {ks : bothRes I J o → List (Part I J)}
      (later : Next rest o ks) : Next (.left (.ret ()) :: rest) o fun r => .left (.ret ()) :: ks r
  | rightOver {rest : List (Part I J)} {o : I.Op ⊕ J.Op} {ks : bothRes I J o → List (Part I J)}
      (later : Next rest o ks) : Next (.right (.ret ()) :: rest) o fun r => .right (.ret ()) :: ks r

variable {ps : List (Part I J)}

theorem next_code {o : I.Op ⊕ J.Op} {ks : bothRes I J o → List (Part I J)} (next : Next ps o ks) :
    inParts ps = @Prog.op (Both I J) Unit o fun r => inParts (ks r) := by
  induction next with
  | left o k rest => rfl
  | right o k rest => rfl
  | leftOver later ih => exact ih
  | rightOver later ih => exact ih

theorem code_parts {o : I.Op ⊕ J.Op} {k : bothRes I J o → Prog (Both I J) Unit}
    (here : inParts ps = @Prog.op (Both I J) Unit o k) :
    ∃ ks, Next ps o ks ∧ k = fun r => inParts (ks r) := by
  induction ps with
  | nil => exact absurd here (by simp [inParts])
  | cons part rest ih =>
    match part with
    | .left (.ret ()) =>
      obtain ⟨ks, later, same⟩ := ih here
      exact ⟨_, .leftOver later, same⟩
    | .right (.ret ()) =>
      obtain ⟨ks, later, same⟩ := ih here
      exact ⟨_, .rightOver later, same⟩
    | .left (.op o' k') =>
      obtain ⟨rfl, same⟩ := Prog.op.inj here
      exact ⟨_, .left o' k' rest, (eq_of_heq same).symm⟩
    | .right (.op o' k') =>
      obtain ⟨rfl, same⟩ := Prog.op.inj here
      exact ⟨_, .right o' k' rest, (eq_of_heq same).symm⟩

def Viewed (ps : List (Part I J)) : (o : I.Op ⊕ J.Op) → (bothRes I J o → List (Part I J)) → Prop
  | .inl o, ks => lefts ps = .op o (fun r => lefts (ks r)) ∧ ∀ r, rights (ks r) = rights ps
  | .inr o, ks => rights ps = .op o (fun r => rights (ks r)) ∧ ∀ r, lefts (ks r) = lefts ps

theorem next_viewed {o : I.Op ⊕ J.Op} {ks : bothRes I J o → List (Part I J)} (next : Next ps o ks) :
    Viewed ps o ks := by
  induction next with
  | left o k rest => exact ⟨rfl, fun _ => rfl⟩
  | right o k rest => exact ⟨rfl, fun _ => rfl⟩
  | @leftOver rest o ks later ih => cases o <;> exact ih
  | @rightOver rest o ks later ih => cases o <;> exact ih

theorem next_left {o : I.Op} {ks : I.Res o → List (Part I J)} (next : Next ps (.inl o) ks) :
    lefts ps = .op o (fun r => lefts (ks r)) ∧ ∀ r, rights (ks r) = rights ps := next_viewed next

theorem next_right {o : J.Op} {ks : J.Res o → List (Part I J)} (next : Next ps (.inr o) ks) :
    rights ps = .op o (fun r => rights (ks r)) ∧ ∀ r, lefts (ks r) = lefts ps := next_viewed next

/-- Parts with an operation of the first family have it next, or one of the second before it. -/
theorem left_or_right {o : I.Op} {k : I.Res o → Prog I Unit} (here : lefts ps = .op o k) :
    (∃ ks : I.Res o → List (Part I J), Next ps (.inl o) ks ∧ k = fun r => lefts (ks r)) ∨
      ∃ (o' : J.Op) (ks : J.Res o' → List (Part I J)), Next ps (.inr o') ks := by
  induction ps with
  | nil => exact absurd here (by simp [lefts])
  | cons part rest ih =>
    match part with
    | .left (.ret ()) =>
      rcases ih here with ⟨ks, later, same⟩ | ⟨o', ks, later⟩
      · exact Or.inl ⟨_, .leftOver later, same⟩
      · exact Or.inr ⟨o', _, .leftOver later⟩
    | .right (.ret ()) =>
      rcases ih here with ⟨ks, later, same⟩ | ⟨o', ks, later⟩
      · exact Or.inl ⟨_, .rightOver later, same⟩
      · exact Or.inr ⟨o', _, .rightOver later⟩
    | .left (.op o' k') =>
      obtain ⟨rfl, same⟩ := Prog.op.inj here
      exact Or.inl ⟨_, .left o' k' rest, (eq_of_heq same).symm⟩
    | .right (.op o' k') => exact Or.inr ⟨o', _, .right o' k' rest⟩

theorem parts_over (done : inParts ps = .ret ()) : lefts ps = .ret () ∧ rights ps = .ret () := by
  induction ps with
  | nil => exact ⟨rfl, rfl⟩
  | cons part rest ih =>
    match part with
    | .left (.ret ()) => exact ih done
    | .right (.ret ()) => exact ih done
    | .left (.op o k) => exact absurd done (by simp [inParts, onLeft, Prog.hoist, call, Prog.bind])
    | .right (.op o k) => exact absurd done (by simp [inParts, onRight, Prog.hoist, call, Prog.bind])

theorem views_over (left : lefts ps = .ret ()) (right : rights ps = .ret ()) :
    inParts ps = .ret () := by
  induction ps with
  | nil => rfl
  | cons part rest ih =>
    match part with
    | .left (.ret ()) => exact ih left right
    | .right (.ret ()) => exact ih left right
    | .left (.op o k) => exact absurd left (by simp [lefts, Prog.bind])
    | .right (.op o k) => exact absurd right (by simp [rights, Prog.bind])

section Solo
variable {e : Exec I σ} {f : Exec J τ}

theorem solo_left {ok : I.Op → σ → Prop} {post : α → σ → Prop} {p : Prog I α} {s : σ} (t : τ)
    (h : p.Solo e ok post s) : (onLeft p).Solo (bothExec e f) (fun _ _ => True)
      (fun a u => ∃ s', post a s' ∧ u = (s', t)) (s, t) := by
  have step : ∀ o s (r : I.Res o) s' (u : σ × τ), ok o s → e o s = some (r, s') → u = (s, t) →
      (@call (Both I J) (.inl o)).Solo (bothExec e f) (fun _ _ => True)
        (fun r' v => r' = r ∧ v = (s', t)) u := by
    intro o s r s' u _ result here
    subst here
    have performed : bothExec e f (.inl o) (s, t) = some (r, s', t) := by simp [bothExec, result]
    exact solo_op trivial performed (solo_ret ⟨rfl, rfl⟩)
  exact solo_hoist step h rfl

theorem solo_right {ok : J.Op → τ → Prop} {post : α → τ → Prop} {q : Prog J α} {t : τ} (s : σ)
    (h : q.Solo f ok post t) : (onRight q).Solo (bothExec e f) (fun _ _ => True)
      (fun a u => ∃ t', post a t' ∧ u = (s, t')) (s, t) := by
  have step : ∀ o t (r : J.Res o) t' (u : σ × τ), ok o t → f o t = some (r, t') → u = (s, t) →
      (@call (Both I J) (.inr o)).Solo (bothExec e f) (fun _ _ => True)
        (fun r' v => r' = r ∧ v = (s, t')) u := by
    intro o t r t' u _ result here
    subst here
    have performed : bothExec e f (.inr o) (s, t) = some (r, s, t') := by simp [bothExec, result]
    exact solo_op trivial performed (solo_ret ⟨rfl, rfl⟩)
  exact solo_hoist step h rfl

end Solo

variable [DecidableEq Core] {S T : Threads Core (Both I J) (σ × τ)} {c : Core}
  {parts : Core → List (Part I J)}

def viewed (s : σ) (code : Core → Prog I Unit) : Threads Core I σ := ⟨s, code, fun _ => .attempt⟩

def Blind (inv : Threads Core I σ → Prop) : Prop := ∀ R phase, inv R → inv { R with phase := phase }

theorem viewed_moves {A : Type} {s t : σ} {view : A → Prog I Unit} {at' : Core → A} {x : A} {e : Core → Exec I σ}
    {waits : I.Op → Prop} {inv : Threads Core I σ → Prop} {o : I.Op} {k : I.Res o → Prog I Unit}
    {r : I.Res o} (blind : Blind inv) (keep : ∀ R R', inv R → ThreadStep e waits R c R' → inv R')
    (here : view (at' c) = .op o k) (result : e c o s = some (r, t)) (after : view x = k r)
    (before : inv (viewed s fun d => view (at' d))) :
    inv (viewed t fun d => view (Function.update at' c x d)) := by
  have step : ThreadStep e waits (viewed s fun d => view (at' d)) c
      ((viewed s fun d => view (at' d)).goOn c t (k r)) := by
    by_cases waiting : waits o
    · exact .win here waiting rfl result
    · exact .perform here waiting result
  have same : (viewed t fun d => view (Function.update at' c x d)) =
      { (viewed s fun d => view (at' d)).goOn c t (k r) with phase := fun _ => .attempt } := by
    unfold viewed Threads.goOn
    congr 1
    funext d
    by_cases own : d = c
    · subst own
      simp [after]
    · simp [own]
  rw [same]
  exact blind _ _ (keep _ _ before step)

theorem viewed_stays {A : Type} (s : σ) {view : A → Prog I Unit} {at' : Core → A} {x : A}
    (after : view x = view (at' c)) : (viewed s fun d => view (Function.update at' c x d)) =
      viewed s fun d => view (at' d) := by
  unfold viewed
  congr 1
  funext d
  by_cases own : d = c
  · subst own
    simp [after]
  · simp [own]

inductive PartStep (e : Core → Exec I σ) (f : Core → Exec J τ) (parts : Core → List (Part I J))
    (c : Core) (s s' : σ × τ) (parts' : Core → List (Part I J)) : Prop where
  | left {o : I.Op} {ks : I.Res o → List (Part I J)} {r : I.Res o} (next : Next (parts c) (.inl o) ks)
      (result : e c o s.1 = some (r, s'.1)) (kept : s'.2 = s.2)
      (rest : parts' = Function.update parts c (ks r))
  | right {o : J.Op} {ks : J.Res o → List (Part I J)} {r : J.Res o} (next : Next (parts c) (.inr o) ks)
      (kept : s'.1 = s.1) (result : f c o s.2 = some (r, s'.2))
      (rest : parts' = Function.update parts c (ks r))

variable {e : Core → Exec I σ} {f : Core → Exec J τ} {waits : I.Op ⊕ J.Op → Prop}

theorem update_parts (code : ∀ d, S.code d = inParts (parts d)) (rest : List (Part I J)) (d : Core) :
    Function.update S.code c (inParts rest) d = inParts (Function.update parts c rest d) := by
  by_cases same : d = c
  · subst same
    simp
  · simpa [same] using code d

/-- A step of threads made of parts changes nothing but a phase, or is one operation. -/
theorem parts_step (step : ThreadStep (fun c => bothExec (e c) (f c)) waits S c T)
    (code : ∀ d, S.code d = inParts (parts d)) : (T.mem = S.mem ∧ T.code = S.code) ∨
      ∃ parts', PartStep e f parts c S.mem T.mem parts' ∧ ∀ d, T.code d = inParts (parts' d) := by
  rcases step_cases step with ⟨o, k, r, u, here, result, _, rfl⟩ | ⟨phase, rfl⟩
  · right
    rw [code c] at here
    obtain ⟨ks, next, rfl⟩ := code_parts here
    refine ⟨Function.update parts c (ks r), ?_, fun d => update_parts code (ks r) d⟩
    cases o with
    | inl o =>
      obtain ⟨out, performed, equal⟩ := Option.map_eq_some_iff.mp result
      cases equal
      exact .left next performed rfl rfl
    | inr o =>
      obtain ⟨out, performed, equal⟩ := Option.map_eq_some_iff.mp result
      cases equal
      exact .right next rfl performed rfl
  · exact Or.inl ⟨rfl, rfl⟩

theorem parts_take {Sys : System (Threads Core (Both I J) (σ × τ)) Core}
    (steps : Sys.step = ThreadStep (fun c => bothExec (e c) (f c)) waits) (reach : Reachable Sys S)
    (code : ∀ d, S.code d = inParts (parts d)) {mem : σ × τ} {parts' : Core → List (Part I J)}
    (step : PartStep e f parts c S.mem mem parts') :
    ∃ T, Reachable Sys T ∧ T.mem = mem ∧ ∀ d, T.code d = inParts (parts' d) := by
  have taken : ∀ (o : (Both I J).Op) ks r, Next (parts c) o ks →
      bothExec (e c) (f c) o S.mem = some (r, mem) → parts' = Function.update parts c (ks r) →
      ∃ T, Reachable Sys T ∧ T.mem = mem ∧ ∀ d, T.code d = inParts (parts' d) := by
    intro o ks r next performed rest
    obtain ⟨T, there, same, codeT⟩ :=
      thread_takes steps reach ((code c).trans (next_code next)) performed
    refine ⟨T, there, same, ?_⟩
    intro d
    rw [codeT, rest]
    exact update_parts code (ks r) d
  cases step with
  | left next result kept rest =>
    exact taken (.inl _) _ _ next (by simp [bothExec, result, ← kept]) rest
  | right next kept result rest =>
    exact taken (.inr _) _ _ next (by simp [bothExec, result, ← kept]) rest

theorem partStep_left {s s' : σ × τ} {parts' : Core → List (Part I J)} {waits : I.Op → Prop}
    {inv : Threads Core I σ → Prop} (blind : Blind inv)
    (keep : ∀ R R', inv R → ThreadStep e waits R c R' → inv R') (step : PartStep e f parts c s s' parts')
    (before : inv (viewed s.1 fun d => lefts (parts d))) : inv (viewed s'.1 fun d => lefts (parts' d)) := by
  cases step with
  | left next result kept rest =>
    rw [rest]
    exact viewed_moves blind keep (next_left next).1 result rfl before
  | right next kept result rest =>
    rw [rest, viewed_stays _ ((next_right next).2 _), kept]
    exact before

theorem partStep_right {s s' : σ × τ} {parts' : Core → List (Part I J)} {waits : J.Op → Prop}
    {inv : Threads Core J τ → Prop} (blind : Blind inv)
    (keep : ∀ R R', inv R → ThreadStep f waits R c R' → inv R') (step : PartStep e f parts c s s' parts')
    (before : inv (viewed s.2 fun d => rights (parts d))) : inv (viewed s'.2 fun d => rights (parts' d)) := by
  cases step with
  | left next result kept rest =>
    rw [rest, viewed_stays _ ((next_left next).2 _), kept]
    exact before
  | right next kept result rest =>
    rw [rest]
    exact viewed_moves blind keep (next_right next).1 result rfl before

end PiKernel.Interleaving
