import Mathlib.Logic.Function.Basic

/-!
Programs over atomic operations. A program text is written once and read in two
ways: run alone on one state, or step by step among other programs (see
`Interleaving`). An operation that the state refuses (`none`) is where a
program stands still: a lock that is taken, a routine that never returns.
-/
namespace PiKernel.Program

/-- The atomic operations of a family of programs and the type each one returns. -/
structure Interface where
  Op : Type
  Res : Op → Type

inductive Prog (I : Interface) (α : Type) where
  | ret : α → Prog I α
  | op : (o : I.Op) → (I.Res o → Prog I α) → Prog I α

variable {I : Interface} {α β γ σ : Type}

def Prog.bind : Prog I α → (α → Prog I β) → Prog I β
  | .ret a, f => f a
  | .op o k, f => .op o fun r => (k r).bind f

instance : Monad (Prog I) where
  pure := .ret
  bind := .bind

def call (o : I.Op) : Prog I (I.Res o) := .op o .ret

inductive Outcome (I : Interface) (α σ : Type) where
  | done : α → σ → Outcome I α σ
  | stuck : I.Op → σ → Outcome I α σ

def Outcome.andThen : Outcome I α σ → (α → σ → Outcome I β σ) → Outcome I β σ
  | .done a s, f => f a s
  | .stuck o s, _ => .stuck o s

abbrev Exec (I : Interface) (σ : Type) := (o : I.Op) → σ → Option (I.Res o × σ)

def Prog.run (exec : Exec I σ) : Prog I α → σ → Outcome I α σ
  | .ret a, s => .done a s
  | .op o k, s =>
    match exec o s with
    | none => .stuck o s
    | some (r, t) => (k r).run exec t

@[simp] theorem bind_eq (p : Prog I α) (f : α → Prog I β) : (p >>= f) = p.bind f := rfl

@[simp] theorem pure_eq (a : α) : (pure a : Prog I α) = .ret a := rfl

@[simp] theorem bind_ret (p : Prog I α) : p.bind .ret = p := by
  induction p with
  | ret a => rfl
  | op o k ih => simp only [Prog.bind, ih]

theorem bind_assoc (p : Prog I α) (f : α → Prog I β) (g : β → Prog I γ) :
    (p.bind f).bind g = p.bind fun a => (f a).bind g := by
  induction p with
  | ret a => rfl
  | op o k ih => simp only [Prog.bind, ih]

@[simp] theorem run_ret (exec : Exec I σ) (a : α) (s : σ) :
    (Prog.ret a : Prog I α).run exec s = .done a s := rfl

@[simp] theorem andThen_done (a : α) (s : σ) (f : α → σ → Outcome I β σ) :
    (Outcome.done a s : Outcome I α σ).andThen f = f a s := rfl

@[simp] theorem andThen_stuck (o : I.Op) (s : σ) (f : α → σ → Outcome I β σ) :
    (Outcome.stuck o s : Outcome I α σ).andThen f = .stuck o s := rfl

theorem run_op_some {exec : Exec I σ} {o : I.Op} {k : I.Res o → Prog I α} {s t : σ}
    {r : I.Res o} (h : exec o s = some (r, t)) :
    (Prog.op o k).run exec s = (k r).run exec t := by
  simp only [Prog.run, h]

theorem run_op_none {exec : Exec I σ} {o : I.Op} {k : I.Res o → Prog I α} {s : σ}
    (h : exec o s = none) : (Prog.op o k).run exec s = .stuck o s := by
  simp only [Prog.run, h]

theorem run_bind (exec : Exec I σ) (p : Prog I α) (f : α → Prog I β) (s : σ) :
    (p.bind f).run exec s = (p.run exec s).andThen fun a t => (f a).run exec t := by
  induction p generalizing s with
  | ret a => rfl
  | op o k ih =>
    simp only [Prog.bind]
    cases h : exec o s with
    | none => rw [run_op_none h, run_op_none h]; rfl
    | some out => rw [run_op_some h, run_op_some h, ih]

/-- `p` run alone from `s` performs only operations allowed by `ok` at the state
    they meet, never stands still, and ends in `post`. -/
def Prog.Solo (exec : Exec I σ) (ok : I.Op → σ → Prop) (post : α → σ → Prop) :
    Prog I α → σ → Prop
  | .ret a, s => post a s
  | .op o k, s => ok o s ∧ ∃ r t, exec o s = some (r, t) ∧ (k r).Solo exec ok post t

variable {exec : Exec I σ} {ok : I.Op → σ → Prop}

theorem solo_ret {post : α → σ → Prop} {a : α} {s : σ} (h : post a s) :
    (Prog.ret a : Prog I α).Solo exec ok post s := h

theorem solo_op {post : α → σ → Prop} {o : I.Op} {k : I.Res o → Prog I α} {s t : σ}
    {r : I.Res o} (allowed : ok o s) (h : exec o s = some (r, t))
    (rest : (k r).Solo exec ok post t) : (Prog.op o k).Solo exec ok post s :=
  ⟨allowed, r, t, h, rest⟩

theorem solo_mono {post post' : α → σ → Prop} {p : Prog I α} {s : σ}
    (weaker : ∀ a t, post a t → post' a t) (h : p.Solo exec ok post s) :
    p.Solo exec ok post' s := by
  induction p generalizing s with
  | ret a => exact weaker a s h
  | op o k ih =>
    obtain ⟨allowed, r, t, same, rest⟩ := h
    exact ⟨allowed, r, t, same, ih r rest⟩

theorem solo_bind {post : β → σ → Prop} {p : Prog I α} {f : α → Prog I β} {s : σ}
    (h : p.Solo exec ok (fun a t => (f a).Solo exec ok post t) s) :
    (p.bind f).Solo exec ok post s := by
  induction p generalizing s with
  | ret a => exact h
  | op o k ih =>
    obtain ⟨allowed, r, t, same, rest⟩ := h
    exact ⟨allowed, r, t, same, ih r rest⟩

theorem solo_bind_iff {post : β → σ → Prop} {p : Prog I α} {f : α → Prog I β} {s : σ} :
    (p.bind f).Solo exec ok post s ↔ p.Solo exec ok (fun a t => (f a).Solo exec ok post t) s := by
  constructor
  · intro h
    induction p generalizing s with
    | ret a => exact h
    | op o k ih =>
      obtain ⟨allowed, r, t, same, rest⟩ := h
      exact ⟨allowed, r, t, same, ih r rest⟩
  · exact solo_bind

theorem solo_call {o : I.Op} {r : I.Res o} {s t : σ} {post : I.Res o → σ → Prop}
    (same : exec o s = some (r, t)) : (call o).Solo exec ok post s ↔ ok o s ∧ post r t := by
  constructor
  · intro h
    obtain ⟨allowed, r', t', same', rest⟩ := h
    rw [same] at same'
    obtain ⟨rfl, rfl⟩ : r = r' ∧ t = t' := by simpa using same'
    exact ⟨allowed, rest⟩
  · intro h
    exact ⟨h.1, r, t, same, h.2⟩

theorem solo_of_run {p : Prog I α} {s t : σ} {a : α} (run : p.run exec s = .done a t) :
    p.Solo exec (fun _ _ => True) (fun b u => b = a ∧ u = t) s := by
  induction p generalizing s with
  | ret b =>
    injection run with value state
    exact ⟨value, state⟩
  | op o k ih =>
    cases out : exec o s with
    | none =>
      rw [run_op_none out] at run
      exact absurd run (by simp)
    | some result =>
      rw [run_op_some out] at run
      exact ⟨trivial, result.1, result.2, out, ih result.1 run⟩

theorem solo_run {post : α → σ → Prop} {p : Prog I α} {s t : σ} {a : α}
    (h : p.Solo exec ok (fun _ _ => True) s) (run : p.run exec s = .done a t)
    (final : post a t) : p.Solo exec ok post s := by
  induction p generalizing s with
  | ret b =>
    injection run with value state
    subst value
    subst state
    exact final
  | op o k ih =>
    obtain ⟨allowed, r, u, same, rest⟩ := h
    rw [run_op_some same] at run
    exact ⟨allowed, r, u, same, ih r rest run⟩

/-- Whatever relation every operation respects holds between the start and the end. -/
theorem solo_reaches {R : σ → σ → Prop} (refl : ∀ s, R s s)
    (trans : ∀ s t u, R s t → R t u → R s u) (step : ∀ o s r t, exec o s = some (r, t) → R s t)
    {post : α → σ → Prop} {p : Prog I α} {s : σ} (h : p.Solo exec ok post s) :
    ∃ a t, post a t ∧ R s t := by
  induction p generalizing s with
  | ret a => exact ⟨a, s, h, refl s⟩
  | op o k ih =>
    obtain ⟨_, r, t, same, rest⟩ := h
    obtain ⟨a, u, final, later⟩ := ih r rest
    exact ⟨a, u, final, trans s t u (step o s r t same) later⟩

theorem solo_invariant {P : σ → Prop} {post : α → σ → Prop}
    (keep : ∀ o s r t, ok o s → P s → exec o s = some (r, t) → P t) {p : Prog I α} {s : σ}
    (start : P s) (h : p.Solo exec ok post s) :
    p.Solo exec (fun o s => ok o s ∧ P s) (fun a t => post a t ∧ P t) s := by
  induction p generalizing s with
  | ret a => exact ⟨h, start⟩
  | op o k ih =>
    obtain ⟨allowed, r, t, same, rest⟩ := h
    exact ⟨⟨allowed, start⟩, r, t, same, ih r (keep o s r t allowed start same) rest⟩

theorem solo_weaken {ok' : I.Op → σ → Prop} {post : α → σ → Prop}
    (weaker : ∀ o s, ok o s → ok' o s) {p : Prog I α} {s : σ} (h : p.Solo exec ok post s) :
    p.Solo exec ok' post s := by
  induction p generalizing s with
  | ret a => exact h
  | op o k ih =>
    obtain ⟨allowed, r, t, same, rest⟩ := h
    exact ⟨weaker o s allowed, r, t, same, ih r rest⟩

/-- A program with each of its operations carried out by a program over others. -/
def Prog.hoist {J : Interface} (f : (o : I.Op) → Prog J (I.Res o)) : Prog I α → Prog J α
  | .ret a => .ret a
  | .op o k => (f o).bind fun r => (k r).hoist f

theorem solo_hoist {J : Interface} {τ : Type} {exec' : Exec J τ} {ok' : J.Op → τ → Prop}
    {f : (o : I.Op) → Prog J (I.Res o)} {sees : σ → τ → Prop}
    (step : ∀ o s r t u, ok o s → exec o s = some (r, t) → sees s u →
      (f o).Solo exec' ok' (fun r' v => r' = r ∧ sees t v) u)
    {post : α → σ → Prop} {p : Prog I α} {s : σ} {u : τ} (h : p.Solo exec ok post s)
    (here : sees s u) : (p.hoist f).Solo exec' ok' (fun a v => ∃ t, post a t ∧ sees t v) u := by
  induction p generalizing s u with
  | ret a => exact ⟨s, h, here⟩
  | op o k ih =>
    obtain ⟨allowed, r, t, same, rest⟩ := h
    apply solo_bind
    apply solo_mono _ (step o s r t u allowed same here)
    intro r' v done
    obtain ⟨value, there⟩ := done
    subst value
    exact ih r' rest there

/-- None of the operations `bad` occurs anywhere in the program text. -/
def Prog.Avoids (bad : I.Op → Prop) : Prog I α → Prop
  | .ret _ => True
  | .op o k => ¬ bad o ∧ ∀ r, (k r).Avoids bad

/-- On every path the operations `lock` and `unlock` alternate; the flags say whether
    the lock is held at the start and at the end. -/
inductive Paired (lock unlock : I.Op) : Bool → Bool → Prog I α → Prop where
  | ret {held : Bool} (a : α) : Paired lock unlock held held (.ret a)
  | take {last : Bool} {k : I.Res lock → Prog I α} (rest : ∀ r, Paired lock unlock true last (k r)) :
      Paired lock unlock false last (.op lock k)
  | give {last : Bool} {k : I.Res unlock → Prog I α}
      (rest : ∀ r, Paired lock unlock false last (k r)) : Paired lock unlock true last (.op unlock k)
  | other {held last : Bool} {o : I.Op} {k : I.Res o → Prog I α} (noLock : o ≠ lock)
      (noUnlock : o ≠ unlock) (rest : ∀ r, Paired lock unlock held last (k r)) :
      Paired lock unlock held last (.op o k)

variable {lock unlock : I.Op} {first middle last : Bool}

theorem paired_bind {p : Prog I α} {f : α → Prog I β} (before : Paired lock unlock first middle p)
    (after : ∀ a, Paired lock unlock middle last (f a)) :
    Paired lock unlock first last (p.bind f) := by
  induction before with
  | ret a => exact after a
  | take rest ih => exact .take fun r => ih r after
  | give rest ih => exact .give fun r => ih r after
  | other noLock noUnlock rest ih => exact .other noLock noUnlock fun r => ih r after

theorem paired_op {o : I.Op} {k : I.Res o → Prog I α} [DecidableEq I.Op] (distinct : unlock ≠ lock)
    (paired : Paired lock unlock first last (.op o k)) :
    (o = lock → first = false) ∧ (o = unlock → first = true) ∧ ∀ r, Paired lock unlock
      (if o = lock then true else if o = unlock then false else first) last (k r) := by
  cases paired with
  | take rest =>
    refine ⟨fun _ => rfl, fun same => absurd same.symm distinct, ?_⟩
    simpa using rest
  | give rest =>
    refine ⟨fun same => absurd same distinct, fun _ => rfl, ?_⟩
    simpa [distinct] using rest
  | other noLock noUnlock rest =>
    refine ⟨fun same => absurd same noLock, fun same => absurd same noUnlock, ?_⟩
    simpa [noLock, noUnlock] using rest

end PiKernel.Program
