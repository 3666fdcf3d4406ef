import PiKernel.Lib.Interleaving

/-!
Operations that only the holder of a lock performs. The discipline is a property
of each program text alone; that it keeps the other cores out holds for any
number of threads with disciplined texts.
-/
namespace PiKernel.Interleaving
open Program Transition

variable {I : Interface} {α β : Type}

/-- On every path `guarded` operations come between `lock` and `unlock`; the flags say
    whether the lock is held at the start and at the end. A second `lock` by the holder
    never succeeds, so nothing is asked of what follows it. -/
inductive Guarded (lock unlock : I.Op) (guarded : I.Op → Prop) : Bool → Bool → Prog I α → Prop where
  | ret {held : Bool} (a : α) : Guarded lock unlock guarded held held (.ret a)
  | take {last : Bool} {k : I.Res lock → Prog I α}
      (rest : ∀ r, Guarded lock unlock guarded true last (k r)) :
      Guarded lock unlock guarded false last (.op lock k)
  | again {last : Bool} {k : I.Res lock → Prog I α} :
      Guarded lock unlock guarded true last (.op lock k)
  | give {last : Bool} {k : I.Res unlock → Prog I α}
      (rest : ∀ r, Guarded lock unlock guarded false last (k r)) :
      Guarded lock unlock guarded true last (.op unlock k)
  | other {held last : Bool} {o : I.Op} {k : I.Res o → Prog I α} (noLock : o ≠ lock)
      (noUnlock : o ≠ unlock) (covered : guarded o → held = true)
      (rest : ∀ r, Guarded lock unlock guarded held last (k r)) :
      Guarded lock unlock guarded held last (.op o k)

variable {lock unlock : I.Op} {guarded : I.Op → Prop} {first middle last : Bool}

theorem guarded_bind {p : Prog I α} {f : α → Prog I β}
    (before : Guarded lock unlock guarded first middle p)
    (after : ∀ a, Guarded lock unlock guarded middle last (f a)) :
    Guarded lock unlock guarded first last (p.bind f) := by
  induction before with
  | ret a => exact after a
  | take rest ih => exact .take fun r => ih r after
  | again => exact .again
  | give rest ih => exact .give fun r => ih r after
  | other noLock noUnlock covered rest ih =>
    exact .other noLock noUnlock covered fun r => ih r after

structure Owned {Core σ : Type} (exec : Core → Exec I σ) (lock unlock : I.Op)
    (owner : σ → Option Core) : Prop where
  distinct : unlock ≠ lock
  take : ∀ c s r t, exec c lock s = some (r, t) → owner s = none ∧ owner t = some c
  give : ∀ c s r t, exec c unlock s = some (r, t) → owner t = none
  keep : ∀ c o s r t, o ≠ lock → o ≠ unlock → exec c o s = some (r, t) → owner t = owner s

variable {Core σ : Type} [DecidableEq Core] {exec : Core → Exec I σ} {waits : I.Op → Prop}
  {owner : σ → Option Core} {S T : Threads Core I σ} {c : Core}

def Disciplined (lock unlock : I.Op) (guarded : I.Op → Prop) (owner : σ → Option Core)
    (S : Threads Core I σ) : Prop :=
  ∀ c, ∃ held last, Guarded lock unlock guarded held last (S.code c) ∧
    (held = true ↔ owner S.mem = some c)

omit [DecidableEq Core] in
theorem guarded_owner {o : I.Op} {k : I.Res o → Prog I Unit}
    (disciplined : Disciplined lock unlock guarded owner S) (here : S.code c = .op o k)
    (noLock : o ≠ lock) (isGuarded : guarded o) : owner S.mem = some c := by
  obtain ⟨held, last, text, holds⟩ := disciplined c
  rw [here] at text
  cases text with
  | take rest => exact absurd rfl noLock
  | again => exact absurd rfl noLock
  | give rest => exact holds.mp rfl
  | other _ _ covered rest => exact holds.mp (covered isGuarded)

theorem disciplined_step (owned : Owned exec lock unlock owner)
    (disciplined : Disciplined lock unlock guarded owner S) (step : ThreadStep exec waits S c T) :
    Disciplined lock unlock guarded owner T := by
  rcases step_cases step with ⟨o, k, r, t, here, result, _, rfl⟩ | ⟨phase, rfl⟩
  · -- what the others hold changes only when the lock goes to or comes from `c`
    have others : (∀ d, d ≠ c → (owner t = some d ↔ owner S.mem = some d)) →
        (∃ held last, Guarded lock unlock guarded held last (k r) ∧
          (held = true ↔ owner t = some c)) →
        Disciplined lock unlock guarded owner (S.goOn c t (k r)) := by
      intro same own d
      by_cases mine : d = c
      · subst mine
        simpa [Threads.goOn] using own
      · obtain ⟨held, last, text, holds⟩ := disciplined d
        refine ⟨held, last, by simpa [Threads.goOn, mine] using text, ?_⟩
        rw [holds]
        exact (same d mine).symm
    obtain ⟨held, last, text, holds⟩ := disciplined c
    rw [here] at text
    cases text with
    | take rest =>
      obtain ⟨free, mine⟩ := owned.take c S.mem r t result
      apply others
      · intro d other
        simp [free, mine, Ne.symm other]
      · exact ⟨true, last, rest r, by simp [mine]⟩
    | again =>
      have free := (owned.take c S.mem r t result).1
      rw [holds.mp rfl] at free
      exact absurd free (by simp)
    | give rest =>
      have free := owned.give c S.mem r t result
      have mine := holds.mp rfl
      apply others
      · intro d other
        simp [free, mine, Ne.symm other]
      · exact ⟨false, last, rest r, by simp [free]⟩
    | other noLock noUnlock covered rest =>
      have same := owned.keep c o S.mem r t noLock noUnlock result
      apply others
      · intro d _
        rw [same]
      · exact ⟨held, last, rest r, by rw [same]; exact holds⟩
  · exact disciplined

def Stuck (lock : I.Op) (owner : σ → Option Core) (S : Threads Core I σ) (c : Core) : Prop :=
  (∃ k, S.code c = .op lock k) ∧ owner S.mem = some c

theorem stuck_step {d : Core} (owned : Owned exec lock unlock owner)
    (disciplined : Disciplined lock unlock guarded owner S) (unlockGuarded : guarded unlock)
    (stuck : Stuck lock owner S c) (step : ThreadStep exec waits S d T) :
    Stuck lock owner T c ∧ (T.mem = S.mem ∨ ∃ o r, exec d o S.mem = some (r, T.mem) ∧
      ¬ guarded o ∧ o ≠ lock) := by
  obtain ⟨⟨k', here'⟩, mine⟩ := stuck
  rcases step_cases step with ⟨o, k, r, t, here, result, _, rfl⟩ | ⟨phase, rfl⟩
  · have noLock : o ≠ lock := by
      rintro rfl
      have free := (owned.take d S.mem r t result).1
      rw [mine] at free
      exact absurd free (by simp)
    have other : d ≠ c := by
      rintro rfl
      rw [here'] at here
      exact noLock (Prog.op.inj here).1.symm
    have notGuarded : ¬ guarded o := by
      intro isGuarded
      have owns := guarded_owner disciplined here noLock isGuarded
      rw [mine] at owns
      exact other (Option.some.inj owns).symm
    have noUnlock : o ≠ unlock := by
      rintro rfl
      exact notGuarded unlockGuarded
    refine ⟨⟨⟨k', ?_⟩, ?_⟩, Or.inr ⟨o, r, result, notGuarded, noLock⟩⟩
    · simp [Threads.goOn, Ne.symm other, here']
    · rw [goOn_mem, owned.keep d o S.mem r t noLock noUnlock result]
      exact mine
  · exact ⟨⟨⟨k', here'⟩, mine⟩, Or.inl rfl⟩

end PiKernel.Interleaving
