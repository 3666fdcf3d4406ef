import PiKernel.Lib.Transition

/-!
`SpinLock` on cores with event registers and exclusive monitors: `lock` is
`monitor` (`ldxr`, `wfe`), then an exchange, and after each exchange that finds
the lock taken another `wfe` and another `monitor`.
-/
namespace PiKernel.SpinLock
open Transition

/-- The two `wfe` instructions: utils.S line 34 and loop.h line 19. -/
inductive Wfe where
  | monitor
  | stuck
  deriving DecidableEq

inductive Pc where
  | outside
  | ldxr
  | wfe (site : Wfe)
  | asleep (site : Wfe)
  | exchange
  | held
  deriving DecidableEq

def afterWfe : Wfe → Pc
  | .monitor => .exchange
  | .stuck => .ldxr

variable {Core : Type} [DecidableEq Core]

structure State (Core : Type) where
  taken : Bool
  pc : Core → Pc
  event : Core → Bool
  armed : Core → Bool

def State.goto (s : State Core) (c : Core) (pc : Pc) : State Core :=
  { s with pc := Function.update s.pc c pc }

/-- A store by core `c` opens the armed monitors of the others and sets their
    event registers; its own monitor and register keep their values. -/
def State.store (s : State Core) (c : Core) (x : Bool) : State Core :=
  { s with
    taken := x
    event := fun d => s.event d || (d ≠ c && s.armed d)
    armed := fun d => d = c && s.armed d }

def State.storeExclusive (s : State Core) (c : Core) (x : Bool) : State Core :=
  { s.store c x with armed := Function.update (s.store c x).armed c false }

inductive Act where
  | call
  | ldxr
  | wfe
  | wake
  | exchange
  | unlock
  deriving DecidableEq

inductive Step : State Core → Core × Act → State Core → Prop where
  | call {s : State Core} {c : Core} (here : s.pc c = .outside) :
      Step s (c, .call) (s.goto c .ldxr)
  | ldxr {s : State Core} {c : Core} (here : s.pc c = .ldxr) :
      Step s (c, .ldxr) { s.goto c (.wfe .monitor) with armed := Function.update s.armed c true }
  | pass {s : State Core} {c : Core} {site : Wfe} (here : s.pc c = .wfe site)
      (set : s.event c = true) :
      Step s (c, .wfe) { s.goto c (afterWfe site) with event := Function.update s.event c false }
  | suspend {s : State Core} {c : Core} {site : Wfe} (here : s.pc c = .wfe site)
      (clear : s.event c = false) : Step s (c, .wfe) (s.goto c (.asleep site))
  | wake {s : State Core} {c : Core} {site : Wfe} (here : s.pc c = .asleep site)
      (set : s.event c = true) :
      Step s (c, .wake) { s.goto c (afterWfe site) with event := Function.update s.event c false }
  | win {s : State Core} {c : Core} (here : s.pc c = .exchange) (free : s.taken = false) :
      Step s (c, .exchange) ((s.storeExclusive c true).goto c .held)
  | lose {s : State Core} {c : Core} (here : s.pc c = .exchange) (taken : s.taken = true) :
      Step s (c, .exchange) ((s.storeExclusive c true).goto c (.wfe .stuck))
  | unlock {s : State Core} {c : Core} (here : s.pc c = .held) :
      Step s (c, .unlock) ((s.store c false).goto c .outside)

structure Fresh (s : State Core) : Prop where
  free : s.taken = false
  outside : ∀ c, s.pc c = .outside

def spinLock (init : State Core → Prop) : System (State Core) (Core × Act) where
  init := init
  step := Step

def State.Locking (s : State Core) (c : Core) : Prop := s.pc c ≠ .outside ∧ s.pc c ≠ .held

def State.Suspended (s : State Core) (c : Core) : Prop :=
  (∃ site, s.pc c = .asleep site) ∧ s.event c = false

structure LostWakeUp (s : State Core) : Prop where
  free : s.taken = false
  wanted : ∃ c, s.Locking c
  asleep : ∀ c, s.Locking c → s.Suspended c

/-- A `wfe` that may suspend does so only while the lock is taken and the core's
    monitor is armed, so that the holder's store will end it. -/
def Guarded (s : State Core) : Core × Act → Prop
  | (c, .wfe) => s.event c = false → s.taken = true ∧ s.armed c = true
  | _ => True

def Watched (s : State Core) : Prop :=
  ∀ c, s.Suspended c → s.taken = true ∧ s.armed c = true

omit [DecidableEq Core] in
theorem watched_awake {s : State Core} (watched : Watched s) : ¬ LostWakeUp s := by
  intro lost
  obtain ⟨c, locking⟩ := lost.wanted
  have taken := (watched c (lost.asleep c locking)).1
  rw [lost.free] at taken
  exact absurd taken (by decide)

theorem local_watched {s t : State Core} {c : Core} (watched : Watched s)
    (own : t.Suspended c → t.taken = true ∧ t.armed c = true) (lock : t.taken = s.taken)
    (others : ∀ d, d ≠ c → t.pc d = s.pc d ∧ t.event d = s.event d ∧ t.armed d = s.armed d) :
    Watched t := by
  intro d suspended
  by_cases same : d = c
  · subst same
    exact own suspended
  · obtain ⟨pc, event, armed⟩ := others d same
    obtain ⟨⟨site, here⟩, clear⟩ := suspended
    rw [lock, armed]
    exact watched d ⟨⟨site, pc ▸ here⟩, event ▸ clear⟩

theorem store_watched {s t : State Core} {c : Core} (watched : Watched s)
    (own : ∀ site, t.pc c ≠ .asleep site)
    (others : ∀ d, d ≠ c → t.pc d = s.pc d ∧ t.event d = (s.event d || s.armed d)) :
    Watched t := by
  intro d suspended
  obtain ⟨⟨site, here⟩, clear⟩ := suspended
  by_cases same : d = c
  · subst same
    exact absurd here (own site)
  · obtain ⟨pc, event⟩ := others d same
    rw [event, Bool.or_eq_false_iff] at clear
    have armed := (watched d ⟨⟨site, pc ▸ here⟩, clear.1⟩).2
    rw [clear.2] at armed
    exact absurd armed (by decide)

theorem afterWfe_awake (site other : Wfe) : afterWfe site ≠ .asleep other := by
  cases site <;> simp [afterWfe]

theorem step_watched {s t : State Core} {e : Core × Act} (watched : Watched s)
    (guarded : Guarded s e) (step : Step s e t) : Watched t := by
  cases step with
  | @call c here =>
    refine local_watched (c := c) watched ?_ rfl ?_
    · intro suspended
      obtain ⟨⟨site, asleep⟩, _⟩ := suspended
      simp [State.goto] at asleep
    · intro d other
      simp [State.goto, other]
  | @ldxr c here =>
    refine local_watched (c := c) watched ?_ rfl ?_
    · intro suspended
      obtain ⟨⟨site, asleep⟩, _⟩ := suspended
      simp [State.goto] at asleep
    · intro d other
      simp [State.goto, other]
  | @pass c site here set =>
    refine local_watched (c := c) watched ?_ rfl ?_
    · intro suspended
      obtain ⟨⟨other, asleep⟩, _⟩ := suspended
      simp [State.goto, afterWfe_awake] at asleep
    · intro d other
      simp [State.goto, other]
  | @suspend c site here clear =>
    refine local_watched (c := c) watched ?_ rfl ?_
    · intro _
      exact guarded clear
    · intro d other
      simp [State.goto, other]
  | @wake c site here set =>
    refine local_watched (c := c) watched ?_ rfl ?_
    · intro suspended
      obtain ⟨⟨other, asleep⟩, _⟩ := suspended
      simp [State.goto, afterWfe_awake] at asleep
    · intro d other
      simp [State.goto, other]
  | @win c here free =>
    apply store_watched (c := c) watched
    · intro site
      simp [State.goto]
    · intro d other
      simp [State.goto, State.storeExclusive, State.store, other]
  | @lose c here taken =>
    apply store_watched (c := c) watched
    · intro site
      simp [State.goto]
    · intro d other
      simp [State.goto, State.storeExclusive, State.store, other]
  | @unlock c here =>
    apply store_watched (c := c) watched
    · intro site
      simp [State.goto]
    · intro d other
      simp [State.goto, State.store, other]

theorem guarded_run_awake {past : List (State Core × (Core × Act))} {s : State Core}
    (run : Run (spinLock Fresh) past s) (guarded : ∀ x ∈ past, Guarded x.1 x.2) :
    ∀ t ∈ visited past s, ¬ LostWakeUp t := by
  have first : ∀ s : State Core, Fresh s → Watched s := by
    intro s fresh c suspended
    obtain ⟨⟨site, asleep⟩, _⟩ := suspended
    rw [fresh.outside c] at asleep
    exact absurd asleep (by simp)
  intro t member
  have watched := run_visited first (fun _ _ _ => step_watched) run guarded t member
  exact watched_awake watched

/-- Core 0 finds its event register set and takes the lock; core 1 suspends in
    `monitor`, is woken by the unlock and takes the lock in turn. -/
def first : State (Fin 2) := ⟨false, fun _ => .outside, fun c => c = 0, fun _ => false⟩

theorem handover_awake : ∃ past s, Run (spinLock Fresh) past s ∧ past.length = 10 ∧
    s.pc (1 : Fin 2) = .held ∧ ∀ t ∈ visited past s, ¬ LostWakeUp t := by
  have run₀ : Run (spinLock Fresh) [] first := .start ⟨rfl, fun _ => rfl⟩
  have run₁ := run₀.next (.call (c := 0) rfl)
  have run₂ := run₁.next (.ldxr (c := 0) rfl)
  have run₃ := run₂.next (.pass (c := 0) rfl rfl)
  have run₄ := run₃.next (.win (c := 0) rfl rfl)
  have run₅ := run₄.next (.call (c := 1) rfl)
  have run₆ := run₅.next (.ldxr (c := 1) rfl)
  have run₇ := run₆.next (.suspend (c := 1) rfl rfl)
  have run₈ := run₇.next (.unlock (c := 0) rfl)
  have run₉ := run₈.next (.wake (c := 1) rfl rfl)
  have run := run₉.next (.win (c := 1) rfl rfl)
  refine ⟨_, _, run, rfl, rfl, guarded_run_awake run ?_⟩
  intro x mx
  simp only [List.mem_cons, List.not_mem_nil, or_false] at mx
  rcases mx with rfl | rfl | rfl | rfl | rfl | rfl | rfl | rfl | rfl | rfl
  · trivial
  · trivial
  · trivial
  · exact fun _ => ⟨rfl, rfl⟩
  · trivial
  · trivial
  · trivial
  · exact fun clear => absurd clear (by decide)
  · trivial
  · trivial

section Hang
variable {init : State Core → Prop} {s : State Core} {c : Core}

theorem clear_core_hangs (reach : Reachable (spinLock init) s) (fresh : Fresh s)
    (clear : s.event c = false) : ∃ t, Reachable (spinLock init) t ∧ LostWakeUp t := by
  have called := reachable_step reach (Step.call (fresh.outside c))
  have atLdxr : (s.goto c .ldxr).pc c = .ldxr := by simp [State.goto]
  have loaded := reachable_step called (Step.ldxr atLdxr)
  generalize form : { (s.goto c .ldxr).goto c (.wfe .monitor) with
    armed := Function.update (s.goto c .ldxr).armed c true } = t at loaded
  have atWfe : t.pc c = .wfe .monitor := by simp [← form, State.goto]
  have still : t.event c = false := by rw [← form]; exact clear
  refine ⟨_, reachable_step loaded (Step.suspend atWfe still), ?_, ⟨c, ?_⟩, ?_⟩
  · rw [← form]
    exact fresh.free
  · constructor <;> simp [State.goto]
  · intro d locking
    by_cases same : d = c
    · subst same
      exact ⟨⟨.monitor, by simp [State.goto]⟩, still⟩
    · have outside := locking.1
      simp [← form, State.goto, same, fresh.outside d] at outside

/-- Whatever the registers hold at the start, a core that takes the lock once has its
    event register clear and hangs when it calls `lock` again. -/
theorem lock_hangs (reach : Reachable (spinLock init) s) (fresh : Fresh s) (c : Core) :
    ∃ t, Reachable (spinLock init) t ∧ LostWakeUp t := by
  cases register : s.event c with
  | false => exact clear_core_hangs reach fresh register
  | true =>
    have called := reachable_step reach (Step.call (fresh.outside c))
    have atLdxr : (s.goto c .ldxr).pc c = .ldxr := by simp [State.goto]
    have loaded := reachable_step called (Step.ldxr atLdxr)
    generalize form₁ : { (s.goto c .ldxr).goto c (.wfe .monitor) with
      armed := Function.update (s.goto c .ldxr).armed c true } = s₁ at loaded
    have atWfe : s₁.pc c = .wfe .monitor := by simp [← form₁, State.goto]
    have set : s₁.event c = true := by rw [← form₁]; exact register
    have passed := reachable_step loaded (Step.pass atWfe set)
    generalize form₂ : { s₁.goto c (afterWfe .monitor) with
      event := Function.update s₁.event c false } = s₂ at passed
    have atExchange : s₂.pc c = .exchange := by simp [← form₂, State.goto, afterWfe]
    have free : s₂.taken = false := by rw [← form₂, ← form₁]; exact fresh.free
    have won := reachable_step passed (Step.win atExchange free)
    generalize form₃ : (s₂.storeExclusive c true).goto c .held = s₃ at won
    have atHeld : s₃.pc c = .held := by simp [← form₃, State.goto]
    have released := reachable_step won (Step.unlock atHeld)
    refine clear_core_hangs (c := c) released ⟨rfl, ?_⟩ ?_
    · intro d
      by_cases same : d = c
      · simp [same, State.goto]
      · simp [State.goto, State.store, State.storeExclusive, same, ← form₃, ← form₂, ← form₁,
          fresh.outside d]
    · simp [State.goto, State.store, State.storeExclusive, ← form₃, ← form₂]

end Hang

def lone : State (Fin 1) := ⟨false, fun _ => .outside, fun _ => false, fun _ => false⟩

theorem lone_lock_hangs : ∃ s, Reachable (spinLock (Fresh : State (Fin 1) → Prop)) s ∧
    LostWakeUp s := by
  have fresh : Fresh lone := ⟨rfl, fun _ => rfl⟩
  exact clear_core_hangs (c := 0) (reachable_init fresh) fresh rfl

end PiKernel.SpinLock
