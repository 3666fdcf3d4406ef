import PiKernel.Lib.Interleaving
import PiKernel.Heap.Runs

/-!
`malloc` and `free` on several cores, one load, store or lock operation a step.
The part of a call between the gate and the return is the one that may touch
the heap; the gate is all there is to keep cores apart. By `whole_eq` a call is
`malloc` or `free` as the one-core model has them, cut at the gate.
-/
namespace PiKernel.HeapModel
open Program Transition Interleaving

inductive Call where
  | malloc (bytes : Nat)
  | free (p : Int)

/-- Up to the gate's closing brace; `true` when the call goes on to the heap. -/
def Call.gate : Call → HeapM Bool
  | .malloc bytes => do
    if bytes = 0 then return false
    else
      lockGate
      return true
  | .free p => do
    if p = 0 then return false
    else if p = (← loadBase) then return false
    else
      lockGate
      return true

/-- Lines 157 to 196 of `malloc`, 209 to 232 of `free`. -/
def Call.body : Call → HeapM Int
  | .malloc bytes => mallocBody (mallocUnits bytes)
  | .free p => do
    freeBody p
    return 0

def Call.whole : Call → HeapM Int
  | .malloc bytes => HeapModel.malloc bytes
  | .free p => do
    HeapModel.free p
    return 0

/-- Nothing of the functions is left out by the cut, or done twice. -/
theorem whole_eq (call : Call) :
    call.whole = call.gate.bind fun go => if go then call.body else .ret 0 := by
  cases call with
  | malloc bytes =>
    by_cases zero : bytes = 0
    · simp [Call.whole, Call.gate, HeapModel.malloc, zero, Prog.bind]
    · simp [Call.whole, Call.gate, Call.body, HeapModel.malloc, zero, Prog.bind,
        Program.bind_assoc]
  | free p =>
    by_cases null : p = 0
    · simp [Call.whole, Call.gate, HeapModel.free, null, Prog.bind]
    · simp only [Call.whole, Call.gate, HeapModel.free, null, ↓reduceIte, bind_eq,
        Program.bind_assoc]
      refine congrArg (Prog.bind loadBase) ?_
      funext base
      by_cases start : p = base
      · simp [start, Prog.bind]
      · simp [start, Call.body, Prog.bind, Program.bind_assoc]

def Call.Trivial (base : Nat) : Call → Prop
  | .malloc bytes => bytes = 0
  | .free p => p = 0 ∨ p = base

inductive Stage where
  | idle
  | gate (call : Call) (code : HeapM Bool)
  | inside (call : Call) (code : HeapM Int)

variable {Core : Type}

/-- `holder` is the core that last took the lock and has not released it; `seen`
    holds the blocks other cores' `malloc` returned during a core's call, less
    those freed since; `shared` is set when a `malloc` returns one of these. -/
structure Cores (Core : Type) where
  heap : Heap
  stage : Core → Stage
  holder : Option Core
  seen : Core → List Int
  shared : Bool

def holderAfter (c : Core) (holder : Option Core) : HeapOp → Option Core
  | .lock _ => some c
  | .unlock _ => none
  | _ => holder

def Cores.Inside (s : Cores Core) (c : Core) : Prop := ∃ call code, s.stage c = .inside call code

structure Excluded (s : Cores Core) : Prop where
  alone : ∀ c d, s.Inside c → s.Inside d → c = d
  holds : ∀ c, s.Inside c → s.holder = some c
  unshared : s.shared = false

structure Quiet (h : Heap) (s : Cores Core) : Prop where
  heap : s.heap = h
  unshared : s.shared = false
  stages : ∀ c, s.stage c = .idle ∨ ∃ call, s.stage c = .gate call (.ret false) ∨
    (call.Trivial h.base ∧ s.stage c = .gate call call.gate)

theorem trivial_gate {base : Nat} {call : Call} (trivial : call.Trivial base) :
    call.gate = .ret false ∨ ∃ k : Int → HeapM Bool,
      call.gate = @Prog.op HeapI Bool .loadBase k ∧ k base = .ret false := by
  cases call with
  | malloc bytes =>
    have zero : bytes = 0 := trivial
    exact Or.inl (by simp [Call.gate, zero])
  | free p =>
    by_cases null : p = 0
    · exact Or.inl (by simp [Call.gate, null])
    · have start : p = base := trivial.resolve_left null
      refine Or.inr ⟨_, by simp only [Call.gate, null, ↓reduceIte]; rfl, ?_⟩
      simp [start, Prog.bind]

theorem quiet_gate {h : Heap} {s : Cores Core} (quiet : Quiet h s) {c : Core} {call : Call}
    {code : HeapM Bool} (here : s.stage c = .gate call code) :
    code = .ret false ∨ call.Trivial h.base ∧ code = call.gate := by
  rcases quiet.stages c with idle | ⟨other, past | ⟨simple, first⟩⟩
  · rw [idle] at here
    exact absurd here (by simp)
  · rw [past] at here
    injection here with _ same
    exact Or.inl same.symm
  · rw [first] at here
    injection here with called same
    subst called
    exact Or.inr ⟨simple, same.symm⟩

theorem quiet_not_inside {h : Heap} {s : Cores Core} (quiet : Quiet h s) (c : Core) :
    ¬ s.Inside c := by
  intro inside
  obtain ⟨call, code, stage⟩ := inside
  rcases quiet.stages c with here | ⟨other, here | ⟨_, here⟩⟩ <;>
    · rw [here] at stage
      exact absurd stage (by simp)

theorem quiet_excluded {h : Heap} {s : Cores Core} (quiet : Quiet h s) : Excluded s :=
  ⟨fun c _ inside _ => absurd inside (quiet_not_inside quiet c),
    fun c inside => absurd inside (quiet_not_inside quiet c), quiet.unshared⟩

variable [DecidableEq Core]

def Cores.start (s : Cores Core) (c : Core) (call : Call) : Cores Core :=
  { s with
    stage := Function.update s.stage c (.gate call call.gate)
    seen := Function.update (match call with
      | .malloc _ => s.seen
      | .free p => fun d => (s.seen d).filter (· ≠ p)) c [] }

def Cores.perform (s : Cores Core) (c : Core) (o : HeapOp) (heap : Heap) (stage : Stage) :
    Cores Core :=
  { s with
    heap := heap
    stage := Function.update s.stage c stage
    holder := holderAfter c s.holder o }

def Cores.move (s : Cores Core) (c : Core) (stage : Stage) : Cores Core :=
  { s with stage := Function.update s.stage c stage }

def Cores.leave (s : Cores Core) (c : Core) (call : Call) (p : Int) : Cores Core :=
  { s with
    stage := Function.update s.stage c .idle
    seen := match call with
      | .malloc _ => fun d => if d = c then s.seen d else p :: s.seen d
      | .free _ => s.seen
    shared := match call with
      | .malloc _ => s.shared || (p ≠ 0 && p ∈ s.seen c)
      | .free _ => s.shared }

/-- `may c call`: core `c` may make that call whenever it is idle. -/
inductive CoreStep (may : Core → Call → Prop) : Cores Core → Core → Cores Core → Prop where
  | start {s : Cores Core} {c : Core} {call : Call} (idle : s.stage c = .idle)
      (allowed : may c call) : CoreStep may s c (s.start c call)
  | gate {s : Cores Core} {c : Core} {call : Call} {o : HeapOp} {k : o.Res → HeapM Bool}
      {r : o.Res} {h : Heap} (here : s.stage c = .gate call (.op o k))
      (result : heapExec o s.heap = some (r, h)) :
      CoreStep may s c (s.perform c o h (.gate call (k r)))
  | skip {s : Cores Core} {c : Core} {call : Call} (here : s.stage c = .gate call (.ret false)) :
      CoreStep may s c (s.move c .idle)
  | enter {s : Cores Core} {c : Core} {call : Call} (here : s.stage c = .gate call (.ret true)) :
      CoreStep may s c (s.move c (.inside call call.body))
  | body {s : Cores Core} {c : Core} {call : Call} {o : HeapOp} {k : o.Res → HeapM Int}
      {r : o.Res} {h : Heap} (here : s.stage c = .inside call (.op o k))
      (result : heapExec o s.heap = some (r, h)) :
      CoreStep may s c (s.perform c o h (.inside call (k r)))
  | leave {s : Cores Core} {c : Core} {call : Call} {p : Int}
      (here : s.stage c = .inside call (.ret p)) : CoreStep may s c (s.leave c call p)

/-- The copies of `coresAwoken` in the two source files that use it. -/
structure Copies where
  kernel : Bool
  heap : Bool

def Copies.setInKernel (c : Copies) : Copies := { c with kernel := true }

def Heap.woken (h : Heap) : Heap :=
  { h with coresAwoken := (Copies.mk false h.coresAwoken).setInKernel.heap }

def Cores.first (h : Heap) : Cores Core :=
  { heap := h, stage := fun _ => .idle, holder := none, seen := fun _ => [], shared := false }

def heapCores (base bytes : Nat) (may : Core → Call → Prop) : System (Cores Core) Core where
  init s := ∃ h h', Untouched h ∧ (heapInit base bytes).run heapExec h = .done () h' ∧
    s = Cores.first h'.woken
  step := CoreStep may

def pick (units : Int) : HeapM (Int × Int) :=
  loadAvail.bind fun avail => search units 20 avail 0x7FFFFFFF 0

def claim (units : Int) (best : Int × Int) : HeapM Int := do
  if best.2 ≠ 0 then
    remove best.2
    let extra := best.1 - units
    if extra ≥ 4 then
      makeTaken best.2 units
      makeAvail (best.2 + units) extra
    else
      makeTaken best.2 best.1
    return (← loadBase) + 8 * (best.2 + 1)
  else
    return 0

theorem mallocBody_eq (units : Int) : mallocBody units = (pick units).bind (claim units) := by
  simp only [mallocBody, pick, bind_eq, Program.bind_assoc]
  rfl

theorem pick_run {h : Heap} {L : Layout} (r : Represents h L) (units : Int) :
    ∃ best, (pick units).run heapExec h = .done best h := by
  have list := represents_freeList r
  have free : ∀ i ∈ L.order, h.array i > 0 := by
    intro i m
    obtain ⟨b, mb, free, rfl⟩ := listed_block m
    exact free_header_pos r mb free
  have found := @search_run h units attempts L.order 0 h.avail (0x7FFFFFFF, 0) list.linked free
    list.range
  refine ⟨BestFit.scan h.size units (L.order.take attempts) (0x7FFFFFFF, 0), ?_⟩
  simp only [pick, run_bind, run_loadAvail, andThen_done]
  exact found

theorem claim_run (units : Int) {best : Int × Int} (some : best.2 ≠ 0) (h : Heap) :
    ∃ h', (claim units best).run heapExec h = .done (h.base + 8 * (best.2 + 1)) h' ∧
      h'.base = h.base ∧ h'.coresAwoken = h.coresAwoken := by
  obtain ⟨base, _, _, asleep⟩ := remove_fields h best.2
  by_cases large : best.1 - units ≥ 4
  · obtain ⟨base', _, _, asleep', _⟩ := makeAvail_fields
      ((h.remove best.2).makeTaken best.2 units) (best.2 + units) (best.1 - units)
    have same := base'.trans base
    exact ⟨_, by simp [claim, run_bind, some, large, same], same, asleep'.trans asleep⟩
  · have same : ((h.remove best.2).makeTaken best.2 best.1).base = h.base := base
    exact ⟨_, by simp [claim, run_bind, some, large, same], same, asleep⟩

theorem search_heap (units : Int) (n : Nat) (i minSize bestFit : Int) {h h' : Heap}
    {best : Int × Int}
    (run : (search units n i minSize bestFit).run heapExec h = .done best h') : h' = h := by
  induction n generalizing i minSize bestFit with
  | zero =>
    injection run with _ same
    exact same.symm
  | succ n ih =>
    by_cases last : i = 0
    · simp only [search, last, ↓reduceIte, pure_eq, run_ret] at run
      injection run with _ same
      exact same.symm
    · by_cases avail : h.array i > 0
      · simp only [search, last, ↓reduceIte, bind_eq, run_bind, run_isAvail, andThen_done, avail,
          decide_true, Bool.not_true, Bool.false_eq_true, run_size] at run
        by_cases tired : n = 0
        · simp only [tired, ↓reduceIte, pure_eq, run_ret] at run
          injection run with _ same
          exact same.symm
        · simp only [tired, ↓reduceIte, run_bind, run_next, andThen_done] at run
          exact ih _ _ _ run
      · simp [search, last, run_bind, avail] at run

theorem mallocBody_keeps {units p : Int} {h h' : Heap}
    (run : (mallocBody units).run heapExec h = .done p h') :
    h'.base = h.base ∧ h'.coresAwoken = h.coresAwoken := by
  rw [mallocBody_eq, run_bind] at run
  cases found : (pick units).run heapExec h with
  | stuck o g =>
    rw [found] at run
    exact absurd run (by simp)
  | done best g =>
    rw [found, andThen_done] at run
    have same : g = h := by
      simp only [pick, run_bind, run_loadAvail, andThen_done] at found
      exact search_heap _ _ _ _ _ found
    subst same
    by_cases none : best.2 = 0
    · have kept : (claim units best).run heapExec g = .done 0 g := by simp [claim, none]
      rw [kept] at run
      injection run with _ same
      exact ⟨congrArg Heap.base same.symm, congrArg Heap.coresAwoken same.symm⟩
    · obtain ⟨k, result, base, asleep⟩ := claim_run units none g
      rw [result] at run
      injection run with _ same
      exact same ▸ ⟨base, asleep⟩

theorem heapInit_keeps {base bytes : Nat} {h h' : Heap} (fresh : Untouched h)
    (run : (heapInit base bytes).run heapExec h = .done () h') :
    h'.base = base ∧ h'.coresAwoken = false := by
  obtain ⟨baseEq, _, awoken, _⟩ := laidOut_fields (h := h) base (bytes / 8 : Nat)
  have asleep := awoken.trans fresh.coresAwoken
  rw [heapInit_run] at run
  simp only [newSpinLock, operatorNew, bind_eq, Program.bind_assoc, run_bind,
    run_malloc Nat.one_pos asleep] at run
  cases body : (mallocBody (mallocUnits 1)).run heapExec (h.laidOut base (bytes / 8 : Nat)) with
  | stuck o g =>
    rw [body] at run
    exact absurd run (by simp)
  | done p g =>
    obtain ⟨baseG, asleepG⟩ := mallocBody_keeps body
    rw [body, andThen_done] at run
    by_cases null : p = 0
    · simp [null] at run
    · simp only [null, ↓reduceIte, pure_eq, run_ret, andThen_done, run_storeBytes] at run
      injection run with _ same
      exact same ▸ ⟨baseG.trans baseEq, asleepG.trans asleep⟩

def Boots (base bytes : Nat) : Prop :=
  ∃ h h', Untouched h ∧ (heapInit base bytes).run heapExec h = .done () h'

theorem boots_of_size (base : Nat) {bytes : Nat} (enough : 64 ≤ bytes) (small : bytes < 2 ^ 34) :
    Boots base bytes := by
  obtain ⟨h', L, run, _⟩ := heapInit_represents (h := blank) ⟨rfl, rfl⟩ base enough small
  exact ⟨blank, h', ⟨rfl, rfl⟩, run⟩

theorem quiet_step {h : Heap} {may : Core → Call → Prop}
    (trivial : ∀ c call, may c call → call.Trivial h.base) {s t : Cores Core} {c : Core}
    (quiet : Quiet h s) (step : CoreStep may s c t) : Quiet h t := by
  have others : ∀ (stage : Stage) (d : Core),
      (stage = .idle ∨ ∃ call, stage = .gate call (.ret false) ∨
        (call.Trivial h.base ∧ stage = .gate call call.gate)) →
      (Function.update s.stage c stage d = .idle ∨ ∃ call,
        Function.update s.stage c stage d = .gate call (.ret false) ∨
        (call.Trivial h.base ∧ Function.update s.stage c stage d = .gate call call.gate)) := by
    intro stage d here
    by_cases same : d = c
    · subst same
      simpa using here
    · simpa [same] using quiet.stages d
  cases step with
  | @start call idle allowed =>
    exact ⟨quiet.heap, quiet.unshared, fun d =>
      others _ d (Or.inr ⟨call, Or.inr ⟨trivial c call allowed, rfl⟩⟩)⟩
  | @gate call o k r h' here result =>
    rcases quiet_gate quiet here with past | ⟨simple, first⟩
    · exact absurd past (by simp)
    · rcases trivial_gate simple with early | ⟨m, load, value⟩
      · rw [early] at first
        exact absurd first (by simp)
      · rw [load] at first
        obtain ⟨rfl, same⟩ := Prog.op.inj first
        obtain rfl := eq_of_heq same
        have out : some ((s.heap.base : Int), s.heap) = some (r, h') := result
        obtain ⟨rfl, rfl⟩ : (s.heap.base : Int) = r ∧ s.heap = h' := by simpa using out
        refine ⟨quiet.heap, quiet.unshared, fun d => others _ d ?_⟩
        rw [quiet.heap, value]
        exact Or.inr ⟨call, Or.inl rfl⟩
  | skip here => exact ⟨quiet.heap, quiet.unshared, fun d => others _ d (Or.inl rfl)⟩
  | @enter call here =>
    rcases quiet_gate quiet here with past | ⟨simple, first⟩
    · exact absurd past (by simp)
    · rcases trivial_gate simple with early | ⟨m, load, _⟩
      · rw [early] at first
        exact absurd first (by simp)
      · rw [load] at first
        exact absurd first (by simp)
  | @body call o k r h' here _ => exact absurd ⟨call, _, here⟩ (quiet_not_inside quiet c)
  | @leave call p here => exact absurd ⟨call, _, here⟩ (quiet_not_inside quiet c)

def NotLock : HeapOp → Prop
  | .lock _ | .unlock _ => False
  | _ => True

omit [DecidableEq Core] in
theorem holderAfter_eq {o : HeapOp} (plain : NotLock o) (c : Core) (holder : Option Core) :
    holderAfter c holder o = holder := by
  cases o <;> first | rfl | exact absurd plain id

theorem lockGate_solo {h : Heap} (asleep : h.coresAwoken = false) :
    lockGate.Solo heapExec (fun o _ => NotLock o) (fun _ t => t = h) h := by
  refine ⟨trivial, h.coresAwoken, h, rfl, ?_⟩
  simp [asleep, Prog.Solo, Prog.bind]

theorem gate_solo {h : Heap} {call : Call} (asleep : h.coresAwoken = false)
    (serious : ¬ call.Trivial h.base) :
    call.gate.Solo heapExec (fun o _ => NotLock o) (fun go t => go = true ∧ t = h) h := by
  have opens : (lockGate.bind fun _ => (.ret true : HeapM Bool)).Solo heapExec
      (fun o _ => NotLock o) (fun go t => go = true ∧ t = h) h :=
    solo_bind (solo_mono (fun _ _ same => ⟨rfl, same⟩) (lockGate_solo asleep))
  cases call with
  | malloc bytes =>
    have some : bytes ≠ 0 := serious
    simpa [Call.gate, some] using opens
  | free p =>
    have some : p ≠ 0 := fun null => serious (Or.inl null)
    have inside : p ≠ h.base := fun start => serious (Or.inr start)
    simp only [Call.gate, some, ↓reduceIte, bind_eq]
    refine ⟨trivial, (h.base : Int), h, rfl, ?_⟩
    simpa [inside, Prog.bind] using opens

section Reach
variable {base bytes : Nat} {may : Core → Call → Prop} {s : Cores Core} {c : Core} {call : Call}

theorem reach_inside (reach : Reachable (heapCores base bytes may) s)
    (idle : s.stage c = .idle) (allowed : may c call) (asleep : s.heap.coresAwoken = false)
    (serious : ¬ call.Trivial s.heap.base) :
    Reachable (heapCores base bytes may) ((s.start c call).move c (.inside call call.body)) := by
  have started := reachable_step reach (CoreStep.start idle allowed)
  let at_ : HeapM Bool → Heap → Cores Core := fun code h =>
    { s.start c call with heap := h, stage := Function.update s.stage c (.gate call code) }
  have step : ∀ (o : HeapOp) (k : o.Res → HeapM Bool) h r h' S, NotLock o →
      heapExec o h = some (r, h') → Reachable (heapCores base bytes may) S →
      S = at_ (.op o k) h →
      ∃ S', Reachable (heapCores base bytes may) S' ∧ S' = at_ (k r) h' := by
    intro o k h r h' S plain result before here
    have stage : S.stage c = .gate call (.op o k) := by simp [here, at_]
    have heap : S.heap = h := by rw [here]
    refine ⟨_, reachable_step before (CoreStep.gate stage (heap ▸ result)), ?_⟩
    simp only [at_, here, Cores.perform, holderAfter_eq plain, Function.update_idem]
  have here : s.start c call = at_ (call.gate.bind .ret) s.heap := by
    simp only [at_, bind_ret]
    rfl
  obtain ⟨go, h, S, ⟨opened, same⟩, reach', there⟩ :=
    reachable_solo (fun code h S => S = at_ code h) step (gate_solo asleep serious) started here
  subst opened same
  have stage : S.stage c = .gate call (.ret true) := by simp [there, at_]
  have entered := reachable_step reach' (CoreStep.enter stage)
  rw [there] at entered
  simpa [Cores.move, Cores.start, at_] using entered

theorem reach_first (boots : Boots base bytes) : ∃ h, h.base = base ∧ h.coresAwoken = false ∧
    Reachable (heapCores base bytes may) (Cores.first h) := by
  obtain ⟨h, h', fresh, run⟩ := boots
  obtain ⟨baseEq, asleep⟩ := heapInit_keeps fresh run
  exact ⟨h'.woken, baseEq, asleep, reachable_init ⟨h, h', fresh, run, rfl⟩⟩

theorem reach_quiet (trivial : ∀ c call, may c call → call.Trivial base)
    (reach : Reachable (heapCores base bytes may) s) : ∃ h, h.base = base ∧ Quiet h s := by
  have first : ∀ s, (heapCores base bytes may).init s → ∃ h, h.base = base ∧ Quiet h s := by
    intro s init
    obtain ⟨h, h', fresh, run, rfl⟩ := init
    exact ⟨h'.woken, (heapInit_keeps fresh run).1, rfl, rfl, fun c => Or.inl rfl⟩
  have keep : ∀ s c t, (∃ h, h.base = base ∧ Quiet h s) → CoreStep may s c t →
      ∃ h, h.base = base ∧ Quiet h t := by
    intro s c t before step
    obtain ⟨h, baseEq, quiet⟩ := before
    exact ⟨h, baseEq, quiet_step (baseEq ▸ trivial) quiet step⟩
  exact reachable_invariant first keep reach

/-- After `kernel_init` the heap is exclusive exactly when nobody uses it. -/
theorem heap_cores_excluded_iff (boots : Boots base bytes) :
    (∀ s, Reachable (heapCores base bytes may) s → Excluded s) ↔
      ∀ c call, may c call → call.Trivial base := by
  constructor
  · intro excluded c call allowed
    by_contra serious
    obtain ⟨h, baseEq, asleep, first⟩ := @reach_first Core _ base bytes may boots
    have serious : ¬ call.Trivial (Cores.first h : Cores Core).heap.base := by
      show ¬ call.Trivial h.base
      rwa [baseEq]
    have inside := reach_inside first rfl allowed asleep serious
    have holds := (excluded _ inside).holds c ⟨call, call.body, by simp [Cores.move]⟩
    exact absurd holds (by simp [Cores.move, Cores.start, Cores.first])
  · intro trivial s reach
    obtain ⟨h, _, quiet⟩ := reach_quiet trivial reach
    exact quiet_excluded quiet

theorem reach_part {α : Type} (reach : Reachable (heapCores base bytes may) s) {part : HeapM α}
    {rest : α → HeapM Int} (here : s.stage c = .inside call (part.bind rest))
    {g h : Heap} (memory : s.heap = g) {a : α} (run : part.run heapExec g = .done a h) :
    ∃ t, Reachable (heapCores base bytes may) t ∧ t.heap = h ∧ t.seen = s.seen ∧
      t.shared = s.shared ∧ t.stage = Function.update s.stage c (.inside call (rest a)) := by
  let here_ : HeapM Int → Heap → Cores Core → Prop := fun code h S =>
    S.heap = h ∧ S.seen = s.seen ∧ S.shared = s.shared ∧
      S.stage = Function.update s.stage c (.inside call code)
  have step : ∀ (o : HeapOp) (k : o.Res → HeapM Int) h r h' S, True →
      heapExec o h = some (r, h') → Reachable (heapCores base bytes may) S →
      here_ (.op o k) h S →
      ∃ S', Reachable (heapCores base bytes may) S' ∧ here_ (k r) h' S' := by
    intro o k h r h' S _ result before there
    obtain ⟨heap, seen, shared, stages⟩ := there
    have stage : S.stage c = .inside call (.op o k) := by simp [stages]
    refine ⟨_, reachable_step before (CoreStep.body stage (heap ▸ result)), rfl, seen, shared, ?_⟩
    simp only [Cores.perform, stages, Function.update_idem]
  have start : here_ (part.bind rest) g s := by
    refine ⟨memory, rfl, rfl, ?_⟩
    rw [← here, Function.update_eq_self]
  obtain ⟨b, u, S, ⟨value, heap⟩, reach', after⟩ :=
    reachable_solo here_ step (solo_of_run run) reach start
  subst value heap
  exact ⟨S, reach', after⟩

theorem claim_chosen {units p : Int} {best : Int × Int} {h h' : Heap}
    (found : (claim units best).run heapExec h = .done p h') (some : p ≠ 0) : best.2 ≠ 0 := by
  intro none
  have empty : (claim units best).run heapExec h = .done 0 h := by simp [claim, none]
  rw [empty] at found
  obtain ⟨rfl, _⟩ : 0 = p ∧ h = h' := by simpa using found
  exact some rfl

theorem both_inside {h : Heap} (first : Reachable (heapCores base bytes may) (Cores.first h))
    (asleep : h.coresAwoken = false) {n : Nat} (pos : 0 < n) {c d : Core} (apart : c ≠ d)
    (mayC : may c (.malloc n)) (mayD : may d (.malloc n)) :
    ∃ s, Reachable (heapCores base bytes may) s ∧ s.heap = h ∧ ∀ e, e = c ∨ e = d →
      s.stage e = .inside (.malloc n) ((pick (mallocUnits n)).bind (claim (mallocUnits n))) := by
  have serious : ¬ (Call.malloc n).Trivial h.base := by
    intro zero
    have zero : n = 0 := zero
    omega
  have inC := reach_inside first rfl mayC asleep serious
  have idle : (((Cores.first h : Cores Core).start c (.malloc n)).move c
      (.inside (.malloc n) (Call.malloc n).body)).stage d = .idle := by
    simp [Cores.move, Cores.start, Cores.first, apart.symm]
  have inD := reach_inside inC idle mayD asleep serious
  refine ⟨_, inD, rfl, ?_⟩
  intro e either
  rw [← mallocBody_eq]
  cases either with
  | inl same => simp [same, Cores.move, Cores.start, apart, Call.body]
  | inr same => simp [same, Cores.move, Cores.start, Call.body]

/-- Wherever `malloc` finds a block, two cores that search before either claims
    get the same one. -/
theorem two_mallocs_share {h : Heap} {L : Layout} (r : Represents h L)
    (first : Reachable (heapCores base bytes may) (Cores.first h)) {n : Nat} (pos : 0 < n)
    {p : Int} {h' : Heap} (found : (malloc n).run heapExec h = .done p h') (some : p ≠ 0)
    {c d : Core} (apart : c ≠ d) (mayC : may c (.malloc n)) (mayD : may d (.malloc n)) :
    ∃ s, Reachable (heapCores base bytes may) s ∧ s.shared = true := by
  obtain ⟨best, search⟩ := pick_run r (mallocUnits n)
  rw [run_malloc pos r.asleep, mallocBody_eq, run_bind, search] at found
  rw [andThen_done] at found
  have chosen := claim_chosen found some
  obtain ⟨s₀, inD, heap₀, stage₀⟩ := both_inside first r.asleep pos apart mayC mayD
  -- both search, in the same heap
  obtain ⟨s₁, reach₁, heap₁, _, _, stage₁⟩ :=
    reach_part inD (stage₀ c (Or.inl rfl)) heap₀ search
  have stageD : s₁.stage d =
      .inside (.malloc n) ((pick (mallocUnits n)).bind (claim (mallocUnits n))) := by
    simp [stage₁, apart.symm, stage₀ d (Or.inr rfl)]
  obtain ⟨s₂, reach₂, heap₂, _, _, stage₂⟩ := reach_part reach₁ stageD heap₁ search
  -- the first one claims the block and returns
  have claimC : s₂.stage c = .inside (.malloc n) ((claim (mallocUnits n) best).bind .ret) := by
    simp [stage₂, apart, stage₁]
  obtain ⟨h₃, runC, base₃⟩ := claim_run (mallocUnits n) chosen h
  obtain ⟨s₃, reach₃, heap₃, _, _, stage₃⟩ := reach_part reach₂ claimC heap₂ runC
  have doneC : s₃.stage c = .inside (.malloc n) (.ret (h.base + 8 * (best.2 + 1))) := by
    simp [stage₃]
  have reach₄ := reachable_step reach₃ (CoreStep.leave doneC)
  -- then the second one does the same
  have claimD : (s₃.leave c (.malloc n) (h.base + 8 * (best.2 + 1))).stage d =
      .inside (.malloc n) ((claim (mallocUnits n) best).bind .ret) := by
    simp [Cores.leave, stage₃, stage₂, apart.symm]
  obtain ⟨h₅, runD, _⟩ := claim_run (mallocUnits n) chosen h₃
  obtain ⟨s₅, reach₅, _, seen₅, _, stage₅⟩ := reach_part reach₄ claimD heap₃ runD
  have doneD : s₅.stage d = .inside (.malloc n) (.ret (h.base + 8 * (best.2 + 1))) := by
    simp [stage₅, base₃]
  refine ⟨_, reachable_step reach₅ (CoreStep.leave doneD), ?_⟩
  have nonnull : (h.base : Int) + 8 * (best.2 + 1) ≠ 0 := by
    rw [runC] at found
    obtain ⟨rfl, _⟩ : _ = p ∧ h₃ = h' := by simpa using found
    exact some
  simp [Cores.leave, seen₅, apart.symm, nonnull]

end Reach

theorem heap_cores_excluded_iff_booted :
    (∀ s, Reachable (heapCores 4096 256 fun (_ : Fin 2) _ => True) s → Excluded s) ↔
      ∀ (_ : Fin 2) (call : Call), True → call.Trivial 4096 :=
  heap_cores_excluded_iff (boots_of_size 4096 (by decide) (by decide))

/-- Two cores call `malloc(8)` after boot and both get 4152. -/
theorem two_cores_share_block :
    ∃ s, Reachable (heapCores 4096 256 fun (_ : Fin 2) _ => True) s ∧ s.shared = true ∧
      ¬ Excluded s := by
  obtain ⟨h, L, run, r, _, _⟩ := heapInit_represents (h := blank) ⟨rfl, rfl⟩ 4096
    (by decide : 64 ≤ 256) (by decide)
  have same : (heapInit 4096 256).run heapExec blank = .done () booted.heap := rfl
  obtain rfl : h = booted.heap := by
    rw [same] at run
    simpa using run.symm
  have first : Reachable (heapCores 4096 256 fun (_ : Fin 2) _ => True) (Cores.first booted.heap) :=
    reachable_init ⟨blank, booted.heap, ⟨rfl, rfl⟩, same, rfl⟩
  have found : (malloc 8).run heapExec booted.heap = .done 4152 allocated.heap := rfl
  have distinct : (0 : Fin 2) ≠ 1 := by decide
  obtain ⟨s, reach, shared⟩ := two_mallocs_share r first (by decide) found (by decide) distinct
    trivial trivial
  refine ⟨s, reach, shared, ?_⟩
  intro excluded
  rw [excluded.unshared] at shared
  exact absurd shared (by decide)

theorem lockGate_releases {h : Heap} (awake : h.coresAwoken = true) (made : h.theLock ≠ 0)
    (unlocked : h.bytes h.theLock 1 = 0) :
    ∃ h', lockGate.run heapExec h = .done () h' ∧ h'.bytes h'.theLock 1 = 0 := by
  have taken : (lock h.theLock).run heapExec h = .done () (h.storeBytes h.theLock 1 1) := by
    have step : heapExec (.lock h.theLock) h = some ((), h.storeBytes h.theLock 1 1) :=
      if_pos unlocked
    exact run_op_some step
  refine ⟨(h.storeBytes h.theLock 1 1).storeBytes h.theLock 1 0, ?_, ?_⟩
  · simp [lockGate, run_bind, awake, made, taken]
  · simp [Heap.storeBytes, Heap.bytes, Heap.wordOf]

end PiKernel.HeapModel
