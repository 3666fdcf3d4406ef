import PiKernel.Mailbox.Matching

/-!
Calls one at a time. When a call starts, no other one is under way and no word of
the tags channel waits in the response FIFO: then each call takes its own
response, whatever VideoCore sends on other channels.
-/
namespace PiKernel.Mailbox
open Transition
variable {Core : Type} {s t : State Core} {c : Core}

def InTurn (s : State Core) : Event Core → Prop
  | .call _ => (∀ d, (s.calls d).phase = .idle) ∧
      ∀ m ∈ s.responses, channelOf m.word ≠ mbChannelTags
  | _ => True

/-- Core `c` is the only one in a call; a word it has seen in the FIFO is still there. -/
structure Solitary (s : State Core) (c : Core) : Prop where
  others : ∀ d, d ≠ c → (s.calls d).phase = .idle
  own : ∀ m ∈ s.responses, channelOf m.word = mbChannelTags → m.origin = some c
  seen : (s.calls c).phase = .read0 → s.responses ≠ []

structure Turn (s : State Core) : Prop where
  inv : Inv s
  alone : ∀ c, (s.calls c).phase ≠ .idle → Solitary s c

theorem afterRead_ne_read0 (value : Word) : afterRead value ≠ .read0 := by
  unfold afterRead
  split <;> simp

theorem afterTest_ne_read0 (k : Call) (code : Word) : afterTest k code ≠ .read0 := by
  unfold afterTest
  repeat' split
  all_goals simp

/-- VideoCore queues words of other channels and the response to the only call. -/
theorem solitary_queued {more : List (Mail Core)} (turn : Turn s) (calls : t.calls = s.calls)
    (grown : t.responses = s.responses ++ more)
    (new : ∀ c, (s.calls c).phase ≠ .idle → ∀ m ∈ more, channelOf m.word = mbChannelTags →
      m.origin = some c) : ∀ c, (t.calls c).phase ≠ .idle → Solitary t c := by
  intro c liveC
  rw [calls] at liveC
  obtain ⟨others, own, seen⟩ := turn.alone c liveC
  refine ⟨by rwa [calls], ?_, ?_⟩
  · rw [grown]
    intro m mm tags
    rcases List.mem_append.mp mm with old | late
    · exact own m old tags
    · exact new c liveC m late tags
  · rw [calls, grown]
    intro reading empty
    exact seen reading (List.append_eq_nil_iff.mp empty).1

theorem solitary_origin {m : Mail Core} (turn : Turn s) (live : (s.calls c).phase ≠ .idle)
    (held : m ∈ s.written) : m.origin = some c := by
  obtain ⟨d, origin⟩ := Option.ne_none_iff_exists'.mp (turn.inv.ours m (by simp [held]))
  have transit : m ∈ s.inTransit := by simp [State.inTransit, held]
  have awaiting := turn.inv.waiting d (mem_origins.mpr ⟨m, transit, origin⟩)
  have same : d = c := by
    by_contra different
    exact awaiting_live awaiting ((turn.alone c live).others d different)
  rw [origin, same]

variable [DecidableEq Core]

theorem turn_paired {depth : Nat} {e : Event Core} (turn : Turn s)
    (step : MailboxStep depth s e t) : Paired s e := by
  cases step with
  | @read0 a m rest here front =>
    intro tags
    have live : (s.calls a).phase ≠ .idle := by simp [here]
    have member : m ∈ s.responses := front ▸ List.mem_cons_self
    exact ⟨m, rest, front, (turn.alone a live).own m member tags⟩
  | @readEmpty a _ here empty =>
    have live : (s.calls a).phase ≠ .idle := by simp [here]
    exact absurd empty ((turn.alone a live).seen here)
  | _ => trivial

theorem solitary_local {a : Core} {k : Call} (turn : Turn s) (live : (s.calls a).phase ≠ .idle)
    (calls : t.calls = (s.setCall a k).calls) (fewer : t.responses ⊆ s.responses)
    (seen : k.phase = .read0 → t.responses ≠ []) :
    ∀ c, (t.calls c).phase ≠ .idle → Solitary t c := by
  intro c liveC
  obtain ⟨others, own, _⟩ := turn.alone a live
  rw [calls] at liveC
  have same : c = a := by
    by_contra different
    rw [setCall_other s k different] at liveC
    exact liveC (others c different)
  subst same
  refine ⟨?_, fun m mm => own m (fewer mm), ?_⟩
  · intro d different
    rw [calls, setCall_other s k different]
    exact others d different
  · rw [calls, setCall_self]
    exact seen

theorem solitary_step {depth : Nat} {e : Event Core} (turn : Turn s) (inTurn : InTurn s e)
    (step : MailboxStep depth s e t) : ∀ c, (t.calls c).phase ≠ .idle → Solitary t c := by
  cases step with
  | @call a addr args buf _ _ _ _ =>
    obtain ⟨idle, clean⟩ := inTurn
    intro c live
    have same : c = a := by
      by_contra different
      exact live ((congrArg Call.phase (setCall_other s _ different)).trans (idle c))
    subst same
    refine ⟨?_, fun m mm tags => absurd tags (clean m mm), ?_⟩
    · intro d different
      exact (congrArg Call.phase (setCall_other s _ different)).trans (idle d)
    · intro reading
      have first := (congrArg Call.phase (setCall_self s c _)).symm.trans reading
      exact absurd first (by simp)
  | status1 here _ => exact solitary_local turn (by simp [here]) rfl (List.Subset.refl _) nofun
  | write1 here => exact solitary_local turn (by simp [here]) rfl (List.Subset.refl _) nofun
  | writeLost here _ => exact solitary_local turn (by simp [here]) rfl (List.Subset.refl _) nofun
  | status0 here some =>
    exact solitary_local turn (by simp [here]) rfl (List.Subset.refl _) fun _ => some
  | @read0 a m rest here front =>
    have fewer : rest ⊆ s.responses := by
      rw [front]
      exact List.subset_cons_self m rest
    refine solitary_local turn (by simp [here]) rfl fewer ?_
    intro reading
    exact absurd reading (afterRead_ne_read0 m.word)
  | @readEmpty a value here _ =>
    refine solitary_local turn (by simp [here]) rfl (List.Subset.refl _) ?_
    intro reading
    exact absurd reading (afterRead_ne_read0 value)
  | @test a here =>
    refine solitary_local turn (by simp [here]) rfl (List.Subset.refl _) ?_
    intro reading
    exact absurd reading (afterTest_ne_read0 _ _)
  | copy here _ => exact solitary_local turn (by simp [here]) rfl (List.Subset.refl _) nofun
  | copied here _ => exact solitary_local turn (by simp [here]) rfl (List.Subset.refl _) nofun
  | leave here => exact solitary_local turn (by simp [here]) rfl (List.Subset.refl _) nofun
  | take _ => exact solitary_queued turn rfl (List.append_nil _).symm (by simp)
  | reply _ _ => exact solitary_queued turn rfl (List.append_nil _).symm (by simp)
  | @queue m before after held =>
    refine solitary_queued turn rfl rfl ?_
    intro c live m' new _
    rw [List.mem_singleton.mp new]
    exact solitary_origin turn live (held ▸ List.mem_append_right before List.mem_cons_self)
  | @other value channel =>
    refine solitary_queued turn rfl rfl ?_
    intro c _ m new tags
    rw [List.mem_singleton.mp new] at tags
    exact absurd tags channel

theorem turn_step {depth : Nat} {e : Event Core} (turn : Turn s) (inTurn : InTurn s e)
    (step : MailboxStep depth s e t) : Turn t :=
  ⟨step_inv turn.inv (turn_paired turn step) step, solitary_step turn inTurn step⟩

theorem serial_matches {depth : Nat} {past : List (State Core × Event Core)}
    (run : Run (mailboxRuns Core depth) past s) (inTurn : ∀ x ∈ past, InTurn x.1 x.2) :
    ∀ t ∈ visited past s, Matched t := by
  intro t member
  have first : ∀ s, (mailboxRuns Core depth).init s → Turn s := by
    intro s started
    refine ⟨started_inv started, ?_⟩
    intro c live
    exact absurd (started.idle c) live
  have turn : Turn t := run_visited first (fun _ _ _ => turn_step) run inTurn t member
  exact inv_matched turn.inv

end PiKernel.Mailbox
