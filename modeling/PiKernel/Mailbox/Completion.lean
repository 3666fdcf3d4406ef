import Mathlib.Logic.Relation
import PiKernel.Mailbox.Serial

/-!
Calls one at a time come to an end. The word of a waiting call is never lost:
it is in the request FIFO, in VideoCore's hands or in the response FIFO, and
from any of these places the two parties can bring the call to its return.
-/
namespace PiKernel.Mailbox
open Transition
variable {Core : Type} {s t : State Core} {c : Core}

def Served (s : State Core) : Prop := ∀ c, Awaiting (s.calls c).phase → Holds s.inTransit c

structure Serving (s : State Core) : Prop where
  turn : Turn s
  served : Served s

theorem word_channel (k : Call) : channelOf k.word = mbChannelTags := by
  unfold channelOf Call.word mailboxWord mbChannelTags
  ext i low
  interval_cases i <;> simp

theorem preparing_empty (turn : Turn s) (here : Preparing (s.calls c).phase) :
    s.requests ++ (s.taken ++ s.written) = [] := by
  have live : (s.calls c).phase ≠ .idle := early_live (Or.inl here)
  apply List.eq_nil_iff_forall_not_mem.mpr
  intro m mm
  obtain ⟨d, origin⟩ := Option.ne_none_iff_exists'.mp (turn.inv.ours m mm)
  have transit : m ∈ s.inTransit := by
    simp only [State.inTransit, List.mem_append] at mm ⊢
    tauto
  have awaiting := turn.inv.waiting d (mem_origins.mpr ⟨m, transit, origin⟩)
  have same : d = c := by
    by_contra different
    exact awaiting_live awaiting ((turn.alone c live).others d different)
  rw [same] at awaiting
  exact (awaiting_only awaiting).1 here

theorem afterTest_judging (k : Call) (code : Word) : Judging (afterTest k code) := by
  unfold afterTest
  split
  · split <;> trivial
  · trivial

theorem afterTest_cases (k : Call) (code : Word) :
    afterTest k code = .copy 0 ∨ ∃ result, afterTest k code = .returned result := by
  unfold afterTest
  split
  · split
    · exact Or.inl rfl
    · exact Or.inr ⟨_, rfl⟩
  · exact Or.inr ⟨_, rfl⟩

theorem served_moved (served : Served s) (calls : t.calls = s.calls)
    (kept : s.inTransit ⊆ t.inTransit) : Served t := by
  intro d awaiting
  rw [calls] at awaiting
  exact holds_subset kept (served d awaiting)

variable [DecidableEq Core]

theorem served_local {k : Call} (turn : Turn s) (live : (s.calls c).phase ≠ .idle)
    (calls : t.calls = (s.setCall c k).calls) (own : Awaiting k.phase → Holds t.inTransit c) :
    Served t := by
  intro d awaiting
  rw [calls] at awaiting
  by_cases same : d = c
  · subst same
    rw [setCall_self] at awaiting
    exact own awaiting
  · rw [setCall_other s k same] at awaiting
    exact absurd ((turn.alone c live).others d same) (awaiting_live awaiting)

theorem served_step {depth : Nat} {e : Event Core} (room : 0 < depth) (serving : Serving s)
    (inTurn : InTurn s e) (step : MailboxStep depth s e t) : Served t := by
  obtain ⟨turn, served⟩ := serving
  cases step with
  | @call a addr args buf _ _ _ _ =>
    intro d awaiting
    by_cases same : d = a
    · subst same
      have first := congrArg Call.phase (setCall_self s d ⟨.status1, addr, args, buf, buf⟩)
      have phase : ((s.setCall d ⟨.status1, addr, args, buf, buf⟩).calls d).phase = .status1 := first
      rw [show _ = Phase.status1 from phase] at awaiting
      exact absurd awaiting id
    · have other := congrArg Call.phase (setCall_other s ⟨.status1, addr, args, buf, buf⟩ same)
      exact absurd (other.trans (inTurn.1 d)) (awaiting_live awaiting)
  | status1 here _ => exact served_local turn (by simp [here]) rfl fun awaiting => absurd awaiting id
  | @write1 a here =>
    refine served_local turn (by simp [here]) rfl fun _ => ?_
    refine ⟨⟨(s.calls a).word, some a⟩, ?_, rfl⟩
    simp [State.inTransit]
  | @writeLost a here full =>
    have empty := preparing_empty turn (by rw [here]; trivial : Preparing (s.calls a).phase)
    have none : s.requests = [] := (List.append_eq_nil_iff.mp empty).1
    rw [none] at full
    exact absurd full (by simp; omega)
  | @status0 a here _ =>
    exact served_local turn (by simp [here]) rfl fun _ => served a (by rw [here]; trivial)
  | @read0 a m rest here front =>
    refine served_local turn (by simp [here]) rfl fun awaiting => ?_
    obtain ⟨m', mm, origin⟩ := served a (by rw [here]; trivial)
    have word := turn.inv.words m' mm a origin
    have other : m' ≠ m := by
      rintro rfl
      unfold afterRead at awaiting
      rw [if_pos (by rw [word, word_channel])] at awaiting
      exact awaiting
    refine ⟨m', ?_, origin⟩
    simp only [State.inTransit, front, List.mem_append, List.mem_cons] at mm ⊢
    tauto
  | @readEmpty a value here empty =>
    have live : (s.calls a).phase ≠ .idle := by simp [here]
    exact absurd empty ((turn.alone a live).seen here)
  | @test a here =>
    refine served_local turn (by simp [here]) rfl fun awaiting => ?_
    exact absurd (afterTest_judging _ _) (awaiting_only awaiting).2
  | copy here _ => exact served_local turn (by simp [here]) rfl fun awaiting => absurd awaiting id
  | copied here _ => exact served_local turn (by simp [here]) rfl fun awaiting => absurd awaiting id
  | leave here => exact served_local turn (by simp [here]) rfl fun awaiting => absurd awaiting id
  | take front =>
    refine served_moved served rfl fun m mm => ?_
    simp only [State.inTransit, front, List.mem_append, List.mem_cons, List.not_mem_nil] at mm ⊢
    tauto
  | reply held _ =>
    refine served_moved served rfl fun m mm => ?_
    simp only [State.inTransit, held, List.mem_append, List.mem_cons, List.not_mem_nil] at mm ⊢
    tauto
  | queue held =>
    refine served_moved served rfl fun m mm => ?_
    simp only [State.inTransit, held, List.mem_append, List.mem_cons, List.not_mem_nil] at mm ⊢
    tauto
  | other channel =>
    refine served_moved served rfl fun m mm => ?_
    simp only [State.inTransit, List.mem_append] at mm ⊢
    tauto

theorem serving_step {depth : Nat} {e : Event Core} (room : 0 < depth) (serving : Serving s)
    (inTurn : InTurn s e) (step : MailboxStep depth s e t) : Serving t :=
  ⟨turn_step serving.turn inTurn step, served_step room serving inTurn step⟩

theorem serving_run {depth : Nat} (room : 0 < depth) {past : List (State Core × Event Core)}
    (run : Run (mailboxRuns Core depth) past s) (inTurn : ∀ x ∈ past, InTurn x.1 x.2) :
    Serving s := by
  refine run_invariant ?_ ?_ run inTurn
  · intro u started
    refine ⟨⟨started_inv started, ?_⟩, ?_⟩
    · intro c live
      exact absurd (started.idle c) live
    · intro c awaiting
      exact absurd (started.idle c) (awaiting_live awaiting)
  · intro u e v serving ok step
    exact serving_step room serving ok step

def Serves (depth : Nat) (s t : State Core) : Prop :=
  ∃ e, (∀ c, e ≠ .call c) ∧ MailboxStep depth s e t

/-- What the two parties can bring about together. -/
def Leads (depth : Nat) : State Core → State Core → Prop := Relation.ReflTransGen (Serves depth)

section Way
variable {depth : Nat}

theorem serving_serves (room : 0 < depth) (serving : Serving s) (serves : Serves depth s t) :
    Serving t := by
  obtain ⟨e, other, step⟩ := serves
  refine serving_step room serving ?_ step
  cases e with
  | call c => exact absurd rfl (other c)
  | _ => trivial

theorem serving_leads (room : 0 < depth) (serving : Serving s) (leads : Leads depth s t) :
    Serving t := by
  induction leads with
  | refl => exact serving
  | tail _ last ih => exact serving_serves room ih last

theorem leads_step {u : State Core} {e : Event Core} (other : ∀ c, e ≠ .call c)
    (step : MailboxStep depth s e t) (rest : Leads depth t u) : Leads depth s u :=
  .head ⟨e, other, step⟩ rest

def Comes (depth : Nat) (s : State Core) (c : Core) (phase : Phase → Prop) : Prop :=
  ∃ t, Leads depth s t ∧ phase (t.calls c).phase

theorem comes_step {e : Event Core} {phase : Phase → Prop} (other : ∀ c, e ≠ .call c)
    (step : MailboxStep depth s e t) (rest : Comes depth t c phase) : Comes depth s c phase := by
  obtain ⟨u, leads, there⟩ := rest
  exact ⟨u, leads_step other step leads, there⟩

def Returned : Phase → Prop
  | .returned _ => True
  | _ => False

/-- By induction on the words that are not copied yet. -/
theorem copy_comes {i n : Nat} (here : (s.calls c).phase = .copy i)
    (left : (s.calls c).args.length = i + n) : Comes depth s c Returned := by
  induction n generalizing s i with
  | zero =>
    refine comes_step (by simp) (.copied here (by omega)) ⟨_, .refl, ?_⟩
    unfold State.goto
    rw [setCall_self]
    trivial
  | succ n ih =>
    refine comes_step (by simp) (.copy here (by omega)) (ih (i := i + 1) ?_ ?_)
    · rw [setCall_self]
    · rw [setCall_self]
      simp only
      omega

theorem test_comes (here : (s.calls c).phase = .test) : Comes depth s c Returned := by
  refine comes_step (by simp) (.test here) ?_
  have phase : ((s.goto c (afterTest (s.calls c) (s.mem ((s.calls c).base + 1)))).calls c).phase =
      afterTest (s.calls c) (s.mem ((s.calls c).base + 1)) := by
    unfold State.goto
    rw [setCall_self]
  rcases afterTest_cases (s.calls c) (s.mem ((s.calls c).base + 1)) with copying | ⟨result, done⟩
  · exact copy_comes (phase.trans copying) (Nat.zero_add _).symm
  · refine ⟨_, .refl, ?_⟩
    rw [phase, done]
    trivial

/-- By induction on the response FIFO, whose words of other channels are read and dropped. -/
theorem read_comes (room : 0 < depth) {n : Nat} (length : s.responses.length = n)
    (serving : Serving s) (here : Awaiting (s.calls c).phase) (there : Holds s.responses c) :
    Comes depth s c Returned := by
  induction n generalizing s with
  | zero =>
    obtain ⟨m, mm, _⟩ := there
    rw [List.length_eq_zero_iff.mp length] at mm
    exact absurd mm List.not_mem_nil
  | succ n ih =>
    have reading : ∀ u, Serving u → (u.calls c).phase = .read0 → u.responses = s.responses →
        Comes depth u c Returned := by
      intro u serving reads same
      cases front : u.responses with
      | nil =>
        rw [← same, front] at length
        exact absurd length (by simp)
      | cons m rest =>
        have step : MailboxStep depth u (.read0 c m.word)
          { u.goto c (afterRead m.word) with responses := rest } := .read0 reads front
        have phase : ((u.goto c (afterRead m.word)).calls c).phase = afterRead m.word := by
          unfold State.goto
          rw [setCall_self]
        refine comes_step (by simp) step ?_
        by_cases tags : channelOf m.word = mbChannelTags
        · refine test_comes (phase.trans ?_)
          exact if_pos tags
        · have next : afterRead m.word = .status0 := if_neg tags
          have paid : (rest : List (Mail Core)).length = n := by
            rw [← same, front] at length
            exact Nat.succ.inj length
          refine ih paid (serving_serves room serving ⟨_, by simp, step⟩) ?_ ?_
          · show Awaiting ((u.goto c (afterRead m.word)).calls c).phase
            rw [phase, next]
            trivial
          · obtain ⟨m', mm, origin⟩ := there
            rw [← same, front] at mm
            rcases List.mem_cons.mp mm with first | later
            · have transit : m ∈ u.inTransit := by simp [State.inTransit, front]
              rw [first] at origin
              have word := serving.turn.inv.words m transit c origin
              exact absurd (by rw [word, word_channel]) tags
            · exact ⟨m', later, origin⟩
    cases phase : (s.calls c).phase with
    | status0 =>
      have some : s.responses ≠ [] := by
        intro none
        rw [none] at length
        exact absurd length (by simp)
      have step : MailboxStep depth s (.status0 c) (s.goto c .read0) := .status0 phase some
      refine comes_step (by simp) step (reading _ (serving_serves room serving ⟨_, by simp, step⟩) ?_ rfl)
      unfold State.goto
      rw [setCall_self]
    | read0 => exact reading s serving phase rfl
    | _ =>
      rw [phase] at here
      exact absurd here id

theorem queue_comes (room : 0 < depth) (serving : Serving s) (here : Awaiting (s.calls c).phase)
    (there : Holds s.written c) : Comes depth s c Returned := by
  obtain ⟨m, mm, origin⟩ := there
  obtain ⟨before, after, held⟩ := List.append_of_mem mm
  have step : MailboxStep depth s .queue { s with
    written := before ++ after, responses := s.responses ++ [m] } := .queue held
  refine comes_step (by simp) step ?_
  refine read_comes room rfl (serving_serves room serving ⟨_, by simp, step⟩) here ?_
  exact ⟨m, by simp, origin⟩

theorem reply_comes (room : 0 < depth) (serving : Serving s) (here : Awaiting (s.calls c).phase)
    (there : Holds s.taken c) : Comes depth s c Returned := by
  obtain ⟨m, mm, origin⟩ := there
  obtain ⟨before, after, held⟩ := List.append_of_mem mm
  have size := List.length_replicate
    (n := (s.mem ((gpuBuffer m.word).toNat / 4)).toNat / 4) (a := (0 : Word))
  have step : MailboxStep depth s .reply _ := .reply held size
  refine comes_step (by simp) step ?_
  refine queue_comes room (serving_serves room serving ⟨_, by simp, step⟩) here ?_
  exact ⟨m, by simp, origin⟩

/-- By induction on the requests before it. -/
theorem take_comes (room : 0 < depth) {n : Nat} (length : s.requests.length = n)
    (serving : Serving s) (here : Awaiting (s.calls c).phase) (there : Holds s.requests c) :
    Comes depth s c Returned := by
  induction n generalizing s with
  | zero =>
    obtain ⟨m, mm, _⟩ := there
    rw [List.length_eq_zero_iff.mp length] at mm
    exact absurd mm List.not_mem_nil
  | succ n ih =>
    cases front : s.requests with
    | nil =>
      rw [front] at length
      exact absurd length (by simp)
    | cons m rest =>
      have step : MailboxStep depth s .take { s with requests := rest, taken := s.taken ++ [m] } :=
        .take front
      have after := serving_serves room serving ⟨_, by simp, step⟩
      refine comes_step (by simp) step ?_
      obtain ⟨m', mm, origin⟩ := there
      rw [front] at mm
      rcases List.mem_cons.mp mm with first | later
      · refine reply_comes room after here ⟨m, by simp, ?_⟩
        rw [← first]
        exact origin
      · refine ih ?_ after here ⟨m', later, origin⟩
        rw [front] at length
        exact Nat.succ.inj length

theorem awaiting_comes (room : 0 < depth) (serving : Serving s) (here : Awaiting (s.calls c).phase) :
    Comes depth s c Returned := by
  rcases holds_inTransit.mp (serving.served c here) with asked | held | written | queued
  · exact take_comes room rfl serving here asked
  · exact reply_comes room serving here held
  · exact queue_comes room serving here written
  · exact read_comes room rfl serving here queued

theorem write_comes (room : 0 < depth) (serving : Serving s) (here : (s.calls c).phase = .write1) :
    Comes depth s c Returned := by
  have step : MailboxStep depth s (.write1 c) { s.goto c .status0 with
    requests := s.requests ++ [⟨(s.calls c).word, some c⟩] } := .write1 here
  refine comes_step (by simp) step
    (awaiting_comes room (serving_serves room serving ⟨_, by simp, step⟩) ?_)
  show Awaiting ((s.goto c .status0).calls c).phase
  unfold State.goto
  rw [setCall_self]
  trivial

theorem live_comes (room : 0 < depth) (serving : Serving s) (live : (s.calls c).phase ≠ .idle) :
    Comes depth s c Returned := by
  cases phase : (s.calls c).phase with
  | idle => exact absurd phase live
  | status1 =>
    have empty := preparing_empty serving.turn (by rw [phase]; trivial : Preparing (s.calls c).phase)
    have space : s.requests.length < depth := by
      rw [(List.append_eq_nil_iff.mp empty).1]
      exact room
    have step : MailboxStep depth s (.status1 c) (s.goto c .write1) := .status1 phase space
    refine comes_step (by simp) step
      (write_comes room (serving_serves room serving ⟨_, by simp, step⟩) ?_)
    unfold State.goto
    rw [setCall_self]
  | write1 => exact write_comes room serving phase
  | status0 => exact awaiting_comes room serving (by rw [phase]; trivial)
  | read0 => exact awaiting_comes room serving (by rw [phase]; trivial)
  | test => exact test_comes phase
  | copy i =>
    have bound := (copying serving.turn.inv phase).2.2.1
    exact copy_comes phase (Nat.add_sub_of_le bound).symm
  | returned result => exact ⟨s, .refl, by rw [phase]; trivial⟩

end Way

/-- Calls made one at a time are answered rightly in every run, and from every state of it the
    call under way can be brought to its return by its core and VideoCore alone, with
    the answer that belongs to it. -/
theorem serial_completes {depth : Nat} (room : 0 < depth) {past : List (State Core × Event Core)}
    (run : Run (mailboxRuns Core depth) past s) (inTurn : ∀ x ∈ past, InTurn x.1 x.2) :
    Matched s ∧ ∀ c, (s.calls c).phase ≠ .idle → ∃ t result, Leads depth s t ∧
      (t.calls c).phase = .returned result ∧ Answered t c result := by
  have serving := serving_run room run inTurn
  refine ⟨inv_matched serving.turn.inv, fun c live => ?_⟩
  obtain ⟨t, leads, returned⟩ := live_comes room serving live
  have after := serving_leads room serving leads
  cases phase : (t.calls c).phase with
  | returned result => exact ⟨t, result, leads, phase, inv_matched after.turn.inv c result phase⟩
  | _ =>
    rw [phase] at returned
    exact absurd returned id

theorem serial_completes_sending : ∃ past s, Run (mailboxRuns (Fin 2) 8) past s ∧
    (s.calls 0).phase = .write1 ∧ Matched s ∧ ∀ c, (s.calls c).phase ≠ .idle →
      ∃ t result, Leads 8 s t ∧ (t.calls c).phase = .returned result ∧ Answered t c result := by
  have started : Run (mailboxRuns (Fin 2) 8) _ _ := .start (waitingWords_started [0x11])
  have called := Run.next started (@MailboxStep.call _ _ 8 _ 0 0x1000 [] none rfl (by decide) rfl
    fun _ _ live => absurd rfl live)
  have ready := Run.next called (.status1 (c := 0) rfl (by decide))
  refine ⟨_, _, ready, rfl, serial_completes (by decide) ready ?_⟩
  intro x mx
  simp only [List.mem_cons, List.not_mem_nil, or_false] at mx
  rcases mx with rfl | rfl
  · trivial
  · refine ⟨fun _ => rfl, ?_⟩
    intro m mm
    rw [List.mem_singleton.mp mm]
    decide

end PiKernel.Mailbox
