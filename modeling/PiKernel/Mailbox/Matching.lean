import PiKernel.Mailbox.Transit

/-!
Requests and responses of `mailbox_tag_message`. As long as each call takes its
own response, its buffer is settled when it is judged; a call that takes another
word returns too early.
-/
namespace PiKernel.Mailbox
open Transition
variable {Core : Type}

section Local
variable [DecidableEq Core] {s : State Core} {c : Core}

@[simp] theorem setCall_self (s : State Core) (c : Core) (k : Call) :
    (s.setCall c k).calls c = k := Function.update_self ..

@[simp] theorem setCall_other {c d : Core} (s : State Core) (k : Call) (other : d ≠ c) :
    (s.setCall c k).calls d = s.calls d := Function.update_of_ne other ..

@[simp] theorem goto_self (s : State Core) (c : Core) (phase : Phase) :
    (s.goto c phase).calls c = { s.calls c with phase := phase } := setCall_self ..

theorem local_inv {k : Call} (inv : Inv s) (live : (s.calls c).phase ≠ .idle)
    (addr : k.addr = (s.calls c).addr) (args : k.args = (s.calls c).args)
    (waits : c ∈ origins s → Awaiting k.phase)
    (own : k.phase ≠ .idle → CallInv (s.setCall c k) c) : Inv (s.setCall c k) := by
  have words : ∀ d, ((s.setCall c k).calls d).word = (s.calls d).word ∧
      ((s.setCall c k).calls d).Buffer = (s.calls d).Buffer := by
    intro d
    by_cases same : d = c
    · subst same
      rw [setCall_self]
      constructor
      · unfold Call.word
        rw [addr]
      · unfold Call.Buffer Call.base
        rw [addr, args]
    · rw [setCall_other s k same]
      exact ⟨rfl, rfl⟩
  have lives : ∀ d, ((s.setCall c k).calls d).phase ≠ .idle → (s.calls d).phase ≠ .idle := by
    intro d given
    by_cases same : d = c
    · rwa [same]
    · rwa [setCall_other s k same] at given
  refine ⟨inv.unique, ?_, ?_, inv.ours, ?_, ?_⟩
  · intro d listed
    by_cases same : d = c
    · rw [same, setCall_self]
      exact waits (same ▸ listed)
    · rw [setCall_other s k same]
      exact inv.waiting d listed
  · intro m mm d origin
    rw [(words d).1]
    exact inv.words m mm d origin
  · intro d e different liveD liveE j
    rw [(words d).2, (words e).2]
    exact inv.apart d e different (lives d liveD) (lives e liveE) j
  · intro d liveD
    by_cases same : d = c
    · subst same
      rw [setCall_self] at liveD
      exact own liveD
    · exact callInv_frame (inv.call d (lives d liveD)) (setCall_other s k same) rfl
        (fun _ _ => rfl) id id

theorem goto_told {phase : Phase} (told : Told s c) : Told (s.goto c phase) c := by
  unfold Told
  rw [goto_self]
  exact told

theorem goto_call {phase : Phase} (own : CallInv s c)
    (prepared : Preparing phase → Preparing (s.calls c).phase) (judged : Judging phase → Told s c)
    (progress : Progress (s.goto c phase) c) : CallInv (s.goto c phase) c := by
  obtain ⟨placed, short, sized, told, _⟩ := own
  refine ⟨by rwa [goto_self], by rwa [goto_self], ?_, ?_, progress⟩
  · rw [goto_self]
    intro given
    exact sized (given.imp_left prepared)
  · rw [goto_self]
    intro given
    rcases given with here | there
    · exact goto_told (judged here)
    · exact goto_told (told (Or.inr there))

theorem wait_inv {phase : Phase} (inv : Inv s) (here : Early (s.calls c).phase)
    (waits : c ∈ origins s → Awaiting phase)
    (prepared : Preparing phase → Preparing (s.calls c).phase)
    (early : Early phase) : Inv (s.goto c phase) := by
  have live := early_live here
  apply local_inv (k := { s.calls c with phase := phase }) inv live rfl rfl waits
  intro _
  apply goto_call (inv.call c live) prepared
  · intro judging
    cases phase with
    | status1 => exact absurd judging id
    | write1 => exact absurd judging id
    | status0 => exact absurd judging id
    | read0 => exact absurd judging id
    | _ => exact absurd early (not_or.mpr ⟨id, id⟩)
  · have untouched := (early_progress here).mp (inv.call c live).progress
    rw [early_progress (by rw [goto_self]; exact early), goto_self]
    exact untouched

theorem still_waiting {phase : Phase} (inv : Inv s) (here : Early (s.calls c).phase)
    (next : Awaiting phase) : Inv (s.goto c phase) :=
  wait_inv inv here (fun _ => next) (fun preparing => absurd preparing (awaiting_only next).1)
    (Or.inr next)

theorem call_inv {addr : Word} {args : List Word} {buf : Option (Nat → Word)} (inv : Inv s)
    (idle : (s.calls c).phase = .idle) (short : args.length < 256) (placed : Placed addr)
    (fresh : ∀ d, d ≠ c → (s.calls d).phase ≠ .idle →
      ∀ j, Call.Buffer ⟨.status1, addr, args, buf, buf⟩ j → ¬ (s.calls d).Buffer j) :
    Inv { s.setCall c ⟨.status1, addr, args, buf, buf⟩ with
      mem := writeWords s.mem (addr.toNat / 4) (compose args)
      answer := Function.update s.answer c none } := by
  let t : State Core := { s.setCall c ⟨.status1, addr, args, buf, buf⟩ with
    mem := writeWords s.mem (addr.toNat / 4) (compose args)
    answer := Function.update s.answer c none }
  show Inv t
  have absent : c ∉ origins s := not_listed inv fun awaiting => awaiting_live awaiting idle
  have none : ¬ Holds s.inTransit c := fun held => absent (mem_origins.mpr held)
  rw [holds_inTransit] at none
  have self := setCall_self s c ⟨.status1, addr, args, buf, buf⟩
  have other : ∀ {d}, d ≠ c → (s.setCall c ⟨.status1, addr, args, buf, buf⟩).calls d = s.calls d :=
    fun different => setCall_other s _ different
  refine ⟨inv.unique, ?_, ?_, inv.ours, ?_, ?_⟩
  · intro d listed
    have different : d ≠ c := fun same => absent (same ▸ listed)
    rw [other different]
    exact inv.waiting d listed
  · intro m mm d origin
    have different : d ≠ c := fun same => absent (mem_origins.mpr ⟨m, mm, same ▸ origin⟩)
    rw [other different]
    exact inv.words m mm d origin
  · intro d e different liveD liveE j
    by_cases sameD : d = c
    · have elsewhere : e ≠ c := fun same => different (sameD.trans same.symm)
      rw [other elsewhere] at liveE ⊢
      rw [sameD, self]
      exact fresh e elsewhere liveE j
    · rw [other sameD] at liveD ⊢
      by_cases sameE : e = c
      · rw [sameE, self]
        exact fun inD inC => fresh d sameD liveD j inC inD
      · rw [other sameE] at liveE ⊢
        exact inv.apart d e different liveD liveE j
  · intro d live
    by_cases same : d = c
    · subst same
      refine ⟨by rwa [self], by rwa [self], ?_, ?_, ?_⟩
      · intro _
        rw [self]
        have filled : 0 < (compose args).length := Nat.succ_pos _
        exact (Option.some.inj (writeWords_inside s.mem (addr.toNat / 4) filled)).symm
      · rw [self]
        intro given
        rcases given with judging | held
        · exact absurd judging id
        · exact absurd held (by tauto)
      · unfold Progress
        rw [self]
    · rw [other same] at live
      have answer : t.answer d = s.answer d := Function.update_of_ne same ..
      refine callInv_frame (t := t) (inv.call d live) (other same) answer ?_ id id
      intro j inside
      apply writeWords_outside
      rw [compose_length]
      exact fun given => fresh d same live j given inside

/-- A call that has its own response judges a settled buffer. -/
theorem judge_inv (inv : Inv s) (here : Early (s.calls c).phase) (absent : c ∉ origins s)
    (told : Told s c) : Inv (s.goto c .test) := by
  have live := early_live here
  have own := inv.call c live
  apply local_inv (k := { s.calls c with phase := .test }) inv live rfl rfl
    (fun listed => absurd listed absent)
  intro _
  apply goto_call own (fun preparing => absurd preparing id) (fun _ => told)
  unfold Progress
  rw [goto_self]
  exact (early_progress here).mp own.progress

theorem read_inv {m : Mail Core} {rest : List (Mail Core)} (inv : Inv s)
    (here : (s.calls c).phase = .read0) (front : s.responses = m :: rest)
    (paired : channelOf m.word = mbChannelTags → m.origin = some c) :
    Inv { s.goto c (afterRead m.word) with responses := rest } := by
  let t : State Core := { s with responses := rest }
  have popped : Inv t := pop_inv inv front
  show Inv (t.goto c (afterRead m.word))
  have early : Early (t.calls c).phase := by
    rw [show (t.calls c).phase = .read0 from here]
    exact Or.inr trivial
  unfold afterRead
  by_cases tags : channelOf m.word = mbChannelTags
  · have origin := paired tags
    have held : Holds s.responses c := ⟨m, front ▸ List.mem_cons_self, origin⟩
    have told : Told s c := (inv.call c (early_live early)).told (Or.inr (Or.inr held))
    have absent : c ∉ origins t := by
      intro listed
      have perm : s.inTransit.Perm (m :: t.inTransit) := by
        simp only [t, State.inTransit, front, ← List.append_assoc]
        exact List.perm_middle
      have labels : (origins s).Perm (c :: origins t) := by
        have both := perm.filterMap Mail.origin
        rwa [List.filterMap_cons_some origin] at both
      exact (List.nodup_cons.mp (labels.nodup_iff.mp inv.unique)).1 listed
    rw [if_pos tags]
    exact judge_inv popped early absent told
  · rw [if_neg tags]
    exact still_waiting popped early trivial

theorem judging_inv {k : Call} (inv : Inv s) (judging : Judging (s.calls c).phase)
    (addr : k.addr = (s.calls c).addr) (args : k.args = (s.calls c).args)
    (next : ¬ Preparing k.phase) (progress : k.phase ≠ .idle → Progress (s.setCall c k) c) :
    Inv (s.setCall c k) := by
  have live := judging_live judging
  obtain ⟨placed, short, _, told, _⟩ := inv.call c live
  have absent : c ∉ origins s :=
    not_listed inv fun awaiting => (awaiting_only awaiting).2 judging
  have none : ¬ Holds s.inTransit c := fun held => absent (mem_origins.mpr held)
  rw [holds_inTransit] at none
  apply local_inv inv live addr args (fun listed => absurd listed absent)
  intro liveK
  have self := setCall_self s c k
  refine ⟨by rwa [self, addr], by rwa [self, args], ?_, ?_, progress liveK⟩
  · rw [self]
    intro given
    rcases given with preparing | asked
    · exact absurd preparing next
    · exact absurd asked (fun given => none (given.elim Or.inl fun held => Or.inr (Or.inl held)))
  · intro _
    obtain ⟨reply, answer, words⟩ := told (Or.inl judging)
    refine ⟨reply, answer, ?_⟩
    rw [self, Call.base, addr, args]
    exact words

theorem test_inv (inv : Inv s) (here : (s.calls c).phase = .test) :
    Inv (s.goto c (afterTest (s.calls c) (s.mem ((s.calls c).base + 1)))) := by
  have judging : Judging (s.calls c).phase := by
    rw [here]
    trivial
  have untouched := (inv.call c (judging_live judging)).progress
  unfold Progress at untouched
  rw [here] at untouched
  apply judging_inv (k := { s.calls c with
    phase := afterTest (s.calls c) (s.mem ((s.calls c).base + 1)) }) inv judging rfl rfl
  · unfold afterTest
    split
    · split <;> exact id
    · exact id
  · intro _
    unfold Progress CopiedUpTo
    rw [setCall_self]
    unfold afterTest
    by_cases success : s.mem ((s.calls c).base + 1) = responseSuccess
    · rw [if_pos success]
      cases buf : (s.calls c).responseBuf with
      | none => exact ⟨⟨fun _ => success, fun _ => rfl⟩, by simp, by simp⟩
      | some f => exact ⟨success, Nat.zero_le _, by simp⟩
    · rw [if_neg success]
      exact ⟨⟨by simp, fun is => absurd is success⟩, by simp, fun _ => untouched⟩

theorem copy_inv {i : Nat} (inv : Inv s) (here : (s.calls c).phase = .copy i)
    (more : i < (s.calls c).args.length) :
    Inv (s.setCall c { s.calls c with
      phase := .copy (i + 1)
      responseBuf := (s.calls c).responseBuf.map fun f =>
        Function.update f i (s.mem ((s.calls c).base + (2 + i))) }) := by
  obtain ⟨judging, success, _, copied⟩ := copying inv here
  let k : Call := { s.calls c with
    phase := .copy (i + 1)
    responseBuf := (s.calls c).responseBuf.map fun f =>
      Function.update f i (s.mem ((s.calls c).base + (2 + i))) }
  apply judging_inv (k := k) inv judging rfl rfl
  · exact id
  · intro _
    unfold Progress CopiedUpTo
    rw [setCall_self]
    refine ⟨success, more, ?_⟩
    intro g is j less
    obtain ⟨f, buf, rfl⟩ := Option.map_eq_some_iff.mp is
    by_cases last : j = i
    · rw [last, Function.update_self]
      rfl
    · rw [Function.update_of_ne last]
      exact copied f buf j (by omega)

theorem copied_inv {i : Nat} (inv : Inv s) (here : (s.calls c).phase = .copy i)
    (last : ¬ i < (s.calls c).args.length) : Inv (s.goto c (.returned true)) := by
  obtain ⟨judging, success, within, copied⟩ := copying inv here
  have all : i = (s.calls c).args.length := by omega
  apply judging_inv (k := { s.calls c with phase := .returned true }) inv judging rfl rfl
  · exact id
  · intro _
    unfold Progress CopiedUpTo
    rw [setCall_self]
    exact ⟨⟨fun _ => success, fun _ => rfl⟩, fun _ => all ▸ copied, by simp⟩

theorem leave_inv {result : Bool} (inv : Inv s) (here : (s.calls c).phase = .returned result) :
    Inv (s.goto c .idle) := by
  apply judging_inv (k := { s.calls c with phase := .idle }) inv _ rfl rfl id
  · exact fun live => absurd rfl live
  · rw [here]
    trivial

theorem write_inv (inv : Inv s) (here : (s.calls c).phase = .write1) :
    Inv (s.goto c .status0) ∧ Inv { s.goto c .status0 with
      requests := s.requests ++ [⟨(s.calls c).word, some c⟩] } := by
  have preparing : Preparing (s.calls c).phase := by
    rw [here]
    trivial
  have early : Early (s.calls c).phase := Or.inl preparing
  have absent : c ∉ origins s :=
    not_listed inv fun awaiting => (awaiting_only awaiting).1 preparing
  have gone : Inv (s.goto c .status0) := still_waiting inv early trivial
  refine ⟨gone, ?_⟩
  have sized := (inv.call c (early_live early)).sized (Or.inl preparing)
  have sent := send_inv (c := c) gone absent (by rw [goto_self]; trivial)
    (by rw [goto_self]; exact sized)
  rw [goto_self] at sent
  exact sent

theorem status1_inv (inv : Inv s) (here : (s.calls c).phase = .status1) :
    Inv (s.goto c .write1) := by
  have preparing : Preparing (s.calls c).phase := by
    rw [here]
    trivial
  exact wait_inv inv (Or.inl preparing)
    (fun listed => absurd preparing (awaiting_only (inv.waiting c listed)).1)
    (fun _ => preparing) (Or.inl trivial)

theorem status0_inv (inv : Inv s) (here : (s.calls c).phase = .status0) :
    Inv (s.goto c .read0) := by
  have early : Early (s.calls c).phase := by
    rw [here]
    exact Or.inr trivial
  exact still_waiting inv early trivial

theorem readEmpty_inv {value : Word} (inv : Inv s) (here : (s.calls c).phase = .read0)
    (other : channelOf value ≠ mbChannelTags) : Inv (s.goto c (afterRead value)) := by
  have early : Early (s.calls c).phase := by
    rw [here]
    exact Or.inr trivial
  unfold afterRead
  rw [if_neg other]
  exact still_waiting inv early trivial

theorem step_inv {depth : Nat} {t : State Core} {e : Event Core} (inv : Inv s)
    (paired : Paired s e) (step : MailboxStep depth s e t) : Inv t := by
  cases step with
  | call idle short placed fresh => exact call_inv inv idle short placed fresh
  | status1 here space => exact status1_inv inv here
  | write1 here => exact (write_inv inv here).2
  | writeLost here full => exact (write_inv inv here).1
  | status0 here some => exact status0_inv inv here
  | read0 here front =>
    apply read_inv inv here front
    intro tags
    obtain ⟨m, rest, same, origin⟩ := paired tags
    rw [front] at same
    injection same with first
    rw [first]
    exact origin
  | readEmpty here empty =>
    apply readEmpty_inv inv here
    intro tags
    obtain ⟨m, rest, same, _⟩ := paired tags
    rw [empty] at same
    exact absurd same (by simp)
  | test here => exact test_inv inv here
  | copy here more => exact copy_inv inv here more
  | copied here last => exact copied_inv inv here last
  | leave here => exact leave_inv inv here
  | take front => exact take_inv inv front
  | reply held size =>
    apply reply_inv inv held size
    · intro c origin
      exact if_pos origin
    · intro c foreign
      exact if_neg foreign
  | queue held => exact queue_inv inv held
  | other channel => exact other_inv inv _

end Local

theorem started_inv {s : State Core} (started : Started s) : Inv s := by
  obtain ⟨idle, requests, taken, written, responses⟩ := started
  have none : ∀ c, ¬ Holds s.inTransit c := by
    intro c held
    obtain ⟨m, mm, origin⟩ := held
    simp only [State.inTransit, requests, taken, written, List.nil_append] at mm
    rw [responses m mm] at origin
    exact absurd origin (by simp)
  have empty : origins s = [] := by
    cases labels : origins s with
    | nil => rfl
    | cons c rest => exact absurd (mem_origins.mp (labels ▸ List.mem_cons_self)) (none c)
  refine ⟨empty ▸ List.nodup_nil, ?_, ?_, ?_, ?_, ?_⟩
  · intro c listed
    exact absurd (mem_origins.mp listed) (none c)
  · intro m mm c origin
    exact absurd ⟨m, mm, origin⟩ (none c)
  · rw [requests, taken, written]
    intro m mm
    exact absurd mm List.not_mem_nil
  · intro c d _ live
    exact absurd (idle c) live
  · intro c live
    exact absurd (idle c) live

theorem mailbox_matches [DecidableEq Core] {depth : Nat} {past : List (State Core × Event Core)}
    {s : State Core} (run : Run (mailboxRuns Core depth) past s)
    (paired : ∀ x ∈ past, Paired x.1 x.2) : ∀ t ∈ visited past s, Matched t := by
  intro t member
  apply inv_matched
  exact run_visited (fun _ => started_inv) (fun _ _ _ => step_inv) run paired t member

def waitingWords (words : List Word) : State (Fin 2) where
  calls := fun _ => ⟨.idle, 0, [], none, none⟩
  mem := fun _ => 0
  requests := []
  taken := []
  written := []
  responses := words.map fun w => ⟨w, none⟩
  answer := fun _ => none

theorem waitingWords_started (words : List Word) : Started (waitingWords words) := by
  refine ⟨fun _ => rfl, rfl, rfl, rfl, ?_⟩
  intro m mm
  obtain ⟨w, _, rfl⟩ := List.mem_map.mp mm
  rfl

/-- One request of core 0, answered with success. -/
theorem mailbox_matches_one : ∃ past s, Run (mailboxRuns (Fin 2) 8) past s ∧
    (s.calls 0).phase = .returned true ∧ ∀ t ∈ visited past s, Matched t := by
  have started : Run (mailboxRuns (Fin 2) 8) _ _ := .start (waitingWords_started [])
  have called := Run.next started (@MailboxStep.call _ _ 8 _ 0 0x1000 [] none rfl (by decide) rfl
    fun _ _ live => absurd rfl live)
  have ready := Run.next called (.status1 (c := 0) rfl (by decide))
  have sent := Run.next ready (.write1 (c := 0) rfl)
  have held := Run.next sent (.take rfl)
  have answered := Run.next held (@MailboxStep.reply _ _ 8 _ _ [] [] [12, 0x80000000, 0] rfl
    (by decide +kernel))
  have queued := Run.next answered (@MailboxStep.queue _ _ 8 _ _ [] [] rfl)
  have full := Run.next queued (.status0 (c := 0) rfl (by simp))
  have read := Run.next full (.read0 (c := 0) rfl rfl)
  have tested := Run.next read (.test (c := 0) rfl)
  refine ⟨_, _, tested, rfl, mailbox_matches tested ?_⟩
  intro x mx
  simp only [List.mem_cons, List.not_mem_nil, or_false] at mx
  rcases mx with rfl | rfl | rfl | rfl | rfl | rfl | rfl | rfl | rfl
  · trivial
  · exact fun _ => ⟨_, _, rfl, rfl⟩
  all_goals trivial

theorem unsettled {s : State (Fin 2)} {c : Fin 2} {result : Bool}
    (phase : (s.calls c).phase = .returned result) (outstanding : Outstanding s c) :
    ¬ Matched s := fun matched => (matched c result phase).settled outstanding

/-- Two cores have sent a request; core 1 takes the response to core 0 and returns
    while its own request is still in the FIFO. -/
theorem crossed_replies : ∃ past s, Run (mailboxRuns (Fin 2) 8) past s ∧ ¬ Matched s := by
  have fresh : ∀ j, Call.Buffer ⟨.status1, 0x2000, [], none, none⟩ j →
      ¬ Call.Buffer ⟨.status0, 0x1000, [], none, none⟩ j := by
    intro j given other
    have second : Call.base ⟨.status1, 0x2000, [], none, none⟩ = 0x800 := by decide
    have first : Call.base ⟨.status0, 0x1000, [], none, none⟩ = 0x400 := by decide
    unfold Call.Buffer at given other
    rw [second] at given
    rw [first] at other
    simp only [List.length_nil] at given other
    omega
  have started : Run (mailboxRuns (Fin 2) 8) _ _ := .start (waitingWords_started [])
  have called := Run.next started (@MailboxStep.call _ _ 8 _ 0 0x1000 [] none rfl (by decide) rfl
    fun _ _ live => absurd rfl live)
  have ready := Run.next called (.status1 (c := 0) rfl (by decide))
  have sent := Run.next ready (.write1 (c := 0) rfl)
  have called' := Run.next sent (@MailboxStep.call _ _ 8 _ 1 0x2000 [] none rfl (by decide) rfl
    (by
      intro d other _
      obtain rfl : d = 0 := by omega
      exact fresh))
  have ready' := Run.next called' (.status1 (c := 1) rfl (by decide))
  have sent' := Run.next ready' (.write1 (c := 1) rfl)
  have held := Run.next sent' (.take rfl)
  have answered := Run.next held (@MailboxStep.reply _ _ 8 _ _ [] [] [12, 0x80000000, 0] rfl
    (by decide +kernel))
  have queued := Run.next answered (@MailboxStep.queue _ _ 8 _ _ [] [] rfl)
  have full := Run.next queued (.status0 (c := 1) rfl (by simp))
  have read := Run.next full (.read0 (c := 1) rfl rfl)
  have tested := Run.next read (.test (c := 1) rfl)
  exact ⟨_, _, tested, unsettled (c := 1) rfl ⟨_, List.mem_cons_self, rfl⟩⟩

/-- A word of the tags channel that was waiting before the call is taken for its response. -/
theorem stale_response : ∃ past s, Run (mailboxRuns (Fin 2) 8) past s ∧ ¬ Matched s := by
  have started : Run (mailboxRuns (Fin 2) 8) _ _ := .start (waitingWords_started [8])
  have called := Run.next started (@MailboxStep.call _ _ 8 _ 0 0x1000 [] none rfl (by decide) rfl
    fun _ _ live => absurd rfl live)
  have ready := Run.next called (.status1 (c := 0) rfl (by decide))
  have sent := Run.next ready (.write1 (c := 0) rfl)
  have full := Run.next sent (.status0 (c := 0) rfl (by simp [waitingWords, State.goto, State.setCall]))
  have read := Run.next full (.read0 (c := 0) rfl rfl)
  have tested := Run.next read (.test (c := 0) rfl)
  exact ⟨_, _, tested, unsettled (c := 0) rfl ⟨_, List.mem_cons_self, rfl⟩⟩

end PiKernel.Mailbox
