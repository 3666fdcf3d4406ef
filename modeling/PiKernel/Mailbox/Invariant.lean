import Mathlib.Data.List.Nodup
import Mathlib.Tactic.IntervalCases
import PiKernel.Mailbox.Source

/-!
What holds while calls of `mailbox_tag_message` are under way. A request is in
one place at a time: the request FIFO, VideoCore's hands or the response FIFO.
Its caller waits for it, and once it is answered the caller's buffer holds the
reply.
-/
namespace PiKernel.Mailbox

theorem gpuBuffer_word {addr : Word} (placed : Placed addr) :
    gpuBuffer (mailboxWord mbChannelTags (armAddrToGpuAddr addr)) = addr := by
  have same : gpuBuffer (mailboxWord mbChannelTags (armAddrToGpuAddr addr)) = gpuBuffer addr := by
    unfold gpuBuffer mailboxWord mbChannelTags armAddrToGpuAddr
    ext i low
    interval_cases i <;> simp
  exact same.trans placed

theorem writeWords_inside (mem : Nat → Word) (base : Nat) {i : Nat} {words : List Word}
    (inside : i < words.length) : words[i]? = some (writeWords mem base words (base + i)) := by
  unfold writeWords
  rw [if_pos (by omega), Nat.add_sub_cancel_left, List.getD_eq_getElem?_getD,
    List.getElem?_eq_getElem inside]
  rfl

theorem writeWords_outside {mem : Nat → Word} {base j : Nat} {words : List Word}
    (outside : ¬ (base ≤ j ∧ j < base + words.length)) : writeWords mem base words j = mem j :=
  if_neg outside

theorem compose_length (args : List Word) : (compose args).length = args.length + 3 := by
  simp [compose]

theorem size_words {n : Nat} (short : n < 256) :
    (BitVec.ofNat 32 ((n + 3) * 4)).toNat / 4 = n + 3 := by
  rw [BitVec.toNat_ofNat, Nat.mod_eq_of_lt (by omega)]
  omega

variable {Core : Type}

def Holds (q : List (Mail Core)) (c : Core) : Prop := ∃ m ∈ q, m.origin = some c

def State.inTransit (s : State Core) : List (Mail Core) :=
  s.requests ++ (s.taken ++ (s.written ++ s.responses))

def origins (s : State Core) : List Core := s.inTransit.filterMap Mail.origin

def Preparing : Phase → Prop
  | .status1 | .write1 => True
  | _ => False

def Awaiting : Phase → Prop
  | .status0 | .read0 => True
  | _ => False

def Judging : Phase → Prop
  | .test | .copy _ | .returned _ => True
  | _ => False

/-- VideoCore's reply is what the buffer of the call holds. -/
def Told (s : State Core) (c : Core) : Prop :=
  ∃ reply, s.answer c = some reply ∧ ∀ i < (s.calls c).args.length + 3,
    reply[i]? = some (s.mem ((s.calls c).base + i))

def CopiedUpTo (s : State Core) (c : Core) (i : Nat) : Prop :=
  ∀ f, (s.calls c).responseBuf = some f → ∀ j < i, f j = s.mem ((s.calls c).base + (2 + j))

def Progress (s : State Core) (c : Core) : Prop :=
  match (s.calls c).phase with
  | .copy i => s.mem ((s.calls c).base + 1) = responseSuccess ∧
      i ≤ (s.calls c).args.length ∧ CopiedUpTo s c i
  | .returned result =>
      (result = true ↔ s.mem ((s.calls c).base + 1) = responseSuccess) ∧
      (result = true → CopiedUpTo s c (s.calls c).args.length) ∧
      (result = false → (s.calls c).responseBuf = (s.calls c).given)
  | _ => (s.calls c).responseBuf = (s.calls c).given

structure CallInv (s : State Core) (c : Core) : Prop where
  placed : Placed (s.calls c).addr
  short : (s.calls c).args.length < 256
  sized : Preparing (s.calls c).phase ∨ Holds s.requests c ∨ Holds s.taken c →
    s.mem (s.calls c).base = BitVec.ofNat 32 (((s.calls c).args.length + 3) * 4)
  told : Judging (s.calls c).phase ∨ Holds s.written c ∨ Holds s.responses c → Told s c
  progress : Progress s c

structure Inv (s : State Core) : Prop where
  unique : (origins s).Nodup
  waiting : ∀ c ∈ origins s, Awaiting (s.calls c).phase
  words : ∀ m ∈ s.inTransit, ∀ c, m.origin = some c → m.word = (s.calls c).word
  ours : ∀ m ∈ s.requests ++ (s.taken ++ s.written), m.origin ≠ none
  apart : ∀ c d, c ≠ d → (s.calls c).phase ≠ .idle → (s.calls d).phase ≠ .idle →
    ∀ j, (s.calls c).Buffer j → ¬ (s.calls d).Buffer j
  call : ∀ c, (s.calls c).phase ≠ .idle → CallInv s c

theorem awaiting_live {phase : Phase} (awaiting : Awaiting phase) : phase ≠ .idle := by
  intro same
  rw [same] at awaiting
  exact awaiting

theorem judging_live {phase : Phase} (judging : Judging phase) : phase ≠ .idle := by
  intro same
  rw [same] at judging
  exact judging

theorem awaiting_only {phase : Phase} (awaiting : Awaiting phase) :
    ¬ Preparing phase ∧ ¬ Judging phase := by
  cases phase with
  | status0 => exact ⟨id, id⟩
  | read0 => exact ⟨id, id⟩
  | _ => exact absurd awaiting id

/-- Before the call has looked at the reply. -/
def Early (phase : Phase) : Prop := Preparing phase ∨ Awaiting phase

theorem early_live {phase : Phase} (early : Early phase) : phase ≠ .idle := by
  intro same
  rw [same] at early
  exact early.elim id id

theorem early_progress {s : State Core} {c : Core} (early : Early (s.calls c).phase) :
    Progress s c ↔ (s.calls c).responseBuf = (s.calls c).given := by
  unfold Progress
  split
  · rename_i phase
    rw [phase] at early
    exact absurd early (not_or.mpr ⟨id, id⟩)
  · rename_i phase
    rw [phase] at early
    exact absurd early (not_or.mpr ⟨id, id⟩)
  · exact Iff.rfl

theorem copying {s : State Core} {c : Core} {i : Nat} (inv : Inv s) (here : (s.calls c).phase = .copy i) :
    Judging (s.calls c).phase ∧ s.mem ((s.calls c).base + 1) = responseSuccess ∧
      i ≤ (s.calls c).args.length ∧ CopiedUpTo s c i := by
  have judging : Judging (s.calls c).phase := by
    rw [here]
    trivial
  have progress := (inv.call c (judging_live judging)).progress
  unfold Progress at progress
  rw [here] at progress
  exact ⟨judging, progress⟩

theorem not_listed {s : State Core} {c : Core} (inv : Inv s)
    (here : ¬ Awaiting (s.calls c).phase) : c ∉ origins s :=
  fun listed => here (inv.waiting c listed)

theorem mem_origins {s : State Core} {c : Core} : c ∈ origins s ↔ Holds s.inTransit c :=
  List.mem_filterMap

theorem holds_append {p q : List (Mail Core)} {c : Core} :
    Holds (p ++ q) c ↔ Holds p c ∨ Holds q c := by
  simp only [Holds, List.mem_append, or_and_right, exists_or]

theorem holds_subset {p q : List (Mail Core)} {c : Core} (included : p ⊆ q) (held : Holds p c) :
    Holds q c := by
  obtain ⟨m, mm, origin⟩ := held
  exact ⟨m, included mm, origin⟩

theorem holds_appended {q : List (Mail Core)} {m : Mail Core} {c : Core}
    (held : Holds (q ++ [m]) c) : Holds q c ∨ m.origin = some c := by
  rcases holds_append.mp held with old | ⟨m', mm, origin⟩
  · exact Or.inl old
  · right
    rwa [← List.mem_singleton.mp mm]

theorem holds_inTransit {s : State Core} {c : Core} : Holds s.inTransit c ↔
    Holds s.requests c ∨ Holds s.taken c ∨ Holds s.written c ∨ Holds s.responses c := by
  simp only [State.inTransit, holds_append]

theorem base_buffer (k : Call) : k.Buffer k.base := by
  unfold Call.Buffer
  omega

theorem inv_matched {s : State Core} (inv : Inv s) : Matched s := by
  intro c result phase
  have live : (s.calls c).phase ≠ .idle := by
    rw [phase]
    exact Phase.noConfusion
  have own := inv.call c live
  have told := own.told (Or.inl (by rw [phase]; trivial))
  have progress := own.progress
  unfold Progress at progress
  rw [phase] at progress
  obtain ⟨judged, copied, untouched⟩ := progress
  obtain ⟨reply, answer, words⟩ := told
  refine ⟨?_, ⟨reply, answer, ?_, ?_⟩, untouched⟩
  · intro outstanding
    obtain ⟨m, mm, buffer⟩ := outstanding
    cases origin : m.origin with
    | none => exact inv.ours m mm origin
    | some d =>
      have transit : m ∈ s.inTransit := by
        simp only [State.inTransit, List.mem_append] at mm ⊢
        tauto
      have listed : d ∈ origins s := mem_origins.mpr ⟨m, transit, origin⟩
      have awaiting := inv.waiting d listed
      have liveD := awaiting_live awaiting
      rw [inv.words m transit d origin, Call.word, gpuBuffer_word (inv.call d liveD).placed]
        at buffer
      by_cases same : d = c
      · rw [same, phase] at awaiting
        exact awaiting
      · apply inv.apart d c same liveD live (s.calls d).base (base_buffer _)
        have bases : (s.calls d).base = (s.calls c).base := by
          unfold Call.base
          rw [buffer]
        rw [bases]
        exact base_buffer _
  · rw [judged, words 1 (by omega), Option.some.injEq]
  · intro success f is i less
    rw [words (2 + i) (by omega), copied success f is i less]

section Frame
variable {s t : State Core} {c : Core}

theorem buffer_index (k : Call) {i : Nat} (inside : i < k.args.length + 3) :
    k.Buffer (k.base + i) := by
  unfold Call.Buffer
  omega

theorem told_frame (told : Told s c) (same : t.calls c = s.calls c)
    (answer : t.answer c = s.answer c) (mem : ∀ j, (s.calls c).Buffer j → t.mem j = s.mem j) :
    Told t c := by
  obtain ⟨reply, replied, words⟩ := told
  refine ⟨reply, answer.trans replied, ?_⟩
  rw [same]
  intro i inside
  rw [mem _ (buffer_index _ inside)]
  exact words i inside

theorem copied_frame {i : Nat} (copied : CopiedUpTo s c i) (inside : i ≤ (s.calls c).args.length)
    (same : t.calls c = s.calls c) (mem : ∀ j, (s.calls c).Buffer j → t.mem j = s.mem j) :
    CopiedUpTo t c i := by
  unfold CopiedUpTo
  rw [same]
  intro f is j less
  rw [mem _ (buffer_index _ (by omega))]
  exact copied f is j less

theorem progress_frame (progress : Progress s c) (same : t.calls c = s.calls c)
    (mem : ∀ j, (s.calls c).Buffer j → t.mem j = s.mem j) : Progress t c := by
  have code := mem _ (buffer_index (s.calls c) (i := 1) (by omega))
  unfold Progress at progress ⊢
  rw [same, code]
  cases phase : (s.calls c).phase with
  | copy i =>
    rw [phase] at progress
    obtain ⟨success, inside, copied⟩ := progress
    exact ⟨success, inside, copied_frame copied inside same mem⟩
  | returned result =>
    rw [phase] at progress
    obtain ⟨judged, copied, untouched⟩ := progress
    exact ⟨judged, fun success => copied_frame (copied success) (le_refl _) same mem, untouched⟩
  | _ =>
    rw [phase] at progress
    exact progress

theorem callInv_frame (inv : CallInv s c) (same : t.calls c = s.calls c)
    (answer : t.answer c = s.answer c) (mem : ∀ j, (s.calls c).Buffer j → t.mem j = s.mem j)
    (asked : Holds t.requests c ∨ Holds t.taken c → Holds s.requests c ∨ Holds s.taken c)
    (replied : Holds t.written c ∨ Holds t.responses c → Holds s.written c ∨ Holds s.responses c) :
    CallInv t c := by
  obtain ⟨placed, short, sized, told, progress⟩ := inv
  refine ⟨same ▸ placed, same ▸ short, ?_, ?_, progress_frame progress same mem⟩
  · rw [same, mem _ (base_buffer _)]
    intro given
    exact sized (given.imp_right asked)
  · rw [same]
    intro given
    exact told_frame (told (given.imp_right replied)) same answer mem

/-- A step that moves or drops words of the FIFOs and changes no call. -/
theorem moved_inv (inv : Inv s) (calls : t.calls = s.calls) (unique : (origins t).Nodup)
    (older : ∀ m ∈ t.inTransit, m.origin ≠ none → m ∈ s.inTransit)
    (pending : t.requests ++ (t.taken ++ t.written) ⊆ s.requests ++ (s.taken ++ s.written))
    (call : ∀ c, (s.calls c).phase ≠ .idle → CallInv t c) : Inv t := by
  refine ⟨unique, ?_, ?_, fun m mm => inv.ours m (pending mm), ?_, ?_⟩
  · intro c listed
    obtain ⟨m, mm, origin⟩ := mem_origins.mp listed
    have before := older m mm (by simp [origin])
    rw [calls]
    exact inv.waiting c (mem_origins.mpr ⟨m, before, origin⟩)
  · intro m mm c origin
    rw [calls]
    exact inv.words m (older m mm (by simp [origin])) c origin
  · rw [calls]
    exact inv.apart
  · rw [calls]
    exact call

theorem quiet_inv (inv : Inv s) (calls : t.calls = s.calls) (mem : t.mem = s.mem)
    (answer : t.answer = s.answer) (unique : (origins t).Nodup)
    (older : ∀ m ∈ t.inTransit, m.origin ≠ none → m ∈ s.inTransit)
    (pending : t.requests ++ (t.taken ++ t.written) ⊆ s.requests ++ (s.taken ++ s.written))
    (asked : ∀ c, Holds t.requests c ∨ Holds t.taken c → Holds s.requests c ∨ Holds s.taken c)
    (replied : ∀ c, Holds t.written c ∨ Holds t.responses c →
      Holds s.written c ∨ Holds s.responses c) : Inv t := by
  apply moved_inv inv calls unique older pending
  intro c live
  exact callInv_frame (inv.call c live) (congrFun calls c) (congrFun answer c)
    (fun j _ => congrFun mem j) (asked c) (replied c)

end Frame
end PiKernel.Mailbox
