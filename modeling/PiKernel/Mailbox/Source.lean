import Mathlib.Logic.Function.Basic
import PiKernel.Lib.Transition

/-!
src/rpi-SmartStart.cpp: `mailbox_tag_message` on several cores, the two FIFOs
and VideoCore. Memory is an array of 32-bit words and the same for all
parties; the stacks are RAM below the VideoCore aliases.
-/
namespace PiKernel.Mailbox
open Transition

abbrev Word := BitVec 32

def mbChannelTags : Word := 8

def responseSuccess : Word := 0x80000000

def channelOf (value : Word) : Word := value &&& 0xF

def mailboxWord (channel message : Word) : Word := (message &&& ~~~0xF) ||| channel

def armAddrToGpuAddr (armAddress : Word) : Word := armAddress ||| 0xC0000000

def gpuBuffer (value : Word) : Word := value &&& 0x3FFFFFF0

def Placed (addr : Word) : Prop := gpuBuffer addr = addr

def compose (args : List Word) : List Word :=
  BitVec.ofNat 32 ((args.length + 3) * 4) :: 0 :: (args ++ [0])

inductive Phase where
  | idle
  | status1
  | write1
  | status0
  | read0
  | test
  | copy (i : Nat)
  | returned (result : Bool)
  deriving DecidableEq

/-- A core's call: `responseBuf` is the caller's buffer, `none` for a null
    pointer, and `given` what it held at the call. -/
structure Call where
  phase : Phase
  addr : Word
  args : List Word
  responseBuf : Option (Nat → Word)
  given : Option (Nat → Word)

def Call.base (k : Call) : Nat := k.addr.toNat / 4

def Call.word (k : Call) : Word := mailboxWord mbChannelTags (armAddrToGpuAddr k.addr)

def Call.Buffer (k : Call) (j : Nat) : Prop := k.base ≤ j ∧ j < k.base + (k.args.length + 3)

/-- `origin` is the core whose request the word belongs to; nobody reads it. -/
structure Mail (Core : Type) where
  word : Word
  origin : Option Core

structure State (Core : Type) where
  calls : Core → Call
  mem : Nat → Word
  requests : List (Mail Core)
  taken : List (Mail Core)
  written : List (Mail Core)
  responses : List (Mail Core)
  answer : Core → Option (List Word)

inductive Event (Core : Type) where
  | call (c : Core)
  | status1 (c : Core)
  | write1 (c : Core)
  | status0 (c : Core)
  | read0 (c : Core) (value : Word)
  | test (c : Core)
  | copy (c : Core)
  | leave (c : Core)
  | take
  | reply
  | queue
  | other

def writeWords (mem : Nat → Word) (base : Nat) (words : List Word) : Nat → Word :=
  fun j => if base ≤ j ∧ j < base + words.length then words.getD (j - base) 0 else mem j

variable {Core : Type} [DecidableEq Core]

def State.setCall (s : State Core) (c : Core) (k : Call) : State Core :=
  { s with calls := Function.update s.calls c k }

def State.goto (s : State Core) (c : Core) (phase : Phase) : State Core :=
  s.setCall c { s.calls c with phase := phase }

def afterRead (value : Word) : Phase :=
  if channelOf value = mbChannelTags then .test else .status0

def afterTest (k : Call) (code : Word) : Phase :=
  if code = responseSuccess then
    if k.responseBuf.isSome then .copy 0 else .returned true
  else .returned false

/-- One access of a core or one action of VideoCore. `depth` is the capacity of
    the request FIFO; VideoCore may answer the requests it has taken in any order. -/
inductive MailboxStep (depth : Nat) : State Core → Event Core → State Core → Prop where
  | call {s : State Core} {c : Core} {addr : Word} {args : List Word}
      {buf : Option (Nat → Word)} (idle : (s.calls c).phase = .idle) (short : args.length < 256)
      (placed : Placed addr)
      (fresh : ∀ d, d ≠ c → (s.calls d).phase ≠ .idle →
        ∀ j, Call.Buffer ⟨.status1, addr, args, buf, buf⟩ j → ¬ (s.calls d).Buffer j) :
      MailboxStep depth s (.call c)
        { s.setCall c ⟨.status1, addr, args, buf, buf⟩ with
          mem := writeWords s.mem (addr.toNat / 4) (compose args)
          answer := Function.update s.answer c none }
  | status1 {s : State Core} {c : Core} (here : (s.calls c).phase = .status1)
      (space : s.requests.length < depth) :
      MailboxStep depth s (.status1 c) (s.goto c .write1)
  | write1 {s : State Core} {c : Core} (here : (s.calls c).phase = .write1) :
      MailboxStep depth s (.write1 c) { s.goto c .status0 with
        requests := s.requests ++ [⟨(s.calls c).word, some c⟩] }
  -- another core may have filled the FIFO since its status was read
  | writeLost {s : State Core} {c : Core} (here : (s.calls c).phase = .write1)
      (full : depth ≤ s.requests.length) :
      MailboxStep depth s (.write1 c) (s.goto c .status0)
  | status0 {s : State Core} {c : Core} (here : (s.calls c).phase = .status0)
      (some : s.responses ≠ []) :
      MailboxStep depth s (.status0 c) (s.goto c .read0)
  | read0 {s : State Core} {c : Core} {m : Mail Core} {rest : List (Mail Core)}
      (here : (s.calls c).phase = .read0) (front : s.responses = m :: rest) :
      MailboxStep depth s (.read0 c m.word) { s.goto c (afterRead m.word) with responses := rest }
  -- another core may have emptied the FIFO since its status was read
  | readEmpty {s : State Core} {c : Core} {value : Word} (here : (s.calls c).phase = .read0)
      (empty : s.responses = []) :
      MailboxStep depth s (.read0 c value) (s.goto c (afterRead value))
  | test {s : State Core} {c : Core} (here : (s.calls c).phase = .test) :
      MailboxStep depth s (.test c)
        (s.goto c (afterTest (s.calls c) (s.mem ((s.calls c).base + 1))))
  | copy {s : State Core} {c : Core} {i : Nat} (here : (s.calls c).phase = .copy i)
      (more : i < (s.calls c).args.length) :
      MailboxStep depth s (.copy c) (s.setCall c { s.calls c with
        phase := .copy (i + 1)
        responseBuf := (s.calls c).responseBuf.map fun f =>
          Function.update f i (s.mem ((s.calls c).base + (2 + i))) })
  | copied {s : State Core} {c : Core} {i : Nat} (here : (s.calls c).phase = .copy i)
      (last : ¬ i < (s.calls c).args.length) :
      MailboxStep depth s (.copy c) (s.goto c (.returned true))
  | leave {s : State Core} {c : Core} {result : Bool}
      (here : (s.calls c).phase = .returned result) :
      MailboxStep depth s (.leave c) (s.goto c .idle)
  | take {s : State Core} {m : Mail Core} {rest : List (Mail Core)}
      (front : s.requests = m :: rest) :
      MailboxStep depth s .take { s with requests := rest, taken := s.taken ++ [m] }
  -- the reply fills the buffer whose size the first word gives
  | reply {s : State Core} {m : Mail Core} {before after : List (Mail Core)} {words : List Word}
      (held : s.taken = before ++ m :: after)
      (size : words.length = (s.mem ((gpuBuffer m.word).toNat / 4)).toNat / 4) :
      MailboxStep depth s .reply { s with
        taken := before ++ after, written := s.written ++ [m]
        mem := writeWords s.mem ((gpuBuffer m.word).toNat / 4) words
        answer := fun c => if m.origin = some c then some words else s.answer c }
  | queue {s : State Core} {m : Mail Core} {before after : List (Mail Core)}
      (held : s.written = before ++ m :: after) :
      MailboxStep depth s .queue { s with
        written := before ++ after, responses := s.responses ++ [m] }
  | other {s : State Core} {value : Word} (channel : channelOf value ≠ mbChannelTags) :
      MailboxStep depth s .other { s with responses := s.responses ++ [⟨value, none⟩] }

/-- Nobody is in a call and VideoCore has nothing to do; the response FIFO may
    hold any words. -/
structure Started (s : State Core) : Prop where
  idle : ∀ c, (s.calls c).phase = .idle
  requests : s.requests = []
  taken : s.taken = []
  written : s.written = []
  responses : ∀ m ∈ s.responses, m.origin = none

def mailboxRuns (Core : Type) [DecidableEq Core] (depth : Nat) :
    System (State Core) (Event Core) where
  init := Started
  step := MailboxStep depth

def Outstanding (s : State Core) (c : Core) : Prop :=
  ∃ m ∈ s.requests ++ (s.taken ++ s.written), gpuBuffer m.word = (s.calls c).addr

structure Answered (s : State Core) (c : Core) (result : Bool) : Prop where
  settled : ¬ Outstanding s c
  judged : ∃ reply, s.answer c = some reply ∧
    (result = true ↔ reply[1]? = some responseSuccess) ∧
    (result = true → ∀ f, (s.calls c).responseBuf = some f →
      ∀ i < (s.calls c).args.length, reply[2 + i]? = some (f i))
  untouched : result = false → (s.calls c).responseBuf = (s.calls c).given

def Matched (s : State Core) : Prop :=
  ∀ c result, (s.calls c).phase = .returned result → Answered s c result

/-- A word of the tags channel is taken from the FIFO only by the core whose
    request it answers. -/
def Paired (s : State Core) : Event Core → Prop
  | .read0 c value => channelOf value = mbChannelTags →
      ∃ m rest, s.responses = m :: rest ∧ m.origin = some c
  | _ => True

end PiKernel.Mailbox
