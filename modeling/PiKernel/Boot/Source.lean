import Mathlib.Data.List.FinRange
import PiKernel.Lib.Interleaving
import PiKernel.Heap.Source
import PiKernel.Mmu.Source

/-!
`kernel_init` of src/kernel.cpp on `n + 1` cores, with `Barrier` of
include/atomic.h and `wake_up_cores` of src/boot.S. Every access of the heap
is a step of its own; the routines that touch nothing shared are one step each.
-/
namespace PiKernel.Boot
open Program Transition Interleaving HeapModel Mmu

structure Board where
  heapStart : Nat
  heapBytes : Nat
  placement : Placement
  vcReply : Option Nat

inductive BootOp (n : Nat) where
  | held
  | uartInit
  | initPrintf
  | mmuSetupPagetable (p : Placement) (reply : Option Nat)
  | heap (o : HeapOp)
  | heapReady
  | storeStarting (p : Int)
  | storeStopping (p : Int)
  | loadStarting
  | loadStopping
  | storeSmpInitDone
  | storeCoresAwoken
  | storeEntry (c : Fin (n + 1))
  | sev
  | mmuEnable
  | addFetch (p d : Int)
  | awaitZero (p : Int)
  | enterMain
  | returnMain

@[reducible] def BootOp.Res {n : Nat} : BootOp n → Type
  | .heap o => o.Res
  | .loadStarting | .loadStopping | .addFetch _ _ => Int
  | _ => Unit

abbrev BootI (n : Nat) : Interface := ⟨BootOp n, BootOp.Res⟩
abbrev BootM (n : Nat) := Prog (BootI n)

section Program
variable {n : Nat}

def perform (o : BootOp n) : BootM n o.Res := @call (BootI n) o

def onHeap {α : Type} (p : HeapM α) : BootM n α := p.hoist fun o => perform (.heap o)

/-- `counter.add_fetch(-1); while (counter.get() != 0) iAmStuckInALoop(false);` -/
def sync (it : Int) : BootM n Unit := do
  let _ ← perform (.addFetch it (-1))
  perform (.awaitZero it)

def kernelMain : BootM n Unit := do
  perform .enterMain
  perform .returnMain

def wakeUpCores : List (Fin (n + 1)) → BootM n Unit
  | [] => perform .sev
  | c :: others => do
    perform (.storeEntry c)
    wakeUpCores others

def secondaries (n : Nat) : List (Fin (n + 1)) := (List.finRange n).map Fin.succ

/-- The branch of core 0, with `n + 1` for the 4 of the source. -/
def initPrimary (b : Board) : BootM n Unit := do
  perform .uartInit
  perform .initPrintf
  perform (.mmuSetupPagetable b.placement b.vcReply)
  onHeap (heapInit b.heapStart b.heapBytes)
  perform .heapReady
  perform (.storeStarting (← onHeap (newBarrier (n + 1))))
  perform (.storeStopping (← onHeap (newBarrier (n + 1))))
  perform .storeSmpInitDone
  perform .storeCoresAwoken

def kernelInit (b : Board) (c : Fin (n + 1)) : BootM n Unit := do
  if c = 0 then
    initPrimary b
    wakeUpCores (secondaries n)
  perform .mmuEnable
  sync (← perform .loadStarting)
  kernelMain
  sync (← perform .loadStopping)

/-- A core from its reset on: the firmware holds all but core 0. -/
def coreCode (b : Board) (c : Fin (n + 1)) : BootM n Unit :=
  if c = 0 then kernelInit b c
  else do
    perform .held
    kernelInit b c

end Program

inductive Milestone where
  | mmuEnable
  | arrive (p : Int)
  | enterMain
  | returnMain
  deriving DecidableEq

/-- `log`, newest first, is what each core has done so far; no code reads it. -/
structure Shared (n : Nat) where
  heap : Heap
  starting : Int
  stopping : Int
  uart : Bool
  printf : Bool
  tables : Option Tables
  heapReady : Bool
  smpInitDone : Bool
  coresAwoken : Bool
  entry : Fin (n + 1) → Bool
  log : Fin (n + 1) → List Milestone

variable {n : Nat}

def Shared.note (s : Shared n) (c : Fin (n + 1)) (m : Milestone) : Shared n :=
  { s with log := Function.update s.log c (m :: s.log c) }

/-- One operation of core `c`; a spin that is not over yet stands still. -/
def bootExec (c : Fin (n + 1)) : Exec (BootI n) (Shared n)
  | .held, s => if s.entry c then some ((), s) else none
  | .uartInit, s => some ((), { s with uart := true })
  | .initPrintf, s => some ((), { s with printf := true })
  | .mmuSetupPagetable p reply, s =>
    some ((), { s with tables := some (Mmu.mmuSetupPagetable p reply) })
  | .heap o, s => (heapExec o s.heap).map fun out => (out.1, { s with heap := out.2 })
  | .heapReady, s => some ((), { s with heapReady := true })
  | .storeStarting p, s => some ((), { s with starting := p })
  | .storeStopping p, s => some ((), { s with stopping := p })
  | .loadStarting, s => some (s.starting, s)
  | .loadStopping, s => some (s.stopping, s)
  | .storeSmpInitDone, s => some ((), { s with smpInitDone := true })
  | .storeCoresAwoken, s => some ((), { s with coresAwoken := true })
  | .storeEntry d, s => some ((), { s with entry := Function.update s.entry d true })
  | .sev, s => some ((), s)
  | .mmuEnable, s => some ((), s.note c .mmuEnable)
  | .addFetch p d, s =>
    let x := (s.heap.bytes p 4 + d) % 2 ^ 32
    some (x, { s with heap := s.heap.storeBytes p 4 x }.note c (.arrive p))
  | .awaitZero p, s => if s.heap.bytes p 4 = 0 then some ((), s) else none
  | .enterMain, s => some ((), s.note c .enterMain)
  | .returnMain, s => some ((), s.note c .returnMain)

def Spins : BootOp n → Prop
  | .held | .awaitZero _ => True
  | _ => False

structure Reset (s : Shared n) : Prop where
  heap : s.heap.avail = 0 ∧ s.heap.coresAwoken = false
  starting : s.starting = 0
  stopping : s.stopping = 0
  uart : s.uart = false
  printf : s.printf = false
  tables : s.tables = none
  heapReady : s.heapReady = false
  smpInitDone : s.smpInitDone = false
  coresAwoken : s.coresAwoken = false
  entry : ∀ c, s.entry c = false
  log : ∀ c, s.log c = []

def bootCores (n : Nat) (b : Board) :
    System (Threads (Fin (n + 1)) (BootI n) (Shared n)) (Fin (n + 1)) where
  init S := Reset S.mem ∧ S.code = coreCode b ∧ S.phase = fun _ => .arm
  step := ThreadStep bootExec Spins

end PiKernel.Boot
