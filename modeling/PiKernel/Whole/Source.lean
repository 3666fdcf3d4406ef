import PiKernel.Lib.Parts
import PiKernel.Boot.Source
import PiKernel.Console.Source

/-!
The kernel of tests/t0.cpp and tests/t1.cpp from reset to its end: `kernel_init`
with what it prints, and the tests' `kernelMain`, on `n + 1` cores. Every access
of the heap and to the barriers, every character, lock and access to the counter
is a step of its own.
-/
namespace PiKernel.Whole
open Program Transition Interleaving Boot Console
open HeapModel (newBarrier)

abbrev KernelI (n : Nat) : Interface := Both (BootI n) ConsoleI
abbrev KernelM (n : Nat) := Prog (KernelI n)

section Program
variable {n : Nat}

def boot {α : Type} (p : BootM n α) : KernelM n α := onLeft p

def console {α : Type} (q : ConsoleM α) : KernelM n α := onRight q

def printfNoLock (fmt : String) (va : List Arg) : ConsoleM Unit := format fmt va

def heapRange (b : Board) : ConsoleM Unit :=
  printfNoLock "| heap range 0x%x 0x%x\n" [.word b.heapStart, .word (b.heapStart + b.heapBytes)]

/-- The heap's model has the call that prints as an operation without effect; here
    its characters are put out too. -/
def heapInit (b : Board) : KernelM n Unit := do
  console (heapRange b)
  boot (onHeap (HeapModel.heapInit b.heapStart b.heapBytes))

def initPrimary (b : Board) : KernelM n Unit := do
  boot (perform .uartInit)
  boot (perform .initPrintf)
  boot (perform (.mmuSetupPagetable b.placement b.vcReply))
  heapInit b
  boot (perform .heapReady)
  boot (perform (.storeStarting (← boot (onHeap (newBarrier (n + 1))))))
  boot (perform (.storeStopping (← boot (onHeap (newBarrier (n + 1))))))
  boot (perform .storeSmpInitDone)
  boot (perform .storeCoresAwoken)

def kernelMain : KernelM n Unit := do
  boot (perform .enterMain)
  console (critical work)
  boot (perform .returnMain)

def kernelInit (b : Board) (c : Fin (n + 1)) : KernelM n Unit := do
  if c.val = 0 then
    initPrimary b
    boot (wakeUpCores (secondaries n))
  boot (perform .mmuEnable)
  boot (sync (← boot (perform .loadStarting)))
  kernelMain
  boot (sync (← boot (perform .loadStopping)))

/-- A core from its reset on: the firmware holds all but core 0. -/
def coreCode (b : Board) (c : Fin (n + 1)) : KernelM n Unit :=
  if c.val = 0 then kernelInit b c
  else do
    boot (perform .held)
    kernelInit b c

end Program

abbrev Memory (n : Nat) := Boot.Shared n × Console.Shared (Fin (n + 1))

def kernelCores (n : Nat) (b : Board) :
    System (Threads (Fin (n + 1)) (KernelI n) (Memory n)) (Fin (n + 1)) where
  init S := Reset S.mem.1 ∧ S.mem.2 = .fresh ∧ S.code = coreCode b ∧ S.phase = fun _ => .arm
  step := ThreadStep (fun c => bothExec (bootExec c) (consoleExec c)) (Sum.elim Spins Waits)

end PiKernel.Whole
