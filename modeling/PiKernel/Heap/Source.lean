import Mathlib
import PiKernel.Lib.Program

/-!
src/heap.cpp. The heap is an array of 64-bit words at address `base`; word
contents and addresses are unbounded integers, `int` values are the signed
low 32 bits of what is stored in them, and `int` arithmetic, whose overflow
is undefined in the source, is exact.
-/
namespace PiKernel.HeapModel
open Program

inductive HeapOp where
  | loadArray (i : Int)
  | storeArray (i x : Int)
  | loadAvail
  | storeAvail (x : Int)
  | loadBase
  | storeBase (p : Nat)
  | loadLen
  | storeLen (n : Int)
  | loadTheLock
  | storeTheLock (p : Int)
  | loadCoresAwoken
  | storeBytes (p : Int) (count : Nat) (x : Int)
  | lock (p : Int)
  | unlock (p : Int)
  | printfNoLock (fmt : String) (args : List Int)
  | panic (fmt : String) (args : List Int)
  deriving DecidableEq

@[reducible] def HeapOp.Res : HeapOp → Type
  | .loadArray _ | .loadAvail | .loadBase | .loadLen | .loadTheLock => Int
  | .loadCoresAwoken => Bool
  | .panic _ _ => Empty
  | _ => Unit

abbrev HeapI : Interface := ⟨HeapOp, HeapOp.Res⟩
abbrev HeapM := Prog HeapI

/-- `coresAwoken` is heap.cpp's own copy: core.h declares the flag `static`, so
    every source file that includes it has one. -/
structure Heap where
  base : Nat
  array : Int → Int
  len : Int
  avail : Int
  theLock : Int
  coresAwoken : Bool

def Heap.store (h : Heap) (i x : Int) : Heap := { h with array := Function.update h.array i x }

def Heap.wordOf (h : Heap) (p : Int) : Int := (p - h.base) / 8

/-- The low bytes of the word a pointer into the heap addresses; every object the
    kernel puts there starts on a word. -/
def Heap.bytes (h : Heap) (p : Int) (count : Nat) : Int := h.array (h.wordOf p) % 256 ^ count

def Heap.storeBytes (h : Heap) (p : Int) (count : Nat) (x : Int) : Heap :=
  h.store (h.wordOf p) (h.array (h.wordOf p) - h.bytes p count + x)

def heapExec : Exec HeapI Heap
  | .loadArray i, h => some (h.array i, h)
  | .storeArray i x, h => some ((), h.store i x)
  | .loadAvail, h => some (h.avail, h)
  | .storeAvail x, h => some ((), { h with avail := x })
  | .loadBase, h => some (h.base, h)
  | .storeBase p, h => some ((), { h with base := p })
  | .loadLen, h => some (h.len, h)
  | .storeLen n, h => some ((), { h with len := n })
  | .loadTheLock, h => some (h.theLock, h)
  | .storeTheLock p, h => some ((), { h with theLock := p })
  | .loadCoresAwoken, h => some (h.coresAwoken, h)
  | .storeBytes p count x, h => some ((), h.storeBytes p count x)
  | .lock p, h => if h.bytes p 1 = 0 then some ((), h.storeBytes p 1 1) else none
  | .unlock p, h => some ((), h.storeBytes p 1 0)
  | .printfNoLock _ _, h => some ((), h)
  | .panic _ _, _ => none

def perform (o : HeapOp) : HeapM o.Res := @call HeapI o

def loadArray (i : Int) : HeapM Int := perform (.loadArray i)
def storeArray (i x : Int) : HeapM Unit := perform (.storeArray i x)
def loadAvail : HeapM Int := perform .loadAvail
def storeAvail (x : Int) : HeapM Unit := perform (.storeAvail x)
def loadBase : HeapM Int := perform .loadBase
def storeBase (p : Nat) : HeapM Unit := perform (.storeBase p)
def loadLen : HeapM Int := perform .loadLen
def storeLen (n : Int) : HeapM Unit := perform (.storeLen n)
def loadTheLock : HeapM Int := perform .loadTheLock
def storeTheLock (p : Int) : HeapM Unit := perform (.storeTheLock p)
def loadCoresAwoken : HeapM Bool := perform .loadCoresAwoken
def storeBytes (p : Int) (count : Nat) (x : Int) : HeapM Unit := perform (.storeBytes p count x)
def lock (it : Int) : HeapM Unit := perform (.lock it)
def unlock (it : Int) : HeapM Unit := perform (.unlock it)
def printfNoLock (fmt : String) (args : List Int) : HeapM Unit := perform (.printfNoLock fmt args)

def panic {α : Type} (fmt : String) (args : List Int) : HeapM α := .op (.panic fmt args) nofun

/-- Conversion of a 64-bit value to `int`: the low 32 bits, read as signed. -/
def asInt (w : Int) : Int := w.bmod (2 ^ 32)

def safe : Int := 0

def abs (x : Int) : Int := if x < 0 then -x else x

def size (i : Int) : HeapM Int := do
  return abs (asInt (← loadArray i))

def headerFromFooter (i : Int) : HeapM Int := do
  return i - (← size i) + 1

def footerFromHeader (i : Int) : HeapM Int := do
  return i + (← size i) - 1

def sanity (i : Int) : HeapM Int := do
  if safe ≠ 0 then
    if i = 0 then return 0
    let len ← loadLen
    if i < 0 ∨ i ≥ len then
      panic "bad header index %d\n" [i]
    let footer ← footerFromHeader i
    if footer < 0 ∨ footer ≥ len then
      panic "bad footer index %d\n" [footer]
    let hv := asInt (← loadArray i)
    let fv := asInt (← loadArray footer)
    if hv ≠ fv then
      panic "bad block at %d, hv:%d fv:%d\n" [i, hv, fv]
  return i

def left (i : Int) : HeapM Int := do
  sanity (← headerFromFooter (i - 1))

def right (i : Int) : HeapM Int := do
  sanity (i + (← size i))

def next (i : Int) : HeapM Int := do
  sanity (asInt (← loadArray (i + 1)))

def prev (i : Int) : HeapM Int := do
  sanity (asInt (← loadArray (i + 2)))

def setNext (i x : Int) : HeapM Unit := storeArray (i + 1) x

def setPrev (i x : Int) : HeapM Unit := storeArray (i + 2) x

def remove (i : Int) : HeapM Unit := do
  let prevIndex ← prev i
  let nextIndex ← next i
  if prevIndex = 0 then
    storeAvail nextIndex
  else
    setNext prevIndex nextIndex
  if nextIndex ≠ 0 then
    setPrev nextIndex prevIndex

def makeAvail (i ints : Int) : HeapM Unit := do
  storeArray i ints
  storeArray (← footerFromHeader i) ints
  setNext i (← loadAvail)
  setPrev i 0
  if (← loadAvail) ≠ 0 then
    setPrev (← loadAvail) i
  storeAvail i

def makeTaken (i ints : Int) : HeapM Unit := do
  storeArray i (-ints)
  storeArray (← footerFromHeader i) (-ints)

def isAvail (i : Int) : HeapM Bool := do
  return decide ((← loadArray i) > 0)

def isTaken (i : Int) : HeapM Bool := do
  return decide ((← loadArray i) < 0)

/-- `if(coresAwoken){ LockGuardP g{theLock}; }`: the guard is destroyed at the
    closing brace, before the heap is touched. -/
def lockGate : HeapM Unit := do
  if ← loadCoresAwoken then
    let it ← loadTheLock
    if it ≠ 0 then lock it
    if it ≠ 0 then unlock it

/-- `size_t` arithmetic wraps at 2^64, the conversion to `int` keeps 32 bits. -/
def mallocUnits (bytes : Nat) : Int :=
  let units := asInt ((((bytes + 7) % 2 ^ 64) / 8 + 2 : Nat) : Int)
  if units < 4 then 4 else units

/-- The search loop; `attempts` is the value of the counter on entry of the body. -/
def search (units : Int) : Nat → Int → Int → Int → HeapM (Int × Int)
  | 0, _, minSize, bestFitIndex => return (minSize, bestFitIndex)
  | attempts + 1, currentIndex, minSize, bestFitIndex => do
    if currentIndex = 0 then
      return (minSize, bestFitIndex)
    else if !(← isAvail currentIndex) then
      panic "block is not available in malloc %p\n" [currentIndex]
    else
      let blockSize ← size currentIndex
      let better := blockSize ≥ units ∧ blockSize < minSize
      let minSize := if better then blockSize else minSize
      let bestFitIndex := if better then currentIndex else bestFitIndex
      if attempts = 0 then
        return (minSize, bestFitIndex)
      else
        search units attempts (← next currentIndex) minSize bestFitIndex

def mallocBody (units : Int) : HeapM Int := do
  let (minSize, bestFitIndex) ← search units 20 (← loadAvail) 0x7FFFFFFF 0
  if bestFitIndex ≠ 0 then
    remove bestFitIndex
    let extra := minSize - units
    if extra ≥ 4 then
      makeTaken bestFitIndex units
      makeAvail (bestFitIndex + units) extra
    else
      makeTaken bestFitIndex minSize
    return (← loadBase) + 8 * (bestFitIndex + 1)
  else
    return 0

def malloc (bytes : Nat) : HeapM Int := do
  if bytes = 0 then
    return 0
  else
    lockGate
    mallocBody (mallocUnits bytes)

/-- The `int` index `free` computes from a pointer: unsigned 64-bit difference,
    divided by 4, minus 1. -/
def freeIndex (base p : Int) : Int := asInt ((p - base) % 2 ^ 64 / 4 - 1)

/-- Lines 210 to 232 of `free`. -/
def freeBlock (p idx : Int) : HeapM Unit := do
  let _ ← sanity idx
  if !(← isTaken idx) then
    panic "freeing free block, p:%x idx:%d\n" [p % 2 ^ 32, idx]
  else
    let sz ← size idx
    let leftIndex ← left idx
    let rightIndex ← right idx
    let mut idx := idx
    let mut sz := sz
    if ← isAvail leftIndex then
      remove leftIndex
      idx := leftIndex
      sz := sz + (← size leftIndex)
    if ← isAvail rightIndex then
      remove rightIndex
      sz := sz + (← size rightIndex)
    makeAvail idx sz

/-- Lines 205 to 232 of `free`, after the two early returns. -/
def freeBody (p : Int) : HeapM Unit := do
  freeBlock p (freeIndex (← loadBase) p)

def free (p : Int) : HeapM Unit := do
  if p = 0 then
    return ()
  else if p = (← loadBase) then
    return ()
  else
    lockGate
    freeBody p

def operatorNew (bytes : Nat) : HeapM Int := do
  let p ← malloc bytes
  if p = 0 then
    panic "out of memory" []
  else
    return p

/-- `new SpinLock()`: one byte, constructed as `taken(false)`. -/
def newSpinLock : HeapM Int := do
  let p ← operatorNew 1
  storeBytes p 1 0
  return p

/-- `new Barrier(counter)`: one 32-bit counter. -/
def newBarrier (counter : Int) : HeapM Int := do
  let p ← operatorNew 4
  storeBytes p 4 counter
  return p

def heapInit (base bytes : Nat) : HeapM Unit := do
  printfNoLock "| heap range 0x%x 0x%x\n" [base, base + bytes]
  storeBase base
  storeLen (bytes / 8 : Nat)
  let len ← loadLen
  makeTaken 0 2
  makeAvail 2 (asInt (len - 4))
  makeTaken (asInt (len - 2)) 2
  storeTheLock (← newSpinLock)

end PiKernel.HeapModel
