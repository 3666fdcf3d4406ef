import PiKernel.Lib.Program
import PiKernel.Console.Format

/-!
What the console code of the kernel does, one character, lock operation or
access to the tests' counter a step: src/printf.cpp, src/exec.cpp,
include/critical.h and the `work` of tests/t0.cpp and tests/t1.cpp.
-/
namespace PiKernel.Console
open Program

/-- The two spin locks: `lock` of printf.cpp and `critical_section_lock`. -/
inductive LockId where
  | printf
  | critical
  deriving DecidableEq

inductive ConsoleOp where
  | lock (l : LockId)
  | unlock (l : LockId)
  | putc (c : Char)
  | loadCounter
  | storeCounter (x : Nat)
  | undefined
  | wfi
  | spin
  deriving DecidableEq

def ConsoleOp.Res : ConsoleOp → Type
  | .loadCounter => Nat
  | _ => Unit

abbrev ConsoleI : Interface := ⟨ConsoleOp, ConsoleOp.Res⟩

abbrev ConsoleM := Prog ConsoleI

def lock (l : LockId) : ConsoleM Unit := .op (ConsoleOp.lock l) .ret
def unlock (l : LockId) : ConsoleM Unit := .op (ConsoleOp.unlock l) .ret
def uartPutc (c : Char) : ConsoleM Unit := .op (ConsoleOp.putc c) .ret
def loadCounter : ConsoleM Nat := .op ConsoleOp.loadCounter .ret
def storeCounter (x : Nat) : ConsoleM Unit := .op (ConsoleOp.storeCounter x) .ret
/-- `va_arg` finds no argument of the type it asks for. -/
def undefinedArg : ConsoleM Unit := .op ConsoleOp.undefined .ret
/-- `while (1) wfi` and `while (1)`, which never return. -/
def wfiLoop : ConsoleM Unit := .op ConsoleOp.wfi .ret
def spinLoop : ConsoleM Unit := .op ConsoleOp.spin .ret

def uartPutcWrapper (c : Char) : ConsoleM Unit := do
  if c = '\n' then uartPutc '\r'
  uartPutc c

def putAll : List Char → ConsoleM Unit
  | [] => pure ()
  | c :: out => do
    uartPutcWrapper c
    putAll out

def format (fmt : String) (va : List Arg) : ConsoleM Unit :=
  match tfpFormat fmt va with
  | some out => putAll out
  | none => undefinedArg

def printf (fmt : String) (va : List Arg) : ConsoleM Unit := do
  lock .printf
  format fmt va
  unlock .printf

def panic (fmt : String) (va : List Arg) : ConsoleM Unit := do
  lock .printf
  printf "\n***** KERNEL PANIC *****\n" []
  format fmt va
  printf "\n" []
  unlock .printf
  wfiLoop

structure Exception where
  type : Nat
  esr : Nat
  elr : Nat
  spsr : Nat
  far : Nat

def printType (type : Nat) : ConsoleM Unit :=
  match type with
  | 0 => printf "Synchronous" []
  | 1 => printf "IRQ" []
  | 2 => printf "FIQ" []
  | 3 => printf "SError" []
  | _ => pure ()

def className (ec : Nat) : String :=
  match ec with
  | 0b000000 => "Unknown"
  | 0b000001 => "Trapped WFI/WFE"
  | 0b001110 => "Illegal execution"
  | 0b010101 => "System call"
  | 0b100000 => "Instruction abort, lower EL"
  | 0b100001 => "Instruction abort, same EL"
  | 0b100010 => "Instruction alignment fault"
  | 0b100100 => "Data abort, lower EL"
  | 0b100101 => "Data abort, same EL"
  | 0b100110 => "Stack alignment fault"
  | 0b101100 => "Floating point"
  | _ => "Unknown"

def faultName (status : Nat) : String :=
  match status with
  | 0 => "Address size fault"
  | 1 => "Translation fault"
  | 2 => "Access flag fault"
  | _ => "Permission fault"

def levelName (status : Nat) : String :=
  match status with
  | 0 => " at level 0"
  | 1 => " at level 1"
  | 2 => " at level 2"
  | _ => " at level 3"

def excHandler (e : Exception) : ConsoleM Unit := do
  printType e.type
  printf ": " []
  let ec := e.esr >>> 26
  printf (className ec) []
  if ec = 0b100100 ∨ ec = 0b100101 then
    printf ", " []
    printf (faultName ((e.esr >>> 2) % 4)) []
    printf (levelName (e.esr % 4)) []
  printf ":\n  ESR_EL1 0x%X ELR_EL1 0x%X\n SPSR_EL1 0%xX FAR_EL1 0x%X\n"
    [.word e.esr, .word e.elr, .word e.spsr, .word e.far]
  spinLoop

def work : ConsoleM Unit := do
  printf "*** hello %d\n" [.word (← loadCounter)]
  printf "*** goodbye %d\n" [.word (← loadCounter)]
  storeCounter (((← loadCounter) + 1) % 2 ^ 32)

def critical (work : ConsoleM Unit) : ConsoleM Unit := do
  lock .critical
  work
  unlock .critical

def criticalCalls : Nat → ConsoleM Unit
  | 0 => pure ()
  | n + 1 => do
    critical work
    criticalCalls n

/-- `owner` is the flag of each lock, with the core that set it; `stored` counts
    the stores to the counter and is read by no code. -/
structure Shared (Core : Type) where
  owner : LockId → Option Core
  text : List Char
  counter : Nat
  stored : Nat

variable {Core : Type}

def Shared.own (s : Shared Core) (l : LockId) (holder : Option Core) : Shared Core :=
  { s with owner := Function.update s.owner l holder }

def Shared.write (s : Shared Core) (out : List Char) : Shared Core :=
  { s with text := s.text ++ out }

/-- One operation of core `c`; `none` where it stands still. -/
def consoleExec (c : Core) : Exec ConsoleI (Shared Core)
  | .lock l, s =>
    match s.owner l with
    | some _ => none
    | none => some ((), s.own l (some c))
  | .unlock l, s => some ((), s.own l none)
  | .putc ch, s => some ((), s.write [ch])
  | .loadCounter, s => some (s.counter, s)
  | .storeCounter x, s => some ((), { s with counter := x, stored := s.stored + 1 })
  | .undefined, _ | .wfi, _ | .spin, _ => none

def Waits (o : ConsoleOp) : Prop := ∃ l, o = .lock l

def Shared.fresh : Shared Core := ⟨fun _ => none, [], 0, 0⟩

/-- What the terminal receives for the characters handed to `putf`. -/
def cooked (out : List Char) : List Char :=
  out.flatMap fun c => if c = '\n' then ['\r', '\n'] else [c]

@[simp] theorem own_text (s : Shared Core) (l : LockId) (holder : Option Core) :
    (s.own l holder).text = s.text := rfl

@[simp] theorem own_same (s : Shared Core) (l : LockId) (holder : Option Core) :
    (s.own l holder).owner l = holder := by
  simp [Shared.own]

@[simp] theorem own_counter (s : Shared Core) (l : LockId) (holder : Option Core) :
    (s.own l holder).counter = s.counter := rfl

@[simp] theorem write_text (s : Shared Core) (out : List Char) :
    (s.write out).text = s.text ++ out := rfl

@[simp] theorem write_owner (s : Shared Core) (out : List Char) :
    (s.write out).owner = s.owner := rfl

@[simp] theorem write_counter (s : Shared Core) (out : List Char) :
    (s.write out).counter = s.counter := rfl

@[simp] theorem write_write (s : Shared Core) (out more : List Char) :
    (s.write out).write more = s.write (out ++ more) := by
  simp [Shared.write]

theorem own_other (s : Shared Core) {l m : LockId} (other : m ≠ l) (holder : Option Core) :
    (s.own l holder).owner m = s.owner m := by
  simp [Shared.own, other]

theorem lock_free {c : Core} {l : LockId} {s : Shared Core} (free : s.owner l = none) :
    consoleExec c (.lock l) s = some ((), s.own l (some c)) := by
  simp only [consoleExec, free]
  rfl

theorem lock_taken {c d : Core} {l : LockId} {s : Shared Core} (taken : s.owner l = some d) :
    consoleExec c (.lock l) s = none := by
  simp only [consoleExec, taken]

theorem own_write_back {s : Shared Core} {l : LockId} (free : s.owner l = none) (c : Core)
    (out : List Char) : ((s.own l (some c)).write out).own l none = s.write out := by
  have back : Function.update s.owner l none = s.owner := by
    rw [← free]
    exact Function.update_eq_self l s.owner
  simp only [Shared.own, Shared.write, Function.update_idem, back]

@[simp] theorem cooked_nil : cooked [] = [] := rfl

theorem cooked_cons (c : Char) (out : List Char) : cooked (c :: out) = cooked [c] ++ cooked out := by
  simp [cooked]

theorem exec_state {c : Core} {o : ConsoleOp} {s t t' : Shared Core} {r r' : o.Res}
    (result : consoleExec c o s = some (r, t)) (known : consoleExec c o s = some (r', t')) :
    t = t' :=
  congrArg Prod.snd (Option.some.inj (result.symm.trans known))

/-- Who owns a lock after an operation; an exchange succeeds on a free lock only. -/
theorem exec_owner {c : Core} {o : ConsoleOp} {s t : Shared Core} {r : o.Res} (l : LockId)
    (result : consoleExec c o s = some (r, t)) : (o = .lock l → s.owner l = none) ∧
      t.owner l = if o = .lock l then some c else if o = .unlock l then none else s.owner l := by
  cases o with
  | lock m =>
    cases held : s.owner m with
    | some d =>
      rw [lock_taken held] at result
      exact absurd result (by simp)
    | none =>
      obtain rfl := exec_state result (lock_free held)
      by_cases same : m = l
      · subst same
        simp [held]
      · have other : l ≠ m := fun equal => same equal.symm
        simp [own_other s other, same]
  | unlock m =>
    obtain rfl := exec_state result rfl
    by_cases same : m = l
    · subst same
      simp
    · have other : l ≠ m := fun equal => same equal.symm
      simp [own_other s other, same]
  | putc ch =>
    obtain rfl := exec_state result rfl
    simp
  | loadCounter =>
    obtain rfl := exec_state result rfl
    simp
  | storeCounter x =>
    obtain rfl := exec_state result rfl
    simp
  | undefined => exact absurd result (by simp [consoleExec])
  | wfi => exact absurd result (by simp [consoleExec])
  | spin => exact absurd result (by simp [consoleExec])

theorem exec_text {c : Core} {o : ConsoleOp} {s t : Shared Core} {r : o.Res}
    (result : consoleExec c o s = some (r, t)) : s.text <+: t.text := by
  cases o with
  | lock l =>
    cases held : s.owner l with
    | some d =>
      rw [lock_taken held] at result
      exact absurd result (by simp)
    | none =>
      obtain rfl := exec_state result (lock_free held)
      exact List.prefix_refl _
  | unlock l =>
    obtain rfl := exec_state result rfl
    exact List.prefix_refl _
  | putc ch =>
    obtain rfl := exec_state result rfl
    exact List.prefix_append _ _
  | loadCounter =>
    obtain rfl := exec_state result rfl
    exact List.prefix_refl _
  | storeCounter x =>
    obtain rfl := exec_state result rfl
    exact List.prefix_refl _
  | undefined => exact absurd result (by simp [consoleExec])
  | wfi => exact absurd result (by simp [consoleExec])
  | spin => exact absurd result (by simp [consoleExec])

end PiKernel.Console
