import PiKernel.Lib.Privilege
import PiKernel.Boot.Memzero

/-!
src/boot.S instruction by instruction, as src/linker.ld puts it at 0x80000, with
`memzero` of src/mm.S and `pickKernelStack` of src/kernel.cpp. The addresses
that the linker chooses are a `Layout`; `pickKernelStack` is C code, of which
only a whole call is seen.
-/
namespace PiKernel.Assembly
open Privilege Transition
open Arm64 (Word Memory)

def sectionSize : Word := 0x200000

def lowMemory : Word := 0x400000

def hcrValue : Word := 1 <<< 31

def spsrValue : Word := 7 <<< 6 ||| 5 <<< 0

def entry : Word := 0x80000

def bootEnd : Nat := 0x80998

/-- The end of the heap that src/linker.ld reserves behind .bss. -/
def heapEnd (bssEnd : Word) : Nat := (bssEnd.toNat + 15) / 16 * 16 + 0x100000

/-- What the linker decides, of a kernel that ends below 4 MB with its heap. `frame` is the
    stack that a call of `pickKernelStack` uses. -/
structure Layout where
  memzero : Word
  kernelInit : Word
  excHandler : Word
  pickKernelStack : Word
  bssStart : Word
  bssEnd : Word
  smpInitDone : Word
  stacksAt : Word
  frame : Nat
  memzeroBehind : bootEnd ≤ memzero.toNat ∧ memzero.toNat + 16 ≤ bssStart.toNat
  pickBehind : bootEnd ≤ pickKernelStack.toNat
  pickApart : pickKernelStack.toNat < memzero.toNat ∨ memzero.toNat + 16 ≤ pickKernelStack.toNat
  aligned : bssStart.toNat % 16 = 0
  inBss : bssStart.toNat ≤ smpInitDone.toNat ∧ smpInitDone.toNat < bssEnd.toNat
  stacksInBss : bssStart.toNat ≤ stacksAt.toNat ∧ stacksAt.toNat + 4 * 32768 ≤ bssEnd.toNat
  room : heapEnd bssEnd + frame ≤ lowMemory.toNat

/-- The address of instruction `k` of src/boot.S. -/
def line (k : Nat) : Word := entry + BitVec.ofNat 64 (4 * k)

def procHang : Word := line 4
def master : Word := line 6
def el1Entry : Word := line 27
def secondary : Word := line 36
def setupEl1ForSecondary : Word := line 44
def secondaryKernelMain : Word := line 66
def wakeUpCores : Word := line 68

/-- `.align 11` -/
def vectors : Word := 0x80800

def startCode : List Instr :=
  [.mrs 0 .mpidrEl1, .andImm 0 0 0xFF, .cbz 0 master, .b procHang]

def procHangCode : List Instr := [.wfe, .b procHang]

def masterCode : List Instr :=
  [.mov 0 lowMemory, .msr .spEl1 (some 0),
   -- the counter timers for level 1
   .mrs 0 .cnthctlEl2, .orrImm 0 0 3, .msr .cnthctlEl2 (some 0), .msr .cntvoffEl2 none,
   -- no coprocessor traps
   .mov 0 0x33FF, .msr .cptrEl2 (some 0), .msr .hstrEl2 none,
   .mrs 0 .cpacrEl1, .orrImm 0 0 (0b01 <<< 20), .msr .cpacrEl1 (some 0),
   .mov 0 hcrValue, .msr .hcrEl2 (some 0), .mov 0 vectors, .msr .vbarEl1 (some 0),
   .mov 0 0x3c4, .msr .spsrEl2 (some 0), .mov 0 el1Entry, .msr .elrEl2 (some 0), .eret]

def el1EntryCode (l : Layout) : List Instr :=
  [.mov 0 l.bssStart, .mov 1 l.bssEnd, .sub 1 1 0, .bl l.memzero,
   .movSpImm lowMemory, .bl l.pickKernelStack, .movSp 0, .bl l.kernelInit, .b procHang]

def secondaryCode (l : Layout) : List Instr :=
  [.mrs 0 .mpidrEl1, .andImm 0 0 0xFF, .mov 1 sectionSize, .mul 1 1 0, .addImm 1 1 lowMemory,
   .movSp 1, .bl l.pickKernelStack, .movSp 0]

def setupEl1ForSecondaryCode : List Instr :=
  [.mrs 0 .mpidrEl1, .andImm 0 0 0xFF, .mov 1 sectionSize, .mul 1 1 0, .addImm 1 1 lowMemory,
   .msr .spEl1 (some 1),
   .mrs 0 .cnthctlEl2, .orrImm 0 0 3, .msr .cnthctlEl2 (some 0), .msr .cntvoffEl2 none,
   .mov 0 0x33FF, .msr .cptrEl2 (some 0), .msr .hstrEl2 none,
   .mov 0 (3 <<< 20), .msr .cpacrEl1 (some 0), .mov 0 hcrValue, .msr .hcrEl2 (some 0),
   .mov 0 spsrValue, .msr .spsrEl2 (some 0), .mov 0 secondaryKernelMain, .msr .elrEl2 (some 0),
   .eret]

def secondaryKernelMainCode (l : Layout) : List Instr := [.bl l.kernelInit, .b procHang]

def wakeUpCoresCode : List Instr :=
  [.mov 0 0, .mov 0 secondary, .mov 1 0xe0, .str 0 1, .mov 1 0xe8, .str 0 1, .mov 1 0xf0, .str 0 1,
   .sev, .ret]

def bootCode (l : Layout) : List Instr :=
  startCode ++ procHangCode ++ masterCode ++ el1EntryCode l ++ secondaryCode l ++
    setupEl1ForSecondaryCode ++ secondaryKernelMainCode l ++ wakeUpCoresCode

def vectorCode (l : Layout) (e : Exception) : List Instr :=
  [.mov 0 (BitVec.ofNat 64 e.toNat), .mrs 1 .esrEl1, .mrs 2 .elrEl1, .mrs 3 .spsrEl1,
   .mrs 4 .farEl1, .b l.excHandler]

def vectorTable (l : Layout) (a : Word) : Option Instr :=
  [Exception.synchronous, .irq, .fiq, .serror].findSome? fun e =>
    listing (vectors + BitVec.ofNat 64 (0x80 * e.toNat)) (vectorCode l e) a

def image (l : Layout) (a : Word) : Option Instr :=
  if a.toNat < bootEnd then (listing entry (bootCode l) a).or (vectorTable l a)
  else listing l.memzero (Memzero.memzero.map (.user l.memzero)) a

def getCoreID (s : State) : Nat := (s.sys .mpidrEl1 &&& 0xFF).toNat

/-- `&stacks.forCPU(smpInitDone ? getCoreID() : 0).bytes[Stack::BYTES]` -/
def pickKernelStack (l : Layout) (smpInitDone : Bool) (core : Nat) : Word :=
  l.stacksAt + BitVec.ofNat 64 ((if smpInitDone then core else 0) * 32768 + 8 * 4096)

def Below (sp : Word) (frame : Nat) (a : Word) : Prop := (sp - 1 - a).toNat < frame

/-- A call of the compiled `pickKernelStack`, by the procedure call standard. -/
structure Picks (l : Layout) (s t : State) : Prop where
  pc : t.pc = s.x 30
  result : t.x 0 = pickKernelStack l (decide (s.mem l.smpInitDone ≠ 0)) (getCoreID s)
  level : t.level = s.level
  spSel : t.spSel = s.spSel
  daif : t.daif = s.daif
  sys : t.sys = s.sys
  mem : ∀ a, ¬ Below s.sp l.frame a → t.mem a = s.mem a

/-- What the boot code relies on in the code outside its image. -/
def Compiled (l : Layout) (outside : State → State → Prop) : Prop :=
  ∀ s, s.pc = l.pickKernelStack → (∃ t, outside s t) ∧ ∀ t, outside s t → Picks l s t

def code (l : Layout) (outside : State → State → Prop) : Code := ⟨image l, outside⟩

section Blocks
variable {l : Layout} {outside : State → State → Prop}

theorem boot_fetch {a : Word} {i : Instr} (here : listing entry (bootCode l) a = some i) :
    image l a = some i := by
  have inside : a.toNat < bootEnd := by
    unfold listing at here
    split at here
    · have index := (List.getElem?_eq_some_iff.mp here).1
      have length : (bootCode l).length = 78 := rfl
      have offset : (a - entry).toNat = (2 ^ 64 - entry.toNat + a.toNat) % 2 ^ 64 :=
        BitVec.toNat_sub a entry
      have start : entry.toNat = 0x80000 := rfl
      have low := a.isLt
      unfold bootEnd
      omega
    · exact absurd here (by simp)
  unfold image
  rw [if_pos inside, here]
  rfl

theorem boot_line {k : Nat} {i : Instr} (here : (bootCode l)[k]? = some i) :
    (code l outside).image (line k) = some i := by
  have index : k < 78 := (List.getElem?_eq_some_iff.mp here).1
  apply boot_fetch
  rw [line, listing_at (by omega)]
  exact here

theorem boot_listed (before block after : List Instr)
    (shape : bootCode l = before ++ (block ++ after)) :
    Listed (code l outside) (line before.length) block := by
  have has : ∀ a i, listing entry (before ++ (block ++ after)) a = some i → image l a = some i := by
    rw [← shape]
    intro a i here
    exact boot_fetch here
  apply listed_block has
  rw [← shape]
  show 4 * 78 < 2 ^ 64
  decide

theorem start_listed : Listed (code l outside) entry (startCode ++ procHangCode) :=
  boot_listed [] _ _ rfl

theorem master_listed : Listed (code l outside) master masterCode :=
  boot_listed (startCode ++ procHangCode) _ (el1EntryCode l ++ secondaryCode l ++
    setupEl1ForSecondaryCode ++ secondaryKernelMainCode l ++ wakeUpCoresCode) rfl

theorem el1Entry_listed : Listed (code l outside) el1Entry (el1EntryCode l) :=
  boot_listed (startCode ++ procHangCode ++ masterCode) _ (secondaryCode l ++
    setupEl1ForSecondaryCode ++ secondaryKernelMainCode l ++ wakeUpCoresCode) rfl

theorem secondary_listed : Listed (code l outside) secondary (secondaryCode l) :=
  boot_listed (startCode ++ procHangCode ++ masterCode ++ el1EntryCode l) _
    (setupEl1ForSecondaryCode ++ secondaryKernelMainCode l ++ wakeUpCoresCode) rfl

theorem setup_listed : Listed (code l outside) setupEl1ForSecondary setupEl1ForSecondaryCode :=
  boot_listed (startCode ++ procHangCode ++ masterCode ++ el1EntryCode l ++ secondaryCode l) _
    (secondaryKernelMainCode l ++ wakeUpCoresCode) rfl

theorem secondaryKernelMain_listed :
    Listed (code l outside) secondaryKernelMain (secondaryKernelMainCode l) :=
  boot_listed (startCode ++ procHangCode ++ masterCode ++ el1EntryCode l ++ secondaryCode l ++
    setupEl1ForSecondaryCode) _ wakeUpCoresCode rfl

theorem wakeUpCores_listed : Listed (code l outside) wakeUpCores wakeUpCoresCode :=
  boot_listed (startCode ++ procHangCode ++ masterCode ++ el1EntryCode l ++ secondaryCode l ++
    setupEl1ForSecondaryCode ++ secondaryKernelMainCode l) _ [] rfl

theorem memzero_placed : Placed (code l outside) l.memzero Memzero.memzero := by
  intro k i here
  have index : k < 4 := (List.getElem?_eq_some_iff.mp here).1
  have behind := l.memzeroBehind
  have low := l.bssStart.isLt
  have address : (l.memzero + BitVec.ofNat 64 (4 * k)).toNat = l.memzero.toNat + 4 * k := by
    rw [BitVec.toNat_add, BitVec.toNat_ofNat]
    omega
  show image l _ = _
  unfold image
  rw [if_neg (by rw [address]; omega), listing_at (by omega), List.getElem?_map, here]
  rfl

theorem pick_absent : image l l.pickKernelStack = none := by
  have behind := l.pickBehind
  have apart := l.pickApart
  have zeroBehind := l.memzeroBehind
  have low := l.bssStart.isLt
  have lowPick := l.pickKernelStack.isLt
  have offset : (l.pickKernelStack - l.memzero).toNat =
      (2 ^ 64 - l.memzero.toNat + l.pickKernelStack.toNat) % 2 ^ 64 := BitVec.toNat_sub _ _
  unfold image listing
  rw [if_neg (by omega)]
  split
  · apply List.getElem?_eq_none
    show 4 ≤ _
    omega
  · rfl

end Blocks

end PiKernel.Assembly
