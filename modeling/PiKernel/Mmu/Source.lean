import Mathlib.Logic.Function.Basic
import PiKernel.Lib.PageWalk

/-!
The page tables of src/mmu.cpp and the registers that `enable_mmu_tables` of
src/utils.S sets. An array is a function of its index, and the indices of the
stores to `Stage2map1to1` are kept, as nothing in the source checks them.
-/
namespace PiKernel.Mmu
open PageWalk

def level1Blocksize : Nat := 1 <<< 21

def mtDeviceNGnRnE : Nat := 0
def mtDeviceNGnRE : Nat := 1
def mtDeviceGRE : Nat := 2
def mtNormalNC : Nat := 3
def mtNormal : Nat := 4

def mair1Val : Nat :=
  0x00 <<< (mtDeviceNGnRnE * 8) ||| 0x04 <<< (mtDeviceNGnRE * 8) |||
    0x0c <<< (mtDeviceGRE * 8) ||| 0x44 <<< (mtNormalNC * 8) ||| 0xff <<< (mtNormal * 8)

def tcrEl1Val : Nat :=
  0b00 <<< 37 ||| 0b000 <<< 32 ||| 0b10 <<< 30 ||| 0b11 <<< 28 ||| 0b01 <<< 26 ||| 0b01 <<< 24 |||
    0b0 <<< 23 ||| 25 <<< 16 ||| 0b00 <<< 14 ||| 0b11 <<< 12 ||| 0b01 <<< 10 ||| 0b01 <<< 8 |||
    0b0 <<< 7 ||| 25 <<< 0

def entryTypeBlock : Nat := 1
def stage2ShInnerShareable : Nat := 3

structure Descriptor where
  entryType : Nat
  memAttr : Nat
  s2ap : Nat
  sh : Nat
  af : Nat
  reserved11 : Nat
  address : Nat
  reserved48_51 : Nat
  contiguous : Nat
  reserved53 : Nat
  xn : Nat
  reserved55_58 : Nat
  pxnTable : Nat
  xnTable : Nat
  apTable : Nat
  nsTable : Nat

def Descriptor.raw64 (d : Descriptor) : Nat :=
  pack [(2, d.entryType), (4, d.memAttr), (2, d.s2ap), (2, d.sh), (1, d.af), (1, d.reserved11),
    (36, d.address), (4, d.reserved48_51), (1, d.contiguous), (1, d.reserved53), (1, d.xn),
    (4, d.reserved55_58), (1, d.pxnTable), (1, d.xnTable), (2, d.apTable), (1, d.nsTable)]

def Descriptor.zero : Descriptor := ⟨0, 0, 0, 0, 0, 0, 0, 0, 0, 0, 0, 0, 0, 0, 0, 0⟩

/-- The designated initializer of the four stores, up to the memory type. -/
def blockEntry (memAttr sh base : Nat) : Descriptor :=
  { Descriptor.zero with
    entryType := entryTypeBlock
    memAttr := memAttr
    sh := sh
    af := 1
    address := base <<< (21 - 12) }

def ramEntry : Nat → Descriptor := blockEntry mtNormal stage2ShInnerShareable
def vcEntry : Nat → Descriptor := blockEntry mtNormalNC 0
def deviceEntry : Nat → Descriptor := blockEntry mtDeviceNGnRnE 0

structure Tables where
  map1to1 : Nat → Nat
  virtualmap : Nat → Nat
  stage2virtual : Nat → Nat
  stage2map1to1 : Nat → Descriptor
  stage3virtual : Nat → Descriptor
  stores : List Nat

def Tables.zero : Tables :=
  { map1to1 := fun _ => 0
    virtualmap := fun _ => 0
    stage2virtual := fun _ => 0
    stage2map1to1 := fun _ => .zero
    stage3virtual := fun _ => .zero
    stores := [] }

def Tables.store (t : Tables) (i : Nat) (d : Descriptor) : Tables :=
  { t with
    stage2map1to1 := Function.update t.stage2map1to1 i d
    stores := t.stores ++ [i] }

/-- `for (; base < stop; base++) Stage2map1to1[base] = entry`; the loops share `base`. -/
def fill (entry : Nat → Descriptor) (stop base : Nat) (t : Tables) : Nat × Tables :=
  if base < stop then fill entry stop (base + 1) (t.store base (entry base)) else (base, t)
termination_by stop - base

structure Pages (count : Nat) where
  address : Nat
  aligned : 2 ^ 12 ∣ address
  below : address + 2 ^ 12 * count ≤ 2 ^ 48

structure Placement where
  map1to1 : Pages 1
  virtualmap : Pages 1
  stage2virtual : Pages 1
  stage2map1to1 : Pages 2
  stage3virtual : Pages 1

def tableEntry (address : Nat) : Nat := 0x8000000000000000 ||| address ||| 3

/-- `msg[3]` before the loops. `reply` is the VC base the firmware returns there, `none`
    when the mailbox call fails and `msg` keeps its zeros. -/
def vcBlocks (reply : Option Nat) : Nat :=
  match reply with
  | some vcBase => vcBase / level1Blocksize
  | none => 0

def mmuSetupPagetable (p : Placement) (reply : Option Nat) : Tables :=
  let (base, t) := fill ramEntry (vcBlocks reply) 0 .zero
  let (base, t) := fill vcEntry (512 - 8) base t
  let (_, t) := fill deviceEntry 512 base t
  let t := t.store 512 (deviceEntry 512)
  { t with
    map1to1 := Function.update (Function.update t.map1to1
      0 (tableEntry p.stage2map1to1.address)) 1 (tableEntry (p.stage2map1to1.address + 8 * 512))
    stage2virtual := Function.update t.stage2virtual 511 (tableEntry p.stage3virtual.address)
    virtualmap := Function.update t.virtualmap 511 (tableEntry p.stage2virtual.address) }

def mmuEnable (p : Placement) : Regime where
  tcr := tcrEl1Val
  mair := mair1Val
  ttbr0 := p.map1to1.address
  ttbr1 := p.virtualmap.address

/-- The tables are what the walker reads at their places. -/
structure InMemory (p : Placement) (t : Tables) (fetch : Nat → Nat) : Prop where
  map1to1 : ∀ i < 512, fetch (p.map1to1.address + 8 * i) = t.map1to1 i
  virtualmap : ∀ i < 512, fetch (p.virtualmap.address + 8 * i) = t.virtualmap i
  stage2virtual : ∀ i < 512, fetch (p.stage2virtual.address + 8 * i) = t.stage2virtual i
  stage2map1to1 : ∀ i < 1024,
    fetch (p.stage2map1to1.address + 8 * i) = (t.stage2map1to1 i).raw64
  stage3virtual : ∀ i < 512,
    fetch (p.stage3virtual.address + 8 * i) = (t.stage3virtual i).raw64

end PiKernel.Mmu
