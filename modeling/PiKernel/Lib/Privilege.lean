import PiKernel.Lib.Arm64
import PiKernel.Lib.Transition

/-!
A64 system code: the instructions with which a core moves between its exception
levels, and the exceptions it takes. The registers and the memory are those of
`Arm64`, whose instructions are instructions here too. A core runs an image;
code outside the image is a relation between the states before and after a call.
-/
namespace PiKernel.Privilege
open Arm64 (Word Reg Memory Flags)
open Transition

instance regCount : NeZero 31 := ⟨by decide⟩

inductive Level where
  | el0
  | el1
  | el2
  deriving DecidableEq

def Level.toNat : Level → Nat
  | .el0 => 0
  | .el1 => 1
  | .el2 => 2

inductive SysReg where
  | mpidrEl1
  | spEl0
  | spEl1
  | spEl2
  | cpacrEl1
  | vbarEl1
  | spsrEl1
  | elrEl1
  | esrEl1
  | farEl1
  | sctlrEl1
  | tcrEl1
  | mairEl1
  | ttbr0El1
  | ttbr1El1
  | cnthctlEl2
  | cntvoffEl2
  | cptrEl2
  | hstrEl2
  | hcrEl2
  | spsrEl2
  | elrEl2
  deriving DecidableEq

def SysReg.owner : SysReg → Level
  | .mpidrEl1 | .spEl0 | .cpacrEl1 | .vbarEl1 | .spsrEl1 | .elrEl1 | .esrEl1 | .farEl1
  | .sctlrEl1 | .tcrEl1 | .mairEl1 | .ttbr0El1 | .ttbr1El1 => .el1
  | _ => .el2

inductive Instr where
  | mov (dst : Reg) (value : Word)
  | mrs (dst : Reg) (src : SysReg)
  | msr (dst : SysReg) (src : Option Reg)
  | andImm (dst src : Reg) (imm : Word)
  | orrImm (dst src : Reg) (imm : Word)
  | orr (dst src other : Reg)
  | addImm (dst src : Reg) (imm : Word)
  | sub (dst src other : Reg)
  | mul (dst src other : Reg)
  | movSp (src : Reg)
  | movSpImm (imm : Word)
  | str (src base : Reg)
  | dsb
  | isb
  | wfe
  | sev
  | b (target : Word)
  | cbz (src : Reg) (target : Word)
  | bl (target : Word)
  | ret
  | eret
  | user (base : Word) (i : Arm64.Instr)

/-- `spSel` is set where a level uses its own stack pointer; `daif` are the masks. -/
structure State where
  pc : Word
  x : Reg → Word
  flags : Flags
  level : Level
  spSel : Bool
  daif : BitVec 4
  sys : SysReg → Word
  mem : Memory

def State.spReg (s : State) : SysReg :=
  if s.spSel then
    match s.level with
    | .el0 => .spEl0
    | .el1 => .spEl1
    | .el2 => .spEl2
  else .spEl0

theorem spReg_congr {s t : State} (level : t.level = s.level) (spSel : t.spSel = s.spSel) :
    t.spReg = s.spReg := by
  unfold State.spReg
  rw [spSel, level]

def State.sp (s : State) : Word := s.sys s.spReg

def State.read (s : State) : Option Reg → Word
  | none => 0
  | some r => s.x r

def State.set (s : State) (r : Reg) (w : Word) : State :=
  { s with pc := s.pc + 4, x := Function.update s.x r w }

def State.setSys (s : State) (r : SysReg) (w : Word) : State :=
  { s with pc := s.pc + 4, sys := Function.update s.sys r w }

def storeWord (mem : Memory) (p w : Word) : Memory :=
  fun a => if (a - p).toNat < 8 then (w >>> (8 * (a - p).toNat)).truncate 8 else mem a

/-- The eight bytes of `w`, the lowest first. -/
def Holds (mem : Memory) (p w : Word) : Prop :=
  ∀ k < 8, mem (p + BitVec.ofNat 64 k) = (w >>> (8 * k)).truncate 8

theorem storeWord_holds (mem : Memory) (p w : Word) : Holds (storeWord mem p w) p w := by
  intro k small
  have offset : (p + BitVec.ofNat 64 k - p).toNat = k := by
    rw [BitVec.add_comm, BitVec.add_sub_cancel, BitVec.toNat_ofNat]
    omega
  unfold storeWord
  rw [offset, if_pos small]

theorem storeWord_other {mem : Memory} {p w a : Word} (fits : p.toNat + 8 ≤ 2 ^ 64)
    (other : a.toNat < p.toNat ∨ p.toNat + 8 ≤ a.toNat) : storeWord mem p w a = mem a := by
  have low := a.isLt
  have offset : (a - p).toNat = (2 ^ 64 - p.toNat + a.toNat) % 2 ^ 64 := BitVec.toNat_sub a p
  apply if_neg
  omega

theorem holds_store {mem : Memory} {p q v w : Word} (holds : Holds mem p v)
    (fitsP : p.toNat + 8 ≤ 2 ^ 64) (fitsQ : q.toNat + 8 ≤ 2 ^ 64)
    (apart : p.toNat + 8 ≤ q.toNat ∨ q.toNat + 8 ≤ p.toNat) : Holds (storeWord mem q w) p v := by
  intro k small
  have address : (p + BitVec.ofNat 64 k).toNat = p.toNat + k := by
    rw [BitVec.toNat_add, BitVec.toNat_ofNat]
    omega
  rw [storeWord_other fitsQ (by omega)]
  exact holds k small

theorem holds_unique {mem : Memory} {p v w : Word} (first : Holds mem p v) (second : Holds mem p w) :
    v = w := by
  apply BitVec.eq_of_getLsbD_eq
  intro i high
  have byte := (first (i / 8) (by omega)).symm.trans (second (i / 8) (by omega))
  have bit := congrArg (fun b => BitVec.getLsbD b (i % 8)) byte
  have whole : 8 * (i / 8) + i % 8 = i := by omega
  simpa [Nat.mod_lt, whole] using bit

def modeOf (spsr : Word) : Option (Level × Bool) :=
  match (spsr.truncate 5 : BitVec 5).toNat with
  | 0x0 => some (.el0, false)
  | 0x4 => some (.el1, false)
  | 0x5 => some (.el1, true)
  | 0x8 => some (.el2, false)
  | 0x9 => some (.el2, true)
  | _ => none

def daifOf (spsr : Word) : BitVec 4 := spsr.extractLsb' 6 4

def flagsOf (spsr : Word) : Flags := ⟨spsr.getLsbD 31, spsr.getLsbD 30, spsr.getLsbD 28⟩

def returnRegs : Level → Option (SysReg × SysReg)
  | .el0 => none
  | .el1 => some (.spsrEl1, .elrEl1)
  | .el2 => some (.spsrEl2, .elrEl2)

/-- `none` where the return is not allowed: no higher level, no other mode. -/
def State.eret (s : State) : Option State :=
  match returnRegs s.level with
  | none => none
  | some (spsr, elr) =>
    match modeOf (s.sys spsr) with
    | none => none
    | some (level, spSel) =>
      if level.toNat ≤ s.level.toNat then some { s with
        pc := s.sys elr, level, spSel
        daif := daifOf (s.sys spsr), flags := flagsOf (s.sys spsr) }
      else none

theorem eret_eq {s : State} {spsr elr : SysReg} {level : Level} {spSel : Bool}
    (regs : returnRegs s.level = some (spsr, elr))
    (mode : modeOf (s.sys spsr) = some (level, spSel)) (lower : level.toNat ≤ s.level.toNat) :
    s.eret = some { s with
      pc := s.sys elr, level, spSel
      daif := daifOf (s.sys spsr), flags := flagsOf (s.sys spsr) } := by
  unfold State.eret
  simp only [regs, mode, if_pos lower]

inductive Exception where
  | synchronous
  | irq
  | fiq
  | serror
  deriving DecidableEq

def Exception.toNat : Exception → Nat
  | .synchronous => 0
  | .irq => 1
  | .fiq => 2
  | .serror => 3

/-- Bits of HCR_EL2 that take an exception to level 2: TGE, and IMO, FMO or AMO. -/
def routedAway (hcr : Word) : Exception → Bool
  | .synchronous => hcr.getLsbD 27
  | .irq => hcr.getLsbD 27 || hcr.getLsbD 4
  | .fiq => hcr.getLsbD 27 || hcr.getLsbD 3
  | .serror => hcr.getLsbD 27 || hcr.getLsbD 5

def State.vector (s : State) (e : Exception) : Word :=
  let group : Nat := if s.level = .el0 then 0x400 else if s.spSel then 0x200 else 0
  s.sys .vbarEl1 + BitVec.ofNat 64 (group + 0x80 * e.toNat)

/-- A saved state that returns to `s`; its other bits are free. -/
structure Saves (s : State) (spsr : Word) : Prop where
  mode : modeOf spsr = some (s.level, s.spSel)
  daif : daifOf spsr = s.daif
  flags : flagsOf spsr = s.flags

structure Syndrome where
  esr : Word
  spsr : Word
  far : Word

def State.take (s : State) (e : Exception) (y : Syndrome) : State :=
  { s with
    pc := s.vector e, level := .el1, spSel := true, daif := 15
    sys := Function.update (Function.update (Function.update (Function.update s.sys
      .spsrEl1 y.spsr) .elrEl1 s.pc) .esrEl1 y.esr) .farEl1 y.far }

def State.toUser (s : State) (base : Word) : Arm64.State :=
  ⟨(s.pc - base).toNat / 4, s.x, s.flags, s.mem⟩

def State.putUser (s : State) (base : Word) (u : Arm64.State) : State :=
  { s with pc := base + BitVec.ofNat 64 (4 * u.pc), x := u.x, flags := u.flags, mem := u.mem }

/-- `none` is an instruction the level may not execute. A wait may end at any time. -/
def Instr.exec : Instr → State → Option State
  | .mov dst value, s => some (s.set dst value)
  | .mrs dst src, s => if src.owner.toNat ≤ s.level.toNat then some (s.set dst (s.sys src)) else none
  | .msr dst src, s =>
    if dst.owner.toNat ≤ s.level.toNat then some (s.setSys dst (s.read src)) else none
  | .andImm dst src imm, s => some (s.set dst (s.x src &&& imm))
  | .orrImm dst src imm, s => some (s.set dst (s.x src ||| imm))
  | .orr dst src other, s => some (s.set dst (s.x src ||| s.x other))
  | .addImm dst src imm, s => some (s.set dst (s.x src + imm))
  | .sub dst src other, s => some (s.set dst (s.x src - s.x other))
  | .mul dst src other, s => some (s.set dst (s.x src * s.x other))
  | .movSp src, s => some (s.setSys s.spReg (s.x src))
  | .movSpImm imm, s => some (s.setSys s.spReg imm)
  | .str src base, s => some { s with
      pc := s.pc + 4, mem := storeWord s.mem (s.x base) (s.x src) }
  | .dsb, s => some { s with pc := s.pc + 4 }
  | .isb, s => some { s with pc := s.pc + 4 }
  | .wfe, s => some { s with pc := s.pc + 4 }
  | .sev, s => some { s with pc := s.pc + 4 }
  | .b target, s => some { s with pc := target }
  | .cbz src target, s => some { s with pc := if s.x src = 0 then target else s.pc + 4 }
  | .bl target, s => some { s with pc := target, x := Function.update s.x 30 (s.pc + 4) }
  | .ret, s => some { s with pc := s.x 30 }
  | .eret, s => s.eret
  | .user base i, s =>
    match i.exec (s.toUser base) with
    | none => some { s with pc := s.x 30 }
    | some u => some (s.putUser base u)

def Instr.falls : Instr → Bool
  | .b _ | .cbz _ _ | .bl _ | .ret | .eret | .user _ _ => false
  | _ => true

/-- An image is what can be fetched; `outside` are whole calls of other code. -/
structure Code where
  image : Word → Option Instr
  outside : State → State → Prop

inductive Step (c : Code) : State → State → Prop where
  | exec {s t : State} {i : Instr} (here : c.image s.pc = some i) (effect : i.exec s = some t) :
      Step c s t
  | call {s t : State} (absent : c.image s.pc = none) (result : c.outside s t) : Step c s t

def core (c : Code) (s : State) : System State Unit where
  init t := t = s
  step t _ u := Step c t u

theorem step_exec {c : Code} {s t : State} {i : Instr} (here : c.image s.pc = some i)
    (step : Step c s t) : i.exec s = some t := by
  cases step with
  | exec fetched result =>
    obtain rfl : _ = i := Option.some.inj (fetched.symm.trans here)
    exact result
  | call absent result => exact absurd (absent.symm.trans here) (by simp)

theorem inevitable_exec {c : Code} {r s t : State} {P : State → Prop} {i : Instr}
    (here : c.image s.pc = some i) (effect : i.exec s = some t)
    (rest : Inevitable (core c r) P t) : Inevitable (core c r) P s := by
  refine .later ⟨(), t, .exec here effect⟩ ?_
  intro _ u step
  obtain rfl : u = t := Option.some.inj ((step_exec here step).symm.trans effect)
  exact rest

theorem inevitable_call {c : Code} {r s : State} {P : State → Prop}
    (absent : c.image s.pc = none) (returns : ∃ t, c.outside s t)
    (rest : ∀ t, c.outside s t → Inevitable (core c r) P t) : Inevitable (core c r) P s := by
  obtain ⟨t, result⟩ := returns
  refine .later ⟨(), t, .call absent result⟩ ?_
  intro _ u step
  cases step with
  | exec here effect => exact absurd (absent.symm.trans here) (by simp)
  | call absent result => exact rest u result

theorem falls_pc {i : Instr} {s t : State} (falls : i.falls = true) (effect : i.exec s = some t) :
    t.pc = s.pc + 4 := by
  cases i <;> simp only [Instr.falls, Bool.false_eq_true] at falls <;>
    simp only [Instr.exec, Option.some.injEq, Option.ite_none_right_eq_some] at effect
  all_goals first
    | exact congrArg State.pc effect.symm
    | exact congrArg State.pc effect.2.symm

def execAll : List Instr → State → Option State
  | [], s => some s
  | i :: is, s => (i.exec s).bind (execAll is)

theorem execAll_pc {is : List Instr} {s t : State} (straight : is.all Instr.falls = true)
    (effect : execAll is s = some t) : t.pc = s.pc + BitVec.ofNat 64 (4 * is.length) := by
  induction is generalizing s with
  | nil =>
    obtain rfl : s = t := Option.some.inj effect
    exact (BitVec.add_zero _).symm
  | cons i is ih =>
    rw [List.all_cons, Bool.and_eq_true] at straight
    cases first : i.exec s with
    | none =>
      rw [execAll, first] at effect
      exact absurd effect (by simp)
    | some u =>
      rw [execAll, first] at effect
      rw [ih straight.2 effect, falls_pc straight.1 first, List.length_cons, Nat.mul_add,
        Nat.add_comm, BitVec.ofNat_add, BitVec.add_assoc]
      rfl

def Instr.target : Instr → Option Reg
  | .mov dst _ | .mrs dst _ | .andImm dst _ _ | .orrImm dst _ _ | .orr dst _ _ | .addImm dst _ _
  | .sub dst _ _ | .mul dst _ _ => some dst
  | .bl _ => some 30
  | .user _ i => i.target
  | _ => none

theorem exec_keeps {i : Instr} {s t : State} {r : Reg} (falls : i.falls = true)
    (other : i.target ≠ some r) (effect : i.exec s = some t) : t.x r = s.x r := by
  have written : ∀ dst, i.target = some dst → ∀ w, (s.set dst w).x r = s.x r := fun dst same w =>
    Function.update_of_ne (fun here => other (by rw [same, here])) _ _
  cases i with
  | mrs dst src =>
    simp only [Instr.exec, Option.ite_none_right_eq_some, Option.some.injEq] at effect
    rw [← effect.2]
    exact written dst rfl _
  | msr dst src =>
    simp only [Instr.exec, Option.ite_none_right_eq_some, Option.some.injEq] at effect
    rw [← effect.2]
    rfl
  | mov dst | andImm dst | orrImm dst | orr dst | addImm dst | sub dst | mul dst =>
    obtain rfl := Option.some.inj effect
    exact written dst rfl _
  | movSp | movSpImm | str | dsb | isb | wfe | sev =>
    obtain rfl := Option.some.inj effect
    rfl
  | b | cbz | bl | ret | eret | user => exact absurd falls (by simp [Instr.falls])

theorem execAll_keeps {is : List Instr} {s t : State} {r : Reg} (straight : is.all Instr.falls = true)
    (others : ∀ i ∈ is, i.target ≠ some r) (effect : execAll is s = some t) : t.x r = s.x r := by
  induction is generalizing s with
  | nil =>
    obtain rfl : s = t := Option.some.inj effect
    rfl
  | cons i is ih =>
    rw [List.all_cons, Bool.and_eq_true] at straight
    obtain ⟨u, first, effect⟩ := Option.bind_eq_some_iff.mp effect
    rw [ih straight.2 (fun j member => others j (List.mem_cons_of_mem _ member)) effect,
      exec_keeps straight.1 (others i List.mem_cons_self) first]

def Listed (c : Code) (a : Word) : List Instr → Prop
  | [] => True
  | i :: is => c.image a = some i ∧ Listed c (a + 4) is

/-- Code without branches takes all its steps. -/
theorem inevitable_straight {c : Code} {is js : List Instr} {r s t : State} {P : State → Prop}
    (listed : Listed c s.pc (is ++ js)) (straight : is.all Instr.falls = true)
    (effect : execAll is s = some t) (rest : Listed c t.pc js → Inevitable (core c r) P t) :
    Inevitable (core c r) P s := by
  induction is generalizing s with
  | nil =>
    obtain rfl : s = t := Option.some.inj effect
    exact rest listed
  | cons i is ih =>
    rw [List.all_cons, Bool.and_eq_true] at straight
    cases first : i.exec s with
    | none =>
      rw [execAll, first] at effect
      exact absurd effect (by simp)
    | some u =>
      rw [execAll, first] at effect
      refine inevitable_exec listed.1 first (ih ?_ straight.2 effect)
      rw [falls_pc straight.1 first]
      exact listed.2

def listing (base : Word) (is : List Instr) (a : Word) : Option Instr :=
  if (a - base).toNat % 4 = 0 then is[(a - base).toNat / 4]? else none

theorem listing_at {base : Word} {is : List Instr} {k : Nat} (small : 4 * k < 2 ^ 64) :
    listing base is (base + BitVec.ofNat 64 (4 * k)) = is[k]? := by
  have offset : (base + BitVec.ofNat 64 (4 * k) - base).toNat = 4 * k := by
    rw [BitVec.add_comm, BitVec.add_sub_cancel, BitVec.toNat_ofNat, Nat.mod_eq_of_lt small]
  have index : 4 * k / 4 = k := by omega
  unfold listing
  rw [offset, index, if_pos (Nat.mul_mod_right 4 k)]

theorem listed_lines {c : Code} {base : Word} {is : List Instr}
    (lines : ∀ k i, is[k]? = some i → c.image (base + BitVec.ofNat 64 (4 * k)) = some i) :
    Listed c base is := by
  induction is generalizing base with
  | nil => trivial
  | cons i is ih =>
    refine ⟨?_, ih fun k j here => ?_⟩
    · have first := lines 0 i rfl
      rwa [Nat.mul_zero, BitVec.add_zero] at first
    · have moved : base + 4 + BitVec.ofNat 64 (4 * k) = base + BitVec.ofNat 64 (4 * (k + 1)) := by
        rw [Nat.mul_add, Nat.add_comm, BitVec.ofNat_add, BitVec.add_assoc]
        rfl
      rw [moved]
      exact lines (k + 1) j here

theorem listed_block {c : Code} {base : Word} {before block after : List Instr}
    (has : ∀ a i, listing base (before ++ (block ++ after)) a = some i → c.image a = some i)
    (small : 4 * (before ++ (block ++ after)).length < 2 ^ 64) :
    Listed c (base + BitVec.ofNat 64 (4 * before.length)) block := by
  apply listed_lines
  intro k i here
  have index : k < block.length := (List.getElem?_eq_some_iff.mp here).1
  rw [List.length_append, List.length_append] at small
  have moved : base + BitVec.ofNat 64 (4 * before.length) + BitVec.ofNat 64 (4 * k) =
      base + BitVec.ofNat 64 (4 * (before.length + k)) := by
    rw [Nat.mul_add, BitVec.ofNat_add, BitVec.add_assoc]
  rw [moved]
  apply has
  rw [listing_at (by omega), List.getElem?_append_right (by omega), Nat.add_sub_cancel_left,
    List.getElem?_append_left index]
  exact here

def Placed (c : Code) (base : Word) (code : List Arm64.Instr) : Prop :=
  ∀ k i, code[k]? = some i → c.image (base + BitVec.ofNat 64 (4 * k)) = some (.user base i)

theorem toUser_putUser {s : State} {base : Word} {u : Arm64.State} (small : 4 * u.pc < 2 ^ 64) :
    (s.putUser base u).toUser base = u := by
  have offset : base + BitVec.ofNat 64 (4 * u.pc) - base = BitVec.ofNat 64 (4 * u.pc) := by
    rw [BitVec.add_comm, BitVec.add_sub_cancel]
  unfold State.putUser State.toUser
  simp only [offset, BitVec.toNat_ofNat, Nat.mod_eq_of_lt small, Nat.mul_div_cancel_left u.pc
    (by omega : 0 < 4)]

/-- A call of `Arm64` code that returns is a call here, back at x30. -/
theorem inevitable_user {c : Code} {base : Word} {code : List Arm64.Instr} {r s : State}
    {u v : Arm64.State} {P : State → Prop} (placed : Placed c base code)
    (small : 4 * code.length < 2 ^ 64) (returns : Arm64.Returns code u v)
    (rest : Inevitable (core c r) P { s.putUser base v with pc := v.x 30 }) :
    Inevitable (core c r) P (s.putUser base u) := by
  obtain ⟨fuel, result⟩ := returns
  induction fuel generalizing u with
  | zero => exact absurd result (by simp [Arm64.run])
  | succ fuel ih =>
    cases here : code[u.pc]? with
    | none =>
      simp only [Arm64.run, here] at result
      exact absurd result (by simp)
    | some i =>
      have inside : u.pc < code.length := (List.getElem?_eq_some_iff.mp here).1
      have fetched : c.image (s.putUser base u).pc = some (.user base i) := placed _ i here
      have same : (s.putUser base u).toUser base = u := toUser_putUser (by omega)
      simp only [Arm64.run, here] at result
      cases effect : i.exec u with
      | none =>
        rw [effect] at result
        obtain rfl : u = v := Option.some.inj result
        apply inevitable_exec fetched _ rest
        simp only [Instr.exec, same, effect]
        rfl
      | some w =>
        rw [effect] at result
        refine inevitable_exec fetched ?_ (ih result)
        simp only [Instr.exec, same, effect]
        rfl

end PiKernel.Privilege
