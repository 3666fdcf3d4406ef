import PiKernel.Boot.Assembly

/-!
How the cores come to `kernel_init`. Core 0 is the only one that leaves
`proc_hang`; it goes to level 1 with its stack in `stacks` and a second one
for its exceptions, over a .bss of zeros. The others start at `secondary` and
have only the stack of their 2 MB section.
-/
namespace PiKernel.Assembly
open Privilege Transition
open Arm64 (Word Memory)

variable {l : Layout} {outside : State → State → Prop} {r s : State}

/-- What `master` has set up from a state `s` when it comes to its exception return. -/
structure Prepared (s t : State) : Prop where
  pc : t.pc = line 26
  level : t.level = .el2
  elr : t.sys .elrEl2 = el1Entry
  spsr : t.sys .spsrEl2 = 0x3c4
  mem : t.mem = s.mem
  mpidr : t.sys .mpidrEl1 = s.sys .mpidrEl1
  spEl1 : t.sys .spEl1 = lowMemory
  vbar : t.sys .vbarEl1 = vectors
  hcr : t.sys .hcrEl2 = hcrValue
  cpacr : t.sys .cpacrEl1 = s.sys .cpacrEl1 ||| 0b01 <<< 20

theorem master_prepares (here : s.pc = master) (level : s.level = .el2) :
    ∃ t, execAll masterCode.dropLast s = some t ∧ Prepared s t := by
  obtain ⟨pc, x, flags, lv, spSel, daif, sys, mem⟩ := s
  obtain rfl : pc = master := here
  obtain rfl : lv = .el2 := level
  have effect : execAll masterCode.dropLast
    ⟨master, x, flags, .el2, spSel, daif, sys, mem⟩ = some _ := rfl
  have behind : master + BitVec.ofNat 64 (4 * 20) = line 26 := by decide
  exact ⟨_, effect, (execAll_pc rfl effect).trans behind, rfl, rfl, rfl, rfl, rfl, rfl, rfl, rfl, rfl⟩

structure Lowered (s t : State) : Prop where
  pc : t.pc = el1Entry
  level : t.level = .el1
  spSel : t.spSel = false
  daif : t.daif = 15
  mem : t.mem = s.mem
  mpidr : t.sys .mpidrEl1 = s.sys .mpidrEl1
  spEl1 : t.sys .spEl1 = lowMemory
  vbar : t.sys .vbarEl1 = vectors
  hcr : t.sys .hcrEl2 = hcrValue
  cpacr : t.sys .cpacrEl1 = s.sys .cpacrEl1 ||| 0b01 <<< 20

theorem master_lowers (here : s.pc = master) (level : s.level = .el2) :
    Inevitable (core (code l outside) r) (Lowered s) s := by
  obtain ⟨t, effect, ready⟩ := master_prepares here level
  have listed : Listed (code l outside) s.pc (masterCode.dropLast ++ [.eret]) := by
    rw [here]
    exact master_listed
  apply inevitable_straight listed rfl effect
  intro listed
  have regs : returnRegs t.level = some (.spsrEl2, .elrEl2) := by rw [ready.level]; rfl
  have mode : modeOf (t.sys .spsrEl2) = some (.el1, false) := by rw [ready.spsr]; rfl
  have lower : Level.el1.toNat ≤ t.level.toNat := by rw [ready.level]; decide
  refine inevitable_exec listed.1 (eret_eq regs mode lower) (.now ?_)
  exact {
    pc := ready.elr
    level := rfl
    spSel := rfl
    daif := by rw [ready.spsr]; rfl
    mem := ready.mem
    mpidr := ready.mpidr
    spEl1 := ready.spEl1
    vbar := ready.vbar
    hcr := ready.hcr
    cpacr := ready.cpacr }

theorem primary_leaves (here : s.pc = entry) (level : s.level = .el2) (primary : getCoreID s = 0) :
    Inevitable (core (code l outside) r) (Lowered s) s := by
  obtain ⟨pc, x, flags, lv, spSel, daif, sys, mem⟩ := s
  obtain rfl : pc = entry := here
  obtain rfl : lv = .el2 := level
  have zero : sys .mpidrEl1 &&& 0xFF = 0 := BitVec.eq_of_toNat_eq primary
  have listed : Listed (code l outside) entry (startCode.take 2 ++
    .cbz 0 master :: .b procHang :: procHangCode) := start_listed
  apply inevitable_straight listed rfl rfl
  intro listed
  apply inevitable_exec listed.1 rfl
  refine inevitable_mono (master_lowers (if_pos zero) rfl) fun t lowered => ?_
  exact ⟨lowered.pc, lowered.level, lowered.spSel, lowered.daif, lowered.mem, lowered.mpidr,
    lowered.spEl1, lowered.vbar, lowered.hcr, lowered.cpacr⟩

def bssBytes (l : Layout) : Nat := l.bssEnd.toNat - l.bssStart.toNat

def clearedMem (l : Layout) (mem : Memory) : Memory :=
  Arm64.zeroed mem l.bssStart.toNat (8 * Memzero.passes (bssBytes l))

theorem bss_room (l : Layout) :
    l.bssStart.toNat + 8 * Memzero.passes (bssBytes l) ≤ l.bssEnd.toNat + 7 := by
  have inside := l.inBss
  unfold Memzero.passes bssBytes
  omega

theorem clearedMem_bss {mem : Memory} {a : Word} (low : l.bssStart.toNat ≤ a.toNat)
    (high : a.toNat < l.bssEnd.toNat) : clearedMem l mem a = 0 := by
  apply if_pos
  refine ⟨low, ?_⟩
  unfold Memzero.passes bssBytes
  omega

theorem clearedMem_other {mem : Memory} {a : Word}
    (other : a.toNat < l.bssStart.toNat ∨ l.bssEnd.toNat + 8 ≤ a.toNat) :
    clearedMem l mem a = mem a := by
  have room := bss_room l
  apply if_neg
  omega

structure Cleared (l : Layout) (s t : State) : Prop where
  level : t.level = s.level
  spSel : t.spSel = s.spSel
  daif : t.daif = s.daif
  sys : t.sys = s.sys
  mem : t.mem = clearedMem l s.mem

theorem memzero_clears (here : s.pc = l.memzero) (x0 : s.x 0 = l.bssStart)
    (x1 : s.x 1 = l.bssEnd - l.bssStart) :
    Inevitable (core (code l outside) r) (fun t => t.pc = s.x 30 ∧ Cleared l s t) s := by
  have inside := l.inBss
  have room := l.room
  unfold heapEnd at room
  have low : lowMemory.toNat = 0x400000 := rfl
  have size : s.x 1 = BitVec.ofNat 64 (bssBytes l) := by
    rw [x1]
    apply BitVec.eq_of_toNat_eq
    have difference := BitVec.toNat_sub l.bssEnd l.bssStart
    have bound := l.bssEnd.isLt
    rw [BitVec.toNat_ofNat]
    unfold bssBytes
    omega
  have entered : Memzero.Entry ⟨0, s.x, s.flags, s.mem⟩ l.bssStart (bssBytes l) := ⟨rfl, x0, size⟩
  have fits := bss_room l
  have small : bssBytes l < 2 ^ 63 := by
    unfold bssBytes
    omega
  obtain ⟨v, returns, mem⟩ := Memzero.memzero_returns _ entered small (by omega)
  have link : v.x 30 = s.x 30 := Arm64.returns_keeps (by decide) returns
  have same : s.putUser l.memzero ⟨0, s.x, s.flags, s.mem⟩ = s := by
    obtain ⟨pc, x, flags, lv, spSel, daif, sys, mem⟩ := s
    obtain rfl : pc = l.memzero := here
    unfold State.putUser
    simp
  have placed : Placed (code l outside) l.memzero Memzero.memzero := memzero_placed
  have called := inevitable_user (r := r) (s := s) (P := fun t => t.pc = s.x 30 ∧ Cleared l s t)
    placed (by decide) returns (.now ⟨link, rfl, rfl, rfl, rfl, mem⟩)
  rw [same] at called
  exact called

structure Stacked (l : Layout) (s t : State) : Prop where
  pc : t.pc = s.pc + 4 + 4
  level : t.level = s.level
  spSel : t.spSel = s.spSel
  daif : t.daif = s.daif
  sys : t.sys = Function.update s.sys s.spReg
    (pickKernelStack l (decide (s.mem l.smpInitDone ≠ 0)) (getCoreID s))
  mem : ∀ a, ¬ Below s.sp l.frame a → t.mem a = s.mem a

theorem pick_stacks (compiled : Compiled l outside) {is : List Instr}
    (listed : Listed (code l outside) s.pc (.bl l.pickKernelStack :: .movSp 0 :: is)) :
    Inevitable (core (code l outside) r) (Stacked l s) s := by
  apply inevitable_exec listed.1 rfl
  obtain ⟨returns, all⟩ := compiled
    { s with pc := l.pickKernelStack, x := Function.update s.x 30 (s.pc + 4) } rfl
  apply inevitable_call pick_absent returns
  intro t result
  have picked := all t result
  have back : t.pc = s.pc + 4 := picked.pc
  have spReg : t.spReg = s.spReg := spReg_congr picked.level picked.spSel
  refine inevitable_exec (by rw [back]; exact listed.2.1) rfl (.now ?_)
  exact {
    pc := congrArg (· + 4) back
    level := picked.level
    spSel := picked.spSel
    daif := picked.daif
    sys := by
      show Function.update t.sys t.spReg (t.x 0) = _
      rw [spReg, picked.sys, picked.result]
      rfl
    mem := picked.mem }

/-- Core 0 at its call of `kernel_init`, after a reset in state `s`. -/
structure PrimaryEntry (l : Layout) (s t : State) : Prop where
  pc : t.pc = l.kernelInit
  link : t.x 30 = line 35
  level : t.level = .el1
  spSel : t.spSel = false
  daif : t.daif = 15
  stack : t.sp = pickKernelStack l false 0
  spEl1 : t.sys .spEl1 = lowMemory
  vbar : t.sys .vbarEl1 = vectors
  hcr : t.sys .hcrEl2 = hcrValue
  cpacr : t.sys .cpacrEl1 = s.sys .cpacrEl1 ||| 0b01 <<< 20
  bss : ∀ a, l.bssStart.toNat ≤ a.toNat → a.toNat < l.bssEnd.toNat → t.mem a = 0
  kept : ∀ a, a.toNat < l.bssStart.toNat ∨ l.bssEnd.toNat + 8 ≤ a.toNat →
    ¬ Below lowMemory l.frame a → t.mem a = s.mem a

theorem bss_above_frame {a : Word} (high : a.toNat < l.bssEnd.toNat) :
    ¬ Below lowMemory l.frame a := by
  have room := l.room
  unfold heapEnd at room
  have low : lowMemory.toNat = 0x400000 := rfl
  have top : (lowMemory - 1).toNat = 0x3FFFFF := rfl
  have depth : (lowMemory - 1 - a).toNat = (2 ^ 64 - a.toNat + (lowMemory - 1).toNat) % 2 ^ 64 :=
    BitVec.toNat_sub _ _
  unfold Below
  omega

theorem el1Entry_stack (compiled : Compiled l outside) {u : State} (lowered : Lowered s u) {t : State}
    (here : t.pc = line 31) (cleared : Cleared l u t) :
    Inevitable (core (code l outside) r) (PrimaryEntry l s) t := by
  have listed : Listed (code l outside) t.pc [.movSpImm lowMemory, .bl l.pickKernelStack,
      .movSp 0, .bl l.kernelInit, .b procHang] := by
    rw [here]
    exact el1Entry_listed.2.2.2.2
  have spReg : t.spReg = .spEl0 := by
    unfold State.spReg
    rw [cleared.spSel, lowered.spSel]
    rfl
  apply inevitable_exec listed.1 rfl
  rw [spReg]
  apply inevitable_trans (pick_stacks compiled listed.2)
  intro v stacked
  have fetched : (code l outside).image v.pc = some (.bl l.kernelInit) := by
    rw [stacked.pc]
    exact listed.2.2.2.1
  have notDone : (t.setSys .spEl0 lowMemory).mem l.smpInitDone = 0 := by
    show t.mem l.smpInitDone = 0
    rw [cleared.mem]
    exact clearedMem_bss l.inBss.1 l.inBss.2
  have own : (t.setSys .spEl0 lowMemory).spReg = .spEl0 := spReg
  have sys : v.sys = Function.update (Function.update u.sys .spEl0 lowMemory) .spEl0
      (pickKernelStack l false 0) := by
    rw [stacked.sys, own, notDone, ← cleared.sys]
    rfl
  have sp : (t.setSys .spEl0 lowMemory).sp = lowMemory := by
    unfold State.sp
    rw [own]
    rfl
  have other : ∀ reg, reg ≠ .spEl0 → v.sys reg = u.sys reg := by
    intro reg different
    rw [sys, Function.update_of_ne different, Function.update_of_ne different]
  refine inevitable_exec fetched rfl (.now ?_)
  exact {
    pc := rfl
    link := by
      show v.pc + 4 = _
      rw [stacked.pc]
      show t.pc + 4 + 4 + 4 + 4 = _
      rw [here]
      decide
    level := stacked.level.trans (cleared.level.trans lowered.level)
    spSel := stacked.spSel.trans (cleared.spSel.trans lowered.spSel)
    daif := stacked.daif.trans (cleared.daif.trans lowered.daif)
    stack := by
      show v.sys v.spReg = _
      have chosen : v.spReg = .spEl0 := (spReg_congr stacked.level stacked.spSel).trans own
      rw [chosen, sys, Function.update_self]
    spEl1 := (other _ (by decide)).trans lowered.spEl1
    vbar := (other _ (by decide)).trans lowered.vbar
    hcr := (other _ (by decide)).trans lowered.hcr
    cpacr := (other _ (by decide)).trans lowered.cpacr
    bss := by
      intro a low high
      show v.mem a = 0
      rw [stacked.mem a (by rw [sp]; exact bss_above_frame high)]
      show t.mem a = 0
      rw [cleared.mem]
      exact clearedMem_bss low high
    kept := by
      intro a apart free
      show v.mem a = s.mem a
      rw [stacked.mem a (by rw [sp]; exact free)]
      show t.mem a = s.mem a
      rw [cleared.mem, clearedMem_other apart, lowered.mem] }

theorem primary_enters (compiled : Compiled l outside) (here : s.pc = entry)
    (level : s.level = .el2) (primary : getCoreID s = 0) :
    Inevitable (core (code l outside) s) (PrimaryEntry l s) s := by
  apply inevitable_trans (primary_leaves here level primary)
  intro u lowered
  have listed : Listed (code l outside) u.pc ([.mov 0 l.bssStart, .mov 1 l.bssEnd, .sub 1 1 0] ++
      (.bl l.memzero :: (el1EntryCode l).drop 4)) := by
    rw [lowered.pc]
    exact el1Entry_listed
  apply inevitable_straight listed rfl rfl
  intro listed
  apply inevitable_exec listed.1 rfl
  apply inevitable_trans (memzero_clears rfl rfl rfl)
  rintro t ⟨back, cleared⟩
  refine el1Entry_stack compiled lowered (back.trans ?_) ⟨cleared.level, cleared.spSel, cleared.daif,
    cleared.sys, cleared.mem⟩
  show u.pc + 4 + 4 + 4 + 4 = _
  rw [lowered.pc]
  decide

def sectionTop (s : State) : Word := sectionSize * (s.sys .mpidrEl1 &&& 0xFF) + lowMemory

/-- A core at its call of `kernel_init` that started at `secondary` in state `s`. -/
structure SecondaryEntry (l : Layout) (s t : State) : Prop where
  pc : t.pc = l.kernelInit
  link : t.x 30 = line 67
  level : t.level = .el1
  spSel : t.spSel = true
  daif : t.daif = 7
  stack : t.sp = sectionTop s
  vbar : t.sys .vbarEl1 = s.sys .vbarEl1
  hcr : t.sys .hcrEl2 = hcrValue
  cpacr : t.sys .cpacrEl1 = 3 <<< 20
  mem : ∀ a, ¬ Below (sectionTop s) l.frame a → t.mem a = s.mem a

structure SecondaryPrepared (s t : State) : Prop where
  pc : t.pc = line 65
  level : t.level = .el2
  elr : t.sys .elrEl2 = secondaryKernelMain
  spsr : t.sys .spsrEl2 = spsrValue
  mem : t.mem = s.mem
  spEl1 : t.sys .spEl1 = sectionTop s
  vbar : t.sys .vbarEl1 = s.sys .vbarEl1
  hcr : t.sys .hcrEl2 = hcrValue
  cpacr : t.sys .cpacrEl1 = 3 <<< 20

theorem setup_prepares (here : s.pc = setupEl1ForSecondary) (level : s.level = .el2) :
    ∃ t, execAll setupEl1ForSecondaryCode.dropLast s = some t ∧ SecondaryPrepared s t := by
  obtain ⟨pc, x, flags, lv, spSel, daif, sys, mem⟩ := s
  obtain rfl : pc = setupEl1ForSecondary := here
  obtain rfl : lv = .el2 := level
  have effect : execAll setupEl1ForSecondaryCode.dropLast
    ⟨setupEl1ForSecondary, x, flags, .el2, spSel, daif, sys, mem⟩ = some _ := rfl
  have behind : setupEl1ForSecondary + BitVec.ofNat 64 (4 * 21) = line 65 := by decide
  exact ⟨_, effect, (execAll_pc rfl effect).trans behind, rfl, rfl, rfl, rfl, rfl, rfl, rfl, rfl⟩

theorem setup_enters {u : State} (here : u.pc = setupEl1ForSecondary) (level : u.level = .el2)
    (mpidr : u.sys .mpidrEl1 = s.sys .mpidrEl1) (vbar : u.sys .vbarEl1 = s.sys .vbarEl1)
    (mem : ∀ a, ¬ Below (sectionTop s) l.frame a → u.mem a = s.mem a) :
    Inevitable (core (code l outside) r) (SecondaryEntry l s) u := by
  obtain ⟨t, effect, ready⟩ := setup_prepares here level
  have listed : Listed (code l outside) u.pc (setupEl1ForSecondaryCode.dropLast ++ [.eret]) := by
    rw [here]
    exact setup_listed
  have top : sectionTop u = sectionTop s := by
    unfold sectionTop
    rw [mpidr]
  apply inevitable_straight listed rfl effect
  intro listed
  have regs : returnRegs t.level = some (.spsrEl2, .elrEl2) := by rw [ready.level]; rfl
  have mode : modeOf (t.sys .spsrEl2) = some (.el1, true) := by rw [ready.spsr]; rfl
  have lower : Level.el1.toNat ≤ t.level.toNat := by rw [ready.level]; decide
  apply inevitable_exec listed.1 (eret_eq regs mode lower)
  have call : (code l outside).image (t.sys .elrEl2) = some (.bl l.kernelInit) := by
    rw [ready.elr]
    exact secondaryKernelMain_listed.1
  refine inevitable_exec call rfl (.now ?_)
  exact {
    pc := rfl
    link := by
      show t.sys .elrEl2 + 4 = _
      rw [ready.elr]
      decide
    level := rfl
    spSel := rfl
    daif := by
      show daifOf (t.sys .spsrEl2) = 7
      rw [ready.spsr]
      decide
    stack := ready.spEl1.trans top
    vbar := ready.vbar.trans vbar
    hcr := ready.hcr
    cpacr := ready.cpacr
    mem := by
      intro a free
      show t.mem a = s.mem a
      rw [ready.mem, mem a free] }

theorem spReg_el2 (level : s.level = .el2) : s.spReg = .spEl0 ∨ s.spReg = .spEl2 := by
  unfold State.spReg
  rw [level]
  cases s.spSel with
  | false => exact Or.inl rfl
  | true => exact Or.inr rfl

structure SecondaryStarted (s t : State) : Prop where
  pc : t.pc = line 42
  level : t.level = .el2
  sys : t.sys = Function.update s.sys s.spReg (sectionTop s)
  spReg : t.spReg = s.spReg
  mem : t.mem = s.mem

theorem secondary_starts (here : s.pc = secondary) (level : s.level = .el2) :
    ∃ t, execAll ((secondaryCode l).take 6) s = some t ∧ SecondaryStarted s t := by
  obtain ⟨pc, x, flags, lv, spSel, daif, sys, mem⟩ := s
  obtain rfl : pc = secondary := here
  obtain rfl : lv = .el2 := level
  have effect : execAll ((secondaryCode l).take 6)
    ⟨secondary, x, flags, .el2, spSel, daif, sys, mem⟩ = some _ := rfl
  have behind : secondary + BitVec.ofNat 64 (4 * 6) = line 42 := by decide
  exact ⟨_, effect, (execAll_pc rfl effect).trans behind, rfl, rfl, rfl, rfl⟩

theorem SecondaryStarted.sp {t : State} (started : SecondaryStarted s t) : t.sp = sectionTop s := by
  unfold State.sp
  rw [started.spReg, started.sys, Function.update_self]

/-- From `secondary` every run comes to `kernel_init`. The stack that `pickKernelStack`
    picks there is the one of level 2; no code takes it along to level 1. -/
theorem secondary_enters (compiled : Compiled l outside) (here : s.pc = secondary)
    (level : s.level = .el2) : Inevitable (core (code l outside) s) (SecondaryEntry l s) s := by
  obtain ⟨t, effect, started⟩ := secondary_starts (l := l) here level
  have listed : Listed (code l outside) s.pc ((secondaryCode l).take 6 ++ (secondaryCode l).drop 6) := by
    rw [here]
    exact secondary_listed
  apply inevitable_straight listed rfl effect
  intro listed
  apply inevitable_trans (pick_stacks compiled listed)
  intro u stacked
  have other : ∀ reg, reg ≠ .spEl0 → reg ≠ .spEl2 → u.sys reg = s.sys reg := by
    intro reg first second
    have apart : reg ≠ s.spReg := by
      rcases spReg_el2 level with same | same
      · rw [same]
        exact first
      · rw [same]
        exact second
    rw [stacked.sys, started.spReg, started.sys, Function.update_of_ne apart,
      Function.update_of_ne apart]
  apply setup_enters
  · rw [stacked.pc, started.pc]
    decide
  · exact stacked.level.trans started.level
  · exact other _ (by decide) (by decide)
  · exact other _ (by decide) (by decide)
  · intro a free
    rw [stacked.mem a (by rw [started.sp]; exact free), started.mem]

def linked : Layout where
  memzero := 0x81000
  kernelInit := 0x82000
  excHandler := 0x83000
  pickKernelStack := 0x84000
  bssStart := 0xA0000
  bssEnd := 0xF0000
  smpInitDone := 0xE8000
  stacksAt := 0xB0000
  frame := 64
  memzeroBehind := by decide
  pickBehind := by decide
  pickApart := by decide
  aligned := by decide
  inBss := by decide
  stacksInBss := by decide
  room := by decide

def leaf (l : Layout) (s t : State) : Prop :=
  t = { s with
    pc := s.x 30
    x := Function.update s.x 0
      (pickKernelStack l (decide (s.mem l.smpInitDone ≠ 0)) (getCoreID s)) }

theorem leaf_compiled : Compiled l (leaf l) := by
  intro s _
  refine ⟨⟨_, rfl⟩, ?_⟩
  rintro t rfl
  have first : Function.update s.x 0 (pickKernelStack l (decide (s.mem l.smpInitDone ≠ 0))
      (getCoreID s)) 0 = pickKernelStack l (decide (s.mem l.smpInitDone ≠ 0)) (getCoreID s) :=
    Function.update_self _ _ _
  exact ⟨rfl, first, rfl, rfl, rfl, rfl, fun _ _ => rfl⟩

def powered (id : Word) : State where
  pc := entry
  x := fun _ => 0
  flags := ⟨false, false, false⟩
  level := .el2
  spSel := true
  daif := 15
  sys := fun reg => if reg = .mpidrEl1 then 0x80000000 ||| id else 0
  mem := fun _ => 1

theorem below_iff {sp a : Word} {size : Nat} (fits : size ≤ sp.toNat) :
    Below sp size a ↔ sp.toNat - size ≤ a.toNat ∧ a.toNat < sp.toNat := by
  have low := a.isLt
  have high := sp.isLt
  have depth : (sp - 1 - a).toNat = (2 ^ 64 - a.toNat + (sp - 1).toNat) % 2 ^ 64 := BitVec.toNat_sub _ _
  have top : (sp - 1).toNat = (2 ^ 64 - 1 + sp.toNat) % 2 ^ 64 := BitVec.toNat_sub _ _
  unfold Below
  omega

theorem sectionTop_nat (s : State) : (sectionTop s).toNat = 0x400000 + 0x200000 * getCoreID s := by
  have id : (s.sys .mpidrEl1 &&& 0xFF).toNat ≤ 0xFF := by
    rw [BitVec.toNat_and]
    exact Nat.and_le_right
  have size : sectionSize.toNat = 0x200000 := rfl
  have low : lowMemory.toNat = 0x400000 := rfl
  unfold sectionTop getCoreID
  rw [BitVec.toNat_add, BitVec.toNat_mul, size, low]
  omega

/-- The stacks with which the cores come to `kernel_init`: the one of core 0 is in .bss, the
    one of its exceptions between the heap and 4 MB, and the other cores have theirs from 4 MB
    on, one section each. -/
theorem stacks_apart {t u v u' v' : State} (primary : PrimaryEntry l s t)
    (second : SecondaryEntry l u v) (third : SecondaryEntry l u' v')
    (ids : 0 < getCoreID u ∧ getCoreID u < getCoreID u') (a : Word) :
    (Below t.sp 32768 a → l.bssStart.toNat ≤ a.toNat ∧ a.toNat < l.bssEnd.toNat) ∧
      (Below (t.sys .spEl1) (0x400000 - heapEnd l.bssEnd) a →
        heapEnd l.bssEnd ≤ a.toNat ∧ a.toNat < 0x400000) ∧
      (Below v.sp 0x200000 a → 0x400000 ≤ a.toNat ∧ ¬ Below v'.sp 0x200000 a) ∧
      (Below v'.sp 0x200000 a → 0x400000 ≤ a.toNat) := by
  have inBss := l.stacksInBss
  have room := l.room
  unfold heapEnd at room
  have low : lowMemory.toNat = 0x400000 := rfl
  have top : t.sp.toNat = l.stacksAt.toNat + 32768 := by
    rw [primary.stack]
    unfold pickKernelStack
    rw [BitVec.toNat_add]
    show (l.stacksAt.toNat + 32768) % 2 ^ 64 = _
    omega
  have first := sectionTop_nat u
  have next := sectionTop_nat u'
  rw [← second.stack] at first
  rw [← third.stack] at next
  rw [primary.spEl1, below_iff (by omega), below_iff (by omega), below_iff (by omega),
    below_iff (by omega)]
  omega

theorem stacks_apart_booted : ∃ t v v', PrimaryEntry linked (powered 0) t ∧
    SecondaryEntry linked { powered 1 with pc := secondary } v ∧
    SecondaryEntry linked { powered 3 with pc := secondary } v' ∧ ∀ a : Word,
      (Below t.sp 32768 a → linked.bssStart.toNat ≤ a.toNat ∧ a.toNat < linked.bssEnd.toNat) ∧
      (Below (t.sys .spEl1) (0x400000 - heapEnd linked.bssEnd) a →
        heapEnd linked.bssEnd ≤ a.toNat ∧ a.toNat < 0x400000) ∧
      (Below v.sp 0x200000 a → 0x400000 ≤ a.toNat ∧ ¬ Below v'.sp 0x200000 a) ∧
      (Below v'.sp 0x200000 a → 0x400000 ≤ a.toNat) := by
  obtain ⟨t, primary⟩ := inevitable_exists
    (primary_enters (s := powered 0) leaf_compiled rfl rfl (by decide))
  obtain ⟨v, second⟩ := inevitable_exists
    (secondary_enters (s := { powered 1 with pc := secondary }) leaf_compiled rfl rfl)
  obtain ⟨v', third⟩ := inevitable_exists
    (secondary_enters (s := { powered 3 with pc := secondary }) leaf_compiled rfl rfl)
  exact ⟨t, v, v', primary, second, third, stacks_apart primary second third (by decide)⟩

end PiKernel.Assembly
