import PiKernel.Lib.Translate
import PiKernel.Mmu.Map

/-!
`enable_mmu_tables` of src/utils.S, which `MMU_enable` calls on each core, run
on a core that fetches through the tables it is about to turn on.
-/
namespace PiKernel.Mmu
open Arm64 (Word Memory Reg)
open Privilege PageWalk Translate Transition

def sctlrEl1Val : Word :=
  0xC00800 ||| 1 <<< 12 ||| 1 <<< 4 ||| 1 <<< 3 ||| 1 <<< 2 ||| 1 <<< 1 ||| 1 <<< 0

def enableMmuTables : List Instr :=
  [.dsb, .mov 2 (BitVec.ofNat 64 mair1Val), .msr .mairEl1 (some 2),
   .msr .ttbr0El1 (some 0), .msr .ttbr1El1 (some 1), .isb,
   .mov 0 (BitVec.ofNat 64 tcrEl1Val), .msr .tcrEl1 (some 0), .isb,
   .mrs 0 .sctlrEl1, .mov 1 sctlrEl1Val, .orr 0 0 1, .msr .sctlrEl1 (some 0),
   -- no `isb`: the caller may go on before its translation is on
   .ret]

/-- The call of `MMU_enable`, with the tables of `MMU_setup_pagetable` in memory. -/
structure EnableCall (code : Code) (p : Placement) (reply : Option Nat) (c : Core) : Prop where
  listed : Listed code c.state.pc enableMmuTables
  inside : c.state.pc.toNat + 4 * enableMmuTables.length ≤ 0x40200000
  level : c.state.level = .el1
  off : c.Off
  little : View.bigEndian c.state.sys = false
  map1to1 : c.state.x 0 = BitVec.ofNat 64 p.map1to1.address
  virtualmap : c.state.x 1 = BitVec.ofNat 64 p.virtualmap.address
  placed : InMemory p (mmuSetupPagetable p reply) (View.word c.state.sys c.state.mem)

/-- Attribute and shareability of the address `va`, for the VC base `vcBase`. -/
def kernelAttr (vcBase va : Nat) : Option (Nat × Nat) :=
  if va < 2 ^ 21 * (vcBase / 2 ^ 21) then some (normalWriteBack, innerShareable)
  else if va < 0x3F000000 then some (normalNonCacheable, 0)
  else if va < 0x40200000 then some (deviceNGnRnE, 0)
  else none

def KernelMap (vcBase va : Nat) (result : Translation) : Prop :=
  match kernelAttr vcBase va with
  | some (attr, share) => result = .mapped va attr share
  | none => ∃ level, result = .translationFault level

section Whole
variable {p : Placement} {reply : Option Nat} {fetch : Nat → Nat} {va : Nat}

theorem hole_fault (above : 2 ^ 39 ≤ va) (under : va < 2 ^ 64 - 2 ^ 39) :
    translateAddress fetch (mmuEnable p) va = .translationFault 0 := by
  unfold translateAddress
  rw [width0_eq, width1_eq, if_neg (by omega), if_neg (by omega)]

theorem beyond_fault (placed : InMemory p (mmuSetupPagetable p reply) fetch)
    (window : vcBlocks reply ≤ 504) (high : 0x40200000 ≤ va) :
    ∃ level, translateAddress fetch (mmuEnable p) va = .translationFault level := by
  by_cases lower : va < 2 ^ 39
  · exact lower_fault placed window high lower
  · by_cases upper : 2 ^ 64 - 2 ^ 39 ≤ va
    · exact upper_fault placed upper
    · exact ⟨0, hole_fault (by omega) (by omega)⟩

theorem kernel_map (placed : InMemory p (mmuSetupPagetable p reply) fetch)
    (window : reply.getD 0 < 0x3F200000) :
    KernelMap (reply.getD 0) va (translateAddress fetch (mmuEnable p) va) := by
  have blocks := vcBlocks_eq reply
  unfold KernelMap kernelAttr
  by_cases ram : va < 2 ^ 21 * (reply.getD 0 / 2 ^ 21)
  · rw [if_pos ram]
    exact block_walk placed (by omega) (ram_entry p (by omega) (by omega))
  · rw [if_neg ram]
    by_cases vc : va < 0x3F000000
    · rw [if_pos vc]
      exact block_walk placed (by omega) (vc_entry p (by omega) (by omega))
    · rw [if_neg vc]
      by_cases peripherals : va < 0x40200000
      · rw [if_pos peripherals]
        exact block_walk placed (by omega) (device_entry p (by omega) (by omega) (by omega))
      · rw [if_neg peripherals]
        exact beyond_fault placed (by omega) (by omega)

end Whole

structure Enabled (vcBase : Nat) (s : State) (d : Core) : Prop where
  pc : d.state.pc = s.x 30
  x : ∀ i : Reg, 2 < i.val → d.state.x i = s.x i
  flags : d.state.flags = s.flags
  level : d.state.level = s.level
  spSel : d.state.spSel = s.spSel
  daif : d.state.daif = s.daif
  mem : d.state.mem = s.mem
  sys : ∀ r, r ∉ [.mairEl1, .ttbr0El1, .ttbr1El1, .tcrEl1, .sctlrEl1] → d.state.sys r = s.sys r
  control : d.state.sys .sctlrEl1 = s.sys .sctlrEl1 ||| sctlrEl1Val
  map : ∀ v, d.Sees v → v.on = true → ∀ va, KernelMap vcBase va.toNat (v.translate d.state.mem va)
  fixed : ∀ va : Word, va.toNat < 0x40200000 → d.Fixed va

def tableRegs (p : Placement) (sys : View) : View :=
  Function.update (Function.update (Function.update (Function.update sys
    .mairEl1 (BitVec.ofNat 64 mair1Val)) .ttbr0El1 (BitVec.ofNat 64 p.map1to1.address))
    .ttbr1El1 (BitVec.ofNat 64 p.virtualmap.address)) .tcrEl1 (BitVec.ofNat 64 tcrEl1Val)

variable {code : Code} {p : Placement} {reply : Option Nat} {c d r : Core} {s : State} {v : View}

structure Prepared (p : Placement) (s t : State) : Prop where
  control : t.x 0 = s.sys .sctlrEl1 ||| sctlrEl1Val
  x : ∀ i : Reg, 2 < i.val → t.x i = s.x i
  flags : t.flags = s.flags
  level : t.level = s.level
  spSel : t.spSel = s.spSel
  daif : t.daif = s.daif
  sys : t.sys = tableRegs p s.sys
  mem : t.mem = s.mem

theorem prepare_runs (level : c.state.level = .el1)
    (map1to1 : c.state.x 0 = BitVec.ofNat 64 p.map1to1.address)
    (virtualmap : c.state.x 1 = BitVec.ofNat 64 p.virtualmap.address) :
    ∃ t, Core.all (enableMmuTables.take 12) c = some ⟨t, tableRegs p c.state.sys⟩ ∧
      Prepared p c.state t := by
  obtain ⟨⟨pc, x, flags, lv, spSel, daif, sys, mem⟩, seen⟩ := c
  obtain rfl : lv = .el1 := level
  dsimp only at map1to1 virtualmap
  have regs : Function.update (Function.update (Function.update (Function.update sys
      .mairEl1 (BitVec.ofNat 64 mair1Val)) .ttbr0El1 (x 0)) .ttbr1El1 (x 1))
      .tcrEl1 (BitVec.ofNat 64 tcrEl1Val) = tableRegs p sys := by
    rw [map1to1, virtualmap]
    rfl
  rw [← regs]
  refine ⟨_, rfl, rfl, ?_, rfl, rfl, rfl, rfl, regs, rfl⟩
  intro i high
  have apart : ∀ j : Reg, j.val ≤ 2 → i ≠ j := by
    intro j low same
    rw [same] at high
    omega
  have zero := apart 0 (by decide)
  have one := apart 1 (by decide)
  have two := apart 2 (by decide)
  refine (Function.update_of_ne zero _ _).trans ?_
  refine (Function.update_of_ne one _ _).trans ?_
  refine (Function.update_of_ne zero _ _).trans ?_
  refine (Function.update_of_ne zero _ _).trans ?_
  exact Function.update_of_ne two _ _

theorem write_runs {t : State} (level : t.level = .el1) (seen : View) :
    Core.next ⟨t, seen⟩ (.msr .sctlrEl1 (some 0)) = some ⟨t.setSys .sctlrEl1 (t.x 0), seen⟩ := by
  obtain ⟨pc, x, flags, lv, spSel, daif, sys, mem⟩ := t
  obtain rfl : lv = .el1 := level
  rfl

/-- A core that has turned the translation on and not synchronised since. -/
structure TurnedOn (p : Placement) (s : State) (d : Core) : Prop where
  seen : d.seen = tableRegs p s.sys
  sys : d.state.sys = Function.update (tableRegs p s.sys) .sctlrEl1 (s.sys .sctlrEl1 ||| sctlrEl1Val)
  mem : d.state.mem = s.mem

theorem turned_tables (turned : TurnedOn p s d) (sees : d.Sees v) {q : SysReg} (other : q ≠ .sctlrEl1) :
    v q = tableRegs p s.sys q := by
  rcases sees q with same | same
  · rw [same, turned.seen]
  · rw [same, turned.sys, Function.update_of_ne other]

theorem turned_regime (turned : TurnedOn p s d) (sees : d.Sees v) : v.regime = mmuEnable p := by
  have base : ∀ n, 2 ^ 12 ∣ n → n + 2 ^ 12 ≤ 2 ^ 48 → tableBase (BitVec.ofNat 64 n) = n := by
    intro n aligned below
    have same : (BitVec.ofNat 64 n).toNat = n := by
      rw [BitVec.toNat_ofNat]
      omega
    rw [tableBase_aligned (by rwa [same]) (by omega), same]
  unfold View.regime
  rw [turned_tables turned sees (by decide), turned_tables turned sees (by decide),
    turned_tables turned sees (by decide), turned_tables turned sees (by decide)]
  have lower : tableBase (tableRegs p s.sys .ttbr0El1) = p.map1to1.address :=
    base _ p.map1to1.aligned p.map1to1.below
  have upper : tableBase (tableRegs p s.sys .ttbr1El1) = p.virtualmap.address :=
    base _ p.virtualmap.aligned p.virtualmap.below
  rw [lower, upper]
  rfl

theorem turned_little (turned : TurnedOn p s d) (little : View.bigEndian s.sys = false)
    (sees : d.Sees v) :
    v.bigEndian = false := by
  unfold View.bigEndian at little ⊢
  rcases sees .sctlrEl1 with same | same
  · rw [same, turned.seen]
    exact little
  · rw [same, turned.sys, Function.update_self, BitVec.getLsbD_or, little]
    decide

theorem turned_map (turned : TurnedOn p s d) (little : View.bigEndian s.sys = false)
    (placed : InMemory p (mmuSetupPagetable p reply) (View.word s.sys s.mem))
    (window : reply.getD 0 < 0x3F200000) (sees : d.Sees v) (va : Word) :
    KernelMap (reply.getD 0) va.toNat (v.translate d.state.mem va) := by
  have word : v.word d.state.mem = View.word s.sys s.mem := by
    funext a
    unfold View.word
    rw [turned_little turned little sees, little, turned.mem]
  unfold View.translate
  rw [word, turned_regime turned sees]
  exact kernel_map placed window

theorem turned_fixed (turned : TurnedOn p s d) (little : View.bigEndian s.sys = false)
    (placed : InMemory p (mmuSetupPagetable p reply) (View.word s.sys s.mem))
    (window : reply.getD 0 < 0x3F200000) {va : Word} (low : va.toNat < 0x40200000) :
    d.Fixed va := by
  intro v sees
  cases on : v.on with
  | false => exact place_off on _ va
  | true =>
    have map := turned_map turned little placed window sees va
    unfold KernelMap kernelAttr at map
    split at map
    · exact place_mapped on map
    · rename_i none
      split_ifs at none

/-- Each core comes back from turning its translation on without an abort, whatever it has
    yet seen of it; what the kernel uses stays at its address, and all else is a fault. -/
theorem mmu_handover (call : EnableCall code p reply c) (window : reply.getD 0 < 0x3F200000) :
    Fetches code r (Enabled (reply.getD 0) c.state) c := by
  obtain ⟨t, effect, prepared⟩ := prepare_runs call.level call.map1to1 call.virtualmap
  have level : t.level = .el1 := prepared.level.trans call.level
  have low : t.level ≠ .el2 := by
    rw [level]
    decide
  have listed : Listed code c.state.pc (enableMmuTables.take 12 ++ [.msr .sctlrEl1 (some 0), .ret]) :=
    call.listed
  apply fetches_off listed rfl (by rw [call.level]; decide) call.off effect
  intro listed off
  apply fetches_next low (off_fixed off _) listed.1 rfl (write_runs level _)
  have control : (t.setSys .sctlrEl1 (t.x 0)).sys = Function.update (tableRegs p c.state.sys)
      .sctlrEl1 (c.state.sys .sctlrEl1 ||| sctlrEl1Val) := by
    show Function.update t.sys .sctlrEl1 (t.x 0) = _
    rw [prepared.control, prepared.sys]
  have turned : ∀ a, TurnedOn p c.state
      ⟨{ t.setSys .sctlrEl1 (t.x 0) with pc := a }, tableRegs p c.state.sys⟩ :=
    fun a => ⟨rfl, control, prepared.mem⟩
  have little := call.little
  have placed := call.placed
  have place : (t.pc + 4).toNat < 0x40200000 := by
    have inside := call.inside
    have straight : t.pc = c.state.pc + BitVec.ofNat 64 (4 * 12) := all_pc rfl effect
    have length : enableMmuTables.length = 14 := rfl
    have four : (4 : Word).toNat = 4 := rfl
    rw [straight, BitVec.toNat_add, BitVec.toNat_add, BitVec.toNat_ofNat, four]
    omega
  have returns : Core.next ⟨t.setSys .sctlrEl1 (t.x 0), tableRegs p c.state.sys⟩ .ret =
      some ⟨{ t.setSys .sctlrEl1 (t.x 0) with pc := t.x 30 }, tableRegs p c.state.sys⟩ := rfl
  apply fetches_next low (turned_fixed (turned _) little placed window place) listed.2.1 rfl returns
  exact .now {
    pc := prepared.x 30 (by decide)
    x := prepared.x
    flags := prepared.flags
    level := prepared.level
    spSel := prepared.spSel
    daif := prepared.daif
    mem := prepared.mem
    sys := by
      intro q other
      show Function.update t.sys .sctlrEl1 (t.x 0) q = _
      simp only [List.mem_cons, List.not_mem_nil, or_false, not_or] at other
      obtain ⟨mair, lower, upper, tcr, control⟩ := other
      rw [Function.update_of_ne control, prepared.sys, tableRegs, Function.update_of_ne tcr,
        Function.update_of_ne upper, Function.update_of_ne lower, Function.update_of_ne mair]
    control := by
      show (t.setSys .sctlrEl1 (t.x 0)).sys .sctlrEl1 = _
      rw [control, Function.update_self]
    map := fun v sees _ va => turned_map (turned _) little placed window sees va
    fixed := fun va below => turned_fixed (turned _) little placed window below }

def wordMemory (words : Nat → Nat) : Memory :=
  fun a => BitVec.ofNat 8 (words (a.toNat / 8 * 8) / 256 ^ (a.toNat % 8))

theorem wordMemory_word {words : Nat → Nat} {a : Nat} (little : v.bigEndian = false)
    (aligned : 8 ∣ a) (fits : a + 8 ≤ 2 ^ 64) (small : words a < 2 ^ 64) :
    v.word (wordMemory words) a = words a := by
  have holds : ∀ k < 8, (wordMemory words (BitVec.ofNat 64 a + BitVec.ofNat 64 k)).toNat =
      words a / 256 ^ k % 256 := by
    intro k inside
    have address : (BitVec.ofNat 64 a + BitVec.ofNat 64 k).toNat = a + k := by
      rw [BitVec.toNat_add, BitVec.toNat_ofNat, BitVec.toNat_ofNat]
      omega
    have whole : (a + k) / 8 * 8 = a := by omega
    have part : (a + k) % 8 = k := by omega
    unfold wordMemory
    rw [BitVec.toNat_ofNat, address, whole, part]
  unfold View.word
  rw [little, if_neg (by decide), littleEndian_bytes holds]
  exact Nat.mod_eq_of_lt small

theorem inMemory_words {t : Tables} {words : Nat → Nat} (little : v.bigEndian = false)
    (small : ∀ a, words a < 2 ^ 64) (placed : InMemory p t words) :
    InMemory p t (v.word (wordMemory words)) := by
  have same : ∀ base i, 2 ^ 12 ∣ base → base + 2 ^ 12 ≤ 2 ^ 48 → i < 1024 →
      v.word (wordMemory words) (base + 8 * i) = words (base + 8 * i) := by
    intro base i aligned below bound
    exact wordMemory_word little (by omega) (by omega) (small _)
  constructor
  · intro i bound
    rw [same _ _ p.map1to1.aligned p.map1to1.below (by omega)]
    exact placed.map1to1 i bound
  · intro i bound
    rw [same _ _ p.virtualmap.aligned p.virtualmap.below (by omega)]
    exact placed.virtualmap i bound
  · intro i bound
    rw [same _ _ p.stage2virtual.aligned p.stage2virtual.below (by omega)]
    exact placed.stage2virtual i bound
  · intro i bound
    have below := p.stage2map1to1.below
    rw [same _ _ p.stage2map1to1.aligned (by omega) bound]
    exact placed.stage2map1to1 i bound
  · intro i bound
    rw [same _ _ p.stage3virtual.aligned p.stage3virtual.below (by omega)]
    exact placed.stage3virtual i bound

theorem tableEntry_small {address : Nat} (aligned : 2 ^ 12 ∣ address) (small : address < 2 ^ 48) :
    tableEntry address < 2 ^ 64 := by
  rw [tableEntry_eq, entry_word aligned small]
  omega

theorem raw64_small (d : Descriptor) : d.raw64 < 2 ^ 64 := by
  unfold Descriptor.raw64
  apply pack_lt
  simp [offset]

theorem consecutive_small (reply : Option Nat) (a : Nat) :
    consecutiveMemory (mmuSetupPagetable consecutive reply) a < 2 ^ 64 := by
  have stage2 := consecutive.stage2map1to1.below
  unfold consecutiveMemory
  split_ifs
  · rw [setup_map1to1]
    split_ifs
    · exact tableEntry_small (by decide) (by decide)
    · exact tableEntry_small (by decide) (by decide)
    · decide
  · rw [setup_virtualmap]
    split_ifs
    · exact tableEntry_small (by decide) (by decide)
    · decide
  · rw [setup_stage2virtual]
    split_ifs
    · exact tableEntry_small (by decide) (by decide)
    · decide
  · exact raw64_small _
  · exact raw64_small _

def enableCode : Code := ⟨listing 0x81000 enableMmuTables, fun _ _ => False⟩

def resetRegs : View := Function.update (fun _ => 0) .sctlrEl1 0x30D00800

theorem reset_off : View.on resetRegs = false := by decide

theorem reset_little : View.bigEndian resetRegs = false := by decide

def callingState (reply : Option Nat) : State where
  pc := 0x81000
  x := Function.update (Function.update (Function.update (fun _ => 0) 0 0x90000) 1 0x91000) 30 0x80400
  flags := ⟨false, false, false⟩
  level := .el1
  spSel := false
  daif := 15
  sys := resetRegs
  mem := wordMemory (consecutiveMemory (mmuSetupPagetable consecutive reply))

theorem calling_enables (reply : Option Nat) :
    EnableCall enableCode consecutive reply ⟨callingState reply, resetRegs⟩ where
  listed := by
    apply listed_lines
    intro k i here
    have index : k < 14 := (List.getElem?_eq_some_iff.mp here).1
    show listing 0x81000 enableMmuTables (0x81000 + BitVec.ofNat 64 (4 * k)) = some i
    rw [listing_at (by omega)]
    exact here
  inside := by
    show (0x81000 : Word).toNat + 4 * enableMmuTables.length ≤ 0x40200000
    decide
  level := rfl
  off := ⟨reset_off, reset_off⟩
  little := reset_little
  map1to1 := rfl
  virtualmap := rfl
  placed := inMemory_words reset_little (consecutive_small reply) (consecutive_inMemory _)

theorem mmu_handover_consecutive : ∃ c, c = ⟨callingState (some 0x3C000000), resetRegs⟩ ∧
    Fetches enableCode c (Enabled 0x3C000000 c.state) c ∧
    Inevitable (machine enableCode c) (Enabled 0x3C000000 c.state) c := by
  have fetches : Fetches enableCode ⟨callingState (some 0x3C000000), resetRegs⟩ _ _ :=
    mmu_handover (calling_enables (some 0x3C000000)) (by decide)
  exact ⟨_, rfl, fetches, unhindered_inevitable fetches⟩

end PiKernel.Mmu
