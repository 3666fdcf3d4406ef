import PiKernel.Lib.PageWalk
import PiKernel.Lib.Privilege

/-!
A core whose fetches go through its own translation tables. What it writes to a
system register is sure to be seen from the next synchronisation on; until then
each register may be seen old or new.
-/
namespace PiKernel.Translate
open Arm64 (Word Memory Reg)
open Privilege PageWalk Transition

def bytes (mem : Memory) (a : Word) : Nat → List (BitVec 8)
  | 0 => []
  | n + 1 => mem a :: bytes mem (a + 1) n

def littleEndian : List (BitVec 8) → Nat
  | [] => 0
  | b :: bs => b.toNat + 256 * littleEndian bs

theorem littleEndian_bytes {mem : Memory} {a : Word} {w n : Nat}
    (holds : ∀ k < n, (mem (a + BitVec.ofNat 64 k)).toNat = w / 256 ^ k % 256) :
    littleEndian (bytes mem a n) = w % 256 ^ n := by
  induction n generalizing a w with
  | zero => exact (Nat.mod_one w).symm
  | succ n ih =>
    have first := holds 0 (Nat.succ_pos n)
    rw [BitVec.add_zero, Nat.pow_zero, Nat.div_one] at first
    have rest : littleEndian (bytes mem (a + 1) n) = w / 256 % 256 ^ n := by
      apply ih
      intro k small
      have byte := holds (k + 1) (by omega)
      rw [Nat.add_comm k 1, BitVec.ofNat_add, ← BitVec.add_assoc, Nat.add_comm 1 k,
        Nat.pow_succ', ← Nat.div_div_eq_div_mul] at byte
      exact byte
    rw [bytes, littleEndian, first, rest, Nat.pow_succ', Nat.mod_mul]

abbrev View := SysReg → Word

def View.on (v : View) : Bool := (v .sctlrEl1).getLsbD 0

def View.bigEndian (v : View) : Bool := (v .sctlrEl1).getLsbD 25

/-- A table base register holds bits 12 to 47 of the address. -/
def tableBase (w : Word) : Nat := field w.toNat 12 36 * 2 ^ 12

def View.regime (v : View) : Regime where
  tcr := (v .tcrEl1).toNat
  mair := (v .mairEl1).toNat
  ttbr0 := tableBase (v .ttbr0El1)
  ttbr1 := tableBase (v .ttbr1El1)

def View.word (v : View) (mem : Memory) (a : Nat) : Nat :=
  if v.bigEndian then littleEndian (bytes mem (BitVec.ofNat 64 a) 8).reverse
  else littleEndian (bytes mem (BitVec.ofNat 64 a) 8)

def View.translate (v : View) (mem : Memory) (va : Word) : Translation :=
  translateAddress (v.word mem) v.regime va.toNat

/-- Where an access to `va` goes; `none` is a fault. -/
def View.place (v : View) (mem : Memory) (va : Word) : Option Word :=
  if v.on then
    match v.translate mem va with
    | .mapped address _ _ => some (BitVec.ofNat 64 address)
    | _ => none
  else some va

theorem place_off {v : View} (off : v.on = false) (mem : Memory) (va : Word) :
    v.place mem va = some va := by
  unfold View.place
  rw [off]
  rfl

theorem place_mapped {v : View} {mem : Memory} {va : Word} {attr share : Nat} (on : v.on = true)
    (same : v.translate mem va = .mapped va.toNat attr share) : v.place mem va = some va := by
  have whole : BitVec.ofNat 64 va.toNat = va := (BitVec.ofNat_toNat 64 va).trans (BitVec.setWidth_eq va)
  unfold View.place
  rw [on, same, if_pos rfl]
  exact congrArg some whole

theorem tableBase_aligned {w : Word} (aligned : 2 ^ 12 ∣ w.toNat) (small : w.toNat < 2 ^ 48) :
    tableBase w = w.toNat := by
  unfold tableBase field
  omega

/-- `seen` are the registers as the last synchronisation left them. -/
structure Core where
  state : State
  seen : View

def Core.Sees (c : Core) (v : View) : Prop := ∀ r, v r = c.seen r ∨ v r = c.state.sys r

/-- However far the core has seen its writes, `a` is itself. -/
def Core.Fixed (c : Core) (a : Word) : Prop := ∀ v, c.Sees v → v.place c.state.mem a = some a

def plain : Instr → Bool
  | .str _ _ | .user _ _ => false
  | _ => true

def synchronises : Instr → Bool
  | .isb | .eret => true
  | _ => false

def Core.next (c : Core) (i : Instr) : Option Core :=
  (i.exec c.state).map fun t => ⟨t, if synchronises i then t.sys else c.seen⟩

inductive Event where
  | exec
  | abort
  deriving DecidableEq

/-- Levels 0 and 1 are translated; an abort synchronises too. -/
inductive Step (code : Code) : Core → Event → Core → Prop where
  | exec {c d : Core} {v : View} {a : Word} {i : Instr} (level : c.state.level ≠ .el2)
      (seen : c.Sees v) (fetched : v.place c.state.mem c.state.pc = some a)
      (here : code.image a = some i) (inner : plain i = true) (effect : c.next i = some d) :
      Step code c .exec d
  | abort {c : Core} {v : View} {y : Syndrome} (level : c.state.level ≠ .el2)
      (seen : c.Sees v) (fault : v.place c.state.mem c.state.pc = none) :
      Step code c .abort ⟨c.state.take .synchronous y, (c.state.take .synchronous y).sys⟩

def machine (code : Code) (c : Core) : System Core Event where
  init d := d = c
  step := Step code

abbrev Fetches (code : Code) (r : Core) (P : Core → Prop) (c : Core) : Prop :=
  Unhindered (machine code r) (· = .abort) P c

section Rules
variable {code : Code} {c d r : Core} {i : Instr} {is js : List Instr} {P : Core → Prop}

theorem sees_seen (c : Core) : c.Sees c.seen := fun _ => .inl rfl

theorem fetches_next (level : c.state.level ≠ .el2) (fixed : c.Fixed c.state.pc)
    (here : code.image c.state.pc = some i) (inner : plain i = true) (effect : c.next i = some d)
    (rest : Fetches code r P d) : Fetches code r P c := by
  have only : ∀ e t, Step code c e t → e = .exec ∧ t = d := by
    intro e t step
    cases step with
    | exec _ seen fetched found _ result =>
      obtain rfl := Option.some.inj ((fixed _ seen).symm.trans fetched)
      obtain rfl := Option.some.inj (here.symm.trans found)
      exact ⟨rfl, Option.some.inj (result.symm.trans effect)⟩
    | abort _ seen fault => exact absurd ((fixed _ seen).symm.trans fault) (by simp)
  refine .later ⟨.exec, d, .exec level (sees_seen c) (fixed _ (sees_seen c)) here inner effect⟩ ?_ ?_
  · rintro e t step rfl
    exact absurd (only _ t step).1 (by decide)
  · intro e t step
    rw [(only e t step).2]
    exact rest

/-- Neither old nor new is the translation on. -/
structure Core.Off (c : Core) : Prop where
  seen : c.seen.on = false
  now : View.on c.state.sys = false

theorem off_fixed (off : c.Off) (a : Word) : c.Fixed a := by
  intro v sees
  apply place_off
  unfold View.on
  rcases sees .sctlrEl1 with same | same
  · rw [same]
    exact off.seen
  · rw [same]
    exact off.now

def quiet (i : Instr) : Bool :=
  plain i && i.falls && match i with
    | .msr .sctlrEl1 _ => false
    | _ => true

theorem quiet_plain (still : quiet i = true) : plain i = true := by
  unfold quiet at still
  rw [Bool.and_eq_true, Bool.and_eq_true] at still
  exact still.1.1

theorem quiet_falls (still : quiet i = true) : i.falls = true := by
  unfold quiet at still
  rw [Bool.and_eq_true, Bool.and_eq_true] at still
  exact still.1.2

theorem spReg_ne (s : State) : SysReg.sctlrEl1 ≠ s.spReg := by
  unfold State.spReg
  cases s.level <;> cases s.spSel <;> decide

theorem quiet_exec {s t : State} (still : quiet i = true) (effect : i.exec s = some t) :
    t.sys .sctlrEl1 = s.sys .sctlrEl1 ∧ t.level = s.level := by
  cases i with
  | msr dst src =>
    have other : SysReg.sctlrEl1 ≠ dst := by
      rintro rfl
      exact absurd still (by simp [quiet])
    simp only [Instr.exec, Option.ite_none_right_eq_some, Option.some.injEq] at effect
    rw [← effect.2]
    exact ⟨Function.update_of_ne other _ _, rfl⟩
  | movSp src =>
    obtain rfl := Option.some.inj effect
    exact ⟨Function.update_of_ne (spReg_ne s) _ _, rfl⟩
  | movSpImm imm =>
    obtain rfl := Option.some.inj effect
    exact ⟨Function.update_of_ne (spReg_ne s) _ _, rfl⟩
  | mrs dst src =>
    simp only [Instr.exec, Option.ite_none_right_eq_some, Option.some.injEq] at effect
    rw [← effect.2]
    exact ⟨rfl, rfl⟩
  | str | b | cbz | bl | ret | eret | user => exact absurd still (by simp [quiet, plain, Instr.falls])
  | _ =>
    obtain rfl := Option.some.inj effect
    exact ⟨rfl, rfl⟩

theorem next_exec (effect : c.next i = some d) : i.exec c.state = some d.state := by
  obtain ⟨t, result, rfl⟩ := Option.map_eq_some_iff.mp effect
  exact result

theorem next_off (off : c.Off) (still : quiet i = true) (effect : c.next i = some d) : d.Off := by
  obtain ⟨t, result, rfl⟩ := Option.map_eq_some_iff.mp effect
  have now : View.on t.sys = false := by
    unfold View.on
    rw [(quiet_exec still result).1]
    exact off.now
  refine ⟨?_, now⟩
  dsimp only
  split
  · exact now
  · exact off.seen

def Core.all : List Instr → Core → Option Core
  | [], c => some c
  | i :: is, c => (c.next i).bind (Core.all is)

theorem all_pc (still : is.all quiet = true) (effect : Core.all is c = some d) :
    d.state.pc = c.state.pc + BitVec.ofNat 64 (4 * is.length) := by
  induction is generalizing c with
  | nil =>
    obtain rfl : c = d := Option.some.inj effect
    exact (BitVec.add_zero _).symm
  | cons i is ih =>
    rw [List.all_cons, Bool.and_eq_true] at still
    obtain ⟨e, first, effect⟩ := Option.bind_eq_some_iff.mp effect
    rw [ih still.2 effect, falls_pc (quiet_falls still.1) (next_exec first), List.length_cons, Nat.mul_add,
      Nat.add_comm, BitVec.ofNat_add, BitVec.add_assoc]
    rfl

theorem fetches_off (listed : Listed code c.state.pc (is ++ js)) (still : is.all quiet = true)
    (level : c.state.level ≠ .el2) (off : c.Off) (effect : Core.all is c = some d)
    (rest : Listed code d.state.pc js → d.Off → Fetches code r P d) :
    Fetches code r P c := by
  induction is generalizing c with
  | nil =>
    obtain rfl : c = d := Option.some.inj effect
    exact rest listed off
  | cons i is ih =>
    rw [List.all_cons, Bool.and_eq_true] at still
    obtain ⟨e, first, effect⟩ := Option.bind_eq_some_iff.mp effect
    apply fetches_next level (off_fixed off _) listed.1 (quiet_plain still.1) first
    apply ih _ still.2 _ (next_off off still.1 first) effect
    · rw [falls_pc (quiet_falls still.1) (next_exec first)]
      exact listed.2
    · rw [(quiet_exec still.1 (next_exec first)).2]
      exact level

end Rules

end PiKernel.Translate
