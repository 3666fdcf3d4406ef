import Mathlib

/-!
A few A64 instructions over 64-bit registers, the flags N, Z and V and a byte
memory. Code is a list of instructions; it returns in the state in which it
reaches `ret`.
-/
namespace PiKernel.Arm64

abbrev Word := BitVec 64
abbrev Reg := Fin 31
abbrev Memory := Word → BitVec 8

inductive Instr where
  | strXzrPost (base : Reg) (step : Word)
  | subsImm (dst src : Reg) (imm : Word)
  | bGt (target : Nat)
  | ret
  deriving DecidableEq

structure Flags where
  n : Bool
  z : Bool
  v : Bool
  deriving DecidableEq

structure State where
  pc : Nat
  x : Reg → Word
  flags : Flags
  mem : Memory

def storeZero (mem : Memory) (p : Word) : Memory :=
  fun a => if (a - p).toNat < 8 then 0 else mem a

/-- V is set when the signed difference does not fit the register. -/
def subFlags (x y : Word) : Flags where
  n := (x - y).msb
  z := x - y == 0
  v := decide ((x - y).toInt ≠ x.toInt - y.toInt)

def Flags.gt (f : Flags) : Bool := !f.z && f.n == f.v

/-- `none` is a return to the caller. -/
def Instr.exec : Instr → State → Option State
  | .strXzrPost base step, s => some { s with
      pc := s.pc + 1, x := Function.update s.x base (s.x base + step)
      mem := storeZero s.mem (s.x base) }
  | .subsImm dst src imm, s => some { s with
      pc := s.pc + 1, x := Function.update s.x dst (s.x src - imm)
      flags := subFlags (s.x src) imm }
  | .bGt target, s => some { s with pc := if s.flags.gt then target else s.pc + 1 }
  | .ret, _ => none

def run (code : List Instr) : Nat → State → Option State
  | 0, _ => none
  | fuel + 1, s =>
    match code[s.pc]? with
    | none => none
    | some i =>
      match i.exec s with
      | none => some s
      | some t => run code fuel t

def Returns (code : List Instr) (s t : State) : Prop := ∃ fuel, run code fuel s = some t

section Returns
variable {code : List Instr} {s t u : State} {i : Instr}

theorem returns_ret (here : code[s.pc]? = some .ret) : Returns code s s := by
  refine ⟨1, ?_⟩
  simp only [run, here, Instr.exec]

theorem returns_step (here : code[s.pc]? = some i) (effect : i.exec s = some t)
    (rest : Returns code t u) : Returns code s u := by
  obtain ⟨fuel, result⟩ := rest
  refine ⟨fuel + 1, ?_⟩
  simp only [run, here, effect]
  exact result

theorem run_more {fuel : Nat} (result : run code fuel s = some t) (more : Nat) :
    run code (fuel + more) s = some t := by
  induction fuel generalizing s with
  | zero => exact absurd result (by simp [run])
  | succ fuel ih =>
    rw [Nat.succ_add]
    simp only [run] at result ⊢
    cases here : code[s.pc]? with
    | none =>
      rw [here] at result
      exact absurd result (by simp)
    | some i =>
      rw [here] at result
      simp only at result ⊢
      cases effect : i.exec s with
      | none =>
        rw [effect] at result
        exact result
      | some r =>
        rw [effect] at result
        exact ih result

theorem returns_unique (first : Returns code s t) (second : Returns code s u) : t = u := by
  obtain ⟨m, resultM⟩ := first
  obtain ⟨n, resultN⟩ := second
  have fromM := run_more resultM n
  have fromN := run_more resultN m
  rw [Nat.add_comm, fromN] at fromM
  exact (Option.some.inj fromM).symm

end Returns

theorem wrapped_difference {d : Int} (low : -2 ^ 64 < d) (high : d < 2 ^ 64) :
    d.bmod (2 ^ 64) ≠ 0 ∧ (d.bmod (2 ^ 64) < 0 ↔ d.bmod (2 ^ 64) ≠ d) ↔ 0 < d := by
  have value : d.bmod (2 ^ 64) = d ∧ -2 ^ 63 ≤ d ∧ d < 2 ^ 63 ∨
      d.bmod (2 ^ 64) = d - 2 ^ 64 ∧ 2 ^ 63 ≤ d ∨ d.bmod (2 ^ 64) = d + 2 ^ 64 ∧ d < -2 ^ 63 := by
    unfold Int.bmod
    dsimp only
    split <;> omega
  rcases value with ⟨same, _⟩ | ⟨below, _⟩ | ⟨above, _⟩
  · rw [same]
    omega
  · rw [below]
    omega
  · rw [above]
    omega

/-- After `subs x, y` the condition `gt` is the signed comparison. -/
theorem subFlags_gt (x y : Word) : (subFlags x y).gt = true ↔ y.toInt < x.toInt := by
  have difference : (x - y).toInt = (x.toInt - y.toInt).bmod (2 ^ 64) := BitVec.toInt_sub
  have lowX := BitVec.le_toInt x
  have highX := BitVec.toInt_lt (x := x)
  have lowY := BitVec.le_toInt y
  have highY := BitVec.toInt_lt (x := y)
  have zero : x - y = 0 ↔ (x - y).toInt = 0 := by
    rw [← BitVec.toInt_inj]
    exact Iff.rfl
  simp only [Flags.gt, subFlags, Bool.and_eq_true, Bool.not_eq_true', beq_eq_false_iff_ne,
    beq_iff_eq, BitVec.msb_eq_toInt, decide_eq_decide, ne_eq, zero, difference]
  have signs := wrapped_difference (d := x.toInt - y.toInt) (by omega) (by omega)
  rw [ne_eq, ne_eq] at signs
  rw [signs]
  omega

def Instr.target : Instr → Option Reg
  | .strXzrPost base _ => some base
  | .subsImm dst _ _ => some dst
  | .bGt _ | .ret => none

theorem exec_keeps {i : Instr} {s t : State} {r : Reg} (other : i.target ≠ some r)
    (effect : i.exec s = some t) : t.x r = s.x r := by
  cases i with
  | strXzrPost base step =>
    obtain rfl := Option.some.inj effect
    exact Function.update_of_ne (fun same => other (congrArg some same.symm)) _ _
  | subsImm dst src imm =>
    obtain rfl := Option.some.inj effect
    exact Function.update_of_ne (fun same => other (congrArg some same.symm)) _ _
  | bGt target =>
    obtain rfl := Option.some.inj effect
    rfl
  | ret => exact absurd effect (by simp [Instr.exec])

theorem returns_keeps {code : List Instr} {s t : State} {r : Reg}
    (others : ∀ i ∈ code, i.target ≠ some r) (returns : Returns code s t) : t.x r = s.x r := by
  obtain ⟨fuel, result⟩ := returns
  induction fuel generalizing s with
  | zero => exact absurd result (by simp [run])
  | succ fuel ih =>
    cases here : code[s.pc]? with
    | none =>
      simp only [run, here] at result
      exact absurd result (by simp)
    | some i =>
      simp only [run, here] at result
      cases effect : i.exec s with
      | none =>
        rw [effect] at result
        exact congrArg (fun u => State.x u r) (Option.some.inj result).symm
      | some u =>
        rw [effect] at result
        rw [ih result, exec_keeps (others i (List.mem_of_getElem? here)) effect]

def zeroed (mem : Memory) (p len : Nat) : Memory :=
  fun a => if p ≤ a.toNat ∧ a.toNat < p + len then 0 else mem a

theorem storeZero_eq {mem : Memory} {p : Word} (fits : p.toNat + 8 ≤ 2 ^ 64) :
    storeZero mem p = zeroed mem p.toNat 8 := by
  funext a
  have lowA := a.isLt
  have offset : (a - p).toNat = (2 ^ 64 - p.toNat + a.toNat) % 2 ^ 64 := BitVec.toNat_sub a p
  have same : (a - p).toNat < 8 ↔ p.toNat ≤ a.toNat ∧ a.toNat < p.toNat + 8 := by omega
  unfold storeZero zeroed
  simp only [same]

theorem zeroed_append (mem : Memory) (p m n : Nat) :
    zeroed (zeroed mem p m) (p + m) n = zeroed mem p (m + n) := by
  funext a
  unfold zeroed
  by_cases first : p ≤ a.toNat ∧ a.toNat < p + m <;>
    by_cases second : p + m ≤ a.toNat ∧ a.toNat < p + m + n
  · rw [if_pos second, if_pos (by omega)]
  · rw [if_neg second, if_pos first, if_pos (by omega)]
  · rw [if_pos second, if_pos (by omega)]
  · rw [if_neg second, if_neg first, if_neg (by omega)]

end PiKernel.Arm64
