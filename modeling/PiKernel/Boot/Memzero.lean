import PiKernel.Lib.Arm64

/-!
src/mm.S: `memzero`, which `el1_entry` of src/boot.S calls with the start of
.bss in x0 and its size in bytes in x1. Each pass stores before it tests, so
the routine clears whole words and at least one of them.
-/
namespace PiKernel.Memzero
open Arm64

def memzero : List Instr :=
  [.strXzrPost 0 8, .subsImm 1 1 8, .bGt 0, .ret]

structure Entry (s : State) (src : Word) (n : Nat) : Prop where
  pc : s.pc = 0
  x0 : s.x 0 = src
  x1 : s.x 1 = BitVec.ofNat 64 n

def passes (n : Nat) : Nat := max 1 ((n + 7) / 8)

def afterPass (s : State) : State where
  pc := if (subFlags (s.x 1) 8).gt then 0 else 3
  x := Function.update (Function.update s.x 0 (s.x 0 + 8)) 1 (s.x 1 - 8)
  flags := subFlags (s.x 1) 8
  mem := storeZero s.mem (s.x 0)

theorem pass_returns {s t : State} (start : s.pc = 0) (rest : Returns memzero (afterPass s) t) :
    Returns memzero s t := by
  obtain ⟨pc, x, flags, mem⟩ := s
  obtain rfl : pc = 0 := start
  apply returns_step (i := .strXzrPost 0 8) rfl rfl
  apply returns_step (i := .subsImm 1 1 8) rfl rfl
  apply returns_step (i := .bGt 0) rfl rfl
  exact rest

/-- By induction on the size: a pass of more than 8 bytes leaves a call with the
    next address and 8 bytes less, any other pass is the last. -/
theorem memzero_returns (n : Nat) {s : State} {src : Word} (entry : Entry s src n)
    (small : n < 2 ^ 63) (fits : src.toNat + 8 * passes n ≤ 2 ^ 64) :
    ∃ t, Returns memzero s t ∧ t.mem = zeroed s.mem src.toNat (8 * passes n) := by
  induction n using Nat.strongRecOn generalizing s src with
  | ind n ih =>
    obtain ⟨pc, x0, x1⟩ := entry
    have value : (s.x 1).toNat = n := by
      rw [x1, BitVec.toNat_ofNat]
      exact Nat.mod_eq_of_lt (by omega)
    have counter : (s.x 1).toInt = n := by
      rw [BitVec.toInt_eq_toNat_of_lt (by omega), value]
    have more := subFlags_gt (s.x 1) 8
    have eight : (8 : Word).toInt = 8 := by decide
    rw [counter, eight] at more
    have first : src.toNat + 8 ≤ 2 ^ 64 := by
      unfold passes at fits
      omega
    have stored : (afterPass s).mem = zeroed s.mem src.toNat 8 := by
      show storeZero s.mem (s.x 0) = _
      rw [x0, storeZero_eq first]
    by_cases last : n ≤ 8
    · have one : passes n = 1 := by
        unfold passes
        omega
      have stop : (afterPass s).pc = 3 := if_neg (by rw [more]; omega)
      refine ⟨afterPass s, pass_returns pc (returns_ret ?_), by rw [stored, one]⟩
      rw [stop]
      rfl
    · have split : passes n = 1 + passes (n - 8) := by
        unfold passes
        omega
      have address : (src + 8).toNat = src.toNat + 8 := by
        unfold passes at fits
        exact Nat.mod_eq_of_lt (by show src.toNat + 8 < 2 ^ 64; omega)
      have entry : Entry (afterPass s) (src + 8) (n - 8) := by
        refine ⟨if_pos (by rw [more]; omega), ?_, ?_⟩
        · show s.x 0 + 8 = src + 8
          rw [x0]
        · show s.x 1 - 8 = BitVec.ofNat 64 (n - 8)
          apply BitVec.eq_of_toNat_eq
          have less : (s.x 1 - 8).toNat = (2 ^ 64 - 8 + (s.x 1).toNat) % 2 ^ 64 :=
            BitVec.toNat_sub _ _
          rw [less, value, BitVec.toNat_ofNat]
          omega
      obtain ⟨t, returns, mem⟩ := ih (n - 8) (by omega) entry (by omega) (by omega)
      refine ⟨t, pass_returns pc returns, ?_⟩
      rw [mem, stored, address, zeroed_append, split, Nat.mul_add]

def ClearsExactly (s : State) (src : Word) (n : Nat) : Prop :=
  ∃ t, Returns memzero s t ∧
    (∀ a, src.toNat ≤ a.toNat → a.toNat < src.toNat + n → t.mem a = 0) ∧
    ∀ a, a.toNat < src.toNat ∨ src.toNat + n ≤ a.toNat → t.mem a = s.mem a

/-- The bytes behind the range that the last store covers. -/
def Overshoot (src : Word) (n : Nat) (a : Word) : Prop :=
  src.toNat + n ≤ a.toNat ∧ a.toNat < src.toNat + 8 * passes n

instance (src : Word) (n : Nat) (a : Word) : Decidable (Overshoot src n a) :=
  inferInstanceAs (Decidable (_ ∧ _))

theorem no_overshoot {src a : Word} {n : Nat} (some : 0 < n) (whole : n % 8 = 0) :
    ¬ Overshoot src n a := by
  unfold Overshoot passes
  omega

theorem passes_fit {src : Word} {n : Nat} (aligned : src.toNat % 8 = 0)
    (fits : src.toNat + n ≤ 2 ^ 64) : src.toNat + 8 * passes n ≤ 2 ^ 64 := by
  have low := src.isLt
  unfold passes
  omega

theorem overshoot_zero {s : State} {src a : Word} {n : Nat} (entry : Entry s src n)
    (small : n < 2 ^ 63) (fits : src.toNat + 8 * passes n ≤ 2 ^ 64)
    (clears : ClearsExactly s src n) (beyond : Overshoot src n a) : s.mem a = 0 := by
  obtain ⟨t, returns, mem⟩ := memzero_returns n entry small fits
  obtain ⟨t', returns', _, outside⟩ := clears
  obtain ⟨past, covered⟩ := beyond
  obtain rfl := returns_unique returns returns'
  rw [← outside a (Or.inr past), mem]
  exact if_pos ⟨by omega, covered⟩

theorem clears_of_zero {s : State} {src : Word} {n : Nat} (entry : Entry s src n)
    (small : n < 2 ^ 63) (fits : src.toNat + 8 * passes n ≤ 2 ^ 64)
    (clean : ∀ a, Overshoot src n a → s.mem a = 0) : ClearsExactly s src n := by
  obtain ⟨t, returns, mem⟩ := memzero_returns n entry small fits
  have covered : n ≤ 8 * passes n := by
    unfold passes
    omega
  refine ⟨t, returns, ?_, ?_⟩
  · intro a low high
    rw [mem]
    exact if_pos ⟨low, by omega⟩
  · intro a outside
    rw [mem]
    unfold zeroed
    split
    · rename_i inside
      exact (clean a ⟨by omega, inside.2⟩).symm
    · rfl

theorem memzero_exact_iff {s : State} {src : Word} {n : Nat} (entry : Entry s src n)
    (aligned : src.toNat % 8 = 0) (small : n < 2 ^ 63) (fits : src.toNat + n ≤ 2 ^ 64) :
    ClearsExactly s src n ↔
      (0 < n ∧ n % 8 = 0) ∨ ∀ a, Overshoot src n a → s.mem a = 0 := by
  have room := passes_fit aligned fits
  constructor
  · intro clears
    right
    intro a beyond
    exact overshoot_zero entry small room clears beyond
  · intro given
    apply clears_of_zero entry small room
    intro a beyond
    rcases given with ⟨some, whole⟩ | zero
    · exact absurd beyond (no_overshoot some whole)
    · exact zero a beyond

def called (n : Nat) : State where
  pc := 0
  x := fun r => if r = 0 then 0x90000 else if r = 1 then BitVec.ofNat 64 n else 0
  flags := ⟨false, false, false⟩
  mem := fun _ => 1

theorem memzero_exact_24 : ClearsExactly (called 24) 0x90000 24 ↔
    (0 < 24 ∧ 24 % 8 = 0) ∨ ∀ a, Overshoot 0x90000 24 a → (called 24).mem a = 0 :=
  memzero_exact_iff ⟨rfl, rfl, rfl⟩ (by decide) (by decide) (by decide)

/-- The four bytes behind a range of 12 bytes are cleared, and so is the first
    word behind an empty range. -/
theorem memzero_overshoots : ¬ ClearsExactly (called 12) 0x90000 12 ∧
    ¬ ClearsExactly (called 0) 0x90000 0 := by
  have dirty : ∀ n a, (called n).mem a ≠ 0 := by
    intro n a
    show (1 : BitVec 8) ≠ 0
    decide
  constructor
  · intro clears
    exact dirty 12 0x9000C
      (overshoot_zero ⟨rfl, rfl, rfl⟩ (by decide) (by decide) clears (by decide))
  · intro clears
    exact dirty 0 0x90000
      (overshoot_zero ⟨rfl, rfl, rfl⟩ (by decide) (by decide) clears (by decide))

end PiKernel.Memzero
