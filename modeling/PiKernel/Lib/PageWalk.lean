import Mathlib.Algebra.BigOperators.Group.List.Basic
import Mathlib.Data.Nat.Bitwise

/-!
Bit fields of machine words, and the translation table walk of VMSAv8-64 with
4 KB granules: what the hardware reads out of the words that software packs.
-/
namespace PiKernel.PageWalk

def field (x lo width : Nat) : Nat := x / 2 ^ lo % 2 ^ width

/-- A word made of (width, value) pairs, least significant first. -/
def pack : List (Nat × Nat) → Nat
  | [] => 0
  | (width, value) :: rest => value % 2 ^ width + 2 ^ width * pack rest

def offset (fields : List (Nat × Nat)) : Nat := (fields.map Prod.fst).sum

theorem field_pack (before after : List (Nat × Nat)) (width value : Nat) :
    field (pack (before ++ (width, value) :: after)) (offset before) width = value % 2 ^ width := by
  induction before with
  | nil =>
    have low : value % 2 ^ width < 2 ^ width := Nat.mod_lt _ (Nat.two_pow_pos width)
    simp [field, pack, offset, Nat.add_mul_mod_self_left]
  | cons first before ih =>
    have low : first.2 % 2 ^ first.1 < 2 ^ first.1 := Nat.mod_lt _ (Nat.two_pow_pos first.1)
    have shift : pack (first :: before ++ (width, value) :: after) / 2 ^ first.1 =
        pack (before ++ (width, value) :: after) := by
      simp only [List.cons_append, pack]
      rw [Nat.add_mul_div_left _ _ (Nat.two_pow_pos first.1), Nat.div_eq_of_lt low, Nat.zero_add]
    have step : offset (first :: before) = first.1 + offset before := rfl
    unfold field at ih ⊢
    rw [step, Nat.pow_add, ← Nat.div_div_eq_div_mul, shift, ih]

theorem pack_lt {fields : List (Nat × Nat)} {n : Nat} (width : offset fields = n) :
    pack fields < 2 ^ n := by
  induction fields generalizing n with
  | nil => exact Nat.two_pow_pos n
  | cons first rest ih =>
    obtain rfl : first.1 + offset rest = n := width
    have low : first.2 % 2 ^ first.1 < 2 ^ first.1 := Nat.mod_lt _ (Nat.two_pow_pos first.1)
    calc pack (first :: rest)
        < 2 ^ first.1 * (pack rest + 1) := by rw [pack, Nat.mul_succ]; omega
      _ ≤ 2 ^ first.1 * 2 ^ offset rest := Nat.mul_le_mul_left _ (ih rfl)
      _ = 2 ^ (first.1 + offset rest) := (Nat.pow_add 2 first.1 (offset rest)).symm

@[simp] theorem field_zero (lo width : Nat) : field 0 lo width = 0 := by
  simp [field]

theorem field_field {x lo width lo' width' : Nat} (inside : lo' + width' ≤ width) :
    field (field x lo width) lo' width' = field x (lo + lo') width' := by
  apply Nat.eq_of_testBit_eq
  intro i
  simp only [field, Nat.testBit_mod_two_pow, Nat.testBit_div_two_pow]
  by_cases small : i < width'
  · have within : i + lo' < width := by omega
    have order : i + lo' + lo = i + (lo + lo') := by omega
    simp [small, within, order]
  · simp [small]

theorem entry_word {address : Nat} (aligned : 2 ^ 12 ∣ address) (small : address < 2 ^ 48) :
    2 ^ 63 ||| address ||| 3 = 2 ^ 63 + address + 3 := by
  obtain ⟨page, rfl⟩ := aligned
  have low : 3 < 2 ^ 12 := by decide
  have high : 2 ^ 12 * page + 3 < 2 ^ 63 := by omega
  rw [Nat.lor_assoc, ← Nat.two_pow_add_eq_or_of_lt low page,
    ← Nat.mul_one (2 ^ 63), ← Nat.two_pow_add_eq_or_of_lt high 1]
  omega

inductive Translation where
  | translationFault (level : Nat)
  | accessFlagFault (level : Nat)
  | mapped (address attr share : Nat)
  deriving DecidableEq

/-- A block or page descriptor for `2 ^ shift` bytes. -/
def leaf (mair level shift descriptor va : Nat) : Translation :=
  if field descriptor 10 1 = 0 then .accessFlagFault level
  else .mapped (field descriptor shift (48 - shift) * 2 ^ shift + va % 2 ^ shift)
    (field mair (8 * field descriptor 2 3) 8) (field descriptor 8 2)

/-- The walk from `table` on, with `n` levels of tables below it. -/
def walk (fetch : Nat → Nat) (mair va : Nat) : Nat → Nat → Translation
  | 0, table =>
    let descriptor := fetch (table + 8 * field va 12 9)
    if field descriptor 0 2 = 3 then leaf mair 3 12 descriptor va else .translationFault 3
  | n + 1, table =>
    let shift := 12 + 9 * (n + 1)
    let descriptor := fetch (table + 8 * field va shift 9)
    if field descriptor 0 1 = 0 then .translationFault (2 - n)
    else if field descriptor 1 1 = 1 then walk fetch mair va n (field descriptor 12 36 * 2 ^ 12)
    else leaf mair (2 - n) shift descriptor va

structure Regime where
  tcr : Nat
  mair : Nat
  ttbr0 : Nat
  ttbr1 : Nat

def Regime.width0 (r : Regime) : Nat := 64 - field r.tcr 0 6
def Regime.width1 (r : Regime) : Nat := 64 - field r.tcr 16 6

def below (width : Nat) : Nat := (width - 13) / 9

def translateAddress (fetch : Nat → Nat) (r : Regime) (va : Nat) : Translation :=
  if va < 2 ^ r.width0 then walk fetch r.mair va (below r.width0) r.ttbr0
  else if 2 ^ 64 - 2 ^ r.width1 ≤ va then walk fetch r.mair va (below r.width1) r.ttbr1
  else .translationFault 0

section Steps
variable {fetch : Nat → Nat} {mair va n shift table descriptor : Nat}

theorem walk_invalid (size : shift = 12 + 9 * (n + 1))
    (read : fetch (table + 8 * field va shift 9) = 0) :
    walk fetch mair va (n + 1) table = .translationFault (2 - n) := by
  subst size
  simp only [walk, read, field_zero, ↓reduceIte]

theorem walk_invalid_page (read : fetch (table + 8 * field va 12 9) = 0) :
    walk fetch mair va 0 table = .translationFault 3 := by
  simp only [walk, read, field_zero]
  rfl

theorem walk_block (size : shift = 12 + 9 * (n + 1))
    (read : fetch (table + 8 * field va shift 9) = descriptor)
    (block : field descriptor 0 2 = 1) :
    walk fetch mair va (n + 1) table = leaf mair (2 - n) shift descriptor va := by
  subst size
  have valid : field descriptor 0 1 = 1 := by
    rw [← Nat.zero_add 0, ← @field_field descriptor 0 2 0 1 (by omega), block]
    rfl
  have kind : field descriptor 1 1 = 0 := by
    rw [← Nat.zero_add 1, ← @field_field descriptor 0 2 1 1 (by omega), block]
    rfl
  simp only [walk, read, valid, kind, one_ne_zero, zero_ne_one, ↓reduceIte]

theorem walk_table {next : Nat} (size : shift = 12 + 9 * (n + 1)) (aligned : 2 ^ 12 ∣ next)
    (small : next < 2 ^ 48)
    (read : fetch (table + 8 * field va shift 9) = 2 ^ 63 ||| next ||| 3) :
    walk fetch mair va (n + 1) table = walk fetch mair va n next := by
  subst size
  rw [entry_word aligned small] at read
  have valid : field (2 ^ 63 + next + 3) 0 1 = 1 := by
    unfold field
    omega
  have kind : field (2 ^ 63 + next + 3) 1 1 = 1 := by
    unfold field
    omega
  have target : field (2 ^ 63 + next + 3) 12 36 * 2 ^ 12 = next := by
    unfold field
    omega
  simp only [walk, read, valid, kind, target, one_ne_zero, ↓reduceIte]

end Steps

end PiKernel.PageWalk
