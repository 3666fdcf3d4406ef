import PiKernel.Console.Format

/-!
Numbers as src/printf.cpp writes and reads them: `a2i` gets back every number that
`ui2a` writes, in any base up to 16 and with either letters, and what is written
fits the buffer of `tfp_format`.
-/
namespace PiKernel.Console

def upper (c : Char) : Char := if 'a' ≤ c then Char.ofNat (c.toNat - 32) else c

theorem digit_upper {dgt : Nat} (small : dgt < 16) : digit dgt true = upper (digit dgt false) := by
  have all : ∀ i < 16, digit i true = upper (digit i false) := by decide
  exact all dgt small

/-- The case changes letters only: the divisor is a power of the base throughout. -/
theorem writeDigits_upper {base : Nat} (two : 2 ≤ base) (wide : base ≤ 16) (fuel n num e : Nat)
    (small : num < base ^ (e + 1)) : writeDigits base true fuel n num (base ^ e) =
      (writeDigits base false fuel n num (base ^ e)).map upper := by
  induction fuel generalizing n num e with
  | zero => rfl
  | succ fuel ih =>
    have pos : 0 < base ^ e := Nat.pow_pos (by omega)
    have top : num / base ^ e < 16 := by
      have bound : num / base ^ e < base := by
        rw [Nat.div_lt_iff_lt_mul pos, Nat.mul_comm, ← Nat.pow_succ]
        exact small
      omega
    have rest : ∀ n, writeDigits base true fuel n (num % base ^ e) (base ^ e / base) =
        (writeDigits base false fuel n (num % base ^ e) (base ^ e / base)).map upper := by
      intro n
      cases e with
      | zero =>
        have last : base ^ 0 / base = 0 := Nat.div_eq_of_lt (by simp; omega)
        rw [last]
        cases fuel <;> rfl
      | succ e =>
        rw [Nat.pow_succ, Nat.mul_div_cancel _ (by omega), ← Nat.pow_succ]
        exact ih n _ e (Nat.mod_lt _ pos)
    simp only [writeDigits, Nat.pos_iff_ne_zero.mp pos, ↓reduceIte]
    split
    · rw [List.map_cons, rest, digit_upper top]
    · exact rest n

theorem ui2a_grown {num base : Nat} (two : 2 ≤ base) (word : num < 2 ^ 32) :
    ∃ e, growDivisor num base 32 1 = base ^ e ∧ e ≤ 32 ∧ num < base ^ (e + 1) := by
  have enough : num < base ^ (0 + 32 + 1) := by
    have wider : 2 ^ 33 ≤ base ^ (0 + 32 + 1) := Nat.pow_le_pow_left two 33
    omega
  obtain ⟨e, grown, _, fuel, _, small⟩ := growDivisor_eq two 32 0 enough (Or.inl rfl)
  rw [Nat.pow_zero] at grown
  exact ⟨e, grown, by omega, small⟩

theorem ui2a_upper {num base : Nat} (two : 2 ≤ base) (wide : base ≤ 16) (word : num < 2 ^ 32) :
    ui2a num base true = (Nat.toDigits base num).map upper := by
  obtain ⟨e, grown, _, small⟩ := ui2a_grown two word
  rw [← ui2a_eq two wide word]
  unfold ui2a
  rw [grown]
  exact writeDigits_upper two wide 34 0 num e small

theorem toSigned_fits {x : Int} (low : -2 ^ 31 ≤ x) (high : x < 2 ^ 31) : toSigned x = x :=
  Int.bmod_eq_of_le_mul_two (by omega) (by omega)

theorem toSigned_inj {num num' : Nat} (word : num < 2 ^ 32) (word' : num' < 2 ^ 32)
    (same : toSigned num = toSigned num') : num = num' := by
  have residue : ((num : Int) % (2 ^ 32 : Nat)) = num' % (2 ^ 32 : Nat) := by
    rw [← Int.bmod_emod, ← Int.bmod_emod (x := (num' : Int))]
    exact congrArg (· % ((2 ^ 32 : Nat) : Int)) same
  omega

/-- An `int` that overflows on the way ends as if it had overflowed at the end only. -/
theorem toSigned_step (num base dgt : Nat) :
    toSigned (toSigned num * base + dgt) = toSigned ((num * base + dgt : Nat) : Int) := by
  unfold toSigned
  rw [Int.natCast_add, Int.natCast_mul, ← Int.bmod_add_bmod, Int.bmod_mul_bmod, Int.bmod_add_bmod]

def readNumber (base : Nat) (num : Int) (fmt : List Char) : Int × Char × List Char :=
  a2i base num (nextChar fmt).1 (nextChar fmt).2

theorem readNumber_digit {base dgt : Nat} {num : Int} {c : Char} {fmt : List Char}
    (value : a2d c = some dgt) (small : dgt ≤ base) :
    readNumber base num (c :: fmt) = readNumber base (toSigned (num * base + dgt)) fmt := by
  have notOver : ¬ dgt > base := Nat.not_lt_of_le small
  cases fmt with
  | nil =>
    have stop : a2d '\x00' = none := by decide
    simp only [readNumber, nextChar, a2i, value, notOver, ↓reduceIte, stop]
  | cons d fmt =>
    simp only [readNumber, nextChar]
    rw [a2i, value]
    simp only [notOver, ↓reduceIte]

def Stops (base : Nat) (c : Char) : Prop := ∀ dgt, a2d c = some dgt → base < dgt

/-- The characters `a2i` takes into a number. `digit>base` lets a digit through that is
    the base itself, so in base 10 an `a` or `A` still counts. -/
def numeralChars (base : Nat) : List Char :=
  if base = 16 then "0123456789abcdefABCDEF".toList else "0123456789aA".toList

theorem a2d_inv {c : Char} {dgt : Nat} (value : a2d c = some dgt) :
    dgt < 16 ∧ ∃ uc, c = digit dgt uc := by
  have back : ∀ n, n = c.toNat → c = Char.ofNat n := by
    rintro n rfl
    exact c.ofNat_toNat.symm
  unfold a2d at value
  split at value
  · obtain ⟨low, high⟩ := ‹_ ∧ _›
    replace low : 48 ≤ c.toNat := low
    replace high : c.toNat ≤ 57 := high
    obtain rfl : c.toNat - 48 = dgt := Option.some.inj value
    refine ⟨by omega, false, back _ ?_⟩
    rw [if_pos (by omega)]
    show c.toNat - 48 + 48 = c.toNat
    omega
  · split at value
    · obtain ⟨low, high⟩ := ‹_ ∧ _›
      replace low : 97 ≤ c.toNat := low
      replace high : c.toNat ≤ 102 := high
      obtain rfl : c.toNat - 97 + 10 = dgt := Option.some.inj value
      refine ⟨by omega, false, back _ ?_⟩
      rw [if_neg (by omega)]
      show c.toNat - 97 + 10 + (97 - 10) = c.toNat
      omega
    · split at value
      · obtain ⟨low, high⟩ := ‹_ ∧ _›
        replace low : 65 ≤ c.toNat := low
        replace high : c.toNat ≤ 70 := high
        obtain rfl : c.toNat - 65 + 10 = dgt := Option.some.inj value
        refine ⟨by omega, true, back _ ?_⟩
        rw [if_neg (by omega)]
        show c.toNat - 65 + 10 + (65 - 10) = c.toNat
        omega
      · exact absurd value (by simp)

theorem stops_iff {base : Nat} (known : base = 10 ∨ base = 16) (c : Char) :
    Stops base c ↔ c ∉ numeralChars base := by
  constructor
  · intro stops member
    have taken : (numeralChars base).all (fun c => ∃ dgt < base + 1, a2d c = some dgt) = true := by
      rcases known with rfl | rfl <;> decide
    obtain ⟨dgt, small, value⟩ := of_decide_eq_true (List.all_eq_true.mp taken c member)
    exact absurd (stops dgt value) (by omega)
  · intro other dgt value
    have listed : ∀ d < 16, d ≤ base → ∀ uc, digit d uc ∈ numeralChars base := by
      rcases known with rfl | rfl <;> decide
    obtain ⟨small, uc, rfl⟩ := a2d_inv value
    by_contra within
    exact other (listed dgt small (Nat.le_of_not_lt within) uc)

theorem readNumber_stops {base : Nat} {num : Int} {fmt : List Char}
    (stops : Stops base (nextChar fmt).1) :
    readNumber base num fmt = (num, nextChar fmt) := by
  unfold readNumber a2i
  cases value : a2d (nextChar fmt).1 with
  | none => rfl
  | some dgt =>
    have above : dgt > base := stops dgt value
    simp only [above, ↓reduceIte]

def valueOf (base num : Nat) (ds : List Nat) : Nat := ds.foldl (fun n d => n * base + d) num

theorem valueOf_snoc (base num d : Nat) (ds : List Nat) :
    valueOf base num (ds ++ [d]) = valueOf base num ds * base + d := by
  simp [valueOf]

theorem readNumber_digits {base num : Nat} {cs : List Char} {ds : List Nat} {fmt : List Char}
    (values : cs.map a2d = ds.map some) (small : ∀ d ∈ ds, d ≤ base) :
    readNumber base (toSigned num) (cs ++ fmt) =
      readNumber base (toSigned (valueOf base num ds)) fmt := by
  induction cs generalizing num ds with
  | nil =>
    obtain rfl : ds = [] := by simpa using values.symm
    rfl
  | cons c cs ih =>
    cases ds with
    | nil => exact absurd values (by simp)
    | cons d ds =>
      obtain ⟨value, values⟩ := List.cons.inj values
      rw [List.cons_append, readNumber_digit value (small d List.mem_cons_self), toSigned_step,
        ih values fun x member => small x (List.mem_cons_of_mem d member)]
      rfl

-- A width of 2 ^ 32 reads as none.
example : readNumber 10 0 "4294967296u".toList = (0, 'u', []) := by decide +kernel

def numeral (base num : Nat) : List Nat :=
  if num = 0 then [0] else (Nat.digits base num).reverse

theorem numeral_small {base num : Nat} (two : 2 ≤ base) : ∀ d ∈ numeral base num, d < base := by
  intro d member
  unfold numeral at member
  split at member
  · obtain rfl := List.mem_singleton.mp member
    omega
  · exact Nat.digits_lt_base (by omega) (List.mem_reverse.mp member)

theorem numeral_snoc {base num : Nat} (two : 2 ≤ base) (large : base ≤ num) :
    numeral base num = numeral base (num / base) ++ [num % base] := by
  have some : num ≠ 0 := by omega
  have more : num / base ≠ 0 := Nat.ne_of_gt (Nat.div_pos large (by omega))
  rw [numeral, numeral, if_neg some, if_neg more, Nat.digits_def' (by omega) (by omega)]
  simp

theorem numeral_digit {base num : Nat} (small : num < base) :
    numeral base num = [num] := by
  unfold numeral
  split
  · simp [*]
  · rw [Nat.digits_of_lt base num ‹_› small]
    rfl

theorem valueOf_numeral {base : Nat} (two : 2 ≤ base) (num : Nat) :
    valueOf base 0 (numeral base num) = num := by
  induction num using Nat.strongRecOn with
  | ind num ih =>
    by_cases small : num < base
    · rw [numeral_digit small]
      simp [valueOf]
    · have less : num / base < num := Nat.div_lt_self (by omega) (by omega)
      rw [numeral_snoc two (by omega), valueOf_snoc, ih _ less]
      exact Nat.div_add_mod' num base

theorem toDigits_numeral {base : Nat} (two : 2 ≤ base) (num : Nat) :
    Nat.toDigits base num = (numeral base num).map Nat.digitChar := by
  induction num using Nat.strongRecOn with
  | ind num ih =>
    by_cases small : num < base
    · rw [numeral_digit small, Nat.toDigits_of_lt_base small]
      rfl
    · have less : num / base < num := Nat.div_lt_self (by omega) (by omega)
      rw [numeral_snoc two (by omega), Nat.toDigits_of_base_le (by omega) (by omega), ih _ less]
      simp

theorem a2d_digit {dgt : Nat} (small : dgt < 16) (uc : Bool) : a2d (digit dgt uc) = some dgt := by
  have all : ∀ i < 16, ∀ b, a2d (digit i b) = some i := by decide
  exact all dgt small uc

theorem ui2a_numeral {num base : Nat} (two : 2 ≤ base) (wide : base ≤ 16) (word : num < 2 ^ 32)
    (uc : Bool) : ui2a num base uc = (numeral base num).map fun d => digit d uc := by
  have lower : Nat.toDigits base num = (numeral base num).map fun d => digit d false := by
    rw [toDigits_numeral two]
    apply List.map_congr_left
    intro d member
    exact (digit_eq (Nat.lt_of_lt_of_le (numeral_small two d member) wide)).symm
  cases uc with
  | false => rw [ui2a_eq two wide word, lower]
  | true =>
    rw [ui2a_upper two wide word, lower, List.map_map]
    apply List.map_congr_left
    intro d member
    exact (digit_upper (Nat.lt_of_lt_of_le (numeral_small two d member) wide)).symm

theorem readNumber_ui2a {num base : Nat} (two : 2 ≤ base) (wide : base ≤ 16) (word : num < 2 ^ 32)
    (uc : Bool) {fmt : List Char} (stops : Stops base (nextChar fmt).1) :
    readNumber base 0 (ui2a num base uc ++ fmt) = (toSigned num, nextChar fmt) := by
  have values : (ui2a num base uc).map a2d = (numeral base num).map some := by
    rw [ui2a_numeral two wide word, List.map_map]
    apply List.map_congr_left
    intro d member
    exact a2d_digit (Nat.lt_of_lt_of_le (numeral_small two d member) wide) uc
  have small : ∀ d ∈ numeral base num, d ≤ base := fun d member =>
    Nat.le_of_lt (numeral_small two d member)
  have start : toSigned (0 : Nat) = 0 := rfl
  have read : readNumber base (toSigned (0 : Nat)) (ui2a num base uc ++ fmt) = _ :=
    readNumber_digits values small
  rw [start, valueOf_numeral two, readNumber_stops stops] at read
  exact read

theorem readNumber_int {num base : Nat} (two : 2 ≤ base) (wide : base ≤ 16) (int : num < 2 ^ 31)
    (uc : Bool) {fmt : List Char} (stops : Stops base (nextChar fmt).1) :
    readNumber base 0 (ui2a num base uc ++ fmt) = ((num : Int), nextChar fmt) := by
  rw [readNumber_ui2a two wide (by omega) uc stops, toSigned_fits (by omega) (by omega)]

theorem numeral_length {base num k : Nat} (two : 2 ≤ base) (some : 0 < k) (fits : num < base ^ k) :
    (numeral base num).length ≤ k := by
  unfold numeral
  split
  · exact some
  · rw [List.length_reverse]
    exact (Nat.digits_length_le_iff (by omega) num).mpr fits

theorem ui2a_length {num base k : Nat} (two : 2 ≤ base) (wide : base ≤ 16) (word : num < 2 ^ 32)
    (uc : Bool) (some : 0 < k) (fits : num < base ^ k) : (ui2a num base uc).length ≤ k := by
  rw [ui2a_numeral two wide word, List.length_map]
  exact numeral_length two some fits

theorem i2a_length {x : Int} (low : -2 ^ 31 ≤ x) (high : x < 2 ^ 31) : (i2a x).length ≤ 11 := by
  unfold i2a
  split
  · have digits : (ui2a (-x).toNat 10 false).length ≤ 10 :=
      ui2a_length (by omega) (by omega) (by omega) false (by omega) (by omega)
    exact Nat.succ_le_succ digits
  · have digits : (ui2a x.toNat 10 false).length ≤ 10 :=
      ui2a_length (by omega) (by omega) (by omega) false (by omega) (by omega)
    omega

/-- The numbers of a format string: each fits `bf[12]` with its final zero, the
negative ones too, and `a2i` gets back every `int` that `ui2a` wrote. -/
theorem numbers_roundtrip {num base : Nat} (known : base = 10 ∨ base = 16) (int : num < 2 ^ 31)
    (uc : Bool) {fmt : List Char} (other : (nextChar fmt).1 ∉ numeralChars base) :
    readNumber base 0 (ui2a num base uc ++ fmt) = ((num : Int), nextChar fmt) ∧
      (∀ n < 2 ^ 32, (ui2a n base uc).length < 12) ∧
      ∀ x : Int, -2 ^ 31 ≤ x → x < 2 ^ 31 → (i2a x).length < 12 := by
  have two : 2 ≤ base := by omega
  have wide : base ≤ 16 := by omega
  have stops := (stops_iff known _).mpr other
  refine ⟨readNumber_int two wide int uc stops, fun n word => ?_, fun x low high => ?_⟩
  · have fits : n < base ^ 11 := by
      have wider : 10 ^ 11 ≤ base ^ 11 := Nat.pow_le_pow_left (by omega) 11
      omega
    have room := ui2a_length two wide word uc (by omega) fits
    omega
  · have room := i2a_length low high
    omega

theorem numbers_roundtrip_largest :
    readNumber 16 0 (ui2a 2147483647 16 true ++ "; base 16".toList) =
        (2147483647, ';', " base 16".toList) ∧
      (∀ n < 2 ^ 32, (ui2a n 16 true).length < 12) ∧
      ∀ x : Int, -2 ^ 31 ≤ x → x < 2 ^ 31 → (i2a x).length < 12 :=
  numbers_roundtrip (Or.inr rfl) (by decide) true (by decide)

end PiKernel.Console
