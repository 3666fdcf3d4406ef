import PiKernel.Console.Directives

/-!
`uart_hex` of src/uart.cpp, which shifts the word tetrad by tetrad where `ui2a`
divides: it writes what `printf` writes for `%08X`.
-/
namespace PiKernel.Uart
open Console

/-- The loop of `uart_hex` from shift `c` on; `fuel` counts its passes. -/
def hexFrom (d : Nat) : Nat → Int → List Char
  | 0, _ => []
  | fuel + 1, c =>
    if c ≥ 0 then
      let n := (d >>> c.toNat) &&& 0xF
      Char.ofNat (n + if n > 9 then 0x37 else 0x30) :: hexFrom d fuel (c - 4)
    else []

def uartHex (d : Nat) : List Char := hexFrom d 9 28

def fixedDigits (base : Nat) : Nat → Nat → List Nat
  | 0, _ => []
  | k + 1, num => fixedDigits base k (num / base) ++ [num % base]

theorem fixedDigits_zero (base k : Nat) : fixedDigits base k 0 = List.replicate k 0 := by
  induction k with
  | zero => rfl
  | succ k ih => rw [fixedDigits, Nat.zero_div, ih, Nat.zero_mod, List.replicate_succ']

theorem numeral_padded {base : Nat} (two : 2 ≤ base) (k num : Nat) (fits : num < base ^ (k + 1)) :
    (numeral base num).leftpad (k + 1) 0 = fixedDigits base (k + 1) num := by
  induction k generalizing num with
  | zero =>
    have small : num < base := by simpa using fits
    rw [numeral_digit small, fixedDigits, Nat.mod_eq_of_lt small]
    rfl
  | succ k ih =>
    by_cases small : num < base
    · rw [numeral_digit small, fixedDigits, Nat.div_eq_of_lt small, fixedDigits_zero,
        Nat.mod_eq_of_lt small]
      rfl
    · have high : num / base < base ^ (k + 1) := by
        rw [Nat.div_lt_iff_lt_mul (by omega), ← Nat.pow_succ]
        exact fits
      have length : (numeral base (num / base)).length ≤ k + 1 :=
        numeral_length two (by omega) high
      rw [numeral_snoc two (by omega), fixedDigits, ← ih _ high]
      simp only [List.leftpad, List.length_append, List.length_singleton, Nat.reduceSubDiff,
        List.append_assoc]

theorem fixedDigits_cons (base k num : Nat) :
    fixedDigits base (k + 1) num = num / base ^ k % base :: fixedDigits base k num := by
  induction k generalizing num with
  | zero => simp [fixedDigits]
  | succ k ih =>
    have higher : num / base / base ^ k = num / base ^ (k + 1) := by
      rw [Nat.div_div_eq_div_mul, Nat.pow_succ']
    calc fixedDigits base (k + 2) num
        = fixedDigits base (k + 1) (num / base) ++ [num % base] := rfl
      _ = num / base ^ (k + 1) % base :: (fixedDigits base k (num / base) ++ [num % base]) := by
          rw [ih, higher, List.cons_append]
      _ = num / base ^ (k + 1) % base :: fixedDigits base (k + 1) num := rfl

theorem hex_digit (d k : Nat) : Char.ofNat ((d >>> (4 * k) &&& 0xF) +
    if (d >>> (4 * k) &&& 0xF) > 9 then 0x37 else 0x30) = digit (d / 16 ^ k % 16) true := by
  have tetrad : d >>> (4 * k) &&& 0xF = d / 16 ^ k % 16 := by
    rw [Nat.shiftRight_eq_div_pow, Nat.pow_mul]
    exact Nat.and_two_pow_sub_one_eq_mod _ 4
  have all : ∀ n < 16, Char.ofNat (n + if n > 9 then 0x37 else 0x30) = digit n true := by decide
  rw [tetrad]
  exact all _ (Nat.mod_lt _ (by omega))

theorem hexFrom_digits (d k fuel : Nat) (enough : k + 1 ≤ fuel) :
    hexFrom d fuel (4 * k - 4) = (fixedDigits 16 k d).map fun n => digit n true := by
  obtain ⟨fuel, rfl⟩ : ∃ m, fuel = m + 1 := ⟨fuel - 1, by omega⟩
  induction k generalizing fuel with
  | zero => rfl
  | succ k ih =>
    obtain ⟨fuel, rfl⟩ : ∃ m, fuel = m + 1 := ⟨fuel - 1, by omega⟩
    have shift : (4 * ((k + 1 : Nat) : Int) - 4) = ((4 * k : Nat) : Int) := by omega
    have next : ((4 * k : Nat) : Int) - 4 = 4 * (k : Int) - 4 := by omega
    rw [shift, fixedDigits_cons, List.map_cons, ← hex_digit, hexFrom, if_pos (Int.natCast_nonneg _),
      next, ih fuel (by omega)]
    rfl

theorem hex_format (x : Int) : tfpFormat "%08X" [.word x] =
    some (putchw 8 true (ui2a (toUnsigned x) 16 true)) := by
  have width : toSigned 8 = 8 := by decide
  simp [tfpFormat, formatLoop, directive, nextChar, convert, a2i, a2d, width]

/-- `uart_hex` and `printf("%08X")` agree on every word. -/
theorem uartHex_format (d : Nat) (word : d < 2 ^ 32) :
    tfpFormat "%08X" [.word d] = some (uartHex d) := by
  have unsigned : toUnsigned d = d := by
    unfold toUnsigned
    omega
  have padded : putchw 8 true ((numeral 16 d).map fun n => digit n true) =
      ((numeral 16 d).leftpad 8 0).map fun n => digit n true := by
    have pad : putchw 8 true ((numeral 16 d).map fun n => digit n true) = _ :=
      putchw_leftpad 8 true _
    rw [pad]
    unfold List.leftpad
    rw [List.length_map, List.map_append, List.map_replicate]
    rfl
  have fits : d < 16 ^ 8 := word
  rw [hex_format, unsigned, ui2a_numeral (by omega) (by omega) word, padded,
    numeral_padded (by omega) 7 d fits]
  exact congrArg some (hexFrom_digits d 8 9 (by omega)).symm

theorem uartHex_format_beef : tfpFormat "%08X" [.word (0xBEEF : Nat)] = some "0000BEEF".toList := by
  have same := uartHex_format 0xBEEF (by decide)
  have text : uartHex 0xBEEF = "0000BEEF".toList := by decide
  rw [same, text]

end PiKernel.Uart
