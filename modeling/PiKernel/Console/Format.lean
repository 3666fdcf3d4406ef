import Mathlib

/-!
`tfp_format` of src/printf.cpp, built without `PRINTF_LONG_SUPPORT`: the
characters it hands to `putf`, in order. A format and its arguments that do not
fit together are undefined in the source and have no result here.
-/
namespace PiKernel.Console

/-- What `va_arg` may find: a word or a pointer to a string. -/
inductive Arg where
  | word (x : Int)
  | text (s : List Char)

def toUnsigned (x : Int) : Nat := (x % 2 ^ 32).toNat

def toSigned (x : Int) : Int := x.bmod (2 ^ 32)

def growDivisor (num base : Nat) : Nat → Nat → Nat
  | 0, d => d
  | fuel + 1, d => if num / d ≥ base then growDivisor num base fuel (d * base) else d

def digit (dgt : Nat) (uc : Bool) : Char :=
  Char.ofNat (dgt + if dgt < 10 then '0'.toNat else (if uc then 'A'.toNat else 'a'.toNat) - 10)

/-- The loop over the divisors of `ui2a`; `n` counts the digits written so far. -/
def writeDigits (base : Nat) (uc : Bool) : Nat → Nat → Nat → Nat → List Char
  | 0, _, _, _ => []
  | fuel + 1, n, num, d =>
    if d = 0 then []
    else
      let dgt := num / d
      let num := num % d
      let d := d / base
      if n ≠ 0 ∨ dgt > 0 ∨ d = 0 then digit dgt uc :: writeDigits base uc fuel (n + 1) num d
      else writeDigits base uc fuel n num d

def ui2a (num base : Nat) (uc : Bool) : List Char :=
  writeDigits base uc 34 0 num (growDivisor num base 32 1)

def i2a (num : Int) : List Char :=
  if num < 0 then '-' :: ui2a (-num).toNat 10 false else ui2a num.toNat 10 false

def a2d (ch : Char) : Option Nat :=
  if ch ≥ '0' ∧ ch ≤ '9' then some (ch.toNat - '0'.toNat)
  else if ch ≥ 'a' ∧ ch ≤ 'f' then some (ch.toNat - 'a'.toNat + 10)
  else if ch ≥ 'A' ∧ ch ≤ 'F' then some (ch.toNat - 'A'.toNat + 10)
  else none

def nextChar : List Char → Char × List Char
  | [] => ('\x00', [])
  | c :: fmt => (c, fmt)

/-- The value read, the first character that is no digit and what follows it. `num` is
    an `int`; one that overflows is taken to wrap. -/
def a2i (base : Nat) : Int → Char → List Char → Int × Char × List Char
  | num, ch, fmt =>
    match a2d ch with
    | none => (num, ch, fmt)
    | some digit =>
      if digit > base then (num, ch, fmt)
      else match fmt with
        | [] => (toSigned (num * base + digit), '\x00', [])
        | c :: fmt => a2i base (toSigned (num * base + digit)) c fmt

/-- `n` counts down over the buffer, what is left of it is padding. -/
def putchw (n : Int) (z : Bool) (bf : List Char) : List Char :=
  List.replicate (n - bf.length).toNat (if z then '0' else ' ') ++ bf

structure Directive where
  w : Int
  lz : Bool
  ch : Char
  fmt : List Char

def directive (fmt : List Char) : Directive :=
  let (ch, fmt) := nextChar fmt
  let lz := ch = '0'
  let (ch, fmt) := if lz then nextChar fmt else (ch, fmt)
  let (w, ch, fmt) := if ch ≥ '0' ∧ ch ≤ '9' then a2i 10 0 ch fmt else (0, ch, fmt)
  ⟨w, lz, ch, fmt⟩

/-- What the `switch` writes and the arguments it leaves; `none` when the next
    argument is not of the kind the letter asks for. -/
def convert (d : Directive) (va : List Arg) : Option (List Char × List Arg) :=
  match d.ch, va with
  | 'u', .word x :: va => some (putchw d.w d.lz (ui2a (toUnsigned x) 10 false), va)
  | 'd', .word x :: va => some (putchw d.w d.lz (i2a (toSigned x)), va)
  | 'x', .word x :: va => some (putchw d.w d.lz (ui2a (toUnsigned x) 16 false), va)
  | 'X', .word x :: va => some (putchw d.w d.lz (ui2a (toUnsigned x) 16 true), va)
  | 'c', .word x :: va => some ([Char.ofNat (x % 256).toNat], va)
  | 's', .text s :: va => some (putchw d.w false s, va)
  | 'u', _ | 'd', _ | 'x', _ | 'X', _ | 'c', _ | 's', _ => none
  | '%', va => some (['%'], va)
  | _, va => some ([], va)

def formatLoop : Nat → List Char → List Arg → Option (List Char)
  | 0, _, _ => some []
  | _ + 1, [], _ => some []
  | fuel + 1, ch :: fmt, va =>
    if ch ≠ '%' then (formatLoop fuel fmt va).map (ch :: ·)
    else
      let d := directive fmt
      if d.ch = '\x00' then some []
      else match convert d va with
        | none => none
        | some (out, va) => (formatLoop fuel d.fmt va).map (out ++ ·)

def tfpFormat (fmt : String) (va : List Arg) : Option (List Char) :=
  formatLoop fmt.toList.length fmt.toList va

theorem a2i_length (base : Nat) (num : Int) (ch : Char) (fmt : List Char) :
    (a2i base num ch fmt).2.2.length ≤ fmt.length := by
  induction fmt generalizing num ch with
  | nil =>
    unfold a2i
    cases a2d ch with
    | none => exact le_refl _
    | some digit =>
      dsimp only
      split <;> exact le_refl _
  | cons c fmt ih =>
    unfold a2i
    cases a2d ch with
    | none => exact le_refl _
    | some digit =>
      dsimp only
      split
      · exact le_refl _
      · exact le_trans (ih _ c) (Nat.le_succ _)

theorem nextChar_length (fmt : List Char) : (nextChar fmt).2.length ≤ fmt.length := by
  cases fmt with
  | nil => exact le_refl _
  | cons c fmt => exact Nat.le_succ _

theorem directive_length (fmt : List Char) : (directive fmt).fmt.length ≤ fmt.length := by
  have first := nextChar_length fmt
  have second := nextChar_length (nextChar fmt).2
  have width : ∀ ch rest, (if ch ≥ '0' ∧ ch ≤ '9' then a2i 10 0 ch rest
      else (0, ch, rest)).2.2.length ≤ rest.length := by
    intro ch rest
    split
    · exact a2i_length 10 0 ch rest
    · exact le_refl _
  by_cases zero : (nextChar fmt).1 = '0'
  · simp only [directive, zero, decide_true, ↓reduceIte]
    exact le_trans (width _ _) (le_trans second first)
  · simp only [directive, zero, decide_false, ↓reduceIte]
    exact le_trans (width _ _) first

theorem formatLoop_enough (fuel more : Nat) (fmt : List Char) (va : List Arg)
    (enough : fmt.length ≤ fuel) (enough' : fmt.length ≤ more) :
    formatLoop fuel fmt va = formatLoop more fmt va := by
  induction fuel generalizing more fmt va with
  | zero =>
    obtain rfl := List.length_eq_zero_iff.mp (Nat.le_zero.mp enough)
    cases more <;> rfl
  | succ fuel ih =>
    cases fmt with
    | nil => cases more <;> rfl
    | cons ch fmt =>
      obtain ⟨more, rfl⟩ : ∃ m, more = m + 1 := ⟨more - 1, by simp at enough'; omega⟩
      have short : fmt.length ≤ fuel := Nat.le_of_succ_le_succ enough
      have short' : fmt.length ≤ more := Nat.le_of_succ_le_succ enough'
      have inner := directive_length fmt
      simp only [formatLoop]
      split
      · rw [ih more fmt va short short']
      · split
        · rfl
        · split
          · rfl
          · rw [ih more _ _ (le_trans inner short) (le_trans inner short')]

def padded (base : Nat) : Nat → Nat → List Char
  | 0, num => [num.digitChar]
  | e + 1, num => (num / base ^ (e + 1)).digitChar :: padded base e (num % base ^ (e + 1))

theorem digit_eq {dgt : Nat} (small : dgt < 16) : digit dgt false = dgt.digitChar := by
  have all : ∀ i < 16, digit i false = i.digitChar := by decide
  exact all dgt small

theorem growDivisor_eq {num base : Nat} (two : 2 ≤ base) (fuel i : Nat)
    (enough : num < base ^ (i + fuel + 1)) (low : i = 0 ∨ base ^ i ≤ num) :
    ∃ e, growDivisor num base fuel (base ^ i) = base ^ e ∧ i ≤ e ∧ e ≤ i + fuel ∧
      (e = 0 ∨ base ^ e ≤ num) ∧ num < base ^ (e + 1) := by
  induction fuel generalizing i with
  | zero => exact ⟨i, rfl, le_refl i, le_refl i, low, enough⟩
  | succ fuel ih =>
    have pos : 0 < base ^ i := Nat.pow_pos (by omega)
    by_cases more : num / base ^ i ≥ base
    · have grown : base ^ (i + 1) ≤ num := by
        rw [Nat.pow_succ, Nat.mul_comm]
        exact (Nat.le_div_iff_mul_le pos).mp more
      have enough' : num < base ^ (i + 1 + fuel + 1) := by
        have same : i + 1 + fuel + 1 = i + (fuel + 1) + 1 := by omega
        rwa [same]
      obtain ⟨e, value, above, below, rest⟩ := ih (i + 1) enough' (Or.inr grown)
      refine ⟨e, ?_, by omega, by omega, rest⟩
      simp only [growDivisor, more, ↓reduceIte]
      rw [← Nat.pow_succ]
      exact value
    · refine ⟨i, ?_, le_refl i, by omega, low, ?_⟩
      · simp only [growDivisor, more, ↓reduceIte]
      · rw [Nat.pow_succ, Nat.mul_comm]
        exact (Nat.div_lt_iff_lt_mul pos).mp (by omega)

theorem writeDigits_started {base : Nat} (two : 2 ≤ base) (wide : base ≤ 16) (e fuel n num : Nat)
    (enough : e + 2 ≤ fuel) (started : n ≠ 0) (small : num < base ^ (e + 1)) :
    writeDigits base false fuel n num (base ^ e) = padded base e num := by
  induction e generalizing fuel n num with
  | zero =>
    obtain ⟨fuel, rfl⟩ : ∃ m, fuel = m + 2 := ⟨fuel - 2, by omega⟩
    have last : 1 / base = 0 := Nat.div_eq_of_lt (by omega)
    have below : num < base := by simpa using small
    have value : digit num false = num.digitChar := digit_eq (by omega)
    simp [writeDigits, padded, started, last, value]
  | succ e ih =>
    obtain ⟨fuel, rfl⟩ : ∃ m, fuel = m + 1 := ⟨fuel - 1, by omega⟩
    have pos : 0 < base ^ (e + 1) := Nat.pow_pos (by omega)
    have top : num / base ^ (e + 1) < 16 := by
      have bound : num / base ^ (e + 1) < base := by
        rw [Nat.div_lt_iff_lt_mul pos, Nat.mul_comm, ← Nat.pow_succ]
        exact small
      omega
    have next : base ^ (e + 1) / base = base ^ e := by
      rw [Nat.pow_succ]
      exact Nat.mul_div_cancel _ (by omega)
    have rest := ih fuel (n + 1) (num % base ^ (e + 1)) (by omega) (by omega)
      (Nat.mod_lt num pos)
    simp only [writeDigits, padded, Nat.pos_iff_ne_zero.mp pos, started, ne_eq, not_false_eq_true,
      true_or, ↓reduceIte, next, rest, digit_eq top]

theorem writeDigits_first {base : Nat} (two : 2 ≤ base) (wide : base ≤ 16) (e fuel num : Nat)
    (enough : e + 2 ≤ fuel) (top : e = 0 ∨ base ^ e ≤ num) (small : num < base ^ (e + 1)) :
    writeDigits base false fuel 0 num (base ^ e) = padded base e num := by
  obtain ⟨fuel, rfl⟩ : ∃ m, fuel = m + 1 := ⟨fuel - 1, by omega⟩
  cases e with
  | zero =>
    obtain ⟨fuel, rfl⟩ : ∃ m, fuel = m + 1 := ⟨fuel - 1, by omega⟩
    have last : 1 / base = 0 := Nat.div_eq_of_lt (by omega)
    have below : num < base := by simpa using small
    have value : digit num false = num.digitChar := digit_eq (by omega)
    simp [writeDigits, padded, last, value]
  | succ e =>
    have pos : 0 < base ^ (e + 1) := Nat.pow_pos (by omega)
    have low : base ^ (e + 1) ≤ num := top.resolve_left (by omega)
    have leading : num / base ^ (e + 1) > 0 := Nat.div_pos low pos
    have bound : num / base ^ (e + 1) < base := by
      rw [Nat.div_lt_iff_lt_mul pos, Nat.mul_comm, ← Nat.pow_succ]
      exact small
    have next : base ^ (e + 1) / base = base ^ e := by
      rw [Nat.pow_succ]
      exact Nat.mul_div_cancel _ (by omega)
    have rest := writeDigits_started two wide e fuel 1 (num % base ^ (e + 1)) (by omega)
      (by omega) (Nat.mod_lt num pos)
    simp only [writeDigits, padded, Nat.pos_iff_ne_zero.mp pos, leading, ↓reduceIte, true_or,
      or_true, Nat.zero_add, next, rest, digit_eq (by omega : num / base ^ (e + 1) < 16)]

theorem padded_last {base : Nat} (e num : Nat) :
    padded base (e + 1) num = padded base e (num / base) ++ [(num % base).digitChar] := by
  induction e generalizing num with
  | zero => simp [padded]
  | succ e ih =>
    have top : num / base ^ (e + 2) = num / base / base ^ (e + 1) := by
      rw [Nat.div_div_eq_div_mul, Nat.pow_succ' (n := e + 1)]
    have low : num % base ^ (e + 2) / base = num / base % base ^ (e + 1) := by
      rw [Nat.pow_succ', Nat.mod_mul_right_div_self]
    have last : num % base ^ (e + 2) % base = num % base :=
      Nat.mod_mod_of_dvd num ⟨base ^ (e + 1), Nat.pow_succ'⟩
    calc padded base (e + 2) num
        = (num / base ^ (e + 2)).digitChar :: padded base (e + 1) (num % base ^ (e + 2)) := rfl
      _ = (num / base / base ^ (e + 1)).digitChar ::
            (padded base e (num / base % base ^ (e + 1)) ++ [(num % base).digitChar]) := by
          rw [ih, top, low, last]
      _ = padded base (e + 1) (num / base) ++ [(num % base).digitChar] := rfl

theorem padded_toDigits {base : Nat} (two : 2 ≤ base) (e num : Nat)
    (top : e = 0 ∨ base ^ e ≤ num) (small : num < base ^ (e + 1)) :
    padded base e num = Nat.toDigits base num := by
  induction e generalizing num with
  | zero => rw [Nat.toDigits_of_lt_base (by simpa using small)]; rfl
  | succ e ih =>
    have low : base ^ (e + 1) ≤ num := top.resolve_left (by omega)
    have large : base ≤ num := le_trans (Nat.le_self_pow (by omega) base) low
    have high : num / base < base ^ (e + 1) := by
      rw [Nat.div_lt_iff_lt_mul (by omega), ← Nat.pow_succ]
      exact small
    have keep : base ^ e ≤ num / base := by
      rw [Nat.le_div_iff_mul_le (by omega), ← Nat.pow_succ]
      exact low
    rw [padded_last, ih _ (Or.inr keep) high, ← Nat.toDigits_of_base_le (by omega) large]

theorem ui2a_eq {num base : Nat} (two : 2 ≤ base) (wide : base ≤ 16) (word : num < 2 ^ 32) :
    ui2a num base false = Nat.toDigits base num := by
  have enough : num < base ^ (0 + 32 + 1) := by
    have wider : 2 ^ 33 ≤ base ^ 33 := Nat.pow_le_pow_left two 33
    show num < base ^ 33
    omega
  obtain ⟨e, grown, _, fuel, top, small⟩ := growDivisor_eq two 32 0 enough (Or.inl rfl)
  rw [Nat.pow_zero] at grown
  unfold ui2a
  rw [grown, writeDigits_first two wide e 34 num (by omega) top small,
    padded_toDigits two e num top small]

theorem i2a_eq {x : Int} (low : -2 ^ 31 ≤ x) (high : x < 2 ^ 31) :
    i2a x = (toString x).toList := by
  unfold i2a
  rw [Int.toString_eq_repr, Int.repr_eq_if]
  by_cases negative : x < 0
  · rw [if_pos negative, if_neg (by omega), ui2a_eq (by omega) (by omega) (by omega)]
    simp
  · rw [if_neg negative, if_pos (by omega), ui2a_eq (by omega) (by omega) (by omega)]
    simp

theorem i2a_toSigned (x : Int) : i2a (toSigned x) = (toString (x.bmod (2 ^ 32))).toList := by
  have low : -(((2 ^ 32 : Nat) : Int) / 2) ≤ x.bmod (2 ^ 32) := Int.le_bmod (by decide)
  have high : x.bmod (2 ^ 32) < (((2 ^ 32 : Nat) : Int) + 1) / 2 := Int.bmod_lt (by decide)
  unfold toSigned
  exact i2a_eq (by omega) (by omega)

end PiKernel.Console
