import PiKernel.Console.Numbers

/-!
What a format means. A format is a list of pieces, plain characters and
conversions; `tfp_format` finds the pieces in the text again and writes what
each of them stands for.
-/
namespace PiKernel.Console

inductive Letter where
  | u
  | d
  | x
  | X
  | c
  | s
  | percent
  deriving DecidableEq

def Letter.char : Letter → Char
  | .u => 'u'
  | .d => 'd'
  | .x => 'x'
  | .X => 'X'
  | .c => 'c'
  | .s => 's'
  | .percent => '%'

/-- A conversion whose width is an `int`. -/
structure Conversion where
  lz : Bool
  w : Nat
  letter : Letter
  fits : w < 2 ^ 31

inductive Piece where
  | plain (c : Char) (noPercent : c ≠ '%') (noEnd : c ≠ '\x00')
  | conversion (d : Conversion)

def widthText (w : Nat) : List Char := if w = 0 then [] else Nat.toDigits 10 w

def Conversion.text (d : Conversion) : List Char :=
  (if d.lz then ['0'] else []) ++ (widthText d.w ++ [d.letter.char])

def Piece.text : Piece → List Char
  | .plain c _ _ => [c]
  | .conversion d => '%' :: d.text

def formatText (ps : List Piece) : List Char := ps.flatMap Piece.text

/-- What a conversion writes for the next argument, and the arguments after it. -/
def Conversion.meaning (d : Conversion) (va : List Arg) : Option (List Char × List Arg) :=
  let pad (z : Bool) (out : List Char) := out.leftpad d.w (if z then '0' else ' ')
  match d.letter, va with
  | .u, .word x :: va => some (pad d.lz (Nat.toDigits 10 (x % 2 ^ 32).toNat), va)
  | .d, .word x :: va => some (pad d.lz (toString (x.bmod (2 ^ 32))).toList, va)
  | .x, .word x :: va => some (pad d.lz (Nat.toDigits 16 (x % 2 ^ 32).toNat), va)
  | .X, .word x :: va => some (pad d.lz ((Nat.toDigits 16 (x % 2 ^ 32).toNat).map Char.toUpper), va)
  | .c, .word x :: va => some ([Char.ofNat (x % 256).toNat], va)
  | .s, .text s :: va => some (pad false s, va)
  | .percent, va => some (['%'], va)
  | _, _ => none

def formatMeaning : List Piece → List Arg → Option (List Char)
  | [], _ => some []
  | .plain c _ _ :: ps, va => (formatMeaning ps va).map (c :: ·)
  | .conversion d :: ps, va =>
    match d.meaning va with
    | none => none
    | some (out, va) => (formatMeaning ps va).map (out ++ ·)

theorem numeral_head {base num : Nat} (two : 2 ≤ base) (some : num ≠ 0) :
    ∃ d ds, numeral base num = d :: ds ∧ d ≠ 0 := by
  induction num using Nat.strongRecOn with
  | ind num ih =>
    by_cases small : num < base
    · exact ⟨num, [], numeral_digit small, some⟩
    · have less : num / base < num := Nat.div_lt_self (by omega) (by omega)
      have more : num / base ≠ 0 := Nat.ne_of_gt (Nat.div_pos (by omega) (by omega))
      obtain ⟨d, ds, form, leading⟩ := ih _ less more
      refine ⟨d, ds ++ [num % base], ?_, leading⟩
      rw [numeral_snoc two (by omega), form, List.cons_append]

theorem letter_stops (l : Letter) : Stops 10 l.char := by
  apply (stops_iff (Or.inl rfl) _).mpr
  cases l <;> decide

theorem width_first {w : Nat} (some : w ≠ 0) : ∃ c cs, Nat.toDigits 10 w = c :: cs ∧ c ≠ '0' ∧
    (c ≥ '0' ∧ c ≤ '9') := by
  obtain ⟨d, ds, form, leading⟩ := numeral_head (by omega : 2 ≤ 10) some
  have small : d < 10 := numeral_small (by omega) d (by rw [form]; exact List.mem_cons_self)
  have all : ∀ i < 10, i ≠ 0 → Nat.digitChar i ≠ '0' ∧ Nat.digitChar i ≥ '0' ∧
      Nat.digitChar i ≤ '9' := by decide
  refine ⟨d.digitChar, ds.map Nat.digitChar, ?_, all d small leading⟩
  rw [toDigits_numeral (by omega), form, List.map_cons]

theorem read_width {w : Nat} (fits : w < 2 ^ 31) (l : Letter) (fmt : List Char) :
    readNumber 10 0 (Nat.toDigits 10 w ++ l.char :: fmt) = ((w : Int), l.char, fmt) := by
  rw [← ui2a_eq (by omega) (by omega) (by omega)]
  exact readNumber_int (by omega) (by omega) fits false (letter_stops l)

theorem nextChar_cons (c : Char) (fmt : List Char) : nextChar (c :: fmt) = (c, fmt) := rfl

theorem width_found {w : Nat} (fits : w < 2 ^ 31) (l : Letter) (fmt : List Char) :
    (if (nextChar (widthText w ++ l.char :: fmt)).1 ≥ '0' ∧
        (nextChar (widthText w ++ l.char :: fmt)).1 ≤ '9' then
      a2i 10 0 (nextChar (widthText w ++ l.char :: fmt)).1 (nextChar (widthText w ++ l.char :: fmt)).2
    else (0, nextChar (widthText w ++ l.char :: fmt))) = ((w : Int), l.char, fmt) := by
  by_cases none : w = 0
  · subst none
    have noDigit : ¬ (l.char ≥ '0' ∧ l.char ≤ '9') := by cases l <;> decide
    simp only [widthText, ↓reduceIte, List.nil_append, nextChar, noDigit, Nat.cast_zero]
  · obtain ⟨c, cs, form, _, digit⟩ := width_first none
    have read := read_width fits l fmt
    have text : widthText w = c :: cs := by rw [widthText, if_neg none, form]
    rw [form] at read
    rw [text, List.cons_append, nextChar_cons, if_pos digit]
    exact read

theorem flag_absent {w : Nat} (l : Letter) (fmt : List Char) :
    (nextChar (widthText w ++ l.char :: fmt)).1 ≠ '0' := by
  by_cases none : w = 0
  · have noZero : l.char ≠ '0' := by cases l <;> decide
    subst none
    exact noZero
  · obtain ⟨c, cs, form, notZero, _⟩ := width_first none
    rw [widthText, if_neg none, form]
    exact notZero

theorem directive_text (d : Conversion) (fmt : List Char) :
    directive (d.text ++ fmt) = ⟨d.w, d.lz, d.letter.char, fmt⟩ := by
  obtain ⟨lz, w, l, fits⟩ := d
  have found := width_found fits l fmt
  cases lz with
  | false =>
    have absent := flag_absent (w := w) l fmt
    have text : Conversion.text ⟨false, w, l, fits⟩ ++ fmt = widthText w ++ l.char :: fmt := by
      simp [Conversion.text]
    rw [text]
    simp only [directive, absent, decide_false, ↓reduceIte]
    rw [found]
  | true =>
    have text : Conversion.text ⟨true, w, l, fits⟩ ++ fmt = '0' :: (widthText w ++ l.char :: fmt) := by
      simp [Conversion.text]
    rw [text]
    simp only [directive, nextChar_cons, decide_true, ↓reduceIte]
    rw [found]

theorem hex_upper (num : Nat) :
    (Nat.toDigits 16 num).map upper = (Nat.toDigits 16 num).map Char.toUpper := by
  have all : ∀ i < 16, upper (Nat.digitChar i) = (Nat.digitChar i).toUpper := by decide
  rw [toDigits_numeral (by omega), List.map_map, List.map_map]
  apply List.map_congr_left
  intro d member
  exact all d (numeral_small (by omega) d member)

theorem toUnsigned_word (x : Int) : toUnsigned x < 2 ^ 32 := by
  unfold toUnsigned
  omega

theorem putchw_leftpad (w : Nat) (z : Bool) (bf : List Char) :
    putchw w z bf = bf.leftpad w (if z then '0' else ' ') := by
  have count : ((w : Int) - bf.length).toNat = w - bf.length := by omega
  unfold putchw List.leftpad
  rw [count]

theorem convert_meaning (d : Conversion) (fmt : List Char) (va : List Arg) :
    convert ⟨d.w, d.lz, d.letter.char, fmt⟩ va = d.meaning va := by
  have number : ∀ (x : Int) (base : Nat), 2 ≤ base → base ≤ 16 →
      ui2a (toUnsigned x) base false = Nat.toDigits base (x % 2 ^ 32).toNat :=
    fun x base two wide => ui2a_eq two wide (toUnsigned_word x)
  obtain ⟨lz, w, l, fits⟩ := d
  cases l with
  | u =>
    rcases va with _ | ⟨x | t, va⟩
    · rfl
    · simp only [convert, Letter.char, Conversion.meaning, putchw_leftpad,
        number x 10 (by omega) (by omega)]
    · rfl
  | d =>
    rcases va with _ | ⟨x | t, va⟩
    · rfl
    · simp only [convert, Letter.char, Conversion.meaning, putchw_leftpad, i2a_toSigned]
    · rfl
  | x =>
    rcases va with _ | ⟨x | t, va⟩
    · rfl
    · simp only [convert, Letter.char, Conversion.meaning, putchw_leftpad,
        number x 16 (by omega) (by omega)]
    · rfl
  | X =>
    rcases va with _ | ⟨x | t, va⟩
    · rfl
    · have letters := ui2a_upper (by omega : 2 ≤ 16) (by omega) (toUnsigned_word x)
      simp only [convert, Letter.char, Conversion.meaning, putchw_leftpad, letters,
        hex_upper]
      rfl
    · rfl
  | c => rcases va with _ | ⟨x | t, va⟩ <;> rfl
  | s =>
    rcases va with _ | ⟨x | t, va⟩
    · rfl
    · rfl
    · simp only [convert, Letter.char, Conversion.meaning, putchw_leftpad]
  | percent => rcases va with _ | ⟨x | t, va⟩ <;> rfl

theorem formatLoop_text (ps : List Piece) (fuel : Nat) (va : List Arg)
    (enough : (formatText ps).length ≤ fuel) :
    formatLoop fuel (formatText ps) va = formatMeaning ps va := by
  induction ps generalizing fuel va with
  | nil => cases fuel <;> rfl
  | cons p ps ih =>
    cases p with
    | plain c noPercent noEnd =>
      have text : formatText (.plain c noPercent noEnd :: ps) = c :: formatText ps := rfl
      rw [text] at enough ⊢
      obtain ⟨fuel, rfl⟩ : ∃ m, fuel = m + 1 := ⟨fuel - 1, by simp at enough; omega⟩
      simp only [formatLoop, noPercent, ne_eq, not_false_eq_true, ↓reduceIte, formatMeaning]
      rw [ih fuel va (Nat.le_of_succ_le_succ enough)]
    | conversion d =>
      have text : formatText (.conversion d :: ps) = '%' :: (d.text ++ formatText ps) := rfl
      rw [text] at enough ⊢
      obtain ⟨fuel, rfl⟩ : ∃ m, fuel = m + 1 := ⟨fuel - 1, by simp at enough; omega⟩
      have notEnd : d.letter.char ≠ '\x00' := by cases d.letter <;> decide
      have rest : (formatText ps).length ≤ fuel := by
        simp at enough
        omega
      simp only [formatLoop, ne_eq, not_true_eq_false, ↓reduceIte, directive_text, notEnd,
        convert_meaning, formatMeaning]
      cases d.meaning va with
      | none => rfl
      | some out => exact congrArg (Option.map (out.1 ++ ·)) (ih fuel out.2 rest)

/-- Every format built of plain characters and conversions is taken apart as it was put
    together, and `tfp_format` writes what its pieces mean. -/
theorem tfpFormat_meaning (ps : List Piece) (va : List Arg) :
    tfpFormat (String.ofList (formatText ps)) va = formatMeaning ps va := by
  unfold tfpFormat
  rw [String.toList_ofList]
  exact formatLoop_text ps _ va (le_refl _)

def Conversion.needs (d : Conversion) : Nat := if d.letter = .percent then 0 else 1

def Piece.needs : Piece → Nat
  | .plain _ _ _ => 0
  | .conversion d => d.needs

def needs (ps : List Piece) : Nat := (ps.map Piece.needs).sum

theorem conversion_append (d : Conversion) (va wa : List Arg) (enough : d.needs ≤ va.length) :
    d.meaning (va ++ wa) = (d.meaning va).map fun out => (out.1, out.2 ++ wa) := by
  obtain ⟨lz, w, l, fits⟩ := d
  cases va with
  | nil => cases l <;> first | rfl | exact absurd enough (by simp [Conversion.needs])
  | cons a va => cases l <;> cases a <;> rfl

theorem conversion_left {d : Conversion} {va : List Arg} {out : List Char × List Arg}
    (enough : d.needs ≤ va.length) (means : d.meaning va = some out) :
    out.2.length + d.needs = va.length := by
  obtain ⟨lz, w, l, fits⟩ := d
  cases va with
  | nil =>
    cases l <;> first
      | (obtain rfl := Option.some.inj means; rfl)
      | exact absurd enough (by simp [Conversion.needs])
  | cons a va =>
    cases l <;> cases a <;> first
      | (obtain rfl := Option.some.inj means; rfl)
      | exact absurd means (by simp [Conversion.meaning])

theorem meaning_append (ps qs : List Piece) (va wa : List Arg) (enough : va.length = needs ps) :
    formatMeaning (ps ++ qs) (va ++ wa) =
      (formatMeaning ps va).bind fun out => (formatMeaning qs wa).map (out ++ ·) := by
  induction ps generalizing va with
  | nil =>
    obtain rfl := List.length_eq_zero_iff.mp enough
    simp [formatMeaning]
  | cons p ps ih =>
    cases p with
    | plain c noPercent noEnd =>
      have rest : va.length = needs ps := by simpa [needs, Piece.needs] using enough
      simp only [List.cons_append, formatMeaning, ih va rest]
      cases formatMeaning ps va <;> cases formatMeaning qs wa <;> simp
    | conversion d =>
      have total : va.length = d.needs + needs ps := by simpa [needs, Piece.needs] using enough
      simp only [List.cons_append, formatMeaning, conversion_append d va wa (by omega)]
      cases means : d.meaning va with
      | none => rfl
      | some out =>
        have left := conversion_left (by omega) means
        simp only [Option.map_some, ih out.2 (by omega)]
        cases formatMeaning ps out.2 <;> cases formatMeaning qs wa <;> simp

/-- One call with two formats in one writes what two calls write. -/
theorem tfpFormat_append (ps qs : List Piece) (va wa : List Arg) (enough : va.length = needs ps) :
    tfpFormat (String.ofList (formatText ps) ++ String.ofList (formatText qs)) (va ++ wa) =
      (tfpFormat (String.ofList (formatText ps)) va).bind fun out =>
        (tfpFormat (String.ofList (formatText qs)) wa).map (out ++ ·) := by
  have joined : formatText (ps ++ qs) = formatText ps ++ formatText qs := List.flatMap_append
  unfold tfpFormat
  rw [String.toList_append, String.toList_ofList, String.toList_ofList, ← joined,
    formatLoop_text _ _ _ (le_refl _), formatLoop_text _ _ _ (le_refl _),
    formatLoop_text _ _ _ (le_refl _), meaning_append ps qs va wa enough]

theorem tfpFormat_append_word : tfpFormat (String.ofList ['%', 'd'] ++ String.ofList ['!'])
    ([.word 7] ++ []) = some ['7', '!'] := by
  have both := tfpFormat_append [.conversion ⟨false, 0, .d, by decide⟩] [.plain '!' (by decide) (by decide)]
    [.word 7] [] rfl
  exact both.trans rfl

end PiKernel.Console
