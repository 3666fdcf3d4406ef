import PiKernel.Console.Directives

/-!
Strings and bytes in memory: `K::strlen` and `K::streq` of src/libk.cpp,
`tfp_sprintf` of src/printf.cpp and `memcpy` of src/kernel.cpp.
-/
namespace PiKernel.Libk
open Console

abbrev Memory := Nat → Char

inductive CString (mem : Memory) : Nat → List Char → Prop where
  | nil {p : Nat} (stop : mem p = '\x00') : CString mem p []
  | cons {p : Nat} {c : Char} {s : List Char} (some : c ≠ '\x00') (here : mem p = c)
      (rest : CString mem (p + 1) s) : CString mem p (c :: s)

def strlenFrom (mem : Memory) : Nat → Nat → Nat → Option Nat
  | 0, _, _ => none
  | fuel + 1, str, n => if mem str ≠ '\x00' then strlenFrom mem fuel (str + 1) (n + 1) else some n

def strlen (mem : Memory) (fuel str : Nat) : Option Nat := strlenFrom mem fuel str 0

/-- The loop of `streq` from index `i` on, an `int` that must not overflow. -/
def streqFrom (mem : Memory) (a b : Nat) : Nat → Nat → Option Bool
  | 0, _ => none
  | fuel + 1, i =>
    let x := mem (a + i)
    let y := mem (b + i)
    if x ≠ y then some false
    else if x = '\x00' then some true
    else if i + 1 < 2 ^ 31 then streqFrom mem a b fuel (i + 1)
    else none

def streq (mem : Memory) (fuel a b : Nat) : Option Bool := streqFrom mem a b fuel 0

structure Sink where
  p : Nat
  mem : Memory

def putcp (k : Sink) (c : Char) : Sink where
  p := k.p + 1
  mem := Function.update k.mem k.p c

def tfpSprintf (mem : Memory) (s : Nat) (fmt : String) (va : List Arg) : Option Memory :=
  (tfpFormat fmt va).map fun out => (putcp (out.foldl putcp ⟨s, mem⟩) '\x00').mem

def memcpyFrom {α : Type} (dest src : Nat) : Nat → Nat → (Nat → α) → Nat → α
  | 0, _, mem => mem
  | k + 1, i, mem => memcpyFrom dest src k (i + 1) (Function.update mem (dest + i) (mem (src + i)))

def memcpy {α : Type} (mem : Nat → α) (dest src n : Nat) : Nat → α := memcpyFrom dest src n 0 mem

variable {mem : Memory}

theorem strlenFrom_cstring {p n fuel : Nat} {s : List Char} (string : CString mem p s)
    (enough : s.length < fuel) : strlenFrom mem fuel p n = some (n + s.length) := by
  obtain ⟨fuel, rfl⟩ : ∃ m, fuel = m + 1 := ⟨fuel - 1, by omega⟩
  induction string generalizing n fuel with
  | nil stop => simp [strlenFrom, stop]
  | @cons p c s some here rest ih =>
    obtain ⟨fuel, rfl⟩ : ∃ m, fuel = m + 1 := ⟨fuel - 1, by simp at enough; omega⟩
    have tail := ih (n := n + 1) fuel (by simpa using enough)
    have count : n + 1 + s.length = n + (c :: s).length := by
      simp only [List.length_cons]
      omega
    rw [strlenFrom, if_pos (by rw [here]; exact some), tail, count]

theorem streqFrom_cstring {a b i fuel : Nat} {s t : List Char} (first : CString mem (a + i) s)
    (second : CString mem (b + i) t) (short : i + s.length < 2 ^ 31) (enough : s.length < fuel) :
    streqFrom mem a b fuel i = some (decide (s = t)) := by
  obtain ⟨fuel, rfl⟩ : ∃ m, fuel = m + 1 := ⟨fuel - 1, by omega⟩
  induction s generalizing t i fuel with
  | nil =>
    cases first with
    | nil stop =>
      cases second with
      | nil stop' => simp [streqFrom, stop, stop']
      | cons some here rest => simp [streqFrom, stop, here, Ne.symm some]
  | cons c s ih =>
    cases first with
    | cons some here rest =>
      cases second with
      | nil stop => simp [streqFrom, stop, here, some]
      | @cons _ d t some' here' rest' =>
        by_cases same : c = d
        · subst same
          obtain ⟨fuel, rfl⟩ : ∃ m, fuel = m + 1 := ⟨fuel - 1, by simp at enough; omega⟩
          simp only [List.length_cons] at short enough
          have next : i + 1 < 2 ^ 31 := by omega
          have tail := ih (i := i + 1) rest rest' (by omega) fuel (by omega)
          rw [streqFrom]
          simp only [here, here', some, next, ne_eq, not_true_eq_false, ↓reduceIte, tail,
            List.cons.injEq, true_and]
        · simp [streqFrom, here, here', same]

theorem cstring_congr {mem' : Memory} {p : Nat} {s : List Char} (string : CString mem p s)
    (same : ∀ q, p ≤ q → q ≤ p + s.length → mem' q = mem q) : CString mem' p s := by
  induction string with
  | nil stop => exact .nil ((same _ (le_refl _) (Nat.le_add_right _ _)).trans stop)
  | @cons p c s some here rest ih =>
    refine .cons some ((same p (le_refl p) (Nat.le_add_right _ _)).trans here) (ih ?_)
    intro q low high
    apply same q (by omega)
    simp only [List.length_cons]
    omega

theorem putcp_here (k : Sink) (c : Char) : (putcp k c).mem k.p = c := Function.update_self ..

theorem putcp_other {k : Sink} {q : Nat} (other : q ≠ k.p) (c : Char) :
    (putcp k c).mem q = k.mem q := Function.update_of_ne other ..

theorem sink_end (out : List Char) (k : Sink) : (out.foldl putcp k).p = k.p + out.length := by
  induction out generalizing k with
  | nil => rfl
  | cons c out ih =>
    rw [List.foldl_cons, ih]
    simp only [putcp, List.length_cons]
    omega

theorem sink_frame (out : List Char) (k : Sink) {q : Nat} (outside : q < k.p ∨ k.p + out.length ≤ q) :
    (out.foldl putcp k).mem q = k.mem q := by
  induction out generalizing k with
  | nil => rfl
  | cons c out ih =>
    have other : q ≠ k.p := by
      simp only [List.length_cons] at outside
      omega
    rw [List.foldl_cons, ih]
    · exact putcp_other other c
    · simp only [putcp, List.length_cons] at outside ⊢
      omega

theorem sink_cstring (out : List Char) (k : Sink) (noStop : '\x00' ∉ out) :
    CString (putcp (out.foldl putcp k) '\x00').mem k.p out := by
  induction out generalizing k with
  | nil => exact .nil (by simp [putcp])
  | cons c out ih =>
    have some : c ≠ '\x00' := by
      rintro rfl
      exact noStop List.mem_cons_self
    refine .cons some ?_ (ih (putcp k c) fun member => noStop (List.mem_cons_of_mem _ member))
    have last : k.p ≠ ((out.foldl putcp (putcp k c)).p) := by
      rw [sink_end]
      simp only [putcp]
      omega
    rw [List.foldl_cons, putcp_other last,
      sink_frame out (putcp k c) (Or.inl (Nat.lt_succ_self k.p)), putcp_here]

theorem sprintf_writes (mem : Memory) (s : Nat) {ps : List Piece} {va : List Arg} {out : List Char}
    (means : formatMeaning ps va = some out) (noStop : '\x00' ∉ out) :
    ∃ t, tfpSprintf mem s (String.ofList (formatText ps)) va = some t ∧ CString t s out ∧
      ∀ q, q < s ∨ s + out.length < q → t q = mem q := by
  have fits : tfpFormat (String.ofList (formatText ps)) va = some out := by
    unfold tfpFormat
    rw [String.toList_ofList, formatLoop_text ps _ va (le_refl _)]
    exact means
  refine ⟨_, by rw [tfpSprintf, fits]; rfl, sink_cstring out ⟨s, mem⟩ noStop, ?_⟩
  intro q outside
  have finish : (out.foldl putcp ⟨s, mem⟩).p = s + out.length := sink_end out ⟨s, mem⟩
  have before : q < s ∨ s + out.length ≤ q := by omega
  rw [putcp_other (by omega)]
  exact sink_frame out ⟨s, mem⟩ before

/-- The meanings of two formats written into buffers that do not meet: `strlen` and
    `streq` say of the memory what is true of the texts, and the memory around is as it was. -/
theorem sprintf_streq (mem : Memory) {a b fuel : Nat} {ps qs : List Piece} {vaA vaB : List Arg}
    {outA outB : List Char} (meansA : formatMeaning ps vaA = some outA)
    (meansB : formatMeaning qs vaB = some outB) (noStopA : '\x00' ∉ outA) (noStopB : '\x00' ∉ outB)
    (apart : a + outA.length < b ∨ b + outB.length < a) (short : outA.length < 2 ^ 31)
    (enough : outA.length < fuel) :
    ∃ t u, tfpSprintf mem a (String.ofList (formatText ps)) vaA = some t ∧
      tfpSprintf t b (String.ofList (formatText qs)) vaB = some u ∧
      strlen u fuel a = some outA.length ∧ streq u fuel a b = some (decide (outA = outB)) ∧
      ∀ q, (q < a ∨ a + outA.length < q) → (q < b ∨ b + outB.length < q) → u q = mem q := by
  obtain ⟨t, first, textA, frameA⟩ := sprintf_writes mem a meansA noStopA
  obtain ⟨u, second, textB, frameB⟩ := sprintf_writes t b meansB noStopB
  have kept : CString u a outA := by
    apply cstring_congr textA
    intro q low high
    exact frameB q (by omega)
  refine ⟨t, u, first, second, ?_, ?_, ?_⟩
  · simpa [strlen] using strlenFrom_cstring (n := 0) kept enough
  · exact streqFrom_cstring (i := 0) kept textB (by omega) enough
  · intro q outsideA outsideB
    rw [frameB q outsideB, frameA q outsideA]

theorem sprintf_streq_seven : ∃ t u, tfpSprintf (fun _ => 'x') 0 "%3d" [.word 7] = some t ∧
    tfpSprintf t 8 "%03u" [.word 7] = some u ∧ strlen u 6 0 = some 3 ∧ streq u 6 0 8 = some false := by
  have signed : formatMeaning [.conversion ⟨false, 3, .d, by decide⟩] [.word 7] = some "  7".toList := by
    decide +kernel
  have unsigned : formatMeaning [.conversion ⟨true, 3, .u, by decide⟩] [.word 7] =
      some "007".toList := by decide +kernel
  obtain ⟨t, u, first, second, length, equal, _⟩ := sprintf_streq (fun _ => 'x') signed unsigned
    (by decide) (by decide) (by decide : 0 + 3 < 8 ∨ 8 + 3 < 0) (by decide) (by decide : 3 < 6)
  exact ⟨t, u, first, second, length, equal⟩

section Copy
variable {α : Type} {dest src : Nat}

/-- The memory after `i` bytes: a destination behind the source in the copied range
    repeats what lies between them. -/
def copied (mem : Nat → α) (dest src i : Nat) : Nat → α := fun a =>
  if dest ≤ a ∧ a < dest + i then
    if src < dest then mem (src + (a - dest) % (dest - src)) else mem (src + (a - dest))
  else mem a

theorem copied_zero (mem : Nat → α) (dest src : Nat) : copied mem dest src 0 = mem := by
  funext a
  exact if_neg (by omega)

theorem copied_next (mem : Nat → α) (dest src i : Nat) : copied mem dest src i (src + i) =
    if src < dest then mem (src + i % (dest - src)) else mem (src + i) := by
  unfold copied
  by_cases behind : src < dest
  · rw [if_pos behind, if_pos behind]
    by_cases again : dest ≤ src + i
    · have shorter : i = (src + i - dest) + (dest - src) := by omega
      rw [if_pos ⟨again, by omega⟩]
      conv => rhs; rw [shorter, Nat.add_mod_right]
    · rw [if_neg (by omega), Nat.mod_eq_of_lt (by omega)]
  · rw [if_neg behind, if_neg behind, if_neg (by omega)]

theorem copied_succ (mem : Nat → α) (dest src i : Nat) :
    Function.update (copied mem dest src i) (dest + i) (copied mem dest src i (src + i)) =
      copied mem dest src (i + 1) := by
  funext a
  by_cases here : a = dest + i
  · subst here
    have offset : dest + i - dest = i := by omega
    have wider : dest ≤ dest + i ∧ dest + i < dest + (i + 1) := by omega
    rw [Function.update_self, copied_next, copied, if_pos wider, offset]
  · rw [Function.update_of_ne here]
    unfold copied
    by_cases inside : dest ≤ a ∧ a < dest + i
    · have wider : dest ≤ a ∧ a < dest + (i + 1) := by omega
      rw [if_pos inside, if_pos wider]
    · have narrower : ¬ (dest ≤ a ∧ a < dest + (i + 1)) := by omega
      rw [if_neg inside, if_neg narrower]

theorem memcpyFrom_copied (mem : Nat → α) (dest src k i : Nat) :
    memcpyFrom dest src k i (copied mem dest src i) = copied mem dest src (i + k) := by
  induction k generalizing i with
  | zero => rfl
  | succ k ih =>
    rw [memcpyFrom, copied_succ, ih]
    congr 1
    omega

theorem memcpy_copied (mem : Nat → α) (dest src n : Nat) :
    memcpy mem dest src n = copied mem dest src n := by
  have run := memcpyFrom_copied mem dest src n 0
  rwa [copied_zero, Nat.zero_add] at run

/-- `memcpy` on any two ranges writes the destination only, and it copies just when the
    destination does not start inside the source or the source repeats with the
    distance between them. -/
theorem memcpy_copies_iff (mem : Nat → α) (dest src n : Nat) :
    (∀ a, a < dest ∨ dest + n ≤ a → memcpy mem dest src n a = mem a) ∧
      ((∀ i < n, memcpy mem dest src n (dest + i) = mem (src + i)) ↔
        (src < dest → ∀ i < n, mem (src + i % (dest - src)) = mem (src + i))) := by
  have byte : ∀ i < n, memcpy mem dest src n (dest + i) =
      if src < dest then mem (src + i % (dest - src)) else mem (src + i) := by
    intro i inside
    have range : dest ≤ dest + i ∧ dest + i < dest + n := by omega
    rw [memcpy_copied, copied, if_pos range, Nat.add_sub_cancel_left]
  refine ⟨?_, ?_, ?_⟩
  · intro a outside
    rw [memcpy_copied, copied, if_neg (by omega)]
  · intro copies behind i inside
    rw [← copies i inside, byte i inside, if_pos behind]
  · intro periodic i inside
    rw [byte i inside]
    split
    · exact periodic ‹_› i inside
    · rfl

end Copy

end PiKernel.Libk
