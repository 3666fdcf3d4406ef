import Mathlib.Data.List.Nodup

/-!
Lists of pieces that tile a range of integers without gap or overlap. A piece
is anything with a start and a (larger) stop; the operations replace one piece,
or two neighbours, by pieces that cover the same range.
-/
namespace PiKernel.Tiling
variable {Piece : Type} (start stop : Piece → Int)

def Tiles : Int → Int → List Piece → Prop
  | lo, hi, [] => lo = hi
  | lo, hi, b :: rest => start b = lo ∧ start b < stop b ∧ Tiles (stop b) hi rest

variable {start stop}

def decidableTiles : (lo hi : Int) → (l : List Piece) → Decidable (Tiles start stop lo hi l)
  | lo, hi, [] => inferInstanceAs (Decidable (lo = hi))
  | lo, hi, b :: rest =>
    have := decidableTiles (stop b) hi rest
    inferInstanceAs (Decidable (start b = lo ∧ start b < stop b ∧ Tiles start stop (stop b) hi rest))

instance (lo hi : Int) (l : List Piece) : Decidable (Tiles start stop lo hi l) :=
  decidableTiles lo hi l

theorem tiles_append {lo hi : Int} {xs ys : List Piece} :
    Tiles start stop lo hi (xs ++ ys) ↔
      ∃ mid, Tiles start stop lo mid xs ∧ Tiles start stop mid hi ys := by
  induction xs generalizing lo with
  | nil => simp [Tiles]
  | cons b xs ih =>
    simp only [List.cons_append, Tiles, ih]
    constructor
    · intro given
      obtain ⟨first, valid, mid, left, right⟩ := given
      exact ⟨mid, ⟨first, valid, left⟩, right⟩
    · intro given
      obtain ⟨mid, ⟨first, valid, left⟩, right⟩ := given
      exact ⟨first, valid, mid, left, right⟩

theorem tiles_split {lo hi : Int} {xs ys : List Piece} {b : Piece} :
    Tiles start stop lo hi (xs ++ b :: ys) ↔
      Tiles start stop lo (start b) xs ∧ start b < stop b ∧ Tiles start stop (stop b) hi ys := by
  rw [tiles_append]
  constructor
  · intro given
    obtain ⟨mid, left, first, valid, right⟩ := given
    exact ⟨first ▸ left, valid, right⟩
  · intro given
    obtain ⟨left, valid, right⟩ := given
    exact ⟨start b, left, rfl, valid, right⟩

theorem tiles_le {lo hi : Int} {xs : List Piece} (t : Tiles start stop lo hi xs) : lo ≤ hi := by
  induction xs generalizing lo with
  | nil => exact Int.le_of_eq t
  | cons b xs ih =>
    obtain ⟨first, valid, rest⟩ := t
    have := ih rest
    omega

theorem tiles_bounds {lo hi : Int} {xs : List Piece} (t : Tiles start stop lo hi xs)
    {b : Piece} (member : b ∈ xs) : lo ≤ start b ∧ start b < stop b ∧ stop b ≤ hi := by
  obtain ⟨pre, post, rfl⟩ := List.append_of_mem member
  obtain ⟨left, valid, right⟩ := tiles_split.mp t
  exact ⟨tiles_le left, valid, tiles_le right⟩

theorem tiles_disjoint {lo hi : Int} {xs : List Piece} (t : Tiles start stop lo hi xs)
    {b c : Piece} (mb : b ∈ xs) (mc : c ∈ xs) :
    b = c ∨ stop b ≤ start c ∨ stop c ≤ start b := by
  obtain ⟨pre, post, rfl⟩ := List.append_of_mem mb
  obtain ⟨left, valid, right⟩ := tiles_split.mp t
  rcases List.mem_append.mp mc with early | late
  · exact Or.inr (Or.inr (tiles_bounds left early).2.2)
  · rcases List.mem_cons.mp late with same | late
    · exact Or.inl same.symm
    · exact Or.inr (Or.inl (tiles_bounds right late).1)

theorem tiles_start_inj {lo hi : Int} {xs : List Piece} (t : Tiles start stop lo hi xs)
    {b c : Piece} (mb : b ∈ xs) (mc : c ∈ xs) (same : start b = start c) : b = c := by
  have hb := (tiles_bounds t mb).2.1
  have hc := (tiles_bounds t mc).2.1
  rcases tiles_disjoint t mb mc with eq | apart | apart
  · exact eq
  · omega
  · omega

theorem tiles_starts_nodup {lo hi : Int} {xs : List Piece} (t : Tiles start stop lo hi xs) :
    (xs.map start).Nodup := by
  induction xs generalizing lo with
  | nil => simp
  | cons b xs ih =>
    obtain ⟨_, valid, rest⟩ := t
    simp only [List.map_cons, List.nodup_cons]
    refine ⟨?_, ih rest⟩
    intro repeated
    obtain ⟨c, member, same⟩ := List.mem_map.mp repeated
    have := (tiles_bounds rest member).1
    omega

theorem tiles_hi_unique {lo hi hi' : Int} {xs : List Piece} (t : Tiles start stop lo hi xs)
    (t' : Tiles start stop lo hi' xs) : hi = hi' := by
  induction xs generalizing lo with
  | nil => exact t.symm.trans t'
  | cons b xs ih => exact ih t.2.2 t'.2.2

theorem tiles_lo_unique {lo lo' hi : Int} {xs : List Piece} (t : Tiles start stop lo hi xs)
    (t' : Tiles start stop lo' hi xs) : lo = lo' := by
  cases xs with
  | nil => exact t.trans t'.symm
  | cons b xs => exact t.1.symm.trans t'.1

theorem tiles_before {lo hi : Int} {xs : List Piece} (t : Tiles start stop lo hi xs) {b : Piece}
    (member : b ∈ xs) : start b = lo ∨ ∃ a ∈ xs, stop a = start b := by
  induction xs generalizing lo with
  | nil => exact absurd member List.not_mem_nil
  | cons a xs ih =>
    rcases List.mem_cons.mp member with same | later
    · exact Or.inl (same ▸ t.1)
    · right
      rcases ih t.2.2 later with first | ⟨c, mc, meet⟩
      · exact ⟨a, List.mem_cons_self, first.symm⟩
      · exact ⟨c, List.mem_cons_of_mem a mc, meet⟩

/-- A stretch of pieces may be replaced by any pieces tiling the same range. -/
theorem tiles_replace {lo hi : Int} {xs ys olds news : List Piece}
    (t : Tiles start stop lo hi (xs ++ (olds ++ ys)))
    (same : ∀ a b, Tiles start stop a b olds → Tiles start stop a b news) :
    Tiles start stop lo hi (xs ++ (news ++ ys)) := by
  obtain ⟨a, left, rest⟩ := tiles_append.mp t
  obtain ⟨b, old, right⟩ := tiles_append.mp rest
  exact tiles_append.mpr ⟨a, left, tiles_append.mpr ⟨b, same a b old, right⟩⟩

/-- The first piece equal to `b` is replaced by `pieces`. -/
def splice [DecidableEq Piece] (b : Piece) (pieces : List Piece) : List Piece → List Piece
  | [] => []
  | c :: rest => if c = b then pieces ++ rest else c :: splice b pieces rest

theorem splice_eq [DecidableEq Piece] {b : Piece} {xs : List Piece} (pieces : List Piece)
    (member : b ∈ xs) : ∃ pre post, xs = pre ++ ([b] ++ post) ∧ b ∉ pre ∧
      splice b pieces xs = pre ++ (pieces ++ post) := by
  induction xs with
  | nil => simp at member
  | cons c xs ih =>
    by_cases same : c = b
    · subst same
      exact ⟨[], xs, rfl, by simp, by simp [splice]⟩
    · obtain ⟨pre, post, split, fresh, spliced⟩ :=
        ih ((List.mem_cons.mp member).resolve_left (Ne.symm same))
      refine ⟨c :: pre, post, by rw [split]; rfl, ?_, by simp [splice, same, spliced]⟩
      intro m
      rcases List.mem_cons.mp m with eq | m
      · exact same eq.symm
      · exact fresh m

end PiKernel.Tiling
