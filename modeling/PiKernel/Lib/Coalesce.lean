import Mathlib.Data.List.Chain
import PiKernel.Lib.Tiling

/-!
Merging neighbours. In a list of pieces, some of them free, `coalesce` joins
every maximal run of free pieces into one. A list without free neighbours is
its own normal form, and the normal form does not depend on whether pieces are
freed before or after joining, so it is a function of which pieces are free.
-/
namespace PiKernel.Coalesce
open Tiling
variable {Piece : Type} (free : Piece → Bool) (join : Piece → Piece → Piece)

def absorb (a : Piece) : List Piece → List Piece
  | [] => [a]
  | c :: rest => if free a = true ∧ free c = true then join a c :: rest else a :: c :: rest

def coalesce : List Piece → List Piece
  | [] => []
  | a :: rest => absorb free join a (coalesce rest)

def Parted (a c : Piece) : Prop := ¬ (free a = true ∧ free c = true)

structure Joinable : Prop where
  free_join : ∀ a c, free a = true → free c = true → free (join a c) = true
  assoc : ∀ a b c, join (join a b) c = join a (join b c)

variable {free join}

theorem absorb_parted {a : Piece} {l : List Piece} (parted : ∀ c ∈ l.head?, Parted free a c) :
    absorb free join a l = a :: l := by
  cases l with
  | nil => rfl
  | cons c l => exact if_neg (parted c rfl)

theorem coalesce_parted {l : List Piece} (parted : l.IsChain (Parted free)) :
    coalesce free join l = l := by
  induction l with
  | nil => rfl
  | cons a l ih =>
    obtain ⟨front, rest⟩ := List.isChain_cons.mp parted
    simp only [coalesce, ih rest]
    exact absorb_parted front

theorem absorb_absorb (joins : Joinable free join) {a c : Piece} (freeA : free a = true)
    (freeC : free c = true) (l : List Piece) :
    absorb free join a (absorb free join c l) = absorb free join (join a c) l := by
  have freeJoin := joins.free_join a c freeA freeC
  cases l with
  | nil => simp [absorb, freeA, freeC]
  | cons d l =>
    by_cases freeD : free d = true
    · have inner := joins.free_join c d freeC freeD
      simp [absorb, freeA, freeC, freeD, freeJoin, inner, joins.assoc]
    · simp [absorb, freeA, freeC, freeD]

/-- Freeing more pieces after joining gives what freeing them before joining does. -/
theorem coalesce_map (joins : Joinable free join) {f : Piece → Piece}
    (fixed : ∀ a, free a = true → f a = a) (l : List Piece) :
    coalesce free join ((coalesce free join l).map f) = coalesce free join (l.map f) := by
  induction l with
  | nil => rfl
  | cons a l ih =>
    simp only [coalesce, List.map_cons]
    rw [← ih]
    cases coalesce free join l with
    | nil => rfl
    | cons c rest =>
      by_cases both : free a = true ∧ free c = true
      · have pair : absorb free join a (c :: rest) = join a c :: rest := if_pos both
        rw [pair, fixed a both.1]
        simp only [List.map_cons, coalesce]
        rw [fixed c both.2, fixed _ (joins.free_join a c both.1 both.2)]
        exact (absorb_absorb joins both.1 both.2 _).symm
      · have pair : absorb free join a (c :: rest) = a :: c :: rest := if_neg both
        rw [pair]
        simp only [List.map_cons, coalesce]

theorem coalesce_idem (joins : Joinable free join) (l : List Piece) :
    coalesce free join (coalesce free join l) = coalesce free join l := by
  have same := coalesce_map joins (f := id) (fun _ _ => rfl) l
  rwa [List.map_id, List.map_id] at same

theorem coalesce_append (joins : Joinable free join) (xs ys : List Piece) :
    coalesce free join (xs ++ ys) = coalesce free join (xs ++ coalesce free join ys) := by
  induction xs with
  | nil => exact (coalesce_idem joins ys).symm
  | cons a xs ih => simp only [List.cons_append, coalesce, ih]

theorem coalesce_run {start stop : Piece → Int} (joins : Joinable free join)
    (starts : ∀ a c, start (join a c) = start a)
    (stops : ∀ a c, stop a = start c → stop (join a c) = stop c) {lo hi : Int}
    {run post : List Piece} (some : run ≠ []) (free_run : ∀ c ∈ run, free c = true)
    (tiles : Tiles start stop lo hi run) (parted : post.IsChain (Parted free))
    (behind : ∀ c ∈ post.head?, free c = false) :
    ∃ m, coalesce free join (run ++ post) = m :: post ∧ free m = true ∧ start m = lo ∧
      stop m = hi := by
  induction run generalizing lo with
  | nil => exact absurd rfl some
  | cons a run ih =>
    obtain ⟨first, _, rest⟩ := tiles
    have freeA := free_run a List.mem_cons_self
    cases run with
    | nil =>
      refine ⟨a, ?_, freeA, first, rest⟩
      apply coalesce_parted
      refine List.isChain_cons.mpr ⟨?_, parted⟩
      intro c mc both
      rw [behind c mc] at both
      exact absurd both.2 (by decide)
    | cons c run =>
      obtain ⟨m, joined, freeM, startM, stopM⟩ :=
        ih (by simp) (fun d md => free_run d (List.mem_cons_of_mem a md)) rest
      refine ⟨join a m, ?_, joins.free_join a m freeA freeM, (starts a m).trans first,
        (stops a m startM.symm).trans stopM⟩
      have peel : coalesce free join (a :: c :: run ++ post) =
          absorb free join a (coalesce free join (c :: run ++ post)) := rfl
      rw [peel, joined]
      exact if_pos ⟨freeA, freeM⟩

end PiKernel.Coalesce
