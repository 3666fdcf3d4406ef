import PiKernel.Heap.WellFormed

/-!
Heaps and layouts determine each other: the words that spell out a given
layout, and the one layout a heap can represent.
-/
namespace PiKernel.HeapModel
open Tiling LinkedList

def linkWord : Int → List Int → Int → Int
  | _, [], _ => 0
  | before, k :: rest, j =>
    if j = k + 1 then rest.headD 0 else if j = k + 2 then before else linkWord k rest j

def Layout.word (L : Layout) (j : Int) : Int :=
  if j < 2 ∨ L.len - 2 ≤ j then -2
  else match L.blocks.find? (fun b => j = b.start ∨ j = b.stop - 1) with
    | some b => b.tag
    | none => linkWord 0 L.order j

def Layout.spell (L : Layout) (base : Nat) : Heap :=
  { base, array := L.word, len := L.len, avail := L.order.headD 0, theLock := 0,
    coresAwoken := false }

theorem linkWord_linked (before : Int) {l : List Int} (distinct : l.Nodup)
    (spaced : ∀ k ∈ l, ∀ m ∈ l, k < m → k + 4 ≤ m) (nonzero : ∀ k ∈ l, k ≠ 0) :
    Linked (fun i => linkWord before l (i + 1)) (fun i => linkWord before l (i + 2)) 0 before
      (l.headD 0) l := by
  induction l generalizing before with
  | nil => rfl
  | cons k l ih =>
    obtain ⟨fresh, distinctL⟩ := List.nodup_cons.mp distinct
    have tail := ih k distinctL
      (fun a ma b mb => spaced a (List.mem_cons_of_mem k ma) b (List.mem_cons_of_mem k mb))
      (fun a ma => nonzero a (List.mem_cons_of_mem k ma))
    have apart : ∀ i ∈ l, i + 4 ≤ k ∨ k + 4 ≤ i := by
      intro i mi
      have distinctI : i ≠ k := fun same => fresh (same ▸ mi)
      have up := spaced k List.mem_cons_self i (List.mem_cons_of_mem k mi)
      have down := spaced i (List.mem_cons_of_mem k mi) k List.mem_cons_self
      omega
    refine ⟨rfl, nonzero k List.mem_cons_self, ?_, ?_⟩
    · show linkWord before (k :: l) (k + 2) = before
      unfold linkWord
      rw [if_neg (by omega), if_pos rfl]
    · have ahead : linkWord before (k :: l) (k + 1) = l.headD 0 := if_pos rfl
      show Linked _ _ 0 k (linkWord before (k :: l) (k + 1)) l
      rw [ahead]
      refine linked_congr tail ?_ ?_ <;> intro i mi <;> have away := apart i mi <;>
        simp only [linkWord] <;> rw [if_neg (by omega), if_neg (by omega)]

/-- Inside the heap, a word is a tag of the only block it can belong to. -/
theorem word_tag {L : Layout} {b : Block} (member : b ∈ L.blocks) :
    L.word b.start = b.tag ∧ L.word (b.stop - 1) = b.tag := by
  have bounds := block_bounds member
  have found : ∀ j, j = b.start ∨ j = b.stop - 1 →
      L.blocks.find? (fun c => j = c.start ∨ j = c.stop - 1) = some b := by
    intro j own
    cases search : L.blocks.find? (fun c => j = c.start ∨ j = c.stop - 1) with
    | none =>
      have refused := List.find?_eq_none.mp search b member
      simp only [decide_eq_true_eq] at refused
      exact absurd own refused
    | some c =>
      have mc := List.mem_of_find?_eq_some search
      have hit := List.find?_some search
      have hc := block_bounds mc
      rw [decide_eq_true_eq] at hit
      simp only [Block.stop] at hit own
      rcases block_disjoint member mc with same | apart | apart
      · rw [same]
      · omega
      · omega
  constructor
  · unfold Layout.word
    rw [if_neg (by omega), found b.start (Or.inl rfl)]
  · unfold Layout.word
    rw [if_neg (by simp only [Block.stop]; omega), found (b.stop - 1) (Or.inr rfl)]

theorem word_link {L : Layout} {k : Int} (member : k ∈ L.order) :
    L.word (k + 1) = linkWord 0 L.order (k + 1) ∧ L.word (k + 2) = linkWord 0 L.order (k + 2) := by
  have range := order_range L k member
  have missed : ∀ j, j = k + 1 ∨ j = k + 2 →
      L.blocks.find? (fun c => j = c.start ∨ j = c.stop - 1) = none := by
    intro j link
    refine List.find?_eq_none.mpr ?_
    intro c mc
    have off := tag_off_links mc
    have first := off.1 k member
    have last := off.2 k member
    simp only [decide_eq_true_eq]
    omega
  constructor
  · unfold Layout.word
    rw [if_neg (by omega), missed (k + 1) (Or.inl rfl)]
  · unfold Layout.word
    rw [if_neg (by omega), missed (k + 2) (Or.inr rfl)]

theorem spell_represents (L : Layout) (base : Nat) : Represents (L.spell base) L := by
  have room := tiles_le L.tiles
  have sentinel : ∀ j, j < 2 ∨ L.len - 2 ≤ j → L.word j = -2 := fun j outside => if_pos outside
  refine ⟨rfl, rfl, ?_, ?_, fun b mb => (word_tag mb).1, fun b mb => (word_tag mb).2, ?_⟩
  · exact ⟨sentinel 0 (by omega), sentinel 1 (by omega)⟩
  · exact ⟨sentinel _ (by omega), sentinel _ (by omega)⟩
  · have links := linkWord_linked 0 (order_nodup L) (order_spaced L)
      (fun k mk => by have := order_range L k mk; omega)
    exact linked_congr links (fun k mk => (word_link mk).1) (fun k mk => (word_link mk).2)

theorem tag_inj {b c : Block} (sizeB : 4 ≤ b.size) (sizeC : 4 ≤ c.size)
    (start : b.start = c.start) (tag : b.tag = c.tag) : b = c := by
  have free : b.free = c.free := by
    cases freeB : b.free <;> cases freeC : c.free <;> simp [Block.tag, freeB, freeC] at tag ⊢ <;>
      omega
  have size : b.size = c.size := by
    simp only [Block.tag, free] at tag
    split at tag <;> omega
  exact block_ext start (by simp only [Block.stop]; omega) free

theorem tiles_determined {array : Int → Int} {lo hi : Int} {xs ys : List Block}
    (tilesX : Tiles Block.start Block.stop lo hi xs)
    (tilesY : Tiles Block.start Block.stop lo hi ys)
    (sizeX : ∀ b ∈ xs, 4 ≤ b.size) (sizeY : ∀ b ∈ ys, 4 ≤ b.size)
    (tagX : ∀ b ∈ xs, array b.start = b.tag) (tagY : ∀ b ∈ ys, array b.start = b.tag) :
    xs = ys := by
  induction xs generalizing lo ys with
  | nil =>
    cases ys with
    | nil => rfl
    | cons c ys =>
      have full := tiles_bounds tilesY List.mem_cons_self
      have empty : lo = hi := tilesX
      omega
  | cons b xs ih =>
    cases ys with
    | nil =>
      have full := tiles_bounds tilesX List.mem_cons_self
      have empty : lo = hi := tilesY
      omega
    | cons c ys =>
      obtain ⟨startB, _, restX⟩ := tilesX
      obtain ⟨startC, _, restY⟩ := tilesY
      have start : b.start = c.start := startB.trans startC.symm
      have tag : b.tag = c.tag := by
        rw [← tagX b List.mem_cons_self, ← tagY c List.mem_cons_self, start]
      have same := tag_inj (sizeX b List.mem_cons_self) (sizeY c List.mem_cons_self) start tag
      subst same
      rw [ih restX restY (fun d md => sizeX d (List.mem_cons_of_mem b md))
        (fun d md => sizeY d (List.mem_cons_of_mem b md))
        (fun d md => tagX d (List.mem_cons_of_mem b md))
        (fun d md => tagY d (List.mem_cons_of_mem b md))]

theorem represents_unique {h : Heap} {L M : Layout} (r : Represents h L) (s : Represents h M) :
    L = M := by
  have len : L.len = M.len := r.len_eq.symm.trans s.len_eq
  have blocks : L.blocks = M.blocks :=
    tiles_determined L.tiles (len ▸ M.tiles) L.min_size M.min_size r.header s.header
  have order : L.order = M.order := linked_unique r.linked s.linked
  obtain ⟨_, _, _⟩ := L
  obtain ⟨_, _, _⟩ := M
  simp only at len blocks order
  subst len blocks order
  rfl

end PiKernel.HeapModel
