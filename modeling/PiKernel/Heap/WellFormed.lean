import Mathlib.Data.List.Chain
import PiKernel.Lib.Tiling
import PiKernel.Heap.FreeList

/-!
The abstract heap: a list of blocks that tile the words between the two
sentinels, and the order in which the free ones are listed. `Represents h L`
says that the words of `h` spell out the layout `L`.
-/
namespace PiKernel.HeapModel
open Tiling

structure Block where
  start : Int
  size : Int
  free : Bool
  deriving DecidableEq, Repr

def Block.stop (b : Block) : Int := b.start + b.size

/-- The value of a block's header and footer: its size, negative when taken. -/
def Block.tag (b : Block) : Int := if b.free then b.size else -b.size

theorem block_ext {b c : Block} (start : b.start = c.start) (stop : b.stop = c.stop)
    (free : b.free = c.free) : b = c := by
  obtain ⟨_, _, _⟩ := b
  obtain ⟨_, _, _⟩ := c
  simp only [Block.stop] at start stop free
  subst start free
  congr 1
  omega

theorem free_ne_taken {b c : Block} (free : b.free = true) (taken : c.free = false) : b ≠ c := by
  rintro rfl
  rw [taken] at free
  exact absurd free (by decide)

def freeStarts (blocks : List Block) : List Int := (blocks.filter Block.free).map Block.start

def Apart (a b : Block) : Prop := ¬ (a.free = true ∧ b.free = true)

instance (a b : Block) : Decidable (Apart a b) := inferInstanceAs (Decidable (¬ _))

structure Layout where
  len : Int
  blocks : List Block
  order : List Int
  small : len < 2 ^ 31
  tiles : Tiles Block.start Block.stop 2 (len - 2) blocks
  min_size : ∀ b ∈ blocks, 4 ≤ b.size
  separated : blocks.IsChain Apart
  listed : order.Perm (freeStarts blocks)

theorem fresh_tiles {len : Int} (room : 8 ≤ len) :
    Tiles Block.start Block.stop 2 (len - 2) [⟨2, len - 4, true⟩] :=
  ⟨rfl, by simp only [Block.stop]; omega, by simp only [Tiles, Block.stop]; omega⟩

theorem fresh_min_size {len : Int} (room : 8 ≤ len) :
    ∀ b ∈ [(⟨2, len - 4, true⟩ : Block)], 4 ≤ b.size := by
  intro b mb
  rw [List.mem_singleton.mp mb]
  show 4 ≤ len - 4
  omega

def freshLayout (len : Int) (room : 8 ≤ len) (small : len < 2 ^ 31) : Layout where
  len := len
  blocks := [⟨2, len - 4, true⟩]
  order := [2]
  small := small
  tiles := fresh_tiles room
  min_size := fresh_min_size room
  separated := List.isChain_singleton _
  listed := List.Perm.refl _

/-- `asleep`: heap.cpp's own copy of the flag has its initial value, which no
    function of heap.cpp changes. -/
structure Represents (h : Heap) (L : Layout) : Prop where
  asleep : h.coresAwoken = false
  len_eq : h.len = L.len
  first : h.array 0 = -2 ∧ h.array 1 = -2
  last : h.array (L.len - 2) = -2 ∧ h.array (L.len - 1) = -2
  header : ∀ b ∈ L.blocks, h.array b.start = b.tag
  footer : ∀ b ∈ L.blocks, h.array (b.stop - 1) = b.tag
  linked : LinkedList.Linked (fun i => h.array (i + 1)) (fun i => h.array (i + 2)) 0 0
    h.avail L.order

def WellFormed (h : Heap) : Prop := ∃ L, Represents h L

theorem mem_freeStarts {blocks : List Block} {i : Int} :
    i ∈ freeStarts blocks ↔ ∃ b ∈ blocks, b.free = true ∧ b.start = i := by
  simp [freeStarts, and_assoc]

theorem freeStarts_append (xs ys : List Block) :
    freeStarts (xs ++ ys) = freeStarts xs ++ freeStarts ys := by
  simp [freeStarts]

theorem mem_order {L : Layout} {i : Int} :
    i ∈ L.order ↔ ∃ b ∈ L.blocks, b.free = true ∧ b.start = i := by
  rw [L.listed.mem_iff, mem_freeStarts]

theorem block_bounds {L : Layout} {b : Block} (member : b ∈ L.blocks) :
    2 ≤ b.start ∧ 4 ≤ b.size ∧ b.start + b.size ≤ L.len - 2 := by
  have bounds := tiles_bounds L.tiles member
  have size := L.min_size b member
  exact ⟨bounds.1, size, bounds.2.2⟩

theorem block_disjoint {L : Layout} {b c : Block} (mb : b ∈ L.blocks) (mc : c ∈ L.blocks) :
    b = c ∨ b.start + b.size ≤ c.start ∨ c.start + c.size ≤ b.start :=
  tiles_disjoint L.tiles mb mc

theorem order_nodup (L : Layout) : L.order.Nodup := by
  rw [L.listed.nodup_iff]
  exact ((List.filter_sublist).map Block.start).nodup (tiles_starts_nodup L.tiles)

theorem order_spaced (L : Layout) : ∀ k ∈ L.order, ∀ l ∈ L.order, k < l → k + 4 ≤ l := by
  intro k mk l ml less
  obtain ⟨b, mb, _, rfl⟩ := mem_order.mp mk
  obtain ⟨c, mc, _, rfl⟩ := mem_order.mp ml
  have hb := block_bounds mb
  have hc := block_bounds mc
  rcases block_disjoint mb mc with same | apart | apart
  · subst same
    omega
  · omega
  · omega

theorem order_range (L : Layout) : ∀ k ∈ L.order, 2 ≤ k ∧ k + 4 ≤ L.len - 2 := by
  intro k mk
  obtain ⟨b, mb, _, rfl⟩ := mem_order.mp mk
  have hb := block_bounds mb
  omega

theorem represents_freeList {h : Heap} {L : Layout} (r : Represents h L) :
    FreeList h L.order := by
  refine ⟨r.linked, order_nodup L, order_spaced L, ?_⟩
  intro k mk
  have range := order_range L k mk
  have small := L.small
  omega

theorem tag_off_links {L : Layout} {b : Block} (member : b ∈ L.blocks) :
    OffLinks L.order b.start ∧ OffLinks L.order (b.stop - 1) := by
  have key : ∀ c ∈ L.blocks, b.start ≠ c.start + 1 ∧ b.start ≠ c.start + 2 ∧
      b.stop - 1 ≠ c.start + 1 ∧ b.stop - 1 ≠ c.start + 2 := by
    intro c mc
    have hb := block_bounds member
    have hc := block_bounds mc
    simp only [Block.stop]
    rcases block_disjoint member mc with same | apart | apart
    · subst same
      omega
    · omega
    · omega
  constructor <;> intro k mk <;> obtain ⟨c, mc, _, rfl⟩ := mem_order.mp mk
  · exact ⟨(key c mc).1, (key c mc).2.1⟩
  · exact ⟨(key c mc).2.2.1, (key c mc).2.2.2⟩

theorem sentinel_off_links {L : Layout} {j : Int} (outside : j < 2 ∨ L.len - 2 ≤ j) :
    OffLinks L.order j := by
  intro k mk
  obtain ⟨c, mc, _, rfl⟩ := mem_order.mp mk
  have hc := block_bounds mc
  omega

theorem tag_size {h : Heap} {L : Layout} {b : Block} (member : b ∈ L.blocks) {j : Int}
    (tag : h.array j = b.tag) : h.size j = b.size := by
  have hb := block_bounds member
  have := L.small
  unfold Heap.size
  rw [tag]
  unfold Block.tag
  split
  · rw [asInt_eq (by omega) (by omega), abs_pos (by omega)]
  · rw [asInt_eq (by omega) (by omega), abs_neg (by omega)]

theorem header_size {h : Heap} {L : Layout} (r : Represents h L) {b : Block}
    (member : b ∈ L.blocks) : h.size b.start = b.size := tag_size member (r.header b member)

theorem footer_size {h : Heap} {L : Layout} (r : Represents h L) {b : Block}
    (member : b ∈ L.blocks) : h.size (b.stop - 1) = b.size := tag_size member (r.footer b member)

theorem sentinel_size {h : Heap} {j : Int} (word : h.array j = -2) : h.size j = 2 := by
  unfold Heap.size
  rw [word]
  rfl

theorem taken_header_neg {h : Heap} {L : Layout} (r : Represents h L) {b : Block}
    (member : b ∈ L.blocks) (taken : b.free = false) : h.array b.start < 0 := by
  have hb := block_bounds member
  rw [r.header b member, Block.tag, taken]
  simp only [Bool.false_eq_true, ↓reduceIte]
  omega

theorem free_header_pos {h : Heap} {L : Layout} (r : Represents h L) {b : Block}
    (member : b ∈ L.blocks) (free : b.free = true) : h.array b.start > 0 := by
  have hb := block_bounds member
  rw [r.header b member, Block.tag, if_pos free]
  omega

/-- A change of the words in `[lo, hi)` and of links, after which the blocks outside
    are old ones and the others have their tags. -/
theorem represents_region {h h' : Heap} {L M : Layout} (r : Represents h L) (lo hi : Int)
    (asleep : h'.coresAwoken = h.coresAwoken) (len : h'.len = h.len) (same : M.len = L.len)
    (room : 2 ≤ lo ∧ hi ≤ L.len - 2)
    (frame : ∀ j, j < lo ∨ hi ≤ j → OffLinks L.order j → h'.array j = h.array j)
    (blocks : ∀ c ∈ M.blocks, (h'.array c.start = c.tag ∧ h'.array (c.stop - 1) = c.tag) ∨
      (c ∈ L.blocks ∧ (c.stop ≤ lo ∨ hi ≤ c.start)))
    (list : FreeList h' M.order) : Represents h' M := by
  have tags : ∀ c ∈ M.blocks, h'.array c.start = c.tag ∧ h'.array (c.stop - 1) = c.tag := by
    intro c mc
    rcases blocks c mc with new | ⟨old, outside⟩
    · exact new
    · have bounds := block_bounds old
      have off := tag_off_links old
      have header := frame c.start (by simp only [Block.stop] at outside; omega) off.1
      have footer := frame (c.stop - 1) (by simp only [Block.stop] at *; omega) off.2
      exact ⟨header.trans (r.header c old), footer.trans (r.footer c old)⟩
  have sentinel : ∀ j, j < 2 ∨ L.len - 2 ≤ j → h'.array j = h.array j := by
    intro j outside
    exact frame j (by omega) (sentinel_off_links outside)
  refine ⟨asleep.trans r.asleep, len.trans (r.len_eq.trans same.symm), ?_, ?_,
    fun c mc => (tags c mc).1, fun c mc => (tags c mc).2, list.linked⟩
  · rw [sentinel 0 (by omega), sentinel 1 (by omega)]
    exact r.first
  · rw [same, sentinel _ (by omega), sentinel _ (by omega)]
    exact r.last

/-- The owner of a taken block may write anything between its header and footer. -/
theorem represents_payload {h h' : Heap} {L : Layout} (r : Represents h L) {b : Block}
    (member : b ∈ L.blocks) (taken : b.free = false)
    (front : h'.avail = h.avail) (len : h'.len = h.len)
    (asleep : h'.coresAwoken = h.coresAwoken)
    (frame : ∀ j, j ≤ b.start ∨ b.stop - 1 ≤ j → h'.array j = h.array j) : Represents h' L := by
  have bounds := block_bounds member
  have apart : ∀ c ∈ L.blocks, c ≠ b → c.stop ≤ b.start ∨ b.stop ≤ c.start := by
    intro c mc distinct
    exact ((block_disjoint member mc).resolve_left (Ne.symm distinct)).symm
  have links : ∀ k ∈ L.order, h'.array (k + 1) = h.array (k + 1) ∧
      h'.array (k + 2) = h.array (k + 2) := by
    intro k mk
    obtain ⟨c, mc, free, rfl⟩ := mem_order.mp mk
    have boundsC := block_bounds mc
    have away := apart c mc (free_ne_taken free taken)
    simp only [Block.stop] at away frame
    exact ⟨frame _ (by omega), frame _ (by omega)⟩
  apply represents_region (M := L) r (b.start + 1) (b.stop - 1) asleep len rfl
    ⟨by omega, by simp only [Block.stop]; omega⟩
  · intro j outside _
    exact frame j (by omega)
  · intro c mc
    by_cases own : c = b
    · left
      rw [own, frame _ (Or.inl (le_refl _)), frame _ (Or.inr (le_refl _))]
      exact ⟨r.header b member, r.footer b member⟩
    · exact Or.inr ⟨mc, (apart c mc own).imp (by omega) (by omega)⟩
  · exact freeList_congr (represents_freeList r) front (fun k mk => (links k mk).1)
      fun k mk => (links k mk).2

theorem listed_block {L : Layout} {i : Int} (member : i ∈ L.order) :
    ∃ b ∈ L.blocks, b.free = true ∧ b.start = i := mem_order.mp member

theorem block_unique {L : Layout} {b c : Block} (mb : b ∈ L.blocks) (mc : c ∈ L.blocks)
    (same : b.start = c.start) : b = c := tiles_start_inj L.tiles mb mc same

end PiKernel.HeapModel
