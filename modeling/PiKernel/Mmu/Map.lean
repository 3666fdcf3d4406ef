import PiKernel.Mmu.Source

/-!
What the walker makes of the boot tables, for every reply of the firmware and
every virtual address.
-/
namespace PiKernel.Mmu
open PageWalk

theorem fill_base (entry : Nat → Descriptor) (stop base : Nat) (t : Tables) :
    (fill entry stop base t).1 = max base stop := by
  induction base, t using fill.induct entry stop with
  | case1 base t more ih =>
    rw [fill, if_pos more, ih]
    omega
  | case2 base t done =>
    rw [fill, if_neg done]
    simp only
    omega

theorem fill_entries (entry : Nat → Descriptor) (stop base : Nat) (t : Tables) (i : Nat) :
    (fill entry stop base t).2.stage2map1to1 i =
      if base ≤ i ∧ i < stop then entry i else t.stage2map1to1 i := by
  induction base, t using fill.induct entry stop with
  | case1 base t more ih =>
    rw [fill, if_pos more, ih]
    by_cases here : i = base
    · subst here
      simp [more, Tables.store]
    · have later : base + 1 ≤ i ∧ i < stop ↔ base ≤ i ∧ i < stop := by omega
      simp only [later, Tables.store, Function.update_of_ne here]
  | case2 base t done =>
    have nothing : ¬ (base ≤ i ∧ i < stop) := by omega
    rw [fill, if_neg done, if_neg nothing]

theorem fill_stores (entry : Nat → Descriptor) (stop base : Nat) (t : Tables) (i : Nat) :
    i ∈ (fill entry stop base t).2.stores ↔ i ∈ t.stores ∨ base ≤ i ∧ i < stop := by
  induction base, t using fill.induct entry stop with
  | case1 base t more ih =>
    rw [fill, if_pos more, ih]
    simp only [Tables.store, List.mem_append, List.mem_singleton]
    grind
  | case2 base t done =>
    have nothing : ¬ (base ≤ i ∧ i < stop) := by omega
    rw [fill, if_neg done]
    simp only [nothing, or_false]

theorem fill_frame (entry : Nat → Descriptor) (stop base : Nat) (t : Tables) :
    (fill entry stop base t).2.map1to1 = t.map1to1 ∧
      (fill entry stop base t).2.virtualmap = t.virtualmap ∧
      (fill entry stop base t).2.stage2virtual = t.stage2virtual ∧
      (fill entry stop base t).2.stage3virtual = t.stage3virtual := by
  induction base, t using fill.induct entry stop with
  | case1 base t more ih =>
    rw [fill, if_pos more]
    exact ih
  | case2 base t done =>
    rw [fill, if_neg done]
    exact ⟨rfl, rfl, rfl, rfl⟩

section Setup
variable (p : Placement) (reply : Option Nat)

theorem setup_entries (i : Nat) : (mmuSetupPagetable p reply).stage2map1to1 i =
    if i = 512 then deviceEntry 512
    else if i < vcBlocks reply then ramEntry i
    else if i < 504 then vcEntry i
    else if i < 512 then deviceEntry i else .zero := by
  simp only [mmuSetupPagetable, Tables.store, Function.update_apply, fill_entries, fill_base]
  by_cases last : i = 512
  · simp only [last, ↓reduceIte]
  · simp only [last, ↓reduceIte, Tables.zero]
    grind

theorem setup_stores (i : Nat) : i ∈ (mmuSetupPagetable p reply).stores ↔
    i < vcBlocks reply ∨ i ≤ 512 := by
  simp only [mmuSetupPagetable, Tables.store, List.mem_append, List.mem_singleton, fill_stores,
    fill_base, Tables.zero, List.not_mem_nil, false_or]
  omega

theorem setup_map1to1 (i : Nat) : (mmuSetupPagetable p reply).map1to1 i =
    if i = 1 then tableEntry (p.stage2map1to1.address + 8 * 512)
    else if i = 0 then tableEntry p.stage2map1to1.address else 0 := by
  simp only [mmuSetupPagetable, Tables.store, Function.update_apply, fill_frame, Tables.zero]

theorem setup_virtualmap (i : Nat) : (mmuSetupPagetable p reply).virtualmap i =
    if i = 511 then tableEntry p.stage2virtual.address else 0 := by
  simp only [mmuSetupPagetable, Tables.store, Function.update_apply, fill_frame, Tables.zero]

theorem setup_stage2virtual (i : Nat) : (mmuSetupPagetable p reply).stage2virtual i =
    if i = 511 then tableEntry p.stage3virtual.address else 0 := by
  simp only [mmuSetupPagetable, Tables.store, Function.update_apply, fill_frame, Tables.zero]

theorem setup_stage3virtual (i : Nat) :
    (mmuSetupPagetable p reply).stage3virtual i = .zero := by
  simp only [mmuSetupPagetable, Tables.store, fill_frame, Tables.zero]

end Setup

@[simp] theorem zero_raw : Descriptor.zero.raw64 = 0 := by decide

section Block
variable (memAttr sh base : Nat)

theorem block_kind : field (blockEntry memAttr sh base).raw64 0 2 = 1 :=
  field_pack [] _ 2 1

theorem block_accessed : field (blockEntry memAttr sh base).raw64 10 1 = 1 :=
  field_pack [(2, _), (4, _), (2, _), (2, _)] _ 1 1

theorem block_share : field (blockEntry memAttr sh base).raw64 8 2 = sh % 4 :=
  field_pack [(2, _), (4, _), (2, _)] _ 2 sh

/-- The hardware's attribute index is the low three of the four `MemAttr` bits. -/
theorem block_attr : field (blockEntry memAttr sh base).raw64 2 3 = memAttr % 8 := by
  have whole : field (blockEntry memAttr sh base).raw64 2 4 = memAttr % 16 :=
    field_pack [(2, _)] _ 4 memAttr
  rw [← Nat.add_zero 2, ← field_field (by omega : 0 + 3 ≤ 4), whole]
  unfold field
  omega

theorem block_address {base : Nat} (small : base < 2 ^ 27) :
    field (blockEntry memAttr sh base).raw64 21 27 = base := by
  have whole : field (blockEntry memAttr sh base).raw64 12 36 = base <<< (21 - 12) % 2 ^ 36 :=
    field_pack [(2, _), (4, _), (2, _), (2, _), (1, _), (1, _)] _ 36 _
  have split : 21 = 12 + 9 := rfl
  rw [split, ← field_field (by omega : 9 + 27 ≤ 36), whole]
  unfold field
  rw [Nat.shiftLeft_eq]
  omega

end Block

theorem leaf_block {va : Nat} (level memAttr sh : Nat) (small : va < 2 ^ 48) :
    leaf mair1Val level 21 (blockEntry memAttr sh (va / 2 ^ 21)).raw64 va =
      .mapped va (field mair1Val (8 * (memAttr % 8)) 8) (sh % 4) := by
  have base : va / 2 ^ 21 < 2 ^ 27 := by omega
  have address : va / 2 ^ 21 * 2 ^ 21 + va % 2 ^ 21 = va := Nat.div_add_mod' va (2 ^ 21)
  unfold leaf
  rw [block_accessed, block_attr, block_share, block_address memAttr sh base, address]
  rfl

section Walk
variable {p : Placement} {reply : Option Nat} {fetch : Nat → Nat} {va : Nat}

theorem width0_eq (p : Placement) : (mmuEnable p).width0 = 39 := by
  have t0sz : field tcrEl1Val 0 6 = 25 := by decide
  simp only [Regime.width0, mmuEnable, t0sz]

theorem width1_eq (p : Placement) : (mmuEnable p).width1 = 39 := by
  have t1sz : field tcrEl1Val 16 6 = 25 := by decide
  simp only [Regime.width1, mmuEnable, t1sz]

theorem lower_walk (lower : va < 2 ^ 39) : translateAddress fetch (mmuEnable p) va =
    walk fetch mair1Val va 2 p.map1to1.address := by
  unfold translateAddress
  rw [width0_eq, if_pos lower]
  rfl

theorem upper_walk (upper : 2 ^ 64 - 2 ^ 39 ≤ va) : translateAddress fetch (mmuEnable p) va =
    walk fetch mair1Val va 2 p.virtualmap.address := by
  unfold translateAddress
  rw [width0_eq, width1_eq, if_neg (by omega), if_pos upper]
  rfl

theorem tableEntry_eq (address : Nat) : tableEntry address = 2 ^ 63 ||| address ||| 3 := rfl

/-- Both halves of `Stage2map1to1` are reached through the first level. -/
theorem stage2_walk (placed : InMemory p (mmuSetupPagetable p reply) fetch) (low : va < 2 ^ 31) :
    ∃ table, walk fetch mair1Val va 2 p.map1to1.address = walk fetch mair1Val va 1 table ∧
      fetch (table + 8 * field va 21 9) =
        ((mmuSetupPagetable p reply).stage2map1to1 (va / 2 ^ 21)).raw64 := by
  have read := placed.map1to1 (field va 30 9) (by unfold field; omega)
  have entry := placed.stage2map1to1 (va / 2 ^ 21) (by omega)
  have aligned := p.stage2map1to1.aligned
  have below := p.stage2map1to1.below
  rw [setup_map1to1] at read
  by_cases half : va < 2 ^ 30
  · have first : field va 30 9 = 0 := by unfold field; omega
    have second : field va 21 9 = va / 2 ^ 21 := by unfold field; omega
    rw [if_neg (by omega), if_pos first, tableEntry_eq] at read
    exact ⟨p.stage2map1to1.address, walk_table rfl aligned (by omega) read, second ▸ entry⟩
  · have first : field va 30 9 = 1 := by unfold field; omega
    have second : p.stage2map1to1.address + 8 * 512 + 8 * field va 21 9 =
        p.stage2map1to1.address + 8 * (va / 2 ^ 21) := by unfold field; omega
    rw [if_pos first, tableEntry_eq] at read
    refine ⟨p.stage2map1to1.address + 8 * 512, walk_table rfl (by omega) (by omega) read, ?_⟩
    rw [second]
    exact entry

theorem block_walk (placed : InMemory p (mmuSetupPagetable p reply) fetch) (low : va < 2 ^ 31)
    {memAttr sh : Nat} (block : (mmuSetupPagetable p reply).stage2map1to1 (va / 2 ^ 21) =
      blockEntry memAttr sh (va / 2 ^ 21)) :
    translateAddress fetch (mmuEnable p) va =
      .mapped va (field mair1Val (8 * (memAttr % 8)) 8) (sh % 4) := by
  obtain ⟨table, step, read⟩ := stage2_walk placed low
  rw [block] at read
  rw [lower_walk (by omega), step, walk_block (n := 0) rfl read (block_kind memAttr sh (va / 2 ^ 21))]
  exact leaf_block 2 memAttr sh (by omega)

theorem lower_fault (placed : InMemory p (mmuSetupPagetable p reply) fetch)
    (window : vcBlocks reply ≤ 504) (high : 0x40200000 ≤ va) (lower : va < 2 ^ 39) :
    ∃ level, translateAddress fetch (mmuEnable p) va = .translationFault level := by
  rw [lower_walk lower]
  by_cases low : va < 2 ^ 31
  · obtain ⟨table, step, read⟩ := stage2_walk placed low
    have empty : (mmuSetupPagetable p reply).stage2map1to1 (va / 2 ^ 21) = .zero := by
      rw [setup_entries, if_neg (by omega), if_neg (by omega), if_neg (by omega),
        if_neg (by omega)]
    rw [empty, zero_raw] at read
    exact ⟨2, step.trans (walk_invalid rfl read)⟩
  · have read := placed.map1to1 (field va 30 9) (by unfold field; omega)
    have beyond : 2 ≤ field va 30 9 := by unfold field; omega
    rw [setup_map1to1, if_neg (by omega), if_neg (by omega)] at read
    exact ⟨1, walk_invalid rfl read⟩

theorem upper_fault (placed : InMemory p (mmuSetupPagetable p reply) fetch)
    (upper : 2 ^ 64 - 2 ^ 39 ≤ va) :
    ∃ level, translateAddress fetch (mmuEnable p) va = .translationFault level := by
  rw [upper_walk upper]
  have first := placed.virtualmap (field va 30 9) (by unfold field; omega)
  have second := placed.stage2virtual (field va 21 9) (by unfold field; omega)
  have third := placed.stage3virtual (field va 12 9) (by unfold field; omega)
  rw [setup_virtualmap] at first
  rw [setup_stage2virtual] at second
  rw [setup_stage3virtual, zero_raw] at third
  by_cases top : field va 30 9 = 511
  · have below := p.stage2virtual.below
    rw [if_pos top, tableEntry_eq] at first
    rw [walk_table (n := 1) rfl p.stage2virtual.aligned (by omega) first]
    by_cases next : field va 21 9 = 511
    · have below := p.stage3virtual.below
      rw [if_pos next, tableEntry_eq] at second
      rw [walk_table (n := 0) rfl p.stage3virtual.aligned (by omega) second]
      exact ⟨3, walk_invalid_page third⟩
    · rw [if_neg next] at second
      exact ⟨2, walk_invalid rfl second⟩
  · rw [if_neg top] at first
    exact ⟨1, walk_invalid rfl first⟩

end Walk

/-- The attributes of MAIR_EL1 by their architectural names, and shareability. -/
def deviceNGnRnE : Nat := 0x00
def normalNonCacheable : Nat := 0x44
def normalWriteBack : Nat := 0xff
def innerShareable : Nat := 3

def Cacheable (attr : Nat) : Prop := attr / 16 ≠ 0 ∧ attr ≠ normalNonCacheable

structure AddressMap (vcBase : Nat) (translate : Nat → Translation) : Prop where
  ram : ∀ va < 2 ^ 21 * (vcBase / 2 ^ 21),
    translate va = .mapped va normalWriteBack innerShareable
  vc : ∀ va, 2 ^ 21 * (vcBase / 2 ^ 21) ≤ va → va < 0x3F000000 →
    translate va = .mapped va normalNonCacheable 0
  peripherals : ∀ va, 0x3F000000 ≤ va → va < 0x40200000 →
    translate va = .mapped va deviceNGnRnE 0
  unmapped : ∀ va, 0x40200000 ≤ va → va < 2 ^ 39 → ∃ level, translate va = .translationFault level
  uncached : ∀ va, vcBase ≤ va → va < 2 ^ 39 → ∀ pa attr share,
    translate va = .mapped pa attr share → ¬ Cacheable attr
  upper : ∀ va, 2 ^ 64 - 2 ^ 39 ≤ va → ∃ level, translate va = .translationFault level

theorem vcBlocks_eq (reply : Option Nat) : vcBlocks reply = reply.getD 0 / 2 ^ 21 := by
  cases reply <;> rfl

section Entries
variable (p : Placement) {reply : Option Nat} {i : Nat}

theorem ram_entry (low : i < vcBlocks reply) (other : i ≠ 512) :
    (mmuSetupPagetable p reply).stage2map1to1 i = ramEntry i := by
  rw [setup_entries, if_neg other, if_pos low]

theorem vc_entry (high : vcBlocks reply ≤ i) (low : i < 504) :
    (mmuSetupPagetable p reply).stage2map1to1 i = vcEntry i := by
  rw [setup_entries, if_neg (by omega), if_neg (by omega), if_pos low]

theorem device_entry (window : vcBlocks reply ≤ i) (high : 504 ≤ i) (low : i ≤ 512) :
    (mmuSetupPagetable p reply).stage2map1to1 i = deviceEntry i := by
  rw [setup_entries]
  by_cases last : i = 512
  · rw [if_pos last, last]
  · rw [if_neg last, if_neg (by omega), if_neg (by omega), if_pos (by omega)]

end Entries

/-- The tables give the intended map wherever the VC memory begins below the peripherals. -/
theorem boot_map (p : Placement) (reply : Option Nat) (fetch : Nat → Nat)
    (window : reply.getD 0 ≤ 0x3F000000)
    (placed : InMemory p (mmuSetupPagetable p reply) fetch) :
    AddressMap (reply.getD 0) (translateAddress fetch (mmuEnable p)) := by
  have blocks := vcBlocks_eq reply
  have ram : ∀ va < 2 ^ 21 * (reply.getD 0 / 2 ^ 21), translateAddress fetch (mmuEnable p) va =
      .mapped va normalWriteBack innerShareable := by
    intro va low
    exact block_walk placed (by omega) (ram_entry p (by omega) (by omega))
  have vc : ∀ va, 2 ^ 21 * (reply.getD 0 / 2 ^ 21) ≤ va → va < 0x3F000000 →
      translateAddress fetch (mmuEnable p) va = .mapped va normalNonCacheable 0 := by
    intro va high low
    exact block_walk placed (by omega) (vc_entry p (by omega) (by omega))
  have peripherals : ∀ va, 0x3F000000 ≤ va → va < 0x40200000 →
      translateAddress fetch (mmuEnable p) va = .mapped va deviceNGnRnE 0 := by
    intro va high low
    exact block_walk placed (by omega) (device_entry p (by omega) (by omega) (by omega))
  have unmapped : ∀ va, 0x40200000 ≤ va → va < 2 ^ 39 →
      ∃ level, translateAddress fetch (mmuEnable p) va = .translationFault level := by
    intro va high lower
    exact lower_fault placed (by omega) high lower
  refine ⟨ram, vc, peripherals, unmapped, ?_, fun va upper => upper_fault placed upper⟩
  intro va above lower pa attr share mapped
  by_cases low : va < 0x3F000000
  · rw [vc va (by omega) low] at mapped
    injection mapped with _ same _
    exact same ▸ fun cached => cached.2 rfl
  · by_cases high : va < 0x40200000
    · rw [peripherals va (by omega) high] at mapped
      injection mapped with _ same _
      exact same ▸ fun cached => cached.1 rfl
    · obtain ⟨level, fault⟩ := unmapped va (by omega) lower
      rw [fault] at mapped
      exact absurd mapped (by simp)

def consecutive : Placement where
  map1to1 := ⟨0x90000, by decide, by decide⟩
  virtualmap := ⟨0x91000, by decide, by decide⟩
  stage2virtual := ⟨0x92000, by decide, by decide⟩
  stage2map1to1 := ⟨0x93000, by decide, by decide⟩
  stage3virtual := ⟨0x95000, by decide, by decide⟩

def consecutiveMemory (t : Tables) (address : Nat) : Nat :=
  if address < 0x91000 then t.map1to1 ((address - 0x90000) / 8)
  else if address < 0x92000 then t.virtualmap ((address - 0x91000) / 8)
  else if address < 0x93000 then t.stage2virtual ((address - 0x92000) / 8)
  else if address < 0x95000 then (t.stage2map1to1 ((address - 0x93000) / 8)).raw64
  else (t.stage3virtual ((address - 0x95000) / 8)).raw64

theorem consecutive_inMemory (t : Tables) : InMemory consecutive t (consecutiveMemory t) where
  map1to1 := by
    intro i bound
    have place : consecutive.map1to1.address = 0x90000 := rfl
    have index : (0x90000 + 8 * i - 0x90000) / 8 = i := by omega
    rw [place]
    unfold consecutiveMemory
    rw [if_pos (by omega), index]
  virtualmap := by
    intro i bound
    have place : consecutive.virtualmap.address = 0x91000 := rfl
    have index : (0x91000 + 8 * i - 0x91000) / 8 = i := by omega
    rw [place]
    unfold consecutiveMemory
    rw [if_neg (by omega), if_pos (by omega), index]
  stage2virtual := by
    intro i bound
    have place : consecutive.stage2virtual.address = 0x92000 := rfl
    have index : (0x92000 + 8 * i - 0x92000) / 8 = i := by omega
    rw [place]
    unfold consecutiveMemory
    rw [if_neg (by omega), if_neg (by omega), if_pos (by omega), index]
  stage2map1to1 := by
    intro i bound
    have place : consecutive.stage2map1to1.address = 0x93000 := rfl
    have index : (0x93000 + 8 * i - 0x93000) / 8 = i := by omega
    rw [place]
    unfold consecutiveMemory
    rw [if_neg (by omega), if_neg (by omega), if_neg (by omega), if_pos (by omega), index]
  stage3virtual := by
    intro i bound
    have place : consecutive.stage3virtual.address = 0x95000 := rfl
    have index : (0x95000 + 8 * i - 0x95000) / 8 = i := by omega
    rw [place]
    unfold consecutiveMemory
    rw [if_neg (by omega), if_neg (by omega), if_neg (by omega), if_neg (by omega), index]

theorem boot_map_consecutive : AddressMap 0x3C000000
    (translateAddress (consecutiveMemory (mmuSetupPagetable consecutive (some 0x3C000000)))
      (mmuEnable consecutive)) :=
  boot_map consecutive (some 0x3C000000) _ (by decide) (consecutive_inMemory _)

def blockOf (t : Tables) (va : Nat) : Translation :=
  leaf mair1Val 2 21 (t.stage2map1to1 (va / 2 ^ 21)).raw64 va

structure SetupSafe (vcBase : Nat) (t : Tables) : Prop where
  inside : ∀ i ∈ t.stores, i < 1024
  device : ∀ va, 0x3F000000 ≤ va → va < 0x40200000 → ∃ share,
    blockOf t va = .mapped va deviceNGnRnE share
  uncached : ∀ va, vcBase / 2 ^ 21 ≤ va / 2 ^ 21 → va < 0x3F000000 → ∀ pa attr share,
    blockOf t va = .mapped pa attr share → ¬ Cacheable attr

/-- The first loop has then covered the first block of the peripherals. -/
theorem high_breaks (p : Placement) {reply : Option Nat} (high : 0x3F200000 ≤ reply.getD 0) :
    ¬ SetupSafe (reply.getD 0) (mmuSetupPagetable p reply) := by
  intro safe
  have blocks := vcBlocks_eq reply
  obtain ⟨share, device⟩ := safe.device 0x3F000000 (by decide) (by decide)
  have cached := leaf_block 2 mtNormal stage2ShInnerShareable (by decide : 0x3F000000 < 2 ^ 48)
  unfold blockOf at device
  rw [ram_entry p (by omega) (by decide), ramEntry, cached] at device
  injection device with _ attr _
  exact absurd attr (by decide)

/-- Safe for a failed call and for a base below the second block of the peripherals. -/
theorem setup_safe_iff (p : Placement) (reply : Option Nat) :
    SetupSafe (reply.getD 0) (mmuSetupPagetable p reply) ↔ reply.getD 0 < 0x3F200000 := by
  constructor
  · intro safe
    by_contra high
    exact high_breaks p (Nat.le_of_not_lt high) safe
  · intro low
    have blocks := vcBlocks_eq reply
    constructor
    · intro i stored
      have bound := (setup_stores p reply i).mp stored
      omega
    · intro va high low
      refine ⟨0, ?_⟩
      unfold blockOf
      rw [device_entry p (by omega) (by omega) (by omega)]
      exact leaf_block 2 mtDeviceNGnRnE 0 (by omega)
    · intro va above low pa attr share mapped
      unfold blockOf at mapped
      rw [vc_entry p (by omega) (by omega)] at mapped
      have read := leaf_block 2 mtNormalNC 0 (by omega : va < 2 ^ 48)
      rw [vcEntry, read] at mapped
      injection mapped with _ same _
      exact same ▸ fun cached => cached.2 rfl

/-- A VC base inside the peripherals, and one beyond the end of the table. -/
theorem setup_breaks :
    ¬ SetupSafe 0x3F200000 (mmuSetupPagetable consecutive (some 0x3F200000)) ∧
    1024 ∈ (mmuSetupPagetable consecutive (some 0x80200000)).stores := by
  constructor
  · exact @high_breaks consecutive (some 0x3F200000) (by decide)
  · rw [setup_stores]
    decide

end PiKernel.Mmu
