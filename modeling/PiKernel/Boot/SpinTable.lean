import PiKernel.Boot.Entry
import PiKernel.Boot.Source

/-!
Cores that wait. A core parks in `proc_hang`: every core but 0 right after its
reset, and each core when `kernel_init` returns. The firmware holds the others
until `wake_up_cores` has stored an address in their entries of its spin table.
-/
namespace PiKernel.Assembly
open Privilege Transition
open Arm64 (Word Memory)

variable {l : Layout} {outside : State → State → Prop} {s : State}

def Parking (s : State) : Prop :=
  s.pc = line 35 ∨ s.pc = line 67 ∨ s.pc = entry ∧ getCoreID s ≠ 0 ∧ 1 ≤ s.level.toNat

def Hanging (t : State) : Prop := t.pc = procHang ∨ t.pc = line 5

/-- `t` is still at the branch to `proc_hang`, in the first lines of the code or hanging. -/
structure Parked (s t : State) : Prop where
  mem : t.mem = s.mem
  sys : t.sys = s.sys
  level : t.level = s.level
  spSel : t.spSel = s.spSel
  daif : t.daif = s.daif
  pc : Hanging t ∨ t = s ∧ (s.pc = line 35 ∨ s.pc = line 67) ∨
    s.pc = entry ∧ getCoreID s ≠ 0 ∧ 1 ≤ s.level.toNat ∧ (t = s ∨
      t.pc = line 1 ∧ t.x 0 = s.sys .mpidrEl1 ∨
      t.pc = line 2 ∧ t.x 0 = s.sys .mpidrEl1 &&& 0xFF ∨ t.pc = line 3)

theorem parking_parked (parking : Parking s) : Parked s s := by
  refine ⟨rfl, rfl, rfl, rfl, rfl, ?_⟩
  rcases parking with here | here | ⟨here, other, level⟩
  · exact Or.inr (Or.inl ⟨rfl, Or.inl here⟩)
  · exact Or.inr (Or.inl ⟨rfl, Or.inr here⟩)
  · exact Or.inr (Or.inr ⟨here, other, level, Or.inl rfl⟩)

theorem parked_hangs {t : State} (parked : Parked s t) {pc : Word}
    (next : pc = procHang ∨ pc = line 5) : Parked s { t with pc := pc } :=
  ⟨parked.mem, parked.sys, parked.level, parked.spSel, parked.daif, Or.inl next⟩

theorem parked_goes {t : State} (parked : Parked s t) (x : Arm64.Reg → Word) {pc : Word}
    (first : s.pc = entry) (other : getCoreID s ≠ 0) (level : 1 ≤ s.level.toNat)
    (next : pc = line 1 ∧ x 0 = s.sys .mpidrEl1 ∨ pc = line 2 ∧ x 0 = s.sys .mpidrEl1 &&& 0xFF ∨
      pc = line 3) : Parked s { t with pc := pc, x := x } :=
  ⟨parked.mem, parked.sys, parked.level, parked.spSel, parked.daif,
    Or.inr (Or.inr ⟨first, other, level, Or.inr next⟩)⟩

theorem line_exec {t u : State} {k : Nat} {i : Instr} (step : Step (code l outside) t u)
    (here : t.pc = line k) (listed : (bootCode l)[k]? = some i) : i.exec t = some u := by
  apply step_exec _ step
  rw [here]
  exact boot_line listed

theorem hanging_step {t u : State} (hanging : Hanging t) (step : Step (code l outside) t u) :
    u = { t with pc := u.pc } ∧ Hanging u := by
  rcases hanging with here | here
  · obtain rfl := Option.some.inj (line_exec (k := 4) (i := .wfe) step here rfl)
    refine ⟨rfl, Or.inr ?_⟩
    show t.pc + 4 = line 5
    rw [here]
    decide
  · obtain rfl := Option.some.inj (line_exec (k := 5) (i := .b procHang) step here rfl)
    exact ⟨rfl, Or.inl rfl⟩

theorem hanging_stays {t u : State} (hanging : Hanging t)
    (reach : Reachable (core (code l outside) t) u) : Hanging u := by
  apply reachable_invariant _ _ reach
  · rintro v rfl
    exact hanging
  · intro v _ w still step
    exact (hanging_step still step).2

theorem parked_step {t u : State} (parked : Parked s t) (step : Step (code l outside) t u) :
    Parked s u := by
  rcases parked.pc with hanging | ⟨rfl, here | here⟩ |
    ⟨first, other, level, rfl | ⟨here, x0⟩ | ⟨here, x0⟩ | here⟩
  · obtain ⟨same, next⟩ := hanging_step hanging step
    rw [same]
    exact parked_hangs parked next
  · obtain rfl := Option.some.inj (line_exec (k := 35) (i := .b procHang) step here rfl)
    exact parked_hangs parked (Or.inl rfl)
  · obtain rfl := Option.some.inj (line_exec (k := 67) (i := .b procHang) step here rfl)
    exact parked_hangs parked (Or.inl rfl)
  · have effect := line_exec (k := 0) (i := .mrs 0 .mpidrEl1) step (first.trans (by decide)) rfl
    have allowed : SysReg.mpidrEl1.owner.toNat ≤ t.level.toNat := level
    rw [Instr.exec, if_pos allowed] at effect
    obtain rfl := Option.some.inj effect
    apply parked_goes parked _ first other level
    refine Or.inl ⟨?_, Function.update_self _ _ _⟩
    rw [first]
    decide
  · obtain rfl := Option.some.inj (line_exec (k := 1) (i := .andImm 0 0 0xFF) step here rfl)
    apply parked_goes parked _ first other level
    refine Or.inr (Or.inl ⟨?_, ?_⟩)
    · rw [here]
      decide
    · rw [Function.update_self, x0]
  · obtain rfl := Option.some.inj (line_exec (k := 2) (i := .cbz 0 master) step here rfl)
    have notZero : t.x 0 ≠ 0 := by
      rw [x0]
      intro zero
      exact other (congrArg BitVec.toNat zero)
    apply parked_goes parked _ first other level
    refine Or.inr (Or.inr ?_)
    rw [if_neg notZero, here]
    decide
  · obtain rfl := Option.some.inj (line_exec (k := 3) (i := .b procHang) step here rfl)
    exact parked_hangs parked (Or.inl rfl)

theorem parks_hang (parking : Parking s) :
    Inevitable (core (code l outside) s) (fun t => t.pc = procHang) s := by
  have hang : ∀ u k, u.pc = line k → (bootCode l)[k]? = some (.b procHang) →
      Inevitable (core (code l outside) s) (fun t => t.pc = procHang) u := by
    intro u k here listed
    exact inevitable_exec (by rw [here]; exact boot_line listed) rfl (.now rfl)
  rcases parking with here | here | ⟨here, other, level⟩
  · exact hang s 35 here rfl
  · exact hang s 67 here rfl
  · obtain ⟨pc, x, flags, lv, spSel, daif, sys, mem⟩ := s
    obtain rfl : pc = entry := here
    have notZero : sys .mpidrEl1 &&& 0xFF ≠ 0 := fun zero => other (congrArg BitVec.toNat zero)
    refine inevitable_exec (i := .mrs 0 .mpidrEl1) (boot_line (k := 0) rfl) (if_pos level) ?_
    refine inevitable_exec (i := .andImm 0 0 0xFF) (boot_line (k := 1) rfl) rfl ?_
    refine inevitable_exec (i := .cbz 0 master) (boot_line (k := 2) rfl) rfl ?_
    exact hang _ 3 (if_neg notZero) rfl

/-- A parking core comes to `proc_hang`, in every run, and stays there; on the way it
    changes no memory and no system register. -/
theorem parks_for_ever (parking : Parking s) :
    Inevitable (core (code l outside) s) (fun t => t.pc = procHang) s ∧
      ∀ t, Reachable (core (code l outside) s) t → Parked s t ∧
        (Hanging t → ∀ u, Reachable (core (code l outside) t) u → Hanging u) := by
  refine ⟨parks_hang parking, fun t reach => ⟨?_, fun hanging u => hanging_stays hanging⟩⟩
  apply reachable_invariant _ _ reach
  · rintro u rfl
    exact parking_parked parking
  · intro u _ v parked step
    exact parked_step parked step

theorem parks_for_ever_core_2 : Inevitable (core (code linked (leaf linked)) (powered 2))
      (fun t => t.pc = procHang) (powered 2) ∧
    ∀ t, Reachable (core (code linked (leaf linked)) (powered 2)) t → Parked (powered 2) t ∧
      (Hanging t → ∀ u, Reachable (core (code linked (leaf linked)) t) u → Hanging u) :=
  parks_for_ever (Or.inr (Or.inr ⟨rfl, by decide, by decide⟩))

def spinEntry (c : Fin 4) : Word := 0xd8 + BitVec.ofNat 64 (8 * c.val)

/-- The memory behind `wake_up_cores`, which stores for the cores that the boot
    order of src/kernel.cpp calls the secondaries. -/
def wokenMem (mem : Memory) : Memory :=
  (Boot.secondaries 3).foldl (fun m c => storeWord m (spinEntry c) secondary) mem

theorem wokenMem_eq (mem : Memory) : wokenMem mem =
    storeWord (storeWord (storeWord mem 0xe0 secondary) 0xe8 secondary) 0xf0 secondary := rfl

theorem wokenMem_other {mem : Memory} {a : Word} (other : a.toNat < 0xe0 ∨ 0xf8 ≤ a.toNat) :
    wokenMem mem a = mem a := by
  have e0 : (0xe0 : Word).toNat = 0xe0 := rfl
  have e8 : (0xe8 : Word).toNat = 0xe8 := rfl
  have f0 : (0xf0 : Word).toNat = 0xf0 := rfl
  rw [wokenMem_eq, storeWord_other (by omega) (by omega), storeWord_other (by omega) (by omega),
    storeWord_other (by omega) (by omega)]

theorem wokenMem_holds (mem : Memory) {c : Fin 4} (other : c.val ≠ 0) :
    Holds (wokenMem mem) (spinEntry c) secondary := by
  rw [wokenMem_eq]
  fin_cases c
  · exact absurd rfl other
  · exact holds_store (holds_store (storeWord_holds _ _ _) (by decide) (by decide) (by decide))
      (by decide) (by decide) (by decide)
  · exact holds_store (storeWord_holds _ _ _) (by decide) (by decide) (by decide)
  · exact storeWord_holds _ _ _

structure Awoken (s t : State) : Prop where
  pc : t.pc = s.x 30
  level : t.level = s.level
  spSel : t.spSel = s.spSel
  daif : t.daif = s.daif
  sys : t.sys = s.sys
  mem : t.mem = wokenMem s.mem
  flags : t.flags = s.flags
  x : ∀ r : Arm64.Reg, 1 < r.val → t.x r = s.x r

theorem wakeUpCores_stores (here : s.pc = wakeUpCores) :
    ∃ t, execAll wakeUpCoresCode.dropLast s = some t ∧ t.level = s.level ∧
      t.spSel = s.spSel ∧ t.daif = s.daif ∧ t.sys = s.sys ∧ t.mem =
        storeWord (storeWord (storeWord s.mem 0xe0 secondary) 0xe8 secondary) 0xf0 secondary ∧
      t.flags = s.flags := by
  obtain ⟨pc, x, flags, lv, spSel, daif, sys, mem⟩ := s
  obtain rfl : pc = wakeUpCores := here
  exact ⟨_, rfl, rfl, rfl, rfl, rfl, rfl, rfl⟩

theorem wakeUpCores_keeps {t : State} (effect : execAll wakeUpCoresCode.dropLast s = some t)
    (r : Arm64.Reg) (other : 1 < r.val) : t.x r = s.x r := by
  have low : ∀ i ∈ wakeUpCoresCode.dropLast, ∀ d : Arm64.Reg, i.target = some d → d.val ≤ 1 := by
    decide
  apply execAll_keeps rfl _ effect
  intro i member same
  exact absurd (low i member r same) (Nat.not_le_of_lt other)

theorem wakeUpCores_returns (here : s.pc = wakeUpCores) :
    Inevitable (core (code l outside) s) (Awoken s) s := by
  have listed : Listed (code l outside) s.pc (wakeUpCoresCode.dropLast ++ [.ret]) := by
    rw [here]
    exact wakeUpCores_listed
  obtain ⟨t, effect, level, spSel, daif, sys, mem, flags⟩ := wakeUpCores_stores here
  have x := wakeUpCores_keeps effect
  apply inevitable_straight listed rfl effect
  intro listed
  exact inevitable_exec listed.1 rfl
    (.now ⟨x 30 (by decide), level, spSel, daif, sys, mem.trans (wokenMem_eq s.mem).symm, flags, x⟩)

/-- `wake_up_cores` returns with nothing changed outside the spin table, and a core that
    the firmware then sends to the address in its entry comes to `kernel_init`. -/
theorem woken_cores_boot (compiled : Compiled l outside) (here : s.pc = wakeUpCores) :
    Inevitable (core (code l outside) s) (fun t => Awoken s t ∧
      (∀ a, a.toNat < 0xe0 ∨ 0xf8 ≤ a.toNat → t.mem a = s.mem a) ∧
      ∀ c : Fin 4, c.val ≠ 0 → ∀ u : State, Holds t.mem (spinEntry c) u.pc → u.level = .el2 →
        Inevitable (core (code l outside) u) (SecondaryEntry l u) u) s := by
  refine inevitable_mono (wakeUpCores_returns here) fun t awoken => ⟨awoken, ?_, ?_⟩
  · intro a other
    rw [awoken.mem, wokenMem_other other]
  · intro c other u sent level
    rw [awoken.mem] at sent
    exact secondary_enters compiled (holds_unique sent (wokenMem_holds _ other)) level

theorem woken_cores_boot_linked :
    let s : State := { powered 0 with pc := wakeUpCores, level := .el1 }
    Inevitable (core (code linked (leaf linked)) s) (fun t => Awoken s t ∧
      (∀ a, a.toNat < 0xe0 ∨ 0xf8 ≤ a.toNat → t.mem a = s.mem a) ∧
      ∀ c : Fin 4, c.val ≠ 0 → ∀ u : State, Holds t.mem (spinEntry c) u.pc → u.level = .el2 →
        Inevitable (core (code linked (leaf linked)) u) (SecondaryEntry linked u) u) s :=
  woken_cores_boot leaf_compiled rfl

end PiKernel.Assembly
