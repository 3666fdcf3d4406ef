import PiKernel.Boot.Entry
import PiKernel.Console.Source

/-!
The exceptions of core 0. It runs the kernel at level 1 on SP_EL0, which is what
the four entries of `_vectors` are for; each of them calls `exc_handler` of
src/exec.cpp with what the core saved.
-/
namespace PiKernel.Assembly
open Privilege Transition
open Arm64 (Word Memory)

variable {l : Layout} {outside : State → State → Prop} {r s t u : State} {e : Privilege.Exception}
  {y : Syndrome}

theorem vector_line {k : Nat} {i : Instr} (here : (vectorCode l e)[k]? = some i) :
    (code l outside).image (vectors + BitVec.ofNat 64 (0x80 * e.toNat) + BitVec.ofNat 64 (4 * k)) =
      some i := by
  have index : k < 6 := (List.getElem?_eq_some_iff.mp here).1
  show image l _ = _
  rw [← here]
  interval_cases k <;> cases e <;> rfl

theorem vector_listed :
    Listed (code l outside) (vectors + BitVec.ofNat 64 (0x80 * e.toNat)) (vectorCode l e) :=
  listed_lines fun _ _ here => vector_line here

def handlerArgs (s : State) : Console.Exception :=
  ⟨(s.x 0).toNat, (s.x 1).toNat, (s.x 2).toNat, (s.x 3).toNat, (s.x 4).toNat⟩

structure Handling (l : Layout) (e : Privilege.Exception) (y : Syndrome) (s t : State) : Prop where
  pc : t.pc = l.excHandler
  args : handlerArgs t = ⟨e.toNat, y.esr.toNat, s.pc.toNat, y.spsr.toNat, y.far.toNat⟩
  saved : Saves s (t.x 3)
  others : ∀ i : Arm64.Reg, 4 < i.val → t.x i = s.x i
  level : t.level = .el1
  daif : t.daif = 15
  sp : t.sp = s.sys .spEl1
  mem : t.mem = s.mem

/-- What C code of level 1 that runs with the state of `kernel_init` leaves as it is. -/
structure Kept (s t : State) : Prop where
  level : t.level = s.level
  spSel : t.spSel = s.spSel
  vbar : t.sys .vbarEl1 = s.sys .vbarEl1
  hcr : t.sys .hcrEl2 = s.sys .hcrEl2

theorem vector_runs (here : s.pc = vectors + BitVec.ofNat 64 (0x80 * e.toNat))
    (level : s.level = .el1) : ∃ t, execAll (vectorCode l e).dropLast s = some t ∧
      t.pc = s.pc + 4 + 4 + 4 + 4 + 4 ∧ t.level = .el1 ∧ t.daif = s.daif ∧ t.spSel = s.spSel ∧
      t.sys = s.sys ∧ t.mem = s.mem ∧ t.x = Function.update (Function.update (Function.update
        (Function.update (Function.update s.x 0 (BitVec.ofNat 64 e.toNat)) 1 (s.sys .esrEl1)) 2
        (s.sys .elrEl1)) 3 (s.sys .spsrEl1)) 4 (s.sys .farEl1) := by
  obtain ⟨pc, x, flags, lv, spSel, daif, sys, mem⟩ := s
  obtain rfl : lv = .el1 := level
  exact ⟨_, rfl, rfl, rfl, rfl, rfl, rfl, rfl, rfl⟩

theorem take_runs (saves : Saves s y.spsr) (level : s.level = .el1) (spSel : s.spSel = false)
    (vbar : s.sys .vbarEl1 = vectors) :
    Inevitable (core (code l outside) r) (Handling l e y s) (s.take e y) := by
  have vector : (s.take e y).pc = vectors + BitVec.ofNat 64 (0x80 * e.toNat) := by
    show s.vector e = _
    unfold State.vector
    rw [level, spSel, vbar]
    cases e <;> rfl
  obtain ⟨t, effect, _, level', daif, spSel', sys, mem, x⟩ := vector_runs (l := l) vector rfl
  have listed : Listed (code l outside) (s.take e y).pc
      ((vectorCode l e).dropLast ++ [.b l.excHandler]) := by
    rw [vector]
    exact vector_listed
  apply inevitable_straight listed rfl effect
  intro listed
  refine inevitable_exec listed.1 rfl (.now ?_)
  exact {
    pc := rfl
    args := by
      show handlerArgs t = _
      unfold handlerArgs
      rw [x]
      cases e <;> rfl
    saved := by
      show Saves s (t.x 3)
      rw [x]
      exact saves
    others := by
      intro i high
      show t.x i = s.x i
      have apart : ∀ j : Arm64.Reg, j.val ≤ 4 → i ≠ j := by
        intro j low same
        rw [same] at high
        omega
      rw [x, Function.update_of_ne (apart 4 (by decide)), Function.update_of_ne (apart 3 (by decide)),
        Function.update_of_ne (apart 2 (by decide)), Function.update_of_ne (apart 1 (by decide)),
        Function.update_of_ne (apart 0 (by decide))]
      rfl
    level := level'
    daif := daif
    sp := by
      show t.sys t.spReg = _
      rw [spReg_congr (level'.trans rfl : t.level = (s.take e y).level) spSel', sys]
      rfl
    mem := mem }

/-- From the reset of core 0 every run comes to `kernel_init`, and from there on, whatever
    the kernel is doing, no exception goes to level 2 and each comes to `exc_handler`: with
    its number, its syndrome and the interrupted address as arguments, masked, on the
    stack of the exceptions and with nothing stored. -/
theorem primary_boots (compiled : Compiled l outside) (here : s.pc = entry)
    (level : s.level = .el2) (primary : getCoreID s = 0) :
    Inevitable (core (code l outside) s) (fun t => PrimaryEntry l s t ∧
      ∀ u e y, Kept t u → Saves u y.spsr → routedAway (u.sys .hcrEl2) e = false ∧
        Inevitable (core (code l outside) (u.take e y)) (Handling l e y u) (u.take e y)) s := by
  refine inevitable_mono (primary_enters compiled here level primary) fun t booted => ⟨booted, ?_⟩
  intro u e y kept saves
  refine ⟨?_, take_runs saves (kept.level.trans booted.level) (kept.spSel.trans booted.spSel)
    (kept.vbar.trans booted.vbar)⟩
  rw [kept.hcr, booted.hcr]
  cases e <;> decide

theorem primary_boots_linked :
    Inevitable (core (code linked (leaf linked)) (powered 0)) (fun t => PrimaryEntry linked (powered 0) t ∧
      ∀ u e y, Kept t u → Saves u y.spsr → routedAway (u.sys .hcrEl2) e = false ∧
        Inevitable (core (code linked (leaf linked)) (u.take e y)) (Handling linked e y u) (u.take e y))
      (powered 0) :=
  primary_boots leaf_compiled rfl rfl (by decide)

end PiKernel.Assembly
