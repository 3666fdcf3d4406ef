import PiKernel.Whole.Source
import PiKernel.Boot.Woken

/-!
The program of every core in parts: what it does for the boot, what it prints, and
what it does for the boot again. Over the boot operations it is the `kernel_init`
of `Boot`, whose order of events so holds of the whole kernel.
-/
namespace PiKernel.Whole
open Program Transition Interleaving Boot Console
open HeapModel (newBarrier)

variable {n : Nat}

def opening (b : Board) : BootM n Unit := do
  perform .uartInit
  perform .initPrintf
  perform (.mmuSetupPagetable b.placement b.vcReply)

def settingUp (b : Board) : BootM n Unit := do
  onHeap (HeapModel.heapInit b.heapStart b.heapBytes)
  perform .heapReady
  perform (.storeStarting (← onHeap (newBarrier (n + 1))))
  perform (.storeStopping (← onHeap (newBarrier (n + 1))))
  perform .storeSmpInitDone
  perform .storeCoresAwoken

def entering : BootM n Unit := do
  perform .mmuEnable
  sync (← perform .loadStarting)
  perform .enterMain

def leaving : BootM n Unit := do
  perform .returnMain
  sync (← perform .loadStopping)

def mainParts (p : BootM n Unit) (q : ConsoleM Unit) (l : BootM n Unit) :
    List (Part (BootI n) ConsoleI) := [.left p, .right q, .left l]

def waking (b : Board) : BootM n Unit := do
  settingUp b
  wakeUpCores (secondaries n)
  entering

def primaryParts (b : Board) (p : BootM n Unit) (q : ConsoleM Unit) :
    List (Part (BootI n) ConsoleI) :=
  .left p :: .right q :: mainParts (waking b) (critical work) leaving

def secondaryParts : List (Part (BootI n) ConsoleI) :=
  mainParts (do perform .held; entering) (critical work) leaving

theorem coreCode_primary (b : Board) : (coreCode b 0 : KernelM n Unit) =
    inParts (primaryParts b (opening b) (heapRange b)) := by
  simp only [coreCode, kernelInit, initPrimary, heapInit, kernelMain, boot, console, Fin.val_zero, ↓reduceIte,
    primaryParts, mainParts, waking, settingUp, opening, entering, leaving, inParts, bind_eq,
    onLeft_bind, Program.bind_assoc, bind_end]

theorem coreCode_secondary (b : Board) {c : Fin (n + 1)} (secondary : c ≠ 0) :
    coreCode b c = inParts secondaryParts := by
  have other : c.val ≠ 0 := fun zero => secondary (Fin.ext zero)
  simp only [coreCode, kernelInit, kernelMain, boot, console, other, ↓reduceIte, secondaryParts,
    mainParts, entering, leaving, inParts, bind_eq, onLeft_bind, Program.bind_assoc, bind_end]

theorem initPrimary_split (b : Board) : (Boot.initPrimary b : BootM n Unit) =
    (opening b).bind fun _ => settingUp b := by
  simp only [Boot.initPrimary, opening, settingUp, bind_eq, Program.bind_assoc]

theorem lefts_waking (b : Board) : lefts (mainParts (waking b) (critical work) leaving) =
    (settingUp b : BootM n Unit).bind fun _ => Stage.code 0 0 (.waking (secondaries n)) := by
  simp only [mainParts, lefts, waking, entering, leaving, Stage.code, together, Boot.kernelMain,
    bind_eq, Program.bind_assoc, bind_end]

theorem lefts_secondary : lefts (secondaryParts (n := n)) = Stage.code 0 0 .held := by
  simp only [secondaryParts, mainParts, lefts, entering, leaving, Stage.code, together,
    Boot.kernelMain, bind_eq, Program.bind_assoc, bind_end]

theorem early_blind (b : Board) : Blind (Early (n := n) b) :=
  fun _ _ early => ⟨early.others, early.entry, early.log, early.primary⟩

/-- What any interleaving keeps of the boot. -/
def Booting (b : Board) (R : Threads (Fin (n + 1)) (BootI n) (Boot.Shared n)) : Prop :=
  Early b R ∨ ∃ p q stages, Woken b p q R stages

theorem booting_blind (b : Board) : Blind (Booting (n := n) b) := by
  intro R phase here
  rcases here with early | ⟨p, q, stages, woken⟩
  · exact Or.inl (early_blind b R phase early)
  · exact Or.inr ⟨p, q, stages, woken.code, woken.sequence⟩

theorem booting_step {b : Board} (small : n + 1 < 2 ^ 32) {c : Fin (n + 1)}
    {R R' : Threads (Fin (n + 1)) (BootI n) (Boot.Shared n)} (here : Booting b R)
    (step : ThreadStep bootExec Spins R c R') : Booting b R' := by
  rcases here with early | ⟨p, q, stages, woken⟩
  · exact early_step early step
  · obtain ⟨stages', woken', _⟩ := woken_step woken small step
    exact Or.inr ⟨p, q, stages', woken'⟩

def Sounding (s : Boot.Shared n) : Prop := s.uart = true ∧ s.printf = true

theorem exec_sounding {c : Fin (n + 1)} {o : BootOp n} {s t : Boot.Shared n} {r : o.Res}
    (result : bootExec c o s = some (r, t)) (before : Sounding s) : Sounding t := by
  cases o with
  | held =>
    simp only [bootExec] at result
    split at result <;> cases result
    exact before
  | awaitZero p =>
    simp only [bootExec] at result
    split at result <;> cases result
    exact before
  | heap o =>
    obtain ⟨out, _, same⟩ := Option.map_eq_some_iff.mp result
    cases same
    exact before
  | uartInit =>
    cases result
    exact ⟨rfl, before.2⟩
  | initPrintf =>
    cases result
    exact ⟨before.1, rfl⟩
  | _ =>
    cases result
    exact before

/-- A core is through with each part before it begins the next. -/
def Ordered (ps : List (Part (BootI n) ConsoleI)) : Prop :=
  ∃ p q l, ps = mainParts p q l ∧ (p ≠ .ret () → q = critical work) ∧ (q ≠ .ret () → l = leaving)

theorem ordered_next {ps : List (Part (BootI n) ConsoleI)} {o : BootOp n ⊕ ConsoleOp}
    {ks : bothRes (BootI n) ConsoleI o → List (Part (BootI n) ConsoleI)} (ordered : Ordered ps)
    (next : Next ps o ks) (r : bothRes (BootI n) ConsoleI o) : Ordered (ks r) := by
  obtain ⟨p, q, l, rfl, first, second⟩ := ordered
  cases next with
  | left o k rest => exact ⟨k r, q, l, rfl, fun _ => first (by simp), second⟩
  | leftOver later =>
    cases later with
    | right o k rest =>
      exact ⟨.ret (), k r, l, rfl, fun more => absurd rfl more, fun _ => second (by simp)⟩
    | rightOver last =>
      cases last with
      | left o k rest =>
        exact ⟨.ret (), .ret (), k r, rfl, fun more => absurd rfl more, fun more => absurd rfl more⟩
      | leftOver none => cases none

end PiKernel.Whole
