import PiKernel.Boot.Startup

/-!
`kernel_init` on all cores. Until core 0 has built both barriers every other core
is held; from then on every core is at a stage, whatever the interleaving.
-/
namespace PiKernel.Boot
open Program Transition Interleaving HeapModel Rendezvous

variable {n : Nat} {b : Board} {p q : Int} {S T : Threads (Fin (n + 1)) (BootI n) (Shared n)}
  {stages : Fin (n + 1) → Stage n}

structure Early (b : Board) (S : Threads (Fin (n + 1)) (BootI n) (Shared n)) : Prop where
  others : ∀ c, c ≠ 0 → S.code c = Stage.code 0 0 .held
  entry : ∀ c, S.mem.entry c = false
  log : ∀ c, S.mem.log c = []
  primary : ∃ (o : BootOp n) (k : o.Res → BootM n Unit),
    S.code 0 = (Prog.op o k).bind (fun _ => Stage.code 0 0 (.waking (secondaries n))) ∧
    (Prog.op o k).Solo (bootExec 0) Building (fun _ t => Built b t) S.mem

/-- Both barriers exist, and every core is at a stage. -/
structure Woken (b : Board) (p q : Int) (S : Threads (Fin (n + 1)) (BootI n) (Shared n))
    (stages : Fin (n + 1) → Stage n) : Prop where
  code : ∀ c, S.code c = (stages c).code p q
  sequence : Sequence b p q S.mem stages

def firstStages (n : Nat) (c : Fin (n + 1)) : Stage n :=
  if c.val = 0 then .waking (secondaries n) else .held

theorem firstStages_secondary {c : Fin (n + 1)} (secondary : c ≠ 0) : firstStages n c = .held :=
  if_neg fun zero => secondary (Fin.ext zero)

theorem firstStages_pos (c : Fin (n + 1)) : positions (firstStages n) c = 0 := by
  unfold positions firstStages
  split <;> rfl

theorem mem_secondaries {c : Fin (n + 1)} (secondary : c ≠ 0) : c ∈ secondaries n := by
  obtain ⟨d, rfl⟩ := Fin.exists_succ_eq.mpr secondary
  exact List.mem_map_of_mem (List.mem_finRange d)

theorem built_sequence {s : Shared n} (built : Built b s) (log : ∀ c, s.log c = []) :
    Sequence b s.starting s.stopping s (firstStages n) := by
  have behind : ∀ k, 0 < k → reached (positions (firstStages n)) k = 0 := by
    intro k pos
    apply reached_none
    intro c
    rw [firstStages_pos]
    exact pos
  have shut : ∀ k l, 0 < l → Gated (positions (firstStages n)) k l := by
    intro k l pos c there
    rw [firstStages_pos] at there
    omega
  constructor
  case log =>
    intro c
    rw [log]
    unfold firstStages
    split <;> rfl
  case starting => rfl
  case stopping => rfl
  case nonnull => exact built.nonnull
  case apart => exact built.apart
  case ready => exact built.ready
  case startCount =>
    unfold Counts
    rw [behind 4 (by omega), built.full.1 built.nonnull.1]
    simp
  case stopCount =>
    unfold Counts
    rw [behind 9 (by omega), built.full.2 built.nonnull.2]
    simp
  case startGate => exact shut 4 5 (by omega)
  case stopGate => exact shut 9 10 (by omega)
  case first => simp [firstStages]
  case wakes =>
    intro c secondary
    exact Or.inr ⟨secondaries n, by simp [firstStages], mem_secondaries secondary⟩

theorem built_woken (others : ∀ c, c ≠ 0 → S.code c = Stage.code 0 0 .held)
    (primary : S.code 0 = Stage.code 0 0 (.waking (secondaries n))) (log : ∀ c, S.mem.log c = [])
    (built : Built b S.mem) : Woken b S.mem.starting S.mem.stopping S (firstStages n) := by
  refine ⟨?_, built_sequence built log⟩
  intro c
  by_cases first : c = 0
  · rw [first, primary]
    rfl
  · rw [others c first, firstStages_secondary first]
    rfl

theorem early_or_woken (others : ∀ c, c ≠ 0 → S.code c = Stage.code 0 0 .held)
    (entry : ∀ c, S.mem.entry c = false) (log : ∀ c, S.mem.log c = []) (q : BootM n Unit)
    (code : S.code 0 = q.bind fun _ => Stage.code 0 0 (.waking (secondaries n)))
    (solo : q.Solo (bootExec 0) Building (fun _ t => Built b t) S.mem) :
    Early b S ∨ ∃ p q stages, Woken b p q S stages := by
  cases q with
  | ret a => exact Or.inr ⟨_, _, _, built_woken others code log solo⟩
  | op o k => exact Or.inl ⟨others, entry, log, o, k, code, solo⟩

theorem woken_step (woken : Woken b p q S stages) (small : n + 1 < 2 ^ 32) {c : Fin (n + 1)}
    (step : ThreadStep bootExec Spins S c T) :
    ∃ stages', Woken b p q T stages' ∧ ∀ d, positions stages d ≤ positions stages' d := by
  rcases step_cases step with ⟨o, k, r, t, here, result, _, rfl⟩ | ⟨phase, rfl⟩
  · have sequence := woken.sequence
    rw [woken.code c] at here
    obtain ⟨stage', next, advance⟩ :=
      code_advances here result sequence.starting sequence.stopping
    refine ⟨Function.update stages c stage', ⟨?_, sequence_advance sequence small advance⟩, ?_⟩
    · intro d
      by_cases same : d = c
      · subst same
        simp [Threads.goOn, next]
      · simpa [Threads.goOn, same] using woken.code d
    · intro d
      rw [positions_update]
      by_cases same : d = c
      · subst same
        rw [Function.update_self]
        exact advance_pos advance
      · simp [same]
  · exact ⟨stages, ⟨woken.code, woken.sequence⟩, fun d => le_refl _⟩

theorem early_step (early : Early b S) {c : Fin (n + 1)} (step : ThreadStep bootExec Spins S c T) :
    Early b T ∨ ∃ p q stages, Woken b p q T stages := by
  rcases step_cases step with ⟨o, k, r, t, here, result, _, rfl⟩ | ⟨phase, rfl⟩
  · by_cases primary : c = 0
    · -- core 0 goes on
      subst primary
      obtain ⟨o', k', code, allowed, r', t', performed, rest⟩ := early.primary
      rw [code] at here
      obtain ⟨rfl, same⟩ := Prog.op.inj here
      obtain rfl := eq_of_heq same
      rw [result] at performed
      obtain ⟨rfl, rfl⟩ : r = r' ∧ t = t' := by simpa using performed
      obtain ⟨entry, log⟩ := plain_quiet allowed.1 result
      apply early_or_woken _ _ _ (k' r) _ rest
      · intro d secondary
        simpa [Threads.goOn, secondary] using early.others d secondary
      · intro d
        exact (congrFun entry d).trans (early.entry d)
      · intro d
        exact (congrFun log d).trans (early.log d)
      · simp [Threads.goOn]
    · -- every other core is held
      rw [early.others c primary] at here
      obtain ⟨rfl, _⟩ := Prog.op.inj here
      exact absurd result (by simp [bootExec, early.entry c])
  · exact Or.inl ⟨early.others, early.entry, early.log, early.primary⟩

theorem coreCode_primary (b : Board) : (coreCode b 0 : BootM n Unit) =
    (initPrimary b).bind fun _ => Stage.code 0 0 (.waking (secondaries n)) := by
  simp only [coreCode, kernelInit, ↓reduceIte, bind_eq, Stage.code, together]

theorem coreCode_secondary (b : Board) {c : Fin (n + 1)} (secondary : c ≠ 0) :
    coreCode b c = Stage.code 0 0 .held := by
  simp only [coreCode, kernelInit, secondary, ↓reduceIte, bind_eq, Stage.code, together]

theorem boot_reaches (room : 128 ≤ b.heapBytes) (fits : b.heapBytes < 2 ^ 34)
    (small : n + 1 < 2 ^ 32) (reach : Reachable (bootCores n b) S) :
    Early b S ∨ ∃ p q stages, Woken b p q S stages := by
  apply reachable_invariant _ _ reach
  · intro S first
    obtain ⟨reset, code, _⟩ := first
    apply early_or_woken _ reset.entry reset.log (initPrimary b) _
      (initPrimary_solo room fits small reset)
    · intro c secondary
      rw [code]
      exact coreCode_secondary b secondary
    · rw [code]
      exact coreCode_primary b
  · intro S c T here step
    rcases here with early | ⟨p, q, stages, woken⟩
    · exact early_step early step
    · obtain ⟨stages', woken', _⟩ := woken_step woken small step
      exact Or.inr ⟨p, q, stages', woken'⟩

end PiKernel.Boot
