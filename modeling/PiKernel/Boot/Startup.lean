import PiKernel.Boot.Sequence

/-!
Core 0 up to the wake-up. It runs alone and takes no lock, and from the moment a
barrier's pointer is stored its counter holds the number of cores.
-/
namespace PiKernel.Boot
open Program Interleaving HeapModel

variable {n : Nat}

def Plain : BootOp n → Prop
  | .uartInit | .initPrintf | .mmuSetupPagetable _ _ | .heapReady | .storeStarting _
  | .storeStopping _ | .storeSmpInitDone | .storeCoresAwoken => True
  | .heap o => NotLock o
  | _ => False

def Full (s : Shared n) (p : Int) : Prop := p ≠ 0 → s.heap.bytes p 4 = (n + 1 : Nat)

def Building (o : BootOp n) (s : Shared n) : Prop :=
  Plain o ∧ Full s s.starting ∧ Full s s.stopping

structure Built (b : Board) (s : Shared n) : Prop where
  nonnull : s.starting ≠ 0 ∧ s.stopping ≠ 0
  apart : s.heap.wordOf s.starting ≠ s.heap.wordOf s.stopping
  ready : Ready b s
  full : Full s s.starting ∧ Full s s.stopping

theorem plain_quiet {o : BootOp n} {c : Fin (n + 1)} {s t : Shared n} {r : o.Res} (plain : Plain o)
    (result : bootExec c o s = some (r, t)) : t.entry = s.entry ∧ t.log = s.log := by
  have known : ∀ {r' : o.Res} {t' : Shared n}, bootExec c o s = some (r', t') → t = t' := by
    intro r' t' same
    rw [result] at same
    simpa using congrArg (Option.map Prod.snd) same
  cases o with
  | heap o =>
    cases out : heapExec o s.heap with
    | none => exact absurd result (by simp [bootExec, out])
    | some pair =>
      obtain rfl := known (by simp only [bootExec, out, Option.map_some]; rfl)
      exact ⟨rfl, rfl⟩
  | uartInit | initPrintf | mmuSetupPagetable | heapReady | storeStarting | storeStopping
  | storeSmpInitDone | storeCoresAwoken =>
    obtain rfl := known rfl
    exact ⟨rfl, rfl⟩
  | _ => exact absurd plain id

section Parts
variable {s : Shared n} {α : Type}

theorem boot_solo {o : BootOp n} {r : o.Res} {t : Shared n} {post : o.Res → Shared n → Prop}
    {c : Fin (n + 1)} {ok : BootOp n → Shared n → Prop} (same : bootExec c o s = some (r, t)) :
    (perform o).Solo (bootExec c) ok post s ↔ ok o s ∧ post r t :=
  solo_call same

theorem boot_next {β : Type} {o : BootOp n} {r : o.Res} {t : Shared n} {k : o.Res → BootM n β}
    {post : β → Shared n → Prop} {c : Fin (n + 1)} {ok : BootOp n → Shared n → Prop}
    (same : bootExec c o s = some (r, t)) (allowed : ok o s)
    (rest : (k r).Solo (bootExec c) ok post t) :
    ((perform o).bind k).Solo (bootExec c) ok post s :=
  solo_bind ((boot_solo same).mpr ⟨allowed, rest⟩)

theorem onHeap_solo {c : Fin (n + 1)} {okH : HeapOp → Heap → Prop}
    {ok : BootOp n → Shared n → Prop} {post : α → Heap → Prop} {p : HeapM α}
    (allowed : ∀ o h, okH o h → ok (.heap o) { s with heap := h })
    (solo : p.Solo heapExec okH post s.heap) :
    (onHeap p).Solo (bootExec c) ok (fun a t => ∃ h, post a h ∧ t = { s with heap := h }) s := by
  have step : ∀ (o : HeapOp) h (r : o.Res) h' u, okH o h → heapExec o h = some (r, h') →
      u = { s with heap := h } → (perform (.heap o)).Solo (bootExec c) ok
        (fun r' v => r' = r ∧ v = { s with heap := h' }) u := by
    intro o h r h' u good result here
    subst here
    have performed : bootExec c (.heap o) { s with heap := h } =
        some (r, { s with heap := h' }) := by
      simp only [bootExec, result, Option.map_some]
    exact (boot_solo performed).mpr ⟨allowed o h good, rfl, rfl⟩
  exact @solo_hoist HeapI α Heap heapExec okH (BootI n) (Shared n) (bootExec c) ok
    (fun o => perform (.heap o)) (fun h t => t = { s with heap := h }) step post p s.heap s solo rfl

end Parts

def Keeps (w : Int) (h t : Heap) : Prop := t.array w = h.array w ∧ t.base = h.base

theorem keeps_bytes {h t : Heap} {p : Int} (keeps : Keeps (h.wordOf p) h t) :
    t.bytes p 4 = h.bytes p 4 := by
  have place : t.wordOf p = h.wordOf p := by
    unfold Heap.wordOf
    rw [keeps.2]
  unfold Heap.bytes
  rw [place, keeps.1]

theorem keeps_solo {w : Int} {h : Heap} {α : Type} {post : α → Heap → Prop} {p : HeapM α}
    (solo : p.Solo heapExec (Spares w) post h) :
    p.Solo heapExec (fun o t => Spares w o t ∧ Keeps w h t)
      (fun a t => post a t ∧ Keeps w h t) h := by
  apply solo_invariant _ ⟨rfl, rfl⟩ solo
  intro o t r u spares keeps result
  obtain ⟨word, base⟩ := spares_word spares result
  exact ⟨word.trans keeps.1, base.trans keeps.2⟩

section Barriers
variable {u : Shared n} {i m : Int}

/-- A barrier constructed while the word of the barrier at `starting`, if there is one
    yet, is outside the free block. -/
theorem barrier_solo (count : n + 1 < 2 ^ 32) (single : Single u.heap i m) (pos : 0 < i)
    (low : 4 ≤ m) (small : m < 2 ^ 31 - 1)
    (outside : u.heap.wordOf u.starting < i) (full : Full u u.starting) (stop : u.stopping = 0) :
    (onHeap (newBarrier (n + 1))).Solo (bootExec 0) Building
      (fun p t => ∃ h, (Made u.heap h i m p ∧ h.bytes p 4 = (n + 1 : Nat) ∧
        Keeps (u.heap.wordOf u.starting) u.heap h) ∧ t = { u with heap := h }) u := by
  have made := newBarrier_solo (w := u.heap.wordOf u.starting) single pos low small
    (Or.inl outside) (n + 1) (by omega) (by omega)
  apply onHeap_solo _ (solo_mono _ (keeps_solo made))
  · intro o h good
    obtain ⟨spares, keeps⟩ := good
    refine ⟨spares_notLock spares, ?_, fun some => absurd stop some⟩
    intro some
    rw [← full some]
    exact keeps_bytes keeps
  · intro p t got
    obtain ⟨⟨made, bytes⟩, keeps⟩ := got
    exact ⟨made, by simpa using bytes, keeps⟩

variable {post : Unit → Shared n → Prop} {rest : BootM n Unit}

theorem starting_solo (count : n + 1 < 2 ^ 32) (single : Single u.heap 6 m) (low : 8 ≤ m)
    (small : m < 2 ^ 31 - 1) (start : u.starting = 0) (stop : u.stopping = 0)
    (later : ∀ h p, p ≠ 0 → h.wordOf p = 7 → h.bytes p 4 = ((n + 1 : Nat) : Int) → Single h 10 (m - 4) →
      rest.Solo (bootExec 0) Building post { u with heap := h, starting := p }) :
    ((onHeap (newBarrier (n + 1))).bind fun p => (perform (.storeStarting p)).bind fun _ =>
      rest).Solo (bootExec 0) Building post u := by
  have none : ∀ s : Shared n, Full s u.starting := fun s some => absurd start some
  have ahead : u.heap.wordOf u.starting < 6 := by
    unfold Heap.wordOf
    omega
  rw [solo_bind_iff]
  apply solo_mono _ (barrier_solo count single (by omega) (by omega) small ahead (none u) stop)
  intro p t made
  obtain ⟨h, ⟨made, full, _⟩, rfl⟩ := made
  have nonnull : p ≠ 0 := by
    have there := made.place
    omega
  exact boot_next rfl ⟨trivial, none _, fun some => absurd stop some⟩
    (later h p nonnull (made_place made h made.base) full (made.rest low))

theorem stopping_solo (count : n + 1 < 2 ^ 32) (single : Single u.heap 10 m) (low : 4 ≤ m)
    (small : m < 2 ^ 31 - 1) (word : u.heap.wordOf u.starting = 7) (full : Full u u.starting)
    (stop : u.stopping = 0)
    (later : ∀ h q, q ≠ 0 → h.wordOf u.starting ≠ h.wordOf q →
      Full { u with heap := h } u.starting → Full { u with heap := h } q →
      rest.Solo (bootExec 0) Building post { u with heap := h, stopping := q }) :
    ((onHeap (newBarrier (n + 1))).bind fun q => (perform (.storeStopping q)).bind fun _ =>
      rest).Solo (bootExec 0) Building post u := by
  rw [solo_bind_iff]
  apply solo_mono _ (barrier_solo count single (by omega) low small (by omega) full stop)
  intro q t made
  obtain ⟨h, ⟨made, full', keeps⟩, rfl⟩ := made
  have nonnull : q ≠ 0 := by
    have there := made.place
    omega
  have place := made_place made h made.base
  have kept : h.wordOf u.starting = u.heap.wordOf u.starting := by
    unfold Heap.wordOf
    rw [made.base]
  have still : Full { u with heap := h } u.starting := by
    intro some
    rw [← full some]
    exact keeps_bytes keeps
  exact boot_next rfl ⟨trivial, still, fun some => absurd stop some⟩
    (later h q nonnull (by omega) still fun _ => full')

end Barriers

/-- `heapInit` and both barriers, from reset. -/
theorem initPrimary_solo {b : Board} (room : 128 ≤ b.heapBytes) (small : b.heapBytes < 2 ^ 34)
    (count : n + 1 < 2 ^ 32) {s : Shared n} (reset : Reset s) :
    (initPrimary b).Solo (bootExec 0) Building (fun _ t => Built b t) s := by
  have fresh : Untouched s.heap := ⟨reset.heap.1, reset.heap.2⟩
  have start := reset.starting
  have stop := reset.stopping
  have early : ∀ t : Shared n, Full t s.starting ∧ Full t s.stopping :=
    fun t => ⟨fun some => absurd start some, fun some => absurd stop some⟩
  let u : Shared n := { s with
    uart := true, printf := true, tables := some (Mmu.mmuSetupPagetable b.placement b.vcReply) }
  have heap := @onHeap_solo n u Unit 0 _ Building _ _ (fun o h plain => ⟨plain, early _⟩)
    (heapInit_solo fresh b.heapStart (by omega : 96 ≤ b.heapBytes) small)
  unfold initPrimary
  apply boot_next rfl ⟨trivial, early _⟩
  apply boot_next rfl ⟨trivial, early _⟩
  apply boot_next rfl ⟨trivial, early _⟩
  apply solo_bind
  apply solo_mono _ heap
  intro _ t heap
  obtain ⟨h, ⟨_, single⟩, rfl⟩ := heap
  apply boot_next rfl ⟨trivial, early _⟩
  apply @starting_solo n { u with heap := h, heapReady := true } _ _ _ count single (by omega)
    (by omega) start stop
  intro h p nonnull word full single
  apply @stopping_solo n { u with heap := h, heapReady := true, starting := p } _ _ _ count single
    (by omega) (by omega) word (fun _ => full) stop
  intro h q nonnull' apart full full'
  apply boot_next rfl ⟨trivial, full, full'⟩
  apply (boot_solo rfl).mpr
  exact ⟨⟨trivial, full, full'⟩, ⟨nonnull, nonnull'⟩, apart, ⟨rfl, rfl, rfl⟩, full, full'⟩

end PiKernel.Boot
