import PiKernel.Heap.Source

/-!
What each helper of heap.cpp does to the heap when it runs alone. The effect
of a helper is a function on `Heap`; one lemma per helper says that the program
text has that effect, and later proofs use the effect only.
-/
namespace PiKernel.HeapModel
open Program

def Heap.size (h : Heap) (i : Int) : Int := abs (asInt (h.array i))
def Heap.next (h : Heap) (i : Int) : Int := asInt (h.array (i + 1))
def Heap.prev (h : Heap) (i : Int) : Int := asInt (h.array (i + 2))

def Heap.remove (h : Heap) (i : Int) : Heap :=
  let front := if h.prev i = 0 then { h with avail := h.next i }
    else h.store (h.prev i + 1) (h.next i)
  if h.next i ≠ 0 then front.store (h.next i + 2) (h.prev i) else front

def Heap.tag (h : Heap) (i x : Int) : Heap :=
  let front := h.store i x
  front.store (i + front.size i - 1) x

def Heap.makeTaken (h : Heap) (i ints : Int) : Heap := h.tag i (-ints)

def Heap.makeAvail (h : Heap) (i ints : Int) : Heap :=
  let tagged := h.tag i ints
  let linked := (tagged.store (i + 1) tagged.avail).store (i + 2) 0
  { (if linked.avail ≠ 0 then linked.store (linked.avail + 2) i else linked) with avail := i }

@[simp] theorem run_loadArray (i : Int) (h : Heap) :
    (loadArray i).run heapExec h = .done (h.array i) h := rfl

@[simp] theorem run_storeArray (i x : Int) (h : Heap) :
    (storeArray i x).run heapExec h = .done () (h.store i x) := rfl

@[simp] theorem run_loadAvail (h : Heap) :
    loadAvail.run heapExec h = .done h.avail h := rfl

@[simp] theorem run_storeAvail (x : Int) (h : Heap) :
    (storeAvail x).run heapExec h = .done () { h with avail := x } := rfl

@[simp] theorem run_loadBase (h : Heap) :
    loadBase.run heapExec h = .done h.base h := rfl

@[simp] theorem run_loadCoresAwoken (h : Heap) :
    loadCoresAwoken.run heapExec h = .done h.coresAwoken h := rfl

@[simp] theorem run_storeBase (p : Nat) (h : Heap) :
    (storeBase p).run heapExec h = .done () { h with base := p } := rfl

@[simp] theorem run_loadLen (h : Heap) : loadLen.run heapExec h = .done h.len h := rfl

@[simp] theorem run_storeLen (n : Int) (h : Heap) :
    (storeLen n).run heapExec h = .done () { h with len := n } := rfl

@[simp] theorem run_storeTheLock (p : Int) (h : Heap) :
    (storeTheLock p).run heapExec h = .done () { h with theLock := p } := rfl

@[simp] theorem run_loadTheLock (h : Heap) :
    loadTheLock.run heapExec h = .done h.theLock h := rfl

@[simp] theorem run_unlock (it : Int) (h : Heap) :
    (unlock it).run heapExec h = .done () (h.storeBytes it 1 0) := rfl

@[simp] theorem run_printfNoLock (fmt : String) (args : List Int) (h : Heap) :
    (printfNoLock fmt args).run heapExec h = .done () h := rfl

@[simp] theorem run_storeBytes (p : Int) (count : Nat) (x : Int) (h : Heap) :
    (storeBytes p count x).run heapExec h = .done () (h.storeBytes p count x) := rfl

@[simp] theorem run_panic {α : Type} (fmt : String) (args : List Int) (h : Heap) :
    (panic fmt args : HeapM α).run heapExec h = .stuck (.panic fmt args) h := rfl

@[simp] theorem store_avail (h : Heap) (i x : Int) : (h.store i x).avail = h.avail := rfl
@[simp] theorem store_base (h : Heap) (i x : Int) : (h.store i x).base = h.base := rfl
@[simp] theorem store_len (h : Heap) (i x : Int) : (h.store i x).len = h.len := rfl
@[simp] theorem store_theLock (h : Heap) (i x : Int) : (h.store i x).theLock = h.theLock := rfl
@[simp] theorem store_coresAwoken (h : Heap) (i x : Int) :
    (h.store i x).coresAwoken = h.coresAwoken := rfl

@[simp] theorem store_array (h : Heap) (i x j : Int) :
    (h.store i x).array j = if j = i then x else h.array j := by
  simp only [Heap.store, Function.update_apply]

/-- The consistency checks are compiled in but never run: `safe` is never set. -/
@[simp] theorem sanity_eq (i : Int) : sanity i = .ret i := by
  simp [sanity, safe]

@[simp] theorem run_size (i : Int) (h : Heap) :
    (size i).run heapExec h = .done (h.size i) h := by
  simp [size, run_bind, Heap.size]

@[simp] theorem run_headerFromFooter (i : Int) (h : Heap) :
    (headerFromFooter i).run heapExec h = .done (i - h.size i + 1) h := by
  simp [headerFromFooter, run_bind]

@[simp] theorem run_footerFromHeader (i : Int) (h : Heap) :
    (footerFromHeader i).run heapExec h = .done (i + h.size i - 1) h := by
  simp [footerFromHeader, run_bind]

@[simp] theorem run_left (i : Int) (h : Heap) :
    (left i).run heapExec h = .done (i - 1 - h.size (i - 1) + 1) h := by
  simp [left]

@[simp] theorem run_right (i : Int) (h : Heap) :
    (right i).run heapExec h = .done (i + h.size i) h := by
  simp [right, run_bind]

@[simp] theorem run_next (i : Int) (h : Heap) :
    (next i).run heapExec h = .done (h.next i) h := by
  simp [next, run_bind, Heap.next]

@[simp] theorem run_prev (i : Int) (h : Heap) :
    (prev i).run heapExec h = .done (h.prev i) h := by
  simp [prev, run_bind, Heap.prev]

@[simp] theorem run_setNext (i x : Int) (h : Heap) :
    (setNext i x).run heapExec h = .done () (h.store (i + 1) x) := rfl

@[simp] theorem run_setPrev (i x : Int) (h : Heap) :
    (setPrev i x).run heapExec h = .done () (h.store (i + 2) x) := rfl

@[simp] theorem run_isAvail (i : Int) (h : Heap) :
    (isAvail i).run heapExec h = .done (decide (h.array i > 0)) h := by
  simp [isAvail, run_bind]

@[simp] theorem run_isTaken (i : Int) (h : Heap) :
    (isTaken i).run heapExec h = .done (decide (h.array i < 0)) h := by
  simp [isTaken, run_bind]

@[simp] theorem run_remove (i : Int) (h : Heap) :
    (remove i).run heapExec h = .done () (h.remove i) := by
  by_cases front : h.prev i = 0 <;> by_cases last : h.next i = 0 <;>
    simp [remove, Heap.remove, run_bind, front, last]

@[simp] theorem run_makeTaken (i ints : Int) (h : Heap) :
    (makeTaken i ints).run heapExec h = .done () (h.makeTaken i ints) := by
  simp [makeTaken, run_bind, Heap.makeTaken, Heap.tag]

@[simp] theorem run_makeAvail (i ints : Int) (h : Heap) :
    (makeAvail i ints).run heapExec h = .done () (h.makeAvail i ints) := by
  by_cases empty : h.avail = 0 <;>
    simp [makeAvail, Heap.makeAvail, Heap.tag, run_bind, empty]

/-- heap.cpp's flag is false: the guard is not even constructed. -/
theorem run_lockGate {h : Heap} (asleep : h.coresAwoken = false) :
    lockGate.run heapExec h = .done () h := by
  simp [lockGate, run_bind, asleep]

theorem run_malloc {bytes : Nat} {h : Heap} (some : 0 < bytes) (asleep : h.coresAwoken = false) :
    (malloc bytes).run heapExec h = (mallocBody (mallocUnits bytes)).run heapExec h := by
  have nonzero : bytes ≠ 0 := by omega
  simp [malloc, nonzero, run_bind, run_lockGate asleep]

section Ops
variable {ok : HeapOp → Heap → Prop} {h : Heap}

theorem solo_perform {o : HeapOp} {r : o.Res} {t : Heap} {post : o.Res → Heap → Prop}
    (same : heapExec o h = some (r, t)) :
    (perform o).Solo heapExec ok post h ↔ ok o h ∧ post r t :=
  solo_call same

theorem solo_loadArray {i : Int} {post : Int → Heap → Prop} :
    (loadArray i).Solo heapExec ok post h ↔ ok (.loadArray i) h ∧ post (h.array i) h :=
  solo_perform rfl

theorem solo_storeArray {i x : Int} {post : Unit → Heap → Prop} :
    (storeArray i x).Solo heapExec ok post h ↔ ok (.storeArray i x) h ∧ post () (h.store i x) :=
  solo_perform rfl

theorem solo_loadAvail {post : Int → Heap → Prop} :
    loadAvail.Solo heapExec ok post h ↔ ok .loadAvail h ∧ post h.avail h :=
  solo_perform rfl

theorem solo_storeAvail {x : Int} {post : Unit → Heap → Prop} :
    (storeAvail x).Solo heapExec ok post h ↔
      ok (.storeAvail x) h ∧ post () { h with avail := x } :=
  solo_perform rfl

theorem solo_loadBase {post : Int → Heap → Prop} :
    loadBase.Solo heapExec ok post h ↔ ok .loadBase h ∧ post h.base h :=
  solo_perform rfl

theorem solo_loadLen {post : Int → Heap → Prop} :
    loadLen.Solo heapExec ok post h ↔ ok .loadLen h ∧ post h.len h :=
  solo_perform rfl

theorem solo_storeBase {p : Nat} {post : Unit → Heap → Prop} :
    (storeBase p).Solo heapExec ok post h ↔ ok (.storeBase p) h ∧ post () { h with base := p } :=
  solo_perform rfl

theorem solo_storeLen {n : Int} {post : Unit → Heap → Prop} :
    (storeLen n).Solo heapExec ok post h ↔ ok (.storeLen n) h ∧ post () { h with len := n } :=
  solo_perform rfl

theorem solo_storeTheLock {p : Int} {post : Unit → Heap → Prop} :
    (storeTheLock p).Solo heapExec ok post h ↔
      ok (.storeTheLock p) h ∧ post () { h with theLock := p } :=
  solo_perform rfl

theorem solo_loadCoresAwoken {post : Bool → Heap → Prop} :
    loadCoresAwoken.Solo heapExec ok post h ↔ ok .loadCoresAwoken h ∧ post h.coresAwoken h :=
  solo_perform rfl

theorem solo_storeBytes {p x : Int} {count : Nat} {post : Unit → Heap → Prop} :
    (storeBytes p count x).Solo heapExec ok post h ↔
      ok (.storeBytes p count x) h ∧ post () (h.storeBytes p count x) :=
  solo_perform rfl

theorem solo_printfNoLock {fmt : String} {args : List Int} {post : Unit → Heap → Prop} :
    (printfNoLock fmt args).Solo heapExec ok post h ↔ ok (.printfNoLock fmt args) h ∧ post () h :=
  solo_perform rfl

theorem solo_size {i : Int} {post : Int → Heap → Prop} :
    (size i).Solo heapExec ok post h ↔ ok (.loadArray i) h ∧ post (h.size i) h := by
  simp only [size, bind_eq, solo_bind_iff, solo_loadArray]
  exact Iff.rfl

theorem solo_next {i : Int} {post : Int → Heap → Prop} :
    (next i).Solo heapExec ok post h ↔ ok (.loadArray (i + 1)) h ∧ post (h.next i) h := by
  simp only [next, bind_eq, solo_bind_iff, solo_loadArray, sanity_eq]
  exact Iff.rfl

theorem solo_prev {i : Int} {post : Int → Heap → Prop} :
    (prev i).Solo heapExec ok post h ↔ ok (.loadArray (i + 2)) h ∧ post (h.prev i) h := by
  simp only [prev, bind_eq, solo_bind_iff, solo_loadArray, sanity_eq]
  exact Iff.rfl

theorem solo_isAvail {i : Int} {post : Bool → Heap → Prop} :
    (isAvail i).Solo heapExec ok post h ↔
      ok (.loadArray i) h ∧ post (decide (h.array i > 0)) h := by
  simp only [isAvail, bind_eq, solo_bind_iff, solo_loadArray]
  exact Iff.rfl

theorem solo_isTaken {i : Int} {post : Bool → Heap → Prop} :
    (isTaken i).Solo heapExec ok post h ↔
      ok (.loadArray i) h ∧ post (decide (h.array i < 0)) h := by
  simp only [isTaken, bind_eq, solo_bind_iff, solo_loadArray]
  exact Iff.rfl

theorem solo_left {i : Int} {post : Int → Heap → Prop} :
    (left i).Solo heapExec ok post h ↔
      ok (.loadArray (i - 1)) h ∧ post (i - 1 - h.size (i - 1) + 1) h := by
  simp only [left, headerFromFooter, bind_eq, solo_bind_iff, solo_size, sanity_eq]
  exact Iff.rfl

theorem solo_right {i : Int} {post : Int → Heap → Prop} :
    (right i).Solo heapExec ok post h ↔ ok (.loadArray i) h ∧ post (i + h.size i) h := by
  simp only [right, bind_eq, solo_bind_iff, solo_size, sanity_eq]
  exact Iff.rfl

end Ops
end PiKernel.HeapModel
