import PiKernel.Mailbox.Invariant

/-!
The two FIFOs and VideoCore: requests are sent, taken, answered in memory and
queued back. Each of these steps keeps the invariant of the calls.
-/
namespace PiKernel.Mailbox
variable {Core : Type} {s t : State Core} {c : Core}

theorem handed_perm (before after next : List (Mail Core)) (m : Mail Core) :
    ((before ++ after) ++ (next ++ [m])).Perm ((before ++ m :: after) ++ next) := by
  rw [← List.append_assoc]
  apply (List.perm_append_singleton m _).trans
  rw [List.append_assoc, List.append_assoc]
  exact List.perm_middle.symm

theorem handed_sublist (before after : List (Mail Core)) (m : Mail Core) :
    (before ++ after).Sublist (before ++ m :: after) :=
  (List.sublist_cons_self m after).append_left before

theorem unique_perm (inv : Inv s) (perm : t.inTransit.Perm s.inTransit) : (origins t).Nodup :=
  (perm.filterMap Mail.origin).nodup_iff.mpr inv.unique

theorem take_inv {m : Mail Core} {rest : List (Mail Core)} (inv : Inv s)
    (front : s.requests = m :: rest) :
    Inv { s with requests := rest, taken := s.taken ++ [m] } := by
  let t : State Core := { s with requests := rest, taken := s.taken ++ [m] }
  show Inv t
  have moved : (t.requests ++ t.taken).Perm (s.requests ++ s.taken) := by
    rw [front]
    exact handed_perm [] rest s.taken m
  have perm : t.inTransit.Perm s.inTransit := by
    have whole := moved.append_right (s.written ++ s.responses)
    rwa [List.append_assoc t.requests, List.append_assoc s.requests] at whole
  have pending : (t.requests ++ (t.taken ++ t.written)).Perm
      (s.requests ++ (s.taken ++ s.written)) := by
    have early := moved.append_right s.written
    rwa [List.append_assoc t.requests, List.append_assoc s.requests] at early
  apply quiet_inv (t := t) inv rfl rfl rfl (unique_perm inv perm) (fun m' mm _ => perm.mem_iff.mp mm)
    pending.subset
  · intro d
    rw [← holds_append, ← holds_append]
    exact holds_subset moved.subset
  · intro d given
    exact given

theorem queue_inv {m : Mail Core} {before after : List (Mail Core)} (inv : Inv s)
    (held : s.written = before ++ m :: after) :
    Inv { s with written := before ++ after, responses := s.responses ++ [m] } := by
  let t : State Core := { s with written := before ++ after, responses := s.responses ++ [m] }
  show Inv t
  have moved : (t.written ++ t.responses).Perm (s.written ++ s.responses) := by
    rw [held]
    exact handed_perm before after s.responses m
  have perm : t.inTransit.Perm s.inTransit := (moved.append_left s.taken).append_left s.requests
  have fewer : t.written.Sublist s.written := by
    rw [held]
    exact handed_sublist before after m
  apply quiet_inv (t := t) inv rfl rfl rfl (unique_perm inv perm) (fun m' mm _ => perm.mem_iff.mp mm)
    ((fewer.append_left s.taken).append_left s.requests).subset
  · intro d given
    exact given
  · intro d
    rw [← holds_append, ← holds_append]
    exact holds_subset moved.subset

theorem other_inv (inv : Inv s) (value : Word) :
    Inv { s with responses := s.responses ++ [⟨value, none⟩] } := by
  let t : State Core := { s with responses := s.responses ++ [⟨value, none⟩] }
  show Inv t
  have same : t.inTransit = s.inTransit ++ [⟨value, none⟩] := by
    simp only [t, State.inTransit, List.append_assoc]
  have labels : origins t = origins s := by
    unfold origins
    rw [same, List.filterMap_append]
    exact List.append_nil _
  apply quiet_inv (t := t) inv rfl rfl rfl (labels ▸ inv.unique) _ (List.Subset.refl _)
  · intro d given
    exact given
  · intro d
    apply Or.imp_right
    intro given
    exact (holds_appended given).resolve_right (Option.some_ne_none d).symm
  · intro m mm some
    rw [same] at mm
    rcases List.mem_append.mp mm with old | new
    · exact old
    · rw [List.mem_singleton.mp new] at some
      exact absurd rfl some

theorem pop_inv {m : Mail Core} {rest : List (Mail Core)} (inv : Inv s)
    (front : s.responses = m :: rest) : Inv { s with responses := rest } := by
  let t : State Core := { s with responses := rest }
  show Inv t
  have sub : t.inTransit.Sublist s.inTransit := by
    simp only [t, State.inTransit, front]
    exact (((List.sublist_cons_self m rest).append_left _).append_left _).append_left _
  have unique : (origins t).Nodup := (sub.filterMap Mail.origin).nodup inv.unique
  apply quiet_inv (t := t) inv rfl rfl rfl unique (fun m' mm _ => sub.subset mm)
    (List.Subset.refl _)
  · intro d given
    exact given
  · intro d
    apply Or.imp_right
    rw [front]
    exact holds_subset (List.subset_cons_self m rest)

/-- VideoCore's reply to `d` fills the buffer of `d`'s call and no other. -/
theorem reply_inv {m : Mail Core} {before after : List (Mail Core)} {words : List Word}
    {answer : Core → Option (List Word)} (inv : Inv s) (held : s.taken = before ++ m :: after)
    (size : words.length = (s.mem ((gpuBuffer m.word).toNat / 4)).toNat / 4)
    (own : ∀ c, m.origin = some c → answer c = some words)
    (others : ∀ c, m.origin ≠ some c → answer c = s.answer c) :
    Inv { s with taken := before ++ after, written := s.written ++ [m]
                 mem := writeWords s.mem ((gpuBuffer m.word).toNat / 4) words, answer := answer } := by
  let t : State Core := { s with taken := before ++ after, written := s.written ++ [m]
                                 mem := writeWords s.mem ((gpuBuffer m.word).toNat / 4) words
                                 answer := answer }
  show Inv t
  have moved : (t.taken ++ t.written).Perm (s.taken ++ s.written) := by
    rw [held]
    exact handed_perm before after s.written m
  have perm : t.inTransit.Perm s.inTransit := by
    have whole := (moved.append_right s.responses).append_left s.requests
    rwa [List.append_assoc t.taken, List.append_assoc s.taken] at whole
  have unique := unique_perm inv perm
  have member : m ∈ s.taken := held ▸ List.mem_append_right before List.mem_cons_self
  have transit : m ∈ s.inTransit := by simp [State.inTransit, member]
  obtain ⟨d, origin⟩ := Option.ne_none_iff_exists'.mp (inv.ours m (by simp [member]))
  have awaiting := inv.waiting d (mem_origins.mpr ⟨m, transit, origin⟩)
  have liveD := awaiting_live awaiting
  have callD := inv.call d liveD
  have place : (gpuBuffer m.word).toNat / 4 = (s.calls d).base := by
    rw [inv.words m transit d origin, Call.word, gpuBuffer_word callD.placed]
    rfl
  have length : words.length = (s.calls d).args.length + 3 := by
    rw [size, place, callD.sized (Or.inr (Or.inr ⟨m, member, origin⟩)), size_words callD.short]
  have filled : t.mem = writeWords s.mem (s.calls d).base words := by
    simp only [t, place]
  -- the only request of `d` is the one that has just moved
  have answered : ¬ (Holds t.requests d ∨ Holds t.taken d) := by
    intro given
    have labels : ((t.requests ++ t.taken).filterMap Mail.origin ++
        (t.written ++ t.responses).filterMap Mail.origin).Nodup := by
      rw [← List.filterMap_append, List.append_assoc]
      exact unique
    have early : d ∈ (t.requests ++ t.taken).filterMap Mail.origin :=
      List.mem_filterMap.mpr (holds_append.mpr given)
    have late : d ∈ (t.written ++ t.responses).filterMap Mail.origin :=
      List.mem_filterMap.mpr ⟨m, by simp [t], origin⟩
    exact (List.nodup_append.mp labels).2.2 d early d late rfl
  apply moved_inv (t := t) inv rfl unique (fun m' mm _ => perm.mem_iff.mp mm)
    (moved.append_left s.requests).subset
  · intro e liveE
    by_cases same : e = d
    · subst same
      refine ⟨callD.placed, callD.short, ?_, ?_, ?_⟩
      · intro given
        rcases given with prepared | asked
        · exact absurd prepared (awaiting_only awaiting).1
        · exact absurd asked answered
      · intro _
        refine ⟨words, own e origin, ?_⟩
        intro i inside
        rw [filled]
        exact writeWords_inside s.mem _ (length ▸ inside)
      · have early : Early (s.calls e).phase := Or.inr awaiting
        exact (early_progress (s := t) early).mpr ((early_progress early).mp callD.progress)
    · have foreign : m.origin ≠ some e := by
        rw [origin]
        exact fun equal => same (Option.some.inj equal).symm
      refine callInv_frame (t := t) (inv.call e liveE) rfl (others e foreign) ?_ ?_ ?_
      · intro j inside
        rw [filled]
        apply writeWords_outside
        rw [length]
        exact fun given => inv.apart d e (Ne.symm same) liveD liveE j given inside
      · apply Or.imp_right
        rw [held]
        exact holds_subset (handed_sublist before after m).subset
      · apply Or.imp_left
        intro given
        exact (holds_appended given).resolve_right foreign

theorem send_inv (inv : Inv s) (absent : c ∉ origins s) (awaiting : Awaiting (s.calls c).phase)
    (sized : s.mem (s.calls c).base =
      BitVec.ofNat 32 (((s.calls c).args.length + 3) * 4)) :
    Inv { s with requests := s.requests ++ [⟨(s.calls c).word, some c⟩] } := by
  let t : State Core := { s with requests := s.requests ++ [⟨(s.calls c).word, some c⟩] }
  show Inv t
  have perm : t.inTransit.Perm (⟨(s.calls c).word, some c⟩ :: s.inTransit) := by
    simp only [t, State.inTransit, List.append_assoc]
    exact List.perm_middle
  have labels : (origins t).Perm (c :: origins s) := perm.filterMap Mail.origin
  have asked : ∀ d, Holds t.requests d → d = c ∨ Holds s.requests d := by
    intro d given
    rcases holds_appended given with old | new
    · exact Or.inr old
    · exact Or.inl (Option.some.inj new).symm
  refine ⟨labels.nodup_iff.mpr (List.nodup_cons.mpr ⟨absent, inv.unique⟩), ?_, ?_, ?_, inv.apart, ?_⟩
  · intro d listed
    rcases List.mem_cons.mp (labels.mem_iff.mp listed) with same | old
    · rw [same]
      exact awaiting
    · exact inv.waiting d old
  · intro m mm d origin
    rcases List.mem_cons.mp (perm.mem_iff.mp mm) with new | old
    · rw [new] at origin ⊢
      obtain rfl : c = d := Option.some.inj origin
      rfl
    · exact inv.words m old d origin
  · intro m mm
    simp only [t, List.mem_append, List.mem_singleton] at mm
    rcases mm with (old | new) | later
    · exact inv.ours m (by simp [old])
    · rw [new]
      exact Option.some_ne_none c
    · exact inv.ours m (by simp only [List.mem_append]; exact Or.inr later)
  · intro d live
    have own := inv.call d live
    refine ⟨own.placed, own.short, ?_, own.told, own.progress⟩
    intro given
    by_cases same : d = c
    · rw [same]
      exact sized
    · apply own.sized
      rcases given with prepared | new | held
      · exact Or.inl prepared
      · exact Or.inr (Or.inl ((asked d new).resolve_left same))
      · exact Or.inr (Or.inr held)

end PiKernel.Mailbox
