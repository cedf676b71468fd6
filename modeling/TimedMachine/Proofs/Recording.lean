import TimedMachine.Proofs.Act

/-!
The history keeps what the journal records. Every record that is written is pushed to the history at
once, and nothing else is, so the history at the end of a run is the one at its beginning with the
records written since then (`Steps.keeps`).
-/
namespace TimedMachine.Service

variable {κ : Type}

/-- The records written on the way from one service to another were pushed to the history in order. -/
def Keeps (s r : Service κ) : Prop :=
  ∃ new, r.journal = s.journal ++ new ∧
    r.history = (new.filterMap Entry.record?).foldl History.push s.history

theorem Keeps.trans {s r u : Service κ} (h : s.Keeps r) (k : r.Keeps u) : s.Keeps u := by
  obtain ⟨new, hr, hnew⟩ := h
  obtain ⟨more, hu, hmore⟩ := k
  refine ⟨new ++ more, by rw [hu, hr, List.append_assoc], ?_⟩
  rw [hmore, hnew, List.filterMap_append, List.foldl_append]

theorem keeps_of_quiet {s r : Service κ} (hadds : Adds (fun e => e.record? = none) s r)
    (hhistory : r.history = s.history) : s.Keeps r := by
  obtain ⟨new, hr, hnew⟩ := hadds
  have hnone : new.filterMap Entry.record? = [] := List.filterMap_eq_nil_iff.2 hnew
  exact ⟨new, hr, by rw [hnone, hhistory]; rfl⟩

theorem keeps_log (s : Service κ) {e : Entry κ} (he : e.record? = none) : s.Keeps (s.log e) :=
  keeps_of_quiet (adds_log s he) rfl

theorem Stays.keeps {s r : Service κ} (h : s.Stays r) : s.Keeps r :=
  keeps_of_quiet (h.entries.imp Entry.record?_of_isWork) h.history

theorem Move.keeps {s r : Service κ} (h : Move s r) : s.Keeps r := by
  cases h with
  | judged => exact s.keeps_log rfl
  | weighed => exact s.keeps_log rfl
  | skipped => exact s.keeps_log rfl
  | called => exact (s.stays_perform _ _).keeps
  | astray => exact s.keeps_log rfl
  | notified => exact s.keeps_log rfl
  | left => exact keeps_of_quiet (s.adds_withTimers _ rfl) rfl
  | cleared => exact s.stays_cancelDeferred.keeps
  | @armed index d =>
    have harming := s.arming_arm d.delay s.current.value index
    exact keeps_of_quiet (harming.entries.imp Entry.record?_of_isWork) harming.history
  | arrived => exact ⟨[_], s.journal_arrive _ _ _, rfl⟩
  | revisited => exact keeps_of_quiet (adds_of_journal_eq _ rfl) rfl
  | changed => exact keeps_of_quiet (adds_of_journal_eq _ rfl) rfl

theorem Step.keeps {s r : Service κ} (h : Step s r) : s.Keeps r := by
  cases h with
  | own hmove => exact hmove.keeps
  | begun => exact keeps_of_quiet ⟨[_], journal_log _ _, by simp [Entry.record?]⟩ rfl
  | halted => exact keeps_of_quiet ⟨[_], journal_log _ _, by simp [Entry.record?]⟩ rfl
  | accepted => exact s.keeps_log rfl
  | deferred => exact (s.stays_defer _ _).keeps
  | lapsed => exact s.keeps_log rfl
  | taken => exact keeps_of_quiet (s.adds_withTimers _ rfl) rfl
  | clocked => exact keeps_of_quiet (adds_of_journal_eq _ rfl) rfl
  | woke => exact s.keeps_log rfl
  | drained => exact s.keeps_log rfl

theorem Steps.keeps {s r : Service κ} (h : Steps s r) : s.Keeps r := by
  induction h with
  | refl => exact keeps_of_quiet (.refl _ s) rfl
  | tail _ hstep ih => exact ih.trans hstep.keeps

end TimedMachine.Service
