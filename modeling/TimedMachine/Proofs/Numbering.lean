import TimedMachine.Proofs.Firing

/-!
The numbers of timers grow with time. All that were ever armed are numbered below the next one
(`Numbered`); and once every timer that waits is numbered from some number on, none below it fires any
more (`Renewed`).
-/
namespace TimedMachine.Service

variable {κ : Type} {s r : Service κ}

/-- Every timer that was ever armed has a number below the next one. -/
def Numbered (s : Service κ) : Prop := ∀ t, .armed t ∈ s.journal → t.key.id < s.timers.nextId

theorem Numbered.adds (h : s.Numbered) (hnext : s.timers.nextId ≤ r.timers.nextId)
    (hadds : Adds (fun e => ∀ t, e = .armed t → t.key.id < r.timers.nextId) s r) : r.Numbered := by
  obtain ⟨new, hr, hnew⟩ := hadds
  intro t ht
  rw [hr] at ht
  rcases List.mem_append.1 ht with hold | hin
  · exact Nat.lt_of_lt_of_le (h t hold) hnext
  · exact hnew _ hin t rfl

/-- What writes of no arming keeps the numbers. -/
theorem Numbered.of_quiet (h : s.Numbered) (hnext : s.timers.nextId ≤ r.timers.nextId)
    (hadds : Adds (fun e => ∀ t, e ≠ .armed t) s r) : r.Numbered :=
  h.adds hnext (hadds.imp fun _ he t ht => absurd ht (he t))

theorem Numbered.log (h : s.Numbered) {e : Entry κ} (he : ∀ t, e ≠ .armed t) : (s.log e).Numbered :=
  h.of_quiet (Nat.le_refl _) (adds_log s he)

theorem Numbered.armed (h : s.Numbered) {timers : TimerQueue} {t : Timer}
    (hid : t.key.id = s.timers.nextId) (hnext : timers.nextId = s.timers.nextId + 1) :
    (s.withTimers timers (.armed t)).Numbered := by
  refine h.adds (hnext ▸ Nat.le_succ _) (s.adds_withTimers _ ?_)
  rintro u hu
  obtain rfl := Entry.armed.inj hu
  show t.key.id < timers.nextId
  rw [hnext, hid]
  exact Nat.lt_succ_self _

theorem Numbered.cancelDeferred (h : s.Numbered) : s.cancelDeferred.Numbered :=
  h.of_quiet s.follows_cancelDeferred.timers.nextId (s.adds_withTimers _ (by simp))

theorem Numbered.defer (h : s.Numbered) (event : Event) (delay : Duration) :
    (s.defer event delay).service.Numbered := by
  unfold Service.defer
  split
  · exact h.cancelDeferred
  · rename_i t timers hdefer
    obtain ⟨armed, harm, rfl⟩ := TimerQueue.defer?_eq_some hdefer
    have ha := TimerQueue.arms_of_arm? harm
    exact h.cancelDeferred.armed ha.id ha.nextId

theorem Numbered.perform (h : s.Numbered) (run : ActionFn κ) (event : Event) :
    (s.perform run event).service.Numbered := by
  have hcalled := h.log (e := .called run s.current.context event) (by simp)
  unfold Service.perform
  dsimp only
  split
  · exact hcalled
  · exact hcalled.of_quiet (Nat.le_of_eq (congrArg TimerQueue.nextId (timers_assign _ _).symm))
      (adds_of_journal_eq _ (journal_assign _ _))
  · exact hcalled.defer _ _

theorem Move.numbered (h : Move s r) (hs : s.Numbered) : r.Numbered := by
  cases h with
  | judged => exact hs.log (by simp)
  | weighed => exact hs.log (by simp)
  | skipped => exact hs.log (by simp)
  | called => exact hs.perform _ _
  | astray => exact hs.log (by simp)
  | notified => exact hs.log (by simp)
  | left => exact hs.of_quiet (Nat.le_refl _) (s.adds_withTimers _ (by simp))
  | cleared => exact hs.cancelDeferred
  | armed =>
    unfold arm
    split
    · exact hs
    · rename_i t timers harm
      have ha := TimerQueue.arms_of_arm? harm
      exact hs.armed ha.id ha.nextId
  | arrived => exact hs.of_quiet (Nat.le_refl _) ⟨[_], s.journal_arrive _ _ _, by simp⟩
  | revisited => exact hs.of_quiet (Nat.le_refl _) (adds_of_journal_eq _ rfl)
  | changed => exact hs.of_quiet (Nat.le_refl _) (adds_of_journal_eq _ rfl)

theorem Step.numbered (h : Step s r) (hs : s.Numbered) : r.Numbered := by
  cases h with
  | own hmove => exact hmove.numbered hs
  | begun => exact hs.of_quiet (Nat.le_refl _) ⟨[_], journal_log _ _, by simp⟩
  | halted => exact hs.of_quiet (Nat.le_refl _) ⟨[_], journal_log _ _, by simp⟩
  | accepted => exact hs.log (by simp)
  | deferred => exact hs.defer _ _
  | lapsed => exact hs.log (by simp)
  | taken hpop =>
    have hid := (TimerQueue.popDue?_eq_some hpop).2.2.2.2
    exact hs.of_quiet (Nat.le_of_eq hid.symm) (s.adds_withTimers _ (by simp))
  | clocked => exact hs.of_quiet (Nat.le_refl _) (adds_of_journal_eq _ rfl)
  | woke => exact hs.log (by simp)
  | drained => exact hs.log (by simp)

theorem Steps.numbered (h : Steps s r) (hs : s.Numbered) : r.Numbered := by
  induction h with
  | refl => exact hs
  | tail _ hstep ih => exact hstep.numbered ih

/-- All that waits has a number from some one on, and so will all that is armed. -/
structure Renewed (number : Nat) (s : Service κ) : Prop where
  nextId : number ≤ s.timers.nextId
  pending : ∀ t ∈ s.timers.pending, number ≤ t.key.id

theorem Renewed.leads {number : Nat} (h : Renewed number s) (hleads : s.timers.Leads r.timers) :
    Renewed number r where
  nextId := Nat.le_trans h.nextId hleads.nextId
  pending t ht := by
    rcases hleads.pending t ht with hold | ⟨hnew, _⟩
    · exact h.pending t hold
    · exact Nat.le_trans h.nextId hnew

theorem Step.renewed {number : Nat} (h : Step s r) (hs : Renewed number s) :
    Renewed number r ∧ Adds (fun e => ∀ t ∈ e.fired?, number ≤ t.key.id) s r := by
  rcases h.leads_or with ⟨hleads, hadds⟩ | ⟨now, rfl⟩ | ⟨_, _, t, timers, hpop, rfl⟩
  · exact ⟨hs.leads hleads, hadds.imp fun e he t ht => by rw [he] at ht; cases ht⟩
  · exact ⟨⟨hs.nextId, hs.pending⟩, adds_of_journal_eq _ rfl⟩
  · have hmem := TimerQueue.mem_of_popDue? hpop
    have hid := (TimerQueue.popDue?_eq_some hpop).2.2.2.2
    refine ⟨⟨hid ▸ hs.nextId, fun u hu => hs.pending u ((hmem u).2 (.inr hu))⟩,
      s.adds_withTimers _ ?_⟩
    rintro u hu
    obtain rfl := Option.some.inj hu
    exact hs.pending t ((hmem t).2 (.inl rfl))

/-- Once all earlier timers are gone, none of them fires any more. -/
theorem Steps.renewed {number : Nat} (h : Steps s r) (hs : Renewed number s) :
    Renewed number r ∧ Adds (fun e => ∀ t ∈ e.fired?, number ≤ t.key.id) s r := by
  induction h with
  | refl => exact ⟨hs, .refl _ s⟩
  | tail _ hstep ih =>
    obtain ⟨hrenewed, hadds⟩ := ih
    obtain ⟨hrenewed', hadds'⟩ := hstep.renewed hrenewed
    exact ⟨hrenewed', hadds.trans hadds'⟩

end TimedMachine.Service
