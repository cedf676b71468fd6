import TimedMachine.Proofs.Calls
import TimedMachine.Proofs.Draining

/-!
No timer is lost. On the way from one service to another, by moves or by the loop of a drain, every
timer that waited at first or was armed on the way still waits in the end, or the journal tells that
it fired or was cancelled (`Accounts`); and the timers that wait in the end are among those. What is
armed on the way is numbered past all that was armed before.
-/
namespace TimedMachine.Service

variable {κ : Type}

/-- The entries tell that a timer fired or was cancelled. -/
inductive Gone (t : Timer) (es : List (Entry κ)) : Prop
  | fired {clock : Duration} (hin : .fired t clock ∈ es)
  | cancelled {ts : List Timer} (hin : .cancelled ts ∈ es) (ht : t ∈ ts)

theorem Gone.of_subset {t : Timer} {es fs : List (Entry κ)} (h : Gone t es)
    (hsub : ∀ e ∈ es, e ∈ fs) : Gone t fs := by
  cases h with
  | fired hin => exact .fired (hsub _ hin)
  | cancelled hin ht => exact .cancelled (hsub _ hin) ht

/-- The entries written on the way account for all timers. -/
structure Accounts (s r : Service κ) (new : List (Entry κ)) : Prop where
  journal : r.journal = s.journal ++ new
  nextId : s.timers.nextId ≤ r.timers.nextId
  numbered : ∀ t, .armed t ∈ new → s.timers.nextId ≤ t.key.id
  arises : ∀ t ∈ r.timers.pending, t ∈ s.timers.pending ∨ .armed t ∈ new
  kept : ∀ t, t ∈ s.timers.pending ∨ .armed t ∈ new → t ∈ r.timers.pending ∨ Gone t new

theorem Accounts.refl (s : Service κ) : Accounts s s [] where
  journal := (List.append_nil _).symm
  nextId := Nat.le_refl _
  numbered _ ht := nomatch ht
  arises _ ht := .inl ht
  kept t ht := by
    rcases ht with ht | ht
    · exact .inl ht
    · cases ht

theorem Accounts.trans {s r u : Service κ} {new more : List (Entry κ)} (h : Accounts s r new)
    (k : Accounts r u more) : Accounts s u (new ++ more) where
  journal := by rw [k.journal, h.journal, List.append_assoc]
  nextId := Nat.le_trans h.nextId k.nextId
  numbered t ht := by
    rcases List.mem_append.1 ht with ht | ht
    · exact h.numbered t ht
    · exact Nat.le_trans h.nextId (k.numbered t ht)
  arises t ht := by
    rcases k.arises t ht with ht | ht
    · exact (h.arises t ht).imp_right (List.mem_append_left more)
    · exact .inr (List.mem_append_right new ht)
  kept t ht := by
    have hgone (hr : t ∈ r.timers.pending ∨ .armed t ∈ more) :
        t ∈ u.timers.pending ∨ Gone t (new ++ more) :=
      (k.kept t hr).imp_right fun hgone => hgone.of_subset fun _ => List.mem_append_right new
    have hfirst (hs : t ∈ s.timers.pending ∨ .armed t ∈ new) :
        t ∈ u.timers.pending ∨ Gone t (new ++ more) := by
      rcases h.kept t hs with hr | hr
      · exact hgone (.inl hr)
      · exact .inr (hr.of_subset fun _ => List.mem_append_left more)
    rcases ht with ht | ht
    · exact hfirst (.inl ht)
    · rcases List.mem_append.1 ht with ht | ht
      · exact hfirst (.inr ht)
      · exact hgone (.inr ht)

/-- Every timer is accounted for on the way. -/
abbrev Accounted (s r : Service κ) : Prop := ∃ new, Accounts s r new

theorem Accounted.trans {s r u : Service κ} (h : Accounted s r) (k : Accounted r u) :
    Accounted s u := by
  obtain ⟨new, hnew⟩ := h
  obtain ⟨more, hmore⟩ := k
  exact ⟨new ++ more, hnew.trans hmore⟩

/-- Nothing becomes of any timer while the queue stays as it is and nothing is said to be armed. -/
theorem accounted_of_timers_eq {s r : Service κ} (htimers : r.timers = s.timers)
    (hadds : Adds (fun e => ∀ t, e ≠ .armed t) s r) : Accounted s r := by
  obtain ⟨new, hr, hnew⟩ := hadds
  refine ⟨new, hr, Nat.le_of_eq (by rw [htimers]), fun t ht => absurd rfl (hnew _ ht t), ?_, ?_⟩
  · exact fun t ht => .inl (htimers ▸ ht)
  · rintro t (ht | ht)
    · exact .inl (htimers ▸ ht)
    · exact absurd rfl (hnew _ ht t)

theorem accounted_log (s : Service κ) {e : Entry κ} (he : ∀ t, e ≠ .armed t) :
    Accounted s (s.log e) := accounted_of_timers_eq rfl (adds_log s he)

/-- Timers are cancelled, and the journal tells which. -/
theorem accounted_cancelled (s : Service κ) {timers : TimerQueue} {ts : List Timer}
    (hnext : timers.nextId = s.timers.nextId)
    (hpending : ∀ t ∈ timers.pending, t ∈ s.timers.pending)
    (hcancelled : ∀ t ∈ s.timers.pending, t ∈ timers.pending ∨ t ∈ ts) :
    Accounted s (s.withTimers timers (.cancelled ts)) := by
  refine ⟨[.cancelled ts], s.journal_withTimers _ _, Nat.le_of_eq hnext.symm, ?_, ?_, ?_⟩
  · intro t ht
    simp at ht
  · exact fun t ht => .inl (hpending t ht)
  · rintro t (ht | ht)
    · exact (hcancelled t ht).imp_right fun hin => .cancelled (List.mem_singleton.2 rfl) hin
    · simp at ht

theorem accounted_cancelDelayed (s : Service κ) : Accounted s s.cancelDelayed := by
  refine s.accounted_cancelled rfl (fun t ht => (List.mem_filter.1 ht).1) fun t ht => ?_
  cases htask : t.task.isDelayed with
  | true => exact .inr (List.mem_filter.2 ⟨ht, htask⟩)
  | false => exact .inl (TimerQueue.mem_cancelDelayed.2 ⟨ht, htask⟩)

theorem accounted_cancelDeferred (s : Service κ) : Accounted s s.cancelDeferred := by
  refine s.accounted_cancelled ?_ (fun _ ht => TimerQueue.mem_of_mem_cancelDeferred ht) fun t ht => ?_
  · unfold TimerQueue.cancelDeferred
    split <;> rfl
  · by_cases hkey : s.timers.deferred = some t.key
    · exact .inr (List.mem_filter.2 ⟨ht, decide_eq_true hkey⟩)
    · refine .inl ?_
      unfold TimerQueue.cancelDeferred
      split
      · exact ht
      · rename_i key hsome
        refine List.mem_filter.2 ⟨ht, decide_eq_true fun heq => hkey ?_⟩
        rw [hsome, heq]

/-- A timer is armed under the next number, and the journal tells it. -/
theorem accounted_armed (s : Service κ) {timers : TimerQueue} {t : Timer}
    (hid : t.key.id = s.timers.nextId) (hnext : timers.nextId = s.timers.nextId + 1)
    (hpending : ∀ u, u ∈ timers.pending ↔ u = t ∨ u ∈ s.timers.pending) :
    Accounted s (s.withTimers timers (.armed t)) := by
  have hentry {u : Timer} (hu : (.armed u : Entry κ) ∈ [.armed t]) : u = t := by simpa using hu
  have hle : s.timers.nextId ≤ timers.nextId := hnext ▸ Nat.le_succ _
  refine ⟨[.armed t], s.journal_withTimers _ _, hle, ?_, ?_, ?_⟩
  · intro u hu
    rw [hentry hu, hid]
  · intro u hu
    rcases (hpending u).1 hu with rfl | hold
    · exact .inr (List.mem_singleton.2 rfl)
    · exact .inl hold
  · rintro u (hu | hu)
    · exact .inl ((hpending u).2 (.inr hu))
    · exact .inl ((hpending u).2 (.inl (hentry hu)))

theorem accounted_arm (delay : Duration) (task : Task) (s : Service κ) :
    Accounted s (s.arm delay task).service := by
  unfold arm
  split
  · exact ⟨[], .refl s⟩
  · rename_i t timers harm
    have ha := TimerQueue.arms_of_arm? harm
    exact s.accounted_armed ha.id ha.nextId ha.pending

theorem accounted_defer (event : Event) (delay : Duration) (s : Service κ) :
    Accounted s (s.defer event delay).service := by
  unfold defer
  split
  · exact s.accounted_cancelDeferred
  · rename_i t timers hdefer
    obtain ⟨armed, harm, rfl⟩ := TimerQueue.defer?_eq_some hdefer
    have ha := TimerQueue.arms_of_arm? harm
    exact s.accounted_cancelDeferred.trans
      (s.cancelDeferred.accounted_armed ha.id ha.nextId ha.pending)

theorem accounted_perform (run : ActionFn κ) (event : Event) (s : Service κ) :
    Accounted s (s.perform run event).service := by
  have hcalled := s.accounted_log (e := .called run s.current.context event) (by simp)
  unfold perform
  dsimp only
  split
  · exact hcalled
  · exact hcalled.trans
      (accounted_of_timers_eq (timers_assign _ _) (adds_of_journal_eq _ (journal_assign _ _)))
  · exact hcalled.trans (accounted_defer _ _ _)

theorem Move.accounted {s r : Service κ} (h : Move s r) : Accounted s r := by
  cases h with
  | judged => exact s.accounted_log (by simp)
  | weighed => exact s.accounted_log (by simp)
  | skipped => exact s.accounted_log (by simp)
  | called => exact s.accounted_perform _ _
  | astray => exact s.accounted_log (by simp)
  | notified => exact s.accounted_log (by simp)
  | left => exact s.accounted_cancelDelayed
  | cleared => exact s.accounted_cancelDeferred
  | armed => exact s.accounted_arm _ _
  | arrived => exact accounted_of_timers_eq rfl ⟨_, s.journal_arrive _ _ _, by simp⟩
  | revisited => exact accounted_of_timers_eq rfl (adds_of_journal_eq _ rfl)
  | changed => exact accounted_of_timers_eq rfl (adds_of_journal_eq _ rfl)

theorem Moves.accounted {s r : Service κ} (h : Moves s r) : Accounted s r := by
  induction h with
  | refl => exact ⟨[], .refl s⟩
  | tail _ hmove ih => exact ih.trans hmove.accounted

variable {limit : Duration} {horizon : Nat}

/-- The timer that is taken is said to have fired. -/
theorem accounted_taken {s : Service κ} {t : Timer} {timers : TimerQueue}
    (hpop : s.timers.popDue? limit horizon = some (t, timers)) : Accounted s (s.taken t timers) := by
  have hmem := TimerQueue.mem_of_popDue? hpop
  have hid : timers.nextId = s.timers.nextId := (TimerQueue.popDue?_eq_some hpop).2.2.2.2
  refine ⟨[.fired t timers.now], s.journal_withTimers _ _, Nat.le_of_eq hid.symm, ?_, ?_, ?_⟩
  · intro u hu
    simp at hu
  · exact fun u hu => .inl ((hmem u).2 (.inr hu))
  · rintro u (hu | hu)
    · rcases (hmem u).1 hu with rfl | hu
      · exact .inr (.fired (List.mem_singleton.2 rfl))
      · exact .inl hu
    · simp at hu

variable [BEq κ]

theorem accounted_fire (t : Timer) (s : Service κ) : Accounted s (s.fire t).service := by
  rcases moves_fire t s with ⟨_, _, why, _, _, hlapsed⟩ | hmoves
  · rw [hlapsed]
    exact s.accounted_log (by simp)
  · exact Moves.accounted hmoves

/-- No timer is lost in the loop of a drain. -/
theorem Drains.accounted {s : Service κ} {ts : List Timer} {o : Outcome κ}
    (h : Drains limit horizon s ts o) : Accounted s o.service := by
  have hturn {s : Service κ} {t : Timer} {timers : TimerQueue}
      (hpop : s.timers.popDue? limit horizon = some (t, timers)) :
      Accounted s ((s.taken t timers).fire t).service :=
    (accounted_taken hpop).trans (accounted_fire t _)
  induction h with
  | @idle s => exact ⟨[], .refl s⟩
  | cut hpop hfire =>
    have hr := hturn hpop
    rw [hfire] at hr
    exact hr
  | turn hpop hfire _ ih =>
    have hr := hturn hpop
    rw [hfire] at hr
    exact hr.trans ih

end TimedMachine.Service
