import TimedMachine.TimerQueue

/-!
Why draining a queue ends. While the clock stands still, arming and cancelling only bring timers
that are numbered past all earlier ones, not due before the clock, and either immediate or due later
than the clock (`Leads`). So with every timer that is taken, one of three things gets smaller, in this order: the
number of pending timers below the horizon, the time that is left, and the number of overdue timers
past the horizon that are not held back (`measure_lt`).
-/
namespace TimedMachine.TimerQueue

/-- What arming and cancelling may do to a queue. -/
structure Leads (q r : TimerQueue) : Prop where
  now : r.now = q.now
  nextId : q.nextId ≤ r.nextId
  pending : ∀ t ∈ r.pending,
    t ∈ q.pending ∨ (q.nextId ≤ t.key.id ∧ q.now ≤ t.key.deadline ∧
      (t.immediate = true ∨ q.now < t.key.deadline))

/-- Nothing is due before the given instant. -/
def NotBefore (q : TimerQueue) (instant : Duration) : Prop :=
  ∀ t ∈ q.pending, instant ≤ t.key.deadline

theorem Leads.refl (q : TimerQueue) : q.Leads q := ⟨rfl, Nat.le_refl _, fun _ h => .inl h⟩

theorem Leads.trans {q r s : TimerQueue} (hqr : q.Leads r) (hrs : r.Leads s) : q.Leads s where
  now := hrs.now.trans hqr.now
  nextId := Nat.le_trans hqr.nextId hrs.nextId
  pending t ht := by
    rcases hrs.pending t ht with ht | ⟨hid, hlate⟩
    · exact hqr.pending t ht
    · exact .inr ⟨Nat.le_trans hqr.nextId hid, hqr.now ▸ hlate⟩

theorem leads_keep (q : TimerQueue) (test : Timer → Bool) : q.Leads (q.keep test) where
  now := rfl
  nextId := Nat.le_refl _
  pending _ ht := .inl (List.mem_filter.1 ht).1

theorem leads_cancelDelayed (q : TimerQueue) : q.Leads q.cancelDelayed := q.leads_keep _

theorem leads_cancelDeferred (q : TimerQueue) : q.Leads q.cancelDeferred := by
  unfold cancelDeferred
  split
  · exact .refl q
  · have h := q.leads_keep (fun t => t.key ≠ ‹Key›)
    exact ⟨h.now, h.nextId, h.pending⟩

theorem leads_enqueue {q : TimerQueue} {delay : Duration} {task : Task} {t : Timer}
    (h : q.timer? delay task = some t) : q.Leads (q.enqueue t (id_of_timer? h)) where
  now := rfl
  nextId := Nat.le_succ _
  pending u hu := by
    rcases Timer.mem_place.1 hu with rfl | hu
    · unfold timer? at h
      obtain ⟨deadline, hd, rfl⟩ := Option.map_eq_some_iff.1 h
      have hd := Duration.add?_eq_some hd
      refine .inr ⟨Nat.le_refl _, by rw [Duration.le_def]; dsimp only; omega, ?_⟩
      by_cases hz : delay = .zero
      · exact .inl (by simp [hz])
      · have hpos : delay.nanos ≠ 0 := fun h0 => hz (Duration.ext h0)
        exact .inr (by rw [Duration.lt_def]; dsimp only; omega)
    · exact .inl hu

theorem leads_of_arm? {q r : TimerQueue} {delay : Duration} {task : Task} {t : Timer}
    (h : q.arm? delay task = some (t, r)) : q.Leads r := by
  unfold arm? at h
  split at h
  · cases h
  · rename_i ht
    cases h
    exact leads_enqueue ht

/-- A deferred event is armed when none waits any more, and then the queue knows of it. -/
theorem defer?_eq_some {q r : TimerQueue} {event : Event} {delay : Duration} {t : Timer}
    (h : q.defer? event delay = some (t, r)) :
    ∃ armed, q.cancelDeferred.arm? delay (.deferred event) = some (t, armed) ∧
      r = { armed with deferred := some t.key } := by
  unfold defer? at h
  obtain ⟨⟨u, armed⟩, harm, he⟩ := Option.map_eq_some_iff.1 h
  cases he
  exact ⟨armed, harm, rfl⟩

theorem leads_of_defer? {q r : TimerQueue} {event : Event} {delay : Duration} {t : Timer}
    (h : q.defer? event delay = some (t, r)) : q.Leads r := by
  obtain ⟨armed, harm, rfl⟩ := defer?_eq_some h
  have := q.leads_cancelDeferred.trans (leads_of_arm? harm)
  exact ⟨this.now, this.nextId, this.pending⟩

theorem Leads.notBefore {q r : TimerQueue} {instant : Duration} (h : q.Leads r)
    (hq : q.NotBefore instant) (hnow : instant ≤ q.now) : r.NotBefore instant := by
  intro t ht
  rcases h.pending t ht with ht | ⟨_, hdue, _⟩
  · exact hq t ht
  · exact Nat.le_trans hnow hdue

/-- No pending timer is due before the first one. -/
theorem notBefore_of_nextDeadline {q : TimerQueue} {d : Duration} (h : q.nextDeadline = some d) :
    q.NotBefore d := by
  unfold nextDeadline at h
  obtain ⟨u, hu, rfl⟩ := Option.map_eq_some_iff.1 h
  obtain ⟨l, hl⟩ := List.head?_eq_some_iff.1 hu
  have ho := q.ordered
  intro t ht
  rw [hl] at ho ht
  rcases List.mem_cons.1 ht with rfl | ht
  · exact Nat.le_refl _
  · exact ((List.pairwise_cons.1 ho).1 t ht).deadline_le

theorem NotBefore.le_nextDeadline {q : TimerQueue} {instant d : Duration}
    (h : q.NotBefore instant) (hd : q.nextDeadline = some d) : instant ≤ d := by
  unfold nextDeadline at hd
  obtain ⟨t, ht, rfl⟩ := Option.map_eq_some_iff.1 hd
  exact h t (List.mem_of_head? ht)

/-- What `popDue?` says about the timer that it takes and the queue that is left. -/
theorem popDue?_eq_some {q r : TimerQueue} {limit : Duration} {horizon : Nat} {t : Timer}
    (h : q.popDue? limit horizon = some (t, r)) :
    q.pending = t :: r.pending ∧ t.key.deadline ≤ limit ∧
      (horizon ≤ t.key.id → t.immediate = false) ∧
      r.now = q.now.later t.key.deadline ∧ r.nextId = q.nextId := by
  unfold popDue? at h
  split at h
  · cases h
  · rename_i u hu
    split at h
    · cases h
    · rename_i hheld
      cases h
      simp only [not_or, not_and, Duration.lt_def, Nat.not_lt] at hheld
      refine ⟨?_, hheld.1, fun hid => by simpa using hheld.2 hid, rfl, rfl⟩
      obtain ⟨l, hl⟩ := List.head?_eq_some_iff.1 hu
      simp [setNow, rest, hl]

theorem nodup_pending (q : TimerQueue) : q.pending.Nodup := by
  refine q.ordered.imp ?_
  rintro t _ h rfl
  exact Key.not_before_self _ h

/-- Distinct members of one list that pass a test and all lie in another list are no more than those
that pass there. -/
theorem countP_le_of_mem {α : Type} {p : α → Bool} {l : List α} (hl : l.Nodup) {m : List α}
    (h : ∀ a ∈ l, p a = true → a ∈ m) : l.countP p ≤ m.countP p := by
  induction l generalizing m with
  | nil => simp
  | cons a rest ih =>
    obtain ⟨hnot, hrest⟩ := List.nodup_cons.1 hl
    by_cases ha : p a = true
    · obtain ⟨s, t, rfl⟩ := List.append_of_mem (h a List.mem_cons_self ha)
      have hle : rest.countP p ≤ (s ++ t).countP p := by
        refine ih hrest fun b hb hp => ?_
        have := h b (List.mem_cons_of_mem _ hb) hp
        grind
      simp only [List.countP_append, List.countP_cons_of_pos ha] at *
      omega
    · rw [List.countP_cons_of_neg ha]
      exact ih hrest fun b hb => h b (List.mem_cons_of_mem _ hb)

/-- Timers numbered below the horizon. -/
def early (horizon : Nat) (t : Timer) : Bool := t.key.id < horizon

/-- Timers past the horizon that are due at the clock and not held back. -/
def overdue (horizon : Nat) (now : Duration) (t : Timer) : Bool :=
  decide (horizon ≤ t.key.id) && !t.immediate && decide (t.key.deadline ≤ now)

/-- What gets smaller from one firing to the next. -/
def measure (q : TimerQueue) (limit : Duration) (horizon : Nat) : Nat × Nat × Nat :=
  (q.pending.countP (early horizon), limit.nanos - q.now.nanos,
    q.pending.countP (overdue horizon q.now))

/-- The order in which the measure counts: the first component that differs decides. -/
abbrev Smaller : Nat × Nat × Nat → Nat × Nat × Nat → Prop :=
  Prod.Lex (· < ·) (Prod.Lex (· < ·) (· < ·))

theorem Leads.countP_early_le {q r : TimerQueue} (h : q.Leads r) {horizon : Nat}
    (hh : horizon ≤ q.nextId) :
    r.pending.countP (early horizon) ≤ q.pending.countP (early horizon) := by
  refine countP_le_of_mem r.nodup_pending fun t ht hp => ?_
  rcases h.pending t ht with ht | ⟨hid, _⟩
  · exact ht
  · simp only [early, decide_eq_true_eq] at hp
    omega

theorem Leads.countP_overdue_le {q r : TimerQueue} (h : q.Leads r) (horizon : Nat) :
    r.pending.countP (overdue horizon r.now) ≤ q.pending.countP (overdue horizon q.now) := by
  rw [h.now]
  refine countP_le_of_mem r.nodup_pending fun t ht hp => ?_
  rcases h.pending t ht with ht | ⟨_, _, hlate⟩
  · exact ht
  · simp only [overdue, Bool.and_eq_true, Bool.not_eq_true', decide_eq_true_eq,
      Duration.le_def] at hp
    rcases hlate with hlate | hlate
    · simp [hlate] at hp
    · rw [Duration.lt_def] at hlate
      omega

/-- Taking a timer and then only arming and cancelling brings the measure down. -/
theorem measure_lt {q r s : TimerQueue} {limit : Duration} {horizon : Nat} {t : Timer}
    (hpop : q.popDue? limit horizon = some (t, r)) (hlead : r.Leads s)
    (hh : horizon ≤ q.nextId) :
    Smaller (s.measure limit horizon) (q.measure limit horizon) := by
  obtain ⟨hq, hdue, hheld, hnow, hid⟩ := popDue?_eq_some hpop
  have hearly := hlead.countP_early_le (hid.symm ▸ hh : horizon ≤ r.nextId)
  have hover := hlead.countP_overdue_le horizon
  have hs : s.now.nanos = max q.now.nanos t.key.deadline.nanos := by
    rw [hlead.now, hnow, Duration.nanos_later]
  rw [Duration.le_def] at hdue
  unfold measure
  by_cases hlow : t.key.id < horizon
  · refine Prod.Lex.left _ _ ?_
    rw [hq, List.countP_cons_of_pos (by simpa [early] using hlow)]
    omega
  · have hcount : q.pending.countP (early horizon) = r.pending.countP (early horizon) := by
      rw [hq, List.countP_cons_of_neg (by simpa [early] using hlow)]
    rw [hcount]
    rcases Nat.lt_or_eq_of_le hearly with hlt | heq
    · exact Prod.Lex.left _ _ hlt
    · rw [heq]
      refine Prod.Lex.right _ ?_
      by_cases hclock : q.now.nanos < t.key.deadline.nanos
      · exact Prod.Lex.left _ _ (by omega)
      · have hsame : s.now.nanos = q.now.nanos := by omega
        have hrnow : r.now = q.now := Duration.ext (by rw [hnow, Duration.nanos_later]; omega)
        rw [hsame]
        refine Prod.Lex.right _ ?_
        have hcounted : overdue horizon q.now t = true := by
          simp only [overdue, hheld (by omega), Bool.not_false, Bool.and_true, Bool.and_eq_true,
            decide_eq_true_eq, Duration.le_def]
          omega
        rw [hrnow] at hover
        rw [hq, List.countP_cons_of_pos hcounted]
        omega

end TimedMachine.TimerQueue
