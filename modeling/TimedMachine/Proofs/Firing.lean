import TimedMachine.Proofs.Act
import TimedMachine.Proofs.Draining

/-!
The order of firing over the whole life of a service. All timers that have fired come before all that
wait, by deadline and then by number, and none that is armed later can come before the clock
(`InOrder`). Every step keeps this, whatever is armed, cancelled or held back on the way, so the keys
of the firings in a session are strictly increasing, across all its calls (`orderly_attend`).
-/
namespace TimedMachine

variable {κ : Type}

namespace TimerQueue

theorem leads_cancelAll (q : TimerQueue) : q.Leads q.cancelAll := by
  have h := q.leads_keep (fun _ => false)
  exact ⟨h.now, h.nextId, h.pending⟩

/-- What has fired by now comes before what is armed from now on. -/
theorem Leads.before {q r : TimerQueue} (h : q.Leads r) {k : Key} (hdue : k.deadline ≤ q.now)
    (hid : k.id < q.nextId) (hq : ∀ u ∈ q.pending, k.Before u.key) :
    ∀ u ∈ r.pending, k.Before u.key := by
  intro u hu
  rcases h.pending u hu with hold | ⟨hnew, hlate, _⟩
  · exact hq u hold
  · have hle : k.deadline.nanos ≤ u.key.deadline.nanos := Nat.le_trans hdue hlate
    simp only [Key.Before, Duration.lt_def, Duration.eq_iff]
    omega

end TimerQueue

namespace Service

/-- The timers have fired in the order of their keys, and all that wait come behind them. -/
structure InOrder (s : Service κ) : Prop where
  ascending : s.firings.Pairwise (fun t u => t.key.Before u.key)
  due : ∀ t ∈ s.firings, t.key.deadline ≤ s.now
  numbered : ∀ t ∈ s.firings, t.key.id < s.timers.nextId
  ahead : ∀ t ∈ s.firings, ∀ u ∈ s.timers.pending, t.key.Before u.key

theorem InOrder.leads {s r : Service κ} (h : s.InOrder) (hleads : s.timers.Leads r.timers)
    (hfirings : r.firings = s.firings) : r.InOrder where
  ascending := hfirings ▸ h.ascending
  due t ht := by
    have hnow : r.now = s.now := hleads.now
    rw [hnow]
    exact h.due t (hfirings ▸ ht)
  numbered t ht := Nat.lt_of_lt_of_le (h.numbered t (hfirings ▸ ht)) hleads.nextId
  ahead t ht := by
    rw [hfirings] at ht
    exact hleads.before (h.due t ht) (h.numbered t ht) (h.ahead t ht)

/-- The timer that is taken comes behind all that have fired, and before all others that wait. -/
theorem InOrder.taken {s : Service κ} (h : s.InOrder) {limit : Duration} {horizon : Nat} {t : Timer}
    {timers : TimerQueue} (hpop : s.timers.popDue? limit horizon = some (t, timers)) :
    (s.taken t timers).InOrder := by
  obtain ⟨hq, _, _, hnow, hid⟩ := TimerQueue.popDue?_eq_some hpop
  have hordered := s.timers.ordered
  have hfresh := s.timers.fresh t (by rw [hq]; exact List.mem_cons_self)
  rw [hq] at hordered
  obtain ⟨hfirst, _⟩ := List.pairwise_cons.1 hordered
  have hclock : (s.taken t timers).now.nanos = max s.now.nanos t.key.deadline.nanos := by
    show timers.now.nanos = _
    rw [hnow, Duration.nanos_later]
    rfl
  have hmem {u : Timer} (hu : u ∈ (s.taken t timers).firings) : u ∈ s.firings ∨ u = t := by
    simpa [firings_taken] using hu
  constructor
  · rw [firings_taken]
    refine List.pairwise_append.2 ⟨h.ascending, List.pairwise_singleton _ _, ?_⟩
    intro u hu v hv
    obtain rfl := List.mem_singleton.1 hv
    exact h.ahead u hu v (by rw [hq]; exact List.mem_cons_self)
  · intro u hu
    rw [Duration.le_def, hclock]
    rcases hmem hu with hu | rfl
    · exact Nat.le_trans (h.due u hu) (Nat.le_max_left _ _)
    · exact Nat.le_max_right _ _
  · intro u hu
    show u.key.id < timers.nextId
    rw [hid]
    rcases hmem hu with hu | rfl
    · exact h.numbered u hu
    · exact hfresh
  · intro u hu v hv
    rcases hmem hu with hu | rfl
    · exact h.ahead u hu v (by rw [hq]; exact List.mem_cons_of_mem _ hv)
    · exact hfirst v hv

theorem InOrder.setNow {s : Service κ} (h : s.InOrder) (now : Duration) : (s.setNow now).InOrder where
  ascending := h.ascending
  due t ht := by
    show t.key.deadline ≤ s.timers.now.later now
    rw [Duration.le_def, Duration.nanos_later]
    exact Nat.le_trans (h.due t ht) (Nat.le_max_left _ _)
  numbered := h.numbered
  ahead := h.ahead

/-- What a step does to the queue: it only arms and cancels, and writes of no firing; or it sets the
clock; or it takes a timer. -/
theorem Step.leads_or {s r : Service κ} (h : Step s r) :
    (s.timers.Leads r.timers ∧ Adds (fun e => e.fired? = none) s r) ∨ (∃ now, r = s.setNow now) ∨
    ∃ limit horizon t timers, s.timers.popDue? limit horizon = some (t, timers) ∧
      r = s.taken t timers := by
  cases h with
  | own hmove =>
    exact .inl ⟨hmove.follows.timers, hmove.addsNoTurn.imp Entry.fired?_of_isTurn⟩
  | begun => exact .inl ⟨.refl _, [_], journal_log _ _, by simp [Entry.fired?]⟩
  | halted =>
    exact .inl ⟨TimerQueue.leads_cancelAll _, [_], journal_log _ _, by simp [Entry.fired?]⟩
  | accepted => exact .inl ⟨.refl _, adds_log s rfl⟩
  | deferred =>
    exact .inl ⟨(s.follows_defer _ _).timers,
      (s.stays_defer _ _).addsNoTurn.imp Entry.fired?_of_isTurn⟩
  | lapsed => exact .inl ⟨.refl _, adds_log s rfl⟩
  | @taken limit horizon t timers hpop => exact .inr (.inr ⟨limit, horizon, t, timers, hpop, rfl⟩)
  | @clocked now => exact .inr (.inl ⟨now, rfl⟩)
  | woke => exact .inl ⟨.refl _, adds_log s rfl⟩
  | drained => exact .inl ⟨.refl _, adds_log s rfl⟩

theorem Step.inOrder {s r : Service κ} (h : Step s r) (hs : s.InOrder) : r.InOrder := by
  rcases h.leads_or with ⟨hleads, hadds⟩ | ⟨now, rfl⟩ | ⟨_, _, _, _, hpop, rfl⟩
  · exact hs.leads hleads (hadds.filterMap_eq fun _ h => h)
  · exact hs.setNow now
  · exact hs.taken hpop

theorem Steps.inOrder {s r : Service κ} (h : Steps s r) (hs : s.InOrder) : r.InOrder := by
  induction h with
  | refl => exact hs
  | tail _ hstep ih => exact hstep.inOrder ih

theorem inOrder_create (machine : Machine κ) (options : Options κ) (channel : Nat) :
    (create machine options channel).InOrder := by
  have hcreated : (create machine options channel).firings = [] := rfl
  constructor <;> simp [hcreated]

theorem mem_firings {r : Service κ} {t : Timer} {clock : Duration}
    (h : .fired t clock ∈ r.journal) : t ∈ r.firings := List.mem_filterMap.2 ⟨_, h, rfl⟩

/-- A timer that has fired waits no longer. -/
theorem InOrder.not_mem_pending {r : Service κ} (h : r.InOrder) {t : Timer} {clock : Duration}
    (ht : .fired t clock ∈ r.journal) : t ∉ r.timers.pending := fun hin =>
  Key.not_before_self _ (h.ahead t (mem_firings ht) t hin)

/-- No timer fires twice. -/
theorem InOrder.not_mem_before {r : Service κ} (h : r.InOrder) {before after : List (Entry κ)}
    {t : Timer} {clock clock' : Duration} (hsplit : r.journal = before ++ .fired t clock :: after) :
    .fired t clock' ∉ before := by
  intro hin
  have hascending := h.ascending
  rw [firings, hsplit, List.filterMap_append] at hascending
  refine Key.not_before_self t.key ((List.pairwise_append.1 hascending).2.2 t ?_ t ?_)
  · exact List.mem_filterMap.2 ⟨_, hin, rfl⟩
  · simp [Entry.fired?]

/-- No step sets the clock back. -/
theorem Step.now_le {s r : Service κ} (h : Step s r) : s.now ≤ r.now := by
  have hlater (d : Duration) : s.now ≤ s.now.later d := by
    rw [Duration.le_def, Duration.nanos_later]
    exact Nat.le_max_left _ _
  rcases h.leads_or with ⟨hleads, _⟩ | ⟨now, rfl⟩ | ⟨_, _, t, timers, hpop, rfl⟩
  · exact Nat.le_of_eq (congrArg Duration.nanos hleads.now.symm)
  · exact hlater now
  · show s.now ≤ timers.now
    rw [(TimerQueue.popDue?_eq_some hpop).2.2.2.1]
    exact hlater t.key.deadline

theorem Steps.now_le {s r : Service κ} (h : Steps s r) : s.now ≤ r.now := by
  induction h with
  | refl => exact Nat.le_refl _
  | tail _ hstep ih => exact Nat.le_trans ih hstep.now_le

/-- A firing on the way from one service to another: the timer was the first that waited, and the
clock was set to its deadline unless it was past that already. -/
def FiredOnTheWay (s r : Service κ) (before : List (Entry κ)) (t : Timer) (clock : Duration) : Prop :=
  ∃ u limit horizon timers, Steps s u ∧ before = u.journal ∧
    u.timers.popDue? limit horizon = some (t, timers) ∧
    (u.taken t timers).now = clock ∧ clock.nanos = max u.now.nanos t.key.deadline.nanos ∧
    Steps (u.taken t timers) r

theorem Step.firedOnTheWay {s r : Service κ} (h : Step s r) {before rest : List (Entry κ)}
    {t : Timer} {clock : Duration} (hr : r.journal = s.journal ++ (before ++ .fired t clock :: rest)) :
    FiredOnTheWay s r (s.journal ++ before) t clock := by
  rcases h.leads_or with ⟨_, new, hnew, hquiet⟩ | ⟨now, rfl⟩ | ⟨limit, horizon, u, timers, hpop, rfl⟩
  · obtain rfl := List.append_cancel_left (hr.symm.trans hnew)
    have hnone := hquiet (.fired t clock) (by simp)
    cases hnone
  · have hsame : (s.setNow now).journal = s.journal := rfl
    simp [hsame] at hr
  · have htaken : (s.taken u timers).journal = s.journal ++ [.fired u timers.now] :=
      s.journal_withTimers _ _
    have hsplit := List.append_cancel_left (hr.symm.trans htaken)
    obtain ⟨rfl, hentry⟩ : before = [] ∧ Entry.fired t clock = .fired u timers.now := by
      cases before with
      | nil => exact ⟨rfl, (List.cons.inj hsplit).1⟩
      | cons e more => simp at hsplit
    obtain ⟨rfl, rfl⟩ := Entry.fired.inj hentry
    refine ⟨s, limit, horizon, timers, .refl, List.append_nil _, hpop, rfl, ?_, .refl⟩
    rw [(TimerQueue.popDue?_eq_some hpop).2.2.2.1, Duration.nanos_later]
    rfl

/-- What is true of all firings on the way from one service to another. -/
structure Orderly (s r : Service κ) : Prop where
  /-- The keys are strictly increasing, by deadline and among equal ones by number. -/
  ascending : r.firings.Pairwise (fun t u => t.key.Before u.key)
  /-- No timer fires twice. -/
  once : (r.firings.map (·.key)).Nodup
  each : ∀ before t clock after, r.journal = s.journal ++ (before ++ .fired t clock :: after) →
    FiredOnTheWay s r (s.journal ++ before) t clock ∧ t.key.deadline ≤ clock

theorem Steps.orderly {s r : Service κ} (h : Steps s r) (hs : s.InOrder) : Orderly s r := by
  have hr := Steps.inOrder h hs
  refine ⟨hr.ascending, ?_, ?_⟩
  · refine List.Pairwise.map _ ?_ hr.ascending
    intro t u hbefore heq
    rw [heq] at hbefore
    exact Key.not_before_self _ hbefore
  · intro before t clock after hjournal
    have hgrows (u v : Service κ) (hstep : Step u v) : Adds (fun _ => True) u v :=
      hstep.continues.journal
    obtain ⟨u, v, first, rest, hu, hstep, hv, hbefore, hwrote⟩ := exists_writer hgrows h hjournal
    obtain ⟨w, limit, horizon, timers, hw, hat, hpop, hnow, hclock, hreach⟩ :=
      hstep.firedOnTheWay hwrote
    refine ⟨⟨w, limit, horizon, timers, Relation.ReflTransGen.trans hu hw, hbefore.trans hat, hpop,
      hnow, hclock, Relation.ReflTransGen.trans hreach hv⟩, ?_⟩
    rw [Duration.le_def, hclock]
    exact Nat.le_max_right _ _

variable [BEq κ]

/-- In every session, whatever is started, stopped, sent, deferred and waited for in it, the keys of
the timers that fire are strictly increasing from one firing to the next, also from call to call: by
deadline, and among equal deadlines by the order of arming. So no timer fires twice. At each firing
the clock is set to the later of its reading and the deadline, and no operation sets it back. -/
theorem orderly_attend (machine : Machine κ) (options : Options κ) (channel : Nat)
    (calls : List (Call κ)) (b : Switchboard κ) :
    Orderly (create machine options channel)
      ((create machine options channel).attend calls b).1.service ∧
    ∀ (op : Operation) (s : Service κ), s.now ≤ (s.apply op).service.now := by
  rw [attend_fst]
  have hcreated : (create machine options channel).firings = [] := rfl
  have hinOrder : (create machine options channel).InOrder := by
    constructor <;> simp [hcreated]
  exact ⟨Steps.orderly (steps_run _ _) hinOrder, fun op s => Steps.now_le (s.steps_apply op)⟩

end Service
end TimedMachine
