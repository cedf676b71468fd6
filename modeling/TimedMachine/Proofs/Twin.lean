import TimedMachine.Proofs.Counterpart
import TimedMachine.Proofs.Draining
import TimedMachine.Proofs.Passes
import TimedMachine.Proofs.Shift

/-!
Two services side by side. From a moment in the life of each, the same operations are done to both;
their machines are counterparts and their clocks and counters may stand anywhere. As long as no sum
of times parts them, they stay twins: in the same status, on corresponding snapshots, with
corresponding timers, and what they write corresponds entry by entry (`ends_run_twins`).
-/
namespace TimedMachine

variable {κ : Type}

/-- What two services write corresponds: the same functions are asked and called on the same context
and event, and timers and clock readings are at the same distance from the moments. -/
inductive Entry.Alike (m : Matching κ) (f : Shift) : Entry κ → Entry κ → Prop
  | started {a b : Duration} (h : f.Times a b) : Alike m f (.started a) (.started b)
  | stopped : Alike m f .stopped .stopped
  | accepted {event : Event} : Alike m f (.accepted event) (.accepted event)
  | judged {guard : Guard κ} {s s' : Snapshot κ} {event : Event} (h : s.Alike m s') :
      Alike m f (.judged guard s event) (.judged guard s' event)
  | weighed {condition : Condition κ} {s s' : Snapshot κ} (h : s.Alike m s') :
      Alike m f (.weighed condition s) (.weighed condition s')
  | called {run : ActionFn κ} {context : Option κ} {event : Event} :
      Alike m f (.called run context event) (.called run context event)
  | unresolved {name : String} : Alike m f (.unresolved name) (.unresolved name)
  | armed {t u : Timer} (h : f.Timers t u) : Alike m f (.armed t) (.armed u)
  | cancelled {ts us : List Timer} (h : List.Forall₂ f.Timers ts us) :
      Alike m f (.cancelled ts) (.cancelled us)
  | fired {t u : Timer} {a b : Duration} (h : f.Timers t u) (hclock : f.Times a b) :
      Alike m f (.fired t a) (.fired u b)
  | lapsed {t u : Timer} {why : Lapse} (h : f.Timers t u) :
      Alike m f (.lapsed t why) (.lapsed u why)
  | astray {state target : String} : Alike m f (.astray state target) (.astray state target)
  | committed {source target event : String} {a b : Duration} (h : f.Times a b) :
      Alike m f (.committed ⟨source, target, event, a, ()⟩)
        (.committed ⟨source, target, event, b, ()⟩)
  | notified {s s' : Snapshot κ} (h : s.Alike m s') : Alike m f (.notified s) (.notified s')
  | woke {a b : Duration} (h : f.Times a b) : Alike m f (.woke a) (.woke b)
  | drained {a b : Duration} (h : f.Times a b) : Alike m f (.drained a) (.drained b)

namespace Service

/-- Two services as they are at the moments from which on they are compared. -/
structure Pairing (κ : Type) where
  matching : Matching κ
  first : Service κ
  second : Service κ

namespace Pairing

variable (p : Pairing κ)

def shift : Shift := ⟨p.first.now, p.second.now, p.first.timers.nextId, p.second.timers.nextId⟩

/-- The machines and options are counterparts. -/
abbrev Matched : Prop :=
  Counterpart p.matching p.first.machine p.first.options p.second.machine p.second.options

/-- What both have written so far corresponds. -/
def Journals (s s' : Service κ) : Prop :=
  ∃ es es', s.journal = p.first.journal ++ es ∧ s'.journal = p.second.journal ++ es' ∧
    List.Forall₂ (Entry.Alike p.matching p.shift) es es'

/-- Two services agree, as they are some time after the moments. -/
structure Twins (s s' : Service κ) : Prop where
  machine : s.machine = p.first.machine
  machine' : s'.machine = p.second.machine
  options : s.options = p.first.options
  options' : s'.options = p.second.options
  status : s'.status = s.status
  current : s.current.Alike p.matching s'.current
  timers : p.shift.Queues s.timers s'.timers
  journal : p.Journals s s'

/-- Two services have come out as twins, or a sum of times exists for one of them only. -/
inductive Ends : Outcome κ → Outcome κ → Prop
  | completed {s s' : Service κ} (h : p.Twins s s') : Ends (.completed s) (.completed s')
  | overflowed {s s' : Service κ} (h : p.Twins s s') : Ends (.overflowed s) (.overflowed s')
  | parted {o o' : Outcome κ} (hmoved : p.shift.Moved)
      (hcut : (∃ s, o = .overflowed s) ∨ ∃ s, o' = .overflowed s) : Ends o o'

variable {p} {s s' : Service κ}

theorem Ends.andThen {o o' : Outcome κ} {next next' : Service κ → Outcome κ} (h : p.Ends o o')
    (k : ∀ r r', o = .completed r → p.Twins r r' → p.Ends (next r) (next' r')) :
    p.Ends (o.andThen next) (o'.andThen next') := by
  cases h with
  | completed h => exact k _ _ rfl h
  | overflowed h => exact .overflowed h
  | parted hmoved hcut =>
    refine .parted hmoved (hcut.imp ?_ ?_)
    · rintro ⟨r, rfl⟩
      exact ⟨r, rfl⟩
    · rintro ⟨r, rfl⟩
      exact ⟨r, rfl⟩

theorem Journals.push (h : p.Journals s s') {e e' : Entry κ}
    (he : Entry.Alike p.matching p.shift e e') {r r' : Service κ}
    (hr : r.journal = s.journal ++ [e]) (hr' : r'.journal = s'.journal ++ [e']) :
    p.Journals r r' := by
  obtain ⟨es, es', hs, hs', hes⟩ := h
  refine ⟨es ++ [e], es' ++ [e'], ?_, ?_, List.rel_append hes (.cons he .nil)⟩
  · rw [hr, hs, List.append_assoc]
  · rw [hr', hs', List.append_assoc]

/-- A change of the queue with its entry. -/
theorem Twins.withTimers (h : p.Twins s s') {timers timers' : TimerQueue}
    (htimers : p.shift.Queues timers timers') {e e' : Entry κ}
    (he : Entry.Alike p.matching p.shift e e') :
    p.Twins (s.withTimers timers e) (s'.withTimers timers' e') :=
  { h with
    timers := htimers
    journal := h.journal.push he (s.journal_withTimers _ _) (s'.journal_withTimers _ _) }

theorem Twins.log (h : p.Twins s s') {e e' : Entry κ}
    (he : Entry.Alike p.matching p.shift e e') : p.Twins (s.log e) (s'.log e') :=
  h.withTimers h.timers he

theorem Twins.withCurrent (h : p.Twins s s') {next next' : Snapshot κ}
    (hnext : next.Alike p.matching next') : p.Twins (s.withCurrent next) (s'.withCurrent next') :=
  { h with current := hnext }

theorem Twins.withStatus (h : p.Twins s s') (status : Status) :
    p.Twins { s with status } { s' with status } :=
  { h with status := rfl }

theorem Twins.setNow (h : p.Twins s s') {a b : Duration} (hnow : p.shift.Times a b) :
    p.Twins (s.setNow a) (s'.setNow b) :=
  { h with timers := h.timers.setNow hnow }

theorem Twins.now (h : p.Twins s s') : p.shift.Times s.now s'.now := h.timers.now

theorem Twins.isRunning_eq (h : p.Twins s s') : s'.isRunning = s.isRunning := by
  rw [Service.isRunning, Service.isRunning, h.status]

theorem Twins.cancelDelayed (h : p.Twins s s') : p.Twins s.cancelDelayed s'.cancelDelayed := by
  refine h.withTimers h.timers.cancelDelayed (.cancelled ?_)
  refine List.rel_filter (fun t u (htu : p.shift.Timers t u) => ?_) h.timers.pending
  simp only [htu.task]

theorem Twins.cancelDeferred (h : p.Twins s s') : p.Twins s.cancelDeferred s'.cancelDeferred := by
  refine h.withTimers h.timers.cancelDeferred (.cancelled ?_)
  refine List.rel_filter (fun t u (htu : p.shift.Timers t u) => ?_) h.timers.pending
  simp only [decide_eq_true_eq]
  have hdeferred := h.timers.deferred
  generalize s.timers.deferred = x at hdeferred ⊢
  generalize s'.timers.deferred = y at hdeferred ⊢
  cases hdeferred with
  | none => simp
  | some hkey => simpa using hkey.eq_iff htu.key

/-- Two parts that begin with a sum of times end alike if they go on alike. -/
theorem Ends.of_sums {α β : Type} {q : α → β → Prop} {x : Option α} {y : Option β}
    {o o' : Outcome κ} (hsums : p.shift.Sums q x y) (h : p.Twins s s')
    (hnone : x = none → o = .overflowed s) (hnone' : y = none → o' = .overflowed s')
    (hboth : ∀ a b, x = some a → y = some b → q a b → p.Ends o o') : p.Ends o o' := by
  cases hsums with
  | both hab => exact hboth _ _ rfl rfl hab
  | neither =>
    rw [hnone rfl, hnone' rfl]
    exact .overflowed h
  | parted hmoved hcut =>
    exact .parted hmoved (hcut.imp (fun hx => ⟨s, hnone hx⟩) fun hy => ⟨s', hnone' hy⟩)

theorem ends_arm (h : p.Twins s s') (delay : Duration) (task : Task) :
    p.Ends (s.arm delay task) (s'.arm delay task) := by
  unfold arm
  refine .of_sums (h.timers.arm? delay task) h (fun hq => by simp only [hq])
    (fun hr => by simp only [hr]) ?_
  rintro ⟨t, q⟩ ⟨u, r⟩ hq hr ⟨htu, hqr⟩
  simp only [hq, hr]
  exact .completed (h.withTimers hqr (.armed htu))

theorem ends_defer (h : p.Twins s s') (event : Event) (delay : Duration) :
    p.Ends (s.defer event delay) (s'.defer event delay) := by
  have hcleared := h.cancelDeferred
  unfold defer
  refine .of_sums (h.timers.defer? event delay) hcleared (fun hq => by simp only [hq])
    (fun hr => by simp only [hr]) ?_
  rintro ⟨t, q⟩ ⟨u, r⟩ hq hr ⟨htu, hqr⟩
  simp only [hq, hr]
  exact .completed (hcleared.withTimers hqr (.armed htu))

theorem ends_armEach {ds ds' : List (Delayed κ)}
    (hds : List.Forall₂ (Delayed.Alike p.matching) ds ds') (state : String) (index : Nat)
    {s s' : Service κ} (h : p.Twins s s') :
    p.Ends (armEach state index ds s) (armEach state index ds' s') := by
  induction hds generalizing index s s' with
  | nil => exact .completed h
  | cons hd _ ih =>
    rw [armEach, armEach, hd.delay]
    exact (ends_arm h _ _).andThen fun r r' _ hr => ih (index + 1) hr

theorem ends_armDelayed (hp : p.Matched) (h : p.Twins s s') :
    p.Ends s.armDelayed s'.armDelayed := by
  unfold armDelayed
  rw [h.machine, h.machine', h.current.value]
  exact ends_armEach (hp.after _) _ 0 h

theorem Twins.assign (h : p.Twins s s') (update : κ → κ) :
    p.Twins (s.assign update) (s'.assign update) := by
  unfold Service.assign
  rw [h.current.context]
  split
  · exact h
  · exact h.withCurrent ⟨h.current.value, rfl, h.current.actions, h.current.changed⟩

theorem ends_perform (h : p.Twins s s') (run : ActionFn κ) (event : Event) :
    p.Ends (s.perform run event) (s'.perform run event) := by
  unfold perform
  rw [h.current.context]
  have hcalled : p.Twins (s.log (.called run s.current.context event))
      (s'.log (.called run s.current.context event)) := h.log .called
  dsimp only
  split
  · exact .completed hcalled
  · exact .completed (hcalled.assign _)
  · exact ends_defer hcalled _ _

theorem ends_execute (hp : p.Matched) (event : Event) {actions actions' : List (Action κ)}
    (hactions : List.Forall₂ p.matching actions actions') {s s' : Service κ} (h : p.Twins s s') :
    p.Ends (execute event actions s) (execute event actions' s') := by
  induction hactions generalizing s s' with
  | nil => exact .completed h
  | @cons x x' _ _ hx _ ih =>
    rw [execute, execute, h.options, h.options', hp.resolve x x' hx]
    cases hrun : p.first.options.resolve x with
    | none =>
      simp only [hp.unresolved x x' hx hrun]
      exact ih (h.log .unresolved)
    | some run => exact (ends_perform h run event).andThen fun r r' _ hr => ih hr

theorem Twins.notify (h : p.Twins s s') : p.Twins s.notify s'.notify := h.log (.notified h.current)

theorem Twins.arrive (h : p.Twins s s') (target : String) {actions actions' : List (Action κ)}
    (hactions : List.Forall₂ p.matching actions actions') (event : Event) :
    p.Twins (s.arrive target actions event) (s'.arrive target actions' event) := by
  refine { h with
    current := ⟨rfl, h.current.context, hactions, rfl⟩
    journal := h.journal.push ?_ (s.journal_arrive _ _ _) (s'.journal_arrive _ _ _) }
  rw [h.current.value]
  exact .committed h.now

theorem ends_commit (hp : p.Matched) (h : p.Twins s s') (target : String)
    {actions actions' : List (Action κ)} (hactions : List.Forall₂ p.matching actions actions')
    (event : Event) :
    p.Ends (s.commit target actions event) (s'.commit target actions' event) := by
  unfold commit
  rw [h.machine, h.machine', h.current.value]
  refine (ends_execute hp event (hp.exit _) h.cancelDelayed).andThen fun r r' _ hr => ?_
  rw [hr.machine, hr.machine']
  refine (ends_execute hp event (hp.entry _) (hr.arrive target hactions event)).andThen
    fun u u' _ hu => ?_
  refine (ends_execute hp event hu.current.actions hu).andThen fun v v' _ hv => ?_
  exact ends_armDelayed hp hv.notify

theorem Twins.weigh (h : p.Twins s s') {ts ts' : List (Eventless κ)}
    (hts : List.Forall₂ (Eventless.Alike p.matching) ts ts') :
    p.Twins (s.weigh ts) (s'.weigh ts') := by
  unfold Service.weigh
  rw [consulted_alike hts h.current]
  have hcurrent := h.current
  generalize s.current = snapshot at hcurrent ⊢
  generalize s'.current = snapshot' at hcurrent ⊢
  generalize consulted snapshot ts = conditions
  induction conditions generalizing s s' with
  | nil => exact h
  | cons condition rest ih => exact ih (h.log (.weighed hcurrent))

theorem ends_round (hp : p.Matched) (h : p.Twins s s') {next next' : Service κ → Outcome κ}
    (k : ∀ r r', r.machine = s.machine → p.Twins r r' → p.Ends (next r) (next' r')) :
    p.Ends (roundThen next s) (roundThen next' s') := by
  have halways : List.Forall₂ (Eventless.Alike p.matching) (s.machine.alwaysOf s.current.value)
      (s'.machine.alwaysOf s'.current.value) := by
    rw [h.machine, h.machine', h.current.value]
    exact hp.always _
  have hweighed := h.weigh halways
  have hfirst := find?_alike halways h.current
  unfold roundThen
  generalize (s.machine.alwaysOf s.current.value).find? (·.enabled s.current) = x at hfirst ⊢
  generalize (s'.machine.alwaysOf s'.current.value).find? (·.enabled s'.current) = y at hfirst ⊢
  cases hfirst with
  | none => exact .completed hweighed
  | @some t t' ht =>
    have hdeclares : s'.machine.declares t'.target = s.machine.declares t.target := by
      rw [h.machine, h.machine', hp.declares, ht.target]
    rw [h.current.value] at hweighed
    dsimp only
    rw [hdeclares, ht.target, h.current.value]
    split
    · refine (ends_commit hp hweighed t.target ht.actions _).andThen fun r r' hr htwins => ?_
      have hf := follows_commit t.target t.actions (.always s.current.value)
        (s.weigh (s.machine.alwaysOf s.current.value))
      rw [hr] at hf
      exact k r r' (hf.machine.trans (follows_weigh _ s).machine) htwins
    · exact .completed (hweighed.log .astray)

theorem ends_settle (hp : p.Matched) (visited : List String) {s s' : Service κ}
    (h : p.Twins s s') : p.Ends (settle visited s) (settle visited s') := by
  -- The induction is on the declared states that the pass has not left yet.
  induction hn : unvisited s.machine visited using Nat.strong_induction_on
    generalizing visited s s' with
  | _ n ih =>
    have hempty : s'.machine.alwaysOf s.current.value = [] ↔
        s.machine.alwaysOf s.current.value = [] := by
      rw [h.machine, h.machine', ← List.length_eq_zero_iff, ← List.length_eq_zero_iff,
        (hp.always _).length_eq]
    rw [settle_eq, settle_eq, h.current.value]
    simp only [hempty]
    by_cases hnone : s.machine.alwaysOf s.current.value = []
    · rw [if_pos hnone, if_pos hnone]
      exact .completed h
    rw [if_neg hnone, if_neg hnone]
    by_cases hleft : s.current.value ∈ visited
    · rw [if_pos hleft, if_pos hleft]
      exact .completed h
    rw [if_neg hleft, if_neg hleft]
    refine ends_round hp h fun r r' hmachine hr => ?_
    refine ih _ ?_ (s.current.value :: visited) hr rfl
    rw [← hn, hmachine]
    exact countP_not_mem_cons_lt (Machine.declares_of_alwaysOf_ne_nil hnone) hleft

theorem ends_resolve (hp : p.Matched) (h : p.Twins s s') : p.Ends s.resolve s'.resolve :=
  ends_settle hp [] h

theorem Twins.judge (h : p.Twins s s') {c c' : Candidate κ} (hc : c.Alike p.matching c')
    (event : Event) : p.Twins (s.judge c event) (s'.judge c' event) := by
  unfold Service.judge
  rw [hc.guard]
  split
  · exact h
  · exact h.log (.judged h.current)

theorem Twins.taken (h : p.Twins s s') {t u : Timer} {q r : TimerQueue}
    (hpairs : p.shift.Pairs (t, q) (u, r)) : p.Twins (s.taken t q) (s'.taken u r) :=
  h.withTimers hpairs.2 (.fired hpairs.1 hpairs.2.now)

section

variable [BEq κ]

theorem ends_stay (hp : p.Matched) (h : p.Twins s s') {next next' : Snapshot κ}
    (hnext : next.Alike p.matching next') (event : Event) :
    p.Ends (s.stay next event) (s'.stay next' event) := by
  unfold stay
  refine (ends_execute hp event hnext.actions (h.withCurrent hnext)).andThen fun r r' _ hr => ?_
  rw [h.current.context, hr.current.context]
  split
  · exact .completed hr
  · have hchanged : p.Twins (r.withCurrent { r.current with changed := true })
        (r'.withCurrent { r'.current with changed := true }) :=
      hr.withCurrent ⟨hr.current.value, hr.current.context, hr.current.actions, rfl⟩
    exact .completed hchanged.notify

theorem ends_proceed (hp : p.Matched) (h : p.Twins s s') {next next' : Snapshot κ}
    (hnext : next.Alike p.matching next') (event : Event) :
    p.Ends (s.proceed next event) (s'.proceed next' event) := by
  unfold proceed
  rw [hnext.changed, hnext.value]
  split
  · exact (ends_commit hp h next.value hnext.actions event).andThen fun r r' _ hr =>
      ends_resolve hp hr
  · exact ends_stay hp h hnext event

theorem ends_deliver (hp : p.Matched) (h : p.Twins s s') (event : Event) :
    p.Ends (s.deliver event) (s'.deliver event) := by
  have hcleared := h.cancelDeferred
  have hcandidate := hp.candidate _ _ hcleared.current event
  unfold deliver
  dsimp only
  rw [hcleared.machine, hcleared.machine']
  generalize p.first.machine.candidate? s.cancelDeferred.current event = x at hcandidate ⊢
  generalize p.second.machine.candidate? s'.cancelDeferred.current event = y at hcandidate ⊢
  cases hcandidate with
  | none => exact .completed hcleared
  | some hc =>
    dsimp only
    rw [hc.verdict_eq hcleared.current]
    split
    · exact ends_proceed hp (hcleared.judge hc event) hc.next event
    · exact .completed (hcleared.judge hc event)

theorem ends_fire (hp : p.Matched) (h : p.Twins s s') {t u : Timer} (htu : p.shift.Timers t u) :
    p.Ends (s.fire t) (s'.fire u) := by
  unfold fire
  rw [htu.task, h.isRunning_eq]
  cases t.task with
  | deferred event =>
    dsimp only
    split
    · exact ends_deliver hp h event
    · exact .completed h
  | delayed state index =>
    have hafter := getElem?_alike (hp.after state) index
    dsimp only
    rw [h.current.value, h.machine, h.machine']
    split
    · exact .completed (h.log (.lapsed htu))
    · generalize (p.first.machine.afterOf state)[index]? = x at hafter ⊢
      generalize (p.second.machine.afterOf state)[index]? = y at hafter ⊢
      cases hafter with
      | none => exact .completed (h.log (.lapsed htu))
      | @some d d' hd =>
        dsimp only
        rw [hd.target, hp.declares, hd.delay]
        split
        · exact .completed (h.log (.lapsed htu))
        · split
          · exact (ends_commit hp h d.target hd.actions _).andThen fun r r' _ hr =>
              ends_resolve hp hr
          · exact .completed (h.log (.lapsed htu))

variable {a b : Duration}

/-- Two drains take corresponding timers. -/
theorem ends_drain (hp : p.Matched) (hlimit : p.shift.Times a b) {m n : Nat}
    (hhorizon : p.shift.Numbers m n) {s s' : Service κ} (h : p.Twins s s')
    (hm : m ≤ s.timers.nextId) (hn : n ≤ s'.timers.nextId) :
    p.Ends (drain a m s hm) (drain b n s' hn) := by
  induction hmeasure : s.timers.measure a m using wellFounded_smaller.induction
    generalizing s s' with
  | _ size ih =>
    have hpopped := h.timers.popDue? hlimit hhorizon
    rw [drain_eq, drain_eq]
    cases hpop : s.timers.popDue? a m with
    | none =>
      rw [hpop] at hpopped
      generalize s'.timers.popDue? b n = y at hpopped ⊢
      cases hpopped
      exact .completed h
    | some x =>
      rw [hpop] at hpopped
      generalize s'.timers.popDue? b n = y at hpopped ⊢
      obtain ⟨t, q⟩ := x
      cases hpopped with
      | @some _ y hpairs =>
        refine (ends_fire hp (h.taken hpairs) hpairs.1).andThen fun r r' hr htwins => ?_
        have hturn : Turn a m s r := ⟨t, q, hpop, hr⟩
        obtain ⟨hpast, hsmaller⟩ := hturn.smaller hm
        have hpast' : n ≤ r'.timers.nextId := by
          have hnumber := htwins.timers.nextId
          simp only [Shift.Numbers] at hhorizon hnumber
          omega
        rw [dif_pos hpast, dif_pos hpast']
        exact ih _ (hmeasure ▸ hsmaller) htwins hpast hpast' rfl

theorem ends_advance (hp : p.Matched) (h : p.Twins s s') (time : Duration) :
    p.Ends (s.advance time) (s'.advance time) := by
  unfold advance
  refine .of_sums (h.now.add? time) h (fun ha => by simp only [ha]) (fun hb => by simp only [hb]) ?_
  intro a b ha hb hlimit
  simp only [ha, hb]
  exact (ends_drain hp hlimit h.timers.nextId h _ _).andThen fun r r' _ hr =>
    .completed (hr.setNow hlimit)

/-- A timed run stops where its twin does. -/
theorem ends_of_rests (hlimit : p.shift.Times a b) {last last' : Option Duration} {o : Outcome κ}
    (h : p.Twins s s') (hs : Sleeps b last' s' o) (hlast : Option.Rel p.shift.Times last last')
    (hnot : ∀ c, s.timers.nextDeadline = some c → c ≤ a → last = some c) :
    p.Ends (.completed s) o := by
  rw [hs.rests]
  · exact .completed h
  · intro d hd hle
    have hnext := h.timers.nextDeadline
    rw [hd] at hnext
    generalize hfirst : s.timers.nextDeadline = x at hnext
    cases hnext with
    | @some c _ hcd =>
      rw [hnot c hfirst ((hcd.le_iff hlimit).2 hle)] at hlast
      cases hlast with
      | some hcd' => rw [(hcd.eq_iff hcd').1 rfl]

/-- A timed run goes on where its twin does, and both advance by the same time. -/
theorem exists_advance_of_goesOn (hp : p.Matched) (hlimit : p.shift.Times a b)
    {last last' : Option Duration} {o : Outcome κ} {c : Duration} (h : p.Twins s s')
    (hs : Sleeps b last' s' o) (hlast : Option.Rel p.shift.Times last last')
    (hc : s.timers.nextDeadline = some c) (hle : c ≤ a) (hne : last ≠ some c) :
    ∃ d time next, p.shift.Times c d ∧ c.minus s.now = time ∧
      p.Ends ((s.log (.woke c)).advance time) ((s'.log (.woke d)).advance time) ∧
      o = ((s'.log (.woke d)).advance time).andThen next ∧
      ∀ r, (s'.log (.woke d)).advance time = .completed r →
        Sleeps b (some d) (r.log (.drained r.now)) (next r) := by
  have hnext := h.timers.nextDeadline
  rw [hc] at hnext
  generalize hsecond : s'.timers.nextDeadline = y at hnext
  cases hnext with
  | @some _ d hcd =>
    have hne' : last' ≠ some d := by
      rintro rfl
      cases hlast with
      | some hcd' => exact hne (by rw [(hcd.eq_iff hcd').2 rfl])
    obtain ⟨next, ho, hrest⟩ := hs.goesOn hsecond ((hcd.le_iff hlimit).1 hle) hne'
    rw [hcd.minus h.now] at ho hrest
    exact ⟨d, _, next, hcd, rfl, ends_advance hp (h.log (.woke hcd)) _, ho, hrest⟩

/-- Two timed runs wake at corresponding deadlines. -/
theorem ends_of_sleeps (hp : p.Matched) (hlimit : p.shift.Times a b) {last last' : Option Duration}
    {s s' : Service κ} {o o' : Outcome κ} (hs : Sleeps a last s o) (hs' : Sleeps b last' s' o')
    (h : p.Twins s s') (hlast : Option.Rel p.shift.Times last last') : p.Ends o o' := by
  induction hs generalizing last' s' o' with
  | idle hnext => exact ends_of_rests hlimit h hs' hlast fun c hc => by simp [hnext] at hc
  | late hnext hlate =>
    refine ends_of_rests hlimit h hs' hlast fun c hc hle => ?_
    obtain rfl := Option.some.inj (hnext.symm.trans hc)
    exact absurd hle hlate
  | held hnext => exact ends_of_rests hlimit h hs' hlast fun c hc _ => hnext.symm.trans hc
  | @cut _ _ r _ hnext hle hne hrun =>
    obtain ⟨d, _, next, _, rfl, hadvance, rfl, _⟩ :=
      exists_advance_of_goesOn hp hlimit h hs' hlast hnext hle hne
    rw [hrun] at hadvance
    show p.Ends ((Outcome.overflowed r).andThen fun u => .completed u) _
    exact hadvance.andThen fun u u' hu => by cases hu
  | turn hnext hle hne hrun _ ih =>
    obtain ⟨d, _, next, hcd, rfl, hadvance, rfl, hrest⟩ :=
      exists_advance_of_goesOn hp hlimit h hs' hlast hnext hle hne
    rw [hrun] at hadvance
    generalize hrun' : (s'.log (.woke d)).advance _ = x at hadvance ⊢
    cases hadvance with
    | completed hr => exact ih (hrest _ hrun') (hr.log (.drained hr.now)) (.some hcd)
    | parted hmoved hcut =>
      refine .parted hmoved (.inr ?_)
      obtain ⟨u, hu⟩ | ⟨u, rfl⟩ := hcut
      · cases hu
      · exact ⟨u, rfl⟩

theorem ends_runFor (hp : p.Matched) (h : p.Twins s s') (time : Duration) :
    p.Ends (s.runFor time) (s'.runFor time) := by
  unfold runFor
  refine .of_sums (h.now.add? time) h (fun ha => by simp only [ha]) (fun hb => by simp only [hb]) ?_
  intro a b ha hb hlimit
  simp only [ha, hb]
  have hslept := ends_of_sleeps hp hlimit (sleeps_sleep a none s (by simp))
    (sleeps_sleep b none s' (by simp)) h .none
  refine hslept.andThen fun r r' _ hr => ?_
  rw [hlimit.minus hr.now]
  exact ends_advance hp hr _

end

theorem Twins.begun (h : p.Twins s s') :
    p.Twins ({ s with status := .running }.log (.started s.now))
      ({ s' with status := .running }.log (.started s'.now)) :=
  (h.withStatus .running).log (.started h.now)

theorem ends_start (hp : p.Matched) (h : p.Twins s s') : p.Ends s.start s'.start := by
  have hbegun := h.begun
  unfold start
  rw [h.isRunning_eq]
  split
  · exact .completed h
  · dsimp only
    rw [hbegun.machine, hbegun.machine', hbegun.current.value]
    refine (ends_execute hp .start (hp.entry _) hbegun).andThen fun r r' _ hr => ?_
    exact (ends_armDelayed hp hr).andThen fun u u' _ hu => ends_resolve hp hu

theorem Twins.stop (h : p.Twins s s') : p.Twins s.stop s'.stop := by
  unfold Service.stop
  rw [h.isRunning_eq]
  split
  · have hcleared : p.Twins { s with status := .stopped, timers := s.timers.cancelAll }
        { s' with status := .stopped, timers := s'.timers.cancelAll } :=
      { h with status := rfl, timers := h.timers.cancelAll }
    exact hcleared.log .stopped
  · exact h

theorem ends_sendAfter (h : p.Twins s s') (event : Event) (delay : Duration) :
    p.Ends (s.sendAfter event delay) (s'.sendAfter event delay) := by
  unfold sendAfter
  rw [h.isRunning_eq]
  split
  · exact ends_defer h event delay
  · exact .completed h

variable [BEq κ]

theorem ends_send (hp : p.Matched) (h : p.Twins s s') (event : Event) :
    p.Ends (s.send event) (s'.send event) := by
  unfold send
  rw [h.isRunning_eq]
  split
  · exact ends_deliver hp (h.log .accepted) event
  · exact .completed h

theorem ends_apply (hp : p.Matched) (h : p.Twins s s') (op : Operation) :
    p.Ends (s.apply op) (s'.apply op) := by
  cases op with
  | start => exact ends_start hp h
  | stop => exact .completed h.stop
  | send event => exact ends_send hp h event
  | sendAfter event delay => exact ends_sendAfter h event delay
  | advance time => exact ends_advance hp h time
  | runFor time => exact ends_runFor hp h time

/-- Twins stay twins through every run of operations, as long as no sum of times parts them. -/
theorem ends_run_twins (hp : p.Matched) (ops : List Operation) {s s' : Service κ}
    (h : p.Twins s s') : p.Ends (run ops s) (run ops s') := by
  induction ops generalizing s s' with
  | nil => exact .completed h
  | cons op rest ih => exact (ends_apply hp h op).andThen fun r r' _ hr => ih hr

end Pairing
end Service
end TimedMachine
