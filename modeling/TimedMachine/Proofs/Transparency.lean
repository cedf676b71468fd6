import TimedMachine.Proofs.Level
import TimedMachine.Proofs.Notification
import TimedMachine.Proofs.Passes
import TimedMachine.Proofs.Spelling

/-!
Names of actions are transparent. A service whose machine is written with other actions for the same
functions stays, through every run, what the service with the machine as it was is, written with
these actions (`run_respell`): only the actions that are pending in snapshots are others. What is
heard is the same up to this, if the listeners too are blind to which actions are pending
(`relay_respell`); a listener that looks at the names may end other subscriptions
(`calledAt_turnstile`).
-/
namespace TimedMachine

variable {κ : Type}

section Respell

variable (f : Action κ → Action κ)

def Entry.respell : Entry κ → Entry κ
  | .judged guard snapshot event => .judged guard (snapshot.respell f) event
  | .weighed condition snapshot => .weighed condition (snapshot.respell f)
  | .notified snapshot => .notified (snapshot.respell f)
  | e => e

def Line.respell : Line κ → Line κ
  | .note n => .note n
  | .heard listener snapshot => .heard listener (snapshot.respell f)

/-- The service with other actions in its machine, in its snapshot and in the snapshots that its journal
shows; its status, clock, timers and history are the same. -/
def Service.respell (s : Service κ) : Service κ :=
  { s with
    machine := s.machine.respell f
    current := s.current.respell f
    written := s.written.map (Entry.respell f) }

def Outcome.respell : Outcome κ → Outcome κ
  | .completed s => .completed (s.respell f)
  | .overflowed s => .overflowed (s.respell f)

end Respell

variable {f : Action κ → Action κ}

theorem Entry.record?_respell (e : Entry κ) : (e.respell f).record? = e.record? := by
  cases e <;> rfl

/-- Where the moments are the same, corresponding entries differ in the actions only. -/
theorem Entry.Alike.eq_respell {moments : Shift} (hstill : moments.Still) {e e' : Entry κ}
    (h : e.Alike (Respells f) moments e') : e' = e.respell f := by
  cases h with
  | started h => rw [hstill.times_eq h]; rfl
  | judged h => rw [h.eq_respell]; rfl
  | weighed h => rw [h.eq_respell]; rfl
  | armed h => rw [hstill.timers_eq h]; rfl
  | cancelled h => rw [hstill.timersList_eq h]; rfl
  | fired h hclock => rw [hstill.timers_eq h, hstill.times_eq hclock]; rfl
  | lapsed h => rw [hstill.timers_eq h]; rfl
  | committed h => rw [hstill.times_eq h]; rfl
  | notified h => rw [h.eq_respell]; rfl
  | woke h => rw [hstill.times_eq h]; rfl
  | drained h => rw [hstill.times_eq h]; rfl
  | _ => rfl

/-- The guard or the condition that was asked is blind. -/
def Entry.Blind : Entry κ → Prop
  | .judged guard _ _ => guard.Blind
  | .weighed condition _ => condition.Blind
  | _ => True

theorem Entry.blind_of_isWork (e : Entry κ) (h : e.isWork = true) : e.Blind := by
  cases e <;> simp [isWork, Blind] at *

/-- Blind functions take the same notes. -/
theorem Entry.Blind.notes_respell {e : Entry κ} (h : e.Blind) : (e.respell f).notes = e.notes := by
  cases e with
  | judged guard snapshot event =>
    exact congrArg Verdict.notes (h _ _ snapshot.alike_respell.sameOutline event)
  | weighed condition snapshot =>
    exact congrArg Verdict.notes (h _ _ snapshot.alike_respell.sameOutline)
  | _ => rfl

/-- Calls of one listener, with snapshots that differ at most in which actions are pending. -/
structure Heard.SameOutline (h h' : Heard κ) : Prop where
  listener : h'.listener = h.listener
  snapshot : h.snapshot.SameOutline h'.snapshot

/-- The listener looks at no more of the pending actions than how many there are, neither when it is
called nor in what it remembers. -/
def Listener.Blind (l : Listener κ) : Prop :=
  ∀ calls calls' : List (Heard κ), List.Forall₂ Heard.SameOutline calls calls' →
    ∀ s s' : Snapshot κ, s.SameOutline s' →
      ∀ handles, l.ends calls' s' handles = l.ends calls s handles

namespace Service

theorem journal_respell (s : Service κ) : (s.respell f).journal = s.journal.map (Entry.respell f) :=
  s.written.toList_map _

theorem create_respell (machine : Machine κ) (options : Options κ) (channel : Nat) :
    create (machine.respell f) options channel = (create machine options channel).respell f := by
  have hvalue : (machine.respell f).initialValue = machine.initialValue := by
    unfold Machine.initialValue
    rw [show (machine.respell f).states.keys = machine.states.keys from Table.keys_map _ _]
    rfl
  refine eq_of_parts rfl rfl rfl rfl ?_ rfl rfl rfl
  show (machine.respell f).initialSnapshot = machine.initialSnapshot.respell f
  rw [Machine.initialSnapshot, hvalue]
  rfl

/-- Which guards and conditions are asked is up to the machine. -/
theorem Move.addsBlind {s r : Service κ} (hm : s.machine.Blind) (h : Move s r) :
    Adds Entry.Blind s r := by
  cases h with
  | judged hnode hhandler hguard => exact adds_log s (hm.guardOf hnode hhandler hguard)
  | weighed ht hcondition => exact adds_log s (hm.condition _ _ ht _ hcondition)
  | skipped => exact adds_log s trivial
  | called => exact (s.stays_perform _ _).entries.imp Entry.blind_of_isWork
  | astray => exact adds_log s trivial
  | notified => exact adds_log s trivial
  | left => exact adds_log s trivial
  | cleared => exact s.stays_cancelDeferred.entries.imp Entry.blind_of_isWork
  | @armed index d hd =>
    exact (s.arming_arm d.delay s.current.value index).entries.imp Entry.blind_of_isWork
  | arrived => exact ⟨[.committed _], s.journal_arrive _ _ _, by simp [Entry.Blind]⟩
  | revisited => exact adds_of_journal_eq _ rfl
  | changed => exact adds_of_journal_eq _ rfl

theorem Step.addsBlind {s r : Service κ} (hm : s.machine.Blind) (h : Step s r) :
    Adds Entry.Blind s r := by
  cases h with
  | own hmove => exact hmove.addsBlind hm
  | begun => exact ⟨[_], journal_log _ _, by simp [Entry.Blind]⟩
  | halted => exact ⟨[_], journal_log _ _, by simp [Entry.Blind]⟩
  | accepted => exact adds_log s trivial
  | deferred => exact (s.stays_defer _ _).entries.imp Entry.blind_of_isWork
  | lapsed => exact adds_log s trivial
  | taken => exact adds_log s trivial
  | clocked => exact adds_of_journal_eq _ rfl
  | woke => exact adds_log s trivial
  | drained => exact adds_log s trivial

theorem Steps.addsBlind {s r : Service κ} (hm : s.machine.Blind) (h : Steps s r) :
    Adds Entry.Blind s r := by
  induction h with
  | refl => exact .refl _ s
  | tail hsteps hstep ih =>
    have hmachine := (Steps.continues hsteps).machine
    exact ih.trans (hstep.addsBlind (hmachine ▸ hm))

/-- The moment from which on a service and the one with other actions are compared. -/
abbrev respelling (f : Action κ → Action κ) (s : Service κ) : Pairing κ :=
  ⟨Respells f, s, s.respell f⟩

theorem still_respelling (s : Service κ) : (respelling f s).shift.Still := ⟨rfl, rfl⟩

theorem twins_respelling (s : Service κ) : (respelling f s).Twins s (s.respell f) where
  machine := rfl
  machine' := rfl
  options := rfl
  options' := rfl
  status := rfl
  current := s.current.alike_respell
  timers := s.still_respelling.queues_self s.timers
  journal := ⟨[], [], (List.append_nil _).symm, (List.append_nil _).symm, .nil⟩

/-- Twins that started out as one service with other actions are so still. -/
theorem Pairing.Twins.eq_respell {s r r' : Service κ} (h : (respelling f s).Twins r r')
    (hsteps : Steps s r) (hsteps' : Steps (s.respell f) r') : r' = r.respell f := by
  have hstill := s.still_respelling (f := f)
  have hsame := Steps.continues hsteps
  have hsame' := Steps.continues hsteps'
  obtain ⟨es, es', hr, hr', halike⟩ := h.journal
  obtain rfl : es' = es.map (Entry.respell f) :=
    eq_map_of_forall₂ (fun _ _ he => he.eq_respell hstill) halike
  refine eq_of_parts ?_ ?_ ?_ h.status h.current.eq_respell (hstill.queues_eq h.timers) ?_ ?_
  · rw [hsame'.machine]
    show s.machine.respell f = r.machine.respell f
    rw [hsame.machine]
  · exact hsame'.options.trans hsame.options.symm
  · exact hsame'.channel.trans hsame.channel.symm
  · obtain ⟨new, hnew, hhistory⟩ := hsteps.keeps
    obtain ⟨new', hnew', hhistory'⟩ := hsteps'.keeps
    obtain rfl := List.append_cancel_left (hnew.symm.trans hr)
    obtain rfl := List.append_cancel_left (hnew'.symm.trans hr')
    have hrecords : (new.map (Entry.respell f)).filterMap Entry.record? =
        new.filterMap Entry.record? := by
      rw [List.filterMap_map]
      exact List.filterMap_congr fun e _ => e.record?_respell
    rw [hhistory', hrecords]
    exact hhistory.symm
  · rw [journal_respell, hr, hr', List.map_append, ← journal_respell]

theorem since_respell {s r : Service κ} (h : Steps s r) :
    (r.respell f).since (s.respell f) = (r.since s).map (Entry.respell f) := by
  obtain ⟨new, hnew, _⟩ := h.keeps
  have hnew' : (r.respell f).journal = (s.respell f).journal ++ new.map (Entry.respell f) := by
    rw [journal_respell, journal_respell, hnew, List.map_append]
  rw [since_eq_of_append hnew', since_eq_of_append hnew]

theorem Pairing.Matched.steps {s r : Service κ} (hp : (respelling f s).Matched) (h : Steps s r) :
    (respelling f r).Matched := by
  have hsame := Steps.continues h
  show Counterpart (Respells f) r.machine r.options (r.machine.respell f) r.options
  rw [hsame.machine, hsame.options]
  exact hp

section Operations

variable [BEq κ]

/-- An operation does the same under the other actions. -/
theorem apply_respell {s : Service κ} (hp : (respelling f s).Matched) (op : Operation) :
    (s.respell f).apply op = (s.apply op).respell f := by
  have hends := Pairing.ends_apply hp s.twins_respelling op
  have hsteps := s.steps_apply op
  have hsteps' := (s.respell f).steps_apply op
  generalize s.apply op = o at hends hsteps ⊢
  generalize (s.respell f).apply op = o' at hends hsteps' ⊢
  cases hends with
  | completed h => exact congrArg Outcome.completed (h.eq_respell hsteps hsteps')
  | overflowed h => exact congrArg Outcome.overflowed (h.eq_respell hsteps hsteps')
  | parted hmoved => exact absurd hmoved s.still_respelling.not_moved

/-- And so does a whole run. -/
theorem run_respell (ops : List Operation) {s : Service κ} (hp : (respelling f s).Matched) :
    run ops (s.respell f) = (run ops s).respell f := by
  induction ops generalizing s with
  | nil => rfl
  | cons op rest ih =>
    have hsteps := s.steps_apply op
    rw [run, run, apply_respell hp]
    cases ho : s.apply op with
    | completed r =>
      rw [ho] at hsteps
      exact ih (hp.steps hsteps)
    | overflowed r => rfl

end Operations

end Service

namespace Switchboard

/-- All listeners are blind to which actions are pending. -/
def Blind (b : Switchboard κ) : Prop := ∀ channel, ∀ e ∈ b.listeners channel, e.2.Blind

/-- The same listeners under the same handles, who remember the same calls but for which actions were
pending then. -/
structure SameOutline (b b' : Switchboard κ) : Prop where
  channels : b'.channels = b.channels
  handles : b'.handles = b.handles
  calls : List.Forall₂ Heard.SameOutline b.calls b'.calls

variable {b b' : Switchboard κ}

theorem SameOutline.refl (b : Switchboard κ) : b.SameOutline b :=
  ⟨rfl, rfl, List.forall₂_same.2 fun _ _ => ⟨rfl, ⟨rfl, rfl, rfl, rfl⟩⟩⟩

theorem SameOutline.channel? (h : b.SameOutline b') (channel : Nat) :
    b'.channel? channel = b.channel? channel := by
  rw [Switchboard.channel?, Switchboard.channel?, h.channels]

theorem SameOutline.listeners (h : b.SameOutline b') (channel : Nat) :
    b'.listeners channel = b.listeners channel := by
  rw [listeners_def, listeners_def, h.channel?]

theorem SameOutline.isActive (h : b.SameOutline b') (handle : Handle) :
    b'.isActive handle = b.isActive handle := by
  rw [Switchboard.isActive, Switchboard.isActive, h.listeners]

theorem SameOutline.subscribe (h : b.SameOutline b') (channel : Nat) (name : String)
    (l : Listener κ) : (b.subscribe channel name l).SameOutline (b'.subscribe channel name l) := by
  unfold Switchboard.subscribe
  rw [h.channel?]
  cases b.channel? channel with
  | none => exact h
  | some c => exact ⟨by rw [h.channels], by rw [h.handles], h.calls⟩

theorem SameOutline.unsubscribe (h : b.SameOutline b') (handle : Handle) :
    (b.unsubscribe handle).SameOutline (b'.unsubscribe handle) := by
  unfold Switchboard.unsubscribe
  rw [h.channel?]
  cases b.channel? handle.channel with
  | none => exact h
  | some c => exact ⟨by rw [h.channels], h.handles, h.calls⟩

theorem SameOutline.foldl_unsubscribe (h : b.SameOutline b') (hs : List Handle) :
    (hs.foldl Switchboard.unsubscribe b).SameOutline (hs.foldl Switchboard.unsubscribe b') := by
  induction hs generalizing b b' with
  | nil => exact h
  | cons handle rest ih => exact ih (h.unsubscribe handle)

/-- A blind listener ends the same subscriptions, when it is called with other actions pending. -/
theorem SameOutline.call (h : b.SameOutline b') {l : Listener κ} (hl : l.Blind)
    (snapshot : Snapshot κ) : (b.call l snapshot).SameOutline (b'.call l (snapshot.respell f)) := by
  have houtline := snapshot.alike_respell (f := f).sameOutline
  have hends : b'.endedBy l (snapshot.respell f) = b.endedBy l snapshot := by
    rw [endedBy, endedBy, h.handles]
    exact hl _ _ h.calls _ _ houtline _
  have htold : (b.told l snapshot).SameOutline (b'.told l (snapshot.respell f)) :=
    ⟨h.channels, h.handles, .cons ⟨rfl, houtline⟩ h.calls⟩
  rw [Switchboard.call, Switchboard.call, hends]
  exact htold.foldl_unsubscribe _

theorem Blind.unsubscribe (hb : b.Blind) (h : Handle) : (b.unsubscribe h).Blind := by
  intro channel e he
  rw [listeners_unsubscribe] at he
  exact hb channel e (List.mem_filter.1 he).1

theorem Blind.subscribe (hb : b.Blind) (channel : Nat) (name : String) {l : Listener κ}
    (hl : l.Blind) : (b.subscribe channel name l).Blind := by
  intro other e he
  cases hopen : b.channel? channel with
  | none =>
    have hsame : b.subscribe channel name l = b := by
      unfold Switchboard.subscribe
      rw [hopen]
    exact hb other e (hsame ▸ he)
  | some c =>
    rw [listeners_subscribe hopen] at he
    rcases List.mem_append.1 he with he | he
    · exact hb other e he
    · split at he
      · rw [List.mem_singleton.1 he]
        exact hl
      · cases he

theorem Blind.relay (hb : b.Blind) (channel : Nat) (es : List (Entry κ)) :
    (Switchboard.relay channel es b).1.Blind :=
  kept_relay (fun _ _ _ hc => hc) (fun _ h hc => hc.unsubscribe h) channel es hb

/-- What is heard on two switchboards of one outline, with other actions pending in the second. -/
structure Echoes (f : Action κ → Action κ) (x x' : Switchboard κ × List (Line κ)) : Prop where
  board : x.1.SameOutline x'.1
  lines : x'.2 = x.2.map (Line.respell f)

/-- Blind listeners are called in the same turns. -/
theorem SameOutline.callEach (channel : Nat) (snapshot : Snapshot κ) {ls : List (Nat × Listener κ)}
    (hls : ∀ e ∈ ls, e.2.Blind) (h : b.SameOutline b') :
    Echoes f (Switchboard.callEach channel snapshot ls b)
      (Switchboard.callEach channel (snapshot.respell f) ls b') := by
  induction ls generalizing b b' with
  | nil => exact ⟨h, rfl⟩
  | cons e rest ih =>
    obtain ⟨id, l⟩ := e
    have hrest : ∀ e ∈ rest, e.2.Blind := fun e he => hls e (List.mem_cons_of_mem _ he)
    rw [Switchboard.callEach, Switchboard.callEach, h.isActive]
    split
    · have hlater := ih hrest (h.call (f := f) (hls (id, l) List.mem_cons_self) snapshot)
      exact ⟨hlater.board, congrArg (_ :: ·) hlater.lines⟩
    · exact ih hrest h

/-- The same is heard, but for the actions that are pending in the snapshots. -/
theorem SameOutline.relay (channel : Nat) {es : List (Entry κ)} (hes : ∀ e ∈ es, e.Blind)
    (hb : b.Blind) (h : b.SameOutline b') :
    Echoes f (Switchboard.relay channel es b)
      (Switchboard.relay channel (es.map (Entry.respell f)) b') := by
  induction es generalizing b b' with
  | nil => exact ⟨h, rfl⟩
  | cons e rest ih =>
    have hrest : ∀ e ∈ rest, e.Blind := fun e he => hes e (List.mem_cons_of_mem _ he)
    rcases notified_or e with ⟨snapshot, rfl⟩ | hquiet
    · have hafter : (b.announce channel snapshot).1.Blind := hb.relay channel [.notified snapshot]
      have hcalls : Echoes f (b.announce channel snapshot)
          (b'.announce channel (snapshot.respell f)) := by
        rw [announce, announce, h.listeners]
        exact h.callEach channel snapshot (hb channel)
      have hlater := ih hrest hafter hcalls.board
      rw [List.map_cons, relay_notified, Entry.respell, relay_notified]
      refine ⟨hlater.board, ?_⟩
      rw [hcalls.lines, hlater.lines, List.map_append]
    · have hquiet' : ∀ snapshot, e.respell f ≠ .notified snapshot := by
        cases e with
        | notified snapshot => exact absurd rfl (hquiet snapshot)
        | _ => simp [Entry.respell]
      have hnotes : (e.notes.map Line.note).map (Line.respell f) = e.notes.map Line.note := by
        rw [List.map_map]
        rfl
      have hlater := ih hrest hb h
      rw [List.map_cons, relay_of_quiet hquiet, relay_of_quiet hquiet']
      refine ⟨hlater.board, ?_⟩
      rw [hlater.lines, (hes e List.mem_cons_self).notes_respell, List.map_append, hnotes]

end Switchboard

namespace Service

variable [BEq κ]

theorem conduct_respell {s : Service κ} (hp : (respelling f s).Matched) (hm : s.machine.Blind)
    (op : Operation) {board board' : Switchboard κ} (hb : board.Blind)
    (h : board.SameOutline board') :
    ((s.respell f).conduct op board').1 = (s.conduct op board).1.respell f ∧
      Switchboard.Echoes f (s.conduct op board).2 ((s.respell f).conduct op board').2 := by
  have hsteps := s.steps_apply op
  have hsince : ((s.apply op).respell f).service.since (s.respell f) =
      ((s.apply op).service.since s).map (Entry.respell f) := by
    cases ho : s.apply op <;> rw [ho] at hsteps <;> exact since_respell hsteps
  obtain ⟨new, hnew, hblind⟩ := Steps.addsBlind hm hsteps
  rw [← since_eq_of_append hnew] at hblind
  unfold conduct
  dsimp only
  rw [apply_respell hp, hsince]
  exact ⟨rfl, h.relay s.channel hblind hb⟩

/-- With blind listeners, a session is heard the same but for the actions that are pending. -/
theorem echoes_attend (calls : List (Call κ)) {s : Service κ} (hp : (respelling f s).Matched)
    (hm : s.machine.Blind) (hcalls : ∀ name l, .subscribe name l ∈ calls → l.Blind)
    {board board' : Switchboard κ} (hb : board.Blind) (h : board.SameOutline board') :
    Switchboard.Echoes f (attend calls s board).2 (attend calls (s.respell f) board').2 := by
  induction calls generalizing s board board' with
  | nil => exact ⟨h, rfl⟩
  | cons call rest ih =>
    have hrest : ∀ name l, .subscribe name l ∈ rest → l.Blind :=
      fun name l hin => hcalls name l (List.mem_cons_of_mem _ hin)
    cases call with
    | subscribe name l =>
      exact ih hp hm hrest (hb.subscribe _ name (hcalls name l List.mem_cons_self))
        (h.subscribe _ name l)
    | unsubscribe handle => exact ih hp hm hrest (hb.unsubscribe handle) (h.unsubscribe handle)
    | operate op =>
      obtain ⟨o, after, lines, hconduct⟩ :
          ∃ o after lines, s.conduct op board = (o, after, lines) := ⟨_, _, _, rfl⟩
      obtain ⟨o', after', lines', hconduct'⟩ :
          ∃ o after lines, (s.respell f).conduct op board' = (o, after, lines) := ⟨_, _, _, rfl⟩
      have hkept : (s.conduct op board).2.1.Blind := hb.relay s.channel _
      have hsteps : Steps s (s.conduct op board).1.service := s.steps_apply op
      have hboth := conduct_respell hp hm op hb h
      rw [hconduct] at hkept hsteps
      rw [hconduct, hconduct'] at hboth
      obtain ⟨hsame, hechoes⟩ := hboth
      have hboard : after.SameOutline after' := hechoes.board
      have hlines : lines' = lines.map (Line.respell f) := hechoes.lines
      cases o with
      | completed r =>
        obtain rfl : o' = .completed (r.respell f) := hsame
        have hsteps : Steps s r := hsteps
        have hlater := ih (hp.steps hsteps) ((Steps.continues hsteps).machine ▸ hm) hrest hkept hboard
        have hwhole : lines' ++ (attend rest (r.respell f) after').2.2 =
            (lines ++ (attend rest r after).2.2).map (Line.respell f) := by
          rw [List.map_append, hlines, hlater.lines]
        rw [attend_operate_completed hconduct, attend_operate_completed hconduct']
        exact ⟨hlater.board, hwhole⟩
      | overflowed r =>
        obtain rfl : o' = .overflowed (r.respell f) := hsame
        rw [attend_operate_overflowed hconduct, attend_operate_overflowed hconduct']
        exact ⟨hboard, hlines⟩

/-- Spelling out the names of a machine, as long as its guards and conditions do not look at which
actions are pending: after any session, from the creation of the service on, the status, clock,
timers and history are the same, and so is the journal of all calls and notifications; the snapshots
are the same but for the actions that are pending. The same listeners are subscribed, and what is heard
is the same up to this, if the listeners do not look at the pending actions either. -/
theorem attend_spellOut {machine : Machine κ} (hblind : machine.Blind) (options : Options κ)
    (channel : Nat) (calls : List (Call κ)) (board : Switchboard κ) :
    (attend calls (create (machine.respell options.spellOut) options channel) board).1 =
        (attend calls (create machine options channel) board).1.respell options.spellOut ∧
      ((∀ name l, .subscribe name l ∈ calls → l.Blind) → board.Blind →
        (attend calls (create machine options channel) board).2.1.SameOutline
            (attend calls (create (machine.respell options.spellOut) options channel) board).2.1 ∧
          (attend calls (create (machine.respell options.spellOut) options channel) board).2.2 =
            (attend calls (create machine options channel) board).2.2.map
              (Line.respell options.spellOut)) := by
  have hp : (respelling options.spellOut (create machine options channel)).Matched :=
    Machine.counterpart_spellOut hblind options
  rw [create_respell]
  constructor
  · rw [attend_fst, attend_fst]
    exact run_respell _ hp
  · intro hcalls hb
    have hechoes := echoes_attend calls hp hblind hcalls hb (.refl board)
    exact ⟨hechoes.board, hechoes.lines⟩

/-- Someone listens at the turnstile for one change, and two coins come, the second one too early. -/
def twoCoins : List (Call Nat) :=
  [.subscribe "door" ⟨"door", fun _ _ handles => (handles.find? "door").toList⟩, .operate .start,
    .operate (.send ⟨"coin", .null⟩), .operate (.send ⟨"coin", .null⟩)]

/-- The coins are counted and heard as before when the name of the count is spelled out; the beep
stays a name. -/
theorem attend_spellOut_turnstile :
    turnstile.Blind ∧
    (attend twoCoins (create (turnstile.respell turnstileOptions.spellOut) turnstileOptions 0)
        (Switchboard.openChannel {}).2).1 =
      (attend twoCoins (create turnstile turnstileOptions 0)
        (Switchboard.openChannel {}).2).1.respell turnstileOptions.spellOut ∧
    (attend twoCoins (create (turnstile.respell turnstileOptions.spellOut) turnstileOptions 0)
        (Switchboard.openChannel {}).2).2.2 =
      (attend twoCoins (create turnstile turnstileOptions 0)
        (Switchboard.openChannel {}).2).2.2.map (Line.respell turnstileOptions.spellOut) := by
  have hlisteners : ∀ name l, .subscribe name l ∈ twoCoins → l.Blind := by
    intro name l hin
    simp only [twoCoins, List.mem_cons, Call.subscribe.injEq, reduceCtorEq, List.not_mem_nil,
      or_false] at hin
    rw [hin.2]
    exact fun _ _ _ _ _ _ _ => rfl
  have hboard : (Switchboard.openChannel ({} : Switchboard Nat)).2.Blind := by
    intro channel e he
    rw [Switchboard.listeners_openChannel] at he
    simp [Switchboard.listeners, Switchboard.channel?] at he
  have hboth := attend_spellOut blind_turnstile turnstileOptions 0 twoCoins
    (Switchboard.openChannel {}).2
  exact ⟨blind_turnstile, hboth.1, (hboth.2 hlisteners hboard).2⟩

/-- A listener that ends the subscription called "lamp" when it sees that a count is pending by name. -/
def nosy : Listener Nat where
  label := "nosy"
  ends _ snapshot handles :=
    if "count" ∈ Action.names snapshot.actions then (handles.find? "lamp").toList else []

def lamp : Listener Nat := ⟨"lamp", fun _ _ _ => []⟩

/-- The nosy listener and a lamp listen at the turnstile, and a coin comes. -/
def nosyCalls : List (Call Nat) :=
  [.subscribe "nosy" nosy, .subscribe "lamp" lamp, .operate .start,
    .operate (.send ⟨"coin", .null⟩)]

def nosyBoard : Switchboard Nat :=
  ((Switchboard.openChannel {}).2.subscribe 0 "nosy" nosy).subscribe 0 "lamp" lamp

/-- Who is called then, with the turnstile as it is written in a machine. -/
def calledAt (machine : Machine Nat) : List String :=
  (attend nosyCalls (create machine turnstileOptions 0)
    (Switchboard.openChannel {}).2).2.2.filterMap Line.listener?

theorem calledAt_eq {machine : Machine Nat} {s r : Service Nat} {names : List String}
    (hstart : (create machine turnstileOptions 0).start = .completed s)
    (hquiet : Switchboard.relay 0 (s.since (create machine turnstileOptions 0)) nosyBoard =
      (nosyBoard, []))
    (hsend : s.send ⟨"coin", .null⟩ = .completed r)
    (hheard : (Switchboard.relay s.channel (r.since s) nosyBoard).2.filterMap Line.listener? = names) :
    calledAt machine = names := by
  have hfirst : (create machine turnstileOptions 0).conduct .start nosyBoard =
      (.completed s, nosyBoard, []) := by
    have hstart : (create machine turnstileOptions 0).apply .start = .completed s := hstart
    rw [conduct_of_completed hstart nosyBoard]
    exact congrArg _ hquiet
  have hsend : s.apply (.send ⟨"coin", .null⟩) = .completed r := hsend
  have hsecond := conduct_of_completed hsend nosyBoard
  have hattend : attend nosyCalls (create machine turnstileOptions 0)
      (Switchboard.openChannel {}).2 = attend [.operate .start, .operate (.send ⟨"coin", .null⟩)]
        (create machine turnstileOptions 0) nosyBoard := rfl
  rw [calledAt, hattend, attend_operate_completed hfirst, attend_operate_completed hsecond]
  simpa [attend] using hheard

/-- Once the name of the count is spelled out, the nosy listener has no reason to end the subscription
of the lamp, which is then called too. -/
theorem calledAt_turnstile :
    turnstile.Blind ∧ calledAt turnstile = ["nosy"] ∧
      calledAt (turnstile.respell turnstileOptions.spellOut) = ["nosy", "lamp"] := by
  refine ⟨blind_turnstile, ?_, ?_⟩
  · exact calledAt_eq (settle_of_barren [] rfl) rfl (settle_of_barren [] rfl) rfl
  · exact calledAt_eq (settle_of_barren [] rfl) rfl (settle_of_barren [] rfl) rfl

end Service
end TimedMachine
