import TimedMachine.Proofs.Ledger

/-!
Notifications, turn by turn. The listeners that are registered when a notification starts get one turn
each, in the order in which they subscribed; a turn is a call unless the subscription was ended in
the turns before (`Round`). The calls are those that are heard, and replaying all that happens in
them gives the switchboard that the notifications leave.
-/
namespace TimedMachine

variable {κ : Type}

/-- What a caller hears of a happening. -/
def Happening.heard? : Happening κ → Option (Line κ)
  | .called _ l snapshot => some (.heard l.label snapshot)
  | _ => none

/-- What listeners remember of a happening. -/
def Happening.call? : Happening κ → Option (Heard κ)
  | .called _ l snapshot => some ⟨l.label, snapshot⟩
  | _ => none

/-- The notification that a happening begins. -/
def Happening.announced? : Happening κ → Option (Nat × Snapshot κ)
  | .announced channel snapshot => some (channel, snapshot)
  | _ => none

/-- The snapshot that the listeners are to be told. -/
def Entry.notified? : Entry κ → Option (Snapshot κ)
  | .notified snapshot => some snapshot
  | _ => none

/-- The happening is a part of a notification. -/
def Happening.inRound : Happening κ → Bool
  | .announced .. | .called .. | .passed _ | .concluded _ => true
  | _ => false

namespace Line

def isHeard : Line κ → Bool
  | .heard .. => true
  | .note _ => false

/-- Who was called. -/
def listener? : Line κ → Option String
  | .heard listener _ => some listener
  | .note _ => none

def note? : Line κ → Option (Note κ)
  | .note n => some n
  | .heard .. => none

end Line

namespace Switchboard

/-- The turns of listeners of a channel that are told of a snapshot. -/
def turns (channel : Nat) (snapshot : Snapshot κ) :
    List (Nat × Listener κ) → Switchboard κ → List (Happening κ)
  | [], _ => []
  | (id, l) :: rest, b =>
    if b.isActive ⟨channel, id⟩ then
      .called ⟨channel, id⟩ l snapshot ::
        ((b.endedBy l snapshot).map .ended ++ turns channel snapshot rest (b.call l snapshot))
    else .passed ⟨channel, id⟩ :: turns channel snapshot rest b

def notification (channel : Nat) (snapshot : Snapshot κ) (b : Switchboard κ) : List (Happening κ) :=
  .announced channel snapshot ::
    (turns channel snapshot (b.listeners channel) b ++ [.concluded channel])

/-- What happens while entries of the service on a channel are relayed. -/
def notifications (channel : Nat) : List (Entry κ) → Switchboard κ → List (Happening κ)
  | [], _ => []
  | .notified snapshot :: rest, b =>
    notification channel snapshot b ++ notifications channel rest (b.announce channel snapshot).1
  | _ :: rest, b => notifications channel rest b

theorem relay_notified (channel : Nat) (snapshot : Snapshot κ) (es : List (Entry κ))
    (b : Switchboard κ) :
    relay channel (.notified snapshot :: es) b =
      ((relay channel es (b.announce channel snapshot).1).1,
        (b.announce channel snapshot).2 ++ (relay channel es (b.announce channel snapshot).1).2) :=
  rfl

theorem relay_of_quiet {e : Entry κ} (h : ∀ snapshot, e ≠ .notified snapshot) (channel : Nat)
    (es : List (Entry κ)) (b : Switchboard κ) :
    relay channel (e :: es) b =
      ((relay channel es b).1, e.notes.map .note ++ (relay channel es b).2) := by
  cases e with
  | notified snapshot => exact absurd rfl (h snapshot)
  | _ => rfl

theorem notifications_of_quiet {e : Entry κ} (h : ∀ snapshot, e ≠ .notified snapshot)
    (channel : Nat) (es : List (Entry κ)) (b : Switchboard κ) :
    notifications channel (e :: es) b = notifications channel es b := by
  cases e with
  | notified snapshot => exact absurd rfl (h snapshot)
  | _ => rfl

/-- An entry asks for a notification or it does not. -/
theorem notified_or (e : Entry κ) :
    (∃ snapshot, e = .notified snapshot) ∨ ∀ snapshot, e ≠ .notified snapshot := by
  cases e with
  | notified snapshot => exact .inl ⟨snapshot, rfl⟩
  | _ => exact .inr (by simp)

/-- Of entries that ask for no notification only the notes are heard, and no subscription is ended. -/
theorem relay_of_unnotified (channel : Nat) {es : List (Entry κ)}
    (hes : ∀ e ∈ es, ∀ snapshot, e ≠ .notified snapshot) (b : Switchboard κ) :
    relay channel es b = (b, (es.flatMap Entry.notes).map .note) := by
  induction es with
  | nil => rfl
  | cons e rest ih =>
    rw [relay_of_quiet (hes e List.mem_cons_self), ih fun e he => hes e (List.mem_cons_of_mem _ he),
      List.flatMap_cons, List.map_append]

/-- A notification that is asked for last is told last. -/
theorem relay_concat_notified (channel : Nat) {es : List (Entry κ)}
    (hes : ∀ e ∈ es, ∀ snapshot, e ≠ .notified snapshot) (snapshot : Snapshot κ)
    (b : Switchboard κ) :
    relay channel (es ++ [.notified snapshot]) b =
      ((b.announce channel snapshot).1,
        (es.flatMap Entry.notes).map .note ++ (b.announce channel snapshot).2) := by
  rw [relay_append, relay_of_unnotified channel hes, relay_notified]
  simp [relay]

/-- What neither has notes nor asks for a notification is not heard of, and ends no subscription. -/
theorem relay_of_silent (channel : Nat) {es : List (Entry κ)}
    (hes : ∀ e ∈ es, e.notes = [] ∧ ∀ snapshot, e ≠ .notified snapshot) (b : Switchboard κ) :
    relay channel es b = (b, []) := by
  have hnotes : es.flatMap Entry.notes = [] := List.flatMap_eq_nil_iff.2 fun e he => (hes e he).1
  rw [relay_of_unnotified channel (fun e he => (hes e he).2), hnotes]
  rfl

theorem replay_ended (hs : List Handle) (b : Switchboard κ) :
    replay (hs.map .ended) b = hs.foldl unsubscribe b := by
  rw [replay, List.foldl_map]
  rfl

/-- A call and what is ended in it. -/
theorem replay_called (h : Handle) (l : Listener κ) (snapshot : Snapshot κ)
    (rest : List (Happening κ)) (b : Switchboard κ) :
    replay (.called h l snapshot :: ((b.endedBy l snapshot).map .ended ++ rest)) b =
      replay rest (b.call l snapshot) := by
  rw [replay_cons, replay_append, replay_ended]
  rfl

theorem filterMap_heard?_ended (hs : List Handle) :
    (hs.map fun h => (.ended h : Happening κ)).filterMap Happening.heard? = [] :=
  List.filterMap_eq_nil_iff.2 fun x hx => by
    obtain ⟨h, _, rfl⟩ := List.mem_map.1 hx
    rfl

theorem replay_turns (channel : Nat) (snapshot : Snapshot κ) (ls : List (Nat × Listener κ))
    (b : Switchboard κ) :
    replay (turns channel snapshot ls b) b = (callEach channel snapshot ls b).1 := by
  induction ls generalizing b with
  | nil => rfl
  | cons e rest ih =>
    obtain ⟨id, l⟩ := e
    rw [turns, callEach]
    split
    · rw [replay_called]
      exact ih _
    · exact ih b

theorem heard_turns (channel : Nat) (snapshot : Snapshot κ) (ls : List (Nat × Listener κ))
    (b : Switchboard κ) :
    (turns channel snapshot ls b).filterMap Happening.heard? =
      (callEach channel snapshot ls b).2 := by
  induction ls generalizing b with
  | nil => rfl
  | cons e rest ih =>
    obtain ⟨id, l⟩ := e
    rw [turns, callEach]
    split
    · have hlater := ih (b.call l snapshot)
      have hcalled (xs : List (Happening κ)) :
          (.called ⟨channel, id⟩ l snapshot :: xs).filterMap Happening.heard? =
            .heard l.label snapshot :: xs.filterMap Happening.heard? := rfl
      rw [hcalled, List.filterMap_append, filterMap_heard?_ended, hlater, List.nil_append]
    · exact ih b

theorem replay_notification (channel : Nat) (snapshot : Snapshot κ) (b : Switchboard κ) :
    replay (b.notification channel snapshot) b = (b.announce channel snapshot).1 := by
  rw [notification, replay_cons, replay_append]
  exact replay_turns channel snapshot _ b

theorem heard_notification (channel : Nat) (snapshot : Snapshot κ) (b : Switchboard κ) :
    (b.notification channel snapshot).filterMap Happening.heard? =
      (b.announce channel snapshot).2 := by
  rw [notification, List.filterMap_cons_none rfl, List.filterMap_append, heard_turns]
  exact List.append_nil _

theorem replay_notifications (channel : Nat) (es : List (Entry κ)) (b : Switchboard κ) :
    replay (notifications channel es b) b = (relay channel es b).1 := by
  induction es generalizing b with
  | nil => rfl
  | cons e rest ih =>
    rcases notified_or e with ⟨snapshot, rfl⟩ | hquiet
    · rw [notifications, replay_append, replay_notification, ih, relay_notified]
    · rw [notifications_of_quiet hquiet, relay_of_quiet hquiet, ih]

theorem announced_turns (channel : Nat) (snapshot : Snapshot κ) (ls : List (Nat × Listener κ))
    (b : Switchboard κ) :
    (turns channel snapshot ls b).filterMap Happening.announced? = [] := by
  have hended (hs : List Handle) :
      (hs.map fun h => (.ended h : Happening κ)).filterMap Happening.announced? = [] := by
    simp [Happening.announced?]
  induction ls generalizing b with
  | nil => rfl
  | cons e rest ih =>
    rw [turns]
    split
    · rw [List.filterMap_cons_none rfl, List.filterMap_append, hended, ih, List.append_nil]
    · rw [List.filterMap_cons_none rfl]
      exact ih b

/-- The notifications that are begun are those that the entries ask for, in order. -/
theorem announced_notifications (channel : Nat) (es : List (Entry κ)) (b : Switchboard κ) :
    (notifications channel es b).filterMap Happening.announced? =
      es.filterMap fun e => e.notified?.map (channel, ·) := by
  induction es generalizing b with
  | nil => rfl
  | cons e rest ih =>
    rcases notified_or e with ⟨snapshot, rfl⟩ | hquiet
    · have hbegun : (b.notification channel snapshot).filterMap Happening.announced? =
          (channel, snapshot) :: (turns channel snapshot (b.listeners channel) b ++
            [Happening.concluded channel]).filterMap Happening.announced? := rfl
      rw [notifications, List.filterMap_append, ih, hbegun, List.filterMap_append, announced_turns]
      rfl
    · rw [notifications_of_quiet hquiet, List.filterMap_cons_none, ih]
      cases e with
      | notified snapshot => exact absurd rfl (hquiet snapshot)
      | _ => rfl

theorem isHeard_of_callEach (channel : Nat) (snapshot : Snapshot κ) (ls : List (Nat × Listener κ))
    (b : Switchboard κ) : ∀ line ∈ (callEach channel snapshot ls b).2, line.isHeard = true := by
  rw [← heard_turns]
  intro line hin
  obtain ⟨x, _, hx⟩ := List.mem_filterMap.1 hin
  cases x <;> simp [Happening.heard?] at hx
  rw [← hx]
  rfl

/-- What is heard while entries are relayed are the calls, in order. -/
theorem heard_notifications (channel : Nat) (es : List (Entry κ)) (b : Switchboard κ) :
    (notifications channel es b).filterMap Happening.heard? =
      (relay channel es b).2.filter Line.isHeard := by
  have hnotes (ns : List (Note κ)) : (ns.map Line.note).filter Line.isHeard = [] := by
    simp [Line.isHeard]
  induction es generalizing b with
  | nil => rfl
  | cons e rest ih =>
    rcases notified_or e with ⟨snapshot, rfl⟩ | hquiet
    · have hall : (b.announce channel snapshot).2.filter Line.isHeard =
          (b.announce channel snapshot).2 :=
        List.filter_eq_self.2 (isHeard_of_callEach channel snapshot _ b)
      rw [notifications, List.filterMap_append, heard_notification, ih, relay_notified,
        List.filter_append, hall]
    · rw [notifications_of_quiet hquiet, relay_of_quiet hquiet, ih, List.filter_append, hnotes,
        List.nil_append]

/-- The notes of the functions that were called do not depend on the listeners. -/
theorem notes_relay (channel : Nat) (es : List (Entry κ)) (b : Switchboard κ) :
    (relay channel es b).2.filterMap Line.note? = es.flatMap Entry.notes := by
  have hnotes (ns : List (Note κ)) : (ns.map Line.note).filterMap Line.note? = ns := by
    rw [List.filterMap_map]
    exact List.filterMap_some
  induction es generalizing b with
  | nil => rfl
  | cons e rest ih =>
    rcases notified_or e with ⟨snapshot, rfl⟩ | hquiet
    · have hheard : (b.announce channel snapshot).2.filterMap Line.note? = [] := by
        refine List.filterMap_eq_nil_iff.2 fun line hin => ?_
        have hline := isHeard_of_callEach channel snapshot _ b line hin
        cases line <;> simp [Line.isHeard, Line.note?] at *
      rw [relay_notified, List.filterMap_append, hheard, ih]
      rfl
    · rw [relay_of_quiet hquiet, List.filterMap_append, hnotes, ih, List.flatMap_cons]

theorem listeners_foldl_unsubscribe (hs : List Handle) (b : Switchboard κ) (other : Nat) :
    (hs.foldl unsubscribe b).listeners other =
      (b.listeners other).filter fun e => (⟨other, e.1⟩ : Handle) ∉ hs := by
  induction hs generalizing b with
  | nil => simp
  | cons h rest ih =>
    rw [List.foldl_cons, ih, listeners_unsubscribe, List.filter_filter]
    refine List.filter_congr fun e _ => ?_
    simp [not_or, Bool.and_comm]

theorem listeners_told (b : Switchboard κ) (l : Listener κ) (snapshot : Snapshot κ) (other : Nat) :
    (b.told l snapshot).listeners other = b.listeners other := rfl

/-- A call takes away the listeners whose subscriptions are ended in it, and no others. -/
theorem listeners_call (b : Switchboard κ) (l : Listener κ) (snapshot : Snapshot κ) (other : Nat) :
    (b.call l snapshot).listeners other =
      (b.listeners other).filter fun e => (⟨other, e.1⟩ : Handle) ∉ b.endedBy l snapshot := by
  rw [call, listeners_foldl_unsubscribe, listeners_told]

/-- The turns of a notification on a switchboard, with the handles that were ended in it so far: a
listener is called unless its handle is among these. It then ends what it ends, by what it sees and by
all the calls before. -/
inductive Round (channel : Nat) (snapshot : Snapshot κ) :
    Switchboard κ → List Handle → List (Nat × Listener κ) → List (Happening κ) → Prop
  | finished {b : Switchboard κ} {gone : List Handle} : Round channel snapshot b gone [] []
  | called {b : Switchboard κ} {gone ends : List Handle} {id : Nat} {l : Listener κ}
      {rest : List (Nat × Listener κ)} {turns : List (Happening κ)} (hnot : ⟨channel, id⟩ ∉ gone)
      (hends : ends = l.ends b.calls snapshot b.handles)
      (hrest : Round channel snapshot (ends.foldl unsubscribe (b.told l snapshot)) (gone ++ ends)
        rest turns) :
      Round channel snapshot b gone ((id, l) :: rest)
        (.called ⟨channel, id⟩ l snapshot :: (ends.map .ended ++ turns))
  | passed {b : Switchboard κ} {gone : List Handle} {id : Nat} {l : Listener κ}
      {rest : List (Nat × Listener κ)} {turns : List (Happening κ)} (hin : ⟨channel, id⟩ ∈ gone)
      (hrest : Round channel snapshot b gone rest turns) :
      Round channel snapshot b gone ((id, l) :: rest) (.passed ⟨channel, id⟩ :: turns)

theorem lawful_ended (hs : List Handle) (b : Switchboard κ) : b.Lawful (hs.map .ended) := by
  induction hs generalizing b with
  | nil => trivial
  | cons h rest ih => exact ⟨trivial, ih _⟩

/-- The turns of listeners that are still registered, but for those whose handles were ended. -/
theorem round_turns {channel : Nat} {snapshot : Snapshot κ} {ls : List (Nat × Listener κ)}
    {gone : List Handle} {b : Switchboard κ}
    (hkept : ∀ e ∈ ls, (⟨channel, e.1⟩ : Handle) ∉ gone → e ∈ b.listeners channel)
    (hgone : ∀ h ∈ gone, b.isActive h = false) :
    Round channel snapshot b gone ls (turns channel snapshot ls b) ∧
      b.Lawful (turns channel snapshot ls b) := by
  induction ls generalizing gone b with
  | nil => exact ⟨.finished, trivial⟩
  | cons e rest ih =>
    obtain ⟨id, l⟩ := e
    rw [turns]
    cases hactive : b.isActive ⟨channel, id⟩ with
    | true =>
      have hnot : (⟨channel, id⟩ : Handle) ∉ gone := fun hin => by simp [hgone _ hin] at hactive
      have hown := hkept (id, l) List.mem_cons_self hnot
      have hstill : ∀ e ∈ rest, (⟨channel, e.1⟩ : Handle) ∉ gone ++ b.endedBy l snapshot →
          e ∈ (b.call l snapshot).listeners channel := by
        intro e he hout
        simp only [List.mem_append, not_or] at hout
        rw [listeners_call]
        exact List.mem_filter.2 ⟨hkept e (List.mem_cons_of_mem _ he) hout.1, by simpa using hout.2⟩
      have hended : ∀ h ∈ gone ++ b.endedBy l snapshot, (b.call l snapshot).isActive h = false := by
        intro h hin
        refine Bool.eq_false_iff.2 fun htrue => ?_
        obtain ⟨k, hk⟩ := isActive_iff.1 htrue
        rw [listeners_call] at hk
        obtain ⟨hk, hout⟩ := List.mem_filter.1 hk
        rcases List.mem_append.1 hin with hin | hin
        · exact absurd (isActive_iff.2 ⟨k, hk⟩) (by simp [hgone h hin])
        · exact absurd hin (by simpa using hout)
      obtain ⟨hround, hlawful⟩ := ih hstill hended
      refine ⟨.called hnot rfl hround, hown, lawful_append.2 ⟨lawful_ended _ _, ?_⟩⟩
      rw [replay_ended]
      exact hlawful
    | false =>
      have hin : (⟨channel, id⟩ : Handle) ∈ gone := by
        by_contra hnot
        have hown := hkept (id, l) List.mem_cons_self hnot
        have htrue : b.isActive ⟨channel, id⟩ = true := isActive_iff.2 ⟨l, hown⟩
        simp [htrue] at hactive
      obtain ⟨hround, hlawful⟩ := ih (fun e he => hkept e (List.mem_cons_of_mem _ he)) hgone
      exact ⟨.passed hin hround, hactive, hlawful⟩

/-- Traces in which listeners are only called in notifications, and every notification is a round of
turns, begun with the listeners that are registered then. -/
inductive Course : Switchboard κ → List (Happening κ) → Prop
  | finished {b : Switchboard κ} : Course b []
  | single {b : Switchboard κ} {x : Happening κ} {rest : List (Happening κ)}
      (hx : x.inRound = false) (hrest : Course (b.after x) rest) : Course b (x :: rest)
  | notification {b : Switchboard κ} {channel : Nat} {snapshot : Snapshot κ}
      {turns rest : List (Happening κ)}
      (hround : Round channel snapshot b [] (b.listeners channel) turns)
      (hrest : Course (replay turns b) rest) :
      Course b (.announced channel snapshot :: (turns ++ .concluded channel :: rest))

theorem Course.append {b : Switchboard κ} {xs ys : List (Happening κ)} (h : Course b xs)
    (k : Course (replay xs b) ys) : Course b (xs ++ ys) := by
  induction h with
  | finished => exact k
  | single hx _ ih => exact .single hx (ih k)
  | @notification b channel snapshot turns rest hround _ ih =>
    rw [replay_cons, replay_append] at k
    rw [List.cons_append, List.append_assoc]
    exact .notification hround (ih k)

/-- Every happening fits, and the calls are made in rounds. -/
structure Regular (b : Switchboard κ) (trace : List (Happening κ)) : Prop where
  lawful : b.Lawful trace
  course : Course b trace

theorem regular_nil (b : Switchboard κ) : b.Regular [] := ⟨trivial, .finished⟩

theorem regular_singleton {b : Switchboard κ} {x : Happening κ} (hfits : b.Fits x)
    (hx : x.inRound = false) : b.Regular [x] := ⟨⟨hfits, trivial⟩, .single hx .finished⟩

theorem Regular.append {b : Switchboard κ} {xs ys : List (Happening κ)} (h : b.Regular xs)
    (k : (replay xs b).Regular ys) : b.Regular (xs ++ ys) :=
  ⟨lawful_append.2 ⟨h.lawful, k.lawful⟩, h.course.append k.course⟩

theorem regular_notification (channel : Nat) (snapshot : Snapshot κ) (b : Switchboard κ) :
    b.Regular (b.notification channel snapshot) := by
  obtain ⟨hround, hlawful⟩ :
      Round channel snapshot b [] (b.listeners channel)
        (turns channel snapshot (b.listeners channel) b) ∧
      b.Lawful (turns channel snapshot (b.listeners channel) b) :=
    round_turns (fun _ he _ => he) (by simp)
  exact ⟨⟨trivial, lawful_append.2 ⟨hlawful, trivial, trivial⟩⟩, .notification hround .finished⟩

theorem regular_notifications (channel : Nat) (es : List (Entry κ)) (b : Switchboard κ) :
    b.Regular (notifications channel es b) := by
  induction es generalizing b with
  | nil => exact b.regular_nil
  | cons e rest ih =>
    rcases notified_or e with ⟨snapshot, rfl⟩ | hquiet
    · refine (regular_notification channel snapshot b).append ?_
      rw [replay_notification]
      exact ih _
    · rw [notifications_of_quiet hquiet]
      exact ih b

/-- A listener that ends its own subscription when it is called for the second time. -/
def patient : Listener κ where
  label := "patient"
  ends calls _ handles :=
    if calls.any (·.listener = "patient") then (handles.find? "patient").toList else []

example (s : Snapshot κ) :
    (relay 0 [.notified s, .notified s, .notified s]
      ((openChannel {}).2.subscribe 0 "patient" patient)).2 =
        [.heard "patient" s, .heard "patient" s] := rfl

/-- The same channels are open, and the next one has the same number. -/
structure SameChannels (b c : Switchboard κ) : Prop where
  length : c.channels.length = b.channels.length
  isSome : ∀ channel, (c.channel? channel).isSome = (b.channel? channel).isSome

theorem SameChannels.refl (b : Switchboard κ) : b.SameChannels b := ⟨rfl, fun _ => rfl⟩

theorem SameChannels.trans {b c d : Switchboard κ} (h : b.SameChannels c) (k : c.SameChannels d) :
    b.SameChannels d :=
  ⟨k.length.trans h.length, fun channel => (k.isSome channel).trans (h.isSome channel)⟩

theorem sameChannels_unsubscribe (b : Switchboard κ) (h : Handle) :
    b.SameChannels (b.unsubscribe h) := by
  constructor
  · unfold unsubscribe
    split <;> simp
  · intro channel
    rw [channel?_unsubscribe, Option.isSome_map]

theorem sameChannels_told (b : Switchboard κ) (l : Listener κ) (snapshot : Snapshot κ) :
    b.SameChannels (b.told l snapshot) := ⟨rfl, fun _ => rfl⟩

theorem sameChannels_subscribe (b : Switchboard κ) (channel : Nat) (name : String)
    (l : Listener κ) : b.SameChannels (b.subscribe channel name l) := by
  cases hopen : b.channel? channel with
  | none =>
    unfold subscribe
    rw [hopen]
    exact .refl b
  | some c =>
    constructor
    · simp [subscribe, hopen]
    · intro other
      rw [channel?_subscribe hopen]
      split
      · rename_i h
        rw [h, hopen]
        rfl
      · rfl

/-- What calling a listener and ending a subscription keep is kept by notifications, for listeners do
nothing else. -/
theorem kept_relay {p : Switchboard κ → Prop} (htold : ∀ b l snapshot, p b → p (b.told l snapshot))
    (hp : ∀ b h, p b → p (b.unsubscribe h)) (channel : Nat) (es : List (Entry κ))
    {b : Switchboard κ} (hb : p b) :
    p (relay channel es b).1 := by
  have hends (hs : List Handle) {b : Switchboard κ} (hb : p b) : p (hs.foldl unsubscribe b) := by
    induction hs generalizing b with
    | nil => exact hb
    | cons h rest ih => exact ih (hp b h hb)
  have hcalls (snapshot : Snapshot κ) (ls : List (Nat × Listener κ)) {b : Switchboard κ}
      (hb : p b) : p (callEach channel snapshot ls b).1 := by
    induction ls generalizing b with
    | nil => exact hb
    | cons e rest ih =>
      rw [callEach]
      split
      · exact ih (hends _ (htold _ _ _ hb))
      · exact ih hb
  induction es generalizing b with
  | nil => exact hb
  | cons e rest ih =>
    rcases notified_or e with ⟨snapshot, rfl⟩ | hquiet
    · rw [relay_notified]
      exact ih (hcalls snapshot _ hb)
    · rw [relay_of_quiet hquiet]
      exact ih hb

/-- What happens in notifications opens and closes no channel. -/
theorem sameChannels_relay (channel : Nat) (es : List (Entry κ)) (b : Switchboard κ) :
    b.SameChannels (relay channel es b).1 :=
  kept_relay (fun c l snapshot hc => hc.trans (c.sameChannels_told l snapshot))
    (fun c h hc => hc.trans (c.sameChannels_unsubscribe h)) channel es (.refl b)

end Switchboard
end TimedMachine
