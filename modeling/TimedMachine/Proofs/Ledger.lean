import Mathlib.Data.List.Nodup
import TimedMachine.Proofs.Step
import TimedMachine.Switchboard

/-!
What happens on a switchboard, and what is left of it. A trace of happenings can be replayed, and a
subscription stands after it if it was made and has not been ended since, nor its channel closed.
The listeners that are registered after a lawful trace are those whose subscriptions stand, and no
handle was given out twice (`Ledger`). One happening keeps this, and so does a whole trace
(`Ledger.replay`).
-/
namespace TimedMachine

variable {κ : Type}

/-- What can happen on a switchboard. In a notification the turn of each listener comes once: it is
called, or passed over. -/
inductive Happening (κ : Type) where
  | opened
  | closed (channel : Nat)
  | subscribed (name : String) (h : Handle) (l : Listener κ)
  | ended (h : Handle)
  | announced (channel : Nat) (snapshot : Snapshot κ)
  | called (h : Handle) (l : Listener κ) (snapshot : Snapshot κ)
  | passed (h : Handle)
  | concluded (channel : Nat)

/-- The handle that a subscription gave out. -/
def Happening.given? : Happening κ → Option Handle
  | .subscribed _ h _ => some h
  | _ => none

namespace Switchboard

/-- What a happening does to the switchboard. -/
def after (b : Switchboard κ) : Happening κ → Switchboard κ
  | .opened => b.openChannel.2
  | .closed channel => b.close channel
  | .subscribed name h l => b.subscribe h.channel name l
  | .ended h => b.unsubscribe h
  | .called _ l snapshot => b.told l snapshot
  | _ => b

def replay (trace : List (Happening κ)) (b : Switchboard κ) : Switchboard κ := trace.foldl after b

@[simp] theorem replay_nil (b : Switchboard κ) : replay [] b = b := rfl

@[simp] theorem replay_cons (x : Happening κ) (trace : List (Happening κ)) (b : Switchboard κ) :
    replay (x :: trace) b = replay trace (b.after x) := rfl

theorem replay_append (xs ys : List (Happening κ)) (b : Switchboard κ) :
    replay (xs ++ ys) b = replay ys (replay xs b) := List.foldl_append

/-- Subscriptions are made on open channels with the next number, and only registered listeners are
called. -/
def Fits (b : Switchboard κ) : Happening κ → Prop
  | .subscribed _ h _ => ∃ c, b.channel? h.channel = some c ∧ h.id = c.nextId
  | .called h l _ => (h.id, l) ∈ b.listeners h.channel
  | .passed h => b.isActive h = false
  | _ => True

/-- Every happening of the trace fits where it stands. -/
def Lawful : Switchboard κ → List (Happening κ) → Prop
  | _, [] => True
  | b, x :: rest => b.Fits x ∧ Lawful (b.after x) rest

theorem lawful_append {b : Switchboard κ} {xs ys : List (Happening κ)} :
    b.Lawful (xs ++ ys) ↔ b.Lawful xs ∧ (replay xs b).Lawful ys := by
  induction xs generalizing b with
  | nil => simp [Lawful]
  | cons x rest ih => simp [Lawful, ih, and_assoc]

theorem listeners_def (b : Switchboard κ) (channel : Nat) :
    b.listeners channel = ((b.channel? channel).map Channel.listeners).getD [] := rfl

theorem lt_of_channel?_eq_some {b : Switchboard κ} {channel : Nat} {c : Channel κ}
    (h : b.channel? channel = some c) : channel < b.channels.length := by
  by_contra hge
  rw [channel?, List.getElem?_eq_none (Nat.le_of_not_lt hge)] at h
  cases h

theorem channel?_set (b : Switchboard κ) {channel : Nat} (hlt : channel < b.channels.length)
    (c : Option (Channel κ)) (handles : Table Handle) (calls : List (Heard κ)) (other : Nat) :
    channel? ⟨b.channels.set channel c, handles, calls⟩ other =
      if other = channel then c else b.channel? other := by
  unfold channel?
  by_cases h : other = channel
  · subst h
    simp [List.getElem?_set_self hlt]
  · rw [if_neg h, List.getElem?_set_ne (Ne.symm h)]

theorem channel?_openChannel (b : Switchboard κ) (other : Nat) :
    b.openChannel.2.channel? other =
      if other = b.channels.length then some {} else b.channel? other := by
  unfold openChannel channel?
  by_cases h : other = b.channels.length
  · simp [h]
  · rw [if_neg h]
    by_cases hlt : other < b.channels.length
    · rw [List.getElem?_append_left hlt]
    · rw [List.getElem?_eq_none, List.getElem?_eq_none (Nat.le_of_not_lt hlt)]
      simp
      omega

theorem channel?_close (b : Switchboard κ) (channel other : Nat) :
    (b.close channel).channel? other = if other = channel then none else b.channel? other := by
  by_cases hlt : channel < b.channels.length
  · exact b.channel?_set hlt none b.handles b.calls other
  · have hset : b.channels.set channel none = b.channels :=
      List.set_eq_of_length_le (Nat.le_of_not_lt hlt)
    rw [close, hset]
    split
    · rename_i h
      rw [h, channel?, List.getElem?_eq_none (Nat.le_of_not_lt hlt)]
      rfl
    · rfl

theorem channel?_subscribe {b : Switchboard κ} {channel : Nat} {c : Channel κ}
    (h : b.channel? channel = some c) (name : String) (l : Listener κ) (other : Nat) :
    (b.subscribe channel name l).channel? other =
      if other = channel then some ⟨c.nextId + 1, c.listeners ++ [(c.nextId, l)]⟩
      else b.channel? other := by
  unfold subscribe
  rw [h]
  exact b.channel?_set (lt_of_channel?_eq_some h) _ _ _ other

theorem channel?_unsubscribe (b : Switchboard κ) (h : Handle) (other : Nat) :
    (b.unsubscribe h).channel? other =
      (b.channel? other).map fun c =>
        { c with listeners := c.listeners.filter fun e => (⟨other, e.1⟩ : Handle) ≠ h } := by
  have hsame (id : Nat) : (⟨h.channel, id⟩ : Handle) ≠ h ↔ id ≠ h.id := by
    obtain ⟨channel, own⟩ := h
    simp
  unfold unsubscribe
  cases hc : b.channel? h.channel with
  | none =>
    by_cases hother : other = h.channel
    · rw [hother, hc]
      rfl
    · have hkept (id : Nat) : (⟨other, id⟩ : Handle) ≠ h := fun heq => hother (heq ▸ rfl)
      simp [hkept]
  | some c =>
    simp only
    rw [b.channel?_set (lt_of_channel?_eq_some hc)]
    split
    · rename_i hother
      rw [hother, hc]
      simp only [hsame]
      rfl
    · rename_i hother
      have hkept (id : Nat) : (⟨other, id⟩ : Handle) ≠ h := fun heq => hother (heq ▸ rfl)
      simp [hkept]

theorem listeners_openChannel (b : Switchboard κ) (other : Nat) :
    b.openChannel.2.listeners other = b.listeners other := by
  rw [listeners_def, listeners_def, channel?_openChannel]
  split
  · rename_i h
    have hnone : b.channel? other = none := by
      rw [h, channel?, List.getElem?_eq_none (Nat.le_refl _)]
      rfl
    rw [hnone]
    rfl
  · rfl

theorem listeners_close (b : Switchboard κ) (channel other : Nat) :
    (b.close channel).listeners other = if other = channel then [] else b.listeners other := by
  rw [listeners_def, listeners_def, channel?_close]
  split <;> rfl

theorem listeners_subscribe {b : Switchboard κ} {channel : Nat} {c : Channel κ}
    (h : b.channel? channel = some c) (name : String) (l : Listener κ) (other : Nat) :
    (b.subscribe channel name l).listeners other =
      b.listeners other ++ if other = channel then [(c.nextId, l)] else [] := by
  rw [listeners_def, listeners_def, channel?_subscribe h]
  split
  · rename_i hother
    rw [hother, h]
    rfl
  · rw [List.append_nil]

/-- Ending a subscription takes away the listener that was registered under its handle, and no
other. -/
theorem listeners_unsubscribe (b : Switchboard κ) (h : Handle) (other : Nat) :
    (b.unsubscribe h).listeners other =
      (b.listeners other).filter fun e => (⟨other, e.1⟩ : Handle) ≠ h := by
  rw [listeners_def, listeners_def, channel?_unsubscribe]
  cases b.channel? other <;> rfl

theorem isActive_iff {b : Switchboard κ} {h : Handle} :
    b.isActive h = true ↔ ∃ l, (h.id, l) ∈ b.listeners h.channel := by
  unfold isActive
  rw [List.any_eq_true]
  constructor
  · rintro ⟨⟨id, l⟩, hin, hid⟩
    obtain rfl := of_decide_eq_true hid
    exact ⟨l, hin⟩
  · rintro ⟨l, hin⟩
    exact ⟨_, hin, decide_eq_true rfl⟩

/-- A subscription stands after a trace: it was made, and since then it was not ended, nor was its
channel closed. -/
def Subscribed (trace : List (Happening κ)) (h : Handle) (l : Listener κ) : Prop :=
  ∃ before name behind, trace = before ++ .subscribed name h l :: behind ∧
    .ended h ∉ behind ∧ .closed h.channel ∉ behind

theorem Subscribed.mem {trace : List (Happening κ)} {h : Handle} {l : Listener κ}
    (hs : Subscribed trace h l) : ∃ name, .subscribed name h l ∈ trace := by
  obtain ⟨before, name, behind, rfl, _⟩ := hs
  exact ⟨name, by simp⟩

/-- What one more happening does to a subscription. -/
theorem subscribed_concat {trace : List (Happening κ)} {x : Happening κ} {h : Handle}
    {l : Listener κ} :
    Subscribed (trace ++ [x]) h l ↔ (∃ name, x = .subscribed name h l) ∨
      (Subscribed trace h l ∧ x ≠ .ended h ∧ x ≠ .closed h.channel) := by
  constructor
  · rintro ⟨before, name, behind, htrace, hended, hclosed⟩
    rcases Service.split_concat htrace with ⟨rest, rfl, rfl⟩ | ⟨_, hx, _⟩
    · simp only [List.mem_append, List.mem_singleton, not_or] at hended hclosed
      exact .inr ⟨⟨before, name, rest, rfl, hended.1, hclosed.1⟩, Ne.symm hended.2,
        Ne.symm hclosed.2⟩
    · exact .inl ⟨name, hx.symm⟩
  · rintro (⟨name, rfl⟩ | ⟨⟨before, name, behind, rfl, hended, hclosed⟩, hnot, hopen⟩)
    · exact ⟨trace, name, [], rfl, by simp, by simp⟩
    · refine ⟨before, name, behind ++ [x], by simp, ?_, ?_⟩
      · simpa using ⟨hended, Ne.symm hnot⟩
      · simpa using ⟨hclosed, Ne.symm hopen⟩

/-- The switchboard keeps account of a trace: the listeners are those whose subscriptions stand, in
the order of their numbers, and all handles that were given out are behind the numbers to come. -/
structure Ledger (trace : List (Happening κ)) (b : Switchboard κ) : Prop where
  registered : ∀ channel id l,
    (id, l) ∈ b.listeners channel ↔ Subscribed trace ⟨channel, id⟩ l
  ascending : ∀ channel, (b.listeners channel).Pairwise (fun e f => e.1 < f.1)
  opened : ∀ h ∈ trace.filterMap Happening.given?, h.channel < b.channels.length
  numbered : ∀ h ∈ trace.filterMap Happening.given?, ∀ c, b.channel? h.channel = some c →
    h.id < c.nextId
  once : (trace.filterMap Happening.given?).Nodup

theorem ledger_empty : Ledger [] ({} : Switchboard κ) := by
  refine ⟨fun channel id l => ?_, fun channel => ?_, by simp, by simp, by simp⟩
  · constructor
    · intro hin
      simp [listeners, channel?] at hin
    · rintro ⟨before, name, behind, htrace, _⟩
      simp at htrace
  · simp [listeners, channel?]

theorem Subscribed.given {trace : List (Happening κ)} {h : Handle} {l : Listener κ}
    (hs : Subscribed trace h l) : h ∈ trace.filterMap Happening.given? := by
  obtain ⟨name, hin⟩ := hs.mem
  exact List.mem_filterMap.2 ⟨_, hin, rfl⟩

/-- Where no handle is given out, only the listeners and the numbers to come need to be looked at. -/
theorem Ledger.concat {trace : List (Happening κ)} {b c : Switchboard κ} {x : Happening κ}
    (hb : Ledger trace b) (hgiven : x.given? = none)
    (hlength : b.channels.length ≤ c.channels.length)
    (hchannel : ∀ channel < b.channels.length, ∀ d, c.channel? channel = some d →
      ∃ e, b.channel? channel = some e ∧ d.nextId = e.nextId)
    (hlisteners : ∀ channel, (c.listeners channel).Sublist (b.listeners channel))
    (hkept : ∀ channel id l, (id, l) ∈ b.listeners channel →
      ((id, l) ∈ c.listeners channel ↔ x ≠ .ended ⟨channel, id⟩ ∧ x ≠ .closed channel)) :
    Ledger (trace ++ [x]) c := by
  have hsame : (trace ++ [x]).filterMap Happening.given? = trace.filterMap Happening.given? := by
    rw [List.filterMap_append, List.filterMap_cons_none hgiven, List.filterMap_nil, List.append_nil]
  have hnew (name : String) (h : Handle) (l : Listener κ) : x ≠ .subscribed name h l := by
    rintro rfl
    cases hgiven
  constructor
  case registered =>
    intro channel id l
    rw [subscribed_concat, ← hb.registered]
    constructor
    · intro hin
      have hold := (hlisteners channel).subset hin
      exact .inr ⟨hold, (hkept channel id l hold).1 hin⟩
    · rintro (⟨name, hx⟩ | ⟨hold, hnot⟩)
      · exact absurd hx (hnew _ _ _)
      · exact (hkept channel id l hold).2 hnot
  case ascending => exact fun channel => (hb.ascending channel).sublist (hlisteners channel)
  case opened =>
    rw [hsame]
    exact fun h hin => Nat.lt_of_lt_of_le (hb.opened h hin) hlength
  case numbered =>
    rw [hsame]
    intro h hin d hd
    obtain ⟨e, he, hnext⟩ := hchannel h.channel (hb.opened h hin) d hd
    rw [hnext]
    exact hb.numbered h hin e he
  case once => exact hsame ▸ hb.once

/-- What changes no channels keeps the ledger. -/
theorem Ledger.quiet {trace : List (Happening κ)} {b c : Switchboard κ} {x : Happening κ}
    (hb : Ledger trace b) (hsame : c.channels = b.channels) (hgiven : x.given? = none)
    (hended : ∀ h, x ≠ .ended h) (hclosed : ∀ channel, x ≠ .closed channel) :
    Ledger (trace ++ [x]) c := by
  have hchannel (channel : Nat) : c.channel? channel = b.channel? channel := by
    rw [channel?, channel?, hsame]
  have hlisteners (channel : Nat) : c.listeners channel = b.listeners channel := by
    rw [listeners_def, listeners_def, hchannel]
  refine hb.concat hgiven (Nat.le_of_eq (congrArg List.length hsame.symm)) ?_ ?_ ?_
  · exact fun channel _ d hd => ⟨d, hchannel channel ▸ hd, rfl⟩
  · exact fun channel => hlisteners channel ▸ List.Sublist.refl _
  · intro channel id l hin
    rw [hlisteners channel]
    exact ⟨fun _ => ⟨hended _, hclosed _⟩, fun _ => hin⟩

theorem Ledger.openChannel {trace : List (Happening κ)} {b : Switchboard κ} (hb : Ledger trace b) :
    Ledger (trace ++ [.opened]) b.openChannel.2 := by
  refine hb.concat rfl (by simp [Switchboard.openChannel]) ?_ ?_ ?_
  · intro channel hlt d hd
    rw [channel?_openChannel, if_neg (Nat.ne_of_lt hlt)] at hd
    exact ⟨d, hd, rfl⟩
  · intro channel
    rw [listeners_openChannel]
  · intro channel id l hin
    rw [listeners_openChannel]
    simp [hin]

theorem Ledger.close {trace : List (Happening κ)} {b : Switchboard κ} (hb : Ledger trace b)
    (closing : Nat) : Ledger (trace ++ [.closed closing]) (b.close closing) := by
  refine hb.concat rfl (by simp [Switchboard.close]) ?_ ?_ ?_
  · intro channel hlt d hd
    rw [channel?_close] at hd
    split at hd
    · cases hd
    · exact ⟨d, hd, rfl⟩
  · intro channel
    rw [listeners_close]
    split
    · exact List.nil_sublist _
    · exact List.Sublist.refl _
  · intro channel id l hin
    rw [listeners_close]
    by_cases h : channel = closing
    · simp [h]
    · simp [h, hin, Ne.symm h]

theorem Ledger.unsubscribe {trace : List (Happening κ)} {b : Switchboard κ} (hb : Ledger trace b)
    (h : Handle) : Ledger (trace ++ [.ended h]) (b.unsubscribe h) := by
  refine hb.concat rfl ?_ ?_ ?_ ?_
  · unfold Switchboard.unsubscribe
    split <;> simp
  · intro channel hlt d hd
    rw [channel?_unsubscribe] at hd
    obtain ⟨e, he, rfl⟩ := Option.map_eq_some_iff.1 hd
    exact ⟨e, he, rfl⟩
  · intro channel
    rw [listeners_unsubscribe]
    exact List.filter_sublist
  · intro channel id l hin
    rw [listeners_unsubscribe, List.mem_filter]
    simp only [hin, true_and, decide_eq_true_eq, ne_eq, reduceCtorEq, not_false_eq_true, and_true,
      Happening.ended.injEq]
    exact not_congr eq_comm

/-- A handle with the next number of its channel was not given out before. -/
theorem Ledger.subscribe {trace : List (Happening κ)} {b : Switchboard κ} (hb : Ledger trace b)
    (name : String) {h : Handle} (l : Listener κ) {c : Channel κ}
    (hopen : b.channel? h.channel = some c) (hid : h.id = c.nextId) :
    Ledger (trace ++ [.subscribed name h l]) (b.subscribe h.channel name l) := by
  have hgiven : (trace ++ [Happening.subscribed name h l]).filterMap Happening.given? =
      trace.filterMap Happening.given? ++ [h] := by
    rw [List.filterMap_append]
    rfl
  have hnew : h ∉ trace.filterMap Happening.given? := fun hin =>
    Nat.lt_irrefl _ (hid ▸ hb.numbered h hin c hopen)
  have hnumber : ∀ e ∈ b.listeners h.channel, e.1 < c.nextId := by
    rintro ⟨id, l⟩ hin
    exact hb.numbered _ ((hb.registered _ _ _).1 hin).given c hopen
  constructor
  case registered =>
    intro channel id l'
    rw [listeners_subscribe hopen, subscribed_concat, ← hb.registered, List.mem_append, or_comm]
    refine or_congr ?_ ?_
    · obtain ⟨own, number⟩ := h
      by_cases hown : channel = own
      · subst hown
        simp [← hid, eq_comm]
      · simp [hown, Ne.symm hown]
    · simp
  case ascending =>
    intro channel
    rw [listeners_subscribe hopen, List.pairwise_append]
    refine ⟨hb.ascending channel, ?_, ?_⟩
    · split
      · exact List.pairwise_singleton _ _
      · exact .nil
    · intro e he f hf
      split at hf
      · rename_i hown
        obtain rfl := List.mem_singleton.1 hf
        exact hnumber e (hown ▸ he)
      · cases hf
  case opened =>
    rw [hgiven]
    intro g hin
    have hlength : (b.subscribe h.channel name l).channels.length = b.channels.length := by
      simp [Switchboard.subscribe, hopen]
    rw [hlength]
    rcases List.mem_append.1 hin with hin | hin
    · exact hb.opened g hin
    · obtain rfl := List.mem_singleton.1 hin
      exact lt_of_channel?_eq_some hopen
  case numbered =>
    rw [hgiven]
    intro g hin d hd
    rw [channel?_subscribe hopen] at hd
    rcases List.mem_append.1 hin with hin | hin
    · split at hd
      · rename_i hown
        obtain rfl := Option.some.inj hd
        exact Nat.lt_succ_of_lt (hb.numbered g hin c (hown ▸ hopen))
      · exact hb.numbered g hin d hd
    · obtain rfl := List.mem_singleton.1 hin
      rw [if_pos rfl] at hd
      obtain rfl := Option.some.inj hd
      exact Nat.lt_succ_of_le (Nat.le_of_eq hid)
  case once =>
    rw [hgiven]
    refine List.nodup_append.2 ⟨hb.once, List.nodup_singleton _, ?_⟩
    rintro g hin _ hlast rfl
    exact hnew (List.mem_singleton.1 hlast ▸ hin)

/-- One happening that fits keeps the ledger. -/
theorem Ledger.after {trace : List (Happening κ)} {b : Switchboard κ} {x : Happening κ}
    (hb : Ledger trace b) (hx : b.Fits x) : Ledger (trace ++ [x]) (b.after x) := by
  cases x with
  | opened => exact hb.openChannel
  | closed channel => exact hb.close channel
  | subscribed name h l =>
    obtain ⟨c, hopen, hid⟩ := hx
    exact hb.subscribe name l hopen hid
  | ended h => exact hb.unsubscribe h
  | announced => exact hb.quiet rfl rfl (by simp) (by simp)
  | called => exact hb.quiet rfl rfl (by simp) (by simp)
  | passed => exact hb.quiet rfl rfl (by simp) (by simp)
  | concluded => exact hb.quiet rfl rfl (by simp) (by simp)

/-- So does a whole trace. -/
theorem Ledger.replay {trace rest : List (Happening κ)} {b : Switchboard κ} (hb : Ledger trace b)
    (hrest : b.Lawful rest) : Ledger (trace ++ rest) (Switchboard.replay rest b) := by
  induction rest generalizing trace b with
  | nil => simpa using hb
  | cons x rest ih =>
    have hnext := ih (hb.after hrest.1) hrest.2
    rwa [List.append_assoc] at hnext

end Switchboard
end TimedMachine
