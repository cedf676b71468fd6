import TimedMachine.Proofs.Hearing
import TimedMachine.Proofs.Rest
import TimedMachine.Registry

/-!
What the owner of a registry does with it: services are asked for, made if need be, operated on,
subscribed to and removed, in any order. What one errand does to the keys and to the service under each
key is said here once (`keys_perform`, `get?_perform`), and so is what it does to the record of the keys
for which a service was made (`made_perform`).
-/
namespace TimedMachine

variable {κ : Type}

/-- A way to make a service. It may do anything with the switchboard; what it makes is a service that
there can be. -/
structure Maker (κ : Type) [BEq κ] where
  make : Switchboard κ → Service κ × Switchboard κ
  reached : ∀ b, (make b).1.Reached

/-- A service with a channel of its own. -/
def Maker.host [BEq κ] (machine : Machine κ) (options : Options κ) : Maker κ where
  make := Service.host machine options
  reached _ := Service.reached_create machine options _

inductive Errand (κ : Type) [BEq κ] where
  | request (key : String) (maker : Maker κ)
  | operate (key : String) (op : Service.Operation)
  | subscribe (key name : String) (l : Listener κ)
  | unsubscribe (handle : Handle)
  | remove (key : String)

/-- A registry with the switchboard that its services share. All calls of makers are recorded, by the
keys for which they were made. -/
structure Keeper (κ : Type) where
  registry : Registry κ := {}
  board : Switchboard κ := {}
  made : List String := []

namespace Keeper

def keys (k : Keeper κ) : List String := k.registry.keys

def get? (k : Keeper κ) (key : String) : Option (Service κ) := k.registry.get? key

@[simp] theorem keys_empty : ({} : Keeper κ).keys = [] := rfl

theorem mem_keys_iff {k : Keeper κ} {key : String} : key ∈ k.keys ↔ ∃ s, k.get? key = some s := by
  rw [← Option.isSome_iff_exists]
  exact (Table.contains_iff k.registry.services key).symm

theorem not_mem_keys_iff {k : Keeper κ} {key : String} : key ∉ k.keys ↔ k.get? key = none := by
  rw [mem_keys_iff]
  simp [Option.eq_none_iff_forall_ne_some]

theorem keys_put (k : Keeper κ) (key : String) (s : Service κ) :
    (k.registry.put key s).keys = if key ∈ k.keys then k.keys else k.keys ++ [key] :=
  Registry.keys_put k.registry key s

/-- A key that is absent has nothing to be removed. -/
theorem remove_of_none {k : Keeper κ} {key : String} (h : k.get? key = none) :
    k.registry.remove key = (none, k.registry) := by
  have hget : k.registry.get? key = none := h
  have habsent : ∀ e ∈ k.registry.services.entries, decide (e.1 ≠ key) = true := by
    intro e he
    refine decide_eq_true fun hkey => not_mem_keys_iff.2 h ?_
    exact List.mem_map.2 ⟨e, he, hkey⟩
  have herase : k.registry.services.erase key = k.registry.services := by
    have hentries := List.filter_eq_self.2 habsent
    cases hservices : k.registry.services with
    | mk entries nodup =>
      rw [hservices] at hentries
      simp only [Table.erase, hentries]
  rw [Registry.remove, hget, herase]
  rfl

def subscribe (k : Keeper κ) (key name : String) (l : Listener κ) : Keeper κ :=
  match k.get? key with
  | none => k
  | some s => { k with board := k.board.subscribe s.channel name l }

theorem subscribe_of_some {k : Keeper κ} {key : String} {s : Service κ} (h : k.get? key = some s)
    (name : String) (l : Listener κ) :
    k.subscribe key name l = { k with board := k.board.subscribe s.channel name l } := by
  simp only [subscribe, h]

theorem registry_subscribe (k : Keeper κ) (key name : String) (l : Listener κ) :
    (k.subscribe key name l).registry = k.registry := by
  unfold subscribe
  split <;> rfl

theorem sameChannels_board_subscribe (k : Keeper κ) (key name : String) (l : Listener κ) :
    k.board.SameChannels (k.subscribe key name l).board := by
  cases hs : k.get? key with
  | none =>
    simp only [subscribe, hs]
    exact .refl _
  | some s =>
    rw [subscribe_of_some hs]
    exact k.board.sameChannels_subscribe _ _ _

variable [BEq κ]

/-- The service under a key. The maker is called with the switchboard, and the call is recorded. -/
def request (k : Keeper κ) (key : String) (maker : Maker κ) : Service κ × Keeper κ :=
  let make (resource : Switchboard κ × List String) :=
    let (s, board) := maker.make resource.1
    (s, board, resource.2 ++ [key])
  let (s, registry, board, made) := k.registry.request key make (k.board, k.made)
  (s, { registry, board, made })

/-- An operation on the service under a key, if there is one. -/
def operate (k : Keeper κ) (key : String) (op : Service.Operation) : Keeper κ :=
  match k.get? key with
  | none => k
  | some s =>
    let (o, board, _) := s.conduct op k.board
    { k with registry := k.registry.put key o.service, board }

def perform (k : Keeper κ) : Errand κ → Keeper κ
  | .request key maker => (k.request key maker).2
  | .operate key op => k.operate key op
  | .subscribe key name l => k.subscribe key name l
  | .unsubscribe handle => { k with board := k.board.unsubscribe handle }
  | .remove key => { k with registry := (k.registry.remove key).2 }

/-- Do errands in order. One that overflows leaves the service as it was cut short. -/
def attend (errands : List (Errand κ)) (k : Keeper κ) : Keeper κ := errands.foldl perform k

@[simp] theorem attend_nil (k : Keeper κ) : k.attend [] = k := rfl

theorem attend_concat (errands : List (Errand κ)) (e : Errand κ) (k : Keeper κ) :
    k.attend (errands ++ [e]) = (k.attend errands).perform e := List.foldl_append

section Errands

variable {k : Keeper κ} {key : String}

theorem request_of_some {s : Service κ} (h : k.get? key = some s) (maker : Maker κ) :
    k.request key maker = (s, k) := by
  have hget : k.registry.get? key = some s := h
  simp only [request, Registry.request, hget]

theorem request_of_none (h : k.get? key = none) (maker : Maker κ) :
    k.request key maker =
      ((maker.make k.board).1,
        { registry := k.registry.put key (maker.make k.board).1
          board := (maker.make k.board).2
          made := k.made ++ [key] }) := by
  have hget : k.registry.get? key = none := h
  simp only [request, Registry.request, hget]

theorem operate_of_some {s : Service κ} (h : k.get? key = some s) (op : Service.Operation) :
    k.operate key op =
      { k with
        registry := k.registry.put key (s.apply op).service
        board := (Switchboard.relay s.channel ((s.apply op).service.since s) k.board).1 } := by
  simp only [operate, h]
  rfl

theorem operate_of_none (h : k.get? key = none) (op : Service.Operation) :
    k.operate key op = k := by
  simp only [operate, h]

end Errands

variable (k : Keeper κ) (key : String)

theorem keys_request (maker : Maker κ) :
    (k.request key maker).2.keys = if key ∈ k.keys then k.keys else k.keys ++ [key] := by
  cases hs : k.get? key with
  | some s => rw [request_of_some hs, if_pos (mem_keys_iff.2 ⟨s, hs⟩)]
  | none =>
    rw [request_of_none hs]
    exact k.keys_put key _

theorem keys_operate (op : Service.Operation) : (k.operate key op).keys = k.keys := by
  cases hs : k.get? key with
  | some s =>
    rw [operate_of_some hs]
    exact (k.keys_put key _).trans (if_pos (mem_keys_iff.2 ⟨s, hs⟩))
  | none => rw [operate_of_none hs]

theorem keys_remove : (k.perform (.remove key)).keys = k.keys.filter (· ≠ key) := by
  show (k.registry.services.entries.filter _).map Prod.fst =
    (k.registry.services.entries.map _).filter _
  rw [List.filter_map]
  rfl

/-- What an errand does to the keys: a key that is new goes last, and one that is removed leaves the
others in their order. -/
theorem keys_perform (e : Errand κ) :
    (k.perform e).keys =
      match e with
      | .request key _ => if key ∈ k.keys then k.keys else k.keys ++ [key]
      | .remove key => k.keys.filter (· ≠ key)
      | _ => k.keys := by
  cases e with
  | request key maker => exact k.keys_request key maker
  | operate key op => exact k.keys_operate key op
  | subscribe key name l => exact congrArg Registry.keys (k.registry_subscribe key name l)
  | unsubscribe => rfl
  | remove key => exact k.keys_remove key

theorem get?_request (maker : Maker κ) (other : String) :
    (k.request key maker).2.get? other =
      if other = key ∧ key ∉ k.keys then some (maker.make k.board).1 else k.get? other := by
  cases hs : k.get? key with
  | some s =>
    have hold : ¬ (other = key ∧ key ∉ k.keys) := fun h => h.2 (mem_keys_iff.2 ⟨s, hs⟩)
    rw [request_of_some hs, if_neg hold]
  | none =>
    have hnew : key ∉ k.keys := not_mem_keys_iff.2 hs
    rw [request_of_none hs]
    refine (Registry.get?_put k.registry key _ other).trans ?_
    simp only [hnew, not_false_eq_true, and_true]
    rfl

theorem get?_operate (op : Service.Operation) (other : String) :
    (k.operate key op).get? other =
      if other = key then (k.get? other).map fun s => (s.apply op).service else k.get? other := by
  cases hs : k.get? key with
  | some s =>
    rw [operate_of_some hs]
    refine (Registry.get?_put k.registry key _ other).trans ?_
    by_cases hother : other = key
    · simp [hother, hs]
    · simp [hother, get?]
  | none =>
    rw [operate_of_none hs]
    by_cases hother : other = key
    · simp [hother, hs]
    · simp [hother]

theorem sameChannels_board_operate (op : Service.Operation) :
    k.board.SameChannels (k.operate key op).board := by
  cases hs : k.get? key with
  | none =>
    rw [operate_of_none hs]
    exact .refl _
  | some s =>
    rw [operate_of_some hs]
    exact k.board.sameChannels_relay _ _

/-- What an errand does to the service under each key. -/
theorem get?_perform (e : Errand κ) (other : String) :
    (k.perform e).get? other =
      match e with
      | .request key maker =>
        if other = key ∧ key ∉ k.keys then some (maker.make k.board).1 else k.get? other
      | .operate key op =>
        if other = key then (k.get? other).map fun s => (s.apply op).service else k.get? other
      | .remove key => if other = key then none else k.get? other
      | _ => k.get? other := by
  cases e with
  | request key maker => exact k.get?_request key maker other
  | operate key op => exact k.get?_operate key op other
  | subscribe key name l =>
    exact congrArg (Registry.get? · other) (k.registry_subscribe key name l)
  | unsubscribe => rfl
  | remove key => exact Registry.get?_remove k.registry key other

theorem made_request (maker : Maker κ) :
    (k.request key maker).2.made = k.made ++ if key ∈ k.keys then [] else [key] := by
  cases hs : k.get? key with
  | some s => rw [request_of_some hs, if_pos (mem_keys_iff.2 ⟨s, hs⟩), List.append_nil]
  | none => rw [request_of_none hs, if_neg (not_mem_keys_iff.2 hs)]

/-- A maker is called exactly when a service is asked for under a key that is absent. -/
theorem made_perform (e : Errand κ) :
    (k.perform e).made = k.made ++
      match e with
      | .request key _ => if key ∈ k.keys then [] else [key]
      | _ => [] := by
  cases e with
  | request key maker => exact k.made_request key maker
  | operate key op =>
    show (k.operate key op).made = k.made ++ []
    rw [operate, List.append_nil]
    split <;> rfl
  | subscribe key name l =>
    show (k.subscribe key name l).made = k.made ++ []
    rw [subscribe, List.append_nil]
    split <;> rfl
  | unsubscribe => exact (List.append_nil _).symm
  | remove => exact (List.append_nil _).symm

section Present

variable {k : Keeper κ} {key : String} {s : Service κ}

/-- What the listeners hear of an operation, and what becomes of the subscriptions. -/
theorem exists_hears_operate (hs : k.get? key = some s) (op : Service.Operation) :
    ∃ hearings : List (Hearing κ),
      (s.conduct op k.board).2.2.filter Line.isHeard = hearings.map Hearing.line ∧
      Switchboard.Hears s.channel k.board hearings (k.perform (.operate key op)).board := by
  obtain ⟨hearings, hheard, hhears⟩ :=
    Switchboard.exists_hears_relay s.channel ((s.apply op).service.since s) k.board
  refine ⟨hearings, hheard, ?_⟩
  show Switchboard.Hears _ _ _ (k.operate key op).board
  rw [operate_of_some hs]
  exact hhears

theorem listeners_perform_subscribe_ne (hs : k.get? key = some s) {channel : Nat}
    (hchannel : channel ≠ s.channel) (name : String) (l : Listener κ) :
    (k.perform (.subscribe key name l)).board.listeners channel = k.board.listeners channel := by
  show (k.subscribe key name l).board.listeners channel = _
  rw [subscribe_of_some hs]
  cases hopen : k.board.channel? s.channel with
  | none => simp [Switchboard.subscribe, hopen]
  | some c => rw [Switchboard.listeners_subscribe hopen, if_neg hchannel, List.append_nil]

end Present

section Absent

variable {k : Keeper κ} {key : String}

/-- A service that is made goes last, and those under other keys stay. -/
theorem founds_of_absent (maker : Maker κ) (h : key ∉ k.keys) :
    (k.request key maker).1 = (maker.make k.board).1 ∧
    (k.request key maker).2.keys = k.keys ++ [key] ∧
    ∀ other, (k.request key maker).2.get? other =
      if other = key then some (maker.make k.board).1 else k.get? other := by
  refine ⟨?_, ?_, fun other => ?_⟩
  · rw [request_of_none (not_mem_keys_iff.1 h)]
  · rw [keys_request, if_neg h]
  · rw [get?_request]
    simp only [h, not_false_eq_true, and_true]

theorem perform_remove_of_absent (h : key ∉ k.keys) : k.perform (.remove key) = k := by
  show ({ k with registry := (k.registry.remove key).2 } : Keeper κ) = k
  rw [remove_of_none (not_mem_keys_iff.1 h)]

/-- A key that was removed is absent, so the next request for it makes a service that goes last. -/
theorem request_perform_remove (maker : Maker κ) :
    ((k.perform (.remove key)).request key maker).1 = (maker.make k.board).1 ∧
      ((k.perform (.remove key)).request key maker).2.keys = k.keys.filter (· ≠ key) ++ [key] := by
  have habsent : key ∉ (k.perform (.remove key)).keys := by
    rw [keys_remove]
    simp
  obtain ⟨hservice, hlast, _⟩ := founds_of_absent maker habsent
  exact ⟨hservice, by rw [hlast, keys_remove]⟩

end Absent

end Keeper
end TimedMachine
