import Mathlib.Data.Finset.Card
import Sodp.JsonValue
import Sodp.Transition

/-!
# Callbacks and requests of the TypeScript client

`watch` sends a request for a key that has no entry, `watchMany` for all its keys, and `onReady` for
each entry that has a callback. An entry stays when its last callback is taken out: then `onReady`
passes it over, and the next `watch` finds an entry and sends nothing.

Frames are without their numbers, and a callback that calls the client from within `watch` is left
out.
-/

namespace Sodp.Client
open Transition List Option
open OrderedMap hiding keys

inductive Request where
  | watch (keys : List String) (params : Option Value)
  | resume (key : String) (sinceVersion : ℕ) (params : Option Value)
  | unwatch (key : String)

def Request.keys : Request → List String
  | .watch keys _ => keys
  | .resume key _ _ => [key]
  | .unwatch _ => []

/-- A request for the key, and no UNWATCH after it. -/
def Standing (sent : List Request) (key : String) : Prop :=
  ∃ before r after, sent = before ++ r :: after ∧ key ∈ r.keys ∧ .unwatch key ∉ after

theorem standing_append_iff {sent : List Request} {r : Request} {key : String} :
    Standing (sent ++ [r]) key ↔ key ∈ r.keys ∨ Standing sent key ∧ r ≠ .unwatch key := by
  constructor
  · rintro ⟨before, q, after, heq, hkey, hafter⟩
    induction after using List.reverseRecOn with
    | nil =>
      obtain ⟨-, hlast⟩ := append_inj' heq rfl
      rw [(List.cons.inj hlast).1]
      exact .inl hkey
    | append_singleton after =>
      rw [← cons_append, ← append_assoc] at heq
      obtain ⟨rfl, hlast⟩ := append_inj' heq rfl
      rw [mem_append, not_or, ← hlast, mem_singleton] at hafter
      exact .inr ⟨⟨before, q, after, rfl, hkey, hafter.1⟩, fun hr => hafter.2 hr.symm⟩
  · rintro (hkey | ⟨⟨before, q, after, rfl, hkey, hafter⟩, hne⟩)
    · exact ⟨sent, r, [], rfl, hkey, not_mem_nil⟩
    · refine ⟨before, q, after ++ [r], append_assoc .., hkey, ?_⟩
      rw [mem_append, not_or, mem_singleton]
      exact ⟨hafter, fun hr => hne hr.symm⟩

variable {κ : Type*}

structure Subscription (κ : Type*) where
  version : ℕ
  params : Option Value
  callbacks : Finset κ

/-- The watch table, and the requests sent on the current connection. -/
structure Subscriber (κ : Type*) where
  watches : OrderedMap String (Subscription κ)
  authenticated : Bool
  sent : List Request

namespace Subscriber

def new : Subscriber κ := ⟨.empty, false, []⟩

def setEntry (c : Subscriber κ) (key : String) (entry : Subscription κ) : Subscriber κ :=
  { c with watches := c.watches.insert key entry }

def send (c : Subscriber κ) (r : Request) : Subscriber κ := { c with sent := c.sent ++ [r] }

def unwatch (c : Subscriber κ) (key : String) : Subscriber κ :=
  if (c.watches.get? key).isNone then c
  else
    let c := if c.authenticated then c.send (.unwatch key) else c
    { c with watches := c.watches.erase key }

def receive (c : Subscriber κ) (key : String) (version : ℕ) : Subscriber κ :=
  match c.watches.get? key with
  | none => c
  | some entry => c.setEntry key { entry with version := version }

def onDisconnect (c : Subscriber κ) : Subscriber κ := { c with authenticated := false, sent := [] }

def resubscribe (c : Subscriber κ) (watch : String × Subscription κ) : Subscriber κ :=
  if watch.2.callbacks.card = 0 then c
  else if 0 < watch.2.version then c.send (.resume watch.1 watch.2.version watch.2.params)
  else c.send (.watch [watch.1] watch.2.params)

def onReady (c : Subscriber κ) : Subscriber κ :=
  c.watches.toList.foldl resubscribe { c with authenticated := true }

def callbacks (c : Subscriber κ) (key : String) : Finset κ :=
  ((c.watches.get? key).map Subscription.callbacks).getD ∅

/-- Each key with a callback has been asked for on this connection. -/
def Subscribed (c : Subscriber κ) : Prop :=
  c.authenticated = true → ∀ key, c.callbacks key ≠ ∅ → Standing c.sent key

variable {c c' : Subscriber κ} {r : Request} {key : String}

theorem Subscribed.mono (h : c.Subscribed) (hauth : c'.authenticated = c.authenticated)
    (hsent : c'.sent = c.sent) (hkeys : ∀ key, c'.callbacks key ⊆ c.callbacks key) :
    c'.Subscribed := by
  intro hlive key hkey
  rw [hsent]
  refine h (hauth ▸ hlive) key fun hempty => hkey ?_
  exact Finset.subset_empty.mp (hempty ▸ hkeys key)

theorem Subscribed.sends (h : c.Subscribed) (hauth : c.authenticated = true)
    (hsent : c'.sent = c.sent ++ [r]) (hkeys : ∀ key, c'.callbacks key ≠ ∅ →
      key ∈ r.keys ∨ c.callbacks key ≠ ∅ ∧ r ≠ .unwatch key) : c'.Subscribed := by
  intro _ key hkey
  rw [hsent, standing_append_iff]
  exact (hkeys key hkey).imp_right fun hold => ⟨h hauth key hold.1, hold.2⟩

theorem callbacks_setEntry (c : Subscriber κ) (key : String) (entry : Subscription κ)
    (other : String) : (c.setEntry key entry).callbacks other =
      if other = key then entry.callbacks else c.callbacks other := by
  rw [callbacks, setEntry, get?_insert]
  split_ifs <;> rfl

theorem Subscribed.setEntry {entry entry' : Subscription κ} (h : c.Subscribed)
    (hget : c.watches.get? key = some entry) (hsub : entry'.callbacks ⊆ entry.callbacks) :
    (c.setEntry key entry').Subscribed := by
  refine h.mono rfl rfl fun other => ?_
  rw [callbacks_setEntry]
  split_ifs with hother
  · rw [hother, callbacks, hget]
    exact hsub
  · exact Finset.Subset.refl _

theorem Subscribed.receive (h : c.Subscribed) (key : String) (version : ℕ) :
    (c.receive key version).Subscribed := by
  rw [Subscriber.receive]
  cases hget : c.watches.get? key with
  | none => exact h
  | some => exact h.setEntry hget (Finset.Subset.refl _)

theorem Subscribed.unwatch (h : c.Subscribed) (key : String) : (c.unwatch key).Subscribed := by
  have hcallbacks : ∀ other, callbacks { c with watches := c.watches.erase key } other =
      if other = key then ∅ else c.callbacks other := by
    intro other
    rw [callbacks, get?_erase]
    split_ifs <;> rfl
  rw [Subscriber.unwatch]
  split_ifs with hnone hauth
  · exact h
  · refine h.sends hauth rfl fun other hother => ?_
    have hold := hcallbacks other ▸ hother
    split_ifs at hold with hkey
    · exact absurd rfl hold
    · exact .inr ⟨hold, fun heq => hkey (Request.unwatch.inj heq).symm⟩
  · exact fun hauth' => absurd hauth' hauth

theorem resubscribe_standing (c : Subscriber κ) (watch : String × Subscription κ) :
    (c.resubscribe watch).watches = c.watches ∧
      (watch.2.callbacks ≠ ∅ → Standing (c.resubscribe watch).sent watch.1) ∧
      ∀ key, Standing c.sent key → Standing (c.resubscribe watch).sent key := by
  rw [resubscribe]
  split_ifs with hcard hversion
  · exact ⟨rfl, fun hne => absurd (Finset.card_eq_zero.mp hcard) hne, fun _ h => h⟩
  all_goals
    exact ⟨rfl, fun _ => standing_append_iff.mpr (.inl (mem_singleton_self _)),
      fun _ h => standing_append_iff.mpr (.inr ⟨h, Request.noConfusion⟩)⟩

theorem foldl_resubscribe_standing (l : List (String × Subscription κ)) (c : Subscriber κ) :
    (l.foldl resubscribe c).watches = c.watches ∧
      (∀ watch ∈ l, watch.2.callbacks ≠ ∅ → Standing (l.foldl resubscribe c).sent watch.1) ∧
      ∀ key, Standing c.sent key → Standing (l.foldl resubscribe c).sent key := by
  induction l generalizing c with
  | nil => exact ⟨rfl, fun _ hmem => absurd hmem not_mem_nil, fun _ h => h⟩
  | cons watch l ih =>
    obtain ⟨hwatches, hown, hkeeps⟩ := resubscribe_standing c watch
    obtain ⟨hwatches', hall, hkeeps'⟩ := ih (c.resubscribe watch)
    refine ⟨hwatches'.trans hwatches, fun other hother hne => ?_,
      fun key h => hkeeps' key (hkeeps key h)⟩
    rcases mem_cons.mp hother with rfl | hrest
    · exact hkeeps' _ (hown hne)
    · exact hall other hrest hne

theorem subscribed_onReady (c : Subscriber κ) : c.onReady.Subscribed := by
  obtain ⟨hwatches, hall, -⟩ :=
    foldl_resubscribe_standing c.watches.toList { c with authenticated := true }
  intro _ key hkey
  rw [callbacks, onReady, hwatches] at hkey
  cases hget : c.watches.get? key with
  | none =>
    rw [hget] at hkey
    exact absurd rfl hkey
  | some entry =>
    rw [hget] at hkey
    exact hall (key, entry) ((OrderedMap.mem_toList ..).mpr hget) hkey

/-! ### Callbacks -/

variable [DecidableEq κ]

def register (c : Subscriber κ) (cb : κ) (params : Option Value) (key : String) : Subscriber κ :=
  let entry := (c.watches.get? key).getD ⟨0, params, ∅⟩
  c.setEntry key { entry with callbacks := insert cb entry.callbacks }

def watch (c : Subscriber κ) (key : String) (cb : κ) (params : Option Value) : Subscriber κ :=
  if (c.watches.get? key).isNone ∧ c.authenticated then
    (c.register cb params key).send (.watch [key] params)
  else c.register cb params key

def watchMany (c : Subscriber κ) (keys : List String) (cb : κ) (params : Option Value) :
    Subscriber κ :=
  let c := keys.foldl (register · cb params) c
  if c.authenticated then c.send (.watch keys params) else c

def deleteCallback (cb : κ) (c : Subscriber κ) (key : String) : Subscriber κ :=
  match c.watches.get? key with
  | none => c
  | some entry => c.setEntry key { entry with callbacks := entry.callbacks.erase cb }

def unsubscribe (c : Subscriber κ) (keys : List String) (cb : κ) : Subscriber κ :=
  keys.foldl (deleteCallback cb) c

inductive Event (κ : Type*) where
  | watch (key : String) (cb : κ) (params : Option Value)
  | watchMany (keys : List String) (cb : κ) (params : Option Value)
  | unsubscribe (keys : List String) (cb : κ)
  | unwatch (key : String)
  | receive (key : String) (version : ℕ)
  | disconnect
  | ready

def step (c : Subscriber κ) : Event κ → Option (Subscriber κ)
  | .watch key cb params => some (c.watch key cb params)
  | .watchMany keys cb params => some (c.watchMany keys cb params)
  | .unsubscribe keys cb => some (c.unsubscribe keys cb)
  | .unwatch key => some (c.unwatch key)
  | .receive key version => some (c.receive key version)
  | .disconnect => some c.onDisconnect
  | .ready => some c.onReady

/-- A `watch` that finds an entry finds a request for it as well. -/
def Asked (c : Subscriber κ) : Event κ → Prop
  | .watch key _ _ => c.authenticated = true → (c.watches.get? key).isSome → Standing c.sent key
  | _ => True

variable {cb : κ} {params : Option Value}

theorem Subscribed.unsubscribe (h : c.Subscribed) (keys : List String) (cb : κ) :
    (c.unsubscribe keys cb).Subscribed := by
  rw [Subscriber.unsubscribe]
  induction keys generalizing c with
  | nil => exact h
  | cons key keys ih =>
    refine ih ?_
    rw [deleteCallback]
    cases hget : c.watches.get? key with
    | none => exact h
    | some entry => exact h.setEntry hget (Finset.erase_subset cb entry.callbacks)

theorem callbacks_register (other : String) : (c.register cb params key).callbacks other =
      if other = key then insert cb (c.callbacks key) else c.callbacks other := by
  rw [register, callbacks_setEntry]
  congr 1
  rw [callbacks]
  cases c.watches.get? key <;> rfl

theorem foldl_register (keys : List String) (cb : κ) (params : Option Value) (c : Subscriber κ) :
    (keys.foldl (register · cb params) c).sent = c.sent ∧
      (keys.foldl (register · cb params) c).authenticated = c.authenticated ∧
      ∀ key, key ∉ keys → (keys.foldl (register · cb params) c).callbacks key =
        c.callbacks key := by
  induction keys generalizing c with
  | nil => exact ⟨rfl, rfl, fun _ _ => rfl⟩
  | cons k keys ih =>
    obtain ⟨hsent, hauth, hothers⟩ := ih (c.register cb params k)
    refine ⟨hsent, hauth, fun key hkey => ?_⟩
    rw [mem_cons, not_or] at hkey
    rw [foldl_cons, hothers key hkey.2, callbacks_register, if_neg hkey.1]

theorem Subscribed.watchMany (h : c.Subscribed) (keys : List String) :
    (c.watchMany keys cb params).Subscribed := by
  obtain ⟨hsent, hauth, hothers⟩ := foldl_register keys cb params c
  rw [Subscriber.watchMany]
  split_ifs with hlive
  · refine h.sends (hauth ▸ hlive) (congrArg (· ++ [_]) hsent) fun key hkey => ?_
    by_cases hmem : key ∈ keys
    · exact .inl hmem
    · exact .inr ⟨hothers key hmem ▸ hkey, Request.noConfusion⟩
  · exact fun hauth' => absurd hauth' hlive

theorem Subscribed.watch_iff (h : c.Subscribed) :
    (c.watch key cb params).Subscribed ↔ c.Asked (.watch key cb params) := by
  rw [watch, Asked]
  split_ifs with hnew
  · refine iff_of_true (h.sends hnew.2 rfl fun other hother => ?_) fun _ hsome => ?_
    · have hold : _ ≠ ∅ := callbacks_register (c := c) other ▸ hother
      split_ifs at hold with hkey
      · exact .inl (mem_singleton.mpr hkey)
      · exact .inr ⟨hold, Request.noConfusion⟩
    · rw [isNone_iff_eq_none.mp hnew.1] at hsome
      cases hsome
  · constructor
    · intro hsub hauth _
      refine hsub hauth key ?_
      rw [callbacks_register, if_pos rfl]
      exact Finset.insert_ne_empty _ _
    · intro hasked hauth other hother
      rw [callbacks_register] at hother
      split_ifs at hother with hkey
      · rw [hkey]
        refine hasked hauth ?_
        rw [isSome_iff_ne_none]
        exact fun hnone => hnew ⟨isNone_iff_eq_none.mpr hnone, hauth⟩
      · exact h hauth other hother

/-- Along every run: each key with a callback is asked for in every state in which the client is
authenticated, exactly if each `watch` that finds an entry finds a request for it as well. -/
theorem stays_subscribed_iff {last : Subscriber κ} {events : List (Event κ)}
    (hrun : run step .new events = some last) :
    (∀ before after m, events = before ++ after → run step .new before = some m → m.Subscribed) ↔
      Along step Asked .new events := by
  refine forall_reached_iff (I := Subscribed) (fun _ h => h) (fun c e t h hstep => ?_)
    (fun hauth => absurd hauth Bool.false_ne_true) hrun
  cases e with
  | watch =>
    cases hstep
    exact ⟨h.watch_iff.mp, h.watch_iff.mpr⟩
  | watchMany keys =>
    cases hstep
    exact ⟨fun _ => trivial, fun _ => h.watchMany keys⟩
  | unsubscribe keys cb =>
    cases hstep
    exact ⟨fun _ => trivial, fun _ => h.unsubscribe keys cb⟩
  | unwatch key =>
    cases hstep
    exact ⟨fun _ => trivial, fun _ => h.unwatch key⟩
  | receive key version =>
    cases hstep
    exact ⟨fun _ => trivial, fun _ => h.receive key version⟩
  | disconnect =>
    cases hstep
    exact ⟨fun _ => trivial, fun _ hauth => absurd hauth Bool.false_ne_true⟩
  | ready =>
    cases hstep
    exact ⟨fun _ => trivial, fun _ => subscribed_onReady c⟩

def watchedOverReconnect : List (Event ℕ) :=
  [.ready, .watchMany ["k"] 0 none, .disconnect, .watch "k" 1 none, .unsubscribe ["k"] 0, .ready]

theorem watched_over_reconnect_subscribed :
    ∃ c, run step .new watchedOverReconnect = some c ∧ c.callbacks "k" = {1} ∧ c.Subscribed := by
  have hasked : Along step Asked .new watchedOverReconnect :=
    ⟨trivial, trivial, trivial, fun hauth => absurd hauth Bool.false_ne_true, trivial, trivial,
      trivial⟩
  have hstays := (stays_subscribed_iff rfl).mpr hasked
  exact ⟨_, rfl, by decide +kernel, hstays watchedOverReconnect [] _ (append_nil _).symm rfl⟩

/-- The last callback is taken out before the connection is lost, and another comes after it. -/
theorem watched_again_not_asked :
    ∃ c : Subscriber ℕ, run step .new [.ready, .watch "k" 0 none, .unsubscribe ["k"] 0, .disconnect,
        .ready, .watch "k" 0 none] = some c ∧
      c.authenticated = true ∧ c.callbacks "k" = {0} ∧ c.sent = [] :=
  ⟨_, rfl, by decide +kernel, by decide +kernel, by decide +kernel⟩

end Subscriber

end Sodp.Client
