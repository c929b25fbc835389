import Sodp.JsonValue

/-!
# Sessions

The state of one connection: its watch table by stream id, the presence paths it
owns, its rate limiters and its counters, which are taken not to wrap: there are
fewer than 2^32 streams. Time is in nanoseconds.

The watch table of the source is a hash map, and `watch_stream_id` takes whichever
matching entry comes first in it. Here it is the one with the smallest stream id;
in a table with one stream per key there is no choice.
-/

namespace Sodp
open OrderedMap List Option

structure WatchEntry where
  stateKey : String
  lastSeq : ℕ
  params : Option Value

structure PresenceEntry where
  stateKey : String
  path : String
deriving DecidableEq

structure RateLimiter where
  maxPerSec : ℕ
  count : ℕ
  windowStart : ℕ

namespace RateLimiter

def nanosPerSec : ℕ := 1000000000

def new (maxPerSec now : ℕ) : RateLimiter := ⟨maxPerSec, 0, now⟩

def allow (lim : RateLimiter) (now : ℕ) : RateLimiter × Bool :=
  let lim := if 1 ≤ (now - lim.windowStart) / nanosPerSec then
    { lim with count := 0, windowStart := now } else lim
  if lim.count < lim.maxPerSec then ({ lim with count := lim.count + 1 }, true) else (lim, false)

end RateLimiter

structure Session where
  id : String
  sub : Option String
  claims : Value
  watches : OrderedMap ℕ WatchEntry
  presence : List PresenceEntry
  writeLimiter : Option RateLimiter
  watchLimiter : Option RateLimiter
  nextStreamId : ℕ
  seqCounter : ℕ

namespace Session

def new (id : String) (now : ℕ) (writeLimit watchLimit : Option ℕ) : Session where
  id := id
  sub := none
  claims := .object .empty
  watches := .empty
  presence := []
  writeLimiter := writeLimit.map fun limit => .new limit now
  watchLimiter := watchLimit.map fun limit => .new limit now
  nextStreamId := 10
  seqCounter := 0

section Methods
variable (session : Session)

def nextSeq : Session × ℕ :=
  ({ session with seqCounter := session.seqCounter + 1 }, session.seqCounter + 1)

def allocateStream : Session × ℕ :=
  ({ session with nextStreamId := session.nextStreamId + 1 }, session.nextStreamId)

def addWatch (streamId : ℕ) (stateKey : String) (params : Option Value) : Session :=
  { session with watches := session.watches.insert streamId ⟨stateKey, 0, params⟩ }

def removeWatch (streamId : ℕ) : Session :=
  { session with watches := session.watches.erase streamId }

def ackStream (streamId seq : ℕ) : Session :=
  match session.watches.get? streamId with
  | some w => { session with watches := session.watches.insert streamId { w with lastSeq := seq } }
  | none => session

def watchStreamId (stateKey : String) : Option ℕ :=
  (session.watches.toList.find? fun e => e.2.stateKey = stateKey).map Prod.fst

def addPresence (stateKey path : String) : Session :=
  if session.presence.any fun e => e.stateKey = stateKey ∧ e.path = path then session
  else { session with presence := session.presence ++ [⟨stateKey, path⟩] }

def allowWrite (now : ℕ) : Session × Bool :=
  match session.writeLimiter with
  | none => (session, true)
  | some lim => ({ session with writeLimiter := some (lim.allow now).1 }, (lim.allow now).2)

def allowWatch (now : ℕ) : Session × Bool :=
  match session.watchLimiter with
  | none => (session, true)
  | some lim => ({ session with watchLimiter := some (lim.allow now).1 }, (lim.allow now).2)

end Methods

structure SameTable (a b : Session) : Prop where
  id : b.id = a.id
  watches : b.watches = a.watches
  nextStreamId : b.nextStreamId = a.nextStreamId

namespace SameTable
variable {a b c : Session}

theorem refl (a : Session) : SameTable a a := ⟨rfl, rfl, rfl⟩

theorem trans (h : SameTable a b) (h' : SameTable b c) : SameTable a c :=
  ⟨h'.id.trans h.id, h'.watches.trans h.watches, h'.nextStreamId.trans h.nextStreamId⟩

theorem watchStreamId (h : SameTable a b) (k : String) : b.watchStreamId k = a.watchStreamId k := by
  rw [Session.watchStreamId, h.watches, Session.watchStreamId]

end SameTable

theorem sameTable_nextSeq (session : Session) : SameTable session session.nextSeq.1 :=
  ⟨rfl, rfl, rfl⟩

theorem sameTable_allowWatch (session : Session) (now : ℕ) :
    SameTable session (session.allowWatch now).1 := by
  rw [allowWatch]
  cases session.watchLimiter <;> exact ⟨rfl, rfl, rfl⟩

theorem sameTable_allowWrite (session : Session) (now : ℕ) :
    SameTable session (session.allowWrite now).1 := by
  rw [allowWrite]
  cases session.writeLimiter <;> exact ⟨rfl, rfl, rfl⟩

theorem sameTable_addPresence (session : Session) (stateKey path : String) :
    SameTable session (session.addPresence stateKey path) := by
  rw [addPresence]
  split_ifs <;> exact ⟨rfl, rfl, rfl⟩

/-! ### One stream per key -/

def Watches (session : Session) (streamId : ℕ) (stateKey : String) : Prop :=
  ∃ entry, session.watches.get? streamId = some entry ∧ entry.stateKey = stateKey

variable {a b session : Session} {streamId : ℕ} {stateKey : String}

theorem Watches.key_unique {k j : String} (hk : session.Watches streamId k)
    (hj : session.Watches streamId j) : k = j := by
  obtain ⟨e, he, rfl⟩ := hk
  obtain ⟨f, hf, rfl⟩ := hj
  rw [he, some.injEq] at hf
  rw [hf]

theorem watchStreamId_eq_none_iff (session : Session) (stateKey : String) :
    session.watchStreamId stateKey = none ↔ ∀ streamId, ¬ session.Watches streamId stateKey := by
  rw [watchStreamId, map_eq_none_iff, find?_eq_none]
  constructor
  · intro h streamId hw
    obtain ⟨entry, hentry, hkey⟩ := hw
    exact h (streamId, entry) ((mem_toList _ _ _).mpr hentry) (by simpa using hkey)
  · intro h e he hkey
    exact h e.1 ⟨e.2, (mem_toList _ _ _).mp he, by simpa using hkey⟩

theorem watchStreamId_of_empty (h : session.watches = .empty) (stateKey : String) :
    session.watchStreamId stateKey = none := by
  rw [watchStreamId_eq_none_iff]
  rintro streamId ⟨_, hentry, -⟩
  rw [h, get?_empty] at hentry
  cases hentry

theorem watches_of_watchStreamId (h : session.watchStreamId stateKey = some streamId) :
    session.Watches streamId stateKey := by
  rw [watchStreamId, map_eq_some_iff] at h
  obtain ⟨e, he, rfl⟩ := h
  exact ⟨e.2, (mem_toList _ _ _).mp (mem_of_find?_eq_some he), by simpa using find?_some he⟩

def OneStreamPerKey (session : Session) : Prop :=
  ∀ a b k, session.Watches a k → session.Watches b k → a = b

theorem SameTable.watches_iff (h : SameTable a b) (streamId : ℕ) (k : String) :
    b.Watches streamId k ↔ a.Watches streamId k := by
  rw [Watches, h.watches, Watches]

theorem OneStreamPerKey.of_sameTable (h : a.OneStreamPerKey) (htable : SameTable a b) :
    b.OneStreamPerKey := fun x y k hx hy =>
  h x y k ((htable.watches_iff x k).mp hx) ((htable.watches_iff y k).mp hy)

theorem OneStreamPerKey.watchStreamId_iff (h : session.OneStreamPerKey) :
    session.watchStreamId stateKey = some streamId ↔ session.Watches streamId stateKey := by
  constructor
  · exact watches_of_watchStreamId
  · intro hw
    cases hid : session.watchStreamId stateKey with
    | none => exact absurd hw ((watchStreamId_eq_none_iff session stateKey).mp hid streamId)
    | some a => rw [h a streamId stateKey (watches_of_watchStreamId hid) hw]

theorem OneStreamPerKey.watchStreamId_congr (ha : a.OneStreamPerKey) (hb : b.OneStreamPerKey)
    (h : ∀ streamId, b.Watches streamId stateKey ↔ a.Watches streamId stateKey) :
    b.watchStreamId stateKey = a.watchStreamId stateKey := by
  ext streamId
  rw [hb.watchStreamId_iff, h, ha.watchStreamId_iff]

theorem watches_addWatch (session : Session) (streamId : ℕ) (stateKey : String)
    (params : Option Value) (a : ℕ) (k : String) :
    (session.addWatch streamId stateKey params).Watches a k ↔
      if a = streamId then k = stateKey else session.Watches a k := by
  rw [Watches, addWatch, get?_insert]
  split_ifs
  · simp [eq_comm]
  · rfl

theorem OneStreamPerKey.addWatch (h : session.OneStreamPerKey)
    (hnone : session.watchStreamId stateKey = none) (streamId : ℕ) (params : Option Value) :
    (session.addWatch streamId stateKey params).OneStreamPerKey := by
  have hold := (watchStreamId_eq_none_iff session stateKey).mp hnone
  intro a b k ha hb
  rw [watches_addWatch] at ha hb
  split_ifs at ha hb with hna hnb hnb
  · rw [hna, hnb]
  · exact absurd (ha ▸ hb) (hold b)
  · exact absurd (hb ▸ ha) (hold a)
  · exact h a b k ha hb

theorem OneStreamPerKey.watchStreamId_addWatch (h : session.OneStreamPerKey)
    (hnone : session.watchStreamId stateKey = none) (hfree : ∀ k, ¬ session.Watches streamId k)
    (params : Option Value) (k : String) :
    (session.addWatch streamId stateKey params).watchStreamId k =
      if k = stateKey then some streamId else session.watchStreamId k := by
  have hsingle := h.addWatch hnone streamId params
  split_ifs with hk
  · rw [hsingle.watchStreamId_iff, watches_addWatch, if_pos rfl]
    exact hk
  · refine h.watchStreamId_congr hsingle fun a => ?_
    rw [watches_addWatch]
    split_ifs with ha
    · exact ⟨fun hc => absurd hc hk, fun hc => absurd (ha ▸ hc) (hfree k)⟩
    · rfl

theorem watches_removeWatch (session : Session) (streamId a : ℕ) (k : String) :
    (session.removeWatch streamId).Watches a k ↔ a ≠ streamId ∧ session.Watches a k := by
  rw [Watches, removeWatch, get?_erase]
  split_ifs with h
  · simp [h]
  · simp [h, Watches]

theorem OneStreamPerKey.watchStreamId_removeWatch (h : session.OneStreamPerKey)
    (hw : session.Watches streamId stateKey) (k : String) :
    (session.removeWatch streamId).watchStreamId k =
      if k = stateKey then none else session.watchStreamId k := by
  split_ifs with hk
  · rw [watchStreamId_eq_none_iff, hk]
    intro a ha
    rw [watches_removeWatch] at ha
    exact ha.1 (h a streamId stateKey ha.2 hw)
  · have hsingle : (session.removeWatch streamId).OneStreamPerKey := fun a b j ha hb =>
      h a b j ((watches_removeWatch ..).mp ha).2 ((watches_removeWatch ..).mp hb).2
    refine h.watchStreamId_congr hsingle fun a => ?_
    rw [watches_removeWatch]
    refine ⟨And.right, fun ha => ⟨fun he => ?_, ha⟩⟩
    exact hk ((he ▸ ha).key_unique hw)

end Session

end Sodp
