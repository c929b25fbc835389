import Sodp.ScriptClient

/-!
# What frames do to a replica

A client shows a value for a key on a stream when the stream is bound to the key and the entry of
the key holds the value. While a client has bound its streams as the server gave them, what it holds
for a key depends on the frames about that key only (`AgreeOn.handleFrames`).
-/

namespace Sodp.Client.SodpClient
open OrderedMap List Option

variable {c : SodpClient} {streamId : ℕ} {key : String} {value : JsValue}

def Shows (c : SodpClient) (streamId : ℕ) (key : String) (value : JsValue) : Prop :=
  c.streamToKey.get? streamId = some key ∧ ∃ e, c.watches.get? key = some e ∧ e.value = value

theorem handleFrames_append (c : SodpClient) (msgs more : List OutboundMsg) :
    c.handleFrames (msgs ++ more) = (c.handleFrames msgs).handleFrames more :=
  foldl_append ..

@[simp] theorem get?_setEntry (c : SodpClient) (key k : String) (entry : WatchEntry) :
    (c.setEntry key entry).watches.get? k = if k = key then some entry else c.watches.get? k :=
  get?_insert ..

@[simp] theorem streamToKey_setEntry (c : SodpClient) (key : String) (entry : WatchEntry) :
    (c.setEntry key entry).streamToKey = c.streamToKey := rfl

theorem shows_stateInit (h : (c.watches.get? key).isSome) (streamId seq version : ℕ) (v : Value)
    (initialized : Bool) (params : Option Value) :
    (c.handleFrame (.stateInit streamId seq key version v initialized params)).Shows streamId key
      (.ofJson v) := by
  obtain ⟨_, hentry⟩ := isSome_iff_exists.mp h
  simp only [handleFrame, onStateInit, hentry]
  exact ⟨get?_insert_self .., _, get?_insert_self .., rfl⟩

theorem handleFrame_delta_of_unbound (h : c.streamToKey.get? streamId = none) (seq version : ℕ)
    (ops : List DeltaOp) : c.handleFrame (.delta streamId seq version ops) = c := by
  simp only [handleFrame, onDelta, keyOf, h, filter_none]

theorem handleFrames_delta_of_unbound (h : c.streamToKey.get? streamId = none)
    {msgs : List OutboundMsg}
    (hmsgs : ∀ m ∈ msgs, ∃ seq version ops, m = .delta streamId seq version ops) :
    c.handleFrames msgs = c := by
  induction msgs with
  | nil => rfl
  | cons m msgs ih =>
    obtain ⟨seq, version, ops, rfl⟩ := hmsgs m mem_cons_self
    rw [handleFrames, foldl_cons, handleFrame_delta_of_unbound h]
    exact ih fun m' hm' => hmsgs m' (mem_cons_of_mem _ hm')

theorem Shows.keyOf (h : c.Shows streamId key value) (hkey : key ≠ "") :
    c.keyOf streamId = some key := by
  rw [SodpClient.keyOf, h.1]
  simp [hkey]

theorem Shows.delta {value' : JsValue} {ops : List DeltaOp} (h : c.Shows streamId key value)
    (hkey : key ≠ "") (hops : applyOps value ops = .ok value') (seq version : ℕ) :
    (c.handleFrame (.delta streamId seq version ops)).Shows streamId key value' := by
  obtain ⟨_, hentry, hvalue⟩ := h.2
  simp only [handleFrame, onDelta, h.keyOf hkey, hentry, hvalue, hops]
  exact ⟨h.1, _, get?_insert_self .., rfl⟩

/-! ### What one frame changes -/

def valueAt (c : SodpClient) (key : String) : Option JsValue :=
  (c.watches.get? key).map WatchEntry.value

theorem shows_iff : c.Shows streamId key value ↔
    c.streamToKey.get? streamId = some key ∧ c.valueAt key = some value := by
  rw [Shows, valueAt, map_eq_some_iff]

@[simp] theorem valueAt_setEntry (c : SodpClient) (key k : String) (entry : WatchEntry) :
    (c.setEntry key entry).valueAt k = if k = key then some entry.value else c.valueAt k := by
  rw [valueAt, get?_setEntry]
  split_ifs <;> rfl

section Effect
variable (c) (streamId seq : ℕ) (key : String) (version : ℕ) (v : Value) (initialized : Bool)
  (params : Option Value) (ops : List DeltaOp)

theorem valueAt_stateInit (k : String) :
    (c.handleFrame (.stateInit streamId seq key version v initialized params)).valueAt k =
      (c.valueAt k).map fun old => if k = key then .ofJson v else old := by
  rw [handleFrame, onStateInit]
  cases hentry : c.watches.get? key with
  | none =>
    by_cases hk : k = key
    · simp [hk, valueAt, hentry]
    · simp [hk]
  | some =>
    by_cases hk : k = key
    · simp [hk, valueAt, hentry]
    · simp only [valueAt_setEntry, hk, if_false, Option.map_id']
      rfl

theorem streamToKey_stateInit (a : ℕ) :
    (c.handleFrame (.stateInit streamId seq key version v initialized params)).streamToKey.get? a =
      if a = streamId ∧ (c.valueAt key).isSome then some key else c.streamToKey.get? a := by
  rw [handleFrame, onStateInit, valueAt]
  cases hentry : c.watches.get? key with
  | none => simp
  | some => simp [get?_insert]

theorem valueAt_delta (k : String) : (c.handleFrame (.delta streamId seq version ops)).valueAt k =
      (c.valueAt k).map fun old =>
        if c.keyOf streamId = some k then (applyOps old ops).toOption.getD old else old := by
  rw [handleFrame, onDelta]
  cases hbound : c.keyOf streamId with
  | none => simp
  | some j =>
    cases hentry : c.watches.get? j with
    | none =>
      by_cases hk : j = k
      · simp [← hk, valueAt, hentry]
      · simp [hk, hentry]
    | some entry =>
      by_cases hk : j = k
      · subst hk
        cases hops : applyOps entry.value ops <;> simp [valueAt, hentry, hops, Except.toOption]
      · cases hops : applyOps entry.value ops <;> simp [hk, Ne.symm hk, hentry, hops]

theorem streamToKey_delta :
    (c.handleFrame (.delta streamId seq version ops)).streamToKey = c.streamToKey := by
  rw [handleFrame, onDelta]
  split
  · rfl
  · split
    · rfl
    · split <;> rfl

end Effect

theorem isSome_valueAt_handleFrame (c : SodpClient) (m : OutboundMsg) (k : String) :
    ((c.handleFrame m).valueAt k).isSome = (c.valueAt k).isSome := by
  cases m with
  | stateInit => rw [valueAt_stateInit, isSome_map]
  | delta => rw [valueAt_delta, isSome_map]
  | _ => rfl

theorem authenticated_handleFrame (c : SodpClient) (m : OutboundMsg) :
    (c.handleFrame m).authenticated = c.authenticated := by
  cases m with
  | stateInit streamId seq key =>
    rw [handleFrame, onStateInit]
    cases c.watches.get? key <;> rfl
  | delta =>
    rw [handleFrame, onDelta]
    split
    · rfl
    · split
      · rfl
      · split <;> rfl
  | _ => rfl

theorem isSome_valueAt_handleFrames (c : SodpClient) (msgs : List OutboundMsg) (k : String) :
    ((c.handleFrames msgs).valueAt k).isSome = (c.valueAt k).isSome := by
  induction msgs generalizing c with
  | nil => rfl
  | cons m msgs ih => exact (ih (c.handleFrame m)).trans (isSome_valueAt_handleFrame c m k)

/-! ### Streams of one key each -/

section Names
variable {σ : ℕ → String} {n : ℕ} {c' : SodpClient} {msgs : List OutboundMsg}

def BoundBy (σ : ℕ → String) (n : ℕ) (c : SodpClient) : Prop :=
  ∀ streamId key, c.streamToKey.get? streamId = some key → streamId < n ∧ σ streamId = key

def NamedBy (σ : ℕ → String) (n : ℕ) : OutboundMsg → Prop
  | .stateInit streamId _ key .. => streamId < n ∧ σ streamId = key
  | _ => True

theorem BoundBy.handleFrame (h : c.BoundBy σ n) {m : OutboundMsg} (hm : NamedBy σ n m) :
    (c.handleFrame m).BoundBy σ n := by
  intro a k hk
  cases m with
  | stateInit =>
    rw [streamToKey_stateInit] at hk
    split_ifs at hk with ha
    · rw [ha.1, ← some.inj hk]
      exact hm
    · exact h a k hk
  | delta =>
    rw [streamToKey_delta] at hk
    exact h a k hk
  | _ => exact h a k hk

theorem BoundBy.handleFrames (h : c.BoundBy σ n) (hmsgs : ∀ m ∈ msgs, NamedBy σ n m) :
    (c.handleFrames msgs).BoundBy σ n := by
  induction msgs generalizing c with
  | nil => exact h
  | cons m msgs ih =>
    exact ih (h.handleFrame (hmsgs m mem_cons_self)) fun m' hm' =>
      hmsgs m' (mem_cons_of_mem m hm')

structure AgreeOn (σ : ℕ → String) (key : String) (c c' : SodpClient) : Prop where
  valueAt : c'.valueAt key = c.valueAt key
  bound : ∀ streamId, σ streamId = key → c'.streamToKey.get? streamId = c.streamToKey.get? streamId

section
variable (h : AgreeOn σ key c c')
include h

theorem AgreeOn.keyOf_iff (hc : c.BoundBy σ n) (hc' : c'.BoundBy σ n)
    (streamId : ℕ) : c'.keyOf streamId = some key ↔ c.keyOf streamId = some key := by
  by_cases hs : σ streamId = key
  · rw [SodpClient.keyOf, h.bound streamId hs, SodpClient.keyOf]
  · rw [SodpClient.keyOf, filter_eq_some_iff, SodpClient.keyOf, filter_eq_some_iff]
    constructor
    · intro hk
      exact absurd (hc' streamId key hk.1).2 hs
    · intro hk
      exact absurd (hc streamId key hk.1).2 hs

theorem AgreeOn.handleFrame (hc : c.BoundBy σ n) (hc' : c'.BoundBy σ n)
    {m : OutboundMsg} (hm : NamedBy σ n m) :
    AgreeOn σ key (c.handleFrame m) (c'.handleFrame m) := by
  cases m with
  | stateInit streamId seq k =>
    refine ⟨by rw [valueAt_stateInit, h.valueAt, valueAt_stateInit], fun a ha => ?_⟩
    rw [streamToKey_stateInit, streamToKey_stateInit, h.bound a ha]
    by_cases has : a = streamId
    · have hk : k = key := by rw [← hm.2, ← has, ha]
      rw [hk, h.valueAt]
    · simp [has]
  | delta =>
    refine ⟨?_, fun a ha => ?_⟩
    · rw [valueAt_delta, h.valueAt, valueAt_delta]
      simp only [h.keyOf_iff hc hc']
    · rw [streamToKey_delta, streamToKey_delta, h.bound a ha]
  | _ => exact h

theorem AgreeOn.handleFrames (hc : c.BoundBy σ n) (hc' : c'.BoundBy σ n)
    (hmsgs : ∀ m ∈ msgs, NamedBy σ n m) :
    AgreeOn σ key (c.handleFrames msgs) (c'.handleFrames msgs) := by
  induction msgs generalizing c c' with
  | nil => exact h
  | cons m msgs ih =>
    have hm := hmsgs m mem_cons_self
    exact ih (h.handleFrame hc hc' hm) (hc.handleFrame hm) (hc'.handleFrame hm) fun m' hm' =>
      hmsgs m' (mem_cons_of_mem m hm')

theorem AgreeOn.shows (hs : σ streamId = key)
    (hshows : c.Shows streamId key value) : c'.Shows streamId key value := by
  rw [shows_iff] at hshows ⊢
  rw [h.bound streamId hs, h.valueAt]
  exact hshows

end

end Names

/-! ### Frames about other keys -/

theorem Shows.stateInit_of_ne {streamId' : ℕ} {key' : String} (h : c.Shows streamId key value)
    (hs : streamId ≠ streamId') (hk : key ≠ key') (seq version : ℕ) (v : Value)
    (initialized : Bool) (params : Option Value) :
    (c.handleFrame (.stateInit streamId' seq key' version v initialized params)).Shows streamId key
      value := by
  rw [shows_iff] at h ⊢
  rw [streamToKey_stateInit, if_neg fun ha => hs ha.1, valueAt_stateInit, h.2]
  simp [h.1, hk]

theorem Shows.delta_of_ne {streamId' : ℕ} {key' : String} (h : c.Shows streamId key value)
    (hs : c.streamToKey.get? streamId' = some key') (hk : key ≠ key') (seq version : ℕ)
    (ops : List DeltaOp) :
    (c.handleFrame (.delta streamId' seq version ops)).Shows streamId key value := by
  rw [shows_iff] at h ⊢
  rw [streamToKey_delta, valueAt_delta, h.2]
  have hne : c.keyOf streamId' ≠ some key := by
    rw [SodpClient.keyOf, hs, ne_eq, filter_eq_some_iff]
    intro hkey
    exact hk (some.inj hkey.1).symm
  simp [h.1, hne]

end Sodp.Client.SodpClient
