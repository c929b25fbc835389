import Sodp.DeltaSoundness
import Sodp.StateStore

/-!
# Replaying deltas onto a newer document

The deltas of one key, from any point of its history on, are applied to the value the key has at
some later point. They may write into it, but only at places that a later delta overwrites, so the
replay ends in the last value. This needs keys that an op can carry and that leave arrays alone.
-/

namespace Sodp.Client
open Delta StateStore List

def deltas : Option Value → List (Option Value) → List (List DeltaOp)
  | _, [] => []
  | u, w :: rest => stepOps u w :: deltas w rest

theorem deltas_append (u : Option Value) (contents : List (Option Value)) (w : Option Value) :
    deltas u (contents ++ [w]) = deltas u contents ++ [stepOps (contents.getLastD u) w] := by
  induction contents generalizing u with
  | nil => rfl
  | cons v contents ih => rw [cons_append, deltas, ih, deltas, getLastD_cons]; rfl

def deltasFor (key : String) : StateStore → List Call → List (List DeltaOp)
  | _, [] => []
  | s, c :: calls =>
    (if c.key = key then [s.opsOf c] else []) ++ deltasFor key (s.exec c).1 calls

def contentsOf (key : String) (calls : List Call) : List (Option Value) :=
  (calls.filter fun c => c.key = key).map Call.value

theorem deltasFor_eq_deltas (key : String) (s : StateStore) (calls : List Call) :
    deltasFor key s calls = deltas ((s.get key).map StateEntry.value) (contentsOf key calls) := by
  induction calls generalizing s with
  | nil => rfl
  | cons c calls ih =>
    rw [deltasFor, ih, content_exec]
    by_cases hk : c.key = key
    · subst hk
      simp [contentsOf, deltas, opsOf_eq_stepOps]
    · simp [contentsOf, hk, Ne.symm hk]

def valuesOf (contents : List (Option Value)) : List Value := contents.map fun w => w.getD .null

theorem valuesOf_append (before after : List (Option Value)) :
    valuesOf (before ++ after) = valuesOf before ++ valuesOf after := map_append

theorem valueOf_execAll (key : String) (s : StateStore) (calls : List Call) :
    (s.execAll calls).valueOf key = (valuesOf (contentsOf key calls)).getLastD (s.valueOf key) := by
  induction calls generalizing s with
  | nil => rfl
  | cons c calls ih =>
    change ((s.exec c).1.execAll calls).valueOf key = _
    rw [ih, valueOf, content_exec]
    by_cases hk : c.key = key
    · subst hk
      rw [if_pos rfl, contentsOf, contentsOf, filter_cons_of_pos (by simp), map_cons,
        valuesOf, valuesOf, map_cons, getLastD_cons]
    · rw [if_neg (Ne.symm hk), contentsOf, contentsOf, filter_cons_of_neg (by simpa using hk),
        valueOf]

def replay (state : JsValue) (deltas : List (List DeltaOp)) : Except Fault JsValue :=
  deltas.foldlM applyOps state

theorem replay_cons (state : JsValue) (ops : List DeltaOp) (rest : List (List DeltaOp)) :
    replay state (ops :: rest) = (applyOps state ops).bind fun s => replay s rest := rfl

theorem replay_nonempty (state : JsValue) (deltas : List (List DeltaOp)) :
    replay state (deltas.filter fun ops => ops ≠ []) = replay state deltas := by
  induction deltas generalizing state with
  | nil => rfl
  | cons ops rest ih =>
    by_cases hops : ops = []
    · subst hops
      rw [filter_cons_of_neg (by simp), ih, replay_cons, applyOps_nil]
      rfl
    · rw [filter_cons_of_pos (by simpa using hops), replay_cons, replay_cons]
      simp only [ih]

theorem applyOps_stepOps {u w : Option Value}
    (h : ∀ old new, u = some old → w = some new → Addressable old new) :
    applyOps (.ofJson (u.getD .null)) (stepOps u w) = .ok (.ofJson (w.getD .null)) := by
  cases u with
  | none => cases w <;> rfl
  | some old =>
    cases w with
    | none => rfl
    | some new => exact applyOps_diff_of_addressable (h old new rfl rfl)

theorem replay_deltas {u : Option Value} {rest : List (Option Value)}
    (hu : (u.getD .null).AllKeys PlainKey) (hrest : ∀ w ∈ rest, (w.getD .null).AllKeys PlainKey) :
    replay (.ofJson (u.getD .null)) (deltas u rest) =
      .ok (.ofJson ((valuesOf rest).getLastD (u.getD .null))) := by
  induction rest generalizing u with
  | nil => rfl
  | cons w rest ih =>
    have hw := hrest w mem_cons_self
    have hstep : applyOps (.ofJson (u.getD .null)) (stepOps u w) =
        .ok (.ofJson (w.getD .null)) := by
      apply applyOps_stepOps
      intro old new ho hn
      rw [ho] at hu
      rw [hn] at hw
      exact addressable_of_plainKeys hu hw
    rw [deltas, replay_cons, hstep, valuesOf, map_cons, getLastD_cons]
    exact ih hw fun v hv => hrest v (mem_cons_of_mem w hv)

/-- A key that ops carry intact and that no array reacts to. -/
def ReplayKey (k : String) : Prop := PlainKey k ∧ k ≠ "length" ∧ k ≠ "-"

instance : DecidablePred ReplayKey := fun k =>
  inferInstanceAs (Decidable (PlainKey k ∧ k ≠ "length" ∧ k ≠ "-"))

theorem ReplayKey.harmless {k : String} (h : ReplayKey k) : Harmless k :=
  ⟨h.1.2.2, h.2.1, h.2.2⟩

section Along

theorem getLastD_append {α : Type*} (u : α) (before after : List α) :
    (before ++ after).getLastD u = after.getLastD (before.getLastD u) := by
  induction before generalizing u with
  | nil => rfl
  | cons w before ih => rw [cons_append, getLastD_cons, getLastD_cons, ih]

variable {u : Value} {s : JsValue} {rest : List Value}

theorem calmAlong_append {before after : List Value} {p : List String}
    (h : CalmAlong u (before ++ after) p) : CalmAlong (before.getLastD u) after p := by
  induction before generalizing u with
  | nil => exact h
  | cons w before ih =>
    rw [getLastD_cons]
    exact ih h.2

theorem calmAlong_initial {before after : List Value} {p : List String}
    (h : CalmAlong u (before ++ after) p) : CalmAlong u before p := by
  induction before generalizing u with
  | nil => trivial
  | cons w before ih => exact ⟨h.1, ih h.2⟩

theorem Tracks.extend (h : Tracks s u rest) (more : List Value) : Tracks s u (rest ++ more) := by
  intro p hp
  rw [getLastD_append]
  exact (h p (calmAlong_initial hp)).trans (tracks_self _ more p (calmAlong_append hp))

theorem tracks_later (u : Value) (before after : List Value) :
    Tracks (.ofJson (before.getLastD u)) u (before ++ after) := by
  intro p hp
  have h := tracks_self (before.getLastD u) after p (calmAlong_append hp)
  rw [getLastD_append]
  exact h

theorem applyOps_toOp_ok {cs : List Change} (haddr : ∀ c ∈ cs, Addressed c.keys)
    (hkeys : ∀ c ∈ cs, ∀ k ∈ c.keys, Harmless k) (s : JsValue) :
    ∃ s', applyOps s (cs.map (Change.toOp "/")) = .ok s' := by
  induction cs generalizing s with
  | nil => exact ⟨s, rfl⟩
  | cons c cs ih =>
    obtain ⟨s₁, hs₁⟩ := applyAt_ok c.kind (Change.content c) (hkeys c mem_cons_self) s
    rw [map_cons, applyOps_cons, applyOp_toOp (haddr c mem_cons_self), hs₁]
    exact ih (fun d hd => haddr d (mem_cons_of_mem c hd))
      (fun d hd => hkeys d (mem_cons_of_mem c hd)) s₁

theorem Tracks.diff_step {old new : Value} (h : Tracks s old (new :: rest))
    (ho : old.AllKeys ReplayKey) (hn : new.AllKeys ReplayKey) :
    ∃ s', applyOps s (diff old new) = .ok s' ∧ Tracks s' new rest := by
  have hkeys : ∀ c ∈ changes old new, ∀ k ∈ c.keys, ReplayKey k := by
    intro c hc
    exact (reports_of_mem hc).leaf.allKeys ho hn
  have haddr : ∀ c ∈ changes old new, Addressed c.keys := by
    intro c hc
    refine addressed_of_plain (fun k hk => (hkeys c hc k hk).1.2.1) fun hhead => ?_
    exact (hkeys c hc "" (mem_of_mem_head? hhead)).1.1 rfl
  have hown : ∀ c ∈ changes old new, c.keys.getLast? = some "__proto__" → c.after ≠ none →
      s.lookup c.keys ≠ none := by
    intro c hc hlast
    exact absurd rfl (hkeys c hc "__proto__" (mem_of_mem_getLast? hlast)).1.2.2
  obtain ⟨s', hs'⟩ := applyOps_toOp_ok haddr (fun c hc k hk => (hkeys c hc k hk).harmless) s
  rw [← diffAt_eq_changes, ← diff] at hs'
  exact ⟨s', hs', h.step haddr hown hs'⟩

/-- One step of a key's history moves a tracking document along: an op at the root
replaces the document, and a diff works place by place. -/
theorem Tracks.stepOps {u w : Option Value} (h : Tracks s (u.getD .null) (w.getD .null :: rest))
    (hu : (u.getD .null).AllKeys ReplayKey) (hw : (w.getD .null).AllKeys ReplayKey) :
    ∃ s', applyOps s (StateStore.stepOps u w) = .ok s' ∧ Tracks s' (w.getD .null) rest := by
  cases u with
  | none =>
    cases w with
    | none => exact h.diff_step hu hw
    | some new => exact ⟨.ofJson new, rfl, tracks_self new rest⟩
  | some =>
    cases w with
    | none => exact ⟨.ofJson .null, rfl, tracks_self .null rest⟩
    | some => exact h.diff_step hu hw

theorem replay_of_tracks {u : Option Value} {rest : List (Option Value)}
    (h : Tracks s (u.getD .null) (valuesOf rest)) (hu : (u.getD .null).AllKeys ReplayKey)
    (hrest : ∀ w ∈ rest, (w.getD .null).AllKeys ReplayKey) :
    replay s (deltas u rest) = .ok (.ofJson ((valuesOf rest).getLastD (u.getD .null))) := by
  induction rest generalizing s u with
  | nil =>
    rw [h.done]
    rfl
  | cons w rest ih =>
    have hw := hrest w mem_cons_self
    obtain ⟨_, hs', hnext⟩ := Tracks.stepOps h hu hw
    rw [deltas, replay_cons, hs', valuesOf, map_cons, getLastD_cons]
    exact ih hnext hw fun v hv => hrest v (mem_cons_of_mem w hv)

end Along

theorem replay_overlapping {s : StateStore} {key : String} {overlap rest : List Call}
    (hs : (s.valueOf key).AllKeys ReplayKey)
    (hcalls : ∀ v, Call.apply key v ∈ overlap ++ rest → v.AllKeys ReplayKey) :
    replay (.ofJson ((s.execAll overlap).valueOf key)) (deltasFor key s (overlap ++ rest)) =
      .ok (.ofJson ((s.execAll (overlap ++ rest)).valueOf key)) := by
  have happend : contentsOf key (overlap ++ rest) =
      contentsOf key overlap ++ contentsOf key rest := by
    simp [contentsOf]
  rw [valueOf_execAll, valueOf_execAll, deltasFor_eq_deltas, happend]
  refine replay_of_tracks ?_ hs fun w hw => ?_
  · rw [valuesOf_append]
    exact tracks_later _ _ _
  · rw [← happend, contentsOf, mem_map] at hw
    obtain ⟨c, hc, rfl⟩ := hw
    rw [mem_filter] at hc
    cases c with
    | apply k v =>
      obtain rfl : k = key := of_decide_eq_true hc.2
      exact hcalls v hc.1
    | delete => trivial

def emptyAtX : StateStore := (StateStore.new.exec (.apply "x" (.object .empty))).1

theorem replay_singleton (state : JsValue) (ops : List DeltaOp) :
    replay state [ops] = applyOps state ops := by
  rw [replay_cons]
  cases applyOps state ops <;> rfl

theorem applyOps_array_length :
    applyOps (.ofJson (.array [])) (diff (.object .empty) (single "length" (.object .empty))) =
      .error .invalidArrayLength := by
  decide +kernel

theorem applyOps_array_full {xs : List Value} (h : xs.length = maxArrayLength) :
    applyOps (.ofJson (.array xs)) (diff (.object .empty) (single "-" .null)) =
      .error .invalidArrayLength := by
  have hparse : parsePath (joinPath "/" "-") = ["-"] := by decide
  rw [diff_empty_single, applyOps_cons, applyOp, DeltaOp.add, hparse]
  simp [JsValue.ofJson, applyAt, orContainer, JsValue.isContainer, applyParts, applyLast, push,
    JsValue.length_ofJsonList, h, Except.bind]

/-- Over a set of keys every overlapping replay arrives exactly when no key is empty
or holds a slash, and none is `__proto__`, `length` or `-`. The calls start from
any store, so any point of a history can be the first one replayed. -/
theorem replay_overlapping_iff (keys : Set String) :
    (∀ (s : StateStore) (key : String) (overlap rest : List Call),
      (s.valueOf key).AllKeys (· ∈ keys) →
      (∀ v, Call.apply key v ∈ overlap ++ rest → v.AllKeys (· ∈ keys)) →
      replay (.ofJson ((s.execAll overlap).valueOf key)) (deltasFor key s (overlap ++ rest)) =
        .ok (.ofJson ((s.execAll (overlap ++ rest)).valueOf key))) ↔ ∀ k ∈ keys, ReplayKey k := by
  constructor
  · intro h k hk
    have hempty : (Value.object .empty).AllKeys (· ∈ keys) := by
      simp [Value.AllKeys, OrderedMap.empty]
    have hsingle : ∀ v : Value, v.AllKeys (· ∈ keys) → (single k v).AllKeys (· ∈ keys) := by
      intro v hv j
      rw [mem_singleton.mp j.2]
      exact ⟨hk, hv⟩
    have hnoFault : ∀ (v : Value) (xs : List Value) (f : Fault), v.AllKeys (· ∈ keys) →
        applyOps (.ofJson (.array xs)) (diff (.object .empty) (single k v)) ≠ .error f := by
      intro v xs f hv hfault
      have hrun := h emptyAtX "x" [.apply "x" (single k v), .apply "x" (.array xs)] [] hempty (by
        intro w hw
        rcases mem_cons.mp hw with hw | hw
        · obtain rfl : w = single k v := (Call.apply.inj hw).2
          exact hsingle v hv
        · obtain rfl : w = .array xs := (Call.apply.inj (mem_singleton.mp hw)).2
          trivial)
      rw [deltasFor_eq_deltas] at hrun
      change replay (.ofJson (.array xs)) [diff (.object .empty) (single k v), _] = _ at hrun
      rw [replay_cons, hfault] at hrun
      simp [Except.bind] at hrun
    refine ⟨?_, ?_, ?_⟩
    · by_contra hplain
      have hrun := h emptyAtX "x" [] [.apply "x" (single k .null)] hempty (by
        intro v hv
        obtain rfl : v = single k .null := by simpa using hv
        exact hsingle _ trivial)
      rw [deltasFor_eq_deltas] at hrun
      change replay _ [diff (.object .empty) (single k .null)] =
        .ok (.ofJson (single k .null)) at hrun
      rw [replay_singleton] at hrun
      exact applyOps_diff_single_ne hplain hrun
    · intro hlength
      subst hlength
      exact hnoFault _ [] _ hempty applyOps_array_length
    · intro hdash
      subst hdash
      exact hnoFault .null (List.replicate maxArrayLength .null) _ trivial
        (applyOps_array_full length_replicate)
  · intro h s key overlap rest hs hcalls
    exact replay_overlapping (hs.mono h) fun v hv => (hcalls v hv).mono h

/-- A replayed `__proto__` never arrives, and a replayed `length` stops at the array
that came later. -/
theorem replay_overlapping_fails : replay (.ofJson (emptyAtX.valueOf "x"))
        (deltasFor "x" emptyAtX [.apply "x" (single "__proto__" .null)]) =
      .ok (.ofJson (.object .empty)) ∧
    (emptyAtX.execAll [.apply "x" (single "__proto__" .null)]).valueOf "x" =
      single "__proto__" .null ∧ (emptyAtX.execAll [.apply "x" (single "length" (.object .empty)),
      .apply "x" (.array [])]).valueOf "x" = .array [] ∧ replay (.ofJson (.array []))
        (deltasFor "x" emptyAtX
          [.apply "x" (single "length" (.object .empty)), .apply "x" (.array [])]) =
      .error .invalidArrayLength := by
  decide +kernel

end Sodp.Client
