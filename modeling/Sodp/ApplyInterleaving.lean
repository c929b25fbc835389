import Mathlib.Order.Bounds.Basic
import Sodp.Replay
import Sodp.Transition

/-!
# Concurrent writes to one key

An `apply` is four atomic steps: draw a version, compare with the stored entry, store the new
entry, append the delta to the key's log. Nothing orders the steps of different writers. The
writes are serialised when each writer compares only after every smaller version is stored, and
appends only after every smaller version has nothing left to append.
-/

namespace Sodp.StateStore
open Delta Client DeltaLog Function Transition List Option

inductive Phase where
  | start
  | drawn (version : ℕ)
  | compared (version : ℕ) (ops : List DeltaOp)
  | stored (version : ℕ) (ops : List DeltaOp)
  | finished (version : ℕ) (ops : List DeltaOp)
deriving DecidableEq

namespace Phase

def version? : Phase → Option ℕ
  | start => none
  | drawn version | compared version _ | stored version _ | finished version _ => some version

def ops : Phase → List DeltaOp
  | compared _ ops | stored _ ops | finished _ ops => ops
  | _ => []

def hasCompared : Phase → Bool
  | compared _ _ | stored _ _ | finished _ _ => true
  | _ => false

def hasStored : Phase → Bool
  | stored _ _ | finished _ _ => true
  | _ => false

def hasFinished : Phase → Bool
  | finished _ _ => true
  | _ => false

end Phase

structure Writers (n : ℕ) where
  store : StateStore
  phase : Fin n → Phase

namespace Writers
variable {n : ℕ}

def begin (store : StateStore) : Writers n := ⟨store, fun _ => .start⟩

def step (key : String) (values : Fin n → Value) (c : Writers n) (i : Fin n) : Option (Writers n) :=
  match c.phase i with
  | .start =>
    some ⟨c.store.fetchAdd, update c.phase i (.drawn (c.store.globalVersion + 1))⟩
  | .drawn version =>
    some ⟨c.store, update c.phase i (.compared version (c.store.opsFor key (values i)))⟩
  | .compared version ops =>
    some ⟨c.store.insertEntry key version (values i), update c.phase i (.stored version ops)⟩
  | .stored version ops =>
    some ⟨if ops.isEmpty then c.store else c.store.logDelta key version ops,
      update c.phase i (.finished version ops)⟩
  | .finished _ _ => none

/-- The writer compares after every smaller version is stored, and appends after
every smaller version has nothing left to append, to a log that is not full. -/
def InTurn (key : String) (c : Writers n) (i : Fin n) : Prop :=
  match c.phase i with
  | .drawn version =>
    ∀ j, ∀ w ∈ (c.phase j).version?, w < version → (c.phase j).hasStored = true
  | .stored version ops => ops ≠ [] →
    (c.store.log.held key).length < maxDeltaLogEntriesPerKey ∧
    ∀ j, ∀ w ∈ (c.phase j).version?, w < version →
      (c.phase j).hasFinished = true ∨ (c.phase j).ops = []
  | _ => True

instance decidableInTurn (key : String) (c : Writers n) (i : Fin n) :
    Decidable (InTurn key c i) := by
  unfold InTurn
  split <;> infer_instance

structure Ordered (initial : StateStore) (c : Writers n) : Prop where
  counter : initial.globalVersion ≤ c.store.globalVersion
  issued : ∀ i v, (c.phase i).version? = some v →
    initial.globalVersion < v ∧ v ≤ c.store.globalVersion
  distinct : ∀ i j v, (c.phase i).version? = some v → (c.phase j).version? = some v → i = j
  below : ∀ i v, (c.phase i).hasCompared = true → (c.phase i).version? = some v →
    ∀ j w, (c.phase j).version? = some w → w < v → (c.phase j).hasStored = true

structure Slot (n : ℕ) where
  writer : Fin n
  version : ℕ
  ops : List DeltaOp
  logged : Bool

def Slot.phase (slot : Slot n) : Phase :=
  if slot.logged then .finished slot.version slot.ops else .stored slot.version slot.ops

theorem Slot.phase_stored (slot : Slot n) :
    slot.phase.version? = some slot.version ∧ slot.phase.hasStored = true ∧
      slot.phase.hasCompared = true ∧ slot.phase.ops = slot.ops ∧
      slot.phase.hasFinished = slot.logged := by
  rw [phase]
  cases slot.logged <;> exact ⟨rfl, rfl, rfl, rfl, rfl⟩

def Slot.inLog (slot : Slot n) : Bool := slot.logged && !slot.ops.isEmpty

/-- What serialised writers have done so far. The slots are those that have stored,
in version order; entry, deltas and log line up along them. -/
structure Serial (key : String) (values : Fin n → Value) (initial : StateStore) (c : Writers n)
    (line : List (Slot n)) : Prop where
  ordered : Ordered initial c
  slots : ∀ slot ∈ line, c.phase slot.writer = slot.phase
  covered : ∀ i, (c.phase i).hasStored = true → ∃ slot ∈ line, slot.writer = i
  sorted : (line.map Slot.version).Pairwise (· < ·)
  entry : c.store.get key =
    (line.map fun slot => (⟨slot.version, values slot.writer⟩ : StateEntry)).getLast?.or
      (initial.get key)
  ops : line.map Slot.ops = deltas ((initial.get key).map StateEntry.value)
    (line.map fun slot => some (values slot.writer))
  compared : ∀ i version ops, c.phase i = .compared version ops →
    ops = c.store.opsFor key (values i)
  held : c.store.log.held key = initial.log.held key ++
    (line.filter Slot.inLog).map fun slot => (slot.version, slot.ops)
  first : ∀ a ∈ line, ∀ b ∈ line, a.inLog = true → b.logged = false → b.ops ≠ [] →
    a.version < b.version

section Steps
variable {key : String} {values : Fin n → Value} {initial : StateStore} {c c' : Writers n}
  {i : Fin n}

theorem step_cases (h : step key values c i = some c') : (∀ j, j ≠ i → c'.phase j = c.phase j) ∧
    ((c.phase i = .start ∧ c'.phase i = .drawn (c.store.globalVersion + 1) ∧
        c'.store = c.store.fetchAdd) ∨ (∃ version, c.phase i = .drawn version ∧
        c'.phase i = .compared version (c.store.opsFor key (values i)) ∧ c'.store = c.store) ∨
      (∃ version ops, c.phase i = .compared version ops ∧ c'.phase i = .stored version ops ∧
        c'.store = c.store.insertEntry key version (values i)) ∨
      ∃ version ops, c.phase i = .stored version ops ∧ c'.phase i = .finished version ops ∧
        c'.store = if ops.isEmpty then c.store else c.store.logDelta key version ops) := by
  rw [step] at h
  cases hi : c.phase i with
  | start =>
    rw [hi] at h
    cases h
    exact ⟨fun j hj => update_of_ne hj _ _, .inl ⟨rfl, update_self _ _ _, rfl⟩⟩
  | drawn version =>
    rw [hi] at h
    cases h
    exact ⟨fun j hj => update_of_ne hj _ _, .inr (.inl ⟨version, rfl, update_self _ _ _, rfl⟩)⟩
  | compared version ops =>
    rw [hi] at h
    cases h
    exact ⟨fun j hj => update_of_ne hj _ _,
      .inr (.inr (.inl ⟨version, ops, rfl, update_self _ _ _, rfl⟩))⟩
  | stored version ops =>
    rw [hi] at h
    cases h
    exact ⟨fun j hj => update_of_ne hj _ _,
      .inr (.inr (.inr ⟨version, ops, rfl, update_self _ _ _, rfl⟩))⟩
  | finished => simp [hi] at h

/-- A writer left alone computes `apply`. -/
theorem run_alone (c : Writers n) (hi : c.phase i = .start) (hplog : c.store.plog = none) :
    ∃ c', run (step key values) c [i, i, i, i] = some c' ∧
      c'.store = (c.store.apply key (values i)).1 ∧
      c'.phase i = .finished (c.store.apply key (values i)).2.1
        (c.store.apply key (values i)).2.2 := by
  have hops : c.store.fetchAdd.opsFor key (values i) = c.store.opsFor key (values i) := rfl
  simp only [run, foldlM_cons, foldlM_nil, step, hi, update_self, bind_eq_bind, bind_some, hops]
  refine ⟨_, rfl, ?_, update_self _ _ _⟩
  rw [apply]
  split_ifs
  · rfl
  · rw [persist_of_ephemeral (by exact hplog)]

theorem Ordered.draw (h : Ordered initial c) (hsame : ∀ j, j ≠ i → c'.phase j = c.phase j)
    (hi : c'.phase i = .drawn (c.store.globalVersion + 1))
    (hstore : c'.store = c.store.fetchAdd) : Ordered initial c' := by
  have hglobal : c'.store.globalVersion = c.store.globalVersion + 1 := by
    rw [hstore]
    rfl
  have hcounter := h.counter
  have hversion : ∀ j v, (c'.phase j).version? = some v →
      (j = i ∧ v = c.store.globalVersion + 1) ∨ (j ≠ i ∧ (c.phase j).version? = some v) := by
    intro j v hv
    by_cases hj : j = i
    · rw [hj, hi] at hv
      exact .inl ⟨hj, (some.inj hv).symm⟩
    · rw [hsame j hj] at hv
      exact .inr ⟨hj, hv⟩
  refine ⟨by omega, ?_, ?_, ?_⟩
  · intro j v hv
    rcases hversion j v hv with ⟨-, hv⟩ | ⟨-, hv⟩
    · omega
    · have hv := h.issued j v hv
      omega
  · intro j k v hj hk
    rcases hversion j v hj with ⟨hj, hv⟩ | ⟨-, hj⟩
    · rcases hversion k v hk with ⟨hk, -⟩ | ⟨-, hk⟩
      · rw [hj, hk]
      · have hk := h.issued k v hk
        omega
    · rcases hversion k v hk with ⟨-, hv⟩ | ⟨-, hk⟩
      · have hj := h.issued j v hj
        omega
      · exact h.distinct j k v hj hk
  · intro j v hcompared hv k w hw hlt
    rcases hversion j v hv with ⟨hj, -⟩ | ⟨hj, hv⟩
    · rw [hj, hi] at hcompared
      exact absurd hcompared Bool.false_ne_true
    · rw [hsame j hj] at hcompared
      rcases hversion k w hw with ⟨-, hw⟩ | ⟨hk, hw⟩
      · have hv := h.issued j v hv
        omega
      · rw [hsame k hk]
        exact h.below j v hcompared hv k w hw hlt

theorem Ordered.advance (h : Ordered initial c) (hsame : ∀ j, j ≠ i → c'.phase j = c.phase j)
    (hversion : (c'.phase i).version? = (c.phase i).version?)
    (hglobal : c'.store.globalVersion = c.store.globalVersion)
    (hstored : (c.phase i).hasStored = true → (c'.phase i).hasStored = true)
    (hcompared : (c.phase i).hasCompared = true ∨ ∀ v, (c.phase i).version? = some v →
      ∀ k w, (c.phase k).version? = some w → w < v → (c.phase k).hasStored = true) :
    Ordered initial c' := by
  have hversions : ∀ j, (c'.phase j).version? = (c.phase j).version? := by
    intro j
    by_cases hj : j = i
    · rw [hj, hversion]
    · rw [hsame j hj]
  refine ⟨by rw [hglobal]; exact h.counter, ?_, ?_, ?_⟩
  · intro j v hv
    rw [hversions] at hv
    rw [hglobal]
    exact h.issued j v hv
  · intro j k v hj hk
    rw [hversions] at hj hk
    exact h.distinct j k v hj hk
  · intro j v hcmp hv k w hw hlt
    rw [hversions] at hv hw
    have hold : (c.phase k).hasStored = true := by
      by_cases hj : j = i
      · subst hj
        rcases hcompared with hcompared | hcompared
        · exact h.below j v hcompared hv k w hw hlt
        · exact hcompared v hv k w hw hlt
      · rw [hsame j hj] at hcmp
        exact h.below j v hcmp hv k w hw hlt
    by_cases hk : k = i
    · rw [hk] at hold ⊢
      exact hstored hold
    · rw [hsame k hk]
      exact hold

theorem Serial.begin (key : String) (values : Fin n → Value) (store : StateStore) :
    Serial key values store (Writers.begin store) [] := by
  refine ⟨⟨le_refl _, ?_, ?_, ?_⟩, ?_, ?_, List.Pairwise.nil, ?_, rfl, ?_, ?_, ?_⟩
  · intro i v hv
    simp [Writers.begin, Phase.version?] at hv
  · intro i j v hv
    simp [Writers.begin, Phase.version?] at hv
  · intro i v hi
    simp [Writers.begin, Phase.hasCompared] at hi
  · intro slot hslot
    exact absurd hslot not_mem_nil
  · intro i hi
    simp [Writers.begin, Phase.hasStored] at hi
  · simp [Writers.begin]
  · intro i version ops hi
    simp [Writers.begin] at hi
  · simp [Writers.begin]
  · intro a ha
    exact absurd ha not_mem_nil

variable {line : List (Slot n)} {slot : Slot n}

theorem Serial.writer_ne (h : Serial key values initial c line)
    (hi : (c.phase i).hasStored = false) (hslot : slot ∈ line) :
    slot.writer ≠ i := by
  rintro rfl
  rw [h.slots slot hslot, slot.phase_stored.2.1] at hi
  exact Bool.noConfusion hi

theorem Serial.draw (h : Serial key values initial c line)
    (hsame : ∀ j, j ≠ i → c'.phase j = c.phase j) (hi : c.phase i = .start)
    (hi' : c'.phase i = .drawn (c.store.globalVersion + 1))
    (hstore : c'.store = c.store.fetchAdd) : Serial key values initial c' line := by
  have hnot : (c.phase i).hasStored = false := by rw [hi]; rfl
  have hget : c'.store.get key = c.store.get key := by rw [hstore]; rfl
  refine ⟨h.ordered.draw hsame hi' hstore, ?_, ?_, h.sorted, hget ▸ h.entry, h.ops, ?_, ?_, h.first⟩
  · intro slot hslot
    rw [hsame _ (h.writer_ne hnot hslot)]
    exact h.slots slot hslot
  · intro j hj
    by_cases hji : j = i
    · rw [hji, hi'] at hj
      simp [Phase.hasStored] at hj
    · rw [hsame j hji] at hj
      exact h.covered j hj
  · intro j version ops hj
    by_cases hji : j = i
    · rw [hji, hi'] at hj
      simp at hj
    · rw [hsame j hji] at hj
      rw [h.compared j version ops hj, hstore]
      rfl
  · rw [hstore]
    exact h.held

variable {version : ℕ} {ops : List DeltaOp}

section
variable (h : Serial key values initial c line)
include h

theorem Serial.compare
    (hsame : ∀ j, j ≠ i → c'.phase j = c.phase j) (hi : c.phase i = .drawn version)
    (hi' : c'.phase i = .compared version (c.store.opsFor key (values i)))
    (hstore : c'.store = c.store)
    (hturn : ∀ j w, (c.phase j).version? = some w → w < version → (c.phase j).hasStored = true) :
    Serial key values initial c' line := by
  have hnot : (c.phase i).hasStored = false := by rw [hi]; rfl
  refine ⟨?_, ?_, ?_, h.sorted, hstore ▸ h.entry, h.ops, ?_, hstore ▸ h.held, h.first⟩
  · refine h.ordered.advance hsame (by rw [hi, hi']; rfl) (by rw [hstore]) (fun hstored => ?_)
      (.inr fun v hv => ?_)
    · rw [hnot] at hstored
      exact absurd hstored Bool.false_ne_true
    · rw [hi] at hv
      obtain rfl : version = v := some.inj hv
      exact hturn
  · intro slot hslot
    rw [hsame _ (h.writer_ne hnot hslot)]
    exact h.slots slot hslot
  · intro j hj
    by_cases hji : j = i
    · rw [hji, hi'] at hj
      simp [Phase.hasStored] at hj
    · rw [hsame j hji] at hj
      exact h.covered j hj
  · intro j w ops hj
    by_cases hji : j = i
    · rw [hji, hi', Phase.compared.injEq] at hj
      rw [← hj.2, hstore, hji]
    · rw [hsame j hji] at hj
      rw [h.compared j w ops hj, hstore]

theorem Serial.version_lt
    (hi : c.phase i = .compared version ops) (hslot : slot ∈ line) :
    slot.version < version := by
  have hnot : (c.phase i).hasStored = false := by rw [hi]; rfl
  obtain ⟨hver, -, hcompared, -, -⟩ := slot.phase_stored
  rw [← h.slots slot hslot] at hver hcompared
  have hiver : (c.phase i).version? = some version := by rw [hi]; rfl
  rcases lt_trichotomy slot.version version with hlt | heq | hgt
  · exact hlt
  · rw [heq] at hver
    exact absurd (h.ordered.distinct _ _ _ hver hiver) (h.writer_ne hnot hslot)
  · have hstored := h.ordered.below _ _ hcompared hver i version hiver hgt
    rw [hnot] at hstored
    exact absurd hstored Bool.false_ne_true

theorem Serial.content :
    (line.map fun slot => some (values slot.writer)).getLastD
      ((initial.get key).map StateEntry.value) = (c.store.get key).map StateEntry.value := by
  rw [h.entry]
  rcases eq_nil_or_concat line with hnil | ⟨_, _, hlast⟩
  · simp [hnil]
  · simp [hlast]

theorem Serial.store
    (hsame : ∀ j, j ≠ i → c'.phase j = c.phase j) (hi : c.phase i = .compared version ops)
    (hi' : c'.phase i = .stored version ops)
    (hstore : c'.store = c.store.insertEntry key version (values i)) :
    Serial key values initial c' (line ++ [⟨i, version, ops, false⟩]) := by
  have hnot : (c.phase i).hasStored = false := by rw [hi]; rfl
  have hlt : ∀ slot ∈ line, slot.version < version := fun _ hslot => h.version_lt hi hslot
  have hiver : (c.phase i).version? = some version := by rw [hi]; rfl
  have hicmp : (c.phase i).hasCompared = true := by rw [hi]; rfl
  refine ⟨?_, ?_, ?_, ?_, ?_, ?_, ?_, ?_, ?_⟩
  · exact h.ordered.advance hsame (by rw [hi, hi']; rfl) (by rw [hstore]; rfl)
      (fun _ => by rw [hi']; rfl) (.inl hicmp)
  · intro slot hslot
    rcases mem_append.mp hslot with hslot | hslot
    · rw [hsame _ (h.writer_ne hnot hslot)]
      exact h.slots slot hslot
    · rw [mem_singleton.mp hslot]
      exact hi'
  · intro j hj
    by_cases hji : j = i
    · exact ⟨_, mem_append_right _ mem_cons_self, hji.symm⟩
    · rw [hsame j hji] at hj
      obtain ⟨slot, hslot, hw⟩ := h.covered j hj
      exact ⟨slot, mem_append_left _ hslot, hw⟩
  · rw [map_append, pairwise_append]
    refine ⟨h.sorted, pairwise_singleton _ _, fun a ha b hb => ?_⟩
    obtain ⟨slot, hslot, rfl⟩ := mem_map.mp ha
    rw [map_singleton, mem_singleton] at hb
    rw [hb]
    exact hlt slot hslot
  · rw [hstore, map_append, map_singleton, getLast?_concat]
    exact OrderedMap.get?_insert_self ..
  · rw [map_append, map_append, map_singleton, map_singleton, deltas_append,
      h.ops, h.content, ← opsFor_eq_stepOps, ← h.compared i version ops hi]
  · -- Two writers cannot both have compared without one of them having stored.
    intro j w more hj
    by_cases hji : j = i
    · rw [hji, hi'] at hj
      simp at hj
    · rw [hsame j hji] at hj
      have hjver : (c.phase j).version? = some w := by rw [hj]; rfl
      have hjcmp : (c.phase j).hasCompared = true := by rw [hj]; rfl
      have hjnot : (c.phase j).hasStored = false := by rw [hj]; rfl
      rcases lt_trichotomy w version with hwlt | heq | hgt
      · have hstored := h.ordered.below i version hicmp hiver j w hjver hwlt
        rw [hjnot] at hstored
        exact absurd hstored Bool.false_ne_true
      · rw [heq] at hjver
        exact absurd (h.ordered.distinct j i version hjver hiver) hji
      · have hstored := h.ordered.below j w hjcmp hjver i version hiver hgt
        rw [hnot] at hstored
        exact absurd hstored Bool.false_ne_true
  · rw [hstore, filter_append]
    change c.store.log.held key = _
    rw [h.held]
    simp [Slot.inLog]
  · intro a ha b hb hin hpending hops
    rcases mem_append.mp ha with ha | ha
    · rcases mem_append.mp hb with hb | hb
      · exact h.first a ha b hb hin hpending hops
      · rw [mem_singleton.mp hb]
        exact hlt a ha
    · rw [mem_singleton.mp ha] at hin
      simp [Slot.inLog] at hin

theorem Serial.slot_of_stored
    (hi : c.phase i = .stored version ops) : (⟨i, version, ops, false⟩ : Slot n) ∈ line := by
  obtain ⟨slot, hslot, rfl⟩ := h.covered i (by rw [hi]; rfl)
  have hphase := h.slots slot hslot
  rw [hi, Slot.phase] at hphase
  split_ifs at hphase with hlogged
  · obtain ⟨_, _, _, logged⟩ := slot
    rw [Phase.stored.injEq] at hphase
    obtain rfl : logged = false := by simpa using hlogged
    rw [hphase.1, hphase.2]
    exact hslot

end

section Logging
variable {version : ℕ} {ops : List DeltaOp} {before after : List (Slot n)}

section
variable (h : Serial key values initial c (before ++ ⟨i, version, ops, false⟩ :: after))
include h

theorem Serial.around :
    (∀ slot ∈ before, slot.version < version) ∧ ∀ slot ∈ after, version < slot.version := by
  have hsorted := h.sorted
  rw [map_append, map_cons, pairwise_append, pairwise_cons] at hsorted
  exact ⟨fun slot hslot => hsorted.2.2 _ (mem_map_of_mem hslot) _ mem_cons_self,
    fun slot hslot => hsorted.2.1.1 _ (mem_map_of_mem hslot)⟩

theorem Serial.writer_ne_of_around (hslot : slot ∈ before ++ after) : slot.writer ≠ i := by
  rintro rfl
  have hself := h.slots _ (mem_append_right before mem_cons_self)
  have hother := h.slots slot (perm_middle.mem_iff.mpr (mem_cons_of_mem _ hslot))
  have hversion := slot.phase_stored.1
  rw [← hother, hself] at hversion
  have hsame : version = slot.version := some.inj hversion
  rcases mem_append.mp hslot with hslot | hslot
  · exact absurd hsame (ne_of_gt (h.around.1 slot hslot))
  · exact absurd hsame (ne_of_lt (h.around.2 slot hslot))

theorem Serial.held_log
    (hops : ops ≠ []) (hroom : (c.store.log.held key).length < maxDeltaLogEntriesPerKey) :
    (c.store.logDelta key version ops).log.held key = initial.log.held key ++
      ((before ++ ⟨i, version, ops, true⟩ :: after).filter Slot.inLog).map fun slot =>
        (slot.version, slot.ops) := by
  have hnone : after.filter Slot.inLog = [] := by
    rw [filter_eq_nil_iff]
    intro slot hslot hin
    have hfirst := h.first slot (mem_append_right _ (mem_cons_of_mem _ hslot))
      ⟨i, version, ops, false⟩ (mem_append_right _ mem_cons_self) hin rfl hops
    exact absurd hfirst (not_lt.mpr (h.around.2 slot hslot).le)
  have hheld := h.held
  rw [filter_append, filter_cons_of_neg (by simp [Slot.inLog]), hnone, append_nil] at hheld
  rw [filter_append, filter_cons_of_pos (by simp [Slot.inLog, hops]), hnone,
    map_append, map_singleton]
  change (c.store.log.append key version ops).held key = _
  rw [held_append_self, hheld, StampedLog.rtake_of_length_le, append_assoc]
  rw [hheld] at hroom
  rw [length_append, length_singleton]
  exact hroom

theorem Serial.first_log
    (hturn : ops ≠ [] → ∀ j w, (c.phase j).version? = some w → w < version →
      (c.phase j).hasFinished = true ∨ (c.phase j).ops = [])
    {a b : Slot n} (ha : a ∈ before ++ ⟨i, version, ops, true⟩ :: after)
    (hb : b ∈ before ++ ⟨i, version, ops, true⟩ :: after) (hin : a.inLog = true)
    (hpending : b.logged = false) (hops : b.ops ≠ []) : a.version < b.version := by
  have hold : ∀ slot ∈ before ++ after, slot ∈ before ++ ⟨i, version, ops, false⟩ :: after :=
    fun slot hslot => perm_middle.mem_iff.mpr (mem_cons_of_mem _ hslot)
  rcases mem_cons.mp (perm_middle.mem_iff.mp hb) with rfl | hb
  · exact absurd hpending Bool.noConfusion
  · rcases mem_cons.mp (perm_middle.mem_iff.mp ha) with rfl | ha
    · have hne : ops ≠ [] := by
        rintro rfl
        simp [Slot.inLog] at hin
      rcases mem_append.mp hb with hbefore | hafter
      · -- A smaller version with a pending delta would have kept the writer waiting.
        obtain ⟨hver, -, -, hsops, hfin⟩ := b.phase_stored
        rw [← h.slots b (hold b hb)] at hver hsops hfin
        rcases hturn hne _ _ hver (h.around.1 b hbefore) with hfinished | hempty
        · rw [hfin, hpending] at hfinished
          exact absurd hfinished Bool.false_ne_true
        · rw [hsops] at hempty
          exact absurd hempty hops
      · exact h.around.2 b hafter
    · exact h.first a (hold a ha) b (hold b hb) hin hpending hops

end

theorem Serial.log (h : Serial key values initial c line)
    (hsame : ∀ j, j ≠ i → c'.phase j = c.phase j) (hi : c.phase i = .stored version ops)
    (hi' : c'.phase i = .finished version ops)
    (hstore : c'.store = if ops.isEmpty then c.store else c.store.logDelta key version ops)
    (hturn : ops ≠ [] → (c.store.log.held key).length < maxDeltaLogEntriesPerKey ∧
      ∀ j w, (c.phase j).version? = some w → w < version →
        (c.phase j).hasFinished = true ∨ (c.phase j).ops = []) :
    ∃ line', Serial key values initial c' line' := by
  obtain ⟨before, after, rfl⟩ := append_of_mem (h.slot_of_stored hi)
  have hentries : c'.store.entries = c.store.entries := by
    rw [hstore]
    split_ifs <;> rfl
  refine ⟨before ++ ⟨i, version, ops, true⟩ :: after, ?_, ?_, ?_, ?_, ?_, ?_, ?_, ?_, ?_⟩
  · refine h.ordered.advance hsame (by rw [hi, hi']; rfl) ?_ (fun _ => by rw [hi']; rfl)
      (.inl (by rw [hi]; rfl))
    rw [hstore]
    split_ifs <;> rfl
  · intro slot hslot
    rcases mem_cons.mp (perm_middle.mem_iff.mp hslot) with rfl | hslot
    · exact hi'
    · rw [hsame _ (h.writer_ne_of_around hslot)]
      exact h.slots slot (perm_middle.mem_iff.mpr (mem_cons_of_mem _ hslot))
  · intro j hj
    by_cases hji : j = i
    · exact ⟨_, mem_append_right _ mem_cons_self, hji.symm⟩
    · rw [hsame j hji] at hj
      obtain ⟨slot, hslot, rfl⟩ := h.covered j hj
      rcases mem_cons.mp (perm_middle.mem_iff.mp hslot) with rfl | hslot
      · exact absurd rfl hji
      · exact ⟨slot, perm_middle.mem_iff.mpr (mem_cons_of_mem _ hslot), rfl⟩
  · simpa using h.sorted
  · have hentry := h.entry
    rw [StateStore.get, map_append, map_cons] at hentry
    rw [StateStore.get, hentries, hentry, map_append, map_cons]
  · have hops := h.ops
    rw [map_append, map_append, map_cons, map_cons] at hops
    rw [map_append, map_append, map_cons, map_cons, hops]
  · intro j w more hj
    by_cases hji : j = i
    · rw [hji, hi'] at hj
      simp at hj
    · rw [hsame j hji] at hj
      rw [h.compared j w more hj, opsFor, opsFor, hentries]
  · rw [hstore]
    by_cases hops : ops = []
    · rw [if_pos (by simpa using hops), h.held, filter_append, filter_append,
        filter_cons_of_neg (by simp [Slot.inLog]), filter_cons_of_neg (by simp [Slot.inLog, hops])]
    · rw [if_neg (by simpa using hops)]
      exact h.held_log hops (hturn hops).1
  · intro a ha b hb
    exact h.first_log (fun hops => (hturn hops).2) ha hb

end Logging

theorem Serial.step (h : Serial key values initial c line) (hturn : InTurn key c i)
    (hstep : step key values c i = some c') : ∃ line', Serial key values initial c' line' := by
  obtain ⟨hsame, hcase⟩ := step_cases hstep
  rw [InTurn] at hturn
  rcases hcase with ⟨hi, hi', hstore⟩ | ⟨v, hi, hi', hstore⟩ | ⟨v, ops, hi, hi', hstore⟩ |
    ⟨v, ops, hi, hi', hstore⟩
  · exact ⟨line, h.draw hsame hi hi' hstore⟩
  · rw [hi] at hturn
    exact ⟨line, h.compare hsame hi hi' hstore hturn⟩
  · exact ⟨_, h.store hsame hi hi' hstore⟩
  · rw [hi] at hturn
    exact h.log hsame hi hi' hstore hturn

theorem serial_run {schedule : List (Fin n)}
    (hrun : run (step key values) (begin initial) schedule = some c)
    (hturn : Transition.Along (step key values) (InTurn key) (begin initial) schedule) :
    ∃ line, Serial key values initial c line := by
  refine invariant_along (I := fun c => ∃ line, Serial key values initial c line) ?_
    ⟨[], Serial.begin key values initial⟩ hturn hrun
  intro s e t hs hok hstep
  obtain ⟨line, hline⟩ := hs
  exact hline.step hok hstep

end Steps

def DeltasInOrder (store : StateStore) (key : String) : Prop :=
  (store.log.held key).Pairwise (fun a b => a.1 < b.1) ∧
    ∀ d ∈ store.log.held key, d.1 ≤ store.globalVersion

section Finished
variable {key : String} {values : Fin n → Value} {initial : StateStore} {c : Writers n}
  {line : List (Slot n)}

section
variable (h : Serial key values initial c line)
include h

theorem Serial.version_mem
    (hdone : ∀ i, (c.phase i).hasFinished = true) {i : Fin n} {v : ℕ} :
    (c.phase i).version? = some v → ∃ slot ∈ line, slot.version = v := by
  intro hv
  have hstored : (c.phase i).hasStored = true := by
    have hi := hdone i
    cases hphase : c.phase i <;> rw [hphase] at hi <;> simp [Phase.hasFinished] at hi
    rfl
  obtain ⟨slot, hslot, rfl⟩ := h.covered i hstored
  have hver := slot.phase_stored.1
  rw [← h.slots slot hslot, hv] at hver
  exact ⟨slot, hslot, (some.inj hver).symm⟩

theorem Serial.newest_stored
    (hdone : ∀ i, (c.phase i).hasFinished = true) (hn : 0 < n) : ∃ e, c.store.get key = some e ∧
      IsGreatest {v | ∃ i, (c.phase i).version? = some v} e.version := by
  rcases eq_nil_or_concat line with hnil | ⟨_, last, hline⟩
  · have hphase := hdone ⟨0, hn⟩
    cases hfirst : c.phase ⟨0, hn⟩ <;> rw [hfirst] at hphase <;>
      simp [Phase.hasFinished] at hphase
    obtain ⟨slot, hslot, -⟩ := h.covered ⟨0, hn⟩ (by rw [hfirst]; rfl)
    rw [hnil] at hslot
    exact absurd hslot not_mem_nil
  · rw [concat_eq_append] at hline
    have hlast : last ∈ line := by rw [hline]; exact mem_append_right _ mem_cons_self
    have hentry := h.entry
    rw [hline, map_append, map_singleton, getLast?_concat] at hentry
    refine ⟨_, hentry, ⟨last.writer, ?_⟩, ?_⟩
    · rw [h.slots last hlast]
      exact last.phase_stored.1
    · rintro v ⟨i, hv⟩
      obtain ⟨slot, hslot, rfl⟩ := h.version_mem hdone hv
      have hsorted := h.sorted
      rw [hline, map_append, pairwise_append] at hsorted
      rw [hline] at hslot
      rcases mem_append.mp hslot with hslot | hslot
      · exact (hsorted.2.2 _ (mem_map_of_mem hslot) _ mem_cons_self).le
      · rw [mem_singleton.mp hslot]

theorem Serial.logged
    (hdone : ∀ i, (c.phase i).hasFinished = true) :
    line.filter Slot.inLog = line.filter fun slot => slot.ops ≠ [] := by
  refine filter_congr fun slot hslot => ?_
  have hlogged : slot.logged = true := by
    rw [← slot.phase_stored.2.2.2.2, ← h.slots slot hslot]
    exact hdone slot.writer
  rw [Slot.inLog, hlogged, Bool.true_and]
  cases slot.ops <;> simp

theorem Serial.in_order (hinit : DeltasInOrder initial key) :
    (c.store.log.held key).Pairwise fun a b => a.1 < b.1 := by
  have hsorted := h.sorted
  rw [pairwise_map] at hsorted
  rw [h.held, pairwise_append]
  refine ⟨hinit.1, ?_, fun a ha b hb => ?_⟩
  · rw [pairwise_map]
    exact hsorted.filter _
  · obtain ⟨slot, hslot, rfl⟩ := mem_map.mp hb
    have hslot := (mem_filter.mp hslot).1
    have hver := slot.phase_stored.1
    rw [← h.slots slot hslot] at hver
    exact lt_of_le_of_lt (hinit.2 a ha) (h.ordered.issued _ _ hver).1

theorem Serial.since_initial
    (hdone : ∀ i, (c.phase i).hasFinished = true) (hinit : DeltasInOrder initial key) :
    (c.store.deltasSince key initial.globalVersion).map Prod.snd =
      (line.map Slot.ops).filter fun ops => ops ≠ [] := by
  have hnew : ∀ slot ∈ line, initial.globalVersion < slot.version := by
    intro slot hslot
    have hver := slot.phase_stored.1
    rw [← h.slots slot hslot] at hver
    exact (h.ordered.issued _ _ hver).1
  have hold : ((initial.log.held key).filter fun d => initial.globalVersion < d.1) = [] := by
    rw [filter_eq_nil_iff]
    intro d hd
    have hd := hinit.2 d hd
    rw [decide_eq_true_eq]
    omega
  rw [deltasSince, since_eq_filter, h.held, h.logged hdone, filter_append, hold,
    nil_append, filter_eq_self.mpr]
  · rw [List.map_map, List.filter_map]
    rfl
  · intro d hd
    obtain ⟨slot, hslot, rfl⟩ := mem_map.mp hd
    exact decide_eq_true (hnew slot (mem_filter.mp hslot).1)

end

end Finished

/-- Writers that take their turns are serialised: the entry of the newest version is
stored, the log is in version order, and the logged deltas lead from the old value
to the new one. -/
theorem applies_serialised {key : String} {values : Fin n → Value} {initial : StateStore}
    {c : Writers n} {schedule : List (Fin n)} (hinit : DeltasInOrder initial key)
    (hkeys : (initial.valueOf key).AllKeys PlainKey ∧ ∀ i, (values i).AllKeys PlainKey)
    (hrun : run (step key values) (begin initial) schedule = some c)
    (hturn : Transition.Along (step key values) (InTurn key) (begin initial) schedule)
    (hdone : ∀ i, (c.phase i).hasFinished = true) : (0 < n → ∃ e, c.store.get key = some e ∧
      IsGreatest {v | ∃ i, (c.phase i).version? = some v} e.version) ∧
    (c.store.log.held key).Pairwise (fun a b => a.1 < b.1) ∧ replay (.ofJson (initial.valueOf key))
        ((c.store.deltasSince key initial.globalVersion).map Prod.snd) =
      .ok (.ofJson (c.store.valueOf key)) := by
  obtain ⟨line, h⟩ := serial_run hrun hturn
  refine ⟨h.newest_stored hdone, h.in_order hinit, ?_⟩
  rw [h.since_initial hdone hinit, replay_nonempty, h.ops]
  have hvalue : c.store.valueOf key =
      (valuesOf (line.map fun slot => some (values slot.writer))).getLastD
        (initial.valueOf key) := by
    rw [valueOf, ← h.content]
    rcases eq_nil_or_concat line with hnil | ⟨_, _, hlast⟩
    · simp [hnil, valuesOf, valueOf]
    · simp [hlast, valuesOf]
  rw [hvalue]
  refine replay_deltas hkeys.1 fun w hw => ?_
  obtain ⟨slot, -, rfl⟩ := mem_map.mp hw
  exact hkeys.2 slot.writer

theorem applies_serialised_two :
    ∃ c, run (step "k" fun i : Fin 2 => .bool (decide (i = 0))) (begin new)
        [0, 1, 0, 0, 0, 1, 1, 1] = some c ∧ (∃ e, c.store.get "k" = some e ∧
        IsGreatest {v | ∃ i, (c.phase i).version? = some v} e.version) ∧
      (c.store.log.held "k").Pairwise (fun a b => a.1 < b.1) ∧
      replay (.ofJson .null) ((c.store.deltasSince "k" 0).map Prod.snd) =
        .ok (.ofJson (c.store.valueOf "k")) := by
  refine exists_run (fun c => ∀ i, (c.phase i).hasFinished = true) (by decide +kernel)
    fun c hc hfinished => ?_
  obtain ⟨hnewest, horder, hreplay⟩ := applies_serialised (by simp [DeltasInOrder, new])
    (by exact ⟨trivial, fun _ => trivial⟩) hc (by decide +kernel) hfinished
  exact ⟨hnewest (by decide), horder, hreplay⟩

/-- Both draw their versions first, then the second one writes before the first: the
older version ends up stored, and the log is out of order. -/
theorem applies_overtaken : (run (step "k" fun i : Fin 2 => .bool (decide (i = 0))) (begin new)
        [0, 1, 1, 1, 1, 0, 0, 0]).map
      (fun c => (c.store.get "k", c.store.log.held "k", c.phase 0, c.phase 1)) =
    some (some ⟨1, .bool true⟩, [(2, [.add "/" (.bool false)]), (1, [.update "/" (.bool true)])],
      .finished 1 [.update "/" (.bool true)], .finished 2 [.add "/" (.bool false)]) := by
  decide +kernel

end Writers

end Sodp.StateStore
