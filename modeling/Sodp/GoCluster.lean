import Mathlib.Data.Fintype.Basic
import Sodp.GoApply
import Sodp.GoStore

/-!
# A cluster of Go nodes

`syncMutation` runs after the store has changed and without its lock, so the deltas of a node may
be published in another order than they were made. A node skips its own messages.

The deletion of a key is not published at all, and a delta is applied to whatever the other node
holds, if its version is newer there. What converges are changes of a key by one node at a time,
each of them one that its delta hands over.
-/

namespace Sodp.GoServer
open Transition Function OrderedMap List Option GoServer.StateStore

/-! ### Changes of a store -/

variable {s : StateStore} {m : Mutation}

namespace Mutation

def isDelete : Mutation → Bool
  | .delete _ => true
  | _ => false

def isAppend : Mutation → Bool
  | .append _ _ _ => true
  | _ => false

/-- The delta of the change brings another node with the same value to the new one. An `Append`
sends at most one removal, and a deletion nothing. -/
def HandedOver (s : StateStore) : Mutation → Prop
  | .apply _ key value => HandsOver (s.get key).1 value
  | .append key element maxLen =>
    ∃ xs, (s.get key).1 = .slice xs ∧ (0 < maxLen → xs.length ≤ maxLen) ∧ Arrives element
  | .delete key => s.entries.get? key = none

theorem HandedOver.run (h : m.HandedOver s) (w : Wire) :
    m.run s = (s, none) ∨ m.isDelete = false ∧ ∃ value ops,
      m.run s = s.record m.key (some value) ops ∧
        Brings w ops (s.get m.key).1.toJson value.toJson := by
  cases m with
  | apply range key value =>
    rw [Mutation.run, StateStore.apply]
    dsimp only
    split_ifs
    · exact .inl rfl
    · exact .inl rfl
    · exact .inr ⟨rfl, value, _, rfl, HandsOver.brings w h range⟩
  | append key element maxLen =>
    obtain ⟨_, hget, hlen, harrives⟩ := h
    refine .inr ⟨rfl, ?_⟩
    obtain ⟨ys, ops, happ, heq⟩ := StateStore.append_spec (by rw [hget]; rfl) hlen element
    refine ⟨.slice ys, ops, heq, ?_⟩
    change Brings w ops (s.get key).1.toJson _
    rw [hget]
    exact happ.brings w harrives
  | delete key =>
    left
    have hnone : s.entries.get? key = none := h
    rw [Mutation.run, StateStore.delete, hnone]

end Mutation

namespace StateStore

def held (s : StateStore) (key : String) : ℕ × Value := ((s.get key).2, (s.get key).1.toJson)

def Counted (s : StateStore) : Prop := ∀ key, (s.held key).1 ≤ s.global

variable {t : StateStore} {key : String}

theorem held_of_entries
    (h : t.entries.get? key = s.entries.get? key) : t.held key = s.held key := by
  rw [held, held, get, get, h]

theorem held_of_insert {v : GoValue} {version : ℕ}
    (h : t.entries = s.entries.insert key ⟨v, version⟩) (other : String) :
    t.held other = if other = key then (version, v.toJson) else s.held other := by
  split_ifs with hkey
  · rw [hkey, held, get, h, get?_insert_self]
  · refine held_of_entries ?_
    rw [h, get?_insert_of_ne _ hkey]

theorem Counted.of_insert {v : GoValue} {version : ℕ}
    (hs : s.Counted) (h : t.entries = s.entries.insert key ⟨v, version⟩)
    (hglobal : s.global ≤ t.global) (hversion : version ≤ t.global) : t.Counted := by
  intro other
  rw [held_of_insert h]
  split_ifs
  · exact hversion
  · exact (hs other).trans hglobal

theorem Counted.loadEntry (h : s.Counted) (key : String) (version : ℕ)
    (value : GoValue) : (s.loadEntry key version value).Counted := by
  rw [StateStore.loadEntry]
  split_ifs
  · exact h.of_insert rfl (le_max_left _ _) (le_max_right _ _)
  · exact fun other => (h other).trans (le_max_left _ _)

def loaded (entries : List (String × StateEntry)) : StateStore :=
  entries.foldl (fun s e => s.loadEntry e.1 e.2.version e.2.value) .new

theorem counted_loaded (entries : List (String × StateEntry)) : (loaded entries).Counted := by
  have hfold : ∀ s : StateStore, s.Counted →
      (entries.foldl (fun s e => s.loadEntry e.1 e.2.version e.2.value) s).Counted := by
    induction entries with
    | nil => exact fun s hs => hs
    | cons e entries ih => exact fun s hs => ih _ (hs.loadEntry _ _ _)
  exact hfold .new fun key => Nat.zero_le _

section Record
variable {s : StateStore} {key : String} {value : GoValue} {ops : List DeltaOp}

theorem held_record (other : String) : (s.record key (some value) ops).1.held other =
      if other = key then (s.nextVersion, value.toJson) else s.held other :=
  held_of_insert rfl other

theorem Counted.record (h : s.Counted) (hroom : s.global + 1 < 2 ^ 64) :
    (s.record key (some value) ops).1.Counted := by
  have hnext : s.nextVersion = s.global + 1 := Nat.mod_eq_of_lt hroom
  refine h.of_insert rfl ?_ (le_refl s.nextVersion)
  change s.global ≤ s.nextVersion
  omega

end Record

section Remote
variable {s : StateStore} {entry : DeltaEntry}

theorem held_applyClusterDelta (hnew : (s.held entry.key).1 < entry.version) (other : String) :
    (s.applyClusterDelta entry).1.held other = if other = entry.key then
        (entry.version, (applyOps (s.get entry.key).1 entry.ops).toJson) else s.held other := by
  have hfresh : ¬ entry.version ≤ (s.get entry.key).2 := Nat.not_le.mpr hnew
  rw [applyClusterDelta, if_neg hfresh]
  exact held_of_insert rfl other

theorem held_applyClusterDelta_of_ne {other : String} (hne : other ≠ entry.key) :
    (s.applyClusterDelta entry).1.held other = s.held other := by
  by_cases hnew : (s.held entry.key).1 < entry.version
  · rw [held_applyClusterDelta hnew, if_neg hne]
  · have hstale : entry.version ≤ (s.get entry.key).2 := Nat.not_lt.mp hnew
    rw [applyClusterDelta, if_pos hstale]

theorem Counted.applyClusterDelta (h : s.Counted) : (s.applyClusterDelta entry).1.Counted := by
  rw [StateStore.applyClusterDelta]
  split_ifs
  · exact h
  · exact h.of_insert rfl (le_max_left _ _) (le_max_right _ _)

end Remote

end StateStore

/-! ### Nodes and messages -/

/-- A change that `syncMutation` has yet to publish. `MutateAppend` looks at the key again before
and gives up if there is nothing. -/
structure Unpublished where
  delta : DeltaEntry
  recheck : Bool

structure Cluster (ι : Type*) where
  store : ι → StateStore
  unpublished : ι → List Unpublished
  channel : ι → ι → List DeltaEntry

inductive ClusterEvent (ι : Type*) where
  | mutate (node : ι) (m : Mutation) (worker : Bool)
  | publish (node : ι) (n : ℕ)
  | deliver (sender receiver : ι)

namespace Cluster
variable {ι : Type*} [DecidableEq ι]

def start (entries : List (String × StateEntry)) : Cluster ι where
  store := fun _ => .loaded entries
  unpublished := fun _ => []
  channel := fun _ _ => []

def mutate (c : Cluster ι) (i : ι) (m : Mutation) (worker : Bool) : Cluster ι :=
  match m.run (c.store i) with
  | (_, none) => c
  | (store, some delta) =>
    { c with
      store := update c.store i store
      unpublished :=
        if m.isDelete then c.unpublished
        else update c.unpublished i
          (c.unpublished i ++ [⟨delta, worker && m.isAppend⟩]) }

def publish (c : Cluster ι) (i : ι) (n : ℕ) : Option (Cluster ι) :=
  match (c.unpublished i)[n]? with
  | none => none
  | some u =>
    let rest := update c.unpublished i ((c.unpublished i).eraseIdx n)
    match u.recheck, ((c.store i).get u.delta.key).1 with
    | true, .nil => some { c with unpublished := rest }
    | _, _ =>
      some { c with
        unpublished := rest
        channel := update c.channel i fun b => c.channel i b ++ [u.delta] }

def deliver (w : Wire) (c : Cluster ι) (a b : ι) : Option (Cluster ι) :=
  match c.channel a b with
  | [] => none
  | delta :: rest =>
    some { c with
      store := if a = b then c.store
        else update c.store b ((c.store b).applyClusterDelta (delta.received w)).1
      channel := update c.channel a (update (c.channel a) b rest) }

def step (w : Wire) (c : Cluster ι) : ClusterEvent ι → Option (Cluster ι)
  | .mutate i m worker => some (c.mutate i m worker)
  | .publish i n => c.publish i n
  | .deliver a b => c.deliver w a b

def Quiet (c : Cluster ι) : Prop :=
  (∀ i, c.unpublished i = []) ∧ ∀ a b, c.channel a b = []

instance [Fintype ι] (c : Cluster ι) : Decidable c.Quiet := by
  unfold Quiet
  infer_instance

def pending (c : Cluster ι) (a b : ι) (key : String) : List DeltaEntry :=
  (c.channel a b ++ (c.unpublished a).map Unpublished.delta).filter (·.key = key)

/-- A key is changed while no change of it by another node is on its way, its deltas are published
in turn, and each of them is one that hands the change over. -/
def Orderly (c : Cluster ι) : ClusterEvent ι → Prop
  | .mutate i m _ =>
    (c.store i).global + 1 < 2 ^ 64 ∧ m.HandedOver (c.store i) ∧
      ∀ a, a ≠ i → ∀ b, c.pending a b m.key = []
  | .publish i n =>
    ∀ u, (c.unpublished i)[n]? = some u →
      (∀ earlier ∈ (c.unpublished i).take n, earlier.delta.key ≠ u.delta.key) ∧
        (u.recheck = true → ((c.store i).get u.delta.key).1 ≠ .nil)
  | .deliver _ _ => True

/-! ### One node leads -/

/-- The deltas bring a node that holds the one to the other, none of them stale. -/
inductive Follows (w : Wire) : ℕ × Value → List DeltaEntry → ℕ × Value → Prop where
  | done (h : ℕ × Value) : Follows w h [] h
  | next {h target : ℕ × Value} {d : DeltaEntry} {ds : List DeltaEntry} {v : Value}
      (hnew : h.1 < d.version) (hbrings : Brings w d.ops h.2 v)
      (hrest : Follows w (d.version, v) ds target) : Follows w h (d :: ds) target

variable {w : Wire} {ds : List DeltaEntry}

theorem Follows.append {h mid : ℕ × Value} {d : DeltaEntry}
    {v : Value} (hds : Follows w h ds mid) (hnew : mid.1 < d.version)
    (hbrings : Brings w d.ops mid.2 v) : Follows w h (ds ++ [d]) (d.version, v) := by
  induction hds with
  | done => exact .next hnew hbrings (.done _)
  | next hfirst hop _ ih => exact .next hfirst hop (ih hnew hbrings)

theorem Follows.eq_of_nil {h target : ℕ × Value} (hds : Follows w h [] target) :
    h = target := by
  cases hds
  rfl

theorem Follows.of_cons {h target : ℕ × Value} {d : DeltaEntry}
    (hds : Follows w h (d :: ds) target) :
    h.1 < d.version ∧ ∃ v, Brings w d.ops h.2 v ∧ Follows w (d.version, v) ds target := by
  cases hds with
  | next hnew hbrings hrest => exact ⟨hnew, _, hbrings, hrest⟩

structure Led (w : Wire) (c : Cluster ι) (key : String) (leader : ι) : Prop where
  silent : ∀ a, a ≠ leader → ∀ b, c.pending a b key = []
  follows : ∀ b, b ≠ leader →
    Follows w ((c.store b).held key) (c.pending leader b key) ((c.store leader).held key)

variable {leader : ι} {c : Cluster ι}

theorem Led.same {key : String} (h : c.Led w key leader)
    {b : ι} (hb : c.pending leader b key = []) :
    (c.store b).held key = (c.store leader).held key := by
  by_cases hleader : b = leader
  · rw [hleader]
  · have hfollows := h.follows b hleader
    rw [hb] at hfollows
    exact hfollows.eq_of_nil

variable {i : ι}

theorem Led.change_leader {key : String}
    (h : c.Led w key leader) (hothers : ∀ a, a ≠ i → ∀ b, c.pending a b key = []) :
    c.Led w key i := by
  by_cases hleader : leader = i
  · exact hleader ▸ h
  · refine ⟨hothers, fun b _ => ?_⟩
    have hquiet := hothers leader hleader
    rw [h.silent i (Ne.symm hleader) b, h.same (hquiet b), h.same (hquiet i)]
    exact .done _

variable {t : Cluster ι}

omit [DecidableEq ι] in
theorem Led.congr {key : String}
    (h : c.Led w key leader) (hpending : ∀ a b, t.pending a b key = c.pending a b key)
    (hheld : ∀ i, (t.store i).held key = (c.store i).held key) : t.Led w key leader := by
  refine ⟨fun a ha b => ?_, fun b hb => ?_⟩
  · rw [hpending, h.silent a ha]
  · rw [hpending, hheld, hheld]
    exact h.follows b hb

/-! ### The steps -/

section Steps
variable {w : Wire} {c : Cluster ι} {n : ℕ}

theorem filter_publish {l : List Unpublished} {u : Unpublished} (hu : l[n]? = some u)
    (hfirst : ∀ earlier ∈ l.take n, earlier.delta.key ≠ u.delta.key) (key : String) :
    (u.delta :: (l.eraseIdx n).map Unpublished.delta).filter (·.key = key) =
      (l.map Unpublished.delta).filter (·.key = key) := by
  obtain ⟨hn, rfl⟩ := List.getElem?_eq_some_iff.mp hu
  have hsplit : l = l.take n ++ l[n] :: l.drop (n + 1) := by
    rw [← List.drop_eq_getElem_cons hn, List.take_append_drop]
  have herase : l.eraseIdx n = l.take n ++ l.drop (n + 1) := List.eraseIdx_eq_take_drop_succ l n
  conv_rhs => rw [hsplit]
  rw [herase, List.map_append, List.map_append, List.map_cons, ← List.cons_append,
    List.filter_append, List.filter_append, List.filter_cons, List.filter_cons]
  split_ifs with hkey
  · have hnone : ((l.take n).map Unpublished.delta).filter (·.key = key) = [] := by
      rw [List.filter_eq_nil_iff]
      intro d hd
      obtain ⟨earlier, hmem, rfl⟩ := List.mem_map.mp hd
      rw [decide_eq_true_eq] at hkey ⊢
      exact hkey ▸ hfirst earlier hmem
    rw [hnone]
    rfl
  · rfl

theorem publish_eq_some (hok : c.Orderly (.publish i n))
    (hstep : c.publish i n = some t) : ∃ u, (c.unpublished i)[n]? = some u ∧ t = { c with
      unpublished := update c.unpublished i ((c.unpublished i).eraseIdx n)
      channel := update c.channel i fun b => c.channel i b ++ [u.delta] } := by
  rw [Cluster.publish] at hstep
  cases hu : (c.unpublished i)[n]? with
  | none => simp [hu] at hstep
  | some u =>
    obtain ⟨-, hvalue⟩ := hok u hu
    refine ⟨u, rfl, ?_⟩
    -- the branch that gives up is the one that `hvalue` rules out
    simp only [hu] at hstep
    exact (some.inj hstep).symm

theorem Led.publish {key : String} (h : c.Led w key leader) (hok : c.Orderly (.publish i n))
    (hstep : c.publish i n = some t) :
    t.Led w key leader := by
  obtain ⟨u, hu, rfl⟩ := publish_eq_some hok hstep
  refine h.congr (fun a b => ?_) fun _ => rfl
  rw [pending, pending]
  by_cases ha : a = i
  · subst ha
    dsimp only
    rw [update_self, update_self, append_assoc, singleton_append,
      filter_append, filter_publish hu (hok u hu).1, filter_append]
  · dsimp only
    rw [update_of_ne ha, update_of_ne ha]

theorem deliver_eq_some {a b : ι} (hstep : c.deliver w a b = some t) :
    ∃ delta rest, c.channel a b = delta :: rest ∧ t.store = (if a = b then c.store
        else update c.store b ((c.store b).applyClusterDelta (delta.received w)).1) ∧
      t.unpublished = c.unpublished ∧ t.channel a b = rest ∧
      ∀ a' b', ¬(a' = a ∧ b' = b) → t.channel a' b' = c.channel a' b' := by
  rw [Cluster.deliver] at hstep
  cases hchannel : c.channel a b with
  | nil => simp [hchannel] at hstep
  | cons delta rest =>
    simp only [hchannel] at hstep
    cases hstep
    refine ⟨delta, rest, rfl, rfl, rfl, ?_, fun a' b' hne => ?_⟩
    · dsimp only
      rw [update_self, update_self]
    · dsimp only
      by_cases ha : a' = a
      · subst ha
        rw [update_self, update_of_ne fun hb => hne ⟨rfl, hb⟩]
      · rw [update_of_ne ha]

theorem Led.deliver {key : String} (h : c.Led w key leader) {a b : ι}
    (hstep : c.deliver w a b = some t) : t.Led w key leader := by
  obtain ⟨delta, _, hchannel, hstore, hunpub, hrest, hothers⟩ := deliver_eq_some hstep
  have hpending : ∀ a' b', ¬(a' = a ∧ b' = b) → t.pending a' b' key = c.pending a' b' key := by
    intro a' b' hne
    rw [pending, pending, hunpub, hothers a' b' hne]
  have hheld : ∀ i, i ≠ b → (t.store i).held key = (c.store i).held key := by
    intro i hi
    rw [hstore]
    split_ifs
    · rfl
    · rw [update_of_ne hi]
  have hhead : c.pending a b key =
      if delta.key = key then delta :: t.pending a b key else t.pending a b key := by
    rw [pending, pending, hchannel, hunpub, hrest, cons_append, filter_cons]
    simp only [decide_eq_true_eq]
  by_cases hkey : delta.key = key
  · rw [if_pos hkey] at hhead
    have ha : a = leader := by
      by_contra ha
      rw [h.silent a ha b] at hhead
      cases hhead
    subst ha
    refine ⟨fun a' ha' b' => ?_, fun b' hb' => ?_⟩
    · rw [hpending a' b' fun he => ha' he.1]
      exact h.silent a' ha' b'
    · have hleader : (t.store a).held key = (c.store a).held key := by
        by_cases hab : a = b
        · rw [hstore, if_pos hab]
        · exact hheld a hab
      rw [hleader]
      by_cases hb : b' = b
      · subst hb
        have hfollows := h.follows b' hb'
        rw [hhead] at hfollows
        obtain ⟨hnew, v, hbrings, hds⟩ := hfollows.of_cons
        have hreceived : (t.store b').held key = (delta.version, v) := by
          subst hkey
          have hfresh : ((c.store b').held (delta.received w).key).1 <
              (delta.received w).version := hnew
          rw [hstore, if_neg (Ne.symm hb'), update_self]
          refine (held_applyClusterDelta hfresh _).trans ((if_pos rfl).trans ?_)
          exact congrArg (Prod.mk _) (hbrings _ rfl)
        rw [hreceived]
        exact hds
      · rw [hpending a b' fun he => hb he.2, hheld b' hb]
        exact h.follows b' hb'
  · rw [if_neg hkey] at hhead
    refine h.congr (fun a' b' => ?_) fun i => ?_
    · by_cases hne : a' = a ∧ b' = b
      · rw [hne.1, hne.2, hhead]
      · exact hpending a' b' hne
    · by_cases hi : i = b
      · subst hi
        rw [hstore]
        split_ifs
        · rfl
        · rw [update_self]
          exact held_applyClusterDelta_of_ne (Ne.symm hkey)
      · exact hheld i hi

theorem pending_append {a : ι} {u : Unpublished}
    (hunpub : t.unpublished = update c.unpublished a (c.unpublished a ++ [u]))
    (hchannel : t.channel = c.channel) (a' b : ι) (key : String) :
    t.pending a' b key = c.pending a' b key ++
      if a' = a ∧ u.delta.key = key then [u.delta] else [] := by
  rw [pending, pending, hunpub, hchannel]
  by_cases ha : a' = a
  · subst ha
    rw [update_self, map_append, ← append_assoc, filter_append]
    by_cases hkey : u.delta.key = key <;> simp [hkey]
  · rw [update_of_ne ha, if_neg fun he => ha he.1, append_nil]

theorem mutate_cases {worker : Bool} (hok : c.Orderly (.mutate i m worker)) :
    c.mutate i m worker = c ∨ ∃ value ops, Brings w ops ((c.store i).held m.key).2 value.toJson ∧
      (c.mutate i m worker).store = update c.store i ((c.store i).record m.key (some value) ops).1 ∧
      (c.mutate i m worker).unpublished = update c.unpublished i (c.unpublished i ++
        [⟨⟨m.key, (c.store i).nextVersion, ops⟩, worker && m.isAppend⟩]) ∧
      (c.mutate i m worker).channel = c.channel := by
  rcases hok.2.1.run w with hnone | ⟨hdelete, value, ops, hrun, hbrings⟩
  · left
    rw [mutate, hnone]
  · right
    refine ⟨value, ops, hbrings, ?_⟩
    rw [mutate, hrun, hdelete]
    exact ⟨rfl, rfl, rfl⟩

theorem Led.record {key : String} {value : GoValue} {ops : List DeltaOp}
    {recheck : Bool} (hroom : (c.store i).global + 1 < 2 ^ 64) (hcounted : (c.store i).Counted)
    (hbrings : Brings w ops ((c.store i).held key).2 value.toJson)
    (hstore : t.store = update c.store i ((c.store i).record key (some value) ops).1)
    (hunpub : t.unpublished = update c.unpublished i
      (c.unpublished i ++ [⟨⟨key, (c.store i).nextVersion, ops⟩, recheck⟩]))
    (hchannel : t.channel = c.channel) (h : c.Led w key i) : t.Led w key i := by
  have hnext : (c.store i).nextVersion = (c.store i).global + 1 := Nat.mod_eq_of_lt hroom
  have hpending := pending_append hunpub hchannel
  have hself : (t.store i).held key = ((c.store i).nextVersion, value.toJson) := by
    rw [hstore, update_self]
    exact (held_record _).trans (if_pos rfl)
  refine ⟨fun a ha b => ?_, fun b hb => ?_⟩
  · rw [hpending, if_neg fun he => ha he.1, append_nil, h.silent a ha]
  · have hother : (t.store b).held key = (c.store b).held key := by
      rw [hstore, update_of_ne hb]
    rw [hpending, if_pos ⟨rfl, rfl⟩, hself, hother]
    refine (h.follows b hb).append ?_ hbrings
    rw [hnext]
    exact Nat.lt_succ_of_le (hcounted key)

theorem Led.mutate {worker : Bool} (hok : c.Orderly (.mutate i m worker))
    (hcounted : (c.store i).Counted) {key : String} (h : c.Led w key leader) :
    ∃ next, (c.mutate i m worker).Led w key next := by
  rcases mutate_cases hok with hnone | ⟨_, _, hbrings, hstore, hunpub, hchannel⟩
  · rw [hnone]
    exact ⟨leader, h⟩
  · by_cases hkey : m.key = key
    · subst hkey
      exact ⟨i, (h.change_leader hok.2.2).record hok.1 hcounted hbrings hstore hunpub hchannel⟩
    · refine ⟨leader, h.congr (fun a b => ?_) fun j => ?_⟩
      · rw [pending_append hunpub hchannel, if_neg fun he => hkey he.2, append_nil]
      · rw [hstore]
        by_cases hj : j = i
        · subst hj
          rw [update_self, held_record, if_neg (Ne.symm hkey)]
        · rw [update_of_ne hj]

variable {e : ClusterEvent ι}

theorem counted_step (h : ∀ i, (c.store i).Counted)
    (hok : c.Orderly e) (hstep : c.step w e = some t) (i : ι) : (t.store i).Counted := by
  have hupdate : ∀ j s, s.Counted → (update c.store j s i).Counted := by
    intro j s hs
    by_cases hi : i = j
    · subst hi
      rwa [update_self]
    · rw [update_of_ne hi]
      exact h i
  cases e with
  | mutate j =>
    rw [step] at hstep
    cases hstep
    rcases mutate_cases (w := w) hok with hnone | ⟨_, _, -, hstore, -⟩
    · rw [hnone]
      exact h i
    · rw [hstore]
      exact hupdate j _ ((h j).record hok.1)
  | publish =>
    obtain ⟨u, -, rfl⟩ := publish_eq_some hok hstep
    exact h i
  | deliver a b =>
    obtain ⟨_, -, -, hstore, -⟩ := deliver_eq_some hstep
    rw [hstore]
    split_ifs
    · exact h i
    · exact hupdate b _ (h b).applyClusterDelta

theorem led_step (hcounted : ∀ i, (c.store i).Counted)
    (hok : c.Orderly e) (hstep : c.step w e = some t) {key : String}
    (h : ∃ leader, c.Led w key leader) : ∃ leader, t.Led w key leader := by
  obtain ⟨leader, h⟩ := h
  cases e with
  | mutate i =>
    rw [step, some.injEq] at hstep
    exact hstep ▸ h.mutate hok (hcounted i)
  | publish => exact ⟨leader, h.publish hok hstep⟩
  | deliver => exact ⟨leader, h.deliver hstep⟩

omit [DecidableEq ι] in
theorem led_start (entries : List (String × StateEntry)) (key : String) (leader : ι) :
    (start entries).Led w key leader :=
  ⟨fun _ _ _ => rfl, fun _ _ => .done _⟩

end Steps

/-! ### Runs -/

/-- After any run of orderly steps, once everything is published and delivered, all nodes hold the
same value for every key. -/
theorem orderly_run_converges (w : Wire) {entries : List (String × StateEntry)}
    {events : List (ClusterEvent ι)} {c : Cluster ι}
    (hok : Along (step w) Orderly (start entries) events)
    (hrun : run (step w) (start entries) events = some c) (hquiet : c.Quiet) (i j : ι)
    (key : String) : ((c.store i).get key).1.toJson = ((c.store j).get key).1.toJson := by
  have hled : (∀ i, (c.store i).Counted) ∧ ∃ leader, c.Led w key leader := by
    refine invariant_along (I := fun c => (∀ i, (c.store i).Counted) ∧ ∃ leader, c.Led w key leader)
      ?_ ⟨fun _ => counted_loaded entries, i, led_start entries key i⟩ hok hrun
    intro c e t h hok hstep
    exact ⟨counted_step h.1 hok hstep, led_step h.1 hok hstep h.2⟩
  obtain ⟨-, leader, hled⟩ := hled
  have hpending : ∀ b, c.pending leader b key = [] := by
    intro b
    rw [pending, hquiet.1, hquiet.2]
    rfl
  have hsame := (hled.same (hpending i)).trans (hled.same (hpending j)).symm
  exact congrArg Prod.snd hsame

def setThenAppend : List (ClusterEvent Bool) :=
  [.mutate false (.apply (fun _ => .sorted) "k" (.slice [.string "a"])) false, .publish false 0,
    .deliver false false, .deliver false true, .mutate true (.append "k" (.string "b") 5) true,
    .publish true 0, .deliver true true, .deliver true false]

theorem set_then_append_converges :
    ∃ c, run (step ⟨id, fun _ => rfl⟩) (start []) setThenAppend = some c ∧ c.Quiet ∧
      ((c.store false).get "k").1.toJson = ((c.store true).get "k").1.toJson ∧
      ((c.store false).get "k").1.toJson = .array [.string "a", .string "b"] := by
  have hok : Along (step ⟨id, fun _ => rfl⟩) Orderly (start []) setThenAppend := by
    refine ⟨⟨by decide, ?_, fun a _ b => rfl⟩, ?_, trivial, trivial,
      ⟨by decide +kernel, ?_, ?_⟩, ?_, trivial, trivial, trivial⟩
    · exact handsOver_of_not_maps (by decide) (arrives_of_not_empty rfl)
    · rintro u ⟨⟩
      exact ⟨by simp, fun h => by cases h⟩
    · exact ⟨[.string "a"], rfl, fun _ => by decide, arrives_of_not_empty rfl⟩
    · intro a ha b
      cases a with
      | true => exact absurd rfl ha
      | false => cases b <;> rfl
    · rintro u ⟨⟩
      exact ⟨by simp, fun _ h => by cases h⟩
  refine ⟨_, rfl, by decide +kernel, ?_, by decide +kernel⟩
  exact orderly_run_converges ⟨id, fun _ => rfl⟩ hok rfl (by decide +kernel) false true "k"

def setThenDelete : List (ClusterEvent Bool) :=
  [.mutate false (.apply (fun _ => .sorted) "k" (.string "a")) false, .publish false 0,
    .deliver false false, .deliver false true, .mutate false (.delete "k") false]

/-- Both nodes take version 1, and each refuses what the other sends. -/
def setAtOnce : List (ClusterEvent Bool) :=
  [.mutate false (.apply (fun _ => .sorted) "k" (.string "a")) false,
    .mutate true (.apply (fun _ => .sorted) "k" (.string "b")) false, .publish false 0,
    .publish true 0, .deliver false false, .deliver false true, .deliver true true,
    .deliver true false]

theorem nodes_stay_apart :
    (∃ c, run (step ⟨id, fun _ => rfl⟩) (start []) setThenDelete = some c ∧ c.Quiet ∧
      ((c.store false).get "k").1.toJson = .null ∧
      ((c.store true).get "k").1.toJson = .string "a") ∧
    ∃ c, run (step ⟨id, fun _ => rfl⟩) (start []) setAtOnce = some c ∧ c.Quiet ∧
      ((c.store false).get "k").1.toJson = .string "a" ∧
      ((c.store true).get "k").1.toJson = .string "b" := by
  refine ⟨⟨_, rfl, ?_⟩, ⟨_, rfl, ?_⟩⟩ <;> decide +kernel

end Cluster

end Sodp.GoServer
