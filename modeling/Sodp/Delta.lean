import Mathlib.Data.List.Basic
import Sodp.JsonValue

/-!
# Structural diff of two JSON values

`diff` walks the two values and emits one op for each field that appeared, changed or disappeared;
arrays are replaced wholesale. `changes` is the same walk over key sequences instead of path
strings, and its members are characterised by the lookups of the two values alone.
-/

namespace Sodp
open OrderedMap List Option

inductive DeltaOpKind where
  | add
  | update
  | remove
deriving DecidableEq

structure DeltaOp where
  op : DeltaOpKind
  path : String
  value : Option Value
deriving DecidableEq

def DeltaOp.add (path : String) (value : Value) : DeltaOp := ⟨.add, path, some value⟩
def DeltaOp.update (path : String) (value : Value) : DeltaOp := ⟨.update, path, some value⟩
def DeltaOp.remove (path : String) : DeltaOp := ⟨.remove, path, none⟩

namespace Delta

def joinPath (base key : String) : String :=
  if base = "/" then "/" ++ key else base ++ "/" ++ key

def diffAt (path : String) : Value → Value → List DeltaOp
  | .object oldMap, .object ⟨newKeys, _, newVal⟩ =>
      (newKeys.attach.flatMap fun key : {k // k ∈ newKeys} =>
        let child := joinPath path key
        match oldMap.get? key with
        | none => [DeltaOp.add child (newVal key)]
        | some oldVal =>
          if oldVal ≠ newVal key then
            if oldVal.isObject && (newVal key).isObject then diffAt child oldVal (newVal key)
            else [DeltaOp.update child (newVal key)]
          else []) ++
      (oldMap.keys.filter fun key => key ∉ newKeys).map fun key =>
        DeltaOp.remove (joinPath path key)
  | oldVal, newVal => if oldVal ≠ newVal then [DeltaOp.update path newVal] else []

def diff (old new : Value) : List DeltaOp := diffAt "/" old new

/-- What `diff` reports at one location: the values before and after. -/
structure Change where
  keys : List String
  before : Option Value
  after : Option Value

def Change.under (k : String) (c : Change) : Change := { c with keys := k :: c.keys }

def Change.kind (c : Change) : DeltaOpKind :=
  match c.before, c.after with
  | _, none => .remove
  | none, some _ => .add
  | some _, some _ => .update

def renderPath (base : String) (keys : List String) : String := keys.foldl joinPath base

def Change.toOp (base : String) (c : Change) : DeltaOp := ⟨c.kind, renderPath base c.keys, c.after⟩

def changes : Value → Value → List Change
  | .object oldMap, .object ⟨newKeys, _, newVal⟩ =>
      (newKeys.attach.flatMap fun key : {k // k ∈ newKeys} =>
        match oldMap.get? key with
        | none => [⟨[key.1], none, some (newVal key)⟩]
        | some oldVal =>
          if oldVal ≠ newVal key then
            if oldVal.isObject && (newVal key).isObject then
              (changes oldVal (newVal key)).map (Change.under key.1)
            else [⟨[key.1], some oldVal, some (newVal key)⟩]
          else []) ++
      (oldMap.keys.filter fun key => key ∉ newKeys).map fun key => ⟨[key], oldMap.get? key, none⟩
  | oldVal, newVal => if oldVal ≠ newVal then [⟨[], some oldVal, some newVal⟩] else []

variable {new old : Value} {q r : List String}

theorem changes_of_not_isObject (h : ¬(old.isObject = true ∧ new.isObject = true)) :
    changes old new = if old ≠ new then [⟨[], some old, some new⟩] else [] := by
  rw [changes]
  rintro o ks hs f rfl rfl
  exact h ⟨rfl, rfl⟩

theorem diffAt_of_not_isObject (path : String) (h : ¬(old.isObject = true ∧ new.isObject = true)) :
    diffAt path old new = (changes old new).map (Change.toOp path) := by
  rw [changes_of_not_isObject h, diffAt]
  · split_ifs <;> rfl
  · rintro o ks hs f rfl rfl
    exact h ⟨rfl, rfl⟩

theorem diffAt_eq_changes (path : String) (old new : Value) :
    diffAt path old new = (changes old new).map (Change.toOp path) := by
  induction new generalizing path old with
  | object n ih =>
    cases old with
    | object o =>
      obtain ⟨ks, hs, f⟩ := n
      simp only [diffAt, changes, List.map_append, List.map_flatMap, List.map_map]
      congr 1
      · refine List.flatMap_congr fun k _ => ?_
        cases o.get? k with
        | none => rfl
        | some v =>
          by_cases hv : v = f k
          · simp [hv]
          · by_cases hb : (v.isObject && (f k).isObject) = true
            · simp only [ne_eq, hv, not_false_eq_true, if_true, hb, List.map_map]
              rw [ih k.1 (f k) (OrderedMap.get?_val ⟨ks, hs, f⟩ k) (joinPath path k) v]
              rfl
            · simp only [ne_eq, hv, not_false_eq_true, if_true, hb]
              rfl
    | _ => exact diffAt_of_not_isObject path (by simp [Value.isObject])
  | _ => exact diffAt_of_not_isObject path (by simp [Value.isObject])

/-- The walk over the two values ends at `q`: both hold objects everywhere above `q`, but
not both at `q`, where at least one of them holds something. -/
def Leaf (old new : Value) : List String → Prop
  | [] => ¬(old.isObject = true ∧ new.isObject = true)
  | k :: q =>
    old.isObject = true ∧ new.isObject = true ∧
      match old.get? k, new.get? k with
      | some v, some w => Leaf v w q
      | none, none => False
      | _, _ => q = []

/-- The two values hold different things at `q`, at most one of them an object,
while both hold objects everywhere above `q`. -/
def Overwrites (old new : Value) : List String → Prop
  | [] => old ≠ new ∧ ¬(old.isObject = true ∧ new.isObject = true)
  | k :: q =>
    old.isObject = true ∧ new.isObject = true ∧
      match old.get? k, new.get? k with
      | some v, some w => Overwrites v w q
      | none, none => False
      | _, _ => q = []

theorem overwrites_irrefl (v : Value) (q : List String) : ¬ Overwrites v v q := by
  induction q generalizing v with
  | nil => exact fun h => h.1 rfl
  | cons k q ih =>
    rintro ⟨_, _, h⟩
    cases hv : v.get? k with
    | none => simp [hv] at h
    | some w =>
      simp only [hv] at h
      exact ih w h

theorem changes_self (v : Value) : changes v v = [] := by
  cases v with
  | object m =>
    obtain ⟨ks, hs, f⟩ := m
    simp [changes, get?_val ⟨ks, hs, f⟩]
  | _ => simp [changes]

theorem mem_map_under {k : String} {b a : Option Value} {l : List Change} :
    ⟨q, b, a⟩ ∈ l.map (Change.under k) ↔ ∃ r, q = k :: r ∧ ⟨r, b, a⟩ ∈ l := by
  rw [List.mem_map]
  constructor
  · rintro ⟨⟨r, _, _⟩, hd, ⟨⟩⟩
    exact ⟨r, rfl, hd⟩
  · rintro ⟨r, rfl, hd⟩
    exact ⟨_, hd, rfl⟩

theorem mem_changes_object {o n : OrderedMap String Value} {b a : Option Value} :
    ⟨q, b, a⟩ ∈ changes (.object o) (.object n) ↔ ∃ k r, q = k :: r ∧
      match o.get? k, n.get? k with
      | none, none => False
      | some v, some w => ⟨r, b, a⟩ ∈ changes v w
      | v, w => r = [] ∧ b = v ∧ a = w := by
  obtain ⟨ks, hs, f⟩ := n
  simp only [changes, mem_append, mem_flatMap, List.mem_attach, true_and, List.mem_map, mem_filter,
    decide_eq_true_eq, Subtype.exists, ← exists_or]
  -- both sides ask for a key, and each key is in at most one of the two parts of the walk
  refine exists_congr fun k => ?_
  by_cases hk : k ∈ ks
  · rw [get?_val ⟨ks, hs, f⟩ ⟨k, hk⟩]
    cases o.get? k with
    | none => simp [hk]
    | some v =>
      by_cases hv : v = f ⟨k, hk⟩
      · simp [hv, hk, changes_self]
      · by_cases hobj : v.isObject = true ∧ (f ⟨k, hk⟩).isObject = true
        · simp [hv, hk, hobj, mem_map_under, -List.mem_map]
        · simp [hv, hk, hobj, changes_of_not_isObject hobj]
  · rw [(get?_eq_none_iff ⟨ks, hs, f⟩ k).mpr hk]
    cases ho : o.get? k <;> simp [hk, o.mem_keys_iff, ho, @eq_comm _ q, @eq_comm _ a, @eq_comm _ b]

theorem mem_changes_iff (old new : Value) (c : Change) : c ∈ changes old new ↔
      Overwrites old new c.keys ∧ c.before = old.lookup c.keys ∧ c.after = new.lookup c.keys := by
  obtain ⟨q, b, a⟩ := c
  induction q generalizing old new with
  | nil =>
    by_cases hobj : old.isObject = true ∧ new.isObject = true
    · obtain ⟨o, rfl⟩ := (Value.isObject_iff old).mp hobj.1
      obtain ⟨n, rfl⟩ := (Value.isObject_iff new).mp hobj.2
      simp [mem_changes_object, Overwrites]
    · rw [changes_of_not_isObject hobj]
      by_cases he : old = new <;> simp [he, hobj, Overwrites]
  | cons k q ih =>
    by_cases hobj : old.isObject = true ∧ new.isObject = true
    · obtain ⟨o, rfl⟩ := (Value.isObject_iff old).mp hobj.1
      obtain ⟨n, rfl⟩ := (Value.isObject_iff new).mp hobj.2
      simp only [mem_changes_object, cons.injEq, and_assoc, exists_and_left, exists_eq_left',
        Overwrites, Value.lookup_cons, Value.get?_object, Value.isObject_object, true_and]
      cases o.get? k <;> cases n.get? k <;> simp +contextual [ih]
    · rw [changes_of_not_isObject hobj]
      have hno : ¬ Overwrites old new (k :: q) := fun h => hobj ⟨h.1, h.2.1⟩
      split_ifs <;> simp [hno]

theorem exists_overwrites (h : old ≠ new) : ∃ q, Overwrites old new q := by
  induction new generalizing old with
  | object n ih =>
    cases old with
    | object o =>
      have hk : ∃ k, o.get? k ≠ n.get? k := by
        by_contra hall
        push Not at hall
        exact h (congrArg Value.object (ext_get? hall))
      obtain ⟨k, hk⟩ := hk
      cases ho : o.get? k with
      | none =>
        cases hn : n.get? k with
        | none => exact absurd (ho.trans hn.symm) hk
        | some => exact ⟨[k], by simp [Overwrites, ho, hn]⟩
      | some v =>
        cases hn : n.get? k with
        | none => exact ⟨[k], by simp [Overwrites, ho, hn]⟩
        | some w =>
          obtain ⟨q, hq⟩ := ih k w hn (fun he : v = w => hk (by rw [ho, hn, he]))
          exact ⟨k :: q, by simpa [Overwrites, ho, hn] using hq⟩
    | _ => exact ⟨[], h, by simp [Value.isObject]⟩
  | _ => exact ⟨[], h, by simp [Value.isObject]⟩

theorem changes_eq_nil_iff (old new : Value) : changes old new = [] ↔ old = new := by
  constructor
  · intro h
    by_contra hne
    obtain ⟨q, hq⟩ := exists_overwrites hne
    have hmem : (⟨q, old.lookup q, new.lookup q⟩ : Change) ∈ changes old new :=
      (mem_changes_iff old new _).mpr ⟨hq, rfl, rfl⟩
    rw [h] at hmem
    exact not_mem_nil hmem
  · rintro rfl
    rw [eq_nil_iff_forall_not_mem]
    intro c hc
    exact overwrites_irrefl old c.keys ((mem_changes_iff old old c).mp hc).1

theorem diff_eq_nil_iff (old new : Value) : diff old new = [] ↔ old = new := by
  rw [diff, diffAt_eq_changes, map_eq_nil_iff, changes_eq_nil_iff]

theorem Overwrites.leaf (h : Overwrites old new q) : Leaf old new q := by
  induction q generalizing old new with
  | nil => exact h.2
  | cons k =>
    obtain ⟨hold, hnew, h⟩ := h
    refine ⟨hold, hnew, ?_⟩
    cases ho : old.get? k <;> cases hn : new.get? k <;> simp_all

theorem Leaf.above {k : String} (h : Leaf old new (q ++ k :: r)) :
    (∃ m, old.lookup q = some (.object m)) ∧ ∃ n, new.lookup q = some (.object n) := by
  induction q generalizing old new with
  | nil =>
    obtain ⟨m, hm⟩ := (Value.isObject_iff old).mp h.1
    obtain ⟨n, hn⟩ := (Value.isObject_iff new).mp h.2.1
    exact ⟨⟨m, by rw [hm]; rfl⟩, ⟨n, by rw [hn]; rfl⟩⟩
  | cons j q ih =>
    obtain ⟨_, _, h⟩ := h
    cases ho : old.get? j <;> cases hn : new.get? j <;> simp_all [Value.lookup_cons]
    exact ih h

theorem Leaf.above_dropLast (h : Leaf old new q) (hne : q ≠ []) :
    (∃ m, old.lookup q.dropLast = some (.object m)) ∧
      ∃ n, new.lookup q.dropLast = some (.object n) := by
  rw [← dropLast_append_getLast hne] at h
  exact h.above

theorem Overwrites.lookup_ne (h : Overwrites old new q) : old.lookup q ≠ new.lookup q := by
  induction q generalizing old new with
  | nil => exact fun he => h.1 (some.inj he)
  | cons k =>
    obtain ⟨_, _, h⟩ := h
    cases ho : old.get? k <;> cases hn : new.get? k <;> simp_all [Value.lookup_cons]

theorem Leaf.not_both_objects (h : Leaf old new q) {m n : OrderedMap String Value}
    (hm : old.lookup q = some (.object m)) : new.lookup q ≠ some (.object n) := by
  induction q generalizing old new with
  | nil =>
    intro hn
    rw [Value.lookup_nil, some.injEq] at hm hn
    exact h (by simp [hm, hn])
  | cons k q ih =>
    obtain ⟨_, _, h⟩ := h
    cases ho : old.get? k <;> cases hn : new.get? k <;> simp_all [Value.lookup_cons]
    exact ih h hm

theorem Leaf.eq_of_isPrefix (hq : Leaf old new q) (hr : Leaf old new r) (h : q <+: r) : q = r := by
  obtain ⟨t, rfl⟩ := h
  cases t with
  | nil => simp
  | cons =>
    obtain ⟨⟨m, hm⟩, ⟨n, hn⟩⟩ := hr.above
    exact absurd hn (hq.not_both_objects hm)

theorem Leaf.lookup_ne_none (h : Leaf old new q) : old.lookup q ≠ none ∨ new.lookup q ≠ none := by
  induction q generalizing old new with
  | nil => exact .inl (some_ne_none _)
  | cons k =>
    obtain ⟨-, -, h⟩ := h
    cases ho : old.get? k <;> cases hn : new.get? k <;> simp_all [Value.lookup_cons]

theorem Leaf.allKeys {P : String → Prop} (h : Leaf old new q) (ho : old.AllKeys P)
    (hn : new.AllKeys P) : ∀ k ∈ q, P k := by
  rcases h.lookup_ne_none with hold | hnew
  · obtain ⟨v, hv⟩ := ne_none_iff_exists'.mp hold
    exact (ho.lookup hv).1
  · obtain ⟨w, hw⟩ := ne_none_iff_exists'.mp hnew
    exact (hn.lookup hw).1

structure Change.Reports (old new : Value) (c : Change) : Prop where
  leaf : Leaf old new c.keys
  after : c.after = new.lookup c.keys

theorem reports_of_mem {c : Change} (h : c ∈ changes old new) : c.Reports old new :=
  ⟨((mem_changes_iff old new c).mp h).1.leaf, ((mem_changes_iff old new c).mp h).2.2⟩

def Calm (old new : Value) (p : List String) : Prop := ∀ q, q <+: p → ¬ Overwrites old new q

theorem Calm.of_isPrefix {p : List String} (h : Calm old new p) (hr : r <+: p) :
    Calm old new r := fun q hq => h q (hq.trans hr)

theorem Calm.lookup {p : List String} (h : Calm old new p) : old.lookup p = new.lookup p ∨
      (∃ m, old.lookup p = some (.object m)) ∧ ∃ n, new.lookup p = some (.object n) := by
  induction p generalizing old new with
  | nil =>
    have h0 := h [] (prefix_refl [])
    by_cases he : old = new
    · exact .inl (by rw [he])
    · have hb : old.isObject = true ∧ new.isObject = true := by
        by_contra hb
        exact h0 ⟨he, hb⟩
      obtain ⟨m, rfl⟩ := (Value.isObject_iff old).mp hb.1
      obtain ⟨n, rfl⟩ := (Value.isObject_iff new).mp hb.2
      exact .inr ⟨⟨m, rfl⟩, ⟨n, rfl⟩⟩
  | cons k p ih =>
    have h0 := h [] nil_prefix
    by_cases he : old = new
    · exact .inl (by rw [he])
    · have hb : old.isObject = true ∧ new.isObject = true := by
        by_contra hb
        exact h0 ⟨he, hb⟩
      have hk : [k] <+: k :: p := ⟨p, rfl⟩
      rw [Value.lookup_cons, Value.lookup_cons]
      cases ho : old.get? k with
      | none =>
        cases hn : new.get? k with
        | none => exact .inl rfl
        | some => exact absurd ⟨hb.1, hb.2, by simp [ho, hn]⟩ (h [k] hk)
      | some =>
        cases hn : new.get? k with
        | none => exact absurd ⟨hb.1, hb.2, by simp [ho, hn]⟩ (h [k] hk)
        | some =>
          apply ih
          intro q hq hover
          refine h (k :: q) ((prefix_cons_inj k).mpr hq) ⟨hb.1, hb.2, ?_⟩
          simpa only [ho, hn] using hover

end Delta
end Sodp
