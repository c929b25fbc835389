import Sodp.JsonValue

/-!
# Walks along a path

An edit walks from a container along the segments of a path, puts a new container where the next
one is missing, and acts at the last segment. How a segment is read, which fields can be reached and
which kind of container is put in is up to the walker; a walker can also give up. Two walkers arrive
at one document if they take the same way, or if each changes nothing where their ways part.
-/

namespace Sodp
open OrderedMap List Option

inductive Container where
  | list (xs : List Value)
  | dict (m : OrderedMap String Value)

namespace Container

def toValue : Container → Value
  | .list xs => .array xs
  | .dict m => .object m

def fresh (isList : Bool) : Container := if isList then .list [] else .dict .empty

def isList : Container → Bool
  | .list _ => true
  | .dict _ => false

theorem toValue_injective : Function.Injective toValue := by
  intro c d h
  cases c <;> cases d <;> cases h <;> rfl

theorem isList_fresh (b : Bool) : (fresh b).isList = b := by cases b <;> rfl

end Container

def Value.container? : Value → Option Container
  | .array xs => some (.list xs)
  | .object m => some (.dict m)
  | _ => none

theorem Value.container?_toValue (c : Container) : c.toValue.container? = some c := by
  cases c <;> rfl

variable {c : Container}

theorem Value.container?_eq_some_iff {v : Value} :
    v.container? = some c ↔ v = c.toValue := by
  refine ⟨fun h => ?_, fun h => h ▸ container?_toValue c⟩
  cases v <;> cases h <;> rfl

variable {child : Option Value}

theorem bind_container?_eq_some_iff :
    child.bind Value.container? = some c ↔ child = some c.toValue := by
  rw [bind_eq_some_iff]
  constructor
  · rintro ⟨v, hv, hc⟩
    rw [hv, Value.container?_eq_some_iff.mp hc]
  · intro h
    exact ⟨_, h, Value.container?_toValue c⟩

inductive Spot where
  | keep
  | index (i : ℕ)
  | cut (k : ℕ)
deriving DecidableEq

def Spot.Fits (edit : Option Value) (n : ℕ) : Spot → Prop
  | .keep => True
  | .index i => if edit.isSome then i ≤ n else i < n
  | .cut k => edit.isSome = true ∧ k < n

/-- How the segments of a path are read. `target` is the position in a list that the walk goes on
from, if any, and `place` what it does at the end, by the length of the list. Without an answer
there is no document. -/
structure Walker where
  target : String → ℕ → Option (Option ℕ)
  place : Option Value → String → ℕ → Option Spot
  enters : String → OrderedMap String Value → Bool
  assigns : String → OrderedMap String Value → Bool
  isList : String → Bool
  target_lt : ∀ {key n i}, target key n = some (some i) → i < n
  fits : ∀ {edit last n p}, place edit last n = some p → p.Fits edit n

variable {m : OrderedMap String Value}

namespace Walker

def write (edit : Option Value) (xs : List Value) : Spot → List Value
  | .keep => xs
  | .index i =>
    match edit with
    | none => xs.eraseIdx i
    | some v => if i < xs.length then xs.set i v else xs ++ [v]
  | .cut k => xs.take k

def assign (W : Walker) (edit : Option Value) (last : String) (m : OrderedMap String Value) :
    OrderedMap String Value :=
  match edit with
  | none => m.erase last
  | some v => if W.assigns last m then m.insert last v else m

def enter (W : Walker) (next : String) (child : Option Value) : Container :=
  (child.bind Value.container?).getD (.fresh (W.isList next))

def walk (W : Walker) (edit : Option Value) : String → List String → Container → Option Container
  | last, [], .list xs => (W.place edit last xs.length).map fun p => .list (write edit xs p)
  | last, [], .dict m => some (.dict (W.assign edit last m))
  | key, next :: rest, .list xs =>
    match W.target key xs.length with
    | none => none
    | some none => some (.list xs)
    | some (some i) => (W.walk edit next rest (W.enter next xs[i]?)).map fun c =>
      .list (xs.set i c.toValue)
  | key, next :: rest, .dict m =>
    if W.enters key m then
      (W.walk edit next rest (W.enter next (m.get? key))).map fun c =>
        .dict (m.insert key c.toValue)
    else none

variable {c : Container} {edit : Option Value} {W : Walker} {rest : List String}
  {next seg : String} {xs : List Value} {v : Value} {p q : Spot} {k : ℕ}

theorem enter_of_eq_toValue (W : Walker) (next : String) (h : child = some c.toValue) :
    W.enter next child = c := by
  rw [enter, bind_container?_eq_some_iff.mpr h, getD_some]

theorem isList_of_walk {r : Container} (h : W.walk edit seg rest c = some r) :
    r.isList = c.isList := by
  cases rest with
  | nil =>
    cases c with
    | list =>
      obtain ⟨p, -, rfl⟩ := map_eq_some_iff.mp h
      rfl
    | dict =>
      cases h
      rfl
  | cons =>
    cases c with
    | list =>
      rw [walk] at h
      split at h
      · cases h
      · cases h
        rfl
      · obtain ⟨c, -, rfl⟩ := map_eq_some_iff.mp h
        rfl
    | dict =>
      rw [walk] at h
      split_ifs at h
      obtain ⟨c, -, rfl⟩ := map_eq_some_iff.mp h
      rfl

/-! ### Edits that change nothing -/

def still (edit : Option Value) (xs : List Value) : Spot → Bool
  | .keep => true
  | .index i => edit.any fun v => xs[i]? = some v
  | .cut _ => false

def stillField (W : Walker) (edit : Option Value) (last : String) (m : OrderedMap String Value) :
    Bool :=
  match edit with
  | none => (m.get? last).isNone
  | some v => !W.assigns last m || m.get? last = some v

def inert (W : Walker) (edit : Option Value) : String → List String → Container → Bool
  | last, [], .list xs => (W.place edit last xs.length).any fun p => still edit xs p
  | last, [], .dict m => W.stillField edit last m
  | key, next :: rest, .list xs =>
    (W.target key xs.length).any fun p => p.all fun i =>
      (xs[i]?.bind Value.container?).any fun c => W.inert edit next rest c
  | key, next :: rest, .dict m =>
    W.enters key m && ((m.get? key).bind Value.container?).any fun c => W.inert edit next rest c

variable {i : ℕ}

theorem set_eq_self_iff (hi : i < xs.length) : xs.set i v = xs ↔ xs[i]? = some v := by
  constructor
  · intro h
    rw [← h, getElem?_set_self hi]
  · intro h
    refine ext_getElem? fun j => ?_
    by_cases hj : i = j
    · subst hj
      rw [getElem?_set_self hi, h]
    · rw [getElem?_set_ne hj]

theorem write_eq_self_iff (hp : p.Fits edit xs.length) :
    write edit xs p = xs ↔ still edit xs p = true := by
  cases p with
  | keep => simp [write, still]
  | index i =>
    cases edit with
    | none =>
      have hi : i < xs.length := hp
      refine iff_of_false (fun h => ?_) (by simp [still])
      have hlen := congrArg List.length h
      rw [write, length_eraseIdx_of_lt hi] at hlen
      omega
    | some =>
      simp only [write, still, any_some, decide_eq_true_eq]
      split_ifs with hi
      · exact set_eq_self_iff hi
      · have hnone : xs[i]? = none := getElem?_eq_none (by omega)
        simp [hnone]
  | cut k =>
    have hk : k < xs.length := hp.2
    refine iff_of_false (fun h => ?_) (by simp [still])
    have hlen := congrArg List.length h
    rw [write, length_take] at hlen
    omega

theorem assign_eq_self_iff {last : String} :
    W.assign edit last m = m ↔ W.stillField edit last m = true := by
  cases edit with
  | none =>
    rw [assign, stillField, isNone_iff_eq_none]
    constructor
    · intro h
      rw [← h, get?_erase, if_pos rfl]
    · intro h
      refine ext_get? fun k => ?_
      by_cases hk : k = last
      · rw [hk, get?_erase, if_pos rfl, h]
      · rw [get?_erase_of_ne m hk]
  | some =>
    simp only [assign, stillField, Bool.or_eq_true, Bool.not_eq_true', decide_eq_true_eq]
    split_ifs with hassigns
    · rw [insert_eq_self_iff]
      simp [hassigns]
    · simp [hassigns]

theorem walk_eq_self_iff : W.walk edit seg rest c = some c ↔ W.inert edit seg rest c = true := by
  induction rest generalizing seg c with
  | nil =>
    cases c with
    | list xs =>
      rw [walk, inert]
      cases hplace : W.place edit seg xs.length with
      | none => simp
      | some =>
        simp only [map_some, some.injEq, Container.list.injEq, any_some]
        exact write_eq_self_iff (W.fits hplace)
    | dict =>
      rw [walk, inert, some.injEq, Container.dict.injEq, assign_eq_self_iff]
  | cons next rest ih =>
    have hchild : ∀ {child : Option Value}, (∃ d : Container, child = some d.toValue ∧
        W.walk edit next rest (W.enter next child) = some d) ↔
          ((child.bind Value.container?).any fun c => W.inert edit next rest c) = true := by
      intro child
      rw [Option.any_eq_true]
      refine exists_congr fun d => ?_
      rw [bind_container?_eq_some_iff]
      refine and_congr_right fun hd => ?_
      rw [W.enter_of_eq_toValue next hd, ih]
    cases c with
    | list xs =>
      rw [walk, inert]
      cases htarget : W.target seg xs.length with
      | none => simp
      | some p =>
        cases p with
        | none => simp
        | some =>
          rw [any_some, all_some, ← hchild, map_eq_some_iff]
          refine exists_congr fun d => ?_
          rw [Container.list.injEq, set_eq_self_iff (W.target_lt htarget), and_comm]
    | dict =>
      rw [walk, inert, Bool.and_eq_true, ← hchild]
      split_ifs with henters
      · rw [and_iff_right henters, map_eq_some_iff]
        refine exists_congr fun d => ?_
        rw [Container.dict.injEq, insert_eq_self_iff, and_comm]
      · exact iff_of_false nofun fun h => henters h.1

/-! ### Two walkers -/

def sameWrite (edit : Option Value) (xs : List Value) (p q : Spot) : Bool :=
  match edit, p, q with
  | some _, p, q => p = q || still edit xs p && still edit xs q
  | none, .index i, .index j => xs.eraseIdx i = xs.eraseIdx j
  | none, p, q => p = q

def sameChild (W V : Walker) (same : Container → Bool) (next : String) (child : Option Value) :
    Bool :=
  match child.bind Value.container? with
  | some c => same c
  | none => W.isList next = V.isList next && same (.fresh (W.isList next))

/-- Two walkers take one way, or change nothing from where their ways part. -/
def same (W V : Walker) (edit : Option Value) : String → List String → Container → Bool
  | last, [], .list xs =>
    (W.place edit last xs.length).any fun p => (V.place edit last xs.length).any fun q =>
      sameWrite edit xs p q
  | last, [], .dict m =>
    edit.all fun v => W.assigns last m = V.assigns last m || m.get? last = some v
  | key, next :: rest, .list xs =>
    (W.target key xs.length).any fun p => (V.target key xs.length).any fun q =>
      if p = q then p.all fun i => sameChild W V (fun c => same W V edit next rest c) next xs[i]?
      else
        (p.all fun i => (xs[i]?.bind Value.container?).any fun c => W.inert edit next rest c) &&
        q.all fun i => (xs[i]?.bind Value.container?).any fun c => V.inert edit next rest c
  | key, next :: rest, .dict m =>
    W.enters key m && V.enters key m &&
      sameChild W V (fun c => same W V edit next rest c) next (m.get? key)

theorem eq_of_apart {ys : List Value} {p q : Option ℕ} (hpq : p ≠ q)
    (hp : ∀ k, p ≠ some k → ys[k]? = xs[k]?) (hq : ∀ k, q ≠ some k → ys[k]? = xs[k]?) :
    ys = xs := by
  refine ext_getElem? fun k => ?_
  by_cases hk : p = some k
  · exact hq k fun h => hpq (hk.trans h.symm)
  · exact hp k hk

theorem getElem?_write_of_ne (hi : i ≤ xs.length) (hk : some i ≠ some k) :
    (write (some v) xs (.index i))[k]? = xs[k]? := by
  have hne : i ≠ k := fun h => hk (congrArg some h)
  rw [write]
  split_ifs
  · exact getElem?_set_ne hne
  · rw [getElem?_append]
    split_ifs
    · rfl
    · rw [getElem?_eq_none (by rw [length_singleton]; omega), getElem?_eq_none (by omega)]

theorem write_cut_ne (hk : k < xs.length) (hq : q.Fits (some v) xs.length) (hne : q ≠ .cut k) :
    write (some v) xs (.cut k) ≠ write (some v) xs q := by
  intro h
  have hlen := congrArg List.length h
  rw [write, length_take, min_eq_left hk.le] at hlen
  cases q with
  | keep =>
    rw [write] at hlen
    omega
  | index i =>
    have hle : xs.length ≤ (write (some v) xs (.index i)).length := by
      rw [write]
      split_ifs
      · rw [length_set]
      · rw [length_append]
        omega
    omega
  | cut j =>
    have hj : j < xs.length := hq.2
    rw [write, length_take, min_eq_left hj.le] at hlen
    exact hne (congrArg Spot.cut hlen.symm)

theorem write_eq_self_of_ne (hpq : p ≠ q) (hp : p.Fits (some v) xs.length)
    (hq : q.Fits (some v) xs.length) (h : write (some v) xs p = write (some v) xs q) :
    write (some v) xs p = xs := by
  cases p with
  | keep => rfl
  | cut => exact absurd h (write_cut_ne hp.2 hq hpq.symm)
  | index i =>
    cases q with
    | keep => exact h
    | cut => exact absurd h.symm (write_cut_ne hq.2 hp hpq)
    | index j =>
      have hij : some i ≠ some j := fun hij => hpq (congrArg Spot.index (some.inj hij))
      exact eq_of_apart hij (fun k => getElem?_write_of_ne hp) fun k hk =>
        h ▸ getElem?_write_of_ne hq hk

theorem write_eq_write_iff (hp : p.Fits edit xs.length) (hq : q.Fits edit xs.length) :
    write edit xs p = write edit xs q ↔ sameWrite edit xs p q = true := by
  have hpself := write_eq_self_iff hp
  have hqself := write_eq_self_iff hq
  cases edit with
  | none =>
    cases p with
    | cut => cases hp.1
    | keep =>
      cases q with
      | keep => simp [sameWrite]
      | index =>
        exact iff_of_false (fun h => Bool.false_ne_true (hqself.mp h.symm)) (by simp [sameWrite])
      | cut => cases hq.1
    | index =>
      cases q with
      | keep => exact iff_of_false (fun h => Bool.false_ne_true (hpself.mp h)) (by simp [sameWrite])
      | index => simp [sameWrite, write]
      | cut => cases hq.1
  | some =>
    rw [sameWrite, Bool.or_eq_true, Bool.and_eq_true, decide_eq_true_eq]
    by_cases hpq : p = q
    · rw [hpq]
      exact iff_of_true rfl (.inl rfl)
    · rw [or_iff_right hpq, ← hpself, ← hqself]
      constructor
      · intro h
        have hself := write_eq_self_of_ne hpq hp hq h
        exact ⟨hself, h ▸ hself⟩
      · rintro ⟨h, h'⟩
        rw [h, h']

theorem getElem?_of_walk {key : String} {ys : List Value} {p : Option ℕ}
    (htarget : W.target key xs.length = some p)
    (h : W.walk edit key (next :: rest) (.list xs) = some (.list ys)) (hk : p ≠ some k) :
    ys[k]? = xs[k]? := by
  rw [walk, htarget] at h
  cases p with
  | none =>
    cases h
    rfl
  | some =>
    obtain ⟨c, -, hc⟩ := map_eq_some_iff.mp h
    cases hc
    exact getElem?_set_ne fun h => hk (congrArg some h)

theorem sameChild_iff {V : Walker}
    (ih : ∀ {c}, same W V edit next rest c = true ↔
      ∃ r, W.walk edit next rest c = some r ∧ V.walk edit next rest c = some r) :
    sameChild W V (fun c => same W V edit next rest c) next child = true ↔
      ∃ r, W.walk edit next rest (W.enter next child) = some r ∧
        V.walk edit next rest (V.enter next child) = some r := by
  rw [sameChild, enter, enter]
  cases child.bind Value.container? with
  | some => exact ih
  | none =>
    rw [Bool.and_eq_true, decide_eq_true_eq, ih, getD_none, getD_none]
    constructor
    · rintro ⟨hlist, h⟩
      rwa [← hlist]
    · rintro ⟨r, hr, hr'⟩
      have hlist : W.isList next = V.isList next := by
        rw [← Container.isList_fresh (W.isList next), ← isList_of_walk hr, isList_of_walk hr',
          Container.isList_fresh]
      exact ⟨hlist, r, hr, hlist ▸ hr'⟩

section Same
variable {W V : Walker} {edit : Option Value} {seg next : String} {rest : List String}
  {xs : List Value}

theorem same_list_last_iff : same W V edit seg [] (.list xs) = true ↔
    ∃ r, W.walk edit seg [] (.list xs) = some r ∧ V.walk edit seg [] (.list xs) = some r := by
  simp only [same, walk, Option.any_eq_true]
  constructor
  · rintro ⟨p, hp, q, hq, h⟩
    have heq := (write_eq_write_iff (W.fits hp) (V.fits hq)).mpr h
    refine ⟨.list (write edit xs p), ?_, ?_⟩
    · rw [hp, Option.map_some]
    · rw [hq, Option.map_some, heq]
  · rintro ⟨r, hr, hr'⟩
    obtain ⟨p, hp, rfl⟩ := Option.map_eq_some_iff.mp hr
    obtain ⟨q, hq, heq⟩ := Option.map_eq_some_iff.mp hr'
    exact ⟨p, hp, q, hq, (write_eq_write_iff (W.fits hp) (V.fits hq)).mp
      (Container.list.inj heq).symm⟩

theorem same_dict_last_iff : same W V edit seg [] (.dict m) = true ↔
      ∃ r, W.walk edit seg [] (.dict m) = some r ∧ V.walk edit seg [] (.dict m) = some r := by
  simp only [same, walk, some.injEq, exists_eq_left', Container.dict.injEq]
  cases edit with
  | none => simp [assign]
  | some =>
    rw [all_some, Bool.or_eq_true, decide_eq_true_eq, decide_eq_true_eq, assign, assign]
    cases W.assigns seg m <;> cases V.assigns seg m <;>
      simp [insert_eq_self_iff, @eq_comm _ m]

theorem exists_map_eq_iff {f : Container → Container} (hf : Function.Injective f)
    {x y : Option Container} : (∃ r, x.map f = some r ∧ y.map f = some r) ↔
      ∃ r, x = some r ∧ y = some r := by
  cases x <;> cases y <;> simp [hf.eq_iff]

theorem set_toValue_injective (hi : i < xs.length) :
    Function.Injective fun c : Container => Container.list (xs.set i c.toValue) := by
  intro c d h
  have hget := congrArg (fun l : List Value => l[i]?) (Container.list.inj h)
  simp only [List.getElem?_set_self hi, some.injEq] at hget
  exact Container.toValue_injective hget

theorem insert_toValue_injective (m : OrderedMap String Value) (key : String) :
    Function.Injective fun c : Container => Container.dict (m.insert key c.toValue) := by
  intro c d h
  have hget := congrArg (fun n => OrderedMap.get? n key) (Container.dict.inj h)
  simp only [get?_insert_self, some.injEq] at hget
  exact Container.toValue_injective hget

theorem same_list_iff (ih : ∀ {c}, same W V edit next rest c = true ↔
      ∃ r, W.walk edit next rest c = some r ∧ V.walk edit next rest c = some r) :
    same W V edit seg (next :: rest) (.list xs) = true ↔
      ∃ r, W.walk edit seg (next :: rest) (.list xs) = some r ∧
        V.walk edit seg (next :: rest) (.list xs) = some r := by
  rw [same]
  cases hp : W.target seg xs.length with
  | none => simp [walk, hp]
  | some p =>
    cases hq : V.target seg xs.length with
    | none => simp [walk, hq]
    | some q =>
      rw [any_some, any_some]
      by_cases hpq : p = q
      · subst hpq
        rw [if_pos rfl, walk, walk, hp, hq]
        cases p with
        | none => simp
        | some =>
          exact (sameChild_iff ih).trans
            (exists_map_eq_iff (set_toValue_injective (W.target_lt hp))).symm
      · rw [if_neg hpq, Bool.and_eq_true]
        constructor
        · intro h
          refine ⟨.list xs, walk_eq_self_iff.mpr ?_, walk_eq_self_iff.mpr ?_⟩
          · rw [inert, hp]
            exact h.1
          · rw [inert, hq]
            exact h.2
        · rintro ⟨r, hr, hr'⟩
          obtain ⟨ys, rfl⟩ : ∃ ys, r = .list ys := by
            cases r with
            | list ys => exact ⟨ys, rfl⟩
            | dict => cases isList_of_walk hr
          obtain rfl : ys = xs := eq_of_apart hpq (fun k => getElem?_of_walk hp hr)
            fun k => getElem?_of_walk hq hr'
          have hinert := walk_eq_self_iff.mp hr
          have hinert' := walk_eq_self_iff.mp hr'
          rw [inert, hp] at hinert
          rw [inert, hq] at hinert'
          exact ⟨hinert, hinert'⟩

theorem same_dict_iff (ih : ∀ {c}, same W V edit next rest c = true ↔
      ∃ r, W.walk edit next rest c = some r ∧ V.walk edit next rest c = some r) :
    same W V edit seg (next :: rest) (.dict m) = true ↔
      ∃ r, W.walk edit seg (next :: rest) (.dict m) = some r ∧
        V.walk edit seg (next :: rest) (.dict m) = some r := by
  rw [same, Bool.and_eq_true, Bool.and_eq_true, sameChild_iff ih, walk, walk]
  split_ifs with hW hV
  · rw [exists_map_eq_iff (insert_toValue_injective m seg)]
    simp [hW, hV]
  · simp [hV]
  · simp [hW]
  · simp [hW]

theorem same_iff : same W V edit seg rest c = true ↔
    ∃ r, W.walk edit seg rest c = some r ∧ V.walk edit seg rest c = some r := by
  induction rest generalizing seg c with
  | nil =>
    cases c with
    | list => exact same_list_last_iff
    | dict => exact same_dict_last_iff
  | cons next rest ih =>
    cases c with
    | list => exact same_list_iff ih
    | dict => exact same_dict_iff ih

end Same

end Walker

end Sodp
