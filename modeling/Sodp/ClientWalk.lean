import Mathlib.Data.List.InsertIdx
import Sodp.DeltaApply
import Sodp.PathWalk

/-!
# The TypeScript client as a walker

The client's applier on JSON documents. A segment is read in an array by `Number`, and what an
assignment makes of an odd one is mostly no JSON document any more. `length` can be assigned and
shortens the array, and `__proto__` can be assigned without a trace. The applier returns a
document exactly if `walker` does.
-/

namespace Sodp
open OrderedMap List Option JsValue

namespace JsValue

theorem array_eq_ofJson_iff {elems : List (Option JsValue)} {props : List (ArrayKey × JsValue)}
    {r : Value} :
    JsValue.array elems props = ofJson r ↔ props = [] ∧ ∃ ys, elems = ofJsonList ys ∧
      r = .array ys := by
  constructor
  · intro h
    cases r with
    | array ys =>
      rw [ofJson, array.injEq] at h
      exact ⟨h.2, ys, h.1, rfl⟩
    | object => rw [ofJson_object] at h; cases h
    | null | bool | number | string => cases h
  · rintro ⟨rfl, ys, rfl, rfl⟩
    rw [ofJson]

theorem array_ofJsonList_eq_ofJson_iff {ys : List Value} {r : Value} :
    JsValue.array (ofJsonList ys) [] = ofJson r ↔ r = .array ys := by
  rw [← ofJson, ofJson_injective.eq_iff, eq_comm]

theorem ofJsonList_append (xs ys : List Value) :
    ofJsonList (xs ++ ys) = ofJsonList xs ++ ofJsonList ys := by
  simp only [ofJsonList_eq_map, map_append]

theorem ofJsonList_set (xs : List Value) (i : ℕ) (v : Value) :
    ofJsonList (xs.set i v) = (ofJsonList xs).set i (some (ofJson v)) := by
  simp only [ofJsonList_eq_map, map_set]

theorem none_notMem_ofJsonList (xs : List Value) : none ∉ ofJsonList xs := by
  rw [ofJsonList_eq_map]
  simp

end JsValue

namespace Client
open JsNumber (stringToNumber)

/-- `length = num` on an array without gaps. -/
def lengthSpot (num : JsNumber) (n : ℕ) : Option Spot :=
  match num with
  | .finite q =>
    if q.den = 1 ∧ 0 ≤ q.num ∧ q.num ≤ maxArrayLength ∧ q.num.toNat ≤ n then
      some (if q.num.toNat = n then .keep else .cut q.num.toNat)
    else none
  | _ => none

def assignSpot (v : Value) (last : String) (n : ℕ) : Option Spot :=
  if last = "-" then if n < maxArrayLength then some (.index n) else none
  else if stringToNumber last ≠ .nan then
    (arrayIndex? (stringToNumber last)).bind fun i => if i ≤ n then some (.index i) else none
  else if last = "length" then lengthSpot (JsValue.ofJson v).toNumber n
  else if last = "__proto__" then some .keep
  else none

def removeSpot (last : String) (n : ℕ) : Option Spot :=
  if last = "-" then some (if n = 0 then .keep else .index (n - 1))
  else if stringToNumber last ≠ .nan then
    some (if spliceStart (stringToNumber last) n < n then
      .index (spliceStart (stringToNumber last) n) else .keep)
  else if last = "length" then none
  else some .keep

variable {r v : Value} {n : ℕ} {p : Spot} {last : String} {idx : JsNumber}
  {m : OrderedMap String Value} {xs : List Value} {kind : DeltaOpKind} {value : JsValue}
  {edit : Option Value}

theorem fits_lengthSpot {num : JsNumber} (h : lengthSpot num n = some p) : p.Fits (some v) n := by
  cases num with
  | nan | infinity => cases h
  | finite =>
    rw [lengthSpot] at h
    split_ifs at h
    · cases h
      trivial
    · cases h
      exact ⟨rfl, by omega⟩

theorem fits_assignSpot (h : assignSpot v last n = some p) : p.Fits (some v) n := by
  rw [assignSpot] at h
  split_ifs at h
  · cases h
    exact le_rfl
  · obtain ⟨i, -, hi⟩ := bind_eq_some_iff.mp h
    split_ifs at hi with hle
    cases hi
    exact hle
  · exact fits_lengthSpot h
  · cases h
    trivial

theorem fits_removeSpot (h : removeSpot last n = some p) : p.Fits none n := by
  rw [removeSpot] at h
  split_ifs at h with hlast hn hnan hstart <;> cases h
  · trivial
  · exact Nat.sub_lt (Nat.pos_of_ne_zero hn) Nat.one_pos
  · exact hstart
  · trivial
  · trivial

theorem arrayIndex?_lt_of_inRange {i : ℕ} (hrange : inRange idx n = true)
    (hi : arrayIndex? idx = some i) : i < n := by
  cases idx with
  | nan | infinity => cases hi
  | finite q =>
    rw [arrayIndex?] at hi
    split_ifs at hi with hq
    cases hi
    rw [inRange, Bool.and_eq_true, decide_eq_true_eq, decide_eq_true_eq] at hrange
    have hnum : q = (q.num : ℚ) := (Rat.den_eq_one_iff q).mp hq.1 |>.symm
    have hlt : (q.num : ℚ) < (n : ℚ) := hnum ▸ hrange.2
    have hlt' : q.num < (n : ℤ) := by exact_mod_cast hlt
    omega

def walker : Walker where
  target key n :=
    if inRange (stringToNumber key) n then (arrayIndex? (stringToNumber key)).map some
    else some none
  place edit last n :=
    match edit with
    | some v => assignSpot v last n
    | none => removeSpot last n
  enters key m := ¬ (key = "__proto__" ∧ m.get? key = none)
  assigns last m := ¬ (last = "__proto__" ∧ m.get? last = none)
  isList segment := segment = "-" || 0 < segment.length && segment.toList.all Char.isDigit
  target_lt := by
    intro key n i h
    split_ifs at h with hrange
    · obtain ⟨j, hj, hji⟩ := map_eq_some_iff.mp h
      cases hji
      exact arrayIndex?_lt_of_inRange hrange hj
    · cases h
  fits := by
    intro edit last n p h
    cases edit with
    | some => exact fits_assignSpot h
    | none => exact fits_removeSpot h

theorem walker_assigns :
    walker.assigns last m = true ↔ ¬ (last = "__proto__" ∧ m.get? last = none) :=
  decide_eq_true_iff

theorem walker_enters {key : String} :
    walker.enters key m = true ↔ ¬ (key = "__proto__" ∧ m.get? key = none) :=
  decide_eq_true_iff

/-! ### The last segment -/

theorem writeIndex_eq_ofJson_iff :
    writeIndex (JsValue.ofJsonList xs) [] idx (.ofJson v) = .ofJson r ↔
      ∃ i, arrayIndex? idx = some i ∧ i ≤ xs.length ∧
        r = .array (Walker.write (some v) xs (.index i)) := by
  rw [writeIndex]
  cases arrayIndex? idx with
  | none => simp [array_eq_ofJson_iff, setProp]
  | some i =>
    simp only [some.injEq, exists_eq_left', Walker.write]
    have hlen := length_ofJsonList xs
    rcases lt_trichotomy i xs.length with hi | hi | hi
    · rw [if_pos hi, and_iff_right hi.le, Nat.sub_eq_zero_of_le (by omega), replicate_zero,
        append_nil, ← ofJsonList_set, array_ofJsonList_eq_ofJson_iff]
    · subst hi
      rw [if_neg (lt_irrefl _), and_iff_right le_rfl, hlen, Nat.add_sub_cancel_left]
      have happend : (JsValue.ofJsonList xs ++ List.replicate 1 none).set xs.length
          (some (.ofJson v)) = JsValue.ofJsonList (xs ++ [v]) := by
        rw [← hlen, set_append_right _ _ le_rfl, Nat.sub_self, ofJsonList_append]
        rfl
      rw [happend, array_ofJsonList_eq_ofJson_iff]
    · refine iff_of_false (fun h => ?_) fun h => absurd h.1 (by omega)
      obtain ⟨-, ys, hys, -⟩ := array_eq_ofJson_iff.mp h
      refine none_notMem_ofJsonList ys (mem_iff_getElem?.mpr ⟨xs.length, ?_⟩)
      rw [← hys, getElem?_set_ne (by omega), getElem?_append_right (by omega), hlen,
        Nat.sub_self, getElem?_replicate, if_pos (by omega)]

theorem setLength_eq_ofJson_iff {w : JsValue} :
    setLength (JsValue.ofJsonList xs) [] w = .ok (.ofJson r) ↔
      ∃ p, lengthSpot w.toNumber xs.length = some p ∧ r = .array (Walker.write (some v) xs p) := by
  rw [setLength]
  cases w.toNumber with
  | nan | infinity => simp [lengthSpot]
  | finite q =>
    dsimp only [lengthSpot]
    by_cases hq : q.den = 1 ∧ 0 ≤ q.num ∧ q.num ≤ maxArrayLength
    · rw [if_pos hq, Except.ok.injEq, length_ofJsonList]
      by_cases hle : q.num.toNat ≤ xs.length
      · rw [if_pos ⟨hq.1, hq.2.1, hq.2.2, hle⟩, Nat.sub_eq_zero_of_le hle, replicate_zero,
          append_nil, ofJsonList_eq_map, ← map_take,
          ← ofJsonList_eq_map, array_ofJsonList_eq_ofJson_iff]
        simp only [some.injEq, exists_eq_left']
        split_ifs with hn
        · rw [hn, take_length, Walker.write]
        · rw [Walker.write]
      · rw [if_neg fun h => hle h.2.2.2]
        refine iff_of_false (fun h => ?_) (by simp)
        obtain ⟨-, ys, hys, -⟩ := array_eq_ofJson_iff.mp h
        refine none_notMem_ofJsonList ys (hys ▸ mem_append_right _ ?_)
        exact mem_replicate.mpr ⟨by omega, rfl⟩
    · rw [if_neg hq, if_neg fun h => hq ⟨h.1, h.2.1, h.2.2.1⟩]
      simp

def Carries (kind : DeltaOpKind) (value : JsValue) : Option Value → Prop
  | some v => kind ≠ .remove ∧ value = .ofJson v
  | none => kind = .remove

theorem applyLast_assign (hkind : kind ≠ .remove) (value : JsValue) (last : String)
    (elems : List (Option JsValue)) (props : List (ArrayKey × JsValue)) :
    applyLast kind value last (.array elems props) = if last = "-" then push elems props value
      else if stringToNumber last ≠ .nan then
        .ok (writeIndex elems props (stringToNumber last) value)
      else assignName elems props last value := by
  cases kind with
  | add | update => rfl
  | remove => exact absurd rfl hkind

theorem assign_eq_ofJson_iff (hkind : kind ≠ .remove) :
    applyLast kind (.ofJson v) last (.array (JsValue.ofJsonList xs) []) = .ok (.ofJson r) ↔
      ∃ p, assignSpot v last xs.length = some p ∧ r = .array (Walker.write (some v) xs p) := by
  rw [applyLast_assign hkind, assignSpot]
  split_ifs with hlast hfull hnan hlength hproto
  · rw [push, if_pos (by rwa [length_ofJsonList]), Except.ok.injEq]
    have happend : JsValue.ofJsonList xs ++ [some (.ofJson v)] = JsValue.ofJsonList (xs ++ [v]) :=
      (ofJsonList_append xs [v]).symm
    rw [happend, array_ofJsonList_eq_ofJson_iff]
    simp [Walker.write]
  · rw [push, if_neg (by rwa [length_ofJsonList])]
    simp
  · rw [Except.ok.injEq, writeIndex_eq_ofJson_iff]
    simp [bind_eq_some_iff, and_assoc]
  · rw [assignName, if_pos hlength]
    exact setLength_eq_ofJson_iff
  · rw [assignName, if_neg hlength, if_pos hproto, Except.ok.injEq,
      array_ofJsonList_eq_ofJson_iff]
    simp [Walker.write]
  · rw [assignName, if_neg hlength, if_neg hproto, Except.ok.injEq, array_eq_ofJson_iff]
    simp [setProp]

theorem remove_eq_ofJson_iff :
    applyLast .remove value last (.array (JsValue.ofJsonList xs) []) = .ok (.ofJson r) ↔
      ∃ p, removeSpot last xs.length = some p ∧ r = .array (Walker.write none xs p) := by
  have hsplit : applyLast .remove value last (.array (JsValue.ofJsonList xs) []) =
      if last = "-" then .ok (.array (JsValue.ofJsonList xs).dropLast [])
      else if stringToNumber last ≠ .nan then
        .ok (.array ((JsValue.ofJsonList xs).eraseIdx (spliceStart (stringToNumber last)
          (JsValue.ofJsonList xs).length)) [])
      else deleteName (JsValue.ofJsonList xs) [] last := rfl
  have herase : ∀ i, (JsValue.ofJsonList xs).eraseIdx i = JsValue.ofJsonList (xs.eraseIdx i) := by
    intro i
    rw [ofJsonList_eq_map, ofJsonList_eq_map, eraseIdx_map]
  have hdrop : (JsValue.ofJsonList xs).dropLast = JsValue.ofJsonList xs.dropLast := by
    rw [ofJsonList_eq_map, ofJsonList_eq_map, map_dropLast]
  rw [hsplit, removeSpot, length_ofJsonList]
  split_ifs with hlast hn hnan hstart hlength
  · rw [hdrop, Except.ok.injEq, array_ofJsonList_eq_ofJson_iff]
    simp [length_eq_zero_iff.mp hn, Walker.write]
  · rw [hdrop, Except.ok.injEq, array_ofJsonList_eq_ofJson_iff,
      @List.dropLast_eq_eraseIdx _ xs (xs.length - 1) (by omega)]
    simp [Walker.write]
  · rw [Except.ok.injEq, herase, array_ofJsonList_eq_ofJson_iff]
    simp [Walker.write]
  · rw [Except.ok.injEq, herase, array_ofJsonList_eq_ofJson_iff,
      eraseIdx_of_length_le (by omega)]
    simp [Walker.write]
  · rw [deleteName, if_pos hlength]
    simp
  · rw [deleteName, if_neg hlength, Except.ok.injEq, filter_nil,
      array_ofJsonList_eq_ofJson_iff]
    simp [Walker.write]

theorem applyField_eq_ofJson_iff (h : Carries kind value edit) :
    applyLast kind value last (.object (m.map JsValue.ofJson)) = .ok (.ofJson r) ↔
      r = .object (walker.assign edit last m) := by
  have hobject : ∀ n : OrderedMap String Value,
      JsValue.object (n.map JsValue.ofJson) = .ofJson r ↔ r = .object n := by
    intro n
    rw [← ofJson_object, ofJson_injective.eq_iff, eq_comm]
  cases edit with
  | none =>
    obtain rfl : kind = .remove := h
    change Except.ok (JsValue.object ((m.map JsValue.ofJson).erase last)) = _ ↔ _
    rw [Except.ok.injEq, ← OrderedMap.map_erase, hobject, Walker.assign]
  | some v =>
    obtain ⟨hkind, rfl⟩ := h
    have hassign : applyLast kind (.ofJson v) last (.object (m.map JsValue.ofJson)) =
        if last = "__proto__" ∧ (m.map JsValue.ofJson).get? last = none then
          .ok (.object (m.map JsValue.ofJson))
        else .ok (.object ((m.map JsValue.ofJson).insert last (.ofJson v))) := by
      cases kind with
      | add | update => rfl
      | remove => exact absurd rfl hkind
    rw [hassign, get?_map, Walker.assign]
    by_cases hproto : last = "__proto__" ∧ m.get? last = none
    · rw [if_pos ⟨hproto.1, map_eq_none_iff.mpr hproto.2⟩, Except.ok.injEq, hobject,
        if_neg fun h => walker_assigns.mp h hproto]
    · rw [if_neg fun h => hproto ⟨h.1, map_eq_none_iff.mp h.2⟩, Except.ok.injEq,
        ← map_insert, hobject, if_pos (walker_assigns.mpr hproto)]

/-! ### The walk -/

theorem containerFor_eq_ofJson (next : String) :
    containerFor next = .ofJson (Container.fresh (walker.isList next)).toValue := by
  have hlist : JsValue.ofJson (.array []) = .array [] [] := by
    rw [JsValue.ofJson]
    rfl
  have hdict : JsValue.ofJson (.object .empty) = .object .empty := by
    rw [ofJson_object]
    exact congrArg JsValue.object (ext_get? fun k => by simp)
  have hisList : walker.isList next = true ↔
      next = "-" ∨ 0 < next.length ∧ next.toList.all Char.isDigit = true := by
    simp [walker]
  rw [containerFor]
  split_ifs with hdash hdigits
  · rw [hisList.mpr (.inl hdash)]
    exact hlist.symm
  · rw [hisList.mpr (.inr hdigits)]
    exact hlist.symm
  · rw [Bool.eq_false_iff.mpr fun h => (hisList.mp h).elim hdash hdigits]
    exact hdict.symm

theorem orContainer_ofJson (next : String) (child : Option Value) :
    orContainer next (child.map .ofJson) = .ofJson (walker.enter next child).toValue := by
  cases child with
  | none => exact containerFor_eq_ofJson next
  | some v =>
    cases v with
    | array =>
      rw [map_some, JsValue.ofJson]
      rfl
    | object =>
      rw [map_some, ofJson_object]
      rfl
    | null | bool | number | string => exact containerFor_eq_ofJson next

theorem writeIndex_child_eq_ofJson_iff {i : ℕ} (hidx : arrayIndex? idx = some i)
    (hi : i < xs.length) {child : JsValue} :
    writeIndex (JsValue.ofJsonList xs) [] idx child = .ofJson r ↔
      ∃ x, child = .ofJson x ∧ r = .array (xs.set i x) := by
  have hwrite : ∀ x, writeIndex (JsValue.ofJsonList xs) [] idx (.ofJson x) = .ofJson r ↔
      r = .array (xs.set i x) := by
    intro x
    rw [writeIndex_eq_ofJson_iff, hidx]
    simp [Walker.write, hi, hi.le]
  constructor
  · intro h
    obtain ⟨x, rfl⟩ : ∃ x, child = .ofJson x := by
      rw [writeIndex, hidx] at h
      obtain ⟨-, ys, hys, -⟩ := array_eq_ofJson_iff.mp h
      have hget := congrArg (fun l => l[i]?) hys
      have hlen := length_ofJsonList xs
      simp only [ofJsonList_eq_map ys, getElem?_map] at hget
      rw [getElem?_set_self (by rw [length_append]; omega), eq_comm, map_eq_some_iff] at hget
      obtain ⟨y, -, hy⟩ := hget
      exact ⟨y, (some.inj hy).symm⟩
    exact ⟨x, rfl, (hwrite x).mp h⟩
  · rintro ⟨x, rfl, hr⟩
    exact (hwrite x).mpr hr

theorem insert_eq_ofJson_iff {key : String} {child : JsValue} :
    JsValue.object ((m.map .ofJson).insert key child) = .ofJson r ↔
      ∃ x, child = .ofJson x ∧ r = .object (m.insert key x) := by
  constructor
  · intro h
    cases r with
    | object =>
      rw [ofJson_object, JsValue.object.injEq] at h
      have hget := congrArg (fun l => OrderedMap.get? l key) h
      simp only [get?_insert_self, get?_map] at hget
      obtain ⟨x, -, rfl⟩ := map_eq_some_iff.mp hget.symm
      rw [← map_insert] at h
      exact ⟨x, rfl, congrArg Value.object (map_injective ofJson_injective h).symm⟩
    | array => rw [JsValue.ofJson] at h; cases h
    | null | bool | number | string => cases h
  · rintro ⟨x, rfl, rfl⟩
    rw [ofJson_object, map_insert]

theorem applyParts_eq_ofJson_iff (h : Carries kind value edit) {seg : String} {rest : List String}
    {c : Container} : applyParts kind value seg rest (.ofJson c.toValue) = .ok (.ofJson r) ↔
      ∃ d, walker.walk edit seg rest c = some d ∧ r = d.toValue := by
  induction rest generalizing seg c r with
  | nil =>
    change applyLast kind value seg (.ofJson c.toValue) = _ ↔ _
    cases c with
    | list xs =>
      have hplace : applyLast kind value seg (.array (JsValue.ofJsonList xs) []) = .ok (.ofJson r) ↔
            ∃ p, walker.place edit seg xs.length = some p ∧
              r = .array (Walker.write edit xs p) := by
        cases edit with
        | none =>
          obtain rfl : kind = .remove := h
          exact remove_eq_ofJson_iff
        | some =>
          obtain ⟨hkind, rfl⟩ := h
          exact assign_eq_ofJson_iff hkind
      rw [Container.toValue, JsValue.ofJson, hplace, Walker.walk]
      simp [Container.toValue]
    | dict =>
      rw [Container.toValue, ofJson_object, applyField_eq_ofJson_iff h, Walker.walk]
      simp [Container.toValue]
  | cons next rest ih =>
    cases c with
    | list xs =>
      have htarget : walker.target seg xs.length = if inRange (stringToNumber seg) xs.length then
          (arrayIndex? (stringToNumber seg)).map some else some none := rfl
      rw [Container.toValue, JsValue.ofJson, applyParts, length_ofJsonList, Walker.walk,
        htarget]
      by_cases hrange : inRange (stringToNumber seg) xs.length = true
      · rw [if_pos hrange, if_pos hrange, bind_pure_eq_ok_iff]
        cases hidx : arrayIndex? (stringToNumber seg) with
        | none =>
          -- A fraction is a property of its own.
          refine iff_of_false ?_ (by simp)
          rintro ⟨_, -, hr⟩
          rw [writeIndex, hidx] at hr
          cases (array_eq_ofJson_iff.mp hr).1
        | some i =>
          have hi := arrayIndex?_lt_of_inRange hrange hidx
          have hread : readIndex (JsValue.ofJsonList xs) [] (stringToNumber seg) =
              (xs[i]?).map .ofJson := by
            rw [readIndex, hidx, ofJsonList_eq_map]
            simp [hi]
          rw [hread, orContainer_ofJson]
          simp [writeIndex_child_eq_ofJson_iff hidx hi, ih]
          rfl
      · rw [if_neg hrange, if_neg hrange, Except.ok.injEq, array_ofJsonList_eq_ofJson_iff]
        simp [Container.toValue]
    | dict m =>
      rw [Container.toValue, ofJson_object, applyParts, get?_map, Walker.walk]
      by_cases hproto : seg = "__proto__" ∧ m.get? seg = none
      · rw [if_pos ⟨hproto.1, map_eq_none_iff.mpr hproto.2⟩,
          if_neg fun henters => walker_enters.mp henters hproto]
        simp
      · rw [if_neg fun hnone => hproto ⟨hnone.1, map_eq_none_iff.mp hnone.2⟩,
          if_pos (walker_enters.mpr hproto), bind_pure_eq_ok_iff, orContainer_ofJson]
        simp [insert_eq_ofJson_iff, ih]
        rfl

theorem applyAt_nil (h : Carries kind value edit) (state : JsValue) :
    applyAt kind value [] state = .ok (.ofJson (edit.getD .null)) := by
  rw [applyAt]
  cases edit with
  | none =>
    have hkind : kind = .remove := h
    rw [if_pos hkind]
    rfl
  | some =>
    rw [if_neg h.1, h.2]
    rfl

theorem applyAt_eq_ofJson_iff (h : Carries kind value edit) {part : String} {parts : List String}
    {state : Value} : applyAt kind value (part :: parts) (.ofJson state) = .ok (.ofJson r) ↔
      ∃ d, walker.walk edit part parts (walker.enter part (some state)) = some d ∧
        r = d.toValue := by
  rw [applyAt, ← map_some, orContainer_ofJson]
  exact applyParts_eq_ofJson_iff h

end Client
end Sodp
