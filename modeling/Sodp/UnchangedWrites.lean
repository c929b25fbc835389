import Sodp.ScriptPointer

/-!
# Writes that change nothing

When an update leaves a JSON document as it is on the TypeScript server. The value is
already there, or the path leads to a `__proto__` that no field bears, whose assignment
shows in no field. Apart from that, a walk that meets nothing on its way puts a container
there, so what it leaves is not what it found.
-/

namespace Sodp
open Value OrderedMap Option JsValue

/-! ### Elements and fields -/

def elementAt (xs : List Value) (idx : JsNumber) : Option Value :=
  (Client.arrayIndex? idx).bind fun i => xs[i]?

variable {xs : List Value} {idx : JsNumber}

theorem writeIndex_eq_self_iff {r : JsValue} :
    Client.writeIndex (JsValue.ofJsonList xs) [] idx r = .ofJson (.array xs) ↔
      ∃ x, elementAt xs idx = some x ∧ r = .ofJson x := by
  rw [Client.writeIndex, elementAt, JsValue.ofJson]
  cases Client.arrayIndex? idx with
  | none => simp [Client.setProp]
  | some i =>
    simp only [JsValue.array.injEq, and_true, Option.bind_some]
    rw [ofJsonList_eq_map]
    have hpad : i < xs.length → i + 1 - (xs.map fun x => some (JsValue.ofJson x)).length = 0 := by
      intro hi
      rw [List.length_map]
      omega
    constructor
    · intro h
      have hi : i < xs.length := by
        have hlen := congrArg List.length h
        simp at hlen
        omega
      rw [hpad hi, List.replicate_zero, List.append_nil] at h
      have hget := congrArg (fun l => l[i]?) h
      simp [hi] at hget
      exact ⟨xs[i], by simp [hi], hget⟩
    · rintro ⟨x, hx, rfl⟩
      obtain ⟨hi, rfl⟩ := List.getElem?_eq_some_iff.mp hx
      rw [hpad hi, List.replicate_zero, List.append_nil]
      refine List.ext_getElem? fun j => ?_
      by_cases hj : i = j
      · subst hj
        simp [hi]
      · simp [hj]

theorem writeIndex_ofJson_eq_self_iff {v : Value} :
    Client.writeIndex (JsValue.ofJsonList xs) [] idx (.ofJson v) = .ofJson (.array xs) ↔
      elementAt xs idx = some v := by
  rw [writeIndex_eq_self_iff]
  constructor
  · rintro ⟨x, hx, heq⟩
    rw [hx, ofJson_injective heq]
  · intro hv
    exact ⟨v, hv, rfl⟩

theorem readIndex_ofJsonList (xs : List Value) (idx : JsNumber) :
    Client.readIndex (JsValue.ofJsonList xs) [] idx = (elementAt xs idx).map .ofJson := by
  rw [Client.readIndex, elementAt, ofJsonList_eq_map]
  cases Client.arrayIndex? idx with
  | none => rfl
  | some i => cases hx : xs[i]? <;> simp [hx]

variable {ε : Type}

theorem assign_eq_self_iff {m : OrderedMap String Value} {last : String} {v : Value} :
    (if last = "__proto__" ∧ (m.map JsValue.ofJson).get? last = none then
        .ok (.object (m.map JsValue.ofJson))
      else .ok (.object ((m.map JsValue.ofJson).insert last (.ofJson v))) : Except ε JsValue) =
        .ok (.object (m.map JsValue.ofJson)) ↔
      m.get? last = some v ∨ last = "__proto__" ∧ m.get? last = none := by
  rw [get?_map]
  by_cases hproto : last = "__proto__" ∧ m.get? last = none
  · rw [if_pos ⟨hproto.1, map_eq_none_iff.mpr hproto.2⟩]
    exact iff_of_true rfl (.inr hproto)
  · rw [if_neg fun h => hproto ⟨h.1, map_eq_none_iff.mp h.2⟩, Except.ok.injEq,
      JsValue.object.injEq, insert_eq_self_iff, get?_map, or_iff_left hproto, ← map_some]
    exact (map_injective ofJson_injective).eq_iff

variable {x : Except ε JsValue}

theorem bind_insert_eq_self_iff {m : OrderedMap String JsValue} {key : String} :
    (x >>= fun child => pure (JsValue.object (m.insert key child))) = .ok (.object m) ↔
      ∃ child, m.get? key = some child ∧ x = .ok child := by
  rw [bind_pure_eq_ok_iff]
  refine exists_congr fun child => ?_
  rw [JsValue.object.injEq, insert_eq_self_iff, and_comm]

theorem bind_writeIndex_eq_self_iff :
    (x >>= fun child => pure (Client.writeIndex (JsValue.ofJsonList xs) [] idx child)) =
        .ok (.ofJson (.array xs)) ↔
      ∃ child, elementAt xs idx = some child ∧ x = .ok (.ofJson child) := by
  rw [bind_pure_eq_ok_iff]
  constructor
  · rintro ⟨r, hx, hr⟩
    obtain ⟨child, hchild, rfl⟩ := writeIndex_eq_self_iff.mp hr
    exact ⟨child, hchild, hx⟩
  · rintro ⟨child, hchild, hx⟩
    exact ⟨_, hx, writeIndex_eq_self_iff.mpr ⟨child, hchild, rfl⟩⟩

/-! ### The TypeScript server -/

namespace ScriptServer

/-- The walk through new containers comes to its end: it leaves no document and appends nothing.
`inArray` tells what the present container is. -/
def Builds : Bool → String → List String → Prop
  | inArray, last, [] => ¬ (inArray = true ∧ last = "-")
  | true, _, next :: rest => Builds (isArrayLikeSegment next) next rest
  | false, seg, next :: rest => seg ∉ inheritedFunctions ∧
    Builds (seg ≠ "__proto__" && isArrayLikeSegment next) next rest

def fresh (isArray : Bool) : JsValue := if isArray then .array [] [] else .object .empty

theorem exists_bind_ok_iff {α β : Type} {x : Except PointerFault α} {f : α → β} :
    (∃ r, (x >>= fun a => pure (f a)) = .ok r) ↔ ∃ a, x = .ok a := by
  simp only [bind_pure_eq_ok_iff]
  constructor
  · rintro ⟨-, a, ha, -⟩
    exact ⟨a, ha⟩
  · rintro ⟨a, ha⟩
    exact ⟨f a, a, ha, rfl⟩

theorem bind_const_eq_ok_iff {α β : Type} {x : Except PointerFault α} {b : β} :
    (x >>= fun _ => pure b) = .ok b ↔ ∃ a, x = .ok a := by
  rw [bind_pure_eq_ok_iff]
  simp

theorem builds_iff {value : JsValue} {inArray : Bool} {seg : String} {rest : List String} :
    (∃ r, applyParts .update value seg rest (fresh inArray) = .ok r) ↔ Builds inArray seg rest := by
  induction rest generalizing inArray seg with
  | nil =>
    cases inArray with
    | true =>
      change (∃ r, applyLast .update value seg (.array [] []) = .ok r) ↔ ¬ (true = true ∧ seg = "-")
      rw [applyLast_update_array]
      by_cases hseg : seg = "-" <;> simp [hseg]
    | false =>
      change (∃ r, applyLast .update value seg (.object .empty) = .ok r) ↔
        ¬ (false = true ∧ seg = "-")
      rw [applyLast_update_object]
      by_cases hseg : seg = "__proto__" <;> simp [hseg]
  | cons next rest ih =>
    cases inArray with
    | true =>
      have hchild : ∀ idx, childFor next (Client.readIndex [] [] idx) =
          fresh (isArrayLikeSegment next) := by
        intro idx
        rw [Client.readIndex]
        cases Client.arrayIndex? idx <;> rfl
      change (∃ r, applyParts .update value seg (next :: rest) (.array [] []) = .ok r) ↔
        Builds (isArrayLikeSegment next) next rest
      rw [applyParts]
      simp only [hchild]
      exact exists_bind_ok_iff.trans ih
    | false =>
      change (∃ r, applyParts .update value seg (next :: rest) (.object .empty) = .ok r) ↔
        seg ∉ inheritedFunctions ∧ Builds (seg ≠ "__proto__" && isArrayLikeSegment next) next rest
      rw [applyParts]
      simp only [get?_empty]
      by_cases hproto : seg = "__proto__"
      · subst hproto
        have hnot : "__proto__" ∉ inheritedFunctions := by decide
        rw [if_pos rfl, and_iff_right hnot]
        exact exists_bind_ok_iff.trans (@ih false next)
      · rw [if_neg hproto]
        by_cases hin : seg ∈ inheritedFunctions
        · simp [hin]
        · rw [if_neg hin, and_iff_right hin]
          simp only [hproto, ne_eq, not_false_eq_true, decide_true, Bool.true_and]
          exact exists_bind_ok_iff.trans ih

/-- The server finds `v` at the path, or a `__proto__` that cannot be assigned: in either case
assigning `v` there changes nothing. -/
def Holds (v : Value) : String → List String → Value → Prop
  | _, _, .null => False
  | last, [], .array xs => last ≠ "-" ∧ elementAt xs (JsNumber.stringToNumber last) = some v
  | last, [], .object m => m.get? last = some v ∨ last = "__proto__" ∧ m.get? last = none
  | last, [], _ => last = "__proto__"
  | seg, next :: rest, .array xs =>
    ∃ x ∈ elementAt xs (if seg = "-" then .finite (xs.length - 1) else JsNumber.stringToNumber seg),
      Holds v next rest x
  | seg, next :: rest, .object m =>
    match m.get? seg with
    | some child => Holds v next rest child
    | none => seg = "__proto__" ∧ Builds false next rest
  | seg, next :: rest, _ => seg = "__proto__" ∧ Builds false next rest

theorem childFor_ofJson {x : Value} (hx : x ≠ .null) (next : String) :
    childFor next (some (.ofJson x)) = .ofJson x := by
  cases x with
  | null => exact absurd rfl hx
  | array => rw [JsValue.ofJson]; rfl
  | object => rw [ofJson_object]; rfl
  | _ => rfl

theorem applyParts_ne_null {value node r : JsValue} {seg : String} {rest : List String}
    (h : applyParts .update value seg rest node = .ok r) : r ≠ .null := by
  have harray : ∀ elems props idx v, Client.writeIndex elems props idx v ≠ .null := by
    intro elems props idx v
    rw [Client.writeIndex]
    split <;> exact nofun
  cases rest with
  | nil =>
    change applyLast .update value seg node = .ok r at h
    cases node with
    | undefined | null => cases h
    | array =>
      rw [applyLast_update_array] at h
      split_ifs at h
      cases h
      exact harray _ _ _ _
    | object =>
      rw [applyLast_update_object] at h
      split_ifs at h <;> cases h <;> exact nofun
    | bool | number | string =>
      simp only [applyLast] at h
      split_ifs at h
      cases h
      exact nofun
  | cons =>
    cases node with
    | undefined | null => cases h
    | array =>
      rw [applyParts] at h
      obtain ⟨c, -, ⟨⟩⟩ := bind_eq_ok_iff.mp h
      exact harray _ _ _ _
    | object =>
      rw [applyParts] at h
      split at h
      · obtain ⟨c, -, ⟨⟩⟩ := bind_eq_ok_iff.mp h
        exact nofun
      · split_ifs at h <;> obtain ⟨c, -, ⟨⟩⟩ := bind_eq_ok_iff.mp h <;> exact nofun
    | bool | number | string =>
      simp only [applyParts] at h
      split_ifs at h
      obtain ⟨c, -, ⟨⟩⟩ := bind_eq_ok_iff.mp h
      exact nofun

theorem child_eq_self_iff {v x : Value} {next : String} {rest : List String}
    (ih : x ≠ .null → (applyParts .update (.ofJson v) next rest (.ofJson x) = .ok (.ofJson x) ↔
      Holds v next rest x)) :
    applyParts .update (.ofJson v) next rest (childFor next (some (.ofJson x))) = .ok (.ofJson x) ↔
      Holds v next rest x := by
  by_cases hx : x = .null
  · subst hx
    refine iff_of_false (fun h => applyParts_ne_null h rfl) fun h => ?_
    cases rest <;> exact h
  · rw [childFor_ofJson hx]
    exact ih hx

theorem applyParts_eq_self_iff {v node : Value} (hnode : node ≠ .null) {seg : String}
    {rest : List String} :
    applyParts .update (.ofJson v) seg rest (.ofJson node) = .ok (.ofJson node) ↔
      Holds v seg rest node := by
  induction rest generalizing seg node with
  | nil =>
    change applyLast .update (.ofJson v) seg (.ofJson node) = _ ↔ _
    cases node with
    | null => exact absurd rfl hnode
    | array =>
      rw [JsValue.ofJson, applyLast_update_array, ← JsValue.ofJson]
      by_cases hseg : seg = "-"
      · simp [hseg, Holds]
      · rw [if_neg hseg, Except.ok.injEq, writeIndex_ofJson_eq_self_iff, Holds, and_iff_right hseg]
    | object =>
      rw [ofJson_object, applyLast_update_object, Holds]
      exact assign_eq_self_iff
    | bool | number | string =>
      simp only [JsValue.ofJson, applyLast, Holds]
      split_ifs <;> simp_all
  | cons next rest ih =>
    cases node with
    | null => exact absurd rfl hnode
    | array =>
      rw [JsValue.ofJson, applyParts, ← JsValue.ofJson, length_ofJsonList, Holds]
      simp only [readIndex_ofJsonList]
      refine bind_writeIndex_eq_self_iff.trans (exists_congr fun x => and_congr_right fun hx => ?_)
      rw [hx, map_some]
      exact child_eq_self_iff fun hx => ih hx
    | object m =>
      rw [ofJson_object, applyParts, Holds, get?_map]
      cases hchild : m.get? seg with
      | some =>
        dsimp only [map_some]
        rw [← child_eq_self_iff fun hx => ih hx, bind_insert_eq_self_iff, get?_map,
          hchild, map_some]
        simp only [some.injEq, exists_eq_left']
      | none =>
        dsimp only [map_none]
        by_cases hproto : seg = "__proto__"
        · rw [if_pos hproto, and_iff_right hproto]
          exact bind_const_eq_ok_iff.trans (@builds_iff _ false _ _)
        · rw [if_neg hproto]
          refine iff_of_false (fun h => ?_) fun h => hproto h.1
          split_ifs at h
          obtain ⟨c, hc, -⟩ := bind_insert_eq_self_iff.mp h
          rw [get?_map, hchild] at hc
          cases hc
    | bool | number | string =>
      simp only [JsValue.ofJson, applyParts, Holds]
      by_cases hproto : seg = "__proto__"
      · rw [if_pos hproto, and_iff_right hproto]
        exact bind_const_eq_ok_iff.trans (@builds_iff _ false _ _)
      · rw [if_neg hproto]
        exact iff_of_false (fun h => by cases h) fun h => hproto h.1

end ScriptServer

end Sodp
