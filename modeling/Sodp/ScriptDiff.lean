import Sodp.ScriptConvergence

/-!
# The shallow diff of the TypeScript server

`diffShallow` has one op for each name that two objects do not share. The ops have different names,
so that each settles one field, in any order. An empty name makes the path of the root, a field
`__proto__` that is not there cannot be assigned, and a field with the name of an inherited function
cannot be taken away: it is set to `undefined`.
-/

namespace Sodp.ScriptServer
open List OrderedMap

variable {identity : Identity} {a b m : OrderedMap String JsValue} {k : String}

/-! ### One name -/

/-- What the op makes of the field. -/
def settledField (a b : OrderedMap String JsValue) (k : String) : Option JsValue :=
  match a.get? k, b.get? k with
  | none, some v => if k = "__proto__" then none else some v
  | some _, none => if inherited k then some .undefined else none
  | _, v => v

def applyName (identity : Identity) (a b : OrderedMap String JsValue) (doc : JsValue) (k : String) :
    Except PointerFault JsValue :=
  match nameOp identity a b k with
  | some op => applyOne doc op
  | none => pure doc

theorem applyOne_name (hk : k ≠ "") (kind : DeltaOpKind) (value : JsValue) :
    applyOne (.object m) ⟨kind, "/" ++ String.ofList (escape k.toList), value⟩ =
      .ok (.object (if kind = .remove then m.erase k
        else if k = "__proto__" ∧ m.get? k = none then m else m.insert k value)) := by
  rw [applyOne, parsePath_escape hk]
  change applyLast kind value k (.object m) = _
  cases kind with
  | remove => rfl
  | _ =>
    simp only [applyLast, reduceCtorEq, if_false]
    split_ifs <;> rfl

theorem applyName_settles (hroot : nameOp identity a b "" = none) (hm : m.get? k = a.get? k) :
    applyName identity a b (.object m) k =
      .ok (.object ((settledField a b k).elim (m.erase k) (m.insert k ·))) := by
  have hk : nameOp identity a b k ≠ none → k ≠ "" := fun hop he => hop (he ▸ hroot)
  rw [applyName, settledField]
  rw [nameOp] at hk ⊢
  cases ha : a.get? k with
  | none =>
    rw [ha] at hm hk
    cases hb : b.get? k with
    | none => exact congrArg (Except.ok ∘ JsValue.object) (erase_of_get?_eq_none hm).symm
    | some v =>
      rw [hb] at hk
      dsimp only at hk ⊢
      rw [applyOne_name (hk (Option.some_ne_none _)), if_neg (by split_ifs <;> decide)]
      by_cases hproto : k = "__proto__"
      · rw [if_pos ⟨hproto, hm⟩, if_pos hproto, Option.elim_none, erase_of_get?_eq_none hm]
      · rw [if_neg fun h => hproto h.1, if_neg hproto, Option.elim_some]
  | some u =>
    rw [ha] at hm hk
    have hown : ¬ (k = "__proto__" ∧ m.get? k = none) := by simp [hm]
    cases hb : b.get? k with
    | none =>
      rw [hb] at hk
      dsimp only at hk ⊢
      rw [applyOne_name (hk (Option.some_ne_none _)), if_neg hown]
      cases inherited k <;> rfl
    | some v =>
      rw [hb] at hk
      dsimp only at hk ⊢
      split_ifs at hk ⊢ with hsame
      · rw [identity.eq_of_same hsame] at hm
        exact congrArg (Except.ok ∘ JsValue.object) (insert_get? m hm).symm
      · dsimp only
        rw [applyOne_name (hk (Option.some_ne_none _)), if_neg hown]
        rfl

/-! ### All names -/

theorem applyOps_names (hroot : nameOp identity a b "" = none) {ks : List String}
    (hks : ks.Perm (a.keys ++ b.keys.filter fun k => k ∉ a.keys)) :
    ∃ t, applyOps (.object a) (ks.filterMap (nameOp identity a b)) = .ok (.object t) ∧
      ∀ j, t.get? j = settledField a b j := by
  have hfold : applyOps (.object a) (ks.filterMap (nameOp identity a b)) =
      ks.foldl (fun doc k => doc >>= (applyName identity a b · k)) (.ok (.object a)) := by
    rw [applyOps, foldlM_filterMap, foldlM_eq_foldl]
    congr 1
    funext doc k
    refine congrArg (doc >>= ·) (funext fun x => ?_)
    rw [applyName]
    cases nameOp identity a b k <;> rfl
  rw [hfold]
  obtain ⟨t, ht, hget⟩ := foldl_settles (w := fun m => Except.ok (JsValue.object m)) (m := a)
    (f := fun doc k => doc >>= (applyName identity a b · k)) (c := settledField a b)
    (fun m k hm => by
      refine ⟨_, applyName_settles hroot hm, fun j => ?_⟩
      cases settledField a b k with
      | none => exact get?_erase ..
      | some v => exact get?_insert ..)
    (hks.nodup_iff.mpr (nodup_union a b)) fun k _ => rfl
  refine ⟨t, ht, fun j => (hget j).trans ?_⟩
  split_ifs with hj
  · rfl
  · rw [hks.mem_iff, mem_union, not_or] at hj
    rw [settledField, (get?_eq_none_iff a j).mpr hj.1, (get?_eq_none_iff b j).mpr hj.2]

/-- The field with the empty name does not change, both objects or none have a field `__proto__`,
and the new one keeps the fields with the names of inherited functions. -/
structure Settles (identity : Identity) (a b : OrderedMap String JsValue) : Prop where
  root : nameOp identity a b "" = none
  proto : a.get? "__proto__" = none ↔ b.get? "__proto__" = none
  functions : ∀ k ∈ inheritedFunctions, b.get? k = none → a.get? k = none

theorem settledField_eq_iff : (∀ k, settledField a b k = b.get? k) ↔
    (a.get? "__proto__" = none ↔ b.get? "__proto__" = none) ∧
      ∀ k ∈ inheritedFunctions, b.get? k = none → a.get? k = none := by
  have hkey : ∀ k, settledField a b k = b.get? k ↔
      (k = "__proto__" → a.get? k = none → b.get? k = none) ∧
      (inherited k = true → b.get? k = none → a.get? k = none) := by
    intro k
    rw [settledField]
    cases a.get? k <;> cases b.get? k <;> simp
  simp only [hkey, inherited, Bool.or_eq_true, decide_eq_true_eq]
  constructor
  · intro h
    exact ⟨⟨(h _).1 rfl, (h _).2 (.inr rfl)⟩, fun k hk => (h k).2 (.inl hk)⟩
  · rintro ⟨hproto, hfun⟩ k
    refine ⟨fun hk => hk ▸ hproto.mp, fun hk => ?_⟩
    rcases hk with hk | rfl
    · exact hfun k hk
    · exact hproto.mpr

/-- Before and after are not both objects, or one reference, or the names settle. -/
def Reaches (identity : Identity) (before after : JsValue) : Prop :=
  ∀ a b, before = .object a → after = .object b → identity.same before after = true ∨
    Settles identity a b

theorem applyOps_diffShallow {before after : JsValue} (h : Reaches identity before after)
    {order : List String → List String} (horder : ∀ l, (order l).Perm l) :
    applyOps before (diffShallow identity order before after) = .ok after := by
  by_cases hsame : identity.same before after = true
  · have hnil : diffShallow identity order before after = [] := if_pos hsame
    rw [hnil, identity.eq_of_same hsame]
    rfl
  · by_cases hobjects : ∃ a b, before = .object a ∧ after = .object b
    · obtain ⟨a, b, rfl, rfl⟩ := hobjects
      obtain ⟨hroot, hproto, hfun⟩ := (h a b rfl rfl).resolve_left hsame
      obtain ⟨t, ht, hget⟩ := applyOps_names hroot (horder _)
      have hb : t = b :=
        ext_get? fun k => (hget k).trans (settledField_eq_iff.mpr ⟨hproto, hfun⟩ k)
      rw [diffShallow, if_neg hsame, ht, hb]
    · have hroot : diffShallow identity order before after = [⟨.update, "/", after⟩] := by
        rw [diffShallow, if_neg hsame]
        exact fun a b ha hb => hobjects ⟨a, b, ha, hb⟩
      rw [hroot]
      rfl

/-! ### The condition is exact -/

theorem get?_ne_self (v : JsValue) (k : String) : v.get? k ≠ some v := by
  induction v generalizing k with
  | object m ih =>
    intro h
    exact ih k _ h k h
  | _ => exact nofun

theorem root_of_reached (h : ∀ ks : List String,
      ks.Perm (a.keys ++ b.keys.filter fun k => k ∉ a.keys) →
      applyOps (.object a) (ks.filterMap (nameOp identity a b)) = .ok (.object b)) :
    nameOp identity a b "" = none := by
  by_contra hop
  have hmem : "" ∈ a.keys ++ b.keys.filter fun k => k ∉ a.keys := by
    rw [mem_union]
    by_contra hnot
    rw [not_or, ← get?_eq_none_iff, ← get?_eq_none_iff] at hnot
    exact hop (by simp [nameOp, hnot.1, hnot.2])
  -- with the empty name last, the op on the root decides
  have hlast := h (_ ++ [""]) (perm_append_comm.trans (perm_cons_erase hmem).symm)
  obtain ⟨op, hop⟩ := Option.ne_none_iff_exists'.mp hop
  rw [filterMap_append, applyOps, foldlM_append] at hlast
  cases hfront : foldlM applyOne (JsValue.object a)
      (((a.keys ++ b.keys.filter fun k => k ∉ a.keys).erase "").filterMap
        (nameOp identity a b)) with
  | error =>
    rw [hfront] at hlast
    cases hlast
  | ok doc =>
    rw [hfront, filterMap_cons, hop] at hlast
    change (applyOne doc op >>= pure) = _ at hlast
    rw [bind_pure] at hlast
    have hinherited : inherited "" = false := by decide +kernel
    simp only [nameOp, hinherited] at hop
    cases ha : a.get? "" with
    | none =>
      cases hb : b.get? "" with
      | none => simp [ha, hb] at hop
      | some v =>
        simp only [ha, hb] at hop
        cases hop
        cases hlast
        exact get?_ne_self (.object b) "" hb
    | some u =>
      cases hb : b.get? "" with
      | none =>
        simp only [ha, hb] at hop
        cases hop
        cases hlast
      | some v =>
        simp only [ha, hb] at hop
        split_ifs at hop
        cases hop
        cases hlast
        exact get?_ne_self (.object b) "" hb

end Sodp.ScriptServer
