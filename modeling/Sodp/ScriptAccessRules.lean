import Sodp.AccessRules

/-!
# Access rules of the TypeScript server

The matcher of `acl.ts` takes `*` only as the last segment, and a key that no rule matches is
allowed, which the comment there calls the default of the Rust server; that one denies it. Of a
permission it takes the text after `role:`, `group:` or `perm:` literally, and it compares every
permission with the subject as well.
-/

namespace Sodp.ScriptServer
open List Option

structure SodpClaims where
  sub : String
  roles : List String
  groups : List String
  perms : List String

structure AclRule where
  pattern : String
  read : List String
  write : List String

inductive Segment where
  | literal (value : String)
  | capture
  | wildcard
  deriving DecidableEq

structure CompiledRule where
  segments : List Segment
  read : List String
  write : List String

def compileSegment (part : String) : Segment :=
  if part = "*" then .wildcard else if part = "{sub}" then .capture else .literal part

def compileRule (rule : AclRule) : CompiledRule :=
  ⟨(dotParts rule.pattern).map compileSegment, rule.read, rule.write⟩

def matchSegments : List Segment → List String → Option String → Option (Option String)
  | [], key, sub => if key = [] then some sub else none
  | .wildcard :: rest, key, sub =>
    if rest ≠ [] then none else if key = [] then none else some sub
  | .literal _ :: _, [], _ => none
  | .capture :: _, [], _ => none
  | .literal value :: rest, segment :: key, sub =>
    if segment = value then matchSegments rest key sub else none
  | .capture :: rest, segment :: key, _ => matchSegments rest key (some segment)

def matchPattern (compiled : CompiledRule) (keySegments : List String) : Option (Option String) :=
  matchSegments compiled.segments keySegments none

def tagged (tag : String) (values : List String) (p : String) : Bool :=
  tag.toList.isPrefixOf p.toList && values.contains
    (String.ofList (p.toList.drop tag.toList.length))

def permits (claims : SodpClaims) (sub : Option String) (p : String) : Bool :=
  (p = "{sub}" && sub = some claims.sub) || tagged "role:" claims.roles p ||
    tagged "group:" claims.groups p || tagged "perm:" claims.perms p || p = claims.sub

def checkPermission (perms : List String) (claims : Option SodpClaims) (sub : Option String) :
    Bool :=
  perms.any fun p => p = "*" || claims.any fun claims => permits claims sub p

structure AclRegistry where
  rules : List CompiledRule

namespace AclRegistry

def new (rules : List AclRule) : AclRegistry := ⟨rules.map compileRule⟩

variable (acl : AclRegistry)

def check (key : String) (claims : Option SodpClaims) (write : Bool) : Bool :=
  match acl.rules.findSome? fun rule =>
      (matchPattern rule (dotParts key)).map fun sub => (rule, sub) with
  | some (rule, sub) => checkPermission (if write then rule.write else rule.read) claims sub
  | none => true

def canRead (key : String) (claims : Option SodpClaims) : Bool := acl.check key claims false

def canWrite (key : String) (claims : Option SodpClaims) : Bool := acl.check key claims true

end AclRegistry

/-! ### Patterns -/

def innerWildcard (parts : List String) : Bool := "*" ∈ parts.dropLast

theorem matchSegments_map (parts key : List String) (sub : Option String) :
    matchSegments (parts.map compileSegment) key sub =
      if innerWildcard parts then none else Acl.matchSegments parts key sub := by
  induction parts generalizing key sub with
  | nil => rfl
  | cons p rest ih =>
    have hinner (hp : p ≠ "*") : innerWildcard (p :: rest) = innerWildcard rest := by
      cases rest with
      | nil => rfl
      | cons => simp [innerWildcard, hp.symm]
    by_cases hany : p = "*"
    · subst hany
      cases rest with
      | nil => cases key <;> rfl
      | cons q rest =>
        have hin : innerWildcard ("*" :: q :: rest) = true := by simp [innerWildcard]
        rw [hin, if_pos rfl]
        rfl
    · rw [map_cons, hinner hany, compileSegment, if_neg hany]
      cases key with
      | nil => split_ifs <;> simp [matchSegments, Acl.matchSegments, hany]
      | cons segment =>
        by_cases hsub : p = "{sub}"
        · simp [matchSegments, Acl.matchSegments, hsub, ih]
        · by_cases hsegment : segment = p <;>
            simp [matchSegments, Acl.matchSegments, hany, hsub, hsegment, ih]

/-! ### Permissions -/

def tags : List String := ["role", "group", "perm"]

def Granted (values : String → List String) (sub : String) (captured : Option String)
    (perm : String) : Prop :=
  perm = "*" ∨ perm = "{sub}" ∧ captured = some sub ∨
  (∃ tag raw, splitOnce perm = some (tag, raw) ∧ tag ∈ tags ∧ raw ∈ values tag) ∨ perm = sub

theorem tagged_eq_true_iff (tag : String) (htag : ':' ∉ tag.toList) (values : List String)
    (p : String) :
    tagged (tag ++ ":") values p = true ↔ ∃ raw, splitOnce p = some (tag, raw) ∧ raw ∈ values := by
  have hdrop : ∀ rest : List Char,
      (tag.toList ++ ':' :: rest).drop (tag ++ ":").toList.length = rest := by
    intro rest
    rw [String.toList_append, append_cons]
    exact drop_left
  simp only [splitOnce_eq_some_iff, htag, not_false_eq_true, true_and, tagged, Bool.and_eq_true,
    contains_iff_mem, isPrefixOf_iff_prefix]
  constructor
  · rintro ⟨⟨rest, hrest⟩, hmem⟩
    have hp : p.toList = tag.toList ++ ':' :: rest := by simp [← hrest]
    rw [hp, hdrop] at hmem
    exact ⟨_, by rw [hp, String.toList_ofList], hmem⟩
  · rintro ⟨raw, hp, hmem⟩
    rw [hp, hdrop, String.ofList_toList]
    exact ⟨⟨raw.toList, by simp⟩, hmem⟩

/-- The claims of a token, as the Rust server resolves them. -/
structure SameIdentity (acl : Acl.Registry) (claims : Value) (identity : SodpClaims) : Prop where
  roles : Acl.claimStrings acl.mappings claims "role" = identity.roles
  groups : Acl.claimStrings acl.mappings claims "group" = identity.groups
  perms : Acl.claimStrings acl.mappings claims "perm" = identity.perms

variable {acl : Acl.Registry} {claims : Value} {identity : SodpClaims} {captured : Option String}

theorem checkPermission_eq_true_iff (h : SameIdentity acl claims identity) {perm : String} :
    checkPermission [perm] (some identity) captured = true ↔
      Granted (Acl.claimStrings acl.mappings claims) identity.sub captured perm := by
  have hrole : tagged "role:" identity.roles perm = true ↔ _ :=
    tagged_eq_true_iff "role" (by decide) identity.roles perm
  have hgroup : tagged "group:" identity.groups perm = true ↔ _ :=
    tagged_eq_true_iff "group" (by decide) identity.groups perm
  have hperm : tagged "perm:" identity.perms perm = true ↔ _ :=
    tagged_eq_true_iff "perm" (by decide) identity.perms perm
  simp only [checkPermission, permits, any_cons, any_nil, Bool.or_false, any_some,
    Bool.or_eq_true, Bool.and_eq_true, decide_eq_true_eq, hrole, hgroup, hperm, Granted, tags,
    mem_cons, not_mem_nil, or_false]
  rw [← h.roles, ← h.groups, ← h.perms]
  grind

/-- The text of a permission is read alike by both servers. `{sub}` and the permissions with a
tag are also taken for a subject here, and after a tag `{sub}` is no capture. -/
def ReadAlike (values : String → List String) (sub : String) (captured : Option String)
    (perm : String) : Prop :=
  match splitOnce perm with
  | none => perm = "{sub}" → sub = "{sub}" → captured = some "{sub}"
  | some (tag, raw) =>
    if tag ∈ tags then
      if raw = "{sub}" then
        ((∃ c, captured = some c ∧ c ∈ values tag) ↔ "{sub}" ∈ values tag ∨ sub = perm)
      else sub = perm → raw ∈ values tag
    else ((∃ v, Acl.referent captured raw = some v ∧ v ∈ values tag) ↔ sub = perm)

theorem readAlike_iff {values : String → List String} {sub perm : String} :
    (Acl.Granted values sub captured perm ↔ Granted values sub captured perm) ↔
      ReadAlike values sub captured perm := by
  rw [Acl.Granted, Granted, ReadAlike]
  cases hsplit : splitOnce perm with
  | none =>
    by_cases hsub : perm = "{sub}"
    · subst hsub
      simp only [reduceCtorEq, false_and, exists_false, String.reduceEq, false_or, or_false,
        true_and, ne_eq, not_true_eq_false, iff_self_or, forall_const]
      rw [eq_comm]
      exact ⟨fun himp hself => hself ▸ himp hself, fun himp hself => hself ▸ himp hself⟩
    · simp [hsub]
  | some parts =>
    obtain ⟨tag, raw⟩ := parts
    have hnone : ∀ s, splitOnce s = none → perm ≠ s := by
      rintro s hs rfl
      rw [hsplit] at hs
      cases hs
    have hany := hnone "*" (by decide)
    have hsub := hnone "{sub}" (by decide)
    have hrust : (∃ tag' raw' value, some (tag, raw) = some (tag', raw') ∧
        Acl.referent captured raw' = some value ∧ value ∈ values tag') ↔
        ∃ v, Acl.referent captured raw = some v ∧ v ∈ values tag := by simp
    have hscript : (∃ tag' raw', some (tag, raw) = some (tag', raw') ∧ tag' ∈ tags ∧
        raw' ∈ values tag') ↔ tag ∈ tags ∧ raw ∈ values tag := by simp
    simp only [hrust, hscript, hany, hsub, false_and, false_or, reduceCtorEq, or_false, and_false,
      eq_comm (a := perm)]
    by_cases htag : tag ∈ tags
    · by_cases hraw : raw = "{sub}" <;> simp [htag, hraw, Acl.referent]
    · simp [htag]

/-! ### Verdicts -/

def ofRules (acl : Acl.Registry) : AclRegistry :=
  .new (acl.rules.map fun rule => ⟨rule.key, [rule.read], [rule.write]⟩)

def plainRules (acl : Acl.Registry) : Acl.Registry :=
  { acl with rules := acl.rules.filter fun rule => ! innerWildcard (dotParts rule.key) }

theorem findSome?_ofRules (key : String) : ((ofRules acl).rules.findSome? fun rule =>
      (matchPattern rule (dotParts key)).map fun sub => (rule, sub)) =
    ((plainRules acl).deciding key).map fun (rule, captured) =>
      (compileRule ⟨rule.key, [rule.read], [rule.write]⟩, captured) := by
  rw [ofRules, AclRegistry.new, plainRules, Acl.Registry.deciding]
  induction acl.rules with
  | nil => rfl
  | cons rule rules ih =>
    have hmatch : matchPattern (compileRule ⟨rule.key, [rule.read], [rule.write]⟩) (dotParts key) =
        if innerWildcard (dotParts rule.key) then none else Acl.matchPattern rule.key key :=
      matchSegments_map ..
    rw [map_cons, map_cons, findSome?_cons, ih, hmatch]
    by_cases hinner : innerWildcard (dotParts rule.key)
    · simp [hinner]
    · cases hcase : Acl.matchPattern rule.key key <;> simp [hinner, hcase]

/-- What makes the two servers agree on a key. Without a `*` before the last segment, the rule
that decides in Rust decides here too. -/
def Agree (acl : Acl.Registry) (claims : Value) (identity : SodpClaims) (key : String)
    (perm : Acl.AclRule → String) : Prop :=
  let values := Acl.claimStrings acl.mappings claims
  match acl.deciding key with
  | none => False
  | some (rule, captured) =>
    if innerWildcard (dotParts rule.key) then
      (Acl.Granted values identity.sub captured (perm rule) ↔
        ∀ rule' captured', (plainRules acl).deciding key = some (rule', captured') →
          Granted values identity.sub captured' (perm rule'))
    else ReadAlike values identity.sub captured (perm rule)

theorem deciding_plainRules {key : String} {rule : Acl.AclRule}
    (hrule : acl.deciding key = some (rule, captured))
    (hplain : innerWildcard (dotParts rule.key) = false) :
    (plainRules acl).deciding key = some (rule, captured) := by
  rw [Acl.Registry.deciding, findSome?_eq_some_iff] at hrule ⊢
  obtain ⟨before, first, after, hrules, hfirst, hbefore⟩ := hrule
  obtain ⟨_, -, hpair⟩ := map_eq_some_iff.mp hfirst
  obtain ⟨rfl, rfl⟩ := Prod.mk.inj hpair
  refine ⟨before.filter fun rule => ! innerWildcard (dotParts rule.key), first,
    after.filter fun rule => ! innerWildcard (dotParts rule.key), ?_, hfirst, ?_⟩
  · rw [plainRules]
    rw [hrules, filter_append, filter_cons_of_pos (by simp [hplain])]
  · exact fun rule hrule => hbefore rule (mem_of_mem_filter hrule)

theorem deciding_plainRules_eq_none {key : String} (h : acl.deciding key = none) :
    (plainRules acl).deciding key = none := by
  rw [Acl.Registry.deciding, findSome?_eq_none_iff] at h ⊢
  exact fun rule hrule => h rule (mem_of_mem_filter hrule)

theorem check_eq_iff (h : SameIdentity acl claims identity) (key : String) (write : Bool) :
    acl.check key (some identity.sub) claims write = (ofRules acl).check key (some identity) write ↔
      Agree acl claims identity key fun rule => if write then rule.write else rule.read := by
  have hperms : ∀ rule : Acl.AclRule,
      (if write then (compileRule ⟨rule.key, [rule.read], [rule.write]⟩).write
        else (compileRule ⟨rule.key, [rule.read], [rule.write]⟩).read) =
        [if write then rule.write else rule.read] := by
    intro rule
    cases write <;> rfl
  rw [Acl.Registry.check, AclRegistry.check, findSome?_ofRules, Agree, Bool.eq_iff_iff]
  cases hrust : acl.deciding key with
  | none => simp [deciding_plainRules_eq_none hrust]
  | some decided =>
    obtain ⟨rule, _⟩ := decided
    dsimp only
    rw [Acl.checkPermission_eq_true_iff]
    by_cases hinner : innerWildcard (dotParts rule.key)
    · rw [if_pos hinner]
      refine iff_congr Iff.rfl ?_
      cases hscript : (plainRules acl).deciding key with
      | none => simp
      | some decided =>
        obtain ⟨-, -⟩ := decided
        simp [hperms, checkPermission_eq_true_iff h]
    · rw [if_neg hinner, deciding_plainRules hrust (by simpa using hinner)]
      simp only [map_some, hperms, checkPermission_eq_true_iff h]
      exact readAlike_iff

/-- The two servers give the same verdicts on a key exactly if a rule decides it in Rust, and
either the rule ends at its `*` and its permissions are read alike, or the rule is skipped here
and what decides instead grants the same. -/
theorem same_verdicts_iff (h : SameIdentity acl claims identity) (key : String) :
    (acl.canRead key (some identity.sub) claims = (ofRules acl).canRead key (some identity) ∧
      acl.canWrite key (some identity.sub) claims = (ofRules acl).canWrite key (some identity)) ↔
    Agree acl claims identity key Acl.AclRule.read ∧
      Agree acl claims identity key Acl.AclRule.write :=
  and_congr (check_eq_iff h key false) (check_eq_iff h key true)

def userRules : Acl.Registry where
  rules := [⟨"user.{sub}.*", "{sub}", "{sub}"⟩, ⟨"admin.*", "role:admin", "role:admin"⟩]
  mappings := OrderedMap.empty.insert "role" "realm_access.roles"

def roleClaims (role : String) : Value :=
  .ofFields [("realm_access", .ofFields [("roles", .array [.string role])])]

theorem same_verdicts_own_key :
    userRules.canRead "user.u1.notes" (some "u1") (roleClaims "editor") =
        (ofRules userRules).canRead "user.u1.notes" (some ⟨"u1", ["editor"], [], []⟩) ∧
      userRules.canWrite "user.u1.notes" (some "u1") (roleClaims "editor") =
        (ofRules userRules).canWrite "user.u1.notes" (some ⟨"u1", ["editor"], [], []⟩) := by
  have hidentity : SameIdentity userRules (roleClaims "editor") ⟨"u1", ["editor"], [], []⟩ :=
    ⟨by decide +kernel, by decide +kernel, by decide +kernel⟩
  have hdecides : userRules.deciding "user.u1.notes" =
      some (⟨"user.{sub}.*", "{sub}", "{sub}"⟩, some "u1") := by rfl
  have hplain : innerWildcard (dotParts "user.{sub}.*") = false := by decide +kernel
  have halike : ReadAlike (Acl.claimStrings userRules.mappings (roleClaims "editor")) "u1"
      (some "u1") "{sub}" := by
    have hnone : splitOnce "{sub}" = none := by decide
    rw [ReadAlike, hnone]
    exact fun _ hsub => absurd hsub (by decide)
  refine (same_verdicts_iff hidentity "user.u1.notes").mpr ⟨?_, ?_⟩
  · rw [Agree, hdecides]
    dsimp only
    rwa [if_neg (by simp [hplain])]
  · rw [Agree, hdecides]
    dsimp only
    rwa [if_neg (by simp [hplain])]

/-- A key that no rule matches: denied by the Rust server and open here. -/
theorem unmatched_key_is_open :
    userRules.canRead "billing" (some "u1") (roleClaims "editor") = false ∧
      (ofRules userRules).canRead "billing" (some ⟨"u1", ["editor"], [], []⟩) = true := by
  decide +kernel

end Sodp.ScriptServer
