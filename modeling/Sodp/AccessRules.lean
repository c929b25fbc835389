import Sodp.Server

/-!
# Access rules of the Rust server

`acl.rs`: the first rule whose pattern matches the key decides, and a key that no rule matches is
denied. `{sub}` captures a segment and `*` takes the rest of the key, wherever it stands. A
permission `KEY:VALUE` is about a claim that counts as a list of strings with the value in it.
-/

namespace Sodp
open List Option

/-- `split_once(':')` -/
def splitOnce (s : String) : Option (String × String) :=
  if ':' ∈ s.toList then
    some (String.ofList (s.toList.takeWhile (· ≠ ':')),
      String.ofList ((s.toList.dropWhile (· ≠ ':')).drop 1))
  else none

theorem splitOnce_eq_some_iff {s tag raw : String} :
    splitOnce s = some (tag, raw) ↔ ':' ∉ tag.toList ∧
      s.toList = tag.toList ++ ':' :: raw.toList := by
  rw [splitOnce]
  constructor
  · intro h
    split_ifs at h with hmem
    simp only [some.injEq, Prod.mk.injEq] at h
    obtain ⟨rfl, rfl⟩ := h
    rw [String.toList_ofList, String.toList_ofList]
    refine ⟨fun hin => by simpa using mem_takeWhile_imp hin, ?_⟩
    cases hrest : s.toList.dropWhile (· ≠ ':') with
    | nil =>
      have hall := dropWhile_eq_nil_iff.mp hrest ':' hmem
      simp at hall
    | cons c =>
      have hc : c = ':' := by
        have hhead := head?_dropWhile_not (fun c => decide (c ≠ ':')) s.toList
        rw [hrest] at hhead
        simpa using hhead
      have hsplit := takeWhile_append_dropWhile (p := fun c => decide (c ≠ ':')) (l := s.toList)
      rw [hrest, hc] at hsplit
      exact hsplit.symm
  · rintro ⟨htag, hs⟩
    have hall : ∀ c ∈ tag.toList, decide (c ≠ ':') = true := by
      intro c hc
      rw [decide_eq_true_eq]
      rintro rfl
      exact htag hc
    rw [if_pos (by rw [hs]; simp), hs, takeWhile_append_of_pos hall, dropWhile_append_of_pos hall]
    simp

namespace Acl

structure AclRule where
  key : String
  read : String
  write : String

structure Registry where
  rules : List AclRule
  mappings : OrderedMap String String

/-- The loop of `match_pattern`, with what is captured so far. -/
def matchSegments : List String → List String → Option String → Option (Option String)
  | [], key, captured => if key = [] then some captured else none
  | pat :: rest, key, captured =>
    if pat = "*" then if key = [] then none else some captured
    else match key with
      | [] => none
      | segment :: key =>
        if pat = "{sub}" then matchSegments rest key (some segment)
        else if segment = pat then matchSegments rest key captured
        else none

def matchPattern (pattern key : String) : Option (Option String) :=
  matchSegments (dotParts pattern) (dotParts key) none

def resolveClaim (claims : Value) (path : String) : Option Value :=
  match claims.get? path with
  | some v => some v
  | none => (dotParts path).foldlM (fun current part => current.get? part) claims

def hasClaim (claims : Value) (mappings : OrderedMap String String) (tag value : String) : Bool :=
  match mappings.get? tag with
  | none => false
  | some claimPath =>
    match resolveClaim claims claimPath with
    | some (.array items) => items.any fun item => item.asStr = some value
    | some (.string s) => s = value
    | _ => false

def checkPermission (perm : String) (sub captured : Option String) (claims : Value)
    (mappings : OrderedMap String String) : Bool :=
  if perm = "*" then true
  else if perm = "{sub}" then sub.isSome && sub = captured
  else match splitOnce perm with
    | some (tag, rawValue) =>
      -- `{sub}` in the place of the value stands for the captured segment
      (if rawValue = "{sub}" then captured else some rawValue).any (hasClaim claims mappings tag)
    | none => sub = some perm

/-! ### What a permission asks for -/

def claimStrings (mappings : OrderedMap String String) (claims : Value) (tag : String) :
    List String :=
  match (mappings.get? tag).bind (resolveClaim claims) with
  | some (.array items) => items.filterMap Value.asStr
  | some (.string s) => [s]
  | _ => []

/-- The value that a permission names: `{sub}` stands for the captured segment. -/
def referent (captured : Option String) (rawValue : String) : Option String :=
  if rawValue = "{sub}" then captured else some rawValue

def Granted (values : String → List String) (sub : String) (captured : Option String)
    (perm : String) : Prop :=
  perm = "*" ∨ perm = "{sub}" ∧ captured = some sub ∨
  (∃ tag raw value, splitOnce perm = some (tag, raw) ∧ referent captured raw = some value ∧
    value ∈ values tag) ∨
  perm ≠ "{sub}" ∧ splitOnce perm = none ∧ perm = sub

variable {mappings : OrderedMap String String}

theorem hasClaim_eq_true_iff {claims : Value} {tag value : String} :
    hasClaim claims mappings tag value = true ↔ value ∈ claimStrings mappings claims tag := by
  rw [hasClaim, claimStrings]
  cases mappings.get? tag with
  | none => simp
  | some =>
    dsimp only [bind_some]
    split
    · simp
    · simp [eq_comm]
    · simp

theorem checkPermission_eq_true_iff {perm sub : String} {captured : Option String}
    {claims : Value} :
    checkPermission perm (some sub) captured claims mappings = true ↔
      Granted (claimStrings mappings claims) sub captured perm := by
  rw [checkPermission, Granted]
  by_cases hany : perm = "*"
  · simp [hany]
  by_cases hsub : perm = "{sub}"
  · subst hsub
    have hnone : splitOnce "{sub}" = none := by decide
    simp [hnone, eq_comm]
  rw [if_neg hany, if_neg hsub]
  cases hsplit : splitOnce perm with
  | none => simp [hany, hsub, eq_comm]
  | some parts =>
    obtain ⟨-, -⟩ := parts
    simp [hany, hsub, referent, Option.any_eq_true, hasClaim_eq_true_iff]

def Registry.deciding (acl : Registry) (key : String) : Option (AclRule × Option String) :=
  acl.rules.findSome? fun rule => (matchPattern rule.key key).map fun captured => (rule, captured)

namespace Registry
variable (acl : Registry)

def check (key : String) (sub : Option String) (claims : Value) (write : Bool) : Bool :=
  match acl.deciding key with
  | some (rule, captured) =>
    checkPermission (if write then rule.write else rule.read) sub captured claims acl.mappings
  | none => false

def canRead (key : String) (sub : Option String) (claims : Value) : Bool :=
  acl.check key sub claims false

def canWrite (key : String) (sub : Option String) (claims : Value) : Bool :=
  acl.check key sub claims true

end Registry

/-! ### What a pattern matches, and whose segments it captures -/

theorem dotParts_intercalate {parts : List String} (hne : parts ≠ [])
    (h : ∀ part ∈ parts, '.' ∉ part.toList) :
    dotParts (String.ofList (['.'].intercalate (parts.map String.toList))) = parts := by
  rw [dotParts, String.toList_ofList,
    splitOn_intercalate '.' (by simpa using h) (by simpa using hne)]
  simp

variable {pat key : List String} {captured found : Option String}

theorem matchSegments_cons_cons (p segment : String) (rest key : List String)
    (captured : Option String) : matchSegments (p :: rest) (segment :: key) captured =
      if p = "*" then some captured
      else if p = "{sub}" then matchSegments rest key (some segment)
      else if segment = p then matchSegments rest key captured else none := by
  simp [matchSegments]

/-- A literal fits the segment it equals, and `{sub}` fits any. -/
def SegmentFits (pat segment : String) : Prop := pat = "{sub}" ∨ segment = pat

/-- The segments at the `{sub}` positions before the wildcard. -/
def subjects (pat key : List String) : List String :=
  (((pat.takeWhile (· ≠ "*")).zip key).filter fun x => x.1 = "{sub}").map Prod.snd

theorem matchSegments_eq_some_iff :
    matchSegments pat key captured = some found ↔
      (if "*" ∈ pat then (pat.takeWhile (· ≠ "*")).length < key.length ∧
          Forall₂ SegmentFits (pat.takeWhile (· ≠ "*"))
            (key.take (pat.takeWhile (· ≠ "*")).length)
        else Forall₂ SegmentFits pat key) ∧ found = (subjects pat key).getLast?.or captured := by
  induction pat generalizing key captured with
  | nil => cases key <;> simp [matchSegments, subjects, eq_comm]
  | cons p rest ih =>
    cases key with
    | nil => simp [matchSegments]
    | cons segment key =>
      rw [matchSegments_cons_cons]
      by_cases hstar : p = "*"
      · simp [hstar, subjects, eq_comm]
      have hwhile : (p :: rest).takeWhile (· ≠ "*") = p :: rest.takeWhile (· ≠ "*") :=
        takeWhile_cons_of_pos (by simpa using hstar)
      have hmem : "*" ∈ p :: rest ↔ "*" ∈ rest := by simp [Ne.symm hstar]
      simp only [if_neg hstar, subjects, hwhile, hmem, length_cons, Nat.add_lt_add_iff_right,
        take_succ_cons, forall₂_cons, zip_cons_cons, filter_cons, decide_eq_true_eq]
      by_cases hsub : p = "{sub}"
      · simp only [hsub, if_true, ih, SegmentFits, true_or, true_and, map_cons, getLast?_cons,
          some_or, subjects]
        cases ((((rest.takeWhile (· ≠ "*")).zip key).filter
          fun x => x.1 = "{sub}").map Prod.snd).getLast? <;> rfl
      · by_cases hsegment : segment = p
        · simp [hsub, hsegment, ih, SegmentFits, subjects]
        · simp [hsub, hsegment, SegmentFits]

theorem pattern_grammar (pattern key : String) (captured : Option String) :
    let pat := dotParts pattern
    let segments := dotParts key
    let before := pat.takeWhile (· ≠ "*")
    matchPattern pattern key = some captured ↔
      (if "*" ∈ pat then before.length < segments.length ∧
          Forall₂ SegmentFits before (segments.take before.length)
        else Forall₂ SegmentFits pat segments) ∧
      captured = (((before.zip segments).filter fun x => x.1 = "{sub}").map Prod.snd).getLast? := by
  intro pat segments before
  rw [matchPattern, matchSegments_eq_some_iff, or_none]
  rfl

theorem matchSegments_of_notMem (hpat : "{sub}" ∉ pat.takeWhile (· ≠ "*"))
    (h : matchSegments pat key captured = some found) : found = captured := by
  obtain ⟨-, rfl⟩ := matchSegments_eq_some_iff.mp h
  have hnone : subjects pat key = [] := by
    rw [subjects, map_eq_nil_iff, filter_eq_nil_iff]
    rintro ⟨p, _⟩ hx hp
    exact hpat (of_decide_eq_true hp ▸ (of_mem_zip hx).1)
  rw [hnone, getLast?_nil, none_or]

/-- With one `{sub}` in the pattern, what is captured is the segment that stands there. -/
theorem segment_of_count {sub segment : String} {i : ℕ} (hcount : pat.count "{sub}" ≤ 1)
    (h : matchSegments pat key none = some (some sub)) (hi : pat[i]? = some "{sub}")
    (hkey : key[i]? = some segment) : segment = sub := by
  induction pat generalizing key i with
  | nil => simp at hi
  | cons p rest ih =>
    cases key with
    | nil => simp at hkey
    | cons =>
      rw [matchSegments_cons_cons] at h
      rw [count_cons] at hcount
      split_ifs at h with hstar hsub
      · cases h
      · simp only [hsub, beq_self_eq_true, if_true] at hcount
        have hrest : "{sub}" ∉ rest := count_eq_zero.mp (by omega)
        cases i with
        | zero =>
          have hsub := matchSegments_of_notMem (fun hmem => hrest (takeWhile_subset _ hmem)) h
          rw [getElem?_cons_zero, ← hsub] at hkey
          exact (some.inj hkey).symm
        | succ => exact absurd (mem_of_getElem? (getElem?_cons_succ ▸ hi)) hrest
      · cases i with
        | zero => exact absurd (some.inj hi) hsub
        | succ => exact ih (by omega) h hi hkey

theorem matchSegments_of_forall₂ (h : Forall₂ (fun p k => p ≠ "{sub}" → k = p) pat key)
    (hpat : captured.isSome ∨ "{sub}" ∈ pat.takeWhile (· ≠ "*")) :
    ∃ sub, matchSegments pat key captured = some (some sub) := by
  induction h generalizing captured with
  | nil => simpa [matchSegments, isSome_iff_exists] using hpat
  | cons hp _ ih =>
    rw [matchSegments_cons_cons]
    split_ifs with hstar hsub hfirst
    · simpa [hstar, isSome_iff_exists] using hpat
    · exact ih (.inl rfl)
    · refine ih (hpat.imp_right fun hmem => ?_)
      rw [takeWhile_cons_of_pos (by simpa using hstar)] at hmem
      exact (mem_cons.mp hmem).resolve_left (Ne.symm hsub)
    · exact absurd (hp hsub) hfirst

theorem matchPattern_of_deciding {acl : Registry} {key : String} {rule : AclRule}
    (h : acl.deciding key = some (rule, captured)) : matchPattern rule.key key = some captured := by
  obtain ⟨r, -, hr⟩ := exists_of_findSome?_eq_some h
  obtain ⟨c, hc, heq⟩ := map_eq_some_iff.mp hr
  cases heq
  exact hc

theorem subject_isolated_iff (pattern : String) :
    (∀ (acl : Registry) (key : String) (sub : Option String) (claims : Value) (write : Bool)
      (rule : AclRule) (captured : Option String), acl.deciding key = some (rule, captured) →
      rule.key = pattern → (if write then rule.write else rule.read) = "{sub}" →
      acl.check key sub claims write = true → ∀ (i : ℕ) (segment : String),
        (dotParts pattern)[i]? = some "{sub}" → (dotParts key)[i]? = some segment →
          sub = some segment) ↔
      (dotParts pattern).count "{sub}" ≤ 1 ∨ "{sub}" ∉ (dotParts pattern).takeWhile (· ≠ "*") := by
  constructor
  · intro h
    by_contra hnot
    rw [not_or, not_le, not_not] at hnot
    obtain ⟨hcount, hmem⟩ := hnot
    -- the first `{sub}` replaced by another segment, and the second left as it is
    obtain ⟨before, after, hpat, hbefore⟩ := eq_append_cons_of_mem (takeWhile_subset _ hmem)
    have hafter : "{sub}" ∈ after := by
      rw [hpat, count_append, count_cons_self, count_eq_zero_of_not_mem hbefore] at hcount
      exact count_pos_iff.mp (by omega)
    have hparts : ∀ part ∈ dotParts pattern, '.' ∉ part.toList := by
      intro part hpart
      obtain ⟨_, hchars, rfl⟩ := mem_map.mp hpart
      rw [String.toList_ofList]
      exact notMem_of_mem_splitOn hchars
    obtain ⟨key, hkey⟩ : ∃ key, dotParts key = before ++ "x" :: after := by
      refine ⟨_, dotParts_intercalate (by simp) fun part hpart => ?_⟩
      rw [hpat] at hparts
      rcases mem_append.mp hpart with hb | ha
      · exact hparts part (mem_append_left _ hb)
      · rcases mem_cons.mp ha with rfl | ha
        · decide
        · exact hparts part (by simp [ha])
    obtain ⟨sub, hsub⟩ : ∃ sub, matchPattern pattern key = some (some sub) := by
      refine matchSegments_of_forall₂ ?_ (.inr hmem)
      rw [hpat, hkey]
      refine rel_append (forall₂_same.mpr fun _ _ _ => rfl) (.cons (absurd rfl) ?_)
      exact forall₂_same.mpr fun _ _ _ => rfl
    let rule : AclRule := ⟨pattern, "{sub}", "{sub}"⟩
    have hall := h ⟨[rule], .empty⟩ key (some sub) .null false rule (some sub)
      (by simp [Registry.deciding, rule, hsub]) rfl rfl
      (by simp [Registry.check, Registry.deciding, rule, hsub, checkPermission])
    obtain ⟨i, hi⟩ := mem_iff_getElem?.mp hafter
    have hx := hall before.length "x" (by simp [hpat]) (by simp [hkey])
    have hs := hall (before.length + (i + 1)) "{sub}"
      (by simp [hpat, hi, getElem?_append_right]) (by simp [hkey, hi, getElem?_append_right])
    rw [hx] at hs
    exact absurd (some.inj hs) (by decide)
  · rintro h acl key sub claims write rule captured hdec rfl hperm hcheck i segment hi hkey
    have hmatch := matchPattern_of_deciding hdec
    rw [Registry.check, hdec] at hcheck
    simp only [hperm, checkPermission] at hcheck
    rw [if_neg (by decide), if_pos trivial, Bool.and_eq_true, decide_eq_true_eq] at hcheck
    obtain ⟨hsome, rfl⟩ := hcheck
    obtain ⟨_, rfl⟩ := isSome_iff_exists.mp hsome
    rcases h with hcount | hstar
    · rw [segment_of_count hcount hmatch hi hkey]
    · cases matchSegments_of_notMem hstar hmatch

def pairRule : Registry := ⟨[⟨"pair.{sub}.{sub}", "{sub}", "{sub}"⟩], .empty⟩

theorem other_subject_admitted : pairRule.check "pair.bob.alice" (some "alice") .null true = true ∧
    (pairRule.deciding "pair.bob.alice").isSome ∧ (dotParts "pair.{sub}.{sub}")[1]? = some "{sub}" ∧
    (dotParts "pair.bob.alice")[1]? = some "bob" := by
  decide +kernel

end Acl

end Sodp
