import FlatAidl.Package.Assembly
import FlatAidl.Proofs.Package.TypeText

/-!
Relative names. What a name without `::` refers to is the innermost declaration around its scope; the
search goes outwards from the scope through the types that enclose it to their package.
-/

namespace FlatAidl

namespace QualifiedName

/-- A name with only some of its type names, none of which are left for its package. -/
def upTo (n : QualifiedName) (k : Nat) : QualifiedName :=
  { n with names := n.names.take k }

/-- The next name outwards; around a type in no other type that is its package. -/
def around? (n : QualifiedName) : Option QualifiedName :=
  n.parent?.or (if n.isType then some n.packageOnly else none)

variable {n : QualifiedName}

theorem around?_package (package : Text) (version : Version) :
    around? ⟨package, version, []⟩ = none :=
  rfl

theorem around?_concat (package : Text) (version : Version) (front : List Text) (last : Text) :
    around? ⟨package, version, front ++ [last]⟩ = some ⟨package, version, front⟩ := by
  cases front with
  | nil => rfl
  | cons name front =>
    have hlong : ¬ (name :: front ++ [last]).length < 2 := by simp
    have hlast : (name :: front ++ [last]).dropLast = name :: front := List.dropLast_concat
    rw [around?, parent?, if_neg hlong, hlast]
    rfl

theorem outward_eq (n : QualifiedName) :
    n.outward = (List.range (n.names.length + 1)).reverse.map n.upTo :=
  rfl

theorem outward_package (package : Text) (version : Version) :
    outward ⟨package, version, []⟩ = [⟨package, version, []⟩] :=
  rfl

theorem upTo_concat (package : Text) (version : Version) (front : List Text) (last : Text)
    {k : Nat} (h : k ≤ front.length) :
    upTo ⟨package, version, front ++ [last]⟩ k = upTo ⟨package, version, front⟩ k := by
  rw [upTo, upTo, List.take_append_of_le_length h]

theorem outward_concat (package : Text) (version : Version) (front : List Text) (last : Text) :
    outward ⟨package, version, front ++ [last]⟩ =
      ⟨package, version, front ++ [last]⟩ :: outward ⟨package, version, front⟩ := by
  have hlength : (front ++ [last]).length = front.length + 1 := by simp
  have hself : upTo ⟨package, version, front ++ [last]⟩ (front.length + 1) =
      ⟨package, version, front ++ [last]⟩ := by
    rw [upTo, ← hlength, List.take_length]
  rw [outward_eq, outward_eq, hlength, List.range_succ, List.reverse_concat, List.map_cons, hself]
  refine congrArg _ (List.map_congr_left fun k hk => upTo_concat package version front last ?_)
  rw [List.mem_reverse, List.mem_range] at hk
  omega

theorem foldl_nested (path : List Text) : path.foldl nested n = n.inside path := by
  induction path generalizing n with
  | nil => rw [List.foldl_nil, inside, List.append_nil]
  | cons name path ih => rw [List.foldl_cons, ih, inside, inside, nested, List.append_assoc]; rfl

end QualifiedName

/-- The first hit on the way down from a number is at the largest one that is hit. -/
theorem findSome?_reverse_range_eq_some_iff {α : Type} {f : Nat → Option α} {n : Nat} {a : α} :
    (List.range (n + 1)).reverse.findSome? f = some a ↔
      ∃ k, k ≤ n ∧ f k = some a ∧ ∀ j, k < j → j ≤ n → f j = none := by
  induction n with
  | zero =>
    have hlist : (List.range (0 + 1)).reverse = [0] := rfl
    rw [hlist, List.findSome?_singleton]
    constructor
    · intro h
      exact ⟨0, Nat.le_refl 0, h, fun j hlow hhigh => by omega⟩
    · intro h
      obtain ⟨k, hk, hhit, _⟩ := h
      rwa [Nat.le_zero.1 hk] at hhit
  | succ n ih =>
    rw [List.range_succ, List.reverse_concat, List.findSome?_cons]
    cases hlast : f (n + 1) with
    | some b =>
      constructor
      · intro h
        exact ⟨n + 1, Nat.le_refl _, hlast.trans h, fun j hlow hhigh => by omega⟩
      · intro h
        obtain ⟨k, hk, hhit, habove⟩ := h
        by_cases heq : k = n + 1
        · rw [← hlast, ← heq, hhit]
        · rw [habove (n + 1) (by omega) (Nat.le_refl _)] at hlast
          cases hlast
    | none =>
      rw [ih]
      constructor
      · intro h
        obtain ⟨k, hk, hhit, habove⟩ := h
        refine ⟨k, by omega, hhit, fun j hlow hhigh => ?_⟩
        by_cases heq : j = n + 1
        · rw [heq, hlast]
        · exact habove j hlow (by omega)
      · intro h
        obtain ⟨k, hk, hhit, habove⟩ := h
        have hne : k ≠ n + 1 := by
          intro heq
          rw [heq, hlast] at hhit
          cases hhit
        exact ⟨k, by omega, hhit, fun j hlow hhigh => habove j hlow (by omega)⟩

namespace Catalogue

open Text

variable {c : Catalogue} {path : Path} {scope : QualifiedName}

/-! ### The way outwards -/

/-- A search for a path of names: it ends with what is declared inside the scope, else it goes on
around the scope, and it finds nothing if nothing is around. -/
inductive Searches (c : Catalogue) (names : List Text) : QualifiedName → Option DeclId → Prop
  | found {scope : QualifiedName} {id : DeclId}
      (here : c.lookup (names.foldl QualifiedName.nested scope) = some id) :
      Searches c names scope (some id)
  | outwards {scope next : QualifiedName} {result : Option DeclId}
      (absent : c.lookup (names.foldl QualifiedName.nested scope) = none)
      (around : scope.around? = some next) (search : Searches c names next result) :
      Searches c names scope result
  | ended {scope : QualifiedName}
      (absent : c.lookup (names.foldl QualifiedName.nested scope) = none)
      (outermost : scope.around? = none) : Searches c names scope none

/-- The search always ends. -/
theorem searches_searchOutward (scope : QualifiedName) (t : Text) :
    c.Searches (split '.' t) scope (c.searchOutward scope t) := by
  obtain ⟨package, version, names⟩ := scope
  -- One step outwards takes the last type name away, so the induction is from the right.
  induction names using List.reverseRecOn with
  | nil =>
    rw [searchOutward, QualifiedName.outward_package, List.findSome?_singleton]
    cases hhere : c.lookup (QualifiedName.inside ⟨package, version, []⟩ (split '.' t)) with
    | some id => exact .found (by rw [QualifiedName.foldl_nested, hhere])
    | none =>
      exact .ended (by rw [QualifiedName.foldl_nested, hhere])
        (QualifiedName.around?_package package version)
  | append_singleton front last ih =>
    rw [searchOutward, QualifiedName.outward_concat, List.findSome?_cons]
    cases hhere : c.lookup (QualifiedName.inside ⟨package, version, front ++ [last]⟩
      (split '.' t)) with
    | some id => exact .found (by rw [QualifiedName.foldl_nested, hhere])
    | none =>
      exact .outwards (by rw [QualifiedName.foldl_nested, hhere])
        (QualifiedName.around?_concat package version front last) ih

theorem Searches.unique {names : List Text} {result other : Option DeclId}
    (h : c.Searches names scope result) (h' : c.Searches names scope other) : result = other := by
  induction h with
  | found here =>
    cases h' with
    | found here' => rw [← here, here']
    | outwards absent _ _ => rw [absent] at here; cases here
    | ended absent _ => rw [absent] at here; cases here
  | outwards absent around _ ih =>
    cases h' with
    | found here => rw [absent] at here; cases here
    | outwards _ around' search =>
      rw [around] at around'
      cases around'
      exact ih search
    | ended _ outermost => rw [around] at outermost; cases outermost
  | ended absent outermost =>
    cases h' with
    | found here => rw [absent] at here; cases here
    | outwards _ around _ => rw [outermost] at around; cases around
    | ended _ _ => rfl

/-! ### The innermost declaration -/

def Declares (c : Catalogue) (name : QualifiedName) : Prop :=
  ∃ id, c.name? id = some name

/-- The declaration that a path of names has inside the largest part of a scope inside which it has
one at all. -/
def Means (c : Catalogue) (scope : QualifiedName) (names : List Text) (id : DeclId) : Prop :=
  ∃ k, k ≤ scope.names.length ∧ c.name? id = some ((scope.upTo k).inside names) ∧
    ∀ j, k < j → j ≤ scope.names.length → ¬ c.Declares ((scope.upTo j).inside names)

theorem lookup_eq_none_iff_not_declares {name : QualifiedName} :
    c.lookup name = none ↔ ¬ c.Declares name := by
  rw [lookup_eq_none_iff, Declares, not_exists]

theorem searchOutward_eq (scope : QualifiedName) (t : Text) :
    c.searchOutward scope t = (List.range (scope.names.length + 1)).reverse.findSome?
      fun k => c.lookup ((scope.upTo k).inside (split '.' t)) := by
  rw [searchOutward, QualifiedName.outward_eq, List.findSome?_map]
  rfl

theorem DistinctNames.searchOutward_eq_some_iff (hc : DistinctNames c) {t : Text} {id : DeclId} :
    c.searchOutward scope t = some id ↔ c.Means scope (split '.' t) id := by
  simp only [searchOutward_eq, findSome?_reverse_range_eq_some_iff, hc.lookup_eq_some_iff,
    lookup_eq_none_iff_not_declares, Means]

theorem searchOutward_eq_none_iff {t : Text} : c.searchOutward scope t = none ↔
    ∀ k, k ≤ scope.names.length → ¬ c.Declares ((scope.upTo k).inside (split '.' t)) := by
  simp only [searchOutward_eq, List.findSome?_eq_none_iff, List.mem_reverse, List.mem_range,
    Nat.lt_succ_iff, lookup_eq_none_iff_not_declares]

theorem resolveName_of_relative {t : Text} (h : ¬ ofString "::" <:+: t) :
    c.resolveName path scope t =
      (c.searchOutward scope t).elim (.error (.unknownType path t scope)) .ok := by
  have hcut : ¬ (cutAt? (ofString "::") t).isSome = true := by
    rw [cutAt?_eq_none_iff.2 h]
    exact Bool.false_ne_true
  rw [resolveName, if_neg hcut]
  cases c.searchOutward scope t with
  | some id => rfl
  | none => rfl

theorem resolveType_of_named {t : Text} (hvector : ∀ element, trim t ≠ vectorText element)
    (hprimitive : ∀ kind, trim t ≠ Primitive.hidl kind) :
    c.resolveType path scope t = (c.resolveName path scope (trim t)).map .named := by
  rw [resolveType_of_leaf hvector, resolveLeaf, Primitive.read?_eq_none_iff.2 hprimitive]

/-- In every state of building, a name without `::` refers to the innermost declaration around its
scope, and it is unknown if there is none. -/
theorem build_resolves_relative (ops : List Operation) (path : Path) (scope : QualifiedName)
    {t : Text} (h : ¬ ofString "::" <:+: t) :
    (∀ id, (build ops).resolveName path scope t = .ok id ↔
      (build ops).Means scope (split '.' t) id) ∧
    (∀ e, (build ops).resolveName path scope t = .error e ↔
      e = .unknownType path t scope ∧ ∀ k, k ≤ scope.names.length →
        ¬ (build ops).Declares ((scope.upTo k).inside (split '.' t))) ∧
    (∃! result, (build ops).Searches (split '.' t) scope result) ∧
    (∀ result, (build ops).Searches (split '.' t) scope result →
      (build ops).resolveName path scope t =
        result.elim (.error (.unknownType path t scope)) .ok) ∧
    (∀ id, (build ops).resolveName path scope t = .ok id →
      ∃ name, (build ops).name? id = some name ∧ name.samePackage scope = true) ∧
    (∀ text, trim text = t → (∀ element, t ≠ ofString "vec<" ++ element ++ ['>']) →
      (∀ kind, t ≠ Primitive.hidl kind) →
      (build ops).resolveType path scope text =
        ((build ops).resolveName path scope t).map .named) ∧
    ∀ id, (build ops).defineSuper path scope id (some t) =
      (build ops).resolveName path scope t >>= fun target =>
        blame path ((build ops).setSuper id target) := by
  have hdistinct : DistinctNames (build ops) := (built_build ops).distinctNames
  have hresolve : (build ops).resolveName path scope t =
      ((build ops).searchOutward scope t).elim (.error (.unknownType path t scope)) .ok :=
    resolveName_of_relative h
  have hsearch : (build ops).Searches (split '.' t) scope ((build ops).searchOutward scope t) :=
    searches_searchOutward scope t
  have hok : ∀ id, (build ops).resolveName path scope t = .ok id ↔
      (build ops).Means scope (split '.' t) id := by
    intro id
    rw [hresolve, ← hdistinct.searchOutward_eq_some_iff]
    cases (build ops).searchOutward scope t <;> simp
  refine ⟨hok, fun e => ?_, ⟨_, hsearch, fun other hother => hother.unique hsearch⟩, ?_, ?_, ?_, ?_⟩
  · -- An unknown type is the only error there is, since the text is no full name.
    rw [hresolve, ← searchOutward_eq_none_iff]
    cases (build ops).searchOutward scope t with
    | some id => simp
    | none => simp [eq_comm]
  · intro result hresult
    rw [hresolve, hresult.unique hsearch]
  · intro id hid
    -- Going outwards and inside again changes the type names only.
    obtain ⟨k, _, hname, _⟩ := (hok id).1 hid
    exact ⟨_, hname, decide_eq_true ⟨rfl, rfl⟩⟩
  · rintro text rfl hvector hprimitive
    exact resolveType_of_named hvector hprimitive
  · intro id
    rfl

/-- An interface with a type whose name a type beside the interface also has, and another version. -/
def wardrobeOps : List Operation :=
  let package := Text.ofString "hw.wardrobe"
  [.declareInterface ⟨package, ⟨1, 0⟩, [ofString "IWardrobe"]⟩ none,
    .declareCompound .struct ⟨package, ⟨1, 0⟩, [ofString "IWardrobe", ofString "Box"]⟩ (some 1),
    .declareCompound .struct ⟨package, ⟨1, 0⟩, [ofString "Box"]⟩ none,
    .declareCompound .struct ⟨package, ⟨1, 1⟩, [ofString "Lid"]⟩ none]

def wardrobeBox : QualifiedName :=
  ⟨ofString "hw.wardrobe", ⟨1, 0⟩, [ofString "IWardrobe", ofString "Box"]⟩

theorem box_in_wardrobe_hides_box :
    ¬ ofString "::" <:+: ofString "Box" ∧ ¬ ofString "::" <:+: ofString "Lid" ∧
      (build wardrobeOps).resolveName [] wardrobeBox (ofString "Box") = .ok 2 ∧
      (build wardrobeOps).resolveName [] wardrobeBox (ofString "Lid") =
        .error (.unknownType [] (ofString "Lid") wardrobeBox) := by
  have hbox : ¬ ofString "::" <:+: ofString "Box" := by decide
  have hlid : ¬ ofString "::" <:+: ofString "Lid" := by decide
  refine ⟨hbox, hlid, ?_, ?_⟩
  · have hfound := (build_resolves_relative wardrobeOps [] wardrobeBox hbox).1 2
    refine hfound.2 ⟨1, by decide, by decide, fun j hlow hhigh => ?_⟩
    obtain rfl : j = 2 := Nat.le_antisymm hhigh hlow
    exact lookup_eq_none_iff_not_declares.1 (by decide)
  · have hunknown := (build_resolves_relative wardrobeOps [] wardrobeBox hlid).2.1
    refine (hunknown _).2 ⟨rfl, fun k hk => lookup_eq_none_iff_not_declares.1 ?_⟩
    have hcases : k = 0 ∨ k = 1 ∨ k = 2 := by
      change k ≤ 2 at hk
      omega
    rcases hcases with rfl | rfl | rfl <;> decide

end Catalogue

end FlatAidl
