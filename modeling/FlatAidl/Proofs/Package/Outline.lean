import FlatAidl.Proofs.Package.Headings
import Mathlib.Data.List.Nodup

/-!
The catalogue of declared models as their headings say. Headings can be placed exactly if their
names are new and fit their parents, which does not depend on their order; and what is placed is
then known from the headings, up to the places themselves.
-/

namespace FlatAidl

/-- Whether a heading's name is a type's and extends its parent's by one name. -/
def Heading.Sound (h : Heading) : Prop :=
  h.name.isType = true ∧
    match h.parent with
    | none => h.name.names.length = 1
    | some n => h.name.parent? = some n

theorem Catalogue.bind_lookup_eq_some_iff {c : Catalogue} {parent : Option QualifiedName}
    {n : QualifiedName} {id : DeclId} (hid : c.lookup n = some id) :
    parent.bind c.lookup = some id ↔ parent = some n := by
  constructor
  · intro hbind
    obtain ⟨m, hm, hlookup⟩ := Option.bind_eq_some_iff.1 hbind
    have hsame := name?_of_lookup hlookup
    rw [name?_of_lookup hid] at hsame
    rw [hm, Option.some.inj hsame]
  · intro hp
    rw [hp, Option.bind_some, hid]

namespace Assembly

variable {a a' : Assembly} {hs : List Heading} {h : Heading}

/-- The headings directly inside the declaration of a name. -/
def inside (hs : List Heading) (n : QualifiedName) : List Heading :=
  hs.filter fun k => decide (k.parent = some n)

theorem inside_concat (hs : List Heading) (h : Heading) (n : QualifiedName) :
    inside (hs ++ [h]) n = inside hs n ++ if h.parent = some n then [h] else [] := by
  rw [inside, List.filter_append, List.filter_singleton]
  by_cases hn : h.parent = some n
  · simp [hn, inside]
  · simp [hn, inside]

/-- The declaration of a heading among others, in a catalogue that holds them all. -/
def outline (c : Catalogue) (hs : List Heading) (h : Heading) : Declaration :=
  ⟨h.name, none, emptyBody h.model, (inside hs h.name).filterMap fun k => c.lookup k.name,
    h.parent.bind c.lookup⟩

def pendingOf (c : Catalogue) (hs : List Heading) : List PendingModel :=
  hs.filterMap fun h => (c.lookup h.name).map fun id => ⟨id, h.path, h.model⟩

/-- The catalogue under way holds the base interface and what the headings say. -/
structure Outlined (hs : List Heading) (a : Assembly) : Prop where
  nodup : (QualifiedName.base :: hs.map Heading.name).Nodup
  names : a.catalogue.decls.map Declaration.name = QualifiedName.base :: hs.map Heading.name
  base : a.catalogue.get? Catalogue.base = some Catalogue.baseDeclaration
  get : ∀ h ∈ hs, ∀ id, a.catalogue.lookup h.name = some id →
    a.catalogue.get? id = some (outline a.catalogue hs h)
  pending : a.pending = pendingOf a.catalogue hs

theorem outlined_empty : Outlined [] empty where
  nodup := List.nodup_singleton _
  names := rfl
  base := rfl
  get := by simp
  pending := rfl

namespace Outlined

variable (ho : Outlined hs a)
include ho

theorem lookup_eq_none_iff {n : QualifiedName} : a.catalogue.lookup n = none ↔
    n ∉ QualifiedName.base :: hs.map Heading.name := by
  rw [Catalogue.lookup_eq_none_iff_not_mem, ho.names]

theorem exists_lookup {n : QualifiedName} (hn : n ∈ hs.map Heading.name) :
    ∃ id, a.catalogue.lookup n = some id := by
  have hsome : a.catalogue.lookup n ≠ none := by
    rw [Ne, ho.lookup_eq_none_iff, not_not]
    exact List.mem_cons_of_mem _ hn
  exact Option.ne_none_iff_exists'.1 hsome

theorem checkNesting_eq_ok_iff (hparent : ∀ n, h.parent = some n → n ∈ hs.map Heading.name) :
    a.catalogue.checkNesting h.name (h.parent.bind a.catalogue.lookup) = .ok () ↔
      match h.parent with
      | none => h.name.names.length = 1
      | some n => h.name.parent? = some n := by
  cases hp : h.parent with
  | none => simp [Catalogue.checkNesting]
  | some n =>
    obtain ⟨id, hid⟩ := ho.exists_lookup (hparent n hp)
    obtain ⟨d, hd, hname⟩ := Option.map_eq_some_iff.1 (Catalogue.name?_of_lookup hid)
    simp only [Option.bind_some, hid, Catalogue.checkNesting, Catalogue.target_eq_ok.2 hd,
      Outcome.ok_bind, hname]
    by_cases hfit : h.name.parent? = some n
    · simp [hfit]
    · simp [hfit]

theorem exists_place_iff (hparent : ∀ n, h.parent = some n → n ∈ hs.map Heading.name) :
    (∃ a', a.place h = .ok a') ↔
      h.Sound ∧ h.name ∉ QualifiedName.base :: hs.map Heading.name := by
  simp only [place, declareOne_eq_ok, exists_and_left, exists_eq, and_true]
  rw [ho.lookup_eq_none_iff, ho.checkNesting_eq_ok_iff hparent, Heading.Sound]
  constructor
  · rintro ⟨htype, hnew, hfit⟩
    exact ⟨⟨htype, hfit⟩, hnew⟩
  · rintro ⟨⟨htype, hfit⟩, hnew⟩
    exact ⟨htype, hnew, hfit⟩

theorem lookup_of_place (hparent : ∀ n, h.parent = some n → n ∈ hs.map Heading.name)
    (hplace : a.place h = .ok a') :
    a'.catalogue.lookup h.name = some a.catalogue.size ∧
      ∀ n ∈ hs.map Heading.name, a'.catalogue.lookup n = a.catalogue.lookup n := by
  have hnew : h.name ∉ QualifiedName.base :: hs.map Heading.name :=
    ((ho.exists_place_iff hparent).1 ⟨a', hplace⟩).2
  have hlookup := lookup_declareOne hplace
  refine ⟨by rw [hlookup, if_pos rfl], ?_⟩
  rintro n hn
  have hother : n ≠ h.name := by
    rintro rfl
    exact hnew (List.mem_cons_of_mem _ hn)
  rw [hlookup, if_neg hother]

section

variable (hparent : ∀ n, h.parent = some n → n ∈ hs.map Heading.name) (hplace : a.place h = .ok a')
include hparent hplace

theorem places_of_place (n : QualifiedName) :
    ((inside (hs ++ [h]) n).filterMap fun k => a'.catalogue.lookup k.name) =
      ((inside hs n).filterMap fun k => a.catalogue.lookup k.name) ++
        if h.parent = some n then [a.catalogue.size] else [] := by
  obtain ⟨hself, hold⟩ := ho.lookup_of_place hparent hplace
  have hfirst : ((inside hs n).filterMap fun k => a'.catalogue.lookup k.name) =
      (inside hs n).filterMap fun k => a.catalogue.lookup k.name := by
    refine List.filterMap_congr fun k hk => hold _ ?_
    exact List.mem_map_of_mem (List.mem_of_mem_filter hk)
  rw [inside_concat, List.filterMap_append, hfirst]
  by_cases hn : h.parent = some n
  · simp [hn, hself]
  · simp [hn]

variable (hclosed : ∀ k ∈ hs, ∀ n, k.parent = some n → n ∈ hs.map Heading.name)
include hclosed

theorem bind_lookup_of_place {k : Heading} (hk : k ∈ hs ++ [h]) :
    k.parent.bind a'.catalogue.lookup = k.parent.bind a.catalogue.lookup := by
  obtain ⟨_, hold⟩ := ho.lookup_of_place hparent hplace
  cases hp : k.parent with
  | none => rfl
  | some n =>
    have hn : n ∈ hs.map Heading.name := by
      rcases List.mem_append.1 hk with hk | hk
      · exact hclosed k hk n hp
      · rw [List.mem_singleton.1 hk] at hp
        exact hparent n hp
    exact hold n hn

theorem get_of_place {k : Heading} (hk : k ∈ hs ++ [h]) {id : DeclId}
    (hid : a'.catalogue.lookup k.name = some id) :
    a'.catalogue.get? id = some (outline a'.catalogue (hs ++ [h]) k) := by
  obtain ⟨hself, hold⟩ := ho.lookup_of_place hparent hplace
  obtain ⟨⟨_, hnew, hnesting⟩, hgrown⟩ := declareOne_eq_ok.1 hplace
  have houtline : outline a'.catalogue (hs ++ [h]) k = ⟨k.name, none, emptyBody k.model,
      ((inside hs k.name).filterMap fun j => a.catalogue.lookup j.name) ++
        (if h.parent = some k.name then [a.catalogue.size] else []),
      k.parent.bind a.catalogue.lookup⟩ := by
    rw [outline, ho.bind_lookup_of_place hparent hplace hclosed hk,
      ho.places_of_place hparent hplace]
  rw [houtline]
  rcases List.mem_append.1 hk with hk | hk
  · -- An older declaration changes only if it is the parent: it lists one place more.
    rw [hold _ (List.mem_map_of_mem hk)] at hid
    have hlt : id < a.catalogue.size :=
      Catalogue.lt_size_of_name? (Catalogue.name?_of_lookup hid)
    rw [hgrown, Catalogue.get?_append_of_ne _ _ _ _ (Nat.ne_of_lt hlt), ho.get k hk id hid]
    have hiff : h.parent.bind a.catalogue.lookup = some id ↔ h.parent = some k.name :=
      Catalogue.bind_lookup_eq_some_iff hid
    by_cases hp : h.parent = some k.name
    · rw [if_pos (hiff.2 hp), if_pos hp]
      rfl
    · rw [if_neg fun heq => hp (hiff.1 heq), if_neg hp, List.append_nil]
      rfl
  · -- The new one has nothing inside, since no heading can name it as its parent yet.
    rw [List.mem_singleton.1 hk] at hid ⊢
    rw [hself] at hid
    cases hid
    have hnone : ∀ j ∈ hs ++ [h], j.parent ≠ some h.name := by
      intro j hj hp
      have hmem : h.name ∈ hs.map Heading.name := by
        rcases List.mem_append.1 hj with hj | hj
        · exact hclosed j hj _ hp
        · rw [List.mem_singleton.1 hj] at hp
          exact hparent _ hp
      rw [ho.lookup_eq_none_iff] at hnew
      exact hnew (List.mem_cons_of_mem _ hmem)
    have hempty : inside hs h.name = [] :=
      List.filter_eq_nil_iff.2 fun j hj => by simpa using hnone j (List.mem_append_left _ hj)
    have hself' : h.parent ≠ some h.name :=
      hnone h (List.mem_append_right _ (List.mem_singleton_self h))
    rw [hgrown, Catalogue.get?_append_size _ _ _ (Catalogue.parent_lt_of_checkNesting hnesting)]
    simp [hempty, hself']

theorem place : Outlined (hs ++ [h]) a' := by
  obtain ⟨hself, hold⟩ := ho.lookup_of_place hparent hplace
  obtain ⟨⟨_, _, hnesting⟩, hgrown⟩ := declareOne_eq_ok.1 hplace
  have hlt := Catalogue.parent_lt_of_checkNesting hnesting
  have hnew := ((ho.exists_place_iff hparent).1 ⟨a', hplace⟩).2
  refine ⟨?_, ?_, ?_, fun k hk id hid => ho.get_of_place hparent hplace hclosed hk hid, ?_⟩
  · rw [List.map_append, ← List.cons_append]
    exact List.nodup_append.2 ⟨ho.nodup, List.nodup_singleton _, by
      rintro n hn m hm rfl
      rw [List.map_singleton, List.mem_singleton] at hm
      exact hnew (hm ▸ hn)⟩
  · rw [hgrown, Catalogue.names_append hlt, ho.names]
    simp
  · have hsize : Catalogue.base < a.catalogue.size := Catalogue.lt_size_of_get? ho.base
    have hnobase : h.parent.bind a.catalogue.lookup ≠ some Catalogue.base := by
      intro hbind
      obtain ⟨n, hn, hlookup⟩ := Option.bind_eq_some_iff.1 hbind
      have hname := Catalogue.name?_of_lookup hlookup
      rw [Catalogue.name?_of_get? ho.base] at hname
      have hsame : QualifiedName.base = n := Option.some.inj hname
      exact (List.nodup_cons.1 ho.nodup).1 (hsame ▸ hparent n hn)
    rw [hgrown, Catalogue.get?_append_of_ne _ _ _ _ (Nat.ne_of_lt hsize), if_neg hnobase, ho.base]
  · have hfirst : pendingOf a'.catalogue hs = pendingOf a.catalogue hs := by
      refine List.filterMap_congr fun k hk => ?_
      rw [hold _ (List.mem_map_of_mem hk)]
    have hpending : a'.pending = a.pending ++ [⟨a.catalogue.size, h.path, h.model⟩] := by
      rw [hgrown]
    rw [hpending, ho.pending, ← hfirst]
    simp [pendingOf, hself]

end

end Outlined

/-! ### All headings -/

structure Placeable (hs : List Heading) : Prop where
  nodup : (QualifiedName.base :: hs.map Heading.name).Nodup
  sound : ∀ h ∈ hs, h.Sound

theorem ParentsFirst.closed (hp : ParentsFirst [] hs) :
    ∀ k ∈ hs, ∀ n, k.parent = some n → n ∈ hs.map Heading.name := by
  intro k hk n hn
  rcases hp.mem hk hn with hmem | hmem
  · exact hmem
  · cases hmem

theorem parentsFirst_concat (hp : ParentsFirst [] (hs ++ [h])) :
    ParentsFirst [] hs ∧ ∀ n, h.parent = some n → n ∈ hs.map Heading.name := by
  obtain ⟨hfront, hlast⟩ := parentsFirst_append.1 hp
  refine ⟨hfront, fun n hn => ?_⟩
  simpa using hlast.1 n hn

/-- What is placed fits together, and is known from its headings. -/
theorem outlined_of_foldlM_place (hp : ParentsFirst [] hs) (hfold : hs.foldlM place empty = .ok a) :
    Placeable hs ∧ Outlined hs a := by
  induction hs using List.reverseRecOn generalizing a with
  | nil =>
    cases hfold
    exact ⟨⟨List.nodup_singleton _, by simp⟩, outlined_empty⟩
  | append_singleton hs h ih =>
    obtain ⟨hfront, hparent⟩ := parentsFirst_concat hp
    rw [List.foldlM_append] at hfold
    obtain ⟨a₀, ha₀, hfold⟩ := Outcome.bind_eq_ok.1 hfold
    obtain ⟨a₁, hplace, hfold⟩ := Outcome.bind_eq_ok.1 hfold
    cases hfold
    obtain ⟨hplaceable, ho⟩ := ih hfront ha₀
    have hsound := ((ho.exists_place_iff hparent).1 ⟨a, hplace⟩).1
    have ho' := ho.place hparent hplace hfront.closed
    refine ⟨⟨ho'.nodup, ?_⟩, ho'⟩
    intro k hk
    rcases List.mem_append.1 hk with hk | hk
    · exact hplaceable.sound k hk
    · rw [List.mem_singleton.1 hk]
      exact hsound

theorem exists_foldlM_place (hp : ParentsFirst [] hs) (hplaceable : Placeable hs) :
    ∃ a, hs.foldlM place empty = .ok a := by
  induction hs using List.reverseRecOn with
  | nil => exact ⟨empty, rfl⟩
  | append_singleton hs h ih =>
    obtain ⟨hfront, hparent⟩ := parentsFirst_concat hp
    have hnodup := hplaceable.nodup
    rw [List.map_append, ← List.cons_append, List.nodup_append] at hnodup
    obtain ⟨a, ha⟩ := ih hfront
      ⟨hnodup.1, fun k hk => hplaceable.sound k (List.mem_append_left _ hk)⟩
    obtain ⟨_, ho⟩ := outlined_of_foldlM_place hfront ha
    have hnew : h.name ∉ QualifiedName.base :: hs.map Heading.name := by
      intro hmem
      exact hnodup.2.2 _ hmem h.name (by simp) rfl
    have hsound := hplaceable.sound h (List.mem_append_right _ (List.mem_singleton_self h))
    obtain ⟨a', ha'⟩ := (ho.exists_place_iff hparent).2 ⟨hsound, hnew⟩
    refine ⟨a', ?_⟩
    rw [List.foldlM_append]
    exact Outcome.bind_eq_ok.2 ⟨a, ha, Outcome.bind_eq_ok.2 ⟨a', ha', rfl⟩⟩

theorem Placeable.perm {hs' : List Heading} (h : Placeable hs) (hperm : hs.Perm hs') :
    Placeable hs' where
  nodup := ((hperm.map Heading.name).cons _).nodup_iff.1 h.nodup
  sound k hk := h.sound k (hperm.mem_iff.2 hk)

end Assembly

end FlatAidl
