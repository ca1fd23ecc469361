import FlatAidl.Package.Assembly
import FlatAidl.Proofs.Catalogue.Names

/-!
The declarations that models announce, as a flat list. Declaring models with everything nested in
them is the same as placing their headings one after another, each inside the declaration that its
parent's name stands for; and a parent's heading always comes first.
-/

namespace FlatAidl

/-- What is known of a declaration before any name is looked up. -/
structure Heading where
  path : Path
  parent : Option QualifiedName
  name : QualifiedName
  model : DeclModel

namespace Catalogue

variable {c : Catalogue}

theorem names_append {name : QualifiedName} {parent : Option DeclId} {body : Body}
    (hp : ∀ p, parent = some p → p < c.size) :
    (c.append name parent body).decls.map Declaration.name =
      c.decls.map Declaration.name ++ [name] := by
  apply List.ext_getElem?
  intro k
  rw [← name?_eq_getElem?, name?_append hp, List.getElem?_append, name?_eq_getElem?,
    List.length_map]
  have hsize : c.decls.length = c.size := rfl
  rw [hsize]
  rcases Nat.lt_trichotomy k c.size with hlt | heq | hgt
  · rw [if_neg (Nat.ne_of_lt hlt), if_pos hlt]
  · simp [heq]
  · have hnone : (c.decls.map Declaration.name)[k]? = none :=
      List.getElem?_eq_none (by simpa [size] using Nat.le_of_lt hgt)
    have hpos : k - c.size ≠ 0 := Nat.sub_ne_zero_of_lt hgt
    rw [if_neg (Nat.ne_of_gt hgt), if_neg (Nat.not_lt_of_gt hgt), hnone]
    rw [List.getElem?_eq_none]
    simpa using Nat.one_le_iff_ne_zero.2 hpos

theorem lookup_eq_none_iff_not_mem {n : QualifiedName} :
    c.lookup n = none ↔ n ∉ c.decls.map Declaration.name := by
  rw [lookup_eq_findIdx?, List.findIdx?_eq_none_iff]
  simp only [decide_eq_false_iff_not]
  constructor
  · intro h hn
    exact h n hn rfl
  · intro h m hm heq
    exact h (heq ▸ hm)

theorem lookup_append {name : QualifiedName} {parent : Option DeclId} {body : Body}
    (hp : ∀ p, parent = some p → p < c.size) (hnew : c.lookup name = none) (n : QualifiedName) :
    (c.append name parent body).lookup n = if n = name then some c.size else c.lookup n := by
  rw [lookup_eq_findIdx?, names_append hp, List.findIdx?_append, ← lookup_eq_findIdx?]
  by_cases hn : n = name
  · rw [hn, hnew, if_pos rfl]
    simp [size]
  · rw [if_neg hn]
    simp [Ne.symm hn]

end Catalogue

namespace Assembly

/-! ### Headings -/

mutual

/-- The headings of a model and of everything nested in it. -/
def headings (path : Path) (scope : QualifiedName) (parent : Option QualifiedName) :
    DeclModel → Except ModelError (List Heading)
  | .interface name super doc methods types => do
    let full ← scopedName path scope name
    let rest ← headingsAll path full (some full) types
    return ⟨path, parent, full, .interface name super doc methods types⟩ :: rest
  | .compound kind name doc fields types => do
    let full ← scopedName path scope name
    let rest ← headingsAll path full (some full) types
    return ⟨path, parent, full, .compound kind name doc fields types⟩ :: rest

def headingsAll (path : Path) (scope : QualifiedName) (parent : Option QualifiedName) :
    List DeclModel → Except ModelError (List Heading)
  | [] => .ok []
  | model :: rest => do
    let first ← headings path scope parent model
    let more ← headingsAll path scope parent rest
    return first ++ more

end

def place (a : Assembly) (h : Heading) : Except ModelError Assembly :=
  a.declareOne h.path (h.parent.bind a.catalogue.lookup) h.name h.model

variable {a a' : Assembly}

theorem declareOne_eq_ok {path : Path} {parent : Option DeclId} {name : QualifiedName}
    {model : DeclModel} : a.declareOne path parent name model = .ok a' ↔
      (name.isType = true ∧ a.catalogue.lookup name = none ∧
        a.catalogue.checkNesting name parent = .ok ()) ∧
      a' = ⟨a.catalogue.append name parent (emptyBody model),
        a.pending ++ [⟨a.catalogue.size, path, model⟩]⟩ := by
  unfold declareOne
  cases hc : a.catalogue.declare name parent (emptyBody model) with
  | error e =>
    simp only [reduceCtorEq, false_iff]
    rintro ⟨⟨htype, hnew, hnesting⟩, _⟩
    rw [Catalogue.declare, htype, hnew, hnesting] at hc
    cases hc
  | ok grown =>
    obtain ⟨htype, hnew, hnesting, rfl⟩ := Catalogue.declare_eq_ok hc
    simp only [Except.ok.injEq, htype, hnew, hnesting, true_and]
    exact eq_comm

theorem lookup_declareOne {path : Path} {parent : Option DeclId} {name : QualifiedName}
    {model : DeclModel} (h : a.declareOne path parent name model = .ok a') (n : QualifiedName) :
    a'.catalogue.lookup n = if n = name then some a.catalogue.size else a.catalogue.lookup n := by
  obtain ⟨⟨_, hnew, hnesting⟩, rfl⟩ := declareOne_eq_ok.1 h
  exact Catalogue.lookup_append (Catalogue.parent_lt_of_checkNesting hnesting) hnew n

theorem lookup_place {h : Heading} (hplace : a.place h = .ok a') {n : QualifiedName} {id : DeclId}
    (hn : a.catalogue.lookup n = some id) : a'.catalogue.lookup n = some id := by
  have hnew : a.catalogue.lookup h.name = none := (declareOne_eq_ok.1 hplace).1.2.1
  have hne : n ≠ h.name := by
    rintro rfl
    rw [hnew] at hn
    cases hn
  rw [lookup_declareOne hplace, if_neg hne, hn]

/-- Whether a name, if there is one, stands for the place that is meant. -/
def Finds (a : Assembly) : Option QualifiedName → Option DeclId → Prop
  | none, id => id = none
  | some n, id => ∃ k, id = some k ∧ a.catalogue.lookup n = some k

theorem Finds.bind_lookup {n : Option QualifiedName} {id : Option DeclId} (h : a.Finds n id) :
    n.bind a.catalogue.lookup = id := by
  cases n with
  | none => exact Eq.symm h
  | some n =>
    obtain ⟨k, rfl, hk⟩ := h
    exact hk

theorem Finds.foldlM {n : Option QualifiedName} {id : Option DeclId} (h : a.Finds n id)
    {hs : List Heading} (hfold : hs.foldlM place a = .ok a') : a'.Finds n id := by
  cases n with
  | none => exact h
  | some n =>
    obtain ⟨k, rfl, hk⟩ := h
    have hkeep : a'.catalogue.lookup n = some k :=
      Outcome.foldlM_induction (P := fun b => b.catalogue.lookup n = some k)
        (fun _ _ _ hb hplace => lookup_place hplace hb) hk hfold
    exact ⟨k, rfl, hkeep⟩

theorem Finds.self {path : Path} {parent : Option DeclId} {name : QualifiedName}
    {model : DeclModel} (h : a.declareOne path parent name model = .ok a') :
    a'.Finds (some name) (some a.catalogue.size) :=
  ⟨_, rfl, by rw [lookup_declareOne h, if_pos rfl]⟩

theorem declareOne_then_eq_ok_iff {path : Path} {scope : QualifiedName} {name : Text}
    {n : Option QualifiedName} {parent : Option DeclId} {model : DeclModel}
    {types : List DeclModel} (hp : a.Finds n parent)
    (htypes : ∀ full grown, a.declareOne path parent full model = .ok grown →
      (grown.declareAll path full (some a.catalogue.size) types = .ok a' ↔
        ∃ hs, headingsAll path full (some full) types = .ok hs ∧ hs.foldlM place grown = .ok a')) :
    (scopedName path scope name >>= fun full =>
      a.declareOne path parent full model >>= fun grown =>
        grown.declareAll path full (some a.catalogue.size) types) = .ok a' ↔
      ∃ hs, (scopedName path scope name >>= fun full =>
        headingsAll path full (some full) types >>= fun rest =>
          .ok (⟨path, n, full, model⟩ :: rest)) = .ok hs ∧ hs.foldlM place a = .ok a' := by
  constructor
  · intro h
    obtain ⟨full, hfull, h⟩ := Outcome.bind_eq_ok.1 h
    obtain ⟨grown, hgrown, h⟩ := Outcome.bind_eq_ok.1 h
    obtain ⟨rest, hrest, hfold⟩ := (htypes full grown hgrown).1 h
    refine ⟨_, Outcome.bind_eq_ok.2 ⟨full, hfull, Outcome.bind_eq_ok.2 ⟨rest, hrest, rfl⟩⟩, ?_⟩
    rw [List.foldlM_cons, place, hp.bind_lookup, hgrown]
    exact hfold
  · rintro ⟨hs, hhs, hfold⟩
    obtain ⟨full, hfull, hhs⟩ := Outcome.bind_eq_ok.1 hhs
    obtain ⟨rest, hrest, hhs⟩ := Outcome.bind_eq_ok.1 hhs
    cases hhs
    rw [List.foldlM_cons, place, hp.bind_lookup] at hfold
    obtain ⟨grown, hgrown, hfold⟩ := Outcome.bind_eq_ok.1 hfold
    exact Outcome.bind_eq_ok.2 ⟨full, hfull, Outcome.bind_eq_ok.2 ⟨grown, hgrown,
      (htypes full grown hgrown).2 ⟨rest, hrest, hfold⟩⟩⟩

mutual

theorem declare_eq_ok_iff {a a' : Assembly} {path : Path} {scope : QualifiedName}
    {n : Option QualifiedName} {parent : Option DeclId} (hp : a.Finds n parent)
    (model : DeclModel) : a.declare path scope parent model = .ok a' ↔
      ∃ hs, headings path scope n model = .ok hs ∧ hs.foldlM place a = .ok a' := by
  cases model with
  | interface name super doc methods types =>
    rw [declare, headings]
    exact declareOne_then_eq_ok_iff hp fun full grown hgrown =>
      declareAll_eq_ok_iff (Finds.self hgrown) types
  | compound kind name doc fields types =>
    rw [declare, headings]
    exact declareOne_then_eq_ok_iff hp fun full grown hgrown =>
      declareAll_eq_ok_iff (Finds.self hgrown) types

theorem declareAll_eq_ok_iff {a a' : Assembly} {path : Path} {scope : QualifiedName}
    {n : Option QualifiedName} {parent : Option DeclId} (hp : a.Finds n parent)
    (models : List DeclModel) : a.declareAll path scope parent models = .ok a' ↔
      ∃ hs, headingsAll path scope n models = .ok hs ∧ hs.foldlM place a = .ok a' := by
  cases models with
  | nil =>
    rw [declareAll, headingsAll]
    simp only [List.foldlM_nil, pure, Except.pure, Except.ok.injEq, exists_eq_left']
  | cons model rest =>
    rw [declareAll, headingsAll]
    constructor
    · intro h
      obtain ⟨grown, hgrown, h⟩ := Outcome.bind_eq_ok.1 h
      obtain ⟨first, hfirst, hfold⟩ := (declare_eq_ok_iff hp model).1 hgrown
      obtain ⟨more, hmore, hfold'⟩ := (declareAll_eq_ok_iff (hp.foldlM hfold) rest).1 h
      refine ⟨first ++ more, Outcome.bind_eq_ok.2 ⟨first, hfirst, Outcome.bind_eq_ok.2
        ⟨more, hmore, rfl⟩⟩, ?_⟩
      rw [List.foldlM_append]
      exact Outcome.bind_eq_ok.2 ⟨grown, hfold, hfold'⟩
    · rintro ⟨hs, hhs, hfold⟩
      obtain ⟨first, hfirst, hhs⟩ := Outcome.bind_eq_ok.1 hhs
      obtain ⟨more, hmore, hhs⟩ := Outcome.bind_eq_ok.1 hhs
      cases hhs
      rw [List.foldlM_append] at hfold
      obtain ⟨grown, hgrown, hfold⟩ := Outcome.bind_eq_ok.1 hfold
      exact Outcome.bind_eq_ok.2 ⟨grown, (declare_eq_ok_iff hp model).2 ⟨first, hfirst, hgrown⟩,
        (declareAll_eq_ok_iff (hp.foldlM hgrown) rest).2 ⟨more, hmore, hfold⟩⟩

end

/-! ### Files -/

/-- The models of files that are nested in nothing, each with its file and the text of its package. -/
def tops (files : List (Path × PackageModel)) : List (Path × Text × DeclModel) :=
  files.flatMap fun file => file.2.declarations.map fun model => (file.1, file.2.package, model)

def block (top : Path × Text × DeclModel) : Except ModelError (List Heading) :=
  match QualifiedName.read top.2.1 with
  | .error cause => .error (.invalidName top.1 top.2.1 cause)
  | .ok package => headings top.1 package none top.2.2

theorem headingsAll_eq_ok_iff {path : Path} {scope : QualifiedName} {n : Option QualifiedName}
    {models : List DeclModel} {hs : List Heading} : headingsAll path scope n models = .ok hs ↔
      ∃ blocks, models.mapM (headings path scope n) = .ok blocks ∧ hs = blocks.flatten := by
  induction models generalizing hs with
  | nil =>
    rw [headingsAll, Outcome.mapM_nil]
    simp [eq_comm]
  | cons model rest ih =>
    rw [headingsAll, Outcome.mapM_cons]
    constructor
    · intro h
      obtain ⟨first, hfirst, h⟩ := Outcome.bind_eq_ok.1 h
      obtain ⟨more, hmore, h⟩ := Outcome.bind_eq_ok.1 h
      cases h
      obtain ⟨blocks, hblocks, rfl⟩ := ih.1 hmore
      exact ⟨first :: blocks, Outcome.bind_eq_ok.2 ⟨first, hfirst, Outcome.bind_eq_ok.2
        ⟨blocks, hblocks, rfl⟩⟩, List.flatten_cons.symm⟩
    · rintro ⟨_, h, rfl⟩
      obtain ⟨first, hfirst, h⟩ := Outcome.bind_eq_ok.1 h
      obtain ⟨blocks, hblocks, h⟩ := Outcome.bind_eq_ok.1 h
      cases h
      exact Outcome.bind_eq_ok.2 ⟨first, hfirst, Outcome.bind_eq_ok.2
        ⟨blocks.flatten, ih.2 ⟨blocks, hblocks, rfl⟩, rfl⟩⟩

theorem declarePackage_eq_ok_iff {file : Path × PackageModel} :
    a.declarePackage file = .ok a' ↔
      (∃ package, QualifiedName.read file.2.package = .ok package) ∧
        ∃ blocks, (tops [file]).mapM block = .ok blocks ∧
          blocks.flatten.foldlM place a = .ok a' := by
  have htops : tops [file] =
      file.2.declarations.map fun model => (file.1, file.2.package, model) :=
    List.flatMap_singleton ..
  rw [declarePackage, htops, List.mapM_map]
  cases hread : QualifiedName.read file.2.package with
  | error cause => simp
  | ok package =>
    have hblock : (block ∘ fun model => (file.1, file.2.package, model)) =
        headings file.1 package none := by
      funext model
      simp only [Function.comp_apply, block, hread]
    have hp : a.Finds none none := rfl
    simp only [Except.ok.injEq, exists_eq', true_and, hblock]
    rw [declareAll_eq_ok_iff hp]
    constructor
    · rintro ⟨hs, hhs, hfold⟩
      obtain ⟨blocks, hblocks, rfl⟩ := headingsAll_eq_ok_iff.1 hhs
      exact ⟨blocks, hblocks, hfold⟩
    · rintro ⟨blocks, hblocks, hfold⟩
      exact ⟨_, headingsAll_eq_ok_iff.2 ⟨blocks, hblocks, rfl⟩, hfold⟩

/-- To declare files is to read their packages and to place the headings of their models. -/
theorem foldlM_declarePackage_eq_ok_iff {files : List (Path × PackageModel)} :
    files.foldlM declarePackage a = .ok a' ↔
      (∀ file ∈ files, ∃ package, QualifiedName.read file.2.package = .ok package) ∧
        ∃ blocks, (tops files).mapM block = .ok blocks ∧
          blocks.flatten.foldlM place a = .ok a' := by
  induction files generalizing a with
  | nil =>
    have htops : (tops []).mapM block = .ok [] := rfl
    simp [htops]
  | cons file rest ih =>
    have htops : tops (file :: rest) = tops [file] ++ tops rest := by
      simp [tops]
    rw [List.foldlM_cons, htops]
    constructor
    · intro h
      obtain ⟨b, hb, h⟩ := Outcome.bind_eq_ok.1 h
      obtain ⟨hread, front, hfront, hfold⟩ := declarePackage_eq_ok_iff.1 hb
      obtain ⟨hreads, back, hback, hfold'⟩ := ih.1 h
      refine ⟨?_, front ++ back, Outcome.mapM_append_eq_ok.2 ⟨front, back, hfront, hback, rfl⟩, ?_⟩
      · intro f hf
        rcases List.mem_cons.1 hf with rfl | hf
        · exact hread
        · exact hreads f hf
      · rw [List.flatten_append, List.foldlM_append]
        exact Outcome.bind_eq_ok.2 ⟨b, hfold, hfold'⟩
    · rintro ⟨hreads, blocks, hblocks, hfold⟩
      obtain ⟨front, back, hfront, hback, rfl⟩ := Outcome.mapM_append_eq_ok.1 hblocks
      rw [List.flatten_append, List.foldlM_append] at hfold
      obtain ⟨b, hb, hfold⟩ := Outcome.bind_eq_ok.1 hfold
      refine Outcome.bind_eq_ok.2 ⟨b, declarePackage_eq_ok_iff.2 ⟨?_, front, hfront, hb⟩,
        ih.2 ⟨?_, back, hback, hfold⟩⟩
      · exact hreads file (List.mem_cons_self ..)
      · exact fun f hf => hreads f (List.mem_cons_of_mem _ hf)

/-! ### Parents -/

/-- Every parent is known when its heading comes: it is known from before or comes earlier. -/
def ParentsFirst : List QualifiedName → List Heading → Prop
  | _, [] => True
  | known, h :: rest => (∀ n, h.parent = some n → n ∈ known) ∧ ParentsFirst (h.name :: known) rest

theorem ParentsFirst.mono {known known' : List QualifiedName} {hs : List Heading}
    (h : ParentsFirst known hs) (hsub : known ⊆ known') : ParentsFirst known' hs := by
  induction hs generalizing known known' with
  | nil => trivial
  | cons k rest ih =>
    exact ⟨fun n hn => hsub (h.1 n hn), ih h.2 (List.cons_subset_cons _ hsub)⟩

theorem parentsFirst_append {known : List QualifiedName} {hs hs' : List Heading} :
    ParentsFirst known (hs ++ hs') ↔
      ParentsFirst known hs ∧ ParentsFirst ((hs.map Heading.name).reverse ++ known) hs' := by
  induction hs generalizing known with
  | nil => simp [ParentsFirst]
  | cons k rest ih => simp [ParentsFirst, ih, and_assoc]

theorem ParentsFirst.mem {known : List QualifiedName} {hs : List Heading}
    (h : ParentsFirst known hs) {k : Heading} (hk : k ∈ hs) {n : QualifiedName}
    (hn : k.parent = some n) : n ∈ hs.map Heading.name ∨ n ∈ known := by
  induction hs generalizing known with
  | nil => cases hk
  | cons j rest ih =>
    rcases List.mem_cons.1 hk with rfl | hk
    · exact Or.inr (h.1 n hn)
    · rcases ih h.2 hk with hmem | hmem
      · exact Or.inl (List.mem_cons_of_mem _ hmem)
      · rcases List.mem_cons.1 hmem with rfl | hmem
        · exact Or.inl (List.mem_cons_self ..)
        · exact Or.inr hmem

mutual

theorem parentsFirst_headings {path : Path} {scope : QualifiedName} {n : Option QualifiedName}
    {known : List QualifiedName} (hn : ∀ m, n = some m → m ∈ known) (model : DeclModel)
    {hs : List Heading} (h : headings path scope n model = .ok hs) : ParentsFirst known hs := by
  cases model with
  | interface name super doc methods types =>
    rw [headings] at h
    obtain ⟨full, _, h⟩ := Outcome.bind_eq_ok.1 h
    obtain ⟨rest, hrest, h⟩ := Outcome.bind_eq_ok.1 h
    cases h
    exact ⟨hn, parentsFirst_headingsAll (fun m hm => by simp_all) types hrest⟩
  | compound kind name doc fields types =>
    rw [headings] at h
    obtain ⟨full, _, h⟩ := Outcome.bind_eq_ok.1 h
    obtain ⟨rest, hrest, h⟩ := Outcome.bind_eq_ok.1 h
    cases h
    exact ⟨hn, parentsFirst_headingsAll (fun m hm => by simp_all) types hrest⟩

theorem parentsFirst_headingsAll {path : Path} {scope : QualifiedName} {n : Option QualifiedName}
    {known : List QualifiedName} (hn : ∀ m, n = some m → m ∈ known) (models : List DeclModel)
    {hs : List Heading} (h : headingsAll path scope n models = .ok hs) : ParentsFirst known hs := by
  cases models with
  | nil =>
    rw [headingsAll] at h
    cases h
    trivial
  | cons model rest =>
    rw [headingsAll] at h
    obtain ⟨first, hfirst, h⟩ := Outcome.bind_eq_ok.1 h
    obtain ⟨more, hmore, h⟩ := Outcome.bind_eq_ok.1 h
    cases h
    have hmore' := parentsFirst_headingsAll hn rest hmore
    exact parentsFirst_append.2 ⟨parentsFirst_headings hn model hfirst,
      hmore'.mono (List.subset_append_right ..)⟩

end

theorem parentsFirst_block {top : Path × Text × DeclModel} {hs : List Heading}
    (h : block top = .ok hs) : ParentsFirst [] hs := by
  unfold block at h
  split at h
  · cases h
  · exact parentsFirst_headings (fun m hm => by cases hm) _ h

theorem parentsFirst_flatten {blocks : List (List Heading)}
    (h : ∀ hs ∈ blocks, ParentsFirst [] hs) : ParentsFirst [] blocks.flatten := by
  induction blocks with
  | nil => trivial
  | cons hs rest ih =>
    rw [List.flatten_cons]
    have hrest := ih fun k hk => h k (List.mem_cons_of_mem _ hk)
    exact parentsFirst_append.2 ⟨h hs (List.mem_cons_self ..), hrest.mono (List.nil_subset _)⟩

end Assembly

end FlatAidl
