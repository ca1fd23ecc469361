import FlatAidl.Proofs.Package.Members
import FlatAidl.Proofs.Package.Outline

/-!
The same headings in another order. The catalogues of declared models then hold the same
declarations at other places, and each declaration gets the same members, renumbered.
-/

namespace FlatAidl

namespace Assembly

/-! ### Headings in blocks -/

theorem inside_flatten_perm {blocks blocks' : List (List Heading)} {n : QualifiedName}
    (hperm : blocks.Perm blocks')
    (hone : blocks.Pairwise fun b b' => inside b n = [] ∨ inside b' n = []) :
    inside blocks.flatten n = inside blocks'.flatten n := by
  have happend : ∀ hs hs' : List Heading, inside (hs ++ hs') n = inside hs n ++ inside hs' n :=
    fun hs hs' => List.filter_append ..
  induction hperm with
  | nil => rfl
  | cons b _ ih =>
    rw [List.flatten_cons, List.flatten_cons, happend, happend, ih (List.pairwise_cons.1 hone).2]
  | swap b b' rest =>
    have htwo := (List.pairwise_cons.1 hone).1 b (List.mem_cons_self ..)
    simp only [List.flatten_cons, happend]
    rcases htwo with hnil | hnil
    · simp [hnil]
    · simp [hnil]
  | trans hfirst _ ih ih' =>
    exact (ih hone).trans (ih' ((hfirst.pairwise_iff Or.symm).1 hone))

theorem mem_of_inside {hs : List Heading} (hp : ParentsFirst [] hs) {n : QualifiedName}
    (hn : inside hs n ≠ []) : n ∈ hs.map Heading.name := by
  obtain ⟨k, hk⟩ := List.exists_mem_of_ne_nil _ hn
  obtain ⟨hk, hparent⟩ := List.mem_filter.1 hk
  exact hp.closed k hk n (of_decide_eq_true hparent)

/-- What is directly inside a declaration comes from one block, so the order of blocks does not
matter to it. -/
theorem inside_flatten_of_nodup {blocks blocks' : List (List Heading)} (hperm : blocks.Perm blocks')
    (hparents : ∀ hs ∈ blocks, ParentsFirst [] hs)
    (hnodup : (blocks.flatten.map Heading.name).Nodup) (n : QualifiedName) :
    inside blocks.flatten n = inside blocks'.flatten n := by
  refine inside_flatten_perm hperm ?_
  rw [List.map_flatten, List.nodup_flatten, List.pairwise_map] at hnodup
  -- Of two blocks only one can hold the parent, and a heading is in the block of its parent.
  refine hnodup.2.imp_of_mem ?_
  intro b b' hb hb' hdisjoint
  by_contra hboth
  rw [not_or] at hboth
  exact hdisjoint (mem_of_inside (hparents b hb) hboth.1) (mem_of_inside (hparents b' hb') hboth.2)

/-! ### Places -/

namespace Outlined

variable {hs hs' : List Heading} {a a' : Assembly}

theorem distinctNames (ho : Outlined hs a) : Catalogue.DistinctNames a.catalogue := by
  intro i j n hi hj
  rw [Catalogue.name?_eq_getElem?, ho.names] at hi hj
  have hlt : i < (QualifiedName.base :: hs.map Heading.name).length :=
    (List.getElem?_eq_some_iff.1 hi).1
  exact (List.getElem?_inj hlt ho.nodup).1 (hi.trans hj.symm)

theorem size_eq (ho : Outlined hs a) : a.catalogue.size = hs.length + 1 := by
  have hlength := congrArg List.length ho.names
  simpa [Catalogue.size] using hlength

theorem lookup_base (ho : Outlined hs a) :
    a.catalogue.lookup QualifiedName.base = some Catalogue.base :=
  ho.distinctNames.lookup_eq_some_iff.2 (Catalogue.name?_of_get? ho.base)

theorem mem_names_of_lookup (ho : Outlined hs a) {n : QualifiedName} {id : DeclId}
    (h : a.catalogue.lookup n = some id) : n ∈ QualifiedName.base :: hs.map Heading.name := by
  by_contra hn
  rw [ho.lookup_eq_none_iff.2 hn] at h
  cases h

theorem get?_cases (ho : Outlined hs a) {id : DeclId} {d : Declaration}
    (hd : a.catalogue.get? id = some d) :
    (id = Catalogue.base ∧ d = Catalogue.baseDeclaration) ∨
      ∃ h ∈ hs, a.catalogue.lookup h.name = some id ∧ d = outline a.catalogue hs h := by
  have hname := Catalogue.name?_of_get? hd
  have hlookup := ho.distinctNames.lookup_eq_some_iff.2 hname
  rcases List.mem_cons.1 (ho.mem_names_of_lookup hlookup) with hbase | hmem
  · rw [hbase, ho.lookup_base] at hlookup
    cases hlookup
    rw [ho.base] at hd
    exact Or.inl ⟨rfl, (Option.some.inj hd).symm⟩
  · obtain ⟨h, hh, heq⟩ := List.mem_map.1 hmem
    rw [← heq] at hlookup
    rw [ho.get h hh id hlookup] at hd
    exact Or.inr ⟨h, hh, hlookup, (Option.some.inj hd).symm⟩

end Outlined

/-- The place in another catalogue of the name at a place. -/
def relocate (c c' : Catalogue) (id : DeclId) : DeclId :=
  ((c.name? id).bind c'.lookup).getD Catalogue.base

section

variable {hs hs' : List Heading} {a a' : Assembly} (ho : Outlined hs a) (ho' : Outlined hs' a')
  (hperm : hs.Perm hs')
include ho ho' hperm

theorem lookup_relocate (n : QualifiedName) :
    a'.catalogue.lookup n = (a.catalogue.lookup n).map (relocate a.catalogue a'.catalogue) := by
  have hnames : n ∈ QualifiedName.base :: hs.map Heading.name ↔
      n ∈ QualifiedName.base :: hs'.map Heading.name := by
    rw [List.mem_cons, List.mem_cons, (hperm.map Heading.name).mem_iff]
  cases hid : a.catalogue.lookup n with
  | none =>
    rw [ho.lookup_eq_none_iff, hnames] at hid
    rw [ho'.lookup_eq_none_iff.2 hid]
    rfl
  | some id =>
    have hmem := hnames.1 (ho.mem_names_of_lookup hid)
    cases hid' : a'.catalogue.lookup n with
    | none => exact absurd hmem (ho'.lookup_eq_none_iff.1 hid')
    | some id' => simp [relocate, Catalogue.name?_of_lookup hid, hid']

theorem relocate_base : relocate a.catalogue a'.catalogue Catalogue.base = Catalogue.base := by
  have hbase := lookup_relocate ho ho' hperm QualifiedName.base
  rw [ho.lookup_base, ho'.lookup_base, Option.map_some] at hbase
  exact (Option.some.inj hbase).symm

theorem outline_relocate (hinside : ∀ n, inside hs n = inside hs' n) (h : Heading) :
    outline a'.catalogue hs' h =
      (outline a.catalogue hs h).renumber (relocate a.catalogue a'.catalogue) := by
  have hlookup := lookup_relocate ho ho' hperm
  have hbody : (emptyBody h.model).renumber (relocate a.catalogue a'.catalogue) =
      emptyBody h.model := by
    cases h.model with
    | interface name super doc methods types =>
      simp [emptyBody, Body.renumber, relocate_base ho ho' hperm]
    | compound kind name doc fields types => rfl
  have hnested : ((inside hs h.name).filterMap fun k => a'.catalogue.lookup k.name) =
      ((inside hs h.name).filterMap fun k => a.catalogue.lookup k.name).map
        (relocate a.catalogue a'.catalogue) := by
    rw [List.map_filterMap]
    exact List.filterMap_congr fun k _ => hlookup k.name
  have hparent : h.parent.bind a'.catalogue.lookup =
      (h.parent.bind a.catalogue.lookup).map (relocate a.catalogue a'.catalogue) := by
    cases h.parent with
    | none => rfl
    | some n => exact hlookup n
  simp only [outline, Declaration.renumber, ← hinside, hnested, hparent, hbody]

/-- Headings in another order give the same declarations at other places. -/
theorem renumbering_relocate (hinside : ∀ n, inside hs n = inside hs' n) :
    Catalogue.Renumbering (relocate a.catalogue a'.catalogue) a.catalogue a'.catalogue := by
  have hget : ∀ id d, a.catalogue.get? id = some d →
      a'.catalogue.get? (relocate a.catalogue a'.catalogue id) =
        some (d.renumber (relocate a.catalogue a'.catalogue)) := by
    intro id d hd
    rcases ho.get?_cases hd with ⟨rfl, rfl⟩ | ⟨h, hh, hid, rfl⟩
    · rw [relocate_base ho ho' hperm]
      exact ho'.base
    · have hid' := lookup_relocate ho ho' hperm h.name
      rw [hid, Option.map_some] at hid'
      rw [ho'.get h (hperm.mem_iff.1 hh) _ hid', outline_relocate ho ho' hperm hinside]
  refine ⟨?_, relocate_base ho ho' hperm, hget, ?_⟩
  · rw [ho.size_eq, ho'.size_eq, hperm.length_eq]
  · intro i j hi hj hsame
    obtain ⟨d, hd⟩ := Catalogue.exists_get? hi
    obtain ⟨e, he⟩ := Catalogue.exists_get? hj
    have hd' := hget i d hd
    rw [hsame, hget j e he] at hd'
    have hname : (e.renumber (relocate a.catalogue a'.catalogue)).name =
        (d.renumber (relocate a.catalogue a'.catalogue)).name :=
      congrArg Declaration.name (Option.some.inj hd')
    refine ho.distinctNames i j d.name (Catalogue.name?_of_get? hd) ?_
    exact (Catalogue.name?_of_get? he).trans (congrArg some hname)

end

/-! ### Waiting models -/

theorem mem_pendingOf {c : Catalogue} {hs : List Heading} {p : PendingModel} :
    p ∈ pendingOf c hs ↔
      ∃ h ∈ hs, c.lookup h.name = some p.id ∧ p = ⟨p.id, h.path, h.model⟩ := by
  simp only [pendingOf, List.mem_filterMap, Option.map_eq_some_iff]
  constructor
  · rintro ⟨h, hh, id, hid, rfl⟩
    exact ⟨h, hh, hid, rfl⟩
  · rintro ⟨h, hh, hid, hp⟩
    exact ⟨h, hh, p.id, hid, hp.symm⟩

theorem Outlined.awaits {hs : List Heading} {a : Assembly} (ho : Outlined hs a) :
    Catalogue.Awaits a.catalogue a.pending := by
  have hdeclared : ∀ p ∈ a.pending, ∃ h ∈ hs, a.catalogue.lookup h.name = some p.id ∧
      p = ⟨p.id, h.path, h.model⟩ := by
    intro p hp
    rw [ho.pending] at hp
    exact mem_pendingOf.1 hp
  refine ⟨?_, ?_, ?_⟩
  · have hids : a.pending.map PendingModel.id =
        (hs.map Heading.name).filterMap a.catalogue.lookup := by
      rw [ho.pending, pendingOf, List.map_filterMap, List.filterMap_map]
      refine List.filterMap_congr fun h _ => ?_
      cases hl : a.catalogue.lookup h.name with
      | none => simp [hl]
      | some id => simp [hl]
    rw [hids]
    refine (List.nodup_cons.1 ho.nodup).2.filterMap ?_
    intro n m id hn hm
    have hsame := Catalogue.name?_of_lookup hn
    rw [Catalogue.name?_of_lookup hm] at hsame
    exact (Option.some.inj hsame).symm
  · intro p hp hbase
    obtain ⟨h, hh, hid, _⟩ := hdeclared p hp
    have hname := Catalogue.name?_of_lookup hid
    rw [hbase, Catalogue.name?_of_get? ho.base] at hname
    have hmem : h.name ∈ hs.map Heading.name := List.mem_map_of_mem hh
    rw [← Option.some.inj hname] at hmem
    exact (List.nodup_cons.1 ho.nodup).1 hmem
  · intro p hp
    obtain ⟨h, hh, hid, hmodel⟩ := hdeclared p hp
    refine ⟨_, ho.get h hh p.id hid, ?_⟩
    rw [hmodel]
    rfl

end Assembly

namespace Catalogue

variable {π : DeclId → DeclId} {c c' : Catalogue}

/-! ### Members -/

theorem Renumbering.isInterface (h : Renumbering π c c') {id : DeclId}
    (hid : c.isInterface id = true) : c'.isInterface (π id) = true := by
  obtain ⟨d, hd⟩ := exists_get? (lt_size_of_isInterface hid)
  rw [isInterface_of_get? hd] at hid
  rw [isInterface_of_get? (h.get id d hd)]
  cases hb : d.body with
  | interface members => simp [Declaration.isInterface, Declaration.renumber, hb, Body.renumber]
  | compound members => simp [Declaration.isInterface, hb] at hid

theorem commented_renumber (p : PendingModel) (d : Declaration) :
    commented { p with id := π p.id } (d.renumber π) = (commented p d).renumber π := by
  unfold commented
  dsimp only
  split <;> rfl

theorem Allows.renumber (h : Renumbering π c c') (hlookup : ∀ n, c'.lookup n = (c.lookup n).map π)
    {path : Path} {scope : QualifiedName} {id : DeclId} (hid : id < c.size) {super : Option Text}
    {target : DeclId} (hallows : c.Allows path scope id super target) :
    c'.Allows path scope (π id) super (π target) := by
  cases super with
  | none =>
    have hbase : target = base := hallows
    rw [hbase, h.base]
    rfl
  | some name =>
    obtain ⟨hresolve, hother, hkind⟩ := hallows
    refine ⟨?_, ?_, h.isInterface hkind⟩
    · rw [resolveName_renumber hlookup, hresolve]
      rfl
    · exact fun heq => hother (h.injective id target hid (lt_size_of_isInterface hkind) heq)

theorem Fills.renumber (h : Renumbering π c c') (hlookup : ∀ n, c'.lookup n = (c.lookup n).map π)
    {p : PendingModel} (hid : p.id < c.size) {d filled : Declaration} (hfills : c.Fills p d filled) :
    c'.Fills { p with id := π p.id } (d.renumber π) (filled.renumber π) := by
  unfold Fills at hfills ⊢
  rw [commented_renumber]
  dsimp only
  split at hfills
  · obtain ⟨target, new, hallows, hnew, rfl⟩ := hfills
    have hmethods := Outcome.mapM_map id (Method.renumber π)
      (fun _ _ _ hm => resolveMethod_renumber hlookup hm) hnew
    rw [List.map_id] at hmethods
    exact ⟨π target, _, hallows.renumber h hlookup hid, hmethods, rfl⟩
  · obtain ⟨new, hnew, rfl⟩ := hfills
    have hfields := Outcome.mapM_map id (Field.renumber π)
      (fun _ _ _ hf => resolveField_renumber hlookup hf) hnew
    rw [List.map_id] at hfields
    exact ⟨_, hfields, rfl⟩

end Catalogue

end FlatAidl
