import FlatAidl.Proofs.Catalogue.Chain
import FlatAidl.Proofs.Catalogue.Nesting
import FlatAidl.Proofs.FileTree.Writing
import FlatAidl.Proofs.Run.InOrder

/-!
The files of a run whose targets are translated side by side. Main statement: what a store holds
when all workers are through, and when that is the same for every schedule. The program's own run
is one of the schedules, and the directory that it writes to is one of the stores.
-/

namespace FlatAidl

namespace Catalogue

/-- The declarations that the translation of targets emits. -/
def Emitted (c : Catalogue) (targets : List DeclId) (id : DeclId) : Prop :=
  ∃ target ∈ targets, c.Within target id

variable {c : Catalogue}

theorem pending_start {σ : Type} (hn : Nested c) (hsize : 0 < c.size) (s : σ)
    {targets : List DeclId} {id : DeclId} :
    Team.Pending (Team.start c s targets).workers id ↔ c.Emitted targets id := by
  constructor
  · rintro ⟨w, hw, hid⟩
    obtain ⟨target, htarget, rfl⟩ := List.mem_map.1 hw
    exact ⟨target, htarget, (hn.mem_emissionOrder hsize).1 hid⟩
  · rintro ⟨target, htarget, hwithin⟩
    exact ⟨_, List.mem_map_of_mem htarget, (hn.mem_emissionOrder hsize).2 hwithin⟩

/-- No two declarations of a run put different contents under one key. -/
def Unambiguous (c : Catalogue) (o : Options) {σ : Type} (st : Store σ) (s : σ)
    (targets : List DeclId) : Prop :=
  ∀ id id' r r', c.Emitted targets id → c.Emitted targets id' → c.render o id = .ok r →
    c.render o id' = .ok r' → st.key s r.path = st.key s r'.path →
      st.content r.text = st.content r'.text

/-- The text of every declaration of a run is held where the declaration's path leads. -/
def HoldsAll (c : Catalogue) (o : Options) {σ : Type} (st : Store σ) (s : σ)
    (targets : List DeclId) (held : st.Key → Option st.Content) : Prop :=
  ∀ id r, c.Emitted targets id → c.render o id = .ok r →
    held (st.key s r.path) = some (st.content r.text)

section

variable {o : Options} {σ : Type} {st : Store σ} {s : σ} {targets : List DeclId}
  {emitted : List DeclId} {held : st.Key → Option st.Content}

theorem exists_held (hemitted : ∀ id, id ∈ emitted ↔ c.Emitted targets id)
    (hholds : Team.Holds c o st s emitted held) {id : DeclId} {r : Rendering}
    (hid : c.Emitted targets id) (hr : c.render o id = .ok r) :
    ∃ id' r', c.Emitted targets id' ∧ c.render o id' = .ok r' ∧
      st.key s r'.path = st.key s r.path ∧
        held (st.key s r.path) = some (st.content r'.text) := by
  rcases hholds (st.key s r.path) with ⟨_, hnone⟩ | ⟨id', hid', r', hr', hkey, hheld⟩
  · exact absurd rfl (hnone id ((hemitted id).2 hid) r hr)
  · exact ⟨id', r', (hemitted id').1 hid', hr', hkey, hheld⟩

theorem holdsAll_iff_unambiguous (hemitted : ∀ id, id ∈ emitted ↔ c.Emitted targets id)
    (hholds : Team.Holds c o st s emitted held) :
    c.HoldsAll o st s targets held ↔ c.Unambiguous o st s targets := by
  constructor
  · intro hall id id' r r' hid hid' hr hr' hkey
    have hfirst := hall id r hid hr
    have hsecond := hall id' r' hid' hr'
    rw [hkey, hsecond] at hfirst
    exact (Option.some.inj hfirst).symm
  · intro hunambiguous id r hid hr
    obtain ⟨id', r', hid', hr', hkey, hheld⟩ := exists_held hemitted hholds hid hr
    rw [hheld, hunambiguous id' id r' r hid' hid hr' hr hkey]

theorem held_of_no_key (hemitted : ∀ id, id ∈ emitted ↔ c.Emitted targets id)
    (hholds : Team.Holds c o st s emitted held) {k : st.Key}
    (hk : ∀ id r, c.Emitted targets id → c.render o id = .ok r → st.key s r.path ≠ k) :
    held k = st.held s k := by
  rcases hholds k with ⟨hbefore, _⟩ | ⟨id, hid, r, hr, hkey, _⟩
  · exact hbefore
  · exact absurd hkey (hk id r ((hemitted id).1 hid) hr)

/-- What an unambiguous run leaves behind is determined by the declarations that it emits. -/
theorem held_unique (hunambiguous : c.Unambiguous o st s targets) {emitted' : List DeclId}
    {held' : st.Key → Option st.Content} (hemitted : ∀ id, id ∈ emitted ↔ c.Emitted targets id)
    (hholds : Team.Holds c o st s emitted held)
    (hemitted' : ∀ id, id ∈ emitted' ↔ c.Emitted targets id)
    (hholds' : Team.Holds c o st s emitted' held') : held' = held := by
  funext k
  rcases hholds k with ⟨hbefore, hnone⟩ | ⟨id, hid, r, hr, hkey, hheld⟩
  · rw [hbefore]
    exact held_of_no_key hemitted' hholds' fun id r hid hr => hnone id ((hemitted id).2 hid) r hr
  · rw [hheld, ← hkey]
    exact (holdsAll_iff_unambiguous hemitted' hholds').2 hunambiguous id r ((hemitted id).1 hid) hr

end

theorem account_of_done {ops : List Operation} {o : Options} {σ : Type} {st : Store σ} {s : σ}
    {targets : List DeclId} {schedule : List Nat}
    (h : ((Team.start (build ops) s targets).play (build ops) o st.toOutput schedule).Done) :
    ∃ emitted, (∀ id, id ∈ emitted ↔ (build ops).Emitted targets id) ∧
      (∀ id ∈ emitted, ∃ r, (build ops).render o id = .ok r) ∧
        Team.Holds (build ops) o st s emitted (st.held
          ((Team.start (build ops) s targets).play (build ops) o st.toOutput schedule).output) := by
  have hbuilt := built_build ops
  have hsize : 0 < (build ops).size :=
    Nat.zero_lt_of_lt (lt_size_of_isInterface hbuilt.rooted.base_isInterface)
  obtain ⟨emitted, hpending, hrendered, hholds⟩ := h.account
  exact ⟨emitted, fun id => (hpending id).trans (pending_start hbuilt.nested hsize s), hrendered,
    hholds⟩

/-- When all workers are through, whatever the order of their turns was: each declaration that
targets stand for is rendered, and where its name's path leads the store holds the text of an
emitted declaration whose path leads there too; nothing else has changed. It is the declaration's
own text for all of them exactly if no two emitted declarations have different texts in one place,
and then every other order leaves the same files. -/
theorem done_holds {ops : List Operation} {c : Catalogue} (h : (build ops).finish = .ok c)
    (o : Options) {σ : Type} (st : Store σ) (s : σ) {targets : List DeclId} {schedule : List Nat}
    (hdone : ((Team.start c s targets).play c o st.toOutput schedule).Done) :
    let held := st.held ((Team.start c s targets).play c o st.toOutput schedule).output
    (∀ id, c.Emitted targets id → ∃ d r, c.get? id = some d ∧ c.render o id = .ok r ∧
      r.path = d.name.path ∧ ∃ id' r', c.Emitted targets id' ∧ c.render o id' = .ok r' ∧
        st.key s r'.path = st.key s r.path ∧
          held (st.key s r.path) = some (st.content r'.text)) ∧
      (∀ k, (∀ id r, c.Emitted targets id → c.render o id = .ok r → st.key s r.path ≠ k) →
        held k = st.held s k) ∧
      (c.HoldsAll o st s targets held ↔ c.Unambiguous o st s targets) ∧
      (c.Unambiguous o st s targets → ∀ schedule',
        ((Team.start c s targets).play c o st.toOutput schedule').Done →
          st.held ((Team.start c s targets).play c o st.toOutput schedule').output = held) := by
  obtain ⟨rfl, _⟩ := finish_eq_ok_iff.1 h
  obtain ⟨emitted, hemitted, hrendered, hholds⟩ := account_of_done hdone
  refine ⟨?_, ?_, holdsAll_iff_unambiguous hemitted hholds, ?_⟩
  · intro id hid
    obtain ⟨r, hr⟩ := hrendered id ((hemitted id).2 hid)
    obtain ⟨d, hd, _, hpath⟩ := name_of_render hr
    exact ⟨d, r, hd, hr, hpath, exists_held hemitted hholds hid hr⟩
  · intro k hk
    exact held_of_no_key hemitted hholds hk
  · intro hunambiguous schedule' hdone'
    obtain ⟨emitted', hemitted', _, hholds'⟩ := account_of_done hdone'
    exact held_unique hunambiguous hemitted hholds hemitted' hholds'

/-- An interface with a type nested in it, and another interface of the same package. -/
def siblingOps : List Operation :=
  let package := Text.ofString "hw.foo"
  let foo := Text.ofString "IFoo"
  [.declareInterface ⟨package, ⟨1, 0⟩, [foo]⟩ none,
    .declareCompound .struct ⟨package, ⟨1, 0⟩, [foo, Text.ofString "Mode"]⟩ (some 1),
    .declareInterface ⟨package, ⟨1, 0⟩, [Text.ofString "IBar"]⟩ none]

theorem emitted_siblings_iff {id : DeclId} :
    (build siblingOps).Emitted [1, 3] id ↔ id ∈ [1, 2, 3] := by
  have hnested := (built_build siblingOps).nested
  have hsize : 0 < (build siblingOps).size := by decide
  have hfoo : (build siblingOps).emissionOrder 1 = [2, 1] := by decide
  have hbar : (build siblingOps).emissionOrder 3 = [3] := by decide
  simp only [Emitted, ← hnested.mem_emissionOrder hsize, List.mem_cons, List.not_mem_nil, or_false,
    or_and_right, exists_or, exists_eq_left, hfoo, hbar]
  rw [@or_comm (id = 2), or_assoc]

/-- The three declarations have files of their own. -/
theorem unambiguous_siblings : (build siblingOps).Unambiguous Options.standard
    (FileMap.store fun _ => none) FileMap.empty [1, 3] := by
  intro id id' r r' hid hid' hr hr' hkey
  have hpaths : ∀ k ∈ [1, 2, 3], ∀ k' ∈ [1, 2, 3],
      ((build siblingOps).render Options.standard k).map (fun r => r.path.components) =
        ((build siblingOps).render Options.standard k').map (fun r => r.path.components) →
          k = k' := by
    decide +kernel
  have hsame := hpaths id (emitted_siblings_iff.1 hid) id' (emitted_siblings_iff.1 hid') (by
    rw [hr, hr']
    exact congrArg Except.ok hkey)
  rw [← hsame, hr] at hr'
  rw [Except.ok.inj hr']

theorem siblings_done_holds :
    (build siblingOps).finish = .ok (build siblingOps) ∧
      let st := FileMap.store fun _ => none
      let team := (Team.start (build siblingOps) FileMap.empty [1, 3]).play (build siblingOps)
        Options.standard st.toOutput [0, 1, 0]
      team.Done ∧
        ((build siblingOps).HoldsAll Options.standard st FileMap.empty [1, 3]
          (st.held team.output) ↔
            (build siblingOps).Unambiguous Options.standard st FileMap.empty [1, 3]) ∧
        ∀ id ∈ [1, 2, 3], ∃ r, (build siblingOps).render Options.standard id = .ok r ∧
          team.output.textAt r.path.components = some r.text := by
  have hfinish : (build siblingOps).finish = .ok (build siblingOps) := by decide
  have hdone : ((Team.start (build siblingOps) FileMap.empty [1, 3]).play (build siblingOps)
      Options.standard (FileMap.store fun _ => none).toOutput [0, 1, 0]).Done :=
    by decide +kernel
  obtain ⟨hfiles, _, hiff, _⟩ :=
    done_holds hfinish Options.standard (FileMap.store fun _ => none) FileMap.empty hdone
  refine ⟨hfinish, hdone, hiff, fun id hid => ?_⟩
  have hemitted := emitted_siblings_iff.2 hid
  obtain ⟨_, r, _, hr, _⟩ := hfiles id hemitted
  exact ⟨r, hr, hiff.2 unambiguous_siblings id r hemitted hr⟩

/-! ### Two declarations of one path -/

/-- Two minor versions of an interface, the newer one inheriting from the older one. -/
def minorOps : List Operation :=
  let package := Text.ofString "hw.foo"
  [.declareInterface ⟨package, ⟨1, 0⟩, [Text.ofString "IFoo"]⟩ none,
    .declareInterface ⟨package, ⟨1, 1⟩, [Text.ofString "IFoo"]⟩ none, .setSuper 2 1]

/-- What two workers leave in memory, one for each version. -/
def minorTeam (schedule : List Nat) : Team FileMap :=
  (Team.start (build minorOps) FileMap.empty [1, 2]).play (build minorOps) Options.standard
    (FileMap.store fun _ => none).toOutput schedule

/-- Minor versions share a path, so the second worker replaces the file of the first one, and the
files depend on which of them that is. -/
theorem minor_versions_replaced :
    (build minorOps).finish = .ok (build minorOps) ∧
      (build minorOps).expandTargets
        [Text.ofString "hw.foo@1.0::IFoo", Text.ofString "hw.foo@1.1::IFoo"] = .ok [1, 2] ∧
      (minorTeam [0, 1]).Done ∧ (minorTeam [1, 0]).Done ∧
        ¬ (build minorOps).HoldsAll Options.standard (FileMap.store fun _ => none) FileMap.empty
          [1, 2] (minorTeam [0, 1]).output.textAt ∧
        (minorTeam [0, 1]).output ≠ (minorTeam [1, 0]).output := by
  refine ⟨by decide, by decide +kernel, by decide +kernel, by decide +kernel, ?_, by decide +kernel⟩
  intro hall
  have hlost : ((build minorOps).render Options.standard 1).toOption.map
      (fun r => decide ((minorTeam [0, 1]).output.textAt r.path.components = some r.text)) =
        some false := by decide +kernel
  cases hr : (build minorOps).render Options.standard 1 with
  | error f =>
    rw [hr] at hlost
    cases hlost
  | ok r =>
    have hheld := hall 1 r ⟨1, List.mem_cons_self .., .refl⟩ hr
    rw [hr] at hlost
    have hne : decide ((minorTeam [0, 1]).output.textAt r.path.components = some r.text) = false :=
      Option.some.inj hlost
    exact of_decide_eq_false hne hheld

/-! ### The program's run -/

/-- If every target of the program's run is granted, the files below its directory are those of the
declarations exactly if no two of them have different texts in one place. -/
theorem holdsAll_translateAll {ops : List Operation} {c : Catalogue}
    (h : (build ops).finish = .ok c) {o : Options} {root : Path} {t : FileTree}
    {targets : List DeclId}
    (hok : ∀ r ∈ (Run.translateAll c o root t targets).2, r.isOk = true) :
    c.HoldsAll o (FileTree.store root) t targets
        (Run.translateAll c o root t targets).1.contentAt ↔
      c.Unambiguous o (FileTree.store root) t targets := by
  obtain ⟨rfl, _⟩ := finish_eq_ok_iff.1 h
  obtain ⟨hthrough, houtput⟩ := Team.done_inOrder hok
  have hdone : ((Team.start (build ops) t targets).play (build ops) o
      (FileTree.store root).toOutput (Team.inOrder (build ops) 0 targets)).Done := hthrough
  obtain ⟨emitted, hemitted, _, hholds⟩ := account_of_done hdone
  rw [← houtput]
  exact holdsAll_iff_unambiguous hemitted hholds

end Catalogue

end FlatAidl
