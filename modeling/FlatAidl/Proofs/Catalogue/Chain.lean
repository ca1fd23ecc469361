import FlatAidl.Proofs.Catalogue.Rooted
import Mathlib.Data.Finset.Card
import Mathlib.Data.List.Chain
import Mathlib.Logic.Relation

/-!
Chains of inheritance. A walk along what interfaces extend that makes as many steps as there are
declarations comes to some interface twice, so both the search for cycles and the walk along a chain
stop in time. Main statement: a catalogue is finished exactly if no interface inherits from itself,
and then each chain goes from its interface to the base interface without a repetition.
-/

namespace FlatAidl

namespace Catalogue

variable {c : Catalogue}

/-- The interface that a number of steps of inheritance lead to. -/
def ancestor? (c : Catalogue) : Nat → DeclId → Option DeclId
  | 0, id => some id
  | n + 1, id => (c.super? id).bind (c.ancestor? n)

/-- Whether an interface extends another one directly. -/
def Extends (c : Catalogue) (id super : DeclId) : Prop :=
  c.super? id = some super

/-- Whether one or more steps of inheritance lead from an interface to another one. -/
def InheritsFrom (c : Catalogue) : DeclId → DeclId → Prop :=
  Relation.TransGen c.Extends

/-! ### Ancestors -/

theorem ancestor?_add (m n : Nat) (id : DeclId) :
    c.ancestor? (m + n) id = (c.ancestor? m id).bind (c.ancestor? n) := by
  induction m generalizing id with
  | zero => rw [Nat.zero_add, ancestor?, Option.bind_some]
  | succ m ih =>
    rw [Nat.succ_add, ancestor?, ancestor?, Option.bind_assoc]
    congr 1
    funext k
    exact ih k

theorem inheritsFrom_of_ancestor? {n : Nat} {id k : DeclId}
    (h : c.ancestor? (n + 1) id = some k) : c.InheritsFrom id k := by
  induction n generalizing id with
  | zero =>
    obtain ⟨s, hs, hk⟩ := Option.bind_eq_some_iff.1 h
    cases hk
    exact .single hs
  | succ n ih =>
    obtain ⟨s, hs, hk⟩ := Option.bind_eq_some_iff.1 h
    exact .head hs (ih hk)

theorem reaches_of_ancestor? {n : Nat} {id k : DeclId} (h : c.ancestor? n id = some k) :
    Relation.ReflTransGen c.Extends id k := by
  cases n with
  | zero =>
    cases h
    exact .refl
  | succ n => exact (inheritsFrom_of_ancestor? h).to_reflTransGen

/-- An interface is passed twice where as many steps are made as there are declarations. -/
theorem exists_cycle_of_ancestor? {id : DeclId}
    (h : ∀ n ≤ c.size, ∃ k < c.size, c.ancestor? n id = some k) :
    ∃ n k, c.ancestor? n id = some k ∧ c.InheritsFrom k k := by
  have hcard : (Finset.range c.size).card < (Finset.range (c.size + 1)).card := by
    simp only [Finset.card_range]
    exact Nat.lt_succ_self _
  have hmaps : ∀ n ∈ Finset.range (c.size + 1),
      (c.ancestor? n id).getD base ∈ Finset.range c.size := by
    intro n hn
    obtain ⟨k, hk, hn⟩ := h n (Nat.le_of_lt_succ (Finset.mem_range.1 hn))
    rw [hn]
    exact Finset.mem_range.2 hk
  obtain ⟨i, hi, j, hj, hne, heq⟩ := Finset.exists_ne_map_eq_of_card_lt_of_maps_to hcard hmaps
  wlog hlt : i < j generalizing i j
  · exact this j hj i hi (Ne.symm hne) heq.symm (by omega)
  obtain ⟨k, _, hk⟩ := h i (Nat.le_of_lt_succ (Finset.mem_range.1 hi))
  obtain ⟨k', _, hk'⟩ := h j (Nat.le_of_lt_succ (Finset.mem_range.1 hj))
  obtain rfl : k = k' := by
    rw [hk, hk'] at heq
    exact heq
  -- From `k` on, the steps between the two visits lead back to `k`.
  have hback : c.ancestor? (j - i - 1 + 1) k = some k := by
    have hsum : i + (j - i - 1 + 1) = j := by omega
    rw [← hsum, ancestor?_add, hk] at hk'
    exact hk'
  exact ⟨i, k, hk, inheritsFrom_of_ancestor? hback⟩

theorem lt_size_of_super? {id s : DeclId} (h : c.super? id = some s) : id < c.size :=
  lt_size_of_isInterface (isInterface_of_super? h)

/-- Every interface on the way to an ancestor exists, and so does the ancestor if the last one
does. -/
theorem ancestor?_lt_size {n : Nat} {id k : DeclId} (h : c.ancestor? n id = some k)
    (hk : k < c.size) : ∀ m ≤ n, ∃ a < c.size, c.ancestor? m id = some a := by
  intro m hm
  obtain ⟨j, rfl⟩ := Nat.exists_eq_add_of_le hm
  rw [ancestor?_add] at h
  obtain ⟨a, ha, hrest⟩ := Option.bind_eq_some_iff.1 h
  refine ⟨a, ?_, ha⟩
  cases j with
  | zero =>
    cases hrest
    exact hk
  | succ j =>
    obtain ⟨s, hs, _⟩ := Option.bind_eq_some_iff.1 hrest
    exact lt_size_of_super? hs

/-! ### The search for cycles -/

/-- Whether inheritance leads from an interface to one that inherits from itself. -/
def LeadsIntoCycle (c : Catalogue) (id : DeclId) : Prop :=
  ∃ k, Relation.ReflTransGen c.Extends id k ∧ c.InheritsFrom k k

theorem LeadsIntoCycle.step {id : DeclId} (h : c.LeadsIntoCycle id) :
    ∃ s, c.super? id = some s ∧ c.LeadsIntoCycle s := by
  obtain ⟨k, hreach, hcycle⟩ := h
  rcases hreach.cases_head with heq | ⟨s, hs, hrest⟩
  · subst heq
    obtain ⟨s, hs, hback⟩ := Relation.TransGen.head'_iff.1 hcycle
    exact ⟨s, hs, id, hback, hcycle⟩
  · exact ⟨s, hs, k, hrest, hcycle⟩

/-- From an interface that leads into a cycle the search never runs out of interfaces, whatever its
target and its room. -/
theorem returnsWithin_of_leadsIntoCycle {target id : DeclId} (h : c.LeadsIntoCycle id)
    (steps : Nat) : c.returnsWithin target steps id = true := by
  induction steps generalizing id with
  | zero =>
    obtain ⟨s, hs, _⟩ := h.step
    unfold returnsWithin
    simp [hs]
  | succ steps ih =>
    obtain ⟨s, hs, hnext⟩ := h.step
    unfold returnsWithin
    simp [hs, ih hnext]

/-- What the search reports comes back to its target or goes on beyond the room. -/
theorem ancestor?_of_returnsWithin {target : DeclId} {steps : Nat} {id : DeclId}
    (h : c.returnsWithin target steps id = true) :
    (∃ n, c.ancestor? (n + 1) id = some target) ∨ ∃ k, c.ancestor? (steps + 1) id = some k := by
  induction steps generalizing id with
  | zero =>
    unfold returnsWithin at h
    cases hs : c.super? id with
    | none => simp [hs] at h
    | some s => exact Or.inr ⟨s, by simp [ancestor?, hs]⟩
  | succ steps ih =>
    unfold returnsWithin at h
    cases hs : c.super? id with
    | none => simp [hs] at h
    | some s =>
      by_cases htarget : s = target
      · exact Or.inl ⟨0, by simp [ancestor?, hs, htarget]⟩
      · simp only [hs, htarget, decide_false, Bool.false_or] at h
        rcases ih h with ⟨n, hn⟩ | ⟨k, hk⟩
        · exact Or.inl ⟨n + 1, by rw [ancestor?, hs]; exact hn⟩
        · exact Or.inr ⟨k, by rw [ancestor?, hs]; exact hk⟩

/-- The search takes notice of an interface exactly if it leads into a cycle. -/
theorem returnsWithin_size_iff {id : DeclId} :
    c.returnsWithin id c.size id = true ↔ c.LeadsIntoCycle id := by
  constructor
  · intro h
    rcases ancestor?_of_returnsWithin h with ⟨n, hn⟩ | ⟨k, hk⟩
    · exact ⟨id, .refl, inheritsFrom_of_ancestor? hn⟩
    · -- A walk beyond all declarations passes existing interfaces up to its last step.
      rw [ancestor?_add c.size 1] at hk
      obtain ⟨a, ha, hlast⟩ := Option.bind_eq_some_iff.1 hk
      obtain ⟨s, hs, _⟩ := Option.bind_eq_some_iff.1 hlast
      obtain ⟨n, b, hb, hcycle⟩ :=
        exists_cycle_of_ancestor? (ancestor?_lt_size ha (lt_size_of_super? hs))
      exact ⟨b, reaches_of_ancestor? hb, hcycle⟩
  · intro h
    exact returnsWithin_of_leadsIntoCycle h c.size

theorem LeadsIntoCycle.lt_size {id : DeclId} (h : c.LeadsIntoCycle id) : id < c.size := by
  obtain ⟨s, hs, _⟩ := h.step
  exact lt_size_of_super? hs

theorem findCycle?_eq_none_iff : c.findCycle? = none ↔ ∀ id, ¬ c.InheritsFrom id id := by
  rw [findCycle?, List.find?_eq_none]
  simp only [returnsWithin_size_iff]
  constructor
  · intro h id hcycle
    have hleads : c.LeadsIntoCycle id := ⟨id, .refl, hcycle⟩
    exact h id (List.mem_range.2 hleads.lt_size) hleads
  · intro h id _ hleads
    obtain ⟨k, _, hcycle⟩ := hleads
    exact h k hcycle

theorem finish_eq_ok_iff {c' : Catalogue} :
    c.finish = .ok c' ↔ c = c' ∧ ∀ id, ¬ c.InheritsFrom id id := by
  rw [← findCycle?_eq_none_iff]
  unfold finish
  cases hf : c.findCycle? with
  | none => simp
  | some id =>
    constructor
    · intro h
      obtain ⟨d, _, h⟩ := Outcome.bind_eq_ok.1 h
      cases h
    · rintro ⟨_, h⟩
      cases h

/-! ### The walk along a chain -/

/-- The chain of an interface: it starts there, each member extends the next, and the last extends
nothing. -/
structure IsChainOf (c : Catalogue) (id : DeclId) (chain : List DeclId) : Prop where
  head : chain.head? = some id
  linked : chain.IsChain c.Extends
  interfaces : ∀ k ∈ chain, c.isInterface k = true
  last : ∀ k, chain.getLast? = some k → c.super? k = none

theorem chainWithin_last {room : Nat} {id : DeclId} {members : Interface}
    (h : c.interface? id = some members) (hs : members.super = none) :
    c.chainWithin (room + 1) id = .ok [id] := by
  obtain ⟨d, hd, hb⟩ := interface?_eq_some.1 h
  rw [chainWithin, hd]
  simp only [hb, hs]

theorem chainWithin_next {room : Nat} {id next : DeclId} {members : Interface}
    (h : c.interface? id = some members) (hs : members.super = some next) :
    c.chainWithin (room + 1) id = (c.chainWithin room next).map (id :: ·) := by
  obtain ⟨d, hd, hb⟩ := interface?_eq_some.1 h
  rw [chainWithin, hd]
  simp only [hb, hs]

/-- A walk that came to its end comes to the same end with more room. -/
theorem chainWithin_succ {room : Nat} {id : DeclId} {chain : List DeclId}
    (h : c.chainWithin room id = .ok chain) : c.chainWithin (room + 1) id = .ok chain := by
  induction room generalizing id chain with
  | zero =>
    unfold chainWithin at h
    cases hd : c.get? id with
    | none => simp [hd] at h
    | some d => simp [hd] at h
  | succ room ih =>
    rw [chainWithin] at h
    rw [chainWithin]
    cases hd : c.get? id with
    | none => simp [hd] at h
    | some d =>
      simp only [hd] at h ⊢
      cases hb : d.body with
      | compound members => simp [hb] at h
      | interface members =>
        simp only [hb] at h ⊢
        cases hs : members.super with
        | none =>
          rw [hs] at h
          exact h
        | some next =>
          simp only [hs] at h ⊢
          obtain ⟨rest, hrest, hchain⟩ := Outcome.map_eq_ok.1 h
          rw [ih hrest, ← hchain]
          rfl

/-- The chain of an interface is the interface itself in front of the chain of what it extends. -/
theorem exists_chain_of_super? {id p : DeclId} {chain : List DeclId} (hp : c.super? id = some p)
    (h : c.chain id = .ok chain) : ∃ rest, c.chain p = .ok rest ∧ chain = id :: rest := by
  obtain ⟨members, hm, hs⟩ := super?_eq_some.1 hp
  obtain ⟨room, hroom⟩ : ∃ room, c.size = room + 1 :=
    Nat.exists_eq_succ_of_ne_zero (Nat.ne_zero_of_lt (lt_size_of_super? hp))
  rw [Catalogue.chain, hroom, chainWithin_next hm hs] at h
  obtain ⟨rest, hrest, hchain⟩ := Outcome.map_eq_ok.1 h
  refine ⟨rest, ?_, hchain.symm⟩
  rw [Catalogue.chain, hroom]
  exact chainWithin_succ hrest

/-- A walk in a rooted catalogue gives the chain, or has gone as far as its room allows. -/
theorem Rooted.chain_or_ancestor? (hr : Rooted c) (room : Nat) {id : DeclId}
    (hid : c.isInterface id = true) :
    (∃ chain, c.chainWithin room id = .ok chain ∧ c.IsChainOf id chain) ∨
      ∃ k < c.size, c.ancestor? room id = some k := by
  induction room generalizing id with
  | zero => exact Or.inr ⟨id, lt_size_of_isInterface hid, rfl⟩
  | succ room ih =>
    obtain ⟨members, hm⟩ := isInterface_iff.1 hid
    have hsuper := super?_of_interface? hm
    cases hs : members.super with
    | none =>
      refine Or.inl ⟨[id], chainWithin_last hm hs, rfl, .singleton id, ?_, ?_⟩
      · simpa using hid
      · intro k hk
        obtain rfl : id = k := Option.some.inj hk
        rw [hsuper, hs]
    | some next =>
      rw [hs] at hsuper
      rcases ih (hr.super_isInterface id next hsuper) with ⟨chain, hchain, hc⟩ | ⟨k, hk, hn⟩
      · refine Or.inl ⟨id :: chain, by rw [chainWithin_next hm hs, hchain]; rfl, rfl, ?_, ?_, ?_⟩
        · refine List.isChain_cons.2 ⟨?_, hc.linked⟩
          intro k hk
          rw [hc.head] at hk
          obtain rfl : next = k := Option.some.inj hk
          exact hsuper
        · intro k hk
          rcases List.mem_cons.1 hk with rfl | hk
          · exact hid
          · exact hc.interfaces k hk
        · intro k hk
          cases chain with
          | nil => cases hc.head
          | cons first rest =>
            rw [List.getLast?_cons_cons] at hk
            exact hc.last k hk
      · exact Or.inr ⟨k, hk, by rw [ancestor?, hsuper]; exact hn⟩

theorem IsChainOf.getLast?_eq_base {id : DeclId} {chain : List DeclId} (hr : Rooted c)
    (h : c.IsChainOf id chain) : chain.getLast? = some base := by
  cases hlast : chain.getLast? with
  | none =>
    rw [List.getLast?_eq_none_iff.1 hlast] at h
    cases h.head
  | some k =>
    by_cases hk : k = base
    · rw [hk]
    · have hmem : k ∈ chain := List.mem_of_getLast? hlast
      obtain ⟨s, hs⟩ := hr.super_exists k (h.interfaces k hmem) hk
      rw [h.last k hlast] at hs
      cases hs

/-- Members of a chain are interfaces of which each inherits from all that follow. -/
theorem IsChainOf.pairwise {id : DeclId} {chain : List DeclId} (h : c.IsChainOf id chain) :
    chain.Pairwise c.InheritsFrom := by
  have : Trans c.InheritsFrom c.InheritsFrom c.InheritsFrom := ⟨Relation.TransGen.trans⟩
  exact List.isChain_iff_pairwise.1 (h.linked.imp fun _ _ hs => .single hs)

theorem IsChainOf.nodup {id : DeclId} {chain : List DeclId} (h : c.IsChainOf id chain)
    (hacyclic : ∀ k, ¬ c.InheritsFrom k k) : chain.Nodup := by
  refine h.pairwise.imp ?_
  rintro a b hab rfl
  exact hacyclic a hab

theorem Rooted.exists_chain (hr : Rooted c) (hacyclic : ∀ k, ¬ c.InheritsFrom k k) {id : DeclId}
    (hid : c.isInterface id = true) :
    ∃ chain, c.chain id = .ok chain ∧ c.IsChainOf id chain := by
  rcases hr.chain_or_ancestor? c.size hid with hchain | ⟨k, hk, hn⟩
  · exact hchain
  · obtain ⟨_, a, _, ha⟩ := exists_cycle_of_ancestor? (ancestor?_lt_size hn hk)
    exact absurd ha (hacyclic a)

/-- A catalogue under construction can be finished exactly if no interface inherits from itself. In
the finished catalogue the walk from any interface gives its chain: it starts at the interface, each
member extends the next one, none comes twice, and the base interface is the last. -/
theorem finish_ok_iff_acyclic_and_chains (ops : List Operation) :
    ((∃ c, (build ops).finish = .ok c) ↔ ∀ id, ¬ (build ops).InheritsFrom id id) ∧
      ∀ c, (build ops).finish = .ok c → ∀ id, c.isInterface id = true →
        ∃ chain, c.chain id = .ok chain ∧ chain.head? = some id ∧ chain.IsChain c.Extends ∧
          chain.Nodup ∧ chain.getLast? = some base := by
  constructor
  · constructor
    · rintro ⟨c, h⟩
      exact (finish_eq_ok_iff.1 h).2
    · intro h
      exact ⟨build ops, finish_eq_ok_iff.2 ⟨rfl, h⟩⟩
  · intro c h id hid
    obtain ⟨rfl, hacyclic⟩ := finish_eq_ok_iff.1 h
    have hr : Rooted (build ops) := (built_build ops).rooted
    obtain ⟨chain, hchain, hc⟩ := hr.exists_chain hacyclic hid
    exact ⟨chain, hchain, hc.head, hc.linked, hc.nodup hacyclic, hc.getLast?_eq_base hr⟩

/-- Two versions of an interface below the base interface, with a comment refused on the way. -/
def versionedOps : List Operation :=
  let package := Text.ofString "android.hardware.foo"
  [.declareInterface ⟨package, ⟨1, 0⟩, [Text.ofString "IFoo"]⟩ none,
    .declareInterface ⟨package, ⟨1, 1⟩, [Text.ofString "IFoo"]⟩ none,
    .setSuper 2 1, .setSuper 1 1, .setSuper 0 1, .setDoc 7 ⟨[], Location.unknown⟩]

theorem chain_versionedOps :
    (build versionedOps).finish = .ok (build versionedOps) ∧
      (build versionedOps).isInterface 2 = true ∧
        ∃ chain, (build versionedOps).chain 2 = .ok chain ∧ chain.head? = some 2 ∧
          chain.IsChain (build versionedOps).Extends ∧ chain.Nodup ∧ chain.getLast? = some base := by
  have hfinish : (build versionedOps).finish = .ok (build versionedOps) := by decide
  have hid : (build versionedOps).isInterface 2 = true := by decide
  exact ⟨hfinish, hid, (finish_ok_iff_acyclic_and_chains versionedOps).2 _ hfinish 2 hid⟩

end Catalogue

end FlatAidl
