import Mathlib.Data.List.Perm.Basic

/-!
Computations that may be refused. A sequence of them is granted exactly if each of its parts is, and
a list of them gives its results in order.
-/

namespace FlatAidl

namespace Outcome

variable {ε α β : Type}

theorem ok_bind (a : α) (f : α → Except ε β) : (Except.ok a >>= f) = f a :=
  rfl

theorem bind_eq_ok {x : Except ε α} {f : α → Except ε β} {b : β} :
    (x >>= f) = .ok b ↔ ∃ a, x = .ok a ∧ f a = .ok b := by
  cases x with
  | error e =>
    constructor
    · intro h
      cases h
    · rintro ⟨a, h, _⟩
      cases h
  | ok a =>
    constructor
    · intro h
      exact ⟨a, rfl, h⟩
    · rintro ⟨a', h, hf⟩
      cases h
      exact hf

theorem map_eq_ok {x : Except ε α} {f : α → β} {b : β} :
    x.map f = .ok b ↔ ∃ a, x = .ok a ∧ f a = b := by
  cases x with
  | error e => simp [Except.map]
  | ok a => simp [Except.map]

theorem map_eq_error {x : Except ε α} {f : α → β} {e : ε} :
    x.map f = .error e ↔ x = .error e := by
  cases x with
  | error e' => simp [Except.map]
  | ok a => simp [Except.map]

theorem mapM_nil (f : α → Except ε β) : List.mapM f [] = .ok [] :=
  rfl

theorem mapM_cons (f : α → Except ε β) (a : α) (l : List α) :
    (a :: l).mapM f = f a >>= fun b => l.mapM f >>= fun bs => .ok (b :: bs) := by
  simp only [List.mapM_cons]
  rfl

theorem mapM_ok {f : α → Except ε β} {l : List α} (h : ∀ a ∈ l, ∃ b, f a = .ok b) :
    ∃ bs, l.mapM f = .ok bs := by
  induction l with
  | nil => exact ⟨[], rfl⟩
  | cons a l ih =>
    obtain ⟨b, hb⟩ := h a (List.mem_cons_self ..)
    obtain ⟨bs, hbs⟩ := ih fun x hx => h x (List.mem_cons_of_mem _ hx)
    refine ⟨b :: bs, ?_⟩
    rw [mapM_cons, hb, hbs]
    rfl

theorem exists_of_mem_mapM {f : α → Except ε β} {l : List α} {bs : List β}
    (h : l.mapM f = .ok bs) {b : β} (hb : b ∈ bs) : ∃ a ∈ l, f a = .ok b := by
  induction l generalizing bs with
  | nil =>
    rw [mapM_nil] at h
    cases h
    simp at hb
  | cons a l ih =>
    rw [mapM_cons] at h
    obtain ⟨b', hb', h⟩ := bind_eq_ok.1 h
    obtain ⟨bs', hbs', h⟩ := bind_eq_ok.1 h
    cases h
    rcases List.mem_cons.1 hb with rfl | hb
    · exact ⟨a, List.mem_cons_self .., hb'⟩
    · obtain ⟨x, hx, hfx⟩ := ih hbs' hb
      exact ⟨x, List.mem_cons_of_mem _ hx, hfx⟩

theorem exists_of_mem_of_mapM {f : α → Except ε β} {l : List α} {bs : List β}
    (h : l.mapM f = .ok bs) {a : α} (ha : a ∈ l) : ∃ b ∈ bs, f a = .ok b := by
  induction l generalizing bs with
  | nil => cases ha
  | cons a' l ih =>
    rw [mapM_cons] at h
    obtain ⟨b, hb, h⟩ := bind_eq_ok.1 h
    obtain ⟨rest, hrest, h⟩ := bind_eq_ok.1 h
    cases h
    rcases List.mem_cons.1 ha with rfl | ha
    · exact ⟨b, List.mem_cons_self .., hb⟩
    · obtain ⟨x, hx, hfx⟩ := ih hrest ha
      exact ⟨x, List.mem_cons_of_mem _ hx, hfx⟩

/-- Where a granted result is known from its argument, so are the results of a list. -/
theorem eq_map_of_mapM {f : α → Except ε β} {g : α → β} {l : List α} {bs : List β}
    (h : l.mapM f = .ok bs) (hg : ∀ a ∈ l, ∀ b, f a = .ok b → b = g a) : bs = l.map g := by
  induction l generalizing bs with
  | nil =>
    rw [mapM_nil] at h
    cases h
    rfl
  | cons a l ih =>
    rw [mapM_cons] at h
    obtain ⟨b, hb, h⟩ := bind_eq_ok.1 h
    obtain ⟨rest, hrest, h⟩ := bind_eq_ok.1 h
    cases h
    rw [List.map_cons, hg a (List.mem_cons_self ..) b hb,
      ih hrest fun x hx => hg x (List.mem_cons_of_mem _ hx)]

theorem mapM_append_eq_ok {f : α → Except ε β} {l l' : List α} {bs : List β} :
    (l ++ l').mapM f = .ok bs ↔
      ∃ front back, l.mapM f = .ok front ∧ l'.mapM f = .ok back ∧ bs = front ++ back := by
  rw [List.mapM_append]
  constructor
  · intro h
    obtain ⟨front, hfront, h⟩ := bind_eq_ok.1 h
    obtain ⟨back, hback, h⟩ := bind_eq_ok.1 h
    cases h
    exact ⟨front, back, hfront, hback, rfl⟩
  · rintro ⟨front, back, hfront, hback, rfl⟩
    exact bind_eq_ok.2 ⟨front, hfront, bind_eq_ok.2 ⟨back, hback, rfl⟩⟩

theorem mapM_eq_ok_iff_forall₂ {f : α → Except ε β} {l : List α} {bs : List β} :
    l.mapM f = .ok bs ↔ List.Forall₂ (fun a b => f a = .ok b) l bs := by
  induction l generalizing bs with
  | nil =>
    rw [mapM_nil, List.forall₂_nil_left_iff, Except.ok.injEq]
    exact eq_comm
  | cons a l ih =>
    rw [mapM_cons, List.forall₂_cons_left_iff]
    constructor
    · intro h
      obtain ⟨b, hb, h⟩ := bind_eq_ok.1 h
      obtain ⟨rest, hrest, h⟩ := bind_eq_ok.1 h
      cases h
      exact ⟨b, rest, hb, ih.1 hrest, rfl⟩
    · rintro ⟨b, rest, hb, hrest, rfl⟩
      exact bind_eq_ok.2 ⟨b, hb, bind_eq_ok.2 ⟨rest, ih.2 hrest, rfl⟩⟩

/-- A list in another order gives the same results in that order. -/
theorem mapM_perm {f : α → Except ε β} {l l' : List α} {bs : List β} (hperm : l.Perm l')
    (h : l.mapM f = .ok bs) : ∃ bs', l'.mapM f = .ok bs' ∧ bs.Perm bs' := by
  obtain ⟨bs', hbs', hresults⟩ :=
    List.perm_comp_forall₂ hperm.symm (mapM_eq_ok_iff_forall₂.1 h)
  exact ⟨bs', mapM_eq_ok_iff_forall₂.2 hbs', hresults.symm⟩

theorem mapM_map {ε' γ δ : Type} {f : α → Except ε β} {g : γ → Except ε' δ} (ρ : α → γ) (σ : β → δ)
    {l : List α} {bs : List β} (h : ∀ a ∈ l, ∀ b, f a = .ok b → g (ρ a) = .ok (σ b))
    (hbs : l.mapM f = .ok bs) : (l.map ρ).mapM g = .ok (bs.map σ) := by
  induction l generalizing bs with
  | nil =>
    cases hbs
    rfl
  | cons a l ih =>
    rw [mapM_cons] at hbs
    obtain ⟨b, hb, hbs⟩ := bind_eq_ok.1 hbs
    obtain ⟨rest, hrest, hbs⟩ := bind_eq_ok.1 hbs
    cases hbs
    have hmore := ih (fun x hx => h x (List.mem_cons_of_mem _ hx)) hrest
    rw [List.map_cons, mapM_cons, h a (List.mem_cons_self ..) b hb, ok_bind, hmore]
    rfl

theorem mapM_map_of_same {ε' γ : Type} {f : α → Except ε β} {g : γ → Except ε' β} (ρ : α → γ)
    {l : List α} {bs : List β} (h : ∀ a b, f a = .ok b → g (ρ a) = .ok b)
    (hbs : l.mapM f = .ok bs) : (l.map ρ).mapM g = .ok bs := by
  have hmap := mapM_map ρ id (fun a _ b hb => h a b hb) hbs
  rwa [List.map_id] at hmap

/-- What each computation of a sequence keeps, the whole sequence keeps. -/
theorem foldlM_induction {f : β → α → Except ε β} {P : β → Prop}
    (hstep : ∀ b a b', P b → f b a = .ok b' → P b') {l : List α} {b b' : β} (hb : P b)
    (h : l.foldlM f b = .ok b') : P b' := by
  induction l generalizing b with
  | nil =>
    cases h
    exact hb
  | cons a l ih =>
    rw [List.foldlM_cons] at h
    obtain ⟨b₁, h₁, h⟩ := bind_eq_ok.1 h
    exact ih (hstep b a b₁ hb h₁) h

end Outcome

end FlatAidl
