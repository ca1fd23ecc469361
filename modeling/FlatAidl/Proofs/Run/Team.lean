import FlatAidl.Proofs.Emission.Store
import FlatAidl.Run.Basic

/-!
Workers that translate targets side by side. Each emits the declarations of one target in their
order and has a log of its own; the output is shared, and a schedule says whose turn it is to emit
its next declaration. Whatever the schedule is, a store then holds what the workers have emitted.
-/

namespace FlatAidl

/-- A worker: the declarations still to be emitted, the log, the paths written so far, and the
error that stopped it, if one did. -/
structure Worker where
  todo : List DeclId
  log : NoteLog
  paths : List Path
  failure : Option EmitError

namespace Worker

variable {σ : Type}

def ofTarget (c : Catalogue) (id : DeclId) : Worker :=
  ⟨c.emissionOrder id, NoteLog.empty, [], none⟩

/-- What a worker has to show for its target. -/
def result (w : Worker) : Run.TargetResult :=
  match w.failure with
  | some e => .error e
  | none => .ok (w.paths, w.log.lines)

/-- A worker's turn: it emits its next declaration, unless it has none or was stopped. Opening,
writing and flushing one file is a single turn, so no other worker comes in between; that is a limit
of this model. -/
def advance (c : Catalogue) (o : Options) (out : Output σ) (s : σ) (w : Worker) : σ × Worker :=
  match w.failure, w.todo with
  | none, id :: rest =>
    match c.emitOne o out ⟨s, w.log⟩ id with
    | (p, .ok path) => (p.output, ⟨rest, p.log, w.paths ++ [path], none⟩)
    | (p, .error e) => (p.output, ⟨id :: rest, p.log, w.paths, some e⟩)
  | _, _ => (s, w)

end Worker

/-- Workers and the output that they share. -/
structure Team (σ : Type) where
  output : σ
  workers : List Worker

namespace Team

variable {σ : Type}

def start (c : Catalogue) (s : σ) (targets : List DeclId) : Team σ :=
  ⟨s, targets.map (Worker.ofTarget c)⟩

def turn (c : Catalogue) (o : Options) (out : Output σ) (team : Team σ) (i : Nat) : Team σ :=
  match team.workers[i]? with
  | some w =>
    ⟨(w.advance c o out team.output).1, team.workers.set i (w.advance c o out team.output).2⟩
  | none => team

def play (c : Catalogue) (o : Options) (out : Output σ) (team : Team σ) (schedule : List Nat) :
    Team σ :=
  schedule.foldl (turn c o out) team

def Unstopped (team : Team σ) : Prop :=
  ∀ w ∈ team.workers, w.failure = none

/-- All workers are through, and none was stopped. -/
def Done (team : Team σ) : Prop :=
  team.Unstopped ∧ ∀ w ∈ team.workers, w.todo = []

instance (team : Team σ) : Decidable team.Done :=
  inferInstanceAs
    (Decidable ((∀ w ∈ team.workers, w.failure = none) ∧ ∀ w ∈ team.workers, w.todo = []))

variable {c : Catalogue} {o : Options} {out : Output σ}

/-! ### Turns -/

/-- What a turn can do: nothing, emit a declaration, or stop a worker. -/
theorem turn_cases (out : Output σ) (team : Team σ) (i : Nat) :
    team.turn c o out i = team ∨
      ∃ pre post id rest log paths p result,
        team.workers = pre ++ ⟨id :: rest, log, paths, none⟩ :: post ∧
          c.emitOne o out ⟨team.output, log⟩ id = (p, result) ∧
            ((∃ path, result = .ok path ∧ team.turn c o out i =
                ⟨p.output, pre ++ ⟨rest, p.log, paths ++ [path], none⟩ :: post⟩) ∨
              ∃ e, result = .error e ∧ team.turn c o out i =
                ⟨p.output, pre ++ ⟨id :: rest, p.log, paths, some e⟩ :: post⟩) := by
  unfold turn
  cases hw : team.workers[i]? with
  | none => exact Or.inl rfl
  | some w =>
    obtain ⟨hi, hget⟩ := List.getElem?_eq_some_iff.1 hw
    have hsplit : team.workers = team.workers.take i ++ w :: team.workers.drop (i + 1) := by
      rw [← hget, List.getElem_cons_drop, List.take_append_drop]
    have hset : ∀ w', team.workers.set i w' =
        team.workers.take i ++ w' :: team.workers.drop (i + 1) :=
      fun w' => List.set_eq_take_append_cons_drop.trans (if_pos hi)
    have hself : team.workers.set i w = team.workers := by rw [hset, ← hsplit]
    obtain ⟨todo, log, paths, failure⟩ := w
    cases failure with
    | some e =>
      refine Or.inl ?_
      dsimp only [Worker.advance]
      rw [hself]
    | none =>
      cases todo with
      | nil =>
        refine Or.inl ?_
        dsimp only [Worker.advance]
        rw [hself]
      | cons id rest =>
        cases hone : c.emitOne o out ⟨team.output, log⟩ id with
        | mk p result =>
          refine Or.inr ⟨_, _, id, rest, log, paths, p, result, hsplit, hone, ?_⟩
          dsimp only [Worker.advance]
          rw [hset, hone]
          cases result with
          | ok path => exact Or.inl ⟨path, rfl, rfl⟩
          | error e => exact Or.inr ⟨e, rfl, rfl⟩

theorem turn_of_unstopped {team : Team σ} {i : Nat} (h : (team.turn c o out i).Unstopped) :
    team.turn c o out i = team ∨
      ∃ pre post id rest log paths p path,
        team.workers = pre ++ ⟨id :: rest, log, paths, none⟩ :: post ∧
          c.emitOne o out ⟨team.output, log⟩ id = (p, .ok path) ∧
            team.turn c o out i =
              ⟨p.output, pre ++ ⟨rest, p.log, paths ++ [path], none⟩ :: post⟩ := by
  rcases turn_cases (c := c) (o := o) out team i with hidle | hturn
  · exact Or.inl hidle
  · obtain ⟨pre, post, id, rest, log, paths, p, result, hworkers, hone, hturn⟩ := hturn
    rcases hturn with ⟨path, rfl, hturn⟩ | ⟨e, rfl, hturn⟩
    · exact Or.inr ⟨pre, post, id, rest, log, paths, p, path, hworkers, hone, hturn⟩
    · rw [hturn] at h
      have hstopped := h _ (List.mem_append_right _ (List.mem_cons_self ..))
      cases hstopped

theorem Unstopped.of_turn {team : Team σ} {i : Nat} (h : (team.turn c o out i).Unstopped) :
    team.Unstopped := by
  rcases turn_of_unstopped h with hidle | hturn
  · rwa [hidle] at h
  · obtain ⟨pre, post, id, rest, log, paths, p, path, hworkers, _, hturn⟩ := hturn
    rw [hturn] at h
    intro w hw
    rw [hworkers] at hw
    rcases List.mem_append.1 hw with hw | hw
    · exact h w (List.mem_append_left _ hw)
    · rcases List.mem_cons.1 hw with rfl | hw
      · rfl
      · exact h w (List.mem_append_right _ (List.mem_cons_of_mem _ hw))

theorem Unstopped.of_play {team : Team σ} {schedule : List Nat}
    (h : (team.play c o out schedule).Unstopped) : team.Unstopped := by
  induction schedule generalizing team with
  | nil => exact h
  | cons i rest ih => exact (ih h).of_turn

/-! ### What the output holds -/

/-- The declarations that workers have before them. -/
def Pending (workers : List Worker) (id : DeclId) : Prop :=
  ∃ w ∈ workers, id ∈ w.todo

theorem pending_split {pre post : List Worker} {w : Worker} {id : DeclId} :
    Pending (pre ++ w :: post) id ↔ id ∈ w.todo ∨ Pending (pre ++ post) id := by
  simp only [Pending, List.mem_append, List.mem_cons, or_and_right, exists_or, exists_eq_left]
  exact or_left_comm

variable {st : Store σ} {s : σ}

/-- Under a key stands the content of some emitted declaration that belongs there, or what stood
there before any was emitted. -/
def Holds (c : Catalogue) (o : Options) (st : Store σ) (s : σ) (emitted : List DeclId)
    (held : st.Key → Option st.Content) : Prop :=
  ∀ k, (held k = st.held s k ∧ ∀ id ∈ emitted, ∀ r, c.render o id = .ok r → st.key s r.path ≠ k) ∨
    ∃ id ∈ emitted, ∃ r, c.render o id = .ok r ∧ st.key s r.path = k ∧
      held k = some (st.content r.text)

/-- One more declaration takes its key and leaves the others. -/
theorem Holds.concat {emitted : List DeclId} {held : st.Key → Option st.Content}
    (h : Holds c o st s emitted held) {id : DeclId} {r : Rendering}
    (hr : c.render o id = .ok r) :
    Holds c o st s (emitted ++ [id])
      (Function.update held (st.key s r.path) (some (st.content r.text))) := by
  intro k
  by_cases hk : k = st.key s r.path
  · subst hk
    refine Or.inr ⟨id, List.mem_append_right _ (List.mem_singleton_self _), r, hr, rfl, ?_⟩
    rw [Function.update_self]
  · rw [Function.update_of_ne hk]
    rcases h k with ⟨hbefore, hnone⟩ | ⟨id', hid', r', hr', hkey, hheld⟩
    · refine Or.inl ⟨hbefore, ?_⟩
      intro id' hid' r' hr'
      rcases List.mem_append.1 hid' with hid' | hid'
      · exact hnone id' hid' r' hr'
      · rw [List.mem_singleton.1 hid', hr] at hr'
        cases hr'
        exact Ne.symm hk
    · exact Or.inr ⟨id', List.mem_append_left _ hid', r', hr', hkey, hheld⟩

/-- How far a team has come from its start: what was pending is emitted or still pending, and the
output holds what was emitted. -/
structure Account (c : Catalogue) (o : Options) (st : Store σ) (begin team : Team σ)
    (emitted : List DeclId) : Prop where
  key : st.key team.output = st.key begin.output
  rendered : ∀ id ∈ emitted, ∃ r, c.render o id = .ok r
  pending : ∀ id, Pending begin.workers id ↔ id ∈ emitted ∨ Pending team.workers id
  holds : Holds c o st begin.output emitted (st.held team.output)

theorem Account.refl (begin : Team σ) : Account c o st begin begin [] where
  key := rfl
  rendered := by simp
  pending := by simp
  holds := fun k => Or.inl ⟨rfl, by simp⟩

theorem Account.turn {begin team : Team σ} {emitted : List DeclId} {i : Nat}
    (h : Account c o st begin team emitted)
    (hturn : (team.turn c o st.toOutput i).Unstopped) :
    ∃ emitted', Account c o st begin (team.turn c o st.toOutput i) emitted' := by
  rcases turn_of_unstopped hturn with hidle | hemit
  · rw [hidle]
    exact ⟨emitted, h⟩
  · obtain ⟨pre, post, id, rest, log, paths, p, path, hworkers, hone, hteam⟩ := hemit
    obtain ⟨r, hr, hput, _⟩ := Catalogue.emitOne_eq_ok hone
    rw [hteam]
    refine ⟨emitted ++ [id], ?_, ?_, ?_, ?_⟩
    · rw [← h.key]
      exact st.key_put hput
    · intro id' hid'
      rcases List.mem_append.1 hid' with hid' | hid'
      · exact h.rendered id' hid'
      · rw [List.mem_singleton.1 hid']
        exact ⟨r, hr⟩
    · intro id'
      rw [h.pending, hworkers, pending_split, pending_split, List.mem_append, List.mem_singleton,
        List.mem_cons, or_assoc, or_assoc]
    · have hheld := st.held_put hput
      rw [h.key] at hheld
      rw [hheld]
      exact h.holds.concat hr

theorem Account.play {begin team : Team σ} {emitted : List DeclId} {schedule : List Nat}
    (h : Account c o st begin team emitted)
    (hplay : (team.play c o st.toOutput schedule).Unstopped) :
    ∃ emitted', Account c o st begin (team.play c o st.toOutput schedule) emitted' := by
  induction schedule generalizing team emitted with
  | nil => exact ⟨emitted, h⟩
  | cons i rest ih =>
    obtain ⟨emitted', h'⟩ := h.turn (Unstopped.of_play hplay)
    exact ih h' hplay

/-- When all workers are through, everything that was pending is emitted. -/
theorem Done.account {begin : Team σ} {schedule : List Nat}
    (h : (begin.play c o st.toOutput schedule).Done) :
    ∃ emitted, (∀ id, id ∈ emitted ↔ Pending begin.workers id) ∧
      (∀ id ∈ emitted, ∃ r, c.render o id = .ok r) ∧
        Holds c o st begin.output emitted
          (st.held (begin.play c o st.toOutput schedule).output) := by
  obtain ⟨emitted, haccount⟩ := (Account.refl begin).play h.1
  refine ⟨emitted, ?_, haccount.rendered, haccount.holds⟩
  intro id
  have hnone : ¬ Pending (begin.play c o st.toOutput schedule).workers id := by
    rintro ⟨w, hw, hid⟩
    rw [h.2 w hw] at hid
    cases hid
  rw [haccount.pending, or_iff_left hnone]

end Team

end FlatAidl
