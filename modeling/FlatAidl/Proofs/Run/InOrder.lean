import FlatAidl.Proofs.Run.Team

/-!
The run of the program as a schedule: each worker finishes before the next one starts. The workers
then have to show what the run collects for their targets, and the directory is the run's.
-/

namespace FlatAidl

namespace Team

variable {σ : Type} {c : Catalogue} {o : Options} {out : Output σ}

/-- The schedule in which each worker finishes before the next one starts; the first has number
`first`. -/
def inOrder (c : Catalogue) (first : Nat) : List DeclId → List Nat
  | [] => []
  | id :: rest => List.replicate (c.emissionOrder id).length first ++ inOrder c (first + 1) rest

theorem play_append (team : Team σ) (schedule schedule' : List Nat) :
    team.play c o out (schedule ++ schedule') =
      (team.play c o out schedule).play c o out schedule' :=
  List.foldl_append

theorem turn_at (s : σ) (pre post : List Worker) (w : Worker) :
    turn c o out ⟨s, pre ++ w :: post⟩ pre.length =
      ⟨(w.advance c o out s).1, pre ++ (w.advance c o out s).2 :: post⟩ := by
  have hget : (pre ++ w :: post)[pre.length]? = some w := by simp
  simp only [turn, hget, List.set_append_right _ _ (Nat.le_refl _), Nat.sub_self, List.set_cons_zero]

theorem play_stopped (s : σ) (pre post : List Worker) {w : Worker} {e : EmitError}
    (h : w.failure = some e) (n : Nat) :
    play c o out ⟨s, pre ++ w :: post⟩ (List.replicate n pre.length) =
      ⟨s, pre ++ w :: post⟩ := by
  have hidle : w.advance c o out s = (s, w) := by simp only [Worker.advance, h]
  induction n with
  | zero => rfl
  | succ n ih =>
    rw [List.replicate_succ]
    show play c o out (turn c o out _ _) _ = _
    rw [turn_at, hidle]
    exact ih

/-- A worker alone emits its declarations as one list. -/
theorem play_worker (out : Output σ) (s : σ) (pre post : List Worker) (todo : List DeclId) (log : NoteLog)
    (paths : List Path) :
    ∃ w, play c o out ⟨s, pre ++ ⟨todo, log, paths, none⟩ :: post⟩
        (List.replicate todo.length pre.length) =
          ⟨(c.emitList o out ⟨s, log⟩ todo).1.output, pre ++ w :: post⟩ ∧
      (w.failure = none → w.todo = []) ∧
        w.result = (c.emitList o out ⟨s, log⟩ todo).2.map fun more =>
          (paths ++ more, (c.emitList o out ⟨s, log⟩ todo).1.log.lines) := by
  induction todo generalizing s log paths with
  | nil =>
    refine ⟨⟨[], log, paths, none⟩, rfl, fun _ => rfl, ?_⟩
    simp [Worker.result, Catalogue.emitList, Except.map]
  | cons id rest ih =>
    rw [List.length_cons, List.replicate_succ]
    show ∃ w, play c o out (turn c o out _ _) _ = _ ∧ _
    rw [turn_at]
    cases hone : c.emitOne o out ⟨s, log⟩ id with
    | mk p result =>
      cases result with
      | error e =>
        refine ⟨⟨id :: rest, p.log, paths, some e⟩, ?_, by simp, ?_⟩
        · simp only [Worker.advance, hone, Catalogue.emitList]
          exact play_stopped p.output pre post rfl rest.length
        · simp [Worker.result, Catalogue.emitList, hone, Except.map]
      | ok path =>
        obtain ⟨w, hplay, hdone, hresult⟩ := ih p.output p.log (paths ++ [path])
        refine ⟨w, ?_, hdone, ?_⟩
        · simp only [Worker.advance, hone, Catalogue.emitList]
          exact hplay
        · rw [hresult]
          simp only [Catalogue.emitList, hone]
          cases (c.emitList o out p rest).2 with
          | error e => rfl
          | ok more => simp [Except.map]

/-- The program's run is the run of a team whose workers take their turns target by target. -/
theorem play_inOrder (root : Path) (t : FileTree) (pre : List Worker) (targets : List DeclId) :
    ∃ workers, play c o (FileTree.output root) ⟨t, pre ++ targets.map (Worker.ofTarget c)⟩
        (inOrder c pre.length targets) =
          ⟨(Run.translateAll c o root t targets).1, pre ++ workers⟩ ∧
      (∀ w ∈ workers, w.failure = none → w.todo = []) ∧
        workers.map Worker.result = (Run.translateAll c o root t targets).2 := by
  induction targets generalizing t pre with
  | nil => exact ⟨[], rfl, by simp, rfl⟩
  | cons id rest ih =>
    obtain ⟨w, hplay, hdone, hresult⟩ :=
      play_worker (c := c) (o := o) (FileTree.output root) t pre
        (rest.map (Worker.ofTarget c)) (c.emissionOrder id) NoteLog.empty []
    obtain ⟨workers, hrest, hall, hresults⟩ :=
      ih (Run.translateOne c o root t id).1 (pre ++ [w])
    refine ⟨w :: workers, ?_, ?_, ?_⟩
    · rw [inOrder, play_append, List.map_cons, Worker.ofTarget, hplay]
      simp only [List.append_assoc, List.singleton_append, List.length_append,
        List.length_singleton] at hrest
      exact hrest
    · intro w' hw'
      rcases List.mem_cons.1 hw' with rfl | hw'
      · exact hdone
      · exact hall w' hw'
    · rw [List.map_cons, hresults, hresult]
      rfl

/-- If every target of the program's run is granted, that team is through. -/
theorem done_inOrder {root : Path} {t : FileTree} {targets : List DeclId}
    (h : ∀ r ∈ (Run.translateAll c o root t targets).2, r.isOk = true) :
    ((start c t targets).play c o (FileTree.output root) (inOrder c 0 targets)).Done ∧
      ((start c t targets).play c o (FileTree.output root) (inOrder c 0 targets)).output =
        (Run.translateAll c o root t targets).1 := by
  obtain ⟨workers, hplay, hall, hresults⟩ :=
    play_inOrder (c := c) (o := o) root t [] targets
  have hteam : (start c t targets).play c o (FileTree.output root) (inOrder c 0 targets) =
      ⟨(Run.translateAll c o root t targets).1, workers⟩ := hplay
  rw [hteam]
  refine ⟨?_, rfl⟩
  have hunstopped : ∀ w ∈ workers, w.failure = none := by
    intro w hw
    have hok := h w.result (hresults ▸ List.mem_map_of_mem hw)
    cases hf : w.failure with
    | none => rfl
    | some e =>
      rw [Worker.result, hf] at hok
      cases hok
  exact ⟨hunstopped, fun w hw => hall w hw (hunstopped w hw)⟩

end Team

end FlatAidl
