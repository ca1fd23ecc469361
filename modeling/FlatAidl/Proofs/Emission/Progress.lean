import FlatAidl.Proofs.Emission.Store
import Mathlib.Data.Set.Defs

/-!
How far an emission comes. An output that refuses some paths and nothing else takes the files of all
other paths, and a log with room for a number of lines takes as many. Main statement: declarations
whose files and notes are taken are written one after another, whatever comes behind them.
-/

namespace FlatAidl

/-! ### What a log takes -/

namespace NoteLog

/-- Whether a log takes so many more lines. -/
def Takes (log : NoteLog) (n : Nat) : Prop :=
  ∀ room, log.room = some room → n ≤ room

/-- The log after it took some lines. -/
def extend (log : NoteLog) (notes : List Text) : NoteLog :=
  ⟨log.lines ++ notes, log.room.map fun room => room - notes.length⟩

theorem takes_of_unlimited (lines : List Text) (n : Nat) : Takes ⟨lines, none⟩ n := by
  intro room h
  cases h

theorem extend_unlimited (lines notes : List Text) :
    extend ⟨lines, none⟩ notes = ⟨lines ++ notes, none⟩ :=
  rfl

theorem extend_nil (log : NoteLog) : log.extend [] = log := by
  obtain ⟨lines, room⟩ := log
  cases room with
  | none => simp [extend]
  | some room => simp [extend]

theorem extend_append (log : NoteLog) (front back : List Text) :
    log.extend (front ++ back) = (log.extend front).extend back := by
  obtain ⟨lines, room⟩ := log
  cases room with
  | none => simp [extend]
  | some room => simp [extend, Nat.sub_sub]

theorem takes_append_iff {log : NoteLog} {front back : List Text}
    (h : log.Takes front.length) :
    log.Takes (front ++ back).length ↔ (log.extend front).Takes back.length := by
  obtain ⟨lines, room⟩ := log
  cases room with
  | none => simp [Takes, extend]
  | some room =>
    have hroom : front.length ≤ room := h room rfl
    simp only [Takes, extend, Option.map_some, Option.some.injEq, forall_eq', List.length_append]
    omega

theorem Takes.mono {log : NoteLog} {m n : Nat} (h : log.Takes n) (hle : m ≤ n) : log.Takes m :=
  fun room hroom => Nat.le_trans hle (h room hroom)

theorem addAll_of_takes {log : NoteLog} {notes : List Text} (h : log.Takes notes.length) :
    log.addAll notes = (log.extend notes, true) := by
  induction notes generalizing log with
  | nil => rw [addAll, extend_nil]
  | cons note rest ih =>
    obtain ⟨lines, room⟩ := log
    cases room with
    | none =>
      have hrest := ih (takes_of_unlimited (lines ++ [note]) rest.length)
      simp only [addAll, add?]
      rw [hrest]
      simp [extend]
    | some room =>
      have hroom : rest.length + 1 ≤ room := h room rfl
      obtain ⟨room, rfl⟩ := Nat.exists_eq_add_of_le' (Nat.le_trans (Nat.le_add_left 1 _) hroom)
      have htakes : Takes ⟨lines ++ [note], some room⟩ rest.length := by
        intro room' h'
        cases h'
        omega
      simp only [addAll, add?]
      rw [ih htakes]
      simp [extend]

/-- A log that has no room for all lines keeps those in front that it has room for. -/
theorem addAll_of_not_takes {log : NoteLog} {notes : List Text} (h : ¬ log.Takes notes.length) :
    ∃ room, log.room = some room ∧ log.addAll notes = (log.extend (notes.take room), false) := by
  obtain ⟨lines, room⟩ := log
  cases room with
  | none => exact absurd (takes_of_unlimited lines _) h
  | some room =>
    have hroom : room < notes.length := by
      by_contra hle
      exact h fun room' h' => by cases h'; omega
    refine ⟨room, rfl, ?_⟩
    clear h
    induction notes generalizing lines room with
    | nil => simp at hroom
    | cons note rest ih =>
      cases room with
      | zero => simp [addAll, add?, extend]
      | succ room =>
        simp only [addAll, add?]
        rw [ih (lines ++ [note]) room (by simpa using hroom)]
        simp [extend]

end NoteLog

/-! ### What an output takes -/

namespace Output

variable {σ : Type}

/-- An output that refuses the files at some paths and keeps nothing of them, and takes all other
files. -/
structure RefusesExactly (out : Output σ) (refused : Set Path) : Prop where
  refuses : ∀ s p t, p ∈ refused → ∃ cause, out.put s p t = (s, some cause)
  takes : ∀ s p t, p ∉ refused → ∃ s', out.put s p t = (s', none)

/-- What an output holds after files were put there one after another. -/
def putAll (out : Output σ) (s : σ) (rs : List Rendering) : σ :=
  rs.foldl (fun s r => (out.put s r.path r.text).1) s

theorem putAll_append (out : Output σ) (s : σ) (front back : List Rendering) :
    out.putAll s (front ++ back) = out.putAll (out.putAll s front) back :=
  List.foldl_append

theorem memory_refusesExactly (refusal : Path → Option Text) :
    (memory refusal).RefusesExactly { p | (refusal p).isSome = true } where
  refuses s p t hp := by
    obtain ⟨cause, hcause⟩ := Option.isSome_iff_exists.1 hp
    exact ⟨cause, by simp only [memory, hcause]⟩
  takes s p t hp := by
    have hnone : refusal p = none := Option.not_isSome_iff_eq_none.1 hp
    exact ⟨s.put p t, by simp only [memory, hnone]⟩

end Output

/-- Whether the files and notes of renderings are all taken. -/
def Unrefused (refused : Set Path) (log : NoteLog) (rs : List Rendering) : Prop :=
  (∀ r ∈ rs, r.path ∉ refused) ∧ log.Takes (rs.flatMap Rendering.notes).length

namespace Progress

variable {σ : Type}

/-- Where an emission is after it wrote renderings and noted them. -/
def after (out : Output σ) (p : Progress σ) (rs : List Rendering) : Progress σ :=
  ⟨out.putAll p.output rs, p.log.extend (rs.flatMap Rendering.notes)⟩

theorem after_nil (out : Output σ) (p : Progress σ) : p.after out [] = p := by
  rw [after, List.flatMap_nil, NoteLog.extend_nil]
  rfl

theorem after_append (out : Output σ) (p : Progress σ) (front back : List Rendering) :
    p.after out (front ++ back) = (p.after out front).after out back := by
  simp only [after, List.flatMap_append, NoteLog.extend_append, Output.putAll_append]

end Progress

namespace Catalogue

variable {σ : Type} {c : Catalogue} {o : Options} {out : Output σ} {refused : Set Path}

/-! ### One declaration -/

theorem emitOne_of_taken {p : Progress σ} {id : DeclId} {r : Rendering}
    (hout : out.RefusesExactly refused) (hr : c.render o id = .ok r) (hpath : r.path ∉ refused)
    (hnotes : p.log.Takes r.notes.length) : c.emitOne o out p id = (p.after out [r], .ok r.path) := by
  obtain ⟨s, hput⟩ := hout.takes p.output r.path r.text hpath
  simp only [emitOne, hr, hput, NoteLog.addAll_of_takes hnotes, Progress.after, Output.putAll,
    List.foldl_cons, List.foldl_nil, List.flatMap_singleton]

/-! ### Declarations in front of others -/

theorem emitList_append_of_unrefused (hout : out.RefusesExactly refused) {front : List DeclId}
    {rs : List Rendering} {p : Progress σ} (hrs : front.mapM (c.render o) = .ok rs)
    (hfree : Unrefused refused p.log rs) (back : List DeclId) :
    c.emitList o out p (front ++ back) =
      ((c.emitList o out (p.after out rs) back).1,
        (c.emitList o out (p.after out rs) back).2.map (rs.map Rendering.path ++ ·)) := by
  induction front generalizing rs p with
  | nil =>
    obtain rfl : rs = [] := (Except.ok.inj hrs).symm
    rw [Progress.after_nil, List.nil_append]
    rcases c.emitList o out p back with ⟨p', e | paths⟩
    · rfl
    · rfl
  | cons id front ih =>
    rw [Outcome.mapM_cons] at hrs
    obtain ⟨r, hr, hrs⟩ := Outcome.bind_eq_ok.1 hrs
    obtain ⟨rest, hrest, hrs⟩ := Outcome.bind_eq_ok.1 hrs
    cases hrs
    obtain ⟨hpaths, hnotes⟩ := hfree
    rw [List.flatMap_cons] at hnotes
    have hfirst : p.log.Takes r.notes.length := hnotes.mono (by simp)
    have hone := emitOne_of_taken hout hr (hpaths r (List.mem_cons_self ..)) hfirst
    have hmore : Unrefused refused (p.after out [r]).log rest := by
      refine ⟨fun x hx => hpaths x (List.mem_cons_of_mem _ hx), ?_⟩
      rw [Progress.after, List.flatMap_singleton]
      exact (NoteLog.takes_append_iff hfirst).1 hnotes
    rw [List.cons_append, emitList, hone]
    dsimp only
    rw [ih hrest hmore, ← Progress.after_append, List.singleton_append]
    rcases c.emitList o out (p.after out (r :: rest)) back with ⟨p', e | paths⟩
    · rfl
    · rfl

theorem emitList_of_unrefused (hout : out.RefusesExactly refused) {ids : List DeclId}
    {rs : List Rendering} {p : Progress σ} (hrs : ids.mapM (c.render o) = .ok rs)
    (hfree : Unrefused refused p.log rs) :
    c.emitList o out p ids = (p.after out rs, .ok (rs.map Rendering.path)) := by
  have h := emitList_append_of_unrefused hout hrs hfree []
  rw [List.append_nil] at h
  rw [h]
  simp [emitList, Except.map]

/-- A refusal behind declarations that were taken is the end of the emission. -/
theorem emitList_of_refused (hout : out.RefusesExactly refused) {front back : List DeclId}
    {k : DeclId} {rs : List Rendering} {p p' : Progress σ} {e : EmitError}
    (hrs : front.mapM (c.render o) = .ok rs) (hfree : Unrefused refused p.log rs)
    (hk : c.emitOne o out (p.after out rs) k = (p', .error e)) :
    c.emitList o out p (front ++ k :: back) = (p', .error e) := by
  rw [emitList_append_of_unrefused hout hrs hfree, emitList, hk]
  rfl

end Catalogue

end FlatAidl
