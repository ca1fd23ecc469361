import FlatAidl.Proofs.Catalogue.Forest
import FlatAidl.Proofs.Emission.Progress
import FlatAidl.Proofs.Rendering.Faultless

/-!
Where an emission ends and what it leaves. A declaration is written after everything nested in it;
the first file that the output refuses, the first line that the log refuses or the first declaration
that has no rendering ends the emission. Main statement: exactly the declarations in front of that
one are written and noted, and the declaration itself is written if it was the log that refused.
-/

namespace FlatAidl

namespace Catalogue

variable {σ : Type} {c : Catalogue} {o : Options} {out : Output σ} {refused : Set Path}

/-! ### One declaration that is refused -/

theorem emitOne_of_fault {p : Progress σ} {id : DeclId} {f : Fault}
    (h : c.render o id = .error f) : c.emitOne o out p id = (p, .error (.fault f)) := by
  simp only [emitOne, h]

theorem emitOne_of_refused {p : Progress σ} {id : DeclId} {r : Rendering}
    (hout : out.RefusesExactly refused) (hr : c.render o id = .ok r) (hpath : r.path ∈ refused) :
    ∃ cause, c.emitOne o out p id = (p, .error (.output r.source r.path cause)) := by
  obtain ⟨cause, hput⟩ := hout.refuses p.output r.path r.text hpath
  exact ⟨cause, by simp only [emitOne, hr, hput]⟩

/-- The file is written before the log is asked. -/
theorem emitOne_of_full_log {p : Progress σ} {id : DeclId} {r : Rendering}
    (hout : out.RefusesExactly refused) (hr : c.render o id = .ok r) (hpath : r.path ∉ refused)
    (hnotes : ¬ p.log.Takes r.notes.length) :
    ∃ room, p.log.room = some room ∧ c.emitOne o out p id =
      (⟨out.putAll p.output [r], p.log.extend (r.notes.take room)⟩, .error .notes) := by
  obtain ⟨s, hput⟩ := hout.takes p.output r.path r.text hpath
  obtain ⟨room, hroom, hadd⟩ := NoteLog.addAll_of_not_takes hnotes
  refine ⟨room, hroom, ?_⟩
  simp only [emitOne, hr, hput, hadd, Output.putAll, List.foldl_cons, List.foldl_nil]

/-- A log that took some lines and has no room for all of the next ones holds as many lines of both
as it had room for. -/
theorem emitOne_after_of_full_log {p : Progress σ} {id : DeclId} {r : Rendering}
    {rs : List Rendering} (hout : out.RefusesExactly refused) (hr : c.render o id = .ok r)
    (hpath : r.path ∉ refused) (htakes : p.log.Takes (rs.flatMap Rendering.notes).length)
    (hnotes : ¬ p.log.Takes ((rs ++ [r]).flatMap Rendering.notes).length) :
    ∃ room, p.log.room = some room ∧ c.emitOne o out (p.after out rs) id =
      (⟨out.putAll p.output (rs ++ [r]),
        p.log.extend (((rs ++ [r]).flatMap Rendering.notes).take room)⟩, .error .notes) := by
  rw [List.flatMap_append, List.flatMap_singleton] at hnotes ⊢
  rw [NoteLog.takes_append_iff htakes] at hnotes
  obtain ⟨rest, hrest, hone⟩ :=
    emitOne_of_full_log (p := p.after out rs) hout hr hpath hnotes
  obtain ⟨room, hroom, rfl⟩ := Option.map_eq_some_iff.1 hrest
  refine ⟨room, hroom, ?_⟩
  rw [hone, List.take_append, List.take_of_length_le (htakes room hroom), NoteLog.extend_append,
    Output.putAll_append]
  rfl

/-! ### Everything nested in a declaration -/

theorem Renderable.exists_renderings (h : Renderable c) (o : Options) {id : DeclId}
    (hid : id < c.size) : ∃ rs, (c.emissionOrder id).mapM (c.render o) = .ok rs := by
  refine Outcome.mapM_ok fun k hk => h.exists_render o ?_
  exact h.nested.within_lt_size hid
    ((h.nested.mem_emissionOrder (Nat.zero_lt_of_lt hid)).1 hk)

/-- The emission of a declaration of a finished catalogue goes through everything nested in it, one
directly nested declaration after another, and then through the declaration itself. All of them have
renderings where no type leads to a raw pointer or out of the catalogue. If every file and every
note is taken, all are written in that order and the paths are given. Otherwise the emission stops
at the first declaration without a rendering, with a refused file or with a refused note, and all in
front of it are written and noted; of the three, only a refused note comes after its declaration's
own file. -/
theorem emit_stops_at_first_refusal {ops : List Operation} (hfinish : (build ops).finish = .ok c)
    {id : DeclId} (hid : id < c.size) (o : Options) (hout : out.RefusesExactly refused)
    (p : Progress σ) :
    (∀ root < c.size, c.emissionOrder root = (c.nestedIn root).flatMap c.emissionOrder ++ [root]) ∧
      (SoundReferences c → ∃ rs, (c.emissionOrder id).mapM (c.render o) = .ok rs) ∧
      (∀ rs, (c.emissionOrder id).mapM (c.render o) = .ok rs → Unrefused refused p.log rs →
        c.emit o out p id = (p.after out rs, .ok (rs.map Rendering.path))) ∧
      ∀ front k back rs, c.emissionOrder id = front ++ k :: back →
        front.mapM (c.render o) = .ok rs → Unrefused refused p.log rs →
          (∀ f, c.render o k = .error f →
            c.emit o out p id = (p.after out rs, .error (.fault f))) ∧
          ∀ r, c.render o k = .ok r →
            c.name? k = some r.source ∧ r.path = r.source.path ∧
            (r.path ∈ refused → ∃ cause,
              c.emit o out p id = (p.after out rs, .error (.output r.source r.path cause))) ∧
            (r.path ∉ refused → ¬ p.log.Takes ((rs ++ [r]).flatMap Rendering.notes).length →
              ∃ room, p.log.room = some room ∧ c.emit o out p id =
                (⟨out.putAll p.output (rs ++ [r]),
                  p.log.extend (((rs ++ [r]).flatMap Rendering.notes).take room)⟩,
                  .error .notes)) := by
  have hn := nested_of_finish hfinish
  refine ⟨fun root hroot => hn.emissionOrder_eq hroot, ?_, ?_, ?_⟩
  · intro hreferences
    exact (renderable_of_finish hfinish hreferences).exists_renderings o hid
  · intro rs hrs hfree
    exact emitList_of_unrefused hout hrs hfree
  · intro front k back rs horder hrs hfree
    rw [emit, horder]
    refine ⟨fun f hf => emitList_of_refused hout hrs hfree (emitOne_of_fault hf), fun r hr => ?_⟩
    obtain ⟨d, hd, hsource, hpath⟩ := name_of_render hr
    refine ⟨?_, by rw [hpath, hsource], ?_, ?_⟩
    · rw [name?, hd, hsource]
      rfl
    · intro hrefused
      obtain ⟨cause, hone⟩ := emitOne_of_refused (p := p.after out rs) hout hr hrefused
      exact ⟨cause, emitList_of_refused hout hrs hfree hone⟩
    · intro htaken hnotes
      obtain ⟨room, hroom, hone⟩ := emitOne_after_of_full_log hout hr htaken hfree.2 hnotes
      exact ⟨room, hroom, emitList_of_refused hout hrs hfree hone⟩

def shelfName (names : List String) : QualifiedName :=
  ⟨Text.ofString "hw.shelf", ⟨1, 0⟩, names.map Text.ofString⟩

/-- An interface with two types in it. -/
def shelfOps : List Operation :=
  [.declareInterface (shelfName ["IShelf"]) none,
    .declareCompound .struct (shelfName ["IShelf", "Box"]) (some 1),
    .declareCompound .struct (shelfName ["IShelf", "Lid"]) (some 1)]

/-- The file of a type that is nested in the interface. -/
def shelfPart (name : String) : Rendering :=
  let aidl := Text.ofString "IShelf" ++ Text.ofString name
  ⟨shelfName ["IShelf", name], Text.ofString "hw/shelf/" ++ aidl ++ Text.ofString ".aidl",
    Text.ofString "// FIXME: license file if you have one\n\npackage hw.shelf;\n\nparcelable " ++ aidl ++
      Text.ofString " \x7b\n\x7d\n",
    [Text.ofString "Converted hw.shelf@1.0::IShelf." ++ Text.ofString name ++
      Text.ofString " to hw.shelf." ++ aidl]⟩

def refuseLid (p : Path) : Option Text :=
  if p = (shelfPart "Lid").path then some (Text.ofString "disk full") else none

theorem shelf_stops_at_refused_lid :
    (build shelfOps).finish = .ok (build shelfOps) ∧
      (build shelfOps).emissionOrder 1 = [2] ++ 3 :: [1] ∧ ∃ cause,
        (build shelfOps).emit Options.standard (Output.memory refuseLid)
            ⟨FileMap.empty, NoteLog.empty⟩ 1 =
          (⟨FileMap.empty.put (shelfPart "Box").path (shelfPart "Box").text,
              ⟨(shelfPart "Box").notes, none⟩⟩,
            .error (.output (shelfName ["IShelf", "Lid"]) (shelfPart "Lid").path cause)) := by
  have hfinish : (build shelfOps).finish = .ok (build shelfOps) := by decide
  have horder : (build shelfOps).emissionOrder 1 = [2] ++ 3 :: [1] := by decide
  have hbox : (build shelfOps).render Options.standard 2 = .ok (shelfPart "Box") := by decide +kernel
  have hlid : (build shelfOps).render Options.standard 3 = .ok (shelfPart "Lid") := by decide +kernel
  have hfront : [2].mapM ((build shelfOps).render Options.standard) = .ok [shelfPart "Box"] := by
    rw [Outcome.mapM_cons, hbox]
    rfl
  have hfree : Unrefused { p | (refuseLid p).isSome = true } NoteLog.empty [shelfPart "Box"] := by
    refine ⟨?_, NoteLog.takes_of_unlimited [] _⟩
    intro r hr
    rw [List.mem_singleton.1 hr]
    show ¬ (refuseLid (shelfPart "Box").path).isSome = true
    decide
  have hlt : 1 < (build shelfOps).size := by decide
  have hall := emit_stops_at_first_refusal hfinish hlt Options.standard
    (Output.memory_refusesExactly refuseLid) ⟨FileMap.empty, NoteLog.empty⟩
  obtain ⟨_, hresult⟩ := hall.2.2.2 [2] 3 [1] [shelfPart "Box"] horder hfront hfree
  obtain ⟨_, _, hrefused, _⟩ := hresult (shelfPart "Lid") hlid
  obtain ⟨cause, hemit⟩ :=
    hrefused (show (refuseLid (shelfPart "Lid").path).isSome = true by decide)
  exact ⟨hfinish, horder, cause, hemit⟩

/-- A structured type that holds a raw pointer. -/
def gaugeOps : List Operation :=
  let name : QualifiedName := ⟨Text.ofString "hw.gauge", ⟨1, 0⟩, [Text.ofString "Gauge"]⟩
  [.declareCompound .struct name none,
    .addField 1 ⟨Text.ofString "address", .primitive .pointer, none⟩]

/-- The only file is to be refused, but the declaration has no rendering, so nothing is ever offered
to the output and the emission ends with the fault instead of the refusal. -/
theorem raw_pointer_faults_before_refusal :
    (build gaugeOps).finish = .ok (build gaugeOps) ∧
      (build gaugeOps).emissionOrder 1 = [1] ∧
      (Output.memory fun _ => some (Text.ofString "disk full")).RefusesExactly Set.univ ∧
      (build gaugeOps).emit Options.standard
          (Output.memory fun _ => some (Text.ofString "disk full"))
          ⟨FileMap.empty, NoteLog.empty⟩ 1 =
        (⟨FileMap.empty, NoteLog.empty⟩, .error (.fault (.noCounterpart .pointer))) ∧
      ∀ name path cause, ((build gaugeOps).emit Options.standard
          (Output.memory fun _ => some (Text.ofString "disk full"))
          ⟨FileMap.empty, NoteLog.empty⟩ 1).2 ≠ .error (.output name path cause) := by
  have hrender : (build gaugeOps).render Options.standard 1 =
      .error (.noCounterpart .pointer) := by decide +kernel
  have horder : (build gaugeOps).emissionOrder 1 = [1] := by decide
  have hemit : (build gaugeOps).emit Options.standard
      (Output.memory fun _ => some (Text.ofString "disk full"))
      ⟨FileMap.empty, NoteLog.empty⟩ 1 =
        (⟨FileMap.empty, NoteLog.empty⟩, .error (.fault (.noCounterpart .pointer))) := by
    rw [emit, horder, emitList, emitOne_of_fault hrender]
  refine ⟨by decide, horder, ⟨?_, ?_⟩, hemit, ?_⟩
  · intro s p t _
    exact ⟨_, rfl⟩
  · intro s p t hp
    exact absurd (Set.mem_univ p) hp
  · intro name path cause
    rw [hemit]
    simp

end Catalogue

end FlatAidl
