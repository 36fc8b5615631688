import LetBlocks.Proofs.Output.Insertions
import LetBlocks.Proofs.Output.Recursion
import LetBlocks.Proofs.Output.Runs
import LetBlocks.Proofs.Region.Shapes

/-!
The annotated output is the output without annotations, with comments put in: one that marks
each layer, and one beside the name of each declaration that has a value. That one repeats the
value as it is thrown, but for each `*/` in it, which gets a space between its two bytes. The
value may be any text, with comments and strings in it. It never closes the comment it stands
in, and neither do its first and its last byte together with what stands around them.
-/

namespace LetBlocks.Output

open Node Region

/-- The notes in the layer of a declaration, in their order. -/
def notes (d : Declaration) : List Text :=
  utf8 "/*let*/" :: d.initializer.toList.map echoNote

/-- One block comment and nothing else: its only `*/` is the one at its end, which shares no
byte with its `/*`. -/
def IsNote (text : Text) : Prop :=
  ∃ inside, text = utf8 "/*" ++ inside ++ utf8 "*/" ∧ ClosesLast text

/-! ### Notes -/

/-- What a reader of comments reads to its end has no `*/` before. -/
theorem Closes.closesLast {inside : Text} (h : Closes inside) :
    ClosesLast (inside ++ utf8 "*/") := by
  have hread := h 0 []
  have hsound := readBlockComment_sound 0 (inside ++ utf8 "*/" ++ [])
  rw [hread, if_pos rfl] at hsound
  obtain ⟨inside', hsplit, hlast⟩ := hsound
  rwa [List.append_cancel_right hsplit]

/-- Nor does the star of the opening `/*` close a comment whose contents begin with no
slash. -/
theorem Closes.isNote {inside : Text} (h : Closes inside)
    (hhead : inside.head? ≠ some Byte.slash) : IsNote (utf8 "/*" ++ inside ++ utf8 "*/") := by
  refine ⟨inside, rfl, ?_⟩
  have hhead' : (inside ++ utf8 "*/").head? ≠ some Byte.slash := by
    cases inside with
    | nil => decide
    | cons b inside => exact hhead
  rw [List.append_assoc]
  exact (h.closesLast.cons fun _ hslash => absurd hslash hhead').cons fun hstar =>
    absurd hstar (by decide)

theorem isNote_of_mem_notes {d : Declaration} {note : Text} (h : note ∈ notes d) :
    IsNote note := by
  rcases List.mem_cons.1 h with rfl | h
  · exact closes_layerNote.isNote (by decide)
  · obtain ⟨init, hinit, rfl⟩ := List.mem_map.1 h
    have hvalue : escapeComment (valueText d) = echo (runText true true init) := by
      rw [escapeComment_eq_echo, valueText, Option.mem_toList.1 hinit, Option.elim_some,
        trimmedText_eq_runText]
    have hnote :=
      (closes_valueNote d).isNote (show some Byte.space ≠ some Byte.slash by decide)
    rw [hvalue] at hnote
    rw [echoNote, show utf8 "/* = " = utf8 "/*" ++ utf8 " = " from rfl,
      show utf8 " */" = utf8 " " ++ utf8 "*/" from rfl]
    simpa only [List.append_assoc] using hnote

/-! ### Layers -/

theorem inserted_valueNote (d : Declaration) :
    Text.Inserted (d.initializer.toList.map echoNote)
      (valueNote { es3 := true, annotate := false } d)
      (valueNote { es3 := true, annotate := true } d) := by
  rw [valueNote_eq, valueNote_eq]
  cases d.initializer with
  | none => exact .nil
  | some init => exact .single _

/-- A layer with its notes is the layer without them, with the notes put in. -/
theorem inserted_layerText (d : Declaration) :
    Text.Inserted (notes d) (layerText { es3 := true, annotate := false } d)
      (layerText { es3 := true, annotate := true } d) := by
  have hthrow := Text.Inserted.refl (utf8 "try\x7bthrow " ++ operandText d ++ utf8 "\x7d")
  have hnote : Text.Inserted [utf8 "/*let*/"] (layerNote { es3 := true, annotate := false })
      (layerNote { es3 := true, annotate := true }) := .single _
  have hcatch := Text.Inserted.refl (utf8 "catch(" ++ d.name.lexeme)
  have hlayer :=
    (((hthrow.append hnote).append hcatch).append (inserted_valueNote d)).append
      (.refl (utf8 ")\x7b"))
  simpa only [notes, layerText, List.append_assoc, List.append_nil, List.nil_append,
    List.singleton_append] using hlayer

mutual

theorem writeNode_native (annotate annotate' trim first last : Bool) : ∀ node,
    writeNode { es3 := false, annotate } trim first last node =
      writeNode { es3 := false, annotate := annotate' } trim first last node
  | .plain tokens => by
      rw [writeNode, writeNode]
  | .letBlock header body closing _ => by
      rw [writeNode, writeNode, writeFrom_native annotate annotate' _ true body]
      rfl

theorem writeFrom_native (annotate annotate' trim first : Bool) : ∀ nodes,
    writeFrom { es3 := false, annotate } trim first nodes =
      writeFrom { es3 := false, annotate := annotate' } trim first nodes
  | [] => by
      rw [writeFrom, writeFrom]
  | node :: nodes => by
      rw [writeFrom, writeFrom, writeNode_native annotate annotate' trim first _ node,
        writeFrom_native annotate annotate' trim false nodes]

end

/-- Annotations are comments and change nothing else. With layers, the annotated output is the
other one with the notes of all declarations put in, and every note is one whole block comment,
whatever text it repeats. A native block has no notes. -/
theorem render_annotated (nodes : List Node) :
    Text.Inserted ((declarationsAll nodes).flatMap notes)
      (render { es3 := true, annotate := false } nodes)
        (render { es3 := true, annotate := true } nodes) ∧
      (∀ note ∈ (declarationsAll nodes).flatMap notes, IsNote note) ∧
      render { es3 := false, annotate := true } nodes =
        render { es3 := false, annotate := false } nodes := by
  refine ⟨?_, ?_, ?_⟩
  · rw [render_eq_layered, render_eq_layered]
    exact inserted_layered inserted_layerText nodes
  · intro note hnote
    obtain ⟨d, -, hnote⟩ := List.mem_flatMap.1 hnote
    exact isNote_of_mem_notes hnote
  · rw [render_eq_write, render_eq_write, write, write, writeFrom_native true false]

end LetBlocks.Output
