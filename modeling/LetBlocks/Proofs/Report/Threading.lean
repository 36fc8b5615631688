import LetBlocks.Compile
import LetBlocks.Proofs.Node.Run
import LetBlocks.Proofs.Token.Tiling

/-!
The journal that the stages of a compilation hand on to each other. A stage that is given a
journal with something in it works as it does with an empty one, and leaves behind what was
there just what it leaves in the empty one. For the parser this is shown step by step: every
step commutes with putting what the journal holds behind `before`.
-/

namespace LetBlocks

namespace Node

namespace Progress

/-- The same progress, with what its journal holds put behind `before`. -/
def onto (before : Journal) (p : Progress) : Progress :=
  { p with journal := before.recordAll p.journal.toList }

variable (before : Journal) (p : Progress)

theorem record_onto (d : Diagnostic) :
    onto before { p with journal := p.journal.record d } =
      { p.onto before with journal := (p.onto before).journal.record d } := by
  simp only [onto, Journal.recordAll_toList_record]

theorem warn_onto (problem : Problem) (span : Span) :
    (p.warn problem span).onto before = (p.onto before).warn problem span :=
  record_onto before p (problem.diagnostic span)

theorem append_onto (t : Token) : (p.append t).onto before = (p.onto before).append t := rfl

theorem openBlock_onto (t : Token) (header : Header) :
    (p.openBlock t header).onto before = (p.onto before).openBlock t header := rfl

theorem closeBlock_onto (closing : Option Token) (stop : Location) :
    (p.closeBlock closing stop).onto before = (p.onto before).closeBlock closing stop := by
  unfold closeBlock
  rw [show (p.onto before).around = p.around from rfl]
  cases p.around <;> rfl

theorem takeCloser_onto (t : Token) (bracket : Bracket) :
    (p.takeCloser t bracket).onto before = (p.onto before).takeCloser t bracket := by
  have hscope : (p.onto before).scope = p.scope := rfl
  have haround : (p.onto before).around = p.around := rfl
  have hclose : ∀ q : Progress,
      onto before { q.closeBlock (some t) t.span.stop with last := some t } =
        { (q.onto before).closeBlock (some t) t.span.stop with last := some t } := by
    intro q
    rw [← closeBlock_onto]
    rfl
  unfold takeCloser
  rw [hscope, haround]
  dsimp only
  split
  · split_ifs
    · rw [← warn_onto]
      rfl
    · rfl
  · split_ifs
    · cases p.scope.brackets with
      | nil => exact hclose p
      | cons inner brackets => rw [hclose, warn_onto]
    · rw [append_onto, warn_onto]
    · rfl

theorem take_onto (t : Token) : (p.take t).onto before = (p.onto before).take t := by
  unfold take
  split
  · rfl
  · exact takeCloser_onto before p t _
  · rfl

/-- The run lemma: the tokens are read in the same way with any journal. -/
theorem run_onto (ts : List Token) : (p.run ts).onto before = (p.onto before).run ts := by
  fun_induction run p ts with
  | case1 p => rw [run]
  | case2 p t rest hstart header rest' hread ih =>
      rw [ih, run_of_found (p := p.onto before) hstart.1 hstart.2 hread, openBlock_onto]
  | case3 p t rest hstart d hread ih =>
      rw [ih, run_of_faulty (p := p.onto before) hstart.1 hstart.2 hread, take_onto,
        record_onto]
      rfl
  | case4 p t rest hstart hread ih =>
      rw [ih, run_of_absent (p := p.onto before) hstart.1 hstart.2 hread, take_onto]
  | case5 p t rest hstart ih => rw [ih, run_of_plain (p := p.onto before) hstart, take_onto]

theorem finish_onto (stop : Location) :
    (p.finish stop).onto before = (p.onto before).finish stop := by
  have habandon : ∀ (q : Progress) (b : OpenBlock),
      (abandon stop q b).onto before = abandon stop (q.onto before) b := by
    intro q b
    rw [abandon, closeBlock_onto, warn_onto, abandon]
  exact (List.foldl_hom (onto before) fun q b => (habandon q b).symm).symm

end Progress

/-- The parser builds the same tree with any journal, and puts the same reports behind what the
journal holds. -/
theorem journal_parse (journal : Journal) (tokens : List Token) :
    journal.parse tokens =
      ((parse tokens).nodes, journal.recordAll (parse tokens).diagnostics) := by
  have hstart : Progress.onto journal {} = { journal } := rfl
  have honto := Progress.finish_onto journal
    (({} : Progress).run (tokens.takeWhile (!·.isEof))) (tokens.getLast?.elim {} (·.span.stop))
  rw [Progress.run_onto, hstart] at honto
  rw [Journal.parse, ← honto]
  rfl

theorem map_filed_parse (tokens : List Token) :
    (parse tokens).diagnostics.map Diagnostic.filed = (parse tokens).diagnostics := by
  have hfresh := congrArg (fun result => result.2.toList) (journal_parse {} tokens)
  exact ((Journal.toList_recordAll {} _).symm.trans hfresh.symm :)

end Node

theorem map_filed_stages (source : Source) (regions : List Region) :
    let lexed := Token.lexAlong source regions
    let parsed := Node.parse lexed.tokens
    (lexed.diagnostics ++ parsed.diagnostics).map Diagnostic.filed =
      lexed.diagnostics ++ parsed.diagnostics := by
  intro lexed parsed
  rw [List.map_append, Node.map_filed_parse, Token.diagnostics_lexAlong,
    Token.map_filed_reports]

/-- A source is compiled in the same way with any journal, and what the stages report of it
comes behind what the journal holds. -/
theorem Journal.compilation_spelled_out (journal : Journal) (style : Style) (source : Source)
    (regions : List Region) :
    let lexed := Token.lexAlong source regions
    let parsed := Node.parse lexed.tokens
    journal.compilation style source regions =
      ({ source
         tokens := lexed.tokens
         nodes := parsed.nodes
         output := Output.render style parsed.nodes
         diagnostics := lexed.diagnostics ++ parsed.diagnostics },
        journal.recordAll (lexed.diagnostics ++ parsed.diagnostics)) := by
  intro lexed parsed
  have hsince := journal.since_recordAll (lexed.diagnostics ++ parsed.diagnostics)
  rw [map_filed_stages] at hsince
  rw [compilation, Token.journal_lexAlong]
  dsimp only
  rw [Node.journal_parse]
  dsimp only
  rw [← recordAll_append, hsince]

/-- The diagnostics of a source are those of the stages, one after the other. -/
theorem Compilation.along_eq (style : Style) (source : Source) (regions : List Region) :
    let lexed := Token.lexAlong source regions
    let parsed := Node.parse lexed.tokens
    along style source regions =
      { source
        tokens := lexed.tokens
        nodes := parsed.nodes
        output := Output.render style parsed.nodes
        diagnostics := lexed.diagnostics ++ parsed.diagnostics } := by
  rw [along, Journal.compilation_spelled_out]

theorem Compilation.of_eq (style : Style) (source : Source) :
    Compilation.of style source =
      { source
        tokens := (Token.lex source).tokens
        nodes := (Node.parse (Token.lex source).tokens).nodes
        output := Output.render style (Node.parse (Token.lex source).tokens).nodes
        diagnostics := (Token.lex source).diagnostics ++
          (Node.parse (Token.lex source).tokens).diagnostics } :=
  along_eq style source _

theorem compile_eq_render (style : Style) (text : Text) :
    compile style text =
      Output.render style (Node.parse (Token.lex (Source.ofText text)).tokens).nodes := by
  rw [compile, Compilation.of_eq]

namespace Journal

variable (journal : Journal) (style : Style) (source : Source) (regions : List Region)

theorem compilation_eq :
    journal.compilation style source regions =
      (Compilation.along style source regions,
        journal.recordAll (Compilation.along style source regions).diagnostics) := by
  rw [compilation_spelled_out, Compilation.along_eq]

/-- What a source is compiled with is kept, and its diagnostics come behind it. -/
theorem toList_compilation :
    (journal.compilation style source regions).2.toList =
      journal.toList ++ (Compilation.along style source regions).diagnostics := by
  rw [compilation_eq, toList_recordAll, Compilation.along_eq]
  exact congrArg _ (map_filed_stages source regions)

theorem since_compilation :
    (journal.compilation style source regions).2.since journal.size =
      (Compilation.along style source regions).diagnostics := by
  rw [since, toList_compilation]
  exact List.drop_left

end Journal

end LetBlocks
