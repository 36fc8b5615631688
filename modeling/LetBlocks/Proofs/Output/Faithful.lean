import LetBlocks.Proofs.Output.Relex

/-!
`Output.script_written` asks that no run whose blanks are dropped ends in an open literal.
Nothing less would do. Behind each of these runs stands a mark that closes or separates, and an
open literal is never given up before such a mark. So if one of them ends open, the lexer does
not find the pieces that were meant, whatever the rest of the script is.
-/

namespace LetBlocks

open Region Piece

namespace Output

/-! ### The end of a run -/

theorem Stops.not_isUnclosed {p : Piece} {rest : Text} (h : Stops rest)
    (hadmits : p.Admits rest) : p.isUnclosed = false := by
  obtain ⟨b, more, rfl, -, -, hblank, -⟩ := h.byte
  exact not_isUnclosed_of_admits hadmits (Byte.isBlank_eq_false_iff.1 hblank).2

theorem not_isUnclosed_of_closedPieces {expect : Expectation} {ts : List Token} {rest : Text}
    (h : Chain expect (closedPieces ts) rest) (hstops : Stops rest) :
    ∀ t ∈ ts.getLast?, t.toPiece.isUnclosed = false := by
  intro t ht
  have hlast : ts.getLast? = some t := ht
  by_cases hkind : t.kind = .lineComment
  · have hmem : t.toPiece ∈ closedPieces ts :=
      List.mem_append_left _ (List.mem_map_of_mem (List.mem_of_getLast? hlast))
    obtain ⟨_, _, hread⟩ := h.exists_reads _ hmem
    exact hread.not_isUnclosed_of_lineComment hkind
  · rw [closedPieces, hlast, if_neg (by simpa using hkind), List.append_nil] at h
    refine hstops.not_isUnclosed (h.last_admits _ ?_)
    rw [copied, List.getLast?_map, hlast]
    rfl

theorem endsOpen_of_trimmedPieces {expect : Expectation} {ts : List Token} {rest : Text}
    (h : Chain expect (trimmedPieces ts) rest) (hstops : Stops rest) :
    endsOpen ts = false := by
  rw [← endsOpen_trimStart, endsOpen_eq_false_iff]
  exact not_isUnclosed_of_closedPieces h hstops

/-! ### Blocks -/

theorem endsOpen_of_operandPieces {expect : Expectation} {d : Declaration} {rest : Text}
    (h : Chain expect (operandPieces d) rest) (hstops : Stops rest) :
    d.initializer.any endsOpen = false := by
  unfold operandPieces valuePieces at h
  cases hinit : d.initializer with
  | none => rfl
  | some init =>
      simp only [hinit, Option.any_some, Option.elim_some] at h ⊢
      split_ifs at h
      · rw [List.cons_append, chain_mark (by decide) (by decide), chain_append] at h
        exact endsOpen_of_trimmedPieces h.1 (stops_mark (by decide) [] rest)
      · exact endsOpen_of_trimmedPieces h hstops

theorem endsOpen_of_layerPieces (style : Style) {expect : Expectation} {used : List Token}
    {d : Declaration} {rest : Text} (hd : Header.IsDeclaration used d)
    (h : Chain expect (layerPieces style d) rest) : endsOpen d.tokens = false := by
  rw [layerPieces_eq] at h
  obtain ⟨-, -, -, -, hoperand⟩ := h
  rw [chain_append] at hoperand
  rw [endsOpen_declaration hd]
  exact endsOpen_of_operandPieces hoperand.1 (stops_mark (by decide) _ rest)

theorem endsOpen_of_layers (style : Style) {expect : Expectation} {ds : List Declaration}
    {rest : Text} (hds : ∀ d ∈ ds, ∃ used, Header.IsDeclaration used d)
    (h : Chain expect (ds.flatMap (layerPieces style)) rest) :
    ∀ d ∈ ds, endsOpen d.tokens = false := by
  induction ds generalizing expect with
  | nil => simp
  | cons d ds ih =>
      rw [List.forall_mem_cons] at hds ⊢
      obtain ⟨⟨used, hused⟩, hmore⟩ := hds
      rw [List.flatMap_cons, chain_append] at h
      exact ⟨endsOpen_of_layerPieces style hused h.1, ih hmore h.2⟩

theorem endsOpen_of_nativeList {expect : Expectation} {ds : List Declaration} {rest : Text}
    (h : Chain expect ([mark ",", gap].intercalate (ds.map fun d => trimmedPieces d.tokens) ++
      [mark ";"]) rest) :
    ∀ d ∈ ds, endsOpen d.tokens = false := by
  induction ds generalizing expect with
  | nil => simp
  | cons d ds ih =>
      cases ds with
      | nil =>
          rw [List.map_singleton, List.intercalate_singleton, chain_append] at h
          rw [List.forall_mem_singleton]
          exact endsOpen_of_trimmedPieces h.1 (stops_mark (by decide) [] rest)
      | cons d' ds =>
          rw [List.map_cons, List.map_cons, List.intercalate_cons_cons, List.append_assoc,
            List.append_assoc, chain_append] at h
          rw [List.forall_mem_cons]
          obtain ⟨hd, -, -, hmore⟩ := h
          exact ⟨endsOpen_of_trimmedPieces hd (stops_mark (by decide) _ rest), ih hmore⟩

theorem endsOpen_of_openingPieces (style : Style) {expect : Expectation} {header : Header}
    {rest : Text} (hheader : Header.IsHeader header.tokens header.declarations)
    (h : Chain expect (openingPieces style header) rest) :
    ∀ d ∈ header.declarations, endsOpen d.tokens = false := by
  rw [openingPieces, if_neg hheader.ne_nil] at h
  split_ifs at h
  · exact endsOpen_of_layers style hheader.each h
  · rw [nativePieces_eq] at h
    obtain ⟨-, -, -, -, hlist⟩ := h
    exact endsOpen_of_nativeList hlist

/-! ### The tree -/

/-- The run before the brace that closes a body. -/
theorem endsOpen_of_lastRun (style : Style) {expect : Expectation} {first : Bool}
    {nodes : List Node} {rest : Text}
    (h : Chain expect (writtenFrom style true first nodes) rest) (hstops : Stops rest) :
    ∀ run ∈ Node.lastRun nodes, endsOpen run = false := by
  induction nodes generalizing expect first with
  | nil => simp [Node.lastRun]
  | cons node nodes ih =>
      rw [writtenFrom, chain_append] at h
      cases nodes with
      | cons node' nodes => exact ih h.2
      | nil =>
          cases node with
          | letBlock header body closing span => simp [Node.lastRun]
          | plain ts =>
              refine List.forall_mem_singleton.2 ?_
              have hrun :=
                not_isUnclosed_of_closedPieces h.1 (by simpa [writtenFrom] using hstops)
              rw [← endsOpen_eq_false_iff] at hrun
              cases first with
              | false => exact hrun
              | true => rwa [← endsOpen_trimStart]

mutual

theorem endsOpen_of_writtenNode (style : Style) :
    ∀ (node : Node) {expect : Expectation} {trim first last : Bool}
    {rest : Text}, node.WellFormed →
      Chain expect (writtenNode style trim first last node) rest →
    ∀ run ∈ node.trimmedRuns, endsOpen run = false
  | .plain _, _, _, _, _, _, _, _ => by simp [Node.trimmedRuns]
  | .letBlock header body closing _, expect, _, _, _, rest, hwell, h => by
      obtain ⟨hheader, -, hbody⟩ := hwell
      rw [writtenNode, trimsBody_eq_true hheader.ne_nil, chain_append, chain_append] at h
      obtain ⟨⟨hopening, hinner⟩, -⟩ := h
      rw [Node.trimmedRuns, List.forall_mem_append, List.forall_mem_append,
        List.forall_mem_map]
      exact ⟨⟨endsOpen_of_openingPieces style hheader hopening,
          endsOpen_of_lastRun style hinner
            (stops_closingPieces style hheader.ne_nil closing rest)⟩,
        endsOpen_of_writtenFrom style body hbody hinner⟩

theorem endsOpen_of_writtenFrom (style : Style) :
    ∀ (nodes : List Node) {expect : Expectation} {trim first : Bool}
    {rest : Text}, Node.WellFormedAll nodes →
      Chain expect (writtenFrom style trim first nodes) rest →
    ∀ run ∈ Node.trimmedRunsAll nodes, endsOpen run = false
  | [], _, _, _, _, _, _ => by simp [Node.trimmedRunsAll]
  | node :: nodes, _, _, _, _, hwell, h => by
      rw [writtenFrom, chain_append] at h
      rw [Node.trimmedRunsAll, List.forall_mem_append]
      exact ⟨endsOpen_of_writtenNode style node hwell.1 h.1,
        endsOpen_of_writtenFrom style nodes hwell.2.2.2 h.2⟩

end

/-! ### Whole scripts -/

/-- The output of a script is a script exactly if no run that is trimmed ends in an open
literal. -/
theorem script_written_iff (style : Style) {nodes : List Node}
    (hwell : Node.WellFormedAll nodes) (h : Script (copied (Node.tokensAll nodes))) :
    Script (written style nodes) ↔
      ∀ run ∈ Node.trimmedRunsAll nodes, endsOpen run = false := by
  refine ⟨fun hwritten => ?_, fun hruns => script_written style hwell hruns h⟩
  generalize hps : written style nodes = ps at hwritten
  cases hwritten with
  | plain _ hchain =>
      subst hps
      exact endsOpen_of_writtenFrom style nodes hwell hchain
  | @hashbang p ps hbang _ hchain =>
      -- the output starts with a hashbang line only if the source does, and then it is the
      -- same line
      generalize hpieces : copied (Node.tokensAll nodes) = pieces at h
      cases h with
      | plain hnot hsource =>
          subst hpieces
          refine absurd ?_ (not_hashbang_written style hwell hsource hnot)
          rw [hps, spell_cons]
          exact hbang.2.1.trans (List.prefix_append _ _)
      | @hashbang q qs hbang' _ _ =>
          obtain ⟨nodes', hwell', -, hruns, hwritten⟩ :=
            exists_written_hashbang style hwell hpieces hbang'
          obtain ⟨rfl, rfl⟩ := List.cons.inj (hwritten.symm.trans hps)
          rw [← hruns]
          exact endsOpen_of_writtenFrom style nodes' hwell' hchain

end Output

/-- Pieces of a text are known by their kinds and texts. -/
theorem Piece.stream_eq_map_settled_iff {text : Text} {ps : List Piece} :
    stream text = ps.map settled ↔
      (stream text).map (fun p => (p.kind, p.lexeme)) =
        ps.map fun p => (p.kind, p.lexeme) := by
  constructor
  · intro h
    rw [h, List.map_map]
    rfl
  · intro h
    have hsettled := congrArg (List.map fun q => settled { kind := q.1, lexeme := q.2 }) h
    rw [List.map_map, List.map_map] at hsettled
    exact (map_settled_stream text).symm.trans hsettled

/-- The tokens of the output are the pieces that were meant exactly if no run whose blanks are
dropped ends in an open literal. Open literals elsewhere do no harm. -/
theorem tokens_compile_iff (style : Style) (text : Text) :
    (Token.lex (Source.ofText (compile style text))).tokens.map (fun t => (t.kind, t.lexeme)) =
        (Output.written style (Node.parse (Token.lex (Source.ofText text)).tokens).nodes).map
            (fun p => (p.kind, p.lexeme)) ++ [(.eof, [])] ↔
      ∀ run ∈ Node.trimmedRunsAll (Node.parse (Token.lex (Source.ofText text)).tokens).nodes,
        Output.endsOpen run = false := by
  rw [← Output.script_written_iff style (Node.parse_spec _).1 (Output.script_parse text),
    script_iff, ← Output.compile_eq_spell]
  obtain ⟨ts, htokens, -, hpieces, -⟩ :=
    Token.exists_lex_script (Source.ofText (compile style text))
  have hts : ts.map (fun t => (t.kind, t.lexeme)) =
      (stream (compile style text)).map fun p => (p.kind, p.lexeme) := by
    have hshapes := congrArg (List.map fun p => (p.kind, p.lexeme)) hpieces
    rwa [List.map_map, List.map_map] at hshapes
  rw [stream_eq_map_settled_iff, ← hts, htokens, List.map_append]
  exact List.append_left_inj _

end LetBlocks
