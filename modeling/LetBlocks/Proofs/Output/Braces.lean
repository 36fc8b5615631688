import LetBlocks.Proofs.Output.Faithful

/-!
A let-block that is written anew opens as many braces as it closes, in either style, whether or
not its source had a closing brace. All other braces are copied with the tokens that hold them.
So the braces of the output balance like those of the source, but for one more closing brace
for each block that ran into the end of the script. They are braces for the lexer too, as long
as no literal that was left open comes to stand directly before them.
-/

namespace LetBlocks

namespace Piece

/-- What a piece adds to the number of open braces. -/
def curl (p : Piece) : Int :=
  if p.kind = .punct ∧ p.lexeme = [Byte.openCurly] then 1
  else if p.kind = .punct ∧ p.lexeme = [Byte.closeCurly] then -1
  else 0

/-- How many more braces are opened by pieces than closed. -/
def net : List Piece → Int
  | [] => 0
  | p :: ps => p.curl + net ps

@[simp] theorem net_nil : net [] = 0 := rfl

@[simp] theorem net_cons (p : Piece) (ps : List Piece) : net (p :: ps) = p.curl + net ps := rfl

@[simp] theorem net_append (ps qs : List Piece) : net (ps ++ qs) = net ps + net qs := by
  induction ps with
  | nil => simp
  | cons p ps ih => rw [List.cons_append, net_cons, net_cons, ih, Int.add_assoc]

theorem curl_of_kind {p : Piece} (h : p.kind ≠ .punct) : p.curl = 0 := by
  simp [curl, h]

theorem curl_of_lexeme {p : Piece} {text : Text} (h : p.lexeme = text)
    (htext : text ≠ [Byte.openCurly] ∧ text ≠ [Byte.closeCurly]) : p.curl = 0 := by
  simp [curl, h, htext]

/-- Whether literals are said to be closed does not matter. -/
theorem net_map_closed {f : Piece → Bool} (ps : List Piece) :
    net (ps.map fun p => { p with closed := f p }) = net ps := by
  induction ps with
  | nil => rfl
  | cons p ps ih =>
      rw [List.map_cons, net_cons, net_cons, ih]
      rfl

end Piece

open Piece Output

namespace Token

def net (ts : List Token) : Int :=
  (ts.countP (·.isPunct [Byte.openCurly]) : Int) - ts.countP (·.isPunct [Byte.closeCurly])

theorem curl_toPiece (t : Token) :
    t.toPiece.curl =
      (if t.isPunct [Byte.openCurly] then 1 else 0) -
        (if t.isPunct [Byte.closeCurly] then 1 else 0) := by
  simp only [curl, toPiece_kind, toPiece_lexeme, ← isPunct_iff]
  split_ifs with hopen hclose hclose
  · rw [isPunct_eq_false hopen (by decide)] at hclose
    cases hclose
  all_goals rfl

theorem net_eq (ts : List Token) : net ts = Piece.net (ts.map toPiece) := by
  induction ts with
  | nil => rfl
  | cons t ts ih =>
      rw [List.map_cons, net_cons, ← ih, curl_toPiece, net, net, List.countP_cons,
        List.countP_cons]
      split_ifs <;> omega

theorem curl_of_isTrivia {t : Token} (h : t.isTrivia = true) : t.toPiece.curl = 0 := by
  refine curl_of_kind fun hpunct => ?_
  rw [isTrivia_of_kind_punct hpunct] at h
  cases h

theorem curl_of_isPunct {t : Token} {text : Text} (h : t.isPunct text = true)
    (htext : text ≠ [Byte.openCurly] ∧ text ≠ [Byte.closeCurly]) : t.toPiece.curl = 0 :=
  curl_of_lexeme (isPunct_iff.1 h).2 htext

end Token

namespace Output

/-! ### Runs -/

variable {ts : List Token}

theorem net_copied_nil : net (copied []) = 0 := rfl

theorem net_copied_cons (t : Token) (ts : List Token) :
    net (copied (t :: ts)) = t.toPiece.curl + net (copied ts) :=
  net_cons _ _

theorem net_copied_append (ts us : List Token) :
    net (copied (ts ++ us)) = net (copied ts) + net (copied us) := by
  rw [copied_append, net_append]

theorem net_trivia (h : ∀ t ∈ ts, t.isTrivia = true) : net (copied ts) = 0 := by
  induction ts with
  | nil => rfl
  | cons t ts ih =>
      rw [List.forall_mem_cons] at h
      rw [net_copied_cons, Token.curl_of_isTrivia h.1, ih h.2, Int.zero_add]

theorem net_blanks (h : ∀ t ∈ ts, t.isBlank = true) : net (copied ts) = 0 :=
  net_trivia fun t ht => by
    simp [Token.isTrivia, Token.Kind.isTrivia, show t.kind.isBlank = true from h t ht]

theorem net_trimStart (ts : List Token) : net (copied (trimStart ts)) = net (copied ts) := by
  obtain ⟨blanks, hsplit, hblanks⟩ := exists_trimStart ts
  conv_rhs => rw [hsplit, net_copied_append, net_blanks hblanks, Int.zero_add]

theorem net_trimEnd (ts : List Token) : net (copied (trimEnd ts)) = net (copied ts) := by
  obtain ⟨blanks, hsplit, hblanks⟩ := exists_trimEnd ts
  conv_rhs => rw [hsplit, net_copied_append, net_blanks hblanks, Int.add_zero]

theorem net_closedPieces (ts : List Token) : net (closedPieces ts) = net (copied ts) := by
  rw [closedPieces, net_append]
  split_ifs <;> simp [lineFeed, curl]

theorem net_trimmedPieces (ts : List Token) : net (trimmedPieces ts) = net (copied ts) := by
  rw [trimmedPieces, net_closedPieces, net_trimEnd, net_trimStart]

theorem net_plainPieces (trim first last : Bool) (ts : List Token) :
    net (plainPieces trim first last ts) = net (copied ts) := by
  have hstart : net (copied (if trim && first then trimStart ts else ts)) =
      net (copied ts) := by
    split_ifs
    · exact net_trimStart ts
    · rfl
  rw [← hstart, plainPieces]
  generalize (if trim && first then trimStart ts else ts) = us
  split_ifs
  · rw [net_closedPieces, net_trimEnd]
  · rfl

/-! ### Headers -/

theorem curl_identifier {t : Token} (h : t.kind = .identifier) : t.toPiece.curl = 0 := by
  refine curl_of_kind fun hpunct => ?_
  cases h.symm.trans hpunct

/-- All braces of a declaration are those of its initializer. -/
theorem net_declaration {used : List Token} {d : Declaration}
    (h : Header.IsDeclaration used d) :
    net (copied used) = net (copied d.tokens) ∧
      net (copied d.tokens) = d.initializer.elim 0 fun init => net (copied init) := by
  cases h with
  | bare hbefore hname hafter =>
      simp only [net_copied_append, net_copied_cons, net_trivia hbefore, net_trivia hafter,
        curl_identifier hname]
      exact ⟨rfl, rfl⟩
  | valued hbefore hname hgap hequals hinit =>
      simp only [net_copied_append, net_copied_cons, net_trivia hbefore, net_trivia hgap,
        curl_identifier hname, Token.curl_of_isPunct hequals (by decide), List.cons_append,
        Int.zero_add, Option.elim_some]
      exact ⟨trivial, trivial⟩

def netAll : List Declaration → Int
  | [] => 0
  | d :: ds => net (copied d.tokens) + netAll ds

theorem net_list {used : List Token} {ds : List Declaration} (h : Header.IsList used ds) :
    net (copied used) = netAll ds := by
  have hseparator : ∀ {t : Token}, Header.isComma t = true ∨ Header.isCloseParen t = true →
      t.toPiece.curl = 0 := by
    rintro t (ht | ht) <;> exact Token.curl_of_isPunct ht (by decide)
  induction h with
  | last hd hclose =>
      rw [net_copied_append, net_copied_cons, hseparator (.inr hclose), (net_declaration hd).1]
      simp [netAll, copied]
  | trailing hd hcomma hgap hclose =>
      rw [net_copied_append, net_copied_cons, net_copied_append, net_copied_cons,
        hseparator (.inr hclose), hseparator (.inl hcomma), net_trivia hgap,
        (net_declaration hd).1]
      simp [netAll, copied]
  | cons hd hcomma hmore ih =>
      rw [net_copied_append, net_copied_cons, hseparator (.inl hcomma), (net_declaration hd).1,
        ih]
      simp [netAll]

/-- A header opens one brace more than its declarations. -/
theorem net_header {tokens : List Token} {ds : List Declaration}
    (h : Header.IsHeader tokens ds) : net (copied tokens) = 1 + netAll ds := by
  cases h with
  | @intro letToken paren brace gap list after _ hlet hgap hparen hlist hafter hbrace =>
      have hletCurl : letToken.toPiece.curl = 0 :=
        curl_of_kind (by rw [Token.toPiece_kind, hlet]; decide)
      have hbraceCurl : brace.toPiece.curl = 1 := if_pos (Token.isPunct_iff.1 hbrace)
      simp only [net_copied_append, net_copied_cons, net_trivia hgap, net_trivia hafter,
        net_list hlist, net_copied_nil, List.cons_append, hletCurl, hbraceCurl,
        Token.curl_of_isPunct hparen (by decide)]
      omega

/-! ### Blocks -/

theorem net_operandPieces {used : List Token} {d : Declaration}
    (h : Header.IsDeclaration used d) : net (operandPieces d) = net (copied d.tokens) := by
  have hvalue : net (valuePieces d) = net (copied d.tokens) := by
    rw [(net_declaration h).2, valuePieces]
    cases d.initializer with
    | none => rfl
    | some init => exact net_trimmedPieces init
  unfold operandPieces
  split_ifs
  · have hopen : (mark "(").curl = 0 := rfl
    have hclose : net [mark ")"] = 0 := rfl
    rw [List.cons_append, net_cons, net_append, hvalue, hopen, hclose, Int.zero_add,
      Int.add_zero]
  · exact hvalue

/-- A layer opens two braces and closes one. -/
theorem net_layerPieces (style : Style) {used : List Token} {d : Declaration}
    (h : Header.IsDeclaration used d) :
    net (layerPieces style d) = 1 + net (copied d.tokens) := by
  have hlayer : net (layerNotePieces style) = 0 := by
    unfold layerNotePieces
    split_ifs <;> rfl
  have hvalue : net (valueNotePieces style d) = 0 := by
    unfold valueNotePieces
    split_ifs <;> rfl
  have hcatch : net [word "catch", mark "(", d.name.toPiece] = 0 := by
    simp only [net_cons, net_nil, curl_identifier h.kind_name]
    rfl
  have htry : net [word "try", mark "\x7b", word "throw", gap] = 1 := rfl
  have hclose : net [mark "\x7d"] = -1 := rfl
  have hopen : net [mark ")", mark "\x7b"] = 1 := rfl
  simp only [layerPieces, net_append, net_operandPieces h, hlayer, hvalue, hcatch, htry,
    hclose, hopen]
  omega

theorem net_layers (style : Style) {ds : List Declaration}
    (h : ∀ d ∈ ds, ∃ used, Header.IsDeclaration used d) :
    net (ds.flatMap (layerPieces style)) = ds.length + netAll ds := by
  induction ds with
  | nil => rfl
  | cons d ds ih =>
      rw [List.forall_mem_cons] at h
      obtain ⟨⟨used, hused⟩, hds⟩ := h
      rw [List.flatMap_cons, net_append, net_layerPieces style hused, ih hds, netAll,
        List.length_cons]
      omega

theorem net_intercalate {separator : List Piece} (h : net separator = 0)
    (runs : List (List Piece)) : net (separator.intercalate runs) = net runs.flatten := by
  induction runs with
  | nil => rfl
  | cons run runs ih =>
      cases runs with
      | nil => simp
      | cons run' runs =>
          have hrest : (run :: run' :: runs).flatten = run ++ (run' :: runs).flatten :=
            List.flatten_cons
          rw [List.intercalate_cons_cons, net_append, net_append, ih, h, Int.add_zero, hrest,
            net_append]

theorem net_nativePieces (ds : List Declaration) : net (nativePieces ds) = 1 + netAll ds := by
  have hlet : net [mark "\x7b", gap, letWord, gap] = 1 := rfl
  have hend : net [mark ";"] = 0 := rfl
  have hruns : net (ds.map fun d => trimmedPieces d.tokens).flatten = netAll ds := by
    induction ds with
    | nil => rfl
    | cons d ds ih =>
        rw [List.map_cons, List.flatten_cons, net_append, net_trimmedPieces, ih, netAll]
  rw [nativePieces, net_append, net_append, net_intercalate rfl, hruns, hlet, hend,
    Int.add_zero]

/-- What is written around the body of a let-block has the braces of its header and closes the
one for the body. -/
theorem net_openingPieces (style : Style) {header : Header} (closing : Option Token)
    (h : Header.IsHeader header.tokens header.declarations) :
    net (openingPieces style header) + net (closingPieces style header closing) =
      net (copied header.tokens) - 1 := by
  have hbraces : ∀ n, net (List.replicate n (mark "\x7d")) = -n := by
    intro n
    induction n with
    | zero => rfl
    | succ n ih =>
        have hbrace : (mark "\x7d").curl = -1 := rfl
        rw [List.replicate_succ, net_cons, ih, hbrace]
        omega
  rw [net_header h, openingPieces, closingPieces, if_neg h.ne_nil, if_neg h.ne_nil]
  split_ifs
  · rw [net_layers style h.each, hbraces]
    omega
  · have hbrace : net [mark "\x7d"] = -1 := rfl
    rw [net_nativePieces, hbrace]
    omega

end Output

/-! ### The tree -/

namespace Node

mutual

/-- The let-blocks that ran into the end of the script, at all depths. -/
def unterminated : Node → Nat
  | plain _ => 0
  | letBlock _ body closing _ => (if closing.isNone then 1 else 0) + unterminatedAll body

def unterminatedAll : List Node → Nat
  | [] => 0
  | node :: nodes => node.unterminated + unterminatedAll nodes

end

end Node

namespace Output

mutual

theorem net_writtenNode (style : Style) (trim first last : Bool) :
    ∀ {node : Node}, node.WellFormed →
    net (writtenNode style trim first last node) = net (copied node.tokens) - node.unterminated
  | .plain ts, _ => by
      rw [writtenNode, net_plainPieces, Node.tokens, Node.unterminated]
      omega
  | .letBlock header body closing _, hwell => by
      obtain ⟨hheader, hclosing, hbody⟩ := hwell
      have hblock := net_openingPieces style closing hheader
      have hbrace : net (copied closing.toList) = if closing.isNone then 0 else -1 := by
        cases closing with
        | none => rfl
        | some t =>
            obtain ⟨hkind, hlexeme⟩ := Token.closes?_eq_some_iff.1 (hclosing t rfl).1
            have hcurl : t.toPiece.curl = -1 := by
              simp only [curl, Token.toPiece_kind, hkind, Token.toPiece_lexeme, hlexeme]
              rfl
            rw [Option.toList_some, net_copied_cons, hcurl]
            rfl
      rw [writtenNode, net_append, net_append, net_writtenFrom style _ _ hbody, Node.tokens,
        net_copied_append, net_copied_append, hbrace, Node.unterminated]
      split_ifs <;> omega

theorem net_writtenFrom (style : Style) (trim first : Bool) :
    ∀ {nodes : List Node}, Node.WellFormedAll nodes →
    net (writtenFrom style trim first nodes) =
      net (copied (Node.tokensAll nodes)) - Node.unterminatedAll nodes
  | [], _ => rfl
  | node :: nodes, hwell => by
      rw [writtenFrom, net_append, net_writtenNode style _ _ _ hwell.1,
        net_writtenFrom style _ _ hwell.2.2.2, Node.tokensAll, net_copied_append,
        Node.unterminatedAll]
      omega

end

end Output

/-! ### The output -/

/-- What the lexer makes of a text has the braces of its pieces. -/
theorem Token.net_lex (source : Source) :
    net (lex source).tokens = Piece.net (stream source.content) := by
  obtain ⟨ts, htokens, -, hpieces, -⟩ := exists_lex_script source
  have hend : (endOf source).toPiece.curl = 0 := rfl
  rw [htokens, net_eq, List.map_append, net_append, hpieces, net_map_closed,
    List.map_singleton, net_cons, hend]
  simp

/-- All pieces of the output are tokens, and so are its braces. They balance like those of the
source, with one more closing brace for each let-block that ran into the end of the script.
This holds as long as no run whose blanks are dropped ends in an open literal. -/
theorem net_compile (style : Style) (text : Text)
    (h : ∀ run ∈
      Node.trimmedRunsAll (Node.parse (Token.lex (Source.ofText text)).tokens).nodes,
      Output.endsOpen run = false) :
    (Token.lex (Source.ofText (compile style text))).tokens.map (fun t => (t.kind, t.lexeme)) =
        (Output.written style (Node.parse (Token.lex (Source.ofText text)).tokens).nodes).map
            (fun p => (p.kind, p.lexeme)) ++ [(.eof, [])] ∧
      Token.net (Token.lex (Source.ofText (compile style text))).tokens =
        Token.net (Token.lex (Source.ofText text)).tokens -
          Node.unterminatedAll (Node.parse (Token.lex (Source.ofText text)).tokens).nodes := by
  refine ⟨(tokens_compile_iff style text).2 h, ?_⟩
  obtain ⟨hwell, htokens⟩ := Node.parse_spec (Token.lex (Source.ofText text)).tokens
  have hsource :
      net
        (copied
          (Node.tokensAll (Node.parse (Token.lex (Source.ofText text)).tokens).nodes)) =
      net (stream text) := by
    obtain ⟨ts, -, hts, hpieces, -⟩ := Token.exists_lex_script (Source.ofText text)
    rw [htokens, hts, copied, hpieces, net_map_closed]
    rfl
  calc Token.net (Token.lex (Source.ofText (compile style text))).tokens
      = net (stream (compile style text)) := Token.net_lex _
    _ = net
          ((written style (Node.parse (Token.lex (Source.ofText text)).tokens).nodes).map
            settled) := by
        rw [stream_compile_eq_settled style h]
    _ = net (written style (Node.parse (Token.lex (Source.ofText text)).tokens).nodes) :=
      net_map_closed _
    _ = net (stream text) -
      Node.unterminatedAll (Node.parse (Token.lex (Source.ofText text)).tokens).nodes := by
        rw [written, net_writtenFrom style false true hwell, hsource]
    _ = Token.net (Token.lex (Source.ofText text)).tokens -
          Node.unterminatedAll (Node.parse (Token.lex (Source.ofText text)).tokens).nodes := by
        rw [Token.net_lex]
        rfl

/-- A block inside another, neither of them closed, behind a string that its line left open. -/
theorem net_compile_unterminated :
    let text := utf8 "f('a\n); let (x = 1) \x7b let (y) \x7b g(y) // \x7b"
    Token.net (Token.lex (Source.ofText text)).tokens = 2 ∧
      (∀ run ∈ Node.trimmedRunsAll (Node.parse (Token.lex (Source.ofText text)).tokens).nodes,
        Output.endsOpen run = false) ∧
      Token.net (Token.lex (Source.ofText (compile { es3 := true } text))).tokens = 0 := by
  intro text
  have h : ∀ run ∈
      Node.trimmedRunsAll (Node.parse (Token.lex (Source.ofText text)).tokens).nodes,
      Output.endsOpen run = false := by
    decide +kernel
  have hsource : Token.net (Token.lex (Source.ofText text)).tokens = 2 := by decide +kernel
  have hblocks : Node.unterminatedAll
      (Node.parse (Token.lex (Source.ofText text)).tokens).nodes = 2 := by
    decide +kernel
  refine ⟨hsource, h, ?_⟩
  rw [(net_compile { es3 := true } text h).2, hsource, hblocks]
  rfl

/-- A string that its line left open at the end of a body goes on into the brace that should
close the block. -/
theorem compile_swallows_brace :
    let text := utf8 "let (a) \x7b \"b\n"
    compile {} text = utf8 "\x7b let a;\"b\x7d" ∧
      Token.net (Token.lex (Source.ofText (compile {} text))).tokens ≠
        Token.net (Token.lex (Source.ofText text)).tokens -
          Node.unterminatedAll (Node.parse (Token.lex (Source.ofText text)).tokens).nodes := by
  decide +kernel

end LetBlocks
