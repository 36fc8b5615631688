import LetBlocks.Proofs.Region.Shapes
import LetBlocks.Proofs.Source.Locations
import LetBlocks.Proofs.Token.Placement
import LetBlocks.Proofs.Token.Script

/-!
No token ends between a CR and the LF behind it: code takes both as one line break, a string
takes both with an escape or neither, and all other literals end with their closing mark, at
the end of the text, or hold no line break at all. So the line breaks of a text are those of
its tokens, and the line of a token is that of the token before it and as many more as breaks
are in that one.
-/

namespace LetBlocks

open Text Region

namespace Region

/-! ### Literals -/

theorem seamless_readString {quote : Byte} (hquote : quote ≠ Byte.cr) (pos : Nat)
    (text : Text) :
    ∃ used, text = used ++ (readString quote pos text).rest ∧
      Seamless used (readString quote pos text).rest := by
  fun_induction readString quote pos text with
  | case1 pos => exact ⟨[], rfl, seamless_nil_right _⟩
  | case2 pos => exact ⟨[Byte.backslash], rfl, seamless_nil_right _⟩
  | case3 pos e => exact ⟨[Byte.backslash, e], rfl, seamless_nil_right _⟩
  | case4 pos e f more hef ih =>
      obtain ⟨rfl, rfl⟩ := hef
      obtain ⟨used, hused, hseam⟩ := ih
      refine ⟨[Byte.backslash, Byte.cr, Byte.lf] ++ used,
        congrArg ([Byte.backslash, Byte.cr, Byte.lf] ++ ·) hused, ?_⟩
      exact (seamless_concat [Byte.backslash, Byte.cr] (by decide) _).append hseam
  | case5 pos e f more hef ih =>
      obtain ⟨used, hused, hseam⟩ := ih
      refine ⟨[Byte.backslash, e] ++ used, congrArg ([Byte.backslash, e] ++ ·) hused,
        Seamless.append ?_ hseam⟩
      -- an escaped CR with an LF behind it would have been passed together with it
      rw [← hused]
      intro he hf
      exact hef ⟨Option.some.inj he, Option.some.inj hf⟩
  | case6 pos rest hbackslash => exact ⟨[quote], rfl, seamless_concat [] hquote rest⟩
  | case7 pos b rest hbackslash hquote hbreak => exact ⟨[], rfl, seamless_nil _⟩
  | case8 pos b rest hbackslash hquote hbreak ih =>
      obtain ⟨used, hused, hseam⟩ := ih
      refine ⟨[b] ++ used, congrArg _ hused, Seamless.append (seamless_of_inLine ?_ _) hseam⟩
      simpa using hbreak

theorem suffix_step (c : Cursor) : c.step.rest <:+ c.rest := by
  rcases c with ⟨pos, _ | ⟨b, rest⟩⟩
  · exact List.suffix_refl _
  · exact List.suffix_cons b rest

/-- A template that is closed ends with a backtick. -/
theorem suffix_of_closed_readTemplate {part : TemplatePart} {around : List Substitution}
    {c : Cursor} (h : (readTemplate part around c).closed = true) :
    Byte.backtick :: (readTemplate part around c).rest <:+ c.rest := by
  -- only the outermost backtick returns a closed ending, in `case3`; from anywhere else the
  -- reading goes on in a suffix
  fun_induction readTemplate part around c with
  | case1 => cases h
  | case2 around pos rest ih =>
      exact (ih h).trans ((suffix_step _).trans (List.suffix_cons _ _))
  | case3 pos rest => exact List.suffix_refl _
  | case5 around pos b rest _ _ _ ih =>
      exact (ih h).trans ((suffix_step _).trans (List.suffix_cons _ _))
  | case8 around pos b rest inside _ kind ending hread ih =>
      obtain ⟨used, -, hused, -⟩ := readFlat?_settles hread
      exact (ih h).trans ⟨used, hused.symm⟩
  | case11 around pos b rest inside _ _ _ depth passed ih =>
      obtain ⟨used, -, hused, -⟩ := passCode_settles inside.expect pos b rest
      exact (ih h).trans ⟨used, hused.symm⟩
  | _ => rename_i ih; exact (ih h).trans (List.suffix_cons _ _)

theorem RegexUnits.inLine {inClass inClass' : Bool} {units : Text}
    (h : RegexUnits inClass units inClass') : ∀ b ∈ units, b.isLineBreak = false := by
  induction h with
  | nil => exact List.forall_mem_nil _
  | escaped hbreak _ ih =>
      exact List.forall_mem_cons.2 ⟨rfl, List.forall_mem_cons.2 ⟨hbreak, ih⟩⟩
  | openClass _ ih => exact List.forall_mem_cons.2 ⟨rfl, ih⟩
  | closeClass _ ih => exact List.forall_mem_cons.2 ⟨rfl, ih⟩
  | plain hbreak _ _ _ _ _ ih => exact List.forall_mem_cons.2 ⟨hbreak, ih⟩

theorem IsRegex.inLine {bytes rest : Text} {closed : Bool} (h : IsRegex bytes rest closed) :
    ∀ b ∈ bytes, b.isLineBreak = false := by
  cases closed with
  | true =>
      obtain ⟨units, flags, hunits, hflags, rfl⟩ := h.closed_iff.1 rfl
      rw [List.forall_mem_append, List.forall_mem_cons, List.forall_mem_cons]
      exact ⟨⟨rfl, hunits.inLine⟩, rfl, inLine_of_forall hflags rfl rfl⟩
  | false =>
      obtain ⟨-, units, inClass, hunits, rfl | rfl⟩ := h.of_open rfl
      · exact List.forall_mem_cons.2 ⟨rfl, hunits.inLine⟩
      · rw [List.forall_mem_append, List.forall_mem_cons, List.forall_mem_singleton]
        exact ⟨⟨rfl, hunits.inLine⟩, rfl⟩

/-- A literal does not end between the CR and the LF of a line break. -/
theorem exists_seamless {expect : Expectation} {c : Cursor} {kind : Kind} {ending : Ending}
    (h : readLiteral? expect c = some (kind, ending)) :
    ∃ used, c.rest = used ++ ending.rest ∧ Seamless used ending.rest := by
  obtain ⟨pos, text⟩ := c
  obtain ⟨bytes, hbytes, -, hshape⟩ := shape_of_readLiteral? h
  cases readLiteral?_eq_some_iff.1 h with
  | @template _ rest =>
      cases hclosed : (readTemplate .chars [] ⟨pos + 1, rest⟩).closed with
      | true =>
          obtain ⟨front, hfront⟩ := suffix_of_closed_readTemplate hclosed
          refine ⟨Byte.backtick :: front ++ [Byte.backtick], ?_,
            seamless_concat _ (by decide) _⟩
          simp [hfront]
      | false =>
          rw [rest_of_open_readTemplate hclosed]
          exact ⟨_, (List.append_nil _).symm, seamless_nil_right _⟩
  | @string _ quote rest hquote =>
      have hcr : quote ≠ Byte.cr := by rcases hquote with rfl | rfl <;> decide
      obtain ⟨used, hused, hseam⟩ := seamless_readString hcr (pos + 1) rest
      exact ⟨[quote] ++ used, congrArg (List.cons quote) hused,
        (seamless_concat [] hcr _).append hseam⟩
  | lineComment => exact ⟨bytes, hbytes, seamless_of_inLine hshape.inLine _⟩
  | @blockComment _ rest =>
      cases hclosed : (readBlockComment (pos + 2) rest).closed with
      | true =>
          obtain ⟨front, hfront⟩ := (hshape.of_closed hclosed).1
          refine ⟨bytes, hbytes, ?_⟩
          rw [← List.take_append_drop 2 bytes, ← hfront,
            show utf8 "*/" = [Byte.star] ++ [Byte.slash] from rfl, ← List.append_assoc,
            ← List.append_assoc]
          exact seamless_concat _ (by decide) _
      | false =>
          rw [hshape.of_open hclosed]
          exact ⟨_, (List.append_nil _).symm, seamless_nil_right _⟩
  | regex => exact ⟨bytes, hbytes, seamless_of_inLine hshape.inLine _⟩

end Region

namespace Piece

/-! ### Pieces -/

theorem CodePiece.isBreak {lexeme rest : Text} (h : CodePiece .newline lexeme rest) :
    IsBreak lexeme rest := by
  generalize hkind : Token.Kind.newline = kind at h
  cases h with
  | lf => exact .inl rfl
  | crlf => exact .inr (.inl rfl)
  | cr hrest =>
      refine .inr (.inr ⟨rfl, fun hhead => ?_⟩)
      simp [Text.Avoids, hhead] at hrest
  | word hword =>
      rw [hword, wordKind] at hkind
      split_ifs at hkind
  | _ => cases hkind

theorem CodePiece.inLine {kind : Token.Kind} {lexeme rest : Text}
    (h : CodePiece kind lexeme rest) (hkind : kind ≠ .newline) :
    ∀ b ∈ lexeme, b.isLineBreak = false := by
  cases h with
  | lf | crlf | cr => exact absurd rfl hkind
  | blanks hb hmore => exact inLine_of_forall (List.forall_mem_cons.2 ⟨hb, hmore⟩) rfl rfl
  | number hb hmore =>
      exact inLine_of_forall (List.forall_mem_cons.2 ⟨Byte.isNumeral_of_isDigit hb, hmore⟩) rfl
        rfl
  | fraction hb hmore =>
      refine inLine_of_forall (p := Byte.isNumeral) (List.forall_mem_cons.2 ⟨rfl, ?_⟩) rfl rfl
      exact List.forall_mem_cons.2 ⟨Byte.isNumeral_of_isDigit hb, hmore⟩
  | word _ hb hmore =>
      exact inLine_of_forall (List.forall_mem_cons.2 ⟨Byte.isWord_of_isWordStart hb, hmore⟩)
        rfl rfl
  | @punct b more _ hblank hword hdot hlength =>
      refine List.forall_mem_cons.2 ⟨(Byte.isBlank_eq_false_iff.1 hblank).2, fun c hc => ?_⟩
      have htwo : 2 ≤ (b :: more).length := Nat.succ_le_succ (List.length_pos_of_mem hc)
      obtain ⟨htail, -⟩ := Region.operators_bytes _ (mem_operators hlength htwo)
      exact (Byte.isBlank_eq_false_iff.1 (htail c hc).1).2

variable {expect : Expectation} {p : Piece} {rest : Text}

theorem Reads.seamless (h : Reads expect p rest) : Seamless p.lexeme rest := by
  obtain ⟨-, ⟨kind, -, -, hread⟩ | ⟨-, hpiece⟩⟩ := h.cases
  · obtain ⟨used, hused, hseam⟩ := exists_seamless hread
    obtain rfl : p.lexeme = used := List.append_cancel_right hused
    exact hseam
  · by_cases hkind : p.kind = .newline
    · exact (hkind ▸ hpiece).isBreak.seamless
    · exact seamless_of_inLine (hpiece.inLine hkind) rest

theorem Reads.isBreak (h : Reads expect p rest) (hkind : p.kind = .newline) :
    IsBreak p.lexeme rest := by
  obtain ⟨-, ⟨kind, hliteral, hcode, -⟩ | ⟨-, hpiece⟩⟩ := h.cases
  · have hnot := isLiteral_literalKind hcode
    rw [← hliteral, hkind] at hnot
    cases hnot
  · exact (hkind ▸ hpiece).isBreak

/-- Only strings, templates and block comments hold line breaks beside other bytes. -/
theorem Reads.inLine (h : Reads expect p rest)
    (hkind : p.kind ∉ [.newline, .string, .template, .blockComment]) :
    ∀ b ∈ p.lexeme, b.isLineBreak = false := by
  obtain ⟨-, ⟨kind, hliteral, hcode, hread⟩ | ⟨-, hpiece⟩⟩ := h.cases
  · obtain ⟨bytes, hbytes, -, hshape⟩ := shape_of_readLiteral? hread
    obtain rfl : p.lexeme = bytes := List.append_cancel_right hbytes
    rw [hliteral] at hkind
    cases kind with
    | code => exact absurd rfl hcode
    | lineComment => exact hshape.inLine
    | regex => exact hshape.inLine
    | string | template | blockComment => exact absurd (by decide) hkind
  · refine hpiece.inLine fun hnewline => hkind ?_
    rw [hnewline]
    decide

/-! ### Scripts -/

theorem Chain.seamless {expect : Expectation} {ps qs : List Piece}
    (h : Chain expect (ps ++ qs) []) : Seamless (spell ps) (spell qs) := by
  induction ps generalizing expect with
  | nil => exact seamless_nil _
  | cons p ps ih =>
      rw [List.cons_append, Chain, List.append_nil, spell_append] at h
      obtain ⟨hread, hmore⟩ := h
      rw [spell_cons]
      exact hread.seamless.append (ih hmore)

theorem Script.seamless {ps qs : List Piece} (h : Script (ps ++ qs)) :
    Seamless (spell ps) (spell qs) := by
  generalize hall : ps ++ qs = all at h
  cases h with
  | plain _ hchain => exact (hall ▸ hchain).seamless
  | @hashbang p more hbang _ hchain =>
      cases ps with
      | nil => exact seamless_nil _
      | cons q ps =>
          obtain ⟨rfl, rfl⟩ := List.cons.inj hall
          rw [spell_cons]
          exact (seamless_of_inLine hbang.2.2 _).append hchain.seamless

end Piece

namespace Token

/-! ### Tokens -/

theorem join_lex (source : Source) : join (lex source).tokens = source.content := by
  obtain ⟨ts, htokens, hbefore, -⟩ := exists_lexAlong source (scan source.content)
  have hjoin := join_takeWhile_lexAlong source (scan source.content)
  rw [hbefore] at hjoin
  rw [lex, htokens, join_append, hjoin]
  exact List.append_nil _

/-- No token ends between the CR and the LF of a line break. -/
theorem seamless_lex {source : Source} {before after : List Token}
    (h : (lex source).tokens = before ++ after) : Seamless (join before) (join after) := by
  obtain ⟨ts, htokens, -, -, hscript⟩ := exists_lex_script source
  rw [htokens] at h
  rcases List.eq_nil_or_concat after with rfl | ⟨after, last, rfl⟩
  · exact seamless_nil_right _
  · rw [List.concat_eq_append, ← List.append_assoc] at h
    obtain ⟨rfl, hlast⟩ := List.append_inj' h rfl
    obtain rfl := List.singleton_inj.1 hlast
    rw [List.map_append] at hscript
    have hseam := hscript.seamless
    rw [spell_map_toPiece, spell_map_toPiece] at hseam
    rwa [List.concat_eq_append, join_append, show join [endOf source] = [] from rfl,
      List.append_nil]

/-- A token starts on the line that the breaks in the tokens before it lead to. -/
theorem line_of_split {source : Source} (hlength : source.length < UInt32.size - 1)
    {before after : List Token} {t : Token} (h : (lex source).tokens = before ++ t :: after) :
    t.span.start.line.toNat = 1 + (join before).breakEnds.length := by
  have hlies : Lies source 0 (lex source).tokens := lies_lexAlong source (scan source.content)
  rw [h, lies_append, Nat.zero_add] at hlies
  have hcontent : source.content = join before ++ join (t :: after) := by
    rw [← join_append, ← h, join_lex]
  have hbefore : (join before).length < UInt32.size - 1 := by
    rw [Source.length, hcontent, List.length_append] at hlength
    omega
  have hline := source.location_line hbefore
  rw [hcontent, breaksBy_seam (seamless_lex h)] at hline
  rw [hlies.2.2.1]
  exact hline

theorem exists_reads_of_mem_lex {source : Source} {t : Token} (h : t ∈ (lex source).tokens) :
    t = endOf source ∨ t.toPiece.IsHashbang ∨
      ∃ expect rest, Piece.Reads expect t.toPiece rest := by
  obtain ⟨ts, htokens, -, -, hscript⟩ := exists_lex_script source
  rw [htokens, List.mem_append, List.mem_singleton] at h
  rcases h with hmem | rfl
  · exact .inr (hscript.exists_reads _ (List.mem_map_of_mem hmem))
  · exact .inl rfl

theorem breakEnds_of_newline {source : Source} {t : Token} (h : t ∈ (lex source).tokens)
    (hkind : t.kind = .newline) : t.lexeme.breakEnds = [t.lexeme.length] := by
  rcases exists_reads_of_mem_lex h with rfl | hbang | ⟨_, _, hread⟩
  · cases hkind
  · cases hbang.1.symm.trans hkind
  · exact (hread.isBreak hkind).breakEnds_eq

theorem breakEnds_of_kind {source : Source} {t : Token} (h : t ∈ (lex source).tokens)
    (hkind : t.kind ∉ [.newline, .string, .template, .blockComment]) :
    t.lexeme.breakEnds = [] := by
  rcases exists_reads_of_mem_lex h with rfl | hbang | ⟨_, _, hread⟩
  · rfl
  · exact breakEnds_of_inLine hbang.2.2
  · exact breakEnds_of_inLine (hread.inLine hkind)

/-- Line numbers keep in step with the tokens. Each token starts as many lines below the one
before it as there are line breaks in that one: exactly one in a line break, any number in a
string, a template or a block comment, and none in all others. No token ends between the CR and
the LF of a line break. -/
theorem lex_lines (source : Source) (hlength : source.length < UInt32.size - 1) :
    (∀ before t u after, (lex source).tokens = before ++ t :: u :: after →
      u.span.start.line.toNat = t.span.start.line.toNat + t.lexeme.breakEnds.length ∧
        (t.kind = .newline → t.lexeme.breakEnds.length = 1) ∧
        (t.kind ∉ [.newline, .string, .template, .blockComment] →
          t.lexeme.breakEnds.length = 0)) ∧
      ∀ before after, (lex source).tokens = before ++ after →
        Seamless (join before) (join after) := by
  refine ⟨fun before t u after h => ?_, fun before after h => seamless_lex h⟩
  have hmem : t ∈ (lex source).tokens := by
    rw [h]
    exact List.mem_append_right _ List.mem_cons_self
  refine ⟨?_, fun hkind => congrArg List.length (breakEnds_of_newline hmem hkind),
    fun hkind => congrArg List.length (breakEnds_of_kind hmem hkind)⟩
  have hseam : Seamless (join before) t.lexeme := by
    have hall := seamless_lex h
    rw [join_cons] at hall
    exact hall.left
  have hnext : (lex source).tokens = (before ++ [t]) ++ u :: after := by
    rw [h, List.append_assoc, List.singleton_append]
  rw [line_of_split hlength hnext, line_of_split hlength h, join_append, join_cons, join_nil,
    List.append_nil, breakEnds_append hseam, List.length_append, List.length_map,
    Nat.add_assoc]

/-- A CR LF in a string, behind a backslash, and one in code. -/
theorem lex_lines_crlf :
    let source := Source.ofText (utf8 "'a\\\r\nb'\r\nc")
    source.length < UInt32.size - 1 ∧
      ∃ string newline word stop, (lex source).tokens = [string, newline, word, stop] ∧
      (string.kind, newline.kind, word.kind) = (.string, .newline, .identifier) ∧
      newline.span.start.line.toNat = string.span.start.line.toNat + 1 ∧
      word.span.start.line.toNat = newline.span.start.line.toNat + 1 ∧
      stop.span.start.line.toNat = word.span.start.line.toNat := by
  intro source
  have hlength : source.length < UInt32.size - 1 := by decide +kernel
  have htokens : (lex source).tokens.map (fun t => (t.kind, t.lexeme.breakEnds.length)) =
      [(.string, 1), (.newline, 1), (.identifier, 0), (.eof, 0)] := by
    decide +kernel
  obtain ⟨string, _, hsplit, hstring, hmore⟩ := List.map_eq_cons_iff.1 htokens
  obtain ⟨newline, _, rfl, hnewline, hmore⟩ := List.map_eq_cons_iff.1 hmore
  obtain ⟨word, _, rfl, hword, hmore⟩ := List.map_eq_cons_iff.1 hmore
  obtain ⟨stop, _, rfl, -, hmore⟩ := List.map_eq_cons_iff.1 hmore
  obtain rfl := List.map_eq_nil_iff.1 hmore
  rw [Prod.mk.injEq] at hstring hnewline hword
  obtain ⟨hlines, -⟩ := lex_lines source hlength
  have hfirst := (hlines [] string newline [word, stop] hsplit).1
  have hsecond := (hlines [string] newline word [stop] hsplit).1
  have hthird := (hlines [string, newline] word stop [] hsplit).1
  rw [hstring.2] at hfirst
  rw [hnewline.2] at hsecond
  rw [hword.2] at hthird
  exact ⟨hlength, string, newline, word, stop, hsplit, by rw [hstring.1, hnewline.1, hword.1],
    hfirst, hsecond, hthird⟩

end Token

end LetBlocks
