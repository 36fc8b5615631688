import LetBlocks.Proofs.Region.Open
import LetBlocks.Proofs.Token.Stream

/-!
A piece that was read in front of one text is read again in front of another one, unless the
first byte of that text would join it. `Piece.joins` lists the bytes that do, by the kind of
the piece; a punctuator must moreover not become longer, and a literal that is not closed goes
on in front of most bytes. So a run of pieces can be taken out of a script and put down
elsewhere, as long as the scan expects the same as before and nothing at its far end joins its
last piece. This is all that later proofs need to know about lexing.
-/

namespace LetBlocks

open Region

namespace Piece

/-! ### One piece -/

def Reads (expect : Expectation) (p : Piece) (rest : Text) : Prop :=
  ∃ closed, next? expect (p.lexeme ++ rest) = some ({ p with closed }, rest)

/-- Is this a literal that lacks its closing mark? That is seen when it is read on its own. -/
def isUnclosed (p : Piece) : Bool :=
  p.kind.isLiteral && (readLiteral? .operand ⟨0, p.lexeme⟩).any (!·.2.closed)

def joins (p : Piece) (b : Byte) : Bool :=
  match p.kind with
  | .identifier | .kwLet | .regex => b.isWord
  | .number => b.isNumeral
  | .whitespace => b.isInlineBlank
  | .newline => p.lexeme == [Byte.cr] && b == Byte.lf
  | .lineComment => !b.isLineBreak
  | .punct =>
    (p.lexeme == [Byte.dot] && b.isDigit) ||
      (p.lexeme == [Byte.slash] && (b == Byte.slash || b == Byte.star))
  | _ => false

/-- The bytes that cannot follow a piece. For an open literal these are all before which it is
not given up. -/
def bars (p : Piece) (b : Byte) : Bool :=
  if p.isUnclosed then decide
    (next? .operand (p.lexeme ++ [b]) ≠ some ({ p with closed := false }, [b]))
  else p.joins b

def Admits (p : Piece) (rest : Text) : Prop := Text.Avoids p.bars rest

theorem next?_eq_some {expect : Expectation} {text rest : Text} {p : Piece}
    (h : next? expect text = some (p, rest)) :
    text = p.lexeme ++ rest ∧ p.lexeme ≠ [] ∧
      ((∃ kind, p.kind = literalKind kind ∧ kind ≠ .code ∧
          readLiteral? expect ⟨0, text⟩ = some (kind, ⟨⟨p.lexeme.length, rest⟩, p.closed⟩)) ∨
        (readLiteral? expect ⟨0, text⟩ = none ∧ CodePiece p.kind p.lexeme rest ∧
          p.closed = true)) := by
  cases text with
  | nil => simp [next?] at h
  | cons b more =>
      cases hread : readLiteral? expect ⟨0, b :: more⟩ with
      | some read =>
          obtain ⟨kind, ending⟩ := read
          obtain ⟨used, hne, hused, hpos, hnext⟩ := next?_of_literal hread
          rw [hnext] at h
          cases h
          rw [Nat.zero_add] at hpos
          exact ⟨hused, hne, .inl ⟨kind, rfl, kind_of_readLiteral? hread, by rw [← hpos]⟩⟩
      | none =>
          obtain ⟨kind, more, rest', rfl, hpiece⟩ := exists_codePiece b more
          rw [← List.cons_append] at h hread ⊢
          rw [next?_of_codePiece hpiece hread] at h
          cases h
          exact ⟨rfl, by simp, .inr ⟨rfl, hpiece, rfl⟩⟩

/-! ### Open literals -/

theorem isLiteral_literalKind {kind : Region.Kind} (h : kind ≠ .code) :
    (literalKind kind).isLiteral = true := by
  cases kind <;> first | rfl | exact absurd rfl h

theorem literalKind_injective {kind kind' : Region.Kind}
    (h : literalKind kind = literalKind kind') : kind = kind' := by
  cases kind <;> cases kind' <;> first | rfl | cases h

theorem isUnclosed_of_kind {p : Piece} (h : p.kind.isLiteral = false) :
    p.isUnclosed = false := by
  simp [isUnclosed, h]

/-- A literal is open on its own exactly if it was open where it was read. -/
theorem isUnclosed_of_readLiteral? {expect : Expectation} {p : Piece} {kind : Region.Kind}
    {rest : Text} {n : Nat} {closed : Bool} (hkind : p.kind = literalKind kind)
    (hread : readLiteral? expect ⟨0, p.lexeme ++ rest⟩ = some (kind, ⟨⟨n, rest⟩, closed⟩)) :
    p.isUnclosed = !closed := by
  have halone := (readLiteral?_eq_some_iff_operand.1 (readLiteral?_alone hread)).1
  simp [isUnclosed, hkind, isLiteral_literalKind (kind_of_readLiteral? hread), halone]

theorem CodePiece.not_isLiteral {kind : Token.Kind} {lexeme rest : Text}
    (h : CodePiece kind lexeme rest) : kind.isLiteral = false := by
  cases h with
  | word hkind =>
      rw [hkind, wordKind]
      split_ifs <;> rfl
  | _ => rfl

/-- Whether a piece was closed where it was read is seen in the piece. -/
theorem closed_of_next? {expect : Expectation} {text rest : Text} {p : Piece}
    (h : next? expect text = some (p, rest)) : p.closed = !p.isUnclosed := by
  obtain ⟨htext, -, ⟨kind, hkind, -, hread⟩ | ⟨-, hpiece, hclosed⟩⟩ := next?_eq_some h
  · rw [htext] at hread
    rw [isUnclosed_of_readLiteral? hkind hread, Bool.not_not]
  · rw [hclosed, isUnclosed_of_kind hpiece.not_isLiteral]
    rfl

/-- How a piece can be read. -/
theorem Reads.cases {expect : Expectation} {p : Piece} {rest : Text}
    (h : Reads expect p rest) :
    p.lexeme ≠ [] ∧
      ((∃ kind, p.kind = literalKind kind ∧ kind ≠ .code ∧
          readLiteral? expect ⟨0, p.lexeme ++ rest⟩ =
            some (kind, ⟨⟨p.lexeme.length, rest⟩, !p.isUnclosed⟩)) ∨
        (readLiteral? expect ⟨0, p.lexeme ++ rest⟩ = none ∧
          CodePiece p.kind p.lexeme rest)) := by
  obtain ⟨closed, hnext⟩ := h
  have hclosed : closed = !p.isUnclosed := closed_of_next? hnext
  subst hclosed
  obtain ⟨-, hne, hliteral | ⟨hnone, hpiece, -⟩⟩ := next?_eq_some hnext
  · exact ⟨hne, .inl hliteral⟩
  · exact ⟨hne, .inr ⟨hnone, hpiece⟩⟩

theorem next?_of_readLiteral? {expect : Expectation} {p : Piece} {kind : Region.Kind}
    {rest : Text} {n : Nat} {closed : Bool} (hkind : p.kind = literalKind kind)
    (hread : readLiteral? expect ⟨0, p.lexeme ++ rest⟩ = some (kind, ⟨⟨n, rest⟩, closed⟩)) :
    next? expect (p.lexeme ++ rest) = some ({ p with closed }, rest) := by
  obtain ⟨used, -, hused, -, hnext⟩ := next?_of_literal hread
  obtain rfl : p.lexeme = used := List.append_cancel_right hused
  rw [hnext, hkind]

/-- A literal is read again in front of any text that fits it. -/
theorem reads_of_literal {expect : Expectation} {p : Piece} {kind : Region.Kind}
    {rest rest' : Text} {n : Nat} {closed : Bool} (hkind : p.kind = literalKind kind)
    (hread : readLiteral? expect ⟨0, p.lexeme ++ rest⟩ = some (kind, ⟨⟨n, rest⟩, closed⟩))
    (hfits : Fits kind.free rest closed rest') : Reads expect p rest' := by
  obtain ⟨used, -, hused, hsettles⟩ := readLiteral?_settles hread
  obtain rfl : p.lexeme = used := List.append_cancel_right hused
  exact ⟨closed, next?_of_readLiteral? hkind (hsettles 0 rest' hfits)⟩

theorem reads_of_codePiece {expect : Expectation} {p : Piece} {rest : Text}
    (h : CodePiece p.kind p.lexeme rest)
    (hnone : readLiteral? expect ⟨0, p.lexeme ++ rest⟩ = none) : Reads expect p rest :=
  ⟨true, next?_of_codePiece h hnone⟩

theorem Reads.lexeme_ne_nil {expect : Expectation} {p : Piece} {rest : Text}
    (h : Reads expect p rest) : p.lexeme ≠ [] :=
  h.cases.1

/-! ### What a piece admits -/

theorem bars_of_not_isUnclosed {p : Piece} (h : p.isUnclosed = false) : p.bars = p.joins := by
  funext b
  simp [bars, h]

theorem admits_of_kind {p : Piece} (h : p.kind.isLiteral = false) {rest : Text} :
    p.Admits rest ↔ Text.Avoids p.joins rest := by
  rw [Admits, bars_of_not_isUnclosed (isUnclosed_of_kind h)]

theorem avoids_of_never {q : Byte → Bool} (h : ∀ b, q b = false) (rest : Text) :
    Text.Avoids q rest := by
  cases rest with
  | nil => exact Text.avoids_nil _
  | cons b rest => exact Text.avoids_cons.2 (h b)

theorem admits_literal_iff {p : Piece} {kind : Region.Kind} (hkind : kind ≠ .code)
    (h : p.kind = literalKind kind) (hclosed : p.isUnclosed = false) {rest : Text} :
    p.Admits rest ↔ kind.free rest := by
  rw [Admits, bars_of_not_isUnclosed hclosed]
  cases kind with
  | code => exact absurd rfl hkind
  | regex =>
      have hjoins : p.joins = Byte.isWord := by
        funext b
        simp [joins, h, literalKind, Token.Kind.ofRegion?]
      rw [hjoins]
      rfl
  | lineComment =>
      have hjoins : p.joins = fun b => !b.isLineBreak := by
        funext b
        simp [joins, h, literalKind, Token.Kind.ofRegion?]
      rw [hjoins]
      rfl
  | string | template | blockComment =>
      refine iff_of_true (avoids_of_never (fun b => ?_) rest) trivial
      simp [joins, h, literalKind, Token.Kind.ofRegion?]

theorem bars_open_iff {p : Piece} {b : Byte} (h : p.isUnclosed = true) :
    p.bars b = false ↔ next? .operand (p.lexeme ++ [b]) =
      some ({ p with closed := false }, [b]) := by
  simp [bars, h]

/-- An open literal admits exactly the texts before which it is given up. -/
theorem admits_open_iff {expect : Expectation} {p : Piece} {kind : Region.Kind} {b : Byte}
    {rest : Text} (h : p.kind = literalKind kind) (hopen : p.isUnclosed = true)
    (hexpect : kind = .regex → expect = .operand) :
    p.Admits (b :: rest) ↔
      readLiteral? expect ⟨0, p.lexeme ++ b :: rest⟩ =
        some (kind, ⟨⟨p.lexeme.length, b :: rest⟩, false⟩) := by
  rw [Admits, Text.avoids_cons, bars_open_iff hopen]
  constructor
  · intro hnext
    obtain ⟨-, -, ⟨kind', hkind', -, hread⟩ | ⟨-, -, hclosed⟩⟩ := next?_eq_some hnext
    · obtain rfl : kind = kind' := literalKind_injective (h.symm.trans hkind')
      obtain ⟨used, -, hused, hsettles⟩ := readLiteral?_settles hread
      obtain rfl : p.lexeme = used := List.append_cancel_right hused
      have hread' := hsettles 0 (b :: rest) (.inl rfl)
      rw [Nat.zero_add] at hread'
      exact readLiteral?_eq_some_iff_operand.2 ⟨hread', hexpect⟩
    · cases hclosed
  · intro hread
    obtain ⟨used, -, hused, hsettles⟩ :=
      readLiteral?_settles (readLiteral?_eq_some_iff_operand.1 hread).1
    obtain rfl : p.lexeme = used := List.append_cancel_right hused
    exact next?_of_readLiteral? h (hsettles 0 [b] (.inl rfl))

/-- It is given up only where its line ends. -/
theorem not_isUnclosed_of_admits {p : Piece} {b : Byte} {rest : Text}
    (h : p.Admits (b :: rest)) (hb : b.isLineBreak = false) : p.isUnclosed = false := by
  by_contra hopen
  rw [Bool.not_eq_false] at hopen
  have hnext := (bars_open_iff hopen).1 (Text.avoids_cons.1 h)
  obtain ⟨-, -, ⟨kind, -, -, hread⟩ | ⟨-, -, hclosed⟩⟩ := next?_eq_some hnext
  · have hline := Text.avoids_cons.1 (endsLine_of_open hread rfl)
    simp [hb] at hline
  · cases hclosed

theorem CodePiece.length_punct {lexeme rest : Text} (h : CodePiece .punct lexeme rest) :
    operatorLength (lexeme ++ rest) = lexeme.length := by
  cases h with
  | word hkind =>
      rw [wordKind] at hkind
      split_ifs at hkind
  | punct _ _ _ hlength => exact hlength

theorem CodePiece.to_nil {kind : Token.Kind} {lexeme rest : Text}
    (h : CodePiece kind lexeme rest) : CodePiece kind lexeme [] := by
  refine h.congr (.inr rfl) ?_
  rintro rfl
  rw [List.append_nil, h.length_punct, operatorLength_self h.length_punct]

theorem avoids_joins_word {p : Piece} (h : p.kind = wordKind p.lexeme) {rest : Text} :
    Text.Avoids p.joins rest ↔ Text.Avoids Byte.isWord rest := by
  have hjoins : p.joins = Byte.isWord := by
    funext b
    unfold wordKind at h
    split_ifs at h <;> simp [joins, h]
  rw [hjoins]

theorem CodePiece.of_nil {p : Piece} {rest : Text} (h : CodePiece p.kind p.lexeme [])
    (hjoins : Text.Avoids p.joins rest)
    (hpunct : p.kind = .punct → operatorLength (p.lexeme ++ rest) = p.lexeme.length) :
    CodePiece p.kind p.lexeme rest := by
  obtain ⟨kind, lexeme, closed⟩ := p
  dsimp only at h hpunct ⊢
  cases h with
  | lf => exact .lf
  | crlf => exact .crlf
  | cr => exact .cr hjoins
  | blanks hb hmore => exact .blanks hb hmore hjoins
  | number hb hmore => exact .number hb hmore hjoins
  | fraction hb hmore => exact .fraction hb hmore hjoins
  | word hkind hb hmore => exact .word hkind hb hmore ((avoids_joins_word hkind).1 hjoins)
  | @punct b more _ hblank hword hdot =>
      refine .punct hblank hword ?_ (hpunct rfl)
      intro hb
      cases more with
      | cons c more => exact hdot hb
      | nil =>
          cases rest with
          | nil => exact Text.avoids_nil _
          | cons c rest =>
              have hc := Text.avoids_cons.1 hjoins
              simp only [joins, hb, Bool.or_eq_false_iff] at hc
              exact Text.avoids_cons.2 (by simpa using hc.1)

theorem CodePiece.avoids_joins {p : Piece} {expect : Expectation} {rest : Text}
    (h : CodePiece p.kind p.lexeme rest)
    (hnone : readLiteral? expect ⟨0, p.lexeme ++ rest⟩ = none) : Text.Avoids p.joins rest := by
  obtain ⟨kind, lexeme, closed⟩ := p
  dsimp only at h hnone
  cases h with
  | lf => exact avoids_of_never (fun _ => rfl) rest
  | crlf => exact avoids_of_never (fun _ => rfl) rest
  | cr hrest => exact hrest
  | blanks hb hmore hrest => exact hrest
  | number hb hmore hrest => exact hrest
  | fraction hb hmore hrest => exact hrest
  | word hkind hb hmore hrest => exact (avoids_joins_word hkind).2 hrest
  | @punct b more _ hblank hword hdot hlength =>
      cases rest with
      | nil => exact Text.avoids_nil _
      | cons c rest =>
          refine Text.avoids_cons.2 ?_
          simp only [joins, Bool.or_eq_false_iff, Bool.and_eq_false_imp, beq_iff_eq,
            List.cons.injEq]
          constructor
          · rintro ⟨hb, rfl⟩
            exact Text.avoids_cons.1 (hdot hb)
          · rintro ⟨hb, rfl⟩
            obtain ⟨-, -, -, hslash⟩ := readLiteral?_eq_none_iff.1 hnone
            obtain ⟨hnot, hstar, -⟩ := hslash hb
            exact ⟨by simpa using hnot, by simpa using hstar⟩

theorem CodePiece.kind_of_slash {kind : Token.Kind} {more rest : Text}
    (h : CodePiece kind (Byte.slash :: more) rest) : kind = .punct := by
  cases h with
  | blanks hb => exact absurd hb (by decide)
  | number hb => exact absurd hb (by decide)
  | word _ hb => exact absurd hb (by decide)
  | punct => rfl

/-- Whether a literal opens at a piece of code is seen at the piece, unless that is a slash. -/
theorem readLiteral?_append_eq_none {p : Piece} {expect : Expectation} {rest : Text}
    (h : CodePiece p.kind p.lexeme []) (hnone : readLiteral? expect ⟨0, p.lexeme⟩ = none)
    (hjoins : Text.Avoids p.joins rest) :
    readLiteral? expect ⟨0, p.lexeme ++ rest⟩ = none := by
  obtain ⟨b, more, hlexeme⟩ := h.exists_cons
  rw [hlexeme] at h hnone ⊢
  rw [List.cons_append, readLiteral?_eq_none_iff] at *
  obtain ⟨hbacktick, hsingle, hdouble, hslash⟩ := hnone
  refine ⟨hbacktick, hsingle, hdouble, ?_⟩
  rintro rfl
  obtain ⟨hnot, hstar, hoperand⟩ := hslash rfl
  cases more with
  | cons c more => exact ⟨hnot, hstar, hoperand⟩
  | nil =>
      have hkind := h.kind_of_slash
      cases rest with
      | nil => exact ⟨hnot, hstar, hoperand⟩
      | cons c rest =>
          have hc := Text.avoids_cons.1 hjoins
          simp only [joins, hkind, hlexeme, Bool.or_eq_false_iff, Bool.and_eq_false_imp,
            beq_self_eq_true, forall_const, beq_eq_false_iff_ne] at hc
          exact ⟨by simpa using hc.2.1, by simpa using hc.2.2, hoperand⟩

theorem readLiteral?_of_append_eq_none {expect : Expectation} {lexeme rest : Text}
    (hne : lexeme ≠ []) (hnone : readLiteral? expect ⟨0, lexeme ++ rest⟩ = none) :
    readLiteral? expect ⟨0, lexeme⟩ = none := by
  obtain ⟨b, more, rfl⟩ := List.exists_cons_of_ne_nil hne
  rw [List.cons_append] at hnone
  rw [readLiteral?_eq_none_iff] at *
  obtain ⟨hbacktick, hsingle, hdouble, hslash⟩ := hnone
  refine ⟨hbacktick, hsingle, hdouble, ?_⟩
  intro hb
  cases more with
  | nil => exact ⟨by simp, by simp, (hslash hb).2.2⟩
  | cons c more => exact hslash hb

/-- A literal is read in front of a text exactly if it is read on its own and admits the
text. -/
theorem readLiteral?_iff_admits {expect : Expectation} {p : Piece} {kind : Region.Kind}
    {rest : Text} (hkind : p.kind = literalKind kind)
    (halone : readLiteral? expect ⟨0, p.lexeme⟩ =
      some (kind, ⟨⟨p.lexeme.length, []⟩, !p.isUnclosed⟩)) :
    readLiteral? expect ⟨0, p.lexeme ++ rest⟩ =
      some (kind, ⟨⟨p.lexeme.length, rest⟩, !p.isUnclosed⟩) ↔ p.Admits rest := by
  have hcode := kind_of_readLiteral? halone
  have hexpect := (readLiteral?_eq_some_iff_operand.1 halone).2
  cases hopen : p.isUnclosed with
  | false =>
      rw [admits_literal_iff hcode hkind hopen]
      refine ⟨fun hread => free_of_readLiteral? hread rfl, fun hfree => ?_⟩
      obtain ⟨used, -, hused, hsettles⟩ := readLiteral?_settles halone
      obtain rfl : p.lexeme = used := by simpa using hused
      have hread := hsettles 0 rest (.inr ⟨by simp [hopen], hfree⟩)
      rwa [hopen, Nat.zero_add] at hread
  | true =>
      cases rest with
      | nil =>
          rw [hopen] at halone
          exact iff_of_true (by simpa using halone) (Text.avoids_nil _)
      | cons b rest => exact (admits_open_iff hkind hopen hexpect).symm

/-- A piece is read in front of a text exactly if it is read on its own and nothing in the text
joins it. -/
theorem reads_iff {expect : Expectation} {p : Piece} {rest : Text} :
    Reads expect p rest ↔ Reads expect p [] ∧ p.Admits rest ∧
      (p.kind = .punct → operatorLength (p.lexeme ++ rest) = p.lexeme.length) := by
  constructor
  · intro h
    obtain ⟨hne, ⟨kind, hkind, hcode, hread⟩ | ⟨hnone, hpiece⟩⟩ := h.cases
    · have halone := readLiteral?_alone hread
      refine ⟨⟨_, next?_of_readLiteral? hkind (by simpa using halone)⟩,
        (readLiteral?_iff_admits hkind halone).1 hread, ?_⟩
      intro hpunct
      rw [hkind] at hpunct
      cases kind <;> cases hpunct
    · refine ⟨reads_of_codePiece hpiece.to_nil ?_,
        (admits_of_kind hpiece.not_isLiteral).2 (hpiece.avoids_joins hnone), ?_⟩
      · rw [List.append_nil]
        exact readLiteral?_of_append_eq_none hne hnone
      · intro hpunct
        rw [hpunct] at hpiece
        exact hpiece.length_punct
  · rintro ⟨h, hadmits, hpunct⟩
    obtain ⟨hne, ⟨kind, hkind, hcode, hread⟩ | ⟨hnone, hpiece⟩⟩ := h.cases
    · rw [List.append_nil] at hread
      exact ⟨_, next?_of_readLiteral? hkind ((readLiteral?_iff_admits hkind hread).2 hadmits)⟩
    · rw [List.append_nil] at hnone
      have hjoins := (admits_of_kind hpiece.not_isLiteral).1 hadmits
      exact reads_of_codePiece (hpiece.of_nil hjoins hpunct)
        (readLiteral?_append_eq_none hpiece hnone hjoins)

/-- A piece stays what it is when one calm text takes the place of another behind it. -/
theorem Reads.move {expect : Expectation} {p : Piece} {text rest rest' : Text}
    (h : Reads expect p (text ++ rest)) (hrest : rest.Calm) (hrest' : rest'.Calm)
    (hadmits : p.Admits (text ++ rest')) : Reads expect p (text ++ rest') := by
  have hne : p.lexeme ++ text ≠ [] := List.append_ne_nil_of_left_ne_nil h.lexeme_ne_nil text
  obtain ⟨halone, -, hlength⟩ := reads_iff.1 h
  refine reads_iff.2 ⟨halone, hadmits, ?_⟩
  intro hpunct
  rw [← hlength hpunct, ← List.append_assoc, ← List.append_assoc,
    operatorLength_append_of_calm hne hrest, operatorLength_append_of_calm hne hrest']

/-- A blank begins with a blank byte, and nothing else does. -/
theorem CodePiece.isBlank_head {kind : Token.Kind} {b : Byte} {more rest : Text}
    (h : CodePiece kind (b :: more) rest) : b.isBlank = kind.isBlank := by
  cases h with
  | lf => rfl
  | crlf => rfl
  | cr => rfl
  | blanks hb => simp [Byte.isBlank, hb, Token.Kind.isBlank]
  | number hb => exact Byte.isBlank_of_isWord (Byte.isWord_of_isDigit hb)
  | fraction => rfl
  | word hkind hb =>
      rw [Byte.isBlank_of_isWord (Byte.isWord_of_isWordStart hb), hkind, wordKind]
      split_ifs <;> rfl
  | punct hblank => exact hblank

theorem Reads.isBlank_head {expect : Expectation} {p : Piece} {rest : Text}
    (h : Reads expect p rest) :
    ∃ b more, p.lexeme = b :: more ∧ b.isBlank = p.kind.isBlank := by
  obtain ⟨hne, ⟨kind, hkind, hcode, hread⟩ | ⟨-, hpiece⟩⟩ := h.cases
  · obtain ⟨b, more, hlexeme⟩ := List.exists_cons_of_ne_nil hne
    refine ⟨b, more, hlexeme, ?_⟩
    rw [hlexeme, List.cons_append] at hread
    have hsome : readLiteral? expect ⟨0, b :: (more ++ rest)⟩ ≠ none := by simp [hread]
    have hopens := opensLiteral_of_readLiteral? hsome
    have hblank : b.isBlank = false := by
      by_contra hb
      rw [Bool.not_eq_false] at hb
      simp [opensLiteral_eq_false hb (by decide)] at hopens
    rw [hblank, hkind]
    cases kind <;> rfl
  · obtain ⟨b, more, hlexeme⟩ := hpiece.exists_cons
    rw [hlexeme] at hpiece
    exact ⟨b, more, hlexeme, hpiece.isBlank_head⟩

theorem Reads.lexeme_of_kwLet {expect : Expectation} {p : Piece} {rest : Text}
    (h : Reads expect p rest) (hkind : p.kind = .kwLet) : p.lexeme = utf8 "let" := by
  obtain ⟨-, ⟨kind, hliteral, -, -⟩ | ⟨-, hpiece⟩⟩ := h.cases
  · rw [hkind] at hliteral
    cases kind <;> cases hliteral
  · rw [hkind] at hpiece
    generalize p.lexeme = lexeme at hpiece
    cases hpiece with
    | word hword =>
        rw [wordKind] at hword
        split_ifs at hword with hlet
        exact hlet

/-- A line comment needs no closing mark. -/
theorem Reads.not_isUnclosed_of_lineComment {expect : Expectation} {p : Piece} {rest : Text}
    (h : Reads expect p rest) (hkind : p.kind = .lineComment) : p.isUnclosed = false := by
  obtain ⟨-, ⟨kind, hliteral, -, hread⟩ | ⟨-, hpiece⟩⟩ := h.cases
  · obtain rfl : kind = .lineComment := literalKind_injective (hliteral.symm.trans hkind)
    simpa using closed_of_lineComment hread
  · exact isUnclosed_of_kind hpiece.not_isLiteral

/-! ### Runs of pieces -/

end Piece

def Region.Expectation.afterAll (expect : Expectation) (ps : List Piece) : Expectation :=
  ps.foldl Expectation.after expect

namespace Piece

/-- Pieces that are read one after another in front of `rest`. -/
def Chain : Expectation → List Piece → Text → Prop
  | _, [], _ => True
  | expect, p :: ps, rest => Reads expect p (spell ps ++ rest) ∧ Chain (expect.after p) ps rest

theorem chain_append {expect : Expectation} {ps qs : List Piece} {rest : Text} :
    Chain expect (ps ++ qs) rest ↔
      Chain expect ps (spell qs ++ rest) ∧ Chain (expect.afterAll ps) qs rest := by
  induction ps generalizing expect with
  | nil => simp [Chain, Expectation.afterAll]
  | cons p ps ih => simp [Chain, ih, Expectation.afterAll, and_assoc]

def settled (p : Piece) : Piece := { p with closed := !p.isUnclosed }

theorem Reads.next?_eq {expect : Expectation} {p : Piece} {rest : Text}
    (h : Reads expect p rest) : next? expect (p.lexeme ++ rest) = some (p.settled, rest) := by
  obtain ⟨closed, hnext⟩ := h
  have hclosed : closed = !p.isUnclosed := closed_of_next? hnext
  rw [hnext, hclosed, settled]

theorem streamFrom_of_chain {expect : Expectation} {ps : List Piece} {rest : Text}
    (h : Chain expect ps rest) :
    streamFrom expect (spell ps ++ rest) =
      ps.map settled ++ streamFrom (expect.afterAll ps) rest := by
  induction ps generalizing expect with
  | nil => rfl
  | cons p ps ih =>
      obtain ⟨hp, hps⟩ := h
      rw [spell_cons, List.append_assoc, streamFrom_of_next? hp.next?_eq]
      exact congrArg (List.cons p.settled) (ih hps)

theorem eq_nil_of_next? {expect : Expectation} {text : Text} (h : next? expect text = none) :
    text = [] := by
  cases text with
  | nil => rfl
  | cons b rest =>
      rw [next?] at h
      split at h <;> cases h

theorem spell_streamFrom (expect : Expectation) (text : Text) :
    spell (streamFrom expect text) = text := by
  fun_induction streamFrom expect text with
  | case1 expect text hnext => rw [eq_nil_of_next? hnext, spell_nil]
  | case2 expect text p rest hnext ih => rw [spell_cons, ih, ← (next?_eq_some hnext).1]

/-- Every text is a run of its pieces. -/
theorem chain_streamFrom (expect : Expectation) (text : Text) :
    Chain expect (streamFrom expect text) [] := by
  fun_induction streamFrom expect text with
  | case1 => trivial
  | case2 expect text p rest hnext ih =>
      refine ⟨⟨p.closed, ?_⟩, ih⟩
      rw [spell_streamFrom, List.append_nil, ← (next?_eq_some hnext).1, hnext]

theorem Chain.exists_reads {expect : Expectation} {ps : List Piece} {rest : Text}
    (h : Chain expect ps rest) :
    ∀ p ∈ ps, ∃ expect rest, Reads expect p rest := by
  induction ps generalizing expect with
  | nil => simp
  | cons p ps ih => exact List.forall_mem_cons.2 ⟨⟨_, _, h.1⟩, ih h.2⟩

theorem Chain.lexeme_of_kwLet {expect : Expectation} {ps : List Piece} {rest : Text}
    (h : Chain expect ps rest) : ∀ p ∈ ps, p.kind = .kwLet → p.lexeme = utf8 "let" := by
  intro p hp hkind
  obtain ⟨_, _, hread⟩ := h.exists_reads p hp
  exact hread.lexeme_of_kwLet hkind

theorem Chain.last_admits {expect : Expectation} {ps : List Piece} {rest : Text}
    (h : Chain expect ps rest) : ∀ p ∈ ps.getLast?, p.Admits rest := by
  induction ps generalizing expect with
  | nil => simp
  | cons p ps ih =>
      cases ps with
      | nil =>
          intro q hq
          cases hq
          exact (reads_iff.1 h.1).2.1
      | cons q qs => simpa using ih h.2

/-- A run of pieces stays what it is when one calm text takes the place of another behind it
and does not join the last piece. -/
theorem Chain.move {expect : Expectation} {ps : List Piece} {rest rest' : Text}
    (h : Chain expect ps rest) (hrest : rest.Calm) (hrest' : rest'.Calm)
    (hlast : ∀ p ∈ ps.getLast?, p.Admits rest') : Chain expect ps rest' := by
  induction ps generalizing expect with
  | nil => trivial
  | cons p ps ih =>
      obtain ⟨hp, hps⟩ := h
      cases ps with
      | nil => exact ⟨hp.move hrest hrest' (hlast p rfl), trivial⟩
      | cons q qs =>
          refine ⟨hp.move hrest hrest' ?_, ih hps ?_⟩
          · obtain ⟨b, more, hlexeme⟩ := List.exists_cons_of_ne_nil hps.1.lexeme_ne_nil
            have hadmits := (reads_iff.1 hp).2.1
            rw [spell_cons, hlexeme] at hadmits ⊢
            exact hadmits
          · simpa using hlast

end Piece

end LetBlocks
